import QSync.Asterisk.ComparisonGates
import QSync.Utils.SignTest

/-! # The ring in which the online phase computes

The online phase decides `kLtz` by another threshold than `Circuit::evaluate`. Otherwise it agrees with
plaintext evaluation, so that on circuits without `kEqz` it is plaintext evaluation in a ring with that
threshold (`mpc_evaluates`): the field, where the top bit of `x` says that `x` reaches `(p - 1) / 2`.
There the top bit is the sign of all numbers below half the modulus (`signTest_online`).
-/

namespace QSync
open Network
set_option autoImplicit false
set_option maxHeartbeats 250000

/-- The field with the comparison of the online phase, and without the gates it does not have. -/
def OnlineField (M : Modulus) : Type := Field M

instance (M : Modulus) : CircuitRing (OnlineField M) where
  toCommRing := inferInstanceAs (CommRing (Field M))
  isZero (x : Field M) := decide (x = 0)
  msb x := (arithBit (wraps x) : Field M)
  relu := .error "not preprocessed"
  truncate := .error "not preprocessed"

/-- The gates that open to a value which the masks do not change. -/
def GateType.decided (t : GateType) : Bool := t = .kInp || t.arithmetic || t = .kLtz

theorem decided_evaluable : ∀ t : GateType, t.decided → t ≠ .kRelu ∧ t ≠ .kTrdotp := by
  intro t
  cases t <;> decide

section Values
variable {M : Modulus} {nP : ℕ} {keySh : ℕ → Field M} {bkeySh : ℕ → BoolRing} {ipm : ℕ → ℕ}
  {circ : Circuit (Field M)} {d : ℕ → PartyData M}

theorem offline_of_decided (htypes : ∀ g ∈ circ.gates_, g.type.decided) :
    ∀ g ∈ circ.gates_, g.type.offline := by
  intro g hg
  have h := htypes g hg
  revert h
  cases g.type <;> decide

/-- The value of a wire when comparisons are decided as the online phase does. -/
def Circuit.valueOnline (circ : Circuit (Field M)) (f : ℕ → Field M) : ℕ → Field M :=
  Circuit.value (R := OnlineField M) circ f

/-- `Circuit::evaluate` with the comparison of the online phase. -/
def Circuit.evaluateOnline (circ : Circuit (Field M)) (inputs : InputMap (Field M)) :
    Except String (List (Field M)) := Circuit.evaluate (R := OnlineField M) circ inputs

theorem onlineValue_decided (hpre : FieldPreproc nP keySh bkeySh ipm circ d) {g : Gate (Field M)}
    (hg : g ∈ circ.gates_) (ht : g.type.decided) (f V : ℕ → Field M) :
    onlineValue f (fun _ => 0) (d 0).preproc_ g V =
      Gate.value (R := OnlineField M) f g V := by
  have hopens := hpre.opens g hg
  obtain ⟨op, out⟩ := g
  cases op with
  | kLtz a =>
    rw [onlineValue_ltz hopens.ltz, mul_zero, sub_zero]
    rfl
  | kMul a b | kMul3 a b c | kMul4 a b c d | kDotprod xs ys =>
    rw [onlineValue_mult (of_decide_eq_true rfl), add_zero]
    rfl
  | kInp | kAdd a b | kSub a b | kConstAdd a cval | kConstMul a cval =>
    rw [onlineValue_of_not_opened (of_decide_eq_true rfl)]
    rfl
  | kEqz a | kRelu a | kMsb a | kTrdotp xs ys => exact absurd ht (of_decide_eq_true rfl)

theorem onlineValues_decided (hpre : FieldPreproc nP keySh bkeySh ipm circ d)
    (htypes : ∀ g ∈ circ.gates_, g.type.decided) (f : ℕ → Field M) {w : ℕ} (hw : w < circ.size) :
    onlineValues f (fun _ => 0) (d 0).preproc_ circ w = circ.valueOnline f w := by
  apply Circuit.value_unique (R := OnlineField M) circ f
  · intro g hg
    rw [onlineValues_eq _ hg]
    exact onlineValue_decided hpre hg (htypes g hg) f _
  · exact hw

theorem evaluateOnline_eq (htypes : ∀ g ∈ circ.gates_, g.type.decided) (f : ℕ → Field M) :
    circ.evaluateOnline (circ.assign f) = .ok (circ.outputs_.map (circ.valueOnline f)) := by
  apply Circuit.evaluate_eq (R := OnlineField M) circ f
  exact fun g hg => decided_evaluable _ (htypes g hg)

/-- Both thresholds decide `x` alike. -/
def SameSign (x : Field M) : Prop := M.p ≤ x.val + halfModulus M ↔ 2 ^ 63 ≤ x.val

instance (x : Field M) : Decidable (SameSign x) := inferInstanceAs (Decidable (_ ↔ _))

/-- Where all values that are compared are decided alike, the wires have their plaintext values. -/
theorem valueOnline_eq (htypes : ∀ g ∈ circ.gates_, g.type.decided) {f : ℕ → Field M}
    (hsign : ∀ g ∈ circ.gates_, ∀ a, g.op = .kLtz a → SameSign (circ.value f a)) {w : ℕ}
    (hw : w < circ.size) : circ.value f w = circ.valueOnline f w := by
  apply Circuit.value_unique (R := OnlineField M) circ f
  · intro g hg
    rw [circ.value_eq f hg]
    have ht := htypes g hg
    have hcompare := hsign g hg
    obtain ⟨op, out⟩ := g
    cases op with
    | kLtz a =>
      change CircuitRing.msb (circ.value f a) = arithBit (wraps (circ.value f a))
      rw [field_msb, arithBit, wraps]
      simp only [decide_eq_true_eq, if_congr (hcompare a rfl) rfl rfl]
    | kEqz a | kRelu a | kMsb a | kTrdotp xs ys => exact absurd ht (of_decide_eq_true rfl)
    | _ => rfl
  · exact hw

end Values

/-- In the online phase the top bit is the sign of all numbers below half the modulus. -/
theorem signTest_online (M : Modulus) {B : ℕ} (hB : 2 * B ≤ M.p) : SignTest (OnlineField M) B where
  nonneg k hk := by
    have hval : ((k : ℕ) : Field M).val = k := ZMod.val_cast_of_lt (by omega)
    have hwraps : wraps ((k : ℕ) : Field M) = false := by
      rw [wraps, hval, decide_eq_false_iff_not, halfModulus]
      omega
    change (arithBit (wraps ((k : ℕ) : Field M)) : Field M) = 0
    rw [hwraps]
    rfl
  neg k hk hpos := by
    have hlt : k < M.p := by omega
    have hval : (-((k : ℕ) : Field M)).val = M.p - k := by
      rw [ZMod.neg_val', ZMod.val_cast_of_lt hlt, Nat.mod_eq_of_lt (by omega)]
    have hwraps : wraps (-((k : ℕ) : Field M)) = true := by
      rw [wraps, hval, decide_eq_true_eq, halfModulus]
      omega
    change (arithBit (wraps (-((k : ℕ) : Field M))) : Field M) = 1
    rw [hwraps]
    rfl

/-- The runs of the protocol end, and the parties return the values of the outputs. -/
theorem mpc_returns_online {M : Modulus} {nP : ℕ} {circ : Circuit (Field M)} {ipm : ℕ → ℕ}
    {party : ℕ → MpcParty M} (hnP : 1 ≤ nP) (hgates : circ.gates_ ≠ [])
    (htypes : ∀ g ∈ circ.gates_, g.type.decided) (reseed : Bytes → Prg)
    (hstreams : StreamsShared nP circ party)
    (hdealers : DealersReady nP ipm circ fun i => (party i).inputs) :
    ∃ r, Converges (Finset.range (nP + 1))
        (fun id => mpc reseed nP id ipm circ.orderGatesByLevel (party id)) r ∧
      ∀ i ∈ parties nP, (r i).online.res = 0 ∧ (r i).online.outvals =
        circ.outputs_.map (circ.valueOnline (inputsOf ipm fun i => (party i).inputs)) := by
  have hoffline := offline_of_decided htypes
  obtain ⟨keySh, bkeySh, hpre⟩ := mpc_preproc hnP hoffline hstreams ipm
  have hres := onlineResult_honest reseed hnP hpre hoffline hdealers hgates
  refine ⟨_, (mpc_completes hnP hoffline hgates hstreams hdealers).converges, fun i hi => ⟨hres i, ?_⟩⟩
  refine (onlineResult_outvals reseed hnP hpre hoffline hdealers hi (hres i)).trans ?_
  apply List.map_congr_left
  intro w hw
  exact onlineValues_decided hpre htypes _ (circ.outputs_valid w hw)

/-- The protocol on a circuit of arithmetic gates and comparisons with zero: under every schedule the MAC
check passes and each party returns what plaintext evaluation returns with the threshold of the online
phase; that is what `Circuit::evaluate` returns when the two thresholds decide alike every value that it
compares. -/
theorem mpc_evaluates (M : Modulus) (nP : ℕ) (hnP : 1 ≤ nP) (circ : Circuit (Field M))
    (hgates : circ.gates_ ≠ []) (htypes : ∀ g ∈ circ.gates_, g.type.decided) (ipm : ℕ → ℕ)
    (party : ℕ → MpcParty M) (reseed : Bytes → Prg) (hstreams : StreamsShared nP circ party)
    (hdealers : DealersReady nP ipm circ fun i => (party i).inputs) :
    let x := inputsOf ipm fun i => (party i).inputs
    ∃ r, Converges (Finset.range (nP + 1))
        (fun id => mpc reseed nP id ipm circ.orderGatesByLevel (party id)) r ∧
      ∀ i ∈ parties nP, (r i).online.res = 0 ∧
        circ.evaluateOnline (circ.assign x) = .ok (r i).online.outvals ∧
        ((∀ g ∈ circ.gates_, ∀ a, g.op = .kLtz a → SameSign (circ.value x a)) →
          circ.evaluate (circ.assign x) = .ok (r i).online.outvals) := by
  intro x
  obtain ⟨r, hr, hout⟩ := mpc_returns_online hnP hgates htypes reseed hstreams hdealers
  refine ⟨r, hr, fun i hi => ?_⟩
  obtain ⟨hres, houtvals⟩ := hout i hi
  refine ⟨hres, ?_, fun hsign => ?_⟩
  · rw [evaluateOnline_eq htypes]
    exact congrArg Except.ok houtvals.symm
  · rw [circ.evaluate_eq x fun g hg => decided_evaluable _ (htypes g hg)]
    have hsame : circ.outputs_.map (circ.value x) = circ.outputs_.map (circ.valueOnline x) :=
      List.map_congr_left fun w hw => valueOnline_eq htypes hsign (circ.outputs_valid w hw)
    exact congrArg Except.ok (hsame.trans houtvals.symm)

/-- Whether the input of party 1 is less than that of party 2. -/
def lessCircuit : Circuit (Field testModulus) := Circuit.built do
  let w0 ← Circuit.newInputWire
  let w1 ← Circuit.newInputWire
  let w2 ← Circuit.addGate2 .kSub w0 w1
  let w3 ← Circuit.addGate1 .kLtz w2
  Circuit.setAsOutput w3

/-- Two parties compare 5 and 6. -/
theorem mpc_evaluates_less :
    ∃ r, Converges (Finset.range 3)
        (fun id => mpc (fun _ _ _ => 7) 2 id (fun w => w + 1) lessCircuit.orderGatesByLevel
          ⟨fun _ _ _ => 7, fun _ _ _ => 7, fun _ _ _ => 7, ⟨{0, 1}, fun w => w + 5⟩⟩) r ∧
      ∀ i ∈ parties 2, (r i).online.res = 0 ∧
        lessCircuit.evaluate (lessCircuit.assign fun w => w + 5) = .ok (r i).online.outvals := by
  have hgates : lessCircuit.gates_ = [⟨.kInp, 0⟩, ⟨.kInp, 1⟩, ⟨.kSub 0 1, 2⟩, ⟨.kLtz 2, 3⟩] := rfl
  obtain ⟨r, hr, hout⟩ := mpc_evaluates testModulus 2 (by decide) lessCircuit
    (by rw [hgates]; simp) (of_decide_eq_true rfl) (fun w => w + 1)
    (fun _ => ⟨fun _ _ _ => 7, fun _ _ _ => 7, fun _ _ _ => 7, ⟨{0, 1}, fun w => w + 5⟩⟩)
    (fun _ _ _ => 7) ⟨fun _ _ => rfl, fun _ _ => rfl, fun _ _ _ => rfl⟩ (by
      intro g hg ht
      rw [hgates] at hg
      simp only [List.mem_cons, List.not_mem_nil, or_false] at hg
      obtain rfl | rfl | rfl | rfl := hg
      · exact ⟨by decide, by decide⟩
      · exact ⟨by decide, by decide⟩
      · cases ht
      · cases ht)
  refine ⟨r, hr, fun i hi => ⟨(hout i hi).1, (hout i hi).2.2 ?_⟩⟩
  intro g hg a ha
  rw [hgates] at hg
  simp only [List.mem_cons, List.not_mem_nil, or_false] at hg
  obtain rfl | rfl | rfl | rfl := hg
  · cases ha
  · cases ha
  · cases ha
  · cases ha
    decide +kernel

end QSync
