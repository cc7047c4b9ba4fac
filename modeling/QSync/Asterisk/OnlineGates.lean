import QSync.Asterisk.ComparisonRun

/-! # The values of the online phase

`onlineValue` says which value a gate gives its output wire in the online phase, from the values of
its input wires, when `err w` is added to what is opened for the gate with output wire `w`. For a
linear gate it is the plaintext value, for a multiplication the plaintext value plus the error; for
`kEqz` and `kLtz` gates see `onlineValue_eqz` and `onlineValue_ltz`. `openedShare_authenticates`: with
valid preprocessing, the shares that are opened for a gate authenticate `openedSecret`.
-/

namespace QSync
open Network Batching
set_option autoImplicit false
set_option maxHeartbeats 250000

section Values
variable {M : Modulus}

/-! ## Comparison gates with valid preprocessing -/

def ComparisonGate.circuit : ComparisonGate M → Circuit BoolRing
  | .eqz .. => multk_circ
  | .ltz .. => prefixOR_circ

theorem ComparisonGate.Agrees.members {nP i : ℕ} {f : ℕ → Field M} {bf : ℕ → BoolRing}
    {x y : ComparisonGate M} (h : ComparisonGate.Agrees nP f bf i True x y) :
    MaskShare.Agrees nP f i x.mask_b y.mask_b ∧ MaskShare.Agrees nP f i x.mask_w y.mask_w ∧
      BoolAgrees nP bf i x.circuit x.gates y.gates ∧ y.padded_val = x.padded_val := by
  cases x with
  | eqz b w r gates pv =>
    cases y with
    | eqz => exact ⟨h.1, h.2.1, h.2.2.2.1, h.2.2.2.2 trivial⟩
    | ltz => exact h.elim
  | ltz b w gates pv =>
    cases y with
    | eqz => exact h.elim
    | ltz => exact ⟨h.1, h.2.1, h.2.2.1, h.2.2.2 trivial⟩

/-- What the preprocessing of a comparison gate opens to, for both types alike. -/
structure ComparisonOpens (c : Circuit BoolRing) (mask : Field M → ℕ → BoolRing) (wout : ℕ)
    (δ : Field M) (pregate : PreprocGate (Field M) (ComparisonGate M)) : Prop where
  ext_eq : pregate.ext = .comparison (comparisonOf pregate.ext)
  circuit_eq : (comparisonOf pregate.ext).circuit = c
  secret_eq : pregate.secret = -(comparisonOf pregate.ext).mask_b.secret -
    2 * (comparisonOf pregate.ext).mask_w.secret
  bits : BoolOpens c (mask ((comparisonOf pregate.ext).padded_val + δ))
    (comparisonOf pregate.ext).gates
  mask_b_eq : (comparisonOf pregate.ext).mask_b.secret =
    arithBit ((comparisonOf pregate.ext).gates wout).secret

theorem FieldOpens.eqz {ipm : ℕ → ℕ} {δ : ℕ → Field M} {a out : ℕ}
    {pregate : PreprocGate (Field M) (ComparisonGate M)}
    (h : FieldOpens ipm δ ⟨.kEqz a, out⟩ pregate) :
    ComparisonOpens multk_circ multkMask multkOut (δ a) pregate := by
  obtain ⟨mask_b, mask_w, rval, gates, padded_val, hext, hs, -, hbits, hb⟩ := h
  constructor <;> rw [hext]
  · rfl
  · rfl
  · exact hs
  · exact hbits
  · exact hb

theorem FieldOpens.ltz {ipm : ℕ → ℕ} {δ : ℕ → Field M} {a out : ℕ}
    {pregate : PreprocGate (Field M) (ComparisonGate M)}
    (h : FieldOpens ipm δ ⟨.kLtz a, out⟩ pregate) :
    ComparisonOpens prefixOR_circ prefixORMask prefixOROut (δ a) pregate := by
  obtain ⟨mask_b, mask_w, gates, padded_val, hext, hs, hbits, hb⟩ := h
  constructor <;> rw [hext]
  · rfl
  · rfl
  · exact hs
  · exact hbits
  · exact hb

/-! ## Values -/

section
variable (f err : ℕ → Field M) (C : FieldGates M) (g : Gate (Field M)) (V : ℕ → Field M)

/-- The output mask of the Boolean circuit of a comparison gate. -/
def outputMask : BoolRing :=
  match g.op with
  | .kEqz _ => ((comparisonOf (C g.out).ext).gates multkOut).secret
  | .kLtz _ => ((comparisonOf (C g.out).ext).gates prefixOROut).secret
  | _ => 0

/-- `masked_b` of a comparison gate. -/
def maskedBit : Field M :=
  match g.op with
  | .kEqz a => arithBit (decide (V a = 0) + outputMask C g)
  | .kLtz a => arithBit (wraps (V a) + outputMask C g)
  | _ => 0

/-- What is opened for a gate when nothing is falsified. -/
def openedSecret : Field M :=
  let pre := comparisonOf (C g.out).ext
  match g.op with
  | .kEqz _ => pre.mask_w.secret - pre.mask_b.secret * maskedBit C g V
  | .kLtz _ => pre.mask_w.secret + pre.mask_b.secret * maskedBit C g V
  | _ => (C g.out).secret + g.value f V

/-- The masked value of a wire for whose gate `q` has been opened. -/
def maskedOf (q : Field M) : Field M :=
  if g.type = .kEqz ∨ g.type = .kLtz then maskedBit C g V - 2 * q else q

def onlineValue : Field M :=
  if g.type ∈ openedTypes then
    maskedOf C g V (openedSecret f C g V + err g.out) - (C g.out).secret
  else g.value f V

end

variable {f err : ℕ → Field M} {C : FieldGates M} {g : Gate (Field M)} {V : ℕ → Field M}

theorem onlineValue_mult (h : g.type ∈ multTypes) :
    onlineValue f err C g V = g.value f V + err g.out := by
  obtain ⟨op, out⟩ := g
  have hopened : ∀ t ∈ multTypes, t ∈ openedTypes := by decide
  rw [onlineValue, if_pos (hopened _ h)]
  cases op with
  | kMul | kMul3 | kMul4 | kDotprod =>
    simp only [maskedOf, openedSecret, Gate.type, Op.type, reduceCtorEq, or_self, if_false]
    ring
  | _ => simp [multTypes, Gate.type, Op.type] at h

theorem onlineValue_of_not_opened (h : g.type ∉ openedTypes) :
    onlineValue f err C g V = g.value f V := if_neg h

theorem onlineValue_eqz {a out : ℕ}
    (h : ComparisonOpens multk_circ multkMask multkOut ((C a).secret) (C out)) :
    onlineValue f err C ⟨.kEqz a, out⟩ V =
      maskedBit C ⟨.kEqz a, out⟩ V + arithBit (outputMask C ⟨.kEqz a, out⟩) +
        2 * arithBit (outputMask C ⟨.kEqz a, out⟩) * maskedBit C ⟨.kEqz a, out⟩ V - 2 * err out := by
  have hm : (comparisonOf (C out).ext).mask_b.secret = arithBit (outputMask C ⟨.kEqz a, out⟩) :=
    h.mask_b_eq
  have hopened : (⟨.kEqz a, out⟩ : Gate (Field M)).type ∈ openedTypes :=
    of_decide_eq_true (rfl : decide (GateType.kEqz ∈ openedTypes) = true)
  rw [onlineValue, if_pos hopened, maskedOf, if_pos (.inl rfl), h.secret_eq]
  simp only [openedSecret, hm]
  ring

theorem onlineValue_ltz {a out : ℕ}
    (h : ComparisonOpens prefixOR_circ prefixORMask prefixOROut ((C a).secret) (C out)) :
    onlineValue f err C ⟨.kLtz a, out⟩ V = arithBit (wraps (V a)) - 2 * err out := by
  have hm : (comparisonOf (C out).ext).mask_b.secret = arithBit (outputMask C ⟨.kLtz a, out⟩) :=
    h.mask_b_eq
  have hopened : (⟨.kLtz a, out⟩ : Gate (Field M)).type ∈ openedTypes :=
    of_decide_eq_true (rfl : decide (GateType.kLtz ∈ openedTypes) = true)
  rw [onlineValue, if_pos hopened, maskedOf, if_pos (.inr rfl), h.secret_eq]
  simp only [openedSecret, hm, maskedBit, arithBit_add]
  -- the mask of the bit is taken off again
  linear_combination
    (4 * arithBit (wraps (V a)) - 2) * arithBit_mul_self (outputMask C ⟨.kLtz a, out⟩)

theorem onlineValue_local (f err : ℕ → Field M) (C : FieldGates M) :
    LocalTo (onlineValue f err C) := by
  rintro ⟨op, out⟩ ws ws' h
  have hvalue := Gate.value_local f ⟨op, out⟩ ws ws' h
  cases op with
  | kEqz a =>
    have ha : ws a = ws' a := h a (by simp [Gate.inputs, Op.inputs])
    simp only [onlineValue, maskedOf, openedSecret, maskedBit, ha, hvalue]
  | kLtz a =>
    have ha : ws a = ws' a := h a (by simp [Gate.inputs, Op.inputs])
    simp only [onlineValue, maskedOf, openedSecret, maskedBit, ha, hvalue]
  | _ => simp only [onlineValue, maskedOf, openedSecret, maskedBit, hvalue]

end Values

/-! ## Shares -/

section Shares
variable {M : Modulus}

/-- Valid preprocessing of a circuit: what the trusted party has opens right, the parties have their
components of it, and those that evaluate Boolean circuits hold the same stream of pads. -/
structure FieldPreproc (nP : ℕ) (keySh : ℕ → Field M) (bkeySh : ℕ → BoolRing) (ipm : ℕ → ℕ)
    (circ : Circuit (Field M)) (d : ℕ → PartyData M) : Prop where
  agrees : ∀ i ∈ parties nP, ∀ g ∈ circ.gates_, PreprocGate.Agrees nP keySh i
    (ComparisonGate.Agrees nP keySh bkeySh i True) ((d 0).preproc_ g.out) ((d i).preproc_ g.out)
  opens : ∀ g ∈ circ.gates_,
    FieldOpens ipm (fun w => ((d 0).preproc_ w).secret) g ((d 0).preproc_ g.out)
  pads : ∀ g ∈ circ.gates_, g.type = .kEqz ∨ g.type = .kLtz →
    ∃ st, ∀ i ∈ parties nP, (d i).boolRgen .all_minus_0 = st

def openedShare (id : ℕ) (d : PartyData M) (wires : ℕ → Field M) (m_b : Field M)
    (g : Gate (Field M)) : AuthAddShare (Field M) :=
  let pre := comparisonOf (d.preproc_ g.out).ext
  match g.type with
  | .kEqz => (eqzComparison.shareOf pre m_b).q_share
  | .kLtz => (ltzComparison.shareOf pre m_b).q_share
  | _ => gateShare id wires d.preproc_ g

variable {nP : ℕ} {keySh : ℕ → Field M} {bkeySh : ℕ → BoolRing} {ipm : ℕ → ℕ}
  {circ : Circuit (Field M)} {d : ℕ → PartyData M}

theorem openedShare_of_mult {id : ℕ} {d : PartyData M} {wires : ℕ → Field M} {m_b : Field M}
    {g : Gate (Field M)} (h : g.type ∈ multTypes) :
    openedShare id d wires m_b g = gateShare id wires d.preproc_ g := by
  unfold openedShare
  revert h
  cases g.type <;> first | exact fun _ => rfl | exact fun h => absurd h (by decide)

theorem FieldPreproc.comparison (hpre : FieldPreproc nP keySh bkeySh ipm circ d) {g : Gate (Field M)}
    (hg : g ∈ circ.gates_) {x : ComparisonGate M} (hx : ((d 0).preproc_ g.out).ext = .comparison x)
    {i : ℕ} (hi : i ∈ parties nP) : ComparisonGate.Agrees nP keySh bkeySh i True x
      (comparisonOf ((d i).preproc_ g.out).ext) := by
  have h := (hpre.agrees i hi g hg).ext
  rw [hx] at h
  cases hy : ((d i).preproc_ g.out).ext with
  | comparison y =>
    rw [hy] at h
    exact h
  | _ =>
    rw [hy] at h
    exact h.elim

theorem multShare_authenticates (hnP : 1 ≤ nP)
    (hpre : FieldPreproc nP keySh bkeySh ipm circ d) (f : ℕ → Field M) {g : Gate (Field M)}
    (hg : g ∈ circ.gates_) (ht : g.type ∈ multTypes) (V : ℕ → Field M) :
    SharesOf nP keySh
      (fun i => gateShare i (fun w => V w + ((d 0).preproc_ w).secret) (d i).preproc_ g)
      (((d 0).preproc_ g.out).secret + g.value f V) := by
  have hmem : ∀ i, 1 ≤ i → i ≤ nP → i ∈ parties nP := fun i hi hn => mem_parties.mpr ⟨hi, hn⟩
  have hspecial : g.type.special = false := by
    revert ht
    cases g.type <;> decide
  have hopens := (fieldOpens_iff hspecial).mp (hpre.opens g hg)
  have hauth : SharesOf nP keySh (fun i => gateShare i (fun w => V w + ((d 0).preproc_ w).secret)
      (d i).preproc_ g) _ := gateShare_authenticates hnP _ ht f (fun i hi hn w hw => ?_)
    (fun i hi hn => (hpre.agrees i (hmem i hi hn) g hg).ext) hopens
  · simp only [add_sub_cancel_right] at hauth
    exact hauth
  · obtain rfl | hw := hw
    · exact (hpre.agrees i (hmem i hi hn) g hg).mask
    · obtain ⟨g', hg', rfl⟩ := circ.exists_gate hg hw
      exact (hpre.agrees i (hmem i hi hn) g' hg').mask

theorem openedShare_authenticates (hnP : 1 ≤ nP)
    (hpre : FieldPreproc nP keySh bkeySh ipm circ d) (f : ℕ → Field M) {g : Gate (Field M)}
    (hg : g ∈ circ.gates_) (ht : g.type ∈ openedTypes) (V : ℕ → Field M) :
    SharesOf nP keySh (fun i => openedShare i (d i) (fun w => V w + ((d 0).preproc_ w).secret)
      (maskedBit (d 0).preproc_ g V) g) (openedSecret f (d 0).preproc_ g V) := by
  obtain ⟨op, out⟩ := g
  have hopens := hpre.opens _ hg
  have hcomparison : ∀ {c : Circuit BoolRing} {mask : Field M → ℕ → BoolRing} {wout : ℕ}
      {δ : Field M}, ComparisonOpens c mask wout δ ((d 0).preproc_ out) →
      SharesOf nP keySh (fun i => (comparisonOf ((d i).preproc_ out).ext).mask_b.sh)
          (comparisonOf ((d 0).preproc_ out).ext).mask_b.secret ∧
        SharesOf nP keySh (fun i => (comparisonOf ((d i).preproc_ out).ext).mask_w.sh)
          (comparisonOf ((d 0).preproc_ out).ext).mask_w.secret := by
    intro c mask wout δ h
    have hag := fun i hi hn =>
      (hpre.comparison hg h.ext_eq (mem_parties.mpr ⟨hi, hn⟩ : i ∈ parties nP)).members
    exact ⟨.of_agrees hnP fun i hi hn => (hag i hi hn).1,
      .of_agrees hnP fun i hi hn => (hag i hi hn).2.1⟩
  cases op with
  | kEqz a =>
    obtain ⟨hb, hw⟩ := hcomparison hopens.eqz
    exact hw.sub (hb.mul _)
  | kLtz a =>
    obtain ⟨hb, hw⟩ := hcomparison hopens.ltz
    exact hw.add (hb.mul _)
  | kMul | kMul3 | kMul4 | kDotprod =>
    exact multShare_authenticates hnP hpre f hg (of_decide_eq_true rfl) V
  | _ => simp [openedTypes, Gate.type, Op.type] at ht

end Shares

end QSync
