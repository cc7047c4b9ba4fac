import QSync.Asterisk.Mpc

/-! # The comparison gates, from the offline phase to the opened wire

`kEqz` gates open to the zero test unless the mask of the compared bit is one (`mpc_eqz_iff`), `kLtz`
gates to the half in which the representative lies (`mpc_ltz`), which is not the half that
`Circuit::evaluate` uses (`mpc_ltz_evaluate_iff`).
-/

namespace QSync
open Network
set_option autoImplicit false
set_option maxHeartbeats 250000

section Opened
variable {M : Modulus}

/-- What wire `w` of party `i` opens to: the masked value less the mask the trusted party has. -/
def mpcOpens (r : ℕ → MpcResult M) (i w : ℕ) : Field M :=
  (r i).online.state.wires_ w - ((r 0).offline.gates w).secret

variable {nP : ℕ} {ipm : ℕ → ℕ} {circ : Circuit (Field M)} {party : ℕ → MpcParty M}

def mpcResult (reseed : Bytes → Prg) (nP : ℕ) (ipm : ℕ → ℕ) (circ : LevelOrderedCircuit (Field M))
    (party : ℕ → MpcParty M) (id : ℕ) : MpcResult M :=
  ⟨mpcOffline nP ipm circ party id,
    onlineResult nP ipm (mpcData nP ipm circ party) reseed (fun _ => 0) circ id⟩

variable (reseed : Bytes → Prg)

/-- A gate opens to its value in the online phase, from what its inputs open to. -/
theorem mpcResult_opens (hnP : 1 ≤ nP) (htypes : ∀ g ∈ circ.gates_, g.type.offline)
    (hstreams : StreamsShared nP circ party)
    (hdealers : DealersReady nP ipm circ fun i => (party i).inputs) {g : Gate (Field M)}
    (hg : g ∈ circ.gates_) {i : ℕ} (hi : i ∈ parties nP) :
    mpcOpens (mpcResult reseed nP ipm circ.orderGatesByLevel party) i g.out =
      onlineValue (inputsOf ipm fun i => (party i).inputs) (fun _ => 0)
        (mpcOffline nP ipm circ.orderGatesByLevel party 0).gates g
        (mpcOpens (mpcResult reseed nP ipm circ.orderGatesByLevel party) i) := by
  obtain ⟨keySh, bkeySh, hpre⟩ := mpc_preproc hnP htypes hstreams ipm
  have hopens : ∀ w < circ.size,
      mpcOpens (mpcResult reseed nP ipm circ.orderGatesByLevel party) i w =
        onlineValues (inputsOf ipm fun i => (party i).inputs) (fun _ => 0)
          (mpcOffline nP ipm circ.orderGatesByLevel party 0).gates circ w := fun w hw =>
    onlineResult_opens reseed hnP hpre htypes hdealers hi hw
  rw [hopens _ (circ.out_lt hg), onlineValues_eq _ hg]
  exact onlineValue_local _ _ _ g _ _ fun w hw =>
    (hopens w (((circ.valid g hg).1 w hw).trans (circ.out_lt hg))).symm

theorem mpcOffline_opens (hnP : 1 ≤ nP) (htypes : ∀ g ∈ circ.gates_, g.type.offline)
    (hstreams : StreamsShared nP circ party) {g : Gate (Field M)} (hg : g ∈ circ.gates_) :
    FieldOpens ipm (fun w => ((mpcOffline nP ipm circ.orderGatesByLevel party 0).gates w).secret) g
      ((mpcOffline nP ipm circ.orderGatesByLevel party 0).gates g.out) := by
  obtain ⟨keySh, bkeySh, hpre⟩ := mpc_preproc hnP htypes hstreams ipm
  exact hpre.opens g hg

end Opened

/-! ## kEqz -/

section Eqz
variable {M : Modulus}

/-- `mask_b` of a comparison gate. -/
def mpcMaskB (r : ℕ → MpcResult M) (out : ℕ) : Field M :=
  (comparisonOf ((r 0).offline.gates out).ext).mask_b.secret

theorem four_eq_zero_iff (hp : M.p.Prime) : (4 : Field M) = 0 ↔ M.p = 2 := by
  rw [show (4 : Field M) = ((4 : ℕ) : Field M) by norm_num, ZMod.natCast_eq_zero_iff]
  refine ⟨fun h => ?_, fun h => ?_⟩
  · exact (Nat.prime_dvd_prime_iff_eq hp Nat.prime_two).mp
      (hp.dvd_of_dvd_pow (show M.p ∣ 2 ^ 2 from h))
  · rw [h]
    decide

/-- The bit with a mask taken off with the wrong sign is right when the mask is zero or the bit
set. -/
theorem eqz_opened_iff (b m : BoolRing) :
    (arithBit (b + m) + arithBit m + 2 * arithBit m * arithBit (b + m) : Field M) = arithBit b ↔
      b = true ∨ (arithBit m : Field M) = 0 ∨ (4 : Field M) = 0 := by
  change (arithBit (b ^^ m) + arithBit m + 2 * arithBit m * arithBit (b ^^ m) : Field M) = _ ↔ _
  cases b <;> cases m <;> norm_num [arithBit]

theorem onlineValue_eqz_iff {f : ℕ → Field M} {C : FieldGates M} {V : ℕ → Field M} {a out : ℕ}
    (h : ComparisonOpens multk_circ multkMask multkOut ((C a).secret) (C out)) :
    onlineValue f (fun _ => 0) C ⟨.kEqz a, out⟩ V = (if V a = 0 then 1 else 0) ↔
      V a = 0 ∨ (comparisonOf (C out).ext).mask_b.secret = 0 ∨ (4 : Field M) = 0 := by
  have hm : (comparisonOf (C out).ext).mask_b.secret = arithBit (outputMask C ⟨.kEqz a, out⟩) :=
    h.mask_b_eq
  have hbit : (if V a = 0 then 1 else 0 : Field M) = arithBit (decide (V a = 0)) := by
    simp [arithBit]
  rw [onlineValue_eqz h, hm, mul_zero, sub_zero, hbit]
  exact (eqz_opened_iff _ _).trans (by rw [decide_eq_true_iff])

end Eqz

/-- A `kEqz` gate opens to the zero test of its input when the input is zero or `mask_b` is. -/
theorem mpc_eqz_iff (M : Modulus) (hp : M.p.Prime) (nP : ℕ) (hnP : 1 ≤ nP)
    (circ : Circuit (Field M)) (hgates : circ.gates_ ≠ [])
    (htypes : ∀ g ∈ circ.gates_, g.type.offline) (ipm : ℕ → ℕ) (party : ℕ → MpcParty M)
    (reseed : Bytes → Prg) (hstreams : StreamsShared nP circ party)
    (hdealers : DealersReady nP ipm circ fun i => (party i).inputs) :
    ∃ r, Converges (Finset.range (nP + 1))
        (fun id => mpc reseed nP id ipm circ.orderGatesByLevel (party id)) r ∧
      ∀ a out, ⟨.kEqz a, out⟩ ∈ circ.gates_ → ∀ i, 1 ≤ i → i ≤ nP →
        (mpcOpens r i out = (if mpcOpens r i a = 0 then 1 else 0) ↔
          mpcOpens r i a = 0 ∨ mpcMaskB r out = 0 ∨ M.p = 2) := by
  refine ⟨mpcResult reseed nP ipm circ.orderGatesByLevel party,
    (mpc_completes hnP htypes hgates hstreams hdealers).converges, fun a out hg i hi hn => ?_⟩
  have hopens := mpcResult_opens reseed hnP htypes hstreams hdealers hg (mem_parties.mpr ⟨hi, hn⟩)
  rw [hopens, onlineValue_eqz_iff (mpcOffline_opens hnP htypes hstreams hg).eqz, four_eq_zero_iff hp]
  rfl

/-! ## One party and one gate -/

section OneGate
variable {M : Modulus} {circ : Circuit (Field M)} {g : Gate (Field M)}

/-- A circuit with one input and one gate that reads it. -/
def comparisonCircuit (M : Modulus) (type : GateType) : Circuit (Field M) := Circuit.built do
  let w0 ← Circuit.newInputWire
  let w1 ← Circuit.addGate1 type w0
  Circuit.setAsOutput w1

/-- The party that deals the input, with streams of sevens. -/
def onlyParty (x : Field M) (_ : ℕ) : MpcParty M :=
  ⟨fun _ _ _ => 7, fun _ _ _ => 7, fun _ _ _ => 7, ⟨{0}, fun _ => x⟩⟩

theorem onlyParty_streams (x : Field M) : StreamsShared 1 circ (onlyParty x) :=
  ⟨fun _ _ => rfl, fun _ _ => rfl, fun _ _ _ => rfl⟩

theorem onlyParty_ready (hgates : circ.gates_ = [⟨.kInp, 0⟩, g]) (hg : g.type ≠ .kInp)
    (x : Field M) : DealersReady 1 (fun _ => 1) circ fun i => (onlyParty x i).inputs := by
  intro g' hg' ht
  rw [hgates, List.mem_cons, List.mem_singleton] at hg'
  obtain rfl | rfl := hg'
  · exact ⟨mem_parties.mpr ⟨le_rfl, le_rfl⟩, Finset.mem_singleton_self 0⟩
  · exact absurd ht hg

theorem onlyParty_types (hgates : circ.gates_ = [⟨.kInp, 0⟩, g]) (htype : g.type.offline) :
    ∀ g' ∈ circ.gates_, g'.type.offline := by
  rw [hgates]
  intro g' hg'
  obtain rfl | hg' := List.mem_cons.mp hg'
  · rfl
  · rw [List.mem_singleton.mp hg']
    exact htype

theorem onlyParty_opens (hgates : circ.gates_ = [⟨.kInp, 0⟩, g]) (hg : g.type ≠ .kInp)
    (htype : g.type.offline) (x : Field M) (reseed : Bytes → Prg) :
    ∃ r, Converges (Finset.range 2)
        (fun id => mpc reseed 1 id (fun _ => 1) circ.orderGatesByLevel (onlyParty x id)) r ∧
      (r = mpcResult reseed 1 (fun _ => 1) circ.orderGatesByLevel (onlyParty x)) ∧
      mpcOpens r 1 0 = x ∧
      FieldOpens (fun _ => 1) (fun w => ((r 0).offline.gates w).secret) g
        ((r 0).offline.gates g.out) ∧
      mpcOpens r 1 g.out = onlineValue (fun _ => x) (fun _ => 0) (r 0).offline.gates g
        (mpcOpens r 1) := by
  have hin : (⟨.kInp, 0⟩ : Gate (Field M)) ∈ circ.gates_ := hgates ▸ List.mem_cons_self
  have hmem : g ∈ circ.gates_ := hgates ▸ List.mem_cons_of_mem _ List.mem_cons_self
  have htypes := onlyParty_types hgates htype
  have hready := onlyParty_ready hgates hg x
  have hone : 1 ∈ parties 1 := mem_parties.mpr ⟨le_rfl, le_rfl⟩
  exact ⟨_, (mpc_completes le_rfl htypes (List.ne_nil_of_mem hin) (onlyParty_streams x)
    hready).converges, rfl, mpcResult_opens reseed le_rfl htypes (onlyParty_streams x) hready hin hone,
    mpcOffline_opens le_rfl htypes (onlyParty_streams x) hmem,
    mpcResult_opens reseed le_rfl htypes (onlyParty_streams x) hready hmem hone⟩

theorem onlyParty_eqz (hgates : circ.gates_ = [⟨.kInp, 0⟩, ⟨.kEqz 0, 1⟩]) {x : Field M} (hx : x ≠ 0)
    (hfour : (4 : Field M) ≠ 0) (reseed : Bytes → Prg)
    (hmask : (comparisonOf ((mpcOffline 1 (fun _ => 1) circ.orderGatesByLevel (onlyParty x)
      0).gates 1).ext).mask_b.secret.val = 1) :
    ∃ r, Converges (Finset.range 2)
        (fun id => mpc reseed 1 id (fun _ => 1) circ.orderGatesByLevel (onlyParty x id)) r ∧
      mpcOpens r 1 0 = x ∧ mpcOpens r 1 1 ≠ 0 := by
  obtain ⟨r, hr, hres, hin, hpre, hout⟩ :=
    onlyParty_opens hgates (fun h => nomatch h) (of_decide_eq_true rfl) x reseed
  refine ⟨r, hr, hin, fun hzero => ?_⟩
  have hiff := onlineValue_eqz_iff (f := fun _ => x) (V := mpcOpens r 1) hpre.eqz
  have hne : mpcOpens r 1 0 ≠ 0 := hin.trans_ne hx
  rw [← hout, if_neg hne] at hiff
  obtain h | h | h := hiff.mp hzero
  · exact hne h
  · rw [hres] at h
    exact absurd ((congrArg ZMod.val h).symm.trans hmask) (by rw [ZMod.val_zero]; exact zero_ne_one)
  · exact hfour h

end OneGate

def smallModulus : Modulus := ⟨5, by decide, by decide⟩

/-- The setting of one party and one `kEqz` gate. -/
theorem mpc_eqz_iff_one :
    ∃ r, Converges (Finset.range 2)
        (fun id => mpc (fun _ _ _ => 7) 1 id (fun _ => 1)
          (comparisonCircuit smallModulus .kEqz).orderGatesByLevel (onlyParty 2 id)) r ∧
      ∀ a out, ⟨.kEqz a, out⟩ ∈ (comparisonCircuit smallModulus .kEqz).gates_ → ∀ i, 1 ≤ i → i ≤ 1 →
        (mpcOpens r i out = (if mpcOpens r i a = 0 then 1 else 0) ↔
          mpcOpens r i a = 0 ∨ mpcMaskB r out = 0 ∨ smallModulus.p = 2) := by
  have hgates : (comparisonCircuit smallModulus .kEqz).gates_ = [⟨.kInp, 0⟩, ⟨.kEqz 0, 1⟩] := rfl
  exact mpc_eqz_iff smallModulus (by decide) 1 le_rfl (comparisonCircuit smallModulus .kEqz)
    (by rw [hgates]; simp) (onlyParty_types hgates (of_decide_eq_true rfl)) (fun _ => 1) (onlyParty 2)
    (fun _ _ _ => 7) (onlyParty_streams 2) (onlyParty_ready hgates (fun h => nomatch h) 2)

theorem mpcMaskB_onlyParty :
    (comparisonOf ((mpcOffline 1 (fun _ => 1) (comparisonCircuit smallModulus .kEqz).orderGatesByLevel
      (onlyParty 2) 0).gates 1).ext).mask_b.secret.val = 1 := by
  decide +kernel

/-- The input 2 is not zero, but the wire does not open to 0. -/
theorem mpc_eqz_wrong :
    ∃ r, Converges (Finset.range 2) (fun id => mpc (fun _ _ _ => 7) 1 id (fun _ => 1)
        (comparisonCircuit smallModulus .kEqz).orderGatesByLevel (onlyParty 2 id)) r ∧
      mpcOpens r 1 0 = 2 ∧ mpcOpens r 1 1 ≠ 0 :=
  onlyParty_eqz rfl (by decide) (by decide) _ mpcMaskB_onlyParty

/-! ## kLtz -/

section Ltz
variable {M : Modulus}

theorem wraps_iff (hodd : Odd M.p) (x : Field M) : wraps x = true ↔ (M.p - 1) / 2 ≤ x.val := by
  obtain ⟨k, hk⟩ := hodd
  have hlt := ZMod.val_lt x
  rw [wraps, decide_eq_true_iff, halfModulus]
  omega

/-- The integers up to half of the modulus away from zero are told apart by their sign. -/
theorem val_threshold (hodd : Odd M.p) {v : ℤ} (hlow : -((M.p + 1) / 2 : ℤ) ≤ v)
    (hhigh : v ≤ ((M.p : ℤ) - 3) / 2) : (M.p - 1) / 2 ≤ (v : Field M).val ↔ v < 0 := by
  obtain ⟨k, hk⟩ := hodd
  have hpos : 0 < M.p := Nat.zero_lt_of_lt M.one_lt
  have hval : ((v : Field M).val : ℤ) = v % M.p := ZMod.val_intCast v
  by_cases hneg : v < 0
  · have hmod : v % (M.p : ℤ) = v + M.p := by
      rw [← Int.add_emod_right, Int.emod_eq_of_lt (by omega) (by omega)]
    omega
  · have hmod : v % (M.p : ℤ) = v := Int.emod_eq_of_lt (by omega) (by omega)
    omega

theorem arithBit_inj {a b : BoolRing} : (arithBit a : Field M) = arithBit b ↔ a = b := by
  cases a <;> cases b <;> simp [arithBit]

theorem msb_eq (x : Field M) :
    CircuitRing.msb x = (arithBit (decide (2 ^ 63 ≤ x.val)) : Field M) := by
  rw [field_msb]
  simp [arithBit]

theorem testModulus_odd : Odd testModulus.p := ⟨8908288945213654400, rfl⟩

theorem ltz_evaluate_iff (inputs : InputMap (Field testModulus)) (V : ℕ → Field testModulus)
    (a out : ℕ) : (⟨.kLtz a, out⟩ : Gate (Field testModulus)).evaluate inputs V =
        .ok (arithBit (wraps (V a))) ↔
      (V a).val < 8908288945213654400 ∨ 2 ^ 63 ≤ (V a).val := by
  have hev : (⟨.kLtz a, out⟩ : Gate (Field testModulus)).evaluate inputs V =
      .ok (CircuitRing.msb (V a)) := rfl
  have hhalf : (testModulus.p - 1) / 2 = 8908288945213654400 := rfl
  have hwraps := wraps_iff testModulus_odd (V a)
  rw [hhalf] at hwraps
  rw [hev, Except.ok.injEq, msb_eq, arithBit_inj, Bool.eq_iff_iff, decide_eq_true_iff, hwraps]
  omega

end Ltz

/-- A `kLtz` gate opens to 1 exactly in the upper half of the representatives, so it decides the sign
of the integers within half of the modulus around zero. -/
theorem mpc_ltz (M : Modulus) (hodd : Odd M.p) (nP : ℕ) (hnP : 1 ≤ nP) (circ : Circuit (Field M))
    (hgates : circ.gates_ ≠ []) (htypes : ∀ g ∈ circ.gates_, g.type.offline) (ipm : ℕ → ℕ)
    (party : ℕ → MpcParty M) (reseed : Bytes → Prg) (hstreams : StreamsShared nP circ party)
    (hdealers : DealersReady nP ipm circ fun i => (party i).inputs) :
    ∃ r, Converges (Finset.range (nP + 1))
        (fun id => mpc reseed nP id ipm circ.orderGatesByLevel (party id)) r ∧
      ∀ a out, ⟨.kLtz a, out⟩ ∈ circ.gates_ → ∀ i, 1 ≤ i → i ≤ nP →
        mpcOpens r i out = (if (M.p - 1) / 2 ≤ (mpcOpens r i a).val then 1 else 0) ∧
        ∀ v : ℤ, -((M.p + 1) / 2 : ℤ) ≤ v → v ≤ ((M.p : ℤ) - 3) / 2 → mpcOpens r i a = v →
          mpcOpens r i out = if v < 0 then 1 else 0 := by
  refine ⟨mpcResult reseed nP ipm circ.orderGatesByLevel party,
    (mpc_completes hnP htypes hgates hstreams hdealers).converges, fun a out hg i hi hn => ?_⟩
  have hopens := mpcResult_opens reseed hnP htypes hstreams hdealers hg (mem_parties.mpr ⟨hi, hn⟩)
  rw [onlineValue_ltz (mpcOffline_opens hnP htypes hstreams hg).ltz, mul_zero, sub_zero] at hopens
  have hbit := hopens
  rw [arithBit] at hbit
  simp only [wraps_iff hodd] at hbit
  refine ⟨hbit, fun v hlow hhigh hv => ?_⟩
  rw [hv] at hbit
  simp only [val_threshold hodd hlow hhigh] at hbit
  exact hbit

/-- One party and one `kLtz` gate. -/
theorem mpc_ltz_one :
    ∃ r, Converges (Finset.range 2)
        (fun id => mpc (fun _ _ _ => 7) 1 id (fun _ => 1)
          (comparisonCircuit testModulus .kLtz).orderGatesByLevel (onlyParty 40 id)) r ∧
      ∀ a out, ⟨.kLtz a, out⟩ ∈ (comparisonCircuit testModulus .kLtz).gates_ → ∀ i, 1 ≤ i → i ≤ 1 →
        mpcOpens r i out =
          (if (testModulus.p - 1) / 2 ≤ (mpcOpens r i a).val then 1 else 0) ∧
        ∀ v : ℤ, -((testModulus.p + 1) / 2 : ℤ) ≤ v → v ≤ ((testModulus.p : ℤ) - 3) / 2 →
          mpcOpens r i a = v → mpcOpens r i out = if v < 0 then 1 else 0 := by
  have hgates : (comparisonCircuit testModulus .kLtz).gates_ = [⟨.kInp, 0⟩, ⟨.kLtz 0, 1⟩] := rfl
  exact mpc_ltz testModulus testModulus_odd 1 le_rfl (comparisonCircuit testModulus .kLtz)
    (by rw [hgates]; simp) (onlyParty_types hgates (of_decide_eq_true rfl)) (fun _ => 1) (onlyParty 40)
    (fun _ _ _ => 7) (onlyParty_streams 40) (onlyParty_ready hgates (fun h => nomatch h) 40)

/-- With the modulus of the callers, the opened value is the one of `Circuit::evaluate` outside of the
representatives from `(p - 1) / 2` up to `2 ^ 63`. -/
theorem mpc_ltz_evaluate_iff (nP : ℕ) (hnP : 1 ≤ nP) (circ : Circuit (Field testModulus))
    (hgates : circ.gates_ ≠ []) (htypes : ∀ g ∈ circ.gates_, g.type.offline) (ipm : ℕ → ℕ)
    (party : ℕ → MpcParty testModulus) (reseed : Bytes → Prg) (hstreams : StreamsShared nP circ party)
    (hdealers : DealersReady nP ipm circ fun i => (party i).inputs)
    (inputs : InputMap (Field testModulus)) :
    ∃ r, Converges (Finset.range (nP + 1))
        (fun id => mpc reseed nP id ipm circ.orderGatesByLevel (party id)) r ∧
      ∀ a out, ⟨.kLtz a, out⟩ ∈ circ.gates_ → ∀ i, 1 ≤ i → i ≤ nP →
        ((⟨.kLtz a, out⟩ : Gate (Field testModulus)).evaluate inputs (mpcOpens r i) =
            .ok (mpcOpens r i out) ↔
          (mpcOpens r i a).val < 8908288945213654400 ∨ 2 ^ 63 ≤ (mpcOpens r i a).val) := by
  refine ⟨mpcResult reseed nP ipm circ.orderGatesByLevel party,
    (mpc_completes hnP htypes hgates hstreams hdealers).converges, fun a out hg i hi hn => ?_⟩
  have hopens := mpcResult_opens reseed hnP htypes hstreams hdealers hg (mem_parties.mpr ⟨hi, hn⟩)
  rw [onlineValue_ltz (mpcOffline_opens hnP htypes hstreams hg).ltz, mul_zero, sub_zero] at hopens
  rw [hopens]
  exact ltz_evaluate_iff _ _ _ _

theorem mpc_ltz_evaluate_one :
    ∃ r, Converges (Finset.range 2)
        (fun id => mpc (fun _ _ _ => 7) 1 id (fun _ => 1)
          (comparisonCircuit testModulus .kLtz).orderGatesByLevel (onlyParty 40 id)) r ∧
      ∀ a out, ⟨.kLtz a, out⟩ ∈ (comparisonCircuit testModulus .kLtz).gates_ → ∀ i, 1 ≤ i → i ≤ 1 →
        ((⟨.kLtz a, out⟩ : Gate (Field testModulus)).evaluate ⟨{0}, fun _ => 40⟩ (mpcOpens r i) =
            .ok (mpcOpens r i out) ↔
          (mpcOpens r i a).val < 8908288945213654400 ∨ 2 ^ 63 ≤ (mpcOpens r i a).val) := by
  have hgates : (comparisonCircuit testModulus .kLtz).gates_ = [⟨.kInp, 0⟩, ⟨.kLtz 0, 1⟩] := rfl
  exact mpc_ltz_evaluate_iff 1 le_rfl (comparisonCircuit testModulus .kLtz)
    (by rw [hgates]; simp) (onlyParty_types hgates (of_decide_eq_true rfl)) (fun _ => 1) (onlyParty 40)
    (fun _ _ _ => 7) (onlyParty_streams 40) (onlyParty_ready hgates (fun h => nomatch h) 40) _

/-- Half of the modulus is negative in the protocol and positive in the clear. -/
theorem mpc_ltz_evaluate_differs :
    ∃ r, Converges (Finset.range 2) (fun id => mpc (fun _ _ _ => 7) 1 id (fun _ => 1)
        (comparisonCircuit testModulus .kLtz).orderGatesByLevel
          (onlyParty (8908288945213654400 : ℕ) id)) r ∧
      mpcOpens r 1 0 = (8908288945213654400 : ℕ) ∧ mpcOpens r 1 1 = 1 ∧
      (comparisonCircuit testModulus .kLtz).evaluate ((comparisonCircuit testModulus .kLtz).assign
        fun _ => (8908288945213654400 : ℕ)) = .ok [0] := by
  set circ := comparisonCircuit testModulus .kLtz with hcirc
  have hgates : circ.gates_ = [⟨.kInp, 0⟩, ⟨.kLtz 0, 1⟩] := rfl
  have houts : circ.outputs_ = [1] := rfl
  have hval : ((8908288945213654400 : ℕ) : Field testModulus).val = 8908288945213654400 :=
    ZMod.val_natCast_of_lt (by decide)
  obtain ⟨r, hr, -, hin, hpre, hout⟩ := onlyParty_opens hgates (fun h => nomatch h)
    (of_decide_eq_true rfl) ((8908288945213654400 : ℕ) : Field testModulus) fun _ _ _ => 7
  refine ⟨r, hr, hin, ?_, ?_⟩
  · rw [onlineValue_ltz hpre.ltz, mul_zero, sub_zero, hin,
      (wraps_iff testModulus_odd _).mpr (by rw [hval]; decide)] at hout
    exact hout
  · have hmem : ∀ g ∈ circ.gates_, g.type ≠ .kRelu ∧ g.type ≠ .kTrdotp := by
      rw [hgates]
      simp [Gate.type, Op.type]
    rw [circ.evaluate_eq _ hmem, houts]
    refine congrArg (fun v => Except.ok [v]) ?_
    have h0 := circ.value_eq (fun _ => ((8908288945213654400 : ℕ) : Field testModulus))
      (hgates ▸ List.mem_cons_self : (⟨.kInp, 0⟩ : Gate (Field testModulus)) ∈ circ.gates_)
    have h1 := circ.value_eq (fun _ => ((8908288945213654400 : ℕ) : Field testModulus))
      (hgates ▸ List.mem_cons_of_mem _ List.mem_cons_self :
        (⟨.kLtz 0, 1⟩ : Gate (Field testModulus)) ∈ circ.gates_)
    refine h1.trans ?_
    change CircuitRing.msb _ = _
    rw [msb_eq, h0]
    change arithBit (decide (2 ^ 63 ≤ ((8908288945213654400 : ℕ) : Field testModulus).val)) = _
    rw [hval]
    rfl

end QSync
