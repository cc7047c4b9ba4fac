import Mathlib.Algebra.Field.ZMod
import QSync.Asterisk.ComparisonGates

/-! # One falsified opening

The parties are honest and the preprocessing is valid, but `e` is added to what all of them take for
the opened value of one gate. `macCheck_iff`: the MAC check finds `e` times the key times the
challenges of the gate exactly when the gate is a multiplication; for `kEqz` and `kLtz` gates no
challenge is drawn.
-/

namespace QSync
open Network
set_option autoImplicit false
set_option maxHeartbeats 250000

section Falsified
variable {M : Modulus}

/-- What is added to the opened value of each gate: `e` for one, nothing for the others. -/
def falsified (g : Gate (Field M)) (e : Field M) (w : ℕ) : Field M := if w = g.out then e else 0

theorem sum_falsified (cs : List (Gate (Field M) × Field M)) (g : Gate (Field M)) (e key : Field M) :
    (cs.map fun x => x.2 * (falsified g e x.1.out * key)).sum =
      ((cs.filter fun x => x.1.out = g.out).map Prod.snd).sum * e * key := by
  induction cs with
  | nil => simp
  | cons x cs ih =>
    rw [List.map_cons, List.sum_cons, ih, falsified, List.filter_cons]
    by_cases h : x.1.out = g.out
    · simp only [h, if_true, decide_true, List.map_cons, List.sum_cons]
      ring
    · simp only [h, if_false, decide_false, Bool.false_eq_true]
      ring

variable {nP : ℕ} {keySh : ℕ → Field M} {bkeySh : ℕ → BoolRing} {ipm : ℕ → ℕ}
  {circ : Circuit (Field M)} {d : ℕ → PartyData M} (reseed : Bytes → Prg)

theorem challengesFor_ne_nil_iff (cc_key : Bytes) {g : Gate (Field M)} (hg : g ∈ circ.gates_) :
    challengesFor reseed cc_key circ.orderGatesByLevel g ≠ [] ↔ g.type ∈ multTypes := by
  refine ⟨fun h => ?_, fun ht => ?_⟩
  · obtain ⟨rho, hrho⟩ := List.exists_mem_of_ne_nil _ h
    obtain ⟨x, hx, -⟩ := List.mem_map.mp hrho
    obtain ⟨hx, hout⟩ := List.mem_filter.mp hx
    obtain ⟨hlevels, ht⟩ := mem_drawChallenges hx
    rwa [circ.out_injective ((circ.mem_levels _).mp hlevels) hg (of_decide_eq_true hout)] at ht
  · obtain ⟨rho, hrho⟩ := exists_challenge ⟨reseed cc_key, []⟩ ((circ.mem_levels g).mpr hg) ht
    have hmem : (g, rho) ∈ (macChallenges reseed cc_key circ.orderGatesByLevel).filter
        fun x => x.1.out = g.out := List.mem_filter.mpr ⟨hrho, decide_eq_true rfl⟩
    exact List.ne_nil_of_mem (List.mem_map_of_mem hmem)

theorem onlineResult_falsified (hnP : 1 ≤ nP) (hpre : FieldPreproc nP keySh bkeySh ipm circ d)
    (htypes : ∀ g ∈ circ.gates_, g.type.offline)
    (hdealers : DealersReady nP ipm circ fun i => (d i).inputs) {g : Gate (Field M)}
    (hg : g ∈ circ.gates_) (e : Field M) (id : ℕ) :
    (onlineResult nP ipm d reseed (falsified g e) circ.orderGatesByLevel id).res =
      (challengesFor reseed (ccKey d) circ.orderGatesByLevel g).sum * e *
        ∑ i ∈ Finset.Icc 1 nP, keySh i :=
  (onlineResult_res reseed hnP hpre htypes hdealers (List.ne_nil_of_mem hg) id).trans
    (sum_falsified _ g e _)

end Falsified

/-- The check finds a falsified opening exactly when the gate is a multiplication. -/
theorem macCheck_iff (M : Modulus) (nP : ℕ) (hnP : 1 ≤ nP) (circ : Circuit (Field M))
    (htypes : ∀ g ∈ circ.gates_, g.type.offline) (ipm : ℕ → ℕ) (keySh : ℕ → Field M)
    (bkeySh : ℕ → BoolRing) (d : ℕ → PartyData M) (hpre : FieldPreproc nP keySh bkeySh ipm circ d)
    (hdealers : DealersReady nP ipm circ fun i => (d i).inputs) (reseed : Bytes → Prg)
    (g : Gate (Field M)) (hg : g ∈ circ.gates_) (e : Field M) :
    ∃ r, Converges (Finset.range (nP + 1)) (fun id =>
        evaluateCircuit reseed nP id (d id) (falsified g e) circ.orderGatesByLevel) r ∧
      ((challengesFor reseed (ccKey d) circ.orderGatesByLevel g ≠ [] ∧ ∀ id ≤ nP,
          (r id).res = (challengesFor reseed (ccKey d) circ.orderGatesByLevel g).sum * e *
            ∑ i ∈ Finset.Icc 1 nP, keySh i ∧
          (M.p.Prime → e ≠ 0 → ∑ i ∈ Finset.Icc 1 nP, keySh i ≠ 0 →
            (challengesFor reseed (ccKey d) circ.orderGatesByLevel g).sum ≠ 0 → (r id).res ≠ 0)) ↔
        g.type ∈ multTypes) := by
  refine ⟨_, (evaluateCircuit_completes hnP (hpre.inputsDealt hdealers)
    (List.ne_nil_of_mem hg)).converges, fun h => ?_, fun ht => ⟨?_, fun id _ => ?_⟩⟩
  · exact (challengesFor_ne_nil_iff reseed _ hg).mp h.1
  · exact (challengesFor_ne_nil_iff reseed _ hg).mpr ht
  · have hres := onlineResult_falsified reseed hnP hpre htypes hdealers hg e id
    refine ⟨hres, fun hp he hkey hsum => ?_⟩
    have : Fact M.p.Prime := ⟨hp⟩
    rw [hres]
    exact mul_ne_zero (mul_ne_zero hsum he) hkey

/-- What two parties that multiply 5 and 6 have after the offline phase. -/
def productData : ℕ → PartyData testModulus :=
  mpcData 2 (fun w => w + 1) twoInputs.orderGatesByLevel fun _ =>
    ⟨fun _ _ _ => 7, fun _ _ _ => 7, fun _ _ _ => 7, ⟨{0, 1}, fun w => w + 5⟩⟩

/-- The product is falsified. -/
theorem macCheck_iff_mul :
    ∃ keySh : ℕ → Field testModulus, ∃ r, Converges (Finset.range 3) (fun id => evaluateCircuit (fun _ _ _ => 7) 2 id
        (productData id) (falsified ⟨.kMul 0 1, 2⟩ 1) twoInputs.orderGatesByLevel) r ∧
      ((challengesFor (fun _ _ _ => 7) (ccKey productData) twoInputs.orderGatesByLevel
            ⟨.kMul 0 1, 2⟩ ≠ [] ∧ ∀ id ≤ 2,
          (r id).res = (challengesFor (fun _ _ _ => 7) (ccKey productData)
              twoInputs.orderGatesByLevel ⟨.kMul 0 1, 2⟩).sum * 1 * ∑ i ∈ Finset.Icc 1 2, keySh i ∧
          (testModulus.p.Prime → (1 : Field testModulus) ≠ 0 → ∑ i ∈ Finset.Icc 1 2, keySh i ≠ 0 →
            (challengesFor (fun _ _ _ => 7) (ccKey productData) twoInputs.orderGatesByLevel
              ⟨.kMul 0 1, 2⟩).sum ≠ 0 → (r id).res ≠ 0)) ↔
        (⟨.kMul 0 1, 2⟩ : Gate (Field testModulus)).type ∈ multTypes) := by
  have hgates : twoInputs.gates_ = [⟨.kInp, 0⟩, ⟨.kInp, 1⟩, ⟨.kMul 0 1, 2⟩] := rfl
  have htypes : ∀ g ∈ twoInputs.gates_, g.type.offline := by decide
  have hstreams : StreamsShared 2 twoInputs fun _ =>
      ⟨fun _ _ _ => 7, fun _ _ _ => 7, fun _ _ _ => 7, ⟨{0, 1}, fun w => w + 5⟩⟩ :=
    ⟨fun _ _ => rfl, fun _ _ => rfl, fun _ _ _ => rfl⟩
  obtain ⟨keySh, bkeySh, hpre⟩ := mpc_preproc (by decide) htypes hstreams fun w => w + 1
  refine ⟨keySh, macCheck_iff testModulus 2 (by decide) twoInputs htypes (fun w => w + 1) keySh bkeySh
    productData hpre (fun g hg ht => ?_) (fun _ _ _ => 7) ⟨.kMul 0 1, 2⟩ (by rw [hgates]; simp) 1⟩
  rw [hgates] at hg
  simp only [List.mem_cons, List.not_mem_nil, or_false] at hg
  obtain rfl | rfl | rfl := hg
  · exact ⟨mem_parties.mpr ⟨by decide, by decide⟩, by decide⟩
  · exact ⟨mem_parties.mpr ⟨by decide, by decide⟩, by decide⟩
  · cases ht

/-- What the only party and the trusted party have of one `kEqz` gate. -/
def eqzData : ℕ → PartyData testModulus :=
  mpcData 1 (fun _ => 1) (comparisonCircuit testModulus .kEqz).orderGatesByLevel (onlyParty 2)

/-- When a `kEqz` gate is falsified, no challenge is drawn for it and the check passes. -/
theorem macCheck_eqz :
    (∃ keySh bkeySh, FieldPreproc 1 keySh bkeySh (fun _ => 1) (comparisonCircuit testModulus .kEqz)
      eqzData) ∧
    ∃ r, Converges (Finset.range 2) (fun id => evaluateCircuit (fun _ _ _ => 7) 1 id (eqzData id)
        (falsified ⟨.kEqz 0, 1⟩ 1) (comparisonCircuit testModulus .kEqz).orderGatesByLevel) r ∧
      challengesFor (fun _ _ _ => 7) (ccKey eqzData)
        (comparisonCircuit testModulus .kEqz).orderGatesByLevel ⟨.kEqz 0, 1⟩ = [] ∧
      ∀ id ≤ 1, (r id).res = 0 := by
  set circ := comparisonCircuit testModulus .kEqz with hcirc
  have hgates : circ.gates_ = [⟨.kInp, 0⟩, ⟨.kEqz 0, 1⟩] := rfl
  have hmem : (⟨.kEqz 0, 1⟩ : Gate (Field testModulus)) ∈ circ.gates_ :=
    hgates ▸ List.mem_cons_of_mem _ List.mem_cons_self
  have htypes := onlyParty_types hgates (of_decide_eq_true rfl)
  have hready := onlyParty_ready hgates (fun h => nomatch h) 2
  obtain ⟨keySh, bkeySh, hpre⟩ := mpc_preproc le_rfl htypes (onlyParty_streams 2) fun _ => 1
  have hnone : challengesFor (fun _ _ _ => 7) (ccKey eqzData) circ.orderGatesByLevel
      ⟨.kEqz 0, 1⟩ = [] := by
    by_contra h
    exact absurd ((challengesFor_ne_nil_iff _ _ hmem).mp h) (by decide)
  refine ⟨⟨keySh, bkeySh, hpre⟩, _, (evaluateCircuit_completes le_rfl (hpre.inputsDealt hready)
    (List.ne_nil_of_mem hmem)).converges, hnone, fun id _ => ?_⟩
  have hres := onlineResult_falsified (d := eqzData) (fun _ _ _ => 7) le_rfl hpre htypes hready hmem 1 id
  rw [hnone, List.sum_nil, zero_mul, zero_mul] at hres
  exact hres

end QSync
