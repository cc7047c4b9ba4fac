import Mathlib.Algebra.BigOperators.Fin
import Mathlib.Algebra.Order.BigOperators.Group.Finset
import Mathlib.Data.Fintype.BigOperators
import Mathlib.Data.ZMod.Basic
import Mathlib.Tactic.Ring

/-! # Linear forms in random words

Coefficients drawn by reducing words to a ring: when no ring element has more than `b` words, a linear
form with an invertible coefficient takes a given value for at most `b` out of every `|W|` choices
(`card_linearForm_le`).
-/

namespace QSync.LinearForms
set_option autoImplicit false
set_option maxHeartbeats 250000

section Forms
variable {W κ R : Type} [Fintype W] [DecidableEq W] [Fintype κ] [DecidableEq κ] [CommRing R] [DecidableEq R]

/-- No ring element has more than `b` words. -/
def FibresAtMost (ι : W → R) (b : ℕ) : Prop :=
  ∀ t, (Finset.univ.filter fun w => ι w = t).card ≤ b

/-- Given the other words, the word at an invertible coefficient is one of those of a ring element. -/
theorem card_fibre_le {ι : W → R} {b : ℕ} (hι : FibresAtMost ι b) (c : κ → R) {j : κ}
    (hj : IsUnit (c j)) (t : R) (rest : {i // i ≠ j} → W) :
    (Finset.univ.filter fun ρ : κ → W => ∑ i, ι (ρ i) * c i = t ∧
      (fun i : {i // i ≠ j} => ρ i.1) = rest).card ≤ b := by
  obtain ⟨u, hu⟩ := hj
  -- the form without `j` depends on `rest` only
  let others : R := ∑ i : {i // i ≠ j}, ι (rest i) * c i.1
  refine le_trans ?_ (hι ((t - others) * ↑u⁻¹))
  refine Finset.card_le_card_of_injOn (fun ρ : κ → W => ρ j) (fun ρ hρ => ?_) fun ρ hρ ρ' hρ' heq => ?_
  · obtain ⟨hform, hrest⟩ := (Finset.mem_filter.mp (Finset.mem_coe.mp hρ)).2
    refine Finset.mem_coe.mpr (Finset.mem_filter.mpr ⟨Finset.mem_univ _, ?_⟩)
    have hsplit : ∑ i, ι (ρ i) * c i = ι (ρ j) * c j + others := by
      rw [Fintype.sum_eq_add_sum_subtype_ne _ j]
      refine congrArg (ι (ρ j) * c j + ·) (Finset.sum_congr rfl fun i _ => ?_)
      rw [← hrest]
    rw [hform] at hsplit
    rw [hsplit, add_sub_cancel_right, ← hu, mul_assoc, Units.mul_inv, mul_one]
  · have hrest := (Finset.mem_filter.mp (Finset.mem_coe.mp hρ)).2.2
    have hrest' := (Finset.mem_filter.mp (Finset.mem_coe.mp hρ')).2.2
    funext i
    by_cases hi : i = j
    · rw [hi]
      exact heq
    · exact congrFun (hrest.trans hrest'.symm) ⟨i, hi⟩

theorem card_linearForm_le {ι : W → R} {b : ℕ} (hι : FibresAtMost ι b) (c : κ → R) {j : κ}
    (hj : IsUnit (c j)) (t : R) :
    (Finset.univ.filter fun ρ : κ → W => ∑ i, ι (ρ i) * c i = t).card ≤
      b * Fintype.card W ^ (Fintype.card κ - 1) := by
  have hrest : Fintype.card ({i // i ≠ j} → W) = Fintype.card W ^ (Fintype.card κ - 1) := by
    rw [Fintype.card_fun, Fintype.card_subtype_compl, Fintype.card_subtype_eq]
  rw [← hrest, ← Finset.card_univ]
  have hmaps : ∀ ρ ∈ Finset.univ.filter fun ρ : κ → W => ∑ i, ι (ρ i) * c i = t,
      (fun i : {i // i ≠ j} => ρ i.1) ∈ (Finset.univ : Finset ({i // i ≠ j} → W)) :=
    fun ρ _ => Finset.mem_univ _
  refine Finset.card_le_mul_card_image_of_maps_to hmaps b fun rest _ => ?_
  rw [Finset.filter_filter]
  exact card_fibre_le hι c hj t rest

end Forms

/-! ## Machine words -/

/-- Different integers from an interval of length `N`, modulo `p`: each residue is that of one in `p`,
rounded up. -/
theorem fibres_interval {W : Type} [Fintype W] {f : W → ℤ} (hinj : Function.Injective f) {a : ℤ} {N : ℕ}
    (hmem : ∀ w, a ≤ f w ∧ f w < a + N) (p : ℕ) :
    FibresAtMost (fun w => (f w : ZMod p)) ((N - 1) / p + 1) := by
  intro t
  rw [← Finset.card_range ((N - 1) / p + 1)]
  refine Finset.card_le_card_of_injOn (fun w => (f w - a).toNat / p) (fun w _ => ?_)
    fun w hw w' hw' heq => hinj ?_
  · have hw := hmem w
    refine Finset.mem_coe.mpr (Finset.mem_range.mpr (Nat.lt_succ_of_le (Nat.div_le_div_right ?_)))
    omega
  · -- the same quotient and the same remainder
    have hres : ((f w : ℤ) : ZMod p) = (f w' : ℤ) :=
      (Finset.mem_filter.mp (Finset.mem_coe.mp hw)).2.trans
        (Finset.mem_filter.mp (Finset.mem_coe.mp hw')).2.symm
    have hnat : ∀ w, (((f w - a).toNat : ℕ) : ZMod p) = (f w : ZMod p) - a := by
      intro w
      rw [← Int.cast_natCast, Int.toNat_of_nonneg (sub_nonneg.mpr (hmem w).1), Int.cast_sub]
    have hmod : (f w - a).toNat % p = (f w' - a).toNat % p := by
      refine (ZMod.natCast_eq_natCast_iff' _ _ p).mp ?_
      rw [hnat, hnat, hres]
    have hdiv : (f w - a).toNat / p = (f w' - a).toNat / p := heq
    have hsame : (f w - a).toNat = (f w' - a).toNat := by
      rw [← Nat.div_add_mod (f w - a).toNat p, hdiv, hmod, Nat.div_add_mod]
    have hw := hmem w
    have hw' := hmem w'
    omega

/-- Signed words. -/
theorem fibres_toInt (n p : ℕ) :
    FibresAtMost (fun w : Fin (2 ^ (n + 1)) => ((BitVec.ofFin w).toInt : ZMod p))
      ((2 ^ (n + 1) - 1) / p + 1) := by
  refine fibres_interval (a := -2 ^ n) (fun w w' h => ?_) (fun w => ?_) p
  · exact congrArg BitVec.toFin (BitVec.eq_of_toInt_eq h)
  · have hlo := BitVec.le_toInt (BitVec.ofFin w)
    have hhi := BitVec.toInt_lt (x := BitVec.ofFin w)
    rw [Nat.add_sub_cancel] at hlo hhi
    refine ⟨hlo, hhi.trans_eq ?_⟩
    push_cast
    ring

end QSync.LinearForms
