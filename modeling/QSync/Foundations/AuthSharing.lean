import Mathlib.Algebra.BigOperators.Ring.Finset
import Mathlib.Tactic.Ring
import Mathlib.Tactic.LinearCombination

/-! # Additive sharings with additive MAC tags

Parties `i ∈ I` hold a key share, a value share and a tag share over a commutative ring. The family
authenticates `x` when the values sum to `x` and the tags sum to `key * x`, the key being the sum of
the key shares. Authentication is closed under the ring operations done share by share.
-/

namespace QSync.AuthSharing
set_option autoImplicit false
set_option maxHeartbeats 250000

variable {ι R : Type} [CommRing R] {I : Finset ι} {key v v' t t' : ι → R} {x y : R}

/-- The shares `v` with tags `t` under the key shares `key` authenticate `x`. -/
structure Authenticates (I : Finset ι) (key v t : ι → R) (x : R) : Prop where
  opens : ∑ i ∈ I, v i = x
  tagged : ∑ i ∈ I, t i = (∑ i ∈ I, key i) * x

theorem Authenticates.add (h : Authenticates I key v t x) (h' : Authenticates I key v' t' y) :
    Authenticates I key (fun i => v i + v' i) (fun i => t i + t' i) (x + y) where
  opens := by rw [Finset.sum_add_distrib, h.opens, h'.opens]
  tagged := by rw [Finset.sum_add_distrib, h.tagged, h'.tagged, mul_add]

theorem Authenticates.mul_const (h : Authenticates I key v t x) (c : R) :
    Authenticates I key (fun i => v i * c) (fun i => t i * c) (x * c) where
  opens := by rw [← Finset.sum_mul, h.opens]
  tagged := by rw [← Finset.sum_mul, h.tagged, mul_assoc]

/-- A public constant is added to one party's value and, times the key share, to every tag. -/
theorem Authenticates.add_const [DecidableEq ι] (h : Authenticates I key v t x) {adder : ι}
    (ha : adder ∈ I) (c : R) :
    Authenticates I key (fun i => if i = adder then v i + c else v i) (fun i => t i + key i * c)
      (x + c) where
  opens := by
    have he : ∀ i ∈ I, (if i = adder then v i + c else v i) = v i + if i = adder then c else 0 := by
      intro i _
      split
      · rfl
      · rw [add_zero]
    rw [Finset.sum_congr rfl he, Finset.sum_add_distrib, h.opens, Finset.sum_ite_eq' I adder,
      if_pos ha]
  tagged := by rw [Finset.sum_add_distrib, h.tagged, ← Finset.sum_mul, mul_add]

/-- The check value of a public claim `z` about an authenticated `x` is the error times the key. -/
theorem Authenticates.check (h : Authenticates I key v t x) (z : R) :
    ∑ i ∈ I, (z * key i - t i) = (z - x) * ∑ i ∈ I, key i := by
  rw [Finset.sum_sub_distrib, ← Finset.mul_sum, h.tagged]
  ring

/-- One party adds to its value, and to its tag what that is worth under the whole key. -/
theorem Authenticates.shift [DecidableEq ι] (h : Authenticates I key v t x) {j : ι} (hj : j ∈ I)
    (e : R) : Authenticates I key (fun i => if i = j then v i + e else v i)
      (fun i => if i = j then t i + (∑ i ∈ I, key i) * e else t i) (x + e) := by
  have hsum : ∀ (u : ι → R) (a : R),
      ∑ i ∈ I, (if i = j then u i + a else u i) = ∑ i ∈ I, u i + a := by
    intro u a
    have he : ∀ i ∈ I, (if i = j then u i + a else u i) = u i + if i = j then a else 0 := by
      intro i _
      split
      · rfl
      · rw [add_zero]
    rw [Finset.sum_congr rfl he, Finset.sum_add_distrib, Finset.sum_ite_eq' I j, if_pos hj]
  exact ⟨by rw [hsum, h.opens], by rw [hsum, h.tagged, mul_add]⟩

/-- The shares of all parties but one determine those of the last. -/
theorem Authenticates.last_eq [DecidableEq ι] (h : Authenticates I key v t x)
    (h' : Authenticates I key v' t' x) {j : ι} (hj : j ∈ I)
    (hrest : ∀ i ∈ I, i ≠ j → v i = v' i ∧ t i = t' i) : v j = v' j ∧ t j = t' j := by
  have hlast : ∀ u u' : ι → R, ∑ i ∈ I, u i = ∑ i ∈ I, u' i → (∀ i ∈ I, i ≠ j → u i = u' i) →
      u j = u' j := by
    intro u u' hsum hu
    rw [← Finset.add_sum_erase I u hj, ← Finset.add_sum_erase I u' hj] at hsum
    have herase : ∑ i ∈ I.erase j, u i = ∑ i ∈ I.erase j, u' i :=
      Finset.sum_congr rfl fun i hi => hu i (Finset.mem_of_mem_erase hi) (Finset.ne_of_mem_erase hi)
    rw [herase] at hsum
    exact add_right_cancel hsum
  exact ⟨hlast v v' (h.opens.trans h'.opens.symm) fun i hi hne => (hrest i hi hne).1,
    hlast t t' (h.tagged.trans h'.tagged.symm) fun i hi hne => (hrest i hi hne).2⟩

end QSync.AuthSharing
