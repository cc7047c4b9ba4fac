import Mathlib.Order.Bounds.Basic
import Mathlib.Logic.Function.Iterate
import Mathlib.Tactic.Push

/-! # Descending to a greatest point

A step that goes down from `top` and never passes below a point of a set, and that rests in the set only,
reaches the greatest point of the set below `top`, in at most as many turns as a size allows.
-/

namespace QSync
set_option autoImplicit false
set_option maxHeartbeats 250000

/-- A step goes down, and to a smaller size, or rests. -/
structure Descends {α : Type} [PartialOrder α] (step : α → α) (size : α → ℕ) (top : α) : Prop where
  le : ∀ x ≤ top, step x ≤ x
  shrinks : ∀ x ≤ top, step x ≠ x → size (step x) < size x

namespace Descends
variable {α : Type} [PartialOrder α] {step : α → α} {size : α → ℕ} {top : α} {P : α → Prop}

theorem iterate_le (h : Descends step size top) (n : ℕ) : step^[n] top ≤ top := by
  induction n with
  | zero => exact le_rfl
  | succ n ih =>
    rw [Function.iterate_succ_apply']
    exact (h.le _ ih).trans ih

/-- The run stays above every point that no step passes. -/
theorem le_iterate (hkeep : ∀ x y, P y → y ≤ x → y ≤ step x) {y : α} (hy : P y) (hle : y ≤ top)
    (n : ℕ) : y ≤ step^[n] top := by
  induction n with
  | zero => exact hle
  | succ n ih =>
    rw [Function.iterate_succ_apply']
    exact hkeep _ y hy ih

theorem iterate_fixed (h : Descends step size top) {n : ℕ} (hn : size top ≤ n) :
    step (step^[n] top) = step^[n] top := by
  have hrun : ∀ n, step (step^[n] top) = step^[n] top ∨ size (step^[n] top) + n ≤ size top := by
    intro n
    induction n with
    | zero => exact .inr le_rfl
    | succ n ih =>
      rw [Function.iterate_succ_apply']
      by_cases hfix : step (step^[n] top) = step^[n] top
      · exact .inl (congrArg step hfix)
      · have hlt := h.shrinks _ (h.iterate_le n) hfix
        have hsize := ih.resolve_left hfix
        exact .inr (by omega)
  by_contra hfix
  have hlt := h.shrinks _ (h.iterate_le n) hfix
  have hsize := (hrun n).resolve_left hfix
  omega

/-- Where the run comes to rest. -/
theorem greatest (h : Descends step size top) (hkeep : ∀ x y, P y → y ≤ x → y ≤ step x)
    (hstop : ∀ x ≤ top, step x = x → P x) {n : ℕ} (hn : size top ≤ n) :
    IsGreatest {y | P y ∧ y ≤ top} (step^[n] top) :=
  ⟨⟨hstop _ (h.iterate_le n) (h.iterate_fixed hn), h.iterate_le n⟩,
    fun _ hy => le_iterate hkeep hy.1 hy.2 n⟩

end Descends

end QSync
