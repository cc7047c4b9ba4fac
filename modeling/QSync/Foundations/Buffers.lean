import Mathlib.Data.List.Basic
import Mathlib.Data.List.GetD
import Mathlib.Tactic.Common

/-! # Buffers with checked accesses, and counting loops over them

* `modifyAt`, `store`, `readAt`, `copyTo`: the accesses of a buffer, `none` outside it. A loop that
  returns `some` made no access out of bounds.
* `foldlM_range`: a loop `for i < n` from an invariant of its turns.
* `foldlM_modifyAt`: a loop that updates a stretch of a buffer, cell by cell.
-/

namespace QSync.Buffers
set_option autoImplicit false
set_option maxHeartbeats 250000

variable {α β : Type}

/-- `buf[i] = f(buf[i])`. -/
def modifyAt (buf : List α) (i : ℕ) (f : α → α) : Option (List α) :=
  buf[i]?.map fun x => buf.set i (f x)

/-- `buf[i] = x`. -/
def store (buf : List α) (i : ℕ) (x : α) : Option (List α) := modifyAt buf i fun _ => x

/-- The `n` cells from `off` on. -/
def readAt (buf : List α) (off n : ℕ) : Option (List α) :=
  if off + n ≤ buf.length then some ((buf.drop off).take n) else none

/-- Copy `src` over the cells from `off` on. -/
def copyTo (buf : List α) (off : ℕ) (src : List α) : Option (List α) :=
  if off + src.length ≤ buf.length then
    some (buf.take off ++ src ++ buf.drop (off + src.length))
  else none

theorem modifyAt_append (pre : List α) (x : α) (post : List α) (f : α → α) :
    modifyAt (pre ++ x :: post) pre.length f = some (pre ++ f x :: post) := by
  simp [modifyAt]

theorem store_append (pre : List α) (x : α) (post : List α) (y : α) :
    store (pre ++ x :: post) pre.length y = some (pre ++ y :: post) :=
  modifyAt_append pre x post _

theorem readAt_of_le {buf : List α} {off n : ℕ} (h : off + n ≤ buf.length) :
    readAt buf off n = some ((buf.drop off).take n) := if_pos h

theorem copyTo_append {pre mid post src : List α} (h : src.length = mid.length) :
    copyTo (pre ++ mid ++ post) pre.length src = some (pre ++ src ++ post) := by
  have hle : pre.length + src.length ≤ (pre ++ mid ++ post).length := by
    simp only [List.length_append, h]
    omega
  have htake : (pre ++ mid ++ post).take pre.length = pre := by
    rw [List.append_assoc, List.take_left]
  have hdrop : (pre ++ mid ++ post).drop (pre.length + src.length) = post := by
    rw [h, ← List.length_append, List.drop_left]
  rw [copyTo, if_pos hle, htake, hdrop]

/-! ## Counting loops -/

section Loops
variable {m : Type → Type} [Monad m] [LawfulMonad m]

/-- A loop whose turn `i` takes `inv i` to `inv (i + 1)`. -/
theorem foldlM_range {step : β → ℕ → m β} (inv : ℕ → β) {n : ℕ}
    (h : ∀ i < n, step (inv i) i = pure (inv (i + 1))) :
    (List.range n).foldlM step (inv 0) = pure (inv n) := by
  induction n with
  | zero => rfl
  | succ n ih =>
    have hinit := ih fun i hi => h i (Nat.lt_succ_of_lt hi)
    rw [List.range_succ, List.foldlM_append, hinit, pure_bind, List.foldlM_cons,
      h n (Nat.lt_succ_self n), pure_bind, List.foldlM_nil]

end Loops

/-- Turn `i` updates the cell `i` cells into the stretch `mid`. -/
theorem foldlM_modifyAt {step : List α → ℕ → Option (List α)} {f : ℕ → α → α}
    (pre mid post : List α)
    (h : ∀ buf, ∀ i < mid.length, step buf i = modifyAt buf (pre.length + i) (f i)) :
    (List.range mid.length).foldlM step (pre ++ mid ++ post) =
      some (pre ++ mid.mapIdx f ++ post) := by
  have hturn : ∀ i < mid.length,
      step (pre ++ ((mid.take i).mapIdx f ++ mid.drop i) ++ post) i =
        pure (pre ++ ((mid.take (i + 1)).mapIdx f ++ mid.drop (i + 1)) ++ post) := by
    intro i hi
    have hlen : (pre ++ (mid.take i).mapIdx f).length = pre.length + i := by
      simp [Nat.min_eq_left (Nat.le_of_lt hi)]
    have hbuf : pre ++ ((mid.take i).mapIdx f ++ mid.drop i) ++ post =
        (pre ++ (mid.take i).mapIdx f) ++ mid[i] :: (mid.drop (i + 1) ++ post) := by
      rw [← List.cons_append, ← List.drop_eq_getElem_cons hi]
      simp only [List.append_assoc]
    have htake : (mid.take (i + 1)).mapIdx f = (mid.take i).mapIdx f ++ [f i mid[i]] := by
      rw [List.take_add_one, List.getElem?_eq_getElem hi, Option.toList_some, List.mapIdx_append,
        List.length_take, Nat.min_eq_left (Nat.le_of_lt hi)]
      simp
    rw [h _ i hi, hbuf, ← hlen, modifyAt_append, htake]
    simp only [List.append_assoc, List.cons_append, List.nil_append]
    rfl
  have hloop := foldlM_range
    (fun i => pre ++ ((mid.take i).mapIdx f ++ mid.drop i) ++ post) hturn
  simp only [List.take_zero, List.mapIdx_nil, List.drop_zero, List.nil_append, List.take_length,
    List.drop_length, List.append_nil] at hloop
  exact hloop

end QSync.Buffers
