import Mathlib.Algebra.BigOperators.Intervals
import Mathlib.Data.List.GetD
import Mathlib.Tactic.Common

/-! # Arrays of several dimensions, in row-major order

A `MultiArray` has a run-time extent in each of its `n` dimensions. Its elements are read and written
through an index with one position per dimension, or one after the other in row-major order. Indices
within the extents have different places (`offset_inj`), so a write changes no other element.
-/

namespace QSync
set_option autoImplicit false
set_option maxHeartbeats 250000

/-- `boost::multi_array<α, n>`. -/
structure MultiArray (α : Type) (n : ℕ) where
  shape : List ℕ
  rank_eq : shape.length = n
  elems : List α
  length_eq : elems.length = shape.prod

namespace MultiArray

/-! ## Indices -/

/-- One position per dimension, each below its extent. -/
def Within : List ℕ → List ℕ → Prop
  | [], [] => True
  | i :: idx, s :: shape => i < s ∧ Within idx shape
  | _, _ => False

instance decidableWithin : (idx shape : List ℕ) → Decidable (Within idx shape)
  | [], [] => .isTrue trivial
  | i :: idx, s :: shape =>
    have := decidableWithin idx shape
    inferInstanceAs (Decidable (i < s ∧ Within idx shape))
  | [], _ :: _ => .isFalse id
  | _ :: _, [] => .isFalse id

@[simp] theorem within_nil : Within [] [] := trivial

@[simp] theorem within_cons {i s : ℕ} {idx shape : List ℕ} :
    Within (i :: idx) (s :: shape) ↔ i < s ∧ Within idx shape := Iff.rfl

/-- The place of an index among the elements. -/
def offset : List ℕ → List ℕ → ℕ
  | _ :: shape, i :: idx => i * shape.prod + offset shape idx
  | _, _ => 0

theorem offset_lt {idx shape : List ℕ} (h : Within idx shape) : offset shape idx < shape.prod := by
  induction shape generalizing idx with
  | nil => simp [offset]
  | cons s shape ih =>
    cases idx with
    | nil => exact h.elim
    | cons i idx =>
      obtain ⟨hi, hidx⟩ := within_cons.mp h
      calc i * shape.prod + offset shape idx < i * shape.prod + shape.prod :=
            Nat.add_lt_add_left (ih hidx) _
        _ = (i + 1) * shape.prod := (Nat.succ_mul _ _).symm
        _ ≤ s * shape.prod := Nat.mul_le_mul_right _ hi
        _ = (s :: shape).prod := List.prod_cons.symm

theorem offset_inj {idx idx' shape : List ℕ} (h : Within idx shape) (h' : Within idx' shape)
    (heq : offset shape idx = offset shape idx') : idx = idx' := by
  induction shape generalizing idx idx' with
  | nil =>
    cases idx <;> cases idx'
    · rfl
    · exact h'.elim
    · exact h.elim
    · exact h.elim
  | cons s shape ih =>
    cases idx with
    | nil => exact h.elim
    | cons i idx =>
      cases idx' with
      | nil => exact h'.elim
      | cons j idx' =>
        have hlt := offset_lt (within_cons.mp h).2
        have hlt' := offset_lt (within_cons.mp h').2
        have hpos : 0 < shape.prod := Nat.zero_lt_of_lt hlt
        have hdiv : ∀ k r, r < shape.prod → (k * shape.prod + r) / shape.prod = k := fun k r hr => by
          rw [Nat.add_comm, Nat.add_mul_div_right _ _ hpos, Nat.div_eq_of_lt hr, Nat.zero_add]
        simp only [offset] at heq
        have hij : i = j := by rw [← hdiv i _ hlt, heq, hdiv j _ hlt']
        subst hij
        rw [ih (within_cons.mp h).2 (within_cons.mp h').2 (Nat.add_left_cancel heq)]

theorem within_two {idx : List ℕ} {s t : ℕ} (h : Within idx [s, t]) :
    ∃ i j, idx = [i, j] ∧ i < s ∧ j < t := by
  match idx, h with
  | [i, j], h => exact ⟨i, j, rfl, h.1, h.2.1⟩

theorem within_three {idx : List ℕ} {s t u : ℕ} (h : Within idx [s, t, u]) :
    ∃ i j k, idx = [i, j, k] ∧ i < s ∧ j < t ∧ k < u := by
  match idx, h with
  | [i, j, k], h =>
    simp only [within_cons, within_nil, and_true] at h
    exact ⟨i, j, k, rfl, h⟩

theorem within_four {idx : List ℕ} {s t u v : ℕ} (h : Within idx [s, t, u, v]) :
    ∃ i j k l, idx = [i, j, k, l] ∧ i < s ∧ j < t ∧ k < u ∧ l < v := by
  match idx, h with
  | i :: idx, h =>
    obtain ⟨hi, hidx⟩ := within_cons.mp h
    obtain ⟨j, k, l, rfl, hj, hk, hl⟩ := within_three hidx
    exact ⟨i, j, k, l, rfl, hi, hj, hk, hl⟩

/-- The index with a given place. -/
def indexAt : List ℕ → ℕ → List ℕ
  | [], _ => []
  | _ :: shape, k => k / shape.prod :: indexAt shape (k % shape.prod)

theorem within_indexAt {shape : List ℕ} {k : ℕ} (h : k < shape.prod) : Within (indexAt shape k) shape := by
  induction shape generalizing k with
  | nil => trivial
  | cons s shape ih =>
    rw [List.prod_cons] at h
    have hpos : 0 < shape.prod := Nat.pos_of_ne_zero fun h0 => by simp [h0] at h
    exact ⟨Nat.div_lt_of_lt_mul (h.trans_eq (Nat.mul_comm _ _)), ih (Nat.mod_lt k hpos)⟩

theorem offset_indexAt {shape : List ℕ} {k : ℕ} (h : k < shape.prod) :
    offset shape (indexAt shape k) = k := by
  induction shape generalizing k with
  | nil => exact (Nat.lt_one_iff.mp h).symm
  | cons s shape ih =>
    rw [List.prod_cons] at h
    have hpos : 0 < shape.prod := Nat.pos_of_ne_zero fun h0 => by simp [h0] at h
    rw [indexAt, offset, ih (Nat.mod_lt k hpos), Nat.div_add_mod']

theorem indexAt_offset {idx shape : List ℕ} (h : Within idx shape) :
    indexAt shape (offset shape idx) = idx :=
  offset_inj (within_indexAt (offset_lt h)) h (offset_indexAt (offset_lt h))

/-! ## Nested loops -/

/-- The indices of a shape, in row-major order. -/
def indices : List ℕ → List (List ℕ)
  | [] => [[]]
  | s :: shape => (List.range s).flatMap fun i => (indices shape).map (i :: ·)

theorem mem_indices {idx shape : List ℕ} : idx ∈ indices shape ↔ Within idx shape := by
  induction shape generalizing idx with
  | nil => cases idx <;> simp [indices, Within]
  | cons s shape ih =>
    simp only [indices, List.mem_flatMap, List.mem_range, List.mem_map, ih]
    constructor
    · rintro ⟨i, hi, idx, hidx, rfl⟩
      exact ⟨hi, hidx⟩
    · intro h
      cases idx with
      | nil => exact h.elim
      | cons i idx => exact ⟨i, h.1, idx, h.2, rfl⟩

/-- The first turn of two loops is the only one at the origin. -/
theorem indices_head {s t : ℕ} (hs : 0 < s) (ht : 0 < t) :
    ∃ rest, indices [s, t] = [0, 0] :: rest ∧ [0, 0] ∉ rest := by
  obtain ⟨s, rfl⟩ := Nat.exists_eq_succ_of_ne_zero hs.ne'
  obtain ⟨t, rfl⟩ := Nat.exists_eq_succ_of_ne_zero ht.ne'
  refine ⟨_, by simp [indices, List.range_succ_eq_map]; rfl, ?_⟩
  simp

/-- Nested counting loops are one loop over the indices. -/
theorem foldlM_indices_cons {m : Type → Type} [Monad m] [LawfulMonad m] {β : Type}
    (f : β → List ℕ → m β) (s : ℕ) (shape : List ℕ) (b : β) :
    (indices (s :: shape)).foldlM f b = (List.range s).foldlM
      (fun b i => (indices shape).foldlM (fun b idx => f b (i :: idx)) b) b := by
  rw [indices]
  induction List.range s generalizing b with
  | nil => rfl
  | cons i is ih =>
    rw [List.flatMap_cons, List.foldlM_append, List.foldlM_map, List.foldlM_cons]
    exact bind_congr ih

theorem foldlM_indices_nil {m : Type → Type} [Monad m] [LawfulMonad m] {β : Type}
    (f : β → List ℕ → m β) (b : β) : (indices []).foldlM f b = f b [] := by
  simp [indices]

theorem sum_indices_cons {M : Type} [AddCommMonoid M] (g : List ℕ → M) (s : ℕ) (shape : List ℕ) :
    ((indices (s :: shape)).map g).sum =
      ∑ i ∈ Finset.range s, ((indices shape).map fun idx => g (i :: idx)).sum := by
  induction s with
  | zero => simp [indices]
  | succ s ih =>
    rw [Finset.sum_range_succ, ← ih]
    simp [indices, List.range_succ, Function.comp_def]

/-! ## Elements -/

section Elements
variable {α : Type} {n : ℕ} {a a' : MultiArray α n} {idx idx' : List ℕ} {x : α}

/-- `a.shape()[k]`. -/
def extent (a : MultiArray α n) (k : ℕ) : ℕ := a.shape.getD k 0

/-- An array with the same value everywhere. -/
def full (shape : List ℕ) (h : shape.length = n) (x : α) : MultiArray α n where
  shape := shape
  rank_eq := h
  elems := List.replicate shape.prod x
  length_eq := List.length_replicate

/-- `a.origin()[k] = x`. -/
def assign (a : MultiArray α n) (k : ℕ) (x : α) : MultiArray α n where
  shape := a.shape
  rank_eq := a.rank_eq
  elems := a.elems.set k x
  length_eq := by rw [List.length_set, a.length_eq]

/-- `a[idx]`, within the extents. -/
def get? (a : MultiArray α n) (idx : List ℕ) : Option α :=
  if Within idx a.shape then a.elems[offset a.shape idx]? else none

/-- `a[idx] = x`, within the extents. -/
def set? (a : MultiArray α n) (idx : List ℕ) (x : α) : Option (MultiArray α n) :=
  if Within idx a.shape then some (a.assign (offset a.shape idx) x) else none

def getD (a : MultiArray α n) (idx : List ℕ) (x : α) : α := (a.get? idx).getD x

theorem get?_mem (h : a.get? idx = some x) : x ∈ a.elems := by
  rw [get?] at h
  split at h
  · exact List.mem_of_getElem? h
  · cases h

theorem get?_of_within (h : Within idx a.shape) (x : α) : a.get? idx = some (a.getD idx x) := by
  have hlt : offset a.shape idx < a.elems.length := by
    rw [a.length_eq]
    exact offset_lt h
  rw [getD, get?, if_pos h, List.getElem?_eq_getElem hlt]
  rfl

theorem getD_mem_elems (h : Within idx a.shape) (x : α) : a.getD idx x ∈ a.elems :=
  get?_mem (get?_of_within h x)

theorem set?_of_within (h : Within idx a.shape) (x : α) :
    ∃ a', a.set? idx x = some a' := ⟨_, if_pos h⟩

theorem set?_shape (h : a.set? idx x = some a') : a'.shape = a.shape := by
  rw [set?] at h
  split at h
  · cases h
    rfl
  · cases h

theorem get?_set? (h : a.set? idx x = some a') (hidx' : Within idx' a.shape) :
    a'.get? idx' = if idx' = idx then some x else a.get? idx' := by
  rw [set?] at h
  split at h
  · next hidx =>
    cases h
    rw [get?, get?, if_pos hidx']
    change (if Within idx' a.shape then (a.elems.set _ x)[offset a.shape idx']? else none) = _
    rw [if_pos hidx']
    have hlt : offset a.shape idx < a.elems.length := by
      rw [a.length_eq]
      exact offset_lt hidx
    by_cases heq : idx' = idx
    · rw [if_pos heq, heq]
      exact List.getElem?_set_self hlt
    · rw [if_neg heq]
      exact List.getElem?_set_ne fun hoff => heq (offset_inj hidx hidx' hoff).symm
  · cases h

/-- The element at a place is that of its index. -/
theorem getD_indexAt {k : ℕ} (h : k < a.shape.prod) (x : α) :
    a.getD (indexAt a.shape k) x = a.elems.getD k x := by
  rw [getD, get?, if_pos (within_indexAt h), offset_indexAt h, List.getD_eq_getElem?_getD]

theorem getD_offset (h : Within idx a.shape) (x : α) :
    a.getD idx x = a.elems.getD (offset a.shape idx) x := by
  rw [← getD_indexAt (offset_lt h), indexAt_offset h]

/-- Assigning the elements one after the other. -/
theorem assign_append {pre post : List α} {y : α} (h : a.elems = pre ++ y :: post) (x : α) :
    (a.assign pre.length x).elems = pre ++ x :: post := by
  change a.elems.set pre.length x = _
  rw [h]
  simp

end Elements

end MultiArray

end QSync
