import Mathlib.Algebra.Ring.BooleanRing
import Mathlib.Tactic.Ring
import Mathlib.Logic.Function.Basic

/-! # Carry networks

Position `i` generates a carry (`g i`) or propagates one (`p i`). A network keeps for every position
the two values of a span that ends there, and combines a position with the one its span starts
after. Where the spans start (`starts`) decides what the network computes: the values at a position
are those of its span (`Covers.run`), whatever the order and the shape of the network.
-/

namespace QSync
set_option autoImplicit false
set_option maxHeartbeats 250000

section Spans
variable {R : Type} [CommSemiring R] (g p : ℕ → R)

/-- Whether the positions `lo`, .. `lo + n - 1` generate a carry. -/
def generates (lo : ℕ) : ℕ → R
  | 0 => 0
  | n + 1 => g (lo + n) + p (lo + n) * generates lo n

/-- Whether they propagate one. -/
def propagates (lo : ℕ) : ℕ → R
  | 0 => 1
  | n + 1 => p (lo + n) * propagates lo n

theorem propagates_add (lo m n : ℕ) :
    propagates p lo (m + n) = propagates p (lo + m) n * propagates p lo m := by
  induction n with
  | zero => rw [Nat.add_zero, propagates, one_mul]
  | succ n ih => rw [← Nat.add_assoc, propagates, propagates, ih, Nat.add_assoc, mul_assoc]

theorem generates_add (lo m n : ℕ) :
    generates g p lo (m + n) =
      generates g p (lo + m) n + propagates p (lo + m) n * generates g p lo m := by
  induction n with
  | zero => rw [Nat.add_zero, generates, propagates, one_mul, zero_add]
  | succ n ih =>
    rw [← Nat.add_assoc, generates, generates, propagates, ih, Nat.add_assoc]
    ring

/-- The values kept for the positions: propagate, generate. -/
structure SpanValues (R : Type) where
  p : ℕ → R
  g : ℕ → R

/-- Position `hi` takes over the span of `lo`. -/
def SpanValues.combine (v : SpanValues R) (x : ℕ × ℕ) : SpanValues R where
  p := Function.update v.p x.1 (v.p x.1 * v.p x.2)
  g := Function.update v.g x.1 (v.g x.1 + v.p x.1 * v.g x.2)

/-- Where the span of a position starts after a combination. -/
def combineStarts (start : ℕ → ℕ) (x : ℕ × ℕ) : ℕ → ℕ := Function.update start x.1 (start x.2)

/-- Every position holds the values of the span from its start to itself. -/
def Covers (start : ℕ → ℕ) (v : SpanValues R) : Prop :=
  ∀ pos, start pos ≤ pos ∧ v.p pos = propagates p (start pos) (pos + 1 - start pos) ∧
    v.g pos = generates g p (start pos) (pos + 1 - start pos)

variable {g p} {start : ℕ → ℕ} {v : SpanValues R}

theorem Covers.init : Covers g p id ⟨p, g⟩ := by
  intro pos
  have hlen : pos + 1 - id pos = 1 := Nat.add_sub_cancel_left pos 1
  rw [hlen]
  simp [generates, propagates]

theorem Covers.combine (h : Covers g p start v) {x : ℕ × ℕ} (hx : start x.1 = x.2 + 1) :
    Covers g p (combineStarts start x) (v.combine x) := by
  intro pos
  obtain ⟨hi, lo⟩ := x
  simp only at hx
  by_cases hpos : pos = hi
  · subst hpos
    obtain ⟨hle, hp, hg⟩ := h pos
    obtain ⟨hle', hp', hg'⟩ := h lo
    have hlen : pos + 1 - start lo = (lo + 1 - start lo) + (pos + 1 - start pos) := by omega
    have hmid : start lo + (lo + 1 - start lo) = start pos := by omega
    simp only [combineStarts, SpanValues.combine, Function.update_self]
    refine ⟨by omega, ?_, ?_⟩
    · rw [hlen, propagates_add, hmid, hp, hp']
    · rw [hlen, generates_add, hmid, hg, hp, hg']
  · simp only [combineStarts, SpanValues.combine, Function.update_of_ne hpos]
    exact h pos

/-- Every combination of a network joins a span to the one right below it. -/
def Chained : List (ℕ × ℕ) → (ℕ → ℕ) → Bool
  | [], _ => true
  | x :: xs, start => start x.1 == x.2 + 1 && Chained xs (combineStarts start x)

theorem Covers.run (h : Covers g p start v) {xs : List (ℕ × ℕ)} (hxs : Chained xs start = true) :
    Covers g p (xs.foldl combineStarts start) (xs.foldl SpanValues.combine v) := by
  induction xs generalizing start v with
  | nil => exact h
  | cons x xs ih =>
    rw [Chained, Bool.and_eq_true, beq_iff_eq] at hxs
    exact ih (h.combine hxs.1) hxs.2

end Spans

/-! ## Binary addition -/

/-- The carries of an addition are those generated from position 0 on. -/
theorem carry_eq_generates {w : ℕ} (a b : BitVec w) (n : ℕ) :
    BitVec.carry n a b false =
      generates (fun i => a.getLsbD i * b.getLsbD i) (fun i => a.getLsbD i + b.getLsbD i) 0 n := by
  induction n with
  | zero => exact BitVec.carry_zero
  | succ n ih =>
    have hmajority : ∀ x y c : Bool, Bool.atLeastTwo x y c = x * y + (x + y) * c := by decide
    rw [BitVec.carry_succ, ih, generates, Nat.zero_add]
    exact hmajority _ _ _

end QSync
