import Mathlib.Algebra.BigOperators.Intervals
import Mathlib.Algebra.Ring.BooleanRing
import Mathlib.Data.Nat.Bitwise

/-! # Comparing numbers bit by bit

Over `Bool` as a ring, with exclusive or and conjunction, from the highest of `n` bits on:
`agreeing_eq` says that a product of bit equalities decides whether the highest bits of two numbers
agree, `less_eq` that the bits of `y` selected by the end of the agreement decide whether `x` is less
than `y`.
-/

namespace QSync.BitCompare
set_option autoImplicit false
set_option maxHeartbeats 250000

def bitEq (a b : Bool) : Bool := 1 - a + b

theorem bitEq_eq (a b : Bool) : bitEq a b = decide (a = b) := by
  cases a <;> cases b <;> rfl

/-- The number that the highest `k` of the `n` bits of `x` spell. -/
def top (n k x : ℕ) : ℕ := x / 2 ^ (n - k)

theorem top_zero {n x : ℕ} (hx : x < 2 ^ n) : top n 0 x = 0 := Nat.div_eq_of_lt hx

theorem top_self (n x : ℕ) : top n n x = x := by simp [top]

theorem top_succ {n k : ℕ} (hk : k < n) (x : ℕ) :
    top n (k + 1) x = 2 * top n k x + (x.testBit (n - 1 - k)).toNat := by
  have hnk : n - k = (n - (k + 1)) + 1 := by omega
  have hidx : n - 1 - k = n - (k + 1) := by omega
  rw [top, top, hnk, hidx, pow_succ, ← Nat.div_div_eq_div_mul, Nat.toNat_testBit]
  omega

def agreeing (n x y k : ℕ) : Bool :=
  ∏ i ∈ Finset.range k, bitEq (x.testBit (n - 1 - i)) (y.testBit (n - 1 - i))

variable {n x y : ℕ}

theorem agreeing_eq (hx : x < 2 ^ n) (hy : y < 2 ^ n) {k : ℕ} (hk : k ≤ n) :
    agreeing n x y k = decide (top n k x = top n k y) := by
  induction k with
  | zero =>
    rw [top_zero hx, top_zero hy]
    rfl
  | succ k ih =>
    rw [agreeing, Finset.prod_range_succ, ← agreeing, ih (by omega), top_succ hk, top_succ hk,
      bitEq_eq]
    change (decide _ && decide _) = _
    rw [← Bool.decide_and, decide_eq_decide]
    cases x.testBit (n - 1 - k) <;> cases y.testBit (n - 1 - k) <;> simp <;> omega

/-- Whether `x` is less than `y`: the bit of `y` where the agreement ends. -/
def less (n x y k : ℕ) : Bool :=
  ∑ i ∈ Finset.range k, (agreeing n x y (i + 1) + agreeing n x y i) * y.testBit (n - 1 - i)

theorem less_eq (hx : x < 2 ^ n) (hy : y < 2 ^ n) {k : ℕ} (hk : k ≤ n) :
    less n x y k = decide (top n k x < top n k y) := by
  induction k with
  | zero =>
    rw [top_zero hx, top_zero hy]
    rfl
  | succ k ih =>
    have hstep : less n x y (k + 1) = (less n x y k ^^
        ((agreeing n x y (k + 1) ^^ agreeing n x y k) && y.testBit (n - 1 - k))) := by
      rw [less, Finset.sum_range_succ]
      rfl
    rw [hstep, ih (by omega), agreeing_eq hx hy hk, agreeing_eq hx hy (by omega : k ≤ n),
      top_succ hk, top_succ hk]
    have hbx := Bool.toNat_le (x.testBit (n - 1 - k))
    have hby := Bool.toNat_le (y.testBit (n - 1 - k))
    obtain h | h | h := Nat.lt_trichotomy (top n k x) (top n k y)
    · rw [decide_eq_true h, decide_eq_false (by omega), decide_eq_false (by omega),
        decide_eq_true (by omega)]
      rfl
    · -- the next bit decides
      rw [h]
      cases x.testBit (n - 1 - k) <;> cases y.testBit (n - 1 - k) <;> simp
    · rw [decide_eq_false (by omega), decide_eq_false (by omega), decide_eq_false (by omega),
        decide_eq_false (by omega)]
      rfl

theorem agreeing_self (hx : x < 2 ^ n) (hy : y < 2 ^ n) :
    agreeing n x y n = decide (x = y) := by
  rw [agreeing_eq hx hy le_rfl, top_self, top_self]

theorem less_self (hx : x < 2 ^ n) (hy : y < 2 ^ n) : less n x y n = decide (x < y) := by
  rw [less_eq hx hy le_rfl, top_self, top_self]

theorem prod_bitEq (hx : x < 2 ^ n) (hy : y < 2 ^ n) :
    ∏ i ∈ Finset.range n, bitEq (x.testBit i) (y.testBit i) = decide (x = y) := by
  rw [← agreeing_self hx hy, agreeing]
  exact (Finset.prod_range_reflect (fun i => bitEq (x.testBit i) (y.testBit i)) n).symm

end QSync.BitCompare
