import QSync.Utils.BuilderRules

/-! # Comparing small numbers by the top bit

`kLtz` and `kMsb` give bit 63 of a value. On the images of natural numbers below a bound, and of
their negations, that bit is the sign (`SignTest`): over `uint64_t` for numbers below `2 ^ 63`, over a
field for numbers that stay clear of the threshold from both sides.
-/

namespace QSync
set_option autoImplicit false
set_option maxHeartbeats 250000

/-- The modulus of 64-bit words. -/
def wordModulus : Modulus := ⟨2 ^ 64, by decide, le_rfl⟩

/-- `uint64_t`, which `types.h` calls `Ring`: circuits over it are evaluated like those over a field
of that size. -/
abbrev U64 : Type := Field wordModulus

/-- The top bit is the sign on numbers below `B` and their negations. -/
structure SignTest (R : Type) [CircuitRing R] (B : ℕ) : Prop where
  nonneg : ∀ k < B, CircuitRing.msb (k : R) = 0
  neg : ∀ k < B, 0 < k → CircuitRing.msb (-(k : R)) = 1

section SignTest
variable {R : Type} [CircuitRing R] {B : ℕ}

theorem SignTest.sub_of_le (h : SignTest R B) {a b : ℕ} (ha : a < B) (hba : b ≤ a) :
    CircuitRing.msb ((a : R) - b) = 0 := by
  rw [← Nat.cast_sub hba]
  exact h.nonneg _ (by omega)

theorem SignTest.sub_of_lt (h : SignTest R B) {a b : ℕ} (hb : b < B) (hab : a < b) :
    CircuitRing.msb ((a : R) - b) = 1 := by
  rw [← neg_sub, ← Nat.cast_sub hab.le]
  exact h.neg _ (by omega) (by omega)

/-- `kLtz` of a difference. -/
theorem SignTest.sub (h : SignTest R B) {a b : ℕ} (ha : a < B) (hb : b < B) :
    CircuitRing.msb ((a : R) - b) = if a < b then 1 else 0 := by
  split
  · next hab => exact h.sub_of_lt hb hab
  · next hab => exact h.sub_of_le ha (by omega)

theorem SignTest.cast_injective [Nontrivial R] (h : SignTest R B) {a b : ℕ} (ha : a < B)
    (hb : b < B) (hab : (a : R) = b) : a = b := by
  have hne : ∀ {x y : ℕ}, y < B → x < y → (x : R) ≠ y := fun hy hxy heq => by
    have h1 := h.sub_of_lt hy hxy
    have h0 := h.nonneg 0 (by omega)
    rw [heq, sub_self] at h1
    rw [Nat.cast_zero, h1] at h0
    exact one_ne_zero h0
  obtain hlt | heq | hgt := Nat.lt_trichotomy a b
  · exact absurd hab (hne hb hlt)
  · exact heq
  · exact absurd hab.symm (hne ha hgt)

end SignTest

/-- Over a field the numbers must be below `2 ^ 63` and their negations not. -/
theorem signTest_field (M : Modulus) {B : ℕ} (hB : B ≤ 2 ^ 63) (hM : 2 ^ 63 + B ≤ M.p + 1) :
    SignTest (Field M) B where
  nonneg k hk := by
    have hval : (k : Field M).val = k := ZMod.val_cast_of_lt (by omega)
    rw [field_msb, hval, if_neg (by omega)]
  neg k hk hpos := by
    have hlt : k < M.p := by omega
    have hval : (-(k : Field M)).val = M.p - k := by
      rw [ZMod.neg_val', ZMod.val_cast_of_lt hlt, Nat.mod_eq_of_lt (by omega)]
    rw [field_msb, hval, if_pos (by omega)]

theorem signTest_word : SignTest U64 (2 ^ 63) :=
  signTest_field wordModulus le_rfl (by decide)

end QSync
