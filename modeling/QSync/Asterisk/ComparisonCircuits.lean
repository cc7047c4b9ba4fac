import QSync.Asterisk.OfflineConsistency
import QSync.Asterisk.Online
import QSync.Foundations.BitCompare

/-! # What the comparison gates decide

The Boolean circuits of `kEqz` and `kLtz` gates work on the bits of the masked input `x + r` and have
the bits of `r` as masks. `eqz_decides` and `ltz_decides`: their plaintext output, corrected as the
online phase does, depends on `x` only.
-/

namespace QSync
open BitCompare
set_option autoImplicit false
set_option maxHeartbeats 250000

section Decides
variable {M : Modulus}

/-- A comparison computes, with the Boolean circuit `c` whose output wire is `wout`, the bit `bit x`,
when the inputs of the circuit have the masks `mask r`. -/
structure Comparison.Decides {V : Type} (K : Comparison M V) (c : Circuit BoolRing)
    (mask : Field M → ℕ → BoolRing) (wout : ℕ) (bit : Field M → BoolRing) : Prop where
  circ_eq : K.circ = c.orderGatesByLevel
  inputs_first : ∃ n, Circuit.InputsFirst n c
  types : ∀ g ∈ c.gates_, g.type = .kInp ∨ g.type.arithmetic
  outputs_eq : c.outputs_ = [wout]
  decides : ∀ x r : Field M,
    c.value (fun j => K.bits (K.value (x + r)) j + mask r j) wout + K.adjust (K.value (x + r)) = bit x

theorem outputs_getD {c : Circuit BoolRing} {wout : ℕ} (h : c.outputs_ = [wout]) :
    c.orderGatesByLevel.outputs.getD 0 0 = wout := by
  change c.outputs_.getD 0 0 = wout
  rw [h]
  rfl

/-! ## kEqz -/

theorem eqz_decides : (eqzComparison : Comparison M (Field M)).Decides multk_circ multkMask multkOut
    fun x => decide (x = 0) := by
  obtain ⟨wout, hcomp⟩ := multk_computes
  have hout : multkOut = wout := outputs_getD hcomp.outputs_eq
  refine ⟨rfl, ⟨64, hcomp.inputs_first⟩, fun g hg => ?_, by rw [hout, hcomp.outputs_eq],
    fun x r => ?_⟩
  · refine (hcomp.types g hg).imp_right fun ht => ?_
    rw [show g.type = .kMul4 from ht]
    rfl
  · rw [hout, hcomp.out.value_eq]
    have hbits : ∀ j, (eqzComparison : Comparison M (Field M)).bits (x + r) j + multkMask r j =
        bitEq ((x + r).val.testBit j) (r.val.testBit j) := fun j => by
      simp only [eqzComparison, bitDecomposeTwo_getD, multkMask, bitEq]
    refine (congrArg (· + (0 : BoolRing)) (Finset.prod_congr rfl fun j _ => hbits j)).trans ?_
    rw [prod_bitEq (field_val_lt _) (field_val_lt _), add_zero, decide_eq_decide,
      (ZMod.val_injective M.p).eq_iff]
    exact add_eq_right

/-! ## kLtz -/

def wraps (x : Field M) : BoolRing := decide (M.p ≤ x.val + halfModulus M)

theorem halfModulus_lt (M : Modulus) : halfModulus M < M.p := by
  have := M.one_lt
  rw [halfModulus]
  omega

theorem add_mod_cases {a b p : ℕ} (ha : a < p) (hb : b < p) :
    (a + b) % p = a + b ∧ a + b < p ∨ (a + b) % p = a + b - p ∧ p ≤ a + b := by
  obtain h | h := lt_or_ge (a + b) p
  · exact .inl ⟨Nat.mod_eq_of_lt h, h⟩
  · refine .inr ⟨?_, h⟩
    rw [Nat.mod_eq_sub_mod h, Nat.mod_eq_of_lt (by omega)]

/-- The three wrap-around indicators of `ltzEvaluate`: with `val = x + r` and
`val2 = x + r + (p + 1) / 2`, the sums wrap around as often as `x + (p + 1) / 2` and `+ r` do. -/
theorem wraps_eq (x r : Field M) :
    (decide ((x + r).val < r.val) + decide ((x + r + (halfModulus M : Field M)).val < r.val) +
      decide ((x + r + (halfModulus M : Field M)).val < halfModulus M) : BoolRing) = wraps x := by
  have hx := ZMod.val_lt x
  have hr := ZMod.val_lt r
  have hhalf := halfModulus_lt M
  have hxr := ZMod.val_lt (x + r)
  have hhalfval : (halfModulus M : Field M).val = halfModulus M := ZMod.val_natCast_of_lt hhalf
  have h1 := ZMod.val_add x r
  have h2 := ZMod.val_add (x + r) (halfModulus M : Field M)
  rw [hhalfval] at h2
  generalize (x + r + (halfModulus M : Field M)).val = val2 at h2 ⊢
  generalize (x + r).val = val at h1 h2 hxr ⊢
  rw [wraps]
  change ((decide (val < r.val) ^^ decide (val2 < r.val)) ^^ decide (val2 < halfModulus M)) =
    decide (M.p ≤ x.val + halfModulus M)
  have hval := add_mod_cases hx hr
  have hval2 := add_mod_cases hxr hhalf
  rw [← h1] at hval
  rw [← h2] at hval2
  by_cases hA : val < r.val <;> by_cases hB : val2 < r.val <;> by_cases hC : val2 < halfModulus M <;>
    by_cases hD : M.p ≤ x.val + halfModulus M <;> simp only [hA, hB, hC, hD] <;>
    first | rfl | (exfalso; omega)

/-- The block products of the prefix circuit, in block `b`, when its inputs are the bit equalities of
`x` and `y` from the highest on. -/
theorem blockProd_eq_agreeing {f : ℕ → BoolRing} {b x y : ℕ}
    (hf : ∀ k < 64, f (64 * b + k) = bitEq (x.testBit (63 - k)) (y.testBit (63 - k))) {k : ℕ}
    (hk : k < 64) : Circuit.blockProd 64 (64 * b + k) f = agreeing 64 x y (k + 1) := by
  have hdiv : (64 * b + k) / 64 = b := by omega
  have hlen : 64 * b + k + 1 - 64 * b = k + 1 := by omega
  rw [Circuit.blockProd, hdiv, Finset.prod_Ico_eq_prod_range, hlen]
  exact Finset.prod_congr rfl fun i hi => hf i (by have := Finset.mem_range.mp hi; omega)

theorem boundary_eq_agreeing {f : ℕ → BoolRing} {b x y : ℕ}
    (hf : ∀ k < 64, f (64 * b + k) = bitEq (x.testBit (63 - k)) (y.testBit (63 - k))) {k : ℕ}
    (hk : k < 64) :
    Circuit.boundary (64 * b + k) f = agreeing 64 x y (k + 1) + agreeing 64 x y k := by
  obtain - | k := k
  · have hmod : (64 * b + 0) % 64 = 0 := by omega
    rw [Circuit.boundary, if_pos hmod, blockProd_eq_agreeing hf hk, add_zero]
    rfl
  · have hmod : (64 * b + (k + 1)) % 64 ≠ 0 := by omega
    have hpred : 64 * b + (k + 1) - 1 = 64 * b + k := by omega
    rw [Circuit.boundary, if_neg hmod, hpred, blockProd_eq_agreeing hf hk,
      blockProd_eq_agreeing hf (by omega)]
    cases agreeing 64 x y (k + 1 + 1) <;> cases agreeing 64 x y (k + 1) <;> rfl

theorem sum_boundary {f : ℕ → BoolRing} {b x y : ℕ} (hx : x < 2 ^ 64) (hy : y < 2 ^ 64)
    (hf : ∀ k < 64, f (64 * b + k) = bitEq (x.testBit (63 - k)) (y.testBit (63 - k)))
    (hd : ∀ k < 64, f (128 + (64 * b + k)) = y.testBit (63 - k)) :
    ∑ k ∈ Finset.range 64, Circuit.boundary (64 * b + k) f * f (128 + (64 * b + k)) =
      decide (x < y) := by
  rw [← less_self hx hy, less]
  refine Finset.sum_congr rfl fun k hk => ?_
  rw [boundary_eq_agreeing hf (Finset.mem_range.mp hk), hd k (Finset.mem_range.mp hk)]

theorem ltz_decides :
    (ltzComparison : Comparison M (Field M × Field M)).Decides prefixOR_circ prefixORMask
      prefixOROut wraps := by
  obtain ⟨wout, hcomp⟩ := prefixOR_computes
  have hout : prefixOROut = wout := outputs_getD hcomp.outputs_eq
  refine ⟨rfl, ⟨256, hcomp.inputs_first⟩, fun g hg => ?_, by rw [hout, hcomp.outputs_eq],
    fun x r => ?_⟩
  · refine (hcomp.types g hg).imp_right fun ht => ?_
    simp only [Circuit.prefixORTypes, List.mem_cons, List.not_mem_nil, or_false] at ht
    rcases ht with h | h | h | h | h | h <;> rw [h] <;> rfl
  · rw [hout, hcomp.out.value_eq, ← wraps_eq x r]
    set val := x + r with hval
    set val2 := val + (halfModulus M : Field M) with hval2
    let K : Comparison M (Field M × Field M) := ltzComparison
    set f : ℕ → BoolRing := fun j => K.bits (K.value val) j + prefixORMask r j with hf
    have hlow : ∀ k < 64, f (64 * 0 + k) = bitEq (val.val.testBit (63 - k)) (r.val.testBit (63 - k)) := by
      intro k hk
      have hmod : k % 64 = k := Nat.mod_eq_of_lt hk
      simp only [hf, K, ltzComparison, Nat.mul_zero, Nat.zero_add, if_pos hk, bitDecomposeTwo_getD,
        prefixORMask, hmod, bitEq]
    have hhigh : ∀ k < 64,
        f (64 * 1 + k) = bitEq (val2.val.testBit (63 - k)) (r.val.testBit (63 - k)) := by
      intro k hk
      have hmod : (64 * 1 + k) % 64 = k := by omega
      have hidx : 127 - (64 * 1 + k) = 63 - k := by omega
      simp only [hf, K, ltzComparison, if_neg (by omega : ¬ 64 * 1 + k < 64),
        if_pos (by omega : 64 * 1 + k < 128), bitDecomposeTwo_getD, prefixORMask, hmod, hidx, bitEq,
        hval2]
    have hmask : ∀ b < 2, ∀ k < 64, f (128 + (64 * b + k)) = r.val.testBit (63 - k) := by
      intro b hb k hk
      have hmod : (128 + (64 * b + k)) % 64 = k := by omega
      simp only [hf, K, ltzComparison, if_neg (by omega : ¬ 128 + (64 * b + k) < 64),
        if_neg (by omega : ¬ 128 + (64 * b + k) < 128), prefixORMask, hmod, zero_add]
    have hsum : ((List.range 128).map fun i => Circuit.boundary i f * f (128 + i)).sum =
        (decide (val.val < r.val) + decide (val2.val < r.val) : BoolRing) := by
      change ∑ i ∈ Finset.range (64 + 64), Circuit.boundary i f * f (128 + i) = _
      rw [Finset.sum_range_add, ← sum_boundary (field_val_lt val) (field_val_lt r) hlow
        (hmask 0 (by decide)), ← sum_boundary (field_val_lt val2) (field_val_lt r) hhigh
        (hmask 1 (by decide))]
      simp only [Nat.mul_zero, Nat.zero_add, Nat.mul_one]
    have heven : ((128 : ℕ) : BoolRing) = 0 := by
      rw [show 128 = 64 + 64 from rfl, Nat.cast_add, BoolRing.add_self]
    rw [hsum, heven, zero_mul, zero_add]
    rfl

end Decides

end QSync
