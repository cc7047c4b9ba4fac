import Mathlib.Algebra.BigOperators.Ring.Finset
import QSync.Utils.PrefixCircuits

/-! # The comparator of `generatePrefixAND`

`Circuit::generatePrefixAND` (`utils/circuit.h`) takes the same steps as the parallel version with the
first position of a quarter (`q`, `r`, `s`) where the parallel version has the last one of the
quarter before it (`q - 1`, `r - 1`, `s - 1`). A position sees the zeros at those first positions
and its own, not all zeros before it.
-/

namespace QSync
set_option autoImplicit false
set_option maxHeartbeats 250000

namespace Circuit

section Builder
variable {R : Type} [CommRing R]

/-- One step of a layer of `generatePrefixAND`. -/
def prefixANDStep (leveli : ℕ → ℕ) (level : ℕ) (level_next : ℕ → ℕ) (ji : ℕ × ℕ) :
    Build R (ℕ → ℕ) := do
  let (j, i) := ji
  let p := (j - 1) * 4 ^ level
  let q := (j - 1) * 4 ^ level + 4 ^ (level - 1)
  let r := (j - 1) * 4 ^ level + 2 * 4 ^ (level - 1)
  let s := (j - 1) * 4 ^ level + 3 * 4 ^ (level - 1)
  let level_next := Function.update level_next (p + i) (leveli (p + i))
  let wq ← addGate2 .kMul (leveli q) (leveli (q + i))
  let level_next := Function.update level_next (q + i) wq
  let wr ← addGate3 .kMul3 (leveli q) (leveli r) (leveli (r + i))
  let level_next := Function.update level_next (r + i) wr
  let ws ← addGate4 .kMul4 (leveli q) (leveli r) (leveli s) (leveli (s + i))
  pure (Function.update level_next (s + i) ws)

def prefixANDLevel (leveli : ℕ → ℕ) (level : ℕ) : Build R (ℕ → ℕ) :=
  ((List.range' 1 (64 / 4 ^ level)).flatMap fun j =>
    (List.range (4 ^ (level - 1))).map fun i => (j, i)).foldlM (prefixANDStep leveli level) fun _ => 0

def generatePrefixAND : Build R Unit := do
  let input ← fillWires (List.range 64) (fun _ => newInputWire) fun _ => 0
  let inp_d ← fillWires (List.range 64) (fun _ => newInputWire) fun _ => 0
  let leveli ← (List.range' 1 LAYERS).foldlM prefixANDLevel input
  let wv ← fillWires (List.range 64) (fun i => addConstOpGate .kConstAdd (leveli i) (1 : R))
    fun _ => 0
  let wz ← fillWires (List.range 64) (fun i =>
    if i = 0 then addConstOpGate .kConstAdd (wv 0) (0 : R)
    else addGate2 .kAdd (wv i) (wv (i - 1))) fun _ => 0
  let wu ← addGateSIMD .kDotprod ((List.range 64).map wz) ((List.range 64).map inp_d)
  let wnu ← addConstOpGate .kConstAdd wu (1 : R)
  setAsOutput wnu

end Builder

/-! ## What a position sees -/

/-- The positions whose inputs are multiplied at `pos` after `l` layers: its own, and the first ones
of the quarters before it in each of its blocks, save the first quarter. -/
def visible : ℕ → ℕ → Finset ℕ
  | 0, pos => {pos}
  | l + 1, pos => visible l pos ∪
      (Finset.Icc 1 (pos / 4 ^ l % 4)).image fun a => 4 ^ l * (4 * (pos / 4 ^ (l + 1)) + a)

/-- A zero of `a` is seen at `pos`. -/
def sees (a : ℕ → BoolRing) (pos : ℕ) : Bool := decide (∃ t ∈ visible LAYERS pos, a t = false)

/-- All inputs seen at `pos` after `l` layers are 1. -/
def seesOnes (l pos : ℕ) (f : ℕ → BoolRing) : BoolRing := decide (∀ t ∈ visible l pos, f t = true)

theorem self_mem_visible (l pos : ℕ) : pos ∈ visible l pos := by
  induction l with
  | zero => exact Finset.mem_singleton_self pos
  | succ l ih => exact Finset.mem_union_left _ ih

theorem visible_le {l pos t : ℕ} (h : t ∈ visible l pos) : t ≤ pos := by
  induction l with
  | zero => exact (Finset.mem_singleton.mp h).le
  | succ l ih =>
    obtain h | h := Finset.mem_union.mp h
    · exact ih h
    · obtain ⟨a, ha, rfl⟩ := Finset.mem_image.mp h
      have hdiv : pos / 4 ^ (l + 1) = pos / 4 ^ l / 4 := by rw [pow_succ, Nat.div_div_eq_div_mul]
      calc 4 ^ l * (4 * (pos / 4 ^ (l + 1)) + a) ≤ 4 ^ l * (pos / 4 ^ l) := by
            apply Nat.mul_le_mul_left
            have := (Finset.mem_Icc.mp ha).2
            omega
        _ ≤ pos := Nat.mul_div_le pos _

theorem visible_start (l m : ℕ) : visible l (4 ^ l * m) = {4 ^ l * m} := by
  induction l generalizing m with
  | zero => rfl
  | succ l ih =>
    have hpow : 4 ^ (l + 1) * m = 4 ^ l * (4 * m) := by rw [pow_succ, mul_assoc]
    have hdigit : 4 ^ (l + 1) * m / 4 ^ l % 4 = 0 := by
      rw [hpow, Nat.mul_div_cancel_left _ (Nat.pow_pos (by decide)), Nat.mul_mod_right]
    rw [visible, hdigit]
    simp only [zero_lt_one, Finset.Icc_eq_empty_of_lt, Finset.image_empty, Finset.union_empty]
    rw [hpow, ih]

theorem seesOnes_start (l m : ℕ) (f : ℕ → BoolRing) : seesOnes l (4 ^ l * m) f = f (4 ^ l * m) := by
  rw [seesOnes, visible_start]
  simp

/-- The step of a layer: in quarter `a` of a block, the first positions of the quarters up to `a` are
added. -/
theorem seesOnes_quarter {l k a i : ℕ} (ha : a < 4) (hi : i < 4 ^ l) (f : ℕ → BoolRing) :
    seesOnes (l + 1) (4 ^ l * (4 * k + a) + i) f =
      allOnes (fun b => f (4 ^ l * (4 * k + (b + 1)))) a *
        seesOnes l (4 ^ l * (4 * k + a) + i) f := by
  have hBpos : 0 < 4 ^ l := Nat.pow_pos (by decide)
  have hquot : (4 ^ l * (4 * k + a) + i) / 4 ^ l = 4 * k + a := by
    rw [Nat.mul_add_div hBpos, Nat.div_eq_of_lt hi, add_zero]
  have hdigit : (4 ^ l * (4 * k + a) + i) / 4 ^ l % 4 = a := by
    rw [hquot]
    omega
  have hblock : (4 ^ l * (4 * k + a) + i) / 4 ^ (l + 1) = k := by
    rw [pow_succ, ← Nat.div_div_eq_div_mul, hquot]
    omega
  refine Bool.eq_iff_iff.mpr ?_
  change _ ↔ (allOnes (fun b => f (4 ^ l * (4 * k + (b + 1)))) a && _) = true
  rw [Bool.and_eq_true, allOnes_eq_true_iff, seesOnes, seesOnes, decide_eq_true_eq,
    decide_eq_true_eq, visible, hdigit, hblock]
  refine ⟨fun h => ⟨fun b hb => ?_, fun t ht => ?_⟩, fun h t ht => ?_⟩
  · exact h _ (Finset.mem_union_right _ (Finset.mem_image_of_mem _ (Finset.mem_Icc.mpr (by omega))))
  · exact h t (Finset.mem_union_left _ ht)
  · obtain ht | ht := Finset.mem_union.mp ht
    · exact h.2 t ht
    · obtain ⟨b, hb, rfl⟩ := Finset.mem_image.mp ht
      obtain ⟨h1, h2⟩ := Finset.mem_Icc.mp hb
      have := h.1 (b - 1) (by omega)
      rwa [Nat.sub_add_cancel h1] at this

theorem sees_eq (f : ℕ → BoolRing) (pos : ℕ) : sees f pos = !seesOnes LAYERS pos f := by
  rw [sees, seesOnes, ← decide_not]
  refine decide_eq_decide.mpr ?_
  simp

/-! ## The values of the wires -/

theorem prefixANDStep_builds {c : Circuit BoolRing} {l : ℕ} {leveli level_next : ℕ → ℕ}
    {done : List (ℕ × ℕ)} {ji : ℕ × ℕ} (hi : ji.2 < 4 ^ l)
    (h : ∀ pos < 4 ^ (l + 1) * (ji.1 - 1) + 4 ^ (l + 1), Has c (leveli pos) (seesOnes l pos))
    (hdone : ∀ x ∈ done, ∀ a < 4, Has c (level_next (stepPosition (4 ^ l) x a))
      (seesOnes (l + 1) (stepPosition (4 ^ l) x a))) :
    Builds prefixTypes c (prefixANDStep leveli (l + 1) level_next ji) fun v c' =>
      ∀ x ∈ done ++ [ji], ∀ a < 4, Has c' (v (stepPosition (4 ^ l) x a))
        (seesOnes (l + 1) (stepPosition (4 ^ l) x a)) := by
  obtain ⟨j, i⟩ := ji
  set B := 4 ^ l with hB
  set k := j - 1 with hk
  have hBpos : 0 < B := Nat.pow_pos (by decide)
  obtain ⟨hp, hq, hr, hs⟩ := step_indices l k
  have hlt : ∀ a < 4, B * (4 * k + a) + B ≤ 4 ^ (l + 1) * k + 4 ^ (l + 1) := fun a ha => quarter_le ha
  have hHas : ∀ a < 4, Has c (leveli (B * (4 * k + a) + i)) (seesOnes l (B * (4 * k + a) + i)) :=
    fun a ha => h _ (by have := hlt a ha; simp only at hi; omega)
  have hFirst : ∀ a < 4, Has c (leveli (B * (4 * k + a))) fun f => f (B * (4 * k + a)) :=
    fun a ha => (h _ (by have := hlt a ha; omega)).congr fun f => seesOnes_start l _ f
  simp only [prefixANDStep, ← hk, hq, hr, hs]
  simp only [hp]
  have ht : ∀ t ∈ [GateType.kMul, .kMul3, .kMul4], prefixTypes t := fun t ht => .inr (by
    simp only [List.mem_cons, List.not_mem_nil, or_false] at ht
    obtain rfl | rfl | rfl := ht <;> simp [prefixORTypes])
  refine (addMul_builds (hFirst 1 (by omega)) (hHas 1 (by omega)) (ht _ (by decide))).bind
    fun wq c1 h1 hwq => ?_
  refine (addMul3_builds ((hFirst 1 (by omega)).mono h1) ((hFirst 2 (by omega)).mono h1)
    ((hHas 2 (by omega)).mono h1) (ht _ (by decide))).bind fun wr c2 h2 hwr => ?_
  have h12 := h1.trans h2
  refine (addMul4_builds ((hFirst 1 (by omega)).mono h12) ((hFirst 2 (by omega)).mono h12)
    ((hFirst 3 (by omega)).mono h12) ((hHas 3 (by omega)).mono h12) (ht _ (by decide))).bind
      fun ws c3 h3 hws => .pure ?_
  have h13 := h12.trans h3
  -- the quarters of a step are products of first positions
  have hquarter : ∀ a < 4, ∀ f, allOnes (fun b => f (B * (4 * k + (b + 1)))) a *
      seesOnes l (B * (4 * k + a) + i) f = seesOnes (l + 1) (B * (4 * k + a) + i) f :=
    fun a ha f => (seesOnes_quarter ha hi f).symm
  have hnone : ∀ a : ℕ → BoolRing, allOnes a 0 = 1 := fun _ => rfl
  refine stepPositions_concat (fun x hx a ha => (hdone x hx a ha).mono h13)
    (((hHas 0 (by omega)).mono h13).congr fun f => ?_)
    ((hwq.mono (h2.trans h3)).congr fun f => ?_) ((hwr.mono h3).congr fun f => ?_)
    (hws.congr fun f => ?_)
  · refine Eq.trans ?_ (hquarter 0 (by omega) f)
    rw [hnone, one_mul]
  · refine Eq.trans ?_ (hquarter 1 (by omega) f)
    rw [allOnes_succ, hnone, one_mul]
  · refine Eq.trans ?_ (hquarter 2 (by omega) f)
    rw [allOnes_succ, allOnes_succ, hnone, one_mul]
  · refine Eq.trans ?_ (hquarter 3 (by omega) f)
    rw [allOnes_succ, allOnes_succ, allOnes_succ, hnone, one_mul]

theorem prefixANDLevel_builds {c : Circuit BoolRing} {l : ℕ} (hl : l < LAYERS) {leveli : ℕ → ℕ}
    (h : ∀ pos < 1 * 64, Has c (leveli pos) (seesOnes l pos)) :
    Builds prefixTypes c (prefixANDLevel leveli (l + 1)) fun v c' =>
      ∀ pos < 1 * 64, Has c' (v pos) (seesOnes (l + 1) pos) := by
  have hsteps : prefixANDLevel leveli (l + 1) =
      (layerSteps 1 (l + 1)).foldlM (prefixANDStep (R := BoolRing) leveli (l + 1)) fun _ => 0 := by
    rw [prefixANDLevel, layerSteps, Nat.one_mul]
  rw [hsteps]
  exact layer_builds hl _ fun done x v c' hi hblock hc hv =>
    prefixANDStep_builds hi (fun pos hpos => (h pos (hpos.trans_le hblock)).mono hc) hv

/-- A zero is seen at `i` or at the position before, and not at both. -/
def flips (a : ℕ → BoolRing) (i : ℕ) : BoolRing :=
  if i = 0 then sees a 0 else sees a i + sees a (i - 1)

theorem generatePrefixAND_makes :
    Makes prefixTypes (empty : Circuit BoolRing) generatePrefixAND fun _ outs c =>
      List.Forall₂ (Has c) outs [fun f => ∑ i ∈ Finset.range 64, flips f i * f (64 + i) + 1] := by
  have hT : ∀ t, prefixORTypes t → prefixTypes t := fun t h => .inr h
  refine (fillInputs_builds _ _ (.inl rfl)).then fun input c0 _ hinput => ?_
  refine (fillInputs_builds _ _ (.inl rfl)).then fun inp_d c1 hc1 hinp_d => ?_
  have hsize : c0.size = 64 := by simpa [size, empty] using hinput.1
  have h0 : ∀ pos < 1 * 64, Has c1 (input pos) (seesOnes 0 pos) := fun pos hpos =>
    ((hinput.2 pos (by omega)).mono hc1).congr fun f => by simp [seesOnes, visible, size, empty]
  have hd : ∀ i < 64, Has c1 (inp_d i) fun f => f (64 + i) := fun i hi => by
    simpa only [hsize] using hinp_d.2 i hi
  simp only [show List.range' 1 LAYERS = [1, 2, 3] from rfl, List.foldlM_cons, List.foldlM_nil,
    bind_assoc, pure_bind]
  refine (prefixANDLevel_builds (by decide) h0).then fun v1 c2 hc2 h1 => ?_
  refine (prefixANDLevel_builds (by decide) h1).then fun v2 c3 hc3 h2 => ?_
  refine (prefixANDLevel_builds (by decide) h2).then fun v3 c4 hc4 h3 => ?_
  have hsees : ∀ (f : ℕ → BoolRing) i, seesOnes (0 + 1 + 1 + 1) i f + 1 = sees f i := fun f i => by
    rw [sees_eq, LAYERS]
    cases seesOnes 3 i f <;> rfl
  refine ((fillWires_builds (fun i f => sees f i) _ (fun i hi c' hc =>
    (addConstAdd_builds ((h3 i (by simpa using hi)).mono hc) 1 (hT _ (by simp [prefixORTypes]))).weaken
      fun w c'' _ hw => hw.congr fun f => hsees f i) _)).then fun wv c5 hc5 hwv => ?_
  refine ((fillWires_builds (fun i f => flips f i) _ (fun i hi c' hc => ?_) _)).then
    fun wz c6 hc6 hwz => ?_
  · by_cases h0 : i = 0
    · rw [if_pos h0]
      refine (addConstAdd_builds ((hwv 0 (by simp)).mono hc) 0
        (hT _ (by simp [prefixORTypes]))).weaken fun w c'' _ hw => hw.congr fun f => ?_
      rw [flips, if_pos h0, add_zero]
    · rw [if_neg h0]
      have hi' : i - 1 ∈ List.range 64 := by
        rw [List.mem_range] at hi ⊢
        omega
      refine (addAdd_builds ((hwv i hi).mono hc) ((hwv _ hi').mono hc)
        (hT _ (by simp [prefixORTypes]))).weaken fun w c'' _ hw => hw.congr fun f => ?_
      rw [flips, if_neg h0]
  have hd6 : ∀ i < 64, Has c6 (inp_d i) fun f => f (64 + i) := fun i hi =>
    ((((((hd i hi).mono hc2).mono hc3).mono hc4).mono hc5).mono hc6)
  have hlen : ((List.range 64).map wz).length = ((List.range 64).map inp_d).length := by simp
  have hdot : Builds prefixTypes c6 (addGateSIMD .kDotprod ((List.range 64).map wz)
      ((List.range 64).map inp_d)) fun wu c' => Has c' wu fun f =>
        ∑ i ∈ Finset.range 64, flips f i * f (64 + i) := by
    refine addDotprod_builds hlen (fun w hw => ?_) (hT _ (by simp [prefixORTypes])) fun c' hc f => ?_
    · obtain hw | hw := List.mem_append.mp hw
      · obtain ⟨i, hi, rfl⟩ := List.mem_map.mp hw
        exact (hwz i hi).lt
      · obtain ⟨i, hi, rfl⟩ := List.mem_map.mp hw
        exact (hd6 i (List.mem_range.mp hi)).lt
    · refine (dotProduct_map _ _ _ _).trans (congrArg List.sum (List.map_congr_left fun i hi => ?_))
      rw [((hwz i hi).mono hc).value_eq f, ((hd6 i (List.mem_range.mp hi)).mono hc).value_eq f]
  refine hdot.then fun wu c7 hc7 hwu => ?_
  refine (addConstAdd_builds hwu 1 (hT _ (by simp [prefixORTypes]))).then fun wnu c8 hc8 hwnu => ?_
  refine (setAsOutput_makes hwnu).weaken fun _ outs c9 hc9 hout => ?_
  rw [hout]
  exact .cons ((hwnu.appends hc9).congr fun f => rfl) .nil

/-! ## When the comparator selects the first zero -/

/-- The inputs of the circuit: a vector of 64 bits and another one. -/
def twoVectors (a d : ℕ → BoolRing) (w : ℕ) : BoolRing := if w < 64 then a w else d (w - 64)

/-- After the first zero of `a`, the set bits of `d` at positions where zeros come into sight or go out
of sight are even in number. -/
def SeesFirstZero (a d : ℕ → BoolRing) : Prop :=
  ∀ z, firstZero a = some z →
    Even ((Finset.Ico (z + 1) 64).filter fun i => d i = true ∧ sees a i ≠ sees a (i - 1)).card

theorem natCast_eq_zero_iff (n : ℕ) : (n : BoolRing) = 0 ↔ Even n := by
  induction n with
  | zero => simp
  | succ n ih =>
    rw [Nat.cast_succ, Nat.even_add_one, ← ih]
    cases (n : BoolRing) <;> decide

theorem sees_congr {a b : ℕ → BoolRing} {pos : ℕ} (h : ∀ t ≤ pos, a t = b t) :
    sees a pos = sees b pos := by
  refine decide_eq_decide.mpr (exists_congr fun t => and_congr_right fun ht => ?_)
  rw [h t (visible_le ht)]

theorem sees_of_ones {a : ℕ → BoolRing} {pos : ℕ} (h : ∀ t ≤ pos, a t = true) :
    sees a pos = false := by
  refine decide_eq_false fun ⟨t, ht, hzero⟩ => ?_
  rw [h t (visible_le ht)] at hzero
  cases hzero

theorem sees_self {a : ℕ → BoolRing} {pos : ℕ} (h : a pos = false) : sees a pos = true :=
  decide_eq_true ⟨pos, self_mem_visible _ _, h⟩

/-- The flips add up to the selected bit exactly when those after the first zero cancel. -/
theorem sum_flips_iff (a d : ℕ → BoolRing) :
    ∑ i ∈ Finset.range 64, flips a i * d i = selected a d ↔ SeesFirstZero a d := by
  unfold SeesFirstZero selected
  cases hz : firstZero a with
  | none =>
    have hones := firstZero_eq_none hz
    have hzero : ∀ i < 64, flips a i = 0 := by
      intro i hi
      rw [flips, sees_of_ones fun t ht => hones t (by omega), sees_of_ones fun t ht => hones t (by omega),
        sees_of_ones fun t ht => hones t (by omega)]
      split <;> rfl
    refine iff_of_true (Finset.sum_eq_zero fun i hi => ?_) (by simp)
    rw [hzero i (Finset.mem_range.mp hi), zero_mul]
  | some z =>
    obtain ⟨hlt, hzero, hbefore⟩ := firstZero_eq_some hz
    have hearly : ∀ i < z, flips a i = 0 := by
      intro i hi
      rw [flips, sees_of_ones fun t ht => hbefore t (by omega),
        sees_of_ones fun t ht => hbefore t (by omega), sees_of_ones fun t ht => hbefore t (by omega)]
      split <;> rfl
    have hat : flips a z = 1 := by
      rw [flips, sees_self hzero]
      split
      · next h0 =>
        subst h0
        exact sees_self hzero
      · rw [sees_of_ones fun t ht => hbefore t (by omega)]
        rfl
    have hlate : ∀ i ∈ Finset.Ico (z + 1) 64, flips a i * d i =
        if d i = true ∧ sees a i ≠ sees a (i - 1) then 1 else 0 := by
      intro i hi
      have hi0 : i ≠ 0 := by
        have := (Finset.mem_Ico.mp hi).1
        omega
      rw [flips, if_neg hi0]
      cases d i <;> cases sees a i <;> cases sees a (i - 1) <;> rfl
    have hsplit : ∑ i ∈ Finset.range 64, flips a i * d i =
        d z + ∑ i ∈ Finset.Ico (z + 1) 64, flips a i * d i := by
      rw [Finset.range_eq_Ico, ← Finset.sum_Ico_consecutive _ (Nat.zero_le z) hlt.le,
        Finset.sum_eq_sum_Ico_succ_bot hlt, hat, one_mul]
      rw [Finset.sum_eq_zero fun i hi => by rw [hearly i (Finset.mem_Ico.mp hi).2, zero_mul], zero_add]
    rw [hsplit, Finset.sum_congr rfl hlate, Finset.sum_boole]
    simp only [Option.some.injEq, forall_eq', add_eq_left]
    exact natCast_eq_zero_iff _

theorem flips_twoVectors (a d : ℕ → BoolRing) {i : ℕ} (hi : i < 64) :
    flips (twoVectors a d) i = flips a i := by
  have hsame : ∀ p < 64, sees (twoVectors a d) p = sees a p := fun p hp =>
    sees_congr fun t ht => if_pos (by omega)
  unfold flips
  rw [hsame 0 (by omega), hsame i hi, hsame (i - 1) (by omega)]

theorem generatePrefixAND_evaluates (a d : ℕ → BoolRing) :
    (built generatePrefixAND).evaluate ((built generatePrefixAND).assign (twoVectors a d)) =
      .ok [1 + ∑ i ∈ Finset.range 64, flips a i * d i] := by
  obtain ⟨-, outs, -, hvals, heval⟩ := generatePrefixAND_makes.evaluate prefixTypes_evaluable
  have hsum : ∑ i ∈ Finset.range 64, flips (twoVectors a d) i * twoVectors a d (64 + i) =
      ∑ i ∈ Finset.range 64, flips a i * d i := by
    refine Finset.sum_congr rfl fun i hi => ?_
    have hd : twoVectors a d (64 + i) = d i := by simp [twoVectors]
    rw [flips_twoVectors a d (Finset.mem_range.mp hi), hd]
  rw [heval, map_value hvals, List.map_singleton, ← hsum, add_comm]

/-- The comparator selects the bit at the first zero exactly when no other flips are left over. -/
theorem generatePrefixAND_selects_iff (a d : ℕ → BoolRing) :
    (built generatePrefixAND).evaluate ((built generatePrefixAND).assign (twoVectors a d)) =
      .ok [1 + selected a d] ↔ SeesFirstZero a d := by
  rw [generatePrefixAND_evaluates, ← sum_flips_iff]
  simp

/-- A zero at position 0 only, which position 1 does not see. -/
theorem generatePrefixAND_misses :
    (built generatePrefixAND).evaluate ((built generatePrefixAND).assign
        (twoVectors (fun i => decide (i ≠ 0)) fun i => decide (i = 1))) ≠
      .ok [1 + selected (fun i => decide (i ≠ 0)) fun i => decide (i = 1)] := by
  have hodd : ¬SeesFirstZero (fun i => decide (i ≠ 0)) fun i => decide (i = 1) := by
    intro h
    have heven := h 0 (by decide)
    revert heven
    decide
  rw [generatePrefixAND_evaluates]
  intro h
  refine hodd ((sum_flips_iff _ _).mp ?_)
  simpa using h

end Circuit

end QSync
