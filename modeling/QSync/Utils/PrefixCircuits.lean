import QSync.Utils.BuilderRules

/-! # The parallel prefix circuits

`Circuit::generateParaPrefixAND` (`utils/circuit.h`) and what it and `generateParaPrefixOR` compute
over `BoolRing`: the conjunctions of the first inputs of every block of 64, and the bits of the second
half selected by the first zero of every block.
-/

namespace QSync
set_option autoImplicit false
set_option maxHeartbeats 250000

namespace Circuit

/-- `generateParaPrefixAND`. Its last gates compute `lastAND`, which is not an output. -/
def generateParaPrefixAND {R : Type} [CommRing R] (repeat_ : ℕ) : Build R Unit := do
  let input ← fillWires (List.range (repeat_ * 64)) (fun _ => newInputWire) fun _ => 0
  let leveli ← (List.range' 1 LAYERS).foldlM (fun leveli level => do
    let level_next ← prefixLevel repeat_ leveli level
    if level = LAYERS then
      (List.range repeat_).forM fun rep =>
        (List.range' 1 63).forM fun i => setAsOutput (level_next (rep * 64 + i))
    pure level_next) input
  (List.range repeat_).forM fun _ => do
    let _lastAND ← addGate2 .kMul (leveli 1) (leveli 2)

/-! ## The first zero of a vector -/

/-- The first position of 64 that holds a 0. -/
def firstZero (a : ℕ → BoolRing) : Option ℕ := (List.range 64).find? fun i => !a i

/-- The bit of `d` at the first zero of `a`; 0 when there is none. -/
def selected (a d : ℕ → BoolRing) : BoolRing :=
  match firstZero a with
  | some f => d f
  | none => 0

/-- All of the first `n` bits are 1. -/
def allOnes (a : ℕ → BoolRing) (n : ℕ) : BoolRing := (List.range n).all a

theorem allOnes_succ (a : ℕ → BoolRing) (n : ℕ) : allOnes a (n + 1) = allOnes a n * a n := by
  rw [allOnes, allOnes, List.range_succ, List.all_append]
  simp only [List.all_cons, List.all_nil, Bool.and_true]
  rfl

theorem allOnes_eq_prod (a : ℕ → BoolRing) (n : ℕ) :
    allOnes a n = ∏ t ∈ Finset.range n, a t := by
  induction n with
  | zero => rfl
  | succ n ih => rw [allOnes_succ, Finset.prod_range_succ, ih]

theorem allOnes_eq_true_iff {a : ℕ → BoolRing} {n : ℕ} :
    allOnes a n = true ↔ ∀ i < n, a i = true := by
  simp [allOnes, List.all_eq_true]

theorem firstZero_eq_some {a : ℕ → BoolRing} {f : ℕ} (h : firstZero a = some f) :
    f < 64 ∧ a f = false ∧ ∀ i < f, a i = true := by
  rw [firstZero, List.find?_range_eq_some] at h
  simpa [and_comm, and_left_comm] using h

theorem firstZero_eq_none {a : ℕ → BoolRing} (h : firstZero a = none) : ∀ i < 64, a i = true := by
  rw [firstZero, List.find?_eq_none] at h
  simpa using h

/-- Where conjunctions of the first inputs change from 1 to 0, the selected bit is picked up. -/
theorem sum_allOnes (a d : ℕ → BoolRing) :
    ∑ i ∈ Finset.range 64, (allOnes a (i + 1) + allOnes a i) * d i = selected a d := by
  have hterm : ∀ i, allOnes a (i + 1) + allOnes a i = (allOnes a i && !a i) := fun i => by
    rw [allOnes_succ]
    cases allOnes a i <;> cases a i <;> rfl
  rw [selected]
  cases hf : firstZero a with
  | none =>
    refine Finset.sum_eq_zero fun i hi => ?_
    rw [hterm, firstZero_eq_none hf i (Finset.mem_range.mp hi)]
    cases allOnes a i <;> rfl
  | some f =>
    obtain ⟨hlt, hzero, hbefore⟩ := firstZero_eq_some hf
    rw [Finset.sum_eq_single f]
    · rw [hterm, hzero, allOnes_eq_true_iff.mpr hbefore]
      exact one_mul (d f)
    · intro i _ hne
      rw [hterm]
      obtain hlt' | hgt := Nat.lt_or_gt_of_ne hne
      · rw [hbefore i hlt']
        cases allOnes a i <;> exact zero_mul (d i)
      · have hnot : allOnes a i = false := by
          rw [Bool.eq_false_iff]
          intro h
          have := allOnes_eq_true_iff.mp h f hgt
          rw [hzero] at this
          cases this
        rw [hnot]
        exact zero_mul (d i)
    · exact fun h => absurd (Finset.mem_range.mpr hlt) h

/-! ## generateParaPrefixAND -/

/-- The gate types of `generateParaPrefixAND`, those of `generateParaPrefixOR` among them. -/
def prefixTypes (t : GateType) : Prop := t = .kInp ∨ prefixORTypes t

theorem blockProd_eq_allOnes (f : ℕ → BoolRing) {b i : ℕ} (hi : i < 64) :
    blockProd 64 (b * 64 + i) f = allOnes (fun j => f (b * 64 + j)) (i + 1) := by
  have hlen : b * 64 + i + 1 - b * 64 = i + 1 := by omega
  rw [blockProd_eq hi (m := b) (by ring), Nat.mul_comm 64 b, Finset.prod_Ico_eq_prod_range, hlen,
    allOnes_eq_prod]

/-- The positions of the outputs: all of a block but its first. -/
def andOutputs (rep : ℕ) : List ℕ :=
  (List.range rep).flatMap fun b => (List.range' 1 63).map fun i => b * 64 + i

theorem mem_andOutputs {rep pos : ℕ} (h : pos ∈ andOutputs rep) : pos < rep * 64 := by
  simp only [andOutputs, List.mem_flatMap, List.mem_range, List.mem_map, List.mem_range'_1] at h
  obtain ⟨b, hb, i, hi, rfl⟩ := h
  calc b * 64 + i < (b + 1) * 64 := by omega
    _ ≤ rep * 64 := Nat.mul_le_mul_right _ hb

section Values
variable {R : Type} [CircuitRing R]

theorem generateParaPrefixAND_makes (rep : ℕ) (hrep : 0 < rep) :
    Makes prefixTypes (empty : Circuit R) (generateParaPrefixAND rep) fun _ outs c =>
      List.Forall₂ (Has c) outs ((andOutputs rep).map (blockProd 64)) := by
  have ht : ∀ t, prefixORTypes t → prefixTypes t := fun t h => .inr h
  refine (fillInputs_builds _ _ (.inl rfl)).then fun input c0 _ hinput => ?_
  have h0 : ∀ pos < rep * 64, Has c0 (input pos) (blockProd (4 ^ 0) pos) := fun pos hpos =>
    (hinput.2 pos hpos).congr fun f => by simp [blockProd, size, empty]
  simp only [show List.range' 1 LAYERS = [1, 2, 3] from rfl, List.foldlM_cons, List.foldlM_nil,
    show (1 = LAYERS) = False from by decide, show (2 = LAYERS) = False from by decide,
    show (3 = LAYERS) = True from by decide, if_true, if_false, bind_assoc, pure_bind]
  refine ((prefixLevel_builds (by decide) h0).types_mono ht).then fun v1 c1 _ h1 => ?_
  refine ((prefixLevel_builds (by decide) h1).types_mono ht).then fun v2 c2 _ h2 => ?_
  refine ((prefixLevel_builds (by decide) h2).types_mono ht).then fun v3 c3 _ h3 => ?_
  have hout : ∀ b < rep, ∀ i ∈ List.range' 1 63, Has c3 (v3 (b * 64 + i)) (blockProd 64 (b * 64 + i)) :=
    fun b hb i hi => h3 _ (mem_andOutputs (List.mem_flatMap.mpr
      ⟨b, List.mem_range.mpr hb, List.mem_map_of_mem hi⟩))
  refine (Makes.forM (fun b => (List.range' 1 63).map fun i => v3 (b * 64 + i)) _
    fun b hb outs c' hc => setOutputs_makes (fun i => v3 (b * 64 + i)) _ _ fun i hi =>
      (hout b (List.mem_range.mp hb) i hi).appends hc).bind fun _ outs c4 hc4 houts => ?_
  have hlast : ∀ i < 64, Has c4 (v3 i) (blockProd (4 ^ 3) i) := fun i hi =>
    (h3 i (by omega)).appends hc4
  refine (Makes.forM (fun _ => []) _ fun b _ outs' c' hc => ?_).weaken fun _ outs' c5 hc5 houts' => ?_
  · refine ((addMul_builds ((hlast 1 (by omega)).appends hc) ((hlast 2 (by omega)).appends hc)
      (.inr (by simp [prefixORTypes]))).then fun _ _ _ _ => .pure rfl)
  · have hnone : outs' = [] := houts'.trans (List.flatMap_eq_nil_iff.mpr fun _ _ => rfl)
    have hmap : outs = (andOutputs rep).map v3 := by
      rw [houts, andOutputs, List.map_flatMap]
      simp only [List.map_map, Function.comp_def]
    rw [hnone, List.append_nil, hmap, List.forall₂_map_left_iff, List.forall₂_map_right_iff]
    exact List.forall₂_same.mpr fun pos hpos =>
      ((h3 pos (mem_andOutputs hpos)).appends hc4).appends hc5

end Values

theorem prefixTypes_evaluable (t : GateType) (h : prefixTypes t) : t ≠ .kRelu ∧ t ≠ .kTrdotp := by
  obtain rfl | h := h
  · exact ⟨by decide, by decide⟩
  · simp only [prefixORTypes, List.mem_cons, List.not_mem_nil, or_false] at h
    obtain rfl | rfl | rfl | rfl | rfl | rfl := h <;> exact ⟨by decide, by decide⟩

/-- The conjunctions of the first 2, 3, .. 64 bits of every block. -/
theorem generateParaPrefixAND_evaluates (rep : ℕ) (hrep : 1 ≤ rep) (f : ℕ → BoolRing) :
    (built (generateParaPrefixAND rep)).evaluate ((built (generateParaPrefixAND rep)).assign f) =
      .ok ((List.range rep).flatMap fun b => (List.range' 1 63).map fun i =>
        allOnes (fun j => f (b * 64 + j)) (i + 1)) := by
  obtain ⟨-, outs, -, hvals, heval⟩ :=
    (generateParaPrefixAND_makes (R := BoolRing) rep hrep).evaluate prefixTypes_evaluable
  rw [heval f, map_value hvals f, andOutputs, List.map_map, List.map_flatMap]
  refine congrArg Except.ok (List.flatMap_congr fun b _ => ?_)
  rw [List.map_map]
  refine List.map_congr_left fun i hi => ?_
  have hi' : i < 64 := by
    have := List.mem_range'_1.mp hi
    omega
  exact blockProd_eq_allOnes f hi'

/-! ## generateParaPrefixOR -/

theorem boundary_eq_allOnes (f : ℕ → BoolRing) {b i : ℕ} (hi : i < 64) :
    boundary (b * 64 + i) f = allOnes (fun j => f (b * 64 + j)) (i + 1) +
      allOnes (fun j => f (b * 64 + j)) i := by
  obtain - | i := i
  · have hmod : (b * 64 + 0) % 64 = 0 := by omega
    rw [boundary, if_pos hmod, blockProd_eq_allOnes f hi, add_zero]
    rfl
  · have hmod : (b * 64 + (i + 1)) % 64 ≠ 0 := by omega
    have hpred : b * 64 + (i + 1) - 1 = b * 64 + i := by omega
    rw [boundary, if_neg hmod, hpred, blockProd_eq_allOnes f hi, blockProd_eq_allOnes f (by omega)]
    cases allOnes (fun j => f (b * 64 + j)) (i + 1 + 1) <;>
      cases allOnes (fun j => f (b * 64 + j)) (i + 1) <;> rfl

theorem sum_blocks {R : Type} [CommRing R] (g : ℕ → R) (k n : ℕ) :
    ∑ i ∈ Finset.range (n * k), g i =
      ∑ b ∈ Finset.range n, ∑ i ∈ Finset.range k, g (b * k + i) := by
  induction n with
  | zero => simp
  | succ n ih =>
    have hlast := Finset.sum_range_succ (fun b => ∑ i ∈ Finset.range k, g (b * k + i)) n
    rw [Nat.succ_mul, Finset.sum_range_add, ih, hlast]

/-- The bits of the second half at the first zero of every block, added up. -/
theorem generateParaPrefixOR_evaluates (rep : ℕ) (hrep : 1 ≤ rep) (f : ℕ → BoolRing) :
    (built (generateParaPrefixOR rep)).evaluate ((built (generateParaPrefixOR rep)).assign f) =
      .ok [((List.range rep).map fun b =>
        selected (fun i => f (b * 64 + i)) fun i => f (rep * 64 + (b * 64 + i))).sum] := by
  obtain ⟨wout, hcomp⟩ := generateParaPrefixOR_spec (R := BoolRing) rep hrep
  have htypes : ∀ g ∈ (built (generateParaPrefixOR rep) : Circuit BoolRing).gates_,
      g.type ≠ .kRelu ∧ g.type ≠ .kTrdotp := fun g hg => prefixTypes_evaluable _ (hcomp.types g hg)
  have heven : (((rep * 64 : ℕ) : BoolRing)) = 0 := by
    rw [show rep * 64 = rep * 32 + rep * 32 by ring, Nat.cast_add]
    exact BoolRing.add_self _
  rw [evaluate_eq _ f htypes, hcomp.outputs_eq, List.map_singleton, hcomp.out.value_eq f, heven,
    zero_mul, zero_add]
  refine congrArg (fun x => Except.ok [x])
    ((sum_blocks (fun i => boundary i f * f (rep * 64 + i)) 64 rep).trans
      (Finset.sum_congr rfl fun b _ => ?_))
  rw [← sum_allOnes]
  refine Finset.sum_congr rfl fun i hi => ?_
  rw [boundary_eq_allOnes f (Finset.mem_range.mp hi)]

/-- Both parallel prefix circuits, for every number of blocks and all bits. -/
theorem paraPrefix_evaluate (rep : ℕ) (hrep : 1 ≤ rep) (f : ℕ → BoolRing) :
    (built (generateParaPrefixAND rep)).evaluate ((built (generateParaPrefixAND rep)).assign f) =
        .ok ((List.range rep).flatMap fun b => (List.range' 1 63).map fun i =>
          allOnes (fun j => f (b * 64 + j)) (i + 1)) ∧
      (built (generateParaPrefixOR rep)).evaluate ((built (generateParaPrefixOR rep)).assign f) =
        .ok [((List.range rep).map fun b =>
          selected (fun i => f (b * 64 + i)) fun i => f (rep * 64 + (b * 64 + i))).sum] :=
  ⟨generateParaPrefixAND_evaluates rep hrep f, generateParaPrefixOR_evaluates rep hrep f⟩

/-- Two blocks, a zero in the second one only, at position 3, where the other vector has a 1. -/
def zeroAt67 (w : ℕ) : BoolRing := decide (w ≠ 67)

theorem paraPrefix_evaluate_two :
    (built (generateParaPrefixOR 2)).evaluate ((built (generateParaPrefixOR 2)).assign zeroAt67) =
      .ok [1] := by
  have hsum : ((List.range 2).map fun b => selected (fun i => zeroAt67 (b * 64 + i))
      fun i => zeroAt67 (2 * 64 + (b * 64 + i))).sum = 1 := by decide
  rw [(paraPrefix_evaluate 2 (by decide) zeroAt67).2, hsum]

end Circuit

end QSync
