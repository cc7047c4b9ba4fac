import QSync.Foundations.CarryNetworks
import QSync.Utils.PrefixComparator

/-! # The parallel prefix adders

`Circuit::generatePPA` and `Circuit::generatePPAMSB` (`utils/circuit.h`). Both combine positions of
the propagate and generate vectors in place, in six levels; the second one keeps only what the most
significant bit needs.
-/

namespace QSync
set_option autoImplicit false
set_option maxHeartbeats 250000

namespace Circuit

section Builder
variable {R : Type} [CommRing R]

/-- `loc_p` and `loc_g`. -/
structure Locs where
  loc_p : ℕ → ℕ
  loc_g : ℕ → ℕ

/-- The gates that let position `hi` take over the span of `lo`: `w1`, `w2` and `w3`. -/
def combineAt (loc : Locs) (x : ℕ × ℕ) : Build R Locs := do
  let (hi, lo) := x
  let w1 ← addGate2 .kMul (loc.loc_p hi) (loc.loc_g lo)
  let w2 ← addGate2 .kAdd (loc.loc_g hi) w1
  let w3 ← addGate2 .kMul (loc.loc_p hi) (loc.loc_p lo)
  pure { loc_p := Function.update loc.loc_p hi w3, loc_g := Function.update loc.loc_g hi w2 }

/-- The last position of the lower half of block `count` of a level. -/
def lowerEnd (level count : ℕ) : ℕ := 2 ^ (level - 1) + (count - 1) * 2 ^ level - 1

/-- What `generatePPA` combines at a level: the whole upper half of every block with the end of the
lower half. -/
def ppaLevel (level : ℕ) : List (ℕ × ℕ) :=
  (List.range' 1 (64 / 2 ^ level)).flatMap fun count =>
    let temp := lowerEnd level count
    (List.range (2 ^ (level - 1))).map fun i => (temp + i + 1, temp)

/-- What `generatePPAMSB` combines at a level: the ends of the blocks, position 62 in place of the last
one, which level 1 leaves alone. -/
def ppaMSBLevel (level : ℕ) : List (ℕ × ℕ) :=
  (List.range' 1 (64 / 2 ^ level)).flatMap fun count =>
    let temp := lowerEnd level count
    let offset := 2 ^ (level - 1)
    if count < 64 / 2 ^ level then [(temp + offset, temp)]
    else if level ≠ 1 then [(62, temp)] else []

/-- The two operands and the vectors of the single positions. -/
def adderInputs : Build R ((ℕ → ℕ) × (ℕ → ℕ) × Locs) := do
  let input_a ← fillWires (List.range 64) (fun _ => newInputWire) fun _ => 0
  let input_b ← fillWires (List.range 64) (fun _ => newInputWire) fun _ => 0
  let loc ← (List.range 64).foldlM (fun (loc : Locs) i => do
    let p_id ← addGate2 .kAdd (input_a i) (input_b i)
    let g_id ← addGate2 .kMul (input_a i) (input_b i)
    pure { loc_p := Function.update loc.loc_p i p_id, loc_g := Function.update loc.loc_g i g_id })
    { loc_p := fun _ => 0, loc_g := fun _ => 0 }
  pure (input_a, input_b, loc)

def generatePPA : Build R Unit := do
  let (input_a, input_b, loc) ← adderInputs
  let loc ← (List.range' 1 6).foldlM (fun loc level => (ppaLevel level).foldlM combineAt loc) loc
  let S ← fillWires (List.range 64) (fun i =>
    if i = 0 then addGate2 .kAdd (input_a 0) (input_b 0)
    else do
      let w ← addGate2 .kAdd (input_a i) (input_b i)
      addGate2 .kAdd w (loc.loc_g (i - 1))) fun _ => 0
  (List.range 64).forM fun i => setAsOutput (S i)

def generatePPAMSB : Build R Unit := do
  let (input_a, input_b, loc) ← adderInputs
  let loc ← (List.range' 1 6).foldlM (fun loc level => (ppaMSBLevel level).foldlM combineAt loc) loc
  let w ← addGate2 .kAdd (input_a 63) (input_b 63)
  let msb ← addGate2 .kAdd w (loc.loc_g 62)
  setAsOutput msb

end Builder

/-! ## Where the spans start -/

def ppaNetwork : List (ℕ × ℕ) := (List.range' 1 6).flatMap ppaLevel

def ppaMSBNetwork : List (ℕ × ℕ) := (List.range' 1 6).flatMap ppaMSBLevel

theorem ppaNetwork_chained : Chained ppaNetwork id = true := by decide +kernel

theorem ppaNetwork_starts : ∀ pos < 64, ppaNetwork.foldl combineStarts id pos = 0 := by
  decide +kernel

theorem ppaMSBNetwork_chained : Chained ppaMSBNetwork id = true := by decide +kernel

theorem ppaMSBNetwork_starts : ppaMSBNetwork.foldl combineStarts id 62 = 0 := by decide +kernel

theorem ppaNetwork_lt : ∀ x ∈ ppaNetwork, x.1 < 64 ∧ x.2 < 64 := by decide +kernel

theorem ppaMSBNetwork_lt : ∀ x ∈ ppaMSBNetwork, x.1 < 64 ∧ x.2 < 64 := by decide +kernel

/-! ## The values of the wires -/

/-- The gate types of the adders. -/
def adderTypes (t : GateType) : Prop := t = .kInp ∨ t = .kAdd ∨ t = .kMul

theorem adderTypes_evaluable (t : GateType) (h : adderTypes t) : t ≠ .kRelu ∧ t ≠ .kTrdotp := by
  obtain rfl | rfl | rfl := h <;> exact ⟨by decide, by decide⟩

section Values
variable {R : Type} [CircuitRing R] {c : Circuit R} {loc : Locs} {vals : (ℕ → R) → SpanValues R}

/-- The wires of the two vectors hold the values of spans. -/
def HasSpans (c : Circuit R) (loc : Locs) (vals : (ℕ → R) → SpanValues R) : Prop :=
  ∀ pos < 64, Has c (loc.loc_p pos) (fun f => (vals f).p pos) ∧
    Has c (loc.loc_g pos) fun f => (vals f).g pos

theorem combineAt_builds (h : HasSpans c loc vals) {x : ℕ × ℕ} (hx : x.1 < 64 ∧ x.2 < 64) :
    Builds adderTypes c (combineAt loc x) fun loc' c' =>
      HasSpans c' loc' fun f => (vals f).combine x := by
  obtain ⟨hi, lo⟩ := x
  obtain ⟨⟨hpi, hgi⟩, hpl, hgl⟩ := And.intro (h hi hx.1) (h lo hx.2)
  refine (addMul_builds hpi hgl (.inr (.inr rfl))).bind fun w1 c1 h1 hw1 => ?_
  refine (addAdd_builds (hgi.mono h1) hw1 (.inr (.inl rfl))).bind fun w2 c2 h2 hw2 => ?_
  have h12 := h1.trans h2
  refine (addMul_builds (hpi.mono h12) (hpl.mono h12) (.inr (.inr rfl))).bind
    fun w3 c3 h3 hw3 => .pure fun pos hpos => ?_
  by_cases he : pos = hi
  · subst he
    simp only [SpanValues.combine, Function.update_self]
    exact ⟨hw3, hw2.mono h3⟩
  · simp only [SpanValues.combine, Function.update_of_ne he]
    exact ⟨(h pos hpos).1.mono (h12.trans h3), (h pos hpos).2.mono (h12.trans h3)⟩

theorem network_builds (h : HasSpans c loc vals) {xs : List (ℕ × ℕ)}
    (hxs : ∀ x ∈ xs, x.1 < 64 ∧ x.2 < 64) :
    Builds adderTypes c (xs.foldlM combineAt loc) fun loc' c' =>
      HasSpans c' loc' fun f => xs.foldl SpanValues.combine (vals f) := by
  refine Builds.foldlM (fun ys loc' c' => HasSpans c' loc' fun f =>
    ys.foldl SpanValues.combine (vals f)) xs [] h fun ys x loc' c' hx _ hloc => ?_
  refine (combineAt_builds hloc (hxs x hx)).weaken fun loc'' c'' _ hloc'' => ?_
  simpa only [List.foldl_append, List.foldl_cons, List.foldl_nil] using hloc''

/-- The values of the single positions of `f`. -/
def bitValues (f : ℕ → R) : SpanValues R where
  p i := f i + f (64 + i)
  g i := f i * f (64 + i)

theorem adderInputs_builds :
    Builds adderTypes (empty : Circuit R) adderInputs fun r c =>
      (∀ i < 64, Has c (r.1 i) fun f => f i) ∧ (∀ i < 64, Has c (r.2.1 i) fun f => f (64 + i)) ∧
        HasSpans c r.2.2 bitValues := by
  refine (fillInputs_builds _ _ (.inl rfl)).bind fun input_a c0 _ ha => ?_
  refine (fillInputs_builds _ _ (.inl rfl)).bind fun input_b c1 hc1 hb => ?_
  have hsize : c0.size = 64 := by simpa [size, empty] using ha.1
  have ha' : ∀ i < 64, Has c1 (input_a i) fun f => f i := fun i hi =>
    ((ha.2 i hi).mono hc1).congr fun f => by simp [size, empty]
  have hb' : ∀ i < 64, Has c1 (input_b i) fun f => f (64 + i) := fun i hi => by
    simpa only [hsize] using hb.2 i hi
  refine (Builds.foldlM (fun done (loc : Locs) c' => ∀ i ∈ done,
    Has c' (loc.loc_p i) (fun f => (bitValues f).p i) ∧
      Has c' (loc.loc_g i) fun f => (bitValues f).g i) (List.range 64) [] (by simp)
    fun done i loc c' hi hc hdone => ?_).bind fun loc c2 hc2 hloc => .pure ⟨?_, ?_, ?_⟩
  · have hi' := List.mem_range.mp hi
    refine (addAdd_builds ((ha' i hi').mono hc) ((hb' i hi').mono hc) (.inr (.inl rfl))).bind
      fun p_id c2 h2 hp => ?_
    have hc2 := hc.trans h2
    refine (addMul_builds ((ha' i hi').mono hc2) ((hb' i hi').mono hc2) (.inr (.inr rfl))).bind
      fun g_id c3 h3 hg => .pure fun j hj => ?_
    by_cases he : j = i
    · subst he
      simp only [Function.update_self]
      exact ⟨hp.mono h3, hg⟩
    · have hj : j ∈ done := by simpa [he] using hj
      simp only [Function.update_of_ne he]
      exact ⟨(hdone j hj).1.mono (h2.trans h3), (hdone j hj).2.mono (h2.trans h3)⟩
  · exact fun i hi => (ha' i hi).mono hc2
  · exact fun i hi => (hb' i hi).mono hc2
  · exact fun pos hpos => hloc pos (by simpa using hpos)

omit [CircuitRing R] in
theorem levels_eq (levelPairs : ℕ → List (ℕ × ℕ)) (loc : Locs) :
    (List.range' 1 6).foldlM (fun loc level =>
      (levelPairs level).foldlM (combineAt (R := R)) loc) loc =
      ((List.range' 1 6).flatMap levelPairs).foldlM combineAt loc := by
  rw [List.flatMap, ← foldlM_flatten, List.foldlM_map]

/-- Bit `i` of the sum: the two bits and the carry from below. -/
def sumBit (f : ℕ → R) (i : ℕ) : R :=
  f i + f (64 + i) + generates (bitValues f).g (bitValues f).p 0 i

/-- After a network whose span at `pos` starts at 0, the carry out of `pos` is there. -/
theorem carry_of_network {xs : List (ℕ × ℕ)} (hxs : Chained xs id = true) {pos : ℕ}
    (hpos : xs.foldl combineStarts id pos = 0) (f : ℕ → R) :
    (xs.foldl SpanValues.combine (bitValues f)).g pos =
      generates (bitValues f).g (bitValues f).p 0 (pos + 1) := by
  have h := (Covers.run (Covers.init (g := (bitValues f).g) (p := (bitValues f).p)) hxs pos).2.2
  rwa [hpos] at h

theorem generatePPA_makes :
    Makes adderTypes (empty : Circuit R) generatePPA fun _ outs c =>
      List.Forall₂ (Has c) outs ((List.range 64).map fun i f => sumBit f i) := by
  refine adderInputs_builds.then fun r c0 _ hr => ?_
  obtain ⟨input_a, input_b, loc⟩ := r
  obtain ⟨ha, hb, hloc⟩ := hr
  simp only [levels_eq] at *
  refine (network_builds hloc ppaNetwork_lt).then fun loc' c1 hc1 hloc' => ?_
  refine (fillWires_builds (fun i f => sumBit f i) _ (fun i hi c' hc => ?_) _).then
    fun S c2 hc2 hS => ?_
  · have hi := List.mem_range.mp hi
    by_cases h0 : i = 0
    · subst h0
      rw [if_pos rfl]
      refine (addAdd_builds ((ha 0 hi).mono (hc1.trans hc)) ((hb 0 hi).mono (hc1.trans hc))
        (.inr (.inl rfl))).weaken fun w c'' _ hw => hw.congr fun f => ?_
      rw [sumBit, generates]
      exact (add_zero _).symm
    · rw [if_neg h0]
      refine (addAdd_builds ((ha i hi).mono (hc1.trans hc)) ((hb i hi).mono (hc1.trans hc))
        (.inr (.inl rfl))).bind fun w c3 h3 hw => ?_
      refine (addAdd_builds hw (((hloc' (i - 1) (by omega)).2.mono hc).mono h3)
        (.inr (.inl rfl))).weaken fun w' c'' _ hw' => hw'.congr fun f => ?_
      have hcarry := carry_of_network ppaNetwork_chained (ppaNetwork_starts (i - 1) (by omega)) f
      rw [hcarry, Nat.sub_add_cancel (Nat.pos_of_ne_zero h0), sumBit]
  · refine (setOutputs_makes S (fun i f => sumBit f i) _ hS).weaken fun _ outs c3 hc3 houts => ?_
    rw [houts, List.forall₂_map_left_iff, List.forall₂_map_right_iff]
    exact List.forall₂_same.mpr fun i hi => (hS i hi).appends hc3

theorem generatePPAMSB_makes :
    Makes adderTypes (empty : Circuit R) generatePPAMSB fun _ outs c =>
      List.Forall₂ (Has c) outs [fun f => sumBit f 63] := by
  refine adderInputs_builds.then fun r c0 _ hr => ?_
  obtain ⟨input_a, input_b, loc⟩ := r
  obtain ⟨ha, hb, hloc⟩ := hr
  simp only [levels_eq] at *
  refine (network_builds hloc ppaMSBNetwork_lt).then fun loc' c1 hc1 hloc' => ?_
  refine (addAdd_builds ((ha 63 (by omega)).mono hc1) ((hb 63 (by omega)).mono hc1)
    (.inr (.inl rfl))).then fun w c2 hc2 hw => ?_
  refine (addAdd_builds hw ((hloc' 62 (by omega)).2.mono hc2) (.inr (.inl rfl))).then
    fun msb c3 hc3 hmsb => ?_
  refine (setAsOutput_makes hmsb).weaken fun _ outs c4 hc4 hout => ?_
  rw [hout]
  refine .cons ((hmsb.appends hc4).congr fun f => ?_) .nil
  rw [carry_of_network ppaMSBNetwork_chained ppaMSBNetwork_starts f, sumBit]

end Values

/-! ## Binary addition -/

theorem sumBit_eq (a b : BitVec 64) {i : ℕ} (hi : i < 64) :
    sumBit (twoVectors a.getLsbD b.getLsbD) i = (a + b).getLsbD i := by
  have ha : ∀ i < 64, twoVectors a.getLsbD b.getLsbD i = a.getLsbD i := fun i hi => if_pos hi
  have hb : ∀ i, twoVectors a.getLsbD b.getLsbD (64 + i) = b.getLsbD i := fun i => by
    simp [twoVectors]
  have hcarry : ∀ n ≤ 64, generates (bitValues (twoVectors a.getLsbD b.getLsbD)).g
      (bitValues (twoVectors a.getLsbD b.getLsbD)).p 0 n = BitVec.carry n a b false := by
    intro n hn
    rw [carry_eq_generates]
    induction n with
    | zero => rfl
    | succ n ih =>
      rw [generates, generates, ih (by omega), Nat.zero_add]
      simp only [bitValues, ha n (by omega), hb n]
  rw [sumBit, ha i hi, hb i, hcarry i hi.le, BitVec.getLsbD_add hi]
  exact Bool.xor_assoc _ _ _

/-- Both adders add modulo `2 ^ 64`: all bits of the sum, and its most significant bit. -/
theorem generatePPA_adds (a b : BitVec 64) :
    (built generatePPA).evaluate ((built generatePPA).assign (twoVectors a.getLsbD b.getLsbD)) =
        .ok ((List.range 64).map (a + b).getLsbD) ∧
      (built generatePPAMSB).evaluate
          ((built generatePPAMSB).assign (twoVectors a.getLsbD b.getLsbD)) =
        .ok [(a + b).getLsbD 63] := by
  obtain ⟨-, outs, -, hvals, heval⟩ :=
    (generatePPA_makes (R := BoolRing)).evaluate adderTypes_evaluable
  obtain ⟨-, outs', -, hvals', heval'⟩ :=
    (generatePPAMSB_makes (R := BoolRing)).evaluate adderTypes_evaluable
  rw [heval, heval', map_value hvals, map_value hvals', List.map_map, List.map_singleton]
  refine ⟨congrArg Except.ok (List.map_congr_left fun i hi => ?_),
    congrArg (fun x => Except.ok [x]) (sumBit_eq a b (by omega))⟩
  exact sumBit_eq a b (List.mem_range.mp hi)

end Circuit

end QSync
