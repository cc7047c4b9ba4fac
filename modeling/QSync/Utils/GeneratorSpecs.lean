import Mathlib.Algebra.BigOperators.Intervals
import QSync.Utils.Generators
import QSync.Utils.Plaintext

/-! # What the circuits of the comparison gates compute

`Builds T c m post`: the builder program `m`, run on `c`, does not throw, appends gates of the types
`T` only, and its result satisfies `post`. `Circuit.Has c w v`: the plaintext value of wire `w` of
`c` is `v` of the inputs; it survives everything that is appended later.
-/

namespace QSync
set_option autoImplicit false
set_option maxHeartbeats 250000

namespace Circuit
variable {R : Type}

/-- `c'` is `c` with gates of the types `T` appended. -/
structure Extends (T : GateType → Prop) (c c' : Circuit R) : Prop where
  outputs_eq : c'.outputs_ = c.outputs_
  gates_eq : ∃ gs, c'.gates_ = c.gates_ ++ gs ∧ ∀ g ∈ gs, T g.type

variable {T : GateType → Prop} {c c' c'' : Circuit R}

theorem Extends.refl (c : Circuit R) : Extends T c c := ⟨rfl, [], by simp, by simp⟩

theorem Extends.trans (h : Extends T c c') (h' : Extends T c' c'') : Extends T c c'' := by
  obtain ⟨ho, gs, hg, ht⟩ := h
  obtain ⟨ho', gs', hg', ht'⟩ := h'
  refine ⟨ho'.trans ho, gs ++ gs', by rw [hg', hg, List.append_assoc], fun g hmem => ?_⟩
  obtain h | h := List.mem_append.mp hmem
  · exact ht g h
  · exact ht' g h

theorem Extends.mem (h : Extends T c c') {g : Gate R} (hg : g ∈ c.gates_) : g ∈ c'.gates_ := by
  obtain ⟨-, gs, hgs, -⟩ := h
  rw [hgs]
  exact List.mem_append_left _ hg

theorem Extends.size_le (h : Extends T c c') : c.size ≤ c'.size := by
  obtain ⟨-, gs, hgs, -⟩ := h
  rw [size, size, hgs, List.length_append]
  exact Nat.le_add_right _ _

/-- `m` succeeds on `c`, extends it by gates of the types `T`, and `post` holds of the outcome. -/
def Builds {α : Type} (T : GateType → Prop) (c : Circuit R) (m : Build R α)
    (post : α → Circuit R → Prop) : Prop :=
  ∃ a c', m c = .ok (a, c') ∧ Extends T c c' ∧ post a c'

theorem Builds.pure {α : Type} {a : α} {post : α → Circuit R → Prop} (h : post a c) :
    Builds T c (Pure.pure a) post := ⟨a, c, rfl, .refl c, h⟩

theorem Builds.bind {α β : Type} {m : Build R α} {f : α → Build R β} {post : α → Circuit R → Prop}
    {post' : β → Circuit R → Prop} (h : Builds T c m post)
    (hf : ∀ a c', Extends T c c' → post a c' → Builds T c' (f a) post') :
    Builds T c (m >>= f) post' := by
  obtain ⟨a, c', hm, hc, hp⟩ := h
  obtain ⟨b, c'', hb, hc', hp'⟩ := hf a c' hc hp
  refine ⟨b, c'', ?_, hc.trans hc', hp'⟩
  change (m c >>= fun r => f r.1 r.2) = _
  rw [hm]
  exact hb

theorem Builds.weaken {α : Type} {m : Build R α} {post post' : α → Circuit R → Prop}
    (h : Builds T c m post) (hp : ∀ a c', Extends T c c' → post a c' → post' a c') :
    Builds T c m post' := by
  obtain ⟨a, c', hm, hc, hpost⟩ := h
  exact ⟨a, c', hm, hc, hp a c' hc hpost⟩

/-- A loop with an invariant of the elements done, the accumulator and the circuit. -/
theorem Builds.foldlM {α β : Type} {f : β → α → Build R β} (inv : List α → β → Circuit R → Prop)
    (xs pre : List α) {b : β} (h : inv pre b c)
    (hf : ∀ ys x b c', x ∈ xs → Extends T c c' → inv ys b c' →
      Builds T c' (f b x) (inv (ys ++ [x]))) :
    Builds T c (xs.foldlM f b) (inv (pre ++ xs)) := by
  induction xs generalizing c pre b with
  | nil => simpa using Builds.pure h
  | cons x xs ih =>
    refine (hf pre x b c List.mem_cons_self (.refl c) h).bind fun b' c' hc hb' => ?_
    have := ih (pre ++ [x]) hb' fun ys y b c'' hy hc' =>
      hf ys y b c'' (List.mem_cons_of_mem _ hy) (hc.trans hc')
    simpa using this

variable [CircuitRing R]

/-- The plaintext value of wire `w` is `v` of the input values. -/
structure Has (c : Circuit R) (w : ℕ) (v : (ℕ → R) → R) : Prop where
  lt : w < c.size
  value_eq : ∀ f, c.value f w = v f

theorem Has.mono {w : ℕ} {v : (ℕ → R) → R} (h : Has c w v) (hc : Extends T c c') : Has c' w v where
  lt := h.lt.trans_le hc.size_le
  value_eq f := by
    rw [← h.value_eq f]
    exact c.value_unique f (fun g hg => c'.value_eq f (hc.mem hg)) h.lt

/-- Appending a gate whose wires exist: its output has the value the gate gives it. -/
theorem addOp_builds {op : Op R} (hop : op.Valid c.size) (ht : T op.type) {v : (ℕ → R) → R}
    (hv : ∀ c', Extends T c c' → ∀ f, (⟨op, c.size⟩ : Gate R).value f (c'.value f) = v f) :
    Builds T c (addOp op) fun w c' => Has c' w v := by
  have hext : Extends T c (c.push op hop) := ⟨rfl, [⟨op, c.size⟩], rfl, by simpa using ht⟩
  refine ⟨c.size, c.push op hop, dif_pos hop, hext, ?_, fun f => ?_⟩
  · simp [push, size]
  · rw [← hv _ hext f]
    exact (c.push op hop).value_eq f (List.mem_append_right _ (List.mem_singleton.mpr rfl))

section Adders
variable {a b d e : ℕ} {va vb vd ve : (ℕ → R) → R}

omit [CircuitRing R] in
theorem valid_of {op : Op R} (h : ∀ w ∈ op.inputs, w < c.size)
    (hs : op.type ≠ .kDotprod ∧ op.type ≠ .kTrdotp) : op.Valid c.size := by
  refine ⟨h, ?_⟩
  cases op <;> simp_all [Op.type]

theorem addConstAdd_builds (ha : Has c a va) (cval : R) (ht : T .kConstAdd) :
    Builds T c (addConstOpGate .kConstAdd a cval) fun w c' => Has c' w fun f => va f + cval :=
  addOp_builds (valid_of (by simpa [Op.inputs] using ha.lt) (by simp [Op.type])) ht fun c' hc f => by
    rw [← (ha.mono hc).value_eq f]
    rfl

theorem addAdd_builds (ha : Has c a va) (hb : Has c b vb) (ht : T .kAdd) :
    Builds T c (addGate2 .kAdd a b) fun w c' => Has c' w fun f => va f + vb f :=
  addOp_builds (valid_of (by simpa [Op.inputs] using ⟨ha.lt, hb.lt⟩) (by simp [Op.type])) ht
    fun c' hc f => by
      rw [← (ha.mono hc).value_eq f, ← (hb.mono hc).value_eq f]
      rfl

theorem addMul_builds (ha : Has c a va) (hb : Has c b vb) (ht : T .kMul) :
    Builds T c (addGate2 .kMul a b) fun w c' => Has c' w fun f => va f * vb f :=
  addOp_builds (valid_of (by simpa [Op.inputs] using ⟨ha.lt, hb.lt⟩) (by simp [Op.type])) ht
    fun c' hc f => by
      rw [← (ha.mono hc).value_eq f, ← (hb.mono hc).value_eq f]
      rfl

theorem addMul3_builds (ha : Has c a va) (hb : Has c b vb) (hd : Has c d vd) (ht : T .kMul3) :
    Builds T c (addGate3 .kMul3 a b d) fun w c' => Has c' w fun f => va f * vb f * vd f :=
  addOp_builds (valid_of (by simpa [Op.inputs] using ⟨ha.lt, hb.lt, hd.lt⟩) (by simp [Op.type])) ht
    fun c' hc f => by
      rw [← (ha.mono hc).value_eq f, ← (hb.mono hc).value_eq f, ← (hd.mono hc).value_eq f]
      rfl

theorem addMul4_builds (ha : Has c a va) (hb : Has c b vb) (hd : Has c d vd) (he : Has c e ve)
    (ht : T .kMul4) :
    Builds T c (addGate4 .kMul4 a b d e) fun w c' => Has c' w fun f => va f * vb f * vd f * ve f :=
  addOp_builds (valid_of (by simpa [Op.inputs] using ⟨ha.lt, hb.lt, hd.lt, he.lt⟩)
    (by simp [Op.type])) ht fun c' hc f => by
      rw [← (ha.mono hc).value_eq f, ← (hb.mono hc).value_eq f, ← (hd.mono hc).value_eq f,
        ← (he.mono hc).value_eq f]
      rfl

end Adders

/-- A vector of wires filled one by one: position `i` gets a wire with the value `val i`. -/
theorem fillWires_builds {wire : ℕ → Build R ℕ} (val : ℕ → (ℕ → R) → R) (positions : List ℕ)
    (h : ∀ i ∈ positions, ∀ c', Extends T c c' →
      Builds T c' (wire i) fun w c'' => Has c'' w (val i)) (v : ℕ → ℕ) :
    Builds T c (fillWires positions wire v) fun v' c' => ∀ i ∈ positions, Has c' (v' i) (val i) := by
  refine Builds.foldlM (fun done (v : ℕ → ℕ) c' => ∀ i ∈ done, Has c' (v i) (val i)) positions [] (by simp)
    fun done i v c' hi hc hv => ?_
  refine (h i hi c' hc).bind fun w c'' hc' hw => .pure fun j hj => ?_
  by_cases hji : j = i
  · subst hji
    simpa using hw
  · have hj : j ∈ done := by simpa [hji] using hj
    rw [Function.update_of_ne hji]
    exact (hv j hj).mono hc'

/-! ## Input wires -/

def inputGate (w : ℕ) : Gate R := ⟨.kInp, w⟩

def InputsFirst (n : ℕ) (c : Circuit R) : Prop :=
  ∃ rest, c.gates_ = (List.range n).map inputGate ++ rest ∧ ∀ g ∈ rest, g.type ≠ .kInp

omit [CircuitRing R] in
theorem fillInputs_eq (c : Circuit R) (s n : ℕ) (v : ℕ → ℕ) :
    ∃ v' c', fillWires (List.range' s n) (fun _ => newInputWire) v c = .ok (v', c') ∧
      c'.outputs_ = c.outputs_ ∧ c'.gates_ = c.gates_ ++ (List.range' c.size n).map inputGate ∧
      (∀ i < n, v' (s + i) = c.size + i) ∧ ∀ i < s, v' i = v i := by
  induction n generalizing c s v with
  | zero => exact ⟨v, c, rfl, rfl, by simp, by simp, fun _ _ => rfl⟩
  | succ n ih =>
    have hv : (Op.kInp : Op R).Valid c.size := ⟨by simp [Op.inputs], trivial⟩
    have hsize : (c.push .kInp hv).size = c.size + 1 := by simp [push, size]
    obtain ⟨v', c', hm, ho, hg, hi, hlt⟩ :=
      ih (c.push .kInp hv) (s + 1) (Function.update v s c.size)
    have hstep : fillWires (List.range' s (n + 1)) (fun _ => newInputWire) v c =
        fillWires (List.range' (s + 1) n) (fun _ => newInputWire) (Function.update v s c.size)
          (c.push .kInp hv) := by
      have hadd : newInputWire c = .ok (c.size, c.push .kInp hv) := by
        rw [newInputWire, addOp, dif_pos hv]
      rw [List.range'_succ]
      change ((newInputWire c >>= fun r => Except.ok (Function.update v s r.1, r.2)) >>=
        fun r => fillWires (List.range' (s + 1) n) (fun _ => newInputWire) r.1 r.2) = _
      rw [hadd]
      rfl
    refine ⟨v', c', hstep.trans hm, ho, ?_, fun i hin => ?_, fun i his => ?_⟩
    · rw [hg, hsize, List.range'_succ, List.map_cons]
      simp [push, inputGate]
    · obtain - | i := i
      · have := hlt s (Nat.lt_succ_self s)
        simpa using this
      · have := hi i (by omega)
        rw [hsize] at this
        rw [show s + (i + 1) = s + 1 + i by omega, this]
        omega
    · rw [hlt i (by omega), Function.update_of_ne (by omega)]

omit [CircuitRing R] in
theorem input_level {g : Gate R} (hg : g ∈ c.gates_) (ht : g.type = .kInp) :
    gateLevels c.gates_ g.out = 0 := by
  rw [gateLevels_eq c hg, gateLevel, ht, Gate.inputs, Op.eq_kInp ht]
  rfl

omit [CircuitRing R] in
theorem InputsFirst.level_zero {n : ℕ} (h : InputsFirst n c) :
    ∃ rest, gatesAt c 0 = (List.range n).map inputGate ++ rest ∧ ∀ g ∈ rest, g.type ≠ .kInp := by
  obtain ⟨rest, hg, hr⟩ := h
  refine ⟨rest.filter fun g => gateLevels c.gates_ g.out = 0, ?_, fun g hmem => ?_⟩
  · have hin : ∀ g : Gate R, g ∈ (List.range n).map inputGate → gateLevels c.gates_ g.out = 0 := by
      intro g hmem
      refine input_level (hg ▸ List.mem_append_left _ hmem) ?_
      obtain ⟨i, -, rfl⟩ := List.mem_map.mp hmem
      rfl
    rw [gatesAt]
    generalize gateLevels c.gates_ = lv at hin ⊢
    rw [hg, List.filter_append, List.filter_eq_self.mpr (by simpa using hin)]
  · exact hr g (List.mem_filter.mp hmem).1

omit [CircuitRing R] in
theorem InputsFirst.flatten {n : ℕ} (h : InputsFirst n c) :
    ∃ rest, c.orderGatesByLevel.gates_by_level.flatten = (List.range n).map inputGate ++ rest ∧
      ∀ g ∈ rest, g.type ≠ .kInp := by
  obtain ⟨rest, hg, hr⟩ := h.level_zero
  rw [c.gates_by_level_eq, List.range_succ_eq_map, List.map_cons, List.flatten_cons, hg,
    List.append_assoc]
  refine ⟨_, rfl, fun g hmem => ?_⟩
  obtain hm | hm := List.mem_append.mp hmem
  · exact hr g hm
  · simp only [List.map_map, List.mem_flatten, List.mem_map, Function.comp_apply, gatesAt] at hm
    obtain ⟨_, ⟨d, -, rfl⟩, hm⟩ := hm
    obtain ⟨hgc, hd⟩ := List.mem_filter.mp hm
    intro ht
    have := input_level hgc ht
    simp [this] at hd

omit [CircuitRing R] in
theorem InputsFirst.out_eq_count {n : ℕ} (h : InputsFirst n c) {ys zs : List (Gate R)} {x : Gate R}
    (hx : c.orderGatesByLevel.gates_by_level.flatten = ys ++ x :: zs) (ht : x.type = .kInp) :
    x.out = ys.countP (fun g => g.type = .kInp) ∧ x.out < n := by
  obtain ⟨rest, hg, hr⟩ := h.flatten
  rw [hg] at hx
  obtain ⟨as, h1, h2⟩ | ⟨bs, h1, h2⟩ := List.append_eq_append_iff.mp hx
  · exact absurd ht (hr x (h2 ▸ List.mem_append_right _ List.mem_cons_self))
  · have hlen : ys.length < n ∨ bs = [] := by
      obtain - | ⟨b, bs⟩ := bs
      · exact .inr rfl
      · left
        have := congrArg List.length h1
        simp at this
        omega
    obtain hlen | rfl := hlen
    · have hys : ys = (List.range ys.length).map inputGate := by
        have h3 := congrArg (List.take ys.length) h1
        rw [List.take_left' rfl, ← List.map_take, List.take_range, Nat.min_eq_left hlen.le] at h3
        exact h3.symm
      have hxe : x = inputGate ys.length := by
        have h3 := congrArg (fun l => l[ys.length]?) hx
        simpa [List.getElem?_append, hlen] using h3.symm
      have hcount : ys.countP (fun g => g.type = .kInp) = ys.length := by
        rw [List.countP_eq_length]
        intro g hmem
        rw [hys] at hmem
        obtain ⟨j, -, rfl⟩ := List.mem_map.mp hmem
        rfl
      rw [hcount, hxe]
      exact ⟨rfl, hlen⟩
    · rw [List.nil_append] at h2
      exact absurd ht (hr x (h2 ▸ List.mem_cons_self))

theorem has_input {n w : ℕ} (h : InputsFirst n c) (hw : w < n) : Has c w fun f => f w := by
  obtain ⟨rest, hg, -⟩ := h
  have hmem : (inputGate w : Gate R) ∈ c.gates_ := by
    rw [hg]
    exact List.mem_append_left _ (List.mem_map_of_mem (List.mem_range.mpr hw))
  exact ⟨c.out_lt hmem, fun f => c.value_eq f hmem⟩

theorem setAsOutput_eq {w : ℕ} {v : (ℕ → R) → R} (h : Has c w v) :
    ∃ c', setAsOutput w c = .ok ((), c') ∧ c'.gates_ = c.gates_ ∧
      c'.outputs_ = c.outputs_ ++ [w] := by
  refine ⟨_, dif_pos h.lt, rfl, rfl⟩

/-! ## generateMultK -/

def chunk (l j : ℕ) (f : ℕ → R) : R := ∏ t ∈ Finset.Ico (4 ^ l * j) (4 ^ l * (j + 1)), f t

theorem chunk_succ (l j : ℕ) (f : ℕ → R) :
    chunk l (4 * j) f * chunk l (4 * j + 1) f * chunk l (4 * j + 2) f * chunk l (4 * j + 3) f =
      chunk (l + 1) j f := by
  have hle : ∀ a, 4 ^ l * a ≤ 4 ^ l * (a + 1) := fun a => Nat.mul_le_mul_left _ (Nat.le_succ a)
  have hle' : ∀ a b, a ≤ b → 4 ^ l * a ≤ 4 ^ l * b := fun a b h => Nat.mul_le_mul_left _ h
  have h1 : 4 ^ (l + 1) * j = 4 ^ l * (4 * j) := by rw [pow_succ, mul_assoc]
  have h2 : 4 ^ (l + 1) * (j + 1) = 4 ^ l * (4 * j + 3 + 1) := by rw [pow_succ, mul_assoc, mul_add_one]
  simp only [chunk]
  rw [Finset.prod_Ico_consecutive _ (hle _) (hle _),
    Finset.prod_Ico_consecutive _ (hle' _ _ (by omega)) (hle _),
    Finset.prod_Ico_consecutive _ (hle' _ _ (by omega)) (hle _), h1, h2]

theorem multKLevel_builds {leveli : ℕ → ℕ} (l : ℕ) (ht : T .kMul4)
    (h : ∀ j < 4 * (64 / 4 ^ (l + 1)), Has c (leveli j) (chunk l j)) :
    Builds T c (multKLevel leveli (l + 1)) fun v c' =>
      ∀ j < 64 / 4 ^ (l + 1), Has c' (v j) (chunk (l + 1) j) := by
  refine (fillWires_builds (fun j => chunk (l + 1) j) _ (fun j hj c' hc => ?_) _).weaken
    fun v c' _ hv j hj => hv j (List.mem_range.mpr hj)
  have hj := List.mem_range.mp hj
  refine (addMul4_builds ((h _ ?_).mono hc) ((h _ ?_).mono hc) ((h _ ?_).mono hc)
    ((h _ ?_).mono hc) ht).weaken fun w c'' _ hw => ?_
  · omega
  · omega
  · omega
  · omega
  · exact ⟨hw.lt, fun f => (hw.value_eq f).trans (chunk_succ l j f)⟩

omit [CircuitRing R] in
theorem built_eq {m : Build R Unit} (h : m empty = .ok ((), c)) : built m = c := by
  unfold built
  rw [show m.run empty = m empty from rfl, h]

omit [CircuitRing R] in
theorem bind_ok {α β : Type} {m : Build R α} {f : α → Build R β} {a : α}
    (h : m c = .ok (a, c')) : (m >>= f) c = f a c' := by
  change (m c >>= fun r => f r.1 r.2) = _
  rw [h]
  rfl

omit [CircuitRing R] in
theorem fillInputs_first (n : ℕ) (v : ℕ → ℕ) :
    ∃ v' c, fillWires (List.range n) (fun _ => newInputWire) v (empty : Circuit R) = .ok (v', c) ∧
      c.outputs_ = [] ∧ c.gates_ = (List.range n).map inputGate ∧ ∀ i < n, v' i = i := by
  obtain ⟨v', c, hm, ho, hg, hv, -⟩ := fillInputs_eq (empty : Circuit R) 0 n v
  rw [← List.range_eq_range'] at hm
  refine ⟨v', c, hm, ho, ?_, fun i hi => ?_⟩
  · rw [hg, List.range_eq_range']
    rfl
  · simpa [size, empty] using hv i hi

omit [CircuitRing R] in
theorem inputsFirst_of_eq {n : ℕ} (h : c.gates_ = (List.range n).map inputGate) :
    InputsFirst n c := ⟨[], by rw [h, List.append_nil], by simp⟩

/-- What is known of a generated circuit: its inputs come first, its other gates have types `T`, and
its only output is `v` of the inputs. -/
structure Computes (T : GateType → Prop) (n : ℕ) (c : Circuit R) (wout : ℕ) (v : (ℕ → R) → R) :
    Prop where
  inputs_first : InputsFirst n c
  types : ∀ g ∈ c.gates_, g.type = .kInp ∨ T g.type
  outputs_eq : c.outputs_ = [wout]
  out : Has c wout v

theorem computes_of_builds {n w : ℕ} {v : (ℕ → R) → R} (ht : ∀ t, T t → t ≠ .kInp)
    (hg : c.gates_ = (List.range n).map inputGate) (ho : c.outputs_ = [])
    (hc : Extends T c c') (hw : Has c' w v) :
    ∃ c'', setAsOutput w c' = .ok ((), c'') ∧ Computes T n c'' w v := by
  obtain ⟨c'', hm, hg'', ho''⟩ := setAsOutput_eq hw
  have hvalue : ∀ f, c''.value f = c'.value f := fun f => by rw [value, value, hg'']
  obtain ⟨gs, hgs, htypes⟩ := hc.gates_eq
  refine ⟨c'', hm, ⟨gs, by rw [hg'', hgs, hg], fun g h => ht _ (htypes g h)⟩, fun g hmem => ?_, ?_,
    ⟨?_, fun f => ?_⟩⟩
  · rw [hg'', hgs, hg] at hmem
    obtain h | h := List.mem_append.mp hmem
    · obtain ⟨i, -, rfl⟩ := List.mem_map.mp h
      exact .inl rfl
    · exact .inr (htypes g h)
  · rw [ho'', hc.outputs_eq, ho]
    rfl
  · rw [size, hg'']
    exact hw.lt
  · rw [hvalue]
    exact hw.value_eq f

/-- The types of the gates of `generateMultK` besides the inputs. -/
def multkTypes (t : GateType) : Prop := t = .kMul4

theorem multKLevels_builds {v : ℕ → ℕ} (h : ∀ j < 64, Has c (v j) (chunk 0 j)) :
    Builds multkTypes c ((List.range' 1 LAYERS).foldlM multKLevel v)
      fun v' c' => Has c' (v' 0) (chunk 3 0) := by
  rw [show List.range' 1 LAYERS = [1, 2, 3] from rfl]
  simp only [List.foldlM_cons, List.foldlM_nil]
  have ht : multkTypes .kMul4 := rfl
  refine (multKLevel_builds 0 ht h).bind fun v1 c1 _ h1 => ?_
  refine (multKLevel_builds 1 ht h1).bind fun v2 c2 _ h2 => ?_
  exact (multKLevel_builds 2 ht h2).bind fun v3 c3 _ h3 => .pure (h3 0 (by decide))

/-- `generateMultK` computes the product of its 64 inputs with gates of fan-in 4. -/
theorem generateMultK_spec : ∃ wout, Computes multkTypes 64 (built generateMultK : Circuit R) wout
    fun f => ∏ i ∈ Finset.range 64, f i := by
  obtain ⟨v, c, hm, ho, hg, hv⟩ := fillInputs_first (R := R) 64 fun _ => 0
  have h0 : ∀ j < 64, Has c (v j) (chunk 0 j) := fun j hj => by
    rw [hv j hj]
    have := has_input (inputsFirst_of_eq hg) hj
    exact ⟨this.lt, fun f => (this.value_eq f).trans (by simp [chunk])⟩
  obtain ⟨v', c', hm', hc, hout⟩ := multKLevels_builds h0
  have hout' : Has c' (v' 0) fun f => ∏ i ∈ Finset.range 64, f i :=
    ⟨hout.lt, fun f => (hout.value_eq f).trans (by
      rw [chunk, show 4 ^ 3 * 0 = 0 from rfl, show 4 ^ 3 * (0 + 1) = 64 from rfl,
        Finset.range_eq_Ico])⟩
  obtain ⟨c'', hm'', hcomp⟩ := computes_of_builds (by rintro t rfl; decide) hg ho hc hout'
  refine ⟨v' 0, ?_⟩
  rw [built_eq (c := c'')]
  · exact hcomp
  · rw [generateMultK, bind_ok hm, bind_ok hm', hm'']

/-! ## generateParaPrefixOR -/

/-- The product of the values from the start of the block of `B` that `pos` is in up to `pos`. -/
def blockProd (B pos : ℕ) (f : ℕ → R) : R := ∏ t ∈ Finset.Ico (B * (pos / B)) (pos + 1), f t

theorem blockProd_eq {B m i pos : ℕ} (hi : i < B) (hpos : pos = B * m + i) (f : ℕ → R) :
    blockProd B pos f = ∏ t ∈ Finset.Ico (B * m) (pos + 1), f t := by
  subst hpos
  rw [blockProd, Nat.mul_add_div (Nat.zero_lt_of_lt hi), Nat.div_eq_of_lt hi, add_zero]

/-- A product up to a position, from whole blocks and the last part: the step of a layer. -/
theorem blockProd_mul {B m m' i pos : ℕ} (hi : i < B) (hm : m ≤ m') (hpos : pos = B * m' + i)
    (f : ℕ → R) : (∏ t ∈ Finset.Ico (B * m) (B * m'), f t) * blockProd B pos f =
      ∏ t ∈ Finset.Ico (B * m) (pos + 1), f t := by
  rw [blockProd_eq hi hpos, Finset.prod_Ico_consecutive _ (Nat.mul_le_mul_left _ hm) (by omega)]

theorem blockProd_last {B m pos : ℕ} (hB : 0 < B) (hpos : pos + 1 = B * (m + 1)) (f : ℕ → R) :
    blockProd B pos f = ∏ t ∈ Finset.Ico (B * m) (B * (m + 1)), f t := by
  rw [blockProd_eq (Nat.sub_lt hB Nat.one_pos) (m := m) (by rw [mul_add_one] at hpos; omega), hpos]

theorem blockProd_four {B k a i pos : ℕ} (hi : i < B) (ha : a < 4) (hpos : pos = B * (4 * k + a) + i)
    (f : ℕ → R) : blockProd (4 * B) pos f = ∏ t ∈ Finset.Ico (B * (4 * k)) (pos + 1), f t := by
  have hlt : B * a + i < 4 * B := by
    calc B * a + i < B * a + B := by omega
      _ = B * (a + 1) := by ring
      _ ≤ B * 4 := Nat.mul_le_mul_left _ ha
      _ = 4 * B := by ring
  rw [blockProd_eq hlt (m := k) (by rw [hpos]; ring)]
  congr 2
  ring

/-- The types of the gates of `generateParaPrefixOR` besides the inputs. -/
def prefixORTypes (t : GateType) : Prop :=
  t ∈ [GateType.kConstAdd, .kMul, .kMul3, .kMul4, .kAdd, .kDotprod]

def stepPosition (B : ℕ) (ji : ℕ × ℕ) (a : ℕ) : ℕ := B * (4 * (ji.1 - 1) + a) + ji.2

theorem has_update {val : ℕ → (ℕ → R) → R} {v : ℕ → ℕ} {S : Set ℕ} {pos w : ℕ}
    (h : ∀ i ∈ S, Has c (v i) (val i)) (hw : Has c w (val pos)) :
    ∀ i ∈ insert pos S, Has c (Function.update v pos w i) (val i) := by
  intro i hi
  by_cases he : i = pos
  · subst he
    simpa using hw
  · rw [Function.update_of_ne he]
    exact h i (hi.resolve_left he)

/-- A step sets the four positions of its place; those set before stay. -/
theorem stepPositions_concat {B : ℕ} {val : ℕ → (ℕ → R) → R} {done : List (ℕ × ℕ)} {ji : ℕ × ℕ}
    {v : ℕ → ℕ} {wp wq wr ws : ℕ}
    (hdone : ∀ x ∈ done, ∀ a < 4, Has c (v (stepPosition B x a)) (val (stepPosition B x a)))
    (hp : Has c wp (val (stepPosition B ji 0))) (hq : Has c wq (val (stepPosition B ji 1)))
    (hr : Has c wr (val (stepPosition B ji 2))) (hs : Has c ws (val (stepPosition B ji 3))) :
    ∀ x ∈ done ++ [ji], ∀ a < 4,
      Has c (Function.update (Function.update (Function.update (Function.update v
        (stepPosition B ji 0) wp) (stepPosition B ji 1) wq) (stepPosition B ji 2) wr)
        (stepPosition B ji 3) ws (stepPosition B x a)) (val (stepPosition B x a)) := by
  have hold : ∀ pos ∈ {pos | ∃ x ∈ done, ∃ a < 4, pos = stepPosition B x a},
      Has c (v pos) (val pos) := by
    rintro pos ⟨x, hx, a, ha, rfl⟩
    exact hdone x hx a ha
  have hall := has_update (has_update (has_update (has_update hold hp) hq) hr) hs
  intro x hx a ha
  refine hall _ ?_
  obtain hx | hx := List.mem_append.mp hx
  · exact .inr (.inr (.inr (.inr ⟨x, hx, a, ha, rfl⟩)))
  · rw [List.mem_singleton.mp hx]
    have ha' : a = 0 ∨ a = 1 ∨ a = 2 ∨ a = 3 := by omega
    obtain rfl | rfl | rfl | rfl := ha'
    · exact .inr (.inr (.inr (.inl rfl)))
    · exact .inr (.inr (.inl rfl))
    · exact .inr (.inl rfl)
    · exact .inl rfl

/-- The four positions of a step as multiples of a quarter. -/
theorem step_indices (l k : ℕ) :
    k * 4 ^ (l + 1) = 4 ^ l * (4 * k + 0) ∧
      k * 4 ^ (l + 1) + 4 ^ (l + 1 - 1) = 4 ^ l * (4 * k + 1) ∧
      k * 4 ^ (l + 1) + 2 * 4 ^ (l + 1 - 1) = 4 ^ l * (4 * k + 2) ∧
      k * 4 ^ (l + 1) + 3 * 4 ^ (l + 1 - 1) = 4 ^ l * (4 * k + 3) := by
  have hpow : 4 ^ (l + 1) = 4 * 4 ^ l := by rw [pow_succ, mul_comm]
  have hsub : l + 1 - 1 = l := rfl
  rw [hpow, hsub]
  exact ⟨by ring, by ring, by ring, by ring⟩

/-- A quarter ends within its block. -/
theorem quarter_le {l k a : ℕ} (ha : a < 4) :
    4 ^ l * (4 * k + a) + 4 ^ l ≤ 4 ^ (l + 1) * k + 4 ^ (l + 1) := by
  calc 4 ^ l * (4 * k + a) + 4 ^ l = 4 ^ l * (4 * k + (a + 1)) := by ring
    _ ≤ 4 ^ l * (4 * k + 4) := Nat.mul_le_mul_left _ (by omega)
    _ = 4 ^ (l + 1) * k + 4 ^ (l + 1) := by ring

theorem prefixStep_builds {l : ℕ} {leveli level_next : ℕ → ℕ} {done : List (ℕ × ℕ)} {ji : ℕ × ℕ}
    (hi : ji.2 < 4 ^ l)
    (h : ∀ pos < 4 ^ (l + 1) * (ji.1 - 1) + 4 ^ (l + 1), Has c (leveli pos) (blockProd (4 ^ l) pos))
    (hdone : ∀ x ∈ done, ∀ a < 4, Has c (level_next (stepPosition (4 ^ l) x a))
      (blockProd (4 * 4 ^ l) (stepPosition (4 ^ l) x a))) :
    Builds prefixORTypes c (prefixStep leveli (l + 1) level_next ji) fun v c' =>
      ∀ x ∈ done ++ [ji], ∀ a < 4, Has c' (v (stepPosition (4 ^ l) x a))
        (blockProd (4 * 4 ^ l) (stepPosition (4 ^ l) x a)) := by
  obtain ⟨j, i⟩ := ji
  set B := 4 ^ l with hB
  set k := j - 1 with hk
  have hBpos : 0 < B := Nat.pow_pos (by decide)
  obtain ⟨hp, hq, hr, hs⟩ := step_indices l k
  have hlt : ∀ a < 4, B * (4 * k + a) + B ≤ 4 ^ (l + 1) * k + 4 ^ (l + 1) := fun a ha => quarter_le ha
  -- the four positions, and the ends of the blocks before them
  have hone : ∀ a, B * (4 * k + (a + 1)) = B * (4 * k + a) + B := fun a => by ring
  have hHas : ∀ a < 4, Has c (leveli (B * (4 * k + a) + i)) (blockProd B (B * (4 * k + a) + i)) :=
    fun a ha => h _ (by have := hlt a ha; simp only at hi; omega)
  have hLast : ∀ a < 3, Has c (leveli (B * (4 * k + (a + 1)) - 1)) fun f =>
      ∏ t ∈ Finset.Ico (B * (4 * k + a)) (B * (4 * k + (a + 1))), f t := fun a ha => by
    have hpos : B * (4 * k + (a + 1)) - 1 + 1 = B * (4 * k + a + 1) := by
      have := hone a
      change _ = B * (4 * k + (a + 1))
      omega
    have := h (B * (4 * k + (a + 1)) - 1) (by have := hlt a (by omega); rw [hone]; omega)
    exact ⟨this.lt, fun f => (this.value_eq f).trans (blockProd_last hBpos hpos f)⟩
  simp only [prefixStep, ← hk, hq, hr, hs]
  simp only [hp]
  have ht : ∀ t ∈ [GateType.kConstAdd, .kMul, .kMul3, .kMul4, .kAdd, .kDotprod],
    prefixORTypes t := fun t ht => ht
  refine (addConstAdd_builds (hHas 0 (by omega)) 0 (ht _ (by decide))).bind fun wp c1 h1 hwp => ?_
  refine (addMul_builds ((hLast 0 (by omega)).mono h1) ((hHas 1 (by omega)).mono h1)
    (ht _ (by decide))).bind fun wq c2 h2 hwq => ?_
  have h12 := h1.trans h2
  refine (addMul3_builds ((hLast 0 (by omega)).mono h12) ((hLast 1 (by omega)).mono h12)
    ((hHas 2 (by omega)).mono h12) (ht _ (by decide))).bind fun wr c3 h3 hwr => ?_
  have h13 := h12.trans h3
  refine (addMul4_builds ((hLast 0 (by omega)).mono h13) ((hLast 1 (by omega)).mono h13)
    ((hLast 2 (by omega)).mono h13) ((hHas 3 (by omega)).mono h13) (ht _ (by decide))).bind
      fun ws c4 h4 hws => .pure ?_
  have h14 := h13.trans h4
  -- the values of the four wires
  have hle : ∀ a, B * (4 * k + a) ≤ B * (4 * k + (a + 1)) := fun a => Nat.mul_le_mul_left _ (by omega)
  have hwp' : Has c4 wp (blockProd (4 * B) (B * (4 * k + 0) + i)) := by
    refine ⟨(hwp.mono ((h2.trans h3).trans h4)).lt, fun f => ?_⟩
    rw [(hwp.mono ((h2.trans h3).trans h4)).value_eq f, blockProd_four hi (by omega) rfl, add_zero]
    exact blockProd_eq hi rfl f
  have hwq' : Has c4 wq (blockProd (4 * B) (B * (4 * k + 1) + i)) := by
    refine ⟨(hwq.mono (h3.trans h4)).lt, fun f => ?_⟩
    rw [(hwq.mono (h3.trans h4)).value_eq f, blockProd_four hi (by omega) rfl]
    exact blockProd_mul hi (by omega) rfl f
  have hwr' : Has c4 wr (blockProd (4 * B) (B * (4 * k + 2) + i)) := by
    refine ⟨(hwr.mono h4).lt, fun f => ?_⟩
    rw [(hwr.mono h4).value_eq f, blockProd_four hi (by omega) rfl,
      Finset.prod_Ico_consecutive _ (hle 0) (hle 1)]
    exact blockProd_mul hi (by omega) rfl f
  have hws' : Has c4 ws (blockProd (4 * B) (B * (4 * k + 3) + i)) := by
    refine ⟨hws.lt, fun f => ?_⟩
    rw [hws.value_eq f, blockProd_four hi (by omega) rfl,
      Finset.prod_Ico_consecutive _ (hle 0) (hle 1),
      Finset.prod_Ico_consecutive _ ((hle 0).trans (hle 1)) (hle 2)]
    exact blockProd_mul hi (by omega) rfl f
  exact stepPositions_concat (fun x hx a ha => (hdone x hx a ha).mono h14) hwp' hwq' hwr' hws'

/-- The places of a layer over `rep` blocks of 64: `(j, i)` for the blocks of the layer and the
positions in a quarter of one. -/
def layerSteps (rep level : ℕ) : List (ℕ × ℕ) :=
  (List.range' 1 (rep * 64 / 4 ^ level)).flatMap fun j =>
    (List.range (4 ^ (level - 1))).map fun i => (j, i)

theorem blocks_of_layer {l : ℕ} (hl : l < LAYERS) (rep : ℕ) :
    4 ^ (l + 1) * (rep * 64 / 4 ^ (l + 1)) = rep * 64 :=
  Nat.mul_div_cancel' ((Nat.dvd_trans (pow_dvd_pow 4 hl) (by decide : 4 ^ 3 ∣ 64)).mul_left rep)

omit [CircuitRing R] in
theorem mem_layerSteps {rep l : ℕ} {x : ℕ × ℕ} :
    x ∈ layerSteps rep (l + 1) ↔
      (1 ≤ x.1 ∧ x.1 < 1 + rep * 64 / 4 ^ (l + 1)) ∧ x.2 < 4 ^ l := by
  obtain ⟨j, i⟩ := x
  simp only [layerSteps, List.mem_flatMap, List.mem_range'_1, List.mem_map, List.mem_range,
    Prod.mk.injEq, Nat.add_sub_cancel]
  constructor
  · rintro ⟨j', hj', i', hi', rfl, rfl⟩
    exact ⟨hj', hi'⟩
  · rintro ⟨hj, hi⟩
    exact ⟨j, hj, i, hi, rfl, rfl⟩

/-- Every position belongs to one place of a layer. -/
theorem exists_stepPosition {l rep pos : ℕ} (hl : l < LAYERS) (hpos : pos < rep * 64) :
    ∃ x ∈ layerSteps rep (l + 1), ∃ a < 4, stepPosition (4 ^ l) x a = pos := by
  have hpow : 4 ^ (l + 1) = 4 * 4 ^ l := by rw [pow_succ, mul_comm]
  have hBpos : 0 < 4 ^ l := Nat.pow_pos (by decide)
  have hk : pos / (4 * 4 ^ l) < rep * 64 / 4 ^ (l + 1) := by
    rw [Nat.div_lt_iff_lt_mul (by omega), ← hpow, mul_comm, blocks_of_layer hl]
    exact hpos
  refine ⟨(pos / (4 * 4 ^ l) + 1, pos % 4 ^ l), mem_layerSteps.mpr ⟨⟨by simp, by simp only; omega⟩,
    Nat.mod_lt _ hBpos⟩, pos / 4 ^ l % 4, Nat.mod_lt _ (by decide), ?_⟩
  have h1 : pos / (4 * 4 ^ l) = pos / 4 ^ l / 4 := by rw [mul_comm, Nat.div_div_eq_div_mul]
  have h2 := Nat.div_add_mod (pos / 4 ^ l) 4
  have h3 := Nat.div_add_mod pos (4 ^ l)
  simp only [stepPosition, Nat.add_sub_cancel, h1, h2, h3]

/-- A layer: when a step gives its four positions their values from the layer below, the loop gives
every position its value. -/
theorem layer_builds {T : GateType → Prop} {l rep : ℕ} (hl : l < LAYERS)
    {step : (ℕ → ℕ) → ℕ × ℕ → Build R (ℕ → ℕ)} (val : ℕ → (ℕ → R) → R)
    (hstep : ∀ done x v c', x.2 < 4 ^ l →
      4 ^ (l + 1) * (x.1 - 1) + 4 ^ (l + 1) ≤ rep * 64 → Extends T c c' →
      (∀ y ∈ done, ∀ a < 4, Has c' (v (stepPosition (4 ^ l) y a))
        (val (stepPosition (4 ^ l) y a))) →
      Builds T c' (step v x) fun v c'' => ∀ y ∈ done ++ [x], ∀ a < 4,
        Has c'' (v (stepPosition (4 ^ l) y a)) (val (stepPosition (4 ^ l) y a))) :
    Builds T c ((layerSteps rep (l + 1)).foldlM step fun _ => 0) fun v c' =>
      ∀ pos < rep * 64, Has c' (v pos) (val pos) := by
  have hloop := Builds.foldlM (c := c) (T := T) (f := step) (b := fun _ => 0)
    (fun done v c' => ∀ x ∈ done, ∀ a < 4, Has c' (v (stepPosition (4 ^ l) x a))
      (val (stepPosition (4 ^ l) x a))) (layerSteps rep (l + 1)) [] (by simp)
    fun done x v c' hx hc hv => by
      obtain ⟨⟨hj, hjn⟩, hi⟩ := mem_layerSteps.mp hx
      refine hstep done x v c' hi ?_ hc hv
      calc 4 ^ (l + 1) * (x.1 - 1) + 4 ^ (l + 1) = 4 ^ (l + 1) * (x.1 - 1 + 1) := by
            rw [mul_add_one]
        _ ≤ 4 ^ (l + 1) * (rep * 64 / 4 ^ (l + 1)) := Nat.mul_le_mul_left _ (by omega)
        _ = rep * 64 := blocks_of_layer hl rep
  refine hloop.weaken fun v c' _ hv pos hpos => ?_
  obtain ⟨x, hx, a, ha, rfl⟩ := exists_stepPosition hl hpos
  exact hv x hx a ha

theorem prefixLevel_builds {l rep : ℕ} (hl : l < LAYERS) {leveli : ℕ → ℕ}
    (h : ∀ pos < rep * 64, Has c (leveli pos) (blockProd (4 ^ l) pos)) :
    Builds prefixORTypes c (prefixLevel rep leveli (l + 1)) fun v c' =>
      ∀ pos < rep * 64, Has c' (v pos) (blockProd (4 ^ (l + 1)) pos) := by
  have hpow : 4 ^ (l + 1) = 4 * 4 ^ l := by rw [pow_succ, mul_comm]
  rw [hpow]
  exact layer_builds hl _ fun done x v c' hi hblock hc hv =>
    prefixStep_builds hi (fun pos hpos => (h pos (hpos.trans_le hblock)).mono hc) hv

theorem prefixLevels_builds {rep : ℕ} {v : ℕ → ℕ}
    (h : ∀ pos < rep * 64, Has c (v pos) (blockProd (4 ^ 0) pos)) :
    Builds prefixORTypes c ((List.range' 1 LAYERS).foldlM (prefixLevel rep) v) fun v' c' =>
      ∀ pos < rep * 64, Has c' (v' pos) (blockProd (4 ^ 3) pos) := by
  rw [show List.range' 1 LAYERS = [1, 2, 3] from rfl]
  simp only [List.foldlM_cons, List.foldlM_nil]
  refine (prefixLevel_builds (by decide) h).bind fun v1 c1 _ h1 => ?_
  refine (prefixLevel_builds (by decide) h1).bind fun v2 c2 _ h2 => ?_
  exact (prefixLevel_builds (by decide) h2).bind fun v3 c3 _ h3 => .pure h3

theorem addDotprod_builds {xs ys : List ℕ} (hlen : xs.length = ys.length)
    (hlt : ∀ w ∈ xs ++ ys, w < c.size) (ht : T .kDotprod) {v : (ℕ → R) → R}
    (hv : ∀ c', Extends T c c' → ∀ f, dotProduct xs ys (c'.value f) = v f) :
    Builds T c (addGateSIMD .kDotprod xs ys) fun w c' => Has c' w v := by
  have hop : (Op.kDotprod xs ys : Op R).Valid c.size := ⟨hlt, hlen⟩
  rw [addGateSIMD, if_neg (not_not.mpr hlen)]
  exact addOp_builds hop ht hv

/-- The value of `wz` at a position: 1 exactly where the product over the block becomes 0, when the
values are 0 and 1 and `1 + 1 = 0`. -/
def boundary (i : ℕ) (f : ℕ → R) : R :=
  if i % 64 = 0 then blockProd 64 i f + 1 + 0
  else blockProd 64 i f + 1 + (blockProd 64 (i - 1) f + 1)

theorem dotProduct_padded {xs ys : List ℕ} (n : ℕ) (ws : ℕ → R) :
    dotProduct (List.replicate n 0 ++ xs) (List.replicate n 0 ++ ys) ws =
      n * (ws 0 * ws 0) + dotProduct xs ys ws := by
  rw [dotProduct, List.zip_append (by simp), List.map_append, List.sum_append, List.zip_replicate]
  simp [dotProduct]

theorem dotProduct_map {α : Type} (l : List α) (g h : α → ℕ) (ws : ℕ → R) :
    dotProduct (l.map g) (l.map h) ws = (l.map fun i => ws (g i) * ws (h i)).sum := by
  rw [dotProduct, List.zip_map', List.map_map]
  rfl

/-- The boundary wire of position `i`, from the prefix bits at `i` and before it. -/
theorem boundary_builds {wv : ℕ → ℕ} {i : ℕ}
    (h : ∀ j ≤ i, Has c (wv j) fun f => blockProd 64 j f + 1) :
    Builds prefixORTypes c (if i % 64 = 0 then addConstOpGate .kConstAdd (wv i) (0 : R)
      else addGate2 .kAdd (wv i) (wv (i - 1))) fun w c' => Has c' w (boundary i) := by
  by_cases h64 : i % 64 = 0
  · rw [if_pos h64]
    refine (addConstAdd_builds (h i le_rfl) 0 (by simp [prefixORTypes])).weaken fun w c' _ hw => ?_
    exact ⟨hw.lt, fun f => (hw.value_eq f).trans (by simp [boundary, h64])⟩
  · rw [if_neg h64]
    refine (addAdd_builds (h i le_rfl) (h _ (Nat.sub_le i 1)) (by simp [prefixORTypes])).weaken
      fun w c' _ hw => ?_
    exact ⟨hw.lt, fun f => (hw.value_eq f).trans (by simp [boundary, h64])⟩

/-- `generateParaPrefixOR`: for each block of 64 inputs, the inputs of the second half selected by
the block's boundary, all added up. -/
theorem generateParaPrefixOR_spec (rep : ℕ) (hrep : 0 < rep) :
    ∃ wout, Computes prefixORTypes (rep * 64 + rep * 64)
      (built (generateParaPrefixOR rep) : Circuit R) wout fun f =>
        ((rep * 64 : ℕ) : R) * (f 0 * f 0) +
          ((List.range (rep * 64)).map fun i => boundary i f * f (rep * 64 + i)).sum := by
  set n := rep * 64 with hn
  obtain ⟨v, c, hm, ho, hg, hv⟩ := fillInputs_first (R := R) n fun _ => 0
  have hsize : c.size = n := by rw [size, hg, List.length_map, List.length_range]
  obtain ⟨d, c1, hm1, ho1, hg1, hd, -⟩ := fillInputs_eq c 0 n fun _ => 0
  rw [← List.range_eq_range'] at hm1
  rw [hsize] at hg1 hd
  have hg1' : c1.gates_ = (List.range (n + n)).map inputGate := by
    have happ := @List.range'_append_1 0 n n
    rw [Nat.zero_add] at happ
    rw [hg1, hg, ← List.map_append, List.range_eq_range', List.range_eq_range', happ]
  have hin : ∀ w < n + n, Has c1 w fun f => f w := fun w hw => has_input (inputsFirst_of_eq hg1') hw
  have hd' : ∀ i < n, d i = n + i := fun i hi => by simpa using hd i hi
  have h0 : ∀ pos < n, Has c1 (v pos) (blockProd (4 ^ 0) pos) := fun pos hpos => by
    rw [hv pos hpos]
    have := hin pos (by omega)
    exact ⟨this.lt, fun f => (this.value_eq f).trans (by simp [blockProd])⟩
  have hprog : Builds prefixORTypes c1 (do
      let leveli ← (List.range' 1 LAYERS).foldlM (prefixLevel rep) v
      let wv ← fillWires (List.range n) (fun i => addConstOpGate .kConstAdd (leveli i) (1 : R))
        fun _ => 0
      let wz ← fillWires (List.range n) (fun i =>
        if i % 64 = 0 then addConstOpGate .kConstAdd (wv i) (0 : R)
        else addGate2 .kAdd (wv i) (wv (i - 1))) fun _ => 0
      addGateSIMD .kDotprod (List.replicate n 0 ++ (List.range n).map wz)
        (List.replicate n 0 ++ (List.range n).map d)) fun res c' => Has c' res fun f =>
          (n : R) * (f 0 * f 0) +
            ((List.range n).map fun i => boundary i f * f (n + i)).sum := by
    have ht : ∀ t ∈ [GateType.kConstAdd, .kMul, .kMul3, .kMul4, .kAdd, .kDotprod],
      prefixORTypes t := fun t ht => ht
    refine (prefixLevels_builds h0).bind fun leveli c2 h2 hlev => ?_
    refine (fillWires_builds (fun i f => blockProd 64 i f + 1) _ (fun i hi c' hc =>
      addConstAdd_builds ((hlev i (List.mem_range.mp hi)).mono hc) 1 (ht _ (by decide))) _).bind
        fun wv c3 h3 hwv => ?_
    refine (fillWires_builds boundary (List.range n) (fun i hi c' hc =>
      boundary_builds fun j hj => (hwv j (List.mem_range.mpr
        (hj.trans_lt (List.mem_range.mp hi)))).mono hc) _).bind fun wz c4 h4 hwz => ?_
    have hc14 : Extends prefixORTypes c1 c4 := (h2.trans h3).trans h4
    have hin4 : ∀ w < n + n, Has c4 w fun f => f w := fun w hw => (hin w hw).mono hc14
    have hn0 : 0 < n + n := by omega
    refine addDotprod_builds (by simp) (fun w hw => ?_) (ht _ (by decide)) fun c' hc f => ?_
    · simp only [List.mem_append, List.mem_replicate, List.mem_map, List.mem_range] at hw
      obtain (⟨-, rfl⟩ | ⟨i, hi, rfl⟩) | (⟨-, rfl⟩ | ⟨i, hi, rfl⟩) := hw
      · exact (hin4 0 hn0).lt
      · exact (hwz i (List.mem_range.mpr hi)).lt
      · exact (hin4 0 hn0).lt
      · rw [hd' i hi]
        exact (hin4 _ (by omega)).lt
    · rw [dotProduct_padded, dotProduct_map, ((hin4 0 hn0).mono hc).value_eq f]
      refine congrArg _ (congrArg List.sum (List.map_congr_left fun i hi => ?_))
      have hi' := List.mem_range.mp hi
      rw [((hwz i hi).mono hc).value_eq f, hd' i hi', ((hin4 _ (by omega)).mono hc).value_eq f]
  obtain ⟨res, c', hm', hc, hout⟩ := hprog
  obtain ⟨c'', hm'', hcomp⟩ := computes_of_builds
    (by intro t ht; simp only [prefixORTypes] at ht; rintro rfl; simp at ht) hg1'
    (ho1.trans ho) hc hout
  refine ⟨res, ?_⟩
  rw [built_eq (c := c'')]
  · exact hcomp
  · rw [generateParaPrefixOR, bind_ok hm, bind_ok hm1]
    rw [← hm'', ← bind_ok (f := setAsOutput) hm']
    simp only [bind_assoc, hn]

end Circuit

end QSync
