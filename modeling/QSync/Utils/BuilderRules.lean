import QSync.Utils.GeneratorSpecs

/-! # Rules for builder programs that set outputs

`Makes T c m post`: the builder program `m`, run on `c`, does not throw, appends gates of the types
`T` and outputs, and `post` holds of its result, the new outputs and the circuit. A program that
starts on the empty circuit is evaluated through the values of its outputs (`Makes.evaluate`).
-/

namespace QSync.Circuit
set_option autoImplicit false
set_option maxHeartbeats 250000

variable {R : Type} {T T' : GateType → Prop} {c c' c'' : Circuit R}

/-- `c'` is `c` with gates of the types `T` and the outputs `outs` appended. -/
structure Appends (T : GateType → Prop) (c c' : Circuit R) (outs : List ℕ) : Prop where
  gates_eq : ∃ gs, c'.gates_ = c.gates_ ++ gs ∧ ∀ g ∈ gs, T g.type
  outputs_eq : c'.outputs_ = c.outputs_ ++ outs

theorem Extends.appends (h : Extends T c c') : Appends T c c' [] where
  gates_eq := h.gates_eq
  outputs_eq := by rw [h.outputs_eq, List.append_nil]

theorem Appends.refl (c : Circuit R) : Appends T c c [] := (Extends.refl c).appends

theorem Appends.trans {outs outs' : List ℕ} (h : Appends T c c' outs) (h' : Appends T c' c'' outs') :
    Appends T c c'' (outs ++ outs') := by
  obtain ⟨⟨gs, hg, ht⟩, ho⟩ := h
  obtain ⟨⟨gs', hg', ht'⟩, ho'⟩ := h'
  refine ⟨⟨gs ++ gs', by rw [hg', hg, List.append_assoc], fun g hmem => ?_⟩,
    by rw [ho', ho, List.append_assoc]⟩
  obtain h | h := List.mem_append.mp hmem
  · exact ht g h
  · exact ht' g h

theorem Appends.size_le {outs : List ℕ} (h : Appends T c c' outs) : c.size ≤ c'.size := by
  obtain ⟨⟨gs, hgs, -⟩, -⟩ := h
  rw [size, size, hgs, List.length_append]
  exact Nat.le_add_right _ _

theorem Extends.types_mono (h : Extends T c c') (hT : ∀ t, T t → T' t) : Extends T' c c' := by
  obtain ⟨ho, gs, hg, ht⟩ := h
  exact ⟨ho, gs, hg, fun g hmem => hT _ (ht g hmem)⟩

theorem Appends.types_mono {outs : List ℕ} (h : Appends T c c' outs) (hT : ∀ t, T t → T' t) :
    Appends T' c c' outs := by
  obtain ⟨⟨gs, hg, ht⟩, ho⟩ := h
  exact ⟨⟨gs, hg, fun g hmem => hT _ (ht g hmem)⟩, ho⟩

/-! ## Programs -/

/-- `m` succeeds on `c` and `post` holds of its result, the outputs it sets and the circuit. -/
def Makes {α : Type} (T : GateType → Prop) (c : Circuit R) (m : Build R α)
    (post : α → List ℕ → Circuit R → Prop) : Prop :=
  ∃ a outs c', m c = .ok (a, c') ∧ Appends T c c' outs ∧ post a outs c'

section Programs
variable {α β : Type} {m : Build R α} {f : α → Build R β}

theorem Builds.types_mono {post : α → Circuit R → Prop} (h : Builds T c m post)
    (hT : ∀ t, T t → T' t) : Builds T' c m post := by
  obtain ⟨a, c', hm, hc, hp⟩ := h
  exact ⟨a, c', hm, hc.types_mono hT, hp⟩

theorem Makes.pure {a : α} {post : α → List ℕ → Circuit R → Prop} (h : post a [] c) :
    Makes T c (Pure.pure a) post := ⟨a, [], c, rfl, .refl c, h⟩

theorem Makes.bind {post : α → List ℕ → Circuit R → Prop} {post' : β → List ℕ → Circuit R → Prop}
    (h : Makes T c m post)
    (hf : ∀ a outs c', Appends T c c' outs → post a outs c' →
      Makes T c' (f a) fun b outs' => post' b (outs ++ outs')) :
    Makes T c (m >>= f) post' := by
  obtain ⟨a, outs, c', hm, hc, hp⟩ := h
  obtain ⟨b, outs', c'', hb, hc', hp'⟩ := hf a outs c' hc hp
  exact ⟨b, outs ++ outs', c'', (bind_ok hm).trans hb, hc.trans hc', hp'⟩

/-- Sequencing after a program that sets no outputs. -/
theorem Builds.then {post : α → Circuit R → Prop} {post' : β → List ℕ → Circuit R → Prop}
    (h : Builds T c m post)
    (hf : ∀ a c', Extends T c c' → post a c' → Makes T c' (f a) post') :
    Makes T c (m >>= f) post' := by
  obtain ⟨a, c', hm, hc, hp⟩ := h
  obtain ⟨b, outs, c'', hb, hc', hp'⟩ := hf a c' hc hp
  exact ⟨b, outs, c'', (bind_ok hm).trans hb, by simpa using hc.appends.trans hc', hp'⟩

theorem Makes.weaken {post post' : α → List ℕ → Circuit R → Prop} (h : Makes T c m post)
    (hp : ∀ a outs c', Appends T c c' outs → post a outs c' → post' a outs c') :
    Makes T c m post' := by
  obtain ⟨a, outs, c', hm, hc, hpost⟩ := h
  exact ⟨a, outs, c', hm, hc, hp a outs c' hc hpost⟩

/-- A loop with an invariant of the elements done, the accumulator, the outputs and the circuit. -/
theorem Makes.foldlM {f : β → α → Build R β} (inv : List α → β → List ℕ → Circuit R → Prop)
    (xs : List α) {b : β} (h : inv [] b [] c)
    (hf : ∀ ys x zs b outs c', xs = ys ++ x :: zs → Appends T c c' outs → inv ys b outs c' →
      Makes T c' (f b x) fun b' outs' => inv (ys ++ [x]) b' (outs ++ outs')) :
    Makes T c (xs.foldlM f b) (inv xs) := by
  have hrun : ∀ zs ys, ys ++ zs = xs → ∀ b outs c₁, Appends T c c₁ outs → inv ys b outs c₁ →
      Makes T c₁ (zs.foldlM f b) fun b' outs' => inv xs b' (outs ++ outs') := by
    intro zs
    induction zs with
    | nil =>
      intro ys hys b outs c₁ _ hinv
      rw [List.append_nil] at hys
      subst hys
      exact .pure (by simpa using hinv)
    | cons z zs ih =>
      intro ys hys b outs c₁ hc₁ hinv
      rw [List.foldlM_cons]
      refine (hf ys z zs b outs c₁ hys.symm hc₁ hinv).bind fun b' outs' c₂ hc₂ hinv' => ?_
      refine (ih (ys ++ [z]) (by simp [← hys]) b' (outs ++ outs') c₂ (hc₁.trans hc₂) hinv').weaken
        fun b'' outs'' c₃ _ hlast => ?_
      rwa [List.append_assoc] at hlast
  simpa using hrun xs [] rfl b [] c (.refl c) h

/-- A loop that sets no outputs, where a turn knows what was done before it. -/
theorem Builds.foldlM_split {f : β → α → Build R β} (inv : List α → β → Circuit R → Prop)
    (xs : List α) {b : β} (h : inv [] b c)
    (hf : ∀ ys x zs b c', xs = ys ++ x :: zs → Extends T c c' → inv ys b c' →
      Builds T c' (f b x) (inv (ys ++ [x]))) : Builds T c (xs.foldlM f b) (inv xs) := by
  have hrun : ∀ zs ys, ys ++ zs = xs → ∀ b c₁, Extends T c c₁ → inv ys b c₁ →
      Builds T c₁ (zs.foldlM f b) (inv xs) := by
    intro zs
    induction zs with
    | nil =>
      intro ys hys b c₁ _ hinv
      rw [List.append_nil] at hys
      subst hys
      exact .pure hinv
    | cons z zs ih =>
      intro ys hys b c₁ hc₁ hinv
      rw [List.foldlM_cons]
      refine (hf ys z zs b c₁ hys.symm hc₁ hinv).bind fun b' c₂ hc₂ hinv' => ?_
      exact ih (ys ++ [z]) (by simp [← hys]) b' c₂ (hc₁.trans hc₂) hinv'
  exact hrun xs [] rfl b c (.refl c) h

/-- The position of a turn of a counting loop. -/
theorem range'_split {s n x : ℕ} {ys zs : List ℕ} (h : List.range' s n = ys ++ x :: zs) :
    x = ys.length + s ∧ ys.length < n := by
  have hlen := congrArg List.length h
  rw [List.length_range', List.length_append, List.length_cons] at hlen
  have hlt : ys.length < n := by omega
  have hget : (List.range' s n)[ys.length]? = some x := by rw [h]; simp
  rw [List.getElem?_range' hlt] at hget
  exact ⟨by simpa [Nat.add_comm] using (Option.some.inj hget).symm, hlt⟩

/-- A loop whose every turn sets the outputs `outsOf x`. -/
theorem Makes.forM {body : α → Build R Unit} (outsOf : α → List ℕ) (xs : List α)
    (h : ∀ x ∈ xs, ∀ outs c', Appends T c c' outs →
      Makes T c' (body x) fun _ outs' _ => outs' = outsOf x) :
    Makes T c (xs.forM body) fun _ outs _ => outs = xs.flatMap outsOf := by
  induction xs generalizing c with
  | nil => exact .pure rfl
  | cons x xs ih =>
    change Makes T c (body x >>= fun _ => xs.forM body) _
    refine (h x List.mem_cons_self [] c (.refl c)).bind fun _ outs c' hc hout => ?_
    refine (ih fun y hy outs' c'' hc' =>
      h y (List.mem_cons_of_mem _ hy) _ c'' (hc.trans hc')).weaken fun _ outs' _ _ hout' => ?_
    rw [hout, hout', List.flatMap_cons]

end Programs

/-! ## Programs that may throw -/

/-- Whenever `m` does not throw, `post` holds of its result. -/
def Ensures {α : Type} (m : Build R α) (post : α → Prop) : Prop :=
  ∀ c a c', m c = .ok (a, c') → post a

section Ensures
variable {α β : Type} {m : Build R α} {f : α → Build R β}

theorem Ensures.pure {a : α} {post : α → Prop} (h : post a) :
    Ensures (Pure.pure a : Build R α) post := by
  rintro c b c' hm
  cases hm
  exact h

theorem Ensures.bind {post : α → Prop} {post' : β → Prop} (h : Ensures m post)
    (hf : ∀ a, post a → Ensures (f a) post') : Ensures (m >>= f) post' := by
  intro c b c' hm
  change (m c >>= fun r => f r.1 r.2) = _ at hm
  cases hmc : m c with
  | error e =>
    rw [hmc] at hm
    cases hm
  | ok r =>
    rw [hmc] at hm
    exact hf r.1 (h c r.1 r.2 hmc) r.2 b c' hm

/-- Sequencing after a program of which nothing is needed. -/
theorem Ensures.skip {post : β → Prop} (hf : ∀ a, Ensures (f a) post) : Ensures (m >>= f) post :=
  Ensures.bind (fun _ _ _ _ => trivial) fun a (_ : True) => hf a

theorem Ensures.weaken {post post' : α → Prop} (h : Ensures m post) (hp : ∀ a, post a → post' a) :
    Ensures m post' := fun c a c' hm => hp a (h c a c' hm)

/-- What a program does with a result only matters for the results it can have. -/
theorem Ensures.bind_congr {g : α → Build R β} {post : α → Prop} (h : Ensures m post)
    (hfg : ∀ a, post a → f a = g a) : (m >>= f) = m >>= g := by
  funext c
  change (m c >>= fun r => f r.1 r.2) = m c >>= fun r => g r.1 r.2
  cases hm : m c with
  | error e => rfl
  | ok r =>
    change f r.1 r.2 = g r.1 r.2
    rw [hfg r.1 (h c r.1 r.2 hm)]

/-- A loop with an invariant of the accumulator, and a fact about every element it ran on. -/
theorem Ensures.foldlM {f : β → α → Build R β} (inv : β → Prop) (p : α → Prop) (xs : List α) {b : β}
    (h : inv b) (hf : ∀ b, ∀ x ∈ xs, inv b → Ensures (f b x) fun b' => inv b' ∧ p x) :
    Ensures (xs.foldlM f b) fun b' => inv b' ∧ ∀ x ∈ xs, p x := by
  induction xs generalizing b with
  | nil => exact .pure ⟨h, by simp⟩
  | cons x xs ih =>
    rw [List.foldlM_cons]
    refine (hf b x List.mem_cons_self h).bind fun b' ⟨hb', hx⟩ => ?_
    refine (ih hb' fun b y hy => hf b y (List.mem_cons_of_mem _ hy)).weaken fun b'' ⟨hb'', hxs⟩ =>
      ⟨hb'', fun y hy => ?_⟩
    obtain rfl | hy := List.mem_cons.mp hy
    · exact hx
    · exact hxs y hy

end Ensures

/-! ## Types of gates -/

/-- All gates that `m` appends are of the types `T`. -/
def Emits {α : Type} (T : GateType → Prop) (m : Build R α) : Prop :=
  ∀ c a c', m c = .ok (a, c') → ∀ g ∈ c'.gates_, g ∈ c.gates_ ∨ T g.type

section Emits
variable {α β : Type} {m : Build R α} {f : α → Build R β}

theorem Emits.pure {a : α} : Emits T (Pure.pure a : Build R α) := by
  rintro c b c' hm g hg
  cases hm
  exact .inl hg

theorem Emits.throw {e : String} : Emits T (throw e : Build R α) := by
  rintro c b c' hm
  cases hm

theorem Emits.bind (h : Emits T m) (hf : ∀ a, Emits T (f a)) : Emits T (m >>= f) := by
  intro c b c' hm g hg
  change (m c >>= fun r => f r.1 r.2) = _ at hm
  cases hmc : m c with
  | error e =>
    rw [hmc] at hm
    cases hm
  | ok r =>
    rw [hmc] at hm
    obtain hg | hg := hf r.1 r.2 b c' hm g hg
    · exact h c r.1 r.2 hmc g hg
    · exact .inr hg

theorem Emits.foldlM {f : β → α → Build R β} (hf : ∀ b x, Emits T (f b x)) (xs : List α) (b : β) :
    Emits T (xs.foldlM f b) := by
  induction xs generalizing b with
  | nil => exact .pure
  | cons x xs ih =>
    rw [List.foldlM_cons]
    exact (hf b x).bind fun b' => ih b'

theorem addOp_emits {op : Op R} (h : T op.type) : Emits T (addOp op) := by
  intro c b c' hm g hg
  rw [addOp] at hm
  split at hm
  · cases hm
    obtain hg | hg := List.mem_append.mp hg
    · exact .inl hg
    · rw [List.mem_singleton.mp hg]
      exact .inr h
  · cases hm

theorem setAsOutput_emits {wid : ℕ} : Emits T (setAsOutput wid : Build R Unit) := by
  intro c b c' hm g hg
  rw [setAsOutput] at hm
  split at hm
  · cases hm
    exact .inl hg
  · cases hm

end Emits

/-! ## Values -/

section Values
variable [CircuitRing R] {a b w : ℕ} {va vb v : (ℕ → R) → R}

theorem Has.appends {outs : List ℕ} (h : Has c w v) (hc : Appends T c c' outs) : Has c' w v := by
  obtain ⟨⟨gs, hgs, ht⟩, -⟩ := hc
  have hmem : ∀ g ∈ c.gates_, g ∈ c'.gates_ := fun g hg => by
    rw [hgs]
    exact List.mem_append_left _ hg
  refine ⟨?_, fun f => ?_⟩
  · rw [size, hgs, List.length_append]
    exact Nat.lt_add_right _ h.lt
  · rw [← h.value_eq f]
    exact c.value_unique f (fun g hg => c'.value_eq f (hmem g hg)) h.lt

theorem Has.congr {v' : (ℕ → R) → R} (h : Has c w v) (hv : ∀ f, v f = v' f) : Has c w v' where
  lt := h.lt
  value_eq f := (h.value_eq f).trans (hv f)

theorem has_value {w : ℕ} (hw : w < c.size) : Has c w fun f => c.value f w := ⟨hw, fun _ => rfl⟩

/-- The wires of a circuit keep their values in an extension. -/
theorem Extends.value_eq (hc : Extends T c c') (f : ℕ → R) :
    ∀ w < c.size, c'.value f w = c.value f w :=
  fun _ hw => ((has_value hw).mono hc).value_eq f

theorem setAsOutput_makes (h : Has c w v) :
    Makes T c (setAsOutput w) fun _ outs _ => outs = [w] := by
  obtain ⟨c', hm, hg, ho⟩ := setAsOutput_eq h
  exact ⟨(), [w], c', hm, ⟨⟨[], by rw [hg, List.append_nil], by simp⟩, ho⟩, rfl⟩

theorem newInputWire_builds (ht : T .kInp) :
    Builds T c newInputWire fun w c' => w = c.size ∧ c'.size = c.size + 1 ∧ Has c' w fun f => f w := by
  have hop : (Op.kInp : Op R).Valid c.size := ⟨by simp [Op.inputs], trivial⟩
  have hsize : (c.push .kInp hop).size = c.size + 1 := by simp [push, size]
  have hm : newInputWire c = .ok (c.size, c.push .kInp hop) := by
    rw [newInputWire, addOp, dif_pos hop]
  have htypes : ∀ g ∈ [(⟨.kInp, c.size⟩ : Gate R)], T g.type := by
    intro g hg
    rw [List.mem_singleton.mp hg]
    exact ht
  refine ⟨c.size, c.push .kInp hop, hm, ⟨rfl, [⟨.kInp, c.size⟩], rfl, htypes⟩, rfl, hsize, by omega,
    fun f => ?_⟩
  exact (c.push .kInp hop).value_eq f (List.mem_append_right _ (List.mem_singleton.mpr rfl))

theorem addSub_builds (ha : Has c a va) (hb : Has c b vb) (ht : T .kSub) :
    Builds T c (addGate2 .kSub a b) fun w c' => Has c' w fun f => va f - vb f :=
  addOp_builds (valid_of (by simpa [Op.inputs] using ⟨ha.lt, hb.lt⟩) (by simp [Op.type])) ht
    fun c' hc f => by
      rw [← (ha.mono hc).value_eq f, ← (hb.mono hc).value_eq f]
      rfl

theorem addConstMul_builds (ha : Has c a va) (cval : R) (ht : T .kConstMul) :
    Builds T c (addConstOpGate .kConstMul a cval) fun w c' => Has c' w fun f => va f * cval :=
  addOp_builds (valid_of (by simpa [Op.inputs] using ha.lt) (by simp [Op.type])) ht fun c' hc f => by
    rw [← (ha.mono hc).value_eq f]
    rfl

theorem addLtz_builds (ha : Has c a va) (ht : T .kLtz) :
    Builds T c (addGate1 .kLtz a) fun w c' => Has c' w fun f => CircuitRing.msb (va f) :=
  addOp_builds (valid_of (by simpa [Op.inputs] using ha.lt) (by simp [Op.type])) ht fun c' hc f => by
    rw [← (ha.mono hc).value_eq f]
    rfl

theorem addMsb_builds (ha : Has c a va) (ht : T .kMsb) :
    Builds T c (addGate1 .kMsb a) fun w c' => Has c' w fun f => CircuitRing.msb (va f) :=
  addOp_builds (valid_of (by simpa [Op.inputs] using ha.lt) (by simp [Op.type])) ht fun c' hc f => by
    rw [← (ha.mono hc).value_eq f]
    rfl

theorem addTrdotp_builds {xs ys : List ℕ} (hlen : xs.length = ys.length)
    (hlt : ∀ w ∈ xs ++ ys, w < c.size) (ht : T .kTrdotp) :
    Builds T c (addGateSIMD .kTrdotp xs ys) fun w c' => Has c' w fun f =>
      (CircuitRing.truncate.toOption.getD fun _ => 0) (dotProduct xs ys (c.value f)) := by
  have hop : (Op.kTrdotp xs ys : Op R).Valid c.size := ⟨hlt, hlen⟩
  rw [addGateSIMD, if_neg (not_not.mpr hlen)]
  refine addOp_builds hop ht fun c' hc f => ?_
  have hvals : dotProduct xs ys (c'.value f) = dotProduct xs ys (c.value f) :=
    dotProduct_congr fun w hw => hc.value_eq f w (hlt w hw)
  simp only [Gate.value, hvals]

/-- Setting the wires of some positions as outputs, one after the other. -/
theorem setOutputs_makes {α : Type} (wire : α → ℕ) (val : α → (ℕ → R) → R) (xs : List α)
    (h : ∀ x ∈ xs, Has c (wire x) (val x)) :
    Makes T c (xs.forM fun x => setAsOutput (wire x)) fun _ outs _ => outs = xs.map wire := by
  have hloop := Makes.forM (c := c) (T := T) (fun x => [wire x]) xs fun x hx outs c' hc =>
    setAsOutput_makes ((h x hx).appends hc)
  rwa [← List.map_eq_flatMap] at hloop

/-- The wires of a program run on every element. -/
theorem mapM_builds {α : Type} {body : α → Build R ℕ} (val : α → (ℕ → R) → R) (xs : List α)
    (h : ∀ x ∈ xs, ∀ c', Extends T c c' → Builds T c' (body x) fun w c'' => Has c'' w (val x)) :
    Builds T c (xs.mapM body) fun ws c' => List.Forall₂ (Has c') ws (xs.map val) := by
  induction xs generalizing c with
  | nil => exact .pure .nil
  | cons x xs ih =>
    rw [List.mapM_cons]
    refine (h x List.mem_cons_self c (.refl c)).bind fun w c' hc hw => ?_
    refine (ih fun y hy c'' hc' => h y (List.mem_cons_of_mem _ hy) c'' (hc.trans hc')).bind
      fun ws c'' hc' hws => .pure ?_
    exact .cons (hw.mono hc') hws

/-- A vector of input wires. -/
theorem fillInputs_builds (n : ℕ) (v : ℕ → ℕ) (ht : T .kInp) :
    Builds T c (fillWires (List.range n) (fun _ => newInputWire) v) fun v' c' =>
      c'.size = c.size + n ∧ ∀ i < n, Has c' (v' i) fun f => f (c.size + i) := by
  obtain ⟨v', c', hm, ho, hg, hv, -⟩ := fillInputs_eq c 0 n v
  rw [← List.range_eq_range'] at hm
  have htypes : ∀ g ∈ (List.range' c.size n).map (inputGate (R := R)), T g.type := by
    intro g hg
    obtain ⟨w, -, rfl⟩ := List.mem_map.mp hg
    exact ht
  refine ⟨v', c', hm, ⟨ho, _, hg, htypes⟩, ?_, fun i hi => ?_⟩
  · rw [size, size, hg, List.length_append, List.length_map, List.length_range']
  · have hw : v' i = c.size + i := by simpa using hv i hi
    have hmem : (inputGate (c.size + i) : Gate R) ∈ c'.gates_ := by
      rw [hg]
      exact List.mem_append_right _
        (List.mem_map_of_mem (List.mem_range'_1.mpr ⟨Nat.le_add_right _ _, by omega⟩))
    rw [hw]
    exact ⟨c'.out_lt hmem, fun f => c'.value_eq f hmem⟩

/-! ## Evaluation -/

theorem map_value {outs : List ℕ} {vals : List ((ℕ → R) → R)} (h : List.Forall₂ (Has c) outs vals)
    (f : ℕ → R) : outs.map (c.value f) = vals.map fun v => v f := by
  induction h with
  | nil => rfl
  | cons hw _ ih => rw [List.map_cons, List.map_cons, hw.value_eq f, ih]

/-- What `evaluate` leaves on a wire whose value is known. -/
theorem wires_eq {f ws : ℕ → R} {w : ℕ} {v : (ℕ → R) → R}
    (ht : ∀ g ∈ c.gates_, g.type ≠ .kRelu ∧ g.type ≠ .kTrdotp)
    (hws : c.evaluateWires (c.assign f) = .ok ws) (hw : Has c w v) : ws w = v f := by
  obtain ⟨ws', hws', hval⟩ := c.evaluateWires_eq f ht
  rw [hws, Except.ok.injEq] at hws'
  rw [hws', hval w hw.lt, hw.value_eq f]

/-- What a program on the empty circuit builds is evaluated to the values of its outputs. -/
theorem Makes.evaluate {α : Type} {m : Build R α} {post : α → List ℕ → Circuit R → Prop}
    (h : Makes T empty m post) (hT : ∀ t, T t → t ≠ .kRelu ∧ t ≠ .kTrdotp) :
    ∃ a outs, m empty = .ok (a, built m) ∧ post a outs (built m) ∧
      ∀ f, (built m).evaluate ((built m).assign f) = .ok (outs.map ((built m).value f)) := by
  obtain ⟨a, outs, c, hm, ⟨⟨gs, hgs, htypes⟩, ho⟩, hp⟩ := h
  have hbuilt : built m = c := by
    unfold built
    rw [show m.run empty = m empty from rfl, hm]
  rw [hbuilt]
  refine ⟨a, outs, hm, hp, fun f => ?_⟩
  rw [c.evaluate_eq f fun g hg => ?_, ho]
  · rfl
  · rw [hgs] at hg
    exact hT _ (htypes g hg)

end Values

end QSync.Circuit
