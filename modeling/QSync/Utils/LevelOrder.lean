import QSync.Utils.Circuit

/-! # The level order is a schedule

Every consumer of a `LevelOrderedCircuit` walks its levels in order and the gates of a level in
order. `Sched` says that such a walk finds the inputs of each gate already there and gives each wire
one value; `LevelSched` adds that a gate that needs interaction finds its inputs in lower levels.
`Circuit.levelSched` proves both of `orderGatesByLevel`, and `runGates_eq` turns a walk into the
equations its result satisfies.
-/

namespace QSync
set_option autoImplicit false
set_option maxHeartbeats 250000

variable {R β : Type}

def outs (gs : List (Gate R)) : Set ℕ := {w | ∃ g ∈ gs, g.out = w}

/-- Starting from the wires `seen`, each gate reads wires that are there and defines a new one. -/
def Sched (seen : Set ℕ) : List (Gate R) → Prop
  | [] => True
  | g :: gs => (∀ w ∈ g.inputs, w ∈ seen) ∧ g.out ∉ seen ∧ Sched (insert g.out seen) gs

/-- The levels form a schedule in which interactive gates read lower levels only. -/
def LevelSched (seen : Set ℕ) : List (List (Gate R)) → Prop
  | [] => True
  | l :: ls => Sched seen l ∧ (∀ g ∈ l, g.type.interactive → ∀ w ∈ g.inputs, w ∈ seen) ∧
      LevelSched (seen ∪ outs l) ls

@[simp] theorem outs_nil : outs ([] : List (Gate R)) = ∅ := by simp [outs]

theorem outs_cons (g : Gate R) (gs : List (Gate R)) : outs (g :: gs) = insert g.out (outs gs) := by
  ext w
  simp [outs, eq_comm]

theorem outs_append (gs hs : List (Gate R)) : outs (gs ++ hs) = outs gs ∪ outs hs := by
  ext w
  simp [outs, or_and_right, exists_or]

theorem mem_outs {g : Gate R} {gs : List (Gate R)} (h : g ∈ gs) : g.out ∈ outs gs := ⟨g, h, rfl⟩

theorem insert_union_outs (g : Gate R) (gs : List (Gate R)) (seen : Set ℕ) :
    insert g.out seen ∪ outs gs = seen ∪ outs (g :: gs) := by
  rw [outs_cons, Set.insert_union, Set.union_insert]

theorem Sched.append {seen : Set ℕ} {gs hs : List (Gate R)} (h : Sched seen gs)
    (h' : Sched (seen ∪ outs gs) hs) : Sched seen (gs ++ hs) := by
  induction gs generalizing seen with
  | nil => simpa using h'
  | cons g gs ih =>
    obtain ⟨hin, hout, hgs⟩ := h
    exact ⟨hin, hout, ih hgs (by rwa [insert_union_outs])⟩

theorem LevelSched.sched {seen : Set ℕ} {ls : List (List (Gate R))} (h : LevelSched seen ls) :
    Sched seen ls.flatten := by
  induction ls generalizing seen with
  | nil => trivial
  | cons l ls ih =>
    obtain ⟨hl, -, hls⟩ := h
    exact hl.append (ih hls)

theorem Sched.out_notMem {seen : Set ℕ} {gs : List (Gate R)} (h : Sched seen gs) :
    ∀ g ∈ gs, g.out ∉ seen := by
  induction gs generalizing seen with
  | nil => simp
  | cons g gs ih =>
    obtain ⟨-, hout, hgs⟩ := h
    intro g' hg'
    obtain rfl | hg' := List.mem_cons.mp hg'
    · exact hout
    · exact fun hmem => ih hgs g' hg' (Set.mem_insert_of_mem _ hmem)

theorem Sched.outs_nodup {seen : Set ℕ} {gs : List (Gate R)} (h : Sched seen gs) :
    (gs.map Gate.out).Nodup := by
  induction gs generalizing seen with
  | nil => exact List.nodup_nil
  | cons g gs ih =>
    obtain ⟨-, -, hgs⟩ := h
    refine List.nodup_cons.mpr ⟨fun hmem => ?_, ih hgs⟩
    obtain ⟨g', hg', he⟩ := List.mem_map.mp hmem
    exact hgs.out_notMem g' hg' (he ▸ Set.mem_insert _ _)

theorem Sched.middle {seen : Set ℕ} {ys zs : List (Gate R)} {x : Gate R}
    (h : Sched seen (ys ++ x :: zs)) :
    (∀ w ∈ x.inputs, w ∈ seen ∪ outs ys) ∧ x.out ∉ seen ∪ outs ys ∧
      ∀ g ∈ ys, ∀ w ∈ g.inputs, w ∈ seen ∪ outs ys := by
  induction ys generalizing seen with
  | nil => exact ⟨fun w hw => .inl (h.1 w hw), by simpa using h.2.1, by simp⟩
  | cons y ys ih =>
    obtain ⟨hin, -, hrest⟩ := h
    obtain ⟨h1, h2, h3⟩ := ih hrest
    rw [insert_union_outs] at h1 h2 h3
    refine ⟨h1, h2, fun g hg w hw => ?_⟩
    obtain rfl | hg := List.mem_cons.mp hg
    · exact .inl (hin w hw)
    · exact h3 g hg w hw

/-! ## Walks over a schedule -/

/-- The value `f` gives a gate depends on the gate's inputs only. -/
def LocalTo (f : Gate R → (ℕ → β) → β) : Prop :=
  ∀ g ws ws', (∀ w ∈ g.inputs, ws w = ws' w) → f g ws = f g ws'

theorem runGates_cons (f : Gate R → (ℕ → β) → β) (g : Gate R) (gs : List (Gate R))
    (ws : ℕ → β) :
    runGates f (g :: gs) ws = runGates f gs (Function.update ws g.out (f g ws)) := rfl

theorem runGates_seen {f : Gate R → (ℕ → β) → β} {gs : List (Gate R)} {seen : Set ℕ}
    (h : Sched seen gs) (ws : ℕ → β) {w : ℕ} (hw : w ∈ seen) :
    runGates f gs ws w = ws w := by
  induction gs generalizing seen ws with
  | nil => rfl
  | cons g gs ih =>
    obtain ⟨-, hout, hgs⟩ := h
    have hne : w ≠ g.out := fun e => hout (e ▸ hw)
    rw [runGates_cons, ih hgs _ (Set.mem_insert_of_mem _ hw), Function.update_of_ne hne]

theorem runGates_eq {f : Gate R → (ℕ → β) → β} (hf : LocalTo f) {gs : List (Gate R)}
    {seen : Set ℕ} (h : Sched seen gs) (ws : ℕ → β) :
    ∀ g ∈ gs, runGates f gs ws g.out = f g (runGates f gs ws) := by
  induction gs generalizing seen ws with
  | nil => simp
  | cons g gs ih =>
    obtain ⟨hin, hout, hgs⟩ := h
    intro g' hg'
    obtain rfl | hg' := List.mem_cons.mp hg'
    · rw [runGates_cons, runGates_seen hgs _ (Set.mem_insert _ _), Function.update_self]
      refine hf _ _ _ fun w hw => ?_
      have hne : w ≠ g'.out := fun e => hout (e ▸ hin w hw)
      rw [runGates_seen hgs _ (Set.mem_insert_of_mem _ (hin w hw)), Function.update_of_ne hne]
    · exact ih hgs _ g' hg'

theorem Sched.unique {f : Gate R → (ℕ → β) → β} (hf : LocalTo f) {gs : List (Gate R)}
    {seen : Set ℕ} (h : Sched seen gs) {u v : ℕ → β} (hseen : ∀ w ∈ seen, u w = v w)
    (hu : ∀ g ∈ gs, u g.out = f g u) (hv : ∀ g ∈ gs, v g.out = f g v) :
    ∀ g ∈ gs, u g.out = v g.out := by
  induction gs generalizing seen with
  | nil => simp
  | cons g gs ih =>
    obtain ⟨hin, -, hgs⟩ := h
    have hg : u g.out = v g.out := by
      rw [hu g List.mem_cons_self, hv g List.mem_cons_self]
      exact hf g u v fun w hw => hseen w (hin w hw)
    have hgs' := ih hgs
      (fun w hw => by
        obtain rfl | hw := Set.mem_insert_iff.mp hw
        · exact hg
        · exact hseen w hw)
      (fun g' hg' => hu g' (List.mem_cons_of_mem _ hg'))
      (fun g' hg' => hv g' (List.mem_cons_of_mem _ hg'))
    intro g' hg'
    obtain rfl | hg' := List.mem_cons.mp hg'
    · exact hg
    · exact hgs' g' hg'

/-! ## Creation order -/

theorem sched_of_range (gs : List (Gate R)) (k : ℕ)
    (hout : gs.map Gate.out = List.range' k gs.length) (hv : ∀ g ∈ gs, g.op.Valid g.out) :
    Sched {w | w < k} gs := by
  induction gs generalizing k with
  | nil => trivial
  | cons g gs ih =>
    rw [List.map_cons, List.length_cons, List.range'_succ, List.cons.injEq] at hout
    obtain ⟨hg, hgs⟩ := hout
    refine ⟨fun w hw => hg ▸ (hv g List.mem_cons_self).1 w hw, by simp [hg], ?_⟩
    have hset : insert g.out {w | w < k} = {w | w < k + 1} := by
      ext w
      simp [hg]
      omega
    rw [hset]
    exact ih (k + 1) hgs fun g' hg' => hv g' (List.mem_cons_of_mem _ hg')

theorem Circuit.sched (c : Circuit R) : Sched ∅ c.gates_ := by
  have h := sched_of_range c.gates_ 0 (by rw [c.out_eq, List.range_eq_range']) c.valid
  simpa using h

theorem Circuit.mem_outs_iff (c : Circuit R) (w : ℕ) : w ∈ outs c.gates_ ↔ w < c.size := by
  have h : w ∈ c.gates_.map Gate.out ↔ w < c.gates_.length := by rw [c.out_eq, List.mem_range]
  simpa [outs, Circuit.size] using h

theorem Circuit.out_injective (c : Circuit R) {g g' : Gate R} (hg : g ∈ c.gates_) (hg' : g' ∈ c.gates_)
    (h : g.out = g'.out) : g = g' :=
  List.inj_on_of_nodup_map (c.out_eq ▸ List.nodup_range) hg hg' h

theorem Circuit.out_lt (c : Circuit R) {g : Gate R} (hg : g ∈ c.gates_) : g.out < c.size :=
  (c.mem_outs_iff _).mp (mem_outs hg)

theorem Circuit.exists_gate (c : Circuit R) {g : Gate R} (hg : g ∈ c.gates_) {w : ℕ}
    (hw : w ∈ g.inputs) : ∃ g' ∈ c.gates_, g'.out = w :=
  (c.mem_outs_iff w).mpr (((c.valid g hg).1 w hw).trans (c.out_lt hg))

/-! ## Levels -/

theorem le_foldl_max (l : List ℕ) (a : ℕ) : a ≤ l.foldl max a ∧ ∀ x ∈ l, x ≤ l.foldl max a := by
  induction l generalizing a with
  | nil => simp
  | cons y l ih =>
    obtain ⟨h1, h2⟩ := ih (max a y)
    refine ⟨(le_max_left a y).trans h1, fun x hx => ?_⟩
    obtain rfl | hx := List.mem_cons.mp hx
    · exact (le_max_right a x).trans h1
    · exact h2 x hx

theorem gateLevel_local : LocalTo (gateLevel : Gate R → (ℕ → ℕ) → ℕ) := by
  intro g ws ws' h
  have hmap : g.inputs.map ws = g.inputs.map ws' := List.map_congr_left h
  simp only [gateLevel, hmap]

theorem gateLevels_eq (c : Circuit R) {g : Gate R} (hg : g ∈ c.gates_) :
    gateLevels c.gates_ g.out = gateLevel g (gateLevels c.gates_) :=
  runGates_eq gateLevel_local c.sched _ g hg

theorem level_input_le (c : Circuit R) {g : Gate R} (hg : g ∈ c.gates_) {w : ℕ}
    (hw : w ∈ g.inputs) : gateLevels c.gates_ w ≤ gateLevels c.gates_ g.out := by
  have h := (le_foldl_max (g.inputs.map (gateLevels c.gates_)) 0).2 _ (List.mem_map_of_mem hw)
  rw [gateLevels_eq c hg, gateLevel]
  split
  · exact Nat.le_succ_of_le h
  · exact h

theorem level_input_lt (c : Circuit R) {g : Gate R} (hg : g ∈ c.gates_)
    (hi : g.type.interactive) {w : ℕ} (hw : w ∈ g.inputs) :
    gateLevels c.gates_ w < gateLevels c.gates_ g.out := by
  have h := (le_foldl_max (g.inputs.map (gateLevels c.gates_)) 0).2 _ (List.mem_map_of_mem hw)
  rw [gateLevels_eq c hg, gateLevel, if_pos hi]
  exact Nat.lt_succ_of_le h

def gatesAt (c : Circuit R) (d : ℕ) : List (Gate R) :=
  c.gates_.filter fun g => gateLevels c.gates_ g.out = d

theorem bucket_eq (lv : ℕ → ℕ) (gs : List (Gate R)) (acc : ℕ → List (Gate R)) (d : ℕ) :
    gs.foldl (fun (acc : ℕ → List (Gate R)) g =>
      Function.update acc (lv g.out) (acc (lv g.out) ++ [g])) acc d =
    acc d ++ gs.filter fun g => lv g.out = d := by
  induction gs generalizing acc with
  | nil => simp
  | cons g gs ih =>
    rw [List.foldl_cons, ih, List.filter_cons]
    by_cases h : lv g.out = d
    · simp [h]
    · rw [Function.update_of_ne (Ne.symm h)]
      simp [h]

theorem Circuit.gates_by_level_eq (c : Circuit R) :
    c.orderGatesByLevel.gates_by_level =
      (List.range ((c.gates_.map fun g => gateLevels c.gates_ g.out).foldl max 0 + 1)).map
        (gatesAt c) := by
  refine List.map_congr_left fun d _ => ?_
  exact bucket_eq _ _ _ d

theorem Circuit.level_zero (c : Circuit R) :
    c.orderGatesByLevel.gates_by_level.getD 0 [] = gatesAt c 0 := by
  rw [c.gates_by_level_eq, List.range_succ_eq_map]
  rfl

theorem Circuit.input_mem_level_zero (c : Circuit R) {g : Gate R} (hg : g ∈ c.gates_)
    (ht : g.type = .kInp) : g ∈ c.orderGatesByLevel.gates_by_level.getD 0 [] := by
  have hlevel : gateLevels c.gates_ g.out = 0 := by
    rw [gateLevels_eq c hg]
    obtain ⟨op, out⟩ := g
    obtain rfl := Op.eq_kInp ht
    rfl
  rw [c.level_zero]
  exact List.mem_filter.mpr ⟨hg, by simpa using hlevel⟩

theorem Circuit.mem_of_mem_level_zero (c : Circuit R) {g : Gate R}
    (hg : g ∈ c.orderGatesByLevel.gates_by_level.getD 0 []) : g ∈ c.gates_ := by
  rw [c.level_zero] at hg
  exact (List.mem_filter.mp hg).1

theorem Circuit.mem_levels (c : Circuit R) (g : Gate R) :
    g ∈ c.orderGatesByLevel.gates_by_level.flatten ↔ g ∈ c.gates_ := by
  rw [c.gates_by_level_eq]
  simp only [List.mem_flatten, List.mem_map, List.mem_range, exists_exists_and_eq_and, gatesAt,
    List.mem_filter, decide_eq_true_eq]
  refine ⟨fun ⟨_, _, h, _⟩ => h, fun h => ⟨_, ?_, h, rfl⟩⟩
  exact Nat.lt_succ_of_le ((le_foldl_max _ 0).2 _ (List.mem_map_of_mem h))

/-- The wires of levels below `d`, and those of level `d` with number below `k`. -/
def wiresBelow (c : Circuit R) (d k : ℕ) : Set ℕ :=
  {w | w < c.size ∧ (gateLevels c.gates_ w < d ∨ gateLevels c.gates_ w = d ∧ w < k)}

theorem sched_level (c : Circuit R) (d : ℕ) (gs : List (Gate R)) (k : ℕ)
    (hsub : ∀ g ∈ gs, g ∈ c.gates_) (hout : gs.map Gate.out = List.range' k gs.length) :
    Sched (wiresBelow c d k) (gs.filter fun g => gateLevels c.gates_ g.out = d) := by
  induction gs generalizing k with
  | nil => trivial
  | cons g gs ih =>
    rw [List.map_cons, List.length_cons, List.range'_succ, List.cons.injEq] at hout
    obtain ⟨hg, hgs⟩ := hout
    have hgc := hsub g List.mem_cons_self
    have hk : k < c.size := hg ▸ c.out_lt hgc
    have ih' := ih (k + 1) (fun g' hg' => hsub g' (List.mem_cons_of_mem _ hg')) hgs
    rw [List.filter_cons]
    by_cases hd : gateLevels c.gates_ g.out = d
    · rw [if_pos (by simpa using hd)]
      refine ⟨fun w hw => ?_, ?_, ?_⟩
      · have hle := level_input_le c hgc hw
        have hlt := (c.valid g hgc).1 w hw
        simp only [wiresBelow, Set.mem_ofPred_eq]
        omega
      · simp only [wiresBelow, Set.mem_ofPred_eq, hg]
        rw [hg] at hd
        omega
      · have hset : insert g.out (wiresBelow c d k) = wiresBelow c d (k + 1) := by
          ext w
          rw [hg] at hd
          simp only [wiresBelow, Set.mem_insert_iff, Set.mem_ofPred_eq, hg]
          by_cases hw : w = k
          · subst hw
            simp [hk, hd]
          · simp only [hw, false_or]
            omega
        rwa [hset]
    · rw [if_neg (by simpa using hd)]
      have hset : wiresBelow c d k = wiresBelow c d (k + 1) := by
        ext w
        rw [hg] at hd
        simp only [wiresBelow, Set.mem_ofPred_eq]
        by_cases hw : w = k
        · subst hw
          simp [hd]
        · omega
      rwa [hset]

theorem wiresBelow_union (c : Circuit R) (d : ℕ) :
    wiresBelow c d 0 ∪ outs (gatesAt c d) = wiresBelow c (d + 1) 0 := by
  ext w
  have hmem : w ∈ outs (gatesAt c d) ↔ w < c.size ∧ gateLevels c.gates_ w = d := by
    rw [← c.mem_outs_iff]
    simp only [outs, gatesAt, Set.mem_ofPred_eq, List.mem_filter, decide_eq_true_eq]
    constructor
    · rintro ⟨g, ⟨hg, hd⟩, rfl⟩
      exact ⟨⟨g, hg, rfl⟩, hd⟩
    · rintro ⟨⟨g, hg, rfl⟩, hd⟩
      exact ⟨g, ⟨hg, hd⟩, rfl⟩
  rw [Set.mem_union, hmem]
  simp only [wiresBelow, Set.mem_ofPred_eq]
  omega

theorem levelSched_from (c : Circuit R) (d n : ℕ) :
    LevelSched (wiresBelow c d 0) ((List.range' d n).map (gatesAt c)) := by
  induction n generalizing d with
  | zero => trivial
  | succ n ih =>
    rw [List.range'_succ, List.map_cons]
    refine ⟨?_, fun g hg hi w hw => ?_, ?_⟩
    · exact sched_level c d c.gates_ 0 (fun _ h => h) (by rw [c.out_eq, List.range_eq_range'])
    · obtain ⟨hgc, hd⟩ := List.mem_filter.mp hg
      have hlt := level_input_lt c hgc hi hw
      have hwc := ((c.valid g hgc).1 w hw).trans (c.out_lt hgc)
      rw [decide_eq_true_eq.mp hd] at hlt
      exact ⟨hwc, .inl hlt⟩
    · rw [wiresBelow_union]
      exact ih (d + 1)

theorem Circuit.levelSched (c : Circuit R) : LevelSched ∅ c.orderGatesByLevel.gates_by_level := by
  have h0 : wiresBelow c 0 0 = ∅ := by
    ext w
    simp [wiresBelow]
  rw [c.gates_by_level_eq, List.range_eq_range', ← h0]
  exact levelSched_from c 0 _

theorem Circuit.outs_levels (c : Circuit R) :
    outs c.orderGatesByLevel.gates_by_level.flatten = outs c.gates_ := by
  ext w
  simp only [outs, Set.mem_ofPred_eq, c.mem_levels]

theorem update_of_outs {β : Type} {ys : List (Gate R)} {x : Gate R} (h : x.out ∉ outs ys)
    (c : ℕ → β) (v : β) : ∀ w ∈ outs ys, Function.update c x.out v w = c w :=
  fun w hw => Function.update_of_ne (fun e : w = x.out => h (e ▸ hw)) _ _

end QSync
