import QSync.Utils.Plaintext

/-! # Positions in the level order, and evaluation in creation order

Where `orderGatesByLevel` puts a gate (`existsUnique_position`) relative to its inputs
(`input_position`), and that walking the levels computes what walking the gates in the order in which
they were added does (`Circuit.evaluate_inOrder`).
-/

namespace QSync
set_option autoImplicit false
set_option maxHeartbeats 250000

/-! ## Positions -/

section Positions
variable {R : Type} (c : Circuit R)

def LevelOrderedCircuit.gateAt (circ : LevelOrderedCircuit R) (p : ℕ × ℕ) : Option (Gate R) :=
  (circ.gates_by_level.getD p.1 [])[p.2]?

/-- Walk order: by level, then by position in the level. -/
def Before (p q : ℕ × ℕ) : Prop := p.1 < q.1 ∨ p.1 = q.1 ∧ p.2 < q.2

theorem gates_increasing : c.gates_.Pairwise fun g g' => g.out < g'.out := by
  have h : (c.gates_.map Gate.out).Pairwise (· < ·) := c.out_eq ▸ List.pairwise_lt_range
  exact List.pairwise_map.mp h

theorem gatesAt_increasing (d : ℕ) : (gatesAt c d).Pairwise fun g g' => g.out < g'.out :=
  (gates_increasing c).filter _

theorem gateAt_eq_some_iff (p : ℕ × ℕ) (g : Gate R) :
    c.orderGatesByLevel.gateAt p = some g ↔ (gatesAt c p.1)[p.2]? = some g := by
  have hempty : ¬ p.1 < (c.gates_.map fun g => gateLevels c.gates_ g.out).foldl max 0 + 1 →
      gatesAt c p.1 = [] := fun h => by
    refine List.filter_eq_nil_iff.mpr fun g hg hd => h ?_
    rw [← of_decide_eq_true hd]
    exact Nat.lt_succ_of_le ((le_foldl_max _ 0).2 _ (List.mem_map_of_mem hg))
  rw [LevelOrderedCircuit.gateAt, c.gates_by_level_eq]
  by_cases hlt : p.1 < (c.gates_.map fun g => gateLevels c.gates_ g.out).foldl max 0 + 1
  · rw [List.getD_eq_getElem _ _ (by simpa using hlt)]
    simp
  · rw [List.getD_eq_default _ _ (by simpa using hlt), hempty hlt]

theorem gateAt_mem {p : ℕ × ℕ} {g : Gate R} (h : c.orderGatesByLevel.gateAt p = some g) :
    g ∈ c.gates_ ∧ gateLevels c.gates_ g.out = p.1 := by
  have hmem := List.mem_of_getElem? ((gateAt_eq_some_iff c p g).mp h)
  obtain ⟨hg, hd⟩ := List.mem_filter.mp hmem
  exact ⟨hg, of_decide_eq_true hd⟩

theorem existsUnique_position {g : Gate R} (hg : g ∈ c.gates_) :
    ∃! p, c.orderGatesByLevel.gateAt p = some g := by
  have hmem : g ∈ gatesAt c (gateLevels c.gates_ g.out) :=
    List.mem_filter.mpr ⟨hg, decide_eq_true rfl⟩
  obtain ⟨k, hk⟩ := List.mem_iff_getElem?.mp hmem
  refine ⟨(gateLevels c.gates_ g.out, k), (gateAt_eq_some_iff c _ g).mpr hk, fun p hp => ?_⟩
  obtain ⟨d, k'⟩ := p
  obtain rfl : gateLevels c.gates_ g.out = d := (gateAt_mem c hp).2
  have hk' := (gateAt_eq_some_iff c _ g).mp hp
  obtain ⟨hlt, hget⟩ := List.getElem?_eq_some_iff.mp hk
  obtain ⟨hlt', hget'⟩ := List.getElem?_eq_some_iff.mp hk'
  have hpair := List.pairwise_iff_getElem.mp (gatesAt_increasing c (gateLevels c.gates_ g.out))
  refine Prod.ext rfl ?_
  obtain h | h | h := Nat.lt_trichotomy k' k
  · have := hpair k' k hlt' hlt h
    rw [hget, hget'] at this
    exact absurd this (lt_irrefl _)
  · exact h
  · have := hpair k k' hlt hlt' h
    rw [hget, hget'] at this
    exact absurd this (lt_irrefl _)

/-- The gate that sets an input of a gate comes before it, and on a lower level when the gate needs
interaction. -/
theorem input_position {p : ℕ × ℕ} {g : Gate R} (h : c.orderGatesByLevel.gateAt p = some g) {w : ℕ}
    (hw : w ∈ g.inputs) : ∃ q g', c.orderGatesByLevel.gateAt q = some g' ∧ g'.out = w ∧ Before q p ∧
      (g.type.interactive → q.1 < p.1) := by
  obtain ⟨hg, hlevel⟩ := gateAt_mem c h
  have hlt : w < g.out := (c.valid g hg).1 w hw
  obtain ⟨g', hg', rfl⟩ := c.exists_gate hg hw
  obtain ⟨q, hq, -⟩ := existsUnique_position c hg'
  have hlevel' := (gateAt_mem c hq).2
  have hle := level_input_le c hg hw
  rw [hlevel, hlevel'] at hle
  refine ⟨q, g', hq, rfl, ?_, fun hi => ?_⟩
  · obtain hd | hd := Nat.lt_or_eq_of_le hle
    · exact .inl hd
    · refine .inr ⟨hd, ?_⟩
      have hp := (gateAt_eq_some_iff c p g).mp h
      have hq' := (gateAt_eq_some_iff c q g').mp hq
      rw [hd] at hq'
      obtain ⟨hplt, hpget⟩ := List.getElem?_eq_some_iff.mp hp
      obtain ⟨hqlt, hqget⟩ := List.getElem?_eq_some_iff.mp hq'
      have hpair := List.pairwise_iff_getElem.mp (gatesAt_increasing c p.1)
      by_contra hnot
      obtain hk | hk := Nat.lt_or_eq_of_le (Nat.le_of_not_lt hnot)
      · have := hpair p.2 q.2 hplt hqlt hk
        rw [hpget, hqget] at this
        omega
      · have hsame : g = g' := by rw [← hpget, ← hqget]; simp only [hk]
        rw [hsame] at hlt
        exact absurd hlt (lt_irrefl _)
  · have hstrict := level_input_lt c hg hi hw
    rwa [hlevel, hlevel'] at hstrict

end Positions

/-! ## Creation order -/

section InOrder
variable {R : Type} [CircuitRing R]

/-- Plaintext evaluation that takes the gates in the order in which they were added. -/
def Circuit.evaluateInOrder (c : Circuit R) (inputs : InputMap R) : Except String (List R) := do
  let wires ← c.gates_.foldlM (fun wires g => do
    let v ← g.evaluate inputs wires
    pure (Function.update wires g.out v)) fun _ => 0
  pure (c.outputs_.map wires)

/-- The gates that make `evaluate` throw, whatever the wires hold. -/
def Gate.throws (inputs : InputMap R) (g : Gate R) : Bool :=
  match g.op with
  | .kInp => g.out ∉ inputs.keys
  | .kRelu _ => (CircuitRing.relu (R := R)).toOption.isNone
  | .kTrdotp .. => (CircuitRing.truncate (R := R)).toOption.isNone
  | _ => false

omit [CircuitRing R] in
theorem toOption_map_apply [Zero R] (op : Except String (R → R)) (x : R) :
    (op.map fun f => f x).toOption =
      if op.toOption.isNone then none else some ((op.toOption.getD fun _ => 0) x) := by
  cases op <;> rfl

theorem Gate.evaluate_toOption (inputs : InputMap R) (g : Gate R) (wires : ℕ → R) :
    (g.evaluate inputs wires).toOption =
      if g.throws inputs then none else some (g.value inputs.val wires) := by
  obtain ⟨op, out⟩ := g
  cases op with
  | kInp =>
    by_cases h : out ∈ inputs.keys <;>
      simp [Gate.evaluate, Gate.throws, Gate.value, InputMap.at, h, Except.toOption]
  | kRelu a => exact toOption_map_apply _ _
  | kTrdotp xs ys => exact toOption_map_apply _ _
  | _ => rfl

theorem toOption_bind {ε α β : Type} (x : Except ε α) (f : α → Except ε β) :
    (x >>= f).toOption = x.toOption.bind fun a => (f a).toOption := by
  cases x <;> rfl

/-- A walk over gates throws when one of them does, and else gives each its value. -/
theorem foldlM_evaluate_toOption (inputs : InputMap R) (gs : List (Gate R)) (wires : ℕ → R) :
    (gs.foldlM (fun wires g => do
        let v ← g.evaluate inputs wires
        pure (Function.update wires g.out v)) wires : Except String (ℕ → R)).toOption =
      if gs.any (Gate.throws inputs) then none
      else some (runGates (Gate.value inputs.val) gs wires) := by
  induction gs generalizing wires with
  | nil => rfl
  | cons g gs ih =>
    rw [List.foldlM_cons, toOption_bind, toOption_bind, Gate.evaluate_toOption, List.any_cons]
    cases hg : g.throws inputs with
    | true => rfl
    | false => exact ih _

theorem Circuit.evaluate_inOrder (c : Circuit R) {inputs : InputMap R}
    (hkeys : inputs.keys = c.inputWires) :
    (c.evaluate inputs).toOption = (c.evaluateInOrder inputs).toOption := by
  have hcard : inputs.keys.card = c.orderGatesByLevel.count .kInp := by
    rw [hkeys, c.card_inputWires]
  have hany : c.orderGatesByLevel.gates_by_level.flatten.any (Gate.throws inputs) =
      c.gates_.any (Gate.throws inputs) := by
    rw [Bool.eq_iff_iff, List.any_eq_true, List.any_eq_true]
    exact exists_congr fun g => and_congr_left fun _ => c.mem_levels g
  rw [Circuit.evaluate, Circuit.evaluateInOrder, Circuit.evaluateWires, if_neg (not_not.mpr hcard),
    foldlM_flatten, toOption_bind, toOption_bind, foldlM_evaluate_toOption,
    foldlM_evaluate_toOption, hany]
  cases c.gates_.any (Gate.throws inputs) with
  | true => rfl
  | false =>
    refine congrArg some (List.map_congr_left fun w hw => ?_)
    exact c.value_unique inputs.val (fun g hg => runGates_eq (Gate.value_local inputs.val)
      c.levelSched.sched _ g ((c.mem_levels g).mpr hg)) (c.outputs_valid w hw)

/-- The level order of a circuit is a schedule: each gate has one position, after all its inputs and
above those of a gate that needs interaction; the counters are right; and walking it evaluates the
circuit as walking the gates in creation order does. -/
theorem Circuit.levels_schedule (c : Circuit R) :
    (∀ g ∈ c.gates_, ∃! p, c.orderGatesByLevel.gateAt p = some g) ∧
    (∀ p g, c.orderGatesByLevel.gateAt p = some g → g ∈ c.gates_ ∧ ∀ w ∈ g.inputs, ∃ q g',
      c.orderGatesByLevel.gateAt q = some g' ∧ g'.out = w ∧ Before q p ∧
        (g.type.interactive → q.1 < p.1)) ∧
    (c.orderGatesByLevel.num_gates = c.gates_.length ∧
      ∀ t, c.orderGatesByLevel.count t = c.gates_.countP fun g => g.type = t) ∧
    ∀ inputs : InputMap R, inputs.keys = c.inputWires →
      (c.evaluate inputs).toOption = (c.evaluateInOrder inputs).toOption := by
  refine ⟨fun g hg => existsUnique_position c hg, fun p g h =>
    ⟨(gateAt_mem c h).1, fun w hw => input_position c h hw⟩, ⟨rfl, fun t => ?_⟩,
    fun inputs hkeys => c.evaluate_inOrder hkeys⟩
  change (c.gates_.map Gate.type).count t = _
  rw [List.count_eq_countP, List.countP_map]
  exact List.countP_congr fun g _ => by simp

end InOrder

end QSync
