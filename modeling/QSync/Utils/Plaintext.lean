import QSync.Utils.LevelOrder

/-! # Plaintext evaluation as a valuation

`Circuit.value c f` gives every wire of `c` its value when the input wires hold `f`. It is the
solution of the gates' equations (`Circuit.value_eq`), and what `Circuit::evaluate` returns when it
is given exactly the input wires (`Circuit.evaluate_eq`).
-/

namespace QSync
set_option autoImplicit false
set_option maxHeartbeats 250000

section Value
variable {R : Type} [CircuitRing R]

/-- The value of one gate, zero where the ring has no such gate. -/
def Gate.value (f : ℕ → R) (g : Gate R) (wires : ℕ → R) : R :=
  match g.op with
  | .kInp => f g.out
  | .kMul a b => wires a * wires b
  | .kMul3 a b c => wires a * wires b * wires c
  | .kMul4 a b c d => wires a * wires b * wires c * wires d
  | .kAdd a b => wires a + wires b
  | .kSub a b => wires a - wires b
  | .kConstAdd a cval => wires a + cval
  | .kConstMul a cval => wires a * cval
  | .kEqz a => if CircuitRing.isZero (wires a) then 1 else 0
  | .kLtz a => CircuitRing.msb (wires a)
  | .kRelu a => (CircuitRing.relu.toOption.getD fun _ => 0) (wires a)
  | .kMsb a => CircuitRing.msb (wires a)
  | .kDotprod xs ys => dotProduct xs ys wires
  | .kTrdotp xs ys => (CircuitRing.truncate.toOption.getD fun _ => 0) (dotProduct xs ys wires)

theorem Gate.value_of_kInp {f wires : ℕ → R} {g : Gate R} (ht : g.type = .kInp) :
    g.value f wires = f g.out := by
  rw [Gate.value, Op.eq_kInp ht]

theorem dotProduct_congr {R : Type} [CommRing R] {xs ys : List ℕ} {ws ws' : ℕ → R}
    (h : ∀ w ∈ xs ++ ys, ws w = ws' w) : dotProduct xs ys ws = dotProduct xs ys ws' := by
  refine congrArg List.sum (List.map_congr_left fun ab hab => ?_)
  have hmem := List.of_mem_zip hab
  rw [h _ (List.mem_append_left _ hmem.1), h _ (List.mem_append_right _ hmem.2)]

theorem Gate.value_local (f : ℕ → R) : LocalTo (Gate.value f) := by
  rintro ⟨op, out⟩ ws ws' h
  cases op with
  | kDotprod xs ys => exact dotProduct_congr h
  | kTrdotp xs ys =>
    have hd : dotProduct xs ys ws = dotProduct xs ys ws' := dotProduct_congr h
    simp only [Gate.value, hd]
  | _ => simp_all [Gate.value, Gate.inputs, Op.inputs]

def Circuit.value (c : Circuit R) (f : ℕ → R) : ℕ → R :=
  runGates (Gate.value f) c.gates_ fun _ => 0

theorem Circuit.value_eq (c : Circuit R) (f : ℕ → R) {g : Gate R} (hg : g ∈ c.gates_) :
    c.value f g.out = g.value f (c.value f) :=
  runGates_eq (Gate.value_local f) c.sched _ g hg

theorem Circuit.value_unique (c : Circuit R) (f : ℕ → R) {v : ℕ → R}
    (hv : ∀ g ∈ c.gates_, v g.out = g.value f v) {w : ℕ} (hw : w < c.size) :
    v w = c.value f w := by
  obtain ⟨g, hg, rfl⟩ := (c.mem_outs_iff w).mpr hw
  exact c.sched.unique (Gate.value_local f) (by simp) hv (fun g hg => c.value_eq f hg) g hg

/-! ## What `evaluate` returns -/

theorem Gate.evaluate_eq {inputs : InputMap R} {g : Gate R} {f wires : ℕ → R}
    (hin : g.type = .kInp → inputs.at g.out = .ok (f g.out))
    (ht : g.type ≠ .kRelu ∧ g.type ≠ .kTrdotp) :
    g.evaluate inputs wires = .ok (g.value f wires) := by
  obtain ⟨op, out⟩ := g
  cases op with
  | kInp => exact hin rfl
  | kRelu => exact absurd rfl ht.1
  | kTrdotp => exact absurd rfl ht.2
  | _ => rfl

theorem foldlM_evaluate {inputs : InputMap R} {f : ℕ → R} (gs : List (Gate R)) (wires : ℕ → R)
    (h : ∀ g ∈ gs, ∀ wires, g.evaluate inputs wires = .ok (g.value f wires)) :
    gs.foldlM (fun wires g => do
      let v ← g.evaluate inputs wires
      pure (Function.update wires g.out v)) wires =
      (Except.ok (runGates (Gate.value f) gs wires) : Except String (ℕ → R)) := by
  induction gs generalizing wires with
  | nil => rfl
  | cons g gs ih =>
    rw [List.foldlM_cons, h g List.mem_cons_self]
    exact ih _ fun g' hg' => h g' (List.mem_cons_of_mem _ hg')

omit [CircuitRing R] in
theorem Circuit.card_inputWires (c : Circuit R) :
    c.inputWires.card = c.orderGatesByLevel.count .kInp := by
  have hnd : (c.gates_.map Gate.out).Nodup := c.out_eq ▸ List.nodup_range
  have hsub : ((c.gates_.filter fun g => g.type = .kInp).map Gate.out).Nodup :=
    hnd.sublist (List.filter_sublist.map _)
  rw [Circuit.inputWires, List.toFinset_card_of_nodup hsub, List.length_map]
  change _ = (c.gates_.map Gate.type).count .kInp
  rw [List.count_eq_countP, List.countP_map, List.countP_eq_length_filter]
  rfl

omit [CircuitRing R] in
theorem Circuit.mem_inputWires (c : Circuit R) {g : Gate R} (hg : g ∈ c.gates_)
    (ht : g.type = .kInp) : g.out ∈ c.inputWires := by
  simp only [Circuit.inputWires, List.mem_toFinset, List.mem_map, List.mem_filter,
    decide_eq_true_eq]
  exact ⟨g, ⟨hg, ht⟩, rfl⟩

theorem foldlM_flatten {m : Type → Type} [Monad m] [LawfulMonad m] {α β : Type}
    (f : β → α → m β) (ls : List (List α)) (b : β) :
    ls.foldlM (fun b l => l.foldlM f b) b = ls.flatten.foldlM f b := by
  induction ls generalizing b with
  | nil => rfl
  | cons l ls ih =>
    rw [List.foldlM_cons, List.flatten_cons, List.foldlM_append]
    exact bind_congr fun b => ih b

omit [CircuitRing R] in
theorem Circuit.assign_at (c : Circuit R) (f : ℕ → R) {g : Gate R} (hg : g ∈ c.gates_)
    (ht : g.type = .kInp) : (c.assign f).at g.out = .ok (f g.out) :=
  if_pos (c.mem_inputWires hg ht)

/-- The wires after evaluation, when no gate throws. -/
theorem Circuit.evaluateWires_of (c : Circuit R) (f : ℕ → R)
    (h : ∀ g ∈ c.gates_, ∀ wires, g.evaluate (c.assign f) wires = .ok (g.value f wires)) :
    ∃ wires, c.evaluateWires (c.assign f) = .ok wires ∧ ∀ w < c.size, wires w = c.value f w := by
  have hcard : (c.assign f).keys.card = c.orderGatesByLevel.count .kInp := c.card_inputWires
  refine ⟨runGates (Gate.value f) c.orderGatesByLevel.gates_by_level.flatten fun _ => 0, ?_,
    fun w hw => ?_⟩
  · rw [Circuit.evaluateWires, if_neg (not_not.mpr hcard), foldlM_flatten]
    exact foldlM_evaluate _ _ fun g hg => h g ((c.mem_levels g).mp hg)
  · refine c.value_unique f (fun g hg => ?_) hw
    exact runGates_eq (Gate.value_local f) c.levelSched.sched _ g ((c.mem_levels g).mpr hg)

theorem Circuit.evaluateWires_eq (c : Circuit R) (f : ℕ → R)
    (ht : ∀ g ∈ c.gates_, g.type ≠ .kRelu ∧ g.type ≠ .kTrdotp) :
    ∃ wires, c.evaluateWires (c.assign f) = .ok wires ∧ ∀ w < c.size, wires w = c.value f w :=
  c.evaluateWires_of f fun g hg _ => Gate.evaluate_eq (c.assign_at f hg) (ht g hg)

theorem Circuit.evaluate_eq (c : Circuit R) (f : ℕ → R)
    (ht : ∀ g ∈ c.gates_, g.type ≠ .kRelu ∧ g.type ≠ .kTrdotp) :
    c.evaluate (c.assign f) = .ok (c.outputs_.map (c.value f)) := by
  obtain ⟨wires, hwires, hval⟩ := c.evaluateWires_eq f ht
  rw [Circuit.evaluate, hwires]
  exact congrArg Except.ok (List.map_congr_left fun w hw => hval w (c.outputs_valid w hw))

end Value

/-- Over a field every gate has a value. -/
theorem Circuit.evaluateWires_field {M : Modulus} (c : Circuit (Field M)) (f : ℕ → Field M) :
    ∃ wires, c.evaluateWires (c.assign f) = .ok wires ∧ ∀ w < c.size, wires w = c.value f w := by
  apply c.evaluateWires_of f
  intro g hg wires
  by_cases ht : g.type ≠ .kRelu ∧ g.type ≠ .kTrdotp
  · exact Gate.evaluate_eq (c.assign_at f hg) ht
  · obtain ⟨op, out⟩ := g
    cases op with
    | kRelu | kTrdotp => rfl
    | _ => exact absurd ⟨nofun, nofun⟩ ht

end QSync
