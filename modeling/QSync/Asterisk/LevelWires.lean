import QSync.Asterisk.GateShares

/-! # The masked values of a level

In `evaluateGatesAtDepthPartyRecv` a party walks over a level and sets the masked value of each output
wire: computed for a linear gate, from what has been opened for the others. `levelWires` is that walk
for one circuit and one ring, given the opened values; `levelWires_eq` says that it sets the masked
values `T` when these satisfy the linear gates' equations and are what is opened.
-/

namespace QSync
set_option autoImplicit false
set_option maxHeartbeats 250000

section Linear
variable {R : Type} [CommRing R]

def linearGate (wires : ℕ → R) : Op R → Option R
  | .kAdd in1 in2 => some (wires in1 + wires in2)
  | .kSub in1 in2 => some (wires in1 - wires in2)
  | .kConstAdd in1 cval => some (wires in1 + cval)
  | .kConstMul in1 cval => some (wires in1 * cval)
  | _ => none

theorem linearGate_congr {ws ws' : ℕ → R} {op : Op R} (h : ∀ w ∈ op.inputs, ws w = ws' w) :
    linearGate ws op = linearGate ws' op := by
  cases op <;> simp_all [linearGate, Op.inputs]

theorem linearGate_of_mult {ws : ℕ → R} {op : Op R} (h : op.type ∈ multTypes) :
    linearGate ws op = none := by
  cases op <;> first | rfl | simp [multTypes, Op.type] at h

theorem mult_of_linearGate {ws : ℕ → R} {op : Op R} (h : linearGate ws op = none)
    (ht : op.type.arithmetic) : op.type ∈ multTypes := by
  cases op <;> first
    | exact of_decide_eq_true rfl
    | exact absurd ht Bool.false_ne_true
    | exact absurd h (Option.some_ne_none _)

/-- The masks of a linear gate are such that the masked values satisfy its equation. -/
theorem linearGate_masked {X : Type} {R : Type} [CircuitRing R] (f V δ : ℕ → R) {g : Gate R}
    {pregate : PreprocGate R X} {ws : ℕ → R} {v : R} (hv : linearGate ws g.op = some v)
    (hopens : Opens δ g.op pregate) :
    linearGate (fun w => V w + δ w) g.op = some (g.value f V + pregate.secret) := by
  obtain ⟨op, out⟩ := g
  cases op with
  | kAdd a b =>
    rw [show pregate.secret = δ a + δ b from hopens]
    simp only [linearGate, Gate.value, Option.some.injEq]
    ring
  | kSub a b =>
    rw [show pregate.secret = δ a - δ b from hopens]
    simp only [linearGate, Gate.value, Option.some.injEq]
    ring
  | kConstAdd a c =>
    rw [show pregate.secret = δ a from hopens]
    simp only [linearGate, Gate.value, Option.some.injEq]
    ring
  | kConstMul a c =>
    rw [show pregate.secret = δ a * c from hopens]
    simp only [linearGate, Gate.value, Option.some.injEq]
    ring
  | _ => cases hv

def assignWire (ws : ℕ → R) (out : ℕ) : Option R → ℕ → R
  | some v => Function.update ws out v
  | none => ws

/-- Set the wire of a gate: as a linear gate, or to the value given for it, if there is one. -/
def setWire (opened : Gate R → Option R) (ws : ℕ → R) (g : Gate R) : ℕ → R :=
  assignWire ws g.out ((linearGate ws g.op).or (opened g))

def levelWires (opened : Gate R → Option R) (level : List (Gate R)) (ws : ℕ → R) : ℕ → R :=
  level.foldl (setWire opened) ws

theorem setWire_of_ne (opened : Gate R → Option R) (ws : ℕ → R) {g : Gate R} {w : ℕ}
    (h : w ≠ g.out) : setWire opened ws g w = ws w := by
  unfold setWire
  cases (linearGate ws g.op).or (opened g) with
  | some v => exact Function.update_of_ne h _ _
  | none => rfl

theorem levelWires_of_notMem (opened : Gate R → Option R) (level : List (Gate R)) (ws : ℕ → R)
    {w : ℕ} (h : w ∉ outs level) : levelWires opened level ws w = ws w := by
  induction level generalizing ws with
  | nil => rfl
  | cons g gs ih =>
    rw [outs_cons, Set.mem_insert_iff, not_or] at h
    exact (ih (setWire opened ws g) h.2).trans (setWire_of_ne opened ws h.1)

theorem levelWires_eq {opened : Gate R → Option R} {level : List (Gate R)} {seen : Set ℕ}
    (hs : Sched seen level) {ws T : ℕ → R} (hseen : ∀ w ∈ seen, ws w = T w)
    (hlin : ∀ g ∈ level, ∀ v, linearGate T g.op = some v → T g.out = v)
    (hopened : ∀ g ∈ level, linearGate T g.op = none →
      opened g = some (T g.out) ∨ opened g = none ∧ ws g.out = T g.out) :
    ∀ w ∈ seen ∪ outs level, levelWires opened level ws w = T w := by
  induction level generalizing seen ws with
  | nil =>
    rw [outs_nil, Set.union_empty]
    exact hseen
  | cons g gs ih =>
    obtain ⟨hin, hout, hgs⟩ := hs
    have hg : setWire opened ws g g.out = T g.out := by
      have hlocal := linearGate_congr fun w hw => hseen w (hin w hw)
      unfold setWire
      rw [hlocal]
      cases hv : linearGate T g.op with
      | some v =>
        rw [hlin g List.mem_cons_self v hv]
        exact Function.update_self _ _ _
      | none =>
        obtain h | ⟨h, hw⟩ := hopened g List.mem_cons_self hv
        · rw [h]
          exact Function.update_self _ _ _
        · rw [h]
          exact hw
    have hkeep : ∀ w ≠ g.out, setWire opened ws g w = ws w := fun w hw =>
      setWire_of_ne opened ws hw
    have hrest : ∀ w ∈ insert g.out seen ∪ outs gs,
        levelWires opened gs (setWire opened ws g) w = T w := ih hgs (fun w hw => ?_)
      (fun g' hg' => hlin g' (List.mem_cons_of_mem _ hg')) fun g' hg' hn => ?_
    · rwa [insert_union_outs] at hrest
    · obtain rfl | hw := Set.mem_insert_iff.mp hw
      · exact hg
      · have hne : w ≠ g.out := fun e => hout (e ▸ hw)
        rw [hkeep w hne, hseen w hw]
    · have hne : g'.out ≠ g.out := fun e =>
        hgs.out_notMem g' hg' (e ▸ Set.mem_insert _ _)
      rw [hkeep _ hne]
      exact hopened g' (List.mem_cons_of_mem _ hg') hn

/-- The same with wires `inp` that hold their values from the start, wherever their gates are. -/
theorem levelWires_eq_union {opened : Gate R → Option R} {level : List (Gate R)} {seen inp : Set ℕ}
    (hs : Sched seen level) {ws T : ℕ → R} (hws : ∀ w ∈ seen ∪ inp, ws w = T w)
    (hlin : ∀ g ∈ level, ∀ v, linearGate T g.op = some v → T g.out = v)
    (hopened : ∀ g ∈ level, linearGate T g.op = none →
      opened g = some (T g.out) ∨ opened g = none ∧ g.out ∈ inp) :
    ∀ w ∈ seen ∪ outs level ∪ inp, levelWires opened level ws w = T w := by
  have hset : ∀ w ∈ seen ∪ outs level, levelWires opened level ws w = T w :=
    levelWires_eq hs (fun w hw => hws w (.inl hw)) hlin fun g hg hn =>
      (hopened g hg hn).imp_right fun ⟨hnone, hin⟩ => ⟨hnone, hws _ (.inr hin)⟩
  intro w hw
  by_cases hmem : w ∈ seen ∪ outs level
  · exact hset w hmem
  · rw [levelWires_of_notMem _ _ _ fun h => hmem (.inr h)]
    exact hws w (.inr (hw.resolve_left hmem))

def multOpened (opened : Gate R → R) (g : Gate R) : Option R :=
  if g.type ∈ multTypes then some (opened g) else none

end Linear

end QSync
