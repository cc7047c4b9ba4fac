import QSync.Utils.BuilderRules
import QSync.Utils.DarkPool

/-! # Vectors in builder programs

Accesses in bounds are steps that leave the circuit alone, so that they drop out of a program one by
one (`read_bind`, `write_bind`); what is left are the gates.
-/

namespace QSync
set_option autoImplicit false
set_option maxHeartbeats 250000
open Circuit

section Vectors
variable {R α β : Type} {v : Vec α} {i j : ℕ} {a : α}

@[simp] theorem Vec.put_size : (v.put i a).size = v.size := rfl

@[simp] theorem Vec.put_slot_self : (v.put i a).slot i = a := Function.update_self _ _ _

theorem Vec.put_slot_of_ne (h : j ≠ i) : (v.put i a).slot j = v.slot j := Function.update_of_ne h _ _

theorem Vec.read_bind (h : i < v.size) (k : α → Build R β) : v.read i >>= k = k (v.slot i) := by
  rw [Vec.read, if_pos h, pure_bind]

theorem Vec.write_eq (h : i < v.size) : (v.write i a : Build R (Vec α)) = pure (v.put i a) :=
  if_pos h

theorem Vec.write_bind (h : i < v.size) (k : Vec α → Build R β) :
    v.write i a >>= k = k (v.put i a) := by
  rw [Vec.write_eq h, pure_bind]

/-- The wire that a variable stands for: the one assigned to it, or wire 0 when nothing checks. -/
def Denotes (checked : Bool) (s : Wire) (w : ℕ) : Prop :=
  s = some w ∨ checked = false ∧ s = none ∧ w = 0

variable {checked : Bool} {w : ℕ}

theorem denotes_some : Denotes checked (some w) w := .inl rfl

theorem denotes_put {v : Vec Wire} : Denotes checked ((v.put i (some w)).slot i) w :=
  .inl Vec.put_slot_self

theorem denotes_unchecked (s : Wire) : Denotes false s (s.getD 0) := by
  cases s with
  | none => exact .inr ⟨rfl, rfl, rfl⟩
  | some w => exact .inl rfl

theorem Denotes.bind {s : Wire} (h : Denotes checked s w) (k : ℕ → Build R β) :
    use checked s >>= k = k w := by
  obtain rfl | ⟨rfl, rfl, rfl⟩ := h
  · exact pure_bind _ _
  · exact pure_bind _ _

theorem wireAt_bind {v : Vec Wire} (hi : i < v.size) (h : Denotes checked (v.slot i) w)
    (k : ℕ → Build R β) : DarkPool.wireAt checked v i >>= k = k w := by
  rw [DarkPool.wireAt, bind_assoc, Vec.read_bind hi, h.bind]

theorem unitAt_bind {v : Vec Order} (hi : i < v.size) (h : Denotes checked (v.slot i).unit w)
    (k : ℕ → Build R β) : DarkPool.unitAt checked v i >>= k = k w := by
  rw [DarkPool.unitAt, bind_assoc, Vec.read_bind hi, h.bind]

/-! ## Accesses that did not throw -/

theorem read_ensures : Ensures (v.read i : Build R α) fun b => i < v.size ∧ b = v.slot i := by
  rw [Vec.read]
  split
  · next h => exact .pure ⟨h, rfl⟩
  · intro c b c' hm
    cases hm

theorem write_ensures : Ensures (v.write i a : Build R (Vec α)) fun v' => i < v.size ∧ v' = v.put i a := by
  rw [Vec.write]
  split
  · next h => exact .pure ⟨h, rfl⟩
  · intro c b c' hm
    cases hm

theorem use_ensures {s : Wire} : Ensures (use true s : Build R ℕ) fun _ => s ≠ none := by
  cases s with
  | none =>
    intro c b c' hm
    cases hm
  | some w => exact .pure (by simp)

theorem wireAt_ensures {v : Vec Wire} :
    Ensures (DarkPool.wireAt true v i : Build R ℕ) fun _ => i < v.size ∧ v.slot i ≠ none := by
  refine read_ensures.bind fun s ⟨hi, hs⟩ => use_ensures.weaken fun _ hne => ⟨hi, hs ▸ hne⟩

end Vectors

namespace DarkPool

/-- The gates of the builders. -/
def darkTypes (t : GateType) : Prop :=
  t = .kInp ∨ t = .kAdd ∨ t = .kSub ∨ t = .kMul ∨ t = .kConstAdd ∨ t = .kConstMul ∨ t = .kLtz ∨ t = .kEqz

theorem darkTypes_evaluable : ∀ t, darkTypes t → t ≠ .kRelu ∧ t ≠ .kTrdotp := by
  rintro t (rfl | rfl | rfl | rfl | rfl | rfl | rfl | rfl) <;> simp

variable {R : Type} [CircuitRing R] {c : Circuit R}

theorem newOrder_builds : Builds darkTypes c newOrder fun order c' =>
    ∃ name unit price, order = ⟨some name, some unit, some price⟩ ∧ name = c.size ∧
      (Has c' name fun f => f name) ∧ unit < c'.size ∧ price < c'.size := by
  refine (newInputWire_builds (.inl rfl)).bind fun name c₁ _ ⟨hname, _, hv⟩ => ?_
  refine (newInputWire_builds (.inl rfl)).bind fun unit c₂ hc₂ ⟨_, _, hunit⟩ => ?_
  refine (newInputWire_builds (.inl rfl)).bind fun price c₃ hc₃ ⟨_, _, hprice⟩ => .pure ?_
  exact ⟨name, unit, price, rfl, hname, hv.mono (hc₂.trans hc₃), (hunit.mono hc₃).lt, hprice.lt⟩

end DarkPool

end QSync
