import Mathlib.Data.Set.Insert
import Mathlib.Data.Finset.Image
import QSync.Utils.Types

/-! # Circuits

Gates, the circuit builder, the ordering by multiplicative level and plaintext evaluation
(`utils/circuit.h`). A `Circuit` carries what its builder checks: gate `i` has output wire `i`, the
inputs of a gate are wires that existed when it was added, and the outputs are wires. Wire ids (`wire_t`) are numbers.
-/

namespace QSync
set_option autoImplicit false
set_option maxHeartbeats 250000

/-- The gate types a circuit can hold. -/
inductive GateType where
  | kInp | kAdd | kMul | kMul3 | kMul4 | kSub | kConstAdd | kConstMul | kRelu | kMsb | kEqz | kLtz
  | kDotprod | kTrdotp
  deriving DecidableEq, Repr

/-- What a gate computes, with its input wires: `FIn1Gate` to `FIn4Gate`, `ConstOpGate` and
`SIMDGate` by type. -/
inductive Op (R : Type) where
  | kInp
  | kAdd (in1 in2 : ℕ)
  | kSub (in1 in2 : ℕ)
  | kMul (in1 in2 : ℕ)
  | kMul3 (in1 in2 in3 : ℕ)
  | kMul4 (in1 in2 in3 in4 : ℕ)
  | kConstAdd (in1 : ℕ) (cval : R)
  | kConstMul (in1 : ℕ) (cval : R)
  | kRelu (in1 : ℕ)
  | kMsb (in1 : ℕ)
  | kEqz (in1 : ℕ)
  | kLtz (in1 : ℕ)
  | kDotprod (in1 in2 : List ℕ)
  | kTrdotp (in1 in2 : List ℕ)

namespace Op
variable {R : Type}

def type : Op R → GateType
  | kInp => .kInp
  | kAdd .. => .kAdd
  | kSub .. => .kSub
  | kMul .. => .kMul
  | kMul3 .. => .kMul3
  | kMul4 .. => .kMul4
  | kConstAdd .. => .kConstAdd
  | kConstMul .. => .kConstMul
  | kRelu .. => .kRelu
  | kMsb .. => .kMsb
  | kEqz .. => .kEqz
  | kLtz .. => .kLtz
  | kDotprod .. => .kDotprod
  | kTrdotp .. => .kTrdotp

theorem eq_kInp {op : Op R} (h : op.type = .kInp) : op = .kInp := by
  cases op <;> first | rfl | cases h

def inputs : Op R → List ℕ
  | kInp => []
  | kAdd a b | kSub a b | kMul a b => [a, b]
  | kMul3 a b c => [a, b, c]
  | kMul4 a b c d => [a, b, c, d]
  | kConstAdd a _ | kConstMul a _ | kRelu a | kMsb a | kEqz a | kLtz a => [a]
  | kDotprod xs ys | kTrdotp xs ys => xs ++ ys

/-- The builder's checks on the wires of a new gate of a circuit with `n` gates. -/
def Valid (n : ℕ) (op : Op R) : Prop :=
  (∀ w ∈ op.inputs, w < n) ∧
    match op with
    | kDotprod xs ys | kTrdotp xs ys => xs.length = ys.length
    | _ => True

instance (n : ℕ) (op : Op R) : Decidable (op.Valid n) := by
  unfold Valid
  cases op <;> infer_instance

end Op

/-- The gate types that raise the multiplicative level. -/
def GateType.interactive : GateType → Bool
  | .kMul | .kMul3 | .kMul4 | .kEqz | .kLtz | .kRelu | .kMsb | .kDotprod | .kTrdotp => true
  | .kInp | .kAdd | .kSub | .kConstAdd | .kConstMul => false

structure Gate (R : Type) where
  op : Op R
  out : ℕ

abbrev Gate.type {R : Type} (g : Gate R) : GateType := g.op.type

abbrev Gate.inputs {R : Type} (g : Gate R) : List ℕ := g.op.inputs

/-! ## The builder -/

/-- A circuit under construction or complete. -/
structure Circuit (R : Type) where
  outputs_ : List ℕ
  gates_ : List (Gate R)
  out_eq : gates_.map Gate.out = List.range gates_.length
  valid : ∀ g ∈ gates_, g.op.Valid g.out
  outputs_valid : ∀ w ∈ outputs_, w < gates_.length

namespace Circuit
variable {R : Type}

def empty : Circuit R where
  outputs_ := []
  gates_ := []
  out_eq := rfl
  valid := by simp
  outputs_valid := by simp

instance : Inhabited (Circuit R) := ⟨empty⟩

/-- The number of gates, which is the id of the next wire. -/
def size (c : Circuit R) : ℕ := c.gates_.length

/-- Append a gate whose wires have been checked. -/
def push (c : Circuit R) (op : Op R) (h : op.Valid c.size) : Circuit R where
  outputs_ := c.outputs_
  gates_ := c.gates_ ++ [⟨op, c.size⟩]
  out_eq := by simp [c.out_eq, List.range_succ, size]
  valid := by
    intro g hg
    obtain hg | hg := List.mem_append.mp hg
    · exact c.valid g hg
    · rw [List.mem_singleton.mp hg]
      exact h
  outputs_valid := fun w hw => by
    rw [List.length_append]
    exact Nat.lt_add_right _ (c.outputs_valid w hw)

/-- The builder's methods return a wire and the circuit, or throw. -/
abbrev Build (R : Type) := StateT (Circuit R) (Except String)

/-- Check the wires and append. -/
def addOp (op : Op R) : Build R ℕ := fun c =>
  if h : op.Valid c.size then .ok (c.size, c.push op h) else .error "Invalid wire ID."

def newInputWire : Build R ℕ := addOp .kInp

def setAsOutput (wid : ℕ) : Build R Unit := fun c =>
  if h : wid < c.size then
    .ok ((), { c with
      outputs_ := c.outputs_ ++ [wid]
      outputs_valid := fun w hw => by
        obtain hw | hw := List.mem_append.mp hw
        · exact c.outputs_valid w hw
        · rw [List.mem_singleton.mp hw]
          exact h })
  else .error "Invalid wire ID."

/-- `addGate` with fan-in 1. -/
def addGate1 (type : GateType) (input : ℕ) : Build R ℕ :=
  match type with
  | .kRelu => addOp (.kRelu input)
  | .kMsb => addOp (.kMsb input)
  | .kEqz => addOp (.kEqz input)
  | .kLtz => addOp (.kLtz input)
  | _ => throw "Invalid gate type."

/-- `addGate` with fan-in 2. -/
def addGate2 (type : GateType) (input1 input2 : ℕ) : Build R ℕ :=
  match type with
  | .kAdd => addOp (.kAdd input1 input2)
  | .kMul => addOp (.kMul input1 input2)
  | .kSub => addOp (.kSub input1 input2)
  | _ => throw "Invalid gate type."

/-- `addGate` with fan-in 3. -/
def addGate3 (type : GateType) (input1 input2 input3 : ℕ) : Build R ℕ :=
  match type with
  | .kMul3 => addOp (.kMul3 input1 input2 input3)
  | _ => throw "Invalid gate type."

/-- `addGate` with fan-in 4. -/
def addGate4 (type : GateType) (input1 input2 input3 input4 : ℕ) : Build R ℕ :=
  match type with
  | .kMul4 => addOp (.kMul4 input1 input2 input3 input4)
  | _ => throw "Invalid gate type."

def addConstOpGate (type : GateType) (wid : ℕ) (cval : R) : Build R ℕ :=
  match type with
  | .kConstAdd => addOp (.kConstAdd wid cval)
  | .kConstMul => addOp (.kConstMul wid cval)
  | _ => throw "Invalid gate type."

/-- `addGate` with multiple fan-in; the lengths are checked before the wires. -/
def addGateSIMD (type : GateType) (input1 input2 : List ℕ) : Build R ℕ :=
  match type with
  | .kDotprod =>
    if input1.length ≠ input2.length then throw "Expected same length inputs."
    else addOp (.kDotprod input1 input2)
  | .kTrdotp =>
    if input1.length ≠ input2.length then throw "Expected same length inputs."
    else addOp (.kTrdotp input1 input2)
  | _ => throw "Invalid gate type."

/-- The circuit a builder program returns, started on an empty one. -/
def built {α : Type} (m : Build R α) : Circuit R :=
  match m.run empty with
  | .ok (_, c) => c
  | .error _ => empty

end Circuit

/-! ## Level order -/

structure LevelOrderedCircuit (R : Type) where
  num_gates : ℕ
  count : GateType → ℕ
  outputs : List ℕ
  gates_by_level : List (List (Gate R))

section Folds
variable {R β : Type}

/-- Walk over gates, giving each output wire a value computed from the values so far. -/
def runGates (f : Gate R → (ℕ → β) → β) (gs : List (Gate R)) (ws : ℕ → β) : ℕ → β :=
  gs.foldl (fun ws g => Function.update ws g.out (f g ws)) ws

/-- The level of a gate, from the levels of its inputs: the largest of them, and one more for a gate
that needs interaction. -/
def gateLevel (g : Gate R) (gate_level : ℕ → ℕ) : ℕ :=
  let gate_depth := (g.inputs.map gate_level).foldl max 0
  if g.type.interactive then gate_depth + 1 else gate_depth

/-- `gate_level`: from output wire to multiplicative level. -/
def gateLevels (gates : List (Gate R)) : ℕ → ℕ := runGates gateLevel gates fun _ => 0

def Circuit.orderGatesByLevel (c : Circuit R) : LevelOrderedCircuit R :=
  let gate_level := gateLevels c.gates_
  let depth := (c.gates_.map fun g => gate_level g.out).foldl max 0
  let gates_by_level := c.gates_.foldl (fun (acc : ℕ → List (Gate R)) g =>
    Function.update acc (gate_level g.out) (acc (gate_level g.out) ++ [g])) fun _ => []
  { num_gates := c.gates_.length
    count := fun t => (c.gates_.map Gate.type).count t
    outputs := c.outputs_
    gates_by_level := (List.range (depth + 1)).map gates_by_level }

end Folds

/-! ## Plaintext evaluation -/

/-- What evaluation needs of the ring: the ring operations, the test for zero, the value `kLtz` and
`kMsb` give, and the two gates that throw over `BoolRing`. -/
class CircuitRing (R : Type) extends CommRing R where
  isZero : R → Bool
  msb : R → R
  relu : Except String (R → R)
  truncate : Except String (R → R)

/-- `FRACTION`, in bits. -/
def FRACTION : ℕ := 16

instance (M : Modulus) : CircuitRing (Field M) where
  isZero x := decide (x = 0)
  msb x := if (bitDecomposeTwo x).getD 63 0 then 1 else 0
  relu := .ok fun x => if (bitDecomposeTwo x).getD 63 0 then 0 else x
  truncate := .ok fun x => ((x.val % 2 ^ 64) >>> FRACTION : ℕ)

instance : CircuitRing BoolRing where
  isZero x := !x
  msb x := x
  relu := .error "ReLU gates are invalid for BoolRing."
  truncate := .error "Truncation gates are invalid for BoolRing."

theorem field_msb {M : Modulus} (x : Field M) :
    CircuitRing.msb x = if 2 ^ 63 ≤ x.val then 1 else 0 := by
  change (if (bitDecomposeTwo x).getD 63 0 then (1 : Field M) else 0) = _
  rw [bitDecomposeTwo_getD, testBit_63 (field_val_lt x)]
  simp

/-- `unordered_map<wire_t, R>`: finitely many keys. -/
structure InputMap (R : Type) where
  keys : Finset ℕ
  val : ℕ → R

/-- `inputs.at(w)`. -/
def InputMap.at {R : Type} (inputs : InputMap R) (w : ℕ) : Except String R :=
  if w ∈ inputs.keys then .ok (inputs.val w) else .error "out_of_range"

/-- The sum of products of a `SIMDGate`; its output wire starts at zero. -/
def dotProduct {R : Type} [CommRing R] (xs ys : List ℕ) (wires : ℕ → R) : R :=
  ((xs.zip ys).map fun ab => wires ab.1 * wires ab.2).sum

section Evaluate
variable {R : Type} [CircuitRing R]

/-- The value of one gate. -/
def Gate.evaluate (inputs : InputMap R) (g : Gate R) (wires : ℕ → R) : Except String R :=
  match g.op with
  | .kInp => inputs.at g.out
  | .kMul a b => .ok (wires a * wires b)
  | .kMul3 a b c => .ok (wires a * wires b * wires c)
  | .kMul4 a b c d => .ok (wires a * wires b * wires c * wires d)
  | .kAdd a b => .ok (wires a + wires b)
  | .kSub a b => .ok (wires a - wires b)
  | .kConstAdd a cval => .ok (wires a + cval)
  | .kConstMul a cval => .ok (wires a * cval)
  | .kEqz a => .ok (if CircuitRing.isZero (wires a) then 1 else 0)
  | .kLtz a => .ok (CircuitRing.msb (wires a))
  | .kRelu a => CircuitRing.relu.map fun f => f (wires a)
  | .kMsb a => .ok (CircuitRing.msb (wires a))
  | .kDotprod xs ys => .ok (dotProduct xs ys wires)
  | .kTrdotp xs ys => CircuitRing.truncate.map fun f => f (dotProduct xs ys wires)

/-- The `wires` of `Circuit::evaluate` after all levels. -/
def Circuit.evaluateWires (c : Circuit R) (inputs : InputMap R) : Except String (ℕ → R) :=
  let level_circ := c.orderGatesByLevel
  if inputs.keys.card ≠ level_circ.count .kInp then
    .error s!"Expected {level_circ.count .kInp} inputs but received {inputs.keys.card} inputs."
  else
    level_circ.gates_by_level.foldlM (fun wires level =>
      level.foldlM (fun wires g => do
        let v ← g.evaluate inputs wires
        pure (Function.update wires g.out v)) wires) fun _ => 0

def Circuit.evaluate (c : Circuit R) (inputs : InputMap R) : Except String (List R) := do
  let wires ← c.evaluateWires inputs
  pure (c.orderGatesByLevel.outputs.map wires)

end Evaluate

/-- The wires of the input gates. -/
def Circuit.inputWires {R : Type} (c : Circuit R) : Finset ℕ :=
  ((c.gates_.filter fun g => g.type = .kInp).map Gate.out).toFinset

/-- The input map that assigns `f` to exactly the input wires. -/
def Circuit.assign {R : Type} (c : Circuit R) (f : ℕ → R) : InputMap R := ⟨c.inputWires, f⟩

end QSync
