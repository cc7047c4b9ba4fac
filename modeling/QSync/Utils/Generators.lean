import QSync.Utils.LevelOrder

/-! # The two Boolean circuits of the comparison gates

`Circuit::generateMultK` (a conjunction of 64 bits in three layers of fan-in 4) and
`Circuit::generateParaPrefixOR` (`utils/circuit.h`). Vectors of wires are functions of the position.
-/

namespace QSync
set_option autoImplicit false
set_option maxHeartbeats 250000

namespace Circuit
variable {R : Type}

/-- A vector of new wires, filled in order. -/
def fillWires (positions : List ℕ) (wire : ℕ → Build R ℕ) (v : ℕ → ℕ) : Build R (ℕ → ℕ) :=
  positions.foldlM (fun v i => do
    let w ← wire i
    pure (Function.update v i w)) v

/-- One layer of `generateMultK`. -/
def multKLevel (leveli : ℕ → ℕ) (level : ℕ) : Build R (ℕ → ℕ) :=
  fillWires (List.range (64 / 4 ^ level)) (fun j =>
    addGate4 .kMul4 (leveli (4 * j)) (leveli (4 * j + 1)) (leveli (4 * j + 2)) (leveli (4 * j + 3)))
    fun _ => 0

/-- `log(64) / log(4)`: the number of layers. -/
def LAYERS : ℕ := 3

def generateMultK : Build R Unit := do
  let input ← fillWires (List.range 64) (fun _ => newInputWire) fun _ => 0
  let leveli ← (List.range' 1 LAYERS).foldlM multKLevel input
  setAsOutput (leveli 0)

variable [CommRing R]

/-- One step of a layer of `generateParaPrefixOR`: the four positions `p + i`, `q + i`, `r + i` and
`s + i` of block `j`. -/
def prefixStep (leveli : ℕ → ℕ) (level : ℕ) (level_next : ℕ → ℕ) (ji : ℕ × ℕ) :
    Build R (ℕ → ℕ) := do
  let (j, i) := ji
  let p := (j - 1) * 4 ^ level
  let q := (j - 1) * 4 ^ level + 4 ^ (level - 1)
  let r := (j - 1) * 4 ^ level + 2 * 4 ^ (level - 1)
  let s := (j - 1) * 4 ^ level + 3 * 4 ^ (level - 1)
  let wp ← addConstOpGate .kConstAdd (leveli (p + i)) (0 : R)
  let wq ← addGate2 .kMul (leveli (q - 1)) (leveli (q + i))
  let wr ← addGate3 .kMul3 (leveli (q - 1)) (leveli (r - 1)) (leveli (r + i))
  let ws ← addGate4 .kMul4 (leveli (q - 1)) (leveli (r - 1)) (leveli (s - 1)) (leveli (s + i))
  let level_next := Function.update level_next (p + i) wp
  let level_next := Function.update level_next (q + i) wq
  let level_next := Function.update level_next (r + i) wr
  pure (Function.update level_next (s + i) ws)

/-- One layer of `generateParaPrefixOR`. -/
def prefixLevel (repeat_ : ℕ) (leveli : ℕ → ℕ) (level : ℕ) : Build R (ℕ → ℕ) :=
  ((List.range' 1 (repeat_ * 64 / 4 ^ level)).flatMap fun j =>
    (List.range (4 ^ (level - 1))).map fun i => (j, i)).foldlM (prefixStep leveli level) fun _ => 0

/-- `generateParaPrefixOR`. Position `(i, j)` of a vector of vectors is `i * 64 + j` here; the two
vectors of the scalar product start with `repeat * 64` entries 0, to which the rest is appended. -/
def generateParaPrefixOR (repeat_ : ℕ) : Build R Unit := do
  let positions := List.range (repeat_ * 64)
  let input ← fillWires positions (fun _ => newInputWire) fun _ => 0
  let inp_d ← fillWires positions (fun _ => newInputWire) fun _ => 0
  let leveli ← (List.range' 1 LAYERS).foldlM (prefixLevel repeat_) input
  let wv ← fillWires positions (fun i => addConstOpGate .kConstAdd (leveli i) (1 : R)) fun _ => 0
  let wz ← fillWires positions (fun i =>
    if i % 64 = 0 then addConstOpGate .kConstAdd (wv i) (0 : R)
    else addGate2 .kAdd (wv i) (wv (i - 1))) fun _ => 0
  let padding := List.replicate (repeat_ * 64) 0
  let res ← addGateSIMD .kDotprod (padding ++ positions.map wz) (padding ++ positions.map inp_d)
  setAsOutput res

end Circuit

/-- `multk_circ_`, before it is ordered. -/
def multk_circ : Circuit BoolRing := .built Circuit.generateMultK

/-- `prefixOR_circ_`, before it is ordered. -/
def prefixOR_circ : Circuit BoolRing := .built (Circuit.generateParaPrefixOR 2)

end QSync
