import QSync.Asterisk.BoolEval
import QSync.Utils.Generators

/-! # The online evaluator

`OnlineEvaluator` (`asterisk/online_evaluator_load_balanced.cpp`). The parties `1..nP` hold masked
values of the wires; level by level they compute shares of what the multiplication and comparison
gates need, open them together and go on. The trusted party deals the challenges of the MAC check and
the masks of the outputs.

What is opened for a gate can be falsified, for all parties alike: `err w` is added to the value opened
for the gate with output wire `w`. In an honest run it is zero.
-/

namespace QSync
open Network Batching
set_option autoImplicit false
set_option maxHeartbeats 250000

/-! ## State -/

/-- The members of an `OnlineEvaluator` that its run changes. -/
structure OnlineState (M : Modulus) where
  wires_ : ℕ → Field M
  q_sh_ : ℕ → AuthAddShare (Field M)
  q_val_ : ℕ → Field M

/-- The vectors of a new `OnlineEvaluator`. -/
def OnlineState.init {M : Modulus} : OnlineState M := ⟨fun _ => 0, fun _ => default, fun _ => 0⟩

/-- What a party brings to the online phase: its streams, those of the `BoolEval`s it creates, its
preprocessed gates and the inputs it knows. -/
structure PartyData (M : Modulus) where
  rgen_ : RandGenPool
  boolRgen : RandGenPool
  preproc_ : FieldGates M
  inputs : InputMap (Field M)

/-- The types that are opened, in the order in which their shares are concatenated. -/
def openedTypes : List GateType := [.kMul, .kMul3, .kMul4, .kDotprod, .kEqz, .kLtz]

section Members
variable {M : Modulus}

/-- The members of a `PreprocInput`. -/
def inputOf : PreprocExt (Field M) (ComparisonGate M) → ℕ × Field M
  | .input pid mask_value => (pid, mask_value)
  | _ => (0, 0)

/-- The members of a `PreprocEqzGate` or `PreprocLtzGate`. -/
def comparisonOf : PreprocExt (Field M) (ComparisonGate M) → ComparisonGate M
  | .comparison x => x
  | _ => .eqz default default default (fun _ => default) 0

def ComparisonGate.mask_b : ComparisonGate M → MaskShare (Field M)
  | .eqz b .. | .ltz b .. => b

def ComparisonGate.mask_w : ComparisonGate M → MaskShare (Field M)
  | .eqz _ w .. | .ltz _ w .. => w

/-- `multk_gates` or `PrefixOR_gates`. -/
def ComparisonGate.gates : ComparisonGate M → BoolGates
  | .eqz _ _ _ gates _ | .ltz _ _ gates _ => gates

def ComparisonGate.padded_val : ComparisonGate M → Field M
  | .eqz _ _ _ _ pv | .ltz _ _ _ pv => pv

/-! ## Inputs -/

/-- Store the masked value of a wire. -/
def setValue (s : OnlineState M) (out : ℕ) (q : Field M) : OnlineState M :=
  { s with wires_ := Function.update s.wires_ out q, q_val_ := Function.update s.q_val_ out q }

/-- `NetIOMP::recv` of one field element. -/
def recvField (M : Modulus) (src : ℕ) : Proc ℕ (Field M) := do
  let b ← Proc.recvFrom src ((fieldCodec M).size 1)
  pure (((fieldCodec M).decode 1 b).getD 0 0)

/-- `setInputs` for one gate of level 0. -/
def setInput (nP id : ℕ) (d : PartyData M) (s : OnlineState M) (g : Gate (Field M)) :
    Proc ℕ (OnlineState M) :=
  if g.type = .kInp ∧ id ≠ 0 then
    let (pid, mask_value) := inputOf (d.preproc_ g.out).ext
    if pid = id then
      match d.inputs.at g.out with
      | .ok input => do
        let q := mask_value + input
        (parties nP).forM fun i =>
          if i = pid then pure () else Proc.sendTo i ((fieldCodec M).encode [q])
        pure (setValue s g.out q)
      | .error _ => .stuck
    else do
      let q ← recvField M pid
      pure (setValue s g.out q)
  else pure s

def setInputs (nP id : ℕ) (d : PartyData M) (circ : LevelOrderedCircuit (Field M))
    (s : OnlineState M) : Proc ℕ (OnlineState M) :=
  (circ.gates_by_level.getD 0 []).foldlM (setInput nP id d) s

/-! ## Comparison gates -/

/-- The input and the output wire of a gate of type `t` with fan-in 1. -/
abbrev FIn1Gate := ℕ × ℕ

/-- The gates of type `t` of a level, as `FIn1Gate`s. -/
def fIn1Gates (t : GateType) (level : List (Gate (Field M))) : List FIn1Gate :=
  (level.filter fun g => g.type = t).map fun g => (g.inputs.getD 0 0, g.out)

/-- What is pushed for a comparison gate: `q_share` and `masked_b`. -/
structure ComparisonShare (M : Modulus) where
  q_share : AuthAddShare (Field M)
  masked_b : Field M

instance : Inhabited (ComparisonShare M) := ⟨⟨default, 0⟩⟩

/-- Set an input wire to the bit at the position of its gate in level 0. -/
def setBoolInput (bit : ℕ → BoolRing) (vwires : ℕ → BoolRing) (gj : Gate BoolRing × ℕ) :
    ℕ → BoolRing :=
  if gj.1.type = .kInp then Function.update vwires gj.1.out (bit gj.2) else vwires

/-- The input wires of a Boolean circuit, set to the bits `bit`. -/
def setBoolInputs (circ : LevelOrderedCircuit BoolRing) (bit : ℕ → BoolRing) : ℕ → BoolRing :=
  (circ.gates_by_level.getD 0 []).zipIdx.foldl (setBoolInput bit) fun _ => 0

/-- What `eqzEvaluate` and `ltzEvaluate` do differently: the Boolean circuit, what its input bits are
taken from and how, what its output bit is corrected by, and the share that is opened. -/
structure Comparison (M : Modulus) (V : Type) where
  circ : LevelOrderedCircuit BoolRing
  value : Field M → V
  bits : V → ℕ → BoolRing
  adjust : V → BoolRing
  combine : AuthAddShare (Field M) → AuthAddShare (Field M) → Field M → AuthAddShare (Field M)

/-- The preprocessing of the `i`-th gate of a list. -/
def comparisonPre (d : PartyData M) (gates : List FIn1Gate) (i : ℕ) : ComparisonGate M :=
  comparisonOf (d.preproc_ (gates.getD i default).2).ext

namespace Comparison
variable {V : Type} [Zero V] (K : Comparison M V)

/-- `val`, by gate; the trusted party has none. -/
def vals (id : ℕ) (d : PartyData M) (gates : List FIn1Gate) (wires_ : ℕ → Field M) (i : ℕ) : V :=
  if id ≠ 0 then K.value (wires_ (gates.getD i default).1 + (comparisonPre d gates i).padded_val)
  else 0

/-- `bool_eval` with its inputs set. -/
def start (id : ℕ) (d : PartyData M) (gates : List FIn1Gate) (wires_ : ℕ → Field M) : BoolEval :=
  ⟨d.boolRgen .all_minus_0, fun i => setBoolInputs K.circ (K.bits (K.vals id d gates wires_ i))⟩

/-- From the evaluated circuit to shares: `output_share_val` and `q_share`. -/
def shares (id : ℕ) (d : PartyData M) (gates : List FIn1Gate) (wires_ : ℕ → Field M)
    (bool_eval : BoolEval) : List (ComparisonShare M) :=
  let output_shares := bool_eval.getOutputShares gates.length K.circ
  (List.range gates.length).map fun i =>
    let pre := comparisonPre d gates i
    let output_share_val : Field M := arithBit
      ((output_shares.getD i []).getD 0 0 ^^ K.adjust (K.vals id d gates wires_ i))
    ⟨if id ≠ 0 then K.combine pre.mask_w.sh pre.mask_b.sh output_share_val else default,
      output_share_val⟩

/-- `eqzEvaluate` or `ltzEvaluate`. -/
def evaluate (nP id : ℕ) (d : PartyData M) (gates : List FIn1Gate) (wires_ : ℕ → Field M) :
    Proc ℕ (List (ComparisonShare M)) := do
  let bool_eval ← BoolEval.evaluateAllLevels nP id gates.length
    (fun i => (comparisonPre d gates i).gates) K.circ (K.start id d gates wires_)
  pure (K.shares id d gates wires_ bool_eval)

end Comparison

/-- `OnlineEvaluator::eqzEvaluate`: the inputs of `multk_circ_` are the complements of the bits of
the masked value. -/
def eqzComparison : Comparison M (Field M) where
  circ := multk_circ.orderGatesByLevel
  value := id
  bits := fun val j => 1 - (bitDecomposeTwo val).getD j 0
  adjust := fun _ => 0
  combine := fun del_w del_b m_b => del_w - del_b * m_b

/-- `(p + 1) / 2`. -/
def halfModulus (M : Modulus) : ℕ := (M.p + 1) / 2

/-- `OnlineEvaluator::ltzEvaluate`: the inputs of `prefixOR_circ_` are the complements of the bits of
`val` and of `val2`, from the highest on, and two groups of zeros. -/
def ltzComparison : Comparison M (Field M × Field M) where
  circ := prefixOR_circ.orderGatesByLevel
  value := fun val => (val, val + (halfModulus M : Field M))
  bits := fun (val, val2) j =>
    if j < 64 then 1 - (bitDecomposeTwo val).getD (63 - j) 0
    else if j < 128 then 1 - (bitDecomposeTwo val2).getD (127 - j) 0
    else 0
  adjust := fun (_, val2) => decide (val2.val < halfModulus M)
  combine := fun del_w del_b m_b => del_w + del_b * m_b

/-- The comparison gates of a level, when there are any. -/
def Comparison.evaluateAny {V : Type} [Zero V] (K : Comparison M V) (nP id : ℕ) (d : PartyData M)
    (gates : List FIn1Gate) (wires_ : ℕ → Field M) : Proc ℕ (List (ComparisonShare M)) :=
  if 0 < gates.length then K.evaluate nP id d gates wires_ else pure []

/-! ## One level -/

/-- `evaluateGatesAtDepthPartySend` for one gate: what it stores. -/
def partySendStep (id : ℕ) (d : PartyData M) (s : OnlineState M) (g : Gate (Field M)) :
    OnlineState M :=
  if g.type ∈ multTypes then
    { s with
      q_sh_ := Function.update s.q_sh_ g.out (gateShare id s.wires_ d.preproc_ g)
      q_val_ := if g.type = .kDotprod then s.q_val_ else Function.update s.q_val_ g.out 0 }
  else s

/-- The shares to be opened, by type: those `evaluateGatesAtDepthPartySend` pushes for the
multiplication gates, and those of the comparison gates. -/
def nonTP (id : ℕ) (d : PartyData M) (level : List (Gate (Field M))) (wires_ : ℕ → Field M)
    (eqz ltz : List (ComparisonShare M)) : GateType → List (Field M)
  | .kEqz => eqz.map fun x => x.q_share.value_
  | .kLtz => ltz.map fun x => x.q_share.value_
  | t => batch Gate.type level (fun g => (gateShare id wires_ d.preproc_ g).value_) t

/-- A comparison gate whose share has been opened to `q`. -/
def setComparison (s : OnlineState M) (out : ℕ) (x : ComparisonShare M) (q : Field M) :
    OnlineState M where
  wires_ := Function.update s.wires_ out (x.masked_b - 2 * q)
  q_sh_ := Function.update s.q_sh_ out x.q_share
  q_val_ := Function.update s.q_val_ out q

/-- `evaluateGatesAtDepthPartyRecv` for one gate, when `q` has been opened for it and `eqz` or `ltz` is
what has been computed for it as a comparison gate. -/
def recvGate (s : OnlineState M) (g : Gate (Field M)) (q : Field M) (eqz ltz : ComparisonShare M) :
    OnlineState M :=
  match linearGate s.wires_ g.op with
  | some v =>
    { s with
      wires_ := Function.update s.wires_ g.out v
      q_val_ := if g.type = .kAdd ∨ g.type = .kSub then Function.update s.q_val_ g.out 0
        else s.q_val_ }
  | none =>
    if g.type = .kEqz then setComparison s g.out eqz q
    else if g.type = .kLtz then setComparison s g.out ltz q
    else if g.type ∈ multTypes then setValue s g.out q
    else s

/-- The step of `evaluateGatesAtDepthPartyRecv`, with one index for each type. -/
def partyRecvStep (err : ℕ → Field M) (all : GateType → List (Field M))
    (eqz ltz : List (ComparisonShare M)) (acc : OnlineState M × (GateType → ℕ))
    (g : Gate (Field M)) : OnlineState M × (GateType → ℕ) :=
  let (s, idx) := acc
  let k := idx g.type
  (recvGate s g ((all g.type).getD k 0 + err g.out) (eqz.getD k default) (ltz.getD k default),
    if g.type ∈ openedTypes then Function.update idx g.type (k + 1) else idx)

/-- The numbers of openings of a level, by type. -/
def openedNum (level : List (Gate (Field M))) (t : GateType) : ℕ :=
  level.countP fun g => g.type = t

def evaluateGatesAtDepth (nP id : ℕ) (d : PartyData M) (err : ℕ → Field M)
    (level : List (Gate (Field M))) (s : OnlineState M) : Proc ℕ (OnlineState M) := do
  let eqz ← eqzComparison.evaluateAny nP id d (fIn1Gates .kEqz level) s.wires_
  let ltz ← ltzComparison.evaluateAny nP id d (fIn1Gates .kLtz level) s.wires_
  if id = 0 then pure s else do
    let online_comm_to_TP := concat openedTypes (nonTP id d level s.wires_ eqz ltz)
    let agg_values ← openShares (fieldCodec M) nP id online_comm_to_TP
    let s := level.foldl (partySendStep id d) s
    let all := split (openedNum level) openedTypes agg_values
    pure (level.foldl (partyRecvStep err all eqz ltz) (s, fun _ => 0)).1

/-! ## MAC check -/

/-- The challenges `MACVerification` draws for a gate: its `switch` has no `break` between the
multiplications, so a case also runs all later ones. -/
def challenges : GateType → ℕ
  | .kMul => 4
  | .kDotprod => 3
  | .kMul3 => 2
  | .kMul4 => 1
  | _ => 0

/-- One case of the `switch` for gate `g`: draw `rho` and add to `omega`. -/
def macTerm (key : Field M) (s : OnlineState M) (g : Gate (Field M)) (omega : Field M) :
    StateM Stream (Field M) := do
  let rho ← Stream.randomize (Field M)
  pure (omega + rho * (s.q_val_ g.out * key - (s.q_sh_ g.out).tag_))

/-- The `switch` for gate `g`. -/
def macGate (key : Field M) (s : OnlineState M) (omega : Field M) (g : Gate (Field M)) :
    StateM Stream (Field M) :=
  (List.range (challenges g.type)).foldlM (fun omega _ => macTerm key s g omega) omega

/-- `omega` of a party. -/
def macOmega (key : Field M) (s : OnlineState M) (circ : LevelOrderedCircuit (Field M))
    (prg : Stream) : Field M :=
  (circ.gates_by_level.foldlM (fun omega level => level.foldlM (macGate key s) omega) 0 prg).1

/-- `preproc_.gates[0]->mask.keySh()`: there is no gate 0 in an empty circuit. -/
def keyShare (d : PartyData M) (circ : LevelOrderedCircuit (Field M)) : Proc ℕ (Field M) :=
  if circ.num_gates = 0 then .stuck else pure (d.preproc_ 0).mask.sh.key_sh_

/-- `2 * sizeof(emp::block)`. -/
def CC_KEY_SIZE : ℕ := 32

/-- `OnlineEvaluator::MACVerification`, up to the value `res`; the check passes when it is zero.
`reseed` is the generator that the key `cc_key` gives. -/
def MACVerification (reseed : Bytes → Prg) (nP id : ℕ) (d : PartyData M)
    (circ : LevelOrderedCircuit (Field M)) (s : OnlineState M) : Proc ℕ (Field M) :=
  if id = 0 then do
    let cc_key := (d.rgen_ .self).answer CC_KEY_SIZE
    (parties nP).forM fun i => Proc.sendTo i cc_key
    let omegas ← (parties nP).mapM fun i => recvField M i
    let res := omegas.sum
    (parties nP).forM fun i => Proc.sendTo i ((fieldCodec M).encode [res])
    pure res
  else do
    let cc_key ← Proc.recvFrom 0 CC_KEY_SIZE
    let key ← keyShare d circ
    let omega := macOmega key s circ ⟨reseed cc_key, []⟩
    Proc.sendTo 0 ((fieldCodec M).encode [omega])
    recvField M 0

/-! ## Outputs -/

def getOutputs (nP id : ℕ) (d : PartyData M) (circ : LevelOrderedCircuit (Field M))
    (s : OnlineState M) : Proc ℕ (List (Field M)) :=
  if circ.outputs = [] then pure []
  else if id = 0 then do
    let output_masks := circ.outputs.map fun wout => (d.preproc_ wout).mask.tp.secret
    (parties nP).forM fun i => Proc.sendTo i ((fieldCodec M).encode output_masks)
    pure (circ.outputs.map fun _ => 0)
  else do
    let output_masks ← (fieldCodec M).decode circ.outputs.length <$>
      Proc.recvFrom 0 ((fieldCodec M).size circ.outputs.length)
    pure (List.zipWith (fun wout outmask => s.wires_ wout - outmask) circ.outputs output_masks)

/-- What `evaluateCircuit` leaves in the evaluator, what `MACVerification` has found, and what is
returned. -/
structure OnlineResult (M : Modulus) where
  state : OnlineState M
  res : Field M
  outvals : List (Field M)

/-- The end of `evaluateCircuit`: the outputs, or zeros. -/
def finishCircuit (nP id : ℕ) (d : PartyData M) (circ : LevelOrderedCircuit (Field M))
    (s : OnlineState M) (res : Field M) : Proc ℕ (OnlineResult M) :=
  if res = 0 then do
    let outvals ← getOutputs nP id d circ s
    pure ⟨s, res, outvals⟩
  else pure ⟨s, res, circ.outputs.map fun _ => 0⟩

def evaluateCircuit (reseed : Bytes → Prg) (nP id : ℕ) (d : PartyData M) (err : ℕ → Field M)
    (circ : LevelOrderedCircuit (Field M)) : Proc ℕ (OnlineResult M) := do
  let s ← setInputs nP id d circ .init
  let s ← circ.gates_by_level.foldlM (fun s level => evaluateGatesAtDepth nP id d err level s) s
  let res ← MACVerification reseed nP id d circ s
  finishCircuit nP id d circ s res

end Members

end QSync
