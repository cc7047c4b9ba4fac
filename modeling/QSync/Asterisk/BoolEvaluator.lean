import QSync.Asterisk.BoolEval

/-! # The evaluator of Boolean circuits

`BoolEvaluator` (`asterisk/online_evaluator_load_balanced.cpp`): one Boolean circuit with inputs of
its own. Inputs go through the trusted party, padded; in a level every party sends its padded shares
to the trusted party, which adds them up and sends the sums to everybody. There is no MAC check.
-/

namespace QSync
open Network Batching
set_option autoImplicit false
set_option maxHeartbeats 250000

/-- The members of a `BoolEvaluator` that its run changes, with the stream of its pool that it
draws from. -/
structure BoolEvaluator where
  all_minus_0 : Stream
  wires_ : ℕ → BoolRing := fun _ => 0
  q_sh_ : ℕ → AuthAddShare BoolRing := fun _ => default
  q_val_ : ℕ → BoolRing := fun _ => 0

/-- The members of a `PreprocInput` over bits. -/
def boolInputOf : PreprocExt BoolRing Empty → ℕ × BoolRing
  | .input pid mask_value => (pid, mask_value)
  | _ => (0, 0)

/-- `NetIOMP::recv` of one bit. -/
def recvBit (src : ℕ) : Proc ℕ BoolRing := do
  let b ← Proc.recvFrom src (rawBits.size 1)
  pure ((rawBits.decode 1 b).getD 0 0)

/-! ## Inputs -/

/-- `setInputs` for one gate of level 0. -/
def BoolEvaluator.setInput (nP id : ℕ) (preproc_ : BoolGates) (inputs : InputMap BoolRing)
    (s : BoolEvaluator) (g : Gate BoolRing) : Proc ℕ BoolEvaluator :=
  if g.type = .kInp then
    let (pid, mask_value) := boolInputOf (preproc_ g.out).ext
    -- `num_inp_pid[pid]++`; the vector has `nP` elements
    if nP ≤ pid then .stuck
    else if id ≠ 0 then do
      let (r_in, all_minus_0) := Stream.randomize BoolRing s.all_minus_0
      if pid = id then
        match inputs.at g.out with
        | .ok input => Proc.sendTo 0 (rawBits.encode [mask_value + input + r_in])
        | .error _ => .stuck
      let q ← recvBit 0
      pure { s with
        all_minus_0 := all_minus_0
        q_val_ := Function.update s.q_val_ g.out q
        wires_ := Function.update s.wires_ g.out (q - r_in) }
    else do
      let q ← recvBit pid
      (parties nP).forM fun i => Proc.sendTo i (rawBits.encode [q])
      pure { s with q_val_ := Function.update s.q_val_ g.out q }
  else pure s

def BoolEvaluator.setInputs (nP id : ℕ) (preproc_ : BoolGates) (inputs : InputMap BoolRing)
    (circ : LevelOrderedCircuit BoolRing) (s : BoolEvaluator) : Proc ℕ BoolEvaluator :=
  (circ.gates_by_level.getD 0 []).foldlM (BoolEvaluator.setInput nP id preproc_ inputs) s

/-! ## One level -/

/-- A random bit of an opening. For `kMul4` any nonzero byte counts as 1, for the others its lowest
bit. -/
def drawPad (t : GateType) : StateM Stream BoolRing := fun s =>
  if t = .kMul4 then (decide (leNat (s.answer 1) ≠ 0), s.advance 1)
  else Stream.randomize BoolRing s

/-- The random bits of the opening of a gate, one for each party. -/
def gatePads (nP : ℕ) (t : GateType) : StateM Stream (List BoolRing) :=
  if t ∈ multTypes then (List.range nP).mapM fun _ => drawPad t else pure []

/-- What `evaluateGatesAtDepthPartySend` computes for a gate: `q_share` with the pads, and their
sum. -/
structure GateOpening where
  gate : Gate BoolRing
  q_share : AuthAddShare BoolRing
  r_sum : BoolRing

abbrev GateOpening.type (x : GateOpening) : GateType := x.gate.type

/-- `evaluateGatesAtDepthPartySend`, up to what it stores. -/
def BoolEvaluator.partySend (nP id : ℕ) (preproc_ : BoolGates) (wires_ : ℕ → BoolRing)
    (level : List (Gate BoolRing)) : StateM Stream (List GateOpening) :=
  level.mapM fun g => do
    let r ← gatePads nP g.type
    pure ⟨g, padShare nP id r (gateShare id wires_ preproc_ g), r.sum⟩

/-- Store the share of an opening. -/
def storeShare (q_sh_ : ℕ → AuthAddShare BoolRing) (x : GateOpening) :
    ℕ → AuthAddShare BoolRing :=
  if x.type ∈ multTypes then Function.update q_sh_ x.gate.out x.q_share else q_sh_

/-- Clear the opened value of a gate; `kDotprod` leaves it. -/
def clearValue (q_val_ : ℕ → BoolRing) (g : Gate BoolRing) : ℕ → BoolRing :=
  if g.type ∈ [.kMul, .kMul3, .kMul4] then Function.update q_val_ g.out 0 else q_val_

/-- `evaluateGatesAtDepthPartyRecv` for one gate, with one index for each type. -/
def BoolEvaluator.recvStep (all r_pad : GateType → List BoolRing)
    (acc : BoolEvaluator × (GateType → ℕ)) (g : Gate BoolRing) :
    BoolEvaluator × (GateType → ℕ) :=
  let (s, idx) := acc
  let k := idx g.type
  match linearGate s.wires_ g.op with
  | some v =>
    ({ s with
        wires_ := Function.update s.wires_ g.out v
        q_val_ := if g.type = .kAdd ∨ g.type = .kSub then Function.update s.q_val_ g.out 0
          else s.q_val_ }, idx)
  | none =>
    if g.type ∈ multTypes then
      let q := (all g.type).getD k 0
      ({ s with
          q_val_ := Function.update s.q_val_ g.out q
          wires_ := Function.update s.wires_ g.out (q - (r_pad g.type).getD k 0) },
        Function.update idx g.type (k + 1))
    else acc

/-- The numbers of openings of a level, by type: `mult_num` and so on. -/
def multNum (level : List (Gate BoolRing)) (t : GateType) : ℕ := level.countP fun g => g.type = t

/-- `evaluateGatesAtDepthPartyRecv` after `evaluateGatesAtDepthPartySend`, once `agg_values` have been
opened. -/
def BoolEvaluator.partyRecv (sent : List GateOpening) (all_minus_0 : Stream)
    (level : List (Gate BoolRing)) (agg_values : List BoolRing) (s : BoolEvaluator) :
    BoolEvaluator :=
  let s : BoolEvaluator := { s with
    all_minus_0 := all_minus_0
    q_sh_ := sent.foldl storeShare s.q_sh_
    q_val_ := level.foldl clearValue s.q_val_ }
  let r_pad := batch GateOpening.type sent GateOpening.r_sum
  (level.foldl (BoolEvaluator.recvStep (split (multNum level) multTypes agg_values) r_pad)
    (s, fun _ => 0)).1

def BoolEvaluator.evaluateGatesAtDepth (nP id : ℕ) (preproc_ : BoolGates)
    (level : List (Gate BoolRing)) (s : BoolEvaluator) : Proc ℕ BoolEvaluator :=
  let total_comm := (multTypes.map (multNum level)).sum
  if id = 0 then do
    let online_comm_to_TP ← (parties nP).mapM fun pid =>
      bitCodec.decode total_comm <$> Proc.recvFrom pid (bitCodec.size total_comm)
    let agg_values := sumVectors total_comm online_comm_to_TP
    (parties nP).forM fun pid => Proc.sendTo pid (bitCodec.encode agg_values)
    pure s
  else do
    let (sent, all_minus_0) := BoolEvaluator.partySend nP id preproc_ s.wires_ level s.all_minus_0
    Proc.sendTo 0 (bitCodec.encode
      (concat multTypes (batch GateOpening.type sent fun x => x.q_share.value_)))
    let agg_values ← bitCodec.decode total_comm <$> Proc.recvFrom 0 (bitCodec.size total_comm)
    pure (s.partyRecv sent all_minus_0 level agg_values)

/-! ## The whole evaluation -/

def BoolEvaluator.getOutputs (nP id : ℕ) (preproc_ : BoolGates)
    (circ : LevelOrderedCircuit BoolRing) (s : BoolEvaluator) : Proc ℕ (List BoolRing) :=
  if circ.outputs = [] then pure []
  else if id = 0 then do
    let output_masks := circ.outputs.map fun wout => (preproc_ wout).mask.tp.secret
    (parties nP).forM fun i => Proc.sendTo i (rawBits.encode output_masks)
    pure (circ.outputs.map fun _ => 0)
  else do
    let output_masks ← rawBits.decode circ.outputs.length <$>
      Proc.recvFrom 0 (rawBits.size circ.outputs.length)
    pure (List.zipWith (fun wout outmask => s.wires_ wout - outmask) circ.outputs output_masks)

/-- `BoolEvaluator::evaluateCircuit`: what the evaluator holds at the end, and the outputs. -/
def BoolEvaluator.evaluateCircuit (nP id : ℕ) (preproc_ : BoolGates) (inputs : InputMap BoolRing)
    (circ : LevelOrderedCircuit BoolRing) (s : BoolEvaluator) :
    Proc ℕ (BoolEvaluator × List BoolRing) := do
  let s ← BoolEvaluator.setInputs nP id preproc_ inputs circ s
  let s ← circ.gates_by_level.foldlM (fun s level =>
    BoolEvaluator.evaluateGatesAtDepth nP id preproc_ level s) s
  let outvals ← BoolEvaluator.getOutputs nP id preproc_ circ s
  pure (s, outvals)

end QSync
