import QSync.Asterisk.LevelWires
import QSync.Asterisk.Opening
import QSync.Foundations.Batching

/-! # Batched evaluation of a Boolean circuit

`BoolEval` (`asterisk/online_evaluator_load_balanced.cpp`) evaluates one Boolean circuit on many
instances at once. In each level the shares of all instances are padded with common random bits and
opened together; the trusted party does nothing. `vqval` and `vqsh`, which are written and never
read, are left out here; `BoolEval.openGatesAtDepth` has them.
-/

namespace QSync
open Network Batching
set_option autoImplicit false
set_option maxHeartbeats 250000

/-! ## One level -/

/-- The members of a `BoolEval` that its evaluation changes: the stream `rgen.all_minus_0()` and, by
instance and wire, the masked values. -/
structure BoolEval where
  all_minus_0 : Stream
  vwires : ℕ → ℕ → BoolRing

/-- The gates of a level in all `m` instances, in the order of both loops. -/
def levelJobs (m : ℕ) (level : List (Gate BoolRing)) : List (ℕ × Gate BoolRing) :=
  (List.range m).flatMap fun i => level.map fun g => (i, g)

/-- The type of the gate of a job. -/
abbrev jobType (j : ℕ × Gate BoolRing) : GateType := j.2.type

/-- The random bits of one opening, one for each party: none where nothing is opened. -/
def drawPads (nP : ℕ) (t : GateType) : StateM Stream (List BoolRing) :=
  if t ∈ multTypes then (List.range nP).mapM fun _ => Stream.randomize BoolRing else pure []

/-- Party `id` adds its bit of `r` to its share; every party adds it to its tag once for each
party. -/
def padShare (nP id : ℕ) (r : List BoolRing) (q_share : AuthAddShare BoolRing) :
    AuthAddShare BoolRing :=
  (parties nP).foldl (fun q_share i => q_share.addWithAdder (r.getD (id - 1) 0) id i) q_share

/-- What `evaluateGatesAtDepthPartySend` pushes for one gate: the padded share, and the sum of the
random bits. -/
structure PaddedShare where
  type : GateType
  share : BoolRing
  r_sum : BoolRing

/-- `BoolEval::evaluateGatesAtDepthPartySend`. The entries of gates that are not opened are of types
that are not sent. -/
def boolPartySend (nP id : ℕ) (vpreproc : ℕ → BoolGates) (vwires : ℕ → ℕ → BoolRing)
    (jobs : List (ℕ × Gate BoolRing)) : StateM Stream (List PaddedShare) :=
  jobs.mapM fun j => do
    let r ← drawPads nP (jobType j)
    let q_share := padShare nP id r (gateShare id (vwires j.1) (vpreproc j.1) j.2)
    pure ⟨jobType j, q_share.value_, r.sum⟩

/-- `BoolEval::evaluateGatesAtDepthPartyRecv` for one gate, with one index for each type into the
opened values and the pads. -/
def boolRecvStep (all r_pad : GateType → List BoolRing)
    (acc : (ℕ → ℕ → BoolRing) × (GateType → ℕ)) (j : ℕ × Gate BoolRing) :
    (ℕ → ℕ → BoolRing) × (GateType → ℕ) :=
  let wires := acc.1 j.1
  let idx := acc.2 (jobType j)
  let set := fun v => Function.update acc.1 j.1 (Function.update wires j.2.out v)
  match linearGate wires j.2.op with
  | some v => (set v, acc.2)
  | none =>
    if jobType j ∈ multTypes then
      let qval := (all (jobType j)).getD idx 0
      (set (qval - (r_pad (jobType j)).getD idx 0), Function.update acc.2 (jobType j) (idx + 1))
    else acc

/-- `BoolEval::evaluateGatesAtDepthPartyRecv`. -/
def boolPartyRecv (all r_pad : GateType → List BoolRing) (jobs : List (ℕ × Gate BoolRing))
    (vwires : ℕ → ℕ → BoolRing) : ℕ → ℕ → BoolRing :=
  (jobs.foldl (boolRecvStep all r_pad) (vwires, fun _ => 0)).1

/-- The numbers of openings of a level, by type: `mult_num` and so on. -/
def boolNum (m : ℕ) (level : List (Gate BoolRing)) (t : GateType) : ℕ :=
  (level.countP fun g => g.type = t) * m

/-- The shares a party opens in a level, concatenated by type: `online_comm_to_TP`. -/
def boolComm (sent : List PaddedShare) : List BoolRing :=
  concat multTypes (batch PaddedShare.type sent PaddedShare.share)

def BoolEval.evaluateGatesAtDepth (nP id m : ℕ) (vpreproc : ℕ → BoolGates)
    (level : List (Gate BoolRing)) (s : BoolEval) : Proc ℕ BoolEval :=
  if id = 0 then pure s else do
    let jobs := levelJobs m level
    let (sent, all_minus_0) := boolPartySend nP id vpreproc s.vwires jobs s.all_minus_0
    let agg_values ← openShares bitCodec nP id (boolComm sent)
    let all := split (boolNum m level) multTypes agg_values
    let r_pad := batch PaddedShare.type sent PaddedShare.r_sum
    pure ⟨all_minus_0, boolPartyRecv all r_pad jobs s.vwires⟩

def BoolEval.evaluateAllLevels (nP id m : ℕ) (vpreproc : ℕ → BoolGates)
    (circ : LevelOrderedCircuit BoolRing) (s : BoolEval) : Proc ℕ BoolEval :=
  circ.gates_by_level.foldlM (fun s level =>
    BoolEval.evaluateGatesAtDepth nP id m vpreproc level s) s

def BoolEval.getOutputShares (m : ℕ) (circ : LevelOrderedCircuit BoolRing) (s : BoolEval) :
    List (List BoolRing) :=
  (List.range m).map fun i => circ.outputs.map fun w => s.vwires i w

end QSync
