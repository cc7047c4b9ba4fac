import QSync.Asterisk.Preproc
import QSync.Foundations.Rounds
import QSync.Utils.Generators

/-! # The offline evaluator

`OfflineEvaluator` (`asterisk/offline_evaluator.cpp`). All parties walk the circuit in level order.
The trusted party (`pid = 0`) and party `i` draw from the same stream, `pi(i)` at the one and `p0` at
the other; what the last party `nP` cannot draw it reads from queues the trusted party has filled and
sent to it. `OfflineBoolEvaluator` has the same functions over bits, so they are stated once for a ring.
-/

namespace QSync
open Network
set_option autoImplicit false
set_option maxHeartbeats 250000

/-- The three vectors per ring that the trusted party fills for party `nP`. -/
inductive QueueName where
  | rand_sh | rand_sh_sec | rand_sh_party
  deriving DecidableEq

/-- A vector, with the index at which it is read next. -/
structure Queue (R : Type) where
  data : List R
  idx : ℕ

/-- What the functions over one ring work on. -/
structure DrawState (R : Type) where
  rgen : RandGenPool
  queues : QueueName → Queue R

abbrev Draw (R : Type) := StateM (DrawState R)

section Draws
variable {R X : Type} [RandomRing R]

def draw (name : StreamName) : Draw R R := fun s =>
  let (x, rgen) := randomize R name s.rgen
  (x, { s with rgen := rgen })

/-- `push_back` of several elements. -/
def push (q : QueueName) (xs : List R) : Draw R Unit := fun s =>
  ((), { s with
    queues := Function.update s.queues q ⟨(s.queues q).data ++ xs, (s.queues q).idx⟩ })

/-- Read the next element of a vector. -/
def pop (q : QueueName) : Draw R R := fun s =>
  ((s.queues q).data.getD (s.queues q).idx 0,
    { s with queues := Function.update s.queues q ⟨(s.queues q).data, (s.queues q).idx + 1⟩ })

/-- What party `i` draws for one share: value and tag. -/
def drawPair (name : StreamName) : Draw R (R × R) := do
  let val ← draw name
  let tag ← draw name
  pure (val, tag)

/-- Key setup (`setWireMasksParty`): the key, which for the trusted party is the sum of the key
shares, and the vector of key shares. -/
def keyGen (nP pid : ℕ) : Draw R (R × List R) :=
  if pid = 0 then do
    let keySh ← (List.range' 1 nP).mapM fun i => draw (.pi i)
    pure (keySh.sum, 0 :: keySh)
  else do
    let key ← draw .p0
    pure (key, List.replicate (nP + 1) 0)

/-- The share with zero value the trusted party keeps. -/
def zeroShare (keySh : List R) : AuthAddShare R := ⟨keySh.getD 0 0, 0, 0⟩

/-- `randomShare`: everybody draws a value and a tag; the last party's tag, which it gets from the
trusted party, makes the tags sum to key times secret. -/
def randomShare (nP pid : ℕ) (key : R) (keySh : List R) : Draw R (MaskShare R) :=
  if pid = 0 then do
    let drawn ← (List.range' 1 nP).mapM fun i => drawPair (.pi i)
    let values := 0 :: drawn.map Prod.fst
    -- the tag drawn for party `nP` is dropped
    let tags := 0 :: drawn.dropLast.map Prod.snd
    let tagn := key * values.sum - tags.sum
    push .rand_sh [tagn]
    pure ⟨zeroShare keySh, ⟨key, keySh, values, tags ++ [tagn]⟩⟩
  else do
    let (val, tag) ← drawPair .p0
    if pid ≠ nP then
      pure ⟨⟨key, val, tag⟩, default⟩
    else do
      let tagn ← pop .rand_sh
      pure ⟨⟨key, val, tagn⟩, default⟩

/-- The common part of `randomShareSecret` and `randomShareWithParty`: parties below `nP` draw value
and tag, the last party gets both from the queue `q`. -/
def shareSecret (q : QueueName) (nP pid : ℕ) (secret key : R) (keySh : List R) :
    Draw R (MaskShare R) :=
  if pid = 0 then do
    let drawn ← (List.range' 1 (nP - 1)).mapM fun i => drawPair (.pi i)
    let values := 0 :: drawn.map Prod.fst
    let tags := 0 :: drawn.map Prod.snd
    let valn := secret - values.sum
    let tagn := key * secret - tags.sum
    push q [valn, tagn]
    pure ⟨zeroShare keySh, ⟨key, keySh, values ++ [valn], tags ++ [tagn]⟩⟩
  else if pid ≠ nP then do
    let (val, tag) ← drawPair .p0
    pure ⟨⟨key, val, tag⟩, default⟩
  else do
    let valn ← pop q
    let tagn ← pop q
    pure ⟨⟨key, valn, tagn⟩, default⟩

/-- `randomShareSecret`: a sharing of a value the trusted party knows. -/
def randomShareSecret (nP pid : ℕ) (secret key : R) (keySh : List R) : Draw R (MaskShare R) :=
  shareSecret .rand_sh_sec nP pid secret key keySh

/-- The secret of `randomShareWithParty`: drawn by the trusted party and `dealer` from the stream they
share; zero at the others. -/
def dealtSecret (pid dealer : ℕ) : Draw R R :=
  if pid = 0 then draw (if dealer ≠ 0 then .pi dealer else .self)
  else if pid = dealer then draw .p0
  else pure 0

/-- `randomShareWithParty`: a sharing of a value that the trusted party and `dealer` draw. Also
returns `secret`. -/
def randomShareWithParty (nP pid dealer : ℕ) (key : R) (keySh : List R) :
    Draw R (MaskShare R × R) := do
  let secret ← dealtSecret pid dealer
  let share ← shareSecret .rand_sh_party nP pid secret key keySh
  pure (share, secret)

/-- The gates that one ring suffices for: the linear ones and the multiplications. `none` for the
types whose preprocessing is elsewhere or that are skipped. -/
def arithmeticGate (nP id : ℕ) (key : R) (keySh : List R) (gates : PreprocGates R X) (op : Op R) :
    Draw R (Option (PreprocGate R X)) :=
  -- only the trusted party has the secrets; the others keep a default
  let secret := fun w => if id = 0 then (gates w).secret else 0
  let shareSecret := fun x => randomShareSecret nP id x key keySh
  match op with
  | .kAdd a b => pure (some ⟨(gates a).mask + (gates b).mask, .gate⟩)
  | .kConstAdd a _ => pure (some ⟨(gates a).mask, .gate⟩)
  | .kConstMul a cval => pure (some ⟨(gates a).mask * cval, .gate⟩)
  | .kSub a b => pure (some ⟨(gates a).mask - (gates b).mask, .gate⟩)
  | .kMul a b => do
    let rand_mask ← randomShare nP id key keySh
    let mask_product ← shareSecret (secret a * secret b)
    pure (some ⟨rand_mask, .mult mask_product⟩)
  | .kMul3 a b c => do
    let rand_mask ← randomShare nP id key keySh
    let masks ← (Mult3Masks.products (secret a) (secret b) (secret c)).mapM shareSecret
    pure (some ⟨rand_mask, .mult3 masks⟩)
  | .kMul4 a b c d => do
    let rand_mask ← randomShare nP id key keySh
    let masks ←
      (Mult4Masks.products (secret a) (secret b) (secret c) (secret d)).mapM shareSecret
    pure (some ⟨rand_mask, .mult4 masks⟩)
  | .kDotprod xs ys => do
    let mask_prod := dotProduct xs ys secret
    let rand_mask ← randomShare nP id key keySh
    let mask_product ← shareSecret mask_prod
    pure (some ⟨rand_mask, .dotp mask_product⟩)
  | _ => pure none

end Draws

/-! ## Boolean circuits of the comparison gates -/

/-- Set the gate of a wire, when there is one. -/
def setGate {R X : Type} (gates : PreprocGates R X) (out : ℕ) :
    Option (PreprocGate R X) → PreprocGates R X
  | some pregate => Function.update gates out pregate
  | none => gates

/-- One gate of a Boolean circuit: the `inp_ctr`-th input gate gets `inp inp_ctr`, the other gates of
the types `handles` are preprocessed as in the circuit over the field. -/
def boolGateStep (nP id : ℕ) (bkey : BoolRing) (bkeySh : List BoolRing)
    (handles : GateType → Bool) (inp : ℕ → Draw BoolRing (PreprocGate BoolRing Empty))
    (acc : BoolGates × ℕ) (gate : Gate BoolRing) : Draw BoolRing (BoolGates × ℕ) :=
  match gate.op with
  | .kInp => do
    let pregate ← inp acc.2
    pure (Function.update acc.1 gate.out pregate, acc.2 + 1)
  | op =>
    if handles gate.type then do
      let pregate ← arithmeticGate nP id bkey bkeySh acc.1 op
      pure (setGate acc.1 gate.out pregate, acc.2)
    else pure acc

/-- The loop over a Boolean circuit. -/
def boolCircuitGates (nP id : ℕ) (bkey : BoolRing) (bkeySh : List BoolRing)
    (handles : GateType → Bool) (inp : ℕ → Draw BoolRing (PreprocGate BoolRing Empty))
    (circ : LevelOrderedCircuit BoolRing) : Draw BoolRing BoolGates := do
  let acc ← circ.gates_by_level.foldlM (fun acc level =>
    level.foldlM (boolGateStep nP id bkey bkeySh handles inp) acc) (fun _ => default, 0)
  pure acc.1

/-- A Boolean input gate with the mask `bit_mask`. -/
def boolInputGate (nP id : ℕ) (bkey : BoolRing) (bkeySh : List BoolRing) (bit_mask : BoolRing) :
    Draw BoolRing (PreprocGate BoolRing Empty) := do
  let mask ← randomShareSecret nP id bit_mask bkey bkeySh
  pure ⟨mask, .input 0 bit_mask⟩

/-- The types preprocessed in `multk_circ_` and in `prefixOR_circ_`, besides `kInp`. -/
def multkHandles (t : GateType) : Bool := t = .kMul4

def prefixORHandles (t : GateType) : Bool :=
  t ∈ [.kAdd, .kSub, .kConstAdd, .kConstMul, .kMul, .kMul3, .kMul4, .kDotprod]

/-- The gates of `multk_circ_` with the bits `r_bits` as masks of the inputs. -/
def multkGates (nP id : ℕ) (bkey : BoolRing) (bkeySh : List BoolRing) (r_bits : List BoolRing) :
    Draw BoolRing BoolGates :=
  boolCircuitGates nP id bkey bkeySh multkHandles
    (fun inp_ctr => boolInputGate nP id bkey bkeySh (r_bits.getD inp_ctr 0))
    multk_circ.orderGatesByLevel

/-- The gates of `prefixOR_circ_`: each bit of `r_bits`, from the highest on, is shared once, and all
groups of 64 inputs have these masks. -/
def prefixORGates (nP id : ℕ) (bkey : BoolRing) (bkeySh : List BoolRing) (r_bits : List BoolRing) :
    Draw BoolRing BoolGates := do
  let pregates ← (List.range 64).mapM fun i =>
    boolInputGate nP id bkey bkeySh (r_bits.getD (63 - i) 0)
  boolCircuitGates nP id bkey bkeySh prefixORHandles
    (fun inp_ctr => pure (pregates.getD (inp_ctr % 64) default)) prefixOR_circ.orderGatesByLevel

/-! ## The walk over the circuit -/

/-- The members of an `OfflineEvaluator` that its walk changes, with the queues. -/
structure OfflineState (M : Modulus) where
  rgen : RandGenPool
  arith : QueueName → Queue (Field M)
  bool : QueueName → Queue BoolRing

abbrev Offline (M : Modulus) := StateM (OfflineState M)

/-- The keys of a party: `key`, `keySh`, `bkey`, `bkeySh`. -/
structure Keys (M : Modulus) where
  key : Field M
  keySh : List (Field M)
  bkey : BoolRing
  bkeySh : List BoolRing

section Walk
variable {M : Modulus}

/-- Run a function over the field. -/
def Offline.arith {α : Type} (m : Draw (Field M) α) : Offline M α := fun s =>
  let (a, d) := m ⟨s.rgen, s.arith⟩
  (a, { s with rgen := d.rgen, arith := d.queues })

/-- Run a function over bits. -/
def Offline.bool {α : Type} (m : Draw BoolRing α) : Offline M α := fun s =>
  let (a, d) := m ⟨s.rgen, s.bool⟩
  (a, { s with rgen := d.rgen, bool := d.queues })

/-- Preprocessing of a `kEqz` gate with input `win`. -/
def eqzGate (nP id : ℕ) (k : Keys M) (gates : FieldGates M) (win : ℕ) :
    Offline M (PreprocGate (Field M) (ComparisonGate M)) := do
  let mask_w ← .arith (randomShare nP id k.key k.keySh)
  let padded_val ← .arith (draw .all)
  let r_value := if id = 0 then padded_val + (gates win).secret else 0
  let rval ← .arith (randomShareSecret nP id r_value k.key k.keySh)
  let r_bits := if id = 0 then bitDecomposeTwo r_value else List.replicate 64 0
  let multk_gates ← .bool (multkGates nP id k.bkey k.bkeySh r_bits)
  let wout := multk_circ.orderGatesByLevel.outputs.getD 0 0
  let arith_b := if id = 0 then arithBit (multk_gates wout).secret else 0
  let mask_b ← .arith (randomShareSecret nP id arith_b k.key k.keySh)
  pure ⟨mask_b * (-1 : Field M) + mask_w * (-2 : Field M),
    .comparison (.eqz mask_b mask_w rval multk_gates padded_val)⟩

/-- Preprocessing of a `kLtz` gate with input `win`. -/
def ltzGate (nP id : ℕ) (k : Keys M) (gates : FieldGates M) (win : ℕ) :
    Offline M (PreprocGate (Field M) (ComparisonGate M)) := do
  let padded_val ← .arith (draw .all)
  let r_value := if id = 0 then padded_val + (gates win).secret else 0
  let r_bits := if id = 0 then bitDecomposeTwo r_value else List.replicate 64 0
  let prefixOR_gates ← .bool (prefixORGates nP id k.bkey k.bkeySh r_bits)
  let wout := prefixOR_circ.orderGatesByLevel.outputs.getD 0 0
  let arith_b := if id = 0 then arithBit (prefixOR_gates wout).secret else 0
  let mask_b ← .arith (randomShareSecret nP id arith_b k.key k.keySh)
  let mask_w ← .arith (randomShare nP id k.key k.keySh)
  pure ⟨mask_w * (-2 : Field M) + mask_b * (-1 : Field M),
    .comparison (.ltz mask_b mask_w prefixOR_gates padded_val)⟩

/-- Preprocessing of one gate. -/
def offlineGate (nP id : ℕ) (k : Keys M) (input_pid_map : ℕ → ℕ) (gates : FieldGates M)
    (gate : Gate (Field M)) : Offline M (FieldGates M) :=
  match gate.op with
  | .kInp => do
    let pid := input_pid_map gate.out
    let (mask, mask_value) ← .arith (randomShareWithParty nP id pid k.key k.keySh)
    pure (Function.update gates gate.out ⟨mask, .input pid mask_value⟩)
  | .kEqz a => do
    let pregate ← eqzGate nP id k gates a
    pure (Function.update gates gate.out pregate)
  | .kLtz a => do
    let pregate ← ltzGate nP id k gates a
    pure (Function.update gates gate.out pregate)
  | op => do
    let pregate ← .arith (arithmeticGate nP id k.key k.keySh gates op)
    pure (setGate gates gate.out pregate)

/-- What `setWireMasksParty` leaves in the evaluator. -/
structure OfflineResult (M : Modulus) where
  keys : Keys M
  gates : FieldGates M

def setWireMasksParty (nP id : ℕ) (input_pid_map : ℕ → ℕ) (circ : LevelOrderedCircuit (Field M)) :
    Offline M (OfflineResult M) := do
  let (key, keySh) ← .arith (keyGen nP id)
  let (bkey, bkeySh) ← .bool (keyGen nP id)
  let k : Keys M := ⟨key, keySh, bkey, bkeySh⟩
  let gates ← circ.gates_by_level.foldlM (fun gates level =>
    level.foldlM (offlineGate nP id k input_pid_map) gates) fun _ => default
  pure ⟨k, gates⟩

/-- The queues one after the other, as they travel. -/
def flattenQueues {R : Type} (queues : QueueName → Queue R) : List R :=
  (queues .rand_sh).data ++ (queues .rand_sh_sec).data ++ (queues .rand_sh_party).data

/-- Queues with the given data, to be read from the start. -/
def readQueues {R : Type} (rand_sh rand_sh_sec rand_sh_party : List R) : QueueName → Queue R
  | .rand_sh => ⟨rand_sh, 0⟩
  | .rand_sh_sec => ⟨rand_sh_sec, 0⟩
  | .rand_sh_party => ⟨rand_sh_party, 0⟩

/-- The numbers of elements of the queues over one ring: all together, then each. -/
def queueLengths {R : Type} (queues : QueueName → Queue R) : List ℕ :=
  [(flattenQueues queues).length, (queues .rand_sh).data.length,
    (queues .rand_sh_sec).data.length, (queues .rand_sh_party).data.length]

/-- Queues cut out of a received vector, from the numbers of their elements. The copy loops of the source
count in `int`; a message of the bus has at most 65535 fragments of `MAX_PAYLOAD` bytes, so that a queue
has fewer than `2 ^ 31` elements. -/
def splitQueues {R : Type} (comm : List R) (lengths : List ℕ) : QueueName → Queue R :=
  let rand_sh_num := lengths.getD 1 0
  let rand_sh_sec_num := lengths.getD 2 0
  let rand_sh_party_num := lengths.getD 3 0
  readQueues (comm.take rand_sh_num) ((comm.drop rand_sh_num).take rand_sh_sec_num)
    ((comm.drop (rand_sh_num + rand_sh_sec_num)).take rand_sh_party_num)

/-- `sizeof(size_t)`. -/
def SIZE_T : ℕ := 8

/-- `OfflineEvaluator::setWireMasks`, which is all `run` does. Returns what the evaluator holds at the
end together with the streams and queues. -/
def OfflineEvaluator.run (nP id : ℕ) (input_pid_map : ℕ → ℕ) (circ : LevelOrderedCircuit (Field M))
    (rgen : RandGenPool) : Proc ℕ (OfflineResult M × OfflineState M) :=
  let noQueues : OfflineState M := ⟨rgen, readQueues [] [] [], readQueues [] [] []⟩
  if id ≠ nP then
    let r := setWireMasksParty nP id input_pid_map circ noQueues
    if id = 0 then do
      Proc.sendTo nP (encodeWords SIZE_T (queueLengths r.2.arith ++ queueLengths r.2.bool))
      Proc.sendTo nP ((fieldCodec M).encode (flattenQueues r.2.arith))
      Proc.sendTo nP (bitCodec.encode (flattenQueues r.2.bool))
      pure r
    else pure r
  else do
    let lengths ← decodeWords SIZE_T 8 <$> Proc.recvFrom 0 (SIZE_T * 8)
    let arith_comm := lengths.getD 0 0
    let bool_comm := lengths.getD 4 0
    let offline_arith_comm ←
      (fieldCodec M).decode arith_comm <$> Proc.recvFrom 0 ((fieldCodec M).size arith_comm)
    let offline_bool_comm ←
      bitCodec.decode bool_comm <$> Proc.recvFrom 0 (bitCodec.size bool_comm)
    pure (setWireMasksParty nP id input_pid_map circ
      ⟨rgen, splitQueues offline_arith_comm lengths, splitQueues offline_bool_comm (lengths.drop 4)⟩)

end Walk

end QSync
