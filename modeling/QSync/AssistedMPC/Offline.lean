import QSync.Asterisk.Offline

/-! # The offline evaluator of assistedMPC

`OfflineEvaluator` (`assistedMPC/offline_evaluator.cpp`). The trusted party makes every sharing from
its stream `self` alone: for each party it fills vectors with a value and a tag per share, and sends
them. A party then walks the circuit too and takes its shares out of these vectors. The two walks,
`setWireMasksHelper` and `setWireMasksParty`, are separate functions that have to agree on the order.

The shares, the streams, the members of a preprocessed gate and the names of the vectors are those of
`asterisk`.
-/

namespace QSync.AssistedMPC
open Network
set_option autoImplicit false
set_option maxHeartbeats 250000

/-- What `setWireMasksHelper` works on: the streams, and the vectors of each party. -/
structure HelperState (R : Type) where
  rgen : RandGenPool
  queues : ℕ → QueueName → List R

abbrev Helper (R : Type) := StateM (HelperState R)

/-- Nothing in any vector. -/
def noQueues {R : Type} (rgen : RandGenPool) : HelperState R := ⟨rgen, fun _ _ => []⟩

/-- Vectors that are read from the start. -/
def unread {R : Type} (queues : QueueName → List R) : QueueName → Queue R := fun q => ⟨queues q, 0⟩

section Shares
variable {R : Type} [RandomRing R]

/-! ## Shares -/

/-- Draw from `self`. -/
def drawSelf : Helper R R := fun s =>
  let (x, rgen) := randomize R .self s.rgen
  (x, { s with rgen := rgen })

/-- `push_back` on a vector of party `p`. -/
def pushTo (q : QueueName) (p : ℕ) (x : R) : Helper R Unit := fun s =>
  ((), { s with queues :=
    Function.update s.queues p (Function.update (s.queues p) q (s.queues p q ++ [x])) })

/-- Value and tag of party `i`. -/
def dealPair (q : QueueName) (i : ℕ) : Helper R (R × R) := do
  let val ← drawSelf
  pushTo q i val
  let tag ← drawSelf
  pushTo q i tag
  pure (val, tag)

/-- `randomShareSecret_Helper`: a sharing of `secret`, whose shares go into the vectors `q`. -/
def randomShareSecret_Helper (q : QueueName) (nP : ℕ) (secret key : R) (keySh : List R) :
    Helper R (MaskShare R) := do
  let drawn ← (List.range' 1 (nP - 1)).mapM (dealPair q)
  let values := 0 :: drawn.map Prod.fst
  let tags := 0 :: drawn.map Prod.snd
  let valn := secret - values.sum
  let tagn := key * secret - tags.sum
  pushTo q nP valn
  pushTo q nP tagn
  pure ⟨zeroShare keySh, ⟨key, keySh, values ++ [valn], tags ++ [tagn]⟩⟩

def randomShare_Helper (nP : ℕ) (key : R) (keySh : List R) : Helper R (MaskShare R) := do
  let secret ← drawSelf
  randomShareSecret_Helper .rand_sh nP secret key keySh

/-- `randomShareWithParty_Helper`: the dealer also gets the secret. -/
def randomShareWithParty_Helper (nP dealer : ℕ) (key : R) (keySh : List R) :
    Helper R (MaskShare R) := do
  let secret ← drawSelf
  let share ← randomShareSecret_Helper .rand_sh_party nP secret key keySh
  pushTo .rand_sh_party dealer secret
  pure share

/-- `randomShare_Party`: value and tag from the vector `q`. -/
def randomShare_Party (q : QueueName) (key : R) : Draw R (MaskShare R) := do
  let value ← pop q
  let tag ← pop q
  pure ⟨⟨key, value, tag⟩, default⟩

def randomShareSecret_Party (key : R) : Draw R (MaskShare R) := randomShare_Party .rand_sh_sec key

def randomShareWithParty_Party (key : R) : Draw R (MaskShare R) :=
  randomShare_Party .rand_sh_party key

/-- `randomShareWithParty_Dealer`. Also returns `secret`. -/
def randomShareWithParty_Dealer (key : R) : Draw R (MaskShare R × R) := do
  let share ← randomShare_Party .rand_sh_party key
  let secret ← pop .rand_sh_party
  pure (share, secret)

/-! ## Gates -/

/-- The gates that need no sharing, the same at every party. -/
def linearGate (gates : PreprocGates R Empty) : Op R → Option (PreprocGate R Empty)
  | .kAdd a b => some ⟨(gates a).mask + (gates b).mask, .gate⟩
  | .kConstAdd a _ => some ⟨(gates a).mask, .gate⟩
  | .kConstMul a cval => some ⟨(gates a).mask * cval, .gate⟩
  | .kSub a b => some ⟨(gates a).mask - (gates b).mask, .gate⟩
  | _ => none

/-- One gate at the trusted party. -/
def helperGate (nP : ℕ) (key : R) (keySh : List R) (input_pid_map : ℕ → ℕ)
    (gates : PreprocGates R Empty) (gate : Gate R) : Helper R (PreprocGates R Empty) :=
  let shareSecret := fun x => randomShareSecret_Helper .rand_sh_sec nP x key keySh
  match gate.op with
  | .kInp => do
    let pid := input_pid_map gate.out
    let mask ← randomShareWithParty_Helper nP pid key keySh
    pure (Function.update gates gate.out ⟨mask, .input pid mask.secret⟩)
  | .kMul a b => do
    let tp_prod := (gates a).secret * (gates b).secret
    let rand_mask ← randomShare_Helper nP key keySh
    let mask_product ← shareSecret tp_prod
    pure (Function.update gates gate.out ⟨rand_mask, .mult mask_product⟩)
  | .kMul3 a b _ => do
    -- `tp_ac`, `tp_bc` and `tp_abc` are computed too, and then not used
    let tp_ab := (gates a).secret * (gates b).secret
    let rand_mask ← randomShare_Helper nP key keySh
    let mask_ab ← shareSecret tp_ab
    let mask_ac ← shareSecret tp_ab
    let mask_bc ← shareSecret tp_ab
    let mask_abc ← shareSecret tp_ab
    pure (Function.update gates gate.out ⟨rand_mask, .mult3 ⟨mask_ab, mask_ac, mask_bc, mask_abc⟩⟩)
  | op => pure (setGate gates gate.out (linearGate gates op))

/-- One gate at party `id`. -/
def partyGate (id : ℕ) (key : R) (input_pid_map : ℕ → ℕ) (gates : PreprocGates R Empty)
    (gate : Gate R) : Draw R (PreprocGates R Empty) :=
  match gate.op with
  | .kInp => do
    let pid := input_pid_map gate.out
    if id = pid then
      let (mask, mask_value) ← randomShareWithParty_Dealer key
      pure (Function.update gates gate.out ⟨mask, .input pid mask_value⟩)
    else
      let mask ← randomShareWithParty_Party key
      pure (Function.update gates gate.out ⟨mask, .input pid 0⟩)
  | .kMul _ _ => do
    let rand_mask ← randomShare_Party .rand_sh key
    let mask_product ← randomShareSecret_Party key
    pure (Function.update gates gate.out ⟨rand_mask, .mult mask_product⟩)
  | .kMul3 _ _ _ => do
    let rand_mask ← randomShare_Party .rand_sh key
    let mask_ab ← randomShareSecret_Party key
    let mask_ac ← randomShareSecret_Party key
    let mask_bc ← randomShareSecret_Party key
    let mask_abc ← randomShareSecret_Party key
    pure (Function.update gates gate.out ⟨rand_mask, .mult3 ⟨mask_ab, mask_ac, mask_bc, mask_abc⟩⟩)
  | op => pure (setGate gates gate.out (linearGate gates op))

/-- The loop over the gates of `setWireMasksHelper`. -/
def helperGates (nP : ℕ) (key : R) (keySh : List R) (input_pid_map : ℕ → ℕ)
    (circ : LevelOrderedCircuit R) : Helper R (PreprocGates R Empty) :=
  circ.gates_by_level.foldlM (fun gates level =>
    level.foldlM (helperGate nP key keySh input_pid_map) gates) fun _ => default

/-- The loop over the gates of `setWireMasksParty`. -/
def partyGates (id : ℕ) (key : R) (input_pid_map : ℕ → ℕ) (circ : LevelOrderedCircuit R) :
    Draw R (PreprocGates R Empty) :=
  circ.gates_by_level.foldlM (fun gates level =>
    level.foldlM (partyGate id key input_pid_map) gates) fun _ => default

end Shares

/-! ## The evaluator -/

section Run
variable {M : Modulus}

/-- The key setup at the head of both walks: over the field, then over bits. -/
def keySetup (nP id : ℕ) (rgen : RandGenPool) : Keys M × RandGenPool :=
  let ((key, keySh), s) := keyGen (R := Field M) nP id ⟨rgen, readQueues [] [] []⟩
  let ((bkey, bkeySh), s') := keyGen (R := BoolRing) nP id ⟨s.rgen, readQueues [] [] []⟩
  (⟨key, keySh, bkey, bkeySh⟩, s'.rgen)

/-- What an evaluator holds when `run` is over, with its streams and vectors. -/
structure Outcome (M : Modulus) where
  keys : Keys M
  gates : PreprocGates (Field M) Empty
  rgen : RandGenPool
  /-- The vectors of each party, at the trusted party. -/
  sent : ℕ → QueueName → List (Field M)
  /-- The vectors a party has received, over the field and over bits. -/
  arith : QueueName → Queue (Field M)
  bool : QueueName → Queue BoolRing

def setWireMasksHelper (nP : ℕ) (input_pid_map : ℕ → ℕ) (circ : LevelOrderedCircuit (Field M))
    (rgen : RandGenPool) : Outcome M :=
  let (k, rgen) := keySetup nP 0 rgen
  let (gates, s) := helperGates nP k.key k.keySh input_pid_map circ (noQueues rgen)
  ⟨k, gates, s.rgen, s.queues, unread fun _ => [], unread fun _ => []⟩

/-- `setWireMasksParty`. The vectors over bits are left as they are. -/
def setWireMasksParty (nP id : ℕ) (input_pid_map : ℕ → ℕ) (circ : LevelOrderedCircuit (Field M))
    (rgen : RandGenPool) (arith : QueueName → Queue (Field M)) (bool : QueueName → Queue BoolRing) :
    Outcome M :=
  let (k, rgen) := keySetup nP id rgen
  let (gates, s) := partyGates id k.key input_pid_map circ ⟨rgen, arith⟩
  ⟨k, gates, s.rgen, fun _ _ => [], s.queues, bool⟩

/-- The three messages for party `p`: the lengths, the vectors over the field, those over bits. -/
def sendQueues (p : ℕ) (arith : QueueName → Queue (Field M)) (bool : QueueName → Queue BoolRing) :
    Proc ℕ Unit := do
  Proc.sendTo p (encodeWords SIZE_T (queueLengths arith ++ queueLengths bool))
  Proc.sendTo p ((fieldCodec M).encode (flattenQueues arith))
  Proc.sendTo p (rawBits.encode (flattenQueues bool))

/-- `OfflineEvaluator::setWireMasks`, which is all `run` does. -/
def OfflineEvaluator.run (nP id : ℕ) (input_pid_map : ℕ → ℕ) (circ : LevelOrderedCircuit (Field M))
    (rgen : RandGenPool) : Proc ℕ (Outcome M) :=
  if id = 0 then do
    let r := setWireMasksHelper nP input_pid_map circ rgen
    (List.range' 1 nP).forM fun p => sendQueues p (unread (r.sent p)) r.bool
    pure r
  else do
    let lengths ← decodeWords SIZE_T 8 <$> Proc.recvFrom 0 (SIZE_T * 8)
    let arith_comm := lengths.getD 0 0
    let bool_comm := lengths.getD 4 0
    let offline_arith_comm ←
      (fieldCodec M).decode arith_comm <$> Proc.recvFrom 0 ((fieldCodec M).size arith_comm)
    let offline_bool_comm ←
      rawBits.decode bool_comm <$> Proc.recvFrom 0 (rawBits.size bool_comm)
    pure (setWireMasksParty nP id input_pid_map circ rgen (splitQueues offline_arith_comm lengths)
      (splitQueues offline_bool_comm (lengths.drop 4)))

end Run

end QSync.AssistedMPC
