import Mathlib.Data.List.AList
import Mathlib.Data.List.Sort
import Mathlib.Data.Finset.Basic
import QSync.Io.AesCtr

/-! # The broadcast bus (bcast_bus.h, bcast_bus.cpp)

One bus per party: a send state per target and a receive state per sender, each step of the code on
the buffers as they travel. The 32-bit and 16-bit counters wrap where the code lets them.

* `send_start`, `send_retain`, `send_datagram`, `send_end`: the steps of `BcastBus::send`.
* `handle_data_`, `drain_pending_locked_`, `recv`: reassembly and reading.
* `compute_missing_locked_`, `drain_nack_state_`, `send_nack_`: asking for what is missing.
* `handle_nack_`, `resend_fragment_`, `send_poison_to_target_`, `handle_poison_`: the answers.
-/

namespace QSync.Io
open QSync.Network
set_option autoImplicit false
set_option maxHeartbeats 250000

abbrev MAX_PAYLOAD : ℕ := 1400
abbrev HEADER_SIZE : ℕ := 20
abbrev KIND_DATA : ℕ := 0
abbrev KIND_NACK : ℕ := 1
abbrev KIND_POISON : ℕ := 2
abbrev TX_BUF_CAP_STREAMS : ℕ := 4096

/-! ## Frames -/

/-- The 20 bytes in front of every frame. -/
def header (kind hdr_sender hdr_target seq idx total plen : ℕ) : Bytes :=
  leBytes 4 kind ++ [hdr_sender, hdr_target, 0, 0] ++ leBytes 4 seq ++ leBytes 2 idx ++
    leBytes 2 total ++ leBytes 4 plen

/-- A field of `w` bytes at an offset, as `memcpy` reads it. -/
def field (buf : Bytes) (off w : ℕ) : ℕ := leNat ((buf.drop off).take w)

/-! ## State -/

structure Partial where
  frag_total : ℕ := 0
  received : ℕ := 0
  frags : List Bytes := []
  deriving DecidableEq

structure Chunk where
  bytes : Bytes
  offset : ℕ := 0
  deriving DecidableEq

structure TxRecord where
  frag_total : ℕ := 0
  payload_len : ℕ := 0
  /-- The exact bytes that egressed. -/
  payload : Bytes := []
  nack_count : ℕ := 0
  deriving DecidableEq

structure NackRec where
  attempts : ℕ := 0
  last_nack_ns : ℕ := 0
  deriving DecidableEq

/-- Why a pipe is given up. -/
inductive PoisonReason
  | exceeded (peer s i : ℕ)
  | evicted (peer s i : ℕ)
  | no_progress (k sender s i : ℕ)
  | peer_poison (reason : Bytes)
  deriving DecidableEq

def ascii (s : String) : Bytes := s.toList.map Char.toNat

def PoisonReason.text : PoisonReason → Bytes
  | exceeded peer s i => ascii ("peer " ++ toString peer ++ " exceeded retx budget on (s=" ++
      toString s ++ ", i=" ++ toString i ++ ")")
  | evicted peer s i => ascii ("NACK for evicted (peer=" ++ toString peer ++ ", s=" ++
      toString s ++ ", i=" ++ toString i ++ ")")
  | no_progress k sender s i => ascii ("no progress after k=" ++ toString k ++ " NACKs (sender=" ++
      toString sender ++ " s=" ++ toString s ++ " i=" ++ toString i ++ ")")
  | peer_poison reason => ascii "peer POISON: " ++ reason

structure TxState where
  local_seq : ℕ := 0
  tx_buf : ℕ × ℕ → Option TxRecord := fun _ => none
  tx_buf_order : List ℕ := []
  streams_in_flight : Finset ℕ := ∅
  poisoned : Option PoisonReason := none

structure RxState where
  next_rx_seq : ℕ := 0
  max_seen_seq : ℕ := 0
  any_seen : Bool := false
  pending : AList (fun _ : ℕ => Partial) := ∅
  rx : List Chunk := []
  rx_bytes : ℕ := 0
  nack_state : AList (fun _ : ℕ × ℕ => NackRec) := ∅
  poisoned : Option PoisonReason := none

/-- What a bus is constructed with. Party ids are single bytes. -/
structure Config where
  lib : CryptoLib
  key_seed : ℕ
  nP_ : ℕ
  self_id_ : ℕ
  ip_table_ : ℕ → ℕ
  retx_k_send_ : ℕ := 5
  retx_k_recv_ : ℕ := 5
  cycle_ns_ : ℕ := 100000000
  nP_le : nP_ ≤ 256
  self_lt : self_id_ < nP_

namespace Config

/-- `tx_[t].pair_key`. -/
def pair_key (C : Config) (t : ℕ) : Bytes := derive_pair_key C.lib C.key_seed C.self_id_ t

end Config

/-! ## Sending -/

/-- A call of `send` between two of its fragments. -/
structure SendCall where
  seq : ℕ
  data : Bytes
  i : ℕ := 0
  off : ℕ := 0
  deriving DecidableEq

/-- `total` for `len` bytes: a `size_t` quotient cut to 32 bits. -/
def total (len : ℕ) : ℕ :=
  if len = 0 then 1 else (len + MAX_PAYLOAD - 1) % 2 ^ 64 / MAX_PAYLOAD % 2 ^ 32

namespace SendCall

def chunk (c : SendCall) : Bytes := (c.data.drop c.off).take MAX_PAYLOAD

def idx (c : SendCall) : ℕ := c.i % 2 ^ 16

def nonce (C : Config) (dst : ℕ) (c : SendCall) : Bytes :=
  build_nonce 0 C.self_id_ dst c.seq c.idx

/-- The payload as it egresses. -/
def payload (C : Config) (dst : ℕ) (c : SendCall) : Bytes :=
  crypt C.lib (C.pair_key dst) (c.nonce C dst) c.chunk

/-- `buf`, `HEADER_SIZE + chunk` bytes of it. -/
def buf (C : Config) (dst : ℕ) (c : SendCall) : Bytes :=
  header KIND_DATA C.self_id_ dst c.seq c.idx (total c.data.length % 2 ^ 16) c.chunk.length ++
    c.payload C dst

/-- The record kept of the fragment. -/
def record (C : Config) (dst : ℕ) (c : SendCall) : TxRecord :=
  { frag_total := total c.data.length % 2 ^ 16
    payload_len := c.chunk.length
    payload := c.payload C dst }

/-- The loop goes on: `i < total`. -/
def more (c : SendCall) : Bool := c.i < total c.data.length

end SendCall

/-- Allocate the stream number and mark it in flight. -/
def send_start (ts : TxState) (data : Bytes) : TxState × SendCall :=
  ({ ts with
      local_seq := (ts.local_seq + 1) % 2 ^ 32
      streams_in_flight := insert ts.local_seq ts.streams_in_flight },
    { seq := ts.local_seq, data := data })

/-- Drop the oldest streams while there are more than `TX_BUF_CAP_STREAMS`. -/
def evict : List ℕ → (ℕ × ℕ → Option TxRecord) → List ℕ × (ℕ × ℕ → Option TxRecord)
  | [], tx_buf => ([], tx_buf)
  | old :: order, tx_buf =>
    if (old :: order).length > TX_BUF_CAP_STREAMS then
      evict order (fun key => if key.1 = old then none else tx_buf key)
    else (old :: order, tx_buf)

/-- Keep the record of the next fragment; with the first one the stream joins the FIFO. -/
def send_retain (C : Config) (dst : ℕ) (ts : TxState) (c : SendCall) : TxState :=
  let tx_buf := Function.update ts.tx_buf (c.seq, c.idx) (some (c.record C dst))
  if c.i = 0 then
    let kept := evict (ts.tx_buf_order ++ [c.seq]) tx_buf
    { ts with tx_buf_order := kept.1, tx_buf := kept.2 }
  else { ts with tx_buf := tx_buf }

/-- After `sendto`: on success the next fragment is due, after `EAGAIN` this one again. An empty
message leaves the loop after its one fragment, which `more` says as well. -/
def send_datagram (c : SendCall) (ok : Bool) : SendCall :=
  if ok then { c with i := c.i + 1, off := c.off + c.chunk.length } else c

def send_end (ts : TxState) (c : SendCall) : TxState :=
  { ts with streams_in_flight := ts.streams_in_flight.erase c.seq }

/-! ## Receiving -/

def resize (frags : List Bytes) (total : ℕ) : List Bytes :=
  frags.take total ++ List.replicate (total - frags.length) []

/-- One datagram for the partial message `p`. -/
def Partial.add (p : Partial) (idx total : ℕ) (payload : Bytes) : Partial :=
  let p := if p.frag_total = 0 then
      { p with frag_total := total, frags := resize p.frags total } else p
  if idx < p.frag_total then
    if (p.frags.getD idx []).isEmpty then
      { p with
        frags := if payload.length > 0 then p.frags.set idx payload else p.frags
        received := (p.received + 1) % 2 ^ 32 }
    else p
  else p

/-- Hand complete messages to the reader, in stream order. Every round takes one entry out of
`pending`, so its size bounds the rounds. -/
def drain_pending : ℕ → RxState → RxState
  | 0, rs => rs
  | fuel + 1, rs =>
    match rs.pending.lookup rs.next_rx_seq with
    | none => rs
    | some p =>
      if p.received ≠ p.frag_total then rs
      else
        let bytes := p.frags.flatten
        drain_pending fuel
          { rs with
            rx := if bytes.length > 0 then rs.rx ++ [{ bytes := bytes }] else rs.rx
            rx_bytes := rs.rx_bytes + bytes.length
            pending := rs.pending.erase rs.next_rx_seq
            next_rx_seq := (rs.next_rx_seq + 1) % 2 ^ 32 }

def drain_pending_locked_ (rs : RxState) : RxState := drain_pending rs.pending.entries.length rs

/-- The statistics-free head of the locked part of `handle_data_`. -/
def RxState.note_arrival (rs : RxState) (seq idx : ℕ) : RxState :=
  { rs with
    max_seen_seq := if !rs.any_seen || decide (seq > rs.max_seen_seq) then seq else rs.max_seen_seq
    any_seen := true
    nack_state := rs.nack_state.erase (seq, idx) }

/-- The locked part of `handle_data_`, for a decrypted payload. -/
def RxState.accept (rs : RxState) (seq idx total : ℕ) (payload : Bytes) : RxState :=
  let rs := rs.note_arrival seq idx
  if seq < rs.next_rx_seq then rs
  else if total = 1 ∧ seq = rs.next_rx_seq then
    drain_pending_locked_
      { rs with
        rx := if payload.length > 0 then rs.rx ++ [{ bytes := payload }] else rs.rx
        rx_bytes := rs.rx_bytes + payload.length
        next_rx_seq := (rs.next_rx_seq + 1) % 2 ^ 32 }
  else
    let p := (rs.pending.lookup seq).getD {}
    drain_pending_locked_ { rs with pending := rs.pending.insert seq (p.add idx total payload) }

/-- Datagrams for other targets are only witnessed; here they change nothing. -/
def handle_data_ (C : Config) (rx_ : ℕ → RxState) (buf : Bytes) : ℕ → RxState :=
  let hdr_sender := field buf 4 1
  let hdr_target := field buf 5 1
  if hdr_sender = C.self_id_ ∨ hdr_sender ≥ C.nP_ ∨ hdr_target ≥ C.nP_ then rx_
  else
    let seq := field buf 8 4
    let idx := field buf 12 2
    let total := field buf 14 2
    let payload_len := field buf 16 4
    if buf.length ≠ HEADER_SIZE + payload_len then rx_
    else if hdr_target ≠ C.self_id_ then rx_
    else
      let payload := crypt C.lib (C.pair_key hdr_sender)
        (build_nonce 0 hdr_sender C.self_id_ seq idx) (buf.drop HEADER_SIZE)
      Function.update rx_ hdr_sender ((rx_ hdr_sender).accept seq idx total payload)

/-- Copy `remaining` bytes from the front of the queue. `none`: the queue is empty. -/
def take_rx : ℕ → List Chunk → Option (Bytes × List Chunk)
  | 0, rx => some ([], rx)
  | _ + 1, [] => none
  | remaining + 1, front :: rx =>
    let avail := front.bytes.length - front.offset
    let take := min (remaining + 1) avail
    let dst := (front.bytes.drop front.offset).take take
    if front.offset + take = front.bytes.length then
      (take_rx (remaining + 1 - take) rx).map fun r => (dst ++ r.1, r.2)
    else some (dst, { front with offset := front.offset + take } :: rx)

/-- `none`: the call blocks, or throws on a poisoned pipe. -/
def recv (rs : RxState) (len : ℕ) : Option (Bytes × RxState) :=
  if rs.poisoned.isSome ∨ rs.rx_bytes < len then none
  else (take_rx len rs.rx).map fun r => (r.1, { rs with rx := r.2, rx_bytes := rs.rx_bytes - len })

/-! ## Missing fragments -/

/-- `try_emplace`, with the time of the record set when it is new. -/
def note_missing (now : ℕ) (nack_state : AList (fun _ : ℕ × ℕ => NackRec)) (key : ℕ × ℕ) :
    AList (fun _ : ℕ × ℕ => NackRec) :=
  if key ∈ nack_state then nack_state else nack_state.insert key { last_nack_ns := now }

def missing_of (pending : AList (fun _ : ℕ => Partial)) (s : ℕ) : List (ℕ × ℕ) :=
  match pending.lookup s with
  | none => [(s, 0)]
  | some part =>
    ((List.range part.frag_total).filter fun i => (part.frags.getD i []).isEmpty).map fun i => (s, i)

/-- `none`: `s <= max_seen_seq` holds for every 32-bit `s`, and the scan does not end. -/
def compute_missing_locked_ (now : ℕ) (rs : RxState) : Option RxState :=
  if !rs.any_seen then some rs
  else if rs.max_seen_seq + 1 = 2 ^ 32 then none
  else
    let streams := List.range' rs.next_rx_seq (rs.max_seen_seq + 1 - rs.next_rx_seq)
    some { rs with
      nack_state := (streams.flatMap (missing_of rs.pending)).foldl (note_missing now) rs.nack_state }

/-- The test that a record is no longer needed. -/
def satisfied (rs : RxState) (key : ℕ × ℕ) : Bool :=
  decide (key.1 < rs.next_rx_seq) ||
    match rs.pending.lookup key.1 with
    | none => false
    | some p => decide (p.frag_total > 0) && decide (key.2 < p.frags.length) &&
        !(p.frags.getD key.2 []).isEmpty

/-- Where the loop over the records stands. -/
structure NackScan where
  nack_state : AList (fun _ : ℕ × ℕ => NackRec)
  due : List (ℕ × ℕ) := []
  poison_reason : Option PoisonReason := none

/-- One record of the loop; nothing happens any more once a poison reason was found. -/
def scan_record (C : Config) (sender : ℕ) (rs : RxState) (now : ℕ) (acc : NackScan)
    (key : ℕ × ℕ) : NackScan :=
  if acc.poison_reason.isSome then acc
  else
    match acc.nack_state.lookup key with
    | none => acc
    | some r =>
      if satisfied rs key then { acc with nack_state := acc.nack_state.erase key }
      else if r.last_nack_ns = 0 ∨ C.cycle_ns_ ≤ (now + 2 ^ 64 - r.last_nack_ns) % 2 ^ 64 then
        if C.retx_k_recv_ ≤ r.attempts then
          { acc with poison_reason := some (.no_progress C.retx_k_recv_ sender key.1 key.2) }
        else
          { acc with
            due := acc.due ++ [key]
            nack_state := acc.nack_state.insert key
              { attempts := r.attempts + 1, last_nack_ns := now } }
      else acc

/-- The order of the keys of `nack_state`. -/
def keyLe (a b : ℕ × ℕ) : Prop := a.1 < b.1 ∨ a.1 = b.1 ∧ a.2 ≤ b.2

instance : DecidableRel keyLe := fun a b => by unfold keyLe; infer_instance

/-- The new receive state and the fragments asked for, with the two clock readings of the call. -/
def drain_nack_state_ (C : Config) (sender now₁ now₂ : ℕ) (rs : RxState) :
    Option (RxState × List (ℕ × ℕ)) :=
  if rs.poisoned.isSome then some (rs, [])
  else
    (compute_missing_locked_ now₁ rs).map fun rs =>
      let acc := (rs.nack_state.keys.insertionSort keyLe).foldl (scan_record C sender rs now₂)
        { nack_state := rs.nack_state }
      ({ rs with nack_state := acc.nack_state, poisoned := acc.poison_reason }, acc.due)

def send_nack_ (C : Config) (missing_sender missing_target seq idx : ℕ) : Bytes :=
  header KIND_NACK C.self_id_ missing_sender 0 0 0 12 ++
    ([missing_sender, missing_target, 0, 0] ++ leBytes 4 seq ++ leBytes 2 idx ++ [0, 0])

/-! ## Retransmission -/

def resend_fragment_ (C : Config) (target seq idx : ℕ) (rcd : TxRecord) : Bytes :=
  header KIND_DATA C.self_id_ target seq idx rcd.frag_total rcd.payload_len ++
    rcd.payload.take rcd.payload_len

def send_poison_to_target_ (C : Config) (target : ℕ) (reason : PoisonReason) : Bytes :=
  let text := reason.text.take MAX_PAYLOAD
  header KIND_POISON C.self_id_ target 0 0 0 text.length ++ text

/-- What a NACK leads to. -/
inductive NackReply
  | silent
  | resend (target seq idx : ℕ) (rcd : TxRecord)
  | poison (target : ℕ) (reason : PoisonReason)

/-- The part of `handle_nack_` on one pipe: the new state and the reply. -/
def TxState.handle_nack (C : Config) (target : ℕ) (ts : TxState) (seq idx : ℕ) :
    TxState × NackReply :=
  if ts.poisoned.isSome then (ts, .silent)
  else
    match ts.tx_buf (seq, idx) with
    | some rcd =>
      let rcd := { rcd with nack_count := (rcd.nack_count + 1) % 2 ^ 32 }
      let ts := { ts with tx_buf := Function.update ts.tx_buf (seq, idx) (some rcd) }
      if rcd.nack_count > C.retx_k_send_ then
        let reason := PoisonReason.exceeded target seq idx
        ({ ts with poisoned := some reason }, .poison target reason)
      else (ts, .resend target seq idx rcd)
    | none =>
      if seq ≥ ts.local_seq ∨ seq ∈ ts.streams_in_flight then (ts, .silent)
      else
        let reason := PoisonReason.evicted target seq idx
        ({ ts with poisoned := some reason }, .poison target reason)

/-- A NACK frame from the address `src`. -/
def handle_nack_ (C : Config) (tx_ : ℕ → TxState) (buf : Bytes) (src : ℕ) :
    (ℕ → TxState) × NackReply :=
  if buf.length < HEADER_SIZE + 12 then (tx_, .silent)
  else if field buf 5 1 ≠ C.self_id_ then (tx_, .silent)
  else
    let missing_sender := field buf HEADER_SIZE 1
    let missing_target := field buf (HEADER_SIZE + 1) 1
    let missing_seq := field buf (HEADER_SIZE + 4) 4
    let missing_idx := field buf (HEADER_SIZE + 8) 2
    if missing_sender ≠ C.self_id_ then (tx_, .silent)
    else if missing_target ≥ C.nP_ ∨ missing_target = C.self_id_ then (tx_, .silent)
    else if src ≠ C.ip_table_ missing_target then (tx_, .silent)
    else
      let r := (tx_ missing_target).handle_nack C missing_target missing_seq missing_idx
      (Function.update tx_ missing_target r.1, r.2)

def handle_poison_ (C : Config) (rx_ : ℕ → RxState) (buf : Bytes) : ℕ → RxState :=
  let hdr_sender := field buf 4 1
  if field buf 5 1 ≠ C.self_id_ then rx_
  else if hdr_sender ≥ C.nP_ ∨ hdr_sender = C.self_id_ then rx_
  else
    let plen := if field buf 16 4 > MAX_PAYLOAD then 0 else field buf 16 4
    if buf.length < HEADER_SIZE + plen then rx_
    else
      let reason := PoisonReason.peer_poison ((buf.drop HEADER_SIZE).take plen)
      let rs := rx_ hdr_sender
      Function.update rx_ hdr_sender { rs with poisoned := some (rs.poisoned.getD reason) }

end QSync.Io
