import QSync.Io.Delivery
import QSync.Utils.BitPacking

/-! # Typed messages over the broadcast bus

`NetIOMP::send` and `NetIOMP::recv` of bytes, of field elements and of bits (`io/netmp.h`), over
`BcastBus::recv`. The sender's calls append to the log of the pipe; the receiver reads the byte
stream of what is unread (`Readable`), which on a pipe that has delivered everything is the log
(`InStep.readable`).
-/

namespace QSync.Io
open QSync.Network Buffers
set_option autoImplicit false
set_option maxHeartbeats 250000

structure NetIOMP where
  party : ℤ
  nP : ℤ

namespace NetIOMP

/-- The guard of `BcastBus::send` and `BcastBus::recv`. -/
def no_peer (io : NetIOMP) (other : ℤ) : Prop := other < 0 ∨ other ≥ io.nP ∨ other = io.party

instance (io : NetIOMP) (other : ℤ) : Decidable (io.no_peer other) := by
  unfold no_peer
  infer_instance

/-- `send(int, const void*, size_t)`: `log` has the messages given to the bus for `dst`. -/
def send (io : NetIOMP) (dst : ℤ) (data : Bytes) (log : List Bytes) : List Bytes :=
  if dst ≠ -1 ∧ dst ≠ io.party then
    if io.no_peer dst then log else log ++ [data]
  else log

/-- `recv(int, void*, size_t)`: into the buffer `data`, all of it. -/
def recv (io : NetIOMP) (src : ℤ) (data : Bytes) (rs : RxState) : Option (Bytes × RxState) :=
  if src ≠ -1 ∧ src ≠ io.party then
    if io.no_peer src then some (data, rs) else Io.recv rs data.length
  else some (data, rs)

/-- `NTL::BytesFromZZ`: the low `n` bytes, least significant first. -/
def BytesFromZZ (a n : ℕ) : Bytes := (List.range n).map fun i => a / 256 ^ i % 256

/-- `NTL::ZZFromBytes`. -/
def ZZFromBytes (p : Bytes) : ℕ := leNat p

/-- The loop of `send` over field elements: `num` elements, `FIELDSIZE` bytes apart. -/
def serialize {M : Modulus} (data : List (Field M)) (length : ℕ) : Option Bytes :=
  let num := (length + FIELDSIZE - 1) / FIELDSIZE
  (List.range num).foldlM (fun serialized i => do
    let x ← data[i]?
    copyTo serialized (i * FIELDSIZE) (BytesFromZZ x.val FIELDSIZE)) (List.replicate length 0)

/-- The loop of `recv` over field elements: `conv` to `ZZ_p` reduces. -/
def deserialize {M : Modulus} (serialized : Bytes) (data : List (Field M)) (length : ℕ) :
    Option (List (Field M)) :=
  let num := (length + FIELDSIZE - 1) / FIELDSIZE
  (List.range num).foldlM (fun data i => do
    let p ← readAt serialized (i * FIELDSIZE) FIELDSIZE
    store data i ((ZZFromBytes p : ℕ) : Field M)) data

/-- `send(int, const NTL::ZZ_p*, size_t)`; `length` is in bytes. -/
def send_field {M : Modulus} (io : NetIOMP) (dst : ℤ) (data : List (Field M)) (length : ℕ)
    (log : List Bytes) : Option (List Bytes) := do
  let serialized ← serialize data length
  pure (io.send dst serialized log)

/-- `recv(int, NTL::ZZ_p*, size_t)`; `length` is in bytes. -/
def recv_field {M : Modulus} (io : NetIOMP) (src : ℤ) (data : List (Field M)) (length : ℕ)
    (rs : RxState) : Option (List (Field M) × RxState) := do
  let (serialized, rs) ← io.recv src (List.replicate length 0) rs
  let data ← deserialize serialized data length
  pure (data, rs)

/-- `sendBool`: the bits in words of 64, each sent as its 8 bytes. -/
def sendBool (io : NetIOMP) (dst : ℤ) (data : List Bool) (len : ℕ) (log : List Bytes) :
    Option (List Bytes) :=
  pack_loop 64 int_incr (fun log tmp => io.send dst (leBytes 8 tmp) log) data len len 0 log

/-- `uint64_t tmp = 0; recv(src, &tmp, 8);` -/
def recv_word (io : NetIOMP) (src : ℤ) (rs : RxState) : Option (ℕ × RxState) :=
  (io.recv src (leBytes 8 0) rs).map fun r => (leNat r.1, r.2)

def recvBool (io : NetIOMP) (src : ℤ) (data : List Bool) (len : ℕ) (rs : RxState) :
    Option (List Bool × RxState) :=
  (unpack_loop 64 int_incr (io.recv_word src) len len 0 rs data).map Prod.swap

end NetIOMP

/-! ## The receiver as a byte stream -/

/-- `stream` is there to be read. -/
structure Readable (rs : RxState) (stream : Bytes) : Prop where
  live : rs.poisoned = none
  offsets : ∀ c ∈ rs.rx, c.offset ≤ c.bytes.length
  rx_bytes : rs.rx_bytes = stream.length
  unread_eq : unread rs = stream

/-- `BcastBus::recv` takes the first bytes and leaves the others. -/
theorem Readable.recv {rs : RxState} {b rest : Bytes} (h : Readable rs (b ++ rest)) :
    ∃ rs', Io.recv rs b.length = some (b, rs') ∧ Readable rs' rest := by
  have hready : ¬ (rs.poisoned.isSome ∨ rs.rx_bytes < b.length) := by
    rw [h.live, h.rx_bytes, List.length_append]
    simp
  have hun : (rs.rx.flatMap fun c => c.bytes.drop c.offset) = b ++ rest := h.unread_eq
  obtain ⟨rx', h1, h2, h3⟩ := take_rx_spec (n := b.length) h.offsets
    (by rw [hun, List.length_append]; omega)
  rw [hun, List.take_left] at h1
  rw [hun, List.drop_left] at h2
  refine ⟨{ rs with rx := rx', rx_bytes := rs.rx_bytes - b.length }, ?_, h.live, h3, ?_, h2⟩
  · rw [Io.recv, if_neg hready, h1, Option.map_some]
  · dsimp only
    rw [h.rx_bytes, List.length_append, Nat.add_sub_cancel_left]

/-- On a pipe that has delivered everything, the messages not read yet are there to be read. -/
theorem InStep.readable {strict : Prop} {P : Pipe} {L : Link} (h : InStep strict P L)
    (hlive : (L.rx_ P.s).poisoned = none) (hall : (L.rx_ P.s).next_rx_seq = L.log.length)
    {read msgs : List Bytes} (hlog : L.log = read ++ msgs) (hout : L.out = read.flatten) :
    Readable (L.rx_ P.s) msgs.flatten := by
  have hmsgs : (List.range L.log.length).map L.msg = L.log := by
    apply List.ext_getElem
    · simp
    · intro n h1 h2
      simp [Link.msg, List.getD_eq_getElem?_getD, h2]
  have hstream := h.stream
  rw [hall, List.flatMap_def, hmsgs, hout, hlog, List.flatten_append] at hstream
  have hun := List.append_cancel_left hstream
  exact ⟨hlive, h.offsets, hun ▸ h.rx_bytes, hun⟩

/-- Two different parties of one run. -/
structure Peers (S T : NetIOMP) : Prop where
  same : S.nP = T.nP
  ne : S.party ≠ T.party
  sender : 0 ≤ S.party ∧ S.party < S.nP
  receiver : 0 ≤ T.party ∧ T.party < T.nP

section Peers
variable {S T : NetIOMP}

theorem Peers.send (h : Peers S T) (data : Bytes) (log : List Bytes) :
    S.send T.party data log = log ++ [data] := by
  obtain ⟨hsame, hne, hs, ht⟩ := h
  have hpeer : ¬ S.no_peer T.party := by
    unfold NetIOMP.no_peer
    omega
  rw [NetIOMP.send, if_pos ⟨by omega, hne.symm⟩, if_neg hpeer]

theorem Peers.recv (h : Peers S T) (data : Bytes) (rs : RxState) :
    T.recv S.party data rs = Io.recv rs data.length := by
  obtain ⟨hsame, hne, hs, ht⟩ := h
  have hpeer : ¬ T.no_peer S.party := by
    unfold NetIOMP.no_peer
    omega
  rw [NetIOMP.recv, if_pos ⟨by omega, hne⟩, if_neg hpeer]

end Peers

/-! ## Field elements -/

namespace NetIOMP
variable {M : Modulus}

theorem BytesFromZZ_eq {a n : ℕ} (h : a < 256 ^ n) : BytesFromZZ a n = leBytes n a := by
  induction n, a using leBytes.induct with
  | case1 a => rfl
  | case2 a =>
    have hlt : a < 256 := by simpa using h
    simp [BytesFromZZ, leBytes, Nat.mod_eq_of_lt hlt]
  | case3 n a ih =>
    have hdiv : a / 256 < 256 ^ (n + 1) := by
      rw [Nat.div_lt_iff_lt_mul (by decide)]
      rwa [pow_succ] at h
    have hshift : ∀ i, a / 256 ^ (i + 1) % 256 = a / 256 / 256 ^ i % 256 := by
      intro i
      rw [pow_succ', Nat.div_div_eq_div_mul]
    rw [leBytes, ← ih hdiv, BytesFromZZ, List.range_succ_eq_map, List.map_cons, List.map_map,
      pow_zero, Nat.div_one]
    exact congrArg (List.cons (a % 256)) (List.map_congr_left fun i _ => hshift i)

/-- `num`, for a length of `k` field elements. -/
theorem num_eq (k : ℕ) : (FIELDSIZE * k + FIELDSIZE - 1) / FIELDSIZE = k := by
  unfold FIELDSIZE
  omega

theorem serializeField_concat (xs : List (Field M)) (x : Field M) :
    serializeField (xs ++ [x]) = serializeField xs ++ leBytes FIELDSIZE x.val := by
  simp [serializeField, encodeWords]

/-- The sender's loop writes the wire format of the protocol. -/
theorem serialize_eq (data : List (Field M)) :
    serialize data (FIELDSIZE * data.length) = some (serializeField data) := by
  let inv : ℕ → Bytes := fun i =>
    serializeField (data.take i) ++ List.replicate (FIELDSIZE * (data.length - i)) 0
  let step : Bytes → ℕ → Option Bytes := fun serialized i => do
    let x ← data[i]?
    copyTo serialized (i * FIELDSIZE) (BytesFromZZ x.val FIELDSIZE)
  have hturn : ∀ i < data.length, step (inv i) i = pure (inv (i + 1)) := by
    intro i hi
    have hoff : (serializeField (data.take i)).length = i * FIELDSIZE := by
      rw [serializeField_length, List.length_take, Nat.min_eq_left hi.le, Nat.mul_comm]
    have hfree : inv i = serializeField (data.take i) ++ List.replicate FIELDSIZE 0 ++
        List.replicate (FIELDSIZE * (data.length - (i + 1))) 0 := by
      have hsplit : FIELDSIZE * (data.length - i) =
          FIELDSIZE + FIELDSIZE * (data.length - (i + 1)) := by
        unfold FIELDSIZE
        omega
      rw [List.append_assoc, List.replicate_append_replicate, ← hsplit]
    have hsize : (BytesFromZZ data[i].val FIELDSIZE).length =
        (List.replicate FIELDSIZE 0).length := by
      simp [BytesFromZZ]
    have hnext : inv (i + 1) = serializeField (data.take i) ++ leBytes FIELDSIZE data[i].val ++
        List.replicate (FIELDSIZE * (data.length - (i + 1))) 0 := by
      have htake : data.take (i + 1) = data.take i ++ [data[i]] := by
        rw [List.take_add_one, List.getElem?_eq_getElem hi, Option.toList_some]
      simp only [inv, htake, serializeField_concat]
    simp only [step, List.getElem?_eq_getElem hi, hfree, ← hoff, Option.bind_eq_bind,
      Option.bind_some]
    rw [copyTo_append hsize, BytesFromZZ_eq (field_val_lt _), hnext]
    rfl
  have hloop := foldlM_range inv hturn
  have hinit : inv 0 = List.replicate (FIELDSIZE * data.length) 0 := by
    simp [inv, serializeField, encodeWords]
  have hend : inv data.length = serializeField data := by
    simp [inv]
  rw [hinit, hend] at hloop
  rw [serialize, num_eq]
  exact hloop

theorem decodeWords_eq_map (w num : ℕ) (b : Bytes) :
    decodeWords w num b = (List.range num).map fun i => leNat ((b.drop (i * w)).take w) := by
  induction num generalizing b with
  | zero => rfl
  | succ num ih =>
    have hshift : ∀ i, b.drop ((i + 1) * w) = (b.drop w).drop (i * w) := by
      intro i
      rw [List.drop_drop, Nat.succ_mul, Nat.add_comm]
    rw [decodeWords, ih, List.range_succ_eq_map, List.map_cons, List.map_map, Nat.zero_mul,
      List.drop_zero]
    exact congrArg (List.cons _) (List.map_congr_left fun i _ => by
      simp only [Function.comp_apply, Nat.succ_eq_add_one, hshift])

/-- The receiver's loop reads the wire format of the protocol. -/
theorem deserialize_eq {serialized : Bytes} {data : List (Field M)} (post : List (Field M))
    (h : serialized.length = FIELDSIZE * data.length) :
    deserialize serialized (data ++ post) (FIELDSIZE * data.length) =
      some (deserializeField data.length serialized ++ post) := by
  let elem : ℕ → Field M := fun i =>
    ((leNat ((serialized.drop (i * FIELDSIZE)).take FIELDSIZE) : ℕ) : Field M)
  let step : List (Field M) → ℕ → Option (List (Field M)) := fun buf i => do
    let p ← readAt serialized (i * FIELDSIZE) FIELDSIZE
    store buf i ((ZZFromBytes p : ℕ) : Field M)
  have hturn : ∀ buf, ∀ i < data.length,
      step buf i = modifyAt buf (([] : List (Field M)).length + i) fun _ => elem i := by
    intro buf i hi
    have hle : i * FIELDSIZE + FIELDSIZE ≤ serialized.length := by
      rw [h]
      unfold FIELDSIZE
      omega
    simp only [step, readAt_of_le hle, List.length_nil, Nat.zero_add]
    rfl
  have hloop := foldlM_modifyAt [] data post hturn
  have hall : data.mapIdx (fun i _ => elem i) = deserializeField data.length serialized := by
    rw [deserializeField, decodeWords_eq_map, List.map_map]
    apply List.ext_getElem
    · simp
    · intro i h1 h2
      simp [elem]
  rw [List.nil_append, List.nil_append, hall] at hloop
  rw [deserialize, num_eq]
  exact hloop

end NetIOMP

section Fields
variable {M : Modulus} {S T : NetIOMP}

theorem Peers.send_field (h : Peers S T) (xs : List (Field M)) (log : List Bytes) :
    S.send_field T.party xs (FIELDSIZE * xs.length) log = some (log ++ [serializeField xs]) := by
  rw [NetIOMP.send_field, NetIOMP.serialize_eq]
  simp only [Option.bind_eq_bind, Option.bind_some, h.send]
  rfl

/-- One message of field elements is received as it was sent. -/
theorem Peers.recv_field (h : Peers S T) {xs data : List (Field M)} (hdata : data.length = xs.length)
    (post : List (Field M)) {rs : RxState} {rest : Bytes}
    (hrs : Readable rs (serializeField xs ++ rest)) :
    ∃ rs', T.recv_field S.party (data ++ post) (FIELDSIZE * data.length) rs =
      some (xs ++ post, rs') ∧ Readable rs' rest := by
  obtain ⟨rs', hrecv, hrest⟩ := hrs.recv
  refine ⟨rs', ?_, hrest⟩
  have hlen : (List.replicate (FIELDSIZE * data.length) 0).length = (serializeField xs).length := by
    rw [List.length_replicate, serializeField_length, hdata]
  rw [NetIOMP.recv_field, h.recv, hlen, hrecv]
  simp only [Option.bind_eq_bind, Option.bind_some]
  rw [NetIOMP.deserialize_eq post (by rw [serializeField_length, hdata]), hdata,
    deserializeField_serializeField, Option.bind_some]
  rfl

/-- `recv` of field elements into one buffer after the other. -/
def NetIOMP.recv_fields (io : NetIOMP) (src : ℤ) :
    List (List (Field M)) → RxState → Option (List (List (Field M)) × RxState)
  | [], rs => some ([], rs)
  | data :: bufs, rs => do
    let (xs, rs) ← io.recv_field src data (FIELDSIZE * data.length) rs
    let (lists, rs) ← io.recv_fields src bufs rs
    pure (xs :: lists, rs)

theorem Peers.recv_fields (h : Peers S T) {lists bufs : List (List (Field M))}
    (hbufs : bufs.map List.length = lists.map List.length) {rs : RxState} {rest : Bytes}
    (hrs : Readable rs (lists.flatMap serializeField ++ rest)) :
    ∃ rs', T.recv_fields S.party bufs rs = some (lists, rs') ∧ Readable rs' rest := by
  induction lists generalizing bufs rs with
  | nil =>
    obtain rfl : bufs = [] := by simpa using hbufs
    exact ⟨rs, rfl, hrs⟩
  | cons xs lists ih =>
    obtain ⟨data, bufs, rfl⟩ : ∃ d b, bufs = d :: b := by
      cases bufs with
      | nil => simp at hbufs
      | cons d b => exact ⟨d, b, rfl⟩
    simp only [List.map_cons, List.cons.injEq] at hbufs
    rw [List.flatMap_cons, List.append_assoc] at hrs
    obtain ⟨rs₁, hfirst, hrs₁⟩ := h.recv_field hbufs.1 [] hrs
    obtain ⟨rs', hothers, hrest⟩ := ih hbufs.2 hrs₁
    rw [List.append_nil, List.append_nil] at hfirst
    refine ⟨rs', ?_, hrest⟩
    rw [NetIOMP.recv_fields, hfirst]
    simp only [Option.bind_eq_bind, Option.bind_some, hothers]
    rfl

/-- On a pipe that has delivered everything, what is left are lists of field elements as they were
sent. -/
theorem InStep.recv_fields {strict : Prop} {P : Pipe} {L : Link} (hL : InStep strict P L)
    (hlive : (L.rx_ P.s).poisoned = none) (hall : (L.rx_ P.s).next_rx_seq = L.log.length)
    (h : Peers S T) {read : List Bytes} {lists bufs : List (List (Field M))}
    (hlog : L.log = read ++ lists.map serializeField) (hout : L.out = read.flatten)
    (hbufs : bufs.map List.length = lists.map List.length) :
    ∃ rs', T.recv_fields S.party bufs (L.rx_ P.s) = some (lists, rs') := by
  have hrs := hL.readable hlive hall hlog hout
  rw [← List.flatMap_def, ← List.append_nil (lists.flatMap serializeField)] at hrs
  obtain ⟨rs', hrecv, -⟩ := h.recv_fields hbufs hrs
  exact ⟨rs', hrecv⟩

/-- Lists of field elements of any lengths, sent one after the other and received into buffers of
their lengths, arrive as they were sent, and what follows on the stream is left alone. -/
theorem field_round_trip (M : Modulus) (S T : NetIOMP) (h : Peers S T)
    (lists : List (List (Field M))) (log : List Bytes) :
    ∃ msgs : List Bytes,
      lists.foldlM (fun log xs => S.send_field T.party xs (FIELDSIZE * xs.length) log) log =
        some (log ++ msgs) ∧
      msgs.map List.length = lists.map (fun xs => FIELDSIZE * xs.length) ∧
      (∀ msg ∈ msgs, ∀ b ∈ msg, b < 256) ∧
      ∀ bufs : List (List (Field M)), bufs.map List.length = lists.map List.length →
        ∀ rs rest, Readable rs (msgs.flatten ++ rest) →
          ∃ rs', T.recv_fields S.party bufs rs = some (lists, rs') ∧ Readable rs' rest := by
  refine ⟨lists.map serializeField, ?_, ?_, ?_, ?_⟩
  · induction lists generalizing log with
    | nil => simp
    | cons xs lists ih =>
      rw [List.foldlM_cons, h.send_field]
      simp only [Option.bind_eq_bind, Option.bind_some]
      rw [ih, List.map_cons, List.append_assoc]
      rfl
  · rw [List.map_map]
    exact List.map_congr_left fun xs _ => serializeField_length xs
  · intro msg hmsg
    obtain ⟨xs, -, rfl⟩ := List.mem_map.mp hmsg
    exact serializeField_lt xs
  · intro bufs hbufs rs rest hrs
    rw [← List.flatMap_def] at hrs
    exact h.recv_fields hbufs hrs

/-- Parties 0 and 1 of two; a list of two elements and an empty one. -/
theorem field_round_trip_two :
    ∃ msgs : List Bytes, msgs.map List.length = [16, 0] ∧
      ∃ rs, (⟨1, 2⟩ : NetIOMP).recv_fields 0 [[0, 0], []]
        { rx := msgs.map fun msg => ⟨msg, 0⟩, rx_bytes := 16 } =
          some ([[(5 : Field testModulus), -1], []], rs) := by
  have h : Peers ⟨0, 2⟩ ⟨1, 2⟩ := ⟨rfl, by decide, by decide, by decide⟩
  obtain ⟨msgs, -, hlen, -, hrecv⟩ :=
    field_round_trip testModulus ⟨0, 2⟩ ⟨1, 2⟩ h [[5, -1], []] []
  have hsum : msgs.flatten.length = 16 := by
    rw [List.length_flatten, hlen]
    rfl
  obtain ⟨rs, hrs, -⟩ := hrecv [[0, 0], []] rfl
    { rx := msgs.map fun msg => ⟨msg, 0⟩, rx_bytes := 16 } []
    ⟨rfl, by simp, by rw [List.append_nil, hsum], by simp [unread, List.flatMap_map]⟩
  exact ⟨msgs, hlen, rs, hrs⟩

end Fields

/-! ## Bits -/

section Bits
variable {S T : NetIOMP}

theorem Peers.sendBool (h : Peers S T) {v : List Bool} (hv : v.length < 2 ^ 31)
    (log : List Bytes) :
    S.sendBool T.party v v.length log = some (log ++ (packWords 64 v).map (leBytes 8)) := by
  have happend : ∀ (ts : List ℕ) (log : List Bytes),
      ts.foldl (fun log tmp => S.send T.party (leBytes 8 tmp) log) log =
        log ++ ts.map (leBytes 8) := by
    intro ts
    induction ts with
    | nil => simp
    | cons t ts ih =>
      intro log
      rw [List.foldl_cons, ih, h.send]
      simp
  rw [NetIOMP.sendBool, pack_loop_eq (by decide) (int_counts hv) _ (Nat.zero_le _) le_rfl,
    List.drop_zero, happend]

/-- `recvBool` reads the words in order, and no more. -/
theorem Peers.reads_words (h : Peers S T) (words : List ℕ) {rs : RxState} {rest : Bytes}
    (hrs : Readable rs (words.flatMap (leBytes 8) ++ rest)) :
    ∃ rs', Reads (T.recv_word S.party) rs words rs' ∧ Readable rs' rest := by
  induction words generalizing rs with
  | nil => exact ⟨rs, rfl, hrs⟩
  | cons t words ih =>
    rw [List.flatMap_cons, List.append_assoc] at hrs
    obtain ⟨rs₁, hrecv, hrs₁⟩ := hrs.recv
    obtain ⟨rs', hread, hrest⟩ := ih hrs₁
    refine ⟨rs', ⟨rs₁, ?_, hread⟩, hrest⟩
    rw [leBytes_length] at hrecv
    rw [NetIOMP.recv_word, h.recv, leBytes_length, hrecv, Option.map_some, leNat_leBytes (by decide)]

theorem Peers.recvBool (h : Peers S T) {v data : List Bool} (hv : v.length < 2 ^ 31)
    (hdata : data.length = v.length) (post : List Bool) {rs : RxState} {rest : Bytes}
    (hrs : Readable rs ((packWords 64 v).flatMap (leBytes 8) ++ rest)) :
    ∃ rs', T.recvBool S.party (data ++ post) v.length rs = some (v ++ post, rs') ∧
      Readable rs' rest := by
  obtain ⟨rs', hread, hrest⟩ := h.reads_words _ hrs
  have hwords : (packWords 64 v).length = (data.length + 64 - 1) / 64 := by
    rw [hdata, packWords_length (by decide)]
  have hloop := unpack_loop_eq (by decide) (int_counts hv) hread [] data post (by simp [hdata])
    hwords hdata.le
  rw [hdata, unpackWords_packWords (by decide)] at hloop
  refine ⟨rs', ?_, hrest⟩
  rw [NetIOMP.recvBool]
  exact congrArg (Option.map Prod.swap) hloop

/-- The three bit codecs give back what they were given: `BoolRing::pack` in `ceil(n / 8)` bytes,
`packBool`, and `sendBool`, whose bytes `recvBool` takes off the stream and no others. -/
theorem bits_round_trip (v : List Bool) :
    (∃ packed, BoolRing.pack_data v v.length = some packed ∧
      packed.length = (v.length + 7) / 8 ∧ (∀ b ∈ packed, b < 256) ∧
      BoolRing.unpack_data packed v.length = some v) ∧
    (∃ packed, packBool v v.length = some packed ∧ (∀ t ∈ packed, t < 2 ^ 64) ∧
      ∀ data post : List Bool, data.length = v.length →
        unpackBool packed (data ++ post) v.length = some (v ++ post)) ∧
    ∀ S T : NetIOMP, Peers S T → v.length < 2 ^ 31 → ∀ log : List Bytes, ∃ msgs : List Bytes,
      S.sendBool T.party v v.length log = some (log ++ msgs) ∧
      (∀ msg ∈ msgs, msg.length = 8 ∧ ∀ b ∈ msg, b < 256) ∧
      ∀ (data post : List Bool) (rs : RxState) (rest : Bytes), data.length = v.length →
        Readable rs (msgs.flatten ++ rest) →
        ∃ rs', T.recvBool S.party (data ++ post) v.length rs = some (v ++ post, rs') ∧
          Readable rs' rest := by
  refine ⟨⟨BoolRing.pack v, BoolRing.pack_data_eq v, BoolRing.pack_length v, BoolRing.pack_lt v, ?_⟩,
    ⟨packWords 64 v, packBool_eq v, packWords_lt (by decide) v, ?_⟩, ?_⟩
  · rw [BoolRing.unpack_data_eq (BoolRing.pack_length v), BoolRing.unpack_pack]
  · intro data post hdata
    have hwords : (packWords 64 v).length = (data.length + 63) / 64 := by
      rw [hdata, packWords_length (by decide)]
      omega
    rw [← hdata, unpackBool_eq hwords, hdata, unpackWords_packWords (by decide)]
  · intro S T h hv log
    refine ⟨(packWords 64 v).map (leBytes 8), h.sendBool hv log, ?_, ?_⟩
    · intro msg hmsg
      obtain ⟨t, ht, rfl⟩ := List.mem_map.mp hmsg
      have hlt : t < 256 ^ 8 := packWords_lt (by decide) v t ht
      exact ⟨leBytes_length _ _, leBytes_lt hlt⟩
    · intro data post rs rest hdata hrs
      rw [← List.flatMap_def] at hrs
      exact h.recvBool hv hdata post hrs

/-- Three bits in a byte, in a word, and from party 0 to party 1 of two. -/
theorem bits_round_trip_three :
    (∃ packed, BoolRing.pack_data [true, false, true] 3 = some packed ∧ packed.length = 1) ∧
    ∃ msgs : List Bytes, (⟨0, 2⟩ : NetIOMP).sendBool 1 [true, false, true] 3 [] = some msgs ∧
      ∃ rs, (⟨1, 2⟩ : NetIOMP).recvBool 0 [false, false, false] 3
        { rx := msgs.map fun msg => ⟨msg, 0⟩, rx_bytes := msgs.flatten.length } =
          some ([true, false, true], rs) := by
  obtain ⟨⟨packed, hpacked, hlen, -⟩, -, hwire⟩ := bits_round_trip [true, false, true]
  have h : Peers ⟨0, 2⟩ ⟨1, 2⟩ := ⟨rfl, by decide, by decide, by decide⟩
  obtain ⟨msgs, hsend, -, hrecv⟩ := hwire ⟨0, 2⟩ ⟨1, 2⟩ h (by decide) []
  obtain ⟨rs, hrs, -⟩ := hrecv [false, false, false] []
    { rx := msgs.map fun msg => ⟨msg, 0⟩, rx_bytes := msgs.flatten.length } [] rfl
    ⟨rfl, by simp, by rw [List.append_nil], by simp [unread, List.flatMap_map]⟩
  exact ⟨⟨packed, hpacked, hlen⟩, msgs, hsend, rs, hrs⟩

end Bits

end QSync.Io
