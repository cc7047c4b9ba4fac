import Mathlib.Data.List.GetD
import QSync.Io.BcastBus

/-! # Frames on the wire, and the messages in them

What the receiver reads from the frames the sender builds, how a message is cut into fragments, and
what one call of `send` puts on the wire.
-/

namespace QSync.Io
open QSync.Network
set_option autoImplicit false
set_option maxHeartbeats 250000

/-! ## Header fields -/

section Header
variable (kind snd tgt seq idx tot plen : ℕ) (body : Bytes)

@[simp] theorem header_length : (header kind snd tgt seq idx tot plen).length = HEADER_SIZE := by
  simp [header]

theorem field_sender : field (header kind snd tgt seq idx tot plen ++ body) 4 1 = snd := by
  simp [field, header, leBytes_four, leNat]

theorem field_target : field (header kind snd tgt seq idx tot plen ++ body) 5 1 = tgt := by
  simp [field, header, leBytes_four, leNat]

theorem field_seq : field (header kind snd tgt seq idx tot plen ++ body) 8 4 = seq := by
  have h : field (header kind snd tgt seq idx tot plen ++ body) 8 4 = leNat (leBytes 4 seq) := by
    simp [field, header, leBytes_four]
  rw [h, leNat_leBytes (by decide)]

theorem field_idx : field (header kind snd tgt seq idx tot plen ++ body) 12 2 = idx := by
  have h : field (header kind snd tgt seq idx tot plen ++ body) 12 2 = leNat (leBytes 2 idx) := by
    simp [field, header, leBytes_four, leBytes_two]
  rw [h, leNat_leBytes (by decide)]

theorem field_total : field (header kind snd tgt seq idx tot plen ++ body) 14 2 = tot := by
  have h : field (header kind snd tgt seq idx tot plen ++ body) 14 2 = leNat (leBytes 2 tot) := by
    simp [field, header, leBytes_four, leBytes_two]
  rw [h, leNat_leBytes (by decide)]

theorem field_plen : field (header kind snd tgt seq idx tot plen ++ body) 16 4 = plen := by
  have h : field (header kind snd tgt seq idx tot plen ++ body) 16 4 = leNat (leBytes 4 plen) := by
    simp [field, header, leBytes_four, leBytes_two]
  rw [h, leNat_leBytes (by decide)]

theorem field_body (off w : ℕ) :
    field (header kind snd tgt seq idx tot plen ++ body) (HEADER_SIZE + off) w =
      field body off w := by
  unfold field
  rw [List.drop_append, header_length, List.drop_of_length_le (by rw [header_length]; omega),
    List.nil_append, Nat.add_sub_cancel_left]

theorem drop_header :
    (header kind snd tgt seq idx tot plen ++ body).drop HEADER_SIZE = body :=
  List.drop_left' (header_length ..)

end Header

/-! ## Fragments of a message -/

/-- How many datagrams a message of `len` bytes needs. -/
def fragCount (len : ℕ) : ℕ := if len = 0 then 1 else (len + MAX_PAYLOAD - 1) / MAX_PAYLOAD

/-- Fragment `i` of a message. -/
def piece (data : Bytes) (i : ℕ) : Bytes := (data.drop (MAX_PAYLOAD * i)).take MAX_PAYLOAD

theorem fragCount_pos (len : ℕ) : 0 < fragCount len := by
  unfold fragCount
  split
  · exact Nat.one_pos
  · exact Nat.div_pos (by unfold MAX_PAYLOAD; omega) (by decide)

/-- The 32-bit count is right for every message that has at most `2 ^ 16` fragments. -/
theorem total_eq {len : ℕ} (h : fragCount len ≤ 2 ^ 16) : total len = fragCount len := by
  unfold fragCount total at *
  split
  · rfl
  · rename_i h0
    rw [if_neg h0] at h
    unfold MAX_PAYLOAD at *
    rw [Nat.mod_eq_of_lt (by omega), Nat.mod_eq_of_lt (by omega)]

theorem total_le (len : ℕ) : total len ≤ fragCount len := by
  unfold total fragCount
  split
  · exact le_rfl
  · exact (Nat.mod_le _ _).trans (Nat.div_le_div_right (Nat.mod_le _ _))

theorem fragCount_le_iff {len k : ℕ} (hk : 0 < k) : fragCount len ≤ k ↔ len ≤ MAX_PAYLOAD * k := by
  unfold fragCount MAX_PAYLOAD
  split
  · omega
  · rw [Nat.div_le_iff_le_mul_add_pred (by decide)]
    omega

theorem piece_length (data : Bytes) (i : ℕ) :
    (piece data i).length = min MAX_PAYLOAD (data.length - MAX_PAYLOAD * i) := by
  simp [piece]

theorem piece_ne_nil {data : Bytes} {i : ℕ} (hd : data ≠ []) (hi : i < fragCount data.length) :
    piece data i ≠ [] := by
  have hlen : data.length ≠ 0 := fun h => hd (List.length_eq_zero_iff.mp h)
  intro h
  have h0 := piece_length data i
  rw [h, List.length_nil] at h0
  rw [fragCount, if_neg hlen] at hi
  unfold MAX_PAYLOAD at *
  omega

theorem piece_nil (i : ℕ) : piece [] i = [] := by simp [piece]

theorem pieces_flatten (data : Bytes) (k : ℕ) :
    ((List.range k).map (piece data)).flatten = data.take (MAX_PAYLOAD * k) := by
  induction k with
  | zero => rfl
  | succ k ih =>
    rw [List.range_succ, List.map_append, List.flatten_append, ih, Nat.mul_succ, List.take_add]
    simp [piece]

theorem pieces_all (data : Bytes) :
    ((List.range (fragCount data.length)).map (piece data)).flatten = data := by
  rw [pieces_flatten]
  exact List.take_of_length_le ((fragCount_le_iff (fragCount_pos _)).mp le_rfl)

theorem length_resize (frags : List Bytes) (total : ℕ) : (resize frags total).length = total := by
  unfold resize
  rw [List.length_append, List.length_take, List.length_replicate]
  omega

theorem getD_set (frags : List Bytes) (x i : ℕ) (payload : Bytes) (hx : x < frags.length) :
    (frags.set x payload).getD i [] = if i = x then payload else frags.getD i [] := by
  rw [List.getD_eq_getElem?_getD, List.getD_eq_getElem?_getD, List.getElem?_set]
  by_cases hix : i = x
  · subst hix
    simp [hx]
  · rw [if_neg (fun e => hix e.symm), if_neg hix]

/-! ## The fragments as sent -/

/-- The call of `send` in front of fragment `i`. -/
def SendCall.at (seq : ℕ) (data : Bytes) (i : ℕ) : SendCall :=
  { seq := seq, data := data, i := i, off := min (MAX_PAYLOAD * i) data.length }

namespace SendCall
variable (seq : ℕ) (data : Bytes) (i : ℕ)

theorem at_zero : SendCall.at seq data 0 = { seq := seq, data := data } := by
  simp [SendCall.at]

@[simp] theorem chunk_at : (SendCall.at seq data i).chunk = piece data i := by
  unfold chunk SendCall.at piece
  obtain h | h := Nat.le_total (MAX_PAYLOAD * i) data.length
  · rw [Nat.min_eq_left h]
  · rw [Nat.min_eq_right h, List.drop_of_length_le le_rfl, List.drop_of_length_le h]

theorem send_datagram_at : send_datagram (SendCall.at seq data i) true =
    SendCall.at seq data (i + 1) := by
  have hoff : min (MAX_PAYLOAD * i) data.length + (piece data i).length =
      min (MAX_PAYLOAD * (i + 1)) data.length := by
    rw [piece_length]
    unfold MAX_PAYLOAD
    omega
  unfold send_datagram
  rw [if_pos rfl, chunk_at]
  exact congrArg (SendCall.mk seq data (i + 1)) hoff

end SendCall

/-- The two ends of a pipe: distinct parties of one run, with the same key material. -/
structure Pipe where
  S : Config
  T : Config
  lib_eq : T.lib = S.lib
  seed_eq : T.key_seed = S.key_seed
  nP_eq : T.nP_ = S.nP_
  ne : S.self_id_ ≠ T.self_id_

namespace Pipe
variable (P : Pipe)

/-- The sender's id. -/
abbrev s : ℕ := P.S.self_id_

/-- The target's id. -/
abbrev t : ℕ := P.T.self_id_

theorem pair_key_eq : P.T.pair_key P.s = P.S.pair_key P.t := by
  unfold Config.pair_key
  rw [P.lib_eq, P.seed_eq, derive_pair_key_comm]

/-- The datagram of fragment `i` of stream `seq`. -/
def frame (seq : ℕ) (data : Bytes) (i : ℕ) : Bytes := (SendCall.at seq data i).buf P.S P.t

theorem frame_eq (seq : ℕ) (data : Bytes) (i : ℕ) :
    P.frame seq data i = header KIND_DATA P.s P.t seq (i % 2 ^ 16) (total data.length % 2 ^ 16)
      (piece data i).length ++ (SendCall.at seq data i).payload P.S P.t := by
  unfold frame SendCall.buf
  rw [SendCall.chunk_at]
  rfl

theorem payload_length (seq : ℕ) (data : Bytes) (i : ℕ) :
    ((SendCall.at seq data i).payload P.S P.t).length = (piece data i).length := by
  rw [SendCall.payload, crypt_length, SendCall.chunk_at]

theorem handle_data_frame (rx_ : ℕ → RxState) (seq : ℕ) (data : Bytes) (i : ℕ) :
    handle_data_ P.T rx_ (P.frame seq data i) = Function.update rx_ P.s
      ((rx_ P.s).accept seq (i % 2 ^ 16) (total data.length % 2 ^ 16) (piece data i)) := by
  have hs : P.s < P.T.nP_ := P.nP_eq ▸ P.S.self_lt
  have ht : P.t < P.T.nP_ := P.T.self_lt
  have hids : ¬(P.s = P.t ∨ P.s ≥ P.T.nP_ ∨ P.t ≥ P.T.nP_) := by
    rintro (h | h | h)
    · exact P.ne h
    · omega
    · omega
  have hlen : ¬((header KIND_DATA P.s P.t seq (i % 2 ^ 16) (total data.length % 2 ^ 16)
      (piece data i).length ++ (SendCall.at seq data i).payload P.S P.t).length ≠
        HEADER_SIZE + (piece data i).length) := by
    rw [List.length_append, header_length, payload_length]
    exact fun h => h rfl
  rw [frame_eq]
  unfold handle_data_
  simp only [field_sender, field_target, field_seq, field_idx, field_total, field_plen, drop_header]
  rw [if_neg hids, if_neg hlen, if_neg (fun h => h rfl), pair_key_eq, P.lib_eq]
  unfold SendCall.payload SendCall.nonce SendCall.idx
  rw [SendCall.chunk_at]
  exact congrArg (fun b => Function.update rx_ P.s ((rx_ P.s).accept seq (i % 2 ^ 16) _ b))
    (crypt_crypt _ _ _ _)

/-- A retransmission from the record of a fragment is the frame of that fragment. -/
theorem resend_record (seq : ℕ) (data : Bytes) (i n : ℕ) :
    resend_fragment_ P.S P.t seq (i % 2 ^ 16)
      { (SendCall.at seq data i).record P.S P.t with nack_count := n } = P.frame seq data i := by
  rw [frame_eq]
  unfold resend_fragment_ SendCall.record
  rw [SendCall.chunk_at, List.take_of_length_le (payload_length P seq data i).le]
  rfl

/-- The sender takes a NACK of its target for what it is, when it comes from the target's address. -/
theorem handle_nack_frame (tx_ : ℕ → TxState) (seq idx src : ℕ) :
    handle_nack_ P.S tx_ (send_nack_ P.T P.s P.t seq idx) src =
      if src ≠ P.S.ip_table_ P.t then (tx_, .silent)
      else (Function.update tx_ P.t ((tx_ P.t).handle_nack P.S P.t seq idx).1,
        ((tx_ P.t).handle_nack P.S P.t seq idx).2) := by
  have ht : P.t < P.S.nP_ := P.nP_eq ▸ P.T.self_lt
  have hsnd : field (send_nack_ P.T P.s P.t seq idx) HEADER_SIZE 1 = P.s := by
    simp [send_nack_, field, header, leBytes_four, leBytes_two, leNat]
  have htgt : field (send_nack_ P.T P.s P.t seq idx) (HEADER_SIZE + 1) 1 = P.t := by
    simp [send_nack_, field, header, leBytes_four, leBytes_two, leNat]
  have hseq : field (send_nack_ P.T P.s P.t seq idx) (HEADER_SIZE + 4) 4 = seq := by
    rw [send_nack_, field_body]
    have h : field ([P.s, P.t, 0, 0] ++ leBytes 4 seq ++ leBytes 2 idx ++ [0, 0]) 4 4 =
        leNat (leBytes 4 seq) := by
      simp [field, leBytes_four]
    rw [h, leNat_leBytes (by decide)]
  have hidx : field (send_nack_ P.T P.s P.t seq idx) (HEADER_SIZE + 8) 2 = idx := by
    rw [send_nack_, field_body]
    have h : field ([P.s, P.t, 0, 0] ++ leBytes 4 seq ++ leBytes 2 idx ++ [0, 0]) 8 2 =
        leNat (leBytes 2 idx) := by
      simp [field, leBytes_four, leBytes_two]
    rw [h, leNat_leBytes (by decide)]
  have hhdr : field (send_nack_ P.T P.s P.t seq idx) 5 1 = P.s := by
    rw [send_nack_, field_target]
  have hlen : ¬(send_nack_ P.T P.s P.t seq idx).length < HEADER_SIZE + 12 := by
    simp [send_nack_]
  have hself : ¬(P.t ≥ P.S.nP_ ∨ P.t = P.S.self_id_) := by
    rintro (h | h)
    · omega
    · exact P.ne h.symm
  unfold handle_nack_
  rw [if_neg hlen, hhdr, if_neg (fun h => h rfl)]
  simp only [hsnd, htgt, hseq, hidx]
  rw [if_neg (fun h => h rfl), if_neg hself]

end Pipe

/-- Parties 0 and 1 of a run of two, with toy primitives in place of the crypto library's. -/
def pipe01 : Pipe :=
  let party0 : Config :=
    { lib := { sha256 := fun _ => List.replicate 32 7, aes_128_ctr := fun _ iv k => (iv.sum + k) % 256 }
      key_seed := 200
      nP_ := 2
      self_id_ := 0
      ip_table_ := fun p => p + 1
      nP_le := by decide
      self_lt := by decide }
  { S := party0
    T := { party0 with self_id_ := 1, self_lt := by decide }
    lib_eq := rfl
    seed_eq := rfl
    nP_eq := rfl
    ne := by decide }

end QSync.Io
