import QSync.Io.Reassembly

/-! # The fragments of one message

One call of `send`, its datagrams handed once and in order to a receiver that expects the stream.
The loop counts in 32 bits, the header carries 16: the two agree for messages of at most 65535
fragments, and only for these.
-/

namespace QSync.Io
open QSync.Network
set_option autoImplicit false
set_option maxHeartbeats 250000

/-- The loop of `send`, no `sendto` failing: one datagram a round. -/
def send_loop (C : Config) (dst : ℕ) : ℕ → SendCall → List Bytes
  | 0, _ => []
  | fuel + 1, c =>
    if c.more then c.buf C dst :: send_loop C dst fuel (send_datagram c true) else []

def sent_frames (P : Pipe) (seq : ℕ) (data : Bytes) : List Bytes :=
  send_loop P.S P.t (total data.length) { seq := seq, data := data }

/-- The datagrams of one call are numbered well, and make the message again at the receiver. -/
structure NumbersFragments (P : Pipe) (seq : ℕ) (data : Bytes) (rx_ : ℕ → RxState) : Prop where
  distinct : ((sent_frames P seq data).map fun d => field d 12 2).Nodup
  below : ∀ d ∈ sent_frames P seq data, field d 12 2 < field d 14 2
  count : ∀ d ∈ sent_frames P seq data, field d 14 2 = (sent_frames P seq data).length
  delivers : unread ((sent_frames P seq data).foldl (handle_data_ P.T) rx_ P.s) =
    unread (rx_ P.s) ++ data

section Frames
variable {P : Pipe} {seq : ℕ} {data : Bytes}

theorem send_loop_eq (fuel i : ℕ) (h : i + fuel = total data.length) :
    send_loop P.S P.t fuel (SendCall.at seq data i) =
      (List.range' i fuel).map (P.frame seq data) := by
  induction fuel generalizing i with
  | zero => rfl
  | succ fuel ih =>
    have hmore : (SendCall.at seq data i).more = true := by
      unfold SendCall.more
      exact decide_eq_true (show i < total data.length by omega)
    unfold send_loop
    rw [if_pos hmore, SendCall.send_datagram_at, ih (i + 1) (by omega), List.range'_succ,
      List.map_cons]
    rfl

theorem sent_frames_eq :
    sent_frames P seq data = (List.range (total data.length)).map (P.frame seq data) := by
  unfold sent_frames
  rw [← SendCall.at_zero, send_loop_eq _ 0 (Nat.zero_add _), List.range_eq_range']

theorem field_idx_frame (i : ℕ) : field (P.frame seq data i) 12 2 = i % 2 ^ 16 := by
  rw [Pipe.frame_eq, field_idx]

theorem field_total_frame (i : ℕ) : field (P.frame seq data i) 14 2 = total data.length % 2 ^ 16 := by
  rw [Pipe.frame_eq, field_total]

end Frames

/-! ## Feeding the receiver -/

section Feed
variable {P : Pipe} {seq : ℕ} {data : Bytes} {rs : RxState}

theorem drain_pending_none (fuel : ℕ) (h : rs.pending.lookup rs.next_rx_seq = none) :
    drain_pending fuel rs = rs := by
  cases fuel with
  | zero => rfl
  | succ fuel =>
    unfold drain_pending
    rw [h]

/-- The receiver after the first `j` of `k` fragments. -/
structure Fed (seq k : ℕ) (data : Bytes) (rs₀ : RxState) (j : ℕ) (rs : RxState) : Prop where
  next : rs.next_rx_seq = seq
  rx : rs.rx = rs₀.rx
  pending : rs.pending.lookup seq = if j = 0 then none
    else some { frag_total := k, received := j, frags := filled k (piece data) (Finset.range j) }
  after : rs.pending.lookup ((seq + 1) % 2 ^ 32) = none

theorem Fed.step {k j : ℕ} {rs₀ rs : RxState} (h : Fed seq k data rs₀ j rs) (hj : j < k)
    (hk : k < 2 ^ 16) (hk2 : 1 < k) (hpiece : piece data j ≠ []) :
    if j + 1 < k then Fed seq k data rs₀ (j + 1) (rs.accept seq j k (piece data j))
    else unread (rs.accept seq j k (piece data j)) =
      unread rs₀ ++ ((List.range k).map (piece data)).flatten := by
  have hadd : ((rs.pending.lookup seq).getD {}).add j k (piece data j) =
      { frag_total := k, received := j + 1,
        frags := filled k (piece data) (Finset.range (j + 1)) } := by
    rw [h.pending]
    by_cases hj0 : j = 0
    · subst hj0
      rw [if_pos rfl, Option.getD_none, Partial.add_fresh hj]
      rfl
    · rw [if_neg hj0, Option.getD_some, Partial.add_filled hj,
        if_neg (fun hdup => absurd hdup.1 Finset.notMem_range_self), Finset.range_add_one,
        Nat.mod_eq_of_lt (by omega)]
  have hlate : ¬ seq < rs.next_rx_seq := by rw [h.next]; omega
  have hfast : ¬(k = 1 ∧ seq = rs.next_rx_seq) := fun hfast => by omega
  have hne : (seq + 1) % 2 ^ 32 ≠ seq := by omega
  unfold RxState.accept RxState.note_arrival
  dsimp only
  rw [if_neg hlate, if_neg hfast, hadd]
  generalize hp : Partial.mk k (j + 1) (filled k (piece data) (Finset.range (j + 1))) = p
  have hlook : (rs.pending.insert seq p).lookup seq = some p := AList.lookup_insert _
  have hafter : (rs.pending.insert seq p).lookup ((seq + 1) % 2 ^ 32) = none := by
    rw [AList.lookup_insert_ne hne]
    exact h.after
  have hsize : 0 < (rs.pending.insert seq p).entries.length := by
    rw [AList.entries_insert]
    exact Nat.succ_pos _
  obtain ⟨fuel, hfuel⟩ := Nat.exists_eq_succ_of_ne_zero hsize.ne'
  unfold drain_pending_locked_
  dsimp only
  rw [hfuel]
  unfold drain_pending
  dsimp only
  rw [h.next, hlook]
  dsimp only
  split
  · next hlt =>
    have hrec : p.received ≠ p.frag_total := by
      subst hp
      exact hlt.ne
    rw [if_pos hrec]
    refine ⟨rfl, h.rx, ?_, hafter⟩
    rw [if_neg (Nat.succ_ne_zero j), hp]
    exact hlook
  · next hge =>
    have hjk : j + 1 = k := by omega
    have hrec : ¬(p.received ≠ p.frag_total) := by
      subst hp
      exact not_not.mpr hjk
    rw [if_neg hrec]
    have hgone : ((rs.pending.insert seq p).erase seq).lookup ((seq + 1) % 2 ^ 32) = none := by
      rw [AList.lookup_erase_ne hne]
      exact hafter
    rw [drain_pending_none fuel hgone]
    have hflat : p.frags.flatten = ((List.range k).map (piece data)).flatten := by
      subst hp
      rw [hjk, filled_full]
    rw [hflat]
    unfold unread
    dsimp only
    rw [h.rx]
    exact unread_push _

theorem accept_single (hnext : rs.next_rx_seq = seq)
    (hafter : rs.pending.lookup ((seq + 1) % 2 ^ 32) = none) (payload : Bytes) :
    unread (rs.accept seq 0 1 payload) = unread rs ++ payload := by
  have hlate : ¬ seq < rs.next_rx_seq := by rw [hnext]; omega
  unfold RxState.accept RxState.note_arrival
  dsimp only
  rw [if_neg hlate, if_pos ⟨rfl, hnext.symm⟩]
  unfold drain_pending_locked_
  rw [drain_pending_none _ (by dsimp only; rw [hnext]; exact hafter)]
  exact unread_push _

theorem feed_frames {rx_ : ℕ → RxState} (hnext : (rx_ P.s).next_rx_seq = seq)
    (hdue : (rx_ P.s).pending.lookup seq = none)
    (hafter : (rx_ P.s).pending.lookup ((seq + 1) % 2 ^ 32) = none)
    (hk : total data.length < 2 ^ 16) :
    unread ((sent_frames P seq data).foldl (handle_data_ P.T) rx_ P.s) =
      unread (rx_ P.s) ++ data.take (MAX_PAYLOAD * total data.length) := by
  rw [sent_frames_eq, ← pieces_flatten]
  generalize hkk : total data.length = k at *
  have hmod : k % 2 ^ 16 = k := Nat.mod_eq_of_lt hk
  obtain h0 | rfl | h2 := Nat.lt_trichotomy k 1
  · obtain rfl : k = 0 := by omega
    simp
  · have hframe := P.handle_data_frame rx_ seq data 0
    rw [hkk] at hframe
    simp only [List.range_one, List.map_cons, List.map_nil, List.foldl_cons, List.foldl_nil, hframe,
      Function.update_self, List.flatten_cons, List.flatten_nil, List.append_nil]
    exact accept_single hnext hafter _
  · have hdata : data ≠ [] := by
      rintro rfl
      have : total 0 = 1 := rfl
      rw [List.length_nil, this] at hkk
      omega
    have hpiece : ∀ j < k, piece data j ≠ [] := fun j hj =>
      piece_ne_nil hdata (by have := total_le data.length; omega)
    -- by induction on the number of datagrams handed over
    have hfed : ∀ j < k, Fed seq k data (rx_ P.s) j
        (((List.range j).map (P.frame seq data)).foldl (handle_data_ P.T) rx_ P.s) := by
      intro j hj
      induction j with
      | zero => exact ⟨hnext, rfl, hdue, hafter⟩
      | succ j ih =>
        have hstep := (ih (by omega)).step (by omega) hk h2 (hpiece j (by omega))
        rw [if_pos hj] at hstep
        rw [List.range_succ, List.map_append, List.foldl_append]
        simp only [List.map_cons, List.map_nil, List.foldl_cons, List.foldl_nil]
        rw [P.handle_data_frame, Function.update_self, hkk, hmod,
          Nat.mod_eq_of_lt (show j < 2 ^ 16 by omega)]
        exact hstep
    obtain ⟨j, rfl⟩ : ∃ j, k = j + 1 := ⟨k - 1, by omega⟩
    have hstep := (hfed j (by omega)).step (by omega) hk h2 (hpiece j (by omega))
    rw [if_neg (by omega)] at hstep
    rw [List.range_succ, List.map_append, List.foldl_append, ← List.range_succ]
    simp only [List.map_cons, List.map_nil, List.foldl_cons, List.foldl_nil]
    rw [P.handle_data_frame, Function.update_self, hkk, hmod,
      Nat.mod_eq_of_lt (show j < 2 ^ 16 by omega)]
    exact hstep

end Feed

/-! ## Which messages are numbered well -/

theorem numbersFragments_of_le (P : Pipe) {seq : ℕ} {data : Bytes} {rx_ : ℕ → RxState}
    (hnext : (rx_ P.s).next_rx_seq = seq) (hdue : (rx_ P.s).pending.lookup seq = none)
    (hafter : (rx_ P.s).pending.lookup ((seq + 1) % 2 ^ 32) = none)
    (hlen : data.length ≤ MAX_PAYLOAD * 65535) : NumbersFragments P seq data rx_ := by
  have hcount : fragCount data.length ≤ 65535 := (fragCount_le_iff (by decide)).mpr hlen
  have htot : total data.length = fragCount data.length := total_eq (by omega)
  have hmod : total data.length % 2 ^ 16 = total data.length := Nat.mod_eq_of_lt (by omega)
  have hmem : ∀ d ∈ sent_frames P seq data, ∃ i < total data.length, d = P.frame seq data i := by
    intro d hd
    rw [sent_frames_eq] at hd
    obtain ⟨i, hi, rfl⟩ := List.mem_map.mp hd
    exact ⟨i, List.mem_range.mp hi, rfl⟩
  constructor
  · rw [sent_frames_eq, List.map_map]
    apply List.Nodup.map_on
    · intro i hi j hj h
      have hi := List.mem_range.mp hi
      have hj := List.mem_range.mp hj
      have h' : i % 2 ^ 16 = j % 2 ^ 16 := by
        simpa only [Function.comp_apply, field_idx_frame] using h
      omega
    · exact List.nodup_range
  · intro d hd
    obtain ⟨i, hi, rfl⟩ := hmem d hd
    rw [field_idx_frame, field_total_frame, hmod]
    exact (Nat.mod_le _ _).trans_lt hi
  · intro d hd
    obtain ⟨i, hi, rfl⟩ := hmem d hd
    rw [field_total_frame, hmod, sent_frames_eq, List.length_map, List.length_range]
  · rw [feed_frames hnext hdue hafter (by omega), htot]
    congr 1
    exact List.take_of_length_le ((fragCount_le_iff (fragCount_pos _)).mp le_rfl)

theorem length_le_of_numbersFragments (P : Pipe) {seq : ℕ} {data : Bytes} {rx_ : ℕ → RxState}
    (hnext : (rx_ P.s).next_rx_seq = seq) (hdue : (rx_ P.s).pending.lookup seq = none)
    (hafter : (rx_ P.s).pending.lookup ((seq + 1) % 2 ^ 32) = none)
    (h : NumbersFragments P seq data rx_) : data.length ≤ MAX_PAYLOAD * 65535 := by
  obtain hk | hk := Nat.lt_or_ge (total data.length) (2 ^ 16)
  · -- what is delivered is as long as the datagrams that were sent
    have hdel := h.delivers
    rw [feed_frames hnext hdue hafter hk] at hdel
    have hlen := congrArg List.length (List.append_cancel_left hdel)
    rw [List.length_take] at hlen
    unfold MAX_PAYLOAD at *
    omega
  · -- the header cannot carry the number of the datagrams
    have hmem : P.frame seq data 0 ∈ sent_frames P seq data := by
      rw [sent_frames_eq]
      exact List.mem_map_of_mem (List.mem_range.mpr (by omega))
    have hcount := h.count _ hmem
    rw [field_total_frame, sent_frames_eq, List.length_map, List.length_range] at hcount
    have := Nat.mod_lt (total data.length) (show 0 < 2 ^ 16 by decide)
    omega

/-- The datagrams of a message carry distinct indices below their number, and the receiver makes the
message out of them, exactly when it has at most 65535 fragments. -/
theorem fragment_numbering_iff (P : Pipe) (seq : ℕ) (data : Bytes) (rx_ : ℕ → RxState)
    (hnext : (rx_ P.s).next_rx_seq = seq) (hdue : (rx_ P.s).pending.lookup seq = none)
    (hafter : (rx_ P.s).pending.lookup ((seq + 1) % 2 ^ 32) = none) :
    NumbersFragments P seq data rx_ ↔ data.length ≤ MAX_PAYLOAD * 65535 := by
  constructor
  · intro h
    exact length_le_of_numbersFragments P hnext hdue hafter h
  · intro h
    exact numbersFragments_of_le P hnext hdue hafter h

/-- A message of three fragments, for a receiver that waits for it and holds part of a later one. -/
theorem fragment_numbering_three :
    let rx_ : ℕ → RxState := fun _ =>
      { next_rx_seq := 4, any_seen := true, max_seen_seq := 6,
        pending := AList.singleton 6 { frag_total := 2, received := 1, frags := [[], [9]] } }
    NumbersFragments pipe01 4 (List.replicate 3001 7) rx_ ↔
      (List.replicate 3001 7).length ≤ MAX_PAYLOAD * 65535 :=
  fragment_numbering_iff pipe01 4 (List.replicate 3001 7) _ rfl rfl rfl

/-- 65536 full fragments: the header's total is 0. -/
theorem fragment_numbering_overflow :
    ¬ NumbersFragments pipe01 0 (List.replicate (MAX_PAYLOAD * 65536) 0) (fun _ => {}) := by
  intro h
  have hlen := @length_le_of_numbersFragments pipe01 0 _ (fun _ => {}) rfl rfl rfl h
  rw [List.length_replicate] at hlen
  exact absurd hlen (by decide)

end QSync.Io
