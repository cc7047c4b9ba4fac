import Mathlib.Data.Finset.Card
import Mathlib.Data.Finset.Range
import QSync.Io.Frames

/-! # Reassembly

What `accept` and `drain_pending_locked_` do, over the messages of the streams. `M n` is the message
of stream `n`, `A n` the set of its fragments that have arrived. `Reassembling` says what the receiver
holds of the streams it has not delivered; delivering moves whole messages to the reader, in order.
-/

namespace QSync.Io
open QSync.Network
set_option autoImplicit false
set_option maxHeartbeats 250000

/-! ## Partial messages -/

/-- The fragments in `A`; the places of the others are empty. -/
def filled (k : ℕ) (pc : ℕ → Bytes) (A : Finset ℕ) : List Bytes :=
  (List.range k).map fun i => if i ∈ A then pc i else []

section Filled
variable {k i : ℕ} {pc : ℕ → Bytes} {A : Finset ℕ}

theorem filled_empty : filled k pc ∅ = List.replicate k [] := by
  simp [filled, List.map_const']

theorem filled_full : filled k pc (Finset.range k) = (List.range k).map pc := by
  apply List.map_congr_left
  intro i hi
  rw [if_pos (Finset.mem_range.mpr (List.mem_range.mp hi))]

theorem getD_filled (hi : i < k) : (filled k pc A).getD i [] = if i ∈ A then pc i else [] := by
  simp [filled, List.getD_eq_getElem?_getD, hi]

theorem set_filled : (filled k pc A).set i (pc i) = filled k pc (insert i A) := by
  apply List.ext_getElem
  · simp [filled]
  · intro j hj _
    have hj' : j < k := by simpa [filled] using hj
    rw [List.getElem_set]
    split
    · next h =>
      subst h
      simp [filled]
    · next h =>
      have hji : j ≠ i := fun e => h e.symm
      simp [filled, hji]

theorem filled_insert_nil (h : pc i = []) : filled k pc (insert i A) = filled k pc A := by
  apply List.map_congr_left
  intro j _
  by_cases hj : j = i
  · subst hj
    simp [h]
  · simp [hj]

theorem Partial.add_filled {r : ℕ} (hi : i < k) :
    Partial.add { frag_total := k, received := r, frags := filled k pc A } i k (pc i) =
      if i ∈ A ∧ pc i ≠ [] then { frag_total := k, received := r, frags := filled k pc A }
      else { frag_total := k, received := (r + 1) % 2 ^ 32, frags := filled k pc (insert i A) } := by
  have hk : k ≠ 0 := by omega
  unfold Partial.add
  simp only [hk, if_false, if_pos hi, getD_filled hi]
  by_cases hpc : pc i = []
  · have hfill := filled_insert_nil (k := k) (A := A) hpc
    simp [hpc, hfill]
  · have hlen : (pc i).length > 0 := List.length_pos_iff.mpr hpc
    by_cases hA : i ∈ A
    · simp [hA, hpc]
    · simp [hA, hlen, set_filled]

theorem Partial.add_fresh (hi : i < k) :
    Partial.add {} i k (pc i) =
      { frag_total := k, received := 1, frags := filled k pc {i} } := by
  have h : Partial.add { frag_total := k, received := 0, frags := filled k pc ∅ } i k (pc i) =
      if i ∈ (∅ : Finset ℕ) ∧ pc i ≠ [] then
        { frag_total := k, received := 0, frags := filled k pc ∅ }
      else { frag_total := k, received := (0 + 1) % 2 ^ 32, frags := filled k pc (insert i ∅) } :=
    Partial.add_filled hi
  rw [if_neg (fun h => absurd h.1 (Finset.notMem_empty i)), filled_empty] at h
  have hk : k ≠ 0 := by omega
  have hone : (0 + 1) % 2 ^ 32 = 1 := rfl
  rw [insert_empty_eq, hone] at h
  rw [← h]
  unfold Partial.add
  simp [hk, resize]

end Filled

/-! ## What reassembly leaves alone -/

theorem drain_pending_marks (fuel : ℕ) (rs : RxState) :
    (drain_pending fuel rs).nack_state = rs.nack_state ∧
      (drain_pending fuel rs).max_seen_seq = rs.max_seen_seq ∧
      (drain_pending fuel rs).any_seen = rs.any_seen ∧
      (drain_pending fuel rs).poisoned = rs.poisoned := by
  induction fuel generalizing rs with
  | zero => exact ⟨rfl, rfl, rfl, rfl⟩
  | succ fuel ih =>
    unfold drain_pending
    cases rs.pending.lookup rs.next_rx_seq with
    | none => exact ⟨rfl, rfl, rfl, rfl⟩
    | some p =>
      dsimp only
      split
      · exact ⟨rfl, rfl, rfl, rfl⟩
      · exact ih _

theorem accept_marks (rs : RxState) (seq idx tot : ℕ) (payload : Bytes) :
    (rs.accept seq idx tot payload).nack_state = rs.nack_state.erase (seq, idx) ∧
      (rs.accept seq idx tot payload).max_seen_seq = (rs.note_arrival seq idx).max_seen_seq ∧
      (rs.accept seq idx tot payload).any_seen = true ∧
      (rs.accept seq idx tot payload).poisoned = rs.poisoned := by
  unfold RxState.accept
  dsimp only
  split
  · exact ⟨rfl, rfl, rfl, rfl⟩
  · split
    · exact drain_pending_marks _ _
    · exact drain_pending_marks _ _

/-! ## What the receiver holds -/

def unread (rs : RxState) : Bytes := rs.rx.flatMap fun c => c.bytes.drop c.offset

def Settled (rs : RxState) : Prop :=
  ∀ p, rs.pending.lookup rs.next_rx_seq = some p → p.received ≠ p.frag_total

/-- The receiver's state against the fragments that arrived, of `N` streams. Under `strict`, the
fragment of an empty message is counted once as well. -/
structure Reassembling (strict : Prop) (M : ℕ → Bytes) (N : ℕ) (A : ℕ → Finset ℕ)
    (rs : RxState) : Prop where
  next_le : rs.next_rx_seq ≤ N
  bounded : ∀ n, A n ⊆ Finset.range (fragCount (M n).length)
  sent : ∀ n, (A n).Nonempty → n < N
  done : ∀ n, n < rs.next_rx_seq → A n = Finset.range (fragCount (M n).length)
  absent : ∀ n, rs.next_rx_seq ≤ n → rs.pending.lookup n = none → A n = ∅
  held : ∀ n p, rs.next_rx_seq ≤ n → rs.pending.lookup n = some p →
    (A n).Nonempty ∧ p.frag_total = fragCount (M n).length ∧
      p.frags = filled (fragCount (M n).length) (piece (M n)) (A n) ∧
      (strict ∨ M n ≠ [] → p.received = (A n).card)

/-- `rs'` is `rs` after `d` more streams were handed to the reader. -/
structure Delivered (M : ℕ → Bytes) (d : ℕ) (rs rs' : RxState) : Prop where
  next : rs'.next_rx_seq = rs.next_rx_seq + d
  unread : unread rs' = unread rs ++ (List.range' rs.next_rx_seq d).flatMap M
  rx_bytes : rs'.rx_bytes = rs.rx_bytes + ((List.range' rs.next_rx_seq d).flatMap M).length
  chunks : ∃ cs, rs'.rx = rs.rx ++ cs ∧ ∀ c ∈ cs, c.offset = 0
  max_seen : rs'.max_seen_seq = rs.max_seen_seq
  any_seen : rs'.any_seen = rs.any_seen
  nack_state : rs'.nack_state = rs.nack_state
  poisoned : rs'.poisoned = rs.poisoned

section Delivery
variable {strict : Prop} {M : ℕ → Bytes} {N : ℕ} {A : ℕ → Finset ℕ} {rs rs' rs'' : RxState}

theorem Delivered.refl : Delivered M 0 rs rs where
  next := rfl
  unread := by simp
  rx_bytes := rfl
  chunks := ⟨[], (List.append_nil _).symm, by simp⟩
  max_seen := rfl
  any_seen := rfl
  nack_state := rfl
  poisoned := rfl

theorem Delivered.of_pending {pend : AList (fun _ : ℕ => Partial)}
    (h : rs' = { rs with pending := pend }) : Delivered M 0 rs rs' := by
  subst h
  exact ⟨rfl, by simp [Io.unread], rfl, ⟨[], (List.append_nil _).symm, by simp⟩, rfl, rfl, rfl, rfl⟩

theorem Delivered.trans {d d' : ℕ} (h : Delivered M d rs rs') (h' : Delivered M d' rs' rs'') :
    Delivered M (d + d') rs rs'' where
  next := by rw [h'.next, h.next, Nat.add_assoc]
  unread := by
    rw [h'.unread, h.unread, h.next, ← List.range'_append_1, List.flatMap_append, List.append_assoc]
  rx_bytes := by
    rw [h'.rx_bytes, h.rx_bytes, h.next, ← List.range'_append_1, List.flatMap_append,
      List.length_append, Nat.add_assoc]
  chunks := by
    obtain ⟨cs, hcs, hoff⟩ := h.chunks
    obtain ⟨cs', hcs', hoff'⟩ := h'.chunks
    refine ⟨cs ++ cs', by rw [hcs', hcs, List.append_assoc], ?_⟩
    intro c hc
    exact (List.mem_append.mp hc).elim (hoff c) (hoff' c)
  max_seen := h'.max_seen.trans h.max_seen
  any_seen := h'.any_seen.trans h.any_seen
  nack_state := h'.nack_state.trans h.nack_state
  poisoned := h'.poisoned.trans h.poisoned

theorem Reassembling.congr (h : Reassembling strict M N A rs)
    (hnext : rs'.next_rx_seq = rs.next_rx_seq) (hpend : rs'.pending = rs.pending) :
    Reassembling strict M N A rs' where
  next_le := hnext ▸ h.next_le
  bounded := h.bounded
  sent := h.sent
  done := hnext ▸ h.done
  absent := by
    rw [hnext, hpend]
    exact h.absent
  held := by
    rw [hnext, hpend]
    exact h.held

/-- A message of one stream pushed to the reader: a chunk, when there is anything in it. -/
theorem unread_push (bytes : Bytes) :
    ((if bytes.length > 0 then rs.rx ++ [{ bytes := bytes }] else rs.rx).flatMap
      fun c : Chunk => c.bytes.drop c.offset) = unread rs ++ bytes := by
  unfold unread
  split
  · rw [List.flatMap_append]
    simp
  · next h =>
    have hnil : bytes = [] := List.length_eq_zero_iff.mp (by omega)
    rw [hnil, List.append_nil]

/-- All fragments that arrived were counted, and they are all there are: the message is complete. -/
theorem Reassembling.complete (h : Reassembling strict M N A rs) {n : ℕ} {p : Partial}
    (hn : rs.next_rx_seq ≤ n) (hp : rs.pending.lookup n = some p) (hrec : p.received = p.frag_total) :
    A n = Finset.range (fragCount (M n).length) ∧ p.frags.flatten = M n := by
  obtain ⟨hne, htot, hfrags, hcount⟩ := h.held n p hn hp
  have hfull : A n = Finset.range (fragCount (M n).length) := by
    by_cases hM : M n = []
    · -- an empty message has one fragment
      have hone : fragCount (M n).length = 1 := by rw [hM]; rfl
      obtain ⟨i, hi⟩ := hne
      have hb := h.bounded n
      rw [hone] at hb ⊢
      have hi0 : i = 0 := by simpa using Finset.mem_range.mp (hb hi)
      subst hi0
      exact Finset.Subset.antisymm hb (by simpa using hi)
    · apply Finset.eq_of_subset_of_card_le (h.bounded n)
      rw [Finset.card_range, ← hcount (.inr hM), hrec, htot]
  refine ⟨hfull, ?_⟩
  rw [hfrags, hfull, filled_full, pieces_all]

theorem entries_erase_length {p : Partial} {n : ℕ} (hp : rs.pending.lookup n = some p) :
    (rs.pending.erase n).entries.length + 1 = rs.pending.entries.length := by
  have hmem : n ∈ rs.pending.keys := AList.mem_keys.mp (AList.lookup_isSome.mp (by rw [hp]; rfl))
  have hkeys : ∀ s : AList (fun _ : ℕ => Partial), s.keys.length = s.entries.length :=
    fun s => List.length_map _
  have hpos := List.length_pos_of_mem hmem
  rw [← hkeys, ← hkeys, AList.keys_erase, List.length_erase_of_mem hmem]
  omega

theorem Reassembling.push (h : Reassembling strict M N A rs) (hlt : rs.next_rx_seq < N)
    {pend : AList (fun _ : ℕ => Partial)}
    (hpend : ∀ m, rs.next_rx_seq < m → pend.lookup m = rs.pending.lookup m)
    (hmid : rs' = { rs with
      rx := if (M rs.next_rx_seq).length > 0 then rs.rx ++ [{ bytes := M rs.next_rx_seq }] else rs.rx
      rx_bytes := rs.rx_bytes + (M rs.next_rx_seq).length
      pending := pend
      next_rx_seq := rs.next_rx_seq + 1 }) :
    Reassembling strict M N (Function.update A rs.next_rx_seq
        (Finset.range (fragCount (M rs.next_rx_seq).length))) rs' ∧ Delivered M 1 rs rs' := by
  have hnext : rs'.next_rx_seq = rs.next_rx_seq + 1 := by rw [hmid]
  have hp : rs'.pending = pend := by rw [hmid]
  constructor
  · refine ⟨?_, ?_, ?_, ?_, ?_, ?_⟩
    · rw [hnext]
      exact hlt
    · intro m
      by_cases hm : m = rs.next_rx_seq
      · subst hm
        rw [Function.update_self]
      · rw [Function.update_of_ne hm]
        exact h.bounded m
    · intro m
      by_cases hm : m = rs.next_rx_seq
      · exact fun _ => hm ▸ hlt
      · rw [Function.update_of_ne hm]
        exact h.sent m
    · intro m hm
      rw [hnext] at hm
      by_cases hmn : m = rs.next_rx_seq
      · subst hmn
        rw [Function.update_self]
      · rw [Function.update_of_ne hmn]
        exact h.done m (by omega)
    · intro m hm hlook
      rw [hnext] at hm
      rw [hp, hpend m hm] at hlook
      rw [Function.update_of_ne (by omega)]
      exact h.absent m (by omega) hlook
    · intro m q hm hlook
      rw [hnext] at hm
      rw [hp, hpend m hm] at hlook
      rw [Function.update_of_ne (by omega)]
      exact h.held m q (by omega) hlook
  · rw [hmid]
    refine ⟨rfl, ?_, ?_, ?_, rfl, rfl, rfl, rfl⟩
    · rw [List.range'_one, List.flatMap_singleton]
      exact unread_push _
    · rw [List.range'_one, List.flatMap_singleton]
    · dsimp only
      split
      · exact ⟨[{ bytes := M rs.next_rx_seq }], rfl, by simp⟩
      · exact ⟨[], (List.append_nil _).symm, by simp⟩

/-- Draining keeps the picture, leaves nothing complete at the front, and only delivers. -/
theorem Reassembling.drain (hN : N < 2 ^ 32) (fuel : ℕ) {rs : RxState}
    (h : Reassembling strict M N A rs) (hfuel : rs.pending.entries.length ≤ fuel) :
    Reassembling strict M N A (drain_pending fuel rs) ∧ Settled (drain_pending fuel rs) ∧
      ∃ d, Delivered M d rs (drain_pending fuel rs) := by
  induction fuel generalizing rs with
  | zero =>
    refine ⟨h, ?_, 0, Delivered.refl⟩
    intro p hp
    have hlook : rs.pending.lookup rs.next_rx_seq = some p := hp
    have := entries_erase_length hlook
    omega
  | succ fuel ih =>
    unfold drain_pending
    cases hp : rs.pending.lookup rs.next_rx_seq with
    | none =>
      refine ⟨h, ?_, 0, Delivered.refl⟩
      intro p hp'
      rw [hp] at hp'
      cases hp'
    | some p =>
      dsimp only
      by_cases hrec : p.received = p.frag_total
      · rw [if_neg (not_not.mpr hrec)]
        obtain ⟨hfull, hflat⟩ := h.complete le_rfl hp hrec
        have hlt : rs.next_rx_seq < N := h.sent _ (h.held _ p le_rfl hp).1
        have hmod : (rs.next_rx_seq + 1) % 2 ^ 32 = rs.next_rx_seq + 1 := Nat.mod_eq_of_lt (by omega)
        rw [hflat, hmod]
        -- the state the next round starts from
        generalize hmid : RxState.mk (rs.next_rx_seq + 1) rs.max_seen_seq rs.any_seen
          (rs.pending.erase rs.next_rx_seq)
          (if (M rs.next_rx_seq).length > 0 then rs.rx ++ [{ bytes := M rs.next_rx_seq }] else rs.rx)
          (rs.rx_bytes + (M rs.next_rx_seq).length) rs.nack_state rs.poisoned = mid
        have hpush := h.push hlt (fun m hm => AList.lookup_erase_ne (by omega)) hmid.symm
        rw [← hfull, Function.update_eq_self] at hpush
        obtain ⟨hre, hdel⟩ := hpush
        have hpend : mid.pending = rs.pending.erase rs.next_rx_seq := by subst hmid; rfl
        have hlen : mid.pending.entries.length ≤ fuel := by
          have := entries_erase_length hp
          rw [hpend]
          omega
        obtain ⟨h1, h2, d, h3⟩ := ih hre hlen
        exact ⟨h1, h2, 1 + d, hdel.trans h3⟩
      · rw [if_pos hrec]
        refine ⟨h, ?_, 0, Delivered.refl⟩
        intro q hq
        rw [hp] at hq
        obtain rfl : p = q := Option.some.inj hq
        exact hrec

theorem Reassembling.add_to_partial (h : Reassembling strict M N A rs) {n i : ℕ}
    (hn : rs.next_rx_seq ≤ n) (hM : fragCount (M n).length < 2 ^ 16)
    (hi : i < fragCount (M n).length) (hguard : strict → M n = [] → A n = ∅) :
    let p := ((rs.pending.lookup n).getD {}).add i (fragCount (M n).length) (piece (M n) i)
    p.frag_total = fragCount (M n).length ∧
      p.frags = filled (fragCount (M n).length) (piece (M n)) (insert i (A n)) ∧
      (strict ∨ M n ≠ [] → p.received = (insert i (A n)).card) := by
  dsimp only
  cases hlook : rs.pending.lookup n with
  | none =>
    rw [Option.getD_none, Partial.add_fresh hi, h.absent n hn hlook]
    exact ⟨rfl, rfl, fun _ => rfl⟩
  | some q =>
    obtain ⟨hne, htot, hfrags, hcount⟩ := h.held n q hn hlook
    obtain ⟨ft, r, fr⟩ := q
    dsimp only at htot hfrags hcount
    subst htot hfrags
    rw [Option.getD_some, Partial.add_filled hi]
    by_cases hdup : i ∈ A n ∧ piece (M n) i ≠ []
    · rw [if_pos hdup, Finset.insert_eq_of_mem hdup.1]
      exact ⟨rfl, rfl, hcount⟩
    · rw [if_neg hdup]
      refine ⟨rfl, rfl, ?_⟩
      intro hc
      have hiA : i ∉ A n := by
        intro hiA
        have hMn : M n = [] := by
          by_contra hMn
          exact hdup ⟨hiA, piece_ne_nil hMn hi⟩
        rw [hguard (hc.resolve_right (not_not.mpr hMn)) hMn] at hiA
        exact Finset.notMem_empty i hiA
      have hcard : (insert i (A n)).card ≤ fragCount (M n).length := by
        have := Finset.card_le_card (Finset.insert_subset (Finset.mem_range.mpr hi) (h.bounded n))
        rwa [Finset.card_range] at this
      rw [Finset.card_insert_of_notMem hiA] at hcard ⊢
      show (r + 1) % 2 ^ 32 = (A n).card + 1
      rw [hcount hc]
      exact Nat.mod_eq_of_lt (by omega)

/-- A fragment of a stream already passed on has arrived before. -/
theorem Reassembling.late (h : Reassembling strict M N A rs) {n i : ℕ} (hlate : n < rs.next_rx_seq)
    (hi : i < fragCount (M n).length) : Function.update A n (insert i (A n)) = A := by
  have hmem : i ∈ A n := by
    rw [h.done n hlate]
    exact Finset.mem_range.mpr hi
  rw [Finset.insert_eq_of_mem hmem, Function.update_eq_self]

/-- The one fragment of the stream that is due goes to the reader at once. -/
theorem Reassembling.single (h : Reassembling strict M N A rs) (hN : N < 2 ^ 32) {n : ℕ} (hn : n < N)
    (hone : fragCount (M n).length = 1) (hnx : n = rs.next_rx_seq)
    (hmid : rs' = { rs with
      rx := if (piece (M n) 0).length > 0 then rs.rx ++ [{ bytes := piece (M n) 0 }] else rs.rx
      rx_bytes := rs.rx_bytes + (piece (M n) 0).length
      next_rx_seq := (rs.next_rx_seq + 1) % 2 ^ 32 }) :
    Reassembling strict M N (Function.update A n (insert 0 (A n))) rs' ∧ Delivered M 1 rs rs' := by
  have hpiece : piece (M n) 0 = M n := by
    have := pieces_all (M n)
    rw [hone] at this
    simpa using this
  have hmod : (rs.next_rx_seq + 1) % 2 ^ 32 = rs.next_rx_seq + 1 := Nat.mod_eq_of_lt (by omega)
  have hfull : insert 0 (A n) = Finset.range (fragCount (M n).length) := by
    have hmem : 0 ∈ Finset.range (fragCount (M n).length) := by simp [hone]
    apply Finset.Subset.antisymm (Finset.insert_subset hmem (h.bounded n))
    rw [hone]
    simp
  rw [hpiece, hmod] at hmid
  rw [hfull]
  subst hnx
  exact h.push hn (fun _ _ => rfl) hmid

/-- Any other fragment is held until its stream is due and complete. -/
theorem Reassembling.hold (h : Reassembling strict M N A rs) {n i : ℕ} (hge : rs.next_rx_seq ≤ n)
    (hM : fragCount (M n).length < 2 ^ 16) (hn : n < N) (hi : i < fragCount (M n).length)
    (hguard : strict → M n = [] → A n = ∅) :
    Reassembling strict M N (Function.update A n (insert i (A n)))
      { rs with
        pending := rs.pending.insert n
          (((rs.pending.lookup n).getD {}).add i (fragCount (M n).length) (piece (M n) i)) } := by
  have hnew := h.add_to_partial hge hM hi hguard
  refine ⟨h.next_le, ?_, ?_, ?_, ?_, ?_⟩
  · intro m
    by_cases hm : m = n
    · subst hm
      rw [Function.update_self]
      exact Finset.insert_subset (Finset.mem_range.mpr hi) (h.bounded m)
    · rw [Function.update_of_ne hm]
      exact h.bounded m
  · intro m
    by_cases hm : m = n
    · subst hm
      exact fun _ => hn
    · rw [Function.update_of_ne hm]
      exact h.sent m
  · intro m hm
    rw [Function.update_of_ne (Nat.ne_of_lt (Nat.lt_of_lt_of_le hm hge))]
    exact h.done m hm
  · intro m hm hlook
    by_cases hmn : m = n
    · subst hmn
      rw [AList.lookup_insert] at hlook
      cases hlook
    · rw [AList.lookup_insert_ne hmn] at hlook
      rw [Function.update_of_ne hmn]
      exact h.absent m hm hlook
  · intro m q hm hlook
    by_cases hmn : m = n
    · subst hmn
      rw [AList.lookup_insert] at hlook
      obtain rfl := Option.some.inj hlook
      rw [Function.update_self]
      exact ⟨Finset.insert_nonempty _ _, hnew⟩
    · rw [AList.lookup_insert_ne hmn] at hlook
      rw [Function.update_of_ne hmn]
      exact h.held m q hm hlook

theorem Reassembling.accept (h : Reassembling strict M N A rs) (hset : Settled rs) (hN : N < 2 ^ 32)
    {n i : ℕ} (hM : fragCount (M n).length < 2 ^ 16) (hn : n < N) (hi : i < fragCount (M n).length)
    (hguard : strict → M n = [] → rs.next_rx_seq < n → A n = ∅) :
    ∃ d, Reassembling strict M N (Function.update A n (insert i (A n)))
        (rs.accept n i (fragCount (M n).length) (piece (M n) i)) ∧
      Settled (rs.accept n i (fragCount (M n).length) (piece (M n) i)) ∧
      Delivered M d (rs.note_arrival n i)
        (rs.accept n i (fragCount (M n).length) (piece (M n) i)) := by
  have h0 : Reassembling strict M N A (rs.note_arrival n i) := h.congr rfl rfl
  have hset0 : Settled (rs.note_arrival n i) := hset
  have hguard0 : strict → M n = [] → (rs.note_arrival n i).next_rx_seq < n → A n = ∅ := hguard
  unfold RxState.accept
  dsimp only
  generalize rs.note_arrival n i = rs0 at *
  by_cases hlate : n < rs0.next_rx_seq
  · rw [if_pos hlate, h0.late hlate hi]
    exact ⟨0, h0, hset0, Delivered.refl⟩
  rw [if_neg hlate]
  by_cases hfast : fragCount (M n).length = 1 ∧ n = rs0.next_rx_seq
  · rw [if_pos hfast]
    obtain rfl : i = 0 := by omega
    obtain ⟨hre, hdel⟩ := h0.single hN hn hfast.1 hfast.2 rfl
    obtain ⟨h1, h2, d, h3⟩ := hre.drain hN _ le_rfl
    exact ⟨1 + d, h1, h2, hdel.trans h3⟩
  · rw [if_neg hfast]
    have hre := h0.hold (Nat.le_of_not_lt hlate) hM hn hi fun hs hMn => hguard0 hs hMn (by
      have hone : fragCount (M n).length = 1 := by rw [hMn]; rfl
      have hne : n ≠ rs0.next_rx_seq := fun e => hfast ⟨hone, e⟩
      omega)
    obtain ⟨h1, h2, d, h3⟩ := hre.drain hN _ le_rfl
    exact ⟨0 + d, h1, h2, Delivered.trans (.of_pending rfl) h3⟩

end Delivery
end QSync.Io
