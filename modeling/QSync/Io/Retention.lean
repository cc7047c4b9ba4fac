import Mathlib.Data.List.DropRight
import QSync.Io.Link

/-! # What a sender retains

Complete calls of `send`, one after the other, with full socket buffers in between. The FIFO of
stream numbers and the records stay in step as long as no first fragment has to be sent again: every
attempt at it queues the stream once more.
-/

namespace QSync.Io
open QSync.Network
set_option autoImplicit false
set_option maxHeartbeats 250000

/-! ## Complete calls -/

/-- A message, and for each fragment how many times `sendto` fails with `EAGAIN` before it is sent. -/
structure SendTry where
  data : Bytes
  again : ℕ → ℕ

section Calls
variable (C : Config) (dst : ℕ)

def send_fragment : ℕ → TxState × SendCall → TxState × SendCall
  | 0, s => (send_retain C dst s.1 s.2, send_datagram s.2 true)
  | n + 1, s => send_fragment n (send_retain C dst s.1 s.2, send_datagram s.2 false)

/-- The loop of `send`, with the datagrams that egress. -/
def send_rounds (again : ℕ → ℕ) : ℕ → TxState × SendCall → (TxState × SendCall) × List Bytes
  | 0, s => (s, [])
  | fuel + 1, s =>
    if s.2.more then
      let r := send_rounds again fuel (send_fragment C dst (again s.2.i) s)
      (r.1, s.2.buf C dst :: r.2)
    else (s, [])

def send_call (ts : TxState) (t : SendTry) : TxState × List Bytes :=
  let s := send_start ts t.data
  let r := send_rounds C dst t.again (total t.data.length) s
  (send_end r.1.1 r.1.2, r.2)

/-- The calls in order: the send state, and what each of them put on the wire. -/
def sends (calls : List SendTry) : TxState × List (List Bytes) :=
  calls.foldl (fun s t => ((send_call C dst s.1 t).1, s.2 ++ [(send_call C dst s.1 t).2])) ({}, [])

end Calls

def TxRecord.of_datagram (buf : Bytes) : TxRecord :=
  { frag_total := field buf 14 2, payload_len := field buf 16 4, payload := buf.drop HEADER_SIZE }

/-- The calls still to be answered for, the last `TX_BUF_CAP_STREAMS`. -/
def recent (n : ℕ) : List ℕ := (List.range n).rtake TX_BUF_CAP_STREAMS

/-- The FIFO lists the recent streams, and the buffer holds their datagrams and nothing else. -/
structure Retained (C : Config) (dst : ℕ) (calls : List SendTry)
    (s : TxState × List (List Bytes)) : Prop where
  order : s.1.tx_buf_order = (recent calls.length).map (· % 2 ^ 32)
  complete : ∀ n t, calls[n]? = some t → s.2[n]? = some
    ((List.range (fragCount t.data.length)).map fun i =>
      (SendCall.at (n % 2 ^ 32) t.data i).buf C dst)
  held : ∀ n ∈ recent calls.length, ∀ i,
    s.1.tx_buf (n % 2 ^ 32, i) = (s.2.getD n [])[i]?.map TxRecord.of_datagram
  only : ∀ key, s.1.tx_buf key ≠ none → key.1 ∈ s.1.tx_buf_order

/-! ## The last entries of a list -/

section Last

theorem mem_recent {n k : ℕ} : k ∈ recent n ↔ n - TX_BUF_CAP_STREAMS ≤ k ∧ k < n := by
  unfold recent List.rtake
  rw [List.range_eq_range', List.length_range', List.drop_range', List.mem_range'_1]
  omega

theorem rtake_rtake {α : Type} (l : List α) {m k : ℕ} (h : m ≤ k) :
    (l.rtake k).rtake m = l.rtake m := by
  unfold List.rtake
  rw [List.drop_drop, List.length_drop]
  congr 1
  omega

theorem rdrop_append_rtake {α : Type} (l : List α) (n : ℕ) : l.rdrop n ++ l.rtake n = l :=
  List.take_append_drop _ l

theorem rtake_concat {α : Type} (l : List α) (x : α) {n : ℕ} (hn : 0 < n) :
    (l ++ [x]).rtake n = (l.rtake n ++ [x]).rtake n := by
  obtain ⟨k, rfl⟩ := Nat.exists_eq_succ_of_ne_zero hn.ne'
  rw [List.rtake_concat_succ, List.rtake_concat_succ, rtake_rtake _ (Nat.le_succ k)]

theorem recent_mod_inj {n a b : ℕ} (ha : n ≤ a + TX_BUF_CAP_STREAMS) (ha' : a ≤ n)
    (hb : n ≤ b + TX_BUF_CAP_STREAMS) (hb' : b ≤ n) (h : a % 2 ^ 32 = b % 2 ^ 32) : a = b := by
  unfold TX_BUF_CAP_STREAMS at *
  omega

theorem nodup_recent (n : ℕ) : ((recent n).map (· % 2 ^ 32)).Nodup := by
  apply List.Nodup.map_on
  · intro a ha b hb h
    rw [mem_recent] at ha hb
    exact recent_mod_inj (n := n) (by omega) (by omega) (by omega) (by omega) h
  · exact List.nodup_range.sublist (List.drop_sublist _ _)

theorem suffix_rtake {α : Type} {t l : List α} {n : ℕ} (h : t <:+ l) (hn : t.length ≤ n) :
    t <:+ l.rtake n := by
  apply List.suffix_of_suffix_length_le h (List.drop_suffix _ _)
  have := h.length_le
  rw [List.length_drop]
  omega

end Last

/-! ## Eviction -/

section Evict

/-- An order over the bound has its oldest entry and the excess of the rest to lose. -/
theorem excess_cons {old : ℕ} {order : List ℕ} (h : (old :: order).length > TX_BUF_CAP_STREAMS) :
    (old :: order).length - TX_BUF_CAP_STREAMS = (order.length - TX_BUF_CAP_STREAMS) + 1 := by
  rw [List.length_cons] at h ⊢
  omega

theorem evict_order (order : List ℕ) (tx_buf : ℕ × ℕ → Option TxRecord) :
    (evict order tx_buf).1 = order.rtake TX_BUF_CAP_STREAMS := by
  induction order generalizing tx_buf with
  | nil => rfl
  | cons old order ih =>
    unfold evict List.rtake
    split
    · next h =>
      rw [ih, excess_cons h, List.drop_succ_cons]
      rfl
    · next h =>
      rw [Nat.sub_eq_zero_of_le (by omega), List.drop_zero]

theorem evict_buf (order : List ℕ) (tx_buf : ℕ × ℕ → Option TxRecord) (key : ℕ × ℕ) :
    (evict order tx_buf).2 key =
      if key.1 ∈ order.rdrop TX_BUF_CAP_STREAMS then none else tx_buf key := by
  induction order generalizing tx_buf with
  | nil => simp [evict]
  | cons old order ih =>
    unfold evict List.rdrop
    split
    · next h =>
      rw [ih, excess_cons h, List.take_succ_cons, List.rdrop]
      by_cases hold : key.1 = old
      · simp [hold]
      · simp [hold]
    · next h =>
      rw [Nat.sub_eq_zero_of_le (by omega), List.take_zero, if_neg List.not_mem_nil]

end Evict

/-! ## One call -/

section Call
variable {C : Config} {dst : ℕ} {ts : TxState} {seq i : ℕ} {data : Bytes}

theorem send_fragment_eq (n : ℕ) (ts : TxState) (c : SendCall) :
    send_fragment C dst n (ts, c) =
      ((fun ts => send_retain C dst ts c)^[n + 1] ts, send_datagram c true) := by
  induction n generalizing ts with
  | zero => rfl
  | succ n ih =>
    rw [Function.iterate_succ_apply, ← ih]
    rfl

theorem send_retain_later (h : (SendCall.at seq data i).i ≠ 0) (n : ℕ) :
    (fun ts => send_retain C dst ts (SendCall.at seq data i))^[n + 1] ts =
      { ts with
        tx_buf := Function.update ts.tx_buf (seq, i % 2 ^ 16)
          (some ((SendCall.at seq data i).record C dst)) } := by
  have hone : ∀ ts, send_retain C dst ts (SendCall.at seq data i) =
      { ts with
        tx_buf := Function.update ts.tx_buf (seq, i % 2 ^ 16)
          (some ((SendCall.at seq data i).record C dst)) } := by
    intro ts
    unfold send_retain
    rw [if_neg h]
    rfl
  induction n with
  | zero => exact hone ts
  | succ n ih =>
    rw [Function.iterate_succ_apply', ih, hone]
    dsimp only
    rw [Function.update_idem]

/-- The records of the fragments from `i` on, over those there are. -/
def with_records (C : Config) (dst seq : ℕ) (data : Bytes) (i : ℕ)
    (tx_buf : ℕ × ℕ → Option TxRecord) (key : ℕ × ℕ) : Option TxRecord :=
  if key.1 = seq ∧ i ≤ key.2 ∧ key.2 < total data.length then
    some ((SendCall.at seq data key.2).record C dst)
  else tx_buf key

theorem send_rounds_later (again : ℕ → ℕ) (fuel : ℕ) (hi : 0 < i)
    (h : i + fuel = total data.length) (hsmall : total data.length ≤ 2 ^ 16) :
    send_rounds C dst again fuel (ts, SendCall.at seq data i) =
      (({ ts with tx_buf := with_records C dst seq data i ts.tx_buf },
        SendCall.at seq data (total data.length)),
      (List.range' i fuel).map fun i => (SendCall.at seq data i).buf C dst) := by
  induction fuel generalizing i ts with
  | zero =>
    obtain rfl : i = total data.length := h
    have hnone : with_records C dst seq data (total data.length) ts.tx_buf = ts.tx_buf := by
      funext key
      exact if_neg (fun hk => by omega)
    rw [hnone]
    rfl
  | succ fuel ih =>
    have hmore : (SendCall.at seq data i).more = true :=
      decide_eq_true (show i < total data.length by omega)
    unfold send_rounds
    dsimp only
    rw [if_pos hmore, send_fragment_eq, send_retain_later (show i ≠ 0 by omega),
      SendCall.send_datagram_at, ih (by omega) (by omega), List.range'_succ, List.map_cons]
    dsimp only
    refine Prod.ext (Prod.ext ?_ rfl) rfl
    refine congrArg (fun b => { ts with tx_buf := b }) ?_
    funext key
    unfold with_records
    by_cases hkey : key = (seq, i)
    · subst hkey
      rw [Nat.mod_eq_of_lt (show i < 2 ^ 16 by omega), if_neg (fun hk => by omega),
        Function.update_self, if_pos ⟨rfl, le_rfl, by omega⟩]
    · rw [Nat.mod_eq_of_lt (show i < 2 ^ 16 by omega), Function.update_of_ne hkey]
      have hiff : (key.1 = seq ∧ i + 1 ≤ key.2 ∧ key.2 < total data.length) ↔
          (key.1 = seq ∧ i ≤ key.2 ∧ key.2 < total data.length) := by
        constructor
        · rintro ⟨h1, h2, h3⟩
          exact ⟨h1, by omega, h3⟩
        · rintro ⟨h1, h2, h3⟩
          refine ⟨h1, ?_, h3⟩
          have hne : key.2 ≠ i := fun h2' => hkey (Prod.ext h1 h2')
          omega
      exact if_congr hiff rfl rfl

/-- A call puts its fragments on the wire, whatever the socket does in between; the first fragment's
attempts decide the FIFO, the later ones only add their records. -/
theorem send_call_eq (t : SendTry) (hsmall : fragCount t.data.length ≤ 2 ^ 16) :
    send_call C dst ts t =
      let r := (fun ts' => send_retain C dst ts' (SendCall.at ts.local_seq t.data 0))^[t.again 0 + 1]
        (send_start ts t.data).1
      ({ r with
          tx_buf := with_records C dst ts.local_seq t.data 1 r.tx_buf
          streams_in_flight := r.streams_in_flight.erase ts.local_seq },
        (List.range (fragCount t.data.length)).map fun i =>
          (SendCall.at ts.local_seq t.data i).buf C dst) := by
  have htot : total t.data.length = fragCount t.data.length := total_eq hsmall
  obtain ⟨k, hk⟩ := Nat.exists_eq_succ_of_ne_zero (fragCount_pos t.data.length).ne'
  have hmore : (SendCall.at ts.local_seq t.data 0).more = true :=
    decide_eq_true (show 0 < total t.data.length by omega)
  have hstart : send_start ts t.data =
      ((send_start ts t.data).1, SendCall.at ts.local_seq t.data 0) := by
    rw [SendCall.at_zero]
    rfl
  unfold send_call
  dsimp only
  rw [hstart, htot, hk]
  unfold send_rounds
  dsimp only
  rw [if_pos hmore, send_fragment_eq, SendCall.send_datagram_at,
    send_rounds_later _ k Nat.one_pos (by omega) (by omega), List.range_eq_range', List.range'_succ,
    List.map_cons]
  rfl

end Call

/-! ## Which calls keep the buffer in step -/

section Runs
variable {C : Config} {dst : ℕ} {calls : List SendTry} {t : SendTry}

theorem sends_concat (calls : List SendTry) (t : SendTry) :
    sends C dst (calls ++ [t]) = ((send_call C dst (sends C dst calls).1 t).1,
      (sends C dst calls).2 ++ [(send_call C dst (sends C dst calls).1 t).2]) := by
  unfold sends
  rw [List.foldl_append]
  rfl

theorem send_retain_iterate_local_seq (ts : TxState) (c : SendCall) (n : ℕ) :
    ((fun ts => send_retain C dst ts c)^[n] ts).local_seq = ts.local_seq := by
  induction n with
  | zero => rfl
  | succ n ih => rw [Function.iterate_succ_apply', (send_retain_same _ _ _ _).1, ih]

theorem sends_counts (hsmall : ∀ t ∈ calls, fragCount t.data.length ≤ 2 ^ 16) :
    (sends C dst calls).1.local_seq = calls.length % 2 ^ 32 ∧
      (sends C dst calls).2.length = calls.length := by
  induction calls using List.reverseRecOn with
  | nil => exact ⟨rfl, rfl⟩
  | append_singleton calls t ih =>
    obtain ⟨hseq, hlen⟩ := ih (fun t ht => hsmall t (List.mem_append_left _ ht))
    rw [sends_concat, send_call_eq t (hsmall t (by simp))]
    dsimp only
    rw [send_retain_iterate_local_seq, List.length_append, List.length_append, hlen]
    refine ⟨?_, rfl⟩
    show ((sends C dst calls).1.local_seq + 1) % 2 ^ 32 = (calls.length + 1) % 2 ^ 32
    rw [hseq, Nat.mod_add_mod]

theorem of_datagram_buf (seq : ℕ) (data : Bytes) (i : ℕ) :
    TxRecord.of_datagram ((SendCall.at seq data i).buf C dst) =
      (SendCall.at seq data i).record C dst := by
  unfold TxRecord.of_datagram SendCall.buf SendCall.record
  rw [field_total, field_plen, drop_header]

theorem recent_succ (n : ℕ) :
    (recent (n + 1)).map (· % 2 ^ 32) =
      ((recent n).map (· % 2 ^ 32) ++ [n % 2 ^ 32]).rtake TX_BUF_CAP_STREAMS := by
  have hmap : ∀ (l : List ℕ) (m : ℕ),
      (l.rtake m).map (· % 2 ^ 32) = (l.map (· % 2 ^ 32)).rtake m := by
    intro l m
    unfold List.rtake
    rw [List.map_drop, List.length_map]
  unfold recent
  rw [hmap, hmap, List.range_succ, List.map_append]
  exact rtake_concat _ _ (by decide)

theorem evicted_old {n a : ℕ}
    (h : a ∈ ((recent n).map (· % 2 ^ 32) ++ [n % 2 ^ 32]).rdrop TX_BUF_CAP_STREAMS) :
    ∀ k ∈ recent (n + 1), k % 2 ^ 32 ≠ a := by
  intro k hk heq
  -- the last `TX_BUF_CAP_STREAMS` of the list already hold the number
  have hnodup : ((recent n).map (· % 2 ^ 32) ++ [n % 2 ^ 32]).Nodup := by
    rw [List.nodup_append]
    refine ⟨nodup_recent n, List.nodup_singleton _, ?_⟩
    intro b hb c hc hbc
    obtain ⟨j, hj, rfl⟩ := List.mem_map.mp hb
    rw [List.mem_singleton] at hc
    rw [mem_recent] at hj
    have := recent_mod_inj (n := n) (by omega) (by omega) (by omega) le_rfl (hbc.trans hc)
    omega
  have hmem : a ∈ ((recent n).map (· % 2 ^ 32) ++ [n % 2 ^ 32]).rtake TX_BUF_CAP_STREAMS := by
    rw [← recent_succ]
    exact List.mem_map.mpr ⟨k, hk, heq⟩
  rw [← rdrop_append_rtake ((recent n).map (· % 2 ^ 32) ++ [n % 2 ^ 32])
    TX_BUF_CAP_STREAMS] at hnodup
  exact List.disjoint_of_nodup_append hnodup h hmem

theorem send_call_order (ts : TxState) (hsmall : fragCount t.data.length ≤ 2 ^ 16)
    (hagain : t.again 0 = 0) : (send_call C dst ts t).1.tx_buf_order =
      (ts.tx_buf_order ++ [ts.local_seq]).rtake TX_BUF_CAP_STREAMS := by
  rw [send_call_eq t hsmall, hagain]
  exact evict_order _ _

theorem send_call_buf (ts : TxState) (hsmall : fragCount t.data.length ≤ 2 ^ 16)
    (hagain : t.again 0 = 0)
    (hkeep : ts.local_seq ∉ (ts.tx_buf_order ++ [ts.local_seq]).rdrop TX_BUF_CAP_STREAMS)
    (key : ℕ × ℕ) : (send_call C dst ts t).1.tx_buf key =
      if key.1 = ts.local_seq ∧ key.2 < total t.data.length then
        some ((SendCall.at ts.local_seq t.data key.2).record C dst)
      else if key.1 ∈ (ts.tx_buf_order ++ [ts.local_seq]).rdrop TX_BUF_CAP_STREAMS then none
      else ts.tx_buf key := by
  have htot : 0 < total t.data.length := by
    rw [total_eq hsmall]
    exact fragCount_pos _
  have hfirst : (send_retain C dst (send_start ts t.data).1
      (SendCall.at ts.local_seq t.data 0)).tx_buf key =
      if key.1 ∈ (ts.tx_buf_order ++ [ts.local_seq]).rdrop TX_BUF_CAP_STREAMS then none
      else Function.update ts.tx_buf (ts.local_seq, 0)
        (some ((SendCall.at ts.local_seq t.data 0).record C dst)) key := evict_buf _ _ _
  rw [send_call_eq t hsmall, hagain]
  dsimp only
  rw [Function.iterate_one]
  unfold with_records
  rw [hfirst]
  by_cases hkey : key.1 = ts.local_seq
  · obtain h0 | hpos := Nat.eq_zero_or_pos key.2
    · obtain rfl : key = (ts.local_seq, 0) := Prod.ext hkey h0
      rw [if_neg (fun hk => Nat.not_succ_le_zero 0 hk.2.1), if_neg hkeep, Function.update_self,
        if_pos ⟨rfl, htot⟩]
    · have hne : key ≠ (ts.local_seq, 0) := fun hk => by
        rw [hk] at hpos
        exact absurd hpos (lt_irrefl 0)
      rw [Function.update_of_ne hne]
      exact if_congr ⟨fun hk => ⟨hk.1, hk.2.2⟩, fun hk => ⟨hk.1, hpos, hk.2⟩⟩ rfl rfl
  · have hne : key ≠ (ts.local_seq, 0) := fun hk => hkey (by rw [hk])
    have hother : ¬(key.1 = ts.local_seq ∧ key.2 < total t.data.length) := fun hk => hkey hk.1
    rw [if_neg (fun hk => hkey hk.1), Function.update_of_ne hne, if_neg hother]

theorem send_call_wire (ts : TxState) (hsmall : fragCount t.data.length ≤ 2 ^ 16) :
    (send_call C dst ts t).2 = (List.range (fragCount t.data.length)).map fun i =>
      (SendCall.at ts.local_seq t.data i).buf C dst := by
  rw [send_call_eq t hsmall]

section NextCall
variable {s : TxState × List (List Bytes)} (h : Retained C dst calls s)
  (hseq : s.1.local_seq = calls.length % 2 ^ 32)
include h hseq

/-- What leaves the FIFO with the next call is no recent stream. -/
theorem Retained.evicts {a : ℕ}
    (ha : a ∈ (s.1.tx_buf_order ++ [s.1.local_seq]).rdrop TX_BUF_CAP_STREAMS) :
    ∀ k ∈ recent (calls.length + 1), k % 2 ^ 32 ≠ a := by
  rw [h.order, hseq] at ha
  exact evicted_old ha

theorem Retained.keeps_own :
    s.1.local_seq ∉ (s.1.tx_buf_order ++ [s.1.local_seq]).rdrop TX_BUF_CAP_STREAMS := by
  intro hmem
  have hlast : calls.length ∈ recent (calls.length + 1) :=
    mem_recent.mpr ⟨by unfold TX_BUF_CAP_STREAMS; omega, Nat.lt_succ_self _⟩
  exact h.evicts hseq hmem _ hlast hseq.symm

/-- The buffer holds nothing under the number of the next stream. -/
theorem Retained.fresh (i : ℕ) : s.1.tx_buf (s.1.local_seq, i) = none := by
  by_contra hne
  have hmem := h.only _ hne
  rw [h.order] at hmem
  obtain ⟨k, hk, heq⟩ := List.mem_map.mp hmem
  dsimp only at heq
  rw [mem_recent] at hk
  have := recent_mod_inj (n := calls.length) (by omega) (by omega) (by omega) le_rfl
    (heq.trans hseq)
  omega

/-- After the next call the buffer holds the datagrams of the recent streams. -/
theorem Retained.held_call (hlen : s.2.length = calls.length)
    (hsmall : fragCount t.data.length ≤ 2 ^ 16) (hagain : t.again 0 = 0) {n : ℕ}
    (hn : n ∈ recent (calls.length + 1)) (i : ℕ) :
    (send_call C dst s.1 t).1.tx_buf (n % 2 ^ 32, i) =
      ((s.2 ++ [(send_call C dst s.1 t).2]).getD n [])[i]?.map TxRecord.of_datagram := by
  have htot : total t.data.length = fragCount t.data.length := total_eq hsmall
  have hn' := mem_recent.mp hn
  rw [send_call_buf s.1 hsmall hagain (h.keeps_own hseq)]
  dsimp only
  obtain hlt | hge := Nat.lt_or_ge n calls.length
  · -- an earlier stream
    have hne : n % 2 ^ 32 ≠ s.1.local_seq := by
      rw [hseq]
      intro heq
      have := recent_mod_inj (n := calls.length) (by omega) (by omega) (by omega) le_rfl heq
      omega
    rw [if_neg (fun hk => hne hk.1), if_neg (fun hmem => h.evicts hseq hmem n hn rfl),
      List.getD_append _ _ _ _ (by omega)]
    have hmem : n ∈ recent calls.length := mem_recent.mpr ⟨by omega, hlt⟩
    exact h.held n hmem i
  · -- the new one
    obtain rfl : n = calls.length := by omega
    rw [List.getD_append_right _ _ _ _ (by omega), hlen, Nat.sub_self, List.getD_cons_zero,
      send_call_wire _ hsmall, ← hseq, List.getElem?_map, Option.map_map]
    obtain hi | hi := Nat.lt_or_ge i (fragCount t.data.length)
    · rw [if_pos ⟨rfl, by omega⟩, List.getElem?_range hi, Option.map_some, Function.comp_apply,
        of_datagram_buf]
    · rw [if_neg (fun hk => absurd hk.2 (by omega)), if_neg (h.keeps_own hseq), h.fresh hseq,
        List.getElem?_eq_none (by rw [List.length_range]; exact hi), Option.map_none]

theorem Retained.call (hlen : s.2.length = calls.length)
    (hsmall : fragCount t.data.length ≤ 2 ^ 16) (hagain : t.again 0 = 0) :
    Retained C dst (calls ++ [t])
      ((send_call C dst s.1 t).1, s.2 ++ [(send_call C dst s.1 t).2]) := by
  constructor
  · dsimp only
    rw [send_call_order s.1 hsmall hagain, h.order, hseq, List.length_append,
      List.length_singleton, recent_succ]
  · intro n t' hn
    dsimp only
    obtain hlt | rfl | hgt := Nat.lt_trichotomy n calls.length
    · rw [List.getElem?_append_left hlt] at hn
      rw [List.getElem?_append_left (by omega)]
      exact h.complete n t' hn
    · rw [List.getElem?_concat_length] at hn
      obtain rfl := Option.some.inj hn
      rw [← hlen, List.getElem?_concat_length, hlen, send_call_wire _ hsmall, hseq]
    · rw [List.getElem?_eq_none (by rw [List.length_append, List.length_singleton]; omega)] at hn
      cases hn
  · intro n hn i
    rw [List.length_append, List.length_singleton] at hn
    exact h.held_call hseq hlen hsmall hagain hn i
  · intro key hkey
    dsimp only at hkey ⊢
    rw [send_call_buf s.1 hsmall hagain (h.keeps_own hseq)] at hkey
    rw [send_call_order s.1 hsmall hagain]
    have hsplit : ∀ a, a ∈ s.1.tx_buf_order ++ [s.1.local_seq] →
        a ∉ (s.1.tx_buf_order ++ [s.1.local_seq]).rdrop TX_BUF_CAP_STREAMS →
        a ∈ (s.1.tx_buf_order ++ [s.1.local_seq]).rtake TX_BUF_CAP_STREAMS := by
      intro a ha hnot
      rw [← rdrop_append_rtake (s.1.tx_buf_order ++ [s.1.local_seq]) TX_BUF_CAP_STREAMS] at ha
      exact (List.mem_append.mp ha).resolve_left hnot
    split at hkey
    · next hk =>
      rw [hk.1]
      exact hsplit _ (by simp) (h.keeps_own hseq)
    · split at hkey
      · exact absurd rfl hkey
      · next hnot => exact hsplit _ (List.mem_append_left _ (h.only key hkey)) hnot

end NextCall

theorem retained_of_first (hsmall : ∀ t ∈ calls, fragCount t.data.length ≤ 2 ^ 16)
    (hagain : ∀ t ∈ calls, t.again 0 = 0) : Retained C dst calls (sends C dst calls) := by
  induction calls using List.reverseRecOn with
  | nil =>
    refine ⟨rfl, ?_, ?_, ?_⟩
    · intro n t hn
      cases hn
    · intro n hn
      cases hn
    · intro key hkey
      exact absurd rfl hkey
  | append_singleton calls t ih =>
    have hsmall' : ∀ t ∈ calls, fragCount t.data.length ≤ 2 ^ 16 :=
      fun t ht => hsmall t (List.mem_append_left _ ht)
    obtain ⟨hseq, hlen⟩ : (sends C dst calls).1.local_seq = calls.length % 2 ^ 32 ∧
        (sends C dst calls).2.length = calls.length := sends_counts hsmall'
    rw [sends_concat]
    exact (ih hsmall' fun t ht => hagain t (List.mem_append_left _ ht)).call hseq hlen
      (hsmall t (by simp)) (hagain t (by simp))

theorem send_retain_first_order (ts : TxState) (seq : ℕ) (data : Bytes) :
    (send_retain C dst ts (SendCall.at seq data 0)).tx_buf_order =
      (ts.tx_buf_order ++ [seq]).rtake TX_BUF_CAP_STREAMS := evict_order _ _

theorem send_call_twice (ts : TxState) (hsmall : fragCount t.data.length ≤ 2 ^ 16)
    (hagain : t.again 0 ≠ 0) :
    [ts.local_seq, ts.local_seq] <:+ (send_call C dst ts t).1.tx_buf_order := by
  obtain ⟨n, hn⟩ := Nat.exists_eq_succ_of_ne_zero hagain
  rw [send_call_eq t hsmall, hn]
  show [ts.local_seq, ts.local_seq] <:+ (_^[n + 1 + 1] (send_start ts t.data).1).tx_buf_order
  clear hn
  -- by induction on the further attempts, from the second one on
  induction n with
  | zero =>
    rw [Function.iterate_succ_apply', Function.iterate_one, send_retain_first_order,
      send_retain_first_order]
    apply suffix_rtake _ (show 2 ≤ TX_BUF_CAP_STREAMS by decide)
    have hone : [ts.local_seq] <:+
        ((send_start ts t.data).1.tx_buf_order ++ [ts.local_seq]).rtake TX_BUF_CAP_STREAMS :=
      suffix_rtake (List.suffix_append _ _) (show 1 ≤ TX_BUF_CAP_STREAMS by decide)
    obtain ⟨l, hl⟩ := hone
    rw [← hl, List.append_assoc]
    exact List.suffix_append _ _
  | succ n ih =>
    rw [Function.iterate_succ_apply', send_retain_first_order]
    apply suffix_rtake _ (show 2 ≤ TX_BUF_CAP_STREAMS by decide)
    obtain ⟨l, hl⟩ := ih
    rw [← hl]
    refine ⟨l ++ [ts.local_seq], ?_⟩
    simp

/-- After every call the FIFO and the buffer are those of the recent streams, exactly when no
first fragment meets a full socket buffer. -/
theorem retained_iff (C : Config) (dst : ℕ) (calls : List SendTry)
    (hsmall : ∀ t ∈ calls, fragCount t.data.length ≤ 2 ^ 16) :
    (∀ n ≤ calls.length, Retained C dst (calls.take n) (sends C dst (calls.take n))) ↔
      ∀ t ∈ calls, t.again 0 = 0 := by
  constructor
  · intro h t ht
    by_contra hagain
    obtain ⟨n, hn, rfl⟩ := List.getElem_of_mem ht
    have hsmall' : ∀ t ∈ calls.take n, fragCount t.data.length ≤ 2 ^ 16 :=
      fun t ht => hsmall t (List.mem_of_mem_take ht)
    have hret := h (n + 1) hn
    rw [List.take_succ_eq_append_getElem hn, sends_concat] at hret
    -- the stream stands twice in a list of distinct numbers
    have hnodup := hret.order ▸ nodup_recent (calls.take n ++ [calls[n]]).length
    have hsent : _ <:+ (send_call C dst (sends C dst (calls.take n)).1 calls[n]).1.tx_buf_order :=
      send_call_twice _ (hsmall _ ht) hagain
    have htwice := hsent.sublist.nodup hnodup
    simp at htwice
  · intro hagain n _
    exact retained_of_first (fun t ht => hsmall t (List.mem_of_mem_take ht))
      fun t ht => hagain t (List.mem_of_mem_take ht)

/-- Three messages, the second of two fragments, of which the second meets a full socket buffer twice. -/
def laterAgain : List SendTry :=
  [⟨[1, 2, 3], fun _ => 0⟩, ⟨List.replicate 1401 7, fun i => if i = 1 then 2 else 0⟩, ⟨[4], fun _ => 0⟩]

theorem retained_iff_later :
    (∀ n ≤ laterAgain.length, Retained pipe01.S 1 (laterAgain.take n)
      (sends pipe01.S 1 (laterAgain.take n))) ↔ ∀ t ∈ laterAgain, t.again 0 = 0 := by
  have htwo : fragCount (List.replicate 1401 7).length ≤ 2 ^ 16 := by
    rw [List.length_replicate]
    decide
  exact retained_iff pipe01.S 1 laterAgain (List.forall_mem_cons.mpr ⟨by decide,
    List.forall_mem_cons.mpr ⟨htwo, List.forall_mem_cons.mpr ⟨by decide, List.forall_mem_nil _⟩⟩⟩)

/-- One full socket buffer at the start of a message of three bytes: its stream is queued twice. -/
theorem retained_again :
    ¬ Retained pipe01.S 1 [⟨[1, 2, 3], fun _ => 1⟩] (sends pipe01.S 1 [⟨[1, 2, 3], fun _ => 1⟩]) := by
  intro h
  have horder : [0, 0] = (recent 1).map (· % 2 ^ 32) := h.order
  exact absurd horder (by decide)

end Runs

end QSync.Io
