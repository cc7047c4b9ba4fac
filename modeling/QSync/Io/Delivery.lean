import Mathlib.Order.Bounds.Basic
import QSync.Io.Link

/-! # Delivery of the broadcast bus

Every run of a pipe keeps the receiver in step with the log of the sender: what was read and what is
waiting is the concatenation of the first `next_rx_seq` messages. With every empty fragment counted
once, the streams delivered are exactly those all of whose fragments have arrived.
-/

namespace QSync.Io
open QSync.Network
set_option autoImplicit false
set_option maxHeartbeats 250000

/-! ## Reading from the queue -/

theorem take_rx_spec {rx : List Chunk} {n : ℕ} (hoff : ∀ c ∈ rx, c.offset ≤ c.bytes.length)
    (hn : n ≤ (rx.flatMap fun c => c.bytes.drop c.offset).length) :
    ∃ rx', take_rx n rx = some ((rx.flatMap fun c => c.bytes.drop c.offset).take n, rx') ∧
      (rx'.flatMap fun c => c.bytes.drop c.offset) =
        (rx.flatMap fun c => c.bytes.drop c.offset).drop n ∧
      ∀ c ∈ rx', c.offset ≤ c.bytes.length := by
  induction rx generalizing n with
  | nil =>
    obtain rfl : n = 0 := by simpa using hn
    exact ⟨[], rfl, rfl, by simp⟩
  | cons front rx ih =>
    cases n with
    | zero => exact ⟨front :: rx, rfl, rfl, hoff⟩
    | succ n =>
      have hfront := hoff front (List.mem_cons_self ..)
      have hrest : ∀ c ∈ rx, c.offset ≤ c.bytes.length := fun c hc => hoff c (List.mem_cons_of_mem _ hc)
      have hlen : (front.bytes.drop front.offset).length = front.bytes.length - front.offset :=
        List.length_drop
      rw [List.flatMap_cons] at hn ⊢
      rw [List.length_append, hlen] at hn
      unfold take_rx
      dsimp only
      split
      · -- the front chunk is used up
        next hall =>
        have htake : min (n + 1) (front.bytes.length - front.offset) =
            (front.bytes.drop front.offset).length := by omega
        have hle : (front.bytes.drop front.offset).length ≤ n + 1 := by omega
        obtain ⟨rx', h1, h2, h3⟩ := ih (n := n + 1 - (front.bytes.drop front.offset).length) hrest
          (by omega)
        refine ⟨rx', ?_, ?_, h3⟩
        · rw [htake, h1, List.take_length, List.take_append, List.take_of_length_le hle]
          rfl
        · rw [h2, List.drop_append, List.drop_of_length_le hle, List.nil_append]
      · next hpart =>
        have htake : min (n + 1) (front.bytes.length - front.offset) = n + 1 := by omega
        rw [htake] at hpart ⊢
        refine ⟨{ front with offset := front.offset + (n + 1) } :: rx, ?_, ?_, ?_⟩
        · rw [List.take_append_of_le_length (by omega)]
        · rw [List.flatMap_cons, List.drop_append_of_le_length (by omega), List.drop_drop]
        · intro c hc
          obtain rfl | hc := List.mem_cons.mp hc
          · dsimp only
            omega
          · exact hrest c hc

/-! ## The receiver against the log -/

/-- Every message fits the 16-bit fragment fields. -/
def Link.Small (L : Link) : Prop := ∀ data ∈ L.log, fragCount data.length ≤ 65535

/-- Sender and receiver are in step. -/
structure InStep (strict : Prop) (P : Pipe) (L : Link) : Prop where
  sender : Sender P L
  reasm : Reassembling strict L.msg L.log.length L.arrivedOf (L.rx_ P.s)
  settled : Settled (L.rx_ P.s)
  stream : L.out ++ unread (L.rx_ P.s) = (List.range (L.rx_ P.s).next_rx_seq).flatMap L.msg
  rx_bytes : (L.rx_ P.s).rx_bytes = (unread (L.rx_ P.s)).length
  offsets : ∀ c ∈ (L.rx_ P.s).rx, c.offset ≤ c.bytes.length

/-- The fragment of an empty message is not taken again while its stream is ahead of the reader. -/
def countsOnce (P : Pipe) (L : Link) : Event → Prop
  | .data k => ∀ e, L.wire[k]? = some e → field e.frame 16 4 = 0 →
      (L.rx_ P.s).next_rx_seq < e.seq → ∀ a ∈ L.arrived, a.seq ≠ e.seq
  | _ => True

instance (P : Pipe) (L : Link) : (e : Event) → Decidable (countsOnce P L e)
  | .data k => inferInstanceAs (Decidable (∀ e ∈ L.wire[k]?, field e.frame 16 4 = 0 →
      (L.rx_ P.s).next_rx_seq < e.seq → ∀ a ∈ L.arrived, a.seq ≠ e.seq))
  | .send _ | .retain | .sendto _ | .finish | .recv _ | .drain _ _ | .nack _ | .poison _ =>
    inferInstanceAs (Decidable True)

section InStep
variable {strict : Prop} {P : Pipe} {addr : ℕ} {L L' : Link}

theorem Reassembling.mono {M M' : ℕ → Bytes} {N N' : ℕ} {A : ℕ → Finset ℕ} {rs : RxState}
    (h : Reassembling strict M N A rs) (hN : N ≤ N') (hM : ∀ n < N, M' n = M n) :
    Reassembling strict M' N' A rs where
  next_le := h.next_le.trans hN
  bounded := by
    intro n
    by_cases hn : n < N
    · rw [hM n hn]
      exact h.bounded n
    · have hA : A n = ∅ := Finset.not_nonempty_iff_eq_empty.mp fun hne => hn (h.sent n hne)
      rw [hA]
      exact Finset.empty_subset _
  sent := fun n hne => (h.sent n hne).trans_le hN
  done := by
    intro n hn
    rw [hM n (hn.trans_le h.next_le)]
    exact h.done n hn
  absent := h.absent
  held := by
    intro n p hn hp
    have hlt := h.sent n (h.held n p hn hp).1
    rw [hM n hlt]
    exact h.held n p hn hp

theorem msg_of_le (h : L.log <+: L'.log) {n : ℕ} (hn : n < L.log.length) :
    L'.msg n = L.msg n := by
  obtain ⟨rest, hrest⟩ := h
  unfold Link.msg
  rw [← hrest, List.getD_append _ _ _ _ hn]

theorem InStep.sending (h : InStep strict P L) (hsend : Sender P L') (hlog : L.log <+: L'.log)
    (hrx : L'.rx_ P.s = L.rx_ P.s) (harr : L'.arrived = L.arrived) (hout : L'.out = L.out) :
    InStep strict P L' where
  sender := hsend
  reasm := by
    have hA : L'.arrivedOf = L.arrivedOf := by
      funext n
      unfold Link.arrivedOf
      rw [harr]
    rw [hrx, hA]
    exact h.reasm.mono hlog.length_le fun n hn => msg_of_le hlog hn
  settled := hrx ▸ h.settled
  stream := by
    rw [hrx, hout, h.stream]
    apply List.flatMap_congr
    intro n hn
    exact (msg_of_le hlog ((List.mem_range.mp hn).trans_le h.reasm.next_le)).symm
  rx_bytes := hrx ▸ h.rx_bytes
  offsets := hrx ▸ h.offsets

theorem InStep.marking (h : InStep strict P L) (hsend : Sender P L') (hlog : L'.log = L.log)
    (hrx : ∃ ns m, L'.rx_ P.s = { L.rx_ P.s with nack_state := ns, poisoned := m })
    (harr : L'.arrived = L.arrived) (hout : L'.out = L.out) : InStep strict P L' := by
  obtain ⟨ns, m, hrx⟩ := hrx
  have hmsg : L'.msg = L.msg := by
    unfold Link.msg
    rw [hlog]
  have hA : L'.arrivedOf = L.arrivedOf := by
    unfold Link.arrivedOf
    rw [harr]
  refine ⟨hsend, ?_, ?_, ?_, ?_, ?_⟩
  · rw [hmsg, hlog, hA, hrx]
    exact h.reasm.congr rfl rfl
  · rw [hrx]
    exact h.settled
  · rw [hrx, hout, hmsg]
    exact h.stream
  · rw [hrx]
    exact h.rx_bytes
  · rw [hrx]
    exact h.offsets

theorem Link.arrivedOf_concat {e : Emission} (harr : L'.arrived = L.arrived ++ [e]) :
    L'.arrivedOf = Function.update L.arrivedOf e.seq (insert e.i (L.arrivedOf e.seq)) := by
  funext n
  ext j
  rw [Link.mem_arrivedOf, harr]
  simp only [List.mem_append, List.mem_singleton]
  by_cases hns : n = e.seq
  · subst hns
    rw [Function.update_self, Finset.mem_insert, Link.mem_arrivedOf]
    constructor
    · rintro ⟨a, ha | rfl, hs, hj⟩
      · exact .inr ⟨a, ha, hs, hj⟩
      · exact .inl hj.symm
    · rintro (rfl | ⟨a, ha, hs, hj⟩)
      · exact ⟨e, .inr rfl, rfl, rfl⟩
      · exact ⟨a, .inl ha, hs, hj⟩
  · rw [Function.update_of_ne hns, Link.mem_arrivedOf]
    constructor
    · rintro ⟨a, ha | rfl, hs, hj⟩
      · exact ⟨a, ha, hs, hj⟩
      · exact absurd hs.symm hns
    · rintro ⟨a, ha, hs, hj⟩
      exact ⟨a, .inl ha, hs, hj⟩

/-- What the receiver makes of a datagram on the wire. -/
theorem Sender.handled (hsend : Sender P L) {e : Emission} {k : ℕ} (he : L.wire[k]? = some e) :
    ∃ i, e.seq < L.log.length ∧ i < total (L.msg e.seq).length ∧ (e.i = i ∨ e.i = i % 2 ^ 16) ∧
      e.frame = P.frame e.seq (L.msg e.seq) i ∧
      handle_data_ P.T L.rx_ e.frame P.s = (L.rx_ P.s).accept e.seq (i % 2 ^ 16)
        (total (L.msg e.seq).length % 2 ^ 16) (piece (L.msg e.seq) i) := by
  obtain ⟨data, i, hdata, hi, hlabel, hframe, -⟩ := hsend.wire e (List.mem_of_getElem? he)
  have hmsg : L.msg e.seq = data := by
    unfold Link.msg
    rw [List.getD_eq_getElem?_getD, hdata, Option.getD_some]
  rw [hmsg]
  refine ⟨i, (List.getElem?_eq_some_iff.mp hdata).1, hi, hlabel, hframe, ?_⟩
  rw [hframe, P.handle_data_frame, Function.update_self]

/-- With small messages the numbers on the wire are those of the fragments. -/
theorem Sender.accepted (hsend : Sender P L) (hsmall : L.Small) {e : Emission} {k : ℕ}
    (he : L.wire[k]? = some e) :
    e.seq < L.log.length ∧ fragCount (L.msg e.seq).length < 2 ^ 16 ∧
      e.i < fragCount (L.msg e.seq).length ∧ e.frame = P.frame e.seq (L.msg e.seq) e.i ∧
      handle_data_ P.T L.rx_ e.frame P.s =
        (L.rx_ P.s).accept e.seq e.i (fragCount (L.msg e.seq).length) (piece (L.msg e.seq) e.i) := by
  obtain ⟨i, hn, hi, hlabel, hframe, hrx⟩ := hsend.handled he
  have hmem : L.msg e.seq ∈ L.log := by
    unfold Link.msg
    rw [List.getD_eq_getElem _ _ hn]
    exact List.getElem_mem hn
  have hcount : fragCount (L.msg e.seq).length ≤ 65535 := hsmall _ hmem
  have htot : total (L.msg e.seq).length = fragCount (L.msg e.seq).length := total_eq (by omega)
  have hi16 : i % 2 ^ 16 = i := Nat.mod_eq_of_lt (by omega)
  obtain rfl : e.i = i := by omega
  refine ⟨hn, by omega, by omega, hframe, ?_⟩
  rw [hrx, hi16, htot,
    Nat.mod_eq_of_lt (show fragCount (L.msg e.seq).length < 2 ^ 16 by omega)]

theorem InStep.data (h : InStep strict P L) (hlen : L.log.length < 2 ^ 32) (hsmall : L.Small)
    {e : Emission} {k : ℕ} (he : L.wire[k]? = some e)
    (hsend : Sender P { L with rx_ := handle_data_ P.T L.rx_ e.frame, arrived := L.arrived ++ [e] })
    (hguard : strict → countsOnce P L (.data k)) :
    InStep strict P { L with
      rx_ := handle_data_ P.T L.rx_ e.frame
      arrived := L.arrived ++ [e] } := by
  obtain ⟨hn, hcount, hi, hframe, hrx⟩ := h.sender.accepted hsmall he
  have hempty : strict → L.msg e.seq = [] → (L.rx_ P.s).next_rx_seq < e.seq →
      L.arrivedOf e.seq = ∅ := by
    intro hst hnil hahead
    have hplen : field e.frame 16 4 = 0 := by
      rw [hframe, P.frame_eq, field_plen, hnil, piece_nil]
      rfl
    apply Finset.eq_empty_of_forall_notMem
    intro j hj
    obtain ⟨a, ha, hs, -⟩ := Link.mem_arrivedOf.mp hj
    exact hguard hst e he hplen hahead a ha hs
  obtain ⟨d, hre, hset, hdel⟩ := h.reasm.accept h.settled hlen hcount hn hi hempty
  rw [← hrx] at hre hset hdel
  refine ⟨hsend, ?_, hset, ?_, ?_, ?_⟩
  · rw [Link.arrivedOf_concat rfl]
    exact hre
  · show L.out ++ unread (handle_data_ P.T L.rx_ e.frame P.s) =
      (List.range (handle_data_ P.T L.rx_ e.frame P.s).next_rx_seq).flatMap L.msg
    rw [hdel.unread, hdel.next, List.range_eq_range', ← List.range'_append_1, List.flatMap_append,
      ← List.range_eq_range', ← List.append_assoc, Nat.zero_add]
    exact congrArg (· ++ _) h.stream
  · show (handle_data_ P.T L.rx_ e.frame P.s).rx_bytes =
      (unread (handle_data_ P.T L.rx_ e.frame P.s)).length
    rw [hdel.unread, hdel.rx_bytes, List.length_append]
    exact congrArg (· + _) h.rx_bytes
  · intro c hc
    obtain ⟨cs, hcs, hoff⟩ := hdel.chunks
    have hc' : c ∈ (L.rx_ P.s).rx ++ cs := by
      have : (L.rx_ P.s).rx = ((L.rx_ P.s).note_arrival e.seq e.i).rx := rfl
      rw [this, ← hcs]
      exact hc
    obtain hc' | hc' := List.mem_append.mp hc'
    · exact h.offsets c hc'
    · rw [hoff c hc']
      exact Nat.zero_le _

theorem recv_inv {rs : RxState} {len : ℕ} {r : Bytes × RxState} (h : Io.recv rs len = some r) :
    len ≤ rs.rx_bytes ∧ ∃ q, take_rx len rs.rx = some q ∧
      r = (q.1, { rs with rx := q.2, rx_bytes := rs.rx_bytes - len }) := by
  unfold Io.recv at h
  split at h
  · cases h
  · next hready =>
    obtain ⟨q, hq, rfl⟩ := Option.map_eq_some_iff.mp h
    exact ⟨Nat.le_of_not_lt fun hlt => hready (.inr hlt), q, hq, rfl⟩

theorem InStep.recv (h : InStep strict P L) {len : ℕ} {r : Bytes × RxState}
    (hr : Io.recv (L.rx_ P.s) len = some r)
    (hsend : Sender P { L with rx_ := Function.update L.rx_ P.s r.2, out := L.out ++ r.1 }) :
    InStep strict P { L with
      rx_ := Function.update L.rx_ P.s r.2
      out := L.out ++ r.1 } := by
  obtain ⟨hready, q, hq, rfl⟩ := recv_inv hr
  obtain ⟨rx', h1, h2, h3⟩ := take_rx_spec h.offsets (h.rx_bytes ▸ hready)
  rw [h1] at hq
  obtain rfl := Option.some.inj hq
  have hun : unread { L.rx_ P.s with
      rx := rx', rx_bytes := (L.rx_ P.s).rx_bytes - len } = (unread (L.rx_ P.s)).drop len := h2
  refine ⟨hsend, ?_, ?_, ?_, ?_, ?_⟩
  · dsimp only
    rw [Function.update_self]
    exact h.reasm.congr rfl rfl
  · dsimp only
    rw [Function.update_self]
    exact h.settled
  · dsimp only
    rw [Function.update_self, hun, List.append_assoc]
    exact (congrArg (L.out ++ ·) (List.take_append_drop _ _)).trans h.stream
  · dsimp only
    rw [Function.update_self, hun, List.length_drop, ← h.rx_bytes]
  · dsimp only
    rw [Function.update_self]
    exact h3

theorem handle_poison_same (C : Config) (rx_ : ℕ → RxState) (buf : Bytes) (s : ℕ) :
    ∃ m, handle_poison_ C rx_ buf s = { rx_ s with poisoned := m } := by
  unfold handle_poison_
  dsimp only
  generalize (if field buf 16 4 > MAX_PAYLOAD then 0 else field buf 16 4) = plen
  split
  · exact ⟨_, rfl⟩
  · split
    · exact ⟨_, rfl⟩
    · split
      · exact ⟨_, rfl⟩
      · by_cases hs : s = field buf 4 1
        · rw [hs, Function.update_self]
          exact ⟨_, rfl⟩
        · rw [Function.update_of_ne hs]
          exact ⟨_, rfl⟩

theorem drain_nack_state_same {C : Config} {sender now₁ now₂ : ℕ} {rs : RxState}
    {r : RxState × List (ℕ × ℕ)} (h : drain_nack_state_ C sender now₁ now₂ rs = some r) :
    ∃ ns m, r.1 = { rs with nack_state := ns, poisoned := m } := by
  unfold drain_nack_state_ at h
  split at h
  · obtain rfl := Option.some.inj h
    exact ⟨_, _, rfl⟩
  · obtain ⟨rs', hrs', rfl⟩ := Option.map_eq_some_iff.mp h
    unfold compute_missing_locked_ at hrs'
    split at hrs'
    · obtain rfl := Option.some.inj hrs'
      exact ⟨_, _, rfl⟩
    · split at hrs'
      · cases hrs'
      · obtain rfl := Option.some.inj hrs'
        exact ⟨_, _, rfl⟩

theorem InStep.step (h : InStep strict P L) {ev : Event} (hs : L.step P addr ev = some L')
    (hlen : L'.log.length < 2 ^ 32) (hsmall : L.Small) (hguard : strict → countsOnce P L ev) :
    InStep strict P L' := by
  have hsend := h.sender.step hs hlen
  have hlog := Link.log_le hs
  cases ev with
  | send data =>
    obtain ⟨-, -, rfl⟩ := Link.step_send hs
    exact h.sending hsend hlog rfl rfl rfl
  | retain =>
    obtain ⟨c, -, -, rfl⟩ := Link.step_retain hs
    exact h.sending hsend hlog rfl rfl rfl
  | sendto ok =>
    obtain ⟨c, -, rfl⟩ := Link.step_sendto hs
    exact h.sending hsend hlog rfl rfl rfl
  | finish =>
    obtain ⟨c, -, -, rfl⟩ := Link.step_finish hs
    exact h.sending hsend hlog rfl rfl rfl
  | data k =>
    obtain ⟨e, he, rfl⟩ := Option.map_eq_some_iff.mp hs
    exact h.data hlen hsmall he hsend hguard
  | recv len =>
    obtain ⟨r, hr, rfl⟩ := Option.map_eq_some_iff.mp hs
    exact h.recv hr hsend
  | drain now₁ now₂ =>
    obtain ⟨r, hr, rfl⟩ := Option.map_eq_some_iff.mp hs
    obtain ⟨ns, m, hrs⟩ := drain_nack_state_same hr
    refine h.marking hsend rfl ⟨ns, m, ?_⟩ rfl rfl
    dsimp only
    rw [Function.update_self, hrs]
  | nack k =>
    obtain ⟨b, -, rfl⟩ := Option.map_eq_some_iff.mp hs
    refine h.sending hsend hlog ?_ ?_ ?_
    all_goals
      dsimp only
      unfold Link.reply
      split <;> rfl
  | poison k =>
    obtain ⟨b, -, rfl⟩ := Option.map_eq_some_iff.mp hs
    obtain ⟨m, hrx⟩ := handle_poison_same P.T L.rx_ b P.s
    exact h.marking hsend rfl ⟨_, m, hrx⟩ rfl rfl

theorem InStep.init : InStep strict P {} where
  sender := Sender.init
  reasm :=
    { next_le := le_rfl
      bounded := fun n => Finset.empty_subset _
      sent := fun n hn => absurd hn Finset.not_nonempty_empty
      done := by simp
      absent := fun _ _ _ => rfl
      held := by simp }
  settled := by simp [Settled]
  stream := rfl
  rx_bytes := rfl
  offsets := by simp

theorem InStep.run {ok : Link → Event → Prop} (h : Runs (Link.step P addr) ok {} L)
    (hlen : L.log.length < 2 ^ 32) (hsmall : L.Small)
    (hok : ∀ L e, ok L e → strict → countsOnce P L e) : InStep strict P L := by
  have hI : L.log.length < 2 ^ 32 → L.Small → InStep strict P L := by
    apply h.invariant (I := fun L => L.log.length < 2 ^ 32 → L.Small → InStep strict P L)
    · intro _ _
      exact InStep.init
    · intro L₁ e L₂ ih hoke hs hlen₂ hsmall₂
      have hlog := Link.log_le hs
      have hsmall₁ : L₁.Small := fun data hd => hsmall₂ data (hlog.subset hd)
      exact (ih (hlog.length_le.trans_lt hlen₂) hsmall₁).step hs hlen₂ hsmall₁ (hok L₁ e hoke)
  exact hI hlen hsmall

end InStep

/-! ## In-order delivery -/

/-- In every state of a run the bytes read are a prefix of the messages sent, one after the other;
`rx_bytes` counts the delivered bytes that are not read yet; and whatever is emitted for a fragment,
first or again, is the same datagram. -/
theorem in_order_delivery (P : Pipe) (addr : ℕ) (L : Link)
    (h : Runs (Link.step P addr) anytime {} L) (hlen : L.log.length < 2 ^ 32) (hsmall : L.Small) :
    L.out <+: L.log.flatten ∧
      L.out ++ unread (L.rx_ P.s) = (L.log.take (L.rx_ P.s).next_rx_seq).flatten ∧
      (L.rx_ P.s).rx_bytes = (unread (L.rx_ P.s)).length ∧
      ∀ e ∈ L.wire, ∀ e' ∈ L.wire, e.seq = e'.seq → e.i = e'.i → e.frame = e'.frame := by
  have hI : InStep False P L := InStep.run h hlen hsmall fun _ _ _ hf => hf.elim
  have hstream : L.out ++ unread (L.rx_ P.s) = (L.log.take (L.rx_ P.s).next_rx_seq).flatten := by
    have htake : (List.range (L.rx_ P.s).next_rx_seq).map L.msg =
        L.log.take (L.rx_ P.s).next_rx_seq := by
      apply List.ext_getElem
      · simp [hI.reasm.next_le]
      · intro n h1 h2
        have hn : n < L.log.length := by
          rw [List.length_take] at h2
          omega
        simp [Link.msg, List.getD_eq_getElem?_getD, hn]
    rw [hI.stream, List.flatMap_def, htake]
  refine ⟨?_, hstream, hI.rx_bytes, ?_⟩
  · have hpre : L.out <+: (L.log.take (L.rx_ P.s).next_rx_seq).flatten :=
      ⟨unread (L.rx_ P.s), hstream⟩
    refine hpre.trans ⟨(L.log.drop (L.rx_ P.s).next_rx_seq).flatten, ?_⟩
    rw [← List.flatten_append, List.take_append_drop]
  · intro e he e' he' hseq hi
    obtain ⟨data, i, h1, h2, h3, h4, -⟩ := hI.sender.wire e he
    obtain ⟨data', i', h1', h2', h3', h4', -⟩ := hI.sender.wire e' he'
    obtain rfl : data = data' := by
      rw [hseq, h1'] at h1
      exact (Option.some.inj h1).symm
    have hcount : fragCount data.length ≤ 65535 := by
      obtain ⟨hn, hget⟩ := List.getElem?_eq_some_iff.mp h1
      exact hsmall data (hget ▸ List.getElem_mem hn)
    have htot : total data.length = fragCount data.length := total_eq (by omega)
    obtain rfl : i = i' := by omega
    rw [h4, h4', hseq]

/-- A run: two messages, the second overtakes the first, which is asked for and sent again. -/
def overtaken : List Event :=
  [.send [7], .retain, .sendto true, .finish, .send [8, 9], .retain, .sendto true, .finish,
    .data 1, .drain 1 1, .drain 200000000 200000000, .nack 0, .data 2, .recv 2]

theorem in_order_delivery_overtaken : ∃ L, Runs (Link.step pipe01 2) anytime {} L ∧
    L.out = [7, 8] ∧ L.out <+: L.log.flatten := by
  have hrun : ∃ L, exec (Link.step pipe01 2) anytime overtaken {} = some L ∧
      L.out = [7, 8] ∧ L.log = [[7], [8, 9]] := by
    refine ⟨(exec (Link.step pipe01 2) anytime overtaken {}).getD {}, ?_, ?_, ?_⟩
    · rfl
    · decide
    · decide
  obtain ⟨L, hL, hout, hlog⟩ := hrun
  have hr : Runs (Link.step pipe01 2) anytime {} L := Runs.of_exec hL
  have hsmall : L.Small := by
    unfold Link.Small
    rw [hlog]
    decide
  exact ⟨L, hr, hout, (in_order_delivery pipe01 2 L hr (by rw [hlog]; decide) hsmall).1⟩

/-! ## Complete delivery -/

/-- Every fragment of stream `n` has arrived. -/
def Link.StreamArrived (L : Link) (n : ℕ) : Prop :=
  ∃ data, L.log[n]? = some data ∧
    ∀ i < fragCount data.length, ∃ e ∈ L.arrived, e.seq = n ∧ e.i = i

/-- The next stream to be delivered is the first with a fragment that never arrived. -/
def Link.DeliversArrived (P : Pipe) (L : Link) : Prop :=
  IsLeast {n | ¬ L.StreamArrived n} (L.rx_ P.s).next_rx_seq

section Complete
variable {strict : Prop} {P : Pipe} {L : Link}

theorem InStep.streamArrived_iff (h : InStep strict P L) {n : ℕ} (hn : n < L.log.length) :
    L.StreamArrived n ↔ L.arrivedOf n = Finset.range (fragCount (L.msg n).length) := by
  have hget : L.log[n]? = some (L.msg n) := by
    unfold Link.msg
    simp [List.getD_eq_getElem?_getD, hn]
  constructor
  · rintro ⟨data, hdata, hall⟩
    obtain rfl : L.msg n = data := by
      rw [hget] at hdata
      exact Option.some.inj hdata
    apply Finset.Subset.antisymm (h.reasm.bounded n)
    intro i hi
    exact Link.mem_arrivedOf.mpr (hall i (Finset.mem_range.mp hi))
  · intro hA
    refine ⟨L.msg n, hget, fun i hi => ?_⟩
    apply Link.mem_arrivedOf.mp
    rw [hA]
    exact Finset.mem_range.mpr hi

theorem InStep.deliversArrived (h : InStep True P L) : L.DeliversArrived P := by
  constructor
  · intro hall
    have hn : (L.rx_ P.s).next_rx_seq < L.log.length := by
      obtain ⟨data, hdata, -⟩ := hall
      exact (List.getElem?_eq_some_iff.mp hdata).1
    have hA := (h.streamArrived_iff hn).mp hall
    cases hp : (L.rx_ P.s).pending.lookup (L.rx_ P.s).next_rx_seq with
    | none =>
      have hempty := h.reasm.absent _ le_rfl hp
      rw [hempty] at hA
      have hmem : 0 ∈ Finset.range (fragCount (L.msg (L.rx_ P.s).next_rx_seq).length) :=
        Finset.mem_range.mpr (fragCount_pos _)
      rw [← hA] at hmem
      exact Finset.notMem_empty 0 hmem
    | some p =>
      obtain ⟨-, htot, -, hcount⟩ := h.reasm.held _ p le_rfl hp
      apply h.settled p hp
      rw [hcount (.inl trivial), hA, Finset.card_range, htot]
  · intro n hn
    by_contra hlt
    have hlt : n < (L.rx_ P.s).next_rx_seq := Nat.lt_of_not_le hlt
    apply hn
    exact (h.streamArrived_iff (hlt.trans_le h.reasm.next_le)).mpr (h.reasm.done n hlt)

end Complete

/-- In every run in which no empty fragment is taken twice ahead of the reader, the next stream is at
every moment the first with a fragment that never arrived. -/
theorem delivery_complete (P : Pipe) (addr : ℕ) (L : Link)
    (h : Runs (Link.step P addr) (countsOnce P) {} L) (hlen : L.log.length < 2 ^ 32)
    (hsmall : L.Small) : L.DeliversArrived P :=
  (InStep.run h hlen hsmall fun _ _ hok _ => hok).deliversArrived

theorem delivery_complete_overtaken : ∃ L, Runs (Link.step pipe01 2) (countsOnce pipe01) {} L ∧
    L.log = [[7], [8, 9]] ∧ L.DeliversArrived pipe01 := by
  have hrun : exec (Link.step pipe01 2) (countsOnce pipe01) overtaken {} =
      some ((exec (Link.step pipe01 2) (countsOnce pipe01) overtaken {}).getD {}) := rfl
  have hlog : ((exec (Link.step pipe01 2) (countsOnce pipe01) overtaken {}).getD {}).log =
      [[7], [8, 9]] := by decide
  refine ⟨_, Runs.of_exec hrun, hlog, delivery_complete pipe01 2 _ (Runs.of_exec hrun) ?_ ?_⟩
  · rw [hlog]
    decide
  · unfold Link.Small
    rw [hlog]
    decide

/-- The second of two messages is empty and arrives first, twice. -/
def emptyTwice : List Event :=
  [.send [7], .retain, .sendto true, .finish, .send [], .retain, .sendto true, .finish,
    .data 1, .data 1, .data 0]

/-- Both messages have arrived, the second is never delivered. -/
theorem delivery_complete_emptyTwice :
    ∃ L, Runs (Link.step pipe01 2) anytime {} L ∧ L.log = [[7], []] ∧ ¬ L.DeliversArrived pipe01 := by
  have hrun : exec (Link.step pipe01 2) anytime emptyTwice {} =
      some ((exec (Link.step pipe01 2) anytime emptyTwice {}).getD {}) := rfl
  refine ⟨_, Runs.of_exec hrun, by decide, ?_⟩
  intro h
  have hnext : (((exec (Link.step pipe01 2) anytime emptyTwice {}).getD {}).rx_ 0).next_rx_seq = 1 := by
    decide
  have harr : (((exec (Link.step pipe01 2) anytime emptyTwice {}).getD {})).StreamArrived 1 := by
    refine ⟨[], rfl, fun i hi => ?_⟩
    obtain rfl : i = 0 := Nat.lt_one_iff.mp hi
    decide
  have := h.1
  exact this (hnext ▸ harr)

end QSync.Io
