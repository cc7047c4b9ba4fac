import QSync.Foundations.EventRuns
import QSync.Io.Reassembly

/-! # A pipe between two parties

The sender's and the receiver's bus, and the network between them. DATA datagrams, once emitted, may
arrive at any time, any number of times or never; a NACK in flight arrives at most once. `send` runs
in the steps in which the pump thread can come in between. The histories (`log`, `wire`, `arrived`,
`nacks`, `poisons`, `out`) are not read by any step.
-/

namespace QSync.Io
open QSync.Network
set_option autoImplicit false
set_option maxHeartbeats 250000

/-- A DATA datagram on the wire, and the fragment the sender emitted it for. -/
structure Emission where
  seq : ℕ
  i : ℕ
  frame : Bytes
  deriving DecidableEq

structure Link where
  tx_ : ℕ → TxState := fun _ => {}
  rx_ : ℕ → RxState := fun _ => {}
  /-- The call of `send` under way, and whether its next datagram is about to be handed to
  `sendto`. -/
  call : Option (SendCall × Bool) := none
  /-- The messages given to `send`. -/
  log : List Bytes := []
  wire : List Emission := []
  arrived : List Emission := []
  /-- NACK frames in flight. -/
  nackWire : List Bytes := []
  /-- The fragments the receiver asked for. -/
  nacks : List (ℕ × ℕ) := []
  poisonWire : List Bytes := []
  /-- Why the sender sent POISON. -/
  poisons : List PoisonReason := []
  /-- The bytes the reader has taken. -/
  out : Bytes := []

inductive Event
  | send (data : Bytes)
  | retain
  | sendto (ok : Bool)
  | finish
  | data (k : ℕ)
  | recv (len : ℕ)
  | drain (now₁ now₂ : ℕ)
  | nack (k : ℕ)
  | poison (k : ℕ)

/-- What the pump thread of the sender does with the reply to a NACK. -/
def Link.reply (P : Pipe) (L : Link) : NackReply → Link
  | .silent => L
  | .resend target seq idx rcd =>
    { L with wire := L.wire ++ [⟨seq, idx, resend_fragment_ P.S target seq idx rcd⟩] }
  | .poison target reason =>
    { L with
      poisonWire := L.poisonWire ++ [send_poison_to_target_ P.S target reason]
      poisons := L.poisons ++ [reason] }

/-- One event; the receiver's frames come from the address `addr`. -/
def Link.step (P : Pipe) (addr : ℕ) (L : Link) : Event → Option Link
  | .send data =>
    if L.call.isSome ∨ (L.tx_ P.t).poisoned.isSome then none
    else
      let r := send_start (L.tx_ P.t) data
      some { L with
        tx_ := Function.update L.tx_ P.t r.1
        call := some (r.2, false)
        log := L.log ++ [data] }
  | .retain =>
    match L.call with
    | some (c, false) =>
      if c.more then
        some { L with
          tx_ := Function.update L.tx_ P.t (send_retain P.S P.t (L.tx_ P.t) c)
          call := some (c, true) }
      else none
    | _ => none
  | .sendto ok =>
    match L.call with
    | some (c, true) =>
      some { L with
        wire := if ok then L.wire ++ [⟨c.seq, c.i, c.buf P.S P.t⟩] else L.wire
        call := some (send_datagram c ok, false) }
    | _ => none
  | .finish =>
    match L.call with
    | some (c, false) =>
      if c.more then none
      else some { L with
        tx_ := Function.update L.tx_ P.t (send_end (L.tx_ P.t) c)
        call := none }
    | _ => none
  | .data k =>
    L.wire[k]?.map fun e =>
      { L with rx_ := handle_data_ P.T L.rx_ e.frame, arrived := L.arrived ++ [e] }
  | .recv len =>
    (recv (L.rx_ P.s) len).map fun r =>
      { L with rx_ := Function.update L.rx_ P.s r.2, out := L.out ++ r.1 }
  | .drain now₁ now₂ =>
    (drain_nack_state_ P.T P.s now₁ now₂ (L.rx_ P.s)).map fun r =>
      { L with
        rx_ := Function.update L.rx_ P.s r.1
        nackWire := L.nackWire ++ r.2.map fun key => send_nack_ P.T P.s P.t key.1 key.2
        nacks := L.nacks ++ r.2 }
  | .nack k =>
    L.nackWire[k]?.map fun buf =>
      let r := handle_nack_ P.S L.tx_ buf addr
      { L with tx_ := r.1, nackWire := L.nackWire.eraseIdx k }.reply P r.2
  | .poison k =>
    L.poisonWire[k]?.map fun buf => { L with rx_ := handle_poison_ P.T L.rx_ buf }

/-- Any event at any time. -/
def anytime (_ : Link) (_ : Event) : Prop := True

instance (L : Link) (e : Event) : Decidable (anytime L e) := inferInstanceAs (Decidable True)

/-- The message of a stream; nothing for streams not started. -/
def Link.msg (L : Link) (n : ℕ) : Bytes := L.log.getD n []

/-- The fragments of a stream that have arrived. -/
def Link.arrivedOf (L : Link) (n : ℕ) : Finset ℕ :=
  ((L.arrived.filter fun e => e.seq = n).map fun e => e.i).toFinset

theorem Link.mem_arrivedOf {L : Link} {n i : ℕ} :
    i ∈ L.arrivedOf n ↔ ∃ e ∈ L.arrived, e.seq = n ∧ e.i = i := by
  simp only [arrivedOf, List.mem_toFinset, List.mem_map, List.mem_filter, decide_eq_true_eq,
    and_assoc]

/-! ## The steps of a call of `send` -/

section Steps
variable {P : Pipe} {addr : ℕ} {L L' : Link}

theorem Link.step_send {data : Bytes} (hs : L.step P addr (.send data) = some L') :
    L.call = none ∧ (L.tx_ P.t).poisoned = none ∧ L' = { L with
      tx_ := Function.update L.tx_ P.t (send_start (L.tx_ P.t) data).1
      call := some ((send_start (L.tx_ P.t) data).2, false)
      log := L.log ++ [data] } := by
  simp only [Link.step] at hs
  split at hs
  · cases hs
  · next h =>
    rw [not_or, Option.not_isSome_iff_eq_none, Option.not_isSome_iff_eq_none] at h
    exact ⟨h.1, h.2, (Option.some.inj hs).symm⟩

theorem Link.step_retain (hs : L.step P addr .retain = some L') :
    ∃ c, L.call = some (c, false) ∧ c.more = true ∧ L' = { L with
      tx_ := Function.update L.tx_ P.t (send_retain P.S P.t (L.tx_ P.t) c)
      call := some (c, true) } := by
  simp only [Link.step] at hs
  split at hs
  · next c hc =>
    split at hs
    · next hmore => exact ⟨c, hc, hmore, (Option.some.inj hs).symm⟩
    · cases hs
  · cases hs

theorem Link.step_sendto {ok : Bool} (hs : L.step P addr (.sendto ok) = some L') :
    ∃ c, L.call = some (c, true) ∧ L' = { L with
      wire := if ok then L.wire ++ [⟨c.seq, c.i, c.buf P.S P.t⟩] else L.wire
      call := some (send_datagram c ok, false) } := by
  simp only [Link.step] at hs
  split at hs
  · next c hc => exact ⟨c, hc, (Option.some.inj hs).symm⟩
  · cases hs

theorem Link.step_finish (hs : L.step P addr .finish = some L') :
    ∃ c, L.call = some (c, false) ∧ c.more = false ∧ L' = { L with
      tx_ := Function.update L.tx_ P.t (send_end (L.tx_ P.t) c)
      call := none } := by
  simp only [Link.step] at hs
  split at hs
  · next c hc =>
    split at hs
    · cases hs
    · next hmore => exact ⟨c, hc, Bool.eq_false_iff.mpr hmore, (Option.some.inj hs).symm⟩
  · cases hs

theorem Link.log_le {ev : Event} (hs : L.step P addr ev = some L') : L.log <+: L'.log := by
  cases ev with
  | send data =>
    obtain ⟨-, -, rfl⟩ := Link.step_send hs
    exact List.prefix_append _ _
  | retain =>
    obtain ⟨c, -, -, rfl⟩ := Link.step_retain hs
    exact List.prefix_rfl
  | sendto ok =>
    obtain ⟨c, -, rfl⟩ := Link.step_sendto hs
    exact List.prefix_rfl
  | finish =>
    obtain ⟨c, -, -, rfl⟩ := Link.step_finish hs
    exact List.prefix_rfl
  | nack k =>
    obtain ⟨b, -, rfl⟩ := Option.map_eq_some_iff.mp hs
    dsimp only
    unfold Link.reply
    split <;> exact List.prefix_rfl
  | data k | recv k | drain n n' | poison k =>
    obtain ⟨b, -, rfl⟩ := Option.map_eq_some_iff.mp hs
    exact List.prefix_rfl

end Steps

/-! ## The sender -/

/-- What the sender has retained, emitted and has under way are fragments of its messages. -/
structure Sender (P : Pipe) (L : Link) : Prop where
  local_seq : (L.tx_ P.t).local_seq = L.log.length
  call : ∀ c b, L.call = some (c, b) → ∃ data i, L.log[c.seq]? = some data ∧
    c = SendCall.at c.seq data i ∧ (b = true → i < total data.length) ∧
    (0 < i → ∃ e ∈ L.wire, e.seq = c.seq ∧ e.i = 0)
  kept : ∀ seq idx rcd, (L.tx_ P.t).tx_buf (seq, idx) = some rcd → ∃ data i n,
    L.log[seq]? = some data ∧ i < total data.length ∧ idx = i % 2 ^ 16 ∧
    rcd = { (SendCall.at seq data i).record P.S P.t with nack_count := n } ∧
    (0 < idx → ∃ e ∈ L.wire, e.seq = seq ∧ e.i = 0)
  wire : ∀ e ∈ L.wire, ∃ data i, L.log[e.seq]? = some data ∧ i < total data.length ∧
    (e.i = i ∨ e.i = i % 2 ^ 16) ∧ e.frame = P.frame e.seq data i ∧
    ∃ e₀ ∈ L.wire, e₀.seq = e.seq ∧ e₀.i = 0
  arrived : ∀ e ∈ L.arrived, e ∈ L.wire
  asked : ∀ b ∈ L.nackWire, ∃ key : ℕ × ℕ, b = send_nack_ P.T P.s P.t key.1 key.2

section Sender
variable {P : Pipe} {addr : ℕ} {L L' : Link}

theorem evict_sub (order : List ℕ) (tx_buf : ℕ × ℕ → Option TxRecord) (key : ℕ × ℕ) :
    (evict order tx_buf).2 key = none ∨ (evict order tx_buf).2 key = tx_buf key := by
  induction order generalizing tx_buf with
  | nil => exact .inr rfl
  | cons old order ih =>
    unfold evict
    split
    · obtain h | h := ih (fun key => if key.1 = old then none else tx_buf key)
      · exact .inl h
      · rw [h]
        by_cases hold : key.1 = old
        · exact .inl (if_pos hold)
        · exact .inr (if_neg hold)
    · exact .inr rfl

theorem send_retain_inserted {C : Config} {dst : ℕ} {ts : TxState} {c : SendCall} {key : ℕ × ℕ}
    {rcd : TxRecord} (h : (send_retain C dst ts c).tx_buf key = some rcd) :
    Function.update ts.tx_buf (c.seq, c.idx) (some (c.record C dst)) key = some rcd := by
  unfold send_retain at h
  dsimp only at h
  split at h
  · rcases evict_sub (ts.tx_buf_order ++ [c.seq])
      (Function.update ts.tx_buf (c.seq, c.idx) (some (c.record C dst))) key with hn | he
    · exact absurd (hn.symm.trans h) (by simp)
    · exact he.symm.trans h
  · exact h

theorem send_retain_find {C : Config} {dst : ℕ} {ts : TxState} {c : SendCall} {key : ℕ × ℕ}
    {rcd : TxRecord} (h : (send_retain C dst ts c).tx_buf key = some rcd) :
    key = (c.seq, c.idx) ∧ rcd = c.record C dst ∨ ts.tx_buf key = some rcd := by
  have hupd := send_retain_inserted h
  by_cases hkey : key = (c.seq, c.idx)
  · subst hkey
    rw [Function.update_self] at hupd
    exact .inl ⟨rfl, (Option.some.inj hupd).symm⟩
  · rw [Function.update_of_ne hkey] at hupd
    exact .inr hupd

theorem send_retain_same (C : Config) (dst : ℕ) (ts : TxState) (c : SendCall) :
    (send_retain C dst ts c).local_seq = ts.local_seq ∧
      (send_retain C dst ts c).poisoned = ts.poisoned := by
  unfold send_retain
  split <;> exact ⟨rfl, rfl⟩

theorem send_retain_flight (C : Config) (dst : ℕ) (ts : TxState) (c : SendCall) :
    (send_retain C dst ts c).streams_in_flight = ts.streams_in_flight := by
  unfold send_retain
  split <;> rfl

theorem Sender.congr (h : Sender P L) (htx : L'.tx_ P.t = L.tx_ P.t) (hcall : L'.call = L.call)
    (hlog : L'.log = L.log) (hwire : L'.wire = L.wire) (harr : ∀ e ∈ L'.arrived, e ∈ L.wire)
    (hask : ∀ b ∈ L'.nackWire, ∃ key : ℕ × ℕ, b = send_nack_ P.T P.s P.t key.1 key.2) :
    Sender P L' where
  local_seq := by rw [htx, hlog, h.local_seq]
  call := by
    rw [hcall, hlog, hwire]
    exact h.call
  kept := by
    rw [htx, hlog, hwire]
    exact h.kept
  wire := by
    rw [hlog, hwire]
    exact h.wire
  arrived := by
    rw [hwire]
    exact harr
  asked := hask

theorem Sender.emit (h : Sender P L) {e : Emission} {data : Bytes} {i : ℕ}
    (hdata : L.log[e.seq]? = some data) (hi : i < total data.length)
    (hlabel : e.i = i ∨ e.i = i % 2 ^ 16) (hframe : e.frame = P.frame e.seq data i)
    (hfirst : 0 < e.i → ∃ e₀ ∈ L.wire, e₀.seq = e.seq ∧ e₀.i = 0) :
    Sender P { L with wire := L.wire ++ [e] } where
  local_seq := h.local_seq
  call := by
    intro c b hc
    obtain ⟨data, i, h1, h2, h3, h4⟩ := h.call c b hc
    refine ⟨data, i, h1, h2, h3, fun hi => ?_⟩
    obtain ⟨e₀, he₀, hs⟩ := h4 hi
    exact ⟨e₀, List.mem_append_left _ he₀, hs⟩
  kept := by
    intro seq idx rcd hr
    obtain ⟨data, i, n, h1, h2, h3, h4, h5⟩ := h.kept seq idx rcd hr
    refine ⟨data, i, n, h1, h2, h3, h4, fun hi => ?_⟩
    obtain ⟨e₀, he₀, hs⟩ := h5 hi
    exact ⟨e₀, List.mem_append_left _ he₀, hs⟩
  wire := by
    intro e' he'
    obtain he' | he' := List.mem_append.mp he'
    · obtain ⟨data, i, h1, h2, h3, h4, e₀, he₀, hs⟩ := h.wire e' he'
      exact ⟨data, i, h1, h2, h3, h4, e₀, List.mem_append_left _ he₀, hs⟩
    · obtain rfl : e' = e := List.mem_singleton.mp he'
      refine ⟨data, i, hdata, hi, hlabel, hframe, ?_⟩
      obtain h0 | hpos := Nat.eq_zero_or_pos e'.i
      · exact ⟨e', by simp, rfl, h0⟩
      · obtain ⟨e₀, he₀, hs⟩ := hfirst hpos
        exact ⟨e₀, List.mem_append_left _ he₀, hs⟩
  arrived := fun e' he' => List.mem_append_left _ (h.arrived e' he')
  asked := h.asked

theorem Sender.start (h : Sender P L) {data : Bytes} (hlen : L.log.length + 1 < 2 ^ 32) :
    Sender P { L with
      tx_ := Function.update L.tx_ P.t (send_start (L.tx_ P.t) data).1
      call := some ((send_start (L.tx_ P.t) data).2, false)
      log := L.log ++ [data] } := by
  have hlift : ∀ (n : ℕ) (d : Bytes), L.log[n]? = some d → (L.log ++ [data])[n]? = some d := by
    intro n d hd
    rw [List.getElem?_append_left (List.getElem?_eq_some_iff.mp hd).1]
    exact hd
  constructor
  · dsimp only
    rw [Function.update_self, List.length_append, List.length_singleton]
    show ((L.tx_ P.t).local_seq + 1) % 2 ^ 32 = L.log.length + 1
    rw [h.local_seq]
    exact Nat.mod_eq_of_lt hlen
  · intro c b hc
    obtain ⟨rfl, rfl⟩ : (send_start (L.tx_ P.t) data).2 = c ∧ false = b := by
      simpa using hc
    refine ⟨data, 0, ?_, (SendCall.at_zero _ _).symm, by simp, by simp⟩
    show (L.log ++ [data])[(L.tx_ P.t).local_seq]? = some data
    rw [h.local_seq]
    exact List.getElem?_concat_length
  · intro seq idx rcd hr
    dsimp only at hr
    rw [Function.update_self] at hr
    obtain ⟨data', i, n, h1, h2⟩ := h.kept seq idx rcd hr
    exact ⟨data', i, n, hlift _ _ h1, h2⟩
  · intro e he
    obtain ⟨data', i, h1, h2⟩ := h.wire e he
    exact ⟨data', i, hlift _ _ h1, h2⟩
  · exact h.arrived
  · exact h.asked

theorem Sender.retain (h : Sender P L) {c : SendCall} (hc : L.call = some (c, false))
    (hmore : c.more = true) :
    Sender P { L with
      tx_ := Function.update L.tx_ P.t (send_retain P.S P.t (L.tx_ P.t) c)
      call := some (c, true) } := by
  obtain ⟨data, i, h1, h2, -, h4⟩ := h.call c false hc
  have hi : i < total data.length := by
    unfold SendCall.more at hmore
    rw [h2] at hmore
    exact of_decide_eq_true hmore
  constructor
  · dsimp only
    rw [Function.update_self, (send_retain_same _ _ _ _).1]
    exact h.local_seq
  · intro c' b hc'
    obtain ⟨rfl, rfl⟩ : c = c' ∧ true = b := by simpa using hc'
    exact ⟨data, i, h1, h2, fun _ => hi, h4⟩
  · intro seq idx rcd hr
    dsimp only at hr
    rw [Function.update_self] at hr
    obtain ⟨hkey, hrcd⟩ | hold := send_retain_find hr
    · obtain ⟨rfl, rfl⟩ : seq = c.seq ∧ idx = c.idx := by simpa using hkey
      refine ⟨data, i, 0, h1, hi, ?_, ?_, ?_⟩
      · rw [h2]
        rfl
      · rw [hrcd, h2]
        rfl
      · intro hpos
        refine h4 (Nat.pos_of_ne_zero fun h0 => ?_)
        have hidx : c.idx = i % 2 ^ 16 := by rw [h2]; rfl
        rw [hidx, h0] at hpos
        exact absurd hpos (by decide)
    · exact h.kept seq idx rcd hold
  · exact h.wire
  · exact h.arrived
  · exact h.asked

theorem Sender.sendto (h : Sender P L) {c : SendCall} (hc : L.call = some (c, true)) (ok : Bool) :
    Sender P { L with
      wire := if ok then L.wire ++ [⟨c.seq, c.i, c.buf P.S P.t⟩] else L.wire
      call := some (send_datagram c ok, false) } := by
  obtain ⟨data, i, h1, h2, h3, h4⟩ := h.call c true hc
  have hci : c.i = i := by rw [h2]; rfl
  cases ok with
  | false =>
    refine ⟨h.local_seq, ?_, h.kept, h.wire, h.arrived, h.asked⟩
    intro c' b hc'
    obtain ⟨rfl, rfl⟩ : c = c' ∧ false = b := by simpa [send_datagram] using hc'
    exact ⟨data, i, h1, h2, by simp, h4⟩
  | true =>
    have hframe : c.buf P.S P.t = P.frame c.seq data i := by
      rw [h2]
      rfl
    have hemit := h.emit (e := ⟨c.seq, c.i, c.buf P.S P.t⟩) h1 (h3 rfl) (.inl hci) hframe
      (fun hpos => h4 (hci ▸ hpos))
    refine ⟨hemit.local_seq, ?_, hemit.kept, hemit.wire, hemit.arrived, hemit.asked⟩
    intro c' b hc'
    obtain ⟨hcc, rfl⟩ : send_datagram c true = c' ∧ false = b := by simpa using hc'
    have hnext : c' = SendCall.at c.seq data (i + 1) := by
      rw [← hcc, h2]
      exact SendCall.send_datagram_at _ _ _
    refine ⟨data, i + 1, ?_, ?_, by simp, ?_⟩
    · rw [hnext]
      exact h1
    · rw [hnext]
      rfl
    · intro _
      rw [hnext]
      obtain h0 | hpos := Nat.eq_zero_or_pos i
      · exact ⟨⟨c.seq, c.i, c.buf P.S P.t⟩, by simp, rfl, hci.trans h0⟩
      · obtain ⟨e₀, he₀, hs⟩ := h4 hpos
        exact ⟨e₀, by simp [he₀], hs⟩

theorem Sender.finish (h : Sender P L) {c : SendCall} :
    Sender P { L with
      tx_ := Function.update L.tx_ P.t (send_end (L.tx_ P.t) c)
      call := none } := by
  constructor
  · dsimp only
    rw [Function.update_self]
    exact h.local_seq
  · intro c b hc
    cases hc
  · intro seq idx rcd hr
    dsimp only at hr
    rw [Function.update_self] at hr
    exact h.kept seq idx rcd hr
  · exact h.wire
  · exact h.arrived
  · exact h.asked

theorem handle_nack_cases (C : Config) (target : ℕ) (ts : TxState) (seq idx : ℕ) :
    (ts.handle_nack C target seq idx = (ts, .silent)) ∨
    (∃ rcd ts', ts.tx_buf (seq, idx) = some rcd ∧ ts'.local_seq = ts.local_seq ∧
      ts'.tx_buf = Function.update ts.tx_buf (seq, idx)
        (some { rcd with nack_count := (rcd.nack_count + 1) % 2 ^ 32 }) ∧
      ((C.retx_k_send_ < (rcd.nack_count + 1) % 2 ^ 32 ∧ ts.handle_nack C target seq idx =
          (ts', .poison target (.exceeded target seq idx))) ∨
        ts.handle_nack C target seq idx = (ts', .resend target seq idx
          { rcd with nack_count := (rcd.nack_count + 1) % 2 ^ 32 }))) ∨
    (ts.tx_buf (seq, idx) = none ∧ ts.handle_nack C target seq idx =
      ({ ts with poisoned := some (.evicted target seq idx) },
        .poison target (.evicted target seq idx))) := by
  unfold TxState.handle_nack
  by_cases hp : ts.poisoned.isSome
  · rw [if_pos hp]
    exact .inl rfl
  · rw [if_neg hp]
    cases hb : ts.tx_buf (seq, idx) with
    | some rcd =>
      right; left
      dsimp only
      split
      · next hover =>
        refine ⟨rcd, _, rfl, ?_, ?_, .inl ⟨hover, rfl⟩⟩
        · rfl
        · rfl
      · refine ⟨rcd, _, rfl, ?_, ?_, .inr rfl⟩
        · rfl
        · rfl
    | none =>
      dsimp only
      split
      · exact .inl rfl
      · exact .inr (.inr ⟨rfl, rfl⟩)

theorem Sender.count (h : Sender P L) {ts' : TxState} {key : ℕ × ℕ} {rcd : TxRecord} {n : ℕ}
    (hb : (L.tx_ P.t).tx_buf key = some rcd) (hseq : ts'.local_seq = (L.tx_ P.t).local_seq)
    (hbuf : ts'.tx_buf = Function.update (L.tx_ P.t).tx_buf key (some { rcd with nack_count := n })) :
    Sender P { L with tx_ := Function.update L.tx_ P.t ts' } := by
  constructor
  · dsimp only
    rw [Function.update_self, hseq]
    exact h.local_seq
  · exact h.call
  · intro seq idx rcd' hr
    dsimp only at hr
    rw [Function.update_self, hbuf] at hr
    by_cases hkey : (seq, idx) = key
    · subst hkey
      rw [Function.update_self] at hr
      obtain ⟨data, i, m, h1, h2, h3, h4, h5⟩ := h.kept seq idx rcd hb
      refine ⟨data, i, n, h1, h2, h3, ?_, h5⟩
      rw [← Option.some.inj hr, h4]
    · rw [Function.update_of_ne hkey] at hr
      exact h.kept seq idx rcd' hr
  · exact h.wire
  · exact h.arrived
  · exact h.asked

theorem Sender.nack (h : Sender P L) {k : ℕ} {b : Bytes} (hk : L.nackWire[k]? = some b) :
    Sender P ({ L with
      tx_ := (handle_nack_ P.S L.tx_ b addr).1
      nackWire := L.nackWire.eraseIdx k }.reply P (handle_nack_ P.S L.tx_ b addr).2) := by
  obtain ⟨key, rfl⟩ := h.asked b (List.mem_of_getElem? hk)
  have hask : ∀ b ∈ L.nackWire.eraseIdx k, ∃ key : ℕ × ℕ, b = send_nack_ P.T P.s P.t key.1 key.2 :=
    fun b hb => h.asked b (List.mem_of_mem_eraseIdx hb)
  rw [P.handle_nack_frame]
  by_cases haddr : addr ≠ P.S.ip_table_ P.t
  · rw [if_pos haddr]
    exact h.congr rfl rfl rfl rfl h.arrived hask
  · rw [if_neg haddr]
    rcases handle_nack_cases P.S P.t (L.tx_ P.t) key.1 key.2 with
      he | ⟨rcd, ts', hb, hseq, hbuf, hrep⟩ | ⟨hb, he⟩
    · rw [he]
      exact h.congr (Function.update_self ..) rfl rfl rfl h.arrived hask
    · have hc := h.count hb hseq hbuf
      obtain ⟨-, he⟩ | he := hrep
      · rw [he]
        exact hc.congr rfl rfl rfl rfl h.arrived hask
      · rw [he]
        obtain ⟨data, i, n, h1, h2, h3, h4, h5⟩ := h.kept key.1 key.2 rcd hb
        have hframe : resend_fragment_ P.S P.t key.1 key.2
            { rcd with nack_count := (rcd.nack_count + 1) % 2 ^ 32 } = P.frame key.1 data i := by
          rw [h3, h4]
          exact P.resend_record key.1 data i _
        have hm := hc.emit (e := ⟨key.1, key.2, resend_fragment_ P.S P.t key.1 key.2
          { rcd with nack_count := (rcd.nack_count + 1) % 2 ^ 32 }⟩) h1 h2 (.inr h3) hframe h5
        exact hm.congr rfl rfl rfl rfl hm.arrived hask
    · rw [he]
      refine ⟨?_, h.call, ?_, h.wire, h.arrived, hask⟩
      · show (Function.update L.tx_ P.t _ P.t).local_seq = L.log.length
        rw [Function.update_self]
        exact h.local_seq
      · intro seq idx rcd hr
        have hr' : (Function.update L.tx_ P.t { L.tx_ P.t with
            poisoned := some (.evicted P.t key.1 key.2) } P.t).tx_buf (seq, idx) = some rcd := hr
        rw [Function.update_self] at hr'
        exact h.kept seq idx rcd hr'

theorem Sender.init : Sender P {} where
  local_seq := rfl
  call := by simp
  kept := by simp
  wire := by simp
  arrived := by simp
  asked := by simp

theorem Sender.step (h : Sender P L) {ev : Event} (hs : L.step P addr ev = some L')
    (hlen : L'.log.length < 2 ^ 32) : Sender P L' := by
  cases ev with
  | send data =>
    obtain ⟨-, -, rfl⟩ := Link.step_send hs
    apply h.start
    simpa using hlen
  | retain =>
    obtain ⟨c, hc, hmore, rfl⟩ := Link.step_retain hs
    exact h.retain hc hmore
  | sendto ok =>
    obtain ⟨c, hc, rfl⟩ := Link.step_sendto hs
    exact h.sendto hc ok
  | finish =>
    obtain ⟨c, -, -, rfl⟩ := Link.step_finish hs
    exact h.finish
  | data k =>
    obtain ⟨e, he, rfl⟩ := Option.map_eq_some_iff.mp hs
    refine h.congr rfl rfl rfl rfl ?_ h.asked
    intro e' he'
    obtain he' | he' := List.mem_append.mp he'
    · exact h.arrived e' he'
    · obtain rfl := List.mem_singleton.mp he'
      exact List.mem_of_getElem? he
  | recv len =>
    obtain ⟨r, -, rfl⟩ := Option.map_eq_some_iff.mp hs
    exact h.congr rfl rfl rfl rfl h.arrived h.asked
  | drain now₁ now₂ =>
    obtain ⟨r, -, rfl⟩ := Option.map_eq_some_iff.mp hs
    refine h.congr rfl rfl rfl rfl h.arrived ?_
    intro b hb
    obtain hb | hb := List.mem_append.mp hb
    · exact h.asked b hb
    · obtain ⟨key, -, rfl⟩ := List.mem_map.mp hb
      exact ⟨key, rfl⟩
  | nack k =>
    obtain ⟨b, hb, rfl⟩ := Option.map_eq_some_iff.mp hs
    exact h.nack hb
  | poison k =>
    obtain ⟨b, -, rfl⟩ := Option.map_eq_some_iff.mp hs
    exact h.congr rfl rfl rfl rfl h.arrived h.asked

end Sender
end QSync.Io
