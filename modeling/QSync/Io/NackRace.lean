import QSync.Io.Link

/-! # NACKs between the steps of `send`

One thread sends to a target, and the pump thread handles NACKs between any two of the steps that
`send` takes under the lock. A fragment that is missing is not sent yet, being sent, or evicted; only
in the last case is the pipe given up. Stream numbers wrap, so a number stands for the latest message
under it.
-/

namespace QSync.Io
open QSync.Network
set_option autoImplicit false
set_option maxHeartbeats 250000

/-- The send state of one target with the call under way. No step reads the histories `message`,
`built` and `evicted`. -/
structure Sending where
  ts : TxState := {}
  /-- As in `Link`: the call, and whether its next datagram is about to be handed to `sendto`. -/
  call : Option (SendCall × Bool) := none
  /-- The latest message of each stream number. -/
  message : ℕ → Option Bytes := fun _ => none
  /-- The datagram last built for each fragment. -/
  built : ℕ × ℕ → Option Bytes := fun _ => none
  /-- The records of the latest messages that the FIFO has removed. -/
  evicted : ℕ × ℕ → Bool := fun _ => false

inductive SendStep
  | start (data : Bytes)
  | retain
  | sendto (ok : Bool)
  | finish
  | nack (seq idx : ℕ)

/-- One step. The pipe may be poisoned between the test at the head of `send` and its first lock, so
`start` does not look at it. -/
def Sending.step (C : Config) (dst : ℕ) (s : Sending) : SendStep → Option Sending
  | .start data =>
    if s.call.isSome then none
    else
      let r := send_start s.ts data
      some { s with
        ts := r.1
        call := some (r.2, false)
        message := Function.update s.message r.2.seq (some data)
        evicted := fun key => decide (key.1 ≠ r.2.seq) && s.evicted key }
  | .retain =>
    match s.call with
    | some (c, false) =>
      if c.more then
        let inserted := Function.update s.ts.tx_buf (c.seq, c.idx) (some (c.record C dst))
        let ts := send_retain C dst s.ts c
        some { s with
          ts := ts
          call := some (c, true)
          built := Function.update s.built (c.seq, c.idx) (some (c.buf C dst))
          evicted := fun key =>
            s.evicted key || ((inserted key).isSome && (ts.tx_buf key).isNone) }
      else none
    | _ => none
  | .sendto ok =>
    match s.call with
    | some (c, true) => some { s with call := some (send_datagram c ok, false) }
    | _ => none
  | .finish =>
    match s.call with
    | some (c, false) =>
      if c.more then none else some { s with ts := send_end s.ts c, call := none }
    | _ => none
  | .nack seq idx => some { s with ts := (s.ts.handle_nack C dst seq idx).1 }

/-- What a NACK for a fragment may lead to. -/
def Sending.Answered (C : Config) (dst : ℕ) (s : Sending) (seq idx : ℕ) : NackReply → Prop
  | .silent => True
  | .resend target n i rcd =>
    target = dst ∧ n = seq ∧ i = idx ∧
      (∃ rcd₀ k, s.ts.tx_buf (seq, idx) = some rcd₀ ∧ rcd = { rcd₀ with nack_count := k }) ∧
      s.built (seq, idx) = some (resend_fragment_ C target n i rcd)
  | .poison target (.exceeded peer n i) =>
    target = dst ∧ peer = dst ∧ n = seq ∧ i = idx ∧
      ∃ rcd, s.ts.tx_buf (seq, idx) = some rcd ∧ C.retx_k_send_ < rcd.nack_count + 1
  | .poison _ (.evicted _ _ _) => s.evicted (seq, idx) = true
  | .poison _ _ => False

/-! ## What is missing was evicted -/

/-- A fragment's record is there, or the FIFO has removed it. -/
def Sending.Accounted (s : Sending) (key : ℕ × ℕ) : Prop :=
  s.ts.tx_buf key ≠ none ∨ s.evicted key = true

/-- Every fragment the loop has been through is accounted for. -/
structure Sending.Stored (C : Config) (dst : ℕ) (s : Sending) : Prop where
  flight : ∀ n, n ∈ s.ts.streams_in_flight ↔ ∃ c b, s.call = some (c, b) ∧ c.seq = n
  allocated : ∀ n < s.ts.local_seq, s.message n ≠ none
  call : ∀ c b, s.call = some (c, b) → ∃ data i, c = SendCall.at c.seq data i ∧
    s.message c.seq = some data ∧ ∀ j, j < i ∨ b = true ∧ j = i → s.Accounted (c.seq, j % 2 ^ 16)
  past : ∀ n data, s.message n = some data → (∀ c b, s.call = some (c, b) → c.seq ≠ n) →
    ∀ j < total data.length, s.Accounted (n, j % 2 ^ 16)
  built : ∀ key rcd, s.ts.tx_buf key = some rcd →
    s.built key = some (resend_fragment_ C dst key.1 key.2 rcd)

section Steps
variable {C : Config} {dst : ℕ} {s s' : Sending}

theorem resend_of_record (c : SendCall) :
    resend_fragment_ C dst c.seq c.idx (c.record C dst) = c.buf C dst := by
  have hlen : (c.payload C dst).length = c.chunk.length := by
    rw [SendCall.payload, crypt_length]
  unfold resend_fragment_ SendCall.record SendCall.buf
  rw [List.take_of_length_le hlen.le]

theorem Sending.Stored.init : Sending.Stored C dst {} where
  flight := by simp
  allocated := by simp
  call := by simp
  past := by simp
  built := by simp

theorem Sending.Stored.start (h : s.Stored C dst) {data : Bytes}
    (hs : s.step C dst (.start data) = some s') : s'.Stored C dst := by
  simp only [Sending.step] at hs
  split at hs
  · cases hs
  · next hcall =>
    rw [Option.not_isSome_iff_eq_none] at hcall
    obtain rfl := Option.some.inj hs
    constructor
    · intro n
      have hold : n ∉ s.ts.streams_in_flight := by
        rw [h.flight n, hcall]
        simp
      simp only [send_start, Finset.mem_insert, hold, or_false, Option.some.injEq, Prod.mk.injEq]
      constructor
      · rintro rfl
        exact ⟨_, _, ⟨rfl, rfl⟩, rfl⟩
      · rintro ⟨c, b, ⟨rfl, -⟩, rfl⟩
        rfl
    · intro n hn
      simp only [send_start] at hn ⊢
      by_cases hnew : n = s.ts.local_seq
      · rw [hnew, Function.update_self]
        simp
      · rw [Function.update_of_ne hnew]
        exact h.allocated n (by omega)
    · intro c b hc
      obtain ⟨rfl, rfl⟩ : (send_start s.ts data).2 = c ∧ false = b := by simpa using hc
      refine ⟨data, 0, (SendCall.at_zero _ _).symm, Function.update_self .., ?_⟩
      intro j hj
      simp at hj
    · intro n d hn hidle j hj
      have hne : n ≠ s.ts.local_seq := fun he => hidle (send_start s.ts data).2 false rfl he.symm
      simp only [send_start] at hn
      rw [Function.update_of_ne hne] at hn
      obtain hbuf | hev := h.past n d hn (by simp [hcall]) j hj
      · exact .inl hbuf
      · refine .inr ?_
        show (decide (n ≠ s.ts.local_seq) && s.evicted _) = true
        rw [hev, Bool.and_true, decide_eq_true hne]
    · exact h.built

/-- Keeping a record, with what the FIFO removes for it noted. -/
structure Sending.Retains (C : Config) (dst : ℕ) (c : SendCall) (s s' : Sending) : Prop where
  call : s.call = some (c, false)
  more : c.more = true
  ts : s'.ts = send_retain C dst s.ts c
  call' : s'.call = some (c, true)
  message : s'.message = s.message
  built : s'.built = Function.update s.built (c.seq, c.idx) (some (c.buf C dst))
  evicted : ∀ key, s'.evicted key = true ↔ s.evicted key = true ∨
    (Function.update s.ts.tx_buf (c.seq, c.idx) (some (c.record C dst)) key).isSome ∧
      (send_retain C dst s.ts c).tx_buf key = none

theorem Sending.step_retain :
    s.step C dst .retain = some s' → ∃ c, Sending.Retains C dst c s s' := by
  intro hs
  simp only [Sending.step] at hs
  split at hs
  · next c hcall =>
    split at hs
    · next hmore =>
      obtain rfl := Option.some.inj hs
      refine ⟨c, hcall, hmore, rfl, rfl, rfl, rfl, fun key => ?_⟩
      simp only [Bool.or_eq_true, Bool.and_eq_true, Option.isNone_iff_eq_none]
    · cases hs
  · cases hs

theorem Sending.exists_retain {c : SendCall} (hcall : s.call = some (c, false))
    (hmore : c.more = true) : ∃ s', s.step C dst .retain = some s' ∧ Sending.Retains C dst c s s' := by
  have hstep : ∃ s', s.step C dst .retain = some s' := by
    simp only [Sending.step, hcall, hmore]
    exact ⟨_, rfl⟩
  obtain ⟨s', hs'⟩ := hstep
  obtain ⟨c', hr⟩ := Sending.step_retain hs'
  obtain rfl : c = c' := by simpa [hcall] using hr.call
  exact ⟨s', hs', hr⟩

/-- What was accounted for still is, and so is the record just kept. -/
theorem Sending.Retains.accounted {c : SendCall} (h : Sending.Retains C dst c s s')
    {key : ℕ × ℕ} (hkey : s.Accounted key ∨ key = (c.seq, c.idx)) : s'.Accounted key := by
  unfold Sending.Accounted at hkey ⊢
  rw [h.ts, h.evicted]
  have hins : s.evicted key = true ∨
      (Function.update s.ts.tx_buf (c.seq, c.idx) (some (c.record C dst)) key).isSome := by
    by_cases he : key = (c.seq, c.idx)
    · rw [he, Function.update_self]
      exact .inr rfl
    · rw [Function.update_of_ne he]
      obtain (hbuf | hev) | hkey := hkey
      · exact .inr (Option.isSome_iff_ne_none.mpr hbuf)
      · exact .inl hev
      · exact absurd hkey he
  obtain hev | hins := hins
  · exact .inr (.inl hev)
  · by_cases hafter : (send_retain C dst s.ts c).tx_buf key = none
    · exact .inr (.inr ⟨hins, hafter⟩)
    · exact .inl hafter

theorem Sending.Stored.retain (h : s.Stored C dst)
    (hs : s.step C dst .retain = some s') : s'.Stored C dst := by
  obtain ⟨c, hr⟩ := Sending.step_retain hs
  have hcall := hr.call
  obtain ⟨data, i, hat, hmsg, hdone⟩ := h.call c false hcall
  have hidx : c.idx = i % 2 ^ 16 := by
    rw [hat]
    rfl
  constructor
  · intro n
    rw [hr.ts, hr.call', send_retain_flight, h.flight n, hcall]
    simp
  · rw [hr.ts, hr.message, (send_retain_same C dst s.ts c).1]
    exact h.allocated
  · intro c' b hc'
    rw [hr.call'] at hc'
    obtain ⟨rfl, rfl⟩ : c = c' ∧ true = b := by simpa using hc'
    rw [hr.message]
    refine ⟨data, i, hat, hmsg, ?_⟩
    intro j hj
    apply hr.accounted
    obtain hj | ⟨-, rfl⟩ := hj
    · exact .inl (hdone j (.inl hj))
    · exact .inr (by rw [hidx])
  · intro n d hn hidle j hj
    apply hr.accounted
    rw [hr.message] at hn
    refine .inl (h.past n d hn ?_ j hj)
    intro c' b hc'
    obtain ⟨rfl, -⟩ : c = c' ∧ false = b := by simpa [hcall] using hc'
    exact hidle c true hr.call'
  · intro key rcd hrcd
    rw [hr.ts] at hrcd
    rw [hr.built]
    have hins := send_retain_inserted hrcd
    by_cases he : key = (c.seq, c.idx)
    · subst he
      rw [Function.update_self] at hins
      rw [Function.update_self, ← Option.some.inj hins]
      exact congrArg some (resend_of_record c).symm
    · rw [Function.update_of_ne he] at hins
      rw [Function.update_of_ne he]
      exact h.built key rcd hins

theorem Sending.Stored.sendto (h : s.Stored C dst) {ok : Bool}
    (hs : s.step C dst (.sendto ok) = some s') : s'.Stored C dst := by
  simp only [Sending.step] at hs
  split at hs
  · next c hcall =>
    obtain rfl := Option.some.inj hs
    obtain ⟨data, i, hat, hmsg, hdone⟩ := h.call c true hcall
    have hnext : send_datagram c ok = SendCall.at c.seq data (if ok then i + 1 else i) := by
      cases ok with
      | false => exact hat
      | true =>
        rw [hat]
        exact SendCall.send_datagram_at _ _ _
    have hsame : (send_datagram c ok).seq = c.seq := by rw [hnext]; rfl
    constructor
    · intro n
      dsimp only
      rw [h.flight n, hcall]
      simp [hsame]
    · exact h.allocated
    · intro c' b hc'
      obtain ⟨rfl, rfl⟩ : send_datagram c ok = c' ∧ false = b := by simpa using hc'
      refine ⟨data, if ok then i + 1 else i, ?_, ?_, ?_⟩
      · rw [hsame]
        exact hnext
      · rw [hsame]
        exact hmsg
      · intro j hj
        rw [hsame]
        refine hdone j ?_
        obtain hj | ⟨hb, -⟩ := hj
        · have hle : j < i ∨ j = i := by split at hj <;> omega
          exact hle.imp_right fun he => ⟨rfl, he⟩
        · cases hb
    · intro n d hn hidle j hj
      refine h.past n d hn ?_ j hj
      intro c' b hc'
      obtain ⟨rfl, -⟩ : c = c' ∧ true = b := by simpa [hcall] using hc'
      rw [← hsame]
      exact hidle _ false rfl
    · exact h.built
  · cases hs

theorem Sending.Stored.finish (h : s.Stored C dst)
    (hs : s.step C dst .finish = some s') : s'.Stored C dst := by
  simp only [Sending.step] at hs
  split at hs
  · next c hcall =>
    split at hs
    · cases hs
    · next hmore =>
      obtain rfl := Option.some.inj hs
      obtain ⟨data, i, hat, hmsg, hdone⟩ := h.call c false hcall
      constructor
      · intro n
        simp only [send_end, Finset.mem_erase, h.flight n, hcall]
        simp [eq_comm]
      · exact h.allocated
      · intro c' b hc'
        cases hc'
      · intro n d hn _ j hj
        by_cases hne : c.seq = n
        · -- the loop has been through all fragments of the message
          subst hne
          obtain rfl : data = d := Option.some.inj (hmsg.symm.trans hn)
          have hi : total data.length ≤ i := by
            rw [hat] at hmore
            exact Nat.le_of_not_lt fun hlt => hmore (decide_eq_true hlt)
          exact hdone j (.inl (by omega))
        · refine h.past n d hn ?_ j hj
          intro c' b hc'
          obtain ⟨rfl, -⟩ : c = c' ∧ false = b := by simpa [hcall] using hc'
          exact hne
      · exact h.built
  · cases hs

theorem handle_nack_keeps (ts : TxState) (seq idx : ℕ) :
    (ts.handle_nack C dst seq idx).1.local_seq = ts.local_seq ∧
    (ts.handle_nack C dst seq idx).1.streams_in_flight = ts.streams_in_flight ∧
    ∀ key, (ts.handle_nack C dst seq idx).1.tx_buf key = ts.tx_buf key ∨
      ∃ rcd k, ts.tx_buf key = some rcd ∧
        (ts.handle_nack C dst seq idx).1.tx_buf key = some { rcd with nack_count := k } := by
  unfold TxState.handle_nack
  split
  · exact ⟨rfl, rfl, fun key => .inl rfl⟩
  · cases hb : ts.tx_buf (seq, idx) with
    | some rcd =>
      have hkey : ∀ (k : ℕ) (key : ℕ × ℕ), Function.update ts.tx_buf (seq, idx)
          (some { rcd with nack_count := k }) key = ts.tx_buf key ∨
          ∃ rcd₁ k₁, ts.tx_buf key = some rcd₁ ∧ Function.update ts.tx_buf (seq, idx)
            (some { rcd with nack_count := k }) key = some { rcd₁ with nack_count := k₁ } := by
        intro k key
        by_cases he : key = (seq, idx)
        · subst he
          exact .inr ⟨rcd, k, hb, Function.update_self ..⟩
        · exact .inl (Function.update_of_ne he ..)
      dsimp only
      split
      · exact ⟨rfl, rfl, hkey ((rcd.nack_count + 1) % 2 ^ 32)⟩
      · exact ⟨rfl, rfl, hkey ((rcd.nack_count + 1) % 2 ^ 32)⟩
    | none =>
      dsimp only
      split
      · exact ⟨rfl, rfl, fun key => .inl rfl⟩
      · exact ⟨rfl, rfl, fun key => .inl rfl⟩

theorem Sending.Stored.nack (h : s.Stored C dst) (seq idx : ℕ) :
    Sending.Stored C dst { s with ts := (s.ts.handle_nack C dst seq idx).1 } := by
  obtain ⟨hseq, hflight, hbuf⟩ := @handle_nack_keeps C dst s.ts seq idx
  have hacc : ∀ key, s.Accounted key →
      Sending.Accounted { s with ts := (s.ts.handle_nack C dst seq idx).1 } key := by
    intro key hkey
    obtain hkey | hkey := hkey
    · obtain hsame | ⟨rcd, k, -, hnew⟩ := hbuf key
      · refine .inl ?_
        dsimp only
        rw [hsame]
        exact hkey
      · refine .inl ?_
        dsimp only
        rw [hnew]
        exact Option.some_ne_none _
    · exact .inr hkey
  constructor
  · intro n
    dsimp only
    rw [hflight]
    exact h.flight n
  · dsimp only
    rw [hseq]
    exact h.allocated
  · intro c b hc
    obtain ⟨data, i, hat, hmsg, hdone⟩ := h.call c b hc
    exact ⟨data, i, hat, hmsg, fun j hj => hacc _ (hdone j hj)⟩
  · intro n d hn hidle j hj
    exact hacc _ (h.past n d hn hidle j hj)
  · intro key rcd hrcd
    dsimp only at hrcd ⊢
    obtain hsame | ⟨rcd₀, k, hold, hnew⟩ := hbuf key
    · exact h.built key rcd (hsame ▸ hrcd)
    · rw [h.built key rcd₀ hold, ← Option.some.inj (hnew.symm.trans hrcd)]
      rfl

theorem Sending.Stored.step (h : s.Stored C dst) {ev : SendStep}
    (hs : s.step C dst ev = some s') : s'.Stored C dst := by
  cases ev with
  | start data => exact h.start hs
  | retain => exact h.retain hs
  | sendto ok => exact h.sendto hs
  | finish => exact h.finish hs
  | nack seq idx =>
    obtain rfl := Option.some.inj hs
    exact h.nack seq idx

end Steps

/-! ## The replies -/

/-- Sends and NACKs in any order. -/
def Sending.Reached (C : Config) (dst : ℕ) (s : Sending) : Prop :=
  Runs (Sending.step C dst) (fun _ _ => True) {} s

/-- A NACK for a fragment of the latest message under its number gets the retained datagram again,
or nothing, or ends the pipe for one of two reasons: the budget is used up, or the FIFO has removed
the record since the message was started. -/
theorem handle_nack_answered (C : Config) (dst : ℕ) {s : Sending} (h : s.Reached C dst)
    (seq idx : ℕ) (hidx : ∀ data, s.message seq = some data →
      fragCount data.length ≤ 2 ^ 16 ∧ idx < fragCount data.length) :
    s.Answered C dst seq idx (s.ts.handle_nack C dst seq idx).2 := by
  have hst : s.Stored C dst := h.invariant .init fun s ev s' hs _ hstep => hs.step hstep
  unfold TxState.handle_nack
  split
  · trivial
  · cases hb : s.ts.tx_buf (seq, idx) with
    | some rcd =>
      dsimp only
      split
      · next hover =>
        exact ⟨rfl, rfl, rfl, rfl, rcd, hb, lt_of_lt_of_le hover (Nat.mod_le _ _)⟩
      · exact ⟨rfl, rfl, rfl, ⟨rcd, _, hb, rfl⟩, hst.built (seq, idx) rcd hb⟩
    | none =>
      dsimp only
      split
      · trivial
      · next hyet =>
        rw [not_or] at hyet
        obtain ⟨data, hmsg⟩ := Option.ne_none_iff_exists'.mp
          (hst.allocated seq (Nat.lt_of_not_ge hyet.1))
        obtain ⟨hsmall, hlt⟩ := hidx data hmsg
        have hidle : ∀ c b, s.call = some (c, b) → c.seq ≠ seq :=
          fun c b hc he => hyet.2 ((hst.flight seq).mpr ⟨c, b, hc, he⟩)
        have hacc := hst.past seq data hmsg hidle idx (by rw [total_eq hsmall]; exact hlt)
        rw [Nat.mod_eq_of_lt (show idx < 2 ^ 16 by omega)] at hacc
        obtain hbuf | hev := hacc
        · exact absurd hb hbuf
        · exact hev

/-- A message has been sent and asked for once; its fragment is asked for again. -/
theorem handle_nack_answered_resend : ∃ s, Sending.Reached pipe01.S 1 s ∧
    (∃ rcd, (s.ts.handle_nack pipe01.S 1 0 0).2 = .resend 1 0 0 rcd ∧ rcd.nack_count = 2) ∧
    s.Answered pipe01.S 1 0 0 (s.ts.handle_nack pipe01.S 1 0 0).2 := by
  have hrun : Sending.Reached pipe01.S 1 _ := Runs.exec_getD
    [.start [1, 2, 3], .retain, .sendto true, .finish, .nack 0 0] rfl
  refine ⟨_, hrun, ⟨_, rfl, rfl⟩, handle_nack_answered pipe01.S 1 hrun 0 0 ?_⟩
  intro data hdata
  obtain rfl : [1, 2, 3] = data := Option.some.inj hdata
  decide

end QSync.Io
