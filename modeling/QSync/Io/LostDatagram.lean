import Mathlib.Tactic.IntervalCases
import QSync.Io.Channel

/-! # One lost datagram

The pipe survives a lost datagram as long as the sender still has what it is asked for and neither the
network nor the sender is slow: each NACK is answered and only one answer can be lost, so what was
asked for five times arrives before the receiver gives up.
-/

namespace QSync.Io
open QSync.Network
set_option autoImplicit false
set_option maxHeartbeats 250000

/-- Messages are not empty, and the 32-bit number of their fragments does not wrap to zero. -/
def Channel.nonempty (_ : Channel) : ChannelEvent → Prop
  | .send data => data ≠ [] ∧ 0 < total data.length
  | _ => True

/-- The network is not slow, nor is the sender: when a fragment has been asked for five times and a
cycle has passed since, nothing of it is in flight, neither a NACK nor a datagram, and no more than
three of the NACKs got to the sender before it had reached the fragment. -/
def Channel.prompt (P : Pipe) (c : Channel) : ChannelEvent → Prop
  | .drain _ now₂ => ∀ key, 5 ≤ c.link.nacks.count key →
      c.asked_at key = 0 ∨ P.T.cycle_ns_ ≤ (now₂ + 2 ^ 64 - c.asked_at key) % 2 ^ 64 →
      key ∉ c.asking ∧ (∀ e ∈ c.link.wire.drop c.served, ¬ e.Carries key) ∧ c.early key ≤ 3
  | _ => True

/-- When a NACK for a fragment of a finished message gets to the sender, none of the message's entries
has left the FIFO. -/
def Channel.remembers (c : Channel) : ChannelEvent → Prop
  | .nack => ∀ key, c.asking.head? = some key → c.link.Finished key.1 →
      key.1 ∉ c.queued.rdrop TX_BUF_CAP_STREAMS
  | _ => True

instance (c : Channel) : (ev : ChannelEvent) → Decidable (c.nonempty ev)
  | .send data => inferInstanceAs (Decidable (data ≠ [] ∧ 0 < total data.length))
  | .retain | .sendto _ | .finish | .recv _ | .drain _ _ | .deliver | .drop | .nack | .poison =>
    inferInstanceAs (Decidable True)

/-! ## Whole runs -/

section Runs
variable {P : Pipe} {addr : ℕ} {c c' : Channel} {L L' : Link}

/-- Neither endpoint gives the pipe up, and why. -/
structure Channel.Calm (P : Pipe) (c : Channel) : Prop where
  disciplined : Disciplined P c.link
  filled : ∀ data ∈ c.link.log, data ≠ [] ∧ 0 < total data.length
  noted : Noted (fun key => c.link.nacks.count key) c.asked_at (c.link.rx_ P.s).nack_state
  named : ∀ key, key ∈ (c.link.rx_ P.s).nack_state ∨ key ∈ c.link.nacks → c.link.Named key
  sending : ∃ S, c.Follows P S
  joined : c.Joined
  accounts : c.Accounts P
  untold : c.link.poisonWire = []
  tx : (c.link.tx_ P.t).poisoned = none
  rx : (c.link.rx_ P.s).poisoned = none

theorem Channel.Calm.init : Channel.Calm P {} where
  disciplined := .init
  filled := by simp
  noted := by
    intro key r hr
    cases hr
  named := by simp
  sending := ⟨_, .init⟩
  joined := by
    intro n hn
    cases hn
  accounts := .init
  untold := rfl
  tx := rfl
  rx := rfl

theorem Channel.Calm.sending_step (h : c.Calm P) (hD : Disciplined P c'.link)
    (hlog : c.link.log <+: c'.link.log)
    (hfilled : ∀ data ∈ c'.link.log, data ≠ [] ∧ 0 < total data.length)
    (hS : ∃ S, c'.Follows P S) (hj : c'.Joined) (hA : c'.Accounts P)
    (hrx : c'.link.rx_ = c.link.rx_)
    (hnacks : c'.link.nacks = c.link.nacks) (hat : c'.asked_at = c.asked_at)
    (hpw : c'.link.poisonWire = c.link.poisonWire)
    (htx : (c'.link.tx_ P.t).poisoned = (c.link.tx_ P.t).poisoned) : c'.Calm P where
  disciplined := hD
  filled := hfilled
  noted := by
    rw [hrx, hnacks, hat]
    exact h.noted
  named := by
    rw [hrx, hnacks]
    exact fun key hkey => (h.named key hkey).mono hlog
  sending := hS
  joined := hj
  accounts := hA
  untold := hpw.trans h.untold
  tx := htx.trans h.tx
  rx := by
    rw [hrx]
    exact h.rx

/-- A NACK the sender passes over came before it had reached the fragment. -/
theorem Channel.Follows.unreached {S : Sending} (hS : c.Follows P S) (hsend : Sender P c.link)
    {key : ℕ × ℕ} (hnone : (c.link.tx_ P.t).tx_buf key = none)
    (hyet : (c.link.tx_ P.t).local_seq ≤ key.1 ∨ key.1 ∈ (c.link.tx_ P.t).streams_in_flight) :
    c.link.Unreached P key := by
  refine ⟨hnone, fun hfin => ?_⟩
  obtain hge | hflight := hyet
  · rw [hsend.local_seq] at hge
    exact absurd hfin.1 (Nat.not_lt_of_le hge)
  · rw [← hS.ts, hS.stored.flight key.1, hS.call] at hflight
    obtain ⟨d, b, hc, he⟩ := hflight
    exact hfin.idle hc he

theorem Channel.Calm.nack (h : c.Calm P) (hD : Disciplined P L')
    (hs : c.link.step P (P.S.ip_table_ P.t) (.nack 0) = some L') (hguard : c.remembers .nack) :
    Channel.Calm P { c with
      link := L'
      asking := c.asking.tail
      early := fun key =>
        if c.asking.head? = some key ∧ c.link.Unreached P key then c.early key + 1
        else c.early key } := by
  obtain ⟨S, hS⟩ := h.sending
  obtain ⟨b, hb, rfl⟩ := Option.map_eq_some_iff.mp hs
  obtain ⟨key, keys, hkeys, rfl⟩ : ∃ key keys, c.asking = key :: keys ∧
      b = send_nack_ P.T P.s P.t key.1 key.2 := by
    rw [h.accounts.asking, List.getElem?_map] at hb
    obtain ⟨key, hkey, rfl⟩ := Option.map_eq_some_iff.mp hb
    obtain ⟨keys, hkeys⟩ := List.head?_eq_some_iff.mp (List.head?_eq_getElem? ▸ hkey)
    exact ⟨key, keys, hkeys, rfl⟩
  have hhead : c.asking.head? = some key := by rw [hkeys]; rfl
  have htail : c.asking.tail = keys := by rw [hkeys]; rfl
  have hnamed : c.link.Named key :=
    h.named key (.inr (h.accounts.asked key (hkeys ▸ List.mem_cons_self ..)))
  rw [P.handle_nack_frame, if_neg (fun hne => hne rfl)] at hD ⊢
  obtain ⟨-, hcases⟩ := handle_nack_gives_up P.S P.t (c.link.tx_ P.t) key.1 key.2 h.tx
  obtain ⟨hcalm, hrep⟩ | hover | ⟨hnone, hlt, hflight⟩ := hcases
  · -- answered or passed over
    have htx : (Function.update c.link.tx_ P.t
        ((c.link.tx_ P.t).handle_nack P.S P.t key.1 key.2).1 P.t).poisoned =
          (c.link.tx_ P.t).poisoned := by
      rw [Function.update_self, hcalm, h.tx]
    have hmore : ∀ k, c.early k ≤ if c.asking.head? = some k ∧ c.link.Unreached P k then c.early k + 1
        else c.early k := by
      intro k
      split
      · exact Nat.le_succ _
      · exact le_rfl
    obtain ⟨hr, hnone, hyet⟩ | ⟨rcd, hr⟩ := hrep
    · rw [hr] at hD ⊢
      refine h.sending_step hD List.prefix_rfl h.filled
        (hS.nack h.tx key.1 key.2 (Function.update_self ..) rfl rfl rfl) (h.joined.congr rfl rfl rfl)
        ?_ rfl rfl rfl rfl htx
      refine h.accounts.nack hkeys htail rfl List.prefix_rfl rfl rfl rfl rfl hmore (.inl ?_)
      dsimp only
      rw [if_pos ⟨hhead, hS.unreached h.disciplined.sender hnone hyet⟩]
    · rw [hr] at hD ⊢
      refine h.sending_step hD List.prefix_rfl h.filled
        (hS.nack h.tx key.1 key.2 (Function.update_self ..) rfl rfl rfl) (h.joined.congr rfl rfl rfl)
        ?_ rfl rfl rfl rfl htx
      exact h.accounts.nack hkeys htail rfl (List.prefix_append _ _) rfl rfl rfl rfl hmore
        (.inr ⟨_, ⟨rfl, Nat.mod_eq_of_lt hnamed.idx_lt⟩, rfl⟩)
  · -- asked for more often than the sender allows: not within the receiver's budget
    rw [hover] at hD
    exact absurd (List.mem_append_right _ (List.mem_singleton_self _)) (hD.polite _ _ _)
  · -- the record is gone
    have hfin : c.link.Finished key.1 := by
      rw [h.disciplined.sender.local_seq] at hlt
      refine ⟨hlt, fun hc => hflight ?_⟩
      obtain ⟨⟨d, b⟩, hcall, hd⟩ := Option.map_eq_some_iff.mp hc
      rw [← hS.ts, hS.stored.flight key.1, hS.call]
      exact ⟨d, b, hcall, hd⟩
    exact absurd (hS.gone (List.getElem?_eq_getElem hfin.1) hnamed hnone hfin
      (h.joined.finished hfin)) (hguard key hhead hfin)

theorem Channel.Calm.drain (h : c.Calm P) (hD : Disciplined P L') {now₁ now₂ : ℕ}
    (hT : P.T.retx_k_recv_ = 5)
    (hs : c.link.step P addr (.drain now₁ now₂) = some L')
    (hguard : c.prompt P (.drain now₁ now₂)) :
    Channel.Calm P { c with
      link := L'
      asked_at := fun key =>
        if key ∈ L'.nacks.drop c.link.nacks.length then now₂ else c.asked_at key
      asking := c.asking ++ L'.nacks.drop c.link.nacks.length } := by
  obtain ⟨S, hS⟩ := h.sending
  have hA := h.accounts.drain hs
  obtain ⟨r, hr, rfl⟩ := Option.map_eq_some_iff.mp hs
  have hrx : Function.update c.link.rx_ P.s r.1 P.s = r.1 := Function.update_self ..
  obtain ⟨-, hfresh, -⟩ := h.disciplined.tick hr
  have hlate : ∀ key ∈ r.1.nack_state, P.T.retx_k_recv_ ≤ c.link.nacks.count key →
      c.asked_at key ≠ 0 ∧ (now₂ + 2 ^ 64 - c.asked_at key) % 2 ^ 64 < P.T.cycle_ns_ := by
    intro key hkey hout
    rw [hT] at hout
    by_contra hdue
    rw [not_and_or, not_not, not_lt] at hdue
    obtain ⟨hasking, hwire, hearly⟩ := hguard key hout hdue
    exact hfresh key hkey (h.accounts.arrived hout hasking hwire hearly)
  obtain ⟨hcalm, hnoted⟩ := drain_calm hr h.rx h.noted hlate (by omega)
  have hnames := h.disciplined.names hr fun key hkey => h.named key (.inl hkey)
  constructor
  · exact hD
  · exact h.filled
  · dsimp only
    rw [hrx, List.drop_left]
    simp only [List.count_append]
    exact hnoted
  · dsimp only
    rw [hrx]
    intro key hkey
    rw [List.mem_append] at hkey
    obtain hkey | hkey | hkey := hkey
    · exact hnames key (.inl hkey)
    · exact h.named key (.inr hkey)
    · exact hnames key (.inr hkey)
  · exact ⟨S, hS.congr rfl rfl rfl rfl⟩
  · exact h.joined.congr rfl rfl rfl
  · exact hA
  · exact h.untold
  · exact h.tx
  · dsimp only
    rw [hrx]
    exact hcalm

theorem Channel.Calm.deliver (h : c.Calm P) (hD : Disciplined P L')
    (hs : c.link.step P addr (.data c.served) = some L') :
    Channel.Calm P { c with link := L', served := c.served + 1 } := by
  obtain ⟨S, hS⟩ := h.sending
  have hA := h.accounts.deliver hs
  obtain ⟨e, he, rfl⟩ := Option.map_eq_some_iff.mp hs
  obtain ⟨i, -, -, -, -, hrx⟩ := h.disciplined.sender.handled he
  obtain ⟨hns, -, -, hp⟩ := accept_marks (c.link.rx_ P.s) e.seq (i % 2 ^ 16)
    (total (c.link.msg e.seq).length % 2 ^ 16) (piece (c.link.msg e.seq) i)
  rw [← hrx] at hns hp
  constructor
  · exact hD
  · exact h.filled
  · dsimp only
    rw [hns]
    exact h.noted.erase _
  · dsimp only
    rw [hns]
    exact fun key hkey => h.named key (hkey.imp_left fun hk => (AList.mem_erase.mp hk).2)
  · exact ⟨S, hS.congr rfl rfl rfl rfl⟩
  · exact h.joined.congr rfl rfl rfl
  · exact hA
  · exact h.untold
  · exact h.tx
  · exact hp.trans h.rx

theorem Channel.Calm.recv (h : c.Calm P) (hD : Disciplined P L') {len : ℕ}
    (hs : c.link.step P addr (.recv len) = some L') : Channel.Calm P { c with link := L' } := by
  obtain ⟨S, hS⟩ := h.sending
  obtain ⟨r, hr, rfl⟩ := Option.map_eq_some_iff.mp hs
  obtain ⟨-, q, -, rfl⟩ := recv_inv hr
  constructor
  · exact hD
  · exact h.filled
  · dsimp only
    rw [Function.update_self]
    exact h.noted
  · dsimp only
    rw [Function.update_self]
    exact h.named
  · exact ⟨S, hS.congr rfl rfl rfl rfl⟩
  · exact h.joined.congr rfl rfl rfl
  · exact h.accounts.grow List.prefix_rfl rfl rfl rfl rfl rfl rfl rfl
  · exact h.untold
  · exact h.tx
  · dsimp only
    rw [Function.update_self]
    exact h.rx

theorem Channel.Calm.send (h : c.Calm P) (hD : Disciplined P L') {data : Bytes}
    (hs : c.link.step P addr (.send data) = some L') (hdata : data ≠ [] ∧ 0 < total data.length) :
    Channel.Calm P { c with link := L' } := by
  obtain ⟨S, hS⟩ := h.sending
  have hS' := hS.send h.disciplined.sender hs
  have hj := h.joined.send h.disciplined.sender hs
  obtain ⟨-, -, rfl⟩ := Link.step_send hs
  refine h.sending_step hD (List.prefix_append _ _) ?_ hS' hj
    (h.accounts.grow List.prefix_rfl rfl rfl rfl rfl rfl rfl rfl) rfl rfl rfl rfl ?_
  · intro d hd
    obtain hd | hd := List.mem_append.mp hd
    · exact h.filled d hd
    · obtain rfl := List.mem_singleton.mp hd
      exact hdata
  · dsimp only
    rw [Function.update_self]
    rfl

theorem Channel.Calm.retain (h : c.Calm P) (hD : Disciplined P L')
    (hs : c.link.step P addr .retain = some L') :
    Channel.Calm P { c with link := L', queued := c.queued ++ c.link.joining } := by
  obtain ⟨S, hS⟩ := h.sending
  have hS' := hS.retain hs
  have hj := h.joined.retain hs
  obtain ⟨d, -, -, rfl⟩ := Link.step_retain hs
  refine h.sending_step hD List.prefix_rfl h.filled hS' hj
    (h.accounts.grow List.prefix_rfl rfl rfl rfl rfl rfl rfl rfl) rfl rfl rfl rfl ?_
  dsimp only
  rw [Function.update_self, (send_retain_same _ _ _ _).2]

theorem Channel.Calm.sendto (h : c.Calm P) (hD : Disciplined P L') {ok : Bool}
    (hs : c.link.step P addr (.sendto ok) = some L') : Channel.Calm P { c with link := L' } := by
  obtain ⟨S, hS⟩ := h.sending
  have hS' := hS.sendto hs
  have hj := h.joined.sendto hs
  obtain ⟨d, -, rfl⟩ := Link.step_sendto hs
  have hwire : c.link.wire <+:
      if ok then c.link.wire ++ [⟨d.seq, d.i, d.buf P.S P.t⟩] else c.link.wire := by
    split
    · exact List.prefix_append _ _
    · exact List.prefix_rfl
  exact h.sending_step hD List.prefix_rfl h.filled hS' hj
    (h.accounts.grow hwire rfl rfl rfl rfl rfl rfl rfl) rfl rfl rfl rfl rfl

theorem Channel.Calm.finish (h : c.Calm P) (hD : Disciplined P L')
    (hs : c.link.step P addr .finish = some L') : Channel.Calm P { c with link := L' } := by
  obtain ⟨S, hS⟩ := h.sending
  have hS' := hS.finish hs
  have hj := h.joined.finish h.disciplined.sender (fun data hdata => (h.filled data hdata).2) hs
  obtain ⟨d, -, -, rfl⟩ := Link.step_finish hs
  refine h.sending_step hD List.prefix_rfl h.filled hS' hj
    (h.accounts.grow List.prefix_rfl rfl rfl rfl rfl rfl rfl rfl) rfl rfl rfl rfl ?_
  dsimp only
  rw [Function.update_self]
  rfl

theorem Channel.Calm.drop (h : c.Calm P) (hcan : ¬ (c.lost ∨ c.link.wire.length ≤ c.served)) :
    Channel.Calm P { c with served := c.served + 1, lost := true } := by
  obtain ⟨S, hS⟩ := h.sending
  rw [not_or, Bool.not_eq_true, not_le] at hcan
  exact ⟨h.disciplined, h.filled, h.noted, h.named, ⟨S, hS.congr rfl rfl rfl rfl⟩,
    h.joined.congr rfl rfl rfl, h.accounts.drop hcan.1 hcan.2, h.untold, h.tx, h.rx⟩

theorem Channel.Calm.step (h : c.Calm P) (hS : P.S.retx_k_send_ = 5) (hT : P.T.retx_k_recv_ = 5)
    {ev : ChannelEvent} (hs : c.step P ev = some c') (hlen : c'.link.log.length < 2 ^ 32)
    (hnonempty : c.nonempty ev) (hprompt : c.prompt P ev) (hremembers : c.remembers ev) :
    c'.Calm P := by
  have hD : Disciplined P c'.link := by
    obtain he | ⟨e, he⟩ := Channel.step_link hs
    · rw [he]
      exact h.disciplined
    · exact h.disciplined.step (by omega) he hlen
        (h.disciplined.sender.noEmptyAhead (fun data hdata => (h.filled data hdata).1) e)
  cases ev with
  | send data =>
    obtain ⟨L, hL, rfl⟩ := Option.map_eq_some_iff.mp hs
    exact h.send hD hL hnonempty
  | retain =>
    obtain ⟨L, hL, rfl⟩ := Option.map_eq_some_iff.mp hs
    exact h.retain hD hL
  | sendto ok =>
    obtain ⟨L, hL, rfl⟩ := Option.map_eq_some_iff.mp hs
    exact h.sendto hD hL
  | finish =>
    obtain ⟨L, hL, rfl⟩ := Option.map_eq_some_iff.mp hs
    exact h.finish hD hL
  | recv len =>
    obtain ⟨L, hL, rfl⟩ := Option.map_eq_some_iff.mp hs
    exact h.recv hD hL
  | drain now₁ now₂ =>
    obtain ⟨L, hL, rfl⟩ := Option.map_eq_some_iff.mp hs
    exact h.drain hD hT hL hprompt
  | deliver =>
    obtain ⟨L, hL, rfl⟩ := Option.map_eq_some_iff.mp hs
    exact h.deliver hD hL
  | drop =>
    simp only [Channel.step] at hs
    split at hs
    · cases hs
    · next hcan =>
      obtain rfl := Option.some.inj hs
      exact h.drop hcan
  | nack =>
    obtain ⟨L, hL, rfl⟩ := Option.map_eq_some_iff.mp hs
    exact h.nack hD hL hremembers
  | poison =>
    -- no POISON frame was sent
    obtain ⟨L, hL, rfl⟩ := Option.map_eq_some_iff.mp hs
    obtain ⟨b, hb, -⟩ := Option.map_eq_some_iff.mp hL
    rw [h.untold] at hb
    cases hb

end Runs

/-- A lost datagram does not break the pipe while NACKs find what they ask for and neither the network
nor the sender is slow. -/
theorem lost_datagram (P : Pipe) (hS : P.S.retx_k_send_ = 5) (hT : P.T.retx_k_recv_ = 5)
    (c : Channel)
    (h : Runs (Channel.step P)
      (fun c ev => c.nonempty ev ∧ c.prompt P ev ∧ c.remembers ev) {} c)
    (hlen : c.link.log.length < 2 ^ 32) :
    (c.link.tx_ P.t).poisoned = none ∧ (c.link.rx_ P.s).poisoned = none := by
  have hcalm : c.link.log.length < 2 ^ 32 → c.Calm P := by
    apply h.invariant (I := fun c => c.link.log.length < 2 ^ 32 → c.Calm P)
    · intro _
      exact Channel.Calm.init
    · rintro c₁ ev c₂ ih ⟨hnonempty, hprompt, hremembers⟩ hs hlen₂
      exact (ih ((Channel.log_le hs).length_le.trans_lt hlen₂)).step hS hT hs hlen₂
        hnonempty hprompt hremembers
  exact ⟨(hcalm hlen).tx, (hcalm hlen).rx⟩

/-- Few NACKs so far, and few messages. -/
def Channel.brief (c : Channel) (ev : ChannelEvent) : Prop :=
  c.nonempty ev ∧ c.link.nacks.length < 5 ∧ c.queued.length ≤ TX_BUF_CAP_STREAMS

instance (c : Channel) (ev : ChannelEvent) : Decidable (c.brief ev) :=
  inferInstanceAs (Decidable (_ ∧ _ ∧ _))

theorem Channel.brief.timely {P : Pipe} {c : Channel} {ev : ChannelEvent} (h : c.brief ev) :
    c.nonempty ev ∧ c.prompt P ev ∧ c.remembers ev := by
  obtain ⟨hnonempty, hfew, hqueued⟩ := h
  refine ⟨hnonempty, ?_, ?_⟩
  · cases ev with
    | drain now₁ now₂ =>
      intro key hcount
      have := List.count_le_length (a := key) (l := c.link.nacks)
      omega
    | send _ | retain | sendto _ | finish | recv _ | deliver | drop | nack | poison => trivial
  · cases ev with
    | nack =>
      intro key _ _ hleft
      rw [List.rdrop, Nat.sub_eq_zero_of_le hqueued] at hleft
      exact absurd hleft List.not_mem_nil
    | send _ | retain | sendto _ | finish | recv _ | drain _ _ | deliver | drop | poison => trivial

/-- Two messages, the first datagram is dropped, asked for and sent again. -/
def recovered : List ChannelEvent :=
  [.send [7], .retain, .sendto true, .finish, .send [8], .retain, .sendto true, .finish,
    .drop, .deliver, .drain 1 1, .drain 200000000 200000000, .nack, .deliver, .recv 2]

theorem lost_datagram_recovered : ∃ c : Channel, c.lost = true ∧ c.link.out = [7, 8] ∧
    (c.link.tx_ 1).poisoned = none ∧ (c.link.rx_ 0).poisoned = none := by
  have hrun : exec (Channel.step pipe01) Channel.brief recovered {} =
      some ((exec (Channel.step pipe01) Channel.brief recovered {}).getD {}) := rfl
  exact ⟨_, by decide, by decide, lost_datagram pipe01 rfl rfl _
    ((Runs.of_exec hrun).mono fun _ _ h => h.timely) (by decide)⟩

/-- As above, with the answers to the NACKs still in flight when the receiver has asked for them for
the fifth time and waited for another cycle. -/
def lateAnswers : List ChannelEvent :=
  [.send [7], .retain, .sendto true, .finish, .send [8], .retain, .sendto true, .finish,
    .drop, .deliver, .drain 1 1] ++
    (List.range 5).flatMap (fun k => let now := 100000000 * (k + 1) + 1; [.drain now now, .nack]) ++
    [.drain 600000001 600000001]

theorem lost_datagram_late : ∃ c, Runs (Channel.step pipe01) Channel.nonempty {} c ∧
    (c.link.rx_ 0).poisoned = some (.no_progress 5 0 0 0) := by
  have hrun : exec (Channel.step pipe01) Channel.nonempty lateAnswers {} =
      some ((exec (Channel.step pipe01) Channel.nonempty lateAnswers {}).getD {}) := rfl
  exact ⟨_, Runs.of_exec hrun, by decide⟩

/-! ### More messages than the FIFO holds -/

section Call
variable {P : Pipe} {c : Channel} {d : SendCall} {data : Bytes}

theorem Channel.step_send_eq (hcall : c.link.call = none)
    (hpoison : (c.link.tx_ P.t).poisoned = none) : c.step P (.send data) = some { c with
      link := { c.link with
        tx_ := Function.update c.link.tx_ P.t (send_start (c.link.tx_ P.t) data).1
        call := some ((send_start (c.link.tx_ P.t) data).2, false)
        log := c.link.log ++ [data] } } := by
  simp [Channel.step, Link.step, hcall, hpoison]

theorem Channel.step_retain_eq (hcall : c.link.call = some (d, false)) (hmore : d.more = true) :
    c.step P .retain = some { c with
      link := { c.link with
        tx_ := Function.update c.link.tx_ P.t (send_retain P.S P.t (c.link.tx_ P.t) d)
        call := some (d, true) }
      queued := c.queued ++ c.link.joining } := by
  simp [Channel.step, Link.step, hcall, hmore]

theorem Channel.step_sendto_eq (hcall : c.link.call = some (d, true)) :
    c.step P (.sendto true) = some { c with
      link := { c.link with
        wire := c.link.wire ++ [⟨d.seq, d.i, d.buf P.S P.t⟩]
        call := some (send_datagram d true, false) } } := by
  simp [Channel.step, Link.step, hcall]

theorem Channel.step_finish_eq (hcall : c.link.call = some (d, false)) (hmore : d.more = false) :
    c.step P .finish = some { c with
      link := { c.link with
        tx_ := Function.update c.link.tx_ P.t (send_end (c.link.tx_ P.t) d)
        call := none } } := by
  simp [Channel.step, Link.step, hcall, hmore]

theorem Channel.step_drop_eq (hlost : c.lost = false) (hleft : c.served < c.link.wire.length) :
    c.step P .drop = some { c with served := c.served + 1, lost := true } := by
  have hcan : ¬(c.lost = true ∨ c.link.wire.length ≤ c.served) := by
    rw [hlost, not_or]
    exact ⟨by decide, Nat.not_le_of_lt hleft⟩
  exact if_neg hcan

theorem Channel.step_deliver_eq {e : Emission} (he : c.link.wire[c.served]? = some e) :
    ∃ c', c.step P .deliver = some c' ∧
      c'.link.rx_ = handle_data_ P.T c.link.rx_ e.frame ∧ c'.link.tx_ = c.link.tx_ ∧
      c'.link.nackWire = c.link.nackWire ∧ c'.link.call = c.link.call ∧
      c'.link.wire = c.link.wire ∧ c'.served = c.served + 1 ∧ c'.lost = c.lost := by
  simp only [Channel.step, Link.step, he, Option.map_some]
  exact ⟨_, rfl, rfl, rfl, rfl, rfl, rfl, rfl, rfl⟩

theorem Channel.step_drain_eq {now₁ now₂ : ℕ} {r : RxState × List (ℕ × ℕ)}
    (hr : drain_nack_state_ P.T P.s now₁ now₂ (c.link.rx_ P.s) = some r) :
    ∃ c', c.step P (.drain now₁ now₂) = some c' ∧
      c'.link.rx_ = Function.update c.link.rx_ P.s r.1 ∧ c'.link.tx_ = c.link.tx_ ∧
      c'.link.nackWire =
        (c.link.nackWire ++ r.2.map fun key => send_nack_ P.T P.s P.t key.1 key.2) ∧
      c'.link.call = c.link.call ∧ c'.link.wire = c.link.wire ∧ c'.served = c.served ∧
      c'.lost = c.lost := by
  simp only [Channel.step, Link.step, hr, Option.map_some]
  exact ⟨_, rfl, rfl, rfl, rfl, rfl, rfl, rfl, rfl⟩

theorem Channel.step_nack_eq {key : ℕ × ℕ} {l : List Bytes}
    (hwire : c.link.nackWire = send_nack_ P.T P.s P.t key.1 key.2 :: l) :
    ∃ c', c.step P .nack = some c' ∧ c'.served = c.served ∧ c'.lost = c.lost ∧
      c'.link = Link.reply P { c.link with
        tx_ := Function.update c.link.tx_ P.t
          ((c.link.tx_ P.t).handle_nack P.S P.t key.1 key.2).1
        nackWire := l } ((c.link.tx_ P.t).handle_nack P.S P.t key.1 key.2).2 := by
  simp only [Channel.step, Link.step, hwire, List.getElem?_cons_zero, Option.map_some,
    P.handle_nack_frame, ne_eq, not_true_eq_false, if_false, List.eraseIdx_cons_zero]
  exact ⟨_, rfl, rfl, rfl, rfl⟩

theorem Channel.step_nack_gone {key : ℕ × ℕ} {l : List Bytes}
    (hwire : c.link.nackWire = send_nack_ P.T P.s P.t key.1 key.2 :: l)
    (hpoison : (c.link.tx_ P.t).poisoned = none) (hnone : (c.link.tx_ P.t).tx_buf key = none)
    (hlt : key.1 < (c.link.tx_ P.t).local_seq)
    (hflight : key.1 ∉ (c.link.tx_ P.t).streams_in_flight) :
    ∃ c', c.step P .nack = some c' ∧
      (c'.link.tx_ P.t).poisoned = some (.evicted P.t key.1 key.2) := by
  have hyet : ¬(key.1 ≥ (c.link.tx_ P.t).local_seq ∨
      key.1 ∈ (c.link.tx_ P.t).streams_in_flight) := by
    rw [not_or]
    exact ⟨Nat.not_le_of_lt hlt, hflight⟩
  have hreply : (c.link.tx_ P.t).handle_nack P.S P.t key.1 key.2 =
      ({ c.link.tx_ P.t with poisoned := some (.evicted P.t key.1 key.2) },
        .poison P.t (.evicted P.t key.1 key.2)) := by
    unfold TxState.handle_nack
    rw [hpoison, if_neg (by simp), hnone]
    exact if_neg hyet
  obtain ⟨c', hs, -, -, hlink⟩ := Channel.step_nack_eq hwire
  refine ⟨c', hs, ?_⟩
  rw [hlink, hreply]
  simp only [Link.reply, Function.update_self]

theorem Channel.call_once (hcall : c.link.call = none)
    (hpoison : (c.link.tx_ P.t).poisoned = none) (hne : data ≠ [])
    (hone : total data.length = 1) :
    ∃ c' : Channel, Runs (Channel.step P) Channel.nonempty c c' ∧
      c'.link.tx_ P.t = (send_call P.S P.t (c.link.tx_ P.t) ⟨data, fun _ => 0⟩).1 ∧
      (c'.link.tx_ P.t).streams_in_flight =
        (c.link.tx_ P.t).streams_in_flight.erase (c.link.tx_ P.t).local_seq ∧
      (c'.link.tx_ P.t).poisoned = none ∧ c'.link.call = none ∧ c'.link.rx_ = c.link.rx_ ∧
      c'.link.wire = c.link.wire ++ [⟨(c.link.tx_ P.t).local_seq, 0,
        P.frame (c.link.tx_ P.t).local_seq data 0⟩] ∧
      c'.link.nackWire = c.link.nackWire ∧ c'.served = c.served ∧ c'.lost = c.lost := by
  have hstart : send_start (c.link.tx_ P.t) data = ((send_start (c.link.tx_ P.t) data).1,
      SendCall.at (c.link.tx_ P.t).local_seq data 0) := by
    rw [SendCall.at_zero]
    rfl
  have hfirst : (SendCall.at (c.link.tx_ P.t).local_seq data 0).more = true :=
    decide_eq_true (show 0 < total data.length by omega)
  have hlast : (SendCall.at (c.link.tx_ P.t).local_seq data 1).more = false :=
    decide_eq_false (show ¬ 1 < total data.length by omega)
  have hnext : send_datagram (SendCall.at (c.link.tx_ P.t).local_seq data 0) true =
      SendCall.at (c.link.tx_ P.t).local_seq data 1 := SendCall.send_datagram_at _ _ _
  have h₁ := @Channel.step_send_eq P c data hcall hpoison
  rw [hstart] at h₁
  have r₁ : Runs (Channel.step P) Channel.nonempty c _ := .next (.send data) .start ⟨hne, by omega⟩ h₁
  have r₂ := Runs.next ChannelEvent.retain r₁ trivial (Channel.step_retain_eq rfl hfirst)
  have r₃ := Runs.next (ChannelEvent.sendto true) r₂ trivial (Channel.step_sendto_eq rfl)
  rw [hnext] at r₃
  have r₄ := Runs.next ChannelEvent.finish r₃ trivial (Channel.step_finish_eq rfl hlast)
  refine ⟨_, r₄, ?_, ?_, ?_, rfl, rfl, rfl, rfl, rfl, rfl⟩
  · simp only [Function.update_self]
    unfold send_call
    dsimp only
    rw [hone, hstart]
    unfold send_rounds
    dsimp only
    rw [if_pos hfirst, send_fragment_eq, hnext]
    rfl
  · simp only [Function.update_self, send_end]
    rw [send_retain_flight]
    exact Finset.erase_insert_eq_erase _ _
  · simp only [Function.update_self, send_end]
    rw [(send_retain_same _ _ _ _).2]
    exact hpoison

end Call

section Flood
variable {n : ℕ} {c : Channel}

def seven : SendTry := ⟨[7], fun _ => 0⟩

/-- The sender has sent `n` such messages, and nothing else has happened. -/
structure Channel.Sent (n : ℕ) (c : Channel) : Prop where
  tx : c.link.tx_ 1 = (sends pipe01.S 1 (List.replicate n seven)).1
  flight : (c.link.tx_ 1).streams_in_flight = ∅
  poisoned : (c.link.tx_ 1).poisoned = none
  call : c.link.call = none
  rx : c.link.rx_ = fun _ => {}
  wire : c.link.wire = (List.range n).map fun k => ⟨k % 2 ^ 32, 0, pipe01.frame (k % 2 ^ 32) [7] 0⟩
  nackWire : c.link.nackWire = []
  served : c.served = 0
  lost : c.lost = false

theorem sends_seven (n : ℕ) :
    (sends pipe01.S 1 (List.replicate n seven)).1.local_seq = n % 2 ^ 32 ∧
      ∀ key, (sends pipe01.S 1 (List.replicate n seven)).1.tx_buf key ≠ none →
        key.1 ∈ (recent n).map (· % 2 ^ 32) := by
  have hsmall : ∀ t ∈ List.replicate n seven, fragCount t.data.length ≤ 2 ^ 16 := by
    intro t ht
    rw [List.eq_of_mem_replicate ht]
    decide
  have hret : Retained pipe01.S 1 (List.replicate n seven) _ :=
    retained_of_first hsmall fun t ht => by rw [List.eq_of_mem_replicate ht]; rfl
  have hcount := (@sends_counts pipe01.S 1 _ hsmall).1
  rw [List.length_replicate] at hcount
  refine ⟨hcount, fun key hkey => ?_⟩
  have hmem := hret.only key hkey
  rw [hret.order, List.length_replicate] at hmem
  exact hmem

theorem Channel.Sent.round (h : c.Sent n) : ∃ c' : Channel,
    Runs (Channel.step pipe01) Channel.nonempty c c' ∧ c'.Sent (n + 1) := by
  have hseq : (c.link.tx_ 1).local_seq = n % 2 ^ 32 := by
    rw [h.tx]
    exact (sends_seven n).1
  obtain ⟨c', hrun, htx, hflight, hpoison, hcall, hrx, hwire, hnack, hserved, hlost⟩ :=
    @Channel.call_once pipe01 c [7] h.call h.poisoned (by decide) rfl
  refine ⟨c', hrun, ?_, ?_, hpoison, hcall, hrx.trans h.rx, ?_, hnack.trans h.nackWire,
    hserved.trans h.served, hlost.trans h.lost⟩
  · rw [List.replicate_succ', sends_concat, ← h.tx]
    exact htx
  · refine hflight.trans ?_
    show (c.link.tx_ 1).streams_in_flight.erase _ = ∅
    rw [h.flight, Finset.erase_empty]
  · rw [hwire, h.wire, List.range_succ, List.map_append]
    show _ ++ [Emission.mk (c.link.tx_ 1).local_seq 0
      (pipe01.frame (c.link.tx_ 1).local_seq [7] 0)] = _
    rw [hseq]
    rfl

theorem Channel.sent (n : ℕ) :
    ∃ c, Runs (Channel.step pipe01) Channel.nonempty {} c ∧ c.Sent n := by
  induction n with
  | zero => exact ⟨{}, .start, rfl, rfl, rfl, rfl, rfl, rfl, rfl, rfl, rfl⟩
  | succ n ih =>
    obtain ⟨c, hrun, hc⟩ := ih
    obtain ⟨c', hrun', hc'⟩ := hc.round
    exact ⟨c', hrun.trans hrun', hc'⟩

/-- The first datagram is dropped and the second delivered: the NACK comes too late. -/
theorem Channel.Sent.flood (h : c.Sent n) (hmany : TX_BUF_CAP_STREAMS < n) (hn : n < 2 ^ 32) :
    ∃ c', Runs (Channel.step pipe01) Channel.nonempty c c' ∧
      (c'.link.tx_ 1).poisoned = some (.evicted 1 0 0) := by
  have hcap : TX_BUF_CAP_STREAMS = 4096 := rfl
  have hgone : (c.link.tx_ 1).tx_buf (0, 0) = none := by
    by_contra hne
    rw [h.tx] at hne
    obtain ⟨k, hk, hk0⟩ := List.mem_map.mp ((sends_seven n).2 _ hne)
    rw [mem_recent] at hk
    dsimp only at hk0
    omega
  have hlen : c.link.wire.length = n := by
    rw [h.wire, List.length_map, List.length_range]
  have hwire : c.link.wire[1]? = some ⟨1, 0, pipe01.frame 1 [7] 0⟩ := by
    rw [h.wire, List.getElem?_map, List.getElem?_range (by omega)]
    rfl
  obtain ⟨r₁, hr₁, hnone, r₂, hr₂, hdue⟩ : ∃ r₁, drain_nack_state_ pipe01.T 0 1 1
        (handle_data_ pipe01.T (fun _ => {}) (pipe01.frame 1 [7] 0) 0) = some r₁ ∧ r₁.2 = [] ∧
      ∃ r₂, drain_nack_state_ pipe01.T 0 200000000 200000000 r₁.1 = some r₂ ∧ r₂.2 = [(0, 0)] :=
    ⟨_, rfl, rfl, _, rfl, rfl⟩
  have s₁ := @Channel.step_drop_eq pipe01 c h.lost (by rw [h.served]; omega)
  rw [h.served] at s₁
  have run₁ : Runs (Channel.step pipe01) Channel.nonempty c _ := .next .drop .start trivial s₁
  obtain ⟨c₂, s₂, hrx₂, htx₂, hnw₂, -⟩ :=
    @Channel.step_deliver_eq pipe01 { c with served := 0 + 1, lost := true } _ hwire
  rw [show c.link.rx_ = fun _ => {} from h.rx] at hrx₂
  obtain ⟨c₃, s₃, hrx₃, htx₃, hnw₃, -⟩ :=
    @Channel.step_drain_eq pipe01 c₂ 1 1 r₁ (by rw [hrx₂]; exact hr₁)
  obtain ⟨c₄, s₄, hrx₄, htx₄, hnw₄, -⟩ :=
    @Channel.step_drain_eq pipe01 c₃ 200000000 200000000 r₂ (by rw [hrx₃]; exact hr₂)
  have htx : c₄.link.tx_ = c.link.tx_ := htx₄.trans (htx₃.trans htx₂)
  rw [hnw₃, hnw₂, h.nackWire, hnone, hdue] at hnw₄
  obtain ⟨c₅, s₅, hpoisoned⟩ := @Channel.step_nack_gone pipe01 c₄ (0, 0) [] hnw₄
    (by rw [htx]; exact h.poisoned) (by rw [htx]; exact hgone)
    (by rw [htx]; show 0 < (c.link.tx_ 1).local_seq; rw [h.tx, (sends_seven n).1]; omega)
    (by rw [htx]; show 0 ∉ (c.link.tx_ 1).streams_in_flight; rw [h.flight]; simp)
  exact ⟨c₅, .next .nack (.next (.drain _ _) (.next (.drain _ _) (.next .deliver run₁ trivial s₂)
    trivial s₃) trivial s₄) trivial s₅, hpoisoned⟩

end Flood

theorem lost_datagram_evicted : ∃ c, Runs (Channel.step pipe01) Channel.nonempty {} c ∧
    (c.link.tx_ 1).poisoned = some (.evicted 1 0 0) := by
  obtain ⟨c, hrun, h⟩ := Channel.sent 4097
  obtain ⟨c', hrun', hpoisoned⟩ := h.flood (by decide) (by decide)
  exact ⟨c', hrun.trans hrun', hpoisoned⟩

/-! ### A sender that is slow -/

/-- Half of a message of two fragments is there, and the other half was asked for `n` times. -/
def halfHeld (x : ℕ) (xs : Bytes) (n : ℕ) : RxState where
  any_seen := true
  pending := AList.singleton 0 { frag_total := 2, received := 1, frags := [x :: xs, []] }
  nack_state := AList.singleton (0, 1) ⟨n, 100000000 * n + 1⟩

section Half
variable {x : ℕ} {xs data : Bytes} {n : ℕ} {c : Channel}

theorem halfHeld_accept (x : ℕ) (xs : Bytes) : ({} : RxState).accept 0 0 2 (x :: xs) =
    { halfHeld x xs 0 with nack_state := ∅ } := rfl

theorem halfHeld_first (x : ℕ) (xs : Bytes) :
    drain_nack_state_ pipe01.T 0 1 1 { halfHeld x xs 0 with nack_state := ∅ } =
      some (halfHeld x xs 0, []) := by
  have h : compute_missing_locked_ 1 { halfHeld x xs 0 with nack_state := ∅ } =
      some (halfHeld x xs 0) := by
    unfold compute_missing_locked_
    rfl
  unfold drain_nack_state_
  rw [if_neg (by exact Bool.false_ne_true), h]
  rfl

theorem halfHeld_again (x : ℕ) (xs : Bytes) (hn : n < 5) :
    drain_nack_state_ pipe01.T 0 (100000000 * (n + 1) + 1) (100000000 * (n + 1) + 1)
      (halfHeld x xs n) = some (halfHeld x xs (n + 1), [(0, 1)]) := by
  interval_cases n
  all_goals rfl

theorem halfHeld_last (x : ℕ) (xs : Bytes) :
    ∃ r, drain_nack_state_ pipe01.T 0 600000001 600000001 (halfHeld x xs 5) = some r ∧
      r.1.poisoned = some (.no_progress 5 0 0 1) := ⟨_, rfl, rfl⟩

/-- The sender is between the two fragments, and the second was asked for `n` times. -/
structure Channel.Between (data : Bytes) (x : ℕ) (xs : Bytes) (n : ℕ) (c : Channel) : Prop where
  call : c.link.call = some (SendCall.at 0 data 1, false)
  none : (c.link.tx_ 1).tx_buf (0, 1) = none
  flight : 0 ∈ (c.link.tx_ 1).streams_in_flight
  poisoned : (c.link.tx_ 1).poisoned = Option.none
  rx : c.link.rx_ 0 = halfHeld x xs n
  nackWire : c.link.nackWire = []
  served : c.served = c.link.wire.length
  lost : c.lost = false

theorem Channel.between (htwo : total data.length = 2) (hne : data ≠ [])
    (hpiece : piece data 0 = x :: xs) :
    ∃ c, Runs (Channel.step pipe01) Channel.nonempty {} c ∧ c.Between data x xs 0 := by
  have hstart : send_start (({} : Link).tx_ 1) data =
      ((send_start (({} : Link).tx_ 1) data).1, SendCall.at 0 data 0) := by
    rw [SendCall.at_zero]
    rfl
  have hmore : (SendCall.at 0 data 0).more = true := decide_eq_true (show 0 < total data.length by omega)
  have hnext : send_datagram (SendCall.at 0 data 0) true = SendCall.at 0 data 1 :=
    SendCall.send_datagram_at _ _ _
  have h₁ := @Channel.step_send_eq pipe01 {} data rfl rfl
  rw [show pipe01.t = 1 from rfl, hstart] at h₁
  have r₁ : Runs (Channel.step pipe01) Channel.nonempty {} _ :=
    .next (.send data) .start ⟨hne, by omega⟩ h₁
  have r₂ := Runs.next ChannelEvent.retain r₁ trivial (Channel.step_retain_eq rfl hmore)
  have r₃ := Runs.next (ChannelEvent.sendto true) r₂ trivial (Channel.step_sendto_eq rfl)
  rw [hnext] at r₃
  obtain ⟨c, hrun, hcall, hnone, hflight, hpoison, hrx, hnw, hwire, hserved, hlost⟩ :
      ∃ c : Channel, Runs (Channel.step pipe01) Channel.nonempty {} c ∧
        c.link.call = some (SendCall.at 0 data 1, false) ∧
        (c.link.tx_ 1).tx_buf (0, 1) = none ∧ 0 ∈ (c.link.tx_ 1).streams_in_flight ∧
        (c.link.tx_ 1).poisoned = none ∧ c.link.rx_ = (fun _ => {}) ∧ c.link.nackWire = [] ∧
        c.link.wire = [⟨0, 0, pipe01.frame 0 data 0⟩] ∧ c.served = 0 ∧ c.lost = false := by
    refine ⟨_, r₃, rfl, rfl, ?_, rfl, rfl, rfl, rfl, rfl, rfl⟩
    show 0 ∈ (send_retain pipe01.S 1 _ (SendCall.at 0 data 0)).streams_in_flight
    rw [send_retain_flight]
    exact Finset.mem_insert_self _ _
  obtain ⟨c₄, s₄, hrx₄, htx₄, hnw₄, hcall₄, hwire₄, hserved₄, hlost₄⟩ :=
    @Channel.step_deliver_eq pipe01 c ⟨0, 0, pipe01.frame 0 data 0⟩ (by rw [hwire, hserved]; rfl)
  rw [hrx, pipe01.handle_data_frame, htwo, hpiece] at hrx₄
  have hheld : c₄.link.rx_ 0 = { halfHeld x xs 0 with nack_state := ∅ } := by
    rw [hrx₄]
    exact (Function.update_self ..).trans (halfHeld_accept x xs)
  obtain ⟨c₅, s₅, hrx₅, htx₅, hnw₅, hcall₅, hwire₅, hserved₅, hlost₅⟩ :=
    @Channel.step_drain_eq pipe01 c₄ 1 1 _ (by rw [show pipe01.s = 0 from rfl, hheld]; exact halfHeld_first x xs)
  refine ⟨c₅, .next (.drain 1 1) (.next .deliver hrun trivial s₄) trivial s₅, ?_⟩
  have htx : c₅.link.tx_ = c.link.tx_ := htx₅.trans htx₄
  constructor
  · exact hcall₅.trans (hcall₄.trans hcall)
  · rw [htx]
    exact hnone
  · rw [htx]
    exact hflight
  · rw [htx]
    exact hpoison
  · rw [hrx₅]
    exact Function.update_self ..
  · rw [hnw₅, hnw₄, hnw]
    rfl
  · rw [hserved₅, hserved₄, hserved, hwire₅, hwire₄, hwire]
    rfl
  · exact hlost₅.trans (hlost₄.trans hlost)

/-- The second fragment is asked for again, and the sender has not come to it. -/
theorem Channel.Between.round (h : c.Between data x xs n) (hn : n < 5) : ∃ c' : Channel,
    Runs (Channel.step pipe01) Channel.nonempty c c' ∧ c'.Between data x xs (n + 1) := by
  obtain ⟨c₁, s₁, hrx₁, htx₁, hnw₁, hcall₁, hwire₁, hserved₁, hlost₁⟩ :=
    @Channel.step_drain_eq pipe01 c (100000000 * (n + 1) + 1) (100000000 * (n + 1) + 1) _
      (by rw [show pipe01.s = 0 from rfl, h.rx]; exact halfHeld_again x xs hn)
  rw [h.nackWire] at hnw₁
  have hreply : (c₁.link.tx_ 1).handle_nack pipe01.S 1 0 1 = (c₁.link.tx_ 1, .silent) := by
    unfold TxState.handle_nack
    rw [htx₁, h.poisoned, if_neg (by simp), h.none]
    exact if_pos (.inr h.flight)
  obtain ⟨c₂, s₂, hserved₂, hlost₂, hlink₂⟩ := @Channel.step_nack_eq pipe01 c₁ (0, 1) [] hnw₁
  rw [show pipe01.t = 1 from rfl, hreply] at hlink₂
  have htx : c₂.link.tx_ 1 = c.link.tx_ 1 := by
    rw [hlink₂, ← htx₁]
    exact Function.update_self 1 (c₁.link.tx_ 1) c₁.link.tx_
  refine ⟨c₂, .next .nack (.next (.drain _ _) .start trivial s₁) trivial s₂, ?_⟩
  constructor
  · rw [hlink₂]
    exact hcall₁.trans h.call
  · rw [htx]
    exact h.none
  · rw [htx]
    exact h.flight
  · rw [htx]
    exact h.poisoned
  · rw [hlink₂]
    show c₁.link.rx_ 0 = _
    rw [hrx₁]
    exact Function.update_self ..
  · rw [hlink₂]
    rfl
  · rw [hserved₂, hserved₁, h.served, hlink₂]
    exact congrArg List.length hwire₁.symm
  · exact hlost₂.trans (hlost₁.trans h.lost)

/-- The sender comes to the second fragment at last, and the answer to the fifth NACK is lost. -/
theorem Channel.Between.late (h : c.Between data x xs 4) (htwo : total data.length = 2) :
    ∃ c', Runs (Channel.step pipe01) Channel.nonempty c c' ∧
      (c'.link.rx_ 0).poisoned = some (.no_progress 5 0 0 1) := by
  have hmore : (SendCall.at 0 data 1).more = true := decide_eq_true (show 1 < total data.length by omega)
  have s₁ := @Channel.step_retain_eq pipe01 c _ h.call hmore
  obtain ⟨c₁, hs₁, htx₁, hrx₁, hnw₁, hwire₁, hserved₁, hlost₁⟩ : ∃ c₁, c.step pipe01 .retain = some c₁ ∧
      c₁.link.tx_ 1 = send_retain pipe01.S 1 (c.link.tx_ 1) (SendCall.at 0 data 1) ∧
      c₁.link.rx_ 0 = c.link.rx_ 0 ∧ c₁.link.nackWire = c.link.nackWire ∧
      c₁.link.wire = c.link.wire ∧ c₁.served = c.served ∧ c₁.lost = c.lost :=
    ⟨_, s₁, Function.update_self 1 _ c.link.tx_, rfl, rfl, rfl, rfl, rfl⟩
  obtain ⟨c₂, s₂, hrx₂, htx₂, hnw₂, -, hwire₂, hserved₂, hlost₂⟩ :=
    @Channel.step_drain_eq pipe01 c₁ (100000000 * (4 + 1) + 1) (100000000 * (4 + 1) + 1) _
      (by rw [show pipe01.s = 0 from rfl, hrx₁, h.rx]; exact halfHeld_again x xs (by decide))
  rw [hnw₁, h.nackWire] at hnw₂
  obtain ⟨rcd, hreply⟩ : ∃ rcd, ((c₂.link.tx_ 1).handle_nack pipe01.S 1 0 1).2 = .resend 1 0 1 rcd := by
    have hbuf : (c₂.link.tx_ 1).tx_buf (0, 1) = some ((SendCall.at 0 data 1).record pipe01.S 1) := by
      rw [htx₂, htx₁]
      exact Function.update_self (0, 1) _ (c.link.tx_ 1).tx_buf
    unfold TxState.handle_nack
    rw [hbuf, htx₂, htx₁, (send_retain_same _ _ _ _).2, h.poisoned, if_neg (by simp)]
    exact ⟨_, rfl⟩
  obtain ⟨c₃, s₃, hserved₃, hlost₃, hlink₃⟩ := @Channel.step_nack_eq pipe01 c₂ (0, 1) [] hnw₂
  rw [show pipe01.t = 1 from rfl, hreply] at hlink₃
  have hrx₃ : c₃.link.rx_ 0 = halfHeld x xs 5 := by
    rw [hlink₃]
    show c₂.link.rx_ 0 = _
    rw [hrx₂]
    exact Function.update_self ..
  have hwire₃ : c₃.link.wire.length = c.link.wire.length + 1 := by
    rw [hlink₃]
    show (c₂.link.wire ++ [_]).length = _
    rw [hwire₂, hwire₁, List.length_append, List.length_singleton]
  have s₄ := @Channel.step_drop_eq pipe01 c₃ (by rw [hlost₃, hlost₂, hlost₁, h.lost])
    (by rw [hserved₃, hserved₂, hserved₁, h.served, hwire₃]; exact Nat.lt_succ_self _)
  obtain ⟨r, hr, hpoisoned⟩ := halfHeld_last x xs
  obtain ⟨c₅, s₅, hrx₅, -⟩ :=
    @Channel.step_drain_eq pipe01 { c₃ with served := c₃.served + 1, lost := true } 600000001 600000001 r
      (by rw [show pipe01.s = 0 from rfl]; exact (congrArg _ hrx₃).trans hr)
  refine ⟨c₅, .next (.drain _ _) (.next .drop (.next .nack (.next (.drain _ _)
    (.next .retain .start trivial hs₁) trivial s₂) trivial s₃) trivial s₄) trivial s₅, ?_⟩
  rw [hrx₅]
  exact (congrArg RxState.poisoned (Function.update_self ..)).trans hpoisoned

/-- A call of `send` stands still after its first fragment, through four NACKs for the second. -/
theorem lost_datagram_slow : ∃ c, Runs (Channel.step pipe01) Channel.nonempty {} c ∧
    (c.link.rx_ 0).poisoned = some (.no_progress 5 0 0 1) := by
  have htwo : total (List.replicate (MAX_PAYLOAD + 1) 7).length = 2 := by
    rw [List.length_replicate]
    rfl
  have hne : List.replicate (MAX_PAYLOAD + 1) 7 ≠ [] := by
    rw [List.replicate_succ]
    exact List.cons_ne_nil _ _
  obtain ⟨x, xs, hpiece⟩ := List.exists_cons_of_ne_nil
    (piece_ne_nil hne (show 0 < fragCount _ from (by omega : 0 < total _).trans_le (total_le _)))
  generalize List.replicate (MAX_PAYLOAD + 1) 7 = data at htwo hne hpiece
  obtain ⟨c₀, hrun₀, h₀⟩ := Channel.between htwo hne hpiece
  obtain ⟨c₁, hrun₁, h₁⟩ := h₀.round (by decide)
  obtain ⟨c₂, hrun₂, h₂⟩ := h₁.round (by decide)
  obtain ⟨c₃, hrun₃, h₃⟩ := h₂.round (by decide)
  obtain ⟨c₄, hrun₄, h₄⟩ := h₃.round (by decide)
  obtain ⟨c, hrun, hpoisoned⟩ := h₄.late htwo
  exact ⟨c, ((((hrun₀.trans hrun₁).trans hrun₂).trans hrun₃).trans hrun₄).trans hrun, hpoisoned⟩

end Half

/-- Each condition is needed: 4097 messages sent before the first NACK, answers that are late, or a
call of `send` that stands still. -/
theorem lost_datagram_breaks :
    (∃ c, Runs (Channel.step pipe01) Channel.nonempty {} c ∧
      (c.link.tx_ 1).poisoned = some (.evicted 1 0 0)) ∧
    (∃ c, Runs (Channel.step pipe01) Channel.nonempty {} c ∧
      (c.link.rx_ 0).poisoned = some (.no_progress 5 0 0 0)) ∧
    ∃ c, Runs (Channel.step pipe01) Channel.nonempty {} c ∧
      (c.link.rx_ 0).poisoned = some (.no_progress 5 0 0 1) :=
  ⟨lost_datagram_evicted, lost_datagram_late, lost_datagram_slow⟩

end QSync.Io
