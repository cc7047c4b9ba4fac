import QSync.Foundations.Programs
import QSync.Io.ClusterPipes

/-! # The bus implements the channels

Programs whose sends and receives go through the buses, over a medium that loses, repeats and reorders
datagrams, do what they do over FIFO byte channels: every reachable state of the cluster stands for a
reachable configuration of the channels (`bus_refines_channels`).
-/

namespace QSync.Io
open QSync.Network
set_option autoImplicit false
set_option maxHeartbeats 250000

section Programs
variable {Q : Parties} {α : Type} {addr : Fin Q.nP → ℕ} {D D' : Cluster Q α} {c : Net ℕ α}
  {p : Fin Q.nP}

/-- The cluster stands for the configuration `c`: the same programs are left, the same messages have
been sent and the same bytes received. -/
structure Cluster.Implements (D : Cluster Q α) (c : Net ℕ α) : Prop where
  procs : ∀ p : Fin Q.nP, c.procs p = (D.stations p).proc
  sent : ∀ s t : Fin Q.nP, c.sent (s, t) = D.log (s, t)
  rcvd : ∀ s t : Fin Q.nP, (c.rcvd (s, t)).flatten = D.out (s, t)

/-- The other parties of the run. -/
def Peer (Q : Parties) (p : ℕ) (q : ℕ) : Prop := q < Q.nP ∧ q ≠ p

/-- Every program talks to the other parties of the run only. -/
def Cluster.Peers (D : Cluster Q α) : Prop :=
  ∀ p : Fin Q.nP, (D.stations p).proc.Calls (Peer Q p)

theorem Cluster.Implements.congr (h : D.Implements c)
    (hproc : ∀ p, (D'.stations p).proc = (D.stations p).proc) (hlog : D'.log = D.log)
    (hout : D'.out = D.out) : D'.Implements c where
  procs p := (h.procs p).trans (hproc p).symm
  sent s t := (h.sent s t).trans (by rw [hlog])
  rcvd s t := (h.rcvd s t).trans (by rw [hout])

theorem Cluster.put_proc (D : Cluster Q α) (p : Fin Q.nP) {σ : Station Q α}
    (h : σ.proc = (D.stations p).proc) (q : Fin Q.nP) :
    ((D.put p σ).stations q).proc = (D.stations q).proc := by
  dsimp only [Cluster.put]
  by_cases hq : q = p
  · rw [hq, Function.update_self, h]
  · rw [Function.update_of_ne hq]

/-- Only the main thread changes what the cluster stands for. -/
theorem Cluster.step_quiet {ev : StationEvent} (hev : ev ≠ .call)
    (hs : D.step addr (p, ev) = some D') :
    (∀ q, (D'.stations q).proc = (D.stations q).proc) ∧ D'.log = D.log ∧ D'.out = D.out := by
  cases ev with
  | call => exact absurd rfl hev
  | retain =>
    obtain ⟨t, c, -, -, rfl⟩ := Cluster.step_retain hs
    exact ⟨D.put_proc p rfl, rfl, rfl⟩
  | sendto ok =>
    obtain ⟨t, c, -, rfl⟩ := Cluster.step_sendto hs
    exact ⟨D.put_proc p rfl, rfl, rfl⟩
  | finish =>
    obtain ⟨t, c, -, -, rfl⟩ := Cluster.step_finish hs
    exact ⟨D.put_proc p rfl, rfl, rfl⟩
  | frame k =>
    obtain ⟨d, -, rfl⟩ := Option.map_eq_some_iff.mp hs
    refine ⟨D.put_proc p ?_, rfl, rfl⟩
    unfold Station.pump
    split <;> rfl
  | drain src now₁ now₂ =>
    obtain ⟨s, r, -, -, rfl⟩ := Cluster.step_drain hs
    exact ⟨D.put_proc p rfl, rfl, rfl⟩
  | witness src dst =>
    simp only [Cluster.step] at hs
    split at hs
    · obtain rfl := Option.some.inj hs
      exact ⟨D.put_proc p rfl, rfl, rfl⟩
    · cases hs

theorem channel_ne {s t u v : Fin Q.nP} (h : (s, t) ≠ (u, v)) :
    ((s : ℕ), (t : ℕ)) ≠ ((u : ℕ), (v : ℕ)) := by
  intro e
  obtain ⟨h1, h2⟩ := Prod.mk.inj e
  exact h (by rw [Fin.ext h1, Fin.ext h2])

/-- Entering a `send` is the send of the channels. -/
theorem Cluster.Implements.send (h : D.Implements c) {t : Fin Q.nP} {msg : Bytes} {next : Proc ℕ α}
    {σ : Station Q α} (hproc : (D.stations p).proc = .send t msg next) (hσ : σ.proc = next)
    (hD' : D' = { D.put p σ with
      log := Function.update D.log (p, t) (D.log (p, t) ++ [msg]) }) :
    ∃ c', c.stepAt (p : ℕ) = some c' ∧ D'.Implements c' := by
  subst hD'
  refine ⟨_, stepAt_send ((h.procs p).trans hproc), ⟨fun q => ?_, fun s u => ?_, h.rcvd⟩⟩
  · dsimp only [Net.afterSend, Cluster.put]
    by_cases hq : q = p
    · rw [hq, Function.update_self, Function.update_self, hσ]
    · rw [Function.update_of_ne hq, Function.update_of_ne (fun e => hq (Fin.ext e)), h.procs q]
  · dsimp only [Net.afterSend]
    by_cases hsu : (s, u) = (p, t)
    · obtain ⟨rfl, rfl⟩ := Prod.mk.inj hsu
      rw [Function.update_self, Function.update_self, h.sent]
    · rw [Function.update_of_ne hsu, Function.update_of_ne (channel_ne hsu), h.sent]

/-- Going through a `recv` is the receive of the channels. -/
theorem Cluster.Implements.recv (h : D.Implements c) (hc : ChannelsConsistent c) (hD : D.Sound)
    {s : Fin Q.nP} (hsp : s ≠ p) {len : ℕ} {next : Bytes → Proc ℕ α} {σ : Station Q α}
    {r : Bytes × RxState} (hproc : (D.stations p).proc = .recv s len next)
    (hr : Io.recv ((D.stations p).bus.rx_ s) len = some r) (hσ : σ.proc = next r.1)
    (hD' : D' = { D.put p σ with out := Function.update D.out (s, p) (D.out (s, p) ++ r.1) }) :
    ∃ c', c.stepAt (p : ℕ) = some c' ∧ D'.Implements c' := by
  subst hD'
  obtain ⟨hlen, hbytes⟩ := hD.recv hsp hr
  -- what can be read is the beginning of the channel
  have hchan : unread ((D.stations p).bus.rx_ s) <+: c.chan (s, p) := by
    have hstream := hD.stream hsp
    have hall := hc (s, p)
    rw [h.sent, h.rcvd] at hall
    rw [hall] at hstream
    exact (List.prefix_append_right_inj _).mp hstream
  have htake : (c.chan (s, p)).take len = r.1 := by
    obtain ⟨rest, hrest⟩ := hchan
    rw [hbytes, ← hrest, List.take_append_of_le_length hlen]
  refine ⟨_, stepAt_recv ((h.procs p).trans hproc) (hlen.trans hchan.length_le),
    ⟨fun q => ?_, h.sent, fun u t => ?_⟩⟩
  · dsimp only [Net.afterRecv, Cluster.put]
    by_cases hq : q = p
    · rw [hq, Function.update_self, Function.update_self, hσ, htake]
    · rw [Function.update_of_ne hq, Function.update_of_ne (fun e => hq (Fin.ext e)), h.procs q]
  · dsimp only [Net.afterRecv]
    by_cases hut : (u, t) = (s, p)
    · obtain ⟨rfl, rfl⟩ := Prod.mk.inj hut
      rw [Function.update_self, Function.update_self, List.flatten_append, h.rcvd,
        List.flatten_singleton, htake]
    · rw [Function.update_of_ne hut, Function.update_of_ne (channel_ne hut), h.rcvd]

theorem Cluster.Peers.step (h : D.Peers) {ev : StationEvent} (hs : D.step addr (p, ev) = some D') :
    D'.Peers := by
  by_cases hev : ev = .call
  · subst hev
    have hput : ∀ {σ : Station Q α}, σ.proc.Calls (Peer Q p) → ∀ q : Fin Q.nP,
        (((D.put p σ).stations q).proc).Calls (Peer Q q) := by
      intro σ hσ q
      dsimp only [Cluster.put]
      by_cases hq : q = p
      · subst hq
        rwa [Function.update_self]
      · rw [Function.update_of_ne hq]
        exact h q
    have hp := h p
    obtain ⟨-, ⟨msg, next, hproc, rfl⟩ | ⟨t, msg, next, -, hproc, -, rfl⟩ |
      ⟨src, len, next, hproc, -, rfl⟩ | ⟨s, len, next, r, -, hproc, -, rfl⟩⟩ := Cluster.enter_cases hs
    all_goals rw [hproc] at hp
    · exact hput hp.2
    · exact hput hp.2
    · exact hput (hp.2 _)
    · exact hput (hp.2 _)
  · intro q
    rw [(Cluster.step_quiet hev hs).1 q]
    exact h q

/-- One event of the cluster is one step of the channels, or none. -/
theorem Cluster.Implements.step (h : D.Implements c) (hc : ChannelsConsistent c) (hD : D.Sound)
    (hpeers : D.Peers) {ev : StationEvent} (hs : D.step addr (p, ev) = some D') :
    ∃ c', Reaches c c' ∧ D'.Implements c' := by
  by_cases hev : ev = .call
  · subst hev
    have hp := hpeers p
    obtain ⟨-, ⟨msg, next, hproc, -⟩ | ⟨t, msg, next, -, hproc, -, hD'⟩ |
      ⟨src, len, next, hproc, hself, -⟩ | ⟨s, len, next, r, hsp, hproc, hr, hD'⟩⟩ :=
      Cluster.enter_cases hs
    · rw [hproc] at hp
      exact absurd rfl hp.1.2
    · obtain ⟨c', hstep, himp⟩ := h.send hproc rfl hD'
      exact ⟨c', .step hstep, himp⟩
    · rw [hproc] at hp
      exact absurd hp.1 hself
    · obtain ⟨c', hstep, himp⟩ := h.recv hc hD hsp hproc hr rfl hD'
      exact ⟨c', .step hstep, himp⟩
  · obtain ⟨hproc, hlog, hout⟩ := Cluster.step_quiet hev hs
    exact ⟨c, .refl c, h.congr hproc hlog hout⟩

theorem start_consistent (A : Finset ℕ) (P : ℕ → Proc ℕ α) : ChannelsConsistent (start A P) :=
  fun _ => rfl

/-- Every reachable state of the cluster implements a reachable configuration of the channels. -/
theorem Cluster.Reached.implements {P : ℕ → Proc ℕ α} (h : D.Reached addr P)
    (hpeers : ∀ p < Q.nP, (P p).Calls (Peer Q p)) (hsmall : D.Small) :
    ∃ c, Reaches (start (Finset.range Q.nP) P) c ∧ D.Implements c := by
  have hinit : (Cluster.init Q P).Implements (start (Finset.range Q.nP) P) := by
    refine ⟨fun p => ?_, fun _ _ => rfl, fun _ _ => rfl⟩
    exact if_pos (Finset.mem_range.mpr p.isLt)
  have hI : D.Small → D.Sound ∧ D.Peers ∧
      ∃ c, Reaches (start (Finset.range Q.nP) P) c ∧ D.Implements c := by
    apply Runs.invariant (I := fun D : Cluster Q α => D.Small → D.Sound ∧ D.Peers ∧
      ∃ c, Reaches (start (Finset.range Q.nP) P) c ∧ D.Implements c) h
    · exact fun _ => ⟨.init P, fun p => hpeers p p.isLt, _, .refl _, hinit⟩
    · rintro D₁ ⟨p, ev⟩ D₂ ih - hs hsmall₂
      have hsmall₁ := hsmall₂.before hs
      obtain ⟨hsound, hpeers₁, c, ⟨n, hreach⟩, himp⟩ := ih hsmall₁
      obtain ⟨c', hstep, himp'⟩ :=
        himp.step (hreach.consistent (start_consistent _ P)) hsound hpeers₁ hs
      exact ⟨hsound.step hsmall₁ hsmall₂ hs, hpeers₁.step hs, c', .trans ⟨n, hreach⟩ hstep, himp'⟩
  exact (hI hsmall).2.2

end Programs

/-- Programs on the broadcast medium do what they do over FIFO channels: for every reachable state of the
cluster there is a reachable configuration of the channels with the same programs left, in which the
same messages have been sent and the same bytes received on every channel. -/
theorem bus_refines_channels {α : Type} (Q : Parties) (addr : Fin Q.nP → ℕ) (P : ℕ → Proc ℕ α)
    (hpeers : ∀ p < Q.nP, (P p).Calls (Peer Q p)) (D : Cluster Q α) (h : D.Reached addr P)
    (hsmall : D.Small) :
    ∃ c, Reaches (start (Finset.range Q.nP) P) c ∧ D.Implements c := h.implements hpeers hsmall

/-- Party 0 sends two bytes, party 1 returns what it receives. -/
def sendTwo (p : ℕ) : Proc ℕ Bytes :=
  if p = 0 then do
    Proc.sendTo 1 [7, 8]
    pure []
  else Proc.recvFrom 0 2

/-- The datagram is refused once, then handed over, and taken twice. -/
def sendTwoEvents : List (Fin parties2.nP × StationEvent) :=
  [(0, .call), (0, .retain), (0, .sendto false), (0, .retain), (0, .sendto true), (0, .finish),
    (1, .frame 0), (1, .frame 0), (1, .call)]

theorem bus_refines_channels_sendTwo : ∃ D : Cluster parties2 Bytes,
    D.Reached (fun p : Fin parties2.nP => p + 1) sendTwo ∧
    (D.stations 1).proc = .done [7, 8] ∧
    ∃ c, Reaches (start (Finset.range parties2.nP) sendTwo) c ∧ D.Implements c := by
  let D := (exec (Cluster.step fun p : Fin parties2.nP => p + 1) (fun _ _ => True) sendTwoEvents
    (Cluster.init parties2 sendTwo)).getD (Cluster.init parties2 sendTwo)
  have hrun : exec (Cluster.step fun p : Fin parties2.nP => p + 1) (fun _ _ => True) sendTwoEvents
      (Cluster.init parties2 sendTwo) = some D := rfl
  have hreached : D.Reached (fun p : Fin parties2.nP => p + 1) sendTwo := Runs.of_exec hrun
  refine ⟨D, hreached, rfl, bus_refines_channels parties2 _ sendTwo ?_ D hreached ?_⟩
  · intro p hp
    unfold sendTwo
    split
    · next h => exact (Proc.calls_sendTo _ ⟨by decide, by omega⟩).bind fun _ => Proc.calls_pure _
    · next h => exact Proc.calls_recvFrom _ ⟨by decide, Ne.symm h⟩
  · have hlog : ∀ s t : Fin 2, D.log (s, t) = [] ∨ D.log (s, t) = [[7, 8]] := by decide
    rintro ⟨s, t⟩
    obtain h | h := hlog s t <;> rw [h] <;> decide

end QSync.Io
