import Mathlib.Logic.Function.Basic
import Mathlib.Data.List.Basic
import Mathlib.Tactic.Common

/-! # Sequential processes over FIFO byte channels

Parties named by a type `ι` run sequential programs that send bytes, receive bytes and compute.
Every ordered pair of parties has one unbounded FIFO byte channel: sending never blocks, a receive
of `n` bytes blocks until `n` bytes are there. A configuration also keeps, for every channel, the
history of the messages sent into it and of the byte strings its receives returned.

* `Proc ι α`: a program that may send, receive, return an `α`, or be stuck.
* `Net.stepAt i`: the one step party `i` can take; `Step` is a step of some party.
* `stepAt_commute`: steps of two different parties commute.
* `StepN.finish`: if one run ends with every party finished, then every run can be continued to
  that same end, in exactly the steps that are left.
-/

namespace QSync.Network
set_option autoImplicit false
set_option maxHeartbeats 250000

/-- What travels on a channel: bytes, as numbers. -/
abbrev Bytes := List ℕ

/-- A sequential program of one party. -/
inductive Proc (ι α : Type) where
  | done (a : α)
  | send (dst : ι) (msg : Bytes) (next : Proc ι α)
  | recv (src : ι) (len : ℕ) (next : Bytes → Proc ι α)
  /-- No further step: an access outside a vector, or the place of a party that does not exist. -/
  | stuck

section Bind
variable {ι α β γ : Type}

/-- Sequencing. -/
def Proc.bind : Proc ι α → (α → Proc ι β) → Proc ι β
  | .done a, f => f a
  | .send d m k, f => .send d m (k.bind f)
  | .recv s n k, f => .recv s n (fun b => (k b).bind f)
  | .stuck, _ => .stuck

instance : Monad (Proc ι) where
  pure := .done
  bind := Proc.bind

theorem Proc.bind_done (p : Proc ι α) : p.bind .done = p := by
  induction p with
  | done a => rfl
  | send d m k ih => simp only [Proc.bind, ih]
  | recv s n k ih => simp only [Proc.bind, ih]
  | stuck => rfl

theorem Proc.bind_assoc (p : Proc ι α) (f : α → Proc ι β) (g : β → Proc ι γ) :
    (p.bind f).bind g = p.bind (fun a => (f a).bind g) := by
  induction p with
  | done a => rfl
  | send d m k ih => simp only [Proc.bind, ih]
  | recv s n k ih => simp only [Proc.bind, ih]
  | stuck => rfl

instance : LawfulMonad (Proc ι) :=
  .mk' (Proc ι) (fun p => Proc.bind_done p) (fun _ _ => rfl) fun p f g => Proc.bind_assoc p f g

/-- The program that sends one message. -/
def Proc.sendTo (dst : ι) (msg : Bytes) : Proc ι Unit := .send dst msg (.done ())

/-- The program that receives `len` bytes. -/
def Proc.recvFrom (src : ι) (len : ℕ) : Proc ι Bytes := .recv src len .done

/-- A computation without messages, stuck where it has no result. -/
def Proc.ofOption : Option α → Proc ι α
  | some a => .done a
  | none => .stuck

end Bind

/-- A configuration: the program each party still has to run, the bytes in flight on the channel
`(sender, receiver)`, and the two histories of the channel. -/
structure Net (ι α : Type) where
  procs : ι → Proc ι α
  chan : ι × ι → Bytes
  sent : ι × ι → List Bytes
  rcvd : ι × ι → List Bytes

section Steps
variable {ι α : Type} [DecidableEq ι]

/-- Party `i` puts `m` into its channel to `j` and goes on as `k`. -/
def Net.afterSend (c : Net ι α) (i j : ι) (m : Bytes) (k : Proc ι α) : Net ι α where
  procs := Function.update c.procs i k
  chan := Function.update c.chan (i, j) (c.chan (i, j) ++ m)
  sent := Function.update c.sent (i, j) (c.sent (i, j) ++ [m])
  rcvd := c.rcvd

/-- Party `i` takes `n` bytes out of its channel from `j` and goes on as `k` of them. -/
def Net.afterRecv (c : Net ι α) (i j : ι) (n : ℕ) (k : Bytes → Proc ι α) : Net ι α where
  procs := Function.update c.procs i (k ((c.chan (j, i)).take n))
  chan := Function.update c.chan (j, i) ((c.chan (j, i)).drop n)
  sent := c.sent
  rcvd := Function.update c.rcvd (j, i) (c.rcvd (j, i) ++ [(c.chan (j, i)).take n])

/-- The step party `i` can take, if it can take one. -/
def Net.stepAt (i : ι) (c : Net ι α) : Option (Net ι α) :=
  match c.procs i with
  | .send j m k => some (c.afterSend i j m k)
  | .recv j n k => if n ≤ (c.chan (j, i)).length then some (c.afterRecv i j n k) else none
  | .done _ => none
  | .stuck => none

/-- Some party takes a step. -/
def Step (c d : Net ι α) : Prop := ∃ i, c.stepAt i = some d

theorem stepAt_cases {i : ι} {c d : Net ι α} (h : c.stepAt i = some d) :
    (∃ j m k, c.procs i = .send j m k ∧ d = c.afterSend i j m k) ∨
    (∃ j n k, c.procs i = .recv j n k ∧ n ≤ (c.chan (j, i)).length ∧ d = c.afterRecv i j n k) := by
  unfold Net.stepAt at h
  split at h
  case h_1 j m k hp => exact .inl ⟨j, m, k, hp, (Option.some.inj h).symm⟩
  case h_2 j n k hp =>
    split at h
    case isTrue hn => exact .inr ⟨j, n, k, hp, hn, (Option.some.inj h).symm⟩
    case isFalse => cases h
  case h_3 => cases h
  case h_4 => cases h

theorem stepAt_send {i j : ι} {m : Bytes} {k : Proc ι α} {c : Net ι α}
    (h : c.procs i = .send j m k) : c.stepAt i = some (c.afterSend i j m k) := by
  simp only [Net.stepAt, h]

theorem stepAt_recv {i j : ι} {n : ℕ} {k : Bytes → Proc ι α} {c : Net ι α}
    (h : c.procs i = .recv j n k) (hn : n ≤ (c.chan (j, i)).length) :
    c.stepAt i = some (c.afterRecv i j n k) := by
  simp only [Net.stepAt, h, if_pos hn]

theorem afterSend_procs_ne {c : Net ι α} {i i' j : ι} {m : Bytes} {k : Proc ι α} (h : i' ≠ i) :
    (c.afterSend i j m k).procs i' = c.procs i' := Function.update_of_ne h _ _

theorem afterRecv_procs_ne {c : Net ι α} {i i' j : ι} {n : ℕ} {k : Bytes → Proc ι α}
    (h : i' ≠ i) : (c.afterRecv i j n k).procs i' = c.procs i' := Function.update_of_ne h _ _

/-! ## Steps of different parties commute -/

theorem send_send_commute {c : Net ι α} {i j a b : ι} {m m' : Bytes} {k k' : Proc ι α}
    (hij : i ≠ j) :
    (c.afterSend i a m k).afterSend j b m' k' = (c.afterSend j b m' k').afterSend i a m k := by
  have hch : (i, a) ≠ (j, b) := fun h => hij (congrArg Prod.fst h)
  simp only [Net.afterSend, Net.mk.injEq, Function.update_of_ne hch, Function.update_of_ne hch.symm,
    and_true]
  exact ⟨Function.update_comm hij _ _ _, Function.update_comm hch _ _ _,
    Function.update_comm hch _ _ _⟩

theorem recv_recv_commute {c : Net ι α} {i j a b : ι} {n n' : ℕ} {k k' : Bytes → Proc ι α}
    (hij : i ≠ j) :
    (c.afterRecv i a n k).afterRecv j b n' k' = (c.afterRecv j b n' k').afterRecv i a n k := by
  have hch : (a, i) ≠ (b, j) := fun h => hij (congrArg Prod.snd h)
  simp only [Net.afterRecv, Net.mk.injEq, Function.update_of_ne hch, Function.update_of_ne hch.symm,
    true_and]
  exact ⟨Function.update_comm hij _ _ _, Function.update_comm hch _ _ _,
    Function.update_comm hch _ _ _⟩

/-- A send and a receive commute also on one channel: what is received was there before. -/
theorem send_recv_commute {c : Net ι α} {i j a b : ι} {m : Bytes} {n : ℕ} {k : Proc ι α}
    {k' : Bytes → Proc ι α} (hij : i ≠ j) (hn : n ≤ (c.chan (b, j)).length) :
    (c.afterSend i a m k).afterRecv j b n k' = (c.afterRecv j b n k').afterSend i a m k := by
  by_cases hch : (i, a) = (b, j)
  · obtain ⟨rfl, rfl⟩ := Prod.mk.inj hch
    simp only [Net.afterSend, Net.afterRecv, Net.mk.injEq, Function.update_self,
      Function.update_idem, List.take_append_of_le_length hn, List.drop_append_of_le_length hn,
      and_true]
    exact Function.update_comm hij _ _ _
  · have hch' : (b, j) ≠ (i, a) := fun h => hch h.symm
    simp only [Net.afterSend, Net.afterRecv, Net.mk.injEq, Function.update_of_ne hch,
      Function.update_of_ne hch', and_true]
    exact ⟨Function.update_comm hij _ _ _, Function.update_comm hch _ _ _⟩

theorem le_chan_afterSend {c : Net ι α} {i j a b : ι} {m : Bytes} {n : ℕ} {k : Proc ι α}
    (hn : n ≤ (c.chan (b, j)).length) : n ≤ ((c.afterSend i a m k).chan (b, j)).length := by
  by_cases hch : (b, j) = (i, a)
  · rw [hch] at hn
    simp only [Net.afterSend, hch, Function.update_self, List.length_append]
    exact Nat.le_add_right_of_le hn
  · simpa only [Net.afterSend, Function.update_of_ne hch] using hn

theorem chan_afterRecv_ne {c : Net ι α} {i j a b : ι} {n : ℕ} {k : Bytes → Proc ι α}
    (hij : i ≠ j) : (c.afterRecv i a n k).chan (b, j) = c.chan (b, j) :=
  Function.update_of_ne (fun h => hij (congrArg Prod.snd h).symm) _ _

/-- The steps of two different parties can be taken in either order, with the same outcome. -/
theorem stepAt_commute {i j : ι} (hij : i ≠ j) {c ci cj : Net ι α} (hi : c.stepAt i = some ci)
    (hj : c.stepAt j = some cj) : ∃ d, ci.stepAt j = some d ∧ cj.stepAt i = some d := by
  obtain ⟨a, m, k, hp, rfl⟩ | ⟨a, n, k, hp, hn, rfl⟩ := stepAt_cases hi <;>
    obtain ⟨b, m', k', hp', rfl⟩ | ⟨b, n', k', hp', hn', rfl⟩ := stepAt_cases hj
  · refine ⟨_, stepAt_send ((afterSend_procs_ne hij.symm).trans hp'), ?_⟩
    rw [send_send_commute hij]
    exact stepAt_send ((afterSend_procs_ne hij).trans hp)
  · refine ⟨_, stepAt_recv ((afterSend_procs_ne hij.symm).trans hp') (le_chan_afterSend hn'), ?_⟩
    rw [send_recv_commute hij hn']
    exact stepAt_send ((afterRecv_procs_ne hij).trans hp)
  · refine ⟨_, stepAt_send ((afterRecv_procs_ne hij.symm).trans hp'), ?_⟩
    rw [← send_recv_commute hij.symm hn]
    exact stepAt_recv ((afterSend_procs_ne hij).trans hp) (le_chan_afterSend hn)
  · refine ⟨_, stepAt_recv ((afterRecv_procs_ne hij.symm).trans hp')
      (by rwa [chan_afterRecv_ne hij]), ?_⟩
    rw [recv_recv_commute hij]
    exact stepAt_recv ((afterRecv_procs_ne hij).trans hp) (by rwa [chan_afterRecv_ne hij.symm])

/-! ## Runs -/

/-- A run of exactly `n` steps. -/
inductive StepN : ℕ → Net ι α → Net ι α → Prop where
  | refl (c : Net ι α) : StepN 0 c c
  | head {n : ℕ} {c d e : Net ι α} : Step c d → StepN n d e → StepN (n + 1) c e

/-- A run of any length. -/
def Reaches (c d : Net ι α) : Prop := ∃ n, StepN n c d

theorem StepN.trans {m n : ℕ} {c d e : Net ι α} (h1 : StepN m c d) (h2 : StepN n d e) :
    StepN (m + n) c e := by
  induction h1 with
  | refl c => rwa [Nat.zero_add]
  | @head m c c' d hs _ ih =>
    rw [Nat.add_right_comm]
    exact .head hs (ih h2)

theorem Reaches.refl (c : Net ι α) : Reaches c c := ⟨0, .refl c⟩

theorem Reaches.trans {c d e : Net ι α} (h1 : Reaches c d) (h2 : Reaches d e) : Reaches c e :=
  let ⟨_, r1⟩ := h1
  let ⟨_, r2⟩ := h2
  ⟨_, r1.trans r2⟩

theorem Reaches.step {c d : Net ι α} {i : ι} (h : c.stepAt i = some d) : Reaches c d :=
  ⟨1, .head ⟨i, h⟩ (.refl d)⟩

/-- No party can take a step. -/
def Terminal (c : Net ι α) : Prop := ∀ d, ¬ Step c d

/-- A step against a run: it is a step the run takes too, or it is still open at the run's end. -/
theorem StepN.strip {n : ℕ} {c d e : Net ι α} (hr : StepN n c e) (hs : Step c d) :
    (∃ m, n = m + 1 ∧ StepN m d e) ∨ ∃ f, StepN n d f ∧ Step e f := by
  induction hr generalizing d with
  | refl c => exact .inr ⟨d, .refl d, hs⟩
  | @head n c c' e hs' hr ih =>
    obtain ⟨i, hi⟩ := hs
    obtain ⟨j, hj⟩ := hs'
    by_cases hij : i = j
    · subst hij
      have hdc : d = c' := Option.some.inj (hi.symm.trans hj)
      subst hdc
      exact .inl ⟨n, rfl, hr⟩
    · obtain ⟨f, hf, hf'⟩ := stepAt_commute hij hi hj
      obtain ⟨m, rfl, hm⟩ | ⟨g, hg, hg'⟩ := ih ⟨i, hf'⟩
      · exact .inl ⟨m + 1, rfl, .head ⟨j, hf⟩ hm⟩
      · exact .inr ⟨g, .head ⟨j, hf⟩ hg, hg'⟩

/-- If one run of `n` steps ends in a configuration without steps, then every run has at most `n`
steps and can be continued to that configuration in the steps that are left. -/
theorem StepN.finish {n m : ℕ} {c d e : Net ι α} (hr : StepN n c e) (he : Terminal e)
    (hd : StepN m c d) : ∃ l, n = m + l ∧ StepN l d e := by
  induction hd generalizing n with
  | refl c => exact ⟨n, (Nat.zero_add n).symm, hr⟩
  | @head m c c' d hs _ ih =>
    obtain ⟨n', rfl, hn'⟩ | ⟨f, _, hf⟩ := hr.strip hs
    · obtain ⟨l, rfl, hl⟩ := ih hn'
      exact ⟨l, Nat.add_right_comm m l 1, hl⟩
    · exact absurd hf (he f)

/-! ## Histories -/

/-- What was received and what is in flight is, in order, what was sent. -/
def ChannelsConsistent (c : Net ι α) : Prop :=
  ∀ ch, (c.sent ch).flatten = (c.rcvd ch).flatten ++ c.chan ch

theorem ChannelsConsistent.step {c d : Net ι α} (h : ChannelsConsistent c) (hs : Step c d) :
    ChannelsConsistent d := by
  obtain ⟨i, hi⟩ := hs
  obtain ⟨j, m, k, -, rfl⟩ | ⟨j, n, k, -, -, rfl⟩ := stepAt_cases hi
  · intro ch
    by_cases hch : ch = (i, j)
    · subst hch
      simp [Net.afterSend, h (i, j)]
    · simpa [Net.afterSend, Function.update_of_ne hch] using h ch
  · intro ch
    by_cases hch : ch = (j, i)
    · subst hch
      simp [Net.afterRecv, h (j, i)]
    · simpa [Net.afterRecv, Function.update_of_ne hch] using h ch

theorem Step.histories {c d : Net ι α} (hs : Step c d) (ch : ι × ι) :
    c.sent ch <+: d.sent ch ∧ c.rcvd ch <+: d.rcvd ch := by
  obtain ⟨i, hi⟩ := hs
  obtain ⟨j, m, k, -, rfl⟩ | ⟨j, n, k, -, -, rfl⟩ := stepAt_cases hi
  · refine ⟨?_, List.prefix_rfl⟩
    by_cases hch : ch = (i, j)
    · subst hch
      simp [Net.afterSend]
    · simp [Net.afterSend, Function.update_of_ne hch]
  · refine ⟨List.prefix_rfl, ?_⟩
    by_cases hch : ch = (j, i)
    · subst hch
      simp [Net.afterRecv]
    · simp [Net.afterRecv, Function.update_of_ne hch]

theorem StepN.histories {n : ℕ} {c d : Net ι α} (h : StepN n c d) (ch : ι × ι) :
    c.sent ch <+: d.sent ch ∧ c.rcvd ch <+: d.rcvd ch := by
  induction h with
  | refl c => exact ⟨List.prefix_rfl, List.prefix_rfl⟩
  | head hs _ ih =>
    have hc := hs.histories ch
    exact ⟨hc.1.trans ih.1, hc.2.trans ih.2⟩

theorem StepN.consistent {n : ℕ} {c d : Net ι α} (h : StepN n c d) (hc : ChannelsConsistent c) :
    ChannelsConsistent d := by
  induction h with
  | refl c => exact hc
  | head hs _ ih => exact ih (hc.step hs)

end Steps

end QSync.Network
