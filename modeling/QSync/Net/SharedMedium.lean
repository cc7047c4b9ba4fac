import Mathlib.Data.Real.Basic
import Mathlib.Algebra.Order.Group.Abs
import Mathlib.Tactic.Linarith
import Mathlib.Tactic.NormNum
import QSync.Foundations.EventRuns
import QSync.Net.TdmaScheduler

/-! # Parties on one medium

The parties of a round robin send whenever their schedulers let them. Real time is a real number; a
party's clock runs at its rate with an offset of its own and is read in whole nanoseconds. As long
as every send ends soon enough after the reading that let it go, no two parties are on the air at
once.
-/

namespace QSync.Net
set_option autoImplicit false
set_option maxHeartbeats 250000

/-- A round robin, the offsets of the parties' clocks and the time a send may take. -/
structure Deployment where
  nP : ℕ
  slot_ns : ℕ
  guard_ns : ℕ
  offset : Fin nP → ℝ
  eps : ℝ
  d : ℝ
  ts_ok : Fin nP → Bool
  disabled : Fin nP → Bool
  nP_ge : 2 ≤ nP
  /-- `nP` is an `int`. -/
  nP_lt : nP < 2 ^ 31
  no_overflow : slot_ns * nP * 2 < 2 ^ 64
  skew : ∀ p q, |offset p - offset q| ≤ eps
  fits : d + eps ≤ guard_ns

/-- Where a party is in a send. `cleared` is the real time of the reading on which `wait_for_slot`
returned through the owned-slot test, if it did. -/
inductive Phase where
  | idle
  | waiting
  | unblocked (cleared : Option ℝ)
  | sending (cleared : Option ℝ) (start : ℝ) (t_pre : ℕ)

/-- A send that is over. -/
structure Transmission (nP : ℕ) where
  party : Fin nP
  cleared : Option ℝ
  start : ℝ
  finish : ℝ

structure Medium (nP : ℕ) where
  sch : Fin nP → TDMAScheduler
  phase : Fin nP → Phase := fun _ => .idle
  time : ℝ
  log : List (Transmission nP) := []

/-- What a party does at real time `t`; `now` is what it reads off its clock. -/
inductive Action where
  | call
  | poll (now : ℕ)
  | start (now : ℕ)
  | finish (now : ℕ)

structure MediumEvent (nP : ℕ) where
  p : Fin nP
  t : ℝ
  action : Action

namespace Deployment
variable (G : Deployment)

def scheduler (p : Fin G.nP) : TDMAScheduler :=
  .construct (p : ℕ) (G.ts_ok p) (.round_robin G.nP G.slot_ns) (G.disabled p)

/-- All parties idle at real time `t₀`. -/
def init (t₀ : ℝ) : Medium G.nP := { sch := G.scheduler, time := t₀ }

def step (M : Medium G.nP) (e : MediumEvent G.nP) : Option (Medium G.nP) :=
  let T := M.sch e.p
  match e.action, M.phase e.p with
  | .call, .idle => some { M with
      phase := Function.update M.phase e.p (if T.disabled_ then .unblocked none else .waiting)
      time := e.t }
  | .poll now, .waiting =>
      let r := T.poll G.guard_ns now
      some { M with
        sch := Function.update M.sch e.p (T.note_poll r)
        phase := Function.update M.phase e.p (match r with
          | .in_slot => .unblocked (some e.t)
          | .no_slot => .unblocked none
          | .sleep _ => .waiting)
        time := e.t }
  | .start now, .unblocked cleared => some { M with
      phase := Function.update M.phase e.p (.sending cleared e.t now)
      time := e.t }
  | .finish now, .sending cleared start t_pre => some { M with
      sch := Function.update M.sch e.p (T.mark_post t_pre now)
      phase := Function.update M.phase e.p .idle
      time := e.t
      log := M.log ++ [⟨e.p, cleared, start, e.t⟩] }
  | _, _ => none

/-- The clock of `p` shows `now` at real time `t`. -/
def Reads (p : Fin G.nP) (t : ℝ) (now : ℕ) : Prop :=
  (now : ℝ) ≤ t + G.offset p ∧ t + G.offset p < now + 1

/-- The assumption on time: events come in order, polls read the clock, every send was let go by
the owned-slot test and ends within `d` of that reading. -/
def Prompt (M : Medium G.nP) (e : MediumEvent G.nP) : Prop :=
  M.time ≤ e.t ∧
    (∀ now, e.action = .poll now → G.Reads e.p e.t now) ∧
    (∀ now, e.action = .start now → ∃ c, M.phase e.p = .unblocked (some c) ∧ e.t ≤ c + G.d) ∧
    ∀ q c s t_pre, M.phase q = .sending (some c) s t_pre → e.t ≤ c + G.d

/-! ## One clearance -/

/-- At real time `c` the scheduler of `p` returned in an owned slot. -/
def Cleared (p : Fin G.nP) (c : ℝ) : Prop :=
  ∃ now, G.Reads p c now ∧ (G.scheduler p).poll G.guard_ns now = .in_slot

variable {G}

theorem in_slot_spec {p : Fin G.nP} {now : ℕ}
    (h : (G.scheduler p).poll G.guard_ns now = .in_slot) :
    0 < G.slot_ns ∧ now / G.slot_ns % G.nP = p ∧
      now + G.guard_ns < (now / G.slot_ns + 1) * G.slot_ns := by
  have hsched : (G.scheduler p).sched_ = .round_robin G.nP G.slot_ns :=
    TDMAScheduler.construct_sched_ _ _ _ _
  -- a slot is owned, so the schedule was accepted
  have hpos : 0 < G.slot_ns := by
    unfold TDMAScheduler.poll at h
    dsimp only at h
    split at h
    · next hc => exact (TDMAScheduler.owns_slot_round_robin p.val _ _ hc.1).1
    · split at h <;> cases h
  have hfits : (G.scheduler p).sched_.Fits := by
    have h1 := G.nP_ge
    have h2 := G.nP_lt
    have h3 := G.no_overflow
    rw [hsched]
    constructor
    · exact hpos
    · rw [TDMASchedule.round_robin_length]
      omega
    · rw [TDMASchedule.round_robin_length]
      omega
    · rw [TDMASchedule.round_robin_length]
      exact h3
  obtain ⟨howns, hleft⟩ := (TDMAScheduler.poll_in_slot_iff hfits.exact _ _).mp h
  rw [hsched, TDMASchedule.round_robin_length, TDMASchedule.round_robin_slot_ns] at howns
  rw [hsched, TDMASchedule.round_robin_slot_ns] at hleft
  refine ⟨hpos, (TDMAScheduler.owns_slot_round_robin p.val _ _ howns).2.2, ?_⟩
  have hdiv := Nat.div_add_mod now G.slot_ns
  rw [Nat.add_mul, Nat.one_mul, Nat.mul_comm]
  omega

/-- Readings in slots of different parties: the guard lies between the earlier and the later. -/
theorem in_slot_apart {p q : Fin G.nP} (hne : p ≠ q) {n m : ℕ}
    (hp : (G.scheduler p).poll G.guard_ns n = .in_slot)
    (hq : (G.scheduler q).poll G.guard_ns m = .in_slot) :
    n + G.guard_ns < m ∨ m + G.guard_ns < n := by
  obtain ⟨-, hpn, hpend⟩ := in_slot_spec hp
  obtain ⟨-, hqm, hqend⟩ := in_slot_spec hq
  have hslots : n / G.slot_ns ≠ m / G.slot_ns := by
    intro he
    rw [he, hqm] at hpn
    exact hne (Fin.ext hpn.symm)
  obtain hlt | hlt := Nat.lt_or_gt_of_ne hslots
  · left
    calc n + G.guard_ns < (n / G.slot_ns + 1) * G.slot_ns := hpend
      _ ≤ m / G.slot_ns * G.slot_ns := Nat.mul_le_mul_right _ hlt
      _ ≤ m := Nat.div_mul_le_self _ _
  · right
    calc m + G.guard_ns < (m / G.slot_ns + 1) * G.slot_ns := hqend
      _ ≤ n / G.slot_ns * G.slot_ns := Nat.mul_le_mul_right _ hlt
      _ ≤ n := Nat.div_mul_le_self _ _

/-- From the earlier reading to the later one real time advances by more than `d`. -/
theorem real_lt {p q : Fin G.nP} {c c' : ℝ} {n m : ℕ} (hn : G.Reads p c n) (hm : G.Reads q c' m)
    (h : n + G.guard_ns < m) : c + G.d < c' := by
  have hgap : (n : ℝ) + G.guard_ns + 1 ≤ m := by exact_mod_cast h
  have hskew := (abs_le.mp (G.skew q p)).2
  have hfits := G.fits
  have h1 := hn.2
  have h2 := hm.1
  linarith

theorem Cleared.apart {p q : Fin G.nP} (hne : p ≠ q) {c c' : ℝ} (hp : G.Cleared p c)
    (hq : G.Cleared q c') : c + G.d < c' ∨ c' + G.d < c := by
  obtain ⟨n, hn, hpn⟩ := hp
  obtain ⟨m, hm, hqm⟩ := hq
  obtain h | h := in_slot_apart hne hpn hqm
  · exact .inl (real_lt hn hm h)
  · exact .inr (real_lt hm hn h)

/-! ## Runs -/

/-- Every send under way or over was let go in time. -/
structure Orderly (G : Deployment) (M : Medium G.nP) : Prop where
  sch : ∀ p, (M.sch p).sched_ = (G.scheduler p).sched_ ∧ (M.sch p).owns_ = (G.scheduler p).owns_
  unblocked : ∀ p c, M.phase p = .unblocked (some c) → G.Cleared p c ∧ c ≤ M.time
  sending : ∀ p cl s t_pre, M.phase p = .sending cl s t_pre →
    ∃ c, cl = some c ∧ G.Cleared p c ∧ c ≤ s ∧ s ≤ M.time ∧ M.time ≤ c + G.d
  past : ∀ a ∈ M.log, ∃ c, a.cleared = some c ∧ G.Cleared a.party c ∧ c ≤ a.start ∧
    a.start ≤ a.finish ∧ a.finish ≤ c + G.d ∧ a.finish ≤ M.time

section Runs
variable {M M' : Medium G.nP}

theorem Orderly.init (t₀ : ℝ) : Orderly G (G.init t₀) where
  sch := fun _ => ⟨rfl, rfl⟩
  unblocked := by
    intro p c h
    cases h
  sending := by
    intro p cl s t_pre h
    cases h
  past := by
    intro a h
    cases h

/-- What a step within the time assumption leaves of the phases it does not touch. -/
theorem Orderly.others (h : Orderly G M) {e : MediumEvent G.nP} (hok : G.Prompt M e) (ph : Phase)
    (hun : ∀ c, ph = .unblocked (some c) → G.Cleared e.p c ∧ c ≤ e.t)
    (hsend : ∀ cl s t_pre, ph = .sending cl s t_pre →
      ∃ c, cl = some c ∧ G.Cleared e.p c ∧ c ≤ s ∧ s ≤ e.t ∧ e.t ≤ c + G.d) :
    (∀ p c, Function.update M.phase e.p ph p = .unblocked (some c) → G.Cleared p c ∧ c ≤ e.t) ∧
      ∀ p cl s t_pre, Function.update M.phase e.p ph p = .sending cl s t_pre →
        ∃ c, cl = some c ∧ G.Cleared p c ∧ c ≤ s ∧ s ≤ e.t ∧ e.t ≤ c + G.d := by
  constructor
  · intro p c hp
    by_cases hpe : p = e.p
    · subst hpe
      rw [Function.update_self] at hp
      exact hun c hp
    · rw [Function.update_of_ne hpe] at hp
      obtain ⟨h1, h2⟩ := h.unblocked p c hp
      exact ⟨h1, h2.trans hok.1⟩
  · intro p cl s t_pre hp
    by_cases hpe : p = e.p
    · subst hpe
      rw [Function.update_self] at hp
      exact hsend cl s t_pre hp
    · rw [Function.update_of_ne hpe] at hp
      obtain ⟨c, rfl, h1, h2, h3, -⟩ := h.sending p cl s t_pre hp
      exact ⟨c, rfl, h1, h2, h3.trans hok.1, hok.2.2.2 p c s t_pre hp⟩

theorem Orderly.sch_update (h : Orderly G M) (p : Fin G.nP) {T : TDMAScheduler}
    (hT : T.sched_ = (M.sch p).sched_ ∧ T.owns_ = (M.sch p).owns_) (q : Fin G.nP) :
    (Function.update M.sch p T q).sched_ = (G.scheduler q).sched_ ∧
      (Function.update M.sch p T q).owns_ = (G.scheduler q).owns_ := by
  by_cases hq : q = p
  · subst hq
    rw [Function.update_self]
    exact ⟨hT.1.trans (h.sch q).1, hT.2.trans (h.sch q).2⟩
  · rw [Function.update_of_ne hq]
    exact h.sch q

theorem Orderly.past_later (h : Orderly G M) {t : ℝ} (ht : M.time ≤ t) :
    ∀ a ∈ M.log, ∃ c, a.cleared = some c ∧ G.Cleared a.party c ∧ c ≤ a.start ∧
      a.start ≤ a.finish ∧ a.finish ≤ c + G.d ∧ a.finish ≤ t := by
  intro a ha
  obtain ⟨c, h1, h2, h3, h4, h5, h6⟩ := h.past a ha
  exact ⟨c, h1, h2, h3, h4, h5, h6.trans ht⟩

theorem Orderly.step (h : Orderly G M) {e : MediumEvent G.nP} (hok : G.Prompt M e)
    (hs : G.step M e = some M') : Orderly G M' := by
  unfold Deployment.step at hs
  dsimp only at hs
  split at hs
  · obtain rfl := Option.some.inj hs
    have ho := h.others hok (if (M.sch e.p).disabled_ then .unblocked none else .waiting)
      (by intro c hc; split at hc <;> cases hc)
      (by intro cl s t_pre hc; split at hc <;> cases hc)
    exact ⟨h.sch, ho.1, ho.2, h.past_later hok.1⟩
  · next now hact hph =>
    obtain rfl := Option.some.inj hs
    have hread := hok.2.1 now hact
    have hpoll : (M.sch e.p).poll G.guard_ns now = (G.scheduler e.p).poll G.guard_ns now :=
      TDMAScheduler.poll_congr (h.sch e.p).1 (h.sch e.p).2 _ _
    have hsame := (M.sch e.p).note_poll_same ((M.sch e.p).poll G.guard_ns now)
    have ho := h.others hok (match (M.sch e.p).poll G.guard_ns now with
        | .in_slot => .unblocked (some e.t)
        | .no_slot => .unblocked none
        | .sleep _ => .waiting)
      (by
        intro c hc
        split at hc
        · next hin =>
          cases hc
          exact ⟨⟨now, hread, hpoll ▸ hin⟩, le_rfl⟩
        · cases hc
        · cases hc)
      (by intro cl s t_pre hc; split at hc <;> cases hc)
    exact ⟨h.sch_update e.p ⟨hsame.1, hsame.2.1⟩, ho.1, ho.2, h.past_later hok.1⟩
  · next now cleared hact hph =>
    obtain rfl := Option.some.inj hs
    -- the send begins; it was let go by the owned-slot test
    obtain ⟨c, hc, hle⟩ := hok.2.2.1 now hact
    obtain rfl : cleared = some c := by simpa [hph] using hc
    obtain ⟨hcl, hc'⟩ := h.unblocked e.p c hph
    have ho := h.others hok (.sending (some c) e.t now) (by intro c' hc'; cases hc')
      (by
        intro cl s t_pre hp
        obtain ⟨rfl, rfl, rfl⟩ : some c = cl ∧ e.t = s ∧ now = t_pre := by simpa using hp
        exact ⟨c, rfl, hcl, hc'.trans hok.1, le_rfl, hle⟩)
    exact ⟨h.sch, ho.1, ho.2, h.past_later hok.1⟩
  · next now cleared start t_pre hact hph =>
    obtain rfl := Option.some.inj hs
    obtain ⟨c, rfl, hcl, hcs, hst, -⟩ := h.sending e.p cleared start t_pre hph
    have ho := h.others hok .idle (by intro c' hc'; cases hc') (by intro cl s t hc'; cases hc')
    have hsame := (M.sch e.p).mark_post_same t_pre now
    refine ⟨h.sch_update e.p ⟨hsame.1, hsame.2.1⟩, ho.1, ho.2, ?_⟩
    intro a ha
    obtain ha | ha := List.mem_append.mp ha
    · exact h.past_later hok.1 a ha
    · obtain rfl := List.mem_singleton.mp ha
      exact ⟨c, rfl, hcl, hcs, hst.trans hok.1, hok.2.2.2 e.p c start t_pre hph, le_rfl⟩
  · cases hs

theorem Orderly.run {t₀ : ℝ} (h : Runs G.step G.Prompt (G.init t₀) M) : Orderly G M :=
  h.invariant (Orderly.init t₀) fun _ _ _ ho hok hs => ho.step hok hs

end Runs

/-- In every state of a run: two sends of distinct parties that are over were apart, and at most one
party is on the air. -/
theorem sends_disjoint (G : Deployment) (t₀ : ℝ) (M : Medium G.nP)
    (h : Runs G.step G.Prompt (G.init t₀) M) :
    (∀ a ∈ M.log, ∀ b ∈ M.log, a.party ≠ b.party → a.finish < b.start ∨ b.finish < a.start) ∧
      (∀ a ∈ M.log, ∀ p cl s t_pre, M.phase p = .sending cl s t_pre → a.party ≠ p →
        a.finish < s) ∧
      ∀ p q cl s t_pre cl' s' t_pre', M.phase p = .sending cl s t_pre →
        M.phase q = .sending cl' s' t_pre' → p = q := by
  have ho := Orderly.run h
  refine ⟨?_, ?_, ?_⟩
  · intro a ha b hb hne
    obtain ⟨c, -, hc, h1, h2, h3, -⟩ := ho.past a ha
    obtain ⟨c', -, hc', h1', h2', h3', -⟩ := ho.past b hb
    obtain hlt | hlt := hc.apart hne hc'
    · exact .inl ((h3.trans_lt hlt).trans_le h1')
    · exact .inr ((h3'.trans_lt hlt).trans_le h1)
  · intro a ha p cl s t_pre hp hne
    obtain ⟨c, -, hc, h1, h2, h3, h4⟩ := ho.past a ha
    obtain ⟨c', -, hc', h1', h2', h3'⟩ := ho.sending p cl s t_pre hp
    obtain hlt | hlt := hc.apart hne hc'
    · exact (h3.trans_lt hlt).trans_le h1'
    · -- the send of `p` would have had to end before
      linarith
  · intro p q cl s t_pre cl' s' t_pre' hp hq
    obtain ⟨c, -, hc, h1, h2, h3⟩ := ho.sending p cl s t_pre hp
    obtain ⟨c', -, hc', h1', h2', h3'⟩ := ho.sending q cl' s' t_pre' hq
    by_contra hne
    obtain hlt | hlt := hc.apart hne hc'
    · linarith
    · linarith

/-- Two parties with a guard of 10 ns in slots of 100 ns, their clocks in step. -/
def deployment2 : Deployment where
  nP := 2
  slot_ns := 100
  guard_ns := 10
  offset := fun _ => 0
  eps := 0
  d := 10
  ts_ok := fun _ => true
  disabled := fun _ => false
  nP_ge := le_rfl
  nP_lt := by norm_num
  no_overflow := by norm_num
  skew := by simp
  fits := by norm_num

instance : NeZero deployment2.nP := ⟨two_ne_zero⟩

theorem prompt2 {M : Medium deployment2.nP} {p : Fin deployment2.nP} {t : ℝ} {a : Action}
    (f g : Phase) (h0 : M.phase 0 = f) (h1 : M.phase 1 = g) (ht : M.time ≤ t)
    (hpoll : ∀ now, a = .poll now → (now : ℝ) = t)
    (hstart : ∀ now, a = .start now → ∃ c, M.phase p = .unblocked (some c) ∧ t ≤ c + 10)
    (hf : ∀ c s n, f = .sending (some c) s n → t ≤ c + 10)
    (hg : ∀ c s n, g = .sending (some c) s n → t ≤ c + 10) :
    deployment2.Prompt M ⟨p, t, a⟩ := by
  refine ⟨ht, fun now ha => ?_, hstart, ?_⟩
  · have h := hpoll now ha
    constructor
    · show (now : ℝ) ≤ t + 0
      linarith
    · show t + 0 < (now : ℝ) + 1
      linarith
  · have hboth : ∀ q : Fin 2, ∀ c s n, M.phase q = .sending (some c) s n → t ≤ c + 10 := by
      intro q c s n hq
      obtain hlt | hge := Nat.lt_or_ge q.val 1
      · obtain rfl : q = 0 := Fin.ext (by simpa using hlt)
        exact hf c s n (h0.symm.trans hq)
      · obtain rfl : q = 1 := Fin.ext (by have := q.isLt; simp only [Fin.isValue, Fin.val_one]; omega)
        exact hg c s n (h1.symm.trans hq)
    exact hboth

/-- Each party sends once, the second one in the second slot. -/
theorem sends_disjoint_two : ∃ M : Medium deployment2.nP,
    Runs deployment2.step deployment2.Prompt (deployment2.init 0) M ∧
    M.log = [⟨0, some 5, 5, 15⟩, ⟨1, some 100, 101, 105⟩] ∧
    ∀ a ∈ M.log, ∀ b ∈ M.log, a.party ≠ b.party → a.finish < b.start ∨ b.finish < a.start := by
  have hrun : ∃ M, Runs deployment2.step deployment2.Prompt (deployment2.init 0) M ∧
      M.log = [⟨0, some 5, 5, 15⟩, ⟨1, some 100, 101, 105⟩] := by
    refine ⟨_, .next ⟨1, 105, .finish 105⟩ (.next ⟨1, 101, .start 101⟩ (.next ⟨1, 100, .poll 100⟩
      (.next ⟨1, 20, .call⟩ (.next ⟨0, 15, .finish 15⟩ (.next ⟨0, 5, .start 5⟩
      (.next ⟨0, 5, .poll 5⟩ (.next ⟨0, 0, .call⟩ .start
      (prompt2 .idle .idle rfl rfl ?_ ?_ ?_ ?_ ?_) rfl)
      (prompt2 .waiting .idle rfl rfl ?_ ?_ ?_ ?_ ?_) rfl)
      (prompt2 (.unblocked (some 5)) .idle rfl rfl ?_ ?_ ?_ ?_ ?_) rfl)
      (prompt2 (.sending (some 5) 5 5) .idle rfl rfl ?_ ?_ ?_ ?_ ?_) rfl)
      (prompt2 .idle .idle rfl rfl ?_ ?_ ?_ ?_ ?_) rfl)
      (prompt2 .idle .waiting rfl rfl ?_ ?_ ?_ ?_ ?_) rfl)
      (prompt2 .idle (.unblocked (some 100)) rfl rfl ?_ ?_ ?_ ?_ ?_) rfl)
      (prompt2 .idle (.sending (some 100) 101 101) rfl rfl ?_ ?_ ?_ ?_ ?_) rfl, rfl⟩
    -- numbers first; then phases that are not meant, and the two clearances
    all_goals try norm_num [init]
    all_goals first
      | (intros; contradiction)
      | exact ⟨5, rfl, by norm_num⟩
      | exact ⟨100, rfl, by norm_num⟩
  obtain ⟨M, hM, hlog⟩ := hrun
  exact ⟨M, hM, hlog, (sends_disjoint deployment2 0 M hM).1⟩

end Deployment
end QSync.Net
