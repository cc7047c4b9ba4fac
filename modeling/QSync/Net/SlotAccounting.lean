import QSync.Net.SlotWaiting

/-! # The accounting of sends

`mark_post` compares slots within the cycle. `mark_post_exact_iff`: its counters tell whether a send
stayed within one occurrence of an owned slot, unless the send ends a cycle or more later in a slot of
the same number.
-/

namespace QSync.Net
set_option autoImplicit false
set_option maxHeartbeats 250000

/-- A working scheduler in the course of a run: turns of the waiting loop and sends. -/
inductive TDMAScheduler.Reachable (party : ℤ) (sched : TDMASchedule) : TDMAScheduler → Prop
  | start : Reachable party sched (.construct party true sched false)
  | poll {T : TDMAScheduler} (r : Poll) : Reachable party sched T →
      Reachable party sched (T.note_poll r)
  | post {T : TDMAScheduler} (t_pre t_post : ℕ) : Reachable party sched T →
      Reachable party sched (T.mark_post t_pre t_post)

theorem TDMAScheduler.Reachable.same {party : ℤ} {sched : TDMASchedule} {T : TDMAScheduler}
    (h : T.Reachable party sched) : T.sched_ = sched ∧
      T.owns_ = (TDMAScheduler.construct party true sched false).owns_ ∧
      T.disabled_ = (TDMAScheduler.construct party true sched false).disabled_ := by
  induction h with
  | start => exact ⟨TDMAScheduler.construct_sched_ _ _ _ _, rfl, rfl⟩
  | @poll T r _ ih =>
    obtain ⟨h1, h2, h3⟩ := T.note_poll_same r
    rwa [h1, h2, h3]
  | @post T t_pre t_post _ ih =>
    obtain ⟨h1, h2, h3⟩ := T.mark_post_same t_pre t_post
    rwa [h1, h2, h3]

def bump (n : ℕ) : ℕ := (n + 1) % 2 ^ 64

theorem bump_ne (n : ℕ) : bump n ≠ n := by
  unfold bump
  omega

/-- `mark_post` counts a send from `t_pre` to `t_post` as in-slot when all of it lies in one occurrence
of a slot of the party, and as a boundary span when it crosses the start of a slot. -/
def TDMAScheduler.CountsExactly (T : TDMAScheduler) (party : ℤ) (t_pre t_post : ℕ) : Prop :=
  let slot_ns := T.sched_.slot_ns
  -- the remainder by a cycle of zero traps
  T.cycle ≠ 0 ∧
  (T.mark_post t_pre t_post).in_slot_sends_ =
    (if t_pre / slot_ns = t_post / slot_ns ∧ T.sched_.Owned party (t_pre / slot_ns) then
      bump T.in_slot_sends_ else T.in_slot_sends_) ∧
  (T.mark_post t_pre t_post).boundary_spans_ =
    if t_pre / slot_ns ≠ t_post / slot_ns then bump T.boundary_spans_ else T.boundary_spans_

section Counts
variable {T : TDMAScheduler}

theorem mark_post_counts (hd : T.disabled_ = false) (t_pre t_post : ℕ) :
    (T.mark_post t_pre t_post).in_slot_sends_ =
      (if T.slot_of t_pre = T.slot_of t_post ∧ T.owns_slot (T.slot_of t_pre) = true then
        bump T.in_slot_sends_ else T.in_slot_sends_) ∧
    (T.mark_post t_pre t_post).boundary_spans_ =
      if T.slot_of t_pre ≠ T.slot_of t_post then bump T.boundary_spans_ else T.boundary_spans_ := by
  simp only [TDMAScheduler.mark_post, hd, Bool.false_eq_true, if_false, TDMAScheduler.owns_slot]
  by_cases hs : T.slot_of t_pre = T.slot_of t_post
  · simp only [hs]
    cases T.owns_.getD (T.slot_of t_post) false <;> simp [bump]
  · simp [hs, bump]

theorem ite_bump_iff (P Q : Prop) [Decidable P] [Decidable Q] (n : ℕ) :
    ((if P then bump n else n) = if Q then bump n else n) ↔ (P ↔ Q) := by
  have hne := bump_ne n
  by_cases hP : P <;> by_cases hQ : Q <;> simp [hP, hQ, hne, hne.symm]

theorem countsExactly_iff (hd : T.disabled_ = false) (party : ℤ) (t_pre t_post : ℕ) :
    T.CountsExactly party t_pre t_post ↔ T.cycle ≠ 0 ∧
      (T.slot_of t_pre = T.slot_of t_post ↔
        t_pre / T.sched_.slot_ns = t_post / T.sched_.slot_ns) ∧
      (t_pre / T.sched_.slot_ns = t_post / T.sched_.slot_ns →
        (T.owns_slot (T.slot_of t_pre) = true ↔ T.sched_.Owned party (t_pre / T.sched_.slot_ns))) := by
  obtain ⟨hin, hspan⟩ := mark_post_counts hd t_pre t_post
  rw [TDMAScheduler.CountsExactly, hin, hspan, ite_bump_iff, ite_bump_iff, not_iff_not]
  tauto

theorem slot_of_eq (h : T.sched_.Exact) (t_ns : ℕ) :
    T.slot_of t_ns = t_ns / T.sched_.slot_ns % T.sched_.slot_owners.length := h.cur_eq t_ns

end Counts

/-- When the counters are exact: in terms of the slots `mark_post` looks at, and for a schedule within
the machine's integers in terms of the readings. -/
theorem mark_post_exact_iff (sched : TDMASchedule) (party : ℤ) (hok : sched.ok = true)
    (T : TDMAScheduler) (hT : T.Reachable party sched) (t_pre t_post : ℕ) :
    (T.CountsExactly party t_pre t_post ↔ T.cycle ≠ 0 ∧
      (T.slot_of t_pre = T.slot_of t_post ↔ t_pre / sched.slot_ns = t_post / sched.slot_ns) ∧
      (t_pre / sched.slot_ns = t_post / sched.slot_ns →
        (T.owns_slot (T.slot_of t_pre) = true ↔ sched.Owned party (t_pre / sched.slot_ns)))) ∧
    (sched.slot_owners.length ≤ 2 ^ 32 → sched.slot_ns * sched.slot_owners.length < 2 ^ 64 →
      (T.CountsExactly party t_pre t_post ↔
        t_pre / sched.slot_ns = t_post / sched.slot_ns ∨
          t_pre / sched.slot_ns % sched.slot_owners.length ≠
            t_post / sched.slot_ns % sched.slot_owners.length)) := by
  obtain ⟨hsched, howns, hdis⟩ := hT.same
  have hd : T.disabled_ = false := by
    rw [hdis, TDMAScheduler.construct, if_pos hok]
    rfl
  have hgeneral := countsExactly_iff hd party t_pre t_post
  rw [hsched] at hgeneral
  refine ⟨hgeneral, fun hnarrow hshort => hgeneral.trans ?_⟩
  obtain ⟨hpos, hslots⟩ := TDMASchedule.ok_iff.mp hok
  have hexact : sched.Exact := ⟨hpos, hslots, hnarrow, hshort⟩
  have hexact' : T.sched_.Exact := hsched.symm ▸ hexact
  have hcycle : T.cycle ≠ 0 := by
    rw [hexact'.cycle_eq, hsched]
    exact (Nat.mul_pos hpos hslots).ne'
  have hslot : ∀ t, T.slot_of t = t / sched.slot_ns % sched.slot_owners.length := fun t => by
    rw [slot_of_eq hexact', hsched]
  have hown : T.owns_slot (T.slot_of t_pre) = true ↔ sched.Owned party (t_pre / sched.slot_ns) := by
    rw [hslot, TDMAScheduler.owns_slot, howns]
    exact owns_slot_construct true false hok _
  constructor
  · rintro ⟨-, h, -⟩
    rw [hslot, hslot] at h
    exact or_iff_not_imp_right.mpr fun hne => h.mp (not_not.mp hne)
  · intro h
    refine ⟨hcycle, ?_, fun _ => hown⟩
    rw [hslot, hslot]
    exact ⟨fun he => h.resolve_right (not_not.mpr he), fun he => by rw [he]⟩

/-- A send of two parties' schedule that ends in the next slot. -/
theorem mark_post_exact_two :
    let T := TDMAScheduler.construct 0 true (.round_robin 2 10000000) false
    (T.CountsExactly 0 5 10000005 ↔ T.cycle ≠ 0 ∧
      (T.slot_of 5 = T.slot_of 10000005 ↔
        5 / (TDMASchedule.round_robin 2 10000000).slot_ns =
          10000005 / (TDMASchedule.round_robin 2 10000000).slot_ns) ∧
      (5 / (TDMASchedule.round_robin 2 10000000).slot_ns =
          10000005 / (TDMASchedule.round_robin 2 10000000).slot_ns →
        (T.owns_slot (T.slot_of 5) = true ↔ (TDMASchedule.round_robin 2 10000000).Owned 0
          (5 / (TDMASchedule.round_robin 2 10000000).slot_ns)))) ∧
    ((TDMASchedule.round_robin 2 10000000).slot_owners.length ≤ 2 ^ 32 →
      (TDMASchedule.round_robin 2 10000000).slot_ns *
        (TDMASchedule.round_robin 2 10000000).slot_owners.length < 2 ^ 64 →
      (T.CountsExactly 0 5 10000005 ↔
        5 / (TDMASchedule.round_robin 2 10000000).slot_ns =
            10000005 / (TDMASchedule.round_robin 2 10000000).slot_ns ∨
          5 / (TDMASchedule.round_robin 2 10000000).slot_ns %
              (TDMASchedule.round_robin 2 10000000).slot_owners.length ≠
            10000005 / (TDMASchedule.round_robin 2 10000000).slot_ns %
              (TDMASchedule.round_robin 2 10000000).slot_owners.length)) :=
  mark_post_exact_iff (.round_robin 2 10000000) 0 (by decide) _ .start 5 10000005

/-- A send that takes a whole cycle is counted as in-slot. -/
theorem mark_post_whole_cycle :
    ¬ (TDMAScheduler.construct 0 true (.round_robin 2 10000000) false).CountsExactly 0 5 20000005 := by
  rintro ⟨-, h, -⟩
  revert h
  decide

end QSync.Net
