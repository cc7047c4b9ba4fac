import Mathlib.Data.List.GetD
import Mathlib.Order.Bounds.Basic
import QSync.Net.TdmaScheduler

/-! # Waiting for the next owned slot

Slots follow each other without end: occurrence `j` of a slot begins at `j * slot_ns` of the clock.
`poll_sleep_spec` says that a turn of the loop that does not return sleeps to the next occurrence the
party owns, and `wait_for_slot_returns_iff` when waiting ends, under a clock that nothing but the
sleeps advances and that wraps at 64 bits.
-/

namespace QSync.Net
set_option autoImplicit false
set_option maxHeartbeats 250000

/-- Occurrence `j` of a slot belongs to `party`. -/
def TDMASchedule.Owned (s : TDMASchedule) (party : ℤ) (j : ℕ) : Prop :=
  party ∈ s.slot_owners.getD (j % s.slot_owners.length) []

instance (s : TDMASchedule) (party : ℤ) (j : ℕ) : Decidable (s.Owned party j) :=
  inferInstanceAs (Decidable (party ∈ s.slot_owners.getD _ []))

/-- At the reading `t` the party owns the slot, and more than the guard is left of it. -/
def TDMASchedule.Sendable (s : TDMASchedule) (party : ℤ) (guard_ns t : ℕ) : Prop :=
  s.Owned party (t / s.slot_ns) ∧ t % s.slot_ns + guard_ns < s.slot_ns

/-- The times after `t` at which a slot of the party begins. -/
def TDMASchedule.startsAfter (s : TDMASchedule) (party : ℤ) (t : ℕ) : Set ℕ :=
  {u | t < u ∧ s.slot_ns ∣ u ∧ s.Owned party (u / s.slot_ns)}

/-- What `sleep_for` takes: nanoseconds are signed, and it returns at once from a negative number. -/
def slept (delta_ns : ℕ) : ℕ := if delta_ns < 2 ^ 63 then delta_ns else 0

/-- `wait_for_slot`, called when the clock shows `now` and allowed at most `sleeps` sleeps, each of
which advances the 64-bit clock by what is slept: the reading on which it returns. -/
def TDMAScheduler.wait_for_slot (T : TDMAScheduler) (guard_ns : ℕ) (sleeps now : ℕ) : Option ℕ :=
  if T.disabled_ then some now
  -- the remainder by a cycle of zero traps
  else if T.cycle = 0 then none
  else match T.poll guard_ns now with
    | .in_slot | .no_slot => some now
    | .sleep delta_ns => match sleeps with
      | 0 => none
      | sleeps + 1 => T.wait_for_slot guard_ns sleeps ((now + slept delta_ns) % 2 ^ 64)

/-! ## The search for the next slot -/

section Search
variable {T : TDMAScheduler}

theorem sub64_mod {a b : ℕ} (hba : b ≤ a) (hsub : a - b < 2 ^ 64) :
    sub64 (a % 2 ^ 64) b = a - b := by
  unfold sub64
  omega

theorem next_owned_spec (h : T.sched_.Exact) {i : ℕ} (hi : i < T.sched_.slot_owners.length)
    (hown : T.owns_slot i = true) (j : ℕ) : ∃ k, 1 ≤ k ∧ k ≤ T.sched_.slot_owners.length ∧
      T.next_owned (j % T.sched_.slot_owners.length) = some k ∧
      T.owns_slot ((j + k) % T.sched_.slot_owners.length) = true ∧
      ∀ k', 1 ≤ k' → k' < k → T.owns_slot ((j + k') % T.sched_.slot_owners.length) = false := by
  set n := T.sched_.slot_owners.length with hn
  have hslot : ∀ k, (j % n + k) % n % 2 ^ 32 = (j + k) % n := fun k => by
    rw [Nat.mod_add_mod]
    exact Nat.mod_eq_of_lt ((Nat.mod_lt _ h.slots).trans_le h.narrow)
  have hnext : T.next_owned (j % n) =
      (List.range' 1 n).find? fun k => T.owns_slot ((j + k) % n) := by
    simp only [TDMAScheduler.next_owned, ← hn, hslot]
  rw [hnext]
  cases hfind : (List.range' 1 n).find? fun k => T.owns_slot ((j + k) % n) with
  | none =>
    -- slot `i` comes within one cycle
    have hall := List.find?_range'_eq_none.mp hfind
    have hpos : 0 < n := h.slots
    have hj := Nat.mod_lt j hpos
    have hk : ∃ k, 1 ≤ k ∧ k ≤ n ∧ (j + k) % n = i := by
      by_cases hlt : j % n < i
      · refine ⟨i - j % n, by omega, by omega, ?_⟩
        rw [Nat.add_mod, Nat.mod_eq_of_lt (by omega : i - j % n < n), Nat.add_sub_cancel' hlt.le,
          Nat.mod_eq_of_lt hi]
      · refine ⟨n + i - j % n, by omega, by omega, ?_⟩
        have hsum : j % n + (n + i - j % n) = i + n := by omega
        rw [← Nat.mod_add_mod, hsum, Nat.add_mod_right, Nat.mod_eq_of_lt hi]
    obtain ⟨k, h1, hkn, hki⟩ := hk
    have := hall k h1 (by omega)
    rw [hki, hown] at this
    cases this
  | some k =>
    obtain ⟨hk, hmem, hmin⟩ := List.find?_range'_eq_some.mp hfind
    obtain ⟨h1, hkn⟩ := List.mem_range'_1.mp hmem
    refine ⟨k, h1, by omega, rfl, hk, fun k' h1' hlt => ?_⟩
    exact Bool.eq_false_iff.mpr fun ht => by simpa [ht] using hmin k' h1' hlt

theorem poll_sleep_spec (h : T.sched_.Exact) {i : ℕ} (hi : i < T.sched_.slot_owners.length)
    (hown : T.owns_slot i = true) {guard_ns now : ℕ} (hwait : T.poll guard_ns now ≠ .in_slot) :
    ∃ k, 1 ≤ k ∧ k ≤ T.sched_.slot_owners.length ∧
      T.poll guard_ns now = .sleep (k * T.sched_.slot_ns - now % T.sched_.slot_ns) ∧
      T.owns_slot ((now / T.sched_.slot_ns + k) % T.sched_.slot_owners.length) = true ∧
      ∀ k', 1 ≤ k' → k' < k →
        T.owns_slot ((now / T.sched_.slot_ns + k') % T.sched_.slot_owners.length) = false := by
  obtain ⟨k, h1, hkn, hnext, hk, hmin⟩ := next_owned_spec h hi hown (now / T.sched_.slot_ns)
  refine ⟨k, h1, hkn, ?_, hk, hmin⟩
  set slot := T.sched_.slot_ns with hslot
  set n := T.sched_.slot_owners.length with hn
  have hin : now % slot < slot := Nat.mod_lt _ h.pos
  have hpos := h.pos_eq now
  rw [← hslot, ← hn] at hpos
  have hk1 : slot ≤ k * slot := Nat.le_mul_of_pos_left slot h1
  have hkle : k * slot ≤ slot * n := by
    rw [Nat.mul_comm]
    exact Nat.mul_le_mul_left slot hkn
  have hshort := h.short
  rw [← hslot, ← hn] at hshort
  have hdist : (now / slot % n + k) * slot - now % T.cycle = k * slot - now % slot := by
    rw [hpos, Nat.add_mul]
    omega
  have hle : now % T.cycle ≤ (now / slot % n + k) * slot := by
    rw [hpos, Nat.add_mul]
    omega
  have hdelta : T.delta_ns (now / slot % n) (now % T.cycle) = k * slot - now % slot := by
    simp only [TDMAScheduler.delta_ns, hnext, ← hslot]
    rw [sub64_mod hle (by rw [hdist]; omega), hdist]
  have hcur := h.cur_eq now
  rw [← hslot, ← hn] at hcur
  unfold TDMAScheduler.poll at hwait ⊢
  dsimp only at hwait ⊢
  rw [← hslot, hcur] at hwait ⊢
  split at hwait
  · exact absurd rfl hwait
  · next hc => rw [if_neg hc, hdelta, if_neg (by omega)]

end Search

/-! ## A scheduler with its schedule -/

section Party
variable {sched : TDMASchedule} {party : ℤ} {ts_ok disabled : Bool}

theorem TDMASchedule.ok_iff : sched.ok = true ↔ 0 < sched.slot_ns ∧ 0 < sched.slot_owners.length := by
  simp [TDMASchedule.ok, List.length_pos_iff]

variable (ts_ok disabled) in
theorem owns_slot_construct (hok : sched.ok = true) (j : ℕ) :
    (TDMAScheduler.construct party ts_ok sched disabled).owns_slot (j % sched.slot_owners.length) =
      true ↔ sched.Owned party j := by
  have hlt : j % sched.slot_owners.length < sched.slot_owners.length :=
    Nat.mod_lt _ (TDMASchedule.ok_iff.mp hok).2
  rw [TDMAScheduler.construct, if_pos hok, TDMAScheduler.owns_slot, TDMASchedule.Owned,
    List.getD_eq_getElem _ _ (by simpa using hlt), List.getD_eq_getElem _ _ hlt]
  simp

theorem exists_owned (howner : ∃ owners ∈ sched.slot_owners, party ∈ owners) :
    ∃ i < sched.slot_owners.length, sched.Owned party i := by
  obtain ⟨owners, hmem, hparty⟩ := howner
  obtain ⟨i, hi, rfl⟩ := List.mem_iff_getElem.mp hmem
  refine ⟨i, hi, ?_⟩
  rwa [TDMASchedule.Owned, Nat.mod_eq_of_lt hi, List.getD_eq_getElem _ _ hi]

/-- From any slot on, the party owns one within a cycle. -/
theorem exists_next_owned (h : sched.Exact) (howner : ∃ owners ∈ sched.slot_owners, party ∈ owners)
    (j : ℕ) : ∃ k, 1 ≤ k ∧ k ≤ sched.slot_owners.length ∧ sched.Owned party (j + k) ∧
      ∀ k', 1 ≤ k' → k' < k → ¬ sched.Owned party (j + k') := by
  have hok : sched.ok = true := TDMASchedule.ok_iff.mpr ⟨h.pos, h.slots⟩
  have howns : ∀ j, (TDMAScheduler.construct party true sched false).owns_slot
      (j % sched.slot_owners.length) = true ↔ sched.Owned party j := owns_slot_construct true false hok
  set T := TDMAScheduler.construct party true sched false with hT
  have hsched : T.sched_ = sched := TDMAScheduler.construct_sched_ _ _ _ _
  obtain ⟨i, hi, hown⟩ := exists_owned howner
  have hown' := (howns i).mpr hown
  rw [Nat.mod_eq_of_lt hi] at hown'
  obtain ⟨k, h1, hkn, -, hk, hmin⟩ := next_owned_spec (hsched.symm ▸ h) (hsched.symm ▸ hi) hown' j
  rw [hsched] at hkn hk hmin
  refine ⟨k, h1, hkn, (howns _).mp hk, fun k' h1' hlt ho => ?_⟩
  exact absurd ((howns _).mpr ho) (Bool.eq_false_iff.mp (hmin k' h1' hlt))

variable (ts_ok disabled) in
theorem poll_construct (h : sched.Exact) (howner : ∃ owners ∈ sched.slot_owners, party ∈ owners)
    {guard_ns now : ℕ}
    (hwait : (TDMAScheduler.construct party ts_ok sched disabled).poll guard_ns now ≠ .in_slot) :
    ∃ k, 1 ≤ k ∧ k ≤ sched.slot_owners.length ∧
      (TDMAScheduler.construct party ts_ok sched disabled).poll guard_ns now =
        .sleep (k * sched.slot_ns - now % sched.slot_ns) ∧
      sched.Owned party (now / sched.slot_ns + k) ∧
      ∀ k', 1 ≤ k' → k' < k → ¬ sched.Owned party (now / sched.slot_ns + k') := by
  have hok : sched.ok = true := TDMASchedule.ok_iff.mpr ⟨h.pos, h.slots⟩
  have howns : ∀ j, (TDMAScheduler.construct party ts_ok sched disabled).owns_slot
      (j % sched.slot_owners.length) = true ↔ sched.Owned party j :=
    owns_slot_construct ts_ok disabled hok
  set T := TDMAScheduler.construct party ts_ok sched disabled with hT
  have hsched : T.sched_ = sched := TDMAScheduler.construct_sched_ _ _ _ _
  obtain ⟨i, hi, hown⟩ := exists_owned howner
  have hown' := (howns i).mpr hown
  rw [Nat.mod_eq_of_lt hi] at hown'
  obtain ⟨k, h1, hkn, hpoll, hk, hmin⟩ :=
    poll_sleep_spec (hsched.symm ▸ h) (hsched.symm ▸ hi) hown' hwait
  rw [hsched] at hkn hpoll hk hmin
  refine ⟨k, h1, hkn, hpoll, (howns _).mp hk, fun k' h1' hlt ho => ?_⟩
  exact absurd ((howns _).mpr ho) (Bool.eq_false_iff.mp (hmin k' h1' hlt))

end Party

/-- When `wait_for_slot` does not return at once, it sleeps to the start of the next occurrence of a
slot the party owns. -/
theorem sleep_to_next_owned (sched : TDMASchedule) (party : ℤ) (ts_ok disabled : Bool)
    (hpos : 0 < sched.slot_ns) (howner : ∃ owners ∈ sched.slot_owners, party ∈ owners)
    (hnarrow : sched.slot_owners.length ≤ 2 ^ 32)
    (hshort : 2 * sched.slot_ns * sched.slot_owners.length < 2 ^ 64) (guard_ns now : ℕ)
    (hwait : (TDMAScheduler.construct party ts_ok sched disabled).poll guard_ns now ≠ .in_slot) :
    ∃ delta_ns, (TDMAScheduler.construct party ts_ok sched disabled).poll guard_ns now =
        .sleep delta_ns ∧ 0 < delta_ns ∧
      (sched.slot_ns ∣ now + delta_ns ∧ sched.Owned party ((now + delta_ns) / sched.slot_ns)) ∧
      ∀ t, now < t → t < now + delta_ns → sched.slot_ns ∣ t →
        ¬ sched.Owned party (t / sched.slot_ns) := by
  have hslots : 0 < sched.slot_owners.length := by
    obtain ⟨owners, hmem, -⟩ := howner
    exact List.length_pos_of_mem hmem
  have hexact : sched.Exact := ⟨hpos, hslots, hnarrow, by rw [Nat.mul_assoc] at hshort; omega⟩
  obtain ⟨k, h1, -, hpoll, hown, hmin⟩ := poll_construct ts_ok disabled hexact howner hwait
  have hin := Nat.mod_lt now hpos
  have hk : sched.slot_ns ≤ k * sched.slot_ns := Nat.le_mul_of_pos_left _ h1
  have hdiv := Nat.div_add_mod now sched.slot_ns
  have hnext : now + (k * sched.slot_ns - now % sched.slot_ns) =
      (now / sched.slot_ns + k) * sched.slot_ns := by
    rw [Nat.add_mul, Nat.mul_comm (now / sched.slot_ns)]
    omega
  refine ⟨_, hpoll, by omega, ⟨hnext ▸ Nat.dvd_mul_left _ _, ?_⟩, fun t hlow hhigh hdvd => ?_⟩
  · rw [hnext, Nat.mul_div_cancel _ hpos]
    exact hown
  · obtain ⟨j, rfl⟩ := hdvd
    rw [Nat.mul_div_cancel_left _ hpos]
    rw [hnext, Nat.mul_comm _ sched.slot_ns] at hhigh
    have hjk : j < now / sched.slot_ns + k := Nat.lt_of_mul_lt_mul_left hhigh
    have hj : now / sched.slot_ns < j := (Nat.div_lt_iff_lt_mul hpos).mpr (by rwa [Nat.mul_comm])
    have hmin' := hmin (j - now / sched.slot_ns) (by omega) (by omega)
    rwa [Nat.add_sub_cancel' hj.le] at hmin'

/-- The second of three parties waits in the first slot. -/
theorem sleep_to_next_owned_round_robin :
    ∃ delta_ns, (TDMAScheduler.construct 1 true (.round_robin 3 10000000) false).poll 1000000 5 =
        .sleep delta_ns ∧ 0 < delta_ns ∧
      ((TDMASchedule.round_robin 3 10000000).slot_ns ∣ 5 + delta_ns ∧
        (TDMASchedule.round_robin 3 10000000).Owned 1
          ((5 + delta_ns) / (TDMASchedule.round_robin 3 10000000).slot_ns)) ∧
      ∀ t, 5 < t → t < 5 + delta_ns → (TDMASchedule.round_robin 3 10000000).slot_ns ∣ t →
        ¬ (TDMASchedule.round_robin 3 10000000).Owned 1
          (t / (TDMASchedule.round_robin 3 10000000).slot_ns) :=
  sleep_to_next_owned (.round_robin 3 10000000) 1 true false (by decide) ⟨[1], by decide, by decide⟩
    (by decide) (by decide) 1000000 5 (by decide)

/-- `m + 2` slots of one nanosecond, of which party 1 owns the second. -/
def secondOf (m : ℕ) : TDMASchedule := ⟨1, [] :: [1] :: List.replicate m []⟩

theorem secondOf_length (m : ℕ) : (secondOf m).slot_owners.length = m + 2 := by
  simp [secondOf]

theorem secondOf_owned (m j : ℕ) : (secondOf m).Owned 1 j ↔ j % (m + 2) = 1 := by
  rw [TDMASchedule.Owned, secondOf_length]
  generalize j % (m + 2) = i
  match i with
  | 0 => simp [secondOf]
  | 1 => simp [secondOf]
  | i + 2 =>
    have hnone : (secondOf m).slot_owners.getD (i + 2) [] = [] := by
      rcases Nat.lt_or_ge i m with h | h <;> simp [secondOf, List.getD_eq_getElem?_getD, h]
    rw [hnone]
    simp

/-- With one slot more than 32 bits can number, the last slot is taken for the first and the loop
sleeps to a time at which no owned slot begins. -/
theorem sleep_past_last_slot :
    ∃ delta_ns, (TDMAScheduler.construct 1 true (secondOf (2 ^ 32 - 1)) false).poll 0 (2 ^ 32) =
        .sleep delta_ns ∧
      ¬ (secondOf (2 ^ 32 - 1)).Owned 1
        ((2 ^ 32 + delta_ns) / (secondOf (2 ^ 32 - 1)).slot_ns) := by
  obtain ⟨m, hm⟩ : ∃ m, m = 2 ^ 32 - 1 := ⟨_, rfl⟩
  rw [← hm]
  have hok : (secondOf m).ok = true := rfl
  have howns : ∀ j, (TDMAScheduler.construct 1 true (secondOf m) false).owns_slot
      (j % (secondOf m).slot_owners.length) = true ↔ (secondOf m).Owned 1 j :=
    owns_slot_construct true false hok
  set T := TDMAScheduler.construct 1 true (secondOf m) false with hT
  have hsched : T.sched_ = secondOf m := TDMAScheduler.construct_sched_ _ _ _ _
  have hslot : T.sched_.slot_ns = 1 := by rw [hsched]; rfl
  have hlen : T.sched_.slot_owners.length = 2 ^ 32 + 1 := by rw [hsched, secondOf_length]; omega
  have hcycle : T.cycle = 2 ^ 32 + 1 := by rw [TDMAScheduler.cycle, hslot, hlen]; rfl
  have hzero : T.owns_slot 0 = false := Bool.eq_false_iff.mpr fun h => by
    have := (secondOf_owned m 0).mp ((howns 0).mp (by rwa [Nat.zero_mod]))
    rw [Nat.zero_mod] at this
    cases this
  have hone : T.owns_slot 1 = true := by
    have hmod : 1 % (secondOf m).slot_owners.length = 1 := by
      rw [secondOf_length]
      exact Nat.mod_eq_of_lt (by omega)
    have := (howns 1).mpr ((secondOf_owned m 1).mpr (Nat.mod_eq_of_lt (by omega)))
    rwa [hmod] at this
  have hnext : T.next_owned 0 = some 1 := by
    rw [TDMAScheduler.next_owned, hlen, List.range'_succ]
    exact List.find?_cons_of_pos hone
  have hdelta : T.delta_ns 0 (2 ^ 32) = 2 ^ 64 + 1 - 2 ^ 32 := by
    rw [TDMAScheduler.delta_ns, hnext, hslot]
    rfl
  refine ⟨2 ^ 64 + 1 - 2 ^ 32, ?_, fun h => ?_⟩
  · have hpos : 2 ^ 32 % T.cycle = 2 ^ 32 := by rw [hcycle]; rfl
    have hcur : 2 ^ 32 / 1 % 2 ^ 32 = 0 := rfl
    simp only [TDMAScheduler.poll, hslot, hpos, hcur, hzero, hdelta, Bool.false_eq_true, false_and,
      if_false]
    rfl
  · have := (secondOf_owned m _).mp h
    change (2 ^ 32 + (2 ^ 64 + 1 - 2 ^ 32)) / 1 % (m + 2) = 1 at this
    rw [hm] at this
    revert this
    decide

/-! ## Waiting ends -/

section Waiting
variable {T : TDMAScheduler}

theorem poll_ne_in_slot (h : T.sched_.Exact) {guard_ns : ℕ} (hguard : T.sched_.slot_ns ≤ guard_ns)
    (now : ℕ) : T.poll guard_ns now ≠ .in_slot := fun hp => by
  have := ((TDMAScheduler.poll_in_slot_iff h guard_ns now).mp hp).2
  omega

theorem wait_for_slot_of_in_slot {guard_ns now : ℕ} (hd : T.disabled_ = false) (hcycle : T.cycle ≠ 0)
    (hp : T.poll guard_ns now = .in_slot) (sleeps : ℕ) :
    T.wait_for_slot guard_ns sleeps now = some now := by
  unfold TDMAScheduler.wait_for_slot
  rw [if_neg (by simp [hd]), if_neg hcycle, hp]

theorem wait_for_slot_of_sleep {guard_ns now delta_ns : ℕ} (hd : T.disabled_ = false)
    (hcycle : T.cycle ≠ 0) (hp : T.poll guard_ns now = .sleep delta_ns) (sleeps : ℕ) :
    T.wait_for_slot guard_ns (sleeps + 1) now =
      T.wait_for_slot guard_ns sleeps ((now + slept delta_ns) % 2 ^ 64) ∧
    T.wait_for_slot guard_ns 0 now = none := by
  refine ⟨?_, ?_⟩
  · rw [TDMAScheduler.wait_for_slot, if_neg (by simp [hd]), if_neg hcycle, hp]
  · rw [TDMAScheduler.wait_for_slot, if_neg (by simp [hd]), if_neg hcycle, hp]

theorem wait_for_slot_once {guard_ns now delta_ns : ℕ} (hd : T.disabled_ = false) (hcycle : T.cycle ≠ 0)
    (hp : T.poll guard_ns now = .sleep delta_ns)
    (hagain : ∀ t, T.poll guard_ns t ≠ .in_slot → ∃ delta_ns, T.poll guard_ns t = .sleep delta_ns) :
    (∃ t, T.wait_for_slot guard_ns 1 now = some t) ↔
      T.poll guard_ns ((now + slept delta_ns) % 2 ^ 64) = .in_slot := by
  rw [(wait_for_slot_of_sleep hd hcycle hp 0).1]
  constructor
  · rintro ⟨t, ht⟩
    by_contra hnot
    obtain ⟨delta_ns', hp'⟩ := hagain _ hnot
    rw [(wait_for_slot_of_sleep hd hcycle hp' 0).2] at ht
    cases ht
  · intro hin
    exact ⟨_, wait_for_slot_of_in_slot hd hcycle hin 0⟩

/-- When no reading lets the party send, sleeping does not help. -/
theorem wait_for_slot_never {guard_ns : ℕ} (hd : T.disabled_ = false) (hcycle : T.cycle ≠ 0)
    (hsleep : ∀ t, ∃ delta_ns, T.poll guard_ns t = .sleep delta_ns) (sleeps now : ℕ) :
    T.wait_for_slot guard_ns sleeps now = none := by
  induction sleeps generalizing now with
  | zero =>
    obtain ⟨delta_ns, hp⟩ := hsleep now
    exact (wait_for_slot_of_sleep hd hcycle hp 0).2
  | succ sleeps ih =>
    obtain ⟨delta_ns, hp⟩ := hsleep now
    rw [(wait_for_slot_of_sleep hd hcycle hp sleeps).1]
    exact ih _

end Waiting

section Returns
variable {sched : TDMASchedule} {party : ℤ} {guard_ns start next : ℕ}

theorem TDMASchedule.Sendable.guard_lt {t : ℕ} (h : sched.Sendable party guard_ns t) :
    guard_ns < sched.slot_ns := (Nat.le_add_left _ _).trans_lt h.2

/-- A slot begins with all of it left. -/
theorem sendable_of_start {t : ℕ} (hdvd : sched.slot_ns ∣ t)
    (hown : sched.Owned party (t / sched.slot_ns)) (hguard : guard_ns < sched.slot_ns) :
    sched.Sendable party guard_ns t := by
  refine ⟨hown, ?_⟩
  rw [Nat.mod_eq_zero_of_dvd hdvd, Nat.zero_add]
  exact hguard

/-- `k` slots on from the current one, when it is the first that is owned. -/
theorem isLeast_startsAfter (hpos : 0 < sched.slot_ns) {k : ℕ} (h1 : 1 ≤ k)
    (hown : sched.Owned party (start / sched.slot_ns + k))
    (hmin : ∀ k', 1 ≤ k' → k' < k → ¬ sched.Owned party (start / sched.slot_ns + k')) :
    IsLeast (sched.startsAfter party start) ((start / sched.slot_ns + k) * sched.slot_ns) := by
  constructor
  · refine ⟨?_, Nat.dvd_mul_left _ _, ?_⟩
    · exact (Nat.div_lt_iff_lt_mul hpos).mp (by omega)
    · rw [Nat.mul_div_cancel _ hpos]
      exact hown
  · rintro u ⟨hlow, ⟨j, rfl⟩, hj⟩
    rw [Nat.mul_div_cancel_left _ hpos] at hj
    rw [Nat.mul_comm]
    apply Nat.mul_le_mul_left
    by_contra hlt
    have hlow' : start / sched.slot_ns < j := (Nat.div_lt_iff_lt_mul hpos).mpr (by rwa [Nat.mul_comm])
    have := hmin (j - start / sched.slot_ns) (by omega) (by omega)
    rw [Nat.add_sub_cancel' hlow'.le] at this
    exact this hj

/-- The next slot of the party begins within a cycle. -/
theorem exists_isLeast_startsAfter (h : sched.Exact)
    (howner : ∃ owners ∈ sched.slot_owners, party ∈ owners) (start : ℕ) :
    ∃ next, IsLeast (sched.startsAfter party start) next ∧
      next ≤ start + sched.slot_ns * sched.slot_owners.length := by
  obtain ⟨k, h1, hkn, hown, hmin⟩ := exists_next_owned h howner (start / sched.slot_ns)
  refine ⟨_, isLeast_startsAfter h.pos h1 hown hmin, ?_⟩
  rw [Nat.add_mul, Nat.mul_comm sched.slot_ns]
  exact Nat.add_le_add (Nat.div_mul_le_self _ _) (Nat.mul_le_mul_right _ hkn)

/-- As long as the clock does not wrap before the next slot, the guard decides. -/
theorem sendable_iff_of_no_wrap (h : sched.Exact) (hnext : IsLeast (sched.startsAfter party start) next)
    (hle : next ≤ start + sched.slot_ns * sched.slot_owners.length)
    (hwrap : start + sched.slot_ns * sched.slot_owners.length ≤ 2 ^ 64) :
    sched.Sendable party guard_ns start ∨ sched.Sendable party guard_ns (next % 2 ^ 64) ↔
      guard_ns < sched.slot_ns := by
  obtain ⟨-, hdvd, hown⟩ := hnext.1
  constructor
  · rintro (hs | hs)
    · exact hs.guard_lt
    · exact hs.guard_lt
  · intro hguard
    rcases hle.eq_or_lt with hfull | hlt
    · -- a whole cycle to go: the slot that begins now is the party's
      left
      have hdvd' : sched.slot_ns ∣ start :=
        (Nat.dvd_add_left (Nat.dvd_mul_right _ _)).mp (hfull ▸ hdvd)
      rw [hfull, Nat.add_mul_div_left _ _ h.pos, TDMASchedule.Owned, Nat.add_mod_right] at hown
      exact sendable_of_start hdvd' hown hguard
    · right
      rw [Nat.mod_eq_of_lt (hlt.trans_le hwrap)]
      exact sendable_of_start hdvd hown hguard

variable (ts_ok disabled : Bool) in
/-- With the guard shorter than a slot, one sleep lasts until the next slot of the party begins. -/
theorem poll_to_next (h : sched.Exact) (howner : ∃ owners ∈ sched.slot_owners, party ∈ owners)
    (hshort : sched.slot_ns * sched.slot_owners.length ≤ 2 ^ 63) (hguard : guard_ns < sched.slot_ns)
    (hwait : (TDMAScheduler.construct party ts_ok sched disabled).poll guard_ns start ≠ .in_slot)
    (hstart : ¬ sched.Sendable party guard_ns start)
    (hnext : IsLeast (sched.startsAfter party start) next) :
    ∃ delta_ns, (TDMAScheduler.construct party ts_ok sched disabled).poll guard_ns start =
      .sleep delta_ns ∧ start + slept delta_ns = next := by
  obtain ⟨k, h1, hkn, hsleep, hk, hmin⟩ := poll_construct ts_ok disabled h howner hwait
  refine ⟨_, hsleep, ?_⟩
  have hkth : next = (start / sched.slot_ns + k) * sched.slot_ns :=
    IsLeast.unique hnext (isLeast_startsAfter h.pos h1 hk hmin)
  have hdiv := Nat.div_add_mod start sched.slot_ns
  have hkslot : sched.slot_ns ≤ k * sched.slot_ns := Nat.le_mul_of_pos_left _ h1
  have hrem := Nat.mod_lt start h.pos
  have hkle : k * sched.slot_ns ≤ sched.slot_owners.length * sched.slot_ns :=
    Nat.mul_le_mul_right _ hkn
  rw [Nat.mul_comm] at hshort
  have hsigned : k * sched.slot_ns - start % sched.slot_ns < 2 ^ 63 := by
    by_contra hbig
    -- a sleep over the whole cycle would start where an owned slot begins
    have hkn' : k = sched.slot_owners.length :=
      le_antisymm hkn (Nat.le_of_mul_le_mul_right (by omega) h.pos)
    have hown : sched.Owned party (start / sched.slot_ns) := by
      rw [hkn', TDMASchedule.Owned, Nat.add_mod_right] at hk
      exact hk
    exact hstart ⟨hown, by omega⟩
  rw [hkth, slept, if_pos hsigned, Nat.add_mul, Nat.mul_comm (start / sched.slot_ns)]
  omega

end Returns

/-- `wait_for_slot` returns after at most one sleep exactly when the party can send at once, or at the
reading on which the next slot of the party begins. As long as the clock does not wrap within a cycle
this is when the guard is shorter than a slot; when it is not, `wait_for_slot` never returns. -/
theorem wait_for_slot_returns_iff (sched : TDMASchedule) (party : ℤ) (hok : sched.ok = true)
    (howner : ∃ owners ∈ sched.slot_owners, party ∈ owners)
    (hnarrow : sched.slot_owners.length ≤ 2 ^ 32)
    (hshort : sched.slot_ns * sched.slot_owners.length ≤ 2 ^ 63) (guard_ns start : ℕ) :
    (∃ next, IsLeast (sched.startsAfter party start) next ∧
        ((∃ t, (TDMAScheduler.construct party true sched false).wait_for_slot guard_ns 1 start =
            some t) ↔
          sched.Sendable party guard_ns start ∨ sched.Sendable party guard_ns (next % 2 ^ 64))) ∧
      (start + sched.slot_ns * sched.slot_owners.length ≤ 2 ^ 64 →
        ((∃ t, (TDMAScheduler.construct party true sched false).wait_for_slot guard_ns 1 start =
            some t) ↔ guard_ns < sched.slot_ns)) ∧
      (sched.slot_ns ≤ guard_ns → ∀ sleeps,
        (TDMAScheduler.construct party true sched false).wait_for_slot guard_ns sleeps start =
          none) := by
  obtain ⟨hpos, hslots⟩ := TDMASchedule.ok_iff.mp hok
  have hexact : sched.Exact := ⟨hpos, hslots, hnarrow, by omega⟩
  have hpoll : ∀ now, (TDMAScheduler.construct party true sched false).poll guard_ns now ≠ .in_slot → _ :=
    fun now => poll_construct true false hexact howner
  have howns : ∀ j, (TDMAScheduler.construct party true sched false).owns_slot
      (j % sched.slot_owners.length) = true ↔ sched.Owned party j := owns_slot_construct true false hok
  set T := TDMAScheduler.construct party true sched false with hT
  have hsched : T.sched_ = sched := TDMAScheduler.construct_sched_ _ _ _ _
  have hexact' : T.sched_.Exact := hsched.symm ▸ hexact
  have hd : T.disabled_ = false := by rw [hT, TDMAScheduler.construct, if_pos hok]; rfl
  have hcycle : T.cycle ≠ 0 := by
    rw [hexact'.cycle_eq, hsched]
    exact (Nat.mul_pos hpos hslots).ne'
  have hin : ∀ now, T.poll guard_ns now = .in_slot ↔ sched.Sendable party guard_ns now := by
    intro now
    rw [TDMAScheduler.poll_in_slot_iff hexact' guard_ns now, hsched, howns]
    rfl
  have hagain : ∀ t, T.poll guard_ns t ≠ .in_slot → ∃ delta_ns, T.poll guard_ns t = .sleep delta_ns :=
    fun t ht => by
      obtain ⟨k, -, -, hsleep, -⟩ := hpoll t ht
      exact ⟨_, hsleep⟩
  have hnever : sched.slot_ns ≤ guard_ns → ∀ sleeps, T.wait_for_slot guard_ns sleeps start = none :=
    fun hguard sleeps => wait_for_slot_never hd hcycle
      (fun t => hagain t (poll_ne_in_slot hexact' (hsched.symm ▸ hguard) t)) sleeps start
  obtain ⟨next, hnext, hle⟩ := exists_isLeast_startsAfter hexact howner start
  have hiff : (∃ t, T.wait_for_slot guard_ns 1 start = some t) ↔
      sched.Sendable party guard_ns start ∨ sched.Sendable party guard_ns (next % 2 ^ 64) := by
    by_cases hguard : guard_ns < sched.slot_ns
    · by_cases hp : T.poll guard_ns start = .in_slot
      · exact iff_of_true ⟨start, wait_for_slot_of_in_slot hd hcycle hp 1⟩ (.inl ((hin start).mp hp))
      have hstart : ¬ sched.Sendable party guard_ns start := fun h => hp ((hin start).mpr h)
      obtain ⟨delta_ns, hsleep, hreading⟩ :=
        poll_to_next true false hexact howner hshort hguard hp hstart hnext
      rw [wait_for_slot_once hd hcycle hsleep hagain, hin, hreading, or_iff_right hstart]
    · refine iff_of_false ?_ ?_
      · rintro ⟨t, ht⟩
        rw [hnever (Nat.le_of_not_lt hguard)] at ht
        cases ht
      · rintro (h | h)
        · exact hguard h.guard_lt
        · exact hguard h.guard_lt
  exact ⟨⟨next, hnext, hiff⟩, fun hwrap => hiff.trans (sendable_iff_of_no_wrap hexact hnext hle hwrap),
    hnever⟩

/-- Two parties with slots of 10 ms and the default guard. The second one waits for its slot, which
begins before the clock wraps. -/
theorem wait_for_slot_returns_two :
    (∃ next, IsLeast ((TDMASchedule.round_robin 2 10000000).startsAfter 1 5) next ∧
        ((∃ t, (TDMAScheduler.construct 1 true (.round_robin 2 10000000) false).wait_for_slot
            1000000 1 5 = some t) ↔
          (TDMASchedule.round_robin 2 10000000).Sendable 1 1000000 5 ∨
            (TDMASchedule.round_robin 2 10000000).Sendable 1 1000000 (next % 2 ^ 64))) ∧
      (5 + (TDMASchedule.round_robin 2 10000000).slot_ns *
          (TDMASchedule.round_robin 2 10000000).slot_owners.length ≤ 2 ^ 64 →
        ((∃ t, (TDMAScheduler.construct 1 true (.round_robin 2 10000000) false).wait_for_slot
            1000000 1 5 = some t) ↔ 1000000 < (TDMASchedule.round_robin 2 10000000).slot_ns)) ∧
      ((TDMASchedule.round_robin 2 10000000).slot_ns ≤ 1000000 → ∀ sleeps,
        (TDMAScheduler.construct 1 true (.round_robin 2 10000000) false).wait_for_slot
          1000000 sleeps 5 = none) :=
  wait_for_slot_returns_iff (.round_robin 2 10000000) 1 (by decide) ⟨[1], by decide, by decide⟩
    (by decide) (by decide) 1000000 5

/-- With slots as long as the default guard the party sleeps again and again. -/
theorem wait_for_slot_stuck :
    (TDMAScheduler.construct 1 true (.round_robin 2 1000000) false).wait_for_slot 1000000 1 0 =
      none := by
  decide

-- the clock wraps 5 ns on, and what begins then is the slot of the other party
example : (TDMAScheduler.construct 1 true (.round_robin 2 10000000) false).wait_for_slot 1000000 1
    (2 ^ 64 - 5) = none := by
  decide

end QSync.Net
