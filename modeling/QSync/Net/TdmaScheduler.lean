import Mathlib.Data.List.Basic
import Mathlib.Data.Nat.ModEq
import Mathlib.Tactic.Ring

/-! # The TDMA scheduler

`TDMAScheduler::wait_for_slot` and the accounting around a send. The arithmetic is that of 64-bit
unsigned integers, slot numbers are 32 bits wide; `poll_in_slot_iff` says when one turn of
the waiting loop lets a send go, for a schedule that fits into them.
-/

namespace QSync.Net
set_option autoImplicit false
set_option maxHeartbeats 250000

/-- Unsigned 64-bit subtraction. -/
def sub64 (a b : ℕ) : ℕ := (a + (2 ^ 64 - b % 2 ^ 64)) % 2 ^ 64

/-- The slots of a cycle, each with the parties that may send in it. -/
structure TDMASchedule where
  slot_ns : ℕ := 10000000
  slot_owners : List (List ℤ) := []

def TDMASchedule.ok (s : TDMASchedule) : Bool := s.slot_ns > 0 && !s.slot_owners.isEmpty

def TDMASchedule.round_robin (nP slot_ns : ℕ) : TDMASchedule where
  slot_ns := slot_ns
  slot_owners := (List.range nP).map fun i : ℕ => [(i : ℤ)]

structure TDMAScheduler where
  party_ : ℤ
  sched_ : TDMASchedule
  disabled_ : Bool
  owns_ : List Bool := []
  waits_ : ℕ := 0
  ns_waited_ : ℕ := 0
  in_slot_sends_ : ℕ := 0
  out_of_slot_sends_ : ℕ := 0
  boundary_spans_ : ℕ := 0
  slot_hist_ : List ℕ := []

/-- The constructor; `ts_ok`: there is a clock and it is usable. -/
def TDMAScheduler.construct (party : ℤ) (ts_ok : Bool) (sched : TDMASchedule) (disabled : Bool) :
    TDMAScheduler :=
  if sched.ok then
    { party_ := party
      sched_ := sched
      disabled_ := disabled || !ts_ok
      owns_ := sched.slot_owners.map fun owners => owners.contains party
      slot_hist_ := List.replicate sched.slot_owners.length 0 }
  else { party_ := party, sched_ := sched, disabled_ := true }

/-- What one turn of the loop in `wait_for_slot` decides: return in an owned slot, return for want of
one, or sleep. -/
inductive Poll where
  | in_slot
  | no_slot
  | sleep (delta_ns : ℕ)
  deriving DecidableEq

namespace TDMAScheduler
variable (T : TDMAScheduler)

def cycle : ℕ := T.sched_.slot_ns * T.sched_.slot_owners.length % 2 ^ 64

def owns_slot (slot_idx : ℕ) : Bool := T.owns_.getD slot_idx false

def slot_of (t_ns : ℕ) : ℕ := t_ns % T.cycle / T.sched_.slot_ns % 2 ^ 32

/-- How many slots after `cur` the next owned one is. -/
def next_owned (cur : ℕ) : Option ℕ :=
  (List.range' 1 T.sched_.slot_owners.length).find? fun k =>
    T.owns_slot ((cur + k) % T.sched_.slot_owners.length % 2 ^ 32)

def delta_ns (cur pos : ℕ) : ℕ :=
  match T.next_owned cur with
  | some k => sub64 ((cur + k) * T.sched_.slot_ns % 2 ^ 64) pos
  | none => 0

def poll (guard_ns now : ℕ) : Poll :=
  let slot := T.sched_.slot_ns
  let pos := now % T.cycle
  let cur := pos / slot % 2 ^ 32
  let in_slot_pos := sub64 pos (cur * slot % 2 ^ 64)
  let remaining := sub64 slot in_slot_pos
  if T.owns_slot cur = true ∧ remaining > guard_ns then .in_slot
  else if T.delta_ns cur pos = 0 then .no_slot
  else .sleep (T.delta_ns cur pos)

/-- The statistics of one turn. -/
def note_poll (r : Poll) : TDMAScheduler :=
  match r with
  | .sleep delta_ns => { T with
      waits_ := (T.waits_ + 1) % 2 ^ 64
      ns_waited_ := (T.ns_waited_ + delta_ns) % 2 ^ 64 }
  | _ => T

/-- The accounting after a send that began at `t_pre` and ended at `t_post`. -/
def mark_post (t_pre t_post : ℕ) : TDMAScheduler :=
  if T.disabled_ then T
  else
    let s_pre := T.slot_of t_pre
    let s_post := T.slot_of t_post
    let T := { T with slot_hist_ := T.slot_hist_.modify s_pre (fun n => (n + 1) % 2 ^ 64) }
    if T.owns_slot s_pre && T.owns_slot s_post && s_pre == s_post then
      { T with in_slot_sends_ := (T.in_slot_sends_ + 1) % 2 ^ 64 }
    else { T with
      out_of_slot_sends_ := (T.out_of_slot_sends_ + 1) % 2 ^ 64
      boundary_spans_ :=
        if s_pre ≠ s_post then (T.boundary_spans_ + 1) % 2 ^ 64 else T.boundary_spans_ }

/-! ## What statistics leave alone -/

theorem note_poll_same (r : Poll) :
    (T.note_poll r).sched_ = T.sched_ ∧ (T.note_poll r).owns_ = T.owns_ ∧
      (T.note_poll r).disabled_ = T.disabled_ := by
  unfold note_poll
  split <;> exact ⟨rfl, rfl, rfl⟩

theorem mark_post_same (t_pre t_post : ℕ) :
    (T.mark_post t_pre t_post).sched_ = T.sched_ ∧ (T.mark_post t_pre t_post).owns_ = T.owns_ ∧
      (T.mark_post t_pre t_post).disabled_ = T.disabled_ := by
  unfold mark_post
  split
  · exact ⟨rfl, rfl, rfl⟩
  · dsimp only
    split <;> exact ⟨rfl, rfl, rfl⟩

variable {T} in
theorem poll_congr {T' : TDMAScheduler} (hs : T'.sched_ = T.sched_) (ho : T'.owns_ = T.owns_)
    (guard_ns now : ℕ) : T'.poll guard_ns now = T.poll guard_ns now := by
  unfold poll delta_ns next_owned owns_slot cycle
  rw [hs, ho]

end TDMAScheduler

/-! ## Schedules that fit into the machine's integers -/

theorem sub64_of_le {a b : ℕ} (hba : b ≤ a) (ha : a < 2 ^ 64) : sub64 a b = a - b := by
  unfold sub64
  rw [Nat.mod_eq_of_lt (hba.trans_lt ha)]
  omega

section Exact
variable {T : TDMAScheduler}

/-- The cycle is within 64 bits, the slot numbers within 32. -/
structure TDMASchedule.Exact (s : TDMASchedule) : Prop where
  pos : 0 < s.slot_ns
  slots : 0 < s.slot_owners.length
  narrow : s.slot_owners.length ≤ 2 ^ 32
  short : s.slot_ns * s.slot_owners.length < 2 ^ 64

/-- Twice the cycle is within 64 bits, the number of slots within 32. -/
structure TDMASchedule.Fits (s : TDMASchedule) : Prop where
  pos : 0 < s.slot_ns
  slots : 0 < s.slot_owners.length
  narrow : s.slot_owners.length < 2 ^ 32
  short : s.slot_ns * s.slot_owners.length * 2 < 2 ^ 64

theorem TDMASchedule.Fits.exact {s : TDMASchedule} (h : s.Fits) : s.Exact :=
  ⟨h.pos, h.slots, h.narrow.le, by have := h.short; omega⟩

theorem TDMASchedule.Exact.slot_lt {s : TDMASchedule} (h : s.Exact) : s.slot_ns < 2 ^ 64 := by
  have hle : s.slot_ns * 1 ≤ s.slot_ns * s.slot_owners.length := Nat.mul_le_mul_left _ h.slots
  have := h.short
  omega

theorem TDMASchedule.Exact.cycle_eq (h : T.sched_.Exact) :
    T.cycle = T.sched_.slot_ns * T.sched_.slot_owners.length := Nat.mod_eq_of_lt h.short

theorem TDMASchedule.Exact.cur_eq (h : T.sched_.Exact) (now : ℕ) :
    now % T.cycle / T.sched_.slot_ns % 2 ^ 32 =
      now / T.sched_.slot_ns % T.sched_.slot_owners.length := by
  rw [h.cycle_eq, Nat.mod_mul_right_div_self]
  exact Nat.mod_eq_of_lt ((Nat.mod_lt _ h.slots).trans_le h.narrow)

/-- The place in the cycle: whole slots and the time since the start of the current one. -/
theorem TDMASchedule.Exact.pos_eq (h : T.sched_.Exact) (now : ℕ) :
    now % T.cycle = now % T.sched_.slot_ns +
      now / T.sched_.slot_ns % T.sched_.slot_owners.length * T.sched_.slot_ns := by
  rw [h.cycle_eq, Nat.mod_mul, Nat.mul_comm T.sched_.slot_ns]

theorem TDMASchedule.Exact.pos_lt (h : T.sched_.Exact) (now : ℕ) : now % T.cycle < 2 ^ 64 := by
  rw [h.cycle_eq]
  exact (Nat.mod_lt _ (Nat.mul_pos h.pos h.slots)).trans h.short

theorem TDMASchedule.Exact.in_slot_pos_eq (h : T.sched_.Exact) (now : ℕ) :
    sub64 (now % T.cycle) (now / T.sched_.slot_ns % T.sched_.slot_owners.length *
      T.sched_.slot_ns % 2 ^ 64) = now % T.sched_.slot_ns := by
  have hlt := h.pos_lt now
  have hpos := h.pos_eq now
  rw [hpos] at hlt
  have hcur : now / T.sched_.slot_ns % T.sched_.slot_owners.length * T.sched_.slot_ns < 2 ^ 64 := by
    omega
  rw [hpos, Nat.mod_eq_of_lt hcur, sub64_of_le (Nat.le_add_left _ _) hlt]
  exact Nat.add_sub_cancel _ _

/-- A turn of the loop returns in an owned slot exactly when the slot of the reading is owned and
more than the guard is left of it. -/
theorem TDMAScheduler.poll_in_slot_iff (h : T.sched_.Exact) (guard_ns now : ℕ) :
    T.poll guard_ns now = .in_slot ↔
      T.owns_slot (now / T.sched_.slot_ns % T.sched_.slot_owners.length) = true ∧
        now % T.sched_.slot_ns + guard_ns < T.sched_.slot_ns := by
  have hin : now % T.sched_.slot_ns < T.sched_.slot_ns := Nat.mod_lt _ h.pos
  unfold TDMAScheduler.poll
  dsimp only
  rw [h.cur_eq, h.in_slot_pos_eq, sub64_of_le hin.le h.slot_lt]
  constructor
  · intro hp
    split at hp
    · next hc => exact ⟨hc.1, by omega⟩
    · split at hp <;> cases hp
  · rintro ⟨ho, hlt⟩
    rw [if_pos ⟨ho, by omega⟩]

end Exact

/-! ## Round robin -/

section RoundRobin
variable {nP slot_ns : ℕ}

@[simp] theorem TDMASchedule.round_robin_length :
    (TDMASchedule.round_robin nP slot_ns).slot_owners.length = nP := by
  simp [TDMASchedule.round_robin]

@[simp] theorem TDMASchedule.round_robin_slot_ns :
    (TDMASchedule.round_robin nP slot_ns).slot_ns = slot_ns := rfl

theorem TDMASchedule.round_robin_ok (hn : 0 < nP) :
    (TDMASchedule.round_robin nP slot_ns).ok = true ↔ 0 < slot_ns := by
  have hne : (TDMASchedule.round_robin nP slot_ns).slot_owners ≠ [] := by
    rw [← List.length_pos_iff, TDMASchedule.round_robin_length]
    exact hn
  simp [TDMASchedule.ok, hne]

@[simp] theorem TDMAScheduler.construct_sched_ (party : ℤ) (ts_ok disabled : Bool)
    (sched : TDMASchedule) :
    (TDMAScheduler.construct party ts_ok sched disabled).sched_ = sched := by
  unfold TDMAScheduler.construct
  split <;> rfl

theorem TDMAScheduler.owns_slot_round_robin (party : ℕ) (ts_ok disabled : Bool) {i : ℕ}
    (h : (TDMAScheduler.construct party ts_ok (.round_robin nP slot_ns) disabled).owns_slot i =
      true) : 0 < slot_ns ∧ i < nP ∧ i = party := by
  unfold TDMAScheduler.construct at h
  split at h
  · next hok =>
    unfold TDMAScheduler.owns_slot TDMASchedule.round_robin at h
    dsimp only at h
    rw [List.map_map, List.getD_eq_getElem?_getD, List.getElem?_map] at h
    obtain hi | hi := Nat.lt_or_ge i nP
    · rw [List.getElem?_range hi] at h
      have hparty : i = party := by simpa [eq_comm] using h
      exact ⟨(TDMASchedule.round_robin_ok (by omega)).mp hok, hi, hparty⟩
    · rw [List.getElem?_eq_none (by simpa using hi)] at h
      cases h
  · simp [TDMAScheduler.owns_slot] at h

end RoundRobin
end QSync.Net
