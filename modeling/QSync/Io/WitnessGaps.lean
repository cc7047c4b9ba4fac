import Mathlib.Data.Finset.Sort
import Mathlib.Order.Interval.Finset.Nat
import QSync.Io.BcastBus

/-! # Witnessing the streams between two other parties

`witness_observe_` and `witness_drain_`: a party notes which sequence numbers it has seen of a stream
that is not its own, and asks once for every number it has missed. `low_walk` stands in for the
numbers below it, which `seen` need not keep.
-/

namespace QSync.Io
open QSync.Network
set_option autoImplicit false
set_option maxHeartbeats 250000

structure WitnessState where
  /-- Numbers witnessed, apart from those `low_walk` has passed. -/
  seen : Finset ℕ := ∅
  /-- Numbers asked for already. -/
  nacked : Finset ℕ := ∅
  max_seen : ℕ := 0
  low_walk : ℕ := 0
  any_seen : Bool := false

/-- `while (seen.count(low_walk))`: every round takes a number out of `seen`, so as many rounds as it
has numbers are enough. -/
def advance_low_walk : ℕ → Finset ℕ → ℕ → Finset ℕ × ℕ
  | 0, seen, low_walk => (seen, low_walk)
  | rounds + 1, seen, low_walk =>
    if low_walk ∈ seen then
      advance_low_walk rounds (seen.erase low_walk) ((low_walk + 1) % 2 ^ 32)
    else (seen, low_walk)

def WitnessState.observe (ws : WitnessState) (seq : ℕ) : WitnessState :=
  let seen := insert seq ws.seen
  let r := advance_low_walk seen.card seen ws.low_walk
  { ws with
    seen := r.1
    max_seen := if !ws.any_seen || seq > ws.max_seen then seq else ws.max_seen
    any_seen := true
    low_walk := r.2 }

/-- One number of the walk: `nacked` and `due` so far. -/
def note_due (seen : Finset ℕ) (acc : Finset ℕ × List ℕ) (s : ℕ) : Finset ℕ × List ℕ :=
  if s ∈ seen then acc
  else if s ∈ acc.1 then acc
  else (insert s acc.1, acc.2 ++ [s])

/-- The new state and the numbers that are due. -/
def WitnessState.drain (ws : WitnessState) : WitnessState × List ℕ :=
  if !ws.any_seen then (ws, [])
  else
    let acc := (List.range' ws.low_walk (ws.max_seen - ws.low_walk)).foldl (note_due ws.seen)
      (ws.nacked, [])
    ({ ws with nacked := acc.1 }, acc.2)

/-- The arguments of a call of `send_nack_`. -/
structure NackCall where
  missing_sender : ℕ
  missing_target : ℕ
  seq : ℕ
  idx : ℕ

def witness_observe_ (C : Config) (sender target seq : ℕ) (witness_ : ℕ → WitnessState) :
    ℕ → WitnessState :=
  if sender ≥ C.nP_ ∨ target ≥ C.nP_ then witness_
  else
    let i := sender * C.nP_ + target
    Function.update witness_ i ((witness_ i).observe seq)

def witness_drain_ (C : Config) (sender target : ℕ) (witness_ : ℕ → WitnessState) :
    (ℕ → WitnessState) × List NackCall :=
  if sender ≥ C.nP_ ∨ target ≥ C.nP_ then (witness_, [])
  else
    let i := sender * C.nP_ + target
    let r := (witness_ i).drain
    (Function.update witness_ i r.1, r.2.map fun s => ⟨sender, target, s, 0⟩)

/-- What `handle_data_` notes of a frame for another party. -/
def witness_data_ (C : Config) (witness_ : ℕ → WitnessState) (buf : Bytes) : ℕ → WitnessState :=
  let hdr_sender := field buf 4 1
  let hdr_target := field buf 5 1
  if field buf 0 4 ≠ KIND_DATA then witness_
  else if hdr_sender = C.self_id_ ∨ hdr_sender ≥ C.nP_ ∨ hdr_target ≥ C.nP_ then witness_
  else if buf.length ≠ HEADER_SIZE + field buf 16 4 then witness_
  else if hdr_target = C.self_id_ then witness_
  else witness_observe_ C hdr_sender hdr_target (field buf 8 4) witness_

/-! ## Runs -/

inductive WitnessCall
  | observe (sender target seq : ℕ)
  | drain (sender target : ℕ)

/-- One call: the new table and the NACKs it sends. -/
def WitnessCall.run (C : Config) (witness_ : ℕ → WitnessState) :
    WitnessCall → (ℕ → WitnessState) × List NackCall
  | .observe sender target seq => (witness_observe_ C sender target seq witness_, [])
  | .drain sender target => witness_drain_ C sender target witness_

/-- The table after some calls, and all NACKs sent so far. -/
def witness_run (C : Config) (calls : List WitnessCall) : (ℕ → WitnessState) × List NackCall :=
  calls.foldl (fun acc call =>
    let r := call.run C acc.1
    (r.1, acc.2 ++ r.2)) (fun _ => {}, [])

/-- The state kept for the stream from `s` to `t`. -/
def witnessed (C : Config) (calls : List WitnessCall) (s t : ℕ) : WitnessState :=
  (witness_run C calls).1 (s * C.nP_ + t)

/-- The numbers of the stream from `s` to `t` among some NACKs. -/
def nacksOf (s t : ℕ) (sent : List NackCall) : List ℕ :=
  (sent.filter fun n => n.missing_sender = s ∧ n.missing_target = t).map NackCall.seq

/-- What a call observes of the stream from `s` to `t`. -/
def WitnessCall.observed (s t : ℕ) : WitnessCall → Finset ℕ
  | .observe sender target seq => if sender = s ∧ target = t then {seq} else ∅
  | .drain .. => ∅

def observed (s t : ℕ) (calls : List WitnessCall) : Finset ℕ :=
  calls.foldl (fun obs call => obs ∪ call.observed s t) ∅

/-! ## The two loops -/

theorem advance_low_walk_spec (rounds : ℕ) (seen : Finset ℕ) (low : ℕ) (hcard : seen.card ≤ rounds)
    (hseen : ∀ q ∈ seen, q < 2 ^ 32 - 1) :
    low ≤ (advance_low_walk rounds seen low).2 ∧
      (advance_low_walk rounds seen low).1 =
        seen \ Finset.Ico low (advance_low_walk rounds seen low).2 ∧
      Finset.Ico low (advance_low_walk rounds seen low).2 ⊆ seen ∧
      (advance_low_walk rounds seen low).2 ∉ seen := by
  induction rounds generalizing seen low with
  | zero =>
    obtain rfl : seen = ∅ := Finset.card_eq_zero.mp (Nat.le_zero.mp hcard)
    simp [advance_low_walk]
  | succ rounds ih =>
    by_cases hlow : low ∈ seen
    · have hsplit : ∀ b, low + 1 ≤ b → Finset.Ico low b = insert low (Finset.Ico (low + 1) b) := by
        intro b hb
        ext q
        simp only [Finset.mem_insert, Finset.mem_Ico]
        omega
      have hnext : (low + 1) % 2 ^ 32 = low + 1 := by
        apply Nat.mod_eq_of_lt
        have := hseen low hlow
        omega
      have hcard' : (seen.erase low).card ≤ rounds := by
        rw [Finset.card_erase_of_mem hlow]
        omega
      obtain ⟨hle, heq, hsub, hnot⟩ := ih (seen.erase low) (low + 1) hcard' fun q hq =>
        hseen q (Finset.mem_of_mem_erase hq)
      rw [advance_low_walk, if_pos hlow, hnext]
      generalize advance_low_walk rounds (seen.erase low) (low + 1) = r at *
      refine ⟨by omega, ?_, ?_, fun h => hnot (Finset.mem_erase.mpr ⟨by omega, h⟩)⟩
      · rw [heq, hsplit _ hle]
        ext q
        simp only [Finset.mem_sdiff, Finset.mem_erase, Finset.mem_insert, not_or]
        tauto
      · rw [hsplit _ hle]
        exact Finset.insert_subset hlow (hsub.trans (Finset.erase_subset _ _))
    · rw [advance_low_walk, if_neg hlow]
      simp [hlow]

/-- What a walk over some numbers has done: `new` is what it adds to `due`. -/
theorem foldl_note_due (seen : Finset ℕ) (xs : List ℕ) (nacked : Finset ℕ) (due : List ℕ) :
    ∃ new, xs.foldl (note_due seen) (nacked, due) = (nacked ∪ new.toFinset, due ++ new) ∧
      new.Nodup ∧ (∀ q ∈ new, q ∈ xs ∧ q ∉ seen ∧ q ∉ nacked) ∧
      ∀ q ∈ xs, q ∉ seen → q ∈ nacked ∪ new.toFinset := by
  induction xs generalizing nacked due with
  | nil => exact ⟨[], by simp, List.nodup_nil, by simp, by simp⟩
  | cons x xs ih =>
    rw [List.foldl_cons]
    by_cases hx : x ∈ seen ∨ x ∈ nacked
    · have hstep : note_due seen (nacked, due) x = (nacked, due) := by
        obtain h | h := hx
        · exact if_pos h
        · simp [note_due, h]
      rw [hstep]
      obtain ⟨new, hfold, hnodup, hnew, hall⟩ := ih nacked due
      refine ⟨new, hfold, hnodup, fun q hq => ?_, fun q hq hs => ?_⟩
      · obtain ⟨hmem, hrest⟩ := hnew q hq
        exact ⟨List.mem_cons_of_mem _ hmem, hrest⟩
      · obtain rfl | hq := List.mem_cons.mp hq
        · exact Finset.mem_union_left _ (hx.resolve_left hs)
        · exact hall q hq hs
    · obtain ⟨hs, hn⟩ := not_or.mp hx
      have hstep : note_due seen (nacked, due) x = (insert x nacked, due ++ [x]) := by
        simp [note_due, hs, hn]
      rw [hstep]
      obtain ⟨new, hfold, hnodup, hnew, hall⟩ := ih (insert x nacked) (due ++ [x])
      have hcons : insert x nacked ∪ new.toFinset = nacked ∪ (x :: new).toFinset := by
        ext q
        simp only [Finset.mem_union, Finset.mem_insert, List.toFinset_cons]
        tauto
      have hxnew : x ∉ new := fun h => (hnew x h).2.2 (Finset.mem_insert_self _ _)
      rw [hcons] at hfold hall
      refine ⟨x :: new, by rw [hfold]; simp, List.nodup_cons.mpr ⟨hxnew, hnodup⟩, fun q hq => ?_,
        fun q hq hqs => ?_⟩
      · obtain rfl | hq := List.mem_cons.mp hq
        · exact ⟨List.mem_cons_self, hs, hn⟩
        · obtain ⟨hmem, hqs, hqn⟩ := hnew q hq
          exact ⟨List.mem_cons_of_mem _ hmem, hqs, fun h => hqn (Finset.mem_insert_of_mem h)⟩
      · obtain rfl | hq := List.mem_cons.mp hq
        · simp
        · exact hall q hq hqs

/-! ## The invariant -/

/-- A state whose stream showed the numbers `obs` and was asked for the numbers `asked`. -/
structure WitnessState.Tracks (ws : WitnessState) (obs : Finset ℕ) (asked : List ℕ) : Prop where
  union_eq : Finset.range ws.low_walk ∪ ws.seen = obs
  low_notMem : ws.low_walk ∉ obs
  any_iff : ws.any_seen = true ↔ obs.Nonempty
  le_max : ∀ q ∈ obs, q ≤ ws.max_seen
  max_mem : obs.Nonempty → ws.max_seen ∈ obs
  nacked_eq : ws.nacked = asked.toFinset
  nodup : asked.Nodup

section Tracks
variable {ws : WitnessState} {obs : Finset ℕ} {asked : List ℕ}

theorem WitnessState.Tracks.init : ({} : WitnessState).Tracks ∅ [] where
  union_eq := by simp
  low_notMem := Finset.notMem_empty _
  any_iff := by simp
  le_max := by simp
  max_mem := by simp
  nacked_eq := by simp
  nodup := List.nodup_nil

theorem WitnessState.Tracks.mem_iff (h : ws.Tracks obs asked) (q : ℕ) :
    q ∈ obs ↔ q < ws.low_walk ∨ q ∈ ws.seen := by
  rw [← h.union_eq, Finset.mem_union, Finset.mem_range]

/-- The number kept as the largest is the largest one seen, also after one more. -/
theorem WitnessState.Tracks.max_insert (h : ws.Tracks obs asked) (seq : ℕ) :
    (∀ q ∈ insert seq obs,
        q ≤ if !ws.any_seen || decide (seq > ws.max_seen) then seq else ws.max_seen) ∧
      (if !ws.any_seen || decide (seq > ws.max_seen) then seq else ws.max_seen) ∈
        insert seq obs := by
  have hany : ws.any_seen = false → ∀ q, q ∉ obs := fun hf q hq => by
    have := h.any_iff.mpr ⟨q, hq⟩
    simp [hf] at this
  split
  · next hmax =>
    refine ⟨fun q hq => ?_, Finset.mem_insert_self _ _⟩
    obtain rfl | hq := Finset.mem_insert.mp hq
    · exact le_rfl
    · have hne : ws.any_seen ≠ false := fun hf => hany hf q hq
      have hbig : seq > ws.max_seen := by simpa [hne] using hmax
      exact (h.le_max q hq).trans hbig.le
  · next hmax =>
    simp only [Bool.or_eq_true, Bool.not_eq_true', decide_eq_true_eq, not_or,
      Bool.not_eq_false] at hmax
    refine ⟨fun q hq => ?_, Finset.mem_insert_of_mem (h.max_mem (h.any_iff.mp hmax.1))⟩
    obtain rfl | hq := Finset.mem_insert.mp hq
    · exact Nat.le_of_not_gt hmax.2
    · exact h.le_max q hq

theorem WitnessState.Tracks.observe (h : ws.Tracks obs asked) {seq : ℕ}
    (hobs : ∀ q ∈ insert seq obs, q < 2 ^ 32 - 1) :
    (ws.observe seq).Tracks (insert seq obs) asked := by
  have hseen : ∀ q ∈ insert seq ws.seen, q < 2 ^ 32 - 1 := fun q hq => by
    apply hobs
    obtain rfl | hq := Finset.mem_insert.mp hq
    · exact Finset.mem_insert_self _ _
    · exact Finset.mem_insert_of_mem ((h.mem_iff q).mpr (.inr hq))
  have hmaximum := h.max_insert seq
  obtain ⟨hle, heq, hsub, hnot⟩ :=
    advance_low_walk_spec _ (insert seq ws.seen) ws.low_walk le_rfl hseen
  have hmem : ∀ q, q ∈ insert seq obs ↔ q < ws.low_walk ∨ q ∈ insert seq ws.seen := fun q => by
    rw [Finset.mem_insert, Finset.mem_insert, h.mem_iff q]
    tauto
  unfold WitnessState.observe
  dsimp only
  generalize advance_low_walk _ (insert seq ws.seen) ws.low_walk = r at *
  refine ⟨?_, ?_, ?_, ?_, ?_, h.nacked_eq, h.nodup⟩
  · -- what the walk takes out of `seen` is below where it stops
    ext q
    rw [hmem q, heq]
    simp only [Finset.mem_union, Finset.mem_range, Finset.mem_sdiff, Finset.mem_Ico]
    have hq : ws.low_walk ≤ q → q < r.2 → q ∈ insert seq ws.seen := fun h1 h2 =>
      hsub (Finset.mem_Ico.mpr ⟨h1, h2⟩)
    by_cases hin : q ∈ insert seq ws.seen
    · simp only [hin, true_and, or_true, iff_true]
      omega
    · have hnotIco : ¬(ws.low_walk ≤ q ∧ q < r.2) := fun h => hin (hq h.1 h.2)
      simp only [hin, false_and, or_false]
      omega
  · show r.2 ∉ insert seq obs
    rw [hmem]
    exact fun h => h.elim (fun h => absurd hle (by omega)) hnot
  · simp
  · exact hmaximum.1
  · exact fun _ => hmaximum.2

/-- A drain asks for the numbers below the largest one that are missing and were not asked for. -/
theorem WitnessState.Tracks.drain (h : ws.Tracks obs asked) :
    (ws.drain).1.Tracks obs (asked ++ (ws.drain).2) ∧ (∀ q ∈ (ws.drain).2, q ∉ obs) ∧
      (ws.drain).1.max_seen = ws.max_seen ∧
      ∀ q < ws.max_seen, obs.Nonempty → q ∉ obs → q ∈ asked ++ (ws.drain).2 := by
  by_cases hany : ws.any_seen = true
  · obtain ⟨new, hfold, hnodup, hnew, hall⟩ := foldl_note_due ws.seen
      (List.range' ws.low_walk (ws.max_seen - ws.low_walk)) ws.nacked []
    have hdrain : ws.drain = ({ ws with nacked := ws.nacked ∪ new.toFinset }, new) := by
      unfold WitnessState.drain
      rw [hany, hfold]
      rfl
    have hmiss : ∀ q ∈ new, q ∉ obs := by
      intro q hq hobs
      obtain ⟨hrange, hseen, -⟩ := hnew q hq
      obtain hlow | hin := (h.mem_iff q).mp hobs
      · have := (List.mem_range'_1.mp hrange).1
        omega
      · exact hseen hin
    rw [hdrain]
    refine ⟨⟨h.union_eq, h.low_notMem, h.any_iff, h.le_max, h.max_mem, ?_, ?_⟩, hmiss, rfl, ?_⟩
    · rw [List.toFinset_append, ← h.nacked_eq]
    · refine List.nodup_append'.mpr ⟨h.nodup, hnodup, fun q hq hq' => (hnew q hq').2.2 ?_⟩
      rw [h.nacked_eq]
      exact List.mem_toFinset.mpr hq
    · intro q hq _ hobs
      have hlow : ¬q < ws.low_walk := fun hlt => hobs ((h.mem_iff q).mpr (.inl hlt))
      have hseen : q ∉ ws.seen := fun hin => hobs ((h.mem_iff q).mpr (.inr hin))
      have := hall q (List.mem_range'_1.mpr ⟨by omega, by omega⟩) hseen
      rw [h.nacked_eq] at this
      simpa using this
  · have hdrain : ws.drain = (ws, []) := by
      unfold WitnessState.drain
      rw [Bool.eq_false_iff.mpr hany]
      rfl
    rw [hdrain, List.append_nil]
    exact ⟨h, by simp, rfl, fun q _ hne => absurd (h.any_iff.mpr hne) hany⟩

end Tracks

/-! ## Runs keep the invariant -/

theorem witness_run_concat (C : Config) (calls : List WitnessCall) (call : WitnessCall) :
    witness_run C (calls ++ [call]) =
      ((call.run C (witness_run C calls).1).1,
        (witness_run C calls).2 ++ (call.run C (witness_run C calls).1).2) := by
  rw [witness_run, List.foldl_append]
  rfl

theorem observed_concat (s t : ℕ) (calls : List WitnessCall) (call : WitnessCall) :
    observed s t (calls ++ [call]) = observed s t calls ∪ call.observed s t := by
  rw [observed, List.foldl_append]
  rfl

theorem nacksOf_append (s t : ℕ) (xs ys : List NackCall) :
    nacksOf s t (xs ++ ys) = nacksOf s t xs ++ nacksOf s t ys := by
  rw [nacksOf, List.filter_append, List.map_append]
  rfl

theorem mem_observed {s t q : ℕ} {calls : List WitnessCall} (h : q ∈ observed s t calls) :
    .observe s t q ∈ calls := by
  induction calls using List.reverseRecOn with
  | nil => simp [observed] at h
  | append_singleton calls call ih =>
    rw [observed_concat, Finset.mem_union] at h
    obtain h | h := h
    · exact List.mem_append_left _ (ih h)
    · apply List.mem_append_right
      cases call with
      | observe sender target seq =>
        simp only [WitnessCall.observed] at h
        split at h
        · next heq =>
          rw [Finset.mem_singleton.mp h, heq.1, heq.2]
          exact List.mem_singleton_self _
        · simp at h
      | drain sender target => simp [WitnessCall.observed] at h

/-- Two streams between parties have different places in the table. -/
theorem witness_index_inj {nP s t s' t' : ℕ} (ht : t < nP) (ht' : t' < nP)
    (h : s * nP + t = s' * nP + t') : s = s' ∧ t = t' := by
  have hs : s = s' := by
    have h1 : (s * nP + t) / nP = s := by
      rw [Nat.add_comm, Nat.add_mul_div_right _ _ (by omega), Nat.div_eq_of_lt ht, Nat.zero_add]
    have h2 : (s' * nP + t') / nP = s' := by
      rw [Nat.add_comm, Nat.add_mul_div_right _ _ (by omega), Nat.div_eq_of_lt ht', Nat.zero_add]
    rw [← h1, h, h2]
  subst hs
  exact ⟨rfl, by omega⟩

section Call
variable {C : Config} {s t : ℕ} {w : ℕ → WitnessState} {obs : Finset ℕ} {asked : List ℕ}

theorem nacksOf_due (sender target : ℕ) (due : List ℕ) :
    nacksOf s t (due.map fun q => ⟨sender, target, q, 0⟩) =
      if sender = s ∧ target = t then due else [] := by
  unfold nacksOf
  rw [List.filter_map, List.map_map]
  by_cases h : sender = s ∧ target = t
  · simp [h, Function.comp_def]
  · simp [h, Function.comp_def]

/-- One call, seen from the stream from `s` to `t`. -/
theorem tracks_call (hs : s < C.nP_) (ht : t < C.nP_) (call : WitnessCall)
    (h : (w (s * C.nP_ + t)).Tracks obs asked)
    (hobs : ∀ q ∈ obs ∪ call.observed s t, q < 2 ^ 32 - 1) :
    ((call.run C w).1 (s * C.nP_ + t)).Tracks (obs ∪ call.observed s t)
        (asked ++ nacksOf s t (call.run C w).2) ∧
      (∀ q ∈ nacksOf s t (call.run C w).2, q ∉ obs) ∧
      (call = .drain s t → ∀ q < ((call.run C w).1 (s * C.nP_ + t)).max_seen, obs.Nonempty →
        q ∉ obs → q ∈ asked ++ nacksOf s t (call.run C w).2) := by
  cases call with
  | observe sender target seq =>
    have hnone : nacksOf s t (WitnessCall.run C w (.observe sender target seq)).2 = [] := rfl
    rw [hnone, List.append_nil]
    refine ⟨?_, by simp, fun heq => by cases heq⟩
    simp only [WitnessCall.run, WitnessCall.observed, witness_observe_] at hobs ⊢
    by_cases hout : sender ≥ C.nP_ ∨ target ≥ C.nP_
    · rw [if_pos hout, if_neg (by omega), Finset.union_empty]
      exact h
    · rw [if_neg hout]
      by_cases heq : sender = s ∧ target = t
      · obtain ⟨rfl, rfl⟩ := heq
        rw [if_pos ⟨rfl, rfl⟩, Finset.union_comm, ← Finset.insert_eq] at hobs ⊢
        rw [Function.update_self]
        exact h.observe hobs
      · rw [if_neg heq, Finset.union_empty]
        have hne : s * C.nP_ + t ≠ sender * C.nP_ + target := fun hi =>
          heq ((witness_index_inj ht (by omega) hi).imp Eq.symm Eq.symm)
        rw [Function.update_of_ne hne]
        exact h
  | drain sender target =>
    simp only [WitnessCall.run, WitnessCall.observed, witness_drain_, Finset.union_empty]
    by_cases hout : sender ≥ C.nP_ ∨ target ≥ C.nP_
    · rw [if_pos hout]
      refine ⟨by simpa [nacksOf] using h, by simp [nacksOf], fun heq => ?_⟩
      cases heq
      omega
    · rw [if_neg hout]
      simp only [nacksOf_due]
      by_cases heq : sender = s ∧ target = t
      · obtain ⟨rfl, rfl⟩ := heq
        rw [if_pos ⟨rfl, rfl⟩, Function.update_self]
        obtain ⟨htr, hmiss, hmax, hall⟩ := h.drain
        exact ⟨htr, hmiss, fun _ q hq hne hqo => hall q (hmax ▸ hq) hne hqo⟩
      · rw [if_neg heq, List.append_nil]
        have hne : s * C.nP_ + t ≠ sender * C.nP_ + target := fun hi =>
          heq ((witness_index_inj ht (by omega) hi).imp Eq.symm Eq.symm)
        rw [Function.update_of_ne hne]
        refine ⟨h, by simp, fun hcall => ?_⟩
        cases hcall
        exact absurd ⟨rfl, rfl⟩ heq

theorem tracks_run (hs : s < C.nP_) (ht : t < C.nP_) (calls : List WitnessCall)
    (hobs : ∀ q ∈ observed s t calls, q < 2 ^ 32 - 1) :
    (witnessed C calls s t).Tracks (observed s t calls) (nacksOf s t (witness_run C calls).2) := by
  induction calls using List.reverseRecOn with
  | nil => exact .init
  | append_singleton calls call ih =>
    rw [observed_concat] at hobs
    have hprev := ih fun q hq => hobs q (Finset.mem_union_left _ hq)
    rw [observed_concat, witnessed, witness_run_concat, nacksOf_append]
    exact (tracks_call hs ht call hprev hobs).1

end Call

/-! ## Gap tracking -/

/-- What the state for the stream from `s` to `t` and the NACKs sent say about the numbers seen. -/
structure TracksGaps (C : Config) (calls : List WitnessCall) (s t : ℕ) : Prop where
  below_observed : ∀ q < (witnessed C calls s t).low_walk, q ∈ observed s t calls
  low_unobserved : (witnessed C calls s t).low_walk ∉ observed s t calls
  union_eq : Finset.range (witnessed C calls s t).low_walk ∪ (witnessed C calls s t).seen =
    observed s t calls
  once : (nacksOf s t (witness_run C calls).2).Nodup
  /-- Whatever a call asks for had not been observed before it. -/
  missing : ∀ before call, before ++ [call] <+: calls →
    ∀ q ∈ nacksOf s t (call.run C (witness_run C before).1).2, q ∉ observed s t before
  complete : ∀ before, before ++ [.drain s t] <+: calls → (observed s t before).Nonempty →
    ∀ q < (witnessed C (before ++ [.drain s t]) s t).max_seen, q ∉ observed s t before →
      q ∈ nacksOf s t (witness_run C (before ++ [.drain s t])).2

theorem observed_mono {s t : ℕ} {before calls : List WitnessCall} (h : before <+: calls) :
    observed s t before ⊆ observed s t calls := by
  obtain ⟨rest, rfl⟩ := h
  induction rest using List.reverseRecOn with
  | nil => simp
  | append_singleton rest call ih =>
    rw [← List.append_assoc, observed_concat]
    exact ih.trans Finset.subset_union_left

theorem witness_tracks_gaps (C : Config) (calls : List WitnessCall) {s t : ℕ} (hs : s < C.nP_)
    (ht : t < C.nP_) (hseq : ∀ seq, .observe s t seq ∈ calls → seq < 2 ^ 32 - 1) :
    TracksGaps C calls s t := by
  have hobs : ∀ q ∈ observed s t calls, q < 2 ^ 32 - 1 := fun q hq => hseq q (mem_observed hq)
  have htracks := tracks_run hs ht calls hobs
  have hcall : ∀ before call, before ++ [call] <+: calls → _ := fun before call hpre =>
    tracks_call hs ht call
      (tracks_run hs ht before fun q hq =>
        hobs q (observed_mono ((List.prefix_append before [call]).trans hpre) hq))
      (by
        rw [← observed_concat]
        exact fun q hq => hobs q (observed_mono hpre hq))
  refine ⟨fun q hq => (htracks.mem_iff q).mpr (.inl hq), htracks.low_notMem, htracks.union_eq,
    htracks.nodup, fun before call hpre => (hcall before call hpre).2.1,
    fun before hpre hne q hq hqo => ?_⟩
  rw [witnessed, witness_run_concat] at hq
  rw [witness_run_concat, nacksOf_append]
  exact (hcall before _ hpre).2.2 rfl q hq hne hqo

/-- The third party of three. -/
def thirdParty : Config where
  lib := ⟨fun _ => List.replicate 32 0, fun _ _ _ => 0⟩
  key_seed := 0
  nP_ := 3
  self_id_ := 2
  ip_table_ := fun _ => 0
  nP_le := by decide
  self_lt := by decide

/-- Two gaps, one of them closed by a late duplicate between the drains. -/
def gappyCalls : List WitnessCall :=
  [.observe 0 1 0, .observe 0 1 3, .drain 0 1, .observe 0 1 2, .observe 0 1 2, .observe 0 1 5,
    .drain 0 1, .drain 0 1]

theorem witness_tracks_gaps_two :
    nacksOf 0 1 (witness_run thirdParty gappyCalls).2 = [1, 2, 4] ∧
      TracksGaps thirdParty gappyCalls 0 1 :=
  ⟨by decide, witness_tracks_gaps thirdParty gappyCalls (by decide) (by decide) fun seq h => by
    simp [gappyCalls] at h
    omega⟩

end QSync.Io
