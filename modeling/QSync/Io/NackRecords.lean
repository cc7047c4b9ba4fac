import QSync.Io.Link

/-! # The NACK records

What one idle tick does to the records: the scan adds the missing fragments, the loop over the records
drops the satisfied ones and asks for those that are due. `Book` is the account kept over a run: how
often each fragment was asked for, against the attempts on record.
-/

namespace QSync.Io
open QSync.Network
set_option autoImplicit false
set_option maxHeartbeats 250000

section Records
variable {now : ℕ} {ns : AList (fun _ : ℕ × ℕ => NackRec)} {key key' : ℕ × ℕ}

/-! ## Adding the missing fragments -/

theorem mem_note_missing : key' ∈ note_missing now ns key ↔ key' = key ∨ key' ∈ ns := by
  unfold note_missing
  split
  · next h =>
    constructor
    · exact .inr
    · rintro (rfl | h')
      · exact h
      · exact h'
  · exact AList.mem_insert ns

theorem mem_foldl_note_missing {keys : List (ℕ × ℕ)} :
    key ∈ keys.foldl (note_missing now) ns ↔ key ∈ keys ∨ key ∈ ns := by
  induction keys generalizing ns with
  | nil => simp
  | cons k keys ih =>
    rw [List.foldl_cons, ih, mem_note_missing, List.mem_cons]
    tauto

/-- The fragments the scan finds missing: the first one of a stream nothing is held of, and the
empty places of a partial message. -/
theorem mem_missing_of {pending : AList (fun _ : ℕ => Partial)} {s : ℕ} :
    key ∈ missing_of pending s ↔ key.1 = s ∧
      (pending.lookup s = none ∧ key.2 = 0 ∨
        ∃ p, pending.lookup s = some p ∧ key.2 < p.frag_total ∧ p.frags.getD key.2 [] = []) := by
  unfold missing_of
  cases hp : pending.lookup s with
  | none =>
    simp only [List.mem_singleton, Prod.ext_iff, true_and, reduceCtorEq, false_and, exists_false,
      or_false]
  | some p =>
    simp only [List.mem_map, List.mem_filter, List.mem_range, List.isEmpty_iff, Prod.ext_iff,
      reduceCtorEq, false_and, false_or, Option.some.injEq]
    constructor
    · rintro ⟨i, ⟨hi, he⟩, h1, h2⟩
      subst h2
      exact ⟨h1.symm, p, rfl, hi, he⟩
    · rintro ⟨h1, q, rfl, hi, he⟩
      exact ⟨key.2, ⟨hi, he⟩, h1.symm, rfl⟩

theorem compute_missing_cases {rs rs' : RxState} (h : compute_missing_locked_ now rs = some rs') :
    ∃ ns, rs' = { rs with nack_state := ns } ∧ (rs.any_seen = false → ns = rs.nack_state) ∧
      (rs.any_seen = true → ns = (((List.range' rs.next_rx_seq
        (rs.max_seen_seq + 1 - rs.next_rx_seq)).flatMap (missing_of rs.pending)).foldl
          (note_missing now) rs.nack_state)) := by
  unfold compute_missing_locked_ at h
  split at h
  · next hany =>
    obtain rfl := Option.some.inj h
    refine ⟨rs.nack_state, rfl, fun _ => rfl, fun ht => ?_⟩
    rw [ht] at hany
    cases hany
  · next hany =>
    split at h
    · cases h
    · obtain rfl := Option.some.inj h
      refine ⟨_, rfl, fun hf => ?_, fun _ => rfl⟩
      rw [hf] at hany
      exact absurd rfl hany

theorem satisfied_iff {rs : RxState} : satisfied rs key = true ↔ key.1 < rs.next_rx_seq ∨
    ∃ p, rs.pending.lookup key.1 = some p ∧ 0 < p.frag_total ∧ key.2 < p.frags.length ∧
      p.frags.getD key.2 [] ≠ [] := by
  unfold satisfied
  cases rs.pending.lookup key.1 with
  | none => simp
  | some p =>
    simp only [gt_iff_lt, Bool.or_eq_true, decide_eq_true_eq, Bool.and_eq_true, Bool.not_eq_true',
      List.isEmpty_eq_false_iff, and_assoc, Option.some.injEq, ne_eq]
    constructor
    · rintro (h | h)
      · exact .inl h
      · exact .inr ⟨p, rfl, h⟩
    · rintro (h | ⟨q, rfl, h⟩)
      · exact .inl h
      · exact .inr h

end Records

/-! ## The loop over the records -/

section Scan
variable {C : Config} {sender now : ℕ} {rs : RxState}

theorem scan_record_cases (acc : NackScan) (key : ℕ × ℕ) :
    scan_record C sender rs now acc key = acc ∨
    (satisfied rs key = true ∧ scan_record C sender rs now acc key =
      { acc with nack_state := acc.nack_state.erase key }) ∨
    (∃ m, scan_record C sender rs now acc key = { acc with poison_reason := some m }) ∨
    (∃ r, acc.nack_state.lookup key = some r ∧ satisfied rs key = false ∧
      r.attempts < C.retx_k_recv_ ∧ scan_record C sender rs now acc key = { acc with
        due := acc.due ++ [key]
        nack_state := acc.nack_state.insert key
          { attempts := r.attempts + 1, last_nack_ns := now } }) := by
  unfold scan_record
  split
  · exact .inl rfl
  · cases hlook : acc.nack_state.lookup key with
    | none => exact .inl rfl
    | some r =>
      dsimp only
      split
      · next hsat => exact .inr (.inl ⟨hsat, rfl⟩)
      · next hsat =>
        split
        · split
          · exact .inr (.inr (.inl ⟨_, rfl⟩))
          · next hleft =>
            exact .inr (.inr (.inr ⟨r, rfl, Bool.eq_false_iff.mpr hsat, by omega, rfl⟩))
        · exact .inl rfl

theorem scan_keeps (keys : List (ℕ × ℕ)) (acc : NackScan) (key : ℕ × ℕ) :
    (key ∈ (keys.foldl (scan_record C sender rs now) acc).nack_state → key ∈ acc.nack_state) ∧
    (key ∈ acc.nack_state → satisfied rs key = false →
      key ∈ (keys.foldl (scan_record C sender rs now) acc).nack_state) ∧
    (key ∈ (keys.foldl (scan_record C sender rs now) acc).due →
      key ∈ acc.due ∨ key ∈ acc.nack_state) := by
  induction keys generalizing acc with
  | nil => exact ⟨id, fun h _ => h, .inl⟩
  | cons k keys ih =>
    rw [List.foldl_cons]
    obtain ⟨h1, h2, h3⟩ := ih (scan_record C sender rs now acc k)
    rcases @scan_record_cases C sender now rs acc k with
      he | ⟨hsat, he⟩ | ⟨m, he⟩ | ⟨r, hlook, -, -, he⟩
    · rw [he] at h1 h2 h3 ⊢
      exact ⟨h1, h2, h3⟩
    · rw [he] at h1 h2 h3 ⊢
      refine ⟨fun h => (AList.mem_erase.mp (h1 h)).2, fun h hns => h2 ?_ hns, fun h => ?_⟩
      · refine AList.mem_erase.mpr ⟨?_, h⟩
        rintro rfl
        rw [hsat] at hns
        cases hns
      · exact (h3 h).imp id fun h => (AList.mem_erase.mp h).2
    · rw [he] at h1 h2 h3 ⊢
      exact ⟨h1, h2, h3⟩
    · rw [he] at h1 h2 h3 ⊢
      have hk : k ∈ acc.nack_state := AList.lookup_isSome.mp (by rw [hlook]; rfl)
      have hmem : key ∈ acc.nack_state.insert k
          { attempts := r.attempts + 1, last_nack_ns := now } ↔ key ∈ acc.nack_state := by
        rw [AList.mem_insert]
        constructor
        · rintro (rfl | h)
          · exact hk
          · exact h
        · exact .inr
      refine ⟨fun h => hmem.mp (h1 h), fun h => h2 (hmem.mpr h), fun h => ?_⟩
      obtain h | h := h3 h
      · obtain h | h := List.mem_append.mp h
        · exact .inl h
        · exact .inr (List.mem_singleton.mp h ▸ hk)
      · exact .inr (hmem.mp h)

/-! ## The account -/

/-- `cnt key` is how often `key` was asked for, `closed` the fragments that will not be asked for
again. -/
structure Book (k : ℕ) (closed : ℕ × ℕ → Prop) (cnt : ℕ × ℕ → ℕ)
    (ns : AList (fun _ : ℕ × ℕ => NackRec)) : Prop where
  budget : ∀ key, cnt key ≤ k
  recorded : ∀ key r, ns.lookup key = some r → cnt key ≤ r.attempts
  unrecorded : ∀ key, key ∉ ns → cnt key = 0 ∨ closed key

variable {k : ℕ} {closed closed' : ℕ × ℕ → Prop} {cnt : ℕ × ℕ → ℕ}
  {ns : AList (fun _ : ℕ × ℕ => NackRec)}

theorem Book.note_missing (h : Book k closed cnt ns) {key : ℕ × ℕ} (hopen : ¬ closed key) :
    Book k closed cnt (note_missing now ns key) := by
  unfold Io.note_missing
  split
  · exact h
  · next hkey =>
    refine ⟨h.budget, ?_, ?_⟩
    · intro key' r hr
      by_cases hk : key' = key
      · subst hk
        have h0 := (h.unrecorded key' hkey).resolve_right hopen
        rw [h0]
        exact Nat.zero_le _
      · rw [AList.lookup_insert_ne hk] at hr
        exact h.recorded key' r hr
    · intro key' hk
      rw [AList.mem_insert, not_or] at hk
      exact h.unrecorded key' hk.2

theorem Book.foldl_note_missing (h : Book k closed cnt ns) {keys : List (ℕ × ℕ)}
    (hopen : ∀ key ∈ keys, ¬ closed key) :
    Book k closed cnt (keys.foldl (Io.note_missing now) ns) := by
  induction keys generalizing ns with
  | nil => exact h
  | cons key keys ih =>
    rw [List.foldl_cons]
    exact ih (h.note_missing (hopen key (List.mem_cons_self ..)))
      fun key' hk => hopen key' (List.mem_cons_of_mem _ hk)

theorem Book.erase (h : Book k closed cnt ns) {key : ℕ × ℕ} (hle : ∀ key, closed key → closed' key)
    (hclosed : closed' key) : Book k closed' cnt (ns.erase key) := by
  refine ⟨h.budget, ?_, ?_⟩
  · intro key' r hr
    by_cases hk : key' = key
    · subst hk
      rw [AList.lookup_erase] at hr
      cases hr
    · rw [AList.lookup_erase_ne hk] at hr
      exact h.recorded key' r hr
  · intro key' hk
    by_cases hkk : key' = key
    · subst hkk
      exact .inr hclosed
    · have hns : key' ∉ ns := fun hm => hk (AList.mem_erase.mpr ⟨hkk, hm⟩)
      exact (h.unrecorded key' hns).imp id (hle key')

theorem Book.scan {due : List (ℕ × ℕ)} {acc : NackScan} {keys : List (ℕ × ℕ)}
    (hsat : ∀ key, satisfied rs key = true → closed key) (hdue : acc.due = due)
    (h : Book C.retx_k_recv_ closed (fun key => cnt key + due.count key) acc.nack_state) :
    Book C.retx_k_recv_ closed
      (fun key => cnt key + (keys.foldl (scan_record C sender rs now) acc).due.count key)
      (keys.foldl (scan_record C sender rs now) acc).nack_state := by
  induction keys generalizing acc due with
  | nil =>
    subst hdue
    exact h
  | cons key keys ih =>
    subst hdue
    rw [List.foldl_cons]
    apply ih rfl
    rcases @scan_record_cases C sender now rs acc key with
      he | ⟨hs, he⟩ | ⟨m, he⟩ | ⟨r, hlook, -, hleft, he⟩
    · rw [he]
      exact h
    · rw [he]
      exact h.erase (fun _ hc => hc) (hsat key hs)
    · rw [he]
      exact h
    · rw [he]
      have hr := h.recorded key r hlook
      have hcount : ∀ key', (acc.due ++ [key]).count key' =
          acc.due.count key' + if key = key' then 1 else 0 := by
        intro key'
        rw [List.count_append, List.count_singleton]
        simp only [beq_iff_eq]
      refine ⟨?_, ?_, ?_⟩
      · intro key'
        dsimp only
        rw [hcount]
        split
        · next hk =>
          subst hk
          omega
        · exact h.budget key'
      · intro key' r' hr'
        dsimp only at hr' ⊢
        rw [hcount]
        by_cases hk : key' = key
        · subst hk
          rw [AList.lookup_insert] at hr'
          obtain rfl := Option.some.inj hr'
          rw [if_pos rfl]
          dsimp only
          omega
        · rw [AList.lookup_insert_ne hk] at hr'
          rw [if_neg (fun e => hk e.symm)]
          exact h.recorded key' r' hr'
      · intro key' hk
        dsimp only at hk ⊢
        rw [AList.mem_insert, not_or] at hk
        rw [hcount, if_neg (fun e => hk.1 e.symm)]
        exact h.unrecorded key' hk.2

end Scan
end QSync.Io
