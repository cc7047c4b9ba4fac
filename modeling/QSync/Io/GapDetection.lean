import QSync.Io.NackDiscipline

/-! # Gap detection

After a tick the receiver has a record of a fragment of a lost datagram's stream exactly when that
stream is no later than the latest one heard of. What follows the last stream that arrived is never
missed.
-/

namespace QSync.Io
open QSync.Network
set_option autoImplicit false
set_option maxHeartbeats 250000

/-- The datagram `key` was emitted and has not arrived. -/
def Link.Lost (L : Link) (key : ℕ × ℕ) : Prop :=
  (∃ e ∈ L.wire, e.seq = key.1 ∧ e.i = key.2) ∧ ¬ ∃ a ∈ L.arrived, a.seq = key.1 ∧ a.i = key.2

instance (L : Link) (key : ℕ × ℕ) : Decidable (L.Lost key) :=
  inferInstanceAs (Decidable ((∃ e ∈ L.wire, e.seq = key.1 ∧ e.i = key.2) ∧
    ¬ ∃ a ∈ L.arrived, a.seq = key.1 ∧ a.i = key.2))

/-- An idle tick leaves a record of a fragment of stream `n` that has not arrived. -/
def Link.AsksFor (P : Pipe) (L : Link) (n : ℕ) : Prop :=
  ∀ now₁ now₂, ∃ rs due, drain_nack_state_ P.T P.s now₁ now₂ (L.rx_ P.s) = some (rs, due) ∧
    ∃ i, (n, i) ∈ rs.nack_state ∧ ¬ ∃ a ∈ L.arrived, a.seq = n ∧ a.i = i

/-- What the receiver knows of the streams is what it has heard. -/
structure Heard (P : Pipe) (L : Link) : Prop where
  silent : (L.rx_ P.s).any_seen = false → L.arrived = [] ∧ (L.rx_ P.s).nack_state = ∅
  latest : (L.rx_ P.s).any_seen = true → (∃ a ∈ L.arrived, a.seq = (L.rx_ P.s).max_seen_seq) ∧
    (∀ a ∈ L.arrived, a.seq ≤ (L.rx_ P.s).max_seen_seq) ∧
    ∀ key ∈ (L.rx_ P.s).nack_state, key.1 ≤ (L.rx_ P.s).max_seen_seq

section Heard
variable {P : Pipe} {addr : ℕ} {L L' : Link}

theorem Heard.same (h : Heard P L) (hany : (L'.rx_ P.s).any_seen = (L.rx_ P.s).any_seen)
    (hmax : (L'.rx_ P.s).max_seen_seq = (L.rx_ P.s).max_seen_seq)
    (hns : (L'.rx_ P.s).nack_state = (L.rx_ P.s).nack_state) (harr : L'.arrived = L.arrived) :
    Heard P L' where
  silent := by
    rw [hany, hns, harr]
    exact h.silent
  latest := by
    rw [hany, hmax, hns, harr]
    exact h.latest

theorem Heard.any_seen (h : Heard P L) {a : Emission} (ha : a ∈ L.arrived) :
    (L.rx_ P.s).any_seen = true := by
  by_contra hf
  rw [(h.silent (Bool.eq_false_iff.mpr hf)).1] at ha
  cases ha

theorem scan_streams {rs rs' : RxState} {now : ℕ} (h : compute_missing_locked_ now rs = some rs')
    (hany : rs.any_seen = true) {key : ℕ × ℕ} :
    key ∈ rs'.nack_state ↔ key ∈ rs.nack_state ∨
      rs.next_rx_seq ≤ key.1 ∧ key.1 ≤ rs.max_seen_seq ∧ key ∈ missing_of rs.pending key.1 := by
  obtain ⟨ns, rfl, -, hon⟩ := compute_missing_cases h
  dsimp only
  rw [hon hany, mem_foldl_note_missing, List.mem_flatMap, or_comm]
  apply or_congr Iff.rfl
  constructor
  · rintro ⟨s, hs, hk⟩
    obtain rfl : key.1 = s := (mem_missing_of.mp hk).1
    have hr := List.mem_range'_1.mp hs
    exact ⟨hr.1, by omega, hk⟩
  · rintro ⟨h1, h2, hk⟩
    exact ⟨key.1, List.mem_range'_1.mpr (by omega), hk⟩

theorem Heard.drain (h : Heard P L) {now₁ now₂ : ℕ} {r : RxState × List (ℕ × ℕ)}
    (hr : drain_nack_state_ P.T P.s now₁ now₂ (L.rx_ P.s) = some r)
    (hrx : L'.rx_ P.s = r.1) (harr : L'.arrived = L.arrived) : Heard P L' := by
  unfold drain_nack_state_ at hr
  split at hr
  · obtain rfl := Option.some.inj hr
    apply h.same _ _ _ harr
    all_goals rw [hrx]
  · obtain ⟨rs', hrs', rfl⟩ := Option.map_eq_some_iff.mp hr
    obtain ⟨ns, hns, hoff, -⟩ := compute_missing_cases hrs'
    have hany : (L'.rx_ P.s).any_seen = (L.rx_ P.s).any_seen := by rw [hrx, hns]
    have hmax : (L'.rx_ P.s).max_seen_seq = (L.rx_ P.s).max_seen_seq := by rw [hrx, hns]
    have hsub : ∀ key ∈ (L'.rx_ P.s).nack_state, key ∈ rs'.nack_state := by
      intro key hkey
      rw [hrx] at hkey
      exact (scan_keeps _ _ key).1 hkey
    constructor
    · intro hf
      rw [hany] at hf
      obtain ⟨h1, h2⟩ := h.silent hf
      refine ⟨harr.trans h1, ?_⟩
      have hempty : ∀ key, key ∉ (L'.rx_ P.s).nack_state := by
        intro key hkey
        have hk := hsub key hkey
        rw [hns, hoff hf, h2] at hk
        exact AList.notMem_empty key hk
      apply AList.ext
      apply List.eq_nil_iff_forall_not_mem.mpr
      intro entry hentry
      exact hempty entry.1 (List.mem_map_of_mem hentry)
    · intro ht
      rw [hany] at ht
      obtain ⟨h1, h2, h3⟩ := h.latest ht
      rw [hmax, harr]
      refine ⟨h1, h2, fun key hkey => ?_⟩
      obtain hk | ⟨-, hk, -⟩ := (scan_streams hrs' ht).mp (hsub key hkey)
      · exact h3 key hk
      · exact hk

theorem Heard.data (h : Heard P L) (hsend : Sender P L) {e : Emission} {k : ℕ}
    (he : L.wire[k]? = some e) :
    Heard P { L with rx_ := handle_data_ P.T L.rx_ e.frame, arrived := L.arrived ++ [e] } := by
  obtain ⟨i, -, -, -, -, hrx⟩ := hsend.handled he
  obtain ⟨hns, hmax, hany, -⟩ := accept_marks (L.rx_ P.s) e.seq (i % 2 ^ 16)
    (total (L.msg e.seq).length % 2 ^ 16) (piece (L.msg e.seq) i)
  rw [← hrx] at hns hmax hany
  constructor
  · intro hf
    dsimp only at hf
    rw [hany] at hf
    cases hf
  · intro _
    dsimp only
    rw [hns, hmax]
    unfold RxState.note_arrival
    dsimp only
    cases hseen : (L.rx_ P.s).any_seen with
    | false =>
      obtain ⟨h1, h2⟩ := h.silent hseen
      rw [h1, h2]
      simp only [Bool.not_false, Bool.true_or, if_true]
      refine ⟨⟨e, by simp, rfl⟩, by simp, fun key hkey => ?_⟩
      exact absurd (AList.mem_erase.mp hkey).2 (AList.notMem_empty key)
    | true =>
      obtain ⟨⟨a, ha, hamax⟩, h2, h3⟩ := h.latest hseen
      simp only [Bool.not_true, Bool.false_or, decide_eq_true_eq]
      split
      · next hgt =>
        refine ⟨⟨e, by simp, rfl⟩, fun b hb => ?_, fun key hkey => ?_⟩
        · obtain hb | hb := List.mem_append.mp hb
          · exact (h2 b hb).trans (Nat.le_of_lt hgt)
          · rw [List.mem_singleton.mp hb]
        · exact (h3 key (AList.mem_erase.mp hkey).2).trans (Nat.le_of_lt hgt)
      · next hle =>
        refine ⟨⟨a, List.mem_append_left _ ha, hamax⟩, fun b hb => ?_, fun key hkey => ?_⟩
        · obtain hb | hb := List.mem_append.mp hb
          · exact h2 b hb
          · rw [List.mem_singleton.mp hb]
            omega
        · exact h3 key (AList.mem_erase.mp hkey).2

theorem Heard.step (h : Heard P L) (hsend : Sender P L) {ev : Event}
    (hs : L.step P addr ev = some L') : Heard P L' := by
  cases ev with
  | send data =>
    obtain ⟨-, -, rfl⟩ := Link.step_send hs
    exact h.same rfl rfl rfl rfl
  | retain =>
    obtain ⟨c, -, -, rfl⟩ := Link.step_retain hs
    exact h.same rfl rfl rfl rfl
  | sendto ok =>
    obtain ⟨c, -, rfl⟩ := Link.step_sendto hs
    exact h.same rfl rfl rfl rfl
  | finish =>
    obtain ⟨c, -, -, rfl⟩ := Link.step_finish hs
    exact h.same rfl rfl rfl rfl
  | data k =>
    obtain ⟨e, he, rfl⟩ := Option.map_eq_some_iff.mp hs
    exact h.data hsend he
  | recv len =>
    obtain ⟨r, hr, rfl⟩ := Option.map_eq_some_iff.mp hs
    obtain ⟨-, q, -, rfl⟩ := recv_inv hr
    apply h.same
    · dsimp only
      rw [Function.update_self]
    · dsimp only
      rw [Function.update_self]
    · dsimp only
      rw [Function.update_self]
    · rfl
  | drain now₁ now₂ =>
    obtain ⟨r, hr, rfl⟩ := Option.map_eq_some_iff.mp hs
    exact h.drain hr (Function.update_self ..) rfl
  | nack k =>
    obtain ⟨b, -, rfl⟩ := Option.map_eq_some_iff.mp hs
    dsimp only
    unfold Link.reply
    split <;> exact h.same rfl rfl rfl rfl
  | poison k =>
    obtain ⟨b, -, rfl⟩ := Option.map_eq_some_iff.mp hs
    obtain ⟨m, hrx⟩ := handle_poison_same P.T L.rx_ b P.s
    apply h.same
    · dsimp only
      rw [hrx]
    · dsimp only
      rw [hrx]
    · dsimp only
      rw [hrx]
    · rfl

/-- In a stream that is not after the latest one heard of, a tick records a datagram that is lost. -/
theorem InStep.records_lost (h : InStep False P L) (hh : Heard P L) {e a : Emission}
    (hcount : fragCount (L.msg e.seq).length ≤ 65535) (he : e ∈ L.wire)
    (hlost : ¬ ∃ a ∈ L.arrived, a.seq = e.seq ∧ a.i = e.i) (ha : a ∈ L.arrived) (hle : e.seq ≤ a.seq)
    {now : ℕ} {rs : RxState} (hrs : compute_missing_locked_ now (L.rx_ P.s) = some rs) :
    ∃ i, (e.seq, i) ∈ rs.nack_state ∧ satisfied rs (e.seq, i) = false ∧ L.Lost (e.seq, i) := by
  have hany : (L.rx_ P.s).any_seen = true := hh.any_seen ha
  have hmax : e.seq ≤ (L.rx_ P.s).max_seen_seq := hle.trans ((hh.latest hany).2.1 a ha)
  obtain ⟨data, i, hdata, hi, hlabel, -, e₀, he₀, hseq₀, hi₀⟩ := h.sender.wire e he
  have hmsg : L.msg e.seq = data := by
    unfold Link.msg
    rw [List.getD_eq_getElem?_getD, hdata, Option.getD_some]
  have hei : e.i < fragCount (L.msg e.seq).length := by
    have := total_le data.length
    rw [hmsg] at hcount ⊢
    omega
  have hnotmem : e.i ∉ L.arrivedOf e.seq := fun hm => hlost (Link.mem_arrivedOf.mp hm)
  have hnext : (L.rx_ P.s).next_rx_seq ≤ e.seq := by
    by_contra hlt
    rw [h.reasm.done e.seq (by omega)] at hnotmem
    exact hnotmem (Finset.mem_range.mpr hei)
  obtain ⟨ns, hns, -, -⟩ := compute_missing_cases hrs
  have hnx : rs.next_rx_seq = (L.rx_ P.s).next_rx_seq := by rw [hns]
  have hpd : rs.pending = (L.rx_ P.s).pending := by rw [hns]
  cases hp : (L.rx_ P.s).pending.lookup e.seq with
  | none =>
    -- nothing of the stream is held: its first fragment is recorded
    have hA := h.reasm.absent e.seq hnext hp
    refine ⟨0, (scan_streams hrs hany).mpr (.inr ⟨hnext, hmax, ?_⟩), ?_, ⟨e₀, he₀, hseq₀, hi₀⟩,
      ?_⟩
    · exact mem_missing_of.mpr ⟨rfl, .inl ⟨hp, rfl⟩⟩
    · apply Bool.eq_false_iff.mpr
      intro hsat
      obtain hlt | ⟨p, hp', -⟩ := satisfied_iff.mp hsat
      · dsimp only at hlt
        omega
      · rw [hpd, hp] at hp'
        cases hp'
    · intro har
      have hm := Link.mem_arrivedOf.mpr har
      rw [hA] at hm
      exact Finset.notMem_empty 0 hm
  | some p =>
    -- part of the stream is held: the place of the lost fragment is empty
    obtain ⟨-, htot, hfrags, -⟩ := h.reasm.held e.seq p hnext hp
    have hempty : p.frags.getD e.i [] = [] := by
      rw [hfrags, getD_filled hei, if_neg hnotmem]
    refine ⟨e.i, (scan_streams hrs hany).mpr (.inr ⟨hnext, hmax, ?_⟩), ?_,
      ⟨e, he, rfl, rfl⟩, hlost⟩
    · exact mem_missing_of.mpr ⟨rfl, .inr ⟨p, hp, htot ▸ hei, hempty⟩⟩
    · apply Bool.eq_false_iff.mpr
      intro hsat
      obtain hlt | ⟨q, hq, -, -, hf⟩ := satisfied_iff.mp hsat
      · dsimp only at hlt
        omega
      · rw [hpd, hp] at hq
        obtain rfl := Option.some.inj hq
        exact hf hempty

theorem Heard.run (h : Runs (Link.step P addr) anytime {} L) (hlen : L.log.length < 2 ^ 32) :
    Sender P L ∧ Heard P L := by
  have hI : L.log.length < 2 ^ 32 → Sender P L ∧ Heard P L := by
    apply h.invariant (I := fun L => L.log.length < 2 ^ 32 → Sender P L ∧ Heard P L)
    · intro _
      exact ⟨Sender.init, ⟨fun _ => ⟨rfl, rfl⟩, by simp⟩⟩
    · intro L₁ e L₂ ih _ hs hlen₂
      obtain ⟨h1, h2⟩ := ih ((Link.log_le hs).length_le.trans_lt hlen₂)
      exact ⟨h1.step hs hlen₂, h2.step h1 hs⟩
  exact hI hlen

/-- After a tick only streams are on record that are no later than the latest one heard of. -/
theorem Heard.recorded_le (hh : Heard P L) (hpoison : (L.rx_ P.s).poisoned = none) {now₁ now₂ : ℕ}
    {r : RxState × List (ℕ × ℕ)} (hr : drain_nack_state_ P.T P.s now₁ now₂ (L.rx_ P.s) = some r)
    {key : ℕ × ℕ} (hkey : key ∈ r.1.nack_state) : ∃ a ∈ L.arrived, key.1 ≤ a.seq := by
  unfold drain_nack_state_ at hr
  rw [hpoison, if_neg (by simp)] at hr
  obtain ⟨rs', hrs', rfl⟩ := Option.map_eq_some_iff.mp hr
  have hmem : key ∈ rs'.nack_state := (scan_keeps _ _ _).1 hkey
  cases hany : (L.rx_ P.s).any_seen with
  | false =>
    obtain ⟨ns, rfl, hoff, -⟩ := compute_missing_cases hrs'
    dsimp only at hmem
    rw [hoff hany, (hh.silent hany).2] at hmem
    exact absurd hmem (AList.notMem_empty _)
  | true =>
    obtain ⟨⟨a, ha, hamax⟩, -, hle⟩ := hh.latest hany
    refine ⟨a, ha, ?_⟩
    rw [hamax]
    obtain hk | ⟨-, hk, -⟩ := (scan_streams hrs' hany).mp hmem
    · exact hle key hk
    · exact hk

/-- The scan ends: streams are numbered below the number of messages. -/
theorem Heard.scans (hh : Heard P L) (hsend : Sender P L) (hlen : L.log.length < 2 ^ 32) {a : Emission}
    (ha : a ∈ L.arrived) (now : ℕ) : ∃ rs, compute_missing_locked_ now (L.rx_ P.s) = some rs := by
  have hany : (L.rx_ P.s).any_seen = true := hh.any_seen ha
  obtain ⟨b, hb, hbmax⟩ := (hh.latest hany).1
  obtain ⟨_, -, hblog, -⟩ := hsend.wire b (hsend.arrived b hb)
  have hmax : (L.rx_ P.s).max_seen_seq + 1 ≠ 2 ^ 32 := by
    have := (List.getElem?_eq_some_iff.mp hblog).1
    omega
  unfold compute_missing_locked_
  rw [hany, if_neg (by simp), if_neg hmax]
  exact ⟨_, rfl⟩

/-- A stream of which a datagram is lost is asked for, when a datagram no earlier has arrived. -/
theorem InStep.asksFor (h : InStep False P L) (hh : Heard P L) (hlen : L.log.length < 2 ^ 32)
    (hsmall : L.Small) (hpoison : (L.rx_ P.s).poisoned = none) {key : ℕ × ℕ} (hlost : L.Lost key)
    {a : Emission} (ha : a ∈ L.arrived) (hle : key.1 ≤ a.seq) : L.AsksFor P key.1 := by
  intro now₁ now₂
  obtain ⟨⟨e, he, hseq, hi⟩, hlost⟩ := hlost
  rw [← hseq] at hle ⊢
  rw [← hseq, ← hi] at hlost
  obtain ⟨data, -, hdata, -⟩ := h.sender.wire e he
  have hcount : fragCount (L.msg e.seq).length ≤ 65535 := by
    obtain ⟨hn, hget⟩ := List.getElem?_eq_some_iff.mp hdata
    have hmsg : L.msg e.seq = data := by
      unfold Link.msg
      rw [List.getD_eq_getElem?_getD, hdata, Option.getD_some]
    rw [hmsg]
    exact hsmall data (hget ▸ List.getElem_mem hn)
  obtain ⟨rs, hrs⟩ := hh.scans h.sender hlen ha now₁
  obtain ⟨i, h1, h2, h3⟩ := h.records_lost hh hcount he hlost ha hle hrs
  unfold drain_nack_state_
  rw [hpoison, if_neg (by simp), hrs]
  exact ⟨_, _, rfl, i, (scan_keeps _ _ _).2.1 h1 h2, h3.2⟩

end Heard

/-- Three messages, of which only the second arrives. -/
def threeSent : List Event :=
  [[7], [8], [9]].flatMap (fun data => [.send data, .retain, .sendto true, .finish]) ++ [.data 1]

theorem threeSent_run : ∃ L, Runs (Link.step pipe01 2) anytime {} L ∧ L.log.length < 2 ^ 32 ∧
    L.Small ∧ (L.rx_ pipe01.s).poisoned = none ∧ L.Lost (0, 0) ∧ L.Lost (2, 0) := by
  refine ⟨_, Runs.exec_getD threeSent rfl, by decide, ?_, by decide, by decide, by decide⟩
  unfold Link.Small
  decide

end QSync.Io
