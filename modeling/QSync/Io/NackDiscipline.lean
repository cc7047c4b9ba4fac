import QSync.Io.Delivery
import QSync.Io.NackRecords

/-! # NACK discipline

A receiver asks only for fragments that have not arrived, within its budget, and so an honest sender
with at least that budget never gives the pipe up for it. This holds for messages of any length, as
long as no empty fragment is put into `pending`, where it looks like a missing one.
-/

namespace QSync.Io
open QSync.Network
set_option autoImplicit false
set_option maxHeartbeats 250000

/-! ## What is held, whatever the totals say -/

/-- `ar` are the fragments that arrived, `T n` the total in the frames of stream `n`, of `N`
streams. -/
structure Held (ar : ℕ × ℕ → Prop) (T : ℕ → ℕ) (N : ℕ) (rs : RxState) : Prop where
  next_le : rs.next_rx_seq ≤ N
  sent : ∀ key, ar key → key.1 < N
  width : ∀ n p, rs.pending.lookup n = some p → p.frag_total = T n ∧ p.frags.length = T n
  known : ∀ n p, rs.pending.lookup n = some p → ∃ x, ar (n, x)
  real : ∀ n p i, rs.pending.lookup n = some p → p.frags.getD i [] ≠ [] → ar (n, i)
  held : ∀ n x, ar (n, x) → rs.next_rx_seq ≤ n →
    ∃ p, rs.pending.lookup n = some p ∧ (x < T n → p.frags.getD x [] ≠ [])

section Held
variable {ar : ℕ × ℕ → Prop} {T T' : ℕ → ℕ} {N N' : ℕ} {rs rs' : RxState}

theorem getD_resize (frags : List Bytes) (tot i : ℕ) (h : frags.length ≤ tot) :
    (resize frags tot).getD i [] = frags.getD i [] := by
  unfold resize
  rw [List.take_of_length_le h, List.getD_eq_getElem?_getD, List.getD_eq_getElem?_getD,
    List.getElem?_append]
  split
  · rfl
  · next hi =>
    rw [List.getElem?_eq_none (Nat.le_of_not_lt hi), List.getElem?_replicate]
    split <;> rfl

theorem Partial.add_facts {p : Partial} {x tot : ℕ} {payload : Bytes}
    (hp : p.frag_total = 0 ∨ p.frag_total = tot) (hw : p.frags.length = p.frag_total)
    (hne : payload ≠ []) :
    (p.add x tot payload).frag_total = tot ∧ (p.add x tot payload).frags.length = tot ∧
      (x < tot → (p.add x tot payload).frags.getD x [] ≠ []) ∧
      (∀ i, p.frags.getD i [] ≠ [] → (p.add x tot payload).frags.getD i [] ≠ []) ∧
      (∀ i, (p.add x tot payload).frags.getD i [] ≠ [] → i = x ∨ p.frags.getD i [] ≠ []) := by
  unfold Partial.add
  dsimp only
  rw [if_pos (List.length_pos_iff.mpr hne)]
  -- the entry with its total set
  generalize hq : (if p.frag_total = 0 then
    { p with frag_total := tot, frags := resize p.frags tot } else p) = q
  have hqt : q.frag_total = tot ∧ q.frags.length = tot ∧
      ∀ i, q.frags.getD i [] = p.frags.getD i [] := by
    subst hq
    split
    · next h0 =>
      have hle : p.frags.length ≤ tot := by omega
      exact ⟨rfl, length_resize _ _, fun i => getD_resize _ _ _ hle⟩
    · next h0 =>
      have ht := hp.resolve_left h0
      exact ⟨ht, by omega, fun _ => rfl⟩
  obtain ⟨h1, h2, h3⟩ := hqt
  rw [h1]
  split
  · next hx =>
    split
    · next hemp =>
      refine ⟨rfl, by rw [List.length_set, h2], fun _ => ?_, fun i hi => ?_, fun i hi => ?_⟩
      · rw [getD_set _ _ _ _ (by omega), if_pos rfl]
        exact hne
      · rw [getD_set _ _ _ _ (by omega)]
        split
        · exact hne
        · rwa [h3]
      · rw [getD_set _ _ _ _ (by omega)] at hi
        split at hi
        · next hix => exact .inl hix
        · exact .inr (by rwa [h3] at hi)
    · next hfull =>
      rw [List.isEmpty_iff] at hfull
      refine ⟨h1, h2, fun _ => hfull, fun i hi => ?_, fun i hi => ?_⟩
      · rwa [h3]
      · rw [h3] at hi
        exact .inr hi
  · next hx =>
    refine ⟨h1, h2, fun h => absurd h hx, fun i hi => ?_, fun i hi => ?_⟩
    · rwa [h3]
    · rw [h3] at hi
      exact .inr hi

theorem Held.congr (h : Held ar T N rs) (hnext : rs'.next_rx_seq = rs.next_rx_seq)
    (hpend : rs'.pending = rs.pending) : Held ar T N rs' where
  next_le := hnext ▸ h.next_le
  sent := h.sent
  width := hpend ▸ h.width
  known := hpend ▸ h.known
  real := hpend ▸ h.real
  held := by
    rw [hnext, hpend]
    exact h.held

theorem Held.mono (h : Held ar T N rs) (hN : N ≤ N') (hT : ∀ n < N, T' n = T n) :
    Held ar T' N' rs where
  next_le := h.next_le.trans hN
  sent := fun key hk => (h.sent key hk).trans_le hN
  width := by
    intro n p hp
    obtain ⟨x, hx⟩ := h.known n p hp
    rw [hT n (h.sent _ hx)]
    exact h.width n p hp
  known := h.known
  real := h.real
  held := by
    intro n x hx hn
    rw [hT n (h.sent _ hx)]
    exact h.held n x hx hn

theorem Held.advance (h : Held ar T N rs) (hlt : rs.next_rx_seq < N)
    (hnext : rs'.next_rx_seq = rs.next_rx_seq + 1)
    (hpend : rs'.pending = rs.pending ∨ rs'.pending = rs.pending.erase rs.next_rx_seq) :
    Held ar T N rs' := by
  have hsub : ∀ n p, rs'.pending.lookup n = some p → rs.pending.lookup n = some p := by
    intro n p hp
    obtain he | he := hpend
    · rwa [he] at hp
    · rw [he] at hp
      by_cases hn : n = rs.next_rx_seq
      · rw [hn, AList.lookup_erase] at hp
        cases hp
      · rwa [AList.lookup_erase_ne hn] at hp
  refine ⟨by omega, h.sent, fun n p hp => h.width n p (hsub n p hp),
    fun n p hp => h.known n p (hsub n p hp), fun n p i hp => h.real n p i (hsub n p hp), ?_⟩
  intro n x hx hn
  obtain ⟨p, hp, hf⟩ := h.held n x hx (by omega)
  refine ⟨p, ?_, hf⟩
  obtain he | he := hpend
  · rwa [he]
  · rwa [he, AList.lookup_erase_ne (by omega)]

theorem Held.drain (hN : N < 2 ^ 32) (fuel : ℕ) {rs : RxState} (h : Held ar T N rs) :
    Held ar T N (drain_pending fuel rs) ∧
      rs.next_rx_seq ≤ (drain_pending fuel rs).next_rx_seq := by
  induction fuel generalizing rs with
  | zero => exact ⟨h, le_rfl⟩
  | succ fuel ih =>
    unfold drain_pending
    cases hp : rs.pending.lookup rs.next_rx_seq with
    | none => exact ⟨h, le_rfl⟩
    | some p =>
      dsimp only
      split
      · exact ⟨h, le_rfl⟩
      · obtain ⟨x, hx⟩ := h.known _ p hp
        have hlt : rs.next_rx_seq < N := h.sent _ hx
        have hmod : (rs.next_rx_seq + 1) % 2 ^ 32 = rs.next_rx_seq + 1 := Nat.mod_eq_of_lt (by omega)
        rw [hmod]
        suffices hadv : Held ar T N _ from (ih hadv).imp id (Nat.le_succ _).trans
        exact h.advance hlt rfl (.inr rfl)

theorem Held.sent_insert (h : Held ar T N rs) {n x : ℕ} (hn : n < N) :
    ∀ key, key = (n, x) ∨ ar key → key.1 < N := by
  rintro key (rfl | hk)
  · exact hn
  · exact h.sent key hk

/-- An arrival for a stream already passed on. -/
theorem Held.late (h : Held ar T N rs) {n x : ℕ} (hn : n < N) (hlate : n < rs.next_rx_seq) :
    Held (fun key => key = (n, x) ∨ ar key) T N rs := by
  refine ⟨h.next_le, h.sent_insert hn, h.width, fun m p hp => ?_, fun m p i hp hi => ?_,
    fun m y hy hm => ?_⟩
  · obtain ⟨y, hy⟩ := h.known m p hp
    exact ⟨y, .inr hy⟩
  · exact .inr (h.real m p i hp hi)
  · obtain hy | hy := hy
    · obtain ⟨rfl, -⟩ := Prod.ext_iff.mp hy
      exact absurd hm (Nat.not_le_of_lt hlate)
    · exact h.held m y hy hm

/-- An arrival that is put into the partial of its stream. -/
theorem Held.hold (h : Held ar T N rs) {n x : ℕ} {payload : Bytes} (hn : n < N)
    (hne : payload ≠ []) :
    Held (fun key => key = (n, x) ∨ ar key) T N
      { rs with
        pending := rs.pending.insert n (((rs.pending.lookup n).getD {}).add x (T n) payload) } := by
  have hold : ((rs.pending.lookup n).getD {}).frag_total = 0 ∨
      ((rs.pending.lookup n).getD {}).frag_total = T n := by
    cases hp : rs.pending.lookup n with
    | none => exact .inl rfl
    | some p => exact .inr (h.width n p hp).1
  have hwidth : ((rs.pending.lookup n).getD {}).frags.length =
      ((rs.pending.lookup n).getD {}).frag_total := by
    cases hp : rs.pending.lookup n with
    | none => rfl
    | some p =>
      rw [Option.getD_some, (h.width n p hp).1, (h.width n p hp).2]
  obtain ⟨f1, f2, f3, f4, f5⟩ := Partial.add_facts (x := x) hold hwidth hne
  refine ⟨h.next_le, h.sent_insert hn, fun m p hp => ?_, fun m p hp => ?_,
    fun m p i hp hi => ?_, fun m y hy hm => ?_⟩
  · by_cases hmn : m = n
    · subst hmn
      rw [AList.lookup_insert] at hp
      obtain rfl := Option.some.inj hp
      exact ⟨f1, f2⟩
    · rw [AList.lookup_insert_ne hmn] at hp
      exact h.width m p hp
  · by_cases hmn : m = n
    · exact ⟨x, .inl (by rw [hmn])⟩
    · rw [AList.lookup_insert_ne hmn] at hp
      obtain ⟨y, hy⟩ := h.known m p hp
      exact ⟨y, .inr hy⟩
  · by_cases hmn : m = n
    · subst hmn
      rw [AList.lookup_insert] at hp
      obtain rfl := Option.some.inj hp
      obtain rfl | hi' := f5 i hi
      · exact .inl rfl
      · right
        cases hq : rs.pending.lookup m with
        | none =>
          rw [hq] at hi'
          exact absurd rfl hi'
        | some q =>
          rw [hq] at hi'
          exact h.real m q i hq hi'
    · rw [AList.lookup_insert_ne hmn] at hp
      exact .inr (h.real m p i hp hi)
  · by_cases hmn : m = n
    · subst hmn
      refine ⟨_, AList.lookup_insert _, fun hy' => ?_⟩
      obtain hy | hy := hy
      · obtain ⟨-, rfl⟩ := Prod.ext_iff.mp hy
        exact f3 hy'
      · obtain ⟨p, hp, hpf⟩ := h.held m y hy hm
        apply f4
        rw [hp]
        exact hpf hy'
    · obtain hy | hy := hy
      · exact absurd (Prod.ext_iff.mp hy).1 hmn
      · obtain ⟨p, hp, hpf⟩ := h.held m y hy hm
        exact ⟨p, (AList.lookup_insert_ne hmn).trans hp, hpf⟩

theorem Held.accept (h : Held ar T N rs) (hN : N < 2 ^ 32) {n x : ℕ} {payload : Bytes} (hn : n < N)
    (hempty : payload = [] → T n = 1 ∧ n ≤ rs.next_rx_seq) :
    Held (fun key => key = (n, x) ∨ ar key) T N (rs.accept n x (T n) payload) ∧
      rs.next_rx_seq ≤ (rs.accept n x (T n) payload).next_rx_seq := by
  have h0 : Held ar T N (rs.note_arrival n x) := h.congr rfl rfl
  unfold RxState.accept
  dsimp only
  generalize hrs0 : rs.note_arrival n x = rs0 at h0
  have hnext0 : rs0.next_rx_seq = rs.next_rx_seq := by subst hrs0; rfl
  split
  · next hlate => exact ⟨h0.late hn hlate, hnext0.ge⟩
  · next hlate =>
    split
    · next hfast =>
      have hmod : (rs0.next_rx_seq + 1) % 2 ^ 32 = rs0.next_rx_seq + 1 := Nat.mod_eq_of_lt (by omega)
      rw [hmod]
      have hadv : Held ar T N { rs0 with
          rx := if payload.length > 0 then rs0.rx ++ [{ bytes := payload }] else rs0.rx
          rx_bytes := rs0.rx_bytes + payload.length
          next_rx_seq := rs0.next_rx_seq + 1 } := h0.advance (by omega) rfl (.inl rfl)
      have hpast : n < rs0.next_rx_seq + 1 := by omega
      exact (Held.drain hN _ (hadv.late hn hpast)).imp id fun hle =>
        hnext0.ge.trans ((Nat.le_succ _).trans hle)
    · next hfast =>
      have hne : payload ≠ [] := by
        intro hp
        obtain ⟨h1, h2⟩ := hempty hp
        exact hfast ⟨h1, by omega⟩
      exact (Held.drain hN _ (h0.hold hn hne)).imp id hnext0.ge.trans

theorem Held.missing (h : Held ar T N rs) {key : ℕ × ℕ} (hn : rs.next_rx_seq ≤ key.1)
    (hk : key ∈ missing_of rs.pending key.1) : ¬ ar key := by
  intro har
  obtain ⟨p, hp, hf⟩ := h.held key.1 key.2 har hn
  obtain ⟨hnone, -⟩ | ⟨q, hq, hlt, he⟩ := (mem_missing_of.mp hk).2
  · rw [hnone] at hp
    cases hp
  · obtain rfl : q = p := by
      rw [hq] at hp
      exact Option.some.inj hp
    rw [(h.width _ _ hq).1] at hlt
    exact hf hlt he

/-- A satisfied record is of a fragment that arrived, or of a stream already delivered. -/
theorem Held.of_satisfied (h : Held ar T N rs) {key : ℕ × ℕ} (hs : satisfied rs key = true) :
    ar key ∨ key.1 < rs.next_rx_seq := by
  obtain hlt | ⟨p, hp, -, -, hf⟩ := satisfied_iff.mp hs
  · exact .inr hlt
  · exact .inl (h.real key.1 p key.2 hp hf)

end Held

/-! ## The discipline over a run -/

/-- Fragment `key`, as the header names it, has arrived. -/
def Link.HasArrived (L : Link) (key : ℕ × ℕ) : Prop :=
  ∃ e ∈ L.arrived, e.seq = key.1 ∧ e.i % 2 ^ 16 = key.2

def Link.tot16 (L : Link) (n : ℕ) : ℕ := total (L.msg n).length % 2 ^ 16

/-- How often a retained fragment was asked for. -/
def asked (rcd : Option TxRecord) : ℕ := (rcd.map TxRecord.nack_count).getD 0

/-- No empty fragment arrives ahead of its turn. -/
def noEmptyAhead (P : Pipe) (L : Link) : Event → Prop
  | .data k => ∀ e, L.wire[k]? = some e → field e.frame 16 4 = 0 →
      e.seq ≤ (L.rx_ P.s).next_rx_seq
  | _ => True

instance (P : Pipe) (L : Link) : (e : Event) → Decidable (noEmptyAhead P L e)
  | .data k => inferInstanceAs (Decidable (∀ e ∈ L.wire[k]?, field e.frame 16 4 = 0 →
      e.seq ≤ (L.rx_ P.s).next_rx_seq))
  | .send _ | .retain | .sendto _ | .finish | .recv _ | .drain _ _ | .nack _ | .poison _ =>
    inferInstanceAs (Decidable True)

structure Disciplined (P : Pipe) (L : Link) : Prop where
  sender : Sender P L
  held : Held L.HasArrived L.tot16 L.log.length (L.rx_ P.s)
  fresh : ∀ key ∈ (L.rx_ P.s).nack_state, ¬ L.HasArrived key
  book : Book P.T.retx_k_recv_ (fun key => L.HasArrived key ∨ key.1 < (L.rx_ P.s).next_rx_seq)
    (fun key => L.nacks.count key) (L.rx_ P.s).nack_state
  budget : ∃ keys : List (ℕ × ℕ),
    L.nackWire = keys.map (fun key => send_nack_ P.T P.s P.t key.1 key.2) ∧
      ∀ key, asked ((L.tx_ P.t).tx_buf key) + keys.count key ≤ L.nacks.count key
  polite : ∀ target s i, PoisonReason.exceeded target s i ∉ L.poisons

section Discipline
variable {P : Pipe} {addr : ℕ} {L L' : Link}

/-- An idle tick: what it asks for and what it leaves on record has not arrived. -/
theorem Disciplined.tick (h : Disciplined P L) {now₁ now₂ : ℕ} {r : RxState × List (ℕ × ℕ)}
    (hr : drain_nack_state_ P.T P.s now₁ now₂ (L.rx_ P.s) = some r) :
    (∀ key ∈ r.2, ¬ L.HasArrived key) ∧ (∀ key ∈ r.1.nack_state, ¬ L.HasArrived key) ∧
      Book P.T.retx_k_recv_ (fun key => L.HasArrived key ∨ key.1 < (L.rx_ P.s).next_rx_seq)
        (fun key => L.nacks.count key + r.2.count key) r.1.nack_state := by
  unfold drain_nack_state_ at hr
  split at hr
  · obtain rfl := Option.some.inj hr
    exact ⟨by simp, h.fresh, by simpa using h.book⟩
  · obtain ⟨rs', hrs', rfl⟩ := Option.map_eq_some_iff.mp hr
    obtain ⟨ns, rfl, hoff, hon⟩ := compute_missing_cases hrs'
    dsimp only
    -- the records after the scan
    have hns : (∀ key ∈ ns, ¬ L.HasArrived key) ∧
        Book P.T.retx_k_recv_ (fun key => L.HasArrived key ∨ key.1 < (L.rx_ P.s).next_rx_seq)
          (fun key => L.nacks.count key) ns := by
      cases hany : (L.rx_ P.s).any_seen with
      | false =>
        rw [hoff hany]
        exact ⟨h.fresh, h.book⟩
      | true =>
        rw [hon hany]
        have hmiss : ∀ key ∈ (List.range' (L.rx_ P.s).next_rx_seq ((L.rx_ P.s).max_seen_seq + 1 -
            (L.rx_ P.s).next_rx_seq)).flatMap (missing_of (L.rx_ P.s).pending),
            ¬ L.HasArrived key ∧ (L.rx_ P.s).next_rx_seq ≤ key.1 := by
          intro key hkey
          obtain ⟨s, hs, hk⟩ := List.mem_flatMap.mp hkey
          have hs1 := (mem_missing_of.mp hk).1
          have hle : (L.rx_ P.s).next_rx_seq ≤ key.1 := by
            rw [hs1]
            exact (List.mem_range'_1.mp hs).1
          exact ⟨h.held.missing hle (hs1 ▸ hk), hle⟩
        constructor
        · intro key hkey
          obtain hk | hk := mem_foldl_note_missing.mp hkey
          · exact (hmiss key hk).1
          · exact h.fresh key hk
        · apply h.book.foldl_note_missing
          rintro key hkey (har | hlt)
          · exact (hmiss key hkey).1 har
          · exact absurd hlt (Nat.not_lt_of_le (hmiss key hkey).2)
    refine ⟨fun key hkey => ?_, fun key hkey => ?_, ?_⟩
    · obtain hk | hk := (scan_keeps _ _ key).2.2 hkey
      · cases hk
      · exact hns.1 key hk
    · exact hns.1 key ((scan_keeps _ _ key).1 hkey)
    · apply Book.scan _ rfl
      · simpa using hns.2
      · intro key hs
        have hheld : Held L.HasArrived L.tot16 L.log.length
            { L.rx_ P.s with nack_state := ns } := h.held.congr rfl rfl
        exact hheld.of_satisfied hs

theorem Disciplined.data (h : Disciplined P L) (hlen : L.log.length < 2 ^ 32) {e : Emission} {k : ℕ}
    (he : L.wire[k]? = some e)
    (hsend : Sender P { L with rx_ := handle_data_ P.T L.rx_ e.frame, arrived := L.arrived ++ [e] })
    (hguard : noEmptyAhead P L (.data k)) :
    Disciplined P { L with
      rx_ := handle_data_ P.T L.rx_ e.frame
      arrived := L.arrived ++ [e] } := by
  obtain ⟨i, hn, hi, hlabel, hframe, hrx⟩ := h.sender.handled he
  have hrx : handle_data_ P.T L.rx_ e.frame P.s =
      (L.rx_ P.s).accept e.seq (i % 2 ^ 16) (L.tot16 e.seq) (piece (L.msg e.seq) i) := hrx
  have har : ({ L with
      rx_ := handle_data_ P.T L.rx_ e.frame, arrived := L.arrived ++ [e] } : Link).HasArrived =
      fun key => key = (e.seq, i % 2 ^ 16) ∨ L.HasArrived key := by
    funext key
    have hei : e.i % 2 ^ 16 = i % 2 ^ 16 := by omega
    apply propext
    unfold Link.HasArrived
    simp only [List.mem_append, List.mem_singleton]
    constructor
    · rintro ⟨a, ha | rfl, hs, hx⟩
      · exact .inr ⟨a, ha, hs, hx⟩
      · exact .inl (Prod.ext hs.symm (hx.symm.trans hei))
    · rintro (rfl | ⟨a, ha, hs, hx⟩)
      · exact ⟨e, .inr rfl, rfl, hei⟩
      · exact ⟨a, .inl ha, hs, hx⟩
  have hempty : piece (L.msg e.seq) i = [] →
      L.tot16 e.seq = 1 ∧ e.seq ≤ (L.rx_ P.s).next_rx_seq := by
    intro hnil
    have hd : L.msg e.seq = [] := by
      by_contra hd
      exact piece_ne_nil hd (hi.trans_le (total_le _)) hnil
    refine ⟨?_, hguard e he ?_⟩
    · unfold Link.tot16
      rw [hd]
      rfl
    · rw [hframe, P.frame_eq, field_plen, hnil]
      rfl
  obtain ⟨hheld, hle⟩ := h.held.accept hlen (x := i % 2 ^ 16) hn hempty
  obtain ⟨hns, -, -, -⟩ := accept_marks (L.rx_ P.s) e.seq (i % 2 ^ 16) (L.tot16 e.seq)
    (piece (L.msg e.seq) i)
  rw [← hrx] at hheld hle hns
  refine ⟨hsend, ?_, ?_, ?_, h.budget, h.polite⟩
  · rw [har]
    exact hheld
  · intro key hkey
    dsimp only at hkey
    rw [hns] at hkey
    obtain ⟨hne, hkey⟩ := AList.mem_erase.mp hkey
    rw [har]
    rintro (hk | hk)
    · exact hne hk
    · exact h.fresh key hkey hk
  · dsimp only
    rw [hns, har]
    apply h.book.erase
    · rintro key (hk | hk)
      · exact .inl (.inr hk)
      · exact .inr (hk.trans_le hle)
    · exact .inl (.inl rfl)

/-- The resend of a fragment is counted, its NACK is taken off the wire. -/
theorem asked_resend {tx_buf : ℕ × ℕ → Option TxRecord} {keys : List (ℕ × ℕ)} {n : ℕ × ℕ → ℕ}
    {k : ℕ} {key : ℕ × ℕ} {rcd : TxRecord} (hkey : keys[k]? = some key)
    (hrcd : tx_buf key = some rcd) (h : ∀ key', asked (tx_buf key') + keys.count key' ≤ n key')
    (key' : ℕ × ℕ) :
    asked (Function.update tx_buf key
        (some { rcd with nack_count := (rcd.nack_count + 1) % 2 ^ 32 }) key') +
      (keys.eraseIdx k).count key' ≤ n key' := by
  obtain ⟨hlt, hget⟩ := List.getElem?_eq_some_iff.mp hkey
  have hcount := (List.getElem_cons_eraseIdx_perm hlt).count_eq key'
  rw [hget, List.count_cons] at hcount
  have hb' := h key'
  by_cases hkk : key' = key
  · subst hkk
    rw [Function.update_self]
    rw [hrcd] at hb'
    rw [beq_self_eq_true, if_pos rfl] at hcount
    have hmod := Nat.mod_le (rcd.nack_count + 1) (2 ^ 32)
    simp only [asked, Option.map_some, Option.getD_some] at hb' ⊢
    omega
  · rw [Function.update_of_ne hkk]
    omega

theorem Disciplined.nack (h : Disciplined P L) (hk : P.T.retx_k_recv_ ≤ P.S.retx_k_send_) {k : ℕ}
    {b : Bytes} (hb : L.nackWire[k]? = some b)
    (hsend : Sender P ({ L with
      tx_ := (handle_nack_ P.S L.tx_ b addr).1
      nackWire := L.nackWire.eraseIdx k }.reply P (handle_nack_ P.S L.tx_ b addr).2)) :
    Disciplined P ({ L with
      tx_ := (handle_nack_ P.S L.tx_ b addr).1
      nackWire := L.nackWire.eraseIdx k }.reply P (handle_nack_ P.S L.tx_ b addr).2) := by
  obtain ⟨keys, hkeys, hbudget⟩ := h.budget
  rw [hkeys, List.getElem?_map] at hb
  obtain ⟨key, hkey, rfl⟩ := Option.map_eq_some_iff.mp hb
  have herase : L.nackWire.eraseIdx k =
      (keys.eraseIdx k).map fun key => send_nack_ P.T P.s P.t key.1 key.2 := by
    rw [hkeys, List.eraseIdx_map]
  have hle : ∀ key', (keys.eraseIdx k).count key' ≤ keys.count key' := fun key' =>
    (List.eraseIdx_sublist keys k).count_le key'
  rw [herase] at hsend ⊢
  rw [P.handle_nack_frame] at hsend ⊢
  -- everything but the sender's records and the NACKs in flight is as before
  have hbase : ∀ {tx_ : ℕ → TxState} {wire : List Emission} {pw : List Bytes}
      {ps : List PoisonReason},
      Sender P { L with
        tx_ := tx_, nackWire := (keys.eraseIdx k).map fun key => send_nack_ P.T P.s P.t key.1 key.2,
        wire := wire, poisonWire := pw, poisons := ps } →
      (∀ key', asked ((tx_ P.t).tx_buf key') + (keys.eraseIdx k).count key' ≤ L.nacks.count key') →
      (∀ target s i, PoisonReason.exceeded target s i ∉ ps) →
      Disciplined P { L with
        tx_ := tx_, nackWire := (keys.eraseIdx k).map fun key => send_nack_ P.T P.s P.t key.1 key.2,
        wire := wire, poisonWire := pw, poisons := ps } := by
    intro tx_ wire pw ps hs hbud hpol
    exact ⟨hs, h.held, h.fresh, h.book, ⟨_, rfl, hbud⟩, hpol⟩
  by_cases haddr : addr ≠ P.S.ip_table_ P.t
  · rw [if_pos haddr] at hsend ⊢
    exact hbase hsend (fun key' => (Nat.add_le_add_left (hle key') _).trans (hbudget key')) h.polite
  · rw [if_neg haddr] at hsend ⊢
    rcases handle_nack_cases P.S P.t (L.tx_ P.t) key.1 key.2 with
      he | ⟨rcd, ts', hrcd, -, hbuf, hrep⟩ | ⟨hnone, he⟩
    · rw [he] at hsend ⊢
      apply hbase hsend
      · intro key'
        dsimp only
        rw [Function.update_self]
        exact (Nat.add_le_add_left (hle key') _).trans (hbudget key')
      · exact h.polite
    · have hbud : ∀ key', asked (ts'.tx_buf key') + (keys.eraseIdx k).count key' ≤
          L.nacks.count key' := by
        rw [hbuf]
        exact asked_resend hkey hrcd hbudget
      obtain ⟨hover, he⟩ | he := hrep
      · -- asked for more often than the sender allows: not within the receiver's budget
        exfalso
        have hb' := hbud key
        have hk' := h.book.budget key
        rw [hbuf, Function.update_self] at hb'
        simp only [asked, Option.map_some, Option.getD_some] at hb'
        omega
      · rw [he] at hsend ⊢
        apply hbase hsend
        · intro key'
          dsimp only
          rw [Function.update_self]
          exact hbud key'
        · exact h.polite
    · rw [he] at hsend ⊢
      apply hbase hsend
      · intro key'
        dsimp only
        rw [Function.update_self]
        exact (Nat.add_le_add_left (hle key') _).trans (hbudget key')
      · intro target s i hmem
        obtain hmem | hmem := List.mem_append.mp hmem
        · exact h.polite target s i hmem
        · cases List.mem_singleton.mp hmem

theorem Disciplined.quiet (h : Disciplined P L) (hsend : Sender P L') (hlog : L.log <+: L'.log)
    (hrx : ∃ rx b m, L'.rx_ P.s = { L.rx_ P.s with rx := rx, rx_bytes := b, poisoned := m })
    (harr : L'.arrived = L.arrived) (hnw : L'.nackWire = L.nackWire) (hn : L'.nacks = L.nacks)
    (hp : L'.poisons = L.poisons)
    (hask : ∀ key, asked ((L'.tx_ P.t).tx_buf key) ≤ asked ((L.tx_ P.t).tx_buf key)) :
    Disciplined P L' := by
  obtain ⟨rx, b, m, hrx⟩ := hrx
  have har : L'.HasArrived = L.HasArrived := by
    unfold Link.HasArrived
    rw [harr]
  refine ⟨hsend, ?_, ?_, ?_, ?_, ?_⟩
  · rw [har, hrx]
    have hT : ∀ n < L.log.length, L'.tot16 n = L.tot16 n := by
      intro n hn
      unfold Link.tot16
      rw [msg_of_le hlog hn]
    exact (h.held.mono hlog.length_le hT).congr rfl rfl
  · rw [har, hrx]
    exact h.fresh
  · rw [har, hrx, hn]
    exact h.book
  · obtain ⟨keys, hkeys, hbudget⟩ := h.budget
    refine ⟨keys, hnw.trans hkeys, fun key => ?_⟩
    rw [hn]
    exact (Nat.add_le_add_right (hask key) _).trans (hbudget key)
  · rw [hp]
    exact h.polite

theorem asked_retain (C : Config) (dst : ℕ) (ts : TxState) (c : SendCall) (key : ℕ × ℕ) :
    asked ((send_retain C dst ts c).tx_buf key) ≤ asked (ts.tx_buf key) := by
  cases hr : (send_retain C dst ts c).tx_buf key with
  | none => exact Nat.zero_le _
  | some rcd =>
    obtain ⟨-, rfl⟩ | hold := send_retain_find hr
    · exact Nat.zero_le _
    · rw [hold]

theorem Disciplined.drain (h : Disciplined P L) {now₁ now₂ : ℕ} {r : RxState × List (ℕ × ℕ)}
    (hr : drain_nack_state_ P.T P.s now₁ now₂ (L.rx_ P.s) = some r)
    (hsend : Sender P { L with
      rx_ := Function.update L.rx_ P.s r.1
      nackWire := L.nackWire ++ r.2.map fun key => send_nack_ P.T P.s P.t key.1 key.2
      nacks := L.nacks ++ r.2 }) :
    Disciplined P { L with
      rx_ := Function.update L.rx_ P.s r.1
      nackWire := L.nackWire ++ r.2.map fun key => send_nack_ P.T P.s P.t key.1 key.2
      nacks := L.nacks ++ r.2 } := by
  obtain ⟨ns, m, hrs⟩ := drain_nack_state_same hr
  obtain ⟨-, hfresh, hbook⟩ := h.tick hr
  obtain ⟨keys, hkeys, hbudget⟩ := h.budget
  have hrx : Function.update L.rx_ P.s r.1 P.s = r.1 := Function.update_self ..
  refine ⟨hsend, ?_, ?_, ?_, ⟨keys ++ r.2, ?_, ?_⟩, h.polite⟩
  · dsimp only
    rw [hrx, hrs]
    exact h.held.congr rfl rfl
  · dsimp only
    rw [hrx]
    exact hfresh
  · have hnext : r.1.next_rx_seq = (L.rx_ P.s).next_rx_seq := by rw [hrs]
    dsimp only
    rw [hrx, hnext]
    simp only [List.count_append]
    exact hbook
  · dsimp only
    rw [hkeys, List.map_append]
  · intro key
    dsimp only
    rw [List.count_append, List.count_append, ← Nat.add_assoc]
    exact Nat.add_le_add_right (hbudget key) _

theorem Disciplined.step (h : Disciplined P L) (hk : P.T.retx_k_recv_ ≤ P.S.retx_k_send_)
    {ev : Event} (hs : L.step P addr ev = some L') (hlen : L'.log.length < 2 ^ 32)
    (hguard : noEmptyAhead P L ev) : Disciplined P L' := by
  have hsend := h.sender.step hs hlen
  have hlog := Link.log_le hs
  cases ev with
  | send data =>
    obtain ⟨-, -, rfl⟩ := Link.step_send hs
    refine h.quiet hsend hlog ⟨_, _, _, rfl⟩ rfl rfl rfl rfl fun key => ?_
    dsimp only
    rw [Function.update_self]
    exact le_rfl
  | retain =>
    obtain ⟨c, -, -, rfl⟩ := Link.step_retain hs
    refine h.quiet hsend hlog ⟨_, _, _, rfl⟩ rfl rfl rfl rfl fun key => ?_
    dsimp only
    rw [Function.update_self]
    exact asked_retain ..
  | sendto ok =>
    obtain ⟨c, -, rfl⟩ := Link.step_sendto hs
    exact h.quiet hsend hlog ⟨_, _, _, rfl⟩ rfl rfl rfl rfl fun _ => le_rfl
  | finish =>
    obtain ⟨c, -, -, rfl⟩ := Link.step_finish hs
    refine h.quiet hsend hlog ⟨_, _, _, rfl⟩ rfl rfl rfl rfl fun key => ?_
    dsimp only
    rw [Function.update_self]
    exact le_rfl
  | data k =>
    obtain ⟨e, he, rfl⟩ := Option.map_eq_some_iff.mp hs
    exact h.data hlen he hsend hguard
  | recv len =>
    obtain ⟨r, hr, rfl⟩ := Option.map_eq_some_iff.mp hs
    obtain ⟨-, q, -, rfl⟩ := recv_inv hr
    refine h.quiet hsend hlog ⟨q.2, (L.rx_ P.s).rx_bytes - len, (L.rx_ P.s).poisoned, ?_⟩
      rfl rfl rfl rfl fun _ => le_rfl
    dsimp only
    rw [Function.update_self]
  | drain now₁ now₂ =>
    obtain ⟨r, hr, rfl⟩ := Option.map_eq_some_iff.mp hs
    exact h.drain hr hsend
  | nack k =>
    obtain ⟨b, hb, rfl⟩ := Option.map_eq_some_iff.mp hs
    exact h.nack hk hb hsend
  | poison k =>
    obtain ⟨b, -, rfl⟩ := Option.map_eq_some_iff.mp hs
    obtain ⟨m, hrx⟩ := handle_poison_same P.T L.rx_ b P.s
    exact h.quiet hsend hlog ⟨_, _, m, hrx⟩ rfl rfl rfl rfl fun _ => le_rfl

theorem Disciplined.init : Disciplined P {} where
  sender := Sender.init
  held :=
    { next_le := le_rfl
      sent := by simp [Link.HasArrived]
      width := by simp
      known := by simp
      real := by simp
      held := by simp [Link.HasArrived] }
  fresh := by simp
  book :=
    { budget := by simp
      recorded := by simp
      unrecorded := by simp }
  budget := ⟨[], rfl, by simp [asked]⟩
  polite := by simp

end Discipline

/-- Over every run with no empty fragment ahead of its turn: what an idle tick asks for has not
arrived, no fragment is asked for more often than the receiver's budget, and the sender never gives
the pipe up for an exceeded budget. -/
theorem nack_discipline (P : Pipe) (addr : ℕ) (L : Link)
    (hk : P.T.retx_k_recv_ ≤ P.S.retx_k_send_)
    (h : Runs (Link.step P addr) (noEmptyAhead P) {} L) (hlen : L.log.length < 2 ^ 32) :
    (∀ now₁ now₂ rs due, drain_nack_state_ P.T P.s now₁ now₂ (L.rx_ P.s) = some (rs, due) →
        ∀ key ∈ due, ¬ L.HasArrived key) ∧
      (∀ key, L.nacks.count key ≤ P.T.retx_k_recv_) ∧
      ∀ target s i, PoisonReason.exceeded target s i ∉ L.poisons := by
  have hD : L.log.length < 2 ^ 32 → Disciplined P L := by
    apply h.invariant (I := fun L => L.log.length < 2 ^ 32 → Disciplined P L)
    · intro _
      exact Disciplined.init
    · intro L₁ e L₂ ih hoke hs hlen₂
      exact (ih ((Link.log_le hs).length_le.trans_lt hlen₂)).step hk hs hlen₂ hoke
  refine ⟨fun now₁ now₂ rs due hr => ((hD hlen).tick hr).1, fun key => ?_, (hD hlen).polite⟩
  exact (hD hlen).book.budget key

theorem nack_discipline_overtaken : ∃ L, Runs (Link.step pipe01 2) (noEmptyAhead pipe01) {} L ∧
    L.nacks = [(0, 0)] ∧ ∀ key, L.nacks.count key ≤ 5 := by
  have hrun : exec (Link.step pipe01 2) (noEmptyAhead pipe01) overtaken {} =
      some ((exec (Link.step pipe01 2) (noEmptyAhead pipe01) overtaken {}).getD {}) := rfl
  have hlen : ((exec (Link.step pipe01 2) (noEmptyAhead pipe01) overtaken {}).getD {}).log.length <
      2 ^ 32 := by decide
  exact ⟨_, Runs.of_exec hrun, by decide,
    (nack_discipline pipe01 2 _ le_rfl (Runs.of_exec hrun) hlen).2.1⟩

/-- The second of two messages is empty and arrives; the first is lost. -/
def emptyAhead : List Event :=
  [.send [7], .retain, .sendto true, .finish, .send [], .retain, .sendto true, .finish,
    .data 1, .drain 1 1]

/-- The receiver asks for the empty fragment it has. -/
theorem nack_discipline_emptyAhead : ∃ L, Runs (Link.step pipe01 2) anytime {} L ∧
    L.log = [[7], []] ∧ ∃ rs due, drain_nack_state_ pipe01.T pipe01.s 200000000 200000000
      (L.rx_ pipe01.s) = some (rs, due) ∧ (1, 0) ∈ due ∧ L.HasArrived (1, 0) := by
  have hrun : exec (Link.step pipe01 2) anytime emptyAhead {} =
      some ((exec (Link.step pipe01 2) anytime emptyAhead {}).getD {}) := rfl
  refine ⟨_, Runs.of_exec hrun, by decide, _, _, rfl, by decide, ?_⟩
  unfold Link.HasArrived
  decide

end QSync.Io
