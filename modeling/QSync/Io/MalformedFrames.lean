import Mathlib.Data.Finset.Card
import Mathlib.Tactic.IntervalCases
import QSync.Foundations.EventRuns
import QSync.Io.Arrivals
import QSync.Io.Delivery

/-! # Malformed DATA frames

Nothing checks `seq`, `idx` and `total` of a DATA frame. A stream is passed only with all of its
fragments as long as every frame that is taken fits what came before: on the fast path it is fragment
0, and else its fragment count is at least 1, and a fragment that is stored agrees with the entry's
count and is stored for the first time.
-/

namespace QSync.Io
open QSync.Network
set_option autoImplicit false
set_option maxHeartbeats 250000

/-! ## What a frame meets -/

section Meets
variable (rs : RxState) (a : Arrival)

/-- The fast path of `handle_data_`. -/
def RxState.Direct : Prop := a.total = 1 ∧ a.seq = rs.next_rx_seq

/-- The entry of the frame's stream, with the fragment count decided. -/
def RxState.entry : Partial :=
  let p := (rs.pending.lookup a.seq).getD {}
  if p.frag_total = 0 then { p with frag_total := a.total, frags := resize p.frags a.total } else p

/-- The fragment is stored: its place exists and is empty. -/
def RxState.Stores : Prop :=
  a.idx < (rs.entry a).frag_total ∧ (rs.entry a).frags.getD a.idx [] = []

instance : Decidable (rs.Direct a) := inferInstanceAs (Decidable (_ ∧ _))

instance : Decidable (rs.Stores a) := inferInstanceAs (Decidable (_ ∧ _))

end Meets

/-! ## Runs of one receive state -/

/-- The receive state of a sender. The histories are the frames that came in, and the fragments
counted in the entries of `pending`; no step reads them. -/
structure Receiving where
  rs : RxState := {}
  arrivals : List Arrival := []
  counted : List (ℕ × ℕ) := []

inductive RxEvent
  | data (buf : Bytes) (bytes : IsBytes buf)
  | recv (len : ℕ)
  | drain (now₁ now₂ : ℕ)
  | poison (buf : Bytes)

/-- The fragment a frame adds to an entry of `pending`. -/
def Receiving.counts (R : Receiving) (a : Arrival) : List (ℕ × ℕ) :=
  if R.rs.next_rx_seq ≤ a.seq ∧ ¬R.rs.Direct a ∧ R.rs.Stores a then [(a.seq, a.idx)] else []

def Receiving.note (R : Receiving) (rs' : RxState) (a : Arrival) : Receiving :=
  { rs := rs'
    arrivals := R.arrivals ++ [a]
    counted := (R.counts a ++ R.counted).filter fun key => decide (key.1 ∈ rs'.pending) }

def Receiving.step (C : Config) (s : ℕ) (R : Receiving) : RxEvent → Option Receiving
  | .data buf _ =>
    let rs' := handle_data_ C (fun _ => R.rs) buf s
    match arrival_of C s buf with
    | none => some { R with rs := rs' }
    | some a => some (R.note rs' a)
  | .recv len => (recv R.rs len).map fun r => { R with rs := r.2 }
  | .drain now₁ now₂ =>
    (drain_nack_state_ C s now₁ now₂ R.rs).map fun r => { R with rs := r.1 }
  | .poison buf => some { R with rs := handle_poison_ C (fun _ => R.rs) buf s }

/-- Frames of stream `n` came in with one fragment count and all indices below it, and `bytes` are
their payloads in order. -/
def Backed (as : List Arrival) (n : ℕ) (bytes : Bytes) : Prop :=
  ∃ T pick, 1 ≤ T ∧ (∀ i < T, ⟨n, i, T, pick i⟩ ∈ as) ∧
    bytes = ((List.range T).map pick).flatten

/-- The streams passed from `rs` to `rs'`, and what was handed to the reader, are backed by frames. -/
def Explained (as : List Arrival) (rs rs' : RxState) : Prop :=
  ∃ ds : List Bytes, rs'.next_rx_seq = (rs.next_rx_seq + ds.length) % 2 ^ 32 ∧
    rs'.rx = rs.rx ++ (ds.filter fun d => decide (d.length > 0)).map (fun d => { bytes := d }) ∧
    rs'.rx_bytes = rs.rx_bytes + ds.flatten.length ∧
    ∀ k d, ds[k]? = some d → Backed as ((rs.next_rx_seq + k) % 2 ^ 32) d

/-- The frame is late, or it fits what came before. -/
def Receiving.Fits (R : Receiving) (a : Arrival) : Prop :=
  a.seq < R.rs.next_rx_seq ∨
    if R.rs.Direct a then a.idx = 0
    else 1 ≤ (R.rs.entry a).frag_total ∧
      (R.rs.Stores a → a.total = (R.rs.entry a).frag_total ∧ (a.seq, a.idx) ∉ R.counted)

/-- Every frame of the sender's fits. -/
def Receiving.fitting (C : Config) (s : ℕ) (R : Receiving) : RxEvent → Prop
  | .data buf _ => ∀ a, arrival_of C s buf = some a → R.Fits a
  | _ => True

/-! ## Handing over -/

section Explained
variable {as : List Arrival} {rs rs' rs'' : RxState} {n : ℕ} {bytes : Bytes}

theorem Explained.refl (h : rs.next_rx_seq < 2 ^ 32) : Explained as rs rs :=
  ⟨[], (Nat.mod_eq_of_lt h).symm, by simp, by simp, by simp⟩

theorem Explained.push (h : Explained as rs rs') (hb : Backed as rs'.next_rx_seq bytes)
    (hnext : rs''.next_rx_seq = (rs'.next_rx_seq + 1) % 2 ^ 32)
    (hrx : rs''.rx = if bytes.length > 0 then rs'.rx ++ [{ bytes := bytes }] else rs'.rx)
    (hlen : rs''.rx_bytes = rs'.rx_bytes + bytes.length) : Explained as rs rs'' := by
  obtain ⟨ds, h1, h2, h3, h4⟩ := h
  refine ⟨ds ++ [bytes], ?_, ?_, ?_, ?_⟩
  · rw [hnext, h1, Nat.mod_add_mod, List.length_append, List.length_singleton, Nat.add_assoc]
  · rw [hrx, h2, List.filter_append, List.map_append]
    split
    · next hpos => simp [hpos]
    · next hpos => simp [hpos]
  · rw [hlen, h3, List.flatten_append, List.length_append, Nat.add_assoc]
    simp
  · intro k d hk
    obtain hlt | rfl | hgt := Nat.lt_trichotomy k ds.length
    · rw [List.getElem?_append_left hlt] at hk
      exact h4 k d hk
    · rw [List.getElem?_concat_length] at hk
      obtain rfl := Option.some.inj hk
      rw [← h1]
      exact hb
    · rw [List.getElem?_eq_none (by rw [List.length_append, List.length_singleton]; omega)] at hk
      cases hk

end Explained

/-! ## Entries -/

/-- An entry for stream `n` in which the fragments `S` are counted. -/
structure Entry (as : List Arrival) (counted : List (ℕ × ℕ)) (n : ℕ) (p : Partial)
    (S : Finset ℕ) : Prop where
  pos : 1 ≤ p.frag_total
  small : p.frag_total < 2 ^ 16
  length : p.frags.length = p.frag_total
  sub : S ⊆ Finset.range p.frag_total
  received : p.received = S.card
  counted : ∀ i ∈ S, (n, i) ∈ counted
  backed : ∀ i ∈ S, ⟨n, i, p.frag_total, p.frags.getD i []⟩ ∈ as

/-- Every entry is made of frames that came in. -/
structure Receiving.Sound (R : Receiving) : Prop where
  next : R.rs.next_rx_seq < 2 ^ 32
  entries : ∀ n p, R.rs.pending.lookup n = some p → ∃ S, Entry R.arrivals R.counted n p S

section Entry
variable {as as' : List Arrival} {counted counted' : List (ℕ × ℕ)} {n : ℕ} {p : Partial}
  {S : Finset ℕ}

theorem Entry.mono (h : Entry as counted n p S) (has : ∀ a ∈ as, a ∈ as')
    (hcounted : ∀ i, (n, i) ∈ counted → (n, i) ∈ counted') : Entry as' counted' n p S :=
  { h with
    counted := fun i hi => hcounted i (h.counted i hi)
    backed := fun i hi => has _ (h.backed i hi) }

theorem Entry.complete (h : Entry as counted n p S) (hrec : p.received = p.frag_total) :
    Backed as n p.frags.flatten := by
  have hall : S = Finset.range p.frag_total := by
    apply Finset.eq_of_subset_of_card_le h.sub
    rw [Finset.card_range, ← hrec, h.received]
  refine ⟨p.frag_total, fun i => p.frags.getD i [], h.pos, ?_, ?_⟩
  · intro i hi
    apply h.backed
    rw [hall]
    exact Finset.mem_range.mpr hi
  · congr 1
    apply List.ext_getElem
    · rw [h.length, List.length_map, List.length_range]
    · intro i hi _
      rw [List.getElem_map, List.getElem_range, List.getD_eq_getElem _ _ hi]

theorem add_to_entry (rs : RxState) (a : Arrival) :
    ((rs.pending.lookup a.seq).getD {}).add a.idx a.total a.payload =
      if rs.Stores a then
        { rs.entry a with
          frags := if a.payload.length > 0 then (rs.entry a).frags.set a.idx a.payload
            else (rs.entry a).frags
          received := ((rs.entry a).received + 1) % 2 ^ 32 }
      else rs.entry a := by
  unfold Partial.add RxState.Stores RxState.entry
  dsimp only
  split
  · next h0 =>
    dsimp only
    by_cases hlt : a.idx < a.total
    · simp only [hlt, if_true, true_and, List.isEmpty_iff]
    · simp only [hlt, if_false, false_and]
  · next h0 =>
    by_cases hlt : a.idx < ((rs.pending.lookup a.seq).getD {}).frag_total
    · simp only [hlt, if_true, true_and, List.isEmpty_iff]
    · simp only [hlt, if_false, false_and]

theorem Receiving.Sound.entry {R : Receiving} (h : R.Sound) {a : Arrival}
    (hpos : 1 ≤ (R.rs.entry a).frag_total) (htot : a.total < 2 ^ 16) :
    ∃ S, Entry R.arrivals R.counted a.seq (R.rs.entry a) S := by
  cases hp : R.rs.pending.lookup a.seq with
  | none =>
    have he : R.rs.entry a = { frag_total := a.total, frags := resize [] a.total } := by
      unfold RxState.entry
      rw [hp]
      rfl
    rw [he] at hpos ⊢
    exact ⟨∅, hpos, htot, length_resize _ _, Finset.empty_subset _, rfl, by simp, by simp⟩
  | some p =>
    obtain ⟨S, hS⟩ := h.entries a.seq p hp
    have he : R.rs.entry a = p := by
      unfold RxState.entry
      rw [hp, Option.getD_some]
      exact if_neg (by have := hS.pos; omega)
    rw [he]
    exact ⟨S, hS⟩

theorem Entry.store {a : Arrival} (h : Entry as counted a.seq p S)
    (hlt : a.idx < p.frag_total) (hempty : p.frags.getD a.idx [] = [])
    (htot : a.total = p.frag_total) (hnew : (a.seq, a.idx) ∉ counted) :
    Entry (as ++ [a]) ((a.seq, a.idx) :: counted) a.seq
      { p with
        frags := if a.payload.length > 0 then p.frags.set a.idx a.payload else p.frags
        received := (p.received + 1) % 2 ^ 32 } (insert a.idx S) := by
  have hnot : a.idx ∉ S := fun hi => hnew (h.counted _ hi)
  have hcard : S.card ≤ p.frag_total := by
    simpa using Finset.card_le_card h.sub
  have hsmall := h.small
  have hget : ∀ i, (if a.payload.length > 0 then p.frags.set a.idx a.payload
      else p.frags).getD i [] = if i = a.idx then a.payload else p.frags.getD i [] := by
    intro i
    split
    · exact getD_set _ _ _ _ (by rw [h.length]; exact hlt)
    · next hlen =>
      have hnil : a.payload = [] := List.length_eq_zero_iff.mp (by omega)
      split
      · next hi => rw [hi, hempty, hnil]
      · rfl
  constructor
  · exact h.pos
  · exact h.small
  · dsimp only
    split
    · rw [List.length_set]
      exact h.length
    · exact h.length
  · exact Finset.insert_subset (Finset.mem_range.mpr hlt) h.sub
  · dsimp only
    rw [Finset.card_insert_of_notMem hnot, h.received, Nat.mod_eq_of_lt (by omega)]
  · intro i hi
    obtain rfl | hi := Finset.mem_insert.mp hi
    · exact List.mem_cons_self ..
    · exact List.mem_cons_of_mem _ (h.counted i hi)
  · intro i hi
    dsimp only
    rw [hget]
    obtain rfl | hi := Finset.mem_insert.mp hi
    · rw [if_pos rfl, ← htot]
      simp
    · have hne : i ≠ a.idx := fun he => hnot (he ▸ hi)
      rw [if_neg hne]
      exact List.mem_append_left _ (h.backed i hi)

end Entry

/-! ## One frame -/

/-- A state on the way from `rs`: its entries are made of frames, what was passed is backed. -/
structure Passing (as : List Arrival) (counted : List (ℕ × ℕ)) (rs rs' : RxState) : Prop where
  next : rs'.next_rx_seq < 2 ^ 32
  entries : ∀ n p, rs'.pending.lookup n = some p → ∃ S, Entry as counted n p S
  explained : Explained as rs rs'

section Frame
variable {as : List Arrival} {counted : List (ℕ × ℕ)} {rs rs' : RxState} {R : Receiving}
  {a : Arrival}

theorem Passing.deliver (h : Passing as counted rs rs') {p : Partial}
    (hp : rs'.pending.lookup rs'.next_rx_seq = some p) (hrec : p.received = p.frag_total) :
    Passing as counted rs (rs'.deliver p) where
  next := Nat.mod_lt _ (by decide)
  entries := by
    intro n q hq
    by_cases hn : n = rs'.next_rx_seq
    · subst hn
      rw [RxState.deliver, AList.lookup_erase] at hq
      cases hq
    · rw [RxState.deliver, AList.lookup_erase_ne hn] at hq
      exact h.entries n q hq
  explained := by
    obtain ⟨S, hS⟩ := h.entries _ p hp
    exact h.explained.push (hS.complete hrec) rfl rfl rfl

theorem Passing.drain (h : Passing as counted rs rs') :
    Passing as counted rs (drain_pending_locked_ rs') :=
  drain_pending_induct (I := Passing as counted rs) (fun _ _ hI hp hrec => hI.deliver hp hrec) _ h

theorem Receiving.Sound.passing (h : R.Sound) (hfits : R.Fits a) (htot : a.total < 2 ^ 16) :
    Passing (R.arrivals ++ [a]) (R.counts a ++ R.counted) R.rs (R.rs.arrive a) := by
  have hbase : Passing (R.arrivals ++ [a]) (R.counts a ++ R.counted) R.rs
      (R.rs.note_arrival a.seq a.idx) := by
    refine ⟨h.next, ?_, ?_⟩
    · intro n p hp
      obtain ⟨S, hS⟩ := h.entries n p hp
      exact ⟨S, hS.mono (fun b hb => List.mem_append_left _ hb)
        fun i hi => List.mem_append_right _ hi⟩
    · have hrefl : Explained (R.arrivals ++ [a]) R.rs R.rs := .refl h.next
      exact hrefl
  unfold RxState.arrive RxState.accept
  dsimp only
  split
  · exact hbase
  · next hlate =>
    have hfits := hfits.resolve_left hlate
    split
    · next hdirect =>
      -- the fast path passes the stream with the payload of its fragment 0
      have hd : R.rs.Direct a := hdirect
      rw [if_pos hd] at hfits
      apply Passing.drain
      refine ⟨Nat.mod_lt _ (by decide), hbase.entries, ?_⟩
      have hb : Backed (R.arrivals ++ [a]) R.rs.next_rx_seq a.payload := by
        refine ⟨1, fun _ => a.payload, le_rfl, ?_, by simp⟩
        intro i hi
        obtain rfl : i = 0 := by omega
        have ha : a = ⟨R.rs.next_rx_seq, 0, 1, a.payload⟩ := by
          rw [← hd.2, ← hd.1, ← hfits]
        exact List.mem_append_right _ (List.mem_singleton.mpr ha.symm)
      exact hbase.explained.push hb rfl rfl rfl
    · next hdirect =>
      have hd : ¬R.rs.Direct a := hdirect
      rw [if_neg hd] at hfits
      obtain ⟨hpos, hstore⟩ := hfits
      obtain ⟨S, hS⟩ := h.entry hpos htot
      have hle : R.rs.next_rx_seq ≤ a.seq := Nat.le_of_not_lt hlate
      apply Passing.drain
      refine ⟨h.next, ?_, hbase.explained⟩
      intro n p hp
      dsimp only at hp
      by_cases hn : n = a.seq
      · subst hn
        rw [AList.lookup_insert] at hp
        obtain rfl := Option.some.inj hp
        have hadd : ((R.rs.note_arrival a.seq a.idx).pending.lookup a.seq) =
            R.rs.pending.lookup a.seq := rfl
        rw [hadd, add_to_entry]
        by_cases hst : R.rs.Stores a
        · obtain ⟨heq, hnew⟩ := hstore hst
          have hcounts : R.counts a = [(a.seq, a.idx)] := if_pos ⟨hle, hd, hst⟩
          rw [if_pos hst, hcounts]
          exact ⟨_, hS.store hst.1 hst.2 heq hnew⟩
        · rw [if_neg hst]
          exact ⟨S, hS.mono (fun b hb => List.mem_append_left _ hb)
            fun i hi => List.mem_append_right _ hi⟩
      · rw [AList.lookup_insert_ne hn] at hp
        exact hbase.entries n p hp

/-- A frame that fits: the entries stay sound, and every stream passed is backed. -/
theorem Receiving.Sound.note (h : R.Sound) (hfits : R.Fits a) (htot : a.total < 2 ^ 16) :
    (R.note (R.rs.arrive a) a).Sound ∧
      Explained (R.arrivals ++ [a]) R.rs (R.rs.arrive a) := by
  have hpass := h.passing hfits htot
  refine ⟨⟨hpass.next, ?_⟩, hpass.explained⟩
  intro n p hp
  obtain ⟨S, hS⟩ := hpass.entries n p hp
  refine ⟨S, hS.mono (fun b hb => hb) fun i hi => ?_⟩
  refine List.mem_filter.mpr ⟨hi, decide_eq_true ?_⟩
  exact AList.lookup_isSome.mp (Option.isSome_iff_exists.mpr ⟨p, hp⟩)

end Frame

/-! ## Runs -/

section Runs
variable {C : Config} {s : ℕ} {R R' : Receiving}

theorem Receiving.Sound.keep (h : R.Sound) {rs : RxState} (hnext : rs.next_rx_seq = R.rs.next_rx_seq)
    (hpending : rs.pending = R.rs.pending) : Receiving.Sound { R with rs := rs } where
  next := by
    dsimp only
    rw [hnext]
    exact h.next
  entries := by
    dsimp only
    rw [hpending]
    exact h.entries

theorem Receiving.Sound.data (h : R.Sound) {buf : Bytes} {bytes : IsBytes buf}
    (hfits : R.fitting C s (.data buf bytes)) (hs : R.step C s (.data buf bytes) = some R') :
    R'.Sound ∧ Explained R'.arrivals R.rs R'.rs := by
  simp only [Receiving.step] at hs
  rw [handle_data_arrive] at hs
  cases ha : arrival_of C s buf with
  | none =>
    rw [ha] at hs
    obtain rfl := Option.some.inj hs
    exact ⟨h.keep rfl rfl, .refl h.next⟩
  | some a =>
    rw [ha] at hs
    obtain rfl := Option.some.inj hs
    exact h.note (hfits a ha) (arrival_lt bytes ha).2.2

theorem Receiving.Sound.step (h : R.Sound) {ev : RxEvent} (hfits : R.fitting C s ev)
    (hs : R.step C s ev = some R') : R'.Sound := by
  cases ev with
  | data buf bytes => exact (h.data hfits hs).1
  | recv len =>
    obtain ⟨r, hr, rfl⟩ := Option.map_eq_some_iff.mp hs
    obtain ⟨-, q, -, rfl⟩ := recv_inv hr
    exact h.keep rfl rfl
  | drain now₁ now₂ =>
    obtain ⟨r, hr, rfl⟩ := Option.map_eq_some_iff.mp hs
    obtain ⟨ns, m, hrs⟩ := drain_nack_state_same hr
    exact h.keep (by rw [hrs]) (by rw [hrs])
  | poison buf =>
    obtain rfl := Option.some.inj hs
    obtain ⟨m, hrs⟩ := handle_poison_same C (fun _ => R.rs) buf s
    exact h.keep (by rw [hrs]) (by rw [hrs])

theorem Receiving.Sound.init : Receiving.Sound {} where
  next := by decide
  entries := by
    intro n p hp
    cases hp

/-- In a run whose frames fit, a frame passes a stream only when frames with one fragment count and
all indices of it have come in, and the reader gets their payloads in order. -/
theorem streams_backed (C : Config) (s : ℕ)
    (h : Runs (Receiving.step C s) (Receiving.fitting C s) {} R) {buf : Bytes} {bytes : IsBytes buf}
    (hfits : R.fitting C s (.data buf bytes)) (hs : R.step C s (.data buf bytes) = some R') :
    Explained R'.arrivals R.rs R'.rs := by
  have hsound : R.Sound := h.invariant .init fun R ev R' hR hok hstep => hR.step hok hstep
  exact (hsound.data hfits hs).2

/-- A frame of a message in two fragments of one byte each. -/
def halfFrame (idx : ℕ) : Bytes := header KIND_DATA 0 1 0 idx 2 1 ++ [idx + 5]

theorem halfFrame_bytes (idx : ℕ) (h : idx < 2) : IsBytes (halfFrame idx) := by
  interval_cases idx
  · decide
  · decide

/-- The second fragment comes first; the frame of the first one completes the message. -/
theorem streams_backed_second : ∃ R R',
    Runs (Receiving.step pipe01.T 0) (Receiving.fitting pipe01.T 0) {} R ∧
    R.step pipe01.T 0 (.data (halfFrame 0) (halfFrame_bytes 0 Nat.two_pos)) = some R' ∧
    R.rs.next_rx_seq = 0 ∧ R'.rs.next_rx_seq = 1 ∧ Explained R'.arrivals R.rs R'.rs := by
  have harrival : arrival_of pipe01.T 0 (halfFrame 1) = some ⟨0, 1, 2, [4]⟩ ∧
      arrival_of pipe01.T 0 (halfFrame 0) = some ⟨0, 0, 2, [4]⟩ := by decide
  let R : Receiving := Receiving.note {} (handle_data_ pipe01.T (fun _ => {}) (halfFrame 1) 0)
    ⟨0, 1, 2, [4]⟩
  have hR : Receiving.step pipe01.T 0 {} (.data (halfFrame 1) (halfFrame_bytes 1 Nat.one_lt_two)) =
      some R := by
    simp only [Receiving.step, harrival.1]
    rfl
  have hfirst : Receiving.fitting pipe01.T 0 {}
      (.data (halfFrame 1) (halfFrame_bytes 1 Nat.one_lt_two)) := by
    intro a ha
    obtain rfl := Option.some.inj (harrival.1.symm.trans ha)
    exact .inr (by decide)
  have hsecond : R.fitting pipe01.T 0 (.data (halfFrame 0) (halfFrame_bytes 0 Nat.two_pos)) := by
    intro a ha
    obtain rfl := Option.some.inj (harrival.2.symm.trans ha)
    exact .inr (by decide)
  have hrun : Runs (Receiving.step pipe01.T 0) (Receiving.fitting pipe01.T 0) {} R :=
    .next _ .start hfirst hR
  have hR' : R.step pipe01.T 0 (.data (halfFrame 0) (halfFrame_bytes 0 Nat.two_pos)) =
      some (R.note (handle_data_ pipe01.T (fun _ => R.rs) (halfFrame 0) 0) ⟨0, 0, 2, [4]⟩) := by
    simp only [Receiving.step, harrival.2]
  exact ⟨R, _, hrun, hR', by decide, by decide, streams_backed pipe01.T 0 hrun hsecond hR'⟩

/-- The frame of a message of 65536 fragments: its count does not fit the header, which says 0. -/
theorem streams_unbacked : ∃ R', Receiving.step pipe01.T 0 {}
      (.data (header KIND_DATA 0 1 0 0 0 0) (by decide)) = some R' ∧
    R'.rs.next_rx_seq = 1 ∧ ¬ Explained R'.arrivals {} R'.rs := by
  refine ⟨_, rfl, rfl, ?_⟩
  rintro ⟨ds, hnext, -, -, hback⟩
  cases ds with
  | nil => cases hnext
  | cons d ds =>
    obtain ⟨T, pick, hT, hmem, -⟩ := hback 0 d rfl
    have h0 : (⟨0, 0, T, pick 0⟩ : Arrival) ∈ [(⟨0, 0, 0, []⟩ : Arrival)] := hmem 0 hT
    have : T = 0 := congrArg Arrival.total (List.mem_singleton.mp h0)
    omega

end Runs

end QSync.Io
