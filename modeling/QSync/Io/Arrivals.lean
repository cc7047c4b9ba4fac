import QSync.Io.Frames

/-! # DATA frames of any content

What `handle_data_` does with an arbitrary byte string, seen from one sender's receive state: nothing,
or the locked part on header fields that nothing has checked.
-/

namespace QSync.Io
open QSync.Network
set_option autoImplicit false
set_option maxHeartbeats 250000

/-- A DATA frame as the locked part of `handle_data_` gets it. -/
structure Arrival where
  seq : ℕ
  idx : ℕ
  total : ℕ
  payload : Bytes
  deriving DecidableEq

/-- What a frame is to the receive state of `s`; `none`: nothing. -/
def arrival_of (C : Config) (s : ℕ) (buf : Bytes) : Option Arrival :=
  if field buf 4 1 = s ∧ s ≠ C.self_id_ ∧ s < C.nP_ ∧ field buf 5 1 = C.self_id_ ∧
      buf.length = HEADER_SIZE + field buf 16 4 then
    some
      { seq := field buf 8 4
        idx := field buf 12 2
        total := field buf 14 2
        payload := crypt C.lib (C.pair_key s)
          (build_nonce 0 s C.self_id_ (field buf 8 4) (field buf 12 2)) (buf.drop HEADER_SIZE) }
  else none

def arrivals (C : Config) (s : ℕ) (frames : List Bytes) : List Arrival :=
  frames.filterMap (arrival_of C s)

def RxState.arrive (rs : RxState) (a : Arrival) : RxState :=
  rs.accept a.seq a.idx a.total a.payload

def IsBytes (buf : Bytes) : Prop := ∀ b ∈ buf, b < 256

instance (buf : Bytes) : Decidable (IsBytes buf) := inferInstanceAs (Decidable (∀ b ∈ buf, b < 256))

section Handle
variable {C : Config} {s : ℕ}

theorem handle_data_arrive (rx_ : ℕ → RxState) (buf : Bytes) :
    handle_data_ C rx_ buf s = match arrival_of C s buf with
      | none => rx_ s
      | some a => (rx_ s).arrive a := by
  by_cases hsnd : field buf 4 1 = s
  · subst hsnd
    unfold handle_data_ arrival_of
    dsimp only
    by_cases hids : field buf 4 1 = C.self_id_ ∨ field buf 4 1 ≥ C.nP_ ∨ field buf 5 1 ≥ C.nP_
    · rw [if_pos hids, if_neg]
      rintro ⟨-, h1, h2, h3, -⟩
      have hself := C.self_lt
      obtain h | h | h := hids
      · exact h1 h
      · omega
      · omega
    · rw [if_neg hids]
      rw [not_or, not_or] at hids
      by_cases hlen : buf.length ≠ HEADER_SIZE + field buf 16 4
      · rw [if_pos hlen, if_neg (fun h => hlen h.2.2.2.2)]
      · rw [if_neg hlen]
        by_cases htgt : field buf 5 1 ≠ C.self_id_
        · rw [if_pos htgt, if_neg (fun h => htgt h.2.2.2.1)]
        · rw [if_neg htgt, if_pos ⟨rfl, hids.1, by omega, not_not.mp htgt, not_not.mp hlen⟩,
            Function.update_self]
          rfl
  · have hnone : arrival_of C s buf = none := if_neg (fun h => hsnd h.1)
    rw [hnone]
    unfold handle_data_
    dsimp only
    split
    · rfl
    · split
      · rfl
      · split
        · rfl
        · exact Function.update_of_ne (Ne.symm hsnd) ..

theorem foldl_handle_data (frames : List Bytes) (rx_ : ℕ → RxState) :
    frames.foldl (handle_data_ C) rx_ s = (arrivals C s frames).foldl RxState.arrive (rx_ s) := by
  induction frames generalizing rx_ with
  | nil => rfl
  | cons buf frames ih =>
    unfold arrivals
    rw [List.foldl_cons, ih, handle_data_arrive, List.filterMap_cons]
    cases arrival_of C s buf with
    | none => rfl
    | some a => rfl

theorem field_lt {buf : Bytes} (h : IsBytes buf) (off w : ℕ) : field buf off w < 256 ^ w := by
  have hlt : leNat ((buf.drop off).take w) < 256 ^ ((buf.drop off).take w).length :=
    leNat_lt fun b hb => h b (List.mem_of_mem_drop (List.mem_of_mem_take hb))
  exact hlt.trans_le (Nat.pow_le_pow_right (by decide) (List.length_take_le _ _))

theorem arrival_lt {buf : Bytes} {a : Arrival} (h : IsBytes buf) (ha : arrival_of C s buf = some a) :
    a.seq < 2 ^ 32 ∧ a.idx < 2 ^ 16 ∧ a.total < 2 ^ 16 := by
  unfold arrival_of at ha
  split at ha
  · obtain rfl := Option.some.inj ha
    exact ⟨field_lt h 8 4, field_lt h 12 2, field_lt h 14 2⟩
  · cases ha

end Handle

/-! ## Taking what is complete -/

/-- One round of `drain_pending_locked_` that hands `p` over. -/
def RxState.deliver (rs : RxState) (p : Partial) : RxState :=
  { rs with
    rx := if p.frags.flatten.length > 0 then rs.rx ++ [{ bytes := p.frags.flatten }] else rs.rx
    rx_bytes := rs.rx_bytes + p.frags.flatten.length
    pending := rs.pending.erase rs.next_rx_seq
    next_rx_seq := (rs.next_rx_seq + 1) % 2 ^ 32 }

theorem drain_pending_induct {I : RxState → Prop} (hstep : ∀ rs p, I rs →
      rs.pending.lookup rs.next_rx_seq = some p → p.received = p.frag_total → I (rs.deliver p))
    (fuel : ℕ) {rs : RxState} (h : I rs) : I (drain_pending fuel rs) := by
  induction fuel generalizing rs with
  | zero => exact h
  | succ fuel ih =>
    unfold drain_pending
    cases hp : rs.pending.lookup rs.next_rx_seq with
    | none => exact h
    | some p =>
      dsimp only
      split
      · exact h
      · next hrec => exact ih (hstep rs p h hp (not_not.mp hrec))

/-! ## The counters and the lists stay in range -/

/-- As wide as the types of the fields, and one place for every fragment. -/
structure RxState.Shaped (rs : RxState) : Prop where
  next : rs.next_rx_seq < 2 ^ 32
  max : rs.max_seen_seq < 2 ^ 32
  partials : ∀ n p, rs.pending.lookup n = some p →
    p.frags.length = p.frag_total ∧ p.frag_total < 2 ^ 16

section Shaped
variable {rs : RxState}

theorem Partial.add_shaped {p : Partial} {idx tot : ℕ} {payload : Bytes}
    (h : p.frags.length = p.frag_total ∧ p.frag_total < 2 ^ 16) (htot : tot < 2 ^ 16) :
    (p.add idx tot payload).frags.length = (p.add idx tot payload).frag_total ∧
      (p.add idx tot payload).frag_total < 2 ^ 16 := by
  -- the fragment count is set before, the places are filled after
  have hfill : ∀ q : Partial, q.frags.length = q.frag_total ∧ q.frag_total < 2 ^ 16 →
      ∀ q', (q' = if idx < q.frag_total then
          if (q.frags.getD idx []).isEmpty then
            { q with
              frags := if payload.length > 0 then q.frags.set idx payload else q.frags
              received := (q.received + 1) % 2 ^ 32 }
          else q
        else q) → q'.frags.length = q'.frag_total ∧ q'.frag_total < 2 ^ 16 := by
    intro q hq q' hq'
    rw [hq']
    split
    · split
      · dsimp only
        split
        · rw [List.length_set]
          exact hq
        · exact hq
      · exact hq
    · exact hq
  refine hfill (if p.frag_total = 0 then
    { p with frag_total := tot, frags := resize p.frags tot } else p) ?_ _ rfl
  split
  · exact ⟨length_resize _ _, htot⟩
  · exact h

theorem RxState.Shaped.deliver (h : rs.Shaped) (p : Partial) : (rs.deliver p).Shaped where
  next := Nat.mod_lt _ (by decide)
  max := h.max
  partials := by
    intro n q hq
    by_cases hn : n = rs.next_rx_seq
    · subst hn
      rw [RxState.deliver, AList.lookup_erase] at hq
      cases hq
    · rw [RxState.deliver, AList.lookup_erase_ne hn] at hq
      exact h.partials n q hq

theorem RxState.Shaped.drain (h : rs.Shaped) : (drain_pending_locked_ rs).Shaped :=
  drain_pending_induct (I := RxState.Shaped) (fun _ p hI _ _ => hI.deliver p) _ h

theorem RxState.Shaped.note (h : rs.Shaped) {seq idx : ℕ} (hseq : seq < 2 ^ 32) :
    (rs.note_arrival seq idx).Shaped where
  next := h.next
  max := by
    unfold RxState.note_arrival
    dsimp only
    split
    · exact hseq
    · exact h.max
  partials := h.partials

theorem RxState.Shaped.arrive (h : rs.Shaped) {a : Arrival} (hseq : a.seq < 2 ^ 32)
    (htot : a.total < 2 ^ 16) : (rs.arrive a).Shaped := by
  have hn : (rs.note_arrival a.seq a.idx).Shaped := h.note hseq
  unfold RxState.arrive RxState.accept
  dsimp only
  split
  · exact hn
  · split
    · apply RxState.Shaped.drain
      exact ⟨Nat.mod_lt _ (by decide), hn.max, hn.partials⟩
    · apply RxState.Shaped.drain
      refine ⟨hn.next, hn.max, ?_⟩
      intro n q hq
      dsimp only at hq
      by_cases hne : n = a.seq
      · subst hne
        rw [AList.lookup_insert] at hq
        obtain rfl := Option.some.inj hq
        apply Partial.add_shaped _ htot
        cases hp : (rs.note_arrival a.seq a.idx).pending.lookup a.seq with
        | none => exact ⟨rfl, by decide⟩
        | some p => exact hn.partials _ p hp
      · rw [AList.lookup_insert_ne hne] at hq
        exact hn.partials n q hq

theorem RxState.Shaped.init : RxState.Shaped {} where
  next := by decide
  max := by decide
  partials := by
    intro n p hp
    cases hp

theorem RxState.Shaped.arrives {as : List Arrival} (h : rs.Shaped)
    (hlt : ∀ a ∈ as, a.seq < 2 ^ 32 ∧ a.total < 2 ^ 16) : (as.foldl RxState.arrive rs).Shaped := by
  induction as generalizing rs with
  | nil => exact h
  | cons a as ih =>
    obtain ⟨hseq, htot⟩ := hlt a (List.mem_cons_self ..)
    exact ih (h.arrive hseq htot) fun b hb => hlt b (List.mem_cons_of_mem _ hb)

theorem arrivals_lt {C : Config} {s : ℕ} {frames : List Bytes}
    (hbytes : ∀ buf ∈ frames, IsBytes buf) {a : Arrival} (ha : a ∈ arrivals C s frames) :
    a.seq < 2 ^ 32 ∧ a.idx < 2 ^ 16 ∧ a.total < 2 ^ 16 := by
  obtain ⟨buf, hbuf, ha⟩ := List.mem_filterMap.mp ha
  exact arrival_lt (hbytes buf hbuf) ha

theorem shaped_of_frames (C : Config) (s : ℕ) {frames : List Bytes}
    (hbytes : ∀ buf ∈ frames, IsBytes buf) :
    ((frames.foldl (handle_data_ C) fun _ => {}) s).Shaped := by
  rw [foldl_handle_data]
  apply RxState.Shaped.init.arrives
  intro a ha
  obtain ⟨hseq, -, htot⟩ := arrivals_lt hbytes ha
  exact ⟨hseq, htot⟩

end Shaped
end QSync.Io
