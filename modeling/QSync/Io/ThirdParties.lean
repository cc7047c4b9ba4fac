import QSync.Io.MalformedFrames

/-! # Frames from other addresses

One step of the pump of a party: filters, then one handler. Only `handle_nack_` looks at the address
a frame comes from. A frame of a third party leaves the pipe with `s` alone exactly when it does not
speak for `s`, or says nothing new.
-/

namespace QSync.Io
open QSync.Network
set_option autoImplicit false
set_option maxHeartbeats 250000

/-! ## The pump -/

structure Bus where
  tx_ : ℕ → TxState := fun _ => {}
  rx_ : ℕ → RxState := fun _ => {}

/-- What `recvfrom` puts into the buffer, unless the pump drops it unread. `self_tsn_ip_be_` is the
party's own entry of `ip_table_`. -/
def pump_taken (C : Config) (datagram : Bytes) (src : ℕ) : Option Bytes :=
  let buf := datagram.take (HEADER_SIZE + MAX_PAYLOAD + 64)
  if buf.length = 0 then none
  else if C.ip_table_ C.self_id_ ≠ 0 ∧ src = C.ip_table_ C.self_id_ then none
  else if buf.length < HEADER_SIZE then none
  else some buf

/-- The handler for the kind of a frame. -/
def dispatch (C : Config) (B : Bus) (buf : Bytes) (src : ℕ) : Bus × NackReply :=
  let kind := field buf 0 4
  if kind = KIND_DATA then ({ B with rx_ := handle_data_ C B.rx_ buf }, .silent)
  else if kind = KIND_NACK then
    let r := handle_nack_ C B.tx_ buf src
    ({ B with tx_ := r.1 }, r.2)
  else if kind = KIND_POISON then ({ B with rx_ := handle_poison_ C B.rx_ buf }, .silent)
  else (B, .silent)

/-- One datagram in `pump_loop_`. -/
def Bus.pump (C : Config) (B : Bus) (datagram : Bytes) (src : ℕ) : Bus × NackReply :=
  match pump_taken C datagram src with
  | none => (B, .silent)
  | some buf => dispatch C B buf src

/-- What happens at a party. Sending only changes the send state of the target, to whatever `send`
leaves there. -/
inductive PumpEvent
  | frame (datagram : Bytes) (bytes : IsBytes datagram) (src : ℕ)
  | recv (s len : ℕ)
  | drain (s now₁ now₂ : ℕ)
  | send (t : ℕ) (ts : TxState)

def Bus.step (C : Config) (B : Bus) : PumpEvent → Option Bus
  | .frame datagram _ src => some (B.pump C datagram src).1
  | .recv s len =>
    (QSync.Io.recv (B.rx_ s) len).map fun r => { B with rx_ := Function.update B.rx_ s r.2 }
  | .drain s now₁ now₂ =>
    (drain_nack_state_ C s now₁ now₂ (B.rx_ s)).map fun r =>
      { B with rx_ := Function.update B.rx_ s r.1 }
  | .send t ts => some { B with tx_ := Function.update B.tx_ t ts }

/-! ## Undisturbed and harmless -/

/-- The same receive state, the maps compared as maps. -/
structure RxState.Same (rs rs' : RxState) : Prop where
  next : rs'.next_rx_seq = rs.next_rx_seq
  max : rs'.max_seen_seq = rs.max_seen_seq
  any : rs'.any_seen = rs.any_seen
  pending : ∀ n, rs'.pending.lookup n = rs.pending.lookup n
  rx : rs'.rx = rs.rx
  rx_bytes : rs'.rx_bytes = rs.rx_bytes
  nack_state : ∀ key, rs'.nack_state.lookup key = rs.nack_state.lookup key
  poisoned : rs'.poisoned = rs.poisoned

def NackReply.target : NackReply → Option ℕ
  | .silent => none
  | .resend target _ _ _ => some target
  | .poison target _ => some target

/-- A step leaves the pipe with `s` alone, and nothing is sent again to `s`. -/
structure Undisturbed (s : ℕ) (B : Bus) (r : Bus × NackReply) : Prop where
  rx : (B.rx_ s).Same (r.1.rx_ s)
  tx : r.1.tx_ s = B.tx_ s
  reply : r.2.target ≠ some s

/-- Nothing about the frame is news: it was seen, is not asked for, and is late or adds nothing to
its entry. -/
def RxState.Ignores (rs : RxState) (a : Arrival) : Prop :=
  rs.any_seen = true ∧ a.seq ≤ rs.max_seen_seq ∧ (a.seq, a.idx) ∉ rs.nack_state ∧
    (a.seq < rs.next_rx_seq ∨ ¬rs.Direct a ∧ ¬rs.Stores a ∧
      ∃ p, rs.pending.lookup a.seq = some p ∧ (p.frag_total = 0 → a.total = 0))

/-- `handle_poison_` takes the frame as one of `s`. -/
def PoisonOf (C : Config) (s : ℕ) (buf : Bytes) : Prop :=
  field buf 4 1 = s ∧ s ≠ C.self_id_ ∧ s < C.nP_ ∧ field buf 5 1 = C.self_id_ ∧
    HEADER_SIZE + (if field buf 16 4 > MAX_PAYLOAD then 0 else field buf 16 4) ≤ buf.length

/-- A frame that is dropped, or does not speak for `s`, or says nothing new. -/
def Bus.Harmless (C : Config) (B : Bus) (s : ℕ) (datagram : Bytes) (src : ℕ) : Prop :=
  ∀ buf, pump_taken C datagram src = some buf →
    (field buf 0 4 = KIND_DATA → ∀ a, arrival_of C s buf = some a → (B.rx_ s).Ignores a) ∧
    (field buf 0 4 = KIND_POISON → PoisonOf C s buf → (B.rx_ s).poisoned.isSome)

/-! ## What draining does -/

section Drain
variable {rs rs' : RxState}

theorem RxState.Same.refl (rs : RxState) : rs.Same rs :=
  ⟨rfl, rfl, rfl, fun _ => rfl, rfl, rfl, fun _ => rfl, rfl⟩

theorem length_of_lookup {m m' : AList (fun _ : ℕ => Partial)}
    (h : ∀ n, m'.lookup n = m.lookup n) : m'.entries.length = m.entries.length := by
  apply List.Perm.length_eq
  apply List.lookup_ext m'.nodupKeys m.nodupKeys
  intro n p
  have hn := h n
  unfold AList.lookup at hn
  rw [hn]

theorem drain_rounds (rs : RxState) (hnext : rs.next_rx_seq < 2 ^ 32) :
    ∃ d, (drain_pending_locked_ rs).pending.entries.length + d = rs.pending.entries.length ∧
      (drain_pending_locked_ rs).next_rx_seq = (rs.next_rx_seq + d) % 2 ^ 32 ∧
      (d = 0 → drain_pending_locked_ rs = rs) := by
  apply drain_pending_induct (I := fun rs' => ∃ d,
    rs'.pending.entries.length + d = rs.pending.entries.length ∧
      rs'.next_rx_seq = (rs.next_rx_seq + d) % 2 ^ 32 ∧ (d = 0 → rs' = rs))
  · rintro rs' p ⟨d, hlen, hseq, -⟩ hp -
    refine ⟨d + 1, ?_, ?_, fun h => absurd h (Nat.succ_ne_zero d)⟩
    · have := entries_erase_length hp
      show (rs'.pending.erase rs'.next_rx_seq).entries.length + (d + 1) = _
      omega
    · show (rs'.next_rx_seq + 1) % 2 ^ 32 = _
      rw [hseq, Nat.mod_add_mod, Nat.add_assoc]
  · exact ⟨0, rfl, (Nat.mod_eq_of_lt hnext).symm, fun _ => rfl⟩

theorem drain_settled (fuel : ℕ) (h : rs.pending.entries.length ≤ fuel) :
    Settled (drain_pending fuel rs) := by
  induction fuel generalizing rs with
  | zero =>
    intro p hp
    have := entries_erase_length hp
    simp only [drain_pending] at this
    omega
  | succ fuel ih =>
    unfold drain_pending
    cases hp : rs.pending.lookup rs.next_rx_seq with
    | none =>
      intro p hp'
      rw [hp] at hp'
      cases hp'
    | some p =>
      dsimp only
      split
      · next hrec =>
        intro q hq
        obtain rfl : p = q := Option.some.inj (hp.symm.trans hq)
        exact hrec
      · apply ih
        have := entries_erase_length hp
        dsimp only
        omega

theorem drain_of_settled (h : Settled rs) : drain_pending_locked_ rs = rs := by
  unfold drain_pending_locked_
  cases rs.pending.entries.length with
  | zero => rfl
  | succ fuel =>
    unfold drain_pending
    cases hp : rs.pending.lookup rs.next_rx_seq with
    | none => rfl
    | some p => exact if_pos (h p hp)

theorem arrive_settled (h : Settled rs) (a : Arrival) : Settled (rs.arrive a) := by
  unfold RxState.arrive RxState.accept
  dsimp only
  split
  · exact h
  · split
    · exact drain_settled _ le_rfl
    · exact drain_settled _ le_rfl

end Drain

/-! ## Which frames change the receive state -/

section Same
variable {rs rs' : RxState} {a : Arrival}

theorem add_of_not_stores (hsh : rs.Shaped) {p : Partial} (hp : rs.pending.lookup a.seq = some p)
    (hst : ¬rs.Stores a) (htot : p.frag_total = 0 → a.total = 0) :
    ((rs.pending.lookup a.seq).getD {}).add a.idx a.total a.payload = p := by
  rw [add_to_entry, if_neg hst]
  unfold RxState.entry
  rw [hp, Option.getD_some]
  dsimp only
  split
  · next h0 =>
    have hnil : p.frags = [] := by
      rw [← List.length_eq_zero_iff, (hsh.partials _ _ hp).1, h0]
    rw [htot h0]
    cases p
    subst hnil h0
    rfl
  · rfl

theorem not_stores_of_add {p : Partial} (hp : rs.pending.lookup a.seq = some p)
    (hadd : ((rs.pending.lookup a.seq).getD {}).add a.idx a.total a.payload = p) :
    ¬rs.Stores a ∧ (p.frag_total = 0 → a.total = 0) := by
  rw [add_to_entry] at hadd
  have hrec : (rs.entry a).received = p.received := by
    unfold RxState.entry
    rw [hp, Option.getD_some]
    dsimp only
    split <;> rfl
  have hst : ¬rs.Stores a := by
    intro hst
    rw [if_pos hst] at hadd
    have hcount := congrArg Partial.received hadd
    dsimp only at hcount
    rw [hrec] at hcount
    omega
  refine ⟨hst, fun h0 => ?_⟩
  rw [if_neg hst] at hadd
  unfold RxState.entry at hadd
  rw [hp, Option.getD_some] at hadd
  dsimp only at hadd
  rw [if_pos h0] at hadd
  have htot := congrArg Partial.frag_total hadd
  dsimp only at htot
  rw [htot, h0]

theorem note_same (hany : rs.any_seen = true) (hmax : a.seq ≤ rs.max_seen_seq)
    (hkey : (a.seq, a.idx) ∉ rs.nack_state) : rs.Same (rs.note_arrival a.seq a.idx) := by
  have hle : ¬(!rs.any_seen || decide (a.seq > rs.max_seen_seq)) = true := by
    rw [hany]
    simpa using hmax
  refine ⟨rfl, if_neg hle, hany.symm, fun _ => rfl, rfl, rfl, ?_, rfl⟩
  intro key
  by_cases he : key = (a.seq, a.idx)
  · rw [he]
    show (rs.nack_state.erase (a.seq, a.idx)).lookup _ = _
    rw [AList.lookup_erase, AList.lookup_eq_none.mpr hkey]
  · exact AList.lookup_erase_ne he

theorem RxState.Ignores.same (h : rs.Ignores a) (hsh : rs.Shaped) (hset : Settled rs) :
    rs.Same (rs.arrive a) := by
  obtain ⟨hany, hmax, hkey, hrest⟩ := h
  have hnote := note_same hany hmax hkey
  unfold RxState.arrive RxState.accept
  dsimp only
  split
  · exact hnote
  · next hlate =>
    obtain ⟨hdirect, hst, p, hp, htot⟩ := hrest.resolve_left hlate
    have hd : ¬(a.total = 1 ∧ a.seq = (rs.note_arrival a.seq a.idx).next_rx_seq) := hdirect
    rw [if_neg hd]
    have hadd := add_of_not_stores hsh hp hst htot
    have hlook : (rs.note_arrival a.seq a.idx).pending.lookup a.seq = rs.pending.lookup a.seq := rfl
    rw [hlook, hadd]
    -- the entry is put back as it was
    have hput : ∀ n, ((rs.note_arrival a.seq a.idx).pending.insert a.seq p).lookup n =
        rs.pending.lookup n := by
      intro n
      by_cases hn : n = a.seq
      · rw [hn, AList.lookup_insert, hp]
      · exact AList.lookup_insert_ne hn
    rw [drain_of_settled]
    · exact ⟨hnote.next, hnote.max, hnote.any, hput, hnote.rx, hnote.rx_bytes, hnote.nack_state,
        hnote.poisoned⟩
    · intro q hq
      exact hset q ((hput _).symm.trans hq)

/-- A stream passed at once would move on, and every further one that is drained costs an entry. -/
theorem not_direct_of_same (h : rs.Same (rs.arrive a)) (hlate : ¬a.seq < rs.next_rx_seq) :
    ¬rs.Direct a := by
  intro hdirect
  have hnext := h.next
  have hlen := length_of_lookup h.pending
  have hl : ¬a.seq < (rs.note_arrival a.seq a.idx).next_rx_seq := hlate
  have hd : a.total = 1 ∧ a.seq = (rs.note_arrival a.seq a.idx).next_rx_seq := hdirect
  unfold RxState.arrive RxState.accept at hnext hlen
  dsimp only at hnext hlen
  rw [if_neg hl, if_pos hd] at hnext hlen
  obtain ⟨d, h1, h2, -⟩ := drain_rounds
    { (rs.note_arrival a.seq a.idx) with
      rx := if a.payload.length > 0 then (rs.note_arrival a.seq a.idx).rx ++
        [{ bytes := a.payload }] else (rs.note_arrival a.seq a.idx).rx
      rx_bytes := (rs.note_arrival a.seq a.idx).rx_bytes + a.payload.length
      next_rx_seq := ((rs.note_arrival a.seq a.idx).next_rx_seq + 1) % 2 ^ 32 }
    (Nat.mod_lt _ (by decide))
  rw [hlen] at h1
  rw [hnext] at h2
  have hd0 : d = 0 := by
    have : (rs.note_arrival a.seq a.idx).pending.entries.length =
      rs.pending.entries.length := rfl
    dsimp only at h1
    omega
  rw [hd0] at h2
  have hn : (rs.note_arrival a.seq a.idx).next_rx_seq = rs.next_rx_seq := rfl
  dsimp only at h2
  rw [hn] at h2
  omega

/-- A fragment put into an entry changes nothing only where the entry has it already. -/
theorem held_of_same (hsh : rs.Shaped) (h : rs.Same (rs.arrive a)) (hlate : ¬a.seq < rs.next_rx_seq)
    (hdirect : ¬rs.Direct a) :
    ¬rs.Stores a ∧ ∃ p, rs.pending.lookup a.seq = some p ∧ (p.frag_total = 0 → a.total = 0) := by
  have hnext := h.next
  have hlen := length_of_lookup h.pending
  have hpend := h.pending a.seq
  have hl : ¬a.seq < (rs.note_arrival a.seq a.idx).next_rx_seq := hlate
  have hd : ¬(a.total = 1 ∧ a.seq = (rs.note_arrival a.seq a.idx).next_rx_seq) := hdirect
  unfold RxState.arrive RxState.accept at hnext hlen hpend
  dsimp only at hnext hlen hpend
  rw [if_neg hl, if_neg hd] at hnext hlen hpend
  generalize hp' : (((rs.note_arrival a.seq a.idx).pending.lookup a.seq).getD {}).add a.idx
    a.total a.payload = p' at hnext hlen hpend
  obtain ⟨d, h1, h2, h3⟩ := drain_rounds
    { (rs.note_arrival a.seq a.idx) with
      pending := (rs.note_arrival a.seq a.idx).pending.insert a.seq p' } hsh.next
  rw [hlen] at h1
  rw [hnext] at h2
  have hins : ((rs.note_arrival a.seq a.idx).pending.insert a.seq p').entries.length =
      (rs.pending.erase a.seq).entries.length + 1 := by
    rw [AList.entries_insert]
    rfl
  cases hp : rs.pending.lookup a.seq with
  | none =>
    -- a new entry can only have gone again with its stream
    have herase : (rs.pending.erase a.seq).entries.length = rs.pending.entries.length := by
      have hnot : a.seq ∉ rs.pending.entries.keys := AList.lookup_eq_none.mp hp
      show (rs.pending.entries.kerase a.seq).length = _
      rw [List.kerase_of_notMem_keys hnot]
    have hn : (rs.note_arrival a.seq a.idx).next_rx_seq = rs.next_rx_seq := rfl
    dsimp only at h1 h2
    rw [hn] at h2
    omega
  | some p =>
    have herase := entries_erase_length hp
    have hd0 : d = 0 := by
      dsimp only at h1
      omega
    rw [h3 hd0] at hpend
    dsimp only at hpend
    rw [AList.lookup_insert, hp] at hpend
    have hadd : ((rs.pending.lookup a.seq).getD {}).add a.idx a.total a.payload = p :=
      hp'.trans (Option.some.inj hpend)
    obtain ⟨hst, htot⟩ := not_stores_of_add hp hadd
    exact ⟨hst, p, rfl, htot⟩

theorem ignores_of_same (hsh : rs.Shaped) (h : rs.Same (rs.arrive a)) : rs.Ignores a := by
  obtain ⟨hns, hmax, hany, -⟩ := accept_marks rs a.seq a.idx a.total a.payload
  have hseen : rs.any_seen = true := h.any.symm.trans hany
  refine ⟨hseen, ?_, ?_, ?_⟩
  · have heq : (rs.note_arrival a.seq a.idx).max_seen_seq = rs.max_seen_seq := hmax.symm.trans h.max
    unfold RxState.note_arrival at heq
    rw [hseen] at heq
    simp only [Bool.not_true, Bool.false_or, decide_eq_true_eq] at heq
    split at heq <;> omega
  · have hkey := h.nack_state (a.seq, a.idx)
    unfold RxState.arrive at hkey
    rw [hns, AList.lookup_erase] at hkey
    exact AList.lookup_eq_none.mp hkey.symm
  · by_cases hlate : a.seq < rs.next_rx_seq
    · exact .inl hlate
    · have hdirect := not_direct_of_same h hlate
      exact .inr ⟨hdirect, held_of_same hsh h hlate hdirect⟩

end Same

/-! ## NACK and POISON -/

section Others
variable {C : Config} {s : ℕ}

theorem handle_nack_target (C : Config) (target : ℕ) (ts : TxState) (seq idx : ℕ) :
    (ts.handle_nack C target seq idx).2.target = none ∨
      (ts.handle_nack C target seq idx).2.target = some target := by
  obtain he | ⟨rcd, ts', -, -, -, hrep⟩ | ⟨-, he⟩ := handle_nack_cases C target ts seq idx
  · rw [he]
    exact .inl rfl
  · obtain ⟨-, he⟩ | he := hrep
    · rw [he]
      exact .inr rfl
    · rw [he]
      exact .inr rfl
  · rw [he]
    exact .inr rfl

theorem handle_nack_other (tx_ : ℕ → TxState) (buf : Bytes) {src : ℕ} (hsrc : src ≠ C.ip_table_ s) :
    (handle_nack_ C tx_ buf src).1 s = tx_ s ∧ (handle_nack_ C tx_ buf src).2.target ≠ some s := by
  have hsilent : NackReply.silent.target ≠ some s := fun h => by cases h
  unfold handle_nack_
  dsimp only
  split
  · exact ⟨rfl, hsilent⟩
  · split
    · exact ⟨rfl, hsilent⟩
    · split
      · exact ⟨rfl, hsilent⟩
      · split
        · exact ⟨rfl, hsilent⟩
        · split
          · exact ⟨rfl, hsilent⟩
          · next horigin =>
            have hne : s ≠ field buf (HEADER_SIZE + 1) 1 := by
              intro he
              rw [← he] at horigin
              exact hsrc (not_not.mp horigin)
            refine ⟨Function.update_of_ne hne .., ?_⟩
            rcases handle_nack_target C (field buf (HEADER_SIZE + 1) 1)
              (tx_ (field buf (HEADER_SIZE + 1) 1)) (field buf (HEADER_SIZE + 4) 4)
              (field buf (HEADER_SIZE + 8) 2) with h | h
            · rw [h]
              exact fun h' => by cases h'
            · rw [h]
              exact fun h' => hne (Option.some.inj h').symm

theorem handle_poison_taken (rx_ : ℕ → RxState) {buf : Bytes} (hp : PoisonOf C s buf) :
    ∃ reason, handle_poison_ C rx_ buf s =
      { rx_ s with poisoned := some ((rx_ s).poisoned.getD reason) } := by
  unfold PoisonOf at hp
  unfold handle_poison_
  dsimp only
  generalize (if field buf 16 4 > MAX_PAYLOAD then 0 else field buf 16 4) = plen at hp ⊢
  obtain ⟨h1, h2, h3, h4, h5⟩ := hp
  rw [if_neg (fun h => h h4), h1, if_neg (by omega), if_neg (by omega), Function.update_self]
  exact ⟨_, rfl⟩

theorem handle_poison_other (rx_ : ℕ → RxState) {buf : Bytes} (hp : ¬PoisonOf C s buf) :
    handle_poison_ C rx_ buf s = rx_ s := by
  unfold PoisonOf at hp
  unfold handle_poison_
  dsimp only
  generalize (if field buf 16 4 > MAX_PAYLOAD then 0 else field buf 16 4) = plen at hp ⊢
  split
  · rfl
  · next htgt =>
    split
    · rfl
    · next hids =>
      split
      · rfl
      · next hlen =>
        apply Function.update_of_ne
        intro he
        rw [not_or] at hids
        refine hp ⟨he.symm, ?_, ?_, not_not.mp htgt, Nat.le_of_not_lt hlen⟩
        · exact fun h => hids.2 (he ▸ h)
        · rw [he]
          omega

theorem poison_same_iff (rx_ : ℕ → RxState) (buf : Bytes) :
    (rx_ s).Same (handle_poison_ C rx_ buf s) ↔
      (PoisonOf C s buf → (rx_ s).poisoned.isSome) := by
  by_cases hp : PoisonOf C s buf
  · obtain ⟨reason, he⟩ := handle_poison_taken rx_ hp
    rw [he]
    constructor
    · intro h _
      rw [← h.poisoned]
      rfl
    · intro h
      obtain ⟨r, hr⟩ := Option.isSome_iff_exists.mp (h hp)
      refine ⟨rfl, rfl, rfl, fun _ => rfl, rfl, rfl, fun _ => rfl, ?_⟩
      rw [hr]
      rfl
  · rw [handle_poison_other rx_ hp]
    exact ⟨fun _ h => absurd h hp, fun _ => .refl _⟩

end Others

/-! ## Runs -/

section Runs
variable {C : Config} {B B' : Bus} {s : ℕ}

/-- The fields stay in range, and nothing complete waits. -/
def Bus.Tidy (B : Bus) : Prop := ∀ s, (B.rx_ s).Shaped ∧ Settled (B.rx_ s)

theorem Bus.Tidy.keep (h : B.Tidy)
    (hrx : ∀ s, (B'.rx_ s).next_rx_seq = (B.rx_ s).next_rx_seq ∧
      (B'.rx_ s).max_seen_seq = (B.rx_ s).max_seen_seq ∧ (B'.rx_ s).pending = (B.rx_ s).pending) :
    B'.Tidy := by
  intro s
  obtain ⟨h1, h2, h3⟩ := hrx s
  obtain ⟨hsh, hset⟩ := h s
  refine ⟨⟨by rw [h1]; exact hsh.next, by rw [h2]; exact hsh.max, by rw [h3]; exact hsh.partials⟩, ?_⟩
  unfold Settled
  rw [h1, h3]
  exact hset

theorem Bus.Tidy.update (h : B.Tidy) {rs : RxState} (t : ℕ)
    (hnext : rs.next_rx_seq = (B.rx_ t).next_rx_seq)
    (hmax : rs.max_seen_seq = (B.rx_ t).max_seen_seq) (hpending : rs.pending = (B.rx_ t).pending) :
    Bus.Tidy { B with rx_ := Function.update B.rx_ t rs } := by
  apply h.keep
  intro s
  dsimp only
  by_cases hs : s = t
  · rw [hs, Function.update_self]
    exact ⟨hnext, hmax, hpending⟩
  · rw [Function.update_of_ne hs]
    exact ⟨rfl, rfl, rfl⟩

theorem pump_taken_bytes {datagram buf : Bytes} {src : ℕ} (h : IsBytes datagram)
    (ht : pump_taken C datagram src = some buf) : IsBytes buf := by
  unfold pump_taken at ht
  dsimp only at ht
  split at ht
  · cases ht
  · split at ht
    · cases ht
    · split at ht
      · cases ht
      · rw [← Option.some.inj ht]
        exact fun b hb => h b (List.mem_of_mem_take hb)

theorem Bus.Tidy.pump (h : B.Tidy) {datagram : Bytes} (bytes : IsBytes datagram) (src : ℕ) :
    (B.pump C datagram src).1.Tidy := by
  unfold Bus.pump
  cases ht : pump_taken C datagram src with
  | none => exact h
  | some buf =>
    have hbuf := pump_taken_bytes bytes ht
    dsimp only
    unfold dispatch
    dsimp only
    split
    · intro s
      dsimp only
      rw [handle_data_arrive]
      cases ha : arrival_of C s buf with
      | none => exact h s
      | some a =>
        obtain ⟨hseq, -, htot⟩ := arrival_lt hbuf ha
        exact ⟨(h s).1.arrive hseq htot, arrive_settled (h s).2 a⟩
    · split
      · exact h
      · split
        · apply h.keep
          intro s
          obtain ⟨m, hm⟩ := handle_poison_same C B.rx_ buf s
          dsimp only
          rw [hm]
          exact ⟨rfl, rfl, rfl⟩
        · exact h

theorem Bus.Tidy.step (h : B.Tidy) {ev : PumpEvent} (hs : B.step C ev = some B') : B'.Tidy := by
  cases ev with
  | frame datagram bytes src =>
    obtain rfl := Option.some.inj hs
    exact h.pump bytes src
  | recv t len =>
    obtain ⟨r, hr, rfl⟩ := Option.map_eq_some_iff.mp hs
    obtain ⟨-, q, -, rfl⟩ := recv_inv hr
    exact h.update t rfl rfl rfl
  | drain t now₁ now₂ =>
    obtain ⟨r, hr, rfl⟩ := Option.map_eq_some_iff.mp hs
    obtain ⟨ns, m, hrs⟩ := drain_nack_state_same hr
    exact h.update t (by rw [hrs]) (by rw [hrs]) (by rw [hrs])
  | send t ts =>
    obtain rfl := Option.some.inj hs
    exact h

/-- The states a party's bus can be in. -/
def Bus.Reached (C : Config) (B : Bus) : Prop := Runs (Bus.step C) (fun _ _ => True) {} B

theorem Bus.Reached.tidy (h : B.Reached C) : B.Tidy :=
  h.invariant
    (fun _ => ⟨.init, fun p hp => by cases hp⟩)
    fun _ _ _ hB _ hs => hB.step hs

/-- A frame from another address than that of `s` leaves the pipe with `s` alone exactly when it is
harmless. -/
theorem third_party_iff (C : Config) (h : B.Reached C) (s : ℕ) (datagram : Bytes) (src : ℕ) (hsrc : src ≠ C.ip_table_ s) :
    Undisturbed s B (B.pump C datagram src) ↔ B.Harmless C s datagram src := by
  obtain ⟨hsh, hset⟩ := h.tidy s
  have hsilent : NackReply.silent.target ≠ some s := fun h => by cases h
  unfold Bus.pump Bus.Harmless
  cases ht : pump_taken C datagram src with
  | none => exact ⟨fun _ buf hb => (by cases hb), fun _ => ⟨.refl _, rfl, hsilent⟩⟩
  | some buf =>
    have hone : ∀ Q : Bytes → Prop, (∀ b, some buf = some b → Q b) ↔ Q buf :=
      fun Q => ⟨fun h => h buf rfl, fun h b hb => Option.some.inj hb ▸ h⟩
    rw [hone]
    dsimp only
    unfold dispatch
    dsimp only
    by_cases hdata : field buf 0 4 = KIND_DATA
    · rw [if_pos hdata]
      have hnp : field buf 0 4 ≠ KIND_POISON := by rw [hdata]; decide
      have hiff : Undisturbed s B ({ B with rx_ := handle_data_ C B.rx_ buf }, .silent) ↔
          (B.rx_ s).Same (handle_data_ C B.rx_ buf s) :=
        ⟨fun h => h.rx, fun h => ⟨h, rfl, hsilent⟩⟩
      rw [hiff, handle_data_arrive]
      cases arrival_of C s buf with
      | none =>
        exact ⟨fun _ => ⟨fun _ a ha => (by cases ha), fun hp => absurd hp hnp⟩, fun _ => .refl _⟩
      | some a =>
        constructor
        · intro hsame
          refine ⟨fun _ a' ha' => ?_, fun hp => absurd hp hnp⟩
          rw [← Option.some.inj ha']
          exact ignores_of_same hsh hsame
        · intro hig
          exact (hig.1 hdata a rfl).same hsh hset
    · rw [if_neg hdata]
      by_cases hnack : field buf 0 4 = KIND_NACK
      · rw [if_pos hnack]
        have hnp : field buf 0 4 ≠ KIND_POISON := by rw [hnack]; decide
        obtain ⟨htx, hreply⟩ := handle_nack_other (C := C) B.tx_ buf hsrc
        exact ⟨fun _ => ⟨fun hd => absurd hd hdata, fun hp => absurd hp hnp⟩,
          fun _ => ⟨.refl _, htx, hreply⟩⟩
      · rw [if_neg hnack]
        by_cases hpoison : field buf 0 4 = KIND_POISON
        · rw [if_pos hpoison]
          have hiff : Undisturbed s B ({ B with rx_ := handle_poison_ C B.rx_ buf }, .silent) ↔
              (B.rx_ s).Same (handle_poison_ C B.rx_ buf s) :=
            ⟨fun h => h.rx, fun h => ⟨h, rfl, hsilent⟩⟩
          rw [hiff, poison_same_iff]
          exact ⟨fun h => ⟨fun hd => absurd hd hdata, fun _ => h⟩, fun h => h.2 hpoison⟩
        · rw [if_neg hpoison]
          exact ⟨fun _ => ⟨fun hd => absurd hd hdata, fun hp => absurd hp hpoison⟩,
            fun _ => ⟨.refl _, rfl, hsilent⟩⟩

theorem third_party_iff_nack :
    Undisturbed 0 {} (Bus.pump pipe01.T {} (send_nack_ pipe01.S 1 0 0 0) 77) ↔
      Bus.Harmless pipe01.T {} 0 (send_nack_ pipe01.S 1 0 0 0) 77 :=
  third_party_iff pipe01.T .start 0 (send_nack_ pipe01.S 1 0 0 0) 77 (by decide)

/-- A POISON frame in the name of party 0, from an address that is not its own. -/
theorem third_party_poisons :
    (77 : ℕ) ≠ pipe01.T.ip_table_ 0 ∧
      ¬ Undisturbed 0 {} (Bus.pump pipe01.T {} (header KIND_POISON 0 1 0 0 0 0) 77) := by
  refine ⟨by decide, fun h => ?_⟩
  have hrx := h.rx.poisoned
  cases hrx

end Runs

end QSync.Io
