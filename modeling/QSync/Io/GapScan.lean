import QSync.Io.Arrivals
import QSync.Io.NackRecords

/-! # The gap scan as a loop

`compute_missing_locked_` runs over 32-bit stream numbers up to the largest one seen, and over the
fragments of a partial message with a 16-bit counter. The inner loop always ends. The outer one ends
unless the largest number there is was seen: `s <= max_seen_seq` then holds of every `s`.
-/

namespace QSync.Io
open QSync.Network
set_option autoImplicit false
set_option maxHeartbeats 250000

/-! ## The loops -/

/-- The loop over the fragments. `none`: out of rounds, or a read beyond the last fragment. -/
def scan_fragments (now s : ℕ) (part : Partial) :
    ℕ → ℕ → AList (fun _ : ℕ × ℕ => NackRec) → Option (AList (fun _ : ℕ × ℕ => NackRec))
  | 0, _, _ => none
  | fuel + 1, i, ns =>
    if i < part.frag_total then
      match part.frags[i]? with
      | none => none
      | some frag => scan_fragments now s part fuel ((i + 1) % 2 ^ 16)
          (if frag.isEmpty then note_missing now ns (s, i) else ns)
    else some ns

def scan_stream (now : ℕ) (pending : AList (fun _ : ℕ => Partial)) (inner s : ℕ)
    (ns : AList (fun _ : ℕ × ℕ => NackRec)) : Option (AList (fun _ : ℕ × ℕ => NackRec)) :=
  match pending.lookup s with
  | none => some (note_missing now ns (s, 0))
  | some part =>
    if part.frag_total = 0 then some ns else scan_fragments now s part inner 0 ns

def scan_from (now : ℕ) (rs : RxState) (inner : ℕ) :
    ℕ → ℕ → AList (fun _ : ℕ × ℕ => NackRec) →
      Option (List ℕ × AList (fun _ : ℕ × ℕ => NackRec))
  | 0, _, _ => none
  | fuel + 1, s, ns =>
    if s ≤ rs.max_seen_seq then
      (scan_stream now rs.pending inner s ns).bind fun ns =>
        (scan_from now rs inner fuel ((s + 1) % 2 ^ 32) ns).map fun r => (s :: r.1, r.2)
    else some ([], ns)

/-- `compute_missing_locked_` with bounds on the rounds of its two loops. -/
def compute_missing_rounds (now : ℕ) (rs : RxState) (inner fuel : ℕ) :
    Option (List ℕ × RxState) :=
  if !rs.any_seen then some ([], rs)
  else (scan_from now rs inner fuel rs.next_rx_seq rs.nack_state).map fun r =>
    (r.1, { rs with nack_state := r.2 })

/-- The streams from the one that is due to the latest one seen. -/
def RxState.open_streams (rs : RxState) : List ℕ :=
  if rs.any_seen then List.range' rs.next_rx_seq (rs.max_seen_seq + 1 - rs.next_rx_seq) else []

/-- The scan ends after a visit to each open stream, with the result of `compute_missing_locked_`. -/
def ScansOnce (now : ℕ) (rs : RxState) : Prop :=
  ∃ inner fuel rs', compute_missing_rounds now rs inner fuel = some (rs.open_streams, rs') ∧
    compute_missing_locked_ now rs = some rs'

/-! ## When they end -/

section Loops
variable {now s : ℕ} {rs : RxState} {part : Partial}

theorem scan_fragments_ends (hlen : part.frags.length = part.frag_total)
    (hsmall : part.frag_total < 2 ^ 16) (k : ℕ) {fuel i : ℕ} (hi : i + k = part.frag_total)
    (hfuel : k < fuel) (ns : AList (fun _ : ℕ × ℕ => NackRec)) :
    scan_fragments now s part fuel i ns =
      some ((((List.range' i k).filter fun j => (part.frags.getD j []).isEmpty).map
        fun j => (s, j)).foldl (note_missing now) ns) := by
  induction k generalizing fuel i ns with
  | zero =>
    obtain ⟨fuel, rfl⟩ := Nat.exists_eq_succ_of_ne_zero (by omega : fuel ≠ 0)
    unfold scan_fragments
    rw [if_neg (by omega)]
    rfl
  | succ k ih =>
    obtain ⟨fuel, rfl⟩ := Nat.exists_eq_succ_of_ne_zero (by omega : fuel ≠ 0)
    have hlt : i < part.frags.length := by omega
    have hget : part.frags.getD i [] = part.frags[i] := by
      rw [List.getD_eq_getElem?_getD, List.getElem?_eq_getElem hlt, Option.getD_some]
    unfold scan_fragments
    rw [if_pos (by omega), List.getElem?_eq_getElem hlt]
    dsimp only
    -- the counter does not wrap below the fragment count
    rw [Nat.mod_eq_of_lt (show i + 1 < 2 ^ 16 by omega), ih (by omega) (by omega),
      List.range'_succ, List.filter_cons, hget]
    split
    · rfl
    · rfl

theorem scan_stream_ends (h : rs.Shaped) (s : ℕ) (ns : AList (fun _ : ℕ × ℕ => NackRec)) :
    scan_stream now rs.pending (2 ^ 16) s ns =
      some ((missing_of rs.pending s).foldl (note_missing now) ns) := by
  unfold scan_stream missing_of
  cases hp : rs.pending.lookup s with
  | none => rfl
  | some part =>
    obtain ⟨hlen, hsmall⟩ := h.partials s part hp
    dsimp only
    split
    · next h0 =>
      rw [h0]
      rfl
    · rw [scan_fragments_ends hlen hsmall part.frag_total (Nat.zero_add _) hsmall,
        List.range_eq_range']

theorem scan_from_ends (h : rs.Shaped) (hmax : rs.max_seen_seq + 1 < 2 ^ 32) (k : ℕ)
    {fuel s : ℕ} (hs : k = rs.max_seen_seq + 1 - s) (hfuel : k < fuel)
    (ns : AList (fun _ : ℕ × ℕ => NackRec)) :
    scan_from now rs (2 ^ 16) fuel s ns =
      some (List.range' s k,
        ((List.range' s k).flatMap (missing_of rs.pending)).foldl (note_missing now) ns) := by
  induction k generalizing fuel s ns with
  | zero =>
    obtain ⟨fuel, rfl⟩ := Nat.exists_eq_succ_of_ne_zero (by omega : fuel ≠ 0)
    unfold scan_from
    rw [if_neg (by omega)]
    rfl
  | succ k ih =>
    obtain ⟨fuel, rfl⟩ := Nat.exists_eq_succ_of_ne_zero (by omega : fuel ≠ 0)
    unfold scan_from
    rw [if_pos (by omega), scan_stream_ends h, Option.bind_some,
      Nat.mod_eq_of_lt (show s + 1 < 2 ^ 32 by omega), ih (by omega) (by omega), Option.map_some,
      List.range'_succ, List.flatMap_cons, List.foldl_append]

theorem scan_from_never (hmax : rs.max_seen_seq + 1 = 2 ^ 32) (inner fuel : ℕ) {s : ℕ}
    (hs : s < 2 ^ 32) (ns : AList (fun _ : ℕ × ℕ => NackRec)) :
    scan_from now rs inner fuel s ns = none := by
  induction fuel generalizing s ns with
  | zero => rfl
  | succ fuel ih =>
    unfold scan_from
    rw [if_pos (by omega)]
    cases scan_stream now rs.pending inner s ns with
    | none => rfl
    | some ns' =>
      rw [Option.bind_some, ih (Nat.mod_lt _ (by decide))]
      rfl

theorem scansOnce_iff (h : rs.Shaped) :
    ScansOnce now rs ↔ (rs.any_seen = true → rs.max_seen_seq ≠ 2 ^ 32 - 1) := by
  have hmax := h.max
  unfold ScansOnce compute_missing_rounds RxState.open_streams compute_missing_locked_
  cases hany : rs.any_seen with
  | false => exact ⟨fun _ hf => (by cases hf), fun _ => ⟨0, 0, rs, rfl, rfl⟩⟩
  | true =>
    simp only [Bool.not_true, Bool.false_eq_true, if_false, if_true, forall_const]
    constructor
    · rintro ⟨inner, fuel, rs', hrun, -⟩ heq
      rw [scan_from_never (by omega) inner fuel h.next] at hrun
      cases hrun
    · intro hne
      have hlt : rs.max_seen_seq + 1 < 2 ^ 32 := by omega
      refine ⟨2 ^ 16, rs.max_seen_seq + 1 - rs.next_rx_seq + 1, _, ?_, if_neg (by omega)⟩
      rw [scan_from_ends h hlt _ rfl (Nat.lt_succ_self _)]
      rfl

end Loops

/-! ## Which frames leave a scan that ends -/

section Frames
variable {C : Config} {s : ℕ}

theorem max_seen_iff {as : List Arrival} (h : ∀ a ∈ as, a.seq < 2 ^ 32 ∧ a.total < 2 ^ 16) :
    ((as.foldl RxState.arrive {}).any_seen = true ∧
      (as.foldl RxState.arrive {}).max_seen_seq = 2 ^ 32 - 1) ↔ ∃ a ∈ as, a.seq = 2 ^ 32 - 1 := by
  induction as using List.reverseRecOn with
  | nil => simp
  | append_singleton as a ih =>
    have hold : ∀ b ∈ as, b.seq < 2 ^ 32 ∧ b.total < 2 ^ 16 :=
      fun b hb => h b (List.mem_append_left _ hb)
    have ih := ih hold
    have hbound := (RxState.Shaped.init.arrives hold).max
    have ha := (h a (by simp)).1
    have hsplit : (∃ b ∈ as ++ [a], b.seq = 2 ^ 32 - 1) ↔
        (∃ b ∈ as, b.seq = 2 ^ 32 - 1) ∨ a.seq = 2 ^ 32 - 1 := by simp [or_and_right, exists_or]
    rw [List.foldl_append, hsplit, ← ih]
    generalize as.foldl RxState.arrive {} = rs at hbound
    obtain ⟨-, hmax, hany, -⟩ := accept_marks rs a.seq a.idx a.total a.payload
    show (rs.accept a.seq a.idx a.total a.payload).any_seen = true ∧
      (rs.accept a.seq a.idx a.total a.payload).max_seen_seq = 2 ^ 32 - 1 ↔ _
    rw [hany, hmax]
    unfold RxState.note_arrival
    dsimp only
    cases rs.any_seen with
    | false => simp
    | true =>
      simp only [Bool.not_true, Bool.false_or, decide_eq_true_eq, true_and]
      split <;> omega

/-- After any frames the scan visits each open stream once and ends, unless a frame of the sender's
carried the largest stream number there is; then it never ends. -/
theorem gap_scan_iff (C : Config) (s now : ℕ) (frames : List Bytes)
    (hbytes : ∀ buf ∈ frames, IsBytes buf) :
    ScansOnce now ((frames.foldl (handle_data_ C) fun _ => {}) s) ↔
      ∀ a ∈ arrivals C s frames, a.seq ≠ 2 ^ 32 - 1 := by
  have hlt : ∀ a ∈ arrivals C s frames, a.seq < 2 ^ 32 ∧ a.total < 2 ^ 16 := by
    intro a ha
    obtain ⟨hseq, -, htot⟩ := arrivals_lt hbytes ha
    exact ⟨hseq, htot⟩
  have hseen := max_seen_iff hlt
  rw [scansOnce_iff (shaped_of_frames C s hbytes), foldl_handle_data]
  constructor
  · intro h a ha heq
    obtain ⟨hany, hmax⟩ := hseen.mpr ⟨a, ha, heq⟩
    exact h hany hmax
  · intro h hany hmax
    obtain ⟨a, ha, heq⟩ := hseen.mp ⟨hany, hmax⟩
    exact h a ha heq

/-- Stream 1 is there in part, stream 0 is missing, and stream 3 came before them. -/
theorem gap_scan_holes :
    let frames := [pipe01.frame 3 [1, 2, 3] 0, header KIND_DATA 0 1 1 1 3 1 ++ [9]]
    ScansOnce 0 ((frames.foldl (handle_data_ pipe01.T) fun _ => {}) 0) ↔
      ∀ a ∈ arrivals pipe01.T 0 frames, a.seq ≠ 2 ^ 32 - 1 :=
  gap_scan_iff pipe01.T 0 0 _ (by decide)

/-- One frame with the largest stream number, 23 bytes long. -/
theorem gap_scan_never : ¬ ScansOnce 0
    (([pipe01.frame (2 ^ 32 - 1) [1, 2, 3] 0].foldl (handle_data_ pipe01.T) fun _ => {}) 0) := by
  have hrs : ([pipe01.frame (2 ^ 32 - 1) [1, 2, 3] 0].foldl (handle_data_ pipe01.T)
      fun _ => {}) 0 = (({} : RxState).accept (2 ^ 32 - 1) 0 1 [1, 2, 3]) := by
    rw [List.foldl_cons, List.foldl_nil, pipe01.handle_data_frame]
    rfl
  obtain ⟨-, hmax, hany, -⟩ := accept_marks {} (2 ^ 32 - 1) 0 1 [1, 2, 3]
  rintro ⟨inner, fuel, rs', hrun, -⟩
  unfold compute_missing_rounds at hrun
  rw [hrs, hany, Bool.not_true, if_neg Bool.false_ne_true,
    scan_from_never (by rw [hmax]; rfl) inner fuel (by decide)] at hrun
  cases hrun

end Frames

end QSync.Io
