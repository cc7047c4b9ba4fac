import QSync.Io.ClusterPipes

/-! # The start barrier

`BcastBus::sync` (`bcast_bus.cpp`): a party broadcasts SYNC frames until it has taken one of every other
party, at most 1200 times, and then four more. All parties share one medium that loses, repeats and
reorders datagrams and carries other traffic. A party that has left the loop has heard of every other
party, which has then entered `sync` at least once, or has used up its attempts (`sync_barrier`).
-/

namespace QSync.Io
open QSync.Network
set_option autoImplicit false
set_option maxHeartbeats 250000

/-! ## SYNC frames -/

def SYNC_MAGIC : ℕ := 0xBEEFCAFE

/-- `sync_buf` of party `self_id_`. -/
def sync_buf (self_id_ : ℕ) : Bytes := leBytes 4 SYNC_MAGIC ++ leBytes 1 self_id_

/-- `got_id`, when the datagram passes the checks. `got_buf` has 16 bytes: what is longer is cut. -/
def sync_id (datagram : Bytes) : Option ℕ :=
  let got_buf := datagram.take 16
  if got_buf.length ≠ 5 then none
  else if field got_buf 0 4 ≠ SYNC_MAGIC then none
  else some (field got_buf 4 1)

theorem sync_id_sync_buf (id : ℕ) : sync_id (sync_buf id) = some id := by
  simp [sync_id, sync_buf, field, leBytes, leNat, SYNC_MAGIC]

/-! ## One party -/

/-- Where a party is. -/
inductive SyncPhase
  /-- Not in `sync`. -/
  | idle
  /-- At the head of the loop over `attempt`. -/
  | head
  /-- In `recvfrom`. -/
  | listen
  | trailing (i : ℕ)
  | drain
  deriving DecidableEq

structure SyncStation where
  phase : SyncPhase := .idle
  attempt : ℕ := 0
  seen : List Bool := []
  got : ℕ := 0
  /-- How often `sync` has been entered. -/
  calls : ℕ := 0
  /-- The ids in the SYNC frames taken in the loop of this call. -/
  heard : List ℕ := []

/-- `sync` up to its loop. -/
def SyncStation.enter (nP_ self_id_ : ℕ) (σ : SyncStation) : SyncStation where
  phase := .head
  seen := (List.replicate nP_ false).set self_id_ true
  calls := σ.calls + 1

/-- One datagram in the loop. -/
def SyncStation.take (nP_ self_id_ : ℕ) (σ : SyncStation) (datagram : Bytes) : SyncStation :=
  match sync_id datagram with
  | none => σ
  | some got_id =>
    let σ := { σ with heard := got_id :: σ.heard }
    if got_id = self_id_ then σ
    else if got_id < nP_ ∧ σ.seen.getD got_id false = false then
      { σ with seen := σ.seen.set got_id true, got := σ.got + 1 }
    else σ

/-- The party has come out of the loop. -/
def SyncStation.Left (σ : SyncStation) : Prop :=
  1 ≤ σ.calls ∧ σ.phase ≠ .head ∧ σ.phase ≠ .listen

/-! ## All parties -/

structure SyncCluster (Q : Parties) where
  stations : Fin Q.nP → SyncStation := fun _ => {}
  air : List (Fin Q.nP × Bytes) := []

inductive SyncEvent
  | enter
  | head
  /-- `recvfrom` takes the `k`-th datagram. -/
  | take (k : ℕ)
  | timeout
  | trail
  /-- The party broadcasts something that is no SYNC frame; those of the bus are all longer. -/
  | other (buf : Bytes)

section SyncCluster
variable {Q : Parties}

def SyncCluster.put (W : SyncCluster Q) (p : Fin Q.nP) (σ : SyncStation) (bufs : List Bytes) :
    SyncCluster Q where
  stations := Function.update W.stations p σ
  air := W.air ++ bufs.map fun buf => (p, buf)

/-- One event at party `p`. -/
def SyncCluster.step (W : SyncCluster Q) (ev : Fin Q.nP × SyncEvent) : Option (SyncCluster Q) :=
  let p := ev.1
  let σ := W.stations p
  match ev.2, σ.phase with
  | .enter, .idle => some (W.put p (σ.enter Q.nP p) [])
  | .head, .head =>
    if σ.attempt < 1200 ∧ σ.got < Q.nP - 1 then
      some (W.put p { σ with phase := .listen } [sync_buf p])
    else some (W.put p { σ with phase := .trailing 0 } [])
  | .take k, .listen => W.air[k]?.map fun d => W.put p (σ.take Q.nP p d.2) []
  | .timeout, .listen => some (W.put p { σ with phase := .head, attempt := σ.attempt + 1 } [])
  | .trail, .trailing i =>
    if i < 4 then some (W.put p { σ with phase := .trailing (i + 1) } [sync_buf p])
    else some (W.put p { σ with phase := .drain } [])
  | .take k, .drain => W.air[k]?.map fun d =>
    if (d.2.take 16).length = 0 then W.put p { σ with phase := .idle } [] else W
  | .timeout, .drain => some (W.put p { σ with phase := .idle } [])
  | .other buf, _ => if sync_id buf = none then some (W.put p σ [buf]) else none
  | _, _ => none

def SyncCluster.Reached (W : SyncCluster Q) : Prop :=
  Runs SyncCluster.step (fun _ _ => True) {} W

end SyncCluster

/-! ## What a party knows -/

section Station
variable {n p : ℕ} {entered entered' : ℕ → Prop} {σ : SyncStation}

/-- `seen` are the party itself and those it has heard of, `got` counts them, and all it has heard of
have entered. -/
structure SyncStation.Knows (n p : ℕ) (entered : ℕ → Prop) (σ : SyncStation) : Prop where
  length : σ.seen.length = n
  seen : ∀ q < n, σ.seen.getD q false = true ↔ q = p ∨ q ∈ σ.heard
  got : σ.got + 1 = σ.seen.count true
  heard : ∀ q ∈ σ.heard, entered q

/-- Where the loop stands; it is left with everybody seen or after the last attempt. -/
structure SyncStation.Placed (n : ℕ) (σ : SyncStation) : Prop where
  attempt_le : σ.attempt ≤ 1200
  listening : σ.phase = .listen → σ.attempt < 1200
  trailing : ∀ i, σ.phase = .trailing i → i ≤ 4
  called : σ.phase ≠ .idle → 1 ≤ σ.calls
  left : σ.Left → n - 1 ≤ σ.got ∨ σ.attempt = 1200

theorem SyncStation.Knows.mono (h : σ.Knows n p entered) (hle : ∀ q, entered q → entered' q) :
    σ.Knows n p entered' :=
  ⟨h.length, h.seen, h.got, fun q hq => hle q (h.heard q hq)⟩

theorem getD_replicate_set {p q : ℕ} (hp : p < n) (hq : q < n) :
    ((List.replicate n false).set p true).getD q false = true ↔ q = p := by
  rw [List.getD_eq_getElem?_getD, List.getElem?_set]
  by_cases hpq : p = q
  · subst hpq
    simp [hp]
  · simp [hpq, Ne.symm hpq, hq]

theorem SyncStation.knows_enter (hp : p < n) (σ : SyncStation) : (σ.enter n p).Knows n p entered := by
  refine ⟨?_, fun q hq => ?_, ?_, fun q hq => nomatch hq⟩
  · exact (List.length_set ..).trans List.length_replicate
  · refine (getD_replicate_set hp hq).trans ⟨.inl, ?_⟩
    rintro (h | h)
    · exact h
    · cases h
  · have hlt : p < (List.replicate n false).length := by rwa [List.length_replicate]
    change 0 + 1 = ((List.replicate n false).set p true).count true
    rw [List.count_set hlt]
    simp [List.count_replicate]

/-- One datagram: an id that is new is counted once. -/
theorem SyncStation.Knows.take (h : σ.Knows n p entered) {datagram : Bytes}
    (hid : ∀ id, sync_id datagram = some id → entered id) : (σ.take n p datagram).Knows n p entered := by
  unfold SyncStation.take
  cases hd : sync_id datagram with
  | none => exact h
  | some got_id =>
    have hheard : ∀ q ∈ got_id :: σ.heard, entered q := by
      intro q hq
      obtain rfl | hq := List.mem_cons.mp hq
      · exact hid q hd
      · exact h.heard q hq
    dsimp only
    by_cases hself : got_id = p
    · rw [if_pos hself]
      refine ⟨h.length, fun q hq => (h.seen q hq).trans ?_, h.got, hheard⟩
      rw [List.mem_cons, hself]
      tauto
    · rw [if_neg hself]
      split
      · next hnew =>
        obtain ⟨hlt, hnew⟩ := hnew
        have hlt' : got_id < σ.seen.length := h.length ▸ hlt
        refine ⟨(List.length_set ..).trans h.length, fun q hq => ?_, ?_, hheard⟩
        · change (σ.seen.set got_id true).getD q false = true ↔ _
          rw [List.getD_eq_getElem?_getD, List.getElem?_set, List.mem_cons]
          by_cases hq' : got_id = q
          · simp [hq', hq'.symm ▸ hlt']
          · rw [if_neg hq', ← List.getD_eq_getElem?_getD, h.seen q hq]
            simp [Ne.symm hq']
        · have hold : σ.seen[got_id] = false := by
            rw [List.getD_eq_getElem?_getD, List.getElem?_eq_getElem hlt'] at hnew
            exact hnew
          change σ.got + 1 + 1 = (σ.seen.set got_id true).count true
          rw [List.count_set hlt', hold, ← h.got]
          rfl
      · next hold =>
        refine ⟨h.length, fun q hq => ?_, h.got, hheard⟩
        rw [h.seen q hq, List.mem_cons]
        refine ⟨fun hq' => hq'.imp_right .inr, fun hq' => ?_⟩
        obtain rfl | rfl | hq' := hq'
        · exact .inl rfl
        · have htrue : σ.seen.getD q false = true := by
            by_contra hne
            exact hold ⟨hq, Bool.not_eq_true _ ▸ hne⟩
          exact (h.seen q hq).mp htrue
        · exact .inr hq'

/-- With `n - 1` counted, everybody has been heard of. -/
theorem SyncStation.Knows.all_heard (h : σ.Knows n p entered) :
    n - 1 ≤ σ.got ↔ ∀ q < n, q ≠ p → q ∈ σ.heard := by
  have hall : n - 1 ≤ σ.got ↔ σ.seen.count true = σ.seen.length := by
    have hle : σ.seen.count true ≤ σ.seen.length := List.count_le_length
    have hgot := h.got
    rw [h.length] at hle ⊢
    omega
  rw [hall, List.count_eq_length]
  constructor
  · intro htrue q hq hne
    have hlt : q < σ.seen.length := h.length ▸ hq
    have hq' : σ.seen.getD q false = true := by
      rw [List.getD_eq_getElem?_getD, List.getElem?_eq_getElem hlt]
      exact (htrue _ (List.getElem_mem hlt)).symm
    exact ((h.seen q hq).mp hq').resolve_left hne
  · intro hheard b hb
    obtain ⟨q, hlt, rfl⟩ := List.mem_iff_getElem.mp hb
    have hq : q < n := h.length ▸ hlt
    have hseen : σ.seen.getD q false = true := by
      refine (h.seen q hq).mpr ?_
      by_cases hqp : q = p
      · exact .inl hqp
      · exact .inr (hheard q hq hqp)
    rw [List.getD_eq_getElem?_getD, List.getElem?_eq_getElem hlt] at hseen
    exact hseen.symm

/-- The SYNC frames that the call under way may still broadcast. -/
def SyncStation.remaining (σ : SyncStation) : ℕ :=
  match σ.phase with
  | .idle | .drain => 0
  | .head => 1204 - σ.attempt
  | .listen => 1203 - σ.attempt
  | .trailing i => 4 - i

end Station

/-! ## Runs -/

section Run
variable {Q : Parties} {W W' : SyncCluster Q} {p : Fin Q.nP}

/-- Party `q` has entered `sync` at least once. -/
def SyncCluster.Entered (W : SyncCluster Q) (q : ℕ) : Prop :=
  ∃ t : Fin Q.nP, q = t ∧ 1 ≤ (W.stations t).calls

/-- The SYNC frames that party `p` has broadcast. -/
def SyncCluster.syncs (W : SyncCluster Q) (p : Fin Q.nP) : ℕ :=
  W.air.countP fun d => d.1 = p ∧ (sync_id d.2).isSome

structure SyncCluster.Sound (W : SyncCluster Q) : Prop where
  air : ∀ d ∈ W.air, ∀ id, sync_id d.2 = some id → id = d.1 ∧ W.Entered id
  knows : ∀ p : Fin Q.nP, 1 ≤ (W.stations p).calls → (W.stations p).Knows Q.nP p W.Entered
  placed : ∀ p, (W.stations p).Placed Q.nP
  budget : ∀ p, W.syncs p + (W.stations p).remaining ≤ 1204 * (W.stations p).calls

theorem SyncCluster.Entered.put {q : ℕ} (h : W.Entered q) {σ : SyncStation} {bufs : List Bytes}
    (hcalls : (W.stations p).calls ≤ σ.calls) : (W.put p σ bufs).Entered q := by
  obtain ⟨t, rfl, ht⟩ := h
  refine ⟨t, rfl, ?_⟩
  dsimp only [SyncCluster.put]
  by_cases htp : t = p
  · subst htp
    rw [Function.update_self]
    omega
  · rwa [Function.update_of_ne htp]

theorem SyncCluster.syncs_put (W : SyncCluster Q) (p q : Fin Q.nP) (σ : SyncStation)
    (bufs : List Bytes) : (W.put p σ bufs).syncs q =
      W.syncs q + if p = q then bufs.countP fun buf => (sync_id buf).isSome else 0 := by
  dsimp only [SyncCluster.syncs, SyncCluster.put]
  rw [List.countP_append, List.countP_map]
  congr 1
  by_cases hpq : p = q
  · rw [if_pos hpq]
    exact List.countP_congr fun buf _ => by simp [hpq]
  · rw [if_neg hpq, List.countP_eq_zero]
    simp [hpq]

/-- A party moves on, having called no less often, and broadcasts frames of its own. -/
theorem SyncCluster.Sound.put (h : W.Sound) {σ : SyncStation} {bufs : List Bytes}
    (hcalls : (W.stations p).calls ≤ σ.calls) (hknows : 1 ≤ σ.calls → σ.Knows Q.nP p W.Entered)
    (hplaced : σ.Placed Q.nP)
    (hown : ∀ buf ∈ bufs, ∀ id, sync_id buf = some id → id = p ∧ 1 ≤ σ.calls)
    (hbudget : W.syncs p + (bufs.countP fun buf => (sync_id buf).isSome) + σ.remaining ≤
      1204 * σ.calls) : (W.put p σ bufs).Sound := by
  have hmono : ∀ q, W.Entered q → (W.put p σ bufs).Entered q := fun q hq => hq.put hcalls
  refine ⟨fun d hd id hid => ?_, fun q hq => ?_, fun q => ?_, fun q => ?_⟩
  · obtain hd | hd := List.mem_append.mp hd
    · obtain ⟨hsender, hentered⟩ := h.air d hd id hid
      exact ⟨hsender, hmono id hentered⟩
    · obtain ⟨buf, hbuf, rfl⟩ := List.mem_map.mp hd
      obtain ⟨rfl, hcalled⟩ := hown buf hbuf id hid
      refine ⟨rfl, p, rfl, ?_⟩
      dsimp only [SyncCluster.put]
      rwa [Function.update_self]
  · by_cases hqp : q = p
    · subst hqp
      simp only [SyncCluster.put, Function.update_self] at hq ⊢
      exact (hknows hq).mono hmono
    · simp only [SyncCluster.put, Function.update_of_ne hqp] at hq ⊢
      exact (h.knows q hq).mono hmono
  · by_cases hqp : q = p
    · subst hqp
      simp only [SyncCluster.put, Function.update_self]
      exact hplaced
    · simp only [SyncCluster.put, Function.update_of_ne hqp]
      exact h.placed q
  · rw [syncs_put]
    by_cases hqp : q = p
    · subst hqp
      simp only [SyncCluster.put, Function.update_self, if_true]
      exact hbudget
    · simp only [SyncCluster.put, Function.update_of_ne hqp, if_neg (Ne.symm hqp)]
      exact h.budget q

/-- A move inside `sync`, with or without a SYNC frame. -/
theorem SyncCluster.Sound.move (h : W.Sound) {phase : SyncPhase} {attempt : ℕ} {bufs : List Bytes}
    (hcalled : 1 ≤ (W.stations p).calls) (hbufs : bufs = [] ∨ bufs = [sync_buf p])
    (hplaced : SyncStation.Placed Q.nP { W.stations p with phase := phase, attempt := attempt })
    (hbudget : SyncStation.remaining { W.stations p with phase := phase, attempt := attempt } +
      bufs.length ≤ (W.stations p).remaining) :
    (W.put p { W.stations p with phase := phase, attempt := attempt } bufs).Sound := by
  have hown : ∀ buf ∈ bufs, sync_id buf = some (p : ℕ) := by
    intro buf hbuf
    obtain rfl | rfl := hbufs
    · cases hbuf
    · rw [List.mem_singleton.mp hbuf]
      exact sync_id_sync_buf p
  have hcount : bufs.countP (fun buf => (sync_id buf).isSome) ≤ bufs.length := List.countP_le_length
  have hknows := h.knows p hcalled
  refine h.put le_rfl (fun _ => ⟨hknows.length, hknows.seen, hknows.got, hknows.heard⟩) hplaced
    (fun buf hbuf id hid => ?_) ?_
  · exact ⟨(Option.some.inj ((hown buf hbuf).symm.trans hid)).symm, hcalled⟩
  · have hold := h.budget p
    change _ ≤ 1204 * (W.stations p).calls
    omega

theorem SyncCluster.Sound.head (h : W.Sound) (hphase : (W.stations p).phase = .head)
    (hs : W.step (p, .head) = some W') : W'.Sound := by
  have hplaced := h.placed p
  have hcalled := hplaced.called (by rw [hphase]; exact SyncPhase.noConfusion)
  have hremaining : (W.stations p).remaining = 1204 - (W.stations p).attempt := by
    rw [SyncStation.remaining, hphase]
  simp only [SyncCluster.step, hphase] at hs
  split at hs
  · next hmore =>
    obtain rfl := Option.some.inj hs
    refine h.move hcalled (.inr rfl) ⟨hplaced.attempt_le, fun _ => hmore.1, fun i hi => ?_,
      fun _ => hcalled, fun hleft => absurd rfl hleft.2.2⟩ ?_
    · cases hi
    · rw [hremaining]
      change 1203 - (W.stations p).attempt + 1 ≤ _
      omega
  · next hdone =>
    obtain rfl := Option.some.inj hs
    have hle := hplaced.attempt_le
    refine h.move hcalled (.inl rfl) ⟨hle, fun hl => ?_, fun i hi => ?_, fun _ => hcalled,
      fun _ => ?_⟩ ?_
    · cases hl
    · obtain rfl := SyncPhase.trailing.inj hi
      exact Nat.zero_le 4
    · dsimp only
      omega
    · rw [hremaining]
      change 4 - 0 + 0 ≤ _
      omega

theorem SyncCluster.Sound.take (h : W.Sound) {k : ℕ} (hphase : (W.stations p).phase = .listen)
    (hs : W.step (p, .take k) = some W') : W'.Sound := by
  have hplaced := h.placed p
  have hcalled := hplaced.called (by rw [hphase]; exact SyncPhase.noConfusion)
  simp only [SyncCluster.step, hphase] at hs
  obtain ⟨d, hd, rfl⟩ := Option.map_eq_some_iff.mp hs
  have hair := h.air d (List.mem_of_getElem? hd)
  have hknows := (h.knows p hcalled).take fun id hid => (hair id hid).2
  -- only `seen`, `got` and `heard` change
  have hsame : ((W.stations p).take Q.nP p d.2).phase = .listen ∧
      ((W.stations p).take Q.nP p d.2).attempt = (W.stations p).attempt ∧
      ((W.stations p).take Q.nP p d.2).calls = (W.stations p).calls := by
    unfold SyncStation.take
    split
    · exact ⟨hphase, rfl, rfl⟩
    · dsimp only
      split
      · exact ⟨hphase, rfl, rfl⟩
      · split <;> exact ⟨hphase, rfl, rfl⟩
  obtain ⟨hphase', hattempt, hcalls⟩ := hsame
  refine h.put hcalls.ge (fun _ => hknows) ⟨?_, fun _ => ?_, fun i hi => ?_, fun _ => ?_,
    fun hleft => absurd hphase' hleft.2.2⟩ (fun buf hbuf => nomatch hbuf) ?_
  · exact hattempt ▸ hplaced.attempt_le
  · exact hattempt ▸ hplaced.listening hphase
  · rw [hphase'] at hi
    cases hi
  · exact hcalls ▸ hcalled
  · have hold := h.budget p
    rw [SyncStation.remaining, hphase] at hold
    rw [SyncStation.remaining, hphase', hattempt, hcalls]
    exact hold

theorem SyncCluster.Sound.timeout (h : W.Sound) (hs : W.step (p, .timeout) = some W') : W'.Sound := by
  have hplaced := h.placed p
  cases hphase : (W.stations p).phase with
  | listen =>
    have hcalled := hplaced.called (by rw [hphase]; exact SyncPhase.noConfusion)
    have hlt := hplaced.listening hphase
    simp only [SyncCluster.step, hphase] at hs
    obtain rfl := Option.some.inj hs
    refine h.move hcalled (.inl rfl) ⟨Nat.succ_le_of_lt hlt, fun hl => ?_, fun i hi => ?_,
      fun _ => hcalled, fun hleft => absurd rfl hleft.2.1⟩ ?_
    · cases hl
    · cases hi
    · rw [SyncStation.remaining, SyncStation.remaining, hphase]
      change 1204 - ((W.stations p).attempt + 1) + 0 ≤ 1203 - (W.stations p).attempt
      omega
  | drain =>
    have hcalled := hplaced.called (by rw [hphase]; exact SyncPhase.noConfusion)
    simp only [SyncCluster.step, hphase] at hs
    obtain rfl := Option.some.inj hs
    refine h.move hcalled (.inl rfl) ⟨hplaced.attempt_le, fun hl => ?_, fun i hi => ?_,
      fun _ => hcalled, fun _ => ?_⟩ (Nat.zero_le _)
    · cases hl
    · cases hi
    · refine hplaced.left ⟨hcalled, ?_, ?_⟩ <;> rw [hphase] <;> exact SyncPhase.noConfusion
  | _ => simp [SyncCluster.step, hphase] at hs

theorem SyncCluster.Sound.trail (h : W.Sound) {i : ℕ} (hphase : (W.stations p).phase = .trailing i)
    (hs : W.step (p, .trail) = some W') : W'.Sound := by
  have hplaced := h.placed p
  have hcalled := hplaced.called (by rw [hphase]; exact SyncPhase.noConfusion)
  have hleft : Q.nP - 1 ≤ (W.stations p).got ∨ (W.stations p).attempt = 1200 := by
    refine hplaced.left ⟨hcalled, ?_, ?_⟩ <;> rw [hphase] <;> exact SyncPhase.noConfusion
  simp only [SyncCluster.step, hphase] at hs
  split at hs
  · next hi =>
    obtain rfl := Option.some.inj hs
    refine h.move hcalled (.inr rfl) ⟨hplaced.attempt_le, fun hl => ?_, fun j hj => ?_,
      fun _ => hcalled, fun _ => hleft⟩ ?_
    · cases hl
    · obtain rfl := SyncPhase.trailing.inj hj
      omega
    · rw [SyncStation.remaining, SyncStation.remaining, hphase]
      change 4 - (i + 1) + 1 ≤ 4 - i
      omega
  · obtain rfl := Option.some.inj hs
    refine h.move hcalled (.inl rfl) ⟨hplaced.attempt_le, fun hl => ?_, fun j hj => ?_,
      fun _ => hcalled, fun _ => hleft⟩ (Nat.zero_le _)
    · cases hl
    · cases hj

theorem SyncCluster.Sound.enter (h : W.Sound) : (W.put p ((W.stations p).enter Q.nP p) []).Sound := by
  refine h.put (Nat.le_succ _) (fun _ => SyncStation.knows_enter p.isLt _) ⟨Nat.zero_le _,
    (fun hl => nomatch hl), (fun i hi => nomatch hi), fun _ => Nat.le_add_left 1 _,
    fun hleft => absurd rfl hleft.2.1⟩ (fun buf hbuf => nomatch hbuf) ?_
  have hold := h.budget p
  change W.syncs p + 0 + (1204 - 0) ≤ 1204 * ((W.stations p).calls + 1)
  omega

theorem SyncCluster.Sound.other (h : W.Sound) {buf : Bytes} (hbuf : sync_id buf = none) :
    (W.put p (W.stations p) [buf]).Sound := by
  refine h.put le_rfl (h.knows p) (h.placed p) (fun b hb id hid => ?_) ?_
  · rw [List.mem_singleton.mp hb, hbuf] at hid
    cases hid
  · rw [List.countP_singleton, hbuf]
    exact h.budget p

theorem SyncCluster.Sound.step (h : W.Sound) {ev : SyncEvent} (hs : W.step (p, ev) = some W') :
    W'.Sound := by
  cases ev with
  | enter =>
    cases hphase : (W.stations p).phase with
    | idle =>
      simp only [SyncCluster.step, hphase] at hs
      obtain rfl := Option.some.inj hs
      exact h.enter
    | _ => simp [SyncCluster.step, hphase] at hs
  | head =>
    cases hphase : (W.stations p).phase with
    | head => exact h.head hphase hs
    | _ => simp [SyncCluster.step, hphase] at hs
  | take k =>
    cases hphase : (W.stations p).phase with
    | listen => exact h.take hphase hs
    | drain =>
      -- an empty datagram ends the draining as a timeout does
      have htimeout : W.step (p, .timeout) =
          some (W.put p { W.stations p with phase := .idle } []) := by
        simp only [SyncCluster.step, hphase]
      simp only [SyncCluster.step, hphase] at hs
      obtain ⟨d, -, rfl⟩ := Option.map_eq_some_iff.mp hs
      split
      · exact h.timeout htimeout
      · exact h
    | _ => simp [SyncCluster.step, hphase] at hs
  | timeout => exact h.timeout hs
  | trail =>
    cases hphase : (W.stations p).phase with
    | trailing i => exact h.trail hphase hs
    | _ => simp [SyncCluster.step, hphase] at hs
  | other buf =>
    cases hphase : (W.stations p).phase with
    | _ =>
      simp only [SyncCluster.step] at hs
      split at hs
      · next hbuf =>
        obtain rfl := Option.some.inj hs
        exact h.other hbuf
      · cases hs

theorem SyncCluster.Sound.start : ({} : SyncCluster Q).Sound := by
  refine ⟨(fun d hd => nomatch hd), fun p hp => absurd hp (Nat.not_succ_le_zero 0), fun p => ?_,
    fun p => le_rfl⟩
  exact ⟨Nat.zero_le _, (fun hl => nomatch hl), (fun i hi => nomatch hi), fun hne => absurd rfl hne,
    fun hleft => absurd hleft.1 (Nat.not_succ_le_zero 0)⟩

theorem SyncCluster.Reached.sound (h : W.Reached) : W.Sound :=
  Runs.invariant (I := SyncCluster.Sound) h .start fun _ _ _ hW _ hs => hW.step hs

end Run

/-- In every run a party that has come out of the loop of `sync` has heard of all others, and all have
then entered `sync` at least once, or it has made 1200 attempts without hearing of somebody. The SYNC
frames of a party are at most 1204 times its calls. -/
theorem sync_barrier (Q : Parties) (W : SyncCluster Q) (h : W.Reached) (p : Fin Q.nP) :
    ((W.stations p).Left →
      (∀ q : Fin Q.nP, 1 ≤ (W.stations q).calls ∧ (q ≠ p → (q : ℕ) ∈ (W.stations p).heard)) ∨
      ((W.stations p).attempt = 1200 ∧ ∃ q ≠ p, (q : ℕ) ∉ (W.stations p).heard)) ∧
    W.syncs p ≤ 1204 * (W.stations p).calls := by
  have hW := h.sound
  refine ⟨fun hleft => ?_, (Nat.le_add_right _ _).trans (hW.budget p)⟩
  have hknows := hW.knows p hleft.1
  by_cases hall : Q.nP - 1 ≤ (W.stations p).got
  · refine .inl fun q => ?_
    by_cases hqp : q = p
    · subst hqp
      exact ⟨hleft.1, fun hne => absurd rfl hne⟩
    · have hq : (q : ℕ) ∈ (W.stations p).heard :=
        hknows.all_heard.mp hall q q.isLt fun e => hqp (Fin.ext e)
      obtain ⟨t, ht, hcalled⟩ := hknows.heard q hq
      obtain rfl := Fin.ext ht
      exact ⟨hcalled, fun _ => hq⟩
  · refine .inr ⟨((hW.placed p).left hleft).resolve_left hall, ?_⟩
    by_contra hno
    push Not at hno
    refine hall (hknows.all_heard.mpr fun q hq hne => ?_)
    exact hno ⟨q, hq⟩ fun e => hne (congrArg Fin.val e)

/-- Party 0 goes through `sync` twice, with the same SYNC frame of party 1, which is still in its first
call. -/
def syncTwice : List (Fin parties2.nP × SyncEvent) :=
  let leave : List SyncEvent := [.timeout, .head, .trail, .trail, .trail, .trail, .trail, .timeout]
  [(0, .enter), (1, .enter), (0, .head), (1, .head), (0, .take 1), (0, .take 0)] ++
    leave.map (fun ev => (0, ev)) ++ [(0, .enter), (0, .head), (0, .take 1)] ++
    leave.map fun ev => (0, ev)

/-- The calls are not told apart: heard of means entered once. -/
theorem sync_barrier_twice : ∃ W : SyncCluster parties2, W.Reached ∧ (W.stations 0).calls = 2 ∧
    (W.stations 1).calls = 1 ∧ (W.stations 0).Left ∧
    ((∀ q, 1 ≤ (W.stations q).calls ∧ (q ≠ 0 → (q : ℕ) ∈ (W.stations 0).heard)) ∨
      ((W.stations 0).attempt = 1200 ∧
        ∃ q : Fin parties2.nP, q ≠ 0 ∧ (q : ℕ) ∉ (W.stations 0).heard)) := by
  let W := (exec SyncCluster.step (fun _ _ => True) syncTwice {}).getD {}
  have hrun : exec SyncCluster.step (fun _ _ => True) syncTwice {} = some W := rfl
  have hleft : (W.stations 0).Left := ⟨by decide, by decide, by decide⟩
  have hreached : W.Reached := Runs.of_exec hrun
  exact ⟨W, hreached, by decide, by decide, hleft, (sync_barrier parties2 W hreached 0).1 hleft⟩

end QSync.Io
