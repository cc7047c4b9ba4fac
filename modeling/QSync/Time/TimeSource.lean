import QSync.Foundations.EventRuns
import QSync.Foundations.Seqlock

/-! # Reading the shared clock

`TimeSource::now_ns` against the one writer of the shared region, in any interleaving of their loads
and stores. A call returns an extrapolation of a published pair as long as one of its eight attempts
is undisturbed; after eight disturbed attempts it returns the local monotonic clock instead.
-/

namespace QSync.Time
set_option autoImplicit false
set_option maxHeartbeats 250000

/-- The fields of the region that `now_ns` reads. -/
structure TimeSrcShared where
  seq : BitVec 64
  epoch_ns : BitVec 64
  local_mono_ns : BitVec 64

/-- The writer by the documented protocol: between the two stores of `seq` it stores both fields of
the pair, in either order. -/
inductive Writer where
  | idle
  | updating (epoch mono : BitVec 64) (epochStored monoStored : Bool)
  deriving DecidableEq

/-- The next load of `now_ns`, with its locals; `i` is the loop variable. `returned` keeps what
`mono_raw_ns` gave the call. -/
inductive NowNs where
  | idle
  | loadSeq (i : ℕ)
  | loadEpoch (i : ℕ) (s1 : BitVec 64)
  | loadMono (i : ℕ) (s1 epoch : BitVec 64)
  | loadSeqAgain (i : ℕ) (s1 epoch mono : BitVec 64)
  | extrapolate (epoch mono : BitVec 64)
  | returnRaw
  | returned (now_mono value : BitVec 64)
  deriving DecidableEq

/-- The end of attempt `i` without a result. -/
def NowNs.retry (i : ℕ) : NowNs := if i + 1 < 8 then .loadSeq (i + 1) else .returnRaw

/-- The region, the writer and one reader. No step reads the history: the pairs published, and how
often `seq` was stored since the reader's last `loadSeq`. -/
structure Config where
  /-- `shm_ != nullptr`. -/
  mapped : Bool
  shm : TimeSrcShared
  writer : Writer
  reader : NowNs
  mono_raw_ns : BitVec 64
  published : List (BitVec 64 × BitVec 64)
  since : ℕ

inductive Event where
  | tick (ns : BitVec 64)
  | beginUpdate (epoch mono : BitVec 64)
  | storeEpoch
  | storeMono
  | endUpdate
  | call
  | load
  deriving DecidableEq

namespace Config

def storeSeq (c : Config) : Config :=
  { c with shm := { c.shm with seq := c.shm.seq + 1#64 }, since := c.since + 1 }

/-- One load of `now_ns` and what it does before the next. -/
def load (c : Config) : Option Config :=
  match c.reader with
  | .idle => none
  | .loadSeq i =>
    some { c with
      reader := if odd c.shm.seq then .retry i else .loadEpoch i c.shm.seq
      since := 0 }
  | .loadEpoch i s1 => some { c with reader := .loadMono i s1 c.shm.epoch_ns }
  | .loadMono i s1 epoch => some { c with reader := .loadSeqAgain i s1 epoch c.shm.local_mono_ns }
  | .loadSeqAgain i s1 epoch mono =>
    some { c with reader := if s1 = c.shm.seq then .extrapolate epoch mono else .retry i }
  | .extrapolate epoch mono =>
    some { c with reader := .returned c.mono_raw_ns (epoch + (c.mono_raw_ns - mono)) }
  | .returnRaw => some { c with reader := .returned c.mono_raw_ns c.mono_raw_ns }
  | .returned _ _ => none

def step (c : Config) : Event → Option Config
  | .tick ns => some { c with mono_raw_ns := c.mono_raw_ns + ns }
  | .beginUpdate epoch mono =>
    match c.writer with
    | .idle => some { c.storeSeq with writer := .updating epoch mono false false }
    | _ => none
  | .storeEpoch =>
    match c.writer with
    | .updating epoch mono _ b =>
      some { c with
        shm := { c.shm with epoch_ns := epoch }, writer := .updating epoch mono true b }
    | _ => none
  | .storeMono =>
    match c.writer with
    | .updating epoch mono b _ =>
      some { c with
        shm := { c.shm with local_mono_ns := mono }, writer := .updating epoch mono b true }
    | _ => none
  | .endUpdate =>
    match c.writer with
    | .updating epoch mono true true =>
      some { c.storeSeq with writer := .idle, published := c.published ++ [(epoch, mono)] }
    | _ => none
  | .call =>
    match c.reader with
    | .idle | .returned _ _ =>
      some { c with reader := if c.mapped then .loadSeq 0 else .returnRaw }
    | _ => none
  | .load => c.load

/-- A mapped region before the first call, with the pair that was published last if there is one. -/
structure Initial (c : Config) : Prop where
  mapped : c.mapped = true
  reader : c.reader = .idle
  writer : c.writer = .idle
  even : odd c.shm.seq = false
  published : c.published ≠ [] → (c.shm.epoch_ns, c.shm.local_mono_ns) ∈ c.published

/-- What a load asks of the writer: a pair is published before an even `seq` is loaded, no attempt sees
`seq` come round, and the last attempt, if a call needs it, falls between two updates. -/
def Quiet (c : Config) : NowNs → Prop
  | .loadSeq i => (c.writer = .idle → c.published ≠ []) ∧ (i = 7 → c.writer = .idle)
  | .loadSeqAgain i _ _ _ => c.since < 2 ^ 64 ∧ (i = 7 → c.since = 0)
  | _ => True

def Undisturbed (c : Config) (e : Event) : Prop := e = .load → c.Quiet c.reader

instance (c : Config) : ∀ r, Decidable (c.Quiet r)
  | .loadSeq i =>
    inferInstanceAs
      (Decidable ((c.writer = .idle → c.published ≠ []) ∧ (i = 7 → c.writer = .idle)))
  | .loadSeqAgain i _ _ _ => inferInstanceAs (Decidable (c.since < 2 ^ 64 ∧ (i = 7 → c.since = 0)))
  | .idle | .loadEpoch _ _ | .loadMono _ _ _ | .extrapolate _ _ | .returnRaw | .returned _ _ =>
    isTrue trivial

instance (c : Config) (e : Event) : Decidable (c.Undisturbed e) :=
  inferInstanceAs (Decidable (e = .load → c.Quiet c.reader))

end Config

/-- The value is a published pair carried forward to `now_mono`. -/
def Extrapolates (published : List (BitVec 64 × BitVec 64)) (now_mono value : BitVec 64) : Prop :=
  ∃ p ∈ published, value = p.1 + (now_mono - p.2)

/-! ## The region as a seqlock -/

section Invariant
variable {c c' : Config} {e : Event} {s s' : Seqlock 64 (BitVec 64 × BitVec 64)} {r : NowNs}

/-- The shared fields under `seq`. -/
def Config.region (c : Config) : Seqlock 64 (BitVec 64 × BitVec 64) where
  seq := c.shm.seq
  data := (c.shm.epoch_ns, c.shm.local_mono_ns)
  updating := decide (c.writer ≠ .idle)
  published := c.published
  since := c.since

/-- What the update in progress has stored so far. -/
def Config.Written (c : Config) : Prop :=
  ∀ epoch mono a b, c.writer = .updating epoch mono a b →
    (a = true → c.shm.epoch_ns = epoch) ∧ (b = true → c.shm.local_mono_ns = mono)

/-- What the locals of a call say of the region. -/
def NowNs.Sound (s : Seqlock 64 (BitVec 64 × BitVec 64)) : NowNs → Prop
  | .idle => True
  | .loadSeq i => i < 8
  | .loadEpoch i s1 => i < 8 ∧ s.Snapshot s1 fun _ => True
  | .loadMono i s1 epoch => i < 8 ∧ s.Snapshot s1 fun d => d.1 = epoch
  | .loadSeqAgain i s1 epoch mono => i < 8 ∧ s.Snapshot s1 fun d => d = (epoch, mono)
  | .extrapolate epoch mono => (epoch, mono) ∈ s.published
  | .returnRaw => False
  | .returned now_mono value => Extrapolates s.published now_mono value

structure Config.Coherent (c : Config) : Prop where
  mapped : c.mapped = true
  written : c.Written
  valid : c.region.Valid
  reader : c.reader.Sound c.region

theorem Extrapolates.mono {l l' : List (BitVec 64 × BitVec 64)} {now_mono value : BitVec 64}
    (hl : l ⊆ l') (h : Extrapolates l now_mono value) : Extrapolates l' now_mono value := by
  obtain ⟨p, hp, hvalue⟩ := h
  exact ⟨p, hl hp, hvalue⟩

theorem NowNs.Sound.writes (hv : s.Valid) (hs : Seqlock.Writes s s') (h : r.Sound s) :
    r.Sound s' := by
  cases r with
  | idle => trivial
  | loadSeq | returnRaw => exact h
  | loadEpoch | loadMono | loadSeqAgain => exact ⟨h.1, h.2.writes hv hs⟩
  | extrapolate => exact hs.published_subset h
  | returned => exact Extrapolates.mono hs.published_subset h

theorem NowNs.Sound.retry {i : ℕ} (hi : i < 8) (hlast : i ≠ 7) : (NowNs.retry i).Sound s := by
  have hnext : i + 1 < 8 := by omega
  rw [NowNs.retry, if_pos hnext]
  exact hnext

/-- The first load of an attempt; the last attempt does not meet an update. -/
theorem NowNs.Sound.loadSeq (hv : s.Valid) {i : ℕ} (hi : i < 8)
    (hp : s.updating = false → s.published ≠ []) (hlast : i = 7 → s.updating = false) :
    NowNs.Sound s.mark (if odd s.seq then .retry i else .loadEpoch i s.seq) := by
  rw [hv.parity]
  split
  · next hupdating => exact NowNs.Sound.retry hi fun h7 => by simp [hlast h7] at hupdating
  · next hquiet =>
    rw [Bool.not_eq_true] at hquiet
    exact ⟨hi, .start (hv.parity.trans hquiet) (hp hquiet)⟩

/-- The last load of an attempt; in the last attempt nothing has changed. -/
theorem NowNs.Sound.loadSeqAgain (hv : s.Valid) {i : ℕ} {s1 epoch mono : BitVec 64}
    (h : (NowNs.loadSeqAgain i s1 epoch mono).Sound s) (hlt : s.since < 2 ^ 64)
    (hlast : i = 7 → s.since = 0) :
    NowNs.Sound s (if s1 = s.seq then .extrapolate epoch mono else .retry i) := by
  obtain ⟨hi, hsnap⟩ := h
  split
  · next hsame =>
    obtain ⟨d, hd, rfl⟩ := hsnap.closes hv hsame hlt
    exact hd
  · next hchanged =>
    refine NowNs.Sound.retry hi fun h7 => hchanged (hsnap.eq_seq_iff.mpr ?_)
    rw [hlast h7, Nat.zero_mod]

theorem Config.region_updating {epoch mono : BitVec 64} {a b : Bool}
    (hu : c.writer = .updating epoch mono a b) : c.region.updating = true := by
  simp [Config.region, hu]

/-- The clock and the writer leave the reader where it is, and the writer keeps to the seqlock's
steps; the rest are the steps of a call. -/
theorem Config.step_cases (hw : c.Written) (h : c.step e = some c') :
    (c'.mapped = c.mapped ∧ c'.reader = c.reader ∧ c'.Written ∧
      (c'.region = c.region ∨ Seqlock.Writes c.region c'.region)) ∨
    (e = .call ∧ c' = { c with reader := if c.mapped then .loadSeq 0 else .returnRaw }) ∨
    (e = .load ∧ c.load = some c') := by
  cases e with
  | tick ns =>
    obtain rfl := Option.some.inj h
    exact .inl ⟨rfl, rfl, hw, .inl rfl⟩
  | beginUpdate epoch mono =>
    simp only [Config.step] at h
    split at h
    · next hidle =>
      obtain rfl := Option.some.inj h
      refine .inl ⟨rfl, rfl, ?_, .inr ?_⟩
      · rintro _ _ _ _ ⟨⟩
        exact ⟨nofun, nofun⟩
      · have hquiet : c.region.updating = false := by simp [Config.region, hidle]
        exact .enter c.region hquiet
    · cases h
  | storeEpoch =>
    simp only [Config.step] at h
    split at h
    · next epoch mono a b hu =>
      obtain rfl := Option.some.inj h
      refine .inl ⟨rfl, rfl, ?_, .inr ?_⟩
      · rintro _ _ _ _ ⟨⟩
        exact ⟨fun _ => rfl, (hw _ _ _ _ hu).2⟩
      · simpa [Config.region, hu] using
          Seqlock.Writes.store c.region (Config.region_updating hu) (epoch, c.shm.local_mono_ns)
    · cases h
  | storeMono =>
    simp only [Config.step] at h
    split at h
    · next epoch mono a b hu =>
      obtain rfl := Option.some.inj h
      refine .inl ⟨rfl, rfl, ?_, .inr ?_⟩
      · rintro _ _ _ _ ⟨⟩
        exact ⟨(hw _ _ _ _ hu).1, fun _ => rfl⟩
      · simpa [Config.region, hu] using
          Seqlock.Writes.store c.region (Config.region_updating hu) (c.shm.epoch_ns, mono)
    · cases h
  | endUpdate =>
    simp only [Config.step] at h
    split at h
    · next epoch mono hu =>
      -- both fields of the pair are stored, so what the region holds is what is published
      have hstored : (c.shm.epoch_ns, c.shm.local_mono_ns) = (epoch, mono) :=
        Prod.ext ((hw _ _ _ _ hu).1 rfl) ((hw _ _ _ _ hu).2 rfl)
      obtain rfl := Option.some.inj h
      refine .inl ⟨rfl, rfl, nofun, .inr ?_⟩
      simpa [Config.region, Config.storeSeq, hstored] using
        Seqlock.Writes.leave c.region (Config.region_updating hu)
    · cases h
  | call =>
    simp only [Config.step] at h
    split at h
    · exact .inr (.inl ⟨rfl, (Option.some.inj h).symm⟩)
    · exact .inr (.inl ⟨rfl, (Option.some.inj h).symm⟩)
    · cases h
  | load => exact .inr (.inr ⟨rfl, h⟩)

theorem Config.Coherent.load (h : c.Coherent) (hok : c.Quiet c.reader) (hl : c.load = some c') :
    c'.Coherent := by
  have hr := h.reader
  cases hreader : c.reader with
  | idle | returned =>
    simp only [Config.load, hreader] at hl
    cases hl
  | returnRaw => exact absurd hr (by simp [hreader, NowNs.Sound])
  | loadSeq i =>
    rw [hreader] at hr hok
    simp only [Config.load, hreader, Option.some.injEq] at hl
    subst hl
    have hidle : c.region.updating = false ↔ c.writer = .idle := by simp [Config.region]
    exact ⟨h.mapped, h.written, h.valid.mark,
      .loadSeq h.valid hr (hok.1 ∘ hidle.mp) (hidle.mpr ∘ hok.2)⟩
  | loadEpoch i s1 =>
    rw [hreader] at hr
    simp only [Config.load, hreader, Option.some.injEq] at hl
    subst hl
    exact ⟨h.mapped, h.written, h.valid, hr.1, hr.2.load Prod.fst fun _ _ he => he⟩
  | loadMono i s1 epoch =>
    rw [hreader] at hr
    simp only [Config.load, hreader, Option.some.injEq] at hl
    subst hl
    exact ⟨h.mapped, h.written, h.valid, hr.1,
      hr.2.load Prod.snd fun _ he hm => Prod.ext he hm⟩
  | loadSeqAgain i s1 epoch mono =>
    rw [hreader] at hr hok
    simp only [Config.load, hreader, Option.some.injEq] at hl
    subst hl
    exact ⟨h.mapped, h.written, h.valid, hr.loadSeqAgain h.valid hok.1 hok.2⟩
  | extrapolate epoch mono =>
    rw [hreader] at hr
    simp only [Config.load, hreader, Option.some.injEq] at hl
    subst hl
    exact ⟨h.mapped, h.written, h.valid, (epoch, mono), hr, rfl⟩

theorem Config.Coherent.step (h : c.Coherent) (hok : c.Undisturbed e) (hs : c.step e = some c') :
    c'.Coherent := by
  obtain ⟨hm, hr, hw, hregion⟩ | ⟨rfl, rfl⟩ | ⟨rfl, hl⟩ := Config.step_cases h.written hs
  · refine ⟨hm.trans h.mapped, hw, ?_, ?_⟩
    · obtain hregion | hregion := hregion
      · exact hregion ▸ h.valid
      · exact h.valid.writes (by decide) hregion
    · rw [hr]
      obtain hregion | hregion := hregion
      · exact hregion ▸ h.reader
      · exact h.reader.writes h.valid hregion
  · refine ⟨h.mapped, h.written, h.valid, ?_⟩
    change NowNs.Sound c.region (if c.mapped then _ else _)
    rw [h.mapped]
    exact Nat.zero_lt_succ 7
  · exact h.load (hok rfl) hl

theorem Config.Initial.coherent (h : c.Initial) : c.Coherent where
  mapped := h.mapped
  written epoch mono a b hw := by
    rw [h.writer] at hw
    cases hw
  valid := ⟨by rw [Config.region, h.even, h.writer]; rfl, fun _ => h.published⟩
  reader := by
    rw [h.reader]
    trivial

/-- In every run whose calls are undisturbed, a call returns a published pair carried forward to the
monotonic time it read. -/
theorem now_ns_extrapolates (h0 : c.Initial) (hrun : Runs Config.step Config.Undisturbed c c')
    {now_mono value : BitVec 64} (hret : c'.reader = .returned now_mono value) :
    Extrapolates c'.published now_mono value := by
  have h := hrun.invariant h0.coherent fun _ _ _ h hok hs => h.step hok hs
  have hr := h.reader
  rw [hret] at hr
  exact hr

/-- A mapped region whose first pair is 1000 ns ahead of the monotonic clock. -/
def Config.sample : Config where
  mapped := true
  shm := { seq := 0#64, epoch_ns := 1000#64, local_mono_ns := 0#64 }
  writer := .idle
  reader := .idle
  mono_raw_ns := 500#64
  published := [(1000#64, 0#64)]
  since := 0

theorem Config.sample_initial : Config.sample.Initial where
  mapped := rfl
  reader := rfl
  writer := rfl
  even := by decide
  published := by decide

/-- The first attempt meets an update, the second returns the new pair. -/
def Config.retried : List Event :=
  [.call, .beginUpdate 2000#64 500#64, .load, .storeMono, .storeEpoch, .endUpdate, .load, .load,
    .load, .load, .tick 7#64, .load]

theorem now_ns_extrapolates_retry :
    Extrapolates [(1000#64, 0#64), (2000#64, 500#64)] 507#64 2007#64 := by
  have hrun : exec Config.step Config.Undisturbed Config.retried Config.sample =
      some ((exec Config.step Config.Undisturbed Config.retried Config.sample).getD .sample) := rfl
  exact now_ns_extrapolates Config.sample_initial (Runs.of_exec hrun) rfl

/-! ## Disturbed calls -/

/-- The local clock is an extrapolation only under a pair that says the two time bases agree. -/
theorem extrapolates_raw_iff (l : List (BitVec 64 × BitVec 64)) (now_mono : BitVec 64) :
    Extrapolates l now_mono now_mono ↔ ∃ p ∈ l, p.1 = p.2 := by
  refine exists_congr fun p => and_congr_right fun _ => ?_
  rw [add_sub_left_comm, left_eq_add, sub_eq_zero]

/-- From attempt `i` on, loads of an odd `seq` use up the attempts. -/
theorem loads_stalled (hodd : odd c.shm.seq = true) {i n : ℕ} (hn : i + n = 7)
    (hr : c.reader = .loadSeq i) :
    Runs Config.step (fun _ _ => True) c { c with reader := .returnRaw, since := 0 } := by
  induction n generalizing c i with
  | zero =>
    have hlast : ¬ i + 1 < 8 := by omega
    refine .next .load .start trivial ?_
    simp [Config.step, Config.load, hr, hodd, NowNs.retry, hlast]
  | succ n ih =>
    have hmore : i + 1 < 8 := by omega
    refine Runs.trans (.next .load .start trivial ?_)
      (ih (c := { c with reader := .loadSeq (i + 1), since := 0 }) hodd (by omega) rfl)
    simp [Config.step, Config.load, hr, hodd, NowNs.retry, hmore]

/-- An update that lasts through a call makes it return the local clock. -/
theorem now_ns_stalled (hm : c.mapped = true) (hr : c.reader = .idle)
    (hodd : odd c.shm.seq = true) :
    Runs Config.step (fun _ _ => True) c
      { c with reader := .returned c.mono_raw_ns c.mono_raw_ns, since := 0 } := by
  have hcall : c.step .call = some { c with reader := .loadSeq 0 } := by
    simp [Config.step, hr, hm]
  have hloads := loads_stalled (c := { c with reader := .loadSeq 0 }) hodd (Nat.zero_add 7) rfl
  exact .next .load (Runs.trans (.next .call .start trivial hcall) hloads) trivial rfl

/-- The writer begins an update and stops there for the time of a call, which then returns 500, the
local clock, at the shared time 1500. -/
theorem now_ns_other_time_base :
    ¬ ∀ c c' : Config, c.Initial → Runs Config.step (fun _ _ => True) c c' →
      ∀ now_mono value, c'.reader = .returned now_mono value →
        Extrapolates c'.published now_mono value := by
  intro h
  have hbegin : Config.sample.step (.beginUpdate 2000#64 500#64) = some
      { Config.sample.storeSeq with writer := .updating 2000#64 500#64 false false } := rfl
  have hrun := Runs.trans (.next _ .start trivial hbegin)
    (now_ns_stalled (c := { Config.sample.storeSeq with
      writer := .updating 2000#64 500#64 false false }) rfl rfl (by decide))
  have hraw := (extrapolates_raw_iff _ _).mp (h _ _ Config.sample_initial hrun _ _ rfl)
  revert hraw
  decide

/-! ## A counter that comes round -/

/-- One whole update. -/
def Config.update (p : BitVec 64 × BitVec 64) (c : Config) : Config :=
  { c with
    shm := { seq := c.shm.seq + 1#64 + 1#64, epoch_ns := p.1, local_mono_ns := p.2 }
    published := c.published ++ [p]
    since := c.since + 1 + 1 }

theorem Config.update_runs (hw : c.writer = .idle) (p : BitVec 64 × BitVec 64) :
    Runs Config.step (fun _ _ => True) c (c.update p) := by
  have hexec : exec Config.step (fun _ _ => True)
      [.beginUpdate p.1 p.2, .storeEpoch, .storeMono, .endUpdate] c = some (c.update p) := by
    simp [exec, Config.step, hw, Config.storeSeq, Config.update]
  exact Runs.of_exec hexec

/-- What `n` updates in a row leave. -/
structure Config.Updated (p : BitVec 64 × BitVec 64) (n : ℕ) (c c' : Config) : Prop where
  runs : Runs Config.step (fun _ _ => True) c c'
  writer : c'.writer = .idle
  reader : c'.reader = c.reader
  clock : c'.mono_raw_ns = c.mono_raw_ns
  seq : c'.shm.seq = c.shm.seq + BitVec.ofNat 64 (2 * n)
  mono : 0 < n → c'.shm.local_mono_ns = p.2
  published : ∀ q ∈ c'.published, q ∈ c.published ∨ q = p

theorem Config.exists_updated (hw : c.writer = .idle) (p : BitVec 64 × BitVec 64) (n : ℕ) :
    ∃ c', Config.Updated p n c c' := by
  induction n with
  | zero => exact ⟨c, .start, hw, rfl, rfl, by simp, nofun, fun q hq => .inl hq⟩
  | succ n ih =>
    obtain ⟨d, hd⟩ := ih
    have hseq : (d.update p).shm.seq = c.shm.seq + BitVec.ofNat 64 (2 * (n + 1)) := by
      have htwo : 2 * (n + 1) = 2 * n + 1 + 1 := by omega
      simp only [Config.update, hd.seq, htwo, BitVec.ofNat_add, add_assoc]
    refine ⟨d.update p, hd.runs.trans (Config.update_runs hd.writer p), hd.writer, hd.reader,
      hd.clock, hseq, fun _ => rfl, fun q hq => ?_⟩
    obtain hq | hq := List.mem_append.mp hq
    · exact hd.published q hq
    · exact .inr (List.mem_singleton.mp hq)

/-- The bound in `Quiet` is sharp: `2 ^ 63` updates between the two halves of an attempt bring `seq`
back, and the call returns the epoch of one pair with the monotonic time of another. -/
theorem now_ns_torn (h0 : c.Initial) (p : BitVec 64 × BitVec 64) :
    ∃ c', Runs Config.step (fun _ _ => True) c c' ∧
      c'.reader = .returned c.mono_raw_ns (c.shm.epoch_ns + (c.mono_raw_ns - p.2)) ∧
      ∀ q ∈ c'.published, q ∈ c.published ∨ q = p := by
  -- the call has loaded `seq` and the epoch
  have hfirst : exec Config.step (fun _ _ => True) [.call, .load, .load] c = some
      { c with reader := .loadMono 0 c.shm.seq c.shm.epoch_ns, since := 0 } := by
    simp [exec, Config.step, Config.load, h0.reader, h0.mapped, h0.even]
  obtain ⟨d, hd⟩ := Config.exists_updated
    (c := { c with reader := .loadMono 0 c.shm.seq c.shm.epoch_ns, since := 0 }) h0.writer p (2 ^ 63)
  have hreader : d.reader = .loadMono 0 c.shm.seq c.shm.epoch_ns := hd.reader
  have hseq : d.shm.seq = c.shm.seq := by
    have hround : BitVec.ofNat 64 (2 * 2 ^ 63) = 0#64 := by decide
    simp only [hd.seq, hround, BitVec.add_zero]
  have hmono : d.shm.local_mono_ns = p.2 := hd.mono (by decide)
  have hclock : d.mono_raw_ns = c.mono_raw_ns := hd.clock
  have hlast : exec Config.step (fun _ _ => True) [.load, .load, .load] d = some
      { d with
        reader := .returned c.mono_raw_ns (c.shm.epoch_ns + (c.mono_raw_ns - p.2)) } := by
    simp [exec, Config.step, Config.load, hreader, hseq, hmono, hclock]
  exact ⟨_, ((Runs.of_exec hfirst).trans hd.runs).trans (Runs.of_exec hlast), rfl, hd.published⟩

end Invariant
end QSync.Time
