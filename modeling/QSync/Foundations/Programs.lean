import QSync.Foundations.Rounds

/-! # Programs among some peers

Whom a program talks to (`Proc.Calls`), whatever it receives, and what a program has returned before the
others are through (`Converges.returned`).
-/

namespace QSync.Network
set_option autoImplicit false
set_option maxHeartbeats 250000

/-! ## Peers -/

section Calls
variable {ι α β : Type} {ok ok' : ι → Prop}

/-- Whatever it receives, the program sends to and receives from parties in `ok` only. -/
def Proc.Calls (ok : ι → Prop) : Proc ι α → Prop
  | .done _ => True
  | .send dst _ next => ok dst ∧ next.Calls ok
  | .recv src _ next => ok src ∧ ∀ b, (next b).Calls ok
  | .stuck => True

theorem Proc.calls_pure (a : α) : (pure a : Proc ι α).Calls ok := trivial

theorem Proc.calls_sendTo {dst : ι} (msg : Bytes) (h : ok dst) : (Proc.sendTo dst msg).Calls ok :=
  ⟨h, trivial⟩

theorem Proc.calls_recvFrom {src : ι} (len : ℕ) (h : ok src) : (Proc.recvFrom src len).Calls ok :=
  ⟨h, fun _ => trivial⟩

theorem Proc.Calls.bind {p : Proc ι α} {f : α → Proc ι β} (hp : p.Calls ok)
    (hf : ∀ a, (f a).Calls ok) : (p >>= f).Calls ok := by
  induction p with
  | done a => exact hf a
  | send dst msg next ih => exact ⟨hp.1, ih hp.2⟩
  | recv src len next ih => exact ⟨hp.1, fun b => ih b (hp.2 b)⟩
  | stuck => exact trivial

theorem Proc.Calls.map {p : Proc ι α} (f : α → β) (hp : p.Calls ok) : (f <$> p).Calls ok := by
  rw [← bind_pure_comp]
  exact hp.bind fun a => Proc.calls_pure (f a)

theorem Proc.Calls.mono {p : Proc ι α} (hp : p.Calls ok) (h : ∀ i, ok i → ok' i) : p.Calls ok' := by
  induction p with
  | done a => exact trivial
  | send dst msg next ih => exact ⟨h dst hp.1, ih hp.2⟩
  | recv src len next ih => exact ⟨h src hp.1, fun b => ih b (hp.2 b)⟩
  | stuck => exact trivial

theorem Proc.Calls.forM {γ : Type} {f : γ → Proc ι Unit} {xs : List γ}
    (h : ∀ x ∈ xs, (f x).Calls ok) : (xs.forM f).Calls ok := by
  induction xs with
  | nil => exact trivial
  | cons x xs ih =>
    exact (h x List.mem_cons_self).bind fun _ => ih fun y hy => h y (List.mem_cons_of_mem x hy)

theorem Proc.Calls.mapM {γ : Type} {f : γ → Proc ι β} {xs : List γ}
    (h : ∀ x ∈ xs, (f x).Calls ok) : (xs.mapM f).Calls ok := by
  induction xs with
  | nil => exact trivial
  | cons x xs ih =>
    rw [List.mapM_cons]
    exact (h x List.mem_cons_self).bind fun b => (ih fun y hy => h y (List.mem_cons_of_mem x hy)).bind
      fun bs => Proc.calls_pure (b :: bs)

theorem Proc.Calls.foldlM {γ : Type} {f : α → γ → Proc ι α} {xs : List γ}
    (h : ∀ a, ∀ x ∈ xs, (f a x).Calls ok) (a : α) : (xs.foldlM f a).Calls ok := by
  induction xs generalizing a with
  | nil => exact trivial
  | cons x xs ih =>
    rw [List.foldlM_cons]
    exact (h a x List.mem_cons_self).bind fun b =>
      ih (fun a y hy => h a y (List.mem_cons_of_mem x hy)) b

/-- A round among `ps` is a talk with the others in `ps`. -/
theorem calls_exchange [DecidableEq ι] {ps : List ι} {i : ι} (out : ι → Bytes) (len : ι → ℕ) (own : β)
    (read : ι → Bytes → β) (h : ∀ j ∈ ps, j ≠ i → ok j) : (exchange ps i out len own read).Calls ok := by
  refine Proc.Calls.bind (.forM fun j hj => ?_) fun _ => .mapM fun j hj => ?_
  · by_cases hji : j = i
    · rw [if_pos hji]
      exact Proc.calls_pure ()
    · rw [if_neg hji]
      exact Proc.calls_sendTo _ (h j hj hji)
  · by_cases hji : j = i
    · rw [if_pos hji]
      exact Proc.calls_pure own
    · rw [if_neg hji]
      exact (Proc.calls_recvFrom _ (h j hj hji)).map _

end Calls

/-! ## Results -/

section Results
variable {ι α : Type} [DecidableEq ι] {A : Finset ι} {P : ι → Proc ι α} {r : ι → α}

theorem Step.done {c d : Net ι α} (h : Step c d) {i : ι} {a : α} (hi : c.procs i = .done a) :
    d.procs i = .done a := by
  obtain ⟨j, hj⟩ := h
  have hij : i ≠ j := by
    rintro rfl
    simp [Net.stepAt, hi] at hj
  obtain ⟨_, _, _, _, rfl⟩ | ⟨_, _, _, _, _, rfl⟩ := stepAt_cases hj
  · rw [afterSend_procs_ne hij, hi]
  · rw [afterRecv_procs_ne hij, hi]

theorem Reaches.done {c d : Net ι α} (h : Reaches c d) {i : ι} {a : α} (hi : c.procs i = .done a) :
    d.procs i = .done a := by
  obtain ⟨n, hn⟩ := h
  induction hn with
  | refl c => exact hi
  | head hs _ ih => exact ih (hs.done hi)

/-- From wherever a schedule has come, all parties can still return. -/
theorem Converges.continues (h : Converges A P r) {c : Net ι α} (hc : Reaches (start A P) c) :
    ∃ d, Reaches c d ∧ ∀ i ∈ A, Finished d i := by
  by_contra hno
  have hlong : ∀ m, ∃ d, StepN m c d := by
    intro m
    induction m with
    | zero => exact ⟨c, .refl c⟩
    | succ m ih =>
      obtain ⟨d, hd⟩ := ih
      obtain hf | ⟨e, he⟩ := h.progress d (hc.trans ⟨m, hd⟩)
      · exact absurd ⟨d, ⟨m, hd⟩, hf⟩ hno
      · exact ⟨e, hd.trans (.head he (.refl e))⟩
  obtain ⟨n, hn⟩ := h.bounded
  obtain ⟨k, hk⟩ := hc
  obtain ⟨d, hd⟩ := hlong (n + 1)
  have hle := hn _ d (hk.trans hd)
  omega

/-- A party that has returned has returned its result, however far the others are. -/
theorem Converges.returned (h : Converges A P r) {c : Net ι α} (hc : Reaches (start A P) c) {i : ι}
    (hi : i ∈ A) {a : α} (ha : c.procs i = .done a) : a = r i := by
  obtain ⟨d, hd, hf⟩ := h.continues hc
  exact Proc.done.inj ((hd.done ha).symm.trans (h.result d (hc.trans hd) hf i hi))

end Results

end QSync.Network
