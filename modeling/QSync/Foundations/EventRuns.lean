import Mathlib.Tactic.Common

/-! # Runs of an event system

A system takes one event after the other; an event may be impossible in a state (`none`). `Runs step
ok a b`: some run leads from `a` to `b`, each of its events possible and within the guard `ok` in
the state it happens in. `Runs.invariant` is the induction rule; `exec` runs a given list of events.
-/

namespace QSync
set_option autoImplicit false
set_option maxHeartbeats 250000

section EventRuns
variable {σ ε : Type} {step : σ → ε → Option σ} {ok ok' : σ → ε → Prop} {a b c : σ}

/-- `b` is reached from `a` by events within the guard. -/
inductive Runs (step : σ → ε → Option σ) (ok : σ → ε → Prop) (a : σ) : σ → Prop
  | start : Runs step ok a a
  | next {b c : σ} (e : ε) : Runs step ok a b → ok b e → step b e = some c → Runs step ok a c

/-- What holds at the start and is kept by every step within the guard holds of every state reached. -/
theorem Runs.invariant {I : σ → Prop} (h : Runs step ok a b) (h0 : I a)
    (hstep : ∀ s e s', I s → ok s e → step s e = some s' → I s') : I b := by
  induction h with
  | start => exact h0
  | next e _ hok hs ih => exact hstep _ e _ ih hok hs

theorem Runs.mono (h : Runs step ok a b) (hle : ∀ s e, ok s e → ok' s e) : Runs step ok' a b := by
  induction h with
  | start => exact .start
  | next e _ hok hs ih => exact .next e ih (hle _ _ hok) hs

theorem Runs.trans (h₁ : Runs step ok a b) (h₂ : Runs step ok b c) : Runs step ok a c := by
  induction h₂ with
  | start => exact h₁
  | next e _ hok hs ih => exact .next e ih hok hs

variable (step ok) in
/-- The given events in order; `none` when one is impossible or outside the guard. -/
def exec [∀ s e, Decidable (ok s e)] : List ε → σ → Option σ
  | [], s => some s
  | e :: es, s => if ok s e then (step s e).bind (exec es) else none

theorem Runs.of_exec [∀ s e, Decidable (ok s e)] {es : List ε}
    (h : exec step ok es a = some b) : Runs step ok a b := by
  induction es generalizing a with
  | nil =>
    obtain rfl : a = b := Option.some.inj h
    exact .start
  | cons e es ih =>
    unfold exec at h
    split at h
    · next hok =>
      obtain ⟨s, hs, hb⟩ := Option.bind_eq_some_iff.mp h
      exact Runs.trans (.next e .start hok hs) (ih hb)
    · cases h

/-- A list of events that can happen leads to what it evaluates to. -/
theorem Runs.exec_getD [∀ s e, Decidable (ok s e)] (es : List ε)
    (h : (exec step ok es a).isSome = true) : Runs step ok a ((exec step ok es a).getD a) := by
  obtain ⟨b, hb⟩ := Option.isSome_iff_exists.mp h
  rw [hb]
  exact .of_exec hb

end EventRuns
end QSync
