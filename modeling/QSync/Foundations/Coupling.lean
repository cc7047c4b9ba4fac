import Mathlib.Order.Basic
import Mathlib.Tactic.Common

/-! # Two programs side by side

A leader and a follower run related programs. The leader writes logs that only grow; the follower
reads the final logs, so what the follower does is known only for leader runs whose logs end up
inside the final ones. `Coupling` collects the order on leader states, the relation of the two
states and the bound; `Coupled` relates two programs, and is closed under sequencing.
-/

namespace QSync
set_option autoImplicit false
set_option maxHeartbeats 250000

theorem StateM.bind_apply {σ α β : Type} (m : StateM σ α) (f : α → StateM σ β) (s : σ) :
    (m >>= f) s = f (m s).1 (m s).2 := rfl

theorem StateM.foldlM_apply {σ α β : Type} (f : β → α → StateM σ β) (xs : List α) (b : β) (s : σ) :
    (xs.foldlM f b) s = xs.foldl (fun p x => f p.1 x p.2) (b, s) := by
  induction xs generalizing b s with
  | nil => rfl
  | cons x xs ih =>
    rw [List.foldlM_cons, StateM.bind_apply, ih]
    rfl

/-- How a leader state `S` and a follower state `T` are compared. -/
structure Coupling (S T : Type) where
  le : S → S → Prop
  refl : ∀ s, le s s
  trans : ∀ {s s' s''}, le s s' → le s' s'' → le s s''
  rel : S → T → Prop
  /-- The leader's logs are inside the final ones. -/
  ok : S → Prop
  ok_of_le : ∀ {s s'}, le s s' → ok s' → ok s

namespace Coupling
variable {S T α β γ δ : Type} (C : Coupling S T)

/-- The leader's logs only grow. -/
def Grows (m : StateM S α) : Prop := ∀ s, C.le s (m s).2

/-- From related states, the two programs end in related states with results related by `post`. -/
def Sim (m : StateM S α) (m' : StateM T β) (post : α → β → Prop) : Prop :=
  ∀ s t, C.rel s t → C.ok (m s).2 → C.rel (m s).2 (m' t).2 ∧ post (m s).1 (m' t).1

/-- The two programs are coupled. -/
structure Coupled (m : StateM S α) (m' : StateM T β) (post : α → β → Prop) : Prop where
  grows : C.Grows m
  sim : C.Sim m m' post

variable {C}

theorem Grows.pure (a : α) : C.Grows (Pure.pure a : StateM S α) := fun s => C.refl s

theorem Grows.bind {m : StateM S α} {f : α → StateM S γ} (h : C.Grows m)
    (hf : ∀ a, C.Grows (f a)) : C.Grows (m >>= f) :=
  fun s => C.trans (h s) (hf (m s).1 (m s).2)

theorem Sim.pure {a : α} {b : β} {post : α → β → Prop} (h : post a b) :
    C.Sim (Pure.pure a) (Pure.pure b) post := fun _ _ hr _ => ⟨hr, h⟩

theorem Sim.weaken {m : StateM S α} {m' : StateM T β} {post post' : α → β → Prop}
    (h : C.Sim m m' post) (hp : ∀ a b, post a b → post' a b) : C.Sim m m' post' := by
  intro s t hr hok
  obtain ⟨hr', hab⟩ := h s t hr hok
  exact ⟨hr', hp _ _ hab⟩

/-- Sequencing, when the second program of the leader only grows its logs on results of the first. -/
theorem Sim.bind_of {m : StateM S α} {m' : StateM T β} {f : α → StateM S γ} {f' : β → StateM T δ}
    {post : α → β → Prop} {post' : γ → δ → Prop} (h : C.Sim m m' post)
    (hg : ∀ s, C.Grows (f (m s).1)) (hf : ∀ a b, post a b → C.Sim (f a) (f' b) post') :
    C.Sim (m >>= f) (m' >>= f') post' := by
  intro s t hr hok
  have hok1 : C.ok (m s).2 := C.ok_of_le (hg s (m s).2) hok
  obtain ⟨hr1, hp1⟩ := h s t hr hok1
  exact hf _ _ hp1 _ _ hr1 hok

theorem Sim.bind {m : StateM S α} {m' : StateM T β} {f : α → StateM S γ} {f' : β → StateM T δ}
    {post : α → β → Prop} {post' : γ → δ → Prop} (h : C.Sim m m' post)
    (hg : ∀ a, C.Grows (f a)) (hf : ∀ a b, post a b → C.Sim (f a) (f' b) post') :
    C.Sim (m >>= f) (m' >>= f') post' :=
  h.bind_of (fun _ => hg _) hf

theorem Coupled.pure {a : α} {b : β} {post : α → β → Prop} (h : post a b) :
    C.Coupled (Pure.pure a) (Pure.pure b) post := ⟨.pure a, .pure h⟩

theorem Coupled.bind {m : StateM S α} {m' : StateM T β} {f : α → StateM S γ} {f' : β → StateM T δ}
    {post : α → β → Prop} {post' : γ → δ → Prop} (h : C.Coupled m m' post)
    (hg : ∀ a, C.Grows (f a)) (hf : ∀ a b, post a b → C.Sim (f a) (f' b) post') :
    C.Coupled (m >>= f) (m' >>= f') post' :=
  ⟨h.grows.bind hg, h.sim.bind hg hf⟩

theorem Coupled.weaken {m : StateM S α} {m' : StateM T β} {post post' : α → β → Prop}
    (h : C.Coupled m m' post) (hp : ∀ a b, post a b → post' a b) : C.Coupled m m' post' :=
  ⟨h.grows, h.sim.weaken hp⟩

theorem Grows.foldlM {ε : Type} (f : γ → ε → StateM S γ) (xs : List ε)
    (hg : ∀ c x, C.Grows (f c x)) (c : γ) : C.Grows (xs.foldlM f c) := by
  induction xs generalizing c with
  | nil => exact .pure c
  | cons x xs ih => exact (hg c x).bind ih

/-- Coupled loops over one list, with an invariant of the two accumulators that may depend on the
elements done. -/
theorem Coupled.foldlM {ε : Type} (f : γ → ε → StateM S γ) (f' : δ → ε → StateM T δ)
    (inv : List ε → γ → δ → Prop) (xs : List ε) (pre : List ε)
    (hg : ∀ c x, C.Grows (f c x))
    (hf : ∀ ys x zs c d, pre ++ xs = ys ++ x :: zs → inv ys c d →
      C.Sim (f c x) (f' d x) (inv (ys ++ [x])))
    {c : γ} {d : δ} (h : inv pre c d) :
    C.Coupled (xs.foldlM f c) (xs.foldlM f' d) (inv (pre ++ xs)) := by
  refine ⟨.foldlM f xs hg c, ?_⟩
  induction xs generalizing pre c d with
  | nil => simpa using Sim.pure h
  | cons x xs ih =>
    have hx := hf pre x xs c d rfl h
    refine hx.bind (.foldlM f xs hg) fun c' d' h' => ?_
    have := ih (pre ++ [x]) (fun ys y zs c d he => hf ys y zs c d (by simpa using he)) h'
    simpa using this

theorem Coupled.mapM {ε : Type} (f : ε → StateM S α) (f' : ε → StateM T β) (P : ε → α → β → Prop)
    (xs : List ε) (h : ∀ x ∈ xs, C.Coupled (f x) (f' x) (P x)) :
    C.Coupled (xs.mapM f) (xs.mapM f') fun as bs =>
      ∀ (k : ℕ) (x : ε), xs[k]? = some x → ∃ a b, as[k]? = some a ∧ bs[k]? = some b ∧ P x a b := by
  induction xs with
  | nil => exact .pure (by simp)
  | cons x xs ih =>
    have hx := h x List.mem_cons_self
    have ih' := ih fun y hy => h y (List.mem_cons_of_mem _ hy)
    simp only [List.mapM_cons]
    refine hx.bind (fun _ => ih'.grows.bind fun _ => .pure _) fun a b hab =>
      ih'.sim.bind (fun _ => .pure _) fun as bs has => .pure fun k y hk => ?_
    cases k with
    | zero =>
      obtain rfl : x = y := by simpa using hk
      exact ⟨a, b, rfl, rfl, hab⟩
    | succ k => exact has k y (by simpa using hk)

end Coupling

end QSync
