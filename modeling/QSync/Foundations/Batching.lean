import Mathlib.Algebra.BigOperators.Group.List.Basic
import Mathlib.Algebra.GroupWithZero.Nat
import Mathlib.Data.List.Basic
import Mathlib.Logic.Function.Basic
import Mathlib.Tactic.Common

/-! # Values sorted by kind, concatenated, and read back

Jobs of several kinds each contribute one value. The values of each kind are collected in job order
(`batch`), the batches of the kinds `ts` are concatenated (`concat`) and later cut apart again
(`split`); a second walk over the jobs then finds the value of each job with one counter a kind
(`foldl_counters`, `getD_batch`).
-/

namespace QSync.Batching
set_option autoImplicit false
set_option maxHeartbeats 250000

variable {κ J α S : Type} [DecidableEq κ]

def batch (kind : J → κ) (jobs : List J) (f : J → α) (t : κ) : List α :=
  (jobs.filter fun j => kind j = t).map f

/-- The batches of the kinds `ts`, one after the other. -/
def concat (ts : List κ) (bs : κ → List α) : List α := ts.flatMap bs

/-- Cut batches of the lengths `num` out of their concatenation. -/
def split (num : κ → ℕ) : List κ → List α → κ → List α
  | [], _, _ => []
  | t :: ts, vs, t' => if t' = t then vs.take (num t) else split num ts (vs.drop (num t)) t'

omit [DecidableEq κ] in
theorem length_concat {ts : List κ} {bs : κ → List α} {num : κ → ℕ}
    (hlen : ∀ t ∈ ts, (bs t).length = num t) : (concat ts bs).length = (ts.map num).sum := by
  rw [concat, List.length_flatMap]
  exact congrArg List.sum (List.map_congr_left hlen)

theorem split_concat {ts : List κ} {bs : κ → List α} {num : κ → ℕ} (hts : ts.Nodup)
    (hlen : ∀ t ∈ ts, (bs t).length = num t) {t : κ} (ht : t ∈ ts) :
    split num ts (concat ts bs) t = bs t := by
  induction ts with
  | nil => cases ht
  | cons t' ts ih =>
    obtain ⟨hnot, hts⟩ := List.nodup_cons.mp hts
    have hlen' : (bs t').length = num t' := hlen t' List.mem_cons_self
    rw [concat, List.flatMap_cons, split, ← hlen']
    by_cases h : t = t'
    · rw [if_pos h, List.take_left, h]
    · rw [if_neg h, List.drop_left]
      exact ih hts (fun t ht => hlen t (List.mem_cons_of_mem _ ht))
        ((List.mem_cons.mp ht).resolve_left h)

@[simp] theorem length_batch (kind : J → κ) (jobs : List J) (f : J → α) (t : κ) :
    (batch kind jobs f t).length = jobs.countP fun j => kind j = t := by
  rw [batch, List.length_map, List.countP_eq_length_filter]

theorem batch_map {I : Type} (kind : J → κ) (F : I → J) (js : List I) (f : J → α) (t : κ) :
    batch kind (js.map F) f t = batch (fun i => kind (F i)) js (fun i => f (F i)) t := by
  rw [batch, List.filter_map, List.map_map]
  rfl

/-- The value of a job is at the position given by the number of earlier jobs of its kind. -/
theorem getD_batch (kind : J → κ) {jobs ys zs : List J} {x : J} (h : jobs = ys ++ x :: zs)
    (f : J → α) (d : α) :
    (batch kind jobs f (kind x)).getD (ys.countP fun j => kind j = kind x) d = f x := by
  subst h
  rw [batch, List.filter_append, List.filter_cons_of_pos (by simp), List.map_append,
    List.countP_eq_length_filter]
  simp [List.getD_eq_getElem?_getD]

/-- A walk with one counter a kind does what a walk `stepD` without counters does, when the steps
agree wherever the counters hold the numbers of jobs done. -/
theorem foldl_counters (kind : J → κ) (ts : List κ) (stepI : S × (κ → ℕ) → J → S × (κ → ℕ))
    (stepD : S → J → S) (jobs : List J)
    (hstep : ∀ ys x zs, jobs = ys ++ x :: zs → ∀ (s : S) (idx : κ → ℕ),
      (∀ t ∈ ts, idx t = ys.countP fun j => kind j = t) →
      (stepI (s, idx) x).1 = stepD s x ∧
        ∀ t ∈ ts, (stepI (s, idx) x).2 t = (ys ++ [x]).countP fun j => kind j = t) (s : S) :
    (jobs.foldl stepI (s, fun _ => 0)).1 = jobs.foldl stepD s := by
  have hwalk : ∀ (zs ys : List J), jobs = ys ++ zs → ∀ (s : S) (idx : κ → ℕ),
      (∀ t ∈ ts, idx t = ys.countP fun j => kind j = t) →
      (zs.foldl stepI (s, idx)).1 = zs.foldl stepD s := by
    intro zs
    induction zs with
    | nil => exact fun _ _ _ _ _ => rfl
    | cons x zs ih =>
      intro ys h s idx hidx
      obtain ⟨h1, h2⟩ := hstep ys x zs h s idx hidx
      rw [List.foldl_cons, List.foldl_cons, ← h1]
      exact ih (ys ++ [x]) (by simpa using h) _ _ h2
  exact hwalk jobs [] rfl s _ fun _ _ => rfl

theorem countP_bump {kind : J → κ} {ts : List κ} {ys : List J} {x : J} {idx : κ → ℕ}
    (hidx : ∀ t ∈ ts, idx t = ys.countP fun j => kind j = t) :
    ∀ t ∈ ts, Function.update idx (kind x) (idx (kind x) + 1) t =
      (ys ++ [x]).countP fun j => kind j = t := by
  intro t ht
  rw [List.countP_append]
  by_cases h : t = kind x
  · rw [← h, Function.update_self, hidx t ht]
    simp [h]
  · rw [Function.update_of_ne h, hidx t ht]
    simp [Ne.symm h]

theorem countP_keep {kind : J → κ} {ts : List κ} {ys : List J} {x : J} {idx : κ → ℕ}
    (hx : kind x ∉ ts) (hidx : ∀ t ∈ ts, idx t = ys.countP fun j => kind j = t) :
    ∀ t ∈ ts, idx t = (ys ++ [x]).countP fun j => kind j = t := by
  intro t ht
  have hne : kind x ≠ t := fun h => hx (h ▸ ht)
  rw [List.countP_append, hidx t ht]
  simp [hne]

/-! ## Loops that write one key a step -/

omit [DecidableEq κ] in
theorem foldl_of_mem {step : S → J → S} {P : S → Prop} {xs : List J}
    (hkeep : ∀ s, ∀ x ∈ xs, P s → P (step s x)) {x : J} (hx : x ∈ xs) (hset : ∀ s, P (step s x))
    (s : S) : P (xs.foldl step s) := by
  obtain ⟨as, bs, rfl⟩ := List.append_of_mem hx
  rw [List.foldl_append, List.foldl_cons]
  exact List.foldlRecOn bs step (hset _) fun s hs y hy =>
    hkeep s y (List.mem_append_right _ (List.mem_cons_of_mem _ hy)) hs

section Keys
variable {K : Type} (step : S → J → S) (read : S → K → α) (key : J → K)

omit [DecidableEq κ] in
theorem foldl_read_of_notMem (hframe : ∀ s x k, k ≠ key x → read (step s x) k = read s k)
    {xs : List J} {k : K} (hk : k ∉ xs.map key) (s : S) : read (xs.foldl step s) k = read s k := by
  induction xs generalizing s with
  | nil => rfl
  | cons x xs ih =>
    rw [List.map_cons, List.mem_cons, not_or] at hk
    rw [List.foldl_cons, ih hk.2, hframe s x k hk.1]

omit [DecidableEq κ] in
theorem foldl_read_of_nodup (hframe : ∀ s x k, k ≠ key x → read (step s x) k = read s k)
    {xs : List J} (hxs : (xs.map key).Nodup) {x : J} (hx : x ∈ xs) {v : α}
    (hset : ∀ s, read (step s x) (key x) = v) (s : S) : read (xs.foldl step s) (key x) = v := by
  induction xs generalizing s with
  | nil => cases hx
  | cons y ys ih =>
    rw [List.map_cons, List.nodup_cons] at hxs
    rw [List.foldl_cons]
    obtain rfl | hx := List.mem_cons.mp hx
    · rw [foldl_read_of_notMem step read key hframe hxs.1, hset s]
    · exact ih hxs.2 hx (step s y)

end Keys

end QSync.Batching
