import QSync.Utils.LevelSchedule
import Mathlib.Order.Bounds.Basic

/-! # The levels are the fewest

A schedule gives every gate that needs interaction a round of its own after its inputs. A path along the
wires takes as many rounds as it has such gates (`IsPath.interactions_le`), and every gate ends a path that
takes all rounds up to its level (`exists_path`). So no schedule is shorter than `orderGatesByLevel`, for
any gate (`Circuit.levels_optimal`).
-/

namespace QSync
set_option autoImplicit false
set_option maxHeartbeats 250000

variable {R : Type} {c : Circuit R} {g : Gate R} {lv : ℕ → ℕ}

def Gate.rounds (g : Gate R) : ℕ := if g.type.interactive then 1 else 0

/-- Rounds for the wires: a gate is not before its inputs, and a gate that needs interaction is after
them and after round 0, in which the inputs are dealt. -/
def Schedules (c : Circuit R) (lv : ℕ → ℕ) : Prop :=
  ∀ g ∈ c.gates_, g.rounds ≤ lv g.out ∧ ∀ w ∈ g.inputs, lv w + g.rounds ≤ lv g.out

/-- Gates of the circuit, each of which is an input of the next. -/
structure IsPath (c : Circuit R) (gs : List (Gate R)) : Prop where
  mem : ∀ g ∈ gs, g ∈ c.gates_
  chain : gs.IsChain fun g g' => g.out ∈ g'.inputs

def interactions (gs : List (Gate R)) : ℕ := gs.countP fun g => g.type.interactive

theorem interactions_concat (gs : List (Gate R)) (g : Gate R) :
    interactions (gs ++ [g]) = interactions gs + g.rounds := by
  rw [interactions, interactions, List.countP_append, List.countP_singleton, Gate.rounds]

theorem gateLevel_eq (g : Gate R) (lv : ℕ → ℕ) :
    gateLevel g lv = (g.inputs.map lv).foldl max 0 + g.rounds := by
  rw [gateLevel, Gate.rounds]
  split <;> rfl

theorem foldl_max_mem (l : List ℕ) (a : ℕ) : l.foldl max a = a ∨ l.foldl max a ∈ l := by
  induction l generalizing a with
  | nil => exact .inl rfl
  | cons x l ih =>
    obtain h | h := ih (max a x)
    · rw [List.foldl_cons, h]
      obtain hmax | hmax := max_choice a x
      · exact .inl hmax
      · rw [hmax]
        exact .inr List.mem_cons_self
    · exact .inr (List.mem_cons_of_mem _ h)

theorem gateLevels_schedules (c : Circuit R) : Schedules c (gateLevels c.gates_) := by
  intro g hg
  rw [gateLevels_eq c hg, gateLevel_eq]
  refine ⟨Nat.le_add_left _ _, fun w hw => Nat.add_le_add_right ?_ _⟩
  exact (le_foldl_max _ 0).2 _ (List.mem_map_of_mem hw)

/-- A path takes as many rounds as it has gates that need interaction. -/
theorem IsPath.interactions_le (h : Schedules c lv) (gs : List (Gate R)) (g : Gate R)
    (hpath : IsPath c (gs ++ [g])) : interactions (gs ++ [g]) ≤ lv g.out := by
  induction gs using List.reverseRecOn generalizing g with
  | nil =>
    rw [interactions_concat]
    exact (Nat.zero_add _).trans_le (h g (hpath.mem g List.mem_cons_self)).1
  | append_singleton gs g' ih =>
    have hg : g ∈ c.gates_ := hpath.mem g (List.mem_append_right _ List.mem_cons_self)
    obtain ⟨hchain, -, hlast⟩ := List.isChain_append.mp hpath.chain
    have hin : g'.out ∈ g.inputs := by
      refine hlast g' ?_ g rfl
      rw [List.getLast?_concat]
      rfl
    have hprefix := ih g' ⟨fun x hx => hpath.mem x (List.mem_append_left _ hx), hchain⟩
    rw [interactions_concat]
    calc interactions (gs ++ [g']) + g.rounds ≤ lv g'.out + g.rounds :=
          Nat.add_le_add_right hprefix _
      _ ≤ lv g.out := (h g hg).2 _ hin

/-- Every gate ends a path that takes all rounds up to its level. -/
theorem exists_path (c : Circuit R) (g : Gate R) (hg : g ∈ c.gates_) :
    ∃ gs, IsPath c (gs ++ [g]) ∧ interactions (gs ++ [g]) = gateLevels c.gates_ g.out := by
  induction hn : g.out using Nat.strong_induction_on generalizing g with
  | _ n ih =>
    subst hn
    rw [gateLevels_eq c hg, gateLevel_eq]
    obtain h | h := foldl_max_mem (g.inputs.map (gateLevels c.gates_)) 0
    · -- all inputs are at level 0
      refine ⟨[], ⟨fun x hx => (List.mem_singleton.mp hx) ▸ hg, List.isChain_singleton _⟩, ?_⟩
      rw [interactions_concat, h]
      rfl
    · obtain ⟨w, hw, hlevel⟩ := List.mem_map.mp h
      obtain ⟨g', hg', rfl⟩ := c.exists_gate hg hw
      obtain ⟨gs, hpath, hcount⟩ := ih g'.out ((c.valid g hg).1 _ hw) g' hg' rfl
      refine ⟨gs ++ [g'], ⟨fun x hx => ?_, ?_⟩, ?_⟩
      · obtain hx | hx := List.mem_append.mp hx
        · exact hpath.mem x hx
        · exact (List.mem_singleton.mp hx) ▸ hg
      · refine List.isChain_append.mpr ⟨hpath.chain, List.isChain_singleton _, fun x hx y hy => ?_⟩
        rw [List.getLast?_concat] at hx
        cases hx
        cases hy
        exact hw
      · rw [interactions_concat, hcount, hlevel]

theorem length_levels (c : Circuit R) : c.orderGatesByLevel.gates_by_level.length =
    (c.gates_.map fun g => gateLevels c.gates_ g.out).foldl max 0 + 1 := by
  rw [c.gates_by_level_eq, List.length_map, List.length_range]

/-- The level of a gate is the least round that a schedule can give it, and the levels are as many as the
rounds of the longest path. -/
theorem Circuit.levels_optimal (c : Circuit R) :
    (∀ p g, c.orderGatesByLevel.gateAt p = some g → IsLeast {n | ∃ lv, Schedules c lv ∧ lv g.out = n} p.1) ∧
    IsGreatest {n | ∃ gs, IsPath c gs ∧ interactions gs + 1 = n}
      c.orderGatesByLevel.gates_by_level.length := by
  constructor
  · intro p g h
    obtain ⟨hg, hlevel⟩ := gateAt_mem c h
    refine ⟨⟨_, gateLevels_schedules c, hlevel⟩, ?_⟩
    rintro n ⟨lv, hlv, rfl⟩
    obtain ⟨gs, hpath, hcount⟩ := exists_path c g hg
    rw [← hlevel, ← hcount]
    exact hpath.interactions_le hlv
  · rw [length_levels]
    constructor
    · obtain h | h := foldl_max_mem (c.gates_.map fun g => gateLevels c.gates_ g.out) 0
      · exact ⟨[], ⟨fun _ hg => absurd hg List.not_mem_nil, List.isChain_nil⟩, by rw [h]; rfl⟩
      · obtain ⟨g, hg, hlevel⟩ := List.mem_map.mp h
        obtain ⟨gs, hpath, hcount⟩ := exists_path c g hg
        exact ⟨gs ++ [g], hpath, by rw [hcount, hlevel]⟩
    · rintro n ⟨gs, hpath, rfl⟩
      apply Nat.succ_le_succ
      induction gs using List.reverseRecOn with
      | nil => exact Nat.zero_le _
      | append_singleton gs g _ =>
        have hg : g ∈ c.gates_ := hpath.mem g (List.mem_append_right _ List.mem_cons_self)
        exact (hpath.interactions_le (gateLevels_schedules c)).trans
          ((le_foldl_max _ 0).2 _ (List.mem_map_of_mem hg))

end QSync
