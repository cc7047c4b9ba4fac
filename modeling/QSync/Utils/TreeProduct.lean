import QSync.Utils.GridlockRuns

/-! # The tree product, index by index

`SoDoGridLock::treeMult` (`utils/liquidity_matching.h`) with checked reads and the `size_t` bound of
its inner loop. On a list with a wire it is the loop of `treeMult`. On an empty one `size() - 1` is
the largest `size_t`, and the first turn reads outside the vector.
-/

namespace QSync
set_option autoImplicit false
set_option maxHeartbeats 250000

namespace SoDoGridLock
open Circuit

section Loop
variable {R : Type}

/-- `prev_level.size() - 1`, a `size_t`. -/
def sizeMinusOne (prev_level : List ℕ) : ℕ :=
  if prev_level.length = 0 then 2 ^ 64 - 1 else prev_level.length - 1

/-- `prev_level[i]`. -/
def wireAt (prev_level : List ℕ) (i : ℕ) : Build R ℕ :=
  match prev_level[i]? with
  | some w => pure w
  | none => throw "out of range"

/-- The `for` loop, from the index `i` on. -/
def multLevel (prev_level : List ℕ) (i : ℕ) (curr_level : List ℕ) : Build R (List ℕ) :=
  if i < sizeMinusOne prev_level then do
    let a ← wireAt prev_level i
    let b ← wireAt prev_level (i + 1)
    let w ← addGate2 .kMul a b
    multLevel prev_level (i + 2) (curr_level ++ [w])
  else pure curr_level
termination_by sizeMinusOne prev_level - i

/-- `curr_level.push_back(prev_level.back())` for a level of odd size. -/
def carryLast (prev_level curr_level : List ℕ) : Build R (List ℕ) :=
  if prev_level.length % 2 = 1 then do
    let last ← wireAt prev_level (prev_level.length - 1)
    pure (curr_level ++ [last])
  else pure curr_level

/-- The `while` loop, for at most `passes` turns. -/
def treeMultWhile (passes : ℕ) (prev_level : List ℕ) : Build R ℕ :=
  if prev_level.length ≠ 1 then
    match passes with
    | 0 => throw "no end"
    | passes + 1 => do
      let curr_level ← multLevel prev_level 0 []
      let curr_level ← carryLast prev_level curr_level
      treeMultWhile passes curr_level
  else wireAt prev_level 0

theorem wireAt_append (pre : List ℕ) (w : ℕ) (post : List ℕ) :
    (wireAt (pre ++ w :: post) pre.length : Build R ℕ) = pure w := by
  simp [wireAt]

theorem sizeMinusOne_of_ne {prev_level : List ℕ} (h : prev_level ≠ []) :
    sizeMinusOne prev_level = prev_level.length - 1 := by
  rw [sizeMinusOne, if_neg (mt List.length_eq_zero_iff.mp h)]

/-- One pass over a level of which an even number of wires are done. -/
theorem multLevel_carryLast (rest done curr_level : List ℕ) (heven : done.length % 2 = 0)
    (hne : done ++ rest ≠ []) :
    (multLevel (done ++ rest) done.length curr_level >>= carryLast (R := R) (done ++ rest)) =
      (fun curr => curr_level ++ curr) <$> multPairs rest := by
  induction rest using multPairs.induct generalizing done curr_level with
  | case1 a b rest ih =>
    have hlt : done.length < sizeMinusOne (done ++ a :: b :: rest) := by
      rw [sizeMinusOne_of_ne hne]
      simp
    have hb : (wireAt (done ++ a :: b :: rest) (done.length + 1) : Build R ℕ) = pure b := by
      simp [wireAt]
    have hdone : done ++ a :: b :: rest = (done ++ [a, b]) ++ rest := by simp
    have hlen : done.length + 2 = (done ++ [a, b]).length := by simp
    have hih : ∀ w, (multLevel (done ++ a :: b :: rest) (done.length + 2) (curr_level ++ [w]) >>=
        carryLast (R := R) (done ++ a :: b :: rest)) =
          (fun curr => curr_level ++ [w] ++ curr) <$> multPairs rest := by
      intro w
      rw [hdone, hlen]
      exact ih (done ++ [a, b]) _ (by simp only [← hlen]; omega) (by simp)
    rw [multLevel, if_pos hlt, wireAt_append, hb, multPairs]
    simp only [pure_bind, bind_assoc, hih, map_bind, map_pure, List.append_assoc,
      List.cons_append, List.nil_append]
    rfl
  | case2 rest hrest =>
    cases rest with
    | nil =>
      have hend : ¬ done.length < sizeMinusOne (done ++ []) := by
        rw [sizeMinusOne_of_ne hne]
        simp
      have hsize : ¬ (done ++ []).length % 2 = 1 := by
        rw [List.append_nil]
        omega
      rw [multLevel, if_neg hend, pure_bind, carryLast, if_neg hsize, multPairs.eq_2 [] (by simp)]
      simp
    | cons a rest =>
      cases rest with
      | nil =>
        have hend : ¬ done.length < sizeMinusOne (done ++ [a]) := by
          rw [sizeMinusOne_of_ne hne]
          simp
        have hsize : (done ++ [a]).length % 2 = 1 := by
          rw [List.length_append, List.length_singleton]
          omega
        have hlast : (wireAt (done ++ [a]) ((done ++ [a]).length - 1) : Build R ℕ) = pure a := by
          simp [wireAt]
        rw [multLevel, if_neg hend, pure_bind, carryLast, if_pos hsize, hlast,
          multPairs.eq_2 [a] (by simp)]
        simp
      | cons b rest => exact (hrest a b rest rfl).elim

theorem multPairs_length (ws : List ℕ) :
    Ensures (multPairs (R := R) ws) fun ws' => ws'.length = (ws.length + 1) / 2 := by
  induction ws using multPairs.induct with
  | case1 a b rest ih =>
    rw [multPairs]
    refine .skip fun w => ih.bind fun curr_level hlen => .pure ?_
    simp only [List.length_cons]
    omega
  | case2 ws hws =>
    have hlen := length_le_one hws
    rw [multPairs.eq_2 ws hws]
    exact .pure (by omega)

/-- With a wire in the list, no read is out of range: the loops are the ones of `treeMult`. -/
theorem treeMultWhile_eq (passes : ℕ) {ws : List ℕ} (hne : ws ≠ []) :
    treeMultWhile (R := R) passes ws = treeMultLoop passes ws := by
  induction passes generalizing ws with
  | zero =>
    by_cases hlen : ws.length = 1
    · obtain ⟨w, rfl⟩ := List.length_eq_one_iff.mp hlen
      rfl
    · rw [treeMultWhile, if_pos hlen, treeMultLoop]
      rintro w rfl
      exact hlen rfl
  | succ passes ih =>
    by_cases hlen : ws.length = 1
    · obtain ⟨w, rfl⟩ := List.length_eq_one_iff.mp hlen
      rfl
    · have hpass := multLevel_carryLast (R := R) ws [] [] rfl hne
      simp only [List.nil_append, List.length_nil, id_map'] at hpass
      have hpos := List.length_pos_iff.mpr hne
      rw [treeMultWhile, if_pos hlen, treeMultLoop, ← bind_assoc, hpass]
      · refine (multPairs_length ws).bind_congr fun curr_level hcurr => ih ?_
        rintro rfl
        rw [List.length_nil] at hcurr
        omega
      · rintro w rfl
        exact hlen rfl

/-- `treeMult` is the loop, with as many passes as there are wires. -/
theorem treeMult_eq_while (ws : List ℕ) : treeMult (R := R) ws = treeMultWhile ws.length ws := by
  obtain rfl | hne := eq_or_ne ws []
  · rfl
  · exact (treeMultWhile_eq ws.length hne).symm

/-- An empty list has no pass that does not read outside it. -/
theorem treeMultWhile_nil (passes : ℕ) (c : Circuit R) :
    ∃ e, treeMultWhile passes [] c = .error e := by
  cases passes with
  | zero => exact ⟨"no end", rfl⟩
  | succ passes =>
    refine ⟨"out of range", ?_⟩
    rw [treeMultWhile, if_pos (by simp), multLevel, if_pos (by simp [sizeMinusOne])]
    rfl

end Loop

/-! ## The calls -/

section Calls
variable {R : Type} [CircuitRing R]

/-- `treeMult` ends on `ws`, without a read out of range, with a wire whose value is the product of
the values `vals` of the wires `ws`. -/
def HasProduct (c : Circuit R) (ws : List ℕ) (vals : List ((ℕ → R) → R)) : Prop :=
  ∃ passes, Builds (· = .kMul) c (treeMultWhile passes ws) fun w c' => Has c' w (valuesProd vals)

theorem hasProduct_iff {c : Circuit R} {ws : List ℕ} {vals : List ((ℕ → R) → R)}
    (h : List.Forall₂ (Has c) ws vals) : HasProduct c ws vals ↔ ws ≠ [] := by
  constructor
  · rintro ⟨passes, w, c', hrun, -⟩ rfl
    obtain ⟨e, he⟩ := treeMultWhile_nil passes c
    rw [he] at hrun
    cases hrun
  · intro hne
    have hbuilds := treeMult_builds (T := (· = .kMul)) rfl hne h
    rw [treeMult_eq_while] at hbuilds
    exact ⟨ws.length, hbuilds⟩

/-- With an empty queue, the second list is empty. -/
theorem updateSelectedTransactions_empty {gl : SoDoGridLock} (hqueue : gl.txn_queue_ = [])
    (balance selected : ℕ → ℕ) :
    Ensures (gl.updateSelectedTransactions (R := R) balance selected) fun _ => False := by
  have hnot : ∀ new_selected : ℕ → ℕ,
      ((List.range gl.txn_queue_.length).mapM fun i => negated (R := R) (new_selected i)) =
        pure [] := by
    intro new_selected
    rw [hqueue]
    rfl
  have hempty : Ensures (treeMult (R := R) []) fun _ => False := by
    intro c w c' hm
    cases hm
  rw [updateSelectedTransactions]
  refine .skip fun new_balance => .skip fun is_negative => .skip fun is_positive =>
    .skip fun all_positive => .skip fun _ => .skip fun new_selected => ?_
  rw [hnot, pure_bind]
  exact hempty.bind fun _ h => h.elim

/-- `treeMult` is right exactly on the lists that have a wire. Of the two lists that an iteration
passes to it, the first has one for each bank and the second one for each transaction, so with a bank
the iteration goes through, with the two products as outputs, exactly when the queue is not empty. -/
theorem treeMult_product_iff :
    (∀ (c : Circuit R) (ws : List ℕ) (vals : List ((ℕ → R) → R)),
      List.Forall₂ (Has c) ws vals → (HasProduct c ws vals ↔ ws ≠ [])) ∧
    ∀ (gl : SoDoGridLock) (c : Circuit R) (balance selected : ℕ → ℕ), 1 ≤ gl.num_banks_ →
      gl.Owns c → (∀ i < gl.num_banks_, balance i < c.size) →
      (∀ t < gl.txn_queue_.length, selected t < c.size) →
      ((∃ new_balance, Makes stepTypes c (gl.updateSelectedTransactions balance selected)
        fun new_selected outs c' => ∃ o₁ o₂, outs = [o₁, o₂] ∧
          ∀ f ws, (∀ w < c'.size, ws w = c'.value f w) →
            gl.Iterated new_balance selected new_selected o₁ o₂ ws) ↔ gl.txn_queue_ ≠ []) := by
  refine ⟨fun c ws vals h => hasProduct_iff h, fun gl c balance selected _ hown hbal hsel => ?_⟩
  constructor
  · rintro ⟨new_balance, new_selected, outs, c', hrun, -⟩ hqueue
    exact updateSelectedTransactions_empty hqueue balance selected c new_selected c' hrun
  · intro hqueue
    obtain ⟨new_balance, c₁, -, hmakes⟩ := updateSelectedTransactions_makes hown hqueue hbal hsel
    refine ⟨new_balance, hmakes.weaken fun new_selected outs c' _ hpost => ?_⟩
    exact hpost.2.2

/-- Two wires are multiplied, and one bank with one transaction to itself can iterate. -/
theorem treeMult_product_iff_one :
    (∃ c : Circuit U64, HasProduct c [0, 0] [fun f => f 0, fun f => f 0]) ∧
    ∃ (s : Session U64) (c c' : Circuit U64) (new_selected : ℕ → ℕ),
      openSession 1 [(0, 0, 7)] (fun _ => 5) empty = .ok (s, c) ∧
        s.gl.updateSelectedTransactions s.balance s.selected c = .ok (new_selected, c') := by
  obtain ⟨hlists, hcalls⟩ := treeMult_product_iff (R := U64)
  constructor
  · have hinput : Builds (· = .kInp) (empty : Circuit U64) newInputWire _ := newInputWire_builds rfl
    obtain ⟨w, c, -, -, hw, -, hhas⟩ := hinput
    subst hw
    exact ⟨c, (hlists c _ _ (.cons hhas (.cons hhas .nil))).mpr (by simp)⟩
  · have hsession : Builds (· = .kInp) (empty : Circuit U64)
        (openSession 1 [(0, 0, 7)] fun _ => 5) _ := openSession_builds (fun _ => 5) (by simp)
    obtain ⟨s, c, hopen, -, hbanks, hown, -, hqueue, hbal, hsel⟩ := hsession
    have hne : s.gl.txn_queue_ ≠ [] := by
      intro hnil
      rw [Queued, hnil] at hqueue
      cases hqueue
    obtain ⟨new_balance, new_selected, outs, c', hrun, -⟩ :=
      (hcalls s.gl c s.balance s.selected hbanks.ge hown (fun i hi => (hbal i (hbanks ▸ hi)).1)
        fun t ht => (hsel t ht).1).mpr hne
    exact ⟨s, c, c', new_selected, hopen, hrun⟩

/-- One bank with the balance 5 and no transactions: the second list is empty, `treeMult` has no
product of it, and the iteration does not go through. -/
theorem treeMult_product_empty_queue :
    ∃ (s : Session U64) (c : Circuit U64), openSession 1 [] (fun _ => 5) empty = .ok (s, c) ∧
      s.gl.num_banks_ = 1 ∧ s.gl.txn_queue_ = [] ∧ ¬ HasProduct c [] [] ∧
      ∀ r, s.gl.updateSelectedTransactions s.balance s.selected c ≠ .ok r := by
  have hsession : Builds (· = .kInp) (empty : Circuit U64) (openSession 1 [] fun _ => 5) _ :=
    openSession_builds (fun _ => 5) (by simp)
  obtain ⟨s, c, hopen, -, hbanks, -, -, hqueue, -⟩ := hsession
  have hnil : s.gl.txn_queue_ = [] := List.map_eq_nil_iff.mp hqueue
  refine ⟨s, c, hopen, hbanks, hnil, fun h => ?_, fun r hr => ?_⟩
  · exact (hasProduct_iff .nil).mp h rfl
  · exact updateSelectedTransactions_empty hnil s.balance s.selected c r.1 r.2 hr

end Calls

end SoDoGridLock

end QSync
