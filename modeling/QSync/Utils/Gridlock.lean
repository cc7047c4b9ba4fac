import QSync.Utils.Netting
import QSync.Utils.SignTest

/-! # The gridlock iteration

`SoDoGridLock::updateSelectedTransactions`: a selected transaction stays selected when its bank's new
balance is not negative, or when the next transaction of its bank is selected too. From all
transactions selected, the selected transactions of a bank are therefore always the first ones of
its queue, and a bank with a negative new balance drops the last of them.
-/

namespace QSync
set_option autoImplicit false
set_option maxHeartbeats 250000

namespace SoDoGridLock
open Circuit
variable {R : Type} [CircuitRing R] {T : GateType → Prop} {c : Circuit R} {gl : SoDoGridLock}

/-! ## Products over a tree -/

def valuesProd (vals : List ((ℕ → R) → R)) (f : ℕ → R) : R := (vals.map fun v => v f).prod

/-- A list without a first pair. -/
theorem length_le_one {ws : List ℕ} (h : ∀ a b rest, ws = a :: b :: rest → False) :
    ws.length ≤ 1 := by
  cases ws with
  | nil => exact Nat.zero_le 1
  | cons a ws =>
    cases ws with
    | nil => exact le_rfl
    | cons b rest => exact (h a b rest rfl).elim

theorem multPairs_builds (ht : T .kMul) (ws : List ℕ) {c : Circuit R} {vals : List ((ℕ → R) → R)}
    (h : List.Forall₂ (Has c) ws vals) :
    Builds T c (multPairs ws) fun ws' c' => ws'.length = (ws.length + 1) / 2 ∧
      ∃ vals', List.Forall₂ (Has c') ws' vals' ∧ ∀ f, valuesProd vals' f = valuesProd vals f := by
  induction ws using multPairs.induct generalizing c vals with
  | case1 a b rest ih =>
    cases h with
    | cons ha h =>
      cases h with
      | cons hb hrest =>
        next va _ vb vals =>
        rw [multPairs]
        refine (addMul_builds ha hb ht).bind fun w c₁ hc₁ hw => ?_
        refine (ih (hrest.imp fun _ _ hx => hx.mono hc₁)).bind
          fun ws' c₂ hc₂ ⟨hlen, vals', hvals', hprod⟩ => .pure ⟨?_, _, .cons (hw.mono hc₂) hvals', ?_⟩
        · simp only [List.length_cons]
          omega
        · intro f
          have hprod := hprod f
          unfold valuesProd at hprod ⊢
          simp only [List.map_cons, List.prod_cons]
          rw [hprod, mul_assoc]
  | case2 ws hws =>
    have hlen := length_le_one hws
    rw [multPairs.eq_2 ws hws]
    exact .pure ⟨by omega, vals, h, fun _ => rfl⟩

/-- Every pass leaves at least one wire and fewer than before, until one is left. -/
theorem treeMultLoop_builds (ht : T .kMul) (fuel : ℕ) {c : Circuit R} {ws : List ℕ}
    {vals : List ((ℕ → R) → R)} (hpos : 0 < ws.length) (hfuel : ws.length ≤ fuel + 1)
    (h : List.Forall₂ (Has c) ws vals) :
    Builds T c (treeMultLoop fuel ws) fun w c' => Has c' w (valuesProd vals) := by
  have hone : ∀ {c : Circuit R} {w : ℕ} {vals}, List.Forall₂ (Has c) [w] vals →
      Has c w (valuesProd vals) := by
    intro c w vals h
    cases h with
    | cons hw h =>
      cases h
      exact hw.congr fun f => by simp [valuesProd]
  induction fuel generalizing c ws vals with
  | zero =>
    obtain ⟨w, rfl⟩ := List.length_eq_one_iff.mp (by omega : ws.length = 1)
    rw [treeMultLoop]
    exact .pure (hone h)
  | succ fuel ih =>
    by_cases hlen : ws.length = 1
    · obtain ⟨w, rfl⟩ := List.length_eq_one_iff.mp hlen
      rw [treeMultLoop]
      exact .pure (hone h)
    · rw [treeMultLoop]
      · refine (multPairs_builds ht ws h).bind fun ws' c₁ hc₁ ⟨hlen', vals', hvals', hprod⟩ => ?_
        refine (ih (by omega) (by omega) hvals').weaken fun w c₂ _ hw => hw.congr hprod
      · rintro w rfl
        exact hlen rfl

theorem treeMult_builds (ht : T .kMul) {ws : List ℕ} {vals : List ((ℕ → R) → R)} (hne : ws ≠ [])
    (h : List.Forall₂ (Has c) ws vals) :
    Builds T c (treeMult ws) fun w c' => Has c' w (valuesProd vals) :=
  treeMultLoop_builds ht ws.length (List.length_pos_iff.mpr hne) (Nat.le_succ _) h

/-! ## The queue of a bank -/

/-- The positions of a bank's outgoing transactions, in queue order. -/
def bankQueue (gl : SoDoGridLock) (i : ℕ) : List ℕ :=
  (List.range gl.txn_queue_.length).filter fun t => (gl.txn t).src = i

theorem txnBySrc_eq (gl : SoDoGridLock) (i : ℕ) : gl.txnBySrc i = gl.bankQueue i := by
  rw [txnBySrc, bankQueue]
  induction gl.txn_queue_.length with
  | zero => rfl
  | succ n ih =>
    rw [List.range_succ, List.foldl_append, List.filter_append]
    by_cases hi : (gl.txn n).src = i
    · subst hi
      simp [ih]
    · simp [ih, hi, Function.update_of_ne (Ne.symm hi)]

theorem mem_bankQueue {i t : ℕ} :
    t ∈ gl.bankQueue i ↔ t < gl.txn_queue_.length ∧ (gl.txn t).src = i := by
  simp [bankQueue]

theorem bankQueue_nodup (gl : SoDoGridLock) (i : ℕ) : (gl.bankQueue i).Nodup :=
  List.nodup_range.filter _

theorem getD_mem {l : List ℕ} {j : ℕ} (hj : j < l.length) : l.getD j 0 ∈ l := by
  rw [List.getD_eq_getElem _ _ hj]
  exact List.getElem_mem hj

theorem getD_inj {l : List ℕ} (hl : l.Nodup) {j k : ℕ} (hj : j < l.length) (hk : k < l.length)
    (h : l.getD j 0 = l.getD k 0) : j = k := by
  rw [List.getD_eq_getElem _ _ hj, List.getD_eq_getElem _ _ hk] at h
  exact (hl.getElem_inj_iff).mp h

theorem exists_position {t : ℕ} (ht : t < gl.txn_queue_.length) :
    ∃ j < (gl.bankQueue (gl.txn t).src).length, (gl.bankQueue (gl.txn t).src).getD j 0 = t := by
  obtain ⟨j, hj, hget⟩ := List.getElem_of_mem (mem_bankQueue.mpr ⟨ht, rfl⟩)
  exact ⟨j, hj, by rw [List.getD_eq_getElem _ _ hj, hget]⟩

/-! ## The new selection -/

/-- The new bit of position `j` in a queue of `n` bits. -/
def nextBit (sel : ℕ → R) (negative positive : R) (n j : ℕ) : R :=
  (if j + 1 < n then sel j * sel (j + 1) * negative else 0) + sel j * positive

theorem nextBit_congr {sel sel' : ℕ → R} {negative positive : R} {n j : ℕ}
    (h : ∀ k < n, sel k = sel' k) (hj : j < n) :
    nextBit sel negative positive n j = nextBit sel' negative positive n j := by
  unfold nextBit
  split
  · next hlt => rw [h j hj, h (j + 1) hlt]
  · rw [h j hj]

theorem negated_builds {w : ℕ} {v : (ℕ → R) → R} (hw : Has c w v) :
    Builds stepTypes c (negated (R := R) w) fun w' c' => Has c' w' fun f => 1 - v f := by
  refine (addConstMul_builds hw (-1) (by simp [stepTypes])).bind fun wtemp c₁ _ hwtemp => ?_
  refine (addConstAdd_builds hwtemp 1 (by simp [stepTypes])).weaken fun w' c' _ hw' =>
    hw'.congr fun f => by ring

/-- Writing position `n` of a queue leaves the positions before it and the other queues alone. -/
theorem update_queue {stxn : List ℕ} (val : ℕ → (ℕ → R) → R) {v v₀ : ℕ → ℕ} {n w : ℕ}
    (hnodup : stxn.Nodup) (hn : n < stxn.length)
    (h : (∀ j < n, Has c (v (stxn.getD j 0)) (val j)) ∧ ∀ t, t ∉ stxn → v t = v₀ t)
    (hw : Has c w (val n)) :
    (∀ j < n + 1, Has c (Function.update v (stxn.getD n 0) w (stxn.getD j 0)) (val j)) ∧
      ∀ t, t ∉ stxn → Function.update v (stxn.getD n 0) w t = v₀ t := by
  refine ⟨fun j hj => ?_, fun t ht => ?_⟩
  · obtain hlt | rfl := Nat.lt_succ_iff_lt_or_eq.mp hj
    · rw [Function.update_of_ne fun heq => hlt.ne (getD_inj hnodup (hlt.trans hn) hn heq)]
      exact h.1 j hlt
    · rw [Function.update_self]
      exact hw
  · rw [Function.update_of_ne fun heq => ht (by rw [heq]; exact getD_mem hn)]
    exact h.2 t ht

section UpdateBank
variable {selected new_selected : ℕ → ℕ} {is_negative is_positive : ℕ} {stxn : List ℕ}
  {vsel : ℕ → (ℕ → R) → R} {vneg vpos : (ℕ → R) → R}

/-- All transactions of a bank but its last one. -/
theorem dropLoop_builds {n : ℕ} (hnodup : stxn.Nodup) (hn : n + 1 ≤ stxn.length)
    (hsel : ∀ j < stxn.length, Has c (selected (stxn.getD j 0)) (vsel j))
    (hneg : Has c is_negative vneg) (hpos : Has c is_positive vpos) :
    Builds stepTypes c ((List.range n).foldlM (fun new_selected j => do
        let txn_id := stxn.getD j 0
        let xprod ← addGate2 .kMul (selected txn_id) (selected (stxn.getD (j + 1) 0))
        let term1 ← addGate2 .kMul xprod is_negative
        let term2 ← addGate2 .kMul (selected txn_id) is_positive
        let w ← addGate2 .kAdd term1 term2
        pure (Function.update new_selected txn_id w)) new_selected) fun v c' =>
      (∀ j < n, Has c' (v (stxn.getD j 0)) fun f =>
        nextBit (fun j => vsel j f) (vneg f) (vpos f) stxn.length j) ∧
      ∀ t, t ∉ stxn → v t = new_selected t := by
  rw [List.range_eq_range']
  refine (Builds.foldlM_split (fun done (v : ℕ → ℕ) c' =>
    (∀ j < done.length, Has c' (v (stxn.getD j 0)) fun f =>
      nextBit (fun j => vsel j f) (vneg f) (vpos f) stxn.length j) ∧
      ∀ t, t ∉ stxn → v t = new_selected t) _ ⟨by simp, fun _ _ => rfl⟩ ?_).weaken
    fun v c' _ hv => by simpa using hv
  intro done j rest v c₁ hsplit hc₁ hinv
  obtain ⟨rfl, hlt⟩ := range'_split hsplit
  simp only [Nat.add_zero]
  have hj : done.length < stxn.length := by omega
  have hj' : done.length + 1 < stxn.length := by omega
  refine (addMul_builds ((hsel _ hj).mono hc₁) ((hsel _ hj').mono hc₁)
    (by simp [stepTypes])).bind fun xprod c₂ hc₂ hxprod => ?_
  refine (addMul_builds hxprod (hneg.mono (hc₁.trans hc₂)) (by simp [stepTypes])).bind
    fun term1 c₃ hc₃ hterm1 => ?_
  have hc := (hc₁.trans hc₂).trans hc₃
  refine (addMul_builds ((hsel _ hj).mono hc) (hpos.mono hc) (by simp [stepTypes])).bind
    fun term2 c₄ hc₄ hterm2 => ?_
  refine (addAdd_builds (hterm1.mono hc₄) hterm2 (by simp [stepTypes])).bind
    fun w c₅ hc₅ hw => .pure ?_
  rw [List.length_append, List.length_singleton]
  refine update_queue _ hnodup hj ⟨fun k hk =>
    (hinv.1 k hk).mono (((hc₂.trans hc₃).trans hc₄).trans hc₅), hinv.2⟩ (hw.congr fun f => ?_)
  rw [nextBit, if_pos hj']

theorem updateBank_builds (hnodup : stxn.Nodup)
    (hsel : ∀ j < stxn.length, Has c (selected (stxn.getD j 0)) (vsel j))
    (hneg : Has c is_negative vneg) (hpos : Has c is_positive vpos) :
    Builds stepTypes c (updateBank (R := R) selected is_negative is_positive stxn new_selected)
      fun v c' =>
        (∀ j < stxn.length, Has c' (v (stxn.getD j 0)) fun f =>
          nextBit (fun j => vsel j f) (vneg f) (vpos f) stxn.length j) ∧
        ∀ t, t ∉ stxn → v t = new_selected t := by
  obtain rfl | hne := eq_or_ne stxn []
  · exact .pure ⟨by simp, fun _ _ => rfl⟩
  obtain ⟨n, hn⟩ : ∃ n, stxn.length = n + 1 :=
    ⟨stxn.length - 1, (Nat.sub_add_cancel (List.length_pos_iff.mpr hne)).symm⟩
  have hlast : stxn.getLast? = some (stxn.getD n 0) := by
    rw [List.getLast?_eq_getElem?, show stxn.length - 1 = n by omega,
      List.getD_eq_getElem _ _ (by omega), List.getElem?_eq_getElem]
  rw [updateBank, hlast, hn, Nat.add_sub_cancel]
  refine (dropLoop_builds hnodup hn.ge hsel hneg hpos).bind fun v c₁ hc₁ hv => ?_
  refine (addMul_builds ((hsel n (by omega)).mono hc₁) (hpos.mono hc₁) (by simp [stepTypes])).bind
    fun w c₂ hc₂ hw => .pure ?_
  rw [hn] at hv
  refine update_queue _ hnodup (by omega) ⟨fun k hk => (hv.1 k hk).mono hc₂, hv.2⟩
    (hw.congr fun f => ?_)
  rw [nextBit, if_neg (lt_irrefl _), zero_add]

end UpdateBank

/-- The new selection, bank by bank: the queues of two banks have no position in common. -/
theorem updateBanks_builds {selected is_negative is_positive : ℕ → ℕ}
    {vsel vneg vpos : ℕ → (ℕ → R) → R} (n : ℕ)
    (hsel : ∀ t < gl.txn_queue_.length, Has c (selected t) (vsel t))
    (hneg : ∀ i < n, Has c (is_negative i) (vneg i))
    (hpos : ∀ i < n, Has c (is_positive i) (vpos i)) :
    Builds stepTypes c ((List.range n).foldlM (fun new_selected i =>
        updateBank (R := R) selected (is_negative i) (is_positive i) (gl.txnBySrc i)
          new_selected) fun _ => 0) fun v c' =>
      ∀ i < n, ∀ j < (gl.bankQueue i).length, Has c' (v ((gl.bankQueue i).getD j 0)) fun f =>
        nextBit (fun j => vsel ((gl.bankQueue i).getD j 0) f) (vneg i f) (vpos i f)
          (gl.bankQueue i).length j := by
  rw [List.range_eq_range']
  refine (Builds.foldlM_split (fun done (v : ℕ → ℕ) c' => ∀ i < done.length,
    ∀ j < (gl.bankQueue i).length, Has c' (v ((gl.bankQueue i).getD j 0)) fun f =>
      nextBit (fun j => vsel ((gl.bankQueue i).getD j 0) f) (vneg i f) (vpos i f)
        (gl.bankQueue i).length j) _ (by simp) ?_).weaken fun v c' _ hv => by simpa using hv
  intro done i rest v c₁ hsplit hc₁ hinv
  obtain ⟨rfl, hlt⟩ := range'_split hsplit
  rw [Nat.add_zero, txnBySrc_eq]
  have hqueue : ∀ j < (gl.bankQueue done.length).length,
      Has c₁ (selected ((gl.bankQueue done.length).getD j 0))
        (vsel ((gl.bankQueue done.length).getD j 0)) := fun j hj =>
    (hsel _ (mem_bankQueue.mp (getD_mem hj)).1).mono hc₁
  refine (updateBank_builds (gl.bankQueue_nodup _) hqueue ((hneg _ hlt).mono hc₁)
    ((hpos _ hlt).mono hc₁)).weaken fun v' c₂ hc₂ ⟨hnew, hother⟩ i hi j hj => ?_
  rw [List.length_append, List.length_singleton] at hi
  obtain hi | rfl := Nat.lt_succ_iff_lt_or_eq.mp hi
  · rw [hother _ fun hmem => hi.ne
      ((mem_bankQueue.mp (getD_mem hj)).2.symm.trans (mem_bankQueue.mp hmem).2)]
    exact (hinv i hi j hj).mono hc₂
  · exact hnew j hj

/-- What one iteration computes: the new balances and, from their signs, the outputs `[o₁, o₂]` and
the new selection. -/
structure Iterated (gl : SoDoGridLock) (new_balance selected new_selected : ℕ → ℕ) (o₁ o₂ : ℕ)
    (v : ℕ → R) : Prop where
  bits : ∀ i < gl.num_banks_, ∀ j < (gl.bankQueue i).length,
    v (new_selected ((gl.bankQueue i).getD j 0)) =
      nextBit (fun j => v (selected ((gl.bankQueue i).getD j 0)))
        (CircuitRing.msb (v (new_balance i))) (1 - CircuitRing.msb (v (new_balance i)))
        (gl.bankQueue i).length j
  all_positive : v o₁ =
    ((List.range gl.num_banks_).map fun i => 1 - CircuitRing.msb (v (new_balance i))).prod
  deadlock : v o₂ = ((List.range gl.txn_queue_.length).map fun t => 1 - v (new_selected t)).prod

theorem forall₂_map {α : Type} {w : α → ℕ} {val : α → (ℕ → R) → R} {xs : List α}
    (h : ∀ x ∈ xs, Has c (w x) (val x)) : List.Forall₂ (Has c) (xs.map w) (xs.map val) := by
  rw [List.forall₂_map_left_iff, List.forall₂_map_right_iff, List.forall₂_same]
  exact h

theorem num_banks_ne_zero (hqueue : gl.txn_queue_ ≠ []) : gl.num_banks_ ≠ 0 := by
  obtain ⟨txn, htxn⟩ := List.exists_mem_of_ne_nil _ hqueue
  exact Nat.ne_zero_of_lt (gl.ids_lt txn htxn).1

/-- The values of one iteration, read off its wires. -/
theorem iterated_of_wires {new_balance selected new_selected : ℕ → ℕ} {o₁ o₂ : ℕ}
    {vbal vsel vnew : ℕ → (ℕ → R) → R} {f ws : ℕ → R}
    (hws : ∀ w < c.size, ws w = c.value f w)
    (hbal : ∀ i < gl.num_banks_, Has c (new_balance i) (vbal i))
    (hsel : ∀ t < gl.txn_queue_.length, Has c (selected t) (vsel t))
    (hnew : ∀ t < gl.txn_queue_.length, Has c (new_selected t) (vnew t))
    (hbits : ∀ i < gl.num_banks_, ∀ j < (gl.bankQueue i).length,
      Has c (new_selected ((gl.bankQueue i).getD j 0)) fun f =>
        nextBit (fun j => vsel ((gl.bankQueue i).getD j 0) f) (CircuitRing.msb (vbal i f))
          (1 - CircuitRing.msb (vbal i f)) (gl.bankQueue i).length j)
    (ho₁ : Has c o₁ (valuesProd
      ((List.range gl.num_banks_).map fun i f => 1 - CircuitRing.msb (vbal i f))))
    (ho₂ : Has c o₂ (valuesProd ((List.range gl.txn_queue_.length).map fun t f => 1 - vnew t f))) :
    gl.Iterated new_balance selected new_selected o₁ o₂ ws := by
  have hval : ∀ {w : ℕ} {u : (ℕ → R) → R}, Has c w u → ws w = u f := fun hw =>
    (hws _ hw.lt).trans (hw.value_eq f)
  refine ⟨fun i hi j hj => ?_, ?_, ?_⟩
  · rw [hval (hbits i hi j hj), hval (hbal i hi)]
    exact nextBit_congr (fun k hk => (hval (hsel _ (mem_bankQueue.mp (getD_mem hk)).1)).symm) hj
  · rw [hval ho₁, valuesProd, List.map_map]
    exact congrArg List.prod (List.map_congr_left fun i hi => by
      rw [hval (hbal i (List.mem_range.mp hi))]; rfl)
  · rw [hval ho₂, valuesProd, List.map_map]
    exact congrArg List.prod (List.map_congr_left fun t ht => by
      rw [hval (hnew t (List.mem_range.mp ht))]; rfl)

/-- What the call computes, with the values of the new balances. -/
theorem updateSelectedTransactions_nets {balance selected : ℕ → ℕ} (h : gl.Owns c)
    (hqueue : gl.txn_queue_ ≠ []) (hb : ∀ i < gl.num_banks_, balance i < c.size)
    (hsel : ∀ t < gl.txn_queue_.length, selected t < c.size) :
    ∃ new_balance c₁, gl.newBalances balance selected c = .ok (new_balance, c₁) ∧
      Makes stepTypes c (gl.updateSelectedTransactions balance selected) fun new_selected outs c' =>
        (∀ i < gl.num_banks_, Has c' (new_balance i) fun f => gl.netted
          (fun i => c.value f (balance i)) (fun t => c.value f (selected t))
          (fun t => c.value f (gl.txn t).amt) i) ∧
        (∀ t < gl.txn_queue_.length, new_selected t < c'.size) ∧
        ∃ o₁ o₂, outs = [o₁, o₂] ∧
          ∀ f ws, (∀ w < c'.size, ws w = c'.value f w) →
            gl.Iterated new_balance selected new_selected o₁ o₂ ws := by
  obtain ⟨new_balance, c₁, hm, hc₁, hnew⟩ := newBalances_builds (fun i hi => has_value (hb i hi))
    (fun t ht => has_value (hsel t ht)) fun t ht => has_value (h.amt_lt _ (txn_mem ht))
  refine ⟨new_balance, c₁, hm, ?_⟩
  have hnb : ∀ i < gl.num_banks_, Has c₁ (new_balance i) fun f => c₁.value f (new_balance i) :=
    fun i hi => has_value (hnew i hi).lt
  have hsel₁ : ∀ t < gl.txn_queue_.length, Has c₁ (selected t) fun f => c₁.value f (selected t) :=
    fun t ht => has_value ((hsel t ht).trans_le hc₁.size_le)
  have hbalances : Builds stepTypes c (gl.newBalances balance selected) fun v c' =>
    v = new_balance ∧ c' = c₁ := ⟨new_balance, c₁, hm, hc₁, rfl, rfl⟩
  rw [updateSelectedTransactions]
  refine hbalances.then fun v c₁' _ ⟨hv, hc₁'⟩ => ?_
  subst hv hc₁'
  refine (fillWires_builds (fun i f => CircuitRing.msb (c₁'.value f (v i))) _ (fun i hi c' hc' =>
    addMsb_builds ((hnb i (List.mem_range.mp hi)).mono hc') (by simp [stepTypes])) _).then
    fun is_negative c₂ hc₂ hneg => ?_
  refine (fillWires_builds (fun i f => 1 - CircuitRing.msb (c₁'.value f (v i))) _ (fun i hi c' hc' =>
    negated_builds ((hneg i hi).mono hc')) _).then fun is_positive c₃ hc₃ hpos => ?_
  refine (treeMult_builds (by simp [stepTypes]) (by simpa using num_banks_ne_zero hqueue)
    (forall₂_map hpos)).then fun o₁ c₄ hc₄ ho₁ => ?_
  refine (setAsOutput_makes ho₁).bind fun _ outs₁ c₅ hc₅ hout₁ => ?_
  have hc₂₄ := (hc₂.trans hc₃).trans hc₄
  refine (updateBanks_builds gl.num_banks_ (fun t ht => ((hsel₁ t ht).mono hc₂₄).appends hc₅)
    (fun i hi => ((hneg i (List.mem_range.mpr hi)).mono (hc₃.trans hc₄)).appends hc₅)
    (fun i hi => ((hpos i (List.mem_range.mpr hi)).mono hc₄).appends hc₅)).then
    fun new_selected c₆ hc₆ hbits => ?_
  have hnewsel : ∀ t < gl.txn_queue_.length,
      Has c₆ (new_selected t) fun f => c₆.value f (new_selected t) := by
    intro t ht
    obtain ⟨j, hj, hget⟩ := exists_position ht
    have hlt := (hbits _ (gl.ids_lt _ (txn_mem ht)).1 j hj).lt
    rw [hget] at hlt
    exact has_value hlt
  refine (mapM_builds (fun t f => 1 - c₆.value f (new_selected t)) _ fun t ht c' hc' =>
    negated_builds ((hnewsel t (List.mem_range.mp ht)).mono hc')).then fun is_not_selected c₇ hc₇ hnot => ?_
  have hne : is_not_selected ≠ [] := by
    intro hnil
    have hlen := hnot.length_eq
    rw [hnil, List.length_nil, List.length_map, List.length_range, eq_comm,
      List.length_eq_zero_iff] at hlen
    exact hqueue hlen
  refine (treeMult_builds (by simp [stepTypes]) hne hnot).then fun o₂ c₈ hc₈ ho₂ => ?_
  refine (setAsOutput_makes ho₂).bind fun _ outs₂ c₉ hc₉ hout₂ => .pure ?_
  have hlast : Appends stepTypes c₅ c₉ outs₂ := by
    simpa using (((hc₆.trans hc₇).trans hc₈).appends.trans hc₉)
  have hafter : Appends stepTypes c₆ c₉ outs₂ := by
    simpa using ((hc₇.trans hc₈).appends.trans hc₉)
  have hnb₉ : ∀ i < gl.num_banks_, Has c₉ (v i) fun f => c₁'.value f (v i) := fun i hi =>
    (((hnb i hi).mono hc₂₄).appends hc₅).appends hlast
  have hsel₉ : ∀ t < gl.txn_queue_.length, Has c₉ (selected t) fun f => c₁'.value f (selected t) :=
    fun t ht => (((hsel₁ t ht).mono hc₂₄).appends hc₅).appends hlast
  have hnew₉ : ∀ t < gl.txn_queue_.length,
      Has c₉ (new_selected t) fun f => c₆.value f (new_selected t) := fun t ht =>
    (hnewsel t ht).appends hafter
  exact ⟨fun i hi => ((((hnew i hi).mono hc₂₄).appends hc₅).appends hlast), fun t ht => (hnew₉ t ht).lt, o₁, o₂,
    by rw [hout₁, hout₂]; rfl, fun f ws hws => iterated_of_wires hws hnb₉ hsel₉ hnew₉
      (fun i hi j hj => (hbits i hi j hj).appends hafter) ((ho₁.appends hc₅).appends hlast)
      (ho₂.appends hc₉)⟩

theorem updateSelectedTransactions_makes {balance selected : ℕ → ℕ} (h : gl.Owns c)
    (hqueue : gl.txn_queue_ ≠ []) (hb : ∀ i < gl.num_banks_, balance i < c.size)
    (hsel : ∀ t < gl.txn_queue_.length, selected t < c.size) :
    ∃ new_balance c₁, gl.newBalances balance selected c = .ok (new_balance, c₁) ∧
      Makes stepTypes c (gl.updateSelectedTransactions balance selected) fun new_selected outs c' =>
        (∀ i < gl.num_banks_, new_balance i < c'.size) ∧
        (∀ t < gl.txn_queue_.length, new_selected t < c'.size) ∧
        ∃ o₁ o₂, outs = [o₁, o₂] ∧
          ∀ f ws, (∀ w < c'.size, ws w = c'.value f w) →
            gl.Iterated new_balance selected new_selected o₁ o₂ ws := by
  obtain ⟨new_balance, c₁, hm, hmakes⟩ := updateSelectedTransactions_nets h hqueue hb hsel
  refine ⟨new_balance, c₁, hm, hmakes.weaken fun new_selected outs c' _ ⟨hnew, hrest⟩ => ?_⟩
  exact ⟨fun i hi => (hnew i hi).lt, hrest⟩

/-! ## The first transactions of every queue -/

/-- The selected transactions of every bank are the first `kept` of its queue. -/
def SelectsFirst (gl : SoDoGridLock) (kept : ℕ → ℕ) (v : ℕ → R) : Prop :=
  ∀ i < gl.num_banks_, kept i ≤ (gl.bankQueue i).length ∧
    ∀ j < (gl.bankQueue i).length,
      v ((gl.bankQueue i).getD j 0) = if j < kept i then 1 else 0

/-- The last selected transaction of the banks with a negative balance is dropped, if there is one. -/
def dropLast (negative : ℕ → Bool) (kept : ℕ → ℕ) (i : ℕ) : ℕ :=
  if negative i then kept i - 1 else kept i

theorem nextBit_first {sel : ℕ → R} {n kept j : ℕ} (negative : Bool) (hkept : kept ≤ n)
    (h : ∀ k < n, sel k = if k < kept then 1 else 0) (hj : j < n) :
    nextBit sel (if negative then 1 else 0) (1 - if negative then 1 else 0) n j =
      if j < (if negative then kept - 1 else kept) then 1 else 0 := by
  rw [nextBit, h j hj]
  cases negative with
  | false =>
    by_cases hjk : j < kept <;> simp [hjk]
  | true =>
    by_cases hnext : j + 1 < kept
    · have hlt : j + 1 < n := by omega
      have hj' : j < kept - 1 := by omega
      simp [h _ hlt, hnext, hlt, hj', show j < kept by omega]
    · have hj' : ¬ j < kept - 1 := by omega
      have hzero : j + 1 < n → sel (j + 1) = 0 := fun hlt => by rw [h _ hlt, if_neg hnext]
      by_cases hlt : j + 1 < n
      · simp [hlt, hzero hlt, hj']
      · simp [hlt, hj']

/-- A product of bits is the bit of their conjunction. -/
theorem prod_bits {xs : List ℕ} {p : ℕ → Prop} [DecidablePred p] {bit : ℕ → R}
    (h : ∀ x ∈ xs, bit x = if p x then 1 else 0) :
    (xs.map bit).prod = if ∀ x ∈ xs, p x then 1 else 0 := by
  induction xs with
  | nil => simp
  | cons x xs ih =>
    rw [List.map_cons, List.prod_cons, h x List.mem_cons_self,
      ih fun y hy => h y (List.mem_cons_of_mem _ hy)]
    by_cases hx : p x <;> simp [hx]

/-- The sign bit as a test. -/
structure SignBit (negative : R → Bool) : Prop where
  msb_eq : ∀ x : R, CircuitRing.msb x = if negative x then 1 else 0

section Step
variable {negative : R → Bool} {new_balance selected new_selected : ℕ → ℕ} {o₁ o₂ : ℕ} {v : ℕ → R}
  {kept : ℕ → ℕ}

/-- One iteration keeps the shape; banks with a negative new balance drop their last one. -/
theorem Iterated.selectsFirst (h : gl.Iterated new_balance selected new_selected o₁ o₂ v)
    (hneg : SignBit negative) (hsel : gl.SelectsFirst kept fun t => v (selected t)) :
    gl.SelectsFirst (dropLast (fun i => negative (v (new_balance i))) kept)
      fun t => v (new_selected t) := by
  intro i hi
  obtain ⟨hkept, hbits⟩ := hsel i hi
  refine ⟨?_, fun j hj => ?_⟩
  · unfold dropLast
    split <;> omega
  · change v (new_selected _) = _
    rw [h.bits i hi j hj, hneg.msb_eq]
    exact nextBit_first _ hkept hbits hj

theorem Iterated.first_output (h : gl.Iterated new_balance selected new_selected o₁ o₂ v)
    (hneg : SignBit negative) :
    v o₁ = if ∀ i < gl.num_banks_, negative (v (new_balance i)) = false then 1 else 0 := by
  rw [h.all_positive, prod_bits (p := fun i => negative (v (new_balance i)) = false)]
  · simp only [List.mem_range]
  · intro i _
    rw [hneg.msb_eq]
    cases negative (v (new_balance i)) <;> simp

/-- The second output: no transaction is selected any more. -/
theorem Iterated.second_output [Nontrivial R]
    (h : gl.Iterated new_balance selected new_selected o₁ o₂ v)
    (hsel : gl.SelectsFirst kept fun t => v (new_selected t)) [DecidableEq R] :
    v o₂ = if ∀ t < gl.txn_queue_.length, v (new_selected t) = 0 then 1 else 0 := by
  rw [h.deadlock, prod_bits (p := fun t => v (new_selected t) = 0)]
  · simp only [List.mem_range]
  · intro t ht
    rw [List.mem_range] at ht
    obtain ⟨j, hj, hget⟩ := exists_position ht
    have hbit := (hsel _ (gl.ids_lt _ (txn_mem ht)).1).2 j hj
    rw [hget] at hbit
    change v (new_selected t) = _ at hbit
    rw [hbit]
    split <;> simp

end Step

end SoDoGridLock

end QSync
