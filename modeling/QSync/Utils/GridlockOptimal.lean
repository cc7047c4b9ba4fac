import Mathlib.Algebra.BigOperators.Ring.Finset
import Mathlib.Tactic.NormNum
import QSync.Foundations.Descent
import QSync.Utils.GridlockRuns

/-! # What the gridlock iteration settles on

Among the selections of first transactions of every queue that leave no bank with a negative balance there
is a greatest one. An iteration never passes below any of them, so with as many iterations as there are
transactions the selection is the greatest one, and the two outputs of the next call say that all balances
are positive and whether nothing is left to settle (`gridlock_settles`).
-/

namespace QSync
set_option autoImplicit false
set_option maxHeartbeats 250000

namespace SoDoGridLock
open Circuit

/-! ## Settling the first transactions -/

section Queues
variable (gl : SoDoGridLock)

/-- The place of a transaction in the queue of its bank. -/
def rank (t : ℕ) : ℕ := (gl.bankQueue (gl.txn t).src).idxOf t

/-- The transaction is one of the first `kept i` of its bank `i`. -/
def keeps (kept : ℕ → ℕ) (t : ℕ) : Bool := decide (gl.rank t < kept (gl.txn t).src)

def whole (i : ℕ) : ℕ := (gl.bankQueue i).length

/-- What bank `i` has after paying and receiving the transactions that are kept. -/
def settled (balances amt kept : ℕ → ℕ) (i : ℕ) : ℤ :=
  balances i - ∑ t ∈ Finset.range gl.txn_queue_.length with (gl.txn t).src = i ∧ gl.keeps kept t, (amt t : ℤ) +
    ∑ t ∈ Finset.range gl.txn_queue_.length with (gl.txn t).dest = i ∧ gl.keeps kept t, (amt t : ℤ)

def Feasible (balances amt kept : ℕ → ℕ) : Prop := ∀ i, 0 ≤ gl.settled balances amt kept i

/-- One iteration, on numbers. -/
def settleStep (balances amt kept : ℕ → ℕ) : ℕ → ℕ :=
  dropLast (fun i => decide (gl.settled balances amt kept i < 0)) kept

end Queues

section Settling
variable {gl : SoDoGridLock} {balances amt kept kept' : ℕ → ℕ} {i t : ℕ}

theorem keeps_mono (h : kept' ≤ kept) (ht : gl.keeps kept' t = true) : gl.keeps kept t = true :=
  decide_eq_true ((of_decide_eq_true ht).trans_le (h _))

/-- A bank that pays as much, while others pay less, has no more. -/
theorem settled_mono (h : kept' ≤ kept) (hi : kept' i = kept i) :
    gl.settled balances amt kept' i ≤ gl.settled balances amt kept i := by
  have hpaid : ∑ t ∈ Finset.range gl.txn_queue_.length with (gl.txn t).src = i ∧ gl.keeps kept' t,
      (amt t : ℤ) = ∑ t ∈ Finset.range gl.txn_queue_.length with (gl.txn t).src = i ∧ gl.keeps kept t,
      (amt t : ℤ) := by
    congr 1
    apply Finset.filter_congr
    intro t _
    apply and_congr_right
    rintro rfl
    rw [keeps, keeps, hi]
  have hreceived : ∑ t ∈ Finset.range gl.txn_queue_.length with (gl.txn t).dest = i ∧ gl.keeps kept' t,
      (amt t : ℤ) ≤ ∑ t ∈ Finset.range gl.txn_queue_.length with (gl.txn t).dest = i ∧ gl.keeps kept t,
      (amt t : ℤ) := by
    apply Finset.sum_le_sum_of_subset_of_nonneg
    · intro t ht
      rw [Finset.mem_filter] at ht ⊢
      exact ⟨ht.1, ht.2.1, keeps_mono h ht.2.2⟩
    · exact fun t _ _ => Int.natCast_nonneg _
  rw [settled, settled, hpaid]
  omega

theorem settled_nonneg (h : kept i = 0) : 0 ≤ gl.settled balances amt kept i := by
  have hpaid : (Finset.range gl.txn_queue_.length).filter
      (fun t => (gl.txn t).src = i ∧ gl.keeps kept t = true) = ∅ := by
    apply Finset.filter_eq_empty_iff.mpr
    rintro t _ ⟨rfl, ht⟩
    have hlt := of_decide_eq_true ht
    omega
  have hreceived : 0 ≤ ∑ t ∈ Finset.range gl.txn_queue_.length with
      (gl.txn t).dest = i ∧ gl.keeps kept t, (amt t : ℤ) :=
    Finset.sum_nonneg fun t _ => Int.natCast_nonneg _
  rw [settled, hpaid, Finset.sum_empty]
  omega

theorem dropLast_le (negative : ℕ → Bool) (kept : ℕ → ℕ) : dropLast negative kept ≤ kept := by
  intro i
  change dropLast negative kept i ≤ kept i
  rw [dropLast]
  split <;> omega

/-- An iteration does not pass below a feasible selection. -/
theorem le_settleStep (hy : gl.Feasible balances amt kept') (hle : kept' ≤ kept) :
    kept' ≤ gl.settleStep balances amt kept := by
  intro i
  have hi : kept' i ≤ kept i := hle i
  change kept' i ≤ gl.settleStep balances amt kept i
  rw [settleStep, dropLast]
  split
  · next hneg =>
    -- a bank that keeps as many would have at most the same negative balance
    have hne : kept' i ≠ kept i := fun heq =>
      absurd (of_decide_eq_true hneg) (not_lt.mpr ((hy i).trans (settled_mono hle heq)))
    omega
  · exact hi

theorem feasible_of_rest (hrest : gl.settleStep balances amt kept = kept) :
    gl.Feasible balances amt kept := by
  intro i
  by_contra hneg
  have hi := congrFun hrest i
  rw [settleStep, dropLast, if_pos (decide_eq_true (not_le.mp hneg))] at hi
  exact hneg (settled_nonneg (by omega))

theorem bankQueue_eq_nil (hi : gl.num_banks_ ≤ i) : gl.bankQueue i = [] := by
  apply List.eq_nil_iff_forall_not_mem.mpr
  intro t ht
  obtain ⟨hlt, rfl⟩ := mem_bankQueue.mp ht
  exact absurd (gl.ids_lt _ (txn_mem hlt)).1 (not_lt.mpr hi)

/-- The number of transactions kept goes down with every iteration that changes anything. -/
theorem settleStep_descends (gl : SoDoGridLock) (balances amt : ℕ → ℕ) :
    Descends (gl.settleStep balances amt) (fun kept => ∑ i ∈ Finset.range gl.num_banks_, kept i)
      gl.whole where
  le x _ := dropLast_le _ x
  shrinks x hx hne := by
    obtain ⟨i, hi⟩ := Function.ne_iff.mp hne
    have hle := dropLast_le (fun i => decide (gl.settled balances amt x i < 0)) x
    have hbank : i < gl.num_banks_ := by
      by_contra hge
      have hzero := hx i
      rw [whole, bankQueue_eq_nil (not_lt.mp hge), List.length_nil] at hzero
      have hstep := hle i
      exact hi ((Nat.le_zero.mp (hstep.trans hzero)).trans (Nat.le_zero.mp hzero).symm)
    exact Finset.sum_lt_sum (fun j _ => hle j)
      ⟨i, Finset.mem_range.mpr hbank, lt_of_le_of_ne (hle i) hi⟩

theorem sum_whole (gl : SoDoGridLock) :
    ∑ i ∈ Finset.range gl.num_banks_, gl.whole i = gl.txn_queue_.length := by
  have hcard : ∀ i, gl.whole i =
      ((Finset.range gl.txn_queue_.length).filter fun t => (gl.txn t).src = i).card := by
    intro i
    rw [whole, ← List.toFinset_card_of_nodup (gl.bankQueue_nodup i)]
    congr 1
    ext t
    rw [List.mem_toFinset, mem_bankQueue, Finset.mem_filter, Finset.mem_range]
  simp only [hcard]
  rw [← Finset.card_eq_sum_card_fiberwise, Finset.card_range]
  intro t ht
  exact Finset.mem_coe.mpr (Finset.mem_range.mpr
    (gl.ids_lt _ (txn_mem (Finset.mem_range.mp (Finset.mem_coe.mp ht)))).1)

theorem iterate_greatest (gl : SoDoGridLock) (balances amt : ℕ → ℕ) {n : ℕ}
    (hn : gl.txn_queue_.length ≤ n) :
    IsGreatest {kept | gl.Feasible balances amt kept ∧ kept ≤ gl.whole}
      ((gl.settleStep balances amt)^[n] gl.whole) :=
  (settleStep_descends gl balances amt).greatest (fun _ _ hy hle => le_settleStep hy hle)
    (fun _ _ hrest => feasible_of_rest hrest) ((sum_whole gl).trans_le hn)

end Settling

/-! ## The circuit -/

/-- The top bit of a word is the sign of the number it stands for. -/
theorem word_negative {z : ℤ} (hlow : -2 ^ 63 ≤ z) (hhigh : z < 2 ^ 63) :
    decide (2 ^ 63 ≤ (z : U64).val) = decide (z < 0) := by
  have hval : ((z : U64).val : ℤ) = z % 2 ^ 64 := ZMod.val_intCast z
  apply decide_eq_decide.mpr
  constructor <;> intro h <;> omega

section Circuits
variable {gl : SoDoGridLock} {balances amt kept : ℕ → ℕ} {i : ℕ}

theorem SelectsFirst.congr {kept' : ℕ → ℕ} {v : ℕ → U64} (h : gl.SelectsFirst kept v)
    (heq : ∀ i < gl.num_banks_, kept i = kept' i) : gl.SelectsFirst kept' v := by
  intro i hi
  rw [← heq i hi]
  exact h i hi

/-- What a selection of first transactions is at each transaction. -/
theorem SelectsFirst.bit {v : ℕ → U64} (h : gl.SelectsFirst kept v) {t : ℕ}
    (ht : t < gl.txn_queue_.length) : v t = if gl.keeps kept t = true then 1 else 0 := by
  obtain ⟨j, hj, hget⟩ := exists_position ht
  have hbit := (h _ (gl.ids_lt _ (txn_mem ht)).1).2 j hj
  rw [hget] at hbit
  have helem : (gl.bankQueue (gl.txn t).src)[j] = t := (List.getD_eq_getElem _ 0 hj).symm.trans hget
  have hrank : gl.rank t = j := by
    have hidx := (gl.bankQueue_nodup (gl.txn t).src).idxOf_getElem j hj
    rwa [helem] at hidx
  rw [hbit, keeps, hrank]
  simp

theorem settled_bounds (hfit : balances i + ∑ t ∈ Finset.range gl.txn_queue_.length, amt t < 2 ^ 63) :
    -2 ^ 63 ≤ gl.settled balances amt kept i ∧ gl.settled balances amt kept i < 2 ^ 63 := by
  have hpart : ∀ p : ℕ → Prop, ∀ _ : DecidablePred p,
      0 ≤ ∑ t ∈ Finset.range gl.txn_queue_.length with p t, (amt t : ℤ) ∧
      ∑ t ∈ Finset.range gl.txn_queue_.length with p t, (amt t : ℤ) ≤
        (∑ t ∈ Finset.range gl.txn_queue_.length, amt t : ℕ) := by
    intro p _
    rw [Nat.cast_sum]
    exact ⟨Finset.sum_nonneg fun t _ => Int.natCast_nonneg _,
      Finset.sum_le_sum_of_subset_of_nonneg (Finset.filter_subset _ _)
        fun t _ _ => Int.natCast_nonneg _⟩
  have hpaid := hpart (fun t => (gl.txn t).src = i ∧ gl.keeps kept t = true) inferInstance
  have hreceived := hpart (fun t => (gl.txn t).dest = i ∧ gl.keeps kept t = true) inferInstance
  rw [settled]
  omega

/-- The word that the circuit computes for a new balance. -/
theorem netted_settled {balance sel x : ℕ → U64} (hsel : gl.SelectsFirst kept sel)
    (hbal : balance i = balances i) (hamt : ∀ t < gl.txn_queue_.length, x t = amt t) :
    gl.netted balance sel x i = (gl.settled balances amt kept i : U64) := by
  have hsum : ∀ p : ℕ → Prop, ∀ _ : DecidablePred p,
      ∑ t ∈ Finset.range gl.txn_queue_.length with p t, x t =
        ((∑ t ∈ Finset.range gl.txn_queue_.length with p t, (amt t : ℤ) : ℤ) : U64) := by
    intro p _
    rw [Int.cast_sum]
    apply Finset.sum_congr rfl
    intro t ht
    rw [hamt t (Finset.mem_range.mp (Finset.mem_of_mem_filter t ht)), Int.cast_natCast]
  rw [netted_selected fun t ht => hsel.bit ht, settled, hbal, hsum, hsum]
  push_cast
  rfl

/-- An assignment gives the balances and the amounts. -/
structure Holds (gl : SoDoGridLock) (balances amt : ℕ → ℕ) (balance : ℕ → ℕ) (c : Circuit U64)
    (f : ℕ → U64) : Prop where
  balance : ∀ i < gl.num_banks_, c.value f (balance i) = balances i
  amount : ∀ t < gl.txn_queue_.length, c.value f (gl.txn t).amt = amt t

theorem Holds.appends {balance : ℕ → ℕ} {c c' : Circuit U64} {f : ℕ → U64} {outs : List ℕ}
    {T : GateType → Prop} (hf : gl.Holds balances amt balance c f) (h : gl.Owns c)
    (hb : ∀ i < gl.num_banks_, balance i < c.size) (hc : Appends T c c' outs) :
    gl.Holds balances amt balance c' f where
  balance i hi := by
    rw [((has_value (hb i hi)).appends hc).value_eq f]
    exact hf.balance i hi
  amount t ht := by
    rw [((has_value (h.amt_lt _ (txn_mem ht))).appends hc).value_eq f]
    exact hf.amount t ht

theorem SelectsFirst.none_iff {v : ℕ → U64} (h : gl.SelectsFirst kept v) :
    (∀ t < gl.txn_queue_.length, v t = 0) ↔ ∀ i < gl.num_banks_, kept i = 0 := by
  constructor
  · intro hzero i hi
    by_contra hpos
    obtain ⟨hle, hbits⟩ := h i hi
    have hlt : 0 < (gl.bankQueue i).length := by omega
    have hbit := hbits 0 hlt
    rw [hzero _ (mem_bankQueue.mp (getD_mem hlt)).1, if_pos (Nat.pos_of_ne_zero hpos)] at hbit
    exact zero_ne_one hbit
  · intro hzero t ht
    rw [h.bit ht, if_neg]
    rw [keeps, hzero _ (gl.ids_lt _ (txn_mem ht)).1]
    simp

/-- One iteration of the circuit is one on numbers. -/
theorem Iterated.settles {new_balance selected new_selected : ℕ → ℕ} {o₁ o₂ : ℕ} {v : ℕ → U64}
    {balance sel x : ℕ → U64} (h : gl.Iterated new_balance selected new_selected o₁ o₂ v)
    (hsel : gl.SelectsFirst kept sel) (hsame : ∀ t < gl.txn_queue_.length, v (selected t) = sel t)
    (hnet : ∀ i < gl.num_banks_, v (new_balance i) = gl.netted balance sel x i)
    (hbal : ∀ i < gl.num_banks_, balance i = balances i)
    (hamt : ∀ t < gl.txn_queue_.length, x t = amt t)
    (hfit : ∀ i < gl.num_banks_,
      balances i + ∑ t ∈ Finset.range gl.txn_queue_.length, amt t < 2 ^ 63) :
    gl.SelectsFirst (gl.settleStep balances amt kept) (fun t => v (new_selected t)) ∧
    (v o₁ = if ∀ i < gl.num_banks_, 0 ≤ gl.settled balances amt kept i then 1 else 0) ∧
    (v o₂ = if ∀ i < gl.num_banks_, gl.settleStep balances amt kept i = 0 then 1 else 0) := by
  have hsign : ∀ i < gl.num_banks_, decide (2 ^ 63 ≤ (v (new_balance i)).val) =
      decide (gl.settled balances amt kept i < 0) := by
    intro i hi
    rw [hnet i hi, netted_settled hsel (hbal i hi) hamt]
    have hbounds : -2 ^ 63 ≤ gl.settled balances amt kept i ∧ gl.settled balances amt kept i < 2 ^ 63 :=
      settled_bounds (hfit i hi)
    exact word_negative hbounds.1 hbounds.2
  have hfirst : gl.SelectsFirst kept fun t => v (selected t) := fun i hi =>
    ⟨(hsel i hi).1, fun j hj =>
      (hsame _ (mem_bankQueue.mp (getD_mem hj)).1).trans ((hsel i hi).2 j hj)⟩
  have hnext : gl.SelectsFirst (gl.settleStep balances amt kept) fun t => v (new_selected t) := by
    refine (h.selectsFirst signBit_word hfirst).congr fun i hi => ?_
    rw [dropLast, settleStep, dropLast, hsign i hi]
  refine ⟨hnext, ?_, ?_⟩
  · rw [h.first_output signBit_word]
    apply if_congr _ rfl rfl
    apply forall₂_congr
    intro i hi
    rw [hsign i hi, decide_eq_false_iff_not, not_lt]
  · rw [h.second_output hnext]
    exact if_congr hnext.none_iff rfl rfl

/-- A call, on the selection of first transactions that it is given. -/
theorem update_settles {c : Circuit U64} {balance selected : ℕ → ℕ} (h : gl.Owns c)
    (hqueue : gl.txn_queue_ ≠ []) (hb : ∀ i < gl.num_banks_, balance i < c.size)
    (hsel : ∀ t < gl.txn_queue_.length, selected t < c.size)
    (hfit : ∀ i < gl.num_banks_,
      balances i + ∑ t ∈ Finset.range gl.txn_queue_.length, amt t < 2 ^ 63) :
    Makes stepTypes c (gl.updateSelectedTransactions balance selected) fun new_selected outs c' =>
      (∀ t < gl.txn_queue_.length, new_selected t < c'.size) ∧ ∃ o₁ o₂, outs = [o₁, o₂] ∧
        ∀ f kept, gl.Holds balances amt balance c f →
          gl.SelectsFirst kept (fun t => c.value f (selected t)) →
          gl.SelectsFirst (gl.settleStep balances amt kept) (fun t => c'.value f (new_selected t)) ∧
          (c'.value f o₁ = if ∀ i < gl.num_banks_, 0 ≤ gl.settled balances amt kept i then 1 else 0) ∧
          (c'.value f o₂ = if ∀ i < gl.num_banks_, gl.settleStep balances amt kept i = 0 then 1
            else 0) := by
  obtain ⟨new_balance, c₁, -, hmakes⟩ := updateSelectedTransactions_nets h hqueue hb hsel
  refine hmakes.weaken fun new_selected outs c' hc' ⟨hnew, hlt, o₁, o₂, houts, hit⟩ =>
    ⟨hlt, o₁, o₂, houts, fun f kept hf hkept => ?_⟩
  refine (hit f (c'.value f) fun _ _ => rfl).settles hkept (fun t ht => ?_)
    (fun i hi => (hnew i hi).value_eq f) hf.balance hf.amount hfit
  exact ((has_value (hsel t ht)).appends hc').value_eq f

theorem iterate_settles {c : Circuit U64} {balance selected : ℕ → ℕ} (h : gl.Owns c)
    (hqueue : gl.txn_queue_ ≠ []) (hb : ∀ i < gl.num_banks_, balance i < c.size)
    (hsel : ∀ t < gl.txn_queue_.length, selected t < c.size)
    (hfit : ∀ i < gl.num_banks_,
      balances i + ∑ t ∈ Finset.range gl.txn_queue_.length, amt t < 2 ^ 63) (iterations : ℕ) :
    Makes stepTypes c (gl.iterate balance selected iterations) fun sel _ c' =>
      (∀ t < gl.txn_queue_.length, sel t < c'.size) ∧
        ∀ f, gl.Holds balances amt balance c f →
          (∀ t < gl.txn_queue_.length, c.value f (selected t) = 1) →
          gl.SelectsFirst ((gl.settleStep balances amt)^[iterations] gl.whole) fun t =>
            c'.value f (sel t) := by
  induction iterations with
  | zero =>
    refine .pure ⟨hsel, fun f _ hall i _ => ⟨le_rfl, fun j hj => ?_⟩⟩
    rw [Function.iterate_zero, id_eq, whole, if_pos hj]
    exact hall _ (mem_bankQueue.mp (getD_mem hj)).1
  | succ n ih =>
    refine ih.bind fun sel outs c' hc' ⟨hlt, hkept⟩ => ?_
    refine (update_settles (h.appends (hc'.types_mono fun _ => .inr)) hqueue
      (fun i hi => (hb i hi).trans_le hc'.size_le) hlt hfit).weaken
      fun sel' outs' c'' _ ⟨hlt', o₁, o₂, _, hnext⟩ => ⟨hlt', fun f hf hall => ?_⟩
    rw [Function.iterate_succ_apply']
    exact (hnext f _ (hf.appends h hb hc') (hkept f hf hall)).1

end Circuits

/-! ## Sessions -/

/-- The amounts of transactions as words. -/
def words (txns : List (ℕ × ℕ × ℕ)) : List (ℕ × ℕ × U64) :=
  txns.map fun txn => (txn.1, txn.2.1, (txn.2.2 : U64))

def amount (txns : List (ℕ × ℕ × ℕ)) (t : ℕ) : ℕ := (txns.getD t (0, 0, 0)).2.2

section Sessions
variable {gl : SoDoGridLock} {txns : List (ℕ × ℕ × ℕ)}

theorem sum_amount (txns : List (ℕ × ℕ × ℕ)) :
    ∑ t ∈ Finset.range txns.length, amount txns t = (txns.map fun txn => txn.2.2).sum := by
  induction txns with
  | nil => rfl
  | cons txn txns ih =>
    rw [List.length_cons, Finset.sum_range_succ', List.map_cons, List.sum_cons, add_comm, ← ih]
    rfl

theorem Queued.length_eq {imap : InputMap U64} (h : gl.Queued imap (words txns)) :
    gl.txn_queue_.length = txns.length := by
  have hlen := congrArg List.length h
  rwa [List.length_map, words, List.length_map] at hlen

theorem Queued.amount_eq {imap : InputMap U64} (h : gl.Queued imap (words txns)) {t : ℕ}
    (ht : t < gl.txn_queue_.length) : imap.val (gl.txn t).amt = (amount txns t : U64) := by
  have hget := congrArg (fun l => l[t]?) h
  have ht' : t < txns.length := h.length_eq ▸ ht
  simp only [words, List.getElem?_map, List.getElem?_eq_getElem ht, List.getElem?_eq_getElem ht',
    Option.map_some, Option.some.injEq, Prod.mk.injEq] at hget
  rw [txn, amount, List.getD_eq_getElem _ _ ht, List.getD_eq_getElem _ _ ht', hget.2.2]

/-- A session is evaluated on the input map it filled. -/
theorem session_evaluates {imap : InputMap U64} {c c' : Circuit U64} {outs : List ℕ}
    (hc : Extends (· = .kInp) empty c) (hown : gl.Owns c) (hkeys : AllKeys imap c)
    (hc' : Appends stepTypes c c' outs) :
    ∃ ws, c'.evaluateWires imap = .ok ws ∧ (∀ w < c'.size, ws w = c'.value imap.val w) ∧
      c'.evaluate imap = .ok (outs.map (c'.value imap.val)) := by
  have himap : imap = c'.assign imap.val := by
    rw [assign, inputWires_of_steps hc', inputWires_of_inputs hc, ← hkeys]
  have heval : ∀ g ∈ c'.gates_, g.type ≠ .kRelu ∧ g.type ≠ .kTrdotp := fun g hg =>
    gridlockTypes_evaluable _ ((hown.appends (hc'.types_mono fun _ => .inr)).types g hg)
  obtain ⟨ws, hws, hval⟩ := c'.evaluateWires_eq imap.val heval
  have hevaluate := c'.evaluate_eq imap.val heval
  rw [← himap] at hws hevaluate
  have houts : c'.outputs_ = outs := by
    rw [hc'.outputs_eq, hc.outputs_eq]
    rfl
  exact ⟨ws, hws, hval, houts ▸ hevaluate⟩

/-- With as many iterations as there are transactions before it, a call finds all balances positive and
selects the greatest feasible selection, for any queue, balances and amounts whose sums fit a word. -/
theorem gridlock_settles (num_banks : ℕ) (txns : List (ℕ × ℕ × ℕ)) (hne : txns ≠ [])
    (hids : ∀ txn ∈ txns, txn.1 < num_banks ∧ txn.2.1 < num_banks) (balances : ℕ → ℕ)
    (hfit : ∀ i < num_banks, balances i + (txns.map fun txn => txn.2.2).sum < 2 ^ 63)
    {iterations : ℕ} (hiterations : txns.length ≤ iterations) :
    ∃ (s : Session U64) (c₀ c' : Circuit U64) (new_selected : ℕ → ℕ) (ws : ℕ → U64) (outs : List U64)
      (kept : ℕ → ℕ),
      openSession num_banks (words txns) (fun i => balances i) empty = .ok (s, c₀) ∧
      s.gl.num_banks_ = num_banks ∧ s.gl.Queued s.imap (words txns) ∧
      s.gl.iterate s.balance s.selected (iterations + 1) c₀ = .ok (new_selected, c') ∧
      c'.evaluateWires s.imap = .ok ws ∧
      c'.evaluate s.imap = .ok (outs ++ [1, if ∀ i < num_banks, kept i = 0 then 1 else 0]) ∧
      s.gl.SelectsFirst kept (fun t => ws (new_selected t)) ∧
      IsGreatest {kept | s.gl.Feasible balances (amount txns) kept ∧ kept ≤ s.gl.whole} kept := by
  have hids' : ∀ txn ∈ words txns, txn.1 < num_banks ∧ txn.2.1 < num_banks := by
    intro txn htxn
    obtain ⟨txn, hmem, rfl⟩ := List.mem_map.mp htxn
    exact hids txn hmem
  obtain ⟨s, c₀, hopen, hc₀, hbanks, hown, hkeys, hqueue, hbal, hsel⟩ :=
    openSession_builds (fun i => (balances i : U64)) hids'
  have hqne : s.gl.txn_queue_ ≠ [] := fun hnil =>
    hne (List.length_eq_zero_iff.mp (hqueue.length_eq.symm.trans (List.length_eq_zero_iff.mpr hnil)))
  have hballt : ∀ i < s.gl.num_banks_, s.balance i < c₀.size := fun i hi => (hbal i (hbanks ▸ hi)).1
  have hfit' : ∀ i < s.gl.num_banks_,
      balances i + ∑ t ∈ Finset.range s.gl.txn_queue_.length, amount txns t < 2 ^ 63 := by
    intro i hi
    rw [hqueue.length_eq, sum_amount]
    exact hfit i (hbanks ▸ hi)
  have hholds : s.gl.Holds balances (amount txns) s.balance c₀ s.imap.val := by
    constructor
    · intro i hi
      rw [input_value hc₀ (hballt i hi), (hbal i (hbanks ▸ hi)).2]
    · intro t ht
      rw [input_value hc₀ (hown.amt_lt _ (txn_mem ht)), hqueue.amount_eq ht]
  have hinit : ∀ t < s.gl.txn_queue_.length, c₀.value s.imap.val (s.selected t) = 1 := fun t ht => by
    rw [input_value hc₀ (hsel t ht).1, (hsel t ht).2]
  obtain ⟨selected, outs, c, hit, hc, hlt, hkept⟩ := iterate_settles hown hqne hballt
    (fun t ht => (hsel t ht).1) hfit' iterations
  obtain ⟨new_selected, outs', c', hup, hc', hlt', o₁, o₂, rfl, hnext⟩ := update_settles
    (hown.appends (hc.types_mono fun _ => .inr)) hqne (fun i hi => (hballt i hi).trans_le hc.size_le)
    hlt hfit'
  have hgreatest := iterate_greatest s.gl balances (amount txns)
    (hqueue.length_eq.trans_le hiterations)
  have hrest := (settleStep_descends s.gl balances (amount txns)).iterate_fixed
    ((sum_whole s.gl).trans_le (hqueue.length_eq.trans_le hiterations))
  generalize (s.gl.settleStep balances (amount txns))^[iterations] s.gl.whole = kept at *
  obtain ⟨hfirst, ho₁, ho₂⟩ := hnext s.imap.val kept (hholds.appends hown hballt hc)
    (hkept s.imap.val hholds hinit)
  rw [hrest] at hfirst ho₂
  rw [if_pos fun i _ => hgreatest.1.1 i] at ho₁
  obtain ⟨ws, hws, hval, hevaluate⟩ := session_evaluates hc₀ hown hkeys (hc.trans hc')
  refine ⟨s, c₀, c', new_selected, ws, outs.map (c'.value s.imap.val), kept, hopen, hbanks, hqueue,
    (bind_ok hit).trans hup, hws, ?_, fun i hi => ⟨(hfirst i hi).1, fun j hj => ?_⟩, hgreatest⟩
  · rw [hevaluate, List.map_append, List.map_cons, List.map_cons, List.map_nil, ho₁, ho₂, hbanks]
  · have hmem := (mem_bankQueue.mp (getD_mem hj)).1
    exact (hval _ (hlt' _ hmem)).trans ((hfirst i hi).2 j hj)

/-- Three banks that owe each other more than they have. -/
theorem gridlock_settles_three :
    ∃ (s : Session U64) (c₀ c' : Circuit U64) (new_selected : ℕ → ℕ) (outs : List U64) (o₂ : U64),
      openSession 3 (words [(0, 1, 25), (1, 2, 30), (2, 0, 35)])
          (fun i => (([20, 10, 5].getD i 0 : ℕ) : U64)) empty = .ok (s, c₀) ∧
        s.gl.iterate s.balance s.selected 4 c₀ = .ok (new_selected, c') ∧
        c'.evaluate s.imap = .ok (outs ++ [1, o₂]) := by
  obtain ⟨s, c₀, c', new_selected, ws, outs, kept, hopen, -, -, hit, -, heval, -⟩ :=
    gridlock_settles 3 [(0, 1, 25), (1, 2, 30), (2, 0, 35)] (by simp) (by simp)
      (fun i => [20, 10, 5].getD i 0) (by decide) le_rfl
  exact ⟨s, c₀, c', new_selected, outs, _, hopen, hit, heval⟩

end Sessions

end SoDoGridLock
end QSync
