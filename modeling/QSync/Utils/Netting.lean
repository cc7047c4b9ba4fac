import Mathlib.Algebra.BigOperators.Group.Finset.Basic
import QSync.Utils.BuilderRules
import QSync.Utils.LiquidityMatching

/-! # Netting conserves the balances

What `SoDoGridLock::newBalances` computes: of each bank's balance, less what the bank sends and plus
what it receives in the selected transactions. Every transaction has one sender and one receiver,
so the total stays the same.
-/

namespace QSync
set_option autoImplicit false
set_option maxHeartbeats 250000

/-! ## Amounts by bank -/

section Amounts
variable {R : Type} [CommRing R]

/-- What bank `i` has in the first `n` transactions. -/
def amounts (bank : ℕ → ℕ) (x : ℕ → R) (n i : ℕ) : R := ∑ t ∈ Finset.range n with bank t = i, x t

@[simp] theorem amounts_zero (bank : ℕ → ℕ) (x : ℕ → R) (i : ℕ) : amounts bank x 0 i = 0 := by
  simp [amounts]

theorem amounts_succ (bank : ℕ → ℕ) (x : ℕ → R) (n i : ℕ) :
    amounts bank x (n + 1) i = amounts bank x n i + if bank n = i then x n else 0 := by
  rw [amounts, amounts, Finset.sum_filter, Finset.sum_filter, Finset.sum_range_succ]

/-- Every transaction is counted for exactly one bank. -/
theorem sum_amounts {bank : ℕ → ℕ} (x : ℕ → R) {n banks : ℕ} (h : ∀ t < n, bank t < banks) :
    ∑ i ∈ Finset.range banks, amounts bank x n i = ∑ t ∈ Finset.range n, x t :=
  Finset.sum_fiberwise_of_maps_to
    (fun t ht => Finset.mem_range.mpr (h t (Finset.mem_range.mp ht))) x

theorem amounts_congr {bank : ℕ → ℕ} {x y : ℕ → R} {n : ℕ} (h : ∀ t < n, x t = y t) (i : ℕ) :
    amounts bank x n i = amounts bank y n i :=
  Finset.sum_congr rfl fun t ht => h t (Finset.mem_range.mp (Finset.mem_filter.mp ht).1)

/-- Counting only the selected transactions. -/
theorem amounts_selected (bank : ℕ → ℕ) (sel : ℕ → Bool) (x : ℕ → R) (n i : ℕ) :
    amounts bank (fun t => (if sel t then 1 else 0) * x t) n i =
      ∑ t ∈ Finset.range n with bank t = i ∧ sel t, x t := by
  rw [amounts, ← Finset.filter_filter, Finset.sum_filter (fun t => sel t = true)]
  exact Finset.sum_congr rfl fun t _ => by split <;> simp

end Amounts

namespace SoDoGridLock
open Circuit
variable {R : Type} [CircuitRing R] {T : GateType → Prop} {c : Circuit R} {gl : SoDoGridLock}

/-- The gates of an iteration. -/
def stepTypes (t : GateType) : Prop :=
  t = .kMul ∨ t = .kAdd ∨ t = .kSub ∨ t = .kMsb ∨ t = .kConstMul ∨ t = .kConstAdd

/-- The gates of the object's circuit. -/
def gridlockTypes (t : GateType) : Prop := t = .kInp ∨ stepTypes t

theorem gridlockTypes_evaluable : ∀ t, gridlockTypes t → t ≠ .kRelu ∧ t ≠ .kTrdotp := by
  rintro t (rfl | rfl | rfl | rfl | rfl | rfl | rfl) <;> simp

theorem txn_mem {t : ℕ} (ht : t < gl.txn_queue_.length) : gl.txn t ∈ gl.txn_queue_ := by
  rw [txn, List.getD_eq_getElem _ _ ht]
  exact List.getElem_mem ht

/-! ## Slots -/

/-- A slot of `vs` or `vr` holds a wire with the value `v`, or none when nothing was added. -/
def SlotHas (c : Circuit R) (slot : ℤ) (v : (ℕ → R) → R) : Prop :=
  slot = NO_WIRE ∧ (∀ f, v f = 0) ∨ ∃ w : ℕ, slot = w ∧ Has c w v

theorem natCast_ne_noWire (w : ℕ) : (w : ℤ) ≠ NO_WIRE := by
  unfold NO_WIRE
  omega

theorem SlotHas.mono {slot : ℤ} {v : (ℕ → R) → R} {c' : Circuit R} (h : SlotHas c slot v)
    (hc : Extends T c c') : SlotHas c' slot v := by
  obtain h | ⟨w, hslot, hw⟩ := h
  · exact .inl h
  · exact .inr ⟨w, hslot, hw.mono hc⟩

theorem SlotHas.congr {slot : ℤ} {v v' : (ℕ → R) → R} (h : SlotHas c slot v)
    (hv : ∀ f, v f = v' f) : SlotHas c slot v' := by
  obtain ⟨hslot, h⟩ | ⟨w, hslot, hw⟩ := h
  · exact .inl ⟨hslot, fun f => (hv f).symm.trans (h f)⟩
  · exact .inr ⟨w, hslot, hw.congr hv⟩

/-- The first amount of a bank takes the slot, the next ones are added to it. -/
theorem accumulate_builds {slots : ℕ → ℤ} {bank w : ℕ} {v : ℕ → (ℕ → R) → R} {x : (ℕ → R) → R}
    (ht : T .kAdd) (h : ∀ i, SlotHas c (slots i) (v i)) (hw : Has c w x) :
    Builds T c (accumulate slots bank w) fun slots' c' =>
      ∀ i, SlotHas c' (slots' i) fun f => v i f + if bank = i then x f else 0 := by
  have hother : ∀ {c' : Circuit R} {slot : ℤ}, Extends T c c' →
      SlotHas c' slot (fun f => v bank f + x f) →
      ∀ i, SlotHas c' (Function.update slots bank slot i) fun f => v i f + if bank = i then x f else 0 := by
    intro c' slot hc hslot i
    by_cases hi : bank = i
    · subst hi
      rw [Function.update_self]
      exact hslot.congr fun f => by rw [if_pos rfl]
    · rw [Function.update_of_ne (Ne.symm hi)]
      exact ((h i).mono hc).congr fun f => by rw [if_neg hi, add_zero]
  rw [accumulate]
  obtain ⟨hslot, hzero⟩ | ⟨w', hslot, hw'⟩ := h bank
  · rw [if_pos hslot]
    refine .pure (hother (.refl c) (.inr ⟨w, rfl, hw.congr fun f => ?_⟩))
    rw [hzero, zero_add]
  · rw [if_neg (hslot ▸ natCast_ne_noWire w')]
    rw [hslot, Int.toNat_natCast]
    exact (addAdd_builds hw' hw ht).bind fun sum c' hc hsum => .pure (hother hc (.inr ⟨sum, rfl, hsum⟩))

/-! ## The new balances -/

/-- The new balance of bank `i`. -/
def netted (gl : SoDoGridLock) (balance sel amt : ℕ → R) (i : ℕ) : R :=
  balance i - amounts (fun t => (gl.txn t).src) (fun t => sel t * amt t) gl.txn_queue_.length i +
    amounts (fun t => (gl.txn t).dest) (fun t => sel t * amt t) gl.txn_queue_.length i

theorem netted_congr {balance balance' sel sel' amt amt' : ℕ → R} {i : ℕ}
    (hb : balance i = balance' i)
    (h : ∀ t < gl.txn_queue_.length, sel t * amt t = sel' t * amt' t) :
    gl.netted balance sel amt i = gl.netted balance' sel' amt' i := by
  rw [netted, netted, hb, amounts_congr h, amounts_congr h]

theorem netted_selected {balance sel amt : ℕ → R} {b : ℕ → Bool} {i : ℕ}
    (h : ∀ t < gl.txn_queue_.length, sel t = if b t then 1 else 0) :
    gl.netted balance sel amt i = balance i -
      (∑ t ∈ Finset.range gl.txn_queue_.length with (gl.txn t).src = i ∧ b t, amt t) +
      ∑ t ∈ Finset.range gl.txn_queue_.length with (gl.txn t).dest = i ∧ b t, amt t := by
  have hx : ∀ t < gl.txn_queue_.length, sel t * amt t = (if b t then 1 else 0) * amt t :=
    fun t ht => by rw [h t ht]
  rw [netted, amounts_congr hx, amounts_congr hx, amounts_selected, amounts_selected]

/-- The sums of the senders and of the receivers, transaction by transaction. -/
theorem slots_builds {filter_txn_amt : ℕ → ℕ} {x : ℕ → (ℕ → R) → R} (n : ℕ) (ht : T .kAdd)
    (hx : ∀ t < n, Has c (filter_txn_amt t) (x t)) :
    Builds T c ((List.range n).foldlM (fun (slots : (ℕ → ℤ) × (ℕ → ℤ)) i => do
        let vs ← accumulate slots.1 (gl.txn i).src (filter_txn_amt i)
        let vr ← accumulate slots.2 (gl.txn i).dest (filter_txn_amt i)
        pure (vs, vr)) (fun _ => NO_WIRE, fun _ => NO_WIRE))
      fun slots c' => ∀ i,
        SlotHas c' (slots.1 i) (fun f => amounts (fun t => (gl.txn t).src) (fun t => x t f) n i) ∧
        SlotHas c' (slots.2 i) (fun f => amounts (fun t => (gl.txn t).dest) (fun t => x t f) n i) := by
  rw [List.range_eq_range']
  refine (Builds.foldlM_split (fun done (slots : (ℕ → ℤ) × (ℕ → ℤ)) c' => ∀ i,
    SlotHas c' (slots.1 i)
      (fun f => amounts (fun t => (gl.txn t).src) (fun t => x t f) done.length i) ∧
    SlotHas c' (slots.2 i)
      (fun f => amounts (fun t => (gl.txn t).dest) (fun t => x t f) done.length i)) _
    (fun i => ⟨.inl ⟨rfl, fun f => amounts_zero _ _ i⟩, .inl ⟨rfl, fun f => amounts_zero _ _ i⟩⟩)
    ?_).weaken fun slots c' _ hslots => by simpa using hslots
  intro done t rest slots c₁ hsplit hc₁ hinv
  obtain ⟨rfl, hlt⟩ := range'_split hsplit
  rw [Nat.add_zero] at hsplit ⊢
  refine (accumulate_builds ht (fun i => (hinv i).1) ((hx _ hlt).mono hc₁)).bind
    fun vs c₂ hc₂ hvs => ?_
  refine (accumulate_builds ht (fun i => (hinv i).2.mono hc₂)
    ((hx _ hlt).mono (hc₁.trans hc₂))).bind fun vr c₃ hc₃ hvr => .pure fun i => ?_
  rw [List.length_append, List.length_singleton]
  exact ⟨((hvs i).mono hc₃).congr fun f => (amounts_succ _ _ _ _).symm,
    (hvr i).congr fun f => (amounts_succ _ _ _ _).symm⟩

/-- Subtracting the first slot and adding the second one; empty slots are skipped. -/
theorem applySlots_builds {w : ℕ} {sent received : ℤ} {v vs vr : (ℕ → R) → R}
    (htsub : T .kSub) (htadd : T .kAdd) (hw : Has c w v) (hs : SlotHas c sent vs)
    (hr : SlotHas c received vr) :
    Builds T c (do
        let w' ← (if sent ≠ NO_WIRE then addGate2 .kSub w sent.toNat else pure w)
        if received ≠ NO_WIRE then addGate2 .kAdd w' received.toNat else pure w')
      fun w' c' => Has c' w' fun f => v f - vs f + vr f := by
  have hsent : Builds T c (if sent ≠ NO_WIRE then addGate2 .kSub w sent.toNat else pure w)
      fun w' c' => Has c' w' fun f => v f - vs f := by
    obtain ⟨rfl, hzero⟩ | ⟨u, rfl, hu⟩ := hs
    · rw [if_neg (not_not.mpr rfl)]
      exact .pure (hw.congr fun f => by rw [hzero, sub_zero])
    · rw [if_pos (natCast_ne_noWire u), Int.toNat_natCast]
      exact addSub_builds hw hu htsub
  refine hsent.bind fun w' c' hc' hw' => ?_
  obtain ⟨rfl, hzero⟩ | ⟨u, rfl, hu⟩ := hr
  · rw [if_neg (not_not.mpr rfl)]
    exact .pure (hw'.congr fun f => by rw [hzero, add_zero])
  · rw [if_pos (natCast_ne_noWire u), Int.toNat_natCast]
    exact addAdd_builds hw' (hu.mono hc') htadd

theorem newBalances_builds {balance selected : ℕ → ℕ} {vb vsel vamt : ℕ → (ℕ → R) → R}
    (hb : ∀ i < gl.num_banks_, Has c (balance i) (vb i))
    (hsel : ∀ t < gl.txn_queue_.length, Has c (selected t) (vsel t))
    (hamt : ∀ t < gl.txn_queue_.length, Has c (gl.txn t).amt (vamt t)) :
    Builds stepTypes c (gl.newBalances balance selected) fun new_balance c' =>
      ∀ i < gl.num_banks_, Has c' (new_balance i) fun f =>
        gl.netted (fun i => vb i f) (fun t => vsel t f) (fun t => vamt t f) i := by
  refine (fillWires_builds (fun t f => vsel t f * vamt t f) _ (fun t ht c' hc' => ?_) _).bind
    fun filter_txn_amt c₁ hc₁ hfilter => ?_
  · rw [List.mem_range] at ht
    exact addMul_builds ((hsel t ht).mono hc') ((hamt t ht).mono hc') (by simp [stepTypes])
  refine (slots_builds gl.txn_queue_.length (by simp [stepTypes])
    fun t ht => hfilter t (List.mem_range.mpr ht)).bind fun slots c₂ hc₂ hslots => ?_
  refine (fillWires_builds (fun i f =>
    gl.netted (fun i => vb i f) (fun t => vsel t f) (fun t => vamt t f) i) _
    (fun i hi c' hc' => ?_) _).weaken fun v c' _ hv i hi => hv i (List.mem_range.mpr hi)
  rw [List.mem_range] at hi
  exact applySlots_builds (by simp [stepTypes]) (by simp [stepTypes])
    ((hb i hi).mono ((hc₁.trans hc₂).trans hc')) ((hslots i).1.mono hc') ((hslots i).2.mono hc')

theorem sum_netted (gl : SoDoGridLock) (balance sel amt : ℕ → R) :
    ∑ i ∈ Finset.range gl.num_banks_, gl.netted balance sel amt i =
      ∑ i ∈ Finset.range gl.num_banks_, balance i := by
  unfold netted
  rw [Finset.sum_add_distrib, Finset.sum_sub_distrib,
    sum_amounts _ fun t ht => (gl.ids_lt _ (txn_mem ht)).1,
    sum_amounts _ fun t ht => (gl.ids_lt _ (txn_mem ht)).2, sub_add_cancel]

/-! ## The object's circuit -/

/-- `circ_` has the object's gates only and the wires of the queue. -/
structure Owns (gl : SoDoGridLock) (c : Circuit R) : Prop where
  types : ∀ g ∈ c.gates_, gridlockTypes g.type
  amt_lt : ∀ txn ∈ gl.txn_queue_, txn.amt < c.size

omit [CircuitRing R] in
theorem owns_init (num_banks : ℕ) : (init num_banks).Owns (empty : Circuit R) where
  types := by simp [empty]
  amt_lt := by simp [init]

omit [CircuitRing R] in
theorem Owns.appends {c' : Circuit R} {outs : List ℕ} (h : gl.Owns c)
    (hc : Appends gridlockTypes c c' outs) : gl.Owns c' where
  types g hg := by
    obtain ⟨⟨gs, hgs, htypes⟩, -⟩ := hc
    rw [hgs] at hg
    obtain hg | hg := List.mem_append.mp hg
    · exact h.types g hg
    · exact htypes g hg
  amt_lt txn htxn := (h.amt_lt txn htxn).trans_le hc.size_le

/-- The queue grows by one transaction, whose amount is a new input wire. -/
theorem newTransaction_builds {src dest : ℕ} (h : gl.Owns c)
    (hids : src < gl.num_banks_ ∧ dest < gl.num_banks_) :
    Builds (· = .kInp) c (gl.newTransaction src dest) fun amtgl c' =>
      amtgl.1 = c.size ∧ amtgl.2.num_banks_ = gl.num_banks_ ∧
        amtgl.2.txn_queue_ = gl.txn_queue_ ++ [⟨src, dest, c.size⟩] ∧ amtgl.2.Owns c' ∧
        c'.size = c.size + 1 ∧ Has c' c.size fun f => f c.size := by
  rw [newTransaction, dif_pos hids]
  refine (newInputWire_builds (T := (· = .kInp)) rfl).bind fun amt c' hc ⟨hamt, hsize, hv⟩ => .pure ?_
  subst hamt
  have hown := h.appends (hc.types_mono fun _ => .inl).appends
  refine ⟨rfl, rfl, rfl, ⟨hown.types, fun txn htxn => ?_⟩, hsize, hv⟩
  obtain htxn | htxn := List.mem_append.mp htxn
  · exact hown.amt_lt txn htxn
  · rw [List.mem_singleton.mp htxn]
    exact hv.lt

/-- For every circuit of the object, any wires for the balances and any selection, `newBalances`
returns wires that the circuit evaluates to the netted balances, with the total of the old ones. -/
theorem newBalances_conserves (h : gl.Owns c) {balance selected : ℕ → ℕ}
    (hb : ∀ i < gl.num_banks_, balance i < c.size)
    (hsel : ∀ t < gl.txn_queue_.length, selected t < c.size) :
    ∃ new_balance c', gl.newBalances balance selected c = .ok (new_balance, c') ∧
      Extends stepTypes c c' ∧ ∀ f, ∃ ws, c'.evaluateWires (c'.assign f) = .ok ws ∧
        ∀ sel : ℕ → Bool,
          (∀ t < gl.txn_queue_.length, ws (selected t) = if sel t then 1 else 0) →
          (∀ i < gl.num_banks_, ws (new_balance i) = ws (balance i) -
              (∑ t ∈ Finset.range gl.txn_queue_.length with (gl.txn t).src = i ∧ sel t,
                ws (gl.txn t).amt) +
              ∑ t ∈ Finset.range gl.txn_queue_.length with (gl.txn t).dest = i ∧ sel t,
                ws (gl.txn t).amt) ∧
            ∑ i ∈ Finset.range gl.num_banks_, ws (new_balance i) =
              ∑ i ∈ Finset.range gl.num_banks_, ws (balance i) := by
  obtain ⟨new_balance, c', hm, hc, hnew⟩ := newBalances_builds (fun i hi => has_value (hb i hi))
    (fun t ht => has_value (hsel t ht)) fun t ht => has_value (h.amt_lt _ (txn_mem ht))
  have hall := (h.appends (hc.types_mono fun _ => .inr).appends).types
  have heval : ∀ g ∈ c'.gates_, g.type ≠ .kRelu ∧ g.type ≠ .kTrdotp := fun g hg =>
    gridlockTypes_evaluable _ (hall g hg)
  refine ⟨new_balance, c', hm, hc, fun f => ?_⟩
  obtain ⟨ws, hws, -⟩ := c'.evaluateWires_eq f heval
  have hold : ∀ w < c.size, ws w = c.value f w := fun w hw =>
    wires_eq heval hws ((has_value hw).mono hc)
  have hnet : ∀ i < gl.num_banks_, ws (new_balance i) = gl.netted (fun i => ws (balance i))
      (fun t => ws (selected t)) (fun t => ws (gl.txn t).amt) i := fun i hi => by
    rw [wires_eq heval hws (hnew i hi)]
    exact netted_congr (hold _ (hb i hi)).symm fun t ht => by
      rw [hold _ (hsel t ht), hold _ (h.amt_lt _ (txn_mem ht))]
  refine ⟨ws, hws, fun sel hbits => ⟨fun i hi => ?_, ?_⟩⟩
  · rw [hnet i hi, netted_selected hbits]
  · rw [← sum_netted gl (fun i => ws (balance i)) (fun t => ws (selected t))
      fun t => ws (gl.txn t).amt]
    exact Finset.sum_congr rfl fun i hi => hnet i (Finset.mem_range.mp hi)

/-- Bank 0 with 20 sends 25 to bank 1 with 10. -/
theorem newBalances_conserves_two :
    ∃ (gl : SoDoGridLock) (c : Circuit (Field testModulus)) (balance selected : ℕ → ℕ),
      gl.num_banks_ = 2 ∧ ∃ new_balance c' ws, gl.newBalances balance selected c = .ok (new_balance, c') ∧
        c'.evaluateWires (c'.assign fun w => [25, 20, 10, 1].getD w 0) = .ok ws ∧
        ws (new_balance 0) = 20 - 25 + 0 ∧ ws (new_balance 1) = 10 - 0 + 25 := by
  obtain ⟨v, c, -, hc, -, hv⟩ := fillInputs_builds (c := (empty : Circuit (Field testModulus)))
    (T := gridlockTypes) 4 (fun _ => 0) (.inl rfl)
  have hlt : ∀ i < 4, v i < c.size := fun i hi => (hv i hi).lt
  let gl : SoDoGridLock := ⟨2, [⟨0, 1, v 0⟩], by simp⟩
  have howns : gl.Owns c := ⟨((owns_init 2).appends hc.appends).types, by simpa [gl] using hlt 0⟩
  have hbalance : ∀ i < gl.num_banks_, v (1 + i) < c.size := fun i hi =>
    hlt _ (by change i < 2 at hi; omega)
  have hselected : ∀ t < gl.txn_queue_.length, (fun _ => v 3) t < c.size := fun t _ =>
    hlt 3 (by omega)
  obtain ⟨new_balance, c', hm, hext, hrun⟩ := newBalances_conserves howns hbalance hselected
  obtain ⟨ws, hws, hsel⟩ := hrun fun w => [25, 20, 10, 1].getD w 0
  have hin : ∀ i < 4, ws (v i) = [25, 20, 10, 1].getD i 0 := fun i hi => by
    have heval : ∀ g ∈ c'.gates_, g.type ≠ .kRelu ∧ g.type ≠ .kTrdotp := fun g hg =>
      gridlockTypes_evaluable _ ((howns.appends (hext.types_mono fun _ => .inr).appends).types g hg)
    have hi' := wires_eq heval hws ((hv i hi).mono hext)
    rwa [show (empty : Circuit (Field testModulus)).size = 0 from rfl, Nat.zero_add] at hi'
  obtain ⟨hnew, -⟩ := hsel (fun _ => true) fun t _ => by simpa using hin 3 (by omega)
  refine ⟨gl, c, _, _, rfl, new_balance, c', ws, hm, hws, ?_, ?_⟩
  · rw [hnew 0 (by change 0 < 2; omega)]
    simp [gl, txn, hin, Finset.sum_filter]
  · rw [hnew 1 (by change 1 < 2; omega)]
    simp [gl, txn, hin, Finset.sum_filter]

end SoDoGridLock

end QSync
