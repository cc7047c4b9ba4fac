import QSync.Utils.Gridlock

/-! # Any number of gridlock iterations

The object from its construction on: a queue of transactions with their amounts, the balances, all
transactions selected, and then `updateSelectedTransactions` on the same balances and the selection
of the call before.
-/

namespace QSync
set_option autoImplicit false
set_option maxHeartbeats 250000

namespace SoDoGridLock
open Circuit
variable {R : Type} [CircuitRing R] {T : GateType → Prop} {c : Circuit R} {gl : SoDoGridLock}

/-! ## Inputs -/

/-- The input map has the wires of the circuit as keys: up to here all gates are inputs. -/
def AllKeys (imap : InputMap R) (c : Circuit R) : Prop := imap.keys = Finset.range c.size

omit [CircuitRing R] in
theorem set_val_of_ne {imap : InputMap R} {wid w : ℕ} {v : R} (h : w ≠ wid) :
    (imap.set wid v).val w = imap.val w := Function.update_of_ne h _ _

omit [CircuitRing R] in
@[simp] theorem set_val_self (imap : InputMap R) (wid : ℕ) (v : R) :
    (imap.set wid v).val wid = v := Function.update_self _ _ _

omit [CircuitRing R] in
theorem AllKeys.set {imap : InputMap R} {c' : Circuit R} (h : AllKeys imap c)
    (hsize : c'.size = c.size + 1) (v : R) : AllKeys (imap.set c.size v) c' := by
  rw [AllKeys] at h ⊢
  rw [hsize, Finset.range_add_one, InputMap.set, h]

theorem initInputs_builds {n : ℕ} {values : ℕ → R} {imap : InputMap R} (h : AllKeys imap c) :
    Builds (· = .kInp) c (initInputs n values imap) fun state c' =>
      AllKeys state.2 c' ∧ (∀ i < n, state.1 i < c'.size ∧ state.2.val (state.1 i) = values i) ∧
        ∀ w < c.size, state.2.val w = imap.val w := by
  rw [initInputs, List.range_eq_range']
  refine (Builds.foldlM_split (fun done (state : (ℕ → ℕ) × InputMap R) c' => AllKeys state.2 c' ∧
    (∀ i < done.length, state.1 i < c'.size ∧ state.2.val (state.1 i) = values i) ∧
      ∀ w < c.size, state.2.val w = imap.val w) _ ⟨h, by simp, fun _ _ => rfl⟩ ?_).weaken
    fun state c' _ hstate => by simpa using hstate
  intro done i rest state c₁ hsplit hc₁ ⟨hkeys, hvals, hold⟩
  obtain ⟨rfl, hlt⟩ := range'_split hsplit
  rw [Nat.add_zero]
  refine (newInputWire_builds (T := (· = .kInp)) rfl).bind fun w c₂ hc₂ ⟨hw, hsize, _⟩ => .pure ?_
  subst hw
  refine ⟨hkeys.set hsize _, fun j hj => ?_, fun w hw => ?_⟩
  · rw [List.length_append, List.length_singleton] at hj
    dsimp only
    obtain hj | rfl := Nat.lt_succ_iff_lt_or_eq.mp hj
    · obtain ⟨hlt, hval⟩ := hvals j hj
      rw [Function.update_of_ne hj.ne, set_val_of_ne hlt.ne]
      exact ⟨by omega, hval⟩
    · rw [Function.update_self, set_val_self]
      exact ⟨by omega, rfl⟩
  · rw [set_val_of_ne (hw.trans_le hc₁.size_le).ne]
    exact hold w hw

/-- The object after its first calls, and the input map filled along the way. -/
structure Session (R : Type) where
  gl : SoDoGridLock
  imap : InputMap R
  balance : ℕ → ℕ
  selected : ℕ → ℕ

/-- `newTransaction` for each of the transactions (source, destination, amount). -/
def enqueue (num_banks : ℕ) (txns : List (ℕ × ℕ × R)) : Build R (SoDoGridLock × InputMap R) :=
  txns.foldlM (fun state txn => do
    let (wtxn_amt, gl) ← state.1.newTransaction txn.1 txn.2.1
    pure (gl, state.2.set wtxn_amt txn.2.2)) (init num_banks, ⟨∅, fun _ => 0⟩)

def openSession (num_banks : ℕ) (txns : List (ℕ × ℕ × R)) (balances : ℕ → R) :
    Build R (Session R) := do
  let (gl, imap) ← enqueue num_banks txns
  let (balance, imap) ← gl.initBalances balances imap
  let (selected, imap) ← gl.initSelectedSet imap
  pure ⟨gl, imap, balance, selected⟩

/-- The queue holds the given transactions, and the input map their amounts. -/
def Queued (gl : SoDoGridLock) (imap : InputMap R) (txns : List (ℕ × ℕ × R)) : Prop :=
  gl.txn_queue_.map (fun txn => (txn.src, txn.dest, imap.val txn.amt)) = txns

omit [CircuitRing R] in
theorem Queued.congr {imap imap' : InputMap R} {txns : List (ℕ × ℕ × R)}
    (h : gl.Queued imap txns) (hown : gl.Owns c) (hval : ∀ w < c.size, imap'.val w = imap.val w) :
    gl.Queued imap' txns := by
  rw [Queued] at h ⊢
  rw [← h]
  exact List.map_congr_left fun txn htxn => by rw [hval _ (hown.amt_lt txn htxn)]

theorem enqueue_builds {num_banks : ℕ} {txns : List (ℕ × ℕ × R)}
    (hids : ∀ txn ∈ txns, txn.1 < num_banks ∧ txn.2.1 < num_banks) :
    Builds (· = .kInp) (empty : Circuit R) (enqueue num_banks txns) fun state c' =>
      state.1.num_banks_ = num_banks ∧ state.1.Owns c' ∧ AllKeys state.2 c' ∧
        state.1.Queued state.2 txns := by
  refine (Builds.foldlM_split (fun done (state : SoDoGridLock × InputMap R) c' =>
    state.1.num_banks_ = num_banks ∧ state.1.Owns c' ∧ AllKeys state.2 c' ∧
      state.1.Queued state.2 done) _ ⟨rfl, owns_init num_banks, rfl, rfl⟩ ?_)
  intro done txn rest state c₁ hsplit _ ⟨hbanks, hown, hkeys, hqueue⟩
  have htxn : txn ∈ txns := by simp [hsplit]
  refine (newTransaction_builds hown (by simpa [hbanks] using hids txn htxn)).bind
    fun amtgl c₂ hc₂ ⟨hamt, hbanks', hq, hown', hsize, _⟩ => .pure ?_
  rw [hamt]
  refine ⟨hbanks'.trans hbanks, hown', hkeys.set hsize _, ?_⟩
  have hold : state.1.Queued (state.2.set c₁.size txn.2.2) done :=
    hqueue.congr hown fun w hw => set_val_of_ne hw.ne
  rw [Queued] at hold ⊢
  rw [hq, List.map_append, hold]
  simp

theorem openSession_builds {num_banks : ℕ} {txns : List (ℕ × ℕ × R)} (balances : ℕ → R)
    (hids : ∀ txn ∈ txns, txn.1 < num_banks ∧ txn.2.1 < num_banks) :
    Builds (· = .kInp) (empty : Circuit R) (openSession num_banks txns balances) fun s c' =>
      s.gl.num_banks_ = num_banks ∧ s.gl.Owns c' ∧ AllKeys s.imap c' ∧ s.gl.Queued s.imap txns ∧
        (∀ i < num_banks, s.balance i < c'.size ∧ s.imap.val (s.balance i) = balances i) ∧
        ∀ t < s.gl.txn_queue_.length, s.selected t < c'.size ∧ s.imap.val (s.selected t) = 1 := by
  refine (enqueue_builds hids).bind fun glimap c₁ hc₁ ⟨hbanks, hown, hkeys, hqueue⟩ => ?_
  refine (initInputs_builds hkeys).bind fun balance c₂ hc₂ ⟨hkeys₂, hbal, hold₂⟩ => ?_
  refine (initInputs_builds hkeys₂).bind fun selected c₃ hc₃ ⟨hkeys₃, hsel, hold₃⟩ => .pure ?_
  have hinp : ∀ t : GateType, t = .kInp → gridlockTypes t := fun _ => .inl
  have hown₂ := hown.appends (hc₂.types_mono hinp).appends
  refine ⟨hbanks, hown₂.appends (hc₃.types_mono hinp).appends, hkeys₃,
    (hqueue.congr hown hold₂).congr hown₂ hold₃, fun i hi => ?_, hsel⟩
  obtain ⟨hlt, hval⟩ := hbal i (hbanks ▸ hi)
  exact ⟨hlt.trans_le hc₃.size_le, (hold₃ _ hlt).trans hval⟩

/-! ## Iterations -/

/-- `iterations` calls with the same balances, each on the selection of the call before it. -/
def iterate (gl : SoDoGridLock) (balance selected : ℕ → ℕ) : ℕ → Build R (ℕ → ℕ)
  | 0 => pure selected
  | iterations + 1 => do
    let selected ← gl.iterate balance selected iterations
    gl.updateSelectedTransactions balance selected

theorem iterate_makes {negative : R → Bool} {balance selected : ℕ → ℕ} (hneg : SignBit negative)
    (h : gl.Owns c) (hqueue : gl.txn_queue_ ≠ []) (hb : ∀ i < gl.num_banks_, balance i < c.size)
    (hsel : ∀ t < gl.txn_queue_.length, selected t < c.size) (iterations : ℕ) :
    Makes stepTypes c (gl.iterate balance selected iterations) fun sel outs c' =>
      outs.length = 2 * iterations ∧ (∀ t < gl.txn_queue_.length, sel t < c'.size) ∧
        ∀ f, (∀ t < gl.txn_queue_.length, c.value f (selected t) = 1) →
          ∃ kept, (iterations = 0 → ∀ i, kept i = (gl.bankQueue i).length) ∧
            gl.SelectsFirst kept fun t => c'.value f (sel t) := by
  induction iterations with
  | zero =>
    refine .pure ⟨rfl, hsel, fun f hall => ⟨fun i => (gl.bankQueue i).length, fun _ _ => rfl,
      fun i _ => ⟨le_rfl, fun j hj => ?_⟩⟩⟩
    rw [if_pos hj]
    exact hall _ (mem_bankQueue.mp (getD_mem hj)).1
  | succ n ih =>
    refine ih.bind fun sel outs c' hc' ⟨hlen, hlt, hkept⟩ => ?_
    obtain ⟨new_balance, c₁, -, hmakes⟩ := updateSelectedTransactions_makes
      (h.appends (hc'.types_mono fun _ => .inr)) hqueue
      (fun i hi => (hb i hi).trans_le hc'.size_le) hlt
    refine hmakes.weaken fun sel' outs' c'' hc'' ⟨_, hlt', o₁, o₂, houts, hit⟩ =>
      ⟨?_, hlt', fun f hall => ?_⟩
    · rw [List.length_append, hlen, houts]
      rfl
    · obtain ⟨kept, -, hsel⟩ := hkept f hall
      have hsame : gl.SelectsFirst kept fun t => c''.value f (sel t) := fun i hi =>
        ⟨(hsel i hi).1, fun j hj => by
          rw [← (hsel i hi).2 j hj]
          exact ((has_value (hlt _ (mem_bankQueue.mp (getD_mem hj)).1)).appends hc'').value_eq f⟩
      exact ⟨_, fun h0 => absurd h0 (Nat.succ_ne_zero n), (hit f _ fun _ _ => rfl).selectsFirst hneg hsame⟩

/-! ## The input map -/

omit [CircuitRing R] in
theorem inputWires_of_inputs (h : Extends (· = .kInp) empty c) :
    c.inputWires = Finset.range c.size := by
  obtain ⟨-, gs, hgs, htypes⟩ := h
  have hall : c.gates_.filter (fun g => g.type = .kInp) = c.gates_ := by
    rw [hgs]
    exact List.filter_eq_self.mpr fun g hg => decide_eq_true (htypes g hg)
  ext w
  rw [inputWires, hall, c.out_eq, List.mem_toFinset, List.mem_range, Finset.mem_range, size]

omit [CircuitRing R] in
theorem inputWires_of_steps {c' : Circuit R} {outs : List ℕ} (h : Appends stepTypes c c' outs) :
    c'.inputWires = c.inputWires := by
  obtain ⟨⟨gs, hgs, htypes⟩, -⟩ := h
  have hnone : gs.filter (fun g => g.type = .kInp) = [] := by
    refine List.filter_eq_nil_iff.mpr fun g hg hinp => ?_
    have hstep := htypes g hg
    rw [of_decide_eq_true hinp] at hstep
    simp [stepTypes] at hstep
  rw [inputWires, inputWires, hgs, List.filter_append, hnone, List.append_nil]

theorem input_value (h : Extends (· = .kInp) empty c) {f : ℕ → R} {w : ℕ} (hw : w < c.size) :
    c.value f w = f w := by
  obtain ⟨-, gs, hgs, htypes⟩ := h
  obtain ⟨g, hg, rfl⟩ := (c.mem_outs_iff w).mpr hw
  have hinp : g.op = .kInp := Op.eq_kInp (htypes g (by rwa [hgs] at hg))
  rw [c.value_eq f hg, Gate.value, hinp]

theorem signBit_word : SignBit fun x : U64 => decide (2 ^ 63 ≤ x.val) where
  msb_eq x := by
    rw [field_msb]
    simp

/-- Call number `iterations` of `updateSelectedTransactions`, for any queue, balances and number of
calls before it. The transactions selected before the call are the first `kept i` of the queue of
every bank `i`, at first all of them; the call drops the last one exactly of the banks whose new
balance has its top bit set. -/
theorem gridlock_iterations (num_banks : ℕ) (txns : List (ℕ × ℕ × U64)) (hne : txns ≠ [])
    (hids : ∀ txn ∈ txns, txn.1 < num_banks ∧ txn.2.1 < num_banks) (balances : ℕ → U64)
    (iterations : ℕ) :
    ∃ (s : Session U64) (c₀ c c₁ c' : Circuit U64) (selected new_balance new_selected : ℕ → ℕ),
      openSession num_banks txns balances empty = .ok (s, c₀) ∧
      s.gl.num_banks_ = num_banks ∧ s.gl.Queued s.imap txns ∧
      s.gl.iterate s.balance s.selected iterations c₀ = .ok (selected, c) ∧
      s.gl.newBalances s.balance selected c = .ok (new_balance, c₁) ∧
      s.gl.updateSelectedTransactions s.balance selected c = .ok (new_selected, c') ∧
      ∃ ws outs o₁ o₂, c'.evaluateWires s.imap = .ok ws ∧
        c'.evaluate s.imap = .ok (outs ++ [o₁, o₂]) ∧ outs.length = 2 * iterations ∧
        (o₁ = if ∀ i < num_banks, (ws (new_balance i)).val < 2 ^ 63 then 1 else 0) ∧
        (o₂ = if ∀ t < s.gl.txn_queue_.length, ws (new_selected t) = 0 then 1 else 0) ∧
        ∃ kept, (iterations = 0 → ∀ i, kept i = (s.gl.bankQueue i).length) ∧
          s.gl.SelectsFirst kept (fun t => ws (selected t)) ∧
          s.gl.SelectsFirst (dropLast (fun i => decide (2 ^ 63 ≤ (ws (new_balance i)).val)) kept)
            fun t => ws (new_selected t) := by
  obtain ⟨s, c₀, hopen, hc₀, hbanks, hown, hkeys, hqueue, hbal, hsel⟩ :=
    openSession_builds balances hids
  have hqne : s.gl.txn_queue_ ≠ [] := by
    intro hnil
    rw [Queued, hnil] at hqueue
    exact hne hqueue.symm
  have hballt : ∀ i < s.gl.num_banks_, s.balance i < c₀.size := fun i hi => (hbal i (hbanks ▸ hi)).1
  obtain ⟨selected, outs, c, hit, hc, hlen, hlt, hkept⟩ := iterate_makes signBit_word hown hqne hballt
    (fun t ht => (hsel t ht).1) iterations
  have hown' := hown.appends (hc.types_mono fun _ => .inr)
  obtain ⟨new_balance, c₁, hnb, hmakes⟩ := updateSelectedTransactions_makes hown' hqne
    (fun i hi => (hballt i hi).trans_le hc.size_le) hlt
  obtain ⟨new_selected, outs', c', hup, hc', hnblt, hnewlt, w₁, w₂, houts, hstep⟩ := hmakes
  have himap : s.imap = c'.assign s.imap.val := by
    rw [assign, inputWires_of_steps hc', inputWires_of_steps hc, inputWires_of_inputs hc₀, ← hkeys]
  have heval : ∀ g ∈ c'.gates_, g.type ≠ .kRelu ∧ g.type ≠ .kTrdotp := fun g hg =>
    gridlockTypes_evaluable _ ((hown'.appends (hc'.types_mono fun _ => .inr)).types g hg)
  obtain ⟨ws, hws, hval⟩ := c'.evaluateWires_eq s.imap.val heval
  have hevaluate := c'.evaluate_eq s.imap.val heval
  rw [← himap] at hws hevaluate
  have hinit : ∀ t < s.gl.txn_queue_.length, c₀.value s.imap.val (s.selected t) = 1 := fun t ht => by
    rw [input_value hc₀ (hsel t ht).1, (hsel t ht).2]
  obtain ⟨kept, hzero, hfirst⟩ := hkept s.imap.val hinit
  have hselws : ∀ t < s.gl.txn_queue_.length, c.value s.imap.val (selected t) = ws (selected t) :=
    fun t ht => by
      have hhas := (has_value (hlt t ht)).appends hc'
      rw [hval _ hhas.lt, hhas.value_eq]
  have hfirst' : s.gl.SelectsFirst kept fun t => ws (selected t) := fun i hi =>
    ⟨(hfirst i hi).1, fun j hj =>
      (hselws _ (mem_bankQueue.mp (getD_mem hj)).1).symm.trans ((hfirst i hi).2 j hj)⟩
  have hstep' := hstep s.imap.val ws hval
  have hnext := hstep'.selectsFirst signBit_word hfirst'
  have houtputs : c'.outputs_ = outs ++ [w₁, w₂] := by
    rw [hc'.outputs_eq, hc.outputs_eq, hc₀.outputs_eq, houts]
    rfl
  refine ⟨s, c₀, c, c₁, c', selected, new_balance, new_selected, hopen, hbanks, hqueue, hit,
    hnb, hup, ws, outs.map ws, ws w₁, ws w₂, hws, ?_, by rw [List.length_map, hlen], ?_,
    hstep'.second_output hnext, kept, hzero, hfirst', hnext⟩
  · have hlist : (outs ++ [w₁, w₂]).map (c'.value s.imap.val) = (outs ++ [w₁, w₂]).map ws :=
      List.map_congr_left fun w hw => (hval w (c'.outputs_valid w (houtputs ▸ hw))).symm
    rw [hevaluate, houtputs, hlist, List.map_append]
    rfl
  · rw [hstep'.first_output signBit_word, hbanks]
    simp only [decide_eq_false_iff_not, not_le]

/-- The queue of the tests, called twice. -/
theorem gridlock_iterations_three :
    ∃ (s : Session U64) (c₀ c c' : Circuit U64) (selected new_selected : ℕ → ℕ) (outs : List U64),
      openSession 3 [(0, 1, 25), (1, 2, 30), (2, 0, 35)] (fun i => [20, 10, 0].getD i 0) empty =
          .ok (s, c₀) ∧
        s.gl.iterate s.balance s.selected 1 c₀ = .ok (selected, c) ∧
        s.gl.updateSelectedTransactions s.balance selected c = .ok (new_selected, c') ∧
        c'.evaluate s.imap = .ok outs ∧ outs.length = 4 := by
  obtain ⟨s, c₀, c, c₁, c', selected, new_balance, new_selected, hopen, -, -, hit, -, hup, ws, outs,
    o₁, o₂, -, heval, hlen, -⟩ := gridlock_iterations 3 [(0, 1, 25), (1, 2, 30), (2, 0, 35)]
      (by simp) (by simp) (fun i => [20, 10, 0].getD i 0) 1
  exact ⟨s, c₀, c, c', selected, new_selected, outs ++ [o₁, o₂], hopen, hit, hup, heval, by simp [hlen]⟩

end SoDoGridLock

end QSync
