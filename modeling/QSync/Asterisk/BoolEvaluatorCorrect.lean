import QSync.Asterisk.BoolOpenings
import QSync.Asterisk.OfflineBool

/-! # The Boolean evaluator from end to end

`OfflineBoolEvaluator` and then `BoolEvaluator` on one circuit. `setInputs` counts the inputs of each
party in a vector with `nP` elements, so an input of party `nP` is outside of it. Without such inputs
everybody gets what plaintext evaluation gives (`boolEvaluator_correct_iff`).
-/

namespace QSync
open Network Batching
set_option autoImplicit false
set_option maxHeartbeats 250000

/-- Both evaluators one after the other, as the tests run them. Their constructors pass `seed` on as
the number of parties of the pool. Checked are the accesses to `num_inp_pid` and `k_pi`. `wires_`,
`q_sh_`, `q_val_` and the preprocessing have an element for every gate, the vectors of an opening those
that are counted in the level, and party `nP` takes from the queues what the trusted party has put
there. -/
def BoolEvaluator.program (blockPrg : ℕ → Prg) (seed nP id : ℕ) (input_pid_map : ℕ → ℕ)
    (bit_mask_map inputs : InputMap BoolRing) (circ : LevelOrderedCircuit BoolRing) :
    Proc ℕ (List BoolRing) :=
  -- the trusted party draws from `k_pi[nP]`; `k_pi` has `seed + 1` elements
  if id = 0 ∧ seed < nP then .stuck
  else do
    let rgen := RandGenPool.constructed blockPrg
    let (preproc_, _) ← OfflineBoolEvaluator.setWireMasks nP id input_pid_map bit_mask_map circ rgen
    let (_, outvals) ← BoolEvaluator.evaluateCircuit nP id preproc_.gates inputs circ
      { all_minus_0 := rgen .all_minus_0 }
    pure outvals

/-! ## Inputs -/

theorem does_recvBit {src : ℕ} (q : BoolRing) :
    Does (recvBit src) [.inp src (rawBits.encode [q])] q := by
  refine Does.recv' (rawBits.encode_length [q]) ?_
  change Does (.done (((rawBits.decode 1 (rawBits.encode [q])).getD 0 0))) [] q
  rw [show rawBits.decode 1 (rawBits.encode [q]) = [q] from rawBits.decode_encode [q]]
  exact .done q

section Inputs
variable {nP : ℕ} {ipm : ℕ → ℕ} {preproc : ℕ → BoolGates} {inputs : ℕ → InputMap BoolRing}
  {circ : Circuit BoolRing}

/-- Everybody knows who deals each input, a party below `nP` that has it. -/
structure BoolInputsDealt (nP : ℕ) (ipm : ℕ → ℕ) (preproc : ℕ → BoolGates)
    (inputs : ℕ → InputMap BoolRing) (circ : Circuit BoolRing) : Prop where
  pid : ∀ g ∈ circ.gates_, g.type = .kInp → ∀ i ≤ nP,
    (boolInputOf (preproc i g.out).ext).1 = ipm g.out
  dealer : ∀ g ∈ circ.gates_, g.type = .kInp →
    1 ≤ ipm g.out ∧ ipm g.out < nP ∧ g.out ∈ (inputs (ipm g.out)).keys

/-- The masked value of an input wire: what the dealer has without the pad. -/
def dealtBit (ipm : ℕ → ℕ) (preproc : ℕ → BoolGates) (inputs : ℕ → InputMap BoolRing) (w : ℕ) :
    BoolRing :=
  (boolInputOf (preproc (ipm w) w).ext).2 + (inputs (ipm w)).val w

def BoolEvaluator.afterInput (id : ℕ) (s : BoolEvaluator) (w : ℕ) (q : BoolRing) : BoolEvaluator :=
  if id = 0 then { s with q_val_ := Function.update s.q_val_ w q }
  else
    { s with
      all_minus_0 := s.all_minus_0.next BoolRing
      q_val_ := Function.update s.q_val_ w q
      wires_ := Function.update s.wires_ w (q - s.all_minus_0.value BoolRing) }

def evaluatorAfterInput (ipm : ℕ → ℕ) (preproc : ℕ → BoolGates) (inputs : ℕ → InputMap BoolRing)
    (s : ℕ → BoolEvaluator) (g : Gate BoolRing) (id : ℕ) : BoolEvaluator :=
  if g.type = .kInp then
    (s id).afterInput id g.out
      (dealtBit ipm preproc inputs g.out + (s (ipm g.out)).all_minus_0.value BoolRing)
  else s id

def dealerSends (dealer id : ℕ) (q : BoolRing) : Proc ℕ BoolRing :=
  if id = 0 then recvBit dealer
  else do
    if id = dealer then Proc.sendTo 0 (rawBits.encode [q])
    pure 0

theorem dealerSends_completes {dealer : ℕ} (h1 : 1 ≤ dealer) (hn : dealer ≤ nP) (q : BoolRing) :
    Completes (Finset.range (nP + 1)) (fun id => dealerSends dealer id q)
      fun id => if id = 0 then q else 0 := by
  have hd : dealer ≠ 0 := by omega
  refine @completes_gather _ _ _ _ _ _ 0 [dealer] (fun _ => rawBits.encode [q])
    (List.nodup_singleton dealer) (fun j hj => ?_) (by simp) ?_ (fun j hj => ?_) fun i _ h0 hne => ?_
  · rw [List.mem_singleton.mp hj, Finset.mem_range]
    omega
  · exact does_recvBit q
  · rw [List.mem_singleton.mp hj]
    refine ⟨hd, ?_⟩
    simp only [dealerSends, if_neg hd, if_true]
    exact .send (.done 0)
  · have hne : i ≠ dealer := fun h => hne (List.mem_singleton.mpr h)
    simp only [dealerSends, if_neg h0, if_neg hne]
    exact .done 0

/-- One input is a message to the trusted party and a message from it to everybody. -/
theorem evaluatorInput_eq (hd : BoolInputsDealt nP ipm preproc inputs circ) {g : Gate BoolRing}
    (hg : g ∈ circ.gates_) (ht : g.type = .kInp) {id : ℕ} (hid : id ≤ nP) (s : BoolEvaluator)
    {q : BoolRing}
    (hq : id = ipm g.out → dealtBit ipm preproc inputs g.out + s.all_minus_0.value BoolRing = q) :
    BoolEvaluator.setInput nP id (preproc id) (inputs id) s g =
      dealerSends (ipm g.out) id q >>= fun q =>
        tpSends nP id (rawBits.encode [q]) q (recvBit 0) >>= fun q =>
        pure (s.afterInput id g.out q) := by
  have hpair : boolInputOf (preproc id g.out).ext =
      (ipm g.out, (boolInputOf (preproc id g.out).ext).2) := Prod.ext (hd.pid g hg ht id hid) rfl
  obtain ⟨h1, hn, hkey⟩ := hd.dealer g hg ht
  rw [BoolEvaluator.setInput, if_pos ht, hpair]
  simp only [if_neg (Nat.not_le.mpr hn)]
  by_cases h0 : id = 0
  · subst h0
    simp only [dealerSends, tpSends, BoolEvaluator.afterInput, ne_eq, not_true_eq_false, if_false,
      if_true, bind_assoc, pure_bind]
  · simp only [dealerSends, tpSends, BoolEvaluator.afterInput, ne_eq, h0, not_false_eq_true, if_true,
      if_false]
    by_cases hdealer : ipm g.out = id
    · have hat : (inputs id).at g.out = .ok ((inputs id).val g.out) := if_pos (hdealer ▸ hkey)
      have hval := hq hdealer.symm
      rw [dealtBit, hdealer] at hval
      simp only [if_pos hdealer, if_pos hdealer.symm, hat]
      rw [← hval]
      rfl
    · simp only [if_neg hdealer, if_neg (Ne.symm hdealer)]
      rfl

theorem evaluatorInput_completes (hd : BoolInputsDealt nP ipm preproc inputs circ) {g : Gate BoolRing}
    (hg : g ∈ circ.gates_) (s : ℕ → BoolEvaluator) : Completes (Finset.range (nP + 1))
      (fun id => BoolEvaluator.setInput nP id (preproc id) (inputs id) (s id) g)
      (evaluatorAfterInput ipm preproc inputs s g) := by
  by_cases ht : g.type = .kInp
  · obtain ⟨h1, hn, -⟩ := hd.dealer g hg ht
    set q := dealtBit ipm preproc inputs g.out + (s (ipm g.out)).all_minus_0.value BoolRing with hq
    let back := fun id q => tpSends nP id (rawBits.encode [q]) q (recvBit 0)
    let keep := fun id q => (s id).afterInput id g.out q
    have hback : Completes (Finset.range (nP + 1))
        (fun id => back id (if id = 0 then q else 0) >>= fun q => pure (keep id q))
        fun id => keep id (if id = 0 then q else q) := by
      refine ((tpSends_completes q (does_recvBit q)).map keep).congr (fun id _ => ?_) fun _ _ => rfl
      refine congrArg (· >>= _) (tpSends_congr fun h => ?_)
      rw [if_pos h]
      exact ⟨rfl, rfl⟩
    have hboth : Completes (Finset.range (nP + 1))
        (fun id => dealerSends (ipm g.out) id q >>= fun q => back id q >>= fun q =>
          pure (keep id q)) fun id => keep id (if id = 0 then q else q) :=
      (dealerSends_completes h1 hn.le q).bind hback
    refine hboth.congr (fun id hid => ?_) fun id _ => ?_
    · exact evaluatorInput_eq hd hg ht (Nat.le_of_lt_succ (Finset.mem_range.mp hid)) (s id)
        fun h => by rw [hq, ← h]
    · rw [evaluatorAfterInput, if_pos ht, ite_self]
  · refine (completes_local _ _).congr (fun id _ => ?_) fun _ _ => rfl
    rw [BoolEvaluator.setInput, if_neg ht, evaluatorAfterInput, if_neg ht]

def evaluatorAfterInputs (ipm : ℕ → ℕ) (preproc : ℕ → BoolGates) (inputs : ℕ → InputMap BoolRing)
    (circ : LevelOrderedCircuit BoolRing) (s : ℕ → BoolEvaluator) : ℕ → BoolEvaluator :=
  (circ.gates_by_level.getD 0 []).foldl (evaluatorAfterInput ipm preproc inputs) s

theorem evaluatorInputs_completes (hd : BoolInputsDealt nP ipm preproc inputs circ)
    (s : ℕ → BoolEvaluator) : Completes (Finset.range (nP + 1))
      (fun id => BoolEvaluator.setInputs nP id (preproc id) (inputs id) circ.orderGatesByLevel (s id))
      (evaluatorAfterInputs ipm preproc inputs circ.orderGatesByLevel s) :=
  Completes.foldlM _
    (fun _ hg s => evaluatorInput_completes hd (circ.mem_of_mem_level_zero hg) s) s

def inputWiresSet (bit : ℕ → BoolRing) (gs : List (Gate BoolRing)) (ws : ℕ → BoolRing) :
    ℕ → BoolRing :=
  gs.foldl (fun ws g => if g.type = .kInp then Function.update ws g.out (bit g.out) else ws) ws

theorem inputWiresSet_eq (bit : ℕ → BoolRing) {gs : List (Gate BoolRing)} {g : Gate BoolRing}
    (hg : g ∈ gs) (ht : g.type = .kInp) (ws : ℕ → BoolRing) :
    inputWiresSet bit gs ws g.out = bit g.out := by
  refine foldl_of_mem (P := fun ws => ws g.out = bit g.out) (fun ws x _ h => ?_) hg (fun ws => ?_) ws
  · by_cases hx : x.type = .kInp ∧ g.out = x.out
    · rw [if_pos hx.1, hx.2, Function.update_self]
    · split
      · rw [Function.update_of_ne fun h => hx ⟨‹_›, h⟩, h]
      · exact h
  · simp only [if_pos ht, Function.update_self]

theorem evaluatorInputs_common (hd : BoolInputsDealt nP ipm preproc inputs circ)
    (gs : List (Gate BoolRing)) (hgs : ∀ g ∈ gs, g ∈ circ.gates_) {ws : ℕ → BoolRing} {st : Stream}
    {s : ℕ → BoolEvaluator} (hs : EvaluatorsCommon nP ws st s) :
    ∃ st', EvaluatorsCommon nP (inputWiresSet (dealtBit ipm preproc inputs) gs ws) st'
      (gs.foldl (evaluatorAfterInput ipm preproc inputs) s) := by
  induction gs generalizing ws st s with
  | nil => exact ⟨st, hs⟩
  | cons g gs ih =>
    have hrest := fun g' hg' => hgs g' (List.mem_cons_of_mem _ hg')
    by_cases ht : g.type = .kInp
    · obtain ⟨h1, hn, -⟩ := hd.dealer g (hgs g List.mem_cons_self) ht
      have hdealer := (hs _ (mem_parties.mpr ⟨h1, hn.le⟩)).2
      have hstep : EvaluatorsCommon nP (Function.update ws g.out (dealtBit ipm preproc inputs g.out))
          (st.next BoolRing) (evaluatorAfterInput ipm preproc inputs s g) := by
        intro i hi
        obtain ⟨hw, hst⟩ := hs i hi
        rw [evaluatorAfterInput, if_pos ht, BoolEvaluator.afterInput, if_neg (ne_zero_of_parties hi)]
        simp only [hw, hst, hdealer, add_sub_cancel_right, and_self]
      have := ih hrest hstep
      simpa only [inputWiresSet, List.foldl_cons, if_pos ht] using this
    · have hstep : evaluatorAfterInput ipm preproc inputs s g = s := funext fun i => if_neg ht
      have := ih hrest hs
      simpa only [inputWiresSet, List.foldl_cons, if_neg ht, hstep] using this

end Inputs

/-! ## Levels and outputs -/

section Evaluation
variable {nP : ℕ} {ipm : ℕ → ℕ} {circ : Circuit BoolRing} {keySh : ℕ → BoolRing}
  {preproc : ℕ → BoolGates} {inputs : ℕ → InputMap BoolRing} {f ws : ℕ → BoolRing} {st : Stream}
  {s : ℕ → BoolEvaluator}

theorem evaluatorAfterLevels_masked (hnP : 1 ≤ nP) {tp : BoolGates}
    (hpre : BoolPreproc nP keySh circ tp preproc)
    (htypes : ∀ g ∈ circ.gates_, g.type = .kInp ∨ g.type.arithmetic)
    (levels : List (List (Gate BoolRing))) (hlevels : ∀ g ∈ levels.flatten, g ∈ circ.gates_)
    {seen : Set ℕ} (hsched : LevelSched seen levels) (hs : EvaluatorsCommon nP ws st s)
    (hws : ∀ w ∈ seen ∪ circ.inputSet, ws w = maskedWire circ tp f w) :
    ∃ ws' st', EvaluatorsCommon nP ws' st' (evaluatorAfterLevels nP preproc levels s) ∧
      ∀ w ∈ seen ∪ outs levels.flatten ∪ circ.inputSet, ws' w = maskedWire circ tp f w := by
  induction levels generalizing seen ws st s with
  | nil => exact ⟨ws, st, hs, by simpa using hws⟩
  | cons l ls ih =>
    obtain ⟨hl, hlow, hls⟩ := hsched
    have hmem : ∀ g ∈ l, g ∈ circ.gates_ := fun g hg => hlevels g (List.mem_append_left _ hg)
    have hopened : ∀ g ∈ l, g.type ∈ multTypes →
        ∑ i ∈ Finset.Icc 1 nP, (gateShare i ws (preproc i) g).value_ = maskedWire circ tp f g.out :=
      fun g hg ht => hpre.sum_gateShare hnP (hmem g hg) ht fun w hw =>
        hws w (.inl (hlow g hg (interactive_of_mult ht) w hw))
    have hset := hpre.levelWires_masked htypes hmem hl hopened hws
    have hrest := ih (fun g hg => hlevels g (List.mem_append_right _ hg)) hls
      (evaluatorAfterLevel_common hs) hset
    rw [Set.union_assoc seen, ← outs_append] at hrest
    exact hrest

def evaluatorResult (nP : ℕ) (ipm : ℕ → ℕ) (preproc : ℕ → BoolGates)
    (inputs : ℕ → InputMap BoolRing) (circ : LevelOrderedCircuit BoolRing) (s : ℕ → BoolEvaluator)
    (id : ℕ) : BoolEvaluator × List BoolRing :=
  let t := evaluatorAfterLevels nP preproc circ.gates_by_level
    (evaluatorAfterInputs ipm preproc inputs circ s)
  (t id, circ.outputs.map fun wout =>
    if id = 0 then 0 else (t id).wires_ wout - (preproc 0 wout).mask.tp.secret)

theorem evaluator_completes (hd : BoolInputsDealt nP ipm preproc inputs circ)
    (s : ℕ → BoolEvaluator) : Completes (Finset.range (nP + 1))
      (fun id => BoolEvaluator.evaluateCircuit nP id (preproc id) (inputs id)
        circ.orderGatesByLevel (s id))
      (evaluatorResult nP ipm preproc inputs circ.orderGatesByLevel s) := by
  have hlevels : ∀ s, Completes (Finset.range (nP + 1)) (fun id =>
      circ.orderGatesByLevel.gates_by_level.foldlM (fun s level =>
        BoolEvaluator.evaluateGatesAtDepth nP id (preproc id) level s) (s id))
      (evaluatorAfterLevels nP preproc circ.orderGatesByLevel.gates_by_level s) :=
    Completes.foldlM _ fun _ _ s => evaluatorLevel_completes s
  have houts : ∀ t : ℕ → BoolEvaluator, Completes (Finset.range (nP + 1)) (fun id =>
      BoolEvaluator.getOutputs nP id (preproc id) circ.orderGatesByLevel (t id)) _ := fun t =>
    tpUnmasks_completes rawBits circ.orderGatesByLevel.outputs
      (fun id w => (preproc id w).mask.tp.secret) fun id => (t id).wires_
  exact (evaluatorInputs_completes hd s).bind ((hlevels _).bind ((houts _).map _))

theorem evaluatorResult_correct (hnP : 1 ≤ nP)
    (hpre : BoolPreproc nP keySh circ (preproc 0) preproc)
    (htypes : ∀ g ∈ circ.gates_, g.type = .kInp ∨ g.type.arithmetic)
    (hd : BoolInputsDealt nP ipm preproc inputs circ)
    (hinputs : ∀ g ∈ circ.gates_, g.type = .kInp →
      dealtBit ipm preproc inputs g.out = maskedWire circ (preproc 0) f g.out)
    (hs : EvaluatorsCommon nP ws st s) {i : ℕ} (hi : i ∈ parties nP) :
    (evaluatorResult nP ipm preproc inputs circ.orderGatesByLevel s i).2 =
      circ.outputs_.map (circ.value f) := by
  obtain ⟨st', hstart⟩ := evaluatorInputs_common hd (circ.orderGatesByLevel.gates_by_level.getD 0 [])
    (fun g hg => circ.mem_of_mem_level_zero hg) hs
  have hset : ∀ w ∈ ∅ ∪ circ.inputSet, inputWiresSet (dealtBit ipm preproc inputs)
      (circ.orderGatesByLevel.gates_by_level.getD 0 []) ws w = maskedWire circ (preproc 0) f w := by
    rintro w (hw | ⟨g, hg, ht, rfl⟩)
    · exact hw.elim
    · rw [← hinputs g hg ht]
      exact inputWiresSet_eq _ (circ.input_mem_level_zero hg ht) ht _
  obtain ⟨ws', st'', hend, hmasked⟩ := evaluatorAfterLevels_masked hnP hpre htypes
    circ.orderGatesByLevel.gates_by_level (fun g hg => (circ.mem_levels g).mp hg) circ.levelSched
    hstart hset
  refine List.map_congr_left fun w hw => ?_
  have hout : w ∈ outs circ.orderGatesByLevel.gates_by_level.flatten := by
    rw [circ.outs_levels, circ.mem_outs_iff]
    exact circ.outputs_valid w hw
  have hval := hmasked w (.inl (.inr hout))
  rw [if_neg (ne_zero_of_parties hi)]
  refine (congrArg (· - _) ((congrFun (hend i hi).1 w).trans hval)).trans ?_
  exact add_sub_cancel_right _ _

end Evaluation

/-! ## Both phases -/

section Program
variable {blockPrg : ℕ → Prg} {seed nP : ℕ} {ipm : ℕ → ℕ} {bit_mask_map : InputMap BoolRing}
  {inputs : ℕ → InputMap BoolRing} {circ : Circuit BoolRing}

def constructedPreproc (blockPrg : ℕ → Prg) (nP : ℕ) (ipm : ℕ → ℕ) (bit_mask_map : InputMap BoolRing)
    (circ : Circuit BoolRing) (id : ℕ) : BoolGates :=
  (offlineBoolResult nP ipm bit_mask_map circ.orderGatesByLevel (fun _ => .constructed blockPrg)
    id).1.gates

variable (blockPrg nP ipm bit_mask_map) in
theorem constructed_good (htypes : ∀ g ∈ circ.gates_, g.type = .kInp ∨ g.type.arithmetic) :
    ∃ keySh, ∀ i, 1 ≤ i → i ≤ nP → ∀ g ∈ circ.gates_, OfflineBoolGood nP keySh i ipm bit_mask_map
      (constructedPreproc blockPrg nP ipm bit_mask_map circ 0)
      (constructedPreproc blockPrg nP ipm bit_mask_map circ i) g :=
  ⟨_, fun _ hi hn =>
    (offlineBoolResult_consistent (hi.trans hn) htypes hi hn rfl).stored.gates⟩

variable (blockPrg ipm bit_mask_map) in
theorem constructed_preproc (hnP : 1 ≤ nP)
    (htypes : ∀ g ∈ circ.gates_, g.type = .kInp ∨ g.type.arithmetic) :
    ∃ keySh, BoolPreproc nP keySh circ (constructedPreproc blockPrg nP ipm bit_mask_map circ 0)
      (constructedPreproc blockPrg nP ipm bit_mask_map circ) := by
  obtain ⟨keySh, hgood⟩ := constructed_good blockPrg nP ipm bit_mask_map htypes
  exact ⟨keySh, fun i hi hn g hg => (hgood i hi hn g hg).agrees,
    fun g hg => (hgood 1 le_rfl hnP g hg).opens⟩

theorem OfflineBoolGood.input {i : ℕ} {keySh : ℕ → BoolRing} {c d : BoolGates} {g : Gate BoolRing}
    (h : OfflineBoolGood nP keySh i ipm bit_mask_map c d g) (ht : g.type = .kInp)
    (h0 : ipm g.out ≠ 0) : (boolInputOf (c g.out).ext).1 = ipm g.out ∧
      (boolInputOf (d g.out).ext).1 = ipm g.out ∧
      (ipm g.out = i → (boolInputOf (d g.out).ext).2 = (c g.out).secret) := by
  have hc := h.dealt ht h0
  have hag := h.agrees.ext
  rw [hc] at hag ⊢
  cases hd : (d g.out).ext with
  | input pid v =>
    rw [hd] at hag
    obtain ⟨rfl, hv⟩ := hag
    exact ⟨rfl, rfl, fun h => hv h⟩
  | _ =>
    rw [hd] at hag
    exact hag.elim

variable (blockPrg bit_mask_map) in
theorem constructed_dealt (hnP : 1 ≤ nP)
    (htypes : ∀ g ∈ circ.gates_, g.type = .kInp ∨ g.type.arithmetic)
    (hdealer : ∀ g ∈ circ.gates_, g.type = .kInp →
      1 ≤ ipm g.out ∧ ipm g.out < nP ∧ g.out ∈ (inputs (ipm g.out)).keys) :
    let preproc := constructedPreproc blockPrg nP ipm bit_mask_map circ
    BoolInputsDealt nP ipm preproc inputs circ ∧ ∀ g ∈ circ.gates_, g.type = .kInp →
      dealtBit ipm preproc inputs g.out =
        (preproc 0 g.out).secret + (inputs (ipm g.out)).val g.out := by
  obtain ⟨keySh, hgood⟩ := constructed_good blockPrg nP ipm bit_mask_map htypes
  have hne : ∀ g ∈ circ.gates_, g.type = .kInp → ipm g.out ≠ 0 := fun g hg ht => by
    have := (hdealer g hg ht).1
    omega
  refine ⟨⟨fun g hg ht i hn => ?_, hdealer⟩, fun g hg ht => ?_⟩
  · by_cases hi : i = 0
    · subst hi
      exact ((hgood 1 le_rfl hnP g hg).input ht (hne g hg ht)).1
    · exact ((hgood i (Nat.one_le_iff_ne_zero.mpr hi) hn g hg).input ht (hne g hg ht)).2.1
  · obtain ⟨h1, hn, -⟩ := hdealer g hg ht
    exact congrArg (· + _) (((hgood _ h1 hn.le g hg).input ht (hne g hg ht)).2.2 rfl)

theorem program_of_le {id : ℕ} (h : nP ≤ seed) {bits : InputMap BoolRing}
    {circ : LevelOrderedCircuit BoolRing} :
    BoolEvaluator.program blockPrg seed nP id ipm bit_mask_map bits circ =
      OfflineBoolEvaluator.setWireMasks nP id ipm bit_mask_map circ (.constructed blockPrg) >>= fun p =>
        Prod.snd <$> BoolEvaluator.evaluateCircuit nP id p.1.gates bits circ
          { all_minus_0 := RandGenPool.constructed blockPrg .all_minus_0 } :=
  if_neg fun hlt => absurd hlt.2 (Nat.not_lt.mpr h)

/-- Without an entry of `bit_mask_map` for some input, or with an input of party `nP`, the trusted
party does not get through. -/
theorem program_stuck (hnP : 1 ≤ nP) (hseed : nP ≤ seed)
    (htypes : ∀ g ∈ circ.gates_, g.type = .kInp ∨ g.type.arithmetic) {bits : InputMap BoolRing}
    (h : ¬ bit_mask_map.Covers circ ∨ ∃ g ∈ circ.gates_, g.type = .kInp ∧ ipm g.out = nP) :
    (BoolEvaluator.program blockPrg seed nP 0 ipm bit_mask_map bits
      circ.orderGatesByLevel).NeverReturns := by
  have hne : (0 : ℕ) ≠ nP := by omega
  rw [program_of_le hseed]
  by_cases hcovers : bit_mask_map.Covers circ
  · obtain ⟨g, hg, ht, hpid⟩ := h.resolve_left (not_not_intro hcovers)
    obtain ⟨keySh, hgood⟩ := constructed_good blockPrg nP ipm bit_mask_map htypes
    have hinput := ((hgood 1 le_rfl hnP g hg).input ht (by omega)).1
    have hstuck : ∀ s, (BoolEvaluator.setInput nP 0
        (constructedPreproc blockPrg nP ipm bit_mask_map circ 0) bits s g).NeverReturns := by
      intro s
      rw [BoolEvaluator.setInput, if_pos ht]
      simp only [hinput, if_pos hpid.ge]
      trivial
    have hwalk : constructedPreproc blockPrg nP ipm bit_mask_map circ 0 =
        (boolWalk nP 0 ipm bit_mask_map circ.orderGatesByLevel
          ⟨.constructed blockPrg, readQueues [] [] []⟩).1.gates := by
      rw [constructedPreproc, offlineBoolResult, if_neg hne]
    have hinputs := Proc.NeverReturns.foldlM (circ.input_mem_level_zero hg ht) hstuck
      { all_minus_0 := RandGenPool.constructed blockPrg .all_minus_0 }
    rw [hwalk] at hinputs
    rw [setWireMasks_zero hnP hcovers]
    exact (hinputs.bind_left _).bind_left _
  · obtain ⟨e, s', he⟩ := setWireMasksParty_throws nP 0 ipm hcovers
      ⟨.constructed blockPrg, readQueues [] [] []⟩
    refine Proc.NeverReturns.bind_left ?_ _
    simp only [OfflineBoolEvaluator.setWireMasks, ne_eq, hne, not_false_eq_true, if_true, he]
    trivial

theorem program_diverges (hnP : 1 ≤ nP) (hseed : nP ≤ seed)
    (htypes : ∀ g ∈ circ.gates_, g.type = .kInp ∨ g.type.arithmetic)
    (h : ¬ bit_mask_map.Covers circ ∨ ∃ g ∈ circ.gates_, g.type = .kInp ∧ ipm g.out = nP)
    (r : ℕ → List BoolRing) : ¬ Converges (Finset.range (nP + 1))
      (fun id => BoolEvaluator.program blockPrg seed nP id ipm bit_mask_map (inputs id)
        circ.orderGatesByLevel) r := fun hr =>
  hr.returns (show 0 ∈ Finset.range (nP + 1) by simp) (program_stuck hnP hseed htypes h)

/-- Both phases end under every schedule with the outputs of plaintext evaluation exactly when the
pool has a stream for party `nP`, `bit_mask_map` has an entry for every input and no input is dealt
by party `nP`. -/
theorem boolEvaluator_correct_iff (blockPrg : ℕ → Prg) (seed nP : ℕ) (hnP : 1 ≤ nP)
    (circ : Circuit BoolRing) (htypes : ∀ g ∈ circ.gates_, g.type = .kInp ∨ g.type.arithmetic)
    (ipm : ℕ → ℕ) (hipm : ∀ g ∈ circ.gates_, g.type = .kInp → 1 ≤ ipm g.out ∧ ipm g.out ≤ nP)
    (bit_mask_map : InputMap BoolRing) (x : ℕ → BoolRing) (inputs : ℕ → InputMap BoolRing)
    (hinputs : ∀ g ∈ circ.gates_, g.type = .kInp →
      g.out ∈ (inputs (ipm g.out)).keys ∧ (inputs (ipm g.out)).val g.out = x g.out) :
    (∃ r, Converges (Finset.range (nP + 1))
        (fun id => BoolEvaluator.program blockPrg seed nP id ipm bit_mask_map (inputs id)
          circ.orderGatesByLevel) r ∧
      ∀ i, 1 ≤ i → i ≤ nP → circ.evaluate (circ.assign x) = .ok (r i)) ↔
    nP ≤ seed ∧ bit_mask_map.Covers circ ∧ ∀ g ∈ circ.gates_, g.type = .kInp → ipm g.out ≠ nP := by
  constructor
  · rintro ⟨r, hr, -⟩
    have hseed : nP ≤ seed := by
      by_contra hlt
      have hret := hr.returns (show 0 ∈ Finset.range (nP + 1) by simp)
      rw [BoolEvaluator.program, if_pos ⟨rfl, Nat.lt_of_not_le hlt⟩] at hret
      exact hret trivial
    refine ⟨hseed, ?_, fun g hg ht hpid => ?_⟩
    · by_contra hcovers
      exact program_diverges hnP hseed htypes (.inl hcovers) r hr
    · exact program_diverges hnP hseed htypes (.inr ⟨g, hg, ht, hpid⟩) r hr
  · rintro ⟨hseed, hcovers, hne⟩
    obtain ⟨keySh, hpre⟩ := constructed_preproc blockPrg ipm bit_mask_map hnP htypes
    obtain ⟨hd, hdealt⟩ := constructed_dealt blockPrg bit_mask_map hnP htypes fun g hg ht =>
      ⟨(hipm g hg ht).1, lt_of_le_of_ne (hipm g hg ht).2 (hne g hg ht), (hinputs g hg ht).1⟩
    set preproc := constructedPreproc blockPrg nP ipm bit_mask_map circ
    let s : ℕ → BoolEvaluator := fun _ =>
      { all_minus_0 := RandGenPool.constructed blockPrg .all_minus_0 }
    have hrun : Completes (Finset.range (nP + 1))
        (fun id => BoolEvaluator.program blockPrg seed nP id ipm bit_mask_map (inputs id)
          circ.orderGatesByLevel)
        fun id => (evaluatorResult nP ipm preproc inputs circ.orderGatesByLevel s id).2 := by
      let online := fun id (p : OfflineBoolResult × DrawState BoolRing) =>
        Prod.snd <$> BoolEvaluator.evaluateCircuit nP id p.1.gates (inputs id)
          circ.orderGatesByLevel (s id)
      have honline : Completes (Finset.range (nP + 1))
          (fun id => online id (offlineBoolResult nP ipm bit_mask_map circ.orderGatesByLevel
            (fun _ => .constructed blockPrg) id)) _ := (evaluator_completes hd s).map fun _ p => p.2
      refine ((offlineBool_completes hnP hcovers _).bind honline).congr (fun id _ => ?_)
        fun _ _ => rfl
      exact program_of_le hseed
    refine ⟨_, hrun.converges, fun i hi hn => ?_⟩
    have hmasked : ∀ g ∈ circ.gates_, g.type = .kInp →
        dealtBit ipm preproc inputs g.out = maskedWire circ (preproc 0) x g.out := by
      intro g hg ht
      rw [hdealt g hg ht, (hinputs g hg ht).2, maskedWire, circ.value_eq _ hg,
        Gate.value_of_kInp ht, add_comm]
    rw [evaluatorResult_correct hnP hpre htypes hd hmasked (fun _ _ => ⟨rfl, rfl⟩)
      (mem_parties.mpr ⟨hi, hn⟩)]
    exact circ.evaluate_eq x fun g hg => by
      obtain h | h := htypes g hg
      · rw [h]
        decide
      · exact GateType.arithmetic_ne h

/-- A conjunction of two bits of party 1, in a run of two parties. -/
theorem boolEvaluator_correct_iff_and :
    (∃ r, Converges (Finset.range 3)
        (fun id => BoolEvaluator.program (fun _ _ _ => 7) 200 2 id (fun _ => 1) ⟨{0, 1}, fun _ => 0⟩
          ⟨{0, 1}, fun _ => 1⟩ andCircuit.orderGatesByLevel) r ∧
      ∀ i, 1 ≤ i → i ≤ 2 → andCircuit.evaluate (andCircuit.assign fun _ => 1) = .ok (r i)) ↔
    2 ≤ 200 ∧ (⟨{0, 1}, fun _ => 0⟩ : InputMap BoolRing).Covers andCircuit ∧
      ∀ g ∈ andCircuit.gates_, g.type = .kInp → 1 ≠ 2 :=
  boolEvaluator_correct_iff (fun _ _ _ => 7) 200 2 (by decide) andCircuit (by decide) (fun _ => 1)
    (fun _ _ _ => ⟨le_rfl, by decide⟩) ⟨{0, 1}, fun _ => 0⟩ (fun _ => 1)
    (fun _ => ⟨{0, 1}, fun _ => 1⟩) (by decide)

/-- With the second bit from party 2 there is no result. -/
theorem boolEvaluator_last_dealer :
    ¬ ∃ r, Converges (Finset.range 3)
        (fun id => BoolEvaluator.program (fun _ _ _ => 7) 200 2 id (fun w => w + 1)
          ⟨{0, 1}, fun _ => 0⟩ ⟨{0, 1}, fun _ => 1⟩ andCircuit.orderGatesByLevel) r := by
  rintro ⟨r, hr⟩
  have hgates : andCircuit.gates_ = [⟨.kInp, 0⟩, ⟨.kInp, 1⟩, ⟨.kMul 0 1, 2⟩] := rfl
  have hlast : ∃ g ∈ andCircuit.gates_, g.type = .kInp ∧ g.out + 1 = 2 := by
    rw [hgates]
    exact ⟨⟨.kInp, 1⟩, by simp, rfl, rfl⟩
  exact program_diverges (by decide) (by decide) (by decide) (.inr hlast) r hr

end Program

end QSync
