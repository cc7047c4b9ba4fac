import QSync.Asterisk.BoolEvaluatorRun

/-! # The tags of Boolean openings

What `BoolEvaluator` and `BoolEval` store in `q_sh_` and `q_val_` (`vqsh`, `vqval`) for an opening.
The values of the stored shares add up to the opened value. `padShare` adds the random bit of its own
party to its tag once for every party, so the tags fit the opened value only when key shares and
random bits happen to satisfy `PadsMatch` (`OpenedAs.authentic_iff`).
-/

namespace QSync
open Network Batching AuthSharing
set_option autoImplicit false
set_option maxHeartbeats 250000

/-! ## What `BoolEval` stores -/

/-- `vqsh` and `vqval`, by instance and wire. -/
structure BoolOpenings where
  vqsh : ℕ → ℕ → AuthAddShare BoolRing := fun _ _ => default
  vqval : ℕ → ℕ → BoolRing := fun _ _ => 0

def setEntry {α : Type} (f : ℕ → ℕ → α) (j : ℕ × Gate BoolRing) (v : α) : ℕ → ℕ → α :=
  Function.update f j.1 (Function.update (f j.1) j.2.out v)

/-- `qsh` of `evaluateGatesAtDepthPartySend`: the padded share of every opened gate. -/
def BoolEval.storeShares (nP id : ℕ) (vpreproc : ℕ → BoolGates) (vwires : ℕ → ℕ → BoolRing)
    (jobs : List (ℕ × Gate BoolRing)) (vqsh : ℕ → ℕ → AuthAddShare BoolRing) :
    StateM Stream (ℕ → ℕ → AuthAddShare BoolRing) := do
  let shares ← jobs.mapM fun j => do
    let r ← drawPads nP (jobType j)
    pure (j, padShare nP id r (gateShare id (vwires j.1) (vpreproc j.1) j.2))
  pure (shares.foldl (fun vqsh x =>
    if jobType x.1 ∈ multTypes then setEntry vqsh x.1 x.2 else vqsh) vqsh)

/-- `qval` of `evaluateGatesAtDepthPartySend` for one gate. -/
def BoolEval.clearValue (vqval : ℕ → ℕ → BoolRing) (j : ℕ × Gate BoolRing) : ℕ → ℕ → BoolRing :=
  if jobType j ∈ [.kMul, .kMul3, .kMul4] then setEntry vqval j 0 else vqval

/-- `qval` of `evaluateGatesAtDepthPartyRecv` for one gate. -/
def BoolEval.storeValue (all : GateType → List BoolRing)
    (acc : (ℕ → ℕ → BoolRing) × (GateType → ℕ)) (j : ℕ × Gate BoolRing) :
    (ℕ → ℕ → BoolRing) × (GateType → ℕ) :=
  let idx := acc.2 (jobType j)
  if jobType j ∈ multTypes then
    (setEntry acc.1 j ((all (jobType j)).getD idx 0), Function.update acc.2 (jobType j) (idx + 1))
  else if jobType j = .kAdd ∨ jobType j = .kSub then (setEntry acc.1 j 0, acc.2)
  else acc

/-- `BoolEval::evaluateGatesAtDepth` with all it stores. -/
def BoolEval.openGatesAtDepth (nP id m : ℕ) (vpreproc : ℕ → BoolGates)
    (level : List (Gate BoolRing)) (x : BoolEval × BoolOpenings) :
    Proc ℕ (BoolEval × BoolOpenings) :=
  if id = 0 then pure x
  else do
    let (s, o) := x
    let jobs := levelJobs m level
    let (sent, all_minus_0) := boolPartySend nP id vpreproc s.vwires jobs s.all_minus_0
    let (vqsh, _) := BoolEval.storeShares nP id vpreproc s.vwires jobs o.vqsh s.all_minus_0
    let vqval := jobs.foldl BoolEval.clearValue o.vqval
    let agg_values ← openShares bitCodec nP id (boolComm sent)
    let all := split (boolNum m level) multTypes agg_values
    let r_pad := batch PaddedShare.type sent PaddedShare.r_sum
    pure (⟨all_minus_0, boolPartyRecv all r_pad jobs s.vwires⟩,
      ⟨vqsh, (jobs.foldl (BoolEval.storeValue all) (vqval, fun _ => 0)).1⟩)

theorem openGatesAtDepth_fst (nP id m : ℕ) (vpreproc : ℕ → BoolGates)
    (level : List (Gate BoolRing)) (x : BoolEval × BoolOpenings) :
    Prod.fst <$> BoolEval.openGatesAtDepth nP id m vpreproc level x =
      BoolEval.evaluateGatesAtDepth nP id m vpreproc level x.1 := by
  by_cases h : id = 0
  · simp only [BoolEval.openGatesAtDepth, BoolEval.evaluateGatesAtDepth, if_pos h, map_pure]
  · simp only [BoolEval.openGatesAtDepth, BoolEval.evaluateGatesAtDepth, if_neg h]
    exact map_bind _ _ _

/-! ## Padded shares -/

/-- The sharing of an opening authenticates it when key shares and random bits satisfy this
equation: with `nP` odd on the right the sum of the products of key share and bit, with `nP` even
zero. -/
def PadsMatch (nP : ℕ) (keySh : ℕ → BoolRing) (r : List BoolRing) : Prop :=
  (∑ i ∈ Finset.Icc 1 nP, keySh i) * r.sum =
    nP • ∑ i ∈ Finset.Icc 1 nP, keySh i * r.getD (i - 1) 0

instance (nP : ℕ) (keySh : ℕ → BoolRing) (r : List BoolRing) : Decidable (PadsMatch nP keySh r) :=
  inferInstanceAs (Decidable (_ = _))

theorem padShare_tag (nP id : ℕ) (r : List BoolRing) (q_share : AuthAddShare BoolRing) :
    (padShare nP id r q_share).tag_ =
      q_share.tag_ + nP • (q_share.key_sh_ * r.getD (id - 1) 0) := by
  have hloop : ∀ (ps : List ℕ) (q : AuthAddShare BoolRing), q.key_sh_ = q_share.key_sh_ →
      (ps.foldl (fun q i => q.addWithAdder (r.getD (id - 1) 0) id i) q).tag_ =
        q.tag_ + ps.length • (q_share.key_sh_ * r.getD (id - 1) 0) := by
    intro ps
    induction ps with
    | nil => intro q _; rw [List.length_nil, zero_smul, add_zero]; rfl
    | cons p ps ih =>
      intro q hq
      rw [List.foldl_cons, ih _ ((AuthAddShare.addWithAdder_key _ _ _ _).trans hq),
        AuthAddShare.addWithAdder_tag, hq, List.length_cons, succ_nsmul', add_assoc]
  have h := hloop (parties nP) q_share rfl
  rwa [parties, List.length_range'] at h

def openedSum (nP : ℕ) (preproc : ℕ → BoolGates) (ws : ℕ → BoolRing) (x : PaddedGate) : BoolRing :=
  ∑ i ∈ Finset.Icc 1 nP, (gateOpening nP i (preproc i) ws x).q_share.value_

/-- The parties hold the shares `q_sh` and the values `q_val` of an opening of `x`. -/
def OpenedAs (nP : ℕ) (preproc : ℕ → BoolGates) (x : PaddedGate) (q_sh : ℕ → AuthAddShare BoolRing)
    (q_val : ℕ → BoolRing) : Prop :=
  ∃ ws, ∀ i ∈ parties nP,
    q_sh i = (gateOpening nP i (preproc i) ws x).q_share ∧ q_val i = openedSum nP preproc ws x

/-- The parties hold the same opened value and an authenticated sharing of it. -/
def Authentic (nP : ℕ) (keySh : ℕ → BoolRing) (q_sh : ℕ → AuthAddShare BoolRing)
    (q_val : ℕ → BoolRing) : Prop :=
  ∃ q, (∀ i ∈ parties nP, q_val i = q) ∧
    Authenticates (Finset.Icc 1 nP) keySh (fun i => (q_sh i).value_) (fun i => (q_sh i).tag_) q

section Authentic
variable {nP : ℕ} {circ : Circuit BoolRing} {keySh : ℕ → BoolRing} {tp : BoolGates}
  {preproc : ℕ → BoolGates}

theorem sum_padShare_tag {r : List BoolRing} {s : ℕ → AuthAddShare BoolRing} {x : BoolRing}
    (h : SharesOf nP keySh s x) : ∑ i ∈ Finset.Icc 1 nP, (padShare nP i r (s i)).tag_ =
      (∑ i ∈ Finset.Icc 1 nP, keySh i) * x +
        nP • ∑ i ∈ Finset.Icc 1 nP, keySh i * r.getD (i - 1) 0 := by
  rw [← h.auth.tagged, ← Finset.sum_nsmul, ← Finset.sum_add_distrib]
  refine Finset.sum_congr rfl fun i hi => ?_
  rw [padShare_tag, h.key i hi]

theorem OpenedAs.authentic_iff (hnP : 1 ≤ nP) (hpre : BoolPreproc nP keySh circ tp preproc)
    {x : PaddedGate} (hg : x.1 ∈ circ.gates_) (ht : x.type ∈ multTypes) (hr : x.2.length = nP)
    {q_sh : ℕ → AuthAddShare BoolRing} {q_val : ℕ → BoolRing}
    (h : OpenedAs nP preproc x q_sh q_val) :
    Authentic nP keySh q_sh q_val ↔ PadsMatch nP keySh x.2 := by
  obtain ⟨ws, hws⟩ := h
  have hmem : ∀ i ∈ Finset.Icc 1 nP, i ∈ parties nP := fun i hi =>
    mem_parties.mpr (Finset.mem_Icc.mp hi)
  obtain ⟨v, hshares⟩ : ∃ v, SharesOf nP keySh (fun i => gateShare i ws (preproc i) x.1) v :=
    ⟨_, hpre.sharesOf hnP (fun _ => 0) ws hg ht⟩
  have hopened : openedSum nP preproc ws x = v + x.2.sum :=
    (sum_padShare hr _).trans (congrArg (· + _) hshares.auth.opens)
  have hvalues : ∑ i ∈ Finset.Icc 1 nP, (q_sh i).value_ = openedSum nP preproc ws x :=
    Finset.sum_congr rfl fun i hi => by rw [(hws i (hmem i hi)).1]
  have htags : ∑ i ∈ Finset.Icc 1 nP, (q_sh i).tag_ = (∑ i ∈ Finset.Icc 1 nP, keySh i) * v +
      nP • ∑ i ∈ Finset.Icc 1 nP, keySh i * x.2.getD (i - 1) 0 := by
    rw [← sum_padShare_tag hshares]
    exact Finset.sum_congr rfl fun i hi => by rw [(hws i (hmem i hi)).1, gateOpening]
  constructor
  · rintro ⟨q, hq, hauth⟩
    have hq' : q = v + x.2.sum := by
      rw [← hq 1 (mem_parties.mpr ⟨le_rfl, hnP⟩), (hws 1 (mem_parties.mpr ⟨le_rfl, hnP⟩)).2, hopened]
    have h := htags.symm.trans hauth.tagged
    rw [hq', mul_add] at h
    exact (add_left_cancel h).symm
  · intro hmatch
    refine ⟨v + x.2.sum, fun i hi => (hws i hi).2.trans hopened, hvalues.trans hopened, ?_⟩
    rw [htags, mul_add, ← hmatch]

end Authentic

/-! ## Runs of `BoolEvaluator` -/

/-- All parties hold the same wires and are at the same place of the common stream. -/
def EvaluatorsCommon (nP : ℕ) (ws : ℕ → BoolRing) (st : Stream) (s : ℕ → BoolEvaluator) : Prop :=
  ∀ i ∈ parties nP, (s i).wires_ = ws ∧ (s i).all_minus_0 = st

section Evaluator
variable {nP : ℕ} {preproc : ℕ → BoolGates} {level : List (Gate BoolRing)} {ws : ℕ → BoolRing}
  {st : Stream} {s : ℕ → BoolEvaluator}

def commonWires (nP : ℕ) (preproc : ℕ → BoolGates) (level : List (Gate BoolRing))
    (ws : ℕ → BoolRing) : ℕ → BoolRing :=
  levelWires (multOpened fun g => ∑ i ∈ Finset.Icc 1 nP, (gateShare i ws (preproc i) g).value_) level
    ws

theorem openedSum_sub {x : PaddedGate} (hr : x.2.length = nP) :
    openedSum nP preproc ws x - x.2.sum =
      ∑ i ∈ Finset.Icc 1 nP, (gateShare i ws (preproc i) x.1).value_ := by
  rw [sub_eq_iff_eq_add]
  exact sum_padShare hr _

theorem evaluatorAfterLevel_eq (hs : EvaluatorsCommon nP ws st s) {i : ℕ} (hi : i ∈ parties nP) :
    evaluatorAfterLevel nP preproc level s i =
      (paddedGates nP level st).foldl (recvPadded (openedSum nP preproc ws))
        (beforeRecv nP i (preproc i) level st (s i)) := by
  have hcomm : evaluatorOpened nP preproc level s =
      openedValues nP (multTypes.map (multNum level)).sum fun j =>
        concat multTypes (batch PaddedGate.type (paddedGates nP level st)
          fun x => (gateOpening nP j (preproc j) ws x).q_share.value_) :=
    openedValues_congr fun j hj => by
      rw [evaluatorComm, batch_partySend, (hs j hj).1, (hs j hj).2]
  have hall : ∀ t ∈ multTypes, split (multNum level) multTypes (evaluatorOpened nP preproc level s) t =
      batch PaddedGate.type (paddedGates nP level st) (openedSum nP preproc ws) t := by
    intro t ht
    rw [hcomm, split_openedValues (by decide) (fun j _ t _ => by
      rw [length_batch, countP_paddedGates]) ht, ← countP_paddedGates st t, openedValues_batch]
    rfl
  rw [evaluatorAfterLevel, if_neg (ne_zero_of_parties hi), evaluatorRecv, partySend_eq, (hs i hi).2]
  exact partyRecv_eq hall

theorem evaluatorAfterLevel_common (hs : EvaluatorsCommon nP ws st s) :
    EvaluatorsCommon nP (commonWires nP preproc level ws) (levelPads nP level st).2
      (evaluatorAfterLevel nP preproc level s) := by
  intro i hi
  rw [evaluatorAfterLevel_eq hs hi]
  refine ⟨?_, ?_⟩
  · have hwires := foldl_recvPadded_wires
      (fun g => ∑ i ∈ Finset.Icc 1 nP, (gateShare i ws (preproc i) g).value_)
      (paddedGates nP level st)
      (fun x hx ht => openedSum_sub (length_of_mem_paddedGates hx ht))
      (beforeRecv nP i (preproc i) level st (s i))
    rw [paddedGates_map_fst] at hwires
    rw [hwires, beforeRecv, (hs i hi).1]
    rfl
  · exact (foldl_recvPadded_frame _ _).2

theorem evaluatorAfterLevel_opened (hs : EvaluatorsCommon nP ws st s)
    (hlevel : (level.map Gate.out).Nodup) {x : PaddedGate} (hx : x ∈ paddedGates nP level st)
    (ht : x.type ∈ multTypes) : OpenedAs nP preproc x
      (fun i => (evaluatorAfterLevel nP preproc level s i).q_sh_ x.1.out)
      fun i => (evaluatorAfterLevel nP preproc level s i).q_val_ x.1.out := by
  have hkeys : ((paddedGates nP level st).map fun x => x.1.out).Nodup := by
    rwa [paddedGates_map_out]
  refine ⟨ws, fun i hi => ?_⟩
  dsimp only
  rw [evaluatorAfterLevel_eq hs hi]
  constructor
  · rw [(foldl_recvPadded_frame _ _).1, beforeRecv, (hs i hi).1, List.foldl_map]
    exact foldl_read_of_nodup _ (fun q_sh_ w => q_sh_ w) (fun x : PaddedGate => x.1.out)
      (fun q_sh_ y w h => storeShare_of_ne q_sh_ (gateOpening nP i (preproc i) ws y) h) hkeys hx
      (fun q_sh_ => storeShare_self q_sh_ ht) (s i).q_sh_
  · exact foldl_read_of_nodup _ BoolEvaluator.q_val_ (fun x : PaddedGate => x.1.out)
      (fun s y w h => recvPadded_q_val_of_ne s y h) hkeys hx
      (fun s => recvPadded_q_val (openedSum nP preproc ws) s ht) _

theorem evaluatorAfterLevel_frame (hs : EvaluatorsCommon nP ws st s) {i : ℕ} (hi : i ∈ parties nP)
    {w : ℕ} (hw : w ∉ level.map Gate.out) :
    (evaluatorAfterLevel nP preproc level s i).q_sh_ w = (s i).q_sh_ w ∧
      (evaluatorAfterLevel nP preproc level s i).q_val_ w = (s i).q_val_ w := by
  have hw' : w ∉ (paddedGates nP level st).map fun x => x.1.out := by
    rwa [paddedGates_map_out]
  rw [evaluatorAfterLevel_eq hs hi]
  constructor
  · rw [(foldl_recvPadded_frame _ _).1, beforeRecv, List.foldl_map]
    exact foldl_read_of_notMem _ (fun q_sh_ w => q_sh_ w) (fun x : PaddedGate => x.1.out)
      (fun q_sh_ y w h =>
        storeShare_of_ne q_sh_ (gateOpening nP i (preproc i) (s i).wires_ y) h) hw' _
  · refine (foldl_read_of_notMem _ BoolEvaluator.q_val_ (fun x : PaddedGate => x.1.out)
      (fun s y w h => recvPadded_q_val_of_ne s y h) hw' _).trans ?_
    exact foldl_read_of_notMem _ (fun q_val_ w => q_val_ w) Gate.out
      (fun q_val_ g w h => clearValue_of_ne q_val_ g h) hw _

def evaluatorAfterLevels (nP : ℕ) (preproc : ℕ → BoolGates) (levels : List (List (Gate BoolRing)))
    (s : ℕ → BoolEvaluator) : ℕ → BoolEvaluator :=
  levels.foldl (fun s level => evaluatorAfterLevel nP preproc level s) s

theorem evaluatorAfterLevels_frame (levels : List (List (Gate BoolRing)))
    (hs : EvaluatorsCommon nP ws st s) {i : ℕ} (hi : i ∈ parties nP) {w : ℕ}
    (hw : w ∉ levels.flatten.map Gate.out) :
    (evaluatorAfterLevels nP preproc levels s i).q_sh_ w = (s i).q_sh_ w ∧
      (evaluatorAfterLevels nP preproc levels s i).q_val_ w = (s i).q_val_ w := by
  induction levels generalizing ws st s with
  | nil => exact ⟨rfl, rfl⟩
  | cons level levels ih =>
    rw [List.flatten_cons, List.map_append, List.mem_append, not_or] at hw
    have hcommon : EvaluatorsCommon nP _ _ (evaluatorAfterLevel nP preproc level s) :=
      evaluatorAfterLevel_common hs
    obtain ⟨hsh, hval⟩ := ih hcommon hw.2
    obtain ⟨hsh', hval'⟩ := evaluatorAfterLevel_frame hs hi hw.1
    exact ⟨hsh.trans hsh', hval.trans hval'⟩

theorem evaluatorAfterLevels_opened (levels : List (List (Gate BoolRing)))
    (hs : EvaluatorsCommon nP ws st s) (hlevels : (levels.flatten.map Gate.out).Nodup)
    {x : PaddedGate} (hx : x ∈ paddedGates nP levels.flatten st) (ht : x.type ∈ multTypes) :
    OpenedAs nP preproc x (fun i => (evaluatorAfterLevels nP preproc levels s i).q_sh_ x.1.out)
      fun i => (evaluatorAfterLevels nP preproc levels s i).q_val_ x.1.out := by
  induction levels generalizing ws st s with
  | nil => cases hx
  | cons level levels ih =>
    rw [List.flatten_cons, List.map_append, List.nodup_append'] at hlevels
    obtain ⟨hlevel, hrest, hdisj⟩ := hlevels
    have hcommon : EvaluatorsCommon nP _ _ (evaluatorAfterLevel nP preproc level s) :=
      evaluatorAfterLevel_common hs
    rw [List.flatten_cons, paddedGates_append, List.mem_append] at hx
    obtain hx | hx := hx
    · obtain ⟨ws', hopened⟩ : OpenedAs nP preproc x _ _ :=
        evaluatorAfterLevel_opened hs hlevel hx ht
      have hout : x.1.out ∉ levels.flatten.map Gate.out := fun h =>
        hdisj (List.mem_map_of_mem (gate_mem_of_padded hx)) h
      refine ⟨ws', fun i hi => ?_⟩
      obtain ⟨hsh, hval⟩ := evaluatorAfterLevels_frame levels hcommon hi hout
      exact ⟨hsh.trans (hopened i hi).1, hval.trans (hopened i hi).2⟩
    · exact ih hcommon hrest hx

end Evaluator

/-! ## Runs of `BoolEval` -/

/-- All parties hold the same wires in all instances and are at the same place of the common
stream. -/
def EvalsCommon (nP : ℕ) (vw : ℕ → ℕ → BoolRing) (st : Stream)
    (x : ℕ → BoolEval × BoolOpenings) : Prop :=
  ∀ i ∈ parties nP, (x i).1.vwires = vw ∧ (x i).1.all_minus_0 = st

section Eval
variable (nP m : ℕ) (vpreproc : ℕ → ℕ → BoolGates) (level : List (Gate BoolRing))

def storedAfterLevel (x : ℕ → BoolEval × BoolOpenings) (id : ℕ) : BoolOpenings :=
  let (s, o) := x id
  let jobs := levelJobs m level
  let vqval := jobs.foldl BoolEval.clearValue o.vqval
  if id = 0 then o
  else
    let all := split (boolNum m level) multTypes
      (boolOpened nP m vpreproc level fun i => (x i).1)
    ⟨(BoolEval.storeShares nP id (vpreproc id) s.vwires jobs o.vqsh s.all_minus_0).1,
      (jobs.foldl (BoolEval.storeValue all) (vqval, fun _ => 0)).1⟩

def openAfterLevel (x : ℕ → BoolEval × BoolOpenings) (id : ℕ) : BoolEval × BoolOpenings :=
  (boolAfterLevel nP m vpreproc level (fun i => (x i).1) id,
    storedAfterLevel nP m vpreproc level x id)

variable {nP m vpreproc level}

theorem openLevel_completes (hnP : 1 ≤ nP) (x : ℕ → BoolEval × BoolOpenings) :
    Completes (Finset.range (nP + 1))
      (fun id => BoolEval.openGatesAtDepth nP id m (vpreproc id) level (x id))
      (openAfterLevel nP m vpreproc level x) := by
  have hopened : Completes (Finset.range (nP + 1)) _ fun id =>
      if id = 0 then [] else boolOpened nP m vpreproc level fun i => (x i).1 :=
    boolOpen_completes hnP _
  have hopen := hopened.map fun id agg_values =>
    if id = 0 then x id
    else
      let (s, o) := x id
      let jobs := levelJobs m level
      let all := split (boolNum m level) multTypes agg_values
      let sent := boolPartySend nP id (vpreproc id) s.vwires jobs s.all_minus_0
      (⟨sent.2, boolPartyRecv all (batch PaddedShare.type sent.1 PaddedShare.r_sum) jobs s.vwires⟩,
        ⟨(BoolEval.storeShares nP id (vpreproc id) s.vwires jobs o.vqsh s.all_minus_0).1,
          (jobs.foldl (BoolEval.storeValue all)
            (jobs.foldl BoolEval.clearValue o.vqval, fun _ => 0)).1⟩)
  refine hopen.congr (fun id _ => ?_) fun id _ => ?_
  · by_cases h : id = 0
    · simp only [BoolEval.openGatesAtDepth, if_pos h]
      rfl
    · simp only [BoolEval.openGatesAtDepth, if_neg h]
      rfl
  · by_cases h : id = 0
    · simp only [openAfterLevel, boolAfterLevel, storedAfterLevel, if_pos h]
    · simp only [openAfterLevel, boolAfterLevel, storedAfterLevel, if_neg h]
      rfl

def PaddedJob.gate (x : PaddedJob) : PaddedGate := (x.1.2, x.2)

/-- The sum of all shares of a job when the instances hold the wires `vw`. -/
def jobSum (nP : ℕ) (vpreproc : ℕ → ℕ → BoolGates) (vw : ℕ → ℕ → BoolRing) (x : PaddedJob) :
    BoolRing :=
  openedSum nP (fun i => vpreproc i x.1.1) (vw x.1.1) x.gate

variable {vw : ℕ → ℕ → BoolRing} {st : Stream} {x : ℕ → BoolEval × BoolOpenings}

theorem split_boolOpened (hx : EvalsCommon nP vw st x) {t : GateType} (ht : t ∈ multTypes) :
    split (boolNum m level) multTypes (boolOpened nP m vpreproc level fun i => (x i).1) t =
      batch paddedType (paddedJobs nP m level st) (jobSum nP vpreproc vw) t := by
  have hcomm : boolOpened nP m vpreproc level (fun i => (x i).1) =
      openedValues nP (boolTotal m level) fun i => concat multTypes
        (batch paddedType (paddedJobs nP m level st) (paddedShare nP i (vpreproc i) vw)) :=
    openedValues_congr fun j hj => by
      rw [boolComm, batch_boolPartySend, (hx j hj).1, (hx j hj).2]
  rw [hcomm, boolTotal, split_openedValues (by decide) (fun i _ t _ => by
    rw [length_batch, countP_paddedJobs]) ht, ← countP_paddedJobs st t, openedValues_batch]
  rfl

theorem openAfterLevel_common (hx : EvalsCommon nP vw st x) :
    EvalsCommon nP
      (fun k => if k < m then commonWires nP (fun i => vpreproc i k) level (vw k) else vw k)
      (boolPads nP (levelJobs m level) st).2 (openAfterLevel nP m vpreproc level x) := by
  intro i hi
  have hst := (hx i hi).2
  rw [openAfterLevel, boolAfterLevel_eq _ (ne_zero_of_parties hi), hst, (hx i hi).1]
  let opened : ℕ → Gate BoolRing → BoolRing := fun k g =>
    ∑ j ∈ Finset.Icc 1 nP, (gateShare j (vw k) (vpreproc j k) g).value_
  have hopened : ∀ y ∈ paddedJobs nP m level st, paddedType y ∈ multTypes →
      jobSum nP vpreproc vw y - y.2.sum = opened y.1.1 y.1.2 := fun y hy ht =>
    openedSum_sub (length_of_mem_paddedJobs hy ht)
  exact ⟨funext fun k => boolPartyRecv_eq (fun t ht => split_boolOpened hx ht) rfl hopened vw k, rfl⟩

def jobKey (j : ℕ × Gate BoolRing) : ℕ × ℕ := (j.1, j.2.out)

theorem setEntry_of_ne {α : Type} (f : ℕ → ℕ → α) (j : ℕ × Gate BoolRing) (v : α) {k : ℕ × ℕ}
    (h : k ≠ jobKey j) : setEntry f j v k.1 k.2 = f k.1 k.2 := by
  unfold setEntry
  by_cases h1 : k.1 = j.1
  · have h2 : k.2 ≠ j.2.out := fun h2 => h (Prod.ext h1 h2)
    rw [h1, Function.update_self, Function.update_of_ne h2]
  · rw [Function.update_of_ne h1]

theorem setEntry_self {α : Type} (f : ℕ → ℕ → α) (j : ℕ × Gate BoolRing) (v : α) :
    setEntry f j v j.1 j.2.out = v := by
  rw [setEntry, Function.update_self, Function.update_self]

def storeJobShare (nP id : ℕ) (vpreproc : ℕ → BoolGates) (vw : ℕ → ℕ → BoolRing)
    (vqsh : ℕ → ℕ → AuthAddShare BoolRing) (x : PaddedJob) : ℕ → ℕ → AuthAddShare BoolRing :=
  if paddedType x ∈ multTypes then
    setEntry vqsh x.1 (gateOpening nP id (vpreproc x.1.1) (vw x.1.1) x.gate).q_share
  else vqsh

theorem storeShares_eq (id : ℕ) (vpreproc : ℕ → BoolGates) (vw : ℕ → ℕ → BoolRing)
    (vqsh : ℕ → ℕ → AuthAddShare BoolRing) (st : Stream) :
    (BoolEval.storeShares nP id vpreproc vw (levelJobs m level) vqsh st).1 =
      (paddedJobs nP m level st).foldl (storeJobShare nP id vpreproc vw) vqsh := by
  let share : ℕ × Gate BoolRing → List BoolRing → (ℕ × Gate BoolRing) × AuthAddShare BoolRing :=
    fun j r => (j, padShare nP id r (gateShare id (vw j.1) (vpreproc j.1) j.2))
  have hzip : List.zipWith share (levelJobs m level) (boolPads nP (levelJobs m level) st).1 =
      (paddedJobs nP m level st).map fun x => share x.1 x.2 := by
    rw [paddedJobs, List.map_zip_eq_zipWith]
    rfl
  rw [BoolEval.storeShares, StateM.bind_apply, StateM.mapM_bind_pure]
  refine (congrArg (List.foldl _ vqsh) hzip).trans ?_
  rw [List.foldl_map]
  rfl

def storeJobValue (A : PaddedJob → BoolRing) (vqval : ℕ → ℕ → BoolRing) (x : PaddedJob) :
    ℕ → ℕ → BoolRing :=
  if paddedType x ∈ multTypes then setEntry vqval x.1 (A x)
  else if paddedType x = .kAdd ∨ paddedType x = .kSub then setEntry vqval x.1 0
  else vqval

theorem storeValue_eq {all : GateType → List BoolRing} {A : PaddedJob → BoolRing}
    (hall : ∀ t ∈ multTypes, all t = batch paddedType (paddedJobs nP m level st) A t)
    (vqval : ℕ → ℕ → BoolRing) :
    ((levelJobs m level).foldl (BoolEval.storeValue all) (vqval, fun _ => 0)).1 =
      (paddedJobs nP m level st).foldl (storeJobValue A) vqval := by
  have hjobs : (paddedJobs nP m level st).map Prod.fst = levelJobs m level := paddedJobs_map_fst st
  rw [← hjobs, List.foldl_map]
  refine foldl_counters paddedType multTypes _ _ _ ?_ _
  rintro ys y zs hy vqval idx hidx
  unfold BoolEval.storeValue storeJobValue
  by_cases ht : paddedType y ∈ multTypes
  · have hA := getD_batch paddedType hy A 0
    rw [← hall _ ht, ← hidx _ ht] at hA
    simp only [if_pos ht, hA]
    exact ⟨trivial, countP_bump hidx⟩
  · simp only [if_neg ht]
    split
    · exact ⟨rfl, countP_keep ht hidx⟩
    · exact ⟨rfl, countP_keep ht hidx⟩

theorem storeJobShare_of_ne (id : ℕ) (vpreproc : ℕ → BoolGates) (vw : ℕ → ℕ → BoolRing)
    (vqsh : ℕ → ℕ → AuthAddShare BoolRing) (y : PaddedJob) {k : ℕ × ℕ} (h : k ≠ jobKey y.1) :
    storeJobShare nP id vpreproc vw vqsh y k.1 k.2 = vqsh k.1 k.2 := by
  unfold storeJobShare
  split
  · exact setEntry_of_ne vqsh y.1 _ h
  · rfl

theorem storeJobValue_of_ne (A : PaddedJob → BoolRing) (vqval : ℕ → ℕ → BoolRing) (y : PaddedJob)
    {k : ℕ × ℕ} (h : k ≠ jobKey y.1) : storeJobValue A vqval y k.1 k.2 = vqval k.1 k.2 := by
  unfold storeJobValue
  split
  · exact setEntry_of_ne vqval y.1 _ h
  · split
    · exact setEntry_of_ne vqval y.1 _ h
    · rfl

theorem evalClearValue_of_ne (vqval : ℕ → ℕ → BoolRing) (j : ℕ × Gate BoolRing) {k : ℕ × ℕ}
    (h : k ≠ jobKey j) : BoolEval.clearValue vqval j k.1 k.2 = vqval k.1 k.2 := by
  unfold BoolEval.clearValue
  split
  · exact setEntry_of_ne vqval j _ h
  · rfl

theorem storedAfterLevel_eq (hx : EvalsCommon nP vw st x) {i : ℕ} (hi : i ∈ parties nP) :
    storedAfterLevel nP m vpreproc level x i =
      ⟨(paddedJobs nP m level st).foldl (storeJobShare nP i (vpreproc i) vw) (x i).2.vqsh,
        (paddedJobs nP m level st).foldl (storeJobValue (jobSum nP vpreproc vw))
          ((levelJobs m level).foldl BoolEval.clearValue (x i).2.vqval)⟩ := by
  simp only [storedAfterLevel, if_neg (ne_zero_of_parties hi), (hx i hi).1, (hx i hi).2,
    storeShares_eq, storeValue_eq fun t ht => split_boolOpened hx ht]

theorem levelJobs_keys_nodup (m : ℕ) (hlevel : (level.map Gate.out).Nodup) :
    ((levelJobs m level).map jobKey).Nodup := by
  have hkeys : (levelJobs m level).map jobKey = List.range m ×ˢ level.map Gate.out := by
    rw [levelJobs, List.map_flatMap]
    refine List.flatMap_congr fun i _ => ?_
    rw [List.map_map, List.map_map]
    rfl
  rw [hkeys]
  exact List.nodup_range.product hlevel

theorem paddedJobs_map_key (st : Stream) :
    (paddedJobs nP m level st).map (fun y => jobKey y.1) = (levelJobs m level).map jobKey := by
  have h := congrArg (List.map jobKey) (@paddedJobs_map_fst nP m level st)
  rwa [List.map_map] at h

theorem openAfterLevel_opened (hx : EvalsCommon nP vw st x) (hlevel : (level.map Gate.out).Nodup)
    {y : PaddedJob} (hy : y ∈ paddedJobs nP m level st) (ht : paddedType y ∈ multTypes) :
    OpenedAs nP (fun i => vpreproc i y.1.1) y.gate
      (fun i => (openAfterLevel nP m vpreproc level x i).2.vqsh y.1.1 y.1.2.out)
      fun i => (openAfterLevel nP m vpreproc level x i).2.vqval y.1.1 y.1.2.out := by
  have hkeys : ((paddedJobs nP m level st).map fun y => jobKey y.1).Nodup := by
    rw [paddedJobs_map_key]
    exact levelJobs_keys_nodup m hlevel
  refine ⟨vw y.1.1, fun i hi => ?_⟩
  simp only [openAfterLevel, storedAfterLevel_eq hx hi]
  constructor
  · refine foldl_read_of_nodup _ (fun vqsh k => vqsh k.1 k.2) (fun y : PaddedJob => jobKey y.1)
      (fun vqsh z k h => storeJobShare_of_ne i (vpreproc i) vw vqsh z h) hkeys hy (fun vqsh => ?_) _
    simp only [storeJobShare, if_pos ht]
    exact setEntry_self vqsh y.1 _
  · refine foldl_read_of_nodup _ (fun vqval k => vqval k.1 k.2) (fun y : PaddedJob => jobKey y.1)
      (fun vqval z k h => storeJobValue_of_ne (jobSum nP vpreproc vw) vqval z h) hkeys hy
      (fun vqval => ?_) _
    simp only [storeJobValue, if_pos ht]
    exact setEntry_self vqval y.1 _

theorem openAfterLevel_frame (hx : EvalsCommon nP vw st x) {i : ℕ} (hi : i ∈ parties nP) {k w : ℕ}
    (hw : w ∉ level.map Gate.out) :
    (openAfterLevel nP m vpreproc level x i).2.vqsh k w = (x i).2.vqsh k w ∧
      (openAfterLevel nP m vpreproc level x i).2.vqval k w = (x i).2.vqval k w := by
  have hjobs : (k, w) ∉ (levelJobs m level).map jobKey := fun h => by
    obtain ⟨j, hj, hjk⟩ := List.mem_map.mp h
    exact hw (List.mem_map.mpr ⟨j.2, (mem_levelJobs.mp hj).2, congrArg Prod.snd hjk⟩)
  have hpadded : (k, w) ∉ (paddedJobs nP m level st).map fun y => jobKey y.1 := by
    rwa [paddedJobs_map_key]
  simp only [openAfterLevel, storedAfterLevel_eq hx hi]
  constructor
  · exact foldl_read_of_notMem _ (fun vqsh k => vqsh k.1 k.2) (fun y : PaddedJob => jobKey y.1)
      (fun vqsh z k h => storeJobShare_of_ne i (vpreproc i) vw vqsh z h) hpadded _
  · refine (foldl_read_of_notMem _ (fun vqval k => vqval k.1 k.2) (fun y : PaddedJob => jobKey y.1)
      (fun vqval z k h => storeJobValue_of_ne (jobSum nP vpreproc vw) vqval z h) hpadded _).trans ?_
    exact foldl_read_of_notMem _ (fun vqval k => vqval k.1 k.2) jobKey
      (fun vqval z k h => evalClearValue_of_ne vqval z h) hjobs _

def openAfterLevels (nP m : ℕ) (vpreproc : ℕ → ℕ → BoolGates) (levels : List (List (Gate BoolRing)))
    (x : ℕ → BoolEval × BoolOpenings) : ℕ → BoolEval × BoolOpenings :=
  levels.foldl (fun x level => openAfterLevel nP m vpreproc level x) x

def runJobs (nP m : ℕ) (levels : List (List (Gate BoolRing))) (st : Stream) : List PaddedJob :=
  (levels.flatMap (levelJobs m)).zip (boolPads nP (levels.flatMap (levelJobs m)) st).1

theorem runJobs_cons (levels : List (List (Gate BoolRing))) (st : Stream) :
    runJobs nP m (level :: levels) st = paddedJobs nP m level st ++
      runJobs nP m levels (boolPads nP (levelJobs m level) st).2 := by
  rw [runJobs, List.flatMap_cons]
  exact StateM.zip_mapM_append _ _ _ _

theorem openAfterLevels_frame (levels : List (List (Gate BoolRing))) (hx : EvalsCommon nP vw st x)
    {i : ℕ} (hi : i ∈ parties nP) {k w : ℕ} (hw : w ∉ levels.flatten.map Gate.out) :
    (openAfterLevels nP m vpreproc levels x i).2.vqsh k w = (x i).2.vqsh k w ∧
      (openAfterLevels nP m vpreproc levels x i).2.vqval k w = (x i).2.vqval k w := by
  induction levels generalizing vw st x with
  | nil => exact ⟨rfl, rfl⟩
  | cons level levels ih =>
    rw [List.flatten_cons, List.map_append, List.mem_append, not_or] at hw
    have hcommon : EvalsCommon nP _ _ (openAfterLevel nP m vpreproc level x) :=
      openAfterLevel_common hx
    obtain ⟨hsh, hval⟩ := ih hcommon hw.2
    obtain ⟨hsh', hval'⟩ := openAfterLevel_frame hx hi hw.1
    exact ⟨hsh.trans hsh', hval.trans hval'⟩

theorem openAfterLevels_opened (levels : List (List (Gate BoolRing))) (hx : EvalsCommon nP vw st x)
    (hlevels : (levels.flatten.map Gate.out).Nodup) {y : PaddedJob}
    (hy : y ∈ runJobs nP m levels st) (ht : paddedType y ∈ multTypes) :
    OpenedAs nP (fun i => vpreproc i y.1.1) y.gate
      (fun i => (openAfterLevels nP m vpreproc levels x i).2.vqsh y.1.1 y.1.2.out)
      fun i => (openAfterLevels nP m vpreproc levels x i).2.vqval y.1.1 y.1.2.out := by
  induction levels generalizing vw st x with
  | nil => cases hy
  | cons level levels ih =>
    rw [List.flatten_cons, List.map_append, List.nodup_append'] at hlevels
    obtain ⟨hlevel, hrest, hdisj⟩ := hlevels
    have hcommon : EvalsCommon nP _ _ (openAfterLevel nP m vpreproc level x) :=
      openAfterLevel_common hx
    rw [runJobs_cons, List.mem_append] at hy
    obtain hy | hy := hy
    · obtain ⟨ws', hopened⟩ : OpenedAs nP (fun i => vpreproc i y.1.1) y.gate _ _ :=
        openAfterLevel_opened hx hlevel hy ht
      have hjob : y.1 ∈ levelJobs m level := by
        rw [← @paddedJobs_map_fst nP m level st]
        exact List.mem_map_of_mem hy
      have hout : y.1.2.out ∉ levels.flatten.map Gate.out := fun h =>
        hdisj (List.mem_map_of_mem (mem_levelJobs.mp hjob).2) h
      refine ⟨ws', fun i hi => ?_⟩
      obtain ⟨hsh, hval⟩ := openAfterLevels_frame levels hcommon hi hout
      exact ⟨hsh.trans (hopened i hi).1, hval.trans (hopened i hi).2⟩
    · exact ih hcommon hrest hy

end Eval

/-! ## The tags -/

section Tags
variable {nP : ℕ} {circ : Circuit BoolRing}

theorem Circuit.levels_outs_nodup (circ : Circuit BoolRing) :
    (circ.orderGatesByLevel.gates_by_level.flatten.map Gate.out).Nodup :=
  circ.levelSched.sched.outs_nodup

theorem evaluator_openings (hnP : 1 ≤ nP) {keySh : ℕ → BoolRing} {tp : BoolGates}
    {preproc : ℕ → BoolGates} (hpre : BoolPreproc nP keySh circ tp preproc) {all_minus_0 : Stream}
    {ws : ℕ → BoolRing} {s : ℕ → BoolEvaluator} (hs : EvaluatorsCommon nP ws all_minus_0 s) :
    ∃ r, Converges (Finset.range (nP + 1))
        (fun id => circ.orderGatesByLevel.gates_by_level.foldlM (fun s level =>
          BoolEvaluator.evaluateGatesAtDepth nP id (preproc id) level s) (s id)) r ∧
      ∀ x ∈ paddedGates nP circ.orderGatesByLevel.gates_by_level.flatten all_minus_0,
        x.type ∈ multTypes →
        (Authentic nP keySh (fun i => (r i).q_sh_ x.1.out) (fun i => (r i).q_val_ x.1.out) ↔
          PadsMatch nP keySh x.2) := by
  refine ⟨_, (Completes.foldlM _ (fun _ _ s => evaluatorLevel_completes s) s).converges,
    fun x hx ht => ?_⟩
  exact (evaluatorAfterLevels_opened _ hs circ.levels_outs_nodup hx ht).authentic_iff hnP hpre
    ((circ.mem_levels x.1).mp (gate_mem_of_padded hx)) ht (length_of_mem_paddedGates hx ht)

theorem eval_openings (hnP : 1 ≤ nP) {m : ℕ} {keySh : ℕ → ℕ → BoolRing} {tp : ℕ → BoolGates}
    {vpreproc : ℕ → ℕ → BoolGates}
    (hpre : ∀ k < m, BoolPreproc nP (keySh k) circ (tp k) fun i => vpreproc i k)
    {all_minus_0 : Stream} {vw : ℕ → ℕ → BoolRing} {x : ℕ → BoolEval × BoolOpenings}
    (hx : EvalsCommon nP vw all_minus_0 x) :
    ∃ r, Converges (Finset.range (nP + 1))
        (fun id => circ.orderGatesByLevel.gates_by_level.foldlM (fun x level =>
          BoolEval.openGatesAtDepth nP id m (vpreproc id) level x) (x id)) r ∧
      ∀ y ∈ runJobs nP m circ.orderGatesByLevel.gates_by_level all_minus_0,
        paddedType y ∈ multTypes →
        (Authentic nP (keySh y.1.1) (fun i => (r i).2.vqsh y.1.1 y.1.2.out)
          (fun i => (r i).2.vqval y.1.1 y.1.2.out) ↔ PadsMatch nP (keySh y.1.1) y.2) := by
  refine ⟨_, (Completes.foldlM _ (fun _ _ x => openLevel_completes hnP x) x).converges,
    fun y hy ht => ?_⟩
  have hjob : y.1 ∈ circ.orderGatesByLevel.gates_by_level.flatMap (levelJobs m) :=
    (List.of_mem_zip hy).1
  obtain ⟨level, hlevel, hjob⟩ := List.mem_flatMap.mp hjob
  obtain ⟨hk, hg⟩ := mem_levelJobs.mp hjob
  have hlength : y.2.length = nP := by
    obtain ⟨s', hs'⟩ := StateM.mem_zip_mapM _ _ _ hy
    rw [hs', drawPads, if_pos ht, StateM.length_mapM, List.length_range]
  exact (openAfterLevels_opened _ hx circ.levels_outs_nodup hy ht).authentic_iff hnP
    (hpre y.1.1 hk) ((circ.mem_levels y.1.2).mp (List.mem_flatten_of_mem hlevel hg)) ht hlength

/-- In a run of either evaluator whose parties hold common wires and a common stream, the stored
shares of an opening are an authenticated sharing of the opened value if and only if the random bits
drawn for it match the key shares. -/
theorem openings_authentic_iff (circ : Circuit BoolRing) (nP : ℕ) (hnP : 1 ≤ nP)
    (all_minus_0 : Stream) :
    (∀ (keySh : ℕ → BoolRing) (tp : BoolGates) (preproc : ℕ → BoolGates),
      BoolPreproc nP keySh circ tp preproc →
      ∀ (ws : ℕ → BoolRing) (s : ℕ → BoolEvaluator), EvaluatorsCommon nP ws all_minus_0 s →
      ∃ r, Converges (Finset.range (nP + 1))
          (fun id => circ.orderGatesByLevel.gates_by_level.foldlM (fun s level =>
            BoolEvaluator.evaluateGatesAtDepth nP id (preproc id) level s) (s id)) r ∧
        ∀ x ∈ paddedGates nP circ.orderGatesByLevel.gates_by_level.flatten all_minus_0,
          x.type ∈ multTypes →
          (Authentic nP keySh (fun i => (r i).q_sh_ x.1.out) (fun i => (r i).q_val_ x.1.out) ↔
            PadsMatch nP keySh x.2)) ∧
    ∀ (m : ℕ) (keySh : ℕ → ℕ → BoolRing) (tp : ℕ → BoolGates) (vpreproc : ℕ → ℕ → BoolGates),
      (∀ k < m, BoolPreproc nP (keySh k) circ (tp k) fun i => vpreproc i k) →
      ∀ (vw : ℕ → ℕ → BoolRing) (x : ℕ → BoolEval × BoolOpenings),
      EvalsCommon nP vw all_minus_0 x →
      ∃ r, Converges (Finset.range (nP + 1))
          (fun id => circ.orderGatesByLevel.gates_by_level.foldlM (fun x level =>
            BoolEval.openGatesAtDepth nP id m (vpreproc id) level x) (x id)) r ∧
        ∀ y ∈ runJobs nP m circ.orderGatesByLevel.gates_by_level all_minus_0,
          paddedType y ∈ multTypes →
          (Authentic nP (keySh y.1.1) (fun i => (r i).2.vqsh y.1.1 y.1.2.out)
            (fun i => (r i).2.vqval y.1.1 y.1.2.out) ↔ PadsMatch nP (keySh y.1.1) y.2) :=
  ⟨fun _ _ _ hpre _ _ hs => evaluator_openings hnP hpre hs,
    fun _ _ _ _ hpre _ _ hx => eval_openings hnP hpre hx⟩

end Tags

/-- A stream whose first draw is 1 and whose other draws are 0. -/
def firstDrawOne : Stream := ⟨fun hist _ => if hist.length = 1 then 1 else 0, []⟩

theorem padded_and : paddedGates 2 andCircuit.orderGatesByLevel.gates_by_level.flatten firstDrawOne =
    [(⟨.kInp, 0⟩, []), (⟨.kInp, 1⟩, []), (⟨.kMul 0 1, 2⟩, [1, 0])] := rfl

/-- The conjunction of two parties, with 1 on both masked wires: the tags do not fit. -/
theorem and_opening_not_authentic :
    ∃ r, Converges (Finset.range 3)
        (fun id => andCircuit.orderGatesByLevel.gates_by_level.foldlM (fun s level =>
          BoolEvaluator.evaluateGatesAtDepth 2 id (andPreproc id) level s)
          { all_minus_0 := firstDrawOne, wires_ := fun _ => 1 }) r ∧
      ¬ Authentic 2 (fun i => i == 1) (fun i => (r i).q_sh_ 2) fun i => (r i).q_val_ 2 := by
  obtain ⟨r, hr, htags⟩ := evaluator_openings (by decide) andPreproc_valid
    (fun _ _ => ⟨rfl, rfl⟩ : EvaluatorsCommon 2 (fun _ => 1) firstDrawOne fun _ =>
      { all_minus_0 := firstDrawOne, wires_ := fun _ => 1 })
  refine ⟨r, hr, fun h => ?_⟩
  have hpads := (htags (⟨.kMul 0 1, 2⟩, [1, 0]) (by rw [padded_and]; simp) (by decide)).mp h
  revert hpads
  decide

/-- With pads that are all 1 the tags fit, for `BoolEvaluator` and for the second of two instances of
`BoolEval`. -/
theorem openings_authentic_iff_and :
    (∃ r, Converges (Finset.range 3)
        (fun id => andCircuit.orderGatesByLevel.gates_by_level.foldlM (fun s level =>
          BoolEvaluator.evaluateGatesAtDepth 2 id (andPreproc id) level s)
          { all_minus_0 := ⟨fun _ _ => 1, []⟩, wires_ := fun _ => 1 }) r ∧
      Authentic 2 (fun i => i == 1) (fun i => (r i).q_sh_ 2) fun i => (r i).q_val_ 2) ∧
    ∃ r, Converges (Finset.range 3)
        (fun id => andCircuit.orderGatesByLevel.gates_by_level.foldlM (fun x level =>
          BoolEval.openGatesAtDepth 2 id 2 (fun _ => andPreproc id) level x)
          ({ all_minus_0 := ⟨fun _ _ => 1, []⟩, vwires := fun _ _ => 1 }, {})) r ∧
      Authentic 2 (fun i => i == 1) (fun i => (r i).2.vqsh 1 2) fun i => (r i).2.vqval 1 2 := by
  have h := openings_authentic_iff andCircuit 2 (by decide) ⟨fun _ _ => 1, []⟩
  constructor
  · obtain ⟨r, hr, htags⟩ := h.1 (fun i => i == 1) (andPreproc 0) andPreproc andPreproc_valid
      (fun _ => 1) (fun _ => { all_minus_0 := ⟨fun _ _ => 1, []⟩, wires_ := fun _ => 1 })
      fun _ _ => ⟨rfl, rfl⟩
    refine ⟨r, hr, (htags (⟨.kMul 0 1, 2⟩, [1, 1]) ?_ (by decide)).mpr (by decide)⟩
    exact List.mem_cons_of_mem _ (List.mem_cons_of_mem _ (List.mem_cons_self ..))
  · obtain ⟨r, hr, htags⟩ := h.2 2 (fun _ i => i == 1) (fun _ => andPreproc 0)
      (fun i _ => andPreproc i) (fun _ _ => andPreproc_valid) (fun _ _ => 1)
      (fun _ => ({ all_minus_0 := ⟨fun _ _ => 1, []⟩, vwires := fun _ _ => 1 }, {}))
      fun _ _ => ⟨rfl, rfl⟩
    refine ⟨r, hr, (htags ((1, ⟨.kMul 0 1, 2⟩), [1, 1]) ?_ (by decide)).mpr (by decide)⟩
    exact List.mem_of_getElem? (i := 5) rfl

end QSync
