import QSync.Asterisk.BoolEvalCorrect
import QSync.Asterisk.BoolEvaluator
import QSync.Asterisk.TpRounds

/-! # All parties in a level of a Boolean evaluator

A level is a gather and a scatter through the trusted party (`evaluatorLevel_completes`). When the
parties hold the same wires and draw the same pads, a party ends the level with the wires of
`levelWires`, with the padded share of each opening in `q_sh_` and with the sum of all parties' padded
shares in `q_val_` (`partyRecv_wires`, `partyRecv_q_sh`, `partyRecv_q_val`).
-/

namespace QSync
open Network Batching
set_option autoImplicit false
set_option maxHeartbeats 250000

/-! ## What a party sends -/

theorem StateM.zip_mapM_append {σ α β : Type} (d : α → StateM σ β) (xs ys : List α) (s : σ) :
    (xs ++ ys).zip (((xs ++ ys).mapM d) s).1 =
      xs.zip ((xs.mapM d) s).1 ++ ys.zip ((ys.mapM d) ((xs.mapM d) s).2).1 := by
  have hmap : ((xs ++ ys).mapM d) s =
      (((xs.mapM d) s).1 ++ ((ys.mapM d) ((xs.mapM d) s).2).1, ((ys.mapM d) ((xs.mapM d) s).2).2) := by
    rw [List.mapM_append]
    rfl
  rw [hmap]
  exact List.zip_append (StateM.length_mapM d xs s).symm

abbrev PaddedGate := Gate BoolRing × List BoolRing

abbrev PaddedGate.type (x : PaddedGate) : GateType := x.1.type

def levelPads (nP : ℕ) (level : List (Gate BoolRing)) : StateM Stream (List (List BoolRing)) :=
  level.mapM fun g => gatePads nP g.type

/-- The gates of a level with the bits drawn from the stream `st`. -/
def paddedGates (nP : ℕ) (level : List (Gate BoolRing)) (st : Stream) : List PaddedGate :=
  level.zip (levelPads nP level st).1

def gateOpening (nP id : ℕ) (preproc_ : BoolGates) (wires_ : ℕ → BoolRing) (x : PaddedGate) :
    GateOpening :=
  ⟨x.1, padShare nP id x.2 (gateShare id wires_ preproc_ x.1), x.2.sum⟩

section Send
variable {nP : ℕ} {level : List (Gate BoolRing)}

theorem partySend_eq (id : ℕ) (preproc_ : BoolGates) (wires_ : ℕ → BoolRing) (st : Stream) :
    BoolEvaluator.partySend nP id preproc_ wires_ level st =
      ((paddedGates nP level st).map (gateOpening nP id preproc_ wires_),
        (levelPads nP level st).2) := by
  rw [BoolEvaluator.partySend, StateM.mapM_bind_pure, paddedGates, List.map_zip_eq_zipWith]
  rfl

theorem paddedGates_map_fst (st : Stream) : (paddedGates nP level st).map Prod.fst = level :=
  List.map_fst_zip (StateM.length_mapM _ _ st).ge

theorem foldl_level {α : Type} (nP : ℕ) (st : Stream) (f : α → Gate BoolRing → α) (a : α) :
    level.foldl f a = (paddedGates nP level st).foldl (fun a x => f a x.1) a := by
  have h : level = (paddedGates nP level st).map Prod.fst := (paddedGates_map_fst st).symm
  exact (congrArg (List.foldl f a) h).trans List.foldl_map

theorem paddedGates_map_out (st : Stream) :
    (paddedGates nP level st).map (fun x => x.1.out) = level.map Gate.out := by
  have h := congrArg (List.map Gate.out) (@paddedGates_map_fst nP level st)
  rwa [List.map_map] at h

theorem paddedGates_append (level' : List (Gate BoolRing)) (st : Stream) :
    paddedGates nP (level ++ level') st =
      paddedGates nP level st ++ paddedGates nP level' (levelPads nP level st).2 :=
  StateM.zip_mapM_append _ _ _ _

theorem gate_mem_of_padded {st : Stream} {x : PaddedGate} (hx : x ∈ paddedGates nP level st) :
    x.1 ∈ level := by
  have h := List.mem_map_of_mem (f := Prod.fst) hx
  rwa [paddedGates_map_fst] at h

theorem countP_paddedGates (st : Stream) (t : GateType) :
    ((paddedGates nP level st).countP fun x => x.type = t) = multNum level t := by
  have h : ((paddedGates nP level st).countP fun x => x.type = t) =
      ((paddedGates nP level st).map Prod.fst).countP fun g => g.type = t := by
    rw [List.countP_map]
    rfl
  rw [h, paddedGates_map_fst, multNum]

theorem length_of_mem_paddedGates {st : Stream} {x : PaddedGate}
    (hx : x ∈ paddedGates nP level st) (ht : x.type ∈ multTypes) : x.2.length = nP := by
  obtain ⟨s', hs'⟩ := StateM.mem_zip_mapM _ _ _ hx
  rw [hs', gatePads, if_pos ht, StateM.length_mapM, List.length_range]

theorem batch_partySend {α : Type} (id : ℕ) (preproc_ : BoolGates) (wires_ : ℕ → BoolRing)
    (st : Stream) (f : GateOpening → α) : batch GateOpening.type
      (BoolEvaluator.partySend nP id preproc_ wires_ level st).1 f =
      batch PaddedGate.type (paddedGates nP level st)
        fun x => f (gateOpening nP id preproc_ wires_ x) := by
  funext t
  rw [partySend_eq, batch_map]
  rfl

end Send

/-! ## All parties in a level -/

section Parties
variable (nP : ℕ) (preproc : ℕ → BoolGates) (level : List (Gate BoolRing))

def evaluatorComm (id : ℕ) (s : BoolEvaluator) : List BoolRing :=
  concat multTypes (batch GateOpening.type
    (BoolEvaluator.partySend nP id (preproc id) s.wires_ level s.all_minus_0).1
    fun x => x.q_share.value_)

def evaluatorOpened (s : ℕ → BoolEvaluator) : List BoolRing :=
  openedValues nP (multTypes.map (multNum level)).sum fun i => evaluatorComm nP preproc level i (s i)

/-- The evaluator of party `id` when it has received `agg_values`. -/
def evaluatorRecv (agg_values : List BoolRing) (id : ℕ) (s : BoolEvaluator) : BoolEvaluator :=
  let (sent, all_minus_0) := BoolEvaluator.partySend nP id (preproc id) s.wires_ level s.all_minus_0
  s.partyRecv sent all_minus_0 level agg_values

def evaluatorAfterLevel (s : ℕ → BoolEvaluator) (id : ℕ) : BoolEvaluator :=
  if id = 0 then s id
  else evaluatorRecv nP preproc level (evaluatorOpened nP preproc level s) id (s id)

variable {nP preproc level}

theorem length_evaluatorComm (id : ℕ) (s : BoolEvaluator) :
    (evaluatorComm nP preproc level id s).length = (multTypes.map (multNum level)).sum := by
  rw [evaluatorComm, batch_partySend]
  exact length_concat fun t _ => by rw [length_batch, countP_paddedGates]

theorem sumVectors_evaluatorComm (s : ℕ → BoolEvaluator) :
    sumVectors (multTypes.map (multNum level)).sum
      ((parties nP).map fun i => evaluatorComm nP preproc level i (s i)) =
      evaluatorOpened nP preproc level s := by
  refine List.map_congr_left fun k _ => ?_
  rw [List.map_map, ← sum_parties]
  rfl

theorem evaluateGatesAtDepth_eq (id : ℕ) (s : BoolEvaluator) :
    BoolEvaluator.evaluateGatesAtDepth nP id (preproc id) level s =
      tpCollects bitCodec nP id (multTypes.map (multNum level)).sum
        (evaluatorComm nP preproc level id s) >>= fun online_comm_to_TP =>
      let agg_values := sumVectors (multTypes.map (multNum level)).sum online_comm_to_TP
      tpSends nP id (bitCodec.encode agg_values) agg_values
        (recvVector bitCodec 0 (multTypes.map (multNum level)).sum) >>= fun agg_values =>
      pure (if id = 0 then s else evaluatorRecv nP preproc level agg_values id s) := by
  by_cases h : id = 0
  · subst h
    simp only [BoolEvaluator.evaluateGatesAtDepth, tpCollects, tpSends, if_true, bind_assoc,
      pure_bind]
    rfl
  · simp only [BoolEvaluator.evaluateGatesAtDepth, tpCollects, tpSends, if_neg h, bind_assoc,
      pure_bind]
    rfl

theorem evaluatorLevel_completes (s : ℕ → BoolEvaluator) :
    Completes (Finset.range (nP + 1))
      (fun id => BoolEvaluator.evaluateGatesAtDepth nP id (preproc id) level (s id))
      (evaluatorAfterLevel nP preproc level s) := by
  set n := (multTypes.map (multNum level)).sum with hn
  set opened := evaluatorOpened nP preproc level s
  have hcollect : Completes (Finset.range (nP + 1))
      (fun id => tpCollects bitCodec nP id n (evaluatorComm nP preproc level id (s id))) _ :=
    tpCollects_completes bitCodec fun i _ => length_evaluatorComm i (s i)
  have hlen : opened.length = n := openedValues_length nP _ _
  have hsend : Completes (Finset.range (nP + 1)) (fun id => tpSends nP id
      (bitCodec.encode opened) opened (recvVector bitCodec 0 n)) _ :=
    tpSends_completes opened (does_recvVector bitCodec hlen)
  have hrecv := hsend.map fun id agg_values =>
    if id = 0 then s id else evaluatorRecv nP preproc level agg_values id (s id)
  simp only [evaluateGatesAtDepth_eq]
  refine hcollect.bind (hrecv.congr (fun id _ => ?_) fun id _ => ?_)
  · -- only the trusted party has collected something, and only it sends
    refine congrArg (· >>= _) (tpSends_congr fun h => ?_)
    subst h
    rw [if_pos rfl, sumVectors_evaluatorComm]
    exact ⟨rfl, rfl⟩
  · by_cases h : id = 0
    · simp only [evaluatorAfterLevel, if_pos h]
    · simp only [evaluatorAfterLevel, if_neg h]
      rfl

end Parties

/-! ## What a party receives -/

/-- One step of the walk without counters; `A x` is what has been opened for `x`. -/
def recvPadded (A : PaddedGate → BoolRing) (s : BoolEvaluator) (x : PaddedGate) : BoolEvaluator :=
  match linearGate s.wires_ x.1.op with
  | some v =>
    { s with
      wires_ := Function.update s.wires_ x.1.out v
      q_val_ := if x.type = .kAdd ∨ x.type = .kSub then Function.update s.q_val_ x.1.out 0
        else s.q_val_ }
  | none =>
    if x.type ∈ multTypes then
      { s with
        q_val_ := Function.update s.q_val_ x.1.out (A x)
        wires_ := Function.update s.wires_ x.1.out (A x - x.2.sum) }
    else s

section Recv
variable {nP id : ℕ} {level : List (Gate BoolRing)} {preproc_ : BoolGates} {st : Stream}
  {A : PaddedGate → BoolRing}

/-- What a party has when it begins to walk over the opened values. -/
def beforeRecv (nP id : ℕ) (preproc_ : BoolGates) (level : List (Gate BoolRing)) (st : Stream)
    (s : BoolEvaluator) : BoolEvaluator :=
  { s with
    all_minus_0 := (levelPads nP level st).2
    q_sh_ := ((paddedGates nP level st).map (gateOpening nP id preproc_ s.wires_)).foldl storeShare
      s.q_sh_
    q_val_ := level.foldl clearValue s.q_val_ }

theorem partyRecv_eq {agg_values : List BoolRing} {s : BoolEvaluator}
    (hall : ∀ t ∈ multTypes, split (multNum level) multTypes agg_values t =
      batch PaddedGate.type (paddedGates nP level st) A t) :
    s.partyRecv ((paddedGates nP level st).map (gateOpening nP id preproc_ s.wires_))
      (levelPads nP level st).2 level agg_values =
      (paddedGates nP level st).foldl (recvPadded A) (beforeRecv nP id preproc_ level st s) := by
  have hpad : batch GateOpening.type
      ((paddedGates nP level st).map (gateOpening nP id preproc_ s.wires_)) GateOpening.r_sum =
      batch PaddedGate.type (paddedGates nP level st) fun x => x.2.sum :=
    funext fun t => batch_map _ _ _ _ t
  rw [BoolEvaluator.partyRecv, hpad]
  change (level.foldl (BoolEvaluator.recvStep _ _) (beforeRecv nP id preproc_ level st s, _)).1 = _
  rw [foldl_level nP st]
  refine foldl_counters PaddedGate.type multTypes _ _ _ ?_ _
  rintro ys x zs hx s' idx hidx
  unfold BoolEvaluator.recvStep recvPadded
  cases hv : linearGate s'.wires_ x.1.op with
  | some v =>
    have ht : x.type ∉ multTypes := fun h => by
      rw [linearGate_of_mult h] at hv
      cases hv
    simp only [hv]
    exact ⟨trivial, countP_keep ht hidx⟩
  | none =>
    by_cases ht : x.type ∈ multTypes
    · have hA := getD_batch PaddedGate.type hx A 0
      have hr := getD_batch PaddedGate.type hx (fun x => x.2.sum) 0
      rw [← hall _ ht, ← hidx _ ht] at hA
      rw [← hidx _ ht] at hr
      simp only [hv, if_pos ht, hA, hr]
      exact ⟨trivial, countP_bump hidx⟩
    · simp only [hv, if_neg ht]
      exact ⟨trivial, countP_keep ht hidx⟩

theorem foldl_recvPadded_wires (opened : Gate BoolRing → BoolRing) (xs : List PaddedGate)
    (hopened : ∀ x ∈ xs, x.type ∈ multTypes → A x - x.2.sum = opened x.1) (s : BoolEvaluator) :
    (xs.foldl (recvPadded A) s).wires_ =
      levelWires (multOpened opened) (xs.map Prod.fst) s.wires_ := by
  induction xs generalizing s with
  | nil => rfl
  | cons x xs ih =>
    rw [List.foldl_cons, ih fun y hy => hopened y (List.mem_cons_of_mem _ hy)]
    refine congrArg (levelWires _ _) ?_
    have hx := hopened x List.mem_cons_self
    unfold recvPadded setWire
    cases hv : linearGate s.wires_ x.1.op with
    | some v => rfl
    | none =>
      by_cases ht : x.type ∈ multTypes
      · simp only [if_pos ht, hx ht, multOpened, Option.none_or, assignWire]
      · simp only [if_neg ht, multOpened, Option.none_or, assignWire]

theorem recvPadded_q_val_of_ne (s : BoolEvaluator) (x : PaddedGate) {w : ℕ} (h : w ≠ x.1.out) :
    (recvPadded A s x).q_val_ w = s.q_val_ w := by
  unfold recvPadded
  split
  · split
    · exact Function.update_of_ne h _ _
    · rfl
  · split
    · exact Function.update_of_ne h _ _
    · rfl

theorem foldl_recvPadded_frame (xs : List PaddedGate) (s : BoolEvaluator) :
    (xs.foldl (recvPadded A) s).q_sh_ = s.q_sh_ ∧
      (xs.foldl (recvPadded A) s).all_minus_0 = s.all_minus_0 := by
  induction xs generalizing s with
  | nil => exact ⟨rfl, rfl⟩
  | cons x xs ih =>
    have hstep : (recvPadded A s x).q_sh_ = s.q_sh_ ∧
        (recvPadded A s x).all_minus_0 = s.all_minus_0 := by
      unfold recvPadded
      split
      · exact ⟨rfl, rfl⟩
      · split <;> exact ⟨rfl, rfl⟩
    obtain ⟨h1, h2⟩ := ih (recvPadded A s x)
    exact ⟨h1.trans hstep.1, h2.trans hstep.2⟩

theorem recvPadded_q_val (A : PaddedGate → BoolRing) (s : BoolEvaluator) {x : PaddedGate} (ht : x.type ∈ multTypes) :
    (recvPadded A s x).q_val_ x.1.out = A x := by
  unfold recvPadded
  rw [linearGate_of_mult ht]
  simp only [if_pos ht]
  exact Function.update_self _ _ _

theorem storeShare_of_ne (q_sh_ : ℕ → AuthAddShare BoolRing) (x : GateOpening) {w : ℕ}
    (h : w ≠ x.gate.out) : storeShare q_sh_ x w = q_sh_ w := by
  unfold storeShare
  split
  · exact Function.update_of_ne h _ _
  · rfl

theorem storeShare_self (q_sh_ : ℕ → AuthAddShare BoolRing) {x : GateOpening}
    (ht : x.type ∈ multTypes) : storeShare q_sh_ x x.gate.out = x.q_share := by
  rw [storeShare, if_pos ht]
  exact Function.update_self _ _ _

theorem clearValue_of_ne (q_val_ : ℕ → BoolRing) (g : Gate BoolRing) {w : ℕ} (h : w ≠ g.out) :
    clearValue q_val_ g w = q_val_ w := by
  unfold clearValue
  split
  · exact Function.update_of_ne h _ _
  · rfl

end Recv

end QSync
