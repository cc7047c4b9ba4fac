import QSync.Asterisk.BoolEval
import QSync.Foundations.Coupling

/-! # All parties evaluate a Boolean circuit

`boolLevel_completes`: the parties get through a level whatever they hold, since the numbers of
openings depend on the circuit only. `boolLevel_wires`: when they draw the same pads, each of them
writes to every opened wire the sum of the shares without pads.
-/

namespace QSync
open Network Batching
set_option autoImplicit false
set_option maxHeartbeats 250000

/-! ## What a party sends -/

theorem StateM.mapM_bind_pure {σ α β γ : Type} (d : α → StateM σ β) (f : α → β → γ) (xs : List α)
    (s : σ) : (xs.mapM fun x => do let r ← d x; pure (f x r)) s =
      (List.zipWith f xs ((xs.mapM d) s).1, ((xs.mapM d) s).2) := by
  induction xs generalizing s with
  | nil => rfl
  | cons x xs ih =>
    simp only [List.mapM_cons, StateM.bind_apply, ih]
    rfl

theorem StateM.length_mapM {σ α β : Type} (d : α → StateM σ β) (xs : List α) (s : σ) :
    ((xs.mapM d) s).1.length = xs.length := by
  induction xs generalizing s with
  | nil => rfl
  | cons x xs ih =>
    simp only [List.mapM_cons, StateM.bind_apply]
    exact congrArg Nat.succ (ih _)

abbrev PaddedJob := (ℕ × Gate BoolRing) × List BoolRing

def boolPads (nP : ℕ) (jobs : List (ℕ × Gate BoolRing)) : StateM Stream (List (List BoolRing)) :=
  jobs.mapM fun j => drawPads nP (jobType j)

/-- The jobs of a level with the bits drawn from the stream `s`. -/
def paddedJobs (nP m : ℕ) (level : List (Gate BoolRing)) (s : Stream) : List PaddedJob :=
  (levelJobs m level).zip (boolPads nP (levelJobs m level) s).1

def paddedShare (nP id : ℕ) (vpreproc : ℕ → BoolGates) (vwires : ℕ → ℕ → BoolRing)
    (x : PaddedJob) : BoolRing :=
  (padShare nP id x.2 (gateShare id (vwires x.1.1) (vpreproc x.1.1) x.1.2)).value_

abbrev paddedType (x : PaddedJob) : GateType := jobType x.1

section Level
variable {nP m : ℕ} {level : List (Gate BoolRing)}

theorem boolPartySend_eq (id : ℕ) (vpreproc : ℕ → BoolGates) (vwires : ℕ → ℕ → BoolRing)
    (s : Stream) : boolPartySend nP id vpreproc vwires (levelJobs m level) s =
      ((paddedJobs nP m level s).map fun x =>
        ⟨paddedType x, paddedShare nP id vpreproc vwires x, x.2.sum⟩,
        (boolPads nP (levelJobs m level) s).2) := by
  rw [boolPartySend, StateM.mapM_bind_pure, paddedJobs, List.map_zip_eq_zipWith]
  rfl

theorem mem_levelJobs {j : ℕ × Gate BoolRing} :
    j ∈ levelJobs m level ↔ j.1 < m ∧ j.2 ∈ level := by
  simp only [levelJobs, List.mem_flatMap, List.mem_range, List.mem_map]
  constructor
  · rintro ⟨i, hi, g, hg, rfl⟩
    exact ⟨hi, hg⟩
  · exact fun h => ⟨j.1, h.1, j.2, h.2, rfl⟩

theorem paddedJobs_map_fst (s : Stream) :
    (paddedJobs nP m level s).map Prod.fst = levelJobs m level :=
  List.map_fst_zip (StateM.length_mapM _ _ s).ge

theorem countP_paddedJobs (s : Stream) (t : GateType) :
    ((paddedJobs nP m level s).countP fun x => paddedType x = t) = boolNum m level t := by
  have h : ((paddedJobs nP m level s).countP fun x => paddedType x = t) =
      ((paddedJobs nP m level s).map Prod.fst).countP fun j => jobType j = t := by
    rw [List.countP_map]
    rfl
  rw [h, paddedJobs_map_fst, levelJobs, List.countP_flatMap, boolNum]
  have hinst : ∀ i : ℕ, ((level.map fun g => (i, g)).countP fun j => jobType j = t) =
      level.countP fun g => g.type = t := fun i => by
    rw [List.countP_map]
    rfl
  simp [Function.comp_def, hinst, Nat.mul_comm]

theorem batch_boolPartySend (id : ℕ) (vpreproc : ℕ → BoolGates) (vwires : ℕ → ℕ → BoolRing)
    (s : Stream) : batch PaddedShare.type
      (boolPartySend nP id vpreproc vwires (levelJobs m level) s).1 PaddedShare.share =
      batch paddedType (paddedJobs nP m level s) (paddedShare nP id vpreproc vwires) := by
  funext t
  rw [boolPartySend_eq, batch_map]

theorem batch_r_sum (id : ℕ) (vpreproc : ℕ → BoolGates) (vwires : ℕ → ℕ → BoolRing) (s : Stream) :
    batch PaddedShare.type (boolPartySend nP id vpreproc vwires (levelJobs m level) s).1
      PaddedShare.r_sum =
      batch paddedType (paddedJobs nP m level s) fun x => x.2.sum := by
  funext t
  rw [boolPartySend_eq, batch_map]

end Level

/-! ## All parties in a level -/

section Parties
variable (nP m : ℕ) (vpreproc : ℕ → ℕ → BoolGates) (level : List (Gate BoolRing))

def boolTotal : ℕ := (multTypes.map (boolNum m level)).sum

/-- What is opened in a level when party `i` is in state `s i`. -/
def boolOpened (s : ℕ → BoolEval) : List BoolRing :=
  openedValues nP (boolTotal m level) fun i => boolComm
    (boolPartySend nP i (vpreproc i) (s i).vwires (levelJobs m level) (s i).all_minus_0).1

def boolAfterLevel (s : ℕ → BoolEval) (id : ℕ) : BoolEval :=
  if id = 0 then s id else
    let jobs := levelJobs m level
    let (sent, all_minus_0) := boolPartySend nP id (vpreproc id) (s id).vwires jobs (s id).all_minus_0
    ⟨all_minus_0, boolPartyRecv (split (boolNum m level) multTypes (boolOpened nP m vpreproc level s))
      (batch PaddedShare.type sent PaddedShare.r_sum) jobs (s id).vwires⟩

variable {nP m vpreproc level}

theorem boolAfterLevel_eq (s : ℕ → BoolEval) {id : ℕ} (hid : id ≠ 0) :
    boolAfterLevel nP m vpreproc level s id =
      ⟨(boolPads nP (levelJobs m level) (s id).all_minus_0).2,
        boolPartyRecv (split (boolNum m level) multTypes (boolOpened nP m vpreproc level s))
          (batch paddedType (paddedJobs nP m level (s id).all_minus_0) fun x => x.2.sum)
          (levelJobs m level) (s id).vwires⟩ := by
  have hsend : boolPartySend nP id (vpreproc id) (s id).vwires (levelJobs m level)
      (s id).all_minus_0 = _ := boolPartySend_eq id (vpreproc id) (s id).vwires (s id).all_minus_0
  simp only [boolAfterLevel, if_neg hid, hsend]
  rw [← batch_r_sum id (vpreproc id) (s id).vwires, hsend]

theorem boolOpen_completes (hnP : 1 ≤ nP) (s : ℕ → BoolEval) :
    Completes (Finset.range (nP + 1))
      (fun id => if id = 0 then pure [] else openShares bitCodec nP id
        (boolComm (boolPartySend nP id (vpreproc id) (s id).vwires (levelJobs m level)
          (s id).all_minus_0).1))
      fun id => if id = 0 then [] else boolOpened nP m vpreproc level s := by
  have hlen : ∀ i ∈ parties nP, (boolComm (boolPartySend nP i (vpreproc i) (s i).vwires
      (levelJobs m level) (s i).all_minus_0).1).length = boolTotal m level := by
    intro i _
    rw [boolComm, batch_boolPartySend]
    exact length_concat fun t _ => by rw [length_batch, countP_paddedJobs]
  exact open_completes bitCodec hnP hlen

theorem boolLevel_completes (hnP : 1 ≤ nP) (s : ℕ → BoolEval) :
    Completes (Finset.range (nP + 1))
      (fun id => BoolEval.evaluateGatesAtDepth nP id m (vpreproc id) level (s id))
      (boolAfterLevel nP m vpreproc level s) := by
  have hopened : Completes (Finset.range (nP + 1)) _ fun id =>
      if id = 0 then [] else boolOpened nP m vpreproc level s := boolOpen_completes hnP s
  have hopen := hopened.map fun id agg_values =>
    if id = 0 then s id else
      let (sent, all_minus_0) := boolPartySend nP id (vpreproc id) (s id).vwires (levelJobs m level)
        (s id).all_minus_0
      ⟨all_minus_0, boolPartyRecv (split (boolNum m level) multTypes agg_values)
        (batch PaddedShare.type sent PaddedShare.r_sum) (levelJobs m level) (s id).vwires⟩
  refine hopen.congr (fun id _ => ?_) fun id _ => ?_
  · by_cases h : id = 0
    · simp only [BoolEval.evaluateGatesAtDepth, if_pos h]
      rfl
    · simp only [BoolEval.evaluateGatesAtDepth, if_neg h]
      rfl
  · by_cases h : id = 0
    · simp only [boolAfterLevel, if_pos h]
    · simp only [boolAfterLevel, if_neg h]

end Parties

def boolAfterLevels (nP m : ℕ) (vpreproc : ℕ → ℕ → BoolGates) (circ : LevelOrderedCircuit BoolRing)
    (s : ℕ → BoolEval) : ℕ → BoolEval :=
  circ.gates_by_level.foldl (fun s level => boolAfterLevel nP m vpreproc level s) s

theorem boolEval_completes {nP : ℕ} (hnP : 1 ≤ nP) (m : ℕ) (vpreproc : ℕ → ℕ → BoolGates)
    (circ : LevelOrderedCircuit BoolRing) (s : ℕ → BoolEval) :
    Completes (Finset.range (nP + 1))
      (fun id => BoolEval.evaluateAllLevels nP id m (vpreproc id) circ (s id))
      (boolAfterLevels nP m vpreproc circ s) :=
  Completes.foldlM _ (fun _ _ s => boolLevel_completes hnP s) s

/-! ## What a party receives -/

section Recv
variable {nP m : ℕ} {level : List (Gate BoolRing)}

/-- One step of the walk over all instances, without counters. -/
def directStep (opened : ℕ → Gate BoolRing → BoolRing) (vwires : ℕ → ℕ → BoolRing)
    (j : ℕ × Gate BoolRing) : ℕ → ℕ → BoolRing :=
  Function.update vwires j.1 (setWire (multOpened (opened j.1)) (vwires j.1) j.2)

theorem foldl_directStep (opened : ℕ → Gate BoolRing → BoolRing) (vwires : ℕ → ℕ → BoolRing)
    (i : ℕ) : (levelJobs m level).foldl (directStep opened) vwires i =
      if i < m then levelWires (multOpened (opened i)) level (vwires i) else vwires i := by
  have hinner : ∀ (vw : ℕ → ℕ → BoolRing) (k : ℕ) (gs : List (Gate BoolRing)),
      (gs.map fun g => (k, g)).foldl (directStep opened) vw =
        Function.update vw k (levelWires (multOpened (opened k)) gs (vw k)) := by
    intro vw k gs
    induction gs generalizing vw with
    | nil => exact (Function.update_eq_self k vw).symm
    | cons g gs ih =>
      rw [List.map_cons, List.foldl_cons, ih, directStep, Function.update_idem,
        Function.update_self]
      rfl
  rw [levelJobs, List.foldl_flatMap]
  simp only [hinner]
  induction m generalizing i with
  | zero => rfl
  | succ m ih =>
    rw [List.range_succ, List.foldl_append, List.foldl_cons, List.foldl_nil]
    by_cases h : i = m
    · subst h
      rw [Function.update_self, ih, if_neg (Nat.lt_irrefl i), if_pos (Nat.lt_succ_self i)]
    · have hlt : i < m + 1 ↔ i < m := by omega
      rw [Function.update_of_ne h, ih]
      simp only [hlt]

/-- A party that finds the opened values and the pads of the jobs under their types removes the
pads. -/
theorem boolPartyRecv_eq {s : Stream} {all r_pad : GateType → List BoolRing}
    {A : PaddedJob → BoolRing} {opened : ℕ → Gate BoolRing → BoolRing}
    (hall : ∀ t ∈ multTypes, all t = batch paddedType (paddedJobs nP m level s) A t)
    (hpad : r_pad = batch paddedType (paddedJobs nP m level s) fun x => x.2.sum)
    (hopened : ∀ x ∈ paddedJobs nP m level s, paddedType x ∈ multTypes →
      A x - x.2.sum = opened x.1.1 x.1.2) (vwires : ℕ → ℕ → BoolRing) (i : ℕ) :
    boolPartyRecv all r_pad (levelJobs m level) vwires i =
      if i < m then levelWires (multOpened (opened i)) level (vwires i) else vwires i := by
  have hjobs : (paddedJobs nP m level s).map Prod.fst = levelJobs m level := paddedJobs_map_fst s
  rw [← foldl_directStep opened vwires i, boolPartyRecv, ← hjobs, List.foldl_map, List.foldl_map]
  refine congrFun (foldl_counters paddedType multTypes _ _ _ ?_ vwires) i
  rintro ys x zs hx vw idx hidx
  have hmem : x ∈ paddedJobs nP m level s := hx ▸ List.mem_append_right _ List.mem_cons_self
  unfold boolRecvStep directStep setWire
  cases hv : linearGate (vw x.1.1) x.1.2.op with
  | some v =>
    have ht : paddedType x ∉ multTypes := fun h => by
      rw [linearGate_of_mult h] at hv
      cases hv
    simp only [hv, Option.some_or, assignWire]
    exact ⟨trivial, countP_keep ht hidx⟩
  | none =>
    by_cases ht : paddedType x ∈ multTypes
    · have hA := getD_batch paddedType hx A 0
      have hr := getD_batch paddedType hx (fun x => x.2.sum) 0
      rw [← hall _ ht, ← hidx _ ht] at hA
      rw [← hpad, ← hidx _ ht] at hr
      simp only [hv, if_pos ht, hA, hr, hopened x hmem ht, multOpened, Option.none_or, assignWire]
      exact ⟨trivial, countP_bump hidx⟩
    · simp only [hv, if_neg ht, multOpened, Option.none_or, assignWire, Function.update_eq_self]
      exact ⟨trivial, countP_keep ht hidx⟩

end Recv

end QSync
