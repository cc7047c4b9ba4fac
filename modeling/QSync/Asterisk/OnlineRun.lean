import QSync.Asterisk.BoolEvalRun
import QSync.Asterisk.Online
import QSync.Asterisk.TpRounds

/-! # All parties run the online phase

`evaluateCircuit_completes`: whatever has been preprocessed, the parties get through the online phase
together, since who sends how much to whom depends on the circuit and on the dealers only. The results
are given by functions of what all parties hold: `afterInputs`, `afterLevel`, `macRes`,
`onlineResult`.
-/

namespace QSync
open Network Batching
set_option autoImplicit false
set_option maxHeartbeats 250000

section Run
variable {M : Modulus} {nP : ℕ} {ipm : ℕ → ℕ} {d : ℕ → PartyData M}

theorem does_recvField {src : ℕ} (q : Field M) :
    Does (recvField M src) [.inp src ((fieldCodec M).encode [q])] q := by
  have hlen : ((fieldCodec M).encode [q]).length = (fieldCodec M).size 1 :=
    (fieldCodec M).encode_length [q]
  refine Does.recv' hlen ?_
  have hdec : (fieldCodec M).decode 1 ((fieldCodec M).encode [q]) = [q] :=
    (fieldCodec M).decode_encode [q]
  change Does (.done (((fieldCodec M).decode 1 ((fieldCodec M).encode [q])).getD 0 0)) [] q
  rw [hdec]
  exact .done q

/-! ## Inputs -/

/-- Everybody knows who deals each input of the circuit, and the dealer, one of the parties, has it. -/
structure InputsDealt (nP : ℕ) (ipm : ℕ → ℕ) (d : ℕ → PartyData M) (circ : Circuit (Field M)) :
    Prop where
  pid : ∀ g ∈ circ.gates_, g.type = .kInp → ∀ i ∈ parties nP,
    (inputOf ((d i).preproc_ g.out).ext).1 = ipm g.out
  dealer : ∀ g ∈ circ.gates_, g.type = .kInp →
    ipm g.out ∈ parties nP ∧ g.out ∈ (d (ipm g.out)).inputs.keys

def dealtValue (ipm : ℕ → ℕ) (d : ℕ → PartyData M) (w : ℕ) : Field M :=
  (inputOf ((d (ipm w)).preproc_ w).ext).2 + (d (ipm w)).inputs.val w

def afterInput (ipm : ℕ → ℕ) (d : ℕ → PartyData M) (s : ℕ → OnlineState M) (g : Gate (Field M))
    (id : ℕ) : OnlineState M :=
  if g.type = .kInp ∧ id ≠ 0 then setValue (s id) g.out (dealtValue ipm d g.out) else s id

def afterInputs (ipm : ℕ → ℕ) (d : ℕ → PartyData M) (circ : LevelOrderedCircuit (Field M))
    (s : ℕ → OnlineState M) : ℕ → OnlineState M :=
  (circ.gates_by_level.getD 0 []).foldl (afterInput ipm d) s

theorem setInput_completes {circ : Circuit (Field M)} (hd : InputsDealt nP ipm d circ)
    {g : Gate (Field M)} (hg : g ∈ circ.gates_) (s : ℕ → OnlineState M) :
    Completes (Finset.range (nP + 1)) (fun id => setInput nP id (d id) (s id) g)
      (afterInput ipm d s g) := by
  by_cases ht : g.type = .kInp
  · obtain ⟨hdealer, hkey⟩ := hd.dealer g hg ht
    have hpid := hd.pid g hg ht
    set pid := ipm g.out with hpiddef
    set q := dealtValue ipm d g.out with hq
    have hat : (d pid).inputs.at g.out = .ok ((d pid).inputs.val g.out) := if_pos hkey
    refine @completes_scatter _ _ _ _ _ _ pid ((parties nP).filter (· ≠ pid))
      (fun _ => (fieldCodec M).encode [q]) ((parties_nodup nP).filter _) (fun j hj => ?_)
      (mem_range_of_parties hdealer) ?_ (fun j hj => ?_) fun i hi hne hnot => ?_
    · exact mem_range_of_parties (List.mem_filter.mp hj).1
    · have hsends : Does ((parties nP).forM fun i =>
          if i = pid then pure () else Proc.sendTo i ((fieldCodec M).encode [q]))
          (((parties nP).filter (· ≠ pid)).map fun j => .out j ((fieldCodec M).encode [q])) () := by
        rw [← flatMap_others]
        refine .forM _ fun j _ => ?_
        by_cases hj : j = pid
        · rw [if_pos hj, if_pos hj]
          exact .done ()
        · rw [if_neg hj, if_neg hj]
          exact .send (.done ())
      have hdone := hsends.bind (f := fun _ => Proc.done (setValue (s pid) g.out q)) (.done _)
      have hpair : inputOf ((d pid).preproc_ g.out).ext =
          (pid, (inputOf ((d pid).preproc_ g.out).ext).2) := Prod.ext (hpid pid hdealer) rfl
      rw [List.append_nil] at hdone
      rw [setInput, if_pos ⟨ht, ne_zero_of_parties hdealer⟩, hpair, afterInput,
        if_pos ⟨ht, ne_zero_of_parties hdealer⟩]
      simp only [if_true, hat]
      exact hdone
    · obtain ⟨hj, hne⟩ := List.mem_filter.mp hj
      have hne' : j ≠ pid := by simpa using hne
      refine ⟨hne', ?_⟩
      have hpair : inputOf ((d j).preproc_ g.out).ext =
          (pid, (inputOf ((d j).preproc_ g.out).ext).2) := Prod.ext (hpid j hj) rfl
      rw [setInput, if_pos ⟨ht, ne_zero_of_parties hj⟩, hpair, afterInput,
        if_pos ⟨ht, ne_zero_of_parties hj⟩]
      simp only [if_neg hne'.symm]
      exact (does_recvField q).bind (.done _)
    · have h0 : i = 0 := by
        by_contra h0
        refine hnot (List.mem_filter.mpr ⟨parties_of_mem_range hi h0, by simpa using hne⟩)
      have hnot' : ¬ (g.type = .kInp ∧ i ≠ 0) := fun h => h.2 h0
      rw [setInput, if_neg hnot', afterInput, if_neg hnot']
      exact .done _
  · have hnot : ∀ id : ℕ, ¬ (g.type = .kInp ∧ id ≠ 0) := fun id h => ht h.1
    refine (completes_local _ _).congr (fun id _ => ?_) fun _ _ => rfl
    rw [setInput, if_neg (hnot id), afterInput, if_neg (hnot id)]

theorem setInputs_completes {circ : Circuit (Field M)} (hd : InputsDealt nP ipm d circ)
    (s : ℕ → OnlineState M) : Completes (Finset.range (nP + 1))
      (fun id => setInputs nP id (d id) circ.orderGatesByLevel (s id))
      (afterInputs ipm d circ.orderGatesByLevel s) :=
  Completes.foldlM _
    (fun _ hg s => setInput_completes hd (circ.mem_of_mem_level_zero hg) s) s

theorem afterInputs_wires {d : ℕ → PartyData M} {circ : Circuit (Field M)} {g : Gate (Field M)}
    (hg : g ∈ circ.gates_) (ht : g.type = .kInp) (s : ℕ → OnlineState M) {i : ℕ} (hi : i ≠ 0) :
    (afterInputs ipm d circ.orderGatesByLevel s i).wires_ g.out = dealtValue ipm d g.out := by
  refine foldl_of_mem (P := fun s => (s i).wires_ g.out = dealtValue ipm d g.out)
    (fun s x _ h => ?_) (circ.input_mem_level_zero hg ht) (fun s => ?_) s
  · by_cases hx : x.type = .kInp ∧ g.out = x.out
    · rw [afterInput, if_pos ⟨hx.1, hi⟩, hx.2]
      exact Function.update_self _ _ _
    · rw [afterInput]
      split
      · exact (Function.update_of_ne (fun h => hx ⟨‹_ ∧ _›.1, h⟩) _ _).trans h
      · exact h
  · rw [afterInput, if_pos ⟨ht, hi⟩]
    exact Function.update_self _ _ _

/-! ## Comparison gates -/

section Compare
variable {V : Type} [Zero V] (K : Comparison M V)

/-- The shares the parties get for a list of comparison gates. -/
def Comparison.result (nP : ℕ) (d : ℕ → PartyData M) (gates : List FIn1Gate)
    (wires_ : ℕ → ℕ → Field M) (id : ℕ) : List (ComparisonShare M) :=
  if 0 < gates.length then
    K.shares id (d id) gates (wires_ id) (boolAfterLevels nP gates.length
      (fun i k => (comparisonPre (d i) gates k).gates) K.circ
      (fun i => K.start i (d i) gates (wires_ i)) id)
  else []

theorem Comparison.evaluateAny_completes (hnP : 1 ≤ nP) (gates : List FIn1Gate)
    (wires_ : ℕ → ℕ → Field M) : Completes (Finset.range (nP + 1))
      (fun id => K.evaluateAny nP id (d id) gates (wires_ id)) (K.result nP d gates wires_) := by
  by_cases h : 0 < gates.length
  · exact ((boolEval_completes hnP gates.length (fun i k => (comparisonPre (d i) gates k).gates)
      K.circ fun i => K.start i (d i) gates (wires_ i)).map
        fun id bool_eval => K.shares id (d id) gates (wires_ id) bool_eval).congr
      (fun _ _ => if_pos h) fun _ _ => (if_pos h).symm
  · exact (completes_local _ fun _ => []).congr (fun _ _ => if_neg h) fun _ _ => (if_neg h).symm

theorem Comparison.length_result (gates : List FIn1Gate) (wires_ : ℕ → ℕ → Field M) (id : ℕ) :
    (K.result nP d gates wires_ id).length = gates.length := by
  by_cases h : 0 < gates.length
  · simp [Comparison.result, if_pos h, Comparison.shares]
  · simp only [Comparison.result, if_neg h, List.length_nil]
    omega

end Compare

/-! ## One level -/

section Level
variable (nP) (d) (level : List (Gate (Field M))) (s : ℕ → OnlineState M)

def eqzResult : ℕ → List (ComparisonShare M) :=
  eqzComparison.result nP d (fIn1Gates .kEqz level) fun i => (s i).wires_

def ltzResult : ℕ → List (ComparisonShare M) :=
  ltzComparison.result nP d (fIn1Gates .kLtz level) fun i => (s i).wires_

def levelShares (i : ℕ) : GateType → List (Field M) :=
  nonTP i (d i) level (s i).wires_ (eqzResult nP d level s i) (ltzResult nP d level s i)

def levelOpened : List (Field M) :=
  openedValues nP (openedTypes.map (openedNum level)).sum fun i =>
    concat openedTypes (levelShares nP d level s i)

def afterLevel (err : ℕ → Field M) (id : ℕ) : OnlineState M :=
  if id = 0 then s id else
    (level.foldl (partyRecvStep err
      (split (openedNum level) openedTypes (levelOpened nP d level s))
      (eqzResult nP d level s id) (ltzResult nP d level s id))
      (level.foldl (partySendStep id (d id)) (s id), fun _ => 0)).1

variable {nP d level s}

theorem length_levelShares (i : ℕ) {t : GateType} (ht : t ∈ openedTypes) :
    (levelShares nP d level s i t).length = openedNum level t := by
  have hfilter : ∀ t : GateType, (fIn1Gates t level).length = openedNum level t := fun t => by
    rw [fIn1Gates, List.length_map, openedNum, List.countP_eq_length_filter]
  have hbatch : ∀ f : Gate (Field M) → Field M, (batch Gate.type level f t).length =
      openedNum level t := fun f => length_batch ..
  revert hbatch
  cases t with
  | kEqz => exact fun _ => by simp [levelShares, nonTP, eqzResult, Comparison.length_result, hfilter]
  | kLtz => exact fun _ => by simp [levelShares, nonTP, ltzResult, Comparison.length_result, hfilter]
  | kMul | kMul3 | kMul4 | kDotprod => exact fun hbatch => hbatch _
  | _ => simp [openedTypes] at ht

theorem level_completes (hnP : 1 ≤ nP) (err : ℕ → Field M) (s : ℕ → OnlineState M) :
    Completes (Finset.range (nP + 1))
      (fun id => evaluateGatesAtDepth nP id (d id) err level (s id))
      (afterLevel nP d level s err) := by
  have hlen : ∀ i ∈ parties nP, (concat openedTypes (levelShares nP d level s i)).length =
      (openedTypes.map (openedNum level)).sum := fun i _ =>
    length_concat fun t ht => length_levelShares i ht
  have hrecv := (open_completes (fieldCodec M) hnP hlen).map fun id agg_values =>
    if id = 0 then s id else
      (level.foldl (partyRecvStep err (split (openedNum level) openedTypes agg_values)
        (eqzResult nP d level s id) (ltzResult nP d level s id))
        (level.foldl (partySendStep id (d id)) (s id), fun _ => 0)).1
  refine (eqzComparison.evaluateAny_completes hnP (fIn1Gates .kEqz level) _).bind ?_
  refine (ltzComparison.evaluateAny_completes hnP (fIn1Gates .kLtz level) _).bind ?_
  refine hrecv.congr (fun id _ => ?_) fun id _ => ?_
  · by_cases h : id = 0
    · simp only [if_pos h]
      rfl
    · simp only [if_neg h]
      rfl
  · by_cases h : id = 0
    · simp only [afterLevel, if_pos h]
    · simp only [afterLevel, if_neg h]
      rfl

end Level

def afterLevels (nP : ℕ) (d : ℕ → PartyData M) (err : ℕ → Field M)
    (circ : LevelOrderedCircuit (Field M)) (s : ℕ → OnlineState M) : ℕ → OnlineState M :=
  circ.gates_by_level.foldl (fun s level => afterLevel nP d level s err) s

theorem levels_completes (hnP : 1 ≤ nP) (err : ℕ → Field M) (circ : LevelOrderedCircuit (Field M))
    (s : ℕ → OnlineState M) : Completes (Finset.range (nP + 1))
      (fun id => circ.gates_by_level.foldlM
        (fun s level => evaluateGatesAtDepth nP id (d id) err level s) (s id))
      (afterLevels nP d err circ s) :=
  Completes.foldlM _ (fun _ _ s => level_completes hnP err s) s

/-! ## Rounds with the trusted party -/

/-- The others send one field element each; the trusted party adds them up. -/
def tpAdds (nP id : ℕ) (x : Field M) : Proc ℕ (Field M) :=
  if id = 0 then do
    let omegas ← (parties nP).mapM fun i => recvField M i
    pure omegas.sum
  else do
    Proc.sendTo 0 ((fieldCodec M).encode [x])
    pure 0

theorem tpAdds_completes (x : ℕ → Field M) : Completes (Finset.range (nP + 1))
    (fun id => tpAdds nP id (x id)) fun id => if id = 0 then ((parties nP).map x).sum else 0 := by
  refine @completes_gather _ _ _ _ _ _ 0 (parties nP) (fun j => (fieldCodec M).encode [x j])
    (parties_nodup nP) (fun j hj => mem_range_of_parties hj) (by simp) ?_
    (fun j hj => ⟨ne_zero_of_parties hj, ?_⟩)
    fun i hi h hn => absurd (parties_of_mem_range hi h) hn
  · have hrecvs : Does ((parties nP).mapM fun i => recvField M i)
        ((parties nP).map fun j => .inp j ((fieldCodec M).encode [x j])) ((parties nP).map x) := by
      rw [List.map_eq_flatMap]
      exact .mapM _ fun j _ => does_recvField (x j)
    have h := hrecvs.bind (f := fun xs => Proc.done xs.sum) (.done _)
    rwa [List.append_nil] at h
  · simp only [tpAdds, if_neg (ne_zero_of_parties hj)]
    exact .send (.done 0)

/-! ## MAC check and outputs -/

section Mac
variable (nP) (d) (reseed : Bytes → Prg) (circ : LevelOrderedCircuit (Field M))
  (s : ℕ → OnlineState M)

def ccKey : Bytes := ((d 0).rgen_ .self).answer CC_KEY_SIZE

def omegaOf (cc_key : Bytes) (i : ℕ) : Field M :=
  macOmega ((d i).preproc_ 0).mask.sh.key_sh_ (s i) circ ⟨reseed cc_key, []⟩

def macRes : Field M := ((parties nP).map (omegaOf d reseed circ s (ccKey d))).sum

variable {nP d reseed circ s}

theorem MACVerification_eq (hgates : circ.num_gates ≠ 0) (id : ℕ) :
    MACVerification reseed nP id (d id) circ (s id) =
      tpSends nP id (ccKey d) (ccKey d) (Proc.recvFrom 0 CC_KEY_SIZE) >>= fun cc_key =>
      tpAdds nP id (omegaOf d reseed circ s cc_key id) >>= fun res =>
      tpSends nP id ((fieldCodec M).encode [res]) res (recvField M 0) := by
  by_cases h : id = 0
  · subst h
    simp only [MACVerification, tpSends, tpAdds, if_true, bind_assoc, pure_bind]
    rfl
  · simp only [MACVerification, tpSends, tpAdds, if_neg h, bind_assoc, pure_bind, keyShare,
      if_neg hgates, omegaOf]

theorem mac_completes (hgates : circ.num_gates ≠ 0) : Completes (Finset.range (nP + 1))
    (fun id => MACVerification reseed nP id (d id) circ (s id))
    fun _ => macRes nP d reseed circ s := by
  have hlen : (ccKey d).length = CC_KEY_SIZE := by simp [ccKey, Stream.answer]
  have hkey : Completes (Finset.range (nP + 1))
      (fun id => tpSends nP id (ccKey d) (ccKey d) (Proc.recvFrom 0 CC_KEY_SIZE))
      fun _ => ccKey d :=
    (tpSends_completes _ (.recv' hlen (.done _))).congr (fun _ _ => rfl) fun _ _ => ite_self _
  have hres : Completes (Finset.range (nP + 1))
      (fun id => tpSends nP id ((fieldCodec M).encode [macRes nP d reseed circ s])
        (macRes nP d reseed circ s) (recvField M 0)) fun _ => macRes nP d reseed circ s :=
    (tpSends_completes _ (does_recvField _)).congr (fun _ _ => rfl) fun _ _ => ite_self _
  refine (hkey.bind ((tpAdds_completes (omegaOf d reseed circ s (ccKey d))).bind
    (hres.congr (fun id _ => tpSends_congr fun h0 => ?_) fun _ _ => rfl))).congr
    (fun id _ => MACVerification_eq hgates id) fun _ _ => rfl
  rw [if_pos h0]
  exact ⟨rfl, rfl⟩

def outputsOf (d : ℕ → PartyData M) (circ : LevelOrderedCircuit (Field M)) (s : ℕ → OnlineState M)
    (id : ℕ) : List (Field M) :=
  circ.outputs.map fun wout =>
    if id = 0 then 0 else (s id).wires_ wout - ((d 0).preproc_ wout).mask.tp.secret

theorem outputs_completes (nP : ℕ) (d : ℕ → PartyData M) (circ : LevelOrderedCircuit (Field M))
    (s : ℕ → OnlineState M) : Completes (Finset.range (nP + 1))
    (fun id => getOutputs nP id (d id) circ (s id)) (outputsOf d circ s) :=
  tpUnmasks_completes (fieldCodec M) circ.outputs (fun id w => ((d id).preproc_ w).mask.tp.secret)
    fun id => (s id).wires_

/-- How `evaluateCircuit` ends when the states are `s` and the MAC check has found `res`. -/
def finalResult (d : ℕ → PartyData M) (circ : LevelOrderedCircuit (Field M)) (s : ℕ → OnlineState M)
    (res : Field M) (id : ℕ) : OnlineResult M :=
  ⟨s id, res, if res = 0 then outputsOf d circ s id else circ.outputs.map fun _ => 0⟩

theorem finish_completes (res : Field M) : Completes (Finset.range (nP + 1))
    (fun id => finishCircuit nP id (d id) circ (s id) res) (finalResult d circ s res) := by
  by_cases hres : res = 0
  · have h := (outputs_completes nP d circ s).map fun id outvals =>
      (⟨s id, res, outvals⟩ : OnlineResult M)
    refine h.congr (fun id _ => ?_) fun id _ => ?_
    · rw [finishCircuit, if_pos hres]
    · rw [finalResult, if_pos hres]
  · have h := completes_local (Finset.range (nP + 1)) fun id =>
      (⟨s id, res, circ.outputs.map fun _ => 0⟩ : OnlineResult M)
    refine h.congr (fun id _ => ?_) fun id _ => ?_
    · rw [finishCircuit, if_neg hres]
    · rw [finalResult, if_neg hres]

end Mac

/-! ## The whole online phase -/

section Whole
variable (nP) (ipm) (d) (reseed : Bytes → Prg) (err : ℕ → Field M)
  (circ : LevelOrderedCircuit (Field M))

def onlineStates : ℕ → OnlineState M :=
  afterLevels nP d err circ (afterInputs ipm d circ fun _ => .init)

def onlineResult : ℕ → OnlineResult M :=
  let s := onlineStates nP ipm d err circ
  finalResult d circ s (macRes nP d reseed circ s)

variable {nP ipm d reseed err}

theorem evaluateCircuit_completes (hnP : 1 ≤ nP) {circ : Circuit (Field M)}
    (hd : InputsDealt nP ipm d circ) (hgates : circ.gates_ ≠ []) :
    Completes (Finset.range (nP + 1))
      (fun id => evaluateCircuit reseed nP id (d id) err circ.orderGatesByLevel)
      (onlineResult nP ipm d reseed err circ.orderGatesByLevel) := by
  have hnum : circ.orderGatesByLevel.num_gates ≠ 0 := fun h => hgates (List.length_eq_zero_iff.mp h)
  exact (setInputs_completes hd fun _ => .init).bind ((levels_completes hnP err _ _).bind
    ((mac_completes hnum).bind (finish_completes _)))

theorem evaluateCircuit_neverReturns {nP id : ℕ} (hid : id ≠ 0) (d : PartyData M)
    {circ : LevelOrderedCircuit (Field M)} (hgates : circ.num_gates = 0) :
    (evaluateCircuit reseed nP id d err circ).NeverReturns := by
  have hmac : ∀ s, (MACVerification reseed nP id d circ s).NeverReturns := by
    intro s
    rw [MACVerification, if_neg hid]
    refine .bind_right _ fun cc_key => ?_
    rw [keyShare, if_pos hgates]
    trivial
  refine .bind_right _ fun s => .bind_right _ fun s => ?_
  exact (hmac s).bind_left _

/-- The online phase behaves alike under every schedule, is never stuck before all have returned, and
every receive takes exactly the bytes of one send, whatever has been preprocessed and whatever is
opened, if and only if the circuit has a gate. -/
theorem evaluateCircuit_converges_iff {nP : ℕ} (hnP : 1 ≤ nP) (circ : Circuit (Field M))
    (ipm : ℕ → ℕ) (d : ℕ → PartyData M) (hd : InputsDealt nP ipm d circ) (reseed : Bytes → Prg)
    (err : ℕ → Field M) :
    (∃ r, Converges (Finset.range (nP + 1))
      (fun id => evaluateCircuit reseed nP id (d id) err circ.orderGatesByLevel) r) ↔
      circ.gates_ ≠ [] := by
  constructor
  · rintro ⟨r, hr⟩ hnil
    have h1 : 1 ∈ Finset.range (nP + 1) := by
      rw [Finset.mem_range]
      omega
    exact hr.returns h1 (evaluateCircuit_neverReturns one_ne_zero (d 1)
      (List.length_eq_zero_iff.mpr hnil))
  · exact fun hgates => ⟨_, (evaluateCircuit_completes hnP hd hgates).converges⟩

end Whole

end Run

/-! ## Two small circuits -/

def constPool (b : UInt8) : RandGenPool := .seeded fun _ _ _ => b

/-- A party that knows both inputs, of which it holds 3 as masks, and has preprocessed the products. -/
def inputParty : PartyData testModulus where
  rgen_ := constPool 7
  boolRgen := constPool 7
  preproc_ := fun w => if w < 2 then ⟨default, .input (w + 1) 3⟩ else ⟨default, .mult default⟩
  inputs := ⟨{0, 1}, fun w => w + 5⟩

/-- Three products at one level. -/
def threeProducts : Circuit (Field testModulus) := Circuit.built do
  let w0 ← Circuit.newInputWire
  let w1 ← Circuit.newInputWire
  let w2 ← Circuit.addGate2 .kMul w0 w0
  let w3 ← Circuit.addGate2 .kMul w0 w1
  let w4 ← Circuit.addGate2 .kMul w1 w1
  Circuit.setAsOutput w2
  Circuit.setAsOutput w3
  Circuit.setAsOutput w4

def twoInputs : Circuit (Field testModulus) := Circuit.built do
  let w0 ← Circuit.newInputWire
  let w1 ← Circuit.newInputWire
  let w2 ← Circuit.addGate2 .kMul w0 w1
  Circuit.setAsOutput w2

/-- Two parties open three products, one of them in the first slice and two in the second. -/
theorem evaluateCircuit_converges_products :
    (∃ r, Converges (Finset.range 3)
      (fun id => evaluateCircuit (fun _ _ _ => 7) 2 id inputParty (fun _ => 0)
        threeProducts.orderGatesByLevel) r) ↔ threeProducts.gates_ ≠ [] := by
  have hgates : threeProducts.gates_ =
      [⟨.kInp, 0⟩, ⟨.kInp, 1⟩, ⟨.kMul 0 0, 2⟩, ⟨.kMul 0 1, 3⟩, ⟨.kMul 1 1, 4⟩] := rfl
  have hinput : ∀ g ∈ threeProducts.gates_, g.type = .kInp → g.out = 0 ∨ g.out = 1 := by
    rw [hgates]
    simp [Gate.type, Op.type]
  refine evaluateCircuit_converges_iff (by decide) threeProducts (fun w => w + 1) (fun _ => inputParty)
    ⟨fun g hg ht i _ => ?_, fun g hg ht => ?_⟩ (fun _ _ _ => 7) fun _ => 0
  · obtain hout | hout := hinput g hg ht
    · rw [hout]
      rfl
    · rw [hout]
      rfl
  · obtain hout | hout := hinput g hg ht
    · rw [hout]
      exact ⟨by decide, by decide⟩
    · rw [hout]
      exact ⟨by decide, by decide⟩

/-- One party and a circuit without gates. -/
theorem evaluateCircuit_empty_diverges :
    ¬ ∃ r, Converges (Finset.range 2)
      (fun id => evaluateCircuit (fun _ _ _ => 7) 1 id inputParty (fun _ => 0)
        (Circuit.empty : Circuit (Field testModulus)).orderGatesByLevel) r := by
  rintro ⟨r, hr⟩
  exact hr.returns (by decide : 1 ∈ Finset.range 2)
    (evaluateCircuit_neverReturns one_ne_zero inputParty rfl)

end QSync
