import QSync.Asterisk.MacCheck
import QSync.Foundations.LinearForms

/-! # How often the MAC check misses

Any number of openings are falsified, each by an amount of its own, before the challenges are drawn.
The check then finds a linear form in the challenges. Over all contents of the challenge stream, a
falsified multiplication is missed with at most the share of a single challenge that reduces to a given
residue (`macCheck_misses`).
-/

namespace QSync
open Network LinearForms
set_option autoImplicit false
set_option maxHeartbeats 250000

section Challenges
variable {M : Modulus}

/-- The gates for which challenges are drawn, once for each challenge. -/
def challengeGates (gs : List (Gate (Field M))) : List (Gate (Field M)) :=
  gs.flatMap fun g => List.replicate (challenges g.type) g

theorem challengeGates_cons (g : Gate (Field M)) (gs : List (Gate (Field M))) :
    challengeGates (g :: gs) = List.replicate (challenges g.type) g ++ challengeGates gs :=
  List.flatMap_cons

/-- The number of challenges of a circuit. -/
def challengeCount (circ : LevelOrderedCircuit (Field M)) : ℕ :=
  (challengeGates circ.gates_by_level.flatten).length

/-- The gate that the `n`-th challenge is drawn for. -/
def challengeGate (circ : LevelOrderedCircuit (Field M)) (n : Fin (challengeCount circ)) :
    Gate (Field M) :=
  (challengeGates circ.gates_by_level.flatten).get n

/-- The generator whose `n`-th answer is the word `rho n`. -/
def wordPrg (rho : ℕ → Fin (2 ^ 64)) : Prg := fun hist k =>
  UInt8.ofNat ((leBytes FIELDSIZE (rho (hist.length - 1)).val).getD k 0)

theorem wordPrg_answer (rho : ℕ → Fin (2 ^ 64)) (hist : List ℕ) :
    (⟨wordPrg rho, hist⟩ : Stream).answer FIELDSIZE = leBytes FIELDSIZE (rho hist.length).val := by
  refine List.ext_getElem (by simp [Stream.answer]) fun k hk hk' => ?_
  have hbyte := leBytes_lt (rho hist.length).isLt _ (List.getElem_mem hk')
  simp only [Stream.answer, wordPrg, List.getElem_map, List.getElem_range, List.length_cons,
    Nat.add_sub_cancel]
  rw [List.getD_eq_getElem?_getD, List.getElem?_eq_getElem hk', Option.getD_some, UInt8.toNat_ofNat',
    Nat.mod_eq_of_lt hbyte]

/-- The field element that a word gives. -/
def wordField (M : Modulus) (w : Fin (2 ^ 64)) : Field M := ((BitVec.ofFin w).toInt : Field M)

theorem wordPrg_value (rho : ℕ → Fin (2 ^ 64)) (hist : List ℕ) :
    (⟨wordPrg rho, hist⟩ : Stream).value (Field M) = wordField M (rho hist.length) := by
  change ((BitVec.ofNat 64 (leNat ((⟨wordPrg rho, hist⟩ : Stream).answer FIELDSIZE))).toInt : Field M) = _
  rw [wordPrg_answer, leNat_leBytes (by decide), wordField]
  congr 2
  exact BitVec.eq_of_toNat_eq (Nat.mod_eq_of_lt (rho hist.length).isLt)

/-- Draws from the generator are its words in order. -/
theorem mapM_randomize (rho : ℕ → Fin (2 ^ 64)) {α : Type} (xs : List α) (hist : List ℕ) :
    ∃ hist', hist'.length = hist.length + xs.length ∧
      (xs.mapM fun _ => Stream.randomize (Field M)) ⟨wordPrg rho, hist⟩ =
        ((List.range' hist.length xs.length).map fun n => wordField M (rho n), ⟨wordPrg rho, hist'⟩) := by
  induction xs generalizing hist with
  | nil => exact ⟨hist, rfl, rfl⟩
  | cons x xs ih =>
    obtain ⟨hist', hlen, hrest⟩ := ih (FIELDSIZE :: hist)
    refine ⟨hist', by rw [hlen, List.length_cons, List.length_cons]; omega, ?_⟩
    rw [List.mapM_cons]
    have hnext : (Stream.randomize (Field M) : StateM Stream (Field M)) ⟨wordPrg rho, hist⟩ =
        (wordField M (rho hist.length), ⟨wordPrg rho, FIELDSIZE :: hist⟩) :=
      Prod.ext (wordPrg_value rho hist) rfl
    rw [StateM.bind_apply, hnext, StateM.bind_apply, hrest]
    rfl

theorem drawChallenges_eq (rho : ℕ → Fin (2 ^ 64)) (gs : List (Gate (Field M))) (hist : List ℕ) :
    (drawChallenges gs ⟨wordPrg rho, hist⟩).1 =
      ((challengeGates gs).zipIdx hist.length).map fun x => (x.1, wordField M (rho x.2)) := by
  induction gs generalizing hist with
  | nil => rfl
  | cons g gs ih =>
    obtain ⟨hist', hlen, hdraws⟩ := mapM_randomize (M := M) rho (List.range (challenges g.type)) hist
    rw [List.length_range] at hlen hdraws
    rw [drawChallenges_cons, hdraws]
    dsimp only
    rw [ih hist', hlen, challengeGates_cons, List.zipIdx_append, List.map_append,
      List.length_replicate]
    refine congrArg (· ++ _) ?_
    refine List.ext_getElem (by simp) fun k hk hk' => ?_
    simp

/-- The generator with the words of `rho` as its first answers. -/
def challengePrg {k : ℕ} (rho : Fin k → Fin (2 ^ 64)) : Prg :=
  wordPrg fun n => if h : n < k then rho ⟨n, h⟩ else 0

theorem sum_zipIdx {α R : Type} [AddCommMonoid R] (xs : List α) (F : α × ℕ → R) :
    (xs.zipIdx.map F).sum = ∑ n : Fin xs.length, F (xs.get n, n) := by
  rw [← List.sum_ofFn]
  refine congrArg List.sum (List.ext_getElem (by simp) fun k hk hk' => ?_)
  simp

/-- What is added up over the challenges is a linear form in the words. -/
theorem sum_macChallenges (circ : LevelOrderedCircuit (Field M))
    (rho : Fin (challengeCount circ) → Fin (2 ^ 64)) (cc_key : Bytes) (a : Gate (Field M) → Field M) :
    ((macChallenges (fun _ => challengePrg rho) cc_key circ).map fun x => x.2 * a x.1).sum =
      ∑ n, wordField M (rho n) * a (challengeGate circ n) := by
  rw [macChallenges, challengePrg, drawChallenges_eq, List.map_map, List.length_nil, sum_zipIdx]
  refine Finset.sum_congr rfl fun n _ => ?_
  have hn : (n : ℕ) < challengeCount circ := n.isLt
  simp only [Function.comp_apply, dif_pos hn]
  rfl

end Challenges

section Soundness
variable {M : Modulus} {nP : ℕ} {keySh : ℕ → Field M} {bkeySh : ℕ → BoolRing} {ipm : ℕ → ℕ}
  {circ : Circuit (Field M)} {d : ℕ → PartyData M} {err : ℕ → Field M}

/-- A challenge is drawn for every multiplication. -/
theorem exists_challengeGate {g : Gate (Field M)} (hg : g ∈ circ.gates_) (ht : g.type ∈ multTypes) :
    ∃ n, challengeGate circ.orderGatesByLevel n = g := by
  have hpos : challenges g.type ≠ 0 := by
    revert ht
    cases g.type <;> decide
  have hmem : g ∈ challengeGates circ.orderGatesByLevel.gates_by_level.flatten :=
    List.mem_flatMap.mpr ⟨g, (circ.mem_levels g).mpr hg, List.mem_replicate.mpr ⟨hpos, rfl⟩⟩
  exact List.mem_iff_get.mp hmem

/-- What the check finds, as a linear form in the words of the challenges. -/
theorem onlineResult_form (hnP : 1 ≤ nP) (hpre : FieldPreproc nP keySh bkeySh ipm circ d)
    (htypes : ∀ g ∈ circ.gates_, g.type.offline)
    (hdealers : DealersReady nP ipm circ fun i => (d i).inputs) (hgates : circ.gates_ ≠ [])
    (rho : Fin (challengeCount circ.orderGatesByLevel) → Fin (2 ^ 64)) (id : ℕ) :
    (onlineResult nP ipm d (fun _ => challengePrg rho) err circ.orderGatesByLevel id).res =
      ∑ n, wordField M (rho n) *
        (err (challengeGate circ.orderGatesByLevel n).out * ∑ i ∈ Finset.Icc 1 nP, keySh i) :=
  (onlineResult_res _ hnP hpre htypes hdealers hgates id).trans
    (sum_macChallenges circ.orderGatesByLevel rho (ccKey d) fun g =>
      err g.out * ∑ i ∈ Finset.Icc 1 nP, keySh i)

end Soundness

/-- Whatever is added to the opened values, by gate: when that of a multiplication is falsified, at most
`⌈2 ^ 64 / p⌉ * (2 ^ 64) ^ (k - 1)` of the `(2 ^ 64) ^ k` contents of the stream from which the `k`
challenges are drawn let the MAC check pass. -/
theorem macCheck_misses (M : Modulus) (hp : M.p.Prime) (nP : ℕ) (hnP : 1 ≤ nP) (circ : Circuit (Field M))
    (htypes : ∀ g ∈ circ.gates_, g.type.offline) (ipm : ℕ → ℕ) (keySh : ℕ → Field M)
    (bkeySh : ℕ → BoolRing) (d : ℕ → PartyData M) (hpre : FieldPreproc nP keySh bkeySh ipm circ d)
    (hdealers : DealersReady nP ipm circ fun i => (d i).inputs)
    (hkey : ∑ i ∈ Finset.Icc 1 nP, keySh i ≠ 0) (err : ℕ → Field M) (g : Gate (Field M))
    (hg : g ∈ circ.gates_) (hmult : g.type ∈ multTypes) (herr : err g.out ≠ 0) :
    ∃ r : (Fin (challengeCount circ.orderGatesByLevel) → Fin (2 ^ 64)) → ℕ → OnlineResult M,
      (∀ rho, Converges (Finset.range (nP + 1)) (fun id => evaluateCircuit (fun _ => challengePrg rho) nP
        id (d id) err circ.orderGatesByLevel) (r rho)) ∧
      ∀ id, (Finset.univ.filter fun rho => (r rho id).res = 0).card ≤
        ((2 ^ 64 - 1) / M.p + 1) * (2 ^ 64) ^ (challengeCount circ.orderGatesByLevel - 1) := by
  have : Fact M.p.Prime := ⟨hp⟩
  have hgates := List.ne_nil_of_mem hg
  refine ⟨fun rho => onlineResult nP ipm d (fun _ => challengePrg rho) err circ.orderGatesByLevel,
    fun rho => (evaluateCircuit_completes hnP (hpre.inputsDealt hdealers) hgates).converges, fun id => ?_⟩
  obtain ⟨n, hn⟩ := exists_challengeGate hg hmult
  have hunit : IsUnit (err (challengeGate circ.orderGatesByLevel n).out *
      ∑ i ∈ Finset.Icc 1 nP, keySh i) := by
    rw [hn]
    exact (mul_ne_zero herr hkey).isUnit
  have hcount := card_linearForm_le (fibres_toInt 63 M.p) (fun n =>
    err (challengeGate circ.orderGatesByLevel n).out * ∑ i ∈ Finset.Icc 1 nP, keySh i) hunit 0
  rw [Fintype.card_fin, Fintype.card_fin] at hcount
  simp only [onlineResult_form hnP hpre htypes hdealers hgates]
  exact hcount

/-- One party squares its input. -/
def squareCircuit : Circuit (Field smallModulus) := Circuit.built do
  let w0 ← Circuit.newInputWire
  let w1 ← Circuit.addGate2 .kMul w0 w0
  Circuit.setAsOutput w1

def squareData : ℕ → PartyData smallModulus :=
  mpcData 1 (fun _ => 1) squareCircuit.orderGatesByLevel (onlyParty 2)

theorem squareData_key : ((squareData 1).preproc_ 0).mask.sh.key_sh_ ≠ 0 := by decide +kernel

/-- Four challenges are drawn for the square, modulo 5. -/
theorem macCheck_misses_square :
    ∃ r : (Fin (challengeCount squareCircuit.orderGatesByLevel) → Fin (2 ^ 64)) → ℕ →
        OnlineResult smallModulus,
      (∀ rho, Converges (Finset.range 2) (fun id => evaluateCircuit (fun _ => challengePrg rho) 1
        id (squareData id) (fun _ => 1) squareCircuit.orderGatesByLevel) (r rho)) ∧
      ∀ id, (Finset.univ.filter fun rho => (r rho id).res = 0).card ≤
        ((2 ^ 64 - 1) / smallModulus.p + 1) *
          (2 ^ 64) ^ (challengeCount squareCircuit.orderGatesByLevel - 1) := by
  have hgates : squareCircuit.gates_ = [⟨.kInp, 0⟩, ⟨.kMul 0 0, 1⟩] := rfl
  have hmem : (⟨.kMul 0 0, 1⟩ : Gate (Field smallModulus)) ∈ squareCircuit.gates_ :=
    hgates ▸ List.mem_cons_of_mem _ List.mem_cons_self
  have htypes := onlyParty_types hgates (of_decide_eq_true rfl)
  have hready := onlyParty_ready hgates (fun h => nomatch h) 2
  obtain ⟨keySh, bkeySh, hpre⟩ : ∃ keySh bkeySh,
      FieldPreproc 1 keySh bkeySh (fun _ => 1) squareCircuit squareData :=
    mpc_preproc le_rfl htypes (onlyParty_streams 2) fun _ => 1
  have hkey : ∑ i ∈ Finset.Icc 1 1, keySh i ≠ 0 := by
    rw [Finset.Icc_self, Finset.sum_singleton, ← hpre.key_eq le_rfl (List.ne_nil_of_mem hmem)
      (mem_parties.mpr ⟨le_rfl, le_rfl⟩)]
    exact squareData_key
  exact macCheck_misses smallModulus (by decide) 1 le_rfl squareCircuit htypes (fun _ => 1) keySh bkeySh
    squareData hpre hready hkey (fun _ => 1) _ hmem (by decide) (by decide)

end QSync
