import QSync.Asterisk.OfflineRun
import QSync.Asterisk.OnlineCorrect

/-! # Both phases of the protocol

`OfflineEvaluator::run` and then `OnlineEvaluator::evaluateCircuit`, as the tests and the benchmarks
run them. On arithmetic circuits all parties get what plaintext evaluation gives (`mpc_correct`).
-/

namespace QSync
open Network
set_option autoImplicit false
set_option maxHeartbeats 250000

section Program
variable {M : Modulus}

/-- What a party brings along: the streams of the pools of `OfflineEvaluator`, of `OnlineEvaluator` and
of the `BoolEval`s, and the inputs it knows. -/
structure MpcParty (M : Modulus) where
  offlinePrgs : StreamName → Prg
  onlinePrgs : StreamName → Prg
  boolPrgs : StreamName → Prg
  inputs : InputMap (Field M)

structure MpcResult (M : Modulus) where
  offline : OfflineResult M
  online : OnlineResult M

def mpc (reseed : Bytes → Prg) (nP id : ℕ) (input_pid_map : ℕ → ℕ)
    (circ : LevelOrderedCircuit (Field M)) (party : MpcParty M) : Proc ℕ (MpcResult M) := do
  let (preproc, _) ← OfflineEvaluator.run nP id input_pid_map circ (.seeded party.offlinePrgs)
  let d : PartyData M :=
    ⟨.seeded party.onlinePrgs, .seeded party.boolPrgs, preproc.gates, party.inputs⟩
  let online ← evaluateCircuit reseed nP id d (fun _ => 0) circ
  pure ⟨preproc, online⟩

/-- The trusted party has each party's stream, all have the common one, and the parties that evaluate
Boolean circuits have common pads. -/
structure StreamsShared (nP : ℕ) (circ : Circuit (Field M)) (party : ℕ → MpcParty M) : Prop where
  own : ∀ i ∈ parties nP, (party 0).offlinePrgs (.pi i) = (party i).offlinePrgs .p0
  all : ∀ i ∈ parties nP, (party 0).offlinePrgs .all = (party i).offlinePrgs .all
  pads : (∃ g ∈ circ.gates_, g.type = .kEqz ∨ g.type = .kLtz) → ∀ i ∈ parties nP,
    (party i).boolPrgs .all_minus_0 = (party 1).boolPrgs .all_minus_0

end Program

section Run
variable {M : Modulus} {nP : ℕ} {ipm : ℕ → ℕ} {circ : Circuit (Field M)} {party : ℕ → MpcParty M}
  {reseed : Bytes → Prg}

def mpcOffline (nP : ℕ) (ipm : ℕ → ℕ) (circ : LevelOrderedCircuit (Field M)) (party : ℕ → MpcParty M)
    (id : ℕ) : OfflineResult M :=
  (offlineResult nP ipm circ (fun i => .seeded (party i).offlinePrgs) id).1

def mpcData (nP : ℕ) (ipm : ℕ → ℕ) (circ : LevelOrderedCircuit (Field M)) (party : ℕ → MpcParty M)
    (id : ℕ) : PartyData M :=
  ⟨.seeded (party id).onlinePrgs, .seeded (party id).boolPrgs, (mpcOffline nP ipm circ party id).gates,
    (party id).inputs⟩

theorem mpc_preproc (hnP : 1 ≤ nP) (htypes : ∀ g ∈ circ.gates_, g.type.offline)
    (hstreams : StreamsShared nP circ party) (ipm : ℕ → ℕ) : ∃ keySh bkeySh,
      FieldPreproc nP keySh bkeySh ipm circ (mpcData nP ipm circ.orderGatesByLevel party) := by
  let rgens : ℕ → RandGenPool := fun i => .seeded (party i).offlinePrgs
  let r := offlineResult nP ipm circ.orderGatesByLevel rgens
  have hgood : ∀ i, 1 ≤ i → i ≤ nP → OfflineConsistent nP i True ipm circ (r 0) (r i) :=
    fun i hi hn => offlineResult_consistent hnP htypes hi hn
      (congrArg (Stream.mk · []) (hstreams.own i (mem_parties.mpr ⟨hi, hn⟩)))
      fun _ => congrArg (Stream.mk · []) (hstreams.all i (mem_parties.mpr ⟨hi, hn⟩))
  refine ⟨fun j => (r 0).1.keys.keySh.getD j 0, fun j => (r 0).1.keys.bkeySh.getD j 0,
    fun i hi g hg => ?_, fun g hg => ((hgood 1 le_rfl hnP).stored.gates g hg).opens,
    fun g hg ht => ?_⟩
  · obtain ⟨hi, hn⟩ := mem_parties.mp hi
    exact ((hgood i hi hn).stored.gates g hg).agrees
  · exact ⟨_, fun i hi => congrArg (Stream.mk · []) (hstreams.pads ⟨g, hg, ht⟩ i hi)⟩

theorem mpc_completes (hnP : 1 ≤ nP) (htypes : ∀ g ∈ circ.gates_, g.type.offline)
    (hgates : circ.gates_ ≠ []) (hstreams : StreamsShared nP circ party)
    (hdealers : DealersReady nP ipm circ fun i => (party i).inputs) :
    Completes (Finset.range (nP + 1))
      (fun id => mpc reseed nP id ipm circ.orderGatesByLevel (party id)) fun id =>
        ⟨mpcOffline nP ipm circ.orderGatesByLevel party id, onlineResult nP ipm
          (mpcData nP ipm circ.orderGatesByLevel party) reseed (fun _ => 0) circ.orderGatesByLevel id⟩ := by
  obtain ⟨keySh, bkeySh, hpre⟩ := mpc_preproc hnP htypes hstreams ipm
  have honline : Completes (Finset.range (nP + 1)) (fun id => evaluateCircuit reseed nP id
      (mpcData nP ipm circ.orderGatesByLevel party id) (fun _ => 0) circ.orderGatesByLevel) _ :=
    evaluateCircuit_completes hnP (hpre.inputsDealt hdealers) hgates
  let online := fun id (p : OfflineResult M × OfflineState M) =>
    evaluateCircuit reseed nP id ⟨.seeded (party id).onlinePrgs, .seeded (party id).boolPrgs, p.1.gates,
      (party id).inputs⟩ (fun _ => 0) circ.orderGatesByLevel >>= fun o =>
        pure (⟨p.1, o⟩ : MpcResult M)
  have hrest : Completes (Finset.range (nP + 1)) (fun id => online id
      (offlineResult nP ipm circ.orderGatesByLevel (fun i => .seeded (party i).offlinePrgs) id)) _ :=
    honline.map fun id o => (⟨mpcOffline nP ipm circ.orderGatesByLevel party id, o⟩ : MpcResult M)
  exact (offline_completes hnP _).bind hrest

/-- On an arithmetic circuit the values of the online phase are those of plaintext evaluation. -/
theorem onlineValues_arithmetic (f : ℕ → Field M) (C : FieldGates M)
    (htypes : ∀ g ∈ circ.gates_, g.type = .kInp ∨ g.type.arithmetic) {w : ℕ} (hw : w < circ.size) :
    onlineValues f (fun _ => 0) C circ w = circ.value f w := by
  refine circ.value_unique f (fun g hg => ?_) hw
  rw [onlineValues_eq C hg]
  by_cases hmult : g.type ∈ multTypes
  · rw [onlineValue_mult hmult, add_zero]
  · refine onlineValue_of_not_opened fun hopened => ?_
    have h := htypes g hg
    revert h hopened hmult
    cases g.type <;> decide

end Run

/-- The protocol on an arithmetic circuit: under every schedule the MAC check passes at all parties,
and each of them returns what plaintext evaluation returns. -/
theorem mpc_correct (M : Modulus) (nP : ℕ) (hnP : 1 ≤ nP) (circ : Circuit (Field M))
    (hgates : circ.gates_ ≠ []) (htypes : ∀ g ∈ circ.gates_, g.type = .kInp ∨ g.type.arithmetic)
    (ipm : ℕ → ℕ) (party : ℕ → MpcParty M) (reseed : Bytes → Prg)
    (hown : ∀ i, 1 ≤ i → i ≤ nP → (party 0).offlinePrgs (.pi i) = (party i).offlinePrgs .p0)
    (hall : ∀ i, 1 ≤ i → i ≤ nP → (party 0).offlinePrgs .all = (party i).offlinePrgs .all)
    (x : ℕ → Field M)
    (hinputs : ∀ g ∈ circ.gates_, g.type = .kInp → (1 ≤ ipm g.out ∧ ipm g.out ≤ nP) ∧
      g.out ∈ (party (ipm g.out)).inputs.keys ∧ (party (ipm g.out)).inputs.val g.out = x g.out) :
    ∃ r, Converges (Finset.range (nP + 1))
        (fun id => mpc reseed nP id ipm circ.orderGatesByLevel (party id)) r ∧
      (∀ id ≤ nP, (r id).online.res = 0) ∧
      ∀ i, 1 ≤ i → i ≤ nP → circ.evaluate (circ.assign x) = .ok (r i).online.outvals := by
  have hoffline : ∀ g ∈ circ.gates_, g.type.offline := fun g hg => by
    have h := htypes g hg
    revert h
    cases g.type <;> decide
  have hstreams : StreamsShared nP circ party := by
    refine ⟨fun i hi => hown i (mem_parties.mp hi).1 (mem_parties.mp hi).2,
      fun i hi => hall i (mem_parties.mp hi).1 (mem_parties.mp hi).2, fun ⟨g, hg, hc⟩ => ?_⟩
    have h := htypes g hg
    rcases hc with hc | hc <;> rw [hc] at h <;> exact absurd h (by decide)
  have hdealers : DealersReady nP ipm circ fun i => (party i).inputs := fun g hg ht =>
    ⟨mem_parties.mpr (hinputs g hg ht).1, (hinputs g hg ht).2.1⟩
  obtain ⟨keySh, bkeySh, hpre⟩ := mpc_preproc hnP hoffline hstreams ipm
  have hres := onlineResult_honest reseed hnP hpre hoffline hdealers hgates
  refine ⟨_, (mpc_completes hnP hoffline hgates hstreams hdealers).converges, fun id _ => hres id,
    fun i hi hn => ?_⟩
  refine (circ.evaluate_eq x fun g hg => ?_).trans (congrArg Except.ok ?_)
  · obtain h | h := htypes g hg
    · rw [h]
      decide
    · exact GateType.arithmetic_ne h
  · refine Eq.trans (List.map_congr_left fun w hw => ?_)
      (onlineResult_outvals reseed hnP hpre hoffline hdealers (mem_parties.mpr ⟨hi, hn⟩) (hres i)).symm
    rw [onlineValues_arithmetic _ _ htypes (circ.outputs_valid w hw)]
    refine circ.value_unique _ (fun g hg => ?_) (circ.outputs_valid w hw)
    refine (circ.value_eq x hg).trans ?_
    by_cases ht : g.type = .kInp
    · rw [Gate.value_of_kInp ht, Gate.value_of_kInp ht]
      exact (hinputs g hg ht).2.2.symm
    · obtain ⟨op, out⟩ := g
      cases op <;> first | rfl | exact absurd rfl ht

/-- Two parties multiply 5 and 6. -/
theorem mpc_correct_mul :
    ∃ r, Converges (Finset.range 3)
        (fun id => mpc (fun _ _ _ => 7) 2 id (fun w => w + 1) twoInputs.orderGatesByLevel
          ⟨fun _ _ _ => 7, fun _ _ _ => 7, fun _ _ _ => 7, ⟨{0, 1}, fun w => w + 5⟩⟩) r ∧
      (∀ id ≤ 2, (r id).online.res = 0) ∧
      ∀ i, 1 ≤ i → i ≤ 2 →
        twoInputs.evaluate (twoInputs.assign fun w => w + 5) = .ok (r i).online.outvals := by
  have hgates : twoInputs.gates_ = [⟨.kInp, 0⟩, ⟨.kInp, 1⟩, ⟨.kMul 0 1, 2⟩] := rfl
  refine mpc_correct testModulus 2 (by decide) twoInputs (by rw [hgates]; simp) (by decide)
    (fun w => w + 1) (fun _ => ⟨fun _ _ _ => 7, fun _ _ _ => 7, fun _ _ _ => 7, ⟨{0, 1}, fun w => w + 5⟩⟩)
    (fun _ _ _ => 7) (fun _ _ _ => rfl) (fun _ _ _ => rfl) (fun w => w + 5) fun g hg ht => ?_
  rw [hgates] at hg
  simp only [List.mem_cons, List.not_mem_nil, or_false] at hg
  obtain rfl | rfl | rfl := hg
  · exact ⟨by decide, by decide, rfl⟩
  · exact ⟨by decide, by decide, rfl⟩
  · cases ht

end QSync
