import Mathlib.Algebra.Field.ZMod
import QSync.Asterisk.OfflineRun
import QSync.AssistedMPC.OfflineGates

/-! # All parties run the offline phase of assistedMPC

The trusted party walks, then sends every party its vectors in three messages; a party receives them
and walks. So the phase ends under every schedule, and by `helperGates_coupled` every party holds its
components of what the trusted party stores. The product sharings of `kMul3` gates are of the right
products exactly when the masks drawn for them happen to have the same products.
-/

namespace QSync.AssistedMPC
open Network
set_option autoImplicit false
set_option maxHeartbeats 250000

section Walks
variable {M : Modulus} {nP i : ℕ} {ipm : ℕ → ℕ} {circ : Circuit (Field M)}

/-! ## Keys -/

theorem keySetup_agree (hi : 1 ≤ i) (hn : i ≤ nP) {rgen rgen' : RandGenPool}
    (hown : rgen (.pi i) = rgen' .p0) :
    KeysAgree nP i (keySetup (M := M) nP 0 rgen).1 (keySetup (M := M) nP i rgen').1 := by
  have hempty : ∀ {R : Type} (q : QueueName), (readQueues (R := R) [] [] [] q) = ⟨[], 0⟩ :=
    fun q => by cases q <;> rfl
  have hkeys : ∀ {R : Type} [RandomRing R] (rgen rgen' : RandGenPool),
      rgen (.pi i) = rgen' .p0 →
      let a := keyGen (R := R) nP 0 ⟨rgen, readQueues [] [] []⟩
      let b := keyGen (R := R) nP i ⟨rgen', readQueues [] [] []⟩
      a.2.rgen (.pi i) = b.2.rgen .p0 ∧ KeysOk nP (fun j => a.1.2.getD j 0) a.1.1 a.1.2 ∧
        b.1.1 = a.1.2.getD i 0 := by
    intro R _ rgen rgen' h
    have hstep : (inStep nP i False fun _ => ([] : List R)).Coupled _ _ _ := keyGen_coupled hi hn
    obtain ⟨hr, hpost⟩ := hstep.sim ⟨rgen, readQueues [] [] []⟩ ⟨rgen', readQueues [] [] []⟩
      ⟨h, False.elim, fun _ q => by simp [hempty]⟩ fun q => by
        rw [keyGen_zero]
        simp [hempty]
    exact ⟨hr.own, hpost⟩
  obtain ⟨hown', ha, hb⟩ := hkeys (R := Field M) rgen rgen' hown
  obtain ⟨-, hba, hbb⟩ := hkeys (R := BoolRing) _ _ hown'
  exact ⟨ha, hba, hb, hbb⟩

theorem keySetup_self (rgen : RandGenPool) :
    (keySetup (M := M) nP 0 rgen).2 .self = rgen .self := by
  change (keyGen (R := BoolRing) nP 0 ⟨(keyGen (R := Field M) nP 0 _).2.rgen, _⟩).2.rgen .self = _
  rw [keyGen_zero, keyGen_zero]
  rfl

/-! ## The two walks -/

/-- What the trusted party and party `i` hold when the offline phase is over is consistent. -/
structure Consistent (nP i : ℕ) (ipm : ℕ → ℕ) (circ : Circuit (Field M)) (tp party : Outcome M) :
    Prop where
  keys : KeysAgree nP i tp.keys party.keys
  /-- The shares of party `i` are its components of valid sharings. -/
  shares : ∀ g ∈ circ.gates_, PreprocGate.Agrees nP (fun j => tp.keys.keySh.getD j 0) i noComparison
    (tp.gates g.out) (party.gates g.out)
  /-- Party `i` holds the mask of an input if it is the dealer. -/
  dealt : ∀ g ∈ circ.gates_, g.type = .kInp →
    (tp.gates g.out).ext = .input (ipm g.out) (tp.gates g.out).secret ∧
      (party.gates g.out).ext = .input (ipm g.out)
        (if ipm g.out = i then (tp.gates g.out).secret else 0)
  /-- Party `i` has read its vectors to the end. -/
  read : ∀ q, party.arith q = ⟨tp.sent i q, (tp.sent i q).length⟩
  bool_read : ∀ q, party.bool q = ⟨[], 0⟩
  /-- Masks of linear gates and products of masks are what they have to be. -/
  opens : ∀ g ∈ circ.gates_, Opens (fun w => (tp.gates w).secret) g.op (tp.gates g.out)

/-- The masks the streams of the trusted party give the wires of the circuit. -/
def drawnMasks (nP : ℕ) (circ : Circuit (Field M)) (prg : Prg) : ℕ → Field M :=
  masks nP (tape ⟨prg, []⟩) circ.orderGatesByLevel

/-- Every `kMul3` gate is on masks with the same products. -/
def Mul3Same (nP : ℕ) (circ : Circuit (Field M)) (prg : Prg) : Prop :=
  ∀ g ∈ circ.gates_, ∀ a b c, g.op = .kMul3 a b c →
    SameProducts (drawnMasks nP circ prg a) (drawnMasks nP circ prg b) (drawnMasks nP circ prg c)

/-- Over a prime field the products of a `kMul3` gate are right when two of its masks are zero, or all
are one. -/
theorem mul3Same_iff (hp : M.p.Prime) (prg : Prg) :
    Mul3Same nP circ prg ↔ ∀ g ∈ circ.gates_, ∀ a b c, g.op = .kMul3 a b c →
      let δ := drawnMasks nP circ prg
      δ a = 0 ∧ δ b = 0 ∨ δ a = 0 ∧ δ c = 0 ∨ δ b = 0 ∧ δ c = 0 ∨ δ a = 1 ∧ δ b = 1 ∧ δ c = 1 := by
  have : Fact M.p.Prime := ⟨hp⟩
  exact forall₂_congr fun _ _ => forall₃_congr fun _ _ _ => forall_congr' fun _ => sameProducts_iff

theorem setWireMasksHelper_eq (circ : LevelOrderedCircuit (Field M)) (rgen : RandGenPool) :
    setWireMasksHelper nP ipm circ rgen =
      let k : Keys M := (keySetup nP 0 rgen).1
      let r := helperGates nP k.key k.keySh ipm circ (noQueues (keySetup (M := M) nP 0 rgen).2)
      ⟨k, r.1, r.2.rgen, r.2.queues, unread fun _ => [], unread fun _ => []⟩ := rfl

theorem setWireMasksParty_eq (circ : LevelOrderedCircuit (Field M)) (rgen : RandGenPool)
    (arith : QueueName → Queue (Field M)) (bool : QueueName → Queue BoolRing) :
    setWireMasksParty nP i ipm circ rgen arith bool =
      let k : Keys M := (keySetup nP i rgen).1
      let r := partyGates i k.key ipm circ ⟨(keySetup (M := M) nP i rgen).2, arith⟩
      ⟨k, r.1, r.2.rgen, fun _ _ => [], r.2.queues, bool⟩ := rfl

/-- The walks of the trusted party and of party `i`, which has received its vectors. -/
theorem walks_consistent_iff (hi : 1 ≤ i) (hn : i ≤ nP)
    (htypes : ∀ g ∈ circ.gates_, handles g.type) {prgs prgs' : StreamName → Prg}
    (hown : prgs (.pi i) = prgs' .p0) :
    let tp := setWireMasksHelper nP ipm circ.orderGatesByLevel (.seeded prgs)
    Consistent nP i ipm circ tp
      (setWireMasksParty nP i ipm circ.orderGatesByLevel (.seeded prgs') (unread (tp.sent i))
        (unread fun _ => [])) ↔ Mul3Same nP circ (prgs .self) := by
  intro tp
  have hkeys : KeysAgree nP i (keySetup (M := M) nP 0 (.seeded prgs)).1
      (keySetup (M := M) nP i (.seeded prgs')).1 :=
    keySetup_agree hi hn (congrArg (Stream.mk · []) hown)
  have hself : (keySetup (M := M) nP 0 (.seeded prgs)).2 .self = RandGenPool.seeded prgs .self :=
    keySetup_self (.seeded prgs)
  have htp : tp = setWireMasksHelper nP ipm circ.orderGatesByLevel (.seeded prgs) := rfl
  rw [setWireMasksHelper_eq] at htp
  rw [setWireMasksParty_eq]
  generalize keySetup (M := M) nP 0 (.seeded prgs) = kr at *
  generalize keySetup (M := M) nP i (.seeded prgs') = kr' at *
  obtain ⟨k, rgen⟩ := kr
  obtain ⟨⟨key', keySh', bkey', bkeySh'⟩, rgen'⟩ := kr'
  obtain ⟨ha, hb, rfl, rfl⟩ := hkeys
  clear_value tp
  subst htp
  dsimp only
  set helper := helperGates nP k.key k.keySh ipm circ.orderGatesByLevel (noQueues rgen) with hhelper
  have hwalk : (reading i (helper.2.queues i)).Coupled _ _ _ :=
    helperGates_coupled hi hn ha ipm circ htypes
  obtain ⟨hread, hgood⟩ := hwalk.sim (noQueues rgen) ⟨rgen', unread (helper.2.queues i)⟩
    (fun _ => rfl) fun _ => List.prefix_rfl
  have hmasks := helperGates_taped (hi.trans hn) ha ipm circ htypes (noQueues rgen)
  rw [show (noQueues (R := Field M) rgen).rgen .self = ⟨prgs .self, []⟩ from hself] at hmasks
  have hopens : (∀ g ∈ circ.gates_, Opens (fun w => (helper.1 w).secret) g.op (helper.1 g.out)) ↔
      Mul3Same nP circ (prgs .self) := by
    refine forall₂_congr fun g hg => (hgood g hg).stored.opens_iff.trans ?_
    refine forall₃_congr fun a b c => forall_congr' fun hop => ?_
    have hwire : ∀ w ∈ g.inputs, (helper.1 w).secret = drawnMasks nP circ (prgs .self) w := by
      intro w hw
      obtain ⟨g', hg', rfl⟩ := circ.exists_gate hg hw
      exact hmasks g' hg'
    rw [hwire a (by simp [Gate.inputs, hop, Op.inputs]), hwire b (by simp [Gate.inputs, hop, Op.inputs]),
      hwire c (by simp [Gate.inputs, hop, Op.inputs])]
  refine ⟨fun h => hopens.mp h.opens, fun h => ⟨⟨ha, hb, rfl, rfl⟩, fun g hg => (hgood g hg).agrees,
    fun g hg => (hgood g hg).dealt, hread, fun _ => rfl, hopens.mpr h⟩⟩

end Walks

/-! ## The run -/

section Run
variable {M : Modulus} {nP : ℕ} {ipm : ℕ → ℕ}

/-- What party `id` holds when `run` is over: a party has walked with the vectors the trusted party
has filled for it. -/
def outcome (nP : ℕ) (ipm : ℕ → ℕ) (circ : LevelOrderedCircuit (Field M)) (rgens : ℕ → RandGenPool)
    (id : ℕ) : Outcome M :=
  let tp := setWireMasksHelper nP ipm circ (rgens 0)
  if id = 0 then tp
  else setWireMasksParty nP id ipm circ (rgens id) (unread (tp.sent id)) (unread fun _ => [])

theorem does_sendQueues (p : ℕ) (arith : QueueName → Queue (Field M))
    (bool : QueueName → Queue BoolRing) :
    Does (sendQueues p arith bool) ((queueMessages rawBits arith bool).map (.out p)) () :=
  .send (.send (.send (.done ())))

theorem does_run {id : ℕ} (hid : id ≠ 0) (circ : LevelOrderedCircuit (Field M))
    (rgen : RandGenPool) (arith : QueueName → Queue (Field M)) (bool : QueueName → Queue BoolRing) :
    Does (OfflineEvaluator.run nP id ipm circ rgen) ((queueMessages rawBits arith bool).map (.inp 0))
      (setWireMasksParty nP id ipm circ rgen (rewound arith) (rewound bool)) := by
  rw [OfflineEvaluator.run, if_neg hid]
  exact does_recvQueues rawBits arith bool (setWireMasksParty nP id ipm circ rgen)

theorem run_completes (circ : LevelOrderedCircuit (Field M)) (rgens : ℕ → RandGenPool) :
    Completes (Finset.range (nP + 1)) (fun id => OfflineEvaluator.run nP id ipm circ (rgens id))
      (outcome nP ipm circ rgens) := by
  set tp := setWireMasksHelper nP ipm circ (rgens 0) with htp
  refine @completes_serve _ _ _ _ _ _ 0 (List.range' 1 nP)
    (fun p => queueMessages rawBits (unread (tp.sent p)) tp.bool) List.nodup_range' (fun j hj => ?_)
    (by simp) ?_ (fun j hj => ?_) fun i hi hne hnot => ?_
  · rw [List.mem_range'_1] at hj
    exact Finset.mem_range.mpr (by omega)
  · have hsends := Does.forM (f := fun p => sendQueues p (unread (tp.sent p)) tp.bool)
      (List.range' 1 nP) fun p _ => does_sendQueues p (unread (tp.sent p)) tp.bool
    have hrun := hsends.bind (f := fun _ => .done tp) (.done tp)
    rw [List.append_nil] at hrun
    exact hrun
  · rw [List.mem_range'_1] at hj
    have hj0 : j ≠ 0 := by omega
    refine ⟨hj0, ?_⟩
    rw [outcome, if_neg hj0]
    exact does_run hj0 circ (rgens j) (unread (tp.sent j)) tp.bool
  · rw [Finset.mem_range] at hi
    rw [List.mem_range'_1] at hnot
    omega

theorem outcome_consistent_iff {circ : Circuit (Field M)} (htypes : ∀ g ∈ circ.gates_, handles g.type)
    {prgs : ℕ → StreamName → Prg} {i : ℕ} (hi : 1 ≤ i) (hn : i ≤ nP)
    (hown : prgs 0 (.pi i) = prgs i .p0) :
    Consistent nP i ipm circ
      (outcome nP ipm circ.orderGatesByLevel (fun id => .seeded (prgs id)) 0)
      (outcome nP ipm circ.orderGatesByLevel (fun id => .seeded (prgs id)) i) ↔
        Mul3Same nP circ (prgs 0 .self) := by
  have hi0 : i ≠ 0 := by omega
  rw [outcome, if_pos rfl, outcome, if_neg hi0]
  exact walks_consistent_iff hi hn htypes hown

/-- The offline phase ends under every schedule. What the parties then hold is consistent if and only
if every `kMul3` gate is on masks with the same products. -/
theorem assisted_offline_consistent_iff (nP : ℕ) (hnP : 1 ≤ nP) (circ : Circuit (Field M))
    (htypes : ∀ g ∈ circ.gates_, handles g.type) (ipm : ℕ → ℕ) (prgs : ℕ → StreamName → Prg)
    (hprgs : ∀ i, 1 ≤ i → i ≤ nP → prgs 0 (.pi i) = prgs i .p0) :
    ∃ r, Converges (Finset.range (nP + 1))
        (fun id => OfflineEvaluator.run nP id ipm circ.orderGatesByLevel (.seeded (prgs id))) r ∧
      ((∀ i, 1 ≤ i → i ≤ nP → Consistent nP i ipm circ (r 0) (r i)) ↔
        Mul3Same nP circ (prgs 0 .self)) := by
  refine ⟨_, (run_completes circ.orderGatesByLevel fun id => .seeded (prgs id)).converges, ?_⟩
  constructor
  · intro h
    exact (outcome_consistent_iff htypes le_rfl hnP (hprgs 1 le_rfl hnP)).mp (h 1 le_rfl hnP)
  · intro h i hi hn
    exact (outcome_consistent_iff htypes hi hn (hprgs i hi hn)).mpr h

end Run

def mul3Circuit : Circuit (Field testModulus) := Circuit.built do
  let w0 ← Circuit.newInputWire
  let w1 ← Circuit.newInputWire
  let w2 ← Circuit.newInputWire
  let w3 ← Circuit.addGate3 .kMul3 w0 w1 w2
  Circuit.setAsOutput w3

/-- Two parties that deal the inputs by turns. -/
theorem assisted_offline_two_parties :
    ∃ r, Converges (Finset.range 3)
        (fun id => OfflineEvaluator.run 2 id (fun w => w % 2 + 1) mul3Circuit.orderGatesByLevel
          (.seeded fun _ _ _ => 7)) r ∧
      ((∀ i, 1 ≤ i → i ≤ 2 →
          Consistent 2 i (fun w => w % 2 + 1) mul3Circuit (r 0) (r i)) ↔
        Mul3Same 2 mul3Circuit fun _ _ => 7) :=
  assisted_offline_consistent_iff 2 (by decide) mul3Circuit (by decide) (fun w => w % 2 + 1)
    (fun _ _ _ _ => 7) fun _ _ _ => rfl

def twos : Prg := fun _ k => if k = 0 then 2 else 0

theorem drawnMasks_twos : drawnMasks 1 mul3Circuit twos 0 = 2 ∧
    drawnMasks 1 mul3Circuit twos 1 = 2 ∧ drawnMasks 1 mul3Circuit twos 2 = 2 := by
  refine ⟨rfl, rfl, rfl⟩

/-- With the masks 2, 2 and 2 the last sharing of the `kMul3` gate opens to 4 and not to 8. -/
theorem assisted_offline_breaks :
    ∃ r, Converges (Finset.range 2)
        (fun id => OfflineEvaluator.run 1 id (fun _ => 1) mul3Circuit.orderGatesByLevel
          (.seeded fun _ => twos)) r ∧
      ¬ Consistent 1 1 (fun _ => 1) mul3Circuit (r 0) (r 1) := by
  refine ⟨_, (run_completes mul3Circuit.orderGatesByLevel fun _ => .seeded fun _ => twos).converges,
    fun h => ?_⟩
  have hmem : (⟨.kMul3 0 1 2, 3⟩ : Gate (Field testModulus)) ∈ mul3Circuit.gates_ :=
    List.mem_of_getElem? (i := 3) rfl
  have hiff : Consistent 1 1 (fun _ => 1) mul3Circuit _ _ ↔ Mul3Same 1 mul3Circuit twos :=
    @outcome_consistent_iff testModulus 1 (fun _ => 1) mul3Circuit (by decide) (fun _ _ => twos) 1
      le_rfl le_rfl rfl
  obtain ⟨-, -, habc⟩ := hiff.mp h _ hmem 0 1 2 rfl
  obtain ⟨h0, h1, h2⟩ := drawnMasks_twos
  rw [h0, h1, h2] at habc
  exact absurd habc (by decide)

end QSync.AssistedMPC
