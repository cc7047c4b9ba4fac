import QSync.Asterisk.OfflineRun
import QSync.Asterisk.OnlineRun

/-! # What a party sees of the inputs of others

`RandGenPool` seeds all streams of all parties with the same block, so a party can walk through the
offline phase in place of a dealer: it finds the mask of each input and takes it off the broadcast
value. No input is hidden from any party (`inputs_not_hidden`).
-/

namespace QSync
open Network Batching
set_option autoImplicit false
set_option maxHeartbeats 250000

section Privacy
variable {M : Modulus}

/-! ## Views -/

/-- What a party has seen when `setInputs` is over: its id, its seed and its streams as constructed,
its keys and shares, and the masked inputs. -/
structure InputView (M : Modulus) where
  id : ℕ
  seed : ℕ
  rgen_ : RandGenPool
  offline : OfflineResult M
  wires_ : ℕ → Field M

/-- `OfflineEvaluator::run` and then `OnlineEvaluator::setInputs`, with the pools that the constructors
make: `seed` is passed on as the number of parties of the pool. -/
def inputPhase (blockPrg : ℕ → Prg) (seed nP id : ℕ) (input_pid_map : ℕ → ℕ)
    (circ : LevelOrderedCircuit (Field M)) (inputs : InputMap (Field M)) : Proc ℕ (InputView M) :=
  if id = 0 ∧ seed < nP then .stuck
  else do
    let rgen := RandGenPool.constructed blockPrg
    let (r, _) ← OfflineEvaluator.run nP id input_pid_map circ rgen
    let s ← setInputs nP id ⟨rgen, rgen, r.gates, inputs⟩ circ .init
    pure ⟨id, seed, rgen, r, s.wires_⟩

/-- Every dealer has its inputs. -/
def DealersHave (ipm : ℕ → ℕ) (circ : Circuit (Field M)) (inputs : ℕ → InputMap (Field M)) : Prop :=
  ∀ g ∈ circ.gates_, g.type = .kInp → g.out ∈ (inputs (ipm g.out)).keys

/-- The input on wire `w` is hidden from party `i` when no function of its view returns it on every
run in which it is `x` or `x'`, whatever is in the streams and whatever the other inputs are. -/
def InputHidden (seed nP : ℕ) (ipm : ℕ → ℕ) (circ : Circuit (Field M)) (i w : ℕ) (x x' : Field M) :
    Prop :=
  ∀ F : InputView M → Field M, ∃ blockPrg inputs r, DealersHave ipm circ inputs ∧
    ((inputs (ipm w)).val w = x ∨ (inputs (ipm w)).val w = x') ∧
    Converges (Finset.range (nP + 1)) (fun id => inputPhase blockPrg seed nP id ipm
      circ.orderGatesByLevel (inputs id)) r ∧
    F (r i) ≠ (inputs (ipm w)).val w

/-! ## The preprocessing of the inputs -/

section Inputs
variable {nP id : ℕ} {k : Keys M} {ipm : ℕ → ℕ}

variable (nP id k ipm) in
theorem offlineGate_stores (c : FieldGates M) (g : Gate (Field M)) :
    ∃ (α : Type) (m : Offline M α) (store : α → Option (PreprocGate (Field M) (ComparisonGate M))),
      offlineGate nP id k ipm c g = m >>= fun a => pure (setGate c g.out (store a)) := by
  cases hs : g.type.special with
  | false => exact ⟨_, _, fun p => p, offlineGate_of_arithmetic hs⟩
  | true =>
    obtain ⟨op, out⟩ := g
    cases op with
    | kInp =>
      exact ⟨_, .arith (randomShareWithParty nP id (ipm out) k.key k.keySh),
        fun p => some ⟨p.1, .input (ipm out) p.2⟩, rfl⟩
    | kEqz a => exact ⟨_, eqzGate nP id k c a, some, rfl⟩
    | kLtz a => exact ⟨_, ltzGate nP id k c a, some, rfl⟩
    | _ => cases hs

theorem offlineGate_of_ne (c : FieldGates M) (g : Gate (Field M)) (s : OfflineState M) {w : ℕ}
    (h : w ≠ g.out) : (offlineGate nP id k ipm c g s).1 w = c w := by
  obtain ⟨α, m, store, hm⟩ := offlineGate_stores nP id k ipm c g
  rw [hm]
  change setGate c g.out (store (m s).1) w = c w
  obtain _ | p := store (m s).1
  · rfl
  · exact Function.update_of_ne h _ _

theorem offlineGate_input (c : FieldGates M) {g : Gate (Field M)} (ht : g.type = .kInp)
    (s : OfflineState M) :
    (inputOf ((offlineGate nP id k ipm c g s).1 g.out).ext).1 = ipm g.out := by
  obtain ⟨op, out⟩ := g
  obtain rfl := Op.eq_kInp ht
  change (inputOf (Function.update c out _ out).ext).1 = _
  rw [Function.update_self]
  rfl

theorem setWireMasksParty_input {circ : Circuit (Field M)} {g : Gate (Field M)} (hg : g ∈ circ.gates_)
    (ht : g.type = .kInp) (s : OfflineState M) :
    (inputOf ((setWireMasksParty nP id ipm circ.orderGatesByLevel s).1.gates g.out).ext).1 =
      ipm g.out := by
  have hloop : ∀ k s, (inputOf (((circ.orderGatesByLevel.gates_by_level.flatten.foldlM
      (offlineGate nP id k ipm) fun _ => default) s).1 g.out).ext).1 = ipm g.out := by
    intro k s
    rw [StateM.foldlM_apply]
    refine foldl_of_mem (P := fun p : FieldGates M × _ => (inputOf (p.1 g.out).ext).1 = ipm g.out)
      (fun p x hx hp => ?_) ((circ.mem_levels g).mpr hg) (fun p => offlineGate_input p.1 ht p.2) _
    by_cases hxg : g.out = x.out
    · have : g = x := circ.out_injective hg ((circ.mem_levels x).mp hx) hxg
      subst this
      exact offlineGate_input p.1 ht p.2
    · rw [offlineGate_of_ne p.1 x p.2 hxg]
      exact hp
  simp only [setWireMasksParty, foldlM_flatten]
  exact hloop _ _

end Inputs

/-! ## Runs -/

section Run
variable {blockPrg : ℕ → Prg} {seed nP : ℕ} {ipm : ℕ → ℕ} {circ : Circuit (Field M)}
  {inputs : ℕ → InputMap (Field M)}

/-- What the offline phase leaves in party `id` when all streams are those of `rgen`. -/
def offlineOf (nP : ℕ) (ipm : ℕ → ℕ) (circ : LevelOrderedCircuit (Field M)) (rgen : RandGenPool)
    (id : ℕ) : OfflineResult M :=
  (offlineResult nP ipm circ (fun _ => rgen) id).1

def inputData (blockPrg : ℕ → Prg) (nP : ℕ) (ipm : ℕ → ℕ) (circ : LevelOrderedCircuit (Field M))
    (inputs : ℕ → InputMap (Field M)) (id : ℕ) : PartyData M :=
  let rgen := RandGenPool.constructed blockPrg
  ⟨rgen, rgen, (offlineOf nP ipm circ rgen id).gates, inputs id⟩

variable (blockPrg) in
theorem inputPhase_completes (hnP : 1 ≤ nP) (hseed : nP ≤ seed)
    (hipm : ∀ g ∈ circ.gates_, g.type = .kInp → 1 ≤ ipm g.out ∧ ipm g.out ≤ nP)
    (hinputs : DealersHave ipm circ inputs) : Completes (Finset.range (nP + 1))
      (fun id => inputPhase blockPrg seed nP id ipm circ.orderGatesByLevel (inputs id))
      fun id => ⟨id, seed, .constructed blockPrg,
        offlineOf nP ipm circ.orderGatesByLevel (.constructed blockPrg) id,
        (afterInputs ipm (inputData blockPrg nP ipm circ.orderGatesByLevel inputs)
          circ.orderGatesByLevel (fun _ => .init) id).wires_⟩ := by
  set d := inputData blockPrg nP ipm circ.orderGatesByLevel inputs with hd
  have hdealt : InputsDealt nP ipm d circ := by
    refine ⟨fun g hg ht i _ => ?_, fun g hg ht =>
      ⟨mem_parties.mpr (hipm g hg ht), hinputs g hg ht⟩⟩
    have hwalk : ∃ s, offlineResult nP ipm circ.orderGatesByLevel (fun _ => .constructed blockPrg) i =
        setWireMasksParty nP i ipm circ.orderGatesByLevel s := by
      unfold offlineResult
      split
      · exact ⟨_, rfl⟩
      · exact ⟨_, rfl⟩
    obtain ⟨s, hs⟩ := hwalk
    rw [hd, inputData, offlineOf, hs]
    exact setWireMasksParty_input hg ht s
  let K := fun id (p : OfflineResult M × OfflineState M) => do
    let s ← setInputs nP id ⟨.constructed blockPrg, .constructed blockPrg, p.1.gates, inputs id⟩
      circ.orderGatesByLevel .init
    pure (⟨id, seed, .constructed blockPrg, p.1, s.wires_⟩ : InputView M)
  have honline : Completes (Finset.range (nP + 1)) (fun id => K id (offlineResult nP ipm
      circ.orderGatesByLevel (fun _ => .constructed blockPrg) id)) _ :=
    (setInputs_completes hdealt fun _ => .init).map fun id s =>
      (⟨id, seed, .constructed blockPrg,
        offlineOf nP ipm circ.orderGatesByLevel (.constructed blockPrg) id, s.wires_⟩ : InputView M)
  refine ((offline_completes hnP _).bind honline).congr (fun id _ => ?_) fun _ _ => rfl
  exact if_neg fun h => absurd h.2 (Nat.not_lt.mpr hseed)

/-- Walk through the offline phase in place of the dealer, and take the mask off the input. -/
def unmask (nP : ℕ) (ipm : ℕ → ℕ) (circ : LevelOrderedCircuit (Field M)) (w : ℕ) (v : InputView M) :
    Field M :=
  v.wires_ w - (inputOf ((offlineOf nP ipm circ v.rgen_ (ipm w)).gates w).ext).2

theorem unmask_eq (hipm : ∀ g ∈ circ.gates_, g.type = .kInp → 1 ≤ ipm g.out ∧ ipm g.out ≤ nP)
    {g : Gate (Field M)} (hg : g ∈ circ.gates_) (ht : g.type = .kInp) {i : ℕ} (hi : 1 ≤ i)
    (hn : i ≤ nP) (hinputs : DealersHave ipm circ inputs) {r : ℕ → InputView M}
    (hr : Converges (Finset.range (nP + 1))
      (fun id => inputPhase blockPrg seed nP id ipm circ.orderGatesByLevel (inputs id)) r) :
    unmask nP ipm circ.orderGatesByLevel g.out (r i) = (inputs (ipm g.out)).val g.out := by
  have hseed : nP ≤ seed := by
    by_contra hlt
    have hret := hr.returns (show 0 ∈ Finset.range (nP + 1) by simp)
    rw [inputPhase, if_pos ⟨rfl, Nat.lt_of_not_le hlt⟩] at hret
    exact hret trivial
  have hrun := (inputPhase_completes blockPrg (hi.trans hn) hseed hipm hinputs).converges
  have hwires : (r i).wires_ g.out =
      dealtValue ipm (inputData blockPrg nP ipm circ.orderGatesByLevel inputs) g.out := by
    rw [hr.unique hrun (mem_range_of_parties (mem_parties.mpr ⟨hi, hn⟩))]
    exact afterInputs_wires hg ht _ (by omega)
  have hrgen : (r i).rgen_ = .constructed blockPrg := by
    rw [hr.unique hrun (mem_range_of_parties (mem_parties.mpr ⟨hi, hn⟩))]
  rw [unmask, hwires, hrgen]
  exact add_sub_cancel_left _ _

end Run

/-- No input is hidden from any party, whoever deals it. There are runs with all inputs, as long as
the pool has a stream for every party. -/
theorem inputs_not_hidden (M : Modulus) (seed nP : ℕ) (circ : Circuit (Field M)) (ipm : ℕ → ℕ)
    (hipm : ∀ g ∈ circ.gates_, g.type = .kInp → 1 ≤ ipm g.out ∧ ipm g.out ≤ nP) (i : ℕ) (hi : 1 ≤ i)
    (hn : i ≤ nP) (g : Gate (Field M)) (hg : g ∈ circ.gates_) (ht : g.type = .kInp)
    (x x' : Field M) : ¬ InputHidden seed nP ipm circ i g.out x x' ∧
      (nP ≤ seed → ∀ blockPrg inputs, DealersHave ipm circ inputs →
        ∃ r, Converges (Finset.range (nP + 1)) (fun id => inputPhase blockPrg seed nP id ipm
          circ.orderGatesByLevel (inputs id)) r) := by
  refine ⟨fun h => ?_, fun hseed blockPrg inputs hinputs =>
    ⟨_, (inputPhase_completes blockPrg (hi.trans hn) hseed hipm hinputs).converges⟩⟩
  obtain ⟨blockPrg, inputs, r, hinputs, -, hr, hne⟩ := h (unmask nP ipm circ.orderGatesByLevel g.out)
  exact hne (unmask_eq hipm hg ht hi hn hinputs hr)

theorem twoInputs_snd : (⟨.kInp, 1⟩ : Gate (Field testModulus)) ∈ twoInputs.gates_ := by
  have hgates : twoInputs.gates_ = [⟨.kInp, 0⟩, ⟨.kInp, 1⟩, ⟨.kMul 0 1, 2⟩] := rfl
  rw [hgates]
  simp

theorem inputs_not_hidden_two : ¬ InputHidden 200 2 (fun w => w + 1) twoInputs 1 1 0 1 ∧
    (2 ≤ 200 → ∀ blockPrg inputs, DealersHave (fun w => w + 1) twoInputs inputs →
      ∃ r, Converges (Finset.range 3) (fun id => inputPhase blockPrg 200 2 id (fun w => w + 1)
        twoInputs.orderGatesByLevel (inputs id)) r) :=
  inputs_not_hidden testModulus 200 2 twoInputs (fun w => w + 1) (by decide) 1 le_rfl (by decide)
    ⟨.kInp, 1⟩ twoInputs_snd rfl 0 1

/-- Party 1 tells the inputs 0 and 1 of party 2 apart. -/
theorem input_of_party_two_seen : ¬ InputHidden 200 2 (fun w => w + 1) twoInputs 1 1 0 1 := by
  intro h
  obtain ⟨blockPrg, inputs, r, hinputs, -, hr, hne⟩ :=
    h (unmask 2 (fun w => w + 1) twoInputs.orderGatesByLevel 1)
  exact hne (unmask_eq (by decide) twoInputs_snd rfl le_rfl (by decide) hinputs hr)

end Privacy

end QSync
