import QSync.Asterisk.InputPrivacy
import QSync.Asterisk.Mpc
import QSync.Io.ClusterPrograms

/-! # The protocol over the bus

Both phases of the protocol, with every `send` and `recv` of `NetIOMP` going through the buses of the
parties, on a broadcast medium that loses, repeats and reorders datagrams. Whatever the medium does, a
party that has returned has passed the MAC check, and all have the same outputs
(`mpc_agrees_over_bus`): on arithmetic circuits those of plaintext evaluation
(`mpc_plaintext_over_bus`).
-/

namespace QSync
open Network Io
set_option autoImplicit false
set_option maxHeartbeats 250000

/-! ## Whom the parties talk to -/

/-- The trusted party and the parties, without `id`. -/
abbrev OtherParty (nP id q : ℕ) : Prop := q ≤ nP ∧ q ≠ id

section Talks
variable {M : Modulus} {nP id : ℕ}

theorem otherParty_of_parties {j : ℕ} (hj : j ∈ parties nP) (hne : j ≠ id) : OtherParty nP id j :=
  ⟨(mem_parties.mp hj).2, hne⟩

theorem openShares_calls {R : Type} [CommRing R] (codec : Codec R) (online_comm : List R) :
    (openShares codec nP id online_comm).Calls (OtherParty nP id) := by
  refine (calls_exchange _ _ _ _ fun j => otherParty_of_parties).bind fun shares => ?_
  exact (calls_exchange _ _ _ _ fun j => otherParty_of_parties).bind fun _ => Proc.calls_pure _

theorem boolLevel_calls (m : ℕ) (vpreproc : ℕ → BoolGates) (level : List (Gate BoolRing))
    (s : BoolEval) :
    (BoolEval.evaluateGatesAtDepth nP id m vpreproc level s).Calls (OtherParty nP id) := by
  unfold BoolEval.evaluateGatesAtDepth
  split
  · exact Proc.calls_pure s
  · exact (openShares_calls bitCodec _).bind fun _ => Proc.calls_pure _

theorem comparison_calls {V : Type} [Zero V] (K : Comparison M V) (d : PartyData M)
    (gates : List FIn1Gate) (wires_ : ℕ → Field M) :
    (K.evaluateAny nP id d gates wires_).Calls (OtherParty nP id) := by
  unfold Comparison.evaluateAny
  split
  · exact (Proc.Calls.foldlM (fun s level _ => boolLevel_calls _ _ level s) _).bind fun _ =>
      Proc.calls_pure _
  · exact Proc.calls_pure []

theorem onlineLevel_calls (d : PartyData M) (err : ℕ → Field M) (level : List (Gate (Field M)))
    (s : OnlineState M) :
    (QSync.evaluateGatesAtDepth nP id d err level s).Calls (OtherParty nP id) := by
  refine (comparison_calls eqzComparison d _ _).bind fun eqz => ?_
  refine (comparison_calls ltzComparison d _ _).bind fun ltz => ?_
  split
  · exact Proc.calls_pure s
  · exact (openShares_calls (fieldCodec M) _).bind fun _ => Proc.calls_pure _

theorem recvField_calls {src : ℕ} (h : OtherParty nP id src) :
    (recvField M src).Calls (OtherParty nP id) :=
  (Proc.calls_recvFrom _ h).bind fun _ => Proc.calls_pure _

/-- The dealer of an input wire, as preprocessing has noted it, is the one that is waited for. -/
theorem setInput_calls {d : PartyData M} {g : Gate (Field M)}
    (hpid : g.type = .kInp → (inputOf (d.preproc_ g.out).ext).1 ≤ nP) (s : OnlineState M) :
    (setInput nP id d s g).Calls (OtherParty nP id) := by
  unfold setInput
  by_cases ht : g.type = .kInp ∧ id ≠ 0
  · rw [if_pos ht]
    have hle := hpid ht.1
    generalize inputOf (d.preproc_ g.out).ext = dealt at hle ⊢
    obtain ⟨pid, mask_value⟩ := dealt
    dsimp only at hle ⊢
    by_cases hown : pid = id
    · rw [if_pos hown]
      split
      · refine Proc.Calls.bind (.forM fun j hj => ?_) fun _ => Proc.calls_pure _
        split
        · exact Proc.calls_pure ()
        · exact Proc.calls_sendTo _ (otherParty_of_parties hj (hown ▸ ‹_›))
      · exact trivial
    · rw [if_neg hown]
      exact (recvField_calls ⟨hle, hown⟩).bind fun _ => Proc.calls_pure _
  · rw [if_neg ht]
    exact Proc.calls_pure s

theorem MACVerification_calls (reseed : Bytes → Prg) (d : PartyData M)
    (circ : LevelOrderedCircuit (Field M)) (s : OnlineState M) :
    (MACVerification reseed nP id d circ s).Calls (OtherParty nP id) := by
  unfold MACVerification
  by_cases hid : id = 0
  · rw [if_pos hid]
    have hother : ∀ j ∈ parties nP, OtherParty nP id j := fun j hj =>
      otherParty_of_parties hj (hid ▸ ne_zero_of_parties hj)
    refine Proc.Calls.bind (.forM fun j hj => Proc.calls_sendTo _ (hother j hj)) fun _ => ?_
    refine Proc.Calls.bind (.mapM fun j hj => recvField_calls (hother j hj)) fun omegas => ?_
    exact Proc.Calls.bind (.forM fun j hj => Proc.calls_sendTo _ (hother j hj)) fun _ =>
      Proc.calls_pure _
  · rw [if_neg hid]
    have hzero : OtherParty nP id 0 := ⟨Nat.zero_le nP, Ne.symm hid⟩
    refine (Proc.calls_recvFrom _ hzero).bind fun cc_key => ?_
    refine Proc.Calls.bind ?_ fun key => (Proc.calls_sendTo _ hzero).bind fun _ => recvField_calls hzero
    unfold keyShare
    split
    · exact trivial
    · exact Proc.calls_pure _

theorem getOutputs_calls (d : PartyData M) (circ : LevelOrderedCircuit (Field M)) (s : OnlineState M) :
    (getOutputs nP id d circ s).Calls (OtherParty nP id) := by
  unfold getOutputs
  split
  · exact Proc.calls_pure []
  · by_cases hid : id = 0
    · rw [if_pos hid]
      refine Proc.Calls.bind (.forM fun j hj => ?_) fun _ => Proc.calls_pure _
      exact Proc.calls_sendTo _ (otherParty_of_parties hj (hid ▸ ne_zero_of_parties hj))
    · rw [if_neg hid]
      refine Proc.Calls.bind (.map _ (Proc.calls_recvFrom _ ⟨Nat.zero_le nP, Ne.symm hid⟩)) fun _ => ?_
      exact Proc.calls_pure _

theorem evaluateCircuit_calls (reseed : Bytes → Prg) {d : PartyData M} (err : ℕ → Field M)
    {circ : LevelOrderedCircuit (Field M)}
    (hpid : ∀ g ∈ circ.gates_by_level.getD 0 [], g.type = .kInp →
      (inputOf (d.preproc_ g.out).ext).1 ≤ nP) :
    (evaluateCircuit reseed nP id d err circ).Calls (OtherParty nP id) := by
  refine Proc.Calls.bind (.foldlM (fun s g hg => setInput_calls (hpid g hg) s) _) fun s => ?_
  refine Proc.Calls.bind (.foldlM (fun s level _ => onlineLevel_calls d err level s) _) fun s => ?_
  refine (MACVerification_calls reseed d circ s).bind fun res => ?_
  unfold finishCircuit
  split
  · exact (getOutputs_calls d circ s).bind fun _ => Proc.calls_pure _
  · exact Proc.calls_pure _

/-- What `setWireMasksParty` stores for an input is its dealer, whatever has been received. -/
theorem mpc_calls (reseed : Bytes → Prg) {ipm : ℕ → ℕ} {circ : Circuit (Field M)} (party : MpcParty M)
    (hnP : 1 ≤ nP) (hipm : ∀ g ∈ circ.gates_, g.type = .kInp → ipm g.out ≤ nP) :
    (mpc reseed nP id ipm circ.orderGatesByLevel party).Calls (OtherParty nP id) := by
  have honline : ∀ s, (evaluateCircuit reseed nP id ⟨.seeded party.onlinePrgs, .seeded party.boolPrgs,
      (setWireMasksParty nP id ipm circ.orderGatesByLevel s).1.gates, party.inputs⟩ (fun _ => 0)
      circ.orderGatesByLevel).Calls (OtherParty nP id) := by
    intro s
    refine evaluateCircuit_calls reseed _ fun g hg ht => ?_
    have hmem := circ.mem_of_mem_level_zero hg
    exact (setWireMasksParty_input hmem ht s).trans_le (hipm g hmem ht)
  have hrest : ∀ s, (do
      let p ← (pure (setWireMasksParty nP id ipm circ.orderGatesByLevel s) :
        Proc ℕ (OfflineResult M × OfflineState M))
      let online ← evaluateCircuit reseed nP id ⟨.seeded party.onlinePrgs, .seeded party.boolPrgs,
        p.1.gates, party.inputs⟩ (fun _ => 0) circ.orderGatesByLevel
      pure (⟨p.1, online⟩ : MpcResult M)).Calls (OtherParty nP id) := fun s =>
    (honline s).bind fun _ => Proc.calls_pure _
  unfold mpc OfflineEvaluator.run
  by_cases hlast : id = nP
  · have hzero : OtherParty nP id 0 := ⟨Nat.zero_le nP, by omega⟩
    rw [if_neg (not_not.mpr hlast)]
    simp only [bind_assoc]
    refine Proc.Calls.bind (.map _ (Proc.calls_recvFrom _ hzero)) fun lengths => ?_
    refine Proc.Calls.bind (.map _ (Proc.calls_recvFrom _ hzero)) fun arith_comm => ?_
    exact Proc.Calls.bind (.map _ (Proc.calls_recvFrom _ hzero)) fun bool_comm => hrest _
  · rw [if_pos hlast]
    dsimp only
    split
    · simp only [bind_assoc]
      have hlast' : OtherParty nP id nP := ⟨le_rfl, Ne.symm hlast⟩
      refine (Proc.calls_sendTo _ hlast').bind fun _ => ?_
      refine (Proc.calls_sendTo _ hlast').bind fun _ => ?_
      exact (Proc.calls_sendTo _ hlast').bind fun _ => hrest _
    · exact hrest _

end Talks

/-! ## Runs over the bus -/

section OverBus
variable {M : Modulus} {Q : Parties} {nP : ℕ} {ipm : ℕ → ℕ} {circ : Circuit (Field M)}
  {party : ℕ → MpcParty M} {reseed : Bytes → Prg}

/-- The values of the output wires, from the inputs of the dealers. -/
def mpcOutputs (nP : ℕ) (ipm : ℕ → ℕ) (circ : Circuit (Field M)) (party : ℕ → MpcParty M) :
    List (Field M) :=
  circ.outputs_.map (onlineValues (inputsOf ipm fun i => (party i).inputs) (fun _ => 0)
    (mpcData nP ipm circ.orderGatesByLevel party 0).preproc_ circ)

/-- What a party has returned over channels, however far the others are. -/
theorem mpc_returned (hnP : 1 ≤ nP) (hgates : circ.gates_ ≠ [])
    (htypes : ∀ g ∈ circ.gates_, g.type.offline) (hstreams : StreamsShared nP circ party)
    (hdealers : DealersReady nP ipm circ fun i => (party i).inputs) {c : Net ℕ (MpcResult M)}
    (hc : Reaches (start (Finset.range (nP + 1)) fun id =>
      mpc reseed nP id ipm circ.orderGatesByLevel (party id)) c)
    {i : ℕ} (hi : i ≤ nP) {r : MpcResult M} (hr : c.procs i = .done r) :
    r.online.res = 0 ∧ (i ≠ 0 → r.online.outvals = mpcOutputs nP ipm circ party) := by
  obtain ⟨keySh, bkeySh, hpre⟩ := mpc_preproc hnP htypes hstreams ipm
  have hres := onlineResult_honest reseed hnP hpre htypes hdealers hgates
  have hconv : Converges (Finset.range (nP + 1))
      (fun id => mpc reseed nP id ipm circ.orderGatesByLevel (party id)) _ :=
    (mpc_completes hnP htypes hgates hstreams hdealers).converges
  have hlt : i < nP + 1 := Nat.lt_succ_of_le hi
  obtain rfl := hconv.returned hc (Finset.mem_range.mpr hlt) hr
  refine ⟨hres i, fun h0 => ?_⟩
  exact onlineResult_outvals reseed hnP hpre htypes hdealers
    (parties_of_mem_range (Finset.mem_range.mpr hlt) h0) (hres i)

theorem mpcOutputs_arithmetic (htypes : ∀ g ∈ circ.gates_, g.type = .kInp ∨ g.type.arithmetic) :
    circ.evaluate (circ.assign (inputsOf ipm fun i => (party i).inputs)) =
      .ok (mpcOutputs nP ipm circ party) := by
  refine (circ.evaluate_eq _ fun g hg => ?_).trans (congrArg Except.ok ?_)
  · obtain h | h := htypes g hg
    · rw [h]
      decide
    · exact GateType.arithmetic_ne h
  · refine List.map_congr_left fun w hw => ?_
    exact (onlineValues_arithmetic _ _ htypes (circ.outputs_valid w hw)).symm

end OverBus

/-- Over the bus, whatever its medium loses, repeats or reorders: every party that has returned has
passed the MAC check, and all online parties, in all runs, return the same outputs; on an arithmetic
circuit these are the outputs of plaintext evaluation. -/
theorem mpc_over_bus (M : Modulus) (Q : Parties) (nP : ℕ) (hQ : Q.nP = nP + 1) (hnP : 1 ≤ nP)
    (circ : Circuit (Field M)) (hgates : circ.gates_ ≠ [])
    (htypes : ∀ g ∈ circ.gates_, g.type.offline) (ipm : ℕ → ℕ) (party : ℕ → MpcParty M)
    (reseed : Bytes → Prg) (hstreams : StreamsShared nP circ party)
    (hdealers : DealersReady nP ipm circ fun i => (party i).inputs) :
    ∃ outputs, (∀ addr (D : Cluster Q (MpcResult M)), D.Reached addr (fun id => mpc reseed nP id ipm
        circ.orderGatesByLevel (party id)) → D.Small → ∀ p r, (D.stations p).proc = .done r →
          r.online.res = 0 ∧ ((p : ℕ) ≠ 0 → r.online.outvals = outputs)) ∧
      ((∀ g ∈ circ.gates_, g.type = .kInp ∨ g.type.arithmetic) →
        circ.evaluate (circ.assign (inputsOf ipm fun i => (party i).inputs)) = .ok outputs) := by
  refine ⟨mpcOutputs nP ipm circ party, fun addr D h hsmall p r hr => ?_, mpcOutputs_arithmetic⟩
  have hpeers : ∀ q < Q.nP, (mpc reseed nP q ipm circ.orderGatesByLevel (party q)).Calls (Peer Q q) := by
    intro q _
    refine (mpc_calls reseed (party q) hnP fun g hg ht => ?_).mono fun j hj => ⟨?_, hj.2⟩
    · exact (mem_parties.mp (hdealers g hg ht).1).2
    · have hle := hj.1
      omega
  obtain ⟨c, hc, himp⟩ := h.implements hpeers hsmall
  rw [hQ] at hc
  have hp := p.isLt
  exact mpc_returned hnP hgates htypes hstreams hdealers hc (by omega) ((himp.procs p).trans hr)

theorem three_le_parties : 3 ≤ 256 := by decide

/-- The trusted party and two parties. -/
def parties3 : Parties := { parties2 with nP := 3, nP_le := three_le_parties }

/-- Two parties multiply 5 and 6 over the bus. -/
theorem mpc_over_bus_mul :
    ∃ outputs, (∀ addr (D : Cluster parties3 (MpcResult testModulus)), D.Reached addr (fun id =>
        mpc (fun _ _ _ => 7) 2 id (fun w => w + 1) twoInputs.orderGatesByLevel
          ⟨fun _ _ _ => 7, fun _ _ _ => 7, fun _ _ _ => 7, ⟨{0, 1}, fun w => w + 5⟩⟩) →
        D.Small → ∀ p r, (D.stations p).proc = .done r →
          r.online.res = 0 ∧ ((p : ℕ) ≠ 0 → r.online.outvals = outputs)) ∧
      twoInputs.evaluate (twoInputs.assign fun w => w + 5) = .ok outputs := by
  have hgates : twoInputs.gates_ = [⟨.kInp, 0⟩, ⟨.kInp, 1⟩, ⟨.kMul 0 1, 2⟩] := rfl
  obtain ⟨outputs, hruns, heval⟩ := mpc_over_bus testModulus parties3 2 rfl (by decide) twoInputs
    (by rw [hgates]; simp) (by decide) (fun w => w + 1)
    (fun _ => ⟨fun _ _ _ => 7, fun _ _ _ => 7, fun _ _ _ => 7, ⟨{0, 1}, fun w => w + 5⟩⟩)
    (fun _ _ _ => 7) ⟨fun _ _ => rfl, fun _ _ => rfl, fun _ _ _ => rfl⟩ (by
      intro g hg ht
      rw [hgates] at hg
      simp only [List.mem_cons, List.not_mem_nil, or_false] at hg
      obtain rfl | rfl | rfl := hg
      · exact ⟨by decide, by decide⟩
      · exact ⟨by decide, by decide⟩
      · cases ht)
  exact ⟨outputs, hruns, heval (by decide)⟩

end QSync
