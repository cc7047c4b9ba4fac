import QSync.Asterisk.OnlineRing
import QSync.Utils.DarkPoolSafety

/-! # Volume matching by the protocol

The circuit of `getVMCircuit` has arithmetic gates and comparisons with zero only (`getVMCircuit_emits`),
so that the protocol evaluates it in the ring of the online phase. There comparisons of numbers below half
the modulus are decided right, and the parties return the volumes (`vm_over_mpc`).
-/

namespace QSync
open Network Circuit
set_option autoImplicit false
set_option maxHeartbeats 250000

namespace DarkPool

/-! ## The gates of the circuit -/

section Gates
variable {R α : Type} {checked : Bool}

theorem read_emits {T : GateType → Prop} {v : Vec α} {i : ℕ} : Emits T (v.read i : Build R α) := by
  rw [Vec.read]
  split
  · exact .pure
  · exact .throw

theorem write_emits {T : GateType → Prop} {v : Vec α} {i : ℕ} {a : α} :
    Emits T (v.write i a : Build R (Vec α)) := by
  rw [Vec.write]
  split
  · exact .pure
  · exact .throw

theorem use_emits {T : GateType → Prop} {s : Wire} : Emits T (use checked s : Build R ℕ) := by
  cases s with
  | some w => exact .pure
  | none =>
    cases checked with
    | false => exact .pure
    | true => exact .throw

theorem wireAt_emits {T : GateType → Prop} {v : Vec Wire} {i : ℕ} :
    Emits T (wireAt checked v i : Build R ℕ) := read_emits.bind fun _ => use_emits

theorem unitAt_emits {T : GateType → Prop} {order : Vec Order} {i : ℕ} :
    Emits T (unitAt checked order i : Build R ℕ) := read_emits.bind fun _ => use_emits

theorem addGate2_emits {type : GateType} {a b : ℕ} :
    Emits (fun t => t.decided) (addGate2 type a b : Build R ℕ) := by
  unfold addGate2
  split <;> first | exact addOp_emits rfl | exact .throw

theorem addConstOpGate_emits {type : GateType} {a : ℕ} {cval : R} :
    Emits (fun t => t.decided) (addConstOpGate type a cval) := by
  unfold addConstOpGate
  split <;> first | exact addOp_emits rfl | exact .throw

theorem addLtz_emits {a : ℕ} : Emits (fun t => t.decided) (addGate1 .kLtz a : Build R ℕ) :=
  addOp_emits rfl

theorem newInputWire_emits : Emits (fun t => t.decided) (newInputWire : Build R ℕ) := addOp_emits rfl

theorem newOrder_emits : Emits (fun t => t.decided) (newOrder : Build R Order) :=
  newInputWire_emits.bind fun _ => newInputWire_emits.bind fun _ => newInputWire_emits.bind fun _ => .pure

theorem leftovers_emits {n t_wire : ℕ} {order : Vec Order} {temp L : Vec Wire} :
    Emits (fun t => t.decided) (leftovers checked n t_wire order temp L : Build R _) := by
  apply Emits.foldlM
  rintro ⟨temp, L⟩ i
  refine unitAt_emits.bind fun _ => wireAt_emits.bind fun _ => addGate2_emits.bind fun _ => ?_
  refine write_emits.bind fun _ => wireAt_emits.bind fun _ => addGate2_emits.bind fun _ => ?_
  exact write_emits.bind fun _ => .pure

theorem addUnits_emits {n wire : ℕ} {order : Vec Order} :
    Emits (fun t => t.decided) (addUnits checked n wire order : Build R ℕ) := by
  apply Emits.foldlM
  exact fun _ _ => unitAt_emits.bind fun _ => addGate2_emits

theorem tWire_emits {s_wire b_wire : ℕ} :
    Emits (fun t => t.decided) (tWire s_wire b_wire : Build R ℕ) :=
  addGate2_emits.bind fun _ => addLtz_emits.bind fun _ => addGate2_emits.bind fun _ =>
    addGate2_emits.bind fun _ => addGate2_emits

variable [CommRing R]

theorem clampOrder_emits {L : Vec Wire} {state : ClampVectors × Vec Order} {i : ℕ} :
    Emits (fun t => t.decided) (clampOrder (R := R) checked L state i) := by
  obtain ⟨v, order⟩ := state
  rw [clampOrder]
  dsimp only
  refine wireAt_emits.bind fun _ => addConstOpGate_emits.bind fun _ => write_emits.bind fun _ => ?_
  refine wireAt_emits.bind fun _ => unitAt_emits.bind fun _ => addGate2_emits.bind fun _ => ?_
  refine write_emits.bind fun _ => wireAt_emits.bind fun _ => addLtz_emits.bind fun _ => ?_
  refine write_emits.bind fun _ => wireAt_emits.bind fun _ => addLtz_emits.bind fun _ => ?_
  refine write_emits.bind fun _ => wireAt_emits.bind fun _ => wireAt_emits.bind fun _ => ?_
  refine addGate2_emits.bind fun _ => write_emits.bind fun _ => wireAt_emits.bind fun _ => ?_
  refine addConstOpGate_emits.bind fun _ => write_emits.bind fun _ => wireAt_emits.bind fun _ => ?_
  refine addConstOpGate_emits.bind fun _ => write_emits.bind fun _ => wireAt_emits.bind fun _ => ?_
  refine unitAt_emits.bind fun _ => addGate2_emits.bind fun _ => write_emits.bind fun _ => ?_
  refine wireAt_emits.bind fun _ => wireAt_emits.bind fun _ => addGate2_emits.bind fun _ => ?_
  refine read_emits.bind fun _ => write_emits.bind fun _ => unitAt_emits.bind fun _ => ?_
  exact setAsOutput_emits.bind fun _ => .pure

theorem clampOrders_emits {n n56 : ℕ} {L : Vec Wire} {order : Vec Order} :
    Emits (fun t => t.decided) (clampOrders (R := R) checked n n56 L order) :=
  (Emits.foldlM (fun _ _ => clampOrder_emits) _ _).bind fun _ => .pure

theorem getVMCircuit_emits {dp : DarkPool} :
    Emits (fun t => t.decided) (getVMCircuit (R := R) checked dp) := by
  rw [getVMCircuit]
  refine newOrder_emits.bind fun _ => unitAt_emits.bind fun _ => unitAt_emits.bind fun _ => ?_
  refine addGate2_emits.bind fun _ => unitAt_emits.bind fun _ => unitAt_emits.bind fun _ => ?_
  refine addGate2_emits.bind fun _ => addUnits_emits.bind fun _ => addUnits_emits.bind fun _ => ?_
  refine tWire_emits.bind fun _ => unitAt_emits.bind fun _ => addConstOpGate_emits.bind fun _ => ?_
  refine write_emits.bind fun _ => unitAt_emits.bind fun _ => addConstOpGate_emits.bind fun _ => ?_
  refine write_emits.bind fun _ => leftovers_emits.bind fun _ => leftovers_emits.bind fun _ => ?_
  exact clampOrders_emits.bind fun _ => clampOrders_emits.bind fun _ => .pure

end Gates

/-! ## The volumes -/

/-- The volumes of both sides, as field elements. -/
def volumes (M : Modulus) (dp : DarkPool) (x : ℕ) (us ub : ℕ → ℕ) : List (Field M) :=
  let t := max (∑ i ∈ Finset.range dp.s_list_.size, us i) (∑ i ∈ Finset.range dp.b_list_.size, ub i)
  ((List.range dp.s_list_.size).map fun i => ((volume x t us i : ℕ) : Field M)) ++
    (List.range dp.b_list_.size).map fun i => ((volume x t ub i : ℕ) : Field M)

theorem decided_of_dark {t : GateType} (ht : darkTypes t) (hne : t ≠ .kEqz) : t.decided := by
  obtain rfl | rfl | rfl | rfl | rfl | rfl | rfl | rfl := ht <;> first | rfl | exact absurd rfl hne

theorem getVMCircuit_decided {R : Type} [CommRing R] {dp dp' : DarkPool} {c c' : Circuit R}
    (hm : getVMCircuit false dp c = .ok (dp', c'))
    (hc : ∀ g ∈ c.gates_, darkTypes g.type ∧ g.type ≠ .kEqz) : ∀ g ∈ c'.gates_, g.type.decided := by
  intro g hg
  obtain hg | hg := getVMCircuit_emits c dp' c' hm g hg
  · exact decided_of_dark (hc g hg).1 (hc g hg).2
  · exact hg

/-- The circuit evaluated with the comparison of the online phase. -/
theorem getVMCircuit_online {M : Modulus} {dp dp' : DarkPool} {c c₃ c' : Circuit (Field M)}
    {new_order : Order} {f : ℕ → Field M} {B x : ℕ} {us ub : ℕ → ℕ}
    (h₃ : newOrder c = .ok (new_order, c₃)) (hm : getVMCircuit false dp c = .ok (dp', c'))
    (hN : 2 ≤ dp.s_list_.size) (hM : 2 ≤ dp.b_list_.size) (hc : ∀ g ∈ c.gates_, darkTypes g.type)
    (h : SmallUnits (R := OnlineField M) B dp c₃ f x us ub) :
    ∃ old, old.length = c.outputs_.length ∧
      c'.evaluateOnline (c'.assign f) = .ok (old ++ volumes M dp x us ub) := by
  have hm' : getVMCircuit (R := OnlineField M) false dp c = .ok (dp', c') := hm
  obtain ⟨dp₁, c₁, old, hm₁, heval, hold⟩ := getVMCircuit_volumes (R := OnlineField M) hc h₃ hN hM
    (getVMCircuit_ensures c dp' c' hm) h
  obtain ⟨-, rfl⟩ := Prod.mk.inj (Except.ok.inj (hm₁.symm.trans hm'))
  exact ⟨old, hold, heval⟩

end DarkPool

open DarkPool

/-- Volume matching by the protocol, for orders whose units have small totals on either side: under every
schedule the MAC check passes, and each party returns the volumes, after what it returns for earlier
outputs. -/
theorem vm_over_mpc (M : Modulus) (nP : ℕ) (hnP : 1 ≤ nP) (dp dp' : DarkPool)
    (c c₃ c' : Circuit (Field M)) (new_order : Order) (h₃ : newOrder c = .ok (new_order, c₃))
    (hm : getVMCircuit false dp c = .ok (dp', c')) (hN : 2 ≤ dp.s_list_.size)
    (hM : 2 ≤ dp.b_list_.size) (hc : ∀ g ∈ c.gates_, darkTypes g.type ∧ g.type ≠ .kEqz) (ipm : ℕ → ℕ)
    (party : ℕ → MpcParty M) (reseed : Bytes → Prg) (hstreams : StreamsShared nP c' party)
    (hdealers : DealersReady nP ipm c' fun i => (party i).inputs) (B x : ℕ) (us ub : ℕ → ℕ)
    (h : SmallUnits (R := OnlineField M) B dp c₃ (inputsOf ipm fun i => (party i).inputs) x us ub) :
    ∃ r, Converges (Finset.range (nP + 1))
        (fun id => mpc reseed nP id ipm c'.orderGatesByLevel (party id)) r ∧
      ∀ i ∈ parties nP, (r i).online.res = 0 ∧ ∃ old, old.length = c.outputs_.length ∧
        (r i).online.outvals = old ++ volumes M dp x us ub := by
  have htypes := getVMCircuit_decided hm hc
  obtain ⟨old, hold, heval⟩ := getVMCircuit_online h₃ hm hN hM (fun g hg => (hc g hg).1) h
  rw [evaluateOnline_eq htypes, Except.ok.injEq] at heval
  have hgates : c'.gates_ ≠ [] := by
    intro hnil
    -- there are at least four volumes, hence outputs, hence gates
    have hlen := congrArg List.length heval
    simp only [volumes, List.length_append, List.length_map, List.length_range] at hlen
    obtain ⟨w, hw⟩ := List.exists_mem_of_length_pos (show 0 < c'.outputs_.length by omega)
    have hlt := c'.outputs_valid w hw
    rw [hnil] at hlt
    exact Nat.not_lt_zero w hlt
  obtain ⟨r, hr, hout⟩ := mpc_returns_online hnP hgates htypes reseed hstreams hdealers
  exact ⟨r, hr, fun i hi => ⟨(hout i hi).1, old, hold, (hout i hi).2.trans heval⟩⟩

/-- All units are the input of party 1. -/
def unitParty : MpcParty testModulus :=
  ⟨fun _ _ _ => 7, fun _ _ _ => 7, fun _ _ _ => 7, ⟨{0, 1, 2}, fun _ => 5⟩⟩

/-- A new dark pool with two orders of five units on each side. -/
theorem vm_over_mpc_new : ∃ dp' c' r, getVMCircuit false (init 2 2).resizeList
      (empty : Circuit (Field testModulus)) = .ok (dp', c') ∧
    Converges (Finset.range 3) (fun id =>
      mpc (fun _ _ _ => 7) 2 id (fun _ => 1) c'.orderGatesByLevel unitParty) r ∧
    ∀ i ∈ parties 2, (r i).online.res = 0 ∧ (r i).online.outvals = [5, 5, 5, 5] := by
  obtain ⟨⟨dp', c'⟩, hm⟩ := getVMCircuit_new (R := Field testModulus) (N := 2) (M := 2)
    le_rfl le_rfl le_rfl
  have hbuilt : built (getVMCircuit false (init 2 2).resizeList) = c' := by
    unfold built
    rw [show (getVMCircuit false (init 2 2).resizeList).run empty = _ from hm]
  have hinputs : ∀ g ∈ (built (getVMCircuit (R := Field testModulus) false
      (init 2 2).resizeList)).gates_, g.type = .kInp → g.out ∈ ({0, 1, 2} : Finset ℕ) := by
    decide +kernel
  obtain ⟨new_order, c₃, h₃, h⟩ := smallUnits_new (R := OnlineField testModulus) (N := 2) (M := 2)
    (f := inputsOf (fun _ => 1) fun _ => unitParty.inputs) (x := 5)
    (signTest_online testModulus (B := 100) (by decide)) (by decide) rfl (by decide) (by decide)
    (by decide)
  obtain ⟨r, hr, hout⟩ := vm_over_mpc testModulus 2 (by decide) _ dp' empty c₃ c' new_order h₃ hm le_rfl
    le_rfl (fun g hg => (List.not_mem_nil hg).elim) (fun _ => 1) (fun _ => unitParty) (fun _ _ _ => 7)
    ⟨fun _ _ => rfl, fun _ _ => rfl, fun _ _ _ => rfl⟩
    (fun g hg ht => ⟨show 1 ∈ parties 2 by decide, hinputs g (hbuilt ▸ hg) ht⟩) 100 5 (fun _ => 5) (fun _ => 5) h
  refine ⟨dp', c', r, hm, hr, fun i hi => ⟨(hout i hi).1, ?_⟩⟩
  obtain ⟨old, hold, houtvals⟩ := (hout i hi).2
  rw [houtvals, List.length_eq_zero_iff.mp hold]
  decide +kernel

end QSync
