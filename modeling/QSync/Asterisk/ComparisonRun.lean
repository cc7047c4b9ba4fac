import QSync.Asterisk.BoolEvalCorrect
import QSync.Asterisk.ComparisonCircuits
import QSync.Asterisk.OnlineRun

/-! # All parties evaluate a batch of comparison gates

`Comparison.result_eq`: when the preprocessing of the gates is valid and the parties hold the masked
inputs, each of them gets, for every gate, the bit the comparison decides, masked with the output mask
of the gate's Boolean circuit, and its share of the value to be opened.
-/

namespace QSync
open Network Batching
set_option autoImplicit false
set_option maxHeartbeats 250000

/-! ## The inputs of the Boolean circuits -/

section Inputs
variable {c : Circuit BoolRing} {n : ℕ}

theorem foldl_inputGates (bit : ℕ → BoolRing) (n w : ℕ) (vwires : ℕ → BoolRing) :
    ((List.range n).map Circuit.inputGate).zipIdx.foldl (setBoolInput bit) vwires w =
      if w < n then bit w else vwires w := by
  induction n with
  | zero => rfl
  | succ n ih =>
    rw [List.range_succ, List.map_append, List.zipIdx_append, List.foldl_append]
    simp only [List.map_cons, List.map_nil, List.zipIdx_singleton, List.foldl_cons, List.foldl_nil,
      List.length_map, List.length_range, Nat.zero_add]
    have ht : (Circuit.inputGate n : Gate BoolRing).type = .kInp := rfl
    rw [setBoolInput, if_pos ht]
    by_cases h : w = n
    · subst h
      rw [if_pos (Nat.lt_succ_self w)]
      exact Function.update_self _ _ _
    · have hlt : w < n + 1 ↔ w < n := by omega
      simp only [hlt]
      exact (Function.update_of_ne h _ _).trans ih

theorem foldl_noInputs (bit : ℕ → BoolRing) (l : List (Gate BoolRing × ℕ)) (vwires : ℕ → BoolRing)
    (hl : ∀ x ∈ l, x.1.type ≠ .kInp) : l.foldl (setBoolInput bit) vwires = vwires := by
  induction l with
  | nil => rfl
  | cons x l ih =>
    rw [List.foldl_cons, setBoolInput, if_neg (hl x List.mem_cons_self)]
    exact ih fun y hy => hl y (List.mem_cons_of_mem _ hy)

theorem setBoolInputs_eq (hc : Circuit.InputsFirst n c) (bit : ℕ → BoolRing) {w : ℕ} (hw : w < n) :
    setBoolInputs c.orderGatesByLevel bit w = bit w := by
  obtain ⟨rest, hlevel, hrest⟩ := hc.level_zero
  have hskip : ∀ (k : ℕ), ∀ x ∈ rest.zipIdx k, x.1.type ≠ .kInp := fun k x hx =>
    hrest x.1 (List.fst_mem_of_mem_zipIdx hx)
  rw [setBoolInputs, c.level_zero, hlevel, List.zipIdx_append, List.foldl_append,
    foldl_noInputs bit _ _ (hskip _), foldl_inputGates, if_pos hw]

theorem InputsFirst_lt (hc : Circuit.InputsFirst n c) {g : Gate BoolRing} (hg : g ∈ c.gates_)
    (ht : g.type = .kInp) : g.out < n := by
  obtain ⟨rest, hgates, hrest⟩ := hc
  rw [hgates] at hg
  obtain h | h := List.mem_append.mp hg
  · obtain ⟨j, hj, rfl⟩ := List.mem_map.mp h
    exact List.mem_range.mp hj
  · exact absurd ht (hrest g h)

end Inputs

/-! ## A batch of gates -/

section Batch
variable {M : Modulus} {V : Type} [Zero V] {K : Comparison M V} {nP : ℕ} {d : ℕ → PartyData M}
  {wires_ : ℕ → ℕ → Field M} {gates : List FIn1Gate}

/-- The trusted party's gates `tp` of the Boolean circuit `c` of a comparison gate, with input `x`,
agree with what the parties have, and open to the masks of `r`, by which the parties' input is
masked. -/
structure ComparisonReady (nP : ℕ) (bf : ℕ → BoolRing) (c : Circuit BoolRing)
    (mask : Field M → ℕ → BoolRing) (d : ℕ → PartyData M) (wires_ : ℕ → ℕ → Field M) (g : FIn1Gate)
    (tp : BoolGates) (x r : Field M) : Prop where
  agrees : ∀ i ∈ parties nP, BoolAgrees nP bf i c tp (comparisonOf ((d i).preproc_ g.2).ext).gates
  opens : BoolOpens c (mask r) tp
  masked : ∀ i ∈ parties nP,
    wires_ i g.1 + (comparisonOf ((d i).preproc_ g.2).ext).padded_val = x + r

/-- The share of a party with the preprocessing `pre` when the masked output bit is `m_b`. -/
def Comparison.shareOf (K : Comparison M V) (pre : ComparisonGate M) (m_b : Field M) :
    ComparisonShare M :=
  ⟨K.combine pre.mask_w.sh pre.mask_b.sh m_b, m_b⟩

variable {c : Circuit BoolRing} {mask : Field M → ℕ → BoolRing} {wout : ℕ}
  {bit : Field M → BoolRing} {bf : ℕ → BoolRing} {tp : FIn1Gate → BoolGates} {x r : FIn1Gate → Field M}

theorem getD_mem {k : ℕ} (hk : k < gates.length) : gates.getD k default ∈ gates := by
  rw [List.getD_eq_getElem gates default hk]
  exact List.getElem_mem hk

theorem Comparison.boolEval_wires (hK : K.Decides c mask wout bit) (hnP : 1 ≤ nP)
    (hst : ∃ st, ∀ i ∈ parties nP, (d i).boolRgen .all_minus_0 = st)
    (hready : ∀ g ∈ gates, ComparisonReady nP bf c mask d wires_ g (tp g) (x g) (r g)) {i : ℕ}
    (hi : i ∈ parties nP) {k : ℕ} (hk : k < gates.length) :
    (boolAfterLevels nP gates.length (fun i k => (comparisonPre (d i) gates k).gates) K.circ
        (fun i => K.start i (d i) gates (wires_ i)) i).vwires k wout =
      c.value (fun j => K.bits (K.value (x (gates.getD k default) + r (gates.getD k default))) j +
        mask (r (gates.getD k default)) j) wout + (tp (gates.getD k default) wout).secret := by
  let gate : ℕ → FIn1Gate := fun k => gates.getD k default
  have hg : ∀ k < gates.length, ComparisonReady nP bf c mask d wires_ (gate k) (tp (gate k))
      (x (gate k)) (r (gate k)) := fun k hk => hready _ (getD_mem hk)
  obtain ⟨n, hn⟩ := hK.inputs_first
  have hpre : ∀ k < gates.length, BoolPreproc nP bf c (tp (gate k)) fun i =>
      (comparisonPre (d i) gates k).gates := fun k hk =>
    ⟨fun i hi hin => (hg k hk).agrees i (mem_parties.mpr ⟨hi, hin⟩),
      fun g hgc => ((hg k hk).opens g hgc).1⟩
  let inputs : ℕ → ℕ → BoolRing := fun k j =>
    K.bits (K.value (x (gate k) + r (gate k))) j + mask (r (gate k)) j
  have hstart : BoolMasked nP gates.length c (fun k => tp (gate k)) inputs ∅
      fun i => K.start i (d i) gates (wires_ i) := by
    obtain ⟨st, hst⟩ := hst
    refine ⟨⟨st, hst⟩, fun i hi k hk w hw => ?_⟩
    rw [Set.empty_union] at hw
    obtain ⟨g, hgc, ht, rfl⟩ := hw
    have hvals : K.vals i (d i) gates (wires_ i) k = K.value (x (gate k) + r (gate k)) := by
      rw [← (hg k hk).masked i hi]
      exact if_pos (ne_zero_of_parties hi)
    rw [maskedValue, c.value_eq _ hgc, Gate.value_of_kInp ht, ((hg k hk).opens g hgc).2 ht]
    change setBoolInputs K.circ (K.bits (K.vals i (d i) gates (wires_ i) k)) g.out = _
    rw [hvals, hK.circ_eq, setBoolInputs_eq hn _ (InputsFirst_lt hn hgc ht), add_assoc,
      BoolRing.add_self, add_zero]
  have hend := boolAfterLevels_masked hnP hpre hK.types hstart
  have hmem : wout ∈ outs c.gates_ := by
    rw [c.mem_outs_iff]
    exact c.outputs_valid wout (by rw [hK.outputs_eq]; exact List.mem_singleton.mpr rfl)
  rw [hK.circ_eq]
  exact hend.wires i hi k hk wout (.inl hmem)

theorem Comparison.result_eq (hK : K.Decides c mask wout bit) (hnP : 1 ≤ nP)
    (hst : ∃ st, ∀ i ∈ parties nP, (d i).boolRgen .all_minus_0 = st)
    (hready : ∀ g ∈ gates, ComparisonReady nP bf c mask d wires_ g (tp g) (x g) (r g)) {i : ℕ}
    (hi : i ∈ parties nP) :
    K.result nP d gates wires_ i = gates.map fun g =>
      K.shareOf (comparisonOf ((d i).preproc_ g.2).ext)
        (arithBit (bit (x g) + (tp g wout).secret)) := by
  by_cases hlen : 0 < gates.length
  · rw [Comparison.result, if_pos hlen, Comparison.shares]
    refine List.ext_getElem (by simp) fun k h1 h2 => ?_
    have hk : k < gates.length := by simpa using h2
    have hget : gates.getD k default = gates[k] := List.getD_eq_getElem gates default hk
    have hready' := hready _ (getD_mem hk)
    have hvals : K.vals i (d i) gates (wires_ i) k =
        K.value (x (gates.getD k default) + r (gates.getD k default)) := by
      rw [← hready'.masked i hi]
      exact if_pos (ne_zero_of_parties hi)
    have hwires := Comparison.boolEval_wires hK hnP hst hready hi hk
    set g := gates.getD k default with hg
    have hout : K.circ.outputs = [wout] := by
      rw [hK.circ_eq]
      exact hK.outputs_eq
    have hbit : ∀ a s adj b : BoolRing, a + adj = b → (a + s ^^ adj) = b + s := by
      intro a s adj b h
      rw [← h]
      exact add_right_comm a s adj
    simp only [BoolEval.getOutputShares, List.getElem_map, List.getElem_range, hout, List.map_cons,
      List.map_nil, List.getD_eq_getElem?_getD, List.getElem?_map, List.getElem?_range hk,
      Option.map_some, Option.getD_some, List.getElem?_cons_zero, hwires, hvals]
    rw [hbit _ _ _ _ (hK.decides (x g) (r g)), if_pos (ne_zero_of_parties hi), ← hget]
    rfl
  · have hnil : gates = [] := List.length_eq_zero_iff.mp (by omega)
    rw [Comparison.result, if_neg hlen, hnil, List.map_nil]

end Batch

end QSync
