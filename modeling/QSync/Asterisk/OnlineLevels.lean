import QSync.Asterisk.OnlineGates

/-! # The invariant of the online phase

With valid preprocessing, and whatever is added to the opened values, after every level each party
holds on every wire set so far the value the online phase gives it plus the secret of its mask, and for
every multiplication gate the share that has been opened and the value it has been opened to
(`OnlineMasked`, `afterLevel_masked`).
-/

namespace QSync
open Network Batching
set_option autoImplicit false
set_option maxHeartbeats 250000

/-! ## The walks of one party -/

section Walks
variable {M : Modulus} {level : List (Gate (Field M))}

theorem mem_gatesOf {R : Type} {t : GateType} {level : List (Gate R)} {g : Gate R} :
    g ∈ level.filter (fun g => g.type = t) ↔ g ∈ level ∧ g.type = t := by
  simp

theorem Gate.eq_kEqz {R : Type} {g : Gate R} (ht : g.type = .kEqz) :
    ∃ a out, g = ⟨.kEqz a, out⟩ := by
  obtain ⟨op, out⟩ := g
  cases op with
  | kEqz a => exact ⟨a, out, rfl⟩
  | _ => cases ht

theorem Gate.eq_kLtz {R : Type} {g : Gate R} (ht : g.type = .kLtz) :
    ∃ a out, g = ⟨.kLtz a, out⟩ := by
  obtain ⟨op, out⟩ := g
  cases op with
  | kLtz a => exact ⟨a, out, rfl⟩
  | _ => cases ht

theorem recvGate_congr {s : OnlineState M} {g : Gate (Field M)} {q q' : Field M}
    {e e' l l' : ComparisonShare M} (hq : g.type ∈ openedTypes → q = q')
    (he : g.type = .kEqz → e = e') (hl : g.type = .kLtz → l = l') :
    recvGate s g q e l = recvGate s g q' e' l' := by
  obtain ⟨op, out⟩ := g
  cases op with
  | kEqz a => rw [hq (of_decide_eq_true rfl), he rfl]; rfl
  | kLtz a => rw [hq (of_decide_eq_true rfl), hl rfl]; rfl
  | kMul | kMul3 | kMul4 | kDotprod => rw [hq (of_decide_eq_true rfl)]; rfl
  | _ => rfl

/-- A party that finds the opened values and its comparison shares under their types needs no
indices. -/
theorem onlineRecv_eq {err : ℕ → Field M} {all : GateType → List (Field M)}
    {eqz ltz : List (ComparisonShare M)} {A : Gate (Field M) → Field M}
    {E L : Gate (Field M) → ComparisonShare M}
    (hall : ∀ t ∈ openedTypes, all t = batch Gate.type level A t)
    (heqz : eqz = batch Gate.type level E .kEqz) (hltz : ltz = batch Gate.type level L .kLtz)
    (s : OnlineState M) :
    (level.foldl (partyRecvStep err all eqz ltz) (s, fun _ => 0)).1 =
      level.foldl (fun s g => recvGate s g (A g + err g.out) (E g) (L g)) s := by
  refine foldl_counters Gate.type openedTypes _ _ _ (fun ys x zs hx s idx hidx => ⟨?_, ?_⟩) s
  · refine recvGate_congr (fun ht => ?_) (fun ht => ?_) fun ht => ?_
    · rw [hall _ ht, hidx _ ht, getD_batch Gate.type hx A 0]
    · have hmem : GateType.kEqz ∈ openedTypes := by decide
      rw [heqz, ht, hidx _ hmem, ← ht, getD_batch Gate.type hx E default]
    · have hmem : GateType.kLtz ∈ openedTypes := by decide
      rw [hltz, ht, hidx _ hmem, ← ht, getD_batch Gate.type hx L default]
  · by_cases ht : x.type ∈ openedTypes
    · simp only [partyRecvStep, if_pos ht]
      exact countP_bump hidx
    · simp only [partyRecvStep, if_neg ht]
      exact countP_keep ht hidx

/-- What `evaluateGatesAtDepthPartySend` leaves is what it found and, for the multiplication gates, the
shares. -/
theorem onlineSend_eq (id : ℕ) (d : PartyData M) (s : OnlineState M) :
    (level.foldl (partySendStep id d) s).wires_ = s.wires_ ∧
      (level.foldl (partySendStep id d) s).q_sh_ =
        level.foldl (fun (q_sh_ : ℕ → AuthAddShare (Field M)) g =>
          if g.type ∈ multTypes then Function.update q_sh_ g.out (gateShare id s.wires_ d.preproc_ g)
          else q_sh_) s.q_sh_ := by
  induction level generalizing s with
  | nil => exact ⟨rfl, rfl⟩
  | cons g gs ih =>
    obtain ⟨hw, hq⟩ := ih (partySendStep id d s g)
    have hwires : (partySendStep id d s g).wires_ = s.wires_ := by
      unfold partySendStep
      split <;> rfl
    have hsh : (partySendStep id d s g).q_sh_ = if g.type ∈ multTypes then
        Function.update s.q_sh_ g.out (gateShare id s.wires_ d.preproc_ g) else s.q_sh_ := by
      unfold partySendStep
      split <;> rfl
    rw [List.foldl_cons, List.foldl_cons, hw, hq, hwires, hsh]
    exact ⟨rfl, rfl⟩

theorem partySendStep_of_ne (id : ℕ) (d : PartyData M) (s : OnlineState M) (g : Gate (Field M))
    {w : ℕ} (h : w ≠ g.out) : (partySendStep id d s g).q_sh_ w = s.q_sh_ w ∧
      (partySendStep id d s g).q_val_ w = s.q_val_ w := by
  unfold partySendStep
  split
  · refine ⟨Function.update_of_ne h _ _, ?_⟩
    dsimp only
    split
    · rfl
    · exact Function.update_of_ne h _ _
  · exact ⟨rfl, rfl⟩

theorem recvGate_of_ne (s : OnlineState M) (g : Gate (Field M)) (q : Field M)
    (e l : ComparisonShare M) {w : ℕ} (h : w ≠ g.out) :
    (recvGate s g q e l).q_sh_ w = s.q_sh_ w ∧ (recvGate s g q e l).q_val_ w = s.q_val_ w := by
  obtain ⟨op, out⟩ := g
  have hu : ∀ {β : Type} (v : ℕ → β) (x : β), Function.update v out x w = v w := fun v x =>
    Function.update_of_ne h x v
  cases op <;> first
    | exact ⟨rfl, rfl⟩
    | exact ⟨rfl, hu _ _⟩
    | exact ⟨hu _ _, hu _ _⟩

theorem recvGate_of_mult (s : OnlineState M) {g : Gate (Field M)} (ht : g.type ∈ multTypes)
    (q : Field M) (e l : ComparisonShare M) :
    (recvGate s g q e l).q_sh_ = s.q_sh_ ∧ (recvGate s g q e l).q_val_ g.out = q := by
  obtain ⟨op, out⟩ := g
  cases op with
  | kMul | kMul3 | kMul4 | kDotprod =>
    refine ⟨rfl, ?_⟩
    change Function.update s.q_val_ out q out = q
    exact Function.update_self out q s.q_val_
  | _ => simp [multTypes, Gate.type, Op.type] at ht

def onlineOpened (C : FieldGates M) (V : ℕ → Field M) (q : Gate (Field M) → Field M)
    (g : Gate (Field M)) : Option (Field M) :=
  if g.type ∈ openedTypes then some (maskedOf C g V (q g)) else none

theorem recvGate_wires (C : FieldGates M) (V : ℕ → Field M) (q : Gate (Field M) → Field M)
    (s : OnlineState M) (g : Gate (Field M)) {e l : ComparisonShare M}
    (he : e.masked_b = maskedBit C g V) (hl : l.masked_b = maskedBit C g V) :
    (recvGate s g (q g) e l).wires_ = setWire (onlineOpened C V q) s.wires_ g := by
  obtain ⟨op, out⟩ := g
  cases op with
  | kEqz a =>
    change Function.update s.wires_ out (e.masked_b - 2 * q ⟨.kEqz a, out⟩) = _
    rw [he]
    rfl
  | kLtz a =>
    change Function.update s.wires_ out (l.masked_b - 2 * q ⟨.kLtz a, out⟩) = _
    rw [hl]
    rfl
  | _ => rfl

end Walks

/-! ## One level -/

section Level
variable {M : Modulus} {nP : ℕ} {keySh : ℕ → Field M} {bkeySh : ℕ → BoolRing} {ipm : ℕ → ℕ}
  {circ : Circuit (Field M)} {d : ℕ → PartyData M} {f err V : ℕ → Field M}
  {level : List (Gate (Field M))} {s : ℕ → OnlineState M}

def masked (C : FieldGates M) (V : ℕ → Field M) (w : ℕ) : Field M := V w + (C w).secret

/-- Every party has the masked values on the inputs of the gates that are opened. -/
def InputsMasked (nP : ℕ) (d : ℕ → PartyData M) (V : ℕ → Field M) (level : List (Gate (Field M)))
    (s : ℕ → OnlineState M) : Prop :=
  ∀ i ∈ parties nP, ∀ g ∈ level, g.type ∈ openedTypes → ∀ w ∈ g.inputs,
    (s i).wires_ w = masked (d 0).preproc_ V w

theorem comparisonResult_eq {V' : Type} [Zero V'] {K : Comparison M V'} {c : Circuit BoolRing}
    {mask : Field M → ℕ → BoolRing} {wout : ℕ} {bit : Field M → BoolRing}
    (hK : K.Decides c mask wout bit) (hnP : 1 ≤ nP)
    (hpre : FieldPreproc nP keySh bkeySh ipm circ d) (hlevel : ∀ g ∈ level, g ∈ circ.gates_)
    {t : GateType} (ht : t = .kEqz ∨ t = .kLtz)
    (hopens : ∀ g ∈ level, g.type = t → ComparisonOpens c mask wout
      ((d 0).preproc_ (g.inputs.getD 0 0)).secret ((d 0).preproc_ g.out))
    (hfan : ∀ g ∈ level, g.type = t → g.inputs.getD 0 0 ∈ g.inputs)
    (hin : InputsMasked nP d V level s) {i : ℕ} (hi : i ∈ parties nP) :
    K.result nP d (fIn1Gates t level) (fun i => (s i).wires_) i =
      batch Gate.type level (fun g => K.shareOf (comparisonOf ((d i).preproc_ g.out).ext)
        (arithBit (bit (V (g.inputs.getD 0 0)) +
          ((comparisonOf ((d 0).preproc_ g.out).ext).gates wout).secret))) t := by
  by_cases hnil : fIn1Gates t level = []
  · rw [hnil]
    have hbatch := (List.map_eq_nil_iff.mp hnil : level.filter (fun g => g.type = t) = [])
    rw [batch, hbatch]
    rfl
  · obtain ⟨x, hx⟩ := List.exists_mem_of_ne_nil _ hnil
    obtain ⟨g, hmem, -⟩ := List.mem_map.mp hx
    obtain ⟨hg, htg⟩ := mem_gatesOf.mp hmem
    have hst := hpre.pads g (hlevel g hg) (by rwa [htg])
    have hready : ∀ g ∈ fIn1Gates t level, ComparisonReady nP bkeySh c mask d (fun i => (s i).wires_) g
        (comparisonOf ((d 0).preproc_ g.2).ext).gates (V g.1)
        ((comparisonOf ((d 0).preproc_ g.2).ext).padded_val + ((d 0).preproc_ g.1).secret) := by
      intro x hx
      obtain ⟨g, hmem, rfl⟩ := List.mem_map.mp hx
      obtain ⟨hg, htg⟩ := mem_gatesOf.mp hmem
      have hopen := hopens g hg htg
      have hopened : g.type ∈ openedTypes := by
        rw [htg]
        rcases ht with h | h <;> rw [h] <;> decide
      have hag := fun i hi =>
        (hpre.comparison (hlevel g hg) hopen.ext_eq (hi : i ∈ parties nP)).members
      refine ⟨fun i hi => ?_, hopen.bits, fun i hi => ?_⟩
      · have h := (hag i hi).2.2.1
        rw [hopen.circuit_eq] at h
        exact h
      · rw [(hag i hi).2.2.2, hin i hi g hg hopened _ (hfan g hg htg), masked]
        ring
    rw [Comparison.result_eq hK hnP hst hready hi, fIn1Gates, List.map_map]
    rfl

theorem eqzResult_eq (hnP : 1 ≤ nP) (hpre : FieldPreproc nP keySh bkeySh ipm circ d)
    (hlevel : ∀ g ∈ level, g ∈ circ.gates_) (hin : InputsMasked nP d V level s) {i : ℕ}
    (hi : i ∈ parties nP) : eqzResult nP d level s i = batch Gate.type level (fun g =>
      eqzComparison.shareOf (comparisonOf ((d i).preproc_ g.out).ext)
        (maskedBit (d 0).preproc_ g V)) .kEqz := by
  refine (comparisonResult_eq (V := V) eqz_decides hnP hpre hlevel (.inl rfl) (fun g hg ht => ?_)
    (fun g hg ht => ?_) hin hi).trans (List.map_congr_left fun g hg => ?_)
  · obtain ⟨a, out, rfl⟩ := Gate.eq_kEqz ht
    exact (hpre.opens _ (hlevel _ hg)).eqz
  · obtain ⟨a, out, rfl⟩ := Gate.eq_kEqz ht
    exact List.mem_singleton_self a
  · obtain ⟨a, out, rfl⟩ := Gate.eq_kEqz (mem_gatesOf.mp hg).2
    rfl

theorem ltzResult_eq (hnP : 1 ≤ nP) (hpre : FieldPreproc nP keySh bkeySh ipm circ d)
    (hlevel : ∀ g ∈ level, g ∈ circ.gates_) (hin : InputsMasked nP d V level s) {i : ℕ}
    (hi : i ∈ parties nP) : ltzResult nP d level s i = batch Gate.type level (fun g =>
      ltzComparison.shareOf (comparisonOf ((d i).preproc_ g.out).ext)
        (maskedBit (d 0).preproc_ g V)) .kLtz := by
  refine (comparisonResult_eq (V := V) ltz_decides hnP hpre hlevel (.inr rfl) (fun g hg ht => ?_)
    (fun g hg ht => ?_) hin hi).trans (List.map_congr_left fun g hg => ?_)
  · obtain ⟨a, out, rfl⟩ := Gate.eq_kLtz ht
    exact (hpre.opens _ (hlevel _ hg)).ltz
  · obtain ⟨a, out, rfl⟩ := Gate.eq_kLtz ht
    exact List.mem_singleton_self a
  · obtain ⟨a, out, rfl⟩ := Gate.eq_kLtz (mem_gatesOf.mp hg).2
    rfl

theorem levelShares_eq (hnP : 1 ≤ nP) (hpre : FieldPreproc nP keySh bkeySh ipm circ d)
    (hlevel : ∀ g ∈ level, g ∈ circ.gates_) (hin : InputsMasked nP d V level s) {i : ℕ}
    (hi : i ∈ parties nP) {t : GateType} (ht : t ∈ openedTypes) :
    levelShares nP d level s i t = batch Gate.type level (fun g => (openedShare i (d i)
      (masked (d 0).preproc_ V) (maskedBit (d 0).preproc_ g V) g).value_) t := by
  have hmult : t ∈ multTypes → batch Gate.type level
      (fun g => (gateShare i (s i).wires_ (d i).preproc_ g).value_) t =
      batch Gate.type level (fun g => (openedShare i (d i) (masked (d 0).preproc_ V)
        (maskedBit (d 0).preproc_ g V) g).value_) t := by
    intro hmult
    refine List.map_congr_left fun g hmem => ?_
    obtain ⟨hg, rfl⟩ := mem_gatesOf.mp hmem
    rw [openedShare_of_mult hmult, gateShare_congr (hin i hi g hg ht)]
  have hbatch : ∀ (E : Gate (Field M) → ComparisonShare M) (t : GateType),
      (∀ g : Gate (Field M), g.type = t → (E g).q_share = openedShare i (d i)
        (masked (d 0).preproc_ V) (maskedBit (d 0).preproc_ g V) g) →
      (batch Gate.type level E t).map (fun x => x.q_share.value_) =
        batch Gate.type level (fun g => (openedShare i (d i) (masked (d 0).preproc_ V)
          (maskedBit (d 0).preproc_ g V) g).value_) t := by
    intro E t hE
    rw [batch, List.map_map]
    refine List.map_congr_left fun g hg => ?_
    exact congrArg _ (hE g (mem_gatesOf.mp hg).2)
  unfold levelShares
  rw [eqzResult_eq hnP hpre hlevel hin hi, ltzResult_eq hnP hpre hlevel hin hi]
  cases t with
  | kMul | kMul3 | kMul4 | kDotprod => exact hmult (of_decide_eq_true rfl)
  | kEqz => exact hbatch _ _ fun g ht => by rw [openedShare, ht]
  | kLtz => exact hbatch _ _ fun g ht => by rw [openedShare, ht]
  | _ => simp [openedTypes] at ht

theorem split_levelOpened (hnP : 1 ≤ nP) (hpre : FieldPreproc nP keySh bkeySh ipm circ d)
    (hlevel : ∀ g ∈ level, g ∈ circ.gates_) (hin : InputsMasked nP d V level s) (f : ℕ → Field M)
    {t : GateType} (ht : t ∈ openedTypes) :
    split (openedNum level) openedTypes (levelOpened nP d level s) t =
      batch Gate.type level (fun g => openedSecret f (d 0).preproc_ g V) t := by
  have hlen : ∀ i ∈ parties nP, ∀ t ∈ openedTypes,
      (levelShares nP d level s i t).length = openedNum level t := fun i _ t ht =>
    length_levelShares i ht
  rw [levelOpened, split_openedValues (by decide) hlen ht, openedValues_congr fun i hi => levelShares_eq hnP hpre hlevel hin hi ht]
  refine (openedValues_batch nP Gate.type level _ t).trans (List.map_congr_left fun g hmem => ?_)
  obtain ⟨hg, rfl⟩ := mem_gatesOf.mp hmem
  exact (openedShare_authenticates hnP hpre f (hlevel g hg) ht V).auth.opens

theorem afterLevel_eq (hnP : 1 ≤ nP) (hpre : FieldPreproc nP keySh bkeySh ipm circ d)
    (hlevel : ∀ g ∈ level, g ∈ circ.gates_) (hin : InputsMasked nP d V level s) (f err : ℕ → Field M)
    {i : ℕ} (hi : i ∈ parties nP) : afterLevel nP d level s err i =
      level.foldl (fun s g => recvGate s g (openedSecret f (d 0).preproc_ g V + err g.out)
        (eqzComparison.shareOf (comparisonOf ((d i).preproc_ g.out).ext) (maskedBit (d 0).preproc_ g V))
        (ltzComparison.shareOf (comparisonOf ((d i).preproc_ g.out).ext)
          (maskedBit (d 0).preproc_ g V))) (level.foldl (partySendStep i (d i)) (s i)) := by
  rw [afterLevel, if_neg (ne_zero_of_parties hi)]
  exact onlineRecv_eq (fun t ht => split_levelOpened hnP hpre hlevel hin f ht)
    (eqzResult_eq hnP hpre hlevel hin hi) (ltzResult_eq hnP hpre hlevel hin hi) _

end Level

/-! ## The invariant -/

section Invariant
variable {M : Modulus} {nP : ℕ} {keySh : ℕ → Field M} {bkeySh : ℕ → BoolRing} {ipm : ℕ → ℕ}
  {circ : Circuit (Field M)} {d : ℕ → PartyData M} {f err : ℕ → Field M}
  {level : List (Gate (Field M))} {seen : Set ℕ} {s : ℕ → OnlineState M}

variable (f err) in
def onlineValues (C : FieldGates M) (circ : Circuit (Field M)) : ℕ → Field M :=
  runGates (onlineValue f err C) circ.gates_ fun _ => 0

theorem onlineValues_eq (C : FieldGates M) {g : Gate (Field M)} (hg : g ∈ circ.gates_) :
    onlineValues f err C circ g.out = onlineValue f err C g (onlineValues f err C circ) :=
  runGates_eq (onlineValue_local f err C) circ.sched _ g hg

variable (nP circ d f err) in
/-- The parties hold the masked values of the inputs and of the wires in `seen`, and what the MAC check
needs of the multiplications among them. -/
structure OnlineMasked (seen : Set ℕ) (s : ℕ → OnlineState M) : Prop where
  wires : ∀ i ∈ parties nP, ∀ w ∈ seen ∪ circ.inputSet,
    (s i).wires_ w = masked (d 0).preproc_ (onlineValues f err (d 0).preproc_ circ) w
  q_sh : ∀ i ∈ parties nP, ∀ g ∈ circ.gates_, g.type ∈ multTypes → g.out ∈ seen →
    (s i).q_sh_ g.out = gateShare i (masked (d 0).preproc_ (onlineValues f err (d 0).preproc_ circ))
      (d i).preproc_ g
  q_val : ∀ i ∈ parties nP, ∀ g ∈ circ.gates_, g.type ∈ multTypes → g.out ∈ seen →
    (s i).q_val_ g.out =
      openedSecret f (d 0).preproc_ g (onlineValues f err (d 0).preproc_ circ) + err g.out

theorem levelWires_masked (hpre : FieldPreproc nP keySh bkeySh ipm circ d)
    (htypes : ∀ g ∈ circ.gates_, g.type.offline) (hlevel : ∀ g ∈ level, g ∈ circ.gates_)
    (hsched : Sched seen level) {ws : ℕ → Field M}
    (hws : ∀ w ∈ seen ∪ circ.inputSet,
      ws w = masked (d 0).preproc_ (onlineValues f err (d 0).preproc_ circ) w) :
    ∀ w ∈ seen ∪ outs level ∪ circ.inputSet,
      levelWires (onlineOpened (d 0).preproc_ (onlineValues f err (d 0).preproc_ circ) fun g =>
        openedSecret f (d 0).preproc_ g (onlineValues f err (d 0).preproc_ circ) + err g.out) level ws w =
        masked (d 0).preproc_ (onlineValues f err (d 0).preproc_ circ) w := by
  set C := (d 0).preproc_
  set V := onlineValues f err C circ with hV
  refine levelWires_eq_union hsched hws (fun g hg v hv => ?_) fun g hg hn => ?_
  · have hspecial : g.type.special = false := by
      obtain ⟨op, out⟩ := g
      cases op <;> first | rfl | cases hv
    have hopened : g.type ∉ openedTypes := by
      obtain ⟨op, out⟩ := g
      cases op <;> first | exact of_decide_eq_false rfl | cases hv
    have hlin := linearGate_masked f V (fun w => (C w).secret) hv
      ((fieldOpens_iff hspecial).mp (hpre.opens g (hlevel g hg)))
    have hvalue : V g.out = g.value f V :=
      (onlineValues_eq C (hlevel g hg)).trans (onlineValue_of_not_opened hopened)
    rw [masked, hvalue]
    exact Option.some.inj (hlin.symm.trans hv)
  · by_cases ht : g.type ∈ openedTypes
    · refine .inl ((if_pos ht).trans (congrArg some ?_))
      have hvalue : V g.out = onlineValue f err C g V := onlineValues_eq C (hlevel g hg)
      rw [masked, hvalue, onlineValue, if_pos ht, sub_add_cancel]
    · have hinp : g.type = .kInp := by
        have hoff := htypes g (hlevel g hg)
        obtain ⟨op, out⟩ := g
        cases op <;> first
          | rfl
          | exact absurd (of_decide_eq_true rfl) ht
          | exact absurd hn (Option.some_ne_none _)
          | exact absurd hoff Bool.false_ne_true
      exact .inr ⟨if_neg ht, g, hlevel g hg, hinp, rfl⟩

theorem afterLevel_of_notMem (i : ℕ) {w : ℕ} (hw : w ∉ outs level) :
    (afterLevel nP d level s err i).q_sh_ w = (s i).q_sh_ w ∧
      (afterLevel nP d level s err i).q_val_ w = (s i).q_val_ w := by
  have hkey : w ∉ level.map Gate.out := fun h => hw (by simpa [outs] using h)
  rw [afterLevel]
  split
  · exact ⟨rfl, rfl⟩
  · refine ⟨?_, ?_⟩
    · refine (foldl_read_of_notMem _ (fun (p : OnlineState M × _) w => p.1.q_sh_ w) Gate.out
        (fun p g w h => (recvGate_of_ne p.1 g _ _ _ h).1) hkey _).trans ?_
      exact foldl_read_of_notMem _ OnlineState.q_sh_ Gate.out
        (fun s g w h => (partySendStep_of_ne i (d i) s g h).1) hkey _
    · refine (foldl_read_of_notMem _ (fun (p : OnlineState M × _) w => p.1.q_val_ w) Gate.out
        (fun p g w h => (recvGate_of_ne p.1 g _ _ _ h).2) hkey _).trans ?_
      exact foldl_read_of_notMem _ OnlineState.q_val_ Gate.out
        (fun s g w h => (partySendStep_of_ne i (d i) s g h).2) hkey _

theorem afterLevel_masked (hnP : 1 ≤ nP) (hpre : FieldPreproc nP keySh bkeySh ipm circ d)
    (htypes : ∀ g ∈ circ.gates_, g.type.offline) (hlevel : ∀ g ∈ level, g ∈ circ.gates_)
    (hsched : Sched seen level) (hlower : ∀ g ∈ level, g.type.interactive → ∀ w ∈ g.inputs, w ∈ seen)
    (hs : OnlineMasked nP circ d f err seen s) :
    OnlineMasked nP circ d f err (seen ∪ outs level) (afterLevel nP d level s err) := by
  set C := (d 0).preproc_ with hC
  set V := onlineValues f err C circ with hV
  have hinter : ∀ t ∈ openedTypes, t.interactive = true := by decide
  have hmult : ∀ t ∈ multTypes, t ∈ openedTypes := by decide
  have hin : InputsMasked nP d V level s := fun i hi g hg ht w hw =>
    hs.wires i hi w (.inl (hlower g hg (hinter _ ht) w hw))
  -- a gate of the circuit whose wire this level sets is a gate of the level
  have hmem : ∀ g ∈ circ.gates_, g.out ∈ outs level → g ∈ level := by
    rintro g hg ⟨g', hg', hout⟩
    rwa [← circ.out_injective (hlevel g' hg') hg hout]
  refine ⟨fun i hi => ?_, fun i hi g hg ht hout => ?_, fun i hi g hg ht hout => ?_⟩
  · have hwires : (afterLevel nP d level s err i).wires_ = levelWires (onlineOpened C V fun g =>
        openedSecret f C g V + err g.out) level (s i).wires_ := by
      rw [afterLevel_eq hnP hpre hlevel hin f err hi, levelWires, ← (onlineSend_eq i (d i) (s i)).1]
      exact (List.foldl_hom OnlineState.wires_ fun s g =>
        (recvGate_wires C V (fun g => openedSecret f C g V + err g.out) s g rfl rfl).symm).symm
    rw [hwires]
    exact levelWires_masked hpre htypes hlevel hsched (hs.wires i hi)
  · by_cases hl : g.out ∈ outs level
    · have hgl := hmem g hg hl
      rw [afterLevel_eq hnP hpre hlevel hin f err hi]
      refine List.foldlRecOn (motive := fun s' : OnlineState M => s'.q_sh_ g.out =
        gateShare i (masked C V) (d i).preproc_ g) level _ ?_ fun s' hs' x hx => ?_
      · rw [(onlineSend_eq i (d i) (s i)).2]
        refine foldl_read_of_nodup _ (fun (q_sh_ : ℕ → AuthAddShare (Field M)) w => q_sh_ w) Gate.out
          (fun q_sh_ x w h => ?_)
          hsched.outs_nodup hgl (fun q_sh_ => ?_) _
        · split
          · exact Function.update_of_ne h _ _
          · rfl
        · rw [if_pos ht, Function.update_self, gateShare_congr (hin i hi g hgl (hmult _ ht))]
      · by_cases hx' : g.out = x.out
        · rw [← circ.out_injective hg (hlevel x hx) hx', (recvGate_of_mult s' ht _ _ _).1]
          exact hs'
        · rw [(recvGate_of_ne s' x _ _ _ hx').1]
          exact hs'
    · rw [(afterLevel_of_notMem i hl).1]
      exact hs.q_sh i hi g hg ht (hout.resolve_right hl)
  · by_cases hl : g.out ∈ outs level
    · rw [afterLevel_eq hnP hpre hlevel hin f err hi]
      refine foldl_read_of_nodup _ OnlineState.q_val_ Gate.out (fun s' x w h => ?_)
        hsched.outs_nodup (hmem g hg hl) (fun s' => ?_) _
      · exact (recvGate_of_ne s' x _ _ _ h).2
      · exact (recvGate_of_mult s' ht _ _ _).2
    · rw [(afterLevel_of_notMem i hl).2]
      exact hs.q_val i hi g hg ht (hout.resolve_right hl)

theorem foldl_afterLevel_masked (hnP : 1 ≤ nP) (hpre : FieldPreproc nP keySh bkeySh ipm circ d)
    (htypes : ∀ g ∈ circ.gates_, g.type.offline) (levels : List (List (Gate (Field M))))
    (hlevels : ∀ g ∈ levels.flatten, g ∈ circ.gates_) (hsched : LevelSched seen levels)
    (hs : OnlineMasked nP circ d f err seen s) :
    OnlineMasked nP circ d f err (seen ∪ outs levels.flatten)
      (levels.foldl (fun s level => afterLevel nP d level s err) s) := by
  induction levels generalizing seen s with
  | nil => simpa using hs
  | cons l ls ih =>
    obtain ⟨hl, hlow, hls⟩ := hsched
    have hmem : ∀ g ∈ l, g ∈ circ.gates_ := fun g hg => hlevels g (List.mem_append_left _ hg)
    have hstep := afterLevel_masked hnP hpre htypes hmem hl hlow hs
    have hrest := ih (fun g hg => hlevels g (List.mem_append_right _ hg)) hls hstep
    rw [Set.union_assoc, ← outs_append] at hrest
    exact hrest

end Invariant

end QSync
