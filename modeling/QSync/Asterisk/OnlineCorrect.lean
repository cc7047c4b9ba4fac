import QSync.Asterisk.OnlineLevels

/-! # The online phase with valid preprocessing

Every wire ends with its value plus the secret of its mask (`onlineStates_masked`), and the MAC check
finds what has been added to the opened values of the multiplication gates, weighted with the
challenges drawn for them (`macRes_eq`).
-/

namespace QSync
open Network Batching
set_option autoImplicit false
set_option maxHeartbeats 250000

/-! ## Challenges -/

section Challenges
variable {M : Modulus}

/-- The challenges `MACVerification` draws for the gates of a list, each with its gate. -/
def drawChallenges : List (Gate (Field M)) → StateM Stream (List (Gate (Field M) × Field M))
  | [] => pure []
  | g :: gs => do
    let rhos ← (List.range (challenges g.type)).mapM fun _ => Stream.randomize (Field M)
    let rest ← drawChallenges gs
    pure (rhos.map (fun rho => (g, rho)) ++ rest)

def macChallenges (reseed : Bytes → Prg) (cc_key : Bytes) (circ : LevelOrderedCircuit (Field M)) :
    List (Gate (Field M) × Field M) :=
  (drawChallenges circ.gates_by_level.flatten ⟨reseed cc_key, []⟩).1

def challengesFor (reseed : Bytes → Prg) (cc_key : Bytes) (circ : LevelOrderedCircuit (Field M))
    (g : Gate (Field M)) : List (Field M) :=
  ((macChallenges reseed cc_key circ).filter fun x => x.1.out = g.out).map Prod.snd

theorem drawChallenges_cons (g : Gate (Field M)) (gs : List (Gate (Field M))) (prg : Stream) :
    drawChallenges (g :: gs) prg =
      let p := ((List.range (challenges g.type)).mapM fun _ => Stream.randomize (Field M)) prg
      (p.1.map (fun rho => (g, rho)) ++ (drawChallenges gs p.2).1, (drawChallenges gs p.2).2) := rfl

theorem macGate_eq (key : Field M) (s : OnlineState M) (g : Gate (Field M)) {α : Type} (xs : List α)
    (omega : Field M) (prg : Stream) :
    xs.foldlM (fun omega _ => macTerm key s g omega) omega prg =
      let p := (xs.mapM fun _ => Stream.randomize (Field M)) prg
      (omega + (p.1.map fun rho => rho * (s.q_val_ g.out * key - (s.q_sh_ g.out).tag_)).sum, p.2) := by
  induction xs generalizing omega prg with
  | nil => exact Prod.ext (add_zero omega).symm rfl
  | cons x xs ih =>
    rw [List.foldlM_cons, List.mapM_cons]
    refine (ih _ _).trans (Prod.ext ?_ rfl)
    exact add_assoc _ _ _

theorem macOmega_eq (key : Field M) (s : OnlineState M) (gs : List (Gate (Field M))) (omega : Field M)
    (prg : Stream) : (gs.foldlM (macGate key s) omega prg) =
      let p := drawChallenges gs prg
      (omega + (p.1.map fun x =>
        x.2 * (s.q_val_ x.1.out * key - (s.q_sh_ x.1.out).tag_)).sum, p.2) := by
  induction gs generalizing omega prg with
  | nil => exact Prod.ext (add_zero omega).symm rfl
  | cons g gs ih =>
    rw [List.foldlM_cons, StateM.bind_apply, macGate, macGate_eq, ih, drawChallenges_cons]
    refine Prod.ext ?_ rfl
    simp only [List.map_append, List.map_map, List.sum_append]
    exact add_assoc _ _ _

theorem mem_drawChallenges {gs : List (Gate (Field M))} {prg : Stream} {x : Gate (Field M) × Field M}
    (hx : x ∈ (drawChallenges gs prg).1) : x.1 ∈ gs ∧ x.1.type ∈ multTypes := by
  induction gs generalizing prg with
  | nil => cases hx
  | cons g gs ih =>
    rw [drawChallenges_cons] at hx
    obtain hx | hx := List.mem_append.mp hx
    · obtain ⟨rho, hrho, rfl⟩ := List.mem_map.mp hx
      refine ⟨List.mem_cons_self, ?_⟩
      by_contra ht
      have hnone : challenges g.type = 0 := by
        revert ht
        cases g.type <;> decide
      rw [hnone] at hrho
      cases hrho
    · exact ⟨List.mem_cons_of_mem _ (ih hx).1, (ih hx).2⟩

theorem exists_challenge {gs : List (Gate (Field M))} (prg : Stream) {g : Gate (Field M)} (hg : g ∈ gs)
    (ht : g.type ∈ multTypes) : ∃ rho, (g, rho) ∈ (drawChallenges gs prg).1 := by
  induction gs generalizing prg with
  | nil => cases hg
  | cons g' gs ih =>
    rw [drawChallenges_cons]
    obtain rfl | hg := List.mem_cons.mp hg
    · have hpos : 0 < challenges g.type := by
        revert ht
        cases g.type <;> decide
      have hlen : 0 < ((List.range (challenges g.type)).mapM
          (fun _ => Stream.randomize (Field M)) prg).1.length := by
        rw [StateM.length_mapM, List.length_range]
        exact hpos
      obtain ⟨rho, hrho⟩ := List.exists_mem_of_length_pos hlen
      exact ⟨rho, List.mem_append_left _ (List.mem_map_of_mem hrho)⟩
    · obtain ⟨rho, hrho⟩ := ih _ hg
      exact ⟨rho, List.mem_append_right _ hrho⟩

theorem omegaOf_eq {d : ℕ → PartyData M} {reseed : Bytes → Prg} {circ : LevelOrderedCircuit (Field M)}
    {s : ℕ → OnlineState M} (cc_key : Bytes) (i : ℕ) : omegaOf d reseed circ s cc_key i =
      ((macChallenges reseed cc_key circ).map fun x =>
        x.2 * ((s i).q_val_ x.1.out * ((d i).preproc_ 0).mask.sh.key_sh_ -
          ((s i).q_sh_ x.1.out).tag_)).sum := by
  rw [omegaOf, macOmega, foldlM_flatten, macOmega_eq]
  exact zero_add _

end Challenges

/-! ## The MAC check -/

section Mac
variable {M : Modulus} {nP : ℕ} {keySh : ℕ → Field M} {bkeySh : ℕ → BoolRing} {ipm : ℕ → ℕ}
  {circ : Circuit (Field M)} {d : ℕ → PartyData M} {f err : ℕ → Field M} {s : ℕ → OnlineState M}

theorem sum_list_map {ι α R : Type} [AddCommMonoid R] (I : Finset ι) (xs : List α) (F : ι → α → R) :
    ∑ i ∈ I, (xs.map (F i)).sum = (xs.map fun x => ∑ i ∈ I, F i x).sum := by
  induction xs with
  | nil => simp
  | cons x xs ih => simp only [List.map_cons, List.sum_cons, Finset.sum_add_distrib, ih]

theorem FieldPreproc.key_eq (hnP : 1 ≤ nP) (hpre : FieldPreproc nP keySh bkeySh ipm circ d)
    (hgates : circ.gates_ ≠ []) {i : ℕ} (hi : i ∈ parties nP) :
    ((d i).preproc_ 0).mask.sh.key_sh_ = keySh i := by
  obtain ⟨g, hg, hout⟩ := (circ.mem_outs_iff 0).mpr (List.length_pos_of_ne_nil hgates)
  have hshares : SharesOf nP keySh (fun i => ((d i).preproc_ g.out).mask.sh) _ :=
    .of_agrees hnP fun i hi hn => (hpre.agrees i (mem_parties.mpr ⟨hi, hn⟩) g hg).mask
  rw [← hout]
  exact hshares.key i (Finset.mem_Icc.mpr (mem_parties.mp hi))

/-- What the MAC check finds: what has been added to the opened values of the multiplication gates,
times their challenges and the key. -/
theorem macRes_eq (hnP : 1 ≤ nP) (hpre : FieldPreproc nP keySh bkeySh ipm circ d)
    (hgates : circ.gates_ ≠ []) (hs : OnlineMasked nP circ d f err (outs circ.gates_) s)
    (reseed : Bytes → Prg) : macRes nP d reseed circ.orderGatesByLevel s =
      ((macChallenges reseed (ccKey d) circ.orderGatesByLevel).map fun x =>
        x.2 * (err x.1.out * ∑ i ∈ Finset.Icc 1 nP, keySh i)).sum := by
  set C := (d 0).preproc_ with hC
  set V := onlineValues f err C circ with hV
  rw [macRes, sum_parties]
  refine (Finset.sum_congr rfl fun i _ => omegaOf_eq (ccKey d) i).trans ?_
  rw [sum_list_map]
  refine congrArg List.sum (List.map_congr_left fun x hx => ?_)
  obtain ⟨hlevels, ht⟩ := mem_drawChallenges hx
  have hg : x.1 ∈ circ.gates_ := (circ.mem_levels _).mp hlevels
  have hopened : ∀ t ∈ multTypes, t ∈ openedTypes := by decide
  have hauth := (openedShare_authenticates hnP hpre f hg (hopened _ ht) V).auth
  simp only [openedShare_of_mult ht] at hauth
  rw [← Finset.mul_sum]
  refine congrArg (x.2 * ·) ((Finset.sum_congr rfl fun i hi => ?_).trans
    ((hauth.check (openedSecret f C x.1 V + err x.1.out)).trans ?_))
  · have hi' : i ∈ parties nP := mem_parties.mpr (Finset.mem_Icc.mp hi)
    rw [hs.q_val i hi' x.1 hg ht (mem_outs hg), hs.q_sh i hi' x.1 hg ht (mem_outs hg),
      hpre.key_eq hnP hgates hi']
    rfl
  · rw [add_sub_cancel_left]

end Mac

/-! ## The whole online phase -/

section Whole
variable {M : Modulus} {nP : ℕ} {keySh : ℕ → Field M} {bkeySh : ℕ → BoolRing} {ipm : ℕ → ℕ}
  {circ : Circuit (Field M)} {d : ℕ → PartyData M} {err : ℕ → Field M}

/-- The dealers, parties of the protocol, have their inputs. -/
def DealersReady (nP : ℕ) (ipm : ℕ → ℕ) (circ : Circuit (Field M)) (inputs : ℕ → InputMap (Field M)) :
    Prop :=
  ∀ g ∈ circ.gates_, g.type = .kInp →
    ipm g.out ∈ parties nP ∧ g.out ∈ (inputs (ipm g.out)).keys

def inputsOf (ipm : ℕ → ℕ) (inputs : ℕ → InputMap (Field M)) (w : ℕ) : Field M :=
  (inputs (ipm w)).val w

theorem FieldPreproc.input (hpre : FieldPreproc nP keySh bkeySh ipm circ d) {g : Gate (Field M)}
    (hg : g ∈ circ.gates_) (ht : g.type = .kInp) {i : ℕ} (hi : i ∈ parties nP) :
    (inputOf ((d i).preproc_ g.out).ext).1 = ipm g.out ∧
      (ipm g.out = i → (inputOf ((d i).preproc_ g.out).ext).2 = ((d 0).preproc_ g.out).secret) := by
  have hext : ((d 0).preproc_ g.out).ext = .input (ipm g.out) ((d 0).preproc_ g.out).secret := by
    have h := hpre.opens g hg
    rw [FieldOpens, Op.eq_kInp ht] at h
    exact h
  have hag := (hpre.agrees i hi g hg).ext
  rw [hext] at hag
  cases hd : ((d i).preproc_ g.out).ext with
  | input pid v =>
    rw [hd] at hag
    exact ⟨hag.1, hag.2⟩
  | _ =>
    rw [hd] at hag
    exact hag.elim

theorem FieldPreproc.inputsDealt (hpre : FieldPreproc nP keySh bkeySh ipm circ d)
    (hdealers : DealersReady nP ipm circ fun i => (d i).inputs) : InputsDealt nP ipm d circ :=
  ⟨fun _ hg ht _ hi => (hpre.input hg ht hi).1, hdealers⟩

theorem onlineStates_masked (hnP : 1 ≤ nP) (hpre : FieldPreproc nP keySh bkeySh ipm circ d)
    (htypes : ∀ g ∈ circ.gates_, g.type.offline)
    (hdealers : DealersReady nP ipm circ fun i => (d i).inputs) (err : ℕ → Field M) :
    OnlineMasked nP circ d (inputsOf ipm fun i => (d i).inputs) err (outs circ.gates_)
      (onlineStates nP ipm d err circ.orderGatesByLevel) := by
  have hstart : OnlineMasked nP circ d (inputsOf ipm fun i => (d i).inputs) err ∅
      (afterInputs ipm d circ.orderGatesByLevel fun _ => .init) := by
    refine ⟨fun i hi w hw => ?_, fun _ _ _ _ _ h => h.elim, fun _ _ _ _ _ h => h.elim⟩
    obtain ⟨g, hg, ht, rfl⟩ := hw.resolve_left id
    have hvalue : onlineValues (inputsOf ipm fun i => (d i).inputs) err (d 0).preproc_ circ g.out =
        inputsOf ipm (fun i => (d i).inputs) g.out := by
      have hnot : g.type ∉ openedTypes := by
        rw [ht]
        decide
      rw [onlineValues_eq _ hg, onlineValue_of_not_opened hnot, Gate.value_of_kInp ht]
    rw [afterInputs_wires hg ht _ (ne_zero_of_parties hi), masked, hvalue, dealtValue,
      (hpre.input hg ht (hdealers g hg ht).1).2 rfl, add_comm]
    rfl
  have h := foldl_afterLevel_masked hnP hpre htypes circ.orderGatesByLevel.gates_by_level
    (fun g hg => (circ.mem_levels g).mp hg) circ.levelSched hstart
  rwa [Set.empty_union, circ.outs_levels] at h

def opensTo (d : ℕ → PartyData M) (r : ℕ → OnlineResult M) (i w : ℕ) : Field M :=
  (r i).state.wires_ w - ((d 0).preproc_ w).secret

variable (reseed : Bytes → Prg)

theorem onlineResult_opens (hnP : 1 ≤ nP) (hpre : FieldPreproc nP keySh bkeySh ipm circ d)
    (htypes : ∀ g ∈ circ.gates_, g.type.offline)
    (hdealers : DealersReady nP ipm circ fun i => (d i).inputs) {i : ℕ} (hi : i ∈ parties nP) {w : ℕ}
    (hw : w < circ.size) :
    opensTo d (onlineResult nP ipm d reseed err circ.orderGatesByLevel) i w =
      onlineValues (inputsOf ipm fun i => (d i).inputs) err (d 0).preproc_ circ w := by
  have hs := (onlineStates_masked hnP hpre htypes hdealers err).wires i hi w
    (.inl ((circ.mem_outs_iff w).mpr hw))
  exact sub_eq_of_eq_add hs

theorem onlineResult_res (hnP : 1 ≤ nP) (hpre : FieldPreproc nP keySh bkeySh ipm circ d)
    (htypes : ∀ g ∈ circ.gates_, g.type.offline)
    (hdealers : DealersReady nP ipm circ fun i => (d i).inputs) (hgates : circ.gates_ ≠ []) (id : ℕ) :
    (onlineResult nP ipm d reseed err circ.orderGatesByLevel id).res =
      ((macChallenges reseed (ccKey d) circ.orderGatesByLevel).map fun x =>
        x.2 * (err x.1.out * ∑ i ∈ Finset.Icc 1 nP, keySh i)).sum :=
  macRes_eq hnP hpre hgates (onlineStates_masked hnP hpre htypes hdealers err) reseed

/-- When the MAC check has passed, the parties return the values of the output wires. -/
theorem onlineResult_outvals (hnP : 1 ≤ nP) (hpre : FieldPreproc nP keySh bkeySh ipm circ d)
    (htypes : ∀ g ∈ circ.gates_, g.type.offline)
    (hdealers : DealersReady nP ipm circ fun i => (d i).inputs) {i : ℕ} (hi : i ∈ parties nP)
    (hres : (onlineResult nP ipm d reseed err circ.orderGatesByLevel i).res = 0) :
    (onlineResult nP ipm d reseed err circ.orderGatesByLevel i).outvals =
      circ.outputs_.map
        (onlineValues (inputsOf ipm fun i => (d i).inputs) err (d 0).preproc_ circ) := by
  refine (if_pos hres).trans (List.map_congr_left fun w hw => ?_)
  rw [if_neg (ne_zero_of_parties hi)]
  exact onlineResult_opens reseed hnP hpre htypes hdealers hi (circ.outputs_valid w hw)

theorem onlineResult_honest (hnP : 1 ≤ nP) (hpre : FieldPreproc nP keySh bkeySh ipm circ d)
    (htypes : ∀ g ∈ circ.gates_, g.type.offline)
    (hdealers : DealersReady nP ipm circ fun i => (d i).inputs) (hgates : circ.gates_ ≠ []) (id : ℕ) :
    (onlineResult nP ipm d reseed (fun _ => 0) circ.orderGatesByLevel id).res = 0 := by
  rw [onlineResult_res reseed hnP hpre htypes hdealers hgates]
  simp

end Whole

end QSync
