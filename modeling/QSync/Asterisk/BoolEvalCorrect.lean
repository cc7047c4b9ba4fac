import QSync.Asterisk.BoolEvalRun

/-! # Batched evaluation computes the circuit

With valid preprocessing and common pads, after every level each party holds for every wire evaluated
so far its plaintext value plus the secret of its mask, in every instance (`BoolMasked`,
`boolAfterLevel_masked`).
-/

namespace QSync
open Network Batching
set_option autoImplicit false
set_option maxHeartbeats 250000

/-! ## Pads -/

theorem StateM.mem_zip_mapM {σ α β : Type} (d : α → StateM σ β) (xs : List α) (s : σ)
    {x : α × β} (hx : x ∈ xs.zip ((xs.mapM d) s).1) : ∃ s', x.2 = (d x.1 s').1 := by
  induction xs generalizing s with
  | nil => cases hx
  | cons y ys ih =>
    have hcons : ((y :: ys).mapM d s).1 = (d y s).1 :: ((ys.mapM d) (d y s).2).1 := by
      rw [List.mapM_cons]
      rfl
    rw [hcons, List.zip_cons_cons, List.mem_cons] at hx
    obtain rfl | hx := hx
    · exact ⟨s, rfl⟩
    · exact ih _ hx

theorem length_of_mem_paddedJobs {nP m : ℕ} {level : List (Gate BoolRing)} {s : Stream}
    {x : PaddedJob} (hx : x ∈ paddedJobs nP m level s) (ht : paddedType x ∈ multTypes) :
    x.2.length = nP := by
  obtain ⟨s', hs'⟩ := StateM.mem_zip_mapM _ _ _ hx
  rw [hs', drawPads, if_pos ht, StateM.length_mapM, List.length_range]

theorem padShare_value (nP id : ℕ) (r : List BoolRing) (q_share : AuthAddShare BoolRing) :
    (padShare nP id r q_share).value_ =
      q_share.value_ + if id ∈ parties nP then r.getD (id - 1) 0 else 0 := by
  have hloop : ∀ (ps : List ℕ) (q : AuthAddShare BoolRing), ps.Nodup →
      (ps.foldl (fun q i => q.addWithAdder (r.getD (id - 1) 0) id i) q).value_ =
        q.value_ + if id ∈ ps then r.getD (id - 1) 0 else 0 := by
    intro ps
    induction ps with
    | nil => intro q _; simp
    | cons p ps ih =>
      intro q hps
      obtain ⟨hp, hps⟩ := List.nodup_cons.mp hps
      rw [List.foldl_cons, ih _ hps, AuthAddShare.addWithAdder_value]
      by_cases h : id = p
      · subst h
        simp [hp]
      · simp [h]
  exact hloop (parties nP) q_share List.nodup_range'

theorem sum_padShare {nP : ℕ} {r : List BoolRing} (hr : r.length = nP)
    (q : ℕ → AuthAddShare BoolRing) :
    ∑ i ∈ Finset.Icc 1 nP, (padShare nP i r (q i)).value_ =
      (∑ i ∈ Finset.Icc 1 nP, (q i).value_) + r.sum := by
  have hsum : r.sum = ∑ i ∈ Finset.Icc 1 nP, (0 :: r).getD i 0 := by
    rw [← TPShare.sum_of_getD (by simp [hr]) rfl, List.sum_cons, zero_add]
  rw [hsum, ← Finset.sum_add_distrib]
  refine Finset.sum_congr rfl fun i hi => ?_
  obtain ⟨j, rfl⟩ : ∃ j, i = j + 1 := ⟨i - 1, by have := (Finset.mem_Icc.mp hi).1; omega⟩
  rw [padShare_value, if_pos (mem_parties.mpr (Finset.mem_Icc.mp hi))]
  rfl

/-! ## One level -/

/-- Valid preprocessing of one instance: what the trusted party has and what the parties have. -/
structure BoolPreproc (nP : ℕ) (keySh : ℕ → BoolRing) (circ : Circuit BoolRing) (tp : BoolGates)
    (party : ℕ → BoolGates) : Prop where
  agrees : ∀ i, 1 ≤ i → i ≤ nP → BoolAgrees nP keySh i circ tp (party i)
  opens : ∀ g ∈ circ.gates_, Opens (fun w => (tp w).secret) g.op (tp g.out)

def Circuit.inputSet {R : Type} (c : Circuit R) : Set ℕ :=
  {w | ∃ g ∈ c.gates_, g.type = .kInp ∧ g.out = w}

section Instance
variable {nP : ℕ} {circ : Circuit BoolRing} {keySh : ℕ → BoolRing} {tp : BoolGates}
  {preproc : ℕ → BoolGates} {f ws : ℕ → BoolRing} {level : List (Gate BoolRing)}

/-- Valid preprocessing makes the shares of an opening a sharing, whatever the wires hold. -/
theorem BoolPreproc.sharesOf (hnP : 1 ≤ nP) (hpre : BoolPreproc nP keySh circ tp preproc)
    (f ws : ℕ → BoolRing) {g : Gate BoolRing} (hg : g ∈ circ.gates_) (ht : g.type ∈ multTypes) :
    SharesOf nP keySh (fun i => gateShare i ws (preproc i) g)
      ((tp g.out).secret + g.value f fun w => ws w - (tp w).secret) := by
  refine gateShare_authenticates hnP ws ht f (fun i hi hn w hw => ?_)
    (fun i hi hn => (hpre.agrees i hi hn g hg).ext) (hpre.opens g hg)
  have hwire : w < circ.size := by
    obtain rfl | hw := hw
    · exact circ.out_lt hg
    · exact ((circ.valid g hg).1 w hw).trans (circ.out_lt hg)
  obtain ⟨g', hg', rfl⟩ := (circ.mem_outs_iff w).mpr hwire
  exact (hpre.agrees i hi hn g' hg').mask

def maskedWire (circ : Circuit BoolRing) (tp : BoolGates) (f : ℕ → BoolRing) (w : ℕ) : BoolRing :=
  circ.value f w + (tp w).secret

theorem BoolPreproc.sum_gateShare (hnP : 1 ≤ nP) (hpre : BoolPreproc nP keySh circ tp preproc)
    {g : Gate BoolRing} (hg : g ∈ circ.gates_) (ht : g.type ∈ multTypes)
    (hin : ∀ w ∈ g.inputs, ws w = maskedWire circ tp f w) :
    ∑ i ∈ Finset.Icc 1 nP, (gateShare i ws (preproc i) g).value_ = maskedWire circ tp f g.out := by
  have hshares := (hpre.sharesOf hnP f ws hg ht).auth.opens
  have hvalue : g.value f (fun w => ws w - (tp w).secret) = circ.value f g.out := by
    rw [circ.value_eq _ hg]
    refine Gate.value_local f g _ _ fun w hw => ?_
    rw [hin w hw, maskedWire, add_sub_cancel_right]
  rw [hshares, hvalue, maskedWire, add_comm]

theorem BoolPreproc.levelWires_masked (hpre : BoolPreproc nP keySh circ tp preproc)
    (htypes : ∀ g ∈ circ.gates_, g.type = .kInp ∨ g.type.arithmetic)
    {seen : Set ℕ} (hlevel : ∀ g ∈ level, g ∈ circ.gates_) (hsched : Sched seen level)
    {opened : Gate BoolRing → BoolRing}
    (hopened : ∀ g ∈ level, g.type ∈ multTypes → opened g = maskedWire circ tp f g.out)
    (hws : ∀ w ∈ seen ∪ circ.inputSet, ws w = maskedWire circ tp f w) :
    ∀ w ∈ seen ∪ outs level ∪ circ.inputSet,
      levelWires (multOpened opened) level ws w = maskedWire circ tp f w := by
  refine levelWires_eq_union hsched hws (fun g hg v hv => ?_) fun g hg hn => ?_
  · have hgc := hlevel g hg
    have hmasked := linearGate_masked f (circ.value f) (fun w => (tp w).secret) hv
      (hpre.opens g hgc)
    rw [← circ.value_eq _ hgc] at hmasked
    exact Option.some.inj (hmasked.symm.trans hv)
  · obtain ht | ht := htypes g (hlevel g hg)
    · refine .inr ⟨?_, g, hlevel g hg, ht, rfl⟩
      rw [multOpened, if_neg (by rw [ht]; decide)]
    · have hmult := mult_of_linearGate hn ht
      exact .inl ((if_pos hmult).trans (congrArg some (hopened g hg hmult)))

end Instance

section Level
variable {nP m : ℕ} {circ : Circuit BoolRing} {keySh : ℕ → ℕ → BoolRing} {tp : ℕ → BoolGates}
  {vpreproc : ℕ → ℕ → BoolGates} {inputs : ℕ → ℕ → BoolRing} {level : List (Gate BoolRing)}

def maskedValue (circ : Circuit BoolRing) (tp : ℕ → BoolGates) (inputs : ℕ → ℕ → BoolRing)
    (i w : ℕ) : BoolRing :=
  circ.value (inputs i) w + (tp i w).secret

/-- All parties are at the same place of the common stream and hold the masked values of the input
wires and of the wires in `seen`. -/
structure BoolMasked (nP m : ℕ) (circ : Circuit BoolRing) (tp : ℕ → BoolGates)
    (inputs : ℕ → ℕ → BoolRing) (seen : Set ℕ) (s : ℕ → BoolEval) : Prop where
  stream : ∃ st, ∀ i ∈ parties nP, (s i).all_minus_0 = st
  wires : ∀ i ∈ parties nP, ∀ k < m, ∀ w ∈ seen ∪ circ.inputSet,
    (s i).vwires k w = maskedValue circ tp inputs k w

theorem sum_gateShare (hnP : 1 ≤ nP)
    (hpre : ∀ k < m, BoolPreproc nP (keySh k) circ (tp k) fun i => vpreproc i k)
    {s : ℕ → BoolEval} {seen : Set ℕ} (hs : BoolMasked nP m circ tp inputs seen s) {k : ℕ}
    (hk : k < m) {g : Gate BoolRing}
    (hg : g ∈ circ.gates_) (ht : g.type ∈ multTypes) (hin : ∀ w ∈ g.inputs, w ∈ seen) :
    ∑ i ∈ Finset.Icc 1 nP, (gateShare i ((s i).vwires k) (vpreproc i k) g).value_ =
      maskedValue circ tp inputs k g.out := by
  have hws : ∀ i ∈ parties nP, ∀ w ∈ g.inputs, (s i).vwires k w = maskedValue circ tp inputs k w :=
    fun i hi w hw => hs.wires i hi k hk w (.inl (hin w hw))
  have hsum : ∑ i ∈ Finset.Icc 1 nP,
      (gateShare i (maskedValue circ tp inputs k) (vpreproc i k) g).value_ =
        maskedValue circ tp inputs k g.out := (hpre k hk).sum_gateShare hnP hg ht fun w _ => rfl
  refine (Finset.sum_congr rfl fun i hi => ?_).trans hsum
  rw [gateShare_congr (hws i (mem_parties.mpr (Finset.mem_Icc.mp hi)))]

theorem boolAfterLevel_masked (hnP : 1 ≤ nP)
    (hpre : ∀ k < m, BoolPreproc nP (keySh k) circ (tp k) fun i => vpreproc i k)
    (htypes : ∀ g ∈ circ.gates_, g.type = .kInp ∨ g.type.arithmetic)
    {seen : Set ℕ} (hlevel : ∀ g ∈ level, g ∈ circ.gates_) (hsched : Sched seen level)
    (hlower : ∀ g ∈ level, g.type.interactive → ∀ w ∈ g.inputs, w ∈ seen)
    {s : ℕ → BoolEval} (hs : BoolMasked nP m circ tp inputs seen s) :
    BoolMasked nP m circ tp inputs (seen ∪ outs level) (boolAfterLevel nP m vpreproc level s) := by
  obtain ⟨st, hst⟩ := hs.stream
  have hzero : ∀ i ∈ parties nP, i ≠ 0 := fun i hi => by
    have := (mem_parties.mp hi).1
    omega
  refine ⟨⟨(boolPads nP (levelJobs m level) st).2, fun i hi => ?_⟩, fun i hi k hk => ?_⟩
  · rw [boolAfterLevel_eq s (hzero i hi), hst i hi]
  have hcomm : boolOpened nP m vpreproc level s = openedValues nP (boolTotal m level) fun i =>
      concat multTypes (batch paddedType (paddedJobs nP m level st)
        (paddedShare nP i (vpreproc i) (s i).vwires)) :=
    openedValues_congr fun j hj => by rw [boolComm, batch_boolPartySend, hst j hj]
  have hall : ∀ t ∈ multTypes,
      split (boolNum m level) multTypes (boolOpened nP m vpreproc level s) t =
        batch paddedType (paddedJobs nP m level st) (fun x =>
          ∑ i ∈ Finset.Icc 1 nP, paddedShare nP i (vpreproc i) (s i).vwires x) t := by
    intro t ht
    rw [hcomm, boolTotal, split_openedValues (by decide) (fun i _ t _ => by
      rw [length_batch, countP_paddedJobs]) ht, ← countP_paddedJobs st t, openedValues_batch]
  let opened : ℕ → Gate BoolRing → BoolRing := fun k g => maskedValue circ tp inputs k g.out
  have hopened : ∀ x ∈ paddedJobs nP m level st, paddedType x ∈ multTypes →
      (∑ i ∈ Finset.Icc 1 nP, paddedShare nP i (vpreproc i) (s i).vwires x) - x.2.sum =
        opened x.1.1 x.1.2 := by
    intro x hx ht
    have hjob : x.1 ∈ (paddedJobs nP m level st).map Prod.fst := List.mem_map_of_mem hx
    rw [paddedJobs_map_fst] at hjob
    obtain ⟨hk, hg⟩ := mem_levelJobs.mp hjob
    simp only [paddedShare, sum_padShare (length_of_mem_paddedJobs hx ht), add_sub_cancel_right]
    exact sum_gateShare hnP hpre hs hk (hlevel _ hg) ht (hlower _ hg (interactive_of_mult ht))
  have hwires : (boolAfterLevel nP m vpreproc level s i).vwires k =
      levelWires (multOpened (opened k)) level ((s i).vwires k) := by
    rw [boolAfterLevel_eq s (hzero i hi), hst i hi]
    exact (boolPartyRecv_eq hall rfl hopened (s i).vwires k).trans (if_pos hk)
  rw [hwires]
  exact (hpre k hk).levelWires_masked htypes hlevel hsched (fun _ _ _ => rfl) (hs.wires i hi k hk)

theorem foldl_boolAfterLevel_masked (hnP : 1 ≤ nP)
    (hpre : ∀ k < m, BoolPreproc nP (keySh k) circ (tp k) fun i => vpreproc i k)
    (htypes : ∀ g ∈ circ.gates_, g.type = .kInp ∨ g.type.arithmetic)
    (levels : List (List (Gate BoolRing))) (hlevels : ∀ g ∈ levels.flatten, g ∈ circ.gates_)
    {seen : Set ℕ} (hsched : LevelSched seen levels)
    {s : ℕ → BoolEval} (hs : BoolMasked nP m circ tp inputs seen s) :
    BoolMasked nP m circ tp inputs (seen ∪ outs levels.flatten)
      (levels.foldl (fun s level => boolAfterLevel nP m vpreproc level s) s) := by
  induction levels generalizing seen s with
  | nil => simpa using hs
  | cons l ls ih =>
    obtain ⟨hl, hlow, hls⟩ := hsched
    have hmem : ∀ g ∈ l, g ∈ circ.gates_ := fun g hg =>
      hlevels g (List.mem_append_left _ hg)
    have hstep := boolAfterLevel_masked hnP hpre htypes hmem hl hlow hs
    have hrest := ih (fun g hg => hlevels g (List.mem_append_right _ hg)) hls hstep
    rw [Set.union_assoc, ← outs_append] at hrest
    exact hrest

theorem boolAfterLevels_masked (hnP : 1 ≤ nP)
    (hpre : ∀ k < m, BoolPreproc nP (keySh k) circ (tp k) fun i => vpreproc i k)
    (htypes : ∀ g ∈ circ.gates_, g.type = .kInp ∨ g.type.arithmetic)
    {s : ℕ → BoolEval} (hs : BoolMasked nP m circ tp inputs ∅ s) :
    BoolMasked nP m circ tp inputs (outs circ.gates_)
      (boolAfterLevels nP m vpreproc circ.orderGatesByLevel s) := by
  have h := foldl_boolAfterLevel_masked hnP hpre htypes circ.orderGatesByLevel.gates_by_level
    (fun g hg => (circ.mem_levels g).mp hg) circ.levelSched hs
  rwa [Set.empty_union, circ.outs_levels] at h

end Level

/-- Batched evaluation: all parties get through it under every schedule, and then each of them holds
on every wire of every instance the value that plaintext evaluation gives it, masked. -/
theorem boolEval_correct (circ : Circuit BoolRing)
    (htypes : ∀ g ∈ circ.gates_, g.type = .kInp ∨ g.type.arithmetic) (nP : ℕ) (hnP : 1 ≤ nP)
    (m : ℕ) (keySh : ℕ → ℕ → BoolRing) (tp : ℕ → BoolGates) (vpreproc : ℕ → ℕ → BoolGates)
    (hpre : ∀ k < m, BoolPreproc nP (keySh k) circ (tp k) fun i => vpreproc i k)
    (all_minus_0 : Stream) (inputs : ℕ → ℕ → BoolRing) (vwires : ℕ → ℕ → ℕ → BoolRing)
    (hinputs : ∀ i, 1 ≤ i → i ≤ nP → ∀ k < m, ∀ g ∈ circ.gates_, g.type = .kInp →
      vwires i k g.out = inputs k g.out + (tp k g.out).secret) :
    ∃ r, Converges (Finset.range (nP + 1))
        (fun id => BoolEval.evaluateAllLevels nP id m (vpreproc id) circ.orderGatesByLevel
          ⟨all_minus_0, vwires id⟩) r ∧
      ∀ i, 1 ≤ i → i ≤ nP → ∀ k < m, ∃ wires,
        circ.evaluateWires (circ.assign (inputs k)) = .ok wires ∧
        ∀ w < circ.size, (r i).vwires k w = wires w + (tp k w).secret := by
  refine ⟨_, (boolEval_completes hnP m vpreproc circ.orderGatesByLevel
    fun id => ⟨all_minus_0, vwires id⟩).converges, fun i hi hn k hk => ?_⟩
  have hstart : BoolMasked nP m circ tp inputs ∅ fun id => ⟨all_minus_0, vwires id⟩ := by
    refine ⟨⟨all_minus_0, fun _ _ => rfl⟩, fun i hi k hk w hw => ?_⟩
    rw [Set.empty_union] at hw
    obtain ⟨g, hg, ht, rfl⟩ := hw
    obtain ⟨hi1, hin⟩ := mem_parties.mp hi
    refine (hinputs i hi1 hin k hk g hg ht).trans ?_
    rw [maskedValue, circ.value_eq _ hg, Gate.value_of_kInp ht]
  have hend := boolAfterLevels_masked hnP hpre htypes hstart
  obtain ⟨wires, hev, hval⟩ := circ.evaluateWires_eq (inputs k) fun g hg => by
    obtain h | h := htypes g hg
    · rw [h]
      decide
    · exact GateType.arithmetic_ne h
  refine ⟨wires, hev, fun w hw => ?_⟩
  rw [hend.wires i (mem_parties.mpr ⟨hi, hn⟩) k hk w (.inl ((circ.mem_outs_iff w).mpr hw)), hval w hw]
  rfl

/-! ## A conjunction of two parties -/

/-- A sharing of 1 among two parties; party 1 holds everything. -/
def shareOfOne : TPShare BoolRing := ⟨1, [0, 1, 0], [0, 1, 0], [0, 1, 0]⟩

def andCircuit : Circuit BoolRing := Circuit.built do
  let w0 ← Circuit.newInputWire
  let w1 ← Circuit.newInputWire
  let w2 ← Circuit.addGate2 .kMul w0 w1
  Circuit.setAsOutput w2

/-- What party `i` stores when all masks and their products are 1. -/
def andPreproc (i : ℕ) : BoolGates := fun w =>
  let m : MaskShare BoolRing := ⟨shareOfOne.getAAS i, if i = 0 then shareOfOne else default⟩
  ⟨m, if w = 2 then .mult m else .gate⟩

theorem andPreproc_valid :
    BoolPreproc 2 (fun i => i == 1) andCircuit (andPreproc 0) andPreproc := by
  have hgates : andCircuit.gates_ = [⟨.kInp, 0⟩, ⟨.kInp, 1⟩, ⟨.kMul 0 1, 2⟩] := rfl
  have hag : ∀ i ≠ 0, MaskShare.Agrees 2 (fun i => i == 1) i ⟨shareOfOne.getAAS 0, shareOfOne⟩
      ⟨shareOfOne.getAAS i, if i = 0 then shareOfOne else default⟩ := fun i _ =>
    ⟨⟨by decide, by decide, rfl, rfl, rfl, rfl, by decide⟩, rfl⟩
  refine ⟨fun i hi hn g hg => ?_, ?_⟩
  · refine ⟨hag i (by omega), ?_⟩
    rw [hgates] at hg
    simp only [List.mem_cons, List.not_mem_nil, or_false] at hg
    obtain rfl | rfl | rfl := hg
    · trivial
    · trivial
    · exact hag i (by omega)
  · rw [hgates]
    simp only [List.mem_cons, List.not_mem_nil, or_false, forall_eq_or_imp, forall_eq]
    exact ⟨trivial, trivial, _, rfl, rfl⟩

/-- Two instances of a conjunction, with inputs 1, 0 and 1, 1. -/
theorem boolEval_correct_and :
    ∃ r, Converges (Finset.range 3)
        (fun id => BoolEval.evaluateAllLevels 2 id 2 (fun _ => andPreproc id)
          andCircuit.orderGatesByLevel
          ⟨⟨fun _ _ => 1, []⟩, fun k w => (k == 1 || w == 0) + 1⟩) r ∧
      ∀ i, 1 ≤ i → i ≤ 2 → ∀ k < 2, ∃ wires,
        andCircuit.evaluateWires (andCircuit.assign fun w => k == 1 || w == 0) = .ok wires ∧
        ∀ w < 3, (r i).vwires k w = wires w + (andPreproc 0 w).secret := by
  exact boolEval_correct andCircuit (by decide) 2 (by decide) 2 (fun _ i => i == 1)
    (fun _ => andPreproc 0) (fun i _ => andPreproc i) (fun _ _ => andPreproc_valid)
    ⟨fun _ _ => 1, []⟩ (fun k w => k == 1 || w == 0) (fun _ k w => (k == 1 || w == 0) + 1)
    fun _ _ _ _ _ _ _ _ => rfl

end QSync
