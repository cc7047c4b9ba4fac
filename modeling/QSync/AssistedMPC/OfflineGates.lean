import QSync.Asterisk.OfflineGates
import QSync.AssistedMPC.OfflineShares

/-! # The two walks over the circuit

`helperGates_coupled`: gate by gate, what party `i` takes out of its vectors is its component of what
the trusted party stores. `helperGates_taped`: the secrets of the masks are those of `masks`, a walk
over the elements the trusted party draws from `self`. What the trusted party stores for a gate is
`Stored`; it is what a gate has to open to (`Opens`) except at `kMul3` gates, where all four sharings
are of the product of the first two masks.
-/

namespace QSync.AssistedMPC
open Network
set_option autoImplicit false
set_option maxHeartbeats 250000

/-! ## Three masks -/

/-- All products of the three masks are that of the first two. -/
structure SameProducts {K : Type} [Mul K] (a b c : K) : Prop where
  ac : a * c = a * b
  bc : b * c = a * b
  abc : a * b * c = a * b

/-- Without zero divisors that is so when two of the masks are zero, or all are one. -/
theorem sameProducts_iff {K : Type} [CommRing K] [NoZeroDivisors K] {a b c : K} :
    SameProducts a b c ↔
      a = 0 ∧ b = 0 ∨ a = 0 ∧ c = 0 ∨ b = 0 ∧ c = 0 ∨ a = 1 ∧ b = 1 ∧ c = 1 := by
  constructor
  · rintro ⟨hac, hbc, habc⟩
    by_cases ha : a = 0
    · subst ha
      rw [zero_mul, mul_eq_zero] at hbc
      exact hbc.elim (fun hb => .inl ⟨rfl, hb⟩) fun hc => .inr (.inl ⟨rfl, hc⟩)
    · have hcb : c = b := mul_left_cancel₀ ha hac
      subst hcb
      by_cases hc : c = 0
      · exact .inr (.inr (.inl ⟨hc, hc⟩))
      · have hca : c = a := mul_right_cancel₀ hc hbc
        subst hca
        have hone : c = 1 := mul_left_cancel₀ (mul_ne_zero ha hc) (habc.trans (mul_one _).symm)
        exact .inr (.inr (.inr ⟨hone, hone, hone⟩))
  · rintro (⟨rfl, rfl⟩ | ⟨rfl, rfl⟩ | ⟨rfl, rfl⟩ | ⟨rfl, rfl, rfl⟩) <;> constructor <;> simp

variable {R : Type} [RandomRing R]

/-- The gate types the walks handle. -/
def handles : GateType → Bool
  | .kInp | .kAdd | .kSub | .kConstAdd | .kConstMul | .kMul | .kMul3 => true
  | _ => false

/-! ## What is stored for a gate -/

/-- With the masks `δ` on the other wires, what the trusted party stores for a gate opens to. -/
def Stored (δ : ℕ → R) (op : Op R) (pregate : PreprocGate R Empty) : Prop :=
  match op with
  | .kMul3 a b _ => ∃ m, pregate.ext = .mult3 m ∧
      m.map MaskShare.secret = ⟨δ a * δ b, δ a * δ b, δ a * δ b, δ a * δ b⟩
  | op => Opens δ op pregate

theorem stored_iff {δ : ℕ → R} {op : Op R} {pregate : PreprocGate R Empty}
    (ht : op.type ≠ .kMul3) : Stored δ op pregate ↔ Opens δ op pregate := by
  cases op <;> first | rfl | exact absurd rfl ht

theorem Stored.congr {δ δ' : ℕ → R} {op : Op R} {pregate : PreprocGate R Empty}
    (h : Stored δ op pregate) (hδ : ∀ w ∈ op.inputs, δ w = δ' w) : Stored δ' op pregate := by
  by_cases ht : op.type = .kMul3
  · cases op with
    | kMul3 a b c =>
      have ha : δ a = δ' a := hδ a (by simp [Op.inputs])
      have hb : δ b = δ' b := hδ b (by simp [Op.inputs])
      simpa only [Stored, ha, hb] using h
    | _ => cases ht
  · exact (stored_iff ht).mpr (((stored_iff ht).mp h).congr hδ)

/-- What is stored for a gate opens to what it has to, unless it is a `kMul3` gate on masks whose
products differ. -/
theorem Stored.opens_iff {δ : ℕ → R} {op : Op R} {pregate : PreprocGate R Empty}
    (h : Stored δ op pregate) :
    Opens δ op pregate ↔ ∀ a b c, op = .kMul3 a b c → SameProducts (δ a) (δ b) (δ c) := by
  cases op with
  | kMul3 a b c =>
    obtain ⟨m, hm, hs⟩ := h
    constructor
    · rintro ⟨m', hm', hs'⟩ a' b' c' ⟨⟩
      obtain rfl : m = m' := by simpa using hm.symm.trans hm'
      obtain ⟨-, hac, hbc, habc⟩ := (Mult3Masks.mk.injEq ..).mp (hs'.symm.trans hs)
      exact ⟨hac, hbc, habc⟩
    · intro hsame
      obtain ⟨hac, hbc, habc⟩ := hsame a b c rfl
      exact ⟨m, hm, by rw [hs, Mult3Masks.products, hac, hbc, habc]⟩
  | _ => exact ⟨fun _ _ _ _ he => (by cases he), fun _ => h⟩

/-! ## Both walks at one gate -/

section Coupled
variable {nP i : ℕ} {Q : QueueName → List R} {f : ℕ → R} {key : R} {keySh : List R}

/-- What holds of the preprocessing of one gate at the trusted party and at party `i`. -/
structure Good (nP : ℕ) (f : ℕ → R) (i : ℕ) (input_pid_map : ℕ → ℕ) (c d : PreprocGates R Empty)
    (g : Gate R) : Prop where
  agrees : PreprocGate.Agrees nP f i noComparison (c g.out) (d g.out)
  stored : Stored (fun w => (c w).secret) g.op (c g.out)
  /-- Party `i` holds the masks of its own inputs. -/
  dealt : g.type = .kInp → (c g.out).ext = .input (input_pid_map g.out) (c g.out).secret ∧
    (d g.out).ext = .input (input_pid_map g.out)
      (if input_pid_map g.out = i then (c g.out).secret else 0)

theorem Good.congr {ipm : ℕ → ℕ} {c d c' d' : PreprocGates R Empty} {g : Gate R} {W : Set ℕ}
    (h : Good nP f i ipm c d g) (hc : ∀ w ∈ W, c' w = c w) (hd : ∀ w ∈ W, d' w = d w)
    (hout : g.out ∈ W) (hin : ∀ w ∈ g.inputs, w ∈ W) : Good nP f i ipm c' d' g := by
  refine ⟨?_, ?_, ?_⟩
  · rw [hc _ hout, hd _ hout]
    exact h.agrees
  · rw [hc _ hout]
    exact h.stored.congr fun w hw => by rw [hc _ (hin w hw)]
  · rw [hc _ hout, hd _ hout]
    exact h.dealt

def StepPost (nP : ℕ) (f : ℕ → R) (i : ℕ) (ipm : ℕ → ℕ) (c d : PreprocGates R Empty) (g : Gate R)
    (c' d' : PreprocGates R Empty) : Prop :=
  ∃ pc pd, c' = Function.update c g.out pc ∧ d' = Function.update d g.out pd ∧
    PreprocGate.Agrees nP f i noComparison pc pd ∧ Stored (fun w => (c w).secret) g.op pc ∧
    (g.type = .kInp → pc.ext = .input (ipm g.out) pc.secret ∧
      pd.ext = .input (ipm g.out) (if ipm g.out = i then pc.secret else 0))

theorem helperGate_grows (hi : 1 ≤ i) (hn : i ≤ nP) (hk : KeysOk nP f key keySh) (ipm : ℕ → ℕ)
    (c : PreprocGates R Empty) (g : Gate R) :
    (reading i Q).Grows (helperGate nP key keySh ipm c g) := by
  have hmask := (randomShare_coupled (Q := Q) hi hn hk).grows
  have hsec : ∀ x, (reading i Q).Grows (randomShareSecret_Helper .rand_sh_sec nP x key keySh) :=
    fun x => (randomShareSecret_coupled hi hn hk .rand_sh_sec x).grows
  obtain ⟨op, out⟩ := g
  cases op with
  | kInp =>
    refine Coupling.Grows.bind ?_ fun _ => .pure _
    by_cases hd : i = ipm out
    · exact hd ▸ (randomShareWithParty_Dealer_coupled hi hn hk).grows
    · exact (randomShareWithParty_Party_coupled hi hn hk hd).grows
  | kMul a b => exact hmask.bind fun _ => (hsec _).bind fun _ => .pure _
  | kMul3 a b d =>
    exact hmask.bind fun _ => (hsec _).bind fun _ => (hsec _).bind fun _ => (hsec _).bind fun _ =>
      (hsec _).bind fun _ => .pure _
  | _ => exact .pure _

def linear : GateType → Bool
  | .kAdd | .kSub | .kConstAdd | .kConstMul => true
  | _ => false

theorem linearGate_agrees (hi : 1 ≤ i) (hn : i ≤ nP) {c d : PreprocGates R Empty} {op : Op R}
    (ht : linear op.type)
    (hin : ∀ w ∈ op.inputs, MaskShare.Agrees nP f i (c w).mask (d w).mask) :
    ∃ pc pd, linearGate c op = some pc ∧ linearGate d op = some pd ∧
      PreprocGate.Agrees nP f i noComparison pc pd ∧ Opens (fun w => (c w).secret) op pc := by
  cases op with
  | kAdd a b =>
    obtain ⟨hag, hs⟩ := (hin a (by simp [Op.inputs])).add hi hn (hin b (by simp [Op.inputs]))
    exact ⟨_, _, rfl, rfl, ⟨hag, trivial⟩, hs⟩
  | kSub a b =>
    obtain ⟨hag, hs⟩ := (hin a (by simp [Op.inputs])).sub hi hn (hin b (by simp [Op.inputs]))
    exact ⟨_, _, rfl, rfl, ⟨hag, trivial⟩, hs⟩
  | kConstAdd a cval =>
    exact ⟨_, _, rfl, rfl, ⟨hin a (by simp [Op.inputs]), trivial⟩, rfl⟩
  | kConstMul a cval =>
    obtain ⟨hag, hs⟩ := (hin a (by simp [Op.inputs])).mul hi hn cval
    exact ⟨_, _, rfl, rfl, ⟨hag, trivial⟩, hs⟩
  | _ => cases ht

theorem helperGate_of_linear (ipm : ℕ → ℕ) (c : PreprocGates R Empty) {g : Gate R}
    (ht : linear g.type) :
    helperGate nP key keySh ipm c g = pure (setGate c g.out (linearGate c g.op)) := by
  obtain ⟨op, out⟩ := g
  cases op <;> first | rfl | cases ht

theorem partyGate_of_linear (ipm : ℕ → ℕ) (d : PreprocGates R Empty) {g : Gate R}
    (ht : linear g.type) :
    partyGate i key ipm d g = pure (setGate d g.out (linearGate d g.op)) := by
  obtain ⟨op, out⟩ := g
  cases op <;> first | rfl | cases ht

/-- The four sharings of a `kMul3` gate, as the trusted party makes them. -/
def shareFour (nP : ℕ) (x key : R) (keySh : List R) : Helper R (Mult3Masks (MaskShare R)) := do
  let mask_ab ← randomShareSecret_Helper .rand_sh_sec nP x key keySh
  let mask_ac ← randomShareSecret_Helper .rand_sh_sec nP x key keySh
  let mask_bc ← randomShareSecret_Helper .rand_sh_sec nP x key keySh
  let mask_abc ← randomShareSecret_Helper .rand_sh_sec nP x key keySh
  pure ⟨mask_ab, mask_ac, mask_bc, mask_abc⟩

/-- The four sharings of a `kMul3` gate, as a party takes them. -/
def takeFour (key : R) : Draw R (Mult3Masks (MaskShare R)) := do
  let mask_ab ← randomShareSecret_Party key
  let mask_ac ← randomShareSecret_Party key
  let mask_bc ← randomShareSecret_Party key
  let mask_abc ← randomShareSecret_Party key
  pure ⟨mask_ab, mask_ac, mask_bc, mask_abc⟩

theorem helperGate_kMul3 (ipm : ℕ → ℕ) (c : PreprocGates R Empty) (a b e out : ℕ) :
    helperGate nP key keySh ipm c ⟨.kMul3 a b e, out⟩ =
      randomShare_Helper nP key keySh >>= fun rand_mask =>
        shareFour nP ((c a).secret * (c b).secret) key keySh >>= fun masks =>
          pure (Function.update c out ⟨rand_mask, .mult3 masks⟩) := rfl

theorem partyGate_kMul3 (ipm : ℕ → ℕ) (d : PreprocGates R Empty) (a b e out : ℕ) :
    partyGate i key ipm d ⟨.kMul3 a b e, out⟩ =
      randomShare_Party .rand_sh key >>= fun rand_mask => takeFour key >>= fun masks =>
        pure (Function.update d out ⟨rand_mask, .mult3 masks⟩) := rfl

theorem shareFour_coupled (hi : 1 ≤ i) (hn : i ≤ nP) (hk : KeysOk nP f key keySh) (x : R) :
    (reading i Q).Coupled (shareFour nP x key keySh) (takeFour (f i)) fun m m' =>
      Mult3Masks.All (MaskShare.Agrees nP f i) m m' ∧ m.map MaskShare.secret = ⟨x, x, x, x⟩ := by
  have h := randomShareSecret_coupled (Q := Q) hi hn hk .rand_sh_sec x
  have g := h.grows
  refine h.bind (fun _ => g.bind fun _ => g.bind fun _ => g.bind fun _ => .pure _) fun _ _ h1 => ?_
  refine h.sim.bind (fun _ => g.bind fun _ => g.bind fun _ => .pure _) fun _ _ h2 => ?_
  refine h.sim.bind (fun _ => g.bind fun _ => .pure _) fun _ _ h3 => ?_
  refine h.sim.bind (fun _ => .pure _) fun _ _ h4 => .pure ⟨⟨h1.1, h2.1, h3.1, h4.1⟩, ?_⟩
  simp only [Mult3Masks.map, h1.2, h2.2, h3.2, h4.2]

theorem gate_coupled (hi : 1 ≤ i) (hn : i ≤ nP) (hk : KeysOk nP f key keySh) (ipm : ℕ → ℕ)
    (c d : PreprocGates R Empty) {g : Gate R} (ht : handles g.type)
    (hin : ∀ w ∈ g.inputs, MaskShare.Agrees nP f i (c w).mask (d w).mask) :
    (reading i Q).Sim (helperGate nP key keySh ipm c g) (partyGate i (f i) ipm d g)
      (StepPost nP f i ipm c d g) := by
  have hmask := randomShare_coupled (Q := Q) hi hn hk
  have hsec := fun x => randomShareSecret_coupled (Q := Q) hi hn hk .rand_sh_sec x
  by_cases hl : linear g.type
  · rw [helperGate_of_linear ipm c hl, partyGate_of_linear ipm d hl]
    obtain ⟨pc, pd, hc, hd, hag, hop⟩ := linearGate_agrees hi hn hl hin
    have hne : g.type ≠ .kMul3 ∧ g.type ≠ .kInp := by
      constructor <;> intro h <;> rw [h] at hl <;> cases hl
    rw [hc, hd]
    exact .pure ⟨pc, pd, rfl, rfl, hag, (stored_iff hne.1).mpr hop, fun h => absurd h hne.2⟩
  · obtain ⟨op, out⟩ := g
    cases op with
    | kInp =>
      by_cases hd : i = ipm out
      · have hparty : partyGate i (f i) ipm d ⟨.kInp, out⟩ =
            randomShareWithParty_Dealer (f i) >>= fun b =>
              pure (Function.update d out ⟨b.1, .input (ipm out) b.2⟩) := if_pos hd
        have hdeal : (reading i Q).Coupled (randomShareWithParty_Helper nP (ipm out) key keySh)
            (randomShareWithParty_Dealer (f i)) fun a b =>
              MaskShare.Agrees nP f i a b.1 ∧ b.2 = a.secret := by
          rw [← hd]
          exact randomShareWithParty_Dealer_coupled hi hn hk
        rw [hparty]
        refine hdeal.sim.bind (fun _ => .pure _) fun a b hab => .pure ?_
        refine ⟨_, _, rfl, rfl, ⟨hab.1, rfl, fun _ => hab.2⟩, trivial, fun _ => ⟨rfl, ?_⟩⟩
        rw [if_pos hd.symm, hab.2]
        rfl
      · have hparty : partyGate i (f i) ipm d ⟨.kInp, out⟩ =
            randomShareWithParty_Party (f i) >>= fun mask =>
              pure (Function.update d out ⟨mask, .input (ipm out) 0⟩) := if_neg hd
        rw [hparty]
        refine (randomShareWithParty_Party_coupled hi hn hk hd).sim.bind (fun _ => .pure _)
          fun a b hab => .pure ?_
        refine ⟨_, _, rfl, rfl, ⟨hab, rfl, fun h => absurd h.symm hd⟩, trivial,
          fun _ => ⟨rfl, ?_⟩⟩
        rw [if_neg fun h => hd h.symm]
    | kMul a b =>
      refine hmask.sim.bind (fun _ => (hsec _).grows.bind fun _ => .pure _) fun ma mb hm =>
        (hsec _).sim.bind (fun _ => .pure _) fun pa pb hp => .pure ?_
      exact ⟨_, _, rfl, rfl, ⟨hm, hp.1⟩, ⟨_, rfl, hp.2⟩, fun h => by cases h⟩
    | kMul3 a b e =>
      have hfour := shareFour_coupled (Q := Q) hi hn hk ((c a).secret * (c b).secret)
      rw [helperGate_kMul3, partyGate_kMul3]
      refine hmask.sim.bind (fun _ => hfour.grows.bind fun _ => .pure _) fun ma mb hm =>
        hfour.sim.bind (fun _ => .pure _) fun pa pb hp => .pure ?_
      exact ⟨_, _, rfl, rfl, ⟨hm, hp.1⟩, ⟨_, rfl, hp.2⟩, fun h => by cases h⟩
    | _ => first | exact absurd rfl hl | cases ht

theorem helperGates_coupled (hi : 1 ≤ i) (hn : i ≤ nP) (hk : KeysOk nP f key keySh) (ipm : ℕ → ℕ)
    (circ : Circuit R) (htypes : ∀ g ∈ circ.gates_, handles g.type) :
    (reading i Q).Coupled (helperGates nP key keySh ipm circ.orderGatesByLevel)
      (partyGates i (f i) ipm circ.orderGatesByLevel)
      fun c d => ∀ g ∈ circ.gates_, Good nP f i ipm c d g := by
  simp only [helperGates, partyGates, foldlM_flatten]
  refine gatesLoop _ circ (Good nP f i ipm) (fun c g => helperGate_grows hi hn hk ipm c g)
    (fun h hc hd hout hin => h.congr hc hd hout hin) (fun c d x hx hgood hself => ?_) _ _
  intro s t hr hok
  obtain ⟨hr', pc, pd, hc, hd, hag, hst, hdeal⟩ := gate_coupled hi hn hk ipm c d (htypes x hx)
    (fun w hw => by
      obtain ⟨g, hg, rfl⟩ := hgood w hw
      exact hg.agrees.mask) s t hr hok
  have hkeep : ∀ w ∈ x.inputs, Function.update c x.out pc w = c w := fun w hw =>
    Function.update_of_ne (fun e : w = x.out => hself (e ▸ hw)) _ _
  refine ⟨hr', pc, pd, hc, hd, ?_, ?_, ?_⟩
  · rw [hc, hd, Function.update_self, Function.update_self]
    exact hag
  · rw [hc, Function.update_self]
    exact hst.congr fun w hw => by rw [hkeep w hw]
  · rw [hc, hd, Function.update_self, Function.update_self]
    exact hdeal

end Coupled

/-! ## The masks, from the elements of `self` -/

/-- The mask of the output wire of a gate: the next element of the tape, behind which the elements of
the gate's sharings are passed over, or a combination of masks there already are. -/
def maskGate (nP : ℕ) (elems δ : ℕ → R) (gate : Gate R) : StateM ℕ (ℕ → R) :=
  match gate.op with
  | .kAdd a b => pure (Function.update δ gate.out (δ a + δ b))
  | .kSub a b => pure (Function.update δ gate.out (δ a - δ b))
  | .kConstAdd a _ => pure (Function.update δ gate.out (δ a))
  | .kConstMul a cval => pure (Function.update δ gate.out (δ a * cval))
  | .kInp => do
    let x ← takeShared nP elems
    pure (Function.update δ gate.out x)
  | .kMul _ _ => do
    let x ← takeShared nP elems
    passShare nP
    pure (Function.update δ gate.out x)
  | .kMul3 _ _ _ => do
    let x ← takeShared nP elems
    passShare nP
    passShare nP
    passShare nP
    passShare nP
    pure (Function.update δ gate.out x)
  | _ => pure δ

/-- The masks of the wires of a circuit. -/
def masks (nP : ℕ) (elems : ℕ → R) (circ : LevelOrderedCircuit R) : ℕ → R :=
  (circ.gates_by_level.flatten.foldlM (maskGate nP elems) (fun _ => 0) 0).1

section Taped
variable {nP : ℕ} {self : Stream} {f : ℕ → R} {key : R} {keySh : List R}

/-- What the trusted party stores is valid and opens to the mask. -/
def Masked (nP : ℕ) (f : ℕ → R) (a : PreprocGate R Empty) (x : R) : Prop :=
  a.mask.tp.Valid nP f ∧ a.secret = x

theorem linearGate_masked (hn : 1 ≤ nP) {c : PreprocGates R Empty} {δ : ℕ → R} {op : Op R}
    (ht : linear op.type) (hin : ∀ w ∈ op.inputs, Masked nP f (c w) (δ w)) :
    ∃ pc, linearGate c op = some pc ∧ pc.mask.tp.Valid nP f ∧ Opens δ op pc := by
  -- the shares of party 1, which the walk of the trusted party does not look at
  let d : PreprocGates R Empty := fun w => ⟨⟨(c w).mask.tp.getAAS 1, default⟩, .gate⟩
  have hd : ∀ w ∈ op.inputs, MaskShare.Agrees nP f 1 (c w).mask (d w).mask :=
    fun w hw => ⟨(hin w hw).1, rfl⟩
  obtain ⟨pc, _, hc, -, hag, hop⟩ := linearGate_agrees le_rfl hn ht hd
  exact ⟨pc, hc, hag.mask.valid, hop.congr fun w hw => (hin w hw).2⟩

theorem maskGate_of_linear (elems δ : ℕ → R) {g : Gate R} (ht : linear g.type)
    {pc : PreprocGate R Empty} (hop : Opens δ g.op pc) :
    maskGate nP elems δ g = pure (Function.update δ g.out pc.secret) := by
  obtain ⟨op, out⟩ := g
  cases op with
  | kAdd a b => rw [hop]; rfl
  | kSub a b => rw [hop]; rfl
  | kConstAdd a cval => rw [hop]; rfl
  | kConstMul a cval => rw [hop]; rfl
  | _ => cases ht

theorem gate_taped (hn : 1 ≤ nP) (hk : KeysOk nP f key keySh) (ipm : ℕ → ℕ)
    (c : PreprocGates R Empty) (δ : ℕ → R) {g : Gate R} (ht : handles g.type)
    (hin : ∀ w ∈ g.inputs, Masked nP f (c w) (δ w)) :
    (taping R self).Sim (helperGate nP key keySh ipm c g) (maskGate nP (tape self) δ g)
      fun c' δ' => ∃ pc x, c' = Function.update c g.out pc ∧ δ' = Function.update δ g.out x ∧
        Masked nP f pc x := by
  have hsec : ∀ q x, (taping R self).Sim (randomShareSecret_Helper q nP x key keySh) (passShare nP)
      fun a _ => a.tp.Valid nP f ∧ a.secret = x := fun q x => randomShareSecret_taped hn hk q x
  have hg : ∀ {α : Type} (m : Helper R α), (taping R self).Grows m := fun m => taping_grows m
  by_cases hl : linear g.type
  · obtain ⟨pc, hc, hvalid, hop⟩ := linearGate_masked hn hl hin
    rw [helperGate_of_linear ipm c hl, maskGate_of_linear _ δ hl hop, hc]
    exact .pure ⟨pc, _, rfl, rfl, hvalid, rfl⟩
  · obtain ⟨op, out⟩ := g
    cases op with
    | kInp =>
      exact (randomShareWithParty_taped hn hk _).bind (fun _ => hg _) fun a x h =>
        .pure ⟨_, x, rfl, rfl, h⟩
    | kMul a b =>
      refine (randomShare_taped hn hk).bind (fun _ => hg _) fun ma x hm => ?_
      exact (hsec _ _).bind (fun _ => hg _) fun _ _ _ => .pure ⟨_, x, rfl, rfl, hm⟩
    | kMul3 a b e =>
      refine (randomShare_taped hn hk).bind (fun _ => hg _) fun ma x hm => ?_
      refine (hsec _ _).bind (fun _ => hg _) fun _ _ _ => ?_
      refine (hsec _ _).bind (fun _ => hg _) fun _ _ _ => ?_
      refine (hsec _ _).bind (fun _ => hg _) fun _ _ _ => ?_
      exact (hsec _ _).bind (fun _ => hg _) fun _ _ _ => .pure ⟨_, x, rfl, rfl, hm⟩
    | _ => first | exact absurd rfl hl | cases ht

theorem helperGates_taped (hn : 1 ≤ nP) (hk : KeysOk nP f key keySh) (ipm : ℕ → ℕ)
    (circ : Circuit R) (htypes : ∀ g ∈ circ.gates_, handles g.type) (s : HelperState R) :
    ∀ g ∈ circ.gates_, ((helperGates nP key keySh ipm circ.orderGatesByLevel s).1 g.out).secret =
      masks nP (tape (s.rgen .self)) circ.orderGatesByLevel g.out := by
  have hloop : (taping R (s.rgen .self)).Coupled
      (circ.orderGatesByLevel.gates_by_level.flatten.foldlM (helperGate nP key keySh ipm)
        fun _ => default)
      (circ.orderGatesByLevel.gates_by_level.flatten.foldlM (maskGate nP (tape (s.rgen .self)))
        fun _ => 0) _ := gatesLoop _ circ (fun c δ g =>
    Masked nP f (c g.out) (δ g.out)) (fun _ _ => taping_grows _)
    (fun h hc hd hout _ => by rwa [hc _ hout, hd _ hout]) (fun c δ x hx hgood hself => ?_) _ _
  · simp only [helperGates, foldlM_flatten]
    exact fun g hg => ((hloop.sim s 0 rfl trivial).2 g hg).2
  · intro t pos hr hok
    obtain ⟨hr', pc, y, hc, hd, hmasked⟩ := gate_taped hn hk ipm c δ (htypes x hx) (fun w hw => by
      obtain ⟨g, hg, rfl⟩ := hgood w hw
      exact hg) t pos hr hok
    refine ⟨hr', pc, y, hc, hd, ?_⟩
    rw [hc, hd, Function.update_self, Function.update_self]
    exact hmasked

end Taped

end QSync.AssistedMPC
