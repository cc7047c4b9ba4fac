import QSync.Asterisk.Mpc

/-! # What the openings of the online phase reveal

The wires carry values plus masks. For other inputs of one party that lead to the same outputs there is
other preprocessing, which differs in the shares of that party and in the copies of the trusted party only,
under which the parties see the same masked values, open the same shares and end with the same results
(`openings_hide`). Going back again gives the old preprocessing, so that a choice of preprocessing which
is uniform leaves the views of the others the same distribution for both inputs.
-/

namespace QSync
open Network AuthSharing
set_option autoImplicit false
set_option maxHeartbeats 250000

/-! ## Shares of another secret -/

attribute [ext] AuthAddShare

section Shares
variable {R : Type} [CommRing R]

/-- `e` is added to the shared value; `key` is the sum of the key shares. -/
def AuthAddShare.shift (key e : R) (s : AuthAddShare R) : AuthAddShare R :=
  ⟨s.key_sh_, s.value_ + e, s.tag_ + key * e⟩

/-- The copy of the trusted party when party `j` adds `e`. -/
def TPShare.shift (j : ℕ) (e : R) (s : TPShare R) : TPShare R where
  key_ := s.key_
  key_sh_ := s.key_sh_
  values_ := s.values_.modify j (· + e)
  tags_ := s.tags_.modify j (· + s.key_ * e)

/-- What party `id` stores when party `j` adds `e`. -/
def MaskShare.shift (key : R) (j id : ℕ) (e : R) (m : MaskShare R) : MaskShare R :=
  if id = 0 then ⟨m.sh, m.tp.shift j e⟩ else if id = j then ⟨m.sh.shift key e, m.tp⟩ else m

variable {nP i j : ℕ} {keySh : ℕ → R}

theorem getD_modify (l : List R) (f : R → R) (i j : ℕ) (hj : j < l.length) :
    (l.modify j f).getD i 0 = if i = j then f (l.getD i 0) else l.getD i 0 := by
  rw [List.getD_eq_getElem?_getD, List.getElem?_modify, List.getD_eq_getElem?_getD]
  by_cases h : i = j
  · subst h
    simp [hj]
  · simp [h, Ne.symm h]

theorem TPShare.Valid.shift {s : TPShare R} (h : s.Valid nP keySh) (hj : j ∈ Finset.Icc 1 nP) (e : R) :
    (s.shift j e).Valid nP keySh ∧ (s.shift j e).secret = s.secret + e := by
  obtain ⟨h1, hn⟩ := Finset.mem_Icc.mp hj
  have hvalues : ∀ i, (s.shift j e).values_.getD i 0 =
      if i = j then s.values_.getD i 0 + e else s.values_.getD i 0 := fun i =>
    getD_modify _ _ _ _ (by rw [h.values_length]; omega)
  have htags : ∀ i, (s.shift j e).tags_.getD i 0 =
      if i = j then s.tags_.getD i 0 + s.key_ * e else s.tags_.getD i 0 := fun i =>
    getD_modify _ _ _ _ (by rw [h.tags_length]; omega)
  have h0 : 0 ≠ j := by omega
  refine TPShare.Valid.of_authenticates h.key_eq h.key_sh_eq ?_ ?_ ?_ ?_ ?_
  · exact (List.length_modify ..).trans h.values_length
  · exact (List.length_modify ..).trans h.tags_length
  · rw [hvalues, if_neg h0, h.value_zero]
  · rw [htags, if_neg h0, h.tag_zero]
  · simp only [hvalues, htags, h.key_eq]
    exact h.authenticates.shift hj e

theorem MaskShare.Agrees.shift {a b : MaskShare R} (h : Agrees nP keySh i a b) (hi : i ≠ 0)
    (hj : j ∈ Finset.Icc 1 nP) (e : R) :
    Agrees nP keySh i (a.shift (∑ i ∈ Finset.Icc 1 nP, keySh i) j 0 e)
      (b.shift (∑ i ∈ Finset.Icc 1 nP, keySh i) j i e) where
  valid := (h.valid.shift hj e).1
  share_eq := by
    obtain ⟨h1, hn⟩ := Finset.mem_Icc.mp hj
    have hvalues := getD_modify a.tp.values_ (· + e) i j (by rw [h.valid.values_length]; omega)
    have htags := getD_modify a.tp.tags_ (· + a.tp.key_ * e) i j (by rw [h.valid.tags_length]; omega)
    rw [MaskShare.shift, MaskShare.shift, if_pos rfl, if_neg hi, TPShare.shift, TPShare.getAAS, hvalues,
      htags, h.valid.key_eq]
    by_cases hij : i = j
    · rw [if_pos hij, if_pos hij, if_pos hij, AuthAddShare.shift, h.share_eq, TPShare.getAAS]
    · rw [if_neg hij, if_neg hij, if_neg hij, h.share_eq, TPShare.getAAS]

theorem MaskShare.secret_shift {a : MaskShare R} (h : a.tp.Valid nP keySh) (hj : j ∈ Finset.Icc 1 nP)
    (key e : R) : (a.shift key j 0 e).secret = a.secret + e := by
  rw [MaskShare.shift, if_pos rfl]
  exact (h.shift hj e).2

theorem modify_add_cancel (l : List R) (j : ℕ) (a : R) :
    (l.modify j (· + a)).modify j (· + -a) = l := by
  apply List.ext_getElem?
  intro i
  rw [List.getElem?_modify, List.getElem?_modify]
  cases l[i]? with
  | none => rfl
  | some x => by_cases h : j = i <;> simp [h]

/-- Adding `-e` takes `e` off again. -/
theorem MaskShare.shift_cancel (key : R) (j id : ℕ) (e : R) (m : MaskShare R) :
    (m.shift key j id e).shift key j id (-e) = m := by
  unfold MaskShare.shift
  by_cases h0 : id = 0
  · simp only [if_pos h0, TPShare.shift, mul_neg, modify_add_cancel]
  · by_cases hj : id = j
    · simp only [if_neg h0, if_pos hj, AuthAddShare.shift, mul_neg, add_neg_cancel_right]
    · simp only [if_neg h0, if_neg hj]

end Shares

/-! ## Preprocessed gates for other masks -/

section Gates
variable {R X : Type} [CircuitRing R]

def Mult3Masks.zipWith {S T U : Type} (f : S → T → U) (m : Mult3Masks S) (m' : Mult3Masks T) :
    Mult3Masks U :=
  ⟨f m.mask_ab m'.mask_ab, f m.mask_ac m'.mask_ac, f m.mask_bc m'.mask_bc, f m.mask_abc m'.mask_abc⟩

def Mult4Masks.zipWith {S T U : Type} (f : S → T → U) (m : Mult4Masks S) (m' : Mult4Masks T) :
    Mult4Masks U :=
  ⟨f m.mask_ab m'.mask_ab, f m.mask_ac m'.mask_ac, f m.mask_ad m'.mask_ad, f m.mask_bc m'.mask_bc,
    f m.mask_bd m'.mask_bd, f m.mask_cd m'.mask_cd, f m.mask_abc m'.mask_abc, f m.mask_abd m'.mask_abd,
    f m.mask_acd m'.mask_acd, f m.mask_bcd m'.mask_bcd, f m.mask_abcd m'.mask_abcd⟩

section Change
variable (δ δ' : ℕ → R)

/-- By how much the products of masks change from `δ` to `δ'`. -/
def prodChange : Op R → R
  | .kMul a b => δ' a * δ' b - δ a * δ b
  | .kDotprod xs ys => dotProduct xs ys δ' - dotProduct xs ys δ
  | _ => 0

def prod3Change : Op R → Mult3Masks R
  | .kMul3 a b c => (Mult3Masks.products (δ' a) (δ' b) (δ' c)).zipWith (· - ·)
      (.products (δ a) (δ b) (δ c))
  | _ => ⟨0, 0, 0, 0⟩

def prod4Change : Op R → Mult4Masks R
  | .kMul4 a b c d => (Mult4Masks.products (δ' a) (δ' b) (δ' c) (δ' d)).zipWith (· - ·)
      (.products (δ a) (δ b) (δ c) (δ d))
  | _ => ⟨0, 0, 0, 0, 0, 0, 0, 0, 0, 0, 0⟩

/-- By how much the mask that a dealer knows changes. -/
def inputChange (g : Gate R) : R :=
  match g.op with
  | .kInp => δ' g.out - δ g.out
  | _ => 0

/-- What party `id` stores for a gate when party `j` takes the change of the masks. -/
def PreprocExt.shift (key : R) (j id : ℕ) (g : Gate R) : PreprocExt R X → PreprocExt R X
  | .gate => .gate
  | .input pid v => .input pid (if id = 0 ∨ id = j then v + inputChange δ δ' g else v)
  | .mult m => .mult (m.shift key j id (prodChange δ δ' g.op))
  | .mult3 m => .mult3 ((prod3Change δ δ' g.op).zipWith (MaskShare.shift key j id) m)
  | .mult4 m => .mult4 ((prod4Change δ δ' g.op).zipWith (MaskShare.shift key j id) m)
  | .dotp m => .dotp (m.shift key j id (prodChange δ δ' g.op))
  | .comparison x => .comparison x

def PreprocGate.shift (key : R) (j id : ℕ) (g : Gate R) (a : PreprocGate R X) : PreprocGate R X :=
  ⟨a.mask.shift key j id (δ' g.out - δ g.out), a.ext.shift δ δ' key j id g⟩

end Change

variable {nP i j : ℕ} {keySh : ℕ → R} {δ δ' : ℕ → R} {g : Gate R}

/-- The parties keep components of what the trusted party stores. The mask of an input of another
dealer stays. -/
theorem PreprocGate.Agrees.shift {Cmp : X → X → Prop} {a b : PreprocGate R X}
    (h : Agrees nP keySh i Cmp a b) (hi : i ≠ 0) (hj : j ∈ Finset.Icc 1 nP)
    (hinput : ∀ pid v, a.ext = .input pid v → pid ≠ j → inputChange δ δ' g = 0) :
    Agrees nP keySh i Cmp (a.shift δ δ' (∑ i ∈ Finset.Icc 1 nP, keySh i) j 0 g)
      (b.shift δ δ' (∑ i ∈ Finset.Icc 1 nP, keySh i) j i g) where
  mask := h.mask.shift hi hj _
  ext := by
    have hext := h.ext
    change PreprocExt.Agrees nP keySh i Cmp (a.ext.shift ..) (b.ext.shift ..)
    cases ha : a.ext <;> cases hb : b.ext <;> rw [ha, hb] at hext <;> try exact hext.elim
    case input.input pid v pid' v' =>
      refine ⟨hext.1, fun hpid => ?_⟩
      rw [if_pos (.inl rfl : (0 : ℕ) = 0 ∨ 0 = j), hext.2 hpid]
      by_cases hij : i = j
      · rw [if_pos (.inr hij)]
      · -- the dealer of the input is another party, whose mask does not change
        rw [if_neg (by simp [hi, hij]), hinput pid v ha (hpid ▸ hij), add_zero]
    case mult.mult => exact MaskShare.Agrees.shift hext hi hj _
    case dotp.dotp => exact MaskShare.Agrees.shift hext hi hj _
    case mult3.mult3 =>
      exact ⟨hext.ab.shift hi hj _, hext.ac.shift hi hj _, hext.bc.shift hi hj _, hext.abc.shift hi hj _⟩
    case mult4.mult4 =>
      exact ⟨hext.ab.shift hi hj _, hext.ac.shift hi hj _, hext.ad.shift hi hj _, hext.bc.shift hi hj _,
        hext.bd.shift hi hj _, hext.cd.shift hi hj _, hext.abc.shift hi hj _, hext.abd.shift hi hj _,
        hext.acd.shift hi hj _, hext.bcd.shift hi hj _, hext.abcd.shift hi hj _⟩
    all_goals exact hext

/-- The mask of a linear gate is that combination of the masks of its inputs. -/
def MaskRule (δ : ℕ → R) (g : Gate R) : Prop :=
  match g.op with
  | .kAdd a b => δ g.out = δ a + δ b
  | .kSub a b => δ g.out = δ a - δ b
  | .kConstAdd a _ => δ g.out = δ a
  | .kConstMul a cval => δ g.out = δ a * cval
  | _ => True

theorem Opens.maskRule {a : PreprocGate R X} (h : Opens δ g.op a) (ha : a.secret = δ g.out) :
    MaskRule δ g := by
  obtain ⟨op, out⟩ := g
  cases op <;> first | exact ha.symm.trans h | trivial

/-- The gate opens right for the new masks. -/
theorem Opens.shift {Cmp : X → X → Prop} {a b : PreprocGate R X} (h : Opens δ g.op a)
    (hab : PreprocGate.Agrees nP keySh i Cmp a b) (ha : a.secret = δ g.out)
    (hj : j ∈ Finset.Icc 1 nP) (hrule : MaskRule δ' g) :
    (a.shift δ δ' (∑ i ∈ Finset.Icc 1 nP, keySh i) j 0 g).secret = δ' g.out ∧
      Opens δ' g.op (a.shift δ δ' (∑ i ∈ Finset.Icc 1 nP, keySh i) j 0 g) := by
  have hsecret : (a.shift δ δ' (∑ i ∈ Finset.Icc 1 nP, keySh i) j 0 g).secret = δ' g.out := by
    have hmask : a.mask.secret = δ g.out := ha
    have hshift := MaskShare.secret_shift hab.mask.valid hj (∑ i ∈ Finset.Icc 1 nP, keySh i)
      (δ' g.out - δ g.out)
    rwa [hmask, add_sub_cancel] at hshift
  refine ⟨hsecret, ?_⟩
  have hext := hab.ext
  obtain ⟨op, out⟩ := g
  cases op with
  | kAdd x y | kSub x y | kConstAdd x cval | kConstMul x cval => exact hsecret.trans hrule
  | kMul x y =>
    obtain ⟨m, hm, hs⟩ := h
    refine ⟨_, congrArg (PreprocExt.shift δ δ' _ j 0 _) hm, ?_⟩
    rw [MaskShare.secret_shift (hab.ext.mask_prod (.inl hm)).valid hj, hs, prodChange, add_sub_cancel]
  | kDotprod xs ys =>
    obtain ⟨m, hm, hs⟩ := h
    refine ⟨_, congrArg (PreprocExt.shift δ δ' _ j 0 _) hm, ?_⟩
    rw [MaskShare.secret_shift (hab.ext.mask_prod (.inr hm)).valid hj, hs, prodChange, add_sub_cancel]
  | kMul3 x y z =>
    obtain ⟨m, hm, hs⟩ := h
    refine ⟨_, congrArg (PreprocExt.shift δ δ' _ j 0 _) hm, ?_⟩
    have hall := hab.ext.masks3 hm
    simp only [Mult3Masks.map, Mult3Masks.products, Mult3Masks.mk.injEq] at hs
    simp only [Mult3Masks.map, Mult3Masks.zipWith, prod3Change, Mult3Masks.products,
      MaskShare.secret_shift hall.ab.valid hj, MaskShare.secret_shift hall.ac.valid hj,
      MaskShare.secret_shift hall.bc.valid hj, MaskShare.secret_shift hall.abc.valid hj, hs,
      add_sub_cancel]
  | kMul4 x y z u =>
    obtain ⟨m, hm, hs⟩ := h
    refine ⟨_, congrArg (PreprocExt.shift δ δ' _ j 0 _) hm, ?_⟩
    have hall := hab.ext.masks4 hm
    simp only [Mult4Masks.map, Mult4Masks.products, Mult4Masks.mk.injEq] at hs
    simp only [Mult4Masks.map, Mult4Masks.zipWith, prod4Change, Mult4Masks.products,
      MaskShare.secret_shift hall.ab.valid hj, MaskShare.secret_shift hall.ac.valid hj,
      MaskShare.secret_shift hall.ad.valid hj, MaskShare.secret_shift hall.bc.valid hj,
      MaskShare.secret_shift hall.bd.valid hj, MaskShare.secret_shift hall.cd.valid hj,
      MaskShare.secret_shift hall.abc.valid hj, MaskShare.secret_shift hall.abd.valid hj,
      MaskShare.secret_shift hall.acd.valid hj, MaskShare.secret_shift hall.bcd.valid hj,
      MaskShare.secret_shift hall.abcd.valid hj, hs, add_sub_cancel]
  | _ => trivial

/-- Values and masks that follow a linear gate move together. -/
theorem MaskRule.move {f f' V V' : ℕ → R} (h : MaskRule δ g)
    (hV : V g.out = g.value f V) (hV' : V' g.out = g.value f' V') :
    MaskRule (fun w => δ w - (V' w - V w)) g := by
  obtain ⟨op, out⟩ := g
  cases op with
  | kAdd a b | kSub a b | kConstAdd a cval | kConstMul a cval =>
    simp only [MaskRule, Gate.value] at h hV hV' ⊢
    rw [h, hV, hV']
    ring
  | _ => trivial

end Gates

/-! ## Going back -/

section Back
variable {R X : Type} [CircuitRing R] {δ δ' ε ε' : ℕ → R} {g : Gate R}

theorem PreprocExt.shift_congr (key : R) (j id : ℕ) (a : PreprocExt R X)
    (hδ : ∀ w, w = g.out ∨ w ∈ g.inputs → δ w = ε w) (hδ' : ∀ w, w = g.out ∨ w ∈ g.inputs → δ' w = ε' w) :
    a.shift δ δ' key j id g = a.shift ε ε' key j id g := by
  obtain ⟨op, out⟩ := g
  have hout := hδ out (.inl rfl)
  have hout' := hδ' out (.inl rfl)
  have hin : ∀ w ∈ op.inputs, δ w = ε w := fun w hw => hδ w (.inr hw)
  have hin' : ∀ w ∈ op.inputs, δ' w = ε' w := fun w hw => hδ' w (.inr hw)
  have hprod : prodChange δ δ' op = prodChange ε ε' op := by
    cases op with
    | kDotprod xs ys => rw [prodChange, prodChange, dotProduct_congr hin, dotProduct_congr hin']
    | _ => simp_all [prodChange, Op.inputs]
  have hprod3 : prod3Change δ δ' op = prod3Change ε ε' op := by
    cases op <;> simp_all [prod3Change, Op.inputs]
  have hprod4 : prod4Change δ δ' op = prod4Change ε ε' op := by
    cases op <;> simp_all [prod4Change, Op.inputs]
  have hinput : inputChange δ δ' ⟨op, out⟩ = inputChange ε ε' ⟨op, out⟩ := by
    cases op <;> simp only [inputChange, hout, hout']
  cases a <;> simp only [PreprocExt.shift, hinput, hprod, hprod3, hprod4]

theorem PreprocExt.shift_cancel (key : R) (j id : ℕ) (a : PreprocExt R X) :
    (a.shift δ δ' key j id g).shift δ' δ key j id g = a := by
  have hinput : inputChange δ' δ g = -inputChange δ δ' g := by
    obtain ⟨op, out⟩ := g
    cases op <;> simp only [inputChange, neg_zero, neg_sub]
  have hprod : prodChange δ' δ g.op = -prodChange δ δ' g.op := by
    cases g.op <;> simp only [prodChange, neg_zero, neg_sub]
  have hprod3 : prod3Change δ' δ g.op = (prod3Change δ δ' g.op).map (-·) := by
    cases g.op <;> simp only [prod3Change, Mult3Masks.map, Mult3Masks.zipWith, neg_zero, neg_sub]
  have hprod4 : prod4Change δ' δ g.op = (prod4Change δ δ' g.op).map (-·) := by
    cases g.op <;> simp only [prod4Change, Mult4Masks.map, Mult4Masks.zipWith, neg_zero, neg_sub]
  cases a with
  | gate | comparison x => rfl
  | input pid v =>
    simp only [PreprocExt.shift]
    by_cases h : id = 0 ∨ id = j
    · rw [if_pos h, if_pos h, hinput, add_neg_cancel_right]
    · rw [if_neg h, if_neg h]
  | mult m | dotp m => simp only [PreprocExt.shift, hprod, MaskShare.shift_cancel]
  | mult3 m =>
    simp only [PreprocExt.shift, hprod3, Mult3Masks.map, Mult3Masks.zipWith, MaskShare.shift_cancel]
  | mult4 m =>
    simp only [PreprocExt.shift, hprod4, Mult4Masks.map, Mult4Masks.zipWith, MaskShare.shift_cancel]

theorem PreprocGate.shift_cancel (key : R) (j id : ℕ) (a : PreprocGate R X)
    (hδ : ∀ w, w = g.out ∨ w ∈ g.inputs → ε w = δ' w) (hδ' : ∀ w, w = g.out ∨ w ∈ g.inputs → ε' w = δ w) :
    (a.shift δ δ' key j id g).shift ε ε' key j id g = a := by
  have hmask : ε' g.out - ε g.out = -(δ' g.out - δ g.out) := by
    rw [hδ _ (.inl rfl), hδ' _ (.inl rfl), neg_sub]
  obtain ⟨mask, ext⟩ := a
  simp only [PreprocGate.shift, hmask, MaskShare.shift_cancel,
    PreprocExt.shift_congr key j id _ hδ hδ', PreprocExt.shift_cancel]

/-- Who is neither the trusted party nor the one that takes the change keeps what it has. -/
theorem PreprocGate.shift_other (key : R) {j id : ℕ} (h0 : id ≠ 0) (hj : id ≠ j) (a : PreprocGate R X) :
    a.shift δ δ' key j id g = a := by
  have hmask : ∀ (e : R) (m : MaskShare R), m.shift key j id e = m := fun e m => by
    rw [MaskShare.shift, if_neg h0, if_neg hj]
  obtain ⟨mask, ext⟩ := a
  cases ext with
  | input pid v =>
    simp only [PreprocGate.shift, PreprocExt.shift, hmask, if_neg (not_or.mpr ⟨h0, hj⟩)]
  | _ => simp only [PreprocGate.shift, PreprocExt.shift, Mult3Masks.zipWith, Mult4Masks.zipWith, hmask]

end Back

/-! ## Preprocessing for other inputs -/

section Reshared
variable {M : Modulus}

/-- The inputs when party `j` has `inputs`. -/
def withInputs (j : ℕ) (inputs : InputMap (Field M)) (d : ℕ → PartyData M) (id : ℕ) :
    InputMap (Field M) := if id = j then inputs else (d id).inputs

/-- The masks of the wires. -/
def masksOf (d : ℕ → PartyData M) (w : ℕ) : Field M := ((d 0).preproc_ w).secret

/-- The masks under which the masked wires stay the same. -/
def movedMasks (ipm : ℕ → ℕ) (circ : Circuit (Field M)) (j : ℕ) (inputs : InputMap (Field M))
    (d : ℕ → PartyData M) (w : ℕ) : Field M :=
  masksOf d w - (circ.value (inputsOf ipm (withInputs j inputs d)) w -
    circ.value (inputsOf ipm fun i => (d i).inputs) w)

def resharedGates (δ δ' : ℕ → Field M) (key : Field M) (j id : ℕ) (circ : Circuit (Field M))
    (C : FieldGates M) : FieldGates M := fun w =>
  match circ.gates_[w]? with
  | some g => (C w).shift δ δ' key j id g
  | none => C w

/-- The data of all parties when party `j` has `inputs` and the masked wires stay. -/
def reshared (nP : ℕ) (keySh : ℕ → Field M) (ipm : ℕ → ℕ) (circ : Circuit (Field M)) (j : ℕ)
    (inputs : InputMap (Field M)) (d : ℕ → PartyData M) (id : ℕ) : PartyData M where
  rgen_ := (d id).rgen_
  boolRgen := (d id).boolRgen
  preproc_ := resharedGates (masksOf d) (movedMasks ipm circ j inputs d)
    (∑ i ∈ Finset.Icc 1 nP, keySh i) j id circ (d id).preproc_
  inputs := withInputs j inputs d id

variable {nP j : ℕ} {keySh : ℕ → Field M} {bkeySh : ℕ → BoolRing} {ipm : ℕ → ℕ}
  {circ : Circuit (Field M)} {d : ℕ → PartyData M} {inputs : InputMap (Field M)} {g : Gate (Field M)}

theorem gate_at {R : Type} (c : Circuit R) {g : Gate R} (hg : g ∈ c.gates_) :
    c.gates_[g.out]? = some g := by
  obtain ⟨k, hk, rfl⟩ := List.mem_iff_getElem.mp hg
  have hout := congrArg (fun l => l[k]?) c.out_eq
  rw [List.getElem?_map, List.getElem?_eq_getElem hk, List.getElem?_range hk] at hout
  have hk' : c.gates_[k].out = k := Option.some.inj hout
  rw [hk', List.getElem?_eq_getElem hk]

theorem resharedGates_at {δ δ' : ℕ → Field M} (key : Field M) (j id : ℕ) (C : FieldGates M)
    (hg : g ∈ circ.gates_) :
    resharedGates δ δ' key j id circ C g.out = (C g.out).shift δ δ' key j id g := by
  rw [resharedGates, gate_at circ hg]

theorem reshared_other {id : ℕ} (h0 : id ≠ 0) (hj : id ≠ j) :
    reshared nP keySh ipm circ j inputs d id = d id := by
  have hpreproc : ∀ δ δ' key, resharedGates δ δ' key j id circ (d id).preproc_ = (d id).preproc_ := by
    intro δ δ' key
    funext w
    rw [resharedGates]
    cases circ.gates_[w]? with
    | none => rfl
    | some g => exact PreprocGate.shift_other _ h0 hj _
  rw [reshared, hpreproc, withInputs, if_neg hj]

/-- Inputs of other dealers stay. -/
theorem movedMasks_input (hg : g ∈ circ.gates_) (ht : g.type = .kInp) (hdealer : ipm g.out ≠ j) :
    movedMasks ipm circ j inputs d g.out = masksOf d g.out := by
  rw [movedMasks, circ.value_eq _ hg, circ.value_eq _ hg, Gate.value_of_kInp ht, Gate.value_of_kInp ht,
    inputsOf, inputsOf, withInputs, if_neg hdealer, sub_self, sub_zero]

theorem inputChange_eq_zero (hg : g ∈ circ.gates_) (hdealer : g.type = .kInp → ipm g.out ≠ j) :
    inputChange (masksOf d) (movedMasks ipm circ j inputs d) g = 0 := by
  by_cases ht : g.type = .kInp
  · have hmove : movedMasks ipm circ j inputs d g.out = masksOf d g.out :=
      movedMasks_input hg ht (hdealer ht)
    obtain ⟨op, out⟩ := g
    obtain rfl := Op.eq_kInp ht
    exact sub_eq_zero.mpr hmove
  · obtain ⟨op, out⟩ := g
    cases op <;> first | rfl | exact absurd rfl ht

theorem FieldPreproc.opens_arithmetic (hpre : FieldPreproc nP keySh bkeySh ipm circ d)
    (hg : g ∈ circ.gates_) (ht : g.type.arithmetic) :
    Opens (masksOf d) g.op ((d 0).preproc_ g.out) := by
  refine (fieldOpens_iff ?_).mp (hpre.opens g hg)
  revert ht
  cases g.type <;> decide

/-- The new masks. -/
theorem reshared_secret (hnP : 1 ≤ nP) (hpre : FieldPreproc nP keySh bkeySh ipm circ d)
    (hj : j ∈ Finset.Icc 1 nP) (hg : g ∈ circ.gates_) :
    masksOf (reshared nP keySh ipm circ j inputs d) g.out = movedMasks ipm circ j inputs d g.out := by
  have hvalid := (hpre.agrees 1 (mem_parties.mpr ⟨le_rfl, hnP⟩) g hg).mask.valid
  have hshift := MaskShare.secret_shift hvalid hj (∑ i ∈ Finset.Icc 1 nP, keySh i)
    (movedMasks ipm circ j inputs d g.out - masksOf d g.out)
  rw [masksOf, reshared]
  simp only [resharedGates_at _ _ _ _ hg]
  refine hshift.trans ?_
  rw [show ((d 0).preproc_ g.out).mask.secret = masksOf d g.out from rfl, add_sub_cancel]

theorem reshared_preproc (hnP : 1 ≤ nP) (hpre : FieldPreproc nP keySh bkeySh ipm circ d)
    (htypes : ∀ g ∈ circ.gates_, g.type = .kInp ∨ g.type.arithmetic) (hj : j ∈ Finset.Icc 1 nP) :
    FieldPreproc nP keySh bkeySh ipm circ (reshared nP keySh ipm circ j inputs d) where
  agrees i hi g hg := by
    simp only [reshared, resharedGates_at _ _ _ _ hg]
    refine (hpre.agrees i hi g hg).shift (ne_zero_of_parties hi) hj fun pid v hext hpid => ?_
    refine inputChange_eq_zero hg fun ht => ?_
    have hopens := hpre.opens g hg
    rw [FieldOpens, Op.eq_kInp ht, hext] at hopens
    obtain ⟨rfl, -⟩ := PreprocExt.input.inj hopens
    exact hpid
  opens g hg := by
    have hstored : (reshared nP keySh ipm circ j inputs d 0).preproc_ g.out =
        ((d 0).preproc_ g.out).shift (masksOf d) (movedMasks ipm circ j inputs d)
          (∑ i ∈ Finset.Icc 1 nP, keySh i) j 0 g := resharedGates_at _ _ _ _ hg
    have hmask : (((d 0).preproc_ g.out).shift (masksOf d) (movedMasks ipm circ j inputs d)
        (∑ i ∈ Finset.Icc 1 nP, keySh i) j 0 g).secret = movedMasks ipm circ j inputs d g.out := by
      rw [← hstored]
      exact reshared_secret hnP hpre hj hg
    rw [hstored]
    obtain ht | ht := htypes g hg
    · have hopens := hpre.opens g hg
      obtain ⟨op, out⟩ := g
      obtain rfl := Op.eq_kInp ht
      change PreprocExt.shift _ _ _ _ _ _ _ = _
      rw [show ((d 0).preproc_ out).ext = .input (ipm out) ((d 0).preproc_ out).secret from hopens]
      rw [PreprocExt.shift, if_pos (.inl rfl), hmask]
      exact congrArg _ (add_sub_cancel _ _)
    · have hspecial : g.type.special = false := by
        revert ht
        cases g.type <;> decide
      have hagrees := hpre.agrees 1 (mem_parties.mpr ⟨le_rfl, hnP⟩) g hg
      have hrule : MaskRule (movedMasks ipm circ j inputs d) g :=
        ((hpre.opens_arithmetic hg ht).maskRule rfl).move (circ.value_eq _ hg) (circ.value_eq _ hg)
      have hopens := ((hpre.opens_arithmetic hg ht).shift hagrees rfl hj hrule).2
      refine ((fieldOpens_iff hspecial).mpr hopens).congr fun w hw => ?_
      obtain ⟨g', hg', rfl⟩ := circ.exists_gate hg hw
      exact (reshared_secret hnP hpre hj hg').symm
  pads g hg ht := hpre.pads g hg ht

end Reshared

/-! ## The two runs -/

section Runs
variable {M : Modulus} {nP j : ℕ} {keySh : ℕ → Field M} {bkeySh : ℕ → BoolRing} {ipm : ℕ → ℕ}
  {circ : Circuit (Field M)} {d : ℕ → PartyData M} {inputs : InputMap (Field M)}

/-- All that the parties see of each other: the masked values, the shares sent for the openings and what
they open to, the result of the MAC check, and the outputs. -/
structure SameOpenings (nP : ℕ) (circ : Circuit (Field M)) (r r' : ℕ → OnlineResult M) : Prop where
  wires : ∀ i ∈ parties nP, ∀ w < circ.size, (r i).state.wires_ w = (r' i).state.wires_ w
  q_sh : ∀ i ∈ parties nP, ∀ g ∈ circ.gates_, g.type ∈ multTypes →
    (r i).state.q_sh_ g.out = (r' i).state.q_sh_ g.out
  q_val : ∀ i ∈ parties nP, ∀ g ∈ circ.gates_, g.type ∈ multTypes →
    (r i).state.q_val_ g.out = (r' i).state.q_val_ g.out
  res : ∀ i ∈ parties nP, (r i).res = (r' i).res
  outvals : ∀ i ∈ parties nP, (r i).outvals = (r' i).outvals

theorem offline_of_arithmetic (htypes : ∀ g ∈ circ.gates_, g.type = .kInp ∨ g.type.arithmetic) :
    ∀ g ∈ circ.gates_, g.type.offline := by
  intro g hg
  have h := htypes g hg
  revert h
  cases g.type <;> decide

/-- The masked value of a wire is the same. -/
theorem reshared_masked (hnP : 1 ≤ nP) (hpre : FieldPreproc nP keySh bkeySh ipm circ d)
    (hj : j ∈ Finset.Icc 1 nP) {w : ℕ} (hw : w < circ.size) :
    circ.value (inputsOf ipm (withInputs j inputs d)) w +
        masksOf (reshared nP keySh ipm circ j inputs d) w =
      circ.value (inputsOf ipm fun i => (d i).inputs) w + masksOf d w := by
  obtain ⟨g, hg, rfl⟩ := (circ.mem_outs_iff w).mpr hw
  rw [reshared_secret hnP hpre hj hg, movedMasks]
  ring

theorem masked_eq {d' : ℕ → PartyData M} (f : ℕ → Field M)
    (htypes : ∀ g ∈ circ.gates_, g.type = .kInp ∨ g.type.arithmetic) {w : ℕ} (hw : w < circ.size) :
    masked (d' 0).preproc_ (onlineValues f (fun _ => 0) (d' 0).preproc_ circ) w =
      circ.value f w + masksOf d' w := by
  rw [masked, onlineValues_arithmetic f _ htypes hw, masksOf]

/-- The shares that open the masked value of a multiplication. -/
theorem maskedShare_authenticates (hnP : 1 ≤ nP) (hpre : FieldPreproc nP keySh bkeySh ipm circ d)
    (f : ℕ → Field M) {g : Gate (Field M)} (hg : g ∈ circ.gates_) (ht : g.type ∈ multTypes)
    {ws : ℕ → Field M} (hws : ∀ w < circ.size, ws w = circ.value f w + masksOf d w) :
    SharesOf nP keySh (fun i => gateShare i ws (d i).preproc_ g) (ws g.out) := by
  have hshares := multShare_authenticates hnP hpre f hg ht (circ.value f)
  have hcongr : (fun i => gateShare i (fun w => circ.value f w + ((d 0).preproc_ w).secret)
      (d i).preproc_ g) = fun i => gateShare i ws (d i).preproc_ g := by
    funext i
    apply gateShare_congr
    intro w hw
    exact (hws w (((circ.valid g hg).1 w hw).trans (circ.out_lt hg))).symm
  rw [hcongr] at hshares
  refine hshares.congr ?_
  rw [hws _ (circ.out_lt hg), circ.value_eq f hg, masksOf, add_comm]

/-- What is opened for a multiplication is its masked value. -/
theorem openedSecret_masked {d' : ℕ → PartyData M} {f err : ℕ → Field M} {g : Gate (Field M)}
    (hg : g ∈ circ.gates_) (ht : g.type ∈ multTypes) :
    openedSecret f (d' 0).preproc_ g (onlineValues f err (d' 0).preproc_ circ) + err g.out =
      masked (d' 0).preproc_ (onlineValues f err (d' 0).preproc_ circ) g.out := by
  have hopened : openedSecret f (d' 0).preproc_ g (onlineValues f err (d' 0).preproc_ circ) =
      ((d' 0).preproc_ g.out).secret + g.value f (onlineValues f err (d' 0).preproc_ circ) := by
    unfold openedSecret
    obtain ⟨op, out⟩ := g
    cases op <;> first | rfl | simp [multTypes, Gate.type, Op.type] at ht
  rw [hopened, masked, onlineValues_eq _ hg, onlineValue_mult ht]
  ring

/-- Party `j` sends the same shares: they are what the shares of the others leave of the same values. -/
theorem reshared_share (hnP : 1 ≤ nP) (hpre : FieldPreproc nP keySh bkeySh ipm circ d)
    (htypes : ∀ g ∈ circ.gates_, g.type = .kInp ∨ g.type.arithmetic) (hj : j ∈ Finset.Icc 1 nP)
    {g : Gate (Field M)} (hg : g ∈ circ.gates_) (ht : g.type ∈ multTypes) {ws : ℕ → Field M}
    (hws : ∀ w < circ.size, ws w = circ.value (inputsOf ipm fun i => (d i).inputs) w + masksOf d w)
    {i : ℕ} (hi : i ∈ Finset.Icc 1 nP) :
    gateShare i ws (reshared nP keySh ipm circ j inputs d i).preproc_ g =
      gateShare i ws (d i).preproc_ g := by
  have hrest : ∀ i ∈ Finset.Icc 1 nP, i ≠ j →
      gateShare i ws (reshared nP keySh ipm circ j inputs d i).preproc_ g =
        gateShare i ws (d i).preproc_ g := by
    intro i hi hij
    rw [reshared_other (Nat.one_le_iff_ne_zero.mp (Finset.mem_Icc.mp hi).1) hij]
  by_cases hij : i = j
  · subst hij
    have hpre' : FieldPreproc nP keySh bkeySh ipm circ (reshared nP keySh ipm circ i inputs d) :=
      reshared_preproc hnP hpre htypes hi
    have hws' : ∀ w < circ.size, ws w = circ.value (inputsOf ipm (withInputs i inputs d)) w +
        masksOf (reshared nP keySh ipm circ i inputs d) w := fun w hw =>
      (hws w hw).trans (reshared_masked hnP hpre hi hw).symm
    have hnew := maskedShare_authenticates hnP hpre' _ hg ht hws'
    have hold := maskedShare_authenticates hnP hpre _ hg ht hws
    obtain ⟨hvalue, htag⟩ := hnew.auth.last_eq hold.auth hi fun k hk hki => by
      rw [hrest k hk hki]
      exact ⟨rfl, rfl⟩
    exact AuthAddShare.ext ((hnew.key i hi).trans (hold.key i hi).symm) hvalue htag
  · exact hrest i hi hij

/-- The two runs of the online phase show the same. -/
theorem reshared_openings (hnP : 1 ≤ nP) (hgates : circ.gates_ ≠ [])
    (htypes : ∀ g ∈ circ.gates_, g.type = .kInp ∨ g.type.arithmetic)
    (hpre : FieldPreproc nP keySh bkeySh ipm circ d)
    (hdealers : DealersReady nP ipm circ fun i => (d i).inputs) (hj : j ∈ Finset.Icc 1 nP)
    (hdealers' : DealersReady nP ipm circ (withInputs j inputs d))
    (houtputs : ∀ w ∈ circ.outputs_, circ.value (inputsOf ipm fun i => (d i).inputs) w =
      circ.value (inputsOf ipm (withInputs j inputs d)) w) (reseed : Bytes → Prg) :
    SameOpenings nP circ
      (onlineResult nP ipm d reseed (fun _ => 0) circ.orderGatesByLevel)
      (onlineResult nP ipm (reshared nP keySh ipm circ j inputs d) reseed (fun _ => 0)
        circ.orderGatesByLevel) := by
  have hoffline := offline_of_arithmetic htypes
  have hpre' : FieldPreproc nP keySh bkeySh ipm circ (reshared nP keySh ipm circ j inputs d) :=
    reshared_preproc hnP hpre htypes hj
  have hdealers' : DealersReady nP ipm circ
      fun i => (reshared nP keySh ipm circ j inputs d i).inputs := hdealers'
  have hold := onlineStates_masked hnP hpre hoffline hdealers fun _ => 0
  have hnew := onlineStates_masked hnP hpre' hoffline hdealers' fun _ => 0
  have hwire : ∀ w < circ.size,
      masked (d 0).preproc_ (onlineValues (inputsOf ipm fun i => (d i).inputs) (fun _ => 0)
        (d 0).preproc_ circ) w =
      masked (reshared nP keySh ipm circ j inputs d 0).preproc_ (onlineValues
        (inputsOf ipm fun i => (reshared nP keySh ipm circ j inputs d i).inputs) (fun _ => 0)
        (reshared nP keySh ipm circ j inputs d 0).preproc_ circ) w := fun w hw => by
    rw [masked_eq _ htypes hw, masked_eq _ htypes hw]
    exact (reshared_masked hnP hpre hj hw).symm
  have hout : ∀ g ∈ circ.gates_, g.out ∈ outs circ.gates_ := fun g hg =>
    (circ.mem_outs_iff _).mpr (circ.out_lt hg)
  have hhonest := onlineResult_honest reseed hnP hpre hoffline hdealers hgates
  have hhonest' := onlineResult_honest reseed hnP hpre' hoffline hdealers' hgates
  constructor
  case wires =>
    intro i hi w hw
    have hmem : w ∈ outs circ.gates_ := (circ.mem_outs_iff w).mpr hw
    exact (hold.wires i hi w (.inl hmem)).trans
      ((hwire w hw).trans (hnew.wires i hi w (.inl hmem)).symm)
  case q_sh =>
    intro i hi g hg ht
    refine (hold.q_sh i hi g hg ht (hout g hg)).trans
      (Eq.trans ?_ (hnew.q_sh i hi g hg ht (hout g hg)).symm)
    rw [← gateShare_congr fun w hw => hwire w (((circ.valid g hg).1 w hw).trans (circ.out_lt hg))]
    exact (reshared_share hnP hpre htypes hj hg ht (fun w hw => masked_eq _ htypes hw)
      (Finset.mem_Icc.mpr (mem_parties.mp hi))).symm
  case q_val =>
    intro i hi g hg ht
    refine (hold.q_val i hi g hg ht (hout g hg)).trans
      (Eq.trans ?_ (hnew.q_val i hi g hg ht (hout g hg)).symm)
    rw [openedSecret_masked hg ht, openedSecret_masked hg ht]
    exact hwire _ (circ.out_lt hg)
  case res =>
    intro i _
    rw [hhonest, hhonest']
  case outvals =>
    intro i hi
    rw [onlineResult_outvals reseed hnP hpre hoffline hdealers hi (hhonest i),
      onlineResult_outvals reseed hnP hpre' hoffline hdealers' hi (hhonest' i)]
    apply List.map_congr_left
    intro w hw
    have hlt := circ.outputs_valid w hw
    rw [onlineValues_arithmetic _ _ htypes hlt, onlineValues_arithmetic _ _ htypes hlt]
    exact houtputs w hw

/-- Party `j` with its old inputs gives back the data. -/
theorem reshared_back (hnP : 1 ≤ nP) (hpre : FieldPreproc nP keySh bkeySh ipm circ d)
    (hj : j ∈ Finset.Icc 1 nP) :
    reshared nP keySh ipm circ j (d j).inputs (reshared nP keySh ipm circ j inputs d) = d := by
  have hinputs : withInputs j (d j).inputs (reshared nP keySh ipm circ j inputs d) =
      fun i => (d i).inputs := by
    funext i
    simp only [reshared, withInputs]
    by_cases h : i = j
    · rw [if_pos h, h]
    · rw [if_neg h, if_neg h]
  have hnew : ∀ w < circ.size, masksOf (reshared nP keySh ipm circ j inputs d) w =
      movedMasks ipm circ j inputs d w := by
    intro w hw
    obtain ⟨g, hg, rfl⟩ := (circ.mem_outs_iff w).mpr hw
    exact reshared_secret hnP hpre hj hg
  have hold : ∀ w < circ.size, movedMasks ipm circ j (d j).inputs
      (reshared nP keySh ipm circ j inputs d) w = masksOf d w := by
    intro w hw
    have hinputs' : (fun i => (reshared nP keySh ipm circ j inputs d i).inputs) =
        withInputs j inputs d := rfl
    rw [movedMasks, hnew w hw, movedMasks, hinputs, hinputs']
    ring
  funext id
  have hgates : resharedGates (masksOf (reshared nP keySh ipm circ j inputs d))
      (movedMasks ipm circ j (d j).inputs (reshared nP keySh ipm circ j inputs d))
      (∑ i ∈ Finset.Icc 1 nP, keySh i) j id circ
      (reshared nP keySh ipm circ j inputs d id).preproc_ = (d id).preproc_ := by
    funext w
    simp only [reshared, resharedGates]
    cases hg : circ.gates_[w]? with
    | none => rfl
    | some g =>
      have hmem : g ∈ circ.gates_ := List.mem_of_getElem? hg
      have hlt : ∀ w, w = g.out ∨ w ∈ g.inputs → w < circ.size := by
        rintro w (rfl | hw)
        · exact circ.out_lt hmem
        · exact ((circ.valid g hmem).1 w hw).trans (circ.out_lt hmem)
      exact PreprocGate.shift_cancel _ _ _ _ (fun w hw => hnew w (hlt w hw))
        fun w hw => hold w (hlt w hw)
  rw [reshared, hgates, hinputs]
  rfl

variable (nP keySh bkeySh ipm circ) in
/-- The preprocessing of the circuit under given keys, at parties with the inputs `x`. -/
def Preprocessed (x : ℕ → InputMap (Field M)) : Set (ℕ → PartyData M) :=
  {d | FieldPreproc nP keySh bkeySh ipm circ d ∧ (fun i => (d i).inputs) = x}

theorem withInputs_eq {x x' : ℕ → InputMap (Field M)} (hd : (fun i => (d i).inputs) = x)
    (hx : ∀ i, i ≠ j → x i = x' i) : withInputs j (x' j) d = x' := by
  funext i
  rw [withInputs]
  by_cases hij : i = j
  · rw [if_pos hij, hij]
  · rw [if_neg hij, ← hx i hij, ← hd]

theorem mapsTo_reshared {x x' : ℕ → InputMap (Field M)} (hnP : 1 ≤ nP)
    (htypes : ∀ g ∈ circ.gates_, g.type = .kInp ∨ g.type.arithmetic) (hj : j ∈ Finset.Icc 1 nP)
    (hx : ∀ i, i ≠ j → x i = x' i) : Set.MapsTo (reshared nP keySh ipm circ j (x' j))
      (Preprocessed nP keySh bkeySh ipm circ x) (Preprocessed nP keySh bkeySh ipm circ x') :=
  fun _ hd => ⟨reshared_preproc hnP hd.1 htypes hj, withInputs_eq hd.2 hx⟩

theorem leftInvOn_reshared {x : ℕ → InputMap (Field M)} (hnP : 1 ≤ nP) (hj : j ∈ Finset.Icc 1 nP)
    (inputs : InputMap (Field M)) : Set.LeftInvOn (reshared nP keySh ipm circ j (x j))
      (reshared nP keySh ipm circ j inputs) (Preprocessed nP keySh bkeySh ipm circ x) := by
  intro d hd
  have hback : reshared nP keySh ipm circ j (d j).inputs (reshared nP keySh ipm circ j inputs d) = d :=
    reshared_back hnP hd.1 hj
  rwa [show (d j).inputs = x j from congrFun hd.2 j] at hback

end Runs

/-- When the inputs of party `j` are replaced by others that give the same outputs, the preprocessing at
the old inputs corresponds one to one to the preprocessing at the new ones, so that every party but `j` and
the trusted party has the same data, and the two runs show the parties the same. -/
theorem openings_hide (M : Modulus) (nP : ℕ) (hnP : 1 ≤ nP) (circ : Circuit (Field M))
    (hgates : circ.gates_ ≠ []) (htypes : ∀ g ∈ circ.gates_, g.type = .kInp ∨ g.type.arithmetic)
    (ipm : ℕ → ℕ) (keySh : ℕ → Field M) (bkeySh : ℕ → BoolRing) (x x' : ℕ → InputMap (Field M))
    (hdealers : DealersReady nP ipm circ x) (hdealers' : DealersReady nP ipm circ x') (j : ℕ)
    (hj : j ∈ parties nP) (hx : ∀ i, i ≠ j → x i = x' i)
    (houtputs : ∀ w ∈ circ.outputs_,
      circ.value (inputsOf ipm x) w = circ.value (inputsOf ipm x') w) (reseed : Bytes → Prg) :
    ∃ f : (ℕ → PartyData M) → ℕ → PartyData M,
      Set.BijOn f (Preprocessed nP keySh bkeySh ipm circ x) (Preprocessed nP keySh bkeySh ipm circ x') ∧
      ∀ d ∈ Preprocessed nP keySh bkeySh ipm circ x,
        (∀ id, id ≠ 0 → id ≠ j → f d id = d id) ∧
        ∃ r r', Converges (Finset.range (nP + 1)) (fun id =>
            evaluateCircuit reseed nP id (d id) (fun _ => 0) circ.orderGatesByLevel) r ∧
          Converges (Finset.range (nP + 1)) (fun id =>
            evaluateCircuit reseed nP id (f d id) (fun _ => 0) circ.orderGatesByLevel) r' ∧
          SameOpenings nP circ r r' := by
  have hj' : j ∈ Finset.Icc 1 nP := Finset.mem_Icc.mpr (mem_parties.mp hj)
  have hx' : ∀ i, i ≠ j → x' i = x i := fun i hi => (hx i hi).symm
  have hbij : Set.BijOn (reshared nP keySh ipm circ j (x' j))
      (Preprocessed nP keySh bkeySh ipm circ x) (Preprocessed nP keySh bkeySh ipm circ x') :=
    Set.InvOn.bijOn ⟨leftInvOn_reshared hnP hj' (x' j), leftInvOn_reshared hnP hj' (x j)⟩
      (mapsTo_reshared hnP htypes hj' hx) (mapsTo_reshared hnP htypes hj' hx')
  refine ⟨_, hbij, fun d hd => ⟨fun id h0 hid => reshared_other h0 hid, ?_⟩⟩
  obtain ⟨hpre, hinputs⟩ := hd
  obtain ⟨hpre', hinputs'⟩ := hbij.mapsTo ⟨hpre, hinputs⟩
  have hnew : withInputs j (x' j) d = x' := withInputs_eq hinputs hx
  have hready : DealersReady nP ipm circ fun i => (d i).inputs := by rwa [hinputs]
  have hsame := reshared_openings hnP hgates htypes hpre hready hj' (by rwa [hnew])
    (by rwa [hnew, hinputs]) reseed
  exact ⟨_, _, (evaluateCircuit_completes hnP (hpre.inputsDealt hready) hgates).converges,
    (evaluateCircuit_completes hnP (hpre'.inputsDealt (by rwa [hinputs'])) hgates).converges, hsame⟩

/-- Party 1 has `v` for wire 0, party 2 has 0 for wire 1. -/
def factorInputs (v : Field testModulus) (i : ℕ) : InputMap (Field testModulus) :=
  ⟨{0, 1}, fun w => if i = 1 ∧ w = 0 then v else 0⟩

def factorParty (v : Field testModulus) (i : ℕ) : MpcParty testModulus :=
  ⟨fun _ _ _ => 7, fun _ _ _ => 7, fun _ _ _ => 7, factorInputs v i⟩

/-- A product with 0 does not tell 5 from 9. -/
theorem openings_hide_factor :
    ∃ keySh bkeySh, (Preprocessed 2 keySh bkeySh (· + 1) twoInputs (factorInputs 5)).Nonempty ∧
      ∃ f : (ℕ → PartyData testModulus) → ℕ → PartyData testModulus,
        Set.BijOn f (Preprocessed 2 keySh bkeySh (· + 1) twoInputs (factorInputs 5))
          (Preprocessed 2 keySh bkeySh (· + 1) twoInputs (factorInputs 9)) ∧
        ∀ d ∈ Preprocessed 2 keySh bkeySh (· + 1) twoInputs (factorInputs 5),
          (∀ id, id ≠ 0 → id ≠ 1 → f d id = d id) ∧
          ∃ r r', Converges (Finset.range 3) (fun id =>
              evaluateCircuit (fun _ _ _ => 7) 2 id (d id) (fun _ => 0) twoInputs.orderGatesByLevel) r ∧
            Converges (Finset.range 3) (fun id =>
              evaluateCircuit (fun _ _ _ => 7) 2 id (f d id) (fun _ => 0) twoInputs.orderGatesByLevel) r' ∧
            SameOpenings 2 twoInputs r r' := by
  have hgates : twoInputs.gates_ = [⟨.kInp, 0⟩, ⟨.kInp, 1⟩, ⟨.kMul 0 1, 2⟩] := rfl
  have htypes : ∀ g ∈ (twoInputs : Circuit (Field testModulus)).gates_,
      g.type = .kInp ∨ g.type.arithmetic := of_decide_eq_true rfl
  have hready : ∀ v, DealersReady 2 (· + 1) twoInputs (factorInputs v) := by
    intro v g hg ht
    rw [hgates] at hg
    simp only [List.mem_cons, List.not_mem_nil, or_false] at hg
    obtain rfl | rfl | rfl := hg
    · exact ⟨by decide, Finset.mem_insert_self 0 {1}⟩
    · exact ⟨by decide, Finset.mem_insert_of_mem (Finset.mem_singleton_self 1)⟩
    · cases ht
  have hstreams : StreamsShared 2 twoInputs (factorParty 5) :=
    ⟨fun _ _ => rfl, fun _ _ => rfl, fun _ _ _ => rfl⟩
  obtain ⟨keySh, bkeySh, hpre⟩ :=
    mpc_preproc (by decide) (offline_of_arithmetic htypes) hstreams (· + 1)
  refine ⟨keySh, bkeySh, ⟨_, hpre, rfl⟩, ?_⟩
  refine openings_hide testModulus 2 (by decide) twoInputs (by rw [hgates]; simp) htypes (· + 1) keySh
    bkeySh (factorInputs 5) (factorInputs 9) (hready 5) (hready 9) 1 (by decide) ?_ ?_ fun _ _ _ => 7
  · intro i hi
    simp [factorInputs, hi]
  · intro w hw
    have hw : w = 2 := by simpa using (show w ∈ [2] from hw)
    subst hw
    decide +kernel

end QSync
