import QSync.Asterisk.Sharing
import QSync.Utils.Plaintext

/-! # Preprocessed data

The members of the classes derived from `PreprocGate` (`asterisk/preproc.h`), and what preprocessing
has to provide for a gate: a sharing of the mask of its output wire, and sharings of the products of
the masks of its inputs.
-/

namespace QSync
set_option autoImplicit false
set_option maxHeartbeats 250000

/-- The products of three masks. -/
structure Mult3Masks (S : Type) where
  mask_ab : S
  mask_ac : S
  mask_bc : S
  mask_abc : S

/-- The products of four masks. -/
structure Mult4Masks (S : Type) where
  mask_ab : S
  mask_ac : S
  mask_ad : S
  mask_bc : S
  mask_bd : S
  mask_cd : S
  mask_abc : S
  mask_abd : S
  mask_acd : S
  mask_bcd : S
  mask_abcd : S

section Products
variable {S T σ : Type}

def Mult3Masks.map (f : S → T) (m : Mult3Masks S) : Mult3Masks T :=
  ⟨f m.mask_ab, f m.mask_ac, f m.mask_bc, f m.mask_abc⟩

def Mult4Masks.map (f : S → T) (m : Mult4Masks S) : Mult4Masks T :=
  ⟨f m.mask_ab, f m.mask_ac, f m.mask_ad, f m.mask_bc, f m.mask_bd, f m.mask_cd, f m.mask_abc,
    f m.mask_abd, f m.mask_acd, f m.mask_bcd, f m.mask_abcd⟩

/-- The products of the secrets `a`, `b`, `c`. -/
def Mult3Masks.products {R : Type} [Mul R] (a b c : R) : Mult3Masks R :=
  ⟨a * b, a * c, b * c, a * b * c⟩

/-- The products of the secrets `a`, `b`, `c`, `d`. -/
def Mult4Masks.products {R : Type} [Mul R] (a b c d : R) : Mult4Masks R :=
  ⟨a * b, a * c, a * d, b * c, b * d, c * d, a * b * c, a * b * d, a * c * d, b * c * d,
    a * b * c * d⟩

def Mult3Masks.mapM (f : S → StateM σ T) (m : Mult3Masks S) : StateM σ (Mult3Masks T) := do
  let ab ← f m.mask_ab
  let ac ← f m.mask_ac
  let bc ← f m.mask_bc
  let abc ← f m.mask_abc
  pure ⟨ab, ac, bc, abc⟩

def Mult4Masks.mapM (f : S → StateM σ T) (m : Mult4Masks S) : StateM σ (Mult4Masks T) := do
  let ab ← f m.mask_ab
  let ac ← f m.mask_ac
  let ad ← f m.mask_ad
  let bc ← f m.mask_bc
  let bd ← f m.mask_bd
  let cd ← f m.mask_cd
  let abc ← f m.mask_abc
  let abd ← f m.mask_abd
  let acd ← f m.mask_acd
  let bcd ← f m.mask_bcd
  let abcd ← f m.mask_abcd
  pure ⟨ab, ac, ad, bc, bd, cd, abc, abd, acd, bcd, abcd⟩

/-- `P` holds of the components of two families. -/
structure Mult3Masks.All (P : S → T → Prop) (m : Mult3Masks S) (m' : Mult3Masks T) : Prop where
  ab : P m.mask_ab m'.mask_ab
  ac : P m.mask_ac m'.mask_ac
  bc : P m.mask_bc m'.mask_bc
  abc : P m.mask_abc m'.mask_abc

/-- `P` holds of the components of two families. -/
structure Mult4Masks.All (P : S → T → Prop) (m : Mult4Masks S) (m' : Mult4Masks T) : Prop where
  ab : P m.mask_ab m'.mask_ab
  ac : P m.mask_ac m'.mask_ac
  ad : P m.mask_ad m'.mask_ad
  bc : P m.mask_bc m'.mask_bc
  bd : P m.mask_bd m'.mask_bd
  cd : P m.mask_cd m'.mask_cd
  abc : P m.mask_abc m'.mask_abc
  abd : P m.mask_abd m'.mask_abd
  acd : P m.mask_acd m'.mask_acd
  bcd : P m.mask_bcd m'.mask_bcd
  abcd : P m.mask_abcd m'.mask_abcd

end Products

/-- The members a derived class adds to `PreprocGate`: none, or those of `PreprocInput`,
`PreprocMultGate`, `PreprocMult3Gate`, `PreprocMult4Gate`, `PreprocDotpGate`, or of one of the
classes for comparison gates, `X`. -/
inductive PreprocExt (R X : Type) where
  | gate
  | input (pid : ℕ) (mask_value : R)
  | mult (mask_prod : MaskShare R)
  | mult3 (masks : Mult3Masks (MaskShare R))
  | mult4 (masks : Mult4Masks (MaskShare R))
  | dotp (mask_prod : MaskShare R)
  | comparison (x : X)

/-- `PreprocGate` with the members of its derived class. -/
structure PreprocGate (R X : Type) where
  mask : MaskShare R
  ext : PreprocExt R X

/-- `preproc_.gates`: by output wire. A wire whose gate has not been preprocessed holds a default. -/
abbrev PreprocGates (R X : Type) := ℕ → PreprocGate R X

instance {R X : Type} [CommRing R] : Inhabited (PreprocGate R X) := ⟨⟨default, .gate⟩⟩

/-- A circuit over `BoolRing` has no comparison gates. -/
abbrev BoolGates := PreprocGates BoolRing Empty

/-- The members of `PreprocEqzGate` and `PreprocLtzGate`. -/
inductive ComparisonGate (M : Modulus) where
  | eqz (mask_b mask_w rval : MaskShare (Field M)) (multk_gates : BoolGates) (padded_val : Field M)
  | ltz (mask_b mask_w : MaskShare (Field M)) (PrefixOR_gates : BoolGates) (padded_val : Field M)

/-- The gates of a circuit over the field. -/
abbrev FieldGates (M : Modulus) := PreprocGates (Field M) (ComparisonGate M)

/-- The types of the linear and the multiplication gates. -/
def GateType.arithmetic : GateType → Bool
  | .kAdd | .kSub | .kConstAdd | .kConstMul | .kMul | .kMul3 | .kMul4 | .kDotprod => true
  | _ => false

theorem GateType.arithmetic_ne {t : GateType} (h : t.arithmetic) : t ≠ .kRelu ∧ t ≠ .kTrdotp := by
  revert h
  cases t <;> decide

section Relations
variable {R X : Type} [CommRing R]

/-- The secret of the mask of a wire, as the trusted party knows it. -/
def PreprocGate.secret (g : PreprocGate R X) : R := g.mask.secret

/-- What the trusted party and party `i` store for a gate agrees: every share party `i` holds is its
component of the trusted party's, and the dealer of an input knows its mask. -/
def PreprocExt.Agrees (nP : ℕ) (keySh : ℕ → R) (i : ℕ) (Cmp : X → X → Prop) :
    PreprocExt R X → PreprocExt R X → Prop
  | .gate, .gate => True
  | .input pid v, .input pid' v' => pid' = pid ∧ (pid = i → v' = v)
  | .mult a, .mult b => MaskShare.Agrees nP keySh i a b
  | .mult3 a, .mult3 b => Mult3Masks.All (MaskShare.Agrees nP keySh i) a b
  | .mult4 a, .mult4 b => Mult4Masks.All (MaskShare.Agrees nP keySh i) a b
  | .dotp a, .dotp b => MaskShare.Agrees nP keySh i a b
  | .comparison x, .comparison y => Cmp x y
  | _, _ => False

structure PreprocGate.Agrees (nP : ℕ) (keySh : ℕ → R) (i : ℕ) (Cmp : X → X → Prop)
    (a b : PreprocGate R X) : Prop where
  mask : MaskShare.Agrees nP keySh i a.mask b.mask
  ext : PreprocExt.Agrees nP keySh i Cmp a.ext b.ext

/-- With the masks `δ` on the other wires, the mask of a linear gate opens to the same linear
combination of the masks of its inputs, and the product shares of a multiplication gate open to the
products of the masks of its inputs. Input and comparison gates are not constrained here. -/
def Opens (δ : ℕ → R) (op : Op R) (pregate : PreprocGate R X) : Prop :=
  match op with
  | .kAdd a b => pregate.secret = δ a + δ b
  | .kSub a b => pregate.secret = δ a - δ b
  | .kConstAdd a _ => pregate.secret = δ a
  | .kConstMul a cval => pregate.secret = δ a * cval
  | .kMul a b => ∃ m, pregate.ext = .mult m ∧ m.secret = δ a * δ b
  | .kMul3 a b c => ∃ m, pregate.ext = .mult3 m ∧
      m.map MaskShare.secret = .products (δ a) (δ b) (δ c)
  | .kMul4 a b c d => ∃ m, pregate.ext = .mult4 m ∧
      m.map MaskShare.secret = .products (δ a) (δ b) (δ c) (δ d)
  | .kDotprod xs ys => ∃ m, pregate.ext = .dotp m ∧ m.secret = dotProduct xs ys δ
  | _ => True

theorem Opens.congr {δ δ' : ℕ → R} {op : Op R} {pregate : PreprocGate R X}
    (h : Opens δ op pregate) (hδ : ∀ w ∈ op.inputs, δ w = δ' w) : Opens δ' op pregate := by
  cases op with
  | kDotprod xs ys =>
    obtain ⟨m, hm, hs⟩ := h
    exact ⟨m, hm, hs.trans (dotProduct_congr hδ)⟩
  | _ => simp_all [Opens, Op.inputs]

end Relations

/-! ## Boolean circuits -/

/-- A Boolean circuit has no comparison gates to agree on. -/
def noComparison (_ _ : Empty) : Prop := False

/-- What the trusted party stores for a Boolean circuit opens right, with the masks `mask` on the
input wires. -/
def BoolOpens (circ : Circuit BoolRing) (mask : ℕ → BoolRing) (c : BoolGates) : Prop :=
  ∀ g ∈ circ.gates_, Opens (fun w => (c w).secret) g.op (c g.out) ∧
    (g.type = .kInp → (c g.out).secret = mask g.out)

/-- What the trusted party and party `i` store for a Boolean circuit agrees. -/
def BoolAgrees (nP : ℕ) (bf : ℕ → BoolRing) (i : ℕ) (circ : Circuit BoolRing) (c d : BoolGates) :
    Prop :=
  ∀ g ∈ circ.gates_, PreprocGate.Agrees nP bf i noComparison (c g.out) (d g.out)

end QSync
