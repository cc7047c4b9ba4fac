import QSync.Asterisk.RandGenPool
import QSync.Foundations.AuthSharing
import Mathlib.Algebra.BigOperators.Intervals

/-! # Authenticated additive shares

`AuthAddShare` is what party `i` in `1..nP` holds of a shared value, `TPShare` is what the trusted
party holds of it: the shares of everybody (`asterisk/sharing.h`). Index 0 of a `TPShare` belongs to
the trusted party itself and is zero.

`TPShare.Valid` says that the shares of a `TPShare` sum to its secret and its tags to key times
secret; the operations keep it, and commute with taking the share of one party
(`TPShare.getAAS_add` and so on).
-/

namespace QSync
set_option autoImplicit false
set_option maxHeartbeats 250000

structure AuthAddShare (R : Type) where
  key_sh_ : R
  value_ : R
  tag_ : R

structure TPShare (R : Type) where
  key_ : R
  key_sh_ : List R
  values_ : List R
  tags_ : List R

variable {R : Type} [CommRing R]

namespace AuthAddShare

instance : Inhabited (AuthAddShare R) := ⟨⟨0, 0, 0⟩⟩

/-- `operator+=`: the key share is the one of the right operand. -/
instance : Add (AuthAddShare R) where
  add lhs rhs := ⟨rhs.key_sh_, lhs.value_ + rhs.value_, lhs.tag_ + rhs.tag_⟩

/-- `operator*=` by a public constant. -/
instance : HMul (AuthAddShare R) R (AuthAddShare R) where
  hMul lhs rhs := ⟨lhs.key_sh_, lhs.value_ * rhs, lhs.tag_ * rhs⟩

/-- `operator-=`: adds the right operand times `R(-1)`. -/
instance : Sub (AuthAddShare R) where
  sub lhs rhs := lhs + rhs * (-1 : R)

/-- `addWithAdder`: a public constant, which party `adder` adds to its value. -/
def addWithAdder (s : AuthAddShare R) (val : R) (pid adder : ℕ) : AuthAddShare R :=
  if pid = adder then ⟨s.key_sh_, s.value_ + val, s.tag_ + s.key_sh_ * val⟩
  else ⟨s.key_sh_, s.value_, s.tag_ + s.key_sh_ * val⟩

/-- `add`: party 1 is the adder. -/
def add (s : AuthAddShare R) (val : R) (pid : ℕ) : AuthAddShare R := s.addWithAdder val pid 1

@[simp] theorem add_key (a b : AuthAddShare R) : (a + b).key_sh_ = b.key_sh_ := rfl
@[simp] theorem add_value (a b : AuthAddShare R) : (a + b).value_ = a.value_ + b.value_ := rfl
@[simp] theorem add_tag (a b : AuthAddShare R) : (a + b).tag_ = a.tag_ + b.tag_ := rfl
@[simp] theorem mul_key (a : AuthAddShare R) (c : R) : (a * c).key_sh_ = a.key_sh_ := rfl
@[simp] theorem mul_value (a : AuthAddShare R) (c : R) : (a * c).value_ = a.value_ * c := rfl
@[simp] theorem mul_tag (a : AuthAddShare R) (c : R) : (a * c).tag_ = a.tag_ * c := rfl
@[simp] theorem sub_key (a b : AuthAddShare R) : (a - b).key_sh_ = b.key_sh_ := rfl

@[simp] theorem sub_value (a b : AuthAddShare R) : (a - b).value_ = a.value_ - b.value_ := by
  change a.value_ + b.value_ * -1 = _
  ring

@[simp] theorem sub_tag (a b : AuthAddShare R) : (a - b).tag_ = a.tag_ - b.tag_ := by
  change a.tag_ + b.tag_ * -1 = _
  ring

@[simp] theorem addWithAdder_key (s : AuthAddShare R) (val : R) (pid adder : ℕ) :
    (s.addWithAdder val pid adder).key_sh_ = s.key_sh_ := by
  unfold addWithAdder
  split <;> rfl

@[simp] theorem addWithAdder_value (s : AuthAddShare R) (val : R) (pid adder : ℕ) :
    (s.addWithAdder val pid adder).value_ =
      if pid = adder then s.value_ + val else s.value_ := by
  unfold addWithAdder
  split <;> rfl

@[simp] theorem addWithAdder_tag (s : AuthAddShare R) (val : R) (pid adder : ℕ) :
    (s.addWithAdder val pid adder).tag_ = s.tag_ + s.key_sh_ * val := by
  unfold addWithAdder
  split <;> rfl

end AuthAddShare

namespace TPShare

/-- A default-constructed share: empty vectors. -/
instance : Inhabited (TPShare R) := ⟨⟨0, [], [], []⟩⟩

/-- `operator+=`: indexes from 1 on. -/
instance : Add (TPShare R) where
  add lhs rhs :=
    { key_ := rhs.key_
      key_sh_ := lhs.key_sh_.mapIdx fun i k => if i = 0 then k else rhs.key_sh_.getD i 0
      values_ := lhs.values_.mapIdx fun i v => if i = 0 then v else v + rhs.values_.getD i 0
      tags_ := lhs.tags_.mapIdx fun i t => if i = 0 then t else t + rhs.tags_.getD i 0 }

/-- `operator*=` by a public constant: indexes from 1 on. -/
instance : HMul (TPShare R) R (TPShare R) where
  hMul lhs rhs :=
    { key_ := lhs.key_
      key_sh_ := lhs.key_sh_
      values_ := lhs.values_.mapIdx fun i v => if i = 0 then v else v * rhs
      tags_ := lhs.tags_.mapIdx fun i t => if i = 0 then t else t * rhs }

instance : Sub (TPShare R) where
  sub lhs rhs := lhs + rhs * (-1 : R)

/-- `secret`: the sum of the values. -/
def secret (s : TPShare R) : R := s.values_.sum

/-- `getAAS`: the share of party `pid`. -/
def getAAS (s : TPShare R) (pid : ℕ) : AuthAddShare R :=
  ⟨s.key_sh_.getD pid 0, s.values_.getD pid 0, s.tags_.getD pid 0⟩

/-- Shares of `nP` parties under the key shares `keySh`: the tags sum to the key times the sum of
the values. -/
structure Valid (nP : ℕ) (keySh : ℕ → R) (s : TPShare R) : Prop where
  key_eq : s.key_ = ∑ i ∈ Finset.Icc 1 nP, keySh i
  key_sh_eq : s.key_sh_ = 0 :: (List.range nP).map fun i => keySh (i + 1)
  values_length : s.values_.length = nP + 1
  tags_length : s.tags_.length = nP + 1
  value_zero : s.values_.getD 0 0 = 0
  tag_zero : s.tags_.getD 0 0 = 0
  tagged : s.tags_.sum = s.key_ * s.values_.sum

/-- One entry for the trusted party and for each of the `nP` others in every vector. -/
structure Sized (nP : ℕ) (s : TPShare R) : Prop where
  key_sh_length : s.key_sh_.length = nP + 1
  values_length : s.values_.length = nP + 1
  tags_length : s.tags_.length = nP + 1

theorem getD_mapIdx {α : Type} (l : List α) (f : ℕ → α → α) (a : α) (i : ℕ) (h : i < l.length) :
    (l.mapIdx f).getD i a = f i (l.getD i a) := by
  simp [List.getD_eq_getElem?_getD, h]

theorem sum_eq_sum_getD (l : List R) : l.sum = ∑ i ∈ Finset.range l.length, l.getD i 0 := by
  induction l with
  | nil => rfl
  | cons a l ih =>
    rw [List.sum_cons, List.length_cons, Finset.sum_range_succ', ih, add_comm]
    rfl

/-- A list of `nP + 1` elements that starts with zero sums to the sum of the others. -/
theorem sum_of_getD {l : List R} {nP : ℕ} (hl : l.length = nP + 1) (h0 : l.getD 0 0 = 0) :
    l.sum = ∑ i ∈ Finset.Icc 1 nP, l.getD i 0 := by
  rw [sum_eq_sum_getD, hl, Finset.sum_range_succ', h0, add_zero, Finset.range_eq_Ico]
  exact Finset.sum_Ico_add' (fun i => l.getD i 0) 0 nP 1

variable {nP : ℕ} {keySh : ℕ → R} {s t : TPShare R}

theorem Valid.sized (h : Valid nP keySh s) : Sized nP s where
  key_sh_length := by simp [h.key_sh_eq]
  values_length := h.values_length
  tags_length := h.tags_length

theorem Valid.key_sh_getD (h : Valid nP keySh s) {i : ℕ} (hi : 1 ≤ i) (hn : i ≤ nP) :
    s.key_sh_.getD i 0 = keySh i := by
  obtain ⟨j, rfl⟩ : ∃ j, i = j + 1 := ⟨i - 1, by omega⟩
  have hj : j < nP := by omega
  simp [h.key_sh_eq, List.getD_eq_getElem?_getD, hj]

theorem Valid.authenticates (h : Valid nP keySh s) :
    AuthSharing.Authenticates (Finset.Icc 1 nP) keySh (fun i => (s.getAAS i).value_)
      (fun i => (s.getAAS i).tag_) s.secret where
  opens := (sum_of_getD h.values_length h.value_zero).symm
  tagged := by
    rw [← h.key_eq, secret, ← h.tagged, sum_of_getD h.tags_length h.tag_zero]
    rfl

/-! ## Linear operations -/

omit [CommRing R] in
theorem Sized.key_sh_mapIdx (hs : Sized nP s) (f : ℕ → R → R) (a : R) {i : ℕ} (hn : i ≤ nP) :
    (s.key_sh_.mapIdx f).getD i a = f i (s.key_sh_.getD i a) :=
  getD_mapIdx _ _ _ _ (by rw [hs.key_sh_length]; omega)

omit [CommRing R] in
theorem Sized.values_mapIdx (hs : Sized nP s) (f : ℕ → R → R) (a : R) {i : ℕ} (hn : i ≤ nP) :
    (s.values_.mapIdx f).getD i a = f i (s.values_.getD i a) :=
  getD_mapIdx _ _ _ _ (by rw [hs.values_length]; omega)

omit [CommRing R] in
theorem Sized.tags_mapIdx (hs : Sized nP s) (f : ℕ → R → R) (a : R) {i : ℕ} (hn : i ≤ nP) :
    (s.tags_.mapIdx f).getD i a = f i (s.tags_.getD i a) :=
  getD_mapIdx _ _ _ _ (by rw [hs.tags_length]; omega)

theorem Sized.add (hs : Sized nP s) (t : TPShare R) : Sized nP (s + t) :=
  ⟨List.length_mapIdx.trans hs.key_sh_length, List.length_mapIdx.trans hs.values_length,
    List.length_mapIdx.trans hs.tags_length⟩

theorem Sized.mul (hs : Sized nP s) (c : R) : Sized nP (s * c) :=
  ⟨hs.key_sh_length, List.length_mapIdx.trans hs.values_length,
    List.length_mapIdx.trans hs.tags_length⟩

/-- Entry 0 is left alone. -/
theorem getAAS_add_zero (hs : Sized nP s) (t : TPShare R) : (s + t).getAAS 0 = s.getAAS 0 := by
  change AuthAddShare.mk _ _ _ = AuthAddShare.mk _ _ _
  simp only [HAdd.hAdd, Add.add]
  rw [hs.key_sh_mapIdx _ _ (Nat.zero_le nP), hs.values_mapIdx _ _ (Nat.zero_le nP),
    hs.tags_mapIdx _ _ (Nat.zero_le nP), if_pos rfl, if_pos rfl, if_pos rfl]

theorem getAAS_mul_zero (hs : Sized nP s) (c : R) : (s * c).getAAS 0 = s.getAAS 0 := by
  change AuthAddShare.mk _ _ _ = AuthAddShare.mk _ _ _
  simp only [HMul.hMul]
  rw [hs.values_mapIdx _ _ (Nat.zero_le nP), hs.tags_mapIdx _ _ (Nat.zero_le nP), if_pos rfl,
    if_pos rfl]

theorem getAAS_add (hs : Sized nP s) (t : TPShare R) {i : ℕ} (hi : 1 ≤ i) (hn : i ≤ nP) :
    (s + t).getAAS i = s.getAAS i + t.getAAS i := by
  have hne : i ≠ 0 := by omega
  change AuthAddShare.mk _ _ _ = AuthAddShare.mk _ _ _
  simp only [HAdd.hAdd, Add.add, getAAS]
  rw [hs.key_sh_mapIdx _ _ hn, hs.values_mapIdx _ _ hn, hs.tags_mapIdx _ _ hn, if_neg hne,
    if_neg hne, if_neg hne]

theorem getAAS_mul (hs : Sized nP s) (c : R) {i : ℕ} (hi : 1 ≤ i) (hn : i ≤ nP) :
    (s * c).getAAS i = s.getAAS i * c := by
  have hne : i ≠ 0 := by omega
  change AuthAddShare.mk _ _ _ = AuthAddShare.mk _ _ _
  simp only [HMul.hMul, getAAS]
  rw [hs.values_mapIdx _ _ hn, hs.tags_mapIdx _ _ hn, if_neg hne, if_neg hne]

theorem getAAS_sub (hs : Sized nP s) (ht : Sized nP t) {i : ℕ} (hi : 1 ≤ i) (hn : i ≤ nP) :
    (s - t).getAAS i = s.getAAS i - t.getAAS i := by
  change (s + t * (-1 : R)).getAAS i = s.getAAS i + t.getAAS i * (-1 : R)
  rw [getAAS_add hs _ hi hn, getAAS_mul ht _ hi hn]

@[simp] theorem secret_def (s : TPShare R) : s.values_.sum = s.secret := rfl

theorem getAAS_key (hs : Valid nP keySh s) {i : ℕ} (hi : 1 ≤ i) (hn : i ≤ nP) :
    (s.getAAS i).key_sh_ = keySh i := hs.key_sh_getD hi hn

/-- A `TPShare` with the right lengths and a zero entry for the trusted party is valid when the
shares of the parties authenticate something. -/
theorem Valid.of_authenticates {x : R} (hkey : s.key_ = ∑ i ∈ Finset.Icc 1 nP, keySh i)
    (hk : s.key_sh_ = 0 :: (List.range nP).map fun i => keySh (i + 1))
    (hv : s.values_.length = nP + 1) (ht : s.tags_.length = nP + 1)
    (hv0 : s.values_.getD 0 0 = 0) (ht0 : s.tags_.getD 0 0 = 0)
    (h : AuthSharing.Authenticates (Finset.Icc 1 nP) keySh (fun i => s.values_.getD i 0)
      (fun i => s.tags_.getD i 0) x) : Valid nP keySh s ∧ s.secret = x := by
  have hsec : s.secret = x := by rw [secret, sum_of_getD hv hv0, h.opens]
  refine ⟨⟨hkey, hk, hv, ht, hv0, ht0, ?_⟩, hsec⟩
  rw [secret_def, hsec, hkey, sum_of_getD ht ht0, h.tagged]

theorem add_valid (hs : Valid nP keySh s) (ht : Valid nP keySh t) :
    Valid nP keySh (s + t) ∧ (s + t).secret = s.secret + t.secret := by
  have hk : (s + t).key_sh_ = t.key_sh_ := by
    have hlen : s.key_sh_ = t.key_sh_ := hs.key_sh_eq.trans ht.key_sh_eq.symm
    change s.key_sh_.mapIdx _ = _
    rw [hlen]
    refine List.ext_getElem (by simp) fun i h1 h2 => ?_
    simp [List.getD_eq_getElem?_getD, h2]
  refine Valid.of_authenticates ht.key_eq (hk.trans ht.key_sh_eq) ?_ ?_ ?_ ?_ ?_
  · exact List.length_mapIdx.trans hs.values_length
  · exact List.length_mapIdx.trans hs.tags_length
  · exact (getD_mapIdx _ _ _ _ (by rw [hs.values_length]; omega)).trans hs.value_zero
  · exact (getD_mapIdx _ _ _ _ (by rw [hs.tags_length]; omega)).trans hs.tag_zero
  · have h := hs.authenticates.add ht.authenticates
    refine ⟨?_, ?_⟩
    · rw [← h.opens]
      refine Finset.sum_congr rfl fun i hi => ?_
      obtain ⟨h1, hn⟩ := Finset.mem_Icc.mp hi
      exact congrArg AuthAddShare.value_ (getAAS_add hs.sized t h1 hn)
    · rw [← h.tagged]
      refine Finset.sum_congr rfl fun i hi => ?_
      obtain ⟨h1, hn⟩ := Finset.mem_Icc.mp hi
      exact congrArg AuthAddShare.tag_ (getAAS_add hs.sized t h1 hn)

theorem mul_valid (hs : Valid nP keySh s) (c : R) :
    Valid nP keySh (s * c) ∧ (s * c).secret = s.secret * c := by
  refine Valid.of_authenticates hs.key_eq hs.key_sh_eq ?_ ?_ ?_ ?_ ?_
  · exact List.length_mapIdx.trans hs.values_length
  · exact List.length_mapIdx.trans hs.tags_length
  · exact (getD_mapIdx _ _ _ _ (by rw [hs.values_length]; omega)).trans hs.value_zero
  · exact (getD_mapIdx _ _ _ _ (by rw [hs.tags_length]; omega)).trans hs.tag_zero
  · have h := hs.authenticates.mul_const c
    refine ⟨?_, ?_⟩
    · rw [← h.opens]
      refine Finset.sum_congr rfl fun i hi => ?_
      obtain ⟨h1, hn⟩ := Finset.mem_Icc.mp hi
      exact congrArg AuthAddShare.value_ (getAAS_mul hs.sized c h1 hn)
    · rw [← h.tagged]
      refine Finset.sum_congr rfl fun i hi => ?_
      obtain ⟨h1, hn⟩ := Finset.mem_Icc.mp hi
      exact congrArg AuthAddShare.tag_ (getAAS_mul hs.sized c h1 hn)

theorem sub_valid (hs : Valid nP keySh s) (ht : Valid nP keySh t) :
    Valid nP keySh (s - t) ∧ (s - t).secret = s.secret - t.secret := by
  obtain ⟨hm, hms⟩ := mul_valid ht (-1)
  obtain ⟨ha, has⟩ := add_valid hs hm
  refine ⟨ha, ?_⟩
  change (s + t * (-1 : R)).secret = _
  rw [has, hms]
  ring

end TPShare

/-! ## The shares of the parties and the copy of the trusted party -/

/-- The parties `1..nP`, party `i` with the key share `keySh i`, hold the shares `a i` of `x`: the
values sum to `x`, the tags to the sum of the key shares times `x`. -/
structure Sharing (nP : ℕ) (keySh : ℕ → R) (a : ℕ → AuthAddShare R) (x : R) : Prop where
  key_eq : ∀ i ∈ Finset.Icc 1 nP, (a i).key_sh_ = keySh i
  auth : AuthSharing.Authenticates (Finset.Icc 1 nP) keySh (fun i => (a i).value_)
    (fun i => (a i).tag_) x

namespace Sharing
variable {nP : ℕ} {keySh : ℕ → R} {a b : ℕ → AuthAddShare R} {x y : R}

theorem add (h : Sharing nP keySh a x) (h' : Sharing nP keySh b y) :
    Sharing nP keySh (fun i => a i + b i) (x + y) :=
  ⟨h'.key_eq, h.auth.add h'.auth⟩

theorem mul (h : Sharing nP keySh a x) (c : R) : Sharing nP keySh (fun i => a i * c) (x * c) :=
  ⟨h.key_eq, h.auth.mul_const c⟩

theorem sub (h : Sharing nP keySh a x) (h' : Sharing nP keySh b y) :
    Sharing nP keySh (fun i => a i - b i) (x - y) := by
  have hsub := h.add (h'.mul (-1))
  rw [mul_neg_one, ← sub_eq_add_neg] at hsub
  exact hsub

theorem addWithAdder (h : Sharing nP keySh a x) (c : R) {adder : ℕ}
    (hadder : adder ∈ Finset.Icc 1 nP) :
    Sharing nP keySh (fun i => (a i).addWithAdder c i adder) (x + c) := by
  have hadd := h.auth.add_const hadder c
  refine ⟨fun i hi => ?_, ⟨?_, ?_⟩⟩
  · rw [AuthAddShare.addWithAdder_key, h.key_eq i hi]
  · simp only [AuthAddShare.addWithAdder_value]
    exact hadd.opens
  · rw [← hadd.tagged]
    refine Finset.sum_congr rfl fun i hi => ?_
    rw [AuthAddShare.addWithAdder_tag, h.key_eq i hi]

end Sharing

/-- The trusted party holds in `s` the shares `a i` of the parties `1..nP`, and zero for itself. -/
structure TPShare.Holds (nP : ℕ) (s : TPShare R) (a : ℕ → AuthAddShare R) : Prop where
  sized : s.Sized nP
  zero : s.getAAS 0 = ⟨0, 0, 0⟩
  share_eq : ∀ i ∈ Finset.Icc 1 nP, s.getAAS i = a i

namespace TPShare.Holds
variable {nP : ℕ} {s t : TPShare R} {a b : ℕ → AuthAddShare R}

theorem add (h : s.Holds nP a) (h' : t.Holds nP b) : (s + t).Holds nP fun i => a i + b i where
  sized := h.sized.add t
  zero := (getAAS_add_zero h.sized t).trans h.zero
  share_eq i hi := by
    obtain ⟨h1, hn⟩ := Finset.mem_Icc.mp hi
    rw [getAAS_add h.sized t h1 hn, h.share_eq i hi, h'.share_eq i hi]

theorem mul (h : s.Holds nP a) (c : R) : (s * c).Holds nP fun i => a i * c where
  sized := h.sized.mul c
  zero := (getAAS_mul_zero h.sized c).trans h.zero
  share_eq i hi := by
    obtain ⟨h1, hn⟩ := Finset.mem_Icc.mp hi
    rw [getAAS_mul h.sized c h1 hn, h.share_eq i hi]

theorem sub (h : s.Holds nP a) (h' : t.Holds nP b) : (s - t).Holds nP fun i => a i - b i :=
  h.add (h'.mul (-1))

theorem secret_eq (h : s.Holds nP a) : s.secret = ∑ i ∈ Finset.Icc 1 nP, (a i).value_ := by
  rw [secret, sum_of_getD h.sized.values_length (congrArg AuthAddShare.value_ h.zero)]
  exact Finset.sum_congr rfl fun i hi => congrArg AuthAddShare.value_ (h.share_eq i hi)

end TPShare.Holds

/-- The operations keep the MAC relation and the key shares and act on what is shared, and the copy
of the trusted party follows the shares of the parties. -/
theorem share_homomorphism (nP : ℕ) (hnP : 1 ≤ nP) :
    (∀ (keySh : ℕ → R) (a b : ℕ → AuthAddShare R) (x y c : R),
      Sharing nP keySh a x → Sharing nP keySh b y →
      Sharing nP keySh (fun i => a i + b i) (x + y) ∧
      Sharing nP keySh (fun i => a i - b i) (x - y) ∧
      Sharing nP keySh (fun i => a i * c) (c * x) ∧
      Sharing nP keySh (fun i => (a i).add c i) (x + c) ∧
      ∀ adder ∈ Finset.Icc 1 nP,
        Sharing nP keySh (fun i => (a i).addWithAdder c i adder) (x + c)) ∧
    ∀ (s t : TPShare R) (a b : ℕ → AuthAddShare R) (c : R), s.Holds nP a → t.Holds nP b →
      ((s + t).Holds nP fun i => a i + b i) ∧
      ((s - t).Holds nP fun i => a i - b i) ∧
      ((s * c).Holds nP fun i => a i * c) ∧
      (s + t).secret = ∑ i ∈ Finset.Icc 1 nP, (a i + b i).value_ ∧
      (s - t).secret = ∑ i ∈ Finset.Icc 1 nP, (a i - b i).value_ ∧
      (s * c).secret = ∑ i ∈ Finset.Icc 1 nP, (a i * c).value_ := by
  constructor
  · intro keySh a b x y c ha hb
    have hmul := ha.mul c
    rw [mul_comm] at hmul
    have hone : 1 ∈ Finset.Icc 1 nP := Finset.mem_Icc.mpr ⟨le_rfl, hnP⟩
    exact ⟨ha.add hb, ha.sub hb, hmul, ha.addWithAdder c hone, fun adder h => ha.addWithAdder c h⟩
  · intro s t a b c hs ht
    have hadd := hs.add ht
    have hsub := hs.sub ht
    have hmul := hs.mul c
    exact ⟨hadd, hsub, hmul, hadd.secret_eq, hsub.secret_eq, hmul.secret_eq⟩

/-- Two parties with the key shares 5 and 1 and the shares 3 and 4 of 7, added to themselves. -/
theorem share_homomorphism_two :
    let a : ℕ → AuthAddShare ℤ := fun i => if i = 1 then ⟨5, 3, 40⟩ else ⟨1, 4, 2⟩
    Sharing 2 (fun i => if i = 1 then 5 else 1) (fun i => a i + a i) 14 ∧
    (⟨6, [0, 5, 1], [0, 3, 4], [0, 40, 2]⟩ + ⟨6, [0, 5, 1], [0, 3, 4], [0, 40, 2]⟩ :
      TPShare ℤ).secret = 14 := by
  intro a
  have ha : Sharing 2 (fun i => if i = 1 then 5 else 1) a 7 := by
    refine ⟨fun i _ => ?_, ⟨by decide, by decide⟩⟩
    by_cases h : i = 1 <;> simp [a, h]
  have hs : TPShare.Holds 2 (⟨6, [0, 5, 1], [0, 3, 4], [0, 40, 2]⟩ : TPShare ℤ) a := by
    refine ⟨⟨rfl, rfl, rfl⟩, rfl, fun i hi => ?_⟩
    obtain ⟨h1, h2⟩ := Finset.mem_Icc.mp hi
    obtain rfl | rfl : i = 1 ∨ i = 2 := by omega
    · rfl
    · rfl
  obtain ⟨hfam, htp⟩ := share_homomorphism (R := ℤ) 2 (by decide)
  exact ⟨(hfam _ a a 7 7 0 ha ha).1, (htp _ _ a a 0 hs hs).2.2.2.1⟩

/-! ## What a party stores of a shared value -/

/-- A pair of members `mask`, `tpmask`: the trusted party fills the second, the others the first. -/
structure MaskShare (R : Type) where
  sh : AuthAddShare R
  tp : TPShare R

namespace MaskShare

instance : Inhabited (MaskShare R) := ⟨⟨default, default⟩⟩

instance : Add (MaskShare R) where
  add a b := ⟨a.sh + b.sh, a.tp + b.tp⟩

instance : Sub (MaskShare R) where
  sub a b := ⟨a.sh - b.sh, a.tp - b.tp⟩

instance : HMul (MaskShare R) R (MaskShare R) where
  hMul a c := ⟨a.sh * c, a.tp * c⟩

/-- The secret the trusted party knows. -/
def secret (a : MaskShare R) : R := a.tp.secret

/-- What the trusted party stores as `a`, party `i` stores as `b`: its component of a valid
sharing. -/
structure Agrees (nP : ℕ) (keySh : ℕ → R) (i : ℕ) (a b : MaskShare R) : Prop where
  valid : a.tp.Valid nP keySh
  share_eq : b.sh = a.tp.getAAS i

variable {nP i : ℕ} {keySh : ℕ → R} {a b a' b' : MaskShare R}

theorem Agrees.add (hi : 1 ≤ i) (hn : i ≤ nP) (h : Agrees nP keySh i a b)
    (h' : Agrees nP keySh i a' b') :
    Agrees nP keySh i (a + a') (b + b') ∧ (a + a').secret = a.secret + a'.secret := by
  obtain ⟨hv, hs⟩ := TPShare.add_valid h.valid h'.valid
  refine ⟨⟨hv, ?_⟩, hs⟩
  change b.sh + b'.sh = (a.tp + a'.tp).getAAS i
  rw [TPShare.getAAS_add h.valid.sized _ hi hn, h.share_eq, h'.share_eq]

theorem Agrees.sub (hi : 1 ≤ i) (hn : i ≤ nP) (h : Agrees nP keySh i a b)
    (h' : Agrees nP keySh i a' b') :
    Agrees nP keySh i (a - a') (b - b') ∧ (a - a').secret = a.secret - a'.secret := by
  obtain ⟨hv, hs⟩ := TPShare.sub_valid h.valid h'.valid
  refine ⟨⟨hv, ?_⟩, hs⟩
  change b.sh - b'.sh = (a.tp - a'.tp).getAAS i
  rw [TPShare.getAAS_sub h.valid.sized h'.valid.sized hi hn, h.share_eq, h'.share_eq]

theorem Agrees.mul (hi : 1 ≤ i) (hn : i ≤ nP) (h : Agrees nP keySh i a b) (c : R) :
    Agrees nP keySh i (a * c) (b * c) ∧ (a * c).secret = a.secret * c := by
  obtain ⟨hv, hs⟩ := TPShare.mul_valid h.valid c
  refine ⟨⟨hv, ?_⟩, hs⟩
  change b.sh * c = (a.tp * c).getAAS i
  rw [TPShare.getAAS_mul h.valid.sized _ hi hn, h.share_eq]

end MaskShare

end QSync
