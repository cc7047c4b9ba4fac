import Mathlib.Data.List.Basic
import Mathlib.Data.Nat.Bitwise
import Mathlib.Tactic.Ring
import QSync.Foundations.Network

/-! # Fixed-width numbers and packed bits as bytes

* `leBytes k n`, `leNat`: a number as `k` bytes, least significant first, and back; `encodeWords`,
  `decodeWords`: several of them.
* `packWords w`, `unpackWords w`: a bit vector as words of `w` bits, least significant bit first,
  the last word possibly partial, and back.
* `Codec R`: a fixed-size encoding of lists over `R`, carrying its own round trip.
-/

namespace QSync.Network
set_option autoImplicit false
set_option maxHeartbeats 250000

/-! ## Little-endian numbers -/

/-- The number `n` in `k` bytes, least significant first. The last byte takes what is left: below
`256 ^ k` it is a byte (`leBytes_lt`), and a count of elements, which has no bound here, is not
cut off. -/
def leBytes : ℕ → ℕ → Bytes
  | 0, _ => []
  | 1, n => [n]
  | k + 2, n => n % 256 :: leBytes (k + 1) (n / 256)

/-- The number with the given bytes, least significant first. -/
def leNat : Bytes → ℕ
  | [] => 0
  | b :: bs => b + 256 * leNat bs

@[simp] theorem leBytes_length (k n : ℕ) : (leBytes k n).length = k := by
  induction k, n using leBytes.induct with
  | case1 n => rfl
  | case2 n => rfl
  | case3 k n ih => simp [leBytes, ih]

theorem leNat_leBytes {k : ℕ} (hk : 0 < k) (n : ℕ) : leNat (leBytes k n) = n := by
  induction k, n using leBytes.induct with
  | case1 n => omega
  | case2 n => simp [leBytes, leNat]
  | case3 k n ih =>
    rw [leBytes, leNat, ih (Nat.succ_pos k)]
    omega

theorem leNat_lt {bs : Bytes} (h : ∀ b ∈ bs, b < 256) : leNat bs < 256 ^ bs.length := by
  induction bs with
  | nil => exact Nat.one_pos
  | cons b bs ih =>
    have hb := h b (List.mem_cons_self ..)
    have hbs := ih fun c hc => h c (List.mem_cons_of_mem _ hc)
    rw [leNat, List.length_cons, pow_succ]
    omega

theorem leBytes_lt {k n : ℕ} (h : n < 256 ^ k) : ∀ b ∈ leBytes k n, b < 256 := by
  induction k, n using leBytes.induct with
  | case1 n => simp [leBytes]
  | case2 n => simpa [leBytes] using h
  | case3 k n ih =>
    have hdiv : n / 256 < 256 ^ (k + 1) := by
      rw [Nat.div_lt_iff_lt_mul (by decide)]
      rwa [pow_succ] at h
    intro b hb
    obtain rfl | hb := List.mem_cons.mp hb
    · exact Nat.mod_lt _ (by decide)
    · exact ih hdiv b hb

/-- Numbers of `w` bytes each, one after the other. -/
def encodeWords (w : ℕ) (ns : List ℕ) : Bytes := ns.flatMap (leBytes w)

/-- `len` numbers of `w` bytes each. -/
def decodeWords (w : ℕ) : ℕ → Bytes → List ℕ
  | 0, _ => []
  | len + 1, b => leNat (b.take w) :: decodeWords w len (b.drop w)

theorem encodeWords_length (w : ℕ) (ns : List ℕ) : (encodeWords w ns).length = w * ns.length := by
  induction ns with
  | nil => rfl
  | cons n ns ih =>
    rw [encodeWords, List.flatMap_cons, List.length_append, leBytes_length, List.length_cons,
      Nat.mul_succ, Nat.add_comm]
    exact congrArg (· + w) ih

theorem decodeWords_encodeWords {w : ℕ} (hw : 0 < w) (ns : List ℕ) :
    decodeWords w ns.length (encodeWords w ns) = ns := by
  induction ns with
  | nil => rfl
  | cons n ns ih =>
    have hl : (leBytes w n).length = w := leBytes_length _ _
    have hs : encodeWords w (n :: ns) = leBytes w n ++ encodeWords w ns := rfl
    rw [hs, List.length_cons, decodeWords, List.take_left' hl, List.drop_left' hl, ih,
      leNat_leBytes hw]

/-! ## Packed bits -/

/-- One word: bit `j` of the word is the `j`-th of the given bits. -/
def packWord : List Bool → ℕ
  | [] => 0
  | b :: bs => b.toNat + 2 * packWord bs

/-- `n` bits taken off a word from its low end. -/
def unpackWord : ℕ → ℕ → List Bool
  | 0, _ => []
  | n + 1, temp => (temp % 2 == 1) :: unpackWord n (temp / 2)

/-- Pack `bits` into words of `w` bits. -/
def packWords (w : ℕ) (bits : List Bool) : List ℕ :=
  if _h : bits = [] ∨ w = 0 then []
  else packWord (bits.take w) :: packWords w (bits.drop w)
termination_by bits.length
decreasing_by
  have h1 : 0 < bits.length := List.length_pos_iff.mpr (fun e => _h (.inl e))
  have h2 : w ≠ 0 := fun e => _h (.inr e)
  rw [List.length_drop]
  omega

/-- Take `len` bits off words of `w` bits. -/
def unpackWords (w : ℕ) : List ℕ → ℕ → List Bool
  | [], _ => []
  | t :: ts, len => if len = 0 then [] else unpackWord (min w len) t ++ unpackWords w ts (len - w)

@[simp] theorem unpackWord_length (n temp : ℕ) : (unpackWord n temp).length = n := by
  induction n generalizing temp with
  | zero => rfl
  | succ n ih => rw [unpackWord, List.length_cons, ih]

theorem unpackWord_packWord (bits : List Bool) : unpackWord bits.length (packWord bits) = bits := by
  induction bits with
  | nil => rfl
  | cons b bs ih =>
    have h1 : (b.toNat + 2 * packWord bs) % 2 = b.toNat := by
      have := b.toNat_lt
      omega
    have h2 : (b.toNat + 2 * packWord bs) / 2 = packWord bs := by
      have := b.toNat_lt
      omega
    rw [List.length_cons, packWord, unpackWord, h1, h2, ih]
    cases b <;> rfl

theorem packWord_lt (bits : List Bool) : packWord bits < 2 ^ bits.length := by
  induction bits with
  | nil => simp [packWord]
  | cons b bs ih =>
    have := b.toNat_lt
    rw [packWord, List.length_cons, pow_succ]
    omega

theorem packWords_nil (w : ℕ) : packWords w [] = [] := by
  rw [packWords, dif_pos (.inl rfl)]

theorem packWords_cons {w : ℕ} (hw : 0 < w) {bits : List Bool} (h : bits ≠ []) :
    packWords w bits = packWord (bits.take w) :: packWords w (bits.drop w) := by
  rw [packWords, dif_neg (not_or.mpr ⟨h, hw.ne'⟩)]

theorem packWords_length {w : ℕ} (hw : 0 < w) (bits : List Bool) :
    (packWords w bits).length = (bits.length + w - 1) / w := by
  induction hn : bits.length using Nat.strong_induction_on generalizing bits with
  | _ n ih =>
    by_cases h : bits = []
    · subst h
      subst hn
      rw [packWords_nil, List.length_nil, List.length_nil, Nat.zero_add,
        Nat.div_eq_of_lt (Nat.sub_lt hw Nat.one_pos)]
    · have hpos : 0 < bits.length := List.length_pos_iff.mpr h
      have hd : (bits.drop w).length = n - w := by rw [List.length_drop, hn]
      rw [packWords_cons hw h, List.length_cons, ih (n - w) (by omega) _ hd]
      obtain hlt | hge := Nat.lt_or_ge n w
      · rw [Nat.sub_eq_zero_of_le hlt.le, Nat.zero_add,
          Nat.div_eq_of_lt (Nat.sub_lt hw Nat.one_pos), Nat.zero_add]
        exact (Nat.div_eq_of_lt_le (by omega) (by omega)).symm
      · rw [← Nat.add_div_right _ hw]
        congr 1
        omega

theorem packWords_lt {w : ℕ} (hw : 0 < w) (bits : List Bool) :
    ∀ x ∈ packWords w bits, x < 2 ^ w := by
  induction hn : bits.length using Nat.strong_induction_on generalizing bits with
  | _ n ih =>
    by_cases h : bits = []
    · subst h
      simp [packWords_nil]
    · have hpos : 0 < bits.length := List.length_pos_iff.mpr h
      rw [packWords_cons hw h]
      intro x hx
      obtain rfl | hx := List.mem_cons.mp hx
      · exact (packWord_lt _).trans_le
          (Nat.pow_le_pow_right Nat.two_pos (List.length_take_le _ _))
      · exact ih _ (by rw [List.length_drop]; omega) _ rfl x hx

theorem unpackWords_packWords {w : ℕ} (hw : 0 < w) (bits : List Bool) :
    unpackWords w (packWords w bits) bits.length = bits := by
  induction hn : bits.length using Nat.strong_induction_on generalizing bits with
  | _ n ih =>
    by_cases h : bits = []
    · subst h
      rw [packWords_nil, unpackWords]
    · have hpos : 0 < bits.length := List.length_pos_iff.mpr h
      have hd : (bits.drop w).length = n - w := by rw [List.length_drop, hn]
      rw [packWords_cons hw h, unpackWords, if_neg (by omega), ih (n - w) (by omega) _ hd]
      have ht := unpackWord_packWord (bits.take w)
      rw [List.length_take, hn] at ht
      rw [ht, List.take_append_drop]

/-! ## Codecs -/

/-- A fixed-size encoding of lists over `R`: `size n` bytes for `n` elements. -/
structure Codec (R : Type) where
  size : ℕ → ℕ
  encode : List R → Bytes
  decode : ℕ → Bytes → List R
  encode_length : ∀ xs, (encode xs).length = size xs.length
  decode_encode : ∀ xs, decode xs.length (encode xs) = xs

theorem Codec.decode_encode' {R : Type} (c : Codec R) {xs : List R} {n : ℕ} (h : xs.length = n) :
    c.decode n (c.encode xs) = xs := h ▸ c.decode_encode xs

end QSync.Network
