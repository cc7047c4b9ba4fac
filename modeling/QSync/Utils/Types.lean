import Mathlib.Algebra.Ring.BooleanRing
import Mathlib.Data.ZMod.Basic
import Mathlib.Data.Nat.Bitwise
import QSync.Foundations.Bytes

/-! # The two rings of the protocol and their wire formats

`Field` is the integers modulo `ZZ_p::modulus()`, of which every element fits `FIELDSIZE` = 8 bytes;
`BoolRing` is a bit with exclusive or and conjunction. Field elements travel as 8 little-endian
bytes each (`NetIOMP::send(int, const ZZ_p*, size_t)`), bits packed eight to a byte
(`BoolRing::pack`).
-/

namespace QSync
open Network
set_option autoImplicit false
set_option maxHeartbeats 250000

/-! ## Field -/

/-- `FIELDSIZE`, in bytes. -/
def FIELDSIZE : ℕ := 8

/-- A modulus the field can be initialised with: `ZZ_p::init` needs more than 1, and the elements
are stored in `FIELDSIZE` bytes. -/
structure Modulus where
  p : ℕ
  one_lt : 1 < p
  le_size : p ≤ 2 ^ 64

/-- The modulus of the tests and benchmarks. -/
def testModulus : Modulus := ⟨17816577890427308801, by decide, by decide⟩

/-- `Field = ZZ_p`. -/
abbrev Field (M : Modulus) : Type := ZMod M.p

instance (M : Modulus) : NeZero M.p := ⟨(Nat.zero_lt_of_lt M.one_lt).ne'⟩
instance (M : Modulus) : Fact (1 < M.p) := ⟨M.one_lt⟩

/-! Numerals of a field refer to these. -/

instance atLeastTwo_two : Nat.AtLeastTwo 2 := ⟨le_rfl⟩

instance atLeastTwo_five : Nat.AtLeastTwo 5 := ⟨by decide⟩

theorem field_val_lt {M : Modulus} (x : Field M) : x.val < 2 ^ 64 :=
  (ZMod.val_lt x).trans_le M.le_size

/-- `NetIOMP::send` of field elements: `BytesFromZZ` of each, `FIELDSIZE` bytes apart. -/
def serializeField {M : Modulus} (data : List (Field M)) : Bytes :=
  encodeWords FIELDSIZE (data.map ZMod.val)

/-- `NetIOMP::recv` of `num` field elements: `ZZFromBytes` of every `FIELDSIZE` bytes, modulo `p`. -/
def deserializeField {M : Modulus} (num : ℕ) (serialized : Bytes) : List (Field M) :=
  (decodeWords FIELDSIZE num serialized).map (Nat.cast : ℕ → Field M)

theorem serializeField_length {M : Modulus} (data : List (Field M)) :
    (serializeField data).length = FIELDSIZE * data.length := by
  rw [serializeField, encodeWords_length, List.length_map]

theorem deserializeField_serializeField {M : Modulus} (data : List (Field M)) :
    deserializeField data.length (serializeField data) = data := by
  have h := decodeWords_encodeWords (by decide : 0 < FIELDSIZE) (data.map ZMod.val)
  rw [List.length_map] at h
  rw [deserializeField, serializeField, h, List.map_map]
  exact (List.map_congr_left fun x _ => by simp).trans (List.map_id _)

theorem serializeField_lt {M : Modulus} (data : List (Field M)) :
    ∀ b ∈ serializeField data, b < 256 := by
  intro b hb
  obtain ⟨n, hn, hb⟩ := List.mem_flatMap.mp hb
  obtain ⟨x, -, rfl⟩ := List.mem_map.mp hn
  exact leBytes_lt (field_val_lt x) b hb

/-- The wire format of field elements. -/
def fieldCodec (M : Modulus) : Codec (Field M) where
  size := fun n => FIELDSIZE * n
  encode := serializeField
  decode := deserializeField
  encode_length := serializeField_length
  decode_encode := deserializeField_serializeField

/-! ## BoolRing -/

/-- `BoolRing`: addition and subtraction are exclusive or, multiplication is conjunction. -/
abbrev BoolRing : Type := Bool

theorem BoolRing.add_self (a : BoolRing) : a + a = 0 := by cases a <;> rfl

def BoolRing.pack (data : List BoolRing) : Bytes := packWords 8 data

def BoolRing.unpack (packed : Bytes) (len : ℕ) : List BoolRing := unpackWords 8 packed len

theorem BoolRing.pack_length (data : List BoolRing) :
    (BoolRing.pack data).length = (data.length + 7) / 8 := packWords_length (by decide) data

theorem BoolRing.unpack_pack (data : List BoolRing) :
    BoolRing.unpack (BoolRing.pack data) data.length = data :=
  unpackWords_packWords (by decide) data

theorem BoolRing.pack_lt (data : List BoolRing) : ∀ b ∈ BoolRing.pack data, b < 256 :=
  packWords_lt (by decide) data

/-- The wire format of bits: `(n + 7) / 8` bytes for `n` bits. -/
def bitCodec : Codec BoolRing where
  size := fun n => (n + 7) / 8
  encode := BoolRing.pack
  decode := fun n b => BoolRing.unpack b n
  encode_length := BoolRing.pack_length
  decode_encode := BoolRing.unpack_pack

/-- `sizeof(BoolRing)` bytes for each bit, as they stand in memory. -/
def rawBits : Codec BoolRing where
  size := id
  encode := List.map Bool.toNat
  decode := fun n b => (List.range n).map fun k => b.getD k 0 != 0
  encode_length := fun xs => List.length_map _
  decode_encode := by
    intro xs
    apply List.ext_getElem
    · simp
    · intro k h1 h2
      cases h : xs[k] <;> simp [List.getD_eq_getElem?_getD, h2, h]

/-- A bit as a field element: `arith_b` of the offline phase, `output_share_val` of the online
phase. -/
def arithBit {M : Modulus} (b : BoolRing) : Field M := if b then 1 else 0

theorem arithBit_add {M : Modulus} (a b : BoolRing) :
    (arithBit (a + b) : Field M) = arithBit a + arithBit b - 2 * arithBit a * arithBit b := by
  change arithBit (a ^^ b) = _
  cases a <;> cases b <;> norm_num [arithBit]

theorem arithBit_mul_self {M : Modulus} (a : BoolRing) :
    (arithBit a * arithBit a : Field M) = arithBit a := by
  cases a <;> simp [arithBit]

/-! ## Bit decomposition -/

/-- `bitDecompose` of a 64-bit word, least significant bit first. -/
def bitDecompose (val : ℕ) : List BoolRing := (List.range 64).map fun i => val.testBit i

/-- `bitDecomposeTwo` of a field element: the bits of `conv<uint64_t>(value)`. -/
def bitDecomposeTwo {M : Modulus} (value : Field M) : List BoolRing :=
  bitDecompose (value.val % 2 ^ 64)

theorem bitDecompose_getD (val : ℕ) {i : ℕ} (hi : i < 64) :
    (bitDecompose val).getD i 0 = val.testBit i := by
  simp [bitDecompose, List.getD_eq_getElem?_getD, hi]

theorem bitDecomposeTwo_getD {M : Modulus} (value : Field M) (i : ℕ) :
    (bitDecomposeTwo value).getD i 0 = value.val.testBit i := by
  have hlt := field_val_lt value
  rw [bitDecomposeTwo, Nat.mod_eq_of_lt hlt]
  by_cases hi : i < 64
  · exact bitDecompose_getD _ hi
  · rw [Nat.testBit_lt_two_pow (hlt.trans_le (Nat.pow_le_pow_right Nat.two_pos (by omega)))]
    simp [bitDecompose, List.getD_eq_getElem?_getD, hi]
    rfl

theorem testBit_63 {n : ℕ} (hn : n < 2 ^ 64) : n.testBit 63 = decide (2 ^ 63 ≤ n) := by
  rw [Nat.testBit_eq_decide_div_mod_eq]
  refine decide_eq_decide.mpr ?_
  omega

end QSync
