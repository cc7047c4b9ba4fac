import Mathlib.Data.List.Basic
import QSync.Foundations.Bytes

/-! # Per-pair encryption of the broadcast transport (aes_ctr.h)

The hash and the cipher come from a crypto library and are parameters; what is done with them is not.
-/

namespace QSync.Io
open QSync.Network
set_option autoImplicit false
set_option maxHeartbeats 250000

/-- What is used of the crypto library: SHA-256, and byte `k` of the AES-128-CTR key stream for a
key and a 16-byte initial counter block. -/
structure CryptoLib where
  sha256 : Bytes → Bytes
  aes_128_ctr : Bytes → Bytes → ℕ → ℕ

/-- The same key at both ends of a pair. -/
def derive_pair_key (lib : CryptoLib) (seed i j : ℕ) : Bytes :=
  let lo := if i < j then i else j
  let hi := if i < j then j else i
  let buf := "asterisk-bcast|" ++ toString seed ++ "|" ++ toString lo ++ "|" ++ toString hi
  (lib.sha256 (buf.toList.map Char.toNat)).take 16

def build_nonce (channel_role sender_id target_pid seq idx : ℕ) : Bytes :=
  [channel_role, sender_id, target_pid, 0] ++ leBytes 4 seq ++ leBytes 2 idx ++ [0, 0]

/-- Encrypt or decrypt. -/
def crypt (lib : CryptoLib) (key nonce inp : Bytes) : Bytes :=
  inp.mapIdx fun k b => b ^^^ lib.aes_128_ctr key (nonce ++ [0, 0, 0, 0]) k

theorem derive_pair_key_comm (lib : CryptoLib) (seed i j : ℕ) :
    derive_pair_key lib seed i j = derive_pair_key lib seed j i := by
  unfold derive_pair_key
  obtain h | rfl | h := Nat.lt_trichotomy i j
  · rw [if_pos h, if_pos h, if_neg h.asymm, if_neg h.asymm]
  · rfl
  · rw [if_pos h, if_pos h, if_neg h.asymm, if_neg h.asymm]

@[simp] theorem crypt_length (lib : CryptoLib) (key nonce inp : Bytes) :
    (crypt lib key nonce inp).length = inp.length := List.length_mapIdx

@[simp] theorem crypt_crypt (lib : CryptoLib) (key nonce inp : Bytes) :
    crypt lib key nonce (crypt lib key nonce inp) = inp := by
  unfold crypt
  rw [List.mapIdx_mapIdx]
  apply List.ext_getElem
  · exact List.length_mapIdx
  · intro k _ _
    rw [List.getElem_mapIdx]
    exact Nat.xor_xor_cancel_right _ _

theorem leBytes_two (n : ℕ) : leBytes 2 n = [n % 256, n / 256] := rfl

theorem leBytes_four (n : ℕ) :
    leBytes 4 n = [n % 256, n / 256 % 256, n / 256 / 256 % 256, n / 256 / 256 / 256] := rfl

theorem leBytes_inj {k m n : ℕ} (hk : 0 < k) (h : leBytes k m = leBytes k n) : m = n := by
  rw [← leNat_leBytes hk m, h, leNat_leBytes hk n]

theorem build_nonce_inj {r s t q i r' s' t' q' i' : ℕ}
    (h : build_nonce r s t q i = build_nonce r' s' t' q' i') :
    r = r' ∧ s = s' ∧ t = t' ∧ q = q' ∧ i = i' := by
  unfold build_nonce at h
  rw [List.append_left_inj] at h
  obtain ⟨hh, hi⟩ := List.append_inj h (by simp)
  obtain ⟨hid, hq⟩ := List.append_inj hh (by simp)
  simp only [List.cons.injEq, and_true] at hid
  exact ⟨hid.1, hid.2.1, hid.2.2, leBytes_inj (by decide) hq, leBytes_inj (by decide) hi⟩

end QSync.Io
