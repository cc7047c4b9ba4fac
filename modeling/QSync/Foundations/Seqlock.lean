import Mathlib.Data.BitVec
import Mathlib.Tactic.Common

/-! # Data under a version counter

One writer makes the `w`-bit counter odd, changes the data piece by piece, makes the counter even and
has then published the data. A reader loads the counter, pieces of the data, and the counter again.
`Snapshot s s1 P`: `s1` was loaded even, and `P` is what the loads since then say of the data;
`Snapshot.closes`: when the second load finds `s1` again, before the counter has come round, `P` holds
of published data.
-/

namespace QSync
set_option autoImplicit false
set_option maxHeartbeats 250000

section Parity
variable {w : ℕ}

def odd (s : BitVec w) : Bool := s &&& 1#w != 0#w

theorem odd_eq_decide (hw : 0 < w) (s : BitVec w) : odd s = decide (s.toNat % 2 = 1) := by
  have hzero : s &&& 1#w = 0#w ↔ s.toNat % 2 = 0 := by
    rw [← BitVec.toNat_inj, BitVec.toNat_and, BitVec.toNat_one hw, Nat.and_one_is_mod,
      BitVec.toNat_zero]
  have htest : odd s = !decide (s.toNat % 2 = 0) := by simp only [odd, bne, beq_eq_decide, hzero]
  rw [htest]
  rcases Nat.mod_two_eq_zero_or_one s.toNat with h | h <;> simp [h]

theorem odd_add_one (hw : 0 < w) (s : BitVec w) : odd (s + 1#w) = !odd s := by
  have heven : 2 ∣ 2 ^ w := dvd_pow_self 2 hw.ne'
  rw [odd_eq_decide hw, odd_eq_decide hw, BitVec.toNat_add, BitVec.toNat_one hw,
    Nat.mod_mod_of_dvd _ heven]
  rcases Nat.mod_two_eq_zero_or_one s.toNat with h | h <;> simp [Nat.add_mod, h]

end Parity

/-- The counter and the data, with their history: the values published, and how often the counter was
stored since the reader last loaded it first. -/
structure Seqlock (w : ℕ) (D : Type) where
  seq : BitVec w
  data : D
  updating : Bool
  published : List D
  since : ℕ

namespace Seqlock
variable {w : ℕ} {D α : Type} {s s' : Seqlock w D} {s1 : BitVec w} {P : D → Prop}

/-- A step of the writer; while it updates it may store any piece of the data. -/
inductive Writes : Seqlock w D → Seqlock w D → Prop
  | enter (s : Seqlock w D) (h : s.updating = false) :
    Writes s { s with seq := s.seq + 1#w, updating := true, since := s.since + 1 }
  | store (s : Seqlock w D) (h : s.updating = true) (d : D) : Writes s { s with data := d }
  | leave (s : Seqlock w D) (h : s.updating = true) :
    Writes s { s with
      seq := s.seq + 1#w, updating := false, published := s.published ++ [s.data],
      since := s.since + 1 }

/-- The reader's first load of the counter. -/
def mark (s : Seqlock w D) : Seqlock w D := { s with since := 0 }

/-- The counter is odd during an update; after the first update and between two, the data is
published. -/
structure Valid (s : Seqlock w D) : Prop where
  parity : odd s.seq = s.updating
  quiet : s.updating = false → s.published ≠ [] → s.data ∈ s.published

theorem Valid.mark (hv : s.Valid) : s.mark.Valid := ⟨hv.parity, hv.quiet⟩

theorem Valid.writes (hw : 0 < w) (hv : s.Valid) (h : Writes s s') : s'.Valid := by
  cases h with
  | enter h => exact ⟨by rw [odd_add_one hw, hv.parity, h]; rfl, nofun⟩
  | store h d => exact ⟨hv.parity, fun hq => absurd (h.symm.trans hq) (by decide)⟩
  | leave h =>
    exact ⟨by rw [odd_add_one hw, hv.parity, h]; rfl, fun _ _ => List.mem_append_right _ (by simp)⟩

theorem Writes.published_subset (h : Writes s s') : s.published ⊆ s'.published := by
  cases h with
  | enter | store => exact List.Subset.refl _
  | leave => exact List.subset_append_left _ _

/-- `s1` was loaded even, after the first update; while the counter has not been stored since, `P`
holds of the data. -/
structure Snapshot (s : Seqlock w D) (s1 : BitVec w) (P : D → Prop) : Prop where
  even : odd s1 = false
  published : s.published ≠ []
  counter : s.seq = s1 + BitVec.ofNat w s.since
  loads : s.since = 0 → P s.data

theorem Snapshot.start (h : odd s.seq = false) (hp : s.published ≠ []) :
    s.mark.Snapshot s.seq fun _ => True where
  even := h
  published := hp
  counter := by simp [Seqlock.mark]
  loads _ := trivial

/-- A load of a piece of the data. -/
theorem Snapshot.load (h : s.Snapshot s1 P) (piece : D → α) {Q : D → Prop}
    (hQ : ∀ d, P d → piece d = piece s.data → Q d) : s.Snapshot s1 Q where
  even := h.even
  published := h.published
  counter := h.counter
  loads h0 := hQ s.data (h.loads h0) rfl

theorem Snapshot.quiet (hv : s.Valid) (h : s.Snapshot s1 P) (h0 : s.since = 0) :
    s.updating = false := by
  have hseq : s.seq = s1 := by simpa [h0] using h.counter
  rw [← hv.parity, hseq, h.even]

theorem Snapshot.writes (hv : s.Valid) (h : s.Snapshot s1 P) (hs : Writes s s') :
    s'.Snapshot s1 P := by
  have hnext : s.seq + 1#w = s1 + BitVec.ofNat w (s.since + 1) := by
    rw [h.counter, BitVec.ofNat_add, BitVec.add_assoc]
  have hp : s'.published ≠ [] := fun hnil =>
    h.published (List.subset_nil.mp (hnil ▸ hs.published_subset))
  cases hs with
  | enter => exact ⟨h.even, hp, hnext, nofun⟩
  | leave => exact ⟨h.even, hp, hnext, nofun⟩
  | store hu d =>
    exact ⟨h.even, hp, h.counter, fun h0 => absurd (hu.symm.trans (h.quiet hv h0)) (by decide)⟩

/-- The second load of the counter finds the value of the first exactly when the counter was stored
a multiple of `2 ^ w` times in between. -/
theorem Snapshot.eq_seq_iff (h : s.Snapshot s1 P) : s1 = s.seq ↔ s.since % 2 ^ w = 0 := by
  have hzero : BitVec.ofNat w s.since = 0#w ↔ s.since % 2 ^ w = 0 := by
    rw [← BitVec.toNat_inj, BitVec.toNat_ofNat, BitVec.toNat_zero]
  rw [h.counter, left_eq_add]
  exact hzero

theorem Snapshot.closes (hv : s.Valid) (h : s.Snapshot s1 P) (hseq : s1 = s.seq)
    (hlt : s.since < 2 ^ w) : ∃ d ∈ s.published, P d := by
  have h0 : s.since = 0 := by
    rw [← Nat.mod_eq_of_lt hlt]
    exact h.eq_seq_iff.mp hseq
  exact ⟨s.data, hv.quiet (h.quiet hv h0) h.published, h.loads h0⟩

end Seqlock
end QSync
