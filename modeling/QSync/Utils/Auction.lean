import Mathlib.Order.Interval.Finset.Nat
import QSync.Utils.SignTest

/-! # The auction circuit

`Circuit::generateAuction` (`utils/circuit.h`): neighbouring bids are compared by the sign of their
difference, the larger one goes on to the next level, and the last one left is the output. The
permutation matrix is read as inputs and not used.
-/

namespace QSync
set_option autoImplicit false
set_option maxHeartbeats 250000

namespace Circuit
variable {R : Type}

section Builder
variable [CommRing R]

/-- One comparison: `temp5` is the difference where it is not negative and 0 elsewhere. -/
def auctionStep (leveli : ℕ → ℕ) (i : ℕ) : Build R ℕ := do
  let temp1 ← addGate2 .kSub (leveli (2 * i)) (leveli (2 * i + 1))
  let temp2 ← addGate1 .kLtz temp1
  let temp3 ← addConstOpGate .kConstMul temp2 (-1 : R)
  let temp4 ← addConstOpGate .kConstAdd temp3 (1 : R)
  let temp5 ← addGate2 .kMul temp4 temp1
  addGate2 .kAdd temp5 (leveli (2 * i + 1))

/-- The loop `i < N / pow(2, level)`, a division of doubles. -/
def auctionLevel (N : ℕ) (leveli : ℕ → ℕ) (level : ℕ) : Build R (ℕ → ℕ) :=
  fillWires (List.range ((N + 2 ^ level - 1) / 2 ^ level)) (auctionStep leveli) fun _ => 0

/-- `generateAuction`. Position `(i, j)` of `M_pi` is `i * N + j` here; `bound` is
`log(N) / log(2)`. -/
def generateAuction (N : ℕ) : Build R Unit := do
  let _M_pi ← fillWires (List.range (N * N)) (fun _ => newInputWire) fun _ => 0
  let x ← fillWires (List.range N) (fun _ => newInputWire) fun _ => 0
  let bound := Nat.log 2 N
  let leveli ← (List.range' 1 bound).foldlM (auctionLevel N) x
  setAsOutput (leveli 0)

end Builder

section Winner
variable [CircuitRing R]

/-- The value that one comparison lets through. -/
def pick (a b : R) : R := (CircuitRing.msb (a - b) * -1 + 1) * (a - b) + b

/-- The winner of block `i` of `2 ^ l` bids. -/
def winner (bid : ℕ → R) : ℕ → ℕ → R
  | 0, i => bid i
  | l + 1, i => pick (winner bid l (2 * i)) (winner bid l (2 * i + 1))

/-- The largest bid of block `i` of `2 ^ l` bids. -/
def highest (bids : ℕ → ℕ) (l i : ℕ) : ℕ := (Finset.Ico (2 ^ l * i) (2 ^ l * (i + 1))).sup bids

theorem highest_succ (bids : ℕ → ℕ) (l i : ℕ) :
    highest bids (l + 1) i = max (highest bids l (2 * i)) (highest bids l (2 * i + 1)) := by
  have hpow : 2 ^ (l + 1) * i = 2 ^ l * (2 * i) := by ring
  have hpow' : 2 ^ (l + 1) * (i + 1) = 2 ^ l * (2 * i + 1 + 1) := by ring
  have hmono : ∀ n, 2 ^ l * n ≤ 2 ^ l * (n + 1) := fun n => Nat.mul_le_mul_left _ (Nat.le_succ n)
  rw [highest, highest, highest, hpow, hpow', ← Finset.sup_union]
  congr 1
  exact (Finset.Ico_union_Ico_eq_Ico (hmono _) (hmono _)).symm

variable {B : ℕ}

theorem pick_cast (h : SignTest R B) {a b : ℕ} (ha : a < B) (hb : b < B) :
    pick (a : R) b = (max a b : ℕ) := by
  rw [pick, h.sub ha hb]
  split
  · next hab =>
    rw [max_eq_right hab.le]
    ring
  · next hab =>
    rw [max_eq_left (by omega)]
    ring

theorem winner_cast (h : SignTest R B) {bid : ℕ → R} {bids : ℕ → ℕ} {m : ℕ}
    (hbid : ∀ i < 2 ^ m, bid i = bids i) (hB : ∀ i < 2 ^ m, bids i < B) {l i : ℕ} (hl : l ≤ m)
    (hi : i < 2 ^ (m - l)) :
    winner bid l i = (highest bids l i : ℕ) ∧ highest bids l i < B := by
  induction l generalizing i with
  | zero => simpa [winner, highest, hbid i hi] using hB i hi
  | succ l ih =>
    have hpow : 2 ^ (m - l) = 2 * 2 ^ (m - (l + 1)) := by
      rw [← pow_succ', show m - l = m - (l + 1) + 1 by omega]
    obtain ⟨hw, hlt⟩ := ih (by omega) (show 2 * i < 2 ^ (m - l) by omega)
    obtain ⟨hw', hlt'⟩ := ih (by omega) (show 2 * i + 1 < 2 ^ (m - l) by omega)
    rw [winner, hw, hw', pick_cast h hlt hlt', highest_succ]
    exact ⟨rfl, max_lt hlt hlt'⟩

end Winner

section Circuit
variable [CircuitRing R] {c : Circuit R}

def auctionTypes (t : GateType) : Prop :=
  t = .kInp ∨ t = .kSub ∨ t = .kLtz ∨ t = .kConstMul ∨ t = .kConstAdd ∨ t = .kMul ∨ t = .kAdd

theorem auctionTypes_evaluable : ∀ t, auctionTypes t → t ≠ .kRelu ∧ t ≠ .kTrdotp := by
  rintro t (rfl | rfl | rfl | rfl | rfl | rfl | rfl) <;> simp

theorem auctionStep_builds {leveli : ℕ → ℕ} {i : ℕ} {va vb : (ℕ → R) → R}
    (ha : Has c (leveli (2 * i)) va) (hb : Has c (leveli (2 * i + 1)) vb) :
    Builds auctionTypes c (auctionStep leveli i) fun w c' => Has c' w fun f => pick (va f) (vb f) := by
  refine (addSub_builds ha hb (by simp [auctionTypes])).bind fun temp1 c₁ hc₁ h₁ => ?_
  refine (addLtz_builds h₁ (by simp [auctionTypes])).bind fun temp2 c₂ hc₂ h₂ => ?_
  refine (addConstMul_builds h₂ (-1) (by simp [auctionTypes])).bind fun temp3 c₃ hc₃ h₃ => ?_
  refine (addConstAdd_builds h₃ 1 (by simp [auctionTypes])).bind fun temp4 c₄ hc₄ h₄ => ?_
  have hc := (hc₂.trans hc₃).trans hc₄
  refine (addMul_builds h₄ (h₁.mono hc) (by simp [auctionTypes])).bind fun temp5 c₅ hc₅ h₅ => ?_
  exact addAdd_builds h₅ (hb.mono ((hc₁.trans hc).trans hc₅)) (by simp [auctionTypes])

theorem auctionLevel_builds {m l : ℕ} (hl : l < m) {leveli : ℕ → ℕ} {bid : (ℕ → R) → ℕ → R}
    (h : ∀ i < 2 ^ (m - l), Has c (leveli i) fun f => winner (bid f) l i) :
    Builds auctionTypes c (auctionLevel (2 ^ m) leveli (l + 1)) fun v c' =>
      ∀ i < 2 ^ (m - (l + 1)), Has c' (v i) fun f => winner (bid f) (l + 1) i := by
  have hlen : (2 ^ m + 2 ^ (l + 1) - 1) / 2 ^ (l + 1) = 2 ^ (m - (l + 1)) := by
    have hpow : 2 ^ m = 2 ^ (m - (l + 1)) * 2 ^ (l + 1) := by
      rw [← pow_add, Nat.sub_add_cancel hl]
    have hpos : 0 < 2 ^ (l + 1) := Nat.two_pow_pos _
    rw [hpow, Nat.add_sub_assoc hpos, Nat.add_comm, Nat.add_mul_div_right _ _ hpos,
      Nat.div_eq_of_lt (by omega), Nat.zero_add]
  have hpow : 2 ^ (m - l) = 2 * 2 ^ (m - (l + 1)) := by
    rw [← pow_succ', show m - l = m - (l + 1) + 1 by omega]
  rw [auctionLevel, hlen]
  refine (fillWires_builds (fun i f => winner (bid f) (l + 1) i) _ (fun i hi c' hc => ?_) _).weaken
    fun v c' _ hv i hi => hv i (List.mem_range.mpr hi)
  rw [List.mem_range] at hi
  exact auctionStep_builds ((h _ (by omega)).mono hc) ((h _ (by omega)).mono hc)

theorem auctionLevels_builds (m : ℕ) {x : ℕ → ℕ} (bid : (ℕ → R) → ℕ → R)
    (h : ∀ i < 2 ^ m, Has c (x i) fun f => bid f i) :
    Builds auctionTypes c ((List.range' 1 m).foldlM (auctionLevel (2 ^ m)) x) fun v c' =>
      Has c' (v 0) fun f => winner (bid f) m 0 := by
  refine (Builds.foldlM_split (fun done v c' => ∀ i < 2 ^ (m - done.length),
    Has c' (v i) fun f => winner (bid f) done.length i) (List.range' 1 m) h ?_).weaken
      fun v c' _ hv => ?_
  · intro ys level zs leveli c' hsplit hc hlevel
    obtain ⟨hlevel_eq, hlt⟩ := range'_split hsplit
    subst hlevel_eq
    rw [List.length_append, List.length_singleton]
    exact auctionLevel_builds hlt hlevel
  · rw [List.length_range'] at hv
    exact hv 0 (Nat.two_pow_pos _)

theorem generateAuction_makes (m : ℕ) :
    Makes auctionTypes (R := R) empty (generateAuction (2 ^ m)) fun _ outs c' =>
      List.Forall₂ (Has c') outs [fun f => winner (fun i => f (2 ^ m * 2 ^ m + i)) m 0] := by
  refine (fillInputs_builds (2 ^ m * 2 ^ m) _ (.inl rfl)).then fun _ c₁ _ ⟨hsize, _⟩ => ?_
  refine (fillInputs_builds (2 ^ m) _ (.inl rfl)).then fun x c₂ _ ⟨_, hx⟩ => ?_
  have hsize : c₁.size = 2 ^ m * 2 ^ m := hsize.trans (Nat.zero_add _)
  rw [hsize] at hx
  have hlevels := auctionLevels_builds m (fun f i => f (2 ^ m * 2 ^ m + i)) hx
  rw [Nat.log_pow Nat.one_lt_two]
  refine hlevels.then fun leveli c₃ _ h₃ => ?_
  refine (setAsOutput_makes h₃).weaken fun _ outs c₄ hc₄ hout => ?_
  rw [hout]
  exact .cons (h₃.appends hc₄) .nil

/-- Over words, whatever the permutation matrix, the output is the largest bid. -/
theorem generateAuction_max (m : ℕ) (bids : ℕ → ℕ) (hbids : ∀ i < 2 ^ m, bids i < 2 ^ 63)
    (f : ℕ → U64) (hf : ∀ i < 2 ^ m, f (2 ^ m * 2 ^ m + i) = bids i) :
    (built (generateAuction (2 ^ m))).evaluate ((built (generateAuction (2 ^ m))).assign f) =
      .ok [((Finset.range (2 ^ m)).sup bids : ℕ)] := by
  obtain ⟨-, outs, -, hvals, heval⟩ :=
    (generateAuction_makes (R := U64) m).evaluate auctionTypes_evaluable
  have hwinner : winner (fun i => f (2 ^ m * 2 ^ m + i)) m 0 = (highest bids m 0 : ℕ) :=
    (winner_cast signTest_word hf hbids le_rfl (Nat.two_pow_pos _)).1
  have hhighest : highest bids m 0 = (Finset.range (2 ^ m)).sup bids := by
    rw [highest, Nat.mul_zero, Nat.zero_add, Nat.mul_one, Finset.range_eq_Ico]
  rw [heval, map_value hvals, List.map_singleton]
  exact congrArg (fun x => Except.ok [x]) (hwinner.trans (congrArg Nat.cast hhighest))

/-- Two bids of 5 and 9. -/
theorem generateAuction_max_two :
    (built (generateAuction (2 ^ 1))).evaluate
        ((built (generateAuction (2 ^ 1))).assign fun w => if w = 4 then (5 : U64) else 9) =
      .ok [((Finset.range (2 ^ 1)).sup fun i => if i = 0 then 5 else 9 : ℕ)] :=
  generateAuction_max 1 (fun i => if i = 0 then 5 else 9) (by decide) _ (by decide)

end Circuit

end Circuit

end QSync
