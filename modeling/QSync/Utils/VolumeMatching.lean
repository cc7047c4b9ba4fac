import Mathlib.Algebra.BigOperators.Intervals
import Mathlib.Algebra.BigOperators.Ring.Finset
import QSync.Utils.DarkPoolRules
import QSync.Utils.SignTest

/-! # Volume matching

What `DarkPool::getVMCircuit` computes. `t_wire` is the larger total of the two sides; order 0 of a
side is cut to the value of wire 0, since `L[0]` is never written; and order `i` is cut to what the
orders from 1 up to and including itself leave of `t_wire`.
-/

namespace QSync
set_option autoImplicit false
set_option maxHeartbeats 250000

namespace DarkPool
open Circuit
variable {R : Type} [CircuitRing R] {c : Circuit R} {checked : Bool} {order : Vec Order} {n : ℕ}
  {val : ℕ → (ℕ → R) → R}

/-! ## Sums of units -/

/-- The units of the first `n` orders have the values `val`. -/
structure UnitsHave (checked : Bool) (c : Circuit R) (order : Vec Order) (n : ℕ)
    (val : ℕ → (ℕ → R) → R) : Prop where
  le_size : n ≤ order.size
  unit : ∀ i < n, ∃ w, Denotes checked (order.slot i).unit w ∧ Has c w (val i)

theorem UnitsHave.appends {T : GateType → Prop} {c' : Circuit R} {outs : List ℕ}
    (h : UnitsHave checked c order n val) (hc : Appends T c c' outs) :
    UnitsHave checked c' order n val where
  le_size := h.le_size
  unit i hi := by
    obtain ⟨w, hw, hv⟩ := h.unit i hi
    exact ⟨w, hw, hv.appends hc⟩

theorem UnitsHave.mono {T : GateType → Prop} {c' : Circuit R} (h : UnitsHave checked c order n val)
    (hc : Extends T c c') : UnitsHave checked c' order n val := h.appends hc.appends

/-- The first `n` elements of a vector have the values `vl`. -/
def WiresHave (checked : Bool) (c : Circuit R) (L : Vec Wire) (n : ℕ)
    (vl : ℕ → (ℕ → R) → R) : Prop :=
  ∀ i < n, ∃ w, Denotes checked (L.slot i) w ∧ Has c w (vl i)

theorem WiresHave.appends {T : GateType → Prop} {c' : Circuit R} {outs : List ℕ} {L : Vec Wire}
    (h : WiresHave checked c L n val) (hc : Appends T c c' outs) : WiresHave checked c' L n val :=
  fun i hi => by
    obtain ⟨w, hw, hv⟩ := h i hi
    exact ⟨w, hw, hv.appends hc⟩

theorem addUnits_builds {wire : ℕ} {v : (ℕ → R) → R} (hn : 2 ≤ n)
    (h : UnitsHave checked c order n val) (hw : Has c wire v) :
    Builds darkTypes c (addUnits checked n wire order) fun w c' =>
      Has c' w fun f => v f + ∑ i ∈ Finset.Ico 2 n, val i f := by
  refine (Builds.foldlM_split (fun done w c' =>
    Has c' w fun f => v f + ∑ i ∈ Finset.Ico 2 (2 + done.length), val i f) _
    (hw.congr fun f => by simp) ?_).weaken fun w c' _ hw' => by
      rwa [List.length_range', Nat.add_sub_cancel' hn] at hw'
  intro done i rest w c₁ hsplit hc₁ hinv
  obtain ⟨rfl, hlt⟩ := range'_split hsplit
  obtain ⟨u, hu, hvu⟩ := h.unit (done.length + 2) (by omega)
  rw [unitAt_bind (by have := h.le_size; omega) hu]
  refine (addAdd_builds hinv (hvu.mono hc₁) (by simp [darkTypes])).weaken fun w' c' _ hw' =>
    hw'.congr fun f => ?_
  rw [List.length_append, List.length_singleton, ← Nat.add_assoc,
    Finset.sum_Ico_succ_top (by omega), Nat.add_comm 2 done.length, add_assoc]

/-- The value of `t_wire`. -/
def tValue (s b : R) : R := (s - b) * CircuitRing.msb (b - s) + b

theorem tWire_builds {s_wire b_wire : ℕ} {vs vb : (ℕ → R) → R} (hs : Has c s_wire vs)
    (hb : Has c b_wire vb) :
    Builds darkTypes c (tWire s_wire b_wire) fun w c' => Has c' w fun f => tValue (vs f) (vb f) := by
  refine (addSub_builds hb hs (by simp [darkTypes])).bind fun tmp c₁ hc₁ h₁ => ?_
  refine (addLtz_builds h₁ (by simp [darkTypes])).bind fun f_wire c₂ hc₂ h₂ => ?_
  have hc := hc₁.trans hc₂
  refine (addSub_builds (hs.mono hc) (hb.mono hc) (by simp [darkTypes])).bind
    fun tmp_diff c₃ hc₃ h₃ => ?_
  refine (addMul_builds h₃ (h₂.mono hc₃) (by simp [darkTypes])).bind fun tmp_sel c₄ hc₄ h₄ => ?_
  exact addAdd_builds h₄ (hb.mono ((hc.trans hc₃).trans hc₄)) (by simp [darkTypes])

/-- The units of the orders 1 to `i`. -/
def unitsUpTo (val : ℕ → R) (i : ℕ) : R := ∑ j ∈ Finset.Ico 1 (i + 1), val j

theorem unitsUpTo_succ (val : ℕ → R) (i : ℕ) :
    unitsUpTo val (i + 1) = val (i + 1) + unitsUpTo val i := by
  rw [unitsUpTo, Finset.sum_Ico_succ_top (by omega), add_comm, unitsUpTo]

theorem leftovers_builds {t_wire : ℕ} {t : (ℕ → R) → R} {temp L : Vec Wire} {w₀ : ℕ} (hn : 0 < n)
    (h : UnitsHave checked c order n val) (ht : Has c t_wire t) (htemp : temp.size = n)
    (hzero : temp.slot 0 = some w₀) (hvzero : Has c w₀ fun _ => 0) (hL : L.size = n) :
    Builds darkTypes c (leftovers checked n t_wire order temp L) fun tempL c' =>
      tempL.2.size = n ∧ tempL.2.slot 0 = L.slot 0 ∧ ∀ i, 0 < i → i < n →
        ∃ w, tempL.2.slot i = some w ∧
          Has c' w fun f => t f - unitsUpTo (fun j => val j f) i := by
  refine (Builds.foldlM_split (fun done (tempL : Vec Wire × Vec Wire) c' =>
    (tempL.1.size = n ∧ ∃ w, tempL.1.slot done.length = some w ∧
      Has c' w fun f => unitsUpTo (fun j => val j f) done.length) ∧
    tempL.2.size = n ∧ tempL.2.slot 0 = L.slot 0 ∧ ∀ i, 0 < i → i < 1 + done.length →
      ∃ w, tempL.2.slot i = some w ∧ Has c' w fun f => t f - unitsUpTo (fun j => val j f) i) _
    ?_ ?_).weaken fun tempL c' _ hinv => ?_
  · exact ⟨⟨htemp, w₀, hzero, hvzero.congr fun f => by simp [unitsUpTo]⟩, hL, rfl,
      fun i hi hi' => absurd hi' (by rw [List.length_nil]; omega)⟩
  · intro done i rest tempL c₁ hsplit hc₁ ⟨⟨htemp, w, hw, hvw⟩, hL, hL0, hinv⟩
    obtain ⟨rfl, hlt⟩ := range'_split hsplit
    obtain ⟨u, hu, hvu⟩ := h.unit (done.length + 1) (by omega)
    rw [unitAt_bind (by have := h.le_size; omega) hu, Nat.add_sub_cancel,
      wireAt_bind (by omega) (.inl hw)]
    refine (addAdd_builds (hvu.mono hc₁) hvw (by simp [darkTypes])).bind fun sum c₂ hc₂ hsum => ?_
    rw [Vec.write_bind (by omega), wireAt_bind (by rw [Vec.put_size]; omega) denotes_put]
    refine (addSub_builds (ht.mono (hc₁.trans hc₂)) hsum (by simp [darkTypes])).bind
      fun left c₃ hc₃ hleft => ?_
    rw [Vec.write_bind (by omega)]
    have hsum' : Has c₂ sum fun f => unitsUpTo (fun j => val j f) (done.length + 1) :=
      hsum.congr fun f => (unitsUpTo_succ (fun j => val j f) _).symm
    rw [List.length_append, List.length_singleton]
    refine .pure ⟨⟨htemp, sum, Vec.put_slot_self, hsum'.mono hc₃⟩, hL, ?_, fun i hi hi' => ?_⟩
    · rw [Vec.put_slot_of_ne (Nat.succ_ne_zero _).symm, hL0]
    · by_cases heq : i = done.length + 1
      · subst heq
        exact ⟨left, Vec.put_slot_self, hleft.congr fun f => by
          rw [unitsUpTo_succ (fun j => val j f)]⟩
      · obtain ⟨w', hw', hvw'⟩ := hinv i hi (by omega)
        exact ⟨w', by rw [Vec.put_slot_of_ne heq, hw'], hvw'.mono (hc₂.trans hc₃)⟩
  · rw [List.length_range', Nat.add_sub_cancel' hn] at hinv
    exact hinv.2

/-! ## The clamp of one order -/

/-- The volume of an order of `u` units with `l` units left. -/
def clampValue (l u : R) : R :=
  ((l - u) * CircuitRing.msb (l - u) + u) * (CircuitRing.msb (l + -1) * -1 + 1)

structure ClampVectors.Sized (v : ClampVectors) (n n56 : ℕ) : Prop where
  z_1 : v.z_1.size = n
  z_2 : v.z_2.size = n
  temp_1 : v.temp_1.size = n
  temp_2 : v.temp_2.size = n
  temp_3 : v.temp_3.size = n
  temp_4 : v.temp_4.size = n
  temp_5 : v.temp_5.size = n56
  temp_6 : v.temp_6.size = n56

theorem clampOrder_makes {L : Vec Wire} {v : ClampVectors} {i n56 l u : ℕ} {vl vu : (ℕ → R) → R}
    (hv : v.Sized n n56) (hi : i < n) (hi' : i < n56) (hL : L.size = n) (horder : n ≤ order.size)
    (hl : Denotes checked (L.slot i) l) (hvl : Has c l vl)
    (hu : Denotes checked (order.slot i).unit u) (hvu : Has c u vu) :
    Makes darkTypes c (clampOrder (R := R) checked L (v, order) i) fun state outs c' =>
      state.1.Sized n n56 ∧ state.2.size = order.size ∧
        (∀ j, j ≠ i → state.2.slot j = order.slot j) ∧
        ∃ w, outs = [w] ∧ Has c' w fun f => clampValue (vl f) (vu f) := by
  have hio : i < order.size := hi.trans_le horder
  rw [clampOrder]
  dsimp only
  rw [wireAt_bind (by omega) hl]
  refine (addConstAdd_builds hvl (-1) (by simp [darkTypes])).then fun w₁ c₁ hc₁ h₁ => ?_
  rw [Vec.write_bind (by rw [hv.temp_1]; exact hi), wireAt_bind (by omega) hl, unitAt_bind hio hu]
  refine (addSub_builds (hvl.mono hc₁) (hvu.mono hc₁) (by simp [darkTypes])).then
    fun w₂ c₂ hc₂ h₂ => ?_
  rw [Vec.write_bind (by rw [hv.temp_2]; exact hi),
    wireAt_bind (by rw [Vec.put_size, hv.temp_1]; exact hi) denotes_put]
  refine (addLtz_builds (h₁.mono hc₂) (by simp [darkTypes])).then fun z₁ c₃ hc₃ hz₁ => ?_
  rw [Vec.write_bind (by rw [hv.z_1]; exact hi),
    wireAt_bind (by rw [Vec.put_size, hv.temp_2]; exact hi) denotes_put]
  refine (addLtz_builds (h₂.mono hc₃) (by simp [darkTypes])).then fun z₂ c₄ hc₄ hz₂ => ?_
  rw [Vec.write_bind (by rw [hv.z_2]; exact hi),
    wireAt_bind (by rw [Vec.put_size, hv.temp_2]; exact hi) denotes_put,
    wireAt_bind (by rw [Vec.put_size, hv.z_2]; exact hi) denotes_put]
  refine (addMul_builds (h₂.mono (hc₃.trans hc₄)) hz₂ (by simp [darkTypes])).then
    fun w₃ c₅ hc₅ h₃ => ?_
  rw [Vec.write_bind (by rw [hv.temp_3]; exact hi),
    wireAt_bind (by rw [Vec.put_size, hv.z_1]; exact hi) denotes_put]
  refine (addConstMul_builds (hz₁.mono (hc₄.trans hc₅)) (-1) (by simp [darkTypes])).then
    fun w₄ c₆ hc₆ h₄ => ?_
  rw [Vec.write_bind (by rw [hv.temp_4]; exact hi),
    wireAt_bind (by rw [Vec.put_size, hv.temp_4]; exact hi) denotes_put]
  refine (addConstAdd_builds h₄ 1 (by simp [darkTypes])).then fun w₅ c₇ hc₇ h₅ => ?_
  rw [Vec.write_bind (by rw [hv.temp_5]; exact hi'),
    wireAt_bind (by rw [Vec.put_size, hv.temp_3]; exact hi) denotes_put, unitAt_bind hio hu]
  have hc₁₇ := ((((hc₂.trans hc₃).trans hc₄).trans hc₅).trans hc₆).trans hc₇
  refine (addAdd_builds (h₃.mono (hc₆.trans hc₇)) (hvu.mono (hc₁.trans hc₁₇))
    (by simp [darkTypes])).then fun w₆ c₈ hc₈ h₆ => ?_
  rw [Vec.write_bind (by rw [hv.temp_6]; exact hi'),
    wireAt_bind (by rw [Vec.put_size, hv.temp_6]; exact hi') denotes_put,
    wireAt_bind (by rw [Vec.put_size, hv.temp_5]; exact hi') denotes_put]
  refine (addMul_builds h₆ (h₅.mono hc₈) (by simp [darkTypes])).then fun w₇ c₉ hc₉ h₇ => ?_
  rw [Vec.read_bind hio, Vec.write_bind hio,
    unitAt_bind (v := order.put i { order.slot i with unit := some w₇ }) hio
      (by rw [Vec.put_slot_self]; exact denotes_some)]
  refine (setAsOutput_makes h₇).bind fun _ outs c' hc' hout => .pure ?_
  refine ⟨⟨hv.z_1, hv.z_2, hv.temp_1, hv.temp_2, hv.temp_3, hv.temp_4, hv.temp_5, hv.temp_6⟩, rfl,
    fun j hj => Vec.put_slot_of_ne hj, w₇, by simp [hout], h₇.appends hc'⟩

/-- One side: the outputs are the volumes of its orders. -/
theorem clampOrders_makes {L : Vec Wire} {n56 : ℕ} {vl : ℕ → (ℕ → R) → R} (hn : n ≤ n56)
    (hL : L.size = n) (h : UnitsHave checked c order n val) (hleft : WiresHave checked c L n vl) :
    Makes darkTypes c (clampOrders (R := R) checked n n56 L order) fun _ outs c' =>
      List.Forall₂ (Has c') outs
        ((List.range n).map fun i f => clampValue (vl i f) (val i f)) := by
  let vectors : ClampVectors := ⟨Vec.new n, Vec.new n, Vec.new n, Vec.new n, Vec.new n, Vec.new n,
    Vec.new n56, Vec.new n56⟩
  have hloop : Makes darkTypes c ((List.range n).foldlM (clampOrder (R := R) checked L)
      (vectors, order)) fun _ outs c' => List.Forall₂ (Has c') outs
        ((List.range n).map fun i f => clampValue (vl i f) (val i f)) := by
    refine (Makes.foldlM (fun done (state : ClampVectors × Vec Order) outs c' =>
      state.1.Sized n n56 ∧ state.2.size = order.size ∧
        (∀ j, done.length ≤ j → state.2.slot j = order.slot j) ∧
        List.Forall₂ (Has c') outs (done.map fun i f => clampValue (vl i f) (val i f))) _
      ⟨⟨rfl, rfl, rfl, rfl, rfl, rfl, rfl, rfl⟩, rfl, fun _ _ => rfl, .nil⟩ ?_).weaken
      fun state outs c' _ hinv => hinv.2.2.2
    intro done i rest state outs c₁ hsplit hc₁ ⟨hsized, hsize, hrest, houts⟩
    rw [List.range_eq_range'] at hsplit
    obtain ⟨hi, hlt⟩ := range'_split hsplit
    rw [Nat.add_zero] at hi
    subst hi
    obtain ⟨l, hl, hvl⟩ := hleft _ hlt
    obtain ⟨u, hu, hvu⟩ := h.unit _ hlt
    rw [← hrest _ le_rfl] at hu
    refine (clampOrder_makes hsized hlt (by omega) hL (hsize ▸ h.le_size) hl (hvl.appends hc₁) hu
      (hvu.appends hc₁)).weaken fun state' outs' c₂ hc₂ ⟨hsized', hsize', hrest', w, hout, hw⟩ => ?_
    refine ⟨hsized', hsize'.trans hsize, fun j hj => ?_, ?_⟩
    · rw [List.length_append, List.length_singleton] at hj
      rw [hrest' j (by omega), hrest j (by omega)]
    · rw [hout, List.map_append]
      exact List.rel_append (houts.imp fun _ _ hx => hx.appends hc₂) (.cons hw .nil)
  exact hloop.bind fun state outs c' _ houts => .pure (by simpa using houts)

/-! ## The circuit -/

/-- What is left for order `i`: the value of wire 0 for order 0. -/
def leftValue (x t : R) (val : ℕ → R) (i : ℕ) : R := if i = 0 then x else t - unitsUpTo val i

/-- The outputs of one side. -/
def sideValues (n : ℕ) (x t : (ℕ → R) → R) (val : ℕ → (ℕ → R) → R) : List ((ℕ → R) → R) :=
  (List.range n).map fun i f =>
    clampValue (leftValue (x f) (t f) (fun j => val j f) i) (val i f)

theorem leftValue_denotes {L : Vec Wire} {x t : (ℕ → R) → R} (hx : Has c 0 x)
    (h0 : L.slot 0 = none)
    (hL : ∀ i, 0 < i → i < n → ∃ w, L.slot i = some w ∧
      Has c w fun f => t f - unitsUpTo (fun j => val j f) i) :
    WiresHave false c L n fun i f => leftValue (x f) (t f) (fun j => val j f) i := by
  intro i hi
  cases i with
  | zero => exact ⟨0, .inr ⟨rfl, h0, rfl⟩, hx.congr fun f => (if_pos rfl).symm⟩
  | succ i =>
    obtain ⟨w, hw, hv⟩ := hL (i + 1) (Nat.succ_pos i) hi
    exact ⟨w, .inl hw, hv.congr fun f => (if_neg (Nat.succ_ne_zero i)).symm⟩

theorem firstUnits_builds {m : ℕ} {vals : ℕ → (ℕ → R) → R} {order : Vec Order} (hm : 2 ≤ m)
    (h : UnitsHave checked c order m vals) {k : ℕ → Build R DarkPool}
    {post : DarkPool → List ℕ → Circuit R → Prop}
    (hk : ∀ w c', Extends darkTypes c c' → (Has c' w fun f => vals 0 f + vals 1 f) →
      Makes darkTypes c' (k w) post) :
    Makes darkTypes c (unitAt checked order 0 >>= fun a =>
      unitAt checked order 1 >>= fun b => addGate2 .kAdd a b >>= k) post := by
  obtain ⟨a, ha, hva⟩ := h.unit 0 (by omega)
  obtain ⟨b, hb, hvb⟩ := h.unit 1 (by omega)
  rw [unitAt_bind (by have := h.le_size; omega) ha, unitAt_bind (by have := h.le_size; omega) hb]
  exact (addAdd_builds hva hvb (by simp [darkTypes])).then hk

theorem getVMCircuit_makes {dp : DarkPool} {c c₃ : Circuit R} {new_order : Order}
    {x : (ℕ → R) → R} {us ub : ℕ → (ℕ → R) → R} (h₃ : newOrder c = .ok (new_order, c₃))
    (hN : 2 ≤ dp.s_list_.size) (hM : 2 ≤ dp.b_list_.size)
    (hsize : dp.b_list_.size ≤ dp.s_list_.size)
    (hs : UnitsHave false c₃ dp.s_list_ dp.s_list_.size us)
    (hb : UnitsHave false c₃ dp.b_list_ dp.b_list_.size ub) (hx : Has c₃ 0 x) :
    let t := fun f => tValue (∑ i ∈ Finset.range dp.s_list_.size, us i f)
      (∑ i ∈ Finset.range dp.b_list_.size, ub i f)
    Makes darkTypes c (getVMCircuit false dp) fun _ outs c' => List.Forall₂ (Has c') outs
      (sideValues dp.s_list_.size x t us ++ sideValues dp.b_list_.size x t ub) := by
  intro t
  have hnew : Builds darkTypes c newOrder fun o c' => o = new_order ∧ c' = c₃ := by
    obtain ⟨o, c', hm, hc, -⟩ := newOrder_builds (c := c)
    rw [h₃, Except.ok.injEq, Prod.mk.injEq] at hm
    obtain ⟨rfl, rfl⟩ := hm
    exact ⟨_, _, h₃, hc, rfl, rfl⟩
  have hsum : ∀ {n : ℕ} {vals : ℕ → (ℕ → R) → R}, 2 ≤ n → ∀ f,
      vals 0 f + vals 1 f + ∑ i ∈ Finset.Ico 2 n, vals i f = ∑ i ∈ Finset.range n, vals i f := by
    intro n vals hn f
    rw [← Finset.sum_range_add_sum_Ico _ hn, Finset.sum_range_succ, Finset.sum_range_one]
  rw [getVMCircuit]
  refine hnew.then fun o c' _ ⟨_, hc'⟩ => ?_
  subst hc'
  refine firstUnits_builds hN hs fun s₁ c₄ hc₄ hs₁ => ?_
  refine firstUnits_builds hM (hb.mono hc₄) fun b₁ c₅ hc₅ hb₁ => ?_
  have hc₄₅ := hc₄.trans hc₅
  refine (addUnits_builds hN (hs.mono hc₄₅) (hs₁.mono hc₅)).then fun s_wire c₆ hc₆ hsw => ?_
  refine (addUnits_builds hM (hb.mono (hc₄₅.trans hc₆)) (hb₁.mono hc₆)).then
    fun b_wire c₇ hc₇ hbw => ?_
  refine (tWire_builds (hsw.mono hc₇) hbw).then fun t_wire c₈ hc₈ htw => ?_
  have ht : Has c₈ t_wire t := htw.congr fun f => by rw [hsum hN f, hsum hM f]
  have hc₈' := ((hc₄₅.trans hc₆).trans hc₇).trans hc₈
  obtain ⟨us₀, hus₀, hvus₀⟩ := hs.unit 0 (by omega)
  obtain ⟨ub₀, hub₀, hvub₀⟩ := hb.unit 0 (by omega)
  rw [unitAt_bind (by omega) hus₀]
  refine (addConstMul_builds (hvus₀.mono hc₈') 0 (by simp [darkTypes])).then fun ts c₉ hc₉ hts => ?_
  rw [Vec.write_bind (by change 0 < dp.s_list_.size; omega), unitAt_bind (by omega) hub₀]
  refine (addConstMul_builds (hvub₀.mono (hc₈'.trans hc₉)) 0 (by simp [darkTypes])).then
    fun tb c₁₀ hc₁₀ htb => ?_
  rw [Vec.write_bind (by change 0 < dp.b_list_.size; omega)]
  have hc₁₀' := (hc₈'.trans hc₉).trans hc₁₀
  refine (leftovers_builds (by omega) (hs.mono hc₁₀') (ht.mono (hc₉.trans hc₁₀)) rfl
    Vec.put_slot_self ((hts.mono hc₁₀).congr fun f => mul_zero _) rfl).then
    fun s c₁₁ hc₁₁ ⟨hsL, hsL0, hsleft⟩ => ?_
  refine (leftovers_builds (by omega) (hb.mono (hc₁₀'.trans hc₁₁))
    (ht.mono ((hc₉.trans hc₁₀).trans hc₁₁)) rfl Vec.put_slot_self
    ((htb.mono hc₁₁).congr fun f => mul_zero _) rfl).then fun b c₁₂ hc₁₂ ⟨hbL, hbL0, hbleft⟩ => ?_
  have hc₁₂' := (hc₁₀'.trans hc₁₁).trans hc₁₂
  have hsell : WiresHave false c₁₂ s.2 dp.s_list_.size fun i f =>
      leftValue (x f) (t f) (fun j => us j f) i :=
    leftValue_denotes (hx.mono hc₁₂') hsL0 fun i hi hi' => by
      obtain ⟨w, hw, hv⟩ := hsleft i hi hi'
      exact ⟨w, hw, hv.mono hc₁₂⟩
  have hbuy : WiresHave false c₁₂ b.2 dp.b_list_.size fun i f =>
      leftValue (x f) (t f) (fun j => ub j f) i :=
    leftValue_denotes (hx.mono hc₁₂') hbL0 hbleft
  refine (clampOrders_makes le_rfl hsL (hs.mono hc₁₂') hsell).bind
    fun s_list outs c₁₃ hc₁₃ houts => ?_
  refine (clampOrders_makes hsize hbL ((hb.mono hc₁₂').appends hc₁₃) (hbuy.appends hc₁₃)).bind
    fun b_list outs' c₁₄ hc₁₄ houts' => .pure ?_
  rw [List.append_nil]
  exact List.rel_append (houts.imp fun _ _ hv => hv.appends hc₁₄) houts'

/-! ## Out of bounds -/

theorem clampOrder_ensures {L : Vec Wire} {state : ClampVectors × Vec Order} {i : ℕ} :
    Ensures (clampOrder (R := R) checked L state i) fun state' =>
      state'.1.temp_5.size = state.1.temp_5.size ∧ i < state.1.temp_5.size := by
  rw [clampOrder]
  dsimp only
  iterate 22 refine .skip fun _ => ?_
  refine write_ensures.bind fun temp_5 ⟨hi, htemp⟩ => ?_
  iterate 11 refine .skip fun _ => ?_
  exact .pure ⟨by rw [htemp, Vec.put_size], hi⟩

/-- A side runs to its end only when `temp_5` is long enough. -/
theorem clampOrders_ensures {L : Vec Wire} {n56 : ℕ} :
    Ensures (clampOrders (R := R) checked n n56 L order) fun _ => n ≤ n56 := by
  refine (Ensures.foldlM (fun state => state.1.temp_5.size = n56) (· < n56) _ rfl
    fun state i _ hstate => ?_).bind fun state ⟨_, hlt⟩ => .pure ?_
  · exact clampOrder_ensures.weaken fun state' ⟨hsize, hi⟩ => ⟨hsize.trans hstate, hstate ▸ hi⟩
  · by_contra hn
    exact lt_irrefl _ (hlt n56 (List.mem_range.mpr (by omega)))

theorem getVMCircuit_ensures {dp : DarkPool} :
    Ensures (getVMCircuit (R := R) checked dp) fun _ => dp.b_list_.size ≤ dp.s_list_.size := by
  rw [getVMCircuit]
  iterate 19 refine .skip fun _ => ?_
  exact clampOrders_ensures.bind fun _ hsize => .pure hsize

/-! ## Volumes -/

/-- What is left for order `i`, in numbers: `x` is the value of wire 0 and `t` the larger total. -/
def leftUnits (x t : ℕ) (u : ℕ → ℕ) (i : ℕ) : ℕ :=
  if i = 0 then x else t - ∑ j ∈ Finset.Ico 1 (i + 1), u j

/-- The volume of order `i`. -/
def volume (x t : ℕ) (u : ℕ → ℕ) (i : ℕ) : ℕ := min (leftUnits x t u i) (u i)

section Casts
variable {B : ℕ} {u : ℕ → ℕ} {x t : ℕ}

theorem tValue_cast (h : SignTest R B) {s b : ℕ} (hs : s < B) (hb : b < B) :
    tValue (s : R) b = (max s b : ℕ) := by
  rw [tValue, h.sub hb hs]
  split
  · next hlt =>
    rw [max_eq_left hlt.le]
    ring
  · next hle =>
    rw [max_eq_right (by omega)]
    ring

theorem clampValue_cast (h : SignTest R B) (h1 : 1 < B) {l k : ℕ} (hl : l < B) (hk : k < B) :
    clampValue (l : R) k = (min l k : ℕ) := by
  have hone : CircuitRing.msb ((l : R) + -1) = if l < 1 then 1 else 0 := by
    rw [← sub_eq_add_neg, ← Nat.cast_one, h.sub hl h1, Nat.cast_one]
  rw [clampValue, hone, h.sub hl hk]
  obtain rfl | hpos := Nat.eq_zero_or_pos l
  · simp
  · rw [if_neg (show ¬ l < 1 by omega)]
    split
    · next hlt =>
      rw [min_eq_left hlt.le]
      ring
    · next hle =>
      rw [min_eq_right (by omega)]
      ring

theorem unitsUpTo_le {i : ℕ} (hi : i < n) :
    ∑ j ∈ Finset.Ico 1 (i + 1), u j ≤ ∑ j ∈ Finset.range n, u j :=
  Finset.sum_le_sum_of_subset fun j hj => by
    rw [Finset.mem_Ico] at hj
    exact Finset.mem_range.mpr (by omega)

theorem leftValue_cast {i : ℕ} (hi : i < n) (ht : ∑ j ∈ Finset.range n, u j ≤ t) :
    leftValue (x : R) t (fun j => (u j : R)) i = (leftUnits x t u i : ℕ) := by
  rw [leftValue, leftUnits]
  split
  · rfl
  · rw [Nat.cast_sub ((unitsUpTo_le hi).trans ht), unitsUpTo, Nat.cast_sum]

theorem leftUnits_lt {i : ℕ} (hx : x < B) (ht : t < B) : leftUnits x t u i < B := by
  rw [leftUnits]
  split
  · exact hx
  · omega

theorem unit_le_sum {i : ℕ} (hi : i < n) : u i ≤ ∑ j ∈ Finset.range n, u j :=
  Finset.single_le_sum (fun _ _ => Nat.zero_le _) (Finset.mem_range.mpr hi)

/-- The outputs of one side are its volumes. -/
theorem sideValues_cast (h : SignTest R B) (h1 : 1 < B) {vx vt : (ℕ → R) → R} {f : ℕ → R}
    (hx : vx f = x) (hxB : x < B) (ht : vt f = t) (htB : t < B)
    (hu : ∀ i < n, val i f = u i) (hsum : ∑ j ∈ Finset.range n, u j ≤ t) :
    (sideValues n vx vt val).map (fun v => v f) =
      (List.range n).map fun i => ((volume x t u i : ℕ) : R) := by
  rw [sideValues, List.map_map]
  refine List.map_congr_left fun i hi => ?_
  rw [List.mem_range] at hi
  have hleft : leftValue (vx f) (vt f) (fun j => val j f) i = (leftUnits x t u i : ℕ) := by
    rw [hx, ht, ← leftValue_cast hi hsum]
    unfold leftValue unitsUpTo
    split
    · rfl
    · refine congrArg (fun y : R => (t : R) - y) (Finset.sum_congr rfl fun j hj => hu j ?_)
      rw [Finset.mem_Ico] at hj
      omega
  change clampValue (leftValue (vx f) (vt f) (fun j => val j f) i) (val i f) = _
  rw [hleft, hu i hi, clampValue_cast h h1 (leftUnits_lt hxB htB)
    (((unit_le_sum hi).trans hsum).trans_lt htB), volume]

end Casts

/-- No order is cut below its units. -/
def Uncut (n x t : ℕ) (u : ℕ → ℕ) : Prop := ∀ i < n, u i ≤ leftUnits x t u i

/-- The units cut off the orders add up to `excess`. -/
def CutBy (n x t excess : ℕ) (u : ℕ → ℕ) : Prop :=
  ∑ i ∈ Finset.range n, (u i - leftUnits x t u i) = excess

instance (n x t : ℕ) (u : ℕ → ℕ) : Decidable (Uncut n x t u) :=
  inferInstanceAs (Decidable (∀ i < n, _))

instance (n x t excess : ℕ) (u : ℕ → ℕ) : Decidable (CutBy n x t excess u) :=
  inferInstanceAs (Decidable (_ = _))

section Cuts
variable {x t : ℕ} {u : ℕ → ℕ}

/-- The units of an order are sold or cut. -/
theorem sum_volume_add_cut (n x t : ℕ) (u : ℕ → ℕ) : ∑ i ∈ Finset.range n, volume x t u i +
    ∑ i ∈ Finset.range n, (u i - leftUnits x t u i) = ∑ i ∈ Finset.range n, u i := by
  rw [← Finset.sum_add_distrib]
  exact Finset.sum_congr rfl fun i _ => by
    rw [volume]
    omega

theorem sum_volume_eq_iff {matched : ℕ} (h : matched ≤ ∑ i ∈ Finset.range n, u i) :
    ∑ i ∈ Finset.range n, volume x t u i = matched ↔
      CutBy n x t (∑ i ∈ Finset.range n, u i - matched) u := by
  have hsplit := sum_volume_add_cut n x t u
  rw [CutBy]
  omega

theorem cutBy_zero : CutBy n x t 0 u ↔ Uncut n x t u := by
  rw [CutBy, Finset.sum_eq_zero_iff]
  simp only [Finset.mem_range, Nat.sub_eq_zero_iff_le, Uncut]

/-- Both sides sell the smaller total. -/
theorem sum_volumes_iff {m s b : ℕ} {v : ℕ → ℕ} (hs : ∑ i ∈ Finset.range n, u i = s)
    (hb : ∑ i ∈ Finset.range m, v i = b) (h : s ≤ b) :
    ∑ i ∈ Finset.range n, volume x b u i = s ∧ ∑ i ∈ Finset.range m, volume x b v i = s ↔
      Uncut n x b u ∧ CutBy m x b (b - s) v := by
  rw [sum_volume_eq_iff hs.ge, sum_volume_eq_iff (hb ▸ h), hs, hb, Nat.sub_self, cutBy_zero]

end Cuts

/-! ## Matching -/

/-- The wire that `order[i].unit` is without checks. -/
def unitWire (order : Vec Order) (i : ℕ) : ℕ := (order.slot i).unit.getD 0

/-- `getVMCircuit` ends, and its outputs are volumes of at most the original units `us` and `ub` that on
both sides add up to the smaller total. -/
def MatchesVolumes (dp : DarkPool) (c : Circuit R) (f : ℕ → R) (us ub : ℕ → ℕ) : Prop :=
  ∃ dp' c' old, ∃ os ob : ℕ → ℕ, getVMCircuit false dp c = .ok (dp', c') ∧
    c'.evaluate (c'.assign f) = .ok (old ++ (((List.range dp.s_list_.size).map fun i => (os i : R)) ++
      (List.range dp.b_list_.size).map fun i => (ob i : R))) ∧ old.length = c.outputs_.length ∧
    (∀ i < dp.s_list_.size, os i ≤ us i) ∧ (∀ i < dp.b_list_.size, ob i ≤ ub i) ∧
    ∑ i ∈ Finset.range dp.s_list_.size, os i =
      min (∑ i ∈ Finset.range dp.s_list_.size, us i) (∑ i ∈ Finset.range dp.b_list_.size, ub i) ∧
    ∑ i ∈ Finset.range dp.b_list_.size, ob i =
      min (∑ i ∈ Finset.range dp.s_list_.size, us i) (∑ i ∈ Finset.range dp.b_list_.size, ub i)

/-- The values on the wires that `getVMCircuit` uses, on the circuit `c₃` with its three new inputs:
`x` on wire 0 and the units of the orders. -/
structure SmallUnits (B : ℕ) (dp : DarkPool) (c₃ : Circuit R) (f : ℕ → R) (x : ℕ) (us ub : ℕ → ℕ) :
    Prop where
  sign : SignTest R B
  one_lt : 1 < B
  x_val : 0 < c₃.size ∧ c₃.value f 0 = x
  x_lt : x < B
  s_val : ∀ i < dp.s_list_.size,
    unitWire dp.s_list_ i < c₃.size ∧ c₃.value f (unitWire dp.s_list_ i) = us i
  s_lt : ∑ i ∈ Finset.range dp.s_list_.size, us i < B
  b_val : ∀ i < dp.b_list_.size,
    unitWire dp.b_list_ i < c₃.size ∧ c₃.value f (unitWire dp.b_list_ i) = ub i
  b_lt : ∑ i ∈ Finset.range dp.b_list_.size, ub i < B

theorem unitsHave_unitWire {f : ℕ → R} {u : ℕ → ℕ}
    (h : ∀ i < order.size, unitWire order i < c.size ∧ c.value f (unitWire order i) = u i) :
    UnitsHave false c order order.size fun i f => c.value f (unitWire order i) where
  le_size := le_rfl
  unit i hi := ⟨unitWire order i, denotes_unchecked _, has_value (h i hi).1⟩

/-- What the circuit is evaluated to, in numbers. -/
theorem getVMCircuit_volumes {B : ℕ} {dp : DarkPool} {c c₃ : Circuit R} {new_order : Order}
    {f : ℕ → R} {x : ℕ} {us ub : ℕ → ℕ} (hc : ∀ g ∈ c.gates_, darkTypes g.type)
    (h₃ : newOrder c = .ok (new_order, c₃)) (hN : 2 ≤ dp.s_list_.size) (hM : 2 ≤ dp.b_list_.size)
    (hsize : dp.b_list_.size ≤ dp.s_list_.size) (h : SmallUnits B dp c₃ f x us ub) :
    let t := max (∑ i ∈ Finset.range dp.s_list_.size, us i)
      (∑ i ∈ Finset.range dp.b_list_.size, ub i)
    ∃ dp' c' old, getVMCircuit false dp c = .ok (dp', c') ∧
      c'.evaluate (c'.assign f) = .ok (old ++
        (((List.range dp.s_list_.size).map fun i => ((volume x t us i : ℕ) : R)) ++
          (List.range dp.b_list_.size).map fun i => ((volume x t ub i : ℕ) : R))) ∧
      old.length = c.outputs_.length := by
  intro t
  obtain ⟨dp', outs, c', hm, hc', houts⟩ := getVMCircuit_makes h₃ hN hM hsize
    (unitsHave_unitWire h.s_val) (unitsHave_unitWire h.b_val) (has_value h.x_val.1)
  have heval : ∀ g ∈ c'.gates_, g.type ≠ .kRelu ∧ g.type ≠ .kTrdotp := fun g hg => by
    obtain ⟨⟨gs, hgs, htypes⟩, -⟩ := hc'
    rw [hgs] at hg
    obtain hg | hg := List.mem_append.mp hg
    · exact darkTypes_evaluable _ (hc g hg)
    · exact darkTypes_evaluable _ (htypes g hg)
  have hsum : ∀ {order : Vec Order} {u : ℕ → ℕ},
      (∀ i < order.size, unitWire order i < c₃.size ∧ c₃.value f (unitWire order i) = u i) →
      ∑ i ∈ Finset.range order.size, c₃.value f (unitWire order i) =
        ((∑ i ∈ Finset.range order.size, u i : ℕ) : R) := fun hu => by
    rw [Nat.cast_sum]
    exact Finset.sum_congr rfl fun i hi => (hu i (Finset.mem_range.mp hi)).2
  have ht : tValue (∑ i ∈ Finset.range dp.s_list_.size, c₃.value f (unitWire dp.s_list_ i))
      (∑ i ∈ Finset.range dp.b_list_.size, c₃.value f (unitWire dp.b_list_ i)) = (t : R) := by
    rw [hsum h.s_val, hsum h.b_val, tValue_cast h.sign h.s_lt h.b_lt]
  have htB : t < B := max_lt h.s_lt h.b_lt
  refine ⟨dp', c', c.outputs_.map (c'.value f), hm, ?_, List.length_map _⟩
  rw [c'.evaluate_eq f heval, hc'.outputs_eq, List.map_append, map_value houts, List.map_append]
  rw [sideValues_cast h.sign h.one_lt h.x_val.2 h.x_lt ht htB (fun i hi => (h.s_val i hi).2)
    (le_max_left _ _), sideValues_cast h.sign h.one_lt h.x_val.2 h.x_lt ht htB
    (fun i hi => (h.b_val i hi).2) (le_max_right _ _)]

section Matches
variable [Nontrivial R] {B : ℕ} {dp : DarkPool} {c c₃ : Circuit R} {new_order : Order} {f : ℕ → R}
  {x : ℕ} {us ub : ℕ → ℕ}

/-- Outputs that are volumes are the ones computed. -/
theorem sum_volume_of_outputs {u o : ℕ → ℕ} {t matched : ℕ} (h : SignTest R B)
    (huB : ∑ i ∈ Finset.range n, u i < B) (hou : ∀ i < n, o i ≤ u i)
    (hlist : ((List.range n).map fun i => (o i : R)) =
      (List.range n).map fun i => ((volume x t u i : ℕ) : R))
    (hsum : ∑ i ∈ Finset.range n, o i = matched) :
    ∑ i ∈ Finset.range n, volume x t u i = matched := by
  rw [List.map_inj_left] at hlist
  refine (Finset.sum_congr rfl fun i hi => ?_).trans hsum
  have hlt := Finset.mem_range.mp hi
  have huB' : u i < B := (unit_le_sum hlt).trans_lt huB
  exact h.cast_injective ((min_le_right _ _).trans_lt huB') ((hou i hlt).trans_lt huB')
    (hlist i (List.mem_range.mpr hlt)).symm

/-- The buy list is not the longer one, no order on the side with the smaller total is cut, and those on
the other side are cut by the difference of the totals. -/
def Matchable (dp : DarkPool) (x : ℕ) (us ub : ℕ → ℕ) : Prop :=
  let s := ∑ i ∈ Finset.range dp.s_list_.size, us i
  let b := ∑ i ∈ Finset.range dp.b_list_.size, ub i
  dp.b_list_.size ≤ dp.s_list_.size ∧
    (s ≤ b → Uncut dp.s_list_.size x b us ∧ CutBy dp.b_list_.size x b (b - s) ub) ∧
    (b ≤ s → Uncut dp.b_list_.size x s ub ∧ CutBy dp.s_list_.size x s (s - b) us)

instance (dp : DarkPool) (x : ℕ) (us ub : ℕ → ℕ) : Decidable (Matchable dp x us ub) :=
  inferInstanceAs (Decidable (_ ∧ (_ → _ ∧ _) ∧ (_ → _ ∧ _)))

omit [Nontrivial R] in
theorem matchable_iff {s b : ℕ} (hs : ∑ i ∈ Finset.range dp.s_list_.size, us i = s)
    (hb : ∑ i ∈ Finset.range dp.b_list_.size, ub i = b) : Matchable dp x us ub ↔
      dp.b_list_.size ≤ dp.s_list_.size ∧
      ∑ i ∈ Finset.range dp.s_list_.size, volume x (max s b) us i = min s b ∧
      ∑ i ∈ Finset.range dp.b_list_.size, volume x (max s b) ub i = min s b := by
  unfold Matchable
  rw [hs, hb]
  refine and_congr_right fun _ => ?_
  -- with equal totals both parts of `Matchable` say that no order is cut
  have hequal : ∀ n m u v, Uncut n x s u ∧ CutBy m x s (s - s) v →
      Uncut m x s v ∧ CutBy n x s (s - s) u := by
    intro n m u v
    rw [Nat.sub_self, cutBy_zero, cutBy_zero]
    exact And.symm
  obtain h | h := le_total s b
  · rw [max_eq_right h, min_eq_left h, sum_volumes_iff hs hb h]
    refine ⟨fun hside => hside.1 h, fun hcut => ⟨fun _ => hcut, fun hle => ?_⟩⟩
    obtain rfl := h.antisymm hle
    exact hequal _ _ _ _ hcut
  · rw [max_eq_left h, min_eq_right h, and_comm (a := _ = b), sum_volumes_iff hb hs h]
    refine ⟨fun hside => hside.2 h, fun hcut => ⟨fun hle => ?_, fun _ => hcut⟩⟩
    obtain rfl := h.antisymm hle
    exact hequal _ _ _ _ hcut

theorem MatchesVolumes.matchable (hm : MatchesVolumes dp c f us ub)
    (hc : ∀ g ∈ c.gates_, darkTypes g.type) (h₃ : newOrder c = .ok (new_order, c₃))
    (hN : 2 ≤ dp.s_list_.size) (hM : 2 ≤ dp.b_list_.size) (h : SmallUnits B dp c₃ f x us ub) :
    Matchable dp x us ub := by
  obtain ⟨dp', c', old, os, ob, hm, heval, hold, hos, hob, hsums, hsumb⟩ := hm
  have hsize := getVMCircuit_ensures c dp' c' hm
  obtain ⟨dp₁, c₁, old₁, hm₁, heval₁, hold₁⟩ := getVMCircuit_volumes hc h₃ hN hM hsize h
  rw [hm, Except.ok.injEq, Prod.mk.injEq] at hm₁
  obtain ⟨rfl, rfl⟩ := hm₁
  rw [heval, Except.ok.injEq] at heval₁
  obtain ⟨-, houts⟩ := List.append_inj heval₁ (hold.trans hold₁.symm)
  obtain ⟨hsell, hbuy⟩ := List.append_inj houts (by simp)
  exact (matchable_iff rfl rfl).mpr ⟨hsize, sum_volume_of_outputs h.sign h.s_lt hos hsell hsums,
    sum_volume_of_outputs h.sign h.b_lt hob hbuy hsumb⟩

omit [Nontrivial R] in
theorem Matchable.matchesVolumes (hm : Matchable dp x us ub) (hc : ∀ g ∈ c.gates_, darkTypes g.type)
    (h₃ : newOrder c = .ok (new_order, c₃)) (hN : 2 ≤ dp.s_list_.size) (hM : 2 ≤ dp.b_list_.size)
    (h : SmallUnits B dp c₃ f x us ub) : MatchesVolumes dp c f us ub := by
  obtain ⟨hsize, hs, hb⟩ := (matchable_iff rfl rfl).mp hm
  obtain ⟨dp', c', old, hvm, heval, hold⟩ := getVMCircuit_volumes hc h₃ hN hM hsize h
  exact ⟨dp', c', old, _, _, hvm, heval, hold, fun i _ => min_le_right _ _,
    fun i _ => min_le_right _ _, hs, hb⟩

/-- Volume matching works exactly when the buy list is not the longer one, no order of the side with the
smaller total exceeds what is left for it, and those of the other side exceed it by the difference of the
totals. -/
theorem getVMCircuit_matches_iff (hc : ∀ g ∈ c.gates_, darkTypes g.type)
    (h₃ : newOrder c = .ok (new_order, c₃)) (hN : 2 ≤ dp.s_list_.size) (hM : 2 ≤ dp.b_list_.size)
    (h : SmallUnits B dp c₃ f x us ub) : MatchesVolumes dp c f us ub ↔ Matchable dp x us ub :=
  ⟨fun hm => hm.matchable hc h₃ hN hM h, fun hm => hm.matchesVolumes hc h₃ hN hM h⟩

/-! ### A new object -/

omit [Nontrivial R] in
/-- In a new object, all units are wire 0, the name of the new order. -/
theorem smallUnits_new {N M : ℕ} (hB : SignTest R B) (h1 : 1 < B) (hf : f 0 = x) (hx : x < B)
    (hs : N * x < B) (hb : M * x < B) :
    ∃ new_order, ∃ c₃ : Circuit R, newOrder empty = .ok (new_order, c₃) ∧
      SmallUnits B (init N M).resizeList c₃ f x (fun _ => x) fun _ => x := by
  obtain ⟨new_order, c₃, hm, -, name, unit, price, -, hname, hv, -, -⟩ :=
    newOrder_builds (c := (empty : Circuit R))
  have hname : name = 0 := hname
  subst hname
  have hval : 0 < c₃.size ∧ c₃.value f 0 = x := ⟨hv.lt, (hv.value_eq f).trans hf⟩
  have hwire : ∀ n i, unitWire ((⟨0, fun _ => .unassigned⟩ : Vec Order).resize n .unassigned) i = 0 :=
    fun n i => by simp [unitWire, Vec.resize, Order.unassigned]
  refine ⟨new_order, c₃, hm, hB, h1, hval, hx, fun i _ => ?_, ?_, fun i _ => ?_, ?_⟩
  · exact (hwire N i).symm ▸ hval
  · simpa [Finset.sum_const, resizeList, init, Vec.resize] using hs
  · exact (hwire M i).symm ▸ hval
  · simpa [Finset.sum_const, resizeList, init, Vec.resize] using hb

omit [Nontrivial R] in
/-- No order of the longer list is cut, so the lists must be equally long, or all units 0. -/
theorem matchable_new {N M : ℕ} : Matchable (init N M).resizeList x (fun _ => x) (fun _ => x) ↔
    M ≤ N ∧ (N = M ∨ x = 0) := by
  have hsum : ∀ n, ∑ _i ∈ Finset.range n, x = n * x := fun n => by
    rw [Finset.sum_const, Finset.card_range, smul_eq_mul]
  have hvolumes : ∀ n ≤ N, ∑ i ∈ Finset.range n, volume x (N * x) (fun _ => x) i = n * x := by
    intro n hn
    refine (Finset.sum_congr rfl fun i hi => ?_).trans (hsum n)
    have hle : x + i * x ≤ N * x := by
      rw [add_comm, ← Nat.succ_mul]
      exact Nat.mul_le_mul_right x ((Finset.mem_range.mp hi).trans_le hn)
    refine min_eq_right ?_
    rw [leftUnits]
    split
    · exact le_rfl
    · rw [Finset.sum_const, Nat.card_Ico, smul_eq_mul, Nat.add_sub_cancel]
      exact Nat.le_sub_of_add_le hle
  rw [matchable_iff (s := N * x) (b := M * x) (hsum N) (hsum M)]
  refine and_congr_right fun (hle : M ≤ N) => ?_
  have hmul : M * x ≤ N * x := Nat.mul_le_mul_right x hle
  rw [max_eq_left hmul, min_eq_right hmul]
  exact (and_iff_left (hvolumes M hle)).trans
    ((hvolumes N le_rfl).congr_left.trans mul_eq_mul_right_iff)

/-- `getVMCircuit` of a new object. -/
theorem new_matchesVolumes_iff {N M : ℕ} (hB : SignTest R B) (h1 : 1 < B) (hf : f 0 = x) (hx : x < B)
    (hN : 2 ≤ N) (hM : 2 ≤ M) (hs : N * x < B) (hb : M * x < B) :
    MatchesVolumes (init N M).resizeList (empty : Circuit R) f (fun _ => x) (fun _ => x) ↔
      M ≤ N ∧ (N = M ∨ x = 0) := by
  obtain ⟨new_order, c₃, h₃, h⟩ := smallUnits_new hB h1 hf hx hs hb
  have hc : ∀ g ∈ (empty : Circuit R).gates_, darkTypes g.type := fun _ hg =>
    absurd hg List.not_mem_nil
  rw [← matchable_new]
  exact ⟨fun hm => hm.matchable hc h₃ hN hM h, fun hm => hm.matchesVolumes hc h₃ hN hM h⟩

end Matches

/-- A new object with two orders on each side, and 1 as the name of the new order. -/
theorem getVMCircuit_matches_two : MatchesVolumes (init 2 2).resizeList (empty : Circuit U64)
    (fun _ => 1) (fun _ => 1) (fun _ => 1) := by
  obtain ⟨new_order, c₃, h₃, h⟩ := smallUnits_new (N := 2) (M := 2) (f := fun _ => (1 : U64))
    (x := 1) signTest_word (by decide) (by simp) (by decide) (by decide) (by decide)
  exact (getVMCircuit_matches_iff (by simp [empty]) h₃ le_rfl le_rfl h).mpr (by decide)

/-- A new object with three sell orders and two buy orders sells three units and buys two. -/
theorem getVMCircuit_mismatch : ¬ MatchesVolumes (init 3 2).resizeList (empty : Circuit U64)
    (fun _ => 1) (fun _ => 1) (fun _ => 1) := by
  obtain ⟨new_order, c₃, h₃, h⟩ := smallUnits_new (N := 3) (M := 2) (f := fun _ => (1 : U64))
    (x := 1) signTest_word (by decide) (by simp) (by decide) (by decide) (by decide)
  intro hm
  have hcut := hm.matchable (by simp [empty]) h₃ (by decide) (by decide) h
  exact absurd hcut (by decide)

end DarkPool

end QSync
