import QSync.Utils.VolumeMatching

/-! # Index safety of the dark pool builders

With checks, `getCDACircuit` runs to its end for all lists of at least two orders. `getVMCircuit` is
stopped by an index out of bounds when the buy list is the longer one, and always by an element that
was never assigned.
-/

namespace QSync
set_option autoImplicit false
set_option maxHeartbeats 250000

namespace DarkPool
open Circuit
variable {R : Type} [CircuitRing R] {c : Circuit R} {checked : Bool} {n : ℕ}

/-! ## Gates on existing wires -/

theorem addGate2_valid {type : GateType} {a b : ℕ} (ht : type = .kAdd ∨ type = .kSub ∨ type = .kMul)
    (ha : a < c.size) (hb : b < c.size) :
    Builds darkTypes c (addGate2 type a b) fun w c' => w < c'.size := by
  obtain rfl | rfl | rfl := ht
  · exact (addAdd_builds (has_value ha) (has_value hb) (by simp [darkTypes])).weaken
      fun _ _ _ h => h.lt
  · exact (addSub_builds (has_value ha) (has_value hb) (by simp [darkTypes])).weaken
      fun _ _ _ h => h.lt
  · exact (addMul_builds (has_value ha) (has_value hb) (by simp [darkTypes])).weaken
      fun _ _ _ h => h.lt

theorem addConst_valid {type : GateType} {a : ℕ} {cval : R}
    (ht : type = .kConstAdd ∨ type = .kConstMul) (ha : a < c.size) :
    Builds darkTypes c (addConstOpGate type a cval) fun w c' => w < c'.size := by
  obtain rfl | rfl := ht
  · exact (addConstAdd_builds (has_value ha) cval (by simp [darkTypes])).weaken fun _ _ _ h => h.lt
  · exact (addConstMul_builds (has_value ha) cval (by simp [darkTypes])).weaken fun _ _ _ h => h.lt

theorem addLtz_valid {a : ℕ} (ha : a < c.size) :
    Builds darkTypes c (addGate1 .kLtz a) fun w c' => w < c'.size :=
  (addLtz_builds (has_value ha) (by simp [darkTypes])).weaken fun _ _ _ h => h.lt

theorem addEqz_valid {a : ℕ} (ha : a < c.size) :
    Builds darkTypes c (addGate1 .kEqz a) fun w c' => w < c'.size :=
  (addOp_builds (v := fun f => if CircuitRing.isZero (c.value f a) then 1 else 0)
    (valid_of (by simpa [Op.inputs] using ha) (by simp [Op.type])) (by simp [darkTypes, Op.type])
    fun c' hc f => by
      rw [← ((has_value ha).mono hc).value_eq f]
      rfl).weaken fun _ _ _ h => h.lt

/-! ## Filled vectors -/

/-- The elements from `lo` up to `hi` satisfy `p`. -/
def Filled {α : Type} (p : α → Prop) (v : Vec α) (lo hi : ℕ) : Prop :=
  ∀ i, lo ≤ i → i < hi → p (v.slot i)

theorem Filled.put {α : Type} {p : α → Prop} {v : Vec α} {lo hi : ℕ} {a : α} (h : Filled p v lo hi)
    (ha : p a) : Filled p (v.put hi a) lo (hi + 1) := by
  intro i hlo hi'
  by_cases heq : i = hi
  · subst heq
    rwa [Vec.put_slot_self]
  · rw [Vec.put_slot_of_ne heq]
    exact h i hlo (by omega)

theorem Filled.imp {α : Type} {p q : α → Prop} {v : Vec α} {lo hi : ℕ} (h : Filled p v lo hi)
    (hpq : ∀ a, p a → q a) : Filled q v lo hi := fun i hlo hhi => hpq _ (h i hlo hhi)

/-- An assigned wire of the circuit. -/
def WireIn (c : Circuit R) (s : Wire) : Prop := ∃ w, s = some w ∧ w < c.size

structure OrderIn (c : Circuit R) (order : Order) : Prop where
  name : WireIn c order.name
  unit : WireIn c order.unit
  price : WireIn c order.price

omit [CircuitRing R] in
theorem WireIn.mono {T : GateType → Prop} {c' : Circuit R} {outs : List ℕ} {s : Wire}
    (h : WireIn c s) (hc : Appends T c c' outs) : WireIn c' s := by
  obtain ⟨w, hs, hw⟩ := h
  exact ⟨w, hs, hw.trans_le hc.size_le⟩

omit [CircuitRing R] in
theorem OrderIn.mono {T : GateType → Prop} {c' : Circuit R} {outs : List ℕ} {order : Order}
    (h : OrderIn c order) (hc : Appends T c c' outs) : OrderIn c' order :=
  ⟨h.name.mono hc, h.unit.mono hc, h.price.mono hc⟩

/-! ## The lists -/

theorem constOrder_builds {type : GateType} {cval : R} {order : Order}
    (ht : type = .kConstAdd ∨ type = .kConstMul) (h : OrderIn c order) :
    Builds darkTypes c (constOrder checked type cval order) fun order' c' => OrderIn c' order' := by
  obtain ⟨⟨a, ha, hac⟩, ⟨b, hb, hbc⟩, ⟨d, hd, hdc⟩⟩ := h
  rw [constOrder, Denotes.bind (.inl ha)]
  refine (addConst_valid ht hac).bind fun name c₁ hc₁ hname => ?_
  rw [Denotes.bind (.inl hb)]
  refine (addConst_valid ht (hbc.trans_le hc₁.size_le)).bind fun unit c₂ hc₂ hunit => ?_
  rw [Denotes.bind (.inl hd)]
  refine (addConst_valid ht (hdc.trans_le (hc₁.trans hc₂).size_le)).bind
    fun price c₃ hc₃ hprice => .pure ?_
  exact ⟨⟨name, rfl, hname.trans_le (hc₂.trans hc₃).size_le⟩,
    ⟨unit, rfl, hunit.trans_le hc₃.size_le⟩, ⟨price, rfl, hprice⟩⟩

theorem fillOrders_builds {new_order : Order} {list : Vec Order} (hn : 0 < n) (hlist : list.size = n)
    (h : OrderIn c new_order) :
    Builds darkTypes c (fillOrders (R := R) checked n new_order list) fun list' c' =>
      list'.size = n ∧ Filled (OrderIn c') list' 0 n := by
  refine (constOrder_builds (.inl rfl) h).bind fun order₀ c₁ hc₁ horder₀ => ?_
  rw [Vec.write_bind (by omega)]
  refine (Builds.foldlM_split (fun done (list : Vec Order) c' =>
    list.size = n ∧ Filled (OrderIn c') list 0 (done.length + 1)) _
    ⟨show (list.put 0 order₀).size = n from hlist, ?_⟩ ?_).weaken
    fun list' c' _ hinv => ?_
  · exact Filled.put (fun i _ hi => absurd hi (Nat.not_lt_zero i)) horder₀
  · intro done i rest list c₂ hsplit hc₂ ⟨hsize, hfilled⟩
    obtain ⟨rfl, hlt⟩ := range'_split hsplit
    rw [Nat.add_sub_cancel, Vec.read_bind (by omega)]
    refine (constOrder_builds (.inl rfl) (hfilled _ (Nat.zero_le _) (Nat.lt_succ_self _))).bind
      fun order c₃ hc₃ horder => ?_
    rw [Vec.write_eq (by omega), List.length_append, List.length_singleton]
    exact .pure ⟨hsize, (hfilled.imp fun _ ho => ho.mono hc₃.appends).put horder⟩
  · rw [List.length_range', Nat.sub_add_cancel hn] at hinv
    exact hinv

/-! ## The sell side -/

theorem unitSums_builds {N : ℕ} {s_list : Vec Order} (hN : 0 < N) (hsize : s_list.size = N)
    (hs : Filled (OrderIn c) s_list 0 N) :
    Builds darkTypes c (unitSums (R := R) checked N s_list) fun w c' =>
      w.size = N + 1 ∧ Filled (WireIn c') w 0 (N + 1) := by
  obtain ⟨a, ha, hac⟩ := (hs 0 le_rfl hN).unit
  rw [unitSums, unitAt_bind (by omega) (.inl ha)]
  refine (addConst_valid (.inr rfl) hac).bind fun w₀ c₁ hc₁ hw₀ => ?_
  rw [Vec.write_bind (Nat.succ_pos N)]
  refine (Builds.foldlM_split (fun done (w : Vec Wire) c' =>
    w.size = N + 1 ∧ Filled (WireIn c') w 0 (done.length + 1)) _ ⟨rfl, ?_⟩ ?_).weaken
    fun w c' _ hinv => by rwa [List.length_range'] at hinv
  · exact Filled.put (fun i _ hi => absurd hi (Nat.not_lt_zero i)) ⟨w₀, rfl, hw₀⟩
  · intro done i rest w c₂ hsplit hc₂ ⟨hwsize, hfilled⟩
    obtain ⟨rfl, hlt⟩ := range'_split hsplit
    obtain ⟨u, hu, huc⟩ := (hs done.length (Nat.zero_le _) hlt).unit
    obtain ⟨v, hv, hvc⟩ := hfilled done.length (Nat.zero_le _) (Nat.lt_succ_self _)
    rw [Nat.add_sub_cancel, unitAt_bind (by omega) (.inl hu), wireAt_bind (by omega) (.inl hv)]
    refine (addGate2_valid (.inl rfl) (huc.trans_le (hc₁.trans hc₂).size_le) hvc).bind
      fun w' c₃ hc₃ hw' => ?_
    rw [Vec.write_eq (by omega), List.length_append, List.length_singleton]
    exact .pure ⟨hwsize, (hfilled.imp fun _ h => h.mono hc₃.appends).put ⟨w', rfl, hw'⟩⟩

/-- Sizes of the five vectors of `pslTests`, and how far `z` and `z_dash` are filled. -/
structure TestsFilled (c : Circuit R) (t : PslTests) (N k : ℕ) : Prop where
  z_size : t.z.size = N + 1
  z_dash_size : t.z_dash.size = N + 1
  temp1_size : t.temp1.size = N + 1
  temp2_size : t.temp2.size = N + 1
  temp3_size : t.temp3.size = N + 1
  z : Filled (WireIn c) t.z 0 k
  z_dash : Filled (WireIn c) t.z_dash 0 k

theorem pslTest_builds {N i : ℕ} {s_list : Vec Order} {new_order : Order} {w : Vec Wire}
    {t : PslTests} (hsize : s_list.size = N) (hs : Filled (OrderIn c) s_list 0 N)
    (hnew : OrderIn c new_order) (hwsize : w.size = N + 1) (hw : Filled (WireIn c) w 0 (N + 1))
    (hi : i < N) (ht : TestsFilled c t N (i + 1)) :
    Builds darkTypes c (pslTest (R := R) checked s_list new_order w t (i + 1)) fun t' c' =>
      TestsFilled c' t' N (i + 2) := by
  obtain ⟨a, ha, hac⟩ := hw i (Nat.zero_le _) (by omega)
  obtain ⟨u, hu, huc⟩ := hnew.unit
  obtain ⟨p, hp, hpc⟩ := hnew.price
  obtain ⟨q, hq, hqc⟩ := (hs i (Nat.zero_le _) hi).price
  rw [pslTest, Nat.add_sub_cancel, wireAt_bind (by omega) (.inl ha), Denotes.bind (.inl hu)]
  refine (addGate2_valid (.inr (.inl rfl)) hac huc).bind fun w₁ c₁ hc₁ h₁ => ?_
  rw [Vec.write_bind (by rw [ht.temp1_size]; omega), Denotes.bind (.inl hp)]
  refine (addConst_valid (.inl rfl) (hpc.trans_le hc₁.size_le)).bind fun w₂ c₂ hc₂ h₂ => ?_
  rw [Vec.write_bind (by rw [ht.temp2_size]; omega), Vec.read_bind (by omega),
    Denotes.bind (.inl hq), wireAt_bind (by rw [Vec.put_size, ht.temp2_size]; omega) denotes_put]
  refine (addGate2_valid (.inr (.inl rfl)) (hqc.trans_le (hc₁.trans hc₂).size_le) h₂).bind
    fun w₃ c₃ hc₃ h₃ => ?_
  rw [Vec.write_bind (by rw [ht.temp3_size]; omega),
    wireAt_bind (by rw [Vec.put_size, ht.temp1_size]; omega) denotes_put]
  refine (addLtz_valid (h₁.trans_le (hc₂.trans hc₃).size_le)).bind fun z c₄ hc₄ hz => ?_
  rw [Vec.write_bind (by rw [ht.z_size]; omega),
    wireAt_bind (by rw [Vec.put_size, ht.temp3_size]; omega) denotes_put]
  refine (addLtz_valid (h₃.trans_le hc₄.size_le)).bind fun z_dash c₅ hc₅ hz_dash => ?_
  rw [Vec.write_bind (by rw [ht.z_dash_size]; omega)]
  have hc := (((hc₁.trans hc₂).trans hc₃).trans hc₄).trans hc₅
  exact .pure ⟨ht.z_size, ht.z_dash_size, ht.temp1_size, ht.temp2_size, ht.temp3_size,
    (ht.z.imp fun _ h => h.mono hc.appends).put ⟨z, rfl, hz.trans_le hc₅.size_le⟩,
    (ht.z_dash.imp fun _ h => h.mono hc.appends).put ⟨z_dash, rfl, hz_dash⟩⟩

theorem pslTests_builds {N : ℕ} {s_list : Vec Order} {new_order : Order} {w : Vec Wire}
    (hsize : s_list.size = N) (hs : Filled (OrderIn c) s_list 0 N) (hnew : OrderIn c new_order)
    (hwsize : w.size = N + 1) (hw : Filled (WireIn c) w 0 (N + 1)) :
    Builds darkTypes c (pslTests (R := R) checked N s_list new_order w) fun t c' =>
      TestsFilled c' t N (N + 1) := by
  obtain ⟨a, ha, hac⟩ := hw 0 le_rfl (Nat.succ_pos N)
  rw [pslTests, wireAt_bind (by omega) (.inl ha)]
  refine (addConst_valid (.inr rfl) hac).bind fun z₀ c₁ hc₁ hz₀ => ?_
  rw [Vec.write_bind (Nat.succ_pos N), wireAt_bind (by omega) (.inl ha)]
  refine (addConst_valid (.inr rfl) (hac.trans_le hc₁.size_le)).bind fun z_dash₀ c₂ hc₂ hz_dash₀ => ?_
  rw [Vec.write_bind (Nat.succ_pos N)]
  have hnone : ∀ {p : Wire → Prop}, Filled p (Vec.new (N + 1)) 0 0 := fun i _ hi =>
    absurd hi (Nat.not_lt_zero i)
  refine (Builds.foldlM_split (fun done (t : PslTests) c' => TestsFilled c' t N (done.length + 1)) _
    ⟨rfl, rfl, rfl, rfl, rfl, hnone.put ⟨z₀, rfl, hz₀.trans_le hc₂.size_le⟩,
      hnone.put ⟨z_dash₀, rfl, hz_dash₀⟩⟩ ?_).weaken fun t c' _ ht => by
        rwa [List.length_range'] at ht
  intro done i rest t c₃ hsplit hc₃ ht
  obtain ⟨rfl, hlt⟩ := range'_split hsplit
  have hc := ((hc₁.trans hc₂).trans hc₃).appends
  rw [List.length_append, List.length_singleton]
  exact pslTest_builds hsize (hs.imp fun _ h => h.mono hc) (hnew.mono hc) hwsize
    (hw.imp fun _ h => h.mono hc) hlt ht

theorem pslOutputs_makes {N : ℕ} {s_list : Vec Order} {t : PslTests} (hsize : s_list.size = N)
    (hs : Filled (OrderIn c) s_list 0 N) (ht : TestsFilled c t N (N + 1)) :
    Makes darkTypes c (pslOutputs (R := R) checked N s_list t) fun _ _ _ => True := by
  obtain ⟨a, ha, hac⟩ := ht.z 0 le_rfl (Nat.succ_pos N)
  rw [pslOutputs, wireAt_bind (by rw [ht.z_size]; omega) (.inl ha)]
  refine (addConst_valid (.inr rfl) hac).then fun f₀ c₁ hc₁ hf₀ => ?_
  rw [Vec.write_bind (Nat.succ_pos N)]
  refine (Makes.foldlM (fun _ (f : Vec Wire) _ _ => f.size = N + 1) _ rfl ?_).bind
    fun f outs c₂ hc₂ _ => ?_
  · intro done i rest f outs c₂ hsplit hc₂ hf
    obtain ⟨rfl, hlt⟩ := range'_split hsplit
    obtain ⟨z, hz, hzc⟩ := ht.z (done.length + 1) (Nat.zero_le _) (by omega)
    obtain ⟨d, hd, hdc⟩ := ht.z_dash (done.length + 1) (Nat.zero_le _) (by omega)
    have hle := (hc₁.appends.trans hc₂).size_le
    rw [wireAt_bind (by rw [ht.z_size]; omega) (.inl hz),
      wireAt_bind (by rw [ht.z_dash_size]; omega) (.inl hd)]
    refine (addGate2_valid (.inr (.inr rfl)) (hzc.trans_le hle) (hdc.trans_le hle)).then
      fun w c₃ _ hw => ?_
    rw [Vec.write_bind (by omega), wireAt_bind (by rw [Vec.put_size]; omega) denotes_put]
    exact (setAsOutput_makes (has_value hw)).bind fun _ _ _ _ _ => .pure hf
  · refine (Makes.forM (fun i => [(s_list.slot i).name.getD 0, (s_list.slot i).unit.getD 0,
      (s_list.slot i).price.getD 0]) _ fun i hi outs' c₃ hc₃ => ?_).weaken fun _ _ _ _ _ => trivial
    have hiN : i < N := (List.mem_range.mp hi).trans_le (Nat.div_le_self N 2)
    have horder := (hs i (Nat.zero_le _) hiN).mono ((hc₁.appends.trans hc₂).trans hc₃)
    obtain ⟨⟨a, ha, hac⟩, ⟨b, hb, hbc⟩, ⟨d, hd, hdc⟩⟩ := horder
    have hread : i < s_list.size := by omega
    rw [Vec.read_bind hread, Denotes.bind (.inl ha)]
    refine (setAsOutput_makes (has_value hac)).bind fun _ o₁ c₄ hc₄ h₁ => ?_
    rw [Vec.read_bind hread, Denotes.bind (.inl hb)]
    refine (setAsOutput_makes (has_value (hbc.trans_le hc₄.size_le))).bind fun _ o₂ c₅ hc₅ h₂ => ?_
    rw [Vec.read_bind hread]
    have h := setAsOutput_makes (T := darkTypes) (has_value (hdc.trans_le (hc₄.trans hc₅).size_le))
    rw [show (use checked (s_list.slot i).price >>= fun w => setAsOutput w) = setAsOutput d from
      Denotes.bind (.inl hd) _]
    exact h.weaken fun _ o₃ _ _ h₃ => by simp [h₁, h₂, h₃, ha, hb, hd]

theorem pslShare_builds {N : ℕ} {s_list : Vec Order} {new_order : Order} {w z : Vec Wire}
    (hN : 2 ≤ N) (hsize : s_list.size = N) (hs : Filled (OrderIn c) s_list 0 N)
    (hnew : OrderIn c new_order) (hwsize : w.size = N + 1) (hw : Filled (WireIn c) w 0 (N + 1))
    (hzsize : z.size = N + 1) (hz : Filled (WireIn c) z 0 (N + 1)) :
    Builds darkTypes c (pslShare (R := R) checked N s_list new_order w z) fun _ _ => True := by
  obtain ⟨u, hu, huc⟩ := hnew.unit
  obtain ⟨a, ha, hac⟩ := hw (N / 2 - 1) (Nat.zero_le _) (by omega)
  obtain ⟨b, hb, hbc⟩ := (hs (N / 2 - 1) (Nat.zero_le _) (by omega)).unit
  obtain ⟨d, hd, hdc⟩ := hz (N / 2 + 1) (Nat.zero_le _) (by omega)
  rw [pslShare, Denotes.bind (.inl hu), wireAt_bind (by omega) (.inl ha)]
  refine (addGate2_valid (.inr (.inl rfl)) huc hac).bind fun tmp1 c₁ hc₁ h₁ => ?_
  rw [unitAt_bind (by omega) (.inl hb)]
  refine (addGate2_valid (.inr (.inl rfl)) h₁ (hbc.trans_le hc₁.size_le)).bind
    fun tmp2 c₂ hc₂ h₂ => ?_
  rw [wireAt_bind (by omega) (.inl hd)]
  refine (addGate2_valid (.inr (.inr rfl)) h₂ (hdc.trans_le (hc₁.trans hc₂).size_le)).bind
    fun tmp3 c₃ hc₃ h₃ => ?_
  rw [unitAt_bind (by omega) (.inl hb)]
  exact (addGate2_valid (.inl rfl) h₃
    (hbc.trans_le ((hc₁.trans hc₂).trans hc₃).size_le)).weaken fun _ _ _ _ => trivial

/-! ## The buy side -/

theorem insertBelow_builds {M : ℕ} {b_list : Vec Order} {new_order : Order}
    (hsize : b_list.size = M + 1) (hb : Filled (OrderIn c) b_list 0 (M + 1))
    (hnew : OrderIn c new_order) :
    Builds darkTypes c (insertBelow (R := R) checked M b_list new_order) fun g c' =>
      g.size = M + 2 ∧ Filled (WireIn c') g 0 (M + 1) := by
  obtain ⟨p, hp, hpc⟩ := hnew.price
  obtain ⟨a, ha, hac⟩ := (hb 0 le_rfl (Nat.succ_pos M)).price
  rw [insertBelow, Denotes.bind (.inl hp), Vec.read_bind (by omega), Denotes.bind (.inl ha)]
  refine (addGate2_valid (.inr (.inl rfl)) hpc hac).bind fun tmp4 c₁ hc₁ htmp4 => ?_
  refine (addLtz_valid htmp4).bind fun g₀ c₂ hc₂ hg₀ => ?_
  rw [Vec.write_bind (Nat.succ_pos (M + 1))]
  refine (Builds.foldlM_split (fun done (gtemp : Vec Wire × Vec Wire) c' =>
    gtemp.1.size = M + 2 ∧ gtemp.2.size = M + 2 ∧ Filled (WireIn c') gtemp.1 0 (done.length + 1)) _
    ⟨rfl, rfl, Filled.put (fun i _ hi => absurd hi (Nat.not_lt_zero i)) ⟨g₀, rfl, hg₀⟩⟩ ?_).bind
    fun gtemp c₃ hc₃ ⟨hgsize, _, hg⟩ => .pure ?_
  · intro done i rest gtemp c₃ hsplit hc₃ ⟨hgsize, htsize, hg⟩
    obtain ⟨rfl, hlt⟩ := range'_split hsplit
    obtain ⟨q, hq, hqc⟩ := (hb (done.length + 1) (Nat.zero_le _) (by omega)).price
    have hle := ((hc₁.trans hc₂).trans hc₃).size_le
    rw [Vec.read_bind (by omega), Denotes.bind (.inl hq)]
    refine (addConst_valid (.inl rfl) (hqc.trans_le hle)).bind fun temp_1 c₄ hc₄ h₁ => ?_
    rw [Denotes.bind (.inl hp)]
    refine (addGate2_valid (.inr (.inl rfl)) (hpc.trans_le (hle.trans hc₄.size_le)) h₁).bind
      fun temp_2 c₅ hc₅ h₂ => ?_
    rw [Vec.write_bind (by omega), wireAt_bind (by rw [Vec.put_size]; omega) denotes_put]
    refine (addLtz_valid h₂).bind fun gi c₆ hc₆ hgi => ?_
    rw [Vec.write_bind (by omega), List.length_append, List.length_singleton]
    have hc := ((hc₄.trans hc₅).trans hc₆).appends
    exact .pure ⟨hgsize, htsize, (hg.imp fun _ h => h.mono hc).put ⟨gi, rfl, hgi⟩⟩
  · rw [List.length_range'] at hg
    exact ⟨hgsize, hg⟩

/-- The two vectors of `f'` or `f''`, filled up to `k`. -/
structure PairFilled (c : Circuit R) (out : Vec Wire × Vec Wire) (m k : ℕ) : Prop where
  product_size : out.1.size = m
  negation_size : out.2.size = m
  product : Filled (WireIn c) out.1 0 k
  negation : Filled (WireIn c) out.2 0 k

theorem negateAndMul_builds {m i j : ℕ} {source operand : Vec Wire} {out : Vec Wire × Vec Wire}
    (hi : i < m) (hsi : i < source.size) (hs : WireIn c (source.slot i)) (hoj : j < operand.size)
    (ho : WireIn c (operand.slot j)) (h : PairFilled c out m i) :
    Builds darkTypes c (negateAndMul (R := R) checked i source operand j out) fun out' c' =>
      PairFilled c' out' m (i + 1) := by
  obtain ⟨a, ha, hac⟩ := hs
  obtain ⟨b, hb, hbc⟩ := ho
  rw [negateAndMul, wireAt_bind hsi (.inl ha)]
  refine (addConst_valid (.inr rfl) hac).bind fun tmp c₁ hc₁ h₁ => ?_
  refine (addConst_valid (.inl rfl) h₁).bind fun negation c₂ hc₂ h₂ => ?_
  rw [Vec.write_bind (by rw [h.negation_size]; exact hi),
    wireAt_bind (by rw [Vec.put_size, h.negation_size]; exact hi) denotes_put,
    wireAt_bind hoj (.inl hb)]
  refine (addGate2_valid (.inr (.inr rfl)) h₂ (hbc.trans_le (hc₁.trans hc₂).size_le)).bind
    fun product c₃ hc₃ h₃ => ?_
  rw [Vec.write_bind (by rw [h.product_size]; exact hi)]
  have hc := ((hc₁.trans hc₂).trans hc₃).appends
  exact .pure ⟨h.product_size, h.negation_size,
    (h.product.imp fun _ hw => hw.mono hc).put ⟨product, rfl, h₃⟩,
    (h.negation.imp fun _ hw => hw.mono hc).put ⟨negation, rfl, h₂.trans_le hc₃.size_le⟩⟩

omit [CircuitRing R] in
theorem pairFilled_new (c : Circuit R) (m : ℕ) : PairFilled c (Vec.new m, Vec.new m) m 0 :=
  ⟨rfl, rfl, fun i _ hi => absurd hi (Nat.not_lt_zero i),
    fun i _ hi => absurd hi (Nat.not_lt_zero i)⟩

theorem insertEdge_builds {M : ℕ} {g : Vec Wire} (hgsize : g.size = M + 2)
    (hg : Filled (WireIn c) g 0 (M + 1)) :
    Builds darkTypes c (insertEdge (R := R) checked M g) fun h c' =>
      PairFilled c' h (M + 2) (M + 1) := by
  have h0 := hg 0 le_rfl (Nat.succ_pos M)
  refine (negateAndMul_builds (Nat.succ_pos _) (by omega) h0 (by omega) h0
    (pairFilled_new c (M + 2))).bind fun h c₁ hc₁ hh => ?_
  refine (Builds.foldlM_split (fun done (h : Vec Wire × Vec Wire) c' =>
    PairFilled c' h (M + 2) (done.length + 1)) _ hh ?_).weaken fun h c' _ hh => by
      rwa [List.length_range'] at hh
  intro done i rest h c₂ hsplit hc₂ hh
  obtain ⟨rfl, hlt⟩ := range'_split hsplit
  have hc := (hc₁.trans hc₂).appends
  rw [List.length_append, List.length_singleton]
  exact negateAndMul_builds (by omega) (by omega) ((hg _ (Nat.zero_le _) (by omega)).mono hc)
    (by omega) ((hg _ (Nat.zero_le _) (by omega)).mono hc) hh

theorem insertRest_builds {M : ℕ} {h : Vec Wire × Vec Wire}
    (hh : PairFilled c h (M + 2) (M + 1)) :
    Builds darkTypes c (insertRest (R := R) checked M h.1 h.2) fun u c' =>
      PairFilled c' u (M + 2) (M + 1) := by
  have hsize := hh.product_size
  have hsize' := hh.negation_size
  refine (negateAndMul_builds (Nat.succ_pos _) (by omega) (hh.product 0 le_rfl (Nat.succ_pos M))
    (by omega) (hh.negation 0 le_rfl (Nat.succ_pos M)) (pairFilled_new c (M + 2))).bind
    fun u c₁ hc₁ hu => ?_
  refine (Builds.foldlM_split (fun done (u : Vec Wire × Vec Wire) c' =>
    PairFilled c' u (M + 2) (done.length + 1)) _ hu ?_).weaken fun u c' _ hu => by
      rwa [List.length_range'] at hu
  intro done i rest u c₂ hsplit hc₂ hu
  obtain ⟨rfl, hlt⟩ := range'_split hsplit
  have hc := (hc₁.trans hc₂).appends
  rw [List.length_append, List.length_singleton]
  exact negateAndMul_builds (by omega) (by omega)
    ((hh.product _ (Nat.zero_le _) (by omega)).mono hc) (by omega)
    ((hh.negation _ (Nat.zero_le _) (by omega)).mono hc) hu

theorem selectField_builds {g h u here first new : Wire} (hg : WireIn c g) (hh : WireIn c h)
    (hu : WireIn c u) (hhere : WireIn c here) (hfirst : WireIn c first) (hnew : WireIn c new) :
    Builds darkTypes c (selectField (R := R) checked g h u here first new) fun w c' =>
      w < c'.size := by
  obtain ⟨gw, rfl, hgw⟩ := hg
  obtain ⟨hw, rfl, hhw⟩ := hh
  obtain ⟨uw, rfl, huw⟩ := hu
  obtain ⟨a, rfl, ha⟩ := hhere
  obtain ⟨b, rfl, hb⟩ := hfirst
  obtain ⟨d, rfl, hd⟩ := hnew
  rw [selectField, Denotes.bind denotes_some, Denotes.bind denotes_some]
  refine (addGate2_valid (.inr (.inr rfl)) hgw ha).bind fun w₁ c₁ hc₁ h₁ => ?_
  rw [Denotes.bind denotes_some, Denotes.bind denotes_some]
  refine (addGate2_valid (.inr (.inr rfl)) (hhw.trans_le hc₁.size_le)
    (hb.trans_le hc₁.size_le)).bind fun w₂ c₂ hc₂ h₂ => ?_
  have hle := (hc₁.trans hc₂).size_le
  rw [Denotes.bind denotes_some, Denotes.bind denotes_some]
  refine (addGate2_valid (.inr (.inr rfl)) (huw.trans_le hle) (hd.trans_le hle)).bind
    fun w₃ c₃ hc₃ h₃ => ?_
  refine (addGate2_valid (.inl rfl) (h₁.trans_le (hc₂.trans hc₃).size_le)
    (h₂.trans_le hc₃.size_le)).bind fun w₄ c₄ hc₄ h₄ => ?_
  exact addGate2_valid (.inl rfl) (h₃.trans_le hc₄.size_le) h₄

theorem updateOrder_builds {M i : ℕ} {b_list updated : Vec Order} {new_order : Order}
    {g h u : Vec Wire} (hi : i < M) (hbsize : b_list.size = M + 1)
    (hb : Filled (OrderIn c) b_list 0 (M + 1)) (hnew : OrderIn c new_order)
    (hgsize : g.size = M + 2) (hg : Filled (WireIn c) g 0 (M + 1)) (hhsize : h.size = M + 2)
    (hh : Filled (WireIn c) h 0 (M + 1)) (husize : u.size = M + 2)
    (hu : Filled (WireIn c) u 0 (M + 1)) (hsize : updated.size = M + 2) :
    Builds darkTypes c (updateOrder (R := R) checked b_list new_order g h u updated (i + 1))
      fun updated' _ => updated'.size = M + 2 := by
  have hgi := hg i (Nat.zero_le _) (by omega)
  have hhi := hh i (Nat.zero_le _) (by omega)
  have hui := hu i (Nat.zero_le _) (by omega)
  have hhere := hb (i + 1) (Nat.zero_le _) (by omega)
  have hfirst := hb 0 le_rfl (Nat.succ_pos M)
  rw [updateOrder, Nat.add_sub_cancel, Vec.read_bind (by omega), Vec.read_bind (by omega),
    Vec.read_bind (by omega), Vec.read_bind (by omega), Vec.read_bind (by omega)]
  refine (selectField_builds hgi hhi hui hhere.name hfirst.name hnew.name).bind
    fun name c₁ hc₁ _ => ?_
  have hc₁ := hc₁.appends
  refine (selectField_builds (hgi.mono hc₁) (hhi.mono hc₁) (hui.mono hc₁) (hhere.unit.mono hc₁)
    (hfirst.unit.mono hc₁) (hnew.unit.mono hc₁)).bind fun unit c₂ hc₂ _ => ?_
  have hc₂ := hc₁.trans hc₂.appends
  refine (selectField_builds (hgi.mono hc₂) (hhi.mono hc₂) (hui.mono hc₂) (hhere.price.mono hc₂)
    (hfirst.price.mono hc₂) (hnew.price.mono hc₂)).bind fun price c₃ _ _ => ?_
  rw [Vec.write_eq (by omega)]
  exact .pure hsize

theorem updatedBuyList_builds {M : ℕ} {b_list : Vec Order} {new_order : Order} {g h u : Vec Wire}
    (hbsize : b_list.size = M + 1) (hb : Filled (OrderIn c) b_list 0 (M + 1))
    (hnew : OrderIn c new_order) (hgsize : g.size = M + 2) (hg : Filled (WireIn c) g 0 (M + 1))
    (hhsize : h.size = M + 2) (hh : Filled (WireIn c) h 0 (M + 1)) (husize : u.size = M + 2)
    (hu : Filled (WireIn c) u 0 (M + 1)) :
    Builds darkTypes c (updatedBuyList (R := R) checked M b_list new_order g h u)
      fun _ _ => True := by
  rw [updatedBuyList, Vec.read_bind (by omega)]
  refine (constOrder_builds (.inr rfl) (hb 0 le_rfl (Nat.succ_pos M))).bind
    fun order₀ c₁ hc₁ _ => ?_
  rw [Vec.write_bind (Nat.succ_pos (M + 1))]
  refine (Builds.foldlM_split (fun _ (updated : Vec Order) _ => updated.size = M + 2) _ rfl
    ?_).weaken fun _ _ _ _ => trivial
  intro done i rest updated c₂ hsplit hc₂ hsize
  obtain ⟨rfl, hlt⟩ := range'_split hsplit
  have hc := (hc₁.trans hc₂).appends
  exact updateOrder_builds hlt hbsize (hb.imp fun _ h => h.mono hc) (hnew.mono hc) hgsize
    (hg.imp fun _ h => h.mono hc) hhsize (hh.imp fun _ h => h.mono hc) husize
    (hu.imp fun _ h => h.mono hc) hsize

/-! ## The builders -/

/-- `getCDACircuit` only uses elements that are in bounds and assigned. -/
theorem getCDACircuit_makes {dp : DarkPool} (hN : 2 ≤ dp.s_list_.size) (hM : 1 ≤ dp.b_list_.size)
    (hsize : dp.buy_list_size_ = dp.b_list_.size) :
    Makes darkTypes c (getCDACircuit (R := R) checked dp) fun _ _ _ => True := by
  refine newOrder_builds.then fun o c₁ hc₁ ⟨name, unit, price, ho, _, hname, hunit, hprice⟩ => ?_
  have hnew : OrderIn c₁ o := by
    subst ho
    exact ⟨⟨name, rfl, hname.lt⟩, ⟨unit, rfl, hunit⟩, ⟨price, rfl, hprice⟩⟩
  refine (fillOrders_builds (by omega) rfl hnew).then fun s_list c₂ hc₂ ⟨hssize, hs⟩ => ?_
  have hnew := hnew.mono hc₂.appends
  refine (fillOrders_builds (by omega) rfl hnew).then fun b_list c₃ hc₃ ⟨hbsize, hb⟩ => ?_
  have hnew := hnew.mono hc₃.appends
  have hs := hs.imp fun _ h => h.mono hc₃.appends
  refine (unitSums_builds (by omega) hssize hs).then fun w c₄ hc₄ ⟨hwsize, hw⟩ => ?_
  have hnew := hnew.mono hc₄.appends
  have hs := hs.imp fun _ h => h.mono hc₄.appends
  refine (pslTests_builds hssize hs hnew hwsize hw).then fun t c₅ hc₅ ht => ?_
  have hnew := hnew.mono hc₅.appends
  have hs := hs.imp fun _ h => h.mono hc₅.appends
  have hw := hw.imp fun _ h => h.mono hc₅.appends
  refine (pslOutputs_makes hssize hs ht).bind fun _ outs c₆ hc₆ _ => ?_
  have hnew := hnew.mono hc₆
  refine (pslShare_builds hN hssize (hs.imp fun _ h => h.mono hc₆) hnew hwsize
    (hw.imp fun _ h => h.mono hc₆) ht.z_size (ht.z.imp fun _ h => h.mono hc₆)).then
    fun s_dash c₇ hc₇ _ => ?_
  obtain ⟨⟨name, hname, hnamec⟩, ⟨unit, hunit, hunitc⟩, ⟨price, hprice, hpricec⟩⟩ :=
    hnew.mono hc₇.appends
  rw [Denotes.bind (.inl hunit)]
  refine (addEqz_valid hunitc).then fun e c₈ hc₈ he => ?_
  rw [Denotes.bind (.inl hprice)]
  refine (addGate2_valid (.inr (.inr rfl)) (hpricec.trans_le hc₈.size_le) he).then
    fun price' c₉ hc₉ hprice' => ?_
  have hc₈₉ := hc₈.trans hc₉
  have hnew' : OrderIn c₉ { o with price := some price' } :=
    ⟨⟨name, hname, hnamec.trans_le hc₈₉.size_le⟩, ⟨unit, hunit, hunitc.trans_le hc₈₉.size_le⟩,
      ⟨price', rfl, hprice'⟩⟩
  have hb : Filled (OrderIn c₉) (b_list.resize (dp.buy_list_size_ + 1) .unassigned) 0
      dp.b_list_.size := by
    intro i hlo hi
    have hslot : (b_list.resize (dp.buy_list_size_ + 1) .unassigned).slot i = b_list.slot i :=
      if_pos (by omega)
    rw [hslot]
    exact ((((((hb i hlo hi).mono hc₄.appends).mono hc₅.appends).mono hc₆).mono
      hc₇.appends).mono hc₈.appends).mono hc₉.appends
  have hbsize : (b_list.resize (dp.buy_list_size_ + 1) .unassigned).size = dp.b_list_.size + 1 := by
    rw [← hsize]
    rfl
  dsimp only
  generalize b_list.resize (dp.buy_list_size_ + 1) .unassigned = b at hb hbsize ⊢
  rw [Vec.read_bind (by omega)]
  refine (constOrder_builds (.inr rfl) (hb 0 le_rfl (by omega))).then fun order c₁₀ hc₁₀ horder => ?_
  rw [Vec.write_bind (by omega)]
  have hb := (hb.imp fun _ h => h.mono hc₁₀.appends).put horder
  have hbsize : (b.put dp.b_list_.size order).size = dp.b_list_.size + 1 := hbsize
  have hnew := hnew'.mono hc₁₀.appends
  refine (insertBelow_builds hbsize hb hnew).then fun g c₁₁ hc₁₁ ⟨hgsize, hg⟩ => ?_
  refine (insertEdge_builds hgsize hg).then fun h c₁₂ hc₁₂ hh => ?_
  refine (insertRest_builds hh).then fun u c₁₃ hc₁₃ hu => ?_
  have hc₁₁₃ := ((hc₁₁.trans hc₁₂).trans hc₁₃).appends
  refine (updatedBuyList_builds hbsize (hb.imp fun _ h => h.mono hc₁₁₃) (hnew.mono hc₁₁₃) hgsize
    (hg.imp fun _ h => h.mono (hc₁₂.trans hc₁₃).appends) hh.product_size
    (hh.product.imp fun _ h => h.mono hc₁₃.appends) hu.product_size hu.product).then
    fun _ c₁₄ _ _ => .pure trivial

omit [CircuitRing R] in
theorem leftovers_ensures {t_wire : ℕ} {order : Vec Order} {temp L : Vec Wire} :
    Ensures (leftovers (R := R) checked n t_wire order temp L) fun tempL =>
      tempL.2.slot 0 = L.slot 0 := by
  refine (Ensures.foldlM (fun tempL => tempL.2.slot 0 = L.slot 0) (fun _ => True) _ rfl
    fun tempL i hi hinv => ?_).weaken fun _ h => h.1
  iterate 6 refine .skip fun _ => ?_
  refine write_ensures.bind fun L' ⟨_, hL'⟩ => .pure ⟨?_, trivial⟩
  rw [hL', Vec.put_slot_of_ne (by rw [List.mem_range'_1] at hi; omega), hinv]

/-- With checks, a side needs all elements of `L`. -/
theorem clampOrders_assigned {n56 : ℕ} {L : Vec Wire} {order : Vec Order} :
    Ensures (clampOrders (R := R) true n n56 L order) fun _ => ∀ i < n, L.slot i ≠ none := by
  refine (Ensures.foldlM (fun _ => True) (fun i => L.slot i ≠ none) _ trivial
    fun state i _ _ => ?_).bind fun state ⟨_, hall⟩ => .pure fun i hi =>
      hall i (List.mem_range.mpr hi)
  rw [clampOrder]
  dsimp only
  exact wireAt_ensures.bind fun _ hne _ _ _ _ => ⟨trivial, hne.2⟩

/-- `Ls_wire[0]` is used and never assigned. -/
theorem getVMCircuit_unassigned {dp : DarkPool} (hN : 0 < dp.s_list_.size) :
    Ensures (getVMCircuit (R := R) true dp) fun _ => False := by
  rw [getVMCircuit]
  iterate 16 refine .skip fun _ => ?_
  refine leftovers_ensures.bind fun s hs => .skip fun b => ?_
  refine clampOrders_assigned.bind fun s_list_ hall => ?_
  exact absurd (hs.trans rfl) (hall 0 hN)

/-- Both builders, each on a new object with `N` sell orders and `M` buy orders, use elements in bounds
and assigned wires only. -/
def IndexSafe (R : Type) [CircuitRing R] (N M : ℕ) : Prop :=
  (∃ r, getCDACircuit true (init N M).resizeList (empty : Circuit R) = .ok r) ∧
    ∃ r, getVMCircuit true (init N M).resizeList (empty : Circuit R) = .ok r

section New
variable {N M : ℕ}

theorem getCDACircuit_new (hN : 2 ≤ N) (hM : 2 ≤ M) :
    ∃ r, getCDACircuit true (init N M).resizeList (empty : Circuit R) = .ok r := by
  have hmakes : Makes darkTypes (empty : Circuit R) (getCDACircuit true (init N M).resizeList)
      fun _ _ _ => True := getCDACircuit_makes hN (show 1 ≤ M by omega) rfl
  obtain ⟨dp, _, c', hm, -⟩ := hmakes
  exact ⟨(dp, c'), hm⟩

theorem getVMCircuit_new (hN : 2 ≤ N) (hM : 2 ≤ M) (hMN : M ≤ N) :
    ∃ r, getVMCircuit false (init N M).resizeList (empty : Circuit R) = .ok r := by
  obtain ⟨new_order, c₃, h₃, -, name, unit, price, -, hname, hv, -⟩ :=
    newOrder_builds (c := (empty : Circuit R))
  have hzero : (0 : ℕ) < c₃.size := by
    have hname : name = 0 := hname
    exact hname ▸ hv.lt
  have hunits : ∀ {order : Vec Order} {n : ℕ}, n ≤ order.size →
      (∀ i, unitWire order i = 0) → UnitsHave false c₃ order n fun i f => c₃.value f 0 :=
    fun {order n} hle h0 => ⟨hle, fun i _ => ⟨0, h0 i ▸ denotes_unchecked _, has_value hzero⟩⟩
  have hwire : ∀ n i, unitWire ((⟨0, fun _ => .unassigned⟩ : Vec Order).resize n .unassigned) i = 0 :=
    fun n i => by simp [unitWire, Vec.resize, Order.unassigned]
  have hmakes : Makes darkTypes (empty : Circuit R) (getVMCircuit false (init N M).resizeList) _ :=
    getVMCircuit_makes h₃ hN hM hMN (hunits le_rfl (hwire N)) (hunits le_rfl (hwire M))
      (has_value hzero)
  obtain ⟨dp, _, c', hm, -⟩ := hmakes
  exact ⟨(dp, c'), hm⟩

theorem not_indexSafe (hN : 2 ≤ N) : ¬ IndexSafe R N M := fun ⟨_, r, hr⟩ =>
  getVMCircuit_unassigned (show 0 < N by omega) _ _ _ hr

/-- `getCDACircuit` is index-safe for all sizes; `getVMCircuit` stays in bounds exactly when the buy
list is not the longer one, and never uses assigned wires only. -/
theorem builders_indexSafe (hN : 2 ≤ N) (hM : 2 ≤ M) :
    ¬ IndexSafe R N M ∧
      (∃ r, getCDACircuit true (init N M).resizeList (empty : Circuit R) = .ok r) ∧
      ((∃ r, getVMCircuit false (init N M).resizeList (empty : Circuit R) = .ok r) ↔ M ≤ N) :=
  ⟨not_indexSafe hN, getCDACircuit_new hN hM,
    fun ⟨_, hr⟩ => getVMCircuit_ensures _ _ _ hr, getVMCircuit_new hN hM⟩

end New

/-- Two sell orders and three buy orders. -/
theorem builders_indexSafe_two :
    ¬ IndexSafe U64 2 3 ∧
      (∃ r, getCDACircuit true (init 2 3).resizeList (empty : Circuit U64) = .ok r) ∧
      ((∃ r, getVMCircuit false (init 2 3).resizeList (empty : Circuit U64) = .ok r) ↔ 3 ≤ 2) :=
  builders_indexSafe le_rfl (by decide)

/-- With two orders on each side everything is in bounds, and `Ls_wire[0]` is used unassigned; with
three buy orders `bz_temp_5[2]` is out of bounds. -/
theorem builders_unsafe : ¬ IndexSafe U64 2 2 ∧
    ¬ ∃ r, getVMCircuit false (init 2 3).resizeList (empty : Circuit U64) = .ok r :=
  ⟨not_indexSafe le_rfl, fun ⟨_, hr⟩ => absurd (getVMCircuit_ensures _ _ _ hr) (show ¬ 3 ≤ 2 by decide)⟩

end DarkPool

end QSync
