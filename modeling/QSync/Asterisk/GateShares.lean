import QSync.Asterisk.Preproc

/-! # The shares of an opening

`gateShare` is the share `q_share` that a party computes for a multiplication gate in
`evaluateGatesAtDepthPartySend` (`asterisk/online_evaluator_load_balanced.cpp`), over the field and
over bits alike. `gateShare_authenticates`: when the preprocessing is valid, the shares of all parties
open to the product of the values on the inputs plus the mask of the output.
-/

namespace QSync
open AuthSharing
set_option autoImplicit false
set_option maxHeartbeats 250000

variable {R X : Type}

/-- The types of the multiplication gates, in the order in which their shares are concatenated. -/
def multTypes : List GateType := [.kMul, .kMul3, .kMul4, .kDotprod]

theorem interactive_of_mult {t : GateType} (h : t ∈ multTypes) : t.interactive := by
  revert h
  cases t <;> decide

section Share
variable [CommRing R]

/-- `mask_prod`, of a `PreprocMultGate` or a `PreprocDotpGate`. -/
def PreprocExt.mask_prod : PreprocExt R X → MaskShare R
  | .mult m | .dotp m => m
  | _ => default

def PreprocExt.masks3 : PreprocExt R X → Mult3Masks (MaskShare R)
  | .mult3 m => m
  | _ => ⟨default, default, default, default⟩

def PreprocExt.masks4 : PreprocExt R X → Mult4Masks (MaskShare R)
  | .mult4 m => m
  | _ => ⟨default, default, default, default, default, default, default, default, default, default,
      default⟩

/-- `q_share` of party `id` for a multiplication gate. -/
def gateShare (id : ℕ) (wires : ℕ → R) (preproc : PreprocGates R X) (g : Gate R) :
    AuthAddShare R :=
  let mask := fun w => (preproc w).mask.sh
  let pre_out := (preproc g.out).ext
  match g.op with
  | .kMul in1 in2 =>
    (mask g.out + pre_out.mask_prod.sh - mask in1 * wires in2 - mask in2 * wires in1).add
      (wires in1 * wires in2) id
  | .kMul3 in1 in2 in3 =>
    let del_a := mask in1
    let del_b := mask in2
    let del_c := mask in3
    let m_a := wires in1
    let m_b := wires in2
    let m_c := wires in3
    let pre := pre_out.masks3.map MaskShare.sh
    let q_share := mask g.out - pre.mask_abc
    let q_share := q_share + (pre.mask_bc * m_a + pre.mask_ac * m_b + pre.mask_ab * m_c)
    let q_share := q_share - (del_c * m_a * m_b + del_b * m_a * m_c + del_a * m_b * m_c)
    q_share.add (m_a * m_b * m_c) id
  | .kMul4 in1 in2 in3 in4 =>
    let del_a := mask in1
    let del_b := mask in2
    let del_c := mask in3
    let del_d := mask in4
    let m_a := wires in1
    let m_b := wires in2
    let m_c := wires in3
    let m_d := wires in4
    let pre := pre_out.masks4.map MaskShare.sh
    let q_share := mask g.out - (del_d * m_a * m_b * m_c + del_c * m_a * m_b * m_d +
      del_b * m_a * m_c * m_d + del_a * m_b * m_c * m_d)
    let q_share := q_share + (pre.mask_cd * m_a * m_b + pre.mask_bd * m_a * m_c +
      pre.mask_bc * m_a * m_d + pre.mask_ad * m_b * m_c + pre.mask_ac * m_b * m_d +
      pre.mask_ab * m_c * m_d)
    let q_share := q_share - (pre.mask_bcd * m_a + pre.mask_acd * m_b + pre.mask_abd * m_c +
      pre.mask_abc * m_d)
    let q_share := q_share + pre.mask_abcd
    q_share.add (m_a * m_b * m_c * m_d) id
  | .kDotprod in1 in2 =>
    (in1.zip in2).foldl (fun q_share win =>
      (q_share - (mask win.1 * wires win.2 + mask win.2 * wires win.1)).add
        (wires win.1 * wires win.2) id) (mask g.out + pre_out.mask_prod.sh)
  | _ => default

theorem gateShare_congr {id : ℕ} {ws ws' : ℕ → R} {preproc : PreprocGates R X} {g : Gate R}
    (h : ∀ w ∈ g.inputs, ws w = ws' w) : gateShare id ws preproc g = gateShare id ws' preproc g := by
  obtain ⟨op, out⟩ := g
  cases op with
  | kDotprod xs ys =>
    refine List.foldl_ext _ _ _ fun q p hp => ?_
    have hmem := List.of_mem_zip hp
    rw [h p.1 (List.mem_append_left _ hmem.1), h p.2 (List.mem_append_right _ hmem.2)]
  | _ => simp_all [gateShare, Gate.inputs, Op.inputs]

end Share

/-! ## Shares of all parties -/

section Shares
variable [CommRing R]

/-- The shares `s i` of the parties `1..nP`, each with its key share, authenticate `x`. -/
structure SharesOf (nP : ℕ) (keySh : ℕ → R) (s : ℕ → AuthAddShare R) (x : R) : Prop where
  key : ∀ i ∈ Finset.Icc 1 nP, (s i).key_sh_ = keySh i
  auth : Authenticates (Finset.Icc 1 nP) keySh (fun i => (s i).value_) (fun i => (s i).tag_) x

variable {nP : ℕ} {keySh : ℕ → R} {s t : ℕ → AuthAddShare R} {x y : R}

theorem SharesOf.add (h : SharesOf nP keySh s x) (h' : SharesOf nP keySh t y) :
    SharesOf nP keySh (fun i => s i + t i) (x + y) :=
  ⟨h'.key, h.auth.add h'.auth⟩

theorem SharesOf.mul (h : SharesOf nP keySh s x) (c : R) :
    SharesOf nP keySh (fun i => s i * c) (x * c) :=
  ⟨h.key, h.auth.mul_const c⟩

theorem SharesOf.sub (h : SharesOf nP keySh s x) (h' : SharesOf nP keySh t y) :
    SharesOf nP keySh (fun i => s i - t i) (x - y) := by
  have hsub := h.add (h'.mul (-1))
  rw [mul_neg_one, ← sub_eq_add_neg] at hsub
  exact hsub

theorem SharesOf.add_const (h : SharesOf nP keySh s x) (hnP : 1 ≤ nP) (c : R) :
    SharesOf nP keySh (fun i => (s i).add c i) (x + c) := by
  have hadd := h.auth.add_const (Finset.left_mem_Icc.mpr hnP) c
  refine ⟨fun i hi => ?_, ⟨?_, ?_⟩⟩
  · rw [AuthAddShare.add, AuthAddShare.addWithAdder_key, h.key i hi]
  · rw [← hadd.opens]
    exact Finset.sum_congr rfl fun i _ => AuthAddShare.addWithAdder_value _ _ _ _
  · rw [← hadd.tagged]
    refine Finset.sum_congr rfl fun i hi => ?_
    rw [AuthAddShare.add, AuthAddShare.addWithAdder_tag, h.key i hi]

theorem SharesOf.congr (h : SharesOf nP keySh s x) (hx : x = y) : SharesOf nP keySh s y := hx ▸ h

theorem SharesOf.of_agrees {a : MaskShare R} {b : ℕ → MaskShare R} (hnP : 1 ≤ nP)
    (h : ∀ i, 1 ≤ i → i ≤ nP → MaskShare.Agrees nP keySh i a (b i)) :
    SharesOf nP keySh (fun i => (b i).sh) a.secret := by
  have hshare : ∀ i ∈ Finset.Icc 1 nP, (b i).sh = a.tp.getAAS i := fun i hi =>
    (h i (Finset.mem_Icc.mp hi).1 (Finset.mem_Icc.mp hi).2).share_eq
  have hvalid := (h 1 le_rfl hnP).valid
  refine ⟨fun i hi => ?_, ⟨?_, ?_⟩⟩
  · rw [hshare i hi]
    exact TPShare.getAAS_key hvalid (Finset.mem_Icc.mp hi).1 (Finset.mem_Icc.mp hi).2
  · exact (Finset.sum_congr rfl fun i hi => by rw [hshare i hi]).trans hvalid.authenticates.opens
  · exact (Finset.sum_congr rfl fun i hi => by rw [hshare i hi]).trans hvalid.authenticates.tagged

theorem SharesOf.foldl_dotprod (hnP : 1 ≤ nP) (mask : ℕ → ℕ → AuthAddShare R) (δ wires : ℕ → R)
    (ps : List (ℕ × ℕ)) (hm : ∀ p ∈ ps, SharesOf nP keySh (fun i => mask i p.1) (δ p.1) ∧
      SharesOf nP keySh (fun i => mask i p.2) (δ p.2)) (h : SharesOf nP keySh s x) :
    SharesOf nP keySh (fun i => ps.foldl (fun q_share win =>
        (q_share - (mask i win.1 * wires win.2 + mask i win.2 * wires win.1)).add
          (wires win.1 * wires win.2) i) (s i))
      (x + (ps.map fun p => (wires p.1 - δ p.1) * (wires p.2 - δ p.2)).sum -
        (ps.map fun p => δ p.1 * δ p.2).sum) := by
  induction ps generalizing s x with
  | nil => simpa using h
  | cons p ps ih =>
    obtain ⟨h1, h2⟩ := hm p List.mem_cons_self
    have hp := (h.sub ((h1.mul (wires p.2)).add (h2.mul (wires p.1)))).add_const hnP
      (wires p.1 * wires p.2)
    have hps := ih (fun q hq => hm q (List.mem_cons_of_mem _ hq)) hp
    refine hps.congr ?_
    simp only [List.map_cons, List.sum_cons]
    ring

end Shares

section GateShare
variable [CircuitRing R] {nP : ℕ} {keySh : ℕ → R} {Cmp : X → X → Prop} {C : PreprocGates R X}
  {P : ℕ → PreprocGates R X}

theorem PreprocExt.Agrees.mask_prod {a : PreprocExt R X} {b : PreprocExt R X} {i : ℕ}
    {m : MaskShare R} (h : PreprocExt.Agrees nP keySh i Cmp a b) (ha : a = .mult m ∨ a = .dotp m) :
    MaskShare.Agrees nP keySh i m b.mask_prod := by
  rcases ha with rfl | rfl <;> cases b <;> first | exact h | exact h.elim

theorem PreprocExt.Agrees.masks3 {a : PreprocExt R X} {b : PreprocExt R X} {i : ℕ}
    {m : Mult3Masks (MaskShare R)} (h : PreprocExt.Agrees nP keySh i Cmp a b) (ha : a = .mult3 m) :
    Mult3Masks.All (MaskShare.Agrees nP keySh i) m b.masks3 := by
  subst ha
  cases b <;> first | exact h | exact h.elim

theorem PreprocExt.Agrees.masks4 {a : PreprocExt R X} {b : PreprocExt R X} {i : ℕ}
    {m : Mult4Masks (MaskShare R)} (h : PreprocExt.Agrees nP keySh i Cmp a b) (ha : a = .mult4 m) :
    Mult4Masks.All (MaskShare.Agrees nP keySh i) m b.masks4 := by
  subst ha
  cases b <;> first | exact h | exact h.elim

/-- The shares of a multiplication gate open to the product of the values `wires w - δ w` on its
inputs plus the mask of its output, and their tags authenticate it. -/
theorem gateShare_authenticates {Cmp : ℕ → X → X → Prop} (hnP : 1 ≤ nP) (wires : ℕ → R) {g : Gate R}
    (ht : g.type ∈ multTypes) (f : ℕ → R)
    (hmask : ∀ i, 1 ≤ i → i ≤ nP → ∀ w, w = g.out ∨ w ∈ g.inputs →
      MaskShare.Agrees nP keySh i (C w).mask (P i w).mask)
    (hext : ∀ i, 1 ≤ i → i ≤ nP →
      PreprocExt.Agrees nP keySh i (Cmp i) (C g.out).ext (P i g.out).ext)
    (hopens : Opens (fun w => (C w).secret) g.op (C g.out)) :
    SharesOf nP keySh (fun i => gateShare i wires (P i) g)
      ((C g.out).secret + g.value f fun w => wires w - (C w).secret) := by
  have hm : ∀ w, w = g.out ∨ w ∈ g.inputs →
      SharesOf nP keySh (fun i => (P i w).mask.sh) (C w).secret := fun w hw =>
    .of_agrees hnP fun i hi hn => hmask i hi hn w hw
  obtain ⟨op, out⟩ := g
  have hin : ∀ w ∈ op.inputs, SharesOf nP keySh (fun i => (P i w).mask.sh) (C w).secret :=
    fun w hw => hm w (.inr hw)
  have hout := hm out (.inl rfl)
  cases op with
  | kMul a b =>
    obtain ⟨m, hm', hs⟩ := hopens
    have ha := hin a (by simp [Op.inputs])
    have hb := hin b (by simp [Op.inputs])
    have hab := SharesOf.of_agrees hnP fun i hi hn => (hext i hi hn).mask_prod (.inl hm')
    have h := (((hout.add hab).sub (ha.mul (wires b))).sub (hb.mul (wires a))).add_const hnP
      (wires a * wires b)
    refine h.congr ?_
    simp only [hs, Gate.value]
    ring
  | kMul3 a b c =>
    obtain ⟨m, hm', hs⟩ := hopens
    have ha := hin a (by simp [Op.inputs])
    have hb := hin b (by simp [Op.inputs])
    have hc := hin c (by simp [Op.inputs])
    have hall := fun i hi hn => (hext i hi hn).masks3 hm'
    have hab := SharesOf.of_agrees hnP fun i hi hn => (hall i hi hn).ab
    have hac := SharesOf.of_agrees hnP fun i hi hn => (hall i hi hn).ac
    have hbc := SharesOf.of_agrees hnP fun i hi hn => (hall i hi hn).bc
    have habc := SharesOf.of_agrees hnP fun i hi hn => (hall i hi hn).abc
    have h := (((hout.sub habc).add
        (((hbc.mul (wires a)).add (hac.mul (wires b))).add (hab.mul (wires c)))).sub
        ((((hc.mul (wires a)).mul (wires b)).add ((hb.mul (wires a)).mul (wires c))).add
          ((ha.mul (wires b)).mul (wires c)))).add_const hnP (wires a * wires b * wires c)
    refine h.congr ?_
    simp only [Mult3Masks.map, Mult3Masks.products, Mult3Masks.mk.injEq] at hs
    simp only [hs, Gate.value]
    ring
  | kMul4 a b c d =>
    obtain ⟨m, hm', hs⟩ := hopens
    have ha := hin a (by simp [Op.inputs])
    have hb := hin b (by simp [Op.inputs])
    have hc := hin c (by simp [Op.inputs])
    have hd := hin d (by simp [Op.inputs])
    have hall := fun i hi hn => (hext i hi hn).masks4 hm'
    have hab := SharesOf.of_agrees hnP fun i hi hn => (hall i hi hn).ab
    have hac := SharesOf.of_agrees hnP fun i hi hn => (hall i hi hn).ac
    have had := SharesOf.of_agrees hnP fun i hi hn => (hall i hi hn).ad
    have hbc := SharesOf.of_agrees hnP fun i hi hn => (hall i hi hn).bc
    have hbd := SharesOf.of_agrees hnP fun i hi hn => (hall i hi hn).bd
    have hcd := SharesOf.of_agrees hnP fun i hi hn => (hall i hi hn).cd
    have habc := SharesOf.of_agrees hnP fun i hi hn => (hall i hi hn).abc
    have habd := SharesOf.of_agrees hnP fun i hi hn => (hall i hi hn).abd
    have hacd := SharesOf.of_agrees hnP fun i hi hn => (hall i hi hn).acd
    have hbcd := SharesOf.of_agrees hnP fun i hi hn => (hall i hi hn).bcd
    have habcd := SharesOf.of_agrees hnP fun i hi hn => (hall i hi hn).abcd
    have h3 := (((((hd.mul (wires a)).mul (wires b)).mul (wires c)).add
      (((hc.mul (wires a)).mul (wires b)).mul (wires d))).add
      (((hb.mul (wires a)).mul (wires c)).mul (wires d))).add
      (((ha.mul (wires b)).mul (wires c)).mul (wires d))
    have h2 := (((((hcd.mul (wires a)).mul (wires b)).add ((hbd.mul (wires a)).mul (wires c))).add
      ((hbc.mul (wires a)).mul (wires d))).add ((had.mul (wires b)).mul (wires c))).add
      ((hac.mul (wires b)).mul (wires d)) |>.add ((hab.mul (wires c)).mul (wires d))
    have h1 := (((hbcd.mul (wires a)).add (hacd.mul (wires b))).add (habd.mul (wires c))).add
      (habc.mul (wires d))
    have h := ((((hout.sub h3).add h2).sub h1).add habcd).add_const hnP
      (wires a * wires b * wires c * wires d)
    refine h.congr ?_
    simp only [Mult4Masks.map, Mult4Masks.products, Mult4Masks.mk.injEq] at hs
    simp only [hs, Gate.value]
    ring
  | kDotprod xs ys =>
    obtain ⟨m, hm', hs⟩ := hopens
    have hprod := SharesOf.of_agrees hnP fun i hi hn => (hext i hi hn).mask_prod (.inr hm')
    have h := SharesOf.foldl_dotprod hnP (fun i w => (P i w).mask.sh) (fun w => (C w).secret)
      wires (xs.zip ys) (fun p hp => ?_) (hout.add hprod)
    · refine h.congr ?_
      simp only [hs, Gate.value, dotProduct]
      ring
    · have hmem := List.of_mem_zip hp
      exact ⟨hin _ (by simp [Op.inputs, hmem.1]), hin _ (by simp [Op.inputs, hmem.2])⟩
  | _ => simp [multTypes, Gate.type, Op.type] at ht

end GateShare

end QSync
