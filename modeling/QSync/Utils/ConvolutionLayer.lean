import QSync.Utils.NeuralNetwork

/-! # What a convolution layer computes

The wires pushed for an output are those of the kernel positions that meet the image, so their dot
product is a sum over all kernel positions in which the others count zero (`windowSum`). With padding
it is the correlation with the image extended by zeros (`windowSum_padded`).
-/

namespace QSync
set_option autoImplicit false
set_option maxHeartbeats 250000
open Circuit MultiArray

/-- An image with zeros outside. -/
def zeroPadded {R : Type} [Zero R] (h w : ℕ) (image : ℕ → ℕ → R) (r s : ℤ) : R :=
  if 0 ≤ r ∧ r < h ∧ 0 ≤ s ∧ s < w then image r.toNat s.toNat else 0

/-- A loop that collects two wires for each element with a property. -/
theorem collect_pairs {m : Type → Type} [Monad m] [LawfulMonad m] {α : Type} (p : α → Prop)
    [DecidablePred p] (u v : α → ℕ) {turn : List ℕ × List ℕ → α → m (List ℕ × List ℕ)}
    (xs : List α) (hturn : ∀ x ∈ xs, ∀ acc, turn acc x =
      pure (if p x then (acc.1 ++ [u x], acc.2 ++ [v x]) else acc)) (acc : List ℕ × List ℕ) :
    xs.foldlM turn acc =
      pure (acc.1 ++ (xs.filter p).map u, acc.2 ++ (xs.filter p).map v) := by
  induction xs generalizing acc with
  | nil => simp
  | cons x xs ih =>
    rw [List.foldlM_cons, hturn x List.mem_cons_self, pure_bind,
      ih fun y hy => hturn y (List.mem_cons_of_mem _ hy)]
    by_cases hp : p x
    · simp [hp]
    · simp [hp]

namespace Convolution

section Window
variable {R : Type} (conv : Convolution)

/-- The kernel position meets the image. -/
def Inside (i j ki kj : ℕ) : Prop :=
  conv.padding = true →
    conv.inp_st_h ≤ i + ki ∧ conv.inp_st_w ≤ j + kj ∧
      i + ki < conv.inp_ed_h ∧ j + kj < conv.inp_ed_w

instance (i j ki kj : ℕ) : Decidable (conv.Inside i j ki kj) :=
  inferInstanceAs (Decidable (_ → _))

/-- The wires of a turn `k = [kd, ki, kj]`. -/
def weightAt (d : ℕ) (k : List ℕ) : ℕ :=
  conv.weights.getD [d, k.getD 1 0, k.getD 2 0, k.getD 0 0] 0

def inputAt (b i j : ℕ) (k : List ℕ) : ℕ :=
  conv.input.getD [b, i + k.getD 1 0 - conv.inp_st_h, j + k.getD 2 0 - conv.inp_st_w, k.getD 0 0] 0

/-- The turns that push. -/
def window (i j : ℕ) : List (List ℕ) :=
  (indices [conv.input.extent 3, conv.kernel_shape.1, conv.kernel_shape.2]).filter fun k =>
    conv.Inside i j (k.getD 1 0) (k.getD 2 0)

/-- The sum over the kernel positions that meet the image. -/
def windowSum [CommRing R] (v : ℕ → R) (b d i j : ℕ) : R :=
  ∑ kd ∈ Finset.range (conv.input.extent 3), ∑ ki ∈ Finset.range conv.kernel_shape.1,
    ∑ kj ∈ Finset.range conv.kernel_shape.2,
      if conv.Inside i j ki kj then
        v (conv.weights.getD [d, ki, kj, kd] 0) *
          v (conv.input.getD [b, i + ki - conv.inp_st_h, j + kj - conv.inp_st_w, kd] 0)
      else 0

theorem dotProduct_window [CircuitRing R] (v : ℕ → R) (b d i j : ℕ) :
    dotProduct ((conv.window i j).map (conv.weightAt d))
      ((conv.window i j).map (conv.inputAt b i j)) v = conv.windowSum v b d i j := by
  have hite := List.sum_map_ite (fun k : List ℕ => conv.Inside i j (k.getD 1 0) (k.getD 2 0))
    (fun k => v (conv.weightAt d k) * v (conv.inputAt b i j k)) (fun _ => 0)
    (indices [conv.input.extent 3, conv.kernel_shape.1, conv.kernel_shape.2])
  rw [List.map_const', List.sum_replicate, nsmul_zero, add_zero] at hite
  rw [dotProduct_map, window, ← hite]
  simp only [sum_indices_cons]
  refine Finset.sum_congr rfl fun kd _ => Finset.sum_congr rfl fun ki _ =>
    Finset.sum_congr rfl fun kj _ => ?_
  simp [indices, weightAt, inputAt]

end Window

/-- The extents of a layer's arrays. -/
structure Fits (conv : Convolution) (batch h w channels num_filters : ℕ) : Prop where
  input_shape : conv.input.shape = [batch, h, w, channels]
  weights_shape : conv.weights.shape =
    [num_filters, conv.kernel_shape.1, conv.kernel_shape.2, channels]
  bias_shape : conv.bias.shape = [outputExtent conv.padding h conv.kernel_shape.1,
    outputExtent conv.padding w conv.kernel_shape.2, num_filters]

/-- `[b][i][j][d]` is a position of the output. -/
structure Position (conv : Convolution) (batch h w num_filters b d i j : ℕ) : Prop where
  batch_lt : b < batch
  filter_lt : d < num_filters
  row_lt : i < outputExtent conv.padding h conv.kernel_shape.1
  col_lt : j < outputExtent conv.padding w conv.kernel_shape.2

namespace Fits
variable {R : Type} {conv : Convolution} {batch h w channels num_filters : ℕ}
  (hconv : conv.Fits batch h w channels num_filters) {b d i j : ℕ}
include hconv

theorem extents : conv.input.extent 0 = batch ∧ conv.input.extent 1 = h ∧
    conv.input.extent 2 = w ∧ conv.input.extent 3 = channels := by
  simp [extent, hconv.input_shape]

theorem within_weights {kd ki kj : ℕ} (hd : d < num_filters) (hkd : kd < channels)
    (hki : ki < conv.kernel_shape.1) (hkj : kj < conv.kernel_shape.2) :
    Within [d, ki, kj, kd] conv.weights.shape := by
  rw [hconv.weights_shape]
  exact ⟨hd, hki, hkj, hkd, trivial⟩

theorem within_bias (hpos : conv.Position batch h w num_filters b d i j) :
    Within [i, j, d] conv.bias.shape := by
  rw [hconv.bias_shape]
  exact ⟨hpos.row_lt, hpos.col_lt, hpos.filter_lt, trivial⟩

/-- A kernel position that meets the image reads within it. -/
theorem within_input {kd ki kj : ℕ} (hpos : conv.Position batch h w num_filters b d i j)
    (hkd : kd < channels) (hki : ki < conv.kernel_shape.1) (hkj : kj < conv.kernel_shape.2)
    (hin : conv.Inside i j ki kj) :
    Within [b, i + ki - conv.inp_st_h, j + kj - conv.inp_st_w, kd] conv.input.shape := by
  obtain ⟨-, hh, hw, -⟩ := hconv.extents
  obtain ⟨hb, -, hi, hj⟩ := hpos
  rw [hconv.input_shape]
  by_cases hpad : conv.padding = true
  · obtain ⟨hst_h, hst_w, hed_h, hed_w⟩ := hin hpad
    rw [inp_ed_h, if_pos hpad, hh] at hed_h
    rw [inp_ed_w, if_pos hpad, hw] at hed_w
    exact ⟨hb, by omega, by omega, hkd, trivial⟩
  · rw [outputExtent, if_neg hpad] at hi hj
    rw [inp_st_h, inp_st_w, if_neg hpad, if_neg hpad]
    exact ⟨hb, by omega, by omega, hkd, trivial⟩

theorem pushTerm_eq {k : List ℕ} (hpos : conv.Position batch h w num_filters b d i j)
    (hk : Within k [channels, conv.kernel_shape.1, conv.kernel_shape.2]) (acc : List ℕ × List ℕ) :
    (conv.pushTerm b d i j (k.getD 0 0) (k.getD 1 0) (k.getD 2 0) acc : Build R _) =
      pure (if conv.Inside i j (k.getD 1 0) (k.getD 2 0) then
        (acc.1 ++ [conv.weightAt d k], acc.2 ++ [conv.inputAt b i j k]) else acc) := by
  obtain ⟨kd, ki, kj, rfl, hkd, hki, hkj⟩ := within_three hk
  have hweight := element_eq (R := R) (hconv.within_weights hpos.filter_lt hkd hki hkj)
  have hinput := fun hin => element_eq (R := R) (hconv.within_input hpos hkd hki hkj hin)
  change conv.pushTerm b d i j kd ki kj acc = pure (if conv.Inside i j ki kj then
    (acc.1 ++ [conv.weights.getD [d, ki, kj, kd] 0], acc.2 ++
      [conv.input.getD [b, i + ki - conv.inp_st_h, j + kj - conv.inp_st_w, kd] 0]) else acc)
  rw [pushTerm]
  by_cases hpad : conv.padding = true
  · rw [if_pos hpad]
    by_cases hin : conv.inp_st_h ≤ i + ki ∧ conv.inp_st_w ≤ j + kj ∧
        i + ki < conv.inp_ed_h ∧ j + kj < conv.inp_ed_w
    · have hinside : conv.Inside i j ki kj := fun _ => hin
      rw [if_pos hinside]
      refine (if_pos hin).trans ?_
      rw [hweight, pure_bind, hinput hinside, pure_bind]
    · rw [if_neg fun hinside : conv.Inside i j ki kj => hin (hinside hpad)]
      exact if_neg hin
  · have hinside : conv.Inside i j ki kj := fun h => absurd h hpad
    have hst_h : conv.inp_st_h = 0 := if_neg hpad
    have hst_w : conv.inp_st_w = 0 := if_neg hpad
    have hin := hinput hinside
    rw [hst_h, hst_w, Nat.sub_zero, Nat.sub_zero] at hin
    rw [if_neg hpad, if_pos hinside, hweight, pure_bind, hin, pure_bind, hst_h, hst_w,
      Nat.sub_zero, Nat.sub_zero]

/-- The pushed wires are those of the window, in the order of the turns. -/
theorem dotInputs_eq (hpos : conv.Position batch h w num_filters b d i j) :
    (conv.dotInputs b d i j : Build R _) =
      pure ((conv.window i j).map (conv.weightAt d), (conv.window i j).map (conv.inputAt b i j)) := by
  have hloop : (conv.dotInputs b d i j : Build R _) =
      (indices [conv.input.extent 3, conv.kernel_shape.1, conv.kernel_shape.2]).foldlM
        (fun acc k => conv.pushTerm b d i j (k.getD 0 0) (k.getD 1 0) (k.getD 2 0) acc) ([], []) := by
    simp only [foldlM_indices_cons, foldlM_indices_nil]
    rfl
  rw [hloop]
  refine collect_pairs (fun k : List ℕ => conv.Inside i j (k.getD 1 0) (k.getD 2 0))
    (conv.weightAt d) (conv.inputAt b i j) _ (fun k hk acc => ?_) ([], [])
  have hk := mem_indices.mp hk
  rw [hconv.extents.2.2.2] at hk
  exact hconv.pushTerm_eq hpos hk acc

end Fits

/-! ## The layer's gates -/

section Gates
variable {R : Type} [CircuitRing R] {T : GateType → Prop} {c : Circuit R} {conv : Convolution}
  {batch h w channels num_filters : ℕ} {b d i j : ℕ}

/-- The wires the layer reads exist. -/
structure Wired (conv : Convolution) (c : Circuit R) : Prop where
  input_lt : ∀ wid ∈ conv.input.elems, wid < c.size
  weights_lt : ∀ wid ∈ conv.weights.elems, wid < c.size
  bias_lt : ∀ wid ∈ conv.bias.elems, wid < c.size

omit [CircuitRing R] in
theorem Wired.mono {c' : Circuit R} (h : conv.Wired c) (hc : c.size ≤ c'.size) : conv.Wired c' where
  input_lt wid hwid := (h.input_lt wid hwid).trans_le hc
  weights_lt wid hwid := (h.weights_lt wid hwid).trans_le hc
  bias_lt wid hwid := (h.bias_lt wid hwid).trans_le hc

omit [CircuitRing R] in
/-- The wires of a window are elements of the layer's arrays. -/
theorem Fits.window_lt (hconv : conv.Fits batch h w channels num_filters) (hwired : conv.Wired c)
    (hpos : conv.Position batch h w num_filters b d i j) :
    ∀ wid ∈ (conv.window i j).map (conv.weightAt d) ++ (conv.window i j).map (conv.inputAt b i j),
      wid < c.size := by
  have hwindow : ∀ k ∈ conv.window i j, ∃ kd ki kj, k = [kd, ki, kj] ∧ kd < channels ∧
      ki < conv.kernel_shape.1 ∧ kj < conv.kernel_shape.2 ∧ conv.Inside i j ki kj := by
    intro k hk
    obtain ⟨hk, hin⟩ := List.mem_filter.mp hk
    rw [mem_indices, hconv.extents.2.2.2] at hk
    obtain ⟨kd, ki, kj, rfl, hkd, hki, hkj⟩ := within_three hk
    exact ⟨kd, ki, kj, rfl, hkd, hki, hkj, of_decide_eq_true hin⟩
  intro wid hwid
  obtain hwid | hwid := List.mem_append.mp hwid
  · obtain ⟨k, hk, rfl⟩ := List.mem_map.mp hwid
    obtain ⟨kd, ki, kj, rfl, hkd, hki, hkj, -⟩ := hwindow k hk
    exact hwired.weights_lt _ (getD_mem_elems (hconv.within_weights hpos.filter_lt hkd hki hkj) 0)
  · obtain ⟨k, hk, rfl⟩ := List.mem_map.mp hwid
    obtain ⟨kd, ki, kj, rfl, hkd, hki, hkj, hin⟩ := hwindow k hk
    exact hwired.input_lt _ (getD_mem_elems (hconv.within_input hpos hkd hki hkj hin) 0)

/-- What `output[b][i][j][d]` holds, from the values of the wires that the layer reads. -/
def outputValue (conv : Convolution) (v : ℕ → R) (b d i j : ℕ) : R :=
  (CircuitRing.truncate.toOption.getD fun _ => 0) (conv.windowSum v b d i j) +
    v (conv.bias.getD [i, j, d] 0)

theorem outputAt_builds (hconv : conv.Fits batch h w channels num_filters) (hwired : conv.Wired c)
    (hT : T .kTrdotp ∧ T .kAdd) (hpos : conv.Position batch h w num_filters b d i j) :
    Builds T c (conv.outputAt b d i j) fun wid c' =>
      Has c' wid fun f => conv.outputValue (c.value f) b d i j := by
  have hbias := hconv.within_bias hpos
  rw [outputAt, hconv.dotInputs_eq hpos, pure_bind]
  refine (addTrdotp_builds (by simp) (hconv.window_lt hwired hpos) hT.1).bind
    fun wdotp c' hc hdot => ?_
  rw [element_eq hbias, pure_bind]
  have hwbias := (has_value (hwired.bias_lt _ (getD_mem_elems hbias 0))).mono hc
  refine (addAdd_builds hdot hwbias hT.2).weaken fun wid c'' _ hwid => hwid.congr fun f => ?_
  rw [dotProduct_window, outputValue]

omit [CircuitRing R] in
theorem Wired.of_elems (hin : ∀ wid ∈ conv.input.elems, wid < c.size)
    (hpar : ∀ wid ∈ conv.weights.elems ++ conv.bias.elems, wid < c.size) : conv.Wired c where
  input_lt := hin
  weights_lt wid hwid := hpar wid (List.mem_append_left _ hwid)
  bias_lt wid hwid := hpar wid (List.mem_append_right _ hwid)

/-- An output depends on existing wires only. -/
theorem outputValue_congr (hconv : conv.Fits batch h w channels num_filters) (hwired : conv.Wired c)
    {v v' : ℕ → R} (hv : ∀ wid < c.size, v wid = v' wid)
    (hpos : conv.Position batch h w num_filters b d i j) :
    conv.outputValue v b d i j = conv.outputValue v' b d i j := by
  rw [outputValue, outputValue, ← dotProduct_window, ← dotProduct_window,
    hv _ (hwired.bias_lt _ (getD_mem_elems (hconv.within_bias hpos) 0)),
    dotProduct_congr fun wid hwid => hv wid (hconv.window_lt hwired hpos wid hwid)]

theorem fillOutput_builds (hconv : conv.Fits batch h w channels num_filters) (hwired : conv.Wired c)
    (hT : T .kTrdotp ∧ T .kAdd) {out_h out_w : ℕ}
    (hout_h : out_h = outputExtent conv.padding h conv.kernel_shape.1)
    (hout_w : out_w = outputExtent conv.padding w conv.kernel_shape.2) :
    Builds T c (conv.fillOutput batch num_filters out_h out_w) fun output c' =>
      output.shape = [batch, out_h, out_w, num_filters] ∧
      ∀ b < batch, ∀ d < num_filters, ∀ i < out_h, ∀ j < out_w,
        Has c' (output.getD [b, i, j, d] 0) fun f => conv.outputValue (c.value f) b d i j := by
  have hloop : (conv.fillOutput batch num_filters out_h out_w : Build R wmat4_t) =
      (indices [batch, num_filters, out_h, out_w]).foldlM (fun output k => do
        let wid ← conv.outputAt (k.getD 0 0) (k.getD 1 0) (k.getD 2 0) (k.getD 3 0)
        setElement output [k.getD 0 0, k.getD 2 0, k.getD 3 0, k.getD 1 0] wid)
        (full [batch, out_h, out_w, num_filters] rfl 0) := by
    simp only [foldlM_indices_cons, foldlM_indices_nil]
    rfl
  rw [hloop]
  refine (setElements_builds (fun k : List ℕ => [k.getD 0 0, k.getD 2 0, k.getD 3 0, k.getD 1 0])
    (fun k f => conv.outputValue (c.value f) (k.getD 0 0) (k.getD 1 0) (k.getD 2 0) (k.getD 3 0))
    _ _ ?_ ?_ ?_).weaken fun output c' _ ⟨hshape, hval⟩ => ⟨hshape, fun b hb d hd i hi j hj => ?_⟩
  · intro k hk
    obtain ⟨b, d, i, j, rfl, hb, hd, hi, hj⟩ := within_four (mem_indices.mp hk)
    exact ⟨hb, hi, hj, hd, trivial⟩
  · intro k hk k' hk' heq
    obtain ⟨b, d, i, j, rfl, -⟩ := within_four (mem_indices.mp hk)
    obtain ⟨b', d', i', j', rfl, -⟩ := within_four (mem_indices.mp hk')
    simp only [List.getD_cons_zero, List.getD_cons_succ, List.cons.injEq, and_true] at heq
    obtain ⟨rfl, rfl, rfl, rfl⟩ := heq
    rfl
  · intro k hk c' hc
    obtain ⟨b, d, i, j, rfl, hb, hd, hi, hj⟩ := within_four (mem_indices.mp hk)
    rw [hout_h] at hi
    rw [hout_w] at hj
    have hpos : conv.Position batch h w num_filters b d i j := ⟨hb, hd, hi, hj⟩
    refine (outputAt_builds hconv (hwired.mono hc.size_le) hT hpos).weaken
      fun wid c'' _ hwid => hwid.congr fun f => ?_
    exact outputValue_congr hconv hwired (hc.value_eq f) hpos
  · exact hval [b, d, i, j] (mem_indices.mpr ⟨hb, hd, hi, hj, trivial⟩)

end Gates

/-! ## The window in coordinates of the image -/

section Coordinates
variable {R : Type} [CommRing R] {conv : Convolution} {batch h w channels num_filters : ℕ}

theorem windowSum_unpadded (hconv : conv.Fits batch h w channels num_filters)
    (hpad : conv.padding = false) (v : ℕ → R) (b d i j : ℕ) :
    conv.windowSum v b d i j = ∑ kd ∈ Finset.range channels,
      ∑ ki ∈ Finset.range conv.kernel_shape.1, ∑ kj ∈ Finset.range conv.kernel_shape.2,
        v (conv.weights.getD [d, ki, kj, kd] 0) * v (conv.input.getD [b, i + ki, j + kj, kd] 0) := by
  have hinside : ∀ ki kj, conv.Inside i j ki kj := fun ki kj h => by simp [hpad] at h
  have hst_h : conv.inp_st_h = 0 := if_neg (by simp [hpad])
  have hst_w : conv.inp_st_w = 0 := if_neg (by simp [hpad])
  simp only [windowSum, hconv.extents.2.2.2, hinside, if_true, hst_h, hst_w, Nat.sub_zero]

/-- Dropping a term is reading a zero outside the image. -/
theorem windowSum_padded (hconv : conv.Fits batch h w channels num_filters)
    (hpad : conv.padding = true) (v : ℕ → R) (b d i j : ℕ) :
    conv.windowSum v b d i j = ∑ kd ∈ Finset.range channels,
      ∑ ki ∈ Finset.range conv.kernel_shape.1, ∑ kj ∈ Finset.range conv.kernel_shape.2,
        v (conv.weights.getD [d, ki, kj, kd] 0) *
          zeroPadded h w (fun r s => v (conv.input.getD [b, r, s, kd] 0))
            (i + ki - (conv.kernel_shape.1 - 1) / 2) (j + kj - (conv.kernel_shape.2 - 1) / 2) := by
  obtain ⟨-, hh, hw, hchannels⟩ := hconv.extents
  have hst_h : conv.inp_st_h = (conv.kernel_shape.1 - 1) / 2 := if_pos hpad
  have hst_w : conv.inp_st_w = (conv.kernel_shape.2 - 1) / 2 := if_pos hpad
  have hed_h : conv.inp_ed_h = conv.inp_st_h + h := by rw [inp_ed_h, if_pos hpad, hh]
  have hed_w : conv.inp_ed_w = conv.inp_st_w + w := by rw [inp_ed_w, if_pos hpad, hw]
  rw [windowSum, hchannels]
  refine Finset.sum_congr rfl fun kd _ => Finset.sum_congr rfl fun ki hki =>
    Finset.sum_congr rfl fun kj hkj => ?_
  rw [Finset.mem_range] at hki hkj
  have hrow : (i : ℤ) + ki - (conv.kernel_shape.1 - 1) / 2 = i + ki - conv.inp_st_h := by omega
  have hcol : (j : ℤ) + kj - (conv.kernel_shape.2 - 1) / 2 = j + kj - conv.inp_st_w := by omega
  rw [hrow, hcol]
  by_cases hin : conv.Inside i j ki kj
  · obtain ⟨hi, hj, hih, hjw⟩ := hin hpad
    have hpixel : (0 : ℤ) ≤ i + ki - conv.inp_st_h ∧ (i : ℤ) + ki - conv.inp_st_h < h ∧
        (0 : ℤ) ≤ j + kj - conv.inp_st_w ∧ (j : ℤ) + kj - conv.inp_st_w < w := by omega
    have hr : ((i : ℤ) + ki - conv.inp_st_h).toNat = i + ki - conv.inp_st_h := by omega
    have hs : ((j : ℤ) + kj - conv.inp_st_w).toNat = j + kj - conv.inp_st_w := by omega
    rw [if_pos hin, zeroPadded, if_pos hpixel, hr, hs]
  · have hpixel : ¬((0 : ℤ) ≤ i + ki - conv.inp_st_h ∧ (i : ℤ) + ki - conv.inp_st_h < h ∧
        (0 : ℤ) ≤ j + kj - conv.inp_st_w ∧ (j : ℤ) + kj - conv.inp_st_w < w) := by
      intro hpixel
      apply hin
      intro _
      omega
    rw [if_neg hin, zeroPadded, if_neg hpixel, mul_zero]

end Coordinates

end Convolution

/-! ## The layer -/

theorem outputExtent_of_le {padding : Bool} {inp kernel : ℕ} (h : kernel ≤ inp) :
    outputExtent padding inp kernel = if padding then inp else inp - kernel + 1 := by
  rw [outputExtent]
  split
  · rfl
  · omega

namespace NeuralNetwork
variable {R : Type} [CircuitRing R] {T : GateType → Prop} {c : Circuit R} {input : wmat4_t}
  {batch h w channels : ℕ}

/-- The parameters are new input wires, and every output is the value of its window. -/
theorem convolution_builds (nn : NeuralNetwork) (hshape : input.shape = [batch, h, w, channels])
    (hin : ∀ wid ∈ input.elems, wid < c.size) (kernel_shape : ℕ × ℕ) (num_filters : ℕ)
    (padding : Bool) (hT : T .kInp ∧ T .kTrdotp ∧ T .kAdd) :
    Builds T c (nn.convolution input kernel_shape num_filters padding) fun r c' =>
      ∃ weights bias, r.2 = ⟨nn.conv_weights_ ++ [weights], nn.conv_bias_ ++ [bias]⟩ ∧
        Convolution.Fits ⟨input, kernel_shape, padding, weights, bias⟩ batch h w channels
          num_filters ∧
        r.1.shape = [batch, outputExtent padding h kernel_shape.1,
          outputExtent padding w kernel_shape.2, num_filters] ∧
        weights.elems ++ bias.elems =
          List.range' c.size (weights.elems.length + bias.elems.length) ∧
        (∀ wid ∈ weights.elems ++ bias.elems, Has c' wid fun f => f wid) ∧
        ∀ b < batch, ∀ d < num_filters, ∀ i < outputExtent padding h kernel_shape.1,
          ∀ j < outputExtent padding w kernel_shape.2, Has c' (r.1.getD [b, i, j, d] 0) fun f =>
            Convolution.outputValue ⟨input, kernel_shape, padding, weights, bias⟩ (c'.value f)
              b d i j := by
  have hextents : input.extent 0 = batch ∧ input.extent 1 = h ∧ input.extent 2 = w ∧
      input.extent 3 = channels := by simp [extent, hshape]
  obtain ⟨hbatch, hh, hw, hchannels⟩ := hextents
  rw [convolution, hbatch, hh, hw, hchannels]
  refine (newInput_builds _ rfl hT.1).bind
    fun weights c₁ hc₁ ⟨hwshape, hwelems, hwsize, hwval⟩ => ?_
  refine (newInput_builds _ rfl hT.1).bind fun bias c₂ hc₂ ⟨hbshape, hbelems, _, hbval⟩ => ?_
  have hconv : Convolution.Fits ⟨input, kernel_shape, padding, weights, bias⟩ batch h w channels
      num_filters := ⟨hshape, hwshape, hbshape⟩
  have hpar : ∀ wid ∈ weights.elems ++ bias.elems, Has c₂ wid fun f => f wid := by
    intro wid hwid
    obtain hwid | hwid := List.mem_append.mp hwid
    · exact (hwval wid hwid).mono hc₂
    · exact hbval wid hwid
  have hwired : Convolution.Wired ⟨input, kernel_shape, padding, weights, bias⟩ c₂ :=
    .of_elems (fun wid hwid => (hin wid hwid).trans_le (hc₁.trans hc₂).size_le)
      fun wid hwid => (hpar wid hwid).lt
  refine (Convolution.fillOutput_builds hconv hwired hT.2 rfl rfl).bind
    fun output c₃ hc₃ ⟨hoshape, hoval⟩ => .pure ⟨weights, bias, rfl, hconv, hoshape, ?_,
      fun wid hwid => (hpar wid hwid).mono hc₃, ?_⟩
  · rw [weights.length_eq, bias.length_eq, hwshape, hbshape, hwelems, hbelems, hwsize,
      List.range'_append_1]
  · intro b hb d hd i hi j hj
    exact (hoval b hb d hd i hi j hj).congr fun f =>
      (Convolution.outputValue_congr hconv hwired (hc₃.value_eq f) ⟨hb, hd, hi, hj⟩).symm

end NeuralNetwork

theorem truncate_word (x : U64) :
    ((CircuitRing.truncate : Except String (U64 → U64)).toOption.getD fun _ => 0) x =
      ((x.val >>> 16 : ℕ) : U64) := by
  change ((x.val % 2 ^ 64) >>> FRACTION : ℕ) = ((x.val >>> 16 : ℕ) : U64)
  rw [Nat.mod_eq_of_lt (field_val_lt x), FRACTION]

/-- Evaluating a convolution layer over 64-bit words, for any circuit before it. -/
theorem convolution_evaluates (c : Circuit U64) (nn : NeuralNetwork) (input : wmat4_t)
    {batch h w channels : ℕ} (hshape : input.shape = [batch, h, w, channels])
    (hin : ∀ wid ∈ input.elems, wid < c.size) {kh kw : ℕ} (hkh : kh ≤ h) (hkw : kw ≤ w)
    (num_filters : ℕ) (padding : Bool) :
    let out_h := if padding then h else h - kh + 1
    let out_w := if padding then w else w - kw + 1
    ∃ output weights bias c',
      nn.convolution input (kh, kw) num_filters padding c =
        .ok ((output, ⟨nn.conv_weights_ ++ [weights], nn.conv_bias_ ++ [bias]⟩), c') ∧
      output.shape = [batch, out_h, out_w, num_filters] ∧
      weights.shape = [num_filters, kh, kw, channels] ∧ bias.shape = [out_h, out_w, num_filters] ∧
      weights.elems ++ bias.elems =
        List.range' c.size (weights.elems.length + bias.elems.length) ∧
      ∀ f : ℕ → U64, ∃ ws, c'.evaluateWires (c'.assign f) = .ok ws ∧
        (∀ wid < c.size, ws wid = c.value f wid) ∧
        (∀ wid ∈ weights.elems ++ bias.elems, ws wid = f wid) ∧
        ∀ b < batch, ∀ i < out_h, ∀ j < out_w, ∀ d < num_filters,
          ws (output.getD [b, i, j, d] 0) = ws (bias.getD [i, j, d] 0) +
            ((∑ kd ∈ Finset.range channels, ∑ ki ∈ Finset.range kh, ∑ kj ∈ Finset.range kw,
              ws (weights.getD [d, ki, kj, kd] 0) *
                if padding then
                  zeroPadded h w (fun r s => ws (input.getD [b, r, s, kd] 0))
                    (i + ki - (kh - 1) / 2) (j + kj - (kw - 1) / 2)
                else ws (input.getD [b, i + ki, j + kj, kd] 0)).val >>> 16 : ℕ) := by
  intro out_h out_w
  have hout_h : outputExtent padding h kh = out_h := outputExtent_of_le hkh
  have hout_w : outputExtent padding w kw = out_w := outputExtent_of_le hkw
  obtain ⟨⟨output, nn'⟩, c', hrun, hext, weights, bias, rfl, hconv, hoshape, helems, hpar, hval⟩ :=
    nn.convolution_builds (T := fun _ => True) hshape hin (kh, kw) num_filters padding
      ⟨trivial, trivial, trivial⟩
  have hwshape := hconv.weights_shape
  have hbshape := hconv.bias_shape
  simp only [hout_h, hout_w] at hoshape hbshape hval
  refine ⟨output, weights, bias, c', hrun, hoshape, hwshape, hbshape, helems, fun f => ?_⟩
  obtain ⟨ws, hws, hvalue⟩ := c'.evaluateWires_field f
  have hwired : Convolution.Wired ⟨input, (kh, kw), padding, weights, bias⟩ c' :=
    .of_elems (fun wid hwid => (hin wid hwid).trans_le hext.size_le)
      fun wid hwid => (hpar wid hwid).lt
  refine ⟨ws, hws, fun wid hwid => ?_, fun wid hwid => ?_, fun b hb i hi j hj d hd => ?_⟩
  · rw [hvalue wid (hwid.trans_le hext.size_le), hext.value_eq f wid hwid]
  · rw [hvalue wid (hpar wid hwid).lt, (hpar wid hwid).value_eq f]
  · have hout := hval b hb d hd i hi j hj
    have hvals := Convolution.outputValue_congr hconv hwired hvalue
      ⟨hb, hd, hout_h ▸ hi, hout_w ▸ hj⟩
    rw [hvalue _ hout.lt, hout.value_eq f, ← hvals, Convolution.outputValue, truncate_word, add_comm]
    cases padding with
    | false => rw [Convolution.windowSum_unpadded hconv rfl]; rfl
    | true => rw [Convolution.windowSum_padded hconv rfl]; rfl

/-- The last output of a padded layer on an image of two by two: only one position of the kernel
meets the image. -/
theorem convolution_evaluates_two :
    ∃ input c, newInput [1, 2, 2, 1] rfl (Circuit.empty : Circuit U64) = .ok (input, c) ∧
      ∃ output weights bias c',
        NeuralNetwork.convolution ⟨[], []⟩ input (2, 2) 1 true c =
          .ok ((output, ⟨[weights], [bias]⟩), c') ∧
        ∀ f : ℕ → U64, ∃ ws, c'.evaluateWires (c'.assign f) = .ok ws ∧
          ws (output.getD [0, 1, 1, 0] 0) = f (bias.getD [1, 1, 0] 0) +
            ((f (weights.getD [0, 0, 0, 0] 0) * f (input.getD [0, 1, 1, 0] 0)).val >>> 16 : ℕ) := by
  obtain ⟨input, c, hinput, -, hshape, -, -, hval⟩ :=
    newInput_builds (c := (Circuit.empty : Circuit U64)) (T := fun _ => True) [1, 2, 2, 1] rfl trivial
  have hin : ∀ wid ∈ input.elems, wid < c.size := fun wid hwid => (hval wid hwid).lt
  obtain ⟨output, weights, bias, c', hrun, -, hwshape, hbshape, -, hlayer⟩ :=
    convolution_evaluates c ⟨[], []⟩ input hshape hin (le_refl 2) (le_refl 2) 1 true
  refine ⟨input, c, hinput, output, weights, bias, c', hrun, fun f => ?_⟩
  obtain ⟨ws, hws, hold, hpar, hout⟩ := hlayer f
  have hpixel : ws (input.getD [0, 1, 1, 0] 0) = f (input.getD [0, 1, 1, 0] 0) := by
    have hmem : input.getD [0, 1, 1, 0] 0 ∈ input.elems :=
      getD_mem_elems (by rw [hshape]; decide) 0
    rw [hold _ (hin _ hmem), (hval _ hmem).value_eq f]
  have hweight : ws (weights.getD [0, 0, 0, 0] 0) = f (weights.getD [0, 0, 0, 0] 0) :=
    hpar _ (List.mem_append_left _ (getD_mem_elems (by rw [hwshape]; decide) 0))
  have hbias : ws (bias.getD [1, 1, 0] 0) = f (bias.getD [1, 1, 0] 0) :=
    hpar _ (List.mem_append_right _ (getD_mem_elems (by rw [hbshape]; decide) 0))
  refine ⟨ws, hws, ?_⟩
  rw [hout 0 Nat.zero_lt_one 1 (by decide) 1 (by decide) 0 Nat.zero_lt_one]
  simp [zeroPadded, Finset.sum_range_succ, hpixel, hweight, hbias]

end QSync
