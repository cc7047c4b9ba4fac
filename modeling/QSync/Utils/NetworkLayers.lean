import QSync.Utils.ConvolutionLayer

/-! # The layers of a network

The other layers of `NeuralNetwork` (`utils/neural_network.h`): fully connected layers, ReLU, average
pooling and flattening. Each of them is one function on arrays of values, and what a builder makes of
wires that hold values holds the layer's values (`linear_builds`, `relu_builds`, `averagePool_builds`,
`flatten_has`, `convolution_has`).
-/

namespace QSync
set_option autoImplicit false
set_option maxHeartbeats 250000
open Circuit MultiArray

abbrev wmat2_t : Type := MultiArray ℕ 2

/-- A `NeuralNetwork` with its `linear_weights_`. -/
structure LayeredNetwork extends NeuralNetwork where
  linear_weights_ : List wmat2_t

section Model
variable {R : Type} {n : ℕ}

/-- `a.origin()[k]`. -/
def place (a : MultiArray ℕ n) (k : ℕ) : Build R ℕ :=
  match a.elems[k]? with
  | some w => pure w
  | none => throw "index out of range"

/-- The first `len` elements of `a[i]`. -/
def rowBegin (a : wmat2_t) (i len : ℕ) : Build R (List ℕ) :=
  (List.range len).mapM fun k => element a [i, k]

/-- The wire for `output[b][i]`. -/
def linearAt (weights : wmat2_t) (vinp : List ℕ) (bias_idx i : ℕ) : Build R ℕ := do
  let vwt ← rowBegin weights i bias_idx
  let wdotp ← addGateSIMD .kTrdotp vwt vinp
  let wbias ← element weights [i, bias_idx]
  addGate2 .kAdd wdotp wbias

def LayeredNetwork.linear (nn : LayeredNetwork) (input : wmat2_t) (out_dim : ℕ) :
    Build R (wmat2_t × LayeredNetwork) := do
  let bias_idx := input.extent 1
  let weights ← newInput [out_dim, bias_idx + 1] rfl
  let output ← (List.range (input.extent 0)).foldlM (fun output b => do
    let vinp ← rowBegin input b bias_idx
    (List.range out_dim).foldlM (fun output i => do
      let w ← linearAt weights vinp bias_idx i
      setElement output [b, i] w) output) (full [input.extent 0, out_dim] rfl 0)
  pure (output, { nn with linear_weights_ := nn.linear_weights_ ++ [weights] })

def relu (input : MultiArray ℕ n) : Build R (MultiArray ℕ n) :=
  (List.range input.shape.prod).foldlM (fun output k => do
    let inp ← place input k
    let w ← addGate1 .kRelu inp
    pure (output.assign k w)) (full input.shape input.rank_eq 0)

/-- `acc`: the sum of the wires of a pool, from its first one on. -/
def poolSum (input : wmat4_t) (pool_shape strides : ℕ × ℕ) (b d i j : ℕ) : Build R ℕ :=
  (List.range pool_shape.1).foldlM (fun acc pi =>
    (List.range pool_shape.2).foldlM (fun acc pj => do
      let winp ← element input [b, i * strides.1 + pi, j * strides.2 + pj, d]
      if pi = 0 ∧ pj = 0 then pure winp else addGate2 .kAdd acc winp) acc) 0

/-- The extent of the output in a dimension of the image; a pool is at most as long as the image, or the
unsigned difference wraps. -/
def pooledExtent (inp pool stride : ℕ) : ℕ := (inp - pool) / stride + 1

/-- `rdiv`: `2 ^ FRACTION` over the size of a pool. The source divides `double`s and then cuts off: a
quotient that is no integer is further from one than rounding reaches. -/
def poolFactor (R : Type) [NatCast R] (pool_shape : ℕ × ℕ) : R :=
  (2 ^ FRACTION / (pool_shape.1 * pool_shape.2) : ℕ)

def averagePool [NatCast R] (input : wmat4_t) (pool_shape strides : ℕ × ℕ) : Build R wmat4_t :=
  let out_h := pooledExtent (input.extent 1) pool_shape.1 strides.1
  let out_w := pooledExtent (input.extent 2) pool_shape.2 strides.2
  (List.range (input.extent 0)).foldlM (fun output b =>
    (List.range (input.extent 3)).foldlM (fun output d =>
      (List.range out_h).foldlM (fun output i =>
        (List.range out_w).foldlM (fun output j => do
          let acc ← poolSum input pool_shape strides b d i j
          let w ← addConstOpGate .kConstMul acc (poolFactor R pool_shape)
          setElement output [b, i, j, d] w) output) output) output)
    (full [input.extent 0, out_h, out_w, input.extent 3] rfl 0)

def flatten (input : MultiArray ℕ n) : wmat2_t :=
  (List.range input.shape.prod).foldl (fun output k => output.assign k (input.elems.getD k 0))
    (full [input.extent 0, input.shape.tail.prod] rfl 0)

def setOutput (input : MultiArray ℕ n) : Build R Unit :=
  (List.range input.shape.prod).forM fun k => do
    let w ← place input k
    setAsOutput w

end Model

/-! ## Layers on values -/

/-- An array of values, by index. -/
abbrev Tensor (R : Type) : Type := List ℕ → R

/-- The values that an assignment gives to the wires of an array. -/
def held {R : Type} {n : ℕ} (f : ℕ → R) (mat : MultiArray ℕ n) : Tensor R := fun idx =>
  f (mat.getD idx 0)

section Layers
variable {R : Type} [CircuitRing R]

/-- What a `kTrdotp` gate makes of a dot product. -/
def rescale (x : R) : R := (CircuitRing.truncate.toOption.getD fun _ => 0) x

/-- What a `kRelu` gate makes of its input. -/
def rectify (x : R) : R := (CircuitRing.relu.toOption.getD fun _ => 0) x

/-- A fully connected layer with `a` inputs; the bias is the last column of the weights. -/
def dense (a : ℕ) (weights x : Tensor R) : Tensor R := fun idx =>
  rescale (∑ t ∈ Finset.range a, weights [idx.getD 1 0, t] * x [idx.getD 0 0, t]) +
    weights [idx.getD 1 0, a]

/-- A convolution without padding. -/
def convolve (channels kh kw : ℕ) (weights bias x : Tensor R) : Tensor R := fun idx =>
  let b := idx.getD 0 0
  let i := idx.getD 1 0
  let j := idx.getD 2 0
  let d := idx.getD 3 0
  rescale (∑ kd ∈ Finset.range channels, ∑ ki ∈ Finset.range kh, ∑ kj ∈ Finset.range kw,
    weights [d, ki, kj, kd] * x [b, i + ki, j + kj, kd]) + bias [i, j, d]

/-- The sum over a pool, times `2 ^ FRACTION` over its size: the average, scaled once more. -/
def pool (pool_shape strides : ℕ × ℕ) (x : Tensor R) : Tensor R := fun idx =>
  (∑ pi ∈ Finset.range pool_shape.1, ∑ pj ∈ Finset.range pool_shape.2,
    x [idx.getD 0 0, idx.getD 1 0 * strides.1 + pi, idx.getD 2 0 * strides.2 + pj, idx.getD 3 0]) *
      poolFactor R pool_shape

/-- The values of an array of shape `_ :: shape`, one row for each position in the first dimension. -/
def flat (shape : List ℕ) (x : Tensor R) : Tensor R := fun idx =>
  x (idx.getD 0 0 :: indexAt shape (idx.getD 1 0))

end Layers

/-! ## Arrays of wires -/

section Wires
variable {R : Type} [CircuitRing R] {T : GateType → Prop} {c c' : Circuit R} {n : ℕ}
  {mat : MultiArray ℕ n} {X : (ℕ → R) → Tensor R}

/-- The wires of an array hold the values `X`. -/
def HasTensor (c : Circuit R) (mat : MultiArray ℕ n) (X : (ℕ → R) → Tensor R) : Prop :=
  ∀ idx, Within idx mat.shape → Has c (mat.getD idx 0) fun f => X f idx

theorem HasTensor.mono (h : HasTensor c mat X) (hc : Extends T c c') : HasTensor c' mat X :=
  fun idx hidx => (h idx hidx).mono hc

theorem HasTensor.at (h : HasTensor c mat X) {k : ℕ} (hk : k < mat.shape.prod) :
    Has c (mat.elems.getD k 0) fun f => X f (indexAt mat.shape k) := by
  rw [← getD_indexAt hk 0]
  exact h _ (within_indexAt hk)

theorem HasTensor.lt (h : HasTensor c mat X) : ∀ wid ∈ mat.elems, wid < c.size := by
  intro wid hwid
  obtain ⟨k, hk, rfl⟩ := List.mem_iff_getElem.mp hwid
  have hlt := (h.at (mat.length_eq ▸ hk)).lt
  rwa [List.getD_eq_getElem?_getD, List.getElem?_eq_getElem hk] at hlt

theorem HasTensor.of_places (h : ∀ k < mat.shape.prod, Has c (mat.elems.getD k 0) fun f =>
    X f (indexAt mat.shape k)) : HasTensor c mat X := by
  intro idx hidx
  have hk := h _ (offset_lt hidx)
  rw [indexAt_offset hidx, ← getD_offset hidx] at hk
  exact hk

omit [CircuitRing R] in
theorem place_eq {k : ℕ} (hk : k < mat.shape.prod) :
    (place mat k : Build R ℕ) = pure (mat.elems.getD k 0) := by
  have hlt : k < mat.elems.length := mat.length_eq ▸ hk
  rw [place, List.getD_eq_getElem?_getD, List.getElem?_eq_getElem hlt]
  rfl

theorem newInput_has (shape : List ℕ) (h : shape.length = n) (ht : T .kInp) :
    Builds T c (newInput shape h) fun mat c' => mat.shape = shape ∧
      mat.elems = List.range' c.size shape.prod ∧ c'.size = c.size + shape.prod ∧
      HasTensor c' mat fun f => held f mat := by
  refine (newInput_builds shape h ht).weaken fun mat c' _ hmat => ?_
  obtain ⟨hshape, helems, hsize, hval⟩ := hmat
  exact ⟨hshape, helems, hsize, fun idx hidx => hval _ (getD_mem_elems hidx 0)⟩

/-- A loop over the places of an array. -/
theorem assignPlaces_builds {wire : ℕ → Build R ℕ} (val : ℕ → (ℕ → R) → R) (shape : List ℕ)
    (h : shape.length = n) (hwire : ∀ k < shape.prod, ∀ c', Extends T c c' →
      Builds T c' (wire k) fun w c'' => Has c'' w (val k)) :
    Builds T c ((List.range shape.prod).foldlM (fun (mat : MultiArray ℕ n) k => do
      let w ← wire k
      pure (mat.assign k w)) (full shape h 0)) fun mat c' =>
        mat.shape = shape ∧ ∀ k < shape.prod, Has c' (mat.elems.getD k 0) (val k) := by
  have hloop := Builds.foldlM_split (c := c) (T := T)
    (f := fun (mat : MultiArray ℕ n) k => do
      let w ← wire k
      pure (mat.assign k w))
    (fun done mat c' => mat.shape = shape ∧ ∀ k ∈ done, Has c' (mat.elems.getD k 0) (val k))
    (List.range shape.prod) (b := full shape h 0) ⟨rfl, by simp⟩ ?_
  · exact hloop.weaken fun mat c' _ hmat => ⟨hmat.1, fun k hk => hmat.2 k (List.mem_range.mpr hk)⟩
  · rintro done k rest mat c' hk hc ⟨hshape, hval⟩
    have hlt : k < shape.prod := List.mem_range.mp (hk ▸ by simp)
    refine (hwire k hlt c' hc).bind fun w c'' hc' hw => .pure ⟨hshape, fun k' hk' => ?_⟩
    change Has c'' ((mat.elems.set k w).getD k' 0) (val k')
    rw [List.getD_eq_getElem?_getD, List.getElem?_set]
    by_cases hkk : k = k'
    · subst hkk
      have hlen : k < mat.elems.length := by rwa [mat.length_eq, hshape]
      rw [if_pos rfl, if_pos hlen]
      exact hw
    · have hdone : k' ∈ done := by simpa [Ne.symm hkk] using hk'
      rw [if_neg hkk, ← List.getD_eq_getElem?_getD]
      exact (hval k' hdone).mono hc'

/-! ## ReLU and flattening -/

theorem addRelu_builds {a : ℕ} {va : (ℕ → R) → R} (ha : Has c a va) (ht : T .kRelu) :
    Builds T c (addGate1 .kRelu a) fun w c' => Has c' w fun f => rectify (va f) :=
  addOp_builds (valid_of (by simpa [Op.inputs] using ha.lt) (by simp [Op.type])) ht fun c' hc f => by
    rw [← (ha.mono hc).value_eq f]
    rfl

theorem relu_builds (hX : HasTensor c mat X) (ht : T .kRelu) :
    Builds T c (relu mat) fun output c' => output.shape = mat.shape ∧
      HasTensor c' output fun f => rectify ∘ X f := by
  have hloop : (relu mat : Build R (MultiArray ℕ n)) =
      (List.range mat.shape.prod).foldlM (fun output k => do
        let w ← place mat k >>= addGate1 .kRelu
        pure (output.assign k w)) (full mat.shape mat.rank_eq 0) := by
    simp only [relu, bind_assoc]
  rw [hloop]
  have hwire : ∀ k < mat.shape.prod, ∀ c', Extends T c c' →
      Builds T c' (place mat k >>= addGate1 .kRelu) fun w c'' =>
        Has c'' w fun f => rectify (X f (indexAt mat.shape k)) := by
    intro k hk c' hc
    rw [place_eq hk, pure_bind]
    exact addRelu_builds ((hX.at hk).mono hc) ht
  refine (assignPlaces_builds _ mat.shape mat.rank_eq hwire).weaken fun output c' _ houtput => ?_
  obtain ⟨hshape, hval⟩ := houtput
  refine ⟨hshape, .of_places fun k hk => ?_⟩
  rw [hshape] at hk ⊢
  exact hval k hk

theorem flatten_elems (a : MultiArray ℕ n) (hpos : a.shape ≠ []) :
    (flatten a).shape = [a.extent 0, a.shape.tail.prod] ∧ (flatten a).elems = a.elems := by
  have hprod : [a.extent 0, a.shape.tail.prod].prod = a.shape.prod := by
    obtain ⟨s, shape, hs⟩ := List.exists_cons_of_ne_nil hpos
    simp [extent, hs]
  have hloop : ∀ m ≤ a.shape.prod,
      let out := (List.range m).foldl (fun (output : wmat2_t) k =>
        output.assign k (a.elems.getD k 0)) (full [a.extent 0, a.shape.tail.prod] rfl 0)
      out.shape = [a.extent 0, a.shape.tail.prod] ∧
        out.elems = a.elems.take m ++ List.replicate (a.shape.prod - m) 0 := by
    intro m hm
    induction m with
    | zero => exact ⟨rfl, by simp [full, ← hprod]⟩
    | succ m ih =>
      obtain ⟨hshape, helems⟩ := ih (Nat.le_of_succ_le hm)
      have hlen : m < a.elems.length := a.length_eq ▸ hm
      rw [List.range_succ, List.foldl_append]
      refine ⟨hshape, ?_⟩
      have hrest : List.replicate (a.shape.prod - m) 0 =
          0 :: List.replicate (a.shape.prod - (m + 1)) 0 := by
        rw [← List.replicate_succ]
        congr 1
        omega
      rw [hrest] at helems
      have hnext := assign_append helems (a.elems.getD m 0)
      rw [List.length_take, Nat.min_eq_left hlen.le] at hnext
      refine hnext.trans ?_
      rw [List.take_add_one, List.getElem?_eq_getElem hlen, List.getD_eq_getElem?_getD,
        List.getElem?_eq_getElem hlen, List.append_assoc]
      rfl
  obtain ⟨hshape, helems⟩ := hloop _ le_rfl
  refine ⟨hshape, helems.trans ?_⟩
  rw [Nat.sub_self, List.replicate_zero, List.append_nil, ← a.length_eq, List.take_length]

theorem flatten_has {s : ℕ} {shape : List ℕ} (hX : HasTensor c mat X) (hshape : mat.shape = s :: shape) :
    (flatten mat).shape = [s, shape.prod] ∧ HasTensor c (flatten mat) fun f => flat shape (X f) := by
  obtain ⟨hout, helems⟩ := flatten_elems mat (by simp [hshape])
  have hsame : (flatten mat).shape = [s, shape.prod] := by simp [hout, extent, hshape]
  refine ⟨hsame, .of_places fun k hk => ?_⟩
  rw [hsame] at hk ⊢
  have hk' : k < mat.shape.prod := by simpa [hshape] using hk
  rw [helems]
  refine (hX.at hk').congr fun f => ?_
  simp [flat, indexAt, hshape]

omit [CircuitRing R] in
theorem forM_congr_mem {α : Type} {f g : α → Build R Unit} {xs : List α} (h : ∀ x ∈ xs, f x = g x) :
    xs.forM f = xs.forM g := by
  induction xs with
  | nil => rfl
  | cons x xs ih =>
    change (f x >>= fun _ => xs.forM f) = (g x >>= fun _ => xs.forM g)
    rw [h x List.mem_cons_self, ih fun y hy => h y (List.mem_cons_of_mem x hy)]

theorem setOutput_makes (hX : HasTensor c mat X) : Makes T c (setOutput mat) fun _ outs c' =>
    List.Forall₂ (Has c') outs ((List.range mat.shape.prod).map fun k f => X f (indexAt mat.shape k)) := by
  have hloop : (setOutput mat : Build R Unit) = (List.range mat.shape.prod).forM fun k =>
      setAsOutput (mat.elems.getD k 0) := by
    refine forM_congr_mem fun k hk => ?_
    rw [place_eq (List.mem_range.mp hk), pure_bind]
  rw [hloop]
  refine (setOutputs_makes (fun k => mat.elems.getD k 0) (fun k f => X f (indexAt mat.shape k)) _
    fun k hk => hX.at (List.mem_range.mp hk)).weaken fun _ outs c' hc houts => ?_
  rw [houts, List.forall₂_map_left_iff, List.forall₂_map_right_iff, List.forall₂_same]
  exact fun k hk => (hX.at (List.mem_range.mp hk)).appends hc

/-! ## Fully connected layers -/

theorem foldlM_congr_mem {m : Type → Type} [Monad m] {α β : Type} {f g : β → α → m β} {xs : List α}
    (h : ∀ b, ∀ x ∈ xs, f b x = g b x) (b : β) : xs.foldlM f b = xs.foldlM g b := by
  induction xs generalizing b with
  | nil => rfl
  | cons x xs ih =>
    rw [List.foldlM_cons, List.foldlM_cons, h b x List.mem_cons_self]
    exact bind_congr fun b => ih (fun b y hy => h b y (List.mem_cons_of_mem x hy)) b

theorem mapM_pure_mem {m : Type → Type} [Monad m] [LawfulMonad m] {α β : Type} {f : α → m β} {g : α → β}
    {xs : List α} (h : ∀ x ∈ xs, f x = pure (g x)) : xs.mapM f = pure (xs.map g) := by
  induction xs with
  | nil => rfl
  | cons x xs ih =>
    rw [List.mapM_cons, h x List.mem_cons_self, pure_bind,
      ih fun y hy => h y (List.mem_cons_of_mem x hy), pure_bind, List.map_cons]

theorem sum_map_range {M : Type} [AddCommMonoid M] (g : ℕ → M) (n : ℕ) :
    ((List.range n).map g).sum = ∑ t ∈ Finset.range n, g t := rfl

/-- The first wires of a row. -/
def rowWires (a : wmat2_t) (i len : ℕ) : List ℕ := (List.range len).map fun k => a.getD [i, k] 0

omit [CircuitRing R] in
theorem rowBegin_eq {a : wmat2_t} {s t i len : ℕ} (hshape : a.shape = [s, t]) (hi : i < s)
    (hlen : len ≤ t) : (rowBegin a i len : Build R (List ℕ)) = pure (rowWires a i len) := by
  refine mapM_pure_mem fun k hk => element_eq ?_
  rw [hshape]
  exact ⟨hi, (List.mem_range.mp hk).trans_le hlen, trivial⟩

theorem linearAt_builds {input weights : wmat2_t} {batch a out_dim b i : ℕ}
    (hin : input.shape = [batch, a]) (hw : weights.shape = [out_dim, a + 1])
    (hX : HasTensor c input X) (hW : HasTensor c weights fun f => held f weights)
    (hb : b < batch) (hi : i < out_dim) (hT : T .kTrdotp ∧ T .kAdd) :
    Builds T c (linearAt weights (rowWires input b a) a i) fun w c' => Has c' w fun f =>
      dense a (held f weights) (X f) [b, i] := by
  have hwt : ∀ k ≤ a, Has c (weights.getD [i, k] 0) fun f => f (weights.getD [i, k] 0) := fun k hk =>
    hW [i, k] (by rw [hw]; exact ⟨hi, Nat.lt_succ_of_le hk, trivial⟩)
  have hinp : ∀ k < a, Has c (input.getD [b, k] 0) fun f => X f [b, k] := fun k hk =>
    hX [b, k] (by rw [hin]; exact ⟨hb, hk, trivial⟩)
  rw [linearAt, rowBegin_eq hw hi (Nat.le_succ a), pure_bind]
  refine (addTrdotp_builds (by simp [rowWires]) (fun w hwires => ?_) hT.1).bind fun wdotp c' hc hdot => ?_
  · obtain h | h := List.mem_append.mp hwires
    · obtain ⟨k, hk, rfl⟩ := List.mem_map.mp h
      exact (hwt k (List.mem_range.mp hk).le).lt
    · obtain ⟨k, hk, rfl⟩ := List.mem_map.mp h
      exact (hinp k (List.mem_range.mp hk)).lt
  · have hbias : Within [i, a] weights.shape := by
      rw [hw]
      exact ⟨hi, Nat.lt_succ_self a, trivial⟩
    rw [element_eq hbias, pure_bind]
    refine (addAdd_builds hdot ((hwt a le_rfl).mono hc) hT.2).weaken fun w c'' _ hw' => hw'.congr fun f => ?_
    rw [rowWires, rowWires, dotProduct_map, sum_map_range]
    refine congrArg (rescale · + _) (Finset.sum_congr rfl fun t ht => ?_)
    have hlt := Finset.mem_range.mp ht
    rw [(hwt t hlt.le).value_eq f, (hinp t hlt).value_eq f]
    rfl

theorem linearRows_builds {input weights : wmat2_t} {batch a out_dim : ℕ}
    (hin : input.shape = [batch, a]) (hw : weights.shape = [out_dim, a + 1])
    (hX : HasTensor c input X) (hW : HasTensor c weights fun f => held f weights)
    (hT : T .kTrdotp ∧ T .kAdd) :
    Builds T c ((List.range batch).foldlM (fun output b => do
      let vinp ← rowBegin input b a
      (List.range out_dim).foldlM (fun output i => do
        let w ← linearAt weights vinp a i
        setElement output [b, i] w) output) (full (n := 2) [batch, out_dim] rfl 0)) fun output c' =>
      output.shape = [batch, out_dim] ∧
      HasTensor c' output fun f => dense a (held f weights) (X f) := by
  have hloop : ((List.range batch).foldlM (fun output b => do
      let vinp ← rowBegin input b a
      (List.range out_dim).foldlM (fun output i => do
        let w ← linearAt weights vinp a i
        setElement output [b, i] w) output) (full (n := 2) [batch, out_dim] rfl 0) : Build R wmat2_t) =
      (indices [batch, out_dim]).foldlM (fun output k => do
        let w ← linearAt weights (rowWires input (k.getD 0 0) a) a (k.getD 1 0)
        setElement output [k.getD 0 0, k.getD 1 0] w) (full (n := 2) [batch, out_dim] rfl 0) := by
    rw [foldlM_indices_cons]
    refine foldlM_congr_mem (fun output b hb => ?_) _
    rw [rowBegin_eq hin (List.mem_range.mp hb) le_rfl, pure_bind]
    simp only [foldlM_indices_cons, foldlM_indices_nil]
    rfl
  rw [hloop]
  refine (setElements_builds (fun k : List ℕ => [k.getD 0 0, k.getD 1 0]) (fun k f =>
    dense a (held f weights) (X f) [k.getD 0 0, k.getD 1 0]) _ _ ?_ ?_ ?_).weaken
    fun output c₂ hc₂ houtput => ⟨houtput.1, ?_⟩
  · intro k hk
    obtain ⟨b, i, rfl, hb, hi⟩ := within_two (mem_indices.mp hk)
    exact ⟨hb, hi, trivial⟩
  · intro k hk k' hk' heq
    obtain ⟨b, i, rfl, -⟩ := within_two (mem_indices.mp hk)
    obtain ⟨b', i', rfl, -⟩ := within_two (mem_indices.mp hk')
    exact heq
  · intro k hk c' hc
    obtain ⟨b, i, rfl, hb, hi⟩ := within_two (mem_indices.mp hk)
    exact linearAt_builds hin hw (hX.mono hc) (hW.mono hc) hb hi hT
  · intro idx hidx
    rw [houtput.1] at hidx
    have h := houtput.2 idx (mem_indices.mpr hidx)
    obtain ⟨b, i, rfl, -⟩ := within_two hidx
    exact h

/-- The weights are new input wires, and the output is the layer on the values of the input. -/
theorem linear_builds (nn : LayeredNetwork) {input : wmat2_t} {batch a : ℕ}
    (hin : input.shape = [batch, a]) (hX : HasTensor c input X) (out_dim : ℕ)
    (hT : T .kInp ∧ T .kTrdotp ∧ T .kAdd) :
    Builds T c (nn.linear input out_dim) fun r c' => ∃ weights : wmat2_t,
      r.2 = ⟨nn.toNeuralNetwork, nn.linear_weights_ ++ [weights]⟩ ∧
      weights.shape = [out_dim, a + 1] ∧
      weights.elems = List.range' c.size (out_dim * (a + 1)) ∧ c.size + out_dim * (a + 1) ≤ c'.size ∧
      r.1.shape = [batch, out_dim] ∧
      HasTensor c' r.1 fun f => dense a (held f weights) (X f) := by
  have hextents : input.extent 0 = batch ∧ input.extent 1 = a := by simp [extent, hin]
  rw [LayeredNetwork.linear, hextents.1, hextents.2]
  refine (newInput_has (n := 2) _ rfl hT.1).bind fun weights c₁ hc₁ hweights => ?_
  obtain ⟨hw, helems, hsize, hW⟩ := hweights
  have hprod : [out_dim, a + 1].prod = out_dim * (a + 1) := by simp
  rw [hprod] at helems hsize
  refine (linearRows_builds hin hw (hX.mono hc₁) hW hT.2).bind fun output c₂ hc₂ houtput => ?_
  exact .pure ⟨weights, rfl, hw, helems, hsize ▸ hc₂.size_le, houtput.1, houtput.2⟩

/-! ## Pooling -/

/-- A loop that adds wires to an accumulator. -/
theorem sumWires_builds {α : Type} {wire : α → ℕ} {val : α → (ℕ → R) → R} (ht : T .kAdd) (xs : List α)
    (hwire : ∀ x ∈ xs, Has c (wire x) (val x)) {acc : ℕ} {v : (ℕ → R) → R} (hacc : Has c acc v) :
    Builds T c (xs.foldlM (fun acc x => addGate2 .kAdd acc (wire x)) acc) fun w c' =>
      Has c' w fun f => v f + (xs.map fun x => val x f).sum := by
  induction xs generalizing c acc v with
  | nil => exact .pure (hacc.congr fun f => by simp)
  | cons x xs ih =>
    rw [List.foldlM_cons]
    refine (addAdd_builds hacc (hwire x List.mem_cons_self) ht).bind fun acc' c' hc hacc' => ?_
    refine (ih (fun y hy => (hwire y (List.mem_cons_of_mem x hy)).mono hc) hacc').weaken
      fun w c'' _ hw => hw.congr fun f => ?_
    rw [List.map_cons, List.sum_cons, add_assoc]

/-- A position of a pool lies in the image. -/
theorem pooled_lt {inp p s i k : ℕ} (hp : p ≤ inp) (hs : 0 < s) (hi : i < pooledExtent inp p s)
    (hk : k < p) : i * s + k < inp := by
  have hmul : i * s ≤ inp - p := (Nat.le_div_iff_mul_le hs).mp (Nat.lt_succ_iff.mp hi)
  omega

/-- The wire of a turn `k = [pi, pj]`. -/
def pixelAt (input : wmat4_t) (strides : ℕ × ℕ) (b d i j : ℕ) (k : List ℕ) : ℕ :=
  input.getD [b, i * strides.1 + k.getD 0 0, j * strides.2 + k.getD 1 0, d] 0

omit [CircuitRing R] in
theorem poolSum_eq {input : wmat4_t} {batch h w channels b d i j : ℕ}
    (hin : input.shape = [batch, h, w, channels]) {ph pw sh sw : ℕ} (hph : ph ≤ h) (hpw : pw ≤ w)
    (hs : 0 < sh ∧ 0 < sw) (hb : b < batch) (hd : d < channels) (hi : i < pooledExtent h ph sh)
    (hj : j < pooledExtent w pw sw) :
    (∀ k ∈ indices [ph, pw], Within [b, i * sh + k.getD 0 0, j * sw + k.getD 1 0, d] input.shape) ∧
    (poolSum input (ph, pw) (sh, sw) b d i j : Build R ℕ) = (indices [ph, pw]).foldlM (fun acc k =>
      if k = [0, 0] then pure (pixelAt input (sh, sw) b d i j k)
      else addGate2 .kAdd acc (pixelAt input (sh, sw) b d i j k)) 0 := by
  have hwithin : ∀ k ∈ indices [ph, pw],
      Within [b, i * sh + k.getD 0 0, j * sw + k.getD 1 0, d] input.shape := by
    intro k hk
    obtain ⟨pi, pj, rfl, hpi, hpj⟩ := within_two (mem_indices.mp hk)
    rw [hin]
    exact ⟨hb, pooled_lt hph hs.1 hi hpi, pooled_lt hpw hs.2 hj hpj, hd, trivial⟩
  refine ⟨hwithin, ?_⟩
  have hloop : (poolSum input (ph, pw) (sh, sw) b d i j : Build R ℕ) =
      (indices [ph, pw]).foldlM (fun acc k => do
        let winp ← element input [b, i * sh + k.getD 0 0, j * sw + k.getD 1 0, d]
        if k.getD 0 0 = 0 ∧ k.getD 1 0 = 0 then pure winp else addGate2 .kAdd acc winp) 0 := by
    simp only [foldlM_indices_cons, foldlM_indices_nil]
    rfl
  rw [hloop]
  refine foldlM_congr_mem (fun acc k hk => ?_) 0
  rw [element_eq (hwithin k hk), pure_bind]
  obtain ⟨pi, pj, rfl, -, -⟩ := within_two (mem_indices.mp hk)
  simp [pixelAt]

theorem poolSum_builds {input : wmat4_t} {batch h w channels b d i j : ℕ}
    (hin : input.shape = [batch, h, w, channels]) (hX : HasTensor c input X) {ph pw sh sw : ℕ}
    (hph : 0 < ph ∧ ph ≤ h) (hpw : 0 < pw ∧ pw ≤ w) (hs : 0 < sh ∧ 0 < sw) (hb : b < batch)
    (hd : d < channels) (hi : i < pooledExtent h ph sh) (hj : j < pooledExtent w pw sw) (ht : T .kAdd) :
    Builds T c (poolSum input (ph, pw) (sh, sw) b d i j) fun w c' => Has c' w fun f =>
      ∑ pi ∈ Finset.range ph, ∑ pj ∈ Finset.range pw, X f [b, i * sh + pi, j * sw + pj, d] := by
  obtain ⟨hwithin, hloop⟩ := poolSum_eq (R := R) hin hph.2 hpw.2 hs hb hd hi hj
  have hpixel : ∀ k ∈ indices [ph, pw], Has c (pixelAt input (sh, sw) b d i j k) fun f =>
      X f [b, i * sh + k.getD 0 0, j * sw + k.getD 1 0, d] := fun k hk => hX _ (hwithin k hk)
  obtain ⟨rest, hrest, hnot⟩ := indices_head hph.1 hpw.1
  have hadds : ∀ acc, (rest.foldlM (fun acc k =>
      if k = [0, 0] then pure (pixelAt input (sh, sw) b d i j k)
      else addGate2 .kAdd acc (pixelAt input (sh, sw) b d i j k)) acc : Build R ℕ) =
      rest.foldlM (fun acc k => addGate2 .kAdd acc (pixelAt input (sh, sw) b d i j k)) acc := by
    apply foldlM_congr_mem
    intro acc k hk
    exact if_neg fun h0 : k = [0, 0] => hnot (h0 ▸ hk)
  rw [hloop, hrest, List.foldlM_cons, if_pos rfl, pure_bind, hadds]
  rw [hrest] at hpixel
  refine (sumWires_builds ht rest (fun k hk => hpixel k (List.mem_cons_of_mem _ hk))
    (hpixel _ List.mem_cons_self)).weaken fun w c' _ hw => hw.congr fun f => ?_
  have hsum := sum_indices_cons (fun k => X f [b, i * sh + k.getD 0 0, j * sw + k.getD 1 0, d]) ph [pw]
  rw [hrest, List.map_cons, List.sum_cons] at hsum
  refine hsum.trans (Finset.sum_congr rfl fun pi _ => ?_)
  rw [sum_indices_cons]
  simp [indices]

/-- Pooling takes the sum over each pool and multiplies it by the constant. -/
theorem averagePool_builds {input : wmat4_t} {batch h w channels : ℕ}
    (hin : input.shape = [batch, h, w, channels]) (hX : HasTensor c input X) {ph pw sh sw : ℕ}
    (hph : 0 < ph ∧ ph ≤ h) (hpw : 0 < pw ∧ pw ≤ w) (hs : 0 < sh ∧ 0 < sw)
    (hT : T .kAdd ∧ T .kConstMul) :
    Builds T c (averagePool input (ph, pw) (sh, sw)) fun output c' =>
      output.shape = [batch, pooledExtent h ph sh, pooledExtent w pw sw, channels] ∧
      HasTensor c' output fun f => pool (ph, pw) (sh, sw) (X f) := by
  have hextents : input.extent 0 = batch ∧ input.extent 1 = h ∧ input.extent 2 = w ∧
      input.extent 3 = channels := by simp [extent, hin]
  obtain ⟨hbatch, hh, hw, hchannels⟩ := hextents
  have hloop : (averagePool input (ph, pw) (sh, sw) : Build R wmat4_t) =
      (indices [batch, channels, pooledExtent h ph sh, pooledExtent w pw sw]).foldlM (fun output k => do
        let w ← poolSum input (ph, pw) (sh, sw) (k.getD 0 0) (k.getD 1 0) (k.getD 2 0) (k.getD 3 0) >>=
          fun acc => addConstOpGate .kConstMul acc (poolFactor R (ph, pw))
        setElement output [k.getD 0 0, k.getD 2 0, k.getD 3 0, k.getD 1 0] w)
        (full (n := 4) [batch, pooledExtent h ph sh, pooledExtent w pw sw, channels] rfl 0) := by
    simp only [averagePool, hbatch, hh, hw, hchannels, foldlM_indices_cons, foldlM_indices_nil, bind_assoc]
    rfl
  rw [hloop]
  refine (setElements_builds (fun k : List ℕ => [k.getD 0 0, k.getD 2 0, k.getD 3 0, k.getD 1 0])
    (fun k f => pool (ph, pw) (sh, sw) (X f) [k.getD 0 0, k.getD 2 0, k.getD 3 0, k.getD 1 0])
    _ _ ?_ ?_ ?_).weaken fun output c' _ houtput => ⟨houtput.1, fun idx hidx => ?_⟩
  · intro k hk
    obtain ⟨b, d, i, j, rfl, hb, hd, hi, hj⟩ := within_four (mem_indices.mp hk)
    exact ⟨hb, hi, hj, hd, trivial⟩
  · intro k hk k' hk' heq
    obtain ⟨b, d, i, j, rfl, -⟩ := within_four (mem_indices.mp hk)
    obtain ⟨b', d', i', j', rfl, -⟩ := within_four (mem_indices.mp hk')
    simp only [List.getD_cons_zero, List.getD_cons_succ, List.cons.injEq, and_true] at heq
    obtain ⟨rfl, rfl, rfl, rfl⟩ := heq
    rfl
  · intro k hk c' hc
    obtain ⟨b, d, i, j, rfl, hb, hd, hi, hj⟩ := within_four (mem_indices.mp hk)
    refine (poolSum_builds hin (hX.mono hc) hph hpw hs hb hd hi hj hT.1).bind fun acc c'' _ hacc => ?_
    exact addConstMul_builds hacc _ hT.2
  · rw [houtput.1] at hidx
    obtain ⟨b, i, j, d, rfl, hb, hi, hj, hd⟩ := within_four hidx
    exact houtput.2 [b, d, i, j] (mem_indices.mpr ⟨hb, hd, hi, hj, trivial⟩)

/-! ## Convolution -/

theorem range'_le {s n t : ℕ} (hs : s ≤ t) (h : ∀ w ∈ List.range' s n, w < t) : s + n ≤ t := by
  cases n with
  | zero => exact hs
  | succ n => exact h (s + n) (List.mem_range'_1.mpr ⟨Nat.le_add_right s n, by omega⟩)

/-- The parameters are new input wires, and the output is the layer on the values of the input. -/
theorem convolution_has (nn : NeuralNetwork) {input : wmat4_t} {batch h w channels : ℕ}
    (hin : input.shape = [batch, h, w, channels]) (hX : HasTensor c input X) (kh kw num_filters : ℕ)
    (hT : T .kInp ∧ T .kTrdotp ∧ T .kAdd) :
    Builds T c (nn.convolution input (kh, kw) num_filters false) fun r c' =>
      ∃ (weights : wmat4_t) (bias : wmat3_t),
        r.2 = ⟨nn.conv_weights_ ++ [weights], nn.conv_bias_ ++ [bias]⟩ ∧
        weights.shape = [num_filters, kh, kw, channels] ∧
        bias.shape = [h + 1 - kh, w + 1 - kw, num_filters] ∧
        (∃ n, weights.elems ++ bias.elems = List.range' c.size n ∧ c.size + n ≤ c'.size) ∧
        r.1.shape = [batch, h + 1 - kh, w + 1 - kw, num_filters] ∧
        HasTensor c' r.1 fun f => convolve channels kh kw (held f weights)
          (held f bias) (X f) := by
  refine (nn.convolution_builds hin hX.lt (kh, kw) num_filters false hT).weaken
    fun r c' hc hr => ?_
  obtain ⟨weights, bias, hnn, hconv, hshape, helems, hpar, hval⟩ := hr
  refine ⟨weights, bias, hnn, hconv.weights_shape, hconv.bias_shape, ⟨_, helems, ?_⟩, hshape, ?_⟩
  · exact range'_le hc.size_le fun w hw => (hpar w (helems ▸ hw)).lt
  · intro idx hidx
    rw [hshape] at hidx
    obtain ⟨b, i, j, d, rfl, hb, hi, hj, hd⟩ := within_four hidx
    have hpos : Convolution.Position ⟨input, (kh, kw), false, weights, bias⟩ batch h w num_filters
        b d i j := ⟨hb, hd, hi, hj⟩
    have hbias := getD_mem_elems (hconv.within_bias hpos) 0
    refine (hval b hb d hd i hi j hj).congr fun f => ?_
    rw [Convolution.outputValue, Convolution.windowSum_unpadded hconv rfl,
      (hpar _ (List.mem_append_right _ hbias)).value_eq f]
    refine congrArg (rescale · + _) (Finset.sum_congr rfl fun kd hkd => Finset.sum_congr rfl
      fun ki hki => Finset.sum_congr rfl fun kj hkj => ?_)
    have hin' := hconv.within_input hpos (Finset.mem_range.mp hkd) (Finset.mem_range.mp hki)
      (Finset.mem_range.mp hkj) (fun h => Bool.noConfusion h)
    have hweight := getD_mem_elems (hconv.within_weights hd (Finset.mem_range.mp hkd)
      (Finset.mem_range.mp hki) (Finset.mem_range.mp hkj)) 0
    rw [(hpar _ (List.mem_append_left _ hweight)).value_eq f]
    exact congrArg _ (((hX.mono hc) _ hin').value_eq f)

end Wires
end QSync
