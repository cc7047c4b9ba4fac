import QSync.Utils.NetworkLayers

/-! # Two networks

`NeuralNetwork::fcnMNIST` and `NeuralNetwork::lenetMNIST` (`utils/neural_network.h`): building them never
throws, their parameters are input wires of their own, in the order of the layers, and evaluating the
circuit gives, row by row, the composition of the layers on the values of the input
(`fcnMNIST_evaluates`, `lenetMNIST_evaluates`).
-/

namespace QSync
set_option autoImplicit false
set_option maxHeartbeats 250000
open Circuit MultiArray

section Model
variable {R : Type}

def LayeredNetwork.empty : LayeredNetwork := ⟨⟨[], []⟩, []⟩

def LayeredNetwork.convolution (nn : LayeredNetwork) (input : wmat4_t) (kernel_shape : ℕ × ℕ)
    (num_filters : ℕ) (padding : Bool) : Build R (wmat4_t × LayeredNetwork) := do
  let (output, conv) ← nn.toNeuralNetwork.convolution input kernel_shape num_filters padding
  pure (output, { nn with toNeuralNetwork := conv })

def fcnMNIST (batch_size : ℕ) : Build R LayeredNetwork := do
  let input ← newInput [batch_size, 28 * 28] rfl
  let (layer1_lin, nn) ← LayeredNetwork.empty.linear input 128
  let layer1_out ← relu layer1_lin
  let (layer2_lin, nn) ← nn.linear layer1_out 128
  let layer2_out ← relu layer2_lin
  let (output, nn) ← nn.linear layer2_out 10
  setOutput output
  pure nn

def lenetMNIST [NatCast R] (batch_size : ℕ) : Build R LayeredNetwork := do
  let input ← newInput [batch_size, 28, 28, 1] rfl
  let (layer1_conv, nn) ← LayeredNetwork.empty.convolution input (5, 5) 20 false
  let layer1_relu ← relu layer1_conv
  let layer1_out ← averagePool layer1_relu (2, 2) (2, 2)
  let (layer2_conv, nn) ← nn.convolution layer1_out (5, 5) 50 false
  let layer2_relu ← relu layer2_conv
  let layer2_out ← averagePool layer2_relu (2, 2) (2, 2)
  let layer2_flat := flatten layer2_out
  let (layer3_lin, nn) ← nn.linear layer2_flat 500
  let layer3_out ← relu layer3_lin
  let (output, nn) ← nn.linear layer3_out 10
  setOutput output
  pure nn

end Model

/-! ## The networks on values -/

section Networks
variable {R : Type} [CircuitRing R]

def fcnNetwork (w₁ w₂ w₃ x : Tensor R) : Tensor R :=
  dense 128 w₃ (rectify ∘ dense 128 w₂ (rectify ∘ dense (28 * 28) w₁ x))

def lenetNetwork (k₁ b₁ k₂ b₂ w₁ w₂ x : Tensor R) : Tensor R :=
  let features := pool (2, 2) (2, 2) (rectify ∘ convolve 20 5 5 k₂ b₂
    (pool (2, 2) (2, 2) (rectify ∘ convolve 1 5 5 k₁ b₁ x)))
  dense 500 w₂ (rectify ∘ dense 800 w₁ (flat [4, 4, 50] features))

end Networks

/-! ## Parameter wires -/

section Parameters
variable {R : Type} {c c' : Circuit R} {wires : List ℕ}

/-- Wires allotted one after the other. -/
structure Allotted (c : Circuit R) (wires : List ℕ) : Prop where
  increasing : wires.Pairwise (· < ·)
  lt : ∀ w ∈ wires, w < c.size

theorem Allotted.nil (c : Circuit R) : Allotted c [] := ⟨.nil, by simp⟩

theorem Allotted.append (h : Allotted c wires) {n : ℕ} (hn : c.size + n ≤ c'.size) :
    Allotted c' (wires ++ List.range' c.size n) where
  increasing := by
    apply List.pairwise_append.mpr
    refine ⟨h.increasing, List.pairwise_lt_range', fun w hw w' hw' => ?_⟩
    exact (h.lt w hw).trans_le (List.mem_range'_1.mp hw').1
  lt := by
    intro w hw
    obtain hw | hw := List.mem_append.mp hw
    · exact (h.lt w hw).trans_le ((Nat.le_add_right _ n).trans hn)
    · exact (List.mem_range'_1.mp hw).2.trans_le hn

theorem Allotted.mono {T : GateType → Prop} (h : Allotted c wires) (hc : Extends T c c') :
    Allotted c' wires := ⟨h.increasing, fun w hw => (h.lt w hw).trans_le hc.size_le⟩

end Parameters

/-! ## Building the networks -/

section Building
variable {R : Type} [CircuitRing R]

theorem fcnMNIST_makes (batch_size : ℕ) :
    Makes (fun _ => True) (empty : Circuit R) (fcnMNIST batch_size) fun nn outs c =>
      ∃ input w₁ w₂ w₃ : wmat2_t, nn = ⟨⟨[], []⟩, [w₁, w₂, w₃]⟩ ∧
        input.shape = [batch_size, 28 * 28] ∧ w₁.shape = [128, 28 * 28 + 1] ∧
        w₂.shape = [128, 128 + 1] ∧ w₃.shape = [10, 128 + 1] ∧
        Allotted c (input.elems ++ w₁.elems ++ w₂.elems ++ w₃.elems) ∧
        List.Forall₂ (Has c) outs ((List.range (batch_size * 10)).map fun k f =>
          fcnNetwork (held f w₁) (held f w₂) (held f w₃) (held f input) [k / 10, k % 10]) := by
  refine (newInput_has (n := 2) [batch_size, 28 * 28] rfl trivial).then
    fun input c₁ _ ⟨hin, hielems, hisize, hX⟩ => ?_
  have hA₁ : Allotted c₁ input.elems := hielems ▸ (Allotted.nil empty).append hisize.ge
  refine (linear_builds .empty hin hX 128 ⟨trivial, trivial, trivial⟩).then
    fun r₁ c₂ _ ⟨w₁, hnn₁, hw₁, he₁, hs₁, hr₁, hX₁⟩ => ?_
  have hA₂ : Allotted c₂ (input.elems ++ w₁.elems) := he₁ ▸ hA₁.append hs₁
  refine (relu_builds hX₁ trivial).then fun out₁ c₃ hc₃ ⟨hout₁, hY₁⟩ => ?_
  rw [hr₁] at hout₁
  refine (linear_builds r₁.2 hout₁ hY₁ 128 ⟨trivial, trivial, trivial⟩).then
    fun r₂ c₄ _ ⟨w₂, hnn₂, hw₂, he₂, hs₂, hr₂, hX₂⟩ => ?_
  have hA₄ : Allotted c₄ (input.elems ++ w₁.elems ++ w₂.elems) := he₂ ▸ (hA₂.mono hc₃).append hs₂
  refine (relu_builds hX₂ trivial).then fun out₂ c₅ hc₅ ⟨hout₂, hY₂⟩ => ?_
  rw [hr₂] at hout₂
  refine (linear_builds r₂.2 hout₂ hY₂ 10 ⟨trivial, trivial, trivial⟩).then
    fun r₃ c₆ _ ⟨w₃, hnn₃, hw₃, he₃, hs₃, hr₃, hX₃⟩ => ?_
  have hA₆ : Allotted c₆ (input.elems ++ w₁.elems ++ w₂.elems ++ w₃.elems) :=
    he₃ ▸ (hA₄.mono hc₅).append hs₃
  refine (setOutput_makes hX₃).bind fun _ outs c₇ hc₇ houts => .pure ?_
  refine ⟨input, w₁, w₂, w₃, ?_, hin, hw₁, hw₂, hw₃, ?_, ?_⟩
  · rw [hnn₃, hnn₂, hnn₁]
    rfl
  · exact ⟨hA₆.increasing, fun w hw => (hA₆.lt w hw).trans_le hc₇.size_le⟩
  · rw [hr₃] at houts
    simp only [indexAt, List.prod_cons, List.prod_nil, mul_one, Nat.div_one] at houts
    rw [List.append_nil]
    exact houts

theorem LayeredNetwork.convolution_has {T : GateType → Prop} {c : Circuit R} {X : (ℕ → R) → Tensor R}
    (nn : LayeredNetwork) {input : wmat4_t} {batch h w channels : ℕ}
    (hin : input.shape = [batch, h, w, channels]) (hX : HasTensor c input X) (kh kw num_filters : ℕ)
    (hT : T .kInp ∧ T .kTrdotp ∧ T .kAdd) :
    Builds T c (nn.convolution input (kh, kw) num_filters false) fun r c' =>
      ∃ (weights : wmat4_t) (bias : wmat3_t),
        r.2 = ⟨⟨nn.conv_weights_ ++ [weights], nn.conv_bias_ ++ [bias]⟩, nn.linear_weights_⟩ ∧
        weights.shape = [num_filters, kh, kw, channels] ∧
        bias.shape = [h + 1 - kh, w + 1 - kw, num_filters] ∧
        (∃ n, weights.elems ++ bias.elems = List.range' c.size n ∧ c.size + n ≤ c'.size) ∧
        r.1.shape = [batch, h + 1 - kh, w + 1 - kw, num_filters] ∧
        HasTensor c' r.1 fun f => convolve channels kh kw (held f weights) (held f bias) (X f) := by
  refine (QSync.convolution_has nn.toNeuralNetwork hin hX kh kw num_filters hT).bind
    fun r c' _ ⟨weights, bias, hnn, hrest⟩ => .pure ⟨weights, bias, ?_, hrest⟩
  rw [hnn]

theorem lenetMNIST_makes (batch_size : ℕ) :
    Makes (fun _ => True) (empty : Circuit R) (lenetMNIST batch_size) fun nn outs c =>
      ∃ (input k₁ k₂ : wmat4_t) (b₁ b₂ : wmat3_t) (w₁ w₂ : wmat2_t),
        nn = ⟨⟨[k₁, k₂], [b₁, b₂]⟩, [w₁, w₂]⟩ ∧
        input.shape = [batch_size, 28, 28, 1] ∧ k₁.shape = [20, 5, 5, 1] ∧ b₁.shape = [24, 24, 20] ∧
        k₂.shape = [50, 5, 5, 20] ∧ b₂.shape = [8, 8, 50] ∧ w₁.shape = [500, 800 + 1] ∧
        w₂.shape = [10, 500 + 1] ∧
        Allotted c (input.elems ++ (k₁.elems ++ b₁.elems) ++ (k₂.elems ++ b₂.elems) ++ w₁.elems ++
          w₂.elems) ∧
        List.Forall₂ (Has c) outs ((List.range (batch_size * 10)).map fun k f =>
          lenetNetwork (held f k₁) (held f b₁) (held f k₂) (held f b₂) (held f w₁) (held f w₂)
            (held f input) [k / 10, k % 10]) := by
  refine (newInput_has (n := 4) [batch_size, 28, 28, 1] rfl trivial).then
    fun input c₁ _ ⟨hin, hielems, hisize, hX⟩ => ?_
  have hA₁ : Allotted c₁ input.elems := hielems ▸ (Allotted.nil empty).append hisize.ge
  refine (LayeredNetwork.convolution_has .empty hin hX 5 5 20 ⟨trivial, trivial, trivial⟩).then
    fun r₁ c₂ _ ⟨k₁, b₁, hnn₁, hk₁, hb₁, ⟨n₁, he₁, hs₁⟩, hr₁, hX₁⟩ => ?_
  have hA₂ : Allotted c₂ (input.elems ++ (k₁.elems ++ b₁.elems)) := he₁ ▸ hA₁.append hs₁
  refine (relu_builds hX₁ trivial).then fun relu₁ c₃ hc₃ ⟨hrelu₁, hY₁⟩ => ?_
  rw [hr₁] at hrelu₁
  refine (averagePool_builds hrelu₁ hY₁ (by decide : 0 < 2 ∧ 2 ≤ 24) (by decide : 0 < 2 ∧ 2 ≤ 24)
    (by decide : 0 < 2 ∧ 0 < 2) ⟨trivial, trivial⟩).then fun out₁ c₄ hc₄ ⟨hout₁, hZ₁⟩ => ?_
  refine (r₁.2.convolution_has hout₁ hZ₁ 5 5 50 ⟨trivial, trivial, trivial⟩).then
    fun r₂ c₅ _ ⟨k₂, b₂, hnn₂, hk₂, hb₂, ⟨n₂, he₂, hs₂⟩, hr₂, hX₂⟩ => ?_
  have hA₅ : Allotted c₅ (input.elems ++ (k₁.elems ++ b₁.elems) ++ (k₂.elems ++ b₂.elems)) :=
    he₂ ▸ ((hA₂.mono hc₃).mono hc₄).append hs₂
  refine (relu_builds hX₂ trivial).then fun relu₂ c₆ hc₆ ⟨hrelu₂, hY₂⟩ => ?_
  rw [hr₂] at hrelu₂
  refine (averagePool_builds hrelu₂ hY₂ (by decide : 0 < 2 ∧ 2 ≤ 8) (by decide : 0 < 2 ∧ 2 ≤ 8)
    (by decide : 0 < 2 ∧ 0 < 2) ⟨trivial, trivial⟩).then fun out₂ c₇ hc₇ ⟨hout₂, hZ₂⟩ => ?_
  obtain ⟨hflat, hF⟩ := flatten_has hZ₂ hout₂
  refine (linear_builds r₂.2 hflat hF 500 ⟨trivial, trivial, trivial⟩).then
    fun r₃ c₈ _ ⟨w₁, hnn₃, hw₁, he₃, hs₃, hr₃, hX₃⟩ => ?_
  have hA₈ : Allotted c₈ (input.elems ++ (k₁.elems ++ b₁.elems) ++ (k₂.elems ++ b₂.elems) ++
    w₁.elems) := he₃ ▸ ((hA₅.mono hc₆).mono hc₇).append hs₃
  refine (relu_builds hX₃ trivial).then fun out₃ c₉ hc₉ ⟨hout₃, hY₃⟩ => ?_
  rw [hr₃] at hout₃
  refine (linear_builds r₃.2 hout₃ hY₃ 10 ⟨trivial, trivial, trivial⟩).then
    fun r₄ c₁₀ _ ⟨w₂, hnn₄, hw₂, he₄, hs₄, hr₄, hX₄⟩ => ?_
  have hA₁₀ := he₄ ▸ (hA₈.mono hc₉).append hs₄
  refine (setOutput_makes hX₄).bind fun _ outs c' hc' houts => .pure ?_
  refine ⟨input, k₁, k₂, b₁, b₂, w₁, w₂, ?_, hin, hk₁, hb₁, hk₂, hb₂, hw₁, hw₂, ?_, ?_⟩
  · rw [hnn₄, hnn₃, hnn₂, hnn₁]
    rfl
  · exact ⟨hA₁₀.increasing, fun w hw => (hA₁₀.lt w hw).trans_le hc'.size_le⟩
  · rw [hr₄] at houts
    simp only [indexAt, List.prod_cons, List.prod_nil, mul_one, Nat.div_one] at houts
    rw [List.append_nil]
    exact houts

end Building

/-! ## Evaluation -/

/-- What a program on the empty circuit makes is evaluated, over a field, to the values of its outputs. -/
theorem evaluate_outputs {M : Modulus} {T : GateType → Prop} {c : Circuit (Field M)} {outs : List ℕ}
    (hc : Appends T empty c outs) {vals : List ((ℕ → Field M) → Field M)}
    (h : List.Forall₂ (Has c) outs vals) (f : ℕ → Field M) :
    c.evaluate (c.assign f) = .ok (vals.map fun v => v f) := by
  obtain ⟨ws, hws, hval⟩ := c.evaluateWires_field f
  have houts : c.outputs_ = outs := hc.2
  rw [Circuit.evaluate, hws, ← map_value h f, ← houts]
  exact congrArg Except.ok (List.map_congr_left fun w hw => hval w (c.outputs_valid w hw))

/-- The fully connected network: row `b`, output `i` is at place `10 b + i`. -/
theorem fcnMNIST_evaluates (M : Modulus) (batch_size : ℕ) :
    ∃ (c : Circuit (Field M)) (input w₁ w₂ w₃ : wmat2_t),
      fcnMNIST batch_size empty = .ok (⟨⟨[], []⟩, [w₁, w₂, w₃]⟩, c) ∧
      input.shape = [batch_size, 28 * 28] ∧ w₁.shape = [128, 28 * 28 + 1] ∧
      w₂.shape = [128, 128 + 1] ∧ w₃.shape = [10, 128 + 1] ∧
      (input.elems ++ w₁.elems ++ w₂.elems ++ w₃.elems).Pairwise (· < ·) ∧
      ∀ f : ℕ → Field M, c.evaluate (c.assign f) = .ok ((List.range (batch_size * 10)).map fun k =>
        fcnNetwork (held f w₁) (held f w₂) (held f w₃) (held f input) [k / 10, k % 10]) := by
  obtain ⟨nn, outs, c, hrun, hc, input, w₁, w₂, w₃, rfl, hin, hw₁, hw₂, hw₃, hA, houts⟩ :=
    fcnMNIST_makes (R := Field M) batch_size
  refine ⟨c, input, w₁, w₂, w₃, hrun, hin, hw₁, hw₂, hw₃, hA.increasing, fun f => ?_⟩
  rw [evaluate_outputs hc houts f, List.map_map]
  rfl

/-- The convolutional network: row `b`, output `i` is at place `10 b + i`. -/
theorem lenetMNIST_evaluates (M : Modulus) (batch_size : ℕ) :
    ∃ (c : Circuit (Field M)) (input k₁ k₂ : wmat4_t) (b₁ b₂ : wmat3_t) (w₁ w₂ : wmat2_t),
      lenetMNIST batch_size empty = .ok (⟨⟨[k₁, k₂], [b₁, b₂]⟩, [w₁, w₂]⟩, c) ∧
      input.shape = [batch_size, 28, 28, 1] ∧ k₁.shape = [20, 5, 5, 1] ∧ b₁.shape = [24, 24, 20] ∧
      k₂.shape = [50, 5, 5, 20] ∧ b₂.shape = [8, 8, 50] ∧ w₁.shape = [500, 800 + 1] ∧
      w₂.shape = [10, 500 + 1] ∧
      (input.elems ++ (k₁.elems ++ b₁.elems) ++ (k₂.elems ++ b₂.elems) ++ w₁.elems ++
        w₂.elems).Pairwise (· < ·) ∧
      ∀ f : ℕ → Field M, c.evaluate (c.assign f) = .ok ((List.range (batch_size * 10)).map fun k =>
        lenetNetwork (held f k₁) (held f b₁) (held f k₂) (held f b₂) (held f w₁) (held f w₂)
          (held f input) [k / 10, k % 10]) := by
  obtain ⟨nn, outs, c, hrun, hc, input, k₁, k₂, b₁, b₂, w₁, w₂, rfl, hin, hk₁, hb₁, hk₂, hb₂, hw₁,
    hw₂, hA, houts⟩ := lenetMNIST_makes (R := Field M) batch_size
  refine ⟨c, input, k₁, k₂, b₁, b₂, w₁, w₂, hrun, hin, hk₁, hb₁, hk₂, hb₂, hw₁, hw₂, hA.increasing,
    fun f => ?_⟩
  rw [evaluate_outputs hc houts f, List.map_map]
  rfl

end QSync
