import QSync.Foundations.MultiArray
import QSync.Utils.SignTest

/-! # Convolution layers

`NeuralNetwork::newInput` and `NeuralNetwork::convolution` (`utils/neural_network.h`). The circuit
under construction is the builder's state. An output is a truncated dot product of the part of a
filter that lies inside the image with that part of the image, plus a bias.
-/

namespace QSync
set_option autoImplicit false
set_option maxHeartbeats 250000
open Circuit MultiArray

abbrev wmat3_t : Type := MultiArray ℕ 3

abbrev wmat4_t : Type := MultiArray ℕ 4

/-- The layers' parameters; `circ_` is the builder's state. -/
structure NeuralNetwork where
  conv_weights_ : List wmat4_t
  conv_bias_ : List wmat3_t

section Model
variable {R : Type} {n : ℕ}

/-- `a[idx]`. -/
def element (a : MultiArray ℕ n) (idx : List ℕ) : Build R ℕ :=
  match a.get? idx with
  | some w => pure w
  | none => throw "index out of range"

/-- `a[idx] = w`. -/
def setElement (a : MultiArray ℕ n) (idx : List ℕ) (w : ℕ) : Build R (MultiArray ℕ n) :=
  match a.set? idx w with
  | some a => pure a
  | none => throw "index out of range"

def newInput (shape : List ℕ) (h : shape.length = n) : Build R (MultiArray ℕ n) :=
  (List.range shape.prod).foldlM (fun mat k => do
    let w ← newInputWire
    pure (mat.assign k w)) (full shape h 0)

/-- What the loops of `convolution` read: its arguments and the new wires. -/
structure Convolution where
  input : wmat4_t
  kernel_shape : ℕ × ℕ
  padding : Bool
  weights : wmat4_t
  bias : wmat3_t

namespace Convolution

def inp_st_h (conv : Convolution) : ℕ := if conv.padding then (conv.kernel_shape.1 - 1) / 2 else 0

def inp_st_w (conv : Convolution) : ℕ := if conv.padding then (conv.kernel_shape.2 - 1) / 2 else 0

def inp_ed_h (conv : Convolution) : ℕ :=
  if conv.padding then conv.inp_st_h + conv.input.extent 1 else 0

def inp_ed_w (conv : Convolution) : ℕ :=
  if conv.padding then conv.inp_st_w + conv.input.extent 2 else 0

/-- A turn of the innermost loop, on `vwt` and `vinp`. -/
def pushTerm (conv : Convolution) (b d i j kd ki kj : ℕ) (acc : List ℕ × List ℕ) :
    Build R (List ℕ × List ℕ) :=
  if conv.padding then
    let idx_h := i + ki
    let idx_w := j + kj
    if idx_h ≥ conv.inp_st_h ∧ idx_w ≥ conv.inp_st_w ∧
        idx_h < conv.inp_ed_h ∧ idx_w < conv.inp_ed_w then do
      let wt ← element conv.weights [d, ki, kj, kd]
      let inp ← element conv.input [b, idx_h - conv.inp_st_h, idx_w - conv.inp_st_w, kd]
      pure (acc.1 ++ [wt], acc.2 ++ [inp])
    else pure acc
  else do
    let wt ← element conv.weights [d, ki, kj, kd]
    let inp ← element conv.input [b, i + ki, j + kj, kd]
    pure (acc.1 ++ [wt], acc.2 ++ [inp])

/-- The dot product inputs for `output[b][i][j][d]`. -/
def dotInputs (conv : Convolution) (b d i j : ℕ) : Build R (List ℕ × List ℕ) :=
  (List.range (conv.input.extent 3)).foldlM (fun acc kd =>
    (List.range conv.kernel_shape.1).foldlM (fun acc ki =>
      (List.range conv.kernel_shape.2).foldlM (fun acc kj =>
        conv.pushTerm b d i j kd ki kj acc) acc) acc) ([], [])

/-- The wire for `output[b][i][j][d]`. -/
def outputAt (conv : Convolution) (b d i j : ℕ) : Build R ℕ := do
  let (vwt, vinp) ← conv.dotInputs b d i j
  let wdotp ← addGateSIMD .kTrdotp vwt vinp
  let wbias ← element conv.bias [i, j, d]
  addGate2 .kAdd wdotp wbias

/-- The loops over the output. -/
def fillOutput (conv : Convolution) (batch num_filters out_h out_w : ℕ) : Build R wmat4_t :=
  (List.range batch).foldlM (fun output b =>
    (List.range num_filters).foldlM (fun output d =>
      (List.range out_h).foldlM (fun output i =>
        (List.range out_w).foldlM (fun output j => do
          let w ← conv.outputAt b d i j
          setElement output [b, i, j, d] w) output) output) output)
    (full [batch, out_h, out_w, num_filters] rfl 0)

end Convolution

/-- The extent of the output in a dimension of the image; a kernel is at most one longer than the
image, or the unsigned difference wraps. -/
def outputExtent (padding : Bool) (inp kernel : ℕ) : ℕ :=
  if padding then inp else inp + 1 - kernel

def NeuralNetwork.convolution (nn : NeuralNetwork) (input : wmat4_t) (kernel_shape : ℕ × ℕ)
    (num_filters : ℕ) (padding : Bool) : Build R (wmat4_t × NeuralNetwork) := do
  let out_h := outputExtent padding (input.extent 1) kernel_shape.1
  let out_w := outputExtent padding (input.extent 2) kernel_shape.2
  let weights ← newInput [num_filters, kernel_shape.1, kernel_shape.2, input.extent 3] rfl
  let bias ← newInput [out_h, out_w, num_filters] rfl
  let conv : Convolution := { input, kernel_shape, padding, weights, bias }
  let output ← conv.fillOutput (input.extent 0) num_filters out_h out_w
  pure (output, { nn with
    conv_weights_ := nn.conv_weights_ ++ [weights]
    conv_bias_ := nn.conv_bias_ ++ [bias] })

end Model

/-! ## Reading and filling arrays -/

section Arrays
variable {R : Type} {n : ℕ}

theorem element_eq {a : MultiArray ℕ n} {idx : List ℕ} (h : Within idx a.shape) :
    (element a idx : Build R ℕ) = pure (a.getD idx 0) := by
  rw [element, get?_of_within h 0]

variable [CircuitRing R] {T : GateType → Prop} {c : Circuit R}

theorem newInput_builds (shape : List ℕ) (h : shape.length = n) (ht : T .kInp) :
    Builds T c (newInput shape h) fun mat c' => mat.shape = shape ∧
      mat.elems = List.range' c.size shape.prod ∧ c'.size = c.size + shape.prod ∧
      ∀ w ∈ mat.elems, Has c' w fun f => f w := by
  have hloop := Builds.foldlM_split (c := c) (T := T)
    (f := fun (mat : MultiArray ℕ n) k => do
      let w ← newInputWire
      pure (mat.assign k w))
    (fun done mat c' => mat.shape = shape ∧ c'.size = c.size + done.length ∧
      mat.elems = List.range' c.size done.length ++ List.replicate (shape.prod - done.length) 0 ∧
      ∀ w ∈ List.range' c.size done.length, Has c' w fun f => f w)
    (List.range shape.prod) (b := full shape h 0) ⟨rfl, rfl, by simp [full], by simp⟩ ?_
  · refine hloop.weaken fun mat c' _ ⟨hshape, hsize, helems, hval⟩ => ?_
    rw [List.length_range] at hsize helems hval
    rw [Nat.sub_self, List.replicate_zero, List.append_nil] at helems
    exact ⟨hshape, helems, hsize, helems ▸ hval⟩
  · intro done k rest mat c' hk hc ⟨hshape, hsize, helems, hval⟩
    rw [List.range_eq_range'] at hk
    obtain ⟨rfl, hlt⟩ := range'_split hk
    refine (newInputWire_builds ht).bind fun w c'' hc' ⟨hw, hsize', hhas⟩ => .pure ?_
    have hrest : List.replicate (shape.prod - done.length) 0 =
        0 :: List.replicate (shape.prod - (done.length + 1)) 0 := by
      rw [← List.replicate_succ]
      congr 1
      omega
    rw [hrest] at helems
    have hnext := assign_append helems w
    rw [List.length_range'] at hnext
    have hrange : List.range' c.size (done.length + 1) = List.range' c.size done.length ++ [w] := by
      rw [List.range'_1_concat, hw, hsize]
    refine ⟨hshape, by rw [hsize', hsize, List.length_append, List.length_singleton]; omega, ?_, ?_⟩
    · rw [List.length_append, List.length_singleton, hrange, List.append_assoc]
      exact hnext
    · rw [List.length_append, List.length_singleton, hrange]
      intro w' hw'
      obtain hw' | hw' := List.mem_append.mp hw'
      · exact (hval w' hw').mono hc'
      · rw [List.mem_singleton.mp hw']
        exact hhas

/-- A loop that computes a wire for each of some elements of an array. -/
theorem setElements_builds {α : Type} (idx : α → List ℕ) {wire : α → Build R ℕ}
    (val : α → (ℕ → R) → R) (xs : List α) (a : MultiArray ℕ n)
    (hin : ∀ x ∈ xs, Within (idx x) a.shape)
    (hinj : ∀ x ∈ xs, ∀ y ∈ xs, idx x = idx y → x = y)
    (h : ∀ x ∈ xs, ∀ c', Extends T c c' → Builds T c' (wire x) fun w c'' => Has c'' w (val x)) :
    Builds T c (xs.foldlM (fun a x => do
      let w ← wire x
      setElement a (idx x) w) a) fun a' c' =>
        a'.shape = a.shape ∧ ∀ x ∈ xs, Has c' (a'.getD (idx x) 0) (val x) := by
  refine Builds.foldlM_split (fun done (a' : MultiArray ℕ n) c' =>
    a'.shape = a.shape ∧ ∀ x ∈ done, Has c' (a'.getD (idx x) 0) (val x)) xs ⟨rfl, by simp⟩ ?_
  intro done x rest a' c' hxs hc ⟨hshape, hdone⟩
  have hx : x ∈ xs := by simp [hxs]
  have hpast : ∀ y ∈ done, y ∈ xs := fun y hy => by simp [hxs, hy]
  refine (h x hx c' hc).bind fun w c'' hc' hw => ?_
  have hwithin : ∀ y ∈ xs, Within (idx y) a'.shape := fun y hy => by
    rw [hshape]
    exact hin y hy
  obtain ⟨a'', ha''⟩ := set?_of_within (hwithin x hx) w
  rw [setElement, ha'']
  refine .pure ⟨(set?_shape ha'').trans hshape, fun y hy => ?_⟩
  have hy' : y ∈ xs := by
    obtain hy | hy := List.mem_append.mp hy
    · exact hpast y hy
    · rwa [List.mem_singleton.mp hy]
  rw [getD, get?_set? ha'' (hwithin y hy')]
  by_cases hyx : y = x
  · rw [hyx, if_pos rfl]
    exact hw
  · rw [if_neg fun heq => hyx (hinj y hy' x hx heq)]
    have hydone : y ∈ done := by simpa [hyx] using hy
    exact (hdone y hydone).mono hc'

end Arrays

end QSync
