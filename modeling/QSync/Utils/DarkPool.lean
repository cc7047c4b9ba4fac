import QSync.Utils.Generators

/-! # Dark pool circuits

`DarkPool` (`utils/darkpool.h`): the continuous double auction `getCDACircuit` and the volume
matching `getVMCircuit`. The builders keep wires in `std::vector`s that they index with `[]`; here an
index out of bounds throws. Elements of a new vector and the orders that `resizeList` adds are
value-initialised, which makes them wire 0 without being assigned: with `checked` the use of such an
element throws, without it is wire 0.
-/

namespace QSync
set_option autoImplicit false
set_option maxHeartbeats 250000

open Circuit

/-! ## Vectors -/

/-- A wire variable; `none` was never assigned. -/
abbrev Wire := Option ℕ

structure Vec (α : Type) where
  size : ℕ
  slot : ℕ → α

namespace Vec
variable {R α : Type}

def new (n : ℕ) : Vec Wire := ⟨n, fun _ => none⟩

def resize (v : Vec α) (n : ℕ) (a : α) : Vec α := ⟨n, fun i => if i < v.size then v.slot i else a⟩

/-- The vector with element `i` replaced. -/
def put (v : Vec α) (i : ℕ) (a : α) : Vec α := ⟨v.size, Function.update v.slot i a⟩

def read (v : Vec α) (i : ℕ) : Build R α :=
  if i < v.size then pure (v.slot i) else throw "out of bounds"

def write (v : Vec α) (i : ℕ) (a : α) : Build R (Vec α) :=
  if i < v.size then pure (v.put i a) else throw "out of bounds"

end Vec

/-- A wire passed to `addGate`, `addConstOpGate` or `setAsOutput`. -/
def use {R : Type} (checked : Bool) : Wire → Build R ℕ
  | some w => pure w
  | none => if checked then throw "not assigned" else pure 0

structure Order where
  name : Wire
  unit : Wire
  price : Wire

/-- A value-initialised order. -/
def Order.unassigned : Order := ⟨none, none, none⟩

/-- The members beside `circ_`; the lists are their vectors of orders. -/
structure DarkPool where
  s_list_ : Vec Order
  b_list_ : Vec Order
  sell_list_size_ : ℕ
  buy_list_size_ : ℕ

namespace DarkPool
variable {R : Type}

def init (sell_list_size buy_list_size : ℕ) : DarkPool :=
  ⟨⟨0, fun _ => .unassigned⟩, ⟨0, fun _ => .unassigned⟩, sell_list_size, buy_list_size⟩

def resizeList (dp : DarkPool) : DarkPool :=
  { dp with
    s_list_ := dp.s_list_.resize dp.sell_list_size_ .unassigned
    b_list_ := dp.b_list_.resize dp.buy_list_size_ .unassigned }

/-- `new_order_` with three new inputs. -/
def newOrder : Build R Order := do
  let name ← newInputWire
  let unit ← newInputWire
  let price ← newInputWire
  pure ⟨some name, some unit, some price⟩

section Reading
variable (checked : Bool)

/-- `v[i]` as the operand of a gate. -/
def wireAt (v : Vec Wire) (i : ℕ) : Build R ℕ := do use checked (← v.read i)

/-- `order[i].unit` as the operand of a gate. -/
def unitAt (order : Vec Order) (i : ℕ) : Build R ℕ := do use checked (← order.read i).unit

end Reading

section CDA
variable [CommRing R] (checked : Bool)

/-- The same gate with a constant on the three members of an order. -/
def constOrder (type : GateType) (cval : R) (order : Order) : Build R Order := do
  let name ← addConstOpGate type (← use checked order.name) cval
  let unit ← addConstOpGate type (← use checked order.unit) cval
  let price ← addConstOpGate type (← use checked order.price) cval
  pure ⟨some name, some unit, some price⟩

/-- Order 0 from the new order and each next one from the one before it. -/
def fillOrders (n : ℕ) (new_order : Order) (list : Vec Order) : Build R (Vec Order) := do
  let list ← list.write 0 (← constOrder checked .kConstAdd (1 : R) new_order)
  (List.range' 1 (n - 1)).foldlM (fun list i => do
    list.write i (← constOrder checked .kConstAdd (1 : R) (← list.read (i - 1)))) list

/-- `w`: the sums of the units of the first orders. -/
def unitSums (N : ℕ) (s_list : Vec Order) : Build R (Vec Wire) := do
  let w ← (Vec.new (N + 1)).write 0
    (some (← addConstOpGate .kConstMul (← unitAt checked s_list 0) (0 : R)))
  (List.range' 1 N).foldlM (fun w i => do
    w.write i (some (← addGate2 .kAdd (← unitAt checked s_list (i - 1))
      (← wireAt checked w (i - 1))))) w

/-- The vectors `z`, `z_dash`, `temp1`, `temp2`, `temp3`. -/
structure PslTests where
  z : Vec Wire
  z_dash : Vec Wire
  temp1 : Vec Wire
  temp2 : Vec Wire
  temp3 : Vec Wire

def pslTest (s_list : Vec Order) (new_order : Order) (w : Vec Wire) (t : PslTests) (i : ℕ) :
    Build R PslTests := do
  let temp1 ← t.temp1.write i
    (some (← addGate2 .kSub (← wireAt checked w (i - 1)) (← use checked new_order.unit)))
  let temp2 ← t.temp2.write i
    (some (← addConstOpGate .kConstAdd (← use checked new_order.price) (1 : R)))
  let temp3 ← t.temp3.write i (some (← addGate2 .kSub
    (← use checked (← s_list.read (i - 1)).price) (← wireAt checked temp2 i)))
  let z ← t.z.write i (some (← addGate1 .kLtz (← wireAt checked temp1 i)))
  let z_dash ← t.z_dash.write i (some (← addGate1 .kLtz (← wireAt checked temp3 i)))
  pure ⟨z, z_dash, temp1, temp2, temp3⟩

/-- `z` and `z_dash`: where the units before an order, and its price, are below the new order's. -/
def pslTests (N : ℕ) (s_list : Vec Order) (new_order : Order) (w : Vec Wire) :
    Build R PslTests := do
  let z ← (Vec.new (N + 1)).write 0
    (some (← addConstOpGate .kConstMul (← wireAt checked w 0) (0 : R)))
  let z_dash ← (Vec.new (N + 1)).write 0
    (some (← addConstOpGate .kConstMul (← wireAt checked w 0) (0 : R)))
  (List.range' 1 N).foldlM (pslTest checked s_list new_order w)
    ⟨z, z_dash, Vec.new (N + 1), Vec.new (N + 1), Vec.new (N + 1)⟩

/-- `f`, and the outputs of the sell side. -/
def pslOutputs (N : ℕ) (s_list : Vec Order) (t : PslTests) : Build R Unit := do
  let f ← (Vec.new (N + 1)).write 0
    (some (← addConstOpGate .kConstMul (← wireAt checked t.z 0) (0 : R)))
  let _f ← (List.range' 1 N).foldlM (fun f i => do
    let f ← f.write i
      (some (← addGate2 .kMul (← wireAt checked t.z i) (← wireAt checked t.z_dash i)))
    setAsOutput (← wireAt checked f i)
    pure f) f
  (List.range (N / 2)).forM fun i => do
    setAsOutput (← use checked (← s_list.read i).name)
    setAsOutput (← use checked (← s_list.read i).unit)
    setAsOutput (← use checked (← s_list.read i).price)

/-- `s_dash`. -/
def pslShare (N : ℕ) (s_list : Vec Order) (new_order : Order) (w z : Vec Wire) : Build R ℕ := do
  let k := N / 2
  let tmp1 ← addGate2 .kSub (← use checked new_order.unit) (← wireAt checked w (k - 1))
  let tmp2 ← addGate2 .kSub tmp1 (← unitAt checked s_list (k - 1))
  let tmp3 ← addGate2 .kMul tmp2 (← wireAt checked z (k + 1))
  addGate2 .kAdd tmp3 (← unitAt checked s_list (k - 1))

/-- `g`: where the new order's price is below that of an order of the buy list. -/
def insertBelow (M : ℕ) (b_list : Vec Order) (new_order : Order) : Build R (Vec Wire) := do
  let tmp4 ← addGate2 .kSub (← use checked new_order.price)
    (← use checked (← b_list.read 0).price)
  let g ← (Vec.new (M + 2)).write 0 (some (← addGate1 .kLtz tmp4))
  let gtemp ← (List.range' 1 M).foldlM (fun (gtemp : Vec Wire × Vec Wire) i => do
    let temp_1 ← addConstOpGate .kConstAdd (← use checked (← b_list.read i).price) (1 : R)
    let temp_2 ← gtemp.2.write i
      (some (← addGate2 .kSub (← use checked new_order.price) temp_1))
    let g ← gtemp.1.write i (some (← addGate1 .kLtz (← wireAt checked temp_2 i)))
    pure (g, temp_2)) (g, Vec.new (M + 2))
  pure gtemp.1

/-- One position of `f'` and `f''`: the negation of `source[i]` into the second vector, and its product
with `operand` into the first. -/
def negateAndMul (i : ℕ) (source : Vec Wire) (operand : Vec Wire) (j : ℕ)
    (out : Vec Wire × Vec Wire) : Build R (Vec Wire × Vec Wire) := do
  let tmp ← addConstOpGate .kConstMul (← wireAt checked source i) (-1 : R)
  let negation ← out.2.write i (some (← addConstOpGate .kConstAdd tmp (1 : R)))
  let product ← out.1.write i
    (some (← addGate2 .kMul (← wireAt checked negation i) (← wireAt checked operand j)))
  pure (product, negation)

/-- `h` and `tmp6`. -/
def insertEdge (M : ℕ) (g : Vec Wire) : Build R (Vec Wire × Vec Wire) := do
  let h ← negateAndMul (R := R) checked 0 g g 0 (Vec.new (M + 2), Vec.new (M + 2))
  (List.range' 1 M).foldlM (fun h i => negateAndMul (R := R) checked i g g (i - 1) h) h

/-- `u` and `tmp8`. -/
def insertRest (M : ℕ) (h tmp6 : Vec Wire) : Build R (Vec Wire × Vec Wire) := do
  let u ← negateAndMul (R := R) checked 0 h tmp6 0 (Vec.new (M + 2), Vec.new (M + 2))
  (List.range' 1 M).foldlM (fun u i => negateAndMul (R := R) checked i h tmp6 i u) u

/-- One member of an order of `updated_buy_list`. -/
def selectField (g h u here first new : Wire) : Build R ℕ := do
  let new_tmp1 ← addGate2 .kMul (← use checked g) (← use checked here)
  let new_tmp2 ← addGate2 .kMul (← use checked h) (← use checked first)
  let new_tmp3 ← addGate2 .kMul (← use checked u) (← use checked new)
  let new_tmp4 ← addGate2 .kAdd new_tmp1 new_tmp2
  addGate2 .kAdd new_tmp3 new_tmp4

def updateOrder (b_list : Vec Order) (new_order : Order) (g h u : Vec Wire)
    (updated_buy_list : Vec Order) (i : ℕ) : Build R (Vec Order) := do
  let gi ← g.read (i - 1)
  let hi ← h.read (i - 1)
  let ui ← u.read (i - 1)
  let here ← b_list.read i
  let first ← b_list.read 0
  let name ← selectField checked gi hi ui here.name first.name new_order.name
  let unit ← selectField checked gi hi ui here.unit first.unit new_order.unit
  let price ← selectField checked gi hi ui here.price first.price new_order.price
  updated_buy_list.write i ⟨some name, some unit, some price⟩

def updatedBuyList (M : ℕ) (b_list : Vec Order) (new_order : Order) (g h u : Vec Wire) :
    Build R (Vec Order) := do
  let updated_buy_list ← (⟨M + 2, fun _ => .unassigned⟩ : Vec Order).write 0
    (← constOrder checked .kConstMul (0 : R) (← b_list.read 0))
  (List.range' 1 M).foldlM (updateOrder checked b_list new_order g h u) updated_buy_list

def getCDACircuit (dp : DarkPool) : Build R DarkPool := do
  let N := dp.s_list_.size
  let M := dp.b_list_.size
  let new_order_ ← newOrder
  let s_list_ ← fillOrders (R := R) checked N new_order_ dp.s_list_
  let b_list_ ← fillOrders (R := R) checked M new_order_ dp.b_list_
  let w ← unitSums (R := R) checked N s_list_
  let t ← pslTests (R := R) checked N s_list_ new_order_ w
  pslOutputs (R := R) checked N s_list_ t
  let _s_dash ← pslShare checked N s_list_ new_order_ w t.z
  let e ← addGate1 .kEqz (← use checked new_order_.unit)
  let price ← addGate2 .kMul (← use checked new_order_.price) e
  let new_order_ := { new_order_ with price := some price }
  let buy_list_size_ := dp.buy_list_size_ + 1
  let b_list_ := b_list_.resize buy_list_size_ .unassigned
  let b_list_ ← b_list_.write M (← constOrder checked .kConstMul (0 : R) (← b_list_.read 0))
  let g ← insertBelow (R := R) checked M b_list_ new_order_
  let h ← insertEdge (R := R) checked M g
  let u ← insertRest (R := R) checked M h.1 h.2
  let _updated_buy_list ← updatedBuyList (R := R) checked M b_list_ new_order_ g h.1 u.1
  pure ⟨s_list_, b_list_, dp.sell_list_size_, buy_list_size_⟩

end CDA

section VM
variable [CommRing R] (checked : Bool)

/-- `temp` and `L`: the sums of the units from order 1 on, and what they leave of `t_wire`. Element 0
of `L` is not written. -/
def leftovers (n t_wire : ℕ) (order : Vec Order) (temp L : Vec Wire) : Build R (Vec Wire × Vec Wire) :=
  (List.range' 1 (n - 1)).foldlM (fun (tempL : Vec Wire × Vec Wire) i => do
    let temp ← tempL.1.write i (some (← addGate2 .kAdd (← unitAt checked order i)
      (← wireAt checked tempL.1 (i - 1))))
    let L ← tempL.2.write i (some (← addGate2 .kSub t_wire (← wireAt checked temp i)))
    pure (temp, L)) (temp, L)

/-- The vectors `z_1`, `z_2` and `temp_1` to `temp_6` of one side. -/
structure ClampVectors where
  z_1 : Vec Wire
  z_2 : Vec Wire
  temp_1 : Vec Wire
  temp_2 : Vec Wire
  temp_3 : Vec Wire
  temp_4 : Vec Wire
  temp_5 : Vec Wire
  temp_6 : Vec Wire

/-- The volume of order `i`: 0 when less than one unit is left, else its unit and at most what is
left. -/
def clampOrder (L : Vec Wire) (state : ClampVectors × Vec Order) (i : ℕ) :
    Build R (ClampVectors × Vec Order) := do
  let (v, order) := state
  let temp_1 ← v.temp_1.write i
    (some (← addConstOpGate .kConstAdd (← wireAt checked L i) (-1 : R)))
  let temp_2 ← v.temp_2.write i
    (some (← addGate2 .kSub (← wireAt checked L i) (← unitAt checked order i)))
  let z_1 ← v.z_1.write i (some (← addGate1 .kLtz (← wireAt checked temp_1 i)))
  let z_2 ← v.z_2.write i (some (← addGate1 .kLtz (← wireAt checked temp_2 i)))
  let temp_3 ← v.temp_3.write i
    (some (← addGate2 .kMul (← wireAt checked temp_2 i) (← wireAt checked z_2 i)))
  let temp_4 ← v.temp_4.write i
    (some (← addConstOpGate .kConstMul (← wireAt checked z_1 i) (-1 : R)))
  let temp_5 ← v.temp_5.write i
    (some (← addConstOpGate .kConstAdd (← wireAt checked temp_4 i) (1 : R)))
  let temp_6 ← v.temp_6.write i
    (some (← addGate2 .kAdd (← wireAt checked temp_3 i) (← unitAt checked order i)))
  let unit ← addGate2 .kMul (← wireAt checked temp_6 i) (← wireAt checked temp_5 i)
  let order ← order.write i { (← order.read i) with unit := some unit }
  setAsOutput (← unitAt checked order i)
  pure (⟨z_1, z_2, temp_1, temp_2, temp_3, temp_4, temp_5, temp_6⟩, order)

/-- The loop of one side over `n` orders; `n56` is the size of `temp_5` and `temp_6`. -/
def clampOrders (n n56 : ℕ) (L : Vec Wire) (order : Vec Order) : Build R (Vec Order) := do
  let state ← (List.range n).foldlM (clampOrder (R := R) checked L)
    (⟨Vec.new n, Vec.new n, Vec.new n, Vec.new n, Vec.new n, Vec.new n, Vec.new n56, Vec.new n56⟩,
      order)
  pure state.2

/-- `t_wire` from the sums of the units of both sides. -/
def tWire (s_wire b_wire : ℕ) : Build R ℕ := do
  let tmp ← addGate2 .kSub b_wire s_wire
  let f_wire ← addGate1 .kLtz tmp
  let tmp_diff ← addGate2 .kSub s_wire b_wire
  let tmp_sel ← addGate2 .kMul tmp_diff f_wire
  addGate2 .kAdd tmp_sel b_wire

/-- The sums of the units after the first two. -/
def addUnits (n wire : ℕ) (order : Vec Order) : Build R ℕ :=
  (List.range' 2 (n - 2)).foldlM (fun wire i => do
    addGate2 .kAdd wire (← unitAt checked order i)) wire

/-- `getVMCircuit`. The vectors `bz_temp_5` and `bz_temp_6` have the size of the sell list. -/
def getVMCircuit (dp : DarkPool) : Build R DarkPool := do
  let N := dp.s_list_.size
  let M := dp.b_list_.size
  let _new_order_ ← newOrder
  let s_wire ← addGate2 .kAdd (← unitAt checked dp.s_list_ 0) (← unitAt checked dp.s_list_ 1)
  let b_wire ← addGate2 .kAdd (← unitAt checked dp.b_list_ 0) (← unitAt checked dp.b_list_ 1)
  let s_wire ← addUnits checked N s_wire dp.s_list_
  let b_wire ← addUnits checked M b_wire dp.b_list_
  let t_wire ← tWire s_wire b_wire
  let temp_s ← (Vec.new N).write 0
    (some (← addConstOpGate .kConstMul (← unitAt checked dp.s_list_ 0) (0 : R)))
  let temp_b ← (Vec.new M).write 0
    (some (← addConstOpGate .kConstMul (← unitAt checked dp.b_list_ 0) (0 : R)))
  let s ← leftovers checked N t_wire dp.s_list_ temp_s (Vec.new N)
  let b ← leftovers checked M t_wire dp.b_list_ temp_b (Vec.new M)
  let s_list_ ← clampOrders (R := R) checked N N s.2 dp.s_list_
  let b_list_ ← clampOrders (R := R) checked M N b.2 dp.b_list_
  pure { dp with s_list_ := s_list_, b_list_ := b_list_ }

end VM

end DarkPool

end QSync
