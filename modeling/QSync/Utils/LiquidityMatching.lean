import QSync.Utils.Generators

/-! # Gridlock resolution

`SoDoGridLock` (`utils/liquidity_matching.h`) builds a circuit for payments between banks: it nets the
selected transactions of a queue, and drops the last selected one of every bank whose new balance is
negative. The object's `circ_` is the state of `Build`; its other members are `SoDoGridLock` here.
Vectors are functions of the position.
-/

namespace QSync
set_option autoImplicit false
set_option maxHeartbeats 250000

/-- Source-open, destination-open transaction: the ids are public, the amount is a wire. -/
structure SoDoTxn where
  src : ℕ
  dest : ℕ
  amt : ℕ
deriving DecidableEq, Repr, Inhabited

/-- The banks and the queue; `newTransaction` checks the ids. -/
structure SoDoGridLock where
  num_banks_ : ℕ
  txn_queue_ : List SoDoTxn
  ids_lt : ∀ txn ∈ txn_queue_, txn.src < num_banks_ ∧ txn.dest < num_banks_

/-- `imap[wid] = v`. -/
def InputMap.set {R : Type} (imap : InputMap R) (wid : ℕ) (v : R) : InputMap R :=
  ⟨insert wid imap.keys, Function.update imap.val wid v⟩

/-- An empty slot of `vs` and `vr`. `wire_t` is unsigned, so in the source this is its largest value;
wires are natural numbers here and no wire is `-1`. -/
def NO_WIRE : ℤ := -1

namespace SoDoGridLock
open Circuit
variable {R : Type}

def init (num_banks : ℕ) : SoDoGridLock := ⟨num_banks, [], by simp⟩

/-- `txn_queue_[i]`. -/
def txn (gl : SoDoGridLock) (i : ℕ) : SoDoTxn := gl.txn_queue_.getD i default

def newTransaction (gl : SoDoGridLock) (src dest : ℕ) : Build R (ℕ × SoDoGridLock) :=
  if h : src < gl.num_banks_ ∧ dest < gl.num_banks_ then do
    let amt ← newInputWire
    pure (amt, { gl with
      txn_queue_ := gl.txn_queue_ ++ [⟨src, dest, amt⟩]
      ids_lt := fun txn htxn => by
        obtain htxn | htxn := List.mem_append.mp htxn
        · exact gl.ids_lt txn htxn
        · rw [List.mem_singleton.mp htxn]
          exact h })
  else throw "Source and destination ids are zero indexed."

/-- One pass of the loop of `treeMult`. -/
def multPairs : List ℕ → Build R (List ℕ)
  | a :: b :: rest => do
    let w ← addGate2 .kMul a b
    let curr_level ← multPairs rest
    pure (w :: curr_level)
  | prev_level => pure prev_level

/-- The loop of `treeMult` for at most `fuel` passes. It has no result on an empty vector. -/
def treeMultLoop : ℕ → List ℕ → Build R ℕ
  | _, [w] => pure w
  | 0, _ => throw "no end"
  | fuel + 1, prev_level => do
    let curr_level ← multPairs prev_level
    treeMultLoop fuel curr_level

def treeMult (inputs : List ℕ) : Build R ℕ := treeMultLoop inputs.length inputs

/-- `vs[bank]` or `vr[bank]` after one transaction: its first wire, or the sum so far and this one. -/
def accumulate (slots : ℕ → ℤ) (bank w : ℕ) : Build R (ℕ → ℤ) :=
  if slots bank = NO_WIRE then pure (Function.update slots bank w)
  else do
    let sum ← addGate2 .kAdd (slots bank).toNat w
    pure (Function.update slots bank sum)

def newBalances (gl : SoDoGridLock) (balance selected : ℕ → ℕ) : Build R (ℕ → ℕ) := do
  let positions := List.range gl.txn_queue_.length
  let filter_txn_amt ← fillWires positions
    (fun i => addGate2 .kMul (selected i) (gl.txn i).amt) fun _ => 0
  let (vs, vr) ← positions.foldlM (fun (slots : (ℕ → ℤ) × (ℕ → ℤ)) i => do
    let vs ← accumulate slots.1 (gl.txn i).src (filter_txn_amt i)
    let vr ← accumulate slots.2 (gl.txn i).dest (filter_txn_amt i)
    pure (vs, vr)) (fun _ => NO_WIRE, fun _ => NO_WIRE)
  fillWires (List.range gl.num_banks_) (fun i => do
    let sent ← (if vs i ≠ NO_WIRE then addGate2 .kSub (balance i) (vs i).toNat
      else pure (balance i))
    if vr i ≠ NO_WIRE then addGate2 .kAdd sent (vr i).toNat else pure sent) fun _ => 0

/-- `txn_by_src`: the positions of each bank's transactions. -/
def txnBySrc (gl : SoDoGridLock) : ℕ → List ℕ :=
  (List.range gl.txn_queue_.length).foldl (fun txn_by_src i =>
    let src := (gl.txn i).src
    Function.update txn_by_src src (txn_by_src src ++ [i])) fun _ => []

variable [CommRing R]

/-- `1 - w` for a bit, in two gates. -/
def negated (w : ℕ) : Build R ℕ := do
  let wtemp ← addConstOpGate .kConstMul w (-1 : R)
  addConstOpGate .kConstAdd wtemp (1 : R)

/-- The new selection of one bank's transactions `stxn`. -/
def updateBank (selected : ℕ → ℕ) (is_negative is_positive : ℕ) (stxn : List ℕ)
    (new_selected : ℕ → ℕ) : Build R (ℕ → ℕ) := do
  let new_selected ← (List.range (stxn.length - 1)).foldlM (fun new_selected j => do
    let txn_id := stxn.getD j 0
    let xprod ← addGate2 .kMul (selected txn_id) (selected (stxn.getD (j + 1) 0))
    let term1 ← addGate2 .kMul xprod is_negative
    let term2 ← addGate2 .kMul (selected txn_id) is_positive
    let w ← addGate2 .kAdd term1 term2
    pure (Function.update new_selected txn_id w)) new_selected
  match stxn.getLast? with
  | none => pure new_selected
  | some txn_id =>
    let w ← addGate2 .kMul (selected txn_id) is_positive
    pure (Function.update new_selected txn_id w)

/-- A single iteration. -/
def updateSelectedTransactions (gl : SoDoGridLock) (balance selected : ℕ → ℕ) :
    Build R (ℕ → ℕ) := do
  let banks := List.range gl.num_banks_
  let new_balance ← gl.newBalances balance selected
  let is_negative_balance ← fillWires banks (fun i => addGate1 .kMsb (new_balance i)) fun _ => 0
  let is_positive_balance ← fillWires banks (fun i => negated (is_negative_balance i)) fun _ => 0
  let all_balances_positive ← treeMult (banks.map is_positive_balance)
  setAsOutput all_balances_positive
  let new_selected ← banks.foldlM (fun new_selected i =>
    updateBank selected (is_negative_balance i) (is_positive_balance i) (gl.txnBySrc i)
      new_selected) fun _ => 0
  let is_not_selected ← (List.range gl.txn_queue_.length).mapM fun i => negated (new_selected i)
  let is_deadlock ← treeMult is_not_selected
  setAsOutput is_deadlock
  pure new_selected

/-- New input wires for the positions below `n`, entered in the input map with their values. -/
def initInputs (n : ℕ) (values : ℕ → R) (imap : InputMap R) : Build R ((ℕ → ℕ) × InputMap R) :=
  (List.range n).foldlM (fun (state : (ℕ → ℕ) × InputMap R) i => do
    let w ← newInputWire
    pure (Function.update state.1 i w, state.2.set w (values i))) (fun _ => 0, imap)

def initBalances (gl : SoDoGridLock) (balances : ℕ → R) (imap : InputMap R) :
    Build R ((ℕ → ℕ) × InputMap R) := initInputs gl.num_banks_ balances imap

def initSelectedSet (gl : SoDoGridLock) (imap : InputMap R) : Build R ((ℕ → ℕ) × InputMap R) :=
  initInputs gl.txn_queue_.length (fun _ => 1) imap

end SoDoGridLock

end QSync
