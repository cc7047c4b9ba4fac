import QSync.Asterisk.OfflineRun

/-! # The offline evaluator of Boolean circuits

`OfflineBoolEvaluator` (`asterisk/offline_evaluator.cpp`): the walk over one Boolean circuit whose
inputs are dealt by the parties or, as dealer 0, by the trusted party from `bit_mask_map`.
`offlineBool_consistent`: when it is over, what every party has is consistent with the trusted party.
-/

namespace QSync
open Network
set_option autoImplicit false
set_option maxHeartbeats 250000

/-! ## The evaluator -/

section Model
variable (nP id : ℕ) (input_pid_map : ℕ → ℕ) (bit_mask_map : InputMap BoolRing)

/-- One gate, with the dealer and the bit that the two maps give for it. -/
def preprocessBoolGate (key : BoolRing) (keySh : List BoolRing) (pid : ℕ) (bit_mask : BoolRing)
    (gates : BoolGates) (gate : Gate BoolRing) : Draw BoolRing BoolGates :=
  match gate.op with
  | .kInp =>
    if pid ≠ 0 then do
      let (mask, mask_value) ← randomShareWithParty nP id pid key keySh
      pure (Function.update gates gate.out ⟨mask, .input pid mask_value⟩)
    else do
      -- `mask_value` keeps its initial value
      let mask ← randomShareSecret nP id bit_mask key keySh
      pure (Function.update gates gate.out ⟨mask, .input 0 0⟩)
  | op => do
    let pregate ← arithmeticGate nP id key keySh gates op
    pure (setGate gates gate.out pregate)

/-- One gate. `bit_mask_map.at` is called for every input, whoever deals it. -/
def offlineBoolGate (key : BoolRing) (keySh : List BoolRing) (gates : BoolGates)
    (gate : Gate BoolRing) : ExceptT String (Draw BoolRing) BoolGates := do
  let bit_mask ← if gate.type = .kInp then ExceptT.mk (pure (bit_mask_map.at gate.out)) else pure 0
  ExceptT.lift (preprocessBoolGate nP id key keySh (input_pid_map gate.out) bit_mask gates gate)

/-- What `setWireMasksParty` leaves in the evaluator, with the key shares it has drawn. -/
structure OfflineBoolResult where
  key_sh_ : BoolRing
  keySh : List BoolRing
  gates : BoolGates

def OfflineBoolEvaluator.setWireMasksParty (circ : LevelOrderedCircuit BoolRing) :
    ExceptT String (Draw BoolRing) OfflineBoolResult := do
  let (key, keySh) ← ExceptT.lift (keyGen nP id)
  let gates ← circ.gates_by_level.foldlM (fun gates level =>
    level.foldlM (offlineBoolGate nP id input_pid_map bit_mask_map key keySh) gates) fun _ => default
  pure ⟨key, keySh, gates⟩

/-- Go on with the result of a walk; an exception ends the party. -/
def orThrow {α β : Type} (r : Except String α × DrawState BoolRing)
    (next : α → DrawState BoolRing → Proc ℕ β) : Proc ℕ β :=
  match r with
  | (.ok a, s) => next a s
  | (.error _, _) => .stuck

/-- `OfflineBoolEvaluator::setWireMasks`. Returns what the evaluator holds at the end together with
the streams and queues. -/
def OfflineBoolEvaluator.setWireMasks (circ : LevelOrderedCircuit BoolRing) (rgen : RandGenPool) :
    Proc ℕ (OfflineBoolResult × DrawState BoolRing) :=
  let walk := fun queues =>
    (OfflineBoolEvaluator.setWireMasksParty nP id input_pid_map bit_mask_map circ).run ⟨rgen, queues⟩
  if id ≠ nP then
    orThrow (walk (readQueues [] [] [])) fun r s =>
      if id = 0 then do
        Proc.sendTo nP (encodeWords SIZE_T (queueLengths s.queues))
        Proc.sendTo nP (rawBits.encode (flattenQueues s.queues))
        pure (r, s)
      else pure (r, s)
  else do
    let lengths ← decodeWords SIZE_T 4 <$> Proc.recvFrom 0 (SIZE_T * 4)
    let total_comm := lengths.getD 0 0
    let offline_comm ← rawBits.decode total_comm <$> Proc.recvFrom 0 (rawBits.size total_comm)
    orThrow (walk (splitQueues offline_comm lengths)) fun r s => pure (r, s)

end Model

/-! ## Walks that do not throw -/

section Walk
variable (nP id : ℕ) (ipm : ℕ → ℕ) (bit_mask_map : InputMap BoolRing)

/-- Every input of the circuit has an entry. -/
def InputMap.Covers {R : Type} (inputs : InputMap R) (circ : Circuit R) : Prop :=
  ∀ g ∈ circ.gates_, g.type = .kInp → g.out ∈ inputs.keys

/-- The walk when every input has an entry. -/
def boolWalk (circ : LevelOrderedCircuit BoolRing) : Draw BoolRing OfflineBoolResult := do
  let (key, keySh) ← keyGen nP id
  let gates ← circ.gates_by_level.flatten.foldlM (fun gates gate =>
    preprocessBoolGate nP id key keySh (ipm gate.out) (bit_mask_map.val gate.out) gates gate)
    fun _ => default
  pure ⟨key, keySh, gates⟩

variable {nP id ipm bit_mask_map}

theorem preprocessBoolGate_congr {key : BoolRing} {keySh : List BoolRing} {pid : ℕ}
    {gates : BoolGates} {gate : Gate BoolRing} (ht : gate.type ≠ .kInp) (bit bit' : BoolRing) :
    preprocessBoolGate nP id key keySh pid bit gates gate =
      preprocessBoolGate nP id key keySh pid bit' gates gate := by
  obtain ⟨op, out⟩ := gate
  cases op <;> first | rfl | exact absurd rfl ht

theorem offlineBoolGate_eq {key : BoolRing} {keySh : List BoolRing} {gates : BoolGates}
    {gate : Gate BoolRing} (h : gate.type = .kInp → gate.out ∈ bit_mask_map.keys) :
    offlineBoolGate nP id ipm bit_mask_map key keySh gates gate =
      ExceptT.lift (preprocessBoolGate nP id key keySh (ipm gate.out) (bit_mask_map.val gate.out)
        gates gate) := by
  by_cases ht : gate.type = .kInp
  · have hat : bit_mask_map.at gate.out = .ok (bit_mask_map.val gate.out) := if_pos (h ht)
    rw [offlineBoolGate, if_pos ht, hat]
    rfl
  · rw [offlineBoolGate, if_neg ht, pure_bind, preprocessBoolGate_congr ht]

theorem foldlM_lift {α β : Type} {σ : Type} (f : β → α → ExceptT String (StateM σ) β)
    (f' : β → α → StateM σ β) (xs : List α) (h : ∀ b, ∀ x ∈ xs, f b x = ExceptT.lift (f' b x)) (b : β) :
    xs.foldlM f b = ExceptT.lift (xs.foldlM f' b) := by
  induction xs generalizing b with
  | nil => rfl
  | cons x xs ih =>
    rw [List.foldlM_cons, List.foldlM_cons, h b x List.mem_cons_self]
    have hrest : ∀ b, xs.foldlM f b = ExceptT.lift (xs.foldlM f' b) := fun b =>
      ih (fun b y hy => h b y (List.mem_cons_of_mem _ hy)) b
    simp only [hrest]
    rfl

theorem setWireMasksParty_eq {circ : Circuit BoolRing} (h : bit_mask_map.Covers circ) :
    OfflineBoolEvaluator.setWireMasksParty nP id ipm bit_mask_map circ.orderGatesByLevel =
      ExceptT.lift (boolWalk nP id ipm bit_mask_map circ.orderGatesByLevel) := by
  have hloop : ∀ key keySh, circ.orderGatesByLevel.gates_by_level.foldlM (fun gates level =>
      level.foldlM (offlineBoolGate nP id ipm bit_mask_map key keySh) gates) (fun _ => default) =
      ExceptT.lift (circ.orderGatesByLevel.gates_by_level.flatten.foldlM (fun gates gate =>
        preprocessBoolGate nP id key keySh (ipm gate.out) (bit_mask_map.val gate.out) gates gate)
        fun _ => default) := fun key keySh => by
    rw [foldlM_flatten]
    exact foldlM_lift _ _ _ (fun b g hg => offlineBoolGate_eq (h g ((circ.mem_levels g).mp hg))) _
  rw [OfflineBoolEvaluator.setWireMasksParty, boolWalk]
  simp only [hloop]
  rfl

theorem run_bind_apply {α β σ : Type} (m : ExceptT String (StateM σ) α)
    (f : α → ExceptT String (StateM σ) β) (s : σ) : (m >>= f).run s = match m.run s with
      | (.ok a, s') => (f a).run s'
      | (.error e, s') => (.error e, s') := by
  change ExceptT.bindCont f (m.run s).1 (m.run s).2 = _
  rcases m.run s with ⟨_ | _, _⟩ <;> rfl

theorem foldlM_throws {α β σ : Type} (f : β → α → ExceptT String (StateM σ) β) {xs : List α} {x : α}
    (hx : x ∈ xs) (h : ∀ b s, ∃ e s', (f b x).run s = (.error e, s')) (b : β) (s : σ) :
    ∃ e s', (xs.foldlM f b).run s = (.error e, s') := by
  induction xs generalizing b s with
  | nil => cases hx
  | cons y ys ih =>
    rw [List.foldlM_cons, run_bind_apply]
    obtain rfl | hx := List.mem_cons.mp hx
    · obtain ⟨e, s', he⟩ := h b s
      rw [he]
      exact ⟨e, s', rfl⟩
    · obtain ⟨_ | b', s'⟩ := (f b y).run s
      · exact ⟨_, _, rfl⟩
      · exact ih hx b' s'

variable (nP id ipm) in
theorem setWireMasksParty_throws {circ : Circuit BoolRing} (h : ¬ bit_mask_map.Covers circ)
    (s : DrawState BoolRing) : ∃ e s', (OfflineBoolEvaluator.setWireMasksParty nP id ipm bit_mask_map
      circ.orderGatesByLevel).run s = (.error e, s') := by
  simp only [InputMap.Covers, not_forall] at h
  obtain ⟨g, hg, ht, hkey⟩ := h
  have hat : bit_mask_map.at g.out = .error "out_of_range" := if_neg hkey
  have hgate : ∀ key keySh gates t, ∃ e t',
      (offlineBoolGate nP id ipm bit_mask_map key keySh gates g).run t = (.error e, t') := by
    intro key keySh gates t
    rw [offlineBoolGate, if_pos ht, hat]
    exact ⟨_, _, rfl⟩
  rcases hkeys : keyGen nP id s with ⟨key, t⟩
  obtain ⟨e, s', he⟩ := foldlM_throws _ ((circ.mem_levels g).mpr hg) (hgate key.1 key.2)
    (fun _ => default) t
  rw [← foldlM_flatten] at he
  have hlift : (ExceptT.lift (keyGen nP id) : ExceptT String (Draw BoolRing) _).run s =
      (.ok key, t) := by
    change (Except.ok (keyGen nP id s).1, (keyGen nP id s).2) = _
    rw [hkeys]
  rw [OfflineBoolEvaluator.setWireMasksParty, run_bind_apply, hlift]
  dsimp only
  rw [run_bind_apply, he]
  exact ⟨e, s', rfl⟩

end Walk

/-! ## Consistency -/

section Consistency
variable {nP i : ℕ} {ipm : ℕ → ℕ} {bit_mask_map : InputMap BoolRing}
  {Q : QueueName → List BoolRing} {f : ℕ → BoolRing} {key : BoolRing} {keySh keySh' : List BoolRing}

/-- What holds of one gate: party `i` holds its components of what the trusted party has, which opens
to what it should. An input dealt by the trusted party has its entry of `bit_mask_map` as mask. -/
structure OfflineBoolGood (nP : ℕ) (f : ℕ → BoolRing) (i : ℕ) (ipm : ℕ → ℕ)
    (bit_mask_map : InputMap BoolRing) (c d : BoolGates) (g : Gate BoolRing) : Prop where
  agrees : PreprocGate.Agrees nP f i noComparison (c g.out) (d g.out)
  opens : Opens (fun w => (c w).secret) g.op (c g.out)
  dealt : g.type = .kInp → ipm g.out ≠ 0 → (c g.out).ext = .input (ipm g.out) (c g.out).secret
  bit_mask : g.type = .kInp → ipm g.out = 0 →
    (c g.out).ext = .input 0 0 ∧ (c g.out).secret = bit_mask_map.val g.out

theorem OfflineBoolGood.congr {c d c' d' : BoolGates} {g : Gate BoolRing} {W : Set ℕ}
    (h : OfflineBoolGood nP f i ipm bit_mask_map c d g) (hc : ∀ w ∈ W, c' w = c w)
    (hd : ∀ w ∈ W, d' w = d w) (hout : g.out ∈ W) (hin : ∀ w ∈ g.inputs, w ∈ W) :
    OfflineBoolGood nP f i ipm bit_mask_map c' d' g := by
  refine ⟨?_, ?_, ?_, ?_⟩
  · rw [hc _ hout, hd _ hout]
    exact h.agrees
  · rw [hc _ hout]
    exact h.opens.congr fun w hw => by rw [hc _ (hin w hw)]
  · rw [hc _ hout]
    exact h.dealt
  · rw [hc _ hout]
    exact h.bit_mask

theorem preprocessBoolGate_of_ne {id pid : ℕ} {bit_mask : BoolRing} {gates : BoolGates}
    {g : Gate BoolRing} (ht : g.type ≠ .kInp) :
    preprocessBoolGate nP id key keySh pid bit_mask gates g =
      arithmeticGate nP id key keySh gates g.op >>= fun pregate =>
        pure (setGate gates g.out pregate) := by
  obtain ⟨op, out⟩ := g
  cases op <;> first | rfl | exact absurd rfl ht

theorem preprocessBoolGate_sim (hi : 1 ≤ i) (hn : i ≤ nP) (hk : KeysOk nP f key keySh)
    {c d : BoolGates} {g : Gate BoolRing} (ht : g.type = .kInp ∨ g.type.arithmetic)
    (hin : ∀ w ∈ g.inputs, MaskShare.Agrees nP f i (c w).mask (d w).mask)
    (hout : g.out ∉ g.inputs) :
    (inStep nP i False Q).Sim
      (preprocessBoolGate nP 0 key keySh (ipm g.out) (bit_mask_map.val g.out) c g)
      (preprocessBoolGate nP i (f i) keySh' (ipm g.out) (bit_mask_map.val g.out) d g)
      fun c' d' => ∃ pc pd, c' = Function.update c g.out pc ∧ d' = Function.update d g.out pd ∧
        OfflineBoolGood nP f i ipm bit_mask_map c' d' g := by
  by_cases hinp : g.type = .kInp
  · obtain ⟨op, out⟩ := g
    obtain rfl := Op.eq_kInp hinp
    by_cases hp : ipm out = 0
    · simp only [preprocessBoolGate, hp, ne_eq, not_true_eq_false, if_false]
      refine (randomShareSecret_coupled hi hn hk keySh' _ _).sim.bind (fun _ => .pure _)
        fun a b hab => .pure ⟨⟨a, .input 0 0⟩, ⟨b, .input 0 0⟩, rfl, rfl, ?_, trivial,
          fun _ h => absurd hp h, fun _ _ => ?_⟩
      · rw [Function.update_self, Function.update_self]
        exact ⟨hab.1, rfl, fun _ => rfl⟩
      · rw [Function.update_self]
        exact ⟨rfl, hab.2⟩
    · simp only [preprocessBoolGate, ne_eq, hp, not_false_eq_true, if_true]
      refine (randomShareWithParty_coupled hi hn hk keySh' _).sim.bind (fun _ => .pure _)
        fun a b hab => .pure ⟨⟨a.1, .input (ipm out) a.2⟩, ⟨b.1, .input (ipm out) b.2⟩, rfl, rfl, ?_,
          trivial, fun _ _ => ?_, fun _ h => absurd h hp⟩
      · rw [Function.update_self, Function.update_self]
        exact ⟨hab.1, rfl, hab.2.2⟩
      · rw [Function.update_self, ← hab.2.1]
        rfl
  · have har := ht.resolve_left hinp
    rw [preprocessBoolGate_of_ne hinp, preprocessBoolGate_of_ne hinp]
    refine ((arithmeticGate_coupled hi hn hk keySh' noComparison c d g.op).2 hin).bind
      (fun _ => .pure _) fun a b hab => .pure ?_
    rw [GatePost, if_pos har] at hab
    obtain ⟨pc, pd, rfl, rfl, hag, hop⟩ := hab
    refine ⟨pc, pd, rfl, rfl, ?_, ?_, fun h => absurd h hinp, fun h => absurd h hinp⟩
    · rw [setGate, setGate, Function.update_self, Function.update_self]
      exact hag
    · rw [setGate, Function.update_self]
      refine hop.congr fun w hw => ?_
      have hne : w ≠ g.out := fun h => hout (h ▸ hw)
      rw [Function.update_of_ne hne]

theorem preprocessBoolGate_grows (hi : 1 ≤ i) (hn : i ≤ nP) (hk : KeysOk nP f key keySh) (pid : ℕ)
    (bit_mask : BoolRing) (c : BoolGates) (g : Gate BoolRing) :
    (inStep nP i False Q).Grows (preprocessBoolGate nP 0 key keySh pid bit_mask c g) := by
  by_cases hinp : g.type = .kInp
  · obtain ⟨op, out⟩ := g
    obtain rfl := Op.eq_kInp hinp
    by_cases hp : pid = 0
    · simp only [preprocessBoolGate, hp, ne_eq, not_true_eq_false, if_false]
      exact (randomShareSecret_coupled hi hn hk keySh bit_mask 0).grows.bind fun _ => .pure _
    · simp only [preprocessBoolGate, ne_eq, hp, not_false_eq_true, if_true]
      exact (randomShareWithParty_coupled hi hn hk keySh pid).grows.bind fun _ => .pure _
  · rw [preprocessBoolGate_of_ne hinp]
    exact (arithmeticGate_coupled hi hn hk keySh noComparison c c g.op).1.bind fun _ => .pure _

/-- What holds when the walk over a circuit is over. -/
structure BoolWalkPost (nP i : ℕ) (ipm : ℕ → ℕ) (bit_mask_map : InputMap BoolRing)
    (circ : Circuit BoolRing) (tp party : OfflineBoolResult) : Prop where
  keys : KeysOk nP (fun j => tp.keySh.getD j 0) tp.key_sh_ tp.keySh
  own : party.key_sh_ = tp.keySh.getD i 0
  gates : ∀ g ∈ circ.gates_, OfflineBoolGood nP (fun j => tp.keySh.getD j 0) i ipm bit_mask_map
    tp.gates party.gates g

theorem boolGates_coupled (hi : 1 ≤ i) (hn : i ≤ nP) (hk : KeysOk nP f key keySh)
    (keySh' : List BoolRing) (circ : Circuit BoolRing)
    (htypes : ∀ g ∈ circ.gates_, g.type = .kInp ∨ g.type.arithmetic) :
    (inStep nP i False Q).Coupled
      (circ.orderGatesByLevel.gates_by_level.flatten.foldlM (fun gates gate => preprocessBoolGate nP
        0 key keySh (ipm gate.out) (bit_mask_map.val gate.out) gates gate) fun _ => default)
      (circ.orderGatesByLevel.gates_by_level.flatten.foldlM (fun gates gate => preprocessBoolGate nP
        i (f i) keySh' (ipm gate.out) (bit_mask_map.val gate.out) gates gate) fun _ => default)
      fun c d => ∀ g ∈ circ.gates_, OfflineBoolGood nP f i ipm bit_mask_map c d g := by
  refine gatesLoop _ circ (OfflineBoolGood nP f i ipm bit_mask_map)
    (fun c g => preprocessBoolGate_grows hi hn hk _ _ c g) (fun h => h.congr)
    (fun c d g hg hin hout => preprocessBoolGate_sim hi hn hk (htypes g hg) (fun w hw => ?_) hout) _ _
  obtain ⟨g', hg', rfl⟩ := hin w hw
  exact hg'.agrees.mask

theorem boolWalk_coupled (hi : 1 ≤ i) (hn : i ≤ nP) (circ : Circuit BoolRing)
    (htypes : ∀ g ∈ circ.gates_, g.type = .kInp ∨ g.type.arithmetic) :
    (inStep nP i False Q).Sim (boolWalk nP 0 ipm bit_mask_map circ.orderGatesByLevel)
      (boolWalk nP i ipm bit_mask_map circ.orderGatesByLevel)
      (BoolWalkPost nP i ipm bit_mask_map circ) := by
  refine (keyGen_coupled hi hn).sim.bind_of (fun s => ?_) fun a b hab => ?_
  · exact (boolGates_coupled hi hn (keyGen_ok nP s) [] circ htypes).grows.bind fun _ => .pure _
  · obtain ⟨b1, b2⟩ := b
    obtain ⟨hk, rfl⟩ := hab
    exact (boolGates_coupled hi hn hk b2 circ htypes).sim.bind (fun _ => .pure _)
      fun c d hcd => .pure ⟨hk, rfl, hcd⟩

end Consistency

/-! ## All parties -/

section Run
variable {nP : ℕ} {ipm : ℕ → ℕ} {bit_mask_map : InputMap BoolRing}

/-- What party `id` has when `setWireMasks` is over: the last party has walked with the queues the
trusted party has filled. -/
def offlineBoolResult (nP : ℕ) (ipm : ℕ → ℕ) (bit_mask_map : InputMap BoolRing)
    (circ : LevelOrderedCircuit BoolRing) (rgens : ℕ → RandGenPool) (id : ℕ) :
    OfflineBoolResult × DrawState BoolRing :=
  let walk := fun id queues => boolWalk nP id ipm bit_mask_map circ ⟨rgens id, queues⟩
  if id = nP then walk id (rewound (walk 0 (readQueues [] [] [])).2.queues)
  else walk id (readQueues [] [] [])

theorem setWireMasks_zero (hnP : 1 ≤ nP) {circ : Circuit BoolRing}
    (hcovers : bit_mask_map.Covers circ) (rgen : RandGenPool) :
    OfflineBoolEvaluator.setWireMasks nP 0 ipm bit_mask_map circ.orderGatesByLevel rgen =
      let tp := boolWalk nP 0 ipm bit_mask_map circ.orderGatesByLevel ⟨rgen, readQueues [] [] []⟩
      .send nP (encodeWords SIZE_T (queueLengths tp.2.queues))
        (.send nP (rawBits.encode (flattenQueues tp.2.queues)) (.done tp)) := by
  have hne : (0 : ℕ) ≠ nP := by omega
  simp only [OfflineBoolEvaluator.setWireMasks, if_pos hne, if_true, setWireMasksParty_eq hcovers]
  rfl

theorem setWireMasksParty_run {circ : Circuit BoolRing} (hcovers : bit_mask_map.Covers circ) (id : ℕ)
    (rgen : RandGenPool) (queues : QueueName → Queue BoolRing) :
    (OfflineBoolEvaluator.setWireMasksParty nP id ipm bit_mask_map circ.orderGatesByLevel).run
        ⟨rgen, queues⟩ =
      let r := boolWalk nP id ipm bit_mask_map circ.orderGatesByLevel ⟨rgen, queues⟩
      (.ok r.1, r.2) := by
  rw [setWireMasksParty_eq hcovers]
  rfl

/-- The last party walks with the queues it has received. -/
theorem does_setWireMasks_last {circ : Circuit BoolRing} (hcovers : bit_mask_map.Covers circ)
    (rgen : RandGenPool) (queues : QueueName → Queue BoolRing) :
    Does (OfflineBoolEvaluator.setWireMasks nP nP ipm bit_mask_map circ.orderGatesByLevel rgen)
      ([encodeWords SIZE_T (queueLengths queues), rawBits.encode (flattenQueues queues)].map (.inp 0))
      (boolWalk nP nP ipm bit_mask_map circ.orderGatesByLevel ⟨rgen, rewound queues⟩) := by
  have hrun : OfflineBoolEvaluator.setWireMasks nP nP ipm bit_mask_map circ.orderGatesByLevel rgen =
      .recv 0 (SIZE_T * 4) fun b0 =>
      .recv 0 (rawBits.size ((decodeWords SIZE_T 4 b0).getD 0 0)) fun b1 =>
        .done (boolWalk nP nP ipm bit_mask_map circ.orderGatesByLevel ⟨rgen,
          splitQueues (rawBits.decode ((decodeWords SIZE_T 4 b0).getD 0 0) b1)
            (decodeWords SIZE_T 4 b0)⟩) := by
    simp only [OfflineBoolEvaluator.setWireMasks, ne_eq, not_true_eq_false, if_false,
      setWireMasksParty_run hcovers, orThrow]
    rfl
  have hlengths : decodeWords SIZE_T 4 (encodeWords SIZE_T (queueLengths queues)) =
      queueLengths queues :=
    decodeWords_encodeWords (by decide : 0 < SIZE_T) (queueLengths queues)
  have hsplit := splitQueues_decode rawBits queues []
  rw [List.append_nil] at hsplit
  rw [hrun]
  refine .recv' (encodeWords_length _ _) ?_
  rw [hlengths]
  refine .recv' (rawBits.encode_length _) ?_
  exact hsplit ▸ .done _

theorem offlineBool_completes (hnP : 1 ≤ nP) {circ : Circuit BoolRing}
    (hcovers : bit_mask_map.Covers circ) (rgens : ℕ → RandGenPool) :
    Completes (Finset.range (nP + 1))
      (fun id => OfflineBoolEvaluator.setWireMasks nP id ipm bit_mask_map circ.orderGatesByLevel
        (rgens id))
      (offlineBoolResult nP ipm bit_mask_map circ.orderGatesByLevel rgens) := by
  set queues := (boolWalk nP 0 ipm bit_mask_map circ.orderGatesByLevel
    ⟨rgens 0, readQueues [] [] []⟩).2.queues with hqueues
  refine @completes_serve _ _ _ _ _ _ 0 [nP] (fun _ => [encodeWords SIZE_T (queueLengths queues),
    rawBits.encode (flattenQueues queues)]) (List.nodup_singleton _) (by simp) (by simp) ?_
    (fun j hj => ?_) fun i _ hi hnot => ?_
  · rw [setWireMasks_zero hnP hcovers, offlineBoolResult, if_neg (by omega)]
    exact .send (.send (.done _))
  · obtain rfl := List.mem_singleton.mp hj
    refine ⟨by omega, ?_⟩
    rw [offlineBoolResult, if_pos rfl]
    exact does_setWireMasks_last hcovers (rgens j) queues
  · have hin : i ≠ nP := fun h => hnot (List.mem_singleton.mpr h)
    simp only [OfflineBoolEvaluator.setWireMasks, if_pos hin, if_neg hi,
      setWireMasksParty_run hcovers, orThrow]
    rw [offlineBoolResult, if_neg hin]
    exact .done _

/-- What the trusted party and party `i` have when `setWireMasks` is over is consistent. -/
structure OfflineBoolConsistent (nP i : ℕ) (ipm : ℕ → ℕ) (bit_mask_map : InputMap BoolRing)
    (circ : Circuit BoolRing) (tp party : OfflineBoolResult × DrawState BoolRing) : Prop where
  stored : BoolWalkPost nP i ipm bit_mask_map circ tp.1 party.1
  /-- The requests made to the stream the two have in common, with their sizes. -/
  draws : tp.2.rgen (.pi i) = party.2.rgen .p0
  /-- The last party has read what the trusted party has filled, to the end. -/
  read : i = nP → ∀ q, party.2.queues q = ⟨(tp.2.queues q).data, (tp.2.queues q).data.length⟩

theorem offlineBoolResult_consistent (hnP : 1 ≤ nP) {circ : Circuit BoolRing}
    (htypes : ∀ g ∈ circ.gates_, g.type = .kInp ∨ g.type.arithmetic) {rgens : ℕ → RandGenPool}
    {i : ℕ} (hi : 1 ≤ i) (hn : i ≤ nP) (hown : rgens 0 (.pi i) = rgens i .p0) :
    OfflineBoolConsistent nP i ipm bit_mask_map circ
      (offlineBoolResult nP ipm bit_mask_map circ.orderGatesByLevel rgens 0)
      (offlineBoolResult nP ipm bit_mask_map circ.orderGatesByLevel rgens i) := by
  have hzero : offlineBoolResult nP ipm bit_mask_map circ.orderGatesByLevel rgens 0 =
      boolWalk nP 0 ipm bit_mask_map circ.orderGatesByLevel ⟨rgens 0, readQueues [] [] []⟩ :=
    if_neg (by omega)
  rw [hzero]
  set tp := boolWalk nP 0 ipm bit_mask_map circ.orderGatesByLevel ⟨rgens 0, readQueues [] [] []⟩
  have hsim : (inStep nP i False fun q => (tp.2.queues q).data).Sim
      (boolWalk nP 0 ipm bit_mask_map circ.orderGatesByLevel) _ _ :=
    boolWalk_coupled hi hn circ htypes
  have hok : (inStep nP i False fun q => (tp.2.queues q).data).ok tp.2 := fun _ => List.prefix_rfl
  have hparty : ∃ queues, offlineBoolResult nP ipm bit_mask_map circ.orderGatesByLevel rgens i =
      boolWalk nP i ipm bit_mask_map circ.orderGatesByLevel ⟨rgens i, queues⟩ ∧
      (i = nP → queues = rewound tp.2.queues) := by
    by_cases hin : i = nP
    · exact ⟨_, if_pos hin, fun _ => rfl⟩
    · exact ⟨_, if_neg hin, fun h => absurd h hin⟩
  obtain ⟨queues, hrun, hqueues⟩ := hparty
  have hrel : InStep nP i False (fun q => (tp.2.queues q).data) ⟨rgens 0, readQueues [] [] []⟩
      ⟨rgens i, queues⟩ := by
    refine ⟨hown, False.elim, fun h q => ?_⟩
    rw [hqueues h]
    cases q <;> rfl
  obtain ⟨hr, hpost⟩ := hsim _ _ hrel hok
  rw [hrun]
  exact ⟨hpost, hr.own, hr.reads⟩

/-- The walks end under every schedule, and then what every party has is consistent with the trusted
party, when `bit_mask_map` has an entry for every input. -/
theorem offlineBool_consistent (nP : ℕ) (hnP : 1 ≤ nP) (circ : Circuit BoolRing)
    (htypes : ∀ g ∈ circ.gates_, g.type = .kInp ∨ g.type.arithmetic) (ipm : ℕ → ℕ)
    (bit_mask_map : InputMap BoolRing) (hcovers : bit_mask_map.Covers circ)
    (rgens : ℕ → RandGenPool) (hrgens : ∀ i, 1 ≤ i → i ≤ nP → rgens 0 (.pi i) = rgens i .p0) :
    ∃ r, Converges (Finset.range (nP + 1))
        (fun id => OfflineBoolEvaluator.setWireMasks nP id ipm bit_mask_map circ.orderGatesByLevel
          (rgens id)) r ∧
      ∀ i, 1 ≤ i → i ≤ nP → OfflineBoolConsistent nP i ipm bit_mask_map circ (r 0) (r i) :=
  ⟨_, (offlineBool_completes hnP hcovers rgens).converges, fun i hi hn =>
    offlineBoolResult_consistent hnP htypes hi hn (hrgens i hi hn)⟩

end Run

/-- Two inputs, the first dealt by the trusted party and the second by party 1, and their product. -/
def dealtCircuit : Circuit BoolRing := Circuit.built do
  let w0 ← Circuit.newInputWire
  let w1 ← Circuit.newInputWire
  let w2 ← Circuit.addGate2 .kMul w0 w1
  Circuit.setAsOutput w2

theorem offlineBool_consistent_dealt :
    ∃ r, Converges (Finset.range 3)
        (fun id => OfflineBoolEvaluator.setWireMasks 2 id (fun w => w) ⟨{0, 1}, fun _ => 1⟩
          dealtCircuit.orderGatesByLevel (.seeded fun _ _ _ => 7)) r ∧
      ∀ i, 1 ≤ i → i ≤ 2 →
        OfflineBoolConsistent 2 i (fun w => w) ⟨{0, 1}, fun _ => 1⟩ dealtCircuit (r 0) (r i) :=
  offlineBool_consistent 2 (by decide) dealtCircuit (by decide) (fun w => w) ⟨{0, 1}, fun _ => 1⟩
    (by simp only [InputMap.Covers]; decide) (fun _ => .seeded fun _ _ _ => 7) fun _ _ _ => rfl

/-- With an entry for the input of the trusted party only, it does not get through its walk. -/
theorem offlineBool_throws :
    ¬ ∃ r, Converges (Finset.range 3)
        (fun id => OfflineBoolEvaluator.setWireMasks 2 id (fun w => w) ⟨{0}, fun _ => 1⟩
          dealtCircuit.orderGatesByLevel (.seeded fun _ _ _ => 7)) r := by
  rintro ⟨r, hr⟩
  refine hr.returns (show 0 ∈ Finset.range 3 by simp) ?_
  have hstuck : OfflineBoolEvaluator.setWireMasks 2 0 (fun w => w) ⟨{0}, fun _ => 1⟩
      dealtCircuit.orderGatesByLevel (.seeded fun _ _ _ => 7) = .stuck := rfl
  rw [hstuck]
  trivial

end QSync
