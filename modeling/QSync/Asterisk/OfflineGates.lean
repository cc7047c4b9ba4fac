import QSync.Asterisk.OfflineShares
import QSync.Utils.GeneratorSpecs

/-! # Preprocessing of gates and of Boolean circuits

What the trusted party and party `i` store for a gate agrees and opens to the right products
(`arithmeticGate_coupled`), and so does what they store for a whole Boolean circuit
(`boolCircuitGates_coupled`).
-/

namespace QSync
open Network
set_option autoImplicit false
set_option maxHeartbeats 250000

section Gates
variable {R X : Type} [RandomRing R] {nP i : ℕ} {shared : Prop} {Q : QueueName → List R}
  {f : ℕ → R} {key : R}
  {keySh : List R}

theorem mapM3_coupled {C : Coupling (DrawState R) (DrawState R)} {F F' : R → Draw R (MaskShare R)}
    {P : MaskShare R → MaskShare R → Prop}
    (h : ∀ x y, C.Coupled (F x) (F' y) fun a b => P a b ∧ a.secret = x) (m m' : Mult3Masks R) :
    C.Coupled (m.mapM F) (m'.mapM F') fun a b =>
      Mult3Masks.All P a b ∧ a.map MaskShare.secret = m := by
  have hg : ∀ x, C.Grows (F x) := fun x => (h x 0).grows
  refine (h _ _).bind (fun _ => (hg _).bind fun _ => (hg _).bind fun _ => (hg _).bind fun _ =>
    .pure _) fun _ _ h1 => ?_
  refine (h _ _).sim.bind (fun _ => (hg _).bind fun _ => (hg _).bind fun _ => .pure _)
    fun _ _ h2 => ?_
  refine (h _ _).sim.bind (fun _ => (hg _).bind fun _ => .pure _) fun _ _ h3 => ?_
  refine (h _ _).sim.bind (fun _ => .pure _) fun _ _ h4 => .pure ⟨⟨h1.1, h2.1, h3.1, h4.1⟩, ?_⟩
  simp only [Mult3Masks.map, h1.2, h2.2, h3.2, h4.2]

theorem mapM4_coupled {C : Coupling (DrawState R) (DrawState R)} {F F' : R → Draw R (MaskShare R)}
    {P : MaskShare R → MaskShare R → Prop}
    (h : ∀ x y, C.Coupled (F x) (F' y) fun a b => P a b ∧ a.secret = x) (m m' : Mult4Masks R) :
    C.Coupled (m.mapM F) (m'.mapM F') fun a b =>
      Mult4Masks.All P a b ∧ a.map MaskShare.secret = m := by
  have hg : ∀ x, C.Grows (F x) := fun x => (h x 0).grows
  have g1 : ∀ {g : MaskShare R → Mult4Masks (MaskShare R)} x, C.Grows (F x >>= fun a => pure (g a)) :=
    fun x => (hg x).bind fun _ => .pure _
  refine (h _ _).bind (fun _ => (hg _).bind fun _ => (hg _).bind fun _ => (hg _).bind fun _ =>
    (hg _).bind fun _ => (hg _).bind fun _ => (hg _).bind fun _ => (hg _).bind fun _ =>
    (hg _).bind fun _ => (hg _).bind fun _ => g1 _) fun _ _ h1 => ?_
  refine (h _ _).sim.bind (fun _ => (hg _).bind fun _ => (hg _).bind fun _ => (hg _).bind fun _ =>
    (hg _).bind fun _ => (hg _).bind fun _ => (hg _).bind fun _ => (hg _).bind fun _ =>
    (hg _).bind fun _ => g1 _) fun _ _ h2 => ?_
  refine (h _ _).sim.bind (fun _ => (hg _).bind fun _ => (hg _).bind fun _ => (hg _).bind fun _ =>
    (hg _).bind fun _ => (hg _).bind fun _ => (hg _).bind fun _ => (hg _).bind fun _ => g1 _)
    fun _ _ h3 => ?_
  refine (h _ _).sim.bind (fun _ => (hg _).bind fun _ => (hg _).bind fun _ => (hg _).bind fun _ =>
    (hg _).bind fun _ => (hg _).bind fun _ => (hg _).bind fun _ => g1 _) fun _ _ h4 => ?_
  refine (h _ _).sim.bind (fun _ => (hg _).bind fun _ => (hg _).bind fun _ => (hg _).bind fun _ =>
    (hg _).bind fun _ => (hg _).bind fun _ => g1 _) fun _ _ h5 => ?_
  refine (h _ _).sim.bind (fun _ => (hg _).bind fun _ => (hg _).bind fun _ => (hg _).bind fun _ =>
    (hg _).bind fun _ => g1 _) fun _ _ h6 => ?_
  refine (h _ _).sim.bind (fun _ => (hg _).bind fun _ => (hg _).bind fun _ => (hg _).bind fun _ =>
    g1 _) fun _ _ h7 => ?_
  refine (h _ _).sim.bind (fun _ => (hg _).bind fun _ => (hg _).bind fun _ => g1 _)
    fun _ _ h8 => ?_
  refine (h _ _).sim.bind (fun _ => (hg _).bind fun _ => g1 _) fun _ _ h9 => ?_
  refine (h _ _).sim.bind (fun _ => g1 _) fun _ _ h10 => ?_
  refine (h _ _).sim.bind (fun _ => .pure _) fun _ _ h11 => .pure
    ⟨⟨h1.1, h2.1, h3.1, h4.1, h5.1, h6.1, h7.1, h8.1, h9.1, h10.1, h11.1⟩, ?_⟩
  simp only [Mult4Masks.map, h1.2, h2.2, h3.2, h4.2, h5.2, h6.2, h7.2, h8.2, h9.2, h10.2, h11.2]

/-- What the trusted party and party `i` return for a gate. -/
def GatePost (nP : ℕ) (f : ℕ → R) (i : ℕ) (Cmp : X → X → Prop) (δ : ℕ → R) (op : Op R)
    (a b : Option (PreprocGate R X)) : Prop :=
  if op.type.arithmetic then
    ∃ pa pb, a = some pa ∧ b = some pb ∧ PreprocGate.Agrees nP f i Cmp pa pb ∧ Opens δ op pa
  else a = none ∧ b = none

theorem arithmeticGate_coupled (hi : 1 ≤ i) (hn : i ≤ nP) (hk : KeysOk nP f key keySh)
    (keySh' : List R)
    (Cmp : X → X → Prop) (c d : PreprocGates R X) (op : Op R) :
    (inStep nP i shared Q).Grows (arithmeticGate nP 0 key keySh c op) ∧
    ((∀ w ∈ op.inputs, MaskShare.Agrees nP f i (c w).mask (d w).mask) →
      (inStep nP i shared Q).Sim (arithmeticGate nP 0 key keySh c op)
        (arithmeticGate nP i (f i) keySh' d op)
        (GatePost nP f i Cmp (fun w => (c w).secret) op)) := by
  have hmask : (inStep nP i shared Q).Coupled (randomShare nP 0 key keySh)
      (randomShare nP i (f i) keySh') _ := randomShare_coupled hi hn hk keySh'
  have hsec : ∀ x y, (inStep nP i shared Q).Coupled (randomShareSecret nP 0 x key keySh)
      (randomShareSecret nP i y (f i) keySh') _ := randomShareSecret_coupled hi hn hk keySh'
  have hsg : ∀ x, (inStep nP i shared Q).Grows (randomShareSecret nP 0 x key keySh) :=
    fun x => (hsec x 0).grows
  have hprod : ∀ {α : Type} {g : MaskShare R → α} x,
      (inStep nP i shared Q).Grows (randomShareSecret nP 0 x key keySh >>= fun a => pure (g a)) :=
    fun x => (hsg x).bind fun _ => .pure _
  cases op with
  | kAdd a b =>
    refine ⟨.pure _, fun hin => .pure ?_⟩
    obtain ⟨hag, hs⟩ := (hin a (by simp [Op.inputs])).add hi hn (hin b (by simp [Op.inputs]))
    exact ⟨_, _, rfl, rfl, ⟨hag, trivial⟩, hs⟩
  | kSub a b =>
    refine ⟨.pure _, fun hin => .pure ?_⟩
    obtain ⟨hag, hs⟩ := (hin a (by simp [Op.inputs])).sub hi hn (hin b (by simp [Op.inputs]))
    exact ⟨_, _, rfl, rfl, ⟨hag, trivial⟩, hs⟩
  | kConstAdd a cval =>
    exact ⟨.pure _, fun hin => .pure ⟨_, _, rfl, rfl, ⟨hin a (by simp [Op.inputs]), trivial⟩, rfl⟩⟩
  | kConstMul a cval =>
    refine ⟨.pure _, fun hin => .pure ?_⟩
    obtain ⟨hag, hs⟩ := (hin a (by simp [Op.inputs])).mul hi hn cval
    exact ⟨_, _, rfl, rfl, ⟨hag, trivial⟩, hs⟩
  | kMul a b =>
    refine ⟨hmask.grows.bind fun _ => hprod _, fun hin => hmask.sim.bind (fun _ => hprod _)
      fun ma mb hm => (hsec _ _).sim.bind (fun _ => .pure _) fun pa pb hp => .pure ?_⟩
    exact ⟨_, _, rfl, rfl, ⟨hm, hp.1⟩, _, rfl, hp.2⟩
  | kMul3 a b d =>
    have hmap := mapM3_coupled hsec
    refine ⟨hmask.grows.bind fun _ => (hmap _ (.products 0 0 0)).grows.bind fun _ => .pure _,
      fun hin => hmask.sim.bind
        (fun _ => (hmap _ (.products 0 0 0)).grows.bind fun _ => .pure _)
        fun ma mb hm => (hmap _ _).sim.bind (fun _ => .pure _) fun pa pb hp => .pure ?_⟩
    exact ⟨_, _, rfl, rfl, ⟨hm, hp.1⟩, _, rfl, hp.2⟩
  | kMul4 a b d e =>
    have hmap := mapM4_coupled hsec
    refine ⟨hmask.grows.bind fun _ => (hmap _ (.products 0 0 0 0)).grows.bind fun _ => .pure _,
      fun hin => hmask.sim.bind
        (fun _ => (hmap _ (.products 0 0 0 0)).grows.bind fun _ => .pure _)
        fun ma mb hm => (hmap _ _).sim.bind (fun _ => .pure _) fun pa pb hp => .pure ?_⟩
    exact ⟨_, _, rfl, rfl, ⟨hm, hp.1⟩, _, rfl, hp.2⟩
  | kDotprod xs ys =>
    refine ⟨hmask.grows.bind fun _ => hprod _, fun hin => hmask.sim.bind (fun _ => hprod _)
      fun ma mb hm => (hsec _ _).sim.bind (fun _ => .pure _) fun pa pb hp => .pure ?_⟩
    exact ⟨_, _, rfl, rfl, ⟨hm, hp.1⟩, _, rfl, hp.2⟩
  | _ => exact ⟨.pure _, fun _ => .pure ⟨rfl, rfl⟩⟩

end Gates

/-! ## Loops over a circuit -/

/-- A loop over the gates of a circuit in level order. Its accumulators hold the gates set so far,
beside whatever else they carry, for which `Inv` is kept; every step sets its gate and makes it good.
What is good of a gate depends on its output wire and on its inputs. -/
theorem gatesLoopWith {S T R A B β γ : Type} (C : Coupling S T) (circ : Circuit R)
    {step : A → Gate R → StateM S A} {step' : B → Gate R → StateM T B}
    (gatesA : A → ℕ → β) (gatesB : B → ℕ → γ)
    (Good : (ℕ → β) → (ℕ → γ) → Gate R → Prop) (Inv : List (Gate R) → A → B → Prop)
    (hgrows : ∀ a g, C.Grows (step a g))
    (hcongr : ∀ {c c' : ℕ → β} {d d' : ℕ → γ} {g : Gate R} {W : Set ℕ}, Good c d g →
      (∀ w ∈ W, c' w = c w) → (∀ w ∈ W, d' w = d w) → g.out ∈ W → (∀ w ∈ g.inputs, w ∈ W) →
      Good c' d' g)
    (hstep : ∀ ys x zs a b, circ.orderGatesByLevel.gates_by_level.flatten = ys ++ x :: zs →
      x ∈ circ.gates_ → Inv ys a b →
      (∀ w ∈ x.inputs, ∃ g, Good (gatesA a) (gatesB b) g ∧ g.out = w) → x.out ∉ x.inputs →
      C.Sim (step a x) (step' b x) fun a' b' => Inv (ys ++ [x]) a' b' ∧
        ∃ pc pd, gatesA a' = Function.update (gatesA a) x.out pc ∧
          gatesB b' = Function.update (gatesB b) x.out pd ∧ Good (gatesA a') (gatesB b') x)
    (a : A) (b : B) (hinit : Inv [] a b) :
    C.Coupled (circ.orderGatesByLevel.gates_by_level.flatten.foldlM step a)
      (circ.orderGatesByLevel.gates_by_level.flatten.foldlM step' b)
      fun a b => ∀ g ∈ circ.gates_, Good (gatesA a) (gatesB b) g := by
  have hsched := circ.levelSched.sched
  have hmem : ∀ g, g ∈ circ.orderGatesByLevel.gates_by_level.flatten ↔ g ∈ circ.gates_ :=
    circ.mem_levels
  have hloop : C.Coupled _ _ _ := Coupling.Coupled.foldlM step step'
    (fun ys a b => Inv ys a b ∧ ∀ g ∈ ys, Good (gatesA a) (gatesB b) g)
    circ.orderGatesByLevel.gates_by_level.flatten [] hgrows
    (fun ys x zs a b hx hinv => ?_) (c := a) (d := b) ⟨hinit, by simp⟩
  · exact hloop.weaken fun a b hab g hg => hab.2 g ((hmem g).mpr hg)
  · rw [List.nil_append] at hx
    obtain ⟨hinv, hgood⟩ := hinv
    have hx' : x ∈ circ.gates_ := (hmem x).mp (hx ▸ List.mem_append_right _ List.mem_cons_self)
    rw [hx] at hsched
    obtain ⟨hin, hout, hins⟩ := hsched.middle
    simp only [Set.empty_union] at hin hout hins
    intro s t hr hok
    obtain ⟨hr', hinv', pc, pd, hc, hd, hnew⟩ := hstep ys x zs a b hx hx' hinv (fun w hw => by
      obtain ⟨g, hg, rfl⟩ := hin w hw
      exact ⟨g, hgood g hg, rfl⟩) (fun h => hout (hin _ h)) s t hr hok
    refine ⟨hr', hinv', fun g hg => ?_⟩
    obtain hg | hg := List.mem_append.mp hg
    · -- what was stored before stays
      rw [hc, hd]
      exact hcongr (hgood g hg) (update_of_outs hout _ pc) (update_of_outs hout _ pd) (mem_outs hg)
        (hins g hg)
    · rw [List.mem_singleton.mp hg]
      exact hnew

/-- The same loop where the accumulators are the gates. -/
theorem gatesLoop {S T R β γ : Type} (C : Coupling S T) (circ : Circuit R)
    {step : (ℕ → β) → Gate R → StateM S (ℕ → β)} {step' : (ℕ → γ) → Gate R → StateM T (ℕ → γ)}
    (Good : (ℕ → β) → (ℕ → γ) → Gate R → Prop)
    (hgrows : ∀ c g, C.Grows (step c g))
    (hcongr : ∀ {c c' : ℕ → β} {d d' : ℕ → γ} {g : Gate R} {W : Set ℕ}, Good c d g →
      (∀ w ∈ W, c' w = c w) → (∀ w ∈ W, d' w = d w) → g.out ∈ W → (∀ w ∈ g.inputs, w ∈ W) →
      Good c' d' g)
    (hstep : ∀ c d, ∀ g ∈ circ.gates_, (∀ w ∈ g.inputs, ∃ g', Good c d g' ∧ g'.out = w) →
      g.out ∉ g.inputs → C.Sim (step c g) (step' d g) fun c' d' =>
        ∃ pc pd, c' = Function.update c g.out pc ∧ d' = Function.update d g.out pd ∧ Good c' d' g)
    (c : ℕ → β) (d : ℕ → γ) :
    C.Coupled (circ.orderGatesByLevel.gates_by_level.flatten.foldlM step c)
      (circ.orderGatesByLevel.gates_by_level.flatten.foldlM step' d)
      fun c d => ∀ g ∈ circ.gates_, Good c d g := by
  refine gatesLoopWith C circ id id Good (fun _ _ _ => True) hgrows hcongr
    (fun ys x zs c d _ hx _ hin hout => ?_) c d trivial
  exact Coupling.Sim.weaken (hstep c d x hx hin hout) fun c' d' h => ⟨trivial, h⟩

/-! ## Boolean circuits -/

section BoolCircuits
variable {nP i : ℕ} {shared : Prop} {Q : QueueName → List BoolRing} {bf : ℕ → BoolRing}
  {bkey : BoolRing}
  {bkeySh bkeySh' : List BoolRing}

/-- The property of one gate that both predicates collect. -/
structure BoolGood (nP : ℕ) (bf : ℕ → BoolRing) (i : ℕ) (mask : ℕ → BoolRing) (c d : BoolGates)
    (g : Gate BoolRing) : Prop where
  agrees : PreprocGate.Agrees nP bf i noComparison (c g.out) (d g.out)
  opens : Opens (fun w => (c w).secret) g.op (c g.out)
  input : g.type = .kInp → (c g.out).secret = mask g.out

theorem BoolGood.congr {mask : ℕ → BoolRing} {c d c' d' : BoolGates} {g : Gate BoolRing}
    {S : Set ℕ} (h : BoolGood nP bf i mask c d g) (hc : ∀ w ∈ S, c' w = c w)
    (hd : ∀ w ∈ S, d' w = d w) (hout : g.out ∈ S) (hin : ∀ w ∈ g.inputs, w ∈ S) :
    BoolGood nP bf i mask c' d' g := by
  refine ⟨?_, ?_, ?_⟩
  · rw [hc _ hout, hd _ hout]
    exact h.agrees
  · rw [hc _ hout]
    exact h.opens.congr fun w hw => by rw [hc _ (hin w hw)]
  · rw [hc _ hout]
    exact h.input

theorem boolGateStep_of_ne {id : ℕ} {handles : GateType → Bool}
    {inp : ℕ → Draw BoolRing (PreprocGate BoolRing Empty)} {acc : BoolGates × ℕ}
    {gate : Gate BoolRing} (ht : gate.type ≠ .kInp) (hh : handles gate.type) :
    boolGateStep nP id bkey bkeySh handles inp acc gate =
      arithmeticGate nP id bkey bkeySh acc.1 gate.op >>= fun pregate =>
        pure (setGate acc.1 gate.out pregate, acc.2) := by
  obtain ⟨op, out⟩ := gate
  cases op with
  | kInp => exact absurd rfl ht
  | _ => exact if_pos hh

theorem boolGateStep_grows (hi : 1 ≤ i) (hn : i ≤ nP) (hk : KeysOk nP bf bkey bkeySh)
    {handles : GateType → Bool} {inp : ℕ → Draw BoolRing (PreprocGate BoolRing Empty)}
    (hinp : ∀ j, (inStep nP i shared Q).Grows (inp j)) (acc : BoolGates × ℕ) (gate : Gate BoolRing) :
    (inStep nP i shared Q).Grows (boolGateStep nP 0 bkey bkeySh handles inp acc gate) := by
  by_cases ht : gate.type = .kInp
  · rw [boolGateStep, Op.eq_kInp ht]
    exact (hinp _).bind fun _ => .pure _
  · by_cases hh : handles gate.type
    · rw [boolGateStep_of_ne ht hh]
      exact (arithmeticGate_coupled hi hn hk bkeySh noComparison acc.1 acc.1
        gate.op).1.bind fun _ => .pure _
    · have : boolGateStep nP 0 bkey bkeySh handles inp acc gate = pure acc := by
        obtain ⟨op, out⟩ := gate
        cases op with
        | kInp => exact absurd rfl ht
        | _ => exact if_neg hh
      rw [this]
      exact .pure _

theorem boolCircuitGates_coupled (hi : 1 ≤ i) (hn : i ≤ nP) (hk : KeysOk nP bf bkey bkeySh)
    {circ : Circuit BoolRing} {n : ℕ} (hfirst : circ.InputsFirst n) {handles : GateType → Bool}
    (hhandles : ∀ g ∈ circ.gates_, g.type = .kInp ∨ handles g.type ∧ g.type.arithmetic)
    {inp inp' : ℕ → Draw BoolRing (PreprocGate BoolRing Empty)} {mask : ℕ → BoolRing}
    (hgrows : ∀ j, (inStep nP i shared Q).Grows (inp j))
    (hinp : ∀ j < n, (inStep nP i shared Q).Sim (inp j) (inp' j) fun a b =>
      PreprocGate.Agrees nP bf i noComparison a b ∧ a.secret = mask j) :
    (inStep nP i shared Q).Coupled
      (boolCircuitGates nP 0 bkey bkeySh handles inp circ.orderGatesByLevel)
      (boolCircuitGates nP i (bf i) bkeySh' handles inp' circ.orderGatesByLevel)
      fun c d => BoolAgrees nP bf i circ c d ∧ BoolOpens circ mask c := by
  simp only [boolCircuitGates, foldlM_flatten]
  -- the counter of inputs is the wire of the next input
  have hloop : (inStep nP i shared Q).Coupled
      (circ.orderGatesByLevel.gates_by_level.flatten.foldlM
        (boolGateStep nP 0 bkey bkeySh handles inp) (fun _ => default, 0))
      (circ.orderGatesByLevel.gates_by_level.flatten.foldlM
        (boolGateStep nP i (bf i) bkeySh' handles inp') (fun _ => default, 0)) _ :=
    gatesLoopWith _ circ Prod.fst Prod.fst (BoolGood nP bf i mask)
      (fun ys c d => c.2 = d.2 ∧ c.2 = ys.countP fun g => g.type = .kInp)
      (fun c x => boolGateStep_grows hi hn hk hgrows c x) BoolGood.congr
      (fun ys x zs c d hx hx' hinv hin hself => ?_) _ _ (by simp)
  · exact hloop.bind (fun _ => .pure _) fun c d hcd => .pure
      ⟨fun g hg => (hcd g hg).agrees, fun g hg => ⟨(hcd g hg).opens, (hcd g hg).input⟩⟩
  · obtain ⟨hctr, hcount⟩ := hinv
    by_cases ht : x.type = .kInp
    · obtain ⟨hxc, hxn⟩ := hfirst.out_eq_count hx ht
      have hop := Op.eq_kInp ht
      have hctr' : d.2 = c.2 := hctr.symm
      rw [boolGateStep, boolGateStep, hop, hctr', hcount, ← hxc]
      refine (hinp x.out hxn).bind (fun _ => .pure _) fun pc pd hp => .pure
        ⟨⟨rfl, ?_⟩, pc, pd, rfl, rfl, ?_, ?_, fun _ => ?_⟩
      · rw [List.countP_append, ← hxc]
        simp [ht]
      · simpa [setGate] using hp.1
      · rw [hop]
        trivial
      · simpa [setGate] using hp.2
    · obtain ⟨hh, har⟩ := (hhandles x hx').resolve_left ht
      rw [boolGateStep_of_ne ht hh, boolGateStep_of_ne ht hh]
      have hmask : ∀ w ∈ x.op.inputs, MaskShare.Agrees nP bf i (c.1 w).mask (d.1 w).mask := by
        intro w hw
        obtain ⟨g, hg, rfl⟩ := hin w hw
        exact hg.agrees.mask
      refine ((arithmeticGate_coupled hi hn hk bkeySh' noComparison c.1 d.1 x.op).2
        hmask).bind (fun _ => .pure _) fun a b hab => .pure ?_
      rw [GatePost, if_pos har] at hab
      obtain ⟨pc, pd, rfl, rfl, hag, hop⟩ := hab
      have hkeep : ∀ w ∈ x.op.inputs,
          (c.1 w).secret = (Function.update c.1 x.out pc w).secret := fun w hw => by
        have hne : w ≠ x.out := fun h => hself (h ▸ hw)
        rw [Function.update_of_ne hne]
      refine ⟨⟨hctr, ?_⟩, pc, pd, rfl, rfl, ?_, ?_, fun h => absurd h ht⟩
      · rw [List.countP_append, ← hcount]
        simp [ht]
      · simpa [setGate] using hag
      · show Opens _ _ (Function.update c.1 x.out pc x.out)
        rw [Function.update_self]
        exact hop.congr hkeep

end BoolCircuits

end QSync
