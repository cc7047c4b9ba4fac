import QSync.Asterisk.OfflineGates

/-! # The trusted party and one party preprocess the same circuit

`FieldOpens` says what the trusted party's preprocessing of a gate opens to, `PreprocGate.Agrees`
that party `i` holds its components of it. `setWireMasksParty_coupled`: both hold of every gate of
the circuit when the walk is over.
-/

namespace QSync
open Network
set_option autoImplicit false
set_option maxHeartbeats 250000

/-! ## What preprocessing has to provide -/

section Spec
variable {M : Modulus}

/-- The output wire of `multk_circ_` and of `prefixOR_circ_`. -/
def multkOut : ℕ := multk_circ.orderGatesByLevel.outputs.getD 0 0

def prefixOROut : ℕ := prefixOR_circ.orderGatesByLevel.outputs.getD 0 0

/-- The masks of the inputs of `multk_circ_`, and of `prefixOR_circ_`: the bits of `r`. -/
def multkMask (r : Field M) (j : ℕ) : BoolRing := r.val.testBit j

def prefixORMask (r : Field M) (j : ℕ) : BoolRing := r.val.testBit (63 - j % 64)

/-- The members of a comparison gate agree at the trusted party and at party `i`. -/
def ComparisonGate.Agrees (nP : ℕ) (f : ℕ → Field M) (bf : ℕ → BoolRing) (i : ℕ) (shared : Prop) :
    ComparisonGate M → ComparisonGate M → Prop
  | .eqz b w r gates pv, .eqz b' w' r' gates' pv' =>
    MaskShare.Agrees nP f i b b' ∧ MaskShare.Agrees nP f i w w' ∧ MaskShare.Agrees nP f i r r' ∧
      BoolAgrees nP bf i multk_circ gates gates' ∧ (shared → pv' = pv)
  | .ltz b w gates pv, .ltz b' w' gates' pv' =>
    MaskShare.Agrees nP f i b b' ∧ MaskShare.Agrees nP f i w w' ∧
      BoolAgrees nP bf i prefixOR_circ gates gates' ∧ (shared → pv' = pv)
  | _, _ => False

/-- What the trusted party's preprocessing of a gate opens to, with the masks `δ` on the wires. -/
def FieldOpens (input_pid_map : ℕ → ℕ) (δ : ℕ → Field M) (g : Gate (Field M))
    (pregate : PreprocGate (Field M) (ComparisonGate M)) : Prop :=
  match g.op with
  | .kInp => pregate.ext = .input (input_pid_map g.out) pregate.secret
  | .kEqz a => ∃ mask_b mask_w rval gates padded_val,
      pregate.ext = .comparison (.eqz mask_b mask_w rval gates padded_val) ∧
      pregate.secret = -mask_b.secret - 2 * mask_w.secret ∧
      rval.secret = padded_val + δ a ∧
      BoolOpens multk_circ (multkMask (padded_val + δ a)) gates ∧
      mask_b.secret = arithBit (gates multkOut).secret
  | .kLtz a => ∃ mask_b mask_w gates padded_val,
      pregate.ext = .comparison (.ltz mask_b mask_w gates padded_val) ∧
      pregate.secret = -mask_b.secret - 2 * mask_w.secret ∧
      BoolOpens prefixOR_circ (prefixORMask (padded_val + δ a)) gates ∧
      mask_b.secret = arithBit (gates prefixOROut).secret
  | op => Opens δ op pregate

/-- The types whose preprocessing is not `arithmeticGate`. -/
def GateType.special : GateType → Bool
  | .kInp | .kEqz | .kLtz => true
  | _ => false

theorem fieldOpens_iff {ipm : ℕ → ℕ} {δ : ℕ → Field M} {g : Gate (Field M)}
    {pregate : PreprocGate (Field M) (ComparisonGate M)} (ht : g.type.special = false) :
    FieldOpens ipm δ g pregate ↔ Opens δ g.op pregate := by
  obtain ⟨op, out⟩ := g
  cases op <;> first | rfl | cases ht

theorem FieldOpens.congr {ipm : ℕ → ℕ} {δ δ' : ℕ → Field M} {g : Gate (Field M)}
    {pregate : PreprocGate (Field M) (ComparisonGate M)} (h : FieldOpens ipm δ g pregate)
    (hδ : ∀ w ∈ g.inputs, δ w = δ' w) : FieldOpens ipm δ' g pregate := by
  cases ht : g.type.special with
  | false => exact (fieldOpens_iff ht).mpr (((fieldOpens_iff ht).mp h).congr hδ)
  | true =>
    obtain ⟨op, out⟩ := g
    cases op with
    | kInp => exact h
    | kEqz a =>
      have ha : δ a = δ' a := hδ a (by simp [Gate.inputs, Op.inputs])
      simpa only [FieldOpens, ha] using h
    | kLtz a =>
      have ha : δ a = δ' a := hδ a (by simp [Gate.inputs, Op.inputs])
      simpa only [FieldOpens, ha] using h
    | _ => cases ht

end Spec

/-! ## The two Boolean circuits -/

section BoolCircuits
variable {nP i : ℕ} {shared : Prop} {Q : QueueName → List BoolRing} {bf : ℕ → BoolRing}
  {bkey : BoolRing}
  {bkeySh : List BoolRing}

theorem multk_computes : ∃ wout, Circuit.Computes Circuit.multkTypes 64 multk_circ wout
    fun f => ∏ i ∈ Finset.range 64, f i := Circuit.generateMultK_spec

theorem prefixOR_computes : ∃ wout, Circuit.Computes Circuit.prefixORTypes 256 prefixOR_circ wout
    fun f => ((128 : ℕ) : BoolRing) * (f 0 * f 0) +
      ((List.range 128).map fun i => Circuit.boundary i f * f (128 + i)).sum :=
  Circuit.generateParaPrefixOR_spec 2 (by decide)

theorem boolInputGate_coupled (hi : 1 ≤ i) (hn : i ≤ nP) (hk : KeysOk nP bf bkey bkeySh)
    (bkeySh' : List BoolRing) (bit bit' : BoolRing) :
    (inStep nP i shared Q).Coupled (boolInputGate nP 0 bkey bkeySh bit)
      (boolInputGate nP i (bf i) bkeySh' bit') fun a b =>
        PreprocGate.Agrees nP bf i noComparison a b ∧ a.secret = bit := by
  refine (randomShareSecret_coupled hi hn hk bkeySh' bit bit').bind (fun _ => .pure _)
    fun a b hab => .pure ⟨⟨hab.1, rfl, fun h => ?_⟩, hab.2⟩
  omega

theorem multkGates_coupled (hi : 1 ≤ i) (hn : i ≤ nP) (hk : KeysOk nP bf bkey bkeySh)
    (bkeySh' : List BoolRing) (r_bits r_bits' : List BoolRing) :
    (inStep nP i shared Q).Coupled (multkGates nP 0 bkey bkeySh r_bits)
      (multkGates nP i (bf i) bkeySh' r_bits') fun c d =>
        BoolAgrees nP bf i multk_circ c d ∧ BoolOpens multk_circ (fun j => r_bits.getD j 0) c := by
  obtain ⟨wout, hcomp⟩ := multk_computes
  refine boolCircuitGates_coupled hi hn hk hcomp.inputs_first (fun g hg => ?_) (fun j => ?_)
    fun j _ => ?_
  · refine (hcomp.types g hg).imp_right fun ht => ?_
    rw [show g.type = .kMul4 from ht]
    exact ⟨rfl, rfl⟩
  · exact (boolInputGate_coupled hi hn hk bkeySh' _ 0).grows
  · exact (boolInputGate_coupled hi hn hk bkeySh' _ _).sim

theorem prefixORGates_coupled (hi : 1 ≤ i) (hn : i ≤ nP) (hk : KeysOk nP bf bkey bkeySh)
    (bkeySh' : List BoolRing) (r_bits r_bits' : List BoolRing) :
    (inStep nP i shared Q).Coupled (prefixORGates nP 0 bkey bkeySh r_bits)
      (prefixORGates nP i (bf i) bkeySh' r_bits') fun c d =>
        BoolAgrees nP bf i prefixOR_circ c d ∧
          BoolOpens prefixOR_circ (fun j => r_bits.getD (63 - j % 64) 0) c := by
  obtain ⟨wout, hcomp⟩ := prefixOR_computes
  have hcirc : ∀ (as bs : List (PreprocGate BoolRing Empty)),
      (∀ k < 64, PreprocGate.Agrees nP bf i noComparison (as.getD k default) (bs.getD k default) ∧
        (as.getD k default).secret = r_bits.getD (63 - k) 0) →
      (inStep nP i shared Q).Coupled
        (boolCircuitGates nP 0 bkey bkeySh prefixORHandles
          (fun j => pure (as.getD (j % 64) default)) prefixOR_circ.orderGatesByLevel)
        (boolCircuitGates nP i (bf i) bkeySh' prefixORHandles
          (fun j => pure (bs.getD (j % 64) default)) prefixOR_circ.orderGatesByLevel) fun c d =>
        BoolAgrees nP bf i prefixOR_circ c d ∧
          BoolOpens prefixOR_circ (fun j => r_bits.getD (63 - j % 64) 0) c := by
    intro as bs has
    refine boolCircuitGates_coupled hi hn hk hcomp.inputs_first (fun g hg => ?_) (fun _ => .pure _)
      fun j _ => .pure (has (j % 64) (Nat.mod_lt _ (by decide)))
    refine (hcomp.types g hg).imp_right fun ht => ?_
    simp only [Circuit.prefixORTypes, List.mem_cons, List.not_mem_nil, or_false] at ht
    rcases ht with h | h | h | h | h | h <;> rw [h] <;> exact ⟨rfl, rfl⟩
  have hgrows : ∀ as : List (PreprocGate BoolRing Empty), (inStep nP i shared Q).Grows
      (boolCircuitGates nP 0 bkey bkeySh prefixORHandles
        (fun j => pure (as.getD (j % 64) default)) prefixOR_circ.orderGatesByLevel) := by
    intro as
    simp only [boolCircuitGates, foldlM_flatten]
    refine Coupling.Grows.bind ?_ fun _ => .pure _
    exact Coupling.Grows.foldlM _ _ (fun c x => boolGateStep_grows hi hn hk (fun _ => .pure _) c x) _
  refine (Coupling.Coupled.mapM _ _ (fun k a b =>
    PreprocGate.Agrees nP bf i noComparison a b ∧ a.secret = r_bits.getD (63 - k) 0)
    (List.range 64) fun k _ => boolInputGate_coupled hi hn hk bkeySh' _ _).bind hgrows
      fun as bs has => (hcirc as bs fun k hk64 => ?_).sim
  obtain ⟨a, b, ha, hb, hab⟩ := has k k (by simp [hk64])
  simpa [List.getD_eq_getElem?_getD, ha, hb] using hab

end BoolCircuits

/-! ## The walk over the circuit -/

section Walk
variable {M : Modulus} {nP i : ℕ} {shared : Prop} {Qa : QueueName → List (Field M)}
  {Qb : QueueName → List BoolRing}

/-- The coupling of the states of the whole walk, made of those over the two rings. -/
def offlineInStep (nP i : ℕ) (shared : Prop) (Qa : QueueName → List (Field M))
    (Qb : QueueName → List BoolRing) :
    Coupling (OfflineState M) (OfflineState M) where
  le s s' := (inStep nP i shared Qa).le ⟨s.rgen, s.arith⟩ ⟨s'.rgen, s'.arith⟩ ∧
    (inStep nP i shared Qb).le ⟨s.rgen, s.bool⟩ ⟨s'.rgen, s'.bool⟩
  refl _ := ⟨fun _ => List.prefix_rfl, fun _ => List.prefix_rfl⟩
  trans h h' := ⟨(inStep nP i shared Qa).trans h.1 h'.1, (inStep nP i shared Qb).trans h.2 h'.2⟩
  rel s t := InStep nP i shared Qa ⟨s.rgen, s.arith⟩ ⟨t.rgen, t.arith⟩ ∧
    InStep nP i shared Qb ⟨s.rgen, s.bool⟩ ⟨t.rgen, t.bool⟩
  ok s := (inStep nP i shared Qa).ok ⟨s.rgen, s.arith⟩ ∧ (inStep nP i shared Qb).ok ⟨s.rgen, s.bool⟩
  ok_of_le h h' := ⟨(inStep nP i shared Qa).ok_of_le h.1 h'.1, (inStep nP i shared Qb).ok_of_le h.2 h'.2⟩

variable {α β : Type} {post : α → β → Prop}

theorem arith_coupled {m : Draw (Field M) α} {m' : Draw (Field M) β}
    (h : (inStep nP i shared Qa).Coupled m m' post) :
    (offlineInStep nP i shared Qa Qb).Coupled (Offline.arith m) (Offline.arith m') post := by
  refine ⟨fun s => ⟨h.grows ⟨s.rgen, s.arith⟩, fun _ => List.prefix_rfl⟩, fun s t hr hok => ?_⟩
  obtain ⟨h1, h2⟩ := h.sim _ _ hr.1 hok.1
  exact ⟨⟨h1, ⟨h1.own, h1.common, hr.2.reads⟩⟩, h2⟩

theorem bool_coupled {m : Draw BoolRing α} {m' : Draw BoolRing β}
    (h : (inStep nP i shared Qb).Coupled m m' post) :
    (offlineInStep nP i shared Qa Qb).Coupled (Offline.bool m) (Offline.bool m') post := by
  refine ⟨fun s => ⟨fun _ => List.prefix_rfl, h.grows ⟨s.rgen, s.bool⟩⟩, fun s t hr hok => ?_⟩
  obtain ⟨h1, h2⟩ := h.sim _ _ hr.2 hok.2
  exact ⟨⟨⟨h1.own, h1.common, hr.1.reads⟩, h1⟩, h2⟩

/-- The trusted party's keys `k` and party `i`'s keys `k'`. -/
structure KeysAgree (nP i : ℕ) (k k' : Keys M) : Prop where
  arith : KeysOk nP (fun j => k.keySh.getD j 0) k.key k.keySh
  bool : KeysOk nP (fun j => k.bkeySh.getD j 0) k.bkey k.bkeySh
  own : k'.key = k.keySh.getD i 0
  bown : k'.bkey = k.bkeySh.getD i 0

theorem keyGen_zero {R : Type} [RandomRing R] (nP : ℕ) (s : DrawState R) :
    keyGen nP 0 s = (((firstDraws R nP s.rgen).sum, 0 :: firstDraws R nP s.rgen),
      { s with rgen := onPis (List.range' 1 nP) (Stream.next R) s.rgen }) := by
  rw [keyGen, if_pos rfl, StateM.bind_apply,
    drawEach_eq draw (Stream.value R) (Stream.next R) draw_eq _ List.nodup_range']
  rfl

theorem keyGen_ok {R : Type} [RandomRing R] (nP : ℕ) (s : DrawState R) :
    KeysOk nP (fun j => (keyGen nP 0 s).1.2.getD j 0) (keyGen nP 0 s).1.1 (keyGen nP 0 s).1.2 := by
  rw [keyGen_zero]
  refine ⟨?_, congrArg (List.cons 0) (List.ext_getElem (by simp [firstDraws]) fun j h1 h2 => ?_)⟩
  · have hlen : (0 :: firstDraws R nP s.rgen).length = nP + 1 := by simp [firstDraws]
    rw [← TPShare.sum_of_getD hlen rfl, List.sum_cons, zero_add]
  · simp [List.getD_eq_getElem?_getD, h1]

theorem keyGen_coupled {R : Type} [RandomRing R] {Q : QueueName → List R} (hi : 1 ≤ i)
    (hn : i ≤ nP) : (inStep nP i shared Q).Coupled (keyGen nP 0) (keyGen nP i) fun a b =>
      KeysOk nP (fun j => a.2.getD j 0) a.1 a.2 ∧ b.1 = a.2.getD i 0 := by
  have hi0 : i ≠ 0 := by omega
  refine ⟨fun s => ?_, fun s t hr _ => ?_⟩
  · rw [keyGen_zero]
    exact fun _ => List.prefix_rfl
  · have hmem : i ∈ List.range' 1 nP := by
      rw [List.mem_range'_1]
      omega
    have hkeys := keyGen_ok nP s
    have hget : (0 :: firstDraws R nP s.rgen).getD i 0 = (s.rgen (.pi i)).value R := by
      rw [← firstDraws_getD s.rgen hi hn]
      obtain ⟨j, rfl⟩ : ∃ j, i = j + 1 := ⟨i - 1, by omega⟩
      rfl
    rw [keyGen_zero] at hkeys ⊢
    rw [keyGen, if_neg hi0, StateM.bind_apply, draw_eq]
    refine ⟨⟨?_, ?_, hr.reads⟩, hkeys, ?_⟩
    · change _ = Function.update t.rgen .p0 ((t.rgen .p0).next R) .p0
      rw [Function.update_self, ← hr.own]
      exact onPis_mem hmem _ _
    · change shared → _ = Function.update t.rgen .p0 ((t.rgen .p0).next R) .all
      intro hs
      rw [Function.update_of_ne (by simp)]
      exact hr.common hs
    · exact (congrArg (Stream.value R) hr.own.symm).trans hget.symm

/-- What holds of the preprocessing of one gate. -/
structure FieldGood (nP : ℕ) (f : ℕ → Field M) (bf : ℕ → BoolRing) (i : ℕ) (shared : Prop)
    (input_pid_map : ℕ → ℕ) (c d : FieldGates M) (g : Gate (Field M)) : Prop where
  agrees : PreprocGate.Agrees nP f i (ComparisonGate.Agrees nP f bf i shared) (c g.out) (d g.out)
  opens : FieldOpens input_pid_map (fun w => (c w).secret) g (c g.out)

theorem FieldGood.congr {f : ℕ → Field M} {bf : ℕ → BoolRing} {ipm : ℕ → ℕ}
    {c d c' d' : FieldGates M} {g : Gate (Field M)} {S : Set ℕ}
    (h : FieldGood nP f bf i shared ipm c d g) (hc : ∀ w ∈ S, c' w = c w) (hd : ∀ w ∈ S, d' w = d w)
    (hout : g.out ∈ S) (hin : ∀ w ∈ g.inputs, w ∈ S) : FieldGood nP f bf i shared ipm c' d' g := by
  refine ⟨?_, ?_⟩
  · rw [hc _ hout, hd _ hout]
    exact h.agrees
  · rw [hc _ hout]
    exact h.opens.congr fun w hw => by rw [hc _ (hin w hw)]

variable {k k' : Keys M}

theorem Agrees.linear {f : ℕ → Field M} (hi : 1 ≤ i) (hn : i ≤ nP)
    {a a' b b' : MaskShare (Field M)} (ha : MaskShare.Agrees nP f i a a')
    (hb : MaskShare.Agrees nP f i b b') (x y : Field M) :
    MaskShare.Agrees nP f i (a * x + b * y) (a' * x + b' * y) ∧
      (a * x + b * y).secret = a.secret * x + b.secret * y := by
  obtain ⟨h1, s1⟩ := ha.mul hi hn x
  obtain ⟨h2, s2⟩ := hb.mul hi hn y
  obtain ⟨h3, s3⟩ := h1.add hi hn h2
  exact ⟨h3, by rw [s3, s1, s2]⟩

/-- What holds of a comparison gate with input `a` and operation `op`. -/
def ComparisonPost (nP i : ℕ) (shared : Prop) (k : Keys M) (op : Op (Field M)) (c : FieldGates M)
    (pa pb : PreprocGate (Field M) (ComparisonGate M)) : Prop :=
  PreprocGate.Agrees nP (fun j => k.keySh.getD j 0) i
    (ComparisonGate.Agrees nP (fun j => k.keySh.getD j 0) (fun j => k.bkeySh.getD j 0) i shared) pa pb ∧
  ∀ (ipm : ℕ → ℕ) (out : ℕ), FieldOpens ipm (fun w => (c w).secret) ⟨op, out⟩ pa

section KeyDraws
variable (shared : Prop) (Qa : QueueName → List (Field M)) (Qb : QueueName → List BoolRing)

theorem drawAll_coupled (nP i : ℕ) :
    (offlineInStep nP i shared Qa Qb).Coupled (Offline.arith (draw .all)) (Offline.arith (draw .all))
      (fun a b => shared → b = a) := arith_coupled draw_all_coupled

variable (hk : KeysAgree nP i k k') (hi : 1 ≤ i) (hn : i ≤ nP)
include hk hi hn

theorem KeysAgree.mask_coupled :
    (offlineInStep nP i shared Qa Qb).Coupled (Offline.arith (randomShare nP 0 k.key k.keySh))
      (Offline.arith (randomShare nP i k'.key k'.keySh))
      (MaskShare.Agrees nP (fun j => k.keySh.getD j 0) i) := by
  rw [hk.own]
  exact arith_coupled (randomShare_coupled hi hn hk.arith k'.keySh)

theorem KeysAgree.secret_coupled (x y : Field M) :
    (offlineInStep nP i shared Qa Qb).Coupled
      (Offline.arith (randomShareSecret nP 0 x k.key k.keySh))
      (Offline.arith (randomShareSecret nP i y k'.key k'.keySh))
      (fun a b => MaskShare.Agrees nP (fun j => k.keySh.getD j 0) i a b ∧ a.secret = x) := by
  rw [hk.own]
  exact arith_coupled (randomShareSecret_coupled hi hn hk.arith k'.keySh x y)

end KeyDraws

theorem eqzGate_coupled (hi : 1 ≤ i) (hn : i ≤ nP) (hk : KeysAgree nP i k k')
    (c d : FieldGates M) (a : ℕ) :
    (offlineInStep nP i shared Qa Qb).Coupled (eqzGate nP 0 k c a) (eqzGate nP i k' d a)
      (ComparisonPost nP i shared k (.kEqz a) c) := by
  have hi0 : i ≠ 0 := by omega
  have hbool : ∀ x y, (offlineInStep nP i shared Qa Qb).Coupled
      (Offline.bool (multkGates nP 0 k.bkey k.bkeySh x))
      (Offline.bool (multkGates nP i k'.bkey k'.bkeySh y)) _ := fun x y =>
    hk.bown ▸ bool_coupled (multkGates_coupled hi hn hk.bool k'.bkeySh x y)
  have hmask := hk.mask_coupled shared Qa Qb hi hn
  have hsec := hk.secret_coupled shared Qa Qb hi hn
  have hall := drawAll_coupled shared Qa Qb nP i
  have g1 := fun x => (hsec x 0).grows
  have g2 := fun x => (hbool x []).grows
  simp only [eqzGate, if_true, if_neg hi0]
  refine hmask.bind (fun _ => hall.grows.bind fun _ => (g1 _).bind fun _ =>
    (g2 _).bind fun _ => (g1 _).bind fun _ => .pure _) fun w w' hw => ?_
  refine hall.sim.bind (fun _ => (g1 _).bind fun _ => (g2 _).bind fun _ => (g1 _).bind fun _ =>
    .pure _) fun pv pv' hpv => ?_
  refine (hsec _ _).sim.bind (fun _ => (g2 _).bind fun _ => (g1 _).bind fun _ =>
    .pure _) fun r r' hr => ?_
  refine (hbool _ _).sim.bind (fun _ => (g1 _).bind fun _ => .pure _) fun gs gs' hgs => ?_
  refine (hsec _ _).sim.bind (fun _ => .pure _) fun b b' hb => .pure ?_
  obtain ⟨hout, hsecret⟩ := Agrees.linear hi hn hb.1 hw (-1) (-2)
  have hbits := hgs.2
  simp only [bitDecomposeTwo_getD] at hbits
  exact ⟨⟨hout, hb.1, hw, hr.1, hgs.1, hpv⟩, fun _ _ =>
    ⟨b, w, r, gs, pv, rfl, hsecret.trans (by ring), hr.2, hbits, hb.2⟩⟩

theorem ltzGate_coupled (hi : 1 ≤ i) (hn : i ≤ nP) (hk : KeysAgree nP i k k')
    (c d : FieldGates M) (a : ℕ) :
    (offlineInStep nP i shared Qa Qb).Coupled (ltzGate nP 0 k c a) (ltzGate nP i k' d a)
      (ComparisonPost nP i shared k (.kLtz a) c) := by
  have hi0 : i ≠ 0 := by omega
  have hbool : ∀ x y, (offlineInStep nP i shared Qa Qb).Coupled
      (Offline.bool (prefixORGates nP 0 k.bkey k.bkeySh x))
      (Offline.bool (prefixORGates nP i k'.bkey k'.bkeySh y)) _ := fun x y =>
    hk.bown ▸ bool_coupled (prefixORGates_coupled hi hn hk.bool k'.bkeySh x y)
  have hmask := hk.mask_coupled shared Qa Qb hi hn
  have hsec := hk.secret_coupled shared Qa Qb hi hn
  have hall := drawAll_coupled shared Qa Qb nP i
  have g1 := fun x => (hsec x 0).grows
  have g2 := fun x => (hbool x []).grows
  have hgm := hmask.grows
  simp only [ltzGate, if_true, if_neg hi0]
  refine hall.bind (fun _ => (g2 _).bind fun _ => (g1 _).bind fun _ =>
    hgm.bind fun _ => .pure _) fun pv pv' hpv => ?_
  refine (hbool _ _).sim.bind (fun _ => (g1 _).bind fun _ =>
    hgm.bind fun _ => .pure _) fun gs gs' hgs => ?_
  refine (hsec _ _).sim.bind (fun _ =>
    hgm.bind fun _ => .pure _) fun b b' hb => ?_
  refine hmask.sim.bind (fun _ => .pure _) fun w w' hw => .pure ?_
  obtain ⟨hout, hsecret⟩ := Agrees.linear hi hn hw hb.1 (-2) (-1)
  have hbits := hgs.2
  simp only [bitDecomposeTwo_getD] at hbits
  exact ⟨⟨hout, hb.1, hw, hgs.1, hpv⟩, fun _ _ =>
    ⟨b, w, gs, pv, rfl, hsecret.trans (by ring), hbits, hb.2⟩⟩

def GateType.offline (t : GateType) : Bool := t.special || t.arithmetic

theorem offlineGate_of_arithmetic {id : ℕ} {ipm : ℕ → ℕ} {c : FieldGates M} {g : Gate (Field M)}
    (ht : g.type.special = false) : offlineGate nP id k ipm c g =
      Offline.arith (arithmeticGate nP id k.key k.keySh c g.op) >>= fun pregate =>
        pure (setGate c g.out pregate) := by
  obtain ⟨op, out⟩ := g
  cases op <;> first | rfl | cases ht

/-- The post-condition of one step: the gate is set, and it is good. -/
def StepPost (nP i : ℕ) (shared : Prop) (k : Keys M) (ipm : ℕ → ℕ) (c d : FieldGates M) (g : Gate (Field M))
    (c' d' : FieldGates M) : Prop :=
  ∃ pc pd, c' = Function.update c g.out pc ∧ d' = Function.update d g.out pd ∧
    PreprocGate.Agrees nP (fun j => k.keySh.getD j 0) i
      (ComparisonGate.Agrees nP (fun j => k.keySh.getD j 0) (fun j => k.bkeySh.getD j 0) i shared) pc pd ∧
    FieldOpens ipm (fun w => (c w).secret) g pc

theorem offlineGate_grows (hi : 1 ≤ i) (hn : i ≤ nP) (hk : KeysAgree nP i k k') (ipm : ℕ → ℕ)
    (c : FieldGates M) (g : Gate (Field M)) :
    (offlineInStep nP i shared Qa Qb).Grows (offlineGate nP 0 k ipm c g) := by
  cases ht : g.type.special with
  | false =>
    rw [offlineGate_of_arithmetic ht]
    refine Coupling.Grows.bind ?_ fun _ => .pure _
    exact fun s => ⟨(arithmeticGate_coupled hi hn hk.arith k.keySh (fun _ _ => True) c c g.op).1
      ⟨s.rgen, s.arith⟩, fun _ => List.prefix_rfl⟩
  | true =>
    obtain ⟨op, out⟩ := g
    cases op with
    | kInp =>
      exact (arith_coupled (randomShareWithParty_coupled hi hn hk.arith k.keySh _)).grows.bind
        fun _ => .pure _
    | kEqz a => exact (eqzGate_coupled hi hn hk c c a).grows.bind fun _ => .pure _
    | kLtz a => exact (ltzGate_coupled hi hn hk c c a).grows.bind fun _ => .pure _
    | _ => cases ht

theorem offlineGate_sim (hi : 1 ≤ i) (hn : i ≤ nP) (hk : KeysAgree nP i k k') {ipm : ℕ → ℕ}
    {c d : FieldGates M} {g : Gate (Field M)} (ht : g.type.offline)
    (hin : ∀ w ∈ g.inputs, MaskShare.Agrees nP (fun j => k.keySh.getD j 0) i (c w).mask (d w).mask) :
    (offlineInStep nP i shared Qa Qb).Sim (offlineGate nP 0 k ipm c g) (offlineGate nP i k' ipm d g)
      (StepPost nP i shared k ipm c d g) := by
  cases hs : g.type.special with
  | false =>
    have har : g.type.arithmetic := by simpa [GateType.offline, hs] using ht
    obtain ⟨key', keySh', bkey', bkeySh'⟩ := k'
    obtain ⟨hka, hkb, rfl, rfl⟩ := hk
    rw [offlineGate_of_arithmetic hs, offlineGate_of_arithmetic hs]
    have hgate : (inStep nP i shared Qa).Grows _ ∧ _ := arithmeticGate_coupled hi hn hka keySh'
      (ComparisonGate.Agrees nP (fun j => k.keySh.getD j 0) (fun j => k.bkeySh.getD j 0) i shared)
      c d g.op
    refine (arith_coupled ⟨hgate.1, hgate.2 hin⟩).sim.bind (fun _ => .pure _)
      fun pa pb hp => .pure ?_
    rw [GatePost, if_pos har] at hp
    obtain ⟨pc, pd, rfl, rfl, hag, hop⟩ := hp
    exact ⟨pc, pd, rfl, rfl, hag, (fieldOpens_iff hs).mpr hop⟩
  | true =>
    obtain ⟨op, out⟩ := g
    cases op with
    | kInp =>
      obtain ⟨key', keySh', bkey', bkeySh'⟩ := k'
      obtain ⟨hka, hkb, rfl, rfl⟩ := hk
      refine (arith_coupled (randomShareWithParty_coupled hi hn hka keySh' _)).sim.bind
        (fun _ => .pure _) fun a b hab => .pure ?_
      refine ⟨⟨a.1, .input (ipm out) a.2⟩, ⟨b.1, .input (ipm out) b.2⟩, rfl, rfl,
        ⟨hab.1, rfl, hab.2.2⟩, ?_⟩
      change PreprocExt.input (ipm out) a.2 = .input (ipm out) a.1.secret
      rw [hab.2.1]
    | kEqz a =>
      exact (eqzGate_coupled hi hn hk c d a).sim.bind (fun _ => .pure _) fun pa pb hp =>
        .pure ⟨pa, pb, rfl, rfl, hp.1, hp.2 ipm out⟩
    | kLtz a =>
      exact (ltzGate_coupled hi hn hk c d a).sim.bind (fun _ => .pure _) fun pa pb hp =>
        .pure ⟨pa, pb, rfl, rfl, hp.1, hp.2 ipm out⟩
    | _ => cases hs

/-- What holds when the walk over a circuit is over. -/
structure WalkPost (nP i : ℕ) (shared : Prop) (ipm : ℕ → ℕ) (circ : Circuit (Field M)) (a b : OfflineResult M) :
    Prop where
  keys : KeysAgree nP i a.keys b.keys
  gates : ∀ g ∈ circ.gates_, FieldGood nP (fun j => a.keys.keySh.getD j 0)
    (fun j => a.keys.bkeySh.getD j 0) i shared ipm a.gates b.gates g

theorem gatesLoop_coupled (hi : 1 ≤ i) (hn : i ≤ nP) (hk : KeysAgree nP i k k') (ipm : ℕ → ℕ)
    (circ : Circuit (Field M)) (htypes : ∀ g ∈ circ.gates_, g.type.offline) :
    (offlineInStep nP i shared Qa Qb).Coupled
      (circ.orderGatesByLevel.gates_by_level.flatten.foldlM (offlineGate nP 0 k ipm) fun _ => default)
      (circ.orderGatesByLevel.gates_by_level.flatten.foldlM (offlineGate nP i k' ipm) fun _ => default)
      fun c d => ∀ g ∈ circ.gates_, FieldGood nP (fun j => k.keySh.getD j 0)
        (fun j => k.bkeySh.getD j 0) i shared ipm c d g := by
  refine gatesLoop _ circ (FieldGood nP (fun j => k.keySh.getD j 0) (fun j => k.bkeySh.getD j 0) i
    shared ipm) (fun c g => offlineGate_grows hi hn hk ipm c g) (fun h hc hd hout hin =>
      h.congr hc hd hout hin) (fun c d x hx hgood hself => ?_) _ _
  have hmask : ∀ w ∈ x.inputs, MaskShare.Agrees nP (fun j => k.keySh.getD j 0) i (c w).mask
      (d w).mask := by
    intro w hw
    obtain ⟨g, hg, rfl⟩ := hgood w hw
    exact hg.agrees.mask
  intro s t hr hok
  obtain ⟨hr', pc, pd, hc, hd, hag, hop⟩ :=
    offlineGate_sim hi hn hk (htypes x hx) hmask s t hr hok
  refine ⟨hr', pc, pd, hc, hd, ?_, ?_⟩
  · rw [hc, hd, Function.update_self, Function.update_self]
    exact hag
  · rw [hc, Function.update_self]
    exact hop.congr fun w hw => by rw [Function.update_of_ne (fun e : w = x.out => hself (e ▸ hw))]

theorem setWireMasksParty_coupled (hi : 1 ≤ i) (hn : i ≤ nP) (ipm : ℕ → ℕ)
    (circ : Circuit (Field M)) (htypes : ∀ g ∈ circ.gates_, g.type.offline) :
    (offlineInStep nP i shared Qa Qb).Sim (setWireMasksParty nP 0 ipm circ.orderGatesByLevel)
      (setWireMasksParty nP i ipm circ.orderGatesByLevel) (WalkPost nP i shared ipm circ) := by
  have hgrows : ∀ (a : Field M × List (Field M)) (b : BoolRing × List BoolRing),
      KeysOk nP (fun j => a.2.getD j 0) a.1 a.2 → KeysOk nP (fun j => b.2.getD j 0) b.1 b.2 →
      ∀ c g, (offlineInStep nP i shared Qa Qb).Grows (offlineGate nP 0 ⟨a.1, a.2, b.1, b.2⟩ ipm c g) :=
    fun a b ha hb c g => by
      have hk : KeysAgree nP i ⟨a.1, a.2, b.1, b.2⟩ ⟨a.2.getD i 0, [], b.2.getD i 0, []⟩ :=
        ⟨ha, hb, rfl, rfl⟩
      exact offlineGate_grows hi hn hk ipm c g
  simp only [setWireMasksParty, foldlM_flatten]
  refine (arith_coupled (keyGen_coupled hi hn)).sim.bind_of (fun s => ?_) fun a b hab => ?_
  · have ha := keyGen_ok (R := Field M) nP ⟨s.rgen, s.arith⟩
    intro s'
    have hb := keyGen_ok (R := BoolRing) nP ⟨s'.rgen, s'.bool⟩
    refine (offlineInStep nP i shared Qa Qb).trans ((bool_coupled (keyGen_coupled hi hn)).grows s') ?_
    exact Coupling.Grows.bind (Coupling.Grows.foldlM _ _ (hgrows _ _ ha hb) _) (fun _ => .pure _) _
  · refine (bool_coupled (keyGen_coupled hi hn)).sim.bind_of (fun s => ?_) fun ab bb hbb => ?_
    · have hb := keyGen_ok (R := BoolRing) nP ⟨s.rgen, s.bool⟩
      exact Coupling.Grows.bind (Coupling.Grows.foldlM _ _ (hgrows _ _ hab.1 hb) _) (fun _ => .pure _)
    · have hk : KeysAgree nP i ⟨a.1, a.2, ab.1, ab.2⟩ ⟨b.1, b.2, bb.1, bb.2⟩ :=
        ⟨hab.1, hbb.1, hab.2, hbb.2⟩
      refine (gatesLoop_coupled hi hn hk ipm circ htypes).sim.bind (fun _ => .pure _)
        fun c d hcd => .pure ⟨hk, hcd⟩

end Walk

end QSync
