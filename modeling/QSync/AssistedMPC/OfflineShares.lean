import QSync.Asterisk.OfflineShares
import QSync.AssistedMPC.Offline

/-! # What the trusted party pushes, a party takes

`reading` relates the trusted party's state to that of party `i`: the party holds the vectors the
trusted party will have filled in the end, and is in each of them where the trusted party has come
to. A sharing the trusted party makes is valid, and what party `i` takes for it is its component.
-/

namespace QSync.AssistedMPC
open Network
set_option autoImplicit false
set_option maxHeartbeats 250000

variable {R : Type} [RandomRing R]

/-! ## The trusted party -/

def skip (R : Type) [RandomRing R] (n : ℕ) (rgen : RandGenPool) : RandGenPool :=
  Function.update rgen .self ((Stream.next R)^[n] (rgen .self))

theorem skip_skip (m n : ℕ) (rgen : RandGenPool) : skip R n (skip R m rgen) = skip R (m + n) rgen := by
  simp only [skip, Function.update_self, Function.update_idem]
  rw [Nat.add_comm, Function.iterate_add_apply]

omit [RandomRing R] in
theorem pushTo_queues (q : QueueName) (p : ℕ) (x : R) (s : HelperState R) (p' : ℕ) (q' : QueueName) :
    (pushTo q p x s).2.queues p' q' =
      s.queues p' q' ++ if p' = p ∧ q' = q then [x] else [] := by
  by_cases hp : p' = p
  · subst hp
    by_cases hq : q' = q
    · subst hq
      simp [pushTo]
    · simp [pushTo, hq]
  · simp [pushTo, hp]

theorem dealPair_eq (q : QueueName) (i : ℕ) (s : HelperState R) :
    (dealPair q i s).1 = ((s.rgen .self).value R, ((s.rgen .self).next R).value R) ∧
    (dealPair q i s).2.rgen = skip R 2 s.rgen ∧
    ∀ p q', (dealPair q i s).2.queues p q' = s.queues p q' ++
      if p = i ∧ q' = q then [(dealPair q i s).1.1, (dealPair q i s).1.2] else [] := by
  have hval : (dealPair q i s).1 = ((s.rgen .self).value R, ((s.rgen .self).next R).value R) := by
    change ((s.rgen .self).value R, Stream.value R (skip R 1 s.rgen .self)) = _
    rw [skip, Function.update_self, Function.iterate_one]
  refine ⟨hval, skip_skip 1 1 s.rgen, fun p q' => ?_⟩
  change (pushTo q i _ { (pushTo q i _ _).2 with rgen := _ }).2.queues p q' = _
  rw [pushTo_queues, pushTo_queues]
  by_cases h : p = i ∧ q' = q
  · simp only [if_pos h, List.append_assoc]
    rfl
  · simp only [if_neg h, List.append_nil]

/-- Value and tag of party `p` among pairs that start with party `a`. -/
def pairAt {R : Type} (drawn : List (R × R)) (a p : ℕ) : List R :=
  if a ≤ p then (drawn[p - a]?).elim [] fun x => [x.1, x.2] else []

theorem dealPairs_spec (q : QueueName) (n a : ℕ) (s : HelperState R) :
    let r := (List.range' a n).mapM (dealPair q) s
    r.1.length = n ∧ r.2.rgen = skip R (2 * n) s.rgen ∧
    ∀ p q', r.2.queues p q' = s.queues p q' ++ if q' = q then pairAt r.1 a p else [] := by
  induction n generalizing a s with
  | zero =>
    refine ⟨rfl, (Function.update_eq_self _ _).symm, fun p q' => ?_⟩
    change s.queues p q' = s.queues p q' ++ if q' = q then pairAt [] a p else []
    simp [pairAt]
  | succ n ih =>
    obtain ⟨hlen, hrgen, hqueues⟩ := ih (a + 1) (dealPair q a s).2
    obtain ⟨hval, hrgen₁, hqueues₁⟩ := dealPair_eq q a s
    have hrun : (List.range' a (n + 1)).mapM (dealPair q) s =
        ((dealPair q a s).1 ::
          ((List.range' (a + 1) n).mapM (dealPair q) (dealPair q a s).2).1,
          ((List.range' (a + 1) n).mapM (dealPair q) (dealPair q a s).2).2) := by
      rw [List.range'_succ, List.mapM_cons]
      rfl
    rw [hrun]
    refine ⟨congrArg Nat.succ hlen, ?_, fun p q' => ?_⟩
    · rw [hrgen, hrgen₁, skip_skip]
      congr 1
      omega
    · rw [hqueues, hqueues₁, List.append_assoc]
      congr 1
      by_cases hq : q' = q
      · obtain hlt | rfl | hgt := Nat.lt_trichotomy p a
        · simp [pairAt, hlt.ne, Nat.not_le.mpr hlt, show ¬ a + 1 ≤ p by omega]
        · simp [pairAt, hq]
        · have hsub : p - a = p - (a + 1) + 1 := by omega
          simp [pairAt, hq, hgt.ne', hgt.le, show a + 1 ≤ p from hgt, hsub]
      · simp [hq]

section Helper
variable {nP : ℕ} {f : ℕ → R} {key : R} {keySh : List R}

/-- What a sharing leaves behind: `n` elements are taken from `self`, and every party's vector `q` has
grown by its value and its tag. -/
structure Dealt (nP n : ℕ) (q : QueueName) (tp : TPShare R) (s s' : HelperState R) : Prop where
  rgen : s'.rgen = skip R n s.rgen
  queues : ∀ p, 1 ≤ p → p ≤ nP → ∀ q', s'.queues p q' = s.queues p q' ++
    if q' = q then [(tp.getAAS p).value_, (tp.getAAS p).tag_] else []

/-- `randomShareSecret_Helper` makes a valid sharing of the secret and pushes it. -/
theorem randomShareSecret_dealt (hn : 1 ≤ nP) (q : QueueName) (secret : R) (s : HelperState R) :
    let r := randomShareSecret_Helper q nP secret key keySh s
    (KeysOk nP f key keySh → r.1.tp.Valid nP f ∧ r.1.secret = secret) ∧
      Dealt nP (2 * (nP - 1)) q r.1.tp s r.2 := by
  obtain ⟨hlen, hrgen, hqueues⟩ := dealPairs_spec q (nP - 1) 1 s
  obtain ⟨drawn, s₁, hdrawn⟩ : ∃ drawn s₁,
      (List.range' 1 (nP - 1)).mapM (dealPair q) s = (drawn, s₁) := ⟨_, _, rfl⟩
  simp only [hdrawn] at hlen hrgen hqueues
  have hv : (drawn.map Prod.fst).length = nP - 1 := by rw [List.length_map, hlen]
  have ht : (drawn.map Prod.snd).length = nP - 1 := by rw [List.length_map, hlen]
  have hrun : randomShareSecret_Helper q nP secret key keySh s =
      (⟨zeroShare keySh, ⟨key, keySh,
          0 :: drawn.map Prod.fst ++ [secret - (0 :: drawn.map Prod.fst).sum],
          0 :: drawn.map Prod.snd ++ [key * secret - (0 :: drawn.map Prod.snd).sum]⟩⟩,
        (pushTo q nP (key * secret - (0 :: drawn.map Prod.snd).sum)
          (pushTo q nP (secret - (0 :: drawn.map Prod.fst).sum) s₁).2).2) := by
    rw [randomShareSecret_Helper, StateM.bind_apply, hdrawn]
    rfl
  rw [hrun]
  refine ⟨fun hk => closingShare_valid hn hk hv ht secret, hrgen, fun p hp hpn q' => ?_⟩
  rw [pushTo_queues, pushTo_queues, hqueues]
  simp only [List.append_assoc, TPShare.getAAS]
  congr 1
  rw [getD_cons_append hv _ _ hp, getD_cons_append ht _ _ hp]
  by_cases hq : q' = q
  · by_cases hlast : p = nP
    · subst hlast
      have hnone : drawn[p - 1]? = none := List.getElem?_eq_none (by omega)
      have hgt : ¬ p ≤ p - 1 := by omega
      simp [hq, pairAt, hp, hnone, hgt]
    · have hlt : p - 1 < drawn.length := by omega
      have hle : p ≤ nP - 1 := by omega
      simp [hq, pairAt, hp, hlast, hle, hlt]
  · simp [hq]

end Helper

/-! ## A party -/

/-- Party `i`, whose vectors are `Q`, has read what the trusted party has pushed. -/
def reading (i : ℕ) (Q : QueueName → List R) : Coupling (HelperState R) (DrawState R) where
  le s s' := ∀ q, s.queues i q <+: s'.queues i q
  refl _ _ := List.prefix_rfl
  trans h h' q := (h q).trans (h' q)
  rel s t := ∀ q, t.queues q = ⟨Q q, (s.queues i q).length⟩
  ok s := ∀ q, s.queues i q <+: Q q
  ok_of_le h h' q := (h q).trans (h' q)

section Reading
variable {nP i : ℕ} {Q : QueueName → List R} {f : ℕ → R} {key : R} {keySh : List R}

/-- A vector `q` that has grown by `xs`, and nothing else of party `i`. -/
def Pushed (i : ℕ) (q : QueueName) (xs : List R) (s s' : HelperState R) : Prop :=
  ∀ q', s'.queues i q' = s.queues i q' ++ if q' = q then xs else []

omit [RandomRing R] in
theorem Pushed.le {q : QueueName} {xs : List R} {s s' : HelperState R} (h : Pushed i q xs s s') :
    (reading i Q).le s s' := fun q' => by
  rw [h q']
  exact List.prefix_append _ _

omit [RandomRing R] in
theorem Pushed.rel {q : QueueName} {xs : List R} {s s' : HelperState R} (h : Pushed i q xs s s')
    {t : DrawState R} (hr : (reading i Q).rel s t) (rgen : RandGenPool) :
    (reading i Q).rel s' ⟨rgen,
      Function.update t.queues q ⟨(t.queues q).data, (t.queues q).idx + xs.length⟩⟩ := by
  intro q'
  by_cases hq : q' = q
  · subst hq
    simp [h q', hr q']
  · simp [h q', hr q', hq]

theorem Pushed.getD {q : QueueName} {xs : List R} {s s' : HelperState R} (h : Pushed i q xs s s')
    {t : DrawState R} (hr : (reading i Q).rel s t) (hok : (reading i Q).ok s') {k : ℕ}
    (hk : k < xs.length) :
    (t.queues q).data.getD ((t.queues q).idx + k) 0 = xs.getD k 0 := by
  obtain ⟨rest, hrest⟩ := hok q
  rw [h q, if_pos rfl] at hrest
  rw [hr q, ← hrest, List.append_assoc]
  simp [List.getD_eq_getElem?_getD, List.getElem?_append, hk]

theorem randomShare_Party_eq (q : QueueName) (key : R) (t : DrawState R) :
    randomShare_Party q key t =
      (⟨⟨key, (t.queues q).data.getD ((t.queues q).idx + 0) 0,
        (t.queues q).data.getD ((t.queues q).idx + 1) 0⟩, default⟩,
        ⟨t.rgen, Function.update t.queues q ⟨(t.queues q).data, (t.queues q).idx + 2⟩⟩) := by
  have h : randomShare_Party q key t = (⟨⟨key, (pop q t).1, (pop q (pop q t).2).1⟩, default⟩,
    (pop q (pop q t).2).2) := rfl
  rw [h]
  simp only [pop, Function.update_self, Function.update_idem, Nat.add_zero]

/-- A sharing the trusted party pushes into the vector `q`, taken from it by party `i`. -/
theorem randomShareSecret_coupled (hi : 1 ≤ i) (hn : i ≤ nP) (hk : KeysOk nP f key keySh)
    (q : QueueName) (secret : R) :
    (reading i Q).Coupled (randomShareSecret_Helper q nP secret key keySh)
      (randomShare_Party q (f i)) fun a b => MaskShare.Agrees nP f i a b ∧ a.secret = secret := by
  have hdealt : ∀ s : HelperState R, _ :=
    @randomShareSecret_dealt R _ nP f key keySh (hi.trans hn) q secret
  have hpushed : ∀ s : HelperState R, Pushed i q _ s _ := fun s => (hdealt s).2.queues i hi hn
  refine ⟨fun s => (hpushed s).le, fun s t hr hok => ?_⟩
  obtain ⟨hvalid, hsecret⟩ := (hdealt s).1 hk
  rw [randomShare_Party_eq]
  refine ⟨(hpushed s).rel hr t.rgen, ⟨hvalid, ?_⟩, hsecret⟩
  have hval := (hpushed s).getD hr hok (k := 0) (by simp)
  have htag := (hpushed s).getD hr hok (k := 1) (by simp)
  exact (AuthAddShare.mk.injEq ..).mpr ⟨(TPShare.getAAS_key hvalid hi hn).symm, hval, htag⟩

theorem drawSelf_coupled : (reading i Q).Coupled drawSelf (pure () : Draw R Unit)
    fun _ _ => True :=
  ⟨fun _ _ => List.prefix_rfl, fun _ _ hr _ => ⟨hr, trivial⟩⟩

theorem randomShare_coupled (hi : 1 ≤ i) (hn : i ≤ nP) (hk : KeysOk nP f key keySh) :
    (reading i Q).Coupled (randomShare_Helper nP key keySh) (randomShare_Party .rand_sh (f i))
      (MaskShare.Agrees nP f i) := by
  have hshare : ∀ x, (reading i Q).Coupled (randomShareSecret_Helper .rand_sh nP x key keySh)
      (randomShare_Party .rand_sh (f i)) (MaskShare.Agrees nP f i) := fun x =>
    (randomShareSecret_coupled hi hn hk .rand_sh x).weaken fun _ _ h => h.1
  exact drawSelf_coupled.bind (fun x => (hshare x).grows) fun x _ _ => (hshare x).sim

omit [RandomRing R] in
theorem pushTo_pushed (q : QueueName) (x : R) (s : HelperState R) :
    Pushed i q [x] s (pushTo q i x s).2 := fun q' => by
  simp [pushTo_queues]

theorem pushTo_coupled (q : QueueName) (x : R) :
    (reading i Q).Coupled (pushTo q i x) (pop q) fun _ b => b = x :=
  ⟨fun s => (pushTo_pushed q x s).le, fun s t hr hok =>
    ⟨(pushTo_pushed q x s).rel hr t.rgen, (pushTo_pushed q x s).getD hr hok Nat.one_pos⟩⟩

omit [RandomRing R] in
theorem pushTo_coupled_other {p : ℕ} (hp : i ≠ p) (q : QueueName) (x : R) :
    (reading i Q).Coupled (pushTo q p x) (pure () : Draw R Unit) fun _ _ => True := by
  have hsame : ∀ s : HelperState R, ∀ q', (pushTo q p x s).2.queues i q' = s.queues i q' :=
    fun s q' => by simp [pushTo_queues, hp]
  refine ⟨fun s q' => ?_, fun s t hr _ => ⟨fun q' => ?_, trivial⟩⟩
  · rw [hsame]
  · rw [hsame]
    exact hr q'

theorem randomShareWithParty_Dealer_coupled (hi : 1 ≤ i) (hn : i ≤ nP)
    (hk : KeysOk nP f key keySh) :
    (reading i Q).Coupled (randomShareWithParty_Helper nP i key keySh)
      (randomShareWithParty_Dealer (f i)) fun a b =>
        MaskShare.Agrees nP f i a b.1 ∧ b.2 = a.secret := by
  have hshare := randomShareSecret_coupled (Q := Q) hi hn hk .rand_sh_party
  have hpush : ∀ x (a : MaskShare R),
      (reading i Q).Grows (pushTo .rand_sh_party i x >>= fun _ => pure a) :=
    fun x a => (pushTo_coupled .rand_sh_party x).grows.bind fun _ => .pure _
  have hparty : randomShareWithParty_Dealer (f i) =
      (pure () >>= fun _ => randomShare_Party .rand_sh_party (f i) >>= fun b =>
        pop .rand_sh_party >>= fun y => pure (b, y) : Draw R (MaskShare R × R)) := rfl
  rw [hparty]
  exact drawSelf_coupled.bind (fun x => (hshare x).grows.bind (hpush x)) fun x _ _ =>
    (hshare x).sim.bind (hpush x) fun a b hab =>
      (pushTo_coupled .rand_sh_party x).sim.bind (fun _ => .pure _) fun _ y hy =>
        .pure ⟨hab.1, hy.trans hab.2.symm⟩

theorem randomShareWithParty_Party_coupled (hi : 1 ≤ i) (hn : i ≤ nP) (hk : KeysOk nP f key keySh)
    {dealer : ℕ} (hdealer : i ≠ dealer) :
    (reading i Q).Coupled (randomShareWithParty_Helper nP dealer key keySh)
      (randomShareWithParty_Party (f i)) (MaskShare.Agrees nP f i) := by
  have hshare := randomShareSecret_coupled (Q := Q) hi hn hk .rand_sh_party
  have hpush : ∀ x (a : MaskShare R),
      (reading i Q).Grows (pushTo .rand_sh_party dealer x >>= fun _ => pure a) :=
    fun x a => (pushTo_coupled_other hdealer .rand_sh_party x).grows.bind fun _ => .pure _
  have hparty : randomShareWithParty_Party (f i) =
      (pure () >>= fun _ => randomShare_Party .rand_sh_party (f i) >>= fun b =>
        pure () >>= fun _ => pure b : Draw R (MaskShare R)) := rfl
  rw [hparty]
  exact drawSelf_coupled.bind (fun x => (hshare x).grows.bind (hpush x)) fun x _ _ =>
    (hshare x).sim.bind (hpush x) fun a b hab =>
      (pushTo_coupled_other hdealer .rand_sh_party x).sim.bind (fun _ => .pure _) fun _ _ _ =>
        .pure hab.1

end Reading

/-! ## Masks on a tape -/

def tape (self : Stream) (pos : ℕ) : R := ((Stream.next R)^[pos] self).value R

def take (elems : ℕ → R) : StateM ℕ R := fun pos => (elems pos, pos + 1)

/-- Pass over what `randomShareSecret_Helper` draws. -/
def passShare (nP : ℕ) : StateM ℕ Unit := fun pos => ((), pos + 2 * (nP - 1))

/-- The element that `randomShare_Helper` shares. -/
def takeShared (nP : ℕ) (elems : ℕ → R) : StateM ℕ R := do
  let x ← take elems
  passShare nP
  pure x

/-- The trusted party has drawn as many elements from `self` as have been passed on the tape. -/
def taping (R : Type) [RandomRing R] (self : Stream) : Coupling (HelperState R) ℕ where
  le _ _ := True
  refl _ := trivial
  trans _ _ := trivial
  rel s pos := s.rgen .self = (Stream.next R)^[pos] self
  ok _ := True
  ok_of_le _ _ := trivial

section Taping
variable {nP : ℕ} {self : Stream} {f : ℕ → R} {key : R} {keySh : List R}

theorem taping_grows {α : Type} (m : Helper R α) : (taping R self).Grows m := fun _ => trivial

theorem drawSelf_taped : (taping R self).Sim drawSelf (take (tape self)) fun x y => x = y := by
  intro s pos hr _
  refine ⟨?_, congrArg (Stream.value R) hr⟩
  change skip R 1 s.rgen .self = _
  rw [skip, Function.update_self, hr, ← Function.iterate_add_apply, Nat.add_comm]
  rfl

theorem randomShareSecret_taped (hn : 1 ≤ nP) (hk : KeysOk nP f key keySh) (q : QueueName)
    (secret : R) :
    (taping R self).Sim (randomShareSecret_Helper q nP secret key keySh) (passShare nP)
      fun a _ => a.tp.Valid nP f ∧ a.secret = secret := by
  intro s pos hr _
  obtain ⟨hvalid, hdealt⟩ :=
    @randomShareSecret_dealt R _ nP f key keySh hn q secret s
  refine ⟨?_, hvalid hk⟩
  change (randomShareSecret_Helper q nP secret key keySh s).2.rgen .self = _
  rw [hdealt.rgen, skip, Function.update_self, hr, ← Function.iterate_add_apply, Nat.add_comm]
  rfl

theorem randomShare_taped (hn : 1 ≤ nP) (hk : KeysOk nP f key keySh) :
    (taping R self).Sim (randomShare_Helper nP key keySh) (takeShared nP (tape self))
      fun a x => a.tp.Valid nP f ∧ a.secret = x := by
  have hparty : randomShare_Helper nP key keySh = (drawSelf >>= fun x =>
      randomShareSecret_Helper .rand_sh nP x key keySh >>= fun a => pure a) := rfl
  rw [hparty]
  refine drawSelf_taped.bind (fun _ => taping_grows _) fun x y hxy => ?_
  subst hxy
  exact (randomShareSecret_taped hn hk _ x).bind (fun _ => taping_grows _) fun _ _ h => .pure h

theorem randomShareWithParty_taped (hn : 1 ≤ nP) (hk : KeysOk nP f key keySh) (dealer : ℕ) :
    (taping R self).Sim (randomShareWithParty_Helper nP dealer key keySh)
      (takeShared nP (tape self)) fun a x => a.tp.Valid nP f ∧ a.secret = x := by
  have htape : takeShared nP (tape self) = (take (tape self) >>= fun x => passShare nP >>= fun _ =>
      pure () >>= fun _ => pure x : StateM ℕ R) := rfl
  have hpush : ∀ x : R, (taping R self).Sim (pushTo .rand_sh_party dealer x)
      (pure () : StateM ℕ Unit) fun _ _ => True := fun _ _ _ hr _ => ⟨hr, trivial⟩
  rw [htape]
  refine drawSelf_taped.bind (fun _ => taping_grows _) fun x y hxy => ?_
  subst hxy
  exact (randomShareSecret_taped hn hk _ x).bind (fun _ => taping_grows _) fun _ _ h =>
    (hpush x).bind (fun _ => taping_grows _) fun _ _ _ => .pure h

end Taping

end QSync.AssistedMPC
