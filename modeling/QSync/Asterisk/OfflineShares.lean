import QSync.Asterisk.Offline
import QSync.Foundations.Coupling

/-! # The trusted party and one party draw the same shares

`InStep` relates the state of the trusted party and of party `i` while both run the same function:
the stream they share is at the same place, and party `nP` has read as much of each queue as the
trusted party has filled. `randomShare`, `randomShareSecret` and `randomShareWithParty` keep it and
give party `i` its component of a valid sharing.
-/

namespace QSync
open Network
set_option autoImplicit false
set_option maxHeartbeats 250000

variable {R : Type} [RandomRing R]

/-! ## Draws -/

theorem draw_eq (name : StreamName) (s : DrawState R) :
    draw name s = ((s.rgen name).value R,
      { s with rgen := Function.update s.rgen name ((s.rgen name).next R) }) := rfl

theorem drawPair_eq (name : StreamName) (s : DrawState R) :
    drawPair name s = (((s.rgen name).value R, ((s.rgen name).next R).value R),
      { s with rgen := Function.update s.rgen name (((s.rgen name).next R).next R) }) := by
  have h : drawPair name s = (((draw name s).1, (draw name (draw name s).2).1),
    (draw name (draw name s).2).2) := rfl
  rw [h]
  simp only [draw_eq, Function.update_self, Function.update_idem]

/-- The streams after `f` of those shared with the parties `l`. -/
def onPis (l : List ℕ) (f : Stream → Stream) (rgen : RandGenPool) : RandGenPool := fun n =>
  match n with
  | .pi i => if i ∈ l then f (rgen (.pi i)) else rgen (.pi i)
  | n => rgen n

theorem onPis_cons {i : ℕ} {l : List ℕ} (hi : i ∉ l) (f : Stream → Stream) (rgen : RandGenPool) :
    onPis l f (Function.update rgen (.pi i) (f (rgen (.pi i)))) = onPis (i :: l) f rgen := by
  funext n
  cases n with
  | pi j =>
    by_cases hj : j = i
    · subst hj
      simp [onPis, hi]
    · simp [onPis, hj]
  | self => rfl
  | all_minus_0 => rfl
  | all => rfl
  | p0 => rfl

omit [RandomRing R] in
theorem drawEach_eq {α : Type} (m : StreamName → Draw R α) (val : Stream → α)
    (next : Stream → Stream)
    (hm : ∀ name s, m name s = (val (s.rgen name),
      { s with rgen := Function.update s.rgen name (next (s.rgen name)) }))
    (l : List ℕ) (hl : l.Nodup) (s : DrawState R) :
    (l.mapM fun i => m (.pi i)) s = (l.map fun i => val (s.rgen (.pi i)),
      { s with rgen := onPis l next s.rgen }) := by
  induction l generalizing s with
  | nil =>
    have h : onPis [] next s.rgen = s.rgen := by
      funext n
      cases n <;> rfl
    rw [h]
    rfl
  | cons i l ih =>
    obtain ⟨hi, hl⟩ := List.nodup_cons.mp hl
    have hrest := ih hl (m (.pi i) s).2
    have hval : (l.map fun j => val ((m (.pi i) s).2.rgen (.pi j))) =
        l.map fun j => val (s.rgen (.pi j)) := by
      refine List.map_congr_left fun j hj => ?_
      have hji : j ≠ i := fun e => hi (e ▸ hj)
      simp [hm, hji]
    have hstep : ((i :: l).mapM fun i => m (.pi i)) s = ((m (.pi i) s).1 ::
        ((l.mapM fun i => m (.pi i)) (m (.pi i) s).2).1,
          ((l.mapM fun i => m (.pi i)) (m (.pi i) s).2).2) := by
      rw [List.mapM_cons]
      rfl
    rw [hstep, hrest, hval]
    simp only [hm]
    rw [onPis_cons hi next]
    rfl

theorem drawPairs_eq (l : List ℕ) (hl : l.Nodup) (s : DrawState R) :
    (l.mapM fun i => drawPair (.pi i)) s =
      (l.map fun i => ((s.rgen (.pi i)).value R, ((s.rgen (.pi i)).next R).value R),
        { s with rgen := onPis l (fun t => (t.next R).next R) s.rgen }) :=
  drawEach_eq drawPair (fun t => (t.value R, (t.next R).value R)) (fun t => (t.next R).next R)
    drawPair_eq l hl s

/-! ## The relation -/

/-- The trusted party in state `s` and party `i` in state `t` are at the same place. Whether they
also have one stream `all` in common is left open (`shared`). -/
structure InStep (nP i : ℕ) (shared : Prop) (Q : QueueName → List R) (s t : DrawState R) :
    Prop where
  own : s.rgen (.pi i) = t.rgen .p0
  common : shared → s.rgen .all = t.rgen .all
  reads : i = nP → ∀ q, t.queues q = ⟨Q q, (s.queues q).data.length⟩

/-- Party `i` follows the trusted party, whose queues end up as `Q`. -/
def inStep (nP i : ℕ) (shared : Prop) (Q : QueueName → List R) :
    Coupling (DrawState R) (DrawState R) where
  le s s' := ∀ q, (s.queues q).data <+: (s'.queues q).data
  refl _ _ := List.prefix_rfl
  trans h h' q := (h q).trans (h' q)
  rel := InStep nP i shared Q
  ok s := ∀ q, (s.queues q).data <+: Q q
  ok_of_le h h' q := (h q).trans (h' q)

/-- The keys the trusted party holds are those of the parties `1..nP`. -/
structure KeysOk (nP : ℕ) (f : ℕ → R) (key : R) (keySh : List R) : Prop where
  key_eq : key = ∑ i ∈ Finset.Icc 1 nP, f i
  keySh_eq : keySh = 0 :: (List.range nP).map fun i => f (i + 1)

/-! ## The trusted party's sharings -/

section Leader
variable (nP : ℕ) (key : R) (keySh : List R)

/-- The first and the second draw of each of the parties `1..n`. -/
def firstDraws (R : Type) [RandomRing R] (n : ℕ) (rgen : RandGenPool) : List R :=
  (List.range' 1 n).map fun i => (rgen (.pi i)).value R

def secondDraws (R : Type) [RandomRing R] (n : ℕ) (rgen : RandGenPool) : List R :=
  (List.range' 1 n).map fun i => ((rgen (.pi i)).next R).value R

theorem firstDraws_getD {n i : ℕ} (rgen : RandGenPool) (hi : 1 ≤ i) (hn : i ≤ n) :
    (firstDraws R n rgen).getD (i - 1) 0 = (rgen (.pi i)).value R := by
  have h1 : i - 1 < n := by omega
  have h2 : 1 + (i - 1) = i := by omega
  simp [firstDraws, List.getD_eq_getElem?_getD, h1, h2]

theorem secondDraws_getD {n i : ℕ} (rgen : RandGenPool) (hi : 1 ≤ i) (hn : i ≤ n) :
    (secondDraws R n rgen).getD (i - 1) 0 = ((rgen (.pi i)).next R).value R := by
  have h1 : i - 1 < n := by omega
  have h2 : 1 + (i - 1) = i := by omega
  simp [secondDraws, List.getD_eq_getElem?_getD, h1, h2]

theorem randomShare_zero (s : DrawState R) :
    randomShare nP 0 key keySh s =
      let values := 0 :: firstDraws R nP s.rgen
      let tags := 0 :: secondDraws R (nP - 1) s.rgen
      let tagn := key * values.sum - tags.sum
      (⟨zeroShare keySh, ⟨key, keySh, values, tags ++ [tagn]⟩⟩,
        (push .rand_sh [tagn] { s with
          rgen := onPis (List.range' 1 nP) (fun t => (t.next R).next R) s.rgen }).2) := by
  have ht : ((List.range' 1 nP).map fun i => ((s.rgen (.pi i)).value R,
      ((s.rgen (.pi i)).next R).value R)).dropLast.map Prod.snd =
        secondDraws R (nP - 1) s.rgen := by
    rw [← List.map_dropLast, List.map_map, secondDraws]
    cases nP with
    | zero => rfl
    | succ n =>
      rw [List.range'_concat, List.dropLast_concat]
      rfl
  rw [randomShare, if_pos rfl, StateM.bind_apply, drawPairs_eq _ List.nodup_range']
  simp only [ht, List.map_map]
  rfl

theorem shareSecret_zero (q : QueueName) (secret : R) (s : DrawState R) :
    shareSecret q nP 0 secret key keySh s =
      let values := 0 :: firstDraws R (nP - 1) s.rgen
      let tags := 0 :: secondDraws R (nP - 1) s.rgen
      let valn := secret - values.sum
      let tagn := key * secret - tags.sum
      (⟨zeroShare keySh, ⟨key, keySh, values ++ [valn], tags ++ [tagn]⟩⟩,
        (push q [valn, tagn] { s with
          rgen := onPis (List.range' 1 (nP - 1)) (fun t => (t.next R).next R) s.rgen }).2) := by
  rw [shareSecret, if_pos rfl, StateM.bind_apply, drawPairs_eq _ List.nodup_range']
  simp only [List.map_map]
  rfl

end Leader

theorem getD_cons_append {l : List R} {n i : ℕ} (hl : l.length = n) (a b : R) (hi : 1 ≤ i) :
    (a :: l ++ [b]).getD i 0 = if i ≤ n then l.getD (i - 1) 0 else [b].getD (i - 1 - n) 0 := by
  obtain ⟨j, rfl⟩ : ∃ j, i = j + 1 := ⟨i - 1, by omega⟩
  by_cases hj : j + 1 ≤ n
  · have h : j < l.length := by omega
    simp [List.getD_eq_getElem?_getD, hj, List.getElem?_append, h]
  · have h : ¬ j < l.length := by omega
    have h' : ¬ j < n := by omega
    simp [List.getD_eq_getElem?_getD, h', List.getElem?_append, hl]

section Validity
variable {nP : ℕ} {f : ℕ → R} {key : R} {keySh : List R}

theorem randomShare_valid (hn : 1 ≤ nP) (hk : KeysOk nP f key keySh) (s : DrawState R) :
    (randomShare nP 0 key keySh s).1.tp.Valid nP f := by
  rw [randomShare_zero]
  refine ⟨hk.key_eq, hk.keySh_eq, ?_, ?_, rfl, rfl, ?_⟩
  · simp [firstDraws]
  · simp [secondDraws]
    omega
  · simp only [List.sum_append, List.sum_singleton]
    ring

/-- The value and the tag of the last party make any others a sharing of `secret`. -/
theorem closingShare_valid (hn : 1 ≤ nP) (hk : KeysOk nP f key keySh) {vals tags : List R}
    (hv : vals.length = nP - 1) (ht : tags.length = nP - 1) (secret : R) :
    let tp : TPShare R := ⟨key, keySh, 0 :: vals ++ [secret - (0 :: vals).sum],
      0 :: tags ++ [key * secret - (0 :: tags).sum]⟩
    tp.Valid nP f ∧ tp.secret = secret := by
  have hsum : (0 :: vals ++ [secret - (0 :: vals).sum]).sum = secret := by
    simp only [List.sum_append, List.sum_singleton]
    ring
  refine ⟨⟨hk.key_eq, hk.keySh_eq, ?_, ?_, rfl, rfl, ?_⟩, hsum⟩
  · simp only [List.length_append, List.length_cons, List.length_nil, hv]
    omega
  · simp only [List.length_append, List.length_cons, List.length_nil, ht]
    omega
  · simp only [hsum]
    simp only [List.sum_append, List.sum_singleton]
    ring

theorem shareSecret_valid (hn : 1 ≤ nP) (hk : KeysOk nP f key keySh) (q : QueueName) (secret : R)
    (s : DrawState R) : (shareSecret q nP 0 secret key keySh s).1.tp.Valid nP f ∧
      (shareSecret q nP 0 secret key keySh s).1.secret = secret := by
  rw [shareSecret_zero]
  exact closingShare_valid hn hk (by simp [firstDraws]) (by simp [secondDraws]) secret

end Validity

/-! ## Both parties together -/

section Coupled
variable {nP i : ℕ} {shared : Prop} {Q : QueueName → List R} {f : ℕ → R} {key : R}
  {keySh : List R}

omit [RandomRing R] in
theorem push_grows (q : QueueName) (xs : List R) (s : DrawState R) (rgen : RandGenPool)
    (q' : QueueName) :
    (s.queues q').data <+: ((push q xs { s with rgen := rgen }).2.queues q').data := by
  by_cases h : q' = q
  · subst h
    simp [push]
  · simp [push, h]

omit [RandomRing R] in
theorem grows_of_eq {α : Type} {m : Draw R α} {q : QueueName} {xs : DrawState R → List R}
    {rgen : DrawState R → RandGenPool}
    (h : ∀ s, (m s).2 = (push q (xs s) { s with rgen := rgen s }).2) :
    (inStep nP i shared Q).Grows m := fun s q' => by
  rw [h]
  exact push_grows q _ s _ q'

theorem randomShare_grows (nP' : ℕ) (key : R) (keySh : List R) :
    (inStep nP i shared Q).Grows (randomShare nP' 0 key keySh) :=
  grows_of_eq fun s => congrArg Prod.snd (randomShare_zero nP' key keySh s)

theorem shareSecret_grows (q : QueueName) (nP' : ℕ) (secret key : R) (keySh : List R) :
    (inStep nP i shared Q).Grows (shareSecret q nP' 0 secret key keySh) :=
  grows_of_eq fun s => congrArg Prod.snd (shareSecret_zero nP' key keySh q secret s)

omit [RandomRing R] in
/-- The relation after the trusted party has pushed and party `i` has read what was pushed. -/
theorem InStep.push {s t : DrawState R} (h : InStep nP i shared Q s t) (q : QueueName) (xs : List R)
    {rgen rgen' : RandGenPool} (hown : rgen (.pi i) = rgen' .p0) (hall : shared → rgen .all = rgen' .all)
    {queues : QueueName → Queue R}
    (hq : i = nP → queues =
      Function.update t.queues q ⟨(t.queues q).data, (t.queues q).idx + xs.length⟩) :
    InStep nP i shared Q (push q xs { s with rgen := rgen }).2 ⟨rgen', queues⟩ := by
  refine ⟨hown, hall, fun hi q' => ?_⟩
  rw [hq hi]
  by_cases h' : q' = q
  · subst h'
    simp [QSync.push, h.reads hi q']
  · simp [QSync.push, h', h.reads hi q']

theorem getD_of_pushed {s t : DrawState R} (h : InStep nP i shared Q s t) (hi : i = nP) {q : QueueName}
    {xs : List R} {rgen : RandGenPool}
    (hok : (inStep nP i shared Q).ok (push q xs { s with rgen := rgen }).2) {k : ℕ} (hk : k < xs.length) :
    (t.queues q).data.getD ((t.queues q).idx + k) 0 = xs.getD k 0 := by
  have hq := h.reads hi q
  have hpre : (s.queues q).data ++ xs <+: Q q := by
    have := hok q
    simpa [QSync.push] using this
  obtain ⟨rest, hrest⟩ := hpre
  rw [hq, ← hrest, List.append_assoc]
  simp [List.getD_eq_getElem?_getD, List.getElem?_append, hk]

theorem onPis_mem {l : List ℕ} {j : ℕ} (h : j ∈ l) (g : Stream → Stream) (rgen : RandGenPool) :
    onPis l g rgen (.pi j) = g (rgen (.pi j)) := if_pos h

theorem onPis_not_mem {l : List ℕ} {j : ℕ} (h : j ∉ l) (g : Stream → Stream)
    (rgen : RandGenPool) : onPis l g rgen (.pi j) = rgen (.pi j) := if_neg h

theorem randomShare_coupled (hi : 1 ≤ i) (hn : i ≤ nP) (hk : KeysOk nP f key keySh)
    (keySh' : List R) :
    (inStep nP i shared Q).Coupled (randomShare nP 0 key keySh) (randomShare nP i (f i) keySh')
      (MaskShare.Agrees nP f i) := by
  refine ⟨randomShare_grows _ _ _, fun s t hr hok => ?_⟩
  have hvalid := randomShare_valid (hi.trans hn) hk s
  rw [randomShare_zero] at hok hvalid ⊢
  have hval := firstDraws_getD (R := R) s.rgen hi hn
  have hi0 : i ≠ 0 := by omega
  have hlen : (secondDraws R (nP - 1) s.rgen).length = nP - 1 := by simp [secondDraws]
  have hmem : i ∈ List.range' 1 nP := by
    rw [List.mem_range'_1]
    omega
  have hkey : keySh.getD i 0 = f i := hvalid.key_sh_getD hi hn
  have hfst : ∀ l : List R, (0 :: l).getD i 0 = l.getD (i - 1) 0 := by
    obtain ⟨j, rfl⟩ : ∃ j, i = j + 1 := ⟨i - 1, by omega⟩
    intro l
    rfl
  have hown : onPis (List.range' 1 nP) (fun t => (t.next R).next R) s.rgen (.pi i) =
      Function.update t.rgen .p0 (((t.rgen .p0).next R).next R) .p0 := by
    rw [onPis_mem hmem, hr.own, Function.update_self]
  by_cases hin : i = nP
  · subst hin
    rw [randomShare, if_neg hi0, StateM.bind_apply, drawPair_eq]
    simp only [ne_eq, not_true_eq_false, if_false]
    refine ⟨hr.push _ _ hown hr.common fun _ => rfl, ⟨hvalid, ?_⟩⟩
    have htag := getD_of_pushed hr rfl hok (k := 0) Nat.one_pos
    refine (AuthAddShare.mk.injEq ..).mpr ⟨hkey.symm, ?_, ?_⟩
    · exact (hval.trans (by rw [hr.own])).symm.trans (hfst _).symm
    · refine htag.trans ?_
      rw [getD_cons_append hlen _ _ hi, if_neg (by omega), show i - 1 - (i - 1) = 0 by omega]
  · rw [randomShare, if_neg hi0, StateM.bind_apply, drawPair_eq]
    simp only [ne_eq, hin, not_false_eq_true, if_true]
    refine ⟨hr.push _ _ hown hr.common fun h => absurd h hin, ⟨hvalid, ?_⟩⟩
    refine (AuthAddShare.mk.injEq ..).mpr ⟨hkey.symm, ?_, ?_⟩
    · exact (hval.trans (by rw [hr.own])).symm.trans (hfst _).symm
    · have hsnd := secondDraws_getD (R := R) s.rgen hi (n := nP - 1) (by omega)
      rw [getD_cons_append hlen _ _ hi, if_pos (by omega), hsnd, hr.own]

theorem shareSecret_coupled (hi : 1 ≤ i) (hn : i ≤ nP) (hk : KeysOk nP f key keySh)
    (keySh' : List R)
    (q : QueueName) (secret secret' : R) :
    (inStep nP i shared Q).Coupled (shareSecret q nP 0 secret key keySh)
      (shareSecret q nP i secret' (f i) keySh')
      (fun a b => MaskShare.Agrees nP f i a b ∧ a.secret = secret) := by
  refine ⟨shareSecret_grows _ _ _ _ _, fun s t hr hok => ?_⟩
  obtain ⟨hvalid, hsecret⟩ := shareSecret_valid (hi.trans hn) hk q secret s
  rw [shareSecret_zero] at hok hvalid hsecret ⊢
  have hi0 : i ≠ 0 := by omega
  have hlenv : (firstDraws R (nP - 1) s.rgen).length = nP - 1 := by simp [firstDraws]
  have hlent : (secondDraws R (nP - 1) s.rgen).length = nP - 1 := by simp [secondDraws]
  have hkey : keySh.getD i 0 = f i := hvalid.key_sh_getD hi hn
  by_cases hin : i = nP
  · subst hin
    have hmem : i ∉ List.range' 1 (i - 1) := by
      rw [List.mem_range'_1]
      omega
    rw [shareSecret, if_neg hi0, if_neg (by simp), StateM.bind_apply]
    have hown : onPis (List.range' 1 (i - 1)) (fun t => (t.next R).next R) s.rgen (.pi i) =
        t.rgen .p0 := by
      rw [onPis_not_mem hmem, hr.own]
    refine ⟨hr.push q _ hown hr.common fun _ => ?_, ⟨hvalid, ?_⟩, hsecret⟩
    · change Function.update (Function.update _ _ _) _ _ = _
      simp only [pop, Function.update_self, Function.update_idem]
      rfl
    · have hval := getD_of_pushed hr rfl hok (k := 0) Nat.two_pos
      have htag := getD_of_pushed hr rfl hok (k := 1) Nat.one_lt_two
      refine (AuthAddShare.mk.injEq ..).mpr ⟨hkey.symm, ?_, ?_⟩
      · refine hval.trans ?_
        rw [getD_cons_append hlenv _ _ hi, if_neg (by omega), show i - 1 - (i - 1) = 0 by omega]
        rfl
      · have hpop : (pop q t).2.queues q = ⟨(t.queues q).data, (t.queues q).idx + 1⟩ := by
          simp [pop]
        refine (congrArg (fun x : Queue R => x.data.getD x.idx 0) hpop).trans (htag.trans ?_)
        rw [getD_cons_append hlent _ _ hi, if_neg (by omega), show i - 1 - (i - 1) = 0 by omega]
        rfl
  · have hmem : i ∈ List.range' 1 (nP - 1) := by
      rw [List.mem_range'_1]
      omega
    rw [shareSecret, if_neg hi0, if_pos hin, StateM.bind_apply, drawPair_eq]
    have hown : onPis (List.range' 1 (nP - 1)) (fun t => (t.next R).next R) s.rgen (.pi i) =
        Function.update t.rgen .p0 (((t.rgen .p0).next R).next R) .p0 := by
      rw [onPis_mem hmem, hr.own, Function.update_self]
    refine ⟨hr.push q _ hown hr.common fun h => absurd h hin, ⟨hvalid, ?_⟩, hsecret⟩
    refine (AuthAddShare.mk.injEq ..).mpr ⟨hkey.symm, ?_, ?_⟩
    · have hfst := firstDraws_getD (R := R) s.rgen hi (n := nP - 1) (by omega)
      rw [getD_cons_append hlenv _ _ hi, if_pos (by omega), hfst, hr.own]
    · have hsnd := secondDraws_getD (R := R) s.rgen hi (n := nP - 1) (by omega)
      rw [getD_cons_append hlent _ _ hi, if_pos (by omega), hsnd, hr.own]

theorem randomShareSecret_coupled (hi : 1 ≤ i) (hn : i ≤ nP) (hk : KeysOk nP f key keySh)
    (keySh' : List R)
    (secret secret' : R) :
    (inStep nP i shared Q).Coupled (randomShareSecret nP 0 secret key keySh)
      (randomShareSecret nP i secret' (f i) keySh')
      (fun a b => MaskShare.Agrees nP f i a b ∧ a.secret = secret) :=
  shareSecret_coupled hi hn hk _ _ _ _

/-- One draw by the trusted party from a stream, and by party `i` from its copy if it is a shared
one. -/
theorem InStep.draw {s t : DrawState R} (h : InStep nP i shared Q s t) {name name' : StreamName}
    (hown : Function.update s.rgen name ((s.rgen name).next R) (.pi i) =
      Function.update t.rgen name' ((t.rgen name').next R) .p0)
    (hall : shared → Function.update s.rgen name ((s.rgen name).next R) .all =
      Function.update t.rgen name' ((t.rgen name').next R) .all) :
    InStep nP i shared Q (QSync.draw (R := R) name s).2 (QSync.draw (R := R) name' t).2 :=
  ⟨hown, hall, h.reads⟩

theorem draw_grows (name : StreamName) : (inStep nP i shared Q).Grows (draw (R := R) name) :=
  fun _ _ => List.prefix_rfl

theorem draw_all_coupled :
    (inStep nP i shared Q).Coupled (draw (R := R) .all) (draw (R := R) .all)
      (fun a b => shared → b = a) := by
  refine ⟨draw_grows _, fun s t h _ => ⟨h.draw ?_ fun hs => ?_, fun hs => ?_⟩⟩
  · simpa using h.own
  · simp [h.common hs]
  · rw [draw_eq, draw_eq, h.common hs]

theorem draw_pi_coupled :
    (inStep nP i shared Q).Coupled (draw (R := R) (.pi i)) (draw (R := R) .p0) Eq := by
  refine ⟨draw_grows _, fun s t h _ => ⟨h.draw ?_ ?_, ?_⟩⟩
  · simp [h.own]
  · simpa using h.common
  · rw [draw_eq, draw_eq, h.own]

theorem dealtSecret_coupled (hi : 1 ≤ i) (dealer : ℕ) :
    (inStep nP i shared Q).Coupled (dealtSecret (R := R) 0 dealer) (dealtSecret i dealer)
      (fun a b => dealer = i → b = a) := by
  have hi0 : i ≠ 0 := by omega
  rw [dealtSecret, dealtSecret, if_pos rfl, if_neg hi0]
  by_cases hd : i = dealer
  · rw [if_pos hd, if_pos (by omega), ← hd]
    exact draw_pi_coupled.weaken fun a b h _ => h.symm
  · rw [if_neg hd]
    refine ⟨draw_grows _, fun s t h _ => ⟨⟨?_, ?_, h.reads⟩, fun e => absurd e.symm hd⟩⟩
    · change Function.update s.rgen _ _ _ = t.rgen .p0
      rw [← h.own]
      refine Function.update_of_ne ?_ _ _
      split
      · simpa using hd
      · simp
    · intro hs
      change Function.update s.rgen _ _ _ = t.rgen .all
      rw [← h.common hs]
      refine Function.update_of_ne ?_ _ _
      split <;> simp

theorem randomShareWithParty_coupled (hi : 1 ≤ i) (hn : i ≤ nP) (hk : KeysOk nP f key keySh)
    (keySh' : List R)
    (dealer : ℕ) :
    (inStep nP i shared Q).Coupled (randomShareWithParty nP 0 dealer key keySh)
      (randomShareWithParty nP i dealer (f i) keySh')
      (fun a b => MaskShare.Agrees nP f i a.1 b.1 ∧ a.1.secret = a.2 ∧
        (dealer = i → b.2 = a.2)) := by
  refine (dealtSecret_coupled hi dealer).bind
    (fun secret => (shareSecret_grows _ _ _ _ _).bind fun _ => .pure _) fun secret secret' hs => ?_
  refine (shareSecret_coupled hi hn hk _ _ _ _).sim.bind (fun _ => .pure _) fun a b hab => .pure ?_
  exact ⟨hab.1, hab.2, hs⟩

end Coupled

end QSync
