import Mathlib.Data.Finset.Basic
import Mathlib.Data.List.Nodup
import QSync.Foundations.Network

/-! # Rounds of message exchange, and what one complete run says about all of them

* `Does p es a`: run alone, program `p` performs exactly the sends and receives `es` and returns `a`.
* `Completes A P r`: the parties `A` running `P` over empty channels can all finish, party `i` with
  result `r i`, leaving the channels empty and every channel's histories extended alike.
* `Completes.bind`: complete runs compose, `completes_round`: a round in which everybody first sends
  and then receives what was sent to it completes, `completes_local`: so does a phase without
  messages, `completes_serve`: so does a phase in which one party sends and the others receive.
* `Completes.converges`: if some schedule completes, every schedule does, with the same results and
  with every receive taking exactly the bytes of one send.
-/

namespace QSync.Network
set_option autoImplicit false
set_option maxHeartbeats 250000

variable {ι α β : Type}

/-! ## One party alone -/

/-- A message a party puts into, or takes out of, one of its channels. -/
inductive Event (ι : Type) where
  | out (dst : ι) (msg : Bytes)
  | inp (src : ι) (msg : Bytes)

/-- Program `p` performs the events `es` in order and returns `a`. -/
inductive Does : Proc ι α → List (Event ι) → α → Prop where
  | done (a : α) : Does (.done a) [] a
  | send {j : ι} {m : Bytes} {k : Proc ι α} {es : List (Event ι)} {a : α} :
      Does k es a → Does (.send j m k) (.out j m :: es) a
  | recv {j : ι} {m : Bytes} {k : Bytes → Proc ι α} {es : List (Event ι)} {a : α} :
      Does (k m) es a → Does (.recv j m.length k) (.inp j m :: es) a

theorem Does.recv' {j : ι} {n : ℕ} {m : Bytes} {k : Bytes → Proc ι α} {es : List (Event ι)} {a : α}
    (hn : m.length = n) (h : Does (k m) es a) : Does (.recv j n k) (.inp j m :: es) a := by
  subst hn
  exact .recv h

theorem Does.bind {p : Proc ι α} {f : α → Proc ι β} {es fs : List (Event ι)} {a : α} {b : β}
    (h : Does p es a) (hf : Does (f a) fs b) : Does (p.bind f) (es ++ fs) b := by
  induction h with
  | done a => exact hf
  | send _ ih => exact .send (ih hf)
  | recv _ ih => exact .recv (ih hf)

theorem Does.mapM {γ : Type} {f : γ → Proc ι β} {es : γ → List (Event ι)} {b : γ → β} (xs : List γ)
    (h : ∀ x ∈ xs, Does (f x) (es x) (b x)) : Does (xs.mapM f) (xs.flatMap es) (xs.map b) := by
  induction xs with
  | nil => exact .done []
  | cons x xs ih =>
    have hx := h x List.mem_cons_self
    have hxs := ih fun y hy => h y (List.mem_cons_of_mem _ hy)
    have hrest : Does ((xs.mapM f).bind fun bs => .done (b x :: bs)) (xs.flatMap es ++ [])
        (b x :: xs.map b) := hxs.bind (.done (b x :: xs.map b))
    rw [List.append_nil] at hrest
    rw [List.mapM_cons]
    exact hx.bind (f := fun y => (xs.mapM f).bind fun bs => .done (y :: bs)) hrest

theorem Does.forM {γ : Type} {f : γ → Proc ι Unit} {es : γ → List (Event ι)} (xs : List γ)
    (h : ∀ x ∈ xs, Does (f x) (es x) ()) : Does (xs.forM f) (xs.flatMap es) () := by
  induction xs with
  | nil => exact .done ()
  | cons x xs ih =>
    exact (h x List.mem_cons_self).bind (ih fun y hy => h y (List.mem_cons_of_mem _ hy))

theorem Does.ofOption {o : Option α} {a : α} (h : o = some a) :
    Does (Proc.ofOption o : Proc ι α) [] a := by
  subst h
  exact .done a

/-- A loop that has reached `st done` after the turns `done`. -/
theorem Does.foldlM {γ : Type} {f : β → γ → Proc ι β} {es : γ → List (Event ι)} (st : List γ → β)
    (xs : List γ) (h : ∀ done x rest, xs = done ++ x :: rest →
      Does (f (st done) x) (es x) (st (done ++ [x]))) :
    Does (xs.foldlM f (st [])) (xs.flatMap es) (st xs) := by
  suffices hrest : ∀ rest done, xs = done ++ rest →
      Does (rest.foldlM f (st done)) (rest.flatMap es) (st xs) from hrest xs [] rfl
  intro rest
  induction rest with
  | nil =>
    intro done hxs
    rw [hxs, List.append_nil]
    exact .done _
  | cons x rest ih =>
    intro done hxs
    rw [List.foldlM_cons, List.flatMap_cons]
    exact (h done x rest hxs).bind (ih (done ++ [x]) (by rw [hxs]; simp))

theorem Does.of_nil {p : Proc ι α} {a : α} (h : Does p [] a) : p = .done a := by
  cases h
  rfl

theorem Does.of_out {p : Proc ι α} {j : ι} {m : Bytes} {es : List (Event ι)} {a : α}
    (h : Does p (.out j m :: es) a) : ∃ k, p = .send j m k ∧ Does k es a := by
  cases h with
  | send h => exact ⟨_, rfl, h⟩

theorem Does.of_inp {p : Proc ι α} {j : ι} {m : Bytes} {es : List (Event ι)} {a : α}
    (h : Does p (.inp j m :: es) a) : ∃ k, p = .recv j m.length k ∧ Does (k m) es a := by
  cases h with
  | recv h => exact ⟨_, rfl, h⟩

/-! ## All parties together -/

section Together
variable [DecidableEq ι]

/-- The programs of the parties in `A`; there is nobody else. -/
def onParties (A : Finset ι) (P : ι → Proc ι α) (i : ι) : Proc ι α :=
  if i ∈ A then P i else .stuck

/-- Parties `A` about to run `P`, with nothing in flight and histories `S` and `R`. -/
def quiet (A : Finset ι) (P : ι → Proc ι α) (S R : ι × ι → List Bytes) : Net ι α where
  procs := onParties A P
  chan := fun _ => []
  sent := S
  rcvd := R

/-- The initial configuration. -/
def start (A : Finset ι) (P : ι → Proc ι α) : Net ι α := quiet A P (fun _ => []) (fun _ => [])

/-- Some schedule brings every party `i` of `A` from `P i` to the result `r i`; on each channel
exactly the messages `M` are sent and received. -/
def Completes (A : Finset ι) (P : ι → Proc ι α) (r : ι → α) : Prop :=
  ∃ M : ι × ι → List Bytes, ∀ S R : ι × ι → List Bytes,
    Reaches (quiet A P S R)
      (quiet A (fun i => .done (r i)) (fun ch => S ch ++ M ch) (fun ch => R ch ++ M ch))

theorem onParties_congr {A : Finset ι} {P Q : ι → Proc ι α} (h : ∀ i ∈ A, P i = Q i) :
    onParties A P = onParties A Q := by
  funext i
  by_cases hi : i ∈ A
  · simp only [onParties, if_pos hi, h i hi]
  · simp only [onParties, if_neg hi]

theorem Completes.congr {A : Finset ι} {P Q : ι → Proc ι α} {r s : ι → α} (h : Completes A P r)
    (hP : ∀ i ∈ A, Q i = P i) (hr : ∀ i ∈ A, r i = s i) : Completes A Q s := by
  obtain ⟨M, hM⟩ := h
  refine ⟨M, fun S R => ?_⟩
  have hs : onParties A (fun i => Proc.done (ι := ι) (r i)) = onParties A (fun i => .done (s i)) :=
    onParties_congr fun i hi => congrArg Proc.done (hr i hi)
  have := hM S R
  simp only [quiet, ← onParties_congr hP, hs] at this
  exact this

/-! ## Composition -/

/-- Every party goes on with `K` after its program. -/
def Net.andThen (c : Net ι α) (K : ι → α → Proc ι β) : Net ι β where
  procs := fun i => (c.procs i).bind (K i)
  chan := c.chan
  sent := c.sent
  rcvd := c.rcvd

theorem Step.andThen {c d : Net ι α} (h : Step c d) (K : ι → α → Proc ι β) :
    Step (c.andThen K) (d.andThen K) := by
  obtain ⟨i, hi⟩ := h
  have hupd : ∀ (q : Proc ι α), (fun j => (Function.update c.procs i q j).bind (K j)) =
      Function.update (fun j => (c.procs j).bind (K j)) i (q.bind (K i)) := by
    intro q
    funext j
    by_cases hj : j = i
    · subst hj
      simp only [Function.update_self]
    · simp only [Function.update_of_ne hj]
  refine ⟨i, ?_⟩
  obtain ⟨j, m, k, hp, rfl⟩ | ⟨j, n, k, hp, hn, rfl⟩ := stepAt_cases hi
  · have hp' : (c.andThen K).procs i = .send j m (k.bind (K i)) := by
      simp only [Net.andThen, hp, Proc.bind]
    rw [stepAt_send hp']
    simp only [Net.andThen, Net.afterSend, hupd]
  · have hp' : (c.andThen K).procs i = .recv j n (fun b => (k b).bind (K i)) := by
      simp only [Net.andThen, hp, Proc.bind]
    rw [stepAt_recv hp' hn]
    simp only [Net.andThen, Net.afterRecv, hupd]

theorem Reaches.andThen {c d : Net ι α} (h : Reaches c d) (K : ι → α → Proc ι β) :
    Reaches (c.andThen K) (d.andThen K) := by
  obtain ⟨n, h⟩ := h
  induction h with
  | refl c => exact .refl _
  | head hs _ ih =>
    obtain ⟨m, hm⟩ := ih
    exact ⟨m + 1, .head (hs.andThen K) hm⟩

theorem quiet_andThen (A : Finset ι) (P : ι → Proc ι α) (K : ι → α → Proc ι β)
    (S R : ι × ι → List Bytes) :
    (quiet A P S R).andThen K = quiet A (fun i => (P i).bind (K i)) S R := by
  have h : ∀ i, (onParties A P i).bind (K i) = onParties A (fun i => (P i).bind (K i)) i := by
    intro i
    by_cases hi : i ∈ A
    · simp only [onParties, if_pos hi]
    · simp only [onParties, if_neg hi, Proc.bind]
  simp only [Net.andThen, quiet, h]

theorem Completes.bind {A : Finset ι} {P : ι → Proc ι α} {K : ι → α → Proc ι β} {r : ι → α}
    {s : ι → β} (h : Completes A P r) (hK : Completes A (fun i => K i (r i)) s) :
    Completes A (fun i => P i >>= K i) s := by
  obtain ⟨M, hM⟩ := h
  obtain ⟨N, hN⟩ := hK
  refine ⟨fun ch => M ch ++ N ch, fun S R => ?_⟩
  have h1 := (hM S R).andThen K
  rw [quiet_andThen, quiet_andThen] at h1
  have h2 := hN (fun ch => S ch ++ M ch) (fun ch => R ch ++ M ch)
  simp only [List.append_assoc] at h1 h2
  exact h1.trans h2

theorem completes_local (A : Finset ι) (r : ι → α) : Completes A (fun i => pure (r i)) r :=
  ⟨fun _ => [], fun S R => by
    simp only [List.append_nil]
    exact .refl _⟩

theorem Completes.map {A : Finset ι} {P : ι → Proc ι α} {r : ι → α} (h : Completes A P r)
    (f : ι → α → β) : Completes A (fun i => P i >>= fun a => pure (f i a)) (fun i => f i (r i)) :=
  h.bind (K := fun i a => pure (f i a)) (completes_local A _)

theorem Completes.foldlM {A : Finset ι} {γ : Type} {f : ι → α → γ → Proc ι α}
    {F : (ι → α) → γ → ι → α} (xs : List γ)
    (h : ∀ x ∈ xs, ∀ s : ι → α, Completes A (fun i => f i (s i) x) (F s x)) (s : ι → α) :
    Completes A (fun i => xs.foldlM (f i) (s i)) (xs.foldl F s) := by
  induction xs generalizing s with
  | nil => exact completes_local A s
  | cons x xs ih =>
    exact (h x List.mem_cons_self s).bind (K := fun i a => xs.foldlM (f i) a)
      (ih (fun y hy => h y (List.mem_cons_of_mem _ hy)) (F s x))

/-! ## One message -/

theorem Completes.message {A : Finset ι} {P : ι → Proc ι α} {r : ι → α} {i j : ι} {m : Bytes}
    {k : Proc ι α} {k' : Bytes → Proc ι α} (hij : i ≠ j) (hi : i ∈ A) (hj : j ∈ A)
    (hsend : P i = .send j m k) (hrecv : P j = .recv i m.length k')
    (h : Completes A (Function.update (Function.update P i k) j (k' m)) r) : Completes A P r := by
  obtain ⟨M, hM⟩ := h
  let add : (ι × ι → List Bytes) → ι × ι → List Bytes := fun S =>
    Function.update S (i, j) (S (i, j) ++ [m])
  have hadd : ∀ S : ι × ι → List Bytes, (fun ch => add S ch ++ M ch) =
      fun ch => S ch ++ (add (fun _ => []) ch ++ M ch) := by
    intro S
    funext ch
    by_cases hch : ch = (i, j)
    · subst hch
      simp [add]
    · simp [add, hch]
  refine ⟨fun ch => add (fun _ => []) ch ++ M ch, fun S R => ?_⟩
  have hprocs : Function.update (Function.update (onParties A P) i k) j (k' m) =
      onParties A (Function.update (Function.update P i k) j (k' m)) := by
    funext l
    by_cases hlj : l = j
    · subst hlj
      simp [onParties, hj]
    · by_cases hli : l = i
      · subst hli
        simp [onParties, hi, hlj]
      · simp [onParties, hlj, hli]
  have h1 := stepAt_send (show (quiet A P S R).procs i = .send j m k from
    (if_pos hi).trans hsend)
  have hrecv' : ((quiet A P S R).afterSend i j m k).procs j = .recv i m.length k' := by
    rw [afterSend_procs_ne hij.symm]
    exact (if_pos hj).trans hrecv
  have hchan : ((quiet A P S R).afterSend i j m k).chan (i, j) = m := by
    simp [Net.afterSend, quiet]
  have h2 := stepAt_recv hrecv' (by rw [hchan])
  have h3 := (Reaches.step h1).trans (Reaches.step h2)
  have hmid : ((quiet A P S R).afterSend i j m k).afterRecv j i m.length k' =
      quiet A (Function.update (Function.update P i k) j (k' m)) (add S) (add R) := by
    simp only [Net.afterRecv, hchan, List.take_length, List.drop_length]
    simp only [Net.afterSend, quiet, hprocs, Function.update_idem, Function.update_eq_self_iff,
      Net.mk.injEq, true_and]
    exact ⟨rfl, rfl⟩
  rw [hmid] at h3
  have h4 := hM (add S) (add R)
  rw [hadd, hadd] at h4
  exact h3.trans h4

/-! ## One party sends, the others receive -/

/-- The party `hub` sends the messages `msgs`, each with its destination, and every other party takes
those for it in the order in which they are sent. -/
theorem completes_deliveries {A : Finset ι} {P : ι → Proc ι α} {r : ι → α} {hub : ι}
    (msgs : List (ι × Bytes)) (hhub : hub ∈ A) (hdst : ∀ e ∈ msgs, e.1 ∈ A ∧ e.1 ≠ hub)
    (hsend : Does (P hub) (msgs.map fun e => .out e.1 e.2) (r hub))
    (hrecv : ∀ j ∈ A, j ≠ hub →
      Does (P j) ((msgs.filter fun e => e.1 = j).map fun e => .inp hub e.2) (r j)) :
    Completes A P r := by
  induction msgs generalizing P with
  | nil =>
    refine (completes_local A r).congr (fun i hi => ?_) fun _ _ => rfl
    by_cases h : i = hub
    · exact h ▸ hsend.of_nil
    · exact (hrecv i hi h).of_nil
  | cons e msgs ih =>
    obtain ⟨j, m⟩ := e
    obtain ⟨hj, hne⟩ := hdst (j, m) List.mem_cons_self
    obtain ⟨k, hk, hsend'⟩ := hsend.of_out
    have hj' := hrecv j hj hne
    rw [List.filter_cons_of_pos (by simp), List.map_cons] at hj'
    obtain ⟨k', hk', hrecv'⟩ := hj'.of_inp
    refine .message hne.symm hhub hj hk hk' (ih (fun e he => hdst e (List.mem_cons_of_mem _ he)) ?_
      fun i hi hih => ?_)
    · rw [Function.update_of_ne hne.symm, Function.update_self]
      exact hsend'
    · by_cases hij : i = j
      · subst hij
        rw [Function.update_self]
        exact hrecv'
      · rw [Function.update_of_ne hij, Function.update_of_ne hih]
        have hi' := hrecv i hi hih
        rwa [List.filter_cons_of_neg (by simpa using Ne.symm hij)] at hi'

theorem filter_flatMap_dst {ps : List ι} (hps : ps.Nodup) (ms : ι → List Bytes)
    (j : ι) : ((ps.flatMap fun p => (ms p).map (Prod.mk p)).filter fun e => e.1 = j) =
      if j ∈ ps then (ms j).map (Prod.mk j) else [] := by
  induction ps with
  | nil => rfl
  | cons p ps ih =>
    obtain ⟨hp, hps⟩ := List.nodup_cons.mp hps
    rw [List.flatMap_cons, List.filter_append, ih hps]
    by_cases h : j = p
    · subst h
      have hall : ((ms j).map (Prod.mk j)).filter (fun e => decide (e.1 = j)) =
          (ms j).map (Prod.mk j) := List.filter_eq_self.mpr (by simp)
      rw [hall, if_neg hp, if_pos List.mem_cons_self, List.append_nil]
    · have hnone : ((ms p).map (Prod.mk p)).filter (fun e => decide (e.1 = j)) = [] :=
        List.filter_eq_nil_iff.mpr (by simp [Ne.symm h])
      rw [hnone, List.nil_append]
      simp [h]

/-- The party `hub` sends the messages `ms p` to one `p` of `ps` after the other, and the others do
nothing. -/
theorem completes_serve {A : Finset ι} {P : ι → Proc ι α} {r : ι → α} {hub : ι} {ps : List ι}
    (ms : ι → List Bytes) (hps : ps.Nodup) (hA : ∀ j ∈ ps, j ∈ A) (hhub : hub ∈ A)
    (hsend : Does (P hub) (ps.flatMap fun p => (ms p).map (.out p)) (r hub))
    (hrecv : ∀ j ∈ ps, j ≠ hub ∧ Does (P j) ((ms j).map (.inp hub)) (r j))
    (hrest : ∀ i ∈ A, i ≠ hub → i ∉ ps → Does (P i) [] (r i)) : Completes A P r := by
  refine completes_deliveries (ps.flatMap fun p => (ms p).map (Prod.mk p)) hhub (fun e he => ?_) ?_
    fun j hj hne => ?_
  · obtain ⟨p, hp, he⟩ := List.mem_flatMap.mp he
    obtain ⟨m, -, rfl⟩ := List.mem_map.mp he
    exact ⟨hA p hp, (hrecv p hp).1⟩
  · simpa only [List.map_flatMap, List.map_map, Function.comp_def] using hsend
  · rw [filter_flatMap_dst hps]
    by_cases h : j ∈ ps
    · rw [if_pos h, List.map_map]
      exact (hrecv j h).2
    · rw [if_neg h]
      exact hrest j hj hne h

/-! ## One round: everybody sends, then everybody receives -/

theorem reaches_sends (i : ι) (m : ι → Bytes) (ds : List ι) (hds : ds.Nodup)
    {es : List (Event ι)} {a : α} (c : Net ι α)
    (h : Does (c.procs i) (ds.map (fun j => .out j (m j)) ++ es) a) :
    ∃ q, Does q es a ∧ Reaches c
      { procs := Function.update c.procs i q
        chan := fun ch => if ch.1 = i ∧ ch.2 ∈ ds then c.chan ch ++ m ch.2 else c.chan ch
        sent := fun ch => if ch.1 = i ∧ ch.2 ∈ ds then c.sent ch ++ [m ch.2] else c.sent ch
        rcvd := c.rcvd } := by
  induction ds generalizing c with
  | nil =>
    refine ⟨c.procs i, h, ?_⟩
    simp only [List.not_mem_nil, and_false, if_false, Function.update_eq_self]
    exact .refl c
  | cons j ds ih =>
    obtain ⟨hj, hds⟩ := List.nodup_cons.mp hds
    generalize hp : c.procs i = p at h
    cases h with
    | @send _ _ k _ _ hk =>
      have hstep := stepAt_send hp
      have hk' : Does ((c.afterSend i j (m j) k).procs i)
          (ds.map (fun j => .out j (m j)) ++ es) a := by
        rw [show (c.afterSend i j (m j) k).procs i = k from Function.update_self ..]
        exact hk
      obtain ⟨q, hq, hr⟩ := ih hds _ hk'
      refine ⟨q, hq, ?_⟩
      convert (Reaches.step hstep).trans hr using 2
      · simp only [Net.afterSend, Function.update_idem]
      · funext ch
        obtain ⟨x, y⟩ := ch
        by_cases hx : x = i
        · subst hx
          by_cases hy : y = j
          · subst hy
            simp [Net.afterSend, hj]
          · simp [Net.afterSend, hy]
        · simp [Net.afterSend, hx]
      · funext ch
        obtain ⟨x, y⟩ := ch
        by_cases hx : x = i
        · subst hx
          by_cases hy : y = j
          · subst hy
            simp [Net.afterSend, hj]
          · simp [Net.afterSend, hy]
        · simp [Net.afterSend, hx]
      · rfl

/-- Party `j` performs its receives: exactly what is in flight to it from each source. -/
theorem reaches_recvs (j : ι) (m : ι → Bytes) (ss : List ι) (hss : ss.Nodup) {a : α}
    (c : Net ι α) (hc : ∀ s ∈ ss, c.chan (s, j) = m s)
    (h : Does (c.procs j) (ss.map (fun s => .inp s (m s))) a) :
    Reaches c
      { procs := Function.update c.procs j (.done a)
        chan := fun ch => if ch.2 = j ∧ ch.1 ∈ ss then [] else c.chan ch
        sent := c.sent
        rcvd := fun ch => if ch.2 = j ∧ ch.1 ∈ ss then c.rcvd ch ++ [m ch.1] else c.rcvd ch } := by
  induction ss generalizing c with
  | nil =>
    generalize hp : c.procs j = p at h
    cases h
    simp only [List.not_mem_nil, and_false, if_false, ← hp, Function.update_eq_self]
    exact .refl c
  | cons s ss ih =>
    obtain ⟨hs, hss⟩ := List.nodup_cons.mp hss
    have hcs : c.chan (s, j) = m s := hc s List.mem_cons_self
    generalize hp : c.procs j = p at h
    cases h with
    | @recv _ _ k _ _ hk =>
      have hstep := stepAt_recv hp (by rw [hcs])
      have hk' : Does ((c.afterRecv j s (m s).length k).procs j)
          (ss.map (fun s => .inp s (m s))) a := by
        simpa only [Net.afterRecv, Function.update_self, hcs, List.take_length] using hk
      have hc' : ∀ s' ∈ ss, (c.afterRecv j s (m s).length k).chan (s', j) = m s' := by
        intro s' hs'
        have hne : (s', j) ≠ (s, j) := fun e => hs ((Prod.mk.inj e).1 ▸ hs')
        simpa only [Net.afterRecv, Function.update_of_ne hne] using hc s' (List.mem_cons_of_mem _ hs')
      convert (Reaches.step hstep).trans (ih hss _ hc' hk') using 2
      · simp only [Net.afterRecv, Function.update_idem]
      · funext ch
        obtain ⟨x, y⟩ := ch
        by_cases hy : y = j
        · subst hy
          by_cases hx : x = s
          · subst hx
            simp [Net.afterRecv, hcs]
          · simp [Net.afterRecv, hx]
        · simp [Net.afterRecv, hy]
      · rfl
      · funext ch
        obtain ⟨x, y⟩ := ch
        by_cases hy : y = j
        · subst hy
          by_cases hx : x = s
          · subst hx
            simp [Net.afterRecv, hs, hcs]
          · simp [Net.afterRecv, hx]
        · simp [Net.afterRecv, hy]

section Round
variable {A : Finset ι} {P : ι → Proc ι α} {r : ι → α} {dsts srcs : ι → List ι}
  {msg : ι → ι → Bytes}

theorem reaches_all_sends (B : Finset ι) (hB : B ⊆ A) (hd : ∀ i ∈ A, (dsts i).Nodup)
    (hloc : ∀ i ∈ A, Does (P i) ((dsts i).map (fun j => .out j (msg i j)) ++
      (srcs i).map (fun s => .inp s (msg s i))) (r i)) (S R : ι × ι → List Bytes) :
    ∃ Q : ι → Proc ι α,
      (∀ i ∈ B, Does (Q i) ((srcs i).map (fun s => .inp s (msg s i))) (r i)) ∧
      (∀ i, i ∉ B → Q i = onParties A P i) ∧
      Reaches (quiet A P S R)
        { procs := Q
          chan := fun ch => if ch.1 ∈ B ∧ ch.2 ∈ dsts ch.1 then msg ch.1 ch.2 else []
          sent := fun ch => if ch.1 ∈ B ∧ ch.2 ∈ dsts ch.1 then S ch ++ [msg ch.1 ch.2] else S ch
          rcvd := R } := by
  induction B using Finset.induction_on with
  | empty =>
    refine ⟨onParties A P, by simp, fun _ _ => rfl, ?_⟩
    simp only [Finset.notMem_empty, false_and, if_false]
    exact .refl _
  | insert i B hi ih =>
    obtain ⟨Q, hQB, hQ, hr⟩ := ih ((Finset.subset_insert i B).trans hB)
    have hiA : i ∈ A := hB (Finset.mem_insert_self i B)
    have hQi : Q i = P i := (hQ i hi).trans (if_pos hiA)
    obtain ⟨q, hq, hr'⟩ := reaches_sends i (msg i) (dsts i) (hd i hiA) _
      (show Does (Net.procs { procs := Q, chan := _, sent := _, rcvd := R } i) _ _ from
        hQi ▸ hloc i hiA)
    refine ⟨Function.update Q i q, ?_, ?_, ?_⟩
    · intro i' hi'
      by_cases he : i' = i
      · subst he
        rwa [Function.update_self]
      · rw [Function.update_of_ne he]
        exact hQB i' ((Finset.mem_insert.mp hi').resolve_left he)
    · intro i' hi'
      have he : i' ≠ i := fun e => hi' (e ▸ Finset.mem_insert_self i B)
      rw [Function.update_of_ne he]
      exact hQ i' (fun hb => hi' (Finset.mem_insert_of_mem hb))
    · convert hr.trans hr' using 2
      · funext ch
        by_cases he : ch.1 = i
        · simp [he, hi]
        · simp [he]
      · funext ch
        by_cases he : ch.1 = i
        · simp [he, hi]
        · simp [he]

theorem reaches_all_recvs (B : Finset ι) (Q : ι → Proc ι α)
    (hs : ∀ j ∈ B, (srcs j).Nodup)
    (hloc : ∀ j ∈ B, Does (Q j) ((srcs j).map (fun s => .inp s (msg s j))) (r j))
    (ch₀ : ι × ι → Bytes) (hch : ∀ j ∈ B, ∀ s ∈ srcs j, ch₀ (s, j) = msg s j)
    (S R : ι × ι → List Bytes) :
    Reaches { procs := Q, chan := ch₀, sent := S, rcvd := R }
      { procs := fun j => if j ∈ B then .done (r j) else Q j
        chan := fun ch => if ch.2 ∈ B ∧ ch.1 ∈ srcs ch.2 then [] else ch₀ ch
        sent := S
        rcvd := fun ch =>
          if ch.2 ∈ B ∧ ch.1 ∈ srcs ch.2 then R ch ++ [msg ch.1 ch.2] else R ch } := by
  induction B using Finset.induction_on with
  | empty =>
    simp only [Finset.notMem_empty, false_and, if_false]
    exact .refl _
  | insert j B hj ih =>
    have hmem : ∀ {i}, i ∈ B → i ∈ insert j B := fun h => Finset.mem_insert_of_mem h
    have hr := ih (fun i hi => hs i (hmem hi)) (fun i hi => hloc i (hmem hi))
      (fun i hi => hch i (hmem hi))
    have hjj := Finset.mem_insert_self j B
    refine hr.trans ?_
    convert reaches_recvs j (fun s => msg s j) (srcs j) (hs j hjj) (a := r j) _ ?_ ?_ using 2
    · funext i
      by_cases he : i = j
      · subst he
        simp
      · simp [he]
    · funext ch
      by_cases he : ch.2 = j
      · simp [he, hj]
      · simp [he]
    · funext ch
      by_cases he : ch.2 = j
      · simp [he, hj]
      · simp [he]
    · intro s hsj
      simp only [hj, false_and, if_false]
      exact hch j hjj s hsj
    · simpa only [hj, if_false] using hloc j hjj

/-- A round completes when each party first sends `msg i j` to every `j` of `dsts i` and then
receives from every `s` of `srcs i`, and the sources of a party are those that send to it. -/
theorem completes_round (hd : ∀ i ∈ A, (dsts i).Nodup) (hs : ∀ j ∈ A, (srcs j).Nodup)
    (hmatch : ∀ i j, (i ∈ A ∧ j ∈ dsts i) ↔ (j ∈ A ∧ i ∈ srcs j))
    (hloc : ∀ i ∈ A, Does (P i) ((dsts i).map (fun j => .out j (msg i j)) ++
      (srcs i).map (fun s => .inp s (msg s i))) (r i)) : Completes A P r := by
  refine ⟨fun ch => if ch.1 ∈ A ∧ ch.2 ∈ dsts ch.1 then [msg ch.1 ch.2] else [], fun S R => ?_⟩
  obtain ⟨Q, hQA, hQ, hr⟩ := reaches_all_sends A (Finset.Subset.refl A) hd hloc S R
  refine hr.trans ?_
  convert reaches_all_recvs A Q hs hQA _ ?_ _ R using 2
  · funext i
    by_cases hi : i ∈ A
    · simp [quiet, onParties, hi]
    · simp [quiet, onParties, hi, hQ i hi]
  · funext ch
    by_cases h : ch.1 ∈ A ∧ ch.2 ∈ dsts ch.1
    · simp [quiet, (hmatch ch.1 ch.2).mp h]
    · simp [quiet, h, mt (hmatch ch.1 ch.2).mpr h]
  · funext ch
    by_cases h : ch.1 ∈ A ∧ ch.2 ∈ dsts ch.1
    · simp [quiet, h]
    · simp [quiet, h]
  · funext ch
    by_cases h : ch.1 ∈ A ∧ ch.2 ∈ dsts ch.1
    · simp [quiet, h, (hmatch ch.1 ch.2).mp h]
    · simp [quiet, h, mt (hmatch ch.1 ch.2).mpr h]
  · intro j hj s hsj
    simp [(hmatch s j).mpr ⟨hj, hsj⟩]

end Round

/-! ## One round among some of the parties -/

section Exchange

/-- The program of party `i` in a round among `ps`: send `out j` to everybody else, then collect one
thing from everybody in order, its own without a message. -/
def exchange (ps : List ι) (i : ι) (out : ι → Bytes) (len : ι → ℕ) (own : β)
    (read : ι → Bytes → β) : Proc ι (List β) := do
  ps.forM fun j => if j = i then pure () else Proc.sendTo j (out j)
  ps.mapM fun j => if j = i then pure own else read j <$> Proc.recvFrom j (len j)

theorem flatMap_others {γ : Type} (ps : List ι) (i : ι) (e : ι → γ) :
    (ps.flatMap fun j => if j = i then [] else [e j]) = (ps.filter (· ≠ i)).map e := by
  induction ps with
  | nil => rfl
  | cons p ps ih =>
    rw [List.flatMap_cons, ih, List.filter_cons]
    by_cases h : p = i <;> simp [h]

theorem does_exchange (ps : List ι) (i : ι) {out inn : ι → Bytes} {len : ι → ℕ} (own : β)
    (read : ι → Bytes → β) (hlen : ∀ j ∈ ps, j ≠ i → (inn j).length = len j) :
    Does (exchange ps i out len own read)
      ((ps.filter (· ≠ i)).map (fun j => .out j (out j)) ++
        (ps.filter (· ≠ i)).map (fun j => .inp j (inn j)))
      (ps.map fun j => if j = i then own else read j (inn j)) := by
  rw [← flatMap_others, ← flatMap_others]
  refine Does.bind (.forM ps fun j _ => ?_) (.mapM ps fun j hj => ?_)
  · by_cases h : j = i
    · rw [if_pos h, if_pos h]
      exact .done ()
    · rw [if_neg h, if_neg h]
      exact .send (.done ())
  · by_cases h : j = i
    · rw [if_pos h, if_pos h, if_pos h]
      exact .done own
    · rw [if_neg h, if_neg h, if_neg h]
      exact .recv' (hlen j hj h) (.done _)

/-- A round among the parties `ps` completes when each of them sends to all the others and then
receives from all the others. The others do nothing. -/
theorem completes_others {A : Finset ι} {ps : List ι} (hps : ps.Nodup) (hA : ∀ i ∈ ps, i ∈ A)
    {P : ι → Proc ι α} {r : ι → α} (msg : ι → ι → Bytes)
    (hin : ∀ i ∈ ps, Does (P i) ((ps.filter (· ≠ i)).map (fun j => .out j (msg i j)) ++
      (ps.filter (· ≠ i)).map (fun j => .inp j (msg j i))) (r i))
    (hout : ∀ i ∈ A, i ∉ ps → Does (P i) [] (r i)) : Completes A P r := by
  let others : ι → List ι := fun i => if i ∈ ps then ps.filter (· ≠ i) else []
  have hmem : ∀ i j, j ∈ others i ↔ i ∈ ps ∧ j ∈ ps ∧ j ≠ i := by
    intro i j
    by_cases h : i ∈ ps <;> simp [others, h]
  have hnodup : ∀ i ∈ A, (others i).Nodup := by
    intro i _
    by_cases h : i ∈ ps
    · simpa [others, h] using hps.filter _
    · simp [others, h]
  have hmatch : ∀ i j, (i ∈ A ∧ j ∈ others i) ↔ (j ∈ A ∧ i ∈ others j) := by
    intro i j
    rw [hmem, hmem]
    exact ⟨fun ⟨_, h1, h2, h3⟩ => ⟨hA j h2, h2, h1, h3.symm⟩,
      fun ⟨_, h1, h2, h3⟩ => ⟨hA i h2, h2, h1, h3.symm⟩⟩
  have hloc : ∀ i ∈ A, Does (P i) ((others i).map (fun j => .out j (msg i j)) ++
      (others i).map (fun j => .inp j (msg j i))) (r i) := by
    intro i hi
    by_cases h : i ∈ ps
    · simp only [others, if_pos h]
      exact hin i h
    · simp only [others, if_neg h]
      exact hout i hi h
  exact completes_round hnodup hnodup hmatch hloc

end Exchange

/-! ## Rounds between one party and the others -/

section Hub
variable {A : Finset ι} {P : ι → Proc ι α} {r : ι → α} {hub : ι} {ps : List ι} {msg : ι → Bytes}

/-- A round in which the party `hub` sends `msg j` to every `j` of `ps`, and the others do nothing. -/
theorem completes_scatter (hps : ps.Nodup) (hA : ∀ j ∈ ps, j ∈ A) (hhub : hub ∈ A)
    (hsend : Does (P hub) (ps.map fun j => .out j (msg j)) (r hub))
    (hrecv : ∀ j ∈ ps, j ≠ hub ∧ Does (P j) [.inp hub (msg j)] (r j))
    (hrest : ∀ i ∈ A, i ≠ hub → i ∉ ps → Does (P i) [] (r i)) : Completes A P r := by
  refine completes_serve (fun j => [msg j]) hps hA hhub ?_ hrecv hrest
  exact (List.flatMap_pure_eq_map (fun j => Event.out j (msg j)) ps).symm ▸ hsend

/-- A round in which every `j` of `ps` sends `msg j` to the party `hub`, and the others do nothing. -/
theorem completes_gather (hps : ps.Nodup) (hA : ∀ j ∈ ps, j ∈ A) (hhub : hub ∈ A)
    (hrecv : Does (P hub) (ps.map fun j => .inp j (msg j)) (r hub))
    (hsend : ∀ j ∈ ps, j ≠ hub ∧ Does (P j) [.out hub (msg j)] (r j))
    (hrest : ∀ i ∈ A, i ≠ hub → i ∉ ps → Does (P i) [] (r i)) : Completes A P r := by
  let dsts : ι → List ι := fun i => if i ∈ ps then [hub] else []
  let srcs : ι → List ι := fun i => if i = hub then ps else []
  have hself : hub ∉ ps := fun h => (hsend hub h).1 rfl
  refine @completes_round _ _ _ A P r dsts srcs (fun i _ => msg i) (fun i _ => ?_) (fun j _ => ?_)
    (fun i j => ?_) fun i hi => ?_
  · by_cases h : i ∈ ps <;> simp [dsts, h]
  · by_cases h : j = hub <;> simp [srcs, h, hps]
  · by_cases h : j = hub
    · by_cases hi : i ∈ ps
      · simp [dsts, srcs, h, hi, hhub, hA i hi]
      · simp [dsts, srcs, h, hi]
    · by_cases hi : i ∈ ps <;> simp [dsts, srcs, h, hi]
  · by_cases h : i = hub
    · subst h
      simpa [dsts, srcs, hself] using hrecv
    · by_cases hj : i ∈ ps
      · simpa [dsts, srcs, h, hj] using (hsend i hj).2
      · simpa [dsts, srcs, h, hj] using hrest i hi h hj

end Hub

/-! ## From one schedule to every schedule -/

/-- Party `i` has returned. -/
def Finished (c : Net ι α) (i : ι) : Prop := ∃ a, c.procs i = .done a

/-- Every schedule of the parties `A` running `P` behaves alike: it stops within a bound fixed in
advance, it is never stuck before all parties have returned, and then party `i` has returned `r i`;
on each channel the `k`-th receive takes exactly the bytes of the `k`-th send. -/
structure Converges (A : Finset ι) (P : ι → Proc ι α) (r : ι → α) : Prop where
  bounded : ∃ n, ∀ m c, StepN m (start A P) c → m ≤ n
  progress : ∀ c, Reaches (start A P) c → (∀ i ∈ A, Finished c i) ∨ ∃ d, Step c d
  result : ∀ c, Reaches (start A P) c → (∀ i ∈ A, Finished c i) → ∀ i ∈ A, c.procs i = .done (r i)
  matched : ∃ M : ι × ι → List Bytes, ∀ c, Reaches (start A P) c →
    (∀ ch, c.sent ch <+: M ch ∧ c.rcvd ch <+: M ch) ∧
    ((∀ i ∈ A, Finished c i) → ∀ ch, c.sent ch = M ch ∧ c.rcvd ch = M ch)

theorem terminal_of_finished {A : Finset ι} {c : Net ι α} (h : ∀ i ∈ A, Finished c i)
    (ho : ∀ i, i ∉ A → c.procs i = .stuck) : Terminal c := by
  rintro d ⟨i, hi⟩
  by_cases hA : i ∈ A
  · obtain ⟨a, ha⟩ := h i hA
    simp [Net.stepAt, ha] at hi
  · simp [Net.stepAt, ho i hA] at hi

theorem StepN.absent {A : Finset ι} {n : ℕ} {c d : Net ι α} (h : StepN n c d)
    (hc : ∀ i, i ∉ A → c.procs i = .stuck) : ∀ i, i ∉ A → d.procs i = .stuck := by
  induction h with
  | refl c => exact hc
  | @head n c c' d hs _ ih =>
    refine ih fun i hi => ?_
    obtain ⟨j, hj⟩ := hs
    have hij : i ≠ j := by
      rintro rfl
      simp [Net.stepAt, hc i hi] at hj
    obtain ⟨_, _, _, _, rfl⟩ | ⟨_, _, _, _, _, rfl⟩ := stepAt_cases hj
    · rw [afterSend_procs_ne hij, hc i hi]
    · rw [afterRecv_procs_ne hij, hc i hi]

theorem Completes.converges {A : Finset ι} {P : ι → Proc ι α} {r : ι → α}
    (h : Completes A P r) : Converges A P r := by
  obtain ⟨M, hM⟩ := h
  obtain ⟨n, hn⟩ := hM (fun _ => []) (fun _ => [])
  have habs : ∀ i, i ∉ A → (start A P).procs i = .stuck := fun i hi => if_neg hi
  set e := quiet A (fun i => Proc.done (ι := ι) (r i)) (fun ch => [] ++ M ch)
    (fun ch => [] ++ M ch) with he
  have hfin : ∀ i ∈ A, e.procs i = .done (r i) := fun i hi => by
    simp only [he, quiet, onParties, if_pos hi]
  have hterm : Terminal e := terminal_of_finished (A := A) (fun i hi => ⟨_, hfin i hi⟩)
    fun i hi => if_neg hi
  have hend : ∀ c, Reaches (start A P) c → (∀ i ∈ A, Finished c i) → c = e := by
    rintro c ⟨m, hc⟩ hf
    obtain ⟨l, -, hl⟩ := hn.finish hterm hc
    cases hl with
    | refl => rfl
    | head hs _ => exact absurd hs (terminal_of_finished hf (hc.absent habs) _)
  refine ⟨⟨n, fun m c hc => ?_⟩, ?_, ?_, ⟨M, fun c hc => ⟨?_, ?_⟩⟩⟩
  · obtain ⟨l, rfl, -⟩ := hn.finish hterm hc
    exact Nat.le_add_right m l
  · rintro c ⟨m, hc⟩
    obtain ⟨l, -, hl⟩ := hn.finish hterm hc
    cases hl with
    | refl => exact .inl fun i hi => ⟨_, hfin i hi⟩
    | head hs _ => exact .inr ⟨_, hs⟩
  · intro c hc hf i hi
    rw [hend c hc hf, hfin i hi]
  · intro ch
    obtain ⟨m, hc⟩ := hc
    obtain ⟨l, -, hl⟩ := hn.finish hterm hc
    simpa only [he, quiet, List.nil_append] using hl.histories ch
  · intro hf ch
    rw [hend c hc hf]
    simp only [he, quiet, List.nil_append, and_self]

/-! ## Programs that cannot return -/

omit [DecidableEq ι] in
/-- Whatever it receives, the program gets stuck. -/
def Proc.NeverReturns : Proc ι α → Prop
  | .done _ => False
  | .send _ _ k => k.NeverReturns
  | .recv _ _ k => ∀ b, (k b).NeverReturns
  | .stuck => True

omit [DecidableEq ι] in
theorem Proc.NeverReturns.bind_left {p : Proc ι α} (h : p.NeverReturns) (f : α → Proc ι β) :
    (p.bind f).NeverReturns := by
  induction p with
  | done a => exact h.elim
  | send _ _ _ ih => exact ih h
  | recv _ _ _ ih => exact fun b => ih b (h b)
  | stuck => trivial

omit [DecidableEq ι] in
theorem Proc.NeverReturns.bind_right (p : Proc ι α) {f : α → Proc ι β}
    (h : ∀ a, (f a).NeverReturns) : (p.bind f).NeverReturns := by
  induction p with
  | done a => exact h a
  | send _ _ _ ih => exact ih
  | recv _ _ _ ih => exact ih
  | stuck => trivial

omit [DecidableEq ι] in
theorem Proc.NeverReturns.foldlM {γ : Type} {f : α → γ → Proc ι α} {xs : List γ} {x : γ} (hx : x ∈ xs)
    (h : ∀ a, (f a x).NeverReturns) (a : α) : (xs.foldlM f a).NeverReturns := by
  induction xs generalizing a with
  | nil => cases hx
  | cons y ys ih =>
    rw [List.foldlM_cons]
    obtain rfl | hx := List.mem_cons.mp hx
    · exact (h a).bind_left _
    · exact .bind_right _ fun b => ih hx b

theorem StepN.neverReturns {n : ℕ} {c d : Net ι α} (h : StepN n c d) {i : ι}
    (hc : (c.procs i).NeverReturns) : (d.procs i).NeverReturns := by
  induction h with
  | refl c => exact hc
  | @head n c c' d hs _ ih =>
    refine ih ?_
    obtain ⟨j, hj⟩ := hs
    obtain ⟨_, m, k, hp, rfl⟩ | ⟨_, n, k, hp, _, rfl⟩ := stepAt_cases hj
    · by_cases hij : i = j
      · subst hij
        rw [hp] at hc
        simp only [Net.afterSend, Function.update_self]
        exact hc
      · rwa [afterSend_procs_ne hij]
    · by_cases hij : i = j
      · subst hij
        rw [hp] at hc
        simp only [Net.afterRecv, Function.update_self]
        exact hc _
      · rwa [afterRecv_procs_ne hij]

theorem Converges.finishes {A : Finset ι} {P : ι → Proc ι α} {r : ι → α} (h : Converges A P r) :
    ∃ c, Reaches (start A P) c ∧ ∀ i ∈ A, Finished c i := by
  by_contra hno
  have hlong : ∀ m, ∃ c, StepN m (start A P) c := by
    intro m
    induction m with
    | zero => exact ⟨_, .refl _⟩
    | succ m ih =>
      obtain ⟨c, hc⟩ := ih
      obtain hf | ⟨d, hd⟩ := h.progress c ⟨m, hc⟩
      · exact absurd ⟨c, ⟨m, hc⟩, hf⟩ hno
      · exact ⟨d, hc.trans (.head hd (.refl d))⟩
  obtain ⟨n, hn⟩ := h.bounded
  obtain ⟨c, hc⟩ := hlong (n + 1)
  exact Nat.not_succ_le_self n (hn _ c hc)

theorem Converges.unique {A : Finset ι} {P : ι → Proc ι α} {r r' : ι → α} (h : Converges A P r)
    (h' : Converges A P r') {i : ι} (hi : i ∈ A) : r i = r' i := by
  obtain ⟨c, hc, hf⟩ := h.finishes
  exact Proc.done.inj ((h.result c hc hf i hi).symm.trans (h'.result c hc hf i hi))

theorem Converges.returns {A : Finset ι} {P : ι → Proc ι α} {r : ι → α} (h : Converges A P r)
    {i : ι} (hi : i ∈ A) : ¬ (P i).NeverReturns := by
  intro hP
  obtain ⟨c, ⟨n, hc⟩, hf⟩ := h.finishes
  have hstart : (start A P).procs i = P i := if_pos hi
  have hc' := hc.neverReturns (hstart.symm ▸ hP)
  obtain ⟨a, ha⟩ := hf i hi
  rw [ha] at hc'
  exact hc'

end Together

end QSync.Network
