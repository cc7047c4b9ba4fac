import QSync.Io.Link

/-! # Nonces of a whole run

All parties' buses together: one pipe for every ordered pair. The nonce names sender, target, stream
and the low 16 bits of the fragment; two datagrams share one under a common key exactly when some
message is cut into more than `2 ^ 16` fragments.
-/

namespace QSync.Io
open QSync.Network
set_option autoImplicit false
set_option maxHeartbeats 250000

/-- The parties of a run. Their ids are single bytes; the environment of each sets its limits. -/
structure Parties where
  nP : ℕ
  lib : CryptoLib
  key_seed : ℕ
  ip : ℕ → ℕ
  retx_k_send : ℕ → ℕ
  retx_k_recv : ℕ → ℕ
  cycle_ns : ℕ → ℕ
  nP_le : nP ≤ 256

def Parties.config (Q : Parties) (p : Fin Q.nP) : Config where
  lib := Q.lib
  key_seed := Q.key_seed
  nP_ := Q.nP
  self_id_ := p
  ip_table_ := Q.ip
  retx_k_send_ := Q.retx_k_send p
  retx_k_recv_ := Q.retx_k_recv p
  cycle_ns_ := Q.cycle_ns p
  nP_le := Q.nP_le
  self_lt := p.isLt

def Parties.pipe (Q : Parties) (s t : Fin Q.nP) (h : s ≠ t) : Pipe where
  S := Q.config s
  T := Q.config t
  lib_eq := rfl
  seed_eq := rfl
  nP_eq := rfl
  ne := fun e => h (Fin.ext e)

abbrev Buses (Q : Parties) := Fin Q.nP → Fin Q.nP → Link

/-- An event on one pipe. -/
structure BusEvent (Q : Parties) where
  s : Fin Q.nP
  t : Fin Q.nP
  event : Event

def Buses.step (Q : Parties) (B : Buses Q) (ev : BusEvent Q) : Option (Buses Q) :=
  if h : ev.s ≠ ev.t then
    ((B ev.s ev.t).step (Q.pipe ev.s ev.t h) (Q.ip ev.t) ev.event).map fun L =>
      Function.update B ev.s (Function.update (B ev.s) ev.t L)
  else none

def Buses.init (Q : Parties) : Buses Q := fun _ _ => {}

def Buses.Reached (Q : Parties) (B : Buses Q) : Prop :=
  Runs (Buses.step Q) (fun _ _ => True) (Buses.init Q) B

/-! ## Encrypted datagrams -/

section Datagram
variable (P : Pipe) (e : Emission)

def Emission.nonce : Bytes := build_nonce 0 P.s P.t (field e.frame 8 4) (field e.frame 12 2)

def Emission.ciphertext : Bytes := e.frame.drop HEADER_SIZE

def Emission.plaintext : Bytes := crypt P.S.lib (P.S.pair_key P.t) (e.nonce P) e.ciphertext

end Datagram

/-- Datagrams encrypted under one key with one nonce are of the same sender, target, message and
fragment, and have the same plaintext. -/
def NoncesUnique (Q : Parties) (B : Buses Q) : Prop :=
  ∀ (s t : Fin Q.nP) (h : s ≠ t) (s' t' : Fin Q.nP) (h' : s' ≠ t'),
    ∀ e ∈ (B s t).wire, ∀ e' ∈ (B s' t').wire, e.ciphertext ≠ [] → e'.ciphertext ≠ [] →
      (Q.pipe s t h).S.pair_key t = (Q.pipe s' t' h').S.pair_key t' →
      e.nonce (Q.pipe s t h) = e'.nonce (Q.pipe s' t' h') →
      (s = s' ∧ t = t' ∧ e.seq = e'.seq ∧ e.i = e'.i) ∧
        e.plaintext (Q.pipe s t h) = e'.plaintext (Q.pipe s' t' h')

/-- No message is cut into more than `2 ^ 16` fragments. -/
def FewFragments (Q : Parties) (B : Buses Q) : Prop :=
  ∀ s t, ∀ data ∈ (B s t).log, total data.length ≤ 2 ^ 16

section Runs
variable {Q : Parties} {B : Buses Q}

theorem Buses.Reached.pipe (h : B.Reached Q) {s t : Fin Q.nP} (hst : s ≠ t) :
    Runs (Link.step (Q.pipe s t hst) (Q.ip t)) anytime {} (B s t) := by
  apply Runs.invariant (I := fun B : Buses Q =>
    Runs (Link.step (Q.pipe s t hst) (Q.ip t)) anytime {} (B s t)) h
  · exact .start
  · intro B ev B' ih _ hs
    unfold Buses.step at hs
    split at hs
    · next hne =>
      obtain ⟨L, hL, rfl⟩ := Option.map_eq_some_iff.mp hs
      by_cases hs' : s = ev.s
      · subst hs'
        rw [Function.update_self]
        by_cases ht' : t = ev.t
        · subst ht'
          rw [Function.update_self]
          exact .next ev.event ih trivial hL
        · rw [Function.update_of_ne ht']
          exact ih
      · rw [Function.update_of_ne hs']
        exact ih
    · cases hs

theorem Buses.Reached.extend (h : B.Reached Q) {s t : Fin Q.nP} (hst : s ≠ t) {L : Link}
    (hL : Runs (Link.step (Q.pipe s t hst) (Q.ip t)) anytime (B s t) L) :
    Buses.Reached Q (Function.update B s (Function.update (B s) t L)) := by
  induction hL with
  | start =>
    rw [Function.update_eq_self, Function.update_eq_self]
    exact h
  | next e _ _ hs ih =>
    refine .next ⟨s, t, e⟩ ih trivial ?_
    unfold Buses.step
    rw [dif_pos hst]
    dsimp only
    rw [Function.update_self, Function.update_self, hs]
    simp

end Runs

/-! ## The fragments emitted -/

/-- The fragments of every message are emitted one after the other. -/
structure Emitted (P : Pipe) (L : Link) : Prop where
  current : ∀ c b, L.call = some (c, b) → c.seq + 1 = L.log.length ∧ L.log[c.seq]? = some c.data ∧
    ∀ j < c.i, ∃ e ∈ L.wire, e.seq = c.seq ∧ e.i = j ∧ e.frame = P.frame c.seq c.data j
  past : ∀ n data, L.log[n]? = some data → (∀ c b, L.call = some (c, b) → c.seq ≠ n) →
    ∀ j < total data.length, ∃ e ∈ L.wire, e.seq = n ∧ e.i = j ∧ e.frame = P.frame n data j

section Emitted
variable {P : Pipe} {addr : ℕ} {L L' : Link}

theorem Emitted.keep (h : Emitted P L) (hcall : ∀ c b, L'.call = some (c, b) →
      ∃ b', L.call = some (c, b')) (hcall' : ∀ c b, L.call = some (c, b) → ∃ b', L'.call = some (c, b'))
    (hlog : L'.log = L.log) (hwire : ∀ e ∈ L.wire, e ∈ L'.wire) : Emitted P L' where
  current := by
    intro c b hc
    obtain ⟨b', hc'⟩ := hcall c b hc
    obtain ⟨h1, h2, h3⟩ := h.current c b' hc'
    rw [hlog]
    refine ⟨h1, h2, fun j hj => ?_⟩
    obtain ⟨e, he, hs⟩ := h3 j hj
    exact ⟨e, hwire e he, hs⟩
  past := by
    intro n data hn hidle j hj
    rw [hlog] at hn
    have hidle' : ∀ c b, L.call = some (c, b) → c.seq ≠ n := by
      intro c b hc
      obtain ⟨b', hc'⟩ := hcall' c b hc
      exact hidle c b' hc'
    obtain ⟨e, he, hs⟩ := h.past n data hn hidle' j hj
    exact ⟨e, hwire e he, hs⟩

theorem Emitted.same_call (h : Emitted P L) (hcall : L'.call = L.call) (hlog : L'.log = L.log)
    (hwire : ∀ e ∈ L.wire, e ∈ L'.wire) : Emitted P L' :=
  h.keep (fun _ b hc => ⟨b, hcall ▸ hc⟩) (fun _ b hc => ⟨b, hcall.trans hc⟩) hlog hwire

theorem Emitted.send (h : Emitted P L) (hsend : Sender P L) {data : Bytes}
    (hs : L.step P addr (.send data) = some L') : Emitted P L' := by
  obtain ⟨hcall, -, rfl⟩ := Link.step_send hs
  constructor
  · intro c b hc
    obtain ⟨rfl, rfl⟩ : (send_start (L.tx_ P.t) data).2 = c ∧ false = b := by simpa using hc
    dsimp only [send_start]
    rw [hsend.local_seq]
    refine ⟨by simp, List.getElem?_concat_length, fun j hj => absurd hj (Nat.not_lt_zero j)⟩
  · intro n d hn hidle j hj
    have hne : L.log.length ≠ n := by
      rw [← hsend.local_seq]
      exact hidle (send_start (L.tx_ P.t) data).2 false rfl
    have hlt : n < L.log.length := by
      have := (List.getElem?_eq_some_iff.mp hn).1
      simp only [List.length_append, List.length_singleton] at this
      omega
    dsimp only at hn
    rw [List.getElem?_append_left hlt] at hn
    exact h.past n d hn (by simp [hcall]) j hj

/-- The datagram handed to `sendto` is the next frame of the message. -/
theorem Sender.frame_of_call (hsend : Sender P L) {c : SendCall} (hc : L.call = some (c, true)) :
    c.buf P.S P.t = P.frame c.seq c.data c.i := by
  obtain ⟨data, i, hdata, hat, -, -⟩ := hsend.call c true hc
  have hcd : c.data = data := by rw [hat]; rfl
  have hci : c.i = i := by rw [hat]; rfl
  rw [hcd, hci, hat]
  rfl

theorem Emitted.sendto (h : Emitted P L) (hsend : Sender P L) {ok : Bool}
    (hs : L.step P addr (.sendto ok) = some L') : Emitted P L' := by
  obtain ⟨c, hc, rfl⟩ := Link.step_sendto hs
  cases ok with
  | false =>
    refine h.keep ?_ ?_ rfl (fun e he => he)
    · intro c' b hc'
      obtain ⟨rfl, rfl⟩ : c = c' ∧ false = b := by simpa [send_datagram] using hc'
      exact ⟨_, hc⟩
    · intro c' b hc'
      obtain ⟨rfl, rfl⟩ : c = c' ∧ true = b := by simpa [hc] using hc'
      exact ⟨_, rfl⟩
  | true =>
    obtain ⟨h1, h2, h3⟩ := h.current c true hc
    constructor
    · intro c' b hc'
      obtain ⟨rfl, rfl⟩ : send_datagram c true = c' ∧ false = b := by simpa using hc'
      refine ⟨h1, h2, fun j hj => ?_⟩
      have hj : j < c.i + 1 := hj
      obtain hj | rfl := Nat.lt_or_eq_of_le (Nat.lt_succ_iff.mp hj)
      · obtain ⟨e, he, hs⟩ := h3 j hj
        exact ⟨e, List.mem_append_left _ he, hs⟩
      · exact ⟨⟨c.seq, c.i, c.buf P.S P.t⟩, by simp, rfl, rfl, hsend.frame_of_call hc⟩
    · intro n d hn hidle j hj
      have hne : c.seq ≠ n := hidle (send_datagram c true) false rfl
      have hidle' : ∀ c' b, L.call = some (c', b) → c'.seq ≠ n := by
        intro c' b hc'
        obtain ⟨rfl, rfl⟩ : c = c' ∧ true = b := by simpa [hc] using hc'
        exact hne
      obtain ⟨e, he, hs⟩ := h.past n d hn hidle' j hj
      exact ⟨e, List.mem_append_left _ he, hs⟩

theorem Emitted.finish (h : Emitted P L) (hs : L.step P addr .finish = some L') :
    Emitted P L' := by
  obtain ⟨c, hc, hmore, rfl⟩ := Link.step_finish hs
  obtain ⟨h1, h2, h3⟩ := h.current c false hc
  constructor
  · intro c' b hc'
    cases hc'
  · intro n d hn _ j hj
    by_cases hne : c.seq = n
    · subst hne
      obtain rfl : c.data = d := Option.some.inj (h2.symm.trans hn)
      have hle : total c.data.length ≤ c.i := by
        unfold SendCall.more at hmore
        exact Nat.le_of_not_lt (of_decide_eq_false hmore)
      exact h3 j (by omega)
    · refine h.past n d hn ?_ j hj
      intro c' b hc'
      obtain ⟨rfl, rfl⟩ : c = c' ∧ false = b := by simpa [hc] using hc'
      exact hne

theorem Emitted.step (h : Emitted P L) (hsend : Sender P L) {ev : Event}
    (hs : L.step P addr ev = some L') : Emitted P L' := by
  cases ev with
  | send data => exact h.send hsend hs
  | retain =>
    obtain ⟨c, hc, -, rfl⟩ := Link.step_retain hs
    refine h.keep ?_ ?_ rfl (fun e he => he)
    · intro c' b hc'
      obtain ⟨rfl, rfl⟩ : c = c' ∧ true = b := by simpa using hc'
      exact ⟨_, hc⟩
    · intro c' b hc'
      obtain ⟨rfl, rfl⟩ : c = c' ∧ false = b := by simpa [hc] using hc'
      exact ⟨_, rfl⟩
  | sendto ok => exact h.sendto hsend hs
  | finish => exact h.finish hs
  | data k =>
    obtain ⟨e, -, rfl⟩ := Option.map_eq_some_iff.mp hs
    exact h.same_call rfl rfl fun e he => he
  | recv len =>
    obtain ⟨r, -, rfl⟩ := Option.map_eq_some_iff.mp hs
    exact h.same_call rfl rfl fun e he => he
  | drain now₁ now₂ =>
    obtain ⟨r, -, rfl⟩ := Option.map_eq_some_iff.mp hs
    exact h.same_call rfl rfl fun e he => he
  | nack k =>
    obtain ⟨b, -, rfl⟩ := Option.map_eq_some_iff.mp hs
    dsimp only
    unfold Link.reply
    split
    · exact h.same_call rfl rfl fun e he => he
    · exact h.same_call rfl rfl fun e he => List.mem_append_left _ he
    · exact h.same_call rfl rfl fun e he => he
  | poison k =>
    obtain ⟨b, -, rfl⟩ := Option.map_eq_some_iff.mp hs
    exact h.same_call rfl rfl fun e he => he

theorem Emitted.run (h : Runs (Link.step P addr) anytime {} L) (hlen : L.log.length < 2 ^ 32) :
    Sender P L ∧ Emitted P L := by
  have hI : L.log.length < 2 ^ 32 → Sender P L ∧ Emitted P L := by
    apply h.invariant (I := fun L => L.log.length < 2 ^ 32 → Sender P L ∧ Emitted P L)
    · intro _
      exact ⟨Sender.init, ⟨by simp, by simp⟩⟩
    · intro L₁ e L₂ ih _ hs hlen₂
      obtain ⟨h1, h2⟩ := ih ((Link.log_le hs).length_le.trans_lt hlen₂)
      exact ⟨h1.step hs hlen₂, h2.step h1 hs⟩
  exact hI hlen

end Emitted

/-! ## Uniqueness -/

section Unique
variable {Q : Parties} {B : Buses Q}

theorem frame_facts (P : Pipe) {e : Emission} {data : Bytes} {i : ℕ}
    (hframe : e.frame = P.frame e.seq data i) :
    e.nonce P = build_nonce 0 P.s P.t e.seq (i % 2 ^ 16) ∧
      e.ciphertext.length = (piece data i).length ∧ e.plaintext P = piece data i := by
  have hnonce : e.nonce P = build_nonce 0 P.s P.t e.seq (i % 2 ^ 16) := by
    unfold Emission.nonce
    rw [hframe, P.frame_eq, field_seq, field_idx]
  have hcipher : e.ciphertext = (SendCall.at e.seq data i).payload P.S P.t := by
    unfold Emission.ciphertext
    rw [hframe, P.frame_eq, drop_header]
  refine ⟨hnonce, by rw [hcipher, P.payload_length], ?_⟩
  unfold Emission.plaintext
  rw [hnonce, hcipher]
  unfold SendCall.payload SendCall.nonce SendCall.idx
  rw [SendCall.chunk_at]
  exact crypt_crypt _ _ _ _

theorem nonces_unique_of_few (h : B.Reached Q) (hlen : ∀ s t, (B s t).log.length < 2 ^ 32)
    (hfew : FewFragments Q B) : NoncesUnique Q B := by
  intro s t hst s' t' hst' e he e' he' _ _ _ hnonce
  obtain ⟨data, i, hd, hi, hei, hframe, -⟩ := (Emitted.run (h.pipe hst) (hlen s t)).1.wire e he
  obtain ⟨data', i', hd', hi', hei', hframe', -⟩ :=
    (Emitted.run (h.pipe hst') (hlen s' t')).1.wire e' he'
  obtain ⟨hn, -, hplain⟩ := frame_facts (Q.pipe s t hst) hframe
  obtain ⟨hn', -, hplain'⟩ := frame_facts (Q.pipe s' t' hst') hframe'
  rw [hn, hn'] at hnonce
  obtain ⟨-, hs, ht, hseq, hidx⟩ := build_nonce_inj hnonce
  obtain rfl : s = s' := Fin.ext hs
  obtain rfl : t = t' := Fin.ext ht
  obtain rfl : data = data' := by
    rw [hseq, hd'] at hd
    exact (Option.some.inj hd).symm
  have htot := hfew s t data (List.mem_of_getElem? hd)
  obtain rfl : i = i' := by omega
  exact ⟨⟨rfl, rfl, hseq, by omega⟩, hplain.trans hplain'.symm⟩

theorem few_of_nonces_unique (h : B.Reached Q) (hlen : ∀ s t, (B s t).log.length < 2 ^ 32)
    (hidle : ∀ s t, (B s t).call = none) (hself : ∀ s, (B s s).log = [])
    (hu : NoncesUnique Q B) : FewFragments Q B := by
  intro s t data hdata
  by_contra hmany
  have hst : s ≠ t := by
    rintro rfl
    rw [hself s] at hdata
    cases hdata
  obtain ⟨n, hn⟩ := List.mem_iff_getElem?.mp hdata
  have hE := (Emitted.run (h.pipe hst) (hlen s t)).2
  have hnocall : ∀ c b, (B s t).call = some (c, b) → c.seq ≠ n := by simp [hidle s t]
  obtain ⟨e, he, hes, hei, hef⟩ := hE.past n data hn hnocall 0 (by omega)
  obtain ⟨e', he', hes', hei', hef'⟩ := hE.past n data hn hnocall (2 ^ 16) (by omega)
  have hne : data ≠ [] := by
    rintro rfl
    exact hmany (by decide)
  rw [← hes] at hef
  rw [← hes'] at hef'
  obtain ⟨hnonce, hclen, -⟩ := frame_facts (Q.pipe s t hst) hef
  obtain ⟨hnonce', hclen', -⟩ := frame_facts (Q.pipe s t hst) hef'
  have hpiece : ∀ j < total data.length, piece data j ≠ [] := fun j hj =>
    piece_ne_nil hne (hj.trans_le (total_le _))
  have hc : e.ciphertext ≠ [] := by
    intro h0
    rw [h0] at hclen
    exact hpiece 0 (by omega) (List.length_eq_zero_iff.mp hclen.symm)
  have hc' : e'.ciphertext ≠ [] := by
    intro h0
    rw [h0] at hclen'
    exact hpiece (2 ^ 16) (by omega) (List.length_eq_zero_iff.mp hclen'.symm)
  have heq : e.nonce (Q.pipe s t hst) = e'.nonce (Q.pipe s t hst) := by
    rw [hnonce, hnonce', hes, hes']
    norm_num
  have hsame := hu s t hst s t hst e he e' he' hc hc' rfl heq
  have := hsame.1.2.2.2
  omega

theorem Buses.Reached.self (h : B.Reached Q) (s : Fin Q.nP) : (B s s).log = [] := by
  apply Runs.invariant (I := fun B : Buses Q => (B s s).log = []) h
  · rfl
  · intro B ev B' ih _ hs
    unfold Buses.step at hs
    split at hs
    · next hne =>
      obtain ⟨L, -, rfl⟩ := Option.map_eq_some_iff.mp hs
      by_cases hs' : s = ev.s
      · subst hs'
        rw [Function.update_self, Function.update_of_ne hne]
        exact ih
      · rw [Function.update_of_ne hs']
        exact ih
    · cases hs

theorem send_completes (P : Pipe) (addr : ℕ) {L : Link} (hcall : L.call = none)
    (hpoison : (L.tx_ P.t).poisoned = none) (data : Bytes) :
    ∃ L', Runs (Link.step P addr) anytime L L' ∧ L'.call = none ∧ L'.log = L.log ++ [data] ∧
      (L'.tx_ P.t).poisoned = none := by
  -- the loop, by the number of fragments left
  have hloop : ∀ (k : ℕ) (c : SendCall) (L₁ : Link), L₁.call = some (c, false) →
      c.i + k = total c.data.length → (L₁.tx_ P.t).poisoned = none →
      ∃ L', Runs (Link.step P addr) anytime L₁ L' ∧ L'.call = none ∧ L'.log = L₁.log ∧
        (L'.tx_ P.t).poisoned = none := by
    intro k
    induction k with
    | zero =>
      intro c L₁ hc hk hp
      have hmore : ¬ c.more = true := by
        unfold SendCall.more
        simp only [decide_eq_true_eq]
        omega
      let L₂ : Link := { L₁ with
        tx_ := Function.update L₁.tx_ P.t (send_end (L₁.tx_ P.t) c)
        call := none }
      have h₂ : L₁.step P addr .finish = some L₂ := by
        simp only [Link.step, hc]
        rw [if_neg hmore]
      have hp₂ : (L₂.tx_ P.t).poisoned = none := by
        show (Function.update L₁.tx_ P.t (send_end (L₁.tx_ P.t) c) P.t).poisoned = none
        rw [Function.update_self]
        exact hp
      exact ⟨L₂, .next _ .start trivial h₂, rfl, rfl, hp₂⟩
    | succ k ih =>
      intro c L₁ hc hk hp
      have hmore : c.more = true := by
        unfold SendCall.more
        simp only [decide_eq_true_eq]
        omega
      let L₂ : Link := { L₁ with
        tx_ := Function.update L₁.tx_ P.t (send_retain P.S P.t (L₁.tx_ P.t) c)
        call := some (c, true) }
      let L₃ : Link := { L₂ with
        wire := L₂.wire ++ [⟨c.seq, c.i, c.buf P.S P.t⟩]
        call := some (send_datagram c true, false) }
      have h₂ : L₁.step P addr .retain = some L₂ := by
        simp only [Link.step, hc]
        rw [if_pos hmore]
      have h₃ : L₂.step P addr (.sendto true) = some L₃ := rfl
      have hp₃ : (L₃.tx_ P.t).poisoned = none := by
        show (Function.update L₁.tx_ P.t (send_retain P.S P.t (L₁.tx_ P.t) c) P.t).poisoned = none
        rw [Function.update_self, (send_retain_same _ _ _ _).2]
        exact hp
      obtain ⟨L', hr, h1, h2, h3⟩ := ih (send_datagram c true) L₃ rfl
        (by show c.i + 1 + k = total c.data.length; omega) hp₃
      exact ⟨L', Runs.trans (.next _ (.next _ .start trivial h₂) trivial h₃) hr, h1, h2, h3⟩
  let L₁ : Link := { L with
    tx_ := Function.update L.tx_ P.t (send_start (L.tx_ P.t) data).1
    call := some ((send_start (L.tx_ P.t) data).2, false)
    log := L.log ++ [data] }
  have h₁ : L.step P addr (.send data) = some L₁ := by
    simp only [Link.step]
    rw [if_neg (by simp [hcall, hpoison])]
  have hp₁ : (L₁.tx_ P.t).poisoned = none := by
    show (Function.update L.tx_ P.t (send_start (L.tx_ P.t) data).1 P.t).poisoned = none
    rw [Function.update_self]
    exact hpoison
  obtain ⟨L', hr, h1, h2, h3⟩ := hloop (total data.length) (send_start (L.tx_ P.t) data).2 L₁ rfl
    (Nat.zero_add _) hp₁
  exact ⟨L', Runs.trans (.next _ .start trivial h₁) hr, h1, h2, h3⟩

end Unique

/-- In every state of a run no nonce is used twice as long as no message is cut into more than
`2 ^ 16` fragments; and when all calls of `send` have returned, only then. -/
theorem nonces_unique_iff (Q : Parties) (B : Buses Q) (h : B.Reached Q)
    (hlen : ∀ s t, (B s t).log.length < 2 ^ 32) :
    (FewFragments Q B → NoncesUnique Q B) ∧
      ((∀ s t, (B s t).call = none) → (NoncesUnique Q B ↔ FewFragments Q B)) := by
  refine ⟨nonces_unique_of_few h hlen, fun hidle => ⟨?_, nonces_unique_of_few h hlen⟩⟩
  exact few_of_nonces_unique h hlen hidle h.self

theorem two_le_parties : 2 ≤ 256 := by decide

def parties2 : Parties where
  nP := 2
  lib := pipe01.S.lib
  key_seed := 200
  ip := fun p => p + 1
  retx_k_send := fun _ => 5
  retx_k_recv := fun _ => 5
  cycle_ns := fun _ => 100000000
  nP_le := two_le_parties

instance : NeZero parties2.nP := ⟨by decide⟩

theorem one_message (data : Bytes) : ∃ B : Buses parties2, B.Reached parties2 ∧
    (∀ s t, (B s t).call = none) ∧ (∀ s t, (B s t).log.length < 2 ^ 32) ∧
    (B 0 1).log = [data] ∧ ∀ s t, (B s t).log = [] ∨ (B s t).log = [data] := by
  obtain ⟨L, hr, hcall, hlog, -⟩ := send_completes (parties2.pipe 0 1 (by decide)) (parties2.ip 1)
    (L := {}) rfl rfl data
  have hB : Buses.Reached parties2 (Buses.init parties2) := .start
  have hB' := hB.extend (s := 0) (t := 1) (by decide) hr
  have hlog : L.log = [data] := hlog
  -- the one pipe that was used, and the others
  have hpipe : ∀ s t, Function.update (Buses.init parties2) 0
      (Function.update (Buses.init parties2 0) 1 L) s t = L ∨
      Function.update (Buses.init parties2) 0
        (Function.update (Buses.init parties2 0) 1 L) s t = {} := by
    intro s t
    by_cases hs : s = 0
    · subst hs
      rw [Function.update_self]
      by_cases ht : t = 1
      · subst ht
        rw [Function.update_self]
        exact .inl rfl
      · rw [Function.update_of_ne ht]
        exact .inr rfl
    · rw [Function.update_of_ne hs]
      exact .inr rfl
  refine ⟨_, hB', ?_, ?_, ?_, ?_⟩
  · intro s t
    rcases hpipe s t with h | h <;> rw [h]
    exact hcall
  · intro s t
    rcases hpipe s t with h | h <;> rw [h]
    · rw [hlog, List.length_singleton]
      decide
    · decide
  · rw [Function.update_self, Function.update_self]
    exact hlog
  · intro s t
    rcases hpipe s t with h | h <;> rw [h]
    · exact .inr hlog
    · exact .inl rfl

theorem nonces_unique_short : ∃ B : Buses parties2, B.Reached parties2 ∧ (B 0 1).log = [[7, 8]] ∧
    NoncesUnique parties2 B := by
  obtain ⟨B, hB, hidle, hlen, h01, hall⟩ := one_message [7, 8]
  refine ⟨B, hB, h01, ((nonces_unique_iff parties2 B hB hlen).2 hidle).mpr ?_⟩
  intro s t data hdata
  obtain h | h := hall s t
  · rw [h] at hdata
    cases hdata
  · rw [h] at hdata
    rw [List.mem_singleton.mp hdata]
    decide

/-- A message of 65537 fragments: its first and its last one share a nonce. -/
theorem nonces_unique_wraps : ∃ B : Buses parties2, B.Reached parties2 ∧
    (∀ s t, (B s t).log.length < 2 ^ 32) ∧
    (B 0 1).log = [List.replicate (MAX_PAYLOAD * 65536 + 1) 0] ∧ ¬ NoncesUnique parties2 B := by
  obtain ⟨B, hB, hidle, hlen, h01, hall⟩ := one_message (List.replicate (MAX_PAYLOAD * 65536 + 1) 0)
  refine ⟨B, hB, hlen, h01, fun hu => ?_⟩
  have hfew := few_of_nonces_unique hB hlen hidle hB.self hu 0 1
    (List.replicate (MAX_PAYLOAD * 65536 + 1) 0) (by rw [h01]; exact List.mem_singleton_self _)
  rw [List.length_replicate] at hfew
  exact absurd hfew (by decide)

end QSync.Io
