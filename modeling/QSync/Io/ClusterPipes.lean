import QSync.Io.Cluster
import QSync.Io.Delivery

/-! # The pipes of a cluster

What any other party does, witnesses included, leaves the pipe of an ordered pair alone: on the common
medium every pipe is a run of its own (`Cluster.Joined`), whatever the source addresses are.
-/

namespace QSync.Io
open QSync.Network
set_option autoImplicit false
set_option maxHeartbeats 250000

/-! ## Frames of honest parties -/

/-- A DATA frame for `t`. -/
def DataTo (t : ℕ) (buf : Bytes) : Prop := field buf 0 4 = KIND_DATA ∧ field buf 5 1 = t

/-- What party `p` puts on the medium. -/
inductive Honest (Q : Parties) (p : Fin Q.nP) : Bytes → Prop
  | data (t : Fin Q.nP) (h : p ≠ t) (seq : ℕ) (data : Bytes) (i : ℕ) :
    Honest Q p ((Q.pipe p t h).frame seq data i)
  | nack (s t : Fin Q.nP) (h : s ≠ t) (seq idx : ℕ) : Honest Q p (send_nack_ (Q.config p) s t seq idx)
  | poison (t : Fin Q.nP) (reason : PoisonReason) :
    Honest Q p (send_poison_to_target_ (Q.config p) t reason)

section Frames
variable {Q : Parties}

theorem field_kind (kind snd tgt seq idx tot plen : ℕ) (body : Bytes) :
    field (header kind snd tgt seq idx tot plen ++ body) 0 4 = kind := by
  have h : field (header kind snd tgt seq idx tot plen ++ body) 0 4 = leNat (leBytes 4 kind) := by
    simp [field, header, leBytes_four]
  rw [h, leNat_leBytes (by decide)]

theorem Pipe.frame_dataTo (P : Pipe) (seq : ℕ) (data : Bytes) (i : ℕ) :
    DataTo P.t (P.frame seq data i) := by
  rw [P.frame_eq]
  exact ⟨field_kind .., field_target ..⟩

theorem nack_not_data (C : Config) (s t seq idx u : ℕ) : ¬DataTo u (send_nack_ C s t seq idx) := by
  rintro ⟨h, -⟩
  rw [send_nack_, field_kind] at h
  exact absurd h (by decide)

theorem poison_not_data (C : Config) (t : ℕ) (reason : PoisonReason) (u : ℕ) :
    ¬DataTo u (send_poison_to_target_ C t reason) := by
  rintro ⟨h, -⟩
  unfold send_poison_to_target_ at h
  dsimp only at h
  rw [field_kind] at h
  exact absurd h (by decide)

theorem Honest.length {p : Fin Q.nP} {buf : Bytes} (h : Honest Q p buf) :
    HEADER_SIZE ≤ buf.length ∧ buf.length ≤ HEADER_SIZE + MAX_PAYLOAD := by
  cases h with
  | data t h seq data i =>
    rw [Pipe.frame_eq, List.length_append, header_length, Pipe.payload_length, piece_length]
    omega
  | nack s t h seq idx =>
    rw [send_nack_, List.length_append, header_length]
    simp [leBytes_four, leBytes_two, MAX_PAYLOAD]
  | poison t reason =>
    unfold send_poison_to_target_
    dsimp only
    rw [List.length_append, header_length, List.length_take]
    omega

/-- The pump takes a frame as it is, unless it comes from the party's own address. -/
theorem Honest.taken {p : Fin Q.nP} {buf : Bytes} (h : Honest Q p buf) (C : Config) (src : ℕ) :
    pump_taken C buf src = none ∨ pump_taken C buf src = some buf := by
  have hlen := h.length
  have hall : buf.take (HEADER_SIZE + MAX_PAYLOAD + 64) = buf :=
    List.take_of_length_le (by omega)
  unfold pump_taken
  dsimp only
  rw [hall]
  split
  · exact .inl rfl
  · split
    · exact .inl rfl
    · split
      · exact .inl rfl
      · exact .inr rfl

/-! ## Handlers on frames for other pipes -/

theorem handle_data_elsewhere {C : Config} {buf : Bytes} (rx_ : ℕ → RxState)
    (h : field buf 4 1 = C.self_id_ ∨ field buf 5 1 ≠ C.self_id_) : handle_data_ C rx_ buf = rx_ := by
  unfold handle_data_
  dsimp only
  obtain h | h := h
  · rw [if_pos (.inl h)]
  · split
    · rfl
    · split <;> rfl

theorem handle_nack_elsewhere {C : Config} {buf : Bytes} (tx_ : ℕ → TxState) (src : ℕ)
    (h : field buf 5 1 ≠ C.self_id_) : handle_nack_ C tx_ buf src = (tx_, .silent) := by
  unfold handle_nack_
  rw [if_pos h, ite_self]

/-- Who has sent a NACK is not looked at, only where it comes from. -/
theorem handle_nack_origin (C C₁ C₂ : Config) (tx_ : ℕ → TxState) (s t seq idx src : ℕ) :
    handle_nack_ C tx_ (send_nack_ C₁ s t seq idx) src =
      handle_nack_ C tx_ (send_nack_ C₂ s t seq idx) src := by
  have hbody : ∀ off w, field (send_nack_ C₁ s t seq idx) (HEADER_SIZE + off) w =
      field (send_nack_ C₂ s t seq idx) (HEADER_SIZE + off) w := fun off w => by
    rw [send_nack_, send_nack_, field_body, field_body]
  have hfirst : field (send_nack_ C₁ s t seq idx) HEADER_SIZE 1 =
      field (send_nack_ C₂ s t seq idx) HEADER_SIZE 1 := hbody 0 1
  have htarget : field (send_nack_ C₁ s t seq idx) 5 1 = field (send_nack_ C₂ s t seq idx) 5 1 := by
    rw [send_nack_, send_nack_, field_target, field_target]
  have hlen : (send_nack_ C₁ s t seq idx).length = (send_nack_ C₂ s t seq idx).length := by
    simp [send_nack_]
  unfold handle_nack_
  rw [hlen, htarget, hfirst, hbody, hbody, hbody]

end Frames

theorem nack_frames {C : Config} {t : ℕ} {ts : TxState} {seq idx : ℕ} {buf : Bytes}
    (h : buf ∈ (ts.handle_nack C t seq idx).2.frames C) :
    DataTo t buf ∨ ∃ reason, buf = send_poison_to_target_ C t reason := by
  rcases handle_nack_cases C t ts seq idx with he | ⟨rcd, ts', -, -, -, ⟨-, he⟩ | he⟩ | ⟨-, he⟩
  · rw [he] at h
    cases h
  · rw [he] at h
    exact .inr ⟨_, List.mem_singleton.mp h⟩
  · rw [he] at h
    obtain rfl := List.mem_singleton.mp h
    rw [DataTo, resend_fragment_, field_kind, field_target]
    exact .inl ⟨rfl, rfl⟩
  · rw [he] at h
    exact .inr ⟨_, List.mem_singleton.mp h⟩

section Reply
variable (P : Pipe) (L : Link) (r : NackReply)

@[simp] theorem Link.reply_tx : (L.reply P r).tx_ = L.tx_ := by cases r <;> rfl
@[simp] theorem Link.reply_rx : (L.reply P r).rx_ = L.rx_ := by cases r <;> rfl
@[simp] theorem Link.reply_call : (L.reply P r).call = L.call := by cases r <;> rfl
@[simp] theorem Link.reply_log : (L.reply P r).log = L.log := by cases r <;> rfl
@[simp] theorem Link.reply_out : (L.reply P r).out = L.out := by cases r <;> rfl

/-- What a reply adds to the DATA frames emitted. -/
theorem Link.reply_wire (buf : Bytes) : (∃ e ∈ (L.reply P r).wire, e.frame = buf) ↔
    (∃ e ∈ L.wire, e.frame = buf) ∨ buf ∈ r.frames P.S ∧ field buf 0 4 = KIND_DATA := by
  cases r with
  | silent => simp [Link.reply, NackReply.frames]
  | resend target seq idx rcd =>
    have hkind : field (resend_fragment_ P.S target seq idx rcd) 0 4 = KIND_DATA := by
      rw [resend_fragment_, field_kind]
    simp only [Link.reply, NackReply.frames, List.mem_append, List.mem_singleton, or_and_right,
      exists_or, exists_eq_left]
    exact or_congr Iff.rfl ⟨fun h => ⟨h.symm, h ▸ hkind⟩, fun h => h.1.symm⟩
  | poison target reason =>
    have hkind : field (send_poison_to_target_ P.S target reason) 0 4 ≠ KIND_DATA := by
      unfold send_poison_to_target_
      dsimp only
      rw [field_kind]
      decide
    simp only [Link.reply, NackReply.frames, List.mem_singleton]
    exact ⟨.inl, fun h => h.elim id fun hr => absurd (hr.1 ▸ hr.2) hkind⟩

end Reply

section Nack
variable {Q : Parties} {s t : Fin Q.nP}

/-- What `s` makes of a NACK for its stream to `t`, whoever has sent it. -/
theorem nack_effect (hst : s ≠ t) (C : Config) (tx_ : ℕ → TxState) (seq idx src : ℕ) :
    handle_nack_ (Q.config s) tx_ (send_nack_ C s t seq idx) src =
      if src ≠ Q.ip t then (tx_, .silent)
      else (Function.update tx_ t ((tx_ t).handle_nack (Q.config s) t seq idx).1,
        ((tx_ t).handle_nack (Q.config s) t seq idx).2) := by
  rw [handle_nack_origin _ C (Q.config t)]
  exact (Q.pipe s t hst).handle_nack_frame tx_ seq idx src

theorem nack_reply (hst : s ≠ t) {C : Config} {tx_ : ℕ → TxState} {seq idx src : ℕ} {buf : Bytes}
    (h : buf ∈ (handle_nack_ (Q.config s) tx_ (send_nack_ C s t seq idx) src).2.frames (Q.config s)) :
    DataTo t buf ∨ ∃ reason, buf = send_poison_to_target_ (Q.config s) t reason := by
  rw [nack_effect hst] at h
  split at h
  · cases h
  · exact nack_frames h

end Nack

/-! ## A pipe of the cluster -/

section Pipes
variable {Q : Parties} {α : Type} {addr : Fin Q.nP → ℕ} {D D' : Cluster Q α} {p s t : Fin Q.nP}

/-- The state of the pipe from `s` to `t` is that of the link `L`; what the link has emitted is what `s`
has put on the medium for `t`. -/
structure Cluster.Shows (D : Cluster Q α) (s t : Fin Q.nP) (L : Link) : Prop where
  tx : L.tx_ t = (D.stations s).bus.tx_ t
  rx : L.rx_ s = (D.stations t).bus.rx_ s
  call : ∀ c b, L.call = some (c, b) ↔ (D.stations s).call = some (t, c, b)
  log : L.log = D.log (s, t)
  out : L.out = D.out (s, t)
  wire : ∀ buf, (∃ e ∈ L.wire, e.frame = buf) ↔ (s, buf) ∈ D.air ∧ DataTo t buf

/-- Every pipe is in step. -/
def Cluster.Joined (D : Cluster Q α) : Prop :=
  ∀ (s t : Fin Q.nP) (h : s ≠ t), ∃ L, InStep False (Q.pipe s t h) L ∧ D.Shows s t L

/-- The pipe from `s` to `t` is in `D'` as it was in `D`. -/
structure Cluster.Leaves (D D' : Cluster Q α) (s t : Fin Q.nP) : Prop where
  tx : (D'.stations s).bus.tx_ t = (D.stations s).bus.tx_ t
  rx : (D'.stations t).bus.rx_ s = (D.stations t).bus.rx_ s
  call : ∀ c b, (D'.stations s).call = some (t, c, b) ↔ (D.stations s).call = some (t, c, b)
  log : D'.log (s, t) = D.log (s, t)
  out : D'.out (s, t) = D.out (s, t)
  air : ∀ buf, DataTo t buf → ((s, buf) ∈ D'.air ↔ (s, buf) ∈ D.air)

theorem Cluster.Shows.keep {L : Link} (h : D.Shows s t L) (hl : D.Leaves D' s t) : D'.Shows s t L where
  tx := h.tx.trans hl.tx.symm
  rx := h.rx.trans hl.rx.symm
  call c b := (h.call c b).trans (hl.call c b).symm
  log := h.log.trans hl.log.symm
  out := h.out.trans hl.out.symm
  wire buf := (h.wire buf).trans <| and_congr_left fun hd => (hl.air buf hd).symm

/-- It is enough to look at one pipe. -/
theorem Cluster.Joined.active (h : D.Joined) (a b : Fin Q.nP)
    (hrest : ∀ s t, s ≠ t → (s, t) ≠ (a, b) → D.Leaves D' s t)
    (hactive : ∀ (hab : a ≠ b) L, InStep False (Q.pipe a b hab) L → D.Shows a b L →
      ∃ L', InStep False (Q.pipe a b hab) L' ∧ D'.Shows a b L') : D'.Joined := by
  intro s t hst
  obtain ⟨L, hL, hshow⟩ := h s t hst
  by_cases he : (s, t) = (a, b)
  · obtain ⟨rfl, rfl⟩ := Prod.mk.inj he
    exact hactive hst L hL hshow
  · exact ⟨L, hL, hshow.keep (hrest s t hst he)⟩

theorem Cluster.Joined.keep (h : D.Joined) (hrest : ∀ s t, s ≠ t → D.Leaves D' s t) : D'.Joined := by
  intro s t hst
  obtain ⟨L, hL, hshow⟩ := h s t hst
  exact ⟨L, hL, hshow.keep (hrest s t hst)⟩

/-- A step of party `p` leaves a pipe alone when its own end of the pipe is left alone. -/
theorem Cluster.leaves_put {σ : Station Q α} (hp : D'.stations = Function.update D.stations p σ)
    (htx : s = p → σ.bus.tx_ t = (D.stations p).bus.tx_ t)
    (hrx : t = p → σ.bus.rx_ s = (D.stations p).bus.rx_ s)
    (hcall : s = p → ∀ c b, σ.call = some (t, c, b) ↔ (D.stations p).call = some (t, c, b))
    (hlog : D'.log (s, t) = D.log (s, t)) (hout : D'.out (s, t) = D.out (s, t))
    (hair : ∀ buf, DataTo t buf → ((s, buf) ∈ D'.air ↔ (s, buf) ∈ D.air)) : D.Leaves D' s t := by
  refine ⟨?_, ?_, ?_, hlog, hout, hair⟩
  · rw [hp]
    by_cases hs : s = p
    · rw [hs, Function.update_self, htx hs]
    · rw [Function.update_of_ne hs]
  · rw [hp]
    by_cases ht : t = p
    · rw [ht, Function.update_self, hrx ht]
    · rw [Function.update_of_ne ht]
  · rw [hp]
    by_cases hs : s = p
    · rw [hs, Function.update_self]
      exact hcall hs
    · rw [Function.update_of_ne hs]
      exact fun _ _ => Iff.rfl

theorem Cluster.air_broadcast {bufs : List Bytes} (hair : D'.air = D.air ++ bufs.map fun b => (p, b))
    (h : s = p → ∀ buf ∈ bufs, ¬DataTo t buf) (buf : Bytes) (hd : DataTo t buf) :
    (s, buf) ∈ D'.air ↔ (s, buf) ∈ D.air := by
  rw [hair, List.mem_append]
  refine or_iff_left ?_
  intro hmem
  obtain ⟨b, hb, he⟩ := List.mem_map.mp hmem
  obtain ⟨rfl, rfl⟩ := Prod.mk.inj he
  exact h rfl b hb hd

/-! ## The main thread -/

theorem Cluster.enter_cases (h : D.enter p = some D') : (D.stations p).call = none ∧
    ((∃ msg next, (D.stations p).proc = .send p msg next ∧
        D' = D.put p { D.stations p with proc := next }) ∨
      (∃ (t : Fin Q.nP) (msg : Bytes) (next : Proc ℕ α), t ≠ p ∧
        (D.stations p).proc = .send t msg next ∧ ((D.stations p).bus.tx_ t).poisoned = none ∧
        D' = { D.put p { (D.stations p).setTx t (send_start ((D.stations p).bus.tx_ t) msg).1 with
            proc := next
            call := some (t, (send_start ((D.stations p).bus.tx_ t) msg).2, false) } with
          log := Function.update D.log (p, t) (D.log (p, t) ++ [msg]) }) ∨
      (∃ src len next, (D.stations p).proc = .recv src len next ∧ ¬(src < Q.nP ∧ src ≠ p) ∧
        D' = D.put p { D.stations p with proc := next (List.replicate len 0) }) ∨
      ∃ (s : Fin Q.nP) (len : ℕ) (next : Bytes → Proc ℕ α) (r : Bytes × RxState), s ≠ p ∧
        (D.stations p).proc = .recv s len next ∧ recv ((D.stations p).bus.rx_ s) len = some r ∧
        D' = { D.put p { (D.stations p).setRx s r.2 with proc := next r.1 } with
          out := Function.update D.out (s, p) (D.out (s, p) ++ r.1) }) := by
  unfold Cluster.enter at h
  dsimp only at h
  split at h
  · next dst msg next hcall hproc =>
    refine ⟨hcall, ?_⟩
    split at h
    · next hself =>
      subst hself
      exact .inl ⟨msg, next, hproc, (Option.some.inj h).symm⟩
    · next hself =>
      split at h
      · next hlt =>
        split at h
        · cases h
        · next hclean =>
          refine .inr (.inl ⟨⟨dst, hlt⟩, msg, next, fun e => hself (congrArg Fin.val e), hproc, ?_,
            (Option.some.inj h).symm⟩)
          exact Option.not_isSome_iff_eq_none.mp hclean
      · cases h
  · next src len next hcall hproc =>
    refine ⟨hcall, ?_⟩
    split at h
    · next hpeer =>
      obtain ⟨r, hr, rfl⟩ := Option.map_eq_some_iff.mp h
      exact .inr (.inr (.inr ⟨⟨src, hpeer.1⟩, len, next, r, fun e => hpeer.2 (congrArg Fin.val e),
        hproc, hr, rfl⟩))
    · next hpeer =>
      exact .inr (.inr (.inl ⟨src, len, next, hproc, hpeer, (Option.some.inj h).symm⟩))
  · cases h

/-- Fewer than `2 ^ 32` messages a pipe, each of them within the 16-bit fragment fields. -/
def Cluster.Small (D : Cluster Q α) : Prop :=
  ∀ st, (D.log st).length < 2 ^ 32 ∧ ∀ data ∈ D.log st, fragCount data.length ≤ 65535

theorem Cluster.Shows.small {L : Link} (h : D.Shows s t L) (hD : D.Small) : L.Small := by
  intro data hd
  rw [h.log] at hd
  exact (hD (s, t)).2 data hd

theorem Cluster.Shows.idle {L : Link} (h : D.Shows s t L) (hD : (D.stations s).call = none) :
    L.call = none := by
  cases hc : L.call with
  | none => rfl
  | some cb =>
    have hcall := (h.call cb.1 cb.2).mp hc
    rw [hD] at hcall
    cases hcall

theorem Cluster.Joined.send (h : D.Joined) (hD : D.Small) (hD' : D'.Small) {msg : Bytes}
    {next : Proc ℕ α} (hidle : (D.stations p).call = none)
    (hclean : ((D.stations p).bus.tx_ t).poisoned = none)
    (he : D' = { D.put p { (D.stations p).setTx t (send_start ((D.stations p).bus.tx_ t) msg).1 with
        proc := next
        call := some (t, (send_start ((D.stations p).bus.tx_ t) msg).2, false) } with
      log := Function.update D.log (p, t) (D.log (p, t) ++ [msg]) }) : D'.Joined := by
  subst he
  refine h.active p t ?_ fun hpt L hL hshow => ?_
  · intro s u hsu hne
    refine Cluster.leaves_put rfl ?_ (fun _ => rfl) ?_ ?_ rfl (fun _ _ => Iff.rfl)
    · rintro rfl
      have hut : (u : ℕ) ≠ t := fun e => hne (by rw [Fin.ext e])
      exact Function.update_of_ne hut _ _
    · rintro rfl c b
      rw [hidle]
      have hut : t ≠ u := fun e => hne (by rw [e])
      simp [hut]
    · exact Function.update_of_ne hne _ _
  · have hstep : L.step (Q.pipe p t hpt) 0 (.send msg) = some { L with
        tx_ := Function.update L.tx_ t (send_start (L.tx_ t) msg).1
        call := some ((send_start (L.tx_ t) msg).2, false)
        log := L.log ++ [msg] } := by
      have hno : ¬(L.call.isSome ∨ (L.tx_ t).poisoned.isSome) := by
        rw [hshow.idle hidle, hshow.tx, hclean]
        simp
      exact if_neg hno
    have hlen : (L.log ++ [msg]).length < 2 ^ 32 := by
      have hnew := (hD' (p, t)).1
      dsimp only at hnew
      rwa [Function.update_self, ← hshow.log] at hnew
    refine ⟨_, hL.step hstep hlen (hshow.small hD) (fun hf => hf.elim), ?_⟩
    constructor
    · dsimp only [Cluster.put, Station.setTx]
      rw [Function.update_self, Function.update_self]
      dsimp only
      rw [Function.update_self, hshow.tx]
    · dsimp only [Cluster.put, Station.setTx]
      rw [Function.update_of_ne hpt.symm, hshow.rx]
    · intro c b
      dsimp only [Cluster.put]
      rw [Function.update_self, hshow.tx]
      simp
    · dsimp only
      rw [Function.update_self, hshow.log]
    · exact hshow.out
    · exact hshow.wire

theorem Cluster.Joined.recv (h : D.Joined) (hD : D.Small) {len : ℕ} {r : Bytes × RxState}
    {next : Proc ℕ α} (hr : Io.recv ((D.stations p).bus.rx_ s) len = some r)
    (he : D' = { D.put p { (D.stations p).setRx s r.2 with proc := next } with
      out := Function.update D.out (s, p) (D.out (s, p) ++ r.1) }) : D'.Joined := by
  subst he
  refine h.active s p ?_ fun hsp L hL hshow => ?_
  · intro u t hut hne
    refine Cluster.leaves_put rfl (fun _ => rfl) ?_ (fun _ _ _ => Iff.rfl) rfl ?_
      (fun _ _ => Iff.rfl)
    · rintro rfl
      have hus : (u : ℕ) ≠ s := fun e => hne (by rw [Fin.ext e])
      exact Function.update_of_ne hus _ _
    · exact Function.update_of_ne hne _ _
  · have hstep : L.step (Q.pipe s p hsp) 0 (.recv len) = some { L with
        rx_ := Function.update L.rx_ s r.2
        out := L.out ++ r.1 } := by
      have hL' : Io.recv (L.rx_ s) len = some r := by rw [hshow.rx, hr]
      exact Option.map_eq_some_iff.mpr ⟨r, hL', rfl⟩
    have hlen : L.log.length < 2 ^ 32 := hshow.log ▸ (hD (s, p)).1
    refine ⟨_, hL.step hstep hlen (hshow.small hD) (fun hf => hf.elim), ?_⟩
    constructor
    · dsimp only [Cluster.put, Station.setRx]
      rw [Function.update_of_ne hsp, hshow.tx]
    · dsimp only [Cluster.put, Station.setRx]
      rw [Function.update_self, Function.update_self]
      dsimp only
      rw [Function.update_self]
    · intro c b
      dsimp only [Cluster.put]
      rw [Function.update_of_ne hsp]
      exact hshow.call c b
    · exact hshow.log
    · dsimp only
      rw [Function.update_self, hshow.out]
    · exact hshow.wire

theorem Cluster.Joined.enter (h : D.Joined) (hD : D.Small) (hD' : D'.Small)
    (hs : D.enter p = some D') : D'.Joined := by
  obtain ⟨hidle, ⟨msg, next, -, he⟩ | ⟨t, msg, next, -, -, hclean, he⟩ | ⟨src, len, next, -, -, he⟩ |
    ⟨s, len, next, r, -, -, hr, he⟩⟩ := Cluster.enter_cases hs
  · subst he
    exact h.keep fun s t _ => Cluster.leaves_put rfl (fun _ => rfl) (fun _ => rfl)
      (fun _ _ _ => Iff.rfl) rfl rfl (fun _ _ => Iff.rfl)
  · exact h.send hD hD' hidle hclean he
  · subst he
    exact h.keep fun s t _ => Cluster.leaves_put rfl (fun _ => rfl) (fun _ => rfl)
      (fun _ _ _ => Iff.rfl) rfl rfl (fun _ _ => Iff.rfl)
  · exact h.recv hD hr he

section Call
variable {c : SendCall}

theorem Cluster.Joined.retain (h : D.Joined) (hD : D.Small)
    (hcall : (D.stations p).call = some (t, c, false)) (hmore : c.more = true) :
    (D.put p { (D.stations p).setTx t (send_retain (Q.config p) t ((D.stations p).bus.tx_ t) c) with
      call := some (t, c, true) }).Joined := by
  refine h.active p t ?_ fun hpt L hL hshow => ?_
  · intro s u hsu hne
    refine Cluster.leaves_put rfl ?_ (fun _ => rfl) ?_ rfl rfl (fun _ _ => Iff.rfl)
    · rintro rfl
      have hut : (u : ℕ) ≠ t := fun e => hne (by rw [Fin.ext e])
      exact Function.update_of_ne hut _ _
    · rintro rfl c' b
      rw [hcall]
      have hut : t ≠ u := fun e => hne (by rw [e])
      simp [hut]
  · have hc : L.call = some (c, false) := (hshow.call c false).mpr hcall
    have hstep : L.step (Q.pipe p t hpt) 0 .retain = some { L with
        tx_ := Function.update L.tx_ t (send_retain (Q.config p) t (L.tx_ t) c)
        call := some (c, true) } := by
      simp only [Link.step, hc, if_pos hmore]
      rfl
    refine ⟨_, hL.step hstep (hshow.log ▸ (hD (p, t)).1) (hshow.small hD) (fun hf => hf.elim), ?_⟩
    constructor
    · dsimp only [Cluster.put, Station.setTx]
      rw [Function.update_self, Function.update_self]
      dsimp only
      rw [Function.update_self, hshow.tx]
    · dsimp only [Cluster.put, Station.setTx]
      rw [Function.update_of_ne hpt.symm, hshow.rx]
    · intro c' b
      dsimp only [Cluster.put]
      rw [Function.update_self]
      simp
    · exact hshow.log
    · exact hshow.out
    · exact hshow.wire

theorem buf_dataTo (C : Config) (t u : ℕ) (c : SendCall) : DataTo u (c.buf C t) ↔ u = t := by
  unfold DataTo SendCall.buf
  rw [field_kind, field_target]
  exact ⟨fun h => h.2.symm, fun h => ⟨rfl, h.symm⟩⟩

theorem Cluster.Joined.sendto (h : D.Joined) (hD : D.Small) (ok : Bool)
    (hcall : (D.stations p).call = some (t, c, true)) :
    ((D.put p { D.stations p with call := some (t, send_datagram c ok, false) }).broadcast p
      (if ok then [c.buf (Q.config p) t] else [])).Joined := by
  refine h.active p t ?_ fun hpt L hL hshow => ?_
  · intro s u hsu hne
    refine Cluster.leaves_put rfl (fun _ => rfl) (fun _ => rfl) ?_ rfl rfl
      (Cluster.air_broadcast rfl ?_)
    · rintro rfl c' b
      rw [hcall]
      have hut : t ≠ u := fun e => hne (by rw [e])
      simp [hut]
    · rintro rfl buf hbuf hd
      cases ok with
      | false => simp at hbuf
      | true =>
        obtain rfl : buf = c.buf (Q.config s) t := by simpa using hbuf
        exact hne (by rw [Fin.ext ((buf_dataTo _ _ _ _).mp hd)])
  · have hc : L.call = some (c, true) := (hshow.call c true).mpr hcall
    have hstep : L.step (Q.pipe p t hpt) 0 (.sendto ok) = some { L with
        wire := if ok then L.wire ++ [⟨c.seq, c.i, c.buf (Q.config p) t⟩] else L.wire
        call := some (send_datagram c ok, false) } := by
      simp only [Link.step, hc]
      rfl
    refine ⟨_, hL.step hstep (hshow.log ▸ (hD (p, t)).1) (hshow.small hD) (fun hf => hf.elim), ?_⟩
    constructor
    · dsimp only [Cluster.broadcast, Cluster.put]
      rw [Function.update_self, hshow.tx]
    · dsimp only [Cluster.broadcast, Cluster.put]
      rw [Function.update_of_ne hpt.symm, hshow.rx]
    · intro c' b
      dsimp only [Cluster.broadcast, Cluster.put]
      rw [Function.update_self]
      simp
    · exact hshow.log
    · exact hshow.out
    · intro buf
      have hwire := hshow.wire buf
      dsimp only [Cluster.broadcast, Cluster.put]
      cases ok with
      | false => simpa using hwire
      | true =>
        have hnew : buf = c.buf (Q.config p) t → DataTo t buf := by
          rintro rfl
          exact (buf_dataTo _ _ _ _).mpr rfl
        simp only [if_true, List.map_cons, List.map_nil, List.mem_append, List.mem_singleton,
          or_and_right, exists_or, exists_eq_left, hwire, Prod.mk.injEq, true_and]
        exact or_congr Iff.rfl ⟨fun e => ⟨e.symm, hnew e.symm⟩, fun e => e.1.symm⟩

theorem Cluster.Joined.finish (h : D.Joined) (hD : D.Small)
    (hcall : (D.stations p).call = some (t, c, false)) (hmore : c.more = false) :
    (D.put p { (D.stations p).setTx t (send_end ((D.stations p).bus.tx_ t) c) with
      call := none }).Joined := by
  refine h.active p t ?_ fun hpt L hL hshow => ?_
  · intro s u hsu hne
    refine Cluster.leaves_put rfl ?_ (fun _ => rfl) ?_ rfl rfl (fun _ _ => Iff.rfl)
    · rintro rfl
      have hut : (u : ℕ) ≠ t := fun e => hne (by rw [Fin.ext e])
      exact Function.update_of_ne hut _ _
    · rintro rfl c' b
      rw [hcall]
      have hut : t ≠ u := fun e => hne (by rw [e])
      simp [hut]
  · have hc : L.call = some (c, false) := (hshow.call c false).mpr hcall
    have hstep : L.step (Q.pipe p t hpt) 0 .finish = some { L with
        tx_ := Function.update L.tx_ t (send_end (L.tx_ t) c)
        call := none } := by
      simp only [Link.step, hc, hmore]
      rfl
    refine ⟨_, hL.step hstep (hshow.log ▸ (hD (p, t)).1) (hshow.small hD) (fun hf => hf.elim), ?_⟩
    constructor
    · dsimp only [Cluster.put, Station.setTx]
      rw [Function.update_self, Function.update_self]
      dsimp only
      rw [Function.update_self, hshow.tx]
    · dsimp only [Cluster.put, Station.setTx]
      rw [Function.update_of_ne hpt.symm, hshow.rx]
    · intro c' b
      dsimp only [Cluster.put]
      rw [Function.update_self]
      simp
    · exact hshow.log
    · exact hshow.out
    · exact hshow.wire

end Call

/-! ## The pump thread -/

theorem Cluster.Joined.drain (h : D.Joined) (hD : D.Small) {now₁ now₂ : ℕ}
    {r : RxState × List (ℕ × ℕ)}
    (hr : drain_nack_state_ (Q.config p) s now₁ now₂ ((D.stations p).bus.rx_ s) = some r) :
    ((D.put p ((D.stations p).setRx s r.1)).broadcast p
      (r.2.map fun key => send_nack_ (Q.config p) s p key.1 key.2)).Joined := by
  have hnodata : ∀ (t : ℕ), ∀ buf ∈ r.2.map fun key => send_nack_ (Q.config p) s p key.1 key.2,
      ¬DataTo t buf := by
    intro t buf hbuf
    obtain ⟨key, -, rfl⟩ := List.mem_map.mp hbuf
    exact nack_not_data _ _ _ _ _ _
  refine h.active s p ?_ fun hsp L hL hshow => ?_
  · intro u t hut hne
    refine Cluster.leaves_put rfl (fun _ => rfl) ?_ (fun _ _ _ => Iff.rfl) rfl rfl
      (Cluster.air_broadcast rfl fun _ => hnodata t)
    rintro rfl
    have hus : (u : ℕ) ≠ s := fun e => hne (by rw [Fin.ext e])
    exact Function.update_of_ne hus _ _
  · have hstep : L.step (Q.pipe s p hsp) 0 (.drain now₁ now₂) = some { L with
        rx_ := Function.update L.rx_ s r.1
        nackWire := L.nackWire ++ r.2.map fun key => send_nack_ (Q.config p) s p key.1 key.2
        nacks := L.nacks ++ r.2 } := by
      have hL' : drain_nack_state_ (Q.config p) s now₁ now₂ (L.rx_ s) = some r := by
        rw [hshow.rx, hr]
      exact Option.map_eq_some_iff.mpr ⟨r, hL', rfl⟩
    refine ⟨_, hL.step hstep (hshow.log ▸ (hD (s, p)).1) (hshow.small hD) (fun hf => hf.elim), ?_⟩
    constructor
    · dsimp only [Cluster.broadcast, Cluster.put, Station.setRx]
      rw [Function.update_of_ne hsp, hshow.tx]
    · dsimp only [Cluster.broadcast, Cluster.put, Station.setRx]
      rw [Function.update_self, Function.update_self]
      dsimp only
      rw [Function.update_self]
    · intro c b
      dsimp only [Cluster.broadcast, Cluster.put]
      rw [Function.update_of_ne hsp]
      exact hshow.call c b
    · exact hshow.log
    · exact hshow.out
    · intro buf
      rw [hshow.wire buf]
      exact and_congr_left fun hd => (Cluster.air_broadcast rfl (fun _ => hnodata p) buf hd).symm

theorem Cluster.Joined.witness (h : D.Joined) (witness_ : ℕ → WitnessState) (ns : List NackCall) :
    ((D.put p { D.stations p with witness_ := witness_ }).broadcast p (ns.map fun n =>
      send_nack_ (Q.config p) n.missing_sender n.missing_target n.seq n.idx)).Joined := by
  refine h.keep fun s t _ => Cluster.leaves_put rfl (fun _ => rfl) (fun _ => rfl)
    (fun _ _ _ => Iff.rfl) rfl rfl (Cluster.air_broadcast rfl fun _ buf hbuf => ?_)
  obtain ⟨n, -, rfl⟩ := List.mem_map.mp hbuf
  exact nack_not_data _ _ _ _ _ _

/-- A fragment reaches the party it is for. -/
theorem Cluster.Joined.data (h : D.Joined) (hD : D.Small) (hst : s ≠ t) {buf : Bytes}
    (hbuf : DataTo t buf) (hair : (s, buf) ∈ D.air) (hsnd : field buf 4 1 = s)
    (witness_ : ℕ → WitnessState) :
    (D.put t { D.stations t with
      bus := { (D.stations t).bus with
        rx_ := handle_data_ (Q.config t) (D.stations t).bus.rx_ buf }
      witness_ := witness_ }).Joined := by
  have hother : ∀ (rx_ : ℕ → RxState) (u : ℕ), u ≠ s →
      handle_data_ (Q.config t) rx_ buf u = rx_ u := by
    intro rx_ u hu
    unfold handle_data_
    dsimp only
    split
    · rfl
    · split
      · rfl
      · split
        · rfl
        · exact Function.update_of_ne (fun e => hu (e.trans hsnd)) _ _
  have hlocal : ∀ rx_ rx_' : ℕ → RxState, rx_ s = rx_' s →
      handle_data_ (Q.config t) rx_ buf s = handle_data_ (Q.config t) rx_' buf s := by
    intro rx_ rx_' he
    unfold handle_data_
    dsimp only
    rw [hsnd]
    split
    · exact he
    · split
      · exact he
      · split
        · exact he
        · rw [Function.update_self, Function.update_self, he]
  refine h.active s t ?_ fun _ L hL hshow => ?_
  · intro u v huv hne
    refine Cluster.leaves_put rfl (fun _ => rfl) ?_ (fun _ _ _ => Iff.rfl) rfl rfl
      (fun _ _ => Iff.rfl)
    rintro rfl
    exact hother _ u fun e => hne (by rw [Fin.ext e])
  · obtain ⟨e, he, rfl⟩ := (hshow.wire buf).mpr ⟨hair, hbuf⟩
    obtain ⟨k, hk⟩ := List.mem_iff_getElem?.mp he
    have hstep : L.step (Q.pipe s t hst) 0 (.data k) = some { L with
        rx_ := handle_data_ (Q.config t) L.rx_ e.frame
        arrived := L.arrived ++ [e] } := Option.map_eq_some_iff.mpr ⟨e, hk, rfl⟩
    refine ⟨_, hL.step hstep (hshow.log ▸ (hD (s, t)).1) (hshow.small hD) (fun hf => hf.elim), ?_⟩
    constructor
    · dsimp only [Cluster.put]
      rw [Function.update_of_ne hst, hshow.tx]
    · dsimp only [Cluster.put]
      rw [Function.update_self]
      exact hlocal _ _ hshow.rx
    · intro c b
      dsimp only [Cluster.put]
      rw [Function.update_of_ne hst]
      exact hshow.call c b
    · exact hshow.log
    · exact hshow.out
    · exact hshow.wire

/-- A NACK reaches the party that has sent the stream. -/
theorem Cluster.Joined.nack (h : D.Joined) (hD : D.Small) (hst : s ≠ t) (seq idx src : ℕ)
    (witness_ : ℕ → WitnessState) {r : (ℕ → TxState) × NackReply}
    (hr : handle_nack_ (Q.config s) (D.stations s).bus.tx_
      (send_nack_ (Q.config p) s t seq idx) src = r) :
    ((D.put s { D.stations s with
      bus := { (D.stations s).bus with tx_ := r.1 }
      witness_ := witness_ }).broadcast s (r.2.frames (Q.config s))).Joined := by
  have hframes : ∀ buf ∈ r.2.frames (Q.config s), field buf 0 4 = KIND_DATA → DataTo t buf := by
    intro buf hbuf hkind
    rw [← hr] at hbuf
    obtain hd | ⟨reason, rfl⟩ := nack_reply hst hbuf
    · exact hd
    · exact absurd ⟨hkind, rfl⟩ (poison_not_data _ _ _ _)
  rw [nack_effect hst] at hr
  by_cases hsrc : src ≠ Q.ip t
  · rw [if_pos hsrc] at hr
    subst hr
    exact h.keep fun s t _ => Cluster.leaves_put rfl (fun _ => rfl) (fun _ => rfl)
      (fun _ _ _ => Iff.rfl) rfl rfl (Cluster.air_broadcast rfl fun _ buf hbuf => absurd hbuf List.not_mem_nil)
  rw [if_neg hsrc] at hr
  refine h.active s t ?_ fun _ L hL hshow => ?_
  · intro u v huv hne
    refine Cluster.leaves_put rfl ?_ (fun _ => rfl) (fun _ _ _ => Iff.rfl) rfl rfl
      (Cluster.air_broadcast rfl ?_)
    · rintro rfl
      have hvt : (v : ℕ) ≠ t := fun e => hne (by rw [Fin.ext e])
      rw [← hr]
      exact Function.update_of_ne hvt _ _
    · rintro rfl buf hbuf hd
      have hvt : (v : ℕ) = t := hd.2.symm.trans (hframes buf hbuf hd.1).2
      exact hne (by rw [Fin.ext hvt])
  · let asked : Link := { L with nackWire := [send_nack_ (Q.config t) s t seq idx] }
    have hask : InStep False (Q.pipe s t hst) asked := by
      refine hL.sending (hL.sender.congr rfl rfl rfl rfl hL.sender.arrived ?_) List.prefix_rfl rfl rfl rfl
      intro b hb
      exact ⟨(seq, idx), List.mem_singleton.mp hb⟩
    have hL' : handle_nack_ (Q.config s) L.tx_ (send_nack_ (Q.config t) s t seq idx) src =
        (Function.update L.tx_ t (r.1 t), r.2) := by
      rw [nack_effect hst, if_neg hsrc, hshow.tx, ← hr]
      dsimp only
      rw [Function.update_self]
    have hstep : asked.step (Q.pipe s t hst) src (.nack 0) =
        some (Link.reply (Q.pipe s t hst)
          { asked with tx_ := Function.update L.tx_ t (r.1 t), nackWire := [] } r.2) := by
      refine Option.map_eq_some_iff.mpr ⟨_, rfl, ?_⟩
      dsimp only [Pipe.s]
      rw [show handle_nack_ (Q.pipe s t hst).S asked.tx_ _ src = _ from hL']
      rfl
    refine ⟨_, hask.step hstep ?_ (hshow.small hD) (fun hf => hf.elim), ?_⟩
    · rw [Link.reply_log]
      exact hshow.log ▸ (hD (s, t)).1
    constructor
    · rw [Link.reply_tx]
      dsimp only [Cluster.broadcast, Cluster.put]
      rw [Function.update_self, Function.update_self]
    · rw [Link.reply_rx]
      dsimp only [Cluster.broadcast, Cluster.put]
      rw [Function.update_of_ne hst.symm]
      exact hshow.rx
    · intro c b
      rw [Link.reply_call]
      dsimp only [Cluster.broadcast, Cluster.put]
      rw [Function.update_self]
      exact hshow.call c b
    · rw [Link.reply_log]
      exact hshow.log
    · rw [Link.reply_out]
      exact hshow.out
    · intro buf
      rw [Link.reply_wire]
      have hwire := hshow.wire buf
      dsimp only [Cluster.broadcast, Cluster.put]
      rw [List.mem_append, or_and_right]
      refine or_congr hwire ⟨?_, ?_⟩
      · rintro ⟨hmem, hkind⟩
        exact ⟨List.mem_map.mpr ⟨buf, hmem, rfl⟩, hframes buf hmem hkind⟩
      · rintro ⟨hmem, hd⟩
        obtain ⟨b, hb, he⟩ := List.mem_map.mp hmem
        obtain rfl : b = buf := congrArg Prod.snd he
        exact ⟨hb, hd.1⟩

/-- A POISON frame marks the pipe from its sender, and nothing else. -/
theorem Cluster.Joined.poison (h : D.Joined) {buf : Bytes} (hsnd : field buf 4 1 = s)
    (witness_ : ℕ → WitnessState) :
    (D.put t { D.stations t with
      bus := { (D.stations t).bus with
        rx_ := handle_poison_ (Q.config t) (D.stations t).bus.rx_ buf }
      witness_ := witness_ }).Joined := by
  have hother : ∀ u : ℕ, u ≠ s →
      handle_poison_ (Q.config t) (D.stations t).bus.rx_ buf u = (D.stations t).bus.rx_ u := by
    intro u hu
    unfold handle_poison_
    dsimp only
    generalize (if field buf 16 4 > MAX_PAYLOAD then 0 else field buf 16 4) = plen
    split
    · rfl
    · split
      · rfl
      · split
        · rfl
        · exact Function.update_of_ne (fun e => hu (e.trans hsnd)) _ _
  refine h.active s t ?_ fun hst L hL hshow => ?_
  · intro u v huv hne
    refine Cluster.leaves_put rfl (fun _ => rfl) ?_ (fun _ _ _ => Iff.rfl) rfl rfl
      (fun _ _ => Iff.rfl)
    rintro rfl
    exact hother u fun e => hne (by rw [Fin.ext e])
  · obtain ⟨m, hm⟩ := handle_poison_same (Q.config t) (D.stations t).bus.rx_ buf s
    refine ⟨{ L with rx_ := Function.update L.rx_ s { L.rx_ s with poisoned := m } },
      hL.marking (hL.sender.congr rfl rfl rfl rfl hL.sender.arrived hL.sender.asked) rfl
        ⟨(L.rx_ s).nack_state, m, Function.update_self ..⟩ rfl rfl, ?_⟩
    constructor
    · dsimp only [Cluster.put]
      rw [Function.update_of_ne hst, hshow.tx]
    · dsimp only [Cluster.put]
      rw [Function.update_self, Function.update_self]
      dsimp only
      rw [hm, hshow.rx]
    · intro c b
      dsimp only [Cluster.put]
      rw [Function.update_of_ne hst]
      exact hshow.call c b
    · exact hshow.log
    · exact hshow.out
    · exact hshow.wire

/-! ## Runs -/

/-- All datagrams are of the parties of the run, nobody sends to itself, and the pipes are in step. -/
structure Cluster.Sound (D : Cluster Q α) : Prop where
  honest : ∀ d ∈ D.air, Honest Q d.1 d.2
  calls : ∀ p t c b, (D.stations p).call = some (t, c, b) → p ≠ t
  joined : D.Joined

theorem Cluster.Joined.honest (h : D.Joined) (hst : s ≠ t) {buf : Bytes} (hair : (s, buf) ∈ D.air)
    (hd : DataTo t buf) : Honest Q s buf := by
  obtain ⟨L, hL, hshow⟩ := h s t hst
  obtain ⟨e, he, rfl⟩ := (hshow.wire buf).mpr ⟨hair, hd⟩
  obtain ⟨data, i, -, -, -, hframe, -⟩ := hL.sender.wire e he
  rw [hframe]
  exact .data t hst e.seq data i

theorem Cluster.Sound.init (P : ℕ → Proc ℕ α) : (Cluster.init Q P).Sound where
  honest := fun d hd => absurd hd List.not_mem_nil
  calls := fun p t c b h => absurd h (Option.some_ne_none _).symm
  joined := by
    intro s t hst
    refine ⟨{}, InStep.init, ⟨rfl, rfl, ?_, rfl, rfl, ?_⟩⟩
    · simp [Cluster.init]
    · simp [Cluster.init]

/-- A step of party `p` that puts honest frames on the medium. -/
theorem Cluster.Sound.put (h : D.Sound) {σ : Station Q α} {bufs : List Bytes}
    (hp : D'.stations = Function.update D.stations p σ)
    (hair : D'.air = D.air ++ bufs.map fun buf => (p, buf))
    (hcall : ∀ t c b, σ.call = some (t, c, b) → p ≠ t) (hbufs : ∀ buf ∈ bufs, Honest Q p buf)
    (hjoin : D'.Joined) : D'.Sound where
  honest := by
    intro d hd
    rw [hair] at hd
    obtain hd | hd := List.mem_append.mp hd
    · exact h.honest d hd
    · obtain ⟨buf, hbuf, rfl⟩ := List.mem_map.mp hd
      exact hbufs buf hbuf
  calls := by
    intro q t c b hq
    rw [hp] at hq
    by_cases hqp : q = p
    · subst hqp
      rw [Function.update_self] at hq
      exact hcall t c b hq
    · rw [Function.update_of_ne hqp] at hq
      exact h.calls q t c b hq
  joined := hjoin

/-- An event that puts nothing on the medium. -/
theorem Cluster.Sound.put_silent (h : D.Sound) {σ : Station Q α}
    (hp : D'.stations = Function.update D.stations p σ) (hair : D'.air = D.air)
    (hcall : ∀ t c b, σ.call = some (t, c, b) → p ≠ t) (hjoin : D'.Joined) : D'.Sound := by
  refine @Cluster.Sound.put _ _ D D' p h σ [] hp ?_ hcall (fun _ hbuf => absurd hbuf List.not_mem_nil) hjoin
  rw [hair, List.map_nil, List.append_nil]

theorem Cluster.Sound.enter (h : D.Sound) (hD : D.Small) (hD' : D'.Small)
    (hs : D.enter p = some D') : D'.Sound := by
  have hjoin := h.joined.enter hD hD' hs
  obtain ⟨hidle, ⟨msg, next, -, rfl⟩ | ⟨t, msg, next, hne, -, -, rfl⟩ | ⟨src, len, next, -, -, rfl⟩ |
    ⟨s, len, next, r, -, -, -, rfl⟩⟩ := Cluster.enter_cases hs
  · exact h.put_silent rfl rfl (h.calls p) hjoin
  · refine h.put_silent rfl rfl ?_ hjoin
    intro u c b hcall
    obtain ⟨rfl, -⟩ := Prod.mk.inj (Option.some.inj hcall)
    exact hne.symm
  · exact h.put_silent rfl rfl (h.calls p) hjoin
  · exact h.put_silent rfl rfl (h.calls p) hjoin

/-- The pump takes a fragment of `q`. -/
theorem Cluster.Sound.dataFrame (h : D.Sound) (hD : D.Small) {q : Fin Q.nP} (hqt : q ≠ t) (seq : ℕ)
    (data : Bytes) (i : ℕ) (hair : (q, (Q.pipe q t hqt).frame seq data i) ∈ D.air)
    (witness_ : ℕ → WitnessState) :
    (D.put p { D.stations p with
      bus := { (D.stations p).bus with
        rx_ := handle_data_ (Q.config p) (D.stations p).bus.rx_
          ((Q.pipe q t hqt).frame seq data i) }
      witness_ := witness_ }).Joined := by
  have hd : DataTo t ((Q.pipe q t hqt).frame seq data i) := (Q.pipe q t hqt).frame_dataTo seq data i
  have hsnd : field ((Q.pipe q t hqt).frame seq data i) 4 1 = q := by
    rw [Pipe.frame_eq, field_sender]
    rfl
  by_cases hp : p = t
  · subst hp
    exact h.joined.data hD hqt hd hair hsnd witness_
  · have hp' : t ≠ p := fun e => hp e.symm
    rw [handle_data_elsewhere _ (.inr fun e => hp' (Fin.ext (hd.2.symm.trans e)))]
    exact h.joined.keep fun s u _ => Cluster.leaves_put rfl (fun _ => rfl) (fun _ => rfl)
      (fun _ _ _ => Iff.rfl) rfl rfl (fun _ _ => Iff.rfl)

/-- The pump takes a NACK of `q`, for the stream from `s` to `t`. -/
theorem Cluster.Sound.nackFrame (h : D.Sound) (hD : D.Small) {q : Fin Q.nP} (hst : s ≠ t)
    (seq idx src : ℕ) (witness_ : ℕ → WitnessState) {r : (ℕ → TxState) × NackReply}
    (hr : handle_nack_ (Q.config p) (D.stations p).bus.tx_
      (send_nack_ (Q.config q) s t seq idx) src = r) :
    ((D.put p { D.stations p with
      bus := { (D.stations p).bus with tx_ := r.1 }
      witness_ := witness_ }).broadcast p (r.2.frames (Q.config p))).Sound := by
  by_cases hp : p = s
  · subst hp
    have hjoin := h.joined.nack hD hst seq idx src witness_ hr
    refine h.put rfl rfl (h.calls p) (fun buf hbuf => ?_) hjoin
    rw [← hr] at hbuf
    obtain hd | ⟨reason, rfl⟩ := nack_reply hst hbuf
    · refine hjoin.honest hst (List.mem_append_right _ ?_) hd
      exact List.mem_map.mpr ⟨buf, hr ▸ hbuf, rfl⟩
    · exact .poison t reason
  · have htgt : field (send_nack_ (Q.config q) s t seq idx) 5 1 = s := by
      rw [send_nack_, field_target]
    have hsp : (s : ℕ) ≠ p := fun e => hp (Fin.ext e.symm)
    rw [handle_nack_elsewhere _ _ (by rw [htgt]; exact hsp)] at hr
    subst hr
    refine h.put rfl rfl (h.calls p) (fun buf hbuf => absurd hbuf List.not_mem_nil) (h.joined.keep fun s u _ =>
      Cluster.leaves_put rfl (fun _ => rfl) (fun _ => rfl) (fun _ _ _ => Iff.rfl) rfl rfl
        (Cluster.air_broadcast rfl fun _ b hb => absurd hb List.not_mem_nil))

/-- The pump of `p` takes a datagram. -/
theorem Cluster.Sound.frame (h : D.Sound) (hD : D.Small) {q : Fin Q.nP} {buf : Bytes}
    (hair : (q, buf) ∈ D.air) (src : ℕ) :
    ((D.put p ((D.stations p).pump (Q.config p) buf src).1).broadcast p
      ((D.stations p).pump (Q.config p) buf src).2).Sound := by
  have hbuf : Honest Q q buf := h.honest _ hair
  have hkind : ∀ kind, field buf 0 4 = kind → pump_taken (Q.config p) buf src = some buf →
      (D.stations p).pump (Q.config p) buf src =
        let r := if kind = KIND_DATA then
            ({ (D.stations p).bus with
              rx_ := handle_data_ (Q.config p) (D.stations p).bus.rx_ buf }, NackReply.silent)
          else if kind = KIND_NACK then
            let r := handle_nack_ (Q.config p) (D.stations p).bus.tx_ buf src
            ({ (D.stations p).bus with tx_ := r.1 }, r.2)
          else if kind = KIND_POISON then
            ({ (D.stations p).bus with
              rx_ := handle_poison_ (Q.config p) (D.stations p).bus.rx_ buf }, NackReply.silent)
          else ((D.stations p).bus, NackReply.silent)
        ({ D.stations p with
          bus := r.1
          witness_ := witness_data_ (Q.config p) (D.stations p).witness_ buf },
          r.2.frames (Q.config p)) := by
    rintro kind rfl htaken
    simp only [Station.pump, htaken, dispatch]
  obtain htaken | htaken := hbuf.taken (Q.config p) src
  · have hpump : (D.stations p).pump (Q.config p) buf src = (D.stations p, []) := by
      simp only [Station.pump, htaken]
    rw [hpump]
    exact h.put_silent rfl (List.append_nil _) (h.calls p) (h.joined.keep fun s t _ =>
      Cluster.leaves_put rfl (fun _ => rfl) (fun _ => rfl) (fun _ _ _ => Iff.rfl) rfl rfl
        (Cluster.air_broadcast rfl fun _ b hb => absurd hb List.not_mem_nil))
  · cases hbuf with
    | data t hqt seq data i =>
      have hd := (Q.pipe q t hqt).frame_dataTo seq data i
      rw [hkind _ hd.1 htaken]
      refine h.put_silent rfl (List.append_nil _) (h.calls p) ?_
      have hjoin := h.dataFrame (p := p) hD hqt seq data i hair
        (witness_data_ (Q.config p) (D.stations p).witness_ ((Q.pipe q t hqt).frame seq data i))
      exact hjoin.keep fun s u _ => ⟨rfl, rfl, fun _ _ => Iff.rfl, rfl, rfl,
        Cluster.air_broadcast rfl fun _ b hb => absurd hb List.not_mem_nil⟩
    | nack s t hst seq idx =>
      have hk : field (send_nack_ (Q.config q) s t seq idx) 0 4 = KIND_NACK := by
        rw [send_nack_, field_kind]
      rw [hkind _ hk htaken]
      exact h.nackFrame hD hst seq idx src _ rfl
    | poison t reason =>
      have hk : field (send_poison_to_target_ (Q.config q) t reason) 0 4 = KIND_POISON := by
        unfold send_poison_to_target_
        dsimp only
        rw [field_kind]
      have hsnd : field (send_poison_to_target_ (Q.config q) t reason) 4 1 = q := by
        unfold send_poison_to_target_
        dsimp only
        rw [field_sender]
        rfl
      rw [hkind _ hk htaken]
      refine h.put_silent rfl (List.append_nil _) (h.calls p) ?_
      have hjoin := h.joined.poison (t := p) hsnd
        (witness_data_ (Q.config p) (D.stations p).witness_
          (send_poison_to_target_ (Q.config q) t reason))
      exact hjoin.keep fun s u _ => ⟨rfl, rfl, fun _ _ => Iff.rfl, rfl, rfl,
        Cluster.air_broadcast rfl fun _ b hb => absurd hb List.not_mem_nil⟩

theorem Cluster.step_retain (hs : D.step addr (p, .retain) = some D') :
    ∃ t c, (D.stations p).call = some (t, c, false) ∧ c.more = true ∧ D' = D.put p
      { (D.stations p).setTx t (send_retain (Q.config p) t ((D.stations p).bus.tx_ t) c) with
        call := some (t, c, true) } := by
  simp only [Cluster.step] at hs
  split at hs
  · next t c hc =>
    split at hs
    · next hmore => exact ⟨t, c, hc, hmore, (Option.some.inj hs).symm⟩
    · cases hs
  · cases hs

theorem Cluster.step_sendto {ok : Bool} (hs : D.step addr (p, .sendto ok) = some D') :
    ∃ t c, (D.stations p).call = some (t, c, true) ∧ D' =
      (D.put p { D.stations p with call := some (t, send_datagram c ok, false) }).broadcast p
        (if ok then [c.buf (Q.config p) t] else []) := by
  simp only [Cluster.step] at hs
  split at hs
  · next t c hc => exact ⟨t, c, hc, (Option.some.inj hs).symm⟩
  · cases hs

theorem Cluster.step_finish (hs : D.step addr (p, .finish) = some D') :
    ∃ t c, (D.stations p).call = some (t, c, false) ∧ c.more = false ∧ D' = D.put p
      { (D.stations p).setTx t (send_end ((D.stations p).bus.tx_ t) c) with call := none } := by
  simp only [Cluster.step] at hs
  split at hs
  · next t c hc =>
    split at hs
    · cases hs
    · next hmore => exact ⟨t, c, hc, Bool.eq_false_iff.mpr hmore, (Option.some.inj hs).symm⟩
  · cases hs

theorem Cluster.step_drain {src now₁ now₂ : ℕ}
    (hs : D.step addr (p, .drain src now₁ now₂) = some D') :
    ∃ (s : Fin Q.nP) (r : RxState × List (ℕ × ℕ)), s ≠ p ∧
      drain_nack_state_ (Q.config p) s now₁ now₂ ((D.stations p).bus.rx_ s) = some r ∧
      D' = (D.put p ((D.stations p).setRx s r.1)).broadcast p
        (r.2.map fun key => send_nack_ (Q.config p) s p key.1 key.2) := by
  simp only [Cluster.step] at hs
  split at hs
  · next hpeer =>
    obtain ⟨r, hr, rfl⟩ := Option.map_eq_some_iff.mp hs
    exact ⟨⟨src, hpeer.1⟩, r, fun e => hpeer.2 (congrArg Fin.val e), hr, rfl⟩
  · cases hs

/-- The numbers a witness asks for are of the stream it looks at. -/
theorem witness_calls {C : Config} {s t : ℕ} {witness_ : ℕ → WitnessState} {n : NackCall}
    (h : n ∈ (witness_drain_ C s t witness_).2) : n.missing_sender = s ∧ n.missing_target = t := by
  unfold witness_drain_ at h
  split at h
  · cases h
  · obtain ⟨x, -, rfl⟩ := List.mem_map.mp h
    exact ⟨rfl, rfl⟩

theorem Cluster.Sound.step (h : D.Sound) (hD : D.Small) (hD' : D'.Small) {ev : StationEvent}
    (hs : D.step addr (p, ev) = some D') : D'.Sound := by
  cases ev with
  | call => exact h.enter hD hD' hs
  | retain =>
    obtain ⟨t, c, hcall, hmore, rfl⟩ := Cluster.step_retain hs
    refine h.put_silent rfl rfl ?_
      (h.joined.retain hD hcall hmore)
    intro u c' b hu
    obtain ⟨rfl, -⟩ := Prod.mk.inj (Option.some.inj hu)
    exact h.calls p t c false hcall
  | sendto ok =>
    obtain ⟨t, c, hcall, rfl⟩ := Cluster.step_sendto hs
    have hpt := h.calls p t c true hcall
    have hjoin := h.joined.sendto hD ok hcall
    refine h.put rfl rfl ?_ ?_ hjoin
    · intro u c' b hu
      obtain ⟨rfl, -⟩ := Prod.mk.inj (Option.some.inj hu)
      exact hpt
    · intro buf hbuf
      cases ok with
      | false => cases hbuf
      | true =>
        obtain rfl := List.mem_singleton.mp hbuf
        refine hjoin.honest hpt (List.mem_append_right _ ?_) ((buf_dataTo _ _ _ _).mpr rfl)
        exact List.mem_singleton.mpr rfl
  | finish =>
    obtain ⟨t, c, hcall, hmore, rfl⟩ := Cluster.step_finish hs
    exact h.put_silent rfl rfl (fun _ _ _ hu => absurd hu (Option.some_ne_none _).symm)
      (h.joined.finish hD hcall hmore)
  | frame k =>
    obtain ⟨d, hd, rfl⟩ := Option.map_eq_some_iff.mp hs
    exact h.frame hD (List.mem_of_getElem? hd) _
  | drain src now₁ now₂ =>
    obtain ⟨s, r, hsp, hr, rfl⟩ := Cluster.step_drain hs
    refine h.put rfl rfl (h.calls p) ?_ (h.joined.drain hD hr)
    intro buf hbuf
    obtain ⟨key, -, rfl⟩ := List.mem_map.mp hbuf
    exact .nack s p hsp key.1 key.2
  | witness src dst =>
    simp only [Cluster.step] at hs
    split at hs
    · next hpeer =>
      obtain rfl := Option.some.inj hs
      refine h.put rfl rfl (h.calls p) ?_ (h.joined.witness _ _)
      intro buf hbuf
      obtain ⟨n, hn, rfl⟩ := List.mem_map.mp hbuf
      obtain ⟨hsnd, htgt⟩ := witness_calls hn
      rw [hsnd, htgt]
      exact .nack ⟨src, hpeer.1⟩ ⟨dst, hpeer.2.1⟩ (fun e => hpeer.2.2.2.2 (congrArg Fin.val e)) n.seq n.idx
    · cases hs

theorem Cluster.log_le {ev : StationEvent} (hs : D.step addr (p, ev) = some D')
    (st : Fin Q.nP × Fin Q.nP) : D.log st <+: D'.log st := by
  cases ev with
  | call =>
    obtain ⟨-, ⟨msg, next, -, rfl⟩ | ⟨t, msg, next, -, -, -, rfl⟩ | ⟨src, len, next, -, -, rfl⟩ |
      ⟨s, len, next, r, -, -, -, rfl⟩⟩ := Cluster.enter_cases hs
    · exact List.prefix_rfl
    · dsimp only
      by_cases he : st = (p, t)
      · subst he
        rw [Function.update_self]
        exact List.prefix_append _ _
      · rw [Function.update_of_ne he]
    · exact List.prefix_rfl
    · exact List.prefix_rfl
  | retain =>
    obtain ⟨t, c, -, -, rfl⟩ := Cluster.step_retain hs
    exact List.prefix_rfl
  | sendto ok =>
    obtain ⟨t, c, -, rfl⟩ := Cluster.step_sendto hs
    exact List.prefix_rfl
  | finish =>
    obtain ⟨t, c, -, -, rfl⟩ := Cluster.step_finish hs
    exact List.prefix_rfl
  | frame k =>
    obtain ⟨d, -, rfl⟩ := Option.map_eq_some_iff.mp hs
    exact List.prefix_rfl
  | drain src now₁ now₂ =>
    obtain ⟨s, r, -, -, rfl⟩ := Cluster.step_drain hs
    exact List.prefix_rfl
  | witness src dst =>
    simp only [Cluster.step] at hs
    split at hs
    · obtain rfl := Option.some.inj hs
      exact List.prefix_rfl
    · cases hs

theorem Cluster.Small.before {ev : StationEvent} (hD' : D'.Small)
    (hs : D.step addr (p, ev) = some D') : D.Small := fun st =>
  ⟨(Cluster.log_le hs st).length_le.trans_lt (hD' st).1,
    fun data hd => (hD' st).2 data ((Cluster.log_le hs st).subset hd)⟩

theorem Cluster.Sound.run {P : ℕ → Proc ℕ α} (h : D.Reached addr P) (hD : D.Small) : D.Sound := by
  have hI : D.Small → D.Sound := by
    apply Runs.invariant (I := fun D : Cluster Q α => D.Small → D.Sound) h
    · exact fun _ => Cluster.Sound.init P
    · intro D₁ ev D₂ ih _ hs hsmall
      have hsmall₁ := hsmall.before hs
      exact (ih hsmall₁).step hsmall₁ hsmall hs
  exact hI hD

/-! ## What is read -/

theorem flatMap_msg (L : Link) {n : ℕ} (hn : n ≤ L.log.length) :
    (List.range n).flatMap L.msg = (L.log.take n).flatten := by
  induction n with
  | zero => rfl
  | succ n ih =>
    have hlt : n < L.log.length := hn
    have hmsg : L.msg n = L.log[n] := List.getD_eq_getElem _ _ hlt
    rw [List.range_succ, List.flatMap_append, ih hlt.le, List.take_succ_eq_append_getElem hlt,
      List.flatten_append, List.flatMap_singleton, List.flatten_singleton, hmsg]

/-- What has been read of a pipe, and what can be read, is the beginning of what has been sent. -/
theorem Cluster.Sound.stream (h : D.Sound) (hst : s ≠ t) :
    D.out (s, t) ++ unread ((D.stations t).bus.rx_ s) <+: (D.log (s, t)).flatten := by
  obtain ⟨L, hL, hshow⟩ := h.joined s t hst
  have hstream : L.out ++ unread (L.rx_ s) = (L.log.take (L.rx_ s).next_rx_seq).flatten :=
    hL.stream.trans (flatMap_msg L hL.reasm.next_le)
  rw [hshow.out, hshow.rx, hshow.log] at hstream
  rw [hstream]
  refine ⟨((D.log (s, t)).drop ((D.stations t).bus.rx_ s).next_rx_seq).flatten, ?_⟩
  rw [← List.flatten_append, List.take_append_drop]

/-- A `recv` returns the next bytes. -/
theorem Cluster.Sound.recv (h : D.Sound) (hst : s ≠ t) {len : ℕ} {r : Bytes × RxState}
    (hr : Io.recv ((D.stations t).bus.rx_ s) len = some r) :
    len ≤ (unread ((D.stations t).bus.rx_ s)).length ∧
      r.1 = (unread ((D.stations t).bus.rx_ s)).take len := by
  obtain ⟨L, hL, hshow⟩ := h.joined s t hst
  have hbytes : (L.rx_ s).rx_bytes = (unread (L.rx_ s)).length := hL.rx_bytes
  have hoff : ∀ c ∈ (L.rx_ s).rx, c.offset ≤ c.bytes.length := hL.offsets
  rw [hshow.rx] at hbytes hoff
  obtain ⟨hready, q, hq, rfl⟩ := recv_inv hr
  have hlen : len ≤ (unread ((D.stations t).bus.rx_ s)).length := hbytes ▸ hready
  obtain ⟨rx', h1, -, -⟩ := take_rx_spec hoff hlen
  rw [h1] at hq
  obtain rfl := Option.some.inj hq
  exact ⟨hlen, rfl⟩

end Pipes
end QSync.Io
