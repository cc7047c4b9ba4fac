import QSync.Io.GapDetection
import QSync.Io.NackRace
import QSync.Io.Retention

/-! # A network that loses at most one datagram

DATA datagrams are delivered once and in order, but that one of them may be dropped; NACK frames are
delivered once and in order. The histories follow what the sender keeps (`Channel.Follows`) and what
the receiver has asked for: `Channel.Accounts` says that each NACK is answered, so that a fragment asked
for often enough arrives.
-/

namespace QSync.Io
open QSync.Network
set_option autoImplicit false
set_option maxHeartbeats 250000

/-- A pipe over this network. The histories `queued`, `asked_at`, `asking` and `early` are not read by
any step. -/
structure Channel where
  link : Link := {}
  /-- How many DATA datagrams have left the network, delivered or dropped. -/
  served : ℕ := 0
  lost : Bool := false
  /-- How many POISON frames have been delivered. -/
  told : ℕ := 0
  /-- The streams in the order they joined `tx_buf_order`. -/
  queued : List ℕ := []
  /-- When a fragment was last asked for. -/
  asked_at : ℕ × ℕ → ℕ := fun _ => 0
  /-- The fragments that the NACKs in flight ask for. -/
  asking : List (ℕ × ℕ) := []
  /-- How many NACKs for a fragment got to the sender before it had reached the fragment. -/
  early : ℕ × ℕ → ℕ := fun _ => 0

inductive ChannelEvent
  | send (data : Bytes)
  | retain
  | sendto (ok : Bool)
  | finish
  | recv (len : ℕ)
  | drain (now₁ now₂ : ℕ)
  | deliver
  | drop
  | nack
  | poison

/-- The stream that joins the FIFO when the next record is kept. -/
def Link.joining (L : Link) : List ℕ :=
  match L.call with
  | some (c, false) => if c.i = 0 then [c.seq] else []
  | _ => []

/-- The call of `send` for message `n` has returned. -/
def Link.Finished (L : Link) (n : ℕ) : Prop :=
  n < L.log.length ∧ L.call.map (fun c => c.1.seq) ≠ some n

/-- The call of `send` has not come to the fragment: it is not on record, and the call has not
returned. -/
def Link.Unreached (P : Pipe) (L : Link) (key : ℕ × ℕ) : Prop :=
  (L.tx_ P.t).tx_buf key = none ∧ ¬ L.Finished key.1

instance (P : Pipe) (L : Link) (key : ℕ × ℕ) : Decidable (L.Unreached P key) :=
  inferInstanceAs (Decidable (_ = none ∧ ¬ (_ ∧ _)))

/-- One event. Frames come from the address the sender has for its target. -/
def Channel.step (P : Pipe) (c : Channel) (ev : ChannelEvent) : Option Channel :=
  let go := Link.step P (P.S.ip_table_ P.t) c.link
  match ev with
  | .send data => (go (.send data)).map fun L => { c with link := L }
  | .retain => (go .retain).map fun L => { c with link := L, queued := c.queued ++ c.link.joining }
  | .sendto ok => (go (.sendto ok)).map fun L => { c with link := L }
  | .finish => (go .finish).map fun L => { c with link := L }
  | .recv len => (go (.recv len)).map fun L => { c with link := L }
  | .drain now₁ now₂ => (go (.drain now₁ now₂)).map fun L =>
    { c with
      link := L
      asked_at := fun key =>
        if key ∈ L.nacks.drop c.link.nacks.length then now₂ else c.asked_at key
      asking := c.asking ++ L.nacks.drop c.link.nacks.length }
  | .deliver => (go (.data c.served)).map fun L => { c with link := L, served := c.served + 1 }
  | .drop =>
    if c.lost ∨ c.link.wire.length ≤ c.served then none
    else some { c with served := c.served + 1, lost := true }
  | .nack => (go (.nack 0)).map fun L =>
    { c with
      link := L
      asking := c.asking.tail
      early := fun key =>
        if c.asking.head? = some key ∧ c.link.Unreached P key then c.early key + 1 else c.early key }
  | .poison => (go (.poison c.told)).map fun L => { c with link := L, told := c.told + 1 }

def Emission.Carries (e : Emission) (key : ℕ × ℕ) : Prop := e.seq = key.1 ∧ e.i % 2 ^ 16 = key.2

instance (e : Emission) (key : ℕ × ℕ) : Decidable (e.Carries key) :=
  inferInstanceAs (Decidable (_ ∧ _))

/-! ## A tick that finds nothing late -/

section Tick
variable {C : Config} {sender now : ℕ} {rs : RxState}

theorem scan_calm {keys : List (ℕ × ℕ)} {acc : NackScan} (hnodup : keys.Nodup)
    (h : ∀ key ∈ keys, ∀ r, acc.nack_state.lookup key = some r → satisfied rs key = false →
      C.retx_k_recv_ ≤ r.attempts →
      r.last_nack_ns ≠ 0 ∧ (now + 2 ^ 64 - r.last_nack_ns) % 2 ^ 64 < C.cycle_ns_)
    (hacc : acc.poison_reason = none) :
    (keys.foldl (scan_record C sender rs now) acc).poison_reason = none := by
  induction keys generalizing acc with
  | nil => exact hacc
  | cons k keys ih =>
    obtain ⟨hk, hnodup⟩ := List.nodup_cons.mp hnodup
    rw [List.foldl_cons]
    have hhead : (scan_record C sender rs now acc k).poison_reason = none ∧
        ∀ key ≠ k, (scan_record C sender rs now acc k).nack_state.lookup key =
          acc.nack_state.lookup key := by
      unfold scan_record
      rw [hacc, if_neg (by simp)]
      cases hlook : acc.nack_state.lookup k with
      | none => exact ⟨hacc, fun _ _ => rfl⟩
      | some r =>
        dsimp only
        split
        · exact ⟨rfl, fun key hne => AList.lookup_erase_ne hne⟩
        · next hsat =>
          split
          · next hdue =>
            split
            · next hout =>
              obtain ⟨h0, hlt⟩ := h k (List.mem_cons_self ..) r hlook
                (Bool.eq_false_iff.mpr hsat) hout
              omega
            · exact ⟨rfl, fun key hne => AList.lookup_insert_ne hne⟩
          · exact ⟨hacc, fun _ _ => rfl⟩
    refine ih hnodup (fun key hkey r hr => ?_) hhead.1
    have hne : key ≠ k := fun he => hk (he ▸ hkey)
    rw [hhead.2 key hne] at hr
    exact h key (List.mem_cons_of_mem _ hkey) r hr

/-- The records agree with how often and when each fragment was asked for. -/
def Noted (cnt at_ : ℕ × ℕ → ℕ) (ns : AList (fun _ : ℕ × ℕ => NackRec)) : Prop :=
  ∀ key r, ns.lookup key = some r →
    r.attempts ≤ cnt key ∧ (0 < r.attempts → r.last_nack_ns = at_ key)

variable {cnt at_ : ℕ × ℕ → ℕ} {ns : AList (fun _ : ℕ × ℕ => NackRec)}

theorem Noted.note_missing (h : Noted cnt at_ ns) (key : ℕ × ℕ) :
    Noted cnt at_ (note_missing now ns key) := by
  unfold Io.note_missing
  split
  · exact h
  · intro key' r hr
    by_cases hk : key' = key
    · rw [hk, AList.lookup_insert] at hr
      obtain rfl := Option.some.inj hr
      exact ⟨Nat.zero_le _, fun hpos => absurd hpos (lt_irrefl 0)⟩
    · rw [AList.lookup_insert_ne hk] at hr
      exact h key' r hr

theorem Noted.foldl_note_missing (h : Noted cnt at_ ns) (keys : List (ℕ × ℕ)) :
    Noted cnt at_ (keys.foldl (Io.note_missing now) ns) := by
  induction keys generalizing ns with
  | nil => exact h
  | cons key keys ih => exact ih (h.note_missing key)

theorem Noted.erase (h : Noted cnt at_ ns) (key : ℕ × ℕ) : Noted cnt at_ (ns.erase key) := by
  intro key' r hr
  by_cases hk : key' = key
  · rw [hk, AList.lookup_erase] at hr
    cases hr
  · rw [AList.lookup_erase_ne hk] at hr
    exact h key' r hr

theorem Noted.scan {keys : List (ℕ × ℕ)} {acc : NackScan}
    (h : Noted (fun key => cnt key + acc.due.count key)
      (fun key => if key ∈ acc.due then now else at_ key) acc.nack_state) :
    Noted (fun key => cnt key + (keys.foldl (scan_record C sender rs now) acc).due.count key)
      (fun key => if key ∈ (keys.foldl (scan_record C sender rs now) acc).due then now else at_ key)
      (keys.foldl (scan_record C sender rs now) acc).nack_state := by
  induction keys generalizing acc with
  | nil => exact h
  | cons k keys ih =>
    rw [List.foldl_cons]
    apply ih
    rcases @scan_record_cases C sender now rs acc k with
      he | ⟨-, he⟩ | ⟨m, he⟩ | ⟨r, hlook, -, -, he⟩
    · rw [he]
      exact h
    · rw [he]
      exact h.erase k
    · rw [he]
      exact h
    · rw [he]
      intro key r' hr'
      dsimp only at hr' ⊢
      rw [List.count_append, List.count_singleton]
      by_cases hk : key = k
      · subst hk
        rw [AList.lookup_insert] at hr'
        obtain rfl := Option.some.inj hr'
        have hle := (h key r hlook).1
        rw [if_pos (BEq.rfl), if_pos (by simp)]
        exact ⟨by dsimp only at hle ⊢; omega, fun _ => rfl⟩
      · rw [AList.lookup_insert_ne hk] at hr'
        obtain ⟨hle, htime⟩ := h key r' hr'
        refine ⟨by dsimp only at hle; omega, fun hpos => ?_⟩
        rw [htime hpos]
        simp only [List.mem_append, List.mem_singleton, hk, or_false]

/-- A tick gives the pipe up only for a record that is overdue and out of attempts. -/
theorem drain_calm {now₁ : ℕ} {r : RxState × List (ℕ × ℕ)}
    (hr : drain_nack_state_ C sender now₁ now rs = some r) (hpoison : rs.poisoned = none)
    (hn : Noted cnt at_ rs.nack_state)
    (hlate : ∀ key ∈ r.1.nack_state, C.retx_k_recv_ ≤ cnt key →
      at_ key ≠ 0 ∧ (now + 2 ^ 64 - at_ key) % 2 ^ 64 < C.cycle_ns_)
    (hk : 0 < C.retx_k_recv_) :
    r.1.poisoned = none ∧ Noted (fun key => cnt key + r.2.count key)
      (fun key => if key ∈ r.2 then now else at_ key) r.1.nack_state := by
  unfold drain_nack_state_ at hr
  rw [hpoison, if_neg (by simp)] at hr
  obtain ⟨rs', hrs', rfl⟩ := Option.map_eq_some_iff.mp hr
  dsimp only at hlate ⊢
  have hn' : Noted cnt at_ rs'.nack_state := by
    obtain ⟨ns, rfl, hoff, hon⟩ := compute_missing_cases hrs'
    cases hany : rs.any_seen with
    | false => rw [hoff hany]; exact hn
    | true => rw [hon hany]; exact hn.foldl_note_missing _
  refine ⟨scan_calm ?_ ?_ rfl, Noted.scan ?_⟩
  · exact (List.perm_insertionSort _ _).nodup_iff.mpr (AList.keys_nodup _)
  · intro key _ rcd hrcd hsat hout
    obtain ⟨hle, htime⟩ := hn' key rcd hrcd
    have hmem : key ∈ rs'.nack_state := AList.lookup_isSome.mp (by rw [hrcd]; rfl)
    rw [htime (hk.trans_le hout)]
    exact hlate key ((scan_keeps _ _ key).2.1 hmem hsat) (hout.trans hle)
  · simpa using hn'

end Tick

theorem Link.Finished.idle {L : Link} {n : ℕ} (h : L.Finished n) {d : SendCall} {b : Bool}
    (hc : L.call = some (d, b)) : d.seq ≠ n := by
  intro he
  apply h.2
  rw [hc, Option.map_some, he]

/-- What a NACK may name: a first fragment, or one below the total in the frames of its stream. -/
def Link.Named (L : Link) (key : ℕ × ℕ) : Prop := key.2 = 0 ∨ key.2 < L.tot16 key.1

theorem Link.Named.mono {L L' : Link} {key : ℕ × ℕ} (h : L.Named key) (hlog : L.log <+: L'.log) :
    L'.Named key := by
  obtain hlt | hge := Nat.lt_or_ge key.1 L.log.length
  · unfold Link.Named Link.tot16
    rw [msg_of_le hlog hlt]
    exact h
  · -- a stream not started counts as one fragment
    refine .inl (h.elim id fun hlt => ?_)
    have hone : L.tot16 key.1 = 1 := by
      unfold Link.tot16 Link.msg
      rw [List.getD_eq_default _ _ hge]
      rfl
    omega

theorem Link.Named.idx_lt {L : Link} {key : ℕ × ℕ} (h : L.Named key) : key.2 < 2 ^ 16 := by
  obtain h0 | hlt := h
  · rw [h0]
    decide
  · exact hlt.trans (Nat.mod_lt _ (by decide))

theorem Disciplined.names {P : Pipe} {L : Link} (h : Disciplined P L) {now₁ now₂ : ℕ}
    {r : RxState × List (ℕ × ℕ)}
    (hr : drain_nack_state_ P.T P.s now₁ now₂ (L.rx_ P.s) = some r)
    (hn : ∀ key ∈ (L.rx_ P.s).nack_state, L.Named key) :
    ∀ key, key ∈ r.1.nack_state ∨ key ∈ r.2 → L.Named key := by
  unfold drain_nack_state_ at hr
  split at hr
  · obtain rfl := Option.some.inj hr
    rintro key (hkey | hkey)
    · exact hn key hkey
    · cases hkey
  · obtain ⟨rs', hrs', rfl⟩ := Option.map_eq_some_iff.mp hr
    have hnamed : ∀ key ∈ rs'.nack_state, L.Named key := by
      intro key hkey
      cases hany : (L.rx_ P.s).any_seen with
      | false =>
        obtain ⟨ns, rfl, hoff, -⟩ := compute_missing_cases hrs'
        dsimp only at hkey
        rw [hoff hany] at hkey
        exact hn key hkey
      | true =>
        obtain hk | ⟨-, -, hk⟩ := (scan_streams hrs' hany).mp hkey
        · exact hn key hk
        · obtain ⟨-, h0⟩ | ⟨p, hp, hlt, -⟩ := (mem_missing_of.mp hk).2
          · exact .inl h0
          · rw [(h.held.width _ p hp).1] at hlt
            exact .inr hlt
    rintro key (hkey | hkey)
    · exact hnamed key ((scan_keeps _ _ key).1 hkey)
    · exact hnamed key (((scan_keeps _ _ key).2.2 hkey).resolve_left List.not_mem_nil)

/-! ## What the sender still has -/

section Fifo
variable {α : Type} {a x : α} {l m : List α} {n : ℕ}

theorem mem_rdrop_append (h : a ∈ m.rdrop n) : a ∈ (l ++ m).rdrop n := by
  have hn : n ≤ m.length := by
    by_contra hlt
    rw [List.rdrop, Nat.sub_eq_zero_of_le (by omega)] at h
    cases h
  unfold List.rdrop at h ⊢
  rw [List.length_append, Nat.add_sub_assoc hn, List.take_length_add_append]
  exact List.mem_append_right _ h

theorem mem_rdrop_concat (h : a ∈ l.rdrop n) : a ∈ (l ++ [x]).rdrop n := by
  unfold List.rdrop at h ⊢
  rw [List.length_append, List.take_append]
  refine List.mem_append_left _ ((List.take_sublist_take_left ?_).subset h)
  omega

end Fifo

/-- The send state of the channel as `Sending` sees it, and what has left the FIFO. -/
structure Channel.Follows (P : Pipe) (c : Channel) (S : Sending) : Prop where
  stored : S.Stored P.S P.t
  ts : S.ts = c.link.tx_ P.t
  call : S.call = c.link.call
  message : ∀ n, S.message n = c.link.log[n]?
  order : (c.link.tx_ P.t).tx_buf_order = c.queued.rtake TX_BUF_CAP_STREAMS
  evicted : ∀ key, S.evicted key = true → key.1 ∈ c.queued.rdrop TX_BUF_CAP_STREAMS
  queued : ∀ n ∈ c.queued, ∃ data, c.link.log[n]? = some data ∧ 0 < total data.length

section Follows
variable {P : Pipe} {addr : ℕ} {c : Channel} {S : Sending} {L' : Link}

theorem Channel.Follows.congr {c' : Channel} (h : c.Follows P S)
    (htx : c'.link.tx_ P.t = c.link.tx_ P.t) (hcall : c'.link.call = c.link.call)
    (hlog : c'.link.log = c.link.log) (hq : c'.queued = c.queued) : c'.Follows P S where
  stored := h.stored
  ts := h.ts.trans htx.symm
  call := h.call.trans hcall.symm
  message := by
    rw [hlog]
    exact h.message
  order := by
    rw [htx, hq]
    exact h.order
  evicted := by
    rw [hq]
    exact h.evicted
  queued := by
    rw [hq, hlog]
    exact h.queued

theorem Channel.Follows.init : Channel.Follows P {} {} where
  stored := .init
  ts := rfl
  call := rfl
  message := fun _ => rfl
  order := rfl
  evicted := by simp
  queued := by simp

theorem Channel.Follows.send (h : c.Follows P S) (hsend : Sender P c.link) {data : Bytes}
    (hs : c.link.step P addr (.send data) = some L') :
    ∃ S', Channel.Follows P { c with link := L' } S' := by
  obtain ⟨hcall, -, rfl⟩ := Link.step_send hs
  have hidle : S.call = none := h.call.trans hcall
  have hstep : ∃ S', S.step P.S P.t (.start data) = some S' ∧ S'.ts = (send_start S.ts data).1 ∧
      S'.call = some ((send_start S.ts data).2, false) ∧
      S'.message = Function.update S.message S.ts.local_seq (some data) ∧
      ∀ key, S'.evicted key = true → S.evicted key = true := by
    simp only [Sending.step, hidle]
    exact ⟨_, rfl, rfl, rfl, rfl, fun key hkey => (Bool.and_eq_true_iff.mp hkey).2⟩
  obtain ⟨S', hS', hts, hc', hmsg, hev⟩ := hstep
  have hlift : ∀ (n : ℕ) (d : Bytes), c.link.log[n]? = some d →
      (c.link.log ++ [data])[n]? = some d := by
    intro n d hd
    rw [List.getElem?_append_left (List.getElem?_eq_some_iff.mp hd).1]
    exact hd
  refine ⟨S', h.stored.step hS', ?_, ?_, ?_, ?_, ?_, ?_⟩
  · rw [hts, h.ts]
    dsimp only
    rw [Function.update_self]
  · rw [hc', h.ts]
  · intro n
    rw [hmsg, h.ts, hsend.local_seq]
    by_cases hn : n = c.link.log.length
    · rw [hn, Function.update_self, List.getElem?_concat_length]
    · rw [Function.update_of_ne hn, h.message]
      obtain hlt | hge := Nat.lt_or_ge n c.link.log.length
      · rw [List.getElem?_append_left hlt]
      · rw [List.getElem?_eq_none hge, List.getElem?_eq_none]
        rw [List.length_append, List.length_singleton]
        omega
  · dsimp only
    rw [Function.update_self]
    exact h.order
  · exact fun key hkey => h.evicted key (hev key hkey)
  · intro n hn
    obtain ⟨d, hd, hpos⟩ := h.queued n hn
    exact ⟨d, hlift n d hd, hpos⟩

/-- With the first fragment the stream joins the FIFO and the oldest one may leave; with a later one
nothing leaves. -/
theorem send_retain_fifo (C : Config) (dst : ℕ) {ts : TxState} (d : SendCall) {queued : List ℕ}
    (horder : ts.tx_buf_order = queued.rtake TX_BUF_CAP_STREAMS) :
    (send_retain C dst ts d).tx_buf_order =
        (queued ++ if d.i = 0 then [d.seq] else []).rtake TX_BUF_CAP_STREAMS ∧
      ∀ key, (Function.update ts.tx_buf (d.seq, d.idx) (some (d.record C dst)) key).isSome →
        (send_retain C dst ts d).tx_buf key = none →
        key.1 ∈ (queued ++ if d.i = 0 then [d.seq] else []).rdrop TX_BUF_CAP_STREAMS := by
  unfold send_retain
  dsimp only
  by_cases hi : d.i = 0
  · rw [if_pos hi, if_pos hi]
    dsimp only
    rw [evict_order, horder, ← rtake_concat _ _ (by decide)]
    refine ⟨rfl, fun key hin hout => ?_⟩
    rw [evict_buf] at hout
    split at hout
    · next hmem =>
      have hsplit := rdrop_append_rtake queued TX_BUF_CAP_STREAMS
      rw [← hsplit, List.append_assoc]
      exact mem_rdrop_append hmem
    · rw [hout] at hin
      cases hin
  · rw [if_neg hi, if_neg hi, List.append_nil]
    refine ⟨horder, fun key hin hout => ?_⟩
    dsimp only at hout
    rw [hout] at hin
    cases hin

theorem Channel.Follows.retain (h : c.Follows P S)
    (hs : c.link.step P addr .retain = some L') :
    ∃ S', Channel.Follows P { c with link := L', queued := c.queued ++ c.link.joining } S' := by
  obtain ⟨d, hcall, hmore, rfl⟩ := Link.step_retain hs
  have hScall : S.call = some (d, false) := h.call.trans hcall
  obtain ⟨data, i, hat, hmsg, -⟩ := h.stored.call d false hScall
  have hretain : ∃ S', S.step P.S P.t .retain = some S' ∧ Sending.Retains P.S P.t d S S' :=
    Sending.exists_retain hScall hmore
  obtain ⟨S', hS', hr⟩ := hretain
  have hjoining : c.link.joining = if d.i = 0 then [d.seq] else [] := by
    unfold Link.joining
    rw [hcall]
  have horder : S.ts.tx_buf_order = c.queued.rtake TX_BUF_CAP_STREAMS := by
    rw [h.ts]
    exact h.order
  have hfifo := send_retain_fifo P.S P.t d horder
  rw [← hjoining] at hfifo
  refine ⟨S', h.stored.step hS', ?_, hr.call', ?_, ?_, ?_, ?_⟩
  · rw [hr.ts, h.ts]
    dsimp only
    rw [Function.update_self]
  · rw [hr.message]
    exact h.message
  · dsimp only
    rw [Function.update_self, ← h.ts]
    exact hfifo.1
  · intro key hkey
    obtain hold | ⟨hin, hout⟩ := (hr.evicted key).mp hkey
    · have hmem := h.evicted key hold
      dsimp only
      rw [hjoining]
      split
      · exact mem_rdrop_concat hmem
      · rw [List.append_nil]
        exact hmem
    · exact hfifo.2 key hin hout
  · intro n hn
    obtain hn | hn := List.mem_append.mp hn
    · exact h.queued n hn
    · rw [hjoining] at hn
      split at hn
      · obtain rfl := List.mem_singleton.mp hn
        refine ⟨data, by rw [← hmsg]; exact (h.message _).symm, ?_⟩
        have hlt : d.i < total d.data.length := of_decide_eq_true hmore
        have hdata : d.data = data := by rw [hat]; rfl
        rw [hdata] at hlt
        exact Nat.zero_lt_of_lt hlt
      · cases hn

theorem Channel.Follows.sendto (h : c.Follows P S) {ok : Bool}
    (hs : c.link.step P addr (.sendto ok) = some L') :
    ∃ S', Channel.Follows P { c with link := L' } S' := by
  obtain ⟨d, hcall, rfl⟩ := Link.step_sendto hs
  have hstep : S.step P.S P.t (.sendto ok) =
      some { S with call := some (send_datagram d ok, false) } := by
    simp only [Sending.step, h.call.trans hcall]
  exact ⟨_, h.stored.step hstep, h.ts, rfl, h.message, h.order, h.evicted, h.queued⟩

theorem Channel.Follows.finish (h : c.Follows P S)
    (hs : c.link.step P addr .finish = some L') :
    ∃ S', Channel.Follows P { c with link := L' } S' := by
  obtain ⟨d, hcall, hmore, rfl⟩ := Link.step_finish hs
  have hstep : S.step P.S P.t .finish =
      some { S with ts := send_end S.ts d, call := none } := by
    simp only [Sending.step, h.call.trans hcall, hmore]
    rfl
  refine ⟨_, h.stored.step hstep, ?_, rfl, h.message, ?_, h.evicted, h.queued⟩
  · dsimp only
    rw [Function.update_self, h.ts]
  · dsimp only
    rw [Function.update_self]
    exact h.order

theorem handle_nack_gives_up (C : Config) (target : ℕ) (ts : TxState) (seq idx : ℕ)
    (h0 : ts.poisoned = none) :
    (ts.handle_nack C target seq idx).1.tx_buf_order = ts.tx_buf_order ∧
    ((ts.handle_nack C target seq idx).1.poisoned = none ∧
        ((ts.handle_nack C target seq idx).2 = .silent ∧ ts.tx_buf (seq, idx) = none ∧
            (ts.local_seq ≤ seq ∨ seq ∈ ts.streams_in_flight) ∨
          ∃ rcd, (ts.handle_nack C target seq idx).2 = .resend target seq idx rcd) ∨
      (ts.handle_nack C target seq idx).2 = .poison target (.exceeded target seq idx) ∨
      ts.tx_buf (seq, idx) = none ∧ seq < ts.local_seq ∧ seq ∉ ts.streams_in_flight) := by
  unfold TxState.handle_nack
  rw [h0, if_neg (by simp)]
  cases hb : ts.tx_buf (seq, idx) with
  | some rcd =>
    dsimp only
    split
    · exact ⟨rfl, .inr (.inl rfl)⟩
    · exact ⟨rfl, .inl ⟨rfl, .inr ⟨_, rfl⟩⟩⟩
  | none =>
    dsimp only
    split
    · next hyet => exact ⟨rfl, .inl ⟨h0, .inl ⟨rfl, rfl, hyet⟩⟩⟩
    · next hyet =>
      rw [not_or] at hyet
      exact ⟨rfl, .inr (.inr ⟨rfl, Nat.lt_of_not_ge hyet.1, hyet.2⟩)⟩

theorem Channel.Follows.nack (h : c.Follows P S) (h0 : (c.link.tx_ P.t).poisoned = none)
    (seq idx : ℕ) {c' : Channel}
    (htx : c'.link.tx_ P.t = ((c.link.tx_ P.t).handle_nack P.S P.t seq idx).1)
    (hcall : c'.link.call = c.link.call) (hlog : c'.link.log = c.link.log)
    (hq : c'.queued = c.queued) : ∃ S', c'.Follows P S' := by
  have hstep : S.step P.S P.t (.nack seq idx) =
      some { S with ts := (S.ts.handle_nack P.S P.t seq idx).1 } := rfl
  have horder := (handle_nack_gives_up P.S P.t (c.link.tx_ P.t) seq idx h0).1
  refine ⟨_, h.stored.step hstep, ?_, ?_, ?_, ?_, ?_, ?_⟩
  · dsimp only
    rw [htx, h.ts]
  · exact h.call.trans hcall.symm
  · rw [hlog]
    exact h.message
  · rw [htx, horder, hq]
    exact h.order
  · rw [hq]
    exact h.evicted
  · rw [hq, hlog]
    exact h.queued

/-- A fragment of a finished message that is not on record has left the FIFO with its stream. -/
theorem Channel.Follows.gone (h : c.Follows P S) {key : ℕ × ℕ} {data : Bytes}
    (hdata : c.link.log[key.1]? = some data) (hname : c.link.Named key)
    (hnone : (c.link.tx_ P.t).tx_buf key = none)
    (hfin : c.link.Finished key.1) (hq : key.1 ∈ c.queued) :
    key.1 ∈ c.queued.rdrop TX_BUF_CAP_STREAMS := by
  obtain ⟨data', hdata', hpos⟩ := h.queued key.1 hq
  obtain rfl : data = data' := Option.some.inj (hdata.symm.trans hdata')
  have htot : c.link.tot16 key.1 = total data.length % 2 ^ 16 := by
    unfold Link.tot16 Link.msg
    rw [List.getD_eq_getElem?_getD, hdata, Option.getD_some]
  have hlt : key.2 < total data.length ∧ key.2 % 2 ^ 16 = key.2 := by
    obtain h0 | hlt := hname
    · rw [h0]
      exact ⟨hpos, rfl⟩
    · omega
  have hacc := h.stored.past key.1 data ((h.message _).trans hdata)
    (fun d b hc => hfin.idle (h.call.symm.trans hc)) key.2 hlt.1
  rw [hlt.2] at hacc
  obtain hbuf | hev := hacc
  · rw [h.ts] at hbuf
    exact absurd hnone hbuf
  · exact h.evicted key hev

end Follows

/-! ## What was asked for is answered -/

/-- Every message is in the FIFO's history, but the one whose first fragment is not on record yet. -/
def Channel.Joined (c : Channel) : Prop :=
  ∀ n < c.link.log.length, n ∈ c.queued ∨ ∃ d, c.link.call = some (d, false) ∧ d.seq = n ∧ d.i = 0

/-- Each NACK of a fragment is in flight, came too early, or was answered by a datagram; and of what
has left the network only one datagram was lost. -/
structure Channel.Accounts (P : Pipe) (c : Channel) : Prop where
  asking : c.link.nackWire = c.asking.map fun key => send_nack_ P.T P.s P.t key.1 key.2
  asked : ∀ key ∈ c.asking, key ∈ c.link.nacks
  served : c.served ≤ c.link.wire.length
  answered : ∀ key, c.link.nacks.count key ≤
    c.early key + c.asking.count key + c.link.wire.countP fun e => decide (e.Carries key)
  dropped : ∀ key, ¬ c.link.HasArrived key →
    ((c.link.wire.take c.served).countP fun e => decide (e.Carries key)) ≤ if c.lost then 1 else 0

section Accounts
variable {P : Pipe} {addr : ℕ} {c c' : Channel} {L' : Link}

theorem Channel.Joined.finished (h : c.Joined) {n : ℕ} (hfin : c.link.Finished n) : n ∈ c.queued := by
  obtain hq | ⟨d, hc, hd, -⟩ := h n hfin.1
  · exact hq
  · exact absurd hd (hfin.idle hc)

theorem Channel.Joined.congr (h : c.Joined) (hlog : c'.link.log = c.link.log)
    (hcall : c'.link.call = c.link.call) (hq : c'.queued = c.queued) : c'.Joined := by
  unfold Channel.Joined
  rw [hlog, hcall, hq]
  exact h

theorem Channel.Joined.send (h : c.Joined) (hsend : Sender P c.link) {data : Bytes}
    (hs : c.link.step P addr (.send data) = some L') : Channel.Joined { c with link := L' } := by
  obtain ⟨hcall, -, rfl⟩ := Link.step_send hs
  intro n hn
  rw [List.length_append, List.length_singleton] at hn
  obtain hlt | rfl := Nat.lt_succ_iff_lt_or_eq.mp hn
  · obtain hq | ⟨d, hc, -⟩ := h n hlt
    · exact .inl hq
    · rw [hcall] at hc
      cases hc
  · exact .inr ⟨_, rfl, hsend.local_seq, rfl⟩

theorem Channel.Joined.retain (h : c.Joined) (hs : c.link.step P addr .retain = some L') :
    Channel.Joined { c with link := L', queued := c.queued ++ c.link.joining } := by
  obtain ⟨d, hcall, -, rfl⟩ := Link.step_retain hs
  intro n hn
  left
  obtain hq | ⟨d', hc, rfl, hi⟩ := h n hn
  · exact List.mem_append_left _ hq
  · refine List.mem_append_right _ ?_
    unfold Link.joining
    rw [hc]
    dsimp only
    rw [if_pos hi]
    exact List.mem_singleton_self _

theorem Channel.Joined.sendto (h : c.Joined) {ok : Bool}
    (hs : c.link.step P addr (.sendto ok) = some L') : Channel.Joined { c with link := L' } := by
  obtain ⟨d, hcall, rfl⟩ := Link.step_sendto hs
  intro n hn
  obtain hq | ⟨d', hc, -⟩ := h n hn
  · exact .inl hq
  · rw [hcall] at hc
    cases hc

theorem Channel.Joined.finish (h : c.Joined) (hsend : Sender P c.link)
    (hsome : ∀ data ∈ c.link.log, 0 < total data.length)
    (hs : c.link.step P addr .finish = some L') : Channel.Joined { c with link := L' } := by
  obtain ⟨d, hcall, hmore, rfl⟩ := Link.step_finish hs
  intro n hn
  obtain hq | ⟨d', hc, -, hi⟩ := h n hn
  · exact .inl hq
  · -- a call with its first fragment ahead does not finish
    rw [hcall] at hc
    obtain rfl := (Prod.ext_iff.mp (Option.some.inj hc)).1
    obtain ⟨data, i, hdata, hat, -⟩ := hsend.call d false hcall
    have hpos := hsome data (List.mem_of_getElem? hdata)
    have hlt : ¬ d.i < total d.data.length := of_decide_eq_false hmore
    rw [hi, hat] at hlt
    exact absurd hpos hlt

theorem Channel.Accounts.init : Channel.Accounts P {} where
  asking := rfl
  asked := by simp
  served := le_rfl
  answered := by simp
  dropped := by simp

/-- A step of the sender, or one that no frame takes part in. -/
theorem Channel.Accounts.grow (h : c.Accounts P) (hwire : c.link.wire <+: c'.link.wire)
    (hnw : c'.link.nackWire = c.link.nackWire) (hnacks : c'.link.nacks = c.link.nacks)
    (harr : c'.link.arrived = c.link.arrived) (hasking : c'.asking = c.asking)
    (hearly : c'.early = c.early) (hserved : c'.served = c.served) (hlost : c'.lost = c.lost) :
    c'.Accounts P where
  asking := by
    rw [hnw, hasking]
    exact h.asking
  asked := by
    rw [hasking, hnacks]
    exact h.asked
  served := by
    rw [hserved]
    exact h.served.trans hwire.length_le
  answered := by
    intro key
    have := h.answered key
    have := hwire.sublist.countP_le (p := fun e => decide (e.Carries key))
    rw [hnacks, hearly, hasking]
    omega
  dropped := by
    obtain ⟨l, hl⟩ := hwire
    intro key hkey
    rw [hserved, hlost, ← hl, List.take_append_of_le_length h.served]
    refine h.dropped key ?_
    unfold Link.HasArrived at hkey ⊢
    rwa [harr] at hkey

theorem Channel.Accounts.drain (h : c.Accounts P) {now₁ now₂ : ℕ}
    (hs : c.link.step P addr (.drain now₁ now₂) = some L') :
    Channel.Accounts P { c with
      link := L'
      asked_at := fun key =>
        if key ∈ L'.nacks.drop c.link.nacks.length then now₂ else c.asked_at key
      asking := c.asking ++ L'.nacks.drop c.link.nacks.length } := by
  obtain ⟨r, hr, rfl⟩ := Option.map_eq_some_iff.mp hs
  dsimp only
  rw [List.drop_left]
  constructor
  · rw [h.asking, List.map_append]
  · intro key hkey
    obtain hk | hk := List.mem_append.mp hkey
    · exact List.mem_append_left _ (h.asked key hk)
    · exact List.mem_append_right _ hk
  · exact h.served
  · intro key
    have := h.answered key
    dsimp only
    rw [List.count_append, List.count_append]
    omega
  · exact h.dropped

theorem Channel.Accounts.deliver (h : c.Accounts P)
    (hs : c.link.step P addr (.data c.served) = some L') :
    Channel.Accounts P { c with link := L', served := c.served + 1 } := by
  obtain ⟨e, he, rfl⟩ := Option.map_eq_some_iff.mp hs
  obtain ⟨hlt, hget⟩ := List.getElem?_eq_some_iff.mp he
  refine ⟨h.asking, h.asked, hlt, h.answered, fun key hkey => ?_⟩
  have hnot : ¬ c.link.HasArrived key := by
    rintro ⟨a, ha, hcarries⟩
    exact hkey ⟨a, List.mem_append_left _ ha, hcarries⟩
  have hmiss : ¬ e.Carries key := fun hcarries =>
    hkey ⟨e, List.mem_append_right _ (List.mem_singleton_self e), hcarries⟩
  dsimp only
  rw [← List.take_append_getElem hlt, List.countP_append, hget, List.countP_singleton]
  rw [if_neg (by simpa using hmiss), Nat.add_zero]
  exact h.dropped key hnot

theorem Channel.Accounts.drop (h : c.Accounts P) (hlost : c.lost = false)
    (hlt : c.served < c.link.wire.length) :
    Channel.Accounts P { c with served := c.served + 1, lost := true } := by
  refine ⟨h.asking, h.asked, hlt, h.answered, fun key hkey => ?_⟩
  have hnone := h.dropped key hkey
  rw [hlost, if_neg (by decide)] at hnone
  dsimp only
  rw [← List.take_append_getElem hlt, List.countP_append, if_pos rfl]
  have := List.countP_le_length (p := fun e => decide (e.Carries key)) (l := [c.link.wire[c.served]])
  rw [List.length_singleton] at this
  omega

/-- A NACK that got to the sender came early, or was answered. -/
theorem Channel.Accounts.nack (h : c.Accounts P) {key : ℕ × ℕ} {keys : List (ℕ × ℕ)}
    (hkeys : c.asking = key :: keys) (hasking : c'.asking = keys)
    (hnw : c'.link.nackWire = c.link.nackWire.eraseIdx 0) (hwire : c.link.wire <+: c'.link.wire)
    (hnacks : c'.link.nacks = c.link.nacks) (harr : c'.link.arrived = c.link.arrived)
    (hserved : c'.served = c.served) (hlost : c'.lost = c.lost)
    (hearly : ∀ k, c.early k ≤ c'.early k)
    (hdone : c.early key + 1 ≤ c'.early key ∨ ∃ e, e.Carries key ∧ c'.link.wire = c.link.wire ++ [e]) :
    c'.Accounts P where
  asking := by
    rw [hnw, hasking, h.asking, hkeys]
    rfl
  asked := by
    rw [hasking, hnacks]
    intro k hk
    exact h.asked k (hkeys ▸ List.mem_cons_of_mem _ hk)
  served := by
    rw [hserved]
    exact h.served.trans hwire.length_le
  answered := by
    intro k
    have hk := h.answered k
    have hle := hwire.sublist.countP_le (p := fun e => decide (e.Carries k))
    have hek := hearly k
    rw [hkeys, List.count_cons] at hk
    rw [hnacks, hasking]
    by_cases heq : key = k
    · subst heq
      rw [if_pos BEq.rfl] at hk
      obtain hearly' | ⟨e, he, hw⟩ := hdone
      · omega
      · rw [hw, List.countP_append, List.countP_singleton, if_pos (by simpa using he)]
        omega
    · rw [if_neg (by simpa using heq)] at hk
      omega
  dropped := by
    obtain ⟨l, hl⟩ := hwire
    intro k hk
    rw [hserved, hlost, ← hl, List.take_append_of_le_length h.served]
    refine h.dropped k ?_
    unfold Link.HasArrived at hk ⊢
    rwa [harr] at hk

/-- A fragment asked for five times, at most three of them too early, has arrived once nothing of it is
in flight: of two answers one gets through. -/
theorem Channel.Accounts.arrived (h : c.Accounts P) {key : ℕ × ℕ}
    (hcount : 5 ≤ c.link.nacks.count key) (hasking : key ∉ c.asking)
    (hwire : ∀ e ∈ c.link.wire.drop c.served, ¬ e.Carries key) (hearly : c.early key ≤ 3) :
    c.link.HasArrived key := by
  by_contra hnot
  have hleft : ((c.link.wire.drop c.served).countP fun e => decide (e.Carries key)) = 0 := by
    rw [List.countP_eq_zero]
    intro e he
    simpa using hwire e he
  have hanswered := h.answered key
  rw [List.count_eq_zero_of_not_mem hasking, ← List.take_append_drop c.served c.link.wire,
    List.countP_append, hleft] at hanswered
  have hdropped := h.dropped key hnot
  split at hdropped
  · omega
  · omega

end Accounts

/-! ## A step of the channel is a step of the pipe -/

section Steps
variable {P : Pipe} {addr : ℕ} {c c' : Channel} {L L' : Link}

theorem Sender.noEmptyAhead (h : Sender P L) (hfilled : ∀ data ∈ L.log, data ≠ []) (e : Event) :
    noEmptyAhead P L e := by
  cases e with
  | data k =>
    intro e he hlen
    obtain ⟨data, i, hdata, hi, -, hframe, -⟩ := h.wire e (List.mem_of_getElem? he)
    have hne := hfilled data (List.mem_of_getElem? hdata)
    rw [hframe, P.frame_eq, field_plen] at hlen
    exact absurd (List.length_eq_zero_iff.mp hlen)
      (piece_ne_nil hne (hi.trans_le (total_le _)))
  | send _ | retain | sendto _ | finish | recv _ | drain _ _ | nack _ | poison _ => trivial

theorem Channel.step_link {ev : ChannelEvent} (hs : c.step P ev = some c') :
    c'.link = c.link ∨ ∃ e, c.link.step P (P.S.ip_table_ P.t) e = some c'.link := by
  cases ev with
  | drop =>
    simp only [Channel.step] at hs
    split at hs
    · cases hs
    · obtain rfl := Option.some.inj hs
      exact .inl rfl
  | send _ | retain | sendto _ | finish | recv _ | drain _ _ | deliver | nack | poison =>
    obtain ⟨L, hL, rfl⟩ := Option.map_eq_some_iff.mp hs
    exact .inr ⟨_, hL⟩

theorem Channel.log_le {ev : ChannelEvent} (hs : c.step P ev = some c') :
    c.link.log <+: c'.link.log := by
  obtain he | ⟨e, he⟩ := Channel.step_link hs
  · rw [he]
  · exact Link.log_le he

end Steps

end QSync.Io
