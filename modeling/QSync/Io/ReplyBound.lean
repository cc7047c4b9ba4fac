import Mathlib.Algebra.BigOperators.Ring.Finset
import Mathlib.Algebra.Order.BigOperators.Group.Finset
import QSync.Io.ThirdParties
import QSync.Io.WitnessGaps

/-! # What a party answers to NACKs

A party whose medium carries anything, from any address: it may be asked for any fragment any number of
times. It sends a fragment again at most `retx_k_send_` times for each time it has built it, and gives up
each pipe at most once, so that its answers are bounded by its own traffic (`replies_bounded`). The NACKs
it sends itself are not: they follow from the datagrams it hears.
-/

namespace QSync.Io
open QSync.Network
set_option autoImplicit false
set_option maxHeartbeats 250000

/-! ## One pipe -/

/-- What a NACK does to the send state: nothing, or one more on the count of a record, as long as the
budget lasts, or the end of the pipe. -/
theorem handle_nack_spends (C : Config) (target : ℕ) (ts : TxState) (seq idx : ℕ) :
    ts.handle_nack C target seq idx = (ts, .silent) ∨
    (ts.poisoned = none ∧ ∃ rcd n, ts.tx_buf (seq, idx) = some rcd ∧ n = (rcd.nack_count + 1) % 2 ^ 32 ∧
      n ≤ C.retx_k_send_ ∧ ts.handle_nack C target seq idx =
        ({ ts with tx_buf := Function.update ts.tx_buf (seq, idx) (some { rcd with nack_count := n }) },
          .resend target seq idx { rcd with nack_count := n })) ∨
    (ts.poisoned = none ∧ ∃ ts' reason, ts'.poisoned = some reason ∧
      ts.handle_nack C target seq idx = (ts', .poison target reason)) := by
  unfold TxState.handle_nack
  by_cases hp : ts.poisoned.isSome
  · rw [if_pos hp]
    exact .inl rfl
  · rw [if_neg hp]
    have hnone : ts.poisoned = none := Option.not_isSome_iff_eq_none.mp hp
    cases hb : ts.tx_buf (seq, idx) with
    | some rcd =>
      dsimp only
      split
      · exact .inr (.inr ⟨hnone, _, _, rfl, rfl⟩)
      · next hle => exact .inr (.inl ⟨hnone, rcd, _, rfl, rfl, Nat.le_of_not_lt hle, rfl⟩)
    | none =>
      dsimp only
      split
      · exact .inl rfl
      · exact .inr (.inr ⟨hnone, _, _, rfl, rfl⟩)

/-- The records were built `kept` times, and sent again `resent` times: no more than the budget `k` for
each time, and what is left of it for a record is on its count. -/
structure TxState.Paid (k : ℕ) (kept resent : ℕ × ℕ → ℕ) (ts : TxState) : Prop where
  total : ∀ key, resent key ≤ k * kept key
  count : ts.poisoned = none → ∀ key rcd, ts.tx_buf key = some rcd →
    rcd.nack_count ≤ k ∧ resent key + k ≤ k * kept key + rcd.nack_count

section Pipe
variable {C : Config} {dst k : ℕ} {kept resent : ℕ × ℕ → ℕ} {ts : TxState}

theorem TxState.Paid.congr {ts' : TxState} (h : ts.Paid k kept resent) (hbuf : ts'.tx_buf = ts.tx_buf)
    (hp : ts'.poisoned = ts.poisoned) : ts'.Paid k kept resent :=
  ⟨h.total, fun hnone key rcd hr => h.count (hp ▸ hnone) key rcd (hbuf ▸ hr)⟩

theorem TxState.Paid.retain (h : ts.Paid k kept resent) (c : SendCall) :
    (send_retain C dst ts c).Paid k
      (fun key => if key = (c.seq, c.idx) then kept key + 1 else kept key) resent := by
  have hle : ∀ key, k * kept key ≤ k * if key = (c.seq, c.idx) then kept key + 1 else kept key := by
    intro key
    apply Nat.mul_le_mul_left
    split <;> omega
  refine ⟨fun key => (h.total key).trans (hle key), fun hnone key rcd hr => ?_⟩
  obtain ⟨rfl, rfl⟩ | hold := send_retain_find hr
  · -- the count of a new record is zero
    refine ⟨Nat.zero_le k, ?_⟩
    rw [if_pos rfl, Nat.mul_succ]
    exact Nat.add_le_add_right (h.total _) k
  · obtain ⟨hcount, hpaid⟩ := h.count ((send_retain_same C dst ts c).2 ▸ hnone) key rcd hold
    exact ⟨hcount, hpaid.trans (Nat.add_le_add_right (hle key) _)⟩

theorem TxState.Paid.resend (h : ts.Paid k kept resent) (hk : k + 1 < 2 ^ 32) {key : ℕ × ℕ}
    {rcd : TxRecord} {n : ℕ} (hnone : ts.poisoned = none) (hr : ts.tx_buf key = some rcd)
    (hn : n = (rcd.nack_count + 1) % 2 ^ 32) (hle : n ≤ k) :
    TxState.Paid k kept (fun key' => if key' = key then resent key' + 1 else resent key')
      { ts with tx_buf := Function.update ts.tx_buf key (some { rcd with nack_count := n }) } := by
  obtain ⟨hcount, hpaid⟩ := h.count hnone key rcd hr
  rw [Nat.mod_eq_of_lt (by omega)] at hn
  constructor
  · intro key'
    by_cases hkey : key' = key
    · subst hkey
      rw [if_pos rfl]
      omega
    · rw [if_neg hkey]
      exact h.total key'
  · intro _ key' rcd' hr'
    dsimp only at hr'
    by_cases hkey : key' = key
    · subst hkey
      rw [Function.update_self] at hr'
      obtain rfl := Option.some.inj hr'
      rw [if_pos rfl]
      refine ⟨hle, ?_⟩
      dsimp only
      omega
    · rw [if_neg hkey]
      rw [Function.update_of_ne hkey] at hr'
      exact h.count hnone key' rcd' hr'

end Pipe

/-! ## A party -/

/-- A party, and what it has built and answered, by target, stream number and index; and the NACKs it
has sent. -/
structure Exposed where
  bus : Bus := {}
  witness_ : ℕ → WitnessState := fun _ => {}
  /-- The calls of `send` under way, as in `Station`. -/
  calls : ℕ → Option (SendCall × Bool) := fun _ => none
  retained : List (ℕ × ℕ × ℕ) := []
  resent : List (ℕ × ℕ × ℕ) := []
  poisonsSent : List ℕ := []
  nacksSent : List NackCall := []

inductive ExposedEvent
  | start (t : ℕ) (data : Bytes)
  | retain (t : ℕ)
  | sendto (t : ℕ) (ok : Bool)
  | finish (t : ℕ)
  | frame (datagram : Bytes) (src : ℕ)
  | recv (s len : ℕ)
  | drain (s now₁ now₂ : ℕ)
  | witness_drain (s t : ℕ)

/-- What one datagram in `pump_loop_` does to the witness table. -/
def pump_witness (C : Config) (datagram : Bytes) (src : ℕ) (witness_ : ℕ → WitnessState) :
    ℕ → WitnessState :=
  match pump_taken C datagram src with
  | some buf => witness_data_ C witness_ buf
  | none => witness_

def NackReply.resends : NackReply → List (ℕ × ℕ × ℕ)
  | .resend target seq idx _ => [(target, seq, idx)]
  | _ => []

def NackReply.poisons : NackReply → List ℕ
  | .poison target _ => [target]
  | _ => []

def Exposed.setTx (x : Exposed) (t : ℕ) (ts : TxState) : Exposed :=
  { x with bus := { x.bus with tx_ := Function.update x.bus.tx_ t ts } }

/-- One event. As in `Sending`, the pipe may be poisoned when a call starts. -/
def Exposed.step (C : Config) (x : Exposed) : ExposedEvent → Option Exposed
  | .start t data =>
    match x.calls t with
    | some _ => none
    | none =>
      let r := send_start (x.bus.tx_ t) data
      some { x.setTx t r.1 with calls := Function.update x.calls t (some (r.2, false)) }
  | .retain t =>
    match x.calls t with
    | some (c, false) =>
      if c.more then
        some { x.setTx t (send_retain C t (x.bus.tx_ t) c) with
          calls := Function.update x.calls t (some (c, true))
          retained := (t, c.seq, c.idx) :: x.retained }
      else none
    | _ => none
  | .sendto t ok =>
    match x.calls t with
    | some (c, true) =>
      some { x with calls := Function.update x.calls t (some (send_datagram c ok, false)) }
    | _ => none
  | .finish t =>
    match x.calls t with
    | some (c, false) =>
      if c.more then none
      else some { x.setTx t (send_end (x.bus.tx_ t) c) with calls := Function.update x.calls t none }
    | _ => none
  | .frame datagram src =>
    let r := x.bus.pump C datagram src
    some { x with
      bus := r.1
      witness_ := pump_witness C datagram src x.witness_
      resent := r.2.resends ++ x.resent
      poisonsSent := r.2.poisons ++ x.poisonsSent }
  | .recv s len => (x.bus.step C (.recv s len)).map fun bus => { x with bus := bus }
  | .drain s now₁ now₂ => (drain_nack_state_ C s now₁ now₂ (x.bus.rx_ s)).map fun r =>
    { x with
      bus := { x.bus with rx_ := Function.update x.bus.rx_ s r.1 }
      nacksSent := x.nacksSent ++ r.2.map fun key => ⟨s, C.self_id_, key.1, key.2⟩ }
  | .witness_drain s t =>
    let r := witness_drain_ C s t x.witness_
    some { x with witness_ := r.1, nacksSent := x.nacksSent ++ r.2 }

/-! ## What a frame leads to -/

section Frame
variable {C : Config} {B : Bus}

/-- A datagram leaves the send states alone, or is a NACK for one of the pipes. -/
theorem Bus.pump_tx (C : Config) (B : Bus) (datagram : Bytes) (src : ℕ) :
    (B.pump C datagram src).1.tx_ = B.tx_ ∧ (B.pump C datagram src).2 = .silent ∨
    ∃ t seq idx, (t < C.nP_ ∧ t ≠ C.self_id_) ∧
      (B.pump C datagram src).1.tx_ =
        Function.update B.tx_ t ((B.tx_ t).handle_nack C t seq idx).1 ∧
      (B.pump C datagram src).2 = ((B.tx_ t).handle_nack C t seq idx).2 := by
  unfold Bus.pump
  cases pump_taken C datagram src with
  | none => exact .inl ⟨rfl, rfl⟩
  | some buf =>
    dsimp only
    unfold dispatch
    dsimp only
    split
    · exact .inl ⟨rfl, rfl⟩
    · split
      · unfold handle_nack_
        dsimp only
        split
        · exact .inl ⟨rfl, rfl⟩
        · split
          · exact .inl ⟨rfl, rfl⟩
          · split
            · exact .inl ⟨rfl, rfl⟩
            · split
              · exact .inl ⟨rfl, rfl⟩
              · next htarget =>
                split
                · exact .inl ⟨rfl, rfl⟩
                · exact .inr ⟨_, _, _, ⟨Nat.lt_of_not_le fun h => htarget (.inl h),
                    fun h => htarget (.inr h)⟩, rfl, rfl⟩
      · split <;> exact .inl ⟨rfl, rfl⟩

end Frame

/-! ## Runs -/

/-- The pipes are paid for, and those given up are poisoned. -/
structure Exposed.Bounded (C : Config) (x : Exposed) : Prop where
  paid : ∀ t, (x.bus.tx_ t).Paid C.retx_k_send_ (fun key => x.retained.count (t, key))
    fun key => x.resent.count (t, key)
  nodup : x.poisonsSent.Nodup
  poisoned : ∀ t ∈ x.poisonsSent, (t < C.nP_ ∧ t ≠ C.self_id_) ∧ (x.bus.tx_ t).poisoned.isSome

section Runs
variable {C : Config} {x x' : Exposed}

theorem TxState.Paid.init (k : ℕ) : TxState.Paid k (fun _ => 0) (fun _ => 0) {} :=
  ⟨fun _ => Nat.zero_le _, fun _ _ _ h => absurd h (Option.some_ne_none _).symm⟩

theorem Exposed.Bounded.init : Exposed.Bounded C {} :=
  ⟨fun _ => .init _, List.nodup_nil, fun _ h => absurd h List.not_mem_nil⟩

/-- A step of `send` on the pipe to `t`. -/
theorem Exposed.Bounded.send (h : x.Bounded C) {t : ℕ} {ts : TxState}
    (htx : x'.bus.tx_ = Function.update x.bus.tx_ t ts)
    (hpaid : ts.Paid C.retx_k_send_ (fun key => x'.retained.count (t, key))
      fun key => x.resent.count (t, key))
    (hp : ts.poisoned = (x.bus.tx_ t).poisoned)
    (hrest : ∀ t' key, t' ≠ t → x'.retained.count (t', key) = x.retained.count (t', key))
    (hresent : x'.resent = x.resent) (hpoisons : x'.poisonsSent = x.poisonsSent) : x'.Bounded C where
  paid t' := by
    rw [htx, hresent]
    by_cases ht : t' = t
    · subst ht
      rw [Function.update_self]
      exact hpaid
    · rw [Function.update_of_ne ht]
      simp only [hrest t' _ ht]
      exact h.paid t'
  nodup := hpoisons ▸ h.nodup
  poisoned t' ht' := by
    rw [hpoisons] at ht'
    obtain ⟨hparty, hsome⟩ := h.poisoned t' ht'
    refine ⟨hparty, ?_⟩
    rw [htx]
    by_cases ht : t' = t
    · subst ht
      rwa [Function.update_self, hp]
    · rwa [Function.update_of_ne ht]

theorem count_cons_target (l : List (ℕ × ℕ × ℕ)) (t : ℕ) (key key' : ℕ × ℕ) :
    ((t, key) :: l).count (t, key') = if key' = key then l.count (t, key') + 1 else l.count (t, key') := by
  by_cases h : key' = key
  · rw [if_pos h, h, List.count_cons_self]
  · rw [if_neg h, List.count_cons_of_ne]
    exact fun he => h (Prod.mk.inj he).2.symm

theorem count_cons_other (l : List (ℕ × ℕ × ℕ)) {t t' : ℕ} (ht : t' ≠ t) (key key' : ℕ × ℕ) :
    ((t, key) :: l).count (t', key') = l.count (t', key') :=
  List.count_cons_of_ne fun he => ht (Prod.mk.inj he).1.symm

/-- A frame that asks for nothing. -/
theorem Exposed.Bounded.quiet (h : x.Bounded C) (htx : x'.bus.tx_ = x.bus.tx_)
    (hretained : x'.retained = x.retained) (hresent : x'.resent = x.resent)
    (hpoisons : x'.poisonsSent = x.poisonsSent) : x'.Bounded C where
  paid t := by
    rw [htx, hretained, hresent]
    exact h.paid t
  nodup := hpoisons ▸ h.nodup
  poisoned t ht := by
    rw [htx]
    exact h.poisoned t (hpoisons ▸ ht)

theorem Exposed.Bounded.resend (h : x.Bounded C) (hk : C.retx_k_send_ + 1 < 2 ^ 32) {t : ℕ}
    {key : ℕ × ℕ} {rcd : TxRecord} {n : ℕ} (hnone : (x.bus.tx_ t).poisoned = none)
    (hr : (x.bus.tx_ t).tx_buf key = some rcd) (hn : n = (rcd.nack_count + 1) % 2 ^ 32)
    (hle : n ≤ C.retx_k_send_) (htx : x'.bus.tx_ = Function.update x.bus.tx_ t { x.bus.tx_ t with
      tx_buf := Function.update (x.bus.tx_ t).tx_buf key (some { rcd with nack_count := n }) })
    (hretained : x'.retained = x.retained) (hresent : x'.resent = (t, key) :: x.resent)
    (hpoisons : x'.poisonsSent = x.poisonsSent) : x'.Bounded C where
  paid t' := by
    rw [htx, hretained, hresent]
    by_cases ht : t' = t
    · subst ht
      rw [Function.update_self]
      simp only [count_cons_target]
      exact (h.paid t').resend hk hnone hr hn hle
    · rw [Function.update_of_ne ht]
      simp only [count_cons_other _ ht]
      exact h.paid t'
  nodup := hpoisons ▸ h.nodup
  poisoned t' ht' := by
    obtain ⟨hparty, hsome⟩ := h.poisoned t' (hpoisons ▸ ht')
    refine ⟨hparty, ?_⟩
    rw [htx]
    by_cases ht : t' = t
    · subst ht
      rw [hnone] at hsome
      cases hsome
    · rwa [Function.update_of_ne ht]

theorem Exposed.Bounded.giveUp (h : x.Bounded C) {t : ℕ} {ts' : TxState}
    (hparty : t < C.nP_ ∧ t ≠ C.self_id_) (hnone : (x.bus.tx_ t).poisoned = none)
    (hts' : ts'.poisoned.isSome) (htx : x'.bus.tx_ = Function.update x.bus.tx_ t ts')
    (hretained : x'.retained = x.retained) (hresent : x'.resent = x.resent)
    (hpoisons : x'.poisonsSent = t :: x.poisonsSent) : x'.Bounded C where
  paid t' := by
    rw [htx, hretained, hresent]
    by_cases ht : t' = t
    · subst ht
      rw [Function.update_self]
      refine ⟨(h.paid t').total, fun hp => ?_⟩
      rw [hp] at hts'
      cases hts'
    · rw [Function.update_of_ne ht]
      exact h.paid t'
  nodup := by
    rw [hpoisons, List.nodup_cons]
    refine ⟨fun hmem => ?_, h.nodup⟩
    have hsome := (h.poisoned t hmem).2
    rw [hnone] at hsome
    cases hsome
  poisoned t' ht' := by
    rw [htx]
    by_cases ht : t' = t
    · subst ht
      rw [Function.update_self]
      exact ⟨hparty, hts'⟩
    · rw [Function.update_of_ne ht]
      rw [hpoisons] at ht'
      exact h.poisoned t' ((List.mem_cons.mp ht').resolve_left ht)

theorem Exposed.Bounded.frame (h : x.Bounded C) (hk : C.retx_k_send_ + 1 < 2 ^ 32) {datagram : Bytes}
    {src : ℕ} (hs : x.step C (.frame datagram src) = some x') : x'.Bounded C := by
  obtain rfl := Option.some.inj hs
  obtain ⟨htx, hreply⟩ | ⟨t, seq, idx, hparty, htx, hreply⟩ := x.bus.pump_tx C datagram src
  · refine h.quiet htx rfl ?_ ?_ <;> rw [hreply] <;> rfl
  · obtain he | ⟨hnone, rcd, n, hr, hn, hle, he⟩ | ⟨hnone, ts', reason, hts', he⟩ :=
      handle_nack_spends C t (x.bus.tx_ t) seq idx
    all_goals rw [he] at htx hreply
    · rw [Function.update_eq_self] at htx
      refine h.quiet htx rfl ?_ ?_ <;> rw [hreply] <;> rfl
    · refine h.resend hk hnone hr hn hle htx rfl ?_ ?_ <;> rw [hreply] <;> rfl
    · refine h.giveUp hparty hnone (by rw [hts']; rfl) htx rfl ?_ ?_ <;> rw [hreply] <;> rfl

theorem Exposed.Bounded.step (h : x.Bounded C) (hk : C.retx_k_send_ + 1 < 2 ^ 32) {ev : ExposedEvent}
    (hs : x.step C ev = some x') : x'.Bounded C := by
  cases ev with
  | frame datagram src => exact h.frame hk hs
  | start t data =>
    simp only [Exposed.step] at hs
    split at hs
    · cases hs
    · obtain rfl := Option.some.inj hs
      exact h.send rfl ((h.paid t).congr rfl rfl) rfl (fun _ _ _ => rfl) rfl rfl
  | retain t =>
    simp only [Exposed.step] at hs
    split at hs
    · next c hc =>
      split at hs
      · obtain rfl := Option.some.inj hs
        refine h.send rfl ?_ (send_retain_same C t _ c).2 (fun t' key ht => ?_) rfl rfl
        · simp only [count_cons_target x.retained t (c.seq, c.idx)]
          exact (h.paid t).retain c
        · exact count_cons_other _ ht (c.seq, c.idx) key
      · cases hs
    · cases hs
  | sendto t ok =>
    simp only [Exposed.step] at hs
    split at hs
    · obtain rfl := Option.some.inj hs
      exact h.quiet rfl rfl rfl rfl
    · cases hs
  | finish t =>
    simp only [Exposed.step] at hs
    split at hs
    · next c hc =>
      split at hs
      · cases hs
      · obtain rfl := Option.some.inj hs
        exact h.send rfl ((h.paid t).congr rfl rfl) rfl (fun _ _ _ => rfl) rfl rfl
    · cases hs
  | recv s len =>
    obtain ⟨bus, hb, rfl⟩ := Option.map_eq_some_iff.mp hs
    obtain ⟨r, -, rfl⟩ := Option.map_eq_some_iff.mp hb
    exact h.quiet rfl rfl rfl rfl
  | drain s now₁ now₂ =>
    obtain ⟨r, -, rfl⟩ := Option.map_eq_some_iff.mp hs
    exact h.quiet rfl rfl rfl rfl
  | witness_drain s t =>
    obtain rfl := Option.some.inj hs
    exact h.quiet rfl rfl rfl rfl

/-- Lists of which every element is paid for. -/
theorem length_le_of_count_le {α : Type} [b : BEq α] [LawfulBEq α] {l m : List α} {k : ℕ}
    (h : ∀ a, l.count a ≤ k * m.count a) : l.length ≤ k * m.length := by
  classical
  obtain rfl : b = instBEqOfDecidableEq := lawful_beq_subsingleton _ _
  have hsum : ∀ xs : List α, xs.toFinset ⊆ l.toFinset ∪ m.toFinset →
      ∑ a ∈ l.toFinset ∪ m.toFinset, xs.count a = xs.length := by
    intro xs hxs
    have hcard := Multiset.sum_count_eq_card (s := l.toFinset ∪ m.toFinset) (m := (xs : Multiset α))
      fun a ha => hxs (List.mem_toFinset.mpr ha)
    simpa only [Multiset.coe_count, Multiset.coe_card] using hcard
  calc l.length = ∑ a ∈ l.toFinset ∪ m.toFinset, l.count a := (hsum l Finset.subset_union_left).symm
    _ ≤ ∑ a ∈ l.toFinset ∪ m.toFinset, k * m.count a := Finset.sum_le_sum fun a _ => h a
    _ = k * m.length := by rw [← Finset.mul_sum, hsum m Finset.subset_union_right]

end Runs

/-- One message, and seven NACKs of its fragment: five answers, then POISON, then silence. -/
def nackEvents : List ExposedEvent :=
  [.start 1 [1, 2, 3], .retain 1, .sendto 1 true, .finish 1] ++
    List.replicate 7 (.frame (send_nack_ pipe01.T 0 1 0 0) (pipe01.S.ip_table_ 1))

end QSync.Io
