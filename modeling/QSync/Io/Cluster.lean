import QSync.Io.Nonces
import QSync.Io.ThirdParties
import QSync.Io.WitnessGaps

/-! # Programs on the broadcast medium

All parties of a run on one medium: a datagram handed to `sendto` may reach the pump of every party,
at any time, any number of times or never. The main thread of a party runs a program whose sends and
receives are those of `NetIOMP`; `BcastBus::send` runs in the steps in which the pump thread can come
in between. The histories (`log`, `out`) are not read by any step.
-/

namespace QSync.Io
open QSync.Network
set_option autoImplicit false
set_option maxHeartbeats 250000

/-! ## One party -/

/-- The process of a party. -/
structure Station (Q : Parties) (α : Type) where
  /-- What the main thread has still to do, after the call of `send` under way. -/
  proc : Proc ℕ α
  /-- The call of `send` under way: its target, where it stands, and whether its next datagram is
  about to be handed to `sendto`. -/
  call : Option (Fin Q.nP × SendCall × Bool) := none
  bus : Bus := {}
  witness_ : ℕ → WitnessState := fun _ => {}

/-- What the reply to a NACK puts on the medium. -/
def NackReply.frames (C : Config) : NackReply → List Bytes
  | .silent => []
  | .resend target seq idx rcd => [resend_fragment_ C target seq idx rcd]
  | .poison target reason => [send_poison_to_target_ C target reason]

section Station
variable {Q : Parties} {α : Type}

/-- One datagram in `pump_loop_`: the new state, and what goes on the medium. -/
def Station.pump (C : Config) (σ : Station Q α) (datagram : Bytes) (src : ℕ) :
    Station Q α × List Bytes :=
  match pump_taken C datagram src with
  | none => (σ, [])
  | some buf =>
    let r := dispatch C σ.bus buf src
    ({ σ with bus := r.1, witness_ := witness_data_ C σ.witness_ buf }, r.2.frames C)

/-- A new state for the pipe to `t`. -/
def Station.setTx (σ : Station Q α) (t : Fin Q.nP) (ts : TxState) : Station Q α :=
  { σ with bus := { σ.bus with tx_ := Function.update σ.bus.tx_ t ts } }

/-- A new state for the pipe from `s`. -/
def Station.setRx (σ : Station Q α) (s : Fin Q.nP) (rs : RxState) : Station Q α :=
  { σ with bus := { σ.bus with rx_ := Function.update σ.bus.rx_ s rs } }

end Station

/-! ## All parties -/

structure Cluster (Q : Parties) (α : Type) where
  stations : Fin Q.nP → Station Q α
  /-- All datagrams broadcast so far, each with its sender. -/
  air : List (Fin Q.nP × Bytes) := []
  /-- The messages given to `send`, by sender and target. -/
  log : Fin Q.nP × Fin Q.nP → List Bytes := fun _ => []
  /-- The bytes taken by `recv`, by sender and target. -/
  out : Fin Q.nP × Fin Q.nP → Bytes := fun _ => []

/-- What can happen at a party. -/
inductive StationEvent
  /-- The main thread enters its next `send`, or goes through its next `recv`. -/
  | call
  | retain
  | sendto (ok : Bool)
  | finish
  /-- The pump takes the `k`-th datagram. -/
  | frame (k : ℕ)
  | drain (s now₁ now₂ : ℕ)
  | witness (s t : ℕ)

section Cluster
variable {Q : Parties} {α : Type}

def Cluster.init (Q : Parties) (P : ℕ → Proc ℕ α) : Cluster Q α where
  stations p := { proc := P p }

def Cluster.put (D : Cluster Q α) (p : Fin Q.nP) (σ : Station Q α) : Cluster Q α :=
  { D with stations := Function.update D.stations p σ }

def Cluster.broadcast (D : Cluster Q α) (p : Fin Q.nP) (bufs : List Bytes) : Cluster Q α :=
  { D with air := D.air ++ bufs.map fun buf => (p, buf) }

/-- `NetIOMP::send` and `BcastBus::send` up to their loop, or `NetIOMP::recv`. A party's calls to itself
return at once, with the zeros of the caller's buffer. `none`: the call blocks, or throws on a poisoned
pipe, or `sent[dst]` is outside its vector. -/
def Cluster.enter (D : Cluster Q α) (p : Fin Q.nP) : Option (Cluster Q α) :=
  let σ := D.stations p
  match σ.call, σ.proc with
  | none, .send dst msg next =>
    if dst = p then some (D.put p { σ with proc := next })
    else if h : dst < Q.nP then
      let t : Fin Q.nP := ⟨dst, h⟩
      if (σ.bus.tx_ t).poisoned.isSome then none
      else
        let r := send_start (σ.bus.tx_ t) msg
        some { D.put p { σ.setTx t r.1 with proc := next, call := some (t, r.2, false) } with
          log := Function.update D.log (p, t) (D.log (p, t) ++ [msg]) }
    else none
  | none, .recv src len next =>
    if h : src < Q.nP ∧ src ≠ p then
      let s : Fin Q.nP := ⟨src, h.1⟩
      (recv (σ.bus.rx_ s) len).map fun r =>
        { D.put p { σ.setRx s r.2 with proc := next r.1 } with
          out := Function.update D.out (s, p) (D.out (s, p) ++ r.1) }
    else some (D.put p { σ with proc := next (List.replicate len 0) })
  | _, _ => none

/-- One event at party `p`; the datagrams of party `q` come from the address `addr q`. -/
def Cluster.step (addr : Fin Q.nP → ℕ) (D : Cluster Q α) (ev : Fin Q.nP × StationEvent) :
    Option (Cluster Q α) :=
  let p := ev.1
  let σ := D.stations p
  let C := Q.config p
  match ev.2 with
  | .call => D.enter p
  | .retain =>
    match σ.call with
    | some (t, c, false) =>
      if c.more then
        some (D.put p { σ.setTx t (send_retain C t (σ.bus.tx_ t) c) with call := some (t, c, true) })
      else none
    | _ => none
  | .sendto ok =>
    match σ.call with
    | some (t, c, true) =>
      some ((D.put p { σ with call := some (t, send_datagram c ok, false) }).broadcast p
        (if ok then [c.buf C t] else []))
    | _ => none
  | .finish =>
    match σ.call with
    | some (t, c, false) =>
      if c.more then none
      else some (D.put p { σ.setTx t (send_end (σ.bus.tx_ t) c) with call := none })
    | _ => none
  | .frame k =>
    D.air[k]?.map fun d =>
      let r := σ.pump C d.2 (addr d.1)
      (D.put p r.1).broadcast p r.2
  | .drain s now₁ now₂ =>
    if h : s < Q.nP ∧ s ≠ p then
      (drain_nack_state_ C s now₁ now₂ (σ.bus.rx_ s)).map fun r =>
        (D.put p (σ.setRx ⟨s, h.1⟩ r.1)).broadcast p
          (r.2.map fun key => send_nack_ C s p key.1 key.2)
    else none
  | .witness s t =>
    if s < Q.nP ∧ t < Q.nP ∧ s ≠ p ∧ t ≠ p ∧ s ≠ t then
      let r := witness_drain_ C s t σ.witness_
      some ((D.put p { σ with witness_ := r.1 }).broadcast p
        (r.2.map fun n => send_nack_ C n.missing_sender n.missing_target n.seq n.idx))
    else none

/-- Some run of the programs `P` leads to `D`. -/
def Cluster.Reached (addr : Fin Q.nP → ℕ) (P : ℕ → Proc ℕ α) (D : Cluster Q α) : Prop :=
  Runs (Cluster.step addr) (fun _ _ => True) (Cluster.init Q P) D

end Cluster
end QSync.Io
