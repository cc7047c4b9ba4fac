import QSync.Utils.Circuit

/-! # Pseudorandom streams

`RandGenPool` (`asterisk/rand_gen_pool.h`). A stream is known only by its contents: what a request
returns is an arbitrary function of the sizes of the requests made so far. Two parties that hold
the same stream and make requests of the same sizes read the same bytes.
-/

namespace QSync
open Network
set_option autoImplicit false
set_option maxHeartbeats 250000

/-- The contents of a pseudorandom generator: byte `k` of the answer to a request, from the sizes of
the requests so far, the newest first. -/
abbrev Prg := List ℕ → ℕ → UInt8

/-- A generator together with the sizes of the requests made to it, the newest first. -/
structure Stream where
  prg : Prg
  hist : List ℕ

/-- The answer to a request of `nbytes` bytes. -/
def Stream.answer (s : Stream) (nbytes : ℕ) : Bytes :=
  (List.range nbytes).map fun k => (s.prg (nbytes :: s.hist) k).toNat

/-- The generator after a request of `nbytes` bytes. -/
def Stream.advance (s : Stream) (nbytes : ℕ) : Stream := { s with hist := nbytes :: s.hist }

/-- The members of a `RandGenPool`. -/
inductive StreamName where
  | self | all_minus_0 | all | p0
  | pi (i : ℕ)
  deriving DecidableEq

/-- `RandGenPool`: a stream for each member. -/
abbrev RandGenPool := StreamName → Stream

/-- Streams at their start. -/
def RandGenPool.seeded (prgs : StreamName → Prg) : RandGenPool := fun n => ⟨prgs n, []⟩

/-- `RandGenPool::RandGenPool` with the default of its `seed`: every stream is reseeded with the same
block. `blockPrg` is the generator that a block seeds. -/
def RandGenPool.constructed (blockPrg : ℕ → Prg) : RandGenPool := .seeded fun _ => blockPrg 200

/-- How a ring element is drawn from a stream. -/
class RandomRing (R : Type) extends CircuitRing R where
  drawSize : ℕ
  ofDraw : Bytes → R

/-- `randomizeZZp`: eight bytes as a `uint64_t`, which `ZZ_p` takes as a `long`. -/
instance (M : Modulus) : RandomRing (Field M) where
  drawSize := FIELDSIZE
  ofDraw b := ((BitVec.ofNat 64 (leNat b)).toInt : Field M)

/-- `random_data(&tmp, sizeof(BoolRing)); val = tmp % 2`. -/
instance : RandomRing BoolRing where
  drawSize := 1
  ofDraw b := leNat b % 2 == 1

/-- The ring element a stream gives next. -/
def Stream.value (R : Type) [RandomRing R] (s : Stream) : R :=
  RandomRing.ofDraw (s.answer (RandomRing.drawSize R))

/-- The stream after one ring element. -/
def Stream.next (R : Type) [RandomRing R] (s : Stream) : Stream := s.advance (RandomRing.drawSize R)

/-- Draw a ring element from a stream. -/
def Stream.randomize (R : Type) [RandomRing R] : StateM Stream R := fun s => (s.value R, s.next R)

/-- Draw a ring element from the stream `name`. -/
def randomize (R : Type) [RandomRing R] (name : StreamName) : StateM RandGenPool R := fun rgen =>
  ((rgen name).value R, Function.update rgen name ((rgen name).next R))

end QSync
