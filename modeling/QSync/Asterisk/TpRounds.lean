import QSync.Asterisk.Opening

/-! # Rounds with the trusted party

The trusted party, which is party 0, sends one message to everybody (`tpSends`) or collects a vector
from everybody (`tpCollects`).
-/

namespace QSync
open Network
set_option autoImplicit false
set_option maxHeartbeats 250000

section Rounds
variable {nP : ℕ}

theorem mem_range_of_parties {i : ℕ} (hi : i ∈ parties nP) : i ∈ Finset.range (nP + 1) := by
  have := (mem_parties.mp hi).2
  rw [Finset.mem_range]
  omega

theorem parties_of_mem_range {i : ℕ} (hi : i ∈ Finset.range (nP + 1)) (h0 : i ≠ 0) :
    i ∈ parties nP := by
  rw [Finset.mem_range] at hi
  rw [mem_parties]
  omega

theorem ne_zero_of_parties {i : ℕ} (hi : i ∈ parties nP) : i ≠ 0 := by
  have := (mem_parties.mp hi).1
  omega

theorem parties_nodup (nP : ℕ) : (parties nP).Nodup := List.nodup_range'

/-- The trusted party sends `msg` to everybody and goes on with `own`; the others run `read`. -/
def tpSends {α : Type} (nP id : ℕ) (msg : Bytes) (own : α) (read : Proc ℕ α) : Proc ℕ α :=
  if id = 0 then do
    (parties nP).forM fun i => Proc.sendTo i msg
    pure own
  else read

theorem tpSends_completes {α : Type} {msg : Bytes} (own : α) {a : α} {read : Proc ℕ α}
    (hread : Does read [.inp 0 msg] a) : Completes (Finset.range (nP + 1))
      (fun id => tpSends nP id msg own read) fun id => if id = 0 then own else a := by
  refine @completes_scatter _ _ _ _ _ _ 0 (parties nP) (fun _ => msg) (parties_nodup nP)
    (fun j hj => mem_range_of_parties hj) (by simp) ?_ (fun j hj => ⟨ne_zero_of_parties hj, ?_⟩)
    fun i hi h hn => absurd (parties_of_mem_range hi h) hn
  · have hsends : Does ((parties nP).forM fun i => Proc.sendTo i msg)
        ((parties nP).map fun j => .out j msg) () := by
      rw [List.map_eq_flatMap]
      exact .forM _ fun _ _ => .send (.done ())
    have h := hsends.bind (f := fun _ => Proc.done own) (.done _)
    rwa [List.append_nil] at h
  · simp only [tpSends, if_neg (ne_zero_of_parties hj)]
    exact hread

theorem tpSends_congr {α : Type} {id : ℕ} {msg msg' : Bytes} {own own' : α} {read : Proc ℕ α}
    (h : id = 0 → msg = msg' ∧ own = own') :
    tpSends nP id msg own read = tpSends nP id msg' own' read := by
  by_cases h0 : id = 0
  · rw [(h h0).1, (h h0).2]
  · simp only [tpSends, if_neg h0]

section Vectors
variable {R : Type} (codec : Codec R)

def recvVector (src n : ℕ) : Proc ℕ (List R) :=
  codec.decode n <$> Proc.recvFrom src (codec.size n)

theorem does_recvVector {src n : ℕ} {xs : List R} (hlen : xs.length = n) :
    Does (recvVector codec src n) [.inp src (codec.encode xs)] xs := by
  refine .recv' ((codec.encode_length xs).trans (congrArg _ hlen)) ?_
  change Does (.done (codec.decode n (codec.encode xs))) [] xs
  rw [codec.decode_encode' hlen]
  exact .done xs

/-- The others send `n` elements each; the trusted party collects them. -/
def tpCollects (nP id n : ℕ) (xs : List R) : Proc ℕ (List (List R)) :=
  if id = 0 then (parties nP).mapM fun pid => recvVector codec pid n
  else do
    Proc.sendTo 0 (codec.encode xs)
    pure []

theorem tpCollects_completes {n : ℕ} {xs : ℕ → List R}
    (hlen : ∀ i ∈ parties nP, (xs i).length = n) : Completes (Finset.range (nP + 1))
      (fun id => tpCollects codec nP id n (xs id))
      fun id => if id = 0 then (parties nP).map xs else [] := by
  refine @completes_gather _ _ _ _ _ _ 0 (parties nP) (fun j => codec.encode (xs j))
    (parties_nodup nP) (fun j hj => mem_range_of_parties hj) (by simp) ?_
    (fun j hj => ⟨ne_zero_of_parties hj, ?_⟩)
    fun i hi h hn => absurd (parties_of_mem_range hi h) hn
  · simp only [tpCollects, if_true]
    rw [List.map_eq_flatMap]
    exact .mapM _ fun j hj => does_recvVector codec (hlen j hj)
  · simp only [tpCollects, if_neg (ne_zero_of_parties hj)]
    exact .send (.done [])

/-- The trusted party sends masks, and the others take them off the wires `outputs`. -/
def tpUnmasks [CommRing R] (nP id : ℕ) (outputs : List ℕ) (mask ws : ℕ → R) : Proc ℕ (List R) :=
  if outputs = [] then pure []
  else if id = 0 then do
    (parties nP).forM fun i => Proc.sendTo i (codec.encode (outputs.map mask))
    pure (outputs.map fun _ => 0)
  else do
    let output_masks ← recvVector codec 0 outputs.length
    pure (List.zipWith (fun wout outmask => ws wout - outmask) outputs output_masks)

theorem tpUnmasks_completes [CommRing R] (outputs : List ℕ) (mask ws : ℕ → ℕ → R) :
    Completes (Finset.range (nP + 1)) (fun id => tpUnmasks codec nP id outputs (mask id) (ws id))
      fun id => outputs.map fun wout => if id = 0 then 0 else ws id wout - mask 0 wout := by
  by_cases hout : outputs = []
  · subst hout
    exact completes_local _ fun _ => []
  · let keep := fun id output_masks => if id = 0 then outputs.map fun _ => (0 : R) else
      List.zipWith (fun wout outmask => ws id wout - outmask) outputs output_masks
    let output_masks := outputs.map (mask 0)
    have hread : Does (recvVector codec 0 outputs.length) [.inp 0 (codec.encode output_masks)]
        output_masks := does_recvVector codec (List.length_map (mask 0))
    have hsends : Completes (Finset.range (nP + 1)) _ _ := tpSends_completes output_masks hread
    refine (hsends.map keep).congr (fun id _ => ?_) fun id _ => ?_
    · by_cases h : id = 0
      · subst h
        simp only [tpUnmasks, tpSends, if_neg hout, if_true, bind_assoc, pure_bind]
        rfl
      · simp only [tpUnmasks, tpSends, if_neg hout, if_neg h, keep]
    · by_cases h : id = 0
      · simp only [keep, if_pos h]
      · simp only [keep, if_neg h, output_masks, List.zipWith_map_right, List.zipWith_self]

end Vectors

end Rounds

end QSync
