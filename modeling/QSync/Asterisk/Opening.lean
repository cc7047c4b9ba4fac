import Mathlib.Algebra.BigOperators.Intervals
import Mathlib.Data.Finset.Range
import QSync.Asterisk.Sharing
import QSync.Foundations.Batching
import QSync.Foundations.Rounds

/-! # The load-balanced opening

The middle part of `OnlineEvaluator::evaluateGatesAtDepth` and of `BoolEval::evaluateGatesAtDepth`
(`asterisk/online_evaluator_load_balanced.cpp`), over any ring with a wire format. The values to be
opened are cut into `nP` slices, the last one with the remainder. In the first round every party sends
slice `pid` of its shares to party `pid`, which adds them up; in the second it sends the sums to
everybody. `open_completes`: the round trip completes and everybody has the sums of the shares.
-/

namespace QSync
open Network Batching
set_option autoImplicit false
set_option maxHeartbeats 250000

section Opening
variable {R : Type} [CommRing R]

/-- The number of values party `pid` adds up: `per_party_comm`, or `last_party_comm` for party
`nP`. -/
def commSize (nP total_comm pid : ℕ) : ℕ :=
  let per_party_comm := total_comm / nP
  let last_party_comm := per_party_comm + total_comm % nP
  if pid = nP then last_party_comm else per_party_comm

/-- `online_comm_to_party`: the slice of party `pid`. -/
def commSlice (nP pid : ℕ) (online_comm : List R) : List R :=
  let per_party_comm := online_comm.length / nP
  (List.range (commSize nP online_comm.length pid)).map fun i =>
    online_comm.getD ((pid - 1) * per_party_comm + i) 0

/-- Sums, position by position, of vectors of `n` elements. -/
def sumVectors (n : ℕ) (vs : List (List R)) : List R :=
  (List.range n).map fun i => (vs.map fun v => v.getD i 0).sum

/-- The parties that take part in the online phase. -/
def parties (nP : ℕ) : List ℕ := List.range' 1 nP

/-- The opening at party `id` in `1..nP`, with the shares `online_comm`. -/
def openShares (codec : Codec R) (nP id : ℕ) (online_comm : List R) : Proc ℕ (List R) := do
  let size := commSize nP online_comm.length
  let shares ← exchange (parties nP) id
    (fun pid => codec.encode (commSlice nP pid online_comm))
    (fun _ => codec.size (size id)) (commSlice nP id online_comm) fun _ => codec.decode (size id)
  let agg_values_send := sumVectors (size id) shares
  let agg_values ← exchange (parties nP) id
    (fun _ => codec.encode agg_values_send)
    (fun pid => codec.size (size pid)) agg_values_send fun pid => codec.decode (size pid)
  pure agg_values.flatten

/-- The sums over the parties `1..nP` of their shares. -/
def openedValues (nP total_comm : ℕ) (shares : ℕ → List R) : List R :=
  (List.range total_comm).map fun k => ∑ i ∈ Finset.Icc 1 nP, (shares i).getD k 0

omit [CommRing R] in
theorem mem_parties {nP i : ℕ} : i ∈ parties nP ↔ 1 ≤ i ∧ i ≤ nP := by
  rw [parties, List.mem_range'_1]
  omega

theorem sum_parties (nP : ℕ) (f : ℕ → R) :
    ((parties nP).map f).sum = ∑ i ∈ Finset.Icc 1 nP, f i := by
  have hnd : (parties nP).Nodup := List.nodup_range'
  rw [← List.sum_toFinset _ hnd]
  refine Finset.sum_congr (Finset.ext fun i => ?_) fun _ _ => rfl
  rw [List.mem_toFinset, Finset.mem_Icc]
  exact mem_parties

@[simp] theorem commSlice_length (nP pid : ℕ) (online_comm : List R) :
    (commSlice nP pid online_comm).length = commSize nP online_comm.length pid := by
  simp [commSlice]

@[simp] theorem sumVectors_length (n : ℕ) (vs : List (List R)) : (sumVectors n vs).length = n := by
  simp [sumVectors]

omit [CommRing R] in
theorem flatMap_slices (per n : ℕ) (f : ℕ → R) :
    ((parties n).flatMap fun j => (List.range per).map fun i => f ((j - 1) * per + i)) =
      (List.range (n * per)).map f := by
  induction n with
  | zero => simp [parties]
  | succ n ih =>
    rw [parties, List.range'_1_concat, List.flatMap_append, ← parties, ih, Nat.succ_mul,
      List.range_add, List.map_append]
    simp

omit [CommRing R] in
/-- The slices of all parties, the last one with the remainder, cover the whole. -/
theorem flatMap_commSize {nP : ℕ} (hnP : 1 ≤ nP) (total : ℕ) (f : ℕ → R) :
    ((parties nP).flatMap fun j =>
      (List.range (commSize nP total j)).map fun i => f ((j - 1) * (total / nP) + i)) =
      (List.range total).map f := by
  obtain ⟨n, rfl⟩ : ∃ n, nP = n + 1 := ⟨nP - 1, by omega⟩
  have hbelow : ∀ j ∈ parties n,
      ((List.range (commSize (n + 1) total j)).map fun i => f ((j - 1) * (total / (n + 1)) + i)) =
        (List.range (total / (n + 1))).map fun i => f ((j - 1) * (total / (n + 1)) + i) := by
    intro j hj
    have hne : j ≠ n + 1 := by
      have := (mem_parties.mp hj).2
      omega
    simp only [commSize, if_neg hne]
  have hsum : n * (total / (n + 1)) + (total / (n + 1) + total % (n + 1)) = total := by
    have h := Nat.div_add_mod total (n + 1)
    rw [Nat.add_mul, one_mul] at h
    omega
  rw [parties, List.range'_1_concat, List.flatMap_append, ← parties, List.flatMap_congr hbelow,
    flatMap_slices]
  have hlast : ((List.range (commSize (n + 1) total (1 + n))).map fun i =>
      f ((1 + n - 1) * (total / (n + 1)) + i)) =
      (List.range (total / (n + 1) + total % (n + 1))).map fun i =>
        f (n * (total / (n + 1)) + i) := by
    simp [commSize, Nat.add_comm 1 n]
  rw [List.flatMap_singleton, hlast]
  conv_rhs => rw [← hsum, List.range_add, List.map_append, List.map_map]
  rfl

theorem sumVectors_slices {nP total j : ℕ} {shares : ℕ → List R}
    (hlen : ∀ i ∈ parties nP, (shares i).length = total) :
    sumVectors (commSize nP total j) ((parties nP).map fun i => commSlice nP j (shares i)) =
      (List.range (commSize nP total j)).map fun k =>
        ∑ i ∈ Finset.Icc 1 nP, (shares i).getD ((j - 1) * (total / nP) + k) 0 := by
  refine List.map_congr_left fun k hk => ?_
  rw [List.map_map, sum_parties]
  refine Finset.sum_congr rfl fun i hi => ?_
  have hi' := hlen i (mem_parties.mpr (Finset.mem_Icc.mp hi))
  have hk' := List.mem_range.mp hk
  simp [commSlice, hi', List.getD_eq_getElem?_getD, hk']

/-- The sums of all parties, one after the other, are the opened values. -/
theorem flatMap_sumVectors {nP total : ℕ} (hnP : 1 ≤ nP) {shares : ℕ → List R}
    (hlen : ∀ i ∈ parties nP, (shares i).length = total) :
    ((parties nP).flatMap fun j => sumVectors (commSize nP total j)
      ((parties nP).map fun i => commSlice nP j (shares i))) = openedValues nP total shares := by
  simp only [sumVectors_slices hlen]
  exact flatMap_commSize hnP total fun k => ∑ i ∈ Finset.Icc 1 nP, (shares i).getD k 0

/-- A round among the parties `1..nP`, in which the trusted party does nothing. -/
theorem completes_parties {α : Type} {nP : ℕ} {P : ℕ → Proc ℕ α} {r : ℕ → α} (a : α)
    (msg : ℕ → ℕ → Bytes) (h : ∀ i ∈ parties nP,
      Does (P i) (((parties nP).filter (· ≠ i)).map (fun j => .out j (msg i j)) ++
        ((parties nP).filter (· ≠ i)).map (fun j => .inp j (msg j i))) (r i)) :
    Completes (Finset.range (nP + 1)) (fun i => if i = 0 then pure a else P i)
      fun i => if i = 0 then a else r i := by
  have hnd : (parties nP).Nodup := List.nodup_range'
  refine completes_others hnd (fun i hi => ?_) msg (fun i hi => ?_) fun i hi hout => ?_
  · have hle := (mem_parties.mp hi).2
    exact Finset.mem_range.mpr (Nat.lt_succ_of_le hle)
  · have hne : i ≠ 0 := by
      have := (mem_parties.mp hi).1
      omega
    rw [if_neg hne, if_neg hne]
    exact h i hi
  · have hzero : i = 0 := by
      rw [Finset.mem_range] at hi
      rw [mem_parties] at hout
      omega
    rw [if_pos hzero, if_pos hzero]
    exact .done a

omit [CommRing R] in
/-- A round of `openShares` with vectors of the sizes expected. -/
theorem exchange_does (codec : Codec R) (nP id : ℕ) (out : ℕ → Bytes) (x : ℕ → List R) (size : ℕ → ℕ)
    (hx : ∀ pid ∈ parties nP, (x pid).length = size pid) :
    Does (exchange (parties nP) id out (fun pid => codec.size (size pid)) (x id)
        fun pid => codec.decode (size pid))
      (((parties nP).filter (· ≠ id)).map (fun pid => .out pid (out pid)) ++
        ((parties nP).filter (· ≠ id)).map (fun pid => .inp pid (codec.encode (x pid))))
      ((parties nP).map x) := by
  have hread : (parties nP).map (fun pid =>
      if pid = id then x id else codec.decode (size pid) (codec.encode (x pid))) =
      (parties nP).map x := by
    refine List.map_congr_left fun pid hpid => ?_
    by_cases h : pid = id
    · rw [if_pos h, h]
    · rw [if_neg h, codec.decode_encode' (hx pid hpid)]
  rw [← hread]
  refine does_exchange _ _ _ _ fun pid hpid _ => ?_
  rw [codec.encode_length, hx pid hpid]

omit [CommRing R] in
/-- A round in which party `i` sends the vector `vec i j` to party `j`, which expects `num j i`
elements. -/
theorem completes_vectors (codec : Codec R) {nP : ℕ} (vec : ℕ → ℕ → List R) (num : ℕ → ℕ → ℕ)
    (hnum : ∀ i ∈ parties nP, ∀ j ∈ parties nP, (vec j i).length = num i j) :
    Completes (Finset.range (nP + 1))
      (fun i => if i = 0 then pure [] else exchange (parties nP) i
        (fun j => codec.encode (vec i j)) (fun j => codec.size (num i j)) (vec i i)
        fun j => codec.decode (num i j))
      fun i => if i = 0 then [] else (parties nP).map fun j => vec j i :=
  completes_parties [] (fun i j => codec.encode (vec i j)) fun i hi =>
    exchange_does codec nP i (fun j => codec.encode (vec i j)) (fun j => vec j i) (num i) (hnum i hi)

/-- The opening completes, and everybody but the trusted party has the opened values. -/
theorem open_completes (codec : Codec R) {nP : ℕ} (hnP : 1 ≤ nP) {shares : ℕ → List R} {total : ℕ}
    (hlen : ∀ i ∈ parties nP, (shares i).length = total) :
    Completes (Finset.range (nP + 1))
      (fun id => if id = 0 then pure [] else openShares codec nP id (shares id))
      fun id => if id = 0 then [] else openedValues nP total shares := by
  let size := commSize nP total
  let slices : ℕ → List (List R) := fun j => (parties nP).map fun i => commSlice nP j (shares i)
  let send : ℕ → List (List R) → Proc ℕ (List R) := fun id vs =>
    if id = 0 then pure [] else do
      let agg_values_send := sumVectors (size id) vs
      let agg_values ← exchange (parties nP) id (fun _ => codec.encode agg_values_send)
        (fun pid => codec.size (size pid)) agg_values_send fun pid => codec.decode (size pid)
      pure agg_values.flatten
  have hslices := completes_vectors codec (fun i j => commSlice nP j (shares i)) (fun i _ => size i)
    fun i _ j hj => by rw [commSlice_length, hlen j hj]
  have hsums := completes_vectors codec (fun i _ => sumVectors (size i) (slices i))
    (fun _ j => size j) fun i (hi : i ∈ parties nP) j _ => sumVectors_length _ _
  have hsend : Completes (Finset.range (nP + 1))
      (fun id => send id (if id = 0 then [] else slices id))
      fun id => if id = 0 then [] else openedValues nP total shares := by
    refine (hsums.map fun _ vs => vs.flatten).congr (fun i _ => ?_) fun i _ => ?_
    · by_cases h : i = 0
      · simp only [send, if_pos h]
        rfl
      · simp only [send, if_neg h]
    · by_cases h : i = 0
      · simp only [if_pos h, List.flatten_nil]
      · simp only [if_neg h, slices, size, ← List.flatMap_def]
        exact flatMap_sumVectors hnP hlen
  refine (hslices.bind hsend).congr (fun i hi => ?_) fun _ _ => rfl
  by_cases h : i = 0
  · simp only [send, if_pos h]
    rfl
  · have hi' : i ∈ parties nP := by
      rw [Finset.mem_range] at hi
      rw [mem_parties]
      omega
    simp only [send, if_neg h, openShares, hlen i hi', size]

theorem openedValues_congr {nP n : ℕ} {v w : ℕ → List R} (h : ∀ i ∈ parties nP, v i = w i) :
    openedValues nP n v = openedValues nP n w :=
  List.map_congr_left fun _ _ => Finset.sum_congr rfl fun i hi => by
    rw [h i (mem_parties.mpr (Finset.mem_Icc.mp hi))]

/-! ## Opening batches -/

theorem openedValues_append {nP n k : ℕ} {v w : ℕ → List R}
    (hv : ∀ i ∈ parties nP, (v i).length = n) :
    openedValues nP (n + k) (fun i => v i ++ w i) = openedValues nP n v ++ openedValues nP k w := by
  have hlen : ∀ i ∈ Finset.Icc 1 nP, (v i).length = n := fun i hi =>
    hv i (mem_parties.mpr (Finset.mem_Icc.mp hi))
  rw [openedValues, List.range_add, List.map_append, List.map_map]
  refine congrArg₂ _ (List.map_congr_left fun j hj => ?_) (List.map_congr_left fun j _ => ?_)
  · refine Finset.sum_congr rfl fun i hi => ?_
    have hj' : j < (v i).length := hlen i hi ▸ List.mem_range.mp hj
    simp [List.getD_eq_getElem?_getD, List.getElem?_append_left hj']
  · refine Finset.sum_congr rfl fun i hi => ?_
    simp [List.getD_eq_getElem?_getD, ← hlen i hi, List.getElem?_append_right]

@[simp] theorem openedValues_length (nP n : ℕ) (v : ℕ → List R) :
    (openedValues nP n v).length = n := by
  simp [openedValues]

variable {κ J : Type} [DecidableEq κ]

omit [DecidableEq κ] in
theorem openedValues_concat {nP : ℕ} {ts : List κ} {bs : ℕ → κ → List R} {num : κ → ℕ}
    (hlen : ∀ i ∈ parties nP, ∀ t ∈ ts, (bs i t).length = num t) :
    openedValues nP (ts.map num).sum (fun i => concat ts (bs i)) =
      concat ts fun t => openedValues nP (num t) fun i => bs i t := by
  induction ts with
  | nil => rfl
  | cons t ts ih =>
    have ht := fun i hi => hlen i hi t List.mem_cons_self
    have hts := ih fun i hi t ht => hlen i hi t (List.mem_cons_of_mem _ ht)
    simp only [concat, List.flatMap_cons, List.map_cons, List.sum_cons] at hts ⊢
    rw [openedValues_append ht, hts]

theorem split_openedValues {nP : ℕ} {ts : List κ} (hts : ts.Nodup) {bs : ℕ → κ → List R}
    {num : κ → ℕ} (hlen : ∀ i ∈ parties nP, ∀ t ∈ ts, (bs i t).length = num t) {t : κ}
    (ht : t ∈ ts) :
    split num ts (openedValues nP (ts.map num).sum fun i => concat ts (bs i)) t =
      openedValues nP (num t) fun i => bs i t := by
  rw [openedValues_concat hlen]
  exact split_concat hts (fun t _ => openedValues_length nP (num t) _) ht

/-- The opened values of the jobs of one kind: for each job, the sum of the shares. -/
theorem openedValues_batch (nP : ℕ) (kind : J → κ) (jobs : List J) (f : ℕ → J → R) (t : κ) :
    openedValues nP (jobs.countP fun j => kind j = t) (fun i => batch kind jobs (f i) t) =
      batch kind jobs (fun j => ∑ i ∈ Finset.Icc 1 nP, f i j) t := by
  refine List.ext_getElem (by simp) fun k h1 h2 => ?_
  have hk : k < (jobs.filter fun j => kind j = t).length := by
    rw [← List.countP_eq_length_filter]
    simpa using h1
  simp [openedValues, batch, List.getD_eq_getElem?_getD, hk]

end Opening

end QSync
