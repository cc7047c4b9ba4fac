import QSync.Asterisk.Opening
import QSync.Foundations.Buffers

/-! # The loops of the load-balanced opening

The opening of `OnlineEvaluator::evaluateGatesAtDepth` and of `BoolEval::evaluateGatesAtDepth`
(`asterisk/online_evaluator_load_balanced.cpp`), loop by loop, with checked accesses. The two differ
in the wire format of a vector. `open_loops_completes`: nobody gets stuck, and everybody has the sums
of the shares, as after `openShares`.
-/

namespace QSync
open Network Buffers
set_option autoImplicit false
set_option maxHeartbeats 250000

/-! ## The slices -/

/-- The first index of the slice of party `pid`. -/
def commStart (nP total_comm pid : ℕ) : ℕ := (pid - 1) * (total_comm / nP)

theorem commStart_succ (nP total k : ℕ) : commStart nP total (k + 1) = k * (total / nP) := rfl

/-- The slice of party `pid` ends within the vector, the last one at its end. -/
theorem commStart_add_size {nP pid : ℕ} (h : pid ∈ parties nP) (total : ℕ) :
    commStart nP total pid + commSize nP total pid ≤ total ∧
      (pid = nP → commStart nP total pid + commSize nP total pid = total) := by
  obtain ⟨h1, hn⟩ := mem_parties.mp h
  obtain ⟨k, rfl⟩ : ∃ k, pid = k + 1 := ⟨pid - 1, by omega⟩
  have hdiv := Nat.div_add_mod total nP
  rw [commStart_succ]
  obtain rfl | hlt := hn.eq_or_lt
  · have hend : k * (total / (k + 1)) + (total / (k + 1) + total % (k + 1)) = total := by
      rw [Nat.succ_mul] at hdiv
      omega
    simp only [commSize, if_true]
    exact ⟨hend.le, fun _ => hend⟩
  · have hmul : (k + 1) * (total / nP) ≤ nP * (total / nP) := Nat.mul_le_mul_right _ hn
    rw [Nat.succ_mul] at hmul
    simp only [commSize, if_neg hlt.ne]
    exact ⟨by omega, fun he => absurd he hlt.ne⟩

/-- A slice ends where the later ones have not started. -/
theorem commStart_le {nP p q : ℕ} (hp : p ∈ parties nP) (hq : q ∈ parties nP) (h : p < q)
    (total : ℕ) :
    commStart nP total p + commSize nP total p ≤ commStart nP total q := by
  have hp1 := (mem_parties.mp hp).1
  have hqn := (mem_parties.mp hq).2
  have hsucc : p - 1 + 1 ≤ q - 1 := by omega
  rw [commSize, if_neg (by omega), commStart, commStart, ← Nat.succ_mul]
  exact Nat.mul_le_mul_right _ hsucc

/-- Every index below `total` is in the slice of exactly one party. -/
theorem slices_partition {nP : ℕ} (hnP : 1 ≤ nP) {total k : ℕ} (hk : k < total) :
    ∃! pid, pid ∈ parties nP ∧ commStart nP total pid ≤ k ∧
      k < commStart nP total pid + commSize nP total pid := by
  have hmem : k ∈ (List.range total).map id := by simpa using hk
  rw [← flatMap_commSize hnP] at hmem
  obtain ⟨pid, hpid, hslice⟩ := List.mem_flatMap.mp hmem
  obtain ⟨i, hi, rfl⟩ := List.mem_map.mp hslice
  rw [List.mem_range] at hi
  refine ⟨pid, ⟨hpid, Nat.le_add_right _ _, Nat.add_lt_add_left hi _⟩, ?_⟩
  rintro q ⟨hq, hle, hlt⟩
  simp only [id_eq] at hle hlt
  obtain hlt' | rfl | hgt := Nat.lt_trichotomy q pid
  · have hend := commStart_le hq hpid hlt' total
    simp only [commStart] at hend hlt
    omega
  · rfl
  · have hend := commStart_le hpid hq hgt total
    simp only [commStart] at hend hle
    omega

/-! ## The six loops -/

section Loops
variable {R : Type} [CommRing R]

/-- `online_comm_to_party[i] = online_comm_to_TP[off + i]` for `i < size`. -/
def copy_range (online_comm_to_TP : List R) (off size : ℕ) : Option (List R) :=
  (List.range size).foldlM (fun online_comm_to_party i => do
    let x ← online_comm_to_TP[off + i]?
    store online_comm_to_party i x) (List.replicate size 0)

/-- `agg[start + i] += src[off + i]` for `i < size`. -/
def add_range (agg : List R) (start : ℕ) (src : List R) (off size : ℕ) : Option (List R) :=
  (List.range size).foldlM (fun agg i => do
    let x ← src[off + i]?
    modifyAt agg (start + i) (· + x)) agg

variable (codec : Codec R) (nP id per_party_comm last_party_comm : ℕ)

/-- Every other party is sent its slice of the shares. -/
def send_slices (online_comm_to_TP : List R) : Proc ℕ Unit :=
  (parties nP).forM fun pid =>
    if id = pid then pure ()
    else if pid ≠ nP then do
      let online_comm_to_party ← Proc.ofOption
        (copy_range online_comm_to_TP ((pid - 1) * per_party_comm) per_party_comm)
      Proc.sendTo pid (codec.encode online_comm_to_party)
    else do
      let online_comm_to_party ← Proc.ofOption
        (copy_range online_comm_to_TP ((pid - 1) * per_party_comm) last_party_comm)
      Proc.sendTo pid (codec.encode online_comm_to_party)

/-- `agg_values_send` and `agg_values_send_last`: the sums of the slices for this party, in the
second for party `nP`. -/
def sum_slices (online_comm_to_TP : List R) : Proc ℕ (List R × List R) :=
  (parties nP).foldlM (fun (agg : List R × List R) pid =>
    if id = pid then
      if id ≠ nP then do
        let send ← Proc.ofOption
          (add_range agg.1 0 online_comm_to_TP ((pid - 1) * per_party_comm) per_party_comm)
        pure (send, agg.2)
      else do
        let send_last ← Proc.ofOption
          (add_range agg.2 0 online_comm_to_TP ((pid - 1) * per_party_comm) last_party_comm)
        pure (agg.1, send_last)
    else if id ≠ nP then do
      let net_data ← Proc.recvFrom pid (codec.size per_party_comm)
      let recv := codec.decode per_party_comm net_data
      let send ← Proc.ofOption (add_range agg.1 0 recv 0 per_party_comm)
      pure (send, agg.2)
    else do
      let net_data ← Proc.recvFrom pid (codec.size last_party_comm)
      let recv := codec.decode last_party_comm net_data
      let send_last ← Proc.ofOption (add_range agg.2 0 recv 0 last_party_comm)
      pure (agg.1, send_last))
    (List.replicate per_party_comm 0, List.replicate last_party_comm 0)

/-- Every other party is sent the sums. -/
def send_sums (agg_values_send agg_values_send_last : List R) : Proc ℕ Unit :=
  (parties nP).forM fun pid =>
    if id = pid then pure ()
    else if id ≠ nP then Proc.sendTo pid (codec.encode agg_values_send)
    else Proc.sendTo pid (codec.encode agg_values_send_last)

/-- `agg_values`: the sums of all parties, each at the place of its slice. -/
def collect_sums (total_comm : ℕ) (agg_values_send agg_values_send_last : List R) :
    Proc ℕ (List R) :=
  (parties nP).foldlM (fun agg_values pid =>
    if id = pid then
      if id ≠ nP then
        Proc.ofOption
          (add_range agg_values ((pid - 1) * per_party_comm) agg_values_send 0 per_party_comm)
      else
        Proc.ofOption
          (add_range agg_values ((pid - 1) * per_party_comm) agg_values_send_last 0 last_party_comm)
    else if pid ≠ nP then do
      let net_data ← Proc.recvFrom pid (codec.size per_party_comm)
      let agg_values_recv := codec.decode per_party_comm net_data
      Proc.ofOption
        (add_range agg_values ((pid - 1) * per_party_comm) agg_values_recv 0 per_party_comm)
    else do
      let net_data ← Proc.recvFrom pid (codec.size last_party_comm)
      let agg_values_recv := codec.decode last_party_comm net_data
      Proc.ofOption
        (add_range agg_values ((pid - 1) * per_party_comm) agg_values_recv 0 last_party_comm))
    (List.replicate total_comm 0)

/-- The opening at party `id`. `floor` of the integer quotient is the quotient. -/
def open_loops (online_comm_to_TP : List R) : Proc ℕ (List R) := do
  let total_comm := online_comm_to_TP.length
  let per_party_comm := total_comm / nP
  let last_party_comm := per_party_comm + total_comm % nP
  send_slices codec nP id per_party_comm last_party_comm online_comm_to_TP
  let agg ← sum_slices codec nP id per_party_comm last_party_comm online_comm_to_TP
  send_sums codec nP id agg.1 agg.2
  collect_sums codec nP id per_party_comm last_party_comm total_comm agg.1 agg.2

end Loops

/-- The opening of `OnlineEvaluator::evaluateGatesAtDepth`, of field elements. -/
def OnlineEvaluator.open_values (M : Modulus) (nP id : ℕ) (online_comm_to_TP : List (Field M)) :
    Proc ℕ (List (Field M)) :=
  open_loops (fieldCodec M) nP id online_comm_to_TP

/-- The opening of `BoolEval::evaluateGatesAtDepth`, of packed bits. -/
def BoolEval.open_values (nP id : ℕ) (online_comm_to_TP : List BoolRing) : Proc ℕ (List BoolRing) :=
  open_loops bitCodec nP id online_comm_to_TP

/-! ## One range -/

section Ranges
variable {R : Type} [CommRing R]

theorem copy_range_eq {l : List R} {off size : ℕ} (h : off + size ≤ l.length) :
    copy_range l off size = some ((List.range size).map fun i => l.getD (off + i) 0) := by
  have hturn : ∀ (buf : List R), ∀ i < (List.replicate size (0 : R)).length,
      (l[off + i]?.bind fun x => store buf i x) =
        modifyAt buf (([] : List R).length + i) fun _ => l.getD (off + i) 0 := by
    intro buf i hi
    rw [List.length_replicate] at hi
    have hlt : off + i < l.length := by omega
    rw [List.getElem?_eq_getElem hlt, Option.bind_some, List.length_nil, Nat.zero_add, store,
      List.getD_eq_getElem _ _ hlt]
  have hloop := foldlM_modifyAt [] (List.replicate size 0) [] hturn
  rw [List.length_replicate, List.nil_append, List.append_nil, List.nil_append,
    List.append_nil] at hloop
  refine hloop.trans (congrArg some ?_)
  apply List.ext_getElem
  · simp
  · intro i h1 h2
    simp

theorem add_range_eq (pre mid post : List R) {src : List R} {off : ℕ}
    (h : off + mid.length ≤ src.length) :
    add_range (pre ++ mid ++ post) pre.length src off mid.length =
      some (pre ++ mid.mapIdx (fun i x => x + src.getD (off + i) 0) ++ post) := by
  refine foldlM_modifyAt pre mid post fun buf i hi => ?_
  have hlt : off + i < src.length := by omega
  rw [List.getElem?_eq_getElem hlt, List.getD_eq_getElem _ _ hlt]
  rfl

/-- One more vector is added to the sums. -/
theorem add_range_sumVectors {n off : ℕ} (vs : List (List R)) {src : List R}
    (h : off + n ≤ src.length) :
    add_range (sumVectors n vs) 0 src off n =
      some (sumVectors n (vs ++ [(List.range n).map fun i => src.getD (off + i) 0])) := by
  have hle : off + (sumVectors n vs).length ≤ src.length := by rwa [sumVectors_length]
  have hadd := add_range_eq [] (sumVectors n vs) [] hle
  rw [sumVectors_length, List.nil_append, List.append_nil, List.nil_append, List.append_nil] at hadd
  refine hadd.trans (congrArg some ?_)
  apply List.ext_getElem
  · simp
  · intro i h1 h2
    have hi : i < n := by simpa using h2
    simp [sumVectors, hi]

/-- A vector is written where the sums are still zero. -/
theorem add_range_zeros (pre post : List R) (v : List R) :
    add_range (pre ++ List.replicate v.length 0 ++ post) pre.length v 0 v.length =
      some (pre ++ v ++ post) := by
  have hle : 0 + (List.replicate v.length (0 : R)).length ≤ v.length := by simp
  have hadd := add_range_eq pre (List.replicate v.length 0) post hle
  rw [List.length_replicate] at hadd
  have hv : (List.replicate v.length (0 : R)).mapIdx (fun i x => x + v.getD (0 + i) 0) = v := by
    apply List.ext_getElem
    · simp
    · intro i h1 h2
      simp [h2]
  rw [hadd, hv]

theorem sumVectors_nil (n : ℕ) : sumVectors n ([] : List (List R)) = List.replicate n 0 := by
  simp [sumVectors, List.map_const']

end Ranges

/-! ## One party alone -/

section Parties
variable {R : Type} [CommRing R] (codec : Codec R) {nP id total : ℕ}

/-- The other parties, as a party's loops visit them. -/
theorem flatMap_others_ite (nP id : ℕ) (e : ℕ → Event ℕ) :
    ((parties nP).flatMap fun pid => if id = pid then [] else [e pid]) =
      ((parties nP).filter (· ≠ id)).map e := by
  simp only [eq_comm (a := id)]
  exact flatMap_others (parties nP) id e

omit [CommRing R] in
/-- The branches for the last party and for the others differ in the size of the slice. -/
theorem does_ite {β : Type} {pid : ℕ} (F : ℕ → Proc ℕ β) {es : List (Event ℕ)} {r : β}
    (h : Does (F (commSize nP total pid)) es r) :
    Does (if pid ≠ nP then F (total / nP) else F (total / nP + total % nP)) es r := by
  rw [commSize] at h
  by_cases hlast : pid = nP
  · rw [if_neg (not_not.mpr hlast)]
    rwa [if_pos hlast] at h
  · rw [if_pos hlast]
    rwa [if_neg hlast] at h

omit [CommRing R] in
/-- A vector is received and used. -/
theorem recv_vector_does {β : Type} (f : List R → Option β) {pid size : ℕ} {v : List R}
    (hv : v.length = size) {r : β} (hf : f v = some r) :
    Does (do
      let net_data ← Proc.recvFrom pid (codec.size size)
      Proc.ofOption (f (codec.decode size net_data))) [.inp pid (codec.encode v)] r := by
  have hdecode : codec.decode size (codec.encode v) = v := codec.decode_encode' hv
  have hsize : (codec.encode v).length = codec.size size := by rw [codec.encode_length, hv]
  refine .recv' hsize ?_
  rw [Proc.bind, hdecode]
  exact .ofOption hf

theorem send_slices_does {online : List R} (hlen : online.length = total) :
    Does (send_slices codec nP id (total / nP) (total / nP + total % nP) online)
      (((parties nP).filter (· ≠ id)).map fun pid =>
        .out pid (codec.encode (commSlice nP pid online))) () := by
  rw [← flatMap_others_ite]
  refine .forM (parties nP) fun pid hpid => ?_
  have hle := (commStart_add_size hpid total).1
  rw [← hlen] at hle
  have hcopy := copy_range_eq hle
  rw [commStart, hlen] at hcopy
  have hslice : commSlice nP pid online = (List.range (commSize nP total pid)).map fun i =>
      online.getD ((pid - 1) * (total / nP) + i) 0 := by
    rw [commSlice, hlen]
  rw [← hslice] at hcopy
  by_cases hid : id = pid
  · rw [if_pos hid, if_pos hid]
    exact .done ()
  · rw [if_neg hid, if_neg hid]
    refine does_ite (fun size => do
      let online_comm_to_party ← Proc.ofOption
        (copy_range online ((pid - 1) * (total / nP)) size)
      Proc.sendTo pid (codec.encode online_comm_to_party)) ?_
    exact (Does.ofOption hcopy).bind (.send (.done ()))

/-- A vector of sums in the place of the pair that party `id` uses. -/
def aggPair (nP id total : ℕ) (sums : List R) : List R × List R :=
  if id ≠ nP then (sums, List.replicate (total / nP + total % nP) 0)
  else (List.replicate (total / nP) 0, sums)

/-- The branches of a turn that reads party `id`'s vector of the pair. -/
theorem does_aggPair {β : Type} (F : ℕ → List R → Proc ℕ β) {sums : List R} {es : List (Event ℕ)}
    {r : β} (h : Does (F (commSize nP total id) sums) es r) :
    Does (if id ≠ nP then F (total / nP) (aggPair nP id total sums).1
      else F (total / nP + total % nP) (aggPair nP id total sums).2) es r := by
  rw [commSize] at h
  rw [aggPair]
  by_cases hlast : id = nP
  · rw [if_neg (not_not.mpr hlast), if_neg (not_not.mpr hlast)]
    rwa [if_pos hlast] at h
  · rw [if_pos hlast, if_pos hlast]
    rwa [if_neg hlast] at h

/-- The branches of a turn that updates it. -/
theorem does_updatePair (F : ℕ → List R → Proc ℕ (List R)) {sums sums' : List R}
    {es : List (Event ℕ)} (h : Does (F (commSize nP total id) sums) es sums') :
    Does (if id ≠ nP then do
        let send ← F (total / nP) (aggPair nP id total sums).1
        pure (send, (aggPair nP id total sums).2)
      else do
        let send_last ← F (total / nP + total % nP) (aggPair nP id total sums).2
        pure ((aggPair nP id total sums).1, send_last)) es (aggPair nP id total sums') := by
  rw [commSize] at h
  simp only [aggPair]
  by_cases hlast : id = nP
  · simp only [if_neg (not_not.mpr hlast)]
    rw [if_pos hlast] at h
    have hpair := h.bind (f := fun send_last => pure (List.replicate (total / nP) (0 : R), send_last))
      (.done _)
    rw [List.append_nil] at hpair
    exact hpair
  · simp only [if_pos hlast]
    rw [if_neg hlast] at h
    have hpair := h.bind
      (f := fun send => pure (send, List.replicate (total / nP + total % nP) (0 : R))) (.done _)
    rw [List.append_nil] at hpair
    exact hpair

theorem sum_slices_does (hid : id ∈ parties nP) {online : List R} (hlen : online.length = total)
    {v : ℕ → List R} (hv : ∀ pid ∈ parties nP, (v pid).length = commSize nP total id)
    (hown : v id = commSlice nP id online) :
    Does (sum_slices codec nP id (total / nP) (total / nP + total % nP) online)
      (((parties nP).filter (· ≠ id)).map fun pid => .inp pid (codec.encode (v pid)))
      (aggPair nP id total (sumVectors (commSize nP total id) ((parties nP).map v))) := by
  let st : List ℕ → List R × List R := fun done =>
    aggPair nP id total (sumVectors (commSize nP total id) (done.map v))
  have hinit : st [] =
      (List.replicate (total / nP) 0, List.replicate (total / nP + total % nP) 0) := by
    simp only [st, aggPair, List.map_nil, sumVectors_nil, commSize]
    by_cases h : id = nP
    · rw [if_neg (not_not.mpr h), if_pos h]
    · rw [if_pos h, if_neg h]
  rw [← flatMap_others_ite, sum_slices, ← hinit]
  refine .foldlM st (parties nP) fun done pid rest hsplit => ?_
  have hvp : (v pid).length = commSize nP total id := hv pid (by rw [hsplit]; simp)
  have hlist : (List.range (commSize nP total id)).map (fun i => (v pid).getD (0 + i) 0) =
      v pid := by
    apply List.ext_getElem
    · simp [hvp]
    · intro i h1 h2
      simp [h2]
  have hnext : (done ++ [pid]).map v = done.map v ++ [v pid] := by simp
  have hrecv : add_range (sumVectors (commSize nP total id) (done.map v)) 0 (v pid) 0
      (commSize nP total id) = some (sumVectors (commSize nP total id) ((done ++ [pid]).map v)) := by
    rw [add_range_sumVectors _ (by rw [hvp]; omega), hlist, hnext]
  by_cases hpid : id = pid
  · -- its own slice
    subst hpid
    have hle := (commStart_add_size hid total).1
    rw [← hlen] at hle
    have hadd := add_range_sumVectors (done.map v) hle
    have hslice : (List.range (commSize nP online.length id)).map
        (fun i => online.getD (commStart nP online.length id + i) 0) = v id := hown.symm
    rw [hslice, ← hnext, commStart, hlen] at hadd
    rw [if_pos rfl, if_pos rfl]
    exact does_updatePair (fun size agg => Proc.ofOption
      (add_range agg 0 online ((id - 1) * (total / nP)) size)) (.ofOption hadd)
  · rw [if_neg hpid, if_neg hpid]
    exact does_updatePair (fun size agg => do
      let net_data ← Proc.recvFrom pid (codec.size size)
      Proc.ofOption (add_range agg 0 (codec.decode size net_data) 0 size))
      (recv_vector_does codec (fun recv => add_range _ 0 recv 0 _) hvp hrecv)

theorem send_sums_does (sums : List R) :
    Does (send_sums codec nP id (aggPair nP id total sums).1 (aggPair nP id total sums).2)
      (((parties nP).filter (· ≠ id)).map fun pid => .out pid (codec.encode sums)) () := by
  rw [← flatMap_others_ite]
  refine .forM (parties nP) fun pid _ => ?_
  by_cases hid : id = pid
  · rw [if_pos hid, if_pos hid]
    exact .done ()
  · rw [if_neg hid, if_neg hid]
    exact does_aggPair (fun _ agg => Proc.sendTo pid (codec.encode agg)) (.send (.done ()))

/-- The parties visited before `pid`. -/
theorem parties_split {nP pid : ℕ} {done rest : List ℕ} (h : parties nP = done ++ pid :: rest) :
    done = parties (pid - 1) := by
  have hlen : done.length < (parties nP).length := by
    rw [h]
    simp
  have hpid : (parties nP)[done.length]? = some pid := by
    rw [h]
    simp
  have htake : (parties nP).take done.length = done := by
    rw [h, List.take_left]
  rw [parties, List.length_range'] at hlen
  rw [parties, List.getElem?_range' hlen] at hpid
  have hk : 1 + done.length = pid := by simpa using hpid
  rw [parties, List.take_range'_of_length_ge hlen.le] at htake
  rw [← htake, ← hk, Nat.add_sub_cancel_left]
  rfl

theorem collect_sums_does {w : ℕ → List R} (hw : ∀ pid, (w pid).length = commSize nP total pid)
    (hnP : 1 ≤ nP) :
    Does (collect_sums codec nP id (total / nP) (total / nP + total % nP) total
        (aggPair nP id total (w id)).1 (aggPair nP id total (w id)).2)
      (((parties nP).filter (· ≠ id)).map fun pid => .inp pid (codec.encode (w pid)))
      ((parties nP).flatMap w) := by
  let st : List ℕ → List R := fun done =>
    done.flatMap w ++ List.replicate (total - (done.flatMap w).length) 0
  have hall : ((parties nP).flatMap w).length = total := by
    have h := congrArg List.length (flatMap_commSize hnP total fun k => k)
    simpa [List.length_flatMap, hw] using h
  have hend : st (parties nP) = (parties nP).flatMap w := by
    simp only [st]
    rw [hall, Nat.sub_self, List.replicate_zero, List.append_nil]
  have hinit : st [] = List.replicate total 0 := by
    simp [st]
  rw [← flatMap_others_ite, collect_sums, ← hend, ← hinit]
  refine .foldlM st (parties nP) fun done pid rest hsplit => ?_
  have hmem : pid ∈ parties nP := by
    rw [hsplit]
    simp
  have hstart : (done.flatMap w).length = commStart nP total pid := by
    have hbefore : ∀ j ∈ done, (w j).length = total / nP := by
      intro j hj
      rw [parties_split hsplit, mem_parties] at hj
      have hle := (mem_parties.mp hmem).2
      rw [hw, commSize, if_neg (by omega)]
    rw [List.length_flatMap, List.map_congr_left hbefore, parties_split hsplit, List.map_const',
      List.sum_replicate, parties, List.length_range', smul_eq_mul, commStart]
  have hwrite : add_range (st done) (commStart nP total pid) (w pid) 0 (commSize nP total pid) =
      some (st (done ++ [pid])) := by
    have hle := (commStart_add_size hmem total).1
    have hzeros : List.replicate (total - (done.flatMap w).length) (0 : R) =
        List.replicate (w pid).length 0 ++
          List.replicate (total - ((done ++ [pid]).flatMap w).length) 0 := by
      have hnext : ((done ++ [pid]).flatMap w).length =
          (done.flatMap w).length + (w pid).length := by
        simp
      rw [List.replicate_append_replicate, hnext, hstart, hw]
      congr 1
      omega
    have hadd := add_range_zeros (done.flatMap w)
      (List.replicate (total - ((done ++ [pid]).flatMap w).length) 0) (w pid)
    rw [hstart, hw] at hadd
    simp only [st]
    rw [hzeros, hw, ← List.append_assoc, hadd]
    simp
  by_cases hid : id = pid
  · subst hid
    rw [if_pos rfl, if_pos rfl]
    exact does_aggPair (fun size agg => Proc.ofOption
      (add_range (st done) ((id - 1) * (total / nP)) agg 0 size)) (.ofOption hwrite)
  · rw [if_neg hid, if_neg hid]
    exact does_ite (fun size => do
      let net_data ← Proc.recvFrom pid (codec.size size)
      Proc.ofOption (add_range (st done) ((pid - 1) * (total / nP)) (codec.decode size net_data) 0
        size)) (recv_vector_does codec (fun recv => add_range _ _ recv 0 _) (hw pid) hwrite)

/-- The loops do what `openShares` does: whatever slices `v` and sums `w` of the sizes expected the
others send, both send the same messages and return the same values. -/
theorem open_loops_refines (hnP : 1 ≤ nP) (hid : id ∈ parties nP) {online : List R}
    {v w : ℕ → List R} (hv : ∀ pid ∈ parties nP, (v pid).length = commSize nP online.length id)
    (hvown : v id = commSlice nP id online)
    (hw : ∀ pid, (w pid).length = commSize nP online.length pid)
    (hwown : w id = sumVectors (commSize nP online.length id) ((parties nP).map v)) :
    ∃ es, Does (open_loops codec nP id online) es ((parties nP).flatMap w) ∧
      Does (openShares codec nP id online) es ((parties nP).flatMap w) := by
  let es : List (Event ℕ) :=
    ((parties nP).filter (· ≠ id)).map (fun pid =>
      .out pid (codec.encode (commSlice nP pid online))) ++
    (((parties nP).filter (· ≠ id)).map (fun pid => .inp pid (codec.encode (v pid))) ++
    (((parties nP).filter (· ≠ id)).map (fun pid => .out pid (codec.encode (w id))) ++
    ((parties nP).filter (· ≠ id)).map (fun pid => .inp pid (codec.encode (w pid)))))
  refine ⟨es, ?_, ?_⟩
  · have hsums := sum_slices_does codec hid rfl hv hvown
    rw [← hwown] at hsums
    exact (send_slices_does codec rfl).bind (hsums.bind
      ((send_sums_does codec (w id)).bind (collect_sums_does codec hw hnP)))
  · have hfirst := exchange_does codec nP id
      (fun pid => codec.encode (commSlice nP pid online)) v
      (fun _ => commSize nP online.length id) hv
    have hsecond := exchange_does codec nP id (fun _ => codec.encode (w id)) w
      (commSize nP online.length) fun pid _ => hw pid
    let later : List (List R) → Proc ℕ (List R) := fun vs => do
      let agg_values_send := sumVectors (commSize nP online.length id) vs
      let agg_values ← exchange (parties nP) id (fun _ => codec.encode agg_values_send)
        (fun pid => codec.size (commSize nP online.length pid)) agg_values_send
        fun pid => codec.decode (commSize nP online.length pid)
      pure agg_values.flatten
    have hlater : Does (later ((parties nP).map v))
        ((((parties nP).filter (· ≠ id)).map (fun pid => .out pid (codec.encode (w id))) ++
          ((parties nP).filter (· ≠ id)).map (fun pid => .inp pid (codec.encode (w pid)))) ++ [])
        ((parties nP).flatMap w) := by
      simp only [later, ← hwown]
      exact hsecond.bind (f := fun ws => pure ws.flatten) (.done _)
    have hall := hfirst.bind (f := later) hlater
    rw [List.append_nil, List.append_assoc, hvown] at hall
    exact hall

end Parties

/-! ## All parties together -/

section Together
variable {R : Type} [CommRing R] {α : Type}

theorem open_loops_completes (codec : Codec R) {nP : ℕ} (hnP : 1 ≤ nP) {shares : ℕ → List R}
    {total : ℕ} (hlen : ∀ i ∈ parties nP, (shares i).length = total) :
    Completes (Finset.range (nP + 1))
      (fun id => if id = 0 then pure [] else open_loops codec nP id (shares id))
      fun id => if id = 0 then [] else openedValues nP total shares := by
  let per := total / nP
  let last := total / nP + total % nP
  let sums : ℕ → List R := fun id => sumVectors (commSize nP total id)
    ((parties nP).map fun i => commSlice nP id (shares i))
  let second : ℕ → List R × List R → Proc ℕ (List R) := fun id agg =>
    if id = 0 then pure [] else do
      send_sums codec nP id agg.1 agg.2
      collect_sums codec nP id per last total agg.1 agg.2
  have hfirst : Completes (Finset.range (nP + 1))
      (fun id => if id = 0 then pure ([], []) else do
        send_slices codec nP id per last (shares id)
        sum_slices codec nP id per last (shares id))
      fun id => if id = 0 then ([], []) else aggPair nP id total (sums id) := by
    refine completes_parties _ (fun i j => codec.encode (commSlice nP j (shares i))) fun id hid => ?_
    have hv : ∀ pid ∈ parties nP, (commSlice nP id (shares pid)).length = commSize nP total id := by
      intro pid hpid
      rw [commSlice_length, hlen pid hpid]
    exact (send_slices_does codec (hlen id hid)).bind
      (sum_slices_does codec hid (hlen id hid) hv rfl)
  have hsecond : Completes (Finset.range (nP + 1))
      (fun id => if id = 0 then pure [] else do
        send_sums codec nP id (aggPair nP id total (sums id)).1 (aggPair nP id total (sums id)).2
        collect_sums codec nP id per last total (aggPair nP id total (sums id)).1
          (aggPair nP id total (sums id)).2)
      fun id => if id = 0 then [] else (parties nP).flatMap sums :=
    completes_parties _ (fun i _ => codec.encode (sums i)) fun id hid =>
      (send_sums_does codec (sums id)).bind
        (collect_sums_does codec (fun pid => sumVectors_length _ _) hnP)
  have hall := hfirst.bind (K := second) (hsecond.congr (fun id _ => ?_) fun _ _ => rfl)
  · refine hall.congr (fun id hid => ?_) fun id _ => ?_
    · by_cases h : id = 0
      · simp only [second, if_pos h]
        rfl
      · have hid' : id ∈ parties nP := by
          rw [Finset.mem_range] at hid
          rw [mem_parties]
          omega
        simp only [second, if_neg h, open_loops, hlen id hid', bind_assoc, per, last]
    · simp only [sums, flatMap_sumVectors hnP hlen]
  · by_cases h : id = 0
    · simp only [second, if_pos h]
    · simp only [second, if_neg h]

/-- The slices of the parties partition the values, and every schedule of the opening ends, with
nobody stuck at an access out of bounds, when every party has the sums of the shares: for field
elements and for packed bits, for any number of parties and of values. -/
theorem load_balanced_opening (nP : ℕ) (hnP : 1 ≤ nP) (total_comm : ℕ) :
    (∀ pid ∈ parties nP, commStart nP total_comm pid + commSize nP total_comm pid ≤ total_comm) ∧
    (∀ k < total_comm, ∃! pid, pid ∈ parties nP ∧ commStart nP total_comm pid ≤ k ∧
      k < commStart nP total_comm pid + commSize nP total_comm pid) ∧
    (∀ (M : Modulus) (shares : ℕ → List (Field M)),
      (∀ i ∈ parties nP, (shares i).length = total_comm) →
      Converges (Finset.range (nP + 1))
        (fun id => if id = 0 then pure [] else OnlineEvaluator.open_values M nP id (shares id))
        fun id => if id = 0 then [] else
          (List.range total_comm).map fun k => ∑ i ∈ Finset.Icc 1 nP, (shares i).getD k 0) ∧
    ∀ shares : ℕ → List BoolRing, (∀ i ∈ parties nP, (shares i).length = total_comm) →
      Converges (Finset.range (nP + 1))
        (fun id => if id = 0 then pure [] else BoolEval.open_values nP id (shares id))
        fun id => if id = 0 then [] else
          (List.range total_comm).map fun k => ∑ i ∈ Finset.Icc 1 nP, (shares i).getD k 0 :=
  ⟨fun _ h => (commStart_add_size h total_comm).1, fun _ hk => slices_partition hnP hk,
    fun M _ hlen => (open_loops_completes (fieldCodec M) hnP hlen).converges,
    fun _ hlen => (open_loops_completes bitCodec hnP hlen).converges⟩

/-- Two parties open three field elements and three bits, one in the slice of party 1 and two in that
of party 2. -/
theorem load_balanced_opening_two :
    Converges (Finset.range 3)
        (fun id => if id = 0 then pure [] else
          OnlineEvaluator.open_values testModulus 2 id (if id = 1 then [5, -1, 7] else [1, 2, -7]))
        (fun id => if id = 0 then [] else [6, 1, 0]) ∧
      Converges (Finset.range 3)
        (fun id => if id = 0 then pure [] else
          BoolEval.open_values 2 id (if id = 1 then [true, true, false] else [true, false, true]))
        fun id => if id = 0 then [] else [false, true, true] := by
  obtain ⟨-, -, hfield, hbool⟩ := load_balanced_opening 2 (by decide) 3
  constructor
  · have h := hfield testModulus (fun id => if id = 1 then [5, -1, 7] else [1, 2, -7])
      fun i _ => by
        split <;> rfl
    have hsum : (List.range 3).map (fun k => ∑ i ∈ Finset.Icc 1 2,
        (if i = 1 then [5, -1, 7] else [1, 2, -7] : List (Field testModulus)).getD k 0) =
          [6, 1, 0] := by decide +kernel
    rwa [hsum] at h
  · have h := hbool (fun id => if id = 1 then [true, true, false] else [true, false, true])
      fun i _ => by
        split <;> rfl
    have hsum : (List.range 3).map (fun k => ∑ i ∈ Finset.Icc 1 2,
        (if i = 1 then [true, true, false] else [true, false, true] : List BoolRing).getD k 0) =
          [false, true, true] := by decide
    rwa [hsum] at h

end Together

end QSync
