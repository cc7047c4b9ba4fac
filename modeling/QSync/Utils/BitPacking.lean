import QSync.Foundations.Buffers
import QSync.Utils.Types

/-! # The packing loops

`BoolRing::pack` and `BoolRing::unpack` (`utils/types.cpp`), `packBool` and `unpackBool`
(`utils/helpers.cpp`), `NetIOMP::sendBool` and `NetIOMP::recvBool` (`io/netmp.h`) are two loops: an
index over the bits, shared with an inner loop over the bits of one word. They differ in the width of
the word, in the type of the index and in where the words go. `pack_loop_eq` and `unpack_loop_eq`:
the loops compute `packWords` and `unpackWords`, without an access out of bounds.
-/

namespace QSync
open Network Buffers
set_option autoImplicit false
set_option maxHeartbeats 250000

/-! ## The index -/

/-- `++i` on a `size_t` below the length of a vector. -/
def size_t_incr (i : ℕ) : Option ℕ := some (i + 1)

/-- `++i` on an `int`. `none`: overflow, which is undefined. -/
def int_incr (i : ℕ) : Option ℕ := if i + 1 < 2 ^ 31 then some (i + 1) else none

/-- The index can count up to `len`. -/
def Counts (incr : ℕ → Option ℕ) (len : ℕ) : Prop := ∀ i < len, incr i = some (i + 1)

theorem size_t_counts (len : ℕ) : Counts size_t_incr len := fun _ _ => rfl

theorem int_counts {len : ℕ} (h : len < 2 ^ 31) : Counts int_incr len := by
  intro i hi
  exact if_pos (by omega)

/-! ## Packing -/

section Pack
variable {β : Type} (w : ℕ) (incr : ℕ → Option ℕ) (emit : β → ℕ → β) (data : List Bool) (len : ℕ)

/-- `for (j = 0; j < w && i < len; ++j, ++i) if (data[i]) temp |= (1 << j);`: the word and the
index after it. -/
def pack_word (j i temp : ℕ) : Option (ℕ × ℕ) :=
  if _h : j < w ∧ i < len then do
    let b ← data[i]?
    let i ← incr i
    pack_word (j + 1) i (if b then temp ||| 1 <<< j else temp)
  else some (temp, i)
termination_by w - j

/-- The outer loop, from the index `i` on, for at most `turns` words; `emit` takes them. -/
def pack_loop (turns i : ℕ) (res : β) : Option β :=
  if i < len then
    match turns with
    | 0 => none
    | turns + 1 => do
      let (temp, i) ← pack_word w incr data len 0 i 0
      pack_loop turns i (emit res temp)
  else some res

end Pack

/-- `BoolRing::pack`, with the loop of the source. -/
def BoolRing.pack_data (data : List BoolRing) (len : ℕ) : Option Bytes :=
  pack_loop 8 size_t_incr (fun res temp => res ++ [temp]) data len len 0 []

/-- `packBool`. -/
def packBool (data : List Bool) (len : ℕ) : Option (List ℕ) :=
  pack_loop 64 size_t_incr (fun res temp => res ++ [temp]) data len len 0 []

section PackProofs
variable {β : Type} {w : ℕ} {incr : ℕ → Option ℕ} {data : List Bool}

theorem or_shiftLeft {temp j : ℕ} (h : temp < 2 ^ j) (b : Bool) :
    (if b then temp ||| 1 <<< j else temp) = temp + 2 ^ j * b.toNat := by
  cases b with
  | false => simp
  | true =>
    have hor := Nat.two_pow_add_eq_or_of_lt h 1
    rw [mul_one] at hor
    rw [if_pos rfl, Nat.one_shiftLeft, Nat.lor_comm, ← hor, Bool.toNat_true, mul_one, Nat.add_comm]

/-- The inner loop, with bits `j` to `w` still free in `temp`. -/
theorem pack_word_eq (hincr : Counts incr data.length) {j i temp : ℕ} (hj : j ≤ w)
    (hi : i ≤ data.length) (htemp : temp < 2 ^ j) :
    pack_word w incr data data.length j i temp =
      some (temp + 2 ^ j * packWord ((data.drop i).take (w - j)),
        i + min (w - j) (data.length - i)) := by
  induction hn : w - j generalizing j i temp with
  | zero =>
    rw [pack_word, dif_neg (by omega)]
    simp [packWord]
  | succ n ih =>
    obtain hlt | hge := Nat.lt_or_ge i data.length
    · have hbits : (data.drop i).take (n + 1) = data[i] :: (data.drop (i + 1)).take n := by
        rw [List.drop_eq_getElem_cons hlt, List.take_succ_cons]
      have hnext : temp + 2 ^ j * data[i].toNat < 2 ^ (j + 1) := by
        have hb : 2 ^ j * data[i].toNat ≤ 2 ^ j * 1 := Nat.mul_le_mul_left _ (Bool.toNat_le _)
        rw [pow_succ]
        omega
      have hword : temp + 2 ^ j * data[i].toNat +
          2 ^ (j + 1) * packWord ((data.drop (i + 1)).take n) =
          temp + 2 ^ j * packWord (data[i] :: (data.drop (i + 1)).take n) := by
        rw [packWord, pow_succ]
        ring
      have hend : i + 1 + min n (data.length - (i + 1)) = i + min (n + 1) (data.length - i) := by
        omega
      rw [pack_word, dif_pos (by omega), List.getElem?_eq_getElem hlt, hbits, ← hword, ← hend]
      simp only [Option.bind_eq_bind, Option.bind_some, hincr i hlt, or_shiftLeft htemp]
      exact ih (by omega) hlt hnext (by omega)
    · rw [pack_word, dif_neg (by omega), List.drop_of_length_le hge]
      simp [packWord, Nat.sub_eq_zero_of_le hge]

theorem pack_loop_eq (hw : 0 < w) (hincr : Counts incr data.length) (emit : β → ℕ → β)
    {turns i : ℕ} (hi : i ≤ data.length) (hturns : data.length ≤ turns + i) (res : β) :
    pack_loop w incr emit data data.length turns i res =
      some ((packWords w (data.drop i)).foldl emit res) := by
  induction turns generalizing i res with
  | zero =>
    have hend : ¬ i < data.length := by omega
    rw [pack_loop, if_neg hend, List.drop_of_length_le (by omega), packWords_nil, List.foldl_nil]
  | succ turns ih =>
    obtain hlt | hge := Nat.lt_or_ge i data.length
    · have hne : data.drop i ≠ [] := by simpa using hlt
      have hword : pack_word w incr data data.length 0 i 0 = _ :=
        pack_word_eq hincr (Nat.zero_le w) hi Nat.one_pos
      rw [Nat.sub_zero, pow_zero, one_mul, Nat.zero_add] at hword
      have hdrop : data.drop (i + min w (data.length - i)) = (data.drop i).drop w := by
        rw [List.drop_drop]
        obtain h | h := Nat.le_total w (data.length - i)
        · rw [Nat.min_eq_left h]
        · rw [Nat.min_eq_right h, List.drop_of_length_le (by omega),
            List.drop_of_length_le (by omega)]
      rw [pack_loop, if_pos hlt, hword]
      simp only [Option.bind_eq_bind, Option.bind_some]
      rw [ih (by omega) (by omega), packWords_cons hw hne, List.foldl_cons, hdrop]
    · have hend : ¬ i < data.length := by omega
      rw [pack_loop, if_neg hend, List.drop_of_length_le hge, packWords_nil, List.foldl_nil]

/-- The packers into a vector return the packed words. -/
theorem pack_loop_vector (hw : 0 < w) (hincr : Counts incr data.length) :
    pack_loop w incr (fun res temp => res ++ [temp]) data data.length data.length 0 [] =
      some (packWords w data) := by
  have happend : ∀ (ts res : List ℕ), ts.foldl (fun res temp => res ++ [temp]) res = res ++ ts := by
    intro ts
    induction ts with
    | nil => simp
    | cons t ts ih => simp [ih]
  rw [pack_loop_eq hw hincr _ (Nat.zero_le _) le_rfl, List.drop_zero, happend, List.nil_append]

end PackProofs

/-! ## Unpacking -/

section Unpack
variable {γ : Type} (w : ℕ) (incr : ℕ → Option ℕ) (next : γ → Option (ℕ × γ)) (len : ℕ)

/-- `for (j = w - 1; j >= 0 && i < len; ++i, --j) { data[i] = (temp & 1) == 1; temp >>= 1; }`, with
`j + 1` in the first argument. -/
def unpack_word : ℕ → ℕ → ℕ → List Bool → Option (ℕ × List Bool)
  | 0, i, _, data => some (i, data)
  | j + 1, i, temp, data =>
    if i < len then do
      let data ← store data i (temp &&& 1 == 1)
      let i ← incr i
      unpack_word j i (temp >>> 1) data
    else some (i, data)

/-- The outer loop, from the index `i` on, for at most `turns` words, which `next` gives. -/
def unpack_loop (turns i : ℕ) (s : γ) (data : List Bool) : Option (γ × List Bool) :=
  if i < len then
    match turns with
    | 0 => none
    | turns + 1 => do
      let (temp, s) ← next s
      let (i, data) ← unpack_word incr len w i temp data
      unpack_loop turns i s data
  else some (s, data)

end Unpack

/-- `temp = packed[count]`, and `count++` at the end of the turn. -/
def read_word (packed : List ℕ) (count : ℕ) : Option (ℕ × ℕ) :=
  packed[count]?.map fun temp => (temp, count + 1)

/-- `BoolRing::unpack`, with the loop of the source. -/
def BoolRing.unpack_data (packed : Bytes) (len : ℕ) : Option (List BoolRing) :=
  (unpack_loop 8 size_t_incr (read_word packed) len len 0 0 (List.replicate len false)).map
    Prod.snd

/-- `unpackBool`: into the vector `data`. -/
def unpackBool (packed : List ℕ) (data : List Bool) (len : ℕ) : Option (List Bool) :=
  (unpack_loop 64 size_t_incr (read_word packed) len len 0 0 data).map Prod.snd

section UnpackProofs
variable {γ : Type} {w : ℕ} {incr : ℕ → Option ℕ} {next : γ → Option (ℕ × γ)}

/-- From `s`, the reader gives the words `ts` and ends in `s'`. -/
def Reads (next : γ → Option (ℕ × γ)) : γ → List ℕ → γ → Prop
  | s, [], s' => s = s'
  | s, t :: ts, s' => ∃ s₁, next s = some (t, s₁) ∧ Reads next s₁ ts s'

/-- The inner loop, with the bits of `done` written and the cells of `old` to be written next. -/
theorem unpack_word_eq {len : ℕ} (hincr : Counts incr len) (j temp : ℕ) (done old post : List Bool)
    (hlen : len = done.length + old.length) :
    unpack_word incr len j done.length temp (done ++ old ++ post) =
      some (done.length + min j old.length,
        done ++ unpackWord (min j old.length) temp ++ old.drop j ++ post) := by
  induction j generalizing temp done old with
  | zero => simp [unpack_word, unpackWord]
  | succ j ih =>
    cases old with
    | nil =>
      have hend : ¬ done.length < len := by simp [hlen]
      rw [unpack_word, if_neg hend]
      simp [unpackWord]
    | cons x old =>
      have hlt : done.length < len := by simp [hlen]
      have hbit : (temp &&& 1 == 1) = (temp % 2 == 1) := by rw [Nat.and_one_is_mod]
      have hstore : store (done ++ x :: old ++ post) done.length (temp % 2 == 1) =
          some ((done ++ [temp % 2 == 1]) ++ old ++ post) := by
        rw [List.append_assoc, List.cons_append, store_append]
        simp
      have hlen' : len = (done ++ [temp % 2 == 1]).length + old.length := by
        simp only [hlen, List.length_append, List.length_cons, List.length_nil]
        omega
      have hih := ih (temp >>> 1) (done ++ [temp % 2 == 1]) old hlen'
      rw [List.length_append, List.length_singleton] at hih
      rw [unpack_word, if_pos hlt, hbit, hstore]
      simp only [Option.bind_eq_bind, Option.bind_some, hincr _ hlt]
      rw [hih, List.length_cons, Nat.succ_min_succ, unpackWord, Nat.shiftRight_one]
      simp [Nat.add_comm, Nat.add_left_comm]

/-- One word read, the bits still missing need one word fewer. -/
theorem words_left (hw : 0 < w) {n k : ℕ} (hn : n ≠ 0) (h : k + 1 = (n + w - 1) / w) :
    k = (n - w + w - 1) / w := by
  obtain hle | hle := Nat.le_total w n
  · have hstep : n + w - 1 = (n - w + w - 1) + w := by omega
    rw [hstep, Nat.add_div_right _ hw] at h
    exact Nat.succ.inj h
  · have hone : (n + w - 1) / w = 1 := Nat.div_eq_of_lt_le (by omega) (by omega)
    rw [Nat.sub_eq_zero_of_le hle, Nat.zero_add, Nat.div_eq_of_lt (Nat.sub_lt hw Nat.one_pos)]
    omega

theorem unpack_loop_eq (hw : 0 < w) {len : ℕ} (hincr : Counts incr len) {turns : ℕ}
    {s s' : γ} {words : List ℕ} (hread : Reads next s words s') (done old post : List Bool)
    (hlen : len = done.length + old.length) (hwords : words.length = (old.length + w - 1) / w)
    (hturns : old.length ≤ turns) :
    unpack_loop w incr next len turns done.length s (done ++ old ++ post) =
      some (s', done ++ unpackWords w words old.length ++ post) := by
  induction words generalizing turns s done old with
  | nil =>
    have hzero : old.length = 0 := by
      by_contra h
      have hpos : 0 < (old.length + w - 1) / w := Nat.div_pos (by omega) hw
      rw [← hwords] at hpos
      exact Nat.lt_irrefl 0 hpos
    have hend : ¬ done.length < len := by omega
    obtain rfl := List.eq_nil_of_length_eq_zero hzero
    obtain rfl : s = s' := hread
    cases turns <;> rw [unpack_loop, if_neg hend, unpackWords, List.append_nil]
  | cons t words ih =>
    obtain ⟨s₁, hnext, hread'⟩ := hread
    have hpos : old.length ≠ 0 := by
      intro h
      rw [h, Nat.zero_add, Nat.div_eq_of_lt (Nat.sub_lt hw Nat.one_pos)] at hwords
      exact absurd hwords (by simp)
    obtain ⟨turns, rfl⟩ : ∃ k, turns = k + 1 := ⟨turns - 1, by omega⟩
    have hlt : done.length < len := by omega
    have hdone : (done ++ unpackWord (min w old.length) t).length =
        done.length + min w old.length := by
      rw [List.length_append, unpackWord_length]
    have hrest : (old.drop w).length = old.length - w := List.length_drop
    have hcount : words.length = ((old.drop w).length + w - 1) / w := by
      rw [List.length_cons] at hwords
      rw [hrest]
      exact words_left hw hpos hwords
    have hleft : (old.drop w).length ≤ turns := by
      rw [hrest]
      omega
    have hih := ih hread' (done ++ unpackWord (min w old.length) t) (old.drop w)
      (by rw [hdone, hrest]; omega) hcount hleft
    rw [hdone] at hih
    rw [unpack_loop, if_pos hlt, hnext]
    simp only [Option.bind_eq_bind, Option.bind_some, unpack_word_eq hincr w t done old post hlen]
    rw [hih, unpackWords, if_neg hpos, hrest]
    simp

/-- The words of a vector, from the one at `count` on. -/
theorem reads_drop (packed : List ℕ) {count : ℕ} (h : count ≤ packed.length) :
    Reads (read_word packed) count (packed.drop count) packed.length := by
  induction hn : packed.drop count generalizing count with
  | nil =>
    have hlen := congrArg List.length hn
    rw [List.length_drop, List.length_nil] at hlen
    change count = packed.length
    omega
  | cons t ts ih =>
    have hlt : count < packed.length := by
      have hlen := congrArg List.length hn
      rw [List.length_drop, List.length_cons] at hlen
      omega
    rw [List.drop_eq_getElem_cons hlt] at hn
    obtain ⟨rfl, rfl⟩ := List.cons.inj hn
    refine ⟨count + 1, ?_, ih hlt rfl⟩
    rw [read_word, List.getElem?_eq_getElem hlt, Option.map_some]

/-- The unpackers from a vector of as many words as the bits need. -/
theorem unpack_loop_vector (hw : 0 < w) {len : ℕ} (hincr : Counts incr len) {packed : List ℕ}
    (hpacked : packed.length = (len + w - 1) / w) (data post : List Bool) (hdata : data.length = len) :
    (unpack_loop w incr (read_word packed) len len 0 0 (data ++ post)).map Prod.snd =
      some (unpackWords w packed len ++ post) := by
  have hread := reads_drop packed (Nat.zero_le _)
  rw [List.drop_zero] at hread
  have hloop := unpack_loop_eq hw hincr hread [] data post (by simp [hdata]) (by rw [hdata, hpacked])
    hdata.le
  rw [List.length_nil, List.nil_append, List.nil_append, hdata] at hloop
  rw [hloop, Option.map_some]

end UnpackProofs

/-! ## The packers and unpackers of vectors -/

/-- The wire format of bits is what the loop of `BoolRing::pack` writes. -/
theorem BoolRing.pack_data_eq (data : List BoolRing) :
    BoolRing.pack_data data data.length = some (BoolRing.pack data) :=
  pack_loop_vector (by decide) (size_t_counts _)

theorem BoolRing.unpack_data_eq {packed : Bytes} {len : ℕ} (h : packed.length = (len + 7) / 8) :
    BoolRing.unpack_data packed len = some (BoolRing.unpack packed len) := by
  have hloop := unpack_loop_vector (w := 8) (by decide) (size_t_counts len) h
    (List.replicate len false) [] List.length_replicate
  rwa [List.append_nil, List.append_nil] at hloop

theorem packBool_eq (data : List Bool) : packBool data data.length = some (packWords 64 data) :=
  pack_loop_vector (by decide) (size_t_counts _)

theorem unpackBool_eq {packed : List ℕ} {data post : List Bool}
    (h : packed.length = (data.length + 63) / 64) :
    unpackBool packed (data ++ post) data.length = some (unpackWords 64 packed data.length ++ post) :=
  unpack_loop_vector (by decide) (size_t_counts _) h data post rfl

end QSync
