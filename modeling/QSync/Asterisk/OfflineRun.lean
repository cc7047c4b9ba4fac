import Mathlib.Data.Finset.Range
import QSync.Asterisk.OfflineConsistency

/-! # All parties run the offline phase

The trusted party sends the queues of party `nP` in three messages; nobody else sends anything. So
the offline phase ends under every schedule, with the results of the walks, and by
`setWireMasksParty_coupled` what the parties store is consistent with the trusted party.
-/

namespace QSync
open Network
set_option autoImplicit false
set_option maxHeartbeats 250000

/-! ## The queues of the last party -/

section Queues
variable {R : Type}

theorem splitQueues_flattenQueues (queues : QueueName → Queue R) (q : QueueName) :
    splitQueues (flattenQueues queues) (queueLengths queues) q = ⟨(queues q).data, 0⟩ := by
  cases q with
  | rand_sh => simp [splitQueues, flattenQueues, queueLengths, readQueues]
  | rand_sh_sec => simp [splitQueues, flattenQueues, queueLengths, readQueues]
  | rand_sh_party =>
    simp only [splitQueues, flattenQueues, queueLengths, readQueues, List.getD_cons_succ,
      List.getD_cons_zero, ← List.length_append, List.drop_left, List.take_length]

/-- Queues with the data of `queues`, to be read from the start. -/
def rewound (queues : QueueName → Queue R) : QueueName → Queue R := fun q => ⟨(queues q).data, 0⟩

/-- What is cut out of the decoded message, with the numbers of elements at the head of `lengths`. -/
theorem splitQueues_decode (codec : Codec R) (queues : QueueName → Queue R) (lengths : List ℕ) :
    splitQueues (codec.decode ((queueLengths queues ++ lengths).getD 0 0)
      (codec.encode (flattenQueues queues))) (queueLengths queues ++ lengths) = rewound queues := by
  have hlen : (queueLengths queues ++ lengths).getD 0 0 = (flattenQueues queues).length := rfl
  rw [hlen, codec.decode_encode]
  exact funext fun q => splitQueues_flattenQueues queues q

end Queues

section Run
variable {M : Modulus} {nP : ℕ} {ipm : ℕ → ℕ} {circ : LevelOrderedCircuit (Field M)}

def noQueues (rgen : RandGenPool) : OfflineState M :=
  ⟨rgen, readQueues [] [] [], readQueues [] [] []⟩

def tpWalk (nP : ℕ) (ipm : ℕ → ℕ) (circ : LevelOrderedCircuit (Field M)) (rgen : RandGenPool) :
    OfflineResult M × OfflineState M :=
  setWireMasksParty nP 0 ipm circ (noQueues rgen)

/-- What party `id` has when `OfflineEvaluator.run` is over: the last party has walked with the queues
the trusted party has filled. -/
def offlineResult (nP : ℕ) (ipm : ℕ → ℕ) (circ : LevelOrderedCircuit (Field M))
    (rgens : ℕ → RandGenPool) (id : ℕ) : OfflineResult M × OfflineState M :=
  if id = nP then
    let tp := (tpWalk nP ipm circ (rgens 0)).2
    setWireMasksParty nP id ipm circ ⟨rgens id, rewound tp.arith, rewound tp.bool⟩
  else setWireMasksParty nP id ipm circ (noQueues (rgens id))

theorem offlineResult_zero (hnP : 1 ≤ nP) (rgens : ℕ → RandGenPool) :
    offlineResult nP ipm circ rgens 0 = tpWalk nP ipm circ (rgens 0) :=
  if_neg (by omega)

/-- The messages with the queues of a party: the lengths, the queues over the field, those over
bits. -/
def queueMessages (bits : Codec BoolRing) (arith : QueueName → Queue (Field M))
    (bool : QueueName → Queue BoolRing) : List Bytes :=
  [encodeWords SIZE_T (queueLengths arith ++ queueLengths bool),
    (fieldCodec M).encode (flattenQueues arith), bits.encode (flattenQueues bool)]

/-- A party that receives these messages goes on with the queues. -/
theorem does_recvQueues {α : Type} (bits : Codec BoolRing) (arith : QueueName → Queue (Field M))
    (bool : QueueName → Queue BoolRing)
    (K : (QueueName → Queue (Field M)) → (QueueName → Queue BoolRing) → α) :
    Does (.recv 0 (SIZE_T * 8) fun b0 =>
        .recv 0 ((fieldCodec M).size ((decodeWords SIZE_T 8 b0).getD 0 0)) fun b1 =>
        .recv 0 (bits.size ((decodeWords SIZE_T 8 b0).getD 4 0)) fun b2 =>
          .done (K (splitQueues ((fieldCodec M).decode ((decodeWords SIZE_T 8 b0).getD 0 0) b1)
            (decodeWords SIZE_T 8 b0))
            (splitQueues (bits.decode ((decodeWords SIZE_T 8 b0).getD 4 0) b2)
              ((decodeWords SIZE_T 8 b0).drop 4))))
      ((queueMessages bits arith bool).map (.inp 0)) (K (rewound arith) (rewound bool)) := by
  have hlengths : decodeWords SIZE_T 8
      (encodeWords SIZE_T (queueLengths arith ++ queueLengths bool)) =
        queueLengths arith ++ queueLengths bool :=
    decodeWords_encodeWords (by decide : 0 < SIZE_T) (queueLengths arith ++ queueLengths bool)
  have harith := splitQueues_decode (fieldCodec M) arith (queueLengths bool)
  have hbool := splitQueues_decode bits bool []
  refine .recv' (encodeWords_length _ _) ?_
  rw [hlengths]
  refine .recv' ((fieldCodec M).encode_length _) (.recv' (bits.encode_length _) ?_)
  rw [harith]
  exact hbool ▸ .done _

theorem run_zero (hnP : 1 ≤ nP) (rgen : RandGenPool) :
    OfflineEvaluator.run nP 0 ipm circ rgen =
      let tp := tpWalk nP ipm circ rgen
      .send nP (encodeWords SIZE_T (queueLengths tp.2.arith ++ queueLengths tp.2.bool))
        (.send nP ((fieldCodec M).encode (flattenQueues tp.2.arith))
          (.send nP (bitCodec.encode (flattenQueues tp.2.bool)) (.done tp))) := by
  have hne : (0 : ℕ) ≠ nP := by omega
  simp only [OfflineEvaluator.run, if_pos hne, if_true]
  rfl

/-- The last party walks with the queues it has received. -/
theorem does_run_last (rgen : RandGenPool) (arith : QueueName → Queue (Field M))
    (bool : QueueName → Queue BoolRing) :
    Does (OfflineEvaluator.run nP nP ipm circ rgen) ((queueMessages bitCodec arith bool).map (.inp 0))
      (setWireMasksParty nP nP ipm circ ⟨rgen, rewound arith, rewound bool⟩) := by
  simp only [OfflineEvaluator.run, ne_eq, not_true_eq_false, if_false]
  exact does_recvQueues bitCodec arith bool fun arith bool =>
    setWireMasksParty nP nP ipm circ ⟨rgen, arith, bool⟩

theorem offline_completes (hnP : 1 ≤ nP) (rgens : ℕ → RandGenPool) :
    Completes (Finset.range (nP + 1))
      (fun id => OfflineEvaluator.run nP id ipm circ (rgens id))
      (offlineResult nP ipm circ rgens) := by
  set tp := tpWalk nP ipm circ (rgens 0) with htp
  refine @completes_serve _ _ _ _ _ _ 0 [nP] (fun _ => queueMessages bitCodec tp.2.arith tp.2.bool)
    (List.nodup_singleton _) (by simp) (by simp) ?_ (fun j hj => ?_) fun i _ hi hnot => ?_
  · rw [run_zero hnP, offlineResult_zero hnP]
    exact .send (.send (.send (.done _)))
  · obtain rfl := List.mem_singleton.mp hj
    refine ⟨by omega, ?_⟩
    rw [offlineResult, if_pos rfl]
    exact does_run_last (rgens j) tp.2.arith tp.2.bool
  · have hin : i ≠ nP := fun h => hnot (List.mem_singleton.mpr h)
    rw [OfflineEvaluator.run, if_pos hin, if_neg hi, offlineResult, if_neg hin]
    exact .done _

/-! ## Consistency -/

/-- What the trusted party and party `i` have when the offline phase is over is consistent. -/
structure OfflineConsistent (nP i : ℕ) (shared : Prop) (ipm : ℕ → ℕ) (circ : Circuit (Field M))
    (tp party : OfflineResult M × OfflineState M) : Prop where
  /-- Keys and gates. -/
  stored : WalkPost nP i shared ipm circ tp.1 party.1
  /-- The requests made to the stream the two have in common, with their sizes. -/
  draws : tp.2.rgen (.pi i) = party.2.rgen .p0
  /-- The last party has read what the trusted party has filled, to the end. -/
  arith_read : i = nP → ∀ q,
    party.2.arith q = ⟨(tp.2.arith q).data, (tp.2.arith q).data.length⟩
  bool_read : i = nP → ∀ q,
    party.2.bool q = ⟨(tp.2.bool q).data, (tp.2.bool q).data.length⟩

theorem offlineResult_consistent {circ : Circuit (Field M)} (hnP : 1 ≤ nP)
    (htypes : ∀ g ∈ circ.gates_, g.type.offline) {rgens : ℕ → RandGenPool} {i : ℕ} (hi : 1 ≤ i)
    (hn : i ≤ nP) {shared : Prop} (hown : rgens 0 (.pi i) = rgens i .p0)
    (hall : shared → rgens 0 .all = rgens i .all) :
    OfflineConsistent nP i shared ipm circ
      (offlineResult nP ipm circ.orderGatesByLevel rgens 0)
      (offlineResult nP ipm circ.orderGatesByLevel rgens i) := by
  rw [offlineResult_zero hnP]
  set tp := tpWalk nP ipm circ.orderGatesByLevel (rgens 0) with htp
  have hsim : (offlineInStep nP i shared (fun q => (tp.2.arith q).data)
      fun q => (tp.2.bool q).data).Sim _ _ _ := setWireMasksParty_coupled hi hn ipm circ htypes
  have hok : (∀ q, (tp.2.arith q).data <+: (tp.2.arith q).data) ∧
      ∀ q, (tp.2.bool q).data <+: (tp.2.bool q).data := ⟨fun _ => List.prefix_rfl, fun _ => List.prefix_rfl⟩
  -- party `i` starts where the trusted party starts, with nothing read
  have hparty : ∃ t, offlineResult nP ipm circ.orderGatesByLevel rgens i =
      setWireMasksParty nP i ipm circ.orderGatesByLevel t ∧ t.rgen = rgens i ∧
      (i = nP → t.arith = rewound tp.2.arith ∧ t.bool = rewound tp.2.bool) := by
    by_cases hin : i = nP
    · exact ⟨_, if_pos hin, rfl, fun _ => ⟨rfl, rfl⟩⟩
    · exact ⟨_, if_neg hin, rfl, fun h => absurd h hin⟩
  obtain ⟨t, ht, htr, hta⟩ := hparty
  have hempty : ∀ {R : Type} (q : QueueName), (readQueues (R := R) [] [] [] q).data.length = 0 :=
    fun q => by cases q <;> rfl
  have hrel : InStep nP i shared (fun q => (tp.2.arith q).data) ⟨rgens 0, readQueues [] [] []⟩
        ⟨t.rgen, t.arith⟩ ∧
      InStep nP i shared (fun q => (tp.2.bool q).data) ⟨rgens 0, readQueues [] [] []⟩
        ⟨t.rgen, t.bool⟩ := by
    rw [htr]
    refine ⟨⟨hown, hall, fun h q => ?_⟩, ⟨hown, hall, fun h q => ?_⟩⟩
    · rw [(hta h).1, hempty]
      rfl
    · rw [(hta h).2, hempty]
      rfl
  obtain ⟨⟨hr, hrb⟩, hpost⟩ := hsim (noQueues (rgens 0)) t hrel hok
  rw [ht]
  exact ⟨hpost, hr.own, hr.reads, hrb.reads⟩

/-- The offline phase ends under every schedule, and then what every party has is consistent with
the trusted party. -/
theorem offline_consistent (nP : ℕ) (hnP : 1 ≤ nP) (circ : Circuit (Field M))
    (htypes : ∀ g ∈ circ.gates_, g.type.offline) (ipm : ℕ → ℕ) (prgs : ℕ → StreamName → Prg)
    (hprgs : ∀ i, 1 ≤ i → i ≤ nP → prgs 0 (.pi i) = prgs i .p0) :
    ∃ r, Converges (Finset.range (nP + 1))
        (fun id => OfflineEvaluator.run nP id ipm circ.orderGatesByLevel (.seeded (prgs id))) r ∧
      ∀ i, 1 ≤ i → i ≤ nP →
        OfflineConsistent nP i (prgs 0 .all = prgs i .all) ipm circ (r 0) (r i) := by
  refine ⟨_, (offline_completes hnP fun id => .seeded (prgs id)).converges, fun i hi hn => ?_⟩
  refine offlineResult_consistent hnP htypes hi hn ?_ fun h => ?_
  · exact congrArg (Stream.mk · []) (hprgs i hi hn)
  · exact congrArg (Stream.mk · []) h

end Run

def testCircuit : Circuit (Field testModulus) := Circuit.built do
  let w0 ← Circuit.newInputWire
  let w1 ← Circuit.newInputWire
  let w2 ← Circuit.newInputWire
  let w3 ← Circuit.newInputWire
  let w_eq ← Circuit.addGate1 .kEqz w0
  let w_aab ← Circuit.addGate2 .kAdd w0 w1
  let w_cmd ← Circuit.addGate2 .kMul w2 w3
  let w_cons ← Circuit.addConstOpGate .kConstAdd w_aab 2
  let _w_cons_m ← Circuit.addConstOpGate .kConstMul w_cmd 2
  let w_mout ← Circuit.addGate2 .kMul w_aab w_cons
  let w_aout ← Circuit.addGate2 .kAdd w_aab w_cmd
  Circuit.setAsOutput w_mout
  Circuit.setAsOutput w_aout
  Circuit.setAsOutput w_eq

/-- The setting of the test: five parties, party 1 deals all inputs. -/
theorem offline_consistent_test :
    ∃ r, Converges (Finset.range 6)
        (fun id => OfflineEvaluator.run 5 id (fun _ => 1) testCircuit.orderGatesByLevel
          (.seeded fun _ _ _ => 7)) r ∧
      ∀ i, 1 ≤ i → i ≤ 5 → OfflineConsistent 5 i True (fun _ => 1) testCircuit (r 0) (r i) := by
  have h := offline_consistent 5 (by decide) testCircuit (by decide) (fun _ => 1)
    (fun _ _ _ _ => 7) (fun _ _ _ => rfl)
  simpa only [eq_self_iff_true] using h

end QSync
