/-
# What an announcement binds

An announcement binds every node that puts its block together to one block: the announced header
and coinbase, and at every other place the one transaction with a full witness and the announced
leaf. Going out, the announcement of a sound block is taken by every node exactly if the envelopes
with which its transactions are counted one by one fit into what the encoded block has besides
them; a block with many transactions is refused for being larger than itself.

Key definitions: `EnvelopesFit`, `Bound`.
Key theorems: `bound_of_reconstruct`, `compact_relay_round_trip`.
-/
import Alphanumeric.CompactAssembly

namespace Alphanumeric

namespace CompactBlocks

open Guard TxRelay

variable {E : Env} {x : Wire} {a : CompactBlockAnnouncementV2} {b : Block}

/-- The envelopes of the transactions behind the coinbase, each counted as if it were encoded alone, fit into what the
encoded block has besides those transactions. -/
def EnvelopesFit (x : Wire) (b : Block) : Prop :=
  10 * (b.transactions.length - 1) ≤
    10 + blockFrame b + ((b.transactions.head?.map fun coinbase => (packTransaction x coinbase).length).getD 0)

instance (x : Wire) (b : Block) : Decidable (EnvelopesFit x b) := inferInstanceAs (Decidable (_ ≤ _))

/-- The announcement of a block is taken, and gives it back, exactly if the block is sound and its envelopes fit. -/
theorem round_trip_iff {relayToken : RelayToken} (h : fromBlock E x b relayToken = .ok a) (now : ℕ) :
    (validateHeader E now b = .ok () →
      validateCommitment E x now a = true ∧ reconstruct E a b.transactions = .ok b) ↔
    (validateHeader E now b = .ok () → verifyPowMeetsFloor E b = true ∧
      calculateMerkleRoot E b.transactions = b.merkleRoot ∧ EnvelopesFit x b) := by
  obtain ⟨rest, hann⟩ := fromBlock_eq_ok h
  have hfit : EnvelopesFit x b ↔ 10 * rest.length ≤ 10 + blockFrame b + (packTransaction x a.coinbase).length := by
    rw [EnvelopesFit, hann.transactions]
    simp
  refine imp_congr_right fun hheader => ?_
  have hself : reconstruct E a b.transactions = .ok b := hann.reconstruct_self (hash_of_validateHeader hheader)
  rw [and_iff_left hself, hann.validateCommitment_iff now, and_iff_right hheader, hfit]

/-- What the announcement `a` says of a block put together from it. -/
structure Bound (E : Env) (x : Wire) (a : CompactBlockAnnouncementV2) (b : Block) : Prop where
  header : b = headerBlock a b.transactions
  coinbase : b.transactions.head? = some a.coinbase
  body : ∀ i t, b.transactions[i + 1]? = some t →
    hasFullBoundWitness E x t = true ∧ a.transactionHashes[i]? = some (calculateMerkleLeafHash E t)
  unique : ∀ i t, b.transactions[i + 1]? = some t → ∀ u, hasFullBoundWitness E x u = true →
    a.transactionHashes[i]? = some (calculateMerkleLeafHash E u) → Unforged E (fun v => v = t ∨ v = u) → u = t
  once : Unforged E (· ∈ b.transactions) → (a.transactionHashes.Nodup ↔ (b.transactions.drop 1).Nodup)

theorem bound_of_reconstruct {primarySource : PeerAddr} {supply : Supply} {source : PeerAddr}
    (h : reconstructCompactBlockV2 E x a primarySource supply = .ok (some (b, source))) : Bound E x a b := by
  obtain ⟨hblock, -, hhead, hleaves, hwitness, -⟩ := reconstructV2_spec h
  have hdrop : (b.transactions.drop 1).map (calculateMerkleLeafHash E) = a.transactionHashes := by
    rw [List.map_drop, hleaves]
    rfl
  have hbody : ∀ i t, b.transactions[i + 1]? = some t →
      hasFullBoundWitness E x t = true ∧ a.transactionHashes[i]? = some (calculateMerkleLeafHash E t) := by
    intro i t ht
    have hi : (b.transactions.drop 1)[i]? = some t := by rw [List.getElem?_drop, Nat.add_comm, ht]
    exact ⟨hwitness t (List.mem_of_getElem? hi), by rw [← hdrop, List.getElem?_map, hi, Option.map_some]⟩
  refine ⟨hblock, hhead, hbody, ?_, ?_⟩
  · intro i t ht u hu hleaf hU
    obtain ⟨hwt, hleaf'⟩ := hbody i t ht
    exact body_unique hU (.inr rfl) (.inl rfl) hu hwt (Option.some.inj (hleaf.symm.trans hleaf'))
  · intro hU
    rw [← hdrop]
    refine ⟨List.Nodup.of_map _, fun hnodup => List.Nodup.map_on (fun t ht u hu hleaf => ?_) hnodup⟩
    exact body_unique hU (List.mem_of_mem_drop ht) (List.mem_of_mem_drop hu) (hwitness t ht) (hwitness u hu) hleaf

/-- **Main result.** The announcement of a block whose header validates is taken and gives the block back exactly if the
proof of work meets the floor, the Merkle root is the transactions' and the envelopes fit. Whatever is put together from
an announcement that was taken is bound by it, body by body and as a whole. -/
theorem compact_relay_round_trip (E : Env) (x : Wire) :
    (∀ now b relayToken a, fromBlock E x b relayToken = .ok a →
      ((validateHeader E now b = .ok () →
          validateCommitment E x now a = true ∧ reconstruct E a b.transactions = .ok b) ↔
        (validateHeader E now b = .ok () → verifyPowMeetsFloor E b = true ∧
          calculateMerkleRoot E b.transactions = b.merkleRoot ∧ EnvelopesFit x b))) ∧
    ∀ now a, validateCommitment E x now a = true →
      (∀ s item s' taken, applyCompactBodyV2 E x a s item = .ok (s', taken) → s' = s ∨
        s.held[item.index]? = some none ∧ Fits E x a item.index item.transaction ∧
          s' = s.fill (compactTransactionEncodedBytes x) item.index item.transaction) ∧
      ∀ primarySource supply b source,
        reconstructCompactBlockV2 E x a primarySource supply = .ok (some (b, source)) → Bound E x a b ∧
          ∀ primarySource' supply' b' source',
            reconstructCompactBlockV2 E x a primarySource' supply' = .ok (some (b', source')) →
              Unforged E (· ∈ b.transactions ++ b'.transactions) → b = b' := by
  refine ⟨fun now b relayToken a h => round_trip_iff h now, fun now a _ => ⟨?_, ?_⟩⟩
  · intro s item s' taken h
    rcases applyCompactBodyV2_spec h with ⟨rfl, -⟩ | ⟨-, hfill, hempty, hfits, -⟩
    · exact .inl rfl
    · exact .inr ⟨hempty, hfits, hfill⟩
  · intro primarySource supply b source h
    exact ⟨bound_of_reconstruct h, fun _ _ _ _ h' hU => reconstructV2_unique h h' hU⟩

/-- Three rewards go out and are taken; and from the announcement of three rewards two attempts, with the bodies in
different orders, put one block together. -/
theorem relay_round_trip_rewards :
    (∃ a, fromBlock flatEnv plainWire (rewardsBlock flatEnv 2) 0 = .ok a ∧
      validateCommitment flatEnv plainWire Toy.now a = true ∧
      reconstruct flatEnv a (rewardsBlock flatEnv 2).transactions = .ok (rewardsBlock flatEnv 2)) ∧
    ∃ b b', reconstructCompactBlockV2 toyEnv plainWire rewardsAnnounced 5 (rewardsSupply [1, 2]) = .ok (some (b, 5)) ∧
      reconstructCompactBlockV2 toyEnv plainWire rewardsAnnounced 5 (rewardsSupply [2, 1]) = .ok (some (b', 5)) ∧
      Bound toyEnv plainWire rewardsAnnounced b ∧ b = b' := by
  constructor
  · have hok : (fromBlock flatEnv plainWire (rewardsBlock flatEnv 2) 0).isOk = true := by decide +kernel
    cases ha : fromBlock flatEnv plainWire (rewardsBlock flatEnv 2) 0 with
    | error e =>
      rw [ha] at hok
      cases hok
    | ok a =>
      have htrip := ((compact_relay_round_trip flatEnv plainWire).1 Toy.now _ 0 a ha).mpr fun _ =>
        ⟨by decide +kernel, by decide +kernel, by decide +kernel⟩
      obtain ⟨htaken, hback⟩ := htrip (by decide +kernel)
      exact ⟨a, rfl, htaken, hback⟩
  · have hrun : reconstructCompactBlockV2 toyEnv plainWire rewardsAnnounced 5 (rewardsSupply [1, 2]) =
        .ok (some (rewardsBlock toyEnv 2, 5)) := by decide +kernel
    have hrun' : reconstructCompactBlockV2 toyEnv plainWire rewardsAnnounced 5 (rewardsSupply [2, 1]) =
        .ok (some (rewardsBlock toyEnv 2, 5)) := by decide +kernel
    have hunforged : Unforged toyEnv
        (· ∈ (rewardsBlock toyEnv 2).transactions ++ (rewardsBlock toyEnv 2).transactions) := by
      have hmem : ∀ t ∈ (rewardsBlock toyEnv 2).transactions ++ (rewardsBlock toyEnv 2).transactions,
          t ∈ (rewardsBlock toyEnv 2).transactions := fun t ht => or_self_iff.mp (List.mem_append.mp ht)
      exact .of_distinct (fun t ht u hu => rewards_distinct t (hmem t ht) u (hmem u hu))
        fun t ht => rewards_unsigned t (hmem t ht)
    obtain ⟨hbound, hagree⟩ := ((compact_relay_round_trip toyEnv plainWire).2 Toy.now rewardsAnnounced
      (by decide +kernel)).2 _ _ _ _ hrun
    exact ⟨_, _, hrun, hrun', hbound, hagree _ _ _ _ hrun' hunforged⟩

/-- A coinbase and 35 rewards, in a block with a sound header: it is announced, and the announcement is refused. -/
theorem many_rewards_refused : ∃ a, fromBlock flatEnv plainWire (rewardsBlock flatEnv 35) 0 = .ok a ∧
    validateHeader flatEnv Toy.now (rewardsBlock flatEnv 35) = .ok () ∧
    verifyPowMeetsFloor flatEnv (rewardsBlock flatEnv 35) = true ∧
    calculateMerkleRoot flatEnv (rewardsBlock flatEnv 35).transactions = (rewardsBlock flatEnv 35).merkleRoot ∧
    validateCommitment flatEnv plainWire Toy.now a = false := by
  have hok : (fromBlock flatEnv plainWire (rewardsBlock flatEnv 35) 0).isOk = true := by decide +kernel
  have hheader : validateHeader flatEnv Toy.now (rewardsBlock flatEnv 35) = .ok () := by decide +kernel
  have hlarge : ¬ EnvelopesFit plainWire (rewardsBlock flatEnv 35) := by decide +kernel
  cases ha : fromBlock flatEnv plainWire (rewardsBlock flatEnv 35) 0 with
  | error e =>
    rw [ha] at hok
    cases hok
  | ok a =>
    refine ⟨a, rfl, hheader, by decide +kernel, by decide +kernel, ?_⟩
    obtain ⟨rest, hann⟩ := fromBlock_eq_ok ha
    rw [Bool.eq_false_iff]
    intro htaken
    have hback := hann.reconstruct_self (hash_of_validateHeader hheader)
    exact hlarge ((round_trip_iff ha Toy.now).mp (fun _ => ⟨htaken, hback⟩) hheader).2.2

end CompactBlocks

end Alphanumeric
