/-
# The Merkle root binds the leaves

`calculate_merkle_root_from_leaf_hashes` (`src/a9/blockchain.rs`) hashes pairs together and an
odd last node alone; a lone leaf is hashed with itself. The node inputs tell pairs from single
nodes by their length, so equal levels come from equal levels, and a list whose root is reached
is a level of the other list's tree. If no leaf is a digest of the tree it is the other
list itself, up to the lone leaf, which has the root of its double.

No digest of 32 bytes is injective on all inputs, so what is asked of SHA-256 is asked
of the inputs hashed for the two roots.

Key definitions: `levelInputs`, `merkleLevels`, `treeInputs`, `doubled`, `Separate`.
Key theorems: `levels_meet`, `doubled_eq_of_root`, `merkle_root_binds`.
-/
import Alphanumeric.ForkVerdict
import Alphanumeric.Reorg
import Alphanumeric.Validation
import Alphanumeric.SignatureCache

namespace Alphanumeric

variable {E : Env}

/-! ### Digests as bytes -/

theorem toLeBytes_inj : ∀ {w n m : ℕ}, n < 256 ^ w → m < 256 ^ w → toLeBytes w n = toLeBytes w m → n = m
  | 0, n, m, hn, hm, _ => by
    rw [pow_zero] at hn hm
    omega
  | w + 1, n, m, hn, hm, h => by
    obtain ⟨hlow, hhigh⟩ := List.cons.inj h
    rw [pow_succ] at hn hm
    have hrest : n / 256 = m / 256 := toLeBytes_inj (by omega) (by omega) hhigh
    have hmod : n % 256 = m % 256 := by
      have := congrArg UInt8.toNat hlow
      simpa using this
    omega

theorem bytes_inj {a b : Hash} (h : a.bytes = b.bytes) : a = b := by
  have hbound : ∀ c : Hash, c.val < 256 ^ 32 := fun c => c.isLt.trans_le (by decide)
  exact Fin.ext (toLeBytes_inj (hbound a) (hbound b) (List.reverse_injective h))

theorem bytes_length (a : Hash) : a.bytes.length = 32 := by
  rw [Hash.bytes, toBeBytes, List.length_reverse, toLeBytes_length]

/-! ### Levels and what is hashed for them -/

/-- The inputs hashed to get from a level to the next. -/
def levelInputs : List Hash → List (List UInt8)
  | [] => []
  | [a] => [a.bytes]
  | a :: b :: rest => (a.bytes ++ b.bytes) :: levelInputs rest

theorem merkleLevel_eq_map : ∀ level : List Hash, merkleLevel E level = (levelInputs level).map E.sha256
  | [] => rfl
  | [_] => rfl
  | a :: b :: rest => by rw [merkleLevel, levelInputs, List.map_cons, merkleLevel_eq_map rest]

/-- The inputs of a level determine it: a pair is twice as long as a single node. -/
theorem levelInputs_inj : ∀ {xs ys : List Hash}, levelInputs xs = levelInputs ys → xs = ys
  | [], [], _ => rfl
  | [], [_], h => by cases h
  | [], _ :: _ :: _, h => by cases h
  | [_], [], h => by cases h
  | _ :: _ :: _, [], h => by cases h
  | [a], [b], h => by rw [bytes_inj (List.cons.inj h).1]
  | [a], b :: c :: rest, h => by
    have hlen := congrArg List.length (List.cons.inj h).1
    rw [List.length_append, bytes_length, bytes_length, bytes_length] at hlen
    omega
  | a :: b :: rest, [c], h => by
    have hlen := congrArg List.length (List.cons.inj h).1
    rw [List.length_append, bytes_length, bytes_length, bytes_length] at hlen
    omega
  | a :: b :: xs, c :: d :: ys, h => by
    obtain ⟨hpair, hrest⟩ := List.cons.inj h
    obtain ⟨hfirst, hsecond⟩ := List.append_inj hpair (by rw [bytes_length, bytes_length])
    rw [bytes_inj hfirst, bytes_inj hsecond, levelInputs_inj hrest]

theorem length_merkleLevel : ∀ level : List Hash, (merkleLevel E level).length = (level.length + 1) / 2
  | [] => rfl
  | [_] => by simp [merkleLevel]
  | _ :: _ :: rest => by
    rw [merkleLevel, List.length_cons, length_merkleLevel rest]
    simp only [List.length_cons]
    omega

/-- The levels of a tree, the leaves first. -/
def merkleLevels (E : Env) : ℕ → List Hash → List (List Hash)
  | 0, level => [level]
  | fuel + 1, level => level :: if 1 < level.length then merkleLevels E fuel (merkleLevel E level) else []

/-- Everything hashed in a tree. -/
def treeInputs (E : Env) (fuel : ℕ) (leaves : List Hash) : List (List UInt8) :=
  ((merkleLevels E fuel leaves).filter fun level => 1 < level.length).flatMap levelInputs

theorem self_mem_merkleLevels (fuel : ℕ) (level : List Hash) : level ∈ merkleLevels E fuel level := by
  cases fuel with
  | zero => exact List.mem_singleton.mpr rfl
  | succ fuel => exact List.mem_cons_self

theorem merkleLoop_mem : ∀ (fuel : ℕ) (level : List Hash), merkleLoop E fuel level ∈ merkleLevels E fuel level
  | 0, level => List.mem_singleton.mpr rfl
  | fuel + 1, level => by
    unfold merkleLoop merkleLevels
    by_cases hlong : 1 < level.length
    · rw [if_pos hlong, if_pos hlong]
      exact List.mem_cons_of_mem _ (merkleLoop_mem fuel _)
    · rw [if_neg hlong, if_neg hlong]
      exact List.mem_cons_self

/-- A level above the leaves is made of one below it. -/
theorem exists_below : ∀ {fuel : ℕ} {level m : List Hash}, m ∈ merkleLevels E fuel level → m ≠ level →
    ∃ p ∈ merkleLevels E fuel level, 1 < p.length ∧ m = merkleLevel E p
  | 0, level, m, hm, hne => absurd (List.mem_singleton.mp hm) hne
  | fuel + 1, level, m, hm, hne => by
    unfold merkleLevels at hm ⊢
    rcases List.mem_cons.mp hm with rfl | hm
    · exact absurd rfl hne
    by_cases hlong : 1 < level.length
    · rw [if_pos hlong] at hm ⊢
      by_cases hnext : m = merkleLevel E level
      · exact ⟨level, List.mem_cons_self, hlong, hnext⟩
      · obtain ⟨p, hp, hplong, rfl⟩ := exists_below hm hnext
        exact ⟨p, List.mem_cons_of_mem _ hp, hplong, rfl⟩
    · rw [if_neg hlong] at hm
      cases hm

theorem levelInputs_subset {fuel : ℕ} {leaves p : List Hash} (hp : p ∈ merkleLevels E fuel leaves)
    (hlong : 1 < p.length) : ∀ i ∈ levelInputs p, i ∈ treeInputs E fuel leaves := by
  intro i hi
  refine List.mem_flatMap.mpr ⟨p, List.mem_filter.mpr ⟨hp, ?_⟩, hi⟩
  simpa using hlong

/-- No two of the inputs have one digest. -/
def CollisionFree (E : Env) (inputs : List (List UInt8)) : Prop :=
  ∀ i ∈ inputs, ∀ j ∈ inputs, E.sha256 i = E.sha256 j → i = j

theorem CollisionFree.map_inj {inputs : List (List UInt8)} (h : CollisionFree E inputs) :
    ∀ {l l' : List (List UInt8)}, (∀ i ∈ l, i ∈ inputs) → (∀ i ∈ l', i ∈ inputs) →
      l.map E.sha256 = l'.map E.sha256 → l = l'
  | [], [], _, _, _ => rfl
  | [], _ :: _, _, _, heq => by cases heq
  | _ :: _, [], _, _, heq => by cases heq
  | i :: l, j :: l', hl, hl', heq => by
    obtain ⟨hhead, htail⟩ := List.cons.inj heq
    rw [h i (hl i List.mem_cons_self) j (hl' j List.mem_cons_self) hhead,
      h.map_inj (fun k hk => hl k (List.mem_cons_of_mem _ hk)) (fun k hk => hl' k (List.mem_cons_of_mem _ hk)) htail]

/-- Equal levels come from equal levels. -/
theorem merkleLevel_inj {inputs : List (List UInt8)} (h : CollisionFree E inputs) {xs ys : List Hash}
    (hx : ∀ i ∈ levelInputs xs, i ∈ inputs) (hy : ∀ i ∈ levelInputs ys, i ∈ inputs)
    (heq : merkleLevel E xs = merkleLevel E ys) : xs = ys := by
  rw [merkleLevel_eq_map, merkleLevel_eq_map] at heq
  exact levelInputs_inj (h.map_inj hx hy heq)

theorem merkleLevels_succ {fuel : ℕ} {level : List Hash} (hlong : 1 < level.length) :
    merkleLevels E (fuel + 1) level = level :: merkleLevels E fuel (merkleLevel E level) := by
  rw [merkleLevels, if_pos hlong]

theorem treeInputs_level {fuel : ℕ} {level : List Hash} (hlong : 1 < level.length) :
    ∀ i ∈ treeInputs E fuel (merkleLevel E level), i ∈ treeInputs E (fuel + 1) level := by
  intro i hi
  unfold treeInputs at hi ⊢
  rw [merkleLevels_succ hlong, List.filter_cons_of_pos (by simpa using hlong), List.flatMap_cons]
  exact List.mem_append_right _ hi

/-- If the level above `xs` is one of the other tree, so is `xs`: it is what that level was made of. -/
theorem mem_of_level_mem {inputs : List (List UInt8)} (h : CollisionFree E inputs) {f g : ℕ} {xs ys : List Hash}
    (hxlong : 1 < xs.length) (hylong : 1 < ys.length) (hxin : ∀ i ∈ treeInputs E (f + 1) xs, i ∈ inputs)
    (hyin : ∀ i ∈ treeInputs E (g + 1) ys, i ∈ inputs)
    (hmem : merkleLevel E xs ∈ merkleLevels E g (merkleLevel E ys)) : xs ∈ merkleLevels E (g + 1) ys := by
  obtain ⟨p, hp, hplong, heq⟩ : ∃ p ∈ merkleLevels E (g + 1) ys, 1 < p.length ∧ merkleLevel E xs = merkleLevel E p := by
    by_cases hsame : merkleLevel E xs = merkleLevel E ys
    · exact ⟨ys, self_mem_merkleLevels _ _, hylong, hsame⟩
    · obtain ⟨p, hp, hplong, heq⟩ := exists_below hmem hsame
      rw [merkleLevels_succ hylong]
      exact ⟨p, List.mem_cons_of_mem _ hp, hplong, heq⟩
  have hxinputs := levelInputs_subset (self_mem_merkleLevels (E := E) (f + 1) xs) hxlong
  have hpinputs := levelInputs_subset hp hplong
  rw [merkleLevel_inj h (fun i hi => hxin i (hxinputs i hi)) (fun i hi => hyin i (hpinputs i hi)) heq]
  exact hp

/-- Two lists with one root: one is a level of the other's tree. -/
theorem levels_meet {inputs : List (List UInt8)} (h : CollisionFree E inputs) :
    ∀ {f g : ℕ} {xs ys : List Hash}, xs.length ≤ f + 1 → ys.length ≤ g + 1 →
      (∀ i ∈ treeInputs E f xs, i ∈ inputs) → (∀ i ∈ treeInputs E g ys, i ∈ inputs) →
        merkleLoop E f xs = merkleLoop E g ys → xs ∈ merkleLevels E g ys ∨ ys ∈ merkleLevels E f xs := by
  intro f
  induction f with
  | zero =>
    intro g xs ys _ _ _ _ hroot
    -- The loop stops at once, so `xs` is the top of the other tree.
    have htop : xs = merkleLoop E g ys := hroot
    rw [htop]
    exact .inl (merkleLoop_mem g ys)
  | succ f ih =>
    intro g xs ys hxs hys hxin hyin hroot
    by_cases hxlong : 1 < xs.length
    · cases g with
      | zero =>
        have htop : merkleLoop E (f + 1) xs = ys := hroot
        rw [← htop]
        exact .inr (merkleLoop_mem (f + 1) xs)
      | succ g =>
        by_cases hylong : 1 < ys.length
        · rw [merkleLoop, merkleLoop, if_pos hxlong, if_pos hylong] at hroot
          have hxlen := length_merkleLevel (E := E) xs
          have hylen := length_merkleLevel (E := E) ys
          rcases ih (by omega) (by omega) (fun i hi => hxin i (treeInputs_level hxlong i hi))
              (fun i hi => hyin i (treeInputs_level hylong i hi)) hroot with hmem | hmem
          · exact .inl (mem_of_level_mem h hxlong hylong hxin hyin hmem)
          · exact .inr (mem_of_level_mem h hylong hxlong hyin hxin hmem)
        · have hstop : merkleLoop E (g + 1) ys = ys := by rw [merkleLoop, if_neg hylong]
          rw [hstop] at hroot
          rw [← hroot]
          exact .inr (merkleLoop_mem (f + 1) xs)
    · rw [merkleLoop, if_neg hxlong] at hroot
      rw [hroot]
      exact .inl (merkleLoop_mem g ys)

/-! ### The root -/

/-- The leaves as the tree takes them: a lone leaf twice. -/
def doubled : List Hash → List Hash
  | [a] => [a, a]
  | leaves => leaves

/-- Everything hashed to get the root of the leaves. -/
def merkleInputs (E : Env) (leaves : List Hash) : List (List UInt8) :=
  treeInputs E (doubled leaves).length (doubled leaves)

/-- What is asked of SHA-256 for two lists of leaves: no two inputs hashed for their roots collide, and no leaf is the
digest of one. -/
structure Separate (E : Env) (xs ys : List Hash) : Prop where
  inputs : CollisionFree E (merkleInputs E xs ++ merkleInputs E ys)
  leaves : ∀ a ∈ xs ++ ys, ∀ i ∈ merkleInputs E xs ++ merkleInputs E ys, E.sha256 i ≠ a

theorem one_lt_doubled {xs : List Hash} (h : xs ≠ []) : 1 < (doubled xs).length := by
  match xs, h with
  | [_], _ => simp [doubled]
  | _ :: _ :: _, _ => simp [doubled]

theorem length_merkleLoop : ∀ {fuel : ℕ} {level : List Hash}, level ≠ [] → level.length ≤ fuel + 1 →
    (merkleLoop E fuel level).length = 1
  | 0, level, hne, hlen => by
    have hpos := List.length_pos_of_ne_nil hne
    rw [merkleLoop]
    omega
  | fuel + 1, level, hne, hlen => by
    have hpos := List.length_pos_of_ne_nil hne
    rw [merkleLoop]
    by_cases hlong : 1 < level.length
    · have hnext := length_merkleLevel (E := E) level
      rw [if_pos hlong]
      refine length_merkleLoop (List.ne_nil_of_length_pos ?_) ?_
      · omega
      · omega
    · rw [if_neg hlong]
      omega

/-- The root is the top of the tree over the doubled leaves. -/
theorem merkleLoop_doubled {xs : List Hash} (h : xs ≠ []) :
    merkleLoop E (doubled xs).length (doubled xs) = [calculateMerkleRootFromLeafHashes E xs] := by
  match xs, h with
  | [a], _ => rfl
  | a :: b :: rest, _ =>
    have hone : (merkleLoop E (a :: b :: rest).length (a :: b :: rest)).length = 1 :=
      length_merkleLoop (by simp) (by omega)
    obtain ⟨r, hr⟩ := List.length_eq_one_iff.mp hone
    change merkleLoop E (a :: b :: rest).length (a :: b :: rest) =
      [(merkleLoop E (a :: b :: rest).length (a :: b :: rest)).headD zeroHash]
    rw [hr]
    rfl

/-- A level above the leaves is made of digests of the tree. -/
theorem digest_of_above {fuel : ℕ} {leaves m : List Hash} (hm : m ∈ merkleLevels E fuel leaves) (hne : m ≠ leaves) :
    ∀ a ∈ m, ∃ i ∈ treeInputs E fuel leaves, E.sha256 i = a := by
  obtain ⟨p, hp, hlong, rfl⟩ := exists_below hm hne
  intro a ha
  rw [merkleLevel_eq_map] at ha
  obtain ⟨i, hi, rfl⟩ := List.mem_map.mp ha
  exact ⟨i, levelInputs_subset hp hlong i hi, rfl⟩

theorem mem_of_mem_doubled {xs : List Hash} {a : Hash} (h : a ∈ doubled xs) : a ∈ xs := by
  match xs with
  | [] => exact h
  | [b] => simpa [doubled] using h
  | _ :: _ :: _ => exact h

/-- Equal roots come from equal doubled leaves. -/
theorem doubled_eq_of_root {xs ys : List Hash} (hx : xs ≠ []) (hy : ys ≠ []) (h : Separate E xs ys)
    (hroot : calculateMerkleRootFromLeafHashes E xs = calculateMerkleRootFromLeafHashes E ys) :
    doubled xs = doubled ys := by
  have hloops : merkleLoop E (doubled xs).length (doubled xs) = merkleLoop E (doubled ys).length (doubled ys) := by
    rw [merkleLoop_doubled hx, merkleLoop_doubled hy, hroot]
  have hxlong := one_lt_doubled hx
  have hylong := one_lt_doubled hy
  rcases levels_meet h.inputs (by omega) (by omega) (fun i hi => List.mem_append_left _ hi)
      (fun i hi => List.mem_append_right _ hi) hloops with hmem | hmem
  · by_contra hne
    obtain ⟨a, ha⟩ := List.exists_mem_of_length_pos (l := doubled xs) (by omega)
    obtain ⟨i, hi, hdigest⟩ := digest_of_above hmem hne a ha
    exact h.leaves a (List.mem_append_left _ (mem_of_mem_doubled ha)) i (List.mem_append_right _ hi) hdigest
  · by_contra hne
    obtain ⟨a, ha⟩ := List.exists_mem_of_length_pos (l := doubled ys) (by omega)
    obtain ⟨i, hi, hdigest⟩ := digest_of_above hmem (fun heq => hne heq.symm) a ha
    exact h.leaves a (List.mem_append_right _ (mem_of_mem_doubled ha)) i (List.mem_append_left _ hi) hdigest

/-- The lone leaf and its double are the only lists that `doubled` confuses. -/
theorem eq_or_lone_of_doubled {xs ys : List Hash} (h : doubled xs = doubled ys) :
    xs = ys ∨ ∃ a, xs = [a] ∧ ys = [a, a] ∨ xs = [a, a] ∧ ys = [a] := by
  match xs, ys with
  | [], [] => exact .inl rfl
  | [], [_] => simp [doubled] at h
  | [], _ :: _ :: _ => simp [doubled] at h
  | [_], [] => simp [doubled] at h
  | _ :: _ :: _, [] => simp [doubled] at h
  | [a], [b] =>
    simp only [doubled, List.cons.injEq, and_true] at h
    exact .inl (by rw [h.1])
  | [a], b :: c :: rest =>
    simp only [doubled, List.cons.injEq] at h
    obtain ⟨rfl, rfl, rfl⟩ := h
    exact .inr ⟨_, .inl ⟨rfl, rfl⟩⟩
  | b :: c :: rest, [a] =>
    simp only [doubled, List.cons.injEq] at h
    obtain ⟨rfl, rfl, rfl⟩ := h
    exact .inr ⟨_, .inr ⟨rfl, rfl⟩⟩
  | _ :: _ :: _, _ :: _ :: _ => exact .inl h

/-! ### The leaves of a block -/

def merkleLeaves (E : Env) (b : Block) : List Hash := b.transactions.map (calculateMerkleLeafHash E)

/-- What is asked of SHA-256 and of the codec for two blocks: no two of their leaves' serializations collide, and a
serialization determines what was serialized. -/
structure LeavesDecode (E : Env) (b b' : Block) : Prop where
  digests : CollisionFree E ((b.transactions ++ b'.transactions).map fun tx => E.codecSerialize (merkleForm E tx))
  codec : ∀ t ∈ b.transactions ++ b'.transactions, ∀ u ∈ b.transactions ++ b'.transactions,
    E.codecSerialize (merkleForm E t) = E.codecSerialize (merkleForm E u) → merkleForm E t = merkleForm E u

theorem merkleForm_sender (tx : Transaction) : (merkleForm E tx).sender = tx.sender := by
  unfold merkleForm
  split_ifs
  · rfl
  · split
    · rfl
    · split
      · rfl
      · rfl

theorem LeavesDecode.coinbase {b b' : Block} (h : LeavesDecode E b b') {t u : Transaction}
    (ht : t ∈ b.transactions ++ b'.transactions) (hu : u ∈ b.transactions ++ b'.transactions)
    (hleaf : calculateMerkleLeafHash E t = calculateMerkleLeafHash E u) : t.isCoinbase = u.isCoinbase := by
  have hbytes := h.digests _ (List.mem_map_of_mem ht) _ (List.mem_map_of_mem hu) hleaf
  have hsender := congrArg Transaction.sender (h.codec t ht u hu hbytes)
  rw [merkleForm_sender, merkleForm_sender] at hsender
  unfold Transaction.isCoinbase
  rw [hsender]

/-- A validated block does not have two leaves of one digest only: its reward comes once. -/
theorem not_lone_double {now : ℕ} {s : ChainState} {mode : SignatureValidationMode} {b : Block}
    (hvalid : validateBlockInternal E now s mode b = .ok ()) {a : Hash} (hleaves : merkleLeaves E b = [a, a])
    (hdecode : ∀ t ∈ b.transactions, ∀ u ∈ b.transactions, calculateMerkleLeafHash E t = calculateMerkleLeafHash E u →
      t.isCoinbase = u.isCoinbase) : False := by
  obtain ⟨reward, txs, htxs, hreward, hregular⟩ := reward_of_validate hvalid
  unfold merkleLeaves at hleaves
  rw [htxs, List.map_cons] at hleaves
  obtain ⟨hfirst, hrest⟩ := List.cons.inj hleaves
  match txs, hrest with
  | [t], hrest =>
    have hsecond : calculateMerkleLeafHash E t = a := by simpa using hrest
    have hsame := hdecode reward (by simp [htxs]) t (by simp [htxs]) (hfirst.trans hsecond.symm)
    rw [hreward, hregular t (by simp)] at hsame
    cases hsame

theorem root_of_validate {now : ℕ} {s : ChainState} {mode : SignatureValidationMode} {b : Block}
    (h : validateBlockInternal E now s mode b = .ok ()) :
    calculateMerkleRootFromLeafHashes E (merkleLeaves E b) = b.merkleRoot := by
  have hstand := (validateBlockInternal_eq_ok.mp h).1
  simp only [validateStandalone, Guard.bind_unit_eq_ok, Guard.ensure_eq_ok] at hstand
  exact hstand.2.2.2.2.1

theorem merkleLeaves_ne_nil {now : ℕ} {s : ChainState} {mode : SignatureValidationMode} {b : Block}
    (h : validateBlockInternal E now s mode b = .ok ()) : merkleLeaves E b ≠ [] := by
  obtain ⟨reward, txs, htxs, -, -⟩ := reward_of_validate h
  simp [merkleLeaves, htxs]

/-- **Main result.** Equal roots come from equal leaves, but for a lone leaf and its double; and blocks with one root
that are both accepted have the same leaves. -/
theorem merkle_root_binds (E : Env) :
    (∀ xs ys : List Hash, xs ≠ [] → ys ≠ [] → Separate E xs ys →
      calculateMerkleRootFromLeafHashes E xs = calculateMerkleRootFromLeafHashes E ys →
        (xs.length = ys.length → xs = ys) ∧
        (xs.length ≠ ys.length → ∃ a, xs = [a] ∧ ys = [a, a] ∨ xs = [a, a] ∧ ys = [a])) ∧
    (∀ a, calculateMerkleRootFromLeafHashes E [a] = calculateMerkleRootFromLeafHashes E [a, a]) ∧
    ∀ (now now' : ℕ) (s s' : ChainState) (mode mode' : SignatureValidationMode) (b b' : Block),
      validateBlockInternal E now s mode b = .ok () → validateBlockInternal E now' s' mode' b' = .ok () →
      b.merkleRoot = b'.merkleRoot → Separate E (merkleLeaves E b) (merkleLeaves E b') → LeavesDecode E b b' →
        merkleLeaves E b = merkleLeaves E b' := by
  refine ⟨?_, fun a => rfl, ?_⟩
  · intro xs ys hx hy hsep hroot
    rcases eq_or_lone_of_doubled (doubled_eq_of_root hx hy hsep hroot) with heq | hlone
    · exact ⟨fun _ => heq, fun hne => absurd (congrArg List.length heq) hne⟩
    · refine ⟨?_, fun _ => hlone⟩
      intro hlen
      obtain ⟨a, ⟨rfl, rfl⟩ | ⟨rfl, rfl⟩⟩ := hlone
      · cases hlen
      · cases hlen
  · intro now now' s s' mode mode' b b' hvalid hvalid' hheader hsep hdecode
    have hroot : calculateMerkleRootFromLeafHashes E (merkleLeaves E b) =
        calculateMerkleRootFromLeafHashes E (merkleLeaves E b') := by
      rw [root_of_validate hvalid, root_of_validate hvalid', hheader]
    have hdoubled := doubled_eq_of_root (merkleLeaves_ne_nil hvalid) (merkleLeaves_ne_nil hvalid') hsep hroot
    rcases eq_or_lone_of_doubled hdoubled with heq | ⟨a, ⟨-, hdouble⟩ | ⟨hdouble, -⟩⟩
    · exact heq
    · refine absurd (not_lone_double hvalid' hdouble ?_) id
      intro t ht u hu
      exact hdecode.coinbase (List.mem_append_right _ ht) (List.mem_append_right _ hu)
    · refine absurd (not_lone_double hvalid hdouble ?_) id
      intro t ht u hu
      exact hdecode.coinbase (List.mem_append_left _ ht) (List.mem_append_left _ hu)

/-- A sibling of `c2`, sealed a second later over the same transactions. -/
def laterSibling : Block := toyBlock Toy.b1 6 Toy.bob [Toy.pay]

/-- The lone leaf and its double are separate lists with one root. Two blocks that are accepted behind one chain and
have one root have the same leaves. -/
theorem lone_leaf_root : Separate toyEnv [5] [5, 5] ∧
    (∃ a : Hash, [(5 : Hash)] = [a] ∧ [(5 : Hash), 5] = [a, a] ∨ [(5 : Hash)] = [a, a] ∧ [(5 : Hash), 5] = [a]) ∧
    Toy.c2.hash ≠ laterSibling.hash ∧ merkleLeaves toyEnv Toy.c2 = merkleLeaves toyEnv laterSibling := by
  have hinputs : merkleInputs toyEnv [5] ++ merkleInputs toyEnv [5, 5] =
      [Hash.bytes 5 ++ Hash.bytes 5, Hash.bytes 5 ++ Hash.bytes 5] := rfl
  have hsep : Separate toyEnv [5] [5, 5] := by
    refine ⟨?_, ?_⟩
    · rw [hinputs]
      intro i hi j hj _
      simp only [List.mem_cons, List.not_mem_nil, or_false, or_self] at hi hj
      rw [hi, hj]
    · rw [hinputs]
      intro a ha i hi
      have hdigest : toyEnv.sha256 (Hash.bytes 5 ++ Hash.bytes 5) ≠ 5 := by decide +kernel
      simp only [List.cons_append, List.nil_append, List.mem_cons, List.not_mem_nil, or_false, or_self] at ha hi
      rw [hi, ha]
      exact hdigest
  have happart : (merkleLeaves toyEnv Toy.c2 ++ merkleLeaves toyEnv laterSibling).all (fun a =>
      (merkleInputs toyEnv (merkleLeaves toyEnv Toy.c2) ++ merkleInputs toyEnv (merkleLeaves toyEnv laterSibling)).all
        fun i => !(toyEnv.sha256 i).val.beq a.val) = true := by decide +kernel
  have hblocks : Separate toyEnv (merkleLeaves toyEnv Toy.c2) (merkleLeaves toyEnv laterSibling) := by
    refine ⟨by unfold CollisionFree; decide +kernel, fun a ha i hi heq => ?_⟩
    have hne := List.all_eq_true.mp (List.all_eq_true.mp happart a ha) i hi
    rw [heq, Nat.beq_refl] at hne
    cases hne
  have hdecode : LeavesDecode toyEnv Toy.c2 laterSibling := ⟨by unfold CollisionFree; decide +kernel, by decide +kernel⟩
  let chain : ChainState := .holding toyEnv [Toy.genesis, Toy.b1] []
  exact ⟨hsep, ((merkle_root_binds toyEnv).1 [5] [5, 5] (by simp) (by simp) hsep
    ((merkle_root_binds toyEnv).2.1 5)).2 (by decide), by decide +kernel,
    (merkle_root_binds toyEnv).2.2 Toy.now Toy.now chain chain .requireFull .requireFull Toy.c2 laterSibling
      (by decide +kernel) (by decide +kernel) (by decide +kernel) hblocks hdecode⟩

end Alphanumeric
