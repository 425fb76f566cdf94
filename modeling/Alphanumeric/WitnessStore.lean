/-
# Retained witnesses

`src/a9/blockchain.rs`: blocks are stored with their signatures cut to 64 bytes. The full ones of
the last `WITNESS_RETENTION_BLOCKS` heights are kept beside them, one object by transaction id,
with a pin for every height that confirms the id; a prune drops the pins that are too old and then
the objects without a pin. A block on the tip retains and prunes, an adopted branch retains only,
and a start pins what the stored chain has objects for. The id does not tell two signings of one
payment apart, so an object is that of the last one that was retained.

The pending signatures, which are looked at first, change in any way between the steps; no write
fails. A block of the chain stands at the position of its height.

Key definitions: `WitnessStore`, `retainConfirmedWitnesses`, `pruneConfirmedWitnesses`,
`reconcileConfirmedWitnessIndex`, `blockWithFullWitnesses`, `step`, `Orderly`, `Held`.
Key theorems: `held_connect`, `held_prune`, `witnesses_restored`, `window_not_restored`.
-/
import Alphanumeric.Reorg
import Alphanumeric.StorageForm
import Alphanumeric.Lib.Trace

namespace Alphanumeric

structure WitnessStore where
  /-- The canonical chain, as it is stored. -/
  blocks : List Block
  /-- `confirmed_witnesses`. -/
  objects : Text → Option Transaction
  /-- `confirmed_witness_index`. -/
  pins : List (ℕ × Text)
  /-- `pending_full_signatures`. -/
  sidecar : Text → Option (List UInt8)

/-- `WITNESS_RETENTION_BLOCKS`. -/
def witnessRetentionBlocks : ℕ := 256

namespace WitnessStore

variable (E : Env)

def fresh (genesis : Block) : WitnessStore := ⟨[genesis], fun _ => none, [], fun _ => none⟩

/-! ### The operations -/

def witnessBinds (tx : Transaction) (sig : List UInt8) : Bool :=
  64 < sig.length && tx.sigHash == some (signatureHashHex E sig)

def witnessToRetain (tx : Transaction) (sidecarSig : Option (List UInt8)) (isBlockValidation : Bool) :
    Option (List UInt8) :=
  match sidecarSig.filter (witnessBinds E tx) with
  | some sig => some sig
  | none => if isBlockValidation = true then tx.sigBytes.filter (witnessBinds E tx) else none

def retainWitness (height : ℕ) (isBlockValidation : Bool) (s : WitnessStore) (tx : Transaction) : WitnessStore :=
  if tx.isCoinbase = true then s
  else
    match witnessToRetain E tx (s.sidecar (getTxId E tx)) isBlockValidation with
    | none => s
    | some sig =>
      { s with
        objects := Function.update s.objects (getTxId E tx) (some { tx with signature := some (hexEncode sig) })
        pins := (height, getTxId E tx) :: s.pins }

def retainConfirmedWitnesses (isBlockValidation : Bool) (s : WitnessStore) (b : Block) : WitnessStore :=
  b.transactions.foldl (retainWitness E b.index isBlockValidation) s

/-- The pins that a prune keeps: none goes while the chain is short. -/
def keptPins (s : WitnessStore) (tipHeight : ℕ) : List (ℕ × Text) :=
  s.pins.filter fun pin => !(witnessRetentionBlocks < tipHeight && pin.1 ≤ tipHeight - witnessRetentionBlocks)

def pruneConfirmedWitnesses (s : WitnessStore) (tipHeight : ℕ) : WitnessStore :=
  { s with
    objects := fun id => if id ∈ (s.keptPins tipHeight).map Prod.snd then s.objects id else none
    pins := s.keptPins tipHeight }

/-- The pins of a block for which there are objects. -/
def restoredPins (s : WitnessStore) (b : Block) : List (ℕ × Text) :=
  (b.transactions.filter fun tx => !tx.isSystem && (s.objects (getTxId E tx)).isSome).map fun tx =>
    (b.index, getTxId E tx)

def reconcileConfirmedWitnessIndex (s : WitnessStore) : WitnessStore :=
  let tipHeight := s.blocks.length - 1
  { s with pins := (s.blocks.drop (tipHeight - (witnessRetentionBlocks - 1))).flatMap (restoredPins E s) ++ s.pins }

/-- One transaction of `block_with_full_witnesses`. -/
def fullWitness (s : WitnessStore) (tx : Transaction) : Transaction :=
  if tx.isSystem = true then tx
  else
    match s.objects (getTxId E tx) with
    | some full => if full.signature.isSome = true then { tx with signature := full.signature } else tx
    | none => tx

def blockWithFullWitnesses (s : WitnessStore) (b : Block) : Block :=
  { b with transactions := b.transactions.map (fullWitness E s) }

/-- The canonical blocks from a height on are replaced, and what the new ones carry is retained. -/
def connect (s : WitnessStore) (forkStart : ℕ) (branch : List Block) (isBlockValidation : Bool) : WitnessStore :=
  { branch.foldl (retainConfirmedWitnesses E isBlockValidation) s with
    blocks := s.blocks.take forkStart ++ branch.map (toStorageBlock E) }

inductive Action where
  /-- `process_transactions_batch` of a block on the tip, in `BlockValidation` or in `ReceiptValidation`. -/
  | extend (b : Block) (isBlockValidation : Bool)
  /-- `adopt_branch_if_valid`. -/
  | adopt (forkStart : ℕ) (branch : List Block)
  | reconcile
  | pending (sidecar : Text → Option (List UInt8))

def step (s : WitnessStore) : Action → Option WitnessStore
  | .extend b isBlockValidation =>
    if b.index = s.blocks.length then
      some ((connect E s s.blocks.length [b] isBlockValidation).pruneConfirmedWitnesses b.index)
    else none
  | .adopt forkStart branch =>
    if branch.map (·.index) = List.range' forkStart branch.length ∧ forkStart ≤ s.blocks.length then
      some (connect E s forkStart branch true)
    else none
  | .reconcile => some (reconcileConfirmedWitnessIndex E s)
  | .pending sidecar => some { s with sidecar }

/-! ### What the runs are asked for -/

/-- The payments of a block carry the full signatures that they commit to. -/
def FullySigned (b : Block) : Prop :=
  ∀ tx ∈ b.transactions, tx.isCoinbase = false → tx.sigBytes.any (witnessBinds E tx) = true

/-- The payments of a block are all held in the sidecar, with the signatures that they commit to. -/
def HeldPending (s : WitnessStore) (b : Block) : Prop :=
  ∀ tx ∈ b.transactions, tx.isCoinbase = false → (s.sidecar (getTxId E tx)).any (witnessBinds E tx) = true

/-- No payment is signed in two ways. -/
def OneSigning (blocks : List Block) : Prop :=
  ∀ b ∈ blocks, ∀ tx ∈ b.transactions, tx.isCoinbase = false →
    ∀ b' ∈ blocks, ∀ tx' ∈ b'.transactions, tx'.isCoinbase = false → getTxId E tx' = getTxId E tx →
      tx'.signature = tx.signature ∧ tx'.sigHash = tx.sigHash

/-- The stored chain from height `h` on below `forkStart`, and the branch. -/
def joined (h : ℕ) (s : WitnessStore) (forkStart : ℕ) (branch : List Block) : List Block :=
  (s.blocks.take forkStart).filter (fun b => h ≤ b.index) ++ branch.map (toStorageBlock E)

/-- Blocks carry full signatures and are validated with them, or the sidecar holds these; no payment from height `h` on
is signed in two ways; and nothing is applied on the tip so far up that a prune passes height `h`. -/
def Orderly (h : ℕ) (s : WitnessStore) : Action → Prop
  | .extend b isBlockValidation =>
    FullySigned E b ∧ (isBlockValidation = true ∨ HeldPending E s b) ∧ b.index < h + witnessRetentionBlocks ∧
      OneSigning E (joined E h s s.blocks.length [b])
  | .adopt forkStart branch => (∀ b ∈ branch, FullySigned E b) ∧ OneSigning E (joined E h s forkStart branch)
  | _ => True

/-- A pending signature that has the hash of a block's is the block's. -/
def NoCollision (s : WitnessStore) (b : Block) : Prop :=
  ∀ tx ∈ b.transactions, tx.isCoinbase = false → ∀ sig ∈ s.sidecar (getTxId E tx), witnessBinds E tx sig = true →
    tx.sigBytes = some sig

def Unforged (s : WitnessStore) : Action → Prop
  | .extend b _ => NoCollision E s b
  | .adopt _ branch => ∀ b ∈ branch, NoCollision E s b
  | _ => True

instance (b : Block) : Decidable (FullySigned E b) := inferInstanceAs (Decidable (∀ tx ∈ b.transactions, _))

instance (s : WitnessStore) (b : Block) : Decidable (HeldPending E s b) :=
  inferInstanceAs (Decidable (∀ tx ∈ b.transactions, _))

instance (blocks : List Block) : Decidable (OneSigning E blocks) := inferInstanceAs (Decidable (∀ b ∈ blocks, _))

instance (s : WitnessStore) (b : Block) : Decidable (NoCollision E s b) :=
  inferInstanceAs (Decidable (∀ tx ∈ b.transactions, _))

instance (h : ℕ) (s : WitnessStore) : (a : Action) → Decidable (Orderly E h s a)
  | .extend .. | .adopt .. => inferInstanceAs (Decidable (_ ∧ _))
  | .reconcile | .pending _ => inferInstanceAs (Decidable True)

instance (s : WitnessStore) : (a : Action) → Decidable (Unforged E s a)
  | .extend b _ => inferInstanceAs (Decidable (NoCollision E s b))
  | .adopt _ branch => inferInstanceAs (Decidable (∀ b ∈ branch, NoCollision E s b))
  | .reconcile | .pending _ => inferInstanceAs (Decidable True)

/-! ### What is retained -/

/-- What is to be true of a stored payment and its witness; it depends on the payment's signature and its hash. -/
structure Binding where
  holds : Transaction → List UInt8 → Prop
  congr : ∀ {tx tx' sig}, tx'.signature = tx.signature → tx'.sigHash = tx.sigHash → holds tx sig → holds tx' sig

/-- The witness has the hash. -/
def Binding.hash : Binding where
  holds tx sig := witnessBinds E tx sig = true
  congr := by
    intro tx tx' sig _ hhash h
    rwa [witnessBinds, hhash]

/-- The witness has the hash, and the stored signature is its beginning. -/
def Binding.cut : Binding where
  holds tx sig := witnessBinds E tx sig = true ∧ tx.signature = some (hexEncode (sig.take 64))
  congr := by
    intro tx tx' sig hsignature hhash h
    rw [witnessBinds, hhash, hsignature]
    exact h

variable {E} {s t : WitnessStore} {P : Binding} {h : ℕ}

/-- There is an object for the payment, and its signature is as it is to be. -/
def Served (E : Env) (P : Binding) (s : WitnessStore) (tx : Transaction) : Prop :=
  ∃ full sig, s.objects (getTxId E tx) = some full ∧ full.signature = some (hexEncode sig) ∧ P.holds tx sig

/-- The payments of a block will be retained. -/
def Keeps (E : Env) (P : Binding) (isBlockValidation : Bool) (s : WitnessStore) (b : Block) : Prop :=
  ∀ tx ∈ b.transactions, tx.isCoinbase = false → ∃ sig,
    witnessToRetain E tx (s.sidecar (getTxId E tx)) isBlockValidation = some sig ∧
      P.holds (toStorageTransaction E tx) sig

/-- From height `h` on every canonical payment has its pin and its object. -/
def Held (E : Env) (P : Binding) (h : ℕ) (s : WitnessStore) : Prop :=
  ∀ b ∈ s.blocks, h ≤ b.index → ∀ tx ∈ b.transactions, tx.isCoinbase = false →
    (b.index, getTxId E tx) ∈ s.pins ∧ Served E P s tx

theorem getTxId_toStorageTransaction (tx : Transaction) : getTxId E (toStorageTransaction E tx) = getTxId E tx := by
  unfold toStorageTransaction
  split
  · rfl
  · split
    · rfl
    · split <;> rfl

/-! ### Retention -/

@[simp] theorem retainWitness_sidecar (height : ℕ) (v : Bool) (tx : Transaction) :
    (retainWitness E height v s tx).sidecar = s.sidecar := by
  unfold retainWitness
  split_ifs
  · rfl
  · split <;> rfl

/-- An object stays right if what replaces it is right, too. -/
theorem Served.retainWitness {tx tx₀ : Transaction} (hs : Served E P s tx₀) (height : ℕ) (v : Bool)
    (hnew : ∀ sig, tx.isCoinbase = false → getTxId E tx = getTxId E tx₀ →
      witnessToRetain E tx (s.sidecar (getTxId E tx)) v = some sig → P.holds tx₀ sig) :
    Served E P (retainWitness E height v s tx) tx₀ := by
  unfold WitnessStore.retainWitness
  split_ifs with hcb
  · exact hs
  · split
    · exact hs
    next sig hsig =>
      by_cases hid : getTxId E tx₀ = getTxId E tx
      · refine ⟨{ tx with signature := some (hexEncode sig) }, sig, ?_, rfl,
          hnew sig (Bool.eq_false_iff.mpr hcb) hid.symm hsig⟩
        dsimp only
        rw [hid, Function.update_self]
      · obtain ⟨full, held, hobject, hfull, hholds⟩ := hs
        refine ⟨full, held, ?_, hfull, hholds⟩
        dsimp only
        rw [Function.update_of_ne hid]
        exact hobject

/-- A payment that is retained has its object. -/
theorem served_retainWitness {tx tx₀ : Transaction} {sig : List UInt8} (height : ℕ) {v : Bool}
    (hcb : tx.isCoinbase = false) (hid : getTxId E tx = getTxId E tx₀)
    (hsig : witnessToRetain E tx (s.sidecar (getTxId E tx)) v = some sig) (hholds : P.holds tx₀ sig) :
    Served E P (retainWitness E height v s tx) tx₀ := by
  unfold retainWitness
  rw [if_neg (by simp [hcb]), hsig]
  refine ⟨{ tx with signature := some (hexEncode sig) }, sig, ?_, rfl, hholds⟩
  dsimp only
  rw [← hid, Function.update_self]

/-- And its pin. -/
theorem pinned_retainWitness {tx : Transaction} {sig : List UInt8} (height : ℕ) {v : Bool}
    (hcb : tx.isCoinbase = false) (hsig : witnessToRetain E tx (s.sidecar (getTxId E tx)) v = some sig) :
    (height, getTxId E tx) ∈ (retainWitness E height v s tx).pins := by
  unfold retainWitness
  rw [if_neg (by simp [hcb]), hsig]
  exact List.mem_cons_self ..

theorem mem_pins_retainWitness {tx : Transaction} {pin : ℕ × Text} (height : ℕ) (v : Bool) (hpin : pin ∈ s.pins) :
    pin ∈ (retainWitness E height v s tx).pins := by
  unfold retainWitness
  split_ifs
  · exact hpin
  · split
    · exact hpin
    · exact List.mem_cons_of_mem _ hpin

/-- The payments of some blocks, with their heights. -/
def occurrences (blocks : List Block) : List (ℕ × Transaction) :=
  blocks.flatMap fun b => b.transactions.map fun tx => (b.index, tx)

theorem mem_occurrences {blocks : List Block} {e : ℕ × Transaction} :
    e ∈ occurrences blocks ↔ ∃ b ∈ blocks, e.2 ∈ b.transactions ∧ e.1 = b.index := by
  obtain ⟨height, tx⟩ := e
  simp only [occurrences, List.mem_flatMap, List.mem_map, Prod.mk.injEq]
  constructor
  · rintro ⟨b, hb, tx', htx, rfl, rfl⟩
    exact ⟨b, hb, htx, rfl⟩
  · rintro ⟨b, hb, htx, rfl⟩
    exact ⟨b, hb, tx, htx, rfl, rfl⟩

def retainAll (E : Env) (v : Bool) (s : WitnessStore) (es : List (ℕ × Transaction)) : WitnessStore :=
  es.foldl (fun s e => retainWitness E e.1 v s e.2) s

theorem retainAll_cons (v : Bool) (s : WitnessStore) (e : ℕ × Transaction) (es : List (ℕ × Transaction)) :
    retainAll E v s (e :: es) = retainAll E v (retainWitness E e.1 v s e.2) es := rfl

theorem foldl_retain (v : Bool) (branch : List Block) (s : WitnessStore) :
    branch.foldl (retainConfirmedWitnesses E v) s = retainAll E v s (occurrences branch) := by
  rw [retainAll, occurrences, List.foldl_flatMap]
  refine congrArg (fun f => branch.foldl f s) ?_
  funext s b
  rw [retainConfirmedWitnesses, List.foldl_map]

/-- Every payment in hand is retained, with what is right for the payment in question where the two have one id. -/
def Retains (E : Env) (P : Binding) (v : Bool) (s : WitnessStore) (tx₀ : Transaction) (es : List (ℕ × Transaction)) :
    Prop := ∀ e ∈ es, e.2.isCoinbase = false → ∃ sig,
  witnessToRetain E e.2 (s.sidecar (getTxId E e.2)) v = some sig ∧ (getTxId E e.2 = getTxId E tx₀ → P.holds tx₀ sig)

theorem Retains.tail {v : Bool} {tx₀ : Transaction} {e : ℕ × Transaction} {es : List (ℕ × Transaction)}
    (hes : Retains E P v s tx₀ (e :: es)) : Retains E P v (retainWitness E e.1 v s e.2) tx₀ es := by
  unfold Retains
  rw [retainWitness_sidecar]
  exact fun e' he' => hes e' (List.mem_cons_of_mem _ he')

theorem served_retainAll {v : Bool} {tx₀ : Transaction} : ∀ {es : List (ℕ × Transaction)} {s : WitnessStore},
    Retains E P v s tx₀ es →
      (Served E P s tx₀ ∨ ∃ e ∈ es, e.2.isCoinbase = false ∧ getTxId E e.2 = getTxId E tx₀) →
        Served E P (retainAll E v s es) tx₀
  | [], _, _, hor => by
    rcases hor with hs | ⟨e, he, -⟩
    · exact hs
    · exact absurd he List.not_mem_nil
  | e :: es, s, hes, hor => by
    have he := hes e (List.mem_cons_self ..)
    rw [retainAll_cons]
    refine served_retainAll hes.tail ?_
    rcases hor with hs | ⟨e', he', hcb, hid⟩
    · refine .inl (hs.retainWitness e.1 v fun sig hcb hid hsig => ?_)
      obtain ⟨sig', hsig', hholds⟩ := he hcb
      obtain rfl : sig' = sig := Option.some.inj (hsig'.symm.trans hsig)
      exact hholds hid
    · rcases List.mem_cons.mp he' with rfl | he'
      · obtain ⟨sig, hsig, hholds⟩ := he hcb
        exact .inl (served_retainWitness e'.1 hcb hid hsig (hholds hid))
      · exact .inr ⟨e', he', hcb, hid⟩

theorem mem_pins_retainAll {v : Bool} {pin : ℕ × Text} : ∀ {es : List (ℕ × Transaction)} {s : WitnessStore},
    pin ∈ s.pins → pin ∈ (retainAll E v s es).pins
  | [], _, hpin => hpin
  | e :: _, _, hpin => by
    rw [retainAll_cons]
    exact mem_pins_retainAll (mem_pins_retainWitness e.1 v hpin)

theorem pinned_retainAll {v : Bool} {tx tx₀ : Transaction} {height : ℕ} (hcb : tx.isCoinbase = false) :
    ∀ {es : List (ℕ × Transaction)} {s : WitnessStore}, Retains E P v s tx₀ es → (height, tx) ∈ es →
      (height, getTxId E tx) ∈ (retainAll E v s es).pins
  | e :: es, s, hes, hmem => by
    have he := hes e (List.mem_cons_self ..)
    rw [retainAll_cons]
    rcases List.mem_cons.mp hmem with rfl | hmem
    · obtain ⟨sig, hsig, -⟩ := he hcb
      exact mem_pins_retainAll (pinned_retainWitness height hcb hsig)
    · exact pinned_retainAll hcb hes.tail hmem

/-! ### The steps -/

/-- Where no payment is signed in two ways, a new end of the chain leaves every payment with its witness. -/
theorem held_connect {forkStart : ℕ} {branch : List Block} {v : Bool} (hs : Held E P h s)
    (hkeeps : ∀ b ∈ branch, Keeps E P v s b) (hone : OneSigning E (joined E h s forkStart branch)) :
    Held E P h (connect E s forkStart branch v) := by
  intro b hb hheight tx htx hcb
  have hjoined : b ∈ joined E h s forkStart branch := by
    rcases List.mem_append.mp hb with hkept | hnew
    · exact List.mem_append_left _ (List.mem_filter.mpr ⟨hkept, decide_eq_true hheight⟩)
    · exact List.mem_append_right _ hnew
  have hretains : Retains E P v s tx (occurrences branch) := by
    intro e he hcb'
    obtain ⟨b', hb', htx', -⟩ := mem_occurrences.mp he
    obtain ⟨sig, hsig, hholds⟩ := hkeeps b' hb' e.2 htx' hcb'
    refine ⟨sig, hsig, fun hid => ?_⟩
    have hstored : toStorageBlock E b' ∈ joined E h s forkStart branch :=
      List.mem_append_right _ (List.mem_map_of_mem hb')
    obtain ⟨hsignature, hhash⟩ := hone (toStorageBlock E b') hstored (toStorageTransaction E e.2)
      (List.mem_map_of_mem htx') (by rw [isCoinbase_toStorageTransaction]; exact hcb') b hjoined tx htx hcb
      (by rw [getTxId_toStorageTransaction]; exact hid.symm)
    exact P.congr hsignature hhash hholds
  unfold connect
  rw [foldl_retain]
  rcases List.mem_append.mp hb with hkept | hnew
  · obtain ⟨hpin, hserved⟩ := hs b (List.mem_of_mem_take hkept) hheight tx htx hcb
    exact ⟨mem_pins_retainAll hpin, served_retainAll hretains (.inl hserved)⟩
  · obtain ⟨b₀, hb₀, rfl⟩ := List.mem_map.mp hnew
    obtain ⟨tx₀, htx₀, rfl⟩ := List.mem_map.mp htx
    have hcb₀ : tx₀.isCoinbase = false := by rwa [isCoinbase_toStorageTransaction] at hcb
    have hmem : (b₀.index, tx₀) ∈ occurrences branch := mem_occurrences.mpr ⟨b₀, hb₀, htx₀, rfl⟩
    rw [getTxId_toStorageTransaction]
    exact ⟨pinned_retainAll hcb₀ hretains hmem,
      served_retainAll hretains (.inr ⟨_, hmem, hcb₀, (getTxId_toStorageTransaction tx₀).symm⟩)⟩

theorem mem_keptPins {tipHeight : ℕ} {pin : ℕ × Text} (hpin : pin ∈ s.pins)
    (htip : tipHeight < pin.1 + witnessRetentionBlocks) : pin ∈ s.keptPins tipHeight := by
  refine List.mem_filter.mpr ⟨hpin, ?_⟩
  rw [Bool.not_eq_true', Bool.and_eq_false_iff, decide_eq_false_iff_not, decide_eq_false_iff_not]
  omega

/-- A prune leaves the pins above it, and their objects. -/
theorem held_prune {tipHeight : ℕ} (hs : Held E P h s) (htip : tipHeight < h + witnessRetentionBlocks) :
    Held E P h (s.pruneConfirmedWitnesses tipHeight) := by
  intro b hb hheight tx htx hcb
  obtain ⟨hpin, full, sig, hobject, hfull⟩ := hs b hb hheight tx htx hcb
  have hkept : (b.index, getTxId E tx) ∈ s.keptPins tipHeight := by
    refine mem_keptPins hpin ?_
    dsimp only
    omega
  have hid : getTxId E tx ∈ (s.keptPins tipHeight).map Prod.snd := List.mem_map.mpr ⟨_, hkept, rfl⟩
  refine ⟨hkept, full, sig, ?_, hfull⟩
  rw [← hobject]
  exact if_pos hid

theorem held_reconcile (hs : Held E P h s) : Held E P h (reconcileConfirmedWitnessIndex E s) := by
  intro b hb hheight tx htx hcb
  rw [reconcileConfirmedWitnessIndex] at hb
  obtain ⟨hpin, full, sig, hobject, hfull⟩ := hs b hb hheight tx htx hcb
  rw [reconcileConfirmedWitnessIndex]
  exact ⟨List.mem_append.mpr (.inr hpin), full, sig, hobject, hfull⟩

/-- A signature that is retained has the hash, and is the sidecar's or the payment's own. -/
theorem witnessToRetain_binds {tx : Transaction} {sidecarSig : Option (List UInt8)} {v : Bool} {sig : List UInt8}
    (hsig : witnessToRetain E tx sidecarSig v = some sig) :
    witnessBinds E tx sig = true ∧ (sidecarSig = some sig ∨ tx.sigBytes = some sig) := by
  unfold witnessToRetain at hsig
  split at hsig
  next held hheld =>
    obtain rfl := Option.some.inj hsig
    obtain ⟨hsome, hbinds⟩ := Option.filter_eq_some_iff.mp hheld
    exact ⟨hbinds, .inl hsome⟩
  next =>
    split_ifs at hsig
    obtain ⟨hsome, hbinds⟩ := Option.filter_eq_some_iff.mp hsig
    exact ⟨hbinds, .inr hsome⟩

/-- A fully signed payment is retained in a block validation, and otherwise if the sidecar holds it. -/
theorem exists_witnessToRetain {tx : Transaction} {sidecarSig : Option (List UInt8)} {v : Bool}
    (hsigned : tx.sigBytes.any (witnessBinds E tx) = true)
    (hv : v = true ∨ sidecarSig.any (witnessBinds E tx) = true) :
    ∃ sig, witnessToRetain E tx sidecarSig v = some sig := by
  unfold witnessToRetain
  split
  · exact ⟨_, rfl⟩
  next hnone =>
    have hnot : ¬ sidecarSig.any (witnessBinds E tx) = true := by
      intro hany
      obtain ⟨sig, hsome, hbinds⟩ := (Option.any_eq_true _ _).mp hany
      exact absurd (hnone.symm.trans (Option.filter_eq_some_iff.mpr ⟨hsome, hbinds⟩)) (by simp)
    obtain ⟨sig, hsome, hbinds⟩ := (Option.any_eq_true _ _).mp hsigned
    rw [if_pos (hv.resolve_right hnot)]
    exact ⟨sig, Option.filter_eq_some_iff.mpr ⟨hsome, hbinds⟩⟩

theorem toStorageTransaction_of_binds {tx : Transaction} {sig : List UInt8} (hcb : tx.isCoinbase = false)
    (hbinds : witnessBinds E tx sig = true) :
    toStorageTransaction E tx = withTruncatedSignature tx (signatureHashHex E sig) := by
  rw [witnessBinds, Bool.and_eq_true] at hbinds
  unfold toStorageTransaction
  rw [if_neg (by simp [hcb]), eq_of_beq hbinds.2]

theorem keeps_of_signed {b : Block} {v : Bool} (hsigned : FullySigned E b) (hv : v = true ∨ HeldPending E s b)
    (hholds : ∀ tx ∈ b.transactions, tx.isCoinbase = false → ∀ sig, witnessBinds E tx sig = true →
      s.sidecar (getTxId E tx) = some sig ∨ tx.sigBytes = some sig → P.holds (toStorageTransaction E tx) sig) :
    Keeps E P v s b := by
  intro tx htx hcb
  obtain ⟨sig, hsig⟩ : ∃ sig, witnessToRetain E tx (s.sidecar (getTxId E tx)) v = some sig :=
    exists_witnessToRetain (hsigned tx htx hcb) (hv.imp_right fun hheld => hheld tx htx hcb)
  obtain ⟨hbinds, hfrom⟩ := witnessToRetain_binds hsig
  exact ⟨sig, hsig, hholds tx htx hcb sig hbinds hfrom⟩

theorem keeps_hash {b : Block} {v : Bool} (hsigned : FullySigned E b) (hv : v = true ∨ HeldPending E s b) :
    Keeps E (.hash E) v s b := by
  refine keeps_of_signed hsigned hv fun tx _ hcb sig hbinds _ => ?_
  rw [toStorageTransaction_of_binds hcb hbinds]
  rw [witnessBinds, Bool.and_eq_true] at hbinds
  exact Bool.and_eq_true_iff.mpr ⟨hbinds.1, beq_self_eq_true _⟩

theorem keeps_cut {b : Block} {v : Bool} (hsigned : FullySigned E b) (hv : v = true ∨ HeldPending E s b)
    (hforged : NoCollision E s b) : Keeps E (.cut E) v s b := by
  refine keeps_of_signed hsigned hv fun tx htx hcb sig hbinds hfrom => ?_
  have hown : tx.sigBytes = some sig := hfrom.elim (fun hheld => hforged tx htx hcb sig hheld hbinds) id
  rw [toStorageTransaction_of_binds hcb hbinds]
  rw [witnessBinds, Bool.and_eq_true] at hbinds
  refine ⟨Bool.and_eq_true_iff.mpr ⟨hbinds.1, beq_self_eq_true _⟩, ?_⟩
  rw [withTruncatedSignature, hown]
  rfl

/-- A step keeps the payments from height `h` on with their witnesses, where all that it applies is retained. -/
theorem held_step {a : Action} (hs : Held E P h s) (horderly : Orderly E h s a)
    (hextend : ∀ b v, a = .extend b v → Keeps E P v s b)
    (hadopt : ∀ forkStart branch, a = .adopt forkStart branch → ∀ b ∈ branch, Keeps E P true s b)
    (hstep : step E s a = some t) : Held E P h t := by
  cases a with
  | extend b v =>
    simp only [step] at hstep
    split_ifs at hstep
    obtain rfl := Option.some.inj hstep
    obtain ⟨-, -, htip, hone⟩ := horderly
    refine held_prune (held_connect hs (fun c hc => ?_) hone) htip
    rw [List.mem_singleton.mp hc]
    exact hextend b v rfl
  | adopt forkStart branch =>
    simp only [step] at hstep
    split_ifs at hstep
    obtain rfl := Option.some.inj hstep
    exact held_connect hs (hadopt forkStart branch rfl) horderly.2
  | reconcile =>
    obtain rfl := Option.some.inj hstep
    exact held_reconcile hs
  | pending sidecar =>
    obtain rfl := Option.some.inj hstep
    exact hs

theorem held_hash_step {a : Action} (hs : Held E (.hash E) h s) (horderly : Orderly E h s a)
    (hstep : step E s a = some t) : Held E (.hash E) h t := by
  refine held_step hs horderly (fun b v ha => ?_) (fun forkStart branch ha b hb => ?_) hstep
  · subst ha
    exact keeps_hash horderly.1 horderly.2.1
  · subst ha
    exact keeps_hash (horderly.1 b hb) (.inl rfl)

theorem held_cut_step {a : Action} (hs : Held E (.cut E) h s) (horderly : Orderly E h s a) (hforged : Unforged E s a)
    (hstep : step E s a = some t) : Held E (.cut E) h t := by
  refine held_step hs horderly (fun b v ha => ?_) (fun forkStart branch ha b hb => ?_) hstep
  · subst ha
    exact keeps_cut horderly.1 horderly.2.1 hforged
  · subst ha
    exact keeps_cut (horderly.1 b hb) (.inl rfl) (hforged b hb)

/-! ### What is restored -/

theorem Served.fullWitness {tx : Transaction} (hs : Served E P s tx) (hcb : tx.isCoinbase = false) :
    ∃ sig, fullWitness E s tx = { tx with signature := some (hexEncode sig) } ∧ P.holds tx sig := by
  obtain ⟨full, sig, hobject, hfull, hholds⟩ := hs
  refine ⟨sig, ?_, hholds⟩
  unfold WitnessStore.fullWitness
  rw [Transaction.isSystem_eq_isCoinbase, if_neg (by simp [hcb]), hobject]
  dsimp only
  rw [hfull, Option.isSome_some, if_pos rfl]

/-- A leaf of the Merkle tree is the same with the witness whose beginning is stored. -/
theorem merkleForm_fullWitness {tx : Transaction} (hs : tx.isCoinbase = false → Served E (.cut E) s tx) :
    merkleForm E (fullWitness E s tx) = merkleForm E tx := by
  cases hcb : tx.isCoinbase with
  | true =>
    have hsystem : tx.isSystem = true := by rw [Transaction.isSystem_eq_isCoinbase, hcb]
    rw [fullWitness, if_pos hsystem]
  | false =>
    obtain ⟨sig, hfull, hbinds, hcut⟩ := (hs hcb).fullWitness hcb
    rw [witnessBinds, Bool.and_eq_true] at hbinds
    have hhash := eq_of_beq hbinds.2
    have hcb' : ({ tx with signature := some (hexEncode sig) } : Transaction).isCoinbase = false := hcb
    rw [hfull]
    unfold merkleForm
    rw [hcb, hcb', if_neg Bool.false_ne_true, if_neg Bool.false_ne_true]
    dsimp only
    rw [hhash]
    dsimp only
    unfold withTruncatedSignature Transaction.sigBytes
    dsimp only
    rw [hcut, Option.bind_some, Option.bind_some, hexDecode_hexEncode, hexDecode_hexEncode, Option.map_some,
      Option.map_some, List.take_take, min_self]

/-- A block is served with the full signatures of its payments. -/
def Restored (E : Env) (s : WitnessStore) (b : Block) : Prop :=
  ∀ tx ∈ b.transactions, tx.isCoinbase = false → (fullWitness E s tx).sigBytes.any (witnessBinds E tx) = true

instance (s : WitnessStore) (b : Block) : Decidable (Restored E s b) :=
  inferInstanceAs (Decidable (∀ tx ∈ b.transactions, _))

theorem Held.restored (hs : Held E (.hash E) h s) {b : Block} (hb : b ∈ s.blocks) (hheight : h ≤ b.index) :
    Restored E s b := by
  intro tx htx hcb
  obtain ⟨sig, hfull, hbinds⟩ := (hs b hb hheight tx htx hcb).2.fullWitness hcb
  rw [hfull, Transaction.sigBytes]
  dsimp only
  rw [Option.bind_some, hexDecode_hexEncode]
  exact hbinds

theorem Held.merkleRoot (hs : Held E (.cut E) h s) {b : Block} (hb : b ∈ s.blocks) (hheight : h ≤ b.index) :
    calculateMerkleRoot E (blockWithFullWitnesses E s b).transactions = calculateMerkleRoot E b.transactions := by
  rw [calculateMerkleRoot, calculateMerkleRoot, blockWithFullWitnesses, List.map_map]
  refine congrArg _ (List.map_congr_left fun tx htx => ?_)
  rw [Function.comp_apply, calculateMerkleLeafHash, calculateMerkleLeafHash,
    merkleForm_fullWitness fun hcb => (hs b hb hheight tx htx hcb).2]

/-- **Witnesses are restored** from height `h` on, while no prune passes it, for blocks that were retained with full
signatures; and then the Merkle root is that of the stored block. -/
theorem witnesses_restored (E : Env) (h : ℕ) {genesis : Block} {t : WitnessStore} {tr : List (WitnessStore × Action)}
    (hgenesis : ∀ tx ∈ genesis.transactions, tx.isCoinbase = true)
    (hrun : Trace.Run (fun s a t => step E s a = some t) (fresh genesis) tr t)
    (horderly : ∀ p ∈ tr, Orderly E h p.1 p.2) {b : Block} (hb : b ∈ t.blocks) (hheight : h ≤ b.index) :
    Restored E t b ∧ ((∀ p ∈ tr, Unforged E p.1 p.2) →
      calculateMerkleRoot E (blockWithFullWitnesses E t b).transactions = calculateMerkleRoot E b.transactions) := by
  have hstart : ∀ P : Binding, Held E P h (fresh genesis) := by
    intro P c hc _ tx htx hcb
    rw [List.mem_singleton.mp hc] at htx
    exact absurd (hgenesis tx htx) (by simp [hcb])
  constructor
  · have hheld := hrun.invariant (C := Orderly E h) (fun _ _ _ hs hC hst => held_hash_step hs hC hst)
      (hstart (.hash E)) horderly
    exact hheld.restored hb hheight
  · intro hforged
    have hheld := hrun.invariant (C := fun s a => Orderly E h s a ∧ Unforged E s a)
      (fun _ _ _ hs hC hst => held_cut_step hs hC.1 hC.2 hst) (hstart (.cut E))
      fun p hp => ⟨horderly p hp, hforged p hp⟩
    exact hheld.merkleRoot hb hheight

open Toy

/-- The payment signed once more. -/
def resigned : Transaction :=
  let sig := List.replicate 65 1
  { pay with signature := some (hexEncode sig), sigHash := some (signatureHashHex toyEnv sig) }

def d2 : Block := toyBlock b1 6 bob [resigned]

def plain (height : ℕ) : Block := { b1 with index := height }

/-- The payment is confirmed out of the sidecar, then in its other signing on another branch, and then as before. -/
def resigning : List Action :=
  [.extend b1 true, .pending fun id => if id = getTxId toyEnv pay then pay.sigBytes else none, .extend c2 false,
    .pending fun _ => none, .adopt 2 [d2, plain 3], .reconcile, .adopt 2 [c2, plain 3, plain 4], .extend (plain 5) true]

theorem resigned_restored :
    ∃ r, Trace.follow (step toyEnv) (fresh genesis) resigning = some r ∧ c2.index = 2 ∧
      ∀ b ∈ r.2.blocks, 1 ≤ b.index → Restored toyEnv r.2 b ∧
        calculateMerkleRoot toyEnv (blockWithFullWitnesses toyEnv r.2 b).transactions =
          calculateMerkleRoot toyEnv b.transactions := by
  have h : (Trace.follow (step toyEnv) (fresh genesis) resigning).any (fun r =>
      r.1.all fun p => decide (Orderly toyEnv 1 p.1 p.2 ∧ Unforged toyEnv p.1 p.2)) = true := by
    decide +kernel
  obtain ⟨r, hr, h⟩ := (Option.any_eq_true _ _).mp h
  rw [List.all_eq_true] at h
  refine ⟨r, hr, rfl, fun b hb hheight => ?_⟩
  have hrestored := witnesses_restored toyEnv 1 (by decide) (Trace.run_follow hr)
    (fun p hp => (of_decide_eq_true (h p hp)).1) hb hheight
  exact ⟨hrestored.1, hrestored.2 fun p hp => (of_decide_eq_true (h p hp)).2⟩

/-- The blocks that an action applies carry full signatures. -/
def AppliesSigned (E : Env) : Action → Prop
  | .extend b _ => FullySigned E b
  | .adopt _ branch => ∀ b ∈ branch, FullySigned E b
  | _ => True

instance : (a : Action) → Decidable (AppliesSigned E a)
  | .extend b _ => inferInstanceAs (Decidable (FullySigned E b))
  | .adopt _ branch => inferInstanceAs (Decidable (∀ b ∈ branch, FullySigned E b))
  | .reconcile | .pending _ => inferInstanceAs (Decidable True)

/-- A block in full that is validated as a receipt. -/
def asReceipt : List Action := [.extend b1 true, .extend c2 false]

/-- The payment of height 1 leaves the window with height 257, and the chain comes down to 256. -/
def cameDown : List Action :=
  [.extend (toyBlock genesis 5 bob [pay]) true, .adopt 2 ((List.range' 2 127).map plain),
    .adopt 129 ((List.range' 129 128).map plain), .extend (plain 257) true, .adopt 256 [{ plain 256 with nonce := 1 }]]

/-- The run applies its blocks with full signatures, and one of the window is not restored after it. -/
def Loses (acts : List Action) : Prop :=
  (∀ a ∈ acts, AppliesSigned toyEnv a) ∧ ∃ r, Trace.follow (step toyEnv) (fresh genesis) acts = some r ∧
    ∃ b ∈ r.2.blocks, r.2.blocks.length ≤ b.index + witnessRetentionBlocks ∧ ¬ Restored toyEnv r.2 b

theorem loses_of_run {acts : List Action} (h : (acts.all (fun a => decide (AppliesSigned toyEnv a)) &&
    (Trace.follow (step toyEnv) (fresh genesis) acts).any fun r => r.2.blocks.any fun b =>
      decide (r.2.blocks.length ≤ b.index + witnessRetentionBlocks ∧ ¬ Restored toyEnv r.2 b)) = true) :
    Loses acts := by
  rw [Bool.and_eq_true, List.all_eq_true, Option.any_eq_true] at h
  obtain ⟨hsigned, r, hr, hblocks⟩ := h
  obtain ⟨b, hb, hnot⟩ := List.any_eq_true.mp hblocks
  exact ⟨fun a ha => of_decide_eq_true (hsigned a ha), r, hr, b, hb, of_decide_eq_true hnot⟩

theorem window_not_restored : Loses asReceipt ∧ Loses cameDown := by
  constructor
  · exact loses_of_run (by decide +kernel)
  · exact loses_of_run (by decide +kernel)

end WitnessStore

end Alphanumeric
