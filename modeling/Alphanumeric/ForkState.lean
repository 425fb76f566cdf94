/-
# The fork-boundary state of a reorg

`balances_at_fork_state` reads the balances index for the addresses that the reverted
blocks and the candidate branch touch, reverts the canonical blocks above the fork and
seeds the maturity window from the stored blocks below it. Where the index vouches for the
tip, the dry run of any branch from there gives the verdict of the replay from genesis:
reverting is the inverse of applying, the seeded window is the one a replay carries across
the fork, and neither the branch nor the reverted blocks look at an address outside. The tree
keeps its height marker under a key of its own address space, so none of them may name that key.

Key definitions: `balancesHeightKey`, `confirmedUnits`, `touches`, `ChainState.loadBlocks`,
`ChainState.forkStateOfTouched`, `AgreeOn`.
Key theorems: `replayBlocks_agree`, `below_fork`, `fast_dry_run_agrees`, `marker_read_as_a_balance`.
-/
import Alphanumeric.Reorg

namespace Alphanumeric

open Guard BlockchainError ChainState

/-! ### Reads of the balances tree -/

/-- `BALANCES_HEIGHT_KEY`, a key of the balances tree itself. -/
def balancesHeightKey : Text := ['_', '_', 'h', 'e', 'i', 'g', 'h', 't']

section Reads

variable (markerUnits : ℕ → Res ℤ)

/-- The units that the balances tree holds under an address; `markerUnits` is what the marker's bytes read as. -/
def confirmedUnits (s : ChainState) (address : Text) : Res ℤ :=
  if address = balancesHeightKey then (s.balancesHeight.map markerUnits).getD (.ok 0) else .ok (s.balances address)

/-- The tree read for all of `addresses`. -/
def prefetchBalances (s : ChainState) (addresses : List Text) : Res Balances := do
  checkAll (fun a => (confirmedUnits markerUnits s a).map fun _ => ()) addresses
  .ok fun a => (confirmedUnits markerUnits s a).toOption.getD 0

end Reads

section Reads

variable {markerUnits : ℕ → Res ℤ}

theorem confirmedUnits_of_ne {s : ChainState} {a : Text} (ha : a ≠ balancesHeightKey) :
    confirmedUnits markerUnits s a = .ok (s.balances a) := by
  unfold confirmedUnits
  rw [if_neg ha]

/-- What the first pass reads, as a function. -/
def readBalances (markerUnits : ℕ → Res ℤ) (s : ChainState) : Balances :=
  fun a => (confirmedUnits markerUnits s a).toOption.getD 0

theorem readBalances_of_ne {s : ChainState} {a : Text} (ha : a ≠ balancesHeightKey) :
    readBalances markerUnits s a = s.balances a := by
  unfold readBalances
  rw [confirmedUnits_of_ne ha]
  rfl

theorem prefetchBalances_eq {s : ChainState} {addresses : List Text} (h : ∀ a ∈ addresses, a ≠ balancesHeightKey) :
    prefetchBalances markerUnits s addresses = .ok (readBalances markerUnits s) := by
  have hall : checkAll (fun a => (confirmedUnits markerUnits s a).map fun _ => ()) addresses = .ok () := by
    rw [checkAll_eq_ok]
    intro a ha
    rw [confirmedUnits_of_ne (h a ha)]
    rfl
  unfold prefetchBalances
  rw [hall]
  rfl

end Reads

/-! ### The code's own state -/

/-- The addresses a list of transactions touches: a coinbase touches its recipient only. -/
def touches (txs : List Transaction) : List Text :=
  txs.flatMap fun tx => if tx.isCoinbase then [tx.recipient] else [tx.sender, tx.recipient]

def touchedBy (bs : List Block) : List Text := bs.flatMap fun b => touches b.transactions

namespace ChainState

/-- The stored blocks at heights `[low, high)`, if all of them load. -/
def loadBlocks (s : ChainState) (low high : ℕ) : Option (List Block) :=
  (List.range' low (high - low)).mapM s.getBlock

/-- `balances_at_fork_state`, with the map it fills: only touched addresses are read from the tree, and what is not in
the map counts as 0. -/
def forkStateOfTouched (markerUnits : ℕ → Res ℤ) (s : ChainState) (forkStart oldTip : ℕ) (branch : List Block) :
    Res (Option (Balances × Recent)) :=
  if forkStart = 0 ∨ oldTip < forkStart then .ok none
  else if s.balancesHeight ≠ some oldTip then .ok none
  else
    match s.loadBlocks forkStart (oldTip + 1) with
    | none => .ok none
    | some reverted => do
      let touched := touchedBy (reverted ++ branch)
      let confirmed ← prefetchBalances markerUnits s touched
      let read : Balances := fun a => if a ∈ touched then confirmed a else 0
      .ok ((s.loadBlocks (forkStart - miningRewardMaturity) forkStart).map fun window =>
        (reverted.foldl (fun bal b => replayRevertBlock b.transactions bal) read, window.flatMap coinbases))

theorem loadBlocks_eq (s : ChainState) (low : ℕ) : ∀ n, low + n ≤ s.blocks.length →
    (List.range' low n).mapM s.getBlock = some ((s.blocks.drop low).take n)
  | 0, _ => rfl
  | n + 1, h => by
    have hlow : low < s.blocks.length := by omega
    have hget : s.getBlock low = some s.blocks[low] := List.getElem?_eq_getElem hlow
    have hrest := loadBlocks_eq s (low + 1) n (by omega)
    rw [List.range'_succ, List.mapM_cons, hget, List.drop_eq_getElem_cons hlow, List.take_succ_cons]
    change (List.range' (low + 1) n).mapM s.getBlock >>= _ = _
    rw [hrest]
    rfl

end ChainState

/-! ### Replay looks at touched addresses only -/

/-- Two replay states with one window and the same balances on `scope`. -/
def AgreeOn (scope : List Text) (st st' : Balances × Recent) : Prop :=
  st.2 = st'.2 ∧ ∀ a ∈ scope, st.1 a = st'.1 a

/-- Both refuse, or both go on and still agree. -/
def SameOn (scope : List Text) (r r' : Res (Balances × Recent)) : Prop :=
  (∃ e, r = .error e ∧ r' = .error e) ∨ ∃ st st', r = .ok st ∧ r' = .ok st' ∧ AgreeOn scope st st'

theorem SameOn.isOk {scope : List Text} {r r' : Res (Balances × Recent)} (h : SameOn scope r r') :
    r.isOk = r'.isOk := by
  rcases h with ⟨e, hr, hr'⟩ | ⟨st, st', hr, hr', -⟩
  · rw [hr, hr']
  · rw [hr, hr']
    rfl

theorem SameOn.accepts {scope : List Text} {r r' : Res (Balances × Recent)} (h : SameOn scope r r') :
    (∃ st, r = .ok st) ↔ ∃ st, r' = .ok st := by
  rcases h with ⟨e, hr, hr'⟩ | ⟨st, st', hr, hr', -⟩
  · rw [hr, hr']
  · rw [hr, hr']
    exact ⟨fun _ => ⟨st', rfl⟩, fun _ => ⟨st, rfl⟩⟩

theorem SameOn.bind {scope : List Text} {r r' : Res (Balances × Recent)} (h : SameOn scope r r')
    {f : Balances × Recent → Res (Balances × Recent)}
    (hf : ∀ st st', AgreeOn scope st st' → SameOn scope (f st) (f st')) : SameOn scope (r >>= f) (r' >>= f) := by
  rcases h with ⟨e, hr, hr'⟩ | ⟨st, st', hr, hr', hagree⟩
  · rw [hr, hr']
    exact .inl ⟨e, rfl, rfl⟩
  · rw [hr, hr', ok_bind, ok_bind]
    exact hf st st' hagree

section Agree

variable {scope : List Text} {st st' : Balances × Recent}

theorem replayApplyTx_agree {height : ℕ} {tx : Transaction} (h : AgreeOn scope st st')
    (htouch : ∀ a ∈ touches [tx], a ∈ scope) :
    SameOn scope (replayApplyTx height st tx) (replayApplyTx height st' tx) := by
  obtain ⟨hwindow, hbalances⟩ := h
  cases hcb : tx.isCoinbase with
  | true =>
    unfold replayApplyTx
    rw [if_pos hcb, if_pos hcb]
    refine .inr ⟨_, _, rfl, rfl, ?_, ?_⟩
    · dsimp only
      rw [hwindow]
    · intro a ha
      dsimp only
      rw [credit_apply, credit_apply, hbalances a ha]
  | false =>
    have hsender : tx.sender ∈ scope := htouch _ (by simp [touches, hcb])
    unfold replayApplyTx
    rw [hcb, if_neg Bool.false_ne_true, if_neg Bool.false_ne_true, hwindow, hbalances _ hsender]
    dsimp only
    generalize (if maturityActivationHeight ≤ height then immatureUnits st'.2 tx.sender else 0) = immature
    split_ifs with hpoor
    · exact .inl ⟨_, rfl, rfl⟩
    · refine .inr ⟨_, _, rfl, rfl, rfl, ?_⟩
      intro a ha
      simp only [credit_apply, hbalances a ha]

theorem touches_cons (tx : Transaction) (txs : List Transaction) : touches (tx :: txs) = touches [tx] ++ touches txs := by
  unfold touches
  rw [List.flatMap_cons, List.flatMap_cons, List.flatMap_nil, List.append_nil]

theorem replayApplyTxs_agree {height : ℕ} : ∀ {txs : List Transaction} {st st' : Balances × Recent},
    AgreeOn scope st st' → (∀ a ∈ touches txs, a ∈ scope) →
    SameOn scope (replayApplyTxs height txs st) (replayApplyTxs height txs st')
  | [], st, st', h, _ => .inr ⟨st, st', rfl, rfl, h⟩
  | tx :: txs, st, st', h, htouch => by
    rw [touches_cons] at htouch
    refine SameOn.bind (replayApplyTx_agree h fun a ha => htouch a (List.mem_append_left _ ha)) fun u u' hagree => ?_
    exact replayApplyTxs_agree hagree fun a ha => htouch a (List.mem_append_right _ ha)

theorem replayApplyBlockChecked_agree {height : ℕ} {txs : List Transaction} (h : AgreeOn scope st st')
    (htouch : ∀ a ∈ touches txs, a ∈ scope) :
    SameOn scope (replayApplyBlockChecked height txs st) (replayApplyBlockChecked height txs st') := by
  have hpop : AgreeOn scope (st.1, popMature height st.2) (st'.1, popMature height st'.2) := by
    refine ⟨?_, h.2⟩
    dsimp only
    rw [h.1]
  exact replayApplyTxs_agree hpop htouch

/-- Blocks that touch `scope` alone get one verdict from states that agree there. -/
theorem replayBlocks_agree : ∀ {bs : List Block} {st st' : Balances × Recent}, AgreeOn scope st st' →
    (∀ a ∈ touchedBy bs, a ∈ scope) → SameOn scope (replayBlocks bs st) (replayBlocks bs st')
  | [], st, st', h, _ => .inr ⟨st, st', rfl, rfl, h⟩
  | b :: bs, st, st', h, htouch => by
    have hfirst : ∀ a ∈ touches b.transactions, a ∈ scope := fun a ha => htouch a (by
      rw [touchedBy, List.flatMap_cons]
      exact List.mem_append_left _ ha)
    have hrest : ∀ a ∈ touchedBy bs, a ∈ scope := fun a ha => htouch a (by
      rw [touchedBy, List.flatMap_cons]
      exact List.mem_append_right _ ha)
    exact SameOn.bind (replayApplyBlockChecked_agree h hfirst) fun u u' hagree => replayBlocks_agree hagree hrest

end Agree

/-! ### The state below the fork -/

theorem structurallyValidFrom_slotted {E : Env} : ∀ {bs : List Block} {h : ℕ} {previous : Option Block},
    structurallyValidFrom E h previous bs = true → ∀ i b, bs[i]? = some b → b.index = h + i
  | [], _, _, _, i, b, hb => by cases hb
  | c :: cs, h, previous, hvalid, i, b, hb => by
    simp only [structurallyValidFrom, Bool.and_eq_true, beq_iff_eq] at hvalid
    obtain ⟨⟨⟨⟨hindex, -⟩, -⟩, -⟩, hrest⟩ := hvalid
    cases i with
    | zero =>
      cases hb
      exact hindex
    | succ i =>
      rw [structurallyValidFrom_slotted hrest i b hb]
      omega

theorem structurallyValidFrom_take {E : Env} : ∀ {bs : List Block} {h : ℕ} {previous : Option Block} (n : ℕ),
    structurallyValidFrom E h previous bs = true → structurallyValidFrom E h previous (bs.take n) = true
  | [], _, _, n, _ => by
    rw [List.take_nil]
    rfl
  | c :: cs, h, previous, 0, _ => rfl
  | c :: cs, h, previous, n + 1, hvalid => by
    rw [List.take_succ_cons]
    unfold structurallyValidFrom at hvalid ⊢
    rw [Bool.and_eq_true] at hvalid ⊢
    exact ⟨hvalid.1, structurallyValidFrom_take n hvalid.2⟩

/-- A replay that reaches the tip passes every fork on its way, with the window that is stored there; reverting the
blocks above leads back to it. -/
theorem below_fork {blocks : List Block} {st : Balances × Recent} (hslots : Slotted blocks)
    (hreplay : replayChain blocks = .ok st) (forkStart : ℕ) (hle : forkStart ≤ blocks.length) :
    ∃ below, replayChain (blocks.take forkStart) = .ok below ∧ below.2 = seedRecent blocks forkStart ∧
      ∀ a, st.1 a = below.1 a + chainDelta (blocks.drop forkStart) a := by
  have hsplit : replayBlocks (blocks.take forkStart ++ blocks.drop forkStart) (fun _ => 0, []) = .ok st := by
    rw [List.take_append_drop]
    exact hreplay
  rw [replayBlocks_append] at hsplit
  obtain ⟨below, hbelow, habove⟩ := bind_eq_ok.mp hsplit
  refine ⟨below, hbelow, ?_, fun a => ?_⟩
  · have hstart : replayBlocks (blocks.take forkStart) (fun _ => 0, seedRecent [] ([] : List Block).length) = .ok below :=
      hbelow
    have hseed := replayBlocks_recent (blocks.take forkStart) [] (by simpa using slotted_take hslots forkStart) hstart
    have htake : (blocks.take forkStart).length = forkStart := by
      rw [List.length_take]
      omega
    rw [hseed]
    simp only [List.nil_append, seedRecent, htake, List.take_take, min_self]
  · rw [replayBlocks_balances habove]

/-- **Main result.** Where the index vouches for the tip and holds what the replay from genesis gives, and neither the
blocks above the fork nor the branch name the marker's key, the dry run of the branch from the fork state is the dry run
from genesis, and the reverted values are the balances below the fork on every touched address. -/
theorem fast_dry_run_agrees (E : Env) (markerUnits : ℕ → Res ℤ) (s : ChainState) {st : Balances × Recent} {tip : ℕ}
    (hvalid : structurallyValid E s.blocks = true) (hreplay : replayChain s.blocks = .ok st)
    (htip : s.blocks.length = tip + 1) (hmarker : s.balancesHeight = some tip)
    (hcontent : ∀ a, a ≠ balancesHeightKey → s.balances a = st.1 a) {forkStart : ℕ} (hpositive : 1 ≤ forkStart)
    (hle : forkStart ≤ tip) (branch : List Block)
    (hkey : balancesHeightKey ∉ touchedBy (s.blocks.drop forkStart ++ branch)) :
    ∃ fork below, s.forkStateOfTouched markerUnits forkStart tip branch = .ok (some fork) ∧
      replayChain (s.blocks.take forkStart) = .ok below ∧
      fork.2 = below.2 ∧ (∀ a ∈ touchedBy (s.blocks.drop forkStart ++ branch), fork.1 a = below.1 a) ∧
      s.branchIsBalanceValid E forkStart branch = .ok (replayBlocks branch fork).isOk := by
  have hslots : Slotted s.blocks := by
    intro h b hb
    have hindex := structurallyValidFrom_slotted hvalid h b hb
    omega
  obtain ⟨below, hbelow, hwindow, hbalances⟩ := below_fork hslots hreplay forkStart (by omega)
  set touched := touchedBy (s.blocks.drop forkStart ++ branch) with htouched
  have hoff : ∀ a ∈ touched, a ≠ balancesHeightKey := by
    rintro a ha rfl
    exact hkey ha
  set fork : Balances × Recent :=
    ((s.blocks.drop forkStart).foldl (fun bal b => replayRevertBlock b.transactions bal)
      (fun a => if a ∈ touched then readBalances markerUnits s a else 0), seedRecent s.blocks forkStart) with hfork
  have hreverted : s.loadBlocks forkStart (tip + 1) = some (s.blocks.drop forkStart) := by
    rw [ChainState.loadBlocks, ChainState.loadBlocks_eq s forkStart _ (by omega), List.take_of_length_le]
    rw [List.length_drop]
    omega
  have hseed : s.loadBlocks (forkStart - miningRewardMaturity) forkStart =
      some ((s.blocks.take forkStart).drop (forkStart - miningRewardMaturity)) := by
    rw [ChainState.loadBlocks, ChainState.loadBlocks_eq s _ _ (by omega), List.take_drop]
    congr 3
    omega
  have hstate : s.forkStateOfTouched markerUnits forkStart tip branch = .ok (some fork) := by
    unfold ChainState.forkStateOfTouched
    rw [if_neg (by omega), if_neg (by rw [hmarker]; exact fun hne => hne rfl), hreverted, hseed]
    dsimp only
    rw [← htouched, prefetchBalances_eq hoff]
    rfl
  have hagree : ∀ a ∈ touched, fork.1 a = below.1 a := by
    intro a ha
    have hraw := hbalances a
    rw [hfork, revertBlocks_eq]
    dsimp only
    rw [if_pos ha, readBalances_of_ne (hoff a ha), hcontent a (hoff a ha)]
    omega
  refine ⟨fork, below, hstate, hbelow, ?_, hagree, ?_⟩
  · rw [hwindow]
  · have hscope : ∀ a ∈ touchedBy branch, a ∈ touched := by
      intro a ha
      rw [htouched, touchedBy, List.flatMap_append]
      exact List.mem_append_right _ ha
    have hsame : SameOn touched (replayBlocks branch fork) (replayBlocks branch below) :=
      replayBlocks_agree ⟨hwindow.symm, hagree⟩ hscope
    unfold ChainState.branchIsBalanceValid
    rw [replayChain, replayBlocks_append]
    rw [replayChain] at hbelow
    rw [hbelow, ok_bind, ← hsame.isOk]
    have hbelowValid : structurallyValid E (s.blocks.take forkStart) = true := structurallyValidFrom_take forkStart hvalid
    unfold ensure
    rw [if_pos hbelowValid]
    rfl

open Toy in
/-- The fork after the first block, with the branch that confirms a payment. -/
theorem fast_dry_run_agrees_at_fork : ∃ fork,
    (Toy.fork []).forkStateOfTouched (fun height => .ok height) 2 2 [c2, c3 []] = .ok (some fork) ∧
    (Toy.fork []).branchIsBalanceValid toyEnv 2 [c2, c3 []] = .ok (replayBlocks [c2, c3 []] fork).isOk := by
  have hreplays : (replayChain (Toy.fork []).blocks).isOk = true := by decide +kernel
  cases hst : replayChain (Toy.fork []).blocks with
  | error e =>
    rw [hst] at hreplays
    cases hreplays
  | ok st =>
    have hcontent : (Toy.fork []).balances = st.1 := by
      change ((replayChain (Toy.fork []).blocks).toOption.map (·.1)).getD (fun _ => 0) = st.1
      rw [hst]
      rfl
    have htip : (Toy.fork []).blocks.length = 2 + 1 := rfl
    have hone : 1 ≤ 2 := by decide
    have hkey : balancesHeightKey ∉ touchedBy ((Toy.fork []).blocks.drop 2 ++ [c2, c3 []]) := by decide +kernel
    obtain ⟨fork, below, hfork, -, -, -, hverdict⟩ := fast_dry_run_agrees toyEnv (fun height => .ok height) (Toy.fork [])
      (by decide +kernel) hst htip rfl (fun a _ => congrFun hcontent a) hone le_rfl [c2, c3 []] hkey
    exact ⟨fork, hfork, hverdict⟩

/-- A branch block whose one payment spends from the marker's key. -/
def markerSpender : Block :=
  { Toy.c2 with transactions := [{ Toy.pay with sender := balancesHeightKey, amountUnits := 1, feeUnits := 0 }] }

/-- The marker 2 reads as 2 units: the dry run from the index lets a branch spend one of them, the one from genesis does
not. -/
theorem marker_read_as_a_balance :
    structurallyValid toyEnv (Toy.fork []).blocks = true ∧ (Toy.fork []).balancesHeight = some 2 ∧
    (∃ st, replayChain (Toy.fork []).blocks = .ok st ∧ (Toy.fork []).balances = st.1) ∧
    ∃ fork below, (Toy.fork []).forkStateOfTouched (fun height => .ok height) 2 2 [markerSpender] = .ok (some fork) ∧
      replayChain ((Toy.fork []).blocks.take 2) = .ok below ∧
      balancesHeightKey ∈ touchedBy ((Toy.fork []).blocks.drop 2 ++ [markerSpender]) ∧
      fork.1 balancesHeightKey = 2 ∧ below.1 balancesHeightKey = 0 ∧
      (replayBlocks [markerSpender] fork).isOk = true ∧
      (Toy.fork []).branchIsBalanceValid toyEnv 2 [markerSpender] = .ok false := by
  have hfork : (((Toy.fork []).forkStateOfTouched (fun height => .ok height) 2 2 [markerSpender]).toOption.bind
      fun found => found.map fun fork => (fork.1 balancesHeightKey, (replayBlocks [markerSpender] fork).isOk)) =
      some (2, true) := by decide +kernel
  have hbelow : (replayChain ((Toy.fork []).blocks.take 2)).toOption.map (fun below => below.1 balancesHeightKey) =
      some 0 := by decide +kernel
  have hreplays : ((replayChain (Toy.fork []).blocks).toOption.map fun _ => ()) = some () := by decide +kernel
  refine ⟨by decide +kernel, rfl, ?_, ?_⟩
  · obtain ⟨st, hst, -⟩ := Option.map_eq_some_iff.mp hreplays
    have hok : replayChain (Toy.fork []).blocks = .ok st := toOption_eq_some.mp hst
    refine ⟨st, hok, ?_⟩
    change ((replayChain (Toy.fork []).blocks).toOption.map (·.1)).getD (fun _ => 0) = st.1
    rw [hok]
    rfl
  · obtain ⟨found, hfound, hpair⟩ := Option.bind_eq_some_iff.mp hfork
    obtain ⟨fork, rfl, hvalues⟩ := Option.map_eq_some_iff.mp hpair
    obtain ⟨hunits, hok⟩ := Prod.mk.injEq .. ▸ hvalues
    obtain ⟨below, hsome, hzero⟩ := Option.map_eq_some_iff.mp hbelow
    exact ⟨fork, below, toOption_eq_some.mp hfound, toOption_eq_some.mp hsome, by decide +kernel, hunits, hzero, hok,
      by decide +kernel⟩

end Alphanumeric
