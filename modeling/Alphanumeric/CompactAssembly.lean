/-
# Putting compact blocks together

A Merkle leaf is of the stored form of a transaction, so a body must also have its full
signature, bound by the signature hash that the leaf commits to; leaf and witness together
determine it. A body is placed where its leaf is, in an empty slot. So whatever the caches hold
and the peers supply, a block that comes out is the announced one, and the only errors are
those of bodies that are too large. A request is made only if its answer fits into one message: a
peer that has the block, admits the request and is asked completes it.

Key definitions: `Unforged`, `Held`, `Genuine`, `Filling`, `Portable`, `BodyServer.Admits`.
Key theorems: `body_unique`, `Held.apply`, `collect_induct`, `reconstructed_as_announced`,
`serve_answers_in_full`, `holder_completes_block`.
-/
import Alphanumeric.CompactBlocks

namespace Alphanumeric

namespace CompactBlocks

open Guard TxRelay

/-! ### A body is determined by its leaf and its witness -/

section Bodies

variable {E : Env} {x : Wire} {a : CompactBlockAnnouncementV2}

/-- What is asked of SHA-256 and of the codec for some transactions: their leaves' serializations and their signatures
do not collide, and a serialization determines what was serialized. -/
structure Unforged (E : Env) (txs : Transaction → Prop) : Prop where
  leaves : ∀ t, txs t → ∀ u, txs u → calculateMerkleLeafHash E t = calculateMerkleLeafHash E u →
    E.codecSerialize (merkleForm E t) = E.codecSerialize (merkleForm E u)
  codec : ∀ t, txs t → ∀ u, txs u → E.codecSerialize (merkleForm E t) = E.codecSerialize (merkleForm E u) →
    merkleForm E t = merkleForm E u
  signatures : ∀ t, txs t → ∀ u, txs u → ∀ s s', t.sigBytes = some s → u.sigBytes = some s' →
    E.sha256 s = E.sha256 s' → s = s'

theorem Unforged.of_distinct {txs : Transaction → Prop}
    (hleaf : ∀ t, txs t → ∀ u, txs u → calculateMerkleLeafHash E t = calculateMerkleLeafHash E u → t = u)
    (hsig : ∀ t, txs t → t.sigBytes = none) : Unforged E txs := by
  refine ⟨?_, ?_, ?_⟩
  · intro t ht u hu h
    rw [hleaf t ht u hu h]
  · intro t ht u hu h
    have hsame : calculateMerkleLeafHash E t = calculateMerkleLeafHash E u := by
      rw [calculateMerkleLeafHash, h, calculateMerkleLeafHash]
    rw [hleaf t ht u hu hsame]
  · intro t ht u hu s s' hs _ _
    rw [hsig t ht] at hs
    cases hs

theorem hexDigit_hexVal {c : Char} {v : ℕ} (hlower : isLowerHexChar c = true) (hv : hexVal c = some v) :
    v < 16 ∧ hexDigit v = c := by
  unfold isLowerHexChar at hlower
  simp only [Bool.or_eq_true, Bool.and_eq_true, decide_eq_true_eq] at hlower
  unfold hexVal at hv
  have hbound : ∀ {lo hi : Char}, lo ≤ c → c ≤ hi → lo.toNat ≤ c.toNat ∧ c.toNat ≤ hi.toNat := fun h h' => ⟨h, h'⟩
  have h0 : '0'.toNat = 48 := rfl
  have h9 : '9'.toNat = 57 := rfl
  have ha : 'a'.toNat = 97 := rfl
  have hf : 'f'.toNat = 102 := rfl
  by_cases hdigit : '0' ≤ c ∧ c ≤ '9'
  · rw [if_pos hdigit] at hv
    obtain ⟨hlo, hhi⟩ := hbound hdigit.1 hdigit.2
    have hval := Option.some.inj hv
    refine ⟨by omega, ?_⟩
    rw [hexDigit, if_pos (by omega), ← hval, h0, Nat.add_sub_cancel' (by omega), Char.ofNat_toNat]
  · have hletter : 'a' ≤ c ∧ c ≤ 'f' := by
      rcases hlower with hlower | hlower
      · exact absurd hlower hdigit
      · exact hlower
    rw [if_neg hdigit, if_pos hletter] at hv
    obtain ⟨hlo, hhi⟩ := hbound hletter.1 hletter.2
    have hval := Option.some.inj hv
    refine ⟨by omega, ?_⟩
    rw [hexDigit, if_neg (by omega), ha, show 97 + (v - 10) = c.toNat by omega, Char.ofNat_toNat]

/-- Lower-case text is what encoding writes for the bytes it decodes to. -/
theorem hexEncode_of_decode : ∀ {s : Text} {bytes : List UInt8}, s.all isLowerHexChar = true →
    hexDecode s = some bytes → hexEncode bytes = s
  | [], bytes, _, h => by
    have hnil : [] = bytes := Option.some.inj h
    rw [← hnil]
    rfl
  | [_], _, _, h => by cases h
  | c :: d :: rest, bytes, hlower, h => by
    rw [List.all_cons, List.all_cons, Bool.and_eq_true, Bool.and_eq_true] at hlower
    rw [hexDecode] at h
    cases hhi : hexVal c with
    | none => rw [hhi] at h; cases h
    | some hi =>
      cases hlo : hexVal d with
      | none => rw [hhi, hlo] at h; cases h
      | some lo =>
        cases htail : hexDecode rest with
        | none => rw [hhi, hlo, htail] at h; cases h
        | some tail =>
          rw [hhi, hlo, htail] at h
          have hbytes := Option.some.inj h
          obtain ⟨hhiLt, hhiDigit⟩ := hexDigit_hexVal hlower.1 hhi
          obtain ⟨hloLt, hloDigit⟩ := hexDigit_hexVal hlower.2.1 hlo
          have hvalue : (UInt8.ofNat (hi * 16 + lo)).toNat = hi * 16 + lo := by
            rw [UInt8.toNat_ofNat']
            omega
          have hrest : hexEncode tail = rest := hexEncode_of_decode hlower.2.2 htail
          rw [← hbytes]
          have hcons : hexEncode (UInt8.ofNat (hi * 16 + lo) :: tail) =
              hexDigit ((UInt8.ofNat (hi * 16 + lo)).toNat / 16) ::
                hexDigit ((UInt8.ofNat (hi * 16 + lo)).toNat % 16) :: hexEncode tail := rfl
          rw [hcons, hvalue, hrest, show (hi * 16 + lo) / 16 = hi by omega, show (hi * 16 + lo) % 16 = lo by omega,
            hhiDigit, hloDigit]

/-- What the witness check says of a regular transaction. -/
theorem witness_spec {tx : Transaction} (h : hasFullBoundWitness E x tx = true) (hcb : tx.isCoinbase = false) :
    ∃ bytes, tx.signature = some (hexEncode bytes) ∧ tx.sigBytes = some bytes ∧
      tx.sigHash = some (signatureHashHex E bytes) := by
  unfold hasFullBoundWitness compactTransactionHasFullBoundWitness at h
  rw [Transaction.isSystem_eq_isCoinbase, hcb, if_neg Bool.false_ne_true] at h
  cases hsig : tx.signature with
  | none => rw [hsig] at h; cases h
  | some signature =>
    cases hkey : tx.pubKey with
    | none => rw [hsig, hkey] at h; cases h
    | some publicKey =>
      cases hhash : tx.sigHash with
      | none => rw [hsig, hkey, hhash] at h; cases h
      | some sigHash =>
        rw [hsig, hkey, hhash] at h
        simp only at h
        cases hlen : hexFieldHasDecodedLen signature signatureBytes with
        | false => rw [hlen] at h; cases h
        | true =>
          split at h
          · cases h
          · cases hbytes : hexDecode signature with
            | none => rw [hbytes] at h; cases h
            | some bytes =>
              rw [hbytes] at h
              have hbound : sigHash = signatureHashHex E bytes := by simpa [codec] using h
              unfold hexFieldHasDecodedLen at hlen
              rw [Bool.and_eq_true] at hlen
              refine ⟨bytes, ?_, ?_, ?_⟩
              · rw [hexEncode_of_decode hlen.2 hbytes]
              · rw [Transaction.sigBytes, hsig, Option.bind_some, hbytes]
              · rw [hbound]

theorem signatureHashHex_inj {s s' : List UInt8} (h : signatureHashHex E s = signatureHashHex E s') :
    E.sha256 s = E.sha256 s' := by
  unfold signatureHashHex at h
  have hbytes := congrArg hexDecode h
  rw [hexDecode_hexEncode, hexDecode_hexEncode] at hbytes
  exact bytes_inj (Option.some.inj hbytes)

/-- **A leaf and a witness determine a transaction.** -/
theorem body_unique {txs : Transaction → Prop} (hU : Unforged E txs) {t u : Transaction} (ht : txs t) (hu : txs u)
    (hwt : hasFullBoundWitness E x t = true) (hwu : hasFullBoundWitness E x u = true)
    (hleaf : calculateMerkleLeafHash E t = calculateMerkleLeafHash E u) : t = u := by
  have hform : merkleForm E t = merkleForm E u := hU.codec t ht u hu (hU.leaves t ht u hu hleaf)
  have hsender : t.sender = u.sender := by
    have := congrArg Transaction.sender hform
    rwa [merkleForm_sender, merkleForm_sender] at this
  have hsame : t.isCoinbase = u.isCoinbase := by rw [Transaction.isCoinbase, Transaction.isCoinbase, hsender]
  cases hcb : t.isCoinbase with
  | true =>
    rw [hcb] at hsame
    unfold merkleForm at hform
    rwa [hcb, ← hsame, if_pos rfl, if_pos rfl] at hform
  | false =>
    have hcb' : u.isCoinbase = false := by rw [← hsame, hcb]
    obtain ⟨s, hsig, hbytes, hhash⟩ := witness_spec hwt hcb
    obtain ⟨s', hsig', hbytes', hhash'⟩ := witness_spec hwu hcb'
    unfold merkleForm at hform
    rw [hcb, hcb', if_neg Bool.false_ne_true, if_neg Bool.false_ne_true, hhash, hhash'] at hform
    simp only [withTruncatedSignature, Transaction.mk.injEq, Option.some.injEq] at hform
    obtain ⟨-, hrecipient, hfee, hamount, htime, -, hkey, hdigest⟩ := hform
    have hss : s = s' := hU.signatures t ht u hu s s' hbytes hbytes' (signatureHashHex_inj hdigest)
    rw [← hss] at hsig' hhash'
    cases t
    cases u
    simp_all

end Bodies

/-! ### What is held while a block is put together -/

section Holding

variable {E : Env} {x : Wire} {a : CompactBlockAnnouncementV2} {s s' : Slots Transaction}
  {item : IndexedCompactTransactionV2} {items : List IndexedCompactTransactionV2} {taken : Bool}

/-- What may stand in slot `i`: the coinbase in the first, elsewhere a body with its witness and the slot's leaf. -/
def Fits (E : Env) (x : Wire) (a : CompactBlockAnnouncementV2) (i : ℕ) (tx : Transaction) : Prop :=
  if i = 0 then tx = a.coinbase
  else hasFullBoundWitness E x tx = true ∧ compactTransactionEncodedBytes x tx ≤ compactTransactionMaxEncodedBytes ∧
    transactionHashAt E x a i = some (calculateMerkleLeafHash E tx)

structure Held (E : Env) (x : Wire) (a : CompactBlockAnnouncementV2) (s : Slots Transaction) : Prop where
  fitting : s.Fitting (Fits E x a) (compactTransactionEncodedBytes x)
  length : s.held.length = transactionCount a
  coinbase : s.held[0]? = some (some a.coinbase)
  bounded : s.bytes ≤ compactSafeAssembledBytes

theorem Held.start (h : compactTransactionEncodedBytes x a.coinbase ≤ compactSafeAssembledBytes) :
    Held E x a (startSlots x a) := by
  have hempty : ∀ (i : ℕ) (tx : Transaction),
      (List.replicate a.transactionHashes.length (none : Option Transaction))[i]? ≠ some (some tx) := by
    intro i tx htx
    cases List.eq_of_mem_replicate (List.mem_of_getElem? htx)
  refine ⟨⟨?_, ?_⟩, ?_, rfl, h⟩
  · intro i tx htx
    cases i with
    | zero =>
      have hsame : a.coinbase = tx := Option.some.inj (Option.some.inj htx)
      rw [Fits, if_pos rfl, hsame]
    | succ i => exact absurd htx (hempty i tx)
  · have hzero : (List.replicate a.transactionHashes.length
        (Slots.slotSize (compactTransactionEncodedBytes x) none)).sum = 0 := by
      rw [List.sum_replicate, Slots.slotSize, Option.elim_none, smul_zero]
    rw [startSlots, List.map_cons, List.map_replicate, List.sum_cons, hzero]
    rfl
  · rw [startSlots, List.length_cons, List.length_replicate, transactionCount]

/-- What one body does: nothing, or it fills the empty slot it fits. -/
theorem applyCompactBodyV2_spec (h : applyCompactBodyV2 E x a s item = .ok (s', taken)) :
    (s' = s ∧ taken = false) ∨
    (taken = true ∧ s' = s.fill (compactTransactionEncodedBytes x) item.index item.transaction ∧
      s.held[item.index]? = some none ∧ Fits E x a item.index item.transaction ∧
      s.bytes + compactTransactionEncodedBytes x item.transaction ≤ compactSafeAssembledBytes) := by
  unfold applyCompactBodyV2 at h
  by_cases hslot : item.index = 0 ∨ s.held[item.index]? ≠ some none
  · rw [if_pos hslot] at h
    cases h
    exact .inl ⟨rfl, rfl⟩
  rw [if_neg hslot] at h
  push Not at hslot
  cases hwitness : hasFullBoundWitness E x item.transaction with
  | false =>
    rw [hwitness, if_pos rfl] at h
    cases h
    exact .inl ⟨rfl, rfl⟩
  | true =>
    rw [hwitness, if_neg Bool.noConfusion] at h
    by_cases hlarge : compactTransactionMaxEncodedBytes < compactTransactionEncodedBytes x item.transaction
    · simp only [if_pos hlarge] at h
      cases h
    by_cases hleaf : transactionHashAt E x a item.index ≠ some (calculateMerkleLeafHash E item.transaction)
    · simp only [if_neg hlarge, if_pos hleaf] at h
      cases h
      exact .inl ⟨rfl, rfl⟩
    by_cases hfull : compactSafeAssembledBytes < s.bytes + compactTransactionEncodedBytes x item.transaction
    · simp only [if_neg hlarge, if_neg hleaf, if_pos hfull] at h
      cases h
    · simp only [if_neg hlarge, if_neg hleaf, if_neg hfull] at h
      cases h
      refine .inr ⟨rfl, rfl, hslot.2, ?_, by omega⟩
      rw [Fits, if_neg hslot.1]
      exact ⟨hwitness, by omega, not_not.mp hleaf⟩

theorem bind_eq_error {ε α β : Type} {r : Except ε α} {f : α → Except ε β} {e : ε} :
    (r >>= f) = .error e ↔ r = .error e ∨ ∃ v, r = .ok v ∧ f v = .error e := by
  cases r with
  | error e' => simp [bind, Except.bind]
  | ok v => simp [bind, Except.bind]

/-- A body is refused with one of two errors: too large by itself, or too much with what is held. -/
theorem applyCompactBodyV2_error {e : CompactFault} (h : applyCompactBodyV2 E x a s item = .error e) :
    e = .bodyTooLarge ∨ e = .assemblyTooLarge := by
  unfold applyCompactBodyV2 at h
  split at h
  · cases h
  · split at h
    · cases h
    · simp only at h
      split at h
      · cases h
        exact .inl rfl
      · split at h
        · cases h
        · split at h
          · cases h
            exact .inr rfl
          · cases h

theorem Held.apply (hs : Held E x a s) (h : applyCompactBodyV2 E x a s item = .ok (s', taken)) : Held E x a s' := by
  rcases applyCompactBodyV2_spec h with ⟨rfl, -⟩ | ⟨-, rfl, hempty, hfits, hbytes⟩
  · exact hs
  · refine ⟨hs.fitting.fill hempty hfits, by rw [Slots.length_fill, hs.length], ?_, hbytes⟩
    rw [Slots.held_fill hempty]
    by_cases hzero : 0 = item.index
    · rw [← hzero, hs.coinbase] at hempty
      cases hempty
    · rw [if_neg hzero, hs.coinbase]

/-- What holds of the slots, and is kept by every body that fits one, holds after any number of bodies. -/
theorem applyBodies_induct {P : Slots Transaction → Prop}
    (step : ∀ s s' item taken, item ∈ items → P s → applyCompactBodyV2 E x a s item = .ok (s', taken) → P s')
    (hs : P s) (h : applyBodies E x a items s = .ok (s', taken)) : P s' := by
  induction items generalizing s taken with
  | nil =>
    cases h
    exact hs
  | cons item items ih =>
    unfold applyBodies at h
    obtain ⟨⟨mid, first⟩, hfirst, h⟩ := bind_eq_ok.mp h
    obtain ⟨⟨last, more⟩, hmore, h⟩ := bind_eq_ok.mp h
    cases h
    refine ih ?_ (step _ _ _ _ List.mem_cons_self hs hfirst) hmore
    exact fun s s' item taken hitem => step s s' item taken (List.mem_cons_of_mem _ hitem)

theorem applyBodies_error {e : CompactFault} (h : applyBodies E x a items s = .error e) :
    e = .bodyTooLarge ∨ e = .assemblyTooLarge := by
  induction items generalizing s with
  | nil => cases h
  | cons item items ih =>
    unfold applyBodies at h
    rcases bind_eq_error.mp h with hfirst | ⟨⟨mid, first⟩, -, h⟩
    · exact applyCompactBodyV2_error hfirst
    · rcases bind_eq_error.mp h with hrest | ⟨last, -, h⟩
      · exact ih hrest
      · cases h

theorem answer_of_request {indexes : List ℕ} {answer : Answer}
    (h : requestCompactTransactionBatchV2 E x a indexes answer = some items) : answer indexes = some items := by
  unfold requestCompactTransactionBatchV2 at h
  split at h
  · cases h
  · split at h
    · cases h
    · split at h
      · cases h
      · rename_i transactions htransactions
        split at h
        · rw [htransactions, ← h]
        · cases h

/-- What the items of a peer keep, its turns keep. -/
theorem collectBodies_induct {P : Slots Transaction → Prop} {turns : List Turn} {c c' : Collected}
    (step : ∀ turn ∈ turns, ∀ source indexes items, turn.answer source indexes = some items → ∀ s s' taken, P s →
      CompactBlocks.applyBodies E x a items s = .ok (s', taken) → P s')
    (hc : P c.slots) (h : collectBodies E x a turns c = .ok c') : P c'.slots := by
  induction turns generalizing c with
  | nil =>
    cases h
    exact hc
  | cons turn turns ih =>
    have ih := fun {c : Collected} => ih (c := c) fun turn hturn => step turn (List.mem_cons_of_mem _ hturn)
    unfold collectBodies at h
    by_cases hdone : missingCompactIndexes c.slots = []
    · rw [if_pos hdone] at h
      cases h
      exact hc
    rw [if_neg hdone] at h
    cases hsource : turn.sources.find? fun source => !c.attempted.contains source with
    | none =>
      rw [hsource] at h
      cases h
      exact hc
    | some source =>
      rw [hsource] at h
      simp only at h
      by_cases hlate : turn.late = true
      · rw [if_pos hlate] at h
        cases h
        exact hc
      rw [if_neg hlate] at h
      cases hasked : requestCompactTransactionBatchV2 E x a (missingCompactIndexes c.slots) (turn.answer source) with
      | none =>
        rw [hasked] at h
        exact ih (c := ⟨c.slots, source :: c.attempted, source :: c.asked, c.witnessSource⟩) hc h
      | some items =>
        rw [hasked] at h
        obtain ⟨⟨slots, applied⟩, happly, h⟩ := bind_eq_ok.mp h
        have hanswer := answer_of_request hasked
        have hslots := step turn List.mem_cons_self source _ items hanswer c.slots slots applied hc happly
        split at h
        · cases h
          exact hslots
        · exact ih hslots h

/-- Everything an attempt may be handed. -/
def Supply.Offers (E : Env) (a : CompactBlockAnnouncementV2) (supply : Supply) (item : IndexedCompactTransactionV2) :
    Prop :=
  item ∈ localBodies E a supply.caches ∨ item ∈ supply.pending ∨
    ∃ turn ∈ supply.turns, ∃ source indexes items, turn.answer source indexes = some items ∧ item ∈ items

/-- What holds of the start, and is kept by every body offered, holds of what is collected. -/
theorem collect_induct {P : Slots Transaction → Prop} {primarySource : PeerAddr} {supply : Supply} {c : Collected}
    (start : P (startSlots x a))
    (step : ∀ s s' item taken, supply.Offers E a item → P s → applyCompactBodyV2 E x a s item = .ok (s', taken) → P s')
    (h : collect E x a primarySource supply = .ok (some c)) : P c.slots := by
  unfold collect at h
  by_cases hlarge : compactSafeAssembledBytes < compactTransactionEncodedBytes x a.coinbase
  · rw [if_pos hlarge] at h
    cases h
  rw [if_neg hlarge] at h
  obtain ⟨⟨found, taken⟩, hfound, h⟩ := bind_eq_ok.mp h
  obtain ⟨⟨slots, taken'⟩, hslots, h⟩ := bind_eq_ok.mp h
  have hstart : P slots := by
    refine applyBodies_induct (fun s s' item taken hitem => step s s' item taken (.inr (.inl hitem))) ?_ hslots
    exact applyBodies_induct (fun s s' item taken hitem => step s s' item taken (.inl hitem)) start hfound
  simp only at h
  split at h
  · cases h
    exact hstart
  · split at h
    · cases h
      exact hstart
    · obtain ⟨last, hlast, h⟩ := bind_eq_ok.mp h
      cases h
      refine collectBodies_induct ?_ hstart hlast
      intro turn hturn source indexes items hanswer s s' taken hs happly
      refine applyBodies_induct (fun s s' item taken hitem => step s s' item taken ?_) hs happly
      exact .inr (.inr ⟨turn, hturn, source, indexes, items, hanswer, hitem⟩)

theorem Held.collect {primarySource : PeerAddr} {supply : Supply} {c : Collected}
    (h : CompactBlocks.collect E x a primarySource supply = .ok (some c)) : Held E x a c.slots := by
  have hsmall : compactTransactionEncodedBytes x a.coinbase ≤ compactSafeAssembledBytes := by
    by_contra hlarge
    unfold CompactBlocks.collect at h
    rw [if_pos (by omega)] at h
    cases h
  exact collect_induct (.start hsmall) (fun _ _ _ _ _ hs happly => hs.apply happly) h

theorem collectBodies_error {turns : List Turn} {c : Collected} {e : CompactFault}
    (h : collectBodies E x a turns c = .error e) : e = .bodyTooLarge ∨ e = .assemblyTooLarge := by
  induction turns generalizing c with
  | nil => cases h
  | cons turn turns ih =>
    unfold collectBodies at h
    split at h
    · cases h
    · split at h
      · cases h
      · split at h
        · cases h
        · split at h
          · exact ih h
          · rcases bind_eq_error.mp h with happly | ⟨⟨slots, applied⟩, -, h⟩
            · exact applyBodies_error happly
            · simp only at h
              split at h
              · cases h
              · exact ih h

theorem collect_error {primarySource : PeerAddr} {supply : Supply} {e : CompactFault}
    (h : collect E x a primarySource supply = .error e) : e = .bodyTooLarge ∨ e = .assemblyTooLarge := by
  unfold collect at h
  split at h
  · cases h
  · rcases bind_eq_error.mp h with happly | ⟨⟨found, taken⟩, -, h⟩
    · exact applyBodies_error happly
    · rcases bind_eq_error.mp h with happly | ⟨⟨slots, taken'⟩, -, h⟩
      · exact applyBodies_error happly
      · simp only at h
        split at h
        · cases h
        · split at h
          · cases h
          · rcases bind_eq_error.mp h with hturns | ⟨c, -, h⟩
            · exact collectBodies_error hturns
            · cases h

/-- The slots in full are the announcement's transactions: its coinbase, and a body for each of its leaves. -/
theorem Held.full (hs : Held E x a s) {txs : List Transaction} (hfull : s.held = txs.map some) :
    txs.length = transactionCount a ∧ txs.head? = some a.coinbase ∧
      txs.map (calculateMerkleLeafHash E) = orderedLeafHashes E a ∧
      ∀ tx ∈ txs.drop 1, hasFullBoundWitness E x tx = true := by
  have hlength : txs.length = transactionCount a := by rw [← hs.length, hfull, List.length_map]
  have hcoinbase := hs.coinbase
  rw [hfull, List.getElem?_map] at hcoinbase
  have hat : ∀ (i : ℕ) (tx : Transaction), txs[i]? = some tx → Fits E x a i tx := by
    intro i tx htx
    exact hs.fitting.fits i tx (by rw [hfull, List.getElem?_map, htx]; rfl)
  have hhead : txs[0]? = some a.coinbase := by
    cases hfirst : txs[0]? with
    | none => rw [hfirst] at hcoinbase; cases hcoinbase
    | some first =>
      rw [hfirst] at hcoinbase
      exact Option.some.inj hcoinbase
  refine ⟨hlength, by rw [List.head?_eq_getElem?]; exact hhead, ?_, ?_⟩
  · refine List.ext_getElem? fun i => ?_
    rw [List.getElem?_map, orderedLeafHashes]
    cases i with
    | zero => rw [hhead]; rfl
    | succ i =>
      cases htx : txs[i + 1]? with
      | none =>
        have hshort := List.getElem?_eq_none_iff.mp htx
        rw [transactionCount] at hlength
        rw [List.getElem?_cons_succ, List.getElem?_eq_none (by omega)]
        rfl
      | some tx =>
        have hfits := hat (i + 1) tx htx
        rw [Fits, if_neg (by omega)] at hfits
        exact hfits.2.2.symm
  · intro tx htx
    obtain ⟨i, hi⟩ := List.getElem?_of_mem htx
    rw [List.getElem?_drop] at hi
    have hfits := hat (1 + i) tx hi
    rw [Fits, if_neg (by omega)] at hfits
    exact hfits.1

/-- The commitment check leaves `reconstruct` nothing to refuse. -/
theorem reconstruct_eq {txs : List Transaction} (hlength : txs.length = transactionCount a)
    (hhead : txs.head? = some a.coinbase) (hleaves : txs.map (calculateMerkleLeafHash E) = orderedLeafHashes E a) :
    reconstruct E a txs = if calculateHashForBlock E (headerBlock a txs) = a.hash then .ok (headerBlock a txs)
      else .error .headerMismatch := by
  have hpairs : ∀ pair ∈ txs.zip (orderedLeafHashes E a), calculateMerkleLeafHash E pair.1 = pair.2 := by
    rw [← hleaves]
    intro pair hpair
    obtain ⟨i, hi⟩ := List.getElem?_of_mem hpair
    obtain ⟨hfst, hsnd⟩ := List.getElem?_zip_eq_some.mp hi
    rw [List.getElem?_map, hfst] at hsnd
    exact Option.some.inj hsnd
  have hsame : (headerBlock a txs).hash = a.hash := rfl
  unfold reconstruct
  simp only [ensure, if_pos hpairs, if_pos (show _ ∧ _ from ⟨hlength, hhead⟩), ok_bind, hsame]
  by_cases hhash : calculateHashForBlock E (headerBlock a txs) = a.hash
  · rw [if_pos hhash, if_pos hhash, ok_bind]
  · rw [if_neg hhash, if_neg hhash, error_bind]

theorem header_of_validate {now : ℕ} (h : validateCommitment E x now a = true) (txs : List Transaction) :
    calculateHashForBlock E (headerBlock a txs) = a.hash ∧
      calculateMerkleRootFromLeafHashes E (orderedLeafHashes E a) = a.merkleRoot := by
  unfold validateCommitment at h
  simp only at h
  split at h
  · cases h
  · split at h
    · cases h
    · rename_i hroot
      rw [Bool.and_eq_true, decide_eq_true_iff] at h
      have hheader := h.1
      unfold validateHeader at hheader
      simp only [bind_unit_eq_ok, ensure_eq_ok] at hheader
      exact ⟨hheader.2.2.1, not_not.mp hroot⟩

/-- What a finished attempt went through. -/
theorem reconstructV2_eq_ok {primarySource : PeerAddr} {supply : Supply} {b : Block} {source : PeerAddr}
    (h : reconstructCompactBlockV2 E x a primarySource supply = .ok (some (b, source))) :
    ∃ c txs, collect E x a primarySource supply = .ok (some c) ∧ c.slots.held = txs.map some ∧
      source = c.witnessSource ∧ reconstruct E a txs = .ok b ∧ compactBlockTransportOk E x b = true := by
  unfold reconstructCompactBlockV2 at h
  obtain ⟨result, hresult, h⟩ := bind_eq_ok.mp h
  cases result with
  | none => cases h
  | some c =>
    simp only at h
    by_cases hmissing : missingCompactIndexes c.slots ≠ []
    · rw [if_pos hmissing] at h
      cases h
    rw [if_neg hmissing] at h
    obtain ⟨txs, htxs⟩ := Slots.exists_of_full (not_not.mp hmissing)
    have hvalues : c.slots.held.filterMap id = txs := by
      rw [htxs, List.filterMap_map, Function.id_comp, List.filterMap_some]
    obtain ⟨b', hb, h⟩ := bind_eq_ok.mp h
    rw [hvalues] at hb
    cases hok : compactBlockTransportOk E x b' with
    | false =>
      rw [hok, if_pos rfl] at h
      cases h
    | true =>
      rw [hok, if_neg Bool.noConfusion] at h
      cases h
      exact ⟨c, txs, hresult, htxs, rfl, hb, hok⟩

/-- The block that an attempt ends in. -/
theorem reconstructV2_spec {primarySource : PeerAddr} {supply : Supply} {b : Block} {source : PeerAddr}
    (h : reconstructCompactBlockV2 E x a primarySource supply = .ok (some (b, source))) :
    b = headerBlock a b.transactions ∧ b.transactions.length = transactionCount a ∧
      b.transactions.head? = some a.coinbase ∧
      b.transactions.map (calculateMerkleLeafHash E) = orderedLeafHashes E a ∧
      (∀ tx ∈ b.transactions.drop 1, hasFullBoundWitness E x tx = true) ∧ compactBlockTransportOk E x b = true := by
  obtain ⟨c, txs, hcollect, hfull, -, hblock, hok⟩ := reconstructV2_eq_ok h
  obtain ⟨hlength, hhead, hleaves, hwitness⟩ := (Held.collect hcollect).full hfull
  rw [reconstruct_eq hlength hhead hleaves] at hblock
  have hb : headerBlock a txs = b := by
    split at hblock
    · exact Except.ok.inj hblock
    · cases hblock
  rw [← hb] at hok ⊢
  exact ⟨rfl, hlength, hhead, hleaves, hwitness, hok⟩

/-- Two attempts at one announcement end in the same block. -/
theorem reconstructV2_unique {primarySource primarySource' : PeerAddr} {supply supply' : Supply} {b b' : Block}
    {source source' : PeerAddr} (h : reconstructCompactBlockV2 E x a primarySource supply = .ok (some (b, source)))
    (h' : reconstructCompactBlockV2 E x a primarySource' supply' = .ok (some (b', source')))
    (hU : Unforged E (· ∈ b.transactions ++ b'.transactions)) : b = b' := by
  obtain ⟨hblock, hlength, hhead, hleaves, hwitness, -⟩ := reconstructV2_spec h
  obtain ⟨hblock', hlength', hhead', hleaves', hwitness', -⟩ := reconstructV2_spec h'
  have hsame : b.transactions = b'.transactions := by
    refine List.ext_getElem? fun i => ?_
    have hleaf : (b.transactions[i]?).map (calculateMerkleLeafHash E) =
        (b'.transactions[i]?).map (calculateMerkleLeafHash E) := by
      rw [← List.getElem?_map, ← List.getElem?_map, hleaves, hleaves']
    cases i with
    | zero => rw [← List.head?_eq_getElem?, ← List.head?_eq_getElem?, hhead, hhead']
    | succ i =>
      cases ht : b.transactions[i + 1]? with
      | none => rw [List.getElem?_eq_none (by have := List.getElem?_eq_none_iff.mp ht; omega)]
      | some t =>
        cases hu : b'.transactions[i + 1]? with
        | none =>
          rw [ht, hu] at hleaf
          cases hleaf
        | some u =>
          rw [ht, hu] at hleaf
          have hdrop : ∀ {txs : List Transaction} {tx : Transaction}, txs[i + 1]? = some tx → tx ∈ txs.drop 1 := by
            intro txs tx htx
            exact List.mem_of_getElem? (i := i) (by rw [List.getElem?_drop, Nat.add_comm]; exact htx)
          rw [body_unique hU (List.mem_append_left _ (List.mem_of_getElem? ht))
            (List.mem_append_right _ (List.mem_of_getElem? hu)) (hwitness t (hdrop ht)) (hwitness' u (hdrop hu))
            (Option.some.inj hleaf)]
  rw [hblock, hblock', hsame]

/-- **Main result: what comes out is what was announced.** Whatever the caches hold and the peers answer, in whatever
order: a block that comes out has the announced header and coinbase, at every other place a body with its full witness
and the announced leaf, and so the announced Merkle root; the only errors are those of bodies that are too large; and
any two attempts at one announcement end in the same block, wherever their bodies came from. -/
theorem reconstructed_as_announced (E : Env) (x : Wire) (a : CompactBlockAnnouncementV2) :
    (∀ primarySource supply b source, reconstructCompactBlockV2 E x a primarySource supply = .ok (some (b, source)) →
      b = headerBlock a b.transactions ∧ b.transactions.head? = some a.coinbase ∧
        b.transactions.map (calculateMerkleLeafHash E) = orderedLeafHashes E a ∧
        (∀ tx ∈ b.transactions.drop 1, hasFullBoundWitness E x tx = true) ∧ compactBlockTransportOk E x b = true ∧
        ∀ now, validateCommitment E x now a = true → calculateMerkleRoot E b.transactions = b.merkleRoot) ∧
    (∀ now primarySource supply e, validateCommitment E x now a = true →
      reconstructCompactBlockV2 E x a primarySource supply = .error e → e = .bodyTooLarge ∨ e = .assemblyTooLarge) ∧
    ∀ primarySource primarySource' supply supply' b b' source source',
      reconstructCompactBlockV2 E x a primarySource supply = .ok (some (b, source)) →
      reconstructCompactBlockV2 E x a primarySource' supply' = .ok (some (b', source')) →
      Unforged E (· ∈ b.transactions ++ b'.transactions) → b = b' := by
  refine ⟨?_, ?_, ?_⟩
  · intro primarySource supply b source h
    obtain ⟨hblock, -, hhead, hleaves, hwitness, hok⟩ := reconstructV2_spec h
    refine ⟨hblock, hhead, hleaves, hwitness, hok, fun now hvalid => ?_⟩
    have hroot : b.merkleRoot = a.merkleRoot := by rw [hblock, headerBlock]
    rw [calculateMerkleRoot, hleaves, hroot]
    exact (header_of_validate hvalid []).2
  · intro now primarySource supply e hvalid h
    unfold reconstructCompactBlockV2 at h
    rcases bind_eq_error.mp h with hcollect | ⟨result, hresult, h⟩
    · exact collect_error hcollect
    cases result with
    | none => cases h
    | some c =>
      simp only at h
      by_cases hmissing : missingCompactIndexes c.slots ≠ []
      · rw [if_pos hmissing] at h
        cases h
      rw [if_neg hmissing] at h
      obtain ⟨txs, htxs⟩ := Slots.exists_of_full (not_not.mp hmissing)
      have hvalues : c.slots.held.filterMap id = txs := by
        rw [htxs, List.filterMap_map, Function.id_comp, List.filterMap_some]
      obtain ⟨hlength, hhead, hleaves, -⟩ := (Held.collect hresult).full htxs
      rw [hvalues, reconstruct_eq hlength hhead hleaves, if_pos (header_of_validate hvalid txs).1, ok_bind] at h
      split at h
      · cases h
      · cases h
  · intro primarySource primarySource' supply supply' b b' source source' h h' hU
    exact reconstructV2_unique h h' hU

/-- What a block of three rewards is announced as. -/
def rewardsAnnounced : CompactBlockAnnouncementV2 :=
  { index := (rewardsBlock toyEnv 2).index
    previousHash := (rewardsBlock toyEnv 2).previousHash
    timestamp := (rewardsBlock toyEnv 2).timestamp
    nonce := (rewardsBlock toyEnv 2).nonce
    difficulty := (rewardsBlock toyEnv 2).difficulty
    hash := (rewardsBlock toyEnv 2).hash
    merkleRoot := (rewardsBlock toyEnv 2).merkleRoot
    coinbase := toyReward Toy.alice 0
    transactionHashes := [1, 2].map fun i => calculateMerkleLeafHash toyEnv (toyReward ['b'] i)
    fullBlockBytes := 323
    userTransactionBytes := 100
    relayToken := 0 }

/-- Both bodies are left from an earlier attempt, in any order. -/
def rewardsSupply (indexes : List ℕ) : Supply :=
  { caches := fun _ => ⟨[], []⟩
    pending := indexes.map fun i => ⟨i, toyReward ['b'] i⟩
    turns := [⟨[7], false, fun _ _ => none⟩] }

theorem rewards_distinct : ∀ t ∈ (rewardsBlock toyEnv 2).transactions, ∀ u ∈ (rewardsBlock toyEnv 2).transactions,
    calculateMerkleLeafHash toyEnv t = calculateMerkleLeafHash toyEnv u → t = u := by decide +kernel

theorem rewards_unsigned : ∀ t ∈ (rewardsBlock toyEnv 2).transactions, t.sigBytes = none := by decide +kernel

/-- `reconstructed_as_announced` for two attempts that find the bodies in different orders. -/
theorem rewards_as_announced : ∃ b b',
    reconstructCompactBlockV2 toyEnv plainWire rewardsAnnounced 5 (rewardsSupply [1, 2]) = .ok (some (b, 5)) ∧
      reconstructCompactBlockV2 toyEnv plainWire rewardsAnnounced 5 (rewardsSupply [2, 1]) = .ok (some (b', 5)) ∧
      b.transactions.map (calculateMerkleLeafHash toyEnv) = orderedLeafHashes toyEnv rewardsAnnounced ∧ b = b' := by
  have hrun : reconstructCompactBlockV2 toyEnv plainWire rewardsAnnounced 5 (rewardsSupply [1, 2]) =
      .ok (some (rewardsBlock toyEnv 2, 5)) := by decide +kernel
  have hrun' : reconstructCompactBlockV2 toyEnv plainWire rewardsAnnounced 5 (rewardsSupply [2, 1]) =
      .ok (some (rewardsBlock toyEnv 2, 5)) := by decide +kernel
  have hannounced := reconstructed_as_announced toyEnv plainWire rewardsAnnounced
  have hunforged : Unforged toyEnv
      (· ∈ (rewardsBlock toyEnv 2).transactions ++ (rewardsBlock toyEnv 2).transactions) := by
    have hmem : ∀ t ∈ (rewardsBlock toyEnv 2).transactions ++ (rewardsBlock toyEnv 2).transactions,
        t ∈ (rewardsBlock toyEnv 2).transactions := fun t ht => or_self_iff.mp (List.mem_append.mp ht)
    exact .of_distinct (fun t ht u hu => rewards_distinct t (hmem t ht) u (hmem u hu))
      fun t ht => rewards_unsigned t (hmem t ht)
  exact ⟨_, _, hrun, hrun', (hannounced.1 5 _ _ 5 hrun).2.2.1, hannounced.2.2 5 5 _ _ _ _ 5 5 hrun hrun' hunforged⟩

end Holding

/-! ### A holder of the block -/

section Holder

variable {E : Env} {x : Wire} {a : CompactBlockAnnouncementV2} {b : Block} {rest : List Transaction}
  {s s' : Slots Transaction} {txs : Transaction → Prop}

/-- A transaction of the block in its place. -/
def Genuine (b : Block) (item : IndexedCompactTransactionV2) : Prop :=
  b.transactions[item.index]? = some item.transaction

theorem Announces.genuine (h : Announces E x a b rest) (hU : Unforged E txs) (hb : ∀ t ∈ b.transactions, txs t)
    {i : ℕ} {tx : Transaction} (htx : txs tx) (hfits : Fits E x a i tx) : b.transactions[i]? = some tx := by
  unfold Fits at hfits
  by_cases hi : i = 0
  · rw [if_pos hi] at hfits
    rw [hi, h.transactions, hfits]
    rfl
  · rw [if_neg hi, h.leaf_at hi] at hfits
    obtain ⟨t, ht, hleaf⟩ := Option.map_eq_some_iff.mp hfits.2.2
    have hrest : t ∈ rest := by
      rw [h.transactions] at ht
      obtain ⟨j, rfl⟩ := Nat.exists_eq_succ_of_ne_zero hi
      exact List.mem_of_getElem? ht
    rw [ht, body_unique hU (hb t (List.mem_of_getElem? ht)) htx (h.witnessed hrest) hfits.1 hleaf]

/-- What holds of the slots while bodies of the block `b` come in. -/
structure Filling (E : Env) (x : Wire) (a : CompactBlockAnnouncementV2) (b : Block) (s : Slots Transaction) : Prop where
  held : Held E x a s
  part : s.PartOf b.transactions

namespace Filling

variable (h : Announces E x a b rest) (hs : Filling E x a b s)

include h hs

theorem sum_wanted : s.bytes + ((s.wanted b.transactions).map (compactTransactionEncodedBytes x)).sum =
    compactTransactionEncodedBytes x a.coinbase + a.userTransactionBytes := by
  rw [hs.part.bytes_add_wanted hs.held.fitting.counted, h.transactions, List.map_cons, List.sum_cons, h.userBytes]

omit h in
theorem bytes_eq : s.bytes = compactTransactionEncodedBytes x a.coinbase + knownUserBytes x s := by
  have hfirst := hs.held.coinbase
  rw [hs.held.fitting.counted, knownUserBytes]
  cases hheld : s.held with
  | nil => rw [hheld] at hfirst; cases hfirst
  | cons slot held =>
    rw [hheld] at hfirst
    have hslot : slot = some a.coinbase := Option.some.inj hfirst
    rw [List.map_cons, List.sum_cons, hslot]
    rfl

/-- A body of the block in an empty slot still fits into what may be assembled. -/
theorem room (hroom : (b.transactions.map (compactTransactionEncodedBytes x)).sum ≤ compactSafeAssembledBytes)
    {i : ℕ} {tx : Transaction} (hi : i ∈ s.missing) (htx : b.transactions[i]? = some tx) :
    s.bytes + compactTransactionEncodedBytes x tx ≤ compactSafeAssembledBytes := by
  have hsum := sum_wanted h hs
  have hmem : tx ∈ s.wanted b.transactions := List.mem_filterMap.mpr ⟨i, hi, htx⟩
  have hle := List.single_le_sum (fun _ _ => Nat.zero_le _) _
    (List.mem_map_of_mem (f := compactTransactionEncodedBytes x) hmem)
  rw [h.transactions, List.map_cons, List.sum_cons, ← h.userBytes] at hroom
  omega

end Filling

/-- The bodies of the block are small enough to travel alone and together. -/
structure Portable (x : Wire) (b : Block) : Prop where
  each : ∀ tx ∈ b.transactions, compactTransactionEncodedBytes x tx ≤ compactTransactionMaxEncodedBytes
  total : (b.transactions.map (compactTransactionEncodedBytes x)).sum ≤ compactSafeAssembledBytes

section Apply

variable (h : Announces E x a b rest) (hport : Portable x b) (hU : Unforged E txs) (hb : ∀ t ∈ b.transactions, txs t)

include h hport hU hb

/-- One body: it is taken exactly if it is the block's at an empty slot, and there is no error. -/
theorem apply_filling (hs : Filling E x a b s) {item : IndexedCompactTransactionV2} (hitem : txs item.transaction)
    (hsmall : compactTransactionEncodedBytes x item.transaction ≤ compactTransactionMaxEncodedBytes ∨
      transactionHashAt E x a item.index = some (calculateMerkleLeafHash E item.transaction)) :
    ∃ s' taken, applyCompactBodyV2 E x a s item = .ok (s', taken) ∧ Filling E x a b s' ∧
      (∀ i ∈ s'.missing, i ∈ s.missing) ∧ (Genuine b item → item.index ∉ s'.missing) := by
  have hkeep : ∀ s' taken, applyCompactBodyV2 E x a s item = .ok (s', taken) →
      Filling E x a b s' ∧ ∀ i ∈ s'.missing, i ∈ s.missing := by
    intro s' taken happly
    rcases applyCompactBodyV2_spec happly with ⟨rfl, -⟩ | ⟨-, rfl, hempty, hfits, -⟩
    · exact ⟨hs, fun _ hi => hi⟩
    · refine ⟨⟨hs.held.apply happly, hs.part.fill hempty (h.genuine hU hb hitem hfits)⟩, fun i hi => ?_⟩
      exact ((Slots.missing_fill hempty i).mp hi).1
  have hfound : ∃ s' taken, applyCompactBodyV2 E x a s item = .ok (s', taken) ∧
      (Genuine b item → item.index ∉ s'.missing) := by
    unfold applyCompactBodyV2
    by_cases hslot : item.index = 0 ∨ s.held[item.index]? ≠ some none
    · rw [if_pos hslot]
      refine ⟨s, false, rfl, fun _ hmissing => ?_⟩
      have hempty := Slots.mem_missing.mp hmissing
      rcases hslot with hzero | hfilled
      · rw [hzero, hs.held.coinbase] at hempty
        cases hempty
      · exact hfilled hempty
    rw [if_neg hslot]
    push Not at hslot
    -- A body of the block has its witness and its leaf, so it gets to the last branch.
    have hgenuine : Genuine b item → hasFullBoundWitness E x item.transaction = true ∧
        transactionHashAt E x a item.index = some (calculateMerkleLeafHash E item.transaction) := by
      intro hg
      have hrest : item.transaction ∈ rest := by
        unfold Genuine at hg
        rw [h.transactions] at hg
        obtain ⟨j, hj⟩ := Nat.exists_eq_succ_of_ne_zero hslot.1
        rw [hj] at hg
        exact List.mem_of_getElem? hg
      refine ⟨h.witnessed hrest, ?_⟩
      rw [h.leaf_at hslot.1, hg]
      rfl
    cases hwitness : hasFullBoundWitness E x item.transaction with
    | false =>
      rw [if_pos rfl]
      refine ⟨s, false, rfl, fun hg => ?_⟩
      rw [(hgenuine hg).1] at hwitness
      cases hwitness
    | true =>
      rw [if_neg Bool.noConfusion]
      by_cases hleaf : transactionHashAt E x a item.index ≠ some (calculateMerkleLeafHash E item.transaction)
      · have hle : compactTransactionEncodedBytes x item.transaction ≤ compactTransactionMaxEncodedBytes := by
          rcases hsmall with hsmall | hsmall
          · exact hsmall
          · exact absurd hsmall hleaf
        simp only [if_neg (Nat.not_lt.mpr hle), if_pos hleaf]
        exact ⟨s, false, rfl, fun hg => absurd (hgenuine hg).2 hleaf⟩
      · have hmatch := not_not.mp hleaf
        obtain ⟨t, ht, hleaves⟩ : ∃ t, b.transactions[item.index]? = some t ∧
            calculateMerkleLeafHash E t = calculateMerkleLeafHash E item.transaction := by
          rw [h.leaf_at hslot.1] at hmatch
          exact Option.map_eq_some_iff.mp hmatch
        have hrest : t ∈ rest := by
          rw [h.transactions] at ht
          obtain ⟨j, hj⟩ := Nat.exists_eq_succ_of_ne_zero hslot.1
          rw [hj] at ht
          exact List.mem_of_getElem? ht
        have hmem := List.mem_of_getElem? ht
        have hsame := body_unique hU (hb t hmem) hitem (h.witnessed hrest) hwitness hleaves
        rw [hsame] at ht hmem
        have hroom := hs.room h hport.total (Slots.mem_missing.mpr hslot.2) ht
        have hle := hport.each _ hmem
        simp only [if_neg (Nat.not_lt.mpr hle), if_neg hleaf, if_neg (Nat.not_lt.mpr hroom)]
        refine ⟨_, true, rfl, fun _ hmissing => ?_⟩
        exact ((Slots.missing_fill hslot.2 _).mp hmissing).2 rfl
  obtain ⟨s', taken, happly, hgone⟩ := hfound
  obtain ⟨hfilling, hsub⟩ := hkeep s' taken happly
  exact ⟨s', taken, happly, hfilling, hsub, hgone⟩

theorem applyBodies_filling (items : List IndexedCompactTransactionV2) (hitems : ∀ item ∈ items, txs item.transaction ∧
      (compactTransactionEncodedBytes x item.transaction ≤ compactTransactionMaxEncodedBytes ∨
        transactionHashAt E x a item.index = some (calculateMerkleLeafHash E item.transaction)))
    (hs : Filling E x a b s) : ∃ s' taken, applyBodies E x a items s = .ok (s', taken) ∧ Filling E x a b s' ∧
      (∀ i ∈ s'.missing, i ∈ s.missing) ∧ ∀ item ∈ items, Genuine b item → item.index ∉ s'.missing := by
  induction items generalizing s with
  | nil => exact ⟨s, false, rfl, hs, fun _ hi => hi, fun _ hitem => by cases hitem⟩
  | cons item items ih =>
    obtain ⟨hknown, hsmall⟩ := hitems item List.mem_cons_self
    obtain ⟨mid, first, hfirst, hmid, hsub, hgone⟩ := apply_filling h hport hU hb hs hknown hsmall
    obtain ⟨last, more, hmore, hlast, hsub', hgone'⟩ := ih (fun i hi => hitems i (List.mem_cons_of_mem _ hi)) hmid
    refine ⟨last, first || more, ?_, hlast, fun i hi => hsub i (hsub' i hi), ?_⟩
    · rw [applyBodies, hfirst, ok_bind]
      simp only [hmore, ok_bind]
    · intro i hi hg
      rcases List.mem_cons.mp hi with rfl | hi
      · exact fun hmissing => hgone hg (hsub' _ hmissing)
      · exact hgone' i hi hg

end Apply

/-! ### The answer of a holder -/

theorem retainWithin_eq : ∀ {found : List IndexedCompactTransactionV2} {estimated : ℕ},
    estimated + (found.map fun item => (codecSerialize (packItem x item)).length).sum ≤ compactResponseMaxBytes →
    retainWithin x estimated found = found
  | [], _, _ => rfl
  | item :: found, estimated, h => by
    rw [List.map_cons, List.sum_cons] at h
    unfold retainWithin
    simp only
    rw [if_neg (by omega), retainWithin_eq (by omega)]

theorem popWhileTooLong_eq {blockHash : Hash} {relayToken : RelayToken} {found : List IndexedCompactTransactionV2}
    (h : responseBytes x blockHash relayToken found ≤ compactResponseMaxBytes) :
    popWhileTooLong x blockHash relayToken found.reverse = found := by
  cases hlatest : found.reverse with
  | nil => rw [List.reverse_eq_nil_iff.mp hlatest, popWhileTooLong]
  | cons latest earlier =>
    have hfound : (latest :: earlier).reverse = found := by rw [← hlatest, List.reverse_reverse]
    rw [popWhileTooLong, hfound, if_pos h]

/-- Around its items a response has 150 bytes at most, so the estimate is never too low. -/
theorem responseBytes_le (blockHash : Hash) (relayToken : RelayToken) {found : List IndexedCompactTransactionV2}
    (h : found.length < 2 ^ 16) : responseBytes x blockHash relayToken found ≤
      150 + (found.map fun item => (packItem x item).length).sum := by
  have hkey := length_packKey_le blockHash
  have htoken := length_packToken relayToken
  have hmap : (packMapLen 1).length = 1 := rfl
  have hname : (packStr (utf8 "CompactTransactionsV2".toList)).length = 22 := by decide +kernel
  have hfields : (packArrayLen 3).length = 1 := rfl
  have hcount : (packArrayLen found.length).length ≤ 3 := by
    rw [length_packArrayLen h]
    split_ifs <;> omega
  have hover : outboundAeadOverhead = 28 := rfl
  unfold responseBytes packCompactTransactionsV2
  simp only [length_codecSerialize, List.length_append, length_flatten_map]
  omega

theorem length_packItem_le {item : IndexedCompactTransactionV2} (h : item.index < 2 ^ 16) :
    (packItem x item).length + 6 ≤ compactTransactionEncodedBytes x item.transaction := by
  have hindex := length_packUint_small h
  have harray : (packArrayLen 2).length = 1 := rfl
  rw [encodedBytes_eq]
  unfold packItem
  simp only [List.length_append]
  omega

theorem sum_packItem_le : ∀ {items : List IndexedCompactTransactionV2}, (∀ item ∈ items, item.index < 2 ^ 16) →
    (items.map fun item => (packItem x item).length).sum + 6 * items.length ≤
      (items.map fun item => compactTransactionEncodedBytes x item.transaction).sum
  | [], _ => le_rfl
  | item :: items, h => by
    have hfirst := length_packItem_le (x := x) (h item List.mem_cons_self)
    have hrest := sum_packItem_le fun i hi => h i (List.mem_cons_of_mem _ hi)
    simp only [List.map_cons, List.sum_cons, List.length_cons]
    omega

theorem sum_serialized : ∀ items : List IndexedCompactTransactionV2,
    (items.map fun item => (codecSerialize (packItem x item)).length).sum =
      10 * items.length + (items.map fun item => (packItem x item).length).sum
  | [] => rfl
  | item :: items => by
    rw [List.map_cons, List.sum_cons, sum_serialized items, length_codecSerialize, List.length_cons, List.map_cons,
      List.sum_cons]
    omega

theorem Genuine.leaf (h : Announces E x a b rest) {item : IndexedCompactTransactionV2} (hg : Genuine b item)
    (hi : item.index ≠ 0) : hasFullBoundWitness E x item.transaction = true ∧
      transactionHashAt E x a item.index = some (calculateMerkleLeafHash E item.transaction) := by
  refine ⟨h.witnessed ?_, by rw [h.leaf_at hi, hg]; rfl⟩
  unfold Genuine at hg
  rw [h.transactions] at hg
  obtain ⟨j, hj⟩ := Nat.exists_eq_succ_of_ne_zero hi
  rw [hj] at hg
  exact List.mem_of_getElem? hg

def itemAt (b : Block) (index : ℕ) : Option IndexedCompactTransactionV2 := b.transactions[index]?.map (⟨index, ·⟩)

/-- The items of the block at some indexes. -/
def itemsAt (b : Block) (indexes : List ℕ) : List IndexedCompactTransactionV2 := indexes.filterMap (itemAt b)

theorem itemAt_eq {i : ℕ} {tx : Transaction} (h : b.transactions[i]? = some tx) : itemAt b i = some ⟨i, tx⟩ := by
  rw [itemAt, h]
  rfl

theorem mem_itemsAt {indexes : List ℕ} {item : IndexedCompactTransactionV2} :
    item ∈ itemsAt b indexes ↔ item.index ∈ indexes ∧ Genuine b item := by
  unfold itemsAt
  rw [List.mem_filterMap]
  constructor
  · rintro ⟨i, hi, hitem⟩
    obtain ⟨tx, htx, rfl⟩ := Option.map_eq_some_iff.mp hitem
    exact ⟨hi, htx⟩
  · rintro ⟨hi, htx⟩
    exact ⟨item.index, hi, itemAt_eq htx⟩

theorem indexes_itemsAt : ∀ {indexes : List ℕ}, (∀ i ∈ indexes, i < b.transactions.length) →
    (itemsAt b indexes).map (·.index) = indexes
  | [], _ => rfl
  | i :: indexes, h => by
    have hi := itemAt_eq (List.getElem?_eq_getElem (h i List.mem_cons_self))
    have ih := indexes_itemsAt fun j hj => h j (List.mem_cons_of_mem _ hj)
    unfold itemsAt at ih ⊢
    rw [List.filterMap_cons_some hi, List.map_cons, ih]

theorem transactions_itemsAt : ∀ indexes : List ℕ,
    (itemsAt b indexes).map (·.transaction) = indexes.filterMap (b.transactions[·]?)
  | [] => rfl
  | i :: indexes => by
    have ih := transactions_itemsAt indexes
    unfold itemsAt at ih ⊢
    cases hi : b.transactions[i]? with
    | none =>
      have hitem : itemAt b i = none := by rw [itemAt, hi]; rfl
      rw [List.filterMap_cons_none hitem, List.filterMap_cons_none hi, ih]
    | some tx => rw [List.filterMap_cons_some (itemAt_eq hi), List.filterMap_cons_some hi, List.map_cons, ih]

/-- What an efficient request is: 64 bodies at most, and an answer whose bodies, with 8 bytes for each and the
allowance, fit into a response. -/
theorem efficient_spec (h : compactV2BodyRequestIsEfficient x a s = true) (hne : s.missing ≠ []) :
    s.missing.length ≤ compactTxBatchMax ∧ 0 ∉ s.missing ∧ knownUserBytes x s ≤ a.userTransactionBytes ∧
      a.userTransactionBytes - knownUserBytes x s + compactV2BodyEnvelopeAllowance + s.missing.length * 8 ≤
        compactResponseMaxBytes := by
  unfold compactV2BodyRequestIsEfficient missingCompactIndexes at h
  simp only [if_neg hne] at h
  split at h
  · cases h
  · rename_i hbatch
    push Not at hbatch
    split at h
    · cases h
    · split at h
      · cases h
      · exact ⟨hbatch.1, hbatch.2, by omega, by omega⟩

/-- The peer has the block in full and its checks let the requester have bodies once: the rate limit is good for a
full batch, and the token is that of an announcement to the requester that is still pending, recent enough, and for
which no bodies were served. -/
structure BodyServer.Admits (b : Block) (requester : PeerAddr) (blockHash : Hash) (relayToken : RelayToken)
    (server : BodyServer) : Prop where
  full : server.full = some b
  rate : 1 + (compactTxBatchMax + 15) / 16 ≤ server.rateAllowance
  authorised : authorisesBodies server.relay ⟨blockHash, requester, relayToken⟩ = true

variable {requester : PeerAddr} {relayToken : RelayToken} {server : BodyServer}

/-- **A holder answers in full.** To a request that is efficient, a peer with the block that admits it answers with
every body that is missing, in a response that is taken. -/
theorem serve_answers_in_full (h : Announces E x a b rest) (hport : Portable x b) (hs : Filling E x a b s)
    (hne : s.missing ≠ []) (hefficient : compactV2BodyRequestIsEfficient x a s = true)
    (hadmits : server.Admits b requester a.hash relayToken) :
    ∃ items, (serveCompactTransactionsV2 E x server requester a.hash relayToken s.missing).2 = some items ∧
      responseValid E x a s.missing items ∧ ∀ i ∈ s.missing, ∃ item ∈ items, item.index = i ∧ Genuine b item := by
  obtain ⟨hbatch, hzero, hknown, hestimate⟩ := efficient_spec hefficient hne
  have hlength : s.held.length = b.transactions.length := hs.part.length
  have hlt : ∀ i ∈ s.missing, i < b.transactions.length := fun i hi => by
    have := Slots.missing_lt hi
    omega
  have hmax : maxBlockTxCount = 4096 := rfl
  have hcount := h.count_le
  let items := (itemsAt b s.missing).mergeSort fun i j => i.index ≤ j.index
  have hperm : items.Perm (itemsAt b s.missing) := List.mergeSort_perm _ _
  have hmem : ∀ item, item ∈ items ↔ item.index ∈ s.missing ∧ Genuine b item := fun item => by
    rw [hperm.mem_iff, mem_itemsAt]
  have hindexes : (items.map (·.index)).Perm s.missing := by
    have := hperm.map (·.index)
    rwa [indexes_itemsAt hlt] at this
  have hitemsLength : items.length = s.missing.length := by
    have := hindexes.length_eq
    rwa [List.length_map] at this
  -- The bodies are the wanted ones, and what is wanted is what the announcement has and the slots do not.
  have hwanted : (items.map fun item => compactTransactionEncodedBytes x item.transaction).sum =
      a.userTransactionBytes - knownUserBytes x s := by
    have htransactions := (hperm.map fun item => compactTransactionEncodedBytes x item.transaction).sum_eq
    have hlist : (itemsAt b s.missing).map (fun item => compactTransactionEncodedBytes x item.transaction) =
        (s.wanted b.transactions).map (compactTransactionEncodedBytes x) := by
      have := congrArg (List.map (compactTransactionEncodedBytes x)) (transactions_itemsAt (b := b) s.missing)
      rw [List.map_map] at this
      exact this
    have hsum := hs.sum_wanted h
    have hbytes := hs.bytes_eq
    rw [htransactions, hlist]
    omega
  have hpacked : (items.map fun item => (packItem x item).length).sum + 6 * items.length ≤
      a.userTransactionBytes - knownUserBytes x s := by
    rw [← hwanted]
    refine sum_packItem_le fun item hitem => ?_
    have := hlt _ ((hmem item).mp hitem).1
    omega
  have hserialized := sum_serialized (x := x) items
  have hallowance : compactV2BodyEnvelopeAllowance = 2048 := rfl
  have hbatchMax : compactTxBatchMax = 64 := rfl
  have hresponse : ∀ token, responseBytes x a.hash token items ≤ compactResponseMaxBytes := fun token => by
    have hcount : items.length < 2 ^ 16 := by omega
    have := responseBytes_le (x := x) a.hash token hcount
    omega
  have hfilter : items.filter (fun item =>
      compactTransactionEncodedBytes x item.transaction ≤ compactTransactionMaxEncodedBytes) = items := by
    refine List.filter_eq_self.mpr fun item hitem => decide_eq_true ?_
    exact hport.each _ (List.mem_of_getElem? ((hmem item).mp hitem).2)
  refine ⟨items, ?_, ⟨hresponse _, ?_, ?_⟩, ?_⟩
  · unfold serveCompactTransactionsV2
    rw [if_neg, if_neg]
    · have hfound : verifiedCompactTransactionsV2 E x server.full server.pending server.caches s.missing =
          itemsAt b s.missing := by
        rw [hadmits.full]
        rfl
      have hrate : ¬ server.rateAllowance < 1 + (s.missing.length + 15) / 16 := by
        have := hadmits.rate
        omega
      simp only [if_neg hrate, hadmits.authorised, Bool.true_eq_false, if_false, hfound]
      change some (popWhileTooLong x a.hash relayToken (retainWithin x compactV2BodyEnvelopeAllowance (items.filter
        fun item => compactTransactionEncodedBytes x item.transaction ≤ compactTransactionMaxEncodedBytes)).reverse) = _
      rw [hfilter, retainWithin_eq (by omega), popWhileTooLong_eq (hresponse _)]
    · rintro (hdup | ⟨i, hi, hbad | hbad⟩)
      · exact hdup s.nodup_missing
      · exact hzero (hbad ▸ hi)
      · have := hlt i hi
        omega
    · rintro (hnil | hmany)
      · exact hne hnil
      · omega
  · exact hindexes.nodup_iff.mpr s.nodup_missing
  · intro item hitem
    obtain ⟨hi, hg⟩ := (hmem item).mp hitem
    have hnonzero : item.index ≠ 0 := fun hbad => hzero (hbad ▸ hi)
    obtain ⟨hwitness, hleaf⟩ := hg.leaf h hnonzero
    exact ⟨hi, hwitness, hport.each _ (List.mem_of_getElem? hg), hleaf⟩
  · intro i hi
    have hget := List.getElem?_eq_getElem (hlt i hi)
    exact ⟨⟨i, _⟩, (hmem _).mpr ⟨hi, hget⟩, rfl, hget⟩

theorem mem_of_retainWithin {item : IndexedCompactTransactionV2} : ∀ {found : List IndexedCompactTransactionV2}
    {estimated : ℕ}, item ∈ retainWithin x estimated found → item ∈ found
  | [], _, h => h
  | next :: found, estimated, h => by
    unfold retainWithin at h
    simp only at h
    split at h
    · exact List.mem_cons_of_mem _ (mem_of_retainWithin h)
    · rcases List.mem_cons.mp h with rfl | h
      · exact List.mem_cons_self
      · exact List.mem_cons_of_mem _ (mem_of_retainWithin h)

theorem mem_of_popWhileTooLong {blockHash : Hash} {relayToken : RelayToken} {item : IndexedCompactTransactionV2} :
    ∀ {found : List IndexedCompactTransactionV2}, item ∈ popWhileTooLong x blockHash relayToken found → item ∈ found
  | [], h => h
  | latest :: found, h => by
    unfold popWhileTooLong at h
    split at h
    · exact List.mem_reverse.mp h
    · exact List.mem_cons_of_mem _ (mem_of_popWhileTooLong h)

/-- A holder serves nothing but the block's bodies. -/
theorem genuine_of_serve {blockHash : Hash} {indexes : List ℕ} {items : List IndexedCompactTransactionV2}
    (hfull : server.full = some b)
    (h : (serveCompactTransactionsV2 E x server requester blockHash relayToken indexes).2 = some items) :
    ∀ item ∈ items, Genuine b item := by
  unfold serveCompactTransactionsV2 at h
  split at h
  · cases h
  · split at h
    · cases h
    · simp only at h
      split at h
      · cases h
      · split at h
        · cases h
        · rw [← Option.some.inj h, hfull]
          intro item hitem
          have hfound := mem_of_retainWithin (List.mem_reverse.mp (mem_of_popWhileTooLong hitem))
          have hsorted := (List.mergeSort_perm _ _).mem_iff.mp (List.mem_of_mem_filter hfound)
          exact (mem_itemsAt.mp hsorted).2

/-! ### Asking until the block is complete -/

theorem request_of_holder (h : Announces E x a b rest) (hport : Portable x b) (hs : Filling E x a b s)
    (hne : s.missing ≠ []) (hefficient : compactV2BodyRequestIsEfficient x a s = true)
    (hadmits : server.Admits b requester a.hash relayToken) :
    ∃ items, requestCompactTransactionBatchV2 E x a s.missing
        (fun indexes => (serveCompactTransactionsV2 E x server requester a.hash relayToken indexes).2) = some items ∧
      ∀ i ∈ s.missing, ∃ item ∈ items, item.index = i ∧ Genuine b item := by
  obtain ⟨items, hserve, hvalid, hall⟩ := serve_answers_in_full h hport hs hne hefficient hadmits
  obtain ⟨hbatch, hzero, -, -⟩ := efficient_spec hefficient hne
  refine ⟨items, ?_, hall⟩
  unfold requestCompactTransactionBatchV2
  rw [if_neg, if_neg]
  · simp only [hserve, if_pos hvalid]
  · rintro (hdup | ⟨i, hi, hbad | hbad⟩)
    · exact hdup s.nodup_missing
    · exact hzero (hbad ▸ hi)
    · have hlt := Slots.missing_lt hi
      have hlength := hs.held.length
      omega
  · rintro (hnil | hmany)
    · exact hne hnil
    · omega

theorem small_of_request {indexes : List ℕ} {answer : Answer} {items : List IndexedCompactTransactionV2}
    (h : requestCompactTransactionBatchV2 E x a indexes answer = some items) :
    ∀ item ∈ items, compactTransactionEncodedBytes x item.transaction ≤ compactTransactionMaxEncodedBytes := by
  have hanswer := answer_of_request h
  unfold requestCompactTransactionBatchV2 at h
  split at h
  · cases h
  · split at h
    · cases h
    · rw [hanswer] at h
      simp only at h
      split at h
      · rename_i hvalid
        exact fun item hitem => (hvalid.2.2 item hitem).2.2.1
      · cases h

/-- A run of turns has no error, and leaves nothing missing once a holder was asked. -/
theorem collectBodies_filling (h : Announces E x a b rest) (hport : Portable x b) (hU : Unforged E txs)
    (hb : ∀ t ∈ b.transactions, txs t) {holders : PeerAddr → Prop} {turns : List Turn} {c : Collected}
    (hknown : ∀ turn ∈ turns, ∀ source indexes items, turn.answer source indexes = some items →
      ∀ item ∈ items, txs item.transaction)
    (hhold : ∀ turn ∈ turns, ∀ p, holders p → ∃ server relayToken,
      BodyServer.Admits b requester a.hash relayToken server ∧
      turn.answer p = fun indexes => (serveCompactTransactionsV2 E x server requester a.hash relayToken indexes).2)
    (hs : Filling E x a b c.slots)
    (hefficient : c.slots.missing = [] ∨ compactV2BodyRequestIsEfficient x a c.slots = true)
    (hasked : (∃ p ∈ c.asked, holders p) → c.slots.missing = []) :
    ∃ c', collectBodies E x a turns c = .ok c' ∧ Filling E x a b c'.slots ∧
      ((∃ p ∈ c'.asked, holders p) → c'.slots.missing = []) := by
  induction turns generalizing c with
  | nil => exact ⟨c, rfl, hs, hasked⟩
  | cons turn turns ih =>
    have ih := fun {c : Collected} => ih (c := c) (fun t ht => hknown t (List.mem_cons_of_mem _ ht))
      fun t ht => hhold t (List.mem_cons_of_mem _ ht)
    unfold collectBodies missingCompactIndexes
    by_cases hdone : c.slots.missing = []
    · rw [if_pos hdone]
      exact ⟨c, rfl, hs, hasked⟩
    rw [if_neg hdone]
    have hefficient := hefficient.resolve_left hdone
    cases hsource : turn.sources.find? fun source => !c.attempted.contains source with
    | none => exact ⟨c, rfl, hs, hasked⟩
    | some source =>
      simp only
      by_cases hlate : turn.late = true
      · rw [if_pos hlate]
        exact ⟨_, rfl, hs, hasked⟩
      rw [if_neg hlate]
      -- No holder was asked before, for there is something missing.
      have hholder : (∃ p ∈ source :: c.asked, holders p) → holders source := by
        rintro ⟨p, hp, hholds⟩
        rcases List.mem_cons.mp hp with rfl | hp
        · exact hholds
        · exact absurd (hasked ⟨p, hp, hholds⟩) hdone
      cases hrequest : requestCompactTransactionBatchV2 E x a c.slots.missing (turn.answer source) with
      | none =>
        refine ih hs (.inr hefficient) fun hsome => ?_
        obtain ⟨server, relayToken, hadmits, hserves⟩ := hhold turn List.mem_cons_self source (hholder hsome)
        obtain ⟨items, hitems, -⟩ := request_of_holder h hport hs hdone hefficient hadmits
        rw [← hserves, hrequest] at hitems
        cases hitems
      | some items =>
        have hsmall := small_of_request hrequest
        have hanswer := answer_of_request hrequest
        have hitems := hknown turn List.mem_cons_self source _ items hanswer
        obtain ⟨slots, applied, happly, hslots, hsub, hgone⟩ := applyBodies_filling h hport hU hb items
          (fun item hitem => ⟨hitems item hitem, .inl (hsmall item hitem)⟩) hs
        have hcomplete : (∃ p ∈ source :: c.asked, holders p) → slots.missing = [] := by
          intro hsome
          obtain ⟨server, relayToken, hadmits, hserves⟩ := hhold turn List.mem_cons_self source (hholder hsome)
          obtain ⟨items', hitems', hall⟩ := request_of_holder h hport hs hdone hefficient hadmits
          rw [← hserves, hrequest] at hitems'
          have hsame := Option.some.inj hitems'
          refine List.eq_nil_iff_forall_not_mem.mpr fun i hi => ?_
          obtain ⟨item, hitem, hindex, hgenuine⟩ := hall i (hsub i hi)
          rw [← hsame] at hitem
          exact hgone item hitem hgenuine (hindex ▸ hi)
        simp only [happly, ok_bind]
        by_cases hstop : slots.missing ≠ [] ∧ compactV2BodyRequestIsEfficient x a slots = false
        · rw [if_pos hstop]
          exact ⟨_, rfl, hslots, hcomplete⟩
        · rw [if_neg hstop]
          refine ih hslots ?_ hcomplete
          by_cases hfull : slots.missing = []
          · exact .inl hfull
          · exact .inr (Bool.eq_true_of_not_eq_false fun hfalse => hstop ⟨hfull, hfalse⟩)

theorem localBodies_leaf {caches : ℕ → WitnessCaches} {item : IndexedCompactTransactionV2}
    (hitem : item ∈ localBodies E a caches) :
    transactionHashAt E x a item.index = some (calculateMerkleLeafHash E item.transaction) := by
  unfold localBodies at hitem
  obtain ⟨⟨leaf, offset⟩, hleaf, hitem⟩ := List.mem_filterMap.mp hitem
  obtain ⟨tx, htx, rfl⟩ := Option.map_eq_some_iff.mp hitem
  have hfound : calculateMerkleLeafHash E tx = leaf := by
    unfold lookupVerifiedCompactTransaction at htx
    split at htx
    · cases htx
    · split at htx
      · cases htx
      · split at htx
        · rename_i hmatch
          rw [← Option.some.inj htx]
          exact hmatch
        · cases htx
  have hat := List.mem_zipIdx_iff_getElem?.mp hleaf
  rw [transactionHashAt, CompactBlockAnnouncementV2.transactionHashAt, hfound]
  exact hat

/-- **Main result: a holder that is asked completes the block.** A block is announced and its bodies are small enough
to travel. Then an attempt to put it together, whatever its caches hold, whatever an earlier attempt left and whatever
the peers answer, ends without an error: with the block or with none, and with the block if it asked a peer that has
it and admits the request. Assumes that SHA-256 has no collisions among what is supplied. -/
theorem holder_completes_block (E : Env) (x : Wire) (b : Block) (relayToken : RelayToken)
    (a : CompactBlockAnnouncementV2) (requester primarySource : PeerAddr) (supply : Supply)
    (holders : PeerAddr → Prop)
    (hannounced : fromBlock E x b relayToken = .ok a) (hhash : calculateHashForBlock E b = b.hash)
    (hport : Portable x b)
    (hU : Unforged E fun tx => tx ∈ b.transactions ∨ ∃ item, supply.Offers E a item ∧ item.transaction = tx)
    (hpending : ∀ item ∈ supply.pending,
      compactTransactionEncodedBytes x item.transaction ≤ compactTransactionMaxEncodedBytes)
    (hhold : ∀ turn ∈ supply.turns, ∀ p, holders p → ∃ server relayToken,
      BodyServer.Admits b requester a.hash relayToken server ∧
      turn.answer p = fun indexes => (serveCompactTransactionsV2 E x server requester a.hash relayToken indexes).2) :
    ∃ c, collect E x a primarySource supply = .ok (some c) ∧
      reconstructCompactBlockV2 E x a primarySource supply =
        .ok (if c.slots.missing = [] then some (b, c.witnessSource) else none) ∧
      ((∃ p ∈ c.asked, holders p) → c.slots.missing = []) := by
  obtain ⟨rest, h⟩ := fromBlock_eq_ok hannounced
  have hb : ∀ t ∈ b.transactions, t ∈ b.transactions ∨ ∃ item, supply.Offers E a item ∧ item.transaction = t :=
    fun t ht => .inl ht
  have hcoinbase : compactTransactionEncodedBytes x a.coinbase ≤ compactSafeAssembledBytes := by
    have := hport.total
    rw [h.transactions, List.map_cons, List.sum_cons] at this
    omega
  have hheld : Held E x a (startSlots x a) := .start hcoinbase
  have hstart : Filling E x a b (startSlots x a) := by
    refine ⟨hheld, ?_, ?_⟩
    · rw [hheld.length, h.count]
    · intro i tx htx
      refine h.genuine hU hb ?_ (hheld.fitting.fits i tx htx)
      cases i with
      | zero =>
        have hsame : a.coinbase = tx := Option.some.inj (Option.some.inj htx)
        refine .inl ?_
        rw [h.transactions, hsame]
        exact List.mem_cons_self
      | succ i => cases List.eq_of_mem_replicate (List.mem_of_getElem? htx)
  obtain ⟨found, taken, hfound, hfilling, -, -⟩ := applyBodies_filling h hport hU hb
    (localBodies E a supply.caches)
    (fun item hitem => ⟨.inr ⟨item, .inl hitem, rfl⟩, .inr (localBodies_leaf hitem)⟩) hstart
  obtain ⟨slots, taken', hslots, hfilling', -, -⟩ := applyBodies_filling h hport hU hb supply.pending
    (fun item hitem => ⟨.inr ⟨item, .inr (.inl hitem), rfl⟩, .inl (hpending item hitem)⟩) hfilling
  obtain ⟨c, hcollect, hc, hasked⟩ : ∃ c, collect E x a primarySource supply = .ok (some c) ∧ Filling E x a b c.slots ∧
      ((∃ p ∈ c.asked, holders p) → c.slots.missing = []) := by
    have hnone : ¬ ∃ p ∈ ([] : List PeerAddr), holders p := by simp
    unfold collect
    rw [if_neg (by omega), hfound, ok_bind]
    simp only [hslots, ok_bind]
    by_cases hdone : missingCompactIndexes slots = []
    · rw [if_pos hdone]
      exact ⟨_, rfl, hfilling', fun hsome => absurd hsome hnone⟩
    rw [if_neg hdone]
    by_cases hefficient : compactV2BodyRequestIsEfficient x a slots = false
    · rw [if_pos hefficient]
      exact ⟨_, rfl, hfilling', fun hsome => absurd hsome hnone⟩
    rw [if_neg hefficient]
    obtain ⟨c, hturns, hc, hasked⟩ := collectBodies_filling h hport hU hb (c := ⟨slots, [], [], primarySource⟩)
      (fun turn hturn source indexes items hanswer item hitem =>
        .inr ⟨item, .inr (.inr ⟨turn, hturn, source, indexes, items, hanswer, hitem⟩), rfl⟩)
      hhold hfilling' (.inr (Bool.eq_true_of_not_eq_false hefficient)) fun hsome => absurd hsome hnone
    exact ⟨c, by rw [hturns, ok_bind], hc, hasked⟩
  refine ⟨c, hcollect, ?_, hasked⟩
  unfold reconstructCompactBlockV2 missingCompactIndexes
  rw [hcollect, ok_bind]
  by_cases hfull : c.slots.missing = []
  · have hvalues : c.slots.held.filterMap id = b.transactions := by
      rw [hc.part.held_eq hfull, List.filterMap_map, Function.id_comp, List.filterMap_some]
    simp only [hfull, ne_eq, not_true_eq_false, if_false, if_true, hvalues, h.reconstruct_self hhash, ok_bind,
      h.eligible, Bool.true_eq_false]
  · simp only [hfull, ne_eq, not_false_eq_true, if_true, if_false]

local instance digestNeZero : NeZero (2 ^ 256) := ⟨by decide⟩

/-- Digests that are lengths. -/
def lengthEnv : Env :=
  { toyEnv with sha256 := fun bytes => Fin.ofNat (2 ^ 256) bytes.length, blake3 := fun _ => zeroHash }

/-- A reward to a long name, which an earlier attempt left, and a short one. -/
def longBlock : Block :=
  sealBlock lengthEnv (genesisLaunchBlock lengthEnv) 5 0
    [toyReward Toy.alice 0, toyReward (List.replicate 2900 'b') 1, toyReward ['b'] 2]

def longAnnounced : CompactBlockAnnouncementV2 :=
  { index := 1
    previousHash := 0
    timestamp := longBlock.timestamp
    nonce := 0
    difficulty := 464
    hash := 0
    merkleRoot := 64
    coinbase := toyReward Toy.alice 0
    transactionHashes := [2942, 43]
    fullBlockBytes := 3188
    userTransactionBytes := 3001
    relayToken := 0 }

/-- Peer 7 has the block and announced it to peer 5 with token 9. -/
def longServer : BodyServer :=
  ⟨some longBlock, none, ⟨[], []⟩, 5, CompactRelay.new.recordCompactAnnounce ⟨longBlock.hash, 5, 9⟩⟩

def longSupply : Supply :=
  { caches := fun _ => ⟨[], []⟩
    pending := [⟨1, toyReward (List.replicate 2900 'b') 1⟩]
    turns := [⟨[7], false, fun _ indexes =>
      (serveCompactTransactionsV2 lengthEnv plainWire longServer 5 longBlock.hash 9 indexes).2⟩] }

theorem long_transactions : longBlock.transactions =
    [toyReward Toy.alice 0, toyReward (List.replicate 2900 'b') 1, toyReward ['b'] 2] := rfl

theorem long_announced : fromBlock lengthEnv plainWire longBlock 0 = .ok longAnnounced := by decide +kernel

theorem long_offers (item : IndexedCompactTransactionV2) (h : longSupply.Offers lengthEnv longAnnounced item) :
    item.transaction ∈ longBlock.transactions := by
  rcases h with hlocal | hpending | ⟨turn, hturn, source, indexes, items, hanswer, hitem⟩
  · have hnone : localBodies lengthEnv longAnnounced longSupply.caches = [] := by decide +kernel
    rw [hnone] at hlocal
    cases hlocal
  · rw [List.mem_singleton.mp hpending, long_transactions]
    exact .tail _ (.head _)
  · rw [List.mem_singleton.mp hturn] at hanswer
    exact List.mem_of_getElem? (genuine_of_serve rfl hanswer item hitem)

theorem long_unforged : Unforged lengthEnv fun tx => tx ∈ longBlock.transactions ∨
    ∃ item, longSupply.Offers lengthEnv longAnnounced item ∧ item.transaction = tx := by
  have hmem : ∀ tx, (tx ∈ longBlock.transactions ∨
      ∃ item, longSupply.Offers lengthEnv longAnnounced item ∧ item.transaction = tx) →
          tx ∈ longBlock.transactions := by
    rintro tx (htx | ⟨item, hitem, rfl⟩)
    · exact htx
    · exact long_offers item hitem
  have hdistinct : ∀ t ∈ longBlock.transactions, ∀ u ∈ longBlock.transactions,
      calculateMerkleLeafHash lengthEnv t = calculateMerkleLeafHash lengthEnv u → t = u := by decide +kernel
  have hunsigned : ∀ t ∈ longBlock.transactions, t.sigBytes = none := by decide +kernel
  exact .of_distinct (fun t ht u hu => hdistinct t (hmem t ht) u (hmem u hu)) fun t ht => hunsigned t (hmem t ht)

theorem long_asked : (collect lengthEnv plainWire longAnnounced 5 longSupply).toOption.join.any
    (fun c => decide (c.asked = [7])) = true := by decide +kernel

/-- Peer 5 asks peer 7 for the short reward, and that completes the block. -/
theorem asked_holder_completes : ∃ c, collect lengthEnv plainWire longAnnounced 5 longSupply = .ok (some c) ∧
    c.asked = [7] ∧
    reconstructCompactBlockV2 lengthEnv plainWire longAnnounced 5 longSupply =
        .ok (some (longBlock, c.witnessSource)) := by
  have hhash : longAnnounced.hash = longBlock.hash := by decide +kernel
  have hadmits : longServer.Admits longBlock 5 longAnnounced.hash 9 := by
    rw [hhash]
    exact ⟨rfl, by decide, by decide +kernel⟩
  obtain ⟨c, hcollect, hresult, hcomplete⟩ := holder_completes_block lengthEnv plainWire longBlock 0 longAnnounced 5 5
    longSupply (· = 7) long_announced (by decide +kernel) ⟨by decide +kernel, by decide +kernel⟩ long_unforged
    (by decide +kernel) (by
      intro turn hturn p _
      rw [List.mem_singleton.mp hturn]
      refine ⟨longServer, 9, hadmits, ?_⟩
      rw [hhash])
  have hasked := long_asked
  rw [hcollect] at hasked
  have hseven : c.asked = [7] := of_decide_eq_true hasked
  refine ⟨c, hcollect, hseven, ?_⟩
  rw [hresult, if_pos (hcomplete ⟨7, by rw [hseven]; exact List.mem_cons_self, rfl⟩)]

end Holder

end CompactBlocks

end Alphanumeric
