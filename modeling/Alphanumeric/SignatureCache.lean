/-
# The cache of verified signatures

`verify_transaction_signature` remembers what it has verified in an LRU cache, under
the transaction's id, a digest of its public key's text and the hash of its
signature. A warm entry spares the ML-DSA check and, with it, the check that the
public key owns the sender address, which comes after the lookup.

The id is the sender, the recipient, the money and the time with colons between, and
a colon may be part of an address. So two transactions with one id may name two
senders, and the one with the wrong sender passes when the other is in the cache.
That is the only way in which the cache shows (`cache_invisible_iff`).

Key definitions: `SignatureCache`, `verifyCached`, `warm`, `Shadows`.
Key theorems: `cacheKey_inj`, `warm_keys`, `verifyCached_cold`, `cache_invisible_iff`.
-/
import Alphanumeric.Validation

namespace Alphanumeric

open Guard BlockchainError

variable (E : Env)

/-! ### The cache -/

/-- `LruCache<String, bool>`: its keys, the most recently used first. No key is stored with
`false`. -/
structure SignatureCache where
  capacity : ℕ
  keys : List Text

namespace SignatureCache

def empty (capacity : ℕ) : SignatureCache := ⟨capacity, []⟩

/-- A hit moves the key to the front. -/
def promote (c : SignatureCache) (key : Text) : SignatureCache := { c with keys := key :: c.keys.erase key }

/-- The least recently used key falls out when there is no room. -/
def put (c : SignatureCache) (key : Text) : SignatureCache :=
  { c with keys := (key :: c.keys.erase key).take c.capacity }

end SignatureCache

/-! ### The cached check -/

def utf8 (s : Text) : List UInt8 := s.flatMap String.utf8EncodeChar

def cacheKey (tx : Transaction) (pubKey : Text) (sigBytes : List UInt8) : Text :=
  getTxId E tx ++ ':' :: signatureHashHex E (utf8 pubKey) ++ ':' :: signatureHashHex E sigBytes

/-- What is checked before the cache is asked: a signature, a public key, and the claimed hash
of the signature. -/
def presented (tx : Transaction) : Res (Text × List UInt8) := do
  let sigHex ← need tx.signature invalidTransactionSignature
  let sigBytes ← need (hexDecode sigHex) invalidTransactionSignature
  ensure (sigBytes ≠ []) invalidTransactionSignature
  let pubKey ← need tx.pubKey invalidTransactionSignature
  ensure (tx.sigHash.all (· == signatureHashHex E sigBytes) = true) invalidTransactionSignature
  .ok (pubKey, sigBytes)

/-- What a miss checks: the signature, and that the key owns the sender address. -/
def checkOwner (tx : Transaction) (pubKey : Text) (sigBytes : List UInt8) : Res Unit := do
  let pubKeyBytes ← need (hexDecode pubKey) invalidTransactionSignature
  ensure (E.mldsaVerify (getMessage E tx) sigBytes pubKeyBytes = true) invalidTransactionSignature
  ensure (derivedAddress E pubKeyBytes = tx.sender) invalidTransactionSignature

/-- `verify_transaction_signature`, with the cache it leaves. -/
def verifyCached (cache : SignatureCache) (tx : Transaction) : SignatureCache × Res Unit :=
  if tx.isSystem then (cache, .ok ())
  else
    match presented E tx with
    | .error e => (cache, .error e)
    | .ok (pubKey, sigBytes) =>
      if cache.keys.contains (cacheKey E tx pubKey sigBytes) then
        (cache.promote (cacheKey E tx pubKey sigBytes), .ok ())
      else
        match checkOwner E tx pubKey sigBytes with
        | .error e => (cache, .error e)
        | .ok () => (cache.put (cacheKey E tx pubKey sigBytes), .ok ())

/-- The cache after a history of verifications. -/
def warm (capacity : ℕ) (history : List Transaction) : SignatureCache :=
  history.foldl (fun cache tx => (verifyCached E cache tx).1) (.empty capacity)

variable {E}

/-- The check that validation makes is the part before the lookup, then the part of a miss. -/
theorem verifyTransactionSignature_eq {tx : Transaction} (hsys : ¬ tx.isSystem = true) :
    verifyTransactionSignature E tx = presented E tx >>= fun p => checkOwner E tx p.1 p.2 := by
  rw [verifyTransactionSignature, if_neg hsys]
  simp only [presented, checkOwner, bind_assoc, ok_bind]

theorem verifyCached_hit {cache : SignatureCache} {tx : Transaction} {pubKey : Text} {sigBytes : List UInt8}
    (hsys : ¬ tx.isSystem = true) (hp : presented E tx = .ok (pubKey, sigBytes))
    (hkey : cacheKey E tx pubKey sigBytes ∈ cache.keys) : (verifyCached E cache tx).2 = .ok () := by
  simp only [verifyCached, hsys, hp, List.contains_iff_mem.mpr hkey, if_true]
  rfl

theorem verifyCached_miss {cache : SignatureCache} {tx : Transaction}
    (hmiss : ∀ pubKey sigBytes, presented E tx = .ok (pubKey, sigBytes) →
      cacheKey E tx pubKey sigBytes ∉ cache.keys) :
    (verifyCached E cache tx).2 = verifyTransactionSignature E tx := by
  by_cases hsys : tx.isSystem = true
  · simp only [verifyCached, verifyTransactionSignature, hsys, if_true]
  · rw [verifyTransactionSignature_eq hsys]
    cases hp : presented E tx with
    | error e =>
      simp only [verifyCached, hsys, hp]
      rfl
    | ok p =>
      have hkey : cache.keys.contains (cacheKey E tx p.1 p.2) = false := by
        rw [Bool.eq_false_iff, ne_eq, List.contains_iff_mem]
        exact hmiss p.1 p.2 hp
      rw [ok_bind]
      simp only [verifyCached, hsys, hp, hkey, Bool.false_eq_true, if_false]
      cases checkOwner E tx p.1 p.2 <;> rfl

/-- With nothing cached, this is the check that validation makes. -/
theorem verifyCached_cold (capacity : ℕ) (tx : Transaction) :
    (verifyCached E (.empty capacity) tx).2 = verifyTransactionSignature E tx :=
  verifyCached_miss fun _ _ _ hmem => by cases hmem

/-! ### What a key binds -/

theorem toLeBytes_length : ∀ (w n : ℕ), (toLeBytes w n).length = w
  | 0, _ => rfl
  | w + 1, n => by simp [toLeBytes, toLeBytes_length w]

theorem hexEncode_length (bytes : List UInt8) : (hexEncode bytes).length = 2 * bytes.length := by
  induction bytes with
  | nil => rfl
  | cons b bytes ih =>
    simp only [hexEncode, List.flatMap_cons, List.length_append, List.length_cons, List.length_nil] at ih ⊢
    omega

theorem signatureHashHex_length (bytes : List UInt8) : (signatureHashHex E bytes).length = 64 := by
  rw [signatureHashHex, hexEncode_length, Hash.bytes, toBeBytes, List.length_reverse, toLeBytes_length]

/-- The two digests have a fixed length, so a key is its three parts. -/
theorem cacheKey_inj {c tx : Transaction} {pubKey pubKey' : Text} {sigBytes sigBytes' : List UInt8}
    (h : cacheKey E c pubKey sigBytes = cacheKey E tx pubKey' sigBytes') :
    getTxId E c = getTxId E tx ∧ signatureHashHex E (utf8 pubKey) = signatureHashHex E (utf8 pubKey') ∧
      signatureHashHex E sigBytes = signatureHashHex E sigBytes' := by
  unfold cacheKey at h
  obtain ⟨hfront, hsig⟩ := List.append_inj' h (by simp [signatureHashHex_length])
  obtain ⟨hid, hkey⟩ := List.append_inj' hfront (by simp [signatureHashHex_length])
  exact ⟨hid, (List.cons.inj hkey).2, (List.cons.inj hsig).2⟩

theorem utf8_injective {a b : Text} (h : utf8 a = utf8 b) : a = b := by
  have hbytes : (String.ofList a).toByteArray = (String.ofList b).toByteArray := by
    simp only [String.toByteArray_ofList, List.utf8Encode]
    exact congrArg List.toByteArray h
  have hstr : String.ofList a = String.ofList b := String.toByteArray_inj.mp hbytes
  simpa using congrArg String.toList hstr

theorem presented_eq_ok {tx : Transaction} {pubKey : Text} {sigBytes : List UInt8}
    (h : presented E tx = .ok (pubKey, sigBytes)) : tx.pubKey = some pubKey ∧ tx.sigBytes = some sigBytes := by
  unfold presented at h
  simp only [bind_eq_ok, need_eq_ok, ensure_eq_ok] at h
  obtain ⟨sigHex, hsig, bytes, hdec, -, -, key, hkey, -, -, hpair⟩ := h
  cases hpair
  exact ⟨hkey, by rw [Transaction.sigBytes, hsig, Option.bind_some, hdec]⟩

/-- The transaction was verified in full when its key was cached. -/
structure Cached (E : Env) (c : Transaction) (pubKey : Text) (sigBytes : List UInt8) : Prop where
  regular : ¬ c.isSystem = true
  presented : presented E c = .ok (pubKey, sigBytes)
  owner : checkOwner E c pubKey sigBytes = .ok ()

/-- Every cached key was put there by a verified transaction of the history. -/
def KeysFrom (E : Env) (history : List Transaction) (cache : SignatureCache) : Prop :=
  ∀ k ∈ cache.keys, ∃ c ∈ history, ∃ pubKey sigBytes, Cached E c pubKey sigBytes ∧
    cacheKey E c pubKey sigBytes = k

theorem keysFrom_verifyCached {history : List Transaction} {cache : SignatureCache} (h : KeysFrom E history cache)
    {tx : Transaction} (htx : tx ∈ history) : KeysFrom E history (verifyCached E cache tx).1 := by
  unfold verifyCached
  by_cases hsys : tx.isSystem = true
  · rw [if_pos hsys]
    exact h
  rw [if_neg hsys]
  cases hp : presented E tx with
  | error e => exact h
  | ok p =>
    dsimp only
    split_ifs with hkey
    · intro k hk
      rcases List.mem_cons.mp hk with rfl | hk
      · exact h _ (List.contains_iff_mem.mp hkey)
      · exact h k (List.mem_of_mem_erase hk)
    · cases hown : checkOwner E tx p.1 p.2 with
      | error e => exact h
      | ok u =>
        intro k hk
        rcases List.mem_cons.mp (List.mem_of_mem_take hk) with rfl | hk
        · exact ⟨tx, htx, p.1, p.2, ⟨hsys, hp, hown⟩, rfl⟩
        · exact h k (List.mem_of_mem_erase hk)

theorem keysFrom_foldl : ∀ (todo history : List Transaction) {cache : SignatureCache}, KeysFrom E history cache →
    (∀ tx ∈ todo, tx ∈ history) →
    KeysFrom E history (todo.foldl (fun cache tx => (verifyCached E cache tx).1) cache)
  | [], _, _, h, _ => h
  | tx :: todo, history, cache, h, hsub => by
    simp only [List.forall_mem_cons] at hsub
    exact keysFrom_foldl todo history (keysFrom_verifyCached h hsub.1) hsub.2

theorem warm_keys (capacity : ℕ) (history : List Transaction) : KeysFrom E history (warm E capacity history) :=
  keysFrom_foldl history history (fun _ hk => by cases hk) fun _ htx => htx

/-! ### When the cache shows -/

/-- `c` was verified, is still cached, and answers for `tx`, which names another sender. -/
structure Shadows (E : Env) (cache : SignatureCache) (c tx : Transaction) : Prop where
  regular : ¬ tx.isSystem = true
  cached : ∃ pubKey sigBytes, presented E tx = .ok (pubKey, sigBytes) ∧
    cacheKey E tx pubKey sigBytes ∈ cache.keys
  verifiedRegular : ¬ c.isSystem = true
  verified : verifyTransactionSignature E c = .ok ()
  id : getTxId E c = getTxId E tx
  pubKey : c.pubKey = tx.pubKey
  signature : c.sigBytes = tx.sigBytes
  sender : c.sender ≠ tx.sender

/-- What the cache hashes of transactions: their signatures and their public keys' texts. -/
def digested (txs : List Transaction) : List (List UInt8) :=
  txs.flatMap fun tx => tx.sigBytes.toList ++ (tx.pubKey.map utf8).toList

theorem mem_digested {txs : List Transaction} {tx : Transaction} (htx : tx ∈ txs) {pubKey : Text}
    {sigBytes : List UInt8} (hkey : tx.pubKey = some pubKey) (hsig : tx.sigBytes = some sigBytes) :
    sigBytes ∈ digested txs ∧ utf8 pubKey ∈ digested txs := by
  constructor
  · exact List.mem_flatMap.mpr ⟨tx, htx, by simp [hsig]⟩
  · exact List.mem_flatMap.mpr ⟨tx, htx, by simp [hkey]⟩

/-- A miss depends on the id, the key, the signature and the sender alone. -/
theorem checkOwner_congr {c tx : Transaction} (hid : getTxId E c = getTxId E tx) (hsender : c.sender = tx.sender)
    (pubKey : Text) (sigBytes : List UInt8) : checkOwner E c pubKey sigBytes = checkOwner E tx pubKey sigBytes := by
  have hmessage : getMessage E c = getMessage E tx := by rw [getMessage, getMessage, hid]
  simp only [checkOwner, hmessage, hsender]

theorem checkOwner_sender {c tx : Transaction} {pubKey : Text} {sigBytes sigBytes' : List UInt8}
    (hc : checkOwner E c pubKey sigBytes = .ok ()) (hne : c.sender ≠ tx.sender) :
    checkOwner E tx pubKey sigBytes' ≠ .ok () := by
  intro htx
  simp only [checkOwner, bind_eq_ok, need_eq_ok, ensure_eq_ok] at hc htx
  obtain ⟨bytes, hdec, -, -, hown⟩ := hc
  obtain ⟨bytes', hdec', -, -, hown'⟩ := htx
  rw [hdec] at hdec'
  cases hdec'
  exact hne (hown.symm.trans hown')

theorem verified_parts {c : Transaction} (hreg : ¬ c.isSystem = true)
    (hv : verifyTransactionSignature E c = .ok ()) :
    ∃ pubKey sigBytes, presented E c = .ok (pubKey, sigBytes) ∧ checkOwner E c pubKey sigBytes = .ok () := by
  rw [verifyTransactionSignature_eq hreg, bind_eq_ok] at hv
  obtain ⟨⟨pubKey, sigBytes⟩, hp, hown⟩ := hv
  exact ⟨pubKey, sigBytes, hp, hown⟩

/-- A shadowed transaction passes warm and fails cold. -/
theorem Shadows.disagree {cache : SignatureCache} {c tx : Transaction} (h : Shadows E cache c tx) (capacity : ℕ) :
    (verifyCached E cache tx).2 ≠ (verifyCached E (.empty capacity) tx).2 := by
  obtain ⟨pubKey, sigBytes, hp, hkey⟩ := h.cached
  obtain ⟨pubKey', sigBytes', hp', hown⟩ := verified_parts h.verifiedRegular h.verified
  have hsame : pubKey' = pubKey := by
    have := (presented_eq_ok hp').1
    rw [h.pubKey, (presented_eq_ok hp).1] at this
    exact (Option.some.inj this).symm
  subst hsame
  rw [verifyCached_hit h.regular hp hkey, verifyCached_cold, verifyTransactionSignature_eq h.regular, hp, ok_bind]
  exact (checkOwner_sender hown h.sender).symm

/-- **The cache is invisible** exactly when no cached transaction answers for one with another
sender: the verdict with any history's cache is then the verdict with none. SHA-256 is assumed to
tell apart the signatures and public keys that are involved. -/
theorem cache_invisible_iff (capacity : ℕ) (history : List Transaction) (tx : Transaction)
    (hsha : ∀ a ∈ digested (tx :: history), ∀ b ∈ digested (tx :: history),
      signatureHashHex E a = signatureHashHex E b → a = b) :
    (verifyCached E (warm E capacity history) tx).2 = (verifyCached E (.empty capacity) tx).2 ↔
      ∀ c ∈ history, ¬ Shadows E (warm E capacity history) c tx := by
  constructor
  · intro hsame c _ hshadow
    exact hshadow.disagree capacity hsame
  · intro hnone
    by_cases hsys : tx.isSystem = true
    · simp only [verifyCached, hsys, if_true]
    rw [verifyCached_cold]
    by_cases hhit : ∃ pubKey sigBytes, presented E tx = .ok (pubKey, sigBytes) ∧
        cacheKey E tx pubKey sigBytes ∈ (warm E capacity history).keys
    · obtain ⟨pubKey, sigBytes, hp, hkey⟩ := hhit
      obtain ⟨c, hc, pubKey', sigBytes', hcached, heq⟩ := warm_keys capacity history _ hkey
      obtain ⟨hid, hdigest, hhash⟩ := cacheKey_inj heq
      obtain ⟨htxKey, htxSig⟩ := presented_eq_ok hp
      obtain ⟨hcKey, hcSig⟩ := presented_eq_ok hcached.presented
      have hin := mem_digested (List.mem_cons_self (a := tx) (l := history)) htxKey htxSig
      have hin' := mem_digested (List.mem_cons_of_mem tx hc) hcKey hcSig
      have hkeys : pubKey' = pubKey := utf8_injective (hsha _ hin'.2 _ hin.2 hdigest)
      have hsigs : sigBytes' = sigBytes := hsha _ hin'.1 _ hin.1 hhash
      subst hkeys hsigs
      have hsender : c.sender = tx.sender := by
        by_contra hne
        refine hnone c hc ⟨hsys, ⟨_, _, hp, hkey⟩, hcached.regular, ?_, hid, ?_, ?_, hne⟩
        · rw [verifyTransactionSignature_eq hcached.regular, hcached.presented, ok_bind]
          exact hcached.owner
        · rw [hcKey, htxKey]
        · rw [hcSig, htxSig]
      rw [verifyCached_hit hsys hp hkey, verifyTransactionSignature_eq hsys, hp, ok_bind,
        ← checkOwner_congr hid hsender]
      exact hcached.owner.symm
    · refine verifyCached_miss fun pubKey sigBytes hp hkey => ?_
      exact hhit ⟨pubKey, sigBytes, hp, hkey⟩

namespace CacheSample

/-- A transfer to an address with a colon in it. -/
def genuine : Transaction := toyTransfer [1, 2] ['x', ':', 'y'] 5 7

/-- The same id read with the colon one field later. -/
def shifted : Transaction := { genuine with sender := genuine.sender ++ [':', 'x'], recipient := ['y'] }

end CacheSample

open CacheSample in
/-- A node that has verified the genuine transfer accepts the shifted one; any other rejects it. -/
theorem shifted_sender_passes_warm :
    ¬ ∀ (capacity : ℕ) (history : List Transaction) (tx : Transaction),
      (∀ a ∈ digested (tx :: history), ∀ b ∈ digested (tx :: history),
        signatureHashHex toyEnv a = signatureHashHex toyEnv b → a = b) →
      (verifyCached toyEnv (warm toyEnv capacity history) tx).2 = (verifyCached toyEnv (.empty capacity) tx).2 := by
  intro h
  have hsha : ∀ a ∈ digested (shifted :: [genuine]), ∀ b ∈ digested (shifted :: [genuine]),
      signatureHashHex toyEnv a = signatureHashHex toyEnv b → a = b := by decide +kernel
  have hwarm : (verifyCached toyEnv (warm toyEnv 10 [genuine]) shifted).2.isOk = true := by decide +kernel
  have hcold : (verifyCached toyEnv (.empty 10) shifted).2.isOk = false := by decide +kernel
  rw [h 10 [genuine] shifted hsha, hcold] at hwarm
  cases hwarm

open CacheSample in
/-- A transaction that is verified twice gets one answer. -/
theorem genuine_transfer_invisible :
    genuine.isSystem = false ∧
      (verifyCached toyEnv (warm toyEnv 10 [genuine]) genuine).2 = (verifyCached toyEnv (.empty 10) genuine).2 := by
  refine ⟨by decide +kernel, (cache_invisible_iff 10 [genuine] genuine (by decide +kernel)).mpr ?_⟩
  intro c hc hshadow
  rw [List.mem_singleton.mp hc] at hshadow
  exact hshadow.sender rfl

end Alphanumeric
