/-
# The header sentinel's quorum

`src/a9/bpos.rs`: which keys verify headers, which headers they have verified, and when a
header that conflicts with a block counts as verified. The calls are taken one after the other.
Signatures and serialisation are parameters. The iteration order of the two maps decides ties
of age only, and comes with each call as a ranking. `reports` and `recorded` are ghosts: whose
signed headers were accepted, from which source IP, and which headers went into the queue.

Key definitions: `HeaderSentinel`, `registerPeerMldsaKey`, `verifyHeadersBatch`, `verifyAndAddHeader`,
`addVerifiedHeader`, `isHeaderVerified`, `hasConflictingVerifiedHeader`, `HeaderSentinel.Traced`.
Key theorems: `keys_length_cut`, `HeaderSentinel.bounded_next`, `capped_iff`,
`HeaderSentinel.Traced.next`, `conflict_reported`, `header_quorum`.
-/
import Alphanumeric.Types
import Alphanumeric.Lib.Trace
import Mathlib

namespace Alphanumeric

def maxPeerMldsaKeys : ℕ := 4096
def maxMldsaKeysPerIp : ℕ := 2
def maxVerifications : ℕ := 8192
def verificationTrimTarget : ℕ := maxVerifications * 7 / 8
def maxHeaderSyncBatch : ℕ := 1000
def headerMaxFutureSeconds : ℕ := 600
def maxSentinelHeaders : ℕ := 10000

inductive IpAddr where
  | v4 (address : Fin (2 ^ 32))
  | v6 (address : Fin (2 ^ 128))
deriving DecidableEq

structure BlockHeaderInfo where
  height : ℕ
  hash : Hash
  prevHash : Hash
  timestamp : ℕ
deriving DecidableEq

structure HeaderState where
  header : BlockHeaderInfo
  timestamp : ℕ
  verificationCount : ℕ
  verifiedBy : Finset Text

structure VerificationState where
  timestamp : ℕ
  verifiers : Finset Text

structure RegisteredKey where
  mldsaPublicKey : List UInt8
  sourceIp : IpAddr
  lastSeen : ℕ

/-- A header that `node`, registered from `ip`, has signed and that was recorded. -/
structure HeaderReport where
  node : Text
  ip : IpAddr
  header : BlockHeaderInfo
deriving DecidableEq

structure HeaderSentinel where
  headers : List HeaderState
  verifications : AList fun _ : Hash => VerificationState
  peerMldsaKeys : AList fun _ : Text => RegisteredKey
  participatingNodes : Finset Text
  reports : List HeaderReport
  recorded : List BlockHeaderInfo

/-- What is not this module's own: serialisation, signatures and texts. -/
structure HeaderCrypto where
  serializeHeaders : List BlockHeaderInfo → Except Text (List UInt8)
  serializeHeader : BlockHeaderInfo → Except Text (List UInt8)
  hexError : Text → Text
  ipText : IpAddr → Text
  bindingPayload : Text → List UInt8 → List UInt8
  validatePublicKey : List UInt8 → Except Text Unit
  /-- Of a public key, a payload and a signature. -/
  ed25519Verify : List UInt8 → List UInt8 → List UInt8 → Bool
  /-- Of a payload, a signature and a public key. -/
  mldsaVerify : List UInt8 → List UInt8 → List UInt8 → Bool

/-! ### A map loses keys -/

/-- `remove`, key by key. -/
def cut {κ α : Type} [DecidableEq κ] (m : AList fun _ : κ => α) (ks : List κ) : AList fun _ : κ => α :=
  ks.foldl (fun m k => m.erase k) m

/-- `retain`. -/
def retain {κ α : Type} [DecidableEq κ] (m : AList fun _ : κ => α) (p : κ → α → Bool) : AList fun _ : κ => α :=
  cut m ((m.entries.filter fun e => !p e.1 e.2).map Sigma.fst)

/-- The key of the entry with the least value; of several, the first in the iteration order. -/
def minByKey {κ α : Type} (m : AList fun _ : κ => α) (value : α → ℕ) (rank : κ → ℕ) : Option κ :=
  (m.entries.argmin fun e => toLex (value e.2, rank e.1)).map Sigma.fst

section Cut

variable {κ α : Type}

theorem minByKey_mem {m : AList fun _ : κ => α} {value : α → ℕ} {rank : κ → ℕ} {k : κ}
    (h : minByKey m value rank = some k) : k ∈ m.keys := by
  unfold minByKey at h
  obtain ⟨e, he, rfl⟩ := Option.map_eq_some_iff.mp h
  exact List.mem_map_of_mem (List.argmin_mem he)

theorem minByKey_isSome {m : AList fun _ : κ => α} (value : α → ℕ) (rank : κ → ℕ) (h : 0 < m.keys.length) :
    ∃ k, minByKey m value rank = some k := by
  cases hmin : minByKey m value rank with
  | some k => exact ⟨k, rfl⟩
  | none =>
    unfold minByKey at hmin
    rw [Option.map_eq_none_iff, List.argmin_eq_none] at hmin
    unfold AList.keys List.keys at h
    rw [hmin] at h
    exact absurd h (lt_irrefl 0)

variable [DecidableEq κ]

theorem lookup_cut {m : AList fun _ : κ => α} {ks : List κ} {k : κ} {a : α} (h : (cut m ks).lookup k = some a) :
    m.lookup k = some a := by
  induction ks generalizing m with
  | nil => exact h
  | cons x ks ih =>
    have hx : (m.erase x).lookup k = some a := ih h
    by_cases hk : k = x
    · rw [hk, AList.lookup_erase] at hx
      cases hx
    · rwa [AList.lookup_erase_ne hk] at hx

theorem keys_length_erase {m : AList fun _ : κ => α} {k : κ} (h : k ∈ m.keys) :
    (m.erase k).keys.length + 1 = m.keys.length := by
  have hpos := List.length_pos_of_mem h
  rw [AList.keys_erase, List.length_erase_of_mem h]
  omega

/-- As many entries go as keys are removed. -/
theorem keys_length_cut {m : AList fun _ : κ => α} {ks : List κ} (hnd : ks.Nodup) (hmem : ∀ k ∈ ks, k ∈ m.keys) :
    (cut m ks).keys.length + ks.length = m.keys.length := by
  induction ks generalizing m with
  | nil => rfl
  | cons x ks ih =>
    obtain ⟨hx, hnd⟩ := List.nodup_cons.mp hnd
    obtain ⟨hxm, hmem⟩ := List.forall_mem_cons.mp hmem
    have hrest : ∀ k ∈ ks, k ∈ (m.erase x).keys := by
      intro k hk
      have hne : k ≠ x := fun heq => hx (heq.symm ▸ hk)
      rw [AList.keys_erase, List.mem_erase_of_ne hne]
      exact hmem k hk
    have hlen := keys_length_erase hxm
    have hcut : (cut (m.erase x) ks).keys.length + ks.length = (m.erase x).keys.length := ih hnd hrest
    rw [List.length_cons]
    change (cut (m.erase x) ks).keys.length + (ks.length + 1) = m.keys.length
    omega

theorem keys_length_cut_le (m : AList fun _ : κ => α) (ks : List κ) : (cut m ks).keys.length ≤ m.keys.length := by
  induction ks generalizing m with
  | nil => exact le_rfl
  | cons x ks ih =>
    refine (ih (m.erase x)).trans ?_
    rw [AList.keys_erase]
    exact List.length_erase_le

/-- The other entries, and the one under a key. -/
theorem countP_erase {m : AList fun _ : κ => α} {k : κ} {a : α} (p : (Σ _ : κ, α) → Bool) (h : m.lookup k = some a) :
    (m.erase k).entries.countP p + (if p ⟨k, a⟩ then 1 else 0) = m.entries.countP p := by
  have hlist : ∀ l : List (Σ _ : κ, α), l.dlookup k = some a →
      (l.kerase k).countP p + (if p ⟨k, a⟩ then 1 else 0) = l.countP p := by
    intro l
    induction l with
    | nil =>
      intro hk
      cases hk
    | cons e l ih =>
      obtain ⟨x, b⟩ := e
      intro hk
      by_cases hx : k = x
      · subst hx
        rw [List.dlookup_cons_eq (β := fun _ : κ => α), Option.some_inj] at hk
        subst hk
        rw [List.kerase_cons_eq (β := fun _ : κ => α) (a := k) (s := ⟨k, b⟩) rfl, List.countP_cons]
      · rw [List.dlookup_cons_ne (β := fun _ : κ => α) l ⟨x, b⟩ hx] at hk
        rw [List.kerase_cons_ne (β := fun _ : κ => α) hx, List.countP_cons, List.countP_cons, ← ih hk]
        omega
  exact hlist m.entries h

theorem countP_insert (m : AList fun _ : κ => α) (k : κ) (a : α) (p : (Σ _ : κ, α) → Bool) :
    (m.insert k a).entries.countP p = (m.erase k).entries.countP p + if p ⟨k, a⟩ then 1 else 0 := by
  rw [AList.entries_insert, List.countP_cons]
  rfl

theorem countP_erase_le (m : AList fun _ : κ => α) (k : κ) (p : (Σ _ : κ, α) → Bool) :
    (m.erase k).entries.countP p ≤ m.entries.countP p :=
  (List.kerase_sublist k m.entries).countP_le

theorem keys_length_insert_le (m : AList fun _ : κ => α) (k : κ) (a : α) :
    (m.insert k a).keys.length ≤ m.keys.length + 1 := by
  rw [AList.keys_insert, List.length_cons]
  exact Nat.succ_le_succ List.length_erase_le

theorem keys_length_insert_of_mem {m : AList fun _ : κ => α} {k : κ} (h : k ∈ m) (a : α) :
    (m.insert k a).keys.length = m.keys.length := by
  have hmem : k ∈ m.keys := AList.mem_keys.mp h
  rw [AList.keys_insert, List.length_cons, List.length_erase_of_mem hmem]
  exact Nat.succ_pred_eq_of_pos (List.length_pos_of_mem hmem)

end Cut

/-! ### The sentinel -/

def localVerifierId : Text := "__local__".toList

namespace HeaderSentinel

def new : HeaderSentinel := ⟨[], ∅, ∅, ∅, [], []⟩

/-- The keys that are registered from an IP. -/
def keysOfIp (keys : AList fun _ : Text => RegisteredKey) (ip : IpAddr) : ℕ :=
  keys.entries.countP fun e => decide (e.2.sourceIp = ip)

/-- The checks of `register_peer_mldsa_key` that come before the registration gate. -/
def checkAttestation (C : HeaderCrypto) (nodeId : Text) (mldsaPublicKey ed25519Signature : List UInt8) :
    Except Text Unit :=
  if nodeId.all isWhitespace then .error "Node ID is empty".toList
  else if ed25519Signature = [] then .error "Missing Ed25519 attestation signature".toList
  else
    match hexDecode nodeId with
    | none => .error ("Node ID must be Ed25519 public key hex: ".toList ++ C.hexError nodeId)
    | some edPub =>
      if edPub.length ≠ 32 then .error "Invalid Ed25519 public key length in node_id".toList
      else
        match C.validatePublicKey mldsaPublicKey with
        | .error e => .error e
        | .ok _ =>
          if C.ed25519Verify edPub (C.bindingPayload nodeId mldsaPublicKey) ed25519Signature then .ok ()
          else .error "Invalid Ed25519 attestation signature".toList

def registerPeerMldsaKey (C : HeaderCrypto) (s : HeaderSentinel) (nodeId : Text)
    (mldsaPublicKey ed25519Signature : List UInt8) (sourceIp : IpAddr) (now : ℕ) (rank : Text → ℕ) :
    Except Text Unit × HeaderSentinel :=
  match checkAttestation C nodeId mldsaPublicKey ed25519Signature with
  | .error e => (.error e, s)
  | .ok _ =>
    let key : RegisteredKey := ⟨mldsaPublicKey, sourceIp, now⟩
    if nodeId ∈ s.peerMldsaKeys then
      -- a rotation, or the same key again; the source IP is the new one in any case
      (.ok (), { s with peerMldsaKeys := s.peerMldsaKeys.insert nodeId key })
    else if maxMldsaKeysPerIp ≤ keysOfIp s.peerMldsaKeys sourceIp then
      (.error ("Too many ML-DSA registrations from ".toList ++ C.ipText sourceIp), s)
    else
      let room :=
        if maxPeerMldsaKeys ≤ s.peerMldsaKeys.keys.length then
          match minByKey s.peerMldsaKeys RegisteredKey.lastSeen rank with
          | some oldest => s.peerMldsaKeys.erase oldest
          | none => s.peerMldsaKeys
        else s.peerMldsaKeys
      (.ok (), { s with peerMldsaKeys := room.insert nodeId key })

def registeredVerifierIpCount (s : HeaderSentinel) : ℕ :=
  (s.peerMldsaKeys.entries.map fun e => e.2.sourceIp).dedup.length

/-- The source IPs of a header's external verifiers whose keys are still registered. -/
def verifierIps (s : HeaderSentinel) (verifiers : Finset Text) : Finset IpAddr :=
  ((verifiers.erase localVerifierId).image fun id => (s.peerMldsaKeys.lookup id).map RegisteredKey.sourceIp).eraseNone

def distinctVerifierIpCount (s : HeaderSentinel) (verifiers : Finset Text) : ℕ := (s.verifierIps verifiers).card

def externalVerifierCount (verifiers : Finset Text) : ℕ := (verifiers.erase localVerifierId).card

def verifySignatureWithRegisteredNodeKey (C : HeaderCrypto) (s : HeaderSentinel) (payload : List UInt8)
    (nodeId : Text) (signature : List UInt8) (now : ℕ) : Except Text Bool × HeaderSentinel :=
  if signature = [] then (.ok false, s)
  else
    match s.peerMldsaKeys.lookup nodeId with
    | none => (.error ("No ML-DSA key registered for node ".toList ++ nodeId), s)
    | some key =>
      (.ok (C.mldsaVerify payload signature key.mldsaPublicKey),
        { s with peerMldsaKeys := s.peerMldsaKeys.insert nodeId { key with lastSeen := now } })

/-- The oldest entries make room for `incoming` new ones. -/
def trimVerifications (s : HeaderSentinel) (incoming : ℕ) (rank : Hash → ℕ) : HeaderSentinel :=
  if s.verifications.keys.length + incoming ≤ maxVerifications then s
  else
    let target := min verificationTrimTarget (maxVerifications - incoming)
    let aged := s.verifications.entries.insertionSort fun a b =>
      toLex (a.2.timestamp, rank a.1) ≤ toLex (b.2.timestamp, rank b.1)
    { s with verifications := cut s.verifications ((aged.take (aged.length - target)).map Sigma.fst) }

def evictOldestVerificationIfFull (s : HeaderSentinel) (hash : Hash) (rank : Hash → ℕ) : HeaderSentinel :=
  if hash ∈ s.verifications then s else s.trimVerifications 1 rank

/-- `entry(hash).or_insert_with(..)`, and the verifier is inserted. -/
def addVerifier (s : HeaderSentinel) (hash : Hash) (id : Text) (now : ℕ) : HeaderSentinel :=
  let v := (s.verifications.lookup hash).getD ⟨now, ∅⟩
  { s with verifications := s.verifications.insert hash { v with verifiers := insert id v.verifiers } }

def verifiersOf (s : HeaderSentinel) (hash : Hash) : Finset Text :=
  ((s.verifications.lookup hash).map VerificationState.verifiers).getD ∅

/-- A header joins the queue. -/
def pushHeader (s : HeaderSentinel) (header : BlockHeaderInfo) (now count : ℕ) (verifiedBy : Finset Text) :
    HeaderSentinel :=
  { s with
    headers := s.headers ++ [⟨header, now, count, verifiedBy⟩]
    recorded := header :: s.recorded }

/-- The ghost of an accepted header. -/
def report (s : HeaderSentinel) (nodeId : Text) (header : BlockHeaderInfo) : HeaderSentinel :=
  match s.peerMldsaKeys.lookup nodeId with
  | some key => { s with reports := ⟨nodeId, key.sourceIp, header⟩ :: s.reports }
  | none => s

/-! #### A batch -/

/-- Height and timestamp of the header with a hash: the last one in the queue. -/
def existingHeader (headers : List HeaderState) (hash : Hash) : Option (ℕ × ℕ) :=
  (headers.reverse.find? fun st => decide (st.header.hash = hash)).map fun st =>
    (st.header.height, st.header.timestamp)

/-- A header links to the one before it: the height goes up by one, as far as a `u32` goes. -/
def linked (header : BlockHeaderInfo) (prev : Option (ℕ × ℕ)) : Bool :=
  match prev with
  | none => false
  | some (height, timestamp) =>
    decide (header.height = min (height + 1) (2 ^ 32 - 1)) && decide (timestamp < header.timestamp)

/-- A header in the verification cache passes without a check. -/
def accepts (s : HeaderSentinel) (existing : Hash → Option (ℕ × ℕ)) (now : ℕ) (verified : List BlockHeaderInfo)
    (header : BlockHeaderInfo) : Bool :=
  decide (header.hash ∈ s.verifications) ||
    decide (header.timestamp ≤ now + headerMaxFutureSeconds) &&
      (decide (header.height = 0) ||
        linked header (((verified.find? fun h => decide (h.hash = header.prevHash)).map fun h =>
          (h.height, h.timestamp)).or (existing header.prevHash)))

def verifiedOf (s : HeaderSentinel) (existing : Hash → Option (ℕ × ℕ)) (now : ℕ) (chunk : List BlockHeaderInfo) :
    List BlockHeaderInfo :=
  chunk.foldl (fun verified header =>
    if s.accepts existing now verified header then verified ++ [header] else verified) []

/-- One verified header of a batch: its verifier, and its place in the queue. -/
def recordVerified (nodeId : Text) (now : ℕ) (r : ℕ × HeaderSentinel) (header : BlockHeaderInfo) : ℕ × HeaderSentinel :=
  let isNew := decide (nodeId ∉ r.2.verifiersOf header.hash)
  let s := (r.2.addVerifier header.hash nodeId now).report nodeId header
  let pushed := s.pushHeader header now (s.verifiersOf header.hash).card (s.verifiersOf header.hash)
  (if isNew then r.1 + 1 else r.1,
    { pushed with headers := if 1000 < pushed.headers.length then pushed.headers.tail else pushed.headers })

def verifyChunk (nodeId : Text) (existing : Hash → Option (ℕ × ℕ)) (now : ℕ) (rank : Hash → ℕ)
    (r : ℕ × HeaderSentinel) (chunk : List BlockHeaderInfo) : ℕ × HeaderSentinel :=
  let verified := r.2.verifiedOf existing now chunk
  if verified = [] then r
  else verified.foldl (recordVerified nodeId now) (r.1, r.2.trimVerifications verified.length rank)

/-- `chunks(200)`; the first argument is at least the length. -/
def chunks {α : Type} : ℕ → List α → List (List α)
  | _, [] => []
  | 0, _ => []
  | k + 1, x :: xs => (x :: xs).take 200 :: chunks k ((x :: xs).drop 200)

def verifyHeadersBatch (C : HeaderCrypto) (s : HeaderSentinel) (headers : List BlockHeaderInfo) (nodeId : Text)
    (signature : List UInt8) (now : ℕ) (rank : Hash → ℕ) : Except Text ℕ × HeaderSentinel :=
  if maxHeaderSyncBatch < headers.length then
    (.error ("Header batch too large: ".toList ++ Nat.toDigits 10 headers.length ++ " > ".toList ++
      Nat.toDigits 10 maxHeaderSyncBatch), s)
  else
    match C.serializeHeaders headers with
    | .error e => (.error ("Headers serialization error: ".toList ++ e), s)
    | .ok payload =>
      match s.verifySignatureWithRegisteredNodeKey C payload nodeId signature now with
      | (.error e, s) => (.error e, s)
      | (.ok false, s) => (.error "Header batch signature verification failed".toList, s)
      | (.ok true, s) =>
        let r := (chunks headers.length headers).foldl (verifyChunk nodeId (existingHeader s.headers) now rank) (0, s)
        (.ok r.1, r.2)

/-! #### A single header -/

def checkHeader (s : HeaderSentinel) (header : BlockHeaderInfo) (now : ℕ) : Except Text Unit :=
  if now + headerMaxFutureSeconds < header.timestamp then .error "Header timestamp too far in the future".toList
  else if header.height = 0 then .ok ()
  else
    match existingHeader s.headers header.prevHash with
    | none => .error "Header previous hash not found".toList
    | some (height, timestamp) =>
      if header.height ≠ min (height + 1) (2 ^ 32 - 1) then .error "Header height continuity check failed".toList
      else if header.timestamp ≤ timestamp then .error "Header timestamp continuity check failed".toList
      else .ok ()

def verifyAndAddHeader (C : HeaderCrypto) (s : HeaderSentinel) (header : BlockHeaderInfo) (nodeId : Text)
    (signature : List UInt8) (now : ℕ) (rank : Hash → ℕ) : Except Text Bool × HeaderSentinel :=
  match C.serializeHeader header with
  | .error e => (.error ("Serialization error: ".toList ++ e), s)
  | .ok payload =>
    match s.verifySignatureWithRegisteredNodeKey C payload nodeId signature now with
    | (.error e, s) => (.error e, s)
    | (.ok false, s) => (.error "Header signature verification failed".toList, s)
    | (.ok true, s) =>
      match s.checkHeader header now with
      | .error e => (.error e, s)
      | .ok _ =>
        let s := ((s.evictOldestVerificationIfFull header.hash rank).addVerifier header.hash nodeId now).report
          nodeId header
        let s := { s with headers := if 1000 ≤ s.headers.length then s.headers.tail else s.headers }
        (.ok true, s.pushHeader header now (s.verifiersOf header.hash).card (s.verifiersOf header.hash))

/-! #### A local header -/

def manageHeaderCache (s : HeaderSentinel) (now : ℕ) : HeaderSentinel :=
  let headers := s.headers.filter fun st => decide (now - st.timestamp < 24 * 3600)
  let verifications := retain s.verifications fun _ v => decide (now - v.timestamp < 24 * 3600)
  { s with
    headers := headers.drop (headers.length - maxSentinelHeaders)
    verifications := verifications
    participatingNodes := s.participatingNodes.filter fun node =>
      verifications.entries.any fun e => decide (node ∈ e.2.verifiers) }

/-- `add_verified_header`; it credits the local verifier and the participating nodes. -/
def addVerifiedHeader (s : HeaderSentinel) (header : BlockHeaderInfo) (now : ℕ) (rank : Hash → ℕ) : HeaderSentinel :=
  let s := if maxSentinelHeaders ≤ s.headers.length then s.manageHeaderCache now else s
  let s := s.pushHeader header now 1 {localVerifierId}
  let s := (s.evictOldestVerificationIfFull header.hash rank).addVerifier header.hash localVerifierId now
  let v := (s.verifications.lookup header.hash).getD ⟨now, ∅⟩
  let credited := v.verifiers ∪ s.participatingNodes
  let s := { s with verifications := s.verifications.insert header.hash { v with verifiers := credited } }
  { s with
    headers := s.headers.modify (s.headers.length - 1) fun st =>
      if st.header.hash = header.hash then
        { st with verificationCount := externalVerifierCount credited, verifiedBy := credited }
      else st }

/-! #### The quorum -/

/-- 67 % of the eligible, rounded up. -/
def requiredVerifierCount (eligible : ℕ) : ℕ :=
  let eligible := max eligible 1
  min (max ((eligible * 670000 + 999999) / 1000000) 1) eligible

def eligibleVerifierCount (s : HeaderSentinel) : ℕ :=
  max (max s.participatingNodes.card s.registeredVerifierIpCount) 1

def isHeaderVerified (s : HeaderSentinel) (hash : Hash) : Bool :=
  match s.verifications.lookup hash with
  | none => false
  | some v => decide (requiredVerifierCount s.eligibleVerifierCount ≤ s.distinctVerifierIpCount v.verifiers)

def hasConflictingVerifiedHeader (s : HeaderSentinel) (height : ℕ) (expectedHash : Hash) : Bool :=
  (s.headers.filter fun st => decide (st.header.height = height) && decide (st.header.hash ≠ expectedHash)).any
    fun st => s.isHeaderVerified st.header.hash

/-! ### The calls, one after the other -/

inductive Event where
  | register (nodeId : Text) (mldsaPublicKey ed25519Signature : List UInt8) (sourceIp : IpAddr) (now : ℕ)
    (rank : Text → ℕ)
  | batch (headers : List BlockHeaderInfo) (nodeId : Text) (signature : List UInt8) (now : ℕ) (rank : Hash → ℕ)
  | single (header : BlockHeaderInfo) (nodeId : Text) (signature : List UInt8) (now : ℕ) (rank : Hash → ℕ)
  | addLocal (header : BlockHeaderInfo) (now : ℕ) (rank : Hash → ℕ)
  | manage (now : ℕ)
  | trim (rank : Hash → ℕ)

def next (C : HeaderCrypto) (s : HeaderSentinel) : Event → HeaderSentinel
  | .register nodeId key signature ip now rank => (s.registerPeerMldsaKey C nodeId key signature ip now rank).2
  | .batch headers nodeId signature now rank => (s.verifyHeadersBatch C headers nodeId signature now rank).2
  | .single header nodeId signature now rank => (s.verifyAndAddHeader C header nodeId signature now rank).2
  | .addLocal header now rank => s.addVerifiedHeader header now rank
  | .manage now => s.manageHeaderCache now
  | .trim rank => s.trimVerifications 1 rank

/-- No IP has more keys than it may. -/
def Capped (s : HeaderSentinel) : Prop := ∀ ip, keysOfIp s.peerMldsaKeys ip ≤ maxMldsaKeysPerIp

/-- A key that is registered anew finds room at its source IP. -/
def roomy (C : HeaderCrypto) (s : HeaderSentinel) : Event → Bool
  | .register nodeId key signature ip _ _ =>
    !(checkAttestation C nodeId key signature).isOk || decide (nodeId ∉ s.peerMldsaKeys) ||
      decide (keysOfIp (s.peerMldsaKeys.erase nodeId) ip < maxMldsaKeysPerIp)
  | _ => true

/-- A key that is registered has reported what it is a verifier of from this source IP. -/
def staysPut (C : HeaderCrypto) (s : HeaderSentinel) : Event → Bool
  | .register nodeId key signature ip _ _ =>
    !(checkAttestation C nodeId key signature).isOk ||
      s.verifications.entries.all fun e => decide (nodeId ∉ e.2.verifiers) ||
        s.reports.any fun r => decide (r.node = nodeId ∧ r.ip = ip ∧ r.header.hash = e.1)
  | _ => true

/-- The IPs whose signed headers had this height and this hash. -/
def reporterIps (s : HeaderSentinel) (height : ℕ) (hash : Hash) : Finset IpAddr :=
  ((s.reports.filter fun r => decide (r.header.height = height ∧ r.header.hash = hash)).map HeaderReport.ip).toFinset

/-- The recorded headers with one hash have one height. -/
def Agreed (recorded : List BlockHeaderInfo) : Prop := ∀ g ∈ recorded, ∀ h ∈ recorded,
    g.hash = h.hash → g.height = h.height

/-! ### The bounds -/

structure Bounded (s : HeaderSentinel) : Prop where
  keys : s.peerMldsaKeys.keys.length ≤ maxPeerMldsaKeys
  verifications : s.verifications.keys.length ≤ maxVerifications

section Bounds

variable {C : HeaderCrypto} {s : HeaderSentinel}

/-- After a trim there is room. -/
theorem trim_room (s : HeaderSentinel) {incoming : ℕ} (h : incoming ≤ maxVerifications) (rank : Hash → ℕ) :
    (s.trimVerifications incoming rank).verifications.keys.length + incoming ≤ maxVerifications := by
  unfold trimVerifications
  split
  · assumption
  · set target := min verificationTrimTarget (maxVerifications - incoming) with htarget
    dsimp only
    set aged := s.verifications.entries.insertionSort fun a b =>
      toLex (a.2.timestamp, rank a.1) ≤ toLex (b.2.timestamp, rank b.1) with haged
    have hperm : (aged.map Sigma.fst).Perm s.verifications.keys := (List.perm_insertionSort _ _).map _
    have hlen : aged.length = s.verifications.keys.length := by
      rw [← hperm.length_eq, List.length_map]
    have hsub : ((aged.take (aged.length - target)).map Sigma.fst).Sublist (aged.map Sigma.fst) :=
      (List.take_sublist _ _).map _
    have hcut := keys_length_cut (m := s.verifications)
      (hsub.nodup (hperm.nodup_iff.mpr s.verifications.keys_nodup))
      (fun k hk => hperm.mem_iff.mp (hsub.subset hk))
    rw [List.length_map, List.length_take] at hcut
    omega

theorem trim_peerMldsaKeys (s : HeaderSentinel) (incoming : ℕ) (rank : Hash → ℕ) :
    (s.trimVerifications incoming rank).peerMldsaKeys = s.peerMldsaKeys := by
  unfold trimVerifications
  split <;> rfl

theorem trim_verifications_le (s : HeaderSentinel) (incoming : ℕ) (rank : Hash → ℕ) :
    (s.trimVerifications incoming rank).verifications.keys.length ≤ s.verifications.keys.length := by
  unfold trimVerifications
  split
  · exact le_rfl
  · exact keys_length_cut_le _ _

theorem Bounded.trim (h : Bounded s) (incoming : ℕ)
    (rank : Hash → ℕ) : Bounded (s.trimVerifications incoming rank) where
  keys := by
    rw [trim_peerMldsaKeys]
    exact h.keys
  verifications := (trim_verifications_le _ _ _).trans h.verifications

/-- Room for one more header, unless it is in the cache. -/
theorem Bounded.addVerifier_evicted (h : Bounded s) (hash : Hash) (id : Text) (now : ℕ) (rank : Hash → ℕ) :
    Bounded ((s.evictOldestVerificationIfFull hash rank).addVerifier hash id now) := by
  unfold evictOldestVerificationIfFull
  split
  · rename_i hmem
    refine ⟨h.keys, ?_⟩
    unfold addVerifier
    dsimp only
    rw [keys_length_insert_of_mem hmem]
    exact h.verifications
  · refine ⟨(h.trim 1 rank).keys, ?_⟩
    exact (keys_length_insert_le _ _ _).trans (trim_room s (by decide) rank)

theorem Bounded.signature (h : Bounded s) (payload : List UInt8) (nodeId : Text) (signature : List UInt8) (now : ℕ) :
    Bounded (s.verifySignatureWithRegisteredNodeKey C payload nodeId signature now).2 := by
  unfold verifySignatureWithRegisteredNodeKey
  split
  · exact h
  · split
    · exact h
    · rename_i key hkey
      refine ⟨?_, h.verifications⟩
      dsimp only
      rw [keys_length_insert_of_mem (AList.lookup_isSome.mp (by rw [hkey]; rfl))]
      exact h.keys

theorem report_peerMldsaKeys (s : HeaderSentinel) (nodeId : Text) (header : BlockHeaderInfo) :
    (s.report nodeId header).peerMldsaKeys = s.peerMldsaKeys := by
  unfold report
  split <;> rfl

theorem report_verifications (s : HeaderSentinel) (nodeId : Text) (header : BlockHeaderInfo) :
    (s.report nodeId header).verifications = s.verifications := by
  unfold report
  split <;> rfl

theorem recordVerified_peerMldsaKeys (nodeId : Text) (now : ℕ) (r : ℕ × HeaderSentinel) (header : BlockHeaderInfo) :
    (recordVerified nodeId now r header).2.peerMldsaKeys = r.2.peerMldsaKeys :=
  report_peerMldsaKeys (r.2.addVerifier header.hash nodeId now) nodeId header

theorem recordVerified_verifications (nodeId : Text) (now : ℕ) (r : ℕ × HeaderSentinel) (header : BlockHeaderInfo) :
    (recordVerified nodeId now r header).2.verifications = (r.2.addVerifier header.hash nodeId now).verifications :=
  report_verifications (r.2.addVerifier header.hash nodeId now) nodeId header

/-- Every recorded header takes one place at most. -/
theorem recordAll_bound (nodeId : Text) (now : ℕ) :
    ∀ (verified : List BlockHeaderInfo) (r : ℕ × HeaderSentinel),
      (verified.foldl (recordVerified nodeId now) r).2.verifications.keys.length ≤
          r.2.verifications.keys.length + verified.length ∧
        (verified.foldl (recordVerified nodeId now) r).2.peerMldsaKeys = r.2.peerMldsaKeys
  | [], _ => ⟨le_rfl, rfl⟩
  | header :: verified, r => by
    obtain ⟨hlen, hkeys⟩ := recordAll_bound nodeId now verified (recordVerified nodeId now r header)
    rw [recordVerified_verifications] at hlen
    rw [recordVerified_peerMldsaKeys] at hkeys
    have hone : (r.2.addVerifier header.hash nodeId now).verifications.keys.length ≤
        r.2.verifications.keys.length + 1 := keys_length_insert_le _ _ _
    rw [List.foldl_cons, List.length_cons]
    exact ⟨by omega, hkeys⟩

theorem verifiedOf_length (s : HeaderSentinel) (existing : Hash → Option (ℕ × ℕ)) (now : ℕ)
    (chunk : List BlockHeaderInfo) : (s.verifiedOf existing now chunk).length ≤ chunk.length := by
  have hfold : ∀ (chunk verified : List BlockHeaderInfo), (chunk.foldl (fun verified header =>
      if s.accepts existing now verified header then verified ++ [header] else verified) verified).length ≤
        verified.length + chunk.length := by
    intro chunk
    induction chunk with
    | nil => exact fun _ => le_rfl
    | cons header chunk ih =>
      intro verified
      rw [List.foldl_cons, List.length_cons]
      refine (ih _).trans ?_
      split
      · rw [List.length_append, List.length_singleton]
        omega
      · omega
  exact (hfold chunk []).trans_eq (Nat.zero_add _)

theorem chunks_length {α : Type} : ∀ (k : ℕ) (xs : List α), ∀ chunk ∈ chunks k xs, chunk.length ≤ 200
  | 0, [], chunk, h => absurd h List.not_mem_nil
  | _ + 1, [], chunk, h => absurd h List.not_mem_nil
  | 0, _ :: _, chunk, h => absurd h List.not_mem_nil
  | k + 1, x :: xs, chunk, h => by
    rcases List.mem_cons.mp h with rfl | h
    · exact List.length_take_le _ _
    · exact chunks_length k _ chunk h

theorem Bounded.chunk (nodeId : Text) (existing : Hash → Option (ℕ × ℕ)) (now : ℕ) (rank : Hash → ℕ)
    {r : ℕ × HeaderSentinel} {chunk : List BlockHeaderInfo} (h : Bounded r.2) (hchunk : chunk.length ≤ 200) :
    Bounded (verifyChunk nodeId existing now rank r chunk).2 := by
  unfold verifyChunk
  dsimp only
  split
  · exact h
  · have hlen : (r.2.verifiedOf existing now chunk).length ≤ maxVerifications :=
      ((verifiedOf_length _ _ _ _).trans hchunk).trans (by decide)
    obtain ⟨hcount, hkeys⟩ := recordAll_bound nodeId now (r.2.verifiedOf existing now chunk)
      (r.1, r.2.trimVerifications (r.2.verifiedOf existing now chunk).length rank)
    refine ⟨?_, hcount.trans (trim_room r.2 hlen rank)⟩
    rw [hkeys]
    exact (h.trim _ rank).keys

theorem bounded_batch (h : Bounded s) (headers : List BlockHeaderInfo) (nodeId : Text) (signature : List UInt8)
    (now : ℕ) (rank : Hash → ℕ) : Bounded (s.verifyHeadersBatch C headers nodeId signature now rank).2 := by
  unfold verifyHeadersBatch
  split
  · exact h
  · split
    · exact h
    · rename_i payload _
      have hsig := h.signature (C := C) payload nodeId signature now
      split <;> rename_i s' hs' <;> rw [hs'] at hsig
      · exact hsig
      · exact hsig
      · have hfold : ∀ (cs : List (List BlockHeaderInfo)) (existing : Hash → Option (ℕ × ℕ)) (r : ℕ × HeaderSentinel),
            (∀ chunk ∈ cs, chunk.length ≤ 200) → Bounded r.2 →
              Bounded (cs.foldl (verifyChunk nodeId existing now rank) r).2 := by
          intro cs existing
          induction cs with
          | nil => exact fun _ _ hr => hr
          | cons chunk cs ih =>
            intro r hcs hr
            obtain ⟨hchunk, hcs⟩ := List.forall_mem_cons.mp hcs
            exact ih _ hcs (hr.chunk nodeId existing now rank hchunk)
        exact hfold _ _ _ (chunks_length _ _) hsig

theorem bounded_single (h : Bounded s) (header : BlockHeaderInfo) (nodeId : Text) (signature : List UInt8)
    (now : ℕ) (rank : Hash → ℕ) : Bounded (s.verifyAndAddHeader C header nodeId signature now rank).2 := by
  unfold verifyAndAddHeader
  split
  · exact h
  · rename_i payload _
    have hsig := h.signature (C := C) payload nodeId signature now
    split <;> rename_i s' hs' <;> rw [hs'] at hsig
    · exact hsig
    · exact hsig
    · split
      · exact hsig
      · have hadd := Bounded.addVerifier_evicted hsig header.hash nodeId now rank
        refine ⟨?_, ?_⟩
        · exact (report_peerMldsaKeys _ nodeId header).symm ▸ hadd.keys
        · exact (report_verifications _ nodeId header).symm ▸ hadd.verifications

/-- The management of the cache only drops headers, verifications and nodes. -/
theorem manage_eq (s : HeaderSentinel) (now : ℕ) : ∃ headers verifications nodes,
    s.manageHeaderCache now =
        { s with headers := headers, verifications := verifications, participatingNodes := nodes } ∧
      headers ⊆ s.headers ∧ nodes ⊆ s.participatingNodes ∧
      (∀ hash v, verifications.lookup hash = some v → s.verifications.lookup hash = some v) ∧
      verifications.keys.length ≤ s.verifications.keys.length :=
  ⟨_, _, _, rfl, fun _ hst => List.mem_of_mem_filter (List.mem_of_mem_drop hst), Finset.filter_subset _ _,
    fun _ _ hv => lookup_cut hv, keys_length_cut_le _ _⟩

theorem bounded_manage (h : Bounded s) (now : ℕ) : Bounded (s.manageHeaderCache now) := by
  obtain ⟨headers, verifications, nodes, heq, -, -, -, hlen⟩ := manage_eq s now
  rw [heq]
  exact ⟨h.keys, hlen.trans h.verifications⟩

theorem bounded_addLocal (h : Bounded s) (header : BlockHeaderInfo) (now : ℕ) (rank : Hash → ℕ) :
    Bounded (s.addVerifiedHeader header now rank) := by
  unfold addVerifiedHeader
  dsimp only
  set s₁ := if maxSentinelHeaders ≤ s.headers.length then s.manageHeaderCache now else s with hs₁
  have h₁ : Bounded s₁ := by
    rw [hs₁]
    split
    · exact bounded_manage h now
    · exact h
  have h₂ : Bounded (s₁.pushHeader header now 1 {localVerifierId}) := ⟨h₁.keys, h₁.verifications⟩
  have h₃ := Bounded.addVerifier_evicted h₂ header.hash localVerifierId now rank
  refine ⟨h₃.keys, ?_⟩
  dsimp only
  rw [keys_length_insert_of_mem]
  · exact h₃.verifications
  · exact (AList.mem_insert _).mpr (.inl rfl)

theorem bounded_register (h : Bounded s) (nodeId : Text) (key signature : List UInt8) (ip : IpAddr) (now : ℕ)
    (rank : Text → ℕ) : Bounded (s.registerPeerMldsaKey C nodeId key signature ip now rank).2 := by
  unfold registerPeerMldsaKey
  split
  · exact h
  · dsimp only
    split
    · rename_i hmem
      refine ⟨?_, h.verifications⟩
      dsimp only
      rw [keys_length_insert_of_mem hmem]
      exact h.keys
    · split
      · exact h
      · refine ⟨(keys_length_insert_le _ _ _).trans ?_, h.verifications⟩
        split
        · rename_i hfull
          have hpos : 0 < s.peerMldsaKeys.keys.length := lt_of_lt_of_le (by decide) hfull
          obtain ⟨oldest, holdest⟩ := minByKey_isSome RegisteredKey.lastSeen rank hpos
          rw [holdest]
          exact (keys_length_erase (minByKey_mem holdest)).trans_le h.keys
        · rename_i hroom
          exact Nat.lt_of_not_le hroom

/-- **No call grows a map beyond its bound.** -/
theorem bounded_next (h : Bounded s) (e : Event) : Bounded (s.next C e) := by
  cases e with
  | register nodeId key signature ip now rank => exact bounded_register h nodeId key signature ip now rank
  | batch headers nodeId signature now rank => exact bounded_batch h headers nodeId signature now rank
  | single header nodeId signature now rank => exact bounded_single h header nodeId signature now rank
  | addLocal header now rank => exact bounded_addLocal h header now rank
  | manage now => exact bounded_manage h now
  | trim rank => exact h.trim 1 rank

end Bounds

/-! ### The keys of an IP -/

section Caps

variable {C : HeaderCrypto} {s : HeaderSentinel}

theorem keysOfIp_insert (keys : AList fun _ : Text => RegisteredKey) (nodeId : Text) (key : RegisteredKey)
    (ip : IpAddr) : keysOfIp (keys.insert nodeId key) ip =
      keysOfIp (keys.erase nodeId) ip + if key.sourceIp = ip then 1 else 0 := by
  unfold keysOfIp
  rw [countP_insert]
  simp only [decide_eq_true_eq]

theorem keysOfIp_refresh {keys : AList fun _ : Text => RegisteredKey} {nodeId : Text} {key : RegisteredKey}
    (h : keys.lookup nodeId = some key) (now : ℕ) (ip : IpAddr) :
    keysOfIp (keys.insert nodeId { key with lastSeen := now }) ip = keysOfIp keys ip := by
  have hold := countP_erase (fun e => decide (e.2.sourceIp = ip)) h
  rw [keysOfIp_insert]
  simp only [decide_eq_true_eq] at hold
  exact hold

/-- A registration from an IP keeps the bound exactly if the other keys of the IP leave room. -/
theorem capped_insert {keys : AList fun _ : Text => RegisteredKey}
    (h : ∀ ip, keysOfIp (keys.erase nodeId) ip ≤ maxMldsaKeysPerIp) (key : RegisteredKey) :
    (∀ ip, keysOfIp (keys.insert nodeId key) ip ≤ maxMldsaKeysPerIp) ↔
      keysOfIp (keys.erase nodeId) key.sourceIp < maxMldsaKeysPerIp := by
  constructor
  · intro hall
    have hip := hall key.sourceIp
    rw [keysOfIp_insert, if_pos rfl] at hip
    exact hip
  · intro hroom ip
    rw [keysOfIp_insert]
    split
    · rename_i hip
      exact hip ▸ hroom
    · exact h ip

theorem keysOfIp_erase_le (keys : AList fun _ : Text => RegisteredKey) (nodeId : Text) (ip : IpAddr) :
    keysOfIp (keys.erase nodeId) ip ≤ keysOfIp keys ip :=
  countP_erase_le _ _ _

theorem erase_of_notMem {κ α : Type} [DecidableEq κ] {m : AList fun _ : κ => α} {k : κ} (h : k ∉ m) :
    m.erase k = m :=
  AList.ext (List.kerase_of_notMem_keys fun hk => h (AList.mem_keys.mpr hk))

theorem capped_register (h : Capped s) (nodeId : Text) (key signature : List UInt8) (ip : IpAddr) (now : ℕ)
    (rank : Text → ℕ) : roomy C s (.register nodeId key signature ip now rank) = true ↔
      Capped (s.registerPeerMldsaKey C nodeId key signature ip now rank).2 := by
  have herase : ∀ ip, keysOfIp (s.peerMldsaKeys.erase nodeId) ip ≤ maxMldsaKeysPerIp := fun ip =>
    (keysOfIp_erase_le _ _ _).trans (h ip)
  unfold roomy registerPeerMldsaKey
  dsimp only
  rcases hcheck : checkAttestation C nodeId key signature with e | u
  · exact ⟨fun _ => h, fun _ => rfl⟩
  · rw [Except.isOk]
    simp only [Except.toBool, Bool.not_true, Bool.false_or, Bool.or_eq_true, decide_eq_true_eq]
    by_cases hmem : nodeId ∈ s.peerMldsaKeys
    · rw [if_pos hmem]
      exact ⟨fun hroom => (capped_insert herase ⟨key, ip, now⟩).mpr (hroom.resolve_left (not_not_intro hmem)),
        fun hcap => .inr ((capped_insert herase ⟨key, ip, now⟩).mp hcap)⟩
    · rw [if_neg hmem]
      refine ⟨fun _ => ?_, fun _ => .inl hmem⟩
      split
      · exact h
      · rename_i hroom
        have hinsert : ∀ room : AList fun _ : Text => RegisteredKey, nodeId ∉ room →
            (∀ ip, keysOfIp room ip ≤ keysOfIp s.peerMldsaKeys ip) →
              ∀ ip', keysOfIp (room.insert nodeId ⟨key, ip, now⟩) ip' ≤ maxMldsaKeysPerIp := by
          intro room hnot hle
          refine (capped_insert (fun ip' => ?_) ⟨key, ip, now⟩).mpr ?_
          · rw [erase_of_notMem hnot]
            exact (hle ip').trans (h ip')
          · rw [erase_of_notMem hnot]
            exact (hle ip).trans_lt (Nat.lt_of_not_le hroom)
        split
        · split
          · rename_i oldest _
            refine hinsert _ (fun hin => hmem (AList.mem_erase.mp hin).2) fun ip' => keysOfIp_erase_le _ _ _
          · exact hinsert _ hmem fun _ => le_rfl
        · exact hinsert _ hmem fun _ => le_rfl

theorem capped_signature (h : Capped s) (payload : List UInt8) (nodeId : Text) (signature : List UInt8) (now : ℕ) :
    Capped (s.verifySignatureWithRegisteredNodeKey C payload nodeId signature now).2 := by
  unfold verifySignatureWithRegisteredNodeKey
  split
  · exact h
  · split
    · exact h
    · rename_i key hkey
      intro ip
      exact (keysOfIp_refresh hkey now ip).trans_le (h ip)

/-- The keys are those after the signature check. -/
theorem chunksFold_peerMldsaKeys (nodeId : Text) (existing : Hash → Option (ℕ × ℕ)) (now : ℕ) (rank : Hash → ℕ) :
    ∀ (cs : List (List BlockHeaderInfo)) (r : ℕ × HeaderSentinel),
      (cs.foldl (verifyChunk nodeId existing now rank) r).2.peerMldsaKeys = r.2.peerMldsaKeys
  | [], _ => rfl
  | chunk :: cs, r => by
    rw [List.foldl_cons, chunksFold_peerMldsaKeys nodeId existing now rank cs]
    unfold verifyChunk
    dsimp only
    split
    · rfl
    · rw [(recordAll_bound nodeId now _ _).2, trim_peerMldsaKeys]

theorem batch_peerMldsaKeys (headers : List BlockHeaderInfo) (nodeId : Text) (signature : List UInt8) (now : ℕ)
    (rank : Hash → ℕ) : (s.verifyHeadersBatch C headers nodeId signature now rank).2.peerMldsaKeys = s.peerMldsaKeys ∨
      ∃ payload, (s.verifyHeadersBatch C headers nodeId signature now rank).2.peerMldsaKeys =
        (s.verifySignatureWithRegisteredNodeKey C payload nodeId signature now).2.peerMldsaKeys := by
  unfold verifyHeadersBatch
  split
  · exact .inl rfl
  · split
    · exact .inl rfl
    · rename_i payload _
      refine .inr ⟨payload, ?_⟩
      split <;> rename_i hs' <;> rw [hs']
      exact chunksFold_peerMldsaKeys ..

theorem evict_peerMldsaKeys (s : HeaderSentinel) (hash : Hash) (rank : Hash → ℕ) :
    (s.evictOldestVerificationIfFull hash rank).peerMldsaKeys = s.peerMldsaKeys := by
  unfold evictOldestVerificationIfFull
  split
  · rfl
  · exact trim_peerMldsaKeys ..

theorem single_peerMldsaKeys (header : BlockHeaderInfo) (nodeId : Text) (signature : List UInt8) (now : ℕ)
    (rank : Hash → ℕ) : (s.verifyAndAddHeader C header nodeId signature now rank).2.peerMldsaKeys = s.peerMldsaKeys ∨
      ∃ payload, (s.verifyAndAddHeader C header nodeId signature now rank).2.peerMldsaKeys =
        (s.verifySignatureWithRegisteredNodeKey C payload nodeId signature now).2.peerMldsaKeys := by
  unfold verifyAndAddHeader
  split
  · exact .inl rfl
  · rename_i payload _
    refine .inr ⟨payload, ?_⟩
    split <;> rename_i s' hs' <;> rw [hs']
    split
    · rfl
    · exact (report_peerMldsaKeys _ nodeId header).trans (evict_peerMldsaKeys s' header.hash rank)

theorem manage_peerMldsaKeys (s : HeaderSentinel) (now : ℕ) :
    (s.manageHeaderCache now).peerMldsaKeys = s.peerMldsaKeys := by
  obtain ⟨headers, verifications, nodes, heq, -⟩ := manage_eq s now
  rw [heq]

theorem addLocal_peerMldsaKeys (s : HeaderSentinel) (header : BlockHeaderInfo) (now : ℕ) (rank : Hash → ℕ) :
    (s.addVerifiedHeader header now rank).peerMldsaKeys = s.peerMldsaKeys := by
  unfold addVerifiedHeader
  dsimp only
  set s₁ := if maxSentinelHeaders ≤ s.headers.length then s.manageHeaderCache now else s with hs₁
  have h₁ : s₁.peerMldsaKeys = s.peerMldsaKeys := by
    rw [hs₁]
    split
    · exact manage_peerMldsaKeys s now
    · rfl
  exact (evict_peerMldsaKeys (s₁.pushHeader header now 1 {localVerifierId}) header.hash rank).trans h₁

/-- **The bound per IP holds after a call exactly if a key that is registered anew finds room.** -/
theorem capped_iff (h : Capped s) (e : Event) : roomy C s e = true ↔ Capped (s.next C e) := by
  have hsame : ∀ {s' : HeaderSentinel}, s'.peerMldsaKeys = s.peerMldsaKeys → Capped s' := fun hkeys ip => by
    rw [hkeys]
    exact h ip
  have hsigned : ∀ {s' : HeaderSentinel} {nodeId : Text} {signature : List UInt8} {now : ℕ},
      (s'.peerMldsaKeys = s.peerMldsaKeys ∨ ∃ payload, s'.peerMldsaKeys =
        (s.verifySignatureWithRegisteredNodeKey C payload nodeId signature now).2.peerMldsaKeys) → Capped s' := by
    rintro s' nodeId signature now (hkeys | ⟨payload, hkeys⟩)
    · exact hsame hkeys
    · intro ip
      rw [hkeys]
      exact capped_signature h payload nodeId signature now ip
  cases e with
  | register nodeId key signature ip now rank => exact capped_register h nodeId key signature ip now rank
  | batch headers nodeId signature now rank =>
    exact ⟨fun _ => hsigned (batch_peerMldsaKeys headers nodeId signature now rank), fun _ => rfl⟩
  | single header nodeId signature now rank =>
    exact ⟨fun _ => hsigned (single_peerMldsaKeys header nodeId signature now rank), fun _ => rfl⟩
  | addLocal header now rank => exact ⟨fun _ => hsame (addLocal_peerMldsaKeys s header now rank), fun _ => rfl⟩
  | manage now => exact ⟨fun _ => hsame (manage_peerMldsaKeys s now), fun _ => rfl⟩
  | trim rank => exact ⟨fun _ => hsame (trim_peerMldsaKeys s 1 rank), fun _ => rfl⟩

end Caps

/-! ### Who has reported what -/

/-- Every external verifier of a cached header has reported it from the IP that its key is
registered from, and all that is queued or reported has been recorded. -/
structure Traced (s : HeaderSentinel) : Prop where
  queued : ∀ st ∈ s.headers, st.header ∈ s.recorded
  reported : ∀ r ∈ s.reports, r.header ∈ s.recorded
  witnessed : ∀ hash v, s.verifications.lookup hash = some v → ∀ id ∈ v.verifiers, id ≠ localVerifierId →
    ∀ key, s.peerMldsaKeys.lookup id = some key →
      ∃ r ∈ s.reports, r.node = id ∧ r.ip = key.sourceIp ∧ r.header.hash = hash
  alone : s.participatingNodes = ∅

section Traces

variable {C : HeaderCrypto} {s s' : HeaderSentinel}

/-- Entries and queued headers may go. -/
theorem Traced.fewer (h : Traced s) (hheaders : ∀ st ∈ s'.headers, ∃ old ∈ s.headers, old.header = st.header)
    (hverifications : ∀ hash v, s'.verifications.lookup hash = some v → s.verifications.lookup hash = some v)
    (hkeys : s'.peerMldsaKeys = s.peerMldsaKeys) (halone : s'.participatingNodes = ∅)
    (hreports : s'.reports = s.reports) (hrecorded : s'.recorded = s.recorded) : Traced s' where
  queued st hst := by
    obtain ⟨old, hold, heq⟩ := hheaders st hst
    rw [hrecorded, ← heq]
    exact h.queued old hold
  reported := by
    rw [hreports, hrecorded]
    exact h.reported
  witnessed hash v hv := by
    rw [hkeys, hreports]
    exact h.witnessed hash v (hverifications hash v hv)
  alone := halone

theorem Traced.trim (h : Traced s) (incoming : ℕ) (rank : Hash → ℕ) : Traced (s.trimVerifications incoming rank) := by
  unfold trimVerifications
  split
  · exact h
  · exact h.fewer (fun st hst => ⟨st, hst, rfl⟩) (fun _ _ hv => lookup_cut hv) rfl h.alone rfl rfl

theorem Traced.evict (h : Traced s) (hash : Hash) (rank : Hash → ℕ) :
    Traced (s.evictOldestVerificationIfFull hash rank) := by
  unfold evictOldestVerificationIfFull
  split
  · exact h
  · exact h.trim 1 rank

theorem Traced.manage (h : Traced s) (now : ℕ) : Traced (s.manageHeaderCache now) := by
  obtain ⟨headers, verifications, nodes, heq, hheaders, hnodes, hverifications, -⟩ := manage_eq s now
  rw [heq]
  refine h.fewer (fun st hst => ⟨st, hheaders hst, rfl⟩) hverifications rfl ?_ rfl rfl
  exact Finset.subset_empty.mp (h.alone ▸ hnodes)

/-- The keys may change as long as every one has the reports of its IP. -/
theorem Traced.rekey (h : Traced s) {keys : AList fun _ : Text => RegisteredKey}
    (hkeys : ∀ id key, keys.lookup id = some key → ∀ hash v, s.verifications.lookup hash = some v →
      id ∈ v.verifiers → id ≠ localVerifierId →
        (∃ old, s.peerMldsaKeys.lookup id = some old ∧ old.sourceIp = key.sourceIp) ∨
          ∃ r ∈ s.reports, r.node = id ∧ r.ip = key.sourceIp ∧ r.header.hash = hash) :
    Traced { s with peerMldsaKeys := keys } where
  queued := h.queued
  reported := h.reported
  witnessed hash v hv id hid hlocal key hkey := by
    rcases hkeys id key hkey hash v hv hid hlocal with ⟨old, hold, hip⟩ | hr
    · rw [← hip]
      exact h.witnessed hash v hv id hid hlocal old hold
    · exact hr
  alone := h.alone

theorem Traced.refresh (h : Traced s) {nodeId : Text} {key : RegisteredKey}
    (hkey : s.peerMldsaKeys.lookup nodeId = some key)
    (now : ℕ) : Traced { s with peerMldsaKeys := s.peerMldsaKeys.insert nodeId { key with lastSeen := now } } := by
  refine h.rekey fun id key' hid _ _ _ _ _ => .inl ?_
  by_cases hne : id = nodeId
  · subst hne
    rw [AList.lookup_insert, Option.some_inj] at hid
    exact ⟨key, hkey, hid ▸ rfl⟩
  · rw [AList.lookup_insert_ne hne] at hid
    exact ⟨key', hid, rfl⟩

theorem lookup_addVerifier (s : HeaderSentinel) (hash : Hash) (id : Text) (now : ℕ) :
    ∃ v, (s.addVerifier hash id now).verifications = s.verifications.insert hash v ∧
      v.verifiers = insert id (s.verifiersOf hash) := by
  refine ⟨_, rfl, ?_⟩
  unfold verifiersOf
  cases s.verifications.lookup hash <;> rfl

theorem Traced.verifier (h : Traced s) {hash : Hash} {id : Text} (hid : id ∈ s.verifiersOf hash)
    (hlocal : id ≠ localVerifierId) {key : RegisteredKey} (hkey : s.peerMldsaKeys.lookup id = some key) :
    ∃ r ∈ s.reports, r.node = id ∧ r.ip = key.sourceIp ∧ r.header.hash = hash := by
  unfold verifiersOf at hid
  cases hv : s.verifications.lookup hash with
  | none =>
    rw [hv] at hid
    exact absurd hid (Finset.notMem_empty id)
  | some v =>
    rw [hv] at hid
    exact h.witnessed hash v hv id hid hlocal key hkey

/-- **A signed header is recorded**: with its verifier, its report and its place in the queue. -/
theorem Traced.record (h : Traced s) {header : BlockHeaderInfo} {nodeId : Text} {now : ℕ} {key : RegisteredKey}
    (hkey : s.peerMldsaKeys.lookup nodeId = some key)
    (hverifications : s'.verifications = (s.addVerifier header.hash nodeId now).verifications)
    (hkeys : s'.peerMldsaKeys = s.peerMldsaKeys) (hnodes : s'.participatingNodes = s.participatingNodes)
    (hreports : s'.reports = ⟨nodeId, key.sourceIp, header⟩ :: s.reports)
    (hrecorded : s'.recorded = header :: s.recorded)
    (hheaders : ∀ st ∈ s'.headers, st.header = header ∨ st ∈ s.headers) : Traced s' where
  queued st hst := by
    rw [hrecorded]
    rcases hheaders st hst with heq | hold
    · exact heq ▸ List.mem_cons_self ..
    · exact List.mem_cons_of_mem _ (h.queued st hold)
  reported := by
    rw [hreports, hrecorded]
    exact List.forall_mem_cons.mpr ⟨List.mem_cons_self .., fun r hr => List.mem_cons_of_mem _ (h.reported r hr)⟩
  witnessed hash v hv id hid hlocal key' hkey' := by
    obtain ⟨w, hw, hverifiers⟩ := lookup_addVerifier s header.hash nodeId now
    rw [hverifications, hw] at hv
    rw [hkeys] at hkey'
    rw [hreports]
    by_cases hhash : hash = header.hash
    · subst hhash
      rw [AList.lookup_insert, Option.some_inj] at hv
      rw [← hv, hverifiers, Finset.mem_insert] at hid
      rcases hid with rfl | hid
      · cases hkey.symm.trans hkey'
        exact ⟨_, List.mem_cons_self .., rfl, rfl, rfl⟩
      · obtain ⟨r, hr, hrest⟩ := h.verifier hid hlocal hkey'
        exact ⟨r, List.mem_cons_of_mem _ hr, hrest⟩
    · rw [AList.lookup_insert_ne hhash] at hv
      obtain ⟨r, hr, hrest⟩ := h.witnessed hash v hv id hid hlocal key' hkey'
      exact ⟨r, List.mem_cons_of_mem _ hr, hrest⟩
  alone := hnodes.trans h.alone

theorem mem_of_mem_ite_tail {p : Prop} [Decidable p] {l : List HeaderState} {st : HeaderState}
    (h : st ∈ if p then l.tail else l) : st ∈ l := by
  split at h
  · exact List.mem_of_mem_tail h
  · exact h

theorem Traced.recordVerified (nodeId : Text) (now : ℕ) {r : ℕ × HeaderSentinel} (h : Traced r.2)
    {key : RegisteredKey} (hkey : r.2.peerMldsaKeys.lookup nodeId = some key) (header : BlockHeaderInfo) :
    Traced (HeaderSentinel.recordVerified nodeId now r header).2 := by
  set s₁ := r.2.addVerifier header.hash nodeId now with hs₁
  have hreport : s₁.report nodeId header = { s₁ with reports := ⟨nodeId, key.sourceIp, header⟩ :: s₁.reports } := by
    unfold report
    rw [show s₁.peerMldsaKeys.lookup nodeId = some key from hkey]
  unfold HeaderSentinel.recordVerified
  dsimp only
  rw [← hs₁, hreport]
  refine h.record hkey rfl rfl rfl rfl rfl fun st hst => ?_
  rcases List.mem_append.mp (mem_of_mem_ite_tail hst) with hold | hnew
  · exact .inr hold
  · exact .inl (List.mem_singleton.mp hnew ▸ rfl)

theorem Traced.recordAll (nodeId : Text) (now : ℕ) :
    ∀ (verified : List BlockHeaderInfo) (r : ℕ × HeaderSentinel), Traced r.2 →
      (∃ key, r.2.peerMldsaKeys.lookup nodeId = some key) →
        Traced (verified.foldl (HeaderSentinel.recordVerified nodeId now) r).2
  | [], _, h, _ => h
  | header :: verified, r, h, ⟨key, hkey⟩ => by
    refine Traced.recordAll nodeId now verified _ (h.recordVerified nodeId now hkey header) ⟨key, ?_⟩
    rw [recordVerified_peerMldsaKeys]
    exact hkey

theorem Traced.chunks (nodeId : Text) (existing : Hash → Option (ℕ × ℕ)) (now : ℕ) (rank : Hash → ℕ) :
    ∀ (cs : List (List BlockHeaderInfo)) (r : ℕ × HeaderSentinel), Traced r.2 →
      (∃ key, r.2.peerMldsaKeys.lookup nodeId = some key) → Traced (cs.foldl (verifyChunk nodeId existing now rank) r).2
  | [], _, h, _ => h
  | chunk :: cs, r, h, hkey => by
    rw [List.foldl_cons]
    refine Traced.chunks nodeId existing now rank cs _ ?_ ?_
    · unfold verifyChunk
      dsimp only
      split
      · exact h
      · refine Traced.recordAll nodeId now _ _ (h.trim _ rank) ?_
        dsimp only
        rw [trim_peerMldsaKeys]
        exact hkey
    · have hkeys := chunksFold_peerMldsaKeys nodeId existing now rank [chunk] r
      rw [List.foldl_cons, List.foldl_nil] at hkeys
      rw [hkeys]
      exact hkey

/-- A signature that verifies is one of a registered key. -/
theorem Traced.signature (h : Traced s) (payload : List UInt8) (nodeId : Text) (signature : List UInt8) (now : ℕ) :
    Traced (s.verifySignatureWithRegisteredNodeKey C payload nodeId signature now).2 ∧
      ((s.verifySignatureWithRegisteredNodeKey C payload nodeId signature now).1 = .ok true →
        ∃ key, (s.verifySignatureWithRegisteredNodeKey C payload nodeId signature now).2.peerMldsaKeys.lookup nodeId =
          some key) := by
  unfold verifySignatureWithRegisteredNodeKey
  split
  · exact ⟨h, nofun⟩
  · split
    · exact ⟨h, nofun⟩
    · rename_i key hkey
      exact ⟨h.refresh hkey now, fun _ => ⟨_, AList.lookup_insert _⟩⟩

theorem traced_batch (h : Traced s) (headers : List BlockHeaderInfo) (nodeId : Text) (signature : List UInt8)
    (now : ℕ) (rank : Hash → ℕ) : Traced (s.verifyHeadersBatch C headers nodeId signature now rank).2 := by
  unfold verifyHeadersBatch
  split
  · exact h
  · split
    · exact h
    · rename_i payload _
      have hsig := h.signature (C := C) payload nodeId signature now
      split <;> rename_i s' hs' <;> rw [hs'] at hsig
      · exact hsig.1
      · exact hsig.1
      · exact Traced.chunks nodeId _ now rank _ _ hsig.1 (hsig.2 rfl)

theorem traced_single (h : Traced s) (header : BlockHeaderInfo) (nodeId : Text) (signature : List UInt8)
    (now : ℕ) (rank : Hash → ℕ) : Traced (s.verifyAndAddHeader C header nodeId signature now rank).2 := by
  unfold verifyAndAddHeader
  split
  · exact h
  · rename_i payload _
    have hsig := h.signature (C := C) payload nodeId signature now
    split <;> rename_i s' hs' <;> rw [hs'] at hsig
    · exact hsig.1
    · exact hsig.1
    · obtain ⟨key, hkey⟩ := hsig.2 rfl
      split
      · exact hsig.1
      · have hev : Traced (s'.evictOldestVerificationIfFull header.hash rank) := hsig.1.evict header.hash rank
        have hkey' : (s'.evictOldestVerificationIfFull header.hash rank).peerMldsaKeys.lookup nodeId = some key := by
          rw [evict_peerMldsaKeys]
          exact hkey
        set s₀ := s'.evictOldestVerificationIfFull header.hash rank
        set s₁ := s₀.addVerifier header.hash nodeId now with hs₁
        have hreport : s₁.report nodeId header =
            { s₁ with reports := ⟨nodeId, key.sourceIp, header⟩ :: s₁.reports } := by
          unfold report
          rw [show s₁.peerMldsaKeys.lookup nodeId = some key from hkey']
        dsimp only
        rw [hreport]
        refine hev.record hkey' rfl rfl rfl rfl rfl fun st hst => ?_
        rcases List.mem_append.mp hst with hold | hnew
        · exact .inr (mem_of_mem_ite_tail hold)
        · exact .inl (List.mem_singleton.mp hnew ▸ rfl)

/-- A local header credits nobody but the local verifier. -/
theorem traced_addLocal (h : Traced s) (header : BlockHeaderInfo) (now : ℕ) (rank : Hash → ℕ) :
    Traced (s.addVerifiedHeader header now rank) := by
  unfold addVerifiedHeader
  dsimp only
  set s₁ := if maxSentinelHeaders ≤ s.headers.length then s.manageHeaderCache now else s with hs₁
  have h₁ : Traced s₁ := by
    rw [hs₁]
    split
    · exact h.manage now
    · exact h
  have h₂ : Traced (s₁.pushHeader header now 1 {localVerifierId}) := by
    refine ⟨fun st hst => ?_, fun r hr => List.mem_cons_of_mem _ (h₁.reported r hr), h₁.witnessed, h₁.alone⟩
    rcases List.mem_append.mp hst with hold | hnew
    · exact List.mem_cons_of_mem _ (h₁.queued st hold)
    · exact List.mem_singleton.mp hnew ▸ List.mem_cons_self ..
  have h₃ := h₂.evict header.hash rank
  set s₃ := (s₁.pushHeader header now 1 {localVerifierId}).evictOldestVerificationIfFull header.hash rank
  obtain ⟨w, hw, hverifiers⟩ := lookup_addVerifier s₃ header.hash localVerifierId now
  have hlookup : (s₃.addVerifier header.hash localVerifierId now).verifications.lookup header.hash = some w := by
    rw [hw, AList.lookup_insert]
  rw [hlookup, Option.getD_some]
  have hnodes : (s₃.addVerifier header.hash localVerifierId now).participatingNodes = ∅ := h₃.alone
  rw [hnodes, Finset.union_empty]
  refine ⟨fun st hst => ?_, h₃.reported, fun hash v hv id hid hlocal key hkey => ?_, rfl⟩
  · obtain ⟨k, hk⟩ := List.mem_iff_getElem?.mp hst
    dsimp only at hk
    rw [List.getElem?_modify] at hk
    obtain ⟨old, hold, heq⟩ := Option.map_eq_some_iff.mp hk
    have hheader : st.header = old.header := by
      rw [← heq]
      split
      · split <;> rfl
      · rfl
    rw [hheader]
    exact h₃.queued old (List.mem_of_getElem? hold)
  · dsimp only at hv
    by_cases hhash : hash = header.hash
    · subst hhash
      rw [AList.lookup_insert, Option.some_inj] at hv
      rw [← hv] at hid
      dsimp only at hid
      rw [hverifiers, Finset.mem_insert] at hid
      exact h₃.verifier (hid.resolve_left hlocal) hlocal hkey
    · rw [AList.lookup_insert_ne hhash, hw, AList.lookup_insert_ne hhash] at hv
      exact h₃.witnessed hash v hv id hid hlocal key hkey

theorem traced_register (h : Traced s) {nodeId : Text} {key signature : List UInt8} {ip : IpAddr} {now : ℕ}
    {rank : Text → ℕ} (hstay : staysPut C s (.register nodeId key signature ip now rank) = true) :
    Traced (s.registerPeerMldsaKey C nodeId key signature ip now rank).2 := by
  unfold registerPeerMldsaKey
  unfold staysPut at hstay
  dsimp only at hstay
  rcases hcheck : checkAttestation C nodeId key signature with e | u
  · exact h
  · rw [hcheck, Except.isOk] at hstay
    simp only [Except.toBool, Bool.not_true, Bool.false_or, List.all_eq_true, List.any_eq_true, Bool.or_eq_true,
      decide_eq_true_eq] at hstay
    have hinsert : ∀ room : AList fun _ : Text => RegisteredKey,
        (∀ id k, room.lookup id = some k → s.peerMldsaKeys.lookup id = some k) →
          Traced { s with peerMldsaKeys := room.insert nodeId ⟨key, ip, now⟩ } := by
      intro room hroom
      refine h.rekey fun id k hk hash v hv hid _ => ?_
      by_cases hne : id = nodeId
      · subst hne
        rw [AList.lookup_insert, Option.some_inj] at hk
        obtain ⟨r, hr, hnode, hip, hhash⟩ := (hstay ⟨hash, v⟩ (AList.mem_lookup_iff.mp hv)).resolve_left
          (not_not_intro hid)
        exact .inr ⟨r, hr, hnode, hk ▸ hip, hhash⟩
      · rw [AList.lookup_insert_ne hne] at hk
        exact .inl ⟨k, hroom id k hk, rfl⟩
    have herase : ∀ oldest id k, (s.peerMldsaKeys.erase oldest).lookup id = some k →
        s.peerMldsaKeys.lookup id = some k := fun oldest id k hk => by
      have hcut : (cut s.peerMldsaKeys [oldest]).lookup id = some k := hk
      exact lookup_cut hcut
    dsimp only
    split
    · exact hinsert _ fun _ _ hk => hk
    · split
      · exact h
      · split
        · split
          · exact hinsert _ (herase _)
          · exact hinsert _ fun _ _ hk => hk
        · exact hinsert _ fun _ _ hk => hk

/-- **Every call keeps the reports of the verifiers**, if a key stays where it has reported from. -/
theorem Traced.next (h : Traced s) {e : Event} (hstay : staysPut C s e = true) : Traced (s.next C e) := by
  cases e with
  | register nodeId key signature ip now rank => exact traced_register h hstay
  | batch headers nodeId signature now rank => exact traced_batch h headers nodeId signature now rank
  | single header nodeId signature now rank => exact traced_single h header nodeId signature now rank
  | addLocal header now rank => exact traced_addLocal h header now rank
  | manage now => exact h.manage now
  | trim rank => exact h.trim 1 rank

/-- **A conflict has a quorum of IPs that reported it at this height.** -/
theorem conflict_reported (h : Traced s) (hagreed : Agreed s.recorded) {height : ℕ} {expected : Hash}
    (hconflict : s.hasConflictingVerifiedHeader height expected = true) :
    ∃ hash, hash ≠ expected ∧ requiredVerifierCount s.eligibleVerifierCount ≤ (s.reporterIps height hash).card := by
  unfold hasConflictingVerifiedHeader at hconflict
  obtain ⟨st, hst, hverified⟩ := List.any_eq_true.mp hconflict
  rw [List.mem_filter, Bool.and_eq_true, decide_eq_true_eq, decide_eq_true_eq] at hst
  obtain ⟨hqueued, hheight, hne⟩ := hst
  refine ⟨st.header.hash, hne, ?_⟩
  unfold isHeaderVerified at hverified
  cases hv : s.verifications.lookup st.header.hash with
  | none =>
    rw [hv] at hverified
    cases hverified
  | some v =>
    rw [hv] at hverified
    refine (of_decide_eq_true hverified).trans (Finset.card_le_card fun ip hip => ?_)
    unfold verifierIps at hip
    rw [Finset.mem_eraseNone, Finset.mem_image] at hip
    obtain ⟨id, hid, hip⟩ := hip
    obtain ⟨hlocal, hid⟩ := Finset.mem_erase.mp hid
    obtain ⟨key, hkey, rfl⟩ := Option.map_eq_some_iff.mp hip
    obtain ⟨r, hr, -, hrip, hrhash⟩ := h.witnessed _ v hv id hid hlocal key hkey
    have hrheight : r.header.height = height :=
      (hagreed r.header (h.reported r hr) st.header (h.queued st hqueued) hrhash).trans hheight
    unfold reporterIps
    rw [List.mem_toFinset, List.mem_map]
    exact ⟨r, List.mem_filter.mpr ⟨hr, decide_eq_true ⟨hrheight, hrhash⟩⟩, hrip⟩

end Traces

/-- **The header quorum.** In every run from a new sentinel the maps stay within their bounds; no IP
ever has too many keys exactly if every key that is registered anew finds room at its IP; and where
keys stay where they have reported from and the recorded headers with one hash have one height, a
conflict is raised only by a quorum of IPs that reported it at this height. -/
theorem header_quorum (C : HeaderCrypto) (t : HeaderSentinel) (tr : List (HeaderSentinel × Event))
    (hrun : Trace.Run (fun s e t => s.next C e = t) new tr t) :
    (t.peerMldsaKeys.keys.length ≤ maxPeerMldsaKeys ∧ t.verifications.keys.length ≤ maxVerifications) ∧
      ((∀ u ∈ tr, roomy C u.1 u.2 = true) ↔ (∀ u ∈ tr, Capped u.1) ∧ Capped t) ∧
      ((∀ u ∈ tr, staysPut C u.1 u.2 = true) → Agreed t.recorded →
        ∀ height expected, t.hasConflictingVerifiedHeader height expected = true →
          ∃ hash, hash ≠ expected ∧
            requiredVerifierCount t.eligibleVerifierCount ≤ (t.reporterIps height hash).card) := by
  have hcapped : Capped new := fun _ => Nat.zero_le _
  have hbounded : Bounded new := ⟨Nat.zero_le _, Nat.zero_le _⟩
  have htraced : Traced new := ⟨nofun, nofun, nofun, rfl⟩
  refine ⟨?_, ?_, fun hstay hagreed height expected hconflict => ?_⟩
  · have hb : Bounded t := by
      refine hrun.invariant (I := Bounded) (C := fun _ _ => True) ?_ hbounded fun _ _ => trivial
      rintro s e t h - rfl
      exact bounded_next h e
    exact ⟨hb.keys, hb.verifications⟩
  · have hstep : ∀ s e t, True → Capped s → s.next C e = t → (roomy C s e = true ↔ True ∧ Capped t) := by
      rintro s e t - h rfl
      rw [true_and]
      exact capped_iff h e
    have hiff := hrun.forall_iff (I := fun _ => True) (G := Capped) (C := fun s e => roomy C s e = true)
      (P := fun _ _ => True) (fun _ _ _ _ _ => trivial) hstep trivial hcapped
    simpa only [true_and] using hiff
  · have ht : Traced t := by
      refine hrun.invariant (I := Traced) (C := fun s e => staysPut C s e = true) ?_ htraced hstay
      rintro s e t h hC rfl
      exact h.next hC
    exact conflict_reported ht hagreed hconflict

/-! ### Concrete runs -/

/-- Signatures that are the key and the payload. -/
def plainCrypto : HeaderCrypto where
  serializeHeaders hs := .ok (hs.flatMap fun h => [UInt8.ofNat h.height, UInt8.ofNat h.hash.val])
  serializeHeader h := .ok [UInt8.ofNat h.height, UInt8.ofNat h.hash.val]
  hexError _ := []
  ipText _ := []
  bindingPayload _ key := key
  validatePublicKey _ := .ok ()
  ed25519Verify pub payload signature := decide (signature = pub ++ payload)
  mldsaVerify payload signature key := decide (signature = key ++ payload)

/-- Node `k` registers from an IP. -/
def registers (k : UInt8) (ip : Fin (2 ^ 32)) : Event :=
  .register (hexEncode (List.replicate 32 k)) [k] (List.replicate 32 k ++ [k]) (.v4 ip) 0 fun _ => 0

local instance hashNeZero : NeZero (2 ^ 256) := ⟨by decide⟩

/-- Node `k` reports hash 77 at a height. -/
def reportsAt (k : UInt8) (height : ℕ) : Event :=
  .batch [⟨height, 77, 0, 0⟩] (hexEncode (List.replicate 32 k)) [k, UInt8.ofNat height, 77] 0 fun _ => 0

/-- Two nodes behind two IPs report one header. -/
def twoReporters : List Event := [registers 1 1, registers 2 2, reportsAt 1 0, reportsAt 2 0]

theorem header_quorum_two :
    Capped (twoReporters.foldl (next plainCrypto) new) ∧
      ∃ hash, hash ≠ 5 ∧ requiredVerifierCount (twoReporters.foldl (next plainCrypto) new).eligibleVerifierCount ≤
        ((twoReporters.foldl (next plainCrypto) new).reporterIps 0 hash).card := by
  have hroomy : (Trace.visited (next plainCrypto) new twoReporters).all (fun u => roomy plainCrypto u.1 u.2) =
      true := by
    decide +kernel
  have hstay : (Trace.visited (next plainCrypto) new twoReporters).all (fun u => staysPut plainCrypto u.1 u.2) =
      true := by
    decide +kernel
  have hagreed : ∀ g ∈ (twoReporters.foldl (next plainCrypto) new).recorded,
      ∀ h ∈ (twoReporters.foldl (next plainCrypto) new).recorded, g.hash = h.hash → g.height = h.height := by
    decide +kernel
  obtain ⟨-, hcap, hquorum⟩ := header_quorum plainCrypto _ _ (Trace.run_visited (next plainCrypto) twoReporters new)
  exact ⟨(hcap.mp (List.all_eq_true.mp hroomy)).2,
    hquorum (List.all_eq_true.mp hstay) hagreed 0 5 (by decide +kernel)⟩

theorem reporterIps_subset (s : HeaderSentinel) (height : ℕ) (hash : Hash) : s.reporterIps height hash ⊆
    ((s.reports.filter fun r => decide (r.header.height = height)).map HeaderReport.ip).toFinset := by
  intro ip hip
  unfold reporterIps at hip
  simp only [List.mem_toFinset, List.mem_map, List.mem_filter, decide_eq_true_eq] at hip ⊢
  obtain ⟨r, ⟨hr, hheight, -⟩, hrip⟩ := hip
  exact ⟨r, ⟨hr, hheight⟩, hrip⟩

/-- A key moves to an IP that has two. -/
def thirdKey : List Event := [registers 1 1, registers 2 1, registers 3 2, registers 3 1]

/-- A hash that three IPs reported at height 0 is reported by one of them at height 10. -/
def otherHeight : List Event :=
  [registers 1 1, registers 2 2, registers 3 3, reportsAt 1 0, reportsAt 2 0, reportsAt 3 0, reportsAt 1 10]

/-- Two keys of one IP report a hash, and one of them moves to another IP. -/
def movedKey : List Event := [registers 1 1, registers 2 1, registers 3 2, reportsAt 1 0, reportsAt 2 0, registers 2 2]

theorem no_quorum {s : HeaderSentinel} {height required : ℕ}
    (hrequired : requiredVerifierCount s.eligibleVerifierCount = required)
    (hfew : ((s.reports.filter fun r => decide (r.header.height = height)).map HeaderReport.ip).toFinset.card <
        required) :
    ¬ ∃ hash, hash ≠ (5 : Hash) ∧ requiredVerifierCount s.eligibleVerifierCount ≤ (s.reporterIps height hash).card := by
  rintro ⟨hash, -, hle⟩
  have hcard := Finset.card_le_card (reporterIps_subset s height hash)
  omega

/-- An IP with three keys, a conflict at a height that one IP of three reported, and a conflict that
one IP of two reported. -/
theorem header_quorum_gamed :
    ¬ Capped (thirdKey.foldl (next plainCrypto) new) ∧
      ((otherHeight.foldl (next plainCrypto) new).hasConflictingVerifiedHeader 10 5 = true ∧
        ¬ ∃ hash, hash ≠ 5 ∧ requiredVerifierCount (otherHeight.foldl (next plainCrypto) new).eligibleVerifierCount ≤
          ((otherHeight.foldl (next plainCrypto) new).reporterIps 10 hash).card) ∧
      (movedKey.foldl (next plainCrypto) new).hasConflictingVerifiedHeader 0 5 = true ∧
        ¬ ∃ hash, hash ≠ 5 ∧ requiredVerifierCount (movedKey.foldl (next plainCrypto) new).eligibleVerifierCount ≤
          ((movedKey.foldl (next plainCrypto) new).reporterIps 0 hash).card := by
  refine ⟨fun h => ?_, ⟨by decide +kernel, ?_⟩, by decide +kernel, ?_⟩
  · have hcount := h (.v4 1)
    revert hcount
    decide +kernel
  · have hrequired : requiredVerifierCount (otherHeight.foldl (next plainCrypto) new).eligibleVerifierCount = 3 := by
      decide +kernel
    exact no_quorum hrequired (by decide +kernel)
  · have hrequired : requiredVerifierCount (movedKey.foldl (next plainCrypto) new).eligibleVerifierCount = 2 := by
      decide +kernel
    exact no_quorum hrequired (by decide +kernel)

end HeaderSentinel

end Alphanumeric
