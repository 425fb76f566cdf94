/-
# The operator's payment ledger

`WalletLedger` binds an idempotency key to one signed transaction: `entries` maps a
primary key to its entry, `tx_index` a transaction id back to its key, and
`tuple_last_ts` remembers the last timestamp handed out for a payment tuple. Every
change is a line of an append-only JSON log before it is made in memory; opening the
ledger folds the log. Expiry is a change of memory alone.

An append may fail with any part of its line already in the file, and a compaction
may fail before or after the rename; `Io` says which do. JSON is a parameter.

Key definitions: `LedgerEntry`, `LogRecord`, `Ledger`, `append`, `record`,
`updateState`, `releaseReservation`, `prune`, `load`, `perform`.
-/
import Alphanumeric.Lib.Table
import Alphanumeric.Lib.Trace
import Alphanumeric.Types
import Mathlib.Data.Char
import Mathlib.Data.List.Lex

namespace Alphanumeric.PaymentLedger

abbrev Bytes : Type := List UInt8

/-! ### Data -/

/-- A transaction identity without its timestamp. -/
structure PaymentTuple where
  sender : Text
  recipient : Text
  amountUnits : ℤ
  feeUnits : ℤ
deriving DecidableEq, Repr

inductive EntryState where
  | reserved
  | pending
  | confirmed (height : ℕ)
  | rejected (reason : Text)
  | expired
  | ambiguousExisting
deriving DecidableEq, Repr

def EntryState.isTerminal : EntryState → Bool
  | confirmed _ | rejected _ | expired => true
  | reserved | pending | ambiguousExisting => false

/-- The states that the clock alone may end. -/
def EntryState.isOpen : EntryState → Bool
  | reserved | pending => true
  | _ => false

structure LedgerEntry where
  key : Text
  idempotencyKey : Option Text
  tuple : PaymentTuple
  timestamp : ℕ
  txId : Text
  signedTx : Option Text
  state : EntryState
  createdAt : ℕ
  updatedAt : ℕ
deriving DecidableEq, Repr

/-- A line of the log. -/
inductive LogRecord where
  | upsert (entry : LedgerEntry)
  | state (txId : Text) (state : EntryState) (updatedAt : ℕ)
  | delete (key txId : Text)
deriving DecidableEq, Repr

/-- The kinds of `io::Error` the ledger tells apart. -/
inductive ErrorKind where
  | alreadyExists
  | storageFull
  | invalidData
  | other
deriving DecidableEq, Repr

inductive SubmissionCheck where
  | new
  | duplicate (entry : LedgerEntry)
  | conflict (entry : LedgerEntry)
  | collision (entry : LedgerEntry)
deriving DecidableEq, Repr

structure LedgerConfig where
  txAgeLimitSecs : ℕ
  futureAllocationMarginSecs : ℕ
  retentionSecs : ℕ
  maxEntries : ℕ
  maxLiveBytes : ℕ
  compactionThresholdBytes : ℕ

def LedgerConfig.default : LedgerConfig where
  txAgeLimitSecs := 21600
  futureAllocationMarginSecs := 300
  retentionSecs := 7 * 24 * 60 * 60
  maxEntries := 100000
  maxLiveBytes := 256 * 1024 * 1024
  compactionThresholdBytes := 4 * 1024 * 1024

/-- `serde_json` on log records. -/
structure Json where
  encode : LogRecord → Bytes
  decode : Bytes → Option LogRecord

/-- What the log relies on: a record reads back, its text is one line, and a record cut short
is not JSON. -/
structure JsonOk (J : Json) : Prop where
  roundTrip : ∀ r, J.decode (J.encode r) = some r
  oneLine : ∀ r, 10 ∉ J.encode r
  torn : ∀ r n, n < (J.encode r).length → J.decode ((J.encode r).take n) = none

/-- `Inner`, with the log file at its path. -/
structure Ledger where
  config : LedgerConfig
  entries : Table Text LedgerEntry
  txIndex : Table Text Text
  tupleLastTs : Table PaymentTuple ℕ
  uncompactedBytes : ℕ
  liveBytes : ℕ
  file : Option Bytes

/-- What an append leaves behind: the whole line, synced, or an error after `written` of its
bytes have reached the file. -/
inductive AppendOutcome where
  | synced
  | failed (written : ℕ)
deriving DecidableEq

/-- A compaction succeeds, fails with the old file in place, or fails after the rename. -/
inductive CompactOutcome where
  | replaced
  | failedBefore
  | failedAfter
deriving DecidableEq

/-- What the file system does during one operation. -/
structure Io where
  append : LogRecord → AppendOutcome
  compactAfterPrune : CompactOutcome
  compact : CompactOutcome

def Io.fine : Io := ⟨fun _ => .synced, .replaced, .replaced⟩

/-- An operation's answer, with the ledger it leaves. -/
abbrev Outcome (α : Type) : Type := Ledger × Except ErrorKind α

variable (J : Json)

def newline : UInt8 := 10

def u64Max : ℕ := 2 ^ 64 - 1

def idempotencyPrefix : Text := ['i', 'd', 'e', 'm', 'p', 'o', 't', 'e', 'n', 'c', 'y', ':']
def transactionPrefix : Text := ['t', 'r', 'a', 'n', 's', 'a', 'c', 't', 'i', 'o', 'n', ':']

def primaryKey (idempotencyKey : Option Text) (txId : Text) : Text :=
  match idempotencyKey with
  | some key => idempotencyPrefix ++ key
  | none => transactionPrefix ++ txId

def encodedUpsertLen (entry : LedgerEntry) : ℕ := (J.encode (.upsert entry)).length + 1

namespace Ledger

/-! ### Memory -/

def removeEntry (s : Ledger) (key : Text) : Ledger :=
  match s.entries.lookup key with
  | none => s
  | some entry =>
    { s with
      entries := s.entries.erase key
      liveBytes := s.liveBytes - encodedUpsertLen J entry
      txIndex := s.txIndex.erase entry.txId }

def indexEntry (s : Ledger) (entry : LedgerEntry) : Ledger :=
  { s with
    tupleLastTs := s.tupleLastTs.insert entry.tuple
      (max ((s.tupleLastTs.lookup entry.tuple).getD 0) entry.timestamp)
    txIndex := s.txIndex.insert entry.txId entry.key
    entries := s.entries.insert entry.key entry
    liveBytes := s.liveBytes - ((s.entries.lookup entry.key).map (encodedUpsertLen J)).getD 0 +
      encodedUpsertLen J entry }

/-- An open entry past the freshness window expires. -/
def expire (horizon now : ℕ) (entry : LedgerEntry) : LedgerEntry :=
  if entry.state.isOpen ∧ entry.timestamp + horizon < now then
    { entry with state := .expired, updatedAt := now }
  else entry

def refreshExpiry (now : ℕ) (s : Ledger) : Ledger :=
  { s with entries := Table.mapValues (expire s.config.txAgeLimitSecs now) s.entries }

def recalculateLiveBytes (s : Ledger) : Ledger :=
  { s with liveBytes := Table.total (encodedUpsertLen J) s.entries }

/-! ### The log -/

def line (r : LogRecord) : Bytes := J.encode r ++ [newline]

def append (io : Io) (s : Ledger) (r : LogRecord) : Outcome Unit :=
  match io.append r with
  | .synced =>
    ({ s with
        file := some (s.file.getD [] ++ line J r)
        uncompactedBytes := s.uncompactedBytes + (line J r).length }, .ok ())
  | .failed written =>
    ({ s with file := some (s.file.getD [] ++ (line J r).take written) }, .error .other)

/-- The snapshot a compaction writes, in the order of the map. -/
def snapshot (s : Ledger) : Bytes := s.entries.values.flatMap fun entry => line J (.upsert entry)

def compact (outcome : CompactOutcome) (s : Ledger) : Ledger :=
  match outcome with
  | .replaced => { s with file := some (s.snapshot J), uncompactedBytes := 0 }
  | .failedBefore => s
  | .failedAfter => { s with file := some (s.snapshot J) }

def maybeCompactBestEffort (outcome : CompactOutcome) (s : Ledger) : Ledger :=
  if s.config.compactionThresholdBytes < s.uncompactedBytes then s.compact J outcome else s

/-! ### Pruning -/

/-- Terminal entries outside `removed`, oldest update first. -/
def terminalOutside (s : Ledger) (removed : List Text) : List LedgerEntry :=
  (s.entries.values.filter fun e => e.state.isTerminal && !removed.contains e.key).mergeSort
    fun a b => a.updatedAt ≤ b.updatedAt

/-- Drop entries, oldest first, until at most `target` bytes remain. -/
def dropForBytes (target : ℕ) : List LedgerEntry → ℕ → List Text
  | [], _ => []
  | e :: es, remaining =>
    if remaining ≤ target then []
    else e.key :: dropForBytes target es (remaining - encodedUpsertLen J e)

def agedKeys (s : Ledger) (now : ℕ) : List Text :=
  (s.entries.values.filter fun e => e.state.isTerminal && e.updatedAt + s.config.retentionSecs < now).map
    (·.key)

def overflowKeys (s : Ledger) (removed : List Text) (targetEntries : ℕ) : List Text :=
  if targetEntries < s.entries.values.length - removed.length then
    ((s.terminalOutside removed).take (s.entries.values.length - removed.length - targetEntries)).map (·.key)
  else []

def bytesAfter (s : Ledger) (removed : List Text) : ℕ :=
  s.liveBytes - (removed.map fun key => ((s.entries.lookup key).map (encodedUpsertLen J)).getD 0).sum

def pruneKeys (s : Ledger) (now targetEntries targetBytes : ℕ) : List Text :=
  let aged := s.agedKeys now
  let removed := aged ++ s.overflowKeys aged targetEntries
  removed ++ dropForBytes J targetBytes (s.terminalOutside removed) (s.bytesAfter J removed)

/-- Delete the keys one by one: the log first, then memory; the first failure stops. -/
def deleteAll (io : Io) : List Text → Ledger → Outcome ℕ
  | [], s => (s, .ok 0)
  | key :: keys, s =>
    match s.entries.lookup key with
    | none => deleteAll io keys s
    | some entry =>
      match s.append J io (.delete key entry.txId) with
      | (s', .error e) => (s', .error e)
      | (s', .ok ()) =>
        match deleteAll io keys (s'.removeEntry J key) with
        | (t, .error e) => (t, .error e)
        | (t, .ok count) => (t, .ok (count + 1))

def pruneDurable (io : Io) (s : Ledger) (now targetEntries targetBytes : ℕ) : Outcome ℕ :=
  let removed := s.pruneKeys J now targetEntries targetBytes
  if removed = [] then (s, .ok 0)
  else
    match deleteAll J io (removed.mergeSort fun a b => a ≤ b) s with
    | (s', .error e) => (s', .error e)
    | (s', .ok count) =>
      (({ s' with tupleLastTs := Table.keep (fun ts => decide (now ≤ ts)) s'.tupleLastTs } :
        Ledger).maybeCompactBestEffort J io.compactAfterPrune, .ok count)

/-! ### Operations -/

/-- `last.saturating_add(1)` stays at the largest `u64`. -/
def allocateTimestamp (s : Ledger) (tuple : PaymentTuple) (now : ℕ) : Ledger × Option ℕ :=
  let candidate := match s.tupleLastTs.lookup tuple with
    | some last => max now (min (last + 1) u64Max)
    | none => now
  if now + s.config.futureAllocationMarginSecs < candidate then (s, none)
  else ({ s with tupleLastTs := s.tupleLastTs.insert tuple candidate }, some candidate)

/-- The four-case contract, on refreshed entries. -/
def submissionCheck (s : Ledger) (idempotencyKey txId : Text) : SubmissionCheck :=
  let key := primaryKey (some idempotencyKey) txId
  match s.entries.lookup key with
  | some entry => if entry.txId = txId then .duplicate entry else .conflict entry
  | none =>
    match s.txIndex.lookup txId with
    | none => .new
    | some owner =>
      if owner = key then .new
      else
        match s.entries.lookup owner with
        | none => .new
        | some entry => .collision entry

def checkSubmission (s : Ledger) (idempotencyKey txId : Text) (now : ℕ) : Ledger × SubmissionCheck :=
  (s.refreshExpiry now, (s.refreshExpiry now).submissionCheck idempotencyKey txId)

def newEntry (idempotencyKey : Option Text) (tuple : PaymentTuple) (timestamp : ℕ) (txId : Text)
    (signedTx : Option Text) (now : ℕ) : LedgerEntry where
  key := primaryKey idempotencyKey txId
  idempotencyKey
  tuple
  timestamp
  txId
  signedTx
  state := .reserved
  createdAt := now
  updatedAt := now

/-- Make room for `entry`: the entry alone must fit, and pruning must free a slot and its bytes. -/
def makeRoom (io : Io) (s : Ledger) (entry : LedgerEntry) (now : ℕ) : Outcome Unit :=
  let need := encodedUpsertLen J entry
  if s.config.maxLiveBytes < need then (s, .error .storageFull)
  else
    match s.pruneDurable J io now (s.config.maxEntries - 1) (s.config.maxLiveBytes - need) with
    | (s', .error e) => (s', .error e)
    | (s', .ok _) =>
      if s.config.maxEntries ≤ s'.entries.values.length then (s', .error .storageFull)
      else if s.config.maxLiveBytes - need < s'.liveBytes then (s', .error .storageFull)
      else (s', .ok ())

/-- Write the entry to the log, then to memory. -/
def commitEntry (io : Io) (s : Ledger) (entry : LedgerEntry) : Outcome LedgerEntry :=
  match s.append J io (.upsert entry) with
  | (s', .error e) => (s', .error e)
  | (s', .ok ()) => ((s'.indexEntry J entry).maybeCompactBestEffort J io.compact, .ok entry)

def record (io : Io) (s : Ledger) (idempotencyKey : Option Text) (tuple : PaymentTuple) (timestamp : ℕ)
    (txId : Text) (signedTx : Option Text) (now : ℕ) : Outcome LedgerEntry :=
  let key := primaryKey idempotencyKey txId
  match s.entries.lookup key with
  | some existing =>
    if existing.txId ≠ txId then (s, .error .alreadyExists) else (s, .ok existing)
  | none =>
    if (s.txIndex.lookup txId).any (· ≠ key) then (s, .error .alreadyExists)
    else
      let entry := newEntry idempotencyKey tuple timestamp txId signedTx now
      match ((s.refreshExpiry now).recalculateLiveBytes J).makeRoom J io entry now with
      | (s', .error e) => (s', .error e)
      | (s', .ok ()) => s'.commitEntry J io entry

def releaseKey (io : Io) (s : Ledger) (key txId : Text) : Outcome Bool :=
  match s.entries.lookup key with
  | none => (s, .ok false)
  | some entry =>
    if entry.txId ≠ txId ∨ entry.state ≠ .reserved then (s, .ok false)
    else
      match s.append J io (.delete key txId) with
      | (s', .error e) => (s', .error e)
      | (s', .ok ()) => ((s'.removeEntry J key).maybeCompactBestEffort J io.compact, .ok true)

def releaseReservation (io : Io) (s : Ledger) (idempotencyKey txId : Text) : Outcome Bool :=
  s.releaseKey J io (primaryKey (some idempotencyKey) txId) txId

def releaseLocalReservation (io : Io) (s : Ledger) (txId : Text) : Outcome Bool :=
  s.releaseKey J io (primaryKey none txId) txId

def setState (state : EntryState) (updatedAt : ℕ) (s : Ledger) (key : Text) : Ledger :=
  match s.entries.lookup key with
  | none => s
  | some entry => { s with entries := s.entries.insert key { entry with state, updatedAt } }

def updateState (io : Io) (s : Ledger) (txId : Text) (state : EntryState) (now : ℕ) : Outcome Unit :=
  match s.txIndex.lookup txId with
  | none => (s, .ok ())
  | some key =>
    match s.append J io (.state txId state now) with
    | (s', .error e) => (s', .error e)
    | (s', .ok ()) => ((s'.setState state now key).maybeCompactBestEffort J io.compact, .ok ())

def findByKey (s : Ledger) (idempotencyKey : Text) (now : ℕ) : Ledger × Option LedgerEntry :=
  (s.refreshExpiry now, (s.refreshExpiry now).entries.lookup (primaryKey (some idempotencyKey) []))

def findByTxId (s : Ledger) (txId : Text) (now : ℕ) : Ledger × Option LedgerEntry :=
  (s.refreshExpiry now, (s.txIndex.lookup txId).bind (s.refreshExpiry now).entries.lookup)

def prune (io : Io) (s : Ledger) (now : ℕ) : Outcome ℕ :=
  ((s.refreshExpiry now).recalculateLiveBytes J).pruneDurable J io now s.config.maxEntries
    s.config.maxLiveBytes

/-! ### Opening the log -/

/-- Keys written before the namespaces are read as transaction keys, unless they name an
entry with an idempotency key. -/
def normalizeKey (s : Ledger) (key : Text) : Text :=
  if idempotencyPrefix.isPrefixOf key ∨ transactionPrefix.isPrefixOf key then key
  else if ((s.entries.lookup key).bind (·.idempotencyKey)).isSome then idempotencyPrefix ++ key
  else transactionPrefix ++ key

def apply (s : Ledger) : LogRecord → Except ErrorKind Ledger
  | .upsert logged =>
    let entry := { logged with key := primaryKey logged.idempotencyKey logged.txId }
    if (s.entries.lookup entry.key).any (·.txId ≠ entry.txId) then .error .invalidData
    else if (s.txIndex.lookup entry.txId).any (· ≠ entry.key) then .error .invalidData
    else .ok (s.indexEntry J entry)
  | .state txId state updatedAt =>
    match s.txIndex.lookup txId with
    | none => .error .invalidData
    | some key =>
      match s.entries.lookup key with
      | none => .error .invalidData
      | some _ => .ok (s.setState state updatedAt key)
  | .delete logged txId =>
    let key := s.normalizeKey logged
    if (s.entries.lookup key).any (·.txId = txId) then .ok (s.removeEntry J key) else .ok s

/-- The complete lines of a file, and what follows the last newline. -/
def splitLines : Bytes → List Bytes × Bytes
  | [] => ([], [])
  | b :: bs =>
    match splitLines bs with
    | ([], tail) => if b = newline then ([[]], tail) else ([], b :: tail)
    | (l :: ls, tail) => if b = newline then ([] :: l :: ls, tail) else ((b :: l) :: ls, tail)

def applyLine (s : Ledger) (l : Bytes) : Except ErrorKind Ledger :=
  if l = [] then .ok s
  else
    match J.decode l with
    | none => .error .invalidData
    | some r => s.apply J r

def applyLines : List Bytes → Ledger → Except ErrorKind Ledger
  | [], s => .ok s
  | l :: ls, s =>
    match s.applyLine J l with
    | .error e => .error e
    | .ok s' => applyLines ls s'

def blank (config : LedgerConfig) (file : Option Bytes) : Ledger where
  config
  entries := ∅
  txIndex := ∅
  tupleLastTs := ∅
  uncompactedBytes := 0
  liveBytes := 0
  file

/-- A final line without its newline is accepted and repaired if it is complete, cut off
otherwise. -/
def applyTail (bytes tail : Bytes) (s : Ledger) : Except ErrorKind Ledger :=
  if tail = [] then .ok { s with file := some bytes, uncompactedBytes := bytes.length }
  else
    match J.decode tail with
    | some r =>
      match s.apply J r with
      | .error e => .error e
      | .ok s' => .ok { s' with file := some (bytes ++ [newline]), uncompactedBytes := bytes.length + 1 }
    | none =>
      .ok { s with
        file := some (bytes.take (bytes.length - tail.length))
        uncompactedBytes := bytes.length - tail.length }

/-- `WalletLedger::open` on what lies at the path. -/
def load (config : LedgerConfig) (file : Option Bytes) : Except ErrorKind Ledger :=
  match file with
  | none => .ok (blank config none)
  | some bytes =>
    match applyLines J (splitLines bytes).1 (blank config file) with
    | .error e => .error e
    | .ok s =>
      match s.applyTail J bytes (splitLines bytes).2 with
      | .error e => .error e
      | .ok s' => .ok (s'.recalculateLiveBytes J)

end Ledger

/-! ### Runs -/

/-- A call of the ledger. -/
inductive LedgerOp where
  | allocateTimestamp (tuple : PaymentTuple) (now : ℕ)
  | checkSubmission (idempotencyKey txId : Text) (now : ℕ)
  | record (idempotencyKey : Option Text) (tuple : PaymentTuple) (timestamp : ℕ) (txId : Text)
      (signedTx : Option Text) (now : ℕ)
  | releaseReservation (idempotencyKey txId : Text)
  | releaseLocalReservation (txId : Text)
  | updateState (txId : Text) (state : EntryState) (now : ℕ)
  | findByKey (idempotencyKey : Text) (now : ℕ)
  | findByTxId (txId : Text) (now : ℕ)
  | prune (now : ℕ)

/-- Whether an operation was acknowledged, the value dropped. -/
def done {α : Type} (x : Outcome α) : Outcome Unit := (x.1, x.2.map fun _ => ())

def perform (io : Io) (s : Ledger) : LedgerOp → Outcome Unit
  | .allocateTimestamp tuple now => ((s.allocateTimestamp tuple now).1, .ok ())
  | .checkSubmission key txId now => ((s.checkSubmission key txId now).1, .ok ())
  | .record key tuple timestamp txId signedTx now => done (s.record J io key tuple timestamp txId signedTx now)
  | .releaseReservation key txId => done (s.releaseReservation J io key txId)
  | .releaseLocalReservation txId => done (s.releaseLocalReservation J io txId)
  | .updateState txId state now => s.updateState J io txId state now
  | .findByKey key now => ((s.findByKey key now).1, .ok ())
  | .findByTxId txId now => ((s.findByTxId txId now).1, .ok ())
  | .prune now => done (s.prune J io now)

/-- An operation, a change in the order the entries are walked in, or a restart from the file. -/
inductive LedgerEvent where
  | call (io : Io) (op : LedgerOp)
  | rehash (entries : Table Text LedgerEntry)
  | restart

inductive LedgerStep : Ledger → LedgerEvent → Ledger → Prop
  | call (s : Ledger) (io : Io) (op : LedgerOp) : LedgerStep s (.call io op) (perform J io s op).1
  | rehash {s : Ledger} {entries : Table Text LedgerEntry} :
    entries.entries.Perm s.entries.entries → LedgerStep s (.rehash entries) { s with entries }
  | restart {s t : Ledger} : Ledger.load J s.config s.file = .ok t → LedgerStep s .restart t

abbrev LedgerRun : Ledger → List (Ledger × LedgerEvent) → Ledger → Prop := Trace.Run (LedgerStep J)

/-! ### A small JSON to run ledgers with

A record is a list of numbers, each in unary with a comma behind it, between braces. -/

/-- A way to write `α` as numbers and to read it back from the front of a list. -/
structure Code (α : Type) where
  print : α → List ℕ
  parse : List ℕ → Option (α × List ℕ)
  law : ∀ a rest, parse (print a ++ rest) = some (a, rest)

namespace Code

variable {α β : Type}

def nat : Code ℕ where
  print n := [n]
  parse
    | n :: rest => some (n, rest)
    | [] => none
  law _ _ := rfl

def pair (c : Code α) (d : Code β) : Code (α × β) where
  print p := c.print p.1 ++ d.print p.2
  parse l := (c.parse l).bind fun (a, l) => (d.parse l).map fun (b, l) => ((a, b), l)
  law p rest := by simp [List.append_assoc, c.law, d.law]

/-- Write `β` as the `α` that `f` makes of it. -/
def via (c : Code α) (f : β → α) (g : α → β) (h : ∀ b, g (f b) = b) : Code β where
  print b := c.print (f b)
  parse l := (c.parse l).map fun (a, l) => (g a, l)
  law b rest := by simp [c.law, h]

def parseMany (c : Code α) : ℕ → List ℕ → Option (List α × List ℕ)
  | 0, l => some ([], l)
  | n + 1, l => (c.parse l).bind fun (a, l) => (parseMany c n l).map fun (as, l) => (a :: as, l)

theorem parseMany_print (c : Code α) : ∀ (as : List α) (rest : List ℕ),
    parseMany c as.length (as.flatMap c.print ++ rest) = some (as, rest)
  | [], _ => rfl
  | a :: as, rest => by
    simp only [List.flatMap_cons, List.append_assoc, List.length_cons, parseMany, c.law,
      Option.bind_some, parseMany_print c as rest, Option.map_some]

def list (c : Code α) : Code (List α) where
  print as := as.length :: as.flatMap c.print
  parse
    | n :: l => parseMany c n l
    | [] => none
  law as rest := parseMany_print c as rest

def option (c : Code α) : Code (Option α) := c.list.via Option.toList List.head? fun o => by cases o <;> rfl

def int : Code ℤ :=
  (nat.pair nat).via (fun n => (n.toNat, (-n).toNat)) (fun p => (p.1 : ℤ) - p.2) fun n => by
    dsimp only
    omega

def text : Code Text := (nat.via Char.toNat Char.ofNat Char.ofNat_toNat).list

def tuple : Code PaymentTuple :=
  ((text.pair text).pair (int.pair int)).via (fun t => ((t.sender, t.recipient), t.amountUnits, t.feeUnits))
    (fun p => ⟨p.1.1, p.1.2, p.2.1, p.2.2⟩) fun _ => rfl

/-- The state's number, its height and its reason. -/
def stateParts : EntryState → ℕ × ℕ × Text
  | .reserved => (0, 0, [])
  | .pending => (1, 0, [])
  | .confirmed height => (2, height, [])
  | .rejected reason => (3, 0, reason)
  | .expired => (4, 0, [])
  | .ambiguousExisting => (5, 0, [])

def stateOf : ℕ × ℕ × Text → EntryState
  | (0, _, _) => .reserved
  | (1, _, _) => .pending
  | (2, height, _) => .confirmed height
  | (3, _, reason) => .rejected reason
  | (4, _, _) => .expired
  | _ => .ambiguousExisting

def state : Code EntryState := (nat.pair (nat.pair text)).via stateParts stateOf fun s => by cases s <;> rfl

def entry : Code LedgerEntry :=
  ((text.pair (option text)).pair ((tuple.pair nat).pair ((text.pair (option text)).pair
    (state.pair (nat.pair nat))))).via
    (fun e => ((e.key, e.idempotencyKey), (e.tuple, e.timestamp), (e.txId, e.signedTx), e.state, e.createdAt,
      e.updatedAt))
    (fun p => ⟨p.1.1, p.1.2, p.2.1.1, p.2.1.2, p.2.2.1.1, p.2.2.1.2, p.2.2.2.1, p.2.2.2.2.1, p.2.2.2.2.2⟩)
    fun _ => rfl

/-- One of three lists holds the record's fields. -/
def recordParts : LogRecord → List LedgerEntry × List (Text × EntryState × ℕ) × List (Text × Text)
  | .upsert e => ([e], [], [])
  | .state txId st updatedAt => ([], [(txId, st, updatedAt)], [])
  | .delete key txId => ([], [], [(key, txId)])

def recordOf : List LedgerEntry × List (Text × EntryState × ℕ) × List (Text × Text) → LogRecord
  | (e :: _, _, _) => .upsert e
  | ([], (txId, st, updatedAt) :: _, _) => .state txId st updatedAt
  | ([], [], (key, txId) :: _) => .delete key txId
  | ([], [], []) => .delete [] []

def record : Code LogRecord :=
  (entry.list.pair ((text.pair (state.pair nat)).list.pair (text.pair text).list)).via recordParts recordOf
    fun r => by cases r <;> rfl

end Code

def unary (n : ℕ) : Bytes := List.replicate n 49 ++ [44]

/-- The numbers of a unary text; `acc` is the number being read. -/
def readUnary : Bytes → ℕ → Option (List ℕ)
  | [], _ => some []
  | b :: bs, acc =>
    if b = 44 then (readUnary bs 0).map (acc :: ·)
    else if b = 49 then readUnary bs (acc + 1)
    else none

def toyJson : Json where
  encode r := 123 :: ((Code.record.print r).flatMap unary ++ [125])
  decode
    | 123 :: bytes =>
      if bytes.getLast? = some 125 then
        (readUnary bytes.dropLast 0).bind fun ns => (Code.record.parse ns).map (·.1)
      else none
    | _ => none

theorem readUnary_replicate : ∀ (n acc : ℕ) (rest : Bytes),
    readUnary (List.replicate n 49 ++ 44 :: rest) acc = (readUnary rest 0).map ((acc + n) :: ·)
  | 0, acc, rest => by simp [readUnary]
  | n + 1, acc, rest => by
    rw [List.replicate_succ, List.cons_append, readUnary, if_neg (by decide), if_pos rfl,
      readUnary_replicate n (acc + 1) rest]
    congr 2
    funext l
    congr 1
    omega

theorem readUnary_flatMap : ∀ ns : List ℕ, readUnary (ns.flatMap unary) 0 = some ns
  | [] => rfl
  | n :: ns => by
    rw [List.flatMap_cons, unary, List.append_assoc, List.singleton_append, readUnary_replicate,
      readUnary_flatMap ns]
    simp

theorem mem_flatMap_unary {ns : List ℕ} {b : UInt8} (h : b ∈ ns.flatMap unary) : b = 49 ∨ b = 44 := by
  obtain ⟨n, -, hb⟩ := List.mem_flatMap.mp h
  simp only [unary, List.mem_append, List.mem_replicate, List.mem_singleton] at hb
  rcases hb with ⟨-, hb⟩ | hb
  · exact .inl hb
  · exact .inr hb

theorem toyJson_ok : JsonOk toyJson where
  roundTrip r := by
    have hlaw := Code.record.law r []
    rw [List.append_nil] at hlaw
    simp [toyJson, readUnary_flatMap, hlaw]
  oneLine r h := by
    simp only [toyJson, List.mem_cons, List.mem_append, List.not_mem_nil, or_false] at h
    rcases h with h | h | h
    · exact absurd h (by decide)
    · rcases mem_flatMap_unary h with h | h <;> exact absurd h (by decide)
    · exact absurd h (by decide)
  torn r n h := by
    cases n with
    | zero => rfl
    | succ n =>
      simp only [toyJson, List.length_cons, List.length_append, List.length_nil] at h
      simp only [toyJson, List.take_succ_cons]
      rw [List.take_append_of_le_length (by omega), if_neg]
      intro hlast
      have hmem := List.mem_of_mem_take (List.mem_of_getLast? hlast)
      rcases mem_flatMap_unary hmem with h | h <;> exact absurd h (by decide)

namespace Sample

def tuple : PaymentTuple := ⟨['f'], ['g'], 7, 1⟩
def opened (config : LedgerConfig) : Ledger := .blank config none
def reserve (key : Char) (timestamp : ℕ) (txId : Char) (now : ℕ) : LedgerOp :=
  .record (some [key]) tuple timestamp [txId] none now

end Sample

end Alphanumeric.PaymentLedger
