/-
# The node's key file

`mgmt.rs`: creating, importing, byRename and loading wallets over `private.key`. Every
change rewrites the whole file through one temporary and a rename, under a timeout. A
timeout drops the future but not the file operation it was waiting for: that one may have
been made, or stays in flight and is made at any later moment, of a later call too. A
script says what becomes of each await, so that a run is a list of calls with their
scripts.

Key definitions: `KeyDisk`, `FileOp`, `awaitOp`, `writeSecretFile`, `persistWalletKeys`,
`createNewWallet`, `importWallet`, `renameWallet`, `loadWallets`, `KeyEvent.step`.
Key theorems: `writeSecretFile_wrote`, `step_sound`, `key_file_keeps_every_key`.
-/
import Alphanumeric.Lib.Disk
import Alphanumeric.Types

namespace Alphanumeric

namespace KeyFile

/-! ### Records -/

/-- A wallet held in memory, under its name. -/
structure Wallet where
  address : Text
  privateKey : Option (List UInt8)
  isEncrypted : Bool
deriving DecidableEq

structure WalletKeyData where
  walletName : Text
  walletAddress : Text
  privateKey : Option (List UInt8)
  lastSyncTimestamp : ℕ
  isEncrypted : Bool
  keyVerificationHash : List UInt8
deriving DecidableEq

/-- The key a record stands for. -/
def WalletKeyData.wallet (r : WalletKeyData) : Wallet := ⟨r.walletAddress, r.privateKey, r.isEncrypted⟩

/-- `serde_json` on the records, and SHA-256. -/
structure Env where
  encode : List WalletKeyData → List UInt8
  decode : List UInt8 → Option (List WalletKeyData)
  decode_encode : ∀ keys, decode (encode keys) = some keys
  sha256 : List UInt8 → List UInt8

variable (E : Env)

def WalletKeyData.new (name : Text) (w : Wallet) (now : ℕ) : WalletKeyData where
  walletName := name
  walletAddress := w.address
  privateKey := w.privateKey
  lastSyncTimestamp := now
  isEncrypted := w.isEncrypted
  keyVerificationHash :=
    match w.privateKey with
    | some key => E.sha256 (key ++ [if w.isEncrypted then 1 else 0])
    | none => List.replicate 32 0

def uniqueNames (keys : List WalletKeyData) : Prop := (keys.map (·.walletName)).Nodup

def uniqueAddresses (keys : List WalletKeyData) : Prop := (keys.map (·.walletAddress)).Nodup

instance (keys : List WalletKeyData) : Decidable (uniqueNames keys) :=
  inferInstanceAs (Decidable (List.Nodup _))

instance (keys : List WalletKeyData) : Decidable (uniqueAddresses keys) :=
  inferInstanceAs (Decidable (List.Nodup _))

/-! ### Disk -/

/-- The two names, and the files they stand for. -/
structure KeyDisk where
  keyFile : Option ℕ
  temporary : Option ℕ
  files : ℕ → File
  /-- The number of the next new file. -/
  next : ℕ

namespace KeyDisk

def bytes (d : KeyDisk) : Option (List UInt8) := d.keyFile.map fun i => (d.files i).bytes

def setFile (d : KeyDisk) (i : ℕ) (f : File) : KeyDisk := { d with files := Function.update d.files i f }

def openTruncate (d : KeyDisk) : KeyDisk :=
  match d.temporary with
  | some i => d.setFile i ⟨[], false⟩
  | none => { d.setFile d.next ⟨[], false⟩ with temporary := some d.next, next := d.next + 1 }

/-- A write at the start of the file. -/
def write (d : KeyDisk) (i : ℕ) (bytes : List UInt8) : KeyDisk :=
  d.setFile i ⟨bytes ++ (d.files i).bytes.drop bytes.length, false⟩

def sync (d : KeyDisk) (i : ℕ) : KeyDisk := d.setFile i { d.files i with synced := true }

def rename (d : KeyDisk) : KeyDisk :=
  match d.temporary with
  | some i => { d with keyFile := some i, temporary := none }
  | none => d

/-- A crash keeps `k i` bytes of each unsynced file `i`. -/
def crash (k : ℕ → ℕ) (d : KeyDisk) : KeyDisk :=
  { d with files := fun i =>
      if (d.files i).synced then d.files i else { d.files i with bytes := (d.files i).bytes.take (k i) } }

end KeyDisk

/-- The operations of `write_secret_file`; an open file is known by its number. -/
inductive FileOp where
  | openTruncate
  | write (file : ℕ) (bytes : List UInt8)
  | sync (file : ℕ)
  | rename
  | syncDirectory
deriving DecidableEq

namespace FileOp

def apply : FileOp → KeyDisk → KeyDisk
  | .openTruncate, d => d.openTruncate
  | .write i bytes, d => d.write i bytes
  | .sync i, d => d.sync i
  | .rename, d => d.rename
  | .syncDirectory, d => d

/-- There is something to rename. -/
def possible : FileOp → KeyDisk → Bool
  | .rename, d => d.temporary.isSome
  | _, _ => true

/-- What a failed operation leaves: part of a write. -/
def applyFailed (k : ℕ) : FileOp → KeyDisk → KeyDisk
  | .write i bytes, d => d.write i (bytes.take k)
  | _, d => d

end FileOp

/-! ### Awaits -/

/-- What becomes of an operation that is awaited. One that times out, or that a crash stops,
was made (`true`) or not yet. -/
inductive Fate where
  | done
  | failed (written : ℕ)
  | timedOut (made : Bool)
  | crashed (made : Bool)
deriving DecidableEq

/-- An await: which operations in flight are made meanwhile, and its own fate. -/
structure Await where
  lands : List ℕ
  fate : Fate

structure KeyState where
  disk : KeyDisk
  /-- What dropped futures left to the blocking threads; the flag is a ghost that marks a
  write by `rename_wallet`. -/
  inFlight : List (FileOp × Bool)
  wallets : List (Text × Wallet)

inductive KeyError where
  | read
  | parse
  | duplicateNames
  | duplicateAddresses
  | nameTaken
  | nameUnchanged
  | nameEmpty
  | walletNotFound
  | badSeed
  | alreadyImported
  | keyGeneration
  | write
  | timedOut
  | terminal
deriving DecidableEq

inductive Outcome where
  | ok
  | err (e : KeyError)
  | crashed
deriving DecidableEq

def landOne (s : KeyState) (i : ℕ) : KeyState :=
  match s.inFlight[i]? with
  | none => s
  | some p => { s with disk := p.1.apply s.disk, inFlight := s.inFlight.eraseIdx i }

def land (lands : List ℕ) (s : KeyState) : KeyState := lands.foldl landOne s

def awaitOp (a : Await) (byRename : Bool) (op : FileOp) (s : KeyState) : Outcome × KeyState :=
  let s := land a.lands s
  match a.fate with
  | .done =>
    if op.possible s.disk then (.ok, { s with disk := op.apply s.disk }) else (.err .write, s)
  | .failed k => (.err .write, { s with disk := op.applyFailed k s.disk })
  | .timedOut true => (.err .timedOut, { s with disk := op.apply s.disk })
  | .timedOut false => (.err .timedOut, { s with inFlight := s.inFlight ++ [(op, byRename)] })
  | .crashed true => (.crashed, { s with disk := op.apply s.disk })
  | .crashed false => (.crashed, s)

/-- `?`: go on after success only. -/
def andThen (r : Outcome × KeyState) (k : KeyState → Outcome × KeyState) : Outcome × KeyState :=
  match r.1 with
  | .ok => k r.2
  | o => (o, r.2)

/-- The script of one `write_secret_file`. -/
structure Awaits where
  opened : Await
  written : Await
  synced : Await
  renamed : Await
  directory : Await

/-- The parent directory is synced as far as that works. -/
def syncParent (a : Await) (byRename : Bool) (s : KeyState) : Outcome × KeyState :=
  match awaitOp a byRename .syncDirectory s with
  | (.err .write, s) => (.ok, s)
  | r => r

def writeSecretFile (byRename : Bool) (bytes : List UInt8) (w : Awaits) (s : KeyState) :
    Outcome × KeyState :=
  andThen (awaitOp w.opened byRename .openTruncate s) fun s =>
    let file := s.disk.temporary.getD s.disk.next
    andThen (awaitOp w.written byRename (.write file bytes) s) fun s =>
      andThen (awaitOp w.synced byRename (.sync file) s) fun s =>
        andThen (awaitOp w.renamed byRename .rename s) fun s =>
          syncParent w.directory byRename s

def persistWalletKeys (byRename : Bool) (keys : List WalletKeyData) (w : Awaits) (s : KeyState) :
    Outcome × KeyState :=
  if ¬ uniqueNames keys then (.err .duplicateNames, s)
  else if ¬ uniqueAddresses keys then (.err .duplicateAddresses, s)
  else writeSecretFile byRename (E.encode keys) w s

/-! ### Calls -/

/-- `read_to_string` of the key file: what lands meanwhile, and whether it fails for another
reason than a missing file. -/
structure Read where
  lands : List ℕ
  fails : Bool

/-- Read and parse; `none` is a missing file. -/
def readKeys (r : Read) (s : KeyState) : Except KeyError (Option (List WalletKeyData)) × KeyState :=
  let s := land r.lands s
  if r.fails then (.error .read, s)
  else
    match s.disk.bytes with
    | none => (.ok none, s)
    | some bytes =>
      match E.decode bytes with
      | none => (.error .parse, s)
      | some keys => (.ok (some keys), s)

/-- Read the records, which must be there and have distinct names. -/
def withKeys (r : Read) (s : KeyState) (k : List WalletKeyData → KeyState → Outcome × KeyState) :
    Outcome × KeyState :=
  match readKeys E r s with
  | (.error e, s) => (.err e, s)
  | (.ok none, s) => (.err .read, s)
  | (.ok (some keys), s) => if uniqueNames keys then k keys s else (.err .duplicateNames, s)

def containsName (wallets : List (Text × Wallet)) (name : Text) : Bool := wallets.any (·.1 = name)

def insertWallet (wallets : List (Text × Wallet)) (name : Text) (w : Wallet) : List (Text × Wallet) :=
  (name, w) :: wallets.filter (·.1 ≠ name)

def automaticName (index : ℕ) : Text := ['w', 'a', 'l', 'l', 'e', 't', '_'] ++ Nat.toDigits 10 index

/-- `select_new_wallet_name`. One candidate more than there are names is enough. -/
def selectNewWalletName (requested : Option Text) (loaded : List (Text × Wallet))
    (durable : List WalletKeyData) : Option Text :=
  let taken : Text → Bool := fun name => containsName loaded name || durable.any (·.walletName = name)
  match requested with
  | some name => if taken name then none else some name
  | none =>
    ((List.range (loaded.length + durable.length + 1)).map fun i =>
      automaticName (loaded.length + 1 + i)).find? (!taken ·)

/-- Append a record, and hold the wallet once the file has it. -/
def addWallet (name : Text) (w : Wallet) (now : ℕ) (keys : List WalletKeyData) (a : Awaits) (shown : Bool)
    (s : KeyState) : Outcome × KeyState :=
  andThen (persistWalletKeys E false (keys ++ [WalletKeyData.new E name w now]) a s) fun s =>
    if shown then (.ok, { s with wallets := insertWallet s.wallets name w }) else (.err .terminal, s)

/-- `create_new_wallet`: `fresh` is the generated key, `shown` says whether the terminal took
what is printed after the file is written. -/
def createNewWallet (requested : Option Text) (fresh : Option Wallet) (now : ℕ) (r : Read) (a : Awaits)
    (shown : Bool) (s : KeyState) : Outcome × KeyState :=
  withKeys E r s fun keys s =>
    match selectNewWalletName requested s.wallets keys, fresh with
    | none, _ => (.err .nameTaken, s)
    | some _, none => (.err .keyGeneration, s)
    | some name, some w => addWallet E name w now keys a shown s

/-- `import_wallet_from_seed_into`: `wallet` is what the seed gives, if it is one. -/
def importWallet (requested : Option Text) (wallet : Option Wallet) (now : ℕ) (r : Read) (a : Awaits)
    (s : KeyState) : Outcome × KeyState :=
  match wallet with
  | none => (.err .badSeed, s)
  | some w =>
    withKeys E r s fun keys s =>
      if keys.any (·.walletAddress = w.address) then (.err .alreadyImported, s)
      else
        match selectNewWalletName requested s.wallets keys with
        | none => (.err .nameTaken, s)
        | some name => addWallet E name w now keys a true s

/-- The first record of a name gets another one. -/
def renameRecord (old new : Text) : List WalletKeyData → List WalletKeyData
  | [] => []
  | r :: keys =>
    if r.walletName = old then { r with walletName := new } :: keys else r :: renameRecord old new keys

def moveWallet (wallets : List (Text × Wallet)) (old new : Text) : List (Text × Wallet) :=
  match wallets.find? (·.1 = old) with
  | none => wallets
  | some p => insertWallet (wallets.filter (·.1 ≠ old)) new p.2

def renameWallet (old new : Text) (r : Read) (a : Awaits) (s : KeyState) : Outcome × KeyState :=
  if old = new then (.err .nameUnchanged, s)
  else if new.all isWhitespace then (.err .nameEmpty, s)
  else if !containsName s.wallets old then (.err .walletNotFound, s)
  else if containsName s.wallets new then (.err .nameTaken, s)
  else
    withKeys E r s fun keys s =>
      if keys.any (·.walletName = new) then (.err .nameTaken, s)
      else if keys.any (·.walletName = old) then
        andThen (persistWalletKeys E true (renameRecord old new keys) a s) fun s =>
          (.ok, { s with wallets := moveWallet s.wallets old new })
      else (.err .walletNotFound, s)

def defaultName : Text := ['d', 'e', 'f', 'a', 'u', 'l', 't', '_', 'w', 'a', 'l', 'l', 'e', 't']

/-- The loop of `load_wallets`: `opens` says which records decrypt. -/
def loadLoop (opens : WalletKeyData → Bool) :
    List WalletKeyData → List (Text × Wallet) → Option (List (Text × Wallet))
  | [], wallets => some wallets
  | r :: keys, wallets =>
    if r.privateKey.isSome && opens r then
      if containsName wallets r.walletName then none
      else loadLoop opens keys (insertWallet wallets r.walletName r.wallet)
    else loadLoop opens keys wallets

/-- `load_wallets` in a new process, with `create_default_wallet` when there is no file. -/
def loadWallets (opens : WalletKeyData → Bool) (fresh : Option Wallet) (now : ℕ) (r : Read) (a : Awaits)
    (shown : Bool) (s : KeyState) : Outcome × KeyState :=
  match readKeys E r s with
  | (.error e, s) => (.err e, s)
  | (.ok none, s) =>
    match fresh with
    | none => (.err .keyGeneration, s)
    | some w => addWallet E defaultName w now [] a shown s
  | (.ok (some keys), s) =>
    if uniqueNames keys then
      match loadLoop opens keys [] with
      | none => (.err .duplicateNames, s)
      | some wallets => (.ok, { s with wallets := wallets })
    else (.err .duplicateNames, s)

/-! ### Runs -/

/-- The process is gone; `lands` and `k` say what of its last operations the disk kept. -/
def reboot (k : ℕ → ℕ) (s : KeyState) : KeyState := { disk := s.disk.crash k, inFlight := [], wallets := [] }

inductive KeyEvent where
  | create (requested : Option Text) (fresh : Option Wallet) (now : ℕ) (r : Read) (a : Awaits) (shown : Bool)
  | importSeed (requested : Option Text) (wallet : Option Wallet) (now : ℕ) (r : Read) (a : Awaits)
  | rename (old new : Text) (r : Read) (a : Awaits)
  | background (lands : List ℕ)
  | launch (lands : List ℕ) (kept : ℕ → ℕ) (opens : WalletKeyData → Bool) (fresh : Option Wallet) (now : ℕ)
    (r : Read) (a : Awaits) (shown : Bool)

namespace KeyEvent

def run : KeyEvent → KeyState → Outcome × KeyState
  | .create requested fresh now r a shown, s => createNewWallet E requested fresh now r a shown s
  | .importSeed requested wallet now r a, s => importWallet E requested wallet now r a s
  | .rename old new r a, s => renameWallet E old new r a s
  | .background lands, s => (.ok, land lands s)
  | .launch lands kept opens fresh now r a shown, s =>
    loadWallets E opens fresh now r a shown (reboot kept (land lands s))

/-- A call that crashes ends the process. -/
def step (kept : ℕ → ℕ) (e : KeyEvent) (s : KeyState) : Outcome × KeyState :=
  match e.run E s with
  | (.crashed, s) => (.crashed, reboot kept s)
  | r => r

end KeyEvent

/-! ### Files on the side -/

variable {E}

namespace KeyDisk

/-- Both names stand for files that exist, never for the same one. -/
structure WF (d : KeyDisk) : Prop where
  key_lt : ∀ i, d.keyFile = some i → i < d.next
  temporary_lt : ∀ i, d.temporary = some i → i < d.next
  apart : ∀ i, d.temporary = some i → d.keyFile ≠ some i

/-- The key file is as it was. -/
structure Side (d d' : KeyDisk) : Prop where
  wf : WF d'
  key : d'.keyFile = d.keyFile
  file : ∀ i, d.keyFile = some i → d'.files i = d.files i

theorem Side.refl {d : KeyDisk} (h : WF d) : Side d d := ⟨h, rfl, fun _ _ => rfl⟩

theorem Side.trans {d d' d'' : KeyDisk} (h : Side d d') (h' : Side d' d'') : Side d d'' := by
  refine ⟨h'.wf, h'.key.trans h.key, fun i hi => ?_⟩
  rw [h'.file i (h.key.trans hi), h.file i hi]

theorem Side.bytes {d d' : KeyDisk} (h : Side d d') : d'.bytes = d.bytes := by
  unfold KeyDisk.bytes
  rw [h.key]
  cases hk : d.keyFile with
  | none => rfl
  | some i => rw [Option.map_some, Option.map_some, h.file i hk]

theorem setFile_side {d : KeyDisk} (h : WF d) {i : ℕ} (hi : d.keyFile ≠ some i) (f : File) :
    Side d (d.setFile i f) := by
  refine ⟨⟨h.key_lt, h.temporary_lt, h.apart⟩, rfl, fun j hj => ?_⟩
  have hne : j ≠ i := by
    rintro rfl
    exact hi hj
  exact Function.update_of_ne hne _ _

theorem openTruncate_side {d : KeyDisk} (h : WF d) : Side d d.openTruncate := by
  unfold openTruncate
  split
  · rename_i i hi
    exact setFile_side h (h.apart i hi) _
  · have hnext : d.keyFile ≠ some d.next := fun hk => absurd (h.key_lt _ hk) (lt_irrefl _)
    have hside := setFile_side h hnext ⟨[], false⟩
    refine ⟨⟨fun i hi => ?_, fun i hi => ?_, fun i hi => ?_⟩, rfl, hside.file⟩
    · exact Nat.lt_succ_of_lt (h.key_lt i hi)
    · cases hi
      exact Nat.lt_succ_self _
    · cases hi
      exact hnext

theorem openTruncate_opens (d : KeyDisk) :
    ∃ i, d.openTruncate.temporary = some i ∧ d.openTruncate.files i = ⟨[], false⟩ := by
  unfold openTruncate
  split
  · rename_i i hi
    exact ⟨i, hi, Function.update_self ..⟩
  · exact ⟨d.next, rfl, Function.update_self ..⟩

theorem crash_side {d : KeyDisk} (h : WF d) (hs : ∀ i, d.keyFile = some i → (d.files i).synced = true)
    (k : ℕ → ℕ) : Side d (d.crash k) := by
  refine ⟨⟨h.key_lt, h.temporary_lt, h.apart⟩, rfl, fun i hi => ?_⟩
  simp [crash, hs i hi]

end KeyDisk

/-- The operation cannot touch the key file. -/
def Harmless : FileOp → KeyDisk → Prop
  | .openTruncate, _ => True
  | .write i _, d => d.keyFile ≠ some i
  | .sync i, d => d.keyFile ≠ some i
  | .rename, _ => False
  | .syncDirectory, _ => True

theorem Harmless.apply {op : FileOp} {d : KeyDisk} (h : Harmless op d) (hd : d.WF) :
    d.Side (op.apply d) := by
  cases op with
  | openTruncate => exact KeyDisk.openTruncate_side hd
  | write i bytes => exact KeyDisk.setFile_side hd h _
  | sync i => exact KeyDisk.setFile_side hd h _
  | rename => exact h.elim
  | syncDirectory => exact .refl hd

theorem Harmless.applyFailed {op : FileOp} {d : KeyDisk} (h : Harmless op d) (hd : d.WF) (k : ℕ) :
    d.Side (op.applyFailed k d) := by
  cases op with
  | write i bytes => exact KeyDisk.setFile_side hd h _
  | _ => exact .refl hd

/-! ### What an await leaves -/

theorem land_idle {s : KeyState} (h : s.inFlight = []) (lands : List ℕ) : land lands s = s := by
  unfold land
  induction lands with
  | nil => rfl
  | cons i lands ih =>
    have hone : landOne s i = s := by simp [landOne, h]
    rw [List.foldl_cons, hone, ih]

/-- With nothing in flight, an await makes its operation, or part of it, or leaves it in flight. -/
theorem awaitOp_cases {s : KeyState} (h : s.inFlight = []) (a : Await) (byRename : Bool) (op : FileOp) :
    (awaitOp a byRename op s = (.ok, { s with disk := op.apply s.disk }) ∧ op.possible s.disk = true) ∨
    ∃ o t, awaitOp a byRename op s = (o, t) ∧ o ≠ .ok ∧
      (t = s ∨ (∃ k, t = { s with disk := op.applyFailed k s.disk }) ∨
        (t = { s with disk := op.apply s.disk } ∧ (a.fate = .timedOut true ∨ o = .crashed)) ∨
        t = { s with inFlight := [(op, byRename)] }) := by
  unfold awaitOp
  rw [land_idle h]
  cases hf : a.fate with
  | done =>
    by_cases hp : op.possible s.disk = true
    · exact .inl ⟨by simp [hp], hp⟩
    · exact .inr ⟨.err .write, s, by simp [hp], by simp, .inl rfl⟩
  | failed k => exact .inr ⟨_, _, rfl, by simp, .inr (.inl ⟨k, rfl⟩)⟩
  | timedOut made =>
    cases made with
    | true => exact .inr ⟨_, _, rfl, by simp, .inr (.inr (.inl ⟨rfl, .inl rfl⟩))⟩
    | false => exact .inr ⟨_, _, rfl, by simp, .inr (.inr (.inr (by simp [h])))⟩
  | crashed made =>
    cases made with
    | true => exact .inr ⟨_, _, rfl, by simp, .inr (.inr (.inl ⟨rfl, .inr rfl⟩))⟩
    | false => exact .inr ⟨_, _, rfl, by simp, .inl rfl⟩

/-- The key file is as it was, and nothing in flight can touch it. -/
structure Spared (s t : KeyState) : Prop where
  wallets : t.wallets = s.wallets
  side : s.disk.Side t.disk
  short : t.inFlight.length ≤ 1
  harmless : ∀ p ∈ t.inFlight, Harmless p.1 t.disk

theorem Spared.before {s s₁ t : KeyState} (hw : s₁.wallets = s.wallets) (hs : s.disk.Side s₁.disk)
    (h : Spared s₁ t) : Spared s t := ⟨h.wallets.trans hw, hs.trans h.side, h.short, h.harmless⟩

theorem awaitOp_spared {s : KeyState} (h : s.inFlight = []) (hd : s.disk.WF) (a : Await) (byRename : Bool)
    {op : FileOp} (hop : Harmless op s.disk) :
    awaitOp a byRename op s = (.ok, { s with disk := op.apply s.disk }) ∨
    ∃ o t, awaitOp a byRename op s = (o, t) ∧ o ≠ .ok ∧ Spared s t := by
  rcases awaitOp_cases h a byRename op with ⟨hok, -⟩ | ⟨o, t, hr, ho, ht⟩
  · exact .inl hok
  · refine .inr ⟨o, t, hr, ho, ?_⟩
    rcases ht with rfl | ⟨k, rfl⟩ | ⟨rfl, -⟩ | rfl
    · exact ⟨rfl, .refl hd, by simp [h], by simp [h]⟩
    · exact ⟨rfl, hop.applyFailed hd k, by simp [h], by simp [h]⟩
    · exact ⟨rfl, hop.apply hd, by simp [h], by simp [h]⟩
    · exact ⟨rfl, .refl hd, by simp, by simpa using hop⟩

/-! ### Writing the file -/

/-- The key file holds `bytes`, synced, and what is still in flight is at most a directory sync. -/
structure Installed (bytes : List UInt8) (s t : KeyState) : Prop where
  wallets : t.wallets = s.wallets
  wf : t.disk.WF
  file : ∃ i, t.disk.keyFile = some i ∧ t.disk.files i = ⟨bytes, true⟩
  short : t.inFlight.length ≤ 1
  harmless : ∀ p ∈ t.inFlight, Harmless p.1 t.disk

/-- The rename of the complete new file is in flight. -/
structure Awaited (bytes : List UInt8) (byRename : Bool) (s t : KeyState) : Prop where
  wallets : t.wallets = s.wallets
  side : s.disk.Side t.disk
  inFlight : t.inFlight = [(.rename, byRename)]
  file : ∃ i, t.disk.temporary = some i ∧ t.disk.files i = ⟨bytes, true⟩

/-- The script lets a write time out with its rename made. -/
def Awaits.cutLate (w : Awaits) : Prop := w.renamed.fate = .timedOut true ∨ ∃ made, w.directory.fate = .timedOut made

theorem andThen_ok {r : Outcome × KeyState} {s : KeyState} (h : r = (.ok, s))
    (k : KeyState → Outcome × KeyState) : andThen r k = k s := by
  rw [h]
  rfl

theorem andThen_stop {r : Outcome × KeyState} {o : Outcome} {s : KeyState} (h : r = (o, s)) (ho : o ≠ .ok)
    (k : KeyState → Outcome × KeyState) : andThen r k = (o, s) := by
  rw [h]
  cases o with
  | ok => exact absurd rfl ho
  | _ => rfl

theorem syncParent_installed {bytes : List UInt8} {s₀ s : KeyState} (h : Installed bytes s₀ s)
    (hidle : s.inFlight = []) (a : Await) (byRename : Bool) :
    Installed bytes s₀ (syncParent a byRename s).2 ∧
      ((syncParent a byRename s).1 = .ok ∨ (syncParent a byRename s).1 = .crashed ∨
        ∃ made, a.fate = .timedOut made) := by
  unfold syncParent awaitOp
  rw [land_idle hidle]
  cases hf : a.fate with
  | done => exact ⟨h, .inl rfl⟩
  | failed k => exact ⟨h, .inl rfl⟩
  | timedOut made =>
    refine ⟨?_, .inr (.inr ⟨made, rfl⟩)⟩
    cases made with
    | true => exact h
    | false => exact ⟨h.wallets, h.wf, h.file, by simp [hidle], by simp [hidle, Harmless]⟩
  | crashed made => cases made <;> exact ⟨h, .inr (.inl rfl)⟩

/-- The rename itself: made, not made, or in flight. -/
theorem renamed_wrote {bytes : List UInt8} {s₀ s : KeyState} {i : ℕ} (hw : s.wallets = s₀.wallets)
    (hside : s₀.disk.Side s.disk) (hidle : s.inFlight = []) (htmp : s.disk.temporary = some i)
    (hfile : s.disk.files i = ⟨bytes, true⟩) (byRename : Bool) (w : Awaits) {r : Outcome × KeyState}
    (hr : r = andThen (awaitOp w.renamed byRename .rename s) fun s => syncParent w.directory byRename s) :
    (r.1 ≠ .ok ∧ Spared s₀ r.2) ∨ (r.1 ≠ .ok ∧ Awaited bytes byRename s₀ r.2) ∨
      (Installed bytes s₀ r.2 ∧ (r.1 = .ok ∨ r.1 = .crashed ∨ w.cutLate)) := by
  have hdone : FileOp.apply .rename s.disk = { s.disk with keyFile := some i, temporary := none } := by
    simp [FileOp.apply, KeyDisk.rename, htmp]
  have hinst : Installed bytes s₀ { s with disk := FileOp.apply .rename s.disk } := by
    refine ⟨hw, ?_, ⟨i, by rw [hdone], by rw [hdone]; exact hfile⟩, by simp [hidle], by simp [hidle]⟩
    rw [hdone]
    refine ⟨fun j hj => ?_, by simp, by simp⟩
    cases hj
    exact hside.wf.temporary_lt i htmp
  have hspared : Spared s₀ s := ⟨hw, hside, by simp [hidle], by simp [hidle]⟩
  rcases awaitOp_cases hidle w.renamed byRename .rename with ⟨hok, -⟩ | ⟨o, t, hstop, ho, ht⟩
  · rw [hr, andThen_ok hok]
    obtain ⟨hi, ho⟩ := syncParent_installed hinst hidle w.directory byRename
    refine .inr (.inr ⟨hi, ?_⟩)
    rcases ho with ho | ho | ho
    · exact .inl ho
    · exact .inr (.inl ho)
    · exact .inr (.inr (.inr ho))
  · rw [hr, andThen_stop hstop ho]
    rcases ht with rfl | ⟨k, rfl⟩ | ⟨rfl, hcut⟩ | rfl
    · exact .inl ⟨ho, hspared⟩
    · exact .inl ⟨ho, hspared⟩
    · refine .inr (.inr ⟨hinst, ?_⟩)
      rcases hcut with hcut | hcut
      · exact .inr (.inr (.inl hcut))
      · exact .inr (.inl hcut)
    · exact .inr (.inl ⟨ho, hw, hside, rfl, i, htmp, hfile⟩)

/-- **`write_secret_file`.** Either the key file is as it was, or it is the new one, whole and
synced; if the call does not say which, the script cut it late or crashed it. -/
theorem writeSecretFile_wrote {s : KeyState} (hidle : s.inFlight = []) (hd : s.disk.WF) (byRename : Bool)
    (bytes : List UInt8) (w : Awaits) {r : Outcome × KeyState} (hr : r = writeSecretFile byRename bytes w s) :
    (r.1 ≠ .ok ∧ Spared s r.2) ∨ (r.1 ≠ .ok ∧ Awaited bytes byRename s r.2) ∨
      (Installed bytes s r.2 ∧ (r.1 = .ok ∨ r.1 = .crashed ∨ w.cutLate)) := by
  unfold writeSecretFile at hr
  -- the temporary is opened
  rcases awaitOp_spared hidle hd w.opened byRename (show Harmless .openTruncate s.disk from trivial) with
    hok | ⟨o, t, hstop, ho, ht⟩
  swap
  · rw [hr, andThen_stop hstop ho]
    exact .inl ⟨ho, ht⟩
  rw [andThen_ok hok] at hr
  obtain ⟨i, htmp, hempty⟩ := KeyDisk.openTruncate_opens s.disk
  have hside₁ : s.disk.Side s.disk.openTruncate := KeyDisk.openTruncate_side hd
  have hget : (FileOp.apply .openTruncate s.disk).temporary.getD
      (FileOp.apply .openTruncate s.disk).next = i := by simp [FileOp.apply, htmp]
  simp only [hget] at hr
  set s₁ : KeyState := { s with disk := FileOp.apply .openTruncate s.disk } with hs₁
  have hkey : s₁.disk.keyFile ≠ some i := hside₁.wf.apart i htmp
  -- written
  rcases awaitOp_spared (s := s₁) hidle hside₁.wf w.written byRename
      (show Harmless (.write i bytes) s₁.disk from hkey) with hok | ⟨o, t, hstop, ho, ht⟩
  swap
  · rw [hr, andThen_stop hstop ho]
    exact .inl ⟨ho, ht.before (show s₁.wallets = s.wallets from rfl) hside₁⟩
  rw [andThen_ok hok] at hr
  set s₂ : KeyState := { s₁ with disk := FileOp.apply (.write i bytes) s₁.disk } with hs₂
  have hside₂ : s₁.disk.Side s₂.disk := KeyDisk.setFile_side hside₁.wf hkey _
  have hkey₂ : s₂.disk.keyFile ≠ some i := hkey
  -- and synced
  rcases awaitOp_spared (s := s₂) hidle hside₂.wf w.synced byRename
      (show Harmless (.sync i) s₂.disk from hkey₂) with hok | ⟨o, t, hstop, ho, ht⟩
  swap
  · rw [hr, andThen_stop hstop ho]
    exact .inl ⟨ho, ht.before (show s₂.wallets = s.wallets from rfl) (hside₁.trans hside₂)⟩
  rw [andThen_ok hok] at hr
  have hside₃ : s₂.disk.Side (FileOp.apply (.sync i) s₂.disk) := KeyDisk.setFile_side hside₂.wf hkey₂ _
  refine renamed_wrote (s := { s₂ with disk := FileOp.apply (.sync i) s₂.disk })
    (show s₂.wallets = s.wallets from rfl) ((hside₁.trans hside₂).trans hside₃) hidle htmp ?_ byRename w hr
  have hfile₁ : s₁.disk.files i = ⟨[], false⟩ := hempty
  simp [FileOp.apply, KeyDisk.sync, KeyDisk.setFile, hs₂, KeyDisk.write, hfile₁]

/-! ### Keys are kept -/

variable (E) in
/-- What the key file holds. -/
def records (s : KeyState) : Option (List WalletKeyData) := s.disk.bytes.bind E.decode

/-- Every key of `rs` is still in `keys`, and unless a wallet is renamed under its name. -/
def Succeeds (byRename : Bool) (rs keys : List WalletKeyData) : Prop :=
  ∀ r ∈ rs, ∃ k ∈ keys, k.wallet = r.wallet ∧ (byRename = false → k.walletName = r.walletName)

variable (E) in
/-- No key of the file is lost or changed. -/
def KeptIn (s t : KeyState) : Prop :=
  ∀ rs, records E s = some rs → ∃ rs', records E t = some rs' ∧ Succeeds true rs rs'

variable (E) in
/-- Every wallet in memory is in the file under its name. -/
def Held (s : KeyState) : Prop :=
  ∀ p ∈ s.wallets, ∃ rs, records E s = some rs ∧ ∃ r ∈ rs, r.walletName = p.1 ∧ r.wallet = p.2

variable (E) in
/-- An operation in flight that may be made at any time. -/
def Pending (s : KeyState) (p : FileOp × Bool) : Prop :=
  Harmless p.1 s.disk ∨ (p.1 = .rename ∧ ∃ i keys, s.disk.temporary = some i ∧
    s.disk.files i = ⟨E.encode keys, true⟩ ∧ uniqueNames keys ∧ uniqueAddresses keys ∧
    ∀ rs, records E s = some rs → Succeeds p.2 rs keys)

variable (E) in
structure Durable (s : KeyState) : Prop where
  wf : s.disk.WF
  synced : ∀ i, s.disk.keyFile = some i → (s.disk.files i).synced = true
  unique : ∀ rs, records E s = some rs → uniqueNames rs ∧ uniqueAddresses rs
  short : s.inFlight.length ≤ 1
  pending : ∀ p ∈ s.inFlight, Pending E s p

theorem Succeeds.refl (byRename : Bool) (rs : List WalletKeyData) : Succeeds byRename rs rs :=
  fun r hr => ⟨r, hr, rfl, fun _ => rfl⟩

theorem Succeeds.toTrue {byRename : Bool} {rs keys : List WalletKeyData} (h : Succeeds byRename rs keys) :
    Succeeds true rs keys := by
  intro r hr
  obtain ⟨k, hk, hw, -⟩ := h r hr
  exact ⟨k, hk, hw, by simp⟩

theorem KeptIn.of_eq {s t : KeyState} (h : records E t = records E s) : KeptIn E s t :=
  fun rs hrs => ⟨rs, h.trans hrs, .refl _ _⟩

theorem KeptIn.trans {s t u : KeyState} (h : KeptIn E s t) (h' : KeptIn E t u) : KeptIn E s u := by
  intro rs hrs
  obtain ⟨rs', hrs', hs⟩ := h rs hrs
  obtain ⟨rs'', hrs'', hs'⟩ := h' rs' hrs'
  refine ⟨rs'', hrs'', fun r hr => ?_⟩
  obtain ⟨k, hk, hw, -⟩ := hs r hr
  obtain ⟨k', hk', hw', -⟩ := hs' k hk
  exact ⟨k', hk', hw'.trans hw, by simp⟩

theorem Held.of_eq {s t : KeyState} (h : Held E s) (hr : records E t = records E s)
    (hw : t.wallets = s.wallets) : Held E t := by
  unfold Held
  rw [hr, hw]
  exact h

theorem Held.succeeds {s t : KeyState} {keys : List WalletKeyData} (h : Held E s)
    (hk : ∀ rs, records E s = some rs → Succeeds false rs keys) (ht : records E t = some keys)
    (hw : t.wallets = s.wallets) : Held E t := by
  intro p hp
  rw [hw] at hp
  obtain ⟨rs, hrs, r, hr, hname, hwallet⟩ := h p hp
  obtain ⟨k, hkk, hkw, hkn⟩ := hk rs hrs r hr
  exact ⟨keys, ht, k, hkk, (hkn rfl).trans hname, hkw.trans hwallet⟩

theorem records_side {s : KeyState} {d : KeyDisk} (h : s.disk.Side d) (inFlight : List (FileOp × Bool))
    (wallets : List (Text × Wallet)) : records E ⟨d, inFlight, wallets⟩ = records E s := by
  unfold records
  rw [h.bytes]

/-- A change on the side, with only harmless operations in flight after it. -/
theorem Durable.side {s t : KeyState} (h : Durable E s) (hd : s.disk.Side t.disk)
    (hshort : t.inFlight.length ≤ 1) (hp : ∀ p ∈ t.inFlight, Pending E t p) : Durable E t := by
  have hrec : records E t = records E s := records_side hd _ _
  refine ⟨hd.wf, fun i hi => ?_, fun rs hrs => h.unique rs (hrec.symm.trans hrs), hshort, hp⟩
  have hi' : s.disk.keyFile = some i := hd.key.symm.trans hi
  rw [hd.file i hi']
  exact h.synced i hi'

theorem Spared.durable {s t : KeyState} (h : Durable E s) (hs : Spared s t) : Durable E t :=
  h.side hs.side hs.short fun p hp => .inl (hs.harmless p hp)

theorem Spared.records {s t : KeyState} (h : Spared s t) : records E t = records E s :=
  records_side h.side _ _

theorem records_of_file {keys : List WalletKeyData} {s : KeyState} {i : ℕ}
    (hk : s.disk.keyFile = some i) (hf : s.disk.files i = ⟨E.encode keys, true⟩) :
    records E s = some keys := by
  unfold KeyFile.records KeyDisk.bytes
  rw [hk, Option.map_some, hf]
  exact E.decode_encode keys

/-! ### Landing and dying -/

theorem reboot_sound {s : KeyState} (h : Durable E s) (k : ℕ → ℕ) :
    Durable E (reboot k s) ∧ records E (reboot k s) = records E s := by
  have hside := KeyDisk.crash_side h.wf h.synced k
  exact ⟨h.side hside (by simp [reboot]) (by simp [reboot]), records_side hside _ _⟩

/-- An operation in flight is made. -/
theorem landOne_sound {s : KeyState} (h : Durable E s) (i : ℕ) :
    Durable E (landOne s i) ∧ KeptIn E s (landOne s i) ∧ (landOne s i).inFlight ⊆ s.inFlight ∧
      (Held E s → (∀ p ∈ s.inFlight, p ≠ (.rename, true)) → Held E (landOne s i)) := by
  unfold landOne
  cases hget : s.inFlight[i]? with
  | none => exact ⟨h, .of_eq rfl, fun _ hp => hp, fun hh _ => hh⟩
  | some p =>
    have hmem : p ∈ s.inFlight := List.mem_of_getElem? hget
    have hone : s.inFlight = [p] := by
      obtain ⟨q, hq⟩ := List.length_eq_one_iff.mp
        (le_antisymm h.short (List.length_pos_of_mem hmem))
      rw [hq] at hmem ⊢
      rw [List.mem_singleton.mp hmem]
    have hi : i = 0 := by
      have hlt := (List.getElem?_eq_some_iff.mp hget).1
      rw [hone] at hlt
      simpa using hlt
    have hempty : s.inFlight.eraseIdx i = [] := by rw [hone, hi]; rfl
    simp only [hempty]
    rcases h.pending p hmem with hharm | ⟨hren, j, keys, htmp, hfile, hn, ha, hsucc⟩
    · have hside := hharm.apply h.wf
      have hrec := records_side (E := E) hside [] s.wallets
      exact ⟨h.side hside (by simp) (by simp), .of_eq hrec, by simp, fun hh _ => hh.of_eq hrec rfl⟩
    · set t : KeyState := { s with disk := p.1.apply s.disk, inFlight := [] } with ht
      have hdisk : t.disk = { s.disk with keyFile := some j, temporary := none } := by
        simp [ht, hren, FileOp.apply, KeyDisk.rename, htmp]
      have hrec : records E t = some keys := by
        refine records_of_file (i := j) ?_ ?_
        · rw [hdisk]
        · rw [hdisk]
          exact hfile
      refine ⟨⟨?_, ?_, fun rs hrs => ?_, by simp [ht], by simp [ht]⟩, fun rs hrs => ⟨keys, hrec, ?_⟩, by simp,
        fun hh hp => hh.succeeds (fun rs hrs => ?_) hrec rfl⟩
      · rw [hdisk]
        refine ⟨fun k hk => ?_, by simp, by simp⟩
        cases hk
        exact h.wf.temporary_lt j htmp
      · rw [hdisk]
        intro k hk
        cases hk
        simp [hfile]
      · rw [hrec] at hrs
        cases hrs
        exact ⟨hn, ha⟩
      · exact (hsucc rs hrs).toTrue
      · have hflag : p.2 = false := by
          rw [Bool.eq_false_iff]
          intro htrue
          exact hp p hmem (Prod.ext hren htrue)
        rw [← hflag]
        exact hsucc rs hrs

theorem land_sound : ∀ (lands : List ℕ) {s : KeyState}, Durable E s →
    Durable E (land lands s) ∧ KeptIn E s (land lands s) ∧
      (Held E s → (∀ p ∈ s.inFlight, p ≠ (.rename, true)) → Held E (land lands s))
  | [], s, h => ⟨h, .of_eq rfl, fun hh _ => hh⟩
  | i :: lands, s, h => by
    obtain ⟨hd, hk, hsub, hheld⟩ := landOne_sound h i
    obtain ⟨hd', hk', hheld'⟩ := land_sound lands hd
    exact ⟨hd', hk.trans hk', fun hh hp => hheld' (hheld hh hp) fun p hmem => hp p (hsub hmem)⟩

/-! ### The calls -/

variable (E) in
/-- What a call from `s` owes. -/
structure Safe (s : KeyState) (r : Outcome × KeyState) : Prop where
  durable : Durable E r.2
  kept : KeptIn E s r.2
  held : r.1 = .crashed ∨ Held E r.2

theorem Safe.idle {s : KeyState} (h : Durable E s) (hh : Held E s) (o : Outcome) : Safe E s (o, s) :=
  ⟨h, .of_eq rfl, .inr hh⟩

/-- Writing records that succeed those of the file. -/
theorem persistWalletKeys_sound {s : KeyState} (h : Durable E s) (hidle : s.inFlight = []) {byRename : Bool}
    {keys : List WalletKeyData} (hk : ∀ rs, records E s = some rs → Succeeds byRename rs keys) (w : Awaits)
    {r : Outcome × KeyState} (hr : r = persistWalletKeys E byRename keys w s) :
    Durable E r.2 ∧ KeptIn E s r.2 ∧ r.2.wallets = s.wallets ∧
      ((r.1 ≠ .ok ∧ records E r.2 = records E s) ∨
        (records E r.2 = some keys ∧ (r.1 = .ok ∨ r.1 = .crashed ∨ w.cutLate))) := by
  unfold persistWalletKeys at hr
  by_cases hn : uniqueNames keys
  swap
  · rw [if_pos hn] at hr
    exact hr ▸ ⟨h, .of_eq rfl, rfl, .inl ⟨by simp, rfl⟩⟩
  by_cases ha : uniqueAddresses keys
  swap
  · rw [if_neg (not_not.mpr hn), if_pos ha] at hr
    exact hr ▸ ⟨h, .of_eq rfl, rfl, .inl ⟨by simp, rfl⟩⟩
  rw [if_neg (not_not.mpr hn), if_neg (not_not.mpr ha)] at hr
  rcases writeSecretFile_wrote hidle h.wf byRename (E.encode keys) w hr with
    ⟨ho, hs⟩ | ⟨ho, hs⟩ | ⟨hs, ho⟩
  · exact ⟨hs.durable h, .of_eq hs.records, hs.wallets, .inl ⟨ho, hs.records⟩⟩
  · have hrec : records E r.2 = records E s := records_side hs.side _ _
    refine ⟨h.side hs.side (by simp [hs.inFlight]) fun p hp => ?_, .of_eq hrec, hs.wallets, .inl ⟨ho, hrec⟩⟩
    rw [hs.inFlight, List.mem_singleton] at hp
    obtain ⟨i, htmp, hfile⟩ := hs.file
    refine .inr ⟨by rw [hp], i, keys, htmp, hfile, hn, ha, fun rs hrs => ?_⟩
    rw [hp]
    exact hk rs (hrec.symm.trans hrs)
  · obtain ⟨i, hkey, hfile⟩ := hs.file
    have hrec : records E r.2 = some keys := records_of_file hkey hfile
    refine ⟨⟨hs.wf, fun j hj => ?_, fun rs hrs => ?_, hs.short, fun p hp => .inl (hs.harmless p hp)⟩,
      fun rs hrs => ⟨keys, hrec, (hk rs hrs).toTrue⟩, hs.wallets, .inr ⟨hrec, ho⟩⟩
    · rw [hkey] at hj
      cases hj
      rw [hfile]
    · rw [hrec] at hrs
      cases hrs
      exact ⟨hn, ha⟩

theorem mem_insertWallet {wallets : List (Text × Wallet)} {name : Text} {w : Wallet} {p : Text × Wallet}
    (hp : p ∈ insertWallet wallets name w) : p = (name, w) ∨ p ∈ wallets := by
  rcases List.mem_cons.mp hp with hp | hp
  · exact .inl hp
  · exact .inr (List.mem_of_mem_filter hp)

theorem addWallet_safe {s : KeyState} (h : Durable E s) (hh : Held E s) (hidle : s.inFlight = [])
    {keys : List WalletKeyData} (hk : ∀ rs, records E s = some rs → rs = keys) (name : Text) (w : Wallet)
    (now : ℕ) (a : Awaits) (shown : Bool) : Safe E s (addWallet E name w now keys a shown s) := by
  have hsucc : ∀ rs, records E s = some rs →
      Succeeds false rs (keys ++ [WalletKeyData.new E name w now]) := by
    intro rs hrs r hr
    rw [hk rs hrs] at hr
    exact ⟨r, List.mem_append_left _ hr, rfl, fun _ => rfl⟩
  unfold addWallet
  cases hpersist : persistWalletKeys E false (keys ++ [WalletKeyData.new E name w now]) a s with
  | mk o t =>
    obtain ⟨hd, hkept, hw, hrec⟩ := persistWalletKeys_sound h hidle hsucc a hpersist.symm
    have hheld : Held E t := by
      rcases hrec with ⟨-, hrec⟩ | ⟨hrec, -⟩
      · exact hh.of_eq hrec hw
      · exact hh.succeeds hsucc hrec hw
    by_cases ho : o = .ok
    · subst ho
      rw [andThen_ok rfl]
      cases shown with
      | false => exact ⟨hd, hkept, .inr hheld⟩
      | true =>
        refine ⟨⟨hd.wf, hd.synced, hd.unique, hd.short, hd.pending⟩, hkept, .inr fun p hp => ?_⟩
        have hfile : records E t = some (keys ++ [WalletKeyData.new E name w now]) := by
          rcases hrec with ⟨ho, -⟩ | ⟨hrec, -⟩
          · exact absurd rfl ho
          · exact hrec
        rcases mem_insertWallet hp with rfl | hp
        · exact ⟨_, hfile, _, List.mem_append_right _ List.mem_cons_self, rfl, rfl⟩
        · exact hheld p hp
    · rw [andThen_stop rfl ho]
      exact ⟨hd, hkept, .inr hheld⟩

/-- Reading with nothing in flight gives what the file holds, and changes nothing. -/
theorem readKeys_idle {s : KeyState} (hidle : s.inFlight = []) (r : Read) :
    (∃ e, readKeys E r s = (.error e, s)) ∨ (readKeys E r s = (.ok none, s) ∧ s.disk.bytes = none) ∨
      ∃ keys, readKeys E r s = (.ok (some keys), s) ∧ records E s = some keys := by
  unfold readKeys
  rw [land_idle hidle]
  by_cases hf : r.fails = true
  · exact .inl ⟨.read, by simp [hf]⟩
  · simp only [hf]
    cases hb : s.disk.bytes with
    | none => exact .inr (.inl ⟨rfl, rfl⟩)
    | some bytes =>
      cases hd : E.decode bytes with
      | none => exact .inl ⟨.parse, by simp [hd]⟩
      | some keys => exact .inr (.inr ⟨keys, by simp [hd], by simp [records, hb, hd]⟩)

theorem withKeys_safe {s : KeyState} (h : Durable E s) (hh : Held E s) (hidle : s.inFlight = []) (r : Read)
    {k : List WalletKeyData → KeyState → Outcome × KeyState}
    (hk : ∀ keys, records E s = some keys → Safe E s (k keys s)) : Safe E s (withKeys E r s k) := by
  unfold withKeys
  rcases readKeys_idle hidle r with ⟨e, he⟩ | ⟨he, -⟩ | ⟨keys, he, hrec⟩
  · rw [he]
    exact .idle h hh _
  · rw [he]
    exact .idle h hh _
  · rw [he]
    by_cases hn : uniqueNames keys
    · simp only [hn, if_true]
      exact hk keys hrec
    · simp only [hn, if_false]
      exact .idle h hh _

theorem createNewWallet_safe {s : KeyState} (h : Durable E s) (hh : Held E s) (hidle : s.inFlight = [])
    (requested : Option Text) (fresh : Option Wallet) (now : ℕ) (r : Read) (a : Awaits) (shown : Bool) :
    Safe E s (createNewWallet E requested fresh now r a shown s) := by
  refine withKeys_safe h hh hidle r fun keys hrec => ?_
  cases hname : selectNewWalletName requested s.wallets keys with
  | none => exact .idle h hh _
  | some name =>
    cases fresh with
    | none => exact .idle h hh _
    | some w =>
      refine addWallet_safe h hh hidle (fun rs hrs => ?_) name w now a shown
      rw [hrec] at hrs
      exact (Option.some.inj hrs).symm

theorem importWallet_safe {s : KeyState} (h : Durable E s) (hh : Held E s) (hidle : s.inFlight = [])
    (requested : Option Text) (wallet : Option Wallet) (now : ℕ) (r : Read) (a : Awaits) :
    Safe E s (importWallet E requested wallet now r a s) := by
  unfold importWallet
  cases wallet with
  | none => exact .idle h hh _
  | some w =>
    refine withKeys_safe h hh hidle r fun keys hrec => ?_
    by_cases hthere : keys.any (·.walletAddress = w.address) = true
    · simp only [hthere, if_true]
      exact .idle h hh _
    · simp only [hthere]
      cases hname : selectNewWalletName requested s.wallets keys with
      | none => exact .idle h hh _
      | some name =>
        refine addWallet_safe h hh hidle (fun rs hrs => ?_) name w now a true
        rw [hrec] at hrs
        exact (Option.some.inj hrs).symm

theorem renameRecord_other {old new : Text} :
    ∀ {keys : List WalletKeyData} {r : WalletKeyData}, r ∈ keys → r.walletName ≠ old →
      r ∈ renameRecord old new keys
  | k :: keys, r, hr, hne => by
    unfold renameRecord
    by_cases hk : k.walletName = old
    · rw [if_pos hk]
      rcases List.mem_cons.mp hr with rfl | hr
      · exact absurd hk hne
      · exact List.mem_cons_of_mem _ hr
    · rw [if_neg hk]
      rcases List.mem_cons.mp hr with rfl | hr
      · exact List.mem_cons_self
      · exact List.mem_cons_of_mem _ (renameRecord_other hr hne)

/-- With distinct names the record of the old name is the one that is renamed. -/
theorem renameRecord_old {old new : Text} :
    ∀ {keys : List WalletKeyData} {r : WalletKeyData}, uniqueNames keys → r ∈ keys → r.walletName = old →
      { r with walletName := new } ∈ renameRecord old new keys
  | k :: keys, r, hn, hr, hold => by
    unfold uniqueNames at hn
    rw [List.map_cons, List.nodup_cons] at hn
    unfold renameRecord
    rcases List.mem_cons.mp hr with rfl | hr
    · rw [if_pos hold]
      exact List.mem_cons_self
    · have hk : k.walletName ≠ old := by
        intro hk
        exact hn.1 (List.mem_map.mpr ⟨r, hr, hold.trans hk.symm⟩)
      rw [if_neg hk]
      exact List.mem_cons_of_mem _ (renameRecord_old hn.2 hr hold)

theorem renameRecord_succeeds {old new : Text} {keys : List WalletKeyData} (hn : uniqueNames keys) :
    Succeeds true keys (renameRecord old new keys) := by
  intro r hr
  by_cases hold : r.walletName = old
  · exact ⟨_, renameRecord_old hn hr hold, rfl, by simp⟩
  · exact ⟨r, renameRecord_other hr hold, rfl, by simp⟩

theorem mem_moveWallet {wallets : List (Text × Wallet)} {old new : Text} {p : Text × Wallet}
    (hp : p ∈ moveWallet wallets old new) :
    (p ∈ wallets ∧ p.1 ≠ old) ∨ (p.1 = new ∧ (old, p.2) ∈ wallets) := by
  unfold moveWallet at hp
  cases hfind : wallets.find? (·.1 = old) with
  | none =>
    rw [hfind] at hp
    rw [List.find?_eq_none] at hfind
    exact .inl ⟨hp, by simpa using hfind p hp⟩
  | some q =>
    rw [hfind] at hp
    have hq : q.1 = old := by simpa using List.find?_some hfind
    rcases mem_insertWallet hp with rfl | hp
    · exact .inr ⟨rfl, hq ▸ List.mem_of_find?_eq_some hfind⟩
    · obtain ⟨hmem, hne⟩ := List.mem_filter.mp hp
      exact .inl ⟨hmem, by simpa using hne⟩

/-- Memory follows a rename that is in the file. -/
theorem Held.moveWallet {s t : KeyState} {keys : List WalletKeyData} {old new : Text} (h : Held E s)
    (hrec : records E s = some keys) (hn : uniqueNames keys)
    (ht : records E t = some (renameRecord old new keys)) (hw : t.wallets = s.wallets) :
    Held E { t with wallets := moveWallet t.wallets old new } := by
  intro p hp
  rw [hw] at hp
  refine ⟨_, ht, ?_⟩
  rcases mem_moveWallet hp with ⟨hp, hne⟩ | ⟨hname, hp⟩
  · obtain ⟨rs, hrs, r, hr, hname, hwallet⟩ := h p hp
    rw [hrec] at hrs
    cases hrs
    exact ⟨r, renameRecord_other hr (hname ▸ hne), hname, hwallet⟩
  · obtain ⟨rs, hrs, r, hr, hold, hwallet⟩ := h _ hp
    rw [hrec] at hrs
    cases hrs
    exact ⟨_, renameRecord_old hn hr hold, hname.symm, hwallet⟩

theorem renameWallet_safe {s : KeyState} (h : Durable E s) (hh : Held E s) (hidle : s.inFlight = [])
    (old new : Text) (r : Read) {a : Awaits} (ha : ¬ a.cutLate) : Safe E s (renameWallet E old new r a s) := by
  unfold renameWallet
  split
  · exact .idle h hh _
  split
  · exact .idle h hh _
  split
  · exact .idle h hh _
  split
  · exact .idle h hh _
  refine withKeys_safe h hh hidle r fun keys hrec => ?_
  have hn := (h.unique keys hrec).1
  by_cases hnew : keys.any (·.walletName = new) = true
  · simp only [hnew, if_true]
    exact .idle h hh _
  simp only [hnew]
  by_cases hold : keys.any (·.walletName = old) = true
  swap
  · simp only [hold]
    exact .idle h hh _
  simp only [hold, if_true]
  have hsucc : ∀ rs, records E s = some rs → Succeeds true rs (renameRecord old new keys) := by
    intro rs hrs
    rw [hrec] at hrs
    cases hrs
    exact renameRecord_succeeds hn
  cases hpersist : persistWalletKeys E true (renameRecord old new keys) a s with
  | mk o t =>
    obtain ⟨hd, hkept, hw, hcase⟩ := persistWalletKeys_sound h hidle hsucc a hpersist.symm
    by_cases ho : o = .ok
    · subst ho
      have hfile : records E t = some (renameRecord old new keys) := by
        rcases hcase with ⟨ho, -⟩ | ⟨hfile, -⟩
        · exact absurd rfl ho
        · exact hfile
      exact ⟨⟨hd.wf, hd.synced, hd.unique, hd.short, hd.pending⟩, hkept,
        .inr (hh.moveWallet hrec hn hfile hw)⟩
    · simp only [andThen_stop rfl ho, Bool.false_eq_true, if_false]
      refine ⟨hd, hkept, ?_⟩
      rcases hcase with ⟨-, hsame⟩ | ⟨-, hok | hcrash | hcut⟩
      · exact .inr (hh.of_eq hsame hw)
      · exact absurd hok ho
      · exact .inl hcrash
      · exact absurd hcut ha

/-- What is loaded comes from the file. -/
theorem loadLoop_mem (opens : WalletKeyData → Bool) :
    ∀ {keys : List WalletKeyData} {acc wallets : List (Text × Wallet)},
      loadLoop opens keys acc = some wallets → ∀ p ∈ wallets,
        p ∈ acc ∨ ∃ r ∈ keys, r.walletName = p.1 ∧ r.wallet = p.2
  | [], acc, wallets, h, p, hp => by
    cases h
    exact .inl hp
  | r :: keys, acc, wallets, h, p, hp => by
    unfold loadLoop at h
    split at h
    · split at h
      · simp at h
      · rcases loadLoop_mem opens h p hp with hp | ⟨r', hr', hp⟩
        · rcases mem_insertWallet hp with rfl | hp
          · exact .inr ⟨r, List.mem_cons_self, rfl, rfl⟩
          · exact .inl hp
        · exact .inr ⟨r', List.mem_cons_of_mem _ hr', hp⟩
    · rcases loadLoop_mem opens h p hp with hp | ⟨r', hr', hp⟩
      · exact .inl hp
      · exact .inr ⟨r', List.mem_cons_of_mem _ hr', hp⟩

theorem loadWallets_safe {s : KeyState} (h : Durable E s) (hidle : s.inFlight = []) (hempty : s.wallets = [])
    (opens : WalletKeyData → Bool) (fresh : Option Wallet) (now : ℕ) (r : Read) (a : Awaits) (shown : Bool) :
    Safe E s (loadWallets E opens fresh now r a shown s) := by
  have hh : Held E s := by simp [Held, hempty]
  unfold loadWallets
  rcases readKeys_idle hidle r with ⟨e, he⟩ | ⟨he, hnone⟩ | ⟨keys, he, hrec⟩
  · rw [he]
    exact .idle h hh _
  · rw [he]
    cases fresh with
    | none => exact .idle h hh _
    | some w =>
      refine addWallet_safe h hh hidle (fun rs hrs => ?_) defaultName w now a shown
      simp [records, hnone] at hrs
  · rw [he]
    by_cases hn : uniqueNames keys
    · simp only [hn, if_true]
      cases hload : loadLoop opens keys [] with
      | none => exact .idle h hh _
      | some wallets =>
        refine ⟨⟨h.wf, h.synced, h.unique, h.short, h.pending⟩, .of_eq rfl, .inr fun p hp => ⟨keys, hrec, ?_⟩⟩
        rcases loadLoop_mem opens hload p hp with hp | hp
        · simp at hp
        · exact hp
    · simp only [hn, if_false]
      exact .idle h hh _

variable (E) in
/-- A call with its result; a crash keeps any part of what is unsynced. -/
def KeyStep (s : KeyState) (l : KeyEvent × Outcome) (t : KeyState) : Prop :=
  ∃ kept, l.1.step E kept s = (l.2, t)

variable (E) in
/-- No process is running, and the file, if there is one, has distinct names and addresses. -/
structure KeyStart (s : KeyState) : Prop where
  wf : s.disk.WF
  synced : ∀ i, s.disk.keyFile = some i → (s.disk.files i).synced = true
  unique : ∀ rs, records E s = some rs → uniqueNames rs ∧ uniqueAddresses rs
  inFlight : s.inFlight = []
  wallets : s.wallets = []

/-- No call begins while an operation of a timed-out write is in flight, and no write by
`rename_wallet` takes effect after its call gave up. -/
def Orderly (s : KeyState) : KeyEvent → Prop
  | .create _ _ _ _ _ _ => s.inFlight = []
  | .importSeed _ _ _ _ _ => s.inFlight = []
  | .rename _ _ _ a => s.inFlight = [] ∧ ¬ a.cutLate
  | .background _ => ∀ p ∈ s.inFlight, p ≠ (.rename, true)
  | .launch _ _ _ _ _ _ _ _ => True

theorem KeyStart.durable {s : KeyState} (h : KeyStart E s) : Durable E s :=
  ⟨h.wf, h.synced, h.unique, by simp [h.inFlight], by simp [h.inFlight]⟩

theorem KeyStart.held {s : KeyState} (h : KeyStart E s) : Held E s := by simp [Held, h.wallets]

theorem run_safe {s : KeyState} (h : Durable E s) (hh : Held E s) {e : KeyEvent} (he : Orderly s e) :
    Safe E s (e.run E s) := by
  cases e with
  | create requested fresh now r a shown => exact createNewWallet_safe h hh he requested fresh now r a shown
  | importSeed requested wallet now r a => exact importWallet_safe h hh he requested wallet now r a
  | rename old new r a => exact renameWallet_safe h hh he.1 old new r he.2
  | background lands =>
    obtain ⟨hd, hk, hheld⟩ := land_sound lands h
    exact ⟨hd, hk, .inr (hheld hh he)⟩
  | launch lands kept opens fresh now r a shown =>
    obtain ⟨hd, hk, -⟩ := land_sound lands h
    obtain ⟨hboot, hrec⟩ := reboot_sound hd kept
    have hload := loadWallets_safe hboot rfl rfl opens fresh now r a shown
    exact ⟨hload.durable, hk.trans ((KeptIn.of_eq hrec).trans hload.kept), hload.held⟩

/-- **One call.** It keeps the invariant and every key. -/
theorem step_sound {s t : KeyState} {l : KeyEvent × Outcome} (h : Durable E s ∧ Held E s)
    (he : Orderly s l.1) (hstep : KeyStep E s l t) : (Durable E t ∧ Held E t) ∧ KeptIn E s t := by
  obtain ⟨kept, hstep⟩ := hstep
  have hsafe := run_safe h.1 h.2 he
  unfold KeyEvent.step at hstep
  cases hrun : l.1.run E s with
  | mk o u =>
    rw [hrun] at hstep hsafe
    by_cases ho : o = .crashed
    · subst ho
      have htu : t = reboot kept u := (congrArg Prod.snd hstep).symm
      rw [htu]
      obtain ⟨hd, hrec⟩ := reboot_sound hsafe.durable kept
      exact ⟨⟨hd, by simp [Held, reboot]⟩, hsafe.kept.trans (.of_eq hrec)⟩
    · have hheld : Held E u := hsafe.held.resolve_left ho
      have htu : t = u := by
        cases o with
        | crashed => exact absurd rfl ho
        | _ => exact (congrArg Prod.snd hstep).symm
      rw [htu]
      exact ⟨⟨hsafe.durable, hheld⟩, hsafe.kept⟩

namespace Session

def quoted (t : Text) : Text := '"' :: t ++ ['"']

def numbers (bytes : List UInt8) : Text :=
  '[' :: [','].intercalate (bytes.map fun b => Nat.toDigits 10 b.toNat) ++ [']']

/-- A record as `serde_json` writes it; the names below need no escapes. -/
def render (r : WalletKeyData) : Text :=
  "\x7b\"wallet_name\":".toList ++ quoted r.walletName ++
  ",\"wallet_address\":".toList ++ quoted r.walletAddress ++
  ",\"private_key\":".toList ++ (r.privateKey.map numbers).getD "null".toList ++
  ",\"last_sync_timestamp\":".toList ++ Nat.toDigits 10 r.lastSyncTimestamp ++
  ",\"is_encrypted\":".toList ++ (if r.isEncrypted then "true".toList else "false".toList) ++
  ",\"key_verification_hash\":".toList ++ numbers r.keyVerificationHash ++ ['}']

def renderAll (keys : List WalletKeyData) : List UInt8 :=
  '['.toNat.toUInt8 :: ([','].intercalate (keys.map render) ++ [']']).map fun c => c.toNat.toUInt8

/-- SHA-256 of the two keys below. -/
def digest (bytes : List UInt8) : List UInt8 :=
  if bytes = [1, 0] then
    [71, 220, 84, 12, 148, 206, 183, 4, 162, 56, 117, 193, 18, 115, 225, 107, 176, 184, 168, 122, 237, 132,
      222, 145, 31, 33, 51, 86, 129, 21, 242, 84]
  else
    [153, 190, 94, 251, 136, 202, 32, 19, 189, 142, 78, 176, 53, 253, 66, 213, 36, 84, 104, 254, 154, 250, 112,
      216, 186, 156, 28, 65, 154, 72, 196, 232]

def first : Wallet := ⟨List.replicate 40 '1', some [1], false⟩

def second : Wallet := ⟨List.replicate 40 '2', some [2], false⟩

def firstRecord (name : Char) : WalletKeyData := ⟨[name], first.address, some [1], 0, false, digest [1, 0]⟩

def secondRecord : WalletKeyData := ⟨['c'], second.address, some [2], 0, false, digest [2, 0]⟩

/-- The files of the sessions below. -/
def known : List (List WalletKeyData) :=
  [[firstRecord 'a'], [firstRecord 'b'], [firstRecord 'a', secondRecord], [firstRecord 'b', secondRecord]]

theorem known_injective : ∀ keys ∈ known, ∀ keys' ∈ known, renderAll keys' = renderAll keys → keys' = keys := by
  decide +kernel

instance : Countable WalletKeyData := by
  refine Function.Injective.countable (f := fun r : WalletKeyData =>
    (r.walletName.map Char.toNat, r.walletAddress.map Char.toNat, r.privateKey.map (·.map UInt8.toNat),
      r.lastSyncTimestamp, r.isEncrypted, r.keyVerificationHash.map UInt8.toNat)) ?_
  intro r r' h
  have hchar : Function.Injective (List.map Char.toNat) :=
    List.map_injective_iff.mpr fun c c' h => Char.toNat_inj.mp h
  have hbyte : Function.Injective (List.map UInt8.toNat) :=
    List.map_injective_iff.mpr fun b b' h => UInt8.toNat_inj.mp h
  simp only [Prod.mk.injEq] at h
  obtain ⟨hn, ha, hk, ht, he, hv⟩ := h
  cases r
  cases r'
  simp only [WalletKeyData.mk.injEq]
  exact ⟨hchar hn, hchar ha, Option.map_injective hbyte hk, ht, he, hbyte hv⟩

noncomputable instance : Encodable WalletKeyData := Encodable.ofCountable _

/-- `serde_json` on the files of the sessions, some other coding elsewhere. -/
noncomputable def encode (keys : List WalletKeyData) : List UInt8 :=
  if keys ∈ known then renderAll keys else List.replicate (Encodable.encode keys + 1) 0

noncomputable def decode (bytes : List UInt8) : Option (List WalletKeyData) :=
  match known.find? (renderAll · = bytes) with
  | some keys => some keys
  | none => Encodable.decode (bytes.length - 1)

theorem decode_encode (keys : List WalletKeyData) : decode (encode keys) = some keys := by
  unfold decode encode
  by_cases hk : keys ∈ known
  · rw [if_pos hk]
    cases hfind : known.find? (renderAll · = renderAll keys) with
    | none =>
      rw [List.find?_eq_none] at hfind
      exact absurd (by simp) (hfind keys hk)
    | some keys' =>
      have hsame : renderAll keys' = renderAll keys := by simpa using List.find?_some hfind
      exact congrArg some (known_injective keys hk keys' (List.mem_of_find?_eq_some hfind) hsame)
  · rw [if_neg hk]
    have hfind : known.find? (renderAll · = List.replicate (Encodable.encode keys + 1) 0) = none := by
      rw [List.find?_eq_none]
      intro keys' _
      simp only [decide_eq_true_eq, renderAll, List.replicate_succ, List.cons.injEq, not_and]
      intro h
      exact absurd h (by decide)
    rw [hfind]
    simp

noncomputable def env : Env := ⟨encode, decode, decode_encode, digest⟩

def prompt : Await := ⟨[], .done⟩

def allDone : Awaits := ⟨prompt, prompt, prompt, prompt, prompt⟩

def plainRead : Read := ⟨[], false⟩

/-- A file with one wallet, and no process. -/
def start : KeyState where
  disk := ⟨some 0, none, fun _ => ⟨renderAll [firstRecord 'a'], true⟩, 1⟩
  inFlight := []
  wallets := []

def launch : KeyEvent := .launch [] (fun _ => 0) (fun _ => true) none 0 plainRead allDone true

def create : KeyEvent := .create (some ['c']) (some second) 0 plainRead allDone true

noncomputable def after (e : KeyEvent) (s : KeyState) : KeyState := (e.step env (fun _ => 0) s).2

noncomputable def answer (e : KeyEvent) (s : KeyState) : Outcome := (e.step env (fun _ => 0) s).1

end Session

end KeyFile

end Alphanumeric
