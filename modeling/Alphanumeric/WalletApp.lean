/-
# The wallet application

`gui/src/app.rs`: the state the views show, the messages they send, and the jobs these
start. A job runs on its own and its answer comes back as one more message, in any order;
what it read or wrote on the way it did at some moment before that. `App::update` is
`update` for the views' messages and `deliver` for the jobs' answers. The wallet file is
one value and its archives a list: a save or a replacement is one step on them.

Key definitions: `AddressEntry`, `SendState`, `WalletState`, `App`, `Job`, `update`,
`deliver`, `AppEvent.step`.
-/
import Alphanumeric.SendAnswers
import Alphanumeric.Lib.Guard
import Alphanumeric.Lib.Trace

namespace Alphanumeric

namespace Gui

abbrev Seed : Type := List UInt8

abbrev Master : Type := List UInt8

/-- BLAKE3, ML-DSA-87 and the address hash; `serde_json`; `Client::new` on a URL; and the two
checks that are made in floating point. -/
structure AppEnv where
  childSeed : Master → ℕ → Seed
  publicKey : Seed → List UInt8
  addressOf : List UInt8 → Text
  sign : Seed → Text → List UInt8
  parse : ParseJson
  validUrl : Text → Bool
  maxNonWhisperFeeUnits : ℤ → ℤ
  survivesTheWire : ℤ → Bool

variable (E : AppEnv)

/-! ### Keys -/

def addressForSeed (seed : Seed) : Text := E.addressOf (E.publicKey seed)

def addressForIndex (master : Master) (index : ℕ) : Text := addressForSeed E (E.childSeed master index)

def hexDigit (c : Char) : Option ℕ :=
  if '0' ≤ c ∧ c ≤ '9' then some (c.toNat - 48)
  else if 'a' ≤ c ∧ c ≤ 'f' then some (c.toNat - 87)
  else if 'A' ≤ c ∧ c ≤ 'F' then some (c.toNat - 55)
  else none

def decodeHex : Text → Option (List UInt8)
  | [] => some []
  | [_] => none
  | c :: d :: rest => do return (16 * (← hexDigit c) + (← hexDigit d)).toUInt8 :: (← decodeHex rest)

/-- `parse_imported_seed`: 64 hexadecimal characters, and no master seed. -/
def parseImportedSeed (text : Text) : Option Seed :=
  let t := trim text
  if toAsciiLowercase (t.take 4) = ['a', '9', 'm', '1'] then none
  else if textLen t ≠ 64 then none
  else decodeHex t

/-- Where an address's key comes from. -/
inductive AddressSource where
  | derived (index : ℕ)
  | imported (slot : ℕ)
deriving DecidableEq

/-! ### Figures -/

inductive Spendable where
  | pending
  | unavailable
  | known (units : ℤ)
deriving DecidableEq

structure AddressPage where
  transactions : Option (List Text)
  next : Option ℕ
  historyAvailable : Bool
  indexReady : Bool
  indexHeight : Option ℕ
deriving DecidableEq

structure AddressState where
  balanceUnits : ℤ
  spendableUnits : Option ℤ
  page : AddressPage
deriving DecidableEq

/-- A ghost: the address and the node an answer was asked of, and the node the wallet read when
the answer was applied. -/
structure Origin where
  asked : Text
  node : Text
  client : Text
deriving DecidableEq

structure AddressEntry where
  source : AddressSource
  address : Text
  balanceUnits : Option ℤ
  spendable : Spendable
  error : Option Text
  loading : Bool
  recent : Option AddressPage
  origin : Option Origin
deriving DecidableEq

def AddressEntry.new (source : AddressSource) (address : Text) : AddressEntry :=
  ⟨source, address, none, .pending, none, false, none, none⟩

abbrev AddressResult : Type := Except ApiError AddressState

/-- `apply_address_result`. -/
def applyAddressResult (origin : Origin) (scheduledRetry : Bool) (entry : AddressEntry) (r : AddressResult) :
    AddressEntry :=
  match r with
  | .ok state =>
    { entry with
      recent := some state.page
      balanceUnits := some state.balanceUnits
      spendable :=
        match state.spendableUnits with
        | some units => .known units
        | none => .unavailable
      error := none
      loading := false
      origin := some origin }
  | .error e =>
    if e.isRetryable then { entry with loading := scheduledRetry }
    else { entry with error := some e.display, loading := false }

/-! ### Payments -/

structure FeeEstimate where
  recommendedUnits : ℤ
  floorUnits : ℤ
deriving DecidableEq

structure Prepared where
  sender : Text
  senderSource : AddressSource
  recipient : Text
  amountUnits : ℤ
  feeUnits : ℤ
  totalUnits : ℤ
deriving DecidableEq

inductive AmountProblem where
  | empty
  | notANumber
  | tooPrecise
  | tooLarge
deriving DecidableEq

inductive Blocker where
  | spendableUnknown
  | spendableUnavailable
  | noRecipient
  | badRecipient
  | selfPayment
  | amount (p : AmountProblem)
  | zeroAmount
  | noFeeEstimate
  | dustAmount (floorUnits : ℤ)
  | notRepresentable
  | insufficientSpendable (totalUnits spendableUnits : ℤ)
deriving DecidableEq

def isAsciiDigit (c : Char) : Bool := decide ('0' ≤ c) && decide (c ≤ '9')

def digits (t : Text) : ℕ := t.foldl (fun n c => 10 * n + (c.toNat - 48)) 0

def i128Max : ℤ := 2 ^ 127 - 1

/-- Coins as typed, in units. -/
def parseCoinAmount (input : Text) : Except AmountProblem ℤ :=
  let trimmed := trim input
  let whole := trimmed.takeWhile (· ≠ '.')
  let fraction := (trimmed.dropWhile (· ≠ '.')).drop 1
  if trimmed.isEmpty then .error .empty
  else if whole.isEmpty || !whole.all isAsciiDigit || (trimmed.contains '.' && fraction.isEmpty) ||
      !fraction.all isAsciiDigit then .error .notANumber
  else if 8 < fraction.length then .error .tooPrecise
  else
    let units : ℤ := digits whole * 100000000 + digits (fraction ++ List.replicate (8 - fraction.length) '0')
    if i128Max < units then .error .tooLarge else .ok units

def normaliseRecipient (input : Text) : Option Text :=
  let candidate := toAsciiLowercase (trim input)
  if candidate.length = 40 && candidate.all fun c => isAsciiDigit c || (decide ('a' ≤ c) && decide (c ≤ 'f'))
  then some candidate else none

def feeSafetyLimitUnits : ℤ := 1000000

/-- The requested fee, brought between the floor and the ceiling. -/
def clampFeeUnits (amount requested floor : ℤ) : Option ℤ :=
  let ceiling := min (E.maxNonWhisperFeeUnits amount) feeSafetyLimitUnits
  if ceiling < floor then none else some (min (max requested floor) ceiling)

/-- What may be spent, or why that is not known. -/
def Spendable.ceiling : Spendable → Except Blocker ℤ
  | .pending => .error .spendableUnknown
  | .unavailable => .error .spendableUnavailable
  | .known units => .ok units

def preparePayment (sender : Text) (source : AddressSource) (spendable : Spendable) (recipientInput : Text)
    (amountInput : Text) (fee : Option FeeEstimate) : Except Blocker Prepared := do
  let ceiling ← spendable.ceiling
  Guard.ensure (trim recipientInput ≠ []) .noRecipient
  let recipient ← Guard.need (normaliseRecipient recipientInput) .badRecipient
  Guard.ensure (recipient ≠ sender) .selfPayment
  let amount ← (parseCoinAmount amountInput).mapError Blocker.amount
  Guard.ensure (0 < amount) .zeroAmount
  let estimate ← Guard.need fee .noFeeEstimate
  let feeUnits ← Guard.need (clampFeeUnits E amount estimate.recommendedUnits estimate.floorUnits)
    (.dustAmount estimate.floorUnits)
  let total := amount + feeUnits
  Guard.ensure (total ≤ i128Max) (.amount .tooLarge)
  Guard.ensure (E.survivesTheWire amount ∧ E.survivesTheWire feeUnits) .notRepresentable
  Guard.ensure (total ≤ ceiling) (.insufficientSpendable total ceiling)
  return ⟨sender, source, recipient, amount, feeUnits, total⟩

variable {E} in
theorem preparePayment_ok {sender : Text} {source : AddressSource} {spendable : Spendable}
    {recipient amount : Text} {fee : Option FeeEstimate} {p : Prepared}
    (h : preparePayment E sender source spendable recipient amount fee = .ok p) :
    p.sender = sender ∧ p.senderSource = source ∧ p.totalUnits = p.amountUnits + p.feeUnits := by
  simp only [preparePayment, Guard.bind_eq_ok] at h
  obtain ⟨ceiling, -, -, -, recipient, -, -, -, amount, -, -, -, estimate, -, fee, -, -, -, -, -, -, -, h⟩ := h
  cases h
  exact ⟨rfl, rfl, rfl⟩

/-- `ceiling_from_fetch`: an error is no ceiling. -/
def ceilingFromFetch (r : AddressResult) : Option Spendable :=
  match r with
  | .ok state =>
    match state.spendableUnits with
    | some units => some (.known units)
    | none => some .unavailable
  | .error _ => none

def recheckSpendable (p : Prepared) (spendable : Spendable) : Except Blocker Unit := do
  let units ← spendable.ceiling
  Guard.ensure (p.totalUnits ≤ units) (.insufficientSpendable p.totalUnits units)

/-- A signed submission. -/
structure Body where
  idempotencyKey : Text
  sender : Text
  recipient : Text
  amountUnits : ℤ
  feeUnits : ℤ
  timestamp : ℕ
  signature : List UInt8
  pubKey : List UInt8
deriving DecidableEq

def unitsToAmountString (units : ℤ) : Text :=
  let fraction := Nat.toDigits 10 (units.natAbs % 100000000)
  (if units < 0 then ['-'] else []) ++ Nat.toDigits 10 (units.natAbs / 100000000) ++ '.' ::
    (List.replicate (8 - fraction.length) '0' ++ fraction)

def signingMessage (sender recipient : Text) (amount fee : ℤ) (timestamp : ℕ) : Text :=
  sender ++ ':' :: (recipient ++ ':' :: (unitsToAmountString amount ++ ':' :: (unitsToAmountString fee ++
    ':' :: Nat.toDigits 10 timestamp)))

/-- `build_submission`, its fresh key given. -/
def buildSubmission (key : Text) (seed : Seed) (sender recipient : Text) (amount fee : ℤ) (timestamp : ℕ) :
    Body where
  idempotencyKey := key
  sender := sender
  recipient := recipient
  amountUnits := amount
  feeUnits := fee
  timestamp := timestamp
  signature := E.sign seed (signingMessage sender recipient amount fee timestamp)
  pubKey := E.publicKey seed

inductive SendStage where
  | compose
  | confirm (p : Prepared)
  | checking (p : Prepared)
  | sending
  | answered (v : Verdict)
deriving DecidableEq

structure SendState where
  recipient : Text
  amount : Text
  fee : Option FeeEstimate
  feeInFlight : Bool
  stage : SendStage
  outstanding : Option Body
deriving DecidableEq

def SendState.new : SendState := ⟨[], [], none, false, .compose, none⟩

def SendState.returnToForm (s : SendState) : SendState := { s with stage := .compose, outstanding := none }

def SendState.reset (s : SendState) : SendState := { s with recipient := [], amount := [] }.returnToForm

/-- A payment is being checked, sent, or waits for its answer to be understood. -/
def SendState.inProgress (s : SendState) : Bool :=
  s.outstanding.isSome || (match s.stage with
    | .checking _ => true
    | .sending => true
    | _ => false)

/-! ### The open wallet -/

inductive ImportKeyState where
  | idle
  | asking (seed : Text)
  | checked (seed address : Text)
deriving DecidableEq

structure RemoveKey where
  slot : ℕ
  address : Text
  typed : Text
deriving DecidableEq

structure WalletState where
  master : Master
  /-- The node the wallet reads. -/
  client : Text
  passphrase : Text
  nextIndex : ℕ
  imported : List Text
  addresses : List AddressEntry
  active : ℕ
  pollInFlight : Bool
  fetchInFlight : Bool
  addingAddress : Bool
  send : SendState
  exporting : Bool
  importConfirm : Bool
  importKey : ImportKeyState
  removingKey : Option RemoveKey
deriving DecidableEq

def WalletState.signingSeed (w : WalletState) : AddressSource → Option Seed
  | .derived index => some (E.childSeed w.master index)
  | .imported slot => (w.imported[slot]?).bind parseImportedSeed

/-! ### The wallet file -/

/-- What an envelope holds, and the passphrase that opens it. -/
structure Sealed where
  master : Master
  nextIndex : ℕ
  imported : List Text
  passphrase : Text
deriving DecidableEq

structure WalletDisk where
  file : Option Sealed
  archives : List Sealed
deriving DecidableEq

inductive DiskOutcome where
  | done
  | failed
  | rollbackFailed
deriving DecidableEq

def WalletDisk.save (d : WalletDisk) (f : Sealed) (o : DiskOutcome) : WalletDisk :=
  match o with
  | .done => { d with file := some f }
  | _ => d

/-- `replace_archiving`; after a failed rollback the old file is only in its archive. -/
def WalletDisk.replace (d : WalletDisk) (f : Sealed) (o : DiskOutcome) : WalletDisk :=
  match o with
  | .done => ⟨some f, d.archives ++ d.file.toList⟩
  | .failed => d
  | .rollbackFailed => ⟨none, d.archives ++ d.file.toList⟩

def WalletState.sealed (w : WalletState) : Sealed := ⟨w.master, w.nextIndex, w.imported, w.passphrase⟩

/-! ### Setup -/

inductive SetupStage where
  | choose
  | unlock (passphrase : Text) (busy : Bool)
  | confirmBackup (master : Master)
  | restore
  | importFile (chosen : Bool) (passphrase : Text) (busy : Bool) (preview : Option Sealed)
  | setPassphrase (pending : Master) (restored : Bool) (passphrase again : Text) (busy : Bool)
deriving DecidableEq

/-- Clear `busy`, as every failure does. -/
def SetupStage.idle : SetupStage → SetupStage
  | .unlock passphrase _ => .unlock passphrase false
  | .importFile chosen passphrase _ preview => .importFile chosen passphrase false preview
  | .setPassphrase pending restored passphrase again _ => .setPassphrase pending restored passphrase again false
  | stage => stage

/-- A job that ends in a write may be running. -/
def SetupStage.writing : SetupStage → Bool
  | .importFile _ _ busy _ => busy
  | .setPassphrase _ _ _ _ busy => busy
  | _ => false

/-- What a finished setup hands back. -/
structure Ready where
  master : Master
  nextIndex : ℕ
  passphrase : Text
  nodeUrl : Text
  imported : List Text
deriving DecidableEq

/-! ### Jobs -/

inductive Job where
  | poll (epoch : ℕ) (node address : Text)
  | refresh (epoch : ℕ) (node : Text) (addresses : List Text)
  | fee (node : Text)
  /-- Asks for the sender's figures. -/
  | check (node : Text) (p : Prepared)
  | post (node : Text) (body : Body)
  | save (f : Sealed)
  | saved (next : Option ℕ)
  | openFile (passphrase : Text)
  | unlock (passphrase nodeUrl : Text)
  | create (master : Master) (restored : Bool) (passphrase nodeUrl : Text)
  | useFile (f : Sealed) (nodeUrl : Text)
  | ready (r : Option Ready)
deriving DecidableEq

structure App where
  wallet : Option WalletState
  setup : SetupStage
  /-- The first address of the wallet an import closed. -/
  importing : Option Text
  nodeUrl : Text
  nodeEpoch : ℕ
  disk : WalletDisk
  jobs : List Job

/-- Change the open wallet and start jobs. -/
def App.onWallet (s : App) (f : WalletState → WalletState × List Job) : App :=
  match s.wallet with
  | none => s
  | some w => { s with wallet := some (f w).1, jobs := s.jobs ++ (f w).2 }

/-! ### Messages on the open wallet -/

namespace WalletState

def pollTick (epoch : ℕ) (w : WalletState) : WalletState × List Job :=
  if w.pollInFlight || w.fetchInFlight then (w, [])
  else
    match w.addresses[w.active]? with
    | none => (w, [])
    | some entry => ({ w with pollInFlight := true }, [.poll epoch w.client entry.address])

def refreshAll (epoch : ℕ) (w : WalletState) : WalletState × List Job :=
  if w.fetchInFlight then (w, [])
  else
    ({ w with
        fetchInFlight := true
        addresses := w.addresses.map fun e => { e with loading := true } },
      [.refresh epoch w.client (w.addresses.map (·.address))])

def setLoading (w : WalletState) (position : ℕ) (loading : Bool) : List AddressEntry :=
  w.addresses.modify position fun e => { e with loading := loading }

def setActiveAddress (position : ℕ) (w : WalletState) : WalletState :=
  if position < w.addresses.length && position ≠ w.active then
    { w with addresses := w.setLoading w.active false, active := position }
  else w

/-- `saturating_add(1)` of a `u32`. -/
def saturatingSucc (n : ℕ) : ℕ := if n + 1 < 2 ^ 32 then n + 1 else n

def addAddress (w : WalletState) : WalletState × List Job :=
  if w.addingAddress then (w, [])
  else
    ({ w with addingAddress := true },
      [.save ⟨w.master, saturatingSucc w.nextIndex, w.imported, w.passphrase⟩])

/-- `key_change_blocker`. -/
def keyChangeBlocked (w : WalletState) : Bool :=
  w.send.outstanding.isSome || (match w.send.stage with
    | .confirm _ => true
    | .checking _ => true
    | .sending => true
    | _ => false) || w.addingAddress

/-- `import_blocker`. -/
def importBlocked (w : WalletState) : Bool := w.exporting || w.send.inProgress || w.addingAddress

def importKeyStart (w : WalletState) : WalletState :=
  if w.keyChangeBlocked then w else { w with importKey := .asking [] }

def importKeyCheck (w : WalletState) : WalletState :=
  match w.importKey with
  | .asking seed =>
    match parseImportedSeed seed with
    | none => w
    | some parsed =>
      if w.addresses.any (·.address = addressForSeed E parsed) then w
      else { w with importKey := .checked seed (addressForSeed E parsed) }
  | _ => w

/-- The seed and its row, put in before the file is written. -/
def addKey (w : WalletState) (seed address : Text) : WalletState :=
  { w with
    imported := w.imported ++ [seed]
    addresses := w.addresses ++ [AddressEntry.new (.imported w.imported.length) address] }

def removeKeyStart (slot : ℕ) (w : WalletState) : WalletState :=
  if w.keyChangeBlocked then w
  else
    match w.addresses.find? (·.source = .imported slot) with
    | none => w
    | some entry => { w with removingKey := some ⟨slot, entry.address, []⟩ }

/-- Slots above a removed one move down. -/
def closeSlot (slot : ℕ) (e : AddressEntry) : AddressEntry :=
  match e.source with
  | .imported position => if slot < position then { e with source := .imported (position - 1) } else e
  | _ => e

/-- Slots from a restored one on move up. -/
def openSlot (slot : ℕ) (e : AddressEntry) : AddressEntry :=
  match e.source with
  | .imported position => if slot ≤ position then { e with source := .imported (position + 1) } else e
  | _ => e

def dropKey (w : WalletState) (slot : ℕ) : WalletState :=
  let rows := (w.addresses.filter (·.source ≠ .imported slot)).map (closeSlot slot)
  { w with
    imported := w.imported.eraseIdx slot
    addresses := rows
    active := min w.active (rows.length - 1) }

/-- The rollback of a removal that was not written. -/
def restoreKey (w : WalletState) (slot : ℕ) (seed address : Text) : WalletState :=
  { w with
    imported := w.imported.insertIdx slot seed
    addresses := w.addresses.map (openSlot slot) ++ [AddressEntry.new (.imported slot) address] }

/-! #### Payments -/

def onSend (w : WalletState) (f : SendState → SendState) : WalletState := { w with send := f w.send }

def sendRecipientChanged (value : Text) (w : WalletState) : WalletState :=
  if w.send.stage = .compose then w.onSend fun s => { s with recipient := value } else w

def sendAmountChanged (value : Text) (w : WalletState) : WalletState :=
  if w.send.stage = .compose then w.onSend fun s => { s with amount := value } else w

def sendFeeRefresh (w : WalletState) : WalletState × List Job :=
  if w.send.feeInFlight then (w, [])
  else (w.onSend fun s => { s with feeInFlight := true }, [.fee w.client])

def sendReview (w : WalletState) : WalletState :=
  if w.send.stage = .compose then
    match w.addresses[w.active]? with
    | none => w
    | some entry =>
      match preparePayment E entry.address entry.source entry.spendable w.send.recipient w.send.amount
        w.send.fee with
      | .ok p => w.onSend fun s => { s with stage := .confirm p }
      | .error _ => w
  else w

def sendBackToCompose (w : WalletState) : WalletState :=
  match w.send.stage with
  | .confirm _ => w.onSend fun s => { s with stage := .compose }
  | _ => w

def sendConfirm (w : WalletState) : WalletState × List Job :=
  if w.send.outstanding.isSome then (w, [])
  else
    match w.send.stage with
    | .confirm p => (w.onSend fun s => { s with stage := .checking p }, [.check w.client p])
    | _ => (w, [])

/-- `submit_outstanding`: the one way to a post. -/
def submitOutstanding (w : WalletState) : List Job :=
  match w.send.outstanding with
  | none => []
  | some body => [.post w.client body]

def sendRetry (w : WalletState) : WalletState × List Job :=
  if w.send.outstanding.isNone || w.send.stage = .sending then (w, [])
  else
    let w := w.onSend fun s => { s with stage := .sending }
    (w, w.submitOutstanding)

def sendClear (w : WalletState) : WalletState :=
  match w.send.stage with
  | .sending => w
  | .checking _ => w
  | .answered v => w.onSend fun s => if keepsTheForm v then s.returnToForm else s.reset
  | _ => w.onSend SendState.reset

def backToForm (w : WalletState) : WalletState := w.onSend fun s => { s with stage := .compose }

/-- The row of the sender is brought up to date with the answer the payment is judged by. -/
def noteCeiling (w : WalletState) (node : Text) (asked : Prepared) (p : Prepared) (r : AddressResult) :
    WalletState :=
  match w.addresses.findIdx? (·.source = p.senderSource) with
  | none => w
  | some i =>
    { w with addresses := w.addresses.modify i fun e =>
        applyAddressResult ⟨asked.sender, node, w.client⟩ false e r }

/-- `SendSpendableChecked`, asked by the job for `asked`: the clock and the fresh key come with
the answer. -/
def sendSpendableChecked (node : Text) (asked : Prepared) (r : AddressResult) (now : Option ℕ) (key : Text)
    (w : WalletState) : WalletState × List Job :=
  match w.send.stage with
  | .checking p =>
    if w.send.outstanding.isSome then (w, [])
    else
      match ceilingFromFetch r with
      | none => (w.backToForm, [])
      | some spendable =>
        let w := w.noteCeiling node asked p r
        match recheckSpendable p spendable, now, w.signingSeed E p.senderSource with
        | .ok (), some timestamp, some seed =>
          if addressForSeed E seed ≠ p.sender then (w.backToForm, [])
          else
            let body := buildSubmission E key seed p.sender p.recipient p.amountUnits p.feeUnits timestamp
            let w := w.onSend fun s => { s with outstanding := some body, stage := .sending }
            (w, w.submitOutstanding)
        | _, _, _ => (w.backToForm, [])
  | _ => (w, [])

def sendSubmitted (v : Verdict) (w : WalletState) : WalletState :=
  w.onSend fun s =>
    { s with outstanding := if v.definitive then none else s.outstanding, stage := .answered v }

/-! #### Answers about addresses -/

def pollTickFetched (stale : Bool) (node asked : Text) (r : AddressResult) (w : WalletState) : WalletState :=
  let w := { w with pollInFlight := false }
  if stale then w
  else
    { w with addresses := w.addresses.modify w.active fun e =>
        applyAddressResult ⟨asked, node, w.client⟩ true e r }

/-- The rows and the answers are matched by position. -/
def zipResults (node client : Text) : List AddressEntry → List (Text × AddressResult) → List AddressEntry
  | e :: rows, (asked, r) :: results =>
    applyAddressResult ⟨asked, node, client⟩ false e r :: zipResults node client rows results
  | rows, _ => rows

def refreshAllFetched (stale : Bool) (node : Text) (results : List (Text × AddressResult)) (w : WalletState) :
    WalletState :=
  let w := { w with fetchInFlight := false }
  if stale then { w with addresses := w.addresses.map fun e => { e with loading := false } }
  else { w with addresses := zipResults node w.client w.addresses results }

/-- `AddressStoreSaved`. -/
def addressStoreSaved (next : Option ℕ) (w : WalletState) : WalletState :=
  let w := { w with addingAddress := false }
  match next with
  | none => w
  | some next =>
    { w with
      nextIndex := next
      addresses := w.addresses ++
        [AddressEntry.new (.derived w.nextIndex) (addressForIndex E w.master w.nextIndex)] }

/-- Every screen change closes the key panels. -/
def closePanels (w : WalletState) : WalletState := { w with importKey := .idle, removingKey := none }

end WalletState

/-! ### Messages of the views -/

inductive Screen where
  | wallet
  | send
  | setup
  | startup
  | other
deriving DecidableEq

/-- `owned` is the URL of the wallet's own node, where the message starts it; `saved` is what
becomes of a save made in the message itself. -/
inductive Message where
  | show (screen : Screen)
  | nodeUrlChanged (url : Text)
  | retryNode (url : Text)
  | startCreate (master : Master) (owned : Option Text)
  | confirmBackup (passed : Bool)
  | startRestore (owned : Option Text)
  | useMaster (master : Master)
  | startImportFile (owned : Option Text)
  | backToChoose
  | newPassphraseChanged (value : Text)
  | newPassphraseConfirmChanged (value : Text)
  | confirmNewPassphrase
  | unlockPassphraseChanged (value : Text)
  | unlock
  | importStart
  | importCancelConfirm
  | importContinue
  | importAbort
  | importFilePicked
  | importPassphraseChanged (value : Text)
  | importOpen
  | importUse
  | exporting (isOpen : Bool)
  | pollTick
  | refreshAll
  | setActiveAddress (position : ℕ)
  | addAddress
  | importKeyStart
  | importKeySeedChanged (value : Text)
  | importKeyCheck
  | importKeyAdd (saved : DiskOutcome)
  | importKeyCancel
  | removeKeyStart (slot : ℕ)
  | removeKeyTypedChanged (value : Text)
  | removeKeyCancel
  | removeKeyConfirm (saved : DiskOutcome)
  | sendRecipientChanged (value : Text)
  | sendAmountChanged (value : Text)
  | sendFeeRefresh
  | sendReview
  | sendBackToCompose
  | sendConfirm
  | sendRetry
  | sendClear

namespace App

/-- `retarget_client`. -/
def retarget (s : App) (url : Text) : App :=
  { s with
    nodeUrl := url
    nodeEpoch := s.nodeEpoch + 1
    wallet := s.wallet.map fun w => if E.validUrl url then { w with client := url } else w }

/-- `ensure_owned_node`, where a message calls it. -/
def startOwned (s : App) (owned : Option Text) : App :=
  match owned with
  | none => s
  | some url => s.retarget E url

def start (s : App) (j : Job) : App := { s with jobs := s.jobs ++ [j] }

def refreshAll (s : App) : App := s.onWallet (WalletState.refreshAll s.nodeEpoch)

/-- A change of the open wallet that starts nothing. -/
def edit (s : App) (f : WalletState → WalletState) : App := s.onWallet fun w => (f w, [])

/-- `Message::Show`. -/
def showScreen (s : App) (screen : Screen) : App :=
  if s.wallet.isNone && screen ≠ .setup && screen ≠ .startup then s
  else
    let s := s.edit WalletState.closePanels
    match screen with
    | .wallet => s.refreshAll
    | .send => s.onWallet WalletState.sendFeeRefresh
    | _ => s

/-- The wallet that an import closed may not come back through the same import. -/
def isTheReplacedWallet (s : App) (master : Master) : Bool := s.importing = some (addressForIndex E master 0)

def confirmNewPassphrase (s : App) : App :=
  if !E.validUrl s.nodeUrl then s
  else
    match s.setup with
    | .setPassphrase pending restored passphrase again _ =>
      if passphrase.isEmpty || passphrase ≠ again then s
      else
        { s with setup := .setPassphrase pending restored passphrase again true }.start
          (.create pending restored passphrase s.nodeUrl)
    | _ => s

def unlock (s : App) : App :=
  if !E.validUrl s.nodeUrl then s
  else
    match s.setup with
    | .unlock passphrase _ => { s with setup := .unlock passphrase true }.start (.unlock passphrase s.nodeUrl)
    | _ => s

def importContinue (s : App) : App :=
  match s.wallet with
  | none => s
  | some w =>
    if w.importBlocked || !w.importConfirm then s
    else
      { s with
        wallet := none
        nodeEpoch := s.nodeEpoch + 1
        importing := some ((w.addresses.head?.map (·.address)).getD [])
        setup := .choose }

def importAbort (s : App) : App :=
  if s.setup.writing || s.importing.isNone then s
  else { s with importing := none, setup := if s.disk.file.isSome then .unlock [] false else .choose }

def importOpen (s : App) : App :=
  match s.setup with
  | .importFile true passphrase false preview =>
    if passphrase.isEmpty then s
    else { s with setup := .importFile true passphrase true preview }.start (.openFile passphrase)
  | _ => s

def importUse (s : App) : App :=
  if !E.validUrl s.nodeUrl then s
  else
    match s.setup with
    | .importFile chosen passphrase false (some f) =>
      { s with setup := .importFile chosen passphrase true (some f) }.start (.useFile f s.nodeUrl)
    | _ => s

/-- `ImportKeyAdd`: in memory first, and back out again when the file was not written. -/
def importKeyAdd (s : App) (saved : DiskOutcome) : App :=
  match s.wallet with
  | none => s
  | some w =>
    match w.importKey, w.keyChangeBlocked with
    | .checked seed _, true => { s with wallet := some { w with importKey := .asking seed } }
    | .checked seed address, false =>
      let added := w.addKey seed address
      match saved with
      | .done =>
        App.refreshAll { s with
          disk := s.disk.save added.sealed .done
          wallet := some { added with importKey := .idle } }
      | _ => { s with wallet := some { w with importKey := .asking [] } }
    | _, _ => s

/-- `RemoveKeyConfirm`. -/
def removeKeyConfirm (s : App) (saved : DiskOutcome) : App :=
  match s.wallet with
  | none => s
  | some w =>
    match w.removingKey, w.keyChangeBlocked with
    | some removing, false =>
      if trim removing.typed ≠ removing.address then s
      else
        match w.imported[removing.slot]? with
        | none => s
        | some seed =>
          let dropped := w.dropKey removing.slot
          match saved with
          | .done =>
            { s with
              disk := s.disk.save dropped.sealed .done
              wallet := some { dropped with removingKey := none } }
          | _ => { s with wallet := some (dropped.restoreKey removing.slot seed removing.address) }
    | _, _ => s

end App

/-- `App::update` on a message of the views. -/
def update (s : App) : Message → App
  | .show screen => s.showScreen screen
  | .nodeUrlChanged url => s.retarget E url
  | .retryNode url => (s.retarget E url).showScreen .startup
  | .startCreate master owned => { s.startOwned E owned with setup := .confirmBackup master }
  | .confirmBackup passed =>
    match s.setup, passed with
    | .confirmBackup master, true => { s with setup := .setPassphrase master false [] [] false }
    | _, _ => s
  | .startRestore owned => { s.startOwned E owned with setup := .restore }
  | .useMaster master =>
    match s.setup with
    | .restore =>
      if s.isTheReplacedWallet E master then s else { s with setup := .setPassphrase master true [] [] false }
    | _ => s
  | .startImportFile owned => { s.startOwned E owned with setup := .importFile false [] false none }
  | .backToChoose => if s.setup.writing then s else { s with setup := .choose }
  | .newPassphraseChanged value =>
    match s.setup with
    | .setPassphrase pending restored _ again busy =>
      { s with setup := .setPassphrase pending restored value again busy }
    | _ => s
  | .newPassphraseConfirmChanged value =>
    match s.setup with
    | .setPassphrase pending restored passphrase _ busy =>
      { s with setup := .setPassphrase pending restored passphrase value busy }
    | _ => s
  | .confirmNewPassphrase => s.confirmNewPassphrase E
  | .unlockPassphraseChanged value =>
    match s.setup with
    | .unlock _ busy => { s with setup := .unlock value busy }
    | _ => s
  | .unlock => s.unlock E
  | .importStart => s.edit fun w => if w.importBlocked then w else { w with importConfirm := true }
  | .importCancelConfirm => s.edit fun w => { w with importConfirm := false }
  | .importContinue => s.importContinue
  | .importAbort => s.importAbort
  | .importFilePicked =>
    match s.setup with
    | .importFile _ passphrase false _ => { s with setup := .importFile true passphrase false none }
    | _ => s
  | .importPassphraseChanged value =>
    match s.setup with
    | .importFile chosen _ false _ => { s with setup := .importFile chosen value false none }
    | _ => s
  | .importOpen => s.importOpen
  | .importUse => s.importUse E
  | .exporting isOpen => s.edit fun w => { w with exporting := isOpen }
  | .pollTick => s.onWallet (WalletState.pollTick s.nodeEpoch)
  | .refreshAll => s.refreshAll
  | .setActiveAddress position => s.edit (WalletState.setActiveAddress position)
  | .addAddress => s.onWallet WalletState.addAddress
  | .importKeyStart => s.edit WalletState.importKeyStart
  | .importKeySeedChanged value => s.edit fun w => { w with importKey := .asking value }
  | .importKeyCheck => s.edit (WalletState.importKeyCheck E)
  | .importKeyAdd saved => s.importKeyAdd saved
  | .importKeyCancel => s.edit fun w => { w with importKey := .idle }
  | .removeKeyStart slot => s.edit (WalletState.removeKeyStart slot)
  | .removeKeyTypedChanged value =>
    s.edit fun w => { w with removingKey := w.removingKey.map fun r => { r with typed := value } }
  | .removeKeyCancel => s.edit fun w => { w with removingKey := none }
  | .removeKeyConfirm saved => s.removeKeyConfirm saved
  | .sendRecipientChanged value => s.edit (WalletState.sendRecipientChanged value)
  | .sendAmountChanged value => s.edit (WalletState.sendAmountChanged value)
  | .sendFeeRefresh => s.onWallet WalletState.sendFeeRefresh
  | .sendReview => s.edit (WalletState.sendReview E)
  | .sendBackToCompose => s.edit WalletState.sendBackToCompose
  | .sendConfirm => s.onWallet WalletState.sendConfirm
  | .sendRetry => s.onWallet WalletState.sendRetry
  | .sendClear => s.edit WalletState.sendClear

/-! ### Answers of the jobs -/

/-- What a job meets outside: answers of the node, outcomes on disk, what a scan found, what a
file holds. -/
inductive Answer where
  | address (r : AddressResult)
  | addresses (rs : List AddressResult)
  | fee (r : Option FeeEstimate)
  | ceiling (r : AddressResult) (now : Option ℕ) (key : Text)
  | response (r : HttpResponse ⊕ Text)
  | disk (o : DiskOutcome)
  | scan (found : Option ℕ) (o : DiskOutcome)
  | opened (f : Option Sealed)
  | done

namespace App

/-- `install_wallet`: the rows of the derived and of the imported keys. -/
def openRows (r : Ready) : List AddressEntry :=
  (List.range (max r.nextIndex 1)).map (fun i => AddressEntry.new (.derived i) (addressForIndex E r.master i)) ++
    (r.imported.zipIdx.filterMap fun p => (parseImportedSeed p.1).map fun seed =>
      AddressEntry.new (.imported p.2) (addressForSeed E seed))

def openWallet (r : Ready) : WalletState where
  master := r.master
  client := r.nodeUrl
  passphrase := r.passphrase
  nextIndex := max r.nextIndex 1
  imported := r.imported
  addresses := openRows E r
  active := 0
  pollInFlight := false
  fetchInFlight := false
  addingAddress := false
  send := SendState.new
  exporting := false
  importConfirm := false
  importKey := .idle
  removingKey := none

/-- `SetupReady`. -/
def setupReady (s : App) (r : Option Ready) : App :=
  match r with
  | none => { s with setup := s.setup.idle }
  | some r =>
    if !E.validUrl r.nodeUrl then { s with setup := s.setup.idle }
    else
      App.refreshAll { s with
        wallet := some (openWallet E r)
        importing := none
        setup :=
          match s.setup with
          | .importFile _ _ _ _ => .importFile false [] false none
          | stage => stage }

/-- The file as `open_wallet_for_unlock` reads it. -/
def readFile (s : App) (o : DiskOutcome) (passphrase nodeUrl : Text) : Option Ready :=
  match o, s.disk.file with
  | .done, some f =>
    if f.passphrase = passphrase then some ⟨f.master, max f.nextIndex 1, passphrase, nodeUrl, f.imported⟩
    else none
  | _, _ => none

/-- A file a setup job writes, and what it hands back if that worked. -/
def replaceFile (s : App) (f : Sealed) (nodeUrl : Text) (o : DiskOutcome) : App × Option Ready :=
  ({ s with disk := s.disk.replace f o },
    match o with
    | .done => some ⟨f.master, max f.nextIndex 1, f.passphrase, nodeUrl, f.imported⟩
    | _ => none)

def importOpened (s : App) (f : Option Sealed) : App :=
  match s.setup with
  | .importFile chosen passphrase true _ =>
    match f with
    | none => { s with setup := .importFile chosen [] false none }
    | some f =>
      if s.isTheReplacedWallet E f.master then { s with setup := .importFile chosen passphrase false none }
      else { s with setup := .importFile chosen passphrase false (some f) }
  | _ => s

end App

/-- A job goes on: its request is answered, or it does its work on disk and hands the result
over. The job is already out of `jobs`. -/
def resume (s : App) : Job → Answer → App
  | .poll epoch node asked, .address r =>
    s.edit (WalletState.pollTickFetched (epoch ≠ s.nodeEpoch) node asked r)
  | .refresh epoch node asked, .addresses rs =>
    s.edit (WalletState.refreshAllFetched (epoch ≠ s.nodeEpoch) node (asked.zip rs))
  | .fee _, .fee r =>
    s.edit fun w => w.onSend fun send => { send with feeInFlight := false, fee := r.or send.fee }
  | .check node asked, .ceiling r now key =>
    s.onWallet (WalletState.sendSpendableChecked E node asked r now key)
  | .post _ _, .response r => s.edit (WalletState.sendSubmitted (verdict E.parse (submitAnswer E.parse r)))
  | .save f, .disk o =>
    { s with disk := s.disk.save f o }.start (.saved (if o = DiskOutcome.done then some f.nextIndex else none))
  | .saved next, .done =>
    if s.wallet.isSome && next.isSome then (s.edit (WalletState.addressStoreSaved E next)).refreshAll
    else s.edit (WalletState.addressStoreSaved E next)
  | .openFile passphrase, .opened f => s.importOpened E (f.map fun f => { f with passphrase := passphrase })
  | .unlock passphrase nodeUrl, .disk o => s.start (.ready (s.readFile o passphrase nodeUrl))
  | .create master restored passphrase nodeUrl, .scan found o =>
    match if restored then found else some 1 with
    | none => s.start (.ready none)
    | some next =>
      let r := s.replaceFile ⟨master, max next 1, [], passphrase⟩ nodeUrl o
      r.1.start (.ready r.2)
  | .useFile f nodeUrl, .disk o =>
    let r := s.replaceFile f nodeUrl o
    r.1.start (.ready r.2)
  | .ready r, .done => s.setupReady E r
  | job, _ => s.start job

/-- The `i`-th job is taken out. -/
def App.take (s : App) (i : ℕ) : App := { s with jobs := s.jobs.eraseIdx i }

def deliver (s : App) (i : ℕ) (a : Answer) : App :=
  match s.jobs[i]? with
  | none => s
  | some job => resume E (s.take i) job a

inductive AppEvent where
  | message (m : Message)
  | answer (i : ℕ) (a : Answer)

def AppEvent.step (s : App) : AppEvent → App
  | .message m => update E s m
  | .answer i a => deliver E s i a

def AppStep (s : App) (e : AppEvent) (t : App) : Prop := e.step E s = t

/-- The application as it starts. -/
def App.Started (s : App) : Prop := s.wallet = none ∧ s.jobs = []

/-! ### Taking a job out -/

theorem filter_eraseIdx_other {α : Type} {p : α → Bool} {a : α} (ha : p a = false) :
    ∀ {l : List α} {i : ℕ}, l[i]? = some a → (l.eraseIdx i).filter p = l.filter p
  | [], _, h => by simp at h
  | b :: l, 0, h => by
    simp only [List.getElem?_cons_zero, Option.some.injEq] at h
    simp [h, ha]
  | b :: l, i + 1, h => by
    rw [List.getElem?_cons_succ] at h
    rw [List.eraseIdx_cons_succ, List.filter_cons, List.filter_cons, filter_eraseIdx_other ha h]

/-- The one job of a kind is gone once it is taken out. -/
theorem filter_eraseIdx_single {α : Type} {p : α → Bool} {a b : α} (ha : p a = true) :
    ∀ {l : List α} {i : ℕ}, l[i]? = some a → l.filter p = [b] → a = b ∧ (l.eraseIdx i).filter p = []
  | [], _, h, _ => by simp at h
  | c :: l, 0, h, hf => by
    simp only [List.getElem?_cons_zero, Option.some.injEq] at h
    subst h
    rw [List.filter_cons_of_pos ha] at hf
    simpa using hf
  | c :: l, i + 1, h, hf => by
    rw [List.getElem?_cons_succ] at h
    have hmem : a ∈ l.filter p := List.mem_filter.mpr ⟨List.mem_of_getElem? h, ha⟩
    by_cases hc : p c = true
    · rw [List.filter_cons_of_pos hc, List.cons.injEq] at hf
      rw [hf.2] at hmem
      simp at hmem
    · rw [List.filter_cons_of_neg hc] at hf
      rw [List.eraseIdx_cons_succ, List.filter_cons_of_neg hc]
      exact filter_eraseIdx_single ha h hf

/-! ### A wallet to run -/

namespace Sample

def hexText (bytes : List UInt8) : Text :=
  bytes.flatMap fun b => [Nat.digitChar (b.toNat / 16), Nat.digitChar (b.toNat % 16)]

/-- Short keys, and addresses of 40 hexadecimal characters made of them. -/
def env : AppEnv where
  childSeed := fun master index => master ++ [index.toUInt8]
  publicKey := id
  addressOf := fun key => ((hexText key) ++ List.replicate 40 '0').take 40
  sign := fun seed message => seed ++ message.map fun c => c.toNat.toUInt8
  parse := fun _ => none
  validUrl := fun url => decide (url ≠ [])
  maxNonWhisperFeeUnits := fun amount => (amount * 563063063 + 500000000000) / 1000000000000 + 9999
  survivesTheWire := fun units => decide (units < 2 ^ 53)

def file : Sealed := ⟨[7], 1, [], ['p']⟩

/-- A wallet file is there, and its passphrase is typed. -/
def start : App where
  wallet := none
  setup := .unlock ['p'] false
  importing := none
  nodeUrl := ['n']
  nodeEpoch := 0
  disk := ⟨some file, []⟩
  jobs := []

def page : AddressPage := ⟨none, none, false, false, none⟩

/-- Five coins. -/
def figures : AddressState := ⟨500000000, some 500000000, page⟩

def play (s : App) (es : List AppEvent) : App := es.foldl (fun s e => e.step env s) s

def trace (s : App) (es : List AppEvent) : List (App × AppEvent) :=
  Trace.visited (fun s e => e.step env s) s es

theorem run_play (s : App) (es : List AppEvent) : Trace.Run (AppStep env) s (trace s es) (play s es) :=
  Trace.run_visited _ es s

end Sample

end Gui

end Alphanumeric
