/-
# Batches of transaction bodies

A peer that was told about transactions asks for the bodies of some. The sender packs
them, in the order of the request, into `TransactionsV1` messages of at most 256 bodies;
a body over the byte limit of a message goes alone, as a legacy `Transaction`. The
packing adds up the encoded sizes of the bodies, each with the envelope of the codec. The
message has one envelope and some bytes around the bodies, and its encoded size is
checked before it is sent: a batch that fails the check ends the transfer.

A batch of three bodies or more is smaller as a message than its bodies are by
themselves. A single body is 18 bytes larger, and two are 8 bytes larger, and this is
where the packing and the check disagree.

The transport is the parameter `deliver`: whether a message goes out after the ones
already sent. The encoding is MessagePack as `rmp_serde` writes it; how an amount looks
as a 64-bit float and the hash that makes a key are parameters.

Key definitions: `TransactionBodyV1.pack`, `packTransactionsV1`, `sendTransactionBodyBatch`,
`packLoop`, `Transfers`, `Roomy`.
Key theorems: `length_message`, `packLoop_eq`, `sendParts_roomy`, `transaction_batches`.
-/
import Alphanumeric.AddressIndex
import Alphanumeric.Lib.GreedyRuns
import Mathlib

namespace Alphanumeric

namespace TxRelay

open GreedyRuns

def maxMessageSize : ℕ := 4 * 1024 * 1024

def txRelayBatchMax : ℕ := 256

def txRelayBodyMaxBytes : ℕ := maxMessageSize - 64 * 1024

/-! ### MessagePack -/

def packArrayLen (n : ℕ) : Bytes :=
  if n < 16 then [UInt8.ofNat (0x90 + n)]
  else if n < 2 ^ 16 then 0xdc :: toBeBytes 2 n
  else 0xdd :: toBeBytes 4 n

def packMapLen (n : ℕ) : Bytes :=
  if n < 16 then [UInt8.ofNat (0x80 + n)]
  else if n < 2 ^ 16 then 0xde :: toBeBytes 2 n
  else 0xdf :: toBeBytes 4 n

def packUint (n : ℕ) : Bytes :=
  if n < 128 then [UInt8.ofNat n]
  else if n < 2 ^ 8 then 0xcc :: toBeBytes 1 n
  else if n < 2 ^ 16 then 0xcd :: toBeBytes 2 n
  else if n < 2 ^ 32 then 0xce :: toBeBytes 4 n
  else 0xcf :: toBeBytes 8 n

def packStr (s : Bytes) : Bytes :=
  (if s.length < 32 then [UInt8.ofNat (0xa0 + s.length)]
  else if s.length < 2 ^ 8 then 0xd9 :: toBeBytes 1 s.length
  else if s.length < 2 ^ 16 then 0xda :: toBeBytes 2 s.length
  else 0xdb :: toBeBytes 4 s.length) ++ s

def packOption : Option Text → Bytes
  | none => [0xc0]
  | some s => packStr (utf8 s)

/-- The envelope of the codec: `b"A9MSG2\0\0"` and the version. -/
def codecHeader : Bytes := [0x41, 0x39, 0x4d, 0x53, 0x47, 0x32, 0, 0] ++ toLeBytes 2 2

/-- `codec::serialize`, of something that packs to `payload`. -/
def codecSerialize (payload : Bytes) : Bytes := codecHeader ++ payload

/-- What the code around the packing does: the key of a transaction, and the 64 bits of an amount as a
float. -/
structure Wire where
  transactionIngressKey : Transaction → Hash
  amountBits : ℤ → ℕ

structure TransactionBodyV1 where
  key : Hash
  transaction : Transaction

variable (w : Wire)

/-- The fields of a transaction in their order. -/
def packTransaction (tx : Transaction) : Bytes :=
  packArrayLen 8 ++ packStr (utf8 tx.sender) ++ packStr (utf8 tx.recipient) ++
    0xcb :: toBeBytes 8 (w.amountBits tx.feeUnits) ++ 0xcb :: toBeBytes 8 (w.amountBits tx.amountUnits) ++
    packUint tx.timestamp ++ packOption tx.signature ++ packOption tx.pubKey ++ packOption tx.sigHash

/-- A key is an array of 32 numbers. -/
def packKey (key : Hash) : Bytes := packArrayLen 32 ++ (key.bytes.map fun b => packUint b.toNat).flatten

def TransactionBodyV1.pack (body : TransactionBodyV1) : Bytes :=
  packArrayLen 2 ++ packKey body.key ++ packTransaction w body.transaction

/-- `NetworkMessage::TransactionsV1`: a map from the name of the variant to the array of its fields. -/
def packTransactionsV1 (transactions : List TransactionBodyV1) : Bytes :=
  packMapLen 1 ++ packStr (utf8 "TransactionsV1".toList) ++ packArrayLen 1 ++
    (packArrayLen transactions.length ++ (transactions.map (TransactionBodyV1.pack w)).flatten)

/-! ### The source's functions -/

inductive RelayMessage
  | transactionsV1 (transactions : List TransactionBodyV1)
  | transaction (transaction : Transaction)

inductive SendError
  | network
  | sequence
  | byteLimit

/-- What was sent, or what was sent before an error. -/
abbrev Sent : Type := Except (List RelayMessage × SendError) (List RelayMessage)

variable (deliver : List RelayMessage → RelayMessage → Bool)

def sendMessage (sent : List RelayMessage) (message : RelayMessage) : Sent :=
  if deliver sent message then .ok (sent ++ [message]) else .error (sent, .network)

def sendTransactionBodyBatch (sent : List RelayMessage) (transactions : List TransactionBodyV1) : Sent :=
  if txRelayBatchMax < transactions.length then .error (sent, .sequence)
  else if txRelayBodyMaxBytes < (codecSerialize (packTransactionsV1 w transactions)).length then
    .error (sent, .byteLimit)
  else sendMessage deliver sent (.transactionsV1 transactions)

def wireBody (tx : Transaction) : TransactionBodyV1 := ⟨w.transactionIngressKey tx, tx⟩

/-- The encoded size of a body. -/
def transactionBytes (tx : Transaction) : ℕ := (codecSerialize ((wireBody w tx).pack w)).length

/-- `saturating_add` of `usize`. -/
def usizeSaturatingAdd (a b : ℕ) : ℕ := min (a + b) (2 ^ 64 - 1)

/-- The loop over the requested transactions, with the batch under construction. -/
def packLoop : List Transaction → List RelayMessage → List TransactionBodyV1 → ℕ → Sent
  | [], sent, body, _ => if body ≠ [] then sendTransactionBodyBatch w deliver sent body else .ok sent
  | tx :: requested, sent, body, bodyBytes =>
    if txRelayBodyMaxBytes < transactionBytes w tx then
      match if body ≠ [] then sendTransactionBodyBatch w deliver sent body else .ok sent with
      | .error e => .error e
      | .ok sent =>
        match sendMessage deliver sent (.transaction tx) with
        | .error e => .error e
        | .ok sent => packLoop requested sent [] (if body ≠ [] then 0 else bodyBytes)
    else if body ≠ [] ∧ (body.length = txRelayBatchMax ∨
        txRelayBodyMaxBytes < usizeSaturatingAdd bodyBytes (transactionBytes w tx)) then
      match sendTransactionBodyBatch w deliver sent body with
      | .error e => .error e
      | .ok sent => packLoop requested sent [wireBody w tx] (usizeSaturatingAdd 0 (transactionBytes w tx))
    else packLoop requested sent (body ++ [wireBody w tx]) (usizeSaturatingAdd bodyBytes (transactionBytes w tx))

/-- The part of `send_transaction_inventory_batch` after the peer's request. -/
def sendRequested (requested : List Transaction) : Sent := packLoop w deliver requested [] [] 0

/-! ### What a transfer should do -/

def RelayMessage.items : RelayMessage → List Transaction
  | .transactionsV1 transactions => transactions.map TransactionBodyV1.transaction
  | .transaction tx => [tx]

/-- A batch is within the limits of the sender and of the receiver; a legacy message holds a transaction
that fits into no batch. -/
def RelayMessage.Within : RelayMessage → Prop
  | .transactionsV1 transactions => transactions.length ≤ txRelayBatchMax ∧
      (codecSerialize (packTransactionsV1 w transactions)).length ≤ txRelayBodyMaxBytes
  | .transaction tx => txRelayBodyMaxBytes < transactionBytes w tx

/-- All requested transactions are sent, each once and in order, or the transport failed on the way. -/
def Transfers (requested : List Transaction) : Prop :=
  ∀ deliver, match sendRequested w deliver requested with
    | .ok sent => sent.flatMap RelayMessage.items = requested ∧ ∀ m ∈ sent, m.Within w
    | .error (sent, e) => e = .network ∧ (∃ m, deliver sent m = false) ∧
        sent.flatMap RelayMessage.items <+: requested ∧ ∀ m ∈ sent, m.Within w

/-- A run of transactions that is as small as a message as it is in the packing's count, or has the room
for the difference: a single one and two together may not be too near to the limit. -/
def Roomy (run : List Transaction) : Prop :=
  ¬ (run.length = 1 ∧ txRelayBodyMaxBytes < weight (transactionBytes w) run + 18) ∧
  ¬ (run.length = 2 ∧ txRelayBodyMaxBytes < weight (transactionBytes w) run + 8)

/-! ### The size of a message -/

theorem length_codecSerialize (payload : Bytes) : (codecSerialize payload).length = 10 + payload.length := by
  rw [codecSerialize, List.length_append]
  rfl

/-- The packing counts ten bytes too many for every body and none of what is around the bodies. -/
theorem length_message (run : List Transaction) :
    (codecSerialize (packTransactionsV1 w (run.map (wireBody w)))).length + 10 * run.length =
      27 + (packArrayLen run.length).length + weight (transactionBytes w) run := by
  have hitems : ∀ run : List Transaction, ((run.map (wireBody w)).map (TransactionBodyV1.pack w)).flatten.length +
      10 * run.length = weight (transactionBytes w) run := by
    intro run
    induction run with
    | nil => rfl
    | cons tx run ih =>
      have htx : transactionBytes w tx = 10 + ((wireBody w tx).pack w).length := length_codecSerialize _
      simp only [List.map_cons, List.flatten_cons, List.length_append, List.length_cons, weight, List.sum_cons] at ih ⊢
      omega
  have hfixed : (packMapLen 1 ++ packStr (utf8 "TransactionsV1".toList) ++ packArrayLen 1).length = 17 := by decide
  have hrun := hitems run
  rw [length_codecSerialize, packTransactionsV1, List.length_append, hfixed, List.length_append, List.length_map]
  omega

theorem length_packArrayLen {n : ℕ} (h : n < 2 ^ 16) : (packArrayLen n).length = if n < 16 then 1 else 3 := by
  rw [packArrayLen]
  by_cases hn : n < 16
  · rw [if_pos hn, if_pos hn]
    rfl
  · rw [if_neg hn, if_neg hn, if_pos h, List.length_cons, toBeBytes_length]

/-- A run within the budget makes a message within the limit exactly if it is roomy. -/
theorem message_le_iff {run : List Transaction} (hne : run ≠ []) (hcount : run.length ≤ txRelayBatchMax)
    (hweight : weight (transactionBytes w) run ≤ txRelayBodyMaxBytes) :
    (codecSerialize (packTransactionsV1 w (run.map (wireBody w)))).length ≤ txRelayBodyMaxBytes ↔ Roomy w run := by
  have hlength := length_message w run
  have hcount' : run.length ≤ 256 := hcount
  have hpos : 0 < run.length := List.length_pos_iff.mpr hne
  rw [length_packArrayLen (by omega)] at hlength
  unfold Roomy
  split at hlength <;> constructor
  all_goals intro h
  · constructor <;> rintro ⟨hone, hover⟩ <;> omega
  · obtain ⟨hone, htwo⟩ := h
    by_contra hover
    rcases Nat.lt_or_ge run.length 3 with hsmall | hlarge
    · rcases (by omega : run.length = 1 ∨ run.length = 2) with hlen | hlen
      · exact hone ⟨hlen, by omega⟩
      · exact htwo ⟨hlen, by omega⟩
    · omega
  · constructor <;> rintro ⟨hone, hover⟩ <;> omega
  · omega

/-! ### The loop sends the parts of the longest runs -/

def sendPart (sent : List RelayMessage) : Piece Transaction → Sent
  | .alone tx => sendMessage deliver sent (.transaction tx)
  | .run run => sendTransactionBodyBatch w deliver sent (run.map (wireBody w))

def sendParts : List RelayMessage → List (Piece Transaction) → Sent
  | sent, [] => .ok sent
  | sent, part :: parts =>
    match sendPart w deliver sent part with
    | .error e => .error e
    | .ok sent => sendParts sent parts

theorem sendParts_nil (sent : List RelayMessage) : sendParts w deliver sent [] = .ok sent := rfl

theorem sendParts_single (sent : List RelayMessage) (part : Piece Transaction) :
    sendParts w deliver sent [part] = sendPart w deliver sent part := by
  rw [sendParts]
  cases sendPart w deliver sent part <;> rfl

abbrev cutRequested : List Transaction → List Transaction → List (Piece Transaction) :=
  cutFrom (transactionBytes w) txRelayBatchMax txRelayBodyMaxBytes

theorem over_saturatingAdd (a b : ℕ) : txRelayBodyMaxBytes < usizeSaturatingAdd a b ↔ txRelayBodyMaxBytes < a + b := by
  have hlimit : txRelayBodyMaxBytes < 2 ^ 64 - 1 := by decide
  rw [usizeSaturatingAdd]
  omega

theorem saturatingAdd_eq {a b : ℕ} (h : a + b ≤ txRelayBodyMaxBytes) : usizeSaturatingAdd a b = a + b := by
  have hlimit : txRelayBodyMaxBytes < 2 ^ 64 - 1 := by decide
  rw [usizeSaturatingAdd]
  omega

theorem packLoop_eq : ∀ (requested : List Transaction) (sent : List RelayMessage) (run : List Transaction),
    packLoop w deliver requested sent (run.map (wireBody w)) (weight (transactionBytes w) run) =
      sendParts w deliver sent (cutRequested w run requested)
  | [], sent, run => by
    rw [packLoop, cutRequested, cutFrom]
    simp only [ne_eq, List.map_eq_nil_iff]
    by_cases hrun : run = []
    · rw [if_neg (not_not_intro hrun), if_pos hrun]
      rfl
    · rw [if_pos hrun, if_neg hrun, sendParts_single]
      rfl
  | tx :: requested, sent, run => by
    have hnil := fun sent => packLoop_eq requested sent []
    have hstart := fun sent => packLoop_eq requested sent [tx]
    have hgrow := packLoop_eq requested sent (run ++ [tx])
    rw [packLoop, cutRequested, cutFrom]
    simp only [ne_eq, List.map_eq_nil_iff, List.length_map, over_saturatingAdd]
    by_cases hover : txRelayBodyMaxBytes < transactionBytes w tx
    · rw [if_pos hover, if_pos hover]
      by_cases hrun : run = []
      · subst hrun
        rw [if_neg (not_not_intro rfl), if_pos rfl, List.nil_append, if_neg (not_not_intro rfl), sendParts]
        dsimp only [sendPart]
        cases sendMessage deliver sent (.transaction tx) with
        | error e => rfl
        | ok sent => exact hnil sent
      · rw [if_pos hrun, if_neg hrun, if_pos hrun, List.singleton_append, sendParts]
        dsimp only [sendPart]
        cases sendTransactionBodyBatch w deliver sent (run.map (wireBody w)) with
        | error e => rfl
        | ok sent =>
          dsimp only
          rw [sendParts]
          dsimp only [sendPart]
          cases sendMessage deliver sent (.transaction tx) with
          | error e => rfl
          | ok sent => exact hnil sent
    · have hle : transactionBytes w tx ≤ txRelayBodyMaxBytes := Nat.le_of_not_lt hover
      rw [if_neg hover, if_neg hover]
      by_cases hfull : run ≠ [] ∧ (run.length = txRelayBatchMax ∨
          txRelayBodyMaxBytes < weight (transactionBytes w) run + transactionBytes w tx)
      · rw [if_pos hfull, if_pos hfull, saturatingAdd_eq (by omega), Nat.zero_add, sendParts]
        dsimp only [sendPart]
        cases sendTransactionBodyBatch w deliver sent (run.map (wireBody w)) with
        | error e => rfl
        | ok sent =>
          have hweight : weight (transactionBytes w) [tx] = transactionBytes w tx := by simp [weight]
          dsimp only
          rw [← hweight]
          exact hstart sent
      · have hfits : weight (transactionBytes w) run + transactionBytes w tx ≤ txRelayBodyMaxBytes := by
          by_cases hrun : run = []
          · rw [hrun]
            exact (Nat.zero_add _).le.trans hle
          · exact Nat.le_of_not_lt fun h => hfull ⟨hrun, .inr h⟩
        rw [if_neg hfull, if_neg hfull, saturatingAdd_eq hfits, ← weight_concat]
        rw [List.map_append] at hgrow
        exact hgrow

/-! ### What is sent -/

def messageOf : Piece Transaction → RelayMessage
  | .alone tx => .transaction tx
  | .run run => .transactionsV1 (run.map (wireBody w))

theorem items_messageOf : ∀ part : Piece Transaction, (messageOf w part).items = part.items
  | .alone _ => rfl
  | .run run => by
    rw [messageOf, RelayMessage.items, List.map_map]
    exact List.map_id run

variable {w deliver}

/-- Parts that pass the check go out one after the other until the transport fails. -/
theorem sendParts_sends : ∀ (parts : List (Piece Transaction)) (sent : List RelayMessage),
    (∀ part ∈ parts, ∀ sent, sendPart w deliver sent part = sendMessage deliver sent (messageOf w part)) →
    sendParts w deliver sent parts = .ok (sent ++ parts.map (messageOf w)) ∨
    ∃ gone left, parts = gone ++ left ∧ (∃ m, deliver (sent ++ gone.map (messageOf w)) m = false) ∧
      sendParts w deliver sent parts = .error (sent ++ gone.map (messageOf w), .network)
  | [], sent, _ => .inl (by rw [List.map_nil, List.append_nil, sendParts_nil])
  | part :: parts, sent, h => by
    rw [sendParts, h part List.mem_cons_self, sendMessage]
    by_cases hdeliver : deliver sent (messageOf w part) = true
    · rw [if_pos hdeliver]
      dsimp only
      have hsent : ∀ gone : List (Piece Transaction), (sent ++ [messageOf w part]) ++ gone.map (messageOf w) =
          sent ++ (part :: gone).map (messageOf w) := fun gone => by rw [List.append_assoc]; rfl
      rcases sendParts_sends parts (sent ++ [messageOf w part]) fun p hp => h p (List.mem_cons_of_mem _ hp) with
        hall | ⟨gone, left, rfl, hfail, hstop⟩
      · rw [hall, hsent]
        exact .inl rfl
      · rw [hsent] at hfail hstop
        exact .inr ⟨part :: gone, left, rfl, hfail, hstop⟩
    · rw [if_neg hdeliver]
      refine .inr ⟨[], part :: parts, rfl, ⟨messageOf w part, ?_⟩, ?_⟩
      · rw [List.map_nil, List.append_nil]
        exact Bool.eq_false_iff.mpr hdeliver
      · rw [List.map_nil, List.append_nil]

/-- A run that was sent passed the check. -/
theorem passed_of_sendParts {run : List Transaction} {out : List RelayMessage} :
    ∀ {parts : List (Piece Transaction)} {sent : List RelayMessage}, sendParts w deliver sent parts = .ok out →
    .run run ∈ parts → (codecSerialize (packTransactionsV1 w (run.map (wireBody w)))).length ≤ txRelayBodyMaxBytes
  | part :: parts, sent, h, hmem => by
    rw [sendParts] at h
    cases hpart : sendPart w deliver sent part with
    | error e =>
      rw [hpart] at h
      cases h
    | ok sent' =>
      rw [hpart] at h
      rcases List.mem_cons.mp hmem with rfl | hmem'
      · rw [sendPart, sendTransactionBodyBatch] at hpart
        by_contra hover
        rw [if_pos (Nat.lt_of_not_le hover)] at hpart
        split at hpart <;> cases hpart
      · exact passed_of_sendParts h hmem'

theorem sendRequested_eq (requested : List Transaction) :
    sendRequested w deliver requested = sendParts w deliver [] (cutRequested w [] requested) :=
  packLoop_eq w deliver requested [] []

theorem items_sent (parts : List (Piece Transaction)) :
    (parts.map (messageOf w)).flatMap RelayMessage.items = parts.flatMap Piece.items := by
  rw [List.flatMap_map]
  exact List.flatMap_congr fun part _ => items_messageOf w part

theorem items_cut (requested : List Transaction) : (cutRequested w [] requested).flatMap Piece.items = requested :=
  items_cutFrom [] requested

theorem cut_requested (requested : List Transaction) :
    Cut (transactionBytes w) txRelayBatchMax txRelayBodyMaxBytes requested (cutRequested w [] requested) :=
  cut_cutFrom (by decide) [] requested (Nat.zero_le _) (Nat.zero_le _)

/-- A part whose run is roomy passes the check and is within the limits. -/
theorem part_within {parts : List (Piece Transaction)} {requested : List Transaction}
    (hcut : Cut (transactionBytes w) txRelayBatchMax txRelayBodyMaxBytes requested parts)
    (hroomy : ∀ run, .run run ∈ parts → Roomy w run) {part : Piece Transaction} (hpart : part ∈ parts) :
    (messageOf w part).Within w ∧
    ∀ deliver sent, sendPart w deliver sent part = sendMessage deliver sent (messageOf w part) := by
  cases part with
  | alone tx => exact ⟨hcut.piece.1 tx hpart, fun _ _ => rfl⟩
  | run run =>
    obtain ⟨hne, hcount, hweight⟩ := hcut.piece.2 run hpart
    have hle := (message_le_iff w hne hcount hweight).mpr (hroomy run hpart)
    have hcount' : (run.map (wireBody w)).length ≤ txRelayBatchMax := by rwa [List.length_map]
    refine ⟨⟨hcount', hle⟩, fun deliver sent => ?_⟩
    rw [sendPart, sendTransactionBodyBatch, if_neg (Nat.not_lt_of_le hcount'), if_neg (Nat.not_lt_of_le hle)]
    rfl

variable (w) in
/-- **Transaction body batching.** The requested transactions are sent, each once and in order, in messages
within the limits, exactly if every one of the longest runs they are cut into is roomy. -/
theorem transaction_batches (requested : List Transaction) : Transfers w requested ↔
    ∀ parts, Cut (transactionBytes w) txRelayBatchMax txRelayBodyMaxBytes requested parts →
      ∀ run, .run run ∈ parts → Roomy w run := by
  constructor
  · intro h parts hcut run hrun
    obtain ⟨hne, hcount, hweight⟩ := hcut.piece.2 run hrun
    have hsame : parts = cutRequested w [] requested := hcut.unique (cut_requested requested)
    have hall := h fun _ _ => true
    rw [sendRequested_eq, ← hsame] at hall
    cases hsent : sendParts w (fun _ _ => true) [] parts with
    | ok sent => exact (message_le_iff w hne hcount hweight).mp (passed_of_sendParts hsent hrun)
    | error e =>
      rw [hsent] at hall
      obtain ⟨-, ⟨m, hm⟩, -⟩ := hall
      cases hm
  · intro h deliver
    have hcut := cut_requested (w := w) requested
    have hparts : ∀ part ∈ cutRequested w [] requested, (messageOf w part).Within w ∧
        ∀ deliver sent, sendPart w deliver sent part = sendMessage deliver sent (messageOf w part) :=
      fun part hpart => part_within hcut (h _ hcut) hpart
    have hwithin : ∀ gone : List (Piece Transaction), gone <+: cutRequested w [] requested →
        ∀ m ∈ gone.map (messageOf w), m.Within w := by
      intro gone hgone m hm
      obtain ⟨part, hpart, rfl⟩ := List.mem_map.mp hm
      exact (hparts part (hgone.subset hpart)).1
    rw [sendRequested_eq]
    rcases sendParts_sends (cutRequested w [] requested) []
      fun part hpart sent => (hparts part hpart).2 deliver sent with
      hall | ⟨gone, left, hsplit, hfail, hstop⟩
    · rw [hall]
      refine ⟨?_, hwithin _ List.prefix_rfl⟩
      rw [List.nil_append, items_sent, items_cut]
    · have hgone : gone <+: cutRequested w [] requested := ⟨left, hsplit.symm⟩
      rw [hstop]
      refine ⟨rfl, hfail, ?_, hwithin gone hgone⟩
      rw [List.nil_append, items_sent, ← items_cut (w := w) requested, hsplit, List.flatMap_append]
      exact List.prefix_append _ _

/-! ### A body that is packed and then refused -/

local instance hashNeZero : NeZero (2 ^ 256) := ⟨by decide⟩

/-- A wire on which every key and every amount is zero. -/
def plainWire : Wire := ⟨fun _ => 0, fun _ => 0⟩

/-- An unsigned transaction of a sender with a very long name. -/
def longTransaction (n : ℕ) : Transaction := ⟨List.replicate n 'a', [], 0, 0, 0, none, none, none⟩

theorem length_utf8_replicate : ∀ n : ℕ, (utf8 (List.replicate n 'a')).length = n
  | 0 => rfl
  | n + 1 => by
    have ih := length_utf8_replicate n
    rw [utf8] at ih ⊢
    rw [List.replicate_succ, List.flatMap_cons, List.length_append, ih, Nat.add_comm]
    rfl

theorem transactionBytes_long {n : ℕ} (hlarge : 2 ^ 16 ≤ n) :
    transactionBytes plainWire (longTransaction n) = n + 75 := by
  have hsender : (packStr (utf8 (longTransaction n).sender)).length = 5 + n := by
    have hlen : (utf8 (longTransaction n).sender).length = n := length_utf8_replicate n
    rw [packStr, hlen, if_neg (by omega), if_neg (by omega), if_neg (by omega), List.length_append, hlen,
      List.length_cons, toBeBytes_length]
  have hkey : (packArrayLen 2 ++ packKey (wireBody plainWire (longTransaction n)).key).length = 36 := by
    have hzero : (packArrayLen 2 ++ packKey 0).length = 36 := by decide +kernel
    exact hzero
  rw [transactionBytes, length_codecSerialize, TransactionBodyV1.pack, List.length_append, hkey]
  have htx : (packTransaction plainWire (longTransaction n)).length = 29 + n := by
    simp only [packTransaction, List.length_append, hsender, List.length_cons, toBeBytes_length]
    simp only [longTransaction, packOption, packUint, packStr, packArrayLen, utf8]
    simp
    omega
  have hsame : (packTransaction plainWire (wireBody plainWire (longTransaction n)).transaction).length = 29 + n := htx
  omega

/-- A single body that is as large as a message may be is packed, and the message with it is not sent. -/
theorem stopped_at_limit {tx : Transaction} (hbytes : transactionBytes w tx = txRelayBodyMaxBytes) :
    sendRequested w deliver [tx] = .error ([], .byteLimit) := by
  have hmessage : txRelayBodyMaxBytes < (codecSerialize (packTransactionsV1 w [wireBody w tx])).length := by
    have hlength := length_message w [tx]
    simp only [weight, List.map_cons, List.map_nil, List.sum_cons, List.sum_nil, List.length_cons, List.length_nil,
      hbytes] at hlength
    have hone : (packArrayLen (0 + 1)).length = 1 := rfl
    omega
  have hcount : ¬ txRelayBatchMax < [wireBody w tx].length := by
    rw [List.length_singleton]
    decide
  rw [sendRequested, packLoop, if_neg (by rw [hbytes]; exact lt_irrefl _), if_neg fun hne => hne.1 rfl, List.nil_append,
    packLoop, if_pos (List.cons_ne_nil _ _), sendTransactionBodyBatch, if_neg hcount, if_pos hmessage]

/-- So a transfer can fail by the sender's own packing. -/
theorem transaction_batch_refused : ¬ ∀ (w : Wire) (requested : List Transaction), Transfers w requested := by
  intro h
  obtain ⟨tx, hbytes⟩ : ∃ tx, transactionBytes plainWire tx = txRelayBodyMaxBytes :=
    ⟨longTransaction 4128693, transactionBytes_long (by norm_num)⟩
  have htransfer := h plainWire [tx] fun _ _ => true
  rw [stopped_at_limit hbytes] at htransfer
  exact nomatch htransfer.1

end TxRelay

end Alphanumeric
