/-
# The address in a STUN response

A node asks a STUN server under which address the world sees it. The response is a header
(type, length, magic cookie, transaction id) and attributes, each a type, the length of
its value, the value, and padding to a multiple of four bytes. `parse_stun_response`
checks the cookie and the id and walks over the attributes to the first one that holds
an IPv4 address.

The walk steps over the value of an attribute and not over its padding. So it reads the
response as if no attribute were padded, from the first attribute on whose length is not
a multiple of four. It also takes the number 0x8020 for the address attribute. `Aligned`
is the condition on the attributes under which neither shows.

Addresses are the numbers of their four bytes.

Key definitions: `parseStunResponse`, `unpadded`, `StunAttribute`, `StunResponse.encode`,
`StunResponse.address`, `Aligned`.
Key theorems: `stunLoop_eq`, `read_cons`, `read_of_aligned`, `aligned_of_read`, `stun_response`.
-/
import Alphanumeric.AddressIndex

namespace Alphanumeric

namespace Stun

/-! ### The source's functions -/

def stunMagicCookie : ℕ := 0x2112A442

abbrev TransactionId : Type := {id : Bytes // id.length = 12}

/-- `NodeError::Network`. -/
inductive NodeError
  | network (message : Text)

/-- What the parser does: it returns, it reads outside the input (a panic), or it goes on. -/
inductive Outcome
  | done (result : Except NodeError ℕ)
  | outside
  | running

/-- `data[start..stop]`. -/
def slice (data : Bytes) (start stop : ℕ) : Option Bytes :=
  if start ≤ stop ∧ stop ≤ data.length then some ((data.take stop).drop start) else none

/-- The type and the length of the attribute at `pos`. -/
def attributeHead (data : Bytes) (pos : ℕ) : Option (ℕ × ℕ) := do
  let t₀ ← data[pos]?
  let t₁ ← data[pos + 1]?
  let l₀ ← data[pos + 2]?
  let l₁ ← data[pos + 3]?
  some (fromBeBytes [t₀, t₁], fromBeBytes [l₀, l₁])

/-- The four address bytes of the attribute at `pos`, as a number. -/
def xorIp (data : Bytes) (pos : ℕ) : Option ℕ := do
  let b₀ ← data[pos + 8]?
  let b₁ ← data[pos + 9]?
  let b₂ ← data[pos + 10]?
  let b₃ ← data[pos + 11]?
  some (fromBeBytes [b₀, b₁, b₂, b₃])

/-- The `while` loop, for `fuel` turns at most. -/
def stunLoop (data : Bytes) : ℕ → ℕ → Outcome
  | 0, _ => .running
  | fuel + 1, pos =>
    if pos + 4 ≤ data.length then
      match attributeHead data pos with
      | none => .outside
      | some (attrType, attrLen) =>
        if (attrType = 0x0020 ∨ attrType = 0x8020) ∧ attrLen = 8 ∧ pos + 12 ≤ data.length then
          match data[pos + 5]?, xorIp data pos with
          | some ipFamily, some xorIp =>
            if ipFamily = 1 then .done (.ok (xorIp ^^^ stunMagicCookie)) else stunLoop data fuel (pos + (4 + attrLen))
          | _, _ => .outside
        else stunLoop data fuel (pos + (4 + attrLen))
    else .done (.error (.network "No valid IP found in STUN response".toList))

def parseStunResponse (data : Bytes) (expectedTxid : TransactionId) : Outcome :=
  if data.length < 20 then .done (.error (.network "Invalid STUN response".toList))
  else
    match slice data 4 8, slice data 8 20 with
    | some cookie, some txid =>
      if cookie ≠ toBeBytes 4 stunMagicCookie ∨ txid ≠ expectedTxid.val then
        .done (.error (.network "STUN response cookie / transaction id mismatch".toList))
      else stunLoop data data.length 20
    | _, _ => .outside

/-! ### Responses -/

/-- An attribute, with the padding that the server sends after it. -/
structure StunAttribute where
  type : ℕ
  value : Bytes
  padding : Bytes
  type_lt : type < 2 ^ 16
  length_lt : value.length < 2 ^ 16
  aligned : (value.length + padding.length) % 4 = 0 ∧ padding.length < 4

def StunAttribute.encode (a : StunAttribute) : Bytes :=
  toBeBytes 2 a.type ++ toBeBytes 2 a.value.length ++ a.value ++ a.padding

def encodeAttributes (attributes : List StunAttribute) : Bytes := (attributes.map StunAttribute.encode).flatten

/-- The address that a value holds if it is an IPv4 address: reserved byte, family, port, and the address
under the cookie. -/
def ipv4Of (value : Bytes) : Option ℕ :=
  if value.length = 8 ∧ value[1]? = some 1 then some (fromBeBytes (value.drop 4) ^^^ stunMagicCookie) else none

/-- XOR-MAPPED-ADDRESS has type 0x0020. -/
def StunAttribute.address (a : StunAttribute) : Option ℕ := if a.type = 0x0020 then ipv4Of a.value else none

/-- A success response to a transaction. -/
structure StunResponse where
  txid : TransactionId
  attributes : List StunAttribute
  length_lt : (encodeAttributes attributes).length < 2 ^ 16

/-- `0x0101` is the type of a success response. -/
def StunResponse.encode (r : StunResponse) : Bytes :=
  toBeBytes 2 0x0101 ++ toBeBytes 2 (encodeAttributes r.attributes).length ++ toBeBytes 4 stunMagicCookie ++
    r.txid.val ++ encodeAttributes r.attributes

/-- An address, or the error that there is none. -/
def answerOf (address : Option ℕ) : Except NodeError ℕ :=
  match address with
  | some ip => .ok ip
  | none => .error (.network "No valid IP found in STUN response".toList)

/-- The address of the first IPv4 XOR-MAPPED-ADDRESS attribute, and an error if there is none. -/
def StunResponse.address (r : StunResponse) : Except NodeError ℕ :=
  answerOf (r.attributes.findSome? StunAttribute.address)

/-! ### Reading without padding -/

/-- The bytes cut into types and values as if no value were padded. -/
def unpaddedLoop : ℕ → Bytes → List (ℕ × Bytes)
  | fuel + 1, t₀ :: t₁ :: l₀ :: l₁ :: rest =>
    if fromBeBytes [l₀, l₁] ≤ rest.length then
      (fromBeBytes [t₀, t₁], rest.take (fromBeBytes [l₀, l₁])) :: unpaddedLoop fuel (rest.drop (fromBeBytes [l₀, l₁]))
    else []
  | _, _ => []

def unpadded (bytes : Bytes) : List (ℕ × Bytes) := unpaddedLoop bytes.length bytes

/-- The address that the parser takes from an attribute. -/
def taken (record : ℕ × Bytes) : Option ℕ :=
  if record.1 = 0x0020 ∨ record.1 = 0x8020 then ipv4Of record.2 else none

/-- Up to the first attribute that the parser takes an address from, each has a length that is a multiple of
four, the last attribute of the response apart; and that one has the address of the first IPv4
XOR-MAPPED-ADDRESS. -/
def Aligned : List StunAttribute → Prop
  | [] => True
  | a :: attributes =>
    match taken (a.type, a.value) with
    | some ip => (a :: attributes).findSome? StunAttribute.address = some ip
    | none => attributes = [] ∨ a.value.length % 4 = 0 ∧ Aligned attributes

/-! ### The walk -/

theorem unpaddedLoop_short : ∀ {fuel : ℕ} {bytes : Bytes}, bytes.length < 4 → unpaddedLoop fuel bytes = []
  | 0, _, _ => rfl
  | _ + 1, [], _ => rfl
  | _ + 1, [_], _ => rfl
  | _ + 1, [_, _], _ => rfl
  | _ + 1, [_, _, _], _ => rfl
  | _ + 1, _ :: _ :: _ :: _ :: rest, h => by
    simp only [List.length_cons] at h
    omega

/-- Any fuel that suffices gives the same. -/
theorem unpaddedLoop_eq : ∀ {fuel fuel' : ℕ} {bytes : Bytes}, bytes.length ≤ fuel → bytes.length ≤ fuel' →
    unpaddedLoop fuel bytes = unpaddedLoop fuel' bytes
  | 0, _, bytes, h, _ => by
    rw [unpaddedLoop_short (by omega), unpaddedLoop_short (by omega)]
  | _, 0, bytes, _, h => by
    rw [unpaddedLoop_short (by omega), unpaddedLoop_short (by omega)]
  | fuel + 1, fuel' + 1, t₀ :: t₁ :: l₀ :: l₁ :: rest, h, h' => by
    simp only [List.length_cons] at h h'
    have hle : (rest.drop (fromBeBytes [l₀, l₁])).length ≤ rest.length := by
      rw [List.length_drop]
      omega
    have hrest : unpaddedLoop fuel (rest.drop (fromBeBytes [l₀, l₁])) =
        unpaddedLoop fuel' (rest.drop (fromBeBytes [l₀, l₁])) :=
      unpaddedLoop_eq (hle.trans (by omega)) (hle.trans (by omega))
    rw [unpaddedLoop, unpaddedLoop, hrest]
  | _ + 1, _ + 1, [], _, _ => rfl
  | _ + 1, _ + 1, [_], _, _ => rfl
  | _ + 1, _ + 1, [_, _], _, _ => rfl
  | _ + 1, _ + 1, [_, _, _], _, _ => rfl

theorem unpadded_short {bytes : Bytes} (h : bytes.length < 4) : unpadded bytes = [] := unpaddedLoop_short h

theorem unpadded_cons {t₀ t₁ l₀ l₁ : UInt8} {rest : Bytes} (h : fromBeBytes [l₀, l₁] ≤ rest.length) :
    unpadded (t₀ :: t₁ :: l₀ :: l₁ :: rest) =
      (fromBeBytes [t₀, t₁], rest.take (fromBeBytes [l₀, l₁])) :: unpadded (rest.drop (fromBeBytes [l₀, l₁])) := by
  have hle : (rest.drop (fromBeBytes [l₀, l₁])).length ≤ rest.length := by
    rw [List.length_drop]
    omega
  rw [unpadded, List.length_cons, unpaddedLoop, if_pos h]
  congr 1
  exact unpaddedLoop_eq (by simp only [List.length_cons]; omega) le_rfl

theorem unpadded_cut {t₀ t₁ l₀ l₁ : UInt8} {rest : Bytes} (h : rest.length < fromBeBytes [l₀, l₁]) :
    unpadded (t₀ :: t₁ :: l₀ :: l₁ :: rest) = [] := by
  rw [unpadded, List.length_cons, unpaddedLoop, if_neg (Nat.not_le_of_lt h)]

theorem exists_cons_of_le {bytes : Bytes} :
    ∀ {n : ℕ}, n + 1 ≤ bytes.length → ∃ b rest, bytes = b :: rest ∧ n ≤ rest.length
  | n, h => by
    obtain ⟨b, rest, rfl⟩ := List.exists_cons_of_length_pos (by omega : 0 < bytes.length)
    exact ⟨b, rest, rfl, by simpa using h⟩

theorem exists_four {bytes : Bytes} {n : ℕ} (h : n + 4 ≤ bytes.length) :
    ∃ b₀ b₁ b₂ b₃ rest, bytes = b₀ :: b₁ :: b₂ :: b₃ :: rest ∧ n ≤ rest.length := by
  obtain ⟨b₀, r₀, rfl, h₀⟩ := exists_cons_of_le h
  obtain ⟨b₁, r₁, rfl, h₁⟩ := exists_cons_of_le h₀
  obtain ⟨b₂, r₂, rfl, h₂⟩ := exists_cons_of_le h₁
  obtain ⟨b₃, r₃, rfl, h₃⟩ := exists_cons_of_le h₂
  exact ⟨b₀, b₁, b₂, b₃, r₃, rfl, h₃⟩

/-- An attribute of the length of an IPv4 address. -/
theorem taken_address {type : ℕ} {c₀ c₁ c₂ c₃ c₄ c₅ c₆ c₇ : UInt8} {rest : Bytes} (h : type = 0x0020 ∨ type = 0x8020) :
    taken (type, (c₀ :: c₁ :: c₂ :: c₃ :: c₄ :: c₅ :: c₆ :: c₇ :: rest).take 8) =
      if c₁ = 1 then some (fromBeBytes [c₄, c₅, c₆, c₇] ^^^ stunMagicCookie) else none := by
  rw [taken, if_pos h, ipv4Of]
  simp

theorem taken_other {type : ℕ} {value : Bytes} (h : ¬ ((type = 0x0020 ∨ type = 0x8020) ∧ value.length = 8)) :
    taken (type, value) = none := by
  rw [taken]
  by_cases htype : type = 0x0020 ∨ type = 0x8020
  · rw [if_pos htype, ipv4Of, if_neg fun hvalue => h ⟨htype, hvalue.1⟩]
  · rw [if_neg htype]

/-- The walk reads every attribute as one without padding, never outside the input, and ends. -/
theorem stunLoop_eq (data : Bytes) : ∀ {fuel pos : ℕ}, (data.drop pos).length < fuel →
    stunLoop data fuel pos = .done (answerOf ((unpadded (data.drop pos)).findSome? taken))
  | fuel + 1, pos, hfuel => by
    rw [stunLoop]
    by_cases hpos : pos + 4 ≤ data.length
    · have hdroplen : 0 + 4 ≤ (data.drop pos).length := by
        rw [List.length_drop]
        omega
      obtain ⟨t₀, t₁, l₀, l₁, rest, hrest, -⟩ := exists_four (hdroplen : 0 + 4 ≤ (data.drop pos).length)
      have hget : ∀ i, data[pos + i]? = (t₀ :: t₁ :: l₀ :: l₁ :: rest)[i]? := by
        intro i
        rw [← hrest, List.getElem?_drop]
      have hhead : attributeHead data pos = some (fromBeBytes [t₀, t₁], fromBeBytes [l₀, l₁]) := by
        rw [attributeHead, ← Nat.add_zero pos]
        simp only [Nat.add_assoc, hget]
        rfl
      have hlen : data.length = pos + 4 + rest.length := by
        have hcount := congrArg List.length hrest
        simp only [List.length_drop, List.length_cons] at hcount
        omega
      have hdrop : data.drop (pos + (4 + fromBeBytes [l₀, l₁])) = rest.drop (fromBeBytes [l₀, l₁]) := by
        rw [← List.drop_drop, hrest, ← List.drop_drop]
        rfl
      rw [if_pos hpos, hhead, hrest]
      dsimp only
      by_cases hfit : fromBeBytes [l₀, l₁] ≤ rest.length
      · have hnext : stunLoop data fuel (pos + (4 + fromBeBytes [l₀, l₁])) = _ := stunLoop_eq data (by
          rw [hdrop, List.length_drop]
          rw [List.length_drop] at hfuel
          omega)
        rw [hdrop] at hnext
        rw [unpadded_cons hfit, List.findSome?_cons]
        by_cases hcond : (fromBeBytes [t₀, t₁] = 0x0020 ∨ fromBeBytes [t₀, t₁] = 0x8020) ∧ fromBeBytes [l₀, l₁] = 8
        · have hsize : 4 + 4 ≤ rest.length := by omega
          obtain ⟨c₀, c₁, c₂, c₃, rest', rfl, hrest'⟩ := exists_four hsize
          obtain ⟨c₄, c₅, c₆, c₇, rest'', rfl, -⟩ := exists_four (hrest' : 0 + 4 ≤ rest'.length)
          have hxor : xorIp data pos = some (fromBeBytes [c₄, c₅, c₆, c₇]) := by
            rw [xorIp]
            simp only [hget]
            rfl
          have hfamily : data[pos + 5]? = some c₁ := hget 5
          rw [if_pos ⟨hcond.1, hcond.2, by omega⟩, hfamily, hxor, hnext, hcond.2, taken_address hcond.1]
          dsimp only
          by_cases hfour : c₁ = 1
          · rw [if_pos hfour, if_pos hfour]
            rfl
          · rw [if_neg hfour, if_neg hfour]
        · rw [if_neg fun h => hcond ⟨h.1, h.2.1⟩, hnext, taken_other]
          rw [List.length_take, min_eq_left hfit]
          exact hcond
      · -- the attribute ends outside the input, so the walk ends at the next turn
        have hnext : stunLoop data fuel (pos + (4 + fromBeBytes [l₀, l₁])) = _ := stunLoop_eq data (by
          rw [hdrop, List.length_drop]
          rw [List.length_drop] at hfuel
          omega)
        have hnil : rest.drop (fromBeBytes [l₀, l₁]) = [] := List.drop_eq_nil_of_le (by omega)
        rw [hdrop, hnil] at hnext
        rw [if_neg (by omega), hnext, unpadded_cut (Nat.lt_of_not_le hfit)]
        rfl
    · have hshort : (data.drop pos).length < 4 := by
        rw [List.length_drop]
        omega
      rw [if_neg hpos, unpadded_short hshort]
      rfl

/-! ### Responses -/

theorem toBeBytes_two {n : ℕ} (h : n < 2 ^ 16) : ∃ b₀ b₁, toBeBytes 2 n = [b₀, b₁] ∧ fromBeBytes [b₀, b₁] = n := by
  have hback : fromBeBytes (toBeBytes 2 n) = n := fromBeBytes_toBeBytes (h.trans_le (by norm_num))
  obtain ⟨b₀, b₁, heq⟩ := List.length_eq_two.mp (toBeBytes_length 2 n)
  exact ⟨b₀, b₁, heq, heq ▸ hback⟩

theorem unpadded_encode (a : StunAttribute) (rest : Bytes) :
    unpadded (a.encode ++ rest) = (a.type, a.value) :: unpadded (a.padding ++ rest) := by
  obtain ⟨t₀, t₁, htype, htype'⟩ := toBeBytes_two a.type_lt
  obtain ⟨l₀, l₁, hlen, hlen'⟩ := toBeBytes_two a.length_lt
  have hbytes : a.encode ++ rest = t₀ :: t₁ :: l₀ :: l₁ :: (a.value ++ (a.padding ++ rest)) := by
    rw [StunAttribute.encode, htype, hlen]
    simp
  have hfit : fromBeBytes [l₀, l₁] ≤ (a.value ++ (a.padding ++ rest)).length := by
    rw [hlen', List.length_append]
    omega
  rw [hbytes, unpadded_cons hfit, htype', hlen', List.take_left' rfl, List.drop_left' rfl]

theorem address_of_taken_none {a : StunAttribute} (h : taken (a.type, a.value) = none) : a.address = none := by
  rw [StunAttribute.address]
  by_cases htype : a.type = 0x0020
  · rw [taken, if_pos (.inl htype)] at h
    rw [if_pos htype, h]
  · rw [if_neg htype]

theorem padding_eq_nil (a : StunAttribute) : a.padding = [] ↔ a.value.length % 4 = 0 := by
  have haligned := a.aligned
  rw [← List.length_eq_zero_iff]
  omega

/-- The walk over an attribute: its address, or what the walk finds from its padding on. -/
theorem read_cons (a : StunAttribute) (attributes : List StunAttribute) :
    (unpadded (encodeAttributes (a :: attributes))).findSome? taken =
      (taken (a.type, a.value)).or ((unpadded (a.padding ++ encodeAttributes attributes)).findSome? taken) := by
  have hbytes : encodeAttributes (a :: attributes) = a.encode ++ encodeAttributes attributes := by
    rw [encodeAttributes, List.map_cons, List.flatten_cons]
    rfl
  rw [hbytes, unpadded_encode, List.findSome?_cons]
  cases taken (a.type, a.value) <;> rfl

/-- The walk finds the right address in aligned attributes. -/
theorem read_of_aligned : ∀ {attributes : List StunAttribute}, Aligned attributes →
    (unpadded (encodeAttributes attributes)).findSome? taken = attributes.findSome? StunAttribute.address
  | [], _ => rfl
  | a :: attributes, h => by
    rw [read_cons]
    rw [Aligned] at h
    cases htaken : taken (a.type, a.value) with
    | some ip =>
      rw [htaken] at h
      exact h.symm
    | none =>
      rw [htaken] at h
      rw [Option.none_or, List.findSome?_cons, address_of_taken_none htaken]
      rcases h with rfl | ⟨hlen, hrest⟩
      · -- behind the last attribute there are at most three bytes, which the walk does not read
        have hshort : (a.padding ++ encodeAttributes []).length < 4 := by
          rw [show encodeAttributes [] = [] from rfl, List.append_nil]
          exact a.aligned.2
        rw [unpadded_short hshort]
        rfl
      · rw [(padding_eq_nil a).mpr hlen, List.nil_append]
        exact read_of_aligned hrest

/-- Attributes without padding have to be aligned for that. -/
theorem aligned_of_read : ∀ {attributes : List StunAttribute}, (∀ a ∈ attributes, a.value.length % 4 = 0) →
    (unpadded (encodeAttributes attributes)).findSome? taken = attributes.findSome? StunAttribute.address →
    Aligned attributes
  | [], _, _ => trivial
  | a :: attributes, hlen, h => by
    rw [read_cons] at h
    rw [Aligned]
    cases htaken : taken (a.type, a.value) with
    | some ip =>
      rw [htaken] at h
      exact h.symm
    | none =>
      have ha := hlen a List.mem_cons_self
      rw [htaken, Option.none_or, List.findSome?_cons, address_of_taken_none htaken, (padding_eq_nil a).mpr ha,
        List.nil_append] at h
      exact .inr ⟨ha, aligned_of_read (fun a' ha' => hlen a' (List.mem_cons_of_mem _ ha')) h⟩

theorem answerOf_injective : Function.Injective answerOf
  | none, none, _ => rfl
  | some _, some _, h => congrArg some (Except.ok.inj h)
  | none, some _, h => nomatch h
  | some _, none, h => nomatch h

/-- The response to the transaction passes the checks of the header. -/
theorem parse_encode (r : StunResponse) : parseStunResponse r.encode r.txid =
    .done (answerOf ((unpadded (encodeAttributes r.attributes)).findSome? taken)) := by
  have hhead : (toBeBytes 2 0x0101 ++ toBeBytes 2 (encodeAttributes r.attributes).length).length = 4 := by
    rw [List.length_append, toBeBytes_length, toBeBytes_length]
  have hcookie : (toBeBytes 4 stunMagicCookie).length = 4 := toBeBytes_length 4 _
  have hsplit : r.encode = (toBeBytes 2 0x0101 ++ toBeBytes 2 (encodeAttributes r.attributes).length) ++
      (toBeBytes 4 stunMagicCookie ++ (r.txid.val ++ encodeAttributes r.attributes)) := by
    simp only [StunResponse.encode, List.append_assoc]
  have hlen : r.encode.length = 20 + (encodeAttributes r.attributes).length := by
    rw [hsplit, List.length_append, hhead, List.length_append, hcookie, List.length_append, r.txid.property]
    omega
  have hdrop4 : r.encode.drop 4 = toBeBytes 4 stunMagicCookie ++ (r.txid.val ++ encodeAttributes r.attributes) := by
    rw [hsplit, List.drop_left' hhead]
  have hdrop8 : r.encode.drop 8 = r.txid.val ++ encodeAttributes r.attributes := by
    rw [← List.drop_drop (i := 4) (j := 4), hdrop4, List.drop_left' hcookie]
  have hdrop20 : r.encode.drop 20 = encodeAttributes r.attributes := by
    rw [← List.drop_drop (i := 12) (j := 8), hdrop8, List.drop_left' r.txid.property]
  have hslice4 : slice r.encode 4 8 = some (toBeBytes 4 stunMagicCookie) := by
    rw [slice, if_pos (by omega), List.drop_take, hdrop4, List.take_left' hcookie]
  have hslice8 : slice r.encode 8 20 = some r.txid.val := by
    rw [slice, if_pos (by omega), List.drop_take, hdrop8, List.take_left' r.txid.property]
  rw [parseStunResponse, if_neg (by omega), hslice4, hslice8]
  dsimp only
  rw [if_neg (by simp), stunLoop_eq _ (by rw [List.length_drop]; omega), hdrop20]

/-- The parser returns, whatever it is given. -/
theorem parse_done (data : Bytes) (txid : TransactionId) : ∃ result, parseStunResponse data txid = .done result := by
  rw [parseStunResponse]
  by_cases hshort : data.length < 20
  · rw [if_pos hshort]
    exact ⟨_, rfl⟩
  · have hslice4 : slice data 4 8 = some ((data.take 8).drop 4) := if_pos (by omega)
    have hslice8 : slice data 8 20 = some ((data.take 20).drop 8) := if_pos (by omega)
    rw [if_neg hshort, hslice4, hslice8]
    dsimp only
    split
    · exact ⟨_, rfl⟩
    · exact ⟨_, stunLoop_eq data (by rw [List.length_drop]; omega)⟩

/-- **STUN responses.** The parser reads inside its input and returns, for all bytes; and of a success
response with aligned attributes it returns the address of the first IPv4 XOR-MAPPED-ADDRESS attribute, or
the error that there is none. Where no attribute is padded they have to be aligned for that. -/
theorem stun_response (data : Bytes) (txid : TransactionId) (r : StunResponse) :
    (∃ result, parseStunResponse data txid = .done result) ∧
    (Aligned r.attributes → parseStunResponse r.encode r.txid = .done r.address) ∧
    ((∀ a ∈ r.attributes, a.value.length % 4 = 0) → parseStunResponse r.encode r.txid = .done r.address →
      Aligned r.attributes) := by
  have hread : parseStunResponse r.encode r.txid = .done r.address ↔
      (unpadded (encodeAttributes r.attributes)).findSome? taken = r.attributes.findSome? StunAttribute.address := by
    rw [parse_encode, Outcome.done.injEq, StunResponse.address, answerOf_injective.eq_iff]
  exact ⟨parse_done data txid, fun haligned => hread.mpr (read_of_aligned haligned),
    fun hlen h => aligned_of_read hlen (hread.mp h)⟩

/-- A server's name of four letters before the address. -/
def softwareAligned : StunResponse where
  txid := ⟨[1, 2, 3, 4, 5, 6, 7, 8, 9, 10, 11, 12], rfl⟩
  attributes :=
    [⟨0x8022, [0x73, 0x72, 0x76, 0x36], [], by decide, by decide, by decide⟩,
      ⟨0x0020, [0, 1, 0x21, 0x12, 0x21, 0x12, 0xa4, 0x43], [], by decide, by decide, by decide⟩]
  length_lt := by decide

/-- Behind it the address 0.0.0.1 is found. -/
theorem stun_response_found :
    Aligned softwareAligned.attributes ∧
      parseStunResponse softwareAligned.encode softwareAligned.txid = .done (.ok 1) := by
  have haligned : Aligned softwareAligned.attributes := .inr ⟨rfl, rfl⟩
  have hlen : ∀ a ∈ softwareAligned.attributes, a.value.length % 4 = 0 := by decide
  have h := (stun_response [] softwareAligned.txid softwareAligned).2
  have hfound : parseStunResponse softwareAligned.encode softwareAligned.txid = .done (.ok 1) := h.1 haligned
  exact ⟨h.2 hlen hfound, hfound⟩

/-- A server's name of three letters before the address. -/
def softwareFirst : StunResponse where
  txid := ⟨[1, 2, 3, 4, 5, 6, 7, 8, 9, 10, 11, 12], rfl⟩
  attributes :=
    [⟨0x8022, [0x73, 0x72, 0x76], [0], by decide, by decide, by decide⟩,
      ⟨0x0020, [0, 1, 0x21, 0x12, 0x21, 0x12, 0xa4, 0x43], [], by decide, by decide, by decide⟩]
  length_lt := by decide

/-- Behind a name of three letters it is not. -/
theorem stun_response_desynchronised :
    ¬ ∀ r : StunResponse, parseStunResponse r.encode r.txid = .done r.address := by
  intro h
  have hfound : softwareFirst.address = .ok 1 := by rfl
  have hlost : parseStunResponse softwareFirst.encode softwareFirst.txid =
      .done (.error (.network "No valid IP found in STUN response".toList)) := by rfl
  have hsame := (h softwareFirst).symm.trans hlost
  rw [hfound] at hsame
  exact nomatch (Outcome.done.inj hsame)

end Stun

end Alphanumeric
