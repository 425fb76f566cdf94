/-
# Erasure-coded blocks

A block travels as twenty shards, any sixteen of which give it back. The sender puts the
block behind a header with a magic word and its length, cuts the result into sixteen
data shards of one size, the last ones filled up with zeros, and lets a Reed-Solomon
encoder compute four parity shards. The receiver lets it restore the missing data shards,
joins them and takes the block out of the frame: the length in the header tells the
block from the zeros.

The encoder is a library the node calls. Here it is a parameter, and `Lawful` is what its
documentation promises; `polynomialCode` is an encoder that is lawful.

Key definitions: `ReedSolomon`, `ReedSolomon.Lawful`, `ErasureManager.encode`,
`ErasureManager.decode`, `polynomialCode`.
Key theorems: `flatten_padded`, `unframe_frame`, `lawful_polynomialCode`, `erasure_round_trip`.
-/
import Mathlib.Data.List.ReduceOption
import Mathlib.FieldTheory.Finite.GaloisField
import Alphanumeric.AddressIndex
import Alphanumeric.Lib.SystematicCode

namespace Alphanumeric

/-! ### The source's functions -/

def erasureShardCount : ℕ := 16

def erasureParityShardCount : ℕ := 4

def erasureTotalShardCount : ℕ := erasureShardCount + erasureParityShardCount

/-- `b"A9E1"`. -/
def erasureFrameMagic : Bytes := [0x41, 0x39, 0x45, 0x31]

def erasureFrameHeaderLen : ℕ := erasureFrameMagic.length + 8

inductive VelocityError
  | encoding (message : Text)

/-- The encoder the node calls: `encode_sep` fills parity buffers for data shards, `reconstruct`
fills in missing shards. -/
structure ReedSolomon where
  encodeSep : List Bytes → List Bytes → Except Text (List Bytes)
  reconstruct : List (Option Bytes) → Except Text (List (Option Bytes))

/-- A slice of the machine's memory. -/
structure Slice where
  bytes : Bytes
  addressable : bytes.length < 2 ^ 63

/-- Some of a list of shards, the others replaced by `None`. -/
def ShardsOf (shards : List Bytes) (known : List (Option Bytes)) : Prop :=
  known.length = shards.length ∧ ∀ (i : ℕ) (s : Bytes), known[i]? = some (some s) → shards[i]? = some s

/-- What is promised of an encoder for sixteen data shards and four parity shards: it fills the
buffers for data shards of one size, and it restores the data shards from any sixteen of all twenty. -/
structure ReedSolomon.Lawful (rs : ReedSolomon) : Prop where
  encodes : ∀ (size : ℕ) (data buffers : List Bytes), data.length = erasureShardCount →
    buffers.length = erasureParityShardCount → 1 ≤ size → (∀ s ∈ data ++ buffers, s.length = size) →
    ∃ parity, rs.encodeSep data buffers = .ok parity ∧ parity.length = erasureParityShardCount ∧
      ∀ s ∈ parity, s.length = size
  restores : ∀ (size : ℕ) (data buffers parity : List Bytes) (known : List (Option Bytes)),
    data.length = erasureShardCount → buffers.length = erasureParityShardCount → 1 ≤ size →
    (∀ s ∈ data ++ buffers, s.length = size) → rs.encodeSep data buffers = .ok parity →
    ShardsOf (data ++ parity) known → erasureShardCount ≤ known.countP (·.isSome) →
    ∃ full, rs.reconstruct known = .ok full ∧ full.take erasureShardCount = data.map some

namespace ErasureManager

def framePayload (data : Bytes) : Bytes := erasureFrameMagic ++ toLeBytes 8 data.length ++ data

/-- `checked_add` of `usize`. -/
def usizeAdd (a b : ℕ) : Option ℕ := if a + b < 2 ^ 64 then some (a + b) else none

def unframePayload (data : Bytes) : Except VelocityError Bytes :=
  if data.length < erasureFrameHeaderLen ∨ data.take erasureFrameMagic.length ≠ erasureFrameMagic then
    .ok data
  else
    let payloadLen := fromLeBytes ((data.take erasureFrameHeaderLen).drop erasureFrameMagic.length)
    let payloadStart := erasureFrameHeaderLen
    match usizeAdd payloadStart payloadLen with
    | none => .error (.encoding "framed payload length overflow".toList)
    | some payloadEnd =>
      if data.length < payloadEnd then .error (.encoding "framed payload length exceeds decoded data".toList)
      else .ok ((data.take payloadEnd).drop payloadStart)

/-- The first `k` pieces of `size` bytes. -/
def pieces (size : ℕ) : ℕ → Bytes → List Bytes
  | 0, _ => []
  | k + 1, data => data.take size :: pieces size k (data.drop size)

/-- `chunks`: consecutive pieces of `size` bytes, the last one possibly shorter. -/
def chunks (size : ℕ) (data : Bytes) : List Bytes := pieces size ((data.length + size - 1) / size) data

/-- A chunk copied to the start of a shard of zeros. -/
def padded (size : ℕ) (chunk : Bytes) : Bytes := chunk ++ List.replicate (size - chunk.length) 0

def shardSize (payload : Bytes) : ℕ :=
  max ((payload.length + erasureShardCount - 1) / erasureShardCount) 1

/-- The data shards, with shards of zeros added while there are too few. -/
def dataShards (payload : Bytes) : List Bytes :=
  let size := shardSize payload
  let shards := (chunks size payload).map (padded size)
  shards ++ List.replicate (erasureShardCount - shards.length) (List.replicate size 0)

def encode (rs : ReedSolomon) (data : Bytes) : Except VelocityError (List Bytes) :=
  let payload := framePayload data
  let shards := dataShards payload
  let parity := List.replicate erasureParityShardCount (List.replicate (shardSize payload) 0)
  match rs.encodeSep shards parity with
  | .error e => .error (.encoding e)
  | .ok parity => .ok (shards ++ parity)

def decode (rs : ReedSolomon) (shards : List (Option Bytes)) : Except VelocityError Bytes :=
  if shards.length ≠ erasureTotalShardCount then
    .error (.encoding ("expected ".toList ++ Nat.toDigits 10 erasureTotalShardCount ++ " shards, got ".toList ++
      Nat.toDigits 10 shards.length))
  else
    let available := shards.countP (·.isSome)
    if available < erasureShardCount then
      .error (.encoding ("need at least ".toList ++ Nat.toDigits 10 erasureShardCount ++ " shards, got ".toList ++
        Nat.toDigits 10 available))
    else
      match rs.reconstruct shards with
      | .error e => .error (.encoding e)
      | .ok shards => unframePayload (shards.take erasureShardCount).reduceOption.flatten

/-! ### Cutting and joining -/

theorem length_pieces (size : ℕ) : ∀ (k : ℕ) (data : Bytes), (pieces size k data).length = k
  | 0, _ => rfl
  | k + 1, data => congrArg (· + 1) (length_pieces size k (data.drop size))

theorem length_padded {size : ℕ} {chunk : Bytes} (h : chunk.length ≤ size) : (padded size chunk).length = size := by
  rw [padded, List.length_append, List.length_replicate]
  omega

theorem length_of_mem_pieces {size : ℕ} {chunk : Bytes} : ∀ {k : ℕ} {data : Bytes}, chunk ∈ pieces size k data →
    chunk.length ≤ size
  | k + 1, data, h => by
    rcases List.mem_cons.mp h with rfl | h'
    · exact List.length_take_le _ _
    · exact length_of_mem_pieces h'

/-- Pieces that reach over the end of the data are filled up with zeros. -/
theorem flatten_padded {size : ℕ} : ∀ {k : ℕ} {data : Bytes}, data.length ≤ k * size →
    ((pieces size k data).map (padded size)).flatten = data ++ List.replicate (k * size - data.length) 0
  | 0, data, h => by
    have hnil : data = [] := List.eq_nil_of_length_eq_zero (by omega)
    subst hnil
    simp [pieces]
  | k + 1, data, h => by
    have hrest : (data.drop size).length ≤ k * size := by
      rw [List.length_drop]
      have hsucc : (k + 1) * size = k * size + size := Nat.succ_mul k size
      omega
    have hsucc : (k + 1) * size = k * size + size := Nat.succ_mul k size
    rw [pieces, List.map_cons, List.flatten_cons, flatten_padded hrest, padded, List.length_take, List.length_drop]
    by_cases hle : data.length ≤ size
    · rw [List.take_of_length_le hle, List.drop_eq_nil_of_le hle, min_eq_right hle, List.nil_append, List.append_assoc,
        ← List.replicate_add]
      congr 2
      omega
    · have hfull : size - min size data.length = 0 := by omega
      have hzeros : k * size - (data.length - size) = (k + 1) * size - data.length := by omega
      rw [hfull, List.replicate_zero, List.append_nil, ← List.append_assoc, List.take_append_drop, hzeros]

theorem length_le_chunks {size : ℕ} (hsize : 1 ≤ size) (payload : Bytes) :
    payload.length ≤ (payload.length + size - 1) / size * size := by
  have hmod : (payload.length + size - 1) % size < size := Nat.mod_lt _ hsize
  have hdiv : size * ((payload.length + size - 1) / size) + (payload.length + size - 1) % size =
      payload.length + size - 1 := Nat.div_add_mod _ _
  rw [Nat.mul_comm]
  omega

/-- The payload fits into sixteen shards. -/
theorem length_le_shards (payload : Bytes) : payload.length ≤ erasureShardCount * shardSize payload := by
  have h : (payload.length + 16 - 1) / 16 ≤ shardSize payload := le_max_left _ _
  rw [erasureShardCount]
  omega

theorem shardSize_pos (payload : Bytes) : 1 ≤ shardSize payload := le_max_right _ _

/-- There are never more than sixteen chunks. -/
theorem length_chunks_le (payload : Bytes) : (chunks (shardSize payload) payload).length ≤ erasureShardCount := by
  have hpos := shardSize_pos payload
  have hle := length_le_shards payload
  rw [chunks, length_pieces, Nat.div_le_iff_le_mul_add_pred hpos, Nat.mul_comm]
  omega

theorem length_dataShards (payload : Bytes) : (dataShards payload).length = erasureShardCount := by
  have hle := length_chunks_le payload
  rw [dataShards, List.length_append, List.length_replicate, List.length_map]
  omega

theorem length_of_mem_dataShards {payload shard : Bytes} (h : shard ∈ dataShards payload) :
    shard.length = shardSize payload := by
  rcases List.mem_append.mp h with hchunk | hzero
  · obtain ⟨chunk, hmem, rfl⟩ := List.mem_map.mp hchunk
    exact length_padded (length_of_mem_pieces hmem)
  · rw [List.eq_of_mem_replicate hzero, List.length_replicate]

/-- The data shards joined are the payload and zeros. -/
theorem flatten_dataShards (payload : Bytes) : ∃ zeros, (dataShards payload).flatten = payload ++ zeros := by
  have hfit := length_le_chunks (shardSize_pos payload) payload
  exact ⟨_, by rw [dataShards, List.flatten_append, chunks, flatten_padded hfit, List.append_assoc]⟩

/-! ### The frame -/

/-- The block is taken out of the frame again, whatever it holds and whatever follows. -/
theorem unframe_frame {data : Bytes} (hlen : data.length < 2 ^ 63) (zeros : Bytes) :
    (unframePayload (framePayload data ++ zeros)) = .ok data := by
  have hheader : (erasureFrameMagic ++ toLeBytes 8 data.length).length = erasureFrameHeaderLen := by
    rw [List.length_append, toLeBytes_length]
    rfl
  have hframe : framePayload data ++ zeros = (erasureFrameMagic ++ toLeBytes 8 data.length) ++ (data ++ zeros) := by
    rw [framePayload, List.append_assoc]
  have hmagic : (framePayload data ++ zeros).take erasureFrameMagic.length = erasureFrameMagic := by
    rw [hframe, List.append_assoc, List.take_left']
    rfl
  have hlength : fromLeBytes (((framePayload data ++ zeros).take erasureFrameHeaderLen).drop erasureFrameMagic.length) =
      data.length := by
    rw [hframe, List.take_left' hheader, List.drop_left' rfl, fromLeBytes_toLeBytes (hlen.trans (by norm_num))]
  have hsize : (framePayload data ++ zeros).length = erasureFrameHeaderLen + data.length + zeros.length := by
    rw [hframe, List.length_append, hheader, List.length_append]
    omega
  have hadd : usizeAdd erasureFrameHeaderLen data.length = some (erasureFrameHeaderLen + data.length) := by
    refine if_pos ?_
    have hhead : erasureFrameHeaderLen = 12 := rfl
    omega
  have hbody : ((framePayload data ++ zeros).take (erasureFrameHeaderLen + data.length)).drop erasureFrameHeaderLen =
      data := by
    rw [hframe, ← hheader, List.take_length_add_append, List.drop_left' rfl, List.take_left' rfl]
  rw [unframePayload, if_neg (by rw [hmagic, hsize]; simp; omega)]
  simp only [hlength, hadd, hbody]
  rw [if_neg (by rw [hsize]; omega)]

/-! ### The round trip -/

/-- The parity buffers of a payload. -/
theorem length_shards_of_mem {payload shard : Bytes}
    (h : shard ∈ dataShards payload ++
      List.replicate erasureParityShardCount (List.replicate (shardSize payload) 0)) :
    shard.length = shardSize payload := by
  rcases List.mem_append.mp h with hdata | hparity
  · exact length_of_mem_dataShards hdata
  · rw [List.eq_of_mem_replicate hparity, List.length_replicate]

/-- What decoding makes of sixteen of the shards of a payload. -/
theorem decode_shards {rs : ReedSolomon} (hrs : rs.Lawful) {payload : Bytes} {parity : List Bytes}
    (hparity : rs.encodeSep (dataShards payload)
      (List.replicate erasureParityShardCount (List.replicate (shardSize payload) 0)) = .ok parity)
    (hcount : parity.length = erasureParityShardCount) {known : List (Option Bytes)}
    (hknown : ShardsOf (dataShards payload ++ parity) known)
    (henough : erasureShardCount ≤ known.countP (·.isSome)) :
    decode rs known = unframePayload (dataShards payload).flatten := by
  have hlength : known.length = erasureTotalShardCount := by
    rw [hknown.1, List.length_append, length_dataShards, hcount]
    rfl
  obtain ⟨full, hfull, hdata⟩ := hrs.restores _ _ _ parity known (length_dataShards payload)
    List.length_replicate (shardSize_pos payload) (fun s hs => length_shards_of_mem hs) hparity hknown henough
  rw [decode, if_neg (not_not_intro hlength), if_neg (Nat.not_lt_of_le henough), hfull]
  dsimp only
  rw [hdata, List.reduceOption, List.filterMap_map]
  exact congrArg (fun shards => unframePayload shards.flatten) List.filterMap_some

/-- **Erasure framing round trip.** Every byte string is encoded as sixteen data shards and four
parity shards of one size, and is decoded from any sixteen of them. -/
theorem erasure_round_trip (rs : ReedSolomon) (hrs : rs.Lawful) (d : Slice) :
    ∃ data parity size, encode rs d.bytes = .ok (data ++ parity) ∧
      data.length = 16 ∧ parity.length = 4 ∧ (∀ s ∈ data ++ parity, s.length = size) ∧
      ∀ known, ShardsOf (data ++ parity) known → 16 ≤ known.countP (·.isSome) → decode rs known = .ok d.bytes := by
  obtain ⟨parity, hparity, hcount, hsizes⟩ := hrs.encodes _ _ _ (length_dataShards (framePayload d.bytes))
    List.length_replicate (shardSize_pos _) fun s hs => length_shards_of_mem hs
  refine ⟨dataShards (framePayload d.bytes), parity, shardSize (framePayload d.bytes), ?_,
    length_dataShards _, hcount, ?_, ?_⟩
  · simp only [encode, hparity]
  · intro s hs
    rcases List.mem_append.mp hs with hdata | hpar
    · exact length_of_mem_dataShards hdata
    · exact hsizes s hpar
  · intro known hknown henough
    obtain ⟨zeros, hzeros⟩ := flatten_dataShards (framePayload d.bytes)
    rw [decode_shards hrs hparity hcount hknown henough, hzeros, unframe_frame d.addressable]

/-! ### A lawful encoder -/

section PolynomialCode

open SystematicCode

variable {K : Type} [Field K] (e : UInt8 ≃ K)

/-- Shard `i` stands at byte `i`, read as an element of the field. -/
def node (i : ℕ) : K := e (UInt8.ofNat i)

/-- Shard `i`, column by column, of the word that has `shards` at the positions `t`. -/
noncomputable def polyShard (t : Finset ℕ) (shards : ℕ → Bytes) (size i : ℕ) : Bytes :=
  (List.range size).map fun c => e.symm (symbol (node e) t (fun j => e ((shards j).getD c 0)) i)

/-- The systematic Reed-Solomon code of the field of 256 elements whose elements `e` numbers: the
bytes in a column of shards are the values of a polynomial of degree below sixteen. -/
noncomputable def polynomialCode : ReedSolomon where
  encodeSep data _ := .ok ((List.range erasureParityShardCount).map fun j =>
    polyShard e (Finset.range erasureShardCount) (fun i => data.getD i []) (data.headD []).length
      (erasureShardCount + j))
  reconstruct known :=
    let present := (Finset.range known.length).filter fun i => (known.getD i none).isSome
    let size := (known.reduceOption.headD []).length
    .ok ((List.range known.length).map fun i =>
      some ((known.getD i none).getD (polyShard e present (fun j => (known.getD j none).getD []) size i)))

omit [Field K] in
theorem node_injOn : Set.InjOn (node e) (Finset.range erasureTotalShardCount) := by
  intro i hi j hj h
  have hi' : i < 20 := Finset.mem_range.mp hi
  have hj' : j < 20 := Finset.mem_range.mp hj
  have hbyte : (UInt8.ofNat i).toNat = (UInt8.ofNat j).toNat := congrArg _ (e.injective h)
  rw [UInt8.toNat_ofNat', UInt8.toNat_ofNat'] at hbyte
  omega

theorem card_present (known : List (Option Bytes)) :
    ((Finset.range known.length).filter fun i => (known.getD i none).isSome).card = known.countP (·.isSome) := by
  have hlist : (List.range known.length).map (fun i => known.getD i none) = known := by
    refine List.ext_getElem (by simp) fun i h h' => ?_
    simp [h']
  calc ((Finset.range known.length).filter fun i => (known.getD i none).isSome).card
      = (List.range known.length).countP fun i => (known.getD i none).isSome := by
        rw [List.countP_eq_length_filter, Finset.card_def, Finset.filter_val, Finset.range_val, Multiset.range,
          Multiset.filter_coe, Multiset.coe_card]
        simp only [Bool.decide_eq_true]
    _ = ((List.range known.length).map fun i => known.getD i none).countP (·.isSome) := by
        rw [List.countP_map]
        rfl
    _ = known.countP (·.isSome) := by rw [hlist]

/-- A shard of the code is restored from any sixteen. -/
theorem polyShard_recover {t : Finset ℕ} {data : List Bytes} {shards : ℕ → Bytes} {size i : ℕ}
    (ht : t ⊆ Finset.range erasureTotalShardCount) (hcard : erasureShardCount ≤ t.card) (hi : i < erasureShardCount)
    (hsize : (data.getD i []).length = size)
    (hsame : ∀ j ∈ t, ∀ c < size, (shards j).getD c 0 =
      e.symm (symbol (node e) (Finset.range erasureShardCount) (fun j => e ((data.getD j []).getD c 0)) j)) :
    polyShard e t shards size i = data.getD i [] := by
  have hnodes := node_injOn e
  have hdata : Set.InjOn (node e) (Finset.range erasureShardCount) :=
    hnodes.mono (by exact_mod_cast Finset.range_subset_range.mpr (by decide))
  refine List.ext_getElem (by rw [polyShard, List.length_map, List.length_range, hsize]) fun c hc hc' => ?_
  have hcsize : c < size := hsize ▸ hc'
  have hrecover := symbol_recover hdata (hnodes.mono (by exact_mod_cast ht)) (by simpa using hcard)
    (fun j hj => by rw [hsame j hj c hcsize, e.apply_symm_apply] : ∀ j ∈ t, symbol (node e)
      (Finset.range erasureShardCount) (fun j => e ((data.getD j []).getD c 0)) j = e ((shards j).getD c 0)) i
  rw [symbol_data hdata (Finset.mem_range.mpr hi)] at hrecover
  simp only [polyShard, List.getElem_map, List.getElem_range]
  rw [hrecover, e.symm_apply_apply, List.getD_eq_getElem?_getD, List.getElem?_eq_getElem hc', Option.getD_some]

theorem length_headD {data : List Bytes} {size : ℕ} (hne : data ≠ []) (hsize : ∀ s ∈ data, s.length = size) :
    (data.headD []).length = size := by
  cases data with
  | nil => exact absurd rfl hne
  | cons s data => exact hsize s List.mem_cons_self

/-- The parity shards that the code computes for data shards of one size. -/
theorem polynomialCode_encodes {size : ℕ} {data buffers : List Bytes} (hdata : data.length = erasureShardCount)
    (hsize : ∀ s ∈ data ++ buffers, s.length = size) :
    (polynomialCode e).encodeSep data buffers = .ok ((List.range erasureParityShardCount).map fun j =>
      polyShard e (Finset.range erasureShardCount) (fun i => data.getD i []) size (erasureShardCount + j)) := by
  have hne : data ≠ [] := fun h => by simp [h, erasureShardCount] at hdata
  have hhead := length_headD hne fun s hs => hsize s (List.mem_append_left _ hs)
  simp only [polynomialCode, hhead]

theorem map_range_getD {data : List Bytes} {n : ℕ} (h : data.length = n) :
    (List.range n).map (fun i => some (data.getD i [])) = data.map some := by
  subst h
  refine List.ext_getElem (by simp) fun i hi hi' => ?_
  have hlt : i < data.length := by simpa using hi
  simp [hlt]

/-- What is restored of a data shard is the shard. -/
theorem restored_shard {size i : ℕ} {data : List Bytes} {known : List (Option Bytes)}
    (hdata : data.length = erasureShardCount) (hsize : ∀ s ∈ data, s.length = size)
    (hknown : ShardsOf (data ++ (List.range erasureParityShardCount).map fun j =>
      polyShard e (Finset.range erasureShardCount) (fun i => data.getD i []) size (erasureShardCount + j)) known)
    (henough : erasureShardCount ≤ known.countP (·.isSome)) (hi : i < erasureShardCount) :
    (known.getD i none).getD (polyShard e ((Finset.range known.length).filter fun i => (known.getD i none).isSome)
      (fun j => (known.getD j none).getD []) size i) = data.getD i [] := by
  have hlength : known.length = erasureTotalShardCount := by
    rw [hknown.1, List.length_append, hdata, List.length_map, List.length_range]
    rfl
  -- a known shard is the shard that was sent
  have hshard : ∀ j s, known.getD j none = some s → (data ++ (List.range erasureParityShardCount).map fun j =>
      polyShard e (Finset.range erasureShardCount) (fun i => data.getD i []) size (erasureShardCount + j))[j]? =
        some s := by
    intro j s hs
    refine hknown.2 j s ?_
    rw [List.getD_eq_getElem?_getD] at hs
    cases hj : known[j]? with
    | none =>
      rw [hj] at hs
      cases hs
    | some s' =>
      rw [hj] at hs
      exact congrArg some hs
  have hget : ∀ j, j < erasureShardCount → data[j]? = some (data.getD j []) := by
    intro j hj
    rw [List.getD_eq_getElem?_getD, List.getElem?_eq_getElem (hdata ▸ hj), Option.getD_some]
  cases hs : known.getD i none with
  | some s =>
    have hs' := hshard i s hs
    rw [List.getElem?_append_left (hdata ▸ hi), hget i hi, Option.some_inj] at hs'
    exact hs'.symm
  | none =>
    rw [Option.getD_none]
    refine polyShard_recover e (hlength ▸ Finset.filter_subset _ _) (card_present known ▸ henough) hi
      (hsize _ (List.mem_of_getElem? (hget i hi))) fun j hj c hc => ?_
    obtain ⟨s, hs⟩ := Option.isSome_iff_exists.mp (Finset.mem_filter.mp hj).2
    have hs' := hshard j s hs
    rw [hs, Option.getD_some]
    by_cases hjd : j < erasureShardCount
    · rw [List.getElem?_append_left (hdata ▸ hjd), hget j hjd, Option.some_inj] at hs'
      have hnodes : Set.InjOn (node e) (Finset.range erasureShardCount) :=
        (node_injOn e).mono (by exact_mod_cast Finset.range_subset_range.mpr (by decide))
      rw [symbol_data hnodes (Finset.mem_range.mpr hjd), e.symm_apply_apply, hs']
    · rw [List.getElem?_append_right (by omega), hdata, List.getElem?_map] at hs'
      obtain ⟨k, hk, rfl⟩ := Option.map_eq_some_iff.mp hs'
      obtain ⟨_, hget⟩ := List.getElem?_eq_some_iff.mp hk
      rw [List.getElem_range] at hget
      subst hget
      have hback : erasureShardCount + (j - erasureShardCount) = j := by omega
      rw [hback, polyShard, List.getD_eq_getElem?_getD, List.getElem?_map, List.getElem?_range hc]
      rfl

theorem lawful_polynomialCode : (polynomialCode e).Lawful where
  encodes size data buffers hdata _ _ hsize := by
    refine ⟨_, polynomialCode_encodes e hdata hsize, by simp, fun s hs => ?_⟩
    obtain ⟨j, -, rfl⟩ := List.mem_map.mp hs
    simp [polyShard]
  restores size data buffers parity known hdata _ hpos hsize hparity hknown henough := by
    have hdatasize : ∀ s ∈ data, s.length = size := fun s hs => hsize s (List.mem_append_left _ hs)
    rw [polynomialCode_encodes e hdata hsize, Except.ok.injEq] at hparity
    subst hparity
    have hlength : known.length = erasureTotalShardCount := by
      rw [hknown.1, List.length_append, hdata, List.length_map, List.length_range]
      rfl
    have hhead : (known.reduceOption.headD []).length = size := by
      refine length_headD (fun hnil => ?_) fun s hs => ?_
      · have hzero : known.countP (·.isSome) = 0 := by
          refine List.countP_eq_zero.mpr fun s hs hsome => ?_
          obtain ⟨s', rfl⟩ := Option.isSome_iff_exists.mp hsome
          rw [← List.reduceOption_mem_iff, hnil] at hs
          cases hs
        rw [hzero] at henough
        exact absurd henough (by decide)
      · obtain ⟨j, hj⟩ := List.mem_iff_getElem?.mp (List.reduceOption_mem_iff.mp hs)
        rcases List.mem_append.mp (List.mem_of_getElem? (hknown.2 j s hj)) with hd | hp
        · exact hdatasize s hd
        · obtain ⟨k, -, rfl⟩ := List.mem_map.mp hp
          simp [polyShard]
    refine ⟨_, rfl, ?_⟩
    rw [hhead, ← List.map_take, List.take_range, hlength, ← map_range_getD hdata]
    refine List.map_congr_left fun i hi => congrArg some ?_
    rw [← hlength]
    exact restored_shard e hdata hdatasize hknown henough (List.mem_range.mp hi)

end PolynomialCode

/-- The field of 256 elements, with some numbering of its elements. -/
noncomputable def byteField : UInt8 ≃ GaloisField 2 8 :=
  (⟨UInt8.toFin, UInt8.ofFin, fun _ => rfl, fun _ => rfl⟩ : UInt8 ≃ Fin 256).trans
    (Finite.equivFinOfCardEq (GaloisField.card 2 8 (by decide))).symm

/-- The header of a block of 180 bytes. -/
def sampleHeader : Bytes := erasureFrameMagic ++ toLeBytes 8 180

/-- A block that makes all sixteen data shards the same. -/
def sampleBlock : Slice where
  bytes := (List.replicate 15 sampleHeader).flatten
  addressable := by decide +kernel

/-- Four shards of the block are lost. Its data shards are all the same, so its parity shards are that
shard too, in any numbering of the field. -/
theorem erasure_round_trip_sample : ∃ data parity size,
    encode (polynomialCode byteField) sampleBlock.bytes = .ok (data ++ parity) ∧
      data.length = 16 ∧ parity.length = 4 ∧ (∀ s ∈ data ++ parity, s.length = size) ∧
      ∀ known, ShardsOf (data ++ parity) known → 16 ≤ known.countP (·.isSome) →
        decode (polynomialCode byteField) known = .ok sampleBlock.bytes :=
  erasure_round_trip (polynomialCode byteField) (lawful_polynomialCode byteField) sampleBlock

end ErasureManager

end Alphanumeric
