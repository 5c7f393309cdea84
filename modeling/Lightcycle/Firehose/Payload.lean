/-
# The payload read back

`Pb.Block.encode` of `Lightcycle.Firehose.Encode` is the writing half of prost for
`sf.tron.type.v1.Block`; here is the reading half, `Pb.Block.decode`, message by message of
`proto/sf/tron/type/v1/block.proto`, and with it the pair `prostBlock`.

The structures of `Pb` keep their numbers as integers.  A block is read back from its
encoding exactly when its numbers are within their fields (`payload_read_back_iff`), so that
the pair round-trips (`roundTrips_prostBlock`); and this is all that is asked of prost where
it is a parameter (`Prost.RoundTrips`).  The blocks this server encodes are such: their numbers
come off the wire of java-tron, where the fields are no wider (`fits_encodeBlock`).
-/

import Lightcycle.Lib.Format
import Lightcycle.Codec.Messages
import Lightcycle.Firehose.Encode

namespace Lightcycle
namespace Firehose

open Relayer Protobuf

/-! ### The messages -/

namespace Pb

/-- `google.protobuf.Timestamp`. -/
def Timestamp.format : Format Timestamp where
  Fits t := FitsInt64 t.seconds ∧ FitsInt32 t.nanos
  records t := putInt 1 t.seconds ++ putInt 2 t.nanos
  read _ rs := do
    let seconds ← getInt64 (occ 1 rs)
    let nanos ← getInt32 (occ 2 rs)
    return { seconds, nanos }
  written t := by
    simp
  read_records _ t h _ := by
    simp [h.1, h.2]
  fits_of_read _ rs t h := by
    obtain ⟨seconds, hseconds, h⟩ := Option.bind_eq_some_iff.1 h
    obtain ⟨nanos, hnanos, h⟩ := Option.bind_eq_some_iff.1 h
    obtain rfl := Option.some.inj h
    exact ⟨fits_of_getInt64 hseconds, fits_of_getInt32 hnanos⟩

def Header.format : Format Header where
  Fits h := FitsInt32 h.version
  records h :=
    putInt 1 h.version ++ Scalar.bytes.put 2 h.rawDataHash ++ Scalar.bytes.put 3 h.txTrieRoot ++
      Scalar.bytes.put 4 h.witness ++ Scalar.bytes.put 5 h.witnessSignature
  read _ rs := do
    let version ← getInt32 (occ 1 rs)
    let rawDataHash ← Scalar.bytes.get (occ 2 rs)
    let txTrieRoot ← Scalar.bytes.get (occ 3 rs)
    let witness ← Scalar.bytes.get (occ 4 rs)
    let witnessSignature ← Scalar.bytes.get (occ 5 rs)
    return { version, rawDataHash, txTrieRoot, witness, witnessSignature }
  written h := by
    simp
  read_records _ h hfits _ := by
    simp [hfits]
  fits_of_read _ rs h hread := by
    obtain ⟨version, hversion, hread⟩ := Option.bind_eq_some_iff.1 hread
    obtain ⟨_, -, hread⟩ := Option.bind_eq_some_iff.1 hread
    obtain ⟨_, -, hread⟩ := Option.bind_eq_some_iff.1 hread
    obtain ⟨_, -, hread⟩ := Option.bind_eq_some_iff.1 hread
    obtain ⟨_, -, hread⟩ := Option.bind_eq_some_iff.1 hread
    obtain rfl := Option.some.inj hread
    exact fits_of_getInt32 hversion

/-! ### Contracts -/

/-- The number of a payload in the `oneof`. -/
def Payload.number : Payload → ℕ
  | .transfer .. => 10
  | .transferAsset .. => 11
  | .triggerSmartContract .. => 12
  | .createSmartContract .. => 13
  | .otherPayload _ => 14

/-- The numbers of the `oneof`. -/
def Payload.numbers : List ℕ := [10, 11, 12, 13, 14]

/-- The records of a payload that is a message. -/
def Payload.records : Payload → List Record
  | .transfer owner toAddr amountSun =>
    Scalar.bytes.put 1 owner ++ Scalar.bytes.put 2 toAddr ++ putInt 3 amountSun
  | .transferAsset owner toAddr assetName amount =>
    Scalar.bytes.put 1 owner ++ Scalar.bytes.put 2 toAddr ++ Scalar.bytes.put 3 assetName ++
      putInt 4 amount
  | .triggerSmartContract owner contractAddress data callValueSun callTokenValue tokenId =>
    Scalar.bytes.put 1 owner ++ Scalar.bytes.put 2 contractAddress ++ Scalar.bytes.put 3 data ++
      putInt 4 callValueSun ++ putInt 5 callTokenValue ++ putInt 6 tokenId
  | .createSmartContract owner contractAddress name bytecode consumeUserResourcePercent
      originEnergyLimit callTokenValue tokenId =>
    Scalar.bytes.put 1 owner ++ Scalar.bytes.put 2 contractAddress ++ Scalar.text.put 3 name ++
      Scalar.bytes.put 4 bytecode ++ putInt 5 consumeUserResourcePercent ++
      putInt 6 originEnergyLimit ++ putInt 7 callTokenValue ++ putInt 8 tokenId
  | .otherPayload _ => []

/-- The bytes of a payload. -/
def Payload.text : Payload → List UInt8
  | .otherPayload raw => raw
  | p => print p.records

/-- The numbers of a payload are within their fields. -/
def Payload.Fits : Payload → Prop
  | .transfer _ _ amountSun => FitsInt64 amountSun
  | .transferAsset _ _ _ amount => FitsInt64 amount
  | .triggerSmartContract _ _ _ callValueSun callTokenValue tokenId =>
    FitsInt64 callValueSun ∧ FitsInt64 callTokenValue ∧ FitsInt64 tokenId
  | .createSmartContract _ _ _ _ consumeUserResourcePercent originEnergyLimit callTokenValue
      tokenId =>
    FitsInt64 consumeUserResourcePercent ∧ FitsInt64 originEnergyLimit ∧
      FitsInt64 callTokenValue ∧ FitsInt64 tokenId
  | .otherPayload _ => True

/-- Reads the fields of a payload that is a message. -/
def Payload.readRecords (n : ℕ) (rs : List Record) : Option Payload :=
  if n = 10 then do
    let owner ← Scalar.bytes.get (occ 1 rs)
    let toAddr ← Scalar.bytes.get (occ 2 rs)
    let amountSun ← getInt64 (occ 3 rs)
    return .transfer owner toAddr amountSun
  else if n = 11 then do
    let owner ← Scalar.bytes.get (occ 1 rs)
    let toAddr ← Scalar.bytes.get (occ 2 rs)
    let assetName ← Scalar.bytes.get (occ 3 rs)
    let amount ← getInt64 (occ 4 rs)
    return .transferAsset owner toAddr assetName amount
  else if n = 12 then do
    let owner ← Scalar.bytes.get (occ 1 rs)
    let contractAddress ← Scalar.bytes.get (occ 2 rs)
    let data ← Scalar.bytes.get (occ 3 rs)
    let callValueSun ← getInt64 (occ 4 rs)
    let callTokenValue ← getInt64 (occ 5 rs)
    let tokenId ← getInt64 (occ 6 rs)
    return .triggerSmartContract owner contractAddress data callValueSun callTokenValue tokenId
  else if n = 13 then do
    let owner ← Scalar.bytes.get (occ 1 rs)
    let contractAddress ← Scalar.bytes.get (occ 2 rs)
    let name ← Scalar.text.get (occ 3 rs)
    let bytecode ← Scalar.bytes.get (occ 4 rs)
    let consumeUserResourcePercent ← getInt64 (occ 5 rs)
    let originEnergyLimit ← getInt64 (occ 6 rs)
    let callTokenValue ← getInt64 (occ 7 rs)
    let tokenId ← getInt64 (occ 8 rs)
    return .createSmartContract owner contractAddress name bytecode consumeUserResourcePercent
      originEnergyLimit callTokenValue tokenId
  else none

/-- Reads a run of payloads under one number. -/
def Payload.read (depth n : ℕ) (vs : List Value) : Option Payload :=
  if n = 14 then (Scalar.bytes.get vs).map .otherPayload
  else (readOne (Payload.readRecords n) depth vs).bind id

/-- The records of a contract's payload are ones that the wire format can carry. -/
theorem Payload.written_records (p : Payload) : Written p.records := by
  cases p <;> simp [Payload.records]

/-- The fields of a payload that fits are read back. -/
theorem Payload.readRecords_records {p : Payload} (h : p.Fits) (hn : p.number ≠ 14) :
    Payload.readRecords p.number p.records = some p := by
  cases p with
  | transfer => simp [Payload.readRecords, Payload.number, Payload.records, show FitsInt64 _ from h]
  | transferAsset =>
    simp [Payload.readRecords, Payload.number, Payload.records, show FitsInt64 _ from h]
  | triggerSmartContract =>
    simp [Payload.readRecords, Payload.number, Payload.records, h.1, h.2.1, h.2.2]
  | createSmartContract =>
    simp [Payload.readRecords, Payload.number, Payload.records, h.1, h.2.1, h.2.2.1, h.2.2.2]
  | otherPayload => exact absurd rfl hn

/-- A payload that fits is read back. -/
theorem Payload.read_text {depth : ℕ} {p : Payload} (h : p.Fits) (hlen : p.text.length < 2 ^ 64) :
    Payload.read depth p.number [.len p.text] = some p := by
  unfold Payload.read
  by_cases hn : p.number = 14
  · cases p with
    | otherPayload raw => rfl
    | _ => cases hn
  · have htext : p.text = print p.records := by
      cases p with
      | otherPayload raw => exact absurd rfl hn
      | _ => rfl
    rw [htext] at hlen ⊢
    have hparse : Value.records depth (.len (print p.records)) = some p.records :=
      parse_print (ok_of_written p.written_records hlen)
    rw [if_neg hn]
    unfold readOne
    simp [hparse, Payload.readRecords_records h hn]

/-- What is read as a payload fits. -/
theorem Payload.fits_of_readRecords {n : ℕ} {rs : List Record} {p : Payload}
    (h : Payload.readRecords n rs = some p) : p.Fits := by
  unfold Payload.readRecords at h
  split_ifs at h
  · obtain ⟨_, -, h⟩ := Option.bind_eq_some_iff.1 h
    obtain ⟨_, -, h⟩ := Option.bind_eq_some_iff.1 h
    obtain ⟨_, hamount, h⟩ := Option.bind_eq_some_iff.1 h
    obtain rfl := Option.some.inj h
    exact fits_of_getInt64 hamount
  · obtain ⟨_, -, h⟩ := Option.bind_eq_some_iff.1 h
    obtain ⟨_, -, h⟩ := Option.bind_eq_some_iff.1 h
    obtain ⟨_, -, h⟩ := Option.bind_eq_some_iff.1 h
    obtain ⟨_, hamount, h⟩ := Option.bind_eq_some_iff.1 h
    obtain rfl := Option.some.inj h
    exact fits_of_getInt64 hamount
  · obtain ⟨_, -, h⟩ := Option.bind_eq_some_iff.1 h
    obtain ⟨_, -, h⟩ := Option.bind_eq_some_iff.1 h
    obtain ⟨_, -, h⟩ := Option.bind_eq_some_iff.1 h
    obtain ⟨_, hvalue, h⟩ := Option.bind_eq_some_iff.1 h
    obtain ⟨_, htoken, h⟩ := Option.bind_eq_some_iff.1 h
    obtain ⟨_, hid, h⟩ := Option.bind_eq_some_iff.1 h
    obtain rfl := Option.some.inj h
    exact ⟨fits_of_getInt64 hvalue, fits_of_getInt64 htoken, fits_of_getInt64 hid⟩
  · obtain ⟨_, -, h⟩ := Option.bind_eq_some_iff.1 h
    obtain ⟨_, -, h⟩ := Option.bind_eq_some_iff.1 h
    obtain ⟨_, -, h⟩ := Option.bind_eq_some_iff.1 h
    obtain ⟨_, -, h⟩ := Option.bind_eq_some_iff.1 h
    obtain ⟨_, hpercent, h⟩ := Option.bind_eq_some_iff.1 h
    obtain ⟨_, hlimit, h⟩ := Option.bind_eq_some_iff.1 h
    obtain ⟨_, htoken, h⟩ := Option.bind_eq_some_iff.1 h
    obtain ⟨_, hid, h⟩ := Option.bind_eq_some_iff.1 h
    obtain rfl := Option.some.inj h
    exact ⟨fits_of_getInt64 hpercent, fits_of_getInt64 hlimit, fits_of_getInt64 htoken,
      fits_of_getInt64 hid⟩

/-- A payload that was read has its numbers within their fields. -/
theorem Payload.fits_of_read {depth n : ℕ} {vs : List Value} {p : Payload}
    (h : Payload.read depth n vs = some p) : p.Fits := by
  unfold Payload.read at h
  split_ifs at h
  · obtain ⟨raw, -, rfl⟩ := Option.map_eq_some_iff.1 h
    trivial
  · obtain ⟨q, hq, h⟩ := Option.bind_eq_some_iff.1 h
    obtain rfl : q = some p := h
    obtain ⟨rs, -, hread⟩ := parse_of_readOne hq
    exact Payload.fits_of_readRecords hread

/-- Writes the `oneof`. -/
def Payload.put (p : Option Payload) : List Record := p.toList.map fun p => ⟨p.number, .len p.text⟩

/-- The field number of a payload is one of the oneof's. -/
theorem Payload.number_mem (p : Payload) : p.number ∈ numbers := by
  cases p <;> simp [number, numbers]

/-- The oneof writes no records of other fields. -/
@[simp] theorem Payload.occ_put {n : ℕ} (h : n ∉ numbers) (p : Option Payload) :
    occ n (Payload.put p) = [] := by
  cases p with
  | none => rfl
  | some p =>
    have hne : p.number ≠ n := fun heq => h (heq ▸ p.number_mem)
    simp [Payload.put, occ, hne]

/-- All it writes are records of the oneof. -/
@[simp] theorem Payload.among_put (p : Option Payload) :
    among numbers (Payload.put p) = Payload.put p := by
  cases p with
  | none => rfl
  | some p => simp [Payload.put, among, p.number_mem]

/-- They are records that the wire format can carry. -/
@[simp] theorem Payload.written_put (p : Option Payload) : Written (Payload.put p) := by
  cases p with
  | none => exact written_nil
  | some p =>
    have hbounds : ∀ n ∈ numbers, 0 < n ∧ n < 2 ^ 29 := by decide
    obtain ⟨h0, hn⟩ := hbounds _ p.number_mem
    intro r hr
    obtain rfl := List.mem_singleton.1 hr
    exact ⟨h0, hn, fun h => by cases h⟩

/-- **The `oneof` is read back.** Only one of its fields is written, so the last one found
is that one. -/
theorem Payload.oneof_put {depth : ℕ} {p : Option Payload} {rs : List Record}
    (hrs : among numbers rs = Payload.put p) (hfits : ∀ q ∈ p.toList, q.Fits)
    (hlen : ∀ q ∈ p.toList, q.text.length < 2 ^ 64) :
    oneof numbers (Payload.read depth) rs = some p := by
  cases p with
  | none => exact oneof_nil _ hrs
  | some p =>
    have hmem : p ∈ (some p).toList := List.mem_singleton_self p
    exact oneof_singleton hrs (Payload.read_text (hfits p hmem) (hlen p hmem))

def Contract.format : Format Contract where
  Fits c := FitsInt32 c.kind ∧ FitsInt32 c.unknownKind ∧ ∀ p ∈ c.payload.toList, p.Fits
  records c := putInt 1 c.kind ++ putInt 2 c.unknownKind ++ Payload.put c.payload
  read depth rs := do
    let kind ← getInt32 (occ 1 rs)
    let unknownKind ← getInt32 (occ 2 rs)
    let payload ← oneof Payload.numbers (Payload.read (depth - 1)) rs
    return { kind, unknownKind, payload }
  written c := by
    simp
  read_records depth c h hlen := by
    have hnot : 1 ∉ Payload.numbers ∧ 2 ∉ Payload.numbers := by decide
    have htext : ∀ p ∈ c.payload.toList, p.text.length < 2 ^ 64 := fun p hp =>
      (length_le_print (List.mem_append_right _ (List.mem_map_of_mem hp)) rfl).trans_lt hlen
    have hread : oneof Payload.numbers (Payload.read (depth - 1))
        (putInt 1 c.kind ++ (putInt 2 c.unknownKind ++ Payload.put c.payload)) = some c.payload :=
      Payload.oneof_put (by simp [hnot]) h.2.2 htext
    simp [h.1, h.2.1, hnot, hread]
  fits_of_read depth rs c h := by
    obtain ⟨kind, hkind, h⟩ := Option.bind_eq_some_iff.1 h
    obtain ⟨unknownKind, hunknown, h⟩ := Option.bind_eq_some_iff.1 h
    obtain ⟨payload, hpayload, h⟩ := Option.bind_eq_some_iff.1 h
    obtain rfl := Option.some.inj h
    refine ⟨fits_of_getInt32 hkind, fits_of_getInt32 hunknown, fun p hp => ?_⟩
    obtain rfl := Option.mem_toList.1 hp
    obtain ⟨n, vs, hread⟩ := exists_of_oneof hpayload
    exact Payload.fits_of_read hread

/-! ### Receipts -/

def Log.format : Format Log where
  Fits _ := True
  records l :=
    Scalar.bytes.put 1 l.address ++ Scalar.bytes.putAll 2 l.topics ++ Scalar.bytes.put 3 l.data
  read _ rs := do
    let address ← Scalar.bytes.get (occ 1 rs)
    let topics ← Scalar.bytes.getAll (occ 2 rs)
    let data ← Scalar.bytes.get (occ 3 rs)
    return { address, topics, data }
  written l := by
    simp
  read_records _ l _ _ := by
    simp
  fits_of_read _ _ _ _ := trivial

def CallValue.format : Format CallValue where
  Fits c := FitsInt64 c.callValue
  records c := putInt 1 c.callValue ++ Scalar.text.put 2 c.tokenId
  read _ rs := do
    let callValue ← getInt64 (occ 1 rs)
    let tokenId ← Scalar.text.get (occ 2 rs)
    return { callValue, tokenId }
  written c := by
    simp
  read_records _ c h _ := by
    simp [h]
  fits_of_read _ rs c h := by
    obtain ⟨callValue, hvalue, h⟩ := Option.bind_eq_some_iff.1 h
    obtain ⟨_, -, h⟩ := Option.bind_eq_some_iff.1 h
    obtain rfl := Option.some.inj h
    exact fits_of_getInt64 hvalue

def InternalTx.format : Format InternalTx where
  Fits i := ∀ c ∈ i.callValues, CallValue.format.Fits c
  records i :=
    Scalar.bytes.put 1 i.hash ++ Scalar.bytes.put 2 i.caller ++ Scalar.bytes.put 3 i.transferTo ++
      CallValue.format.putAll 4 i.callValues ++ Scalar.bool.put 5 i.rejected ++
      Scalar.bytes.put 6 i.note
  read depth rs := do
    let hash ← Scalar.bytes.get (occ 1 rs)
    let caller ← Scalar.bytes.get (occ 2 rs)
    let transferTo ← Scalar.bytes.get (occ 3 rs)
    let callValues ← readAll (CallValue.format.read (depth - 1)) (depth - 1) (occ 4 rs)
    let rejected ← Scalar.bool.get (occ 5 rs)
    let note ← Scalar.bytes.get (occ 6 rs)
    return { hash, caller, transferTo, callValues, rejected, note }
  written i := by
    simp
  read_records depth i h hlen := by
    have hvalues := length_of_mem_texts 4 (i.callValues.map CallValue.format.encode)
      (fun _ h => by simp [h]) hlen
    simp [Format.readAll_map h hvalues, -List.map_map]
  fits_of_read depth rs i h := by
    obtain ⟨_, -, h⟩ := Option.bind_eq_some_iff.1 h
    obtain ⟨_, -, h⟩ := Option.bind_eq_some_iff.1 h
    obtain ⟨_, -, h⟩ := Option.bind_eq_some_iff.1 h
    obtain ⟨callValues, hvalues, h⟩ := Option.bind_eq_some_iff.1 h
    obtain ⟨_, -, h⟩ := Option.bind_eq_some_iff.1 h
    obtain ⟨_, -, h⟩ := Option.bind_eq_some_iff.1 h
    obtain rfl := Option.some.inj h
    exact Format.fits_of_readAll hvalues

/-- `ResourceCost` of the block schema. -/
def resourceFormat : Format ResourceCost where
  Fits r :=
    FitsInt64 r.energyUsage ∧ FitsInt64 r.energyFee ∧ FitsInt64 r.originEnergyUsage ∧
      FitsInt64 r.energyUsageTotal ∧ FitsInt64 r.netUsage ∧ FitsInt64 r.netFee ∧
      FitsInt64 r.energyPenaltyTotal
  records r :=
    putInt 1 r.energyUsage ++ putInt 2 r.energyFee ++ putInt 3 r.originEnergyUsage ++
      putInt 4 r.energyUsageTotal ++ putInt 5 r.netUsage ++ putInt 6 r.netFee ++
      putInt 7 r.energyPenaltyTotal
  read _ rs := do
    let energyUsage ← getInt64 (occ 1 rs)
    let energyFee ← getInt64 (occ 2 rs)
    let originEnergyUsage ← getInt64 (occ 3 rs)
    let energyUsageTotal ← getInt64 (occ 4 rs)
    let netUsage ← getInt64 (occ 5 rs)
    let netFee ← getInt64 (occ 6 rs)
    let energyPenaltyTotal ← getInt64 (occ 7 rs)
    return { energyUsage, energyFee, originEnergyUsage, energyUsageTotal, netUsage, netFee
             energyPenaltyTotal }
  written r := by
    simp
  read_records _ r h _ := by
    obtain ⟨husage, hfee, horigin, htotal, hnet, hnetFee, hpenalty⟩ := h
    simp [husage, hfee, horigin, htotal, hnet, hnetFee, hpenalty]
  fits_of_read _ rs r h := by
    obtain ⟨_, husage, h⟩ := Option.bind_eq_some_iff.1 h
    obtain ⟨_, hfee, h⟩ := Option.bind_eq_some_iff.1 h
    obtain ⟨_, horigin, h⟩ := Option.bind_eq_some_iff.1 h
    obtain ⟨_, htotal, h⟩ := Option.bind_eq_some_iff.1 h
    obtain ⟨_, hnet, h⟩ := Option.bind_eq_some_iff.1 h
    obtain ⟨_, hnetFee, h⟩ := Option.bind_eq_some_iff.1 h
    obtain ⟨_, hpenalty, h⟩ := Option.bind_eq_some_iff.1 h
    obtain rfl := Option.some.inj h
    exact ⟨fits_of_getInt64 husage, fits_of_getInt64 hfee, fits_of_getInt64 horigin,
      fits_of_getInt64 htotal, fits_of_getInt64 hnet, fits_of_getInt64 hnetFee,
      fits_of_getInt64 hpenalty⟩

def TransactionInfo.format : Format TransactionInfo where
  Fits i :=
    FitsInt64 i.feeSun ∧ (∀ r ∈ i.resource.toList, resourceFormat.Fits r) ∧
      ∀ t ∈ i.internalTransactions, InternalTx.format.Fits t
  records i :=
    Scalar.bool.put 1 i.success ++ putInt 2 i.feeSun ++ Scalar.bytes.put 3 i.contractAddress ++
      resourceFormat.putOne 4 i.resource ++ Log.format.putAll 5 i.logs ++
      InternalTx.format.putAll 6 i.internalTransactions
  read depth rs := do
    let success ← Scalar.bool.get (occ 1 rs)
    let feeSun ← getInt64 (occ 2 rs)
    let contractAddress ← Scalar.bytes.get (occ 3 rs)
    let resource ← readOne (resourceFormat.read (depth - 1)) (depth - 1) (occ 4 rs)
    let logs ← readAll (Log.format.read (depth - 1)) (depth - 1) (occ 5 rs)
    let internalTransactions ← readAll (InternalTx.format.read (depth - 1)) (depth - 1) (occ 6 rs)
    return { success, feeSun, contractAddress, resource, logs, internalTransactions }
  written i := by
    simp
  read_records depth i h hlen := by
    have hresource := length_of_mem_texts 4 (i.resource.toList.map resourceFormat.encode)
      (fun _ h => by simp [h]) hlen
    have hlogs := length_of_mem_texts 5 (i.logs.map Log.format.encode)
      (fun _ h => by simp [h]) hlen
    have hinternal := length_of_mem_texts 6 (i.internalTransactions.map InternalTx.format.encode)
      (fun _ h => by simp [h]) hlen
    simp [h.1, Format.readOne_map h.2.1 hresource, Format.readAll_map (fun _ _ => trivial) hlogs,
      Format.readAll_map h.2.2 hinternal, -List.map_map]
  fits_of_read depth rs i h := by
    obtain ⟨_, -, h⟩ := Option.bind_eq_some_iff.1 h
    obtain ⟨_, hfee, h⟩ := Option.bind_eq_some_iff.1 h
    obtain ⟨_, -, h⟩ := Option.bind_eq_some_iff.1 h
    obtain ⟨_, hresource, h⟩ := Option.bind_eq_some_iff.1 h
    obtain ⟨_, -, h⟩ := Option.bind_eq_some_iff.1 h
    obtain ⟨_, hinternal, h⟩ := Option.bind_eq_some_iff.1 h
    obtain rfl := Option.some.inj h
    exact ⟨fits_of_getInt64 hfee, Format.fits_of_readOne hresource, Format.fits_of_readAll hinternal⟩

/-! ### Transactions and blocks -/

def Transaction.format : Format Transaction where
  Fits t :=
    FitsInt64 t.timestampMs ∧ FitsInt64 t.expirationMs ∧ FitsInt64 t.feeLimitSun ∧
      (∀ c ∈ t.contracts, Contract.format.Fits c) ∧ ∀ i ∈ t.info.toList, TransactionInfo.format.Fits i
  records t :=
    Scalar.bytes.put 1 t.id ++ putInt 2 t.timestampMs ++ putInt 3 t.expirationMs ++
      putInt 4 t.feeLimitSun ++ Contract.format.putAll 5 t.contracts ++
      Scalar.bytes.putAll 6 t.signatures ++ TransactionInfo.format.putOne 7 t.info
  read depth rs := do
    let id ← Scalar.bytes.get (occ 1 rs)
    let timestampMs ← getInt64 (occ 2 rs)
    let expirationMs ← getInt64 (occ 3 rs)
    let feeLimitSun ← getInt64 (occ 4 rs)
    let contracts ← readAll (Contract.format.read (depth - 1)) (depth - 1) (occ 5 rs)
    let signatures ← Scalar.bytes.getAll (occ 6 rs)
    let info ← readOne (TransactionInfo.format.read (depth - 1)) (depth - 1) (occ 7 rs)
    return { id, timestampMs, expirationMs, feeLimitSun, contracts, signatures, info }
  written t := by
    simp
  read_records depth t h hlen := by
    obtain ⟨htimestamp, hexpiration, hlimit, hcontracts, hinfo⟩ := h
    have hcontractTexts := length_of_mem_texts 5 (t.contracts.map Contract.format.encode)
      (fun _ h => by simp [h]) hlen
    have hinfoTexts := length_of_mem_texts 7 (t.info.toList.map TransactionInfo.format.encode)
      (fun _ h => by simp [h]) hlen
    simp [htimestamp, hexpiration, hlimit, Format.readAll_map hcontracts hcontractTexts,
      Format.readOne_map hinfo hinfoTexts, -List.map_map]
  fits_of_read depth rs t h := by
    obtain ⟨_, -, h⟩ := Option.bind_eq_some_iff.1 h
    obtain ⟨_, htimestamp, h⟩ := Option.bind_eq_some_iff.1 h
    obtain ⟨_, hexpiration, h⟩ := Option.bind_eq_some_iff.1 h
    obtain ⟨_, hlimit, h⟩ := Option.bind_eq_some_iff.1 h
    obtain ⟨_, hcontracts, h⟩ := Option.bind_eq_some_iff.1 h
    obtain ⟨_, -, h⟩ := Option.bind_eq_some_iff.1 h
    obtain ⟨_, hinfo, h⟩ := Option.bind_eq_some_iff.1 h
    obtain rfl := Option.some.inj h
    exact ⟨fits_of_getInt64 htimestamp, fits_of_getInt64 hexpiration, fits_of_getInt64 hlimit,
      Format.fits_of_readAll hcontracts, Format.fits_of_readOne hinfo⟩

def Finality.format : Format Finality where
  Fits f := FitsInt32 f.tier ∧ FitsUInt64 f.solidifiedHeadNumber
  records f := putInt 1 f.tier ++ putNat 2 f.solidifiedHeadNumber
  read _ rs := do
    let tier ← getInt32 (occ 1 rs)
    let solidifiedHeadNumber ← getUInt64 (occ 2 rs)
    return { tier, solidifiedHeadNumber }
  written f := by
    simp
  read_records _ f h _ := by
    simp [h.1, h.2]
  fits_of_read _ rs f h := by
    obtain ⟨_, htier, h⟩ := Option.bind_eq_some_iff.1 h
    obtain ⟨_, hhead, h⟩ := Option.bind_eq_some_iff.1 h
    obtain rfl := Option.some.inj h
    exact ⟨fits_of_getInt32 htier, fits_of_getUInt64 hhead⟩

def Block.format : Format Block where
  Fits b :=
    FitsUInt64 b.number ∧ (∀ t ∈ b.time.toList, Timestamp.format.Fits t) ∧
      (∀ h ∈ b.header.toList, Header.format.Fits h) ∧
      (∀ t ∈ b.transactions, Transaction.format.Fits t) ∧
      ∀ f ∈ b.finality.toList, Finality.format.Fits f
  records b :=
    putNat 1 b.number ++ Scalar.bytes.put 2 b.id ++ Scalar.bytes.put 3 b.parentId ++
      Timestamp.format.putOne 4 b.time ++ Header.format.putOne 5 b.header ++
      Transaction.format.putAll 6 b.transactions ++ Finality.format.putOne 7 b.finality
  read depth rs := do
    let number ← getUInt64 (occ 1 rs)
    let id ← Scalar.bytes.get (occ 2 rs)
    let parentId ← Scalar.bytes.get (occ 3 rs)
    let time ← readOne (Timestamp.format.read (depth - 1)) (depth - 1) (occ 4 rs)
    let header ← readOne (Header.format.read (depth - 1)) (depth - 1) (occ 5 rs)
    let transactions ← readAll (Transaction.format.read (depth - 1)) (depth - 1) (occ 6 rs)
    let finality ← readOne (Finality.format.read (depth - 1)) (depth - 1) (occ 7 rs)
    return { number, id, parentId, time, header, transactions, finality }
  written b := by
    simp
  read_records depth b h hlen := by
    obtain ⟨hnumber, htime, hheader, htransactions, hfinality⟩ := h
    have htimeTexts := length_of_mem_texts 4 (b.time.toList.map Timestamp.format.encode)
      (fun _ h => by simp [h]) hlen
    have hheaderTexts := length_of_mem_texts 5 (b.header.toList.map Header.format.encode)
      (fun _ h => by simp [h]) hlen
    have htransactionTexts := length_of_mem_texts 6 (b.transactions.map Transaction.format.encode)
      (fun _ h => by simp [h]) hlen
    have hfinalityTexts := length_of_mem_texts 7 (b.finality.toList.map Finality.format.encode)
      (fun _ h => by simp [h]) hlen
    simp [hnumber, Format.readOne_map htime htimeTexts, Format.readOne_map hheader hheaderTexts,
      Format.readAll_map htransactions htransactionTexts,
      Format.readOne_map hfinality hfinalityTexts, -List.map_map]
  fits_of_read depth rs b h := by
    obtain ⟨_, hnumber, h⟩ := Option.bind_eq_some_iff.1 h
    obtain ⟨_, -, h⟩ := Option.bind_eq_some_iff.1 h
    obtain ⟨_, -, h⟩ := Option.bind_eq_some_iff.1 h
    obtain ⟨_, htime, h⟩ := Option.bind_eq_some_iff.1 h
    obtain ⟨_, hheader, h⟩ := Option.bind_eq_some_iff.1 h
    obtain ⟨_, htransactions, h⟩ := Option.bind_eq_some_iff.1 h
    obtain ⟨_, hfinality, h⟩ := Option.bind_eq_some_iff.1 h
    obtain rfl := Option.some.inj h
    exact ⟨fits_of_getUInt64 hnumber, Format.fits_of_readOne htime, Format.fits_of_readOne hheader,
      Format.fits_of_readAll htransactions, Format.fits_of_readOne hfinality⟩

/-- `Block::decode` of the block schema. -/
def Block.decode (bytes : List UInt8) : Option Block :=
  Block.format.decode Protocol.recursionLimit bytes

/-! ### The encoder writes the formats -/

/-- Records are printed behind each other. -/
theorem print_append (rs rs' : List Record) : print (rs ++ rs') = print rs ++ print rs' :=
  List.flatMap_append

/-- One record is printed as itself. -/
theorem print_singleton (r : Record) : print [r] = r.print := List.flatMap_singleton ..

/-- A field with a length is written as one record. -/
theorem lenField_eq (n : ℕ) (bytes : List UInt8) : lenField n bytes = print [⟨n, .len bytes⟩] := by
  rw [print_singleton]
  unfold lenField Record.print
  rw [List.append_assoc]

/-- A bytes field is written as prost writes it: not at all when it is empty. -/
theorem bytesField_eq (n : ℕ) (bytes : List UInt8) :
    bytesField n bytes = print (Scalar.bytes.put n bytes) := by
  unfold bytesField Scalar.put
  by_cases h : bytes = []
  · rw [if_pos h, if_pos (show bytes = Scalar.bytes.default from h)]
    rfl
  · rw [if_neg h, if_neg (show ¬ bytes = Scalar.bytes.default from h), lenField_eq]
    rfl

/-- So is a `uint64` field, which is not written when it is 0. -/
theorem uintField_eq (n : ℕ) (i : UInt64) :
    uintField n i.toNat = print (Scalar.uint64.put n i) := by
  unfold uintField Scalar.put
  by_cases h : i = 0
  · rw [h]
    rfl
  · have hne : ¬ i.toNat = 0 := fun h0 => h (UInt64.toNat_inj.1 h0)
    rw [if_neg hne, if_neg (show ¬ i = Scalar.uint64.default from h), print_singleton]
    unfold Record.print
    rfl

/-- An `int64` is written as the `uint64` with its bits. -/
theorem int64_put_eq (n : ℕ) (a : Int64) :
    Scalar.int64.put n a = Scalar.uint64.put n a.toUInt64 := by
  have hzero : a = 0 ↔ a.toUInt64 = 0 := by
    constructor
    · rintro rfl
      rfl
    · intro h
      rw [← a.toInt64_toUInt64, h]
      rfl
  unfold Scalar.put
  exact if_congr hzero rfl rfl

/-- A signed field is written as the varint of its two's complement. -/
theorem intField_eq (n : ℕ) (i : ℤ) : intField n i = print (putInt n i) := by
  have hbits : (Int64.ofInt i).toUInt64.toNat = (i % 2 ^ 64).toNat := BitVec.toNat_ofInt i
  unfold intField putInt
  rw [int64_put_eq, ← uintField_eq, hbits]

/-- A `uint64` field is written as the number it holds, as long as that is in range. -/
theorem uintField_of_lt (n : ℕ) {i : ℕ} (h : FitsUInt64 i) : uintField n i = print (putNat n i) := by
  have hnat : (UInt64.ofNat i).toNat = i := UInt64.toNat_ofNat_of_lt' h
  unfold putNat
  rw [← uintField_eq, hnat]

/-- A `bool` field is written only when it is true. -/
theorem boolField_eq (n : ℕ) (b : Bool) : boolField n b = print (Scalar.bool.put n b) := by
  have hput : Scalar.bool.put n b = Scalar.uint64.put n b.toUInt64 := by
    cases b <;> rfl
  have hnat : b.toUInt64.toNat = b.toNat := by
    cases b <;> rfl
  unfold boolField
  rw [hput, ← uintField_eq, hnat]

/-- A string field is written as its UTF-8 bytes. -/
theorem utf8Field_eq (n : ℕ) (text : List Char) :
    bytesField n (utf8 text) = print (Scalar.text.put n text) := by
  have hvalue : Scalar.text.toValue text = .len (utf8 text) := by
    simp [Scalar.text, Scalar.string, utf8, List.utf8Encode]
  have hnil : utf8 text = [] ↔ text = [] := by
    cases text with
    | nil => exact iff_of_true rfl rfl
    | cons c text => simp [utf8, List.ne_nil_of_length_pos, String.utf8EncodeChar_ne_nil]
  unfold bytesField Scalar.put
  by_cases h : text = []
  · rw [if_pos (hnil.2 h), if_pos (show text = Scalar.text.default from h)]
    rfl
  · rw [if_neg (mt hnil.1 h), if_neg (show ¬ text = Scalar.text.default from h), hvalue, lenField_eq]

/-- A repeated bytes field is written element by element, also the empty ones. -/
theorem flatMap_lenField_eq (n : ℕ) (texts : List (List UInt8)) :
    texts.flatMap (lenField n) = print (Scalar.bytes.putAll n texts) := by
  unfold print Scalar.putAll
  rw [List.flatMap_map]
  exact List.flatMap_congr fun text _ => (lenField_eq n text).trans (print_singleton _)

/-- A repeated sub-message, written field by field. -/
theorem flatMap_encode_eq {α : Type} {f : Format α} {encode : α → List UInt8}
    (h : ∀ a, encode a = f.encode a) (n : ℕ) (as : List α) :
    (as.flatMap fun a => lenField n (encode a)) = print (f.putAll n as) := by
  rw [Format.putAll_eq, ← flatMap_lenField_eq, List.flatMap_map]
  exact List.flatMap_congr fun a _ => congrArg (lenField n) (h a)

/-- A sub-message, written if it is there. -/
theorem getD_encode_eq {α : Type} {f : Format α} {encode : α → List UInt8} (n : ℕ) {a : Option α}
    (h : ∀ b ∈ a.toList, encode b = f.encode b) :
    (a.map fun a => lenField n (encode a)).getD [] = print (f.putOne n a) := by
  cases a with
  | none => rfl
  | some a =>
    have ha : encode a = f.encode a := h a (List.mem_singleton_self a)
    rw [Option.map_some, Option.getD_some, ha, lenField_eq]
    rfl

/-- The encoding of a `Timestamp` is the one of its schema. -/
theorem Timestamp.encode_eq (t : Timestamp) : t.encode = Timestamp.format.encode t := by
  simp only [Timestamp.encode, Format.encode, Timestamp.format, print_append, intField_eq]

/-- So is the encoding of a `Header`. -/
theorem Header.encode_eq (h : Header) : h.encode = Header.format.encode h := by
  simp only [Header.encode, Format.encode, Header.format, print_append, intField_eq, bytesField_eq]

/-- A contract's payload is one record, with the number of its kind. -/
theorem Payload.encode_eq (p : Payload) : p.encode = print [⟨p.number, .len p.text⟩] := by
  cases p <;> simp only [Payload.encode, utf8Field_eq] <;>
    simp only [Payload.number, Payload.text, Payload.records, print_append, intField_eq,
      bytesField_eq, lenField_eq]

/-- The encoding of a `Contract` is the one of its schema. -/
theorem Contract.encode_eq (c : Contract) : c.encode = Contract.format.encode c := by
  have hpayload : (c.payload.map Payload.encode).getD [] = print (Payload.put c.payload) := by
    cases c.payload with
    | none => rfl
    | some p => exact p.encode_eq
  simp only [Contract.encode, Format.encode, Contract.format, print_append, intField_eq, hpayload]

/-- So is the encoding of a `Log`. -/
theorem Log.encode_eq (l : Log) : l.encode = Log.format.encode l := by
  simp only [Log.encode, Format.encode, Log.format, print_append, bytesField_eq, flatMap_lenField_eq]

/-- So is the encoding of a `CallValue`. -/
theorem CallValue.encode_eq (c : CallValue) : c.encode = CallValue.format.encode c := by
  simp only [CallValue.encode, Format.encode, CallValue.format, print_append, intField_eq,
    utf8Field_eq]

/-- So is the encoding of an `InternalTx`. -/
theorem InternalTx.encode_eq (i : InternalTx) : i.encode = InternalTx.format.encode i := by
  simp only [InternalTx.encode, flatMap_encode_eq CallValue.encode_eq, bytesField_eq, boolField_eq,
    ← print_append]
  rfl

/-- So is the encoding of a `ResourceCost`. -/
theorem encodeResourceCost_eq (r : ResourceCost) :
    encodeResourceCost r = resourceFormat.encode r := by
  simp only [encodeResourceCost, Format.encode, resourceFormat, print_append, intField_eq]

/-- So is the encoding of a `TransactionInfo`. -/
theorem TransactionInfo.encode_eq (i : TransactionInfo) :
    i.encode = TransactionInfo.format.encode i := by
  simp only [TransactionInfo.encode, getD_encode_eq 4 fun r _ => encodeResourceCost_eq r,
    flatMap_encode_eq Log.encode_eq, flatMap_encode_eq InternalTx.encode_eq, intField_eq,
    bytesField_eq, boolField_eq, ← print_append]
  rfl

/-- So is the encoding of a `Transaction`. -/
theorem Transaction.encode_eq (t : Transaction) : t.encode = Transaction.format.encode t := by
  simp only [Transaction.encode, getD_encode_eq 7 fun i _ => TransactionInfo.encode_eq i,
    flatMap_encode_eq Contract.encode_eq, flatMap_lenField_eq, intField_eq, bytesField_eq,
    ← print_append]
  rfl

/-- So is the encoding of a `Finality`, when its head is a `u64`. -/
theorem Finality.encode_eq {f : Finality} (h : FitsUInt64 f.solidifiedHeadNumber) :
    f.encode = Finality.format.encode f := by
  simp only [Finality.encode, Format.encode, Finality.format, print_append, intField_eq,
    uintField_of_lt 2 h]

/-- **A block whose numbers fit is written as its format has it**: the bytes of
`encode_to_vec` are the records of the schema, message by message. -/
theorem Block.encode_eq {b : Block} (h : Block.format.Fits b) :
    b.encode = Block.format.encode b := by
  obtain ⟨hnumber, -, -, -, hfinality⟩ := h
  simp only [Block.encode, uintField_of_lt 1 hnumber,
    getD_encode_eq 4 fun t _ => Timestamp.encode_eq t,
    getD_encode_eq 5 fun t _ => Header.encode_eq t, flatMap_encode_eq Transaction.encode_eq,
    getD_encode_eq 7 fun f hf => Finality.encode_eq (hfinality f hf).2, bytesField_eq,
    ← print_append]
  rfl

end Pb

/-- prost, for a block of the block schema. -/
def prostBlock : Prost where
  encodeToVec := Pb.Block.encode
  decode := Pb.Block.decode

/-- prost reads back what it wrote, of a message whose numbers are within their fields: in
the generated structs they always are, and here they are integers. -/
def Prost.RoundTrips (prost : Prost) : Prop :=
  ∀ b : Pb.Block, Pb.Block.format.Fits b → (prost.encodeToVec b).length < 2 ^ 64 →
    prost.decode (prost.encodeToVec b) = some b

/-- The encoding of the block schema, written field by field, is read back by its format. -/
theorem prostBlock_decode_encode {b : Pb.Block} (h : Pb.Block.format.Fits b)
    (hlen : (prostBlock.encodeToVec b).length < 2 ^ 64) :
    prostBlock.decode (prostBlock.encodeToVec b) = some b := by
  have heq : prostBlock.encodeToVec b = Pb.Block.format.encode b := Pb.Block.encode_eq h
  rw [heq] at hlen ⊢
  exact (Pb.Block.format.decode_encode_iff hlen).2 h

/-- **A payload is read back exactly when its numbers are within their fields:** for every
block message, with any transactions, contracts, receipts and internal transactions, whose
encoding has a length at all, decoding the encoding gives the message back if and only if every
`int64`, `int32` and `uint64` in it is one. -/
theorem payload_read_back_iff (b : Pb.Block)
    (hlen : (prostBlock.encodeToVec b).length < 2 ^ 64) :
    prostBlock.decode (prostBlock.encodeToVec b) = some b ↔ Pb.Block.format.Fits b := by
  constructor
  · intro h
    obtain ⟨rs, -, hread⟩ := Option.bind_eq_some_iff.1 h
    exact Pb.Block.format.fits_of_read _ rs b hread
  · exact fun h => prostBlock_decode_encode h hlen

/-- So the codec of the schema is one that round-trips. -/
theorem roundTrips_prostBlock : prostBlock.RoundTrips := fun b h hlen =>
  (payload_read_back_iff b hlen).2 h

end Firehose
end Lightcycle
