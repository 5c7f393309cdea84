/-
# The contracts and the receipts of java-tron on the wire

What a block decoder takes from prost besides the block: the typed contracts of
`proto/tron/core/contract`, each in the `Any` of a transaction, and `TransactionInfo` of
`proto/tron/core/Tron.proto` with the list of them.  Here are their readers, so that
`payloadDecoders` is one value of `PayloadDecoders`, the one the code runs with.  A field
that nothing keeps is still read, for a message in which it does not parse is refused; the
checks of `Lightcycle.Codec.Messages` are used again.

A number that was read is one of its field: `fits_payloadDecoders` for the contracts,
`TransactionInfo.fits_of_read` for the receipts.
-/

import Lightcycle.Lib.Format
import Lightcycle.Codec.DecodeBlock

namespace Lightcycle

/-- The numbers of a resource receipt are within their fields. -/
structure ResourceCost.Fits (r : ResourceCost) : Prop where
  energyUsage : Protobuf.FitsInt64 r.energyUsage
  energyFee : Protobuf.FitsInt64 r.energyFee
  originEnergyUsage : Protobuf.FitsInt64 r.originEnergyUsage
  energyUsageTotal : Protobuf.FitsInt64 r.energyUsageTotal
  netUsage : Protobuf.FitsInt64 r.netUsage
  netFee : Protobuf.FitsInt64 r.netFee
  energyPenaltyTotal : Protobuf.FitsInt64 r.energyPenaltyTotal

namespace Protocol

open Protobuf

/-! ### The typed contracts -/

/-- `protocol::TransferContract`. -/
def TransferContract.read (rs : List Record) : Option TransferContract := do
  let ownerAddress ← Scalar.bytes.get (occ 1 rs)
  let toAddress ← Scalar.bytes.get (occ 2 rs)
  let amount ← getInt64 (occ 3 rs)
  return { ownerAddress, toAddress, amount }

/-- `protocol::TransferAssetContract`. -/
def TransferAssetContract.read (rs : List Record) : Option TransferAssetContract := do
  let assetName ← Scalar.bytes.get (occ 1 rs)
  let ownerAddress ← Scalar.bytes.get (occ 2 rs)
  let toAddress ← Scalar.bytes.get (occ 3 rs)
  let amount ← getInt64 (occ 4 rs)
  return { assetName, ownerAddress, toAddress, amount }

/-- `protocol::TriggerSmartContract`. -/
def TriggerSmartContract.read (rs : List Record) : Option TriggerSmartContract := do
  let ownerAddress ← Scalar.bytes.get (occ 1 rs)
  let contractAddress ← Scalar.bytes.get (occ 2 rs)
  let callValue ← getInt64 (occ 3 rs)
  let data ← Scalar.bytes.get (occ 4 rs)
  let callTokenValue ← getInt64 (occ 5 rs)
  let tokenId ← getInt64 (occ 6 rs)
  return { ownerAddress, contractAddress, callValue, data, callTokenValue, tokenId }

/-- `protocol::smart_contract::abi::entry::Param` parses. -/
def SmartContract.checkParam (rs : List Record) : Option Unit := do
  reads .bool [1] rs
  reads .string [2, 3] rs

/-- `protocol::smart_contract::abi::Entry` parses. -/
def SmartContract.checkEntry (depth : ℕ) (rs : List Record) : Option Unit := do
  reads .bool [1, 2, 7] rs
  reads .string [3] rs
  let _ ← readAll SmartContract.checkParam (depth - 1) (occ 4 rs)
  let _ ← readAll SmartContract.checkParam (depth - 1) (occ 5 rs)
  reads .int32 [6, 8] rs

/-- `protocol::smart_contract::Abi` parses. -/
def SmartContract.checkAbi (depth : ℕ) (rs : List Record) : Option Unit := do
  let _ ← readAll (SmartContract.checkEntry (depth - 1)) (depth - 1) (occ 1 rs)

/-- `protocol::SmartContract`. -/
def SmartContract.read (depth : ℕ) (rs : List Record) : Option SmartContract := do
  reads .bytes [1, 9, 10] rs
  let contractAddress ← Scalar.bytes.get (occ 2 rs)
  let _ ← readOne (SmartContract.checkAbi (depth - 1)) (depth - 1) (occ 3 rs)
  let bytecode ← Scalar.bytes.get (occ 4 rs)
  reads .int64 [5] rs
  let consumeUserResourcePercent ← getInt64 (occ 6 rs)
  let name ← Scalar.text.get (occ 7 rs)
  let originEnergyLimit ← getInt64 (occ 8 rs)
  reads .int32 [11] rs
  return { contractAddress, bytecode, consumeUserResourcePercent, name, originEnergyLimit }

/-- `protocol::CreateSmartContract`. -/
def CreateSmartContract.read (depth : ℕ) (rs : List Record) : Option CreateSmartContract := do
  let ownerAddress ← Scalar.bytes.get (occ 1 rs)
  let newContract ← readOne (SmartContract.read (depth - 1)) (depth - 1) (occ 2 rs)
  let callTokenValue ← getInt64 (occ 3 rs)
  let tokenId ← getInt64 (occ 4 rs)
  return { ownerAddress, newContract, callTokenValue, tokenId }

/-- `decode` of the four typed contracts. -/
def payloadDecoders : PayloadDecoders where
  transfer bytes := parse recursionLimit bytes >>= TransferContract.read
  transferAsset bytes := parse recursionLimit bytes >>= TransferAssetContract.read
  triggerSmartContract bytes := parse recursionLimit bytes >>= TriggerSmartContract.read
  createSmartContract bytes :=
    parse recursionLimit bytes >>= CreateSmartContract.read recursionLimit

/-- The numbers of every contract that is decoded are within their fields. -/
structure PayloadDecoders.Fits (p : PayloadDecoders) : Prop where
  transfer : ∀ bytes m, p.transfer bytes = some m → FitsInt64 m.amount
  transferAsset : ∀ bytes m, p.transferAsset bytes = some m → FitsInt64 m.amount
  triggerSmartContract : ∀ bytes m, p.triggerSmartContract bytes = some m →
    FitsInt64 m.callValue ∧ FitsInt64 m.callTokenValue ∧ FitsInt64 m.tokenId
  createSmartContract : ∀ bytes m, p.createSmartContract bytes = some m →
    FitsInt64 m.inner.consumeUserResourcePercent ∧ FitsInt64 m.inner.originEnergyLimit ∧
      FitsInt64 m.callTokenValue ∧ FitsInt64 m.tokenId

/-- The numbers read from a `SmartContract` are those of an `i64`. -/
theorem SmartContract.fits_of_read {depth : ℕ} {rs : List Record} {m : SmartContract}
    (h : SmartContract.read depth rs = some m) :
    FitsInt64 m.consumeUserResourcePercent ∧ FitsInt64 m.originEnergyLimit := by
  obtain ⟨_, -, h⟩ := Option.bind_eq_some_iff.1 h
  obtain ⟨_, -, h⟩ := Option.bind_eq_some_iff.1 h
  obtain ⟨_, -, h⟩ := Option.bind_eq_some_iff.1 h
  obtain ⟨_, -, h⟩ := Option.bind_eq_some_iff.1 h
  obtain ⟨_, -, h⟩ := Option.bind_eq_some_iff.1 h
  obtain ⟨_, hpercent, h⟩ := Option.bind_eq_some_iff.1 h
  obtain ⟨_, -, h⟩ := Option.bind_eq_some_iff.1 h
  obtain ⟨_, hlimit, h⟩ := Option.bind_eq_some_iff.1 h
  obtain ⟨_, -, h⟩ := Option.bind_eq_some_iff.1 h
  obtain rfl := Option.some.inj h
  exact ⟨fits_of_getInt64 hpercent, fits_of_getInt64 hlimit⟩

/-- So are the ones of a `CreateSmartContract` around it. -/
theorem CreateSmartContract.fits_of_read {depth : ℕ} {rs : List Record} {m : CreateSmartContract}
    (h : CreateSmartContract.read depth rs = some m) :
    FitsInt64 m.inner.consumeUserResourcePercent ∧ FitsInt64 m.inner.originEnergyLimit ∧
      FitsInt64 m.callTokenValue ∧ FitsInt64 m.tokenId := by
  obtain ⟨_, -, h⟩ := Option.bind_eq_some_iff.1 h
  obtain ⟨newContract, hnew, h⟩ := Option.bind_eq_some_iff.1 h
  obtain ⟨_, htoken, h⟩ := Option.bind_eq_some_iff.1 h
  obtain ⟨_, hid, h⟩ := Option.bind_eq_some_iff.1 h
  obtain rfl := Option.some.inj h
  have hinner : FitsInt64 (newContract.getD .default).consumeUserResourcePercent ∧
      FitsInt64 (newContract.getD .default).originEnergyLimit := by
    cases newContract with
    | none => decide
    | some c =>
      obtain ⟨rs', -, hc⟩ := parse_of_readOne hnew
      exact SmartContract.fits_of_read hc
  exact ⟨hinner.1, hinner.2, fits_of_getInt64 htoken, fits_of_getInt64 hid⟩

/-- **The numbers of a decoded contract are within their fields**, for the four decoders
that prost generates. -/
theorem fits_payloadDecoders : payloadDecoders.Fits where
  transfer bytes m h := by
    obtain ⟨rs, -, h⟩ := Option.bind_eq_some_iff.1 h
    obtain ⟨_, -, h⟩ := Option.bind_eq_some_iff.1 h
    obtain ⟨_, -, h⟩ := Option.bind_eq_some_iff.1 h
    obtain ⟨_, hamount, h⟩ := Option.bind_eq_some_iff.1 h
    obtain rfl := Option.some.inj h
    exact fits_of_getInt64 hamount
  transferAsset bytes m h := by
    obtain ⟨rs, -, h⟩ := Option.bind_eq_some_iff.1 h
    obtain ⟨_, -, h⟩ := Option.bind_eq_some_iff.1 h
    obtain ⟨_, -, h⟩ := Option.bind_eq_some_iff.1 h
    obtain ⟨_, -, h⟩ := Option.bind_eq_some_iff.1 h
    obtain ⟨_, hamount, h⟩ := Option.bind_eq_some_iff.1 h
    obtain rfl := Option.some.inj h
    exact fits_of_getInt64 hamount
  triggerSmartContract bytes m h := by
    obtain ⟨rs, -, h⟩ := Option.bind_eq_some_iff.1 h
    obtain ⟨_, -, h⟩ := Option.bind_eq_some_iff.1 h
    obtain ⟨_, -, h⟩ := Option.bind_eq_some_iff.1 h
    obtain ⟨_, hvalue, h⟩ := Option.bind_eq_some_iff.1 h
    obtain ⟨_, -, h⟩ := Option.bind_eq_some_iff.1 h
    obtain ⟨_, htoken, h⟩ := Option.bind_eq_some_iff.1 h
    obtain ⟨_, hid, h⟩ := Option.bind_eq_some_iff.1 h
    obtain rfl := Option.some.inj h
    exact ⟨fits_of_getInt64 hvalue, fits_of_getInt64 htoken, fits_of_getInt64 hid⟩
  createSmartContract bytes m h := by
    obtain ⟨rs, -, h⟩ := Option.bind_eq_some_iff.1 h
    exact CreateSmartContract.fits_of_read h

/-! ### The receipts -/

/-- `protocol::transaction_info::Log`. -/
def Log.read (rs : List Record) : Option Log := do
  let address ← Scalar.bytes.get (occ 1 rs)
  let topics ← Scalar.bytes.getAll (occ 2 rs)
  let data ← Scalar.bytes.get (occ 3 rs)
  return { address, topics, data }

/-- `protocol::internal_transaction::CallValueInfo`. -/
def CallValueInfo.read (rs : List Record) : Option CallValueInfo := do
  let callValue ← getInt64 (occ 1 rs)
  let tokenId ← Scalar.text.get (occ 2 rs)
  return { callValue, tokenId }

/-- `protocol::InternalTransaction`. -/
def InternalTransaction.read (depth : ℕ) (rs : List Record) : Option InternalTransaction := do
  let hash ← Scalar.bytes.get (occ 1 rs)
  let callerAddress ← Scalar.bytes.get (occ 2 rs)
  let transferToAddress ← Scalar.bytes.get (occ 3 rs)
  let callValueInfo ← readAll CallValueInfo.read (depth - 1) (occ 4 rs)
  let note ← Scalar.bytes.get (occ 5 rs)
  let rejected ← Scalar.bool.get (occ 6 rs)
  reads .string [7] rs
  return { hash, callerAddress, transferToAddress, callValueInfo, note, rejected }

/-- `protocol::ResourceReceipt`. -/
def ResourceReceipt.read (rs : List Record) : Option ResourceReceipt := do
  let energyUsage ← getInt64 (occ 1 rs)
  let energyFee ← getInt64 (occ 2 rs)
  let originEnergyUsage ← getInt64 (occ 3 rs)
  let energyUsageTotal ← getInt64 (occ 4 rs)
  let netUsage ← getInt64 (occ 5 rs)
  let netFee ← getInt64 (occ 6 rs)
  reads .int32 [7] rs
  let energyPenaltyTotal ← getInt64 (occ 8 rs)
  return { energyUsage, energyFee, originEnergyUsage, energyUsageTotal, netUsage, netFee
           energyPenaltyTotal }

/-- `protocol::TransactionInfo`. -/
def TransactionInfo.read (depth : ℕ) (rs : List Record) : Option TransactionInfo := do
  let id ← Scalar.bytes.get (occ 1 rs)
  let fee ← getInt64 (occ 2 rs)
  let blockNumber ← getInt64 (occ 3 rs)
  let blockTimeStamp ← getInt64 (occ 4 rs)
  let _ ← Scalar.bytes.getAll (occ 5 rs)
  let contractAddress ← Scalar.bytes.get (occ 6 rs)
  let receipt ← readOne ResourceReceipt.read (depth - 1) (occ 7 rs)
  let log ← readAll Log.read (depth - 1) (occ 8 rs)
  let result ← getInt32 (occ 9 rs)
  reads .bytes [10, 25] rs
  reads .string [14] rs
  reads .int64 [15, 16, 18, 19, 20, 21, 22, 27, 28] rs
  let internalTransactions ← readAll (InternalTransaction.read (depth - 1)) (depth - 1) (occ 17 rs)
  let _ ← readAll MarketOrderDetail.check (depth - 1) (occ 26 rs)
  let _ ← readAll Transaction.Result.checkEntry (depth - 1) (occ 29 rs)
  return { id, fee, blockNumber, blockTimeStamp, contractAddress, receipt, log, result
           internalTransactions }

/-- `protocol::TransactionInfoList::decode`. -/
def decodeInfoList (bytes : List UInt8) : Option (List TransactionInfo) :=
  parse recursionLimit bytes >>= fun rs =>
    readAll (TransactionInfo.read (recursionLimit - 1)) (recursionLimit - 1) (occ 1 rs)

/-- The numbers of a receipt are within their fields. -/
structure TransactionInfo.Fits (info : TransactionInfo) : Prop where
  fee : FitsInt64 info.fee
  receipt : ∀ r ∈ info.receipt.toList, (decodeResource r).Fits
  internal : ∀ i ∈ info.internalTransactions, ∀ c ∈ i.callValueInfo, FitsInt64 c.callValue

/-- The resource costs decoded from a receipt that was read fit their fields. -/
theorem ResourceReceipt.fits_of_read {rs : List Record} {r : ResourceReceipt}
    (h : ResourceReceipt.read rs = some r) : (decodeResource r).Fits := by
  obtain ⟨_, husage, h⟩ := Option.bind_eq_some_iff.1 h
  obtain ⟨_, hfee, h⟩ := Option.bind_eq_some_iff.1 h
  obtain ⟨_, horigin, h⟩ := Option.bind_eq_some_iff.1 h
  obtain ⟨_, htotal, h⟩ := Option.bind_eq_some_iff.1 h
  obtain ⟨_, hnet, h⟩ := Option.bind_eq_some_iff.1 h
  obtain ⟨_, hnetFee, h⟩ := Option.bind_eq_some_iff.1 h
  obtain ⟨_, -, h⟩ := Option.bind_eq_some_iff.1 h
  obtain ⟨_, hpenalty, h⟩ := Option.bind_eq_some_iff.1 h
  obtain rfl := Option.some.inj h
  exact ⟨fits_of_getInt64 husage, fits_of_getInt64 hfee, fits_of_getInt64 horigin,
    fits_of_getInt64 htotal, fits_of_getInt64 hnet, fits_of_getInt64 hnetFee,
    fits_of_getInt64 hpenalty⟩

/-- The value of a transfer inside an internal transaction is read as an `i64`. -/
theorem CallValueInfo.fits_of_read (rs : List Record) (c : CallValueInfo)
    (h : CallValueInfo.read rs = some c) : FitsInt64 c.callValue := by
  obtain ⟨_, hvalue, h⟩ := Option.bind_eq_some_iff.1 h
  obtain ⟨_, -, h⟩ := Option.bind_eq_some_iff.1 h
  obtain rfl := Option.some.inj h
  exact fits_of_getInt64 hvalue

/-- So are all the values of an internal transaction. -/
theorem InternalTransaction.fits_of_read {depth : ℕ} {rs : List Record} {i : InternalTransaction}
    (h : InternalTransaction.read depth rs = some i) :
    ∀ c ∈ i.callValueInfo, FitsInt64 c.callValue := by
  obtain ⟨_, -, h⟩ := Option.bind_eq_some_iff.1 h
  obtain ⟨_, -, h⟩ := Option.bind_eq_some_iff.1 h
  obtain ⟨_, -, h⟩ := Option.bind_eq_some_iff.1 h
  obtain ⟨values, hvalues, h⟩ := Option.bind_eq_some_iff.1 h
  obtain ⟨_, -, h⟩ := Option.bind_eq_some_iff.1 h
  obtain ⟨_, -, h⟩ := Option.bind_eq_some_iff.1 h
  obtain ⟨_, -, h⟩ := Option.bind_eq_some_iff.1 h
  obtain rfl := Option.some.inj h
  exact forall_of_readAll CallValueInfo.fits_of_read hvalues

/-- **The numbers of a receipt that was read are within their fields**, because prost reads
each of them as an `i64`. -/
theorem TransactionInfo.fits_of_read {depth : ℕ} {rs : List Record} {info : TransactionInfo}
    (h : TransactionInfo.read depth rs = some info) : info.Fits := by
  obtain ⟨_, -, h⟩ := Option.bind_eq_some_iff.1 h
  obtain ⟨_, hfee, h⟩ := Option.bind_eq_some_iff.1 h
  obtain ⟨_, -, h⟩ := Option.bind_eq_some_iff.1 h
  obtain ⟨_, -, h⟩ := Option.bind_eq_some_iff.1 h
  obtain ⟨_, -, h⟩ := Option.bind_eq_some_iff.1 h
  obtain ⟨_, -, h⟩ := Option.bind_eq_some_iff.1 h
  obtain ⟨receipt, hreceipt, h⟩ := Option.bind_eq_some_iff.1 h
  obtain ⟨_, -, h⟩ := Option.bind_eq_some_iff.1 h
  obtain ⟨_, -, h⟩ := Option.bind_eq_some_iff.1 h
  obtain ⟨_, -, h⟩ := Option.bind_eq_some_iff.1 h
  obtain ⟨_, -, h⟩ := Option.bind_eq_some_iff.1 h
  obtain ⟨_, -, h⟩ := Option.bind_eq_some_iff.1 h
  obtain ⟨internal, hinternal, h⟩ := Option.bind_eq_some_iff.1 h
  obtain ⟨_, -, h⟩ := Option.bind_eq_some_iff.1 h
  obtain ⟨_, -, h⟩ := Option.bind_eq_some_iff.1 h
  obtain rfl := Option.some.inj h
  exact ⟨fits_of_getInt64 hfee, forall_of_readOne (fun _ _ => ResourceReceipt.fits_of_read) hreceipt,
    forall_of_readAll (fun _ _ => InternalTransaction.fits_of_read) hinternal⟩

/-- **Receipts read from bytes fit**: the fee, the costs and the values transferred inside
are within their fields. -/
theorem fits_of_decodeInfoList {bytes : List UInt8} {list : List TransactionInfo}
    (h : decodeInfoList bytes = some list) : ∀ info ∈ list, info.Fits := by
  obtain ⟨rs, -, h⟩ := Option.bind_eq_some_iff.1 h
  exact forall_of_readAll (fun _ _ => TransactionInfo.fits_of_read) h

end Protocol

/-- `decode_transaction_info_list`. -/
def decodeTransactionInfoList (raw : List UInt8) : Except CodecError (List DecodedTxInfo) := do
  let list ← orProtoDecode (Protocol.decodeInfoList raw)
  decodeTransactionInfoListMessage list

/-! ### What was decoded fits -/

open Protobuf (FitsInt64 FitsInt32 fitsInt64_toInt fitsInt32_toInt)

/-- The numbers of a decoded contract. -/
def DecodedContract.Fits : DecodedContract → Prop
  | .transfer _ _ amountSun => FitsInt64 amountSun
  | .transferAsset _ _ _ amount => FitsInt64 amount
  | .triggerSmartContract _ _ callValue callTokenValue tokenId _ =>
    FitsInt64 callValue ∧ FitsInt64 callTokenValue ∧ FitsInt64 tokenId
  | .createSmartContract _ _ _ _ consumeUserResourcePercent originEnergyLimit callTokenValue
      tokenId =>
    FitsInt64 consumeUserResourcePercent ∧ FitsInt64 originEnergyLimit ∧
      FitsInt64 callTokenValue ∧ FitsInt64 tokenId
  | .other kind _ => FitsInt32 kind.toWireTag

/-- The numbers of a decoded transaction. -/
structure DecodedTransaction.Fits (tx : DecodedTransaction) : Prop where
  timestampMs : FitsInt64 tx.timestampMs
  expirationMs : FitsInt64 tx.expirationMs
  feeLimitSun : FitsInt64 tx.feeLimitSun
  contracts : ∀ c ∈ tx.contracts, c.Fits

/-- The numbers of a decoded block. -/
structure DecodedBlock.Fits (d : DecodedBlock) : Prop where
  timestampMs : FitsInt64 d.header.timestampMs
  version : FitsInt32 d.header.version
  transactions : ∀ tx ∈ d.transactions, tx.Fits

/-- The numbers of a decoded receipt, but for those that only the join reads. -/
structure DecodedTxInfo.Fits (info : DecodedTxInfo) : Prop where
  feeSun : FitsInt64 info.feeSun
  resource : info.resource.Fits
  internal : ∀ i ∈ info.internalTransactions, ∀ c ∈ i.callValues, FitsInt64 c.callValue

section decoders

variable {p : Protocol.PayloadDecoders} {sha256 : List UInt8 → List.Vector UInt8 32}

/-- A decoded contract fits, when the payload decoders read numbers within their fields. -/
theorem DecodesTo.fits (hp : p.Fits) {c : Protocol.Transaction.Contract} {d : DecodedContract}
    (h : DecodesTo p c d) : d.Fits := by
  cases h with
  | transfer tag payload howner hto => exact hp.transfer _ _ payload
  | transferAsset tag payload howner hto => exact hp.transferAsset _ _ payload
  | triggerSmartContract tag payload howner hcontract => exact hp.triggerSmartContract _ _ payload
  | createSmartContract tag payload howner hcontract => exact hp.createSmartContract _ _ payload
  | other tag =>
    have htag : FitsInt32 (ContractKind.fromWire c.type.toInt).toWireTag := by
      rw [ContractKind.toWireTag_fromWire]
      exact fitsInt32_toInt _
    exact htag

/-- The two times, the fee limit and the contracts of a decoded transaction fit. -/
theorem fits_of_decodeTransaction (hp : p.Fits) {tx : Protocol.Transaction} {d : DecodedTransaction}
    (h : decodeTransaction p sha256 tx = .ok d) : d.Fits := by
  unfold decodeTransaction at h
  cases hraw : tx.rawData with
  | none =>
    rw [hraw] at h
    cases h
  | some raw =>
    rw [hraw] at h
    obtain ⟨contracts, hcontracts, h⟩ := Decode.bind_eq_ok.1 h
    obtain rfl := Except.ok.inj h
    refine ⟨fitsInt64_toInt _, fitsInt64_toInt _, fitsInt64_toInt _, fun c hc => ?_⟩
    obtain ⟨m, -, hm⟩ := (Decode.mem_of_mapM_eq_ok hcontracts).1 hc
    exact (decodeContract_eq_ok.1 hm).fits hp

/-- The header's time is an `i64` and its version an `i32`. -/
theorem fits_of_decodeHeader {h : Protocol.BlockHeader} {d : DecodedHeader}
    (hd : decodeHeader sha256 h = .ok d) : FitsInt64 d.timestampMs ∧ FitsInt32 d.version := by
  unfold decodeHeader at hd
  cases hraw : h.rawData with
  | none =>
    rw [hraw] at hd
    cases hd
  | some raw =>
    rw [hraw] at hd
    obtain ⟨_, -, hd⟩ := Decode.bind_eq_ok.1 hd
    obtain ⟨_, -, hd⟩ := Decode.bind_eq_ok.1 hd
    obtain ⟨_, -, hd⟩ := Decode.bind_eq_ok.1 hd
    obtain rfl := Except.ok.inj hd
    exact ⟨fitsInt64_toInt _, fitsInt32_toInt _⟩

/-- **The numbers of a decoded block are within their fields**: those of the header, of
every transaction and of every contract, as long as the payload decoders keep theirs. -/
theorem fits_of_decodeBlockMessage (hp : p.Fits) {block : Protocol.Block} {d : DecodedBlock}
    (h : decodeBlockMessage p sha256 block = .ok d) : d.Fits := by
  obtain ⟨⟨hdr, -, hheader⟩, htxs⟩ := decodeBlockMessage_eq_ok.1 h
  obtain ⟨htimestamp, hversion⟩ := fits_of_decodeHeader hheader
  refine ⟨htimestamp, hversion, fun tx htx => ?_⟩
  obtain ⟨m, -, hm⟩ := (Decode.mem_of_mapM_eq_ok (Decode.mapM_eq_ok.2 htxs)).1 htx
  exact fits_of_decodeTransaction hp hm

end decoders

/-- A receipt without a resource part has the default one. -/
theorem fits_resource {receipt : Option Protocol.ResourceReceipt}
    (h : ∀ r ∈ receipt.toList, (decodeResource r).Fits) :
    ((receipt.map decodeResource).getD .default).Fits := by
  cases receipt with
  | none => constructor <;> decide
  | some r => exact h r (List.mem_singleton_self r)

/-- **The numbers of a decoded receipt are within their fields.** -/
theorem fits_of_decodeTransactionInfoMessage {info : Protocol.TransactionInfo} {d : DecodedTxInfo}
    (hfits : info.Fits) (h : decodeTransactionInfoMessage info = .ok d) : d.Fits := by
  obtain ⟨_, -, h⟩ := Decode.bind_eq_ok.1 h
  obtain ⟨_, -, h⟩ := Decode.bind_eq_ok.1 h
  obtain ⟨_, -, h⟩ := Decode.bind_eq_ok.1 h
  obtain ⟨internal, hinternal, h⟩ := Decode.bind_eq_ok.1 h
  obtain rfl := Except.ok.inj h
  refine ⟨hfits.fee, fits_resource hfits.receipt, fun i hi c hc => ?_⟩
  obtain ⟨m, hm, hdecode⟩ := (Decode.mem_of_mapM_eq_ok hinternal).1 hi
  obtain ⟨_, -, hdecode⟩ := Decode.bind_eq_ok.1 hdecode
  obtain ⟨_, -, hdecode⟩ := Decode.bind_eq_ok.1 hdecode
  obtain ⟨_, -, hdecode⟩ := Decode.bind_eq_ok.1 hdecode
  obtain rfl := Except.ok.inj hdecode
  obtain ⟨v, hv, rfl⟩ := List.mem_map.1 hc
  exact hfits.internal m hm v hv

/-- The receipts decoded from the wire fit. -/
theorem fits_of_decodeTransactionInfoList {raw : List UInt8} {infos : List DecodedTxInfo}
    (h : decodeTransactionInfoList raw = .ok infos) : ∀ info ∈ infos, info.Fits := by
  obtain ⟨list, hlist, h⟩ := Decode.bind_eq_ok.1 h
  have hfits := Protocol.fits_of_decodeInfoList (orProtoDecode_eq_ok.1 hlist)
  intro info hinfo
  obtain ⟨m, hm, hdecode⟩ := (Decode.mem_of_mapM_eq_ok h).1 hinfo
  exact fits_of_decodeTransactionInfoMessage (hfits m hm) hdecode

end Lightcycle
