/-
# The receipts side channel

`crates/lightcycle-codec/src/tx_info.rs`: java-tron's `TransactionInfo` message, of
`proto/tron/core/Tron.proto`, decoded into `DecodedTxInfo`.  The messages are in
`Protocol`, with the fields the decoder reads; an `i64` or `i32` field is an integer,
an enumeration field the `i32` that prost keeps.

Decoding checks lengths and nothing else: a receipt keeps the transaction id and the
block number the message names, and is not compared with any block.
-/

import Lightcycle.Codec.Block
import Lightcycle.Lib.Decode

namespace Lightcycle

namespace Protocol

/-- `protocol::transaction_info::Log`. -/
structure Log where
  address : List UInt8
  topics : List (List UInt8)
  data : List UInt8
deriving DecidableEq

/-- `protocol::internal_transaction::CallValueInfo`. -/
structure CallValueInfo where
  callValue : ℤ
  tokenId : List Char
deriving DecidableEq

/-- `protocol::InternalTransaction`. -/
structure InternalTransaction where
  hash : List UInt8
  callerAddress : List UInt8
  transferToAddress : List UInt8
  callValueInfo : List CallValueInfo
  note : List UInt8
  rejected : Bool
deriving DecidableEq

/-- `protocol::ResourceReceipt`. -/
structure ResourceReceipt where
  energyUsage : ℤ
  energyFee : ℤ
  originEnergyUsage : ℤ
  energyUsageTotal : ℤ
  netUsage : ℤ
  netFee : ℤ
  energyPenaltyTotal : ℤ
deriving DecidableEq

/-- `protocol::TransactionInfo`. -/
structure TransactionInfo where
  id : List UInt8
  fee : ℤ
  blockNumber : ℤ
  blockTimeStamp : ℤ
  contractAddress : List UInt8
  receipt : Option ResourceReceipt
  log : List Log
  result : ℤ
  internalTransactions : List InternalTransaction
deriving DecidableEq

/-- `transaction_info::Code::Sucess as i32`. -/
def sucess : ℤ := 0

end Protocol

/-- `bytes_to_hash32`. -/
def bytesToHash32 (b : List UInt8) (field : String) : Except CodecError (List.Vector UInt8 32) :=
  if h : b.length = 32 then .ok ⟨b, h⟩ else .error (.badHash field b.length)

/-- `bytes_to_tx_hash`. -/
def bytesToTxHash (b : List UInt8) (field : String) : Except CodecError TxHash :=
  (bytesToHash32 b field).map TxHash.mk

/-- `bytes_to_address`. -/
def bytesToAddress (b : List UInt8) (field : String) : Except CodecError Address :=
  if h : b.length = 21 then .ok ⟨⟨b, h⟩⟩ else .error (.badAddress field b.length)

/-- `decode_resource`. -/
def decodeResource (r : Protocol.ResourceReceipt) : ResourceCost where
  energyUsage := r.energyUsage
  energyFee := r.energyFee
  originEnergyUsage := r.originEnergyUsage
  energyUsageTotal := r.energyUsageTotal
  netUsage := r.netUsage
  netFee := r.netFee
  energyPenaltyTotal := r.energyPenaltyTotal

/-- `ResourceCost::default`. -/
def ResourceCost.default : ResourceCost := ⟨0, 0, 0, 0, 0, 0, 0⟩

/-- A topic is padded on the left, and cut, to 32 bytes. -/
def padTopic (t : List UInt8) : List UInt8 :=
  List.replicate (32 - min t.length 32) 0 ++ t.take 32

/-- A topic becomes 32 bytes, however many it has. -/
theorem length_padTopic (t : List UInt8) : (padTopic t).length = 32 := by
  unfold padTopic
  rw [List.length_append, List.length_replicate, List.length_take]
  omega

/-- `decode_log`. -/
def decodeLog (l : Protocol.Log) : Except CodecError Log := do
  let address ← bytesToAddress l.address "Log.address"
  return { address, topics := l.topics.map fun t => ⟨padTopic t, length_padTopic t⟩, data := l.data }

/-- `decode_internal`. -/
def decodeInternal (i : Protocol.InternalTransaction) : Except CodecError InternalTx := do
  let hash ← bytesToHash32 i.hash "InternalTransaction.hash"
  let caller ← bytesToAddress i.callerAddress "InternalTransaction.caller_address"
  let transferTo ← bytesToAddress i.transferToAddress "InternalTransaction.transferTo_address"
  return { hash, caller, transferTo
           callValues := i.callValueInfo.map fun c => ⟨c.callValue, c.tokenId⟩
           rejected := i.rejected, note := i.note }

/-- The contract address of `decode_transaction_info_message`: none when the field is empty. -/
def decodeContractAddress (b : List UInt8) : Except CodecError (Option Address) :=
  if b.isEmpty then .ok none
  else (bytesToAddress b "TransactionInfo.contract_address").map some

/-- `decode_transaction_info_message`. -/
def decodeTransactionInfoMessage (info : Protocol.TransactionInfo) :
    Except CodecError DecodedTxInfo := do
  let txHash ← bytesToTxHash info.id "TransactionInfo.id"
  let contractAddress ← decodeContractAddress info.contractAddress
  let logs ← info.log.mapM decodeLog
  let internalTransactions ← info.internalTransactions.mapM decodeInternal
  return { txHash
           -- `u64::try_from(..).unwrap_or(0)`: a negative number becomes 0
           blockHeight := info.blockNumber.toNat
           blockTimestampMs := info.blockTimeStamp
           feeSun := info.fee
           success := decide (info.result = Protocol.sucess)
           contractAddress
           resource := (info.receipt.map decodeResource).getD .default
           logs, internalTransactions }

/-- `decode_transaction_info_list_message`: the first error ends it. -/
def decodeTransactionInfoListMessage (list : List Protocol.TransactionInfo) :
    Except CodecError (List DecodedTxInfo) :=
  list.mapM decodeTransactionInfoMessage

/-! ### What was decoded -/

/-- A check of the length, in front of whatever holds the bytes. -/
theorem checkLength_eq_ok {n : ℕ} {α : Type} {mk : List.Vector UInt8 n → α} {b : List UInt8}
    {e : CodecError} {a : α} :
    (if h : b.length = n then Except.ok (mk ⟨b, h⟩) else .error e) = .ok a ↔
      ∃ v, mk v = a ∧ v.toList = b := by
  by_cases h : b.length = n
  · rw [dif_pos h]
    constructor
    · intro ha
      exact ⟨⟨b, h⟩, Except.ok.inj ha, rfl⟩
    · rintro ⟨v, rfl, rfl⟩
      rfl
  · rw [dif_neg h]
    refine iff_of_false (fun h => by cases h) ?_
    rintro ⟨v, -, hv⟩
    exact h (by rw [← hv, v.toList_length])

/-- Decoding an address keeps its bytes. -/
theorem bytesToAddress_eq_ok {b : List UInt8} {field : String} {a : Address} :
    bytesToAddress b field = .ok a ↔ a.bytes.toList = b := by
  unfold bytesToAddress
  rw [checkLength_eq_ok]
  constructor
  · rintro ⟨v, rfl, hv⟩
    exact hv
  · exact fun h => ⟨a.bytes, rfl, h⟩

/-- Decoding a hash keeps its bytes. -/
theorem bytesToHash32_eq_ok {b : List UInt8} {field : String} {a : List.Vector UInt8 32} :
    bytesToHash32 b field = .ok a ↔ a.toList = b := by
  unfold bytesToHash32
  refine (@checkLength_eq_ok 32 _ id _ _ _).trans ?_
  constructor
  · rintro ⟨v, rfl, hv⟩
    exact hv
  · exact fun h => ⟨a, rfl, h⟩

/-- A transaction hash has the bytes it was decoded from. -/
theorem toList_of_bytesToTxHash {b : List UInt8} {field : String} {h : TxHash}
    (hb : bytesToTxHash b field = .ok h) : h.bytes.toList = b := by
  obtain ⟨a, ha, rfl⟩ := Decode.map_eq_ok.1 hb
  exact bytesToHash32_eq_ok.1 ha

/-- **A receipt keeps the transaction id of its message.** -/
theorem txHash_of_decode {info : Protocol.TransactionInfo} {d : DecodedTxInfo}
    (h : decodeTransactionInfoMessage info = .ok d) : d.txHash.bytes.toList = info.id := by
  obtain ⟨txHash, hid, h⟩ := Decode.bind_eq_ok.1 h
  obtain ⟨_, -, h⟩ := Decode.bind_eq_ok.1 h
  obtain ⟨_, -, h⟩ := Decode.bind_eq_ok.1 h
  obtain ⟨_, -, h⟩ := Decode.bind_eq_ok.1 h
  obtain rfl := Except.ok.inj h
  exact toList_of_bytesToTxHash hid

end Lightcycle
