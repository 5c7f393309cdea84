/-
# The wire shape of a block

`crates/lightcycle-firehose/src/encode.rs`: a buffered block as
`sf.tron.type.v1.Block`.  The messages of `proto/sf/tron/type/v1/block.proto` are
structures under their names, in `Pb`; an enumeration field is the `i32` that prost
keeps, an integer.

`Prost` is the pair of prost's `encode_to_vec` and `decode` for `Pb.Block`.  Nothing is
assumed of it here; `prostOf` is a concrete one, the protobuf encoding with the reader of
the blocks of a list.
-/

import Lightcycle.Lib.Protobuf
import Lightcycle.Relayer.Engine

namespace Lightcycle
namespace Firehose

open Relayer

/-! ### The messages -/

namespace Pb

/-- `google.protobuf.Timestamp`. -/
structure Timestamp where
  seconds : ℤ
  nanos : ℤ
deriving DecidableEq

structure Header where
  version : ℤ
  rawDataHash : List UInt8
  txTrieRoot : List UInt8
  witness : List UInt8
  witnessSignature : List UInt8
deriving DecidableEq

/-- The `payload` oneof of `Contract`. -/
inductive Payload where
  | transfer (owner toAddr : List UInt8) (amountSun : ℤ)
  | transferAsset (owner toAddr assetName : List UInt8) (amount : ℤ)
  | triggerSmartContract (owner contractAddress data : List UInt8)
      (callValueSun callTokenValue tokenId : ℤ)
  | createSmartContract (owner contractAddress : List UInt8) (name : List Char)
      (bytecode : List UInt8) (consumeUserResourcePercent originEnergyLimit callTokenValue
      tokenId : ℤ)
  | otherPayload (raw : List UInt8)
deriving DecidableEq

/-- `ContractKind` of the block schema. -/
inductive ContractKind where
  | unspecified
  | transfer
  | transferAsset
  | triggerSmartContract
  | createSmartContract
  | other
deriving DecidableEq

/-- `as i32`. -/
def ContractKind.toI32 : ContractKind → ℤ
  | .unspecified => 0
  | .transfer => 1
  | .transferAsset => 2
  | .triggerSmartContract => 3
  | .createSmartContract => 4
  | .other => 99

structure Contract where
  kind : ℤ
  unknownKind : ℤ
  payload : Option Payload
deriving DecidableEq

structure Log where
  address : List UInt8
  topics : List (List UInt8)
  data : List UInt8
deriving DecidableEq

structure CallValue where
  callValue : ℤ
  tokenId : List Char
deriving DecidableEq

structure InternalTx where
  hash : List UInt8
  caller : List UInt8
  transferTo : List UInt8
  callValues : List CallValue
  rejected : Bool
  note : List UInt8
deriving DecidableEq

structure TransactionInfo where
  success : Bool
  feeSun : ℤ
  contractAddress : List UInt8
  resource : Option ResourceCost
  logs : List Log
  internalTransactions : List InternalTx
deriving DecidableEq

structure Transaction where
  id : List UInt8
  timestampMs : ℤ
  expirationMs : ℤ
  feeLimitSun : ℤ
  contracts : List Contract
  signatures : List (List UInt8)
  info : Option TransactionInfo
deriving DecidableEq

/-- `FinalityTier` of the block schema. -/
inductive FinalityTier where
  | unspecified
  | seen
  | confirmed
  | finalized
deriving DecidableEq

/-- `as i32`. -/
def FinalityTier.toI32 : FinalityTier → ℤ
  | .unspecified => 0
  | .seen => 1
  | .confirmed => 2
  | .finalized => 3

structure Finality where
  tier : ℤ
  solidifiedHeadNumber : ℕ
deriving DecidableEq

structure Block where
  number : ℕ
  id : List UInt8
  parentId : List UInt8
  time : Option Timestamp
  header : Option Header
  transactions : List Transaction
  finality : Option Finality
deriving DecidableEq

end Pb

/-- prost's encoding of a block message. -/
structure Prost where
  encodeToVec : Pb.Block → List UInt8
  decode : List UInt8 → Option Pb.Block

/-- `BLOCK_TYPE_URL`. -/
def blockTypeUrl : String := "type.googleapis.com/sf.tron.type.v1.Block"

/-! ### The encoder -/

/-- `timestamp_from_ms`: both operators of `i64` round toward zero, and the product is
within an `i32`. -/
def timestampFromMs (ms : ℤ) : Pb.Timestamp := ⟨ms.tdiv 1000, ms.tmod 1000 * 1000000⟩

/-- `encode_finality_tier`. -/
def encodeFinalityTier : FinalityTier → Pb.FinalityTier
  | .seen => .seen
  | .confirmed => .confirmed
  | .finalized => .finalized

/-- `encode_finality`: 0 stands for no head. -/
def encodeFinality (f : BlockFinality) : Pb.Finality where
  tier := (encodeFinalityTier f.tier).toI32
  solidifiedHeadNumber := f.solidifiedHead.getD 0

/-- `encode_contract`. -/
def encodeContract : DecodedContract → Pb.Contract
  | .transfer owner toAddr amountSun =>
    { kind := Pb.ContractKind.transfer.toI32, unknownKind := 0
      payload := some (.transfer owner.bytes.toList toAddr.bytes.toList amountSun) }
  | .transferAsset owner toAddr assetName amount =>
    { kind := Pb.ContractKind.transferAsset.toI32, unknownKind := 0
      payload := some (.transferAsset owner.bytes.toList toAddr.bytes.toList assetName amount) }
  | .triggerSmartContract owner contractAddress callValue callTokenValue tokenId data =>
    { kind := Pb.ContractKind.triggerSmartContract.toI32, unknownKind := 0
      payload := some (.triggerSmartContract owner.bytes.toList contractAddress.bytes.toList data
        callValue callTokenValue tokenId) }
  | .createSmartContract owner contractAddress bytecode name consumeUserResourcePercent
      originEnergyLimit callTokenValue tokenId =>
    { kind := Pb.ContractKind.createSmartContract.toI32, unknownKind := 0
      payload := some (.createSmartContract owner.bytes.toList
        ((contractAddress.map fun a => a.bytes.toList).getD []) name bytecode
        consumeUserResourcePercent originEnergyLimit callTokenValue tokenId) }
  | .other kind raw =>
    { kind := Pb.ContractKind.other.toI32, unknownKind := kind.toWireTag
      payload := some (.otherPayload raw) }

/-- `encode_tx_info`. -/
def encodeTxInfo (info : DecodedTxInfo) : Pb.TransactionInfo where
  success := info.success
  feeSun := info.feeSun
  contractAddress := (info.contractAddress.map fun a => a.bytes.toList).getD []
  resource := some info.resource
  logs := info.logs.map fun l => ⟨l.address.bytes.toList, l.topics.map (·.toList), l.data⟩
  internalTransactions := info.internalTransactions.map fun i =>
    { hash := i.hash.toList, caller := i.caller.bytes.toList, transferTo := i.transferTo.bytes.toList
      callValues := i.callValues.map fun c => ⟨c.callValue, c.tokenId⟩
      rejected := i.rejected, note := i.note }

/-- `encode_transaction`. -/
def encodeTransaction (tx : DecodedTransaction) (info : Option DecodedTxInfo) :
    Pb.Transaction where
  id := tx.hash.bytes.toList
  timestampMs := tx.timestampMs
  expirationMs := tx.expirationMs
  feeLimitSun := tx.feeLimitSun
  contracts := tx.contracts.map encodeContract
  signatures := tx.signatures
  info := info.map encodeTxInfo

/-- The `HashMap` collected from the receipts: of two with one hash the later stays. -/
def infoByHash (txInfos : List DecodedTxInfo) : Finmap fun _ : TxHash => DecodedTxInfo :=
  txInfos.foldl (fun m i => m.insert i.txHash i) ∅

/-- `encode_block`. -/
def encodeBlock (buffered : BufferedBlock) (finality : BlockFinality) : Pb.Block where
  number := buffered.height
  id := buffered.blockId.bytes.toList
  parentId := buffered.parentId.bytes.toList
  time := some (timestampFromMs buffered.decoded.header.timestampMs)
  header := some
    { version := buffered.decoded.header.version
      rawDataHash := buffered.decoded.header.rawDataHash.toList
      txTrieRoot := buffered.decoded.header.txTrieRoot.toList
      witness := buffered.decoded.header.witness.bytes.toList
      witnessSignature := buffered.decoded.header.witnessSignature }
  transactions := buffered.decoded.transactions.map fun tx =>
    encodeTransaction tx ((infoByHash buffered.txInfos).lookup tx.hash)
  finality := some (encodeFinality finality)

/-! ### The protobuf encoding -/

namespace Pb

open Protobuf (varint)

/-- An unsigned field, left out at its default. -/
def uintField (field n : ℕ) : List UInt8 := if n = 0 then [] else varint (8 * field) ++ varint n

/-- A signed field, in two's complement of 64 bits. -/
def intField (field : ℕ) (i : ℤ) : List UInt8 := uintField field (i % 2 ^ 64).toNat

def boolField (field : ℕ) (b : Bool) : List UInt8 := uintField field b.toNat

/-- A length-delimited field, written also when it is empty. -/
def lenField (field : ℕ) (bytes : List UInt8) : List UInt8 :=
  varint (8 * field + 2) ++ varint bytes.length ++ bytes

/-- A bytes field, left out at its default. -/
def bytesField (field : ℕ) (bytes : List UInt8) : List UInt8 :=
  if bytes = [] then [] else lenField field bytes

def utf8 (text : List Char) : List UInt8 := text.flatMap String.utf8EncodeChar

def Timestamp.encode (t : Timestamp) : List UInt8 := intField 1 t.seconds ++ intField 2 t.nanos

def Header.encode (h : Header) : List UInt8 :=
  intField 1 h.version ++ bytesField 2 h.rawDataHash ++ bytesField 3 h.txTrieRoot ++
    bytesField 4 h.witness ++ bytesField 5 h.witnessSignature

def Payload.encode : Payload → List UInt8
  | .transfer owner toAddr amountSun =>
    lenField 10 (bytesField 1 owner ++ bytesField 2 toAddr ++ intField 3 amountSun)
  | .transferAsset owner toAddr assetName amount =>
    lenField 11
      (bytesField 1 owner ++ bytesField 2 toAddr ++ bytesField 3 assetName ++ intField 4 amount)
  | .triggerSmartContract owner contractAddress data callValueSun callTokenValue tokenId =>
    lenField 12
      (bytesField 1 owner ++ bytesField 2 contractAddress ++ bytesField 3 data ++
        intField 4 callValueSun ++ intField 5 callTokenValue ++ intField 6 tokenId)
  | .createSmartContract owner contractAddress name bytecode consumeUserResourcePercent
      originEnergyLimit callTokenValue tokenId =>
    lenField 13
      (bytesField 1 owner ++ bytesField 2 contractAddress ++ bytesField 3 (utf8 name) ++
        bytesField 4 bytecode ++ intField 5 consumeUserResourcePercent ++
        intField 6 originEnergyLimit ++ intField 7 callTokenValue ++ intField 8 tokenId)
  | .otherPayload raw => lenField 14 raw

def Contract.encode (c : Contract) : List UInt8 :=
  intField 1 c.kind ++ intField 2 c.unknownKind ++ (c.payload.map Payload.encode).getD []

def Log.encode (l : Log) : List UInt8 :=
  bytesField 1 l.address ++ l.topics.flatMap (lenField 2) ++ bytesField 3 l.data

def CallValue.encode (c : CallValue) : List UInt8 :=
  intField 1 c.callValue ++ bytesField 2 (utf8 c.tokenId)

def InternalTx.encode (i : InternalTx) : List UInt8 :=
  bytesField 1 i.hash ++ bytesField 2 i.caller ++ bytesField 3 i.transferTo ++
    i.callValues.flatMap (fun c => lenField 4 c.encode) ++ boolField 5 i.rejected ++
    bytesField 6 i.note

def encodeResourceCost (r : ResourceCost) : List UInt8 :=
  intField 1 r.energyUsage ++ intField 2 r.energyFee ++ intField 3 r.originEnergyUsage ++
    intField 4 r.energyUsageTotal ++ intField 5 r.netUsage ++ intField 6 r.netFee ++
    intField 7 r.energyPenaltyTotal

def TransactionInfo.encode (i : TransactionInfo) : List UInt8 :=
  boolField 1 i.success ++ intField 2 i.feeSun ++ bytesField 3 i.contractAddress ++
    (i.resource.map fun r => lenField 4 (encodeResourceCost r)).getD [] ++
    i.logs.flatMap (fun l => lenField 5 l.encode) ++
    i.internalTransactions.flatMap (fun t => lenField 6 t.encode)

def Transaction.encode (t : Transaction) : List UInt8 :=
  bytesField 1 t.id ++ intField 2 t.timestampMs ++ intField 3 t.expirationMs ++
    intField 4 t.feeLimitSun ++ t.contracts.flatMap (fun c => lenField 5 c.encode) ++
    t.signatures.flatMap (lenField 6) ++
    (t.info.map fun i => lenField 7 i.encode).getD []

def Finality.encode (f : Finality) : List UInt8 :=
  intField 1 f.tier ++ uintField 2 f.solidifiedHeadNumber

/-- `encode_to_vec` of a block: the fields in the order of their tags, defaults left out. -/
def Block.encode (b : Block) : List UInt8 :=
  uintField 1 b.number ++ bytesField 2 b.id ++ bytesField 3 b.parentId ++
    (b.time.map fun t => lenField 4 t.encode).getD [] ++
    (b.header.map fun h => lenField 5 h.encode).getD [] ++
    b.transactions.flatMap (fun t => lenField 6 t.encode) ++
    (b.finality.map fun f => lenField 7 f.encode).getD []

/-- `Block::default()`, the block of no bytes. -/
def Block.default : Block := ⟨0, [], [], none, none, [], none⟩

end Pb

/-- The protobuf encoding, with a reader that knows the default block and those of a list. -/
def prostOf (known : List Pb.Block) : Prost where
  encodeToVec := Pb.Block.encode
  decode bytes := (Pb.Block.default :: known).find? fun b => decide (b.encode = bytes)

/-- A block with a number has an encoding of at least two bytes. -/
theorem Pb.Block.encode_ne_nil {b : Pb.Block} (h : b.number ≠ 0) : b.encode ≠ [] := by
  have hnumber : Pb.uintField 1 b.number ≠ [] := by
    rw [Pb.uintField, if_neg h]
    exact List.append_ne_nil_of_left_ne_nil (Protobuf.varint_ne_nil _) _
  simp [Pb.Block.encode, hnumber]

/-- It reads back the one block it knows. -/
theorem prostOf_decode {b : Pb.Block} (h : b.number ≠ 0) :
    (prostOf [b]).decode ((prostOf [b]).encodeToVec b) = some b := by
  have hdefault : ¬ Pb.Block.default.encode = b.encode := (Pb.Block.encode_ne_nil h).symm
  simp [prostOf, List.find?, hdefault]

end Firehose
end Lightcycle
