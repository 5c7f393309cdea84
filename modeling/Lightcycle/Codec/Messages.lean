/-
# The block messages of java-tron

`Block`, `Transaction` and `BlockHeader` of `proto/tron/core/Tron.proto` and what is in
them, in `Protocol`, and their protobuf encoding.  A message that is encoded again to be
hashed, the `raw` of a header and of a transaction, has all its fields, and its encoding
writes them in the order of their numbers and leaves out a default; of the others only
the reading is here.  prost allows messages to nest to a depth of 100.

Nothing decodes the results a transaction carries in `ret`, but a block whose results do
not parse is refused: `Transaction.Result.check` is that they parse.

A field is as wide as it is on the wire where the encoding is concerned: the sign of a
negative number takes ten bytes.
-/

import Lightcycle.Lib.Schema

namespace Lightcycle
namespace Protocol

open Protobuf

/-! ### Headers -/

/-- `protocol::block_header::Raw`. -/
structure BlockHeader.Raw where
  timestamp : Int64
  txTrieRoot : List UInt8
  parentHash : List UInt8
  number : Int64
  witnessId : Int64
  witnessAddress : List UInt8
  version : Int32
  accountStateRoot : List UInt8
deriving DecidableEq

/-- `protocol::BlockHeader`. -/
structure BlockHeader where
  rawData : Option BlockHeader.Raw
  witnessSignature : List UInt8
deriving DecidableEq

/-- The encoding of `BlockHeader.raw`. -/
def BlockHeader.Raw.message : Message BlockHeader.Raw where
  records r :=
    Scalar.int64.put 1 r.timestamp ++ Scalar.bytes.put 2 r.txTrieRoot ++
      Scalar.bytes.put 3 r.parentHash ++ Scalar.int64.put 7 r.number ++
      Scalar.int64.put 8 r.witnessId ++ Scalar.bytes.put 9 r.witnessAddress ++
      Scalar.int32.put 10 r.version ++ Scalar.bytes.put 11 r.accountStateRoot
  read _ rs := do
    let timestamp ← Scalar.int64.get (occ 1 rs)
    let txTrieRoot ← Scalar.bytes.get (occ 2 rs)
    let parentHash ← Scalar.bytes.get (occ 3 rs)
    let number ← Scalar.int64.get (occ 7 rs)
    let witnessId ← Scalar.int64.get (occ 8 rs)
    let witnessAddress ← Scalar.bytes.get (occ 9 rs)
    let version ← Scalar.int32.get (occ 10 rs)
    let accountStateRoot ← Scalar.bytes.get (occ 11 rs)
    return { timestamp, txTrieRoot, parentHash, number, witnessId, witnessAddress, version
             accountStateRoot }
  written r := by
    simp
  read_records _ r _ := by
    simp

/-- A header as it is read. -/
def BlockHeader.read (depth : ℕ) (rs : List Record) : Option BlockHeader := do
  let rawData ← readOne (Raw.message.read (depth - 1)) (depth - 1) (occ 1 rs)
  let witnessSignature ← Scalar.bytes.get (occ 2 rs)
  return { rawData, witnessSignature }

/-! ### Transactions -/

/-- `protocol::AccountId`. -/
structure AccountId where
  name : List UInt8
  address : List UInt8
deriving DecidableEq

/-- `protocol::Authority`. -/
structure Authority where
  account : Option AccountId
  permissionName : List UInt8
deriving DecidableEq

/-- `google.protobuf.Any`. -/
structure Any where
  typeUrl : String
  value : List UInt8
deriving DecidableEq

/-- `protocol::transaction::Contract`. -/
structure Transaction.Contract where
  type : Int32
  parameter : Option Any
  provider : List UInt8
  contractName : List UInt8
  permissionId : Int32
deriving DecidableEq

/-- `protocol::transaction::Raw`. -/
structure Transaction.Raw where
  refBlockBytes : List UInt8
  refBlockNum : Int64
  refBlockHash : List UInt8
  expiration : Int64
  auths : List Authority
  data : List UInt8
  contract : List Transaction.Contract
  scripts : List UInt8
  timestamp : Int64
  feeLimit : Int64
deriving DecidableEq

/-- `protocol::Transaction`, without the results. -/
structure Transaction where
  rawData : Option Transaction.Raw
  signature : List (List UInt8)
deriving DecidableEq

/-- `protocol::Block`. -/
structure Block where
  transactions : List Transaction
  blockHeader : Option BlockHeader
deriving DecidableEq

/-- The encoding of `AccountId`. -/
def AccountId.message : Message AccountId where
  records a := Scalar.bytes.put 1 a.name ++ Scalar.bytes.put 2 a.address
  read _ rs := do
    let name ← Scalar.bytes.get (occ 1 rs)
    let address ← Scalar.bytes.get (occ 2 rs)
    return { name, address }
  written a := by
    simp
  read_records _ a _ := by
    simp

/-- The encoding of `authority`. -/
def Authority.message : Message Authority where
  records a := AccountId.message.putOne 1 a.account ++ Scalar.bytes.put 2 a.permissionName
  read depth rs := do
    let account ← readOne (AccountId.message.read (depth - 1)) (depth - 1) (occ 1 rs)
    let permissionName ← Scalar.bytes.get (occ 2 rs)
    return { account, permissionName }
  written a := by
    simp
  read_records depth a hlen := by
    have haccount := AccountId.message.length_of_mem 1 a.account.toList (by simp) hlen
    simp [AccountId.message.readOne_map haccount]

/-- The encoding of `Any`. -/
def Any.message : Message Any where
  records a := Scalar.string.put 1 a.typeUrl ++ Scalar.bytes.put 2 a.value
  read _ rs := do
    let typeUrl ← Scalar.string.get (occ 1 rs)
    let value ← Scalar.bytes.get (occ 2 rs)
    return { typeUrl, value }
  written a := by
    simp
  read_records _ a _ := by
    simp

/-- The encoding of `Transaction.Contract`. -/
def Transaction.Contract.message : Message Transaction.Contract where
  records c :=
    Scalar.int32.put 1 c.type ++ Any.message.putOne 2 c.parameter ++
      Scalar.bytes.put 3 c.provider ++ Scalar.bytes.put 4 c.contractName ++
      Scalar.int32.put 5 c.permissionId
  read depth rs := do
    let type ← Scalar.int32.get (occ 1 rs)
    let parameter ← readOne (Any.message.read (depth - 1)) (depth - 1) (occ 2 rs)
    let provider ← Scalar.bytes.get (occ 3 rs)
    let contractName ← Scalar.bytes.get (occ 4 rs)
    let permissionId ← Scalar.int32.get (occ 5 rs)
    return { type, parameter, provider, contractName, permissionId }
  written c := by
    simp
  read_records depth c hlen := by
    have hparameter := Any.message.length_of_mem 2 c.parameter.toList (by simp) hlen
    simp [Any.message.readOne_map hparameter]

/-- The encoding of `Transaction.raw`. -/
def Transaction.Raw.message : Message Transaction.Raw where
  records r :=
    Scalar.bytes.put 1 r.refBlockBytes ++ Scalar.int64.put 3 r.refBlockNum ++
      Scalar.bytes.put 4 r.refBlockHash ++ Scalar.int64.put 8 r.expiration ++
      Authority.message.putAll 9 r.auths ++ Scalar.bytes.put 10 r.data ++
      Contract.message.putAll 11 r.contract ++ Scalar.bytes.put 12 r.scripts ++
      Scalar.int64.put 14 r.timestamp ++ Scalar.int64.put 18 r.feeLimit
  read depth rs := do
    let refBlockBytes ← Scalar.bytes.get (occ 1 rs)
    let refBlockNum ← Scalar.int64.get (occ 3 rs)
    let refBlockHash ← Scalar.bytes.get (occ 4 rs)
    let expiration ← Scalar.int64.get (occ 8 rs)
    let auths ← readAll (Authority.message.read (depth - 1)) (depth - 1) (occ 9 rs)
    let data ← Scalar.bytes.get (occ 10 rs)
    let contract ← readAll (Contract.message.read (depth - 1)) (depth - 1) (occ 11 rs)
    let scripts ← Scalar.bytes.get (occ 12 rs)
    let timestamp ← Scalar.int64.get (occ 14 rs)
    let feeLimit ← Scalar.int64.get (occ 18 rs)
    return { refBlockBytes, refBlockNum, refBlockHash, expiration, auths, data, contract, scripts
             timestamp, feeLimit }
  written r := by
    simp
  read_records depth r hlen := by
    have hauths := Authority.message.length_of_mem 9 r.auths (fun _ h => by simp [h]) hlen
    have hcontract := Contract.message.length_of_mem 11 r.contract (fun _ h => by simp [h]) hlen
    simp [Authority.message.readAll_map hauths, Contract.message.readAll_map hcontract]

/-! ### Reading a block -/

/-- The fields under the numbers `ns` read as scalars of one kind. -/
def reads {α : Type} (k : Scalar α) (ns : List ℕ) (rs : List Record) : Option Unit :=
  ns.forM fun n => (k.get (occ n rs)).map fun _ => ()

/-- `protocol::MarketOrderDetail` parses. -/
def MarketOrderDetail.check (rs : List Record) : Option Unit := do
  reads .bytes [1, 2] rs
  reads .int64 [3, 4] rs

/-- An entry of `cancel_unfreezeV2_amount` parses. -/
def Transaction.Result.checkEntry (rs : List Record) : Option Unit := do
  reads .string [1] rs
  reads .int64 [2] rs

/-- `protocol::transaction::Result` parses. -/
def Transaction.Result.check (depth : ℕ) (rs : List Record) : Option Unit := do
  reads .int64 [1, 15, 16, 18, 19, 20, 21, 22, 27] rs
  reads .int32 [2, 3] rs
  reads .string [14] rs
  reads .bytes [25] rs
  let _ ← readAll MarketOrderDetail.check (depth - 1) (occ 26 rs)
  let _ ← readAll Transaction.Result.checkEntry (depth - 1) (occ 28 rs)

/-- A transaction as it is read. -/
def Transaction.read (depth : ℕ) (rs : List Record) : Option Transaction := do
  let rawData ← readOne (Raw.message.read (depth - 1)) (depth - 1) (occ 1 rs)
  let signature ← Scalar.bytes.getAll (occ 2 rs)
  let _ ← readAll (Transaction.Result.check (depth - 1)) (depth - 1) (occ 5 rs)
  return { rawData, signature }

/-- A block as it is read. -/
def Block.read (depth : ℕ) (rs : List Record) : Option Block := do
  let transactions ← readAll (Transaction.read (depth - 1)) (depth - 1) (occ 1 rs)
  let blockHeader ← readOne (BlockHeader.read (depth - 1)) (depth - 1) (occ 2 rs)
  return { transactions, blockHeader }

/-- prost's bound on how deep messages and groups nest. -/
def recursionLimit : ℕ := 100

/-- `protocol::Block::decode`. -/
def Block.decode (bytes : List UInt8) : Option Block :=
  parse recursionLimit bytes >>= Block.read recursionLimit

end Protocol
end Lightcycle
