/-
# Decoded blocks and the witness signature

The domain shapes of `crates/lightcycle-codec`: `DecodedBlock` (`src/block.rs`),
`DecodedTransaction` and `DecodedContract` (`src/transaction.rs`), `DecodedTxInfo`
(`src/tx_info.rs`), and `verify_witness_signature` (`src/sigverify.rs`).

Public-key recovery is k256 and Keccak; it is a parameter `recover` of the
verification, from a digest and a 65-byte signature to the address that signed,
`none` when k256 rejects.  `recoverWitnessAddress` is the code around it.  Of the
errors of `src/error.rs` only those the modelled functions return are here.

`i64` and `i32` fields are integers: nothing modelled here computes with them.
-/

import Lightcycle.Types.Basic

namespace Lightcycle

/-- Block header in domain-friendly form.  `height` comes out of
`u64::try_from(raw.number)`, so it is a `u64`. -/
structure DecodedHeader where
  height : ℕ
  blockId : BlockId
  parentId : BlockId
  rawDataHash : List.Vector UInt8 32
  txTrieRoot : List.Vector UInt8 32
  timestampMs : ℤ
  witness : Address
  witnessSignature : List UInt8
  version : ℤ
  height_lt : height < 2 ^ 64
deriving DecidableEq

/-- Contract tag; `other` keeps a wire tag the vendored enum does not know. -/
inductive ContractKind where
  | accountCreate
  | transfer
  | transferAsset
  | voteAsset
  | voteWitness
  | witnessCreate
  | assetIssue
  | witnessUpdate
  | participateAssetIssue
  | accountUpdate
  | freezeBalance
  | unfreezeBalance
  | withdrawBalance
  | unfreezeAsset
  | updateAsset
  | proposalCreate
  | proposalApprove
  | proposalDelete
  | setAccountId
  | custom
  | createSmartContract
  | triggerSmartContract
  | getContract
  | updateSetting
  | exchangeCreate
  | exchangeInject
  | exchangeWithdraw
  | exchangeTransaction
  | updateEnergyLimit
  | accountPermissionUpdate
  | clearAbi
  | updateBrokerage
  | shieldedTransfer
  | marketSellAsset
  | marketCancelOrder
  | freezeBalanceV2
  | unfreezeBalanceV2
  | withdrawExpireUnfreeze
  | delegateResource
  | unDelegateResource
  | cancelAllUnfreezeV2
  | other (tag : ℤ)
deriving DecidableEq

/-- `ContractKind::from_wire`, with the tags of `proto/tron/core/Tron.proto`. -/
def ContractKind.fromWire : ℤ → ContractKind
  | 0 => .accountCreate
  | 1 => .transfer
  | 2 => .transferAsset
  | 3 => .voteAsset
  | 4 => .voteWitness
  | 5 => .witnessCreate
  | 6 => .assetIssue
  | 8 => .witnessUpdate
  | 9 => .participateAssetIssue
  | 10 => .accountUpdate
  | 11 => .freezeBalance
  | 12 => .unfreezeBalance
  | 13 => .withdrawBalance
  | 14 => .unfreezeAsset
  | 15 => .updateAsset
  | 16 => .proposalCreate
  | 17 => .proposalApprove
  | 18 => .proposalDelete
  | 19 => .setAccountId
  | 20 => .custom
  | 30 => .createSmartContract
  | 31 => .triggerSmartContract
  | 32 => .getContract
  | 33 => .updateSetting
  | 41 => .exchangeCreate
  | 42 => .exchangeInject
  | 43 => .exchangeWithdraw
  | 44 => .exchangeTransaction
  | 45 => .updateEnergyLimit
  | 46 => .accountPermissionUpdate
  | 48 => .clearAbi
  | 49 => .updateBrokerage
  | 51 => .shieldedTransfer
  | 52 => .marketSellAsset
  | 53 => .marketCancelOrder
  | 54 => .freezeBalanceV2
  | 55 => .unfreezeBalanceV2
  | 56 => .withdrawExpireUnfreeze
  | 57 => .delegateResource
  | 58 => .unDelegateResource
  | 59 => .cancelAllUnfreezeV2
  | tag => .other tag

/-- `ContractKind::to_wire_tag`. -/
def ContractKind.toWireTag : ContractKind → ℤ
  | .accountCreate => 0
  | .transfer => 1
  | .transferAsset => 2
  | .voteAsset => 3
  | .voteWitness => 4
  | .witnessCreate => 5
  | .assetIssue => 6
  | .witnessUpdate => 8
  | .participateAssetIssue => 9
  | .accountUpdate => 10
  | .freezeBalance => 11
  | .unfreezeBalance => 12
  | .withdrawBalance => 13
  | .unfreezeAsset => 14
  | .updateAsset => 15
  | .proposalCreate => 16
  | .proposalApprove => 17
  | .proposalDelete => 18
  | .setAccountId => 19
  | .custom => 20
  | .createSmartContract => 30
  | .triggerSmartContract => 31
  | .getContract => 32
  | .updateSetting => 33
  | .exchangeCreate => 41
  | .exchangeInject => 42
  | .exchangeWithdraw => 43
  | .exchangeTransaction => 44
  | .updateEnergyLimit => 45
  | .accountPermissionUpdate => 46
  | .clearAbi => 48
  | .updateBrokerage => 49
  | .shieldedTransfer => 51
  | .marketSellAsset => 52
  | .marketCancelOrder => 53
  | .freezeBalanceV2 => 54
  | .unfreezeBalanceV2 => 55
  | .withdrawExpireUnfreeze => 56
  | .delegateResource => 57
  | .unDelegateResource => 58
  | .cancelAllUnfreezeV2 => 59
  | .other tag => tag

/-- The tag is not lost. -/
theorem ContractKind.toWireTag_fromWire (tag : ℤ) : (fromWire tag).toWireTag = tag := by
  unfold fromWire
  split <;> rfl

/-- A kind is read from its own wire tag only. -/
theorem ContractKind.fromWire_eq {tag : ℤ} {kind : ContractKind} (h : fromWire tag = kind) :
    tag = kind.toWireTag := by
  rw [← h, toWireTag_fromWire]

/-- Typed contract payload: four kinds decoded field by field, the rest raw. -/
inductive DecodedContract where
  | transfer (owner toAddr : Address) (amountSun : ℤ)
  | transferAsset (owner toAddr : Address) (assetName : List UInt8) (amount : ℤ)
  | triggerSmartContract (owner contractAddress : Address) (callValue callTokenValue tokenId : ℤ)
      (data : List UInt8)
  | createSmartContract (owner : Address) (contractAddress : Option Address)
      (bytecode : List UInt8) (name : List Char) (consumeUserResourcePercent originEnergyLimit
      callTokenValue tokenId : ℤ)
  | other (kind : ContractKind) (raw : List UInt8)
deriving DecidableEq

/-- Decoded transaction. -/
structure DecodedTransaction where
  hash : TxHash
  timestampMs : ℤ
  expirationMs : ℤ
  feeLimitSun : ℤ
  contracts : List DecodedContract
  signatures : List (List UInt8)
deriving DecidableEq

/-- A block decoded from the wire. -/
structure DecodedBlock where
  header : DecodedHeader
  transactions : List DecodedTransaction
deriving DecidableEq

/-- EVM event log. -/
structure Log where
  address : Address
  topics : List (List.Vector UInt8 32)
  data : List UInt8
deriving DecidableEq

/-- One value transfer of an internal transaction. -/
structure CallValueInfo where
  callValue : ℤ
  tokenId : List Char
deriving DecidableEq

/-- A sub-call the EVM made during the outer transaction. -/
structure InternalTx where
  hash : List.Vector UInt8 32
  caller : Address
  transferTo : Address
  callValues : List CallValueInfo
  rejected : Bool
  note : List UInt8
deriving DecidableEq

/-- Resource accounting of a transaction. -/
structure ResourceCost where
  energyUsage : ℤ
  energyFee : ℤ
  originEnergyUsage : ℤ
  energyUsageTotal : ℤ
  netUsage : ℤ
  netFee : ℤ
  energyPenaltyTotal : ℤ
deriving DecidableEq

/-- The execution result of a transaction, from the side channel. -/
structure DecodedTxInfo where
  txHash : TxHash
  blockHeight : ℕ
  blockTimestampMs : ℤ
  feeSun : ℤ
  success : Bool
  contractAddress : Option Address
  resource : ResourceCost
  logs : List Log
  internalTransactions : List InternalTx
deriving DecidableEq

/-- The errors of decoding and of the verification; of a protobuf error only that it is one. -/
inductive CodecError where
  | protoDecode
  | missingBlockHeader
  | missingHeaderRaw
  | missingTransactionRaw
  | badHash (field : String) (got : ℕ)
  | badAddress (field : String) (got : ℕ)
  | badSignature (field : String) (got : ℕ)
  | signatureRecoveryFailed
  | witnessAddressMismatch (expected recovered : Address)
  | witnessNotInSrSet (witness : Address) (setSize : ℕ)
deriving DecidableEq

/-- `WITNESS_SIG_LEN`: `r`, `s` and the recovery byte. -/
def witnessSigLen : ℕ := 65

/-- `recover_witness_address`: the length check, the recovery byte taken down by
27 when it is at least 27, and k256. -/
def recoverWitnessAddress
    (recover : List.Vector UInt8 32 → List UInt8 → UInt8 → Option Address)
    (msgHash : List.Vector UInt8 32) (sigBytes : List UInt8) : Except CodecError Address :=
  if sigBytes.length ≠ witnessSigLen then
    .error (.badSignature "witness_signature" sigBytes.length)
  else
    let v := sigBytes.getD 64 0
    let recoveryByte := if 27 ≤ v then v - 27 else v
    match recover msgHash (sigBytes.take 64) recoveryByte with
    | none => .error .signatureRecoveryFailed
    | some a => .ok a

/-- `verify_witness_signature`: recover, match the declared witness, look the
signer up in the active set. -/
def verifyWitnessSignature
    (recover : List.Vector UInt8 32 → List UInt8 → UInt8 → Option Address)
    (header : DecodedHeader) (srSet : SrSet) : Except CodecError Unit :=
  match recoverWitnessAddress recover header.rawDataHash header.witnessSignature with
  | .error e => .error e
  | .ok recovered =>
    if recovered ≠ header.witness then
      .error (.witnessAddressMismatch header.witness recovered)
    else if ¬ srSet.contains recovered then
      .error (.witnessNotInSrSet recovered srSet.len)
    else .ok ()

/-- A header with the identity of a block and nothing else of interest in it
(`synth_block` of the tests). -/
def synthBlock (height : ℕ) (blockId parentId : BlockId) (h : height < 2 ^ 64) : DecodedBlock where
  header :=
    { height, blockId, parentId
      rawDataHash := List.Vector.replicate 32 0
      txTrieRoot := List.Vector.replicate 32 0
      timestampMs := 1777854558000
      witness := Address.fill 0x41
      witnessSignature := List.replicate 65 0
      version := 34
      height_lt := h }
  transactions := []

end Lightcycle
