/-
# Decoding a block

`decode_block_message` of `crates/lightcycle-codec/src/block.rs` and the decoders of
`src/transaction.rs` under it.  `sha256` is SHA-256 of `sha2`; prost's decoders of the four
typed contracts are the fields of `PayloadDecoders`.

The decoder accepts exactly the blocks of `WellFormed`, a predicate on the message alone,
and drops nothing (`decodeBlockMessage_accepts`).

The error of a block is the first one: of the header before the transactions, and of these
in order.
-/

import Lightcycle.Codec.Messages
import Lightcycle.Codec.TxInfo
import Lightcycle.Relayer.Cursor

namespace Lightcycle

open Relayer (toBeBytes length_toBeBytes)

namespace Protocol

/-- `protocol::TransferContract`. -/
structure TransferContract where
  ownerAddress : List UInt8
  toAddress : List UInt8
  amount : ℤ
deriving DecidableEq

/-- `protocol::TransferAssetContract`. -/
structure TransferAssetContract where
  assetName : List UInt8
  ownerAddress : List UInt8
  toAddress : List UInt8
  amount : ℤ
deriving DecidableEq

/-- `protocol::TriggerSmartContract`. -/
structure TriggerSmartContract where
  ownerAddress : List UInt8
  contractAddress : List UInt8
  callValue : ℤ
  data : List UInt8
  callTokenValue : ℤ
  tokenId : ℤ
deriving DecidableEq

/-- `protocol::SmartContract`. -/
structure SmartContract where
  contractAddress : List UInt8
  bytecode : List UInt8
  consumeUserResourcePercent : ℤ
  name : List Char
  originEnergyLimit : ℤ
deriving DecidableEq

/-- `protocol::CreateSmartContract`. -/
structure CreateSmartContract where
  ownerAddress : List UInt8
  newContract : Option SmartContract
  callTokenValue : ℤ
  tokenId : ℤ
deriving DecidableEq

/-- `SmartContract::default`. -/
def SmartContract.default : SmartContract := ⟨[], [], 0, [], 0⟩

/-- `new_contract.unwrap_or_default()`. -/
def CreateSmartContract.inner (m : CreateSmartContract) : SmartContract :=
  m.newContract.getD .default

/-- `decode` of the typed contract messages. -/
structure PayloadDecoders where
  transfer : List UInt8 → Option TransferContract
  transferAsset : List UInt8 → Option TransferAssetContract
  triggerSmartContract : List UInt8 → Option TriggerSmartContract
  createSmartContract : List UInt8 → Option CreateSmartContract

/-- The bytes of the parameter, none without one. -/
def Transaction.Contract.anyBytes (c : Transaction.Contract) : List UInt8 :=
  (c.parameter.map Any.value).getD []

end Protocol

/-! ### The decoders -/

/-- `?` on the result of prost. -/
def orProtoDecode {α : Type} : Option α → Except CodecError α
  | none => .error .protoDecode
  | some a => .ok a

/-- The contract address of a `CreateSmartContract`: none when the field is empty. -/
def decodeInnerAddress (b : List UInt8) : Except CodecError (Option Address) :=
  if b.isEmpty then .ok none else (bytesToAddress b "SmartContract.contract_address").map some

section decoders

variable (p : Protocol.PayloadDecoders) (sha256 : List UInt8 → List.Vector UInt8 32)

/-- `decode_contract`. -/
def decodeContract (c : Protocol.Transaction.Contract) : Except CodecError DecodedContract :=
  match ContractKind.fromWire c.type.toInt with
  | .transfer => do
    let m ← orProtoDecode (p.transfer c.anyBytes)
    let owner ← bytesToAddress m.ownerAddress "TransferContract.owner_address"
    let toAddr ← bytesToAddress m.toAddress "TransferContract.to_address"
    return .transfer owner toAddr m.amount
  | .transferAsset => do
    let m ← orProtoDecode (p.transferAsset c.anyBytes)
    let owner ← bytesToAddress m.ownerAddress "TransferAssetContract.owner_address"
    let toAddr ← bytesToAddress m.toAddress "TransferAssetContract.to_address"
    return .transferAsset owner toAddr m.assetName m.amount
  | .triggerSmartContract => do
    let m ← orProtoDecode (p.triggerSmartContract c.anyBytes)
    let owner ← bytesToAddress m.ownerAddress "TriggerSmartContract.owner_address"
    let contractAddress ← bytesToAddress m.contractAddress "TriggerSmartContract.contract_address"
    return .triggerSmartContract owner contractAddress m.callValue m.callTokenValue m.tokenId m.data
  | .createSmartContract => do
    let m ← orProtoDecode (p.createSmartContract c.anyBytes)
    let contractAddress ← decodeInnerAddress m.inner.contractAddress
    let owner ← bytesToAddress m.ownerAddress "CreateSmartContract.owner_address"
    return .createSmartContract owner contractAddress m.inner.bytecode m.inner.name
      m.inner.consumeUserResourcePercent m.inner.originEnergyLimit m.callTokenValue m.tokenId
  | other => .ok (.other other c.anyBytes)

/-- `decode_transaction`: the hash is taken over the encoding of `raw_data`. -/
def decodeTransaction (tx : Protocol.Transaction) : Except CodecError DecodedTransaction :=
  match tx.rawData with
  | none => .error .missingTransactionRaw
  | some raw => do
    let contracts ← raw.contract.mapM (decodeContract p)
    return { hash := ⟨sha256 (Protocol.Transaction.Raw.message.encode raw)⟩
             timestampMs := raw.timestamp.toInt
             expirationMs := raw.expiration.toInt
             feeLimitSun := raw.feeLimit.toInt
             contracts
             signatures := tx.signature }

/-- The id of a block: `number.to_be_bytes()`, then the digest from its byte 8 on. -/
def blockIdOf (number : Int64) (digest : List.Vector UInt8 32) : BlockId where
  bytes := ⟨toBeBytes number.toUInt64.toNat ++ digest.toList.drop 8, by
    rw [List.length_append, length_toBeBytes, List.length_drop, List.Vector.toList_length]⟩

/-- `decode_header`. -/
def decodeHeader (h : Protocol.BlockHeader) : Except CodecError DecodedHeader :=
  match h.rawData with
  | none => .error .missingHeaderRaw
  | some raw => do
    let digest := sha256 (Protocol.BlockHeader.Raw.message.encode raw)
    let parentId ← bytesToHash32 raw.parentHash "parent_hash"
    let txTrieRoot ← bytesToHash32 raw.txTrieRoot "tx_trie_root"
    let witness ← bytesToAddress raw.witnessAddress "witness_address"
    return { -- `u64::try_from(raw.number).unwrap_or(0)`
             height := raw.number.toInt.toNat
             blockId := blockIdOf raw.number digest
             parentId := ⟨parentId⟩
             rawDataHash := digest
             txTrieRoot
             timestampMs := raw.timestamp.toInt
             witness
             witnessSignature := h.witnessSignature
             version := raw.version.toInt
             height_lt := by
               have := raw.number.toNatClampNeg_lt
               rw [Int64.toNat_toInt]
               omega }

/-- `decode_block_message`: the header first, then the transactions up to the first error. -/
def decodeBlockMessage (block : Protocol.Block) : Except CodecError DecodedBlock :=
  match block.blockHeader with
  | none => .error .missingBlockHeader
  | some h => do
    let header ← decodeHeader sha256 h
    let transactions ← block.transactions.mapM (decodeTransaction p sha256)
    return { header, transactions }

/-- `decode_block`. -/
def decodeBlock (raw : List UInt8) : Except CodecError DecodedBlock := do
  let block ← orProtoDecode (Protocol.Block.decode raw)
  decodeBlockMessage p sha256 block

end decoders

/-! ### What a contract decodes to -/

/-- The four tags with a decoder of their own. -/
def Typed (tag : ℤ) : Prop := tag = 1 ∨ tag = 2 ∨ tag = 31 ∨ tag = 30

/-- What the contract `c` decodes to, kind by kind. -/
inductive DecodesTo (p : Protocol.PayloadDecoders) (c : Protocol.Transaction.Contract) :
    DecodedContract → Prop
  | transfer {m : Protocol.TransferContract} {owner toAddr : Address}
      (tag : c.type.toInt = 1) (payload : p.transfer c.anyBytes = some m)
      (howner : owner.bytes.toList = m.ownerAddress) (hto : toAddr.bytes.toList = m.toAddress) :
      DecodesTo p c (.transfer owner toAddr m.amount)
  | transferAsset {m : Protocol.TransferAssetContract} {owner toAddr : Address}
      (tag : c.type.toInt = 2) (payload : p.transferAsset c.anyBytes = some m)
      (howner : owner.bytes.toList = m.ownerAddress) (hto : toAddr.bytes.toList = m.toAddress) :
      DecodesTo p c (.transferAsset owner toAddr m.assetName m.amount)
  | triggerSmartContract {m : Protocol.TriggerSmartContract} {owner contractAddress : Address}
      (tag : c.type.toInt = 31) (payload : p.triggerSmartContract c.anyBytes = some m)
      (howner : owner.bytes.toList = m.ownerAddress)
      (hcontract : contractAddress.bytes.toList = m.contractAddress) :
      DecodesTo p c (.triggerSmartContract owner contractAddress m.callValue m.callTokenValue
        m.tokenId m.data)
  | createSmartContract {m : Protocol.CreateSmartContract} {owner : Address}
      {contractAddress : Option Address}
      (tag : c.type.toInt = 30) (payload : p.createSmartContract c.anyBytes = some m)
      (howner : owner.bytes.toList = m.ownerAddress)
      (hcontract : (contractAddress.map fun a => a.bytes.toList).getD [] =
        m.inner.contractAddress) :
      DecodesTo p c (.createSmartContract owner contractAddress m.inner.bytecode m.inner.name
        m.inner.consumeUserResourcePercent m.inner.originEnergyLimit m.callTokenValue m.tokenId)
  | other (tag : ¬ Typed c.type.toInt) :
      DecodesTo p c (.other (ContractKind.fromWire c.type.toInt) c.anyBytes)

/-- Bytes that parse are accepted as what they parse to. -/
theorem orProtoDecode_eq_ok {α : Type} {x : Option α} {a : α} :
    orProtoDecode x = .ok a ↔ x = some a := by
  cases x with
  | none => exact iff_of_false (fun h => by cases h) (fun h => by cases h)
  | some b => exact ⟨fun h => congrArg some (Except.ok.inj h), fun h => by rw [Option.some.inj h]; rfl⟩

/-- An address has bytes, so it is never taken for a field that is not set. -/
theorem Address.toList_ne_nil (a : Address) : a.bytes.toList ≠ [] := by
  intro h
  have := a.bytes.toList_length
  rw [h] at this
  cases this

/-- The address that is read has the bytes of the field, and is none when there are none. -/
theorem decodeInnerAddress_eq_ok {b : List UInt8} {a : Option Address} :
    decodeInnerAddress b = .ok a ↔ (a.map fun a => a.bytes.toList).getD [] = b := by
  unfold decodeInnerAddress
  cases b with
  | nil =>
    cases a with
    | none => exact iff_of_true rfl rfl
    | some a => exact iff_of_false (fun h => by cases h) fun h => a.toList_ne_nil h
  | cons x b =>
    rw [if_neg (by simp), Decode.map_eq_ok]
    cases a with
    | none => exact iff_of_false (fun ⟨_, _, h⟩ => by cases h) fun h => by cases h
    | some a =>
      simp only [bytesToAddress_eq_ok, Option.some.injEq, exists_eq_right, Option.map_some,
        Option.getD_some]

/-- A payload with two addresses, the shape of three of the four typed contracts. -/
theorem parties_eq_ok {α : Type} {x : Option α} {first second : α → List UInt8} {s t : String}
    {build : α → Address → Address → DecodedContract} {d : DecodedContract} :
    (do
      let m ← orProtoDecode x
      let a ← bytesToAddress (first m) s
      let b ← bytesToAddress (second m) t
      return build m a b) = .ok d ↔
      ∃ m a b, x = some m ∧ a.bytes.toList = first m ∧ b.bytes.toList = second m ∧
        build m a b = d := by
  constructor
  · intro h
    obtain ⟨m, hm, h⟩ := Decode.bind_eq_ok.1 h
    obtain ⟨a, ha, h⟩ := Decode.bind_eq_ok.1 h
    obtain ⟨b, hb, h⟩ := Decode.bind_eq_ok.1 h
    exact ⟨m, a, b, orProtoDecode_eq_ok.1 hm, bytesToAddress_eq_ok.1 ha,
      bytesToAddress_eq_ok.1 hb, Except.ok.inj h⟩
  · rintro ⟨m, a, b, hm, ha, hb, rfl⟩
    exact Decode.bind_eq_ok.2 ⟨m, orProtoDecode_eq_ok.2 hm, Decode.bind_eq_ok.2
      ⟨a, bytesToAddress_eq_ok.2 ha, Decode.bind_eq_ok.2 ⟨b, bytesToAddress_eq_ok.2 hb, rfl⟩⟩⟩

/-- **The decoder of a contract is the relation.** It succeeds exactly when the kind and the
payload are related to a decoded contract, and then with that one. -/
theorem decodeContract_eq_ok {p : Protocol.PayloadDecoders} {c : Protocol.Transaction.Contract}
    {d : DecodedContract} : decodeContract p c = .ok d ↔ DecodesTo p c d := by
  constructor
  · intro h
    unfold decodeContract at h
    split at h
    · case h_1 hkind =>
      obtain ⟨m, owner, toAddr, hm, howner, hto, rfl⟩ := parties_eq_ok.1 h
      exact .transfer (ContractKind.fromWire_eq hkind) hm howner hto
    · case h_2 hkind =>
      obtain ⟨m, owner, toAddr, hm, howner, hto, rfl⟩ := parties_eq_ok.1 h
      exact .transferAsset (ContractKind.fromWire_eq hkind) hm howner hto
    · case h_3 hkind =>
      obtain ⟨m, owner, contractAddress, hm, howner, hcontract, rfl⟩ := parties_eq_ok.1 h
      exact .triggerSmartContract (ContractKind.fromWire_eq hkind) hm howner hcontract
    · case h_4 hkind =>
      obtain ⟨m, hm, h⟩ := Decode.bind_eq_ok.1 h
      obtain ⟨contractAddress, hcontract, h⟩ := Decode.bind_eq_ok.1 h
      obtain ⟨owner, howner, h⟩ := Decode.bind_eq_ok.1 h
      obtain rfl := Except.ok.inj h
      exact .createSmartContract (ContractKind.fromWire_eq hkind) (orProtoDecode_eq_ok.1 hm)
        (bytesToAddress_eq_ok.1 howner) (decodeInnerAddress_eq_ok.1 hcontract)
    · case h_5 h₁ h₂ h₃ h₄ =>
      obtain rfl := Except.ok.inj h
      refine .other ?_
      rintro (ht | ht | ht | ht)
      · exact h₁ (by rw [ht]; rfl)
      · exact h₂ (by rw [ht]; rfl)
      · exact h₃ (by rw [ht]; rfl)
      · exact h₄ (by rw [ht]; rfl)
  · intro h
    cases h with
    | transfer tag payload howner hto =>
      have hkind : ContractKind.fromWire c.type.toInt = .transfer := by rw [tag]; rfl
      simp only [decodeContract, hkind]
      exact parties_eq_ok.2 ⟨_, _, _, payload, howner, hto, rfl⟩
    | transferAsset tag payload howner hto =>
      have hkind : ContractKind.fromWire c.type.toInt = .transferAsset := by rw [tag]; rfl
      simp only [decodeContract, hkind]
      exact parties_eq_ok.2 ⟨_, _, _, payload, howner, hto, rfl⟩
    | triggerSmartContract tag payload howner hcontract =>
      have hkind : ContractKind.fromWire c.type.toInt = .triggerSmartContract := by rw [tag]; rfl
      simp only [decodeContract, hkind]
      exact parties_eq_ok.2 ⟨_, _, _, payload, howner, hcontract, rfl⟩
    | createSmartContract tag payload howner hcontract =>
      have hkind : ContractKind.fromWire c.type.toInt = .createSmartContract := by rw [tag]; rfl
      simp only [decodeContract, hkind]
      exact Decode.bind_eq_ok.2 ⟨_, orProtoDecode_eq_ok.2 payload, Decode.bind_eq_ok.2
        ⟨_, decodeInnerAddress_eq_ok.2 hcontract, Decode.bind_eq_ok.2
          ⟨_, bytesToAddress_eq_ok.2 howner, rfl⟩⟩⟩
    | other tag =>
      unfold decodeContract
      split
      · case h_1 hkind => exact (tag (.inl (ContractKind.fromWire_eq hkind))).elim
      · case h_2 hkind => exact (tag (.inr (.inl (ContractKind.fromWire_eq hkind)))).elim
      · case h_3 hkind => exact (tag (.inr (.inr (.inl (ContractKind.fromWire_eq hkind))))).elim
      · case h_4 hkind => exact (tag (.inr (.inr (.inr (ContractKind.fromWire_eq hkind))))).elim
      · rfl

/-! ### Which blocks are accepted -/

/-- Some address has the bytes `b`. -/
theorem Address.exists_toList {b : List UInt8} :
    (∃ a : Address, a.bytes.toList = b) ↔ b.length = 21 :=
  ⟨fun ⟨a, ha⟩ => ha ▸ a.bytes.toList_length, fun h => ⟨⟨⟨b, h⟩⟩, rfl⟩⟩

/-- The payload of a contract with a decoder of its own parses, and its addresses have
their length. -/
structure WellFormedContract (p : Protocol.PayloadDecoders) (c : Protocol.Transaction.Contract) :
    Prop where
  transfer : c.type.toInt = 1 → ∃ m, p.transfer c.anyBytes = some m ∧
    m.ownerAddress.length = 21 ∧ m.toAddress.length = 21
  transferAsset : c.type.toInt = 2 → ∃ m, p.transferAsset c.anyBytes = some m ∧
    m.ownerAddress.length = 21 ∧ m.toAddress.length = 21
  triggerSmartContract : c.type.toInt = 31 → ∃ m, p.triggerSmartContract c.anyBytes = some m ∧
    m.ownerAddress.length = 21 ∧ m.contractAddress.length = 21
  createSmartContract : c.type.toInt = 30 → ∃ m, p.createSmartContract c.anyBytes = some m ∧
    m.ownerAddress.length = 21 ∧
      (m.inner.contractAddress = [] ∨ m.inner.contractAddress.length = 21)

/-- A transaction has its raw data, and the contracts in it are well formed. -/
def WellFormedTransaction (p : Protocol.PayloadDecoders) (tx : Protocol.Transaction) : Prop :=
  ∃ raw, tx.rawData = some raw ∧ ∀ c ∈ raw.contract, WellFormedContract p c

/-- A header has its raw data, with hashes and an address of their length. -/
def WellFormedHeader (h : Protocol.BlockHeader) : Prop :=
  ∃ raw, h.rawData = some raw ∧ raw.parentHash.length = 32 ∧ raw.txTrieRoot.length = 32 ∧
    raw.witnessAddress.length = 21

/-- A block the decoder has to accept. -/
def WellFormed (p : Protocol.PayloadDecoders) (block : Protocol.Block) : Prop :=
  (∃ h, block.blockHeader = some h ∧ WellFormedHeader h) ∧
    ∀ tx ∈ block.transactions, WellFormedTransaction p tx

/-- It is read from an empty field and from one with the length of an address. -/
theorem exists_innerAddress {b : List UInt8} :
    (∃ a : Option Address, (a.map fun a => a.bytes.toList).getD [] = b) ↔
      b = [] ∨ b.length = 21 := by
  constructor
  · rintro ⟨a, rfl⟩
    cases a with
    | none => exact .inl rfl
    | some a => exact .inr a.bytes.toList_length
  · rintro (rfl | hb)
    · exact ⟨none, rfl⟩
    · obtain ⟨a, ha⟩ := Address.exists_toList.2 hb
      exact ⟨some a, ha⟩

/-- A contract that is decoded was well formed. -/
theorem WellFormedContract.of_decodesTo {p : Protocol.PayloadDecoders}
    {c : Protocol.Transaction.Contract} {d : DecodedContract} (h : DecodesTo p c d) :
    WellFormedContract p c := by
  constructor
  · intro ht
    cases h with
    | transfer tag payload howner hto =>
      exact ⟨_, payload, Address.exists_toList.1 ⟨_, howner⟩, Address.exists_toList.1 ⟨_, hto⟩⟩
    | transferAsset tag | triggerSmartContract tag | createSmartContract tag => omega
    | other tag => exact (tag (.inl ht)).elim
  · intro ht
    cases h with
    | transferAsset tag payload howner hto =>
      exact ⟨_, payload, Address.exists_toList.1 ⟨_, howner⟩, Address.exists_toList.1 ⟨_, hto⟩⟩
    | transfer tag | triggerSmartContract tag | createSmartContract tag => omega
    | other tag => exact (tag (.inr (.inl ht))).elim
  · intro ht
    cases h with
    | triggerSmartContract tag payload howner hcontract =>
      exact ⟨_, payload, Address.exists_toList.1 ⟨_, howner⟩,
        Address.exists_toList.1 ⟨_, hcontract⟩⟩
    | transfer tag | transferAsset tag | createSmartContract tag => omega
    | other tag => exact (tag (.inr (.inr (.inl ht)))).elim
  · intro ht
    cases h with
    | createSmartContract tag payload howner hcontract =>
      exact ⟨_, payload, Address.exists_toList.1 ⟨_, howner⟩, exists_innerAddress.1 ⟨_, hcontract⟩⟩
    | transfer tag | transferAsset tag | triggerSmartContract tag => omega
    | other tag => exact (tag (.inr (.inr (.inr ht)))).elim

/-- A contract is accepted when it is well formed. -/
theorem exists_decodeContract {p : Protocol.PayloadDecoders} {c : Protocol.Transaction.Contract} :
    (∃ d, decodeContract p c = .ok d) ↔ WellFormedContract p c := by
  simp only [decodeContract_eq_ok]
  refine ⟨fun ⟨d, h⟩ => .of_decodesTo h, fun h => ?_⟩
  by_cases ht : Typed c.type.toInt
  · rcases ht with tag | tag | tag | tag
    · obtain ⟨m, payload, howner, hto⟩ := h.transfer tag
      obtain ⟨owner, howner⟩ := Address.exists_toList.2 howner
      obtain ⟨toAddr, hto⟩ := Address.exists_toList.2 hto
      exact ⟨_, .transfer tag payload howner hto⟩
    · obtain ⟨m, payload, howner, hto⟩ := h.transferAsset tag
      obtain ⟨owner, howner⟩ := Address.exists_toList.2 howner
      obtain ⟨toAddr, hto⟩ := Address.exists_toList.2 hto
      exact ⟨_, .transferAsset tag payload howner hto⟩
    · obtain ⟨m, payload, howner, hcontract⟩ := h.triggerSmartContract tag
      obtain ⟨owner, howner⟩ := Address.exists_toList.2 howner
      obtain ⟨contractAddress, hcontract⟩ := Address.exists_toList.2 hcontract
      exact ⟨_, .triggerSmartContract tag payload howner hcontract⟩
    · obtain ⟨m, payload, howner, hcontract⟩ := h.createSmartContract tag
      obtain ⟨owner, howner⟩ := Address.exists_toList.2 howner
      obtain ⟨contractAddress, hcontract⟩ := exists_innerAddress.2 hcontract
      exact ⟨_, .createSmartContract tag payload howner hcontract⟩
  · exact ⟨_, .other ht⟩

section decoders

variable {p : Protocol.PayloadDecoders} {sha256 : List UInt8 → List.Vector UInt8 32}

/-- What is kept of a transaction: the hash of its raw data, the contracts in order, the
signatures. -/
structure KeptTransaction (p : Protocol.PayloadDecoders)
    (sha256 : List UInt8 → List.Vector UInt8 32) (tx : Protocol.Transaction)
    (raw : Protocol.Transaction.Raw) (d : DecodedTransaction) : Prop where
  rawData : tx.rawData = some raw
  hash : d.hash.bytes = sha256 (Protocol.Transaction.Raw.message.encode raw)
  contracts : List.Forall₂ (DecodesTo p) raw.contract d.contracts
  signatures : d.signatures = tx.signature

/-- A decoded transaction keeps what its message has, under the raw data the message
carries. -/
theorem KeptTransaction.of_decode {tx : Protocol.Transaction} {d : DecodedTransaction}
    (h : decodeTransaction p sha256 tx = .ok d) : ∃ raw, KeptTransaction p sha256 tx raw d := by
  unfold decodeTransaction at h
  cases hraw : tx.rawData with
  | none =>
    rw [hraw] at h
    cases h
  | some raw =>
    rw [hraw] at h
    obtain ⟨contracts, hcontracts, h⟩ := Decode.bind_eq_ok.1 h
    obtain rfl := Except.ok.inj h
    simp only [Decode.mapM_eq_ok, decodeContract_eq_ok] at hcontracts
    exact ⟨raw, hraw, rfl, hcontracts, rfl⟩

/-- A transaction is accepted when it is well formed. -/
theorem exists_decodeTransaction {tx : Protocol.Transaction} :
    (∃ d, decodeTransaction p sha256 tx = .ok d) ↔ WellFormedTransaction p tx := by
  unfold decodeTransaction WellFormedTransaction
  cases hraw : tx.rawData with
  | none => exact iff_of_false (fun ⟨_, h⟩ => by cases h) fun ⟨_, h, _⟩ => by cases h
  | some raw =>
    simp only [Option.some.injEq, exists_eq_left', ← exists_decodeContract]
    rw [← Decode.exists_mapM_eq_ok]
    constructor
    · rintro ⟨d, h⟩
      obtain ⟨contracts, hcontracts, -⟩ := Decode.bind_eq_ok.1 h
      exact ⟨contracts, hcontracts⟩
    · rintro ⟨contracts, hcontracts⟩
      exact ⟨_, Decode.bind_eq_ok.2 ⟨contracts, hcontracts, rfl⟩⟩

/-- What is kept of a header. -/
structure KeptHeader (sha256 : List UInt8 → List.Vector UInt8 32) (h : Protocol.BlockHeader)
    (raw : Protocol.BlockHeader.Raw) (d : DecodedHeader) : Prop where
  rawData : h.rawData = some raw
  height : d.height = raw.number.toInt.toNat
  blockId : d.blockId = blockIdOf raw.number (sha256 (Protocol.BlockHeader.Raw.message.encode raw))
  rawDataHash : d.rawDataHash = sha256 (Protocol.BlockHeader.Raw.message.encode raw)

/-- A decoded header keeps what its message has. -/
theorem KeptHeader.of_decode {h : Protocol.BlockHeader} {d : DecodedHeader}
    (hd : decodeHeader sha256 h = .ok d) : ∃ raw, KeptHeader sha256 h raw d := by
  unfold decodeHeader at hd
  cases hraw : h.rawData with
  | none =>
    rw [hraw] at hd
    cases hd
  | some raw =>
    rw [hraw] at hd
    obtain ⟨parentId, -, hd⟩ := Decode.bind_eq_ok.1 hd
    obtain ⟨txTrieRoot, -, hd⟩ := Decode.bind_eq_ok.1 hd
    obtain ⟨witness, -, hd⟩ := Decode.bind_eq_ok.1 hd
    obtain rfl := Except.ok.inj hd
    exact ⟨raw, hraw, rfl, rfl, rfl⟩

/-- A header is accepted when it is well formed. -/
theorem exists_decodeHeader {h : Protocol.BlockHeader} :
    (∃ d, decodeHeader sha256 h = .ok d) ↔ WellFormedHeader h := by
  unfold decodeHeader WellFormedHeader
  cases hraw : h.rawData with
  | none => exact iff_of_false (fun ⟨_, h⟩ => by cases h) fun ⟨_, h, _⟩ => by cases h
  | some raw =>
    simp only [Option.some.injEq, exists_eq_left']
    constructor
    · rintro ⟨d, hd⟩
      obtain ⟨parentId, hparent, hd⟩ := Decode.bind_eq_ok.1 hd
      obtain ⟨txTrieRoot, hroot, hd⟩ := Decode.bind_eq_ok.1 hd
      obtain ⟨witness, hwitness, -⟩ := Decode.bind_eq_ok.1 hd
      rw [← bytesToHash32_eq_ok.1 hparent, ← bytesToHash32_eq_ok.1 hroot,
        ← bytesToAddress_eq_ok.1 hwitness]
      exact ⟨parentId.toList_length, txTrieRoot.toList_length, witness.bytes.toList_length⟩
    · rintro ⟨hparent, hroot, hwitness⟩
      obtain ⟨witness, hwitness⟩ := Address.exists_toList.2 hwitness
      exact ⟨_, Decode.bind_eq_ok.2 ⟨⟨_, hparent⟩, bytesToHash32_eq_ok.2 rfl, Decode.bind_eq_ok.2
        ⟨⟨_, hroot⟩, bytesToHash32_eq_ok.2 rfl, Decode.bind_eq_ok.2
          ⟨witness, bytesToAddress_eq_ok.2 hwitness, rfl⟩⟩⟩⟩

/-- **A block is decoded** when it has a header that is decoded and each of its transactions
is, in order. -/
theorem decodeBlockMessage_eq_ok {block : Protocol.Block} {d : DecodedBlock} :
    decodeBlockMessage p sha256 block = .ok d ↔
      (∃ h, block.blockHeader = some h ∧ decodeHeader sha256 h = .ok d.header) ∧
        List.Forall₂ (fun tx dtx => decodeTransaction p sha256 tx = .ok dtx) block.transactions
          d.transactions := by
  unfold decodeBlockMessage
  cases hh : block.blockHeader with
  | none => exact iff_of_false (fun h => by cases h) fun ⟨⟨_, h, _⟩, _⟩ => by cases h
  | some h =>
    simp only [Option.some.injEq, exists_eq_left', ← Decode.mapM_eq_ok]
    constructor
    · intro hd
      obtain ⟨header, hheader, hd⟩ := Decode.bind_eq_ok.1 hd
      obtain ⟨transactions, htxs, hd⟩ := Decode.bind_eq_ok.1 hd
      obtain rfl := Except.ok.inj hd
      exact ⟨hheader, htxs⟩
    · rintro ⟨hheader, htxs⟩
      exact Decode.bind_eq_ok.2 ⟨_, hheader, Decode.bind_eq_ok.2 ⟨_, htxs, rfl⟩⟩

/-- **A block is accepted exactly when it is well formed, and nothing of it is dropped:**
the transactions, their contracts and signatures are those of the message, in order. Nothing
is accepted in part, since the first transaction that fails makes the whole block fail. -/
theorem decodeBlockMessage_accepts (p : Protocol.PayloadDecoders)
    (sha256 : List UInt8 → List.Vector UInt8 32) (block : Protocol.Block) :
    ((∃ d, decodeBlockMessage p sha256 block = .ok d) ↔ WellFormed p block) ∧
      ∀ d, decodeBlockMessage p sha256 block = .ok d →
        List.Forall₂ (fun tx dtx => ∃ raw, KeptTransaction p sha256 tx raw dtx) block.transactions
          d.transactions := by
  constructor
  · unfold WellFormed
    simp only [← @exists_decodeHeader sha256, ← @exists_decodeTransaction p sha256]
    rw [← Decode.exists_mapM_eq_ok]
    constructor
    · rintro ⟨d, h⟩
      obtain ⟨⟨hdr, hh, hheader⟩, htxs⟩ := decodeBlockMessage_eq_ok.1 h
      exact ⟨⟨hdr, hh, _, hheader⟩, _, Decode.mapM_eq_ok.2 htxs⟩
    · rintro ⟨⟨hdr, hh, header, hheader⟩, transactions, htxs⟩
      exact ⟨⟨header, transactions⟩,
        decodeBlockMessage_eq_ok.2 ⟨⟨hdr, hh, hheader⟩, Decode.mapM_eq_ok.1 htxs⟩⟩
  · intro d h
    exact (decodeBlockMessage_eq_ok.1 h).2.imp fun _ _ htx => KeptTransaction.of_decode htx

end decoders

end Lightcycle
