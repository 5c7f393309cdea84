/-
# What a payload determines

`encode_block` of `crates/lightcycle-firehose/src/encode.rs` drops what the block schema has
no field for.  A consumer that reads two equal payloads cannot tell their blocks apart, and
`encodeBlock_eq_iff` says exactly which blocks these are: the same height, ids and header
fields, the same transactions in order, and for each transaction the same receipt.

What differs unseen is the fork id, the height and ids the header itself was decoded with,
the receipts of no transaction and all but the last of one hash, the hash, height and time
within a receipt, a solidified head of 0 for none, and which of two names a contract kind
has for one wire tag.
-/

import Lightcycle.Firehose.EncodeSpec

namespace Lightcycle
namespace Firehose

open Relayer

/-- Two lists with one image are alike element by element. -/
theorem map_eq_map_iff_forall₂ {α β γ : Type} {f : α → γ} {g : β → γ} {l : List α} {l' : List β} :
    l.map f = l'.map g ↔ List.Forall₂ (fun a b => f a = g b) l l' := by
  rw [← List.forall₂_eq_eq_eq, List.forall₂_map_left_iff, List.forall₂_map_right_iff]

/-- An address is the bytes that are written for it. -/
theorem toList_address_inj {a b : Address} : a.bytes.toList = b.bytes.toList ↔ a = b := by
  refine ⟨fun h => ?_, fun h => by rw [h]⟩
  cases a
  cases b
  exact congrArg Address.mk (List.Vector.toList_injective h)

/-- So is a block id. -/
theorem toList_blockId_inj {a b : BlockId} : a.bytes.toList = b.bytes.toList ↔ a = b := by
  refine ⟨fun h => ?_, fun h => by rw [h]⟩
  cases a
  cases b
  exact congrArg BlockId.mk (List.Vector.toList_injective h)

/-- An address that may be missing is written as no bytes, which are those of no address. -/
theorem toList_address?_inj {a b : Option Address} :
    (a.map fun a => a.bytes.toList).getD [] = (b.map fun a => a.bytes.toList).getD [] ↔ a = b := by
  have hne : ∀ c : Address, c.bytes.toList ≠ [] := by
    intro c h
    have hlen := congrArg List.length h
    rw [List.Vector.toList_length] at hlen
    cases hlen
  cases a with
  | none =>
    cases b with
    | none => simp
    | some b => simp [(hne b).symm]
  | some a =>
    cases b with
    | none => simp [hne a]
    | some b => simp [toList_address_inj]

/-- The timestamp of a message holds the milliseconds, also negative ones. -/
theorem timestampFromMs_inj {ms ms' : ℤ} : timestampFromMs ms = timestampFromMs ms' ↔ ms = ms' := by
  refine ⟨fun h => ?_, fun h => by rw [h]⟩
  obtain ⟨hseconds, hnanos⟩ := Pb.Timestamp.mk.inj h
  rw [← Int.tmod_add_mul_tdiv ms 1000, ← Int.tmod_add_mul_tdiv ms' 1000, hseconds]
  omega

/-! ### Contracts -/

/-- The contracts are written alike: they are the same, or of a kind without a payload of
its own, with one payload and one wire tag. -/
inductive SameContract : DecodedContract → DecodedContract → Prop
  | refl (c : DecodedContract) : SameContract c c
  | other {kind kind' : ContractKind} (raw : List UInt8) (tag : kind.toWireTag = kind'.toWireTag) :
    SameContract (.other kind raw) (.other kind' raw)

/-- **A contract is determined**, but for the name of its kind.  Of two kinds with a payload of
their own the payloads differ already. -/
theorem encodeContract_eq_iff {c c' : DecodedContract} :
    encodeContract c = encodeContract c' ↔ SameContract c c' := by
  constructor
  · intro h
    cases c <;> cases c' <;> simp only [encodeContract, Pb.Contract.mk.injEq, Option.some.injEq,
      Pb.Payload.transfer.injEq, Pb.Payload.transferAsset.injEq,
      Pb.Payload.triggerSmartContract.injEq, Pb.Payload.createSmartContract.injEq,
      Pb.Payload.otherPayload.injEq, reduceCtorEq, and_false, toList_address_inj,
      toList_address?_inj, true_and] at h
    case transfer.transfer =>
      obtain ⟨rfl, rfl, rfl⟩ := h
      exact .refl _
    case transferAsset.transferAsset =>
      obtain ⟨rfl, rfl, rfl, rfl⟩ := h
      exact .refl _
    case triggerSmartContract.triggerSmartContract =>
      obtain ⟨rfl, rfl, rfl, rfl, rfl, rfl⟩ := h
      exact .refl _
    case createSmartContract.createSmartContract =>
      obtain ⟨rfl, rfl, rfl, rfl, rfl, rfl, rfl, rfl⟩ := h
      exact .refl _
    case other.other =>
      obtain ⟨tag, rfl⟩ := h
      exact .other _ tag
  · rintro (_ | ⟨raw, tag⟩)
    · rfl
    · simp only [encodeContract, tag]

/-! ### Receipts -/

/-- The receipt that is taken for a transaction: the last one with its hash. -/
def receiptOf (txInfos : List DecodedTxInfo) (t : TxHash) : Option DecodedTxInfo :=
  (txInfos.filter fun x => decide (x.txHash = t)).getLast?

/-- Of the receipts collected into the map, the last one of a hash stays. -/
theorem lookup_infoByHash_eq (l : List DecodedTxInfo) (t : TxHash) :
    (infoByHash l).lookup t = receiptOf l t := by
  induction l using List.reverseRecOn with
  | nil => rfl
  | append_singleton l x ih =>
    unfold infoByHash receiptOf at ih ⊢
    rw [List.foldl_concat, List.filter_append]
    by_cases h : x.txHash = t
    · have hsingle : [x].filter (fun x => decide (x.txHash = t)) = [x] := by simp [h]
      rw [hsingle, List.getLast?_concat, ← h, Finmap.lookup_insert]
    · have hsingle : [x].filter (fun x => decide (x.txHash = t)) = [] := by simp [h]
      rw [hsingle, List.append_nil, Finmap.lookup_insert_of_ne _ (Ne.symm h), ih]

/-- The receipts say the same of their transactions. -/
structure SameReceipt (x y : DecodedTxInfo) : Prop where
  success : x.success = y.success
  feeSun : x.feeSun = y.feeSun
  contractAddress : x.contractAddress = y.contractAddress
  resource : x.resource = y.resource
  logs : x.logs = y.logs
  internalTransactions : x.internalTransactions = y.internalTransactions

/-- Words are written as their bytes, and lists of words word by word. -/
theorem map_toList_inj {n : ℕ} {l l' : List (List.Vector UInt8 n)} :
    l.map (·.toList) = l'.map (·.toList) ↔ l = l' :=
  (List.map_injective_iff.2 List.Vector.toList_injective).eq_iff

/-- A log is determined by how it is written. -/
theorem log_injective : Function.Injective fun l : Log =>
    (⟨l.address.bytes.toList, l.topics.map (·.toList), l.data⟩ : Pb.Log) := by
  rintro ⟨address, topics, data⟩ ⟨address', topics', data'⟩ h
  obtain ⟨haddress, htopics, hdata⟩ := Pb.Log.mk.inj h
  have haddress : address = address' := toList_address_inj.1 haddress
  have htopics : topics = topics' := map_toList_inj.1 htopics
  have hdata : data = data' := hdata
  rw [haddress, htopics, hdata]

/-- So is a value transfer of an internal transaction. -/
theorem callValue_injective : Function.Injective fun c : CallValueInfo =>
    (⟨c.callValue, c.tokenId⟩ : Pb.CallValue) := by
  rintro ⟨value, token⟩ ⟨value', token'⟩ h
  obtain ⟨hvalue, htoken⟩ := Pb.CallValue.mk.inj h
  have hvalue : value = value' := hvalue
  have htoken : token = token' := htoken
  rw [hvalue, htoken]

/-- So is an internal transaction, with its value transfers in order. -/
theorem internalTx_injective : Function.Injective fun i : InternalTx =>
    ({ hash := i.hash.toList, caller := i.caller.bytes.toList, transferTo := i.transferTo.bytes.toList
       callValues := i.callValues.map fun c => ⟨c.callValue, c.tokenId⟩
       rejected := i.rejected, note := i.note } : Pb.InternalTx) := by
  rintro ⟨hash, caller, transferTo, values, rejected, note⟩
    ⟨hash', caller', transferTo', values', rejected', note'⟩ h
  obtain ⟨hhash, hcaller, hto, hvalues, hrejected, hnote⟩ := Pb.InternalTx.mk.inj h
  have hhash : hash = hash' := List.Vector.toList_injective hhash
  have hcaller : caller = caller' := toList_address_inj.1 hcaller
  have hto : transferTo = transferTo' := toList_address_inj.1 hto
  have hvalues : values = values' := List.map_injective_iff.2 callValue_injective hvalues
  have hrejected : rejected = rejected' := hrejected
  have hnote : note = note' := hnote
  rw [hhash, hcaller, hto, hvalues, hrejected, hnote]

/-- **A receipt is determined**, but for its hash, which its transaction has, and the height
and time of the block. -/
theorem encodeTxInfo_eq_iff {x y : DecodedTxInfo} :
    encodeTxInfo x = encodeTxInfo y ↔ SameReceipt x y := by
  constructor
  · intro h
    obtain ⟨hsuccess, hfee, hcontract, hresource, hlogs, hinternal⟩ := Pb.TransactionInfo.mk.inj h
    exact ⟨hsuccess, hfee, toList_address?_inj.1 hcontract, Option.some.inj hresource,
      List.map_injective_iff.2 log_injective hlogs,
      List.map_injective_iff.2 internalTx_injective hinternal⟩
  · intro h
    simp only [encodeTxInfo, h.success, h.feeSun, h.contractAddress, h.resource, h.logs,
      h.internalTransactions]

/-- There is a receipt on neither side, or one on each that says the same. -/
theorem map_encodeTxInfo_eq_iff {x y : Option DecodedTxInfo} :
    x.map encodeTxInfo = y.map encodeTxInfo ↔ Option.Rel SameReceipt x y := by
  cases x with
  | none =>
    cases y with
    | none => exact iff_of_true rfl .none
    | some y => exact iff_of_false (fun h => by cases h) fun h => by cases h
  | some x =>
    cases y with
    | none => exact iff_of_false (fun h => by cases h) fun h => by cases h
    | some y =>
      rw [Option.map_some, Option.map_some, Option.some.injEq, encodeTxInfo_eq_iff]
      exact ⟨.some, fun h => by cases h; assumption⟩

/-! ### Blocks -/

/-- The transactions are written alike, each with what its receipts say of it. -/
structure SameTransaction (l l' : List DecodedTxInfo) (tx tx' : DecodedTransaction) : Prop where
  hash : tx.hash = tx'.hash
  timestampMs : tx.timestampMs = tx'.timestampMs
  expirationMs : tx.expirationMs = tx'.expirationMs
  feeLimitSun : tx.feeLimitSun = tx'.feeLimitSun
  contracts : List.Forall₂ SameContract tx.contracts tx'.contracts
  signatures : tx.signatures = tx'.signatures
  receipt : Option.Rel SameReceipt (receiptOf l tx.hash) (receiptOf l' tx'.hash)

/-- The blocks and what is claimed of their finality are written alike. -/
structure SamePayload (b b' : BufferedBlock) (f f' : BlockFinality) : Prop where
  height : b.height = b'.height
  blockId : b.blockId = b'.blockId
  parentId : b.parentId = b'.parentId
  timestampMs : b.decoded.header.timestampMs = b'.decoded.header.timestampMs
  version : b.decoded.header.version = b'.decoded.header.version
  rawDataHash : b.decoded.header.rawDataHash = b'.decoded.header.rawDataHash
  txTrieRoot : b.decoded.header.txTrieRoot = b'.decoded.header.txTrieRoot
  witness : b.decoded.header.witness = b'.decoded.header.witness
  witnessSignature : b.decoded.header.witnessSignature = b'.decoded.header.witnessSignature
  transactions : List.Forall₂ (SameTransaction b.txInfos b'.txInfos) b.decoded.transactions
    b'.decoded.transactions
  tier : f.tier = f'.tier
  solidifiedHead : f.solidifiedHead.getD 0 = f'.solidifiedHead.getD 0

/-- A transaction is determined, with the receipt that is taken for it. -/
theorem encodeTransaction_eq_iff {l l' : List DecodedTxInfo} {tx tx' : DecodedTransaction} :
    encodeTransaction tx ((infoByHash l).lookup tx.hash) =
        encodeTransaction tx' ((infoByHash l').lookup tx'.hash) ↔
      SameTransaction l l' tx tx' := by
  have hhash : tx.hash.bytes.toList = tx'.hash.bytes.toList ↔ tx.hash = tx'.hash := by
    refine ⟨fun h => ?_, fun h => by rw [h]⟩
    cases htx : tx.hash
    cases htx' : tx'.hash
    rw [htx, htx'] at h
    exact congrArg TxHash.mk (List.Vector.toList_injective h)
  rw [encodeTransaction, encodeTransaction, Pb.Transaction.mk.injEq, hhash, map_eq_map_iff_forall₂,
    lookup_infoByHash_eq, lookup_infoByHash_eq, map_encodeTxInfo_eq_iff]
  simp only [encodeContract_eq_iff]
  exact ⟨fun ⟨h₁, h₂, h₃, h₄, h₅, h₆, h₇⟩ => ⟨h₁, h₂, h₃, h₄, h₅, h₆, h₇⟩,
    fun h => ⟨h.hash, h.timestampMs, h.expirationMs, h.feeLimitSun, h.contracts, h.signatures,
      h.receipt⟩⟩

/-- Two tiers are written as one number only if they are one. -/
theorem encodeFinality_eq_iff {f f' : BlockFinality} : encodeFinality f = encodeFinality f' ↔
    f.tier = f'.tier ∧ f.solidifiedHead.getD 0 = f'.solidifiedHead.getD 0 := by
  have htier : ∀ t t' : FinalityTier,
      (encodeFinalityTier t).toI32 = (encodeFinalityTier t').toI32 ↔ t = t' := by
    intro t t'
    cases t <;> cases t' <;> decide
  rw [encodeFinality, encodeFinality, Pb.Finality.mk.injEq, htier]

/-- **What a payload determines.**  For any two buffered blocks, with any transactions and any
receipts, and any two envelopes: `encode_block` makes one message of both exactly when they are
the same in all that the schema has a field for. -/
theorem encodeBlock_eq_iff (b b' : BufferedBlock) (f f' : BlockFinality) :
    encodeBlock b f = encodeBlock b' f' ↔ SamePayload b b' f f' := by
  rw [encodeBlock, encodeBlock, Pb.Block.mk.injEq, toList_blockId_inj, toList_blockId_inj,
    Option.some.injEq, timestampFromMs_inj, Option.some.injEq, Pb.Header.mk.injEq,
    toList_address_inj, map_eq_map_iff_forall₂, Option.some.injEq, encodeFinality_eq_iff]
  simp only [encodeTransaction_eq_iff, List.Vector.toList_injective.eq_iff]
  constructor
  · rintro ⟨hheight, hid, hparent, htime, ⟨hversion, hraw, hroot, hwitness, hsig⟩, htxs, htier, hhead⟩
    exact ⟨hheight, hid, hparent, htime, hversion, hraw, hroot, hwitness, hsig, htxs, htier, hhead⟩
  · intro h
    exact ⟨h.height, h.blockId, h.parentId, h.timestampMs, ⟨h.version, h.rawDataHash, h.txTrieRoot,
      h.witness, h.witnessSignature⟩, h.transactions, h.tier, h.solidifiedHead⟩

end Firehose
end Lightcycle
