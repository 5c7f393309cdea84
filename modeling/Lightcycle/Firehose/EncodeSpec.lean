/-
# What the encoding keeps

`encode_contract` and `encode_block` of `crates/lightcycle-firehose/src/encode.rs` on what
the codec decoded.

A contract is carried over (`encodeContract_carries`): the type it had on the wire can be
read off the encoded one, and so can the fields of its payload.  `Carries` says so kind by
kind, with the fields of the java-tron message on one side and those of the block schema
on the other.

The receipts of a block arrive in any order, and are joined to its transactions by hash.
If no two of them have one hash the order is of no consequence, and neither are receipts
without a transaction (`encodeBlock_joins`).
-/

import Lightcycle.Codec.DecodeBlock
import Lightcycle.Firehose.Receipts

namespace Lightcycle
namespace Firehose

open Relayer

/-! ### Contracts -/

/-- The type of a contract on the wire, read off the encoded contract. -/
def Pb.Contract.wireTag (c : Pb.Contract) : ℤ :=
  if c.kind = Pb.ContractKind.transfer.toI32 then 1
  else if c.kind = Pb.ContractKind.transferAsset.toI32 then 2
  else if c.kind = Pb.ContractKind.triggerSmartContract.toI32 then 31
  else if c.kind = Pb.ContractKind.createSmartContract.toI32 then 30
  else c.unknownKind

/-- The contract of the block schema that carries the wire contract `c`. -/
inductive Carries (p : Protocol.PayloadDecoders) (c : Protocol.Transaction.Contract) :
    Pb.Contract → Prop
  | transfer {m : Protocol.TransferContract} (tag : c.type.toInt = 1)
      (payload : p.transfer c.anyBytes = some m) :
      Carries p c
        { kind := Pb.ContractKind.transfer.toI32, unknownKind := 0
          payload := some (.transfer m.ownerAddress m.toAddress m.amount) }
  | transferAsset {m : Protocol.TransferAssetContract} (tag : c.type.toInt = 2)
      (payload : p.transferAsset c.anyBytes = some m) :
      Carries p c
        { kind := Pb.ContractKind.transferAsset.toI32, unknownKind := 0
          payload := some (.transferAsset m.ownerAddress m.toAddress m.assetName m.amount) }
  | triggerSmartContract {m : Protocol.TriggerSmartContract} (tag : c.type.toInt = 31)
      (payload : p.triggerSmartContract c.anyBytes = some m) :
      Carries p c
        { kind := Pb.ContractKind.triggerSmartContract.toI32, unknownKind := 0
          payload := some (.triggerSmartContract m.ownerAddress m.contractAddress m.data m.callValue
            m.callTokenValue m.tokenId) }
  | createSmartContract {m : Protocol.CreateSmartContract} (tag : c.type.toInt = 30)
      (payload : p.createSmartContract c.anyBytes = some m) :
      Carries p c
        { kind := Pb.ContractKind.createSmartContract.toI32, unknownKind := 0
          payload := some (.createSmartContract m.ownerAddress m.inner.contractAddress m.inner.name
            m.inner.bytecode m.inner.consumeUserResourcePercent m.inner.originEnergyLimit
            m.callTokenValue m.tokenId) }
  | other (tag : ¬ Typed c.type.toInt) :
      Carries p c
        { kind := Pb.ContractKind.other.toI32, unknownKind := c.type.toInt
          payload := some (.otherPayload c.anyBytes) }

/-- Encoding what a contract decodes to carries the contract over. -/
theorem carries_of_decodesTo {p : Protocol.PayloadDecoders} {c : Protocol.Transaction.Contract}
    {d : DecodedContract} (h : DecodesTo p c d) : Carries p c (encodeContract d) := by
  cases h with
  | transfer tag payload howner hto =>
    simp only [encodeContract, howner, hto]
    exact .transfer tag payload
  | transferAsset tag payload howner hto =>
    simp only [encodeContract, howner, hto]
    exact .transferAsset tag payload
  | triggerSmartContract tag payload howner hcontract =>
    simp only [encodeContract, howner, hcontract]
    exact .triggerSmartContract tag payload
  | createSmartContract tag payload howner hcontract =>
    simp only [encodeContract, howner, hcontract]
    exact .createSmartContract tag payload
  | other tag =>
    simp only [encodeContract, ContractKind.toWireTag_fromWire]
    exact .other tag

/-- The wire type of a carried contract can be read off the encoded one: the four kinds
with a payload of their own have their tag, and every other keeps it in `unknown_kind`. -/
theorem Carries.wireTag {p : Protocol.PayloadDecoders} {c : Protocol.Transaction.Contract}
    {e : Pb.Contract} (h : Carries p c e) : e.wireTag = c.type.toInt := by
  cases h with
  | transfer tag | transferAsset tag | triggerSmartContract tag | createSmartContract tag =>
    rw [tag]
    rfl
  | other tag => rfl

/-- **A contract the decoder accepts is carried over whole**, its type included, and no tag
is lost between the two enumerations: the four kinds the codec knows keep every field of
their payload, and any other contract keeps its tag beside the bytes of its message. -/
theorem encodeContract_carries {p : Protocol.PayloadDecoders} {c : Protocol.Transaction.Contract}
    {d : DecodedContract} (h : decodeContract p c = .ok d) :
    Carries p c (encodeContract d) ∧ (encodeContract d).wireTag = c.type.toInt ∧
      ∀ tag : ℤ, (ContractKind.fromWire tag).toWireTag = tag :=
  have hc := carries_of_decodesTo (decodeContract_eq_ok.1 h)
  ⟨hc, hc.wireTag, ContractKind.toWireTag_fromWire⟩

/-- The protobuf encoding of a transfer of 5. -/
def transferBytes : List UInt8 :=
  [0x0a, 21] ++ List.replicate 21 0x41 ++ [0x12, 21] ++ List.replicate 21 0x42 ++ [0x18, 5]

/-- A decoder that knows this transfer. -/
def transferOnly : Protocol.PayloadDecoders where
  transfer bytes :=
    if bytes = transferBytes then some ⟨List.replicate 21 0x41, List.replicate 21 0x42, 5⟩ else none
  transferAsset _ := none
  triggerSmartContract _ := none
  createSmartContract _ := none

/-- The transfer of 5. -/
theorem encodeContract_carries_transfer :
    ∃ d, decodeContract transferOnly ⟨1, some ⟨"", transferBytes⟩, [], [], 0⟩ = .ok d ∧
      (encodeContract d).wireTag = 1 ∧ (encodeContract d).payload =
        some (.transfer (List.replicate 21 0x41) (List.replicate 21 0x42) 5) := by
  have h : decodeContract transferOnly ⟨1, some ⟨"", transferBytes⟩, [], [], 0⟩ = .ok _ := rfl
  exact ⟨_, h, (encodeContract_carries h).2.1, rfl⟩

/-! ### Receipts -/

/-- No two receipts are of one transaction. -/
def DistinctHashes (txInfos : List DecodedTxInfo) : Prop := (txInfos.map (·.txHash)).Nodup

instance (txInfos : List DecodedTxInfo) : Decidable (DistinctHashes txInfos) :=
  inferInstanceAs (Decidable (List.Nodup _))

/-- Then the map holds every receipt. -/
theorem lookup_infoByHash {l : List DecodedTxInfo} (hl : DistinctHashes l) {t : TxHash}
    {x : DecodedTxInfo} : (infoByHash l).lookup t = some x ↔ x ∈ l ∧ x.txHash = t := by
  refine ⟨mem_of_lookup_infoByHash, ?_⟩
  rintro ⟨hx, rfl⟩
  obtain ⟨y, hy⟩ := exists_lookup_infoByHash hx
  obtain ⟨hymem, hyhash⟩ := mem_of_lookup_infoByHash hy
  rw [hy, List.inj_on_of_nodup_map hl hymem hx hyhash]

/-- What the receipts `l` say of the transaction `t`. -/
def Joined (l : List DecodedTxInfo) (t : TxHash) : Option DecodedTxInfo → Prop
  | some x => x ∈ l ∧ x.txHash = t
  | none => ∀ x ∈ l, x.txHash ≠ t

/-- What the map holds at a hash is what the receipts say of it; with two receipts of one
hash it is one of them. -/
theorem joined_lookup (l : List DecodedTxInfo) (t : TxHash) :
    Joined l t ((infoByHash l).lookup t) := by
  cases h : (infoByHash l).lookup t with
  | some x => exact mem_of_lookup_infoByHash h
  | none =>
    rintro x hx rfl
    obtain ⟨y, hy⟩ := exists_lookup_infoByHash hx
    rw [h] at hy
    cases hy

/-- `i` says of a transaction what the receipt `x` does: the outcome, the fee, the cost
and the contract, if one was called, and the lists element by element, in order. -/
structure InfoKept (x : DecodedTxInfo) (i : Pb.TransactionInfo) : Prop where
  success : i.success = x.success
  feeSun : i.feeSun = x.feeSun
  contractAddress : ∀ a, x.contractAddress = some a → i.contractAddress = a.bytes.toList
  noContract : x.contractAddress = none → i.contractAddress = []
  resource : i.resource = some x.resource
  logs : List.Forall₂ (fun l l' => l'.address = l.address.bytes.toList ∧ l'.data = l.data ∧
    List.Forall₂ (fun t t' => t' = t.toList) l.topics l'.topics) x.logs i.logs
  internalTransactions : List.Forall₂ (fun t t' => t'.hash = t.hash.toList ∧
    t'.caller = t.caller.bytes.toList ∧ t'.transferTo = t.transferTo.bytes.toList ∧
    t'.rejected = t.rejected ∧ t'.note = t.note ∧
    List.Forall₂ (fun c c' => c'.callValue = c.callValue ∧ c'.tokenId = c.tokenId) t.callValues
      t'.callValues) x.internalTransactions i.internalTransactions

/-- `t` is the transaction `tx`, field by field, with the receipt of `l` that has its
hash: encoded if there is one, and nothing otherwise. -/
structure JoinsReceipt (l : List DecodedTxInfo) (tx : DecodedTransaction) (t : Pb.Transaction) :
    Prop where
  id : t.id = tx.hash.bytes.toList
  timestampMs : t.timestampMs = tx.timestampMs
  expirationMs : t.expirationMs = tx.expirationMs
  feeLimitSun : t.feeLimitSun = tx.feeLimitSun
  contracts : t.contracts = tx.contracts.map encodeContract
  signatures : t.signatures = tx.signatures
  info : ∃ info, Joined l tx.hash info ∧ t.info = info.map encodeTxInfo ∧
    ∀ x, info = some x → InfoKept x (encodeTxInfo x)

/-- A list and its image element by element. -/
theorem forall₂_map {α β : Type} {R : α → β → Prop} {f : α → β} {l : List α}
    (h : ∀ a, R a (f a)) : List.Forall₂ R l (l.map f) :=
  List.forall₂_map_right_iff.2 (List.forall₂_same.2 fun a _ => h a)

/-- The encoding of a receipt keeps all of it but the hash, which the transaction around
it carries, and the height and the time of its block. -/
theorem infoKept_encodeTxInfo (x : DecodedTxInfo) : InfoKept x (encodeTxInfo x) where
  success := rfl
  feeSun := rfl
  contractAddress a ha := by simp [encodeTxInfo, ha]
  noContract hnone := by simp [encodeTxInfo, hnone]
  resource := rfl
  logs := forall₂_map fun _ => ⟨rfl, rfl, forall₂_map fun _ => rfl⟩
  internalTransactions :=
    forall₂_map fun _ => ⟨rfl, rfl, rfl, rfl, rfl, forall₂_map fun _ => ⟨rfl, rfl⟩⟩

/-- A transaction encoded with what the map holds at its hash is joined to its receipt. -/
theorem joinsReceipt_encodeTransaction (l : List DecodedTxInfo) (tx : DecodedTransaction) :
    JoinsReceipt l tx (encodeTransaction tx ((infoByHash l).lookup tx.hash)) where
  id := rfl
  timestampMs := rfl
  expirationMs := rfl
  feeLimitSun := rfl
  contracts := rfl
  signatures := rfl
  info := ⟨_, joined_lookup l tx.hash, rfl, fun x _ => infoKept_encodeTxInfo x⟩

/-- Receipts that say the same of each transaction are encoded alike. -/
theorem encodeBlock_congr {buffered : BufferedBlock} {l : List DecodedTxInfo}
    (hinfos : DistinctHashes buffered.txInfos) (hl : DistinctHashes l)
    (h : ∀ tx ∈ buffered.decoded.transactions, ∀ x, x.txHash = tx.hash →
      (x ∈ l ↔ x ∈ buffered.txInfos)) (finality : BlockFinality) :
    encodeBlock { buffered with txInfos := l } finality = encodeBlock buffered finality := by
  have hlookup : ∀ tx ∈ buffered.decoded.transactions,
      (infoByHash l).lookup tx.hash = (infoByHash buffered.txInfos).lookup tx.hash := by
    intro tx htx
    ext x
    rw [lookup_infoByHash hl, lookup_infoByHash hinfos]
    exact and_congr_left (h tx htx x)
  unfold encodeBlock
  rw [List.map_congr_left fun tx htx => by rw [hlookup tx htx]]

/-- **The join of the receipts.**  If no two receipts have one hash, their order is of no
consequence, the transactions of the block are the decoded ones in order, each with the
receipt that has its hash, and dropping receipts without a transaction changes nothing. -/
theorem encodeBlock_joins {buffered : BufferedBlock} (hinfos : DistinctHashes buffered.txInfos)
    (finality : BlockFinality) :
    (∀ l, l.Perm buffered.txInfos →
      encodeBlock { buffered with txInfos := l } finality = encodeBlock buffered finality) ∧
    List.Forall₂ (JoinsReceipt buffered.txInfos) buffered.decoded.transactions
      (encodeBlock buffered finality).transactions ∧
    ∀ keep : DecodedTxInfo → Bool,
      (∀ x ∈ buffered.txInfos, keep x = false →
        ∀ tx ∈ buffered.decoded.transactions, x.txHash ≠ tx.hash) →
      encodeBlock { buffered with txInfos := buffered.txInfos.filter keep } finality =
        encodeBlock buffered finality := by
  refine ⟨?_, ?_, ?_⟩
  · intro l hl
    have hdistinct : DistinctHashes l := (hl.map _).nodup_iff.2 hinfos
    exact encodeBlock_congr hinfos hdistinct (fun _ _ x _ => hl.mem_iff) finality
  · exact forall₂_map fun tx => joinsReceipt_encodeTransaction buffered.txInfos tx
  · intro keep hkeep
    have hdistinct : DistinctHashes (buffered.txInfos.filter keep) :=
      hinfos.sublist (List.filter_sublist.map _)
    refine encodeBlock_congr hinfos hdistinct (fun tx htx x hhash => ?_) finality
    rw [List.mem_filter]
    refine and_iff_left_of_imp fun hx => ?_
    by_contra hne
    exact hkeep x hx (Bool.eq_false_iff.2 hne) tx htx hhash

/-- A block with one transaction, its receipt, and a receipt of another one. -/
def joinedBlock : BufferedBlock :=
  let receipt (b : UInt8) : DecodedTxInfo :=
    { txHash := ⟨List.Vector.replicate 32 b⟩, blockHeight := 1, blockTimestampMs := 0, feeSun := 7
      success := true, contractAddress := none, resource := .default
      logs := [], internalTransactions := [] }
  { height := 1, blockId := .fill 1, parentId := .fill 0, forkId := 0
    decoded :=
      { header := (synthBlock 1 (.fill 1) (.fill 0) (by decide)).header
        transactions := [⟨⟨List.Vector.replicate 32 9⟩, 0, 0, 0, [], []⟩] }
    txInfos := [receipt 8, receipt 9] }

/-- The block in either order of its receipts, and without the receipt of the other
transaction: the one transaction gets the receipt with its hash. -/
theorem encodeBlock_joins_reverse :
    encodeBlock { joinedBlock with txInfos := joinedBlock.txInfos.reverse } ⟨.seen, none⟩ =
        encodeBlock joinedBlock ⟨.seen, none⟩ ∧
      List.Forall₂ (JoinsReceipt joinedBlock.txInfos) joinedBlock.decoded.transactions
        (encodeBlock joinedBlock ⟨.seen, none⟩).transactions ∧
      encodeBlock
          { joinedBlock with
            txInfos := joinedBlock.txInfos.filter (·.txHash != ⟨List.Vector.replicate 32 8⟩) }
          ⟨.seen, none⟩ =
        encodeBlock joinedBlock ⟨.seen, none⟩ := by
  obtain ⟨horder, hjoins, hkeep⟩ :=
    @encodeBlock_joins joinedBlock (by decide) ⟨.seen, none⟩
  exact ⟨horder _ (List.reverse_perm _), hjoins, hkeep _ (by decide)⟩

end Firehose
end Lightcycle
