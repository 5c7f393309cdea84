/-
# The fetcher

`GrpcBlockFetcher::fetch_now_block` of `crates/lightcycle-relayer/src/service.rs`: the
head block by one RPC, its receipts by a second one that names the height alone.  A
failure of the second RPC, or of decoding its answer, leaves the receipts empty.  The
answer of `GetNowBlock` is taken as `decode_block_message` reads it, a failure of
either being its error.

`ChainView` is what the node holds as canonical at one moment and `Executions` the
result of each transaction in each block.  The node may switch its chain between the
two RPCs any number of times; `Answers` says what it may answer over such an
interleaving.
-/

import Lightcycle.Codec.TxInfo
import Lightcycle.Relayer.Service

namespace Lightcycle
namespace Relayer

/-- The second RPC of `fetch_now_block` and the decoding of its answer: a failure of either is
logged and counted. -/
def fetchTxInfos (decoded : DecodedBlock)
    (transactionInfoByBlockNum : ℕ → Except String (List Protocol.TransactionInfo)) :
    List DecodedTxInfo :=
  match transactionInfoByBlockNum decoded.header.height with
  | .ok list =>
    match decodeTransactionInfoListMessage list with
    | .ok infos => infos
    | .error _ => []
  | .error _ => []

/-- `GrpcBlockFetcher::fetch_now_block`, from the answers of its two RPCs. -/
def fetchNowBlock (fetchTxInfo : Bool) (nowBlock : Except String DecodedBlock)
    (transactionInfoByBlockNum : ℕ → Except String (List Protocol.TransactionInfo)) :
    Except String FetchedBlock :=
  match nowBlock with
  | .error e => .error e
  | .ok decoded =>
    .ok { decoded
          txInfos := if fetchTxInfo && !decoded.transactions.isEmpty then
            fetchTxInfos decoded transactionInfoByBlockNum else [] }

/-- The receipts a fetched block comes with: those of an answer that decodes, or none, which
is only so when nothing was asked for or nothing decoded. -/
theorem fetchNowBlock_cases {fetchTxInfo : Bool} {nowBlock : Except String DecodedBlock}
    {byNum : ℕ → Except String (List Protocol.TransactionInfo)} {fetched : FetchedBlock}
    (h : fetchNowBlock fetchTxInfo nowBlock byNum = .ok fetched) :
    nowBlock = .ok fetched.decoded ∧
      ((fetched.txInfos = [] ∧ (fetchTxInfo = true → fetched.decoded.transactions ≠ [] →
          ∀ list infos, byNum fetched.decoded.header.height = .ok list →
            decodeTransactionInfoListMessage list ≠ .ok infos)) ∨
        ∃ list, fetchTxInfo = true ∧ byNum fetched.decoded.header.height = .ok list ∧
          decodeTransactionInfoListMessage list = .ok fetched.txInfos) := by
  cases nowBlock with
  | error e => cases h
  | ok decoded =>
    obtain rfl := Except.ok.inj h
    refine ⟨rfl, ?_⟩
    simp only
    split_ifs with hf
    · rw [Bool.and_eq_true] at hf
      unfold fetchTxInfos
      cases hl : byNum decoded.header.height with
      | error e => exact Or.inl ⟨rfl, fun _ _ list _ hlist => by cases hlist⟩
      | ok list =>
        simp only
        cases hd : decodeTransactionInfoListMessage list with
        | error e =>
          refine Or.inl ⟨rfl, fun _ _ list' infos hlist hinfos => ?_⟩
          obtain rfl := Except.ok.inj hlist
          rw [hd] at hinfos
          cases hinfos
        | ok infos => exact Or.inr ⟨list, hf.1, rfl, hd⟩
    · refine Or.inl ⟨rfl, fun hfetch hne => absurd ?_ hf⟩
      rw [hfetch, Bool.true_and, Bool.not_eq_true', List.isEmpty_eq_false_iff]
      exact hne

/-! ### The node -/

/-- What the node holds as canonical at one moment: its head, and the block at each height
it retains. -/
structure ChainView where
  head : DecodedBlock
  canonical : ℕ → Option DecodedBlock
  head_canonical : canonical head.header.height = some head

/-- The node's view after it has switched its chain in turn to each of `reorgs`. -/
def ChainView.after (first : ChainView) (reorgs : List ChainView) : ChainView :=
  reorgs.getLast?.getD first

/-- The execution result of each transaction in each block, a message that names the
transaction. -/
structure Executions where
  result : BlockId → TxHash → Protocol.TransactionInfo
  id_eq : ∀ block tx, (result block tx).id = tx.bytes.toList

/-- The receipts of the block canonical at a height: none where the node retains none. -/
def ChainView.receipts (view : ChainView) (x : Executions) (height : ℕ) :
    List Protocol.TransactionInfo :=
  (view.canonical height).elim [] fun b =>
    b.transactions.map fun tx => x.result b.header.blockId tx.hash

/-- A receipt names its transaction. -/
theorem Executions.txHash_eq (x : Executions) {block : BlockId} {tx : TxHash} {d : DecodedTxInfo}
    (h : decodeTransactionInfoMessage (x.result block tx) = .ok d) : d.txHash = tx := by
  have hid := txHash_of_decode h
  rw [x.id_eq] at hid
  have hbytes : d.txHash.bytes = tx.bytes := List.Vector.toList_injective hid
  exact congrArg TxHash.mk hbytes

/-- What the two RPCs may answer when the node switches its chain to `reorgs` between
them: the first view's head, then the receipts of the last view in any order. -/
structure Answers (x : Executions) (first : ChainView) (reorgs : List ChainView)
    (nowBlock : Except String DecodedBlock)
    (byNum : ℕ → Except String (List Protocol.TransactionInfo)) : Prop where
  nowBlock : ∀ b, nowBlock = .ok b → b = first.head
  byNum : ∀ height list, byNum height = .ok list →
    list.Perm ((first.after reorgs).receipts x height)

/-- The receipts at a height are those of the block the node has there. -/
theorem ChainView.mem_receipts {view : ChainView} {x : Executions} {height : ℕ}
    {m : Protocol.TransactionInfo} :
    m ∈ view.receipts x height ↔ ∃ b, view.canonical height = some b ∧ ∃ tx ∈ b.transactions,
      x.result b.header.blockId tx.hash = m := by
  unfold receipts
  cases view.canonical height with
  | none => simp
  | some b => simp

namespace Answers

variable {x : Executions} {first : ChainView} {reorgs : List ChainView}
  {nowBlock : Except String DecodedBlock}
  {byNum : ℕ → Except String (List Protocol.TransactionInfo)} {height : ℕ}
  {list : List Protocol.TransactionInfo} {infos : List DecodedTxInfo}

/-- **A receipt decoded from an answer** is the result of the transaction it names in the
block canonical at the height when the answer is given. -/
theorem of_mem (h : Answers x first reorgs nowBlock byNum) (hl : byNum height = .ok list)
    (hd : decodeTransactionInfoListMessage list = .ok infos) {d : DecodedTxInfo} (hmem : d ∈ infos) :
    ∃ b, (first.after reorgs).canonical height = some b ∧ ∃ tx ∈ b.transactions,
      d.txHash = tx.hash ∧
        decodeTransactionInfoMessage (x.result b.header.blockId tx.hash) = .ok d := by
  obtain ⟨m, hm, hdec⟩ := (Decode.mem_of_mapM_eq_ok hd).1 hmem
  obtain ⟨b, hb, tx, htx, rfl⟩ := ChainView.mem_receipts.1 ((h.byNum height list hl).mem_iff.1 hm)
  exact ⟨b, hb, tx, htx, x.txHash_eq hdec, hdec⟩

/-- An answer that decodes has a receipt for each transaction of that block. -/
theorem exists_mem (h : Answers x first reorgs nowBlock byNum) (hl : byNum height = .ok list)
    (hd : decodeTransactionInfoListMessage list = .ok infos) {b : DecodedBlock}
    (hb : (first.after reorgs).canonical height = some b) {tx : DecodedTransaction}
    (htx : tx ∈ b.transactions) : ∃ d ∈ infos, d.txHash = tx.hash := by
  have hm : x.result b.header.blockId tx.hash ∈ list :=
    (h.byNum height list hl).mem_iff.2 (ChainView.mem_receipts.2 ⟨b, hb, tx, htx, rfl⟩)
  obtain ⟨d, hdmem, hdec⟩ := Decode.exists_of_mapM_eq_ok hd hm
  exact ⟨d, hdmem, x.txHash_eq hdec⟩

end Answers

end Relayer
end Lightcycle
