/-
# Receipts and their block

`encode_block` joins the receipts to the transactions by hash.  The fetcher reads the
head block first and the receipts of its height later, so a node that switches its
chain in between answers with the receipts of another block, and a transaction that is
in both gets the result it had there.  Nothing compares the receipts with the block
they are attached to.

`ResultsKept` is the exact condition: where the receipts were read, the block
canonical at the height gives each transaction it shares with the fetched block the
result the fetched block gives it.
-/

import Lightcycle.Firehose.Encode
import Lightcycle.Relayer.Fetcher

namespace Lightcycle
namespace Firehose

open Relayer

/-! ### The join by hash -/

/-- A later receipt replaces the one with its hash. -/
theorem infoByHash_append_singleton (l : List DecodedTxInfo) (d : DecodedTxInfo) :
    infoByHash (l ++ [d]) = (infoByHash l).insert d.txHash d := by
  unfold infoByHash
  rw [List.foldl_append]
  rfl

/-- What the map holds under a hash is one of the receipts, and has that hash. -/
theorem mem_of_lookup_infoByHash {l : List DecodedTxInfo} {t : TxHash} {d : DecodedTxInfo}
    (h : (infoByHash l).lookup t = some d) : d ∈ l ∧ d.txHash = t := by
  induction l using List.reverseRecOn with
  | nil => cases h
  | append_singleton l c ih =>
    rw [infoByHash_append_singleton] at h
    by_cases hc : t = c.txHash
    · rw [hc, Finmap.lookup_insert] at h
      obtain rfl := Option.some.inj h
      exact ⟨by simp, hc.symm⟩
    · rw [Finmap.lookup_insert_of_ne _ hc] at h
      exact ⟨List.mem_append_left _ (ih h).1, (ih h).2⟩

/-- The map holds something under the hash of each receipt. -/
theorem exists_lookup_infoByHash {l : List DecodedTxInfo} {c : DecodedTxInfo} (hc : c ∈ l) :
    ∃ d, (infoByHash l).lookup c.txHash = some d := by
  induction l using List.reverseRecOn with
  | nil => cases hc
  | append_singleton l b ih =>
    rw [infoByHash_append_singleton]
    by_cases hb : c.txHash = b.txHash
    · exact ⟨b, by rw [hb, Finmap.lookup_insert]⟩
    · rw [Finmap.lookup_insert_of_ne _ hb]
      rcases List.mem_append.1 hc with hc | hc
      · exact ih hc
      · exact absurd (List.mem_singleton.1 hc ▸ rfl) hb

/-! ### Receipts of one block on another -/

/-- The result of a transaction in a block, as it is shipped. -/
def shippedResult (x : Executions) (block : BlockId) (tx : TxHash) :
    Except CodecError Pb.TransactionInfo :=
  (decodeTransactionInfoMessage (x.result block tx)).map encodeTxInfo

/-- Each receipt attached to a transaction of `b` is the result of that transaction
in `b`. -/
def ReceiptsBelong (x : Executions) (b : DecodedBlock) (pb : Pb.Block) : Prop :=
  ∀ (i : ℕ) (tx : DecodedTransaction) (ptx : Pb.Transaction) (info : Pb.TransactionInfo),
    b.transactions[i]? = some tx → pb.transactions[i]? = some ptx → ptx.info = some info →
      shippedResult x b.header.blockId tx.hash = .ok info

/-- **Where the receipts were read, the results are those of the block fetched**: if receipts
are fetched, answered and decode, then the block canonical at the height by then gives each
transaction it shares with `b` the result `b` gives it. -/
def ResultsKept (x : Executions) (b : DecodedBlock) (later : ChainView) (fetchTxInfo : Bool)
    (byNum : ℕ → Except String (List Protocol.TransactionInfo)) : Prop :=
  fetchTxInfo = true → ∀ list infos, byNum b.header.height = .ok list →
    decodeTransactionInfoListMessage list = .ok infos →
    ∀ b', later.canonical b.header.height = some b' →
    ∀ tx ∈ b.transactions, ∀ tx' ∈ b'.transactions, tx'.hash = tx.hash →
      shippedResult x b'.header.blockId tx.hash = shippedResult x b.header.blockId tx.hash

/-- The shipped receipts belong to the block when each transaction with a receipt in the map
was executed to that receipt in this block, not in another one that has the transaction too.
-/
theorem receiptsBelong_encodeBlock {x : Executions} (buffered : BufferedBlock)
    {finality : BlockFinality} :
    ReceiptsBelong x buffered.decoded (encodeBlock buffered finality) ↔
      ∀ tx ∈ buffered.decoded.transactions, ∀ d,
        (infoByHash buffered.txInfos).lookup tx.hash = some d →
          shippedResult x buffered.decoded.header.blockId tx.hash = .ok (encodeTxInfo d) := by
  have hget : ∀ i, (encodeBlock buffered finality).transactions[i]? =
      buffered.decoded.transactions[i]?.map fun tx =>
        encodeTransaction tx ((infoByHash buffered.txInfos).lookup tx.hash) :=
    fun i => List.getElem?_map
  constructor
  · intro h tx htx d hd
    obtain ⟨i, hi⟩ := List.mem_iff_getElem?.1 htx
    refine h i tx _ (encodeTxInfo d) hi (by rw [hget, hi]; rfl) ?_
    exact congrArg (Option.map encodeTxInfo) hd
  · intro h i tx ptx info hi hptx hinfo
    rw [hget, hi] at hptx
    obtain rfl := Option.some.inj hptx
    obtain ⟨d, hd, rfl⟩ := Option.map_eq_some_iff.1 hinfo
    exact h tx (List.mem_of_getElem? hi) d hd

/-- **When receipts belong to the block they are shipped with.**  The node switching its chain
in any way between the two RPCs, every receipt attached to a transaction of the fetched
block is that transaction's result in it exactly when the results were kept. -/
theorem receiptsBelong_iff (x : Executions) (first : ChainView) (reorgs : List ChainView)
    (fetchTxInfo : Bool) (nowBlock : Except String DecodedBlock)
    (byNum : ℕ → Except String (List Protocol.TransactionInfo))
    (h : Answers x first reorgs nowBlock byNum) (fetched : FetchedBlock)
    (hf : fetchNowBlock fetchTxInfo nowBlock byNum = .ok fetched) (forkId : UInt32)
    (finality : BlockFinality) :
    ReceiptsBelong x fetched.decoded
        (encodeBlock (ReorgEngine.bufferedBlock forkId fetched.decoded fetched.txInfos) finality) ↔
      ResultsKept x first.head (first.after reorgs) fetchTxInfo byNum := by
  obtain ⟨hnow, hinfos⟩ := fetchNowBlock_cases hf
  rw [← h.nowBlock _ hnow]
  refine (receiptsBelong_encodeBlock (ReorgEngine.bufferedBlock forkId fetched.decoded
    fetched.txInfos)).trans ?_
  simp only [ReorgEngine.bufferedBlock]
  rcases hinfos with ⟨hnil, hno⟩ | ⟨list, hfetch, hlist, hdec⟩
  · -- nothing is attached, and the condition asks for nothing
    rw [hnil]
    refine iff_of_true (fun tx _ d hd => by cases hd) ?_
    intro hfetch list infos hlist hdec b' _ tx htx
    exact absurd hdec (hno hfetch (List.ne_nil_of_mem htx) list infos hlist)
  · have hresult : ∀ b', (first.after reorgs).canonical fetched.decoded.header.height = some b' →
        ∀ t d, (infoByHash fetched.txInfos).lookup t = some d →
          shippedResult x b'.header.blockId t = .ok (encodeTxInfo d) := by
      intro b' hb' t d hd
      obtain ⟨hdmem, rfl⟩ := mem_of_lookup_infoByHash hd
      obtain ⟨b, hb, tx, -, hhash, hres⟩ := h.of_mem hlist hdec hdmem
      obtain rfl := Option.some.inj (hb.symm.trans hb')
      rw [shippedResult, hhash, hres]
      rfl
    constructor
    · intro hall _ list' infos' hlist' hdec' b' hb' tx htx tx' htx' hhash
      obtain ⟨c, hc, hchash⟩ := h.exists_mem hlist hdec hb' htx'
      obtain ⟨d, hd⟩ := exists_lookup_infoByHash hc
      rw [hchash, hhash] at hd
      rw [hresult b' hb' _ d hd, hall tx htx d hd]
    · intro hkept tx htx d hd
      obtain ⟨hdmem, hdhash⟩ := mem_of_lookup_infoByHash hd
      obtain ⟨b', hb', tx', htx', hhash, -⟩ := h.of_mem hlist hdec hdmem
      rw [← hkept hfetch list _ hlist hdec b' hb' tx htx tx' htx' (hhash.symm.trans hdhash)]
      exact hresult b' hb' _ d hd

/-- A block that is still canonical when its receipts are read keeps its results. -/
theorem resultsKept_of_canonical (x : Executions) {b : DecodedBlock} {later : ChainView}
    (h : later.canonical b.header.height = some b) (fetchTxInfo : Bool)
    (byNum : ℕ → Except String (List Protocol.TransactionInfo)) :
    ResultsKept x b later fetchTxInfo byNum := by
  intro _ list infos _ _ b' hb' tx _ tx' _ _
  rw [h] at hb'
  rw [Option.some.inj hb']

/-- A test transaction. -/
def testTransaction : DecodedTransaction :=
  ⟨⟨List.Vector.replicate 32 7⟩, 0, 0, 0, [], []⟩

/-- The test block `tag` of height 1, with the test transaction. -/
def blockWithTx (tag : UInt8) : DecodedBlock :=
  { synthAt 1 tag 0 with transactions := [testTransaction] }

/-- A node that retains its head alone. -/
def headOnly (b : DecodedBlock) : ChainView where
  head := b
  canonical h := if h = b.header.height then some b else none
  head_canonical := if_pos rfl

/-- Every transaction succeeds in the block `tag` of height 1 and fails in every other. -/
def succeedsIn (tag : UInt8) : Executions where
  result block tx :=
    { id := tx.bytes.toList, fee := 0, blockNumber := 1, blockTimeStamp := 0
      contractAddress := [], receipt := none, log := []
      result := if block = synthId 1 tag then 0 else 1, internalTransactions := [] }
  id_eq _ _ := rfl

/-- A node that moved from one head to the other between the two RPCs answers the first
block and the receipts of the second. -/
theorem answers_headOnly (x : Executions) (b b' : DecodedBlock) :
    Answers x (headOnly b) [headOnly b'] (.ok b) fun h => .ok ((headOnly b').receipts x h) := by
  refine ⟨fun c hc => (Except.ok.inj hc).symm, fun h list hl => ?_⟩
  rw [← Except.ok.inj hl]
  exact List.Perm.refl _

/-- **A transaction is shipped with the result of another block**: the node switches from one
block to its sibling between the two RPCs, and the transaction they share succeeded in the
first and failed in the second. -/
theorem receipts_of_other_branch :
    ¬ ∀ (x : Executions) (first : ChainView) (reorgs : List ChainView) (fetchTxInfo : Bool)
      (nowBlock : Except String DecodedBlock)
      (byNum : ℕ → Except String (List Protocol.TransactionInfo)),
      Answers x first reorgs nowBlock byNum → ∀ fetched : FetchedBlock,
      fetchNowBlock fetchTxInfo nowBlock byNum = .ok fetched → ∀ (forkId : UInt32)
      (finality : BlockFinality), ReceiptsBelong x fetched.decoded
        (encodeBlock (ReorgEngine.bufferedBlock forkId fetched.decoded fetched.txInfos)
          finality) := by
  intro h
  have hbelong := h (succeedsIn 0) _ _ true _ _ (answers_headOnly _ (blockWithTx 0) (blockWithTx 1))
    _ rfl 0 (.forBlock 1 none false)
  have hres := hbelong 0 testTransaction _ _ rfl rfl rfl
  revert hres
  decide

/-- The hypotheses hold of the same switch when the transaction failed in both blocks. -/
theorem receiptsBelong_iff_switch :
    Answers (succeedsIn 2) (headOnly (blockWithTx 0)) [headOnly (blockWithTx 1)]
        (.ok (blockWithTx 0))
        (fun h => .ok ((headOnly (blockWithTx 1)).receipts (succeedsIn 2) h)) ∧
      ∃ fetched, fetchNowBlock true (.ok (blockWithTx 0))
          (fun h => .ok ((headOnly (blockWithTx 1)).receipts (succeedsIn 2) h)) = .ok fetched ∧
        (ReceiptsBelong (succeedsIn 2) fetched.decoded
            (encodeBlock (ReorgEngine.bufferedBlock 0 fetched.decoded fetched.txInfos)
              (.forBlock 1 none false)) ↔
          ResultsKept (succeedsIn 2) (headOnly (blockWithTx 0)).head
            ((headOnly (blockWithTx 0)).after [headOnly (blockWithTx 1)]) true
            fun h => .ok ((headOnly (blockWithTx 1)).receipts (succeedsIn 2) h)) :=
  ⟨answers_headOnly _ _ _, _, rfl, receiptsBelong_iff _ _ _ true _ _ (answers_headOnly _ _ _) _ rfl
    0 _⟩

end Firehose
end Lightcycle
