/-
# The rows of the archive can be read

What an archive row or a live response carries is the encoding of a block that came off the
wire of java-tron, with an envelope and receipts that came off it too.  The fields it came
from are no wider than those it goes to (`fits_encodeBlock`), so that a codec that reads back
what fits (`Prost.RoundTrips`) decodes the payload to the message that was encoded.

The archiver's agreement with the live stream then needs no more of the codec than that: a
reader of the archive gets the block announced, in a run of any calls that hand over what was
decoded (`FromWire`), and so does the consumer (`archived_rows_decode`).
-/

import Lightcycle.Codec.Contracts
import Lightcycle.Codec.WireBytes
import Lightcycle.Firehose.Payload
import Lightcycle.Firehose.Archived
import Lightcycle.Firehose.Receipts
import Lightcycle.Relayer.Provenance

namespace Lightcycle
namespace Firehose

open Relayer Store
open Protobuf (FitsInt64 FitsInt32 FitsUInt64)

/-! ### What is encoded fits -/

/-- The number of a kind is an `i32`. -/
theorem Pb.ContractKind.fits_toI32 (k : Pb.ContractKind) : FitsInt32 k.toI32 := by
  cases k <;> decide

/-- So is that of a tier. -/
theorem Pb.FinalityTier.fits_toI32 (t : Pb.FinalityTier) : FitsInt32 t.toI32 := by
  cases t <;> decide

/-- A contract whose numbers fit is written with numbers that fit. -/
theorem fits_encodeContract {c : DecodedContract} (h : c.Fits) :
    Pb.Contract.format.Fits (encodeContract c) := by
  have hzero : FitsInt32 0 := by decide
  cases c with
  | transfer =>
    exact ⟨Pb.ContractKind.fits_toI32 .transfer, hzero, List.forall_mem_singleton.2 h⟩
  | transferAsset =>
    exact ⟨Pb.ContractKind.fits_toI32 .transferAsset, hzero, List.forall_mem_singleton.2 h⟩
  | triggerSmartContract =>
    exact ⟨Pb.ContractKind.fits_toI32 .triggerSmartContract, hzero, List.forall_mem_singleton.2 h⟩
  | createSmartContract =>
    exact ⟨Pb.ContractKind.fits_toI32 .createSmartContract, hzero, List.forall_mem_singleton.2 h⟩
  | other => exact ⟨Pb.ContractKind.fits_toI32 .other, h, List.forall_mem_singleton.2 trivial⟩

/-- So is a receipt. -/
theorem fits_encodeTxInfo {info : DecodedTxInfo} (h : info.Fits) :
    Pb.TransactionInfo.format.Fits (encodeTxInfo info) := by
  refine ⟨h.feeSun, List.forall_mem_singleton.2 ?_, fun t ht c hc => ?_⟩
  · have hr := h.resource
    exact ⟨hr.energyUsage, hr.energyFee, hr.originEnergyUsage, hr.energyUsageTotal, hr.netUsage,
      hr.netFee, hr.energyPenaltyTotal⟩
  · obtain ⟨i, hi, rfl⟩ := List.mem_map.1 ht
    obtain ⟨v, hv, rfl⟩ := List.mem_map.1 hc
    exact h.internal i hi v hv

/-- So is a transaction with its receipt. -/
theorem fits_encodeTransaction {tx : DecodedTransaction} (h : tx.Fits) {info : Option DecodedTxInfo}
    (hinfo : ∀ i ∈ info, i.Fits) : Pb.Transaction.format.Fits (encodeTransaction tx info) := by
  refine ⟨h.timestampMs, h.expirationMs, h.feeLimitSun, fun c hc => ?_, fun i hi => ?_⟩
  · obtain ⟨d, hd, rfl⟩ := List.mem_map.1 hc
    exact fits_encodeContract (h.contracts d hd)
  · obtain ⟨d, hd, rfl⟩ := Option.map_eq_some_iff.1 (Option.mem_toList.1 hi)
    exact fits_encodeTxInfo (hinfo d hd)

/-- Milliseconds of an `i64` have a timestamp that fits. -/
theorem fits_timestampFromMs {ms : ℤ} (h : FitsInt64 ms) :
    Pb.Timestamp.format.Fits (timestampFromMs ms) := by
  have hlo : -1000 < ms.tmod 1000 := Int.lt_tmod_of_pos _ (by decide)
  have hhi : ms.tmod 1000 < 1000 := Int.tmod_lt_of_pos _ (by decide)
  have hsplit := Int.tmod_add_mul_tdiv ms 1000
  unfold FitsInt64 at h
  simp only [Pb.Timestamp.format, timestampFromMs, FitsInt64, FitsInt32]
  omega

/-- What a buffered block has to have for its payload to be read back. -/
structure Readable (b : BufferedBlock) : Prop where
  height : FitsUInt64 b.height
  decoded : b.decoded.Fits
  txInfos : ∀ i ∈ b.txInfos, i.Fits

/-- **What is encoded fits its fields**, when the block was decoded from bytes: every number
in the message was read from a field of the same width. -/
theorem fits_encodeBlock {b : BufferedBlock} (h : Readable b) {f : BlockFinality}
    (hhead : ∀ n, f.solidifiedHead = some n → FitsUInt64 n) :
    Pb.Block.format.Fits (encodeBlock b f) := by
  refine ⟨h.height, List.forall_mem_singleton.2 (fits_timestampFromMs h.decoded.timestampMs),
    List.forall_mem_singleton.2 h.decoded.version, fun t ht => ?_,
    List.forall_mem_singleton.2 ⟨?_, ?_⟩⟩
  · obtain ⟨tx, htx, rfl⟩ := List.mem_map.1 ht
    exact fits_encodeTransaction (h.decoded.transactions tx htx) fun i hi =>
      h.txInfos i (mem_of_lookup_infoByHash hi).1
  · exact Pb.FinalityTier.fits_toI32 _
  · have hnumber : FitsUInt64 (f.solidifiedHead.getD 0) := by
      cases hf : f.solidifiedHead with
      | none => exact Nat.two_pow_pos 64
      | some n => exact hhead n hf
    exact hnumber

/-- **What is encoded is read back**, for a block and a head that can be read, by any codec
that reads back the messages whose numbers are within their fields. -/
theorem decode_encodeBlock {prost : Prost} (hprost : prost.RoundTrips) {b : BufferedBlock}
    (h : Readable b) {f : BlockFinality} (hhead : ∀ n, f.solidifiedHead = some n → FitsUInt64 n)
    (hlen : (prost.encodeToVec (encodeBlock b f)).length < 2 ^ 64) :
    prost.decode (prost.encodeToVec (encodeBlock b f)) = some (encodeBlock b f) :=
  hprost _ (fits_encodeBlock h hhead) hlen

/-! ### Runs over what came off the wire -/

/-- The call hands over a block and receipts that were decoded, or a height that is a
`u64`. -/
inductive FromWire (p : Protocol.PayloadDecoders) (sha256 : List UInt8 → List.Vector UInt8 32) :
    Call → Prop
  | accept {raw rawInfos : List UInt8} {d : DecodedBlock} {txInfos : List DecodedTxInfo}
    (hblock : decodeBlock p sha256 raw = .ok d)
    (hinfos : decodeTransactionInfoList rawInfos = .ok txInfos) : FromWire p sha256 (.accept d txInfos)
  | setSolidifiedHead {s : ℕ} (hs : FitsUInt64 s) : FromWire p sha256 (.setSolidifiedHead s)

/-- What was decoded from bytes can be read back from a payload. -/
theorem FromWire.gives {p : Protocol.PayloadDecoders} {sha256 : List UInt8 → List.Vector UInt8 32}
    {c : Call} (hp : p.Fits) (h : FromWire p sha256 c) : c.Gives Readable FitsUInt64 := by
  cases h with
  | accept hblock hinfos =>
    obtain ⟨block, -, hmessage⟩ := Decode.bind_eq_ok.1 hblock
    exact fun _ => ⟨DecodedHeader.height_lt _, fits_of_decodeBlockMessage hp hmessage,
      fits_of_decodeTransactionInfoList hinfos⟩
  | setSolidifiedHead hs => exact hs

namespace Feed

variable {prost : Prost} {w w' : Feed} {archive₀ : BlockArchive}

/-- Everything between the calls and the archive was given. -/
structure Given (w : Feed) : Prop where
  wf : w.engine.Wf
  engine : w.engine.Given Readable FitsUInt64
  emitted : ∀ o ∈ w.emitted, o.Given Readable FitsUInt64

/-- A fresh engine holds nothing that was not given. -/
theorem given_init {config : ReorgConfig} {engine : ReorgEngine}
    (h : ReorgEngine.new config = some engine) : (init engine archive₀).Given where
  wf := ReorgEngine.wf_new h
  engine := ReorgEngine.given_new h
  emitted _ ho := (List.not_mem_nil ho).elim

/-- **One step of the feed**, in which a call hands over what can be read. -/
theorem Given.step {a : FeedAction} (h : w.Given)
    (ha : ∀ c, a = .call c → c.Gives Readable FitsUInt64) (hs : w.step prost a = some w') :
    w'.Given := by
  cases moves_of_step hs with
  | call hcall =>
    have hstep := ReorgEngine.step_of_call h.wf hcall
    obtain ⟨hengine, hout⟩ := hstep.given h.engine (ha _ rfl)
    refine ⟨hstep.wf h.wf, hengine, ?_⟩
    rw [Feed.emitted, ← List.append_assoc]
    exact List.forall_mem_append.2 ⟨h.emitted, hout⟩
  | @recv o rest hq =>
    refine ⟨h.wf, h.engine, ?_⟩
    have hemitted := h.emitted
    rw [Feed.emitted, hq] at hemitted
    rw [Feed.emitted, List.map_append, List.append_assoc]
    exact hemitted
  | @lagged skipped hle =>
    refine ⟨h.wf, h.engine, ?_⟩
    have hfst : (w.queue.take skipped).map (Prod.fst ∘ fun o => (o, false)) =
        w.queue.take skipped := List.map_id' _
    rw [Feed.emitted, List.map_append, List.map_map, List.append_assoc, hfst, List.take_append_drop]
    exact h.emitted

/-- **A run over what came off the wire.** Its calls hand over decoded blocks and receipts,
so everything it holds and emits can be read back. -/
theorem given_of_run {p : Protocol.PayloadDecoders} {sha256 : List UInt8 → List.Vector UInt8 32}
    {config : ReorgConfig} {engine : ReorgEngine} {acts : List FeedAction} (hp : p.Fits)
    (hnew : ReorgEngine.new config = some engine)
    (hwire : ∀ c, FeedAction.call c ∈ acts → FromWire p sha256 c)
    (hrun : Run.exec (Feed.step prost) (init engine archive₀) acts = some w) : w.Given := by
  refine Run.exec_preserves_of_forall (C := fun a => ∀ c, .call c = a → FromWire p sha256 c)
    (fun _ _ _ ha h hs => h.step (fun c hc => (ha c hc.symm).gives hp) hs) ?_ (given_init hnew) hrun
  rintro _ ha c rfl
  exact hwire c ha

/-- What the archiver is past was emitted. -/
theorem mem_emitted_of_past {sb : StreamableBlock} {received : Bool}
    (h : (sb, received) ∈ w.past) : .irreversible sb ∈ w.emitted := by
  have hfst : sb ∈ announcements (w.seen.map Prod.fst) := by
    rw [← map_fst_past]
    exact List.mem_map_of_mem h
  obtain ⟨o, ho, hann⟩ := List.mem_filterMap.1 hfst
  cases o with
  | irreversible t =>
    obtain rfl := Option.some.inj hann
    exact List.mem_append_left _ ho
  | _ => cases hann

end Feed

/-- **The rows of the archive can be read.**  In every run of the engine, the broadcast and the
archiver whose calls hand over what was decoded from the wire, over any rows an earlier run had
written, with a codec that reads back what fits its fields: what the archiver stored of a block
announced decodes to the block and the envelope of the announcement.  A walk over any range of at
most 5000 rows with its height returns for that height the live response alone, as `STEP_NEW`,
`Fetch.Block` its block and metadata, and the payload of the live response decodes to the same
message.  That every number handed on fits its field is not asked for: it follows from where the
blocks and the receipts came from. -/
theorem archived_rows_decode (prost : Prost) (p : Protocol.PayloadDecoders)
    (sha256 : List UInt8 → List.Vector UInt8 32) (config : ReorgConfig) (engine : ReorgEngine)
    (items : List ArchiveRow) (acts : List FeedAction) (w : Feed) (sb : StreamableBlock)
    (hprost : prost.RoundTrips) (hp : p.Fits) (hnew : ReorgEngine.new config = some engine)
    (hwire : ∀ c, FeedAction.call c ∈ acts → FromWire p sha256 c)
    (hrun : Run.exec (Feed.step prost)
      (Feed.init engine (BlockArchive.empty.putBatch items)) acts = some w)
    (hsb : (sb, true) ∈ w.past)
    (hlen : (prost.encodeToVec (encodeBlock sb.block sb.finality)).length < 2 ^ 64) :
    (∃ payload, w.archive.get sb.block.height = .ok (some (sb.block.blockId, payload)) ∧
        prost.decode payload = some (encodeBlock sb.block sb.finality)) ∧
      ∃ live, outputToResponse prost (.irreversible sb) = some live ∧
        (live.block.map fun any => prost.decode any.value) =
          some (some (encodeBlock sb.block sb.finality)) ∧
        (∀ lo hi, lo ≤ sb.block.height → sb.block.height ≤ hi →
          (w.archive.blocks.range lo hi).length ≤ archiveWalkLimit →
          ∃ rows, archiveWalk prost w.archive lo hi = .ok rows ∧
            { live with step := .stepNew } ∈ rows ∧
            ∀ r ∈ rows, r.metadata.map (·.num) = some sb.block.height →
              r = { live with step := .stepNew }) ∧
        fetchArchived prost w.archive sb.block.height = some ⟨live.block, live.metadata⟩ := by
  have hok : w.Ok prost (BlockArchive.empty.putBatch items) :=
    Run.exec_preserves (fun _ _ _ h hs => h.step hs) (Feed.ok_init hnew _) hrun
  have hsealed : w.Sealed :=
    Run.exec_preserves (fun _ _ _ h hs => h.step hs)
      (Feed.sealed_init hnew (written_empty.putBatch items)) hrun
  have hgiven := Feed.given_of_run hp hnew hwire hrun
  have hannounced := (hgiven.emitted _ (Feed.mem_emitted_of_past hsb)).announced
  have hdecode := decode_encodeBlock hprost hannounced.block hannounced.head hlen
  have hget := hok.held sb hsb
  have hrow := archivedResponse_eq (hsealed.cursor hsb) hdecode
  refine ⟨⟨_, hget, hdecode⟩, streamableToResponse prost sb .stepFinal, rfl,
    congrArg some hdecode, fun lo hi hlo hhi hfits => ?_, ?_⟩
  · exact archiveWalk_of_get hsealed.written hget hrow hlo hhi hfits
  · rw [fetchArchived, show w.archive.get sb.block.height = _ from hget]
    exact congrArg some (archiveHitResponse_eq hdecode .stepFinal)

/-- The block `d` is accepted with its receipts, announced and stored. -/
def storeOne (d : DecodedBlock) (infos : List DecodedTxInfo) : List FeedAction :=
  [.call (.accept d infos), .call (.setSolidifiedHead 1), .recv, .recv]

/-- Its announcement. -/
def announcementOf (d : DecodedBlock) (infos : List DecodedTxInfo) : StreamableBlock where
  step := .irreversible
  block := ReorgEngine.bufferedBlock 0 d infos
  cursor := ⟨d.header.height, d.header.blockId⟩
  finality := ⟨.finalized, some 1⟩

/-- It is stored at height 1. -/
theorem exists_storeOne {d : DecodedBlock} (infos : List DecodedTxInfo) (h : d.header.height = 1) :
    ∃ engine w, ReorgEngine.new ReorgConfig.default = some engine ∧
      Run.exec (Feed.step prostBlock) (Feed.init engine (BlockArchive.empty.putBatch []))
        (storeOne d infos) = some w ∧ (announcementOf d infos, true) ∈ w.past := by
  obtain ⟨⟨height, _, _, _, _, _, _, _, _, _⟩, _⟩ := d
  obtain rfl : height = 1 := h
  exact ⟨_, _, rfl, rfl, List.mem_singleton.2 rfl⟩

/-- The bytes of the receipt of the plain block's transaction: a fee of 7. -/
def plainReceipts : List UInt8 :=
  [0x0a, 36, 0x0a, 32] ++ (rawDigest [0x70, 5]).toList ++ [0x10, 7]

/-- The plain block and its receipt, of bytes, decoded, stored and read. -/
theorem archived_rows_decode_plainBlock :
    ∃ (d : DecodedBlock) (infos : List DecodedTxInfo) (w : Feed),
      decodeBlock Protocol.payloadDecoders rawDigest plainBlock = .ok d ∧
      decodeTransactionInfoList plainReceipts = .ok infos ∧ infos.length = 1 ∧
      (∃ payload, w.archive.get d.header.height = .ok (some (d.header.blockId, payload)) ∧
        prostBlock.decode payload =
          some (encodeBlock (announcementOf d infos).block (announcementOf d infos).finality)) ∧
      ∃ live, outputToResponse prostBlock (.irreversible (announcementOf d infos)) = some live ∧
        (live.block.map fun any => prostBlock.decode any.value) = some (some
          (encodeBlock (announcementOf d infos).block (announcementOf d infos).finality)) ∧
        (∀ lo hi, lo ≤ d.header.height → d.header.height ≤ hi →
          (w.archive.blocks.range lo hi).length ≤ archiveWalkLimit →
          ∃ rows, archiveWalk prostBlock w.archive lo hi = .ok rows ∧
            { live with step := .stepNew } ∈ rows ∧
            ∀ r ∈ rows, r.metadata.map (·.num) = some d.header.height →
              r = { live with step := .stepNew }) ∧
        fetchArchived prostBlock w.archive d.header.height = some ⟨live.block, live.metadata⟩ := by
  have hok : ((decodeBlock Protocol.payloadDecoders rawDigest plainBlock).toOption.bind fun d =>
      (decodeTransactionInfoList plainReceipts).toOption.map fun infos =>
        (d.header.height, infos.length, decide ((prostBlock.encodeToVec (encodeBlock
          (announcementOf d infos).block (announcementOf d infos).finality)).length < 2 ^ 64))) =
      some (1, 1, true) := by
    decide +kernel
  obtain ⟨d, hd, hok⟩ := Option.bind_eq_some_iff.1 hok
  obtain ⟨infos, hi, hok⟩ := Option.map_eq_some_iff.1 hok
  obtain ⟨hheight, hok⟩ := Prod.mk.inj hok
  obtain ⟨hone, hlen⟩ := Prod.mk.inj hok
  have hdecoded := Decode.toOption_eq_some.1 hd
  have hinfos := Decode.toOption_eq_some.1 hi
  obtain ⟨engine, w, hnew, hrun, hpast⟩ := exists_storeOne infos hheight
  have hwire : ∀ c, FeedAction.call c ∈ storeOne d infos →
      FromWire Protocol.payloadDecoders rawDigest c := by
    intro c hc
    simp only [storeOne, List.mem_cons, List.not_mem_nil, FeedAction.call.injEq, reduceCtorEq,
      or_false] at hc
    rcases hc with rfl | rfl
    · exact .accept hdecoded hinfos
    · exact .setSolidifiedHead (by decide)
  exact ⟨d, infos, w, hdecoded, hinfos, hone, archived_rows_decode prostBlock
    Protocol.payloadDecoders rawDigest ReorgConfig.default engine [] (storeOne d infos) w
    (announcementOf d infos) roundTrips_prostBlock Protocol.fits_payloadDecoders hnew hwire hrun
    hpast (of_decide_eq_true hlen)⟩

end Firehose
end Lightcycle
