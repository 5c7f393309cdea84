/-
# Archived and live responses agree

One block reaches a consumer in four ways, and `crates/lightcycle-firehose/src/server.rs`
projects it to the wire four times: `output_to_response` from the live output,
`streamable_to_response` from the cache, `archive_walk` from an archived row, and
`archive_hit_response` from an archived row for `Fetch.Block`.  The last two read the
parent's id, the time and the solidified head back out of the payload the archiver wrote.

For a block the engine announced and the archiver stored they agree in every field but the
step (`archived_agrees_live`).  What it takes: the engine's cursor of an `Irreversible` is
the height and the id (`Addressed`), the heights announced rise, so that nothing replaces
the row (`Feed.Ok`), and every row the archiver or an earlier run wrote has its id prefix
(`Written`), so that the walk does not fail elsewhere in the range.
-/

import Lightcycle.Firehose.Archiver
import Lightcycle.Firehose.Lookups

namespace Lightcycle
namespace Firehose

open Relayer Store

/-- The response of `Fetch.Block`. -/
structure SingleBlockResponse where
  block : Option Any
  metadata : Option BlockMetadata
deriving DecidableEq

variable (prost : Prost)

/-- `archive_hit_response`: what does not decode is left at its default. -/
def archiveHitResponse (height : ℕ) (blockId : BlockId) (payload : List UInt8) :
    SingleBlockResponse :=
  let pbBlock := prost.decode payload
  let parentIdBytes := (pbBlock.bind fun b =>
    if b.parentId.length = 32 then some b.parentId else none).getD (List.replicate 32 0)
  { block := some ⟨blockTypeUrl, payload⟩
    metadata := some
      { num := height
        id := BlockId.hex blockId
        parentNum := height - 1
        parentId := hexEncode parentIdBytes
        libNum := (pbBlock.bind fun b => b.finality.map (·.solidifiedHeadNumber)).getD 0
        time := pbBlock.bind (·.time) } }

/-- The archive path of `Fetch.Block`: a miss and a read error go on to the oracle. -/
def fetchArchived (archive : BlockArchive) (height : ℕ) : Option SingleBlockResponse :=
  match archive.get height with
  | .ok (some (blockId, payload)) => some (archiveHitResponse prost height blockId payload)
  | .ok none => none
  | .error _ => none

variable {prost}

/-! ### The projections -/

/-- An id has 32 bytes, so none are replaced. -/
theorem bytes32_blockId (id : BlockId) : bytes32 id.bytes.toList = id.bytes.toList :=
  if_pos (List.Vector.toList_length _)

variable {sb : StreamableBlock}

/-- **The walk's projection** of the row the archiver writes is the live one, as `STEP_NEW`. -/
theorem archivedResponse_eq (hcursor : sb.cursor = ⟨sb.block.height, sb.block.blockId⟩)
    (hprost : prost.decode (prost.encodeToVec (encodeBlock sb.block sb.finality)) =
      some (encodeBlock sb.block sb.finality)) :
    archivedResponse prost (sb.block.height, sb.block.blockId,
        prost.encodeToVec (encodeBlock sb.block sb.finality)) =
      some (streamableToResponse prost sb .stepNew) := by
  have hparent : bytes32 (encodeBlock sb.block sb.finality).parentId =
      sb.block.parentId.bytes.toList := bytes32_blockId _
  simp only [archivedResponse, hprost, Option.map_some, hparent, streamableToResponse, hcursor]
  rfl

/-- **The projection of `Fetch.Block`** has the live block and metadata, once the payload
decodes to what was encoded. -/
theorem archiveHitResponse_eq
    (hprost : prost.decode (prost.encodeToVec (encodeBlock sb.block sb.finality)) =
      some (encodeBlock sb.block sb.finality)) (step : ForkStep) :
    archiveHitResponse prost sb.block.height sb.block.blockId
        (prost.encodeToVec (encodeBlock sb.block sb.finality)) =
      ⟨(streamableToResponse prost sb step).block, (streamableToResponse prost sb step).metadata⟩ := by
  have hlen : (encodeBlock sb.block sb.finality).parentId.length = 32 := List.Vector.toList_length _
  simp only [archiveHitResponse, hprost, Option.bind_some, hlen, if_true, Option.getD_some,
    streamableToResponse]
  rfl

/-! ### The rows of an archive -/

/-- Every row has its id prefix. -/
def Written (a : BlockArchive) : Prop := ∀ x ∈ a.blocks.entries, 32 ≤ x.2.length

/-- An empty archive has no row without a prefix. -/
theorem written_empty : Written .empty := fun _ hx => (List.not_mem_nil hx).elim

/-- A row that is put has its prefix. -/
theorem Written.put {a : BlockArchive} (h : Written a) (height : ℕ) (id : BlockId)
    (payload : List UInt8) : Written (a.put height id payload) := by
  intro x hx
  rcases SortedMap.mem_insert.1 hx with rfl | ⟨hx, -⟩
  · rw [packValue, List.length_append, List.Vector.toList_length]
    omega
  · exact h x hx

/-- So do those of a batch. -/
theorem Written.putBatch {a : BlockArchive} (h : Written a) (items : List ArchiveRow) :
    Written (a.putBatch items) := by
  induction items generalizing a with
  | nil => exact h
  | cons i items ih => exact ih (h.put i.1 i.2.1 i.2.2)

/-- So does the row of an announcement. -/
theorem Written.archiveOutput {a : BlockArchive} (h : Written a) (o : Output) :
    Written (archiveOutput prost a o) := by
  cases o with
  | irreversible sb => exact h.put _ _ _
  | _ => exact h

/-- What `get` returns is a row of the table. -/
theorem exists_row_of_get {a : BlockArchive} {height : ℕ} {id : BlockId} {payload : List UInt8}
    (h : a.get height = .ok (some (id, payload))) :
    ∃ bytes, (height, bytes) ∈ a.blocks.entries ∧
      BlockArchive.rowOf (height, bytes) = some (height, id, payload) := by
  unfold BlockArchive.get at h
  cases hget : a.blocks.get? height with
  | none =>
    rw [hget] at h
    cases h
  | some bytes =>
    rw [hget] at h
    have hmap : (unpackValue height bytes).map some = .ok (some (id, payload)) := h
    refine ⟨bytes, SortedMap.get?_eq_some.1 hget, ?_⟩
    cases hun : unpackValue height bytes with
    | error e =>
      rw [hun] at hmap
      cases hmap
    | ok x =>
      rw [hun] at hmap
      obtain rfl := Option.some.inj (Except.ok.inj hmap)
      rw [BlockArchive.rowOf, hun]
      rfl

/-- **A walk over a range that fits yields the row's response**, once. -/
theorem archiveWalk_of_get {a : BlockArchive} (hw : Written a) {height lo hi : ℕ} {id : BlockId}
    {payload : List UInt8} {r : Response} (hget : a.get height = .ok (some (id, payload)))
    (hrow : archivedResponse prost (height, id, payload) = some r) (hlo : lo ≤ height)
    (hhi : height ≤ hi) (hfits : (a.blocks.range lo hi).length ≤ archiveWalkLimit) :
    ∃ rows, archiveWalk prost a lo hi = .ok rows ∧ r ∈ rows ∧
      ∀ r' ∈ rows, r'.metadata.map (·.num) = some height → r' = r := by
  obtain ⟨bytes, hmem, hunpack⟩ := exists_row_of_get hget
  have hread : rowResponse prost (height, bytes) = some r := by
    rw [rowResponse, hunpack, Option.bind_some, hrow]
  have hu : Unpacks a lo hi :=
    fun x hx => hw x (SortedMap.mem_range.1 (List.mem_of_mem_take hx)).1
  refine ⟨_, archiveWalk_eq hu, ?_, fun r' hr' hnum => ?_⟩
  · rw [List.take_of_length_le hfits]
    exact List.mem_filterMap.2 ⟨_, SortedMap.mem_range.2 ⟨hmem, hlo, hhi⟩, hread⟩
  · obtain ⟨x, hx, hxr⟩ := List.mem_filterMap.1 hr'
    obtain ⟨m, hm, hmx⟩ := num_rowResponse hxr
    have hxh : x.1 = height := by
      rw [hm, Option.map_some, Option.some.injEq] at hnum
      exact hmx.symm.trans hnum
    obtain rfl := SortedMap.eq_of_mem_of_key_eq
      (SortedMap.mem_range.1 (List.mem_of_mem_take hx)).1 hmem hxh
    exact (Option.some.inj (hread.symm.trans hxr)).symm

/-! ### What the engine announces -/

/-- The cursor of an `Irreversible` is the height and the id of its block. -/
def Addressed : Output → Prop
  | .irreversible s => s.cursor = ⟨s.block.height, s.block.blockId⟩
  | _ => True

/-- **The engine addresses its announcements**, whatever it is called with: the cursor of an
`Irreversible` is the height and id of the block it carries. -/
theorem addressed_step {e e' : ReorgEngine} {c : Call} {out : List Output}
    (hs : ReorgEngine.Step e c e' out) : ∀ o ∈ out, Addressed o :=
  hs.forall_out (fun f => f.forall_settled (fun _ _ => rfl) fun _ _ => trivial)
    fun _ _ _ _ _ => e.forall_attachOutputs (fun _ _ => trivial) trivial fun _ _ => trivial

namespace Feed

variable {w w' : Feed} {archive₀ : BlockArchive}

/-- What holds along a run: the rows have their prefix, and every cursor is right. -/
structure Sealed (w : Feed) : Prop where
  wf : w.engine.Wf
  written : Written w.archive
  queued : ∀ o ∈ w.queue, Addressed o
  seen : ∀ x ∈ w.seen, Addressed x.1

/-- The archiver starts with rows that have their prefix. -/
theorem sealed_init {config : ReorgConfig} {engine : ReorgEngine}
    (h : ReorgEngine.new config = some engine) (hw : Written archive₀) :
    (init engine archive₀).Sealed where
  wf := ReorgEngine.wf_new h
  written := hw
  queued := by simp [init]
  seen := by simp [init]

/-- **One step of the feed.** A call of the engine adds outputs whose cursors are right, and
a receive adds a row with its prefix or none. -/
theorem Sealed.step {a : FeedAction} (h : w.Sealed) (hs : w.step prost a = some w') :
    w'.Sealed := by
  cases moves_of_step hs with
  | call hcall =>
    have hstep := ReorgEngine.step_of_call h.wf hcall
    exact ⟨hstep.wf h.wf, h.written,
      List.forall_mem_append.2 ⟨h.queued, addressed_step hstep⟩, h.seen⟩
  | @recv o rest hq =>
    have hqueued := h.queued
    rw [hq, List.forall_mem_cons] at hqueued
    refine ⟨h.wf, h.written.archiveOutput o, hqueued.2, fun x hx => ?_⟩
    rcases List.mem_append.1 hx with hx | hx
    · exact h.seen x hx
    · obtain rfl := List.mem_singleton.1 hx
      exact hqueued.1
  | lagged hle =>
    refine ⟨h.wf, h.written, fun o ho => h.queued o (List.mem_of_mem_drop ho), fun x hx => ?_⟩
    rcases List.mem_append.1 hx with hx | hx
    · exact h.seen x hx
    · obtain ⟨o, ho, rfl⟩ := List.mem_map.1 hx
      exact h.queued o (List.mem_of_mem_take ho)

/-- The cursor of what the archiver is past. -/
theorem Sealed.cursor (h : w.Sealed) {received : Bool} (hsb : (sb, received) ∈ w.past) :
    sb.cursor = ⟨sb.block.height, sb.block.blockId⟩ := by
  obtain ⟨x, hx, hs⟩ := List.mem_filterMap.1 hsb
  obtain ⟨s, hann, heq⟩ := Option.map_eq_some_iff.1 hs
  obtain ⟨rfl, -⟩ := Prod.mk.inj heq
  have haddr := h.seen x hx
  cases hxo : x.1 with
  | irreversible t =>
    rw [hxo] at hann haddr
    obtain rfl := Option.some.inj hann
    exact haddr
  | _ =>
    rw [hxo] at hann
    cases hann

end Feed

/-- **Archived and live responses agree.**  In every run of the engine, the broadcast and the
archiver, over any rows an earlier run had written: for a block announced as `Irreversible`
and stored by the archiver, if its payload decodes to what was encoded, a walk over any
range of at most 5000 rows with its height returns, as the one response for that height, the
live one with `STEP_NEW` for its step, and `Fetch.Block` serves the live block and metadata
from the archive.  The live and the backfill projection of any block are identical. -/
theorem archived_agrees_live (prost : Prost) (config : ReorgConfig) (engine : ReorgEngine)
    (items : List ArchiveRow) (acts : List FeedAction) (w : Feed) (sb : StreamableBlock)
    (hnew : ReorgEngine.new config = some engine)
    (hrun : Run.exec (Feed.step prost) (Feed.init engine (BlockArchive.empty.putBatch items)) acts =
      some w)
    (hsb : (sb, true) ∈ w.past)
    (hprost : prost.decode (prost.encodeToVec (encodeBlock sb.block sb.finality)) =
      some (encodeBlock sb.block sb.finality)) :
    ∃ live, outputToResponse prost (.irreversible sb) = some live ∧
      (∀ lo hi, lo ≤ sb.block.height → sb.block.height ≤ hi →
        (w.archive.blocks.range lo hi).length ≤ archiveWalkLimit →
        ∃ rows, archiveWalk prost w.archive lo hi = .ok rows ∧
          { live with step := .stepNew } ∈ rows ∧
          ∀ r ∈ rows, r.metadata.map (·.num) = some sb.block.height →
            r = { live with step := .stepNew }) ∧
      fetchArchived prost w.archive sb.block.height = some ⟨live.block, live.metadata⟩ ∧
      ∀ s, outputToResponse prost (.new s) = some (streamableToResponse prost s .stepNew) ∧
        outputToResponse prost (.undo s) = some (streamableToResponse prost s .stepUndo) ∧
        outputToResponse prost (.irreversible s) =
          some (streamableToResponse prost s .stepFinal) := by
  have hok : w.Ok prost (BlockArchive.empty.putBatch items) :=
    Run.exec_preserves (fun _ _ _ h hs => h.step hs) (Feed.ok_init hnew _) hrun
  have hsealed : w.Sealed :=
    Run.exec_preserves (fun _ _ _ h hs => h.step hs)
      (Feed.sealed_init hnew (written_empty.putBatch items)) hrun
  have hget := hok.held sb hsb
  have hrow := archivedResponse_eq (hsealed.cursor hsb) hprost
  refine ⟨streamableToResponse prost sb .stepFinal, rfl, fun lo hi hlo hhi hfits => ?_, ?_,
    fun s => ⟨rfl, rfl, rfl⟩⟩
  · exact archiveWalk_of_get hsealed.written hget hrow hlo hhi hfits
  · rw [fetchArchived, show w.archive.get sb.block.height = _ from hget]
    exact congrArg some (archiveHitResponse_eq hprost .stepFinal)

/-- One block is accepted, announced and stored. -/
def oneStored : List FeedAction :=
  [.call (.accept (synthAt 1 0 0) []), .call (.setSolidifiedHead 1), .recv, .recv]

/-- Its announcement. -/
def announcedOne : StreamableBlock where
  step := .irreversible
  block := ReorgEngine.bufferedBlock 0 (synthAt 1 0 0) []
  cursor := ⟨1, synthId 1 0⟩
  finality := ⟨.finalized, some 1⟩

/-- The hypotheses hold of it, with the reader of its own payload. -/
theorem archived_agrees_live_oneStored :
    ∃ engine w prost, ReorgEngine.new ReorgConfig.default = some engine ∧
      Run.exec (Feed.step prost) (Feed.init engine (BlockArchive.empty.putBatch [])) oneStored =
        some w ∧ (announcedOne, true) ∈ w.past ∧
      ∃ live, outputToResponse prost (.irreversible announcedOne) = some live ∧
        (∀ lo hi, lo ≤ announcedOne.block.height → announcedOne.block.height ≤ hi →
          (w.archive.blocks.range lo hi).length ≤ archiveWalkLimit →
          ∃ rows, archiveWalk prost w.archive lo hi = .ok rows ∧
            { live with step := .stepNew } ∈ rows ∧
            ∀ r ∈ rows, r.metadata.map (·.num) = some announcedOne.block.height →
              r = { live with step := .stepNew }) ∧
        fetchArchived prost w.archive announcedOne.block.height =
          some ⟨live.block, live.metadata⟩ ∧
        ∀ s, outputToResponse prost (.new s) = some (streamableToResponse prost s .stepNew) ∧
          outputToResponse prost (.undo s) = some (streamableToResponse prost s .stepUndo) ∧
          outputToResponse prost (.irreversible s) =
            some (streamableToResponse prost s .stepFinal) :=
  ⟨_, _, prostOf [encodeBlock announcedOne.block announcedOne.finality], rfl, rfl, by decide,
    archived_agrees_live (prostOf [encodeBlock announcedOne.block announcedOne.finality])
      ReorgConfig.default _ [] oneStored _ announcedOne rfl rfl (by decide)
      (prostOf_decode (by decide))⟩

end Firehose
end Lightcycle
