/-
# The finality of a block on the wire

A response carries the finality of its block twice: in the payload, as the tier and the
solidified head (`encode_finality`), and in the metadata, as `lib_num`.  The tier is derived
in `BlockFinality::for_block` on the live, the cache and the oracle's path, written down as
`Finalized` for an `Irreversible`, and read back from disk on the archive paths.

An envelope is `Honest` when its tier is `Finalized` exactly if the head has reached the
height.  `for_block` makes honest envelopes, and that of an `Irreversible` is honest because
the engine's walk stops at the head.  A cached block answers under the height it is filed
at, which is its own (`Filed`), and an archived row is what some run of the archiver wrote
(`Archives`).  So on every path the two places agree, for a block above height 0
(`finality_agrees`); at height 0 an unknown head and the head 0 look alike in `lib_num`.
-/

import Lightcycle.Firehose.Fetch
import Lightcycle.Relayer.Complete

namespace Lightcycle

/-- The tier is `Finalized` exactly when the solidified head has reached the height. -/
def BlockFinality.Honest (f : BlockFinality) (height : ℕ) : Prop :=
  f.tier = .finalized ↔ ∃ s, f.solidifiedHead = some s ∧ height ≤ s

/-- The envelope that is derived for a block is honest, also for a block without
descendants. -/
theorem BlockFinality.honest_forBlock (height : ℕ) (head : Option ℕ) (descendant : Bool) :
    (forBlock height head descendant).Honest height := by
  unfold Honest forBlock FinalityTier.derive
  cases head with
  | none => cases descendant <;> simp
  | some s =>
    by_cases hs : height ≤ s
    · simp [hs]
    · cases descendant <;> simp [hs]

namespace Relayer

/-- The envelope of an output is honest. -/
def Output.Honest : Output → Prop
  | .new s => s.finality.Honest s.block.height
  | .undo s => s.finality.Honest s.block.height
  | .irreversible s => s.finality.Honest s.block.height
  | _ => True

namespace ReorgEngine

variable {e e' : ReorgEngine} {outs out : List Output} {c : Call}

/-- **Every envelope a call emits is honest**: it names the solidified head and is
`Finalized` exactly when that head has reached the block. -/
theorem Step.honest (hs : Step e c e' out) : ∀ o ∈ out, o.Honest := by
  refine hs.forall_out (fun f => f.forall_settled (fun b hb => ?_) fun _ _ => trivial)
    fun d txInfos kept orphans _ => ?_
  · obtain ⟨s, hs, hle⟩ := headReaches_of_mem_crossed hb
    exact iff_of_true rfl ⟨s, by rw [hs]; rfl, hle⟩
  · exact e.forall_attachOutputs (fun b _ => BlockFinality.honest_forBlock ..)
      (BlockFinality.honest_forBlock ..) fun _ _ => trivial

/-- **Every envelope the engine emits is honest.** -/
theorem honest_of_runFresh {config : ReorgConfig} {calls : List Call}
    (h : runFresh config calls = some (e, outs)) : ∀ o ∈ outs, o.Honest := by
  obtain ⟨e₀, hnew, hrun⟩ := Option.bind_eq_some_iff.1 h
  have key : e.Wf ∧ ∀ o ∈ [] ++ outs, o.Honest := by
    refine Run.run_invariant (P := fun e outs => e.Wf ∧ ∀ o ∈ outs, o.Honest)
      (fun s hist i s' out hP hc => ?_) ⟨wf_new hnew, fun _ ho => (List.not_mem_nil ho).elim⟩ hrun
    have hstep := step_of_call hP.1 hc
    exact ⟨hstep.wf hP.1, List.forall_mem_append.2 ⟨hP.2, hstep.honest⟩⟩
  exact key.2

end ReorgEngine
end Relayer

namespace Firehose

open Relayer Store

/-! ### Payload and metadata -/

/-- The payload is the encoding of a block whose solidified head is the `lib_num`, and which
is `FINALIZED`, above height 0, exactly when `lib_num` has reached its height. -/
def FinalityAgrees (prost : Prost) (block : Option Any) (metadata : Option BlockMetadata) : Prop :=
  ∃ pb f m, block = some ⟨blockTypeUrl, prost.encodeToVec pb⟩ ∧ pb.finality = some f ∧
    metadata = some m ∧ f.solidifiedHeadNumber = m.libNum ∧
    (1 ≤ m.num → (f.tier = Pb.FinalityTier.finalized.toI32 ↔ m.num ≤ m.libNum))

/-- The tier `Finalized` has a wire number of its own. -/
theorem toI32_encodeFinalityTier (t : FinalityTier) :
    (encodeFinalityTier t).toI32 = Pb.FinalityTier.finalized.toI32 ↔ t = .finalized := by
  cases t <;> decide

/-- On the wire an honest envelope is still honest, above height 0. -/
theorem tier_encodeFinality_iff {f : BlockFinality} {height : ℕ} (h : f.Honest height)
    (hpos : 1 ≤ height) :
    (encodeFinality f).tier = Pb.FinalityTier.finalized.toI32 ↔
      height ≤ f.solidifiedHead.getD 0 := by
  refine (toI32_encodeFinalityTier f.tier).trans (h.trans ?_)
  cases hs : f.solidifiedHead with
  | none =>
    refine iff_of_false (fun ⟨_, h, _⟩ => by cases h) fun hle => ?_
    rw [Option.getD_none] at hle
    omega
  | some s => simp

variable {prost : Prost}

/-- A block with an honest envelope, and metadata with its height and head. -/
theorem FinalityAgrees.of_honest {b : BufferedBlock} {f : BlockFinality} (h : f.Honest b.height)
    {m : BlockMetadata} (hnum : m.num = b.height) (hlib : m.libNum = f.solidifiedHead.getD 0) :
    FinalityAgrees prost (some ⟨blockTypeUrl, prost.encodeToVec (encodeBlock b f)⟩) (some m) := by
  refine ⟨encodeBlock b f, encodeFinality f, m, rfl, rfl, rfl, hlib.symm, fun hpos => ?_⟩
  rw [hnum] at hpos ⊢
  rw [hlib]
  exact tier_encodeFinality_iff h hpos

/-- A live response agrees with itself on finality. -/
theorem agrees_streamableToResponse {sb : StreamableBlock} (h : sb.finality.Honest sb.block.height)
    (step : ForkStep) : FinalityAgrees prost (streamableToResponse prost sb step).block
      (streamableToResponse prost sb step).metadata := .of_honest h rfl rfl

/-- So does what the oracle's answer becomes. -/
theorem agrees_oracleResponse {b : BufferedBlock} {f : BlockFinality} (h : f.Honest b.height) :
    FinalityAgrees prost (oracleResponse prost b f).block (oracleResponse prost b f).metadata :=
  .of_honest h rfl rfl

/-- The live projection of an output. -/
theorem agrees_outputToResponse {o : Output} (ho : o.Honest) {r : Response}
    (hr : outputToResponse prost o = some r) : FinalityAgrees prost r.block r.metadata := by
  cases o with
  | new s | undo s | irreversible s =>
    obtain rfl := Option.some.inj hr
    exact .of_honest ho rfl rfl
  | _ => cases hr

/-! ### What `Fetch.Block` answers -/

/-- Every block of the cache is filed under its own height. -/
def Filed (c : BlockCache BufferedBlock) : Prop := ∀ x ∈ c.byHeight.entries, x.2.2.height = x.1

/-- An insertion files its block under its height and id. -/
theorem Filed.insert {c : BlockCache BufferedBlock} (h : Filed c) (hwf : c.Wf) (b : BufferedBlock) :
    Filed (c.insert b.height b.blockId b).1 := by
  intro x hx
  rcases BlockCache.of_mem_insert hwf hx with rfl | ⟨hx, -⟩
  · rfl
  · exact h x hx

/-- So does feeding an output. -/
theorem Filed.feed {c : BlockCache BufferedBlock} (h : Filed c) (hwf : c.Wf) (o : Output) :
    Filed (feedCache c o) := by
  cases o with
  | new s => exact h.insert hwf s.block
  | undo s => exact fun x hx => h x (BlockCache.of_mem_removeById hx)
  | _ => exact h

/-- What a call has answered by now has the envelope of a solidified head. -/
def Fetch.Honest : Fetch → Prop
  | .answered (some (b, f)) => f.Honest b.height
  | _ => True

namespace Shared

/-- The cache is in order, and the answers under way are honest. -/
structure Honest (s : Shared) : Prop where
  wf : s.pipeline.cache.Wf
  filed : Filed s.pipeline.cache
  calls : ∀ call ∈ s.calls, call.Honest

/-- The shared state starts honest. -/
theorem Honest.init {config : ReorgConfig} {capacity : ℕ} {archive : Option BlockArchive}
    {upstream : ℕ → Option DecodedBlock} {s : Shared}
    (h : Shared.init config capacity archive upstream = some s) : s.Honest := by
  obtain ⟨p, hp, rfl⟩ := Option.map_eq_some_iff.1 h
  obtain ⟨engine, -, hrest⟩ := Option.bind_eq_some_iff.1 hp
  obtain ⟨cache, hcache, rfl⟩ := Option.map_eq_some_iff.1 hrest
  refine ⟨BlockCache.wf_new hcache, ?_, fun _ hc => (List.not_mem_nil hc).elim⟩
  obtain ⟨-, rfl⟩ := BlockCache.eq_of_new hcache
  exact fun _ hx => (List.not_mem_nil hx).elim

variable {s s' : Shared} {m : Move}

/-- The answers under way after a step: those of before, a question, or the answer of the
upstream. -/
theorem calls_step (hs : s.step m = some s') {call : Fetch} (hc : call ∈ s'.calls) :
    call ∈ s.calls ∨ (∃ height, call = .asked height) ∨
      ∃ height head, call = .answered ((s.upstream height).map (grpcAnswer head)) := by
  cases moves_of_step hs with
  | @miss height hprobe =>
    rcases List.mem_append.1 hc with hc | hc
    · exact .inl hc
    · exact .inr (.inl ⟨height, List.mem_singleton.1 hc⟩)
  | answer head hcall =>
    rcases List.mem_or_eq_of_mem_set hc with hc | hc
    · exact .inl hc
    · exact .inr (.inr ⟨_, _, hc⟩)
  | fail hcall => exact .inl (List.mem_of_mem_eraseIdx hc)
  | populate hcall => exact .inl (List.mem_of_mem_eraseIdx hc)
  | _ => exact .inl hc

/-- **One step of the relayer, the upstream or a call** keeps every envelope honest, in
flight, in the hub and in the answers that are still to be written. -/
theorem Honest.step (h : s.Honest) (hs : s.step m = some s') : s'.Honest := by
  refine ⟨wf_step h.wf hs, ?_, fun call hc => ?_⟩
  · rcases step_cases hs with ⟨hcache, -, -⟩ | ⟨o, os, -, -, hcache, -⟩ | ⟨b, -, hcache, -⟩
    · rw [hcache]
      exact h.filed
    · rw [hcache]
      exact h.filed.feed h.wf o
    · rw [hcache]
      exact h.filed.insert h.wf b
  · rcases calls_step hs hc with hc | ⟨height, rfl⟩ | ⟨height, head, rfl⟩
    · exact h.calls call hc
    · trivial
    · cases s.upstream height with
      | none => trivial
      | some decoded => exact BlockFinality.honest_forBlock ..

/-- What the caching oracle answers at a height: a hit, or what a call brought back. -/
def Answers (s : Shared) (height : ℕ) (b : BufferedBlock) (f : BlockFinality) : Prop :=
  probe s.pipeline.cache s.pipeline.head height = some (b, f) ∨
    Fetch.answered (some (b, f)) ∈ s.calls

/-- What the oracle answers is honest. -/
theorem Honest.answers (h : s.Honest) {height : ℕ} {b : BufferedBlock} {f : BlockFinality}
    (ha : s.Answers height b f) : f.Honest b.height := by
  rcases ha with hhit | hcall
  · obtain ⟨⟨id, v⟩, hget, heq⟩ := Option.map_eq_some_iff.1 hhit
    obtain ⟨rfl, rfl⟩ := Prod.mk.inj heq
    have hheight : v.height = height := h.filed _ (SortedMap.get?_eq_some.1 hget)
    rw [hheight]
    exact BlockFinality.honest_forBlock ..
  · exact h.calls _ hcall

end Shared

/-! ### The rows of the archiver -/

/-- The row the archiver writes for a message. -/
def rowFor (prost : Prost) (sb : StreamableBlock) : ℕ × List UInt8 :=
  (sb.block.height,
    packValue sb.block.blockId (prost.encodeToVec (encodeBlock sb.block sb.finality)))

/-- Every row is that of one of the messages, all of them with honest envelopes. -/
structure RowsFrom (prost : Prost) (archive : BlockArchive) (stored : List StreamableBlock) :
    Prop where
  rows : ∀ x ∈ archive.blocks.entries, ∃ sb ∈ stored, x = rowFor prost sb
  honest : ∀ sb ∈ stored, sb.finality.Honest sb.block.height

/-- The archiver adds the row of one announcement. -/
theorem RowsFrom.archiveOutput {archive : BlockArchive} {stored : List StreamableBlock} {o : Output}
    (h : RowsFrom prost archive stored) (ho : o.Honest) :
    RowsFrom prost (archiveOutput prost archive o) (stored ++ (announcement o).toList) := by
  cases o with
  | irreversible sb =>
    refine ⟨fun x hx => ?_, fun t ht => ?_⟩
    · rcases SortedMap.mem_insert.1 hx with rfl | ⟨hx, -⟩
      · exact ⟨sb, List.mem_append_right _ (List.mem_singleton_self sb), rfl⟩
      · obtain ⟨t, ht, rfl⟩ := h.rows x hx
        exact ⟨t, List.mem_append_left _ ht, rfl⟩
    · rcases List.mem_append.1 ht with ht | ht
      · exact h.honest t ht
      · obtain rfl := List.mem_singleton.1 ht
        exact ho
  | _ => exact (List.append_nil stored).symm ▸ h

namespace Feed

/-- The messages among outputs that were received. -/
def receivedOf (seen : List (Output × Bool)) : List StreamableBlock :=
  seen.filterMap fun x => if x.2 then announcement x.1 else none

/-- The announcements received are those of either part. -/
theorem receivedOf_append (seen seen' : List (Output × Bool)) :
    receivedOf (seen ++ seen') = receivedOf seen ++ receivedOf seen' := List.filterMap_append

/-- An output that was received counts when it is an announcement. -/
theorem receivedOf_received (o : Output) : receivedOf [(o, true)] = (announcement o).toList := by
  cases h : announcement o <;> simp [receivedOf, h]

/-- Outputs that were skipped do not count. -/
theorem receivedOf_skipped (os : List Output) : receivedOf (os.map (·, false)) = [] := by
  simp [receivedOf]

/-- The messages the archiver received and wrote. -/
def received (w : Feed) : List StreamableBlock := receivedOf w.seen

/-- What holds along a run over an archive with rows from `stored`. -/
structure Honest (prost : Prost) (stored : List StreamableBlock) (w : Feed) : Prop where
  wf : w.engine.Wf
  queued : ∀ o ∈ w.queue, o.Honest
  rows : RowsFrom prost w.archive (stored ++ w.received)

/-- The archiver starts honest, over rows that announcements left. -/
theorem Honest.init {config : ReorgConfig} {engine : ReorgEngine} {archive : BlockArchive}
    {stored : List StreamableBlock} (hnew : ReorgEngine.new config = some engine)
    (h : RowsFrom prost archive stored) : (Feed.init engine archive).Honest prost stored where
  wf := ReorgEngine.wf_new hnew
  queued _ ho := (List.not_mem_nil ho).elim
  rows := (List.append_nil stored).symm ▸ h

/-- **One step of the engine or of the archiver** keeps the outputs honest and the rows
those of honest announcements. -/
theorem Honest.step {stored : List StreamableBlock} {w w' : Feed} {a : FeedAction}
    (h : w.Honest prost stored) (hs : w.step prost a = some w') : w'.Honest prost stored := by
  cases moves_of_step hs with
  | call hcall =>
    have hstep := ReorgEngine.step_of_call h.wf hcall
    exact ⟨hstep.wf h.wf, List.forall_mem_append.2 ⟨h.queued, hstep.honest⟩, h.rows⟩
  | recv hq =>
    have hqueued := h.queued
    rw [hq, List.forall_mem_cons] at hqueued
    refine ⟨h.wf, hqueued.2, ?_⟩
    rw [received, receivedOf_append, receivedOf_received, ← List.append_assoc]
    exact h.rows.archiveOutput hqueued.1
  | lagged hle =>
    refine ⟨h.wf, fun o ho => h.queued o (List.mem_of_mem_drop ho), ?_⟩
    rw [received, receivedOf_append, receivedOf_skipped, List.append_nil]
    exact h.rows

end Feed

/-- The archives that the archiver leaves, from an empty one, over any number of runs, each
with a fresh engine; `stored` are the messages it wrote. -/
inductive Archives (prost : Prost) : BlockArchive → List StreamableBlock → Prop
  | empty : Archives prost .empty []
  | run {archive : BlockArchive} {stored : List StreamableBlock} {config : ReorgConfig}
      {engine : ReorgEngine} {acts : List FeedAction} {w : Feed}
      (h : Archives prost archive stored) (hnew : ReorgEngine.new config = some engine)
      (hrun : Run.exec (Feed.step prost) (Feed.init engine archive) acts = some w) :
      Archives prost w.archive (stored ++ w.received)

/-- Rows that were written by an archiver are those of announcements. -/
theorem Archives.rowsFrom {archive : BlockArchive} {stored : List StreamableBlock}
    (h : Archives prost archive stored) : RowsFrom prost archive stored := by
  induction h with
  | empty => exact ⟨fun _ hx => (List.not_mem_nil hx).elim, fun _ hx => (List.not_mem_nil hx).elim⟩
  | run _ hnew hrun ih =>
    have hhonest := Run.exec_preserves (I := Feed.Honest prost _) (fun _ _ _ h hs => h.step hs)
      (Feed.Honest.init hnew ih) hrun
    exact hhonest.rows

/-- prost reads back the block of a message. -/
def RoundTrips (prost : Prost) (sb : StreamableBlock) : Prop :=
  prost.decode (prost.encodeToVec (encodeBlock sb.block sb.finality)) =
    some (encodeBlock sb.block sb.finality)

/-- A row is unpacked to the block it was written for. -/
theorem unpack_rowFor (sb : StreamableBlock) :
    BlockArchive.rowOf (rowFor prost sb) = some (sb.block.height, sb.block.blockId,
      prost.encodeToVec (encodeBlock sb.block sb.finality)) := by
  unfold BlockArchive.rowOf rowFor
  rw [unpackValue_packValue]
  rfl

/-- The row of an honest announcement agrees with itself on finality when a walk serves it.
-/
theorem agrees_archivedResponse {sb : StreamableBlock} (h : sb.finality.Honest sb.block.height)
    (hprost : RoundTrips prost sb) {r : Response}
    (hr : rowResponse prost (rowFor prost sb) = some r) : FinalityAgrees prost r.block r.metadata := by
  rw [rowResponse, unpack_rowFor, Option.bind_some, archivedResponse, hprost, Option.map_some] at hr
  obtain rfl := Option.some.inj hr
  exact .of_honest h rfl rfl

/-- So it does when `Fetch.Block` serves it. -/
theorem agrees_archiveHitResponse {sb : StreamableBlock} (h : sb.finality.Honest sb.block.height)
    (hprost : RoundTrips prost sb) :
    FinalityAgrees prost
      (archiveHitResponse prost sb.block.height sb.block.blockId
        (prost.encodeToVec (encodeBlock sb.block sb.finality))).block
      (archiveHitResponse prost sb.block.height sb.block.blockId
        (prost.encodeToVec (encodeBlock sb.block sb.finality))).metadata := by
  unfold archiveHitResponse
  rw [hprost]
  exact .of_honest h rfl rfl

section archive

variable {archive : BlockArchive} {stored : List StreamableBlock}

/-- The archive's part of a backfill. -/
theorem agrees_archiveWalk (h : RowsFrom prost archive stored)
    (hprost : ∀ sb ∈ stored, RoundTrips prost sb) {lo hi : ℕ} {rows : List Response}
    (hwalk : archiveWalk prost archive lo hi = .ok rows) :
    ∀ r ∈ rows, FinalityAgrees prost r.block r.metadata := by
  intro r hr
  rw [archiveWalk_eq (unpacks_of_ok hwalk)] at hwalk
  obtain rfl := Except.ok.inj hwalk
  obtain ⟨x, hx, hxr⟩ := List.mem_filterMap.1 hr
  obtain ⟨sb, hsb, rfl⟩ := h.rows x (SortedMap.mem_range.1 (List.mem_of_mem_take hx)).1
  exact agrees_archivedResponse (h.honest sb hsb) (hprost sb hsb) hxr

/-- A hit of the archive. -/
theorem agrees_fetchArchived (h : RowsFrom prost archive stored)
    (hprost : ∀ sb ∈ stored, RoundTrips prost sb) {height : ℕ} {r : SingleBlockResponse}
    (hr : fetchArchived prost archive height = some r) :
    FinalityAgrees prost r.block r.metadata := by
  unfold fetchArchived at hr
  match hget : archive.get height with
  | .ok (some (id, payload)) =>
    rw [hget] at hr
    obtain rfl := Option.some.inj hr
    obtain ⟨bytes, hmem, hrow⟩ := exists_row_of_get hget
    obtain ⟨sb, hsb, heq⟩ := h.rows _ hmem
    rw [heq, unpack_rowFor] at hrow
    obtain ⟨hheight, hrest⟩ := Prod.mk.inj (Option.some.inj hrow)
    obtain ⟨rfl, rfl⟩ := Prod.mk.inj hrest
    rw [← hheight]
    exact agrees_archiveHitResponse (h.honest sb hsb) (hprost sb hsb)
  | .ok none =>
    rw [hget] at hr
    cases hr
  | .error e =>
    rw [hget] at hr
    cases hr

/-- **The finality on the wire is consistent.**  In the live responses of any run of the
engine, in those of a backfill from the cache and from an archive that runs of the archiver
left, and in what `Fetch.Block` answers from such an archive, from the cache or from the
upstream while the relayer and other calls run, the payload and the metadata agree on the
finality of the block. -/
theorem finality_agrees (prost : Prost) {archive : BlockArchive} {stored : List StreamableBlock}
    (harchive : Archives prost archive stored) (hprost : ∀ sb ∈ stored, RoundTrips prost sb) :
    (∀ config calls e outs, runFresh config calls = some (e, outs) → ∀ o ∈ outs, ∀ r,
      outputToResponse prost o = some r → FinalityAgrees prost r.block r.metadata) ∧
    (∀ head b, FinalityAgrees prost (cachedResponse prost head b).block
      (cachedResponse prost head b).metadata) ∧
    (∀ lo hi rows, archiveWalk prost archive lo hi = .ok rows → ∀ r ∈ rows,
      FinalityAgrees prost r.block r.metadata) ∧
    ∀ config capacity disk upstream s₀ moves s,
      Shared.init config capacity disk upstream = some s₀ →
      Run.exec Shared.step s₀ moves = some s →
      ∀ oracle, (∀ height b f, oracle height = .ok (some (b, f)) → s.Answers height b f) →
      ∀ attached, (∀ a, attached = some a → a = archive) →
      ∀ req r, FetchService.block prost attached oracle req = .ok r →
        FinalityAgrees prost r.block r.metadata := by
  have hrows := harchive.rowsFrom
  refine ⟨?_, ?_, ?_, ?_⟩
  · intro config calls e outs hrun o ho r hr
    exact agrees_outputToResponse (ReorgEngine.honest_of_runFresh hrun o ho) hr
  · intro head b
    exact agrees_streamableToResponse (BlockFinality.honest_forBlock ..) .stepNew
  · intro lo hi rows hwalk
    exact agrees_archiveWalk hrows hprost hwalk
  · intro config capacity disk upstream s₀ moves s hinit hrun oracle horacle attached hattached
      req r hr
    have hs : s.Honest := Run.exec_preserves (fun _ _ _ h hs => h.step hs) (.init hinit) hrun
    rcases FetchService.block_eq_ok hr with ⟨a, height, ha, hhit⟩ | ⟨height, b, f, hb, rfl⟩
    · rw [hattached a ha] at hhit
      exact agrees_fetchArchived hrows hprost hhit
    · exact agrees_oracleResponse (hs.answers (horacle height b f hb))

/-- A run of the archiver stores one block; a walk returns it, and so did the live stream. -/
theorem finality_agrees_oneStored :
    ∃ prost archive stored, Archives prost archive stored ∧ stored = [announcedOne] ∧
      (∃ rows, archiveWalk prost archive 1 1 = .ok rows ∧
        streamableToResponse prost announcedOne .stepNew ∈ rows ∧
        FinalityAgrees prost (streamableToResponse prost announcedOne .stepNew).block
          (streamableToResponse prost announcedOne .stepNew).metadata) ∧
      ∃ e outs r, runFresh ReorgConfig.default [.accept (synthAt 1 0 0) [], .setSolidifiedHead 1] =
          some (e, outs) ∧ .irreversible announcedOne ∈ outs ∧
        outputToResponse prost (.irreversible announcedOne) = some r ∧
        FinalityAgrees prost r.block r.metadata := by
  have hruns := @Archives.run
    (prostOf [encodeBlock announcedOne.block announcedOne.finality]) .empty [] ReorgConfig.default _
    oneStored _ .empty rfl rfl
  have hround : ∀ sb ∈ [announcedOne],
      RoundTrips (prostOf [encodeBlock announcedOne.block announcedOne.finality]) sb := by
    intro sb hsb
    obtain rfl := List.mem_singleton.1 hsb
    exact prostOf_decode (by decide)
  obtain ⟨hlive, -, hwalk, -⟩ := finality_agrees _ hruns hround
  refine ⟨_, _, _, hruns, rfl, ?_, ?_⟩
  · obtain ⟨rows, hrows, hmem, -⟩ := archiveWalk_of_get (written_empty.put _ _ _)
      (get_put_self .empty 1 announcedOne.block.blockId _)
      (archivedResponse_eq rfl (hround _ (List.mem_singleton_self _))) (show 1 ≤ 1 from le_rfl)
      (show 1 ≤ 1 from le_rfl) (by decide)
    exact ⟨rows, hrows, hmem, hwalk 1 1 rows hrows _ hmem⟩
  · obtain ⟨e, outs, hrun, hmem⟩ : ∃ e outs, runFresh ReorgConfig.default
        [.accept (synthAt 1 0 0) [], .setSolidifiedHead 1] = some (e, outs) ∧
        .irreversible announcedOne ∈ outs := ⟨_, _, rfl, by decide⟩
    exact ⟨e, outs, _, hrun, hmem, rfl, hlive _ _ e outs hrun _ hmem _ rfl⟩

end archive

end Firehose
end Lightcycle
