/-
# Resuming from any response

A response carries its place twice: in the cursor, 40 bytes as hexadecimal text, and in
the metadata, as `num` and `id`.  The cursor is built in four places: by the engine for its
three kinds of output, which the live stream passes on, by the handler for a cached block,
and by the archive walk for a row.  In each it is the height of the block and its id, and
the height is a `u64`, because it comes from a decoded header or is a key of the archive's
table (`Response.Placed`).

`Process` is the whole program: the relayer and the calls of `Fetch.Block` (`Shared`) with
the calls of `Stream.Blocks` of any number of consumers, all in any order.  Whatever a call
delivers is placed (`Process.Placed.delivers`), so that its cursor is read back as written
and starts the next call one above `num` (`cursors_resume`).  What the handler answers
`InvalidArgument` to is exactly a cursor that is not the text of 40 bytes
(`answers_invalidArgument_iff`).  So a consumer that comes back is let in
(`World.reconnect_subscribes`).
-/

import Lightcycle.Firehose.Interference
import Lightcycle.Firehose.WireFinality

namespace Lightcycle
namespace Relayer

/-! ### The cursors of the engine -/

/-- The cursor is that of the block, at a height that fits it. -/
structure StreamableBlock.Placed (s : StreamableBlock) : Prop where
  cursor : s.cursor = ⟨s.block.height, s.block.blockId⟩
  height_lt : s.block.height < 2 ^ 64

/-- The block of an output is placed, if it has one. -/
inductive Output.Placed : Output → Prop
  | new {s : StreamableBlock} (h : s.Placed) : Placed (.new s)
  | undo {s : StreamableBlock} (h : s.Placed) : Placed (.undo s)
  | irreversible {s : StreamableBlock} (h : s.Placed) : Placed (.irreversible s)
  | forkObserved (height : ℕ) (kept : BlockId) (orphaned : List BlockId) :
    Placed (.forkObserved height kept orphaned)
  | forkResolved (height head : ℕ) (tip : BlockId) (orphaned : List BlockId) :
    Placed (.forkResolved height head tip orphaned)

namespace ReorgEngine

variable {e e' : ReorgEngine} {c : Call} {out : List Output}

/-- Every buffered height is a `u64`. -/
def HeightsFit (e : ReorgEngine) : Prop := ∀ b ∈ e.canonical, b.height < 2 ^ 64

/-- A fresh engine has buffered nothing. -/
theorem heightsFit_new {config : ReorgConfig} (h : ReorgEngine.new config = some e) :
    e.HeightsFit := by
  obtain rfl := eq_of_new h
  exact fun _ hb => (List.not_mem_nil hb).elim

/-- Settling only drops blocks. -/
theorem HeightsFit.settle (h : e.HeightsFit) (out : List Output) :
    (e.settle out).1.HeightsFit := by
  rw [settle_eq]
  exact fun b hb => h b (List.mem_of_mem_drop hb)

/-- What settling emits is of buffered blocks, each at its cursor. -/
theorem HeightsFit.settled (h : e.HeightsFit) : ∀ o ∈ e.marks ++ e.resolutions, o.Placed :=
  e.forall_settled (fun b hb => .irreversible ⟨rfl, h b (e.crossed_sublist.subset hb)⟩)
    fun _ _ => .forkResolved ..

/-- A block that attaches has a `u64` for its height. -/
theorem HeightsFit.attached {d : DecodedBlock} {kept orphans : List BufferedBlock}
    (h : e.HeightsFit) (ha : Attaches e d kept orphans) (txInfos : List DecodedTxInfo) :
    (e.attached kept orphans d txInfos).HeightsFit := by
  intro b hb
  rcases List.mem_append.1 hb with hb | hb
  · exact h b (by rw [ha.split]; exact List.mem_append_left _ hb)
  · obtain rfl := List.mem_singleton.1 hb
    exact d.header.height_lt

/-- What is emitted for it is placed. -/
theorem HeightsFit.attachOutputs {d : DecodedBlock} {kept orphans : List BufferedBlock}
    (h : e.HeightsFit) (ha : Attaches e d kept orphans) (txInfos : List DecodedTxInfo) :
    ∀ o ∈ e.attachOutputs orphans d txInfos, o.Placed :=
  e.forall_attachOutputs
    (fun b hb => .undo ⟨rfl, h b (by rw [ha.split]; exact List.mem_append_right _ hb)⟩)
    (.new ⟨rfl, d.header.height_lt⟩) fun _ _ => .forkObserved ..

/-- **Every block a call emits is placed**: it is a buffered block, its cursor is its height
and id, and its height is a `u64`. -/
theorem Step.placed (hs : Step e c e' out) (h : e.HeightsFit) :
    e'.HeightsFit ∧ ∀ o ∈ out, o.Placed := by
  cases hs with
  | refused => exact ⟨h, fun _ ho => (List.not_mem_nil ho).elim⟩
  | stale => exact ⟨h, fun _ ho => (List.not_mem_nil ho).elim⟩
  | attached d txInfos kept orphans ha =>
    have hfit := h.attached ha txInfos
    refine ⟨hfit.settle _, ?_⟩
    rw [attach_snd]
    exact List.forall_mem_append.2 ⟨h.attachOutputs ha txInfos, hfit.settled⟩
  | head s hs =>
    have hfit : (e.withHead s).HeightsFit := h
    refine ⟨hfit.settle _, ?_⟩
    rw [settle_nil_snd]
    exact hfit.settled

end ReorgEngine
end Relayer

namespace Firehose

open Relayer Store

variable {prost : Prost}

/-! ### The four places -/

/-- The text is that of the cursor of the block that the metadata is about. -/
structure BlockMetadata.PlacedAt (m : BlockMetadata) (c : Cursor) (text : List UInt8) : Prop where
  text : text = hexEncode c.toBytes
  num : m.num = c.height
  id : m.id = BlockId.hex c.blockId

/-- The cursor of the response is that of its block, at a height that fits it. -/
def Response.Placed (r : Response) : Prop :=
  ∃ m c, r.metadata = some m ∧ m.PlacedAt c r.cursor ∧ c.height < 2 ^ 64

/-- The response for an output that is placed is placed, under any step. -/
theorem placed_streamableToResponse {sb : StreamableBlock} (h : sb.Placed) (step : ForkStep) :
    (streamableToResponse prost sb step).Placed := by
  refine ⟨_, ⟨sb.block.height, sb.block.blockId⟩, rfl, ⟨?_, rfl, rfl⟩, h.height_lt⟩
  rw [← h.cursor]
  rfl

/-- The live path. -/
theorem placed_outputToResponse {o : Output} (ho : o.Placed) {r : Response}
    (hr : outputToResponse prost o = some r) : r.Placed := by
  cases ho with
  | new h | undo h | irreversible h =>
    obtain rfl := Option.some.inj hr
    exact placed_streamableToResponse h _
  | _ => cases hr

/-- So is what the live stream delivers. -/
theorem placed_liveItem {o : Output} (ho : o.Placed) {last : Option ℕ} {r : Response}
    (hr : liveItem prost last (.ok o) = some (.ok r)) : r.Placed := by
  obtain ⟨response, hresponse, hitem⟩ := Option.bind_eq_some_iff.1 hr
  have hsame : response = r := by
    split at hitem
    · split_ifs at hitem
      exact Except.ok.inj (Option.some.inj hitem)
    · exact Except.ok.inj (Option.some.inj hitem)
  exact hsame ▸ placed_outputToResponse ho hresponse

/-- So is the response for a cached block. -/
theorem placed_cachedResponse {b : BufferedBlock} (hb : b.height < 2 ^ 64) (head : Option ℕ) :
    (cachedResponse prost head b).Placed :=
  placed_streamableToResponse ⟨rfl, hb⟩ .stepNew

/-- The keys of the table are `u64`, the type redb gives them. -/
def U64Keys (a : BlockArchive) : Prop := ∀ x ∈ a.blocks.entries, x.1 < 2 ^ 64

/-- The archive's rows are placed, since their keys are heights. -/
theorem placed_archiveWalk {a : BlockArchive} (ha : U64Keys a) {lo hi : ℕ} {rows : List Response}
    (hwalk : archiveWalk prost a lo hi = .ok rows) : ∀ r ∈ rows, r.Placed := by
  intro r hr
  rw [archiveWalk_eq (unpacks_of_ok hwalk)] at hwalk
  obtain rfl := Except.ok.inj hwalk
  obtain ⟨x, hx, hxr⟩ := List.mem_filterMap.1 hr
  have hlt := ha x (SortedMap.mem_range.1 (List.mem_of_mem_take hx)).1
  obtain ⟨row, hrow, hres⟩ := Option.bind_eq_some_iff.1 hxr
  obtain ⟨p, -, rfl⟩ := Option.map_eq_some_iff.1 hrow
  obtain ⟨pb, -, rfl⟩ := Option.map_eq_some_iff.1 hres
  exact ⟨_, ⟨x.1, p.1⟩, rfl, ⟨rfl, rfl, rfl⟩, hlt⟩

/-- So is the part of a backfill that the archive serves. -/
theorem placed_archiveRows {archive : Option BlockArchive} (ha : ∀ a, archive = some a → U64Keys a)
    {h : ℕ} {span : Option ℕ} {rows : List Response}
    (hrows : archiveRows prost archive h span = .ok rows) : ∀ r ∈ rows, r.Placed := by
  unfold archiveRows at hrows
  split at hrows
  · split at hrows
    · rename_i hwalk
      obtain rfl := Except.ok.inj hrows
      exact placed_archiveWalk (ha _ rfl) hwalk
    · cases hrows
  · obtain rfl := Except.ok.inj hrows
    exact fun _ hr => (List.not_mem_nil hr).elim

/-- The cached part of a backfill is of blocks at heights that are `u64`. -/
theorem height_lt_of_cacheRows {cache : BlockCache BufferedBlock} (hk : Keyed cache)
    {hasArchive : Bool} {window : Option (ℕ × ℕ)} {h : ℕ} {archived : List Response}
    {cached : List BufferedBlock}
    (hrows : cacheRows cache hasArchive window h archived = .ok cached) :
    ∀ b ∈ cached, b.height < 2 ^ 64 := by
  cases window with
  | none =>
    simp only [cacheRows] at hrows
    split_ifs at hrows
    obtain rfl := Except.ok.inj hrows
    exact fun _ hb => (List.not_mem_nil hb).elim
  | some w =>
    obtain ⟨-, -, -, rfl⟩ := cacheRows_some_ok_iff.1 hrows
    intro b hb
    obtain ⟨k, -, hstored⟩ := List.mem_filterMap.1 hb
    obtain ⟨x, hget, rfl⟩ := Option.map_eq_some_iff.1 hstored
    obtain ⟨hheight, hlt⟩ := hk _ (SortedMap.get?_eq_some.1 hget)
    exact hheight ▸ hlt

/-! ### The keys of the archive -/

/-- The archiver files a block at its height, so the keys stay `u64`. -/
theorem U64Keys.archiveOutput {a : BlockArchive} (h : U64Keys a) {o : Output} (ho : o.Placed) :
    U64Keys (archiveOutput prost a o) := by
  cases ho with
  | irreversible hs =>
    intro x hx
    rcases SortedMap.mem_insert.1 hx with rfl | ⟨hx, -⟩
    · exact hs.height_lt
    · exact h x hx
  | _ => exact h

/-- What holds along a run of the archiver. -/
structure Feed.Placed (w : Feed) : Prop where
  wf : w.engine.Wf
  heights : w.engine.HeightsFit
  queued : ∀ o ∈ w.queue, o.Placed
  archive : U64Keys w.archive

/-- **One step of the engine or of the archiver** keeps the engine's heights and the
archive's keys within `u64`. -/
theorem Feed.Placed.step {w w' : Feed} {x : FeedAction} (h : w.Placed)
    (hs : w.step prost x = some w') : w'.Placed := by
  cases Feed.moves_of_step hs with
  | call hcall =>
    have hstep := ReorgEngine.step_of_call h.wf hcall
    obtain ⟨hheights, hout⟩ := hstep.placed h.heights
    exact ⟨hstep.wf h.wf, hheights, List.forall_mem_append.2 ⟨h.queued, hout⟩, h.archive⟩
  | recv hq =>
    have hqueued := h.queued
    rw [hq, List.forall_mem_cons] at hqueued
    exact ⟨h.wf, h.heights, hqueued.2, h.archive.archiveOutput hqueued.1⟩
  | lagged hle =>
    exact ⟨h.wf, h.heights, fun o ho => h.queued o (List.mem_of_mem_drop ho), h.archive⟩

/-- **The archiver writes `u64` keys**, over any number of runs. -/
theorem Archives.u64Keys {a : BlockArchive} {stored : List StreamableBlock}
    (h : Archives prost a stored) : U64Keys a := by
  induction h with
  | empty => exact fun _ hx => (List.not_mem_nil hx).elim
  | @run archive stored config engine acts w _ hnew hrun ih =>
    have hinit : (Feed.init engine archive).Placed :=
      ⟨ReorgEngine.wf_new hnew, ReorgEngine.heightsFit_new hnew,
        fun _ ho => (List.not_mem_nil ho).elim, ih⟩
    exact (Run.exec_preserves (fun _ _ _ h hs => Feed.Placed.step h hs) hinit hrun).archive

/-! ### A call of `Stream.Blocks` -/

/-- The responses a call has collected are placed. -/
def Phase.Placed : Phase → Prop
  | .archived _ _ _ _ rows => ∀ r ∈ rows, r.Placed
  | .streaming _ _ backfill => ∀ r ∈ backfill, r.Placed
  | _ => True

/-- A call that has just been opened has collected nothing. -/
theorem Phase.placed_opened (log : List Output) (req : Request) :
    (Phase.opened log req).Placed := by
  unfold Phase.opened
  cases validate req with
  | error status => trivial
  | ok start => trivial

/-- **One read of the handler** collects responses whose cursors are those of their blocks:
from the archive by its keys, from the cache by the heights it is filed under. -/
theorem Phase.Placed.advance {p : Pipeline} {s s' : Phase} (h : s.Placed) (hk : Keyed p.cache)
    (ha : ∀ a, p.archive = some a → U64Keys a) (hs : s.advance prost p = some s') : s'.Placed := by
  cases Phase.reads_of_advance hs with
  | live => exact fun _ hr => (List.not_mem_nil hr).elim
  | archive pos head window hrows => exact placed_archiveRows ha hrows
  | cache pos head hcached =>
    refine List.forall_mem_append.2 ⟨h, fun r hr => ?_⟩
    obtain ⟨b, hb, rfl⟩ := List.mem_map.1 hr
    exact placed_cachedResponse (height_lt_of_cacheRows hk hcached b hb) head
  | _ => trivial

/-! ### What the tasks share -/

/-- What a handler reads, and the outputs on their way to it, are placed. -/
structure Pipeline.Placed (p : Pipeline) : Prop where
  wf : p.engine.Wf
  heights : p.engine.HeightsFit
  outs : ∀ o ∈ p.outs, o.Placed
  cache : p.cache.Wf
  keyed : Keyed p.cache
  archive : ∀ a, p.archive = some a → U64Keys a

namespace Pipeline

variable {p p' : Pipeline} {t : Task}

/-- A fresh pipeline is placed, over an archive with `u64` keys. -/
theorem placed_new {config : ReorgConfig} {capacity : ℕ} {archive : Option BlockArchive}
    (h : Pipeline.new config capacity archive = some p) (ha : ∀ a, archive = some a → U64Keys a) :
    p.Placed := by
  obtain ⟨engine, hnew, hrest⟩ := Option.bind_eq_some_iff.1 h
  obtain ⟨cache, hcache, rfl⟩ := Option.map_eq_some_iff.1 hrest
  have hkeyed : Keyed cache := by
    obtain ⟨-, rfl⟩ := BlockCache.eq_of_new hcache
    exact keyed_empty capacity
  exact ⟨ReorgEngine.wf_new hnew, ReorgEngine.heightsFit_new hnew,
    fun _ ho => (List.not_mem_nil ho).elim, BlockCache.wf_new hcache, hkeyed, ha⟩

/-- What was broadcast is placed. -/
theorem Placed.log (h : p.Placed) : ∀ o ∈ p.log, o.Placed := fun o ho =>
  h.outs o (p.fed_prefix_outs.subset (p.log_prefix_fed.subset ho))

/-- A step of the relayer keeps the engine and what it has in flight placed. -/
theorem Placed.step_engine (h : p.Placed) (hs : p.step t = some p') :
    p'.engine.Wf ∧ p'.engine.HeightsFit ∧ ∀ o ∈ p'.outs, o.Placed := by
  rcases Pipeline.step_engine hs with ⟨he, ho⟩ | ⟨c, out, hcall, ho⟩
  · rw [he, ho]
    exact ⟨h.wf, h.heights, h.outs⟩
  · have hstep := ReorgEngine.step_of_call h.wf hcall
    obtain ⟨hheights, hout⟩ := hstep.placed h.heights
    rw [ho]
    exact ⟨hstep.wf h.wf, hheights, List.forall_mem_append.2 ⟨h.outs, hout⟩⟩

/-- It keeps the cache filed by height. -/
theorem Placed.step_cache (h : p.Placed) (hs : p.step t = some p') :
    p'.cache.Wf ∧ Keyed p'.cache := by
  rcases Pipeline.step_cache hs with ⟨hcache, -, -⟩ | ⟨o, os, -, hfeed, hcache, -⟩
  · rw [hcache]
    exact ⟨h.cache, h.keyed⟩
  · have ho : o.Placed := h.outs o (List.mem_append_right _ (hfeed ▸ List.mem_cons_self ..))
    rw [hcache]
    refine ⟨wf_feedCache h.cache o, keyed_feedCache h.cache h.keyed fun b hb => ?_⟩
    cases ho with
    | new hs =>
      obtain rfl := Option.some.inj hb
      exact hs.height_lt
    | _ => cases hb

/-- **One step of a task** keeps everything between the engine and the hub placed, and the
cache and archive that the handlers read. -/
theorem Placed.step (h : p.Placed) (hs : p.step t = some p')
    (ht : ∀ a, t = .archive a → p.archive.isSome → U64Keys a) : p'.Placed := by
  obtain ⟨hwf, hheights, houts⟩ := h.step_engine hs
  obtain ⟨hcache, hkeyed⟩ := h.step_cache hs
  refine ⟨hwf, hheights, houts, hcache, hkeyed, fun a ha => ?_⟩
  rcases step_archive hs with hsame | ⟨a', rfl, hnew⟩
  · exact h.archive a (hsame ▸ ha)
  · rw [hnew] at ha
    obtain ⟨_, harchive, rfl⟩ := Option.map_eq_some_iff.1 ha
    exact ht a' rfl (Option.isSome_of_eq_some harchive)

end Pipeline

/-- What the call has been answered is at a `u64` height. -/
def Fetch.HeightFits (call : Fetch) : Prop :=
  ∀ b f, call = .answered (some (b, f)) → b.height < 2 ^ 64

/-- A block from the upstream has the height of its header. -/
theorem Fetch.heightFits_grpcAnswer (found : Option DecodedBlock) (head : Option ℕ) :
    (Fetch.answered (found.map (grpcAnswer head))).HeightFits := by
  intro b f heq
  obtain ⟨d, -, hd⟩ := Option.map_eq_some_iff.1 (Fetch.answered.inj heq)
  obtain ⟨rfl, -⟩ := Prod.mk.inj hd
  exact d.header.height_lt

namespace Shared

/-- The pipeline is placed, and so is what the calls of `Fetch.Block` will write to it. -/
structure Placed (s : Shared) : Prop where
  pipeline : s.pipeline.Placed
  calls : ∀ call ∈ s.calls, call.HeightFits

/-- The shared state starts placed. -/
theorem placed_init {config : ReorgConfig} {capacity : ℕ} {archive : Option BlockArchive}
    {upstream : ℕ → Option DecodedBlock} {s : Shared}
    (h : Shared.init config capacity archive upstream = some s)
    (ha : ∀ a, archive = some a → U64Keys a) : s.Placed := by
  obtain ⟨p, hp, rfl⟩ := Option.map_eq_some_iff.1 h
  exact ⟨Pipeline.placed_new hp ha, fun _ hc => (List.not_mem_nil hc).elim⟩

/-- **One step of the relayer, the upstream or a `Fetch.Block`.** A late answer is written
to the cache under its own height, so the cache stays filed by height. -/
theorem Placed.step {s s' : Shared} {m : Move} (h : s.Placed) (hs : s.step m = some s')
    (hm : ∀ a, m = .task (.archive a) → U64Keys a) : s'.Placed := by
  cases moves_of_step hs with
  | task hp => exact ⟨h.pipeline.step hp fun a ha _ => hm a (congrArg Move.task ha), h.calls⟩
  | miss =>
    refine ⟨h.pipeline, List.forall_mem_append.2 ⟨h.calls, fun call hc => ?_⟩⟩
    obtain rfl := List.mem_singleton.1 hc
    exact fun _ _ heq => by cases heq
  | answer head hcall =>
    refine ⟨h.pipeline, fun call hc => ?_⟩
    rcases List.mem_or_eq_of_mem_set hc with hc | rfl
    · exact h.calls call hc
    · exact Fetch.heightFits_grpcAnswer _ head
  | fail => exact ⟨h.pipeline, fun call hc => h.calls call (List.mem_of_mem_eraseIdx hc)⟩
  | @populate i answer hcall =>
    refine ⟨?_, fun call hc => h.calls call (List.mem_of_mem_eraseIdx hc)⟩
    cases answer with
    | none => exact h.pipeline
    | some r =>
      have hlt := h.calls _ (List.mem_of_getElem? hcall) r.1 r.2 rfl
      exact { h.pipeline with
        cache := h.pipeline.cache.insert _ _ _
        keyed := h.pipeline.keyed.insert h.pipeline.cache hlt }
  | _ => exact ⟨h.pipeline, h.calls⟩

end Shared

/-! ### The process -/

/-- The relayer with the calls of `Fetch.Block`, and the calls of `Stream.Blocks`. -/
structure Process where
  shared : Shared
  sessions : List Phase

/-- A step of the relayer or of a `Fetch.Block`, or one of a `Stream.Blocks`: a consumer
calls, a handler makes its next read, a consumer hangs up. -/
inductive ProcessAction where
  | move (m : Move)
  | connect (req : Request)
  | advance (i : ℕ)
  | hangUp (i : ℕ)

/-- What the step writes to the archive is a table with `u64` keys. -/
def ProcessAction.U64Keys (x : ProcessAction) : Prop :=
  ∀ a, x = .move (.task (.archive a)) → Firehose.U64Keys a

namespace Process

variable (prost) in
/-- One step, `none` when it cannot be taken. -/
def step (n : Process) : ProcessAction → Option Process
  | .move m => (n.shared.step m).map fun shared => { n with shared }
  | .connect req =>
    some { n with sessions := n.sessions ++ [.opened n.shared.pipeline.log req] }
  | .advance i =>
    (n.sessions[i]?.bind (Phase.advance prost n.shared.pipeline)).map fun s =>
      { n with sessions := n.sessions.set i s }
  | .hangUp i => some { n with sessions := n.sessions.eraseIdx i }

/-- A fresh process, nobody calling. -/
def init (config : ReorgConfig) (capacity : ℕ) (archive : Option BlockArchive)
    (upstream : ℕ → Option DecodedBlock) : Option Process :=
  (Shared.init config capacity archive upstream).map fun shared => ⟨shared, []⟩

variable (prost) in
/-- A call of the process delivers the response: from its backfill, or as an output broadcast
since it subscribed.  A call that lags delivers some of these. -/
def Delivers (n : Process) (r : Response) : Prop :=
  ∃ pos start backfill, .streaming pos start backfill ∈ n.sessions ∧
    (r ∈ backfill ∨ ∃ o ∈ n.shared.pipeline.log.drop pos,
      liveItem prost (lastBackfillHeight backfill) (.ok o) = some (.ok r))

/-- What is shared and what the calls have collected is placed. -/
structure Placed (n : Process) : Prop where
  shared : n.shared.Placed
  sessions : ∀ s ∈ n.sessions, s.Placed

/-- So does the process, without any call. -/
theorem placed_init {config : ReorgConfig} {capacity : ℕ} {archive : Option BlockArchive}
    {upstream : ℕ → Option DecodedBlock} {n : Process}
    (h : Process.init config capacity archive upstream = some n)
    (ha : ∀ a, archive = some a → U64Keys a) : n.Placed := by
  obtain ⟨shared, hshared, rfl⟩ := Option.map_eq_some_iff.1 h
  exact ⟨Shared.placed_init hshared ha, fun _ hs => (List.not_mem_nil hs).elim⟩

/-- **One step of the process.** The shared state moves as before, or one call reads from
it. -/
theorem Placed.step {n n' : Process} {x : ProcessAction} (h : n.Placed)
    (hs : n.step prost x = some n') (hx : x.U64Keys) : n'.Placed := by
  cases x with
  | move m =>
    obtain ⟨shared, hm, rfl⟩ := Option.map_eq_some_iff.1 hs
    exact ⟨h.shared.step hm fun a ha => hx a (congrArg ProcessAction.move ha), h.sessions⟩
  | connect req =>
    obtain rfl := Option.some.inj hs
    refine ⟨h.shared, List.forall_mem_append.2 ⟨h.sessions, fun s hmem => ?_⟩⟩
    obtain rfl := List.mem_singleton.1 hmem
    exact Phase.placed_opened _ req
  | advance i =>
    obtain ⟨s', hs', rfl⟩ := Option.map_eq_some_iff.1 hs
    obtain ⟨s, hi, hadv⟩ := Option.bind_eq_some_iff.1 hs'
    refine ⟨h.shared, fun t ht => ?_⟩
    rcases List.mem_or_eq_of_mem_set ht with ht | rfl
    · exact h.sessions t ht
    · exact (h.sessions s (List.mem_of_getElem? hi)).advance h.shared.pipeline.keyed
        h.shared.pipeline.archive hadv
  | hangUp i =>
    obtain rfl := Option.some.inj hs
    exact ⟨h.shared, fun s hmem => h.sessions s (List.mem_of_mem_eraseIdx hmem)⟩

/-- What a placed process delivers is placed. -/
theorem Placed.delivers {n : Process} (h : n.Placed) {r : Response} (hr : n.Delivers prost r) :
    r.Placed := by
  obtain ⟨pos, start, backfill, hmem, hr | ⟨o, ho, hlive⟩⟩ := hr
  · exact h.sessions _ hmem r hr
  · exact placed_liveItem (h.shared.pipeline.log o (List.mem_of_mem_drop ho)) hlive

end Process

/-! ### Presenting a cursor -/

/-- **The start height of a cursor** is the next one, up to `u64::MAX`. -/
theorem startHeight_of_cursor {req : Request} {c : Cursor} (hc : c.height < 2 ^ 64)
    (hreq : req.cursor = hexEncode c.toBytes) :
    startHeight req = .ok (some (saturatingAdd c.height 1)) := by
  have hne : req.cursor ≠ [] := by
    intro hnil
    have hlen := length_hexEncode c.toBytes
    rw [← hreq, hnil, c.length_toBytes] at hlen
    cases hlen
  rw [startHeight, if_pos hne, hreq, hexDecode_hexEncode]
  simp only [Cursor.fromBytes_toBytes hc]

/-! ### What the handler answers -/

/-- An archive that fails a request answers `FailedPrecondition`. -/
theorem code_of_archiveRows {archive : Option BlockArchive} {h : ℕ} {span : Option ℕ}
    {status : Status} (he : archiveRows prost archive h span = .error status) :
    status.code = .failedPrecondition := by
  unfold archiveRows at he
  split at he
  · split at he
    · cases he
    · obtain rfl := Except.error.inj he
      rfl
  · cases he

/-- So does a cache walk that meets a gap. -/
theorem code_of_walkLoop {cache : BlockCache BufferedBlock} {n height : ℕ}
    {rows : List BufferedBlock} {status : Status}
    (he : walkLoop cache n height rows = .error status) : status.code = .failedPrecondition := by
  induction n generalizing height rows with
  | zero => cases he
  | succ n ih =>
    unfold walkLoop at he
    split at he
    · exact ih he
    · obtain rfl := Except.error.inj he
      rfl

/-- So does the cache, whatever it misses. -/
theorem code_of_cacheRows {cache : BlockCache BufferedBlock} {hasArchive : Bool}
    {window : Option (ℕ × ℕ)} {h : ℕ} {archived : List Response} {status : Status}
    (he : cacheRows cache hasArchive window h archived = .error status) :
    status.code = .failedPrecondition := by
  unfold cacheRows at he
  split at he
  · split_ifs at he
    · obtain rfl := Except.error.inj he
      rfl
    · obtain rfl := Except.error.inj he
      rfl
    · exact code_of_walkLoop he
  · split_ifs at he
    · obtain rfl := Except.error.inj he
      rfl
    · obtain rfl := Except.error.inj he
      rfl

variable (prost) in
/-- The phases a call with the request can come to, whatever it reads on its way. -/
inductive Phase.Comes (req : Request) : Phase → Prop
  | opened (log : List Output) : Comes req (.opened log req)
  | advance {s s' : Phase} (h : Comes req s) (p : Pipeline) (hs : s.advance prost p = some s') :
    Comes req s'

/-- The call is refused for its request, or for what it reads. -/
theorem Phase.Comes.code {req : Request} {s : Phase} (h : Phase.Comes prost req s)
    {status : Status} (hs : s = .refused status) :
    validate req = .error status ∨ status.code = .failedPrecondition := by
  cases h with
  | opened log =>
    unfold Phase.opened at hs
    split at hs
    · rename_i hvalidate
      obtain rfl := Phase.refused.inj hs
      exact Or.inl hvalidate
    · cases hs
  | advance _ p hadv =>
    subst hs
    cases Phase.reads_of_advance hadv with
    | noArchive pos head window he => exact Or.inr (code_of_archiveRows he)
    | noCache pos head he => exact Or.inr (code_of_cacheRows he)

/-- What a service without a cache answers: it has no backfill. -/
def uncachedRefusal (req : Request) : Option Status :=
  match validate req with
  | .error status => some status
  | .ok none => none
  | .ok (some _) =>
    some (.failedPrecondition ("backfill requested (start_block_num or cursor) but no block " ++
      "cache attached to this firehose; restart relayer with --firehose-listen " ++
      "and --block-cache-capacity > 0"))

variable (prost) in
/-- A call with the request can be answered with the status: refused, or failed by a lag. -/
inductive Answers (req : Request) (status : Status) : Prop
  | refused (h : Phase.Comes prost req (.refused status))
  | uncached (h : uncachedRefusal req = some status)
  | lagged {pos skipped : ℕ} {start : Option ℕ} {backfill : List Response}
    (h : Phase.Comes prost req (.streaming pos start backfill))
    (hlag : liveItem prost (lastBackfillHeight backfill) (.error skipped) = some (.error status))

/-- The request has a cursor that is not the text of one. -/
def Request.BadCursor (req : Request) : Prop :=
  req.cursor ≠ [] ∧ ∀ c : Cursor, hexDecode req.cursor ≠ .ok c.toBytes

/-- **`InvalidArgument` is answered to bad cursors only**: to a cursor that is not empty and
not the hex of 40 bytes. -/
theorem startHeight_invalidArgument_iff {req : Request} :
    (∃ status, startHeight req = .error status ∧ status.code = .invalidArgument) ↔
      req.BadCursor := by
  unfold startHeight Request.BadCursor
  by_cases hne : req.cursor ≠ []
  · rw [if_pos hne, and_iff_right hne]
    cases hdecode : hexDecode req.cursor with
    | error e => exact iff_of_true ⟨_, rfl, rfl⟩ fun c heq => by cases heq
    | ok bytes =>
      simp only
      cases hread : Cursor.fromBytes bytes with
      | none =>
        refine iff_of_true ⟨_, rfl, rfl⟩ fun c heq => ?_
        rw [Except.ok.inj heq] at hread
        exact Cursor.fromBytes_eq_none_iff.1 hread c.length_toBytes
      | some c =>
        refine iff_of_false (fun ⟨_, heq, _⟩ => by cases heq) fun hbad => ?_
        exact hbad c (congrArg Except.ok (Cursor.toBytes_fromBytes hread).1.symm)
  · rw [if_neg hne]
    refine iff_of_false (fun ⟨status, heq, hcode⟩ => ?_) fun h => hne h.1
    split_ifs at heq
    obtain rfl := Except.error.inj heq
    cases hcode

/-- The other checks of the request are failed preconditions. -/
theorem validate_invalidArgument_iff {req : Request} :
    (∃ status, validate req = .error status ∧ status.code = .invalidArgument) ↔
      req.BadCursor := by
  rw [← startHeight_invalidArgument_iff]
  unfold validate
  cases startHeight req with
  | error status => exact Iff.rfl
  | ok start =>
    refine iff_of_false (fun ⟨status, heq, hcode⟩ => ?_) fun ⟨_, heq, _⟩ => by cases heq
    simp only at heq
    split_ifs at heq <;> obtain rfl := Except.error.inj heq <;> cases hcode

/-- **`InvalidArgument` is the answer to a bad cursor, and to nothing else.** The other
failures of the call have other codes. -/
theorem answers_invalidArgument_iff (prost : Prost) (req : Request) :
    (∃ status, Answers prost req status ∧ status.code = .invalidArgument) ↔ req.BadCursor := by
  rw [← validate_invalidArgument_iff]
  constructor
  · rintro ⟨status, hanswer, hcode⟩
    cases hanswer with
    | refused h =>
      rcases h.code rfl with hvalidate | hother
      · exact ⟨status, hvalidate, hcode⟩
      · rw [hother] at hcode
        cases hcode
    | uncached h =>
      unfold uncachedRefusal at h
      split at h
      · rename_i hvalidate
        obtain rfl := Option.some.inj h
        exact ⟨_, hvalidate, hcode⟩
      · cases h
      · obtain rfl := Option.some.inj h
        cases hcode
    | lagged h hlag =>
      obtain rfl := Except.error.inj (Option.some.inj hlag)
      cases hcode
  · rintro ⟨status, hvalidate, hcode⟩
    have hopened : Phase.opened [] req = .refused status := by rw [Phase.opened, hvalidate]
    exact ⟨status, .refused (hopened ▸ .opened []), hcode⟩

/-! ### Any response -/

/-- A call that presents the cursor of the response, whatever else its request holds, starts
one above the height in the metadata, and is never answered `InvalidArgument`. -/
structure Response.Resumes (prost : Prost) (r : Response) (m : BlockMetadata) : Prop where
  metadata : r.metadata = some m
  placed : ∃ c, m.PlacedAt c r.cursor
  start : ∀ req : Request, req.cursor = r.cursor →
    startHeight req = .ok (some (saturatingAdd m.num 1))
  answers : ∀ req : Request, req.cursor = r.cursor → ∀ status, Answers prost req status →
    status.code ≠ .invalidArgument

/-- A response that is placed can be resumed from, right above its height. -/
theorem Response.Placed.resumes {r : Response} (h : r.Placed) : ∃ m, r.Resumes prost m := by
  obtain ⟨m, c, hm, hat, hlt⟩ := h
  refine ⟨m, hm, ⟨c, hat⟩, fun req hreq => ?_, fun req hreq status hanswer hcode => ?_⟩
  · rw [hat.num]
    exact startHeight_of_cursor hlt (hreq.trans hat.text)
  · obtain ⟨-, hbad⟩ := (answers_invalidArgument_iff prost req).1 ⟨status, hanswer, hcode⟩
    refine hbad c ?_
    rw [hreq, hat.text, hexDecode_hexEncode]

/-- **Cursors are a faithful wire format, and every response can be resumed from.**  Cursors
and strings of 40 bytes are read from one another as written; and whatever the calls of a
process deliver, in any run of the relayer, the archive, the `Fetch.Block` calls and any number
of consumers, has a cursor that starts the next call one above the height of the response. -/
theorem cursors_resume (prost : Prost) :
    (∀ c : Cursor, c.height < 2 ^ 64 → Cursor.fromBytes c.toBytes = some c) ∧
    (∀ bytes c, Cursor.fromBytes bytes = some c → c.toBytes = bytes) ∧
    (∀ bytes, Cursor.fromBytes bytes = none ↔ bytes.length ≠ 40) ∧
    ∀ config capacity archive upstream n₀ acts n,
      Process.init config capacity archive upstream = some n₀ →
      (∀ a, archive = some a → U64Keys a) → (∀ x ∈ acts, x.U64Keys) →
      Run.exec (Process.step prost) n₀ acts = some n →
      ∀ r, n.Delivers prost r → ∃ m, r.Resumes prost m := by
  refine ⟨fun c hc => Cursor.fromBytes_toBytes hc, fun bytes c h => (Cursor.toBytes_fromBytes h).1,
    fun bytes => Cursor.fromBytes_eq_none_iff, ?_⟩
  intro config capacity archive upstream n₀ acts n hinit harchive hacts hrun r hr
  have hplaced : n.Placed := Run.exec_preserves_of_forall (C := ProcessAction.U64Keys)
    (fun _ _ _ hx h hs => h.step hs hx) hacts (Process.placed_init hinit harchive) hrun
  exact (hplaced.delivers hr).resumes

/-- Block 1 is accepted and cached, and a consumer asks for it. -/
def oneCached : List ProcessAction :=
  [.move (.task (.call (.accept (synthAt 1 0 0) []))), .move (.task .feed),
    .connect ⟨1, [], 0, false, []⟩, .advance 0, .advance 0, .advance 0, .advance 0, .advance 0]

/-- The response of that run has the height 1. -/
theorem cursors_resume_oneCached :
    ∃ n₀ n r m, Process.init ReorgConfig.default 4 none (fun _ => none) = some n₀ ∧
      Run.exec (Process.step (prostOf [])) n₀ oneCached = some n ∧ n.Delivers (prostOf []) r ∧
      r.Resumes (prostOf []) m ∧ m.num = 1 := by
  obtain ⟨n₀, n, r, hinit, hrun, hsessions, hnum⟩ : ∃ n₀ n r,
      Process.init ReorgConfig.default 4 none (fun _ => none) = some n₀ ∧
      Run.exec (Process.step (prostOf [])) n₀ oneCached = some n ∧
      n.sessions = [.streaming 0 (some 1) [r]] ∧ r.metadata.map (·.num) = some 1 :=
    ⟨_, _, _, rfl, rfl, rfl, rfl⟩
  have hdelivers : n.Delivers (prostOf []) r := by
    refine ⟨0, some 1, [r], ?_, Or.inl (List.mem_singleton_self r)⟩
    rw [hsessions]
    exact List.mem_singleton_self _
  have hkeys : ∀ x ∈ oneCached, x.U64Keys := by
    rintro x hx a rfl
    simp [oneCached] at hx
  obtain ⟨m, hm⟩ := (cursors_resume (prostOf [])).2.2.2 ReorgConfig.default 4 none (fun _ => none)
    n₀ oneCached n hinit (fun _ h => by cases h) hkeys hrun r hdelivers
  rw [hm.metadata, Option.map_some, Option.some.injEq] at hnum
  exact ⟨n₀, n, r, m, hinit, hrun, hdelivers, hm, hnum⟩

/-! ### A consumer that comes back -/

/-- All that a call delivers is placed. -/
theorem Phase.Placed.delivered {s : Phase} (h : s.Placed) {log : List Output}
    (hlog : ∀ o ∈ log, o.Placed) : ∀ r ∈ s.delivered prost log, r.Placed := by
  cases s with
  | streaming pos start backfill =>
    refine List.forall_mem_append.2 ⟨h, fun r hr => ?_⟩
    obtain ⟨o, ho, hitem⟩ := List.mem_filterMap.1 hr
    split at hitem
    · rename_i hlive
      obtain rfl := Option.some.inj hitem
      exact placed_liveItem (hlog o (List.mem_of_mem_drop ho)) hlive
    · cases hitem
  | _ => exact fun _ hr => (List.not_mem_nil hr).elim

/-- What the step writes to the archive is a table with `u64` keys. -/
def Action.U64Keys (a : Action) : Prop :=
  ∀ arc, a = .task (.archive arc) → Firehose.U64Keys arc

namespace World

variable {w w' : World} {a : Action}

/-- Everything the consumer can get, and everything it took, is placed. -/
structure Placed (w : World) : Prop where
  pipeline : w.pipeline.Placed
  session : ∀ s, w.session = some s → s.Placed
  received : ∀ r ∈ w.received, r.Placed

/-- The world with one consumer starts placed. -/
theorem placed_init {config : ReorgConfig} {capacity : ℕ} {archive : Option BlockArchive}
    (h : World.init config capacity archive = some w) (ha : ∀ a, archive = some a → U64Keys a) :
    w.Placed := by
  obtain ⟨p, hp, rfl⟩ := Option.map_eq_some_iff.1 h
  exact ⟨Pipeline.placed_new hp ha, fun _ hs => (Option.some_ne_none _ hs.symm).elim,
    fun _ hr => (List.not_mem_nil hr).elim⟩

/-- What the consumer took before and what it took of this call is placed. -/
theorem Placed.taken (h : w.Placed) (taken : ℕ) :
    ∀ r ∈ w.received ++ (w.delivered prost).take taken, r.Placed := by
  refine List.forall_mem_append.2 ⟨h.received, fun r hr => ?_⟩
  have hmem := List.mem_of_mem_take hr
  cases hsession : w.session with
  | none =>
    simp only [World.delivered, hsession, Option.map_none, Option.getD_none] at hmem
    cases hmem
  | some s =>
    simp only [World.delivered, hsession, Option.map_some, Option.getD_some] at hmem
    exact (h.session s hsession).delivered h.pipeline.log r hmem

/-- **One step of any task, of the handler or of the consumer.** A consumer that reconnects
presents a cursor it took, and starts a call that has collected nothing. -/
theorem Placed.step (h : w.Placed) (hs : w.step prost a = some w')
    (ha : w.pipeline.archive.isSome → a.U64Keys) : w'.Placed := by
  cases moves_of_step hs with
  | task hp =>
    refine ⟨h.pipeline.step hp fun arc harc hsome => ?_, h.session, h.received⟩
    exact ha hsome arc (congrArg Action.task harc)
  | connect req =>
    refine ⟨h.pipeline, fun s hsess => ?_, h.received⟩
    obtain rfl := Option.some.inj hsess
    exact Phase.placed_opened _ req
  | advance hsession hadv =>
    refine ⟨h.pipeline, fun s hsess => ?_, h.received⟩
    obtain rfl := Option.some.inj hsess
    exact (h.session _ hsession).advance h.pipeline.keyed h.pipeline.archive hadv
  | reconnect taken hlast =>
    refine ⟨h.pipeline, fun s hsess => ?_, h.taken taken⟩
    obtain rfl := Option.some.inj hsess
    exact Phase.placed_opened _ _

/-- The call with the cursor of the last response subscribes. -/
theorem Placed.reconnect (h : w.Placed) {taken : ℕ}
    (hback : w.step prost (.reconnect taken) = some w') :
    ∃ r m, w'.received.getLast? = some r ∧ r.metadata = some m ∧
      w'.session = some (.subscribed w'.pipeline.log.length (some (saturatingAdd m.num 1))) := by
  cases moves_of_step hback with
  | @reconnect _ r hlast =>
    obtain ⟨m, hm⟩ : ∃ m, r.Resumes prost m :=
      (h.taken taken r (List.mem_of_getLast? hlast)).resumes
    have hvalidate : validate (resumeAt r) = .ok (some (saturatingAdd m.num 1)) := by
      simp only [validate, hm.start (resumeAt r) rfl]
      rfl
    refine ⟨r, m, hlast, hm.metadata, ?_⟩
    simp only [Phase.opened, hvalidate]

/-- **A consumer that comes back is let in**: in every run, the call with the cursor of the
last response it took subscribes, one above the height of that response. -/
theorem reconnect_subscribes {config : ReorgConfig} {capacity : ℕ} {archive : Option BlockArchive}
    {acts : List Action} {w₀ : World} {taken : ℕ}
    (hinit : World.init config capacity archive = some w₀)
    (harchive : ∀ a, archive = some a → U64Keys a) (hacts : ∀ a ∈ acts, a.U64Keys)
    (hrun : Run.exec (World.step prost) w₀ acts = some w)
    (hback : w.step prost (.reconnect taken) = some w') :
    ∃ r m, w'.received.getLast? = some r ∧ r.metadata = some m ∧
      w'.session = some (.subscribed w'.pipeline.log.length (some (saturatingAdd m.num 1))) := by
  have hplaced : w.Placed := Run.exec_preserves_of_forall (C := Action.U64Keys)
    (fun _ _ _ hx h hs => h.step hs fun _ => hx) hacts (placed_init hinit harchive) hrun
  exact hplaced.reconnect hback

end World

end Firehose
end Lightcycle
