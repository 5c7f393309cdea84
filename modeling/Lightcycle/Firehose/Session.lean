/-
# The relayer, the hub and one consumer

The tasks between the engine and a consumer of `Stream.Blocks`, each step one access
to shared state, in any order:

* the relayer calls the engine, and for each output in turn writes it to the cache and
  sends it (`RelayerService::forward` step by step);
* the hub's pump takes an output off the channel and broadcasts it
  (`crates/lightcycle-firehose/src/hub.rs`); `log` is everything broadcast;
* the archiver and the retention task write the archive, in any way;
* the handler of the consumer's call reads the shared state in its order (`Phase`);
* the consumer opens a call, and later drops it and presents the cursor of the last
  response it took (`reconnect`).

A subscription is a position in `log`: what is broadcast after it is delivered, as
long as the subscriber does not lag.  Channels are in order; how many outputs they
hold is not bounded here.
-/

import Lightcycle.Firehose.Server
import Lightcycle.Relayer.Window

namespace Lightcycle
namespace Firehose

open Relayer Store

/-! ### The relayer and the hub -/

/-- The shared state and the outputs under way. -/
structure Pipeline where
  engine : ReorgEngine
  /-- Outputs of the last call that are still to be written to the cache. -/
  toFeed : List Output
  /-- The output written to the cache and not sent yet. -/
  inHand : Option Output
  /-- The channel from the relayer to the hub. -/
  mpsc : List Output
  /-- Everything broadcast. -/
  log : List Output
  cache : BlockCache BufferedBlock
  /-- The solidified-head watch. -/
  head : Option ℕ
  archive : Option BlockArchive

/-- A step of a task other than the handler. -/
inductive Task where
  | call (c : Call)
  | feed
  | send
  | pump
  | archive (a : BlockArchive)

namespace Pipeline

/-- The watch after a call: `tick_once` publishes the head it read. -/
def headAfter (head : Option ℕ) : Call → Option ℕ
  | .setSolidifiedHead h => some h
  | .accept _ _ => head

/-- One step of a task, `none` when it has nothing to do. -/
def step (p : Pipeline) : Task → Option Pipeline
  | .call c =>
    if p.toFeed = [] ∧ p.inHand = none then
      (p.engine.call c).map fun r =>
        { p with engine := r.1, toFeed := r.2, head := headAfter p.head c }
    else none
  | .feed =>
    match p.toFeed, p.inHand with
    | o :: os, none => some { p with toFeed := os, inHand := some o, cache := feedCache p.cache o }
    | _, _ => none
  | .send =>
    match p.inHand with
    | some o => some { p with inHand := none, mpsc := p.mpsc ++ [o] }
    | none => none
  | .pump =>
    match p.mpsc with
    | o :: os => some { p with mpsc := os, log := p.log ++ [o] }
    | [] => none
  | .archive a => some { p with archive := p.archive.map fun _ => a }

/-- A fresh relayer, `none` when the configuration or the capacity is refused. -/
def new (config : ReorgConfig) (capacity : ℕ) (archive : Option BlockArchive) : Option Pipeline :=
  (ReorgEngine.new config).bind fun engine =>
    (BlockCache.new capacity).map fun cache =>
      { engine, toFeed := [], inHand := none, mpsc := [], log := [], cache, head := none, archive }

/-- The outputs written to the cache, in order. -/
def fed (p : Pipeline) : List Output := p.log ++ p.mpsc ++ p.inHand.toList

/-- Everything the engine has emitted. -/
def outs (p : Pipeline) : List Output := p.fed ++ p.toFeed

end Pipeline

/-! ### The handler -/

/-- How far a call has come and what it has read.  `pos` is the length of the log at the
subscription, `start` the height asked for. -/
inductive Phase where
  | subscribed (pos : ℕ) (start : Option ℕ)
  | headRead (pos h : ℕ) (head : Option ℕ)
  | snapshotted (pos h : ℕ) (head : Option ℕ) (window : Option (ℕ × ℕ))
  | spanned (pos h : ℕ) (head : Option ℕ) (window : Option (ℕ × ℕ)) (span : Option ℕ)
  | archived (pos h : ℕ) (head : Option ℕ) (window : Option (ℕ × ℕ)) (rows : List Response)
  | streaming (pos : ℕ) (start : Option ℕ) (backfill : List Response)
  | refused (status : Status)

namespace Phase

/-- The checks of the request, then the subscription. -/
def opened (log : List Output) (req : Request) : Phase :=
  match validate req with
  | .error status => .refused status
  | .ok start => .subscribed log.length start

variable (prost : Prost)

/-- The next read of the handler, `none` when it has made its last. -/
def advance (p : Pipeline) : Phase → Option Phase
  | .subscribed pos none => some (.streaming pos none [])
  | .subscribed pos (some h) => some (.headRead pos h p.head)
  | .headRead pos h head => some (.snapshotted pos h head (cacheWindow p.cache))
  | .snapshotted pos h head window =>
    some (.spanned pos h head window (archiveSpan p.archive window h))
  | .spanned pos h head window span =>
    match archiveRows prost p.archive h span with
    | .error status => some (.refused status)
    | .ok rows => some (.archived pos h head window rows)
  | .archived pos h head window rows =>
    match cacheRows p.cache p.archive.isSome window h rows with
    | .error status => some (.refused status)
    | .ok cached => some (.streaming pos (some h) (backfillOf prost head rows cached))
  | .streaming .. => none
  | .refused _ => none

/-- What the next read does, when there is one. -/
inductive Reads (p : Pipeline) : Phase → Phase → Prop
  | live (pos : ℕ) : Reads p (.subscribed pos none) (.streaming pos none [])
  | head (pos h : ℕ) : Reads p (.subscribed pos (some h)) (.headRead pos h p.head)
  | window (pos h : ℕ) (head : Option ℕ) :
    Reads p (.headRead pos h head) (.snapshotted pos h head (cacheWindow p.cache))
  | span (pos h : ℕ) (head : Option ℕ) (window : Option (ℕ × ℕ)) :
    Reads p (.snapshotted pos h head window)
      (.spanned pos h head window (archiveSpan p.archive window h))
  | archive (pos : ℕ) {h : ℕ} (head : Option ℕ) (window : Option (ℕ × ℕ)) {span : Option ℕ}
    {rows : List Response} (hrows : archiveRows prost p.archive h span = .ok rows) :
    Reads p (.spanned pos h head window span) (.archived pos h head window rows)
  | noArchive (pos : ℕ) {h : ℕ} (head : Option ℕ) (window : Option (ℕ × ℕ)) {span : Option ℕ}
    {status : Status} (he : archiveRows prost p.archive h span = .error status) :
    Reads p (.spanned pos h head window span) (.refused status)
  | cache (pos : ℕ) {h : ℕ} (head : Option ℕ) {window : Option (ℕ × ℕ)} {rows : List Response}
    {cached : List BufferedBlock}
    (hcached : cacheRows p.cache p.archive.isSome window h rows = .ok cached) :
    Reads p (.archived pos h head window rows)
      (.streaming pos (some h) (backfillOf prost head rows cached))
  | noCache (pos : ℕ) {h : ℕ} (head : Option ℕ) {window : Option (ℕ × ℕ)} {rows : List Response}
    {status : Status} (he : cacheRows p.cache p.archive.isSome window h rows = .error status) :
    Reads p (.archived pos h head window rows) (.refused status)

/-- What the live stream delivers of the outputs broadcast, without a lag. -/
def live (backfill : List Response) (outs : List Output) : List Response :=
  outs.filterMap fun o =>
    match liveItem prost (lastBackfillHeight backfill) (.ok o) with
    | some (.ok r) => some r
    | _ => none

/-- What the call has delivered so far. -/
def delivered (log : List Output) : Phase → List Response
  | .streaming pos _ backfill => backfill ++ live prost backfill (log.drop pos)
  | _ => []

end Phase

/-! ### The live stream as a filter -/

/-- The block an output carries on the wire, and its step. -/
def onWire : Output → Option (StreamableBlock × ForkStep)
  | .new s => some (s, .stepNew)
  | .undo s => some (s, .stepUndo)
  | .irreversible s => some (s, .stepFinal)
  | .forkObserved .. => none
  | .forkResolved .. => none

/-- The outputs with a wire shape, in order. -/
def wire (outs : List Output) : List (StreamableBlock × ForkStep) := outs.filterMap onWire

section Live

variable {prost : Prost} {backfill : List Response} {last : ℕ}

/-- An output becomes a response exactly when it goes on the wire. -/
theorem outputToResponse_eq (o : Output) :
    outputToResponse prost o = (onWire o).map fun x => streamableToResponse prost x.1 x.2 := by
  cases o with
  | _ => rfl

/-- After a backfill the live stream is what is above it. -/
theorem live_of_some (hlast : lastBackfillHeight backfill = some last) (outs : List Output) :
    Phase.live prost backfill outs =
      ((wire outs).filter fun x => decide (last < x.1.block.height)).map fun x =>
        streamableToResponse prost x.1 x.2 := by
  rw [wire, List.filter_filterMap, List.map_filterMap, Phase.live]
  refine List.filterMap_congr fun o _ => ?_
  rw [liveItem, outputToResponse_eq]
  cases onWire o with
  | none => rfl
  | some x =>
    by_cases hle : x.1.block.height ≤ last
    · simp [streamableToResponse, hlast, hle]
    · have hlt : last < x.1.block.height := by omega
      simp [streamableToResponse, hlast, hle, hlt, Option.filter]

/-- Without a backfill it is everything. -/
theorem live_of_none (hlast : lastBackfillHeight backfill = none) (outs : List Output) :
    Phase.live prost backfill outs =
      (wire outs).map fun x => streamableToResponse prost x.1 x.2 := by
  rw [wire, List.map_filterMap, Phase.live]
  refine List.filterMap_congr fun o _ => ?_
  rw [liveItem, outputToResponse_eq, hlast]
  cases onWire o with
  | none => rfl
  | some x => rfl

end Live

/-! ### The consumer -/

/-- The pipeline, the consumer's current call, and what it took from the calls before. -/
structure World where
  pipeline : Pipeline
  session : Option Phase
  received : List Response

/-- A step of another task, of the handler, or of the consumer. -/
inductive Action where
  | task (t : Task)
  | connect (req : Request)
  | advance
  /-- Take the first `taken` responses of the call, drop it, present the last cursor. -/
  | reconnect (taken : ℕ)

/-- The consumer stays on its call. -/
def Action.Stays : Action → Prop
  | .task _ => True
  | .connect _ => False
  | .advance => True
  | .reconnect _ => False

namespace World

variable (prost : Prost)

/-- The request of a consumer that resumes after the response `r`. -/
def resumeAt (r : Response) : Request := ⟨0, r.cursor, 0, false, []⟩

/-- What the current call has delivered so far. -/
def delivered (w : World) : List Response :=
  (w.session.map (Phase.delivered prost w.pipeline.log)).getD []

/-- One step. -/
def step (w : World) : Action → Option World
  | .task t => (w.pipeline.step t).map fun p => { w with pipeline := p }
  | .connect req =>
    match w.session with
    | none => some { w with session := some (.opened w.pipeline.log req) }
    | some _ => none
  | .advance =>
    (w.session.bind (Phase.advance prost w.pipeline)).map fun s => { w with session := some s }
  | .reconnect taken =>
    let received := w.received ++ (w.delivered prost).take taken
    received.getLast?.map fun r =>
      { w with session := some (.opened w.pipeline.log (resumeAt r)), received }

/-- Before the first call. -/
def init (config : ReorgConfig) (capacity : ℕ) (archive : Option BlockArchive) : Option World :=
  (Pipeline.new config capacity archive).map fun p => ⟨p, none, []⟩

end World

/-! ### What every interleaving keeps -/

namespace Pipeline

variable {p p' p'' : Pipeline} {capacity : ℕ} {t : Task}

/-- The engine has emitted `outs`, and the cache is what feeding `fed` leaves. -/
structure Ok (capacity : ℕ) (p : Pipeline) : Prop where
  reached : p.engine.Reached p.outs
  cache : p.cache = cacheOf capacity p.fed

/-- A later state: the sequences have only grown. -/
structure Extends (p p' : Pipeline) : Prop where
  log : p.log <+: p'.log
  fed : p.fed <+: p'.fed
  outs : p.outs <+: p'.outs
  archive : p'.archive.isSome = p.archive.isSome

/-- A state is a later state of itself. -/
theorem Extends.refl (p : Pipeline) : p.Extends p :=
  ⟨List.prefix_rfl, List.prefix_rfl, List.prefix_rfl, rfl⟩

/-- A later state of a later state is one. -/
theorem Extends.trans (h : p.Extends p') (h' : p'.Extends p'') : p.Extends p'' :=
  ⟨h.log.trans h'.log, h.fed.trans h'.fed, h.outs.trans h'.outs, h'.archive.trans h.archive⟩

/-- What was broadcast was written to the cache before. -/
theorem log_prefix_fed (p : Pipeline) : p.log <+: p.fed :=
  ⟨p.mpsc ++ p.inHand.toList, by rw [fed, List.append_assoc]⟩

/-- What was written to the cache was emitted before. -/
theorem fed_prefix_outs (p : Pipeline) : p.fed <+: p.outs := List.prefix_append _ _

/-- What a step of a task does, when it has something to do. -/
inductive Moves (p : Pipeline) : Task → Pipeline → Prop
  | call {c : Call} {e' : ReorgEngine} {out : List Output} (hfeed : p.toFeed = [])
    (hhand : p.inHand = none) (hcall : p.engine.call c = some (e', out)) :
    Moves p (.call c) { p with engine := e', toFeed := out, head := headAfter p.head c }
  | feed {o : Output} {os : List Output} (hfeed : p.toFeed = o :: os) (hhand : p.inHand = none) :
    Moves p .feed { p with toFeed := os, inHand := some o, cache := feedCache p.cache o }
  | send {o : Output} (hhand : p.inHand = some o) :
    Moves p .send { p with inHand := none, mpsc := p.mpsc ++ [o] }
  | pump {o : Output} {os : List Output} (hmpsc : p.mpsc = o :: os) :
    Moves p .pump { p with mpsc := os, log := p.log ++ [o] }
  | archive (a : BlockArchive) : Moves p (.archive a) { p with archive := p.archive.map fun _ => a }

/-- **A step of a task is one of its moves**: it is taken only when there is something to
do, and then it does just that. -/
theorem moves_of_step (hs : p.step t = some p') : p.Moves t p' := by
  cases t with
  | call c =>
    simp only [Pipeline.step] at hs
    split_ifs at hs with hidle
    obtain ⟨⟨e', out⟩, hcall, rfl⟩ := Option.map_eq_some_iff.1 hs
    exact .call hidle.1 hidle.2 hcall
  | feed =>
    simp only [Pipeline.step] at hs
    split at hs
    · rename_i hfeed hhand
      obtain rfl := Option.some.inj hs
      exact .feed hfeed hhand
    · cases hs
  | send =>
    simp only [Pipeline.step] at hs
    split at hs
    · rename_i hhand
      obtain rfl := Option.some.inj hs
      exact .send hhand
    · cases hs
  | pump =>
    simp only [Pipeline.step] at hs
    split at hs
    · rename_i hmpsc
      obtain rfl := Option.some.inj hs
      exact .pump hmpsc
    · cases hs
  | archive a =>
    obtain rfl := Option.some.inj hs
    exact .archive a

/-- What one step of a task does to the engine: only a call moves it, and the outputs of the
call come after everything emitted before. -/
theorem step_engine (hs : p.step t = some p') :
    p'.engine = p.engine ∧ p'.outs = p.outs ∨
      ∃ c out, p.engine.call c = some (p'.engine, out) ∧ p'.outs = p.outs ++ out := by
  cases moves_of_step hs with
  | @call c _ out hfeed _ hcall => exact Or.inr ⟨c, out, hcall, by simp [outs, fed, hfeed]⟩
  | feed hfeed hhand => exact Or.inl ⟨rfl, by simp [outs, fed, hfeed, hhand]⟩
  | send hhand => exact Or.inl ⟨rfl, by simp [outs, fed, hhand]⟩
  | pump hmpsc => exact Or.inl ⟨rfl, by simp [outs, fed, hmpsc]⟩
  | archive a => exact Or.inl ⟨rfl, rfl⟩

/-- What one step of a task does to the cache: only a feed writes to it, and what it feeds
comes after everything fed before. -/
theorem step_cache (hs : p.step t = some p') :
    p'.cache = p.cache ∧ p'.fed = p.fed ∧ t ≠ .feed ∨
      ∃ o os, t = .feed ∧ p.toFeed = o :: os ∧ p'.cache = feedCache p.cache o ∧
        p'.fed = p.fed ++ [o] := by
  cases moves_of_step hs with
  | call => exact Or.inl ⟨rfl, rfl, by simp⟩
  | @feed o os hfeed hhand => exact Or.inr ⟨o, os, rfl, hfeed, rfl, by simp [fed, hhand]⟩
  | send hhand => exact Or.inl ⟨rfl, by simp [fed, hhand], by simp⟩
  | pump hmpsc => exact Or.inl ⟨rfl, by simp [fed, hmpsc], by simp⟩
  | archive a => exact Or.inl ⟨rfl, rfl, by simp⟩

/-- What one step of a task does to what was broadcast, and to having an archive. -/
theorem step_log (hs : p.step t = some p') :
    p.log <+: p'.log ∧ p'.archive.isSome = p.archive.isSome := by
  cases moves_of_step hs with
  | pump hmpsc => exact ⟨List.prefix_append _ _, rfl⟩
  | archive a => exact ⟨List.prefix_rfl, Option.isSome_map⟩
  | _ => exact ⟨List.prefix_rfl, rfl⟩

/-- Only a write of the archive changes it. -/
theorem step_archive (hs : p.step t = some p') :
    p'.archive = p.archive ∨ ∃ a, t = .archive a ∧ p'.archive = p.archive.map fun _ => a := by
  cases moves_of_step hs with
  | archive a => exact Or.inr ⟨a, rfl, rfl⟩
  | _ => exact Or.inl rfl

/-- **One step of a task** keeps the order of the outputs and the cache behind them: what
was broadcast was fed before, what was fed was emitted before, and the cache holds what was
fed. -/
theorem Ok.step (h : p.Ok capacity) (hs : p.step t = some p') : p'.Ok capacity ∧ p.Extends p' := by
  obtain ⟨hlog, harc⟩ := step_log hs
  have hfed : p'.cache = cacheOf capacity p'.fed ∧ p.fed <+: p'.fed := by
    rcases step_cache hs with ⟨hcache, hfed, -⟩ | ⟨o, os, -, -, hcache, hfed⟩
    · rw [hcache, hfed]
      exact ⟨h.cache, List.prefix_rfl⟩
    · rw [hcache, hfed, cacheOf_concat, ← h.cache]
      exact ⟨rfl, List.prefix_append _ _⟩
  have houts : p'.engine.Reached p'.outs ∧ p.outs <+: p'.outs := by
    rcases step_engine hs with ⟨hengine, houts⟩ | ⟨c, out, hcall, houts⟩
    · rw [hengine, houts]
      exact ⟨h.reached, List.prefix_rfl⟩
    · rw [houts]
      exact ⟨h.reached.call hcall, List.prefix_append _ _⟩
  exact ⟨⟨houts.1, hfed.1⟩, hlog, hfed.2, houts.2, harc⟩

/-- A fresh pipeline is in order. -/
theorem ok_new {config : ReorgConfig} {archive : Option BlockArchive}
    (h : Pipeline.new config capacity archive = some p) :
    p.Ok capacity ∧ 0 < capacity ∧ p.archive = archive := by
  obtain ⟨engine, hnew, hrest⟩ := Option.bind_eq_some_iff.1 h
  obtain ⟨cache, hcache, rfl⟩ := Option.map_eq_some_iff.1 hrest
  obtain ⟨hpos, rfl⟩ := BlockCache.eq_of_new hcache
  exact ⟨⟨ReorgEngine.reached_new hnew, rfl⟩, hpos, rfl⟩

end Pipeline

namespace Phase

variable {p p' : Pipeline} {capacity pos h : ℕ} {s s' : Phase} {prost : Prost}

/-- The window is that of the cache at some moment after the subscription: `F` had been
written to it. -/
def Snapshot (capacity : ℕ) (p : Pipeline) (pos : ℕ) (window : Option (ℕ × ℕ)) : Prop :=
  pos ≤ p.log.length ∧ ∃ F, p.log.take pos <+: F ∧ F <+: p.fed ∧
    window = cacheWindow (cacheOf capacity F)

/-- The backfill was walked after the snapshot, when `F'` had been written to the cache. -/
def Walked (prost : Prost) (capacity : ℕ) (p : Pipeline) (pos h : ℕ) (backfill : List Response) :
    Prop :=
  ∃ F F' head rows cached, p.log.take pos <+: F ∧ F <+: F' ∧ F' <+: p.fed ∧
    (p.archive = none → rows = []) ∧
    cacheRows (cacheOf capacity F') p.archive.isSome (cacheWindow (cacheOf capacity F)) h rows =
      .ok cached ∧
    backfill = backfillOf prost head rows cached

/-- What a call knows, by how far it has come. -/
def Ok (prost : Prost) (capacity : ℕ) (p : Pipeline) : Phase → Prop
  | .subscribed pos _ => pos ≤ p.log.length
  | .headRead pos _ _ => pos ≤ p.log.length
  | .snapshotted pos _ _ window => Snapshot capacity p pos window
  | .spanned pos _ _ window _ => Snapshot capacity p pos window
  | .archived pos _ _ window rows =>
    Snapshot capacity p pos window ∧ (p.archive = none → rows = [])
  | .streaming pos none backfill => pos ≤ p.log.length ∧ backfill = []
  | .streaming pos (some h) backfill =>
    pos ≤ p.log.length ∧ Walked prost capacity p pos h backfill
  | .refused _ => True

/-- What was broadcast before a subscription stays as it was. -/
theorem take_of_extends (he : p.Extends p') (hpos : pos ≤ p.log.length) :
    p'.log.take pos = p.log.take pos ∧ pos ≤ p'.log.length := by
  obtain ⟨rest, hrest⟩ := he.log
  rw [← hrest]
  exact ⟨List.take_append_of_le_length hpos, by rw [List.length_append]; omega⟩

/-- A pipeline without an archive never had one. -/
theorem archive_eq_none (he : p.Extends p') (h : p'.archive = none) : p.archive = none := by
  have := he.archive
  rw [h] at this
  simpa using this.symm

/-- A snapshot stays one as the pipeline goes on. -/
theorem Snapshot.mono {window : Option (ℕ × ℕ)} (hs : Snapshot capacity p pos window)
    (he : p.Extends p') : Snapshot capacity p' pos window := by
  obtain ⟨hpos, F, hF, hfed, hw⟩ := hs
  obtain ⟨htake, hpos'⟩ := take_of_extends he hpos
  exact ⟨hpos', F, htake ▸ hF, hfed.trans he.fed, hw⟩

/-- The other tasks do not disturb what a call knows. -/
theorem Ok.mono (hs : s.Ok prost capacity p) (he : p.Extends p') : s.Ok prost capacity p' := by
  match s, hs with
  | .subscribed pos _, hs => exact (take_of_extends he hs).2
  | .headRead pos _ _, hs => exact (take_of_extends he hs).2
  | .snapshotted .., hs => exact Snapshot.mono hs he
  | .spanned .., hs => exact Snapshot.mono hs he
  | .archived .., hs => exact ⟨hs.1.mono he, fun hn => hs.2 (archive_eq_none he hn)⟩
  | .streaming pos none _, hs => exact ⟨(take_of_extends he hs.1).2, hs.2⟩
  | .streaming pos (some h) _, ⟨hpos, F, F', head, rows, cached, h₁, h₂, h₃, h₄, h₅, h₆⟩ =>
    obtain ⟨htake, hpos'⟩ := take_of_extends he hpos
    exact ⟨hpos', F, F', head, rows, cached, htake ▸ h₁, h₂, h₃.trans he.fed,
      fun hn => h₄ (archive_eq_none he hn), he.archive ▸ h₅, h₆⟩
  | .refused _, _ => trivial

/-- **A step of the handler is one of its reads**: of the watch, the window, the archive's
span, the archive or the cache, in the order of the source. -/
theorem reads_of_advance (ha : s.advance prost p = some s') : Reads prost p s s' := by
  cases s with
  | subscribed pos start =>
    cases start with
    | none =>
      obtain rfl := Option.some.inj ha
      exact .live pos
    | some h =>
      obtain rfl := Option.some.inj ha
      exact .head pos h
  | headRead pos h head =>
    obtain rfl := Option.some.inj ha
    exact .window pos h head
  | snapshotted pos h head window =>
    obtain rfl := Option.some.inj ha
    exact .span pos h head window
  | spanned pos h head window span =>
    simp only [Phase.advance] at ha
    split at ha
    · rename_i he
      obtain rfl := Option.some.inj ha
      exact .noArchive pos head window he
    · rename_i hrows
      obtain rfl := Option.some.inj ha
      exact .archive pos head window hrows
  | archived pos h head window rows =>
    simp only [Phase.advance] at ha
    split at ha
    · rename_i he
      obtain rfl := Option.some.inj ha
      exact .noCache pos head he
    · rename_i hcached
      obtain rfl := Option.some.inj ha
      exact .cache pos head hcached
  | streaming => cases ha
  | refused => cases ha

/-- **One read of the handler** keeps what its phase says: the window is that of the cache
at some moment after the subscription, and the backfill was walked after that. -/
theorem Ok.advance (hp : p.Ok capacity) (hs : s.Ok prost capacity p)
    (ha : s.advance prost p = some s') : s'.Ok prost capacity p := by
  cases reads_of_advance ha with
  | live pos => exact ⟨hs, rfl⟩
  | head pos h => exact hs
  | window pos h head =>
    exact ⟨hs, p.fed, (List.take_prefix _ _).trans p.log_prefix_fed, List.prefix_rfl,
      by rw [hp.cache]⟩
  | span pos h head window => exact hs
  | archive pos head window hrows =>
    refine ⟨hs, fun hn => ?_⟩
    rw [hn] at hrows
    exact (Except.ok.inj hrows).symm
  | cache pos head hcached =>
    obtain ⟨⟨hpos, F, hF, hfed, hw⟩, harc⟩ := hs
    refine ⟨hpos, F, p.fed, head, _, _, hF, hfed, List.prefix_rfl, harc, ?_, rfl⟩
    rw [← hp.cache, ← hw]
    exact hcached
  | noArchive => trivial
  | noCache => trivial

/-- A call that has just been opened is in order. -/
theorem ok_opened (p : Pipeline) (req : Request) : (opened p.log req).Ok prost capacity p := by
  unfold opened
  split
  · trivial
  · exact le_rfl

end Phase

namespace World

variable {prost : Prost} {capacity : ℕ} {w w' : World} {a : Action}

/-- The invariant of every interleaving. -/
structure Ok (prost : Prost) (capacity : ℕ) (w : World) : Prop where
  pipeline : w.pipeline.Ok capacity
  session : ∀ s, w.session = some s → s.Ok prost capacity w.pipeline

variable (prost) in
/-- What a step does, when it can be taken. -/
inductive Moves (w : World) : Action → World → Prop
  | task {t : Task} {p : Pipeline} (hp : w.pipeline.step t = some p) :
    Moves w (.task t) { w with pipeline := p }
  | connect (req : Request) (hidle : w.session = none) :
    Moves w (.connect req) { w with session := some (.opened w.pipeline.log req) }
  | advance {s s' : Phase} (hsession : w.session = some s)
    (hadv : s.advance prost w.pipeline = some s') :
    Moves w .advance { w with session := some s' }
  | reconnect (taken : ℕ) {r : Response}
    (hlast : (w.received ++ (w.delivered prost).take taken).getLast? = some r) :
    Moves w (.reconnect taken)
      { w with session := some (.opened w.pipeline.log (resumeAt r))
               received := w.received ++ (w.delivered prost).take taken }

/-- **A step of the world is one of its moves**, of a task, of the handler, or of the
consumer, who connects when it has no call and reconnects with a cursor it took. -/
theorem moves_of_step (hs : w.step prost a = some w') : w.Moves prost a w' := by
  cases a with
  | task t =>
    obtain ⟨p, hp, rfl⟩ := Option.map_eq_some_iff.1 hs
    exact .task hp
  | connect req =>
    simp only [World.step] at hs
    split at hs
    · rename_i hidle
      obtain rfl := Option.some.inj hs
      exact .connect req hidle
    · cases hs
  | advance =>
    obtain ⟨s', hs', rfl⟩ := Option.map_eq_some_iff.1 hs
    obtain ⟨s, hsession, hadv⟩ := Option.bind_eq_some_iff.1 hs'
    exact .advance hsession hadv
  | reconnect taken =>
    obtain ⟨r, hlast, rfl⟩ := Option.map_eq_some_iff.1 hs
    exact .reconnect taken hlast

/-- Only the tasks move what is shared. -/
theorem step_pipeline (hs : w.step prost a = some w') :
    w'.pipeline = w.pipeline ∨ ∃ t, a = .task t ∧ w.pipeline.step t = some w'.pipeline := by
  cases moves_of_step hs with
  | @task t p hp => exact Or.inr ⟨t, rfl, hp⟩
  | _ => exact Or.inl rfl

/-- **One step of any task, of the handler or of the consumer** keeps both the pipeline and
the call in order; a step of a task only adds to the sequences the call has read from. -/
theorem Ok.step (h : w.Ok prost capacity) (hs : w.step prost a = some w') :
    w'.Ok prost capacity ∧ w.pipeline.Extends w'.pipeline := by
  cases moves_of_step hs with
  | task hp =>
    obtain ⟨hok, hext⟩ := h.pipeline.step hp
    exact ⟨⟨hok, fun s hsess => (h.session s hsess).mono hext⟩, hext⟩
  | connect =>
    refine ⟨⟨h.pipeline, fun s hsess => ?_⟩, Pipeline.Extends.refl _⟩
    obtain rfl := Option.some.inj hsess
    exact Phase.ok_opened _ _
  | advance hsession hadv =>
    refine ⟨⟨h.pipeline, fun s hsess => ?_⟩, Pipeline.Extends.refl _⟩
    obtain rfl := Option.some.inj hsess
    exact (h.session _ hsession).advance h.pipeline hadv
  | reconnect =>
    refine ⟨⟨h.pipeline, fun s hsess => ?_⟩, Pipeline.Extends.refl _⟩
    obtain rfl := Option.some.inj hsess
    exact Phase.ok_opened _ _

/-- The world starts in order. -/
theorem ok_init {config : ReorgConfig} {archive : Option BlockArchive}
    (h : World.init config capacity archive = some w) :
    w.Ok prost capacity ∧ 0 < capacity ∧ w.pipeline.archive = archive := by
  obtain ⟨p, hp, rfl⟩ := Option.map_eq_some_iff.1 h
  obtain ⟨hok, hpos, harc⟩ := Pipeline.ok_new hp
  exact ⟨⟨hok, fun s hs => by cases hs⟩, hpos, harc⟩

/-- A call that has made its last read stays as it is. -/
theorem session_of_final {s : Phase} {acts : List Action} (hfin : ∀ p, s.advance prost p = none)
    (hw : w.session = some s) (hr : Run.exec (World.step prost) w acts = some w')
    (hstay : ∀ a ∈ acts, a.Stays) : w'.session = some s := by
  refine Run.exec_preserves_of_forall (C := Action.Stays) (I := fun v => v.session = some s)
    ?_ hstay hw hr
  intro v a v' ha hv hs
  cases moves_of_step hs with
  | task => exact hv
  | connect => exact ha.elim
  | advance hsession hadv =>
    obtain rfl := Option.some.inj (hv.symm.trans hsession)
    rw [hfin] at hadv
    cases hadv
  | reconnect => exact ha.elim

/-- **Every interleaving keeps the invariant**, and the sequences only grow. -/
theorem Ok.exec {acts : List Action} (h : w.Ok prost capacity)
    (hr : Run.exec (World.step prost) w acts = some w') :
    w'.Ok prost capacity ∧ w.pipeline.Extends w'.pipeline := by
  refine Run.exec_preserves (I := fun v => v.Ok prost capacity ∧ w.pipeline.Extends v.pipeline)
    ?_ ⟨h, Pipeline.Extends.refl _⟩ hr
  rintro v a v' ⟨hv, hext⟩ hs
  obtain ⟨hv', hext'⟩ := hv.step hs
  exact ⟨hv', hext.trans hext'⟩

/-- **Every interleaving emits what a run of the engine alone emits**: the relayer is the
only task that calls it. -/
theorem exists_calls {config : ReorgConfig} {archive : Option BlockArchive} {acts : List Action}
    {w₀ : World} (hinit : World.init config capacity archive = some w₀)
    (hrun : Run.exec (World.step prost) w₀ acts = some w) :
    ∃ calls, runFresh config calls = some (w.pipeline.engine, w.pipeline.outs) := by
  have hstart : runFresh config [] = some (w₀.pipeline.engine, w₀.pipeline.outs) := by
    obtain ⟨p, hp, rfl⟩ := Option.map_eq_some_iff.1 hinit
    obtain ⟨engine, hnew, hrest⟩ := Option.bind_eq_some_iff.1 hp
    obtain ⟨cache, -, rfl⟩ := Option.map_eq_some_iff.1 hrest
    rw [runFresh, hnew]
    rfl
  refine Run.exec_preserves (I := fun v =>
    ∃ calls, runFresh config calls = some (v.pipeline.engine, v.pipeline.outs))
    ?_ ⟨[], hstart⟩ hrun
  rintro v a v' ⟨calls, hcalls⟩ hs
  rcases step_pipeline hs with hsame | ⟨t, -, ht⟩
  · exact ⟨calls, by rw [hsame]; exact hcalls⟩
  · rcases Pipeline.step_engine ht with ⟨he, ho⟩ | ⟨c, out, hc, ho⟩
    · exact ⟨calls, by rw [he, ho]; exact hcalls⟩
    · obtain ⟨e₀, hnew, hr⟩ := Option.bind_eq_some_iff.1 hcalls
      refine ⟨calls ++ [c], ?_⟩
      rw [runFresh, hnew, ho]
      exact Run.run_append_eq_some.2 ⟨_, _, out, hr,
        Run.run_cons_eq_some.2 ⟨_, out, [], hc, rfl, (List.append_nil _).symm⟩, rfl⟩

end World

end Firehose
end Lightcycle
