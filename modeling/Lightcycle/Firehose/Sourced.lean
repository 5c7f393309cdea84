/-
# What a consumer gets comes from the node

Every block on the wire is one that the node answered with, in this life of the daemon or in an
earlier one: by whichever way it came, live, from the cache, from the archive or by
`Fetch.Block`, and however the tasks interleave.  `P` is any property of the blocks the engine
is given, `Q` any of those `Fetch.Block` gets, and `H` any of solidified heads; the invariant
`Daemon.Given` is that everything the daemon holds or has sent has them, where `Fetch.Block` may
fill the cache only if `Q` is no weaker than `P`.

The wire shape is the projection of the block to payload and metadata (`Conveys`), and the
payload decodes to it: nothing is lost between java-tron's bytes and the consumer's
(`consumer_reads_node`).
-/

import Lightcycle.Firehose.Refine
import Lightcycle.Firehose.Rows

namespace Lightcycle
namespace Firehose

open Relayer Store

section Given

variable (prost : Prost) (P : BufferedBlock → Prop) (H : ℕ → Prop)

/-- The solidified head is one with `H`. -/
def HeadGiven (head : Option ℕ) : Prop := ∀ n, head = some n → H n

/-- Payload and metadata are those of a block with `P`, its head with `H`. -/
def Conveys (r : SingleBlockResponse) : Prop :=
  ∃ b f, P b ∧ HeadGiven H f.solidifiedHead ∧ r = oracleResponse prost b f

/-- Every row is the encoding of a block with `P`, its head with `H`. -/
def RowsGiven (a : BlockArchive) : Prop :=
  ∀ x ∈ a.blocks.entries, ∃ b f, P b ∧ HeadGiven H f.solidifiedHead ∧
    x = (b.height, packValue b.blockId (prost.encodeToVec (encodeBlock b f)))

/-- Every entry is a block with `P`. -/
structure CacheGiven (c : BlockCache BufferedBlock) : Prop where
  wf : c.Wf
  block : ∀ x ∈ c.byHeight.entries, P x.2.2

/-- What was encoded of such blocks is read back. -/
def ReadsBack : Prop :=
  ∀ b f, P b → HeadGiven H f.solidifiedHead →
    prost.decode (prost.encodeToVec (encodeBlock b f)) = some (encodeBlock b f)

variable {prost P H}

/-- What conveys a block of one kind conveys one of a wider kind. -/
theorem Conveys.imp {Q : BufferedBlock → Prop} {r : SingleBlockResponse} (h : Conveys prost P H r)
    (hPQ : ∀ b, P b → Q b) : Conveys prost Q H r := by
  obtain ⟨b, f, hb, hf, rfl⟩ := h
  exact ⟨b, f, hPQ b hb, hf, rfl⟩

/-! ### The ways to the wire -/

/-- A live response conveys the block of its output. -/
theorem conveys_streamableToResponse {s : StreamableBlock} (h : s.Given P H) (step : ForkStep) :
    Conveys prost P H ⟨(streamableToResponse prost s step).block,
      (streamableToResponse prost s step).metadata⟩ :=
  ⟨s.block, s.finality, h.block, h.head, rfl⟩

/-- The live path. -/
theorem conveys_live {o : Output} (ho : o.Given P H) {last : Option ℕ} {r : Response}
    (hr : liveItem prost last (.ok o) = some (.ok r)) : Conveys prost P H ⟨r.block, r.metadata⟩ := by
  obtain ⟨response, hresponse, hitem⟩ := Option.bind_eq_some_iff.1 hr
  have hsame : response = r := by
    split at hitem
    · split_ifs at hitem
      exact Except.ok.inj (Option.some.inj hitem)
    · exact Except.ok.inj (Option.some.inj hitem)
  subst hsame
  cases ho with
  | new h | undo h | irreversible h =>
    obtain rfl := Option.some.inj hresponse
    exact conveys_streamableToResponse h _
  | _ => cases hresponse

/-- The cache. -/
theorem conveys_cachedResponse {b : BufferedBlock} (hb : P b) {head : Option ℕ}
    (hhead : HeadGiven H head) :
    Conveys prost P H ⟨(cachedResponse prost head b).block, (cachedResponse prost head b).metadata⟩ :=
  conveys_streamableToResponse
    (s := ⟨.new, b, ⟨b.height, b.blockId⟩, .forBlock b.height head false⟩) ⟨hb, hhead⟩ .stepNew

/-- A row of the archive: its parent, time and head are read back out of the payload. -/
theorem conveys_archived (hread : ReadsBack prost P H) {a : BlockArchive}
    (ha : RowsGiven prost P H a) {x : ℕ × List UInt8} (hx : x ∈ a.blocks.entries) {r : Response}
    (hr : rowResponse prost x = some r) : Conveys prost P H ⟨r.block, r.metadata⟩ := by
  obtain ⟨b, f, hb, hf, rfl⟩ := ha x hx
  have hrow : BlockArchive.rowOf (b.height, packValue b.blockId (prost.encodeToVec (encodeBlock b f))) =
      some (b.height, b.blockId, prost.encodeToVec (encodeBlock b f)) := by
    rw [BlockArchive.rowOf, unpackValue_packValue]
    rfl
  have hlive := @archivedResponse_eq prost ⟨.new, b, ⟨b.height, b.blockId⟩, f⟩ rfl (hread b f hb hf)
  rw [rowResponse, hrow, Option.bind_some] at hr
  obtain rfl := Option.some.inj (hr.symm.trans hlive)
  exact ⟨b, f, hb, hf, rfl⟩

/-- The archive's part of a backfill conveys the blocks its rows were written for. -/
theorem conveys_archiveRows (hread : ReadsBack prost P H) {archive : Option BlockArchive}
    (ha : ∀ a, archive = some a → RowsGiven prost P H a) {h : ℕ} {span : Option ℕ}
    {rows : List Response} (hrows : archiveRows prost archive h span = .ok rows) :
    ∀ r ∈ rows, Conveys prost P H ⟨r.block, r.metadata⟩ := by
  unfold archiveRows at hrows
  split at hrows
  · split at hrows
    · rename_i hwalk
      obtain rfl := Except.ok.inj hrows
      intro r hr
      rw [archiveWalk_eq (unpacks_of_ok hwalk)] at hwalk
      obtain rfl := Except.ok.inj hwalk
      obtain ⟨x, hx, hxr⟩ := List.mem_filterMap.1 hr
      exact conveys_archived hread (ha _ rfl)
        (SortedMap.mem_range.1 (List.mem_of_mem_take hx)).1 hxr
    · cases hrows
  · obtain rfl := Except.ok.inj hrows
    exact fun _ hr => (List.not_mem_nil hr).elim

/-- A cached block is one that was given. -/
theorem block_of_getByHeight {c : BlockCache BufferedBlock} (hc : CacheGiven P c) {height : ℕ}
    {x : BlockId × BufferedBlock} (h : c.getByHeight height = some x) : P x.2 :=
  hc.block _ (SortedMap.get?_eq_some.1 h)

/-- So are the blocks of the cache's part of a backfill. -/
theorem block_of_cacheRows {c : BlockCache BufferedBlock} (hc : CacheGiven P c) {hasArchive : Bool}
    {window : Option (ℕ × ℕ)} {h : ℕ} {archived : List Response} {cached : List BufferedBlock}
    (hrows : cacheRows c hasArchive window h archived = .ok cached) : ∀ b ∈ cached, P b := by
  cases window with
  | none =>
    obtain ⟨-, rfl⟩ := cacheRows_none_ok_iff.1 hrows
    exact fun _ hb => (List.not_mem_nil hb).elim
  | some w =>
    obtain ⟨-, -, -, rfl⟩ := cacheRows_some_ok_iff.1 hrows
    intro b hb
    obtain ⟨k, -, hstored⟩ := List.mem_filterMap.1 hb
    obtain ⟨x, hget, rfl⟩ := Option.map_eq_some_iff.1 hstored
    exact block_of_getByHeight hc hget

/-- `Fetch.Block` from the archive. -/
theorem conveys_fetchArchived (hread : ReadsBack prost P H) {a : BlockArchive}
    (ha : RowsGiven prost P H a) {height : ℕ} {r : SingleBlockResponse}
    (hr : fetchArchived prost a height = some r) : Conveys prost P H r := by
  unfold fetchArchived at hr
  split at hr
  · rename_i id payload hget
    obtain rfl := Option.some.inj hr
    obtain ⟨bytes, hmem, hrow⟩ := exists_row_of_get hget
    obtain ⟨b, f, hb, hf, hx⟩ := ha _ hmem
    obtain ⟨rfl, rfl⟩ := Prod.mk.inj hx
    rw [BlockArchive.rowOf, unpackValue_packValue] at hrow
    obtain ⟨rfl, rfl⟩ := Prod.mk.inj (Prod.mk.inj (Option.some.inj hrow)).2
    refine ⟨b, f, hb, hf, ?_⟩
    exact @archiveHitResponse_eq prost ⟨.new, b, ⟨b.height, b.blockId⟩, f⟩ (hread b f hb hf) .stepNew
  · cases hr
  · cases hr

/-! ### What is written -/

/-- The archiver writes rows of what is announced. -/
theorem RowsGiven.archiveOutput {a : BlockArchive} (h : RowsGiven prost P H a) {o : Output}
    (ho : o.Given P H) : RowsGiven prost P H (archiveOutput prost a o) := by
  cases ho with
  | irreversible hs =>
    intro x hx
    rcases SortedMap.mem_insert.1 hx with rfl | ⟨hx, -⟩
    · exact ⟨_, _, hs.block, hs.head, rfl⟩
    · exact h x hx
  | _ => exact h

/-- Retention only takes rows away. -/
theorem RowsGiven.deleteBelow {a : BlockArchive} (h : RowsGiven prost P H a) (floor : ℕ) :
    RowsGiven prost P H (a.deleteBelow floor).1 :=
  fun x hx => h x (BlockArchive.mem_deleteBelow.1 hx).1

/-- Inserting a given block leaves the cache with given blocks. -/
theorem CacheGiven.insert {c : BlockCache BufferedBlock} (h : CacheGiven P c) {b : BufferedBlock}
    (hb : P b) : CacheGiven P (c.insert b.height b.blockId b).1 := by
  refine ⟨h.wf.insert _ _ _, fun x hx => ?_⟩
  rcases BlockCache.of_mem_insert h.wf hx with rfl | ⟨hx, -⟩
  · exact hb
  · exact h.block x hx

/-- So does feeding an output. -/
theorem CacheGiven.feedCache {c : BlockCache BufferedBlock} (h : CacheGiven P c) {o : Output}
    (ho : o.Given P H) : CacheGiven P (feedCache c o) := by
  cases ho with
  | new hs => exact h.insert hs.block
  | undo hs => exact ⟨h.wf.removeById _, fun x hx => h.block x (BlockCache.of_mem_removeById hx)⟩
  | _ => exact h

/-! ### The handlers -/

variable (prost P H) in
/-- What a call of `Stream.Blocks` has read. -/
def Phase.Given : Phase → Prop
  | .subscribed .. => True
  | .headRead _ _ head => HeadGiven H head
  | .snapshotted _ _ head _ => HeadGiven H head
  | .spanned _ _ head _ _ => HeadGiven H head
  | .archived _ _ head _ rows =>
    HeadGiven H head ∧ ∀ r ∈ rows, Conveys prost P H ⟨r.block, r.metadata⟩
  | .streaming _ _ backfill => ∀ r ∈ backfill, Conveys prost P H ⟨r.block, r.metadata⟩
  | .refused _ => True

/-- A call that has just been opened has collected nothing. -/
theorem Phase.given_opened (log : List Output) (req : Request) :
    (Phase.opened log req).Given prost P H := by
  unfold Phase.opened
  cases validate req with
  | error status => trivial
  | ok start => trivial

/-- **One read of the handler** collects responses that convey given blocks, from the
archive or from the cache. -/
theorem Phase.Given.advance (hread : ReadsBack prost P H) {pipeline : Pipeline} {s s' : Phase}
    (h : s.Given prost P H) (hhead : HeadGiven H pipeline.head)
    (hcache : CacheGiven P pipeline.cache)
    (harchive : ∀ a, pipeline.archive = some a → RowsGiven prost P H a)
    (hs : s.advance prost pipeline = some s') : s'.Given prost P H := by
  cases Phase.reads_of_advance hs with
  | live => exact fun _ hr => (List.not_mem_nil hr).elim
  | head => exact hhead
  | window => exact h
  | span => exact h
  | archive pos head window hrows => exact ⟨h, conveys_archiveRows hread harchive hrows⟩
  | noArchive => trivial
  | cache pos head hcached =>
    refine List.forall_mem_append.2 ⟨h.2, fun r hr => ?_⟩
    obtain ⟨b, hb, rfl⟩ := List.mem_map.1 hr
    exact conveys_cachedResponse (block_of_cacheRows hcache hcached b hb) h.1
  | noCache => trivial

/-- All that a call delivers conveys given blocks. -/
theorem Phase.Given.delivered {s : Phase} (h : s.Given prost P H) {log : List Output}
    (hlog : ∀ o ∈ log, o.Given P H) :
    ∀ r ∈ s.delivered prost log, Conveys prost P H ⟨r.block, r.metadata⟩ := by
  cases s with
  | streaming pos start backfill =>
    refine List.forall_mem_append.2 ⟨h, fun r hr => ?_⟩
    obtain ⟨o, ho, hitem⟩ := List.mem_filterMap.1 hr
    split at hitem
    · rename_i hlive
      obtain rfl := Option.some.inj hitem
      exact conveys_live (hlog o (List.mem_of_mem_drop ho)) hlive
    · cases hitem
  | _ => exact fun _ hr => (List.not_mem_nil hr).elim

/-! ### The daemon -/

variable (Q : BufferedBlock → Prop)

variable (prost P H) in
/-- Everything the daemon holds or has sent is of blocks with `P` and heads with `H`, and what
`Fetch.Block` got or has answered of blocks with `Q`. -/
structure Daemon.Given (d : Daemon) : Prop where
  wf : d.worker.relay.service.engine.Wf
  engine : d.worker.relay.service.engine.Given P H
  toFeed : ∀ o ∈ d.worker.toFeed, o.Given P H
  inHand : ∀ o, d.worker.inHand = some o → o.Given P H
  mpsc : ∀ o ∈ d.mpsc, o.Given P H
  log : ∀ o ∈ d.log, o.Given P H
  cache : ∀ c, d.worker.relay.service.blockCache = some c → CacheGiven P c
  head : HeadGiven H d.worker.relay.service.solidifiedHeadTx.join
  archive : ∀ a, d.archive = some a → RowsGiven prost P H a
  session : ∀ s, d.session = some s → s.Given prost P H
  received : ∀ r ∈ d.received, Conveys prost P H ⟨r.block, r.metadata⟩
  fetches : ∀ b f, FetchPhase.answered (some (b, f)) ∈ d.fetches →
    Q b ∧ HeadGiven H f.solidifiedHead
  fetched : ∀ r ∈ d.fetched, Conveys prost Q H r

variable (P H) in
/-- The replies of the step, taken by the worker `w`, give blocks with `P` and heads with `H`, to
`Fetch.Block` blocks with `Q`, and the cache is filled with none but blocks with `P`. -/
def DaemonAction.Gives (p : Protocol.PayloadDecoders) (sha256 : List UInt8 → List.Vector UInt8 32)
    (recover : List.Vector UInt8 32 → List UInt8 → UInt8 → Option Address) (w : Worker) :
    DaemonAction → Prop
  | .worker a => ∀ c, Answered p sha256 (· = a) c → Admits recover w c → c.Gives P H
  | .ask _ getBlockByNum solidity => ∀ height b f,
    GrpcBlockOracle.fetchBlockByNumber p sha256 getBlockByNum solidity height = .ok (some (b, f)) →
      Q b ∧ HeadGiven H f.solidifiedHead
  | .populate _ => ∀ b, Q b → P b
  | _ => True

variable {Q}

namespace Daemon.Given

variable {p : Protocol.PayloadDecoders} {sha256 : List UInt8 → List.Vector UInt8 32}
  {recover : List.Vector UInt8 32 → List UInt8 → UInt8 → Option Address} {d d' : Daemon}

/-- **A step of the worker** hands over at most what its reply gives, and writes and sends
what it was given before. -/
theorem worker (h : d.Given prost P H Q) {a : WorkerAction} {w' : Worker} {out : List Output}
    (ha : (DaemonAction.worker a).Gives P H Q p sha256 recover d.worker)
    (hm : WorkerMoves p sha256 recover d.worker a w' out) :
    Daemon.Given prost P H Q { d with worker := w', mpsc := d.mpsc ++ out } := by
  have hwatch := hm.head h.head fun s hs => ha _ hs trivial
  cases hm with
  | quiet hengine hcache hhead hfeed hhand =>
    exact { h with
      wf := hengine ▸ h.wf, engine := hengine ▸ h.engine, toFeed := hfeed ▸ h.toFeed
      inHand := hhand ▸ h.inHand, mpsc := by rw [List.append_nil]; exact h.mpsc
      cache := hcache ▸ h.cache, head := hwatch }
  | @call _ c e' os _ hidle hanswered hadmits hcall hengine hcache hhead hfeed hhand =>
    have hgives := ha c hanswered hadmits
    have hstep := ReorgEngine.step_of_call h.wf hcall
    obtain ⟨hgiven, hout⟩ := hstep.given h.engine hgives
    exact { h with
      wf := by rw [hengine]; exact hstep.wf h.wf
      engine := by rw [hengine]; exact hgiven
      toFeed := by rw [hfeed]; exact hout
      inHand := by rw [hhand]; exact fun _ ho => by cases ho
      mpsc := by rw [List.append_nil]; exact h.mpsc
      cache := hcache ▸ h.cache, head := hwatch }
  | @feed o os w' hfeed hhand hengine hcache hhead hfeed' hhand' =>
    have htoFeed := h.toFeed
    rw [hfeed, List.forall_mem_cons] at htoFeed
    exact { h with
      wf := hengine ▸ h.wf, engine := hengine ▸ h.engine
      toFeed := by rw [hfeed']; exact htoFeed.2
      inHand := fun o' ho' => by
        rw [hhand'] at ho'
        obtain rfl := Option.some.inj ho'
        exact htoFeed.1
      mpsc := by rw [List.append_nil]; exact h.mpsc
      cache := fun c hc => by
        rw [hcache] at hc
        obtain ⟨c', hc', rfl⟩ := Option.map_eq_some_iff.1 hc
        exact (h.cache c' hc').feedCache htoFeed.1
      head := hwatch }
  | @send o w' hhand hengine hcache hhead hfeed hhand' =>
    exact { h with
      wf := hengine ▸ h.wf, engine := hengine ▸ h.engine, toFeed := hfeed ▸ h.toFeed
      inHand := by rw [hhand']; exact fun _ ho => by cases ho
      mpsc := List.forall_mem_append.2 ⟨h.mpsc, List.forall_mem_singleton.2 (h.inHand o hhand)⟩
      cache := hcache ▸ h.cache, head := hwatch }

/-- A call that came to an end. -/
theorem eraseFetch (h : d.Given prost P H Q) (i : ℕ) :
    Daemon.Given prost P H Q { d with fetches := d.fetches.eraseIdx i } :=
  { h with fetches := fun b f hbf => h.fetches b f (List.mem_of_mem_eraseIdx hbf) }

/-- A call that goes on. -/
theorem setFetch (h : d.Given prost P H Q) (i : ℕ) {c : FetchPhase}
    (hc : ∀ b f, c = .answered (some (b, f)) → Q b ∧ HeadGiven H f.solidifiedHead) :
    Daemon.Given prost P H Q { d with fetches := d.fetches.set i c } := by
  refine { h with fetches := fun b f hbf => ?_ }
  rcases List.mem_or_eq_of_mem_set hbf with hbf | rfl
  · exact h.fetches b f hbf
  · exact hc b f rfl

/-- What the consumer has taken. -/
theorem delivered (h : d.Given prost P H Q) :
    ∀ r ∈ d.delivered prost, Conveys prost P H ⟨r.block, r.metadata⟩ := by
  refine List.forall_mem_append.2 ⟨h.received, ?_⟩
  cases hsession : d.session with
  | none => exact fun _ hr => (List.not_mem_nil hr).elim
  | some s => exact (h.session s hsession).delivered h.log

/-- What a call of `Fetch.Block` writes and answers. -/
theorem populate (h : d.Given prost P H Q) {i : ℕ} {answer : Option (BufferedBlock × BlockFinality)}
    (hc : d.fetches[i]? = some (.answered answer)) (hfill : ∀ b, Q b → P b) :
    Daemon.Given prost P H Q
      { d.withCache (d.cache.map (Firehose.populate · answer)) with
        fetches := d.fetches.eraseIdx i
        fetched := d.fetched ++ answer.toList.map fun x => oracleResponse prost x.1 x.2 } := by
  have hgiven : ∀ x ∈ answer.toList, Q x.1 ∧ HeadGiven H x.2.solidifiedHead := by
    intro x hx
    rw [Option.mem_toList] at hx
    obtain rfl : answer = some x := hx
    exact h.fetches x.1 x.2 (List.mem_of_getElem? hc)
  refine { h.eraseFetch i with
    cache := fun c hc => ?_, fetched := List.forall_mem_append.2 ⟨h.fetched, fun r hr => ?_⟩ }
  · obtain ⟨c', hc', rfl⟩ := Option.map_eq_some_iff.1 hc
    cases answer with
    | none => exact h.cache c' hc'
    | some x => exact (h.cache c' hc').insert (hfill _ (hgiven x (List.mem_singleton_self x)).1)
  · obtain ⟨x, hx, rfl⟩ := List.mem_map.1 hr
    exact ⟨x.1, x.2, (hgiven x hx).1, (hgiven x hx).2, rfl⟩

/-- **One step of the daemon** whose replies give such blocks and heads: what it holds is
kept, moved on, or was given in this step. -/
theorem step (hread : ReadsBack prost P H) (hPQ : ∀ b, P b → Q b) (h : d.Given prost P H Q)
    {act : DaemonAction} (ha : act.Gives P H Q p sha256 recover d.worker)
    (hs : d.step p sha256 recover prost act = some d') : d'.Given prost P H Q := by
  cases Daemon.moves_of_step hs with
  | worker hworker => exact h.worker ha (moves_of_worker hworker)
  | pump hmpsc =>
    have htaken := h.mpsc
    rw [hmpsc, List.forall_mem_cons] at htaken
    exact { h with
      mpsc := htaken.2
      log := List.forall_mem_append.2 ⟨h.log, List.forall_mem_singleton.2 htaken.1⟩ }
  | archiver ho harchive =>
    refine { h with archive := fun a' ha' => ?_ }
    obtain rfl := Option.some.inj ha'
    exact (h.archive _ harchive).archiveOutput (h.log _ (List.mem_of_getElem? ho))
  | lagged => exact { h with }
  | prune =>
    refine { h with archive := fun a' ha' => ?_ }
    obtain ⟨a, harchive, rfl⟩ := Option.map_eq_some_iff.1 ha'
    exact (h.archive a harchive).deleteBelow _
  | connect req =>
    refine { h with session := fun s hs => ?_ }
    obtain rfl := Option.some.inj hs
    exact Phase.given_opened _ _
  | advance hpipeline hsession hadv =>
    obtain ⟨cache, hcache, rfl⟩ := Option.map_eq_some_iff.1 hpipeline
    refine { h with session := fun s hs => ?_ }
    obtain rfl := Option.some.inj hs
    exact (h.session _ hsession).advance hread h.head (h.cache cache hcache) h.archive hadv
  | reconnect taken hreceived hlast =>
    refine { h with session := fun s hs => ?_, received := fun r hr => ?_ }
    · obtain rfl := Option.some.inj hs
      exact Phase.given_opened _ _
    · rw [hreceived] at hr
      rcases List.mem_append.1 hr with hr | hr
      · exact h.received r hr
      · exact h.delivered r (List.mem_append_right _ (List.mem_of_mem_take hr))
  | archived harchive hr =>
    refine { h with fetched := List.forall_mem_append.2 ⟨h.fetched, ?_⟩ }
    exact List.forall_mem_singleton.2
      ((conveys_fetchArchived hread (h.archive _ harchive) hr).imp hPQ)
  | unarchived height =>
    refine { h with fetches := fun b f hbf => ?_ }
    rcases List.mem_append.1 hbf with hbf | hbf
    · exact h.fetches b f hbf
    · cases List.mem_singleton.1 hbf
  | @cached i _ _ _ _ hcache hprobe =>
    obtain ⟨x, hget, hx⟩ := Option.map_eq_some_iff.1 hprobe
    obtain ⟨rfl, rfl⟩ := Prod.mk.inj hx
    have hb : P x.2 := block_of_getByHeight (h.cache _ hcache) hget
    refine { h.eraseFetch i with fetched := List.forall_mem_append.2 ⟨h.fetched, ?_⟩ }
    exact List.forall_mem_singleton.2 ⟨_, _, hPQ _ hb, h.head, rfl⟩
  | uncached i height => exact h.setFetch i fun b f hbf => by cases hbf
  | failed i => exact h.eraseFetch i
  | @answered i height _ _ _ hanswer =>
    refine h.setFetch i fun b f hbf => ?_
    cases hbf
    exact ha height b f hanswer
  | populate hc => exact h.populate hc ha

/-- A fresh daemon over rows of such blocks. -/
theorem start {args : RelayArgs} {retention : ℕ} {witnesses : Reply} {archive : Option BlockArchive}
    (harchive : ∀ a, archive = some a → RowsGiven prost P H a)
    (h : Daemon.start args retention witnesses archive = .ok (some d)) : d.Given prost P H Q := by
  obtain ⟨relay?, hrelay, hmk⟩ := Decode.map_eq_ok.1 h
  obtain ⟨relay, rfl, rfl⟩ := Option.map_eq_some_iff.1 hmk
  obtain ⟨srSet, -, hstart⟩ := Decode.map_eq_ok.1 hrelay
  obtain ⟨engine, hnew, hsome⟩ := Option.bind_eq_some_iff.1 hstart
  obtain ⟨cache?, hopen, rfl⟩ := Option.map_eq_some_iff.1 hsome
  rw [if_pos rfl] at hopen
  obtain ⟨cache, hcache, rfl⟩ := Option.map_eq_some_iff.1 hopen
  refine
    { wf := ReorgEngine.wf_new hnew, engine := ReorgEngine.given_new hnew
      toFeed := fun _ ho => (List.not_mem_nil ho).elim
      inHand := fun _ ho => by cases ho
      mpsc := fun _ ho => (List.not_mem_nil ho).elim
      log := fun _ ho => (List.not_mem_nil ho).elim
      cache := fun c hc => ?_
      head := fun _ hn => by cases hn
      archive := harchive
      session := fun _ hs => by cases hs
      received := fun _ hr => (List.not_mem_nil hr).elim
      fetches := fun _ _ hf => (List.not_mem_nil hf).elim
      fetched := fun _ hr => (List.not_mem_nil hr).elim }
  obtain rfl := Option.some.inj hc
  refine ⟨BlockCache.wf_new hcache, fun x hx => ?_⟩
  obtain ⟨-, rfl⟩ := BlockCache.eq_of_new hcache
  exact (List.not_mem_nil hx).elim

/-- **A run of the daemon** whose replies give such blocks and heads keeps to them in the
engine, the cache, the archive and whatever its consumer is given. -/
theorem run (hread : ReadsBack prost P H) (hPQ : ∀ b, P b → Q b) (h : d.Given prost P H Q)
    {acts : List DaemonAction} (hacts : ∀ act ∈ acts, ∀ w, act.Gives P H Q p sha256 recover w)
    (hrun : Run.exec (Daemon.step p sha256 recover prost) d acts = some d') :
    d'.Given prost P H Q :=
  Run.exec_preserves_of_forall (fun d _ _ ha h hs => h.step hread hPQ (ha d.worker) hs) hacts h hrun

end Daemon.Given

end Given

/-! ### The node -/

variable (p : Protocol.PayloadDecoders) (sha256 : List UInt8 → List.Vector UInt8 32)

/-- The block is one the node answered with: a head, in a tick, with the receipts it gave for
it, or a block by its number, in a call of `Fetch.Block`. -/
inductive FromNode (acts : List DaemonAction) : BufferedBlock → Prop
  | head {r : Replies} (hr : HeardIn acts (.head r)) {d : DecodedBlock} {txInfos : List DecodedTxInfo}
    (h : r.Carry p sha256 d txInfos) (forkId : UInt32) :
    FromNode acts (ReorgEngine.bufferedBlock forkId d txInfos)
  | byNumber {i height : ℕ} {getBlockByNum : ℕ → Reply} {solidity : Reply}
    (hact : .ask i getBlockByNum solidity ∈ acts) {bytes : List UInt8} {d : DecodedBlock}
    (hreply : getBlockByNum height = some bytes) (h : decodeBlock p sha256 bytes = .ok d) :
    FromNode acts (ReorgEngine.bufferedBlock 0 d [])

/-- The height is one the node answered as its solidified head. -/
inductive HeadFromNode (acts : List DaemonAction) : ℕ → Prop
  | tick {r : Replies} (hr : HeardIn acts (.solidity r)) {n : ℕ}
    (h : GrpcSource.fetchSolidifiedHead r.solidity = .ok (some n)) : HeadFromNode acts n
  | fetch {i : ℕ} {getBlockByNum : ℕ → Reply} {solidity : Reply}
    (hact : .ask i getBlockByNum solidity ∈ acts) {n : ℕ}
    (h : GrpcSource.fetchSolidifiedHead solidity = .ok (some n)) : HeadFromNode acts n

variable {p sha256} {acts acts' : List DaemonAction}

/-- A solidified head that the node answered is a `u64`. -/
theorem HeadFromNode.lt {n : ℕ} (h : HeadFromNode acts n) : n < 2 ^ 64 := by
  cases h with
  | tick _ h => exact GrpcSource.lt_of_fetchSolidifiedHead h
  | fetch _ h => exact GrpcSource.lt_of_fetchSolidifiedHead h

/-- What the node answered can be read back. -/
theorem FromNode.readable (hp : p.Fits) {b : BufferedBlock} (h : FromNode p sha256 acts b) :
    Readable b := by
  cases h with
  | head _ h =>
    obtain ⟨⟨bytes, -, hblock⟩, hinfos⟩ := h
    obtain ⟨block, -, hmessage⟩ := Decode.bind_eq_ok.1 hblock
    refine ⟨DecodedHeader.height_lt _, fits_of_decodeBlockMessage hp hmessage, ?_⟩
    rcases hinfos with rfl | ⟨bytes, -, hdecode⟩
    · exact fun _ hi => (List.not_mem_nil hi).elim
    · exact fits_of_decodeTransactionInfoList hdecode
  | byNumber _ _ h =>
    obtain ⟨block, -, hmessage⟩ := Decode.bind_eq_ok.1 h
    exact ⟨DecodedHeader.height_lt _, fits_of_decodeBlockMessage hp hmessage,
      fun _ hi => (List.not_mem_nil hi).elim⟩

/-- What the oracle answers, the node answered with the block of that number. -/
theorem GrpcBlockOracle.of_fetchBlockByNumber {getBlockByNum : ℕ → Reply} {solidity : Reply}
    {height : ℕ} {x : BufferedBlock × BlockFinality}
    (h : fetchBlockByNumber p sha256 getBlockByNum solidity height = .ok (some x)) :
    ∃ bytes d, getBlockByNum height = some bytes ∧ decodeBlock p sha256 bytes = .ok d ∧
      x = grpcAnswer (GrpcSource.fetchSolidifiedHead solidity).toOption.join d := by
  obtain ⟨block, hblock, h⟩ := Decode.bind_eq_ok.1 h
  split_ifs at h
  · cases h
  · obtain ⟨d, hd, hanswer⟩ := Decode.map_eq_ok.1 h
    have hfetch := Decode.mapError_eq_ok.1 hblock
    unfold GrpcSource.fetchBlock at hfetch
    split_ifs at hfetch
    obtain ⟨bytes, hreply, hparse⟩ := rpc_eq_ok.1 hfetch
    exact ⟨bytes, d, hreply, Decode.bind_eq_ok.2
      ⟨block, orProtoDecode_eq_ok.2 hparse, Decode.mapError_eq_ok.1 hd⟩, (Option.some.inj hanswer).symm⟩

/-- **Every step gives what the node answered**: the block of a tick and of a `Fetch.Block`,
and the head of a solidified read. -/
theorem DaemonAction.gives_fromNode {act : DaemonAction} (hact : act ∈ acts)
    (recover : List.Vector UInt8 32 → List UInt8 → UInt8 → Option Address) (w : Worker) :
    act.Gives (FromNode p sha256 acts) (HeadFromNode acts) (FromNode p sha256 acts) p sha256 recover
      w := by
  cases act with
  | worker a =>
    intro c hc _
    cases hc with
    | accept hr h => exact fun forkId => .head (by rw [hr]; exact hact) h forkId
    | setSolidifiedHead hr h => exact .tick (by rw [hr]; exact hact) h
  | ask i getBlockByNum solidity =>
    intro height b f h
    obtain ⟨bytes, d, hreply, hdecode, hanswer⟩ := GrpcBlockOracle.of_fetchBlockByNumber h
    obtain ⟨rfl, rfl⟩ := Prod.mk.inj hanswer
    exact ⟨.byNumber hact hreply hdecode,
      fun n hn => .fetch hact (Decode.toOption_join_eq_some.1 hn)⟩
  | populate i => exact fun _ hb => hb
  | _ => trivial

/-! ### The lives of the daemon -/

/-- The lives of the daemon on one database so far, each as `C` wants it, on the archive as the
last one left it or on none, and ended at any step: what they did, the SR sets they started
with, and the archive now. -/
inductive Lives (C : RelayArgs → List DaemonAction → Prop) (p : Protocol.PayloadDecoders)
    (sha256 : List UInt8 → List.Vector UInt8 32)
    (recover : List.Vector UInt8 32 → List UInt8 → UInt8 → Option Address) (prost : Prost) :
    List DaemonAction → List Reply → BlockArchive → Prop
  | fresh : Lives C p sha256 recover prost [] [] .empty
  | life {earlier acts : List DaemonAction} {listings : List Reply} {stored : BlockArchive}
    {args : RelayArgs} {retention : ℕ} {witnesses : Reply} {archive : Option BlockArchive}
    {d₀ d : Daemon} (h : Lives C p sha256 recover prost earlier listings stored) (hC : C args acts)
    (hopen : archive = none ∨ archive = some stored)
    (hstart : Daemon.start args retention witnesses archive = .ok (some d₀))
    (hrun : Run.exec (Daemon.step p sha256 recover prost) d₀ acts = some d) :
    Lives C p sha256 recover prost (earlier ++ acts) (listings ++ [witnesses])
      (d.archive.getD stored)

section Lives

variable {C : RelayArgs → List DaemonAction → Prop}
  {recover : List.Vector UInt8 32 → List UInt8 → UInt8 → Option Address} {prost : Prost}
  {P Q : BufferedBlock → Prop} {H : ℕ → Prop} {total : List DaemonAction} {listed : List Reply}

variable (p sha256 C recover prost P Q H total listed) in
/-- A life that is part of `total` keeps what it is given. -/
def LifeKeeps : Prop :=
  ∀ (args : RelayArgs) (retention : ℕ) (witnesses : Reply) (archive : Option BlockArchive)
    (d₀ d : Daemon) (acts : List DaemonAction), C args acts → acts ⊆ total → witnesses ∈ listed →
    Daemon.start args retention witnesses archive = .ok (some d₀) → d₀.Given prost P H Q →
    Run.exec (Daemon.step p sha256 recover prost) d₀ acts = some d → d.Given prost P H Q

/-- A life opens the archive as it was left, or none. -/
theorem RowsGiven.open {stored : BlockArchive} {archive : Option BlockArchive}
    (h : RowsGiven prost P H stored) (hopen : archive = none ∨ archive = some stored) :
    ∀ a, archive = some a → RowsGiven prost P H a := by
  rintro a rfl
  rcases hopen with hnone | hsome
  · cases hnone
  · obtain rfl := Option.some.inj hsome
    exact h

/-- **What the lives leave on disk** are rows of blocks that the node answered in one of
them. -/
theorem Lives.rowsGiven {stored : BlockArchive} {listings : List Reply}
    (hlife : LifeKeeps p sha256 C recover prost P Q H total listed)
    (h : Lives C p sha256 recover prost acts listings stored) (hacts : acts ⊆ total)
    (hlistings : listings ⊆ listed) : RowsGiven prost P H stored := by
  induction h with
  | fresh => exact fun _ hx => (List.not_mem_nil hx).elim
  | @life earlier acts listings stored args retention witnesses archive d₀ d h hC hopen hstart hrun
      ih =>
    obtain ⟨hearlier, hthis⟩ := List.append_subset.1 hacts
    obtain ⟨hbefore, hwitnesses⟩ := List.append_subset.1 hlistings
    have hrows := ih hearlier hbefore
    cases harchive : d.archive with
    | none => exact hrows
    | some a =>
      have hgiven := Daemon.Given.start (Q := Q) (hrows.open hopen) hstart
      exact (hlife _ _ _ _ _ _ _ hC hthis (hwitnesses (List.mem_singleton_self _)) hstart hgiven
        hrun).archive a harchive

end Lives

/-- The encoding of what the node answered has a length that its delimiter can hold. -/
def Delimited (p : Protocol.PayloadDecoders) (sha256 : List UInt8 → List.Vector UInt8 32)
    (acts : List DaemonAction) : Prop :=
  ∀ b f, FromNode p sha256 acts b → HeadGiven (HeadFromNode acts) f.solidifiedHead →
    (prostBlock.encodeToVec (encodeBlock b f)).length < 2 ^ 64

/-- What the node answers is read back from its payload. -/
theorem readsBack_fromNode (hp : p.Fits) (hlen : Delimited p sha256 acts) :
    ReadsBack prostBlock (FromNode p sha256 acts) (HeadFromNode acts) :=
  fun b f hb hf =>
    decode_encodeBlock roundTrips_prostBlock (hb.readable hp) (fun n hn => (hf n hn).lt)
      (hlen b f hb hf)

/-- Every life keeps to what the node answered. -/
theorem lifeKeeps_fromNode
    {recover : List.Vector UInt8 32 → List UInt8 → UInt8 → Option Address} (hp : p.Fits)
    (hlen : Delimited p sha256 acts) (listed : List Reply) :
    LifeKeeps p sha256 (fun _ _ => True) recover prostBlock (FromNode p sha256 acts)
      (FromNode p sha256 acts) (HeadFromNode acts) acts listed :=
  fun _ _ _ _ _ _ _ _ hsub _ _ h hrun => h.run (readsBack_fromNode hp hlen) (fun _ hb => hb)
    (fun _ hact => DaemonAction.gives_fromNode (hsub hact) recover) hrun

/-- The response is of a block and a head that the node answered, and its payload decodes to
that block. -/
def Genuine (p : Protocol.PayloadDecoders) (sha256 : List UInt8 → List.Vector UInt8 32)
    (acts : List DaemonAction) (r : SingleBlockResponse) : Prop :=
  ∃ b f, FromNode p sha256 acts b ∧ HeadGiven (HeadFromNode acts) f.solidifiedHead ∧
    r = oracleResponse prostBlock b f ∧
    (r.block.map fun any => Pb.Block.decode any.value) = some (some (encodeBlock b f))

/-- A response that conveys a block of the node's is genuine. -/
theorem Conveys.genuine (hp : p.Fits) (hlen : Delimited p sha256 acts) {r : SingleBlockResponse}
    (h : Conveys prostBlock (FromNode p sha256 acts) (HeadFromNode acts) r) :
    Genuine p sha256 acts r := by
  obtain ⟨b, f, hb, hf, rfl⟩ := h
  exact ⟨b, f, hb, hf, rfl, congrArg some (readsBack_fromNode hp hlen b f hb hf)⟩

/-- **What a consumer gets comes from the node.**  However often the daemon was restarted on its
database, in whatever order the tasks ran, and whatever the node answered: each response that
`Stream.Blocks` has delivered, live, from the cache or from the archive, and each that
`Fetch.Block` has answered is of a block that the node answered in one of the lives, and of a
solidified head that it answered; and its payload decodes to that block. -/
theorem consumer_reads_node (p : Protocol.PayloadDecoders)
    (sha256 : List UInt8 → List.Vector UInt8 32)
    (recover : List.Vector UInt8 32 → List UInt8 → UInt8 → Option Address)
    (earlier acts : List DaemonAction) (listings : List Reply) (stored : BlockArchive)
    (args : RelayArgs) (retention : ℕ) (witnesses : Reply) (archive : Option BlockArchive)
    (d₀ d : Daemon) (hp : p.Fits) (hlen : Delimited p sha256 (earlier ++ acts))
    (hlives : Lives (fun _ _ => True) p sha256 recover prostBlock earlier listings stored)
    (hopen : archive = none ∨ archive = some stored)
    (hstart : Daemon.start args retention witnesses archive = .ok (some d₀))
    (hrun : Run.exec (Daemon.step p sha256 recover prostBlock) d₀ acts = some d) :
    (∀ r ∈ d.delivered prostBlock, Genuine p sha256 (earlier ++ acts) ⟨r.block, r.metadata⟩) ∧
      ∀ r ∈ d.fetched, Genuine p sha256 (earlier ++ acts) r := by
  have hlife : LifeKeeps p sha256 (fun _ _ => True) recover prostBlock
      (FromNode p sha256 (earlier ++ acts)) (FromNode p sha256 (earlier ++ acts))
      (HeadFromNode (earlier ++ acts)) (earlier ++ acts) (witnesses :: listings) :=
    lifeKeeps_fromNode hp hlen (witnesses :: listings)
  have hrows := hlives.rowsGiven hlife (List.subset_append_left ..) (List.subset_cons_self ..)
  have hgiven := hlife args retention witnesses archive d₀ d acts trivial
    (List.subset_append_right ..) List.mem_cons_self hstart (.start (hrows.open hopen) hstart) hrun
  exact ⟨fun r hr => (hgiven.delivered r hr).genuine hp hlen,
    fun r hr => (hgiven.fetched r hr).genuine hp hlen⟩

/-- `storeSigned` reads no other reply, and no other task does after it. -/
theorem eq_of_heardIn {rest : List DaemonAction} (hrest : ∀ a, .worker a ∉ rest) {r : Replies}
    (h : HeardIn (storeSigned ++ rest) (.solidity r) ∨ HeardIn (storeSigned ++ rest) (.head r)) :
    r = signedReplies := by
  simpa [HeardIn, storeSigned, hrest] using h

/-- In the run that stores a signed block every payload is short enough for the wire. -/
theorem delimited_storeSigned {rest : List DaemonAction} (hrest : ∀ a, .worker a ∉ rest)
    (hask : ∀ i getBlockByNum solidity, .ask i getBlockByNum solidity ∉ rest) :
    Delimited Protocol.payloadDecoders rawDigest (storeSigned ++ rest) := by
  have hhead : GrpcSource.fetchSolidifiedHead signedReplies.solidity = .ok (some 1) := by
    decide +kernel
  have hlen : (decodeBlock Protocol.payloadDecoders rawDigest signedBlock).toOption.map (fun d =>
      [FinalityTier.seen, .confirmed, .finalized].all fun tier => [none, some 1].all fun head =>
        (prostBlock.encodeToVec (encodeBlock (ReorgEngine.bufferedBlock 0 d []) ⟨tier, head⟩)).length
          < 2 ^ 64) = some true := by
    decide +kernel
  have hnone : ∀ {i getBlockByNum solidity},
      .ask i getBlockByNum solidity ∉ storeSigned ++ rest := by
    intro i getBlockByNum solidity
    simp [storeSigned, hask]
  rintro b ⟨tier, head⟩ hb hf
  have htier : tier ∈ [FinalityTier.seen, .confirmed, .finalized] := by
    cases tier <;> decide
  have hmem : head ∈ [none, some 1] := by
    cases head with
    | none => exact List.mem_cons_self
    | some n =>
      cases hf n rfl with
      | tick hr h =>
        rw [eq_of_heardIn hrest (.inl hr), hhead] at h
        rw [← Except.ok.inj h]
        decide
      | fetch hact => exact absurd hact hnone
  cases hb with
  | head hr h forkId =>
    obtain rfl := eq_of_heardIn hrest (.inr hr)
    obtain ⟨⟨bytes, hbytes, hd⟩, hinfos⟩ := h
    obtain rfl := Option.some.inj hbytes
    rw [hd] at hlen
    have hall := List.all_eq_true.1 (List.all_eq_true.1 (Option.some.inj hlen) tier htier) head hmem
    rcases hinfos with rfl | ⟨_, hnone, -⟩
    · exact of_decide_eq_true hall
    · cases hnone
  | byNumber hact => exact absurd hact hnone

/-- The daemon stores the signed block, is restarted, and answers `Fetch.Block` with it. -/
theorem consumer_reads_node_storeSigned :
    ∃ stored d₀ d r, Lives (fun _ _ => True) Protocol.payloadDecoders rawDigest
        (fun _ _ _ => some (Address.fill 0x41)) prostBlock storeSigned [some oneWitness] stored ∧
      Daemon.start firehoseArgs 0 (some oneWitness) (some stored) = .ok (some d₀) ∧
      Run.exec (Daemon.step Protocol.payloadDecoders rawDigest
        (fun _ _ _ => some (Address.fill 0x41)) prostBlock) d₀ [.fetch 1] = some d ∧
      d.fetched = [r] ∧
      Genuine Protocol.payloadDecoders rawDigest (storeSigned ++ [.fetch 1]) r := by
  have hok : ((Daemon.start firehoseArgs 0 (some oneWitness) (some .empty)).toOption.join.bind
      fun d₁ => (Run.exec (Daemon.step Protocol.payloadDecoders rawDigest
        (fun _ _ _ => some (Address.fill 0x41)) prostBlock) d₁ storeSigned).bind fun d₂ => d₂.archive.bind fun stored =>
          (Daemon.start firehoseArgs 0 (some oneWitness) (some stored)).toOption.join.bind fun d₃ =>
            (Run.exec (Daemon.step Protocol.payloadDecoders rawDigest
              (fun _ _ _ => some (Address.fill 0x41)) prostBlock) d₃ [.fetch 1]).map fun d => d.fetched.length) = some 1 := by
    decide +kernel
  obtain ⟨d₁, hstart₁, hok⟩ := Option.bind_eq_some_iff.1 hok
  obtain ⟨d₂, hrun₁, hok⟩ := Option.bind_eq_some_iff.1 hok
  obtain ⟨stored, hstored, hok⟩ := Option.bind_eq_some_iff.1 hok
  obtain ⟨d₃, hstart₂, hok⟩ := Option.bind_eq_some_iff.1 hok
  obtain ⟨d, hrun₂, hok⟩ := Option.map_eq_some_iff.1 hok
  obtain ⟨r, hr⟩ := List.length_eq_one_iff.1 hok
  have hlives : Lives (fun _ _ => True) Protocol.payloadDecoders rawDigest
      (fun _ _ _ => some (Address.fill 0x41)) prostBlock storeSigned [some oneWitness] stored := by
    have h := (Lives.fresh (C := fun _ _ => True)).life trivial (.inr rfl)
      (Decode.toOption_join_eq_some.1 hstart₁) hrun₁
    rwa [hstored] at h
  have hstart := Decode.toOption_join_eq_some.1 hstart₂
  have hread := (consumer_reads_node Protocol.payloadDecoders rawDigest
    (fun _ _ _ => some (Address.fill 0x41)) storeSigned [.fetch 1] [some oneWitness] stored
    firehoseArgs 0 (some oneWitness) (some stored) d₃ d Protocol.fits_payloadDecoders
    (delimited_storeSigned (by simp) (by simp)) hlives
    (.inr rfl) hstart hrun₂).2
  exact ⟨stored, d₃, d, r, hlives, hstart, hrun₂, hr, hread r (hr ▸ List.mem_singleton_self r)⟩

end Firehose
end Lightcycle
