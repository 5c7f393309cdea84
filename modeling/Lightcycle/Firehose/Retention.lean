/-
# What retention leaves

The retention task deletes the rows more than `--archive-retention-blocks` below the solidified
head it reads, at any moment, between any two writes of the archiver.  Next to the daemon runs
a `Feed` of `Lightcycle.Firehose.Archiver`, whose archive nothing is deleted from: the
archive of the daemon has no row the other has not, and every row of it that is not below the
floor (`Trails`, `daemon_refines_feed`).  What was proved of the feed then holds of the daemon
there.

So a block that the archiver has stored stays, until a solidified head is more than the
retention above it (`stored_until_retention`).
-/

import Lightcycle.Firehose.Sourced

namespace Lightcycle
namespace Firehose

open Relayer Store

/-- What the archiver has not come to: broadcast, in the channel, in hand or to be fed. -/
def Daemon.ahead (d : Daemon) : List Output :=
  d.log.drop d.archivePos ++ d.mpsc ++ d.worker.inHand.toList ++ d.worker.toFeed

/-- The feed is where the archiver is, and the archive of the daemon has its rows, all of them
from the floor on. -/
structure Trails (retention floor : ℕ) (d : Daemon) (w : Feed) : Prop where
  engine : d.worker.relay.service.engine = w.engine
  pos : d.archivePos ≤ d.log.length
  seen : w.seen.map Prod.fst = d.log.take d.archivePos
  queue : w.queue = d.ahead
  archive : ∃ a, d.archive = some a ∧ (∀ x ∈ a.blocks.entries, x ∈ w.archive.blocks.entries) ∧
    ∀ x ∈ w.archive.blocks.entries, floor ≤ x.1 → x ∈ a.blocks.entries
  retention_eq : d.retention = retention
  head : 0 < retention → ∀ n, d.head = some n → n ≤ floor + retention

/-- Rows from the floor on are read alike. -/
theorem Trails.get {retention floor : ℕ} {d : Daemon} {w : Feed} (h : Trails retention floor d w)
    {a : BlockArchive} (ha : d.archive = some a) {k : ℕ} (hk : floor ≤ k) :
    a.get k = w.archive.get k := by
  obtain ⟨a', ha', hsub, hkept⟩ := h.archive
  obtain rfl := Option.some.inj (ha.symm.trans ha')
  have hget : a.blocks.get? k = w.archive.blocks.get? k := by
    refine Option.ext fun v => ?_
    rw [SortedMap.get?_eq_some, SortedMap.get?_eq_some]
    exact ⟨hsub _, fun hx => hkept _ hx hk⟩
  rw [BlockArchive.get, BlockArchive.get, hget]

namespace Trails

variable {p : Protocol.PayloadDecoders} {sha256 : List UInt8 → List.Vector UInt8 32}
  {recover : List.Vector UInt8 32 → List UInt8 → UInt8 → Option Address} {prost : Prost}
  {retention floor : ℕ} {d d' : Daemon} {w : Feed}

variable (p sha256 prost retention floor) in
/-- The feed can take steps to where the daemon `d'` is, with no call but from the replies to
the steps in `R`. -/
def Matched (R : WorkerAction → Prop) (d' : Daemon) (w : Feed) : Prop :=
  ∃ (ts : List FeedAction) (v : Feed),
    (∀ t ∈ ts, ∀ c, t = .call c → Answered p sha256 R c) ∧
    Run.exec (Feed.step prost) w ts = some v ∧ Trails retention floor d' v

variable {R : WorkerAction → Prop}

/-- By no step. -/
theorem matched (h : Trails retention floor d' w) : Matched p sha256 prost retention floor R d' w :=
  ⟨[], w, fun _ ht => (List.not_mem_nil ht).elim, rfl, h⟩

/-- By one step. -/
theorem matched_one {v : Feed} {t : FeedAction} (h : Trails retention floor d' v)
    (ht : ∀ c, t = .call c → Answered p sha256 R c) (hs : w.step prost t = some v) :
    Matched p sha256 prost retention floor R d' w :=
  ⟨[t], v, List.forall_mem_singleton.2 ht, Run.exec_cons_eq_some.2 ⟨v, hs, rfl⟩, h⟩

/-- **A step of the worker** is a call of the engine or nothing to the archiver.  `hhead` is
about the head the step may have put in the watch. -/
theorem worker {a : WorkerAction} {w' : Worker} {out : List Output} (h : Trails retention floor d w)
    (hm : WorkerMoves p sha256 recover d.worker a w' out)
    (hhead : 0 < retention → ∀ n, w'.relay.service.solidifiedHeadTx.join = some n →
      n ≤ floor + retention) :
    Matched p sha256 prost retention floor (· = a) { d with worker := w', mpsc := d.mpsc ++ out } w := by
  cases hm with
  | quiet hengine hcache hhead' hfeed hhand =>
    refine matched { h with engine := hengine.trans h.engine, queue := ?_, head := hhead }
    rw [h.queue, Daemon.ahead, Daemon.ahead, hfeed, hhand, List.append_nil]
  | @call _ c e' os _ hidle hanswered hadmits hcall hengine hcache hhead' hfeed hhand =>
    refine matched_one (t := .call c) (v := { w with engine := e', queue := w.queue ++ os })
      { h with engine := hengine, queue := ?_, head := hhead } (fun c' hc' => ?_) ?_
    · rw [h.queue, Daemon.ahead, Daemon.ahead, hfeed, hhand, hidle.2.1, hidle.2.2]
      simp only [List.append_nil, Option.toList_none]
    · cases hc'
      exact hanswered
    · rw [Feed.step, ← h.engine, hcall]
      rfl
  | feed hfeed hhand hengine hcache hhead' hfeed' hhand' =>
    refine matched { h with engine := hengine.trans h.engine, queue := ?_, head := hhead }
    rw [h.queue, Daemon.ahead, Daemon.ahead, hfeed, hhand, hfeed', hhand']
    simp only [List.append_nil, Option.toList_none, Option.toList_some, List.append_assoc,
      List.singleton_append]
  | send hhand hengine hcache hhead' hfeed hhand' =>
    refine matched { h with engine := hengine.trans h.engine, queue := ?_, head := hhead }
    rw [h.queue, Daemon.ahead, Daemon.ahead, hhand, hfeed, hhand']
    simp only [List.append_nil, Option.toList_none, Option.toList_some, List.append_assoc]

/-- The pump takes nothing from the archiver. -/
theorem pump {o : Output} {os : List Output} (h : Trails retention floor d w)
    (hmpsc : d.mpsc = o :: os) :
    Trails retention floor { d with mpsc := os, log := d.log ++ [o] } w := by
  refine { h with pos := ?_, seen := ?_, queue := ?_ }
  · exact h.pos.trans (by simp)
  · rw [h.seen, List.take_append_of_le_length h.pos]
  · rw [h.queue, Daemon.ahead, Daemon.ahead, List.drop_append_of_le_length h.pos, hmpsc]
    simp only [List.append_assoc, List.singleton_append]

/-- **The archiver** receives the next output: an announcement is put under its height, and
another output leaves the archive as it is. -/
theorem archiver {o : Output} {a : BlockArchive} (h : Trails retention floor d w)
    (ho : d.log[d.archivePos]? = some o) (ha : d.archive = some a) :
    ∃ v, w.step prost .recv = some v ∧ v.seen = w.seen ++ [(o, true)] ∧
      Trails retention floor
        { d with archivePos := d.archivePos + 1, archive := some (archiveOutput prost a o) } v := by
  obtain ⟨hlt, hget⟩ := List.getElem?_eq_some_iff.1 ho
  have hqueue : w.queue = o :: (d.log.drop (d.archivePos + 1) ++ d.mpsc ++
      d.worker.inHand.toList ++ d.worker.toFeed) := by
    rw [h.queue, Daemon.ahead, List.drop_eq_getElem_cons hlt, hget]
    rfl
  have hrecv : w.step prost .recv = some { w with
      queue := d.log.drop (d.archivePos + 1) ++ d.mpsc ++ d.worker.inHand.toList ++ d.worker.toFeed
      seen := w.seen ++ [(o, true)], archive := archiveOutput prost w.archive o } := by
    rw [Feed.step, hqueue]
    rfl
  refine ⟨_, hrecv, rfl, { h with pos := hlt, seen := ?_, queue := rfl, archive := ?_ }⟩
  · rw [List.map_append, h.seen, List.take_add_one, ho]
    rfl
  · obtain ⟨a', ha', hsub, hkept⟩ := h.archive
    obtain rfl := Option.some.inj (ha.symm.trans ha')
    refine ⟨_, rfl, ?_⟩
    cases o with
    | irreversible sb =>
      refine ⟨fun x hx => ?_, fun x hx hle => ?_⟩
      · rcases SortedMap.mem_insert.1 hx with rfl | ⟨hx, hne⟩
        · exact SortedMap.mem_insert.2 (.inl rfl)
        · exact SortedMap.mem_insert.2 (.inr ⟨hsub x hx, hne⟩)
      · rcases SortedMap.mem_insert.1 hx with rfl | ⟨hx, hne⟩
        · exact SortedMap.mem_insert.2 (.inl rfl)
        · exact SortedMap.mem_insert.2 (.inr ⟨hkept x hx hle, hne⟩)
    | _ => exact ⟨hsub, hkept⟩

/-- The archiver misses some outputs. -/
theorem lagged {skipped : ℕ} (h : Trails retention floor d w)
    (hle : d.archivePos + skipped ≤ d.log.length) :
    Matched p sha256 prost retention floor R { d with archivePos := d.archivePos + skipped } w := by
  have hlen : skipped ≤ (d.log.drop d.archivePos).length := by
    rw [List.length_drop]
    omega
  have htake : w.queue.take skipped = (d.log.drop d.archivePos).take skipped := by
    rw [h.queue, Daemon.ahead, List.append_assoc, List.append_assoc,
      List.take_append_of_le_length hlen]
  refine matched_one (t := .lagged skipped)
    (v := { w with queue := w.queue.drop skipped
                   seen := w.seen ++ (w.queue.take skipped).map (·, false) })
    { h with pos := hle, seen := ?_, queue := ?_ } (fun c hc => by cases hc) ?_
  · have hfst : ((w.queue.take skipped).map fun o => (o, false)).map Prod.fst =
        w.queue.take skipped := by
      rw [List.map_map]
      exact List.map_id' _
    rw [List.map_append, h.seen, hfst, htake, List.take_add]
  · rw [h.queue, Daemon.ahead, Daemon.ahead, List.append_assoc, List.append_assoc,
      List.drop_append_of_le_length hlen, List.drop_drop, List.append_assoc, List.append_assoc]
  · have hle' : skipped ≤ w.queue.length := by
      rw [h.queue, Daemon.ahead, List.append_assoc, List.append_assoc, List.length_append]
      omega
    rw [Feed.step, if_pos hle']
    rfl

/-- **The retention task** deletes no row from the floor on, since no head that was read is
more than the retention above the floor. -/
theorem prune {n : ℕ} (h : Trails retention floor d w) (hpos : 0 < d.retention)
    (hhead : d.head = some n) :
    Trails retention floor
      { d with archive := d.archive.map fun a => (a.deleteBelow (n - d.retention)).1 } w := by
  obtain ⟨a, ha, hsub, hkept⟩ := h.archive
  have hretention := h.retention_eq
  have hbound := h.head (hretention ▸ hpos) n hhead
  refine { h with archive := ⟨(a.deleteBelow (n - d.retention)).1, by rw [ha]; rfl, ?_, ?_⟩ }
  · exact fun x hx => hsub x (BlockArchive.mem_deleteBelow.1 hx).1
  · intro x hx hle
    exact BlockArchive.mem_deleteBelow.2 ⟨hkept x hx hle, by omega⟩

/-- **A step of the daemon is at most one step of the feed**, so what is said of the engine,
the broadcast and the archiver holds of the daemon. -/
theorem step {act : DaemonAction} (h : Trails retention floor d w)
    (hheads : 0 < retention → ∀ a, act = .worker a → ∀ s,
      Answered p sha256 (· = a) (.setSolidifiedHead s) → s ≤ floor + retention)
    (hs : d.step p sha256 recover prost act = some d') :
    Matched p sha256 prost retention floor (fun a => act = .worker a) d' w := by
  cases Daemon.moves_of_step hs with
  | @worker a _ _ hworker =>
    have hm := moves_of_worker hworker
    obtain ⟨ts, v, hts, hexec, hv⟩ : Matched p sha256 prost retention floor (· = a) _ w :=
      h.worker hm fun hpos => hm.head (h.head hpos) (hheads hpos a rfl)
    exact ⟨ts, v, fun t ht c hc => (hts t ht c hc).mono fun _ ha => ha ▸ rfl, hexec, hv⟩
  | pump hmpsc => exact matched (h.pump hmpsc)
  | archiver ho ha =>
    obtain ⟨v, hv, -, h'⟩ := h.archiver ho ha
    exact matched_one h' (fun c hc => by cases hc) hv
  | lagged hle => exact h.lagged hle
  | prune hpos hhead => exact matched (h.prune hpos hhead)
  | _ => exact matched { h with }

end Trails

/-- The daemon starts next to a fresh feed on the same archive. -/
theorem trails_start {args : RelayArgs} {retention floor : ℕ} {witnesses : Reply}
    {stored : BlockArchive} {d : Daemon}
    (h : Daemon.start args retention witnesses (some stored) = .ok (some d)) :
    ∃ engine, ReorgEngine.new ⟨args.bufferWindow, args.finalityDepth⟩ = some engine ∧
      Trails retention floor d (.init engine stored) := by
  obtain ⟨relay?, hrelay, hmk⟩ := Decode.map_eq_ok.1 h
  obtain ⟨relay, rfl, rfl⟩ := Option.map_eq_some_iff.1 hmk
  obtain ⟨srSet, -, hstart⟩ := Decode.map_eq_ok.1 hrelay
  obtain ⟨engine, hnew, hsome⟩ := Option.bind_eq_some_iff.1 hstart
  obtain ⟨cache?, -, rfl⟩ := Option.map_eq_some_iff.1 hsome
  refine ⟨engine, hnew, rfl, Nat.le_refl 0, rfl, rfl, ⟨stored, rfl, fun _ hx => hx, fun _ hx _ => hx⟩,
    rfl, fun _ n hn => by cases hn⟩

/-- **The daemon refines the feed.**  Over any node, any run of the daemon with an archive, with
its retention task and all its handlers, goes along one of the feed, whose calls hand over what
the node answered.  No row is in the archive that is not in the feed's, and from a floor on that
no solidified head answered is more than the retention above, the two are the same. -/
theorem daemon_refines_feed {p : Protocol.PayloadDecoders}
    {sha256 : List UInt8 → List.Vector UInt8 32}
    {recover : List.Vector UInt8 32 → List UInt8 → UInt8 → Option Address} {prost : Prost}
    {retention floor : ℕ} {d d' : Daemon} {w : Feed} {acts : List DaemonAction}
    (h : Trails retention floor d w)
    (hfloor : 0 < retention → ∀ r, HeardIn acts (.solidity r) → ∀ n,
      GrpcSource.fetchSolidifiedHead r.solidity = .ok (some n) → n ≤ floor + retention)
    (hrun : Run.exec (Daemon.step p sha256 recover prost) d acts = some d') :
    ∃ actions w', Run.exec (Feed.step prost) w actions = some w' ∧ Trails retention floor d' w' ∧
      ∀ c, .call c ∈ actions → Answered p sha256 (HeardIn acts) c := by
  have hstep : ∀ (d : Daemon) (act : DaemonAction) (d' : Daemon) (w : Feed), act ∈ acts →
      Trails retention floor d w → d.step p sha256 recover prost act = some d' →
      ∃ js t', (∀ j ∈ js, ∀ c, j = .call c → Answered p sha256 (HeardIn acts) c) ∧
        Run.exec (Feed.step prost) w js = some t' ∧ Trails retention floor d' t' := by
    intro d act d' w hact h hs
    have hheads : 0 < retention → ∀ a, act = .worker a → ∀ s,
        Answered p sha256 (· = a) (.setSolidifiedHead s) → s ≤ floor + retention := by
      rintro hpos a rfl s hs
      cases hs with
      | setSolidifiedHead hr hreply => exact hfloor hpos _ (by rw [hr]; exact hact) s hreply
    obtain ⟨ts, v, hts, hexec, hv⟩ := h.step hheads hs
    refine ⟨ts, v, fun t ht c hc => (hts t ht c hc).mono ?_, hexec, hv⟩
    rintro a rfl
    exact hact
  obtain ⟨actions, w', hcalls, hexec, h'⟩ :=
    Run.exec_simulates hstep (fun act hact => hact) h hrun
  exact ⟨actions, w', hexec, h', fun c hc => hcalls _ hc c rfl⟩

/-- What the node answered came off the wire. -/
theorem Answered.fromWire {p : Protocol.PayloadDecoders}
    {sha256 : List UInt8 → List.Vector UInt8 32} {R : WorkerAction → Prop} {c : Call}
    (h : Answered p sha256 R c) : FromWire p sha256 c := by
  cases h with
  | accept _ h =>
    obtain ⟨⟨bytes, -, hblock⟩, rfl | ⟨infos, -, hinfos⟩⟩ := h
    · exact .accept hblock (show decodeTransactionInfoList [] = .ok [] from rfl)
    · exact .accept hblock hinfos
  | setSolidifiedHead _ h => exact .setSolidifiedHead (GrpcSource.lt_of_fetchSolidifiedHead h)

/-- What the archiver is past, it stays past. -/
theorem Feed.past_subset {prost : Prost} {w w' : Feed} {actions : List FeedAction}
    (hrun : Run.exec (Feed.step prost) w actions = some w') : w.past ⊆ w'.past := by
  refine Run.exec_preserves (I := fun v => w.past ⊆ v.past) (fun v a v' h hs => ?_)
    (List.Subset.refl _) hrun
  cases Feed.moves_of_step hs with
  | call => exact h
  | recv | lagged =>
    show w.past ⊆ Feed.pastOf (v.seen ++ _)
    rw [Feed.pastOf_append]
    exact List.subset_append_of_subset_left _ h

/-- **A stored block stays until retention takes it.**  Over any node, whatever the tasks do
and however they interleave: when the archiver has received an announcement and stored it, then
in every state after it, as long as no solidified head answered is more than the retention above
the block (or there is none), the archive holds the block, and `Fetch.Block` answers from the
archive with the block and metadata of the announcement.  A write that the database refuses
leaves the archive as it was, and the archiver goes on: in a run of the daemon it is the step
`lagged 1`, and nothing is said here of what it should have stored. -/
theorem stored_until_retention (p : Protocol.PayloadDecoders)
    (sha256 : List UInt8 → List.Vector UInt8 32)
    (recover : List.Vector UInt8 32 → List UInt8 → UInt8 → Option Address) (args : RelayArgs)
    (retention : ℕ) (witnesses : Reply) (stored : BlockArchive) (d₀ d₁ d : Daemon)
    (before after : List DaemonAction) (sb : StreamableBlock) (hp : p.Fits)
    (hstart : Daemon.start args retention witnesses (some stored) = .ok (some d₀))
    (hbefore : Run.exec (Daemon.step p sha256 recover prostBlock) d₀ before = some d₁)
    (hsb : d₁.log[d₁.archivePos]? = some (.irreversible sb))
    (hafter : Run.exec (Daemon.step p sha256 recover prostBlock) d₁ (.archiver :: after) = some d)
    (hheads : 0 < retention → ∀ r, HeardIn (before ++ .archiver :: after) (.solidity r) → ∀ n,
      GrpcSource.fetchSolidifiedHead r.solidity = .ok (some n) → n ≤ sb.block.height + retention)
    (hlen : (prostBlock.encodeToVec (encodeBlock sb.block sb.finality)).length < 2 ^ 64) :
    ∃ a live, d.archive = some a ∧ Holds prostBlock a sb ∧
      outputToResponse prostBlock (.irreversible sb) = some live ∧
      fetchArchived prostBlock a sb.block.height = some ⟨live.block, live.metadata⟩ := by
  obtain ⟨engine, hnew, h₀⟩ := @trails_start args retention sb.block.height witnesses stored d₀ hstart
  obtain ⟨ts₁, w₁, hrun₁, h₁, hcalls₁⟩ := daemon_refines_feed h₀
    (fun hpos r hr => hheads hpos r (List.mem_append_left _ hr)) hbefore
  obtain ⟨d₂, hs, hafter⟩ := Run.exec_cons_eq_some.1 hafter
  cases Daemon.moves_of_step hs with | archiver ho ha =>
  obtain rfl := Option.some.inj (ho.symm.trans hsb)
  obtain ⟨w₂, hrecv, hseen, h₂⟩ := h₁.archiver ho ha
  obtain ⟨ts₂, w, hrun₂, h, hcalls₂⟩ := daemon_refines_feed h₂
    (fun hpos r hr => hheads hpos r (List.mem_append_right _ (List.mem_cons_of_mem _ hr))) hafter
  have hpast : (sb, true) ∈ w.past := by
    refine Feed.past_subset hrun₂ ?_
    rw [Feed.past, hseen, Feed.pastOf_append]
    exact List.mem_append_right _ (Feed.mem_pastOf_received.2 ⟨rfl, rfl⟩)
  have hrun : Run.exec (Feed.step prostBlock) (.init engine stored) (ts₁ ++ .recv :: ts₂) = some w :=
    Run.exec_append_eq_some.2 ⟨w₁, hrun₁, Run.exec_cons_eq_some.2 ⟨w₂, hrecv, hrun₂⟩⟩
  have hok : w.Ok prostBlock stored :=
    Run.exec_preserves (fun _ _ _ h hs => h.step hs) (Feed.ok_init hnew stored) hrun
  have hgiven : w.Given := by
    refine Feed.given_of_run hp hnew (fun c hc => show FromWire p sha256 c from ?_) hrun
    rcases List.mem_append.1 hc with hc | hc
    · exact (hcalls₁ c hc).fromWire
    · exact (hcalls₂ c (List.mem_of_ne_of_mem (by simp) hc)).fromWire
  have hannounced := (hgiven.emitted _ (Feed.mem_emitted_of_past hpast)).announced
  have hdecode := decode_encodeBlock roundTrips_prostBlock hannounced.block hannounced.head hlen
  obtain ⟨a, ha, -⟩ := h.archive
  have hheld : Holds prostBlock a sb := (h.get ha le_rfl).trans (hok.held sb hpast)
  refine ⟨a, _, ha, hheld, rfl, ?_⟩
  rw [fetchArchived, show a.get sb.block.height = _ from hheld]
  exact congrArg some (archiveHitResponse_eq hdecode .stepFinal)

/-- The signed block is stored, and outlives the retention task. -/
theorem stored_until_retention_signedBlock :
    ∃ d₀ d₁ d sb a live,
      Daemon.start firehoseArgs 1 (some oneWitness) (some .empty) = .ok (some d₀) ∧
      Run.exec (Daemon.step Protocol.payloadDecoders rawDigest
        (fun _ _ _ => some (Address.fill 0x41)) prostBlock) d₀ (storeSigned.take 9) = some d₁ ∧
      Run.exec (Daemon.step Protocol.payloadDecoders rawDigest
        (fun _ _ _ => some (Address.fill 0x41)) prostBlock) d₁ [.archiver, .prune] = some d ∧
      d.archive = some a ∧ Holds prostBlock a sb ∧
      outputToResponse prostBlock (.irreversible sb) = some live ∧
      fetchArchived prostBlock a sb.block.height = some ⟨live.block, live.metadata⟩ := by
  have hok : ((Daemon.start firehoseArgs 1 (some oneWitness) (some .empty)).toOption.join.bind
      fun d₀ => (Run.exec (Daemon.step Protocol.payloadDecoders rawDigest
        (fun _ _ _ => some (Address.fill 0x41)) prostBlock) d₀ (storeSigned.take 9)).bind fun d₁ =>
          (d₁.log[d₁.archivePos]?.bind announcement).bind fun sb =>
            (Run.exec (Daemon.step Protocol.payloadDecoders rawDigest
              (fun _ _ _ => some (Address.fill 0x41)) prostBlock) d₁ [.archiver, .prune]).map fun _ =>
                decide ((prostBlock.encodeToVec (encodeBlock sb.block sb.finality)).length < 2 ^ 64)) =
      some true := by
    decide +kernel
  obtain ⟨d₀, hstart, hok⟩ := Option.bind_eq_some_iff.1 hok
  obtain ⟨d₁, hbefore, hok⟩ := Option.bind_eq_some_iff.1 hok
  obtain ⟨sb, hsb, hok⟩ := Option.bind_eq_some_iff.1 hok
  obtain ⟨d, hafter, hlen⟩ := Option.map_eq_some_iff.1 hok
  obtain ⟨o, ho, hann⟩ := Option.bind_eq_some_iff.1 hsb
  have hstart' := Decode.toOption_join_eq_some.1 hstart
  have hhead : GrpcSource.fetchSolidifiedHead signedReplies.solidity = .ok (some 1) := by
    decide +kernel
  cases o with
  | irreversible t =>
    obtain rfl := Option.some.inj hann
    obtain ⟨a, live, h⟩ := stored_until_retention Protocol.payloadDecoders rawDigest
      (fun _ _ _ => some (Address.fill 0x41)) firehoseArgs 1 (some oneWitness) .empty d₀ d₁ d
      (storeSigned.take 9) [.prune] t Protocol.fits_payloadDecoders hstart' hbefore ho hafter
      (fun _ r hr n hn => by
        obtain rfl := @eq_of_heardIn [.prune] (by simp) r (.inl hr)
        rw [hhead] at hn
        obtain rfl := Option.some.inj (Except.ok.inj hn)
        exact Nat.le_add_left 1 _)
      (of_decide_eq_true hlen)
    exact ⟨d₀, d₁, d, t, a, live, hstart', hbefore, hafter, h⟩
  | _ => cases hann

end Firehose
end Lightcycle
