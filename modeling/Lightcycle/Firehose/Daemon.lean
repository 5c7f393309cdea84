/-
# The daemon

`run_relay` of `crates/lightcycle-cli/src/main.rs` with the firehose surface, one consumer of
`Stream.Blocks` and any calls of `Fetch.Block`, over an untrusted node: the worker of
`Lightcycle.Relayer.Worker`, the pump of the hub, the archiver, the retention task, and the
handlers, each step one access to shared state or one reply, in any order.

The archiver is a position in what was broadcast, as a consumer's subscription is.  A call of
`Fetch.Block` reads the archive, then probes the cache, then asks the node, then writes the
cache, and other tasks run in between.
-/

import Lightcycle.Relayer.Worker
import Lightcycle.Firehose.Fetch

namespace Lightcycle
namespace Firehose

open Relayer Store

/-- `GrpcBlockOracle::fetch_block_by_number`, on the replies to its two calls: without a
header there is no block, and a solidified head that cannot be read is none. -/
def GrpcBlockOracle.fetchBlockByNumber (p : Protocol.PayloadDecoders)
    (sha256 : List UInt8 → List.Vector UInt8 32) (getBlockByNum : ℕ → Reply) (solidity : Reply)
    (height : ℕ) : Except String (Option (BufferedBlock × BlockFinality)) :=
  ((GrpcSource.fetchBlock getBlockByNum height).mapError fun _ =>
    "Fetch.Block: upstream get_block_by_num failed").bind fun block =>
      if block.blockHeader.isNone then .ok none
      else
        ((decodeBlockMessage p sha256 block).mapError fun _ => "Fetch.Block: decode failed").map
          fun decoded =>
            some (grpcAnswer (GrpcSource.fetchSolidifiedHead solidity).toOption.join decoded)

/-- How far a call of `Fetch.Block` has come: the archive has no row, the cache no entry, or
the node has answered. -/
inductive FetchPhase where
  | unarchived (height : ℕ)
  | asked (height : ℕ)
  | answered (answer : Option (BufferedBlock × BlockFinality))

/-- The tasks, and what they share. -/
structure Daemon where
  worker : Worker
  /-- The channel from the relayer to the hub. -/
  mpsc : List Output
  /-- Everything broadcast. -/
  log : List Output
  archive : Option BlockArchive
  /-- What the archiver's subscription has delivered. -/
  archivePos : ℕ
  /-- `--archive-retention-blocks`. -/
  retention : ℕ
  session : Option Phase
  /-- What the consumer took from its calls before. -/
  received : List Response
  fetches : List FetchPhase
  /-- What `Fetch.Block` has answered. -/
  fetched : List SingleBlockResponse

/-- A step of a task, with the replies of the node it waited for. -/
inductive DaemonAction where
  | worker (a : WorkerAction)
  | pump
  | archiver
  /-- The archive goes without some outputs: the archiver lagged, its subscription began after
  them, or the database refused the write of one. -/
  | lagged (skipped : ℕ)
  | prune
  | connect (req : Request)
  | advance
  | reconnect (taken : ℕ)
  | fetch (height : ℕ)
  | probe (i : ℕ)
  | ask (i : ℕ) (getBlockByNum : ℕ → Reply) (solidity : Reply)
  | populate (i : ℕ)

namespace Daemon

/-- The block cache, there with the firehose surface. -/
def cache (d : Daemon) : Option (BlockCache BufferedBlock) := d.worker.relay.service.blockCache

/-- The solidified-head watch. -/
def head (d : Daemon) : Option ℕ := d.worker.relay.service.solidifiedHeadTx.join

/-- What the handler of the consumer reads. -/
def pipeline (d : Daemon) : Option Pipeline :=
  d.cache.map fun cache =>
    { engine := d.worker.relay.service.engine, toFeed := d.worker.toFeed, inHand := d.worker.inHand
      mpsc := d.mpsc, log := d.log, cache, head := d.head, archive := d.archive }

/-- The same with another block cache. -/
def withCache (d : Daemon) (blockCache : Option (BlockCache BufferedBlock)) : Daemon :=
  { d with worker := d.worker.withService { d.worker.relay.service with blockCache } }

/-- What the consumer has taken, with the current call. -/
def delivered (prost : Prost) (d : Daemon) : List Response :=
  d.received ++ (d.session.map (Phase.delivered prost d.log)).getD []

variable (p : Protocol.PayloadDecoders) (sha256 : List UInt8 → List.Vector UInt8 32)
  (recover : List.Vector UInt8 32 → List UInt8 → UInt8 → Option Address) (prost : Prost)

/-- A step of a call of `Fetch.Block`. -/
def fetchStep (d : Daemon) (i : ℕ) : FetchPhase → DaemonAction → Option Daemon
  | .unarchived height, .probe _ =>
    d.cache.map fun cache =>
      match Firehose.probe cache d.head height with
      | some (b, f) =>
        { d with fetches := d.fetches.eraseIdx i, fetched := d.fetched ++ [oracleResponse prost b f] }
      | none => { d with fetches := d.fetches.set i (.asked height) }
  | .asked height, .ask _ getBlockByNum solidity =>
    some <|
      match GrpcBlockOracle.fetchBlockByNumber p sha256 getBlockByNum solidity height with
      | .error _ => { d with fetches := d.fetches.eraseIdx i }
      | .ok answer => { d with fetches := d.fetches.set i (.answered answer) }
  | .answered answer, .populate _ =>
    some
      { d.withCache (d.cache.map (Firehose.populate · answer)) with
        fetches := d.fetches.eraseIdx i
        fetched := d.fetched ++ answer.toList.map fun x => oracleResponse prost x.1 x.2 }
  | _, _ => none

/-- One step; `none` when it cannot be taken. -/
def step (d : Daemon) (act : DaemonAction) : Option Daemon :=
  match act with
  | .worker a =>
    (d.worker.step p sha256 recover a).map fun x => { d with worker := x.1, mpsc := d.mpsc ++ x.2 }
  | .pump =>
    d.mpsc.head?.map fun o => { d with mpsc := d.mpsc.tail, log := d.log ++ [o] }
  | .archiver =>
    d.log[d.archivePos]?.bind fun o =>
      d.archive.map fun archive =>
        { d with archivePos := d.archivePos + 1, archive := some (archiveOutput prost archive o) }
  | .lagged skipped =>
    if d.archivePos + skipped ≤ d.log.length then
      some { d with archivePos := d.archivePos + skipped }
    else none
  | .prune =>
    if 0 < d.retention then
      d.head.map fun h => { d with archive := d.archive.map fun a => (a.deleteBelow (h - d.retention)).1 }
    else none
  | .connect req =>
    if d.session.isNone then some { d with session := some (.opened d.log req) } else none
  | .advance =>
    d.pipeline.bind fun pipeline =>
      (d.session.bind (Phase.advance prost pipeline)).map fun s => { d with session := some s }
  | .reconnect taken =>
    let received :=
      d.received ++ ((d.session.map (Phase.delivered prost d.log)).getD []).take taken
    received.getLast?.map fun r =>
      { d with session := some (.opened d.log (World.resumeAt r)), received }
  | .fetch height =>
    some <|
      match d.archive.bind fun a => fetchArchived prost a height with
      | some response => { d with fetched := d.fetched ++ [response] }
      | none => { d with fetches := d.fetches ++ [.unarchived height] }
  | .probe i => d.fetches[i]?.bind fun c => d.fetchStep p sha256 prost i c act
  | .ask i _ _ => d.fetches[i]?.bind fun c => d.fetchStep p sha256 prost i c act
  | .populate i => d.fetches[i]?.bind fun c => d.fetchStep p sha256 prost i c act

/-- What a step does, when it can be taken. -/
inductive Moves (d : Daemon) : DaemonAction → Daemon → Prop
  | worker {a : WorkerAction} {w : Worker} {out : List Output}
    (hs : d.worker.step p sha256 recover a = some (w, out)) :
    Moves d (.worker a) { d with worker := w, mpsc := d.mpsc ++ out }
  | pump {o : Output} {os : List Output} (hmpsc : d.mpsc = o :: os) :
    Moves d .pump { d with mpsc := os, log := d.log ++ [o] }
  | archiver {o : Output} {a : BlockArchive} (ho : d.log[d.archivePos]? = some o)
    (ha : d.archive = some a) :
    Moves d .archiver
      { d with archivePos := d.archivePos + 1, archive := some (archiveOutput prost a o) }
  | lagged {skipped : ℕ} (hle : d.archivePos + skipped ≤ d.log.length) :
    Moves d (.lagged skipped) { d with archivePos := d.archivePos + skipped }
  | prune {h : ℕ} (hpos : 0 < d.retention) (hhead : d.head = some h) :
    Moves d .prune { d with archive := d.archive.map fun a => (a.deleteBelow (h - d.retention)).1 }
  | connect (req : Request) (hidle : d.session = none) :
    Moves d (.connect req) { d with session := some (.opened d.log req) }
  | advance {pipeline : Pipeline} {s s' : Phase} (hpipeline : d.pipeline = some pipeline)
    (hsession : d.session = some s) (hadv : s.advance prost pipeline = some s') :
    Moves d .advance { d with session := some s' }
  | reconnect (taken : ℕ) {received : List Response} {r : Response}
    (hreceived : received =
      d.received ++ ((d.session.map (Phase.delivered prost d.log)).getD []).take taken)
    (hlast : received.getLast? = some r) :
    Moves d (.reconnect taken)
      { d with session := some (.opened d.log (World.resumeAt r)), received }
  | archived {height : ℕ} {a : BlockArchive} {response : SingleBlockResponse}
    (ha : d.archive = some a) (hr : fetchArchived prost a height = some response) :
    Moves d (.fetch height) { d with fetched := d.fetched ++ [response] }
  | unarchived (height : ℕ) :
    Moves d (.fetch height) { d with fetches := d.fetches ++ [.unarchived height] }
  | cached {i height : ℕ} {cache : BlockCache BufferedBlock} {b : BufferedBlock} {f : BlockFinality}
    (hcache : d.cache = some cache) (hprobe : Firehose.probe cache d.head height = some (b, f)) :
    Moves d (.probe i)
      { d with fetches := d.fetches.eraseIdx i, fetched := d.fetched ++ [oracleResponse prost b f] }
  | uncached (i height : ℕ) : Moves d (.probe i) { d with fetches := d.fetches.set i (.asked height) }
  | failed (i : ℕ) (getBlockByNum : ℕ → Reply) (solidity : Reply) :
    Moves d (.ask i getBlockByNum solidity) { d with fetches := d.fetches.eraseIdx i }
  | answered {i height : ℕ} {getBlockByNum : ℕ → Reply} {solidity : Reply}
    {answer : Option (BufferedBlock × BlockFinality)}
    (ha : GrpcBlockOracle.fetchBlockByNumber p sha256 getBlockByNum solidity height = .ok answer) :
    Moves d (.ask i getBlockByNum solidity) { d with fetches := d.fetches.set i (.answered answer) }
  | populate {i : ℕ} {answer : Option (BufferedBlock × BlockFinality)}
    (hc : d.fetches[i]? = some (.answered answer)) :
    Moves d (.populate i)
      { d.withCache (d.cache.map (Firehose.populate · answer)) with
        fetches := d.fetches.eraseIdx i
        fetched := d.fetched ++ answer.toList.map fun x => oracleResponse prost x.1 x.2 }

variable {p sha256 recover prost}

/-- **What one step of the daemon does.** The cases are those of its tasks, each with what
has to be there for the step and with the state it leaves. -/
theorem moves_of_step {d d' : Daemon} {act : DaemonAction}
    (hs : d.step p sha256 recover prost act = some d') : d.Moves p sha256 recover prost act d' := by
  cases act with
  | worker a =>
    obtain ⟨⟨w, out⟩, hworker, rfl⟩ := Option.map_eq_some_iff.1 hs
    exact .worker hworker
  | pump =>
    obtain ⟨o, ho, rfl⟩ := Option.map_eq_some_iff.1 hs
    obtain ⟨os, hos⟩ := List.head?_eq_some_iff.1 ho
    rw [show d.mpsc.tail = os by rw [hos]; rfl]
    exact .pump hos
  | archiver =>
    obtain ⟨o, ho, hs⟩ := Option.bind_eq_some_iff.1 hs
    obtain ⟨a, ha, rfl⟩ := Option.map_eq_some_iff.1 hs
    exact .archiver ho ha
  | lagged skipped =>
    rw [Daemon.step, Option.ite_none_right_eq_some] at hs
    obtain rfl := Option.some.inj hs.2
    exact .lagged hs.1
  | prune =>
    rw [Daemon.step, Option.ite_none_right_eq_some] at hs
    obtain ⟨h, hhead, rfl⟩ := Option.map_eq_some_iff.1 hs.2
    exact .prune hs.1 hhead
  | connect req =>
    rw [Daemon.step, Option.ite_none_right_eq_some] at hs
    obtain rfl := Option.some.inj hs.2
    exact .connect req (Option.isNone_iff_eq_none.1 hs.1)
  | advance =>
    obtain ⟨pipeline, hpipeline, hs⟩ := Option.bind_eq_some_iff.1 hs
    obtain ⟨s', hadv, rfl⟩ := Option.map_eq_some_iff.1 hs
    obtain ⟨s, hsession, hadv⟩ := Option.bind_eq_some_iff.1 hadv
    exact .advance hpipeline hsession hadv
  | reconnect taken =>
    obtain ⟨r, hlast, rfl⟩ := Option.map_eq_some_iff.1 hs
    exact .reconnect taken rfl hlast
  | fetch height =>
    obtain rfl := Option.some.inj hs
    split
    · rename_i hresponse
      obtain ⟨a, ha, hr⟩ := Option.bind_eq_some_iff.1 hresponse
      exact .archived ha hr
    · exact .unarchived height
  | probe i =>
    obtain ⟨c, hc, hs⟩ := Option.bind_eq_some_iff.1 hs
    cases c with
    | unarchived height =>
      obtain ⟨cache, hcache, hmk⟩ := Option.map_eq_some_iff.1 hs
      split at hmk
      · rename_i hprobe
        obtain rfl := hmk
        exact .cached hcache hprobe
      · obtain rfl := hmk
        exact .uncached i height
    | _ => cases hs
  | ask i getBlockByNum solidity =>
    obtain ⟨c, hc, hs⟩ := Option.bind_eq_some_iff.1 hs
    cases c with
    | asked height =>
      obtain rfl := Option.some.inj hs
      split
      · exact .failed i getBlockByNum solidity
      · rename_i ha
        exact .answered ha
    | _ => cases hs
  | populate i =>
    obtain ⟨c, hc, hs⟩ := Option.bind_eq_some_iff.1 hs
    cases c with
    | answered answer =>
      obtain rfl := Option.some.inj hs
      exact .populate hc
    | _ => cases hs

/-- `run_relay` with the firehose surface, on the archive an earlier run left. -/
def start (args : RelayArgs) (retention : ℕ) (witnesses : Reply) (archive : Option BlockArchive) :
    Except String (Option Daemon) :=
  (Relay.start { args with firehoseListen := true } witnesses none).map fun relay =>
    relay.map fun relay =>
      { worker := .ofRelay relay, mpsc := [], log := [], archive, archivePos := 0, retention
        session := none, received := [], fetches := [], fetched := [] }

end Daemon

end Firehose
end Lightcycle
