/-
# The daemon refines the pipeline

`World` of `Lightcycle.Firehose.Session` lets the engine be called with anything, at any
moment when no output is in hand, and the archive be anything.  The daemon does less: its
calls come from the replies of the node, and its archive from the archiver and the retention
task.  Every step of the daemon is at most one step of the world (`simulates_step`), as long
as `Fetch.Block` does not write to the cache; so what holds of every run of the world holds of
the daemon, over any node (`daemon_refines_world`).
-/

import Lightcycle.Firehose.Daemon
import Lightcycle.Firehose.Payload

namespace Lightcycle
namespace Firehose

open Relayer Store

/-! ### What a step of the worker does to the shared state -/

/-- A reply of the node to a step of the worker in `R` hands the call over: the head block and
its receipts to a step that reads the head, the solidified head to one that reads it. -/
inductive Answered (p : Protocol.PayloadDecoders) (sha256 : List UInt8 → List.Vector UInt8 32)
    (R : WorkerAction → Prop) : Call → Prop
  | accept {r : Replies} (hr : R (.head r)) {d : DecodedBlock} {txInfos : List DecodedTxInfo}
    (h : r.Carry p sha256 d txInfos) : Answered p sha256 R (.accept d txInfos)
  | setSolidifiedHead {r : Replies} (hr : R (.solidity r)) {s : ℕ}
    (h : GrpcSource.fetchSolidifiedHead r.solidity = .ok (some s)) :
    Answered p sha256 R (.setSolidifiedHead s)

/-- A call handed over by some steps is handed over by more. -/
theorem Answered.mono {p : Protocol.PayloadDecoders} {sha256 : List UInt8 → List.Vector UInt8 32}
    {R R' : WorkerAction → Prop} {c : Call} (h : Answered p sha256 R c) (hR : ∀ a, R a → R' a) :
    Answered p sha256 R' c := by
  cases h with
  | accept hr h => exact .accept (hR _ hr) h
  | setSolidifiedHead hr h => exact .setSolidifiedHead (hR _ hr) h

/-- The policy of the worker lets the block of the call through. -/
def Admits (recover : List.Vector UInt8 32 → List UInt8 → UInt8 → Option Address) (w : Worker) :
    Call → Prop
  | .accept d _ => verify recover w.relay.service.verifyPolicy w.relay.srSet d.header = .proceed
  | .setSolidifiedHead _ => True

/-- **What a step of the worker does** to the engine, the cache and the watch, and to what is
under way: nothing, a call, a write, or a send. -/
inductive WorkerMoves (p : Protocol.PayloadDecoders) (sha256 : List UInt8 → List.Vector UInt8 32)
    (recover : List.Vector UInt8 32 → List UInt8 → UInt8 → Option Address) (w : Worker) :
    WorkerAction → Worker → List Output → Prop
  | quiet {a : WorkerAction} {w' : Worker} (hengine : w'.relay.service.engine = w.relay.service.engine)
    (hcache : w'.relay.service.blockCache = w.relay.service.blockCache)
    (hhead : w'.relay.service.solidifiedHeadTx = w.relay.service.solidifiedHeadTx)
    (hfeed : w'.toFeed = w.toFeed) (hhand : w'.inHand = w.inHand) :
    WorkerMoves p sha256 recover w a w' []
  | call {a : WorkerAction} {c : Call} {e' : ReorgEngine} {out : List Output} {w' : Worker}
    (hidle : w.Idle) (hanswered : Answered p sha256 (· = a) c) (hadmits : Admits recover w c)
    (hcall : w.relay.service.engine.call c = some (e', out))
    (hengine : w'.relay.service.engine = e')
    (hcache : w'.relay.service.blockCache = w.relay.service.blockCache)
    (hhead : w'.relay.service.solidifiedHeadTx =
      w.relay.service.solidifiedHeadTx.map fun h => Pipeline.headAfter h c)
    (hfeed : w'.toFeed = out) (hhand : w'.inHand = none) : WorkerMoves p sha256 recover w a w' []
  | feed {o : Output} {os : List Output} {w' : Worker} (hfeed : w.toFeed = o :: os)
    (hhand : w.inHand = none) (hengine : w'.relay.service.engine = w.relay.service.engine)
    (hcache : w'.relay.service.blockCache = w.relay.service.blockCache.map fun c => feedCache c o)
    (hhead : w'.relay.service.solidifiedHeadTx = w.relay.service.solidifiedHeadTx)
    (hfeed' : w'.toFeed = os) (hhand' : w'.inHand = some o) : WorkerMoves p sha256 recover w .feed w' []
  | send {o : Output} {w' : Worker} (hhand : w.inHand = some o)
    (hengine : w'.relay.service.engine = w.relay.service.engine)
    (hcache : w'.relay.service.blockCache = w.relay.service.blockCache)
    (hhead : w'.relay.service.solidifiedHeadTx = w.relay.service.solidifiedHeadTx)
    (hfeed : w'.toFeed = w.toFeed) (hhand' : w'.inHand = none) :
    WorkerMoves p sha256 recover w .send w' [o]

section worker

variable {p : Protocol.PayloadDecoders} {sha256 : List UInt8 → List.Vector UInt8 32}
  {recover : List.Vector UInt8 32 → List UInt8 → UInt8 → Option Address}
  {w w' : Worker} {out : List Output}

/-- The first half of a tick moves the engine as the reply says. -/
theorem moves_solidity {r : Replies} (hs : w.step p sha256 recover (.solidity r) = some (w', out)) :
    WorkerMoves p sha256 recover w (.solidity r) w' out := by
  rw [Worker.step, Option.ite_none_right_eq_some] at hs
  obtain ⟨⟨hidle, -⟩, hs⟩ := hs
  split_ifs at hs
  · obtain ⟨rfl, rfl⟩ := Prod.mk.inj (Option.some.inj hs)
    exact .quiet rfl rfl rfl rfl rfl
  · obtain ⟨rfl, rfl⟩ := Prod.mk.inj (Option.some.inj hs)
    cases hreply : GrpcSource.fetchSolidifiedHead r.solidity with
    | error e => exact .quiet rfl rfl rfl hidle.2.1.symm rfl
    | ok head =>
      cases head with
      | none => exact .quiet rfl rfl rfl hidle.2.1.symm rfl
      | some h =>
        exact .call hidle (.setSolidifiedHead (R := (· = .solidity r)) rfl hreply) trivial rfl rfl
          rfl rfl rfl hidle.2.2

/-- So does the second half. -/
theorem moves_head {r : Replies} (hs : w.step p sha256 recover (.head r) = some (w', out)) :
    WorkerMoves p sha256 recover w (.head r) w' out := by
  rw [Worker.step, Option.ite_none_right_eq_some] at hs
  obtain ⟨⟨hidle, -⟩, hs⟩ := hs
  obtain ⟨y, hy, hmk⟩ := Option.map_eq_some_iff.1 hs
  obtain ⟨rfl, rfl⟩ := Prod.mk.inj hmk
  rcases RelayerService.readHead_cases hy with rfl | ⟨fetched, e', os, hpassed, hcall, rfl⟩
  · exact .quiet rfl rfl rfl hidle.2.1.symm rfl
  · have hcarry := GrpcBlockFetcher.carry_of_fetchNowBlock (RelayerService.head_of_passed hpassed)
    refine .call hidle (.accept (R := (· = .head r)) rfl hcarry)
      (RelayerService.verify_of_passed hpassed) hcall rfl rfl ?_ rfl hidle.2.2
    exact Option.map_id'.symm

/-- **One step of the worker.** Each half of a tick calls the engine once at most, and the
writes and sends after it are steps of their own. -/
theorem moves_of_worker {a : WorkerAction} (hs : w.step p sha256 recover a = some (w', out)) :
    WorkerMoves p sha256 recover w a w' out := by
  cases a with
  | refresh witnesses =>
    obtain ⟨relay, hrefresh, hmk⟩ := Option.map_eq_some_iff.1 hs
    obtain ⟨rfl, rfl⟩ := Prod.mk.inj hmk
    have hservice := Relay.service_of_refresh hrefresh
    exact .quiet (by rw [hservice]) (by rw [hservice]) (by rw [hservice]) rfl rfl
  | solidity r => exact moves_solidity hs
  | head r => exact moves_head hs
  | feed =>
    rw [Worker.step, Option.ite_none_right_eq_some] at hs
    obtain ⟨⟨-, hhand⟩, hs⟩ := hs
    obtain ⟨o, ho, hmk⟩ := Option.map_eq_some_iff.1 hs
    obtain ⟨rfl, rfl⟩ := Prod.mk.inj hmk
    obtain ⟨os, hos⟩ := List.head?_eq_some_iff.1 ho
    exact .feed hos hhand rfl rfl rfl (by rw [hos]; rfl) rfl
  | send =>
    rw [Worker.step, Option.ite_none_right_eq_some] at hs
    obtain ⟨-, hs⟩ := hs
    obtain ⟨o, ho, hmk⟩ := Option.map_eq_some_iff.1 hs
    split at hmk
    · obtain ⟨rfl, rfl⟩ := Prod.mk.inj hmk
      exact .quiet rfl rfl rfl rfl rfl
    · obtain ⟨rfl, rfl⟩ := Prod.mk.inj hmk
      exact .send ho rfl rfl rfl rfl rfl
    · obtain ⟨rfl, rfl⟩ := Prod.mk.inj hmk
      exact .send ho rfl rfl rfl rfl rfl
  | close =>
    obtain ⟨rfl, rfl⟩ := Prod.mk.inj (Option.some.inj hs)
    exact .quiet rfl rfl rfl rfl rfl

/-- The watch holds what it held, or what a reply answered. -/
theorem WorkerMoves.head {a : WorkerAction} {H : ℕ → Prop} (hm : WorkerMoves p sha256 recover w a w' out)
    (h : ∀ n, w.relay.service.solidifiedHeadTx.join = some n → H n)
    (hreply : ∀ s, Answered p sha256 (· = a) (.setSolidifiedHead s) → H s) :
    ∀ n, w'.relay.service.solidifiedHeadTx.join = some n → H n := by
  cases hm with
  | quiet _ _ hhead => rwa [hhead]
  | feed _ _ _ _ hhead => rwa [hhead]
  | send _ _ _ hhead => rwa [hhead]
  | @call _ c _ _ _ _ hanswered _ _ _ _ hhead =>
    intro n hn
    rw [hhead] at hn
    cases hwatch : w.relay.service.solidifiedHeadTx with
    | none =>
      rw [hwatch] at hn
      cases hn
    | some head =>
      rw [hwatch] at hn
      cases c with
      | accept d txInfos => exact h n (by rw [hwatch]; exact hn)
      | setSolidifiedHead s =>
        obtain rfl := Option.some.inj hn
        exact hreply s hanswered

end worker

/-! ### The simulation -/

/-- The step does not write an answer of `Fetch.Block` to the cache. -/
def DaemonAction.NoFill (act : DaemonAction) : Prop := ∀ i, act ≠ .populate i

/-- The world has the shared state of the daemon, and its consumer. -/
structure Refines (d : Daemon) (w : World) : Prop where
  engine : d.worker.relay.service.engine = w.pipeline.engine
  toFeed : d.worker.toFeed = w.pipeline.toFeed
  inHand : d.worker.inHand = w.pipeline.inHand
  mpsc : d.mpsc = w.pipeline.mpsc
  log : d.log = w.pipeline.log
  cache : d.worker.relay.service.blockCache = some w.pipeline.cache
  head : d.worker.relay.service.solidifiedHeadTx = some w.pipeline.head
  archive : d.archive = w.pipeline.archive
  session : d.session = w.session
  received : d.received = w.received

namespace Refines

variable {p : Protocol.PayloadDecoders} {sha256 : List UInt8 → List.Vector UInt8 32}
  {recover : List.Vector UInt8 32 → List UInt8 → UInt8 → Option Address} {prost : Prost}
  {d d' : Daemon} {w : World}

/-- A daemon that refines a world has its pipeline. -/
theorem pipeline (h : Refines d w) : d.pipeline = some w.pipeline := by
  obtain ⟨⟨engine, toFeed, inHand, mpsc, log, cache, head, archive⟩, session, received⟩ := w
  rw [Daemon.pipeline, Daemon.cache, Daemon.head, h.cache, h.head, h.engine, h.toFeed, h.inHand,
    h.mpsc, h.log, h.archive]
  rfl

variable (p sha256 prost) in
/-- The world can take steps to a state that the daemon `d'` refines, with no call but from the
replies to the steps in `R`. -/
def Matched (R : WorkerAction → Prop) (d' : Daemon) (w : World) : Prop :=
  ∃ (ts : List Action) (w₁ : World),
    (∀ t ∈ ts, ∀ c, t = .task (.call c) → Answered p sha256 R c) ∧
    Run.exec (World.step prost) w ts = some w₁ ∧ Refines d' w₁

variable {R : WorkerAction → Prop}

/-- By no step. -/
theorem matched (h : Refines d' w) : Matched p sha256 prost R d' w :=
  ⟨[], w, fun _ ht => (List.not_mem_nil ht).elim, rfl, h⟩

/-- By one step. -/
theorem matched_one {v : World} {t : Action} (h : Refines d' v)
    (ht : ∀ c, t = .task (.call c) → Answered p sha256 R c)
    (hs : World.step prost w t = some v) : Matched p sha256 prost R d' w :=
  ⟨[t], v, List.forall_mem_singleton.2 ht, Run.exec_cons_eq_some.2 ⟨v, hs, rfl⟩, h⟩

/-- **A step of the worker** is at most one task. -/
theorem worker {a : WorkerAction} {w' : Worker} {out : List Output} (h : Refines d w)
    (hm : WorkerMoves p sha256 recover d.worker a w' out) :
    Matched p sha256 prost (· = a) { d with worker := w', mpsc := d.mpsc ++ out } w := by
  obtain ⟨⟨engine, toFeed, inHand, mpsc, log, cache, head, archive⟩, session, received⟩ := w
  cases hm with
  | quiet hengine hcache hhead hfeed hhand =>
    refine matched { h with
      engine := hengine.trans h.engine, toFeed := hfeed.trans h.toFeed
      inHand := hhand.trans h.inHand, mpsc := (List.append_nil _).trans h.mpsc
      cache := hcache.trans h.cache, head := hhead.trans h.head }
  | @call _ c e' os _ hidle hanswered hadmits hcall hengine hcache hhead hfeed hhand =>
    rw [h.engine] at hcall
    obtain ⟨-, hnone, hempty⟩ := hidle
    obtain rfl : toFeed = [] := h.toFeed.symm.trans hnone
    obtain rfl : inHand = none := h.inHand.symm.trans hempty
    have hstep : Pipeline.step ⟨engine, [], none, mpsc, log, cache, head, archive⟩ (.call c) =
        some ⟨e', os, none, mpsc, log, cache, Pipeline.headAfter head c, archive⟩ := by
      rw [Pipeline.step, if_pos ⟨rfl, rfl⟩, hcall]
      rfl
    refine matched_one (t := .task (.call c)) ?_ ?_ (congrArg (Option.map _) hstep)
    · exact { h with
        engine := hengine, toFeed := hfeed, inHand := hhand
        mpsc := (List.append_nil _).trans h.mpsc, cache := hcache.trans h.cache
        head := hhead.trans (congrArg (Option.map _) h.head) }
    · intro c' hc'
      cases hc'
      exact hanswered
  | @feed o os w' hfeed hhand hengine hcache hhead hfeed' hhand' =>
    obtain rfl : toFeed = o :: os := h.toFeed.symm.trans hfeed
    obtain rfl : inHand = none := h.inHand.symm.trans hhand
    refine matched_one (t := .task .feed) ?_ (fun c' hc' => by cases hc') rfl
    exact { h with
      engine := hengine.trans h.engine, toFeed := hfeed', inHand := hhand'
      mpsc := (List.append_nil _).trans h.mpsc
      cache := hcache.trans (congrArg (Option.map _) h.cache), head := hhead.trans h.head }
  | @send o w' hhand hengine hcache hhead hfeed hhand' =>
    obtain rfl : inHand = some o := h.inHand.symm.trans hhand
    refine matched_one (t := .task .send) ?_ (fun c' hc' => by cases hc') rfl
    exact { h with
      engine := hengine.trans h.engine, toFeed := hfeed.trans h.toFeed, inHand := hhand'
      mpsc := congrArg (· ++ [o]) h.mpsc, cache := hcache.trans h.cache
      head := hhead.trans h.head }

/-- A write of the archive. -/
theorem archive_write (h : Refines d w) {archive : Option BlockArchive} {a : BlockArchive}
    (ha : archive = d.archive.map fun _ => a) (pos : ℕ) :
    Matched p sha256 prost R { d with archive, archivePos := pos } w := by
  refine matched_one (t := .task (.archive a)) ?_ (fun c' hc' => by cases hc') rfl
  exact { h with archive := ha.trans (congrArg (Option.map fun _ => a) h.archive) }

/-- **A step of the daemon is at most one step of the world.** Steps that only read a reply
or wait are none, and all others are the step of the same task. -/
theorem step {act : DaemonAction} (hfill : act.NoFill) (h : Refines d w)
    (hs : d.step p sha256 recover prost act = some d') :
    Matched p sha256 prost (fun a => act = .worker a) d' w := by
  cases Daemon.moves_of_step hs with
  | @worker a _ _ hworker =>
    obtain ⟨ts, w₁, hts, hexec, hr⟩ : Matched p sha256 prost (· = a) _ w :=
      h.worker (moves_of_worker hworker)
    exact ⟨ts, w₁, fun t ht c hc => (hts t ht c hc).mono fun _ ha => ha ▸ rfl, hexec, hr⟩
  | @pump o os hmpsc =>
    obtain ⟨⟨engine, toFeed, inHand, mpsc, log, cache, head, archive⟩, session, received⟩ := w
    obtain rfl : mpsc = o :: os := h.mpsc.symm.trans hmpsc
    refine matched_one (t := .task .pump) ?_ (fun c' hc' => by cases hc') rfl
    exact { h with mpsc := rfl, log := congrArg (· ++ [o]) h.log }
  | @archiver o a _ ha => exact h.archive_write (a := archiveOutput prost a o) (by rw [ha]; rfl) _
  | lagged => exact matched { h with }
  | @prune head _ _ =>
    cases ha : d.archive with
    | none => exact matched { h with archive := ha.symm.trans h.archive }
    | some a =>
      exact h.archive_write (a := (a.deleteBelow (head - d.retention)).1) (by rw [ha]; rfl) _
  | connect req hidle =>
    refine matched_one (t := .connect req)
      (v := { w with session := some (.opened w.pipeline.log req) })
      { h with session := by rw [h.log] } (fun c hc => by cases hc) ?_
    simp only [World.step, h.session.symm.trans hidle]
  | @advance _ s s' hpipeline hsession hadv =>
    obtain rfl := Option.some.inj (h.pipeline.symm.trans hpipeline)
    refine matched_one (t := .advance) (v := { w with session := some s' })
      { h with session := rfl } (fun c hc => by cases hc) ?_
    rw [World.step, h.session.symm.trans hsession, Option.bind_some, hadv]
    rfl
  | @reconnect taken received r hreceived hlast =>
    rw [h.session, h.received, h.log] at hreceived
    refine matched_one (t := .reconnect taken)
      (v := ⟨w.pipeline, some (.opened w.pipeline.log (World.resumeAt r)), received⟩)
      { h with session := by rw [h.log], received := rfl } (fun c hc => by cases hc) ?_
    obtain rfl := hreceived
    exact Option.map_eq_some_iff.2 ⟨r, hlast, rfl⟩
  | populate => exact absurd rfl (hfill _)
  | _ => exact matched { h with }

end Refines

/-- The daemon starts as a fresh world. -/
theorem refines_start {args : RelayArgs} {retention : ℕ} {witnesses : Reply}
    {archive : Option BlockArchive} {d : Daemon}
    (h : Daemon.start args retention witnesses archive = .ok (some d)) :
    ∃ w, World.init ⟨args.bufferWindow, args.finalityDepth⟩ args.blockCacheCapacity archive = some w ∧
      Refines d w := by
  obtain ⟨relay?, hrelay, hmk⟩ := Decode.map_eq_ok.1 h
  obtain ⟨relay, rfl, rfl⟩ := Option.map_eq_some_iff.1 hmk
  obtain ⟨srSet, -, hstart⟩ := Decode.map_eq_ok.1 hrelay
  obtain ⟨engine, hnew, hsome⟩ := Option.bind_eq_some_iff.1 hstart
  obtain ⟨cache?, hopen, rfl⟩ := Option.map_eq_some_iff.1 hsome
  rw [if_pos rfl] at hopen
  obtain ⟨cache, hcache, rfl⟩ := Option.map_eq_some_iff.1 hopen
  have hpipeline : Pipeline.new ⟨args.bufferWindow, args.finalityDepth⟩ args.blockCacheCapacity
      archive = some ⟨engine, [], none, [], [], cache, none, archive⟩ :=
    Option.bind_eq_some_iff.2 ⟨engine, hnew, Option.map_eq_some_iff.2 ⟨cache, hcache, rfl⟩⟩
  refine ⟨_, Option.map_eq_some_iff.2 ⟨_, hpipeline, rfl⟩, ?_⟩
  constructor <;> rfl

/-- A step of the worker in the run, with the replies that it waited for. -/
def HeardIn (acts : List DaemonAction) (a : WorkerAction) : Prop := .worker a ∈ acts

/-- **The daemon refines the world.**  Over any node, any run of the daemon in which
`Fetch.Block` does not fill the cache is one of the world: with the same outputs under way and
broadcast, the same cache, watch and archive, and the same consumer.  The calls of the engine
in it hand over what the node answered: blocks and receipts what it answered to a step that read
the head, solidified heads what it answered to one that read them. -/
theorem daemon_refines_world (p : Protocol.PayloadDecoders)
    (sha256 : List UInt8 → List.Vector UInt8 32)
    (recover : List.Vector UInt8 32 → List UInt8 → UInt8 → Option Address) (prost : Prost)
    (args : RelayArgs) (retention : ℕ) (witnesses : Reply) (archive : Option BlockArchive)
    (d₀ d : Daemon) (acts : List DaemonAction) (hfill : ∀ act ∈ acts, act.NoFill)
    (hstart : Daemon.start args retention witnesses archive = .ok (some d₀))
    (hrun : Run.exec (Daemon.step p sha256 recover prost) d₀ acts = some d) :
    ∃ w₀ w actions,
      World.init ⟨args.bufferWindow, args.finalityDepth⟩ args.blockCacheCapacity archive = some w₀ ∧
      Run.exec (World.step prost) w₀ actions = some w ∧ Refines d w ∧
      ∀ c, .task (.call c) ∈ actions → Answered p sha256 (HeardIn acts) c := by
  obtain ⟨w₀, hinit, hr⟩ := refines_start hstart
  have hstep : ∀ (d : Daemon) (act : DaemonAction) (d' : Daemon) (w : World),
      (act ∈ acts ∧ act.NoFill) → Refines d w → d.step p sha256 recover prost act = some d' →
      ∃ js t', (∀ j ∈ js, ∀ c, j = .task (.call c) → Answered p sha256 (HeardIn acts) c) ∧
        Run.exec (World.step prost) w js = some t' ∧ Refines d' t' := by
    intro d act d' w hact h hs
    obtain ⟨ts, w₁, hts, hexec, hr⟩ := h.step hact.2 hs
    refine ⟨ts, w₁, fun t ht c hc => (hts t ht c hc).mono ?_, hexec, hr⟩
    rintro a rfl
    exact hact.1
  obtain ⟨actions, w, hcalls, hexec, hr'⟩ :=
    Run.exec_simulates hstep (fun act hact => ⟨hact, hfill act hact⟩) hr hrun
  exact ⟨w₀, w, actions, hinit, hexec, hr', fun c hc => hcalls _ hc c rfl⟩

/-- A node whose head, also the solidified one, is the signed block. -/
def signedReplies : Replies := ⟨some signedBlock, some signedBlock, fun _ => none⟩

/-- The arguments of a strict relay with the firehose surface. -/
def firehoseArgs : RelayArgs := { strictArgs with firehoseListen := true, blockCacheCapacity := 8 }

/-- A tick reads the signed block, which is announced and stored. -/
def storeSigned : List DaemonAction :=
  [.worker (.solidity signedReplies), .worker (.head signedReplies), .worker .feed, .worker .send,
    .worker .feed, .worker .send, .pump, .pump, .archiver, .archiver]

/-- What the daemon broadcast then, the world broadcasts. -/
theorem daemon_refines_world_storeSigned :
    ∃ d₀ d w₀ w actions,
      Daemon.start firehoseArgs 0 (some oneWitness) (some .empty) = .ok (some d₀) ∧
      Run.exec (Daemon.step noPayloads rawDigest (fun _ _ _ => some (Address.fill 0x41)) prostBlock)
        d₀ storeSigned = some d ∧
      d.log.length = 2 ∧ World.init ⟨30, 19⟩ 8 (some .empty) = some w₀ ∧
      Run.exec (World.step prostBlock) w₀ actions = some w ∧ Refines d w ∧
      ∀ c, .task (.call c) ∈ actions → Answered noPayloads rawDigest (HeardIn storeSigned) c := by
  have hok : ((Daemon.start firehoseArgs 0 (some oneWitness) (some .empty)).toOption.join.bind
      fun d₀ => (Run.exec (Daemon.step noPayloads rawDigest (fun _ _ _ => some (Address.fill 0x41))
        prostBlock) d₀ storeSigned).map fun d => d.log.length) = some 2 := by
    decide +kernel
  obtain ⟨d₀, hstart, hok⟩ := Option.bind_eq_some_iff.1 hok
  obtain ⟨d, hrun, hlog⟩ := Option.map_eq_some_iff.1 hok
  have hstart' := Decode.toOption_join_eq_some.1 hstart
  have hfill : ∀ act ∈ storeSigned, act.NoFill := by
    simp [storeSigned, DaemonAction.NoFill]
  obtain ⟨w₀, w, actions, h⟩ := daemon_refines_world noPayloads rawDigest
    (fun _ _ _ => some (Address.fill 0x41)) prostBlock firehoseArgs 0 (some oneWitness)
    (some .empty) d₀ d storeSigned hfill hstart' hrun
  exact ⟨d₀, d, w₀, w, actions, hstart', hrun, hlog, h⟩

end Firehose
end Lightcycle
