/-
# What every consumer is served

Any number of consumers may call (`Lightcycle.Firehose.Fleet`), after any number of restarts.
Each of them has the daemon for itself, so that what its one consumer is delivered is known
(`Lightcycle.Firehose.Signed`).  That names the replies of the node, which only steps of the
tasks read, and these are the same in both (`TasksIn`).
-/

import Lightcycle.Firehose.Signed
import Lightcycle.Firehose.Fleet

namespace Lightcycle
namespace Firehose

open Relayer Store

/-- Every step of a task in the one list is in the other. -/
def TasksIn (acts tasks : List DaemonAction) : Prop :=
  ∀ act ∈ acts, act.ofTask = some act → act ∈ tasks

/-- A run whose steps of tasks are the given ones has them among these. -/
theorem tasksIn_of_filterMap {acts tasks : List DaemonAction}
    (h : acts.filterMap DaemonAction.ofTask = tasks) : TasksIn acts tasks :=
  fun act hact htask => h ▸ List.mem_filterMap.2 ⟨act, hact, htask⟩

namespace TasksIn

variable {p : Protocol.PayloadDecoders} {sha256 : List UInt8 → List.Vector UInt8 32}
  {recover : List.Vector UInt8 32 → List UInt8 → UInt8 → Option Address} {policy : VerifyPolicy}
  {acts tasks earlier : List DaemonAction} {listings : List Reply}

/-- Earlier steps may be put in front of both. -/
theorem append (h : TasksIn acts tasks) (earlier : List DaemonAction) :
    TasksIn (earlier ++ acts) (earlier ++ tasks) := by
  intro act hact htask
  rcases List.mem_append.1 hact with hact | hact
  · exact List.mem_append_left _ hact
  · exact List.mem_append_right _ (h act hact htask)

/-! ### What the node answered -/

/-- The worker's steps are steps of tasks, so they are all there. -/
theorem heardIn (h : TasksIn acts tasks) {a : WorkerAction} (ha : HeardIn acts a) :
    HeardIn tasks a := h _ ha rfl

/-- What was listed in the one run was listed in the other. -/
theorem listed (h : TasksIn acts tasks) {reply : Reply} (hl : Listed listings acts reply) :
    Listed listings tasks reply :=
  hl.imp_right fun hact => h _ hact rfl

/-- A head that the node answered in the one it answered in the other. -/
theorem headFromNode (h : TasksIn acts tasks) {n : ℕ} (hn : HeadFromNode acts n) :
    HeadFromNode tasks n := by
  cases hn with
  | tick hr hreply => exact .tick (h.heardIn hr) hreply
  | fetch hact hreply => exact .fetch (h _ hact rfl) hreply

/-- So it is with a block. -/
theorem fromNode (h : TasksIn acts tasks) {b : BufferedBlock} (hb : FromNode p sha256 acts b) :
    FromNode p sha256 tasks b := by
  cases hb with
  | head hr hcarry forkId => exact .head (h.heardIn hr) hcarry forkId
  | byNumber hact hreply hblock => exact .byNumber (h _ hact rfl) hreply hblock

/-- So it is with a signed head block. -/
theorem signedHead (h : TasksIn acts tasks) {b : BufferedBlock}
    (hb : SignedHead p sha256 recover policy listings acts b) :
    SignedHead p sha256 recover policy listings tasks b := by
  cases hb with
  | intro hr hcarry forkId hlisted hws hbytes hparse hdecode hheader hsigned =>
    exact .intro (h.heardIn hr) hcarry forkId (h.listed hlisted) hws hbytes hparse hdecode hheader
      hsigned

/-- Payloads that are short in all steps are short in those of the run. -/
theorem delimited (h : TasksIn acts tasks) (hlen : Delimited p sha256 tasks) :
    Delimited p sha256 acts :=
  fun b f hb hf => hlen b f (h.fromNode hb) fun n hn => h.headFromNode (hf n hn)

/-- A run of tasks that fill no cache fills none. -/
theorem noFill (h : TasksIn acts tasks) (hfill : ∀ act ∈ tasks, act.NoFill) :
    ∀ act ∈ acts, act.NoFill := by
  rintro act hact i rfl
  exact hfill _ (h _ hact rfl) i rfl

end TasksIn

/-- **What any consumer takes is signed.**  However often the daemon was restarted on its
database, if it verified with the policy in all its lives and `Fetch.Block` filled no cache, and
however many consumers it has on a hub of whatever size: each response that any of them took,
of this call or of those before, is of a head that the node answered, whose header is signed as
the policy wants it by the witnesses of a reply to `ListWitnesses`; and its payload decodes to
that block. -/
theorem every_consumer_signed (p : Protocol.PayloadDecoders)
    (sha256 : List UInt8 → List.Vector UInt8 32)
    (recover : List.Vector UInt8 32 → List UInt8 → UInt8 → Option Address) (policy : VerifyPolicy)
    (size : ℕ) (earlier : List DaemonAction) (acts : List FleetAction) (listings : List Reply)
    (stored : BlockArchive) (args : RelayArgs) (retention : ℕ) (witnesses : Reply)
    (archive : Option BlockArchive) (d₀ : Daemon) (f : Fleet) (hp : p.Fits)
    (hlen : Delimited p sha256 (earlier ++ acts.filterMap FleetAction.ofTask))
    (hpolicy : policy ≠ .disabled)
    (hlives : Lives (Verified policy) p sha256 recover prostBlock earlier listings stored)
    (hverified : Verified policy args (acts.filterMap FleetAction.ofTask))
    (hopen : archive = none ∨ archive = some stored)
    (hstart : Daemon.start args retention witnesses archive = .ok (some d₀))
    (hrun : Run.exec (Fleet.step p sha256 recover prostBlock size) (.ofDaemon d₀) acts = some f) :
    ∀ i, ∀ r ∈ (f.consumers i).received ++ (f.consumers i).taken, ∃ b finality,
      SignedHead p sha256 recover policy (listings ++ [witnesses])
        (earlier ++ acts.filterMap FleetAction.ofTask) b ∧
      HeadGiven (HeadFromNode (earlier ++ acts.filterMap FleetAction.ofTask))
        finality.solidifiedHead ∧
      (⟨r.block, r.metadata⟩ : SingleBlockResponse) = oracleResponse prostBlock b finality ∧
      (r.block.map fun any => Pb.Block.decode any.value) =
        some (some (encodeBlock b finality)) := by
  intro i r hr
  obtain ⟨dacts, d, htasks, hexec, hshows⟩ := Fleet.shows_run (i := i) hstart hrun
  have htask := tasksIn_of_filterMap htasks
  have hin := htask.append earlier
  have hgiven := given_signed hp (hin.delimited hlen) hpolicy hlives
    ⟨hverified.1, htask.noFill hverified.2⟩ hopen hstart hexec
  obtain ⟨b, finality, hb, hhead, heq⟩ := hgiven.delivered r (hshows.holds_prefix.subset hr)
  have hblock : r.block = (oracleResponse prostBlock b finality).block :=
    congrArg SingleBlockResponse.block heq
  have hhead' : HeadGiven (HeadFromNode (earlier ++ acts.filterMap FleetAction.ofTask))
      finality.solidifiedHead := fun n hn => hin.headFromNode (hhead n hn)
  refine ⟨b, finality, hin.signedHead hb, hhead', heq, ?_⟩
  rw [hblock]
  exact congrArg some
    (readsBack_fromNode hp hlen b finality (hin.fromNode hb.fromNode) hhead')

/-- The second consumer of `oneLags` holds the signed block. -/
theorem every_consumer_signed_oneLags :
    ∃ d₀ f r b finality,
      Daemon.start firehoseArgs 0 (some oneWitness) (some .empty) = .ok (some d₀) ∧
      Run.exec (Fleet.step Protocol.payloadDecoders rawDigest
        (fun _ _ _ => some (Address.fill 0x41)) prostBlock 1) (.ofDaemon d₀) oneLags = some f ∧
      r ∈ (f.consumers 1).taken ∧
      SignedHead Protocol.payloadDecoders rawDigest (fun _ _ _ => some (Address.fill 0x41)) .strict
        [some oneWitness] (oneLags.filterMap FleetAction.ofTask) b ∧
      (⟨r.block, r.metadata⟩ : SingleBlockResponse) = oracleResponse prostBlock b finality ∧
      (r.block.map fun any => Pb.Block.decode any.value) =
        some (some (encodeBlock b finality)) := by
  have hok : ((Daemon.start firehoseArgs 0 (some oneWitness) (some .empty)).toOption.join.bind
      fun d₀ => (Run.exec (Fleet.step Protocol.payloadDecoders rawDigest
        (fun _ _ _ => some (Address.fill 0x41)) prostBlock 1) (.ofDaemon d₀) oneLags).map fun f =>
          (f.consumers 1).taken.length) = some 2 := by
    decide +kernel
  obtain ⟨d₀, hstart, hok⟩ := Option.bind_eq_some_iff.1 hok
  obtain ⟨f, hrun, htaken⟩ := Option.map_eq_some_iff.1 hok
  obtain ⟨r, r', hrs⟩ := List.length_eq_two.1 htaken
  have hr : r ∈ (f.consumers 1).taken := hrs ▸ List.mem_cons_self
  have htasks : oneLags.filterMap FleetAction.ofTask = storeSigned.take 8 := rfl
  have hin : TasksIn (oneLags.filterMap FleetAction.ofTask) (storeSigned ++ []) :=
    fun act hact _ => List.mem_append_left _ (List.mem_of_mem_take (htasks ▸ hact))
  have hfill : ∀ act ∈ oneLags.filterMap FleetAction.ofTask, act.NoFill := by
    rintro act hact i rfl
    rw [htasks] at hact
    exact absurd (List.mem_of_mem_take hact) (by simp [storeSigned])
  have hstart' := Decode.toOption_join_eq_some.1 hstart
  obtain ⟨b, finality, hb, -, heq, hdecodes⟩ := every_consumer_signed Protocol.payloadDecoders
    rawDigest (fun _ _ _ => some (Address.fill 0x41)) .strict 1 [] oneLags [] .empty firehoseArgs 0
    (some oneWitness) (some .empty) d₀ f Protocol.fits_payloadDecoders
    (hin.delimited (delimited_storeSigned (by simp) (by simp))) (by decide) .fresh ⟨rfl, hfill⟩
    (.inr rfl) hstart' hrun 1 r (List.mem_append_right _ hr)
  exact ⟨d₀, f, r, b, finality, hstart', hrun, hr, hb, heq, hdecodes⟩

end Firehose
end Lightcycle
