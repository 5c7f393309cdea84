/-
# What a verifying daemon streams is signed

With a policy that verifies, every block that the engine takes was signed as the policy wants
it, by the SR set in force.  Here this reaches the consumer: everything `Stream.Blocks` delivers,
live or from the cache or from the archive, in a daemon that verified in all its lives, has such
a header (`stream_is_signed`).

`Fetch.Block` does not verify: its answer from the node goes to the consumer and into the cache,
where the backfill of `Stream.Blocks` finds it.  So the condition is that no call of `Fetch.Block`
fills the cache, and without it the statement is false (`stream_is_signed_needs_noFill`).
-/

import Lightcycle.Firehose.Sourced

namespace Lightcycle
namespace Firehose

open Relayer Store

/-- A reply to `ListWitnesses`, at the start of a life or in a refresh. -/
def Listed (listings : List Reply) (acts : List DaemonAction) (reply : Reply) : Prop :=
  reply ∈ listings ∨ .worker (.refresh reply) ∈ acts

/-- The block is a head that the node answered in a tick, with the receipts it gave for it, and
the header is signed by a witness that the node listed. -/
inductive SignedHead (p : Protocol.PayloadDecoders) (sha256 : List UInt8 → List.Vector UInt8 32)
    (recover : List.Vector UInt8 32 → List UInt8 → UInt8 → Option Address) (policy : VerifyPolicy)
    (listings : List Reply) (acts : List DaemonAction) : BufferedBlock → Prop
  | intro {r : Replies} (hr : HeardIn acts (.head r)) {d : DecodedBlock} {txInfos : List DecodedTxInfo}
    (hcarry : r.Carry p sha256 d txInfos) (forkId : UInt32) {listing bytes : List UInt8}
    {ws : List Protocol.Witness} {block : Protocol.Block} {header : Protocol.BlockHeader}
    (hlisted : Listed listings acts (some listing))
    (hws : Protocol.decodeWitnessList listing = some ws) (hbytes : r.nowBlock = some bytes)
    (hparse : Protocol.Block.decode bytes = some block)
    (hdecode : decodeBlockMessage p sha256 block = .ok d) (hheader : block.blockHeader = some header)
    (hsigned : Signed sha256 recover policy ws header) :
    SignedHead p sha256 recover policy listings acts (ReorgEngine.bufferedBlock forkId d txInfos)

section

variable {p : Protocol.PayloadDecoders} {sha256 : List UInt8 → List.Vector UInt8 32}
  {recover : List.Vector UInt8 32 → List UInt8 → UInt8 → Option Address} {prost : Prost}
  {policy : VerifyPolicy} {listings : List Reply} {acts : List DaemonAction}

/-- A signed head block was answered by the node. -/
theorem SignedHead.fromNode {b : BufferedBlock}
    (h : SignedHead p sha256 recover policy listings acts b) : FromNode p sha256 acts b := by
  cases h with
  | intro hr hcarry forkId => exact .head hr hcarry forkId

/-! ### The SR set -/

/-- A refresh keeps the SR set, or takes the one of its reply. -/
theorem srSet_of_refresh {w w' : Relay} {reply : Reply} (h : w.refresh reply = some w') :
    w'.srSet = w.srSet ∨ ∃ sr, GrpcSource.fetchActiveSrSet reply = .ok sr ∧ w'.srSet = some sr := by
  rw [Relay.refresh, Option.ite_none_left_eq_some] at h
  obtain rfl := Option.some.inj h.2
  cases hset : GrpcSource.fetchActiveSrSet reply with
  | error e => exact .inl rfl
  | ok sr =>
    simp only [Except.toOption, Option.elim_some]
    split_ifs
    · exact .inl rfl
    · exact .inr ⟨sr, rfl, rfl⟩

/-- A step of the worker keeps the policy, and the SR set unless it is a refresh. -/
theorem srSet_of_worker {w w' : Worker} {a : WorkerAction} {out : List Output}
    (hs : w.step p sha256 recover a = some (w', out)) :
    w'.relay.service.verifyPolicy = w.relay.service.verifyPolicy ∧
      (w'.relay.srSet = w.relay.srSet ∨ ∃ reply sr, a = .refresh reply ∧
        GrpcSource.fetchActiveSrSet reply = .ok sr ∧ w'.relay.srSet = some sr) := by
  cases a with
  | refresh reply =>
    obtain ⟨relay, hrefresh, hmk⟩ := Option.map_eq_some_iff.1 hs
    obtain ⟨rfl, -⟩ := Prod.mk.inj hmk
    refine ⟨congrArg RelayerService.verifyPolicy (Relay.service_of_refresh hrefresh), ?_⟩
    exact (srSet_of_refresh hrefresh).imp_right fun ⟨sr, hsr, hset⟩ => ⟨reply, sr, rfl, hsr, hset⟩
  | solidity r =>
    rw [Worker.step, Option.ite_none_right_eq_some] at hs
    replace hs := hs.2
    split_ifs at hs
    · obtain ⟨rfl, -⟩ := Prod.mk.inj (Option.some.inj hs)
      exact ⟨rfl, .inl rfl⟩
    · obtain ⟨rfl, -⟩ := Prod.mk.inj (Option.some.inj hs)
      refine ⟨?_, .inl rfl⟩
      rcases GrpcSource.fetchSolidifiedHead r.solidity with e | _ | n <;> rfl
  | head r =>
    rw [Worker.step, Option.ite_none_right_eq_some] at hs
    obtain ⟨y, hy, hmk⟩ := Option.map_eq_some_iff.1 hs.2
    obtain ⟨rfl, -⟩ := Prod.mk.inj hmk
    refine ⟨?_, .inl rfl⟩
    rcases RelayerService.readHead_cases hy with rfl | ⟨_, _, _, -, -, rfl⟩ <;> rfl
  | feed =>
    rw [Worker.step, Option.ite_none_right_eq_some] at hs
    obtain ⟨o, -, hmk⟩ := Option.map_eq_some_iff.1 hs.2
    obtain ⟨rfl, -⟩ := Prod.mk.inj hmk
    exact ⟨rfl, .inl rfl⟩
  | send =>
    rw [Worker.step, Option.ite_none_right_eq_some] at hs
    obtain ⟨o, -, hmk⟩ := Option.map_eq_some_iff.1 hs.2
    split at hmk <;> (obtain ⟨rfl, -⟩ := Prod.mk.inj hmk; exact ⟨rfl, .inl rfl⟩)
  | close =>
    obtain ⟨rfl, -⟩ := Prod.mk.inj (Option.some.inj hs)
    exact ⟨rfl, .inl rfl⟩

/-- The daemon verifies, by an SR set that the node listed. -/
structure Daemon.Verifies (policy : VerifyPolicy) (listings : List Reply) (acts : List DaemonAction)
    (d : Daemon) : Prop where
  policy : d.worker.relay.service.verifyPolicy = policy
  srSet : ∃ reply sr, d.worker.relay.srSet = some sr ∧ Listed listings acts reply ∧
    GrpcSource.fetchActiveSrSet reply = .ok sr

namespace Daemon.Verifies

variable {d d' : Daemon}

/-- **One step of the daemon** leaves the policy alone, and takes an SR set only from a
listing that was read. -/
theorem step {act : DaemonAction} (h : d.Verifies policy listings acts) (hact : act ∈ acts)
    (hs : d.step p sha256 recover prost act = some d') : d'.Verifies policy listings acts := by
  cases Daemon.moves_of_step hs with
  | worker hworker =>
    obtain ⟨hpolicy, hset | ⟨reply, sr, rfl, hreply, hset⟩⟩ := srSet_of_worker hworker
    · exact ⟨hpolicy.trans h.policy, by rw [hset]; exact h.srSet⟩
    · exact ⟨hpolicy.trans h.policy, reply, sr, hset, .inr hact, hreply⟩
  | _ => exact { h with }

/-- **What the engine is given is signed.** The block of a tick passed the gate, so it
recovers as the policy wants it to a witness of a listing that was read. -/
theorem gives {act : DaemonAction} (hpolicy : policy ≠ .disabled)
    (h : d.Verifies policy listings acts) (hact : act ∈ acts) (hfill : act.NoFill) :
    act.Gives (SignedHead p sha256 recover policy listings acts) (HeadFromNode acts)
      (FromNode p sha256 acts) p sha256 recover d.worker := by
  have hgives : act.Gives (FromNode p sha256 acts) (HeadFromNode acts) (FromNode p sha256 acts) p
      sha256 recover d.worker := DaemonAction.gives_fromNode hact recover d.worker
  cases act with
  | worker a =>
    intro c hc hadmits
    cases hc with
    | accept hr hcarry =>
      obtain ⟨reply, sr, hset, hlisted, hreply⟩ := h.srSet
      rw [Admits, h.policy, hset, verify_eq_proceed_iff hpolicy] at hadmits
      obtain ⟨listing, ws, rfl, hws, bytes, block, header, hbytes, hparse, hdecode, hheader, hsigned⟩ :=
        exists_signed hreply hcarry hadmits
      obtain rfl := hr
      exact fun forkId => .intro hact hcarry forkId hlisted hws hbytes hparse hdecode hheader hsigned
    | setSolidifiedHead hr hreply => exact .tick (by rw [hr]; exact hact) hreply
  | populate i => exact absurd rfl (hfill i)
  | _ => exact hgives

/-- A daemon that verifies starts with the set of the first reply. -/
theorem start {args : RelayArgs} {retention : ℕ} {witnesses : Reply} {archive : Option BlockArchive}
    (hpolicy : args.verify ≠ .disabled) (hwitnesses : witnesses ∈ listings)
    (h : Daemon.start args retention witnesses archive = .ok (some d)) :
    d.Verifies args.verify listings acts := by
  obtain ⟨relay?, hrelay, hmk⟩ := Decode.map_eq_ok.1 h
  obtain ⟨relay, rfl, rfl⟩ := Option.map_eq_some_iff.1 hmk
  have hok := Relay.ok_start hrelay
  obtain ⟨srSet, hset, hstart⟩ := Decode.map_eq_ok.1 hrelay
  obtain ⟨engine, hnew, hsome⟩ := Option.bind_eq_some_iff.1 hstart
  obtain ⟨cache, -, rfl⟩ := Option.map_eq_some_iff.1 hsome
  obtain ⟨sr, rfl, hfetch⟩ := Relay.initialSrSet_eq_ok hpolicy hset
  exact ⟨hok.verifyPolicy, witnesses, sr, rfl, .inl hwitnesses, hfetch⟩

end Daemon.Verifies

/-- The life verifies with the policy, and `Fetch.Block` does not fill its cache. -/
def Verified (policy : VerifyPolicy) (args : RelayArgs) (acts : List DaemonAction) : Prop :=
  args.verify = policy ∧ ∀ act ∈ acts, act.NoFill

/-- Such a life keeps to what is signed. -/
theorem lifeKeeps_signed (hp : p.Fits) (hlen : Delimited p sha256 acts)
    (hpolicy : policy ≠ .disabled) :
    LifeKeeps p sha256 (Verified policy) recover prostBlock
      (SignedHead p sha256 recover policy listings acts) (FromNode p sha256 acts)
      (HeadFromNode acts) acts listings := by
  rintro args retention witnesses archive d₀ d life ⟨rfl, hfill⟩ hsub hwitnesses hstart h hrun
  have hread : ReadsBack prostBlock (SignedHead p sha256 recover args.verify listings acts)
      (HeadFromNode acts) :=
    fun b f hb => readsBack_fromNode hp hlen b f hb.fromNode
  exact (Run.exec_preserves_of_forall
    (I := fun d => Daemon.Given prostBlock (SignedHead p sha256 recover args.verify listings acts)
      (HeadFromNode acts) (FromNode p sha256 acts) d ∧ d.Verifies args.verify listings acts)
    (C := fun act => act ∈ acts ∧ act.NoFill)
    (fun d act d' hact h hs =>
      ⟨h.1.step hread (fun _ hb => hb.fromNode) (h.2.gives hpolicy hact.1 hact.2) hs,
        h.2.step hact.1 hs⟩)
    (fun act hact => ⟨hsub hact, hfill act hact⟩)
    ⟨h, .start hpolicy hwitnesses hstart⟩ hrun).1

/-- After such lives, and through one more, all that can be served is signed. -/
theorem given_signed {earlier : List DaemonAction} {stored : BlockArchive} {args : RelayArgs}
    {retention : ℕ} {witnesses : Reply} {archive : Option BlockArchive} {d₀ d : Daemon} (hp : p.Fits)
    (hlen : Delimited p sha256 (earlier ++ acts)) (hpolicy : policy ≠ .disabled)
    (hlives : Lives (Verified policy) p sha256 recover prostBlock earlier listings stored)
    (hverified : Verified policy args acts) (hopen : archive = none ∨ archive = some stored)
    (hstart : Daemon.start args retention witnesses archive = .ok (some d₀))
    (hrun : Run.exec (Daemon.step p sha256 recover prostBlock) d₀ acts = some d) :
    Daemon.Given prostBlock
      (SignedHead p sha256 recover policy (listings ++ [witnesses]) (earlier ++ acts))
      (HeadFromNode (earlier ++ acts)) (FromNode p sha256 (earlier ++ acts)) d := by
  have hlife : LifeKeeps p sha256 (Verified policy) recover prostBlock
      (SignedHead p sha256 recover policy (listings ++ [witnesses]) (earlier ++ acts))
      (FromNode p sha256 (earlier ++ acts)) (HeadFromNode (earlier ++ acts)) (earlier ++ acts)
      (listings ++ [witnesses]) := lifeKeeps_signed hp hlen hpolicy
  have hrows := hlives.rowsGiven hlife (List.subset_append_left ..) (List.subset_append_left ..)
  exact hlife args retention witnesses archive d₀ d acts hverified
    (List.subset_append_right ..) (List.mem_append_right _ (List.mem_singleton_self _)) hstart
    (.start (hrows.open hopen) hstart) hrun

end

/-- **What `Stream.Blocks` delivers is signed.**  However often the daemon was restarted on its
database, if it verified with the policy in all its lives and `Fetch.Block` filled no cache: each
response that `Stream.Blocks` has delivered, live, from the cache or from the archive, is of a
head that the node answered, whose header is signed as the policy wants it by the witnesses of a
reply to `ListWitnesses`; and its payload decodes to that block. -/
theorem stream_is_signed (p : Protocol.PayloadDecoders)
    (sha256 : List UInt8 → List.Vector UInt8 32)
    (recover : List.Vector UInt8 32 → List UInt8 → UInt8 → Option Address) (policy : VerifyPolicy)
    (earlier acts : List DaemonAction) (listings : List Reply) (stored : BlockArchive)
    (args : RelayArgs) (retention : ℕ) (witnesses : Reply) (archive : Option BlockArchive)
    (d₀ d : Daemon) (hp : p.Fits) (hlen : Delimited p sha256 (earlier ++ acts))
    (hpolicy : policy ≠ .disabled)
    (hlives : Lives (Verified policy) p sha256 recover prostBlock earlier listings stored)
    (hverified : Verified policy args acts) (hopen : archive = none ∨ archive = some stored)
    (hstart : Daemon.start args retention witnesses archive = .ok (some d₀))
    (hrun : Run.exec (Daemon.step p sha256 recover prostBlock) d₀ acts = some d) :
    ∀ r ∈ d.delivered prostBlock, ∃ b f,
      SignedHead p sha256 recover policy (listings ++ [witnesses]) (earlier ++ acts) b ∧
      HeadGiven (HeadFromNode (earlier ++ acts)) f.solidifiedHead ∧
      (⟨r.block, r.metadata⟩ : SingleBlockResponse) = oracleResponse prostBlock b f ∧
      (r.block.map fun any => Pb.Block.decode any.value) = some (some (encodeBlock b f)) := by
  have hgiven := given_signed hp hlen hpolicy hlives hverified hopen hstart hrun
  intro r hr
  obtain ⟨b, f, hb, hf, heq⟩ := hgiven.delivered r hr
  have hblock : r.block = (oracleResponse prostBlock b f).block :=
    congrArg SingleBlockResponse.block heq
  refine ⟨b, f, hb, hf, heq, ?_⟩
  rw [hblock]
  exact congrArg some (readsBack_fromNode hp hlen b f hb.fromNode hf)

/-- A consumer asks from height 1 on, and its handler reads what there is. -/
def streamFromOne : List DaemonAction :=
  .connect ⟨1, [], 0, false, []⟩ :: List.replicate 5 .advance

/-- The daemon stores the signed block, is restarted, and streams it from the archive. -/
theorem stream_is_signed_storeSigned :
    ∃ stored d₀ d r b f, Lives (Verified .strict) Protocol.payloadDecoders rawDigest
        (fun _ _ _ => some (Address.fill 0x41)) prostBlock storeSigned [some oneWitness] stored ∧
      Daemon.start firehoseArgs 0 (some oneWitness) (some stored) = .ok (some d₀) ∧
      Run.exec (Daemon.step Protocol.payloadDecoders rawDigest
        (fun _ _ _ => some (Address.fill 0x41)) prostBlock) d₀ streamFromOne = some d ∧
      d.delivered prostBlock = [r] ∧
      SignedHead Protocol.payloadDecoders rawDigest (fun _ _ _ => some (Address.fill 0x41)) .strict
        [some oneWitness, some oneWitness] (storeSigned ++ streamFromOne) b ∧
      (⟨r.block, r.metadata⟩ : SingleBlockResponse) = oracleResponse prostBlock b f ∧
      (r.block.map fun any => Pb.Block.decode any.value) = some (some (encodeBlock b f)) := by
  have hok : ((Daemon.start firehoseArgs 0 (some oneWitness) (some .empty)).toOption.join.bind
      fun d₁ => (Run.exec (Daemon.step Protocol.payloadDecoders rawDigest
        (fun _ _ _ => some (Address.fill 0x41)) prostBlock) d₁ storeSigned).bind fun d₂ =>
          d₂.archive.bind fun stored =>
            (Daemon.start firehoseArgs 0 (some oneWitness) (some stored)).toOption.join.bind
              fun d₃ => (Run.exec (Daemon.step Protocol.payloadDecoders rawDigest
                (fun _ _ _ => some (Address.fill 0x41)) prostBlock) d₃ streamFromOne).map fun d =>
                  (d.delivered prostBlock).length) = some 1 := by
    decide +kernel
  obtain ⟨d₁, hstart₁, hok⟩ := Option.bind_eq_some_iff.1 hok
  obtain ⟨d₂, hrun₁, hok⟩ := Option.bind_eq_some_iff.1 hok
  obtain ⟨stored, hstored, hok⟩ := Option.bind_eq_some_iff.1 hok
  obtain ⟨d₃, hstart₂, hok⟩ := Option.bind_eq_some_iff.1 hok
  obtain ⟨d, hrun₂, hok⟩ := Option.map_eq_some_iff.1 hok
  obtain ⟨r, hr⟩ := List.length_eq_one_iff.1 hok
  have hverified : ∀ {acts : List DaemonAction}, (∀ i, .populate i ∉ acts) →
      Verified .strict firehoseArgs acts :=
    fun h => ⟨rfl, fun act hact i => by rintro rfl; exact h i hact⟩
  have hlives : Lives (Verified .strict) Protocol.payloadDecoders rawDigest
      (fun _ _ _ => some (Address.fill 0x41)) prostBlock storeSigned [some oneWitness] stored := by
    have h := Lives.fresh.life (hverified (by simp [storeSigned])) (.inr rfl)
      (Decode.toOption_join_eq_some.1 hstart₁) hrun₁
    rwa [hstored] at h
  have hstart := Decode.toOption_join_eq_some.1 hstart₂
  obtain ⟨b, f, hb, -, hconveys⟩ := stream_is_signed Protocol.payloadDecoders rawDigest
    (fun _ _ _ => some (Address.fill 0x41)) .strict storeSigned streamFromOne [some oneWitness]
    stored firehoseArgs 0 (some oneWitness) (some stored) d₃ d Protocol.fits_payloadDecoders
    (delimited_storeSigned (by simp [streamFromOne]) (by simp [streamFromOne])) (by decide) hlives
    (hverified (by simp [streamFromOne])) (.inr rfl) hstart hrun₂ r (hr ▸ List.mem_singleton_self r)
  exact ⟨stored, d₃, d, r, b, f, hlives, hstart, hrun₂, hr, hb, hconveys⟩

/-- `Fetch.Block` gets a block that nobody signed, and the consumer streams it from the cache of a
strict daemon: no tick read it. -/
theorem stream_is_signed_needs_noFill :
    ∃ d₀ d r, Daemon.start firehoseArgs 0 (some oneWitness) none = .ok (some d₀) ∧
      Run.exec (Daemon.step Protocol.payloadDecoders rawDigest
        (fun _ _ _ => some (Address.fill 0x41)) prostBlock) d₀
        ([.fetch 1, .probe 0, .ask 0 (fun _ => some plainBlock) none, .populate 0] ++ streamFromOne) =
          some d ∧
      d.delivered prostBlock = [r] ∧ r.step = .stepNew ∧
      ∀ b, ¬ SignedHead Protocol.payloadDecoders rawDigest (fun _ _ _ => some (Address.fill 0x41))
        .strict [some oneWitness]
        ([.fetch 1, .probe 0, .ask 0 (fun _ => some plainBlock) none, .populate 0] ++ streamFromOne)
        b := by
  have hok : ((Daemon.start firehoseArgs 0 (some oneWitness) none).toOption.join.bind fun d₀ =>
      (Run.exec (Daemon.step Protocol.payloadDecoders rawDigest (fun _ _ _ => some (Address.fill 0x41))
        prostBlock) d₀ ([.fetch 1, .probe 0, .ask 0 (fun _ => some plainBlock) none, .populate 0] ++
          streamFromOne)).map fun d => (d.delivered prostBlock).map Response.step) =
        some [.stepNew] := by
    decide +kernel
  obtain ⟨d₀, hstart, hok⟩ := Option.bind_eq_some_iff.1 hok
  obtain ⟨d, hrun, hsteps⟩ := Option.map_eq_some_iff.1 hok
  obtain ⟨r, hr, hstep⟩ := List.map_eq_singleton_iff.1 hsteps
  refine ⟨d₀, d, r, Decode.toOption_join_eq_some.1 hstart, hrun, hr, hstep, fun b hb => ?_⟩
  cases hb with
  | intro hheard => simp [HeardIn, streamFromOne] at hheard

end Firehose
end Lightcycle
