/-
# The relay over an untrusted node

`run_relay` of `crates/lightcycle-cli/src/main.rs` up to the output channel: the service of
`Lightcycle.Relayer.Service` on the replies of a java-tron node, and the task that replaces
its SR set.  The two run at their own pace, and nothing is assumed of the node: each reply is
any bytes or a failure.

The service reads the SR set once in a tick, when it verifies the head, and before that
nothing depends on it.  So a refresh that ends during a tick is one before or after it, and a
run is a list of whole refreshes and ticks.

What such a relay emits as `New` under the strict policy, a witness in the rotation has
signed, as the last answer to `ListWitnesses` with an SR set has it
(`relay_admits_signed`).
-/

import Lightcycle.Relayer.Source
import Lightcycle.Relayer.Gate
import Lightcycle.Codec.WireBytes

namespace Lightcycle
namespace Relayer

open Store

/-- The arguments of `relay` that the pipeline depends on. -/
structure RelayArgs where
  verify : VerifyPolicy
  bufferWindow : ℕ
  finalityDepth : ℕ
  srRefreshSecs : ℕ
  firehoseListen : Bool
  blockCacheCapacity : ℕ
  fetchTxInfo : Bool

/-- The state of the relay. -/
structure Relay where
  service : RelayerService
  fetchTxInfo : Bool
  /-- The value of the SR-set watch. -/
  srSet : Option SrSet
  /-- The refresh task runs. -/
  refreshing : Bool

/-- A step of one of its tasks, with the replies it gets. -/
inductive RelayAction where
  | refresh (witnesses : Reply)
  | tick (replies : Replies)

namespace Relay

/-- The SR set `run_relay` fetches before it starts, unless nothing is verified. -/
def initialSrSet (verify : VerifyPolicy) (witnesses : Reply) : Except String (Option SrSet) :=
  if verify = .disabled then .ok none
  else ((GrpcSource.fetchActiveSrSet witnesses).mapError fun _ => "fetch initial SR set").map some

/-- `run_relay` before the tasks start: an error ends it, and a configuration the engine or
the cache refuses panics.  `outputTx` is the channel of the service. -/
def start (args : RelayArgs) (witnesses : Reply) (outputTx : Option ℕ) :
    Except String (Option Relay) :=
  (initialSrSet args.verify witnesses).map fun srSet =>
    (ReorgEngine.new ⟨args.bufferWindow, args.finalityDepth⟩).bind fun engine =>
      (if args.firehoseListen then (BlockCache.new args.blockCacheCapacity).map some
        else some none).map fun blockCache =>
          { service := .new engine args.verify blockCache (some none) outputTx
            fetchTxInfo := args.fetchTxInfo
            srSet
            refreshing := decide (args.verify ≠ .disabled ∧ 0 < args.srRefreshSecs) }

/-- What a tick of the service reads. -/
def reads (p : Protocol.PayloadDecoders) (sha256 : List UInt8 → List.Vector UInt8 32)
    (w : Relay) (r : Replies) : Tick where
  srSet := w.srSet
  solid := GrpcSource.fetchSolidifiedHead r.solidity
  head := GrpcBlockFetcher.fetchNowBlock p sha256 w.fetchTxInfo r

/-- A round of the refresh task, if it runs: a set that nobody receives any more ends it. -/
def refresh (w : Relay) (witnesses : Reply) : Option Relay :=
  if w.refreshing = false then none
  else
    some ((GrpcSource.fetchActiveSrSet witnesses).toOption.elim w fun set =>
      if w.service.exited then { w with refreshing := false } else { w with srSet := some set })

/-- One step and what it sends; `none` when it cannot be taken, or panics. -/
def step (p : Protocol.PayloadDecoders) (sha256 : List UInt8 → List.Vector UInt8 32)
    (recover : List.Vector UInt8 32 → List UInt8 → UInt8 → Option Address) (w : Relay) :
    RelayAction → Option (Relay × List Output)
  | .refresh witnesses => (w.refresh witnesses).map (·, [])
  | .tick r =>
    (w.service.round recover (w.reads p sha256 r)).map fun x => ({ w with service := x.1 }, x.2)

end Relay

/-- The replies of the refreshes, in order. -/
def refreshes (acts : List RelayAction) : List Reply :=
  acts.filterMap fun
    | .refresh witnesses => some witnesses
    | .tick _ => none

/-- `reply` is the last of the replies with an SR set. -/
structure Latest (replies : List Reply) (reply : Reply) (sr : SrSet) : Prop where
  set : GrpcSource.fetchActiveSrSet reply = .ok sr
  last : ∃ before after, replies = before ++ reply :: after ∧
    ∀ r ∈ after, (GrpcSource.fetchActiveSrSet r).toOption = none

/-- A reply without an SR set changes nothing. -/
theorem Latest.concat {replies : List Reply} {reply next : Reply} {sr : SrSet}
    (h : Latest replies reply sr) (hnext : (GrpcSource.fetchActiveSrSet next).toOption = none) :
    Latest (replies ++ [next]) reply sr := by
  obtain ⟨before, after, rfl, hafter⟩ := h.last
  refine ⟨h.set, before, after ++ [next], by simp, ?_⟩
  exact List.forall_mem_append.2 ⟨hafter, List.forall_mem_singleton.2 hnext⟩

/-- A reply that yields an SR set is the latest one. -/
theorem latest_concat {reply : Reply} {sr : SrSet}
    (h : GrpcSource.fetchActiveSrSet reply = .ok sr) (replies : List Reply) :
    Latest (replies ++ [reply]) reply sr :=
  ⟨h, replies, [], rfl, fun _ hr => (List.not_mem_nil hr).elim⟩

/-- The refreshes are those of either part. -/
theorem refreshes_concat (acts : List RelayAction) (a : RelayAction) :
    refreshes (acts ++ [a]) = refreshes acts ++ refreshes [a] :=
  List.filterMap_append ..

namespace RelayerService

variable {recover : List.Vector UInt8 32 → List UInt8 → UInt8 → Option Address}
  {svc svc' : RelayerService} {sent : List Output} {t : Tick}

/-- A service that has returned does nothing. -/
theorem round_of_exited (h : svc.exited = true) : svc.round recover t = some (svc, []) :=
  if_pos h

/-- What is handed over was read, by a service that runs. -/
theorem of_handed {fetched : FetchedBlock} (h : svc.handed recover t = some fetched) :
    svc.exited = false ∧ t.head = .ok fetched := by
  unfold handed at h
  split_ifs at h with hexited
  split at h
  · cases h
  · exact ⟨Bool.eq_false_of_not_eq_true hexited, head_of_passed h⟩

/-- What is handed over passed the policy. -/
theorem verify_of_passed {srSet : Option SrSet} {head : Except String FetchedBlock}
    {fetched : FetchedBlock} (h : svc.passed recover srSet head = some fetched) :
    verify recover svc.verifyPolicy srSet fetched.decoded.header = .proceed := by
  obtain rfl := head_of_passed h
  unfold passed at h
  simp only at h
  split_ifs at h
  split at h
  · assumption
  · cases h

end RelayerService

namespace Relay

variable {p : Protocol.PayloadDecoders} {sha256 : List UInt8 → List.Vector UInt8 32}
  {recover : List.Vector UInt8 32 → List UInt8 → UInt8 → Option Address}
  {args : RelayArgs} {w w' : Relay} {out : List Output} {witnesses : Reply}
  {outputTx : Option ℕ}

/-- What every state of the relay has, after `replies` to its `ListWitnesses`. -/
structure Ok (args : RelayArgs) (replies : List Reply) (w : Relay) : Prop where
  wf : w.service.engine.Wf
  verifyPolicy : w.service.verifyPolicy = args.verify
  srSet : args.verify ≠ .disabled → w.service.exited = false →
    ∃ reply sr, w.srSet = some sr ∧ Latest replies reply sr

/-- A relay that verifies starts with the set of the first reply. -/
theorem initialSrSet_eq_ok {verify : VerifyPolicy} (hverify : verify ≠ .disabled)
    {srSet : Option SrSet} (h : initialSrSet verify witnesses = .ok srSet) :
    ∃ sr, srSet = some sr ∧ GrpcSource.fetchActiveSrSet witnesses = .ok sr := by
  rw [initialSrSet, if_neg hverify] at h
  obtain ⟨sr, hfetch, rfl⟩ := Decode.map_eq_ok.1 h
  exact ⟨sr, rfl, Decode.mapError_eq_ok.1 hfetch⟩

/-- The relay starts with the SR set of the first reply. -/
theorem ok_start (h : start args witnesses outputTx = .ok (some w)) : w.Ok args [witnesses] := by
  obtain ⟨srSet, hset, h⟩ := Decode.map_eq_ok.1 h
  obtain ⟨engine, hnew, h⟩ := Option.bind_eq_some_iff.1 h
  obtain ⟨cache, -, rfl⟩ := Option.map_eq_some_iff.1 h
  refine ⟨ReorgEngine.wf_new hnew, rfl, fun hverify _ => ?_⟩
  obtain ⟨sr, rfl, hfetch⟩ := initialSrSet_eq_ok hverify hset
  exact ⟨witnesses, sr, rfl, latest_concat hfetch []⟩

/-- A refresh takes the SR set of its reply, or keeps the one before. -/
theorem Ok.refresh {replies : List Reply} {reply : Reply} (h : w.Ok args replies)
    (hs : w.refresh reply = some w') : w'.Ok args (replies ++ [reply]) := by
  rw [Relay.refresh, Option.ite_none_left_eq_some] at hs
  obtain ⟨-, hs⟩ := hs
  cases hset : GrpcSource.fetchActiveSrSet reply with
  | error e =>
    rw [hset] at hs
    obtain rfl := Option.some.inj hs
    refine ⟨h.wf, h.verifyPolicy, fun hverify hexited => ?_⟩
    obtain ⟨reply', sr, hsr, hlatest⟩ := h.srSet hverify hexited
    exact ⟨reply', sr, hsr, hlatest.concat (by rw [hset]; rfl)⟩
  | ok sr =>
    rw [hset] at hs
    obtain rfl := Option.some.inj hs
    simp only [Except.toOption, Option.elim_some]
    split_ifs with hexited
    · refine ⟨h.wf, h.verifyPolicy, fun _ hrun => ?_⟩
      rw [show w.service.exited = false from hrun] at hexited
      cases hexited
    · exact ⟨h.wf, h.verifyPolicy, fun _ _ => ⟨reply, sr, rfl, latest_concat hset replies⟩⟩

/-- **One step of the relay.** A tick does not touch the SR set, and a refresh takes the one
of its reply or keeps the one before. -/
theorem Ok.step {a : RelayAction} {replies : List Reply} (h : w.Ok args replies)
    (hs : w.step p sha256 recover a = some (w', out)) : w'.Ok args (replies ++ refreshes [a]) := by
  cases a with
  | refresh reply =>
    obtain ⟨w₁, hrefresh, hmk⟩ := Option.map_eq_some_iff.1 hs
    obtain ⟨rfl, -⟩ := Prod.mk.inj hmk
    exact h.refresh hrefresh
  | tick r =>
    obtain ⟨⟨svc, sent⟩, hround, hmk⟩ := Option.map_eq_some_iff.1 hs
    obtain ⟨rfl, -⟩ := Prod.mk.inj hmk
    rw [show refreshes [.tick r] = [] from rfl, List.append_nil]
    refine ⟨RelayerService.wf_of_round h.wf hround,
      (RelayerService.round_handed h.wf hround).1.trans h.verifyPolicy, fun hverify hrun => ?_⟩
    refine h.srSet hverify (Bool.eq_false_of_not_eq_true fun hexited => ?_)
    rw [RelayerService.round_of_exited hexited] at hround
    obtain ⟨hsame, -⟩ := Prod.mk.inj (Option.some.inj hround)
    rw [hsame, show svc.exited = false from hrun] at hexited
    cases hexited

/-- Every state of a run. -/
theorem ok_of_run {acts : List RelayAction} {sent : List Output} {w₀ : Relay}
    (hstart : start args witnesses outputTx = .ok (some w₀))
    (h : Run.run (step p sha256 recover) w₀ acts = some (w, sent)) :
    w.Ok args (witnesses :: refreshes acts) :=
  Run.run_invariant_of_inputs (P := fun acts w _ => w.Ok args (witnesses :: refreshes acts))
    (fun acts w _ a w' _ h hs => by
      rw [refreshes_concat, ← List.cons_append]
      exact h.step hs) (ok_start hstart) h

end Relay

/-- The signature of the header is over its raw data, and recovers to an address: to the
declared witness, which is one in the rotation, or under the lenient policy to any other. -/
def Signed (sha256 : List UInt8 → List.Vector UInt8 32)
    (recover : List.Vector UInt8 32 → List UInt8 → UInt8 → Option Address) (policy : VerifyPolicy)
    (ws : List Protocol.Witness) (header : Protocol.BlockHeader) : Prop :=
  ∃ raw a, header.rawData = some raw ∧
    recoverWitnessAddress recover (sha256 (Protocol.BlockHeader.Raw.message.encode raw))
      header.witnessSignature = .ok a ∧
    ((a.bytes.toList = raw.witnessAddress ∧
        ∃ w ∈ ws, w.isJobs = true ∧ w.address = raw.witnessAddress) ∨
      (a.bytes.toList ≠ raw.witnessAddress ∧ policy = .lenient))

/-- **What the gate admits is signed** by a witness of the listing that the SR set came
from. -/
theorem signed_of_admitted {sha256 : List UInt8 → List.Vector UInt8 32}
    {recover : List.Vector UInt8 32 → List UInt8 → UInt8 → Option Address} {policy : VerifyPolicy}
    {sr : SrSet} {ws : List Protocol.Witness} {header : Protocol.BlockHeader} {d : DecodedHeader}
    (hws : ∀ a, sr.contains a = true → ∃ w ∈ ws, w.isJobs = true ∧ w.address = a.bytes.toList)
    (hd : decodeHeader sha256 header = .ok d) (h : Admitted recover policy sr d) :
    Signed sha256 recover policy ws header := by
  unfold decodeHeader at hd
  cases hraw : header.rawData with
  | none =>
    rw [hraw] at hd
    cases hd
  | some raw =>
    rw [hraw] at hd
    obtain ⟨_, -, hd⟩ := Decode.bind_eq_ok.1 hd
    obtain ⟨_, -, hd⟩ := Decode.bind_eq_ok.1 hd
    obtain ⟨witness, hwitness, hd⟩ := Decode.bind_eq_ok.1 hd
    obtain rfl := Except.ok.inj hd
    obtain ⟨a, hrecover, hcases⟩ := h
    rw [bytesToAddress_eq_ok] at hwitness
    refine ⟨raw, a, hraw, hrecover, ?_⟩
    rcases hcases with ⟨rfl, hin⟩ | ⟨hne, hpolicy⟩
    · refine Or.inl ⟨hwitness, ?_⟩
      rw [← hwitness]
      exact hws _ hin
    · refine Or.inr ⟨fun heq => hne ?_, hpolicy⟩
      obtain ⟨bytes⟩ := a
      obtain ⟨bytes'⟩ := witness
      exact congrArg Address.mk (Subtype.ext (heq.trans hwitness.symm))

/-- What the policy admits of a reply is signed, by the witnesses of the reply the SR set is
from. -/
theorem exists_signed {p : Protocol.PayloadDecoders} {sha256 : List UInt8 → List.Vector UInt8 32}
    {recover : List.Vector UInt8 32 → List UInt8 → UInt8 → Option Address} {policy : VerifyPolicy}
    {reply : Reply} {sr : SrSet} {r : Replies} {d : DecodedBlock} {txInfos : List DecodedTxInfo}
    (hset : GrpcSource.fetchActiveSrSet reply = .ok sr) (hcarry : r.Carry p sha256 d txInfos)
    (h : Admitted recover policy sr d.header) :
    ∃ listing ws, reply = some listing ∧ Protocol.decodeWitnessList listing = some ws ∧
      ∃ bytes block header, r.nowBlock = some bytes ∧ Protocol.Block.decode bytes = some block ∧
        decodeBlockMessage p sha256 block = .ok d ∧ block.blockHeader = some header ∧
        Signed sha256 recover policy ws header := by
  obtain ⟨listing, ws, hlisting, hws, hmem⟩ := GrpcSource.exists_witnesses hset
  obtain ⟨bytes, hbytes, hblock⟩ := hcarry.block
  obtain ⟨block, hparse, hmessage⟩ := Decode.bind_eq_ok.1 hblock
  obtain ⟨⟨header, hheader, hdecode⟩, -⟩ := decodeBlockMessage_eq_ok.1 hmessage
  exact ⟨listing, ws, hlisting, hws, bytes, block, header, hbytes, orProtoDecode_eq_ok.1 hparse,
    hmessage, hheader, signed_of_admitted hmem hdecode h⟩

/-- **What a verifying relay emits as `New` is signed.**  Over any replies of the node and any
order of ticks and refreshes: a block that a tick sends as `New` is the one that tick's
`GetNowBlock` answered, and its header is signed as the policy wants it by the last reply to
`ListWitnesses` with an SR set. -/
theorem relay_admits_signed (p : Protocol.PayloadDecoders)
    (sha256 : List UInt8 → List.Vector UInt8 32)
    (recover : List.Vector UInt8 32 → List UInt8 → UInt8 → Option Address) (args : RelayArgs)
    (witnesses : Reply) (outputTx : Option ℕ) (relay w w' : Relay) (acts : List RelayAction)
    (sent out : List Output) (r : Replies) (s : StreamableBlock) (hverify : args.verify ≠ .disabled)
    (hstart : Relay.start args witnesses outputTx = .ok (some relay))
    (hrun : Run.run (Relay.step p sha256 recover) relay acts = some (w, sent))
    (hstep : w.step p sha256 recover (.tick r) = some (w', out)) (hs : .new s ∈ out) :
    ∃ reply sr listing ws, Latest (witnesses :: refreshes acts) reply sr ∧
      reply = some listing ∧ Protocol.decodeWitnessList listing = some ws ∧
      ∃ bytes block header, r.nowBlock = some bytes ∧ Protocol.Block.decode bytes = some block ∧
        decodeBlockMessage p sha256 block = .ok s.block.decoded ∧
        block.blockHeader = some header ∧ Signed sha256 recover args.verify ws header := by
  have hok := Relay.ok_of_run hstart hrun
  obtain ⟨⟨svc, sent'⟩, hround, hmk⟩ := Option.map_eq_some_iff.1 hstep
  obtain ⟨-, rfl⟩ := Prod.mk.inj hmk
  have hacc : s.block ∈ accepted sent' := List.mem_filterMap.2 ⟨_, hs, rfl⟩
  rcases (RelayerService.round_handed hok.wf hround).2 with
    ⟨-, hnone, -⟩ | ⟨fetched, -, hhanded, -, hdecoded⟩
  · rw [hnone] at hacc
    cases hacc
  · obtain ⟨hexited, hhead⟩ := RelayerService.of_handed hhanded
    obtain ⟨reply, sr, hset, hlatest⟩ := hok.srSet hverify hexited
    have hproceed := RelayerService.verify_of_handed hhanded
    rw [hok.verifyPolicy, show (w.reads p sha256 r).srSet = some sr from hset,
      verify_eq_proceed_iff hverify] at hproceed
    obtain ⟨listing, ws, hlisting, hws, h⟩ :=
      exists_signed hlatest.set (GrpcBlockFetcher.carry_of_fetchNowBlock hhead) hproceed
    rw [← hdecoded _ hacc] at h
    exact ⟨reply, sr, listing, ws, hlatest, hlisting, hws, h⟩

/-- A block with the raw data of `bareRaw 1` and a signature. -/
def signedBlock : List UInt8 :=
  [0x12, 0xa2, 1, 0x0a, 93] ++ bareRawBytes ++ [0x12, 65] ++ List.replicate 65 0

/-- One witness, in the rotation. -/
def oneWitness : List UInt8 :=
  [0x0a, 25, 0x0a, 21] ++ List.replicate 21 0x41 ++ [0x48, 1]

/-- The arguments of a strict relay without the firehose surface. -/
def strictArgs : RelayArgs := ⟨.strict, 30, 19, 1800, false, 0, false⟩

/-- A strict relay takes the signed block, after a refresh that fails. -/
theorem relay_admits_signed_oneWitness :
    ∃ relay w w' out s, Relay.start strictArgs (some oneWitness) none = .ok (some relay) ∧
      Run.run (Relay.step noPayloads rawDigest fun _ _ _ => some (Address.fill 0x41)) relay
        [.refresh none] = some (w, []) ∧
      w.step noPayloads rawDigest (fun _ _ _ => some (Address.fill 0x41))
        (.tick ⟨none, some signedBlock, fun _ => none⟩) = some (w', out) ∧
      .new s ∈ out ∧ ∃ reply sr listing ws, Latest [some oneWitness, none] reply sr ∧
        reply = some listing ∧ Protocol.decodeWitnessList listing = some ws ∧
        ∃ bytes block header, some signedBlock = some bytes ∧
          Protocol.Block.decode bytes = some block ∧
          decodeBlockMessage noPayloads rawDigest block = .ok s.block.decoded ∧
          block.blockHeader = some header ∧
          Signed rawDigest (fun _ _ _ => some (Address.fill 0x41)) .strict ws header := by
  have hok : ((Relay.start strictArgs (some oneWitness) none).toOption.join.bind fun relay =>
      (Run.run (Relay.step noPayloads rawDigest fun _ _ _ => some (Address.fill 0x41)) relay
        [.refresh none]).bind fun x =>
          (x.1.step noPayloads rawDigest (fun _ _ _ => some (Address.fill 0x41))
            (.tick ⟨none, some signedBlock, fun _ => none⟩)).map fun y =>
              (x.2.length, (accepted y.2).length)) = some (0, 1) := by
    decide +kernel
  obtain ⟨relay, hstart, hok⟩ := Option.bind_eq_some_iff.1 hok
  obtain ⟨⟨w, sent⟩, hrun, hok⟩ := Option.bind_eq_some_iff.1 hok
  obtain ⟨⟨w', out⟩, hstep, hok⟩ := Option.map_eq_some_iff.1 hok
  obtain ⟨hsent, hacc⟩ := Prod.mk.inj hok
  obtain rfl := List.length_eq_zero_iff.1 hsent
  obtain ⟨b, hb⟩ := List.exists_mem_of_length_pos (hacc ▸ Nat.one_pos)
  obtain ⟨o, ho, hnew⟩ := List.mem_filterMap.1 hb
  cases o with
  | new s =>
    have hstart' := Decode.toOption_join_eq_some.1 hstart
    exact ⟨relay, w, w', out, s, hstart', hrun, hstep, ho, relay_admits_signed noPayloads rawDigest
      (fun _ _ _ => some (Address.fill 0x41)) strictArgs (some oneWitness) none relay w w'
      [.refresh none] [] out _ s (by decide) hstart' hrun hstep ho⟩
  | _ => cases hnew

end Relayer
end Lightcycle
