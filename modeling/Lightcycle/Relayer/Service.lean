/-
# The relayer service

`RelayerService` of `crates/lightcycle-relayer/src/service.rs`: each tick reads the
solidified head, then the head block, feeds the engine, and forwards what the engine
emits to the block cache and to the output channel.

The two reads are the inputs of a tick (`Tick`): an `Err` of an RPC is its text.  A
tick also carries the value the SR-set watch holds then, which a refresh task
replaces between ticks.  `outputTx` is what is left of the channel: `none` for a
receiver that stays, `some n` for one dropped after `n` more sends.  `recover` is
k256's public key recovery.  Logging, metrics and the horizon observer have no
counterpart.

A tick does nothing to the engine that a list of at most two calls does not
(`round_calls`), so everything proved about runs of the engine holds of runs of
the service.
-/

import Lightcycle.Relayer.Replay
import Lightcycle.Store.Cache

namespace Lightcycle
namespace Relayer

open Store

/-- Policy for how to react to verify failures. -/
inductive VerifyPolicy where
  | disabled
  | lenient
  | strict
deriving DecidableEq

/-- What `BlockFetcher` returns. -/
structure FetchedBlock where
  decoded : DecodedBlock
  txInfos : List DecodedTxInfo
deriving DecidableEq

/-- Service-level errors. -/
inductive ServiceError where
  | outputChannelClosed
  | sourceError (error : String)
  | verifyRejected (error : CodecError)
deriving DecidableEq

/-- The state of the live ingest pipeline. -/
structure RelayerService where
  engine : ReorgEngine
  verifyPolicy : VerifyPolicy
  blockCache : Option (BlockCache BufferedBlock)
  solidifiedHeadTx : Option (Option ℕ)
  outputTx : Option ℕ
  /-- The loop of `run` has returned. -/
  exited : Bool

/-- `feed_cache` on the cache behind it. -/
def feedCache (cache : BlockCache BufferedBlock) : Output → BlockCache BufferedBlock
  | .new s => (cache.insert s.block.height s.block.blockId s.block).1
  | .undo s => (cache.removeById s.block.blockId).1
  | .irreversible _ => cache
  | .forkObserved .. => cache
  | .forkResolved .. => cache

/-- What the verification of `process_one` decides. -/
inductive Verdict where
  | proceed
  | skip
  | reject (error : CodecError)
deriving DecidableEq

/-- The verification of `process_one`: without a policy or an SR set the block passes;
a witness mismatch passes under the lenient policy, which skips any other failure. -/
def verify (recover : List.Vector UInt8 32 → List UInt8 → UInt8 → Option Address)
    (policy : VerifyPolicy) (srSet : Option SrSet) (header : DecodedHeader) : Verdict :=
  match policy, srSet with
  | .disabled, _ => .proceed
  | _, none => .proceed
  | policy, some sr =>
    match verifyWitnessSignature recover header sr with
    | .ok () => .proceed
    | .error e =>
      match e, policy with
      | .witnessAddressMismatch _ _, .lenient => .proceed
      | e, .strict => .reject e
      | _, _ => .skip

namespace RelayerService

/-- `RelayerService::new` with the attachments of `with_block_cache` and
`with_solidified_head_tx`. -/
def new (engine : ReorgEngine) (verifyPolicy : VerifyPolicy)
    (blockCache : Option (BlockCache BufferedBlock)) (solidifiedHeadTx : Option (Option ℕ))
    (outputTx : Option ℕ) : RelayerService :=
  { engine, verifyPolicy, blockCache, solidifiedHeadTx, outputTx, exited := false }

/-- The loop over the outputs of a call: feed the cache, then send; the first failed send
ends it.  The outputs sent come second. -/
def forward (svc : RelayerService) :
    List Output → RelayerService × List Output × Except ServiceError Unit
  | [] => (svc, [], .ok ())
  | o :: os =>
    let svc := { svc with blockCache := svc.blockCache.map fun c => feedCache c o }
    match svc.outputTx with
    | some 0 => (svc, [], .error .outputChannelClosed)
    | some (n + 1) =>
      let r := forward { svc with outputTx := some n } os
      (r.1, o :: r.2.1, r.2.2)
    | none =>
      let r := forward svc os
      (r.1, o :: r.2.1, r.2.2)

/-- The first half of `tick_once`: the solidified head. -/
def observeSolidified (svc : RelayerService) (solid : Except String (Option ℕ)) :
    RelayerService × List Output × Except ServiceError Unit :=
  match solid with
  | .ok (some h) =>
    let r := svc.engine.setSolidifiedHead h
    { svc with engine := r.1, solidifiedHeadTx := svc.solidifiedHeadTx.map fun _ => some h }.forward
      r.2
  | .ok none => (svc, [], .ok ())
  | .error _ => (svc, [], .ok ())

variable (recover : List.Vector UInt8 32 → List UInt8 → UInt8 → Option Address)

/-- `process_one`; `none` is a panic of the engine. -/
def processOne (svc : RelayerService) (srSet : Option SrSet) (fetched : FetchedBlock) :
    Option (RelayerService × List Output × Except ServiceError Unit) :=
  match verify recover svc.verifyPolicy srSet fetched.decoded.header with
  | .reject e => some (svc, [], .error (.verifyRejected e))
  | .skip => some (svc, [], .ok ())
  | .proceed =>
    match svc.engine.accept fetched.decoded fetched.txInfos with
    | none => none
    | some (engine, .ok outputs) => some ({ svc with engine }.forward outputs)
    -- a gap, a reorg below finality, a duplicate: logged and counted
    | some (engine, .error _) => some ({ svc with engine }, [], .ok ())

/-- The second half of `tick_once`: the head block. -/
def observeHead (svc : RelayerService) (srSet : Option SrSet) (head : Except String FetchedBlock) :
    Option (RelayerService × List Output × Except ServiceError Unit) :=
  match head with
  | .error e => some (svc, [], .error (.sourceError e))
  | .ok fetched =>
    if svc.engine.tip.any fun t => decide (t.blockId = fetched.decoded.header.blockId) then
      some (svc, [], .ok ())
    else svc.processOne recover srSet fetched

end RelayerService

/-- What one tick reads. -/
structure Tick where
  srSet : Option SrSet
  solid : Except String (Option ℕ)
  head : Except String FetchedBlock

namespace RelayerService

variable (recover : List.Vector UInt8 32 → List UInt8 → UInt8 → Option Address)

/-- `tick_once`. -/
def tickOnce (svc : RelayerService) (t : Tick) :
    Option (RelayerService × List Output × Except ServiceError Unit) :=
  let r := svc.observeSolidified t.solid
  match r.2.2 with
  | .error e => some (r.1, r.2.1, .error e)
  | .ok () => (r.1.observeHead recover t.srSet t.head).map fun r' =>
      (r'.1, r.2.1 ++ r'.2.1, r'.2.2)

/-- One round of the loop of `run` and the outputs it sent: it returns when the output
channel is closed, and retries after any other error. -/
def round (svc : RelayerService) (t : Tick) : Option (RelayerService × List Output) :=
  if svc.exited then some (svc, [])
  else if svc.outputTx = some 0 then some ({ svc with exited := true }, [])
  else
    (svc.tickOnce recover t).map fun r =>
      match r.2.2 with
      | .error .outputChannelClosed => ({ r.1 with exited := true }, r.2.1)
      | _ => (r.1, r.2.1)

/-! ### A tick as calls of the engine -/

variable {recover} {svc svc' : RelayerService} {sent outs : List Output} {t : Tick}

/-- What is forwarded goes to the cache and the channel, and changes nothing else. -/
theorem forward_frame (svc : RelayerService) (os : List Output) :
    ∃ cache tx, (svc.forward os).1 = { svc with blockCache := cache, outputTx := tx } := by
  induction os generalizing svc with
  | nil => exact ⟨_, _, rfl⟩
  | cons o os ih =>
    unfold forward
    rcases h : svc.outputTx with _ | n
    · obtain ⟨cache, tx, hf⟩ := ih { svc with
        blockCache := svc.blockCache.map fun c => feedCache c o, outputTx := none }
      exact ⟨cache, tx, hf⟩
    · cases n with
      | zero => exact ⟨_, _, rfl⟩
      | succ n =>
        obtain ⟨cache, tx, hf⟩ := ih { svc with
          blockCache := svc.blockCache.map fun c => feedCache c o, outputTx := some n }
        exact ⟨cache, tx, hf⟩

/-- Forwarding leaves the engine alone. -/
theorem forward_engine (svc : RelayerService) (os : List Output) :
    (svc.forward os).1.engine = svc.engine := by
  obtain ⟨_, _, h⟩ := svc.forward_frame os
  rw [h]

/-- It leaves the policy alone. -/
theorem forward_verifyPolicy (svc : RelayerService) (os : List Output) :
    (svc.forward os).1.verifyPolicy = svc.verifyPolicy := by
  obtain ⟨_, _, h⟩ := svc.forward_frame os
  rw [h]

/-- It leaves the watch alone. -/
theorem forward_solidifiedHeadTx (svc : RelayerService) (os : List Output) :
    (svc.forward os).1.solidifiedHeadTx = svc.solidifiedHeadTx := by
  obtain ⟨_, _, h⟩ := svc.forward_frame os
  rw [h]

/-- With the receiver there, everything is fed to the cache and sent. -/
theorem forward_of_open (svc : RelayerService) (os : List Output) (h : svc.outputTx = none) :
    svc.forward os =
      ({ svc with blockCache := os.foldl (fun c o => c.map fun c => feedCache c o) svc.blockCache },
        os, .ok ()) := by
  induction os generalizing svc with
  | nil => rfl
  | cons o os ih =>
    obtain ⟨engine, policy, cache, headTx, tx, exited⟩ := svc
    obtain rfl : tx = none := h
    have h' := ih ⟨engine, policy, cache.map fun c => feedCache c o, headTx, none, exited⟩ rfl
    rw [forward]
    simp only [h']
    rfl

/-- What is sent is a part of what the engine emitted, from the start. -/
theorem forward_isPrefix (svc : RelayerService) (os : List Output) :
    (svc.forward os).2.1 <+: os := by
  induction os generalizing svc with
  | nil => exact List.prefix_rfl
  | cons o os ih =>
    unfold forward
    rcases h : svc.outputTx with _ | n
    · exact List.prefix_cons_iff.2 (Or.inr ⟨_, rfl, ih _⟩)
    · cases n with
      | zero => exact List.nil_prefix
      | succ n => exact List.prefix_cons_iff.2 (Or.inr ⟨_, rfl, ih _⟩)

/-- The calls of the first half of a tick: none, or `set_solidified_head`. -/
def solidCalls : Except String (Option ℕ) → List Call
  | .ok (some h) => [.setSolidifiedHead h]
  | .ok none => []
  | .error _ => []

/-- **The first half of a tick is a run of the engine**, and what it sends is a prefix of
what that run emits. -/
theorem observeSolidified_calls (svc : RelayerService) (solid : Except String (Option ℕ)) :
    ∃ outs, Run.run ReorgEngine.call svc.engine (solidCalls solid) =
        some ((svc.observeSolidified solid).1.engine, outs) ∧
      (svc.observeSolidified solid).2.1 <+: outs := by
  rcases solid with e | _ | h
  · exact ⟨[], rfl, List.prefix_rfl⟩
  · exact ⟨[], rfl, List.prefix_rfl⟩
  · refine ⟨(svc.engine.setSolidifiedHead h).2, ?_, forward_isPrefix _ _⟩
    rw [observeSolidified, forward_engine]
    simp [solidCalls, Run.run, ReorgEngine.call]

/-- It keeps the engine well formed. -/
theorem wf_observeSolidified (hw : svc.engine.Wf) (solid : Except String (Option ℕ)) :
    (svc.observeSolidified solid).1.engine.Wf := by
  obtain ⟨outs, hrun, -⟩ := svc.observeSolidified_calls solid
  exact ReorgEngine.wf_of_run hw hrun

/-- The block the second half of a tick hands to `accept`: the head was read, is not the
tip and is let through. -/
def passed (recover : List.Vector UInt8 32 → List UInt8 → UInt8 → Option Address)
    (svc : RelayerService) (srSet : Option SrSet) (head : Except String FetchedBlock) :
    Option FetchedBlock :=
  match head with
  | .error _ => none
  | .ok fetched =>
    if svc.engine.tip.any fun t => decide (t.blockId = fetched.decoded.header.blockId) then none
    else
      match verify recover svc.verifyPolicy srSet fetched.decoded.header with
      | .proceed => some fetched
      | _ => none

/-- A block that passed the gate is the one that was fetched. -/
theorem head_of_passed {srSet : Option SrSet} {head : Except String FetchedBlock}
    {fetched : FetchedBlock} (h : svc.passed recover srSet head = some fetched) :
    head = .ok fetched := by
  unfold passed at h
  cases head with
  | error e => cases h
  | ok f =>
    simp only at h
    split_ifs at h
    cases hv : verify recover svc.verifyPolicy srSet f.decoded.header with
    | proceed =>
      rw [hv] at h
      exact congrArg Except.ok (Option.some.inj h)
    | skip =>
      rw [hv] at h
      cases h
    | reject e =>
      rw [hv] at h
      cases h

/-- **The second half of a tick calls `accept` with the block that passed, or not at all**,
so nothing else of the reply reaches the engine. -/
theorem observeHead_passed {srSet : Option SrSet} {head : Except String FetchedBlock}
    {r : RelayerService × List Output × Except ServiceError Unit}
    (h : svc.observeHead recover srSet head = some r) :
    r.1.verifyPolicy = svc.verifyPolicy ∧
      ((svc.passed recover srSet head = none ∧ r.1.engine = svc.engine ∧ r.2.1 = []) ∨
        ∃ fetched out, svc.passed recover srSet head = some fetched ∧
          svc.engine.call (.accept fetched.decoded fetched.txInfos) = some (r.1.engine, out) ∧
          r.2.1 <+: out) := by
  unfold observeHead at h
  cases head with
  | error e =>
    obtain rfl := Option.some.inj h
    exact ⟨rfl, Or.inl ⟨rfl, rfl, rfl⟩⟩
  | ok fetched =>
    unfold passed
    simp only at h ⊢
    split_ifs at h ⊢ with htip
    · obtain rfl := Option.some.inj h
      exact ⟨rfl, Or.inl ⟨rfl, rfl, rfl⟩⟩
    · unfold processOne at h
      cases hv : verify recover svc.verifyPolicy srSet fetched.decoded.header with
      | reject e =>
        rw [hv] at h
        obtain rfl := Option.some.inj h
        exact ⟨rfl, Or.inl ⟨rfl, rfl, rfl⟩⟩
      | skip =>
        rw [hv] at h
        obtain rfl := Option.some.inj h
        exact ⟨rfl, Or.inl ⟨rfl, rfl, rfl⟩⟩
      | proceed =>
        rw [hv] at h
        simp only at h ⊢
        split at h
        · cases h
        · rename_i engine outputs hacc
          obtain rfl := Option.some.inj h
          refine ⟨forward_verifyPolicy _ _, Or.inr ⟨fetched, outputs, rfl, ?_, forward_isPrefix _ _⟩⟩
          rw [forward_engine]
          simp [ReorgEngine.call, hacc, emitted]
        · rename_i engine error hacc
          obtain rfl := Option.some.inj h
          refine ⟨rfl, Or.inr ⟨fetched, [], rfl, ?_, List.prefix_rfl⟩⟩
          simp [ReorgEngine.call, hacc, emitted]

/-- **The second half of a tick is at most one call of `accept`**, and what it sends is a
prefix of what that call emits. -/
theorem observeHead_cases {srSet : Option SrSet} {head : Except String FetchedBlock}
    {r : RelayerService × List Output × Except ServiceError Unit}
    (h : svc.observeHead recover srSet head = some r) :
    (r.1.engine = svc.engine ∧ r.2.1 = []) ∨
      ∃ fetched out, head = .ok fetched ∧
        svc.engine.call (.accept fetched.decoded fetched.txInfos) = some (r.1.engine, out) ∧
        r.2.1 <+: out := by
  obtain ⟨-, ⟨-, heng, hout⟩ | ⟨fetched, out, hp, hcall, hpre⟩⟩ := observeHead_passed h
  · exact Or.inl ⟨heng, hout⟩
  · exact Or.inr ⟨fetched, out, head_of_passed hp, hcall, hpre⟩

/-- **A round of the loop is a run of the engine** of two calls at most, on the head and the
block that were read. -/
theorem round_calls (h : svc.round recover t = some (svc', sent)) :
    ∃ calls outs, Run.run ReorgEngine.call svc.engine calls = some (svc'.engine, outs) := by
  unfold round at h
  split_ifs at h with h₁ h₂
  · obtain ⟨rfl, -⟩ := Prod.mk.inj (Option.some.inj h)
    exact ⟨[], [], rfl⟩
  · obtain ⟨rfl, -⟩ := Prod.mk.inj (Option.some.inj h)
    exact ⟨[], [], rfl⟩
  · obtain ⟨r, hr, hres⟩ := Option.map_eq_some_iff.1 h
    have heng : svc'.engine = r.1.engine := by
      split at hres
      · obtain ⟨rfl, -⟩ := Prod.mk.inj hres
        rfl
      · obtain ⟨rfl, -⟩ := Prod.mk.inj hres
        rfl
    rw [heng]
    obtain ⟨outs, hsolid, -⟩ := svc.observeSolidified_calls t.solid
    unfold tickOnce at hr
    simp only at hr
    split at hr
    · obtain rfl := Option.some.inj hr
      exact ⟨_, _, hsolid⟩
    · obtain ⟨r', hr', rfl⟩ := Option.map_eq_some_iff.1 hr
      rcases observeHead_cases hr' with ⟨heng, -⟩ | ⟨fetched, out, -, hcall, -⟩
      · rw [heng]
        exact ⟨_, _, hsolid⟩
      · have hhead := Run.run_cons_eq_some.2 ⟨_, _, _, hcall, Run.run_nil _, rfl⟩
        exact ⟨_, _, Run.run_append_eq_some.2 ⟨_, _, _, hsolid, hhead, rfl⟩⟩

/-- A turn of the loop keeps the engine well formed. -/
theorem wf_of_round (hw : svc.engine.Wf) (h : svc.round recover t = some (svc', sent)) :
    svc'.engine.Wf := by
  obtain ⟨calls, outs, hrun⟩ := round_calls h
  exact ReorgEngine.wf_of_run hw hrun

/-- **Every state of the service holds an engine that its engine's calls reach**, which is
how facts about runs of the engine become facts about the relayer. -/
theorem reached_of_rounds {config : ReorgConfig} {engine : ReorgEngine} {policy : VerifyPolicy}
    {cache : Option (BlockCache BufferedBlock)} {headTx : Option (Option ℕ)} {tx : Option ℕ}
    {ticks : List Tick} (hnew : ReorgEngine.new config = some engine)
    (h : Run.run (round recover) (new engine policy cache headTx tx) ticks = some (svc, sent)) :
    ∃ hist, svc.engine.Reached hist := by
  have hstep : ∀ (s : RelayerService) (t : Tick) (s' : RelayerService) (out : List Output),
      (∃ hist, s.engine.Reached hist) → round recover s t = some (s', out) →
      ∃ hist, s'.engine.Reached hist := by
    rintro s t s' _ ⟨hist, hreached⟩ hs
    obtain ⟨calls, outs, hrun⟩ := round_calls hs
    exact ⟨_, ReorgEngine.reached_run hreached hrun⟩
  have hinit : ∃ hist, (new engine policy cache headTx tx).engine.Reached hist :=
    ⟨[], ReorgEngine.reached_new hnew⟩
  exact Run.run_preserves hstep hinit h

end RelayerService

end Relayer
end Lightcycle
