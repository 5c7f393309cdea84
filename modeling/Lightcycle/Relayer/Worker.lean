/-
# The relay between two awaits

`Lightcycle.Relayer.Relay` takes a tick as one step.  `tick_once` gives way at every await:
for each RPC, at the lock of the cache and at the channel, and there other tasks see the
cache, the watch and the channel as they are.  `Worker` is the relay with these points: one
step of it is the code from one await to the next.

A tick that nothing interrupts is the one step of the relay (`relay_runs_as_worker`), so a run
of the relay is a run of the worker.  The receiver of the channel may go away at any time here
(`close`).
-/

import Lightcycle.Relayer.Relay

namespace Lightcycle
namespace Relayer

open Store

/-- The relay and what its service has in hand at an await. -/
structure Worker where
  relay : Relay
  /-- The tick has read the solidified head and not the head block. -/
  midTick : Bool
  /-- Outputs of the last call that are still to be written to the cache. -/
  toFeed : List Output
  /-- The output written to the cache and not sent yet. -/
  inHand : Option Output

/-- A step of the worker, with the replies it waited for. -/
inductive WorkerAction where
  | refresh (witnesses : Reply)
  | solidity (r : Replies)
  | head (r : Replies)
  | feed
  | send
  | close

namespace RelayerService

/-- The first half of `tick_once` up to the loop over the outputs. -/
def readSolidified (svc : RelayerService) (solid : Except String (Option ℕ)) :
    RelayerService × List Output :=
  match solid with
  | .ok (some h) =>
    let r := svc.engine.setSolidifiedHead h
    ({ svc with engine := r.1, solidifiedHeadTx := svc.solidifiedHeadTx.map fun _ => some h }, r.2)
  | .ok none => (svc, [])
  | .error _ => (svc, [])

/-- The second half up to the loop: nothing is emitted for an error, the tip, a block that
does not pass, and one the engine refuses. -/
def readHead (recover : List.Vector UInt8 32 → List UInt8 → UInt8 → Option Address)
    (svc : RelayerService) (srSet : Option SrSet) (head : Except String FetchedBlock) :
    Option (RelayerService × List Output) :=
  match head with
  | .error _ => some (svc, [])
  | .ok fetched =>
    if svc.engine.tip.any fun t => decide (t.blockId = fetched.decoded.header.blockId) then
      some (svc, [])
    else
      match verify recover svc.verifyPolicy srSet fetched.decoded.header with
      | .reject _ => some (svc, [])
      | .skip => some (svc, [])
      | .proceed =>
        (svc.engine.accept fetched.decoded fetched.txInfos).map fun r =>
          ({ svc with engine := r.1 }, emitted r.2)

end RelayerService

namespace Worker

/-- A worker whose service waits for a tick, or for the head block. -/
def ofRelay (w : Relay) : Worker := ⟨w, false, [], none⟩

/-- The service runs and has nothing in hand. -/
def Idle (w : Worker) : Prop :=
  w.relay.service.exited = false ∧ w.toFeed = [] ∧ w.inHand = none

instance (w : Worker) : Decidable w.Idle := inferInstanceAs (Decidable (_ ∧ _ ∧ _))

/-- The same with another service. -/
def withService (w : Worker) (service : RelayerService) : Worker :=
  { w with relay := { w.relay with service } }

/-- One step and what it sends; `none` when the service does not wait for it, or panics.  A
service that has returned keeps what it had in hand, and does nothing with it. -/
def step (p : Protocol.PayloadDecoders) (sha256 : List UInt8 → List.Vector UInt8 32)
    (recover : List.Vector UInt8 32 → List UInt8 → UInt8 → Option Address) (w : Worker) :
    WorkerAction → Option (Worker × List Output)
  | .refresh witnesses => (w.relay.refresh witnesses).map fun relay => ({ w with relay }, [])
  | .solidity r =>
    if w.Idle ∧ w.midTick = false then
      if w.relay.service.outputTx = some 0 then
        some (w.withService { w.relay.service with exited := true }, [])
      else
        let x := w.relay.service.readSolidified (GrpcSource.fetchSolidifiedHead r.solidity)
        some ({ w.withService x.1 with midTick := true, toFeed := x.2 }, [])
    else none
  | .head r =>
    if w.Idle ∧ w.midTick = true then
      (w.relay.service.readHead recover w.relay.srSet
        (GrpcBlockFetcher.fetchNowBlock p sha256 w.relay.fetchTxInfo r)).map fun x =>
          ({ w.withService x.1 with midTick := false, toFeed := x.2 }, [])
    else none
  | .feed =>
    if w.relay.service.exited = false ∧ w.inHand = none then
      w.toFeed.head?.map fun o =>
        ({ w.withService { w.relay.service with
             blockCache := w.relay.service.blockCache.map fun c => feedCache c o } with
           toFeed := w.toFeed.tail, inHand := some o }, [])
    else none
  | .send =>
    if w.relay.service.exited = false then
      w.inHand.map fun o =>
        match w.relay.service.outputTx with
        | some 0 => (w.withService { w.relay.service with exited := true }, [])
        | some (n + 1) =>
          ({ w.withService { w.relay.service with outputTx := some n } with inHand := none }, [o])
        | none => ({ w with inHand := none }, [o])
    else none
  | .close => some (w.withService { w.relay.service with outputTx := some 0 }, [])

variable {p : Protocol.PayloadDecoders} {sha256 : List UInt8 → List.Vector UInt8 32}
  {recover : List.Vector UInt8 32 → List UInt8 → UInt8 → Option Address}

/-- The worker with what the loop over `os` leaves: nothing in hand, or a service that has
returned. -/
structure Drained (w : Worker) (os : List Output) (w' : Worker) : Prop where
  ok : (w.relay.service.forward os).2.2 = .ok () →
    w' = { w.withService (w.relay.service.forward os).1 with toFeed := [], inHand := none }
  error : ∀ e, (w.relay.service.forward os).2.2 = .error e →
    w'.relay = { w.relay with service := { (w.relay.service.forward os).1 with exited := true } }

variable (p sha256 recover) in
/-- **The loop over the outputs**, one write and one send at a time. -/
theorem exists_drain (os : List Output) : ∀ w : Worker, w.relay.service.exited = false →
    w.inHand = none → w.toFeed = os →
    ∃ acts w', Run.run (step p sha256 recover) w acts =
      some (w', (w.relay.service.forward os).2.1) ∧ w.Drained os w' := by
  induction os with
  | nil =>
    intro w hexited hhand hfeed
    refine ⟨[], w, rfl, fun _ => ?_, fun e h => by cases h⟩
    obtain ⟨relay, mid, toFeed, inHand⟩ := w
    obtain rfl : inHand = none := hhand
    obtain rfl : toFeed = [] := hfeed
    rfl
  | cons o os ih =>
    rintro ⟨⟨⟨engine, policy, cache, headTx, tx, exited⟩, fetchTxInfo, srSet, refreshing⟩, mid, toFeed,
      inHand⟩ hexited hhand hfeed
    obtain rfl : inHand = none := hhand
    obtain rfl : toFeed = o :: os := hfeed
    obtain rfl : exited = false := hexited
    let fed := cache.map fun c => feedCache c o
    cases tx with
    | none =>
      obtain ⟨acts, w', hrun, hdrained⟩ := ih
        ⟨⟨⟨engine, policy, fed, headTx, none, false⟩, fetchTxInfo, srSet, refreshing⟩, mid, os, none⟩
        rfl rfl rfl
      refine ⟨.feed :: .send :: acts, w', ?_, hdrained.ok, hdrained.error⟩
      exact Run.run_cons_eq_some.2 ⟨_, [], _, rfl, Run.run_cons_eq_some.2 ⟨_, [o], _, rfl, hrun, rfl⟩,
        rfl⟩
    | some n =>
      cases n with
      | zero =>
        -- the failed send ends the loop and the service
        refine ⟨[.feed, .send], _, rfl, ⟨?_, fun _ _ => rfl⟩⟩
        intro h
        cases h
      | succ n =>
        obtain ⟨acts, w', hrun, hdrained⟩ := ih
          ⟨⟨⟨engine, policy, fed, headTx, some n, false⟩, fetchTxInfo, srSet, refreshing⟩, mid, os,
            none⟩ rfl rfl rfl
        refine ⟨.feed :: .send :: acts, w', ?_, hdrained.ok, hdrained.error⟩
        exact Run.run_cons_eq_some.2 ⟨_, [], _, rfl, Run.run_cons_eq_some.2 ⟨_, [o], _, rfl, hrun, rfl⟩,
          rfl⟩

/-- The worker at the end of a tick: its relay is `w`, and while the service runs nothing else
is under way. -/
structure Between (w : Relay) (worker : Worker) : Prop where
  relay : worker.relay = w
  idle : w.service.exited = false → worker = ofRelay w

/-- A worker starts between two ticks. -/
theorem between_ofRelay (w : Relay) : Between w (ofRelay w) := ⟨rfl, fun _ => rfl⟩

end Worker

namespace RelayerService

variable {recover : List.Vector UInt8 32 → List UInt8 → UInt8 → Option Address}

/-- The first half of a tick reads the head and then forwards what the engine emitted. -/
theorem observeSolidified_eq (svc : RelayerService) (solid : Except String (Option ℕ)) :
    svc.observeSolidified solid =
      (svc.readSolidified solid).1.forward (svc.readSolidified solid).2 := by
  rcases solid with e | _ | h
  · rfl
  · rfl
  · rfl

/-- The service that stops after a failed send. -/
def afterSend (r : RelayerService × List Output × Except ServiceError Unit) :
    RelayerService × List Output :=
  match r.2.2 with
  | .error .outputChannelClosed => ({ r.1 with exited := true }, r.2.1)
  | _ => (r.1, r.2.1)

/-- A failed send does not change what was sent. -/
theorem afterSend_snd (r : RelayerService × List Output × Except ServiceError Unit) :
    (afterSend r).2 = r.2.1 := by
  unfold afterSend
  split <;> rfl

/-- What was sent before plays no part. -/
theorem afterSend_append (r : RelayerService × List Output × Except ServiceError Unit)
    (sent : List Output) :
    afterSend (r.1, sent ++ r.2.1, r.2.2) = ((afterSend r).1, sent ++ (afterSend r).2) := by
  obtain ⟨svc, outs, result⟩ := r
  cases result with
  | ok u => rfl
  | error e => cases e <;> rfl

/-- Only a failed send stops the service, and it is the only error of the loop. -/
theorem forward_cases (svc : RelayerService) (os : List Output) :
    (svc.forward os).2.2 = .ok () ∨ (svc.forward os).2.2 = .error .outputChannelClosed := by
  induction os generalizing svc with
  | nil => exact Or.inl rfl
  | cons o os ih =>
    unfold forward
    rcases h : svc.outputTx with _ | _ | n
    · exact ih _
    · exact Or.inr rfl
    · exact ih _

/-- So does the second half, with the block. -/
theorem observeHead_eq (svc : RelayerService) (srSet : Option SrSet)
    (head : Except String FetchedBlock) :
    (svc.observeHead recover srSet head).map afterSend =
      (svc.readHead recover srSet head).map fun x => afterSend (x.1.forward x.2) := by
  cases head with
  | error e => rfl
  | ok fetched =>
    unfold observeHead readHead
    simp only
    split_ifs with htip
    · rfl
    · unfold processOne
      cases verify recover svc.verifyPolicy srSet fetched.decoded.header with
      | reject e => rfl
      | skip => rfl
      | proceed =>
        cases svc.engine.accept fetched.decoded fetched.txInfos with
        | none => rfl
        | some r =>
          obtain ⟨engine, result⟩ := r
          cases result with
          | ok outputs => rfl
          | error e => rfl

/-- Reading the solidified head does not end the service. -/
theorem exited_readSolidified (svc : RelayerService) (solid : Except String (Option ℕ)) :
    (svc.readSolidified solid).1.exited = svc.exited := by
  rcases solid with e | _ | h
  · rfl
  · rfl
  · rfl

/-- Nor does forwarding, until the loop sees the error. -/
theorem exited_forward (svc : RelayerService) (os : List Output) :
    (svc.forward os).1.exited = svc.exited := by
  obtain ⟨_, _, h⟩ := svc.forward_frame os
  rw [h]

/-- **The second half calls `accept` with the block that passed, or not at all**, and what
it has to send is what that call emits. -/
theorem readHead_cases {svc : RelayerService} {srSet : Option SrSet}
    {head : Except String FetchedBlock} {y : RelayerService × List Output}
    (h : svc.readHead recover srSet head = some y) :
    y = (svc, []) ∨ ∃ fetched e' out, svc.passed recover srSet head = some fetched ∧
      svc.engine.call (.accept fetched.decoded fetched.txInfos) = some (e', out) ∧
      y = ({ svc with engine := e' }, out) := by
  cases head with
  | error e => exact Or.inl (Option.some.inj h).symm
  | ok fetched =>
    unfold readHead at h
    unfold passed
    simp only at h ⊢
    split_ifs at h ⊢
    · exact Or.inl (Option.some.inj h).symm
    · cases hv : verify recover svc.verifyPolicy srSet fetched.decoded.header with
      | reject e =>
        rw [hv] at h
        exact Or.inl (Option.some.inj h).symm
      | skip =>
        rw [hv] at h
        exact Or.inl (Option.some.inj h).symm
      | proceed =>
        rw [hv] at h
        obtain ⟨r, hr, rfl⟩ := Option.map_eq_some_iff.1 h
        refine Or.inr ⟨fetched, r.1, emitted r.2, rfl, ?_, rfl⟩
        rw [ReorgEngine.call, hr, Option.map_some]

/-- Nor does reading the head block. -/
theorem exited_readHead {svc : RelayerService} {srSet : Option SrSet}
    {head : Except String FetchedBlock} {y : RelayerService × List Output}
    (h : svc.readHead recover srSet head = some y) : y.1.exited = svc.exited := by
  rcases readHead_cases h with rfl | ⟨fetched, e', out, -, -, rfl⟩
  · rfl
  · rfl

/-- A round of a service that runs, up to the loop over the outputs of each half. -/
theorem round_cases {svc svc' : RelayerService} {t : Tick} {sent : List Output}
    (hexited : svc.exited = false) (htx : svc.outputTx ≠ some 0)
    (h : svc.round recover t = some (svc', sent)) :
    ∃ x f, svc.readSolidified t.solid = x ∧ x.1.forward x.2 = f ∧
      ((f.2.2 = .error .outputChannelClosed ∧ svc' = { f.1 with exited := true } ∧ sent = f.2.1) ∨
        ∃ y, f.2.2 = .ok () ∧ f.1.readHead recover t.srSet t.head = some y ∧
          svc' = (afterSend (y.1.forward y.2)).1 ∧ sent = f.2.1 ++ (y.1.forward y.2).2.1) := by
  refine ⟨_, _, rfl, rfl, ?_⟩
  rw [round, if_neg (by rw [hexited]; decide), if_neg htx] at h
  obtain ⟨r, htick, hr⟩ := Option.map_eq_some_iff.1 h
  replace hr : afterSend r = (svc', sent) := hr
  unfold tickOnce at htick
  rw [observeSolidified_eq] at htick
  simp only at htick
  rcases forward_cases (svc.readSolidified t.solid).1 (svc.readSolidified t.solid).2 with hok | herr
  · rw [hok] at htick
    obtain ⟨r', hhead, rfl⟩ := Option.map_eq_some_iff.1 htick
    have hmap := congrArg (Option.map afterSend) hhead
    rw [observeHead_eq, Option.map_some] at hmap
    obtain ⟨y, hy, hafter⟩ := Option.map_eq_some_iff.1 hmap
    refine Or.inr ⟨y, hok, hy, ?_⟩
    rw [afterSend_append, ← hafter, afterSend_snd] at hr
    obtain ⟨rfl, rfl⟩ := Prod.mk.inj hr
    exact ⟨rfl, rfl⟩
  · rw [herr] at htick
    obtain rfl := Option.some.inj htick
    obtain ⟨rfl, rfl⟩ := Prod.mk.inj hr
    exact Or.inl ⟨herr, rfl, rfl⟩

end RelayerService

/-- A refresh of the SR set leaves the service alone. -/
theorem Relay.service_of_refresh {w w' : Relay} {witnesses : Reply}
    (h : w.refresh witnesses = some w') : w'.service = w.service := by
  rw [Relay.refresh, Option.ite_none_left_eq_some] at h
  obtain rfl := Option.some.inj h.2
  cases (GrpcSource.fetchActiveSrSet witnesses).toOption with
  | none => rfl
  | some set =>
    rw [Option.elim_some]
    split_ifs <;> rfl

namespace Worker

variable {p : Protocol.PayloadDecoders} {sha256 : List UInt8 → List.Vector UInt8 32}
  {recover : List.Vector UInt8 32 → List UInt8 → UInt8 → Option Address}

/-- The worker after the loop that ends a tick. -/
theorem Drained.between {w : Relay} {service : RelayerService} {os : List Output} {worker : Worker}
    (h : Drained ⟨{ w with service }, false, os, none⟩ os worker) :
    Between { w with service := (RelayerService.afterSend (service.forward os)).1 } worker := by
  rcases service.forward_cases os with hok | herr
  · obtain rfl := h.ok hok
    have hafter : (RelayerService.afterSend (service.forward os)).1 = (service.forward os).1 := by
      rw [RelayerService.afterSend, hok]
    rw [hafter]
    exact ⟨rfl, fun _ => rfl⟩
  · have hafter : (RelayerService.afterSend (service.forward os)).1 =
        { (service.forward os).1 with exited := true } := by
      rw [RelayerService.afterSend, herr]
    rw [hafter]
    exact ⟨h.error _ herr, fun hrun => by cases hrun⟩

/-- **One step of the relay, taken by the worker**: a tick cut at its awaits, with nothing
in between, ends where the tick does and has sent the same. -/
theorem exists_run {w w' : Relay} {a : RelayAction} {out : List Output} {worker : Worker}
    (hb : Between w worker) (hs : w.step p sha256 recover a = some (w', out)) :
    ∃ acts worker', Run.run (step p sha256 recover) worker acts = some (worker', out) ∧
      Between w' worker' := by
  cases a with
  | refresh witnesses =>
    obtain ⟨w₁, hrefresh, hmk⟩ := Option.map_eq_some_iff.1 hs
    obtain ⟨rfl, rfl⟩ := Prod.mk.inj hmk
    refine ⟨[.refresh witnesses], { worker with relay := w₁ }, ?_, rfl, fun hrun => ?_⟩
    · refine Run.run_cons_eq_some.2 ⟨_, [], [], ?_, Run.run_nil _, rfl⟩
      simp only [step, hb.relay, hrefresh, Option.map_some]
    · rw [Relay.service_of_refresh hrefresh] at hrun
      rw [hb.idle hrun]
      rfl
  | tick r =>
    obtain ⟨⟨svc, sent⟩, hround, hmk⟩ := Option.map_eq_some_iff.1 hs
    obtain ⟨rfl, rfl⟩ := Prod.mk.inj hmk
    by_cases hexited : w.service.exited = true
    · rw [RelayerService.round_of_exited hexited] at hround
      obtain ⟨rfl, rfl⟩ := Prod.mk.inj (Option.some.inj hround)
      exact ⟨[], worker, rfl, hb.relay, hb.idle⟩
    rw [Bool.not_eq_true] at hexited
    obtain rfl := hb.idle hexited
    have hidle : (ofRelay w).Idle ∧ (ofRelay w).midTick = false := ⟨⟨hexited, rfl, rfl⟩, rfl⟩
    by_cases htx : w.service.outputTx = some 0
    · rw [RelayerService.round, if_neg (by rw [hexited]; decide), if_pos htx] at hround
      obtain ⟨rfl, rfl⟩ := Prod.mk.inj (Option.some.inj hround)
      refine ⟨[.solidity r], (ofRelay w).withService { w.service with exited := true }, ?_, rfl,
        fun hrun => by cases hrun⟩
      refine Run.run_cons_eq_some.2 ⟨_, [], [], ?_, Run.run_nil _, rfl⟩
      rw [step, if_pos hidle]
      exact if_pos htx
    · obtain ⟨x, f, hx, rfl, hcases⟩ := RelayerService.round_cases hexited htx hround
      have hx' : x.1.exited = false := by
        rw [← hx]
        exact (RelayerService.exited_readSolidified _ _).trans hexited
      have hsolid : step p sha256 recover (ofRelay w) (.solidity r) =
          some (⟨{ w with service := x.1 }, true, x.2, none⟩, []) := by
        rw [step, if_pos hidle, if_neg (show (ofRelay w).relay.service.outputTx ≠ some 0 from htx),
          ← hx]
        rfl
      obtain ⟨acts, w₁, hrun, hdrained⟩ := exists_drain p sha256 recover x.2
        ⟨{ w with service := x.1 }, true, x.2, none⟩ hx' rfl rfl
      rcases hcases with ⟨herr, rfl, rfl⟩ | ⟨y, hok, hhead, rfl, rfl⟩
      · exact ⟨.solidity r :: acts, w₁, Run.run_cons_eq_some.2 ⟨_, [], _, hsolid, hrun, rfl⟩,
          hdrained.error _ herr, fun hrun => by cases hrun⟩
      · obtain rfl := hdrained.ok hok
        have hf : (x.1.forward x.2).1.exited = false :=
          (RelayerService.exited_forward _ _).trans hx'
        have hhead' : step p sha256 recover
            ⟨{ w with service := (x.1.forward x.2).1 }, true, [], none⟩ (.head r) =
              some (⟨{ w with service := y.1 }, false, y.2, none⟩, []) := by
          rw [step, if_pos ⟨⟨hf, rfl, rfl⟩, rfl⟩]
          exact congrArg (Option.map _) hhead
        obtain ⟨acts', w₂, hrun', hdrained'⟩ := exists_drain p sha256 recover y.2
          ⟨{ w with service := y.1 }, false, y.2, none⟩
          ((RelayerService.exited_readHead hhead).trans hf) rfl rfl
        have htail := Run.run_cons_eq_some.2 ⟨_, [], _, hhead', hrun', rfl⟩
        exact ⟨.solidity r :: (acts ++ .head r :: acts'), w₂,
          Run.run_cons_eq_some.2 ⟨_, [], _, hsolid,
            Run.run_append_eq_some.2 ⟨_, _, _, hrun, htail, rfl⟩, rfl⟩, hdrained'.between⟩

end Worker

/-- **A run of the relay is one of the worker**, in which nothing interrupts a tick: it sends the
same outputs and ends in the same state. -/
theorem relay_runs_as_worker {p : Protocol.PayloadDecoders}
    {sha256 : List UInt8 → List.Vector UInt8 32}
    {recover : List.Vector UInt8 32 → List UInt8 → UInt8 → Option Address} {w w' : Relay}
    {acts : List RelayAction} {sent : List Output}
    (h : Run.run (Relay.step p sha256 recover) w acts = some (w', sent)) :
    ∃ wacts worker, Run.run (Worker.step p sha256 recover) (Worker.ofRelay w) wacts =
      some (worker, sent) ∧ Worker.Between w' worker :=
  Run.run_simulates (fun _ _ _ _ _ hb hs => Worker.exists_run hb hs) (Worker.between_ofRelay w) h

end Relayer
end Lightcycle
