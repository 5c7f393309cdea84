/-
# Ticks are atomic

`tick_once` gives way at every await, and then the SR set may be replaced and the receiver of
the outputs may go away.  Nobody outside the tick can tell: every run of the worker sends what
a run of the relay sends, in which each tick is one step, taken when the worker has read the
head block.  The other half, that the worker can do what the relay does, is
`relay_runs_as_worker`.

The worker is behind the relay by the outputs it has not written or sent yet; written and sent,
they make the two equal (`Worker.settled`, `Worker.ahead`).  In the middle of a tick it is ahead
of the relay by the first half of the tick.
-/

import Lightcycle.Relayer.Worker

namespace Lightcycle
namespace Relayer

open Store

namespace RelayerService

variable {recover : List.Vector UInt8 32 → List UInt8 → UInt8 → Option Address}
  {svc : RelayerService}

/-- The service with the outputs written to its cache. -/
def fed (svc : RelayerService) (os : List Output) : RelayerService :=
  { svc with blockCache := svc.blockCache.map fun c => os.foldl feedCache c }

/-- Feeding nothing leaves the service alone. -/
@[simp] theorem fed_nil (svc : RelayerService) : svc.fed [] = svc := by
  rw [fed, show (fun c : BlockCache BufferedBlock => [].foldl feedCache c) = id from rfl,
    Option.map_id_fun, id]

/-- Outputs are fed to the cache one by one. -/
theorem fed_cons (svc : RelayerService) (o : Output) (os : List Output) :
    svc.fed (o :: os) =
      { svc with blockCache := svc.blockCache.map fun c => feedCache c o }.fed os := by
  rw [fed, fed, Option.map_map]
  rfl

/-- With a receiver that stays the loop sends everything. -/
theorem forward_open (h : svc.outputTx = none) (os : List Output) :
    svc.forward os = (svc.fed os, os, .ok ()) := by
  induction os generalizing svc with
  | nil => rw [fed_nil, forward]
  | cons o os ih =>
    unfold forward
    simp only [h]
    rw [ih rfl, fed_cons, h]

/-- Reading the solidified head sends nothing. -/
theorem outputTx_readSolidified (svc : RelayerService) (solid : Except String (Option ℕ)) :
    (svc.readSolidified solid).1.outputTx = svc.outputTx := by
  rcases solid with e | _ | h
  · rfl
  · rfl
  · rfl

/-- Nor does reading the head block. -/
theorem outputTx_readHead {srSet : Option SrSet} {head : Except String FetchedBlock}
    {y : RelayerService × List Output} (h : svc.readHead recover srSet head = some y) :
    y.1.outputTx = svc.outputTx := by
  rcases readHead_cases h with rfl | ⟨fetched, e', out, -, -, rfl⟩
  · rfl
  · rfl

end RelayerService

/-- The first half of a tick of the relay. -/
def Relay.firstHalf (w : Relay) (solidity : Reply) : RelayerService × List Output :=
  let x := w.service.readSolidified (GrpcSource.fetchSolidifiedHead solidity)
  (x.1.fed x.2, x.2)

section tick

variable {p : Protocol.PayloadDecoders} {sha256 : List UInt8 → List.Vector UInt8 32}
  {recover : List.Vector UInt8 32 → List UInt8 → UInt8 → Option Address}

/-- **A tick is its two halves**, while the channel is open: the solidified head is read,
then the head block, and what both halves emit is fed and sent. -/
theorem Relay.step_tick {w : Relay} {r : Replies} {y : RelayerService × List Output}
    (hexited : w.service.exited = false) (htx : w.service.outputTx = none)
    (hy : (w.firstHalf r.solidity).1.readHead recover w.srSet
      (GrpcBlockFetcher.fetchNowBlock p sha256 w.fetchTxInfo r) = some y) :
    w.step p sha256 recover (.tick r) =
      some ({ w with service := y.1.fed y.2 }, (w.firstHalf r.solidity).2 ++ y.2) := by
  have hx := (RelayerService.outputTx_readSolidified w.service
    (GrpcSource.fetchSolidifiedHead r.solidity)).trans htx
  have hx' : y.1.outputTx = none := (RelayerService.outputTx_readHead hy).trans hx
  have hmap := @RelayerService.observeHead_eq recover (w.firstHalf r.solidity).1 w.srSet
    (GrpcBlockFetcher.fetchNowBlock p sha256 w.fetchTxInfo r)
  rw [hy, Option.map_some, RelayerService.forward_open hx'] at hmap
  obtain ⟨r', hr', hafter⟩ := Option.map_eq_some_iff.1 hmap
  have hround : w.service.round recover (w.reads p sha256 r) =
      some (y.1.fed y.2, (w.firstHalf r.solidity).2 ++ y.2) := by
    rw [RelayerService.round, if_neg (by rw [hexited]; decide),
      if_neg (by rw [htx]; exact fun h => by cases h)]
    refine Option.map_eq_some_iff.2 ⟨(r'.1, (w.firstHalf r.solidity).2 ++ r'.2.1, r'.2.2), ?_, ?_⟩
    · rw [RelayerService.tickOnce, RelayerService.observeSolidified_eq]
      simp only [reads]
      rw [RelayerService.forward_open hx]
      exact Option.map_eq_some_iff.2 ⟨r', hr', rfl⟩
    · show RelayerService.afterSend _ = _
      rw [RelayerService.afterSend_append, hafter]
      rfl
  rw [Relay.step, hround]
  rfl

end tick

namespace Worker

/-- The relay, once everything under way is written. -/
def settled (w : Worker) : Relay := { w.relay with service := w.relay.service.fed w.toFeed }

/-- What is under way. -/
def ahead (w : Worker) : List Output := w.inHand.toList ++ w.toFeed

/-- The replies of the refreshes, in order. -/
def refreshes (acts : List WorkerAction) : List Reply :=
  acts.filterMap fun
    | .refresh witnesses => some witnesses
    | _ => none

/-- The replies of a tick are those of a first half and of a second one, or without a head
block. -/
def TickOf (acts : List WorkerAction) (r : Replies) : Prop :=
  (∃ r₁, .solidity r₁ ∈ acts ∧ r.solidity = r₁.solidity) ∧
    (r.nowBlock = none ∨
      ∃ r₂, .head r₂ ∈ acts ∧ r.nowBlock = r₂.nowBlock ∧ r.transactionInfo = r₂.transactionInfo)

/-- The worker runs and has a receiver, and the relay beside it has sent `outs`: between two
ticks, or with the first half of one to take. -/
inductive Beside (acts : List WorkerAction) (w : Worker) (sent : List Output) (R : Relay)
    (outs : List Output) : Prop
  | between (hexited : w.relay.service.exited = false) (htx : w.relay.service.outputTx = none)
    (hmid : w.midTick = false) (hrelay : w.settled = R) (hsent : sent ++ w.ahead = outs) :
    Beside acts w sent R outs
  | mid (hexited : w.relay.service.exited = false) (htx : w.relay.service.outputTx = none)
    {r : Replies} (hmid : w.midTick = true) (hr : .solidity r ∈ acts)
    (hruns : R.service.exited = false) (hopen : R.service.outputTx = none)
    (hrelay : w.settled = { R with service := (R.firstHalf r.solidity).1 })
    (hsent : sent ++ w.ahead = outs ++ (R.firstHalf r.solidity).2) : Beside acts w sent R outs

variable {p : Protocol.PayloadDecoders} {sha256 : List UInt8 → List.Vector UInt8 32}
  {recover : List.Vector UInt8 32 → List UInt8 → UInt8 → Option Address}
  {relay : Relay} {acts : List WorkerAction} {w w' : Worker} {sent out : List Output}
  {a : WorkerAction}

variable (p sha256 recover relay acts sent) in
/-- **What the relay does beside a run of the worker** that has sent `sent`: while there is a
receiver it is beside the worker, and then it has sent at least as much. -/
inductive Follows (w : Worker) : Prop
  | live {racts : List RelayAction} {R : Relay} {outs : List Output}
    (hrun : Run.run (Relay.step p sha256 recover) relay racts = some (R, outs))
    (hticks : ∀ r, .tick r ∈ racts → TickOf acts r)
    (hrefreshes : Relayer.refreshes racts = refreshes acts) (hbeside : w.Beside acts sent R outs) :
    Follows w
  | closed (htx : w.relay.service.outputTx = some 0) {racts : List RelayAction} {R : Relay}
    {outs : List Output} (hrun : Run.run (Relay.step p sha256 recover) relay racts = some (R, outs))
    (hticks : ∀ r, .tick r ∈ racts → TickOf acts r)
    (hrefreshes : Relayer.refreshes racts <+: refreshes acts) (hsent : sent <+: outs) : Follows w

/-- The replies of a tick are those of a longer run too. -/
theorem TickOf.mono {acts' : List WorkerAction} {r : Replies} (h : TickOf acts r)
    (hsub : acts ⊆ acts') : TickOf acts' r := by
  obtain ⟨⟨r₁, hr₁, hsolid⟩, hhead⟩ := h
  exact ⟨⟨r₁, hsub hr₁, hsolid⟩, hhead.imp_right fun ⟨r₂, hr₂, h⟩ => ⟨r₂, hsub hr₂, h⟩⟩

/-- The refreshes are those of either part. -/
theorem refreshes_append (acts acts' : List WorkerAction) :
    refreshes (acts ++ acts') = refreshes acts ++ refreshes acts' := List.filterMap_append ..

/-- Without a receiver nothing is sent. -/
theorem step_closed (htx : w.relay.service.outputTx = some 0)
    (hs : w.step p sha256 recover a = some (w', out)) :
    w'.relay.service.outputTx = some 0 ∧ out = [] := by
  cases a with
  | refresh witnesses =>
    obtain ⟨R, hrefresh, hmk⟩ := Option.map_eq_some_iff.1 hs
    obtain ⟨rfl, rfl⟩ := Prod.mk.inj hmk
    exact ⟨(congrArg RelayerService.outputTx (Relay.service_of_refresh hrefresh)).trans htx, rfl⟩
  | solidity r =>
    rw [step, Option.ite_none_right_eq_some, if_pos htx] at hs
    obtain ⟨rfl, rfl⟩ := Prod.mk.inj (Option.some.inj hs.2)
    exact ⟨htx, rfl⟩
  | head r =>
    rw [step, Option.ite_none_right_eq_some] at hs
    obtain ⟨y, hy, hmk⟩ := Option.map_eq_some_iff.1 hs.2
    obtain ⟨rfl, rfl⟩ := Prod.mk.inj hmk
    exact ⟨(RelayerService.outputTx_readHead hy).trans htx, rfl⟩
  | feed =>
    rw [step, Option.ite_none_right_eq_some] at hs
    obtain ⟨o, -, hmk⟩ := Option.map_eq_some_iff.1 hs.2
    obtain ⟨rfl, rfl⟩ := Prod.mk.inj hmk
    exact ⟨htx, rfl⟩
  | send =>
    rw [step, Option.ite_none_right_eq_some] at hs
    obtain ⟨o, -, hmk⟩ := Option.map_eq_some_iff.1 hs.2
    rw [htx] at hmk
    obtain ⟨rfl, rfl⟩ := Prod.mk.inj hmk
    exact ⟨htx, rfl⟩
  | close =>
    obtain ⟨rfl, rfl⟩ := Prod.mk.inj (Option.some.inj hs)
    exact ⟨rfl, rfl⟩

/-! ### With a receiver -/

/-- While the service runs, a refresh does not depend on it. -/
theorem refresh_withService {R : Relay} {svc : RelayerService} (hR : R.service.exited = false)
    (hsvc : svc.exited = false) (witnesses : Reply) :
    Relay.refresh { R with service := svc } witnesses =
      (R.refresh witnesses).map fun R' => { R' with service := svc } := by
  obtain ⟨service, fetchTxInfo, srSet, refreshing⟩ := R
  replace hR : service.exited = false := hR
  unfold Relay.refresh
  cases refreshing with
  | false => rfl
  | true =>
    cases (GrpcSource.fetchActiveSrSet witnesses).toOption with
    | none => rfl
    | some set => simp [hR, hsvc]

variable {R : Relay} {outs : List Output}

/-- The relay refreshes with the worker. -/
theorem Beside.refresh {witnesses : Reply} (h : w.Beside acts sent R outs)
    (hs : w.step p sha256 recover (.refresh witnesses) = some (w', out)) :
    out = [] ∧ ∃ R', R.refresh witnesses = some R' ∧
      w'.Beside (acts ++ [.refresh witnesses]) sent R' outs := by
  obtain ⟨w₁, hrefresh, hmk⟩ := Option.map_eq_some_iff.1 hs
  obtain ⟨rfl, rfl⟩ := Prod.mk.inj hmk
  refine ⟨rfl, ?_⟩
  have hservice := Relay.service_of_refresh hrefresh
  have hsettled : ∀ hexited : w.relay.service.exited = false, w.settled.refresh witnesses =
      some (settled { w with relay := w₁ }) := by
    intro hexited
    rw [settled, refresh_withService hexited (show (w.relay.service.fed _).exited = false from hexited),
      hrefresh, settled, hservice]
    rfl
  cases h with
  | between hexited htx hmid hrelay hsent =>
    rw [← hrelay]
    exact ⟨_, hsettled hexited,
      .between (hservice ▸ hexited) (hservice ▸ htx) hmid rfl hsent⟩
  | @mid hexited htx r hmid hr hruns hopen hrelay hsent =>
    have hhalf : (R.firstHalf r.solidity).1.exited = false :=
      (RelayerService.exited_readSolidified _ _).trans hruns
    have heq := hsettled hexited
    rw [hrelay, refresh_withService hruns hhalf] at heq
    obtain ⟨R', hR', hsame⟩ := Option.map_eq_some_iff.1 heq
    have hservice' := Relay.service_of_refresh hR'
    refine ⟨R', hR', .mid (hservice ▸ hexited) (hservice ▸ htx) hmid (List.mem_append_left _ hr)
      (hservice' ▸ hruns) (hservice' ▸ hopen) ?_ ?_⟩
    · rw [← hsame, Relay.firstHalf, Relay.firstHalf, hservice']
    · rw [Relay.firstHalf, hservice']
      exact hsent

/-- The worker takes the first half of a tick. -/
theorem Beside.solidity {r : Replies} (h : w.Beside acts sent R outs)
    (hs : w.step p sha256 recover (.solidity r) = some (w', out)) :
    out = [] ∧ w'.Beside (acts ++ [.solidity r]) sent R outs := by
  rw [step, Option.ite_none_right_eq_some] at hs
  obtain ⟨⟨hidle, hbetween⟩, hs⟩ := hs
  cases h with
  | between hexited htx hmid hrelay hsent =>
    rw [if_neg (by rw [htx]; exact fun h => by cases h)] at hs
    obtain ⟨rfl, rfl⟩ := Prod.mk.inj (Option.some.inj hs)
    obtain rfl : w.relay = R := by rw [← hrelay, settled, hidle.2.1, RelayerService.fed_nil]
    have hahead : w.ahead = [] := by rw [ahead, hidle.2.1, hidle.2.2]; rfl
    rw [hahead, List.append_nil] at hsent
    subst hsent
    refine ⟨rfl, .mid ((RelayerService.exited_readSolidified _ _).trans hexited)
      ((RelayerService.outputTx_readSolidified _ _).trans htx) rfl
      (List.mem_append_right _ (List.mem_singleton_self _)) hexited htx rfl ?_⟩
    show sent ++ (w.inHand.toList ++ _) = _
    rw [hidle.2.2]
    rfl
  | mid _ _ hmid =>
    rw [hmid] at hbetween
    cases hbetween

/-- **The worker takes the second half**, and the relay the tick, on the replies of both
halves. -/
theorem Beside.head {r : Replies} (h : w.Beside acts sent R outs)
    (hs : w.step p sha256 recover (.head r) = some (w', out)) :
    out = [] ∧ ∃ tick R' outs', TickOf (acts ++ [.head r]) tick ∧
      R.step p sha256 recover (.tick tick) = some (R', outs') ∧
      w'.Beside (acts ++ [.head r]) sent R' (outs ++ outs') := by
  rw [step, Option.ite_none_right_eq_some] at hs
  obtain ⟨⟨hidle, hmidTick⟩, hs⟩ := hs
  obtain ⟨y, hy, hmk⟩ := Option.map_eq_some_iff.1 hs
  obtain ⟨rfl, rfl⟩ := Prod.mk.inj hmk
  refine ⟨rfl, ?_⟩
  cases h with
  | between _ _ hmid =>
    rw [hmid] at hmidTick
    cases hmidTick
  | @mid hexited htx r₁ hmid hr hruns hopen hrelay hsent =>
    have hw : w.relay = { R with service := (R.firstHalf r₁.solidity).1 } := by
      rw [← hrelay, settled, hidle.2.1, RelayerService.fed_nil]
    have hahead : w.ahead = [] := by rw [ahead, hidle.2.1, hidle.2.2]; rfl
    rw [hahead, List.append_nil] at hsent
    rw [hw] at hy
    refine ⟨⟨r₁.solidity, r.nowBlock, r.transactionInfo⟩, _, _, ?_, Relay.step_tick hruns hopen hy, ?_⟩
    · exact ⟨⟨r₁, List.mem_append_left _ hr, rfl⟩,
        .inr ⟨r, List.mem_append_right _ (List.mem_singleton_self _), rfl, rfl⟩⟩
    · refine .between ?_ ?_ rfl ?_ ?_
      · exact (RelayerService.exited_readHead hy).trans
          ((RelayerService.exited_readSolidified _ _).trans hruns)
      · exact (RelayerService.outputTx_readHead hy).trans
          ((RelayerService.outputTx_readSolidified _ _).trans hopen)
      · rw [settled]
        simp only [withService, hw]
      · rw [hsent, ahead]
        simp only [hidle.2.2, Option.toList_none, List.nil_append, withService, List.append_assoc]

/-- An output is written to the cache. -/
theorem Beside.feed (h : w.Beside acts sent R outs)
    (hs : w.step p sha256 recover .feed = some (w', out)) :
    out = [] ∧ w'.Beside (acts ++ [.feed]) sent R outs := by
  rw [step, Option.ite_none_right_eq_some] at hs
  obtain ⟨⟨-, hhand⟩, hs⟩ := hs
  obtain ⟨o, ho, hmk⟩ := Option.map_eq_some_iff.1 hs
  obtain ⟨rfl, rfl⟩ := Prod.mk.inj hmk
  obtain ⟨os, hos⟩ := List.head?_eq_some_iff.1 ho
  have hsettled : settled { w.withService { w.relay.service with
      blockCache := w.relay.service.blockCache.map fun c => feedCache c o } with
        toFeed := w.toFeed.tail, inHand := some o } = w.settled := by
    rw [settled, settled, hos, RelayerService.fed_cons]
    rfl
  have hahead : ahead { w.withService { w.relay.service with
      blockCache := w.relay.service.blockCache.map fun c => feedCache c o } with
        toFeed := w.toFeed.tail, inHand := some o } = w.ahead := by
    rw [ahead, ahead, hos, hhand]
    rfl
  refine ⟨rfl, ?_⟩
  cases h with
  | between hexited htx hmid hrelay hsent =>
    exact .between hexited htx hmid (hsettled.trans hrelay) (by rw [hahead, hsent])
  | mid hexited htx hmid hr hruns hopen hrelay hsent =>
    exact .mid hexited htx hmid (List.mem_append_left _ hr) hruns hopen (hsettled.trans hrelay)
      (by rw [hahead, hsent])

/-- An output is sent. -/
theorem Beside.send (h : w.Beside acts sent R outs)
    (hs : w.step p sha256 recover .send = some (w', out)) :
    w'.Beside (acts ++ [.send]) (sent ++ out) R outs := by
  rw [step, Option.ite_none_right_eq_some] at hs
  obtain ⟨-, hs⟩ := hs
  obtain ⟨o, ho, hmk⟩ := Option.map_eq_some_iff.1 hs
  have hahead : w.ahead = o :: w.toFeed := by rw [ahead, ho]; rfl
  cases h with
  | between hexited htx hmid hrelay hsent =>
    rw [htx] at hmk
    obtain ⟨rfl, rfl⟩ := Prod.mk.inj hmk
    rw [hahead] at hsent
    exact .between hexited htx hmid hrelay (by rw [← hsent, List.append_assoc]; rfl)
  | mid hexited htx hmid hr hruns hopen hrelay hsent =>
    rw [htx] at hmk
    obtain ⟨rfl, rfl⟩ := Prod.mk.inj hmk
    rw [hahead] at hsent
    exact .mid hexited htx hmid (List.mem_append_left _ hr) hruns hopen hrelay
      (by rw [← hsent, List.append_assoc]; rfl)

/-- The receiver goes away.  In the middle of a tick the relay takes it without a head block. -/
theorem Beside.close (h : w.Beside acts sent R outs) :
    ∃ racts R' outs', Run.run (Relay.step p sha256 recover) R racts = some (R', outs') ∧
      (∀ r, .tick r ∈ racts → TickOf acts r) ∧ Relayer.refreshes racts = [] ∧
      sent <+: outs ++ outs' := by
  cases h with
  | between _ _ _ _ hsent =>
    exact ⟨[], R, [], rfl, fun _ hr => (List.not_mem_nil hr).elim, rfl, w.ahead,
      by rw [hsent, List.append_nil]⟩
  | @mid _ _ r hmid hr hruns hopen hrelay hsent =>
    have htick : R.step p sha256 recover (.tick ⟨r.solidity, none, fun _ => none⟩) = some (_, _) :=
      Relay.step_tick hruns hopen rfl
    refine ⟨[.tick ⟨r.solidity, none, fun _ => none⟩], _, _,
      Run.run_cons_eq_some.2 ⟨_, _, _, htick, Run.run_nil _, rfl⟩, fun r' hr' => ?_, rfl, w.ahead, ?_⟩
    · obtain rfl := RelayAction.tick.inj (List.mem_singleton.1 hr')
      exact ⟨⟨r, hr, rfl⟩, .inl rfl⟩
    · rw [hsent, List.append_nil, List.append_nil]

/-- The relay goes on by one step. -/
theorem run_concat {racts : List RelayAction} {b : RelayAction} {R' : Relay} {outs' : List Output}
    (hrun : Run.run (Relay.step p sha256 recover) relay racts = some (R, outs))
    (hstep : R.step p sha256 recover b = some (R', outs')) :
    Run.run (Relay.step p sha256 recover) relay (racts ++ [b]) = some (R', outs ++ outs') := by
  refine Run.run_append_eq_some.2 ⟨_, _, _, hrun, Run.run_cons_eq_some.2 ⟨_, _, _, hstep, rfl, rfl⟩, ?_⟩
  rw [List.append_nil]

/-- The relay can have sent what the worker has. -/
theorem Follows.covered (h : Follows p sha256 recover relay acts sent w) :
    ∃ racts R outs, Run.run (Relay.step p sha256 recover) relay racts = some (R, outs) ∧
      (∀ r, .tick r ∈ racts → TickOf acts r) ∧ Relayer.refreshes racts <+: refreshes acts ∧
      sent <+: outs := by
  cases h with
  | live hrun hticks hrefreshes hbeside =>
    obtain ⟨racts', R', outs', hrun', hticks', hnone, hsent⟩ := hbeside.close
    refine ⟨_, _, _, Run.run_append_eq_some.2 ⟨_, _, _, hrun, hrun', rfl⟩, fun r hr => ?_, ?_, hsent⟩
    · exact (List.mem_append.1 hr).elim (hticks r) (hticks' r)
    · rw [Relayer.refreshes, List.filterMap_append]
      show Relayer.refreshes _ ++ Relayer.refreshes racts' <+: _
      rw [hnone, hrefreshes, List.append_nil]
  | closed htx hrun hticks hrefreshes hsent =>
    exact ⟨_, _, _, hrun, hticks, hrefreshes, hsent⟩

/-- **One step of the worker.** A write or a send brings it nearer to what the relay has
done, and a half of a tick is taken by the relay with the replies that complete it. -/
theorem Follows.step (h : Follows p sha256 recover relay acts sent w)
    (hs : w.step p sha256 recover a = some (w', out)) :
    Follows p sha256 recover relay (acts ++ [a]) (sent ++ out) w' := by
  have hsub := List.subset_append_left acts [a]
  cases h with
  | @live racts R outs hrun hticks hrefreshes hbeside =>
    have hticks' : ∀ r, .tick r ∈ racts → TickOf (acts ++ [a]) r :=
      fun r hr => (hticks r hr).mono hsub
    cases a with
    | refresh witnesses =>
      obtain ⟨rfl, R', hR', hbeside'⟩ := hbeside.refresh hs
      rw [List.append_nil]
      have hstep : R.step p sha256 recover (.refresh witnesses) = some (R', []) := by
        rw [Relay.step, hR']
        rfl
      refine .live (run_concat hrun hstep) (fun r hr => ?_) ?_ (by rwa [List.append_nil])
      · exact hticks' r ((List.mem_append.1 hr).resolve_right (by simp))
      · rw [refreshes_concat, hrefreshes, refreshes_append]
        rfl
    | solidity r =>
      obtain ⟨rfl, hbeside'⟩ := hbeside.solidity hs
      rw [List.append_nil]
      exact .live hrun hticks' (by rw [hrefreshes, refreshes_append]; exact (List.append_nil _).symm)
        hbeside'
    | head r =>
      obtain ⟨rfl, tick, R', outs', htick, hstep, hbeside'⟩ := hbeside.head hs
      rw [List.append_nil]
      refine .live (run_concat hrun hstep) (fun r' hr' => ?_) ?_ hbeside'
      · rcases List.mem_append.1 hr' with hr' | hr'
        · exact hticks' r' hr'
        · obtain rfl := RelayAction.tick.inj (List.mem_singleton.1 hr')
          exact htick
      · rw [refreshes_concat, hrefreshes, refreshes_append]
        rfl
    | feed =>
      obtain ⟨rfl, hbeside'⟩ := hbeside.feed hs
      rw [List.append_nil]
      exact .live hrun hticks' (by rw [hrefreshes, refreshes_append]; exact (List.append_nil _).symm)
        hbeside'
    | send =>
      exact .live hrun hticks' (by rw [hrefreshes, refreshes_append]; exact (List.append_nil _).symm)
        (hbeside.send hs)
    | close =>
      obtain ⟨rfl, rfl⟩ := Prod.mk.inj (Option.some.inj hs)
      obtain ⟨racts', R', outs', hrun', hticks₂, hrefreshes', hsent⟩ :=
        (Follows.live hrun hticks hrefreshes hbeside).covered
      rw [List.append_nil]
      exact .closed rfl hrun' (fun r hr => (hticks₂ r hr).mono hsub)
        (hrefreshes'.trans (by rw [refreshes_append]; exact List.prefix_append ..)) hsent
  | closed htx hrun hticks hrefreshes hsent =>
    obtain ⟨htx', rfl⟩ := step_closed htx hs
    refine .closed htx' hrun (fun r hr => (hticks r hr).mono hsub) ?_ ?_
    · exact hrefreshes.trans (by rw [refreshes_append]; exact List.prefix_append ..)
    · rw [List.append_nil]
      exact hsent

/-- The relay and its worker start beside each other. -/
theorem follows_start (hruns : relay.service.exited = false) (hopen : relay.service.outputTx = none) :
    Follows p sha256 recover relay [] [] (ofRelay relay) :=
  .live rfl (fun _ hr => (List.not_mem_nil hr).elim) rfl
    (.between hruns hopen rfl (by rw [settled]; exact congrArg (fun s : RelayerService =>
      { relay with service := s }) (RelayerService.fed_nil _)) rfl)

end Worker

/-- **Ticks are atomic.**  Whatever happens between the awaits of `tick_once` (the SR set is
replaced, the receiver of the outputs goes away), the relay can take the ticks one at a time,
each at once, and the refreshes in their order, on the same replies: it sends what the worker has
sent, or more.  Between two ticks, while there is a receiver, it is in the state of the worker
and has sent the same. -/
theorem ticks_are_atomic (p : Protocol.PayloadDecoders) (sha256 : List UInt8 → List.Vector UInt8 32)
    (recover : List.Vector UInt8 32 → List UInt8 → UInt8 → Option Address) (relay : Relay)
    (w : Worker) (acts : List WorkerAction) (sent : List Output)
    (hruns : relay.service.exited = false) (hopen : relay.service.outputTx = none)
    (hrun : Run.run (Worker.step p sha256 recover) (.ofRelay relay) acts = some (w, sent)) :
    ∃ racts R outs, Run.run (Relay.step p sha256 recover) relay racts = some (R, outs) ∧
      (∀ r, .tick r ∈ racts → Worker.TickOf acts r) ∧
      refreshes racts <+: Worker.refreshes acts ∧ sent <+: outs ∧
      (w.Idle → w.midTick = false → w.relay.service.outputTx = none →
        w.relay = R ∧ sent = outs ∧ refreshes racts = Worker.refreshes acts) := by
  have hfollows := Run.run_invariant_of_inputs
    (P := fun acts w sent => w.Follows p sha256 recover relay acts sent)
    (fun _ _ _ _ _ _ h hs => h.step hs) (Worker.follows_start hruns hopen) hrun
  by_cases hend : w.Idle ∧ w.midTick = false ∧ w.relay.service.outputTx = none
  · obtain ⟨hidle, hmid, htx⟩ := hend
    cases hfollows with
    | @live racts R outs hrun hticks hrefreshes hbeside =>
      cases hbeside with
      | between _ _ _ hrelay hsent =>
        refine ⟨racts, R, outs, hrun, hticks, hrefreshes ▸ List.prefix_rfl, ⟨w.ahead, hsent⟩,
          fun _ _ _ => ⟨?_, ?_, hrefreshes⟩⟩
        · rw [← hrelay, Worker.settled, hidle.2.1, RelayerService.fed_nil]
        · rw [← hsent, Worker.ahead, hidle.2.1, hidle.2.2]
          exact (List.append_nil _).symm
      | mid _ _ hmid' =>
        rw [hmid'] at hmid
        cases hmid
    | closed hclosed =>
      rw [hclosed] at htx
      cases htx
  · obtain ⟨racts, R, outs, hrun, hticks, hrefreshes, hsent⟩ := hfollows.covered
    exact ⟨racts, R, outs, hrun, hticks, hrefreshes, hsent,
      fun hidle hmid htx => absurd ⟨hidle, hmid, htx⟩ hend⟩

/-- A tick that reads the signed block, interrupted by a refresh. -/
def interruptedTick : List WorkerAction :=
  [.solidity ⟨none, none, fun _ => none⟩, .refresh (some oneWitness),
    .head ⟨none, some signedBlock, fun _ => none⟩, .feed, .send]

/-- The relay refreshes first, and takes the tick at once. -/
theorem ticks_are_atomic_interruptedTick :
    ∃ relay w sent racts R outs,
      Relay.start strictArgs (some oneWitness) none = .ok (some relay) ∧
      Run.run (Worker.step noPayloads rawDigest fun _ _ _ => some (Address.fill 0x41))
        (.ofRelay relay) interruptedTick = some (w, sent) ∧ sent.length = 1 ∧
      Run.run (Relay.step noPayloads rawDigest fun _ _ _ => some (Address.fill 0x41)) relay racts =
        some (R, outs) ∧ w.relay = R ∧ sent = outs ∧ refreshes racts = [some oneWitness] := by
  have hok : ((Relay.start strictArgs (some oneWitness) none).toOption.join.bind fun relay =>
      (Run.run (Worker.step noPayloads rawDigest fun _ _ _ => some (Address.fill 0x41))
        (.ofRelay relay) interruptedTick).map fun x =>
          (decide (relay.service.exited = false ∧ relay.service.outputTx = none), x.2.length,
            decide (x.1.Idle ∧ x.1.midTick = false ∧ x.1.relay.service.outputTx = none))) =
      some (true, 1, true) := by
    decide +kernel
  obtain ⟨relay, hstart, hok⟩ := Option.bind_eq_some_iff.1 hok
  obtain ⟨⟨w, sent⟩, hrun, hok⟩ := Option.map_eq_some_iff.1 hok
  obtain ⟨hrelay, hok⟩ := Prod.mk.inj hok
  obtain ⟨hlen, hend⟩ := Prod.mk.inj hok
  obtain ⟨hruns, hopen⟩ := of_decide_eq_true hrelay
  obtain ⟨hidle, hmid, htx⟩ := of_decide_eq_true hend
  obtain ⟨racts, R, outs, hracts, -, -, -, hsame⟩ := ticks_are_atomic noPayloads rawDigest
    (fun _ _ _ => some (Address.fill 0x41)) relay w interruptedTick sent hruns hopen hrun
  obtain ⟨hR, houts, hrefreshes⟩ := hsame hidle hmid htx
  exact ⟨relay, w, sent, racts, R, outs, Decode.toOption_join_eq_some.1 hstart, hrun, hlen, hracts, hR,
    houts, hrefreshes⟩

end Relayer
end Lightcycle
