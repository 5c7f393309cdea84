/-
# Many consumers on a hub that forgets

The `Daemon` has one consumer, who gets everything broadcast since it subscribed.  Here there are
any number of them, on a hub that keeps its last `size` outputs
(`crates/lightcycle-firehose/src/hub.rs`).  Each pulls the items of its call at its own pace, first
the backfill and then the live stream, until the call ends with the status that it lagged; and
comes back with its last cursor when it wants.  The archiver receives from the same hub, from
when it subscribes; the pump may run before.

None of them notices the others, and none notices what the hub forgot but by that status
(`fleet_refines_daemon`): what a consumer has taken is what the one consumer of a daemon would
have, and the status counts the outputs it missed, those between what it took and the oldest
output the hub kept at the poll that ended the call (`Fleet.ended_of_run`).  Nor is one held
up by the others: pulling alone takes it to the end of what was broadcast, or to that status
(`fleet_consumer_drains`).
-/

import Lightcycle.Lib.Broadcast
import Lightcycle.Firehose.Refine

namespace Lightcycle
namespace Firehose

open Relayer Store

/-- The status of a call that lagged. -/
def laggedBy (skipped : ℕ) : Status :=
  ⟨.resourceExhausted, s!"subscriber lagged the firehose hub by {skipped} messages; " ++
    "reconnect with last cursor"⟩

/-- A consumer of `Stream.Blocks`, with the stream of its call. -/
structure Consumer where
  session : Option Phase
  /-- How many rows of the backfill the stream has yielded. -/
  served : ℕ
  /-- Where its subscription is in what was broadcast. -/
  next : ℕ
  /-- What the call has yielded. -/
  taken : List Response
  /-- What the call has ended with. -/
  status : Option Status
  /-- What it took from its calls before. -/
  received : List Response

namespace Consumer

/-- A consumer that has not called yet. -/
def idle : Consumer := ⟨none, 0, 0, [], none, []⟩

/-- A call, after what was `received`. -/
def calling (log : List Output) (req : Request) (received : List Response) : Consumer :=
  { idle with session := some (.opened log req), next := log.length, received }

variable (prost : Prost) (size : ℕ) (log : List Output)

/-- The stream is polled once: the next row of the backfill, or a receipt from the hub, which
the live filter may drop.  An error ends the call. -/
def pull (c : Consumer) : Option Consumer :=
  match c.session, c.status with
  | some (.streaming _ _ backfill), none =>
    match backfill[c.served]? with
    | some r => some { c with served := c.served + 1, taken := c.taken ++ [r] }
    | none =>
      (Broadcast.recv size log c.next).map fun x =>
        match liveItem prost (lastBackfillHeight backfill) x.1 with
        | none => { c with next := x.2 }
        | some (.ok r) => { c with next := x.2, taken := c.taken ++ [r] }
        | some (.error status) => { c with next := x.2, status := some status }
  | _, _ => none

/-- The consumer presents the cursor of the last response it took. -/
def back (c : Consumer) : Option Consumer :=
  (c.received ++ c.taken).getLast?.map fun r =>
    calling log (World.resumeAt r) (c.received ++ c.taken)

end Consumer

/-- The daemon and its consumers; the daemon's own consumer is not used. -/
structure Fleet where
  daemon : Daemon
  /-- The archiver has subscribed. -/
  archiving : Bool
  consumers : ℕ → Consumer

/-- The action is one of the daemon's own consumer. -/
def DaemonAction.ofConsumer : DaemonAction → Bool
  | .connect _ => true
  | .advance => true
  | .reconnect _ => true
  | _ => false

/-- The action is one of the archiver. -/
def DaemonAction.ofArchiver : DaemonAction → Bool
  | .archiver => true
  | .lagged _ => true
  | _ => false

/-- The step, if it is one of a task. -/
def DaemonAction.ofTask (act : DaemonAction) : Option DaemonAction :=
  if act.ofConsumer || act.ofArchiver then none else some act

/-- A step of a task, of the archiver, or of a consumer and the handler of its call. -/
inductive FleetAction where
  | task (act : DaemonAction)
  | subscribe
  | archiver
  | connect (i : ℕ) (req : Request)
  | advance (i : ℕ)
  | pull (i : ℕ)
  | reconnect (i : ℕ)

/-- The step, if it is one of a task. -/
def FleetAction.ofTask : FleetAction → Option DaemonAction
  | .task act => some act
  | _ => none

/-- What the archiver does on a receipt. -/
def archiverAction : Except ℕ Output → DaemonAction
  | .ok _ => .archiver
  | .error skipped => .lagged skipped

namespace Fleet

/-- With another state of one consumer. -/
def setConsumer (f : Fleet) (i : ℕ) (c : Consumer) : Fleet :=
  { f with consumers := Function.update f.consumers i c }

variable (p : Protocol.PayloadDecoders) (sha256 : List UInt8 → List.Vector UInt8 32)
  (recover : List.Vector UInt8 32 → List UInt8 → UInt8 → Option Address) (prost : Prost) (size : ℕ)

/-- One step, on a hub that keeps `size` outputs; `none` when it cannot be taken. -/
def step (f : Fleet) : FleetAction → Option Fleet
  | .task act =>
    if act.ofConsumer || act.ofArchiver then none
    else (f.daemon.step p sha256 recover prost act).map fun daemon => { f with daemon }
  | .subscribe =>
    -- what was broadcast before is not delivered
    if f.archiving then none
    else
      (f.daemon.step p sha256 recover prost
        (.lagged (f.daemon.log.length - f.daemon.archivePos))).map fun daemon =>
          { f with daemon, archiving := true }
  | .archiver =>
    if f.archiving then
      (Broadcast.recv size f.daemon.log f.daemon.archivePos).bind fun x =>
        (f.daemon.step p sha256 recover prost (archiverAction x.1)).map fun daemon =>
          { f with daemon }
    else none
  | .connect i req =>
    if (f.consumers i).session.isNone then
      some (f.setConsumer i (.calling f.daemon.log req (f.consumers i).received))
    else none
  | .advance i =>
    f.daemon.pipeline.bind fun pipeline =>
      ((f.consumers i).session.bind (Phase.advance prost pipeline)).map fun s =>
        f.setConsumer i { f.consumers i with session := some s }
  | .pull i => ((f.consumers i).pull prost size f.daemon.log).map (f.setConsumer i)
  | .reconnect i => ((f.consumers i).back f.daemon.log).map (f.setConsumer i)

/-- The archiver has not subscribed, and nobody has called yet. -/
def ofDaemon (daemon : Daemon) : Fleet := ⟨daemon, false, fun _ => .idle⟩

/-- The daemon with the consumer `i` as its own. -/
def seenBy (f : Fleet) (i : ℕ) : Daemon :=
  { f.daemon with session := (f.consumers i).session, received := (f.consumers i).received }

end Fleet

/-! ### What a consumer has taken -/

/-- Where the call subscribed, unless it was refused. -/
def Phase.subscribedAt : Phase → Option ℕ
  | .subscribed pos _ => some pos
  | .headRead pos .. => some pos
  | .snapshotted pos .. => some pos
  | .spanned pos .. => some pos
  | .archived pos .. => some pos
  | .streaming pos .. => some pos
  | .refused _ => none

variable {p : Protocol.PayloadDecoders} {sha256 : List UInt8 → List.Vector UInt8 32}
  {recover : List.Vector UInt8 32 → List UInt8 → UInt8 → Option Address} {prost : Prost}
  {size : ℕ}

/-- A call keeps its subscription until it is refused. -/
theorem Phase.subscribedAt_of_advance {pipeline : Pipeline} {s s' : Phase}
    (h : s.advance prost pipeline = some s') :
    s'.subscribedAt = s.subscribedAt ∨ s'.subscribedAt = none := by
  cases Phase.reads_of_advance h with
  | noArchive => exact .inr rfl
  | noCache => exact .inr rfl
  | _ => exact .inl rfl

namespace Consumer

variable {log log' : List Output} {c c' : Consumer}

variable (prost size log) in
/-- What a consumer has taken of its call: nothing before the call streams; then the backfill so far
and what the live filter let through of the outputs received, `k` since it subscribed; and when
it lagged by `n`, the hub keeps none of the `n` after those. -/
inductive Ok : Consumer → Prop
  | idle : Ok .idle
  | opening {s : Phase} {next : ℕ} {received : List Response}
    (hs : ∀ pos start backfill, s ≠ .streaming pos start backfill)
    (hnext : ∀ pos, s.subscribedAt = some pos → next = pos ∧ pos ≤ log.length) :
    Ok ⟨some s, 0, next, [], none, received⟩
  | streaming {pos : ℕ} {start : Option ℕ} {backfill : List Response} {served k : ℕ}
    {received : List Response} (hserved : served ≤ backfill.length)
    (hfirst : served < backfill.length → k = 0) (hle : pos + k ≤ log.length) :
    Ok ⟨some (.streaming pos start backfill), served, pos + k,
      backfill.take served ++ Phase.live prost backfill ((log.drop pos).take k), none, received⟩
  | lagged {pos : ℕ} {start : Option ℕ} {backfill : List Response} {k n : ℕ}
    {received : List Response} (hn : 0 < n) (hle : pos + k + n + size ≤ log.length) :
    Ok ⟨some (.streaming pos start backfill), backfill.length, pos + k + n,
      backfill ++ Phase.live prost backfill ((log.drop pos).take k), some (laggedBy n), received⟩

/-- More is broadcast. -/
theorem Ok.mono (h : c.Ok prost size log) (hlog : log <+: log') : c.Ok prost size log' := by
  have hlen := hlog.length_le
  cases h with
  | idle => exact .idle
  | opening hs hnext =>
    exact .opening hs fun pos hpos => ⟨(hnext pos hpos).1, (hnext pos hpos).2.trans hlen⟩
  | streaming hserved hfirst hle =>
    rw [← Broadcast.take_drop_of_prefix hlog hle]
    exact .streaming hserved hfirst (hle.trans hlen)
  | lagged hn hle =>
    rw [← Broadcast.take_drop_of_prefix hlog (by omega)]
    exact .lagged hn (hle.trans hlen)

/-- A call that has just been made has taken nothing, and is subscribed at the end of what was
broadcast, if it was not refused at once. -/
theorem ok_calling (log : List Output) (req : Request) (received : List Response) :
    (calling log req received).Ok prost size log := by
  refine .opening (fun pos start backfill => ?_) fun pos hpos => ?_
  · unfold Phase.opened
    split <;> simp
  · unfold Phase.opened at hpos
    split at hpos
    · cases hpos
    · obtain rfl := Option.some.inj hpos
      exact ⟨rfl, le_rfl⟩

/-- The handler makes its next read. -/
theorem Ok.advance {pipeline : Pipeline} {s s' : Phase} (h : c.Ok prost size log)
    (hsession : c.session = some s) (hadv : s.advance prost pipeline = some s') :
    Ok prost size log { c with session := some s' } := by
  cases h with
  | idle => cases hsession
  | streaming | lagged =>
    obtain rfl := Option.some.inj hsession
    cases hadv
  | @opening _ next received hs hnext =>
    obtain rfl := Option.some.inj hsession
    have hnext' : ∀ pos, s'.subscribedAt = some pos → next = pos ∧ pos ≤ log.length := by
      intro pos hpos
      rcases Phase.subscribedAt_of_advance hadv with heq | hnone
      · exact hnext pos (heq ▸ hpos)
      · rw [hnone] at hpos
        cases hpos
    by_cases hstream : ∃ pos start backfill, s' = .streaming pos start backfill
    · obtain ⟨pos, start, backfill, rfl⟩ := hstream
      obtain ⟨rfl, hle⟩ := hnext' pos rfl
      have htaken : ([] : List Response) =
          backfill.take 0 ++ Phase.live prost backfill ((log.drop next).take 0) := rfl
      rw [htaken]
      exact .streaming (Nat.zero_le _) (fun _ => rfl) hle
    · exact .opening (fun pos start backfill heq => hstream ⟨pos, start, backfill, heq⟩) hnext'

/-- An output is dropped or delivered. -/
theorem liveItem_ok (prost : Prost) (last : Option ℕ) (o : Output) :
    liveItem prost last (.ok o) = none ∨ ∃ r, liveItem prost last (.ok o) = some (.ok r) := by
  simp only [liveItem]
  cases outputToResponse prost o with
  | none => exact .inl rfl
  | some r =>
    rw [Option.bind_some]
    split
    · split_ifs
      · exact .inl rfl
      · exact .inr ⟨r, rfl⟩
    · exact .inr ⟨r, rfl⟩

/-- The live filter looks at each output alone. -/
theorem live_concat (backfill : List Response) (outs : List Output) (o : Output) :
    Phase.live prost backfill (outs ++ [o]) =
      Phase.live prost backfill outs ++ Phase.live prost backfill [o] := by
  rw [Phase.live, List.filterMap_append]
  rfl

/-- Only a call that streams is pulled. -/
theorem streaming_of_pull (hs : c.pull prost size log = some c') :
    ∃ pos start backfill, c.session = some (.streaming pos start backfill) ∧ c.status = none := by
  unfold Consumer.pull at hs
  split at hs
  · exact ⟨_, _, _, ‹_›, ‹_›⟩
  · cases hs

/-- **One poll of the stream** keeps the account of what a consumer took: the responses of
the backfill first, then what the live filter lets through, output by output. -/
theorem Ok.pull (h : c.Ok prost size log) (hs : c.pull prost size log = some c') :
    c'.Ok prost size log ∧ c'.session = c.session ∧ c'.received = c.received := by
  cases h with
  | idle => cases hs
  | lagged => cases hs
  | opening hphase =>
    obtain ⟨_, _, _, hsession, -⟩ := streaming_of_pull hs
    exact absurd (Option.some.inj hsession) (hphase _ _ _)
  | @streaming pos start backfill served k received hserved hfirst hle =>
    simp only [Consumer.pull] at hs
    cases hrow : backfill[served]? with
    | some r =>
      obtain ⟨hlt, -⟩ := List.getElem?_eq_some_iff.1 hrow
      obtain rfl := hfirst hlt
      rw [hrow] at hs
      obtain rfl := Option.some.inj hs
      refine ⟨?_, rfl, rfl⟩
      have htaken :
          backfill.take served ++ Phase.live prost backfill ((log.drop pos).take 0) ++ [r] =
            backfill.take (served + 1) ++ Phase.live prost backfill ((log.drop pos).take 0) := by
        rw [List.take_add_one, hrow]
        simp [Phase.live]
      rw [htaken]
      exact .streaming hlt (fun _ => rfl) hle
    | none =>
      obtain rfl : served = backfill.length :=
        Nat.le_antisymm hserved (List.getElem?_eq_none_iff.1 hrow)
      rw [hrow] at hs
      obtain ⟨⟨item, next⟩, hrecv, hmk⟩ := Option.map_eq_some_iff.1 hs
      cases item with
      | error n =>
        obtain ⟨hn, rfl, hnext⟩ := Broadcast.recv_eq_error.1 hrecv
        obtain rfl := hmk
        rw [List.take_length]
        exact ⟨.lagged hn hnext.le, rfl, rfl⟩
      | ok o =>
        obtain ⟨-, ho, rfl⟩ := Broadcast.recv_eq_ok.1 hrecv
        obtain ⟨hlt, -⟩ := List.getElem?_eq_some_iff.1 ho
        have hok : Ok prost size log ⟨some (.streaming pos start backfill), backfill.length,
            pos + (k + 1), backfill.take backfill.length ++
              Phase.live prost backfill ((log.drop pos).take (k + 1)), none, received⟩ :=
          .streaming le_rfl (fun h => absurd h (lt_irrefl _)) hlt
        rw [Broadcast.take_drop_succ ho, live_concat, ← List.append_assoc, ← Nat.add_assoc] at hok
        rcases liveItem_ok prost (lastBackfillHeight backfill) o with hitem | ⟨r, hitem⟩
        · rw [show Phase.live prost backfill [o] = [] by simp [Phase.live, hitem],
            List.append_nil] at hok
          simp only [hitem] at hmk
          obtain rfl := hmk
          exact ⟨hok, rfl, rfl⟩
        · rw [show Phase.live prost backfill [o] = [r] by simp [Phase.live, hitem]] at hok
          simp only [hitem] at hmk
          obtain rfl := hmk
          exact ⟨hok, rfl, rfl⟩

/-- What was taken is what the call delivers, as far as it was pulled. -/
theorem Ok.taken_prefix (h : c.Ok prost size log) :
    c.taken <+: (c.session.map (Phase.delivered prost log)).getD [] := by
  cases h with
  | idle => exact List.nil_prefix
  | opening => exact List.nil_prefix
  | @streaming pos start backfill served k received hserved hfirst hle =>
    rcases Nat.lt_or_ge served backfill.length with hlt | hge
    · obtain rfl := hfirst hlt
      refine List.IsPrefix.trans ?_ (List.prefix_append backfill _)
      rw [show Phase.live prost backfill ((log.drop pos).take 0) = [] from rfl, List.append_nil]
      exact List.take_prefix _ _
    · rw [List.take_of_length_le hge]
      exact List.prefix_append_right_inj _ |>.2 ((List.take_prefix _ _).filterMap _)
  | lagged => exact List.prefix_append_right_inj _ |>.2 ((List.take_prefix _ _).filterMap _)

variable (prost size log c) in
/-- The call ended with `status` on this hub at a poll that found the consumer `before`: its
subscription was behind the `k` outputs received, and the call has ended because of the `n`
outputs behind these, of which the hub keeps none and everything after. -/
def Lagged (before : Consumer) (status : Status) : Prop :=
  ∃ pos start backfill k n, c.session = some (.streaming pos start backfill) ∧
    before.status = none ∧ before.next = pos + k ∧ before.taken = c.taken ∧
    0 < n ∧ status = laggedBy n ∧
    c.taken = backfill ++ Phase.live prost backfill ((log.drop pos).take k) ∧
    pos + k + n + size = log.length

/-- **A poll that ends the call** has lagged, and its status counts what was missed: from where
the subscription was to the oldest output that the hub keeps. -/
theorem Ok.lagged_of_pull {status : Status} (h : c.Ok prost size log)
    (hs : c.pull prost size log = some c') (hstatus : c'.status = some status) :
    c'.Lagged prost size log c status := by
  cases h with
  | idle => cases hs
  | lagged => cases hs
  | opening hphase =>
    obtain ⟨_, _, _, hsession, -⟩ := streaming_of_pull hs
    exact absurd (Option.some.inj hsession) (hphase _ _ _)
  | @streaming pos start backfill served k received hserved hfirst hle =>
    simp only [Consumer.pull] at hs
    cases hrow : backfill[served]? with
    | some r =>
      rw [hrow] at hs
      obtain rfl := Option.some.inj hs
      cases hstatus
    | none =>
      obtain rfl : served = backfill.length :=
        Nat.le_antisymm hserved (List.getElem?_eq_none_iff.1 hrow)
      rw [hrow] at hs
      obtain ⟨⟨item, next⟩, hrecv, hmk⟩ := Option.map_eq_some_iff.1 hs
      cases item with
      | error n =>
        obtain ⟨hn, rfl, hnext⟩ := Broadcast.recv_eq_error.1 hrecv
        obtain rfl := hmk
        obtain rfl := Option.some.inj hstatus
        rw [List.take_length]
        exact ⟨pos, start, backfill, k, n, rfl, rfl, rfl, rfl, hn, rfl, rfl, hnext⟩
      | ok o =>
        rcases liveItem_ok prost (lastBackfillHeight backfill) o with hitem | ⟨r, hitem⟩
        · simp only [hitem] at hmk
          obtain rfl := hmk
          cases hstatus
        · simp only [hitem] at hmk
          obtain rfl := hmk
          cases hstatus

/-- The handler of a call that has ended does nothing more. -/
theorem Ok.status_of_advance {pipeline : Pipeline} {s s' : Phase} (h : c.Ok prost size log)
    (hsession : c.session = some s) (hadv : s.advance prost pipeline = some s') :
    c.status = none := by
  cases h with
  | lagged =>
    obtain rfl := Option.some.inj hsession
    cases hadv
  | _ => rfl

/-! ### How far a consumer can go -/

variable (prost size log) in
/-- The consumer pulled what there is, as `c'`: all that its call delivers, unless the hub
forgot the next output before. -/
structure Drained (c c' : Consumer) : Prop where
  session : c'.session = c.session
  received : c'.received = c.received
  all : log.length ≤ c.next + size →
    c'.status = none ∧ c'.taken = (c.session.map (Phase.delivered prost log)).getD []
  missed : c.next + size < log.length →
    c'.status = some (laggedBy (log.length - size - c.next))

section Streaming

variable {pos : ℕ} {start : Option ℕ} {backfill : List Response}

/-- A poll within the backfill. -/
theorem pull_row {r : Response} (hsession : c.session = some (.streaming pos start backfill))
    (hstatus : c.status = none) (hrow : backfill[c.served]? = some r) :
    c.pull prost size log = some { c with served := c.served + 1, taken := c.taken ++ [r] } := by
  simp only [Consumer.pull, hsession, hstatus, hrow]

variable (prost) in
/-- A receipt of an output moves on by one. -/
theorem pull_output {o : Output} (hsession : c.session = some (.streaming pos start backfill))
    (hstatus : c.status = none) (hrow : backfill[c.served]? = none)
    (hrecv : Broadcast.recv size log c.next = some (.ok o, c.next + 1)) :
    ∃ c', c.pull prost size log = some c' ∧ c'.status = none ∧ c'.next = c.next + 1 ∧
      c'.served = c.served := by
  rcases liveItem_ok prost (lastBackfillHeight backfill) o with hitem | ⟨r, hitem⟩
  · exact ⟨{ c with next := c.next + 1 }, by
      simp only [Consumer.pull, hsession, hstatus, hrow, hrecv, Option.map_some, hitem],
      hstatus, rfl, rfl⟩
  · exact ⟨{ c with next := c.next + 1, taken := c.taken ++ [r] }, by
      simp only [Consumer.pull, hsession, hstatus, hrow, hrecv, Option.map_some, hitem],
      hstatus, rfl, rfl⟩

/-- A receipt of a lag ends the call. -/
theorem pull_lag {next n : ℕ} (hsession : c.session = some (.streaming pos start backfill))
    (hstatus : c.status = none) (hrow : backfill[c.served]? = none)
    (hrecv : Broadcast.recv size log c.next = some (.error n, next)) :
    c.pull prost size log = some { c with next, status := some (laggedBy n) } := by
  simp only [Consumer.pull, hsession, hstatus, hrow, hrecv, Option.map_some, liveItem, laggedBy]

/-- Where a call is that streams. -/
theorem Ok.streams (h : c.Ok prost size log)
    (hsession : c.session = some (.streaming pos start backfill)) (hstatus : c.status = none) :
    c.served ≤ backfill.length ∧ c.next ≤ log.length ∧
      (c.served = backfill.length → c.next = log.length →
        c.taken = (c.session.map (Phase.delivered prost log)).getD []) := by
  cases h with
  | idle => cases hsession
  | opening hphase => exact absurd (Option.some.inj hsession) (hphase _ _ _)
  | lagged => cases hstatus
  | @streaming _ _ _ served k received hserved hfirst hle =>
    cases hsession
    refine ⟨hserved, hle, fun hrows (hall : pos + k = log.length) => ?_⟩
    obtain rfl : served = backfill.length := hrows
    show backfill.take backfill.length ++ Phase.live prost backfill ((log.drop pos).take k) =
      backfill ++ Phase.live prost backfill (log.drop pos)
    rw [List.take_length, List.take_of_length_le (by rw [List.length_drop]; omega)]

/-- **A call that streams can be pulled to its end**, whatever the backfill is. -/
theorem Ok.drain (h : c.Ok prost size log)
    (hsession : c.session = some (.streaming pos start backfill)) (hstatus : c.status = none) :
    ∃ m c', Run.exec (fun c (_ : Unit) => c.pull prost size log) c (List.replicate m ()) = some c' ∧
      c.Drained prost size log c' := by
  obtain ⟨hserved, hnext, hall⟩ := h.streams hsession hstatus
  -- On the rows and the outputs that are left.
  obtain ⟨left, hleft⟩ : ∃ left, (backfill.length - c.served) + (log.length - c.next) = left :=
    ⟨_, rfl⟩
  induction left using Nat.strong_induction_on generalizing c with
  | _ left ih =>
    have hcons : ∀ {c₁ : Consumer}, c.pull prost size log = some c₁ → c₁.status = none →
        (backfill.length - c₁.served) + (log.length - c₁.next) < left →
        (c.next + size < log.length → c₁.next = c.next) →
        (log.length ≤ c.next + size → log.length ≤ c₁.next + size) →
        ∃ m c', Run.exec (fun c (_ : Unit) => c.pull prost size log) c (List.replicate m ()) =
          some c' ∧ c.Drained prost size log c' := by
      intro c₁ hpull hstatus₁ hlt hsame hkept
      obtain ⟨hok, hsession₁, hreceived₁⟩ := h.pull hpull
      obtain ⟨hserved₁, hnext₁, hall₁⟩ := hok.streams (hsession₁.trans hsession) hstatus₁
      obtain ⟨m, c', hexec, hdrained⟩ :=
        ih _ hlt hok (hsession₁.trans hsession) hstatus₁ hserved₁ hnext₁ hall₁ rfl
      refine ⟨m + 1, c', Run.exec_cons_eq_some.2 ⟨c₁, hpull, hexec⟩,
        hdrained.session.trans hsession₁, hdrained.received.trans hreceived₁, fun hle => ?_,
        fun hlag => ?_⟩
      · rw [← hsession₁]
        exact hdrained.all (hkept hle)
      · rw [← hsame hlag]
        exact hdrained.missed (by rw [hsame hlag]; exact hlag)
    cases hrow : backfill[c.served]? with
    | some r =>
      obtain ⟨hlt, -⟩ := List.getElem?_eq_some_iff.1 hrow
      refine hcons (pull_row hsession hstatus hrow) hstatus ?_ (fun _ => rfl) id
      show (backfill.length - (c.served + 1)) + (log.length - c.next) < left
      omega
    | none =>
      have hrows : c.served = backfill.length :=
        Nat.le_antisymm hserved (List.getElem?_eq_none_iff.1 hrow)
      rcases Nat.lt_or_ge (c.next + size) log.length with hlag | hkept
      · have hrecv : Broadcast.recv size log c.next =
            some (.error (log.length - size - c.next), log.length - size) :=
          Broadcast.recv_eq_error.2 ⟨by omega, by omega, by omega⟩
        exact ⟨1, _, Run.exec_cons_eq_some.2 ⟨_, pull_lag hsession hstatus hrow hrecv, rfl⟩, rfl,
          rfl, fun hle => by omega, fun _ => rfl⟩
      · rcases Nat.lt_or_ge c.next log.length with hlt | hge
        · obtain ⟨c₁, hpull, hstatus₁, hnext₁, hserved₁⟩ :=
            pull_output prost hsession hstatus hrow
              (Broadcast.recv_eq_ok.2 ⟨hkept, List.getElem?_eq_getElem hlt, rfl⟩)
          exact hcons hpull hstatus₁ (by omega) (fun hlag => by omega) (fun _ => by omega)
        · exact ⟨0, c, rfl, rfl, rfl, fun _ => ⟨hstatus, hall hrows (by omega)⟩,
            fun hlag => by omega⟩

end Streaming

end Consumer

/-! ### One consumer and the daemon -/

/-- Broadcasts stay. -/
theorem Daemon.log_prefix {d d' : Daemon} {act : DaemonAction}
    (hs : d.step p sha256 recover prost act = some d') : d.log <+: d'.log := by
  cases Daemon.moves_of_step hs with
  | pump => exact List.prefix_append _ _
  | _ => exact List.prefix_rfl

/-- A step of another task does not depend on the consumer. -/
theorem Daemon.step_of_task {d d' : Daemon} {act : DaemonAction} (hact : act.ofConsumer = false)
    (session : Option Phase) (received : List Response)
    (hs : d.step p sha256 recover prost act = some d') :
    Daemon.step p sha256 recover prost { d with session, received } act =
      some { d' with session, received } := by
  cases act with
  | connect | advance | reconnect => cases hact
  | worker a =>
    obtain ⟨x, hx, rfl⟩ := Option.map_eq_some_iff.1 hs
    exact Option.map_eq_some_iff.2 ⟨x, hx, rfl⟩
  | pump =>
    obtain ⟨o, ho, rfl⟩ := Option.map_eq_some_iff.1 hs
    exact Option.map_eq_some_iff.2 ⟨o, ho, rfl⟩
  | archiver =>
    obtain ⟨o, ho, hs⟩ := Option.bind_eq_some_iff.1 hs
    obtain ⟨a, ha, rfl⟩ := Option.map_eq_some_iff.1 hs
    exact Option.bind_eq_some_iff.2 ⟨o, ho, Option.map_eq_some_iff.2 ⟨a, ha, rfl⟩⟩
  | lagged skipped =>
    simp only [Daemon.step, Option.ite_none_right_eq_some] at hs ⊢
    obtain ⟨hle, hs⟩ := hs
    obtain rfl := Option.some.inj hs
    exact ⟨hle, rfl⟩
  | prune =>
    simp only [Daemon.step, Option.ite_none_right_eq_some] at hs ⊢
    obtain ⟨hpos, hs⟩ := hs
    obtain ⟨h, hhead, rfl⟩ := Option.map_eq_some_iff.1 hs
    exact ⟨hpos, Option.map_eq_some_iff.2 ⟨h, hhead, rfl⟩⟩
  | fetch height =>
    obtain rfl := Option.some.inj hs
    simp only [Daemon.step]
    split <;> rfl
  | probe i =>
    obtain ⟨c, hc, hs⟩ := Option.bind_eq_some_iff.1 hs
    refine Option.bind_eq_some_iff.2 ⟨c, hc, ?_⟩
    cases c with
    | unarchived height =>
      obtain ⟨cache, hcache, hmk⟩ := Option.map_eq_some_iff.1 hs
      refine Option.map_eq_some_iff.2 ⟨cache, hcache, ?_⟩
      simp only [Daemon.head] at hmk ⊢
      split at hmk <;> (obtain rfl := hmk; rfl)
    | _ => cases hs
  | ask i getBlockByNum solidity =>
    obtain ⟨c, hc, hs⟩ := Option.bind_eq_some_iff.1 hs
    refine Option.bind_eq_some_iff.2 ⟨c, hc, ?_⟩
    cases c with
    | asked height =>
      obtain rfl := Option.some.inj hs
      simp only [Daemon.fetchStep]
      split <;> rfl
    | _ => cases hs
  | populate i =>
    obtain ⟨c, hc, hs⟩ := Option.bind_eq_some_iff.1 hs
    refine Option.bind_eq_some_iff.2 ⟨c, hc, ?_⟩
    cases c with
    | answered answer =>
      obtain rfl := Option.some.inj hs
      rfl
    | _ => cases hs

namespace Fleet

variable {f f' : Fleet} {i : ℕ}

/-- The daemon `d` has the consumer `i` of the fleet as its own. -/
structure Shows (prost : Prost) (size : ℕ) (i : ℕ) (f : Fleet) (d : Daemon) : Prop where
  daemon : d = f.seenBy i
  consumer : (f.consumers i).Ok prost size f.daemon.log

/-- Another consumer moves. -/
theorem Shows.of_ne {d : Daemon} {j : ℕ} (h : Shows prost size i f d) (hne : i ≠ j) (c : Consumer) :
    Shows prost size i (f.setConsumer j c) d := by
  have hsame : (f.setConsumer j c).consumers i = f.consumers i := Function.update_of_ne hne _ _
  exact ⟨by rw [h.daemon, seenBy, seenBy, hsame]; rfl, by rw [hsame]; exact h.consumer⟩

/-- A task moves. -/
theorem Shows.task {d : Daemon} {act : DaemonAction} {daemon : Daemon}
    (h : Shows prost size i f d) (hact : act.ofConsumer = false)
    (hs : f.daemon.step p sha256 recover prost act = some daemon) :
    ∃ d', d.step p sha256 recover prost act = some d' ∧
      Shows prost size i { f with daemon } d' :=
  ⟨_, by rw [h.daemon]; exact Daemon.step_of_task hact _ _ hs, rfl,
    h.consumer.mono (Daemon.log_prefix hs)⟩

/-- The consumer moves. -/
theorem shows_setConsumer {c : Consumer} (hc : c.Ok prost size f.daemon.log) :
    Shows prost size i (f.setConsumer i c)
      { f.daemon with session := c.session, received := c.received } := by
  have hself : (f.setConsumer i c).consumers i = c := Function.update_self _ _ _
  exact ⟨by rw [seenBy, hself]; rfl, by rw [hself]; exact hc⟩

/-- **A step of the fleet is at most one step of the daemon**, and the same one when it is a
task's. -/
theorem Shows.step {d : Daemon} {a : FleetAction} (h : Shows prost size i f d)
    (hs : f.step p sha256 recover prost size a = some f') :
    ∃ acts d', acts.filterMap DaemonAction.ofTask = a.ofTask.toList ∧
      Run.exec (Daemon.step p sha256 recover prost) d acts = some d' ∧
      Shows prost size i f' d' := by
  have hone : ∀ {x : DaemonAction} {d' : Daemon}, x.ofTask = a.ofTask →
      d.step p sha256 recover prost x = some d' → Shows prost size i f' d' →
      ∃ acts d', acts.filterMap DaemonAction.ofTask = a.ofTask.toList ∧
        Run.exec (Daemon.step p sha256 recover prost) d acts = some d' ∧
        Shows prost size i f' d' := by
    intro x d' hx hstep hshows
    refine ⟨[x], d', ?_, Run.exec_cons_eq_some.2 ⟨d', hstep, rfl⟩, hshows⟩
    rw [← hx]
    cases hx' : x.ofTask <;> simp [hx']
  have hnone : a.ofTask = none → Shows prost size i f' d →
      ∃ acts d', acts.filterMap DaemonAction.ofTask = a.ofTask.toList ∧
        Run.exec (Daemon.step p sha256 recover prost) d acts = some d' ∧
        Shows prost size i f' d' :=
    fun ha hshows => ⟨[], d, by rw [ha]; rfl, rfl, hshows⟩
  cases a with
  | task act =>
    rw [Fleet.step, Option.ite_none_left_eq_some] at hs
    obtain ⟨hnot, hs⟩ := hs
    obtain ⟨daemon, hdaemon, rfl⟩ := Option.map_eq_some_iff.1 hs
    have hconsumer : act.ofConsumer = false := by
      cases hact : act.ofConsumer <;> simp [hact] at hnot ⊢
    obtain ⟨d', hstep, hshows⟩ := h.task hconsumer hdaemon
    exact hone (if_neg hnot) hstep hshows
  | subscribe =>
    rw [Fleet.step, Option.ite_none_left_eq_some] at hs
    obtain ⟨daemon, hdaemon, rfl⟩ := Option.map_eq_some_iff.1 hs.2
    obtain ⟨d', hstep, hshows⟩ := h.task rfl hdaemon
    exact hone rfl hstep ⟨hshows.daemon, hshows.consumer⟩
  | archiver =>
    rw [Fleet.step, Option.ite_none_right_eq_some] at hs
    obtain ⟨⟨item, next⟩, -, hs⟩ := Option.bind_eq_some_iff.1 hs.2
    obtain ⟨daemon, hdaemon, rfl⟩ := Option.map_eq_some_iff.1 hs
    have hconsumer : (archiverAction item).ofConsumer = false := by
      cases item <;> rfl
    have htask : (archiverAction item).ofTask = none := by
      cases item <;> rfl
    obtain ⟨d', hstep, hshows⟩ := h.task hconsumer hdaemon
    exact hone htask hstep hshows
  | connect j req =>
    rw [Fleet.step, Option.ite_none_right_eq_some] at hs
    obtain ⟨hidle, hs⟩ := hs
    obtain rfl := Option.some.inj hs
    by_cases hij : i = j
    · subst hij
      refine hone (x := .connect req) rfl ?_
        (shows_setConsumer (Consumer.ok_calling _ req _))
      have hidle' : (f.seenBy i).session.isNone := hidle
      rw [h.daemon, Daemon.step, if_pos hidle']
      rfl
    · exact hnone rfl (h.of_ne hij _)
  | advance j =>
    obtain ⟨pipeline, hpipeline, hs⟩ := Option.bind_eq_some_iff.1 hs
    obtain ⟨s', hs', rfl⟩ := Option.map_eq_some_iff.1 hs
    by_cases hij : i = j
    · subst hij
      obtain ⟨s, hsession, hadv⟩ := Option.bind_eq_some_iff.1 hs'
      refine hone (x := .advance) rfl ?_
        (shows_setConsumer (h.consumer.advance hsession hadv))
      rw [h.daemon]
      exact Option.bind_eq_some_iff.2 ⟨pipeline, hpipeline, Option.map_eq_some_iff.2 ⟨s', hs', rfl⟩⟩
    · exact hnone rfl (h.of_ne hij _)
  | pull j =>
    obtain ⟨c, hpull, rfl⟩ := Option.map_eq_some_iff.1 hs
    by_cases hij : i = j
    · subst hij
      obtain ⟨hc, hsession, hreceived⟩ := h.consumer.pull hpull
      have hsame : { f.daemon with session := c.session, received := c.received } = d := by
        rw [h.daemon, seenBy, hsession, hreceived]
      have hshows := shows_setConsumer (i := i) hc
      rw [hsame] at hshows
      exact hnone rfl hshows
    · exact hnone rfl (h.of_ne hij _)
  | reconnect j =>
    obtain ⟨c, hback, rfl⟩ := Option.map_eq_some_iff.1 hs
    by_cases hij : i = j
    · subst hij
      obtain ⟨r, hlast, rfl⟩ := Option.map_eq_some_iff.1 hback
      refine hone (x := .reconnect (f.consumers i).taken.length) rfl ?_
        (shows_setConsumer (Consumer.ok_calling _ _ _))
      have htaken : (f.seenBy i).received ++
          (((f.seenBy i).session.map (Phase.delivered prost (f.seenBy i).log)).getD []).take
            (f.consumers i).taken.length = (f.consumers i).received ++ (f.consumers i).taken :=
        congrArg _ (List.prefix_iff_eq_take.1 h.consumer.taken_prefix).symm
      rw [h.daemon, Daemon.step, htaken]
      exact Option.map_eq_some_iff.2 ⟨r, hlast, rfl⟩
    · exact hnone rfl (h.of_ne hij _)

/-- The daemon itself has no consumer yet. -/
theorem shows_start {args : RelayArgs} {retention : ℕ} {witnesses : Reply}
    {archive : Option BlockArchive} {d : Daemon}
    (h : Daemon.start args retention witnesses archive = .ok (some d)) :
    Shows prost size i (.ofDaemon d) d := by
  obtain ⟨relay?, -, hmk⟩ := Decode.map_eq_ok.1 h
  obtain ⟨relay, rfl, rfl⟩ := Option.map_eq_some_iff.1 hmk
  exact ⟨rfl, .idle⟩

/-- What a consumer holds is what the daemon's own consumer is given, as far as it took it. -/
theorem Shows.holds_prefix {d : Daemon} (h : Shows prost size i f d) :
    (f.consumers i).received ++ (f.consumers i).taken <+: d.delivered prost := by
  rw [h.daemon]
  exact (List.prefix_append_right_inj _).2 h.consumer.taken_prefix

/-- A run of the fleet is one of the daemon for each consumer. -/
theorem shows_run {args : RelayArgs} {retention : ℕ} {witnesses : Reply}
    {archive : Option BlockArchive} {d₀ : Daemon} {acts : List FleetAction}
    (hstart : Daemon.start args retention witnesses archive = .ok (some d₀))
    (hrun : Run.exec (Fleet.step p sha256 recover prost size) (.ofDaemon d₀) acts = some f) :
    ∃ dacts d, dacts.filterMap DaemonAction.ofTask = acts.filterMap FleetAction.ofTask ∧
      Run.exec (Daemon.step p sha256 recover prost) d₀ dacts = some d ∧
      Shows prost size i f d :=
  Run.exec_simulates_visible (fun _ _ _ _ hshows hs => hshows.step hs) (shows_start hstart) hrun

/-- What a step does to one consumer: nothing, or it leaves it with no status, or it is a poll
of its stream. -/
theorem consumer_of_step {a : FleetAction} (hok : (f.consumers i).Ok prost size f.daemon.log)
    (hs : f.step p sha256 recover prost size a = some f') :
    f'.consumers i = f.consumers i ∨ (f'.consumers i).status = none ∨
      a = .pull i ∧ (f.consumers i).pull prost size f.daemon.log = some (f'.consumers i) := by
  have hset : ∀ (j : ℕ) (c : Consumer),
      (f.setConsumer j c).consumers i = f.consumers i ∨
        i = j ∧ (f.setConsumer j c).consumers i = c := by
    intro j c
    by_cases hij : i = j
    · exact .inr ⟨hij, by rw [hij]; exact Function.update_self _ _ _⟩
    · exact .inl (Function.update_of_ne hij _ _)
  cases a with
  | task act =>
    rw [Fleet.step, Option.ite_none_left_eq_some] at hs
    obtain ⟨daemon, -, rfl⟩ := Option.map_eq_some_iff.1 hs.2
    exact .inl rfl
  | subscribe =>
    rw [Fleet.step, Option.ite_none_left_eq_some] at hs
    obtain ⟨daemon, -, rfl⟩ := Option.map_eq_some_iff.1 hs.2
    exact .inl rfl
  | archiver =>
    rw [Fleet.step, Option.ite_none_right_eq_some] at hs
    obtain ⟨x, -, hs⟩ := Option.bind_eq_some_iff.1 hs.2
    obtain ⟨daemon, -, rfl⟩ := Option.map_eq_some_iff.1 hs
    exact .inl rfl
  | connect j req =>
    rw [Fleet.step, Option.ite_none_right_eq_some] at hs
    obtain rfl := Option.some.inj hs.2
    rcases hset j (.calling f.daemon.log req (f.consumers j).received) with hsame | ⟨rfl, hnew⟩
    · exact .inl hsame
    · rw [hnew]
      exact .inr (.inl rfl)
  | advance j =>
    obtain ⟨pipeline, -, hs⟩ := Option.bind_eq_some_iff.1 hs
    obtain ⟨s', hs', rfl⟩ := Option.map_eq_some_iff.1 hs
    rcases hset j { f.consumers j with session := some s' } with hsame | ⟨rfl, hnew⟩
    · exact .inl hsame
    · obtain ⟨s, hsession, hadv⟩ := Option.bind_eq_some_iff.1 hs'
      rw [hnew]
      exact .inr (.inl (hok.status_of_advance hsession hadv))
  | pull j =>
    obtain ⟨c, hpull, rfl⟩ := Option.map_eq_some_iff.1 hs
    rcases hset j c with hsame | ⟨rfl, hnew⟩
    · exact .inl hsame
    · rw [hnew]
      exact .inr (.inr ⟨rfl, hpull⟩)
  | reconnect j =>
    obtain ⟨c, hback, rfl⟩ := Option.map_eq_some_iff.1 hs
    rcases hset j c with hsame | ⟨rfl, hnew⟩
    · exact .inl hsame
    · obtain ⟨r, -, rfl⟩ := Option.map_eq_some_iff.1 hback
      rw [hnew]
      exact .inr (.inl rfl)

/-- **How a call ended.**  If a consumer's call has ended, some poll of the run ended it: before
the poll it had no status, it has taken nothing since, and its status counts what it missed on
the hub of that moment. -/
theorem ended_of_run {args : RelayArgs} {retention : ℕ} {witnesses : Reply}
    {archive : Option BlockArchive} {d₀ : Daemon} {acts : List FleetAction} {status : Status}
    (hstart : Daemon.start args retention witnesses archive = .ok (some d₀))
    (hrun : Run.exec (Fleet.step p sha256 recover prost size) (.ofDaemon d₀) acts = some f)
    (hstatus : (f.consumers i).status = some status) :
    ∃ pre post g, acts = pre ++ .pull i :: post ∧
      Run.exec (Fleet.step p sha256 recover prost size) (.ofDaemon d₀) pre = some g ∧
      (f.consumers i).Lagged prost size g.daemon.log (g.consumers i) status := by
  induction acts using List.reverseRecOn generalizing f with
  | nil =>
    obtain rfl := Option.some.inj hrun
    cases hstatus
  | append_singleton acts a ih =>
    obtain ⟨g, hg, hlast⟩ := Run.exec_append_eq_some.1 hrun
    obtain ⟨f', hs, hnil⟩ := Run.exec_cons_eq_some.1 hlast
    obtain rfl := Option.some.inj hnil
    obtain ⟨_, _, _, _, hshows⟩ := shows_run (i := i) hstart hg
    rcases consumer_of_step hshows.consumer hs with hsame | hnone | ⟨rfl, hpull⟩
    · rw [hsame] at hstatus ⊢
      obtain ⟨pre, post, g', rfl, hg', hrest⟩ := ih hg hstatus
      exact ⟨pre, post ++ [a], g', by rw [List.append_assoc, List.cons_append], hg', hrest⟩
    · rw [hnone] at hstatus
      cases hstatus
    · exact ⟨acts, [], g, rfl, hg, hshows.consumer.lagged_of_pull hpull hstatus⟩

/-- A consumer pulls by itself. -/
theorem exec_pulls {c' : Consumer} (m : ℕ)
    (h : Run.exec (fun c (_ : Unit) => c.pull prost size f.daemon.log) (f.consumers i)
      (List.replicate m ()) = some c') :
    Run.exec (Fleet.step p sha256 recover prost size) f (List.replicate m (.pull i)) =
      some (f.setConsumer i c') := by
  induction m generalizing f with
  | zero =>
    obtain rfl := Option.some.inj h
    refine congrArg some ?_
    rw [setConsumer, Function.update_eq_self]
  | succ m ih =>
    obtain ⟨c₁, hpull, hexec⟩ := Run.exec_cons_eq_some.1 h
    have hself : (f.setConsumer i c₁).consumers i = c₁ := Function.update_self _ _ _
    have hrest := ih (f := f.setConsumer i c₁) (by rw [hself]; exact hexec)
    have hstep : f.step p sha256 recover prost size (.pull i) = some (f.setConsumer i c₁) :=
      Option.map_eq_some_iff.2 ⟨c₁, hpull, rfl⟩
    refine Run.exec_cons_eq_some.2 ⟨_, hstep, hrest.trans (congrArg some ?_)⟩
    rw [setConsumer, setConsumer, setConsumer, Function.update_idem]

end Fleet

/-- **Each consumer has the daemon for itself.**  Take any run of the daemon with any number of
consumers, on a hub that keeps `size` outputs.  For each consumer there is a run of the daemon
with that consumer alone, in which the tasks take the same steps in the same order.  It ends in
the same state, and the consumer holds what it delivered, up to where it is.  Its call ends with
an error only at a poll of the run that found the hub had forgotten what comes next, and the
error counts exactly the outputs between what the consumer had received and the oldest one that
the hub kept then. -/
theorem fleet_refines_daemon (p : Protocol.PayloadDecoders)
    (sha256 : List UInt8 → List.Vector UInt8 32)
    (recover : List.Vector UInt8 32 → List UInt8 → UInt8 → Option Address) (prost : Prost)
    (size : ℕ) (args : RelayArgs) (retention : ℕ) (witnesses : Reply)
    (archive : Option BlockArchive) (d₀ : Daemon) (f : Fleet) (acts : List FleetAction) (i : ℕ)
    (hstart : Daemon.start args retention witnesses archive = .ok (some d₀))
    (hrun : Run.exec (Fleet.step p sha256 recover prost size) (.ofDaemon d₀) acts = some f) :
    ∃ dacts d, dacts.filterMap DaemonAction.ofTask = acts.filterMap FleetAction.ofTask ∧
      Run.exec (Daemon.step p sha256 recover prost) d₀ dacts = some d ∧ d = f.seenBy i ∧
      (f.consumers i).received ++ (f.consumers i).taken <+: d.delivered prost ∧
      ∀ status, (f.consumers i).status = some status →
        ∃ pre post g, acts = pre ++ .pull i :: post ∧
          Run.exec (Fleet.step p sha256 recover prost size) (.ofDaemon d₀) pre = some g ∧
          (f.consumers i).Lagged prost size g.daemon.log (g.consumers i) status := by
  obtain ⟨dacts, d, hdacts, hexec, hshows⟩ := Fleet.shows_run (i := i) hstart hrun
  exact ⟨dacts, d, hdacts, hexec, hshows.daemon, hshows.holds_prefix,
    fun _ hstatus => Fleet.ended_of_run hstart hrun hstatus⟩

/-- Two consumers of the live stream on a hub that keeps one output: the second pulls after each
broadcast, the first only after both. -/
def oneLags : List FleetAction :=
  [.subscribe, .connect 0 ⟨0, [], 0, false, []⟩, .advance 0, .connect 1 ⟨0, [], 0, false, []⟩,
    .advance 1, .task (.worker (.solidity signedReplies)), .task (.worker (.head signedReplies)),
    .task (.worker .feed), .task (.worker .send), .task (.worker .feed), .task (.worker .send),
    .task .pump, .pull 1, .archiver, .task .pump, .pull 0, .pull 1, .archiver]

/-- The first is told that it missed one output, and the second has both. -/
theorem fleet_refines_daemon_oneLags :
    ∃ d₀ f, Daemon.start firehoseArgs 0 (some oneWitness) (some .empty) = .ok (some d₀) ∧
      Run.exec (Fleet.step noPayloads rawDigest (fun _ _ _ => some (Address.fill 0x41)) prostBlock
        1) (.ofDaemon d₀) oneLags = some f ∧
      (f.consumers 0).status = some (laggedBy 1) ∧ (f.consumers 1).taken.length = 2 ∧
      ∀ i, ∃ dacts d, dacts.filterMap DaemonAction.ofTask = oneLags.filterMap FleetAction.ofTask ∧
        Run.exec (Daemon.step noPayloads rawDigest (fun _ _ _ => some (Address.fill 0x41))
          prostBlock) d₀ dacts = some d ∧ d = f.seenBy i ∧
        (f.consumers i).received ++ (f.consumers i).taken <+: d.delivered prostBlock ∧
        ∀ status, (f.consumers i).status = some status →
          ∃ pre post g, oneLags = pre ++ .pull i :: post ∧
            Run.exec (Fleet.step noPayloads rawDigest (fun _ _ _ => some (Address.fill 0x41))
              prostBlock 1) (.ofDaemon d₀) pre = some g ∧
            (f.consumers i).Lagged prostBlock 1 g.daemon.log (g.consumers i) status := by
  have hok : ((Daemon.start firehoseArgs 0 (some oneWitness) (some .empty)).toOption.join.bind
      fun d₀ => (Run.exec (Fleet.step noPayloads rawDigest
        (fun _ _ _ => some (Address.fill 0x41)) prostBlock 1) (.ofDaemon d₀) oneLags).map fun f =>
          ((f.consumers 0).status, (f.consumers 1).taken.length)) = some (some (laggedBy 1), 2) := by
    decide +kernel
  obtain ⟨d₀, hstart, hok⟩ := Option.bind_eq_some_iff.1 hok
  obtain ⟨f, hrun, hends⟩ := Option.map_eq_some_iff.1 hok
  obtain ⟨hlags, htakes⟩ := Prod.mk.inj hends
  have hstart' := Decode.toOption_join_eq_some.1 hstart
  exact ⟨d₀, f, hstart', hrun, hlags, htakes, fun i => fleet_refines_daemon noPayloads rawDigest
    (fun _ _ _ => some (Address.fill 0x41)) prostBlock 1 firehoseArgs 0 (some oneWitness)
    (some .empty) d₀ f oneLags i hstart' hrun⟩

/-- **No consumer is held up.**  In every state of the fleet, a consumer whose call streams can
pull, with nothing else moving and nobody else noticing, until it has all that its call delivers;
unless the hub forgot what comes next, and then it is told how much. -/
theorem fleet_consumer_drains (p : Protocol.PayloadDecoders)
    (sha256 : List UInt8 → List.Vector UInt8 32)
    (recover : List.Vector UInt8 32 → List UInt8 → UInt8 → Option Address) (prost : Prost)
    (size : ℕ) (args : RelayArgs) (retention : ℕ) (witnesses : Reply)
    (archive : Option BlockArchive) (d₀ : Daemon) (f : Fleet) (acts : List FleetAction) (i pos : ℕ)
    (start : Option ℕ) (backfill : List Response)
    (hstart : Daemon.start args retention witnesses archive = .ok (some d₀))
    (hrun : Run.exec (Fleet.step p sha256 recover prost size) (.ofDaemon d₀) acts = some f)
    (hsession : (f.consumers i).session = some (.streaming pos start backfill))
    (hstatus : (f.consumers i).status = none) :
    ∃ m c', Run.exec (Fleet.step p sha256 recover prost size) f (List.replicate m (.pull i)) =
        some (f.setConsumer i c') ∧
      (f.consumers i).Drained prost size f.daemon.log c' := by
  obtain ⟨_, _, _, _, hshows⟩ := Fleet.shows_run (i := i) hstart hrun
  obtain ⟨m, c', hexec, hdrained⟩ := hshows.consumer.drain hsession hstatus
  exact ⟨m, c', Fleet.exec_pulls m hexec, hdrained⟩

/-- Before the last pulls the second consumer is one output behind, which the hub still keeps. -/
theorem fleet_consumer_drains_oneLags :
    ∃ d₀ f, Daemon.start firehoseArgs 0 (some oneWitness) (some .empty) = .ok (some d₀) ∧
      Run.exec (Fleet.step noPayloads rawDigest (fun _ _ _ => some (Address.fill 0x41)) prostBlock
        1) (.ofDaemon d₀) (oneLags.take 15) = some f ∧
      f.daemon.log.length = 2 ∧ (f.consumers 1).next = 1 ∧
      ∃ m c', Run.exec (Fleet.step noPayloads rawDigest (fun _ _ _ => some (Address.fill 0x41))
          prostBlock 1) f (List.replicate m (.pull 1)) = some (f.setConsumer 1 c') ∧
        (f.consumers 1).Drained prostBlock 1 f.daemon.log c' := by
  have hok : ((Daemon.start firehoseArgs 0 (some oneWitness) (some .empty)).toOption.join.bind
      fun d₀ => (Run.exec (Fleet.step noPayloads rawDigest
        (fun _ _ _ => some (Address.fill 0x41)) prostBlock 1) (.ofDaemon d₀)
          (oneLags.take 15)).bind fun f =>
            ((f.consumers 1).pull prostBlock 1 f.daemon.log).map fun _ =>
              (f.daemon.log.length, (f.consumers 1).next)) = some (2, 1) := by
    decide +kernel
  obtain ⟨d₀, hstart, hok⟩ := Option.bind_eq_some_iff.1 hok
  obtain ⟨f, hrun, hok⟩ := Option.bind_eq_some_iff.1 hok
  obtain ⟨c', hpull, hends⟩ := Option.map_eq_some_iff.1 hok
  obtain ⟨hlog, hnext⟩ := Prod.mk.inj hends
  obtain ⟨pos, start, backfill, hsession, hstatus⟩ := Consumer.streaming_of_pull hpull
  have hstart' := Decode.toOption_join_eq_some.1 hstart
  exact ⟨d₀, f, hstart', hrun, hlog, hnext, fleet_consumer_drains noPayloads rawDigest
    (fun _ _ _ => some (Address.fill 0x41)) prostBlock 1 firehoseArgs 0 (some oneWitness)
    (some .empty) d₀ f (oneLags.take 15) 1 pos start backfill hstart' hrun hsession hstatus⟩

end Firehose
end Lightcycle
