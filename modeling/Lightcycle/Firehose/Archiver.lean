/-
# The archiver behind a lagging subscription

`run_archiver` of `crates/lightcycle-firehose/src/archiver.rs`: a subscriber of the hub
that writes every `Irreversible` it receives to the archive.  A `Lagged(n)` says that the
next `n` outputs were overwritten in the channel; the loop counts them and goes on.  All
archive writes succeed here; logging and metrics have no counterpart.

`Feed` is the engine, the broadcast and the archiver: the engine's outputs wait in `queue`,
and `seen` is what the archiver is past, each output with whether it was received.  The
engine announces a block once, and every height it announces is above those before
(`Rising`), so what the archiver missed never comes again: after an `Irreversible` the
archive is complete exactly when what was missed had been archived before
(`archive_complete_iff`).
-/

import Lightcycle.Firehose.Encode
import Lightcycle.Store.Archive
import Lightcycle.Relayer.Announce

namespace Lightcycle
namespace Firehose

open Relayer Store

/-- What `recv` of a broadcast receiver returns. -/
inductive Received where
  | ok (o : Output)
  | lagged (skipped : ℕ)
  | closed

/-- The archive after one round of the loop that does not end it. -/
def archiveOutput (prost : Prost) (archive : BlockArchive) : Output → BlockArchive
  | .irreversible sb =>
    archive.put sb.block.height sb.block.blockId
      (prost.encodeToVec (encodeBlock sb.block sb.finality))
  | .new _ => archive
  | .undo _ => archive
  | .forkObserved .. => archive
  | .forkResolved .. => archive

/-- `run_archiver`: the archive after the results of `recv`, up to `Closed`. -/
def runArchiver (prost : Prost) : List Received → BlockArchive → BlockArchive
  | [], archive => archive
  | .ok o :: rest, archive => runArchiver prost rest (archiveOutput prost archive o)
  | .lagged _ :: rest, archive => runArchiver prost rest archive
  | .closed :: _, archive => archive

/-- The message of an `Irreversible`. -/
def announcement : Output → Option StreamableBlock
  | .irreversible sb => some sb
  | _ => none

/-- The `Irreversible` messages, in order. -/
def announcements (outs : List Output) : List StreamableBlock := outs.filterMap announcement

/-- The announcements are those of either part. -/
theorem announcements_append (outs outs' : List Output) :
    announcements (outs ++ outs') = announcements outs ++ announcements outs' :=
  List.filterMap_append

/-- The blocks announced are those of the announcements. -/
theorem irreversibles_eq_map (outs : List Output) :
    irreversibles outs = (announcements outs).map (·.block) := by
  rw [irreversibles, announcements, List.map_filterMap]
  refine List.filterMap_congr fun o _ => ?_
  cases o <;> rfl

/-- The archive holds the block of the message, as the archiver writes it. -/
def Holds (prost : Prost) (archive : BlockArchive) (sb : StreamableBlock) : Prop :=
  archive.get sb.block.height =
    .ok (some (sb.block.blockId, prost.encodeToVec (encodeBlock sb.block sb.finality)))

instance (prost : Prost) (archive : BlockArchive) (sb : StreamableBlock) :
    Decidable (Holds prost archive sb) := inferInstanceAs (Decidable (_ = _))

/-! ### What the archive holds -/

/-- The row that was put is read back. -/
theorem get_put_self (a : BlockArchive) (height : ℕ) (id : BlockId) (payload : List UInt8) :
    (a.put height id payload).get height = .ok (some (id, payload)) := by
  have hget : (a.blocks.insert height (packValue id payload)).get? height =
      some (packValue id payload) := by
    rw [SortedMap.get?_eq_some, SortedMap.mem_insert]
    exact Or.inl rfl
  rw [BlockArchive.get, BlockArchive.put, hget]
  simp only [unpackValue_packValue]
  rfl

/-- The rows at other heights are read as before. -/
theorem get_put_of_ne (a : BlockArchive) {height k : ℕ} (id : BlockId) (payload : List UInt8)
    (h : k ≠ height) : (a.put height id payload).get k = a.get k := by
  have hget : (a.blocks.insert height (packValue id payload)).get? k = a.blocks.get? k := by
    refine Option.ext fun v => ?_
    rw [SortedMap.get?_eq_some, SortedMap.get?_eq_some, SortedMap.mem_insert]
    constructor
    · rintro (hkv | ⟨hkv, -⟩)
      · exact absurd (Prod.mk.inj hkv).1 h
      · exact hkv
    · exact fun hkv => Or.inr ⟨hkv, h⟩
  rw [BlockArchive.get, BlockArchive.put, hget, BlockArchive.get]

/-- An output of another height leaves the row alone. -/
theorem get_archiveOutput_of_ne (prost : Prost) (a : BlockArchive) {o : Output} {k : ℕ}
    (h : ∀ sb, announcement o = some sb → sb.block.height ≠ k) :
    (archiveOutput prost a o).get k = a.get k := by
  cases o with
  | irreversible sb => exact get_put_of_ne a _ _ (h sb rfl).symm
  | _ => rfl

/-! ### The engine, the broadcast and the archiver -/

/-- The engine, the outputs broadcast that the archiver has not come to, those it is past
with whether it received them, and the archive. -/
structure Feed where
  engine : ReorgEngine
  queue : List Output
  seen : List (Output × Bool)
  archive : BlockArchive

/-- A step of the engine or of the archiver. -/
inductive FeedAction where
  | call (c : Call)
  | recv
  | lagged (skipped : ℕ)

namespace Feed

variable (prost : Prost)

/-- One step; `none` when there is nothing to receive or to skip. -/
def step (w : Feed) : FeedAction → Option Feed
  | .call c => (w.engine.call c).map fun r => { w with engine := r.1, queue := w.queue ++ r.2 }
  | .recv =>
    match w.queue with
    | [] => none
    | o :: rest => some { w with queue := rest, seen := w.seen ++ [(o, true)]
                                 archive := runArchiver prost [.ok o] w.archive }
  | .lagged skipped =>
    if skipped ≤ w.queue.length then
      some { w with queue := w.queue.drop skipped
                    seen := w.seen ++ (w.queue.take skipped).map (·, false)
                    archive := runArchiver prost [.lagged skipped] w.archive }
    else none

/-- A fresh engine, and the archive as an earlier run left it. -/
def init (engine : ReorgEngine) (archive : BlockArchive) : Feed := ⟨engine, [], [], archive⟩

/-- Everything the engine has emitted. -/
def emitted (w : Feed) : List Output := w.seen.map Prod.fst ++ w.queue

/-- The announcements among outputs, with whether they were received. -/
def pastOf (seen : List (Output × Bool)) : List (StreamableBlock × Bool) :=
  seen.filterMap fun x => (announcement x.1).map (·, x.2)

/-- The announcements the archiver is past. -/
def past (w : Feed) : List (StreamableBlock × Bool) := pastOf w.seen

/-- The announcements the archiver missed. -/
def missed (w : Feed) : List StreamableBlock :=
  announcements ((w.seen.filter fun x => !x.2).map Prod.fst)

variable {prost} {w w' : Feed} {archive₀ : BlockArchive}

variable (prost) in
/-- What a step does, when there is something to receive or to skip. -/
inductive Moves (w : Feed) : FeedAction → Feed → Prop
  | call {c : Call} {e' : ReorgEngine} {out : List Output}
    (hcall : w.engine.call c = some (e', out)) :
    Moves w (.call c) { w with engine := e', queue := w.queue ++ out }
  | recv {o : Output} {rest : List Output} (hq : w.queue = o :: rest) :
    Moves w .recv { w with queue := rest, seen := w.seen ++ [(o, true)]
                           archive := archiveOutput prost w.archive o }
  | lagged {skipped : ℕ} (hle : skipped ≤ w.queue.length) :
    Moves w (.lagged skipped) { w with queue := w.queue.drop skipped
                                       seen := w.seen ++ (w.queue.take skipped).map (·, false) }

/-- **A step is one of its moves.** -/
theorem moves_of_step {a : FeedAction} (hs : w.step prost a = some w') : w.Moves prost a w' := by
  cases a with
  | call c =>
    obtain ⟨r, hcall, rfl⟩ := Option.map_eq_some_iff.1 hs
    exact .call hcall
  | recv =>
    simp only [Feed.step] at hs
    split at hs
    · cases hs
    · rename_i hq
      obtain rfl := Option.some.inj hs
      exact .recv hq
  | lagged skipped =>
    simp only [Feed.step] at hs
    split_ifs at hs with hle
    obtain rfl := Option.some.inj hs
    exact .lagged hle

/-- An announcement was missed when it was passed without being received. -/
theorem mem_missed {sb : StreamableBlock} : sb ∈ w.missed ↔ (sb, false) ∈ w.past := by
  simp only [missed, past, pastOf, announcements, List.mem_filterMap, List.mem_map, List.mem_filter]
  constructor
  · rintro ⟨o, ⟨x, ⟨hx, hf⟩, rfl⟩, ho⟩
    refine ⟨x, hx, ?_⟩
    rw [ho]
    simpa using hf
  · rintro ⟨x, hx, hs⟩
    obtain ⟨sb', hsb, heq⟩ := Option.map_eq_some_iff.1 hs
    obtain ⟨rfl, hf⟩ := Prod.mk.inj heq
    exact ⟨x.1, ⟨x, ⟨hx, by simp [hf]⟩, rfl⟩, hsb⟩

/-- What was passed is what either part passed. -/
theorem pastOf_append (seen seen' : List (Output × Bool)) :
    pastOf (seen ++ seen') = pastOf seen ++ pastOf seen' := List.filterMap_append

/-- Of one output received, its announcement was. -/
theorem mem_pastOf_received {o : Output} {x : StreamableBlock × Bool} :
    x ∈ pastOf [(o, true)] ↔ announcement o = some x.1 ∧ x.2 = true := by
  rw [pastOf, List.mem_filterMap]
  constructor
  · rintro ⟨y, hy, hs⟩
    obtain rfl := List.mem_singleton.1 hy
    obtain ⟨sb, hsb, rfl⟩ := Option.map_eq_some_iff.1 hs
    exact ⟨hsb, rfl⟩
  · rintro ⟨hsb, htrue⟩
    refine ⟨(o, true), List.mem_singleton_self _, ?_⟩
    rw [hsb, Option.map_some, ← htrue]

/-- Of outputs skipped, no announcement was received. -/
theorem snd_of_mem_pastOf_skipped {os : List Output} {x : StreamableBlock × Bool}
    (hx : x ∈ pastOf (os.map (·, false))) : x.2 = false := by
  obtain ⟨y, hy, hs⟩ := List.mem_filterMap.1 hx
  obtain ⟨o, -, rfl⟩ := List.mem_map.1 hy
  obtain ⟨sb, -, rfl⟩ := Option.map_eq_some_iff.1 hs
  rfl

/-- The announcements passed, received or not, are those of the outputs passed. -/
theorem map_fst_past (w : Feed) : w.past.map Prod.fst = announcements (w.seen.map Prod.fst) := by
  rw [past, pastOf, announcements, List.filterMap_map, List.map_filterMap]
  refine List.filterMap_congr fun x _ => ?_
  simp [Function.comp_def]

/-- What holds along a run: the heights announced rise, what was received is held, and at
every other height the archive is as it was. -/
structure Ok (prost : Prost) (archive₀ : BlockArchive) (w : Feed) : Prop where
  wf : w.engine.Wf
  rising : w.engine.Rising w.emitted
  held : ∀ sb, (sb, true) ∈ w.past → Holds prost w.archive sb
  rest : ∀ k, (∀ sb, (sb, true) ∈ w.past → sb.block.height ≠ k) → w.archive.get k = archive₀.get k

/-- The heights announced rise. -/
theorem Ok.pairwise (h : w.Ok prost archive₀) :
    (announcements w.emitted).Pairwise fun a b => a.block.height < b.block.height := by
  have hpw := h.rising.rising
  rw [irreversibles_eq_map, List.pairwise_map] at hpw
  exact hpw

/-- What the archiver has not come to is above what it is past. -/
theorem Ok.lt_queue (h : w.Ok prost archive₀) {x : StreamableBlock × Bool} (hx : x ∈ w.past)
    {sb : StreamableBlock} (hsb : sb ∈ announcements w.queue) :
    x.1.block.height < sb.block.height := by
  have hpw := h.pairwise
  rw [emitted, announcements_append, List.pairwise_append] at hpw
  refine hpw.2.2 x.1 ?_ sb hsb
  rw [← map_fst_past]
  exact List.mem_map_of_mem hx

/-- Two announcements the archiver is past at one height are one. -/
theorem Ok.eq_of_height (h : w.Ok prost archive₀) {x y : StreamableBlock × Bool} (hx : x ∈ w.past)
    (hy : y ∈ w.past) (hxy : x.1.block.height = y.1.block.height) : x = y := by
  have hpw := h.pairwise
  rw [emitted, announcements_append, List.pairwise_append, ← map_fst_past, List.pairwise_map]
    at hpw
  have hnd : (w.past.map fun x => x.1.block.height).Nodup :=
    List.pairwise_map.2 (hpw.1.imp fun hlt => by omega)
  exact List.inj_on_of_nodup_map hnd hx hy hxy

/-- At the height of what was missed the archive is as it was. -/
theorem Ok.get_missed (h : w.Ok prost archive₀) {sb : StreamableBlock}
    (hsb : (sb, false) ∈ w.past) :
    w.archive.get sb.block.height = archive₀.get sb.block.height := by
  refine h.rest _ fun sb' hsb' heq => ?_
  have := congrArg Prod.snd (h.eq_of_height hsb' hsb heq)
  cases this

/-- The archiver starts in order, over any rows. -/
theorem ok_init {config : ReorgConfig} {engine : ReorgEngine}
    (h : ReorgEngine.new config = some engine) (archive₀ : BlockArchive) :
    (init engine archive₀).Ok prost archive₀ where
  wf := ReorgEngine.wf_new h
  rising := engine.rising_nil
  held := by simp [init, past, pastOf]
  rest _ _ := rfl

/-- The archiver receives the next output. -/
theorem Ok.received (h : w.Ok prost archive₀) {o : Output} {rest : List Output}
    (hq : w.queue = o :: rest) :
    Ok prost archive₀ { w with queue := rest, seen := w.seen ++ [(o, true)]
                               archive := archiveOutput prost w.archive o } := by
  have hlt : ∀ x ∈ w.past, ∀ sb, announcement o = some sb →
      x.1.block.height < sb.block.height := by
    intro x hx sb hsb
    refine h.lt_queue hx ?_
    rw [hq]
    exact List.mem_filterMap.2 ⟨o, List.mem_cons_self .., hsb⟩
  refine ⟨h.wf, ?_, fun sb hsb => ?_, fun k hk => ?_⟩
  · have hrising := h.rising
    rw [emitted, hq] at hrising
    rw [emitted, List.map_append, List.append_assoc]
    exact hrising
  · rw [past, pastOf_append] at hsb
    rcases List.mem_append.1 hsb with hsb | hsb
    · rw [Holds, get_archiveOutput_of_ne]
      · exact h.held sb hsb
      · exact fun sb' hsb' => Nat.ne_of_gt (hlt _ hsb sb' hsb')
    · obtain ⟨hann, -⟩ := mem_pastOf_received.1 hsb
      cases o with
      | irreversible t =>
        obtain rfl := Option.some.inj hann
        exact get_put_self ..
      | _ => cases hann
  · rw [past, pastOf_append] at hk
    rw [get_archiveOutput_of_ne]
    · exact h.rest k fun sb hsb => hk sb (List.mem_append_left _ hsb)
    · exact fun sb hsb => hk sb (List.mem_append_right _ (mem_pastOf_received.2 ⟨hsb, rfl⟩))

/-- The archiver is told that it missed some outputs. -/
theorem Ok.skipped (h : w.Ok prost archive₀) (skipped : ℕ) :
    Ok prost archive₀ { w with queue := w.queue.drop skipped
                               seen := w.seen ++ (w.queue.take skipped).map (·, false) } := by
  have hiff : ∀ sb, (sb, true) ∈ pastOf (w.seen ++ (w.queue.take skipped).map (·, false)) ↔
      (sb, true) ∈ w.past := by
    intro sb
    rw [pastOf_append, List.mem_append]
    refine ⟨fun hsb => hsb.resolve_right fun hsk => ?_, Or.inl⟩
    cases snd_of_mem_pastOf_skipped hsk
  refine ⟨h.wf, ?_, fun sb hsb => h.held sb ((hiff sb).1 hsb),
    fun k hk => h.rest k fun sb hsb => hk sb ((hiff sb).2 hsb)⟩
  have hfst : (w.queue.take skipped).map (Prod.fst ∘ fun o => (o, false)) =
      w.queue.take skipped := List.map_id' _
  rw [emitted, List.map_append, List.map_map, List.append_assoc, hfst, List.take_append_drop]
  exact h.rising

/-- **One step of the feed.** The announcements of the run are those passed and those under
way, and the archive holds the rows of the ones received over those it started with. -/
theorem Ok.step {a : FeedAction} (h : w.Ok prost archive₀) (hs : w.step prost a = some w') :
    w'.Ok prost archive₀ := by
  cases moves_of_step hs with
  | call hcall =>
    have hstep := ReorgEngine.step_of_call h.wf hcall
    refine ⟨hstep.wf h.wf, ?_, h.held, h.rest⟩
    have := h.rising.step hstep
    rw [emitted, List.append_assoc] at this
    exact this
  | recv hq => exact h.received hq
  | lagged hle => exact h.skipped _

end Feed

/-- **When the archive recovers from lag.**  In every run of the engine, the broadcast and the
archiver, from any archive: once the archiver has processed an `Irreversible` at a height, the
archive holds every block announced at or below it exactly when it held from the start every
announcement the archiver missed. -/
theorem archive_complete_iff (prost : Prost) (config : ReorgConfig) (engine : ReorgEngine)
    (archive₀ : BlockArchive) (acts : List FeedAction) (w w' : Feed) (s : StreamableBlock)
    (rest : List Output) (hnew : ReorgEngine.new config = some engine)
    (hrun : Run.exec (Feed.step prost) (Feed.init engine archive₀) acts = some w)
    (hnext : w.queue = .irreversible s :: rest) (hrecv : w.step prost .recv = some w') :
    (∀ sb ∈ announcements w'.emitted, sb.block.height ≤ s.block.height →
      Holds prost w'.archive sb) ↔ ∀ sb ∈ w.missed, Holds prost archive₀ sb := by
  have hok : w.Ok prost archive₀ :=
    Run.exec_preserves (fun _ _ _ h hs => h.step hs) (Feed.ok_init hnew archive₀) hrun
  have hok' := hok.step hrecv
  have hpast : w'.past = w.past ++ [(s, true)] := by
    simp only [Feed.step, hnext, Option.some.injEq] at hrecv
    rw [← hrecv, Feed.past, Feed.pastOf_append]
    rfl
  have hmissed : ∀ sb, (sb, false) ∈ w.past → (Holds prost w'.archive sb ↔
      Holds prost archive₀ sb) := by
    intro sb hsb
    rw [Holds, Holds, hok'.get_missed (by rw [hpast]; exact List.mem_append_left _ hsb)]
  rw [Feed.emitted, announcements_append, ← Feed.map_fst_past, hpast]
  constructor
  · intro hall sb hsb
    have hsb' := Feed.mem_missed.1 hsb
    have hnext' : s ∈ announcements w.queue := by rw [hnext]; exact List.mem_cons_self ..
    have hlt := hok.lt_queue hsb' hnext'
    refine (hmissed sb hsb').1 (hall sb ?_ (Nat.le_of_lt hlt))
    exact List.mem_append_left _ (List.mem_map.2 ⟨(sb, false), by simp [hsb'], rfl⟩)
  · intro hheld sb hsb hle
    rcases List.mem_append.1 hsb with hsb | hsb
    · obtain ⟨⟨sb', got⟩, hx, rfl⟩ := List.mem_map.1 hsb
      cases got with
      | true => exact hok'.held sb' (by rw [hpast]; exact hx)
      | false =>
        rcases List.mem_append.1 hx with hx | hx
        · exact (hmissed sb' hx).2 (hheld sb' (Feed.mem_missed.2 hx))
        · cases List.mem_singleton.1 hx
    · -- what is still to come is higher
      have := hok'.lt_queue (x := (s, true)) (by rw [hpast]; simp) hsb
      simp only at this
      omega

/-- The engine announces two blocks; the archiver misses the first announcement. -/
def missesOne : List FeedAction :=
  [.call (.accept (synthAt 1 0 0) []), .call (.setSolidifiedHead 1),
    .call (.accept (synthAt 2 0 0) []), .call (.setSolidifiedHead 2), .recv, .lagged 1, .recv]

/-- **The archive need not recover from lag**: the block whose announcement was missed is not
in the archive when the next one is. -/
theorem archive_gap : ¬ ∀ (prost : Prost) (config : ReorgConfig) (engine : ReorgEngine)
    (acts : List FeedAction) (w w' : Feed) (s : StreamableBlock) (rest : List Output),
    ReorgEngine.new config = some engine →
    Run.exec (Feed.step prost) (Feed.init engine .empty) acts = some w →
    w.queue = .irreversible s :: rest → w.step prost .recv = some w' →
    ∀ sb ∈ announcements w'.emitted, sb.block.height ≤ s.block.height →
      Holds prost w'.archive sb := by
  intro h
  have hheld := h (prostOf []) ReorgConfig.default _ missesOne _ _ _ _ rfl rfl rfl rfl
    { step := .irreversible, block := ReorgEngine.bufferedBlock 0 (synthAt 1 0 0) []
      cursor := ⟨1, synthId 1 0⟩, finality := ⟨.finalized, some 1⟩ } (by decide) (by decide)
  revert hheld
  decide

/-- The hypotheses hold of the run in which it misses one. -/
theorem archive_complete_iff_missesOne :
    ∃ engine w w' s rest, ReorgEngine.new ReorgConfig.default = some engine ∧
      Run.exec (Feed.step (prostOf [])) (Feed.init engine .empty) missesOne = some w ∧
      w.queue = .irreversible s :: rest ∧ w.step (prostOf []) .recv = some w' ∧
      ((∀ sb ∈ announcements w'.emitted, sb.block.height ≤ s.block.height →
        Holds (prostOf []) w'.archive sb) ↔ ∀ sb ∈ w.missed, Holds (prostOf []) .empty sb) :=
  ⟨_, _, _, _, _, rfl, rfl, rfl, rfl,
    archive_complete_iff (prostOf []) ReorgConfig.default _ .empty missesOne _ _ _ _ rfl rfl rfl rfl⟩

end Firehose
end Lightcycle
