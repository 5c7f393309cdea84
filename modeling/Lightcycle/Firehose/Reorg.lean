/-
# A backfilled subscriber across a reorg

The responses delivered to a client drive a stack: `STEP_NEW` pushes, `STEP_UNDO` pops.
The backfill gives it the rows of the canonical chain up to the tip of the snapshot, parent
by parent, and from then on the live filter lets through only what is above that tip.  An
undo or a replacement at or below the tip never arrives, so what follows on the new branch
is delivered on top of a block that was undone.

The relayer is a writer and the client a reader that joins it in the middle
(`Lightcycle.Lib.Join`).  What the client receives fits its stack exactly when, whenever the
relayer broadcasts a `New` or an `Undo` above the tip, it was not above the tip when the
call subscribed and the last backfilled block is on its stack (`session_iff`), and on a
stack the client already has, when the first row is a child of its top.
-/

import Lightcycle.Firehose.Boundary
import Lightcycle.Firehose.Oracle
import Lightcycle.Lib.Join

namespace Lightcycle
namespace Firehose

open Relayer Store

/-! ### The client's stack -/

/-- A block as the client knows it, from the metadata of a response. -/
structure Shown where
  num : ℕ
  id : List UInt8
  parentId : List UInt8
deriving DecidableEq

/-- What the client is shown of a block. -/
def shown (b : BufferedBlock) : Shown := ⟨b.height, BlockId.hex b.blockId, BlockId.hex b.parentId⟩

/-- The block `b` names `t` as its parent. -/
def shownLink (b t : Shown) : Prop := b.parentId = t.id

instance : DecidableRel shownLink := fun _ _ => inferInstanceAs (Decidable (_ = _))

/-- What a response does to the client's stack. -/
def Response.event (r : Response) : Replay.Event Shown :=
  match r.metadata with
  | none => .keep
  | some m =>
    match r.step with
    | .stepNew => .push ⟨m.num, m.id, m.parentId⟩
    | .stepUndo => .pop ⟨m.num, m.id, m.parentId⟩
    | .stepFinal => .mark ⟨m.num, m.id, m.parentId⟩

variable {prost : Prost} {capacity : ℕ}

/-- A backfill from the cache pushes its blocks. -/
theorem map_event_cached (head : Option ℕ) (bs : List BufferedBlock) :
    (bs.map (cachedResponse prost head)).map Response.event = (bs.map shown).map .push := by
  rw [List.map_map, List.map_map]
  rfl

/-- **What arrives is what is above the backfill.** The live filter drops the outputs whose
height is at the backfill's last one or below, whatever their step. -/
theorem map_event_live {backfill : List Response} {last : ℕ}
    (hlast : lastBackfillHeight backfill = some last) (outs : List Output) :
    (Phase.live prost backfill outs).map Response.event =
      ((outs.map Output.event).map (Replay.Event.map shown)).filter
        (Replay.above Shown.num last) := by
  rw [live_of_some hlast]
  induction outs with
  | nil => rfl
  | cons o outs ih =>
    have hwired : ∀ (s : StreamableBlock) (step : ForkStep) (e : Replay.Event Shown),
        (streamableToResponse prost s step).event = e →
        Replay.above Shown.num last e = decide (last < s.block.height) →
        ((((s, step) :: wire outs).filter fun x => decide (last < x.1.block.height)).map fun x =>
            streamableToResponse prost x.1 x.2).map Response.event =
          (e :: (outs.map Output.event).map (Replay.Event.map shown)).filter
            (Replay.above Shown.num last) := by
      rintro s step e rfl habove
      by_cases hlt : last < s.block.height
      · rw [List.filter_cons_of_pos (by simpa using hlt),
          List.filter_cons_of_pos (by rw [habove]; simpa using hlt), List.map_cons, List.map_cons, ih]
      · rw [List.filter_cons_of_neg (by simpa using hlt),
          List.filter_cons_of_neg (by rw [habove]; simpa using hlt), ih]
    cases o with
    | new s => exact hwired s .stepNew _ rfl rfl
    | undo s => exact hwired s .stepUndo _ rfl rfl
    | irreversible s => exact hwired s .stepFinal _ rfl rfl
    | _ => exact ih

/-- A condition on every event since a moment is one on every output. -/
theorem throughout_outputs {fits : List Shown → Replay.Event Shown → Prop}
    {before since : List Output} :
    Replay.Throughout fits Replay.apply ((stackOf before).map shown)
        ((since.map Output.event).map (Replay.Event.map shown)) ↔
      ∀ pre o post, since = pre ++ o :: post →
        fits ((stackOf (before ++ pre)).map shown) (o.event.map shown) := by
  have hstack : ∀ pre : List Output,
      ((pre.map Output.event).map (Replay.Event.map shown)).foldl Replay.apply
        ((stackOf before).map shown) = (stackOf (before ++ pre)).map shown := by
    intro pre
    rw [stackOf_append]
    exact Replay.replay_map shown _ _
  constructor
  · rintro h pre o post rfl
    rw [← hstack pre]
    exact h _ _ ((post.map Output.event).map (Replay.Event.map shown)) (by simp)
  · intro h pre e post he
    rw [List.map_map] at he
    obtain ⟨pre', rest, rfl, rfl, hrest⟩ := List.map_eq_append_iff.1 he
    obtain ⟨o, post', rfl, rfl, rfl⟩ := List.map_eq_cons_iff.1 hrest
    rw [← List.map_map, hstack pre']
    exact h pre' o post' rfl

/-! ### The relayer as a writer -/

/-- A `New` or an `Undo` above the height. -/
def MovesAbove (top : ℕ) : Output → Prop
  | .new s => top < s.block.height
  | .undo s => top < s.block.height
  | _ => False

/-- What the consumer is shown moves above a height when the output does. -/
theorem movesAbove_event {top : ℕ} (o : Output) :
    Replay.MovesAbove Shown.num top (o.event.map shown) ↔ MovesAbove top o := by
  cases o with
  | _ => rfl

section Writer

variable {outs F : List Output} {mn mx : ℕ}

/-- Ids determine what the client is shown. -/
theorem shown_eq_of_id (h : Traced outs) {a b : BufferedBlock} (ha : a ∈ accepted outs)
    (hb : b ∈ accepted outs) (hid : (shown a).id = (shown b).id) : shown a = shown b := by
  obtain ⟨hheight, hparent⟩ := h.blockId a ha b hb (blockId_hex_injective hid)
  rw [shown, shown, hheight, hparent, blockId_hex_injective hid]

/-- A block is shown among others when one of them has its id. -/
theorem mem_map_shown (h : Traced outs) {r : BufferedBlock} (hr : r ∈ accepted outs)
    {st : List BufferedBlock} (hst : ∀ t ∈ st, t ∈ accepted outs) :
    shown r ∈ st.map shown ↔ ∃ t ∈ st, t.blockId = r.blockId := by
  rw [List.mem_map]
  refine exists_congr fun t => and_congr_right fun ht => ?_
  constructor
  · intro heq
    exact blockId_hex_injective (congrArg Shown.id heq)
  · intro heq
    exact shown_eq_of_id h (hst t ht) hr (congrArg BlockId.hex heq)

/-- What is cached is on the stack of what was fed. -/
theorem mem_stack_of_cached (h : Traced F) {k : ℕ} {id : BlockId} {b : BufferedBlock}
    (hget : (cacheOf capacity F).getByHeight k = some (id, b)) : b ∈ stackOf F ∧ b.height = k := by
  have hmem := SortedMap.get?_eq_some.1 hget
  rw [(h.cacheOf_eq capacity).1, windowOf] at hmem
  obtain ⟨t, ht, hentry⟩ := List.mem_map.1 hmem
  obtain ⟨hk, hrest⟩ := Prod.mk.inj hentry
  obtain ⟨-, rfl⟩ := Prod.mk.inj hrest
  exact ⟨List.mem_of_mem_take (List.mem_reverse.1 ht), hk⟩

/-- The cache of a traced run is filed by height. -/
theorem keyed_cacheOf (h : Traced F) : Keyed (cacheOf capacity F) := by
  intro x hx
  obtain ⟨hb, hheight⟩ := mem_stack_of_cached h (SortedMap.get?_eq_some.2 hx)
  exact ⟨hheight, hheight ▸ h.height_lt _ (mem_accepted_of_mem_stackOf hb)⟩

/-- The tip of the window is the top of the stack. -/
theorem top_of_window (h : Traced F) (hw : cacheWindow (cacheOf capacity F) = some (mn, mx)) :
    ∃ t st, stackOf F = t :: st ∧ t.height = mx := by
  have hmax := (cacheWindow_eq_some.1 hw).2
  rw [BlockCache.maxHeight, SortedMap.maxKey?, (h.cacheOf_eq capacity).1, windowOf, List.map_reverse,
    List.getLast?_reverse, List.head?_map] at hmax
  obtain ⟨x, hx, rfl⟩ := Option.map_eq_some_iff.1 hmax
  obtain ⟨t, ht, rfl⟩ := Option.map_eq_some_iff.1 hx
  obtain ⟨rest, hrest⟩ := List.head?_eq_some_iff.1 ht
  cases hst : stackOf F with
  | nil => rw [hst, List.take_nil] at hrest; cases hrest
  | cons u st =>
    rw [hst] at hrest
    cases hheld : held capacity F with
    | zero => rw [hheld, List.take_zero] at hrest; cases hrest
    | succ n =>
      rw [hheld, List.take_succ_cons] at hrest
      obtain ⟨rfl, -⟩ := List.cons.inj hrest
      exact ⟨u, st, rfl, rfl⟩

/-- A block pushed on an empty stack is the lowest ever, so it is not above a tip. -/
theorem first_le_top (h : Traced outs) (hF : F <+: outs)
    (hw : cacheWindow (cacheOf capacity F) = some (mn, mx)) {pre : List Output}
    {s : StreamableBlock} (hpre : pre ++ [.new s] <+: outs) (hempty : stackOf pre = []) :
    s.block.height ≤ mx := by
  obtain ⟨t, st, hst, rfl⟩ := top_of_window (h.of_isPrefix hF) hw
  rcases List.prefix_or_prefix_of_prefix hF hpre with hle | hle
  · rcases List.prefix_concat_iff.1 hle with heq | hle
    · rw [heq, Traced.stackOf_concat, hempty] at hst
      obtain ⟨rfl, -⟩ := List.cons.inj hst
      exact le_rfl
    · -- the stack was not empty at the snapshot, and has not been since
      obtain ⟨rest, rfl⟩ := hle
      have hrooted := (h.of_isPrefix ((List.prefix_append _ _).trans hpre)).rooted
      rw [List.map_append] at hrooted
      have hne := ((Replay.rooted_append.1 hrooted).2.getLast? (by
        rw [← stackOf, hst]
        exact List.cons_ne_nil _ _)).2
      rw [stackOf_append] at hempty
      exact absurd hempty hne
  · -- it is the bottom of the stack at the snapshot
    obtain ⟨rest, rfl⟩ := hle
    have hrooted := (h.of_isPrefix hF).rooted
    rw [List.map_append] at hrooted
    have hone : stackOf (pre ++ [.new s]) = [s.block] := by
      rw [Traced.stackOf_concat, hempty]
      rfl
    have hlast := ((Replay.rooted_append.1 hrooted).2.getLast? (by
      rw [← stackOf, hone]
      exact List.cons_ne_nil _ _)).1
    rw [← stackOf, ← stackOf_append, hst, hone, List.getLast?_singleton] at hlast
    have hpw := pairwise_height_of_isChain (h.of_isPrefix hF).isChain_height
    rw [hst, List.pairwise_cons] at hpw
    rcases List.mem_cons.1 (List.mem_of_getLast? hlast) with heq | hmem
    · rw [heq]
    · exact (hpw.1 _ hmem).le

/-- What holds of every output holds of those after the first `pos`, on the stack there. -/
theorem sound_since {link : BufferedBlock → BufferedBlock → Prop} {log : List Output}
    (h : Replay.Sound link [] (log.map Output.event)) (pos : ℕ) :
    Replay.Sound link (stackOf (log.take pos)) ((log.drop pos).map Output.event) := by
  rw [← List.take_append_drop pos log, List.map_append, Replay.sound_append] at h
  exact h.2

/-- **The relayer is a writer**, for a reader whose last row is an accepted block. -/
theorem writer_of_traced (h : Traced outs) (hF : F <+: outs)
    (hw : cacheWindow (cacheOf capacity F) = some (mn, mx)) {log : List Output} (hlog : log <+: outs)
    (pos : ℕ) {r : BufferedBlock} (hr : r ∈ accepted outs) :
    Replay.Writer shownLink Shown.num mx (shown r) ((stackOf (log.take pos)).map shown)
      (((log.drop pos).map Output.event).map (Replay.Event.map shown)) := by
  have hcut : log.take pos ++ log.drop pos = log := List.take_append_drop pos log
  have hp := sound_since (h.of_isPrefix hlog).parent pos
  have hh := sound_since (h.of_isPrefix hlog).height pos
  refine ⟨hp.map fun b t hbt => congrArg BlockId.hex hbt, hh.map fun b t hbt => hbt, ?_,
    fun b t hmem hbt hbr => ?_, throughout_outputs.2 fun pre o post hpost hempty b hob => ?_⟩
  · refine List.isChain_map _ |>.2 ?_
    exact (h.of_isPrefix ((List.take_prefix pos log).trans hlog)).isChain_height
  · obtain ⟨t', ht', rfl⟩ : ∃ t' ∈ accepted outs, shown t' = t := by
      rcases hmem with hmem | hmem
      · obtain ⟨t', ht', rfl⟩ := List.mem_map.1 hmem
        exact ⟨t', accepted_subset ((List.take_prefix pos log).trans hlog) t'
          (mem_accepted_of_mem_stackOf ht'), rfl⟩
      · obtain ⟨e, he, hpush⟩ := List.mem_map.1 hmem
        cases e with
        | push t' =>
          have hacc := mem_accepted_of_push he
          refine ⟨t', accepted_subset hlog t' ?_, Replay.Event.push.inj hpush⟩
          rw [← hcut, accepted_append]
          exact List.mem_append_right _ hacc
        | _ => cases hpush
    exact shown_eq_of_id h ht' hr (hbt.symm.trans hbr)
  · cases o with
    | new s =>
      obtain rfl := Replay.Event.push.inj hob
      have hpre : log.take pos ++ pre ++ [.new s] <+: log := by
        refine ⟨post, ?_⟩
        rw [List.append_assoc, List.append_assoc, List.singleton_append, ← hpost, hcut]
      exact first_le_top h hF hw (hpre.trans hlog) (List.map_eq_nil_iff.1 hempty)
    | _ => cases hob

end Writer

/-! ### One call -/

/-- The backfilled rows name each other as parents. -/
theorem cached_linked {fed : List Output} (ht : Traced fed) {cached : List BufferedBlock} {h n : ℕ}
    (hh : cached.map (·.height) = List.range' h n)
    (hall : ∀ b ∈ cached, ∃ id, (cacheOf capacity fed).getByHeight b.height = some (id, b)) :
    (cached.map shown).IsChain fun a b => shownLink b a := by
  have hmem : ∀ b ∈ cached, b ∈ stackOf fed := by
    intro b hb
    obtain ⟨id, hid⟩ := hall b hb
    exact (mem_stack_of_cached ht hid).1
  have hasc : cached.IsChain fun a b => b.height = a.height + 1 := by
    have hrange := List.isChain_range' h n 1
    rw [← hh, List.isChain_map] at hrange
    exact hrange
  rw [List.isChain_map]
  refine hasc.imp_of_mem_imp fun a b ha hb hab => ?_
  obtain ⟨t, hmem', hparent, hheight⟩ := exists_parent_of_lt ht.isChain_parent ht.isChain_height
    (hmem b hb) (hmem a ha) (by omega)
  have hta := eq_of_height_eq ht.isChain_height hmem' (hmem a ha) (by omega)
  rw [shownLink, shown, shown, hparent, hta]

/-- The first and the last of the backfilled rows. -/
theorem ends_of_range' {cached : List BufferedBlock} {h mx : ℕ}
    (hh : cached.map (·.height) = List.range' h (mx + 1 - h)) (hle : h ≤ mx) :
    (∃ b, cached.head? = some b ∧ b.height = h) ∧
      ∃ r, cached.getLast? = some r ∧ r.height = mx := by
  constructor
  · have hhead : (cached.map (·.height)).head? = some h := by
      rw [hh, List.head?_range', if_neg (by omega)]
    rw [List.head?_map] at hhead
    exact Option.map_eq_some_iff.1 hhead
  · have hlast : (cached.map (·.height)).getLast? = some mx := by
      rw [hh, List.getLast?_range', if_neg (by omega)]
      congr 1
      omega
    rw [List.getLast?_map] at hlast
    exact Option.map_eq_some_iff.1 hlast

/-- Whenever a `New` or an `Undo` above `mx` is broadcast after the first `pos` outputs, the
relayer was not above `mx` at `pos`, and the block cached at `mx` is on its stack. -/
def TipStays (cache : BlockCache BufferedBlock) (log : List Output) (pos mx : ℕ) : Prop :=
  ∀ pre o post, log.drop pos = pre ++ o :: post → MovesAbove mx o →
    (∀ t, (stackOf (log.take pos)).head? = some t → t.height ≤ mx) ∧
      ∀ id r, cache.getByHeight mx = some (id, r) →
        ∃ t ∈ stackOf (log.take pos ++ pre), t.blockId = r.blockId

/-- **The live stream on the block cached at the tip.**  It fits a stack with that block on top
exactly when the tip stays. -/
theorem live_sound_iff {outs F log : List Output} {cache : BlockCache BufferedBlock} {mn mx : ℕ}
    (htr : Traced outs) (hF : F <+: outs) (hwin : cacheWindow (cacheOf capacity F) = some (mn, mx))
    (hlog : log <+: outs) (pos : ℕ) {id : BlockId} {r : BufferedBlock} (hracc : r ∈ accepted outs)
    (hid : cache.getByHeight mx = some (id, r)) (hcut : (shown r).num = mx) (rest : List Shown) :
    Replay.SoundWhile shownLink (shown r :: rest)
        ((((log.drop pos).map Output.event).map (Replay.Event.map shown)).filter
          (Replay.above Shown.num mx)) ↔
      TipStays cache log pos mx := by
  rw [Replay.soundWhile_iff_of_join hcut (writer_of_traced htr hF hwin hlog pos hracc),
    throughout_outputs]
  refine forall_congr' fun pre => forall_congr' fun o => forall_congr' fun post =>
    imp_congr_right fun hpost => ?_
  have hpre : log.take pos ++ pre <+: outs := by
    refine List.IsPrefix.trans ⟨o :: post, ?_⟩ hlog
    rw [List.append_assoc, ← hpost, List.take_append_drop]
  rw [movesAbove_event]
  refine imp_congr_right fun _ => and_congr ?_ ?_
  · rw [List.head?_map]
    constructor
    · intro htop t ht
      exact htop (shown t) (congrArg (Option.map shown) ht)
    · intro htop t ht
      obtain ⟨t', ht', rfl⟩ := Option.map_eq_some_iff.1 ht
      exact htop t' ht'
  · rw [mem_map_shown htr hracc fun t ht => accepted_subset hpre t (mem_accepted_of_mem_stackOf ht),
      hid]
    constructor
    · rintro hmem id' r' heq
      obtain ⟨-, rfl⟩ := Prod.mk.inj (Option.some.inj heq)
      exact hmem
    · intro hmem
      exact hmem id r rfl

/-- **What a call with a backfill delivers, on any stack.**  Replayed on the client's stack
`S`, everything the call delivers fits exactly when the first row is a child of the top of
`S` and the tip stays. -/
theorem session_iff {config : ReorgConfig} {before after : List Action} {w₀ w₁ w₂ w : World}
    {pos h mn mx : ℕ} {head : Option ℕ} {rows backfill : List Response}
    (hinit : World.init config capacity none = some w₀)
    (hbefore : Run.exec (World.step prost) w₀ before = some w₁)
    (hread : w₁.session = some (.archived pos h head (some (mn, mx)) rows))
    (hadv : w₁.step prost .advance = some w₂)
    (hsession : w₂.session = some (.streaming pos (some h) backfill)) (hne : h ≤ mx)
    (hafter : Run.exec (World.step prost) w₂ after = some w) (hstay : ∀ a ∈ after, a.Stays)
    (hc : ChainRule w.pipeline.outs) (S : List Shown) :
    Replay.SoundWhile shownLink S ((w.delivered prost).map Response.event) ↔
      (∀ id b t, w₁.pipeline.cache.getByHeight h = some (id, b) → S.head? = some t →
        shownLink (shown b) t) ∧ TipStays w₁.pipeline.cache w.pipeline.log pos mx := by
  obtain ⟨hok₁, hcap, harc⟩ := archive_of_run hinit hbefore
  obtain ⟨hok₂, hext₁⟩ := hok₁.step hadv
  obtain ⟨hok, hext₂⟩ := hok₂.exec hafter
  have hext := hext₁.trans hext₂
  have htr : Traced w.pipeline.outs := hok.pipeline.reached.traced hc
  have hfedo : w₁.pipeline.fed <+: w.pipeline.outs := hext.fed.trans w.pipeline.fed_prefix_outs
  have hk : ∀ F, F <+: w₁.pipeline.fed → Keyed (cacheOf capacity F) :=
    fun F hF => keyed_cacheOf (htr.of_isPrefix (hF.trans hfedo))
  obtain ⟨-, hpos, F, cached, hF, hfed, hwin, rfl, -, hh, hall⟩ :=
    hok₁.walk (by simpa using harc) hk hread hadv hsession
  have hcache : w₁.pipeline.cache = cacheOf capacity w₁.pipeline.fed := hok₁.pipeline.cache
  rw [hcache] at hall ⊢
  have hfedtr := htr.of_isPrefix hfedo
  obtain ⟨⟨b, hb, hbh⟩, r, hrlast, hrh⟩ := ends_of_range' hh hne
  obtain ⟨init, rfl⟩ := List.getLast?_eq_some_iff.1 hrlast
  rw [World.delivered_of_stays hsession hafter hstay, List.map_append, map_event_cached,
    map_event_live (lastBackfillHeight_of_range' hh hne), Replay.soundWhile_append,
    Replay.replay_map_push, Replay.soundWhile_map_push (cached_linked hfedtr hh hall)]
  refine and_congr ?_ ?_
  · -- the first row, on the stack the client has
    obtain ⟨id, hid⟩ := hall b (List.mem_of_head? hb)
    rw [hbh] at hid
    rw [List.head?_map, hb, hid]
    constructor
    · rintro hfirst id' b' t heq ht
      obtain ⟨-, rfl⟩ := Prod.mk.inj (Option.some.inj heq)
      exact hfirst _ t rfl ht
    · rintro hfirst b' t heq ht
      obtain rfl := Option.some.inj heq
      exact hfirst id b t rfl ht
  · -- the live stream, on the last row
    obtain ⟨id, hid⟩ := hall r (by simp)
    have hracc : r ∈ accepted w.pipeline.outs :=
      accepted_subset hfedo r (mem_accepted_of_mem_stackOf (mem_stack_of_cached hfedtr hid).1)
    rw [hrh] at hid
    rw [List.map_append, List.map_singleton, List.reverse_append, List.reverse_singleton,
      List.singleton_append, List.cons_append]
    exact live_sound_iff htr (hfed.trans hfedo) hwin
      (w.pipeline.log_prefix_fed.trans w.pipeline.fed_prefix_outs) pos hracc hid hrh _

/-- **When a backfilled subscriber sees a consistent chain.**  A cache-only call is accepted
at start height `h` with a backfill up to the tip `mx` of its snapshot.  What it delivers,
replayed from nothing, undoes the top and extends the top, exactly when, whenever a `New` or
an `Undo` above `mx` is broadcast after the subscription, the relayer's stack was not above
`mx` at the subscription and the last backfilled block is on it. -/
theorem backfilled_sound_iff (prost : Prost) (config : ReorgConfig) (capacity : ℕ)
    (before after : List Action) (w₀ w₁ w₂ w : World) (pos h mn mx : ℕ) (head : Option ℕ)
    (rows backfill : List Response) (hinit : World.init config capacity none = some w₀)
    (hbefore : Run.exec (World.step prost) w₀ before = some w₁)
    (hread : w₁.session = some (.archived pos h head (some (mn, mx)) rows))
    (hadv : w₁.step prost .advance = some w₂)
    (hsession : w₂.session = some (.streaming pos (some h) backfill)) (hne : h ≤ mx)
    (hafter : Run.exec (World.step prost) w₂ after = some w) (hstay : ∀ a ∈ after, a.Stays)
    (hc : ChainRule w.pipeline.outs) :
    Replay.SoundWhile shownLink [] ((w.delivered prost).map Response.event) ↔
      TipStays w₁.pipeline.cache w.pipeline.log pos mx := by
  rw [session_iff hinit hbefore hread hadv hsession hne hafter hstay hc []]
  exact and_iff_right fun id b t _ ht => (by cases ht)

/-- Block 2 is replaced, and the replacement extended. -/
def reorgUnder : List Action :=
  .task (.call (.accept (synthAt 2 1 0) [])) :: (deliver ++ deliver ++ deliver) ++
    .task (.call (.accept (synthAt 3 0 1) [])) :: deliver

/-- **A backfilled block is undone unseen**: blocks 1 and 2 are backfilled, block 2 is replaced
under the filter, and block 3 of the new branch is delivered on the old block 2. -/
theorem backfilled_orphan : ¬ ∀ (prost : Prost) (config : ReorgConfig) (capacity : ℕ)
    (acts : List Action) (w₀ w : World) (pos h : ℕ) (backfill : List Response),
    World.init config capacity none = some w₀ →
    Run.exec (World.step prost) w₀ acts = some w →
    ChainRule w.pipeline.outs →
    w.session = some (.streaming pos (some h) backfill) → backfill ≠ [] →
    Replay.SoundWhile shownLink [] ((w.delivered prost).map Response.event) := by
  intro hall
  exact absurd (hall (prostOf []) ⟨4, 1⟩ 8 (bothBroadcast 1 ++ .advance :: reorgUnder) _ _ 2 1 _
    rfl rfl (by decide) rfl (by simp [backfillOf])) (by decide)

/-- Block 3 on top of block 2. -/
def thirdOnTop : List Action := .task (.call (.accept (synthAt 3 0 0) [])) :: deliver

/-- The hypotheses hold of a call that has backfilled blocks 1 and 2 when block 3 comes. -/
theorem backfilled_sound_iff_third :
    ∃ w₀ w₁ w₂ w, World.init ⟨4, 1⟩ 8 none = some w₀ ∧
      Run.exec (World.step (prostOf [])) w₀ (bothBroadcast 1) = some w₁ ∧
      w₁.step (prostOf []) .advance = some w₂ ∧
      Run.exec (World.step (prostOf [])) w₂ thirdOnTop = some w ∧
      (Replay.SoundWhile shownLink [] ((w.delivered (prostOf [])).map Response.event) ↔
        TipStays w₁.pipeline.cache w.pipeline.log 2 2) :=
  ⟨_, _, _, _, rfl, rfl, rfl, rfl,
    backfilled_sound_iff (prostOf []) ⟨4, 1⟩ 8 (bothBroadcast 1) thirdOnTop _ _ _ _ 2 1 1 2 none
      _ _ rfl rfl rfl rfl rfl (by decide) rfl (by simp [thirdOnTop, deliver, Action.Stays])
      (by decide)⟩

end Firehose
end Lightcycle
