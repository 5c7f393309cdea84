/-
# Backfill and live stream on a linear chain

Without reorgs the outputs written to the cache up to any moment end at the cache tip,
and the subscription is older than the snapshot: what was broadcast before the
subscription is at or below the tip of the snapshot, and what is above the tip is
broadcast after the subscription.  So the live filter cuts the broadcast exactly at the
end of the backfill (`linear_exactly_once`).

After a restart the backfill may come from the archive alone.  Nothing relates the last
archived height to the first block the relayer accepts, so the junction is right exactly
when that block is not above the next height (`archive_junction_iff`).
-/

import Lightcycle.Firehose.Backfill
import Lightcycle.Firehose.Session

namespace Lightcycle
namespace Firehose

open Relayer Store

/-- `Undo`. -/
def isUndo : Output → Bool
  | .undo _ => true
  | _ => false

/-- A linear chain: nothing is undone, and each block is one higher than the one before. -/
structure Linear (outs : List Output) : Prop where
  noUndo : ∀ o ∈ outs, isUndo o = false
  ascending : Ascending (accepted outs)

instance (outs : List Output) : Decidable (Linear outs) :=
  have : Decidable (Ascending (accepted outs)) := inferInstanceAs (Decidable (List.IsChain _ _))
  decidable_of_iff ((∀ o ∈ outs, isUndo o = false) ∧ Ascending (accepted outs))
    ⟨fun h => ⟨h.1, h.2⟩, fun h => ⟨h.noUndo, h.ascending⟩⟩

namespace Linear

variable {outs outs' : List Output} {capacity : ℕ}

/-- The outputs up to any moment are linear too. -/
theorem of_isPrefix (h : Linear outs') (hp : outs <+: outs') : Linear outs := by
  obtain ⟨rest, rfl⟩ := hp
  have hasc := h.ascending
  rw [accepted_append] at hasc
  exact ⟨fun o ho => h.noUndo o (List.mem_append_left _ ho), List.IsChain.left_of_append hasc⟩

/-- The height of the first block. -/
def firstHeight (outs : List Output) : ℕ := ((accepted outs).head?.map (·.height)).getD 0

/-- The heights of a chain count up from the first. -/
theorem map_height_of_ascending {bs : List BufferedBlock} (h : Ascending bs) {b : BufferedBlock}
    (hb : bs.head? = some b) : bs.map (·.height) = List.range' b.height bs.length := by
  induction bs generalizing b with
  | nil => cases hb
  | cons c bs ih =>
    obtain rfl := Option.some.inj hb
    cases bs with
    | nil => rfl
    | cons d bs =>
      obtain ⟨hcd, hrest⟩ := List.isChain_cons_cons.1 h
      rw [List.map_cons, ih hrest rfl, hcd, List.length_cons, List.length_cons, List.length_cons,
        List.range'_succ (s := c.height)]

/-- **The heights accepted up to any moment** are consecutive from the first one. -/
theorem map_height (h : Linear outs') (hp : outs <+: outs') :
    (accepted outs).map (·.height) = List.range' (firstHeight outs') (accepted outs).length := by
  obtain ⟨rest, rfl⟩ := hp
  cases hb : (accepted (outs ++ rest)).head? with
  | none =>
    have hnil := List.head?_eq_none_iff.1 hb
    rw [accepted_append, List.append_eq_nil_iff] at hnil
    rw [hnil.1]
    rfl
  | some b =>
    have hall := map_height_of_ascending h.ascending hb
    have hfirst : firstHeight (outs ++ rest) = b.height := by rw [firstHeight, hb]; rfl
    rw [accepted_append, List.map_append] at hall
    rw [hfirst, range'_prefix hall, List.length_map]

/-- **The cache on a linear chain**: it holds accepted blocks under their heights, and its
tip is the last one accepted. -/
theorem cacheOf_spec (h : Linear outs) (hcap : 0 < capacity) :
    (∀ x ∈ (cacheOf capacity outs).byHeight.entries,
        x.2.2.height = x.1 ∧ x.2.2 ∈ accepted outs) ∧
      (cacheOf capacity outs).maxHeight = (accepted outs).getLast?.map (·.height) := by
  induction outs using List.reverseRecOn with
  | nil => exact ⟨fun x hx => (List.not_mem_nil hx).elim, rfl⟩
  | append_singleton outs o ih =>
    obtain ⟨hent, hmax⟩ := ih (h.of_isPrefix (List.prefix_append _ _))
    have hidle : o.newBlock = none → accepted (outs ++ [o]) = accepted outs := by
      intro hnone
      simp [accepted, hnone]
    rw [cacheOf_concat]
    cases o with
    | new s =>
      have hacc : accepted (outs ++ [.new s]) = accepted outs ++ [s.block] := accepted_append _ _
      have hpw := h.ascending.pairwise
      rw [hacc] at hpw
      have hlt : ∀ x ∈ (cacheOf capacity outs).byHeight.entries, x.1 < s.block.height := by
        intro x hx
        obtain ⟨hkey, hmem⟩ := hent x hx
        have := (List.pairwise_append.1 hpw).2.2 _ hmem _ (List.mem_singleton_self _)
        omega
      obtain ⟨rest, hrest, hold⟩ := BlockCache.insert_top s.block.blockId s.block
        ((capacity_cacheOf capacity outs).symm ▸ hcap) hlt
      rw [hacc]
      constructor
      · intro x hx
        rw [feedCache, hrest] at hx
        rcases List.mem_append.1 hx with hx | hx
        · obtain ⟨hkey, hmem⟩ := hent x (hold x hx)
          exact ⟨hkey, List.mem_append_left _ hmem⟩
        · obtain rfl := List.mem_singleton.1 hx
          exact ⟨rfl, by simp⟩
      · rw [feedCache, BlockCache.maxHeight, SortedMap.maxKey?, hrest, List.getLast?_concat,
          List.getLast?_concat]
        rfl
    | undo s => exact absurd (h.noUndo (.undo s) (by simp)) (by simp [isUndo])
    | _ =>
      rw [hidle rfl]
      exact ⟨hent, hmax⟩

end Linear

/-! ### Heights delivered as new -/

/-- The heights of the `STEP_NEW` responses, in order. -/
def newHeights (rows : List Response) : List ℕ :=
  heights (rows.filter fun r => decide (r.step = .stepNew))

/-- The new heights are those of either part. -/
theorem newHeights_append (rows rows' : List Response) :
    newHeights (rows ++ rows') = newHeights rows ++ newHeights rows' := by
  rw [newHeights, List.filter_append, heights_append]
  rfl

variable {prost : Prost}

/-- Each cached response is new. -/
theorem newHeights_cached (head : Option ℕ) (bs : List BufferedBlock) :
    newHeights (bs.map (cachedResponse prost head)) = bs.map (·.height) := by
  have hall : (bs.map (cachedResponse prost head)).filter (fun r => decide (r.step = .stepNew)) =
      bs.map (cachedResponse prost head) := by
    refine List.filter_eq_self.2 fun r hr => ?_
    obtain ⟨b, -, rfl⟩ := List.mem_map.1 hr
    rfl
  rw [newHeights, hall, heights_map_cachedResponse]

/-- Of the live responses, those of `New` outputs are. -/
theorem newHeights_wire (l : List (StreamableBlock × ForkStep)) :
    newHeights (l.map fun x => streamableToResponse prost x.1 x.2) =
      (l.filter fun x => decide (x.2 = .stepNew)).map (·.1.block.height) := by
  rw [newHeights, heights, List.filter_map, List.filterMap_map, ← List.filterMap_eq_map]
  rfl

/-- These are the blocks accepted. -/
theorem accepted_eq_wire (outs : List Output) :
    accepted outs = ((wire outs).filter fun x => decide (x.2 = .stepNew)).map (·.1.block) := by
  rw [wire, List.filter_filterMap, List.map_filterMap, accepted]
  refine List.filterMap_congr fun o _ => ?_
  cases o with
  | _ => rfl

/-- **The live filter** lets the blocks above the backfill through, so the new heights go on
where the backfill ends. -/
theorem newHeights_live {backfill : List Response} {last : ℕ}
    (hlast : lastBackfillHeight backfill = some last) (outs : List Output) :
    newHeights (Phase.live prost backfill outs) =
      ((accepted outs).map (·.height)).filter fun n => decide (last < n) := by
  rw [live_of_some hlast, newHeights_wire, List.filter_comm, accepted_eq_wire, List.map_map,
    List.filter_map]
  rfl

/-- Cutting a range at a height it does not start above. -/
theorem filter_lt_range' {last a n : ℕ} (h : a ≤ last + 1) :
    (List.range' a n).filter (fun k => decide (last < k)) =
      List.range' (last + 1) (a + n - (last + 1)) := by
  induction n generalizing a with
  | zero =>
    rw [show a + 0 - (last + 1) = 0 by omega]
    rfl
  | succ n ih =>
    rw [List.range'_succ]
    rcases Nat.lt_or_ge last a with hlt | hle
    · obtain rfl : a = last + 1 := by omega
      have hall : (List.range' (last + 1 + 1) n).filter (fun k => decide (last < k)) =
          List.range' (last + 1 + 1) n := by
        refine List.filter_eq_self.2 fun k hk => ?_
        have := (List.mem_range'_1.1 hk).1
        simp only [decide_eq_true_eq]
        omega
      rw [List.filter_cons_of_pos (by simp), hall,
        show last + 1 + (n + 1) - (last + 1) = n + 1 by omega, List.range'_succ]
    · rw [List.filter_cons_of_neg (by simp; omega), ih (by omega),
        show a + 1 + n = a + (n + 1) by omega]

/-- The backfill ends at the last block that was walked. -/
theorem lastBackfillHeight_cached {head : Option ℕ} {cached : List BufferedBlock}
    {b : BufferedBlock} (hb : cached.getLast? = some b) :
    lastBackfillHeight (cached.map (cachedResponse prost head)) = some b.height := by
  rw [lastBackfillHeight, List.getLast?_map, hb]
  rfl

namespace Linear

variable {outs outs' F : List Output} {capacity : ℕ}

/-- On a linear chain the cache is filed by height. -/
theorem keyed (h : Linear outs) (hcap : 0 < capacity)
    (hlt : ∀ b ∈ accepted outs, b.height < 2 ^ 64) : Keyed (cacheOf capacity outs) := by
  intro x hx
  obtain ⟨hkey, hmem⟩ := (h.cacheOf_spec hcap).1 x hx
  exact ⟨hkey, hkey ▸ hlt _ hmem⟩

/-- The tip of a snapshot is the last height written to the cache. -/
theorem tip_eq (h : Linear outs) (hF : F <+: outs) (hcap : 0 < capacity) {mn mx : ℕ}
    (hw : cacheWindow (cacheOf capacity F) = some (mn, mx)) :
    0 < (accepted F).length ∧ mx + 1 = firstHeight outs + (accepted F).length := by
  have hmax := (cacheWindow_eq_some.1 hw).2
  rw [((h.of_isPrefix hF).cacheOf_spec hcap).2, ← List.getLast?_map, h.map_height hF,
    List.getLast?_range'] at hmax
  split_ifs at hmax with hz
  rw [Option.some.injEq] at hmax
  omega

/-- The heights accepted after any moment. -/
theorem map_height_drop (h : Linear outs') (hp : outs <+: outs') (n : ℕ) :
    (accepted (outs.drop n)).map (·.height) =
      List.range' (firstHeight outs' + (accepted (outs.take n)).length)
        (accepted (outs.drop n)).length := by
  have hall := h.map_height hp
  have hpre := h.map_height ((List.take_prefix n outs).trans hp)
  rw [← List.take_append_drop n outs, accepted_append, List.map_append, hpre] at hall
  have hpost := range'_suffix hall
  rwa [List.length_range', List.length_append, Nat.add_sub_cancel_left] at hpost

end Linear

/-- More blocks are accepted later. -/
theorem length_accepted_le {outs outs' : List Output} (h : outs <+: outs') :
    (accepted outs).length ≤ (accepted outs').length := by
  obtain ⟨rest, rfl⟩ := h
  rw [accepted_append, List.length_append]
  omega

/-- On a linear chain the cache is keyed by its blocks' heights at every moment. -/
theorem Pipeline.Ok.keyed {capacity : ℕ} {p : Pipeline} (hok : p.Ok capacity) (hcap : 0 < capacity)
    (hlinear : Linear p.outs) : ∀ F, F <+: p.fed → Keyed (cacheOf capacity F) := by
  intro F hF
  have hFo := hF.trans p.fed_prefix_outs
  exact (hlinear.of_isPrefix hFo).keyed hcap fun b hb =>
    hok.reached.height_lt b (accepted_subset hFo b hb)

/-- A run keeps the world in order, with an archive if it had one. -/
theorem archive_of_run {config : ReorgConfig} {capacity : ℕ} {archive : Option BlockArchive}
    {acts : List Action} {w₀ w : World} (hinit : World.init config capacity archive = some w₀)
    (hrun : Run.exec (World.step prost) w₀ acts = some w) :
    w.Ok prost capacity ∧ 0 < capacity ∧ w.pipeline.archive.isSome = archive.isSome := by
  obtain ⟨hok₀, hcap, harc⟩ : w₀.Ok prost capacity ∧ _ := World.ok_init hinit
  obtain ⟨hok, hext⟩ := hok₀.exec hrun
  exact ⟨hok, hcap, harc ▸ hext.archive⟩

/-- **A cache-only backfill**: the cached blocks from the start height to the tip of the
snapshot, as the cache held them at the walk. -/
theorem Phase.Walked.cacheOnly {capacity pos h : ℕ} {p : Pipeline} {backfill : List Response}
    (hw : Phase.Walked prost capacity p pos h backfill) (harc : p.archive = none)
    (hk : ∀ F, F <+: p.fed → Keyed (cacheOf capacity F)) :
    ∃ (F F' : List Output) (head : Option ℕ) (mn mx : ℕ) (cached : List BufferedBlock),
      p.log.take pos <+: F ∧ F <+: F' ∧ F' <+: p.fed ∧
      cacheWindow (cacheOf capacity F) = some (mn, mx) ∧
      backfill = cached.map (cachedResponse prost head) ∧ h ≤ mx + 1 ∧
      cached.map (·.height) = List.range' h (mx + 1 - h) ∧
      ∀ b ∈ cached, ∃ id, (cacheOf capacity F').getByHeight b.height = some (id, b) := by
  obtain ⟨F, F', head, rows, cached, hF, hFF', hfed, hrows, hcached, rfl⟩ := hw
  obtain rfl := hrows harc
  rcases cacheRows_nil (hk F' hfed) p.archive.isSome (cacheWindow (cacheOf capacity F)) h with
    ⟨status, herr, -⟩ | ⟨mn, mx, cached', hw, hok, -, hle, hh, hall⟩
  · rw [herr] at hcached
    cases hcached
  · obtain rfl : cached' = cached := Except.ok.inj (hok.symm.trans hcached)
    exact ⟨F, F', head, mn, mx, cached', hF, hFF', hfed, hw, List.nil_append _, hle, hh, hall⟩

/-- A backfill from the cache that is not empty ends at the tip of the snapshot. -/
theorem lastBackfillHeight_of_range' {head : Option ℕ} {cached : List BufferedBlock} {h mx : ℕ}
    (hh : cached.map (·.height) = List.range' h (mx + 1 - h)) (hle : h ≤ mx) :
    lastBackfillHeight (cached.map (cachedResponse prost head)) = some mx := by
  have hlast := congrArg List.getLast? hh
  rw [List.getLast?_map, List.getLast?_range', if_neg (by omega)] at hlast
  obtain ⟨b, hb, hbh⟩ := Option.map_eq_some_iff.1 hlast
  rw [lastBackfillHeight_cached hb, hbh]
  congr 1
  omega

/-- From above the tip nothing is walked. -/
theorem eq_nil_of_range' {cached : List BufferedBlock} {h mx : ℕ}
    (hh : cached.map (·.height) = List.range' h (mx + 1 - h)) (hlt : mx < h) : cached = [] := by
  rw [show mx + 1 - h = 0 by omega] at hh
  exact List.map_eq_nil_iff.1 hh

/-- A walk that found something did not start above the top. -/
theorem le_of_cached_ne_nil {cached : List BufferedBlock} {h mx : ℕ}
    (hh : cached.map (·.height) = List.range' h (mx + 1 - h)) (hne : cached ≠ []) : h ≤ mx := by
  by_contra hgt
  exact hne (eq_nil_of_range' hh (by omega))

/-- **Exactly-once stitching on a linear chain.**  For every interleaving of the relayer,
the hub and a cache-only call with a non-empty backfill, the heights delivered as
`STEP_NEW` are `h, h + 1, …` without a gap or a repetition, and nothing that was broadcast
from `h` on is missing. -/
theorem linear_exactly_once (prost : Prost) (config : ReorgConfig) (capacity : ℕ)
    (acts : List Action) (w₀ w : World) (pos h : ℕ) (backfill : List Response)
    (hinit : World.init config capacity none = some w₀)
    (hrun : Run.exec (World.step prost) w₀ acts = some w)
    (hlinear : Linear w.pipeline.outs)
    (hsession : w.session = some (.streaming pos (some h) backfill)) (hne : backfill ≠ []) :
    ∃ n, newHeights (w.delivered prost) = List.range' h n ∧
      ∀ b ∈ accepted w.pipeline.log, h ≤ b.height → b.height ∈ newHeights (w.delivered prost) := by
  obtain ⟨hok, hcap, harc⟩ := archive_of_run hinit hrun
  have hk := hok.pipeline.keyed hcap hlinear
  obtain ⟨hpos, hwalked⟩ := hok.session _ hsession
  obtain ⟨F, F', head, mn, mx, cached, hF, hFF', hfed, hw, rfl, hle, hh, -⟩ :=
    Phase.Walked.cacheOnly hwalked (by simpa using harc) hk
  have hlt := le_of_cached_ne_nil hh fun hnil => hne (by rw [hnil]; rfl)
  have hlogo : w.pipeline.log <+: w.pipeline.outs :=
    w.pipeline.log_prefix_fed.trans w.pipeline.fed_prefix_outs
  obtain ⟨hm, htip⟩ := hlinear.tip_eq
    (hFF'.trans (hfed.trans w.pipeline.fed_prefix_outs)) hcap hw
  -- what was broadcast before the subscription had been written before the snapshot
  have hprele := length_accepted_le hF
  have hlen : (accepted w.pipeline.log).length =
      (accepted (w.pipeline.log.take pos)).length +
        (accepted (w.pipeline.log.drop pos)).length := by
    rw [← List.length_append, ← accepted_append, List.take_append_drop]
  have hdeliv : newHeights (w.delivered prost) = List.range' h (mx + 1 - h +
      (Linear.firstHeight w.pipeline.outs + (accepted w.pipeline.log).length - (mx + 1))) := by
    have hdel : w.delivered prost = cached.map (cachedResponse prost head) ++
        Phase.live prost (cached.map (cachedResponse prost head)) (w.pipeline.log.drop pos) := by
      rw [World.delivered, hsession]
      rfl
    rw [hdel, newHeights_append, newHeights_live (lastBackfillHeight_of_range' hh hlt),
      newHeights_cached, hh, hlinear.map_height_drop hlogo, filter_lt_range' (by omega),
      ← List.range'_append_1, show h + (mx + 1 - h) = mx + 1 by omega]
    congr 2
    omega
  refine ⟨_, hdeliv, fun b hb hhb => ?_⟩
  have hbmem : b.height ∈ (accepted w.pipeline.log).map (·.height) :=
    List.mem_map_of_mem (f := fun b : BufferedBlock => b.height) hb
  rw [hlinear.map_height hlogo, List.mem_range'_1] at hbmem
  rw [hdeliv, List.mem_range'_1]
  omega

/-- The steps that take the next output from the engine's call to the broadcast. -/
def deliver : List Action := [.task .feed, .task .send, .task .pump]

/-- A request from a height. -/
def startingAt (h : ℕ) : Request := ⟨h, [], 0, false, []⟩

/-- Block 2 is written to the cache before the call subscribes and broadcast after it, and
the walk finds block 3. -/
def overlap : List Action :=
  .task (.call (.accept (synthAt 1 0 0) [])) :: deliver ++
    [.task (.call (.accept (synthAt 2 0 0) [])), .task .feed, .connect (startingAt 1), .advance,
      .task .send, .advance, .task .pump, .task (.call (.accept (synthAt 3 0 0) [])), .task .feed,
      .advance, .advance, .advance, .task .send, .task .pump]

/-- The hypotheses hold of that run. -/
theorem linear_exactly_once_overlap :
    ∃ w₀ w pos backfill, World.init ⟨4, 1⟩ 8 none = some w₀ ∧
      Run.exec (World.step (prostOf [])) w₀ overlap = some w ∧ Linear w.pipeline.outs ∧
      w.session = some (.streaming pos (some 1) backfill) ∧ backfill ≠ [] ∧
      ∃ n, newHeights (w.delivered (prostOf [])) = List.range' 1 n ∧
        ∀ b ∈ accepted w.pipeline.log, 1 ≤ b.height →
          b.height ∈ newHeights (w.delivered (prostOf [])) :=
  ⟨_, _, _, _, rfl, rfl, by decide, rfl, List.cons_ne_nil _ _,
    linear_exactly_once (prostOf []) ⟨4, 1⟩ 8 overlap _ _ _ 1 _ rfl rfl (by decide) rfl
      (List.cons_ne_nil _ _)⟩

/-! ### From the archive to the live stream -/

/-- An empty window: no block had been written to the cache. -/
theorem Linear.accepted_eq_nil {outs : List Output} {capacity : ℕ} (h : Linear outs)
    (hcap : 0 < capacity) (hw : cacheWindow (cacheOf capacity outs) = none) : accepted outs = [] := by
  have hmax := (h.cacheOf_spec hcap).2
  have hnone : (cacheOf capacity outs).maxHeight = none := by
    unfold cacheWindow at hw
    split at hw
    · cases hw
    · rename_i hnot
      cases hmin : (cacheOf capacity outs).minHeight with
      | none =>
        have hnil := List.head?_eq_none_iff.1 (Option.map_eq_none_iff.1 hmin)
        rw [BlockCache.maxHeight, SortedMap.maxKey?, hnil]
        rfl
      | some mn =>
        cases hm : (cacheOf capacity outs).maxHeight with
        | none => rfl
        | some mx => exact absurd hm (fun hm => hnot mn mx hmin hm)
  rw [hnone] at hmax
  exact List.getLast?_eq_none_iff.1 (Option.map_eq_none_iff.1 hmax.symm)

/-- A call that found the cache empty and was served from the archive streams those rows. -/
theorem session_of_archived {pos h : ℕ} {head : Option ℕ} {rows backfill : List Response}
    {acts : List Action} {w w' : World} (hrows : rows ≠ [])
    (hw : w.session = some (.archived pos h head none rows))
    (hrun : Run.exec (World.step prost) w acts = some w') (hstay : ∀ a ∈ acts, a.Stays)
    (hw' : w'.session = some (.streaming pos (some h) backfill)) : backfill = rows := by
  have hstep : ∀ (v : World) (a : Action) (v' : World), a.Stays →
      (v.session = some (.archived pos h head none rows) ∨
        v.session = some (.streaming pos (some h) rows)) → v.step prost a = some v' →
      (v'.session = some (.archived pos h head none rows) ∨
        v'.session = some (.streaming pos (some h) rows)) := by
    intro v a v' ha hv hs
    cases a with
    | task t =>
      obtain ⟨p, -, rfl⟩ := Option.map_eq_some_iff.1 hs
      exact hv
    | connect req => exact ha.elim
    | advance =>
      obtain ⟨s', hs', rfl⟩ := Option.map_eq_some_iff.1 hs
      rcases hv with hv | hv
      · rw [hv, Option.bind_some] at hs'
        simp only [Phase.advance, cacheRows, hrows, false_and, if_false] at hs'
        refine Or.inr ?_
        rw [← hs', backfillOf, List.map_nil, List.append_nil]
      · rw [hv] at hs'
        cases hs'
    | reconnect taken => exact ha.elim
  have hend := Run.exec_preserves_of_forall (C := Action.Stays)
    (I := fun v => v.session = some (.archived pos h head none rows) ∨
      v.session = some (.streaming pos (some h) rows)) hstep hstay (Or.inl hw) hrun
  rcases hend with hend | hend
  · rw [hw'] at hend
    cases hend
  · rw [hw'] at hend
    cases hend
    rfl

/-- The first height above a cut of a range. -/
theorem head?_filter_range' {last a k n : ℕ}
    (hn : ((List.range' a k).filter fun x => decide (last < x)).head? = some n) :
    n = max a (last + 1) := by
  rcases Nat.lt_or_ge (last + 1) a with hgt | hle
  · have hall : (List.range' a k).filter (fun x => decide (last < x)) = List.range' a k := by
      refine List.filter_eq_self.2 fun x hx => ?_
      have := (List.mem_range'_1.1 hx).1
      simp only [decide_eq_true_eq]
      omega
    rw [hall, List.head?_range'] at hn
    split_ifs at hn
    rw [Option.some.injEq] at hn
    omega
  · rw [filter_lt_range' hle, List.head?_range'] at hn
    split_ifs at hn
    rw [Option.some.injEq] at hn
    omega

/-- **When the archive meets the live stream.**  A call finds the cache empty and is served
from the archive, up to height `last`, in any interleaving with the restarted relayer on a
linear chain.  Its first live `STEP_NEW` is `last + 1` exactly when the first block the
relayer accepts is not above that. -/
theorem archive_junction_iff (prost : Prost) (config : ReorgConfig) (capacity : ℕ)
    (arc₀ arc : BlockArchive) (before after : List Action) (w₀ w₁ w : World) (pos h top last n : ℕ)
    (head : Option ℕ) (backfill : List Response)
    (hinit : World.init config capacity (some arc₀) = some w₀)
    (hbefore : Run.exec (World.step prost) w₀ before = some w₁)
    (hspan : w₁.session = some (.spanned pos h head none (some top)))
    (harc : w₁.pipeline.archive = some arc)
    (hlast : (archivedHeights prost arc h top).getLast? = some last)
    (hafter : Run.exec (World.step prost) w₁ (.advance :: after) = some w)
    (hstay : ∀ a ∈ after, a.Stays)
    (hsession : w.session = some (.streaming pos (some h) backfill))
    (hlinear : Linear w.pipeline.outs)
    (hn : (newHeights (Phase.live prost backfill (w.pipeline.log.drop pos))).head? = some n) :
    n = last + 1 ↔ Linear.firstHeight w.pipeline.outs ≤ last + 1 := by
  obtain ⟨hok₁, hcap, -⟩ := archive_of_run hinit hbefore
  obtain ⟨-, hext⟩ := hok₁.exec hafter
  obtain ⟨hpos, F, hF, hfed, hw⟩ := hok₁.session _ hspan
  obtain ⟨w₂, hadv, hrest⟩ := Run.exec_cons_eq_some.1 hafter
  -- the archive walk
  obtain ⟨rows, hsession₂, hheights, hm⟩ : ∃ rows,
      w₂.session = some (.archived pos h head none rows) ∧
        heights rows = archivedHeights prost arc h top ∧ ∀ r ∈ rows, r.metadata.isSome := by
    simp only [World.step, hspan, Option.bind_some, Phase.advance, harc] at hadv
    rcases archiveRows_eq prost arc h top with ⟨-, status, hstage, -⟩ | ⟨-, rows, hstage, hh, hm⟩
    · simp only [hstage, Option.map_some, Option.some.injEq] at hadv
      have hend := World.session_of_final (s := .refused status) (fun _ => rfl)
        (show w₂.session = _ by rw [← hadv]) hrest hstay
      rw [hsession] at hend
      cases hend
    · simp only [hstage, Option.map_some, Option.some.injEq] at hadv
      exact ⟨rows, by rw [← hadv], hh, hm⟩
  have hne : rows ≠ [] := by
    rintro rfl
    rw [← hheights] at hlast
    cases hlast
  obtain rfl := session_of_archived hne hsession₂ hrest hstay hsession
  -- nothing had been broadcast when the call subscribed
  have hnil : accepted (w.pipeline.log.take pos) = [] := by
    have hFo := hfed.trans (hext.fed.trans w.pipeline.fed_prefix_outs)
    have hFnil := (hlinear.of_isPrefix hFo).accepted_eq_nil hcap hw.symm
    rw [(Phase.take_of_extends hext hpos).1]
    have hle := length_accepted_le hF
    rw [hFnil] at hle
    exact List.length_eq_zero_iff.1 (Nat.le_zero.1 hle)
  have hlogo : w.pipeline.log <+: w.pipeline.outs :=
    w.pipeline.log_prefix_fed.trans w.pipeline.fed_prefix_outs
  have hlast' : lastBackfillHeight backfill = some last := by
    rw [lastBackfillHeight_eq hm, hheights, hlast]
  rw [newHeights_live hlast', hlinear.map_height_drop hlogo, hnil, List.length_nil, Nat.add_zero] at hn
  have := head?_filter_range' hn
  omega

/-- A call from height 1 that has found the cache empty. -/
def coldCall : List Action := [.connect (startingAt 1), .advance, .advance, .advance]

/-- The rest of the call, then the first block after the restart. -/
def firstBlock (b : DecodedBlock) : List Action :=
  [.advance, .task (.call (.accept b []))] ++ deliver

/-- **The junction can have a gap**: the archive ends at block 1 and the relayer resumes at
block 5. -/
theorem archive_junction_gap : ¬ ∀ (prost : Prost) (config : ReorgConfig) (capacity : ℕ)
    (arc₀ arc : BlockArchive) (before after : List Action) (w₀ w₁ w : World) (pos h top last n : ℕ)
    (head : Option ℕ) (backfill : List Response),
    World.init config capacity (some arc₀) = some w₀ →
    Run.exec (World.step prost) w₀ before = some w₁ →
    w₁.session = some (.spanned pos h head none (some top)) →
    w₁.pipeline.archive = some arc →
    (archivedHeights prost arc h top).getLast? = some last →
    Run.exec (World.step prost) w₁ (.advance :: after) = some w →
    (∀ a ∈ after, a.Stays) →
    w.session = some (.streaming pos (some h) backfill) →
    Linear w.pipeline.outs →
    (newHeights (Phase.live prost backfill (w.pipeline.log.drop pos))).head? = some n →
    n = last + 1 := by
  intro hall
  have hjunction : 5 = 1 + 1 := hall (prostOf []) ⟨4, 1⟩ 8 (emptyRows [1]) _ coldCall
    (firstBlock (synthAt 5 0 0)) _ _ _ 0 1 1 1 5 none _ rfl rfl rfl rfl rfl rfl
    (by simp [firstBlock, deliver, Action.Stays]) rfl (by decide) rfl
  omega

/-- The hypotheses hold of a relayer that resumes at block 2. -/
theorem archive_junction_iff_next :
    ∃ w₀ w₁ w arc backfill, World.init ⟨4, 1⟩ 8 (some (emptyRows [1])) = some w₀ ∧
      Run.exec (World.step (prostOf [])) w₀ coldCall = some w₁ ∧
      w₁.pipeline.archive = some arc ∧
      (archivedHeights (prostOf []) arc 1 1).getLast? = some 1 ∧
      Run.exec (World.step (prostOf [])) w₁ (.advance :: firstBlock (synthAt 2 0 0)) = some w ∧
      w.session = some (.streaming 0 (some 1) backfill) ∧
      (newHeights (Phase.live (prostOf []) backfill (w.pipeline.log.drop 0))).head? = some 2 ∧
      (2 = 1 + 1 ↔ Linear.firstHeight w.pipeline.outs ≤ 1 + 1) :=
  ⟨_, _, _, _, _, rfl, rfl, rfl, rfl, rfl, rfl, rfl,
    archive_junction_iff (prostOf []) ⟨4, 1⟩ 8 (emptyRows [1]) _ coldCall
      (firstBlock (synthAt 2 0 0)) _ _ _ 0 1 1 1 2 none _ rfl rfl rfl rfl rfl rfl
      (by simp [firstBlock, deliver, Action.Stays]) rfl (by decide) rfl⟩

end Firehose
end Lightcycle
