/-
# A `Fetch.Block` before a `Stream.Blocks`

A read-through call that misses inserts the upstream's block at any height, above the
cached range, below it or inside it, and so moves the window that the next backfill is
planned with.  Two runs are compared here on every cache the relayer can have filled: the
backfill from `h` with and without a call for height `f` just before.  They agree exactly
when the archive answers the call, when the cache does, when the entry is evicted at once,
or when `f` is below an `h` that the cache serves and moves nothing served
(`fetch_harmless_iff`).

Both runs are reduced to the lookups of the two caches (`Miss`): the window and the walk
depend on nothing else.  A second run that needs the archive always serves the new block
(`Below.new_mem`), so it agrees with the first only if the archive had a row there, and
then the call would have been answered from that row.
-/

import Lightcycle.Firehose.Fetch

namespace Lightcycle
namespace Firehose

open Relayer Store

/-! ### The cache after a miss -/

/-- What a client sees of a response: the height and the payload. -/
def seen (r : Response) : Option ℕ × Option Any := (r.metadata.map (·.num), r.block)

/-- The lookups after the block of an uncached height was inserted and stayed. -/
structure Miss (c c' : BlockCache BufferedBlock) (b : BufferedBlock) : Prop where
  absent : c.getByHeight b.height = none
  new : c'.getByHeight b.height = some (b.blockId, b)
  old : ∀ k y, c'.getByHeight k = some y → k = b.height ∨ c.getByHeight k = some y
  /-- The entry of the same id at another height goes. -/
  lost : ∀ k y, c.getByHeight k = some y → y.1 = b.blockId → c'.getByHeight k = none
  /-- Above the new entry nothing else goes. -/
  kept : ∀ k y, c.getByHeight k = some y → y.1 ≠ b.blockId → b.height < k →
    c'.getByHeight k = some y

/-- **The write after a miss, seen through lookups.** The new block is there, an entry of
the same id is gone from its other height, and an eviction to capacity takes only entries
below the new one. -/
theorem miss_of_insert {c : BlockCache BufferedBlock} {b : BufferedBlock} (hwf : c.Wf)
    (habsent : c.getByHeight b.height = none) (hev : ¬ c.Evicts b.height b.blockId) :
    Miss c (c.insert b.height b.blockId b).1 b := by
  have hne : ∀ x ∈ c.byHeight.entries, x.1 ≠ b.height := SortedMap.get?_eq_none.1 habsent
  have hnew := (BlockCache.new_mem_insert hwf (v := b)).2 hev
  refine ⟨habsent, SortedMap.get?_eq_some.2 hnew, fun k y hy => ?_, fun k y hy hid => ?_,
    fun k y hy hid hlt => ?_⟩
  · rcases BlockCache.of_mem_insert hwf (SortedMap.get?_eq_some.1 hy) with heq | ⟨hold, -⟩
    · exact Or.inl (congrArg Prod.fst heq)
    · exact Or.inr (SortedMap.get?_eq_some.2 hold)
  · have hmem := SortedMap.get?_eq_some.1 hy
    refine SortedMap.get?_eq_none.2 fun x hx hk => ?_
    rcases (BlockCache.mem_merged hwf.indexed).1 ((BlockCache.mem_insert hwf).1 hx).1 with
      heq | ⟨hold, -, hxid⟩
    · exact hne _ hmem (hk.symm.trans (congrArg Prod.fst heq))
    · have heq := SortedMap.eq_of_mem_of_key_eq hold hmem hk
      exact hxid (by rw [heq]; exact hid)
  · have hmem := SortedMap.get?_eq_some.1 hy
    refine SortedMap.get?_eq_some.2 ((BlockCache.mem_insert hwf).2 ⟨?_, fun _ => ?_⟩)
    · exact (BlockCache.mem_merged hwf.indexed).2 (Or.inr ⟨hmem, hne _ hmem, hid⟩)
    · exact ⟨_, (BlockCache.mem_merged hwf.indexed).2 (Or.inl rfl), hlt⟩

namespace Miss

variable {c c' : BlockCache BufferedBlock} {b : BufferedBlock} {h mn mx mn' mx' : ℕ}

/-- The block inserted lies at its own height, so after a miss every entry still does. -/
theorem keyed (hm : Miss c c' b) (hk : Keyed c) (hb : b.height < 2 ^ 64) : Keyed c' := by
  rintro ⟨k, y⟩ hx
  have hget : c'.getByHeight k = some y := SortedMap.get?_eq_some.2 hx
  rcases hm.old k y hget with rfl | hold
  · rw [hm.new] at hget
    obtain rfl := Option.some.inj hget
    exact ⟨rfl, hb⟩
  · exact hk _ (SortedMap.get?_eq_some.1 hold)

/-- What is cached afterwards was cached before, or is the new height. -/
theorem cached (hm : Miss c c' b) {k : ℕ} (hk : c'.getByHeight k ≠ none) :
    k = b.height ∨ c.getByHeight k ≠ none := by
  obtain ⟨y, hy⟩ := Option.ne_none_iff_exists'.1 hk
  refine (hm.old k y hy).imp_right fun hold => ?_
  rw [hold]
  exact Option.some_ne_none y

end Miss

/-! ### Two backfills -/

section Compare

variable {prost : Prost} {archive : Option BlockArchive} {head : Option ℕ}
  {c c' : BlockCache BufferedBlock} {b : BufferedBlock} {h mn mx : ℕ} {rows rows' : List Response}

/-- No responses, no heights. -/
theorem heights_nil : heights [] = [] := rfl

/-- A client that sees the same heights and payloads sees the same heights. -/
theorem heights_eq_of_seen (heq : rows'.map seen = rows.map seen) : heights rows' = heights rows := by
  have hheights : ∀ rows : List Response, heights rows = (rows.map seen).filterMap Prod.fst := by
    intro rows
    rw [List.filterMap_map]
    rfl
  rw [hheights, hheights, heq]

/-- The responses served from the cache carry exactly the heights that were walked. -/
theorem heights_stored (hk : Keyed c) {ks : List ℕ} (hall : ∀ k ∈ ks, c.getByHeight k ≠ none) :
    heights ((stored c ks).map (cachedResponse prost head)) = ks := by
  rw [heights_map_cachedResponse, map_height_stored hk hall]

/-- **An accepted backfill under a window**: what the archive serves, then the cache up to
the tip. -/
theorem backfill_of_window (hk : Keyed c) (hw : cacheWindow c = some (mn, mx))
    (hok : backfill prost archive c head h = .ok rows) :
    ∃ archived start, archiveRows prost archive h (archiveSpan archive (some (mn, mx)) h) =
        .ok archived ∧ cacheWalkFrom h archived = start ∧ mn ≤ start ∧ start ≤ mx + 1 ∧
      (∀ i ∈ List.range' start (mx + 1 - start), c.getByHeight i ≠ none) ∧
      rows = archived ++
        (stored c (List.range' start (mx + 1 - start))).map (cachedResponse prost head) ∧
      heights rows = heights archived ++ List.range' start (mx + 1 - start) := by
  obtain ⟨archived, cached, hrows, hcached, rfl⟩ := backfill_ok_iff.1 hok
  rw [hw] at hrows hcached
  obtain ⟨hlow, hhigh, hall, rfl⟩ := cacheRows_some_ok_iff.1 hcached
  have := saturatingAdd_le mx
  refine ⟨archived, _, hrows, rfl, hlow, by omega, hall, rfl, ?_⟩
  rw [heights_append, heights_stored hk hall]

/-- The tip is among the heights when the request is not above it. -/
theorem tip_mem_heights (hk : Keyed c) (hw : cacheWindow c = some (mn, mx)) (hle : h ≤ mx)
    (hok : backfill prost archive c head h = .ok rows) : mx ∈ heights rows := by
  obtain ⟨archived, k, hrows, hfrom, hlow, hhigh, -, -, hheights⟩ := backfill_of_window hk hw hok
  have hmnmx := ((cacheWindow_iff.1 hw).2.2 mn (cacheWindow_iff.1 hw).1).2
  have hkmx : k ≤ mx := by
    by_cases hnil : archived = []
    · rw [← hfrom, hnil]
      exact hle
    · have := cacheWalkFrom_le hrows hnil
      omega
  rw [hheights]
  exact List.mem_append_right _ (List.mem_range'_1.2 (by omega))

/-- **From inside the cached range** the backfill is the same exactly when the new block is
below the start and does not move a block at or above it. -/
theorem alike_of_served (hm : Miss c c' b) (hk : Keyed c) (hb : b.height < 2 ^ 64)
    (hw : cacheWindow c = some (mn, mx)) (hlow : mn ≤ h)
    (hok : backfill prost archive c head h = .ok rows) :
    (∃ rows', backfill prost archive c' head h = .ok rows' ∧ rows'.map seen = rows.map seen) ↔
      b.height < h ∧ ∀ k y, c.getByHeight k = some y → y.1 = b.blockId → k < h ∧ k ≠ mx := by
  have hk' := hm.keyed hk hb
  obtain ⟨hmn, hmx, hbounds⟩ := cacheWindow_iff.1 hw
  obtain ⟨archived, k₀, hrows, hfrom, -, hhigh, hall, hrowseq, hheights⟩ :=
    backfill_of_window hk hw hok
  obtain rfl : archived = [] := (Except.ok.inj ((archiveRows_of_le hlow).symm.trans hrows)).symm
  obtain rfl : h = k₀ := hfrom
  rw [heights_nil, List.nil_append] at hheights
  have hnew : c'.getByHeight b.height ≠ none := by rw [hm.new]; simp
  obtain ⟨mn', mx', hw', hmn', hmx'⟩ := exists_cacheWindow hnew
  constructor
  · rintro ⟨rows', hok', hseen⟩
    have heq := heights_eq_of_seen hseen
    -- above the start it would be above the tip, and served
    have hlt : b.height < h := by
      by_contra hge
      have htip := tip_mem_heights hk' hw' (by omega) hok'
      rw [heq, hheights, List.mem_range'_1] at htip
      exact hall b.height (List.mem_range'_1.2 (by omega)) hm.absent
    obtain ⟨archived', k', hrows', hfrom', -, hhigh', hall', -, hheights'⟩ :=
      backfill_of_window hk' hw' hok'
    obtain rfl : archived' = [] :=
      (Except.ok.inj ((archiveRows_of_le (by omega)).symm.trans hrows')).symm
    obtain rfl : h = k' := hfrom'
    rw [heights_nil, List.nil_append, heq, hheights] at hheights'
    have hlen := congrArg List.length hheights'
    rw [List.length_range', List.length_range'] at hlen
    obtain rfl : mx' = mx := by omega
    refine ⟨hlt, fun k y hy hid => ⟨?_, ?_⟩⟩
    · by_contra hge
      have := (hbounds k (by rw [hy]; simp)).2
      exact hall' k (List.mem_range'_1.2 (by omega)) (hm.lost k y hy hid)
    · rintro rfl
      exact (cacheWindow_iff.1 hw').2.1 (hm.lost _ y hy hid)
  · rintro ⟨hlt, hids⟩
    have hkept : ∀ k, (h ≤ k ∨ k = mx) → ∀ y, c.getByHeight k = some y →
        c'.getByHeight k = some y := by
      intro k hor y hy
      refine hm.kept k y hy (fun hid => ?_) ?_
      · have := hids k y hy hid
        omega
      · rcases hor with hge | rfl
        · omega
        · have hne : b.height ≠ k := by
            rintro heq
            rw [← heq, hm.absent] at hy
            cases hy
          omega
    obtain rfl : mx' = mx := by
      obtain ⟨y, hy⟩ := Option.ne_none_iff_exists'.1 hmx
      have hle := ((cacheWindow_iff.1 hw').2.2 mx (by rw [hkept mx (Or.inr rfl) y hy]; simp)).2
      rcases hm.cached (cacheWindow_iff.1 hw').2.1 with heq | hold
      · omega
      · have := (hbounds mx' hold).2
        omega
    have hsame : ∀ i ∈ List.range' h (mx' + 1 - h), c'.getByHeight i = c.getByHeight i := by
      intro i hi
      obtain ⟨y, hy⟩ := Option.ne_none_iff_exists'.1 (hall i hi)
      rw [hy]
      exact hkept i (Or.inl (List.mem_range'_1.1 hi).1) y hy
    refine ⟨rows, backfill_ok_iff.2 ⟨[], stored c' (List.range' h (mx' + 1 - h)), ?_, ?_, ?_⟩, rfl⟩
    · rw [hw']
      exact archiveRows_of_le (by omega)
    · rw [hw']
      obtain ⟨_, _, hrows₀, hcached₀, -⟩ := backfill_ok_iff.1 hok
      rw [hw] at hrows₀ hcached₀
      obtain rfl := Except.ok.inj ((archiveRows_of_le hlow).symm.trans hrows₀)
      refine cacheRows_some_ok_iff.2 ⟨?_, (cacheRows_some_ok_iff.1 hcached₀).2.1, ?_, rfl⟩
      · exact hmn'.trans hlt.le
      · intro i hi
        rw [hsame i hi]
        exact hall i hi
    · rw [hrowseq, stored_congr hsame]

/-- What the cache holds and what the archive served below it, when the request needs the
archive: the heights `s, s + 1, …, s + n - 1` are cached, and the walk served rows of
`arc` from `h` up to below them. -/
structure Below (prost : Prost) (c : BlockCache BufferedBlock) (arc : BlockArchive) (h hi : ℕ)
    (archived : List Response) (s n : ℕ) : Prop where
  walk : archiveWalk prost arc h hi = .ok archived
  served : archived ≠ []
  cached : ∀ k, c.getByHeight k ≠ none ↔ k ∈ List.range' s n
  low : 0 < n → hi < s

variable {arc : BlockArchive} {hi s n : ℕ} {archived : List Response}

/-- A second run that serves the same heights does not start above the new block. -/
theorem Below.le_new (ho : Below prost c arc h hi archived s n) (hm : Miss c c' b) (hk' : Keyed c')
    (hheights : heights rows' = heights archived ++ List.range' s n)
    (hok' : backfill prost (some arc) c' head h = .ok rows') : h ≤ b.height := by
  by_contra hlt
  have hnew : c'.getByHeight b.height ≠ none := by rw [hm.new]; simp
  obtain ⟨mn', mx', hw', hmn', -⟩ := exists_cacheWindow hnew
  obtain ⟨archived', k', hrows', hfrom', -, hhigh', hall', -, hheights'⟩ :=
    backfill_of_window hk' hw' hok'
  obtain rfl : archived' = [] :=
    (Except.ok.inj ((archiveRows_of_le (by omega)).symm.trans hrows')).symm
  obtain rfl : h = k' := hfrom'
  obtain ⟨k, hmem⟩ := List.exists_mem_of_ne_nil _ (heights_ne_nil ho.walk ho.served)
  have hmem' : k ∈ heights rows' := by
    rw [hheights]
    exact List.mem_append_left _ hmem
  rw [hheights', heights_nil, List.nil_append, List.mem_range'_1] at hmem'
  have hcached := hm.cached (hall' h (List.mem_range'_1.2 (by omega)))
  rw [ho.cached, List.mem_range'_1] at hcached
  have := of_mem_heights ho.walk hmem
  have := ho.low
  omega

/-- **A second run that serves the same heights serves the new block**: the window of the
second cache reaches from it or below to it or above, and what the archive serves ends at
the bottom of the window. -/
theorem Below.new_mem (ho : Below prost c arc h hi archived s n) (hm : Miss c c' b) (hk' : Keyed c')
    (hheights : heights rows' = heights archived ++ List.range' s n)
    (hok' : backfill prost (some arc) c' head h = .ok rows') : b.height ∈ heights rows' := by
  have hnew : c'.getByHeight b.height ≠ none := by rw [hm.new]; simp
  obtain ⟨mn', mx', hw', hmn', hmx'⟩ := exists_cacheWindow hnew
  obtain ⟨archived', start, hrows', hfrom', -, -, -, -, hheights'⟩ :=
    backfill_of_window hk' hw' hok'
  have hstart : start ≤ b.height := by
    by_cases hnil : archived' = []
    · rw [← hfrom', hnil]
      exact ho.le_new hm hk' hheights hok'
    · have := cacheWalkFrom_le hrows' hnil
      omega
  rw [hheights']
  exact List.mem_append_right _ (List.mem_range'_1.2 (by omega))

/-- **From below the cached range**, if the backfill is the same then the archive held a row
at the new block's height. -/
theorem Below.get_of_alike (ho : Below prost c arc h hi archived s n) (hm : Miss c c' b)
    (hk : Keyed c) (hb : b.height < 2 ^ 64)
    (hrows : rows = archived ++ (stored c (List.range' s n)).map (cachedResponse prost head))
    (hok' : backfill prost (some arc) c' head h = .ok rows') (hseen : rows'.map seen = rows.map seen) :
    ∃ row, arc.get b.height = .ok (some row) := by
  have hks : ∀ k ∈ List.range' s n, c.getByHeight k ≠ none := fun k hk => (ho.cached k).2 hk
  have heq : heights rows' = heights archived ++ List.range' s n := by
    rw [heights_eq_of_seen hseen, hrows, heights_append, heights_stored hk hks]
  have hmem := ho.new_mem hm (hm.keyed hk hb) heq hok'
  rw [heq, List.mem_append] at hmem
  rcases hmem with hmem | hmem
  · exact get_of_mem_heights ho.walk hmem
  · exact absurd hm.absent ((ho.cached b.height).2 hmem)

/-- The walk of the cache reads it through lookups only, so two caches with the same lookups
are walked alike. -/
theorem walkLoop_congr (hsame : ∀ k, c'.getByHeight k = c.getByHeight k) (n k : ℕ)
    (bs : List BufferedBlock) : walkLoop c' n k bs = walkLoop c n k bs := by
  induction n generalizing k bs with
  | zero => rfl
  | succ n ih =>
    unfold walkLoop
    rw [hsame k]
    cases c.getByHeight k with
    | none => rfl
    | some y => exact ih (k + 1) _

/-- The backfill reads the map only. -/
theorem backfill_congr (hsame : c'.byHeight = c.byHeight) :
    backfill prost archive c' head h = backfill prost archive c head h := by
  have hwindow : cacheWindow c' = cacheWindow c := by
    rw [cacheWindow, cacheWindow, BlockCache.minHeight, BlockCache.maxHeight, hsame]
    rfl
  have hwalk : ∀ n k bs, walkLoop c' n k bs = walkLoop c n k bs :=
    walkLoop_congr fun k => by rw [BlockCache.getByHeight, hsame]; rfl
  unfold backfill cacheRows
  simp only [hwindow, hwalk]

end Compare

/-! ### The relayer's caches -/

/-- The write of a block at its own height keeps every entry at its block's height. -/
theorem Keyed.insert {c : BlockCache BufferedBlock} (hk : Keyed c) (hwf : c.Wf) {b : BufferedBlock}
    (hb : b.height < 2 ^ 64) : Keyed (c.insert b.height b.blockId b).1 := by
  intro x hx
  rcases BlockCache.of_mem_insert hwf hx with rfl | ⟨hold, -⟩
  · exact ⟨rfl, hb⟩
  · exact hk x hold

/-- So does every output the relayer feeds to the cache: a `New` inserts, an `Undo` removes,
the others leave it. -/
theorem keyed_feedCache {c : BlockCache BufferedBlock} (hwf : c.Wf) (hk : Keyed c) {o : Output}
    (hb : ∀ b, o.newBlock = some b → b.height < 2 ^ 64) : Keyed (feedCache c o) := by
  cases o with
  | new s => exact hk.insert hwf (hb s.block rfl)
  | undo s => exact fun x hx => hk x (BlockCache.of_mem_removeById hx)
  | _ => exact hk

/-- A cache the relayer has filled, on any chain. -/
theorem filled_of_run {config : ReorgConfig} {calls : List Call} {e : ReorgEngine}
    {outs now : List Output} {capacity : ℕ} {cache : BlockCache BufferedBlock}
    (hr : runFresh config calls = some (e, outs)) (hnew : BlockCache.new capacity = some cache)
    (hnow : now <+: outs) :
    (now.foldl feedCache cache).Wf ∧ Keyed (now.foldl feedCache cache) := by
  have hlt : ∀ b ∈ accepted outs, b.height < 2 ^ 64 := (reached_of_runFresh hr).height_lt
  induction now using List.reverseRecOn with
  | nil =>
    refine ⟨BlockCache.wf_new hnew, ?_⟩
    obtain ⟨-, rfl⟩ := BlockCache.eq_of_new hnew
    exact keyed_empty capacity
  | append_singleton now o ih =>
    obtain ⟨hwf, hk⟩ := ih ((List.prefix_append _ _).trans hnow)
    rw [List.foldl_concat]
    refine ⟨wf_feedCache hwf o, keyed_feedCache hwf hk fun b hb => hlt b ?_⟩
    obtain ⟨rest, rfl⟩ := hnow
    simp [accepted, hb]

/-- **The call does not disturb the backfill**: the archive answers it, or the cache does,
or its entry is evicted at once, or the request is served from the cache alone, the new
block is below the start, and no block the backfill needs has its id. -/
def Harmless (archive : Option BlockArchive) (cache : BlockCache BufferedBlock) (h : ℕ)
    (b : BufferedBlock) : Prop :=
  (∃ a ∈ archive, ∃ row, a.get b.height = .ok (some row)) ∨
    cache.getByHeight b.height ≠ none ∨ cache.Evicts b.height b.blockId ∨
      (∃ mn ∈ cache.minHeight, mn ≤ h) ∧ b.height < h ∧
        ∀ k y, cache.getByHeight k = some y → y.1 = b.blockId → k < h ∧ cache.maxHeight ≠ some k

section Harmless

variable {prost : Prost} {archive : Option BlockArchive} {head : Option ℕ}
  {c c' : BlockCache BufferedBlock} {b : BufferedBlock} {h : ℕ} {rows archived : List Response}

/-- A request that needs the archive finds the cached range right above what it serves. -/
theorem exists_below {cached : List BufferedBlock}
    (hrows : archiveRows prost archive h (archiveSpan archive (cacheWindow c) h) = .ok archived)
    (hcached : cacheRows c archive.isSome (cacheWindow c) h archived = .ok cached)
    (hne : archived ≠ []) :
    ∃ arc hi s n, archive = some arc ∧ Below prost c arc h hi archived s n ∧
      cached = stored c (List.range' s n) := by
  cases archive with
  | none => exact absurd (Except.ok.inj hrows).symm hne
  | some arc =>
    cases hw : cacheWindow c with
    | none =>
      have hempty : ∀ k, c.getByHeight k = none := by
        intro k
        by_contra hk
        obtain ⟨mn, mx, hw', -⟩ := exists_cacheWindow hk
        rw [hw] at hw'
        cases hw'
      rw [hw] at hrows hcached
      obtain ⟨-, rfl⟩ := cacheRows_none_ok_iff.1 hcached
      cases htop : arc.maxHeight with
      | none =>
        have hspan : archiveSpan (some arc) none h = none := by simp only [archiveSpan, htop]
        rw [hspan, archiveRows_none_span] at hrows
        exact absurd (Except.ok.inj hrows).symm hne
      | some top =>
        by_cases hle : h ≤ top
        · have hspan : archiveSpan (some arc) none h = some top := by
            simp only [archiveSpan, htop, if_pos hle]
          rw [hspan, archiveRows_some_ok_iff] at hrows
          exact ⟨arc, top, 0, 0, rfl, ⟨hrows, hne, by simp [hempty], by omega⟩, rfl⟩
        · have hspan : archiveSpan (some arc) none h = none := by
            simp only [archiveSpan, htop, if_neg hle]
          rw [hspan, archiveRows_none_span] at hrows
          exact absurd (Except.ok.inj hrows).symm hne
    | some w =>
      obtain ⟨mn, mx⟩ := w
      rw [hw] at hrows hcached
      have hlt : h < mn := by
        by_contra hge
        rw [archiveRows_of_le (by omega)] at hrows
        exact hne (Except.ok.inj hrows).symm
      have hle := cacheWalkFrom_le hrows hne
      rw [archiveRows_of_lt hlt] at hrows
      obtain ⟨hlow, -, hall, rfl⟩ := cacheRows_some_ok_iff.1 hcached
      have hfrom : cacheWalkFrom h archived = mn := by omega
      rw [hfrom] at hall
      have hbounds := cacheWindow_iff.1 hw
      have hmnmx := (hbounds.2.2 mn hbounds.1).2
      refine ⟨arc, mn - 1, mn, mx + 1 - mn, rfl, ⟨hrows, hne, fun k => ?_, by omega⟩, by rw [hfrom]⟩
      refine ⟨fun hk => ?_, hall k⟩
      have := hbounds.2.2 k hk
      exact List.mem_range'_1.2 (by omega)

/-- A backfill accepted after a miss that stayed, served from the archive first, has not
changed only if the archive holds a row of the new block's height. -/
theorem get_of_alike {cached : List BufferedBlock} {rows' : List Response} (hm : Miss c c' b)
    (hk : Keyed c) (hb : b.height < 2 ^ 64)
    (hrows : archiveRows prost archive h (archiveSpan archive (cacheWindow c) h) = .ok archived)
    (hcached : cacheRows c archive.isSome (cacheWindow c) h archived = .ok cached)
    (hne : archived ≠ []) (hok' : backfill prost archive c' head h = .ok rows')
    (hseen : rows'.map seen = (archived ++ cached.map (cachedResponse prost head)).map seen) :
    ∃ a ∈ archive, ∃ row, a.get b.height = .ok (some row) := by
  obtain ⟨arc, hi, s, n, rfl, ho, rfl⟩ := exists_below hrows hcached hne
  exact ⟨arc, rfl, ho.get_of_alike hm hk hb rfl hok' hseen⟩

end Harmless

/-- **When a `Fetch.Block` does not disturb a `Stream.Blocks`.**  For every cache the relayer
can have filled, every archive, start height and height fetched, and every block of that
height the upstream answers with: if the request is accepted without the call, it is
accepted after it with the same heights and payloads exactly when the call is harmless. -/
theorem fetch_harmless_iff (prost : Prost) (config : ReorgConfig) (calls : List Call)
    (e : ReorgEngine) (outs now : List Output) (capacity : ℕ) (cache : BlockCache BufferedBlock)
    (archive : Option BlockArchive) (head : Option ℕ)
    (inner : ℕ → Except String (Option (BufferedBlock × BlockFinality)))
    (req : SingleBlockRequest) (h f : ℕ) (b : BufferedBlock) (finality : BlockFinality)
    (rows : List Response) (hr : runFresh config calls = some (e, outs))
    (hnew : BlockCache.new capacity = some cache) (hnow : now <+: outs)
    (hreq : fetchHeight req = .ok f) (hinner : inner f = .ok (some (b, finality)))
    (hb : b.height = f) (hf : f < 2 ^ 64)
    (hok : backfill prost archive (now.foldl feedCache cache) head h = .ok rows) :
    (∃ rows', backfill prost archive
        (FetchService.serve prost archive inner (now.foldl feedCache cache) head req).1 head h =
          .ok rows' ∧ rows'.map seen = rows.map seen) ↔
      Harmless archive (now.foldl feedCache cache) h b := by
  obtain ⟨hwf, hk⟩ := filled_of_run hr hnew hnow
  generalize now.foldl feedCache cache = c at *
  subst hb
  rw [FetchService.serve_fst hreq]
  by_cases harchived : ∃ a ∈ archive, ∃ row, a.get b.height = .ok (some row)
  · rw [if_pos (isSome_fetchArchived.2 harchived)]
    exact iff_of_true ⟨rows, hok, rfl⟩ (Or.inl harchived)
  rw [if_neg (mt isSome_fetchArchived.1 harchived)]
  by_cases hhit : c.getByHeight b.height ≠ none
  · obtain ⟨y, hy⟩ := Option.ne_none_iff_exists'.1 hhit
    refine iff_of_true ⟨rows, ?_, rfl⟩ (Or.inr (Or.inl hhit))
    simp only [fetchBlockByNumber, probe, hy, Option.map_some]
    exact hok
  have habsent : c.getByHeight b.height = none := not_not.1 hhit
  have hfetch : (fetchBlockByNumber inner c head b.height).1 =
      (c.insert b.height b.blockId b).1 := by
    simp only [fetchBlockByNumber, probe, habsent, Option.map_none, hinner, populate]
  rw [hfetch]
  by_cases hev : c.Evicts b.height b.blockId
  · refine iff_of_true ⟨rows, ?_, rfl⟩ (Or.inr (Or.inr (Or.inl hev)))
    rw [backfill_congr (BlockCache.insert_of_evicts hwf hev b)]
    exact hok
  have hm := miss_of_insert hwf habsent hev
  have hharm : Harmless archive c h b ↔ (∃ mn ∈ c.minHeight, mn ≤ h) ∧ b.height < h ∧
      ∀ k y, c.getByHeight k = some y → y.1 = b.blockId → k < h ∧ c.maxHeight ≠ some k := by
    rw [Harmless, or_iff_right harchived, or_iff_right hhit, or_iff_right hev]
  rw [hharm]
  obtain ⟨archived, cached, hrows, hcached, rfl⟩ := backfill_ok_iff.1 hok
  by_cases hne : archived = []
  · subst hne
    cases hw : cacheWindow c with
    | none =>
      rw [hw] at hcached
      exact absurd rfl (cacheRows_none_ok_iff.1 hcached).1
    | some w =>
      obtain ⟨mn, mx⟩ := w
      rw [hw] at hcached
      have hlow : mn ≤ h := (cacheRows_some_ok_iff.1 hcached).1
      obtain ⟨hmin, hmax⟩ := cacheWindow_eq_some.1 hw
      rw [alike_of_served hm hk hf hw hlow hok, hmin, hmax]
      simp [eq_comm, hlow]
  · -- from below the window the archive would have to hold the fetched height
    refine iff_of_false (fun ⟨rows', hok', hseen⟩ => ?_) fun ⟨⟨mn, hmin, hle⟩, _⟩ => hne ?_
    · exact harchived (get_of_alike hm hk hf hrows hcached hne hok' hseen)
    · obtain ⟨mx, hw⟩ := exists_cacheWindow_of_minHeight hmin
      rw [hw, archiveRows_of_le hle] at hrows
      exact (Except.ok.inj hrows).symm

/-- A request for the block at a height. -/
def blockNumber (num : ℕ) : SingleBlockRequest := ⟨some (.blockNumber num), []⟩

/-- An upstream that answers with one block. -/
def answering (d : DecodedBlock) (_ : ℕ) : Except String (Option (BufferedBlock × BlockFinality)) :=
  .ok (some (grpcAnswer none d))

/-- Two blocks on the relayer's chain. -/
def twoAccepted : List Call := [.accept (synthAt 1 0 0) [], .accept (synthAt 2 0 0) []]

/-- **A call above the tip has the next backfill refused**: blocks 1 and 2 are cached, a
`Fetch.Block` for height 5 moves the top of the window to 5, and the walk from 1 fails at 3. -/
theorem fetch_disturbs : ¬ ∀ (prost : Prost) (config : ReorgConfig) (calls : List Call)
    (e : ReorgEngine) (outs now : List Output) (capacity : ℕ) (cache : BlockCache BufferedBlock)
    (archive : Option BlockArchive) (head : Option ℕ)
    (inner : ℕ → Except String (Option (BufferedBlock × BlockFinality)))
    (req : SingleBlockRequest) (h f : ℕ) (b : BufferedBlock) (finality : BlockFinality)
    (rows : List Response), runFresh config calls = some (e, outs) → ChainRule outs →
    BlockCache.new capacity = some cache → now <+: outs → fetchHeight req = .ok f →
    inner f = .ok (some (b, finality)) → b.height = f → f < 2 ^ 64 →
    backfill prost archive (now.foldl feedCache cache) head h = .ok rows →
    ∃ rows', backfill prost archive
        (FetchService.serve prost archive inner (now.foldl feedCache cache) head req).1 head h =
          .ok rows' ∧ rows'.map seen = rows.map seen := by
  intro hall
  obtain ⟨rows', hok', -⟩ := hall (prostOf []) ⟨4, 1⟩ twoAccepted _ _ _ 8 _ none none
    (answering (synthAt 5 0 0)) (blockNumber 5) 1 5 _ _ _ rfl (by decide) rfl List.prefix_rfl rfl rfl
    rfl (by decide) rfl
  cases hok'

/-- The hypotheses hold of a call for a block that is cached. -/
theorem fetch_harmless_iff_hit :
    ∃ e outs cache rows, runFresh ⟨4, 1⟩ twoAccepted = some (e, outs) ∧
      BlockCache.new 8 = some cache ∧
      backfill (prostOf []) none (outs.foldl feedCache cache) none 1 = .ok rows ∧
      ((∃ rows', backfill (prostOf []) none (FetchService.serve (prostOf []) none
          (answering (synthAt 2 0 0)) (outs.foldl feedCache cache) none (blockNumber 2)).1 none 1 =
            .ok rows' ∧ rows'.map seen = rows.map seen) ↔
        Harmless none (outs.foldl feedCache cache) 1 (grpcAnswer none (synthAt 2 0 0)).1) :=
  ⟨_, _, _, _, rfl, rfl, rfl, fetch_harmless_iff (prostOf []) ⟨4, 1⟩ twoAccepted _ _ _ 8 _ none none
    (answering (synthAt 2 0 0)) (blockNumber 2) 1 2 _ _ _ rfl rfl List.prefix_rfl rfl rfl rfl
    (by decide) rfl⟩

end Firehose
end Lightcycle
