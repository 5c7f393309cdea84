/-
# A backfill through the lookups of the cache

The window and the walk of a backfill depend on the cache through its lookups alone: the
window is the lowest and the highest height that is cached (`cacheWindow_iff`), and the walk
succeeds when every height of it is (`walkLoop_ok_iff`).  The archive walk up to the window
reads the rows of a range in order (`archiveWalk_eq`), so what it returns lies in the range
(`of_mem_heights`) and is what a lookup of the same height reads (`get_of_mem_heights`).
-/

import Lightcycle.Firehose.Backfill

namespace Lightcycle
namespace Firehose

open Relayer Store

/-! ### The backfill through lookups -/

section Lookups

variable {c c' : BlockCache BufferedBlock} {h mn mx : ℕ}

/-- A height is cached exactly when the ordered map has an entry at it. -/
theorem getByHeight_ne_none {k : ℕ} :
    c.getByHeight k ≠ none ↔ ∃ y, (k, y) ∈ c.byHeight.entries := by
  rw [Option.ne_none_iff_exists']
  exact exists_congr fun y => SortedMap.get?_eq_some

/-- The window is the lowest and the highest height that is cached. -/
theorem cacheWindow_iff : cacheWindow c = some (mn, mx) ↔
    c.getByHeight mn ≠ none ∧ c.getByHeight mx ≠ none ∧
      ∀ k, c.getByHeight k ≠ none → mn ≤ k ∧ k ≤ mx := by
  rw [cacheWindow_eq_some, BlockCache.minHeight, BlockCache.maxHeight, SortedMap.minKey?_eq_some,
    SortedMap.maxKey?_eq_some, getByHeight_ne_none, getByHeight_ne_none]
  constructor
  · rintro ⟨⟨hmn, hlow⟩, hmx, hhigh⟩
    refine ⟨hmn, hmx, fun k hk => ?_⟩
    obtain ⟨y, hy⟩ := getByHeight_ne_none.1 hk
    exact ⟨hlow _ hy, hhigh _ hy⟩
  · rintro ⟨hmn, hmx, hall⟩
    exact ⟨⟨hmn, fun x hx => (hall x.1 (getByHeight_ne_none.2 ⟨x.2, hx⟩)).1⟩, hmx,
      fun x hx => (hall x.1 (getByHeight_ne_none.2 ⟨x.2, hx⟩)).2⟩

/-- A cache with an entry has a window. -/
theorem exists_cacheWindow {k : ℕ} (hk : c.getByHeight k ≠ none) :
    ∃ mn mx, cacheWindow c = some (mn, mx) ∧ mn ≤ k ∧ k ≤ mx := by
  obtain ⟨y, hy⟩ := getByHeight_ne_none.1 hk
  obtain ⟨a, ha⟩ : ∃ a, c.minHeight = some a := by
    cases he : c.minHeight with
    | some a => exact ⟨a, rfl⟩
    | none =>
      rw [BlockCache.minHeight, SortedMap.minKey?, Option.map_eq_none_iff,
        List.head?_eq_none_iff] at he
      rw [he] at hy
      cases hy
  obtain ⟨b, hb⟩ : ∃ b, c.maxHeight = some b := by
    cases he : c.maxHeight with
    | some b => exact ⟨b, rfl⟩
    | none =>
      rw [BlockCache.maxHeight, SortedMap.maxKey?, Option.map_eq_none_iff,
        List.getLast?_eq_none_iff] at he
      rw [he] at hy
      cases hy
  have hw : cacheWindow c = some (a, b) := cacheWindow_eq_some.2 ⟨ha, hb⟩
  exact ⟨a, b, hw, (cacheWindow_iff.1 hw).2.2 k hk⟩

/-- Its lower end is the lowest height cached. -/
theorem exists_cacheWindow_of_minHeight (h : c.minHeight = some mn) :
    ∃ mx, cacheWindow c = some (mn, mx) := by
  have hk : c.getByHeight mn ≠ none := getByHeight_ne_none.2 (SortedMap.minKey?_eq_some.1 h).1
  obtain ⟨mn', mx, hw, -⟩ := exists_cacheWindow hk
  obtain rfl := Option.some.inj (h.symm.trans (cacheWindow_eq_some.1 hw).1)
  exact ⟨mx, hw⟩

/-- The cached blocks at the given heights. -/
def stored (c : BlockCache BufferedBlock) (ks : List ℕ) : List BufferedBlock :=
  ks.filterMap fun k => (c.getByHeight k).map Prod.snd

/-- What is read at some heights depends on the lookups at these heights alone. -/
theorem stored_congr {ks : List ℕ} (h : ∀ k ∈ ks, c'.getByHeight k = c.getByHeight k) :
    stored c' ks = stored c ks :=
  List.filterMap_congr fun k hk => by rw [h k hk]

/-- When every height asked for is cached, and every entry lies at its block's own height,
the blocks read have exactly the heights asked for, in that order. -/
theorem map_height_stored (hk : Keyed c) {ks : List ℕ} (hall : ∀ k ∈ ks, c.getByHeight k ≠ none) :
    (stored c ks).map (·.height) = ks := by
  rw [stored, List.map_filterMap]
  conv_rhs => rw [← List.filterMap_some (l := ks)]
  refine List.filterMap_congr fun k hmem => ?_
  obtain ⟨y, hy⟩ := Option.ne_none_iff_exists'.1 (hall k hmem)
  rw [hy, Option.map_some, Option.map_some, (hk _ (SortedMap.get?_eq_some.1 hy)).1]

/-- The cache walk succeeds when every height is cached. -/
theorem walkLoop_ok_iff {n k : ℕ} {rows bs : List BufferedBlock} :
    walkLoop c n k rows = .ok bs ↔
      (∀ i ∈ List.range' k n, c.getByHeight i ≠ none) ∧ bs = rows ++ stored c (List.range' k n) := by
  induction n generalizing k rows with
  | zero => simp [walkLoop, stored, eq_comm]
  | succ n ih =>
    rw [List.range'_succ, List.forall_mem_cons]
    unfold walkLoop
    cases hget : c.getByHeight k with
    | none => simp
    | some x =>
      have hcons : stored c (k :: List.range' (k + 1) n) =
          x.2 :: stored c (List.range' (k + 1) n) := by
        rw [stored, List.filterMap_cons, hget]
        rfl
      simp only
      rw [ih, hcons, List.append_assoc, List.singleton_append]
      simp

/-- With nothing cached, a request is accepted only if the archive served it: the cache has
nothing to add, and an empty answer is an error. -/
theorem cacheRows_none_ok_iff {hasArchive : Bool} {rows : List Response} {bs : List BufferedBlock} :
    cacheRows c hasArchive none h rows = .ok bs ↔ rows ≠ [] ∧ bs = [] := by
  unfold cacheRows
  by_cases hr : rows = []
  · cases hasArchive with
    | _ => simp [hr]
  · simp [hr, eq_comm]

/-- With a window `mn..=mx`, the walk of the cache starts behind what the archive served. It
is accepted when it starts inside the window, or right above it, and finds every height up
to the tip; then it returns what is cached there. -/
theorem cacheRows_some_ok_iff {hasArchive : Bool} {rows : List Response}
    {bs : List BufferedBlock} : cacheRows c hasArchive (some (mn, mx)) h rows = .ok bs ↔
      mn ≤ cacheWalkFrom h rows ∧ cacheWalkFrom h rows ≤ saturatingAdd mx 1 ∧
        (∀ i ∈ List.range' (cacheWalkFrom h rows) (mx + 1 - cacheWalkFrom h rows),
          c.getByHeight i ≠ none) ∧
        bs = stored c (List.range' (cacheWalkFrom h rows) (mx + 1 - cacheWalkFrom h rows)) := by
  unfold cacheRows
  simp only
  split_ifs with hlow hhigh
  · refine iff_of_false (fun he => by cases he) fun hh => ?_
    omega
  · refine iff_of_false (fun he => by cases he) fun hh => ?_
    omega
  · rw [walkLoop_ok_iff, List.nil_append]
    exact ⟨fun hh => ⟨by omega, by omega, hh⟩, fun hh => hh.2.2⟩

/-- An accepted backfill is what the archive served for its span, and behind it what the
walk of the cache found. -/
theorem backfill_ok_iff {prost : Prost} {archive : Option BlockArchive} {head : Option ℕ}
    {rows : List Response} : backfill prost archive c head h = .ok rows ↔
      ∃ archived cached, archiveRows prost archive h (archiveSpan archive (cacheWindow c) h) =
          .ok archived ∧
        cacheRows c archive.isSome (cacheWindow c) h archived = .ok cached ∧
        rows = archived ++ cached.map (cachedResponse prost head) := by
  unfold backfill
  cases archiveRows prost archive h (archiveSpan archive (cacheWindow c) h) with
  | error e => simp
  | ok archived =>
    simp only [Except.ok.injEq]
    cases hrows : cacheRows c archive.isSome (cacheWindow c) h archived with
    | error e => simp [Except.map, hrows]
    | ok cached => simp [Except.map, hrows, backfillOf, eq_comm]

end Lookups

/-! ### The archive walk -/

section ArchiveWalk

variable {prost : Prost}

/-- The response of one row read. -/
def rowResponse (prost : Prost) (x : ℕ × List UInt8) : Option Response :=
  (BlockArchive.rowOf x).bind (archivedResponse prost)

/-- A row is served under the height of its key, whatever its payload says. -/
theorem num_rowResponse {x : ℕ × List UInt8} {r : Response} (hr : rowResponse prost x = some r) :
    ∃ m, r.metadata = some m ∧ m.num = x.1 := by
  obtain ⟨row, hrow, hres⟩ := Option.bind_eq_some_iff.1 hr
  obtain ⟨pb, -, rfl⟩ := Option.map_eq_some_iff.1 hres
  obtain ⟨p, -, rfl⟩ := Option.map_eq_some_iff.1 hrow
  exact ⟨_, rfl, rfl⟩

/-- When every row in reach has its id prefix, the walk returns what decodes among the first
5000 rows of the range, in order. -/
theorem archiveWalk_eq {arc : BlockArchive} {lo hi : ℕ} (hu : Unpacks arc lo hi) :
    archiveWalk prost arc lo hi =
      .ok (((arc.blocks.range lo hi).take archiveWalkLimit).filterMap (rowResponse prost)) := by
  rw [archiveWalk, BlockArchive.range_of_forall hu]
  simp only [Except.map, List.filterMap_filterMap]
  rfl

/-- And it fails at the first row without a prefix, so a walk that succeeded saw none. -/
theorem unpacks_of_ok {arc : BlockArchive} {lo hi : ℕ} {rows : List Response}
    (h : archiveWalk prost arc lo hi = .ok rows) : Unpacks arc lo hi := by
  by_contra hu
  obtain ⟨e, he⟩ := archiveWalk_of_not_unpacks prost hu
  rw [he] at h
  cases h

/-- What a walk returns carries metadata, with a height of the range asked for. -/
theorem mem_archiveWalk {arc : BlockArchive} {h hi : ℕ} {rows : List Response} {r : Response}
    (hwalk : archiveWalk prost arc h hi = .ok rows) (hr : r ∈ rows) :
    ∃ m, r.metadata = some m ∧ h ≤ m.num ∧ m.num ≤ hi := by
  rw [archiveWalk_eq (unpacks_of_ok hwalk)] at hwalk
  obtain rfl := Except.ok.inj hwalk
  obtain ⟨x, hx, hxr⟩ := List.mem_filterMap.1 hr
  obtain ⟨m, hm, hnum⟩ := num_rowResponse hxr
  refine ⟨m, hm, ?_⟩
  rw [hnum]
  exact (SortedMap.mem_range.1 (List.mem_of_mem_take hx)).2

/-- The part of `mem_archiveWalk` that the cursor behind the archive needs. -/
theorem isSome_of_mem_archiveWalk {arc : BlockArchive} {h hi : ℕ} {rows : List Response}
    {r : Response} (hwalk : archiveWalk prost arc h hi = .ok rows) (hr : r ∈ rows) :
    r.metadata.isSome := by
  obtain ⟨m, hm, -⟩ := mem_archiveWalk hwalk hr
  rw [hm]
  rfl

/-- The heights of a backfill are those its responses carry in their metadata. -/
theorem mem_heights {rows : List Response} {k : ℕ} :
    k ∈ heights rows ↔ ∃ r ∈ rows, ∃ m, r.metadata = some m ∧ m.num = k := by
  rw [heights, List.mem_filterMap]
  exact exists_congr fun r => and_congr_right fun _ => Option.map_eq_some_iff

/-- The heights a walk returns are those asked for. -/
theorem of_mem_heights {arc : BlockArchive} {h hi k : ℕ} {rows : List Response}
    (hwalk : archiveWalk prost arc h hi = .ok rows) (hk : k ∈ heights rows) : h ≤ k ∧ k ≤ hi := by
  obtain ⟨r, hr, m, hm, rfl⟩ := mem_heights.1 hk
  obtain ⟨m', hm', hrange⟩ := mem_archiveWalk hwalk hr
  rw [hm, Option.some.injEq] at hm'
  rwa [hm']

/-- A height the walk returns is one the archive reads a row at. -/
theorem get_of_mem_heights {arc : BlockArchive} {h hi k : ℕ} {rows : List Response}
    (hwalk : archiveWalk prost arc h hi = .ok rows) (hk : k ∈ heights rows) :
    ∃ row, arc.get k = .ok (some row) := by
  obtain ⟨r, hr, m, hm, rfl⟩ := mem_heights.1 hk
  rw [archiveWalk_eq (unpacks_of_ok hwalk)] at hwalk
  obtain rfl := Except.ok.inj hwalk
  obtain ⟨x, hx, hxr⟩ := List.mem_filterMap.1 hr
  obtain ⟨m', hm', hnum⟩ := num_rowResponse hxr
  obtain rfl := Option.some.inj (hm.symm.trans hm')
  obtain ⟨row, hrow, -⟩ := Option.bind_eq_some_iff.1 hxr
  obtain ⟨p, hp, -⟩ := Option.map_eq_some_iff.1 hrow
  have hget : arc.blocks.get? x.1 = some x.2 :=
    SortedMap.get?_eq_some.2 (SortedMap.mem_range.1 (List.mem_of_mem_take hx)).1
  refine ⟨p, ?_⟩
  simp only [hnum, BlockArchive.get, hget]
  cases hun : unpackValue x.1 x.2 with
  | error e =>
    rw [hun] at hp
    cases hp
  | ok row' =>
    rw [hun] at hp
    obtain rfl := Option.some.inj hp
    rfl

/-- A walk that returns something returns a height: no response of it lacks metadata. -/
theorem heights_ne_nil {arc : BlockArchive} {h hi : ℕ} {rows : List Response}
    (hwalk : archiveWalk prost arc h hi = .ok rows) (hne : rows ≠ []) : heights rows ≠ [] := by
  obtain ⟨r, hr⟩ := List.exists_mem_of_ne_nil rows hne
  obtain ⟨m, hm, -⟩ := mem_archiveWalk hwalk hr
  exact List.ne_nil_of_mem (mem_heights.2 ⟨r, hr, m, hm, rfl⟩)

end ArchiveWalk

/-! ### The archive stage under a window -/

section Stage

variable {prost : Prost} {archive : Option BlockArchive} {h mn mx : ℕ} {rows : List Response}

/-- Without a span to serve, the archive serves nothing, whether there is one or not. -/
theorem archiveRows_none_span : archiveRows prost archive h none = .ok [] := by
  cases archive with
  | _ => rfl

/-- From inside the window the archive is not walked. -/
theorem archiveRows_of_le (hle : mn ≤ h) :
    archiveRows prost archive h (archiveSpan archive (some (mn, mx)) h) = .ok [] := by
  have hspan : archiveSpan archive (some (mn, mx)) h = none := by
    cases archive with
    | none => rfl
    | some arc => exact if_neg (by omega)
  rw [hspan]
  exact archiveRows_none_span

/-- Over a span, the archive stage is the walk of that span, and fails only if the walk
does. -/
theorem archiveRows_some_ok_iff {arc : BlockArchive} {hi : ℕ} :
    archiveRows prost (some arc) h (some hi) = .ok rows ↔ archiveWalk prost arc h hi = .ok rows := by
  unfold archiveRows
  cases hwalk : archiveWalk prost arc h hi with
  | error e => simp [hwalk]
  | ok rows' => simp [hwalk]

/-- From below the window it is walked up to the window. -/
theorem archiveRows_of_lt {arc : BlockArchive} (hlt : h < mn) :
    archiveRows prost (some arc) h (archiveSpan (some arc) (some (mn, mx)) h) = .ok rows ↔
      archiveWalk prost arc h (mn - 1) = .ok rows := by
  have hspan : archiveSpan (some arc) (some (mn, mx)) h = some (mn - 1) := if_pos hlt
  rw [hspan, archiveRows_some_ok_iff]

/-- What the archive serves ends below the window. -/
theorem cacheWalkFrom_le (hrows : archiveRows prost archive h (archiveSpan archive (some (mn, mx)) h) =
    .ok rows) (hne : rows ≠ []) : cacheWalkFrom h rows ≤ mn := by
  cases archive with
  | none => exact absurd (Except.ok.inj hrows).symm hne
  | some arc =>
    rcases Nat.lt_or_ge h mn with hlt | hge
    · have hwalk := (archiveRows_of_lt hlt).1 hrows
      rw [cacheWalkFrom_eq fun r hr => isSome_of_mem_archiveWalk hwalk hr]
      obtain ⟨l, hl⟩ := Option.ne_none_iff_exists'.1 fun hnone =>
        heights_ne_nil hwalk hne (List.getLast?_eq_none_iff.1 hnone)
      have := of_mem_heights hwalk (List.mem_of_getLast? hl)
      have := saturatingAdd_le l
      rw [hl, Option.map_some, Option.getD_some]
      omega
    · rw [archiveRows_of_le hge] at hrows
      exact absurd (Except.ok.inj hrows).symm hne

end Stage

end Firehose
end Lightcycle
