/-
# What the backfill covers

On one state of archive and cache, the heights of the backfill are to be
`h, h + 1, …, B`, or the backfill is empty and `h` is one past the cache tip; any
other request is refused (`NoHole`).  The cache walk refuses at the first missing
height, so what it adds has no hole.  The archive walk does not look at the heights
of its rows: the request is accepted as soon as the last row touches the cache, or
the cache is empty.  `backfill_noHole_iff` is the condition on the archive under
which that is right.
-/

import Lightcycle.Firehose.Server

namespace Lightcycle
namespace Firehose

open Relayer Store

/-- Every block stands under its own height, a `u64`. -/
def Keyed (cache : BlockCache BufferedBlock) : Prop :=
  ∀ x ∈ cache.byHeight.entries, x.2.2.height = x.1 ∧ x.1 < 2 ^ 64

/-- The empty cache is filed by height. -/
theorem keyed_empty (capacity : ℕ) : Keyed ⟨.empty, ∅, capacity⟩ :=
  fun _ hx => (List.not_mem_nil hx).elim

/-- The heights of the responses, in order. -/
def heights (rows : List Response) : List ℕ := rows.filterMap fun r => r.metadata.map (·.num)

/-- The heights are those of either part. -/
theorem heights_append (rows rows' : List Response) :
    heights (rows ++ rows') = heights rows ++ heights rows' := List.filterMap_append

/-- The backfill has no hole from `h` on, or `h` is one past the cache tip; a refusal is a
failed precondition. -/
def NoHole (cache : BlockCache BufferedBlock) (h : ℕ) : Except Status (List Response) → Prop
  | .ok rows => (∃ n, 0 < n ∧ heights rows = List.range' h n) ∨
      (rows = [] ∧ ∃ tip, cache.maxHeight = some tip ∧ h = tip + 1)
  | .error status => status.code = .failedPrecondition

variable {prost : Prost} {cache : BlockCache BufferedBlock} {h : ℕ}

/-! ### The archive stage -/

variable (prost) in
/-- The archived heights a walk over `[lo, hi]` serves: of the first rows, up to the limit,
those whose payload decodes. -/
def archivedHeights (arc : BlockArchive) (lo hi : ℕ) : List ℕ :=
  ((arc.blocks.range lo hi).take archiveWalkLimit).filterMap fun x =>
    (prost.decode (x.2.drop 32)).map fun _ => x.1

/-- All the rows a walk over `[lo, hi]` reads have an id prefix. -/
def Unpacks (arc : BlockArchive) (lo hi : ℕ) : Prop :=
  ∀ x ∈ (arc.blocks.range lo hi).take archiveWalkLimit, 32 ≤ x.2.length

/-- A row that is long enough is served at its key when its payload decodes. -/
theorem num_archivedResponse {x : ℕ × List UInt8} (hx : 32 ≤ x.2.length) :
    ((BlockArchive.rowOf x).bind fun row => (archivedResponse prost row).bind fun r =>
      r.metadata.map (·.num)) = (prost.decode (x.2.drop 32)).map fun _ => x.1 := by
  obtain ⟨id, hid⟩ := BlockArchive.rowOf_of_le hx
  rw [hid, Option.bind_some, archivedResponse]
  cases prost.decode (x.2.drop 32) with
  | none => rfl
  | some pb => rfl

variable (prost) in
/-- **An archive walk whose rows are all long enough succeeds**, with the heights of the
rows that decode. -/
theorem archiveWalk_of_unpacks {arc : BlockArchive} {lo hi : ℕ} (hu : Unpacks arc lo hi) :
    ∃ rows, archiveWalk prost arc lo hi = .ok rows ∧
      heights rows = archivedHeights prost arc lo hi ∧ ∀ r ∈ rows, r.metadata.isSome := by
  refine ⟨(((arc.blocks.range lo hi).take archiveWalkLimit).filterMap BlockArchive.rowOf).filterMap
    (archivedResponse prost), ?_, ?_, ?_⟩
  · rw [archiveWalk, BlockArchive.range_of_forall hu]
    rfl
  · rw [heights, List.filterMap_filterMap, List.filterMap_filterMap]
    exact List.filterMap_congr fun x hx => num_archivedResponse (hu x hx)
  · intro r hr
    obtain ⟨row, -, hrow⟩ := List.mem_filterMap.1 hr
    obtain ⟨pb, -, rfl⟩ := Option.map_eq_some_iff.1 hrow
    rfl

variable (prost) in
/-- One short row fails the whole walk. -/
theorem archiveWalk_of_not_unpacks {arc : BlockArchive} {lo hi : ℕ} (hu : ¬ Unpacks arc lo hi) :
    ∃ e, archiveWalk prost arc lo hi = .error e := by
  unfold Unpacks at hu
  push Not at hu
  obtain ⟨e, he⟩ := BlockArchive.range_error hu
  exact ⟨e, by rw [archiveWalk, he]; rfl⟩

variable (prost) in
/-- The archive stage serves the archived heights, or refuses. -/
theorem archiveRows_eq (arc : BlockArchive) (h hi : ℕ) :
    (¬ Unpacks arc h hi ∧ ∃ status, archiveRows prost (some arc) h (some hi) = .error status ∧
        status.code = .failedPrecondition) ∨
      Unpacks arc h hi ∧ ∃ rows, archiveRows prost (some arc) h (some hi) = .ok rows ∧
        heights rows = archivedHeights prost arc h hi ∧ ∀ r ∈ rows, r.metadata.isSome := by
  by_cases hu : Unpacks arc h hi
  · obtain ⟨rows, hwalk, hh, hm⟩ := archiveWalk_of_unpacks prost hu
    exact Or.inr ⟨hu, rows, by simp only [archiveRows, hwalk], hh, hm⟩
  · obtain ⟨e, he⟩ := archiveWalk_of_not_unpacks prost hu
    refine Or.inl ⟨hu, ?_⟩
    simp only [archiveRows, he]
    exact ⟨_, rfl, rfl⟩

/-! ### The cache stage -/

/-- The last height backfilled, from the heights of the rows. -/
theorem lastBackfillHeight_eq {rows : List Response} (hm : ∀ r ∈ rows, r.metadata.isSome) :
    lastBackfillHeight rows = (heights rows).getLast? := by
  rcases List.eq_nil_or_concat rows with rfl | ⟨init, r, rfl⟩
  · rfl
  · obtain ⟨m, hr⟩ := Option.isSome_iff_exists.1 (hm r (by simp))
    have hlast : heights [r] = [m.num] := by simp [heights, hr]
    rw [lastBackfillHeight, List.concat_eq_append, List.getLast?_concat, heights_append, hlast,
      List.getLast?_concat, Option.bind_some, hr]
    rfl

/-- Where the cache walk starts, from the heights of the archive rows. -/
theorem cacheWalkFrom_eq {rows : List Response} (hm : ∀ r ∈ rows, r.metadata.isSome) :
    cacheWalkFrom h rows = ((heights rows).getLast?.map (saturatingAdd · 1)).getD h := by
  rw [← lastBackfillHeight_eq hm, lastBackfillHeight, Option.map_map]
  rfl

/-- **The cache walk** returns the blocks at the heights it goes through, or refuses at the
first height that is not cached. -/
theorem walkLoop_eq (hk : Keyed cache) (n height : ℕ) (rows : List BufferedBlock) :
    (∃ k, height ≤ k ∧ k < height + n ∧ cache.getByHeight k = none ∧
        ∃ status, walkLoop cache n height rows = .error status ∧
          status.code = .failedPrecondition) ∨
      ∃ tail, walkLoop cache n height rows = .ok (rows ++ tail) ∧
        tail.map (·.height) = List.range' height n ∧
        ∀ b ∈ tail, ∃ id, cache.getByHeight b.height = some (id, b) := by
  induction n generalizing height rows with
  | zero => exact Or.inr ⟨[], by rw [List.append_nil]; rfl, rfl, by simp⟩
  | succ n ih =>
    unfold walkLoop
    cases hget : cache.getByHeight height with
    | none =>
      exact Or.inl ⟨height, le_rfl, by omega, hget, _, rfl, rfl⟩
    | some x =>
      obtain ⟨id, b⟩ := x
      obtain rfl : b.height = height := (hk _ (SortedMap.get?_eq_some.1 hget)).1
      rcases ih (b.height + 1) (rows ++ [b]) with ⟨k, hle, hlt, hnone, herr⟩ | ⟨tail, hok, hh, hall⟩
      · exact Or.inl ⟨k, by omega, by omega, hnone, herr⟩
      · rw [List.append_assoc, List.singleton_append] at hok
        refine Or.inr ⟨b :: tail, hok, ?_, List.forall_mem_cons.2 ⟨⟨id, hget⟩, hall⟩⟩
        rw [List.map_cons, hh, List.range'_succ]

/-- The cached responses have the heights of their blocks. -/
theorem heights_map_cachedResponse (head : Option ℕ) (bs : List BufferedBlock) :
    heights (bs.map (cachedResponse prost head)) = bs.map (·.height) := by
  rw [heights, List.filterMap_map, ← List.filterMap_eq_map]
  rfl

/-- The window is the lowest and the highest height cached. -/
theorem cacheWindow_eq_some {mn mx : ℕ} :
    cacheWindow cache = some (mn, mx) ↔ cache.minHeight = some mn ∧ cache.maxHeight = some mx := by
  unfold cacheWindow
  cases cache.minHeight with
  | none => simp
  | some a =>
    cases cache.maxHeight with
    | none => simp
    | some b => simp

/-- The bounds of the window are heights of the cache. -/
theorem window_bounds (hk : Keyed cache) {mn mx : ℕ} (hw : cacheWindow cache = some (mn, mx)) :
    mn ≤ mx ∧ mx < 2 ^ 64 := by
  obtain ⟨hmin, hmax⟩ := cacheWindow_eq_some.1 hw
  obtain ⟨⟨u, hu⟩, -⟩ := SortedMap.minKey?_eq_some.1 hmin
  obtain ⟨⟨v, hv⟩, hall⟩ := SortedMap.maxKey?_eq_some.1 hmax
  exact ⟨hall _ hu, (hk _ hv).2⟩

/-- The next height is not below. -/
theorem le_saturatingAdd {m : ℕ} (hm : m < 2 ^ 64) : m ≤ saturatingAdd m 1 := by
  unfold saturatingAdd u64Max
  omega

/-- It is not more than one above. -/
theorem saturatingAdd_le (m : ℕ) : saturatingAdd m 1 ≤ m + 1 := by
  unfold saturatingAdd
  omega

/-- The archive rows touch the cache, which is complete, or the cache is empty. -/
def Joins (cache : BlockCache BufferedBlock) (hs : List ℕ) : Prop :=
  ∀ mn mx, cacheWindow cache = some (mn, mx) →
    hs.getLast? = some (mn - 1) ∧ ∀ k, mn ≤ k → k ≤ mx → cache.getByHeight k ≠ none

/-- The first of consecutive heights are consecutive. -/
theorem range'_prefix {hs tail : List ℕ} {n : ℕ} (he : hs ++ tail = List.range' h n) :
    hs = List.range' h hs.length := by
  have hlen : hs.length ≤ n := by
    have := congrArg List.length he
    rw [List.length_append, List.length_range'] at this
    omega
  have htake := congrArg (List.take hs.length) he
  rwa [List.take_left' rfl, List.take_range'_of_length_ge hlen] at htake

/-- What is left of a range after some of its start. -/
theorem range'_suffix {hs tail : List ℕ} {n : ℕ} (he : hs ++ tail = List.range' h n) :
    tail = List.range' (h + hs.length) (n - hs.length) := by
  have hdrop := congrArg (List.drop hs.length) he
  rwa [List.drop_left' rfl, List.drop_range', Nat.mul_one] at hdrop

/-- **The cache stage without archive rows**, on any snapshot: it refuses, or returns the
cached blocks from the start height to the tip of the snapshot. -/
theorem cacheRows_nil (hk : Keyed cache) (hasArchive : Bool) (window : Option (ℕ × ℕ)) (h : ℕ) :
    (∃ status, cacheRows cache hasArchive window h [] = .error status ∧
        status.code = .failedPrecondition) ∨
      ∃ mn mx cached, window = some (mn, mx) ∧ cacheRows cache hasArchive window h [] = .ok cached ∧
        mn ≤ h ∧ h ≤ mx + 1 ∧ cached.map (·.height) = List.range' h (mx + 1 - h) ∧
        ∀ b ∈ cached, ∃ id, cache.getByHeight b.height = some (id, b) := by
  unfold cacheRows
  cases window with
  | none =>
    simp only [true_and, if_true]
    split_ifs
    · exact Or.inl ⟨_, rfl, rfl⟩
    · exact Or.inl ⟨_, rfl, rfl⟩
  | some w =>
    obtain ⟨mn, mx⟩ := w
    have hfrom : cacheWalkFrom h [] = h := rfl
    simp only [hfrom]
    split_ifs with hlow hhigh
    · exact Or.inl ⟨_, rfl, rfl⟩
    · exact Or.inl ⟨_, rfl, rfl⟩
    · have hle := saturatingAdd_le mx
      rcases walkLoop_eq hk (mx + 1 - h) h [] with ⟨_, _, _, _, herr⟩ | ⟨bs, hok, hh, hall⟩
      · exact Or.inl herr
      · exact Or.inr ⟨mn, mx, bs, rfl, hok, by omega, by omega, hh, hall⟩

/-- Without archive rows the backfill has no hole. -/
theorem noHole_of_nil (hk : Keyed cache) (head : Option ℕ) (hasArchive : Bool) :
    NoHole cache h ((cacheRows cache hasArchive (cacheWindow cache) h []).map
      (backfillOf prost head [])) := by
  rcases cacheRows_nil hk hasArchive (cacheWindow cache) h with ⟨status, herr, hcode⟩ |
    ⟨mn, mx, cached, hw, hok, -, hle, hh, -⟩
  · rw [herr]
    exact hcode
  · rw [hok]
    rcases Nat.eq_zero_or_pos (mx + 1 - h) with hz | hpos
    · rw [hz] at hh
      obtain rfl : cached = [] := List.map_eq_nil_iff.1 hh
      exact Or.inr ⟨rfl, mx, (cacheWindow_eq_some.1 hw).2, by omega⟩
    · refine Or.inl ⟨_, hpos, ?_⟩
      rw [backfillOf, List.nil_append, heights_map_cachedResponse, hh]

variable (prost h) in
/-- Rows that end right below the cache: the walk of the cache fails when they do not join
it, and otherwise continues them up to the tip. -/
theorem noHole_of_joined (hk : Keyed cache) (head : Option ℕ) {rows : List Response} {l mx : ℕ}
    (hl : (heights rows).getLast? = some l) (hw : cacheWindow cache = some (l + 1, mx)) :
    NoHole cache h ((walkLoop cache (mx + 1 - (l + 1)) (l + 1) []).map
        (backfillOf prost head rows)) ↔
      (Joins cache (heights rows) → heights rows = List.range' h (heights rows).length) := by
  have hrows : rows ≠ [] := by
    rintro rfl
    cases hl
  have hpos : 0 < (heights rows).length :=
    List.length_pos_iff.2 (List.ne_nil_of_mem (List.mem_of_getLast? hl))
  obtain ⟨hle, -⟩ := window_bounds hk hw
  rcases walkLoop_eq hk (mx + 1 - (l + 1)) (l + 1) [] with
    ⟨k, hlk, hkm, hnone, status, herr, hcode⟩ | ⟨bs, hok, hh, hall⟩
  · rw [herr]
    exact ⟨fun _ hj => absurd hnone ((hj _ _ hw).2 k hlk (by omega)), fun _ => hcode⟩
  · rw [hok]
    have hback : heights (backfillOf prost head rows ([] ++ bs)) =
        heights rows ++ List.range' (l + 1) (mx + 1 - (l + 1)) := by
      rw [backfillOf, heights_append, heights_map_cachedResponse, List.nil_append, hh]
    constructor
    · rintro (⟨n, -, hn⟩ | ⟨hnil, -⟩) -
      · rw [hback] at hn
        exact range'_prefix hn
      · exact absurd (List.append_eq_nil_iff.1 hnil).1 hrows
    · intro hcov
      have hjoins : Joins cache (heights rows) := by
        intro mn' mx' hw'
        rw [hw] at hw'
        obtain ⟨rfl, rfl⟩ := Prod.mk.inj (Option.some.inj hw')
        refine ⟨hl, fun k hk₁ hk₂ => ?_⟩
        have hmem : k ∈ bs.map (·.height) := by
          rw [hh]
          exact List.mem_range'_1.2 ⟨hk₁, by omega⟩
        obtain ⟨b, hb, rfl⟩ := List.mem_map.1 hmem
        obtain ⟨id, hid⟩ := hall b hb
        rw [hid]
        simp
      have hrange := hcov hjoins
      have hl' : h + (heights rows).length - 1 = l := by
        rw [hrange, List.getLast?_range', if_neg (by omega), Option.some.injEq] at hl
        exact hl
      refine Or.inl ⟨(heights rows).length + (mx + 1 - (l + 1)), by omega, ?_⟩
      rw [hback, ← List.range'_append_1, ← hrange,
        show h + (heights rows).length = l + 1 by omega]

variable (prost h) in
/-- **With archive rows the backfill has no hole exactly when they have none**, once they
join the cache. -/
theorem noHole_of_rows (hk : Keyed cache) (head : Option ℕ) (hasArchive : Bool)
    {rows : List Response} (hm : ∀ r ∈ rows, r.metadata.isSome) (hne : heights rows ≠ [])
    (hlast : ∀ mn mx, cacheWindow cache = some (mn, mx) → ∀ l ∈ heights rows, l < mn) :
    NoHole cache h ((cacheRows cache hasArchive (cacheWindow cache) h rows).map
        (backfillOf prost head rows)) ↔
      (Joins cache (heights rows) → heights rows = List.range' h (heights rows).length) := by
  have hrows : rows ≠ [] := by
    rintro rfl
    exact hne rfl
  have hpos : 0 < (heights rows).length := List.length_pos_iff.2 hne
  unfold cacheRows
  cases hw : cacheWindow cache with
  | none =>
    have hjoins : Joins cache (heights rows) := by
      intro mn mx hsome
      rw [hw] at hsome
      cases hsome
    simp only [hrows, false_and, if_false]
    have hback : backfillOf prost head rows [] = rows := List.append_nil _
    constructor
    · rintro (⟨n, -, hn⟩ | ⟨hnil, -⟩) -
      · rw [hback] at hn
        exact range'_prefix ((List.append_nil _).trans hn)
      · exact absurd (hback ▸ hnil) hrows
    · intro hcov
      refine Or.inl ⟨_, hpos, ?_⟩
      rw [hback]
      exact hcov hjoins
  | some w =>
    obtain ⟨mn, mx⟩ := w
    obtain ⟨hle, hmx⟩ := window_bounds hk hw
    obtain ⟨l, hl⟩ : ∃ l, (heights rows).getLast? = some l := by
      cases hg : (heights rows).getLast? with
      | none => exact absurd (List.getLast?_eq_none_iff.1 hg) hne
      | some l => exact ⟨l, rfl⟩
    have hlmn : l < mn := hlast mn mx hw l (List.mem_of_getLast? hl)
    have hfrom : cacheWalkFrom h rows = l + 1 := by
      rw [cacheWalkFrom_eq hm, hl, Option.map_some, Option.getD_some]
      exact saturatingAdd_of_lt hlmn (by unfold u64Max; omega)
    have htip := le_saturatingAdd hmx
    simp only [hfrom]
    split_ifs with hlow hhigh
    · -- the rows stop short of the cache: refused
      refine ⟨fun _ hj => ?_, fun _ => rfl⟩
      have := (hj mn mx hw).1
      rw [hl, Option.some.injEq] at this
      omega
    · omega
    · obtain rfl : mn = l + 1 := by omega
      exact noHole_of_joined prost h hk head hl hw

/-- There is one height for each response with metadata. -/
theorem length_heights {rows : List Response} (hm : ∀ r ∈ rows, r.metadata.isSome) :
    (heights rows).length = rows.length := by
  induction rows with
  | nil => rfl
  | cons r rows ih =>
    obtain ⟨hr, hrows⟩ := List.forall_mem_cons.1 hm
    obtain ⟨m, hr⟩ := Option.isSome_iff_exists.1 hr
    have hcons : heights (r :: rows) = m.num :: heights rows := by simp [heights, hr]
    rw [hcons, List.length_cons, List.length_cons, ih hrows]

/-- An archive walk below the window serves heights below the window. -/
theorem lt_of_mem_archivedHeights {arc : BlockArchive} {hi mn mx l : ℕ}
    (hspan : archiveSpan (some arc) (some (mn, mx)) h = some hi)
    (hl : l ∈ archivedHeights prost arc h hi) : l < mn := by
  have hhi : hi < mn := by
    simp only [archiveSpan] at hspan
    split_ifs at hspan with hlt
    rw [Option.some.injEq] at hspan
    omega
  obtain ⟨x, hx, hdec⟩ := List.mem_filterMap.1 hl
  obtain ⟨pb, -, rfl⟩ := Option.map_eq_some_iff.1 hdec
  have := (SortedMap.mem_range.1 (List.mem_of_mem_take hx)).2.2
  omega

variable (prost) in
/-- The archive walk of the request, when the handler lets its rows through, serves every
height from `h` on: the rows read unpack, and the ones that decode are non-empty and join
the cache. -/
def ArchiveWhole (archive : Option BlockArchive) (cache : BlockCache BufferedBlock) (h : ℕ) :
    Prop :=
  ∀ arc hi, archive = some arc → archiveSpan archive (cacheWindow cache) h = some hi →
    Unpacks arc h hi → archivedHeights prost arc h hi ≠ [] →
    Joins cache (archivedHeights prost arc h hi) →
    archivedHeights prost arc h hi = List.range' h (archivedHeights prost arc h hi).length

/-- **When the backfill has no silent hole.**  For every archive, cache and start height,
the accepted backfill is `h, h + 1, …, B` (or empty one past the tip) and every other
request is refused as a failed precondition, exactly when the archived rows that the
handler lets through have no hole themselves. -/
theorem backfill_noHole_iff (prost : Prost) (archive : Option BlockArchive)
    (cache : BlockCache BufferedBlock) (head : Option ℕ) (h : ℕ) (hk : Keyed cache) :
    NoHole cache h (backfill prost archive cache head h) ↔ ArchiveWhole prost archive cache h := by
  have hnil : archiveRows prost archive h (archiveSpan archive (cacheWindow cache) h) = .ok [] →
      NoHole cache h (backfill prost archive cache head h) := by
    intro hrows
    rw [backfill, hrows]
    exact noHole_of_nil hk head archive.isSome
  cases archive with
  | none => exact ⟨fun _ arc hi harc => (by cases harc), fun _ => hnil rfl⟩
  | some arc =>
    cases hspan : archiveSpan (some arc) (cacheWindow cache) h with
    | none =>
      refine ⟨fun _ arc' hi _ hs => ?_, fun _ => hnil (by rw [hspan]; rfl)⟩
      rw [hspan] at hs
      cases hs
    | some hi =>
      have hwhole : ArchiveWhole prost (some arc) cache h ↔ (Unpacks arc h hi →
          archivedHeights prost arc h hi ≠ [] → Joins cache (archivedHeights prost arc h hi) →
          archivedHeights prost arc h hi =
            List.range' h (archivedHeights prost arc h hi).length) := by
        refine ⟨fun hw => hw arc hi rfl hspan, fun hw arc' hi' harc hs => ?_⟩
        obtain rfl := Option.some.inj harc
        rw [hspan] at hs
        obtain rfl := Option.some.inj hs
        exact hw
      rw [hwhole]
      rcases archiveRows_eq prost arc h hi with ⟨hu, status, hstage, hcode⟩ |
        ⟨hu, rows, hstage, hh, hm⟩
      · refine ⟨fun _ hu' => absurd hu' hu, fun _ => ?_⟩
        rw [backfill, hspan, hstage]
        exact hcode
      · rw [← hh]
        by_cases hne : heights rows = []
        · have hr : rows = [] := by
            rw [← List.length_eq_zero_iff, ← length_heights hm, hne]
            rfl
          refine ⟨fun _ _ hne' => absurd hne hne', fun _ => hnil ?_⟩
          rw [hspan, hstage, hr]
        · have hiff := noHole_of_rows prost h hk head true hm hne
            (fun mn mx hw l hl => lt_of_mem_archivedHeights (hw ▸ hspan) (hh ▸ hl))
          rw [backfill, hspan, hstage]
          exact hiff.trans ⟨fun himp _ _ => himp, fun himp => himp hu hne⟩

/-- Rows with an empty payload at the given heights. -/
def emptyRows (hs : List ℕ) : BlockArchive :=
  BlockArchive.empty.putBatch (hs.map fun h => (h, BlockId.fill 0, []))

/-- **A hole in the archive is served**: with rows 1 and 3 and an empty cache, a request
from height 1 is accepted and its backfill skips height 2. -/
theorem backfill_hole : ¬ ∀ (prost : Prost) (archive : Option BlockArchive)
    (cache : BlockCache BufferedBlock) (head : Option ℕ) (h : ℕ), Keyed cache →
      NoHole cache h (backfill prost archive cache head h) := by
  intro hall
  have hno := hall (prostOf []) (some (emptyRows [1, 3])) ⟨.empty, ∅, 1⟩ none 1
    (keyed_empty 1)
  have hrows : (backfill (prostOf []) (some (emptyRows [1, 3])) ⟨.empty, ∅, 1⟩ none 1).map heights =
      .ok [1, 3] := rfl
  cases hb : backfill (prostOf []) (some (emptyRows [1, 3])) ⟨.empty, ∅, 1⟩ none 1 with
  | error status =>
    rw [hb] at hrows
    cases hrows
  | ok rows =>
    rw [hb] at hno hrows
    have hh : heights rows = [1, 3] := Except.ok.inj hrows
    rcases hno with ⟨n, -, hn⟩ | ⟨-, tip, htip, -⟩
    · have hlen : n = 2 := by
        have := congrArg List.length hn
        rw [hh, List.length_range'] at this
        exact this.symm
      rw [hh, hlen] at hn
      revert hn
      decide
    · cases htip

/-- The hypotheses hold of a cold start on an archive of two rows. -/
theorem backfill_noHole_iff_cold : Keyed (⟨.empty, ∅, 1⟩ : BlockCache BufferedBlock) ∧
    (NoHole ⟨.empty, ∅, 1⟩ 1 (backfill (prostOf []) (some (emptyRows [1, 2])) ⟨.empty, ∅, 1⟩ none 1) ↔
      ArchiveWhole (prostOf []) (some (emptyRows [1, 2])) ⟨.empty, ∅, 1⟩ 1) :=
  ⟨keyed_empty 1, backfill_noHole_iff (prostOf []) _ _ none 1 (keyed_empty 1)⟩

end Firehose
end Lightcycle
