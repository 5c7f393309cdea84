/-
# What the block cache is for

`BlockCache` keeps two maps, and every operation has to keep them in step: an insertion
may touch the prior height of the id, the entry displaced at the height, the new entry
and the evicted one, which can be the new one itself.  `Op.spec` says what the operations
are for, on one map and without an index: an insertion drops any entry of the id, sets
the height, and keeps the highest heights.

The two maps follow it exactly (`Wf.apply`), so after any operations the index is the
inverse of the content, the two lookups agree, and the content is what the abstract map
holds (`cache_refines`).
-/

import Lightcycle.Store.Cache

namespace Lightcycle
namespace Store

namespace BlockCache

variable {T : Type*}

/-- A mutating call of the cache. -/
inductive Op (T : Type*) where
  | insert (height : ℕ) (id : BlockId) (value : T)
  | removeById (id : BlockId)
  | pruneBelow (height : ℕ)

/-- The cache after one call. -/
def apply (c : BlockCache T) : Op T → BlockCache T
  | .insert height id value => (c.insert height id value).1
  | .removeById id => (c.removeById id).1
  | .pruneBelow height => (c.pruneBelow height).1

/-! ### The abstract map -/

/-- The content without the entry of an id. -/
def without (m : SortedMap ℕ (BlockId × T)) (id : BlockId) : SortedMap ℕ (BlockId × T) :=
  m.filter fun x => decide (x.2.1 ≠ id)

/-- The content with any entry of the id dropped and the height set. -/
def merged (m : SortedMap ℕ (BlockId × T)) (height : ℕ) (id : BlockId) (value : T) :
    SortedMap ℕ (BlockId × T) :=
  (without m id).insert height (id, value)

/-- What a call is for: the blocks of the highest heights, at most `capacity` of them. -/
def Op.spec (capacity : ℕ) (m : SortedMap ℕ (BlockId × T)) : Op T → SortedMap ℕ (BlockId × T)
  | .insert height id value => (merged m height id value).highest capacity
  | .removeById id => without m id
  | .pruneBelow height => m.filter fun x => decide (height ≤ x.1)

variable {c : BlockCache T} {m : SortedMap ℕ (BlockId × T)} {ids : Finmap fun _ : BlockId => ℕ}
  {height : ℕ} {id : BlockId} {v : T}

/-! ### Insertion -/

/-- The map before eviction is the abstract one. -/
theorem insert_dropPrior (h : Indexed c.byHeight c.byId) (height : ℕ) (id : BlockId) (v : T) :
    (c.dropPrior height id).insert height (id, v) = merged c.byHeight height id v := by
  refine SortedMap.ext_mem fun x => ?_
  rw [mem_merged h, merged, SortedMap.mem_insert, without, SortedMap.mem_filter, decide_eq_true_eq]
  refine or_congr_right ?_
  constructor
  · rintro ⟨hx, hheight, hid⟩
    exact ⟨⟨hx, hid⟩, hheight⟩
  · rintro ⟨⟨hx, hid⟩, hheight⟩
    exact ⟨hx, hheight, hid⟩

/-- The eviction loop reports whether it took anything off. -/
theorem evictLoop_evicted (capacity n : ℕ) (ids : Finmap fun _ : BlockId => ℕ) (evicted : Bool)
    (hn : m.size ≤ n) :
    (evictLoop capacity n m ids evicted).2.2 = true ↔ evicted = true ∨ capacity < m.size := by
  induction n generalizing m ids evicted with
  | zero =>
    rw [evictLoop]
    exact ⟨Or.inl, fun h => h.elim (fun h => h) fun h => by omega⟩
  | succ n ih =>
    unfold evictLoop
    split_ifs with hc
    · cases he : m.entries with
      | nil => simp [SortedMap.size, he] at hc
      | cons x xs =>
        obtain ⟨m', hpop, hm'⟩ := SortedMap.popFirst_eq_some he
        have hsize : m'.size ≤ n := by
          rw [SortedMap.size, he, List.length_cons] at hn
          rw [SortedMap.size, hm']
          omega
        rw [hpop]
        exact iff_of_true ((ih (ids.erase x.2.1) true hsize).2 (Or.inl rfl)) (Or.inr hc)
    · exact (or_iff_left hc).symm

/-- **What `insert` leaves** is the highest part of the merged content. -/
theorem byHeight_insert (h : Indexed c.byHeight c.byId) (height : ℕ) (id : BlockId) (v : T) :
    (c.insert height id v).1.byHeight = (merged c.byHeight height id v).highest c.capacity := by
  refine SortedMap.ext_entries ?_
  rw [entries_insert_eq, insert_dropPrior h, SortedMap.entries_highest]

/-- **What `insert` returns**: whether the restriction dropped an entry. -/
theorem insert_evicted_iff (h : Indexed c.byHeight c.byId) (height : ℕ) (id : BlockId) (v : T) :
    (c.insert height id v).2 = true ↔
      ∃ x ∈ (merged c.byHeight height id v).entries,
        x ∉ ((merged c.byHeight height id v).highest c.capacity).entries := by
  have hflag : (c.insert height id v).2 = true ↔ false = true ∨
      c.capacity < ((c.dropPrior height id).insert height (id, v)).size :=
    evictLoop_evicted _ _ _ _ le_rfl
  rw [hflag, insert_dropPrior h, SortedMap.exists_notMem_highest]
  exact or_iff_right Bool.false_ne_true

/-! ### Removal and pruning -/

/-- **What `remove_by_id` leaves** are the entries of the other ids. -/
theorem byHeight_removeById (h : Indexed c.byHeight c.byId) (id : BlockId) :
    (c.removeById id).1.byHeight = without c.byHeight id := by
  refine SortedMap.ext_mem fun x => ?_
  rw [without, SortedMap.mem_filter, decide_eq_true_eq]
  unfold removeById
  split
  · rename_i hnone
    refine (and_iff_left_of_imp fun hx hid => ?_).symm
    have hl := (h x.2.1 x.1).2 ⟨x.2.2, hx⟩
    rw [hid, hnone] at hl
    cases hl
  · rename_i k hk
    obtain ⟨w, hw⟩ := (h id k).1 hk
    rw [SortedMap.get?_eq_some.2 hw]
    refine SortedMap.mem_erase.trans (and_congr_right fun hx => not_congr ⟨fun hxk => ?_, fun hid => ?_⟩)
    · exact congrArg (·.2.1) (SortedMap.eq_of_mem_of_key_eq hx hw hxk)
    · have hxid : (x.1, id, x.2.2) ∈ c.byHeight.entries := hid ▸ hx
      exact h.height_eq hxid hw

/-- Pruning takes the entries below the height off the front. -/
theorem pruneBelowLoop_eq (height n removed : ℕ) (hn : m.size ≤ n) (h : Indexed m ids) :
    (pruneBelowLoop height n m ids removed).1 = m.filter (fun x => decide (height ≤ x.1)) ∧
      Indexed (pruneBelowLoop height n m ids removed).1
        (pruneBelowLoop height n m ids removed).2.1 := by
  induction n generalizing m ids removed with
  | zero =>
    have hnil : m.entries = [] := List.length_eq_zero_iff.1 (Nat.le_zero.1 hn)
    refine ⟨SortedMap.ext_entries ?_, h⟩
    rw [pruneBelowLoop, SortedMap.entries_filter, hnil]
    rfl
  | succ n ih =>
    unfold pruneBelowLoop
    cases he : m.entries with
    | nil =>
      obtain ⟨entries, sorted⟩ := m
      obtain rfl : entries = [] := he
      exact ⟨rfl, h⟩
    | cons x xs =>
      have hs := m.sorted
      rw [he, List.pairwise_cons] at hs
      obtain ⟨m', hpop, hm'⟩ := SortedMap.popFirst_eq_some he
      rw [hpop]
      simp only
      split_ifs with hle
      · -- the front is high enough, and everything is above the front
        refine ⟨(SortedMap.ext_entries ?_).symm, h⟩
        refine List.filter_eq_self.2 fun y hy => decide_eq_true ?_
        rw [he] at hy
        rcases List.mem_cons.1 hy with rfl | hy
        · exact hle
        · exact hle.trans (hs.1 y hy).le
      · have hsize : m'.size ≤ n := by
          rw [SortedMap.size, he, List.length_cons] at hn
          rw [SortedMap.size, hm']
          omega
        obtain ⟨hent, hidx⟩ := ih (removed + 1) hsize (h.popFirst he hm')
        refine ⟨hent.trans (SortedMap.ext_entries ?_), hidx⟩
        rw [SortedMap.entries_filter, SortedMap.entries_filter, hm', he,
          List.filter_cons_of_neg (by simpa using hle)]

/-- **What `prune_below` leaves** are the entries at the height and above it. -/
theorem byHeight_pruneBelow (h : Indexed c.byHeight c.byId) (height : ℕ) :
    (c.pruneBelow height).1.byHeight = c.byHeight.filter (fun x => decide (height ≤ x.1)) ∧
      Indexed (c.pruneBelow height).1.byHeight (c.pruneBelow height).1.byId :=
  pruneBelowLoop_eq height _ 0 le_rfl h

/-- Pruning keeps the cache well formed. -/
theorem Wf.pruneBelow (h : c.Wf) (height : ℕ) : (c.pruneBelow height).1.Wf := by
  obtain ⟨hcontent, hidx⟩ := byHeight_pruneBelow h.indexed height
  refine ⟨hidx, ?_, h.positive⟩
  rw [len, hcontent]
  exact (List.length_filter_le _ _).trans h.bounded

/-! ### Any operations -/

/-- No operation changes the capacity. -/
theorem capacity_apply (c : BlockCache T) (op : Op T) : (c.apply op).capacity = c.capacity := by
  cases op with
  | insert height id value => rfl
  | removeById id => exact capacity_removeById
  | pruneBelow height => rfl

/-- **One call does what it is for**, and keeps the cache well formed. -/
theorem Wf.apply (h : c.Wf) (op : Op T) :
    (c.apply op).Wf ∧ (c.apply op).byHeight = op.spec c.capacity c.byHeight := by
  cases op with
  | insert height id value =>
    exact ⟨h.insert height id value, byHeight_insert h.indexed height id value⟩
  | removeById id => exact ⟨h.removeById id, byHeight_removeById h.indexed id⟩
  | pruneBelow height => exact ⟨h.pruneBelow height, (byHeight_pruneBelow h.indexed height).1⟩

/-- **So do any calls**, one after the other. -/
theorem Wf.foldl_apply (h : c.Wf) (ops : List (Op T)) :
    (ops.foldl BlockCache.apply c).Wf ∧
      (ops.foldl BlockCache.apply c).byHeight = ops.foldl (Op.spec c.capacity) c.byHeight ∧
      (ops.foldl BlockCache.apply c).capacity = c.capacity := by
  induction ops generalizing c with
  | nil => exact ⟨h, rfl, rfl⟩
  | cons op ops ih =>
    obtain ⟨hwf, hcontent⟩ := h.apply op
    obtain ⟨hwf', hcontent', hcap'⟩ := ih hwf
    rw [capacity_apply] at hcontent' hcap'
    refine ⟨hwf', ?_, hcap'⟩
    rw [List.foldl_cons, List.foldl_cons, hcontent', hcontent]

/-- Under the index the two lookups agree. -/
theorem getById_eq_some_iff (h : Indexed c.byHeight c.byId) :
    c.getById id = some (height, v) ↔ c.getByHeight height = some (id, v) := by
  unfold getById getByHeight
  rw [SortedMap.get?_eq_some]
  cases hl : c.byId.lookup id with
  | none =>
    refine iff_of_false (by simp) fun hmem => ?_
    rw [(h id height).2 ⟨v, hmem⟩] at hl
    cases hl
  | some k =>
    obtain ⟨w, hw⟩ := (h id k).1 hl
    simp only [SortedMap.get?_eq_some.2 hw, Option.map_some, Option.some.injEq, Prod.mk.injEq]
    constructor
    · rintro ⟨rfl, rfl⟩
      exact hw
    · intro hmem
      obtain rfl := h.height_eq hw hmem
      exact ⟨rfl, congrArg (·.2.2) (SortedMap.eq_of_mem_of_key_eq hw hmem rfl)⟩

end BlockCache

/-- **The cache refines a bounded sorted map.**  For every capacity of at least 1 and after
any calls of `insert`, `remove_by_id` and `prune_below`: the index maps an id to a height
iff the content has the id there, there are at most `capacity` entries, and the two
lookups agree.  The content is what the abstract map holds; in particular the next
insertion drops any entry of the id, sets the height and keeps the highest `capacity`
heights, and it returns `true` iff that restriction drops an entry. -/
theorem cache_refines {T : Type*} (capacity : ℕ) (hcap : 1 ≤ capacity)
    (ops : List (BlockCache.Op T)) :
    ∃ c : BlockCache T,
      (BlockCache.new capacity).map (fun c₀ => ops.foldl BlockCache.apply c₀) = some c ∧
      (∀ id height, c.byId.lookup id = some height ↔ ∃ v, c.getByHeight height = some (id, v)) ∧
      c.len ≤ capacity ∧
      (∀ id height v, c.getById id = some (height, v) ↔ c.getByHeight height = some (id, v)) ∧
      c.byHeight = ops.foldl (BlockCache.Op.spec capacity) .empty ∧
      ∀ height id v,
        (c.insert height id v).1.byHeight =
            (BlockCache.merged c.byHeight height id v).highest capacity ∧
          ((c.insert height id v).2 = true ↔
            ∃ x ∈ (BlockCache.merged c.byHeight height id v).entries,
              x ∉ ((BlockCache.merged c.byHeight height id v).highest capacity).entries) := by
  have hnew : BlockCache.new (T := T) capacity = some ⟨.empty, ∅, capacity⟩ := if_pos hcap
  obtain ⟨hwf, hcontent, hcapacity⟩ := (BlockCache.wf_new hnew).foldl_apply ops
  refine ⟨_, by rw [hnew]; rfl, fun id height => ?_, ?_, fun id height v => ?_, hcontent,
    fun height id v => ⟨?_, ?_⟩⟩
  · rw [hwf.indexed id height]
    exact exists_congr fun v => SortedMap.get?_eq_some.symm
  · exact hwf.bounded.trans hcapacity.le
  · exact BlockCache.getById_eq_some_iff hwf.indexed
  · have h := BlockCache.byHeight_insert hwf.indexed height id v
    rwa [hcapacity] at h
  · have h := BlockCache.insert_evicted_iff hwf.indexed height id v
    rwa [hcapacity] at h

/-- Two blocks at one height, then the second of them again at another, over two entries of
room: the prior height, the displaced id and the eviction all come into play. -/
def crowded : List (BlockCache.Op ℕ) :=
  [.insert 100 ⟨⟨List.replicate 32 1, rfl⟩⟩ 1, .insert 100 ⟨⟨List.replicate 32 2, rfl⟩⟩ 2,
    .insert 101 ⟨⟨List.replicate 32 2, rfl⟩⟩ 3, .insert 102 ⟨⟨List.replicate 32 1, rfl⟩⟩ 4,
    .insert 103 ⟨⟨List.replicate 32 3, rfl⟩⟩ 5]

/-- The hypothesis holds of a capacity of two. -/
theorem cache_refines_crowded :
    1 ≤ 2 ∧ ∃ c : BlockCache ℕ,
      (BlockCache.new 2).map (fun c₀ => crowded.foldl BlockCache.apply c₀) = some c ∧
      (∀ id height, c.byId.lookup id = some height ↔ ∃ v, c.getByHeight height = some (id, v)) ∧
      c.len ≤ 2 ∧
      (∀ id height v, c.getById id = some (height, v) ↔ c.getByHeight height = some (id, v)) ∧
      c.byHeight = crowded.foldl (BlockCache.Op.spec 2) .empty ∧
      ∀ height id v,
        (c.insert height id v).1.byHeight =
            (BlockCache.merged c.byHeight height id v).highest 2 ∧
          ((c.insert height id v).2 = true ↔
            ∃ x ∈ (BlockCache.merged c.byHeight height id v).entries,
              x ∉ ((BlockCache.merged c.byHeight height id v).highest 2).entries) :=
  ⟨by decide, cache_refines 2 (by decide) crowded⟩

end Store
end Lightcycle
