/-
# The block cache

`BlockCache` of `crates/lightcycle-store/src/cache.rs`: the last blocks by height
(a `BTreeMap`, here a `SortedMap`) with an index from id to height (a `HashMap`,
here a `Finmap`), bounded by evicting the lowest height.  The loops of `insert`
and `prune_below` take one entry off per round, so they are bounded by the number
of entries.  `with_capacity`, the metrics and the trace line have no counterpart;
`SharedBlockCache`, the `RwLock`, is the atomicity of a read or a write.

`Indexed` says that the index is the inverse of the map; under it an insertion above
every cached height appends and evicts from the bottom (`insert_above`), and the
removal of the highest entry's id drops it (`removeById_last`).
-/

import Lightcycle.Types.Basic
import Lightcycle.Lib.SortedMap

namespace Lightcycle
namespace Store

variable {T : Type*}

/-- Bounded in-memory cache of recent blocks, indexed by height and id. -/
structure BlockCache (T : Type*) where
  byHeight : SortedMap ℕ (BlockId × T)
  byId : Finmap fun _ : BlockId => ℕ
  capacity : ℕ

namespace BlockCache

/-- `BlockCache::new`, `none` when the assertion on the capacity fails. -/
def new (capacity : ℕ) : Option (BlockCache T) :=
  if 0 < capacity then some ⟨.empty, ∅, capacity⟩ else none

/-- A fresh cache is empty and has room. -/
theorem eq_of_new {capacity : ℕ} {c : BlockCache T} (h : BlockCache.new capacity = some c) :
    0 < capacity ∧ c = ⟨.empty, ∅, capacity⟩ := by
  unfold BlockCache.new at h
  split_ifs at h with hpos
  exact ⟨hpos, (Option.some.inj h).symm⟩

/-- The `while` loop of `insert`: evict the lowest height while over capacity. -/
def evictLoop (capacity : ℕ) : ℕ → SortedMap ℕ (BlockId × T) → (Finmap fun _ : BlockId => ℕ) →
    Bool → SortedMap ℕ (BlockId × T) × (Finmap fun _ : BlockId => ℕ) × Bool
  | 0, byHeight, byId, evicted => (byHeight, byId, evicted)
  | n + 1, byHeight, byId, evicted =>
    if capacity < byHeight.size then
      match byHeight.popFirst with
      | some ((_, id, _), rest) => evictLoop capacity n rest (byId.erase id) true
      | none => (byHeight, byId, evicted)
    else (byHeight, byId, evicted)

/-- The first statement of `insert`: a prior entry of the same id at another height
goes. -/
def dropPrior (c : BlockCache T) (height : ℕ) (id : BlockId) : SortedMap ℕ (BlockId × T) :=
  match c.byId.lookup id with
  | some priorHeight => if priorHeight ≠ height then c.byHeight.erase priorHeight else c.byHeight
  | none => c.byHeight

/-- The second: the id that the insertion displaces at this height goes from the
index. -/
def dropDisplaced (byHeight : SortedMap ℕ (BlockId × T)) (byId : Finmap fun _ : BlockId => ℕ)
    (height : ℕ) (id : BlockId) : Finmap fun _ : BlockId => ℕ :=
  match byHeight.get? height with
  | some (displacedId, _) => if displacedId ≠ id then byId.erase displacedId else byId
  | none => byId

/-- `BlockCache::insert`: the cache and whether something was evicted. -/
def insert (c : BlockCache T) (height : ℕ) (id : BlockId) (value : T) : BlockCache T × Bool :=
  let byHeight := c.dropPrior height id
  let byId := dropDisplaced byHeight (c.byId.erase id) height id
  let byHeight := byHeight.insert height (id, value)
  let byId := byId.insert id height
  let r := evictLoop c.capacity byHeight.size byHeight byId false
  ({ c with byHeight := r.1, byId := r.2.1 }, r.2.2)

/-- `BlockCache::get_by_height`. -/
def getByHeight (c : BlockCache T) (height : ℕ) : Option (BlockId × T) := c.byHeight.get? height

/-- `BlockCache::get_by_id`. -/
def getById (c : BlockCache T) (id : BlockId) : Option (ℕ × T) :=
  match c.byId.lookup id with
  | none => none
  | some height => (c.byHeight.get? height).map fun x => (height, x.2)

/-- `BlockCache::remove_by_id`: the cache and the entry removed. -/
def removeById (c : BlockCache T) (id : BlockId) : BlockCache T × Option (ℕ × T) :=
  match c.byId.lookup id with
  | none => (c, none)
  | some height =>
    match c.byHeight.get? height with
    | none => ({ c with byId := c.byId.erase id }, none)
    | some (_, value) =>
      ({ c with byHeight := c.byHeight.erase height, byId := c.byId.erase id },
        some (height, value))

/-- The `while` loop of `prune_below`. -/
def pruneBelowLoop (height : ℕ) : ℕ → SortedMap ℕ (BlockId × T) →
    (Finmap fun _ : BlockId => ℕ) → ℕ →
    SortedMap ℕ (BlockId × T) × (Finmap fun _ : BlockId => ℕ) × ℕ
  | 0, byHeight, byId, removed => (byHeight, byId, removed)
  | n + 1, byHeight, byId, removed =>
    match byHeight.popFirst with
    | some ((first, id, _), rest) =>
      if height ≤ first then (byHeight, byId, removed)
      else pruneBelowLoop height n rest (byId.erase id) (removed + 1)
    | none => (byHeight, byId, removed)

/-- `BlockCache::prune_below`: the cache and the number of entries removed. -/
def pruneBelow (c : BlockCache T) (height : ℕ) : BlockCache T × ℕ :=
  let r := pruneBelowLoop height c.byHeight.size c.byHeight c.byId 0
  ({ c with byHeight := r.1, byId := r.2.1 }, r.2.2)

/-- `BlockCache::len`. -/
def len (c : BlockCache T) : ℕ := c.byHeight.size

/-- `BlockCache::min_height`. -/
def minHeight (c : BlockCache T) : Option ℕ := c.byHeight.minKey?

/-- `BlockCache::max_height`. -/
def maxHeight (c : BlockCache T) : Option ℕ := c.byHeight.maxKey?

/-! ### The index -/

/-- The index is the inverse of the map. -/
def Indexed (m : SortedMap ℕ (BlockId × T)) (ids : Finmap fun _ : BlockId => ℕ) : Prop :=
  ∀ id h, ids.lookup id = some h ↔ ∃ v, (h, id, v) ∈ m.entries

/-- The empty map is indexed by no ids. -/
theorem indexed_empty : Indexed (SortedMap.empty : SortedMap ℕ (BlockId × T)) ∅ := by
  intro id h
  simp [SortedMap.empty]

variable {m m' : SortedMap ℕ (BlockId × T)} {ids : Finmap fun _ : BlockId => ℕ}

/-- Under the index an id stands at one height. -/
theorem Indexed.height_eq (h : Indexed m ids) {id : BlockId} {h₁ h₂ : ℕ} {v₁ v₂ : T}
    (e₁ : (h₁, id, v₁) ∈ m.entries) (e₂ : (h₂, id, v₂) ∈ m.entries) : h₁ = h₂ := by
  have l₁ := (h id h₁).2 ⟨v₁, e₁⟩
  rw [(h id h₂).2 ⟨v₂, e₂⟩] at l₁
  exact (Option.some.inj l₁).symm

/-- Removing one entry from the map and its id from the index. -/
theorem Indexed.erase (h : Indexed m ids) {h₀ : ℕ} {id₀ : BlockId} {v₀ : T}
    (he : (h₀, id₀, v₀) ∈ m.entries)
    (hm : ∀ x, x ∈ m'.entries ↔ x ∈ m.entries ∧ x.1 ≠ h₀) : Indexed m' (ids.erase id₀) := by
  intro id k
  by_cases hid : id = id₀
  · rw [hid, Finmap.lookup_erase]
    constructor
    · intro hn
      cases hn
    · rintro ⟨v, hv⟩
      obtain ⟨hv, hne⟩ := (hm _).1 hv
      exact absurd (h.height_eq hv he) hne
  · rw [Finmap.lookup_erase_ne hid, h id k]
    constructor
    · rintro ⟨v, hv⟩
      refine ⟨v, (hm _).2 ⟨hv, ?_⟩⟩
      rintro rfl
      exact hid (congrArg (·.2.1) (SortedMap.eq_of_mem_of_key_eq hv he rfl))
    · rintro ⟨v, hv⟩
      exact ⟨v, ((hm _).1 hv).1⟩

/-- Adding an entry whose height and id are both new. -/
theorem Indexed.insert (h : Indexed m ids) {height : ℕ} {id₀ : BlockId} (v₀ : T)
    (hheight : ∀ x ∈ m.entries, x.1 ≠ height) (hid : ∀ x ∈ m.entries, x.2.1 ≠ id₀) :
    Indexed (m.insert height (id₀, v₀)) (ids.insert id₀ height) := by
  intro id k
  by_cases hi : id = id₀
  · rw [hi, Finmap.lookup_insert]
    constructor
    · intro hk
      exact ⟨v₀, SortedMap.mem_insert.2 (Or.inl (by rw [Option.some.inj hk]))⟩
    · rintro ⟨v, hv⟩
      rcases SortedMap.mem_insert.1 hv with hv | ⟨hv, -⟩
      · exact congrArg some (congrArg Prod.fst hv).symm
      · exact absurd rfl (hid _ hv)
  · rw [Finmap.lookup_insert_of_ne _ hi, h id k]
    constructor
    · rintro ⟨v, hv⟩
      exact ⟨v, SortedMap.mem_insert.2 (Or.inr ⟨hv, hheight _ hv⟩)⟩
    · rintro ⟨v, hv⟩
      rcases SortedMap.mem_insert.1 hv with hv | ⟨hv, -⟩
      · exact absurd (congrArg (·.2.1) hv) hi
      · exact ⟨v, hv⟩

/-- Eviction drops the lowest entries. -/
theorem evictLoop_entries (capacity n : ℕ) (ids : Finmap fun _ : BlockId => ℕ) (evicted : Bool)
    (hn : m.size ≤ n) :
    (evictLoop capacity n m ids evicted).1.entries = m.entries.drop (m.size - capacity) := by
  induction n generalizing m ids evicted with
  | zero =>
    have hnil : m.entries = [] := List.length_eq_zero_iff.1 (Nat.le_zero.1 hn)
    simp [evictLoop, hnil]
  | succ n ih =>
    unfold evictLoop
    split_ifs with hc
    · cases he : m.entries with
      | nil => simp [SortedMap.size, he] at hc
      | cons x xs =>
        obtain ⟨m', hpop, hm'⟩ := SortedMap.popFirst_eq_some he
        have hsize : m.size = xs.length + 1 := by rw [SortedMap.size, he, List.length_cons]
        have hsize' : m'.size = xs.length := by rw [SortedMap.size, hm']
        have h₁ := ih (m := m') (ids.erase x.2.1) true (by omega)
        rw [hpop]
        simp only
        rw [h₁, hm', hsize', hsize, show xs.length + 1 - capacity = xs.length - capacity + 1 by omega,
          List.drop_succ_cons]
    · rw [show m.size - capacity = 0 by omega, List.drop_zero]

/-- Taking the entry of the lowest height off, and its id out of the index. -/
theorem Indexed.popFirst (h : Indexed m ids) {x : ℕ × BlockId × T} {xs : List (ℕ × BlockId × T)}
    (he : m.entries = x :: xs) (hm' : m'.entries = xs) : Indexed m' (ids.erase x.2.1) := by
  refine h.erase (show (x.1, x.2.1, x.2.2) ∈ m.entries by rw [he]; simp) fun y => ?_
  have hs := m.sorted
  rw [he, List.pairwise_cons] at hs
  rw [hm', he, List.mem_cons]
  constructor
  · exact fun hy => ⟨Or.inr hy, (hs.1 y hy).ne'⟩
  · rintro ⟨rfl | hy, hne⟩
    · exact absurd rfl hne
    · exact hy

/-- Eviction keeps the index. -/
theorem evictLoop_indexed (capacity n : ℕ) (evicted : Bool) (h : Indexed m ids) :
    Indexed (evictLoop capacity n m ids evicted).1 (evictLoop capacity n m ids evicted).2.1 := by
  induction n generalizing m ids evicted with
  | zero => exact h
  | succ n ih =>
    unfold evictLoop
    split_ifs with hc
    · cases he : m.entries with
      | nil => simp [SortedMap.size, he] at hc
      | cons x xs =>
        obtain ⟨m', hpop, hm'⟩ := SortedMap.popFirst_eq_some he
        rw [hpop]
        exact ih true (h.popFirst he hm')
    · exact h

variable {c : BlockCache T} {height : ℕ} {id : BlockId}

/-- An id that no entry has is not indexed. -/
theorem lookup_eq_none_of_forall_ne (h : Indexed m ids) (hid : ∀ x ∈ m.entries, x.2.1 ≠ id) :
    ids.lookup id = none := by
  cases hl : ids.lookup id with
  | none => rfl
  | some k =>
    obtain ⟨v, hv⟩ := (h id k).1 hl
    exact absurd rfl (hid _ hv)

/-- Taking an id away that is not there changes nothing. -/
theorem erase_of_lookup_eq_none (h : ids.lookup id = none) : ids.erase id = ids := by
  refine Finmap.ext_lookup fun j => ?_
  by_cases hj : j = id
  · rw [hj, Finmap.lookup_erase, h]
  · rw [Finmap.lookup_erase_ne hj]

/-- **A block above everything cached is appended**, and the lowest entries beyond the
capacity go. -/
theorem insert_above (value : T) (h : Indexed c.byHeight c.byId)
    (hlt : ∀ x ∈ c.byHeight.entries, x.1 < height) (hid : ∀ x ∈ c.byHeight.entries, x.2.1 ≠ id) :
    (c.insert height id value).1.byHeight.entries =
        (c.byHeight.entries ++ [(height, id, value)]).drop (c.len + 1 - c.capacity) ∧
      Indexed (c.insert height id value).1.byHeight (c.insert height id value).1.byId := by
  have hnone := lookup_eq_none_of_forall_ne h hid
  have hprior : c.dropPrior height id = c.byHeight := by
    unfold dropPrior
    rw [hnone]
  have hget : c.byHeight.get? height = none :=
    SortedMap.get?_eq_none.2 fun x hx => (hlt x hx).ne
  have hdisp : dropDisplaced c.byHeight (c.byId.erase id) height id = c.byId := by
    unfold dropDisplaced
    rw [hget, erase_of_lookup_eq_none hnone]
  have hent : (c.byHeight.insert height (id, value)).entries =
      c.byHeight.entries ++ [(height, id, value)] := SortedMap.entries_insert_of_forall_lt hlt
  have hsize : (c.byHeight.insert height (id, value)).size = c.len + 1 := by
    rw [SortedMap.size, hent, List.length_append]
    rfl
  have hidx := h.insert value (fun x hx => (hlt x hx).ne) hid
  unfold insert
  simp only [hprior, hdisp]
  refine ⟨?_, evictLoop_indexed c.capacity _ false hidx⟩
  rw [evictLoop_entries c.capacity _ _ false le_rfl, hent, hsize]

/-- What is left after the entry with the id is dropped was there before. -/
theorem mem_dropPrior {x : ℕ × BlockId × T} (hx : x ∈ (c.dropPrior height id).entries) :
    x ∈ c.byHeight.entries := by
  unfold dropPrior at hx
  split at hx
  · split_ifs at hx
    · exact (SortedMap.mem_erase.1 hx).1
    · exact hx
  · exact hx

/-- A block above everything cached becomes the highest entry, whatever its id. -/
theorem insert_top (id : BlockId) (value : T) (hcap : 0 < c.capacity)
    (hlt : ∀ x ∈ c.byHeight.entries, x.1 < height) :
    ∃ rest, (c.insert height id value).1.byHeight.entries = rest ++ [(height, id, value)] ∧
      ∀ x ∈ rest, x ∈ c.byHeight.entries := by
  have hent : ((c.dropPrior height id).insert height (id, value)).entries =
      (c.dropPrior height id).entries ++ [(height, id, value)] :=
    SortedMap.entries_insert_of_forall_lt fun x hx => hlt x (mem_dropPrior hx)
  have hsize : ((c.dropPrior height id).insert height (id, value)).size =
      (c.dropPrior height id).entries.length + 1 := by
    rw [SortedMap.size, hent, List.length_append]
    rfl
  refine ⟨(c.dropPrior height id).entries.drop
    ((c.dropPrior height id).entries.length + 1 - c.capacity), ?_, ?_⟩
  · unfold insert
    simp only
    rw [evictLoop_entries c.capacity _ _ false le_rfl, hent, hsize,
      List.drop_append_of_le_length (by omega)]
  · exact fun x hx => mem_dropPrior (List.mem_of_mem_drop hx)

/-- **Removing the id of the highest entry drops it.** -/
theorem removeById_last {xs : List (ℕ × BlockId × T)} {v : T} (h : Indexed c.byHeight c.byId)
    (he : c.byHeight.entries = xs ++ [(height, id, v)]) :
    (c.removeById id).1.byHeight.entries = xs ∧
      Indexed (c.removeById id).1.byHeight (c.removeById id).1.byId := by
  have hmem : (height, id, v) ∈ c.byHeight.entries := by rw [he]; simp
  have hlook : c.byId.lookup id = some height := (h id height).2 ⟨v, hmem⟩
  have hget : c.byHeight.get? height = some (id, v) := SortedMap.get?_eq_some.2 hmem
  have hrem : (c.removeById id).1 =
      { c with byHeight := c.byHeight.erase height, byId := c.byId.erase id } := by
    unfold removeById
    rw [hlook]
    simp only [hget]
  rw [hrem]
  exact ⟨SortedMap.entries_erase_of_concat he, h.erase hmem fun x => SortedMap.mem_erase⟩

/-- Removing an id that is not cached changes nothing. -/
theorem removeById_of_forall_ne (h : Indexed c.byHeight c.byId)
    (hid : ∀ x ∈ c.byHeight.entries, x.2.1 ≠ id) : (c.removeById id).1 = c := by
  unfold removeById
  rw [lookup_eq_none_of_forall_ne h hid]

/-- An insertion keeps the capacity. -/
theorem capacity_insert (value : T) : (c.insert height id value).1.capacity = c.capacity := rfl

/-- So does a removal. -/
theorem capacity_removeById : (c.removeById id).1.capacity = c.capacity := by
  unfold removeById
  cases c.byId.lookup id with
  | none => rfl
  | some k =>
    simp only
    cases c.byHeight.get? k with
    | none => rfl
    | some x => rfl

/-! ### An insertion anywhere -/

/-- A cache as its operations leave it: the index is right and the capacity is kept. -/
structure Wf (c : BlockCache T) : Prop where
  indexed : Indexed c.byHeight c.byId
  bounded : c.len ≤ c.capacity
  positive : 0 < c.capacity

/-- A fresh cache is well formed. -/
theorem wf_new {capacity : ℕ} (h : BlockCache.new capacity = some c) : c.Wf := by
  obtain ⟨hpos, rfl⟩ := eq_of_new h
  exact ⟨indexed_empty, Nat.zero_le _, hpos⟩

variable {v : T} {x : ℕ × BlockId × T}

/-- The entries before eviction: the new one, and the old ones of another height and
another id. -/
theorem mem_merged (h : Indexed c.byHeight c.byId) :
    x ∈ ((c.dropPrior height id).insert height (id, v)).entries ↔
      x = (height, id, v) ∨ x ∈ c.byHeight.entries ∧ x.1 ≠ height ∧ x.2.1 ≠ id := by
  have hprior : x.1 ≠ height → (x ∈ (c.dropPrior height id).entries ↔
      x ∈ c.byHeight.entries ∧ x.2.1 ≠ id) := by
    intro hne
    have hlook : x ∈ c.byHeight.entries → (x.2.1 = id ↔ c.byId.lookup id = some x.1) := by
      intro hx
      constructor
      · rintro rfl
        exact (h _ _).2 ⟨x.2.2, hx⟩
      · intro hl
        obtain ⟨w, hw⟩ := (h _ _).1 hl
        exact congrArg (·.2.1) (SortedMap.eq_of_mem_of_key_eq hx hw rfl)
    unfold dropPrior
    split
    · rename_i k hk
      split_ifs with hkh
      · rw [SortedMap.mem_erase]
        refine and_congr_right fun hx => not_congr ?_
        rw [hlook hx, hk, Option.some.injEq]
        exact eq_comm
      · refine (and_iff_left_of_imp fun hx hid => ?_).symm
        rw [hlook hx, hk, Option.some.injEq] at hid
        exact hkh fun heq => hne (hid.symm.trans heq)
    · rename_i hnone
      refine (and_iff_left_of_imp fun hx hid => ?_).symm
      rw [hlook hx, hnone] at hid
      cases hid
  rw [SortedMap.mem_insert]
  refine or_congr_right ?_
  constructor
  · rintro ⟨hx, hne⟩
    obtain ⟨hx, hid⟩ := (hprior hne).1 hx
    exact ⟨hx, hne, hid⟩
  · rintro ⟨hx, hne, hid⟩
    exact ⟨(hprior hne).2 ⟨hx, hid⟩, hne⟩

/-- The entry at the height of the insertion is not dropped, even when it has the id. -/
theorem mem_dropPrior_of_height (id : BlockId) (hx : x ∈ c.byHeight.entries)
    (hheight : x.1 = height) :
    x ∈ (c.dropPrior height id).entries := by
  unfold dropPrior
  split
  · split_ifs with hne
    · exact SortedMap.mem_erase.2 ⟨hx, fun heq => hne (heq.symm.trans hheight)⟩
    · exact hx
  · exact hx

/-- An id other than the new one stays in the index unless it stands at the new height. -/
theorem lookup_dropDisplaced (h : Indexed c.byHeight c.byId) {i : BlockId} (hi : i ≠ id) {k : ℕ} :
    (dropDisplaced (c.dropPrior height id) (c.byId.erase id) height id).lookup i = some k ↔
      c.byId.lookup i = some k ∧ k ≠ height := by
  have hstays : (∀ w, (c.dropPrior height id).get? height ≠ some (i, w)) →
      (c.byId.lookup i = some k ↔ c.byId.lookup i = some k ∧ k ≠ height) := by
    intro hget
    refine (and_iff_left_of_imp fun hl heq => ?_).symm
    obtain ⟨w, hw⟩ := (h i k).1 hl
    subst heq
    exact hget w (SortedMap.get?_eq_some.2 (mem_dropPrior_of_height id hw rfl))
  unfold dropDisplaced
  split
  · rename_i disp w hget
    split_ifs with hne
    · by_cases hid : i = disp
      · -- the displaced id goes, and it stood at the new height only
        rw [hid, Finmap.lookup_erase]
        have hl := (h disp height).2 ⟨w, mem_dropPrior (SortedMap.get?_eq_some.1 hget)⟩
        rw [hl, Option.some.injEq]
        refine ⟨fun hn => ?_, fun hn => absurd hn.1.symm hn.2⟩
        cases hn
      · rw [Finmap.lookup_erase_ne hid, Finmap.lookup_erase_ne hi]
        refine hstays fun w' hw' => hid ?_
        rw [hget, Option.some.injEq] at hw'
        exact (congrArg Prod.fst hw').symm
    · rw [Finmap.lookup_erase_ne hi]
      refine hstays fun w' hw' => hi ?_
      rw [hget, Option.some.injEq] at hw'
      exact (congrArg Prod.fst hw').symm.trans (not_not.1 hne)
  · rename_i hget
    rw [Finmap.lookup_erase_ne hi]
    exact hstays fun w' hw' => by rw [hget] at hw'; cases hw'

/-- The index before eviction. -/
theorem indexed_merged (h : Indexed c.byHeight c.byId) (v : T) :
    Indexed ((c.dropPrior height id).insert height (id, v))
      ((dropDisplaced (c.dropPrior height id) (c.byId.erase id) height id).insert id height) := by
  intro i k
  by_cases hi : i = id
  · rw [hi, Finmap.lookup_insert]
    constructor
    · intro hk
      exact ⟨v, (mem_merged h).2 (Or.inl (by rw [Option.some.inj hk]))⟩
    · rintro ⟨w, hw⟩
      rcases (mem_merged h).1 hw with hw | ⟨-, -, hid⟩
      · exact congrArg some (congrArg Prod.fst hw).symm
      · exact absurd rfl hid
  · rw [Finmap.lookup_insert_of_ne _ hi, lookup_dropDisplaced h hi, h i k]
    constructor
    · rintro ⟨⟨w, hw⟩, hne⟩
      exact ⟨w, (mem_merged h).2 (Or.inr ⟨hw, hne, hi⟩)⟩
    · rintro ⟨w, hw⟩
      rcases (mem_merged h).1 hw with hw | ⟨hw, hne, -⟩
      · exact absurd (congrArg (·.2.1) hw) hi
      · exact ⟨⟨w, hw⟩, hne⟩

/-- The insertion does not fit: the cache is full and has neither the height nor the id. -/
def Overflows (c : BlockCache T) (height : ℕ) (id : BlockId) : Prop :=
  c.len = c.capacity ∧ ∀ x ∈ c.byHeight.entries, x.1 ≠ height ∧ x.2.1 ≠ id

/-- Nothing is dropped when no entry has the id. -/
theorem dropPrior_of_forall_ne (h : Indexed c.byHeight c.byId)
    (hid : ∀ x ∈ c.byHeight.entries, x.2.1 ≠ id) : c.dropPrior height id = c.byHeight := by
  unfold dropPrior
  rw [lookup_eq_none_of_forall_ne h hid]

/-- Dropping adds no entry. -/
theorem size_dropPrior_le : (c.dropPrior height id).size ≤ c.len := by
  unfold dropPrior
  split
  · split_ifs
    · exact SortedMap.size_erase_le _ _
    · exact le_rfl
  · exact le_rfl

/-- Before eviction there is at most one entry too many, and only when the insertion does
not fit. -/
theorem size_merged (h : c.Wf) (height : ℕ) (id : BlockId) (v : T) :
    ((c.dropPrior height id).insert height (id, v)).size ≤ c.capacity + 1 ∧
      (c.capacity < ((c.dropPrior height id).insert height (id, v)).size ↔
        c.Overflows height id) := by
  have hle := h.bounded
  have hprior : (c.dropPrior height id).size ≤ c.len := size_dropPrior_le
  have herase := SortedMap.size_erase_le (c.dropPrior height id) height
  rw [SortedMap.size_insert]
  refine ⟨by omega, ?_⟩
  constructor
  · intro hlt
    have hheight : ∀ x ∈ c.byHeight.entries, x.1 ≠ height := by
      rintro x hx rfl
      have := SortedMap.size_erase_lt (mem_dropPrior_of_height (c := c) id hx rfl)
      omega
    refine ⟨by omega, fun x hx => ⟨hheight x hx, fun hid => ?_⟩⟩
    -- the prior entry of the same id makes room
    have hlook : c.byId.lookup id = some x.1 := (h.indexed id x.1).2 ⟨x.2.2, hid ▸ hx⟩
    have hdrop : c.dropPrior height id = c.byHeight.erase x.1 := by
      unfold dropPrior
      rw [hlook]
      exact if_pos (hheight x hx)
    have := SortedMap.size_erase_lt hx
    rw [← hdrop] at this
    have hlen : c.len = c.byHeight.size := rfl
    omega
  · rintro ⟨hfull, hnew⟩
    rw [dropPrior_of_forall_ne h.indexed fun x hx => (hnew x hx).2,
      SortedMap.erase_of_forall_ne fun x hx => (hnew x hx).1]
    have hlen : c.len = c.byHeight.size := rfl
    omega

/-- After an insertion the highest entries are left, as many as there is room for. -/
theorem entries_insert_eq (c : BlockCache T) (height : ℕ) (id : BlockId) (v : T) :
    (c.insert height id v).1.byHeight.entries =
      ((c.dropPrior height id).insert height (id, v)).entries.drop
        (((c.dropPrior height id).insert height (id, v)).size - c.capacity) :=
  evictLoop_entries _ _ _ _ le_rfl

/-- **What an insertion leaves**: the entries before eviction, without the lowest one when
they are too many. -/
theorem mem_insert (h : c.Wf) :
    x ∈ (c.insert height id v).1.byHeight.entries ↔
      x ∈ ((c.dropPrior height id).insert height (id, v)).entries ∧
        (c.Overflows height id →
          ∃ y ∈ ((c.dropPrior height id).insert height (id, v)).entries, y.1 < x.1) := by
  obtain ⟨hle, hover⟩ := size_merged h height id v
  rw [entries_insert_eq]
  by_cases ho : c.Overflows height id
  · have hlt := hover.2 ho
    rw [show ((c.dropPrior height id).insert height (id, v)).size - c.capacity = 1 by omega,
      List.drop_one, SortedMap.mem_tail]
    exact ⟨fun hx => ⟨hx.1, fun _ => hx.2⟩, fun hx => ⟨hx.1, hx.2 ho⟩⟩
  · have hnot := mt hover.1 ho
    rw [show ((c.dropPrior height id).insert height (id, v)).size - c.capacity = 0 by omega,
      List.drop_zero]
    exact ⟨fun hx => ⟨hx, fun hov => absurd hov ho⟩, fun hx => hx.1⟩

/-- An insertion that is evicted at once: it does not fit, and it is the lowest. -/
def Evicts (c : BlockCache T) (height : ℕ) (id : BlockId) : Prop :=
  c.len = c.capacity ∧ ∀ x ∈ c.byHeight.entries, height < x.1 ∧ x.2.1 ≠ id

instance (c : BlockCache T) (height : ℕ) (id : BlockId) : Decidable (c.Evicts height id) :=
  inferInstanceAs (Decidable (_ ∧ _))

/-- An entry left by an insertion is the new one or an old one at another height. -/
theorem of_mem_insert (h : c.Wf) (hx : x ∈ (c.insert height id v).1.byHeight.entries) :
    x = (height, id, v) ∨ x ∈ c.byHeight.entries ∧ x.1 ≠ height :=
  ((mem_merged h.indexed).1 ((mem_insert h).1 hx).1).imp_right fun hold => ⟨hold.1, hold.2.1⟩

/-- **The new entry stays unless it is evicted at once**, which happens to a block below
everything in a full cache, when its id is not cached. -/
theorem new_mem_insert (h : c.Wf) :
    (height, id, v) ∈ (c.insert height id v).1.byHeight.entries ↔ ¬ c.Evicts height id := by
  rw [mem_insert h]
  constructor
  · rintro ⟨-, hlow⟩ ⟨hfull, hall⟩
    obtain ⟨y, hy, hlt⟩ := hlow ⟨hfull, fun x hx => ⟨(hall x hx).1.ne', (hall x hx).2⟩⟩
    rcases (mem_merged h.indexed).1 hy with rfl | ⟨hy, -, -⟩
    · exact lt_irrefl _ hlt
    · exact (hall y hy).1.not_gt hlt
  · intro hnot
    refine ⟨(mem_merged h.indexed).2 (Or.inl rfl), fun ho => ?_⟩
    by_contra hnone
    refine hnot ⟨ho.1, fun x hx => ⟨?_, (ho.2 x hx).2⟩⟩
    rcases Nat.lt_or_ge height x.1 with hlt | hge
    · exact hlt
    · exact absurd ⟨x, (mem_merged h.indexed).2 (Or.inr ⟨hx, ho.2 x hx⟩),
        lt_of_le_of_ne hge (ho.2 x hx).1⟩ hnone

/-- An insertion evicted at once leaves the entries as they were. -/
theorem insert_of_evicts (h : c.Wf) (hev : c.Evicts height id) (v : T) :
    (c.insert height id v).1.byHeight = c.byHeight := by
  refine SortedMap.ext_mem fun x => ?_
  have hnew : ∀ y ∈ c.byHeight.entries, y.1 ≠ height ∧ y.2.1 ≠ id :=
    fun y hy => ⟨(hev.2 y hy).1.ne', (hev.2 y hy).2⟩
  rw [mem_insert h, mem_merged h.indexed]
  constructor
  · rintro ⟨rfl | hx, hlow⟩
    · exact absurd ((mem_insert h).2 ⟨(mem_merged h.indexed).2 (Or.inl rfl), hlow⟩)
        fun hmem => (new_mem_insert h).1 hmem hev
    · exact hx.1
  · intro hx
    exact ⟨Or.inr ⟨hx, hnew x hx⟩, fun _ => ⟨_, (mem_merged h.indexed).2 (Or.inl rfl),
      (hev.2 x hx).1⟩⟩

/-- **An insertion keeps the cache well formed**: index and entries in step, and no more
entries than there is room for. -/
theorem Wf.insert (h : c.Wf) (height : ℕ) (id : BlockId) (v : T) : (c.insert height id v).1.Wf := by
  refine ⟨evictLoop_indexed _ _ _ (indexed_merged h.indexed v), ?_, h.positive⟩
  have hsize : ((c.dropPrior height id).insert height (id, v)).size =
    ((c.dropPrior height id).insert height (id, v)).entries.length := rfl
  rw [len, SortedMap.size, entries_insert_eq, List.length_drop, capacity_insert]
  omega

/-- What is left after a removal was there before. -/
theorem of_mem_removeById (hx : x ∈ (c.removeById id).1.byHeight.entries) :
    x ∈ c.byHeight.entries := by
  unfold removeById at hx
  split at hx
  · exact hx
  · split at hx
    · exact hx
    · exact (SortedMap.mem_erase.1 hx).1

/-- A removal keeps the cache well formed. -/
theorem Wf.removeById (h : c.Wf) (id : BlockId) : (c.removeById id).1.Wf := by
  unfold BlockCache.removeById
  split
  · exact h
  · rename_i k hk
    obtain ⟨w, hw⟩ := (h.indexed id k).1 hk
    rw [SortedMap.get?_eq_some.2 hw]
    refine ⟨h.indexed.erase hw fun x => SortedMap.mem_erase, ?_, h.positive⟩
    exact (SortedMap.size_erase_le _ _).trans h.bounded

end BlockCache

end Store
end Lightcycle
