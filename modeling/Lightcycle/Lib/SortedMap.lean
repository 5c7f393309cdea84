/-
# Maps sorted by key

A finite map from a linear order, kept as its list of entries in ascending key
order.  The order is a field of the structure, so every map is sorted.  `insert`
replaces, `erase` removes, `popFirst` takes the entry of the lowest key off, `range`
lists the entries between two keys, and `highest` keeps the entries of the highest keys.
-/

import Mathlib

/-- A finite map kept as its entries in ascending key order. -/
structure SortedMap (κ ν : Type*) [LinearOrder κ] where
  entries : List (κ × ν)
  sorted : entries.Pairwise fun a b => a.1 < b.1
deriving DecidableEq

namespace SortedMap

variable {κ ν : Type*} [LinearOrder κ] {m : SortedMap κ ν} {k : κ} {v : ν} {x : κ × ν}

/-- The map with no entry. -/
def empty : SortedMap κ ν := ⟨[], List.Pairwise.nil⟩

/-- The value at a key. -/
def get? (m : SortedMap κ ν) (k : κ) : Option ν :=
  (m.entries.find? fun x => decide (x.1 = k)).map Prod.snd

/-- The map with `v` at `k`. -/
def insert (m : SortedMap κ ν) (k : κ) (v : ν) : SortedMap κ ν where
  entries := m.entries.filter (fun x => decide (x.1 < k)) ++
    (k, v) :: m.entries.filter (fun x => decide (k < x.1))
  sorted := by
    refine List.pairwise_append.2 ⟨m.sorted.filter _, List.pairwise_cons.2 ⟨?_, m.sorted.filter _⟩, ?_⟩
    · intro x hx
      simpa using (List.mem_filter.1 hx).2
    · intro x hx y hy
      have hxk : x.1 < k := by simpa using (List.mem_filter.1 hx).2
      rcases List.mem_cons.1 hy with rfl | hy
      · exact hxk
      · exact hxk.trans (by simpa using (List.mem_filter.1 hy).2)

/-- The map without `k`. -/
def erase (m : SortedMap κ ν) (k : κ) : SortedMap κ ν :=
  ⟨m.entries.filter fun x => decide (x.1 ≠ k), m.sorted.filter _⟩

/-- The number of entries. -/
def size (m : SortedMap κ ν) : ℕ := m.entries.length

/-- The lowest key. -/
def minKey? (m : SortedMap κ ν) : Option κ := m.entries.head?.map Prod.fst

/-- The highest key. -/
def maxKey? (m : SortedMap κ ν) : Option κ := m.entries.getLast?.map Prod.fst

/-- The entry of the lowest key and the rest. -/
def popFirst (m : SortedMap κ ν) : Option ((κ × ν) × SortedMap κ ν) :=
  match m with
  | ⟨[], _⟩ => none
  | ⟨x :: xs, h⟩ => some (x, ⟨xs, (List.pairwise_cons.1 h).2⟩)

/-- The entries with keys between `lo` and `hi`, both included, in order. -/
def range (m : SortedMap κ ν) (lo hi : κ) : List (κ × ν) :=
  m.entries.filter fun x => decide (lo ≤ x.1 ∧ x.1 ≤ hi)

/-- The entries that satisfy `p`. -/
def filter (m : SortedMap κ ν) (p : κ × ν → Bool) : SortedMap κ ν :=
  ⟨m.entries.filter p, m.sorted.filter _⟩

/-- The entries of the `n` highest keys: those with fewer than `n` entries above them. -/
def highest (m : SortedMap κ ν) (n : ℕ) : SortedMap κ ν :=
  m.filter fun x => decide ((m.entries.filter fun y => decide (x.1 < y.1)).length < n)

/-- A sorted map is its entries. -/
theorem ext_entries {m m' : SortedMap κ ν} (h : m.entries = m'.entries) : m = m' := by
  cases m
  cases m'
  cases h
  rfl

/-- A key has one entry. -/
theorem eq_of_mem_of_key_eq {x y : κ × ν} (hx : x ∈ m.entries) (hy : y ∈ m.entries)
    (h : x.1 = y.1) : x = y := by
  have hnd : (m.entries.map Prod.fst).Nodup :=
    List.pairwise_map.2 (m.sorted.imp fun hlt => ne_of_lt hlt)
  exact List.inj_on_of_nodup_map hnd hx hy h

/-- A key is looked up as its entry. -/
theorem get?_eq_some : m.get? k = some v ↔ (k, v) ∈ m.entries := by
  unfold get?
  rw [Option.map_eq_some_iff]
  constructor
  · rintro ⟨x, hx, rfl⟩
    have hk : x.1 = k := by simpa using List.find?_some hx
    exact hk ▸ List.mem_of_find?_eq_some hx
  · intro h
    cases hf : m.entries.find? fun x => decide (x.1 = k) with
    | none => simpa using List.find?_eq_none.1 hf (k, v) h
    | some x =>
      refine ⟨x, rfl, ?_⟩
      have hk : x.1 = k := by simpa using List.find?_some hf
      rw [eq_of_mem_of_key_eq (List.mem_of_find?_eq_some hf) h hk]

/-- A key without an entry is missing. -/
theorem get?_eq_none : m.get? k = none ↔ ∀ x ∈ m.entries, x.1 ≠ k := by
  unfold get?
  simp [List.find?_eq_none]

/-- The new entry stands between the smaller and the greater keys. -/
theorem entries_insert : (m.insert k v).entries =
    m.entries.filter (fun x => decide (x.1 < k)) ++
      (k, v) :: m.entries.filter (fun x => decide (k < x.1)) := rfl

/-- The entries of the other keys are left. -/
theorem entries_erase : (m.erase k).entries = m.entries.filter fun x => decide (x.1 ≠ k) := rfl

/-- After an insertion there are the new entry and those of the other keys. -/
theorem mem_insert : x ∈ (m.insert k v).entries ↔ x = (k, v) ∨ x ∈ m.entries ∧ x.1 ≠ k := by
  simp only [insert, List.mem_append, List.mem_cons, List.mem_filter, decide_eq_true_eq]
  constructor
  · rintro (⟨hx, hlt⟩ | rfl | ⟨hx, hlt⟩)
    · exact Or.inr ⟨hx, ne_of_lt hlt⟩
    · exact Or.inl rfl
    · exact Or.inr ⟨hx, ne_of_gt hlt⟩
  · rintro (rfl | ⟨hx, hne⟩)
    · exact Or.inr (Or.inl rfl)
    · rcases lt_or_gt_of_ne hne with hlt | hlt
      · exact Or.inl ⟨hx, hlt⟩
      · exact Or.inr (Or.inr ⟨hx, hlt⟩)

/-- After a removal there are those of the other keys. -/
theorem mem_erase : x ∈ (m.erase k).entries ↔ x ∈ m.entries ∧ x.1 ≠ k := by
  simp [erase]

/-- Erasing key by key. -/
theorem mem_foldl_erase {ks : List κ} {m : SortedMap κ ν} :
    x ∈ (ks.foldl erase m).entries ↔ x ∈ m.entries ∧ x.1 ∉ ks := by
  induction ks generalizing m with
  | nil => simp
  | cons k ks ih => rw [List.foldl_cons, ih, mem_erase, List.mem_cons, not_or, and_assoc]

/-- Inserting above every key appends. -/
theorem entries_insert_of_forall_lt (h : ∀ x ∈ m.entries, x.1 < k) :
    (m.insert k v).entries = m.entries ++ [(k, v)] := by
  have h₁ : m.entries.filter (fun x => decide (x.1 < k)) = m.entries :=
    List.filter_eq_self.2 fun x hx => by simpa using h x hx
  have h₂ : m.entries.filter (fun x => decide (k < x.1)) = [] :=
    List.filter_eq_nil_iff.2 fun x hx => by simpa using (h x hx).le
  rw [entries_insert, h₁, h₂]

/-- Erasing the highest key drops the last entry. -/
theorem entries_erase_of_concat {xs : List (κ × ν)} (h : m.entries = xs ++ [x]) :
    (m.erase x.1).entries = xs := by
  have hs := m.sorted
  rw [h, List.pairwise_append] at hs
  have hxs : xs.filter (fun y => decide (y.1 ≠ x.1)) = xs := by
    refine List.filter_eq_self.2 fun y hy => ?_
    simpa using ne_of_lt (hs.2.2 y hy x (List.mem_singleton_self x))
  rw [entries_erase, h, List.filter_append, hxs]
  simp

/-- The first entry is taken off the front. -/
theorem popFirst_eq_some {xs : List (κ × ν)} (h : m.entries = x :: xs) :
    ∃ m' : SortedMap κ ν, m.popFirst = some (x, m') ∧ m'.entries = xs := by
  obtain ⟨entries, sorted⟩ := m
  cases h
  exact ⟨_, rfl, rfl⟩

/-- A range is sorted by key. -/
theorem range_pairwise (m : SortedMap κ ν) (lo hi : κ) :
    (m.range lo hi).Pairwise fun a b => a.1 < b.1 := m.sorted.filter _

/-- A range has the entries with keys between its bounds, both included. -/
theorem mem_range {lo hi : κ} : x ∈ m.range lo hi ↔ x ∈ m.entries ∧ lo ≤ x.1 ∧ x.1 ≤ hi := by
  simp [range]

/-- A removal adds no entry. -/
theorem size_erase_le (m : SortedMap κ ν) (k : κ) : (m.erase k).size ≤ m.size :=
  List.length_filter_le _ _

/-- Erasing a key that is there makes the map smaller. -/
theorem size_erase_lt (h : x ∈ m.entries) : (m.erase x.1).size < m.size :=
  List.length_filter_lt_length_iff_exists.2 ⟨x, h, by simp⟩

/-- Erasing a key that is not there changes nothing. -/
theorem erase_of_forall_ne (h : ∀ x ∈ m.entries, x.1 ≠ k) : m.erase k = m :=
  ext_entries (List.filter_eq_self.2 fun x hx => by simpa using h x hx)

/-- An insertion adds one entry to those of the other keys. -/
theorem size_insert (m : SortedMap κ ν) (k : κ) (v : ν) :
    (m.insert k v).size = (m.erase k).size + 1 := by
  have hsplit : ∀ l : List (κ × ν), (l.filter fun x => decide (x.1 ≠ k)).length =
      (l.filter fun x => decide (x.1 < k)).length + (l.filter fun x => decide (k < x.1)).length := by
    intro l
    induction l with
    | nil => rfl
    | cons y l ih =>
      rcases lt_trichotomy y.1 k with hlt | heq | hgt
      · simp only [List.filter_cons, hlt, hlt.ne, hlt.not_gt, ne_eq, not_false_eq_true, decide_true,
          decide_false, if_true, List.length_cons, ih]
        simp only [Bool.false_eq_true, if_false]
        omega
      · simpa [List.filter_cons, heq] using ih
      · simp only [List.filter_cons, hgt, hgt.ne', hgt.not_gt, ne_eq, not_false_eq_true, decide_true,
          decide_false, if_true, List.length_cons, ih]
        simp only [Bool.false_eq_true, if_false]
        omega
  rw [size, entries_insert, List.length_append, List.length_cons, size, entries_erase, hsplit]
  omega

/-- What is left when the entry of the lowest key goes. -/
theorem mem_tail : x ∈ m.entries.tail ↔ x ∈ m.entries ∧ ∃ y ∈ m.entries, y.1 < x.1 := by
  have hs := m.sorted
  cases he : m.entries with
  | nil => simp
  | cons z zs =>
    rw [he, List.pairwise_cons] at hs
    constructor
    · exact fun hx => ⟨List.mem_cons_of_mem _ hx, z, List.mem_cons_self .., hs.1 x hx⟩
    · rintro ⟨hx, y, hy, hlt⟩
      rcases List.mem_cons.1 hx with rfl | hx
      · -- `x` is the lowest, and nothing is below it
        rcases List.mem_cons.1 hy with rfl | hy
        · exact absurd hlt (lt_irrefl _)
        · exact absurd hlt (hs.1 y hy).not_gt
      · exact hx

/-- The smallest key has an entry, and none is below it. -/
theorem minKey?_eq_some : m.minKey? = some k ↔ (∃ v, (k, v) ∈ m.entries) ∧ ∀ x ∈ m.entries, k ≤ x.1 := by
  have hs := m.sorted
  unfold minKey?
  cases he : m.entries with
  | nil => simp
  | cons y ys =>
    rw [he, List.pairwise_cons] at hs
    rw [List.head?_cons, Option.map_some, Option.some.injEq]
    constructor
    · rintro rfl
      exact ⟨⟨y.2, List.mem_cons_self ..⟩,
        List.forall_mem_cons.2 ⟨le_rfl, fun x hx => (hs.1 x hx).le⟩⟩
    · rintro ⟨⟨v, hv⟩, hall⟩
      refine le_antisymm ?_ (hall y (List.mem_cons_self ..))
      rcases List.mem_cons.1 hv with rfl | hv
      · exact le_rfl
      · exact (hs.1 _ hv).le

/-- The greatest key has an entry, and none is above it. -/
theorem maxKey?_eq_some : m.maxKey? = some k ↔ (∃ v, (k, v) ∈ m.entries) ∧ ∀ x ∈ m.entries, x.1 ≤ k := by
  have hs := m.sorted
  unfold maxKey?
  rcases List.eq_nil_or_concat m.entries with he | ⟨ys, y, he⟩
  · simp [he]
  · rw [he, List.concat_eq_append, List.pairwise_append] at hs
    rw [he, List.concat_eq_append, List.getLast?_concat, Option.map_some, Option.some.injEq]
    constructor
    · rintro rfl
      refine ⟨⟨y.2, by simp⟩, fun x hx => ?_⟩
      rcases List.mem_append.1 hx with hx | hx
      · exact (hs.2.2 x hx y (List.mem_singleton_self y)).le
      · rw [List.mem_singleton.1 hx]
    · rintro ⟨⟨v, hv⟩, hall⟩
      refine le_antisymm (hall y (by simp)) ?_
      rcases List.mem_append.1 hv with hv | hv
      · exact (hs.2.2 _ hv y (List.mem_singleton_self y)).le
      · rw [← List.mem_singleton.1 hv]

/-- A map is the set of its entries. -/
theorem ext_mem {m m' : SortedMap κ ν} (h : ∀ x, x ∈ m.entries ↔ x ∈ m'.entries) : m = m' := by
  refine ext_entries ?_
  have hnd : ∀ m : SortedMap κ ν, m.entries.Nodup :=
    fun m => m.sorted.imp fun hlt heq => (ne_of_lt hlt) (congrArg Prod.fst heq)
  have hperm := (List.perm_ext_iff_of_nodup (hnd m) (hnd m')).2 h
  exact hperm.eq_of_pairwise (fun x y _ _ hxy hyx => absurd hxy hyx.not_gt) m.sorted m'.sorted

/-- A filter takes the entries that it lets through. -/
theorem entries_filter (m : SortedMap κ ν) (p : κ × ν → Bool) :
    (m.filter p).entries = m.entries.filter p := rfl

/-- These are the entries of the filtered map. -/
theorem mem_filter {p : κ × ν → Bool} : x ∈ (m.filter p).entries ↔ x ∈ m.entries ∧ p x = true :=
  List.mem_filter

/-- In ascending order, having fewer than `n` entries above is being among the last `n`. -/
theorem filter_above_eq_drop {l : List (κ × ν)} (h : l.Pairwise fun a b => a.1 < b.1) (n : ℕ) :
    l.filter (fun x => decide ((l.filter fun y => decide (x.1 < y.1)).length < n)) =
      l.drop (l.length - n) := by
  induction l with
  | nil => simp
  | cons x l ih =>
    obtain ⟨hx, hl⟩ := List.pairwise_cons.1 h
    -- everything else is above the first, and the first is above nothing
    have hfirst : (x :: l).filter (fun y => decide (x.1 < y.1)) = l := by
      rw [List.filter_cons_of_neg (by simp)]
      exact List.filter_eq_self.2 fun y hy => by simpa using hx y hy
    have hrest : l.filter (fun y => decide (((x :: l).filter
        fun z => decide (y.1 < z.1)).length < n)) = l.drop (l.length - n) := by
      rw [← ih hl]
      refine List.filter_congr fun y hy => ?_
      rw [List.filter_cons_of_neg (by simpa using (hx y hy).le)]
    rw [List.length_cons]
    by_cases hlen : l.length < n
    · rw [List.filter_cons_of_pos (by rw [hfirst]; simpa using hlen), hrest,
        show l.length - n = 0 by omega, show l.length + 1 - n = 0 by omega]
      rfl
    · rw [List.filter_cons_of_neg (by rw [hfirst]; simpa using hlen), hrest,
        show l.length + 1 - n = l.length - n + 1 by omega, List.drop_succ_cons]

/-- The entries with the highest keys are the last ones. -/
theorem entries_highest (m : SortedMap κ ν) (n : ℕ) :
    (m.highest n).entries = m.entries.drop (m.size - n) :=
  filter_above_eq_drop m.sorted n

/-- There are as many of them as are asked for, or all. -/
theorem size_highest (m : SortedMap κ ν) (n : ℕ) : (m.highest n).size = min m.size n := by
  rw [size, entries_highest, List.length_drop, ← size]
  omega

/-- The restriction drops an entry exactly when there are more than `n`. -/
theorem exists_notMem_highest {n : ℕ} :
    (∃ x ∈ m.entries, x ∉ (m.highest n).entries) ↔ n < m.size := by
  constructor
  · rintro ⟨x, hx, hnot⟩
    by_contra hle
    rw [entries_highest, show m.size - n = 0 by omega, List.drop_zero] at hnot
    exact hnot hx
  · intro hlt
    by_contra hall
    push Not at hall
    have hsub : m.highest n = m :=
      ext_mem fun x => ⟨fun hx => (mem_filter.1 hx).1, fun hx => hall x hx⟩
    have hsize := m.size_highest n
    rw [hsub] at hsize
    omega

end SortedMap
