/-
# The block archive

`BlockArchive` of `crates/lightcycle-store/src/archive.rs`: one redb table from
height to `[block_id: 32 bytes][payload]`, here a `SortedMap`.  A method is one
transaction, so it reads or writes the table as a whole.  The failures of redb
itself (opening the file, a transaction, a commit) have no counterpart; a value
too short for its id prefix is `truncated`.

`range` walks the rows in order up to the limit and fails at a row that does not
unpack (`range_of_forall`, `range_error`).
-/

import Lightcycle.Types.Basic
import Lightcycle.Lib.SortedMap

namespace Lightcycle
namespace Store

/-- Errors surfaced by the block archive. -/
inductive ArchiveError where
  | truncated (height len : ℕ)
deriving DecidableEq

/-- The `Display` text of the error. -/
def ArchiveError.display : ArchiveError → String
  | .truncated height len => s!"archive value at height {height} is shorter than 32-byte " ++
      s!"block id prefix ({len} bytes)"

/-- `pack_value`. -/
def packValue (blockId : BlockId) (payload : List UInt8) : List UInt8 :=
  blockId.bytes.toList ++ payload

/-- `unpack_value`. -/
def unpackValue (height : ℕ) (bytes : List UInt8) : Except ArchiveError (BlockId × List UInt8) :=
  if h : bytes.length < 32 then .error (.truncated height bytes.length)
  else
    .ok (⟨⟨bytes.take 32, by rw [List.length_take]; omega⟩⟩, bytes.drop 32)

/-- **A row is unpacked to what was packed.** -/
theorem unpackValue_packValue (height : ℕ) (blockId : BlockId) (payload : List UInt8) :
    unpackValue height (packValue blockId payload) = .ok (blockId, payload) := by
  have hlen : blockId.bytes.toList.length = 32 := List.Vector.toList_length _
  have hlt : ¬ (packValue blockId payload).length < 32 := by
    rw [packValue, List.length_append, hlen]
    omega
  have htake : (packValue blockId payload).take 32 = blockId.bytes.toList := List.take_left' hlen
  have hdrop : (packValue blockId payload).drop 32 = payload := List.drop_left' hlen
  unfold unpackValue
  rw [dif_neg hlt, hdrop]
  exact congrArg (fun id => Except.ok (id, payload)) (congrArg BlockId.mk (Subtype.ext htake))

/-- A row of the archive: height, id and payload. -/
abbrev ArchiveRow := ℕ × BlockId × List UInt8

/-- Persistent block archive. -/
structure BlockArchive where
  blocks : SortedMap ℕ (List UInt8)
deriving DecidableEq

namespace BlockArchive

/-- `BlockArchive::open` on a new file. -/
def empty : BlockArchive := ⟨.empty⟩

/-- `BlockArchive::put`: replaces what the height held. -/
def put (a : BlockArchive) (height : ℕ) (blockId : BlockId) (payload : List UInt8) :
    BlockArchive := ⟨a.blocks.insert height (packValue blockId payload)⟩

/-- `BlockArchive::put_batch`. -/
def putBatch (a : BlockArchive) (items : List ArchiveRow) : BlockArchive :=
  items.foldl (fun a i => a.put i.1 i.2.1 i.2.2) a

/-- `BlockArchive::get`. -/
def get (a : BlockArchive) (height : ℕ) :
    Except ArchiveError (Option (BlockId × List UInt8)) :=
  match a.blocks.get? height with
  | none => .ok none
  | some bytes => (unpackValue height bytes).map some

/-- The loop of `range`. -/
def rangeLoop (limit : ℕ) : List (ℕ × List UInt8) → List ArchiveRow →
    Except ArchiveError (List ArchiveRow)
  | [], out => .ok out
  | (height, bytes) :: rest, out =>
    match unpackValue height bytes with
    | .error e => .error e
    | .ok (id, payload) =>
      let out := out ++ [(height, id, payload)]
      if limit ≤ out.length then .ok out else rangeLoop limit rest out

/-- `BlockArchive::range`: the rows between two heights, both included, in ascending
order, at most `limit` of them. -/
def range (a : BlockArchive) (start endInclusive limit : ℕ) :
    Except ArchiveError (List ArchiveRow) :=
  if endInclusive < start ∨ limit = 0 then .ok []
  else rangeLoop limit (a.blocks.range start endInclusive) []

/-- `BlockArchive::delete_below`: the archive and the number of rows removed. -/
def deleteBelow (a : BlockArchive) (floor : ℕ) : BlockArchive × ℕ :=
  let toRemove := (a.blocks.entries.filter fun x => decide (x.1 < floor)).map Prod.fst
  (⟨toRemove.foldl SortedMap.erase a.blocks⟩, toRemove.length)

/-- `BlockArchive::min_height`. -/
def minHeight (a : BlockArchive) : Option ℕ := a.blocks.minKey?

/-- `BlockArchive::max_height`. -/
def maxHeight (a : BlockArchive) : Option ℕ := a.blocks.maxKey?

/-- `BlockArchive::len`. -/
def len (a : BlockArchive) : ℕ := a.blocks.size

/-- `delete_below` removes the rows below the floor. -/
theorem mem_deleteBelow {a : BlockArchive} {floor : ℕ} {x : ℕ × List UInt8} :
    x ∈ (a.deleteBelow floor).1.blocks.entries ↔ x ∈ a.blocks.entries ∧ floor ≤ x.1 := by
  rw [deleteBelow, SortedMap.mem_foldl_erase]
  refine and_congr_right fun hx => ?_
  rw [List.mem_map, not_exists]
  constructor
  · intro h
    by_contra hlt
    exact h x ⟨List.mem_filter.2 ⟨hx, decide_eq_true (Nat.not_le.1 hlt)⟩, rfl⟩
  · rintro hle y ⟨hy, hkey⟩
    have hlt := of_decide_eq_true (List.mem_filter.1 hy).2
    omega

/-! ### What `range` returns -/

/-- A row of the table unpacked. -/
def rowOf (x : ℕ × List UInt8) : Option ArchiveRow :=
  (unpackValue x.1 x.2).toOption.map (x.1, ·)

/-- A row too short for an id is truncated. -/
theorem unpackValue_of_lt {height : ℕ} {bytes : List UInt8} (h : bytes.length < 32) :
    unpackValue height bytes = .error (.truncated height bytes.length) := by
  unfold unpackValue
  rw [dif_pos h]

/-- Any other row has an id and a payload. -/
theorem unpackValue_of_le (height : ℕ) {bytes : List UInt8} (h : 32 ≤ bytes.length) :
    ∃ id, unpackValue height bytes = .ok (id, bytes.drop 32) := by
  unfold unpackValue
  rw [dif_neg (by omega)]
  exact ⟨_, rfl⟩

/-- So has its entry in the table. -/
theorem rowOf_of_le {x : ℕ × List UInt8} (h : 32 ≤ x.2.length) :
    ∃ id, rowOf x = some (x.1, id, x.2.drop 32) := by
  obtain ⟨id, hid⟩ := unpackValue_of_le x.1 h
  refine ⟨id, ?_⟩
  rw [rowOf, hid]
  rfl

/-- The first rows, when all of them unpack. -/
theorem rangeLoop_of_forall {limit : ℕ} {rows : List (ℕ × List UInt8)} {out : List ArchiveRow}
    (hlim : out.length < limit) (h : ∀ x ∈ rows.take (limit - out.length), 32 ≤ x.2.length) :
    rangeLoop limit rows out = .ok (out ++ (rows.take (limit - out.length)).filterMap rowOf) := by
  induction rows generalizing out with
  | nil => simp [rangeLoop]
  | cons x rows ih =>
    obtain ⟨k, hk⟩ : ∃ k, limit - out.length = k + 1 := ⟨limit - out.length - 1, by omega⟩
    rw [hk, List.take_succ_cons] at h ⊢
    obtain ⟨hx, hrows⟩ := List.forall_mem_cons.1 h
    obtain ⟨id, hid⟩ := unpackValue_of_le x.1 hx
    have hrow : rowOf x = some (x.1, id, x.2.drop 32) := by rw [rowOf, hid]; rfl
    have hlen : (out ++ [(x.1, id, x.2.drop 32)]).length = out.length + 1 := by simp
    have hk' : limit - (out.length + 1) = k := by omega
    unfold rangeLoop
    simp only [hid]
    rw [List.filterMap_cons_some hrow, hlen]
    split_ifs with hend
    · rw [show k = 0 by omega]
      simp
    · rw [ih (by omega) (by rw [hlen, hk']; exact hrows), hlen, hk', List.append_assoc,
        List.singleton_append]

/-- A row that does not unpack fails the scan. -/
theorem rangeLoop_error {limit : ℕ} {rows : List (ℕ × List UInt8)} {out : List ArchiveRow}
    (hlim : out.length < limit) (h : ∃ x ∈ rows.take (limit - out.length), x.2.length < 32) :
    ∃ e, rangeLoop limit rows out = .error e := by
  induction rows generalizing out with
  | nil => simp at h
  | cons x rows ih =>
    obtain ⟨k, hk⟩ : ∃ k, limit - out.length = k + 1 := ⟨limit - out.length - 1, by omega⟩
    rw [hk, List.take_succ_cons] at h
    unfold rangeLoop
    rcases Nat.lt_or_ge x.2.length 32 with hx | hx
    · simp only [unpackValue_of_lt hx]
      exact ⟨_, rfl⟩
    · obtain ⟨id, hid⟩ := unpackValue_of_le x.1 hx
      have hrows : ∃ y ∈ rows.take k, y.2.length < 32 := by
        obtain ⟨y, hy, hlt⟩ := h
        rcases List.mem_cons.1 hy with rfl | hy
        · omega
        · exact ⟨y, hy, hlt⟩
      have hlen : (out ++ [(x.1, id, x.2.drop 32)]).length = out.length + 1 := by simp
      simp only [hid]
      rw [hlen]
      split_ifs with hend
      · obtain ⟨y, hy, -⟩ := hrows
        rw [show k = 0 by omega] at hy
        cases hy
      · exact ih (by omega) (by rw [hlen, show limit - (out.length + 1) = k by omega]; exact hrows)

/-- An empty range has no rows. -/
theorem blocks_range_eq_nil {a : BlockArchive} {lo hi : ℕ} (h : hi < lo) :
    a.blocks.range lo hi = [] := by
  refine List.filter_eq_nil_iff.2 fun x _ => ?_
  simp only [decide_eq_true_eq]
  omega

/-- **What a range scan returns**: the first rows in range, up to the limit. -/
theorem range_of_forall {a : BlockArchive} {lo hi limit : ℕ}
    (h : ∀ x ∈ (a.blocks.range lo hi).take limit, 32 ≤ x.2.length) :
    a.range lo hi limit = .ok (((a.blocks.range lo hi).take limit).filterMap rowOf) := by
  unfold range
  split_ifs with hempty
  · rcases hempty with hlt | rfl
    · rw [blocks_range_eq_nil hlt, List.take_nil, List.filterMap_nil]
    · rw [List.take_zero, List.filterMap_nil]
  · exact rangeLoop_of_forall (by simp; omega) h

/-- One truncated row fails the range. -/
theorem range_error {a : BlockArchive} {lo hi limit : ℕ}
    (h : ∃ x ∈ (a.blocks.range lo hi).take limit, x.2.length < 32) :
    ∃ e, a.range lo hi limit = .error e := by
  unfold range
  split_ifs with hempty
  · obtain ⟨x, hx, -⟩ := h
    rcases hempty with hlt | rfl
    · rw [blocks_range_eq_nil hlt, List.take_nil] at hx
      cases hx
    · rw [List.take_zero] at hx
      cases hx
  · exact rangeLoop_error (by simp; omega) h

end BlockArchive

end Store
end Lightcycle
