/-
# Core domain types

`crates/lightcycle-types/src/lib.rs`.  A `BlockHeight` is a `u64`; it is modelled
by `ℕ`, and the one place it enters the system, the decoded block header
(`Lightcycle.Codec.Block`), carries the bound `height < 2 ^ 64` as a field.  The
two operations that saturate at `u64::MAX` are `saturatingAdd` and, for
subtraction, the truncated subtraction of `ℕ`.

Byte arrays of a fixed length (`[u8; 32]`, `[u8; 21]`) are vectors of bytes,
`Vec<u8>` is a list of bytes.  A finality tier is derived from the height of a
block and the last solidified head the chain reported, never computed otherwise
(`FinalityTier.derive`).
-/

import Mathlib

namespace Lightcycle

/-- `u64::MAX`. -/
def u64Max : ℕ := 2 ^ 64 - 1

/-- `u64::saturating_add`. -/
def saturatingAdd (a b : ℕ) : ℕ := min (a + b) u64Max

/-- Below another `u64` the next number is one more. -/
theorem saturatingAdd_of_lt {a b : ℕ} (h : a < b) (hb : b ≤ u64Max) :
    saturatingAdd a 1 = a + 1 := by
  unfold saturatingAdd
  omega

/-- A 32-byte block identifier. -/
structure BlockId where
  bytes : List.Vector UInt8 32
deriving DecidableEq

/-- A 32-byte transaction hash. -/
structure TxHash where
  bytes : List.Vector UInt8 32
deriving DecidableEq

/-- A 21-byte TRON address: a network prefix and a 20-byte hash. -/
structure Address where
  bytes : List.Vector UInt8 21
deriving DecidableEq

/-- `BlockId([b; 32])`. -/
def BlockId.fill (b : UInt8) : BlockId := ⟨List.Vector.replicate 32 b⟩

/-- `Address([b; 21])`. -/
def Address.fill (b : UInt8) : Address := ⟨List.Vector.replicate 21 b⟩

/-- The event tag of an emission, what happened, not a block's state. -/
inductive Step where
  | new
  | undo
  | irreversible
deriving DecidableEq

/-- Per-block finality state, read from the chain. -/
inductive FinalityTier where
  | seen
  | confirmed
  | finalized
deriving DecidableEq

/-- `FinalityTier::derive`: at or below the solidified head is finalized, above it
a buffered descendant makes the block confirmed. -/
def FinalityTier.derive (height : ℕ) (solidifiedHead : Option ℕ)
    (hasBufferedDescendant : Bool) : FinalityTier :=
  match solidifiedHead with
  | some s =>
    if height ≤ s then .finalized else if hasBufferedDescendant then .confirmed else .seen
  | none => if hasBufferedDescendant then .confirmed else .seen

/-- The finality envelope a block carries on every emission. -/
structure BlockFinality where
  tier : FinalityTier
  solidifiedHead : Option ℕ
deriving DecidableEq

/-- `BlockFinality::for_block`. -/
def BlockFinality.forBlock (height : ℕ) (solidifiedHead : Option ℕ)
    (hasBufferedDescendant : Bool) : BlockFinality where
  tier := .derive height solidifiedHead hasBufferedDescendant
  solidifiedHead := solidifiedHead

/-- The active super-representative set, a `HashSet` of addresses. -/
structure SrSet where
  members : Finset Address
deriving DecidableEq

/-- `SrSet::new`: duplicates fall together. -/
def SrSet.new (members : List Address) : SrSet := ⟨members.toFinset⟩

/-- `SrSet::contains`. -/
def SrSet.contains (s : SrSet) (a : Address) : Bool := decide (a ∈ s.members)

/-- The set answers for its members. -/
theorem SrSet.contains_new {members : List Address} {a : Address} :
    (SrSet.new members).contains a = true ↔ a ∈ members := by
  rw [contains, decide_eq_true_iff, new, List.mem_toFinset]

/-- `SrSet::len`. -/
def SrSet.len (s : SrSet) : ℕ := s.members.card

end Lightcycle
