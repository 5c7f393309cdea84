/-
# The stream-resumption cursor

`crates/lightcycle-relayer/src/cursor.rs`.  A cursor is a height and a block id;
on the wire it is the height in 8 big-endian bytes followed by the 32 bytes of the
id.  `fromBytes` refuses every other length.  A cursor whose height is a `u64` is
read back from its bytes (`fromBytes_toBytes`), and 40 bytes are those of the cursor
they are read as (`toBytes_fromBytes`), so that the cursors and the strings of 40 bytes
are in bijection (`bijOn_toBytes`).
-/

import Lightcycle.Types.Basic

namespace Lightcycle
namespace Relayer

/-- Resumption cursor, `(height, block_id)`. -/
structure Cursor where
  height : ℕ
  blockId : BlockId
deriving DecidableEq

/-- `u64::to_be_bytes`. -/
def toBeBytes (n : ℕ) : List UInt8 :=
  [n / 256 ^ 7, n / 256 ^ 6, n / 256 ^ 5, n / 256 ^ 4, n / 256 ^ 3, n / 256 ^ 2, n / 256,
    n].map UInt8.ofNat

/-- `u64::from_be_bytes`, most significant byte first. -/
def fromBeBytes (bytes : List UInt8) : ℕ := bytes.foldl (fun n b => 256 * n + b.toNat) 0

/-- `Cursor::to_bytes`: 40 bytes, the height and the id. -/
def Cursor.toBytes (c : Cursor) : List UInt8 := toBeBytes c.height ++ c.blockId.bytes.toList

/-- `Cursor::from_bytes`: `none` on any length other than 40. -/
def Cursor.fromBytes (bytes : List UInt8) : Option Cursor :=
  if h : bytes.length = 40 then
    some { height := fromBeBytes (bytes.take 8)
           blockId := ⟨⟨bytes.drop 8, by rw [List.length_drop, h]⟩⟩ }
  else none

/-- A height has 8 bytes. -/
theorem length_toBeBytes (n : ℕ) : (toBeBytes n).length = 8 := rfl

/-- A `u64` is read back from its bytes. -/
theorem fromBeBytes_toBeBytes {n : ℕ} (h : n < 2 ^ 64) : fromBeBytes (toBeBytes n) = n := by
  simp only [fromBeBytes, toBeBytes, List.map_cons, List.map_nil, List.foldl_cons,
    List.foldl_nil, UInt8.toNat_ofNat', mul_zero, zero_add]
  omega

/-- A cursor has 40 bytes. -/
theorem Cursor.length_toBytes (c : Cursor) : c.toBytes.length = 40 := by
  rw [Cursor.toBytes, List.length_append, length_toBeBytes, List.Vector.toList_length]

/-- **A cursor is read back from its bytes**, when its height is a `u64`. -/
theorem Cursor.fromBytes_toBytes {c : Cursor} (h : c.height < 2 ^ 64) :
    Cursor.fromBytes c.toBytes = some c := by
  unfold Cursor.fromBytes
  rw [dif_pos c.length_toBytes]
  have htake : c.toBytes.take 8 = toBeBytes c.height := List.take_left' (length_toBeBytes _)
  have hdrop : c.toBytes.drop 8 = c.blockId.bytes.toList := List.drop_left' (length_toBeBytes _)
  congr 1
  obtain ⟨height, ⟨⟨bytes, hb⟩⟩⟩ := c
  rw [Cursor.mk.injEq]
  exact ⟨by rw [htake, fromBeBytes_toBeBytes h], congrArg BlockId.mk (Subtype.ext hdrop)⟩

/-- The last byte is the lowest. -/
theorem fromBeBytes_concat (bytes : List UInt8) (b : UInt8) :
    fromBeBytes (bytes ++ [b]) = 256 * fromBeBytes bytes + b.toNat := List.foldl_concat ..

/-- Bytes are read as a number below their range. -/
theorem fromBeBytes_lt (bytes : List UInt8) : fromBeBytes bytes < 256 ^ bytes.length := by
  induction bytes using List.reverseRecOn with
  | nil => exact Nat.one_pos
  | append_singleton bytes b ih =>
    have hb : b.toNat < 256 := b.toNat_lt
    rw [fromBeBytes_concat, List.length_append, List.length_singleton, pow_succ]
    omega

/-- The last byte is the number modulo 256, and the bytes before it are the quotient. -/
theorem eq_of_fromBeBytes_eq {bytes bytes' : List UInt8} (hlen : bytes.length = bytes'.length)
    (h : fromBeBytes bytes = fromBeBytes bytes') : bytes = bytes' := by
  induction bytes using List.reverseRecOn generalizing bytes' with
  | nil => exact (List.length_eq_zero_iff.1 hlen.symm).symm
  | append_singleton bytes b ih =>
    rcases List.eq_nil_or_concat' bytes' with rfl | ⟨bytes', b', rfl⟩
    · simp at hlen
    · have hb : b.toNat < 256 := b.toNat_lt
      have hb' : b'.toNat < 256 := b'.toNat_lt
      rw [fromBeBytes_concat, fromBeBytes_concat] at h
      rw [List.length_append, List.length_append, List.length_singleton, List.length_singleton,
        Nat.add_right_cancel_iff] at hlen
      rw [ih hlen (by omega), UInt8.toNat_inj.1 (show b.toNat = b'.toNat by omega)]

/-- Eight bytes are written back as they were. -/
theorem toBeBytes_fromBeBytes {bytes : List UInt8} (h : bytes.length = 8) :
    toBeBytes (fromBeBytes bytes) = bytes := by
  have hlt := fromBeBytes_lt bytes
  rw [h] at hlt
  exact eq_of_fromBeBytes_eq ((length_toBeBytes _).trans h.symm) (fromBeBytes_toBeBytes hlt)

/-- **A cursor read from bytes has those bytes**, and its height is a `u64`. -/
theorem Cursor.toBytes_fromBytes {bytes : List UInt8} {c : Cursor}
    (h : Cursor.fromBytes bytes = some c) : c.toBytes = bytes ∧ c.height < 2 ^ 64 := by
  unfold Cursor.fromBytes at h
  split_ifs at h with hlen
  obtain rfl := Option.some.inj h
  have htake : (bytes.take 8).length = 8 := by
    rw [List.length_take, hlen]
    rfl
  constructor
  · show toBeBytes (fromBeBytes (bytes.take 8)) ++ bytes.drop 8 = bytes
    rw [toBeBytes_fromBeBytes htake, List.take_append_drop]
  · have hlt := fromBeBytes_lt (bytes.take 8)
    rw [htake] at hlt
    exact hlt

/-- Only the length is checked. -/
theorem Cursor.fromBytes_eq_none_iff {bytes : List UInt8} :
    Cursor.fromBytes bytes = none ↔ bytes.length ≠ 40 := by
  unfold Cursor.fromBytes
  split_ifs with hlen
  · exact iff_of_false id fun hne => hne hlen
  · exact iff_of_true rfl hlen

/-- **The cursors with a `u64` height and the strings of 40 bytes correspond**: each such
string is the bytes of one cursor. -/
theorem Cursor.bijOn_toBytes :
    Set.BijOn Cursor.toBytes {c | c.height < 2 ^ 64} {bytes | bytes.length = 40} := by
  refine ⟨fun c _ => c.length_toBytes, fun c hc d hd heq => ?_, fun bytes hlen => ?_⟩
  · have hread := Cursor.fromBytes_toBytes hc
    rw [heq, Cursor.fromBytes_toBytes hd] at hread
    exact (Option.some.inj hread).symm
  · have hsome : Cursor.fromBytes bytes ≠ none := fun hnone =>
      Cursor.fromBytes_eq_none_iff.1 hnone hlen
    obtain ⟨c, hc⟩ := Option.ne_none_iff_exists'.1 hsome
    obtain ⟨hbytes, hlt⟩ := Cursor.toBytes_fromBytes hc
    exact ⟨c, hlt, hbytes⟩

end Relayer
end Lightcycle
