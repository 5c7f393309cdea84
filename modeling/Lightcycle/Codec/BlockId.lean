/-
# The id of a block and its height

A block number is an `i64` on the wire.  The id of a block takes its eight bytes as they
are, the height is the number if it is not negative and 0 otherwise.  So the id begins
with the height exactly when the number is not negative (`blockId_carries_height`); a
negative number, which the decoder accepts, has the height 0 and an id that begins with
the two's complement (`blockId_of_minus_one`).

Two blocks of different heights have different ids all the same: the id determines the
number (`number_of_blockIdOf`), and the number the height.
-/

import Lightcycle.Codec.DecodeBlock

namespace Lightcycle

open Relayer (toBeBytes fromBeBytes fromBeBytes_toBeBytes length_toBeBytes)

section decoders

variable {p : Protocol.PayloadDecoders} {sha256 : List UInt8 → List.Vector UInt8 32}

/-- A decoded block has the header of its message. -/
theorem KeptHeader.of_decodeBlockMessage {block : Protocol.Block} {d : DecodedBlock}
    (h : decodeBlockMessage p sha256 block = .ok d) :
    ∃ hdr raw, block.blockHeader = some hdr ∧ KeptHeader sha256 hdr raw d.header := by
  obtain ⟨⟨hdr, hhdr, hheader⟩, -⟩ := decodeBlockMessage_eq_ok.1 h
  obtain ⟨raw, hkept⟩ := KeptHeader.of_decode hheader
  exact ⟨hdr, raw, hhdr, hkept⟩

/-- Two heights with the same bytes are one. -/
theorem toBeBytes_inj {a b : ℕ} (ha : a < 2 ^ 64) (hb : b < 2 ^ 64) :
    toBeBytes a = toBeBytes b ↔ a = b := by
  refine ⟨fun h => ?_, fun h => h ▸ rfl⟩
  rw [← fromBeBytes_toBeBytes ha, h, fromBeBytes_toBeBytes hb]

/-- The first 8 bytes of an id are those of the number. -/
theorem take_blockIdOf (number : Int64) (digest : List.Vector UInt8 32) :
    (blockIdOf number digest).bytes.toList.take 8 = toBeBytes number.toUInt64.toNat :=
  List.take_left' (length_toBeBytes _)

/-- The others are those of the digest. -/
theorem drop_blockIdOf (number : Int64) (digest : List.Vector UInt8 32) :
    (blockIdOf number digest).bytes.toList.drop 8 = digest.toList.drop 8 :=
  List.drop_left' (length_toBeBytes _)

/-- A signed number is determined by its two's complement. -/
theorem eq_of_toUInt64_eq {a b : Int64} (h : a.toUInt64 = b.toUInt64) : a = b := by
  rw [← a.toInt64_toUInt64, h, b.toInt64_toUInt64]

/-- The id of a block determines its number. -/
theorem number_of_blockIdOf {n n' : Int64} {digest digest' : List.Vector UInt8 32}
    (h : blockIdOf n digest = blockIdOf n' digest') : n = n' := by
  have hbytes : toBeBytes n.toUInt64.toNat = toBeBytes n'.toUInt64.toNat := by
    rw [← take_blockIdOf n digest, h, take_blockIdOf]
  rw [toBeBytes_inj n.toUInt64.toNat_lt n'.toUInt64.toNat_lt, UInt64.toNat_inj] at hbytes
  exact eq_of_toUInt64_eq hbytes

/-- The two conversions of a number agree when it is not negative. -/
theorem toNat_toUInt64_iff (n : Int64) : n.toUInt64.toNat = n.toInt.toNat ↔ 0 ≤ n := by
  constructor
  · intro h
    by_contra hneg
    have hle : n ≤ 0 := Int64.le_of_lt (Int64.not_le.1 hneg)
    rw [Int64.toNat_toInt, Int64.toNatClampNeg_eq_zero_iff.2 hle] at h
    have hzero : n.toUInt64 = (0 : Int64).toUInt64 := UInt64.toNat_inj.1 h
    rw [eq_of_toUInt64_eq hzero] at hneg
    exact hneg (Int64.le_refl 0)
  · intro h
    rw [Int64.toNat_toInt, Int64.toNat_toUInt64_of_le h]

/-- **The id of a block begins with its height exactly when the number on the wire is not
negative**, and blocks of different heights have different ids. For a negative number the id
keeps the bits of the `i64` while the height falls back to zero. -/
theorem blockId_carries_height {block : Protocol.Block} {d : DecodedBlock}
    (h : decodeBlockMessage p sha256 block = .ok d) :
    (d.header.blockId.bytes.toList.take 8 = toBeBytes d.header.height ↔
      ∃ hdr raw, block.blockHeader = some hdr ∧ hdr.rawData = some raw ∧ 0 ≤ raw.number) ∧
    ∀ block' d', decodeBlockMessage p sha256 block' = .ok d' →
      d.header.height ≠ d'.header.height → d.header.blockId ≠ d'.header.blockId := by
  obtain ⟨hdr, raw, hhdr, hkept⟩ := KeptHeader.of_decodeBlockMessage h
  constructor
  · have hlt : raw.number.toInt.toNat < 2 ^ 64 := hkept.height ▸ d.header.height_lt
    rw [hkept.blockId, hkept.height, take_blockIdOf, toBeBytes_inj (UInt64.toNat_lt _) hlt,
      toNat_toUInt64_iff]
    constructor
    · intro hnumber
      exact ⟨hdr, raw, hhdr, hkept.rawData, hnumber⟩
    · rintro ⟨hdr', raw', hhdr', hraw', hnumber⟩
      obtain rfl := Option.some.inj (hhdr.symm.trans hhdr')
      obtain rfl := Option.some.inj (hkept.rawData.symm.trans hraw')
      exact hnumber
  · intro block' d' h' hne hid
    obtain ⟨hdr', raw', hhdr', hkept'⟩ := KeptHeader.of_decodeBlockMessage h'
    rw [hkept.blockId, hkept'.blockId] at hid
    apply hne
    rw [hkept.height, hkept'.height, number_of_blockIdOf hid]

end decoders

/-! ### Blocks without transactions -/

/-- A digest that is right on the texts of a table. -/
def digestOf (table : List (List UInt8 × List.Vector UInt8 32)) (bytes : List UInt8) :
    List.Vector UInt8 32 :=
  (table.lookup bytes).getD (List.Vector.replicate 32 0)

/-- Decoders that know no payload. -/
def noPayloads : Protocol.PayloadDecoders where
  transfer _ := none
  transferAsset _ := none
  triggerSmartContract _ := none
  createSmartContract _ := none

/-- The raw data of a header with the number `number` and not much else. -/
def bareRaw (number : Int64) : Protocol.BlockHeader.Raw where
  timestamp := 0
  txTrieRoot := List.replicate 32 0
  parentHash := List.replicate 32 0
  number
  witnessId := 0
  witnessAddress := List.replicate 21 0x41
  version := 0
  accountStateRoot := []

/-- The block of the header. -/
def bareBlock (number : Int64) : Protocol.Block where
  transactions := []
  blockHeader := some ⟨some (bareRaw number), []⟩

/-- The SHA-256 hash of the header 1. -/
def bareHash : List.Vector UInt8 32 :=
  ⟨[244, 68, 78, 92, 112, 178, 55, 154, 185, 41, 74, 130, 175, 120, 173, 254, 22, 249, 192, 250,
    175, 204, 55, 207, 93, 227, 219, 136, 101, 222, 50, 59], rfl⟩

/-- SHA-256 on the headers 1 and -1. -/
def bareDigest : List UInt8 → List.Vector UInt8 32 :=
  digestOf
    [(Protocol.BlockHeader.Raw.message.encode (bareRaw 1), bareHash),
     (Protocol.BlockHeader.Raw.message.encode (bareRaw (-1)),
      ⟨[144, 173, 151, 76, 219, 238, 39, 202, 199, 237, 1, 233, 57, 146, 195, 171, 171, 253, 94,
        158, 13, 154, 34, 57, 6, 115, 146, 187, 81, 170, 236, 158], rfl⟩)]

/-- The block with the number 1. -/
theorem blockId_carries_height_one :
    ∃ d, decodeBlockMessage noPayloads bareDigest (bareBlock 1) = .ok d ∧
      d.header.blockId.bytes.toList.take 8 = toBeBytes d.header.height := by
  have h : decodeBlockMessage noPayloads bareDigest (bareBlock 1) = .ok _ := rfl
  exact ⟨_, h,
    (blockId_carries_height h).1.2 ⟨⟨some (bareRaw 1), []⟩, bareRaw 1, rfl, rfl, by decide⟩⟩

/-- The block with the number -1 has the height 0, and its id begins with eight bytes `ff`. -/
theorem blockId_of_minus_one :
    ∃ d, decodeBlockMessage noPayloads bareDigest (bareBlock (-1)) = .ok d ∧
      d.header.height = 0 ∧ d.header.blockId.bytes.toList.take 8 = List.replicate 8 0xff ∧
      d.header.blockId.bytes.toList.take 8 ≠ toBeBytes d.header.height :=
  ⟨_, rfl, by decide, by decide, by decide⟩

end Lightcycle
