/-
# The hashes of a block and its bytes on the wire

`decode_block` parses the whole block and takes its digests over a second encoding of what
it parsed: of the header's `raw_data` for the block id, of each transaction's for its hash.
The node that made the block hashed the bytes it sent.  `headerRawBytes` and `txRawBytes`
are these bytes, found in the input without decoding any message.

The two agree exactly when the bytes are the encoding of some message
(`wireIdentifiers_iff`): no unknown field, the fields in order, no default written out, no
varint longer than it has to be.  The decoder accepts the other texts as well, and gives
the block an id that its successor does not name as its parent (`decodeBlock_newField`).
-/

import Lightcycle.Codec.BlockId

namespace Lightcycle

open Protobuf
open Protocol (recursionLimit)

/-! ### The bytes on the wire -/

/-- The bytes of `block_header.raw_data` in a block. -/
def headerRawBytes (raw : List UInt8) : List UInt8 :=
  fieldText (recursionLimit - 1) 1 (fieldText recursionLimit 2 raw)

/-- The bytes of the `raw_data` of each transaction in a block. -/
def txRawBytes (raw : List UInt8) : List (List UInt8) :=
  (fieldTexts recursionLimit 1 raw).map (fieldText (recursionLimit - 1) 1)

/-- The raw data of the header is no longer than the block. -/
theorem length_headerRawBytes (raw : List UInt8) : (headerRawBytes raw).length ≤ raw.length :=
  (length_fieldText _ _ _).trans (length_fieldText _ _ _)

/-- Nor is that of a transaction. -/
theorem length_of_mem_txRawBytes {raw text : List UInt8} (h : text ∈ txRawBytes raw) :
    text.length ≤ raw.length := by
  obtain ⟨tx, htx, rfl⟩ := List.mem_map.1 h
  exact (length_fieldText _ _ _).trans (length_of_mem_fieldTexts htx)

/-! ### What was read from them -/

/-- A block that parses has records from which its transactions and its header are read. -/
theorem Protocol.Block.decode_eq_some {raw : List UInt8} {block : Protocol.Block}
    (h : Protocol.Block.decode raw = some block) :
    ∃ rs, parse recursionLimit raw = some rs ∧
      readAll (Transaction.read (recursionLimit - 1)) (recursionLimit - 1) (occ 1 rs) =
        some block.transactions ∧
      readOne (BlockHeader.read (recursionLimit - 1)) (recursionLimit - 1) (occ 2 rs) =
        some block.blockHeader := by
  obtain ⟨rs, hrs, h⟩ := Option.bind_eq_some_iff.1 h
  obtain ⟨transactions, htxs, h⟩ := Option.bind_eq_some_iff.1 h
  obtain ⟨blockHeader, hheader, h⟩ := Option.bind_eq_some_iff.1 h
  obtain rfl := Option.some.inj h
  exact ⟨rs, hrs, htxs, hheader⟩

/-- The raw data of the header is read from its bytes. -/
theorem decode_headerRawBytes {raw : List UInt8} {block : Protocol.Block}
    {hdr : Protocol.BlockHeader} {r : Protocol.BlockHeader.Raw}
    (h : Protocol.Block.decode raw = some block) (hhdr : block.blockHeader = some hdr)
    (hr : hdr.rawData = some r) :
    Protocol.BlockHeader.Raw.message.decode (recursionLimit - 1 - 1) (headerRawBytes raw) =
      some r := by
  obtain ⟨rs, hrs, -, hheader⟩ := Protocol.Block.decode_eq_some h
  rw [hhdr] at hheader
  obtain ⟨rs', hrs', hread⟩ := parse_of_readOne hheader
  obtain ⟨rawData, hraw, hread⟩ := Option.bind_eq_some_iff.1 hread
  obtain ⟨witnessSignature, -, hread⟩ := Option.bind_eq_some_iff.1 hread
  obtain rfl := Option.some.inj hread
  rw [show rawData = some r from hr] at hraw
  unfold headerRawBytes
  rw [fieldText_of_parse hrs, fieldText_of_parse hrs']
  exact Protocol.BlockHeader.Raw.message.decode_of_readOne hraw

/-- The raw data of each transaction is read from its bytes. -/
theorem decode_txRawBytes {raw : List UInt8} {block : Protocol.Block}
    (h : Protocol.Block.decode raw = some block) :
    List.Forall₂ (fun wire tx => ∀ r, tx.rawData = some r →
        Protocol.Transaction.Raw.message.decode (recursionLimit - 1 - 1) wire = some r)
      (txRawBytes raw) block.transactions := by
  obtain ⟨rs, hrs, htxs, -⟩ := Protocol.Block.decode_eq_some h
  unfold txRawBytes
  rw [fieldTexts_of_parse hrs, List.map_map, List.forall₂_map_left_iff]
  refine (parse_of_readAll htxs).imp ?_
  rintro v tx ⟨rs', hrs', hread⟩ r hr
  obtain ⟨rawData, hraw, hread⟩ := Option.bind_eq_some_iff.1 hread
  obtain ⟨signature, -, hread⟩ := Option.bind_eq_some_iff.1 hread
  obtain ⟨_, -, hread⟩ := Option.bind_eq_some_iff.1 hread
  obtain rfl := Option.some.inj hread
  rw [show rawData = some r from hr] at hraw
  rw [Function.comp_apply, fieldText_of_parse hrs']
  exact Protocol.Transaction.Raw.message.decode_of_readOne hraw

/-! ### The identifiers -/

section decoders

variable {p : Protocol.PayloadDecoders} {sha256 : List UInt8 → List.Vector UInt8 32}

/-- The identifiers of a block are the hashes of its bytes on the wire. -/
structure WireIdentifiers (sha256 : List UInt8 → List.Vector UInt8 32) (raw : List UInt8)
    (d : DecodedBlock) : Prop where
  rawDataHash : d.header.rawDataHash = sha256 (headerRawBytes raw)
  blockId : d.header.blockId.bytes.toList.drop 8 = (sha256 (headerRawBytes raw)).toList.drop 8
  hashes : List.Forall₂ (fun wire tx => tx.hash.bytes = sha256 wire) (txRawBytes raw) d.transactions

/-- The header of a block is hashed in the encoding of what its bytes decode to. -/
theorem header_of_decodeBlock {raw : List UInt8} {d : DecodedBlock}
    (h : decodeBlock p sha256 raw = .ok d) :
    ∃ r, Protocol.BlockHeader.Raw.message.decode (recursionLimit - 1 - 1) (headerRawBytes raw) =
        some r ∧
      d.header.rawDataHash = sha256 (Protocol.BlockHeader.Raw.message.encode r) ∧
      d.header.blockId = blockIdOf r.number d.header.rawDataHash := by
  obtain ⟨block, hblock, h⟩ := Decode.bind_eq_ok.1 h
  obtain ⟨hdr, r, hhdr, hkept⟩ := KeptHeader.of_decodeBlockMessage h
  refine ⟨r, decode_headerRawBytes (orProtoDecode_eq_ok.1 hblock) hhdr hkept.rawData,
    hkept.rawDataHash, ?_⟩
  rw [hkept.blockId, hkept.rawDataHash]

/-- So are its transactions. -/
theorem transactions_of_decodeBlock {raw : List UInt8} {d : DecodedBlock}
    (h : decodeBlock p sha256 raw = .ok d) :
    List.Forall₂ (fun wire tx => ∃ r,
        Protocol.Transaction.Raw.message.decode (recursionLimit - 1 - 1) wire = some r ∧
        tx.hash.bytes = sha256 (Protocol.Transaction.Raw.message.encode r))
      (txRawBytes raw) d.transactions := by
  obtain ⟨block, hblock, h⟩ := Decode.bind_eq_ok.1 h
  have hwire := decode_txRawBytes (orProtoDecode_eq_ok.1 hblock)
  have hkept := (decodeBlockMessage_accepts p sha256 block).2 d h
  refine Decode.forall₂_trans ?_ hwire hkept
  rintro wire tx dtx hr ⟨r, hkept⟩
  exact ⟨r, hr r hkept.rawData, hkept.hash⟩

/-- The digest tells a text from what it is re-encoded to. -/
def Distinguishes {α : Type} (sha256 : List UInt8 → List.Vector UInt8 32) (m : Message α)
    (wire : List UInt8) : Prop :=
  ∀ a, m.decode (recursionLimit - 1 - 1) wire = some a → sha256 (m.encode a) = sha256 wire →
    m.encode a = wire

/-- The digest of a re-encoding is that of the text when the text is canonical. -/
theorem sha256_encode_iff {α : Type} {m : Message α} {wire : List UInt8} {a : α}
    (ha : m.decode (recursionLimit - 1 - 1) wire = some a) (hlen : wire.length < 2 ^ 64)
    (hsha : Distinguishes sha256 m wire) :
    sha256 (m.encode a) = sha256 wire ↔ Canonical m wire := by
  rw [← m.encode_eq_iff ha hlen]
  exact ⟨hsha a ha, fun h => congrArg sha256 h⟩

/-- **The identifiers of an accepted block are the hashes of its bytes exactly when these
are canonical**: those of the header's raw data, and of every transaction's. The decoder
hashes what it re-encodes, so a field it does not know, or one written another way, moves
the identifier. -/
theorem wireIdentifiers_iff {raw : List UInt8} {d : DecodedBlock}
    (h : decodeBlock p sha256 raw = .ok d) (hlen : raw.length < 2 ^ 64)
    (hheader : Distinguishes sha256 Protocol.BlockHeader.Raw.message (headerRawBytes raw))
    (htx : ∀ wire ∈ txRawBytes raw, Distinguishes sha256 Protocol.Transaction.Raw.message wire) :
    WireIdentifiers sha256 raw d ↔
      Canonical Protocol.BlockHeader.Raw.message (headerRawBytes raw) ∧
        ∀ wire ∈ txRawBytes raw, Canonical Protocol.Transaction.Raw.message wire := by
  obtain ⟨r, hr, hhash, hid⟩ := header_of_decodeBlock h
  have hcanon := sha256_encode_iff hr ((length_headerRawBytes raw).trans_lt hlen) hheader
  have htxs : List.Forall₂ (fun wire tx => tx.hash.bytes = sha256 wire ↔
      Canonical Protocol.Transaction.Raw.message wire) (txRawBytes raw) d.transactions := by
    have hwire : ∀ wire ∈ txRawBytes raw, wire.length < 2 ^ 64 ∧
        Distinguishes sha256 Protocol.Transaction.Raw.message wire := fun wire hmem =>
      ⟨(length_of_mem_txRawBytes hmem).trans_lt hlen, htx wire hmem⟩
    refine ((List.forall₂_and_left ..).2 ⟨hwire, transactions_of_decodeBlock h⟩).imp ?_
    rintro wire tx ⟨⟨hlt, hsha⟩, r, hr, hhash⟩
    rw [hhash]
    exact sha256_encode_iff hr hlt hsha
  constructor
  · intro hw
    have hcanonical : List.Forall₂ (fun wire _ =>
        Canonical Protocol.Transaction.Raw.message wire ∧ True) (txRawBytes raw) d.transactions :=
      hw.hashes.mp (fun _ _ h h' => ⟨h'.1 h, trivial⟩) htxs
    refine ⟨hcanon.1 (hhash.symm.trans hw.rawDataHash), ?_⟩
    exact ((List.forall₂_and_left _ _).1 hcanonical).1
  · rintro ⟨hheader, htx⟩
    have hdigest := hhash.trans (hcanon.2 hheader)
    refine ⟨hdigest, ?_, ?_⟩
    · rw [hid, drop_blockIdOf, hdigest]
    · refine ((List.forall₂_and_left ..).2 ⟨htx, htxs⟩).imp ?_
      rintro wire tx ⟨hcanonical, hiff⟩
      exact hiff.2 hcanonical

end decoders

/-! ### A field the schema does not know -/

/-- The bytes of `bareRaw 1`. -/
def bareRawBytes : List UInt8 :=
  [0x12, 32] ++ List.replicate 32 0 ++ [0x1a, 32] ++ List.replicate 32 0 ++ [0x38, 1, 0x4a, 21] ++
    List.replicate 21 0x41

/-- A block whose header has the raw data `headerRaw`, with one transaction of the timestamp 5. -/
def blockBytes (headerRaw : List UInt8) : List UInt8 :=
  [0x0a, 4, 0x0a, 2, 0x70, 5] ++ [0x12, UInt8.ofNat (headerRaw.length + 2)] ++
    [0x0a, UInt8.ofNat headerRaw.length] ++ headerRaw

/-- The block in the encoding of the schema. -/
def plainBlock : List UInt8 := blockBytes bareRawBytes

/-- The same block with a field 12 in the raw data of its header. -/
def newFieldBlock : List UInt8 := blockBytes (bareRawBytes ++ [0x60, 1])

/-- SHA-256 on the raw data of these blocks. -/
def rawDigest : List UInt8 → List.Vector UInt8 32 :=
  digestOf
    [(bareRawBytes, bareHash),
     (bareRawBytes ++ [0x60, 1],
      ⟨[236, 137, 152, 78, 193, 243, 119, 90, 230, 210, 18, 3, 220, 99, 138, 223, 235, 109, 12,
        201, 61, 89, 219, 71, 91, 171, 209, 181, 157, 18, 242, 107], rfl⟩),
     ([0x70, 5],
      ⟨[99, 84, 6, 146, 72, 94, 153, 130, 128, 138, 58, 210, 217, 237, 163, 239, 159, 155, 107,
        69, 234, 61, 73, 30, 232, 148, 204, 63, 11, 117, 121, 233], rfl⟩)]

/-- The identifiers of the plain block are the hashes of its bytes. -/
theorem wireIdentifiers_iff_plainBlock :
    ∃ d, decodeBlock noPayloads rawDigest plainBlock = .ok d ∧
      WireIdentifiers rawDigest plainBlock d := by
  have hok : (decodeBlock noPayloads rawDigest plainBlock).isOk = true := by decide +kernel
  have hlen : plainBlock.length < 2 ^ 64 := by decide
  have hheader : Canonical Protocol.BlockHeader.Raw.message (headerRawBytes plainBlock) :=
    ⟨bareRaw 1, by decide +kernel⟩
  have hwires : txRawBytes plainBlock = [[0x70, 5]] := by decide +kernel
  have htx : ∀ wire ∈ txRawBytes plainBlock, Canonical Protocol.Transaction.Raw.message wire := by
    rw [hwires]
    intro wire hwire
    obtain rfl := List.mem_singleton.1 hwire
    exact ⟨⟨[], 0, [], 0, [], [], [], [], 5, 0⟩, by decide +kernel⟩
  cases hd : decodeBlock noPayloads rawDigest plainBlock with
  | error e =>
    rw [hd] at hok
    cases hok
  | ok d =>
    refine ⟨d, rfl, (wireIdentifiers_iff hd hlen ?_ ?_).2 ⟨hheader, htx⟩⟩
    · exact fun a ha _ => hheader.reencode _ ((length_headerRawBytes _).trans_lt hlen) ha
    · exact fun wire hmem a ha _ =>
        (htx wire hmem).reencode _ ((length_of_mem_txRawBytes hmem).trans_lt hlen) ha

/-- The block with the new field is accepted, and gets the hash and the id of the plain one,
which are not those of its bytes. -/
theorem decodeBlock_newField :
    ∃ d, decodeBlock noPayloads rawDigest newFieldBlock = .ok d ∧
      d.header.rawDataHash = rawDigest bareRawBytes ∧
      headerRawBytes newFieldBlock = bareRawBytes ++ [0x60, 1] ∧
      d.header.rawDataHash ≠ rawDigest (headerRawBytes newFieldBlock) ∧
      d.header.blockId.bytes.toList.drop 8 ≠
        (rawDigest (headerRawBytes newFieldBlock)).toList.drop 8 := by
  have hok : (decodeBlock noPayloads rawDigest newFieldBlock).toOption.map
      (fun d => (d.header.rawDataHash, d.header.blockId)) =
        some (rawDigest bareRawBytes, blockIdOf 1 (rawDigest bareRawBytes)) := by
    decide +kernel
  cases hd : decodeBlock noPayloads rawDigest newFieldBlock with
  | error e =>
    rw [hd] at hok
    cases hok
  | ok d =>
    rw [hd] at hok
    obtain ⟨hhash, hid⟩ := Prod.mk.inj (Option.some.inj hok)
    refine ⟨d, rfl, hhash, by decide +kernel, ?_, ?_⟩
    · rw [hhash]
      decide +kernel
    · rw [hid]
      decide +kernel

end Lightcycle
