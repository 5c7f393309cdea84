/-
# The `Stream.Blocks` handler

`crates/lightcycle-firehose/src/server.rs`.  The handler validates the request,
subscribes to the live broadcast, reads the solidified-head watch, snapshots the
cache window, walks the archive below the window and the cache above it, and
chains what it walked with the live stream, from which it drops every height at or
below the last one it walked.  Each read of shared state is a function of its own
here, so that other tasks can run between two of them (`Lightcycle.Firehose.Session`);
`backfill` is all of them on one state.

A Rust `String` is its UTF-8 bytes where the code reads it as bytes: a cursor, an id.
`hex` is the crate of that name.  Metrics and log lines have no counterpart.
-/

import Lightcycle.Firehose.Encode
import Lightcycle.Store.Archive
import Lightcycle.Store.Cache

namespace Lightcycle
namespace Firehose

open Relayer Store

/-! ### Hexadecimal text -/

/-- The digit of a number below 16, in lower case. -/
def hexDigit (n : ℕ) : UInt8 := if n < 10 then UInt8.ofNat (48 + n) else UInt8.ofNat (87 + n)

/-- `hex::encode`. -/
def hexEncode (bytes : List UInt8) : List UInt8 :=
  bytes.flatMap fun b => [hexDigit (b.toNat / 16), hexDigit (b.toNat % 16)]

/-- `hex::FromHexError`. -/
inductive FromHexError where
  | invalidHexCharacter (c : UInt8) (index : ℕ)
  | oddLength
deriving DecidableEq

/-- The value of a digit, in either case. -/
def hexValue (c : UInt8) (index : ℕ) : Except FromHexError ℕ :=
  if 65 ≤ c ∧ c ≤ 70 then .ok (c.toNat - 55)
  else if 97 ≤ c ∧ c ≤ 102 then .ok (c.toNat - 87)
  else if 48 ≤ c ∧ c ≤ 57 then .ok (c.toNat - 48)
  else .error (.invalidHexCharacter c index)

/-- The pairs of digits of `hex::decode`, `index` digits in. -/
def hexPairs (index : ℕ) : List UInt8 → Except FromHexError (List UInt8)
  | hi :: lo :: rest =>
    match hexValue hi index with
    | .error e => .error e
    | .ok h =>
      match hexValue lo (index + 1) with
      | .error e => .error e
      | .ok l => (hexPairs (index + 2) rest).map (UInt8.ofNat (16 * h + l) :: ·)
  | _ => .ok []

/-- `hex::decode`. -/
def hexDecode (text : List UInt8) : Except FromHexError (List UInt8) :=
  if text.length % 2 ≠ 0 then .error .oddLength else hexPairs 0 text

/-- The `Debug` text of a character, here of one that starts a UTF-8 sequence. -/
def charDebug (c : UInt8) : String :=
  let text :=
    if c = 0 then "\\0" else if c = 9 then "\\t" else if c = 10 then "\\n"
    else if c = 13 then "\\r" else if c = 39 then "\\'" else if c = 92 then "\\\\"
    else if c < 32 ∨ c = 127 then "\\u\x7b" ++ String.ofList (Nat.toDigits 16 c.toNat) ++ "\x7d"
    else String.singleton (Char.ofNat c.toNat)
  "'" ++ text ++ "'"

/-- The `Display` text of the error. -/
def FromHexError.display : FromHexError → String
  | .invalidHexCharacter c index =>
    "Invalid character " ++ charDebug c ++ " at position " ++ toString index
  | .oddLength => "Odd number of digits"

/-- A digit has its value. -/
theorem hexValue_hexDigit {n : ℕ} (h : n < 16) (index : ℕ) : hexValue (hexDigit n) index = .ok n := by
  interval_cases n <;> rfl

/-- Hex text is read back byte by byte. -/
theorem hexPairs_hexEncode (bytes : List UInt8) (index : ℕ) :
    hexPairs index (hexEncode bytes) = .ok bytes := by
  induction bytes generalizing index with
  | nil => rfl
  | cons b bytes ih =>
    have hb : b.toNat < 256 := b.toNat_lt
    have hcons : hexEncode (b :: bytes) =
        hexDigit (b.toNat / 16) :: hexDigit (b.toNat % 16) :: hexEncode bytes := rfl
    rw [hcons, hexPairs]
    simp only [hexValue_hexDigit (show b.toNat / 16 < 16 by omega),
      hexValue_hexDigit (show b.toNat % 16 < 16 by omega), ih,
      show 16 * (b.toNat / 16) + b.toNat % 16 = b.toNat by omega, UInt8.ofNat_toNat]
    rfl

/-- It has two digits for each byte. -/
theorem length_hexEncode (bytes : List UInt8) : (hexEncode bytes).length = 2 * bytes.length := by
  induction bytes with
  | nil => rfl
  | cons b bytes ih =>
    have hcons : hexEncode (b :: bytes) =
        hexDigit (b.toNat / 16) :: hexDigit (b.toNat % 16) :: hexEncode bytes := rfl
    rw [hcons, List.length_cons, List.length_cons, List.length_cons, ih]
    omega

/-- **Hexadecimal text is read back.** -/
theorem hexDecode_hexEncode (bytes : List UInt8) : hexDecode (hexEncode bytes) = .ok bytes := by
  have heven : ¬ (hexEncode bytes).length % 2 ≠ 0 := by
    rw [length_hexEncode]
    omega
  rw [hexDecode, if_neg heven, hexPairs_hexEncode]

/-- Bytes with the same hex text are the same. -/
theorem hexEncode_injective : Function.Injective hexEncode := by
  intro a b h
  have ha := hexDecode_hexEncode a
  rw [h, hexDecode_hexEncode] at ha
  exact (Except.ok.inj ha).symm

/-- The hexadecimal text of a block id. -/
def BlockId.hex (id : BlockId) : List UInt8 := hexEncode id.bytes.toList

/-- So are ids. -/
theorem blockId_hex_injective : Function.Injective BlockId.hex := by
  rintro ⟨a⟩ ⟨b⟩ h
  exact congrArg BlockId.mk (Subtype.ext (hexEncode_injective h))

/-! ### Requests and responses -/

/-- `ForkStep`, without `STEP_UNSET`. -/
inductive ForkStep where
  | stepNew
  | stepUndo
  | stepFinal
deriving DecidableEq

structure BlockMetadata where
  num : ℕ
  id : List UInt8
  parentNum : ℕ
  parentId : List UInt8
  libNum : ℕ
  time : Option Pb.Timestamp
deriving DecidableEq

/-- `google.protobuf.Any`. -/
structure Any where
  typeUrl : String
  value : List UInt8
deriving DecidableEq

structure Response where
  block : Option Any
  step : ForkStep
  cursor : List UInt8
  metadata : Option BlockMetadata
deriving DecidableEq

structure Request where
  startBlockNum : ℤ
  cursor : List UInt8
  stopBlockNum : ℕ
  finalBlocksOnly : Bool
  transforms : List Any
deriving DecidableEq

/-- The gRPC codes the handlers answer with. -/
inductive Code where
  | invalidArgument
  | failedPrecondition
  | resourceExhausted
  | notFound
  | internal
deriving DecidableEq

/-- `tonic::Status`. -/
structure Status where
  code : Code
  message : String
deriving DecidableEq

/-- `Status::invalid_argument`. -/
def Status.invalidArgument (message : String) : Status := ⟨.invalidArgument, message⟩

/-- `Status::failed_precondition`. -/
def Status.failedPrecondition (message : String) : Status := ⟨.failedPrecondition, message⟩

/-- The start height: a cursor takes precedence, and resumes at the next height. -/
def startHeight (req : Request) : Except Status (Option ℕ) :=
  if req.cursor ≠ [] then
    match hexDecode req.cursor with
    | .error e => .error (.invalidArgument ("cursor is not valid hex: " ++ e.display))
    | .ok bytes =>
      match Cursor.fromBytes bytes with
      | none => .error (.invalidArgument "cursor decode failed: expected 40-byte cursor blob")
      | some cur => .ok (some (saturatingAdd cur.height 1))
  else if 0 < req.startBlockNum then .ok (some req.startBlockNum.toNat)
  else if req.startBlockNum < 0 then
    .error (.failedPrecondition ("negative start_block_num (head-relative offset) not implemented " ++
      "in v0.1; pass an absolute height"))
  else .ok none

/-- The checks of the request, the start height first. -/
def validate (req : Request) : Except Status (Option ℕ) :=
  match startHeight req with
  | .error e => .error e
  | .ok start =>
    if req.stopBlockNum ≠ 0 then
      .error (.failedPrecondition "stop_block_num not implemented in v0.1; stream is unbounded")
    else if req.finalBlocksOnly then
      .error (.failedPrecondition "final_blocks_only not implemented in v0.1")
    else if req.transforms ≠ [] then
      .error (.failedPrecondition "transforms not implemented in v0.1")
    else .ok start

/-! ### Blocks as responses -/

variable (prost : Prost)

/-- `timestamp_from_ms` of `server.rs`, which the encoder has a copy of. -/
def Server.timestampFromMs (ms : ℤ) : Pb.Timestamp := ⟨ms.tdiv 1000, ms.tmod 1000 * 1000000⟩

/-- `streamable_to_response`. -/
def streamableToResponse (sb : StreamableBlock) (step : ForkStep) : Response where
  block := some ⟨blockTypeUrl, prost.encodeToVec (encodeBlock sb.block sb.finality)⟩
  step := step
  cursor := hexEncode sb.cursor.toBytes
  metadata := some
    { num := sb.block.height
      id := BlockId.hex sb.block.blockId
      parentNum := sb.block.height - 1
      parentId := BlockId.hex sb.block.parentId
      libNum := sb.finality.solidifiedHead.getD 0
      time := some (Server.timestampFromMs sb.block.decoded.header.timestampMs) }

/-- `output_to_response`, which repeats the projection of `streamable_to_response`; the ledger
entries have no wire shape. -/
def outputToResponse (output : Output) : Option Response :=
  let item : Option (ForkStep × StreamableBlock) :=
    match output with
    | .new s => some (.stepNew, s)
    | .undo s => some (.stepUndo, s)
    | .irreversible s => some (.stepFinal, s)
    | .forkObserved .. => none
    | .forkResolved .. => none
  match item with
  | none => none
  | some (step, sb) =>
    let metadata : BlockMetadata :=
      { num := sb.block.height
        id := BlockId.hex sb.block.blockId
        parentNum := sb.block.height - 1
        parentId := BlockId.hex sb.block.parentId
        libNum := sb.finality.solidifiedHead.getD 0
        time := some (Server.timestampFromMs sb.block.decoded.header.timestampMs) }
    let blockAny : Any := ⟨blockTypeUrl, prost.encodeToVec (encodeBlock sb.block sb.finality)⟩
    some { block := some blockAny, step := step, cursor := hexEncode sb.cursor.toBytes
           metadata := some metadata }

/-- The response of a cached block, under the head read before the walk. -/
def cachedResponse (head : Option ℕ) (b : BufferedBlock) : Response :=
  streamableToResponse prost
    { step := .new, block := b, cursor := ⟨b.height, b.blockId⟩
      finality := .forBlock b.height head false } .stepNew

/-- `ARCHIVE_WALK_LIMIT`. -/
def archiveWalkLimit : ℕ := 5000

/-- `[0u8; 32]` unless the bytes are 32. -/
def bytes32 (bytes : List UInt8) : List UInt8 :=
  if bytes.length = 32 then bytes else List.replicate 32 0

/-- One archived row as a response, `none` when its payload does not decode. -/
def archivedResponse (row : ArchiveRow) : Option Response :=
  (prost.decode row.2.2).map fun pb =>
    { block := some ⟨blockTypeUrl, row.2.2⟩
      step := .stepNew
      cursor := hexEncode (Cursor.toBytes ⟨row.1, row.2.1⟩)
      metadata := some
        { num := row.1
          id := BlockId.hex row.2.1
          parentNum := row.1 - 1
          parentId := hexEncode (bytes32 pb.parentId)
          libNum := (pb.finality.map (·.solidifiedHeadNumber)).getD 0
          time := pb.time } }

/-- `archive_walk`: rows whose payload does not decode are skipped. -/
def archiveWalk (archive : BlockArchive) (lo hi : ℕ) : Except ArchiveError (List Response) :=
  (archive.range lo hi archiveWalkLimit).map fun rows => rows.filterMap (archivedResponse prost)

/-! ### The backfill -/

/-- The snapshot of the cache range. -/
def cacheWindow (cache : BlockCache BufferedBlock) : Option (ℕ × ℕ) :=
  match cache.minHeight, cache.maxHeight with
  | some mn, some mx => some (mn, mx)
  | _, _ => none

/-- Up to which height stage 1 walks the archive, `none` when it does not. -/
def archiveSpan (archive : Option BlockArchive) (window : Option (ℕ × ℕ)) (h : ℕ) : Option ℕ :=
  match archive, window with
  | some _, some (minH, _) => if h < minH then some (minH - 1) else none
  | some arc, none =>
    match arc.maxHeight with
    | some top => if h ≤ top then some top else none
    | none => none
  | none, _ => none

/-- Stage 1: the archive. -/
def archiveRows (archive : Option BlockArchive) (h : ℕ) (span : Option ℕ) :
    Except Status (List Response) :=
  match archive, span with
  | some arc, some hi =>
    match archiveWalk prost arc h hi with
    | .ok rows => .ok rows
    | .error e =>
      .error (.failedPrecondition
        (s!"archive walk failed for [{h}, {hi}]: " ++ e.display))
  | _, _ => .ok []

/-- Where the cache walk starts: after the last archive row, or at the start height. -/
def cacheWalkFrom (h : ℕ) (rows : List Response) : ℕ :=
  ((rows.getLast?.bind (·.metadata)).map fun m => saturatingAdd m.num 1).getD h

/-- The loop of the cache walk over `n` heights from `height`. -/
def walkLoop (cache : BlockCache BufferedBlock) : ℕ → ℕ → List BufferedBlock →
    Except Status (List BufferedBlock)
  | 0, _, rows => .ok rows
  | n + 1, height, rows =>
    match cache.getByHeight height with
    | some (_, buffered) => walkLoop cache n (height + 1) (rows ++ [buffered])
    | none =>
      .error (.failedPrecondition
        (s!"block at height {height} evicted from cache mid-walk; retry with the same " ++
          "start_block_num"))

/-- Stage 2: the cache, from the end of stage 1 to the tip of the snapshot. -/
def cacheRows (cache : BlockCache BufferedBlock) (hasArchive : Bool) (window : Option (ℕ × ℕ))
    (h : ℕ) (archived : List Response) : Except Status (List BufferedBlock) :=
  match window with
  | some (minH, maxH) =>
    if cacheWalkFrom h archived < minH then
      .error (.failedPrecondition (s!"start height {h} is below archive+cache coverage " ++
        s!"[archive=?, cache_min={minH}, cache_max={maxH}]"))
    else if saturatingAdd maxH 1 < cacheWalkFrom h archived then
      .error (.failedPrecondition (s!"start height {h} is ahead of cache tip {maxH}; " ++
        "remove start_block_num or wait for the chain to advance"))
    else walkLoop cache (maxH + 1 - cacheWalkFrom h archived) (cacheWalkFrom h archived) []
  | none =>
    if archived = [] ∧ hasArchive then
      .error (.failedPrecondition ("block cache is empty and archive does not cover this request; " ++
        "reconnect after the relayer warms up"))
    else if archived = [] then
      .error (.failedPrecondition "block cache is empty; cannot serve backfill yet")
    else .ok []

/-- What the handler materializes before the live stream. -/
def backfillOf (head : Option ℕ) (archived : List Response) (cached : List BufferedBlock) :
    List Response :=
  archived ++ cached.map (cachedResponse prost head)

/-- The backfill when no other task runs during the call. -/
def backfill (archive : Option BlockArchive) (cache : BlockCache BufferedBlock)
    (head : Option ℕ) (h : ℕ) : Except Status (List Response) :=
  match archiveRows prost archive h (archiveSpan archive (cacheWindow cache) h) with
  | .error e => .error e
  | .ok archived =>
    (cacheRows cache archive.isSome (cacheWindow cache) h archived).map
      (backfillOf prost head archived)

/-! ### The live stream -/

/-- `last_backfill_height`. -/
def lastBackfillHeight (backfill : List Response) : Option ℕ :=
  (backfill.getLast?.bind (·.metadata)).map (·.num)

/-- The live filter on one item of the broadcast stream, an output or a lag. -/
def liveItem (last : Option ℕ) : Except ℕ Output → Option (Except Status Response)
  | .ok output =>
    (outputToResponse prost output).bind fun response =>
      match last, response.metadata with
      | some b, some m => if m.num ≤ b then none else some (.ok response)
      | _, _ => some (.ok response)
  | .error skipped =>
    some (.error ⟨.resourceExhausted, s!"subscriber lagged the firehose hub by {skipped} messages; " ++
      "reconnect with last cursor"⟩)

end Firehose
end Lightcycle
