/-
# The reorg engine

`ReorgEngine` of `crates/lightcycle-relayer/src/engine.rs`: the synchronous state
machine that turns decoded blocks and solidified-head readings into `New`, `Undo`,
`Irreversible`, `ForkObserved` and `ForkResolved` outputs.

`canonical` is the `VecDeque`, front (oldest) first; `canonical_ids`, a `HashSet`,
is a finite set.  The methods take the engine and return the engine they leave
behind.  A panic of the source (`expect`, an index out of range, the assertion of
`new`) is `none`: `accept` returns `some` of the engine and of its `Result`.
`Vec::with_capacity` and the clones have no counterpart.

`Call` is one call of the ingest surface and `ReorgEngine.call` what it emits: an
error of `accept` emits nothing.
-/

import Lightcycle.Codec.Block
import Lightcycle.Relayer.Cursor
import Lightcycle.Lib.Replay

namespace Lightcycle
namespace Relayer

/-- Buffered block: the engine's record of a block it accepted. -/
structure BufferedBlock where
  height : ℕ
  blockId : BlockId
  parentId : BlockId
  forkId : UInt32
  decoded : DecodedBlock
  txInfos : List DecodedTxInfo
deriving DecidableEq

/-- The unit emitted to consumers. -/
structure StreamableBlock where
  step : Step
  block : BufferedBlock
  cursor : Cursor
  finality : BlockFinality
deriving DecidableEq

/-- One ordered event emitted by the engine. -/
inductive Output where
  | new (s : StreamableBlock)
  | undo (s : StreamableBlock)
  | irreversible (s : StreamableBlock)
  | forkObserved (observedAtHeight : ℕ) (keptTip : BlockId) (orphanedTips : List BlockId)
  | forkResolved (observedAtHeight finalizedHead : ℕ) (finalizedTip : BlockId)
      (orphanedTips : List BlockId)
deriving DecidableEq

/-- What an output does to a consumer's stack of blocks. -/
def Output.event : Output → Replay.Event BufferedBlock
  | .new s => .push s.block
  | .undo s => .pop s.block
  | .irreversible s => .mark s.block
  | .forkObserved .. => .keep
  | .forkResolved .. => .keep

/-- Engine configuration. -/
structure ReorgConfig where
  bufferWindow : ℕ
  finalityDepth : ℕ
deriving DecidableEq

/-- `ReorgConfig::default`. -/
def ReorgConfig.default : ReorgConfig where
  bufferWindow := 30
  finalityDepth := 19

/-- A reorg observation awaiting resolution by the solidified head. -/
structure ForkObservation where
  observedAtHeight : ℕ
  keptTip : BlockId
  orphanedTips : List BlockId
deriving DecidableEq

/-- Why a block could not be incorporated. -/
inductive ReorgError where
  | parentNotInBuffer (height : ℕ) (parent : BlockId) (tipHeight window : ℕ)
  | reorgBelowFinality (height lastIrreversibleHeight : ℕ)
  | duplicateBlock (blockId : BlockId)
deriving DecidableEq

/-- The reorg engine. -/
structure ReorgEngine where
  canonical : List BufferedBlock
  canonicalIds : Finset BlockId
  config : ReorgConfig
  lastIrreversibleHeight : Option ℕ
  solidifiedHead : Option ℕ
  forkHistory : List ForkObservation
  nextForkId : UInt32
deriving DecidableEq

/-- `ReorgEngine::new`, `none` when the assertion on the window fails. -/
def ReorgEngine.new (config : ReorgConfig) : Option ReorgEngine :=
  if config.finalityDepth < config.bufferWindow then
    some { canonical := [], canonicalIds := ∅, config, lastIrreversibleHeight := none
           solidifiedHead := none, forkHistory := [], nextForkId := 0 }
  else none

namespace ReorgEngine

/-- `ReorgEngine::tip`. -/
def tip (e : ReorgEngine) : Option BufferedBlock := e.canonical.getLast?

/-- `ReorgEngine::len`. -/
def len (e : ReorgEngine) : ℕ := e.canonical.length

/-- `alloc_fork_id`: the counter wraps at `u32`. -/
def allocForkId (e : ReorgEngine) : ReorgEngine × UInt32 :=
  ({ e with nextForkId := e.nextForkId + 1 }, e.nextForkId)

/-- `derive_finality_for_tip`. -/
def deriveFinalityForTip (e : ReorgEngine) (height : ℕ) : BlockFinality :=
  .forBlock height e.solidifiedHead false

end ReorgEngine

/-- The `Irreversible` emission of a block at solidified head `s`. -/
def irreversibleOf (s : ℕ) (b : BufferedBlock) : Output :=
  .irreversible { step := .irreversible, block := b, cursor := ⟨b.height, b.blockId⟩
                  finality := { tier := .finalized, solidifiedHead := some s } }

/-- The `Undo` emission of an orphan. -/
def undoOf (solidifiedHead : Option ℕ) (b : BufferedBlock) : Output :=
  .undo { step := .undo, block := b, cursor := ⟨b.height, b.blockId⟩
          finality := .forBlock b.height solidifiedHead false }

/-- The `for` loop of `maybe_emit_irreversible` over the buffer, front to back:
it breaks at the first block above the solidified head, skips a block at or below
the high-water mark, and emits the others, raising the mark. -/
def irreversibleWalk (s : ℕ) : List BufferedBlock → Option ℕ → List Output × Option ℕ
  | [], prev => ([], prev)
  | b :: bs, prev =>
    if s < b.height then ([], prev)
    else if prev.any fun p => decide (b.height ≤ p) then irreversibleWalk s bs prev
    else
      let r := irreversibleWalk s bs (some b.height)
      (irreversibleOf s b :: r.1, r.2)

/-- The `while` loop of `maybe_resolve_forks`: pop the front while it was observed
at or below the solidified head. -/
def resolveLoop (s : ℕ) : List ForkObservation → List Output × List ForkObservation
  | [] => ([], [])
  | o :: os =>
    if s < o.observedAtHeight then ([], o :: os)
    else
      let r := resolveLoop s os
      (.forkResolved o.observedAtHeight s o.keptTip o.orphanedTips :: r.1, r.2)

/-- The `while` loop of `maybe_prune_buffer`: pop the front while the buffer is
longer than the window. -/
def pruneLoop (window : ℕ) : List BufferedBlock → Finset BlockId →
    List BufferedBlock × Finset BlockId
  | [], ids => ([], ids)
  | b :: bs, ids =>
    if window < (b :: bs).length then pruneLoop window bs (ids.erase b.blockId)
    else (b :: bs, ids)

namespace ReorgEngine

/-- `maybe_emit_irreversible`. -/
def maybeEmitIrreversible (e : ReorgEngine) (out : List Output) : ReorgEngine × List Output :=
  match e.solidifiedHead with
  | none => (e, out)
  | some s =>
    let r := irreversibleWalk s e.canonical e.lastIrreversibleHeight
    ({ e with lastIrreversibleHeight := r.2 }, out ++ r.1)

/-- `maybe_resolve_forks`. -/
def maybeResolveForks (e : ReorgEngine) (out : List Output) : ReorgEngine × List Output :=
  match e.solidifiedHead with
  | none => (e, out)
  | some s =>
    let r := resolveLoop s e.forkHistory
    ({ e with forkHistory := r.2 }, out ++ r.1)

/-- `maybe_prune_buffer`. -/
def maybePruneBuffer (e : ReorgEngine) : ReorgEngine :=
  let r := pruneLoop e.config.bufferWindow e.canonical e.canonicalIds
  { e with canonical := r.1, canonicalIds := r.2 }

/-- `set_solidified_head`: a head that has not advanced changes nothing. -/
def setSolidifiedHead (e : ReorgEngine) (newHead : ℕ) : ReorgEngine × List Output :=
  if e.solidifiedHead.any fun prev => decide (newHead ≤ prev) then (e, [])
  else
    let e := { e with solidifiedHead := some newHead }
    let r := e.maybeEmitIrreversible []
    r.1.maybeResolveForks r.2

/-- The block record the three ingest paths build from the decoded block. -/
def bufferedBlock (forkId : UInt32) (decoded : DecodedBlock) (txInfos : List DecodedTxInfo) :
    BufferedBlock where
  height := decoded.header.height
  blockId := decoded.header.blockId
  parentId := decoded.header.parentId
  forkId := forkId
  decoded := decoded
  txInfos := txInfos

/-- Allocate a fork id, push the block at the back and emit `New`: the steps the
three ingest paths share. -/
def pushNew (e : ReorgEngine) (decoded : DecodedBlock) (txInfos : List DecodedTxInfo)
    (out : List Output) : ReorgEngine × List Output :=
  let r := e.allocForkId
  let buffered := bufferedBlock r.2 decoded txInfos
  ({ r.1 with canonical := e.canonical ++ [buffered]
              canonicalIds := insert buffered.blockId e.canonicalIds },
    out ++ [.new { step := .new, block := buffered, cursor := ⟨buffered.height, buffered.blockId⟩
                   finality := e.deriveFinalityForTip buffered.height }])

/-- The end of the three ingest paths: finality, fork ledger, pruning. -/
def settle (e : ReorgEngine) (out : List Output) : ReorgEngine × List Output :=
  let r := e.maybeEmitIrreversible out
  let r := r.1.maybeResolveForks r.2
  (r.1.maybePruneBuffer, r.2)

/-- `push_canonical_first`. -/
def pushCanonicalFirst (e : ReorgEngine) (decoded : DecodedBlock) (txInfos : List DecodedTxInfo) :
    ReorgEngine × List Output :=
  let r := e.pushNew decoded txInfos []
  r.1.settle r.2

/-- `extend_canonical`. -/
def extendCanonical (e : ReorgEngine) (decoded : DecodedBlock) (txInfos : List DecodedTxInfo) :
    ReorgEngine × List Output :=
  let r := e.pushNew decoded txInfos []
  r.1.settle r.2

end ReorgEngine

/-- `Iterator::rposition`: the index of the last element that satisfies `p`. -/
def rposition {α : Type*} (p : α → Bool) : List α → Option ℕ
  | [] => none
  | a :: l =>
    match rposition p l with
    | some i => some (i + 1)
    | none => if p a then some 0 else none

/-- The loop of `handle_reorg` that drops the orphans: `n` times `pop_back`, which
panics on an empty buffer. -/
def popBackLoop : ℕ → List BufferedBlock → Finset BlockId →
    Option (List BufferedBlock × Finset BlockId)
  | 0, bs, ids => some (bs, ids)
  | n + 1, bs, ids =>
    match bs.getLast? with
    | none => none
    | some dropped => popBackLoop n bs.dropLast (ids.erase dropped.blockId)

namespace ReorgEngine

/-- The finality guard of `handle_reorg`: the high-water mark when the reorg would
orphan a block at or below it.  The index `ancestor_idx + 1` panics out of range,
and is only read once something is irreversible. -/
def finalityGuard (e : ReorgEngine) (ancestorIdx : ℕ) : Option (Option ℕ) :=
  match e.lastIrreversibleHeight with
  | none => some none
  | some li =>
    match e.canonical[ancestorIdx + 1]? with
    | none => none
    | some earliest => some (if earliest.height ≤ li then some li else none)

/-- `handle_reorg`. -/
def handleReorg (e : ReorgEngine) (decoded : DecodedBlock) (txInfos : List DecodedTxInfo) :
    Option (ReorgEngine × Except ReorgError (List Output)) :=
  match rposition (fun b => decide (b.blockId = decoded.header.parentId)) e.canonical with
  | none => none
  | some ancestorIdx =>
    let undoCount := e.canonical.length - 1 - ancestorIdx
    if undoCount = 0 then
      let r := e.extendCanonical decoded txInfos
      some (r.1, .ok r.2)
    else
      match e.finalityGuard ancestorIdx with
      | none => none
      | some (some li) => some (e, .error (.reorgBelowFinality decoded.header.height li))
      | some none =>
        -- the orphans, tip first: indices `ancestor_idx + 1 .. len` in reverse
        let orphans := (e.canonical.drop (ancestorIdx + 1)).reverse
        let out := orphans.map (undoOf e.solidifiedHead)
        let orphanedTips := orphans.map (·.blockId)
        match popBackLoop undoCount e.canonical e.canonicalIds with
        | none => none
        | some (canonical, canonicalIds) =>
          let r := { e with canonical, canonicalIds }.pushNew decoded txInfos out
          let observation : ForkObservation :=
            { observedAtHeight := decoded.header.height, keptTip := decoded.header.blockId
              orphanedTips }
          let out := r.2 ++ [.forkObserved decoded.header.height decoded.header.blockId orphanedTips]
          let r := { r.1 with forkHistory := r.1.forkHistory ++ [observation] }.settle out
          some (r.1, .ok r.2)

/-- `accept`, the ingest entry point. -/
def accept (e : ReorgEngine) (decoded : DecodedBlock) (txInfos : List DecodedTxInfo) :
    Option (ReorgEngine × Except ReorgError (List Output)) :=
  if decoded.header.blockId ∈ e.canonicalIds then
    some (e, .error (.duplicateBlock decoded.header.blockId))
  else if e.canonical.isEmpty then
    let r := e.pushCanonicalFirst decoded txInfos
    some (r.1, .ok r.2)
  else
    match e.canonical.getLast? with
    | none => none
    | some tip =>
      if decoded.header.parentId = tip.blockId then
        let r := e.extendCanonical decoded txInfos
        some (r.1, .ok r.2)
      else if decoded.header.parentId ∈ e.canonicalIds then
        e.handleReorg decoded txInfos
      else
        some (e, .error (.parentNotInBuffer decoded.header.height decoded.header.parentId
          tip.height e.config.bufferWindow))

end ReorgEngine

/-- One call of the engine's ingest surface. -/
inductive Call where
  | accept (decoded : DecodedBlock) (txInfos : List DecodedTxInfo)
  | setSolidifiedHead (newHead : ℕ)
deriving DecidableEq

/-- The outputs of a `Result`: an error emits nothing. -/
def emitted : Except ReorgError (List Output) → List Output
  | .ok out => out
  | .error _ => []

/-- One call and what it emits; `none` is a panic. -/
def ReorgEngine.call (e : ReorgEngine) : Call → Option (ReorgEngine × List Output)
  | .accept decoded txInfos => (e.accept decoded txInfos).map fun r => (r.1, emitted r.2)
  | .setSolidifiedHead newHead => some (e.setSolidifiedHead newHead)

/-- `id` of the engine's tests: the height, then a tag. -/
def synthId (height : ℕ) (tag : UInt8) : BlockId :=
  ⟨⟨toBeBytes height ++ List.replicate 24 tag, by
    rw [List.length_append, length_toBeBytes, List.length_replicate]⟩⟩

/-- The test block `tag` at a height, child of the block `parentTag` one below. -/
def synthAt (height : UInt64) (tag parentTag : UInt8) : DecodedBlock :=
  synthBlock height.toNat (synthId height.toNat tag) (synthId (height.toNat - 1) parentTag)
    height.toNat_lt

end Relayer
end Lightcycle
