/-
# The `Fetch.Block` handler

`FetchService::block` of `crates/lightcycle-firehose/src/server.rs`.  The handler takes a
height from the request, looks the height up in the archive, and goes on to the oracle on
a miss or a read error.  What the oracle answers is projected to the wire a fifth time
(`oracleResponse`).  The oracle reads through the cache, so a call may write to it:
`FetchService.serve` is the same handler with the cache it leaves behind.
-/

import Lightcycle.Firehose.Archived
import Lightcycle.Firehose.Oracle

namespace Lightcycle
namespace Firehose

open Relayer Store

/-- The `reference` of a request. -/
inductive Reference where
  | blockNumber (num : ℕ)
  | blockHashAndNumber (num : ℕ) (hash : String)
  | cursor (cursor : String)
deriving DecidableEq

structure SingleBlockRequest where
  reference : Option Reference
  transforms : List Any
deriving DecidableEq

/-- The height a request asks for. -/
def fetchHeight (req : SingleBlockRequest) : Except Status ℕ :=
  if req.transforms ≠ [] then
    .error (.failedPrecondition "transforms not implemented in v0.1")
  else
    match req.reference with
    | some (.blockNumber num) => .ok num
    | some (.blockHashAndNumber _ _) =>
      .error (.failedPrecondition
        "block_hash_and_number not implemented in v0.1; use block_number")
    | some (.cursor _) =>
      .error (.failedPrecondition "cursor reference not implemented in v0.1; use block_number")
    | none =>
      .error (.invalidArgument ("no reference provided; one of block_number / " ++
        "block_hash_and_number / cursor required"))

variable (prost : Prost)

/-- The response to what the oracle found. -/
def oracleResponse (buffered : BufferedBlock) (finality : BlockFinality) : SingleBlockResponse where
  block := some ⟨blockTypeUrl, prost.encodeToVec (encodeBlock buffered finality)⟩
  metadata := some
    { num := buffered.height
      id := BlockId.hex buffered.blockId
      parentNum := buffered.height - 1
      parentId := BlockId.hex buffered.parentId
      libNum := finality.solidifiedHead.getD 0
      time := some (Server.timestampFromMs buffered.decoded.header.timestampMs) }

/-- `FetchService::block`, over what the oracle answers at a height. -/
def FetchService.block (archive : Option BlockArchive)
    (oracle : ℕ → Except String (Option (BufferedBlock × BlockFinality)))
    (req : SingleBlockRequest) : Except Status SingleBlockResponse :=
  match fetchHeight req with
  | .error status => .error status
  | .ok height =>
    match archive.bind fun a => fetchArchived prost a height with
    | some response => .ok response
    | none =>
      match oracle height with
      | .ok (some (buffered, finality)) => .ok (oracleResponse prost buffered finality)
      | .ok none => .error ⟨.notFound, s!"block {height} not available upstream"⟩
      | .error e => .error ⟨.internal, "oracle error: " ++ e⟩

variable {prost}

/-- `FetchService::block` over the caching oracle, when no other task runs during the call:
the cache after it, and the response.  What the archive answers never reaches the oracle. -/
def FetchService.serve (prost : Prost) (archive : Option BlockArchive)
    (inner : ℕ → Except String (Option (BufferedBlock × BlockFinality)))
    (cache : BlockCache BufferedBlock) (head : Option ℕ) (req : SingleBlockRequest) :
    BlockCache BufferedBlock × Except Status SingleBlockResponse :=
  match fetchHeight req with
  | .error status => (cache, .error status)
  | .ok height =>
    match archive.bind fun a => fetchArchived prost a height with
    | some response => (cache, .ok response)
    | none =>
      let r := fetchBlockByNumber inner cache head height
      match r.2 with
      | .ok (some (buffered, finality)) => (r.1, .ok (oracleResponse prost buffered finality))
      | .ok none => (r.1, .error ⟨.notFound, s!"block {height} not available upstream"⟩)
      | .error e => (r.1, .error ⟨.internal, "oracle error: " ++ e⟩)

/-- Its response is that of the handler over the answers of the caching oracle. -/
theorem FetchService.serve_snd (archive : Option BlockArchive)
    (inner : ℕ → Except String (Option (BufferedBlock × BlockFinality)))
    (cache : BlockCache BufferedBlock) (head : Option ℕ) (req : SingleBlockRequest) :
    (FetchService.serve prost archive inner cache head req).2 =
      FetchService.block prost archive (fun height => (fetchBlockByNumber inner cache head height).2)
        req := by
  unfold FetchService.serve FetchService.block
  cases fetchHeight req with
  | error status => rfl
  | ok height =>
    simp only
    cases archive.bind fun a => fetchArchived prost a height with
    | some response => rfl
    | none =>
      simp only
      match (fetchBlockByNumber inner cache head height).2 with
      | .ok (some _) | .ok none | .error _ => rfl

/-- The cache after a call for a height: as it was when the archive answers, and else as
the oracle leaves it. -/
theorem FetchService.serve_fst {archive : Option BlockArchive}
    {inner : ℕ → Except String (Option (BufferedBlock × BlockFinality))}
    {cache : BlockCache BufferedBlock} {head : Option ℕ} {req : SingleBlockRequest} {height : ℕ}
    (hreq : fetchHeight req = .ok height) :
    (FetchService.serve prost archive inner cache head req).1 =
      if (archive.bind fun a => fetchArchived prost a height).isSome then cache
      else (fetchBlockByNumber inner cache head height).1 := by
  unfold FetchService.serve
  simp only [hreq]
  cases archive.bind fun a => fetchArchived prost a height with
  | some response => rfl
  | none =>
    simp only [Option.isSome_none, Bool.false_eq_true, if_false]
    match (fetchBlockByNumber inner cache head height).2 with
    | .ok (some _) | .ok none | .error _ => rfl

/-- The archive answers a height exactly when it reads a row there. -/
theorem isSome_fetchArchived {archive : Option BlockArchive} {height : ℕ} :
    (archive.bind fun a => fetchArchived prost a height).isSome = true ↔
      ∃ a ∈ archive, ∃ row, a.get height = .ok (some row) := by
  cases archive with
  | none => simp
  | some a =>
    rw [Option.bind_some, fetchArchived]
    cases h : a.get height with
    | error e => simp [h]
    | ok row =>
      cases row with
      | none => simp [h]
      | some row =>
        obtain ⟨id, payload⟩ := row
        simp [h]

/-- A block is served from the archive, or it is what the oracle answered. -/
theorem FetchService.block_eq_ok {archive : Option BlockArchive}
    {oracle : ℕ → Except String (Option (BufferedBlock × BlockFinality))}
    {req : SingleBlockRequest} {r : SingleBlockResponse}
    (h : FetchService.block prost archive oracle req = .ok r) :
    (∃ a height, archive = some a ∧ fetchArchived prost a height = some r) ∨
      ∃ height buffered finality, oracle height = .ok (some (buffered, finality)) ∧
        r = oracleResponse prost buffered finality := by
  unfold FetchService.block at h
  cases hheight : fetchHeight req with
  | error status =>
    rw [hheight] at h
    cases h
  | ok height =>
    rw [hheight] at h
    cases harchive : archive.bind fun a => fetchArchived prost a height with
    | some response =>
      simp only [harchive] at h
      obtain rfl := Except.ok.inj h
      obtain ⟨a, ha, hr⟩ := Option.bind_eq_some_iff.1 harchive
      exact .inl ⟨a, height, ha, hr⟩
    | none =>
      simp only [harchive] at h
      match horacle : oracle height with
      | .ok (some (buffered, finality)) =>
        rw [horacle] at h
        exact .inr ⟨height, buffered, finality, horacle, (Except.ok.inj h).symm⟩
      | .ok none =>
        rw [horacle] at h
        cases h
      | .error e =>
        rw [horacle] at h
        cases h

end Firehose
end Lightcycle
