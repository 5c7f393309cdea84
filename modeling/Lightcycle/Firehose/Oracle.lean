/-
# The read-through oracle of `Fetch.Block`

`CachingBlockOracle` of `crates/lightcycle-firehose/src/oracle.rs` over the
`GrpcBlockOracle` of `crates/lightcycle-cli/src/main.rs`, on the cache the relayer
feeds.  A call probes the cache under the read lock; on a miss it asks the upstream and
then inserts the answer under the write lock.  The lock is free in between, so a call is
three steps here, and the relayer, other calls and the upstream move in any order between
them.

The cache holds no orphan when every entry at a height of the consumer's stack is the
stack's block.  The relayer and the oracle write with the same `insert`, and a write keeps
this exactly when the stack has no other block at that height or the new entry is evicted
at once (`noOrphan_iff_every`).  The relayer's own writes always do, on a chain
(`sanctioned_feed`); an answer that a reorg overtook does not.
-/

import Lightcycle.Firehose.Session

namespace Lightcycle
namespace Firehose

open Relayer Store

/-! ### One call -/

/-- What `GrpcBlockOracle::fetch_block_by_number` builds from the upstream's block and the
solidified head it reads after it. -/
def grpcAnswer (solidifiedHead : Option ℕ) (decoded : DecodedBlock) :
    BufferedBlock × BlockFinality :=
  ({ height := decoded.header.height
     blockId := decoded.header.blockId
     parentId := decoded.header.parentId
     forkId := 0
     decoded
     txInfos := [] },
    .forBlock decoded.header.height solidifiedHead false)

/-- The probe: a hit answers at once, with the finality of the watched head. -/
def probe (cache : BlockCache BufferedBlock) (head : Option ℕ) (height : ℕ) :
    Option (BufferedBlock × BlockFinality) :=
  (cache.getByHeight height).map fun x => (x.2, .forBlock height head false)

/-- The write after a miss: what the inner oracle found goes into the cache. -/
def populate (cache : BlockCache BufferedBlock) :
    Option (BufferedBlock × BlockFinality) → BlockCache BufferedBlock
  | some (buffered, _) => (cache.insert buffered.height buffered.blockId buffered).1
  | none => cache

/-- `CachingBlockOracle::fetch_block_by_number` when no other task runs during the call: the
cache after it and the answer. -/
def fetchBlockByNumber {ε : Type*}
    (inner : ℕ → Except ε (Option (BufferedBlock × BlockFinality)))
    (cache : BlockCache BufferedBlock) (head : Option ℕ) (height : ℕ) :
    BlockCache BufferedBlock × Except ε (Option (BufferedBlock × BlockFinality)) :=
  match probe cache head height with
  | some answer => (cache, .ok (some answer))
  | none =>
    match inner height with
    | .error e => (cache, .error e)
    | .ok answer => (populate cache answer, .ok answer)

/-! ### Calls among the other tasks -/

/-- A call under way: it missed the cache and asked, or it has its answer. -/
inductive Fetch where
  | asked (height : ℕ)
  | answered (answer : Option (BufferedBlock × BlockFinality))

/-- The pipeline, the upstream's canonical chain by height, and the calls under way. -/
structure Shared where
  pipeline : Pipeline
  upstream : ℕ → Option DecodedBlock
  calls : List Fetch

/-- A step of another task, of the upstream, or of a call. -/
inductive Move where
  | task (t : Task)
  /-- The upstream's canonical chain changes. -/
  | reorganize (upstream : ℕ → Option DecodedBlock)
  /-- A call for a height probes the cache. -/
  | fetch (height : ℕ)
  /-- The upstream answers call `i`, and the solidified head is read. -/
  | answer (i : ℕ) (solidifiedHead : Option ℕ)
  /-- The upstream fails call `i`. -/
  | fail (i : ℕ)
  /-- Call `i` writes its answer to the cache and returns. -/
  | populate (i : ℕ)

namespace Shared

/-- One step, `none` when it cannot be taken. -/
def step (s : Shared) : Move → Option Shared
  | .task t => (s.pipeline.step t).map fun p => { s with pipeline := p }
  | .reorganize upstream => some { s with upstream }
  | .fetch height =>
    match probe s.pipeline.cache s.pipeline.head height with
    | some _ => some s
    | none => some { s with calls := s.calls ++ [.asked height] }
  | .answer i solidifiedHead =>
    match s.calls[i]? with
    | some (.asked height) =>
      some { s with
        calls := s.calls.set i (.answered ((s.upstream height).map (grpcAnswer solidifiedHead))) }
    | _ => none
  | .fail i =>
    match s.calls[i]? with
    | some (.asked _) => some { s with calls := s.calls.eraseIdx i }
    | _ => none
  | .populate i =>
    match s.calls[i]? with
    | some (.answered answer) =>
      some { s with
        pipeline := { s.pipeline with cache := Firehose.populate s.pipeline.cache answer }
        calls := s.calls.eraseIdx i }
    | _ => none

/-- A fresh relayer and no call. -/
def init (config : ReorgConfig) (capacity : ℕ) (archive : Option BlockArchive)
    (upstream : ℕ → Option DecodedBlock) : Option Shared :=
  (Pipeline.new config capacity archive).map fun p => ⟨p, upstream, []⟩

end Shared

/-! ### Orphans -/

/-- At every height of a block of the stack the cache entry, if there is one, has that
block's id. -/
def Agrees (c : BlockCache BufferedBlock) (st : List BufferedBlock) : Prop :=
  ∀ t ∈ st, ∀ id v, c.getByHeight t.height = some (id, v) → id = t.blockId

/-- Writing the block keeps the cache and the stack in agreement: the stack has no other
block at its height, or the entry is evicted at once. -/
def Allows (c : BlockCache BufferedBlock) (st : List BufferedBlock) (b : BufferedBlock) : Prop :=
  (∀ t ∈ st, t.height = b.height → t.blockId = b.blockId) ∨ c.Evicts b.height b.blockId

section Agreement

variable {c c' : BlockCache BufferedBlock} {st st' : List BufferedBlock} {b : BufferedBlock}

/-- Fewer entries and fewer blocks. -/
theorem Agrees.mono (h : Agrees c st)
    (hc : ∀ x ∈ c'.byHeight.entries, x ∈ c.byHeight.entries) (hst : ∀ t ∈ st', t ∈ st) :
    Agrees c' st' := by
  intro t ht id v hget
  exact h t (hst t ht) id v
    (SortedMap.get?_eq_some.2 (hc _ (SortedMap.get?_eq_some.1 hget)))

/-- **When a write keeps the agreement.** A block that is written stays or is evicted at
once, and what stays must be the block the stack has at that height, if it has one there. -/
theorem agrees_insert_iff (hwf : c.Wf) (h : Agrees c st) :
    Agrees (c.insert b.height b.blockId b).1 st ↔ Allows c st b := by
  constructor
  · intro hafter
    by_cases hev : c.Evicts b.height b.blockId
    · exact Or.inr hev
    · have hnew := (BlockCache.new_mem_insert hwf (v := b)).2 hev
      refine Or.inl fun t ht hheight => ?_
      exact (hafter t ht b.blockId b (SortedMap.get?_eq_some.2 (hheight ▸ hnew))).symm
  · intro hallow t ht id v hget
    have hmem := SortedMap.get?_eq_some.1 hget
    rcases BlockCache.of_mem_insert hwf hmem with heq | ⟨hold, -⟩
    · obtain ⟨hheight, hrest⟩ := Prod.mk.inj heq
      obtain ⟨rfl, rfl⟩ := Prod.mk.inj hrest
      rcases hallow with hsame | hev
      · exact (hsame t ht hheight).symm
      · exact absurd hev ((BlockCache.new_mem_insert hwf).1 (heq ▸ hmem))
    · exact h t ht id v (SortedMap.get?_eq_some.2 hold)

/-- The block written agrees with its own entry. -/
theorem agrees_insert_cons_iff (hwf : c.Wf) (st : List BufferedBlock) (b : BufferedBlock) :
    Agrees (c.insert b.height b.blockId b).1 (b :: st) ↔
      Agrees (c.insert b.height b.blockId b).1 st := by
  refine ⟨fun h => h.mono (fun _ hx => hx) fun t ht => List.mem_cons_of_mem _ ht, fun h => ?_⟩
  intro t ht id v hget
  rcases List.mem_cons.1 ht with rfl | ht
  · rcases BlockCache.of_mem_insert hwf (SortedMap.get?_eq_some.1 hget) with heq | ⟨-, hne⟩
    · exact congrArg (·.2.1) heq
    · exact absurd rfl hne
  · exact h t ht id v hget

end Agreement

/-- Feeding keeps the cache well formed. -/
theorem wf_feedCache {c : BlockCache BufferedBlock} (hwf : c.Wf) (o : Output) :
    (feedCache c o).Wf := by
  cases o with
  | new s => exact hwf.insert _ _ _
  | undo s => exact hwf.removeById _
  | _ => exact hwf

/-- **Feeding an output** keeps the agreement unless it is a `New` the stack does not allow. -/
theorem agrees_feed_iff {c : BlockCache BufferedBlock} (hwf : c.Wf) {fed : List Output}
    (h : Agrees c (stackOf fed)) (o : Output) :
    Agrees (feedCache c o) (stackOf (fed ++ [o])) ↔
      ∀ b, o.newBlock = some b → Allows c (stackOf fed) b := by
  rw [Traced.stackOf_concat]
  cases o with
  | new s =>
    have hcons := agrees_insert_cons_iff hwf (stackOf fed) s.block
    refine (hcons.trans (agrees_insert_iff hwf h)).trans ?_
    refine ⟨fun hallow b hb => ?_, fun hall => hall s.block rfl⟩
    obtain rfl := Option.some.inj hb
    exact hallow
  | undo s =>
    refine iff_of_true (h.mono (fun x hx => BlockCache.of_mem_removeById hx) fun t ht => ?_)
      fun b hb => by cases hb
    exact List.mem_of_mem_tail ht
  | irreversible s => exact iff_of_true h fun b hb => by cases hb
  | forkObserved a => exact iff_of_true h fun b hb => by cases hb
  | forkResolved a => exact iff_of_true h fun b hb => by cases hb

namespace Shared

/-- **No orphan in the cache**, against the stack of what was fed to it. -/
def NoOrphan (s : Shared) : Prop := Agrees s.pipeline.cache (stackOf s.pipeline.fed)

/-- The block a step writes to the cache. -/
def written (s : Shared) : Move → Option BufferedBlock
  | .task .feed => s.pipeline.toFeed.head?.bind Output.newBlock
  | .populate i =>
    match s.calls[i]? with
    | some (.answered (some (b, _))) => some b
    | _ => none
  | _ => none

/-- The step writes nothing, or a block that the stack allows. -/
def Sanctioned (s : Shared) (m : Move) : Prop :=
  ∀ b, s.written m = some b → Allows s.pipeline.cache (stackOf s.pipeline.fed) b

variable {s s' : Shared} {m : Move}

/-- What a step does, when it can be taken. -/
inductive Moves (s : Shared) : Move → Shared → Prop
  | task {t : Task} {p : Pipeline} (hp : s.pipeline.step t = some p) :
    Moves s (.task t) { s with pipeline := p }
  | reorganize (upstream : ℕ → Option DecodedBlock) :
    Moves s (.reorganize upstream) { s with upstream }
  | hit {height : ℕ} {r : BufferedBlock × BlockFinality}
    (hprobe : probe s.pipeline.cache s.pipeline.head height = some r) : Moves s (.fetch height) s
  | miss {height : ℕ} (hprobe : probe s.pipeline.cache s.pipeline.head height = none) :
    Moves s (.fetch height) { s with calls := s.calls ++ [.asked height] }
  | answer {i height : ℕ} (head : Option ℕ) (hcall : s.calls[i]? = some (.asked height)) :
    Moves s (.answer i head)
      { s with calls := s.calls.set i (.answered ((s.upstream height).map (grpcAnswer head))) }
  | fail {i height : ℕ} (hcall : s.calls[i]? = some (.asked height)) :
    Moves s (.fail i) { s with calls := s.calls.eraseIdx i }
  | populate {i : ℕ} {answer : Option (BufferedBlock × BlockFinality)}
    (hcall : s.calls[i]? = some (.answered answer)) :
    Moves s (.populate i)
      { s with
        pipeline := { s.pipeline with cache := Firehose.populate s.pipeline.cache answer }
        calls := s.calls.eraseIdx i }

/-- **A step is one of its moves.** -/
theorem moves_of_step (hs : s.step m = some s') : s.Moves m s' := by
  cases m with
  | task t =>
    obtain ⟨p, hp, rfl⟩ := Option.map_eq_some_iff.1 hs
    exact .task hp
  | reorganize upstream =>
    obtain rfl := Option.some.inj hs
    exact .reorganize upstream
  | fetch height =>
    simp only [step] at hs
    split at hs
    · rename_i hprobe
      obtain rfl := Option.some.inj hs
      exact .hit hprobe
    · rename_i hprobe
      obtain rfl := Option.some.inj hs
      exact .miss hprobe
  | answer i head =>
    simp only [step] at hs
    split at hs
    · rename_i hcall
      obtain rfl := Option.some.inj hs
      exact .answer head hcall
    · cases hs
  | fail i =>
    simp only [step] at hs
    split at hs
    · rename_i hcall
      obtain rfl := Option.some.inj hs
      exact .fail hcall
    · cases hs
  | populate i =>
    simp only [step] at hs
    split at hs
    · rename_i hcall
      obtain rfl := Option.some.inj hs
      exact .populate hcall
    · cases hs

/-- What one step does to the cache and to what was fed: a feed writes an output, a call
its answer, and nothing else touches them. -/
theorem step_cases (hs : s.step m = some s') :
    s'.pipeline.cache = s.pipeline.cache ∧ s'.pipeline.fed = s.pipeline.fed ∧ s.written m = none ∨
      (∃ o os, m = .task .feed ∧ s.pipeline.toFeed = o :: os ∧
        s'.pipeline.cache = feedCache s.pipeline.cache o ∧
        s'.pipeline.fed = s.pipeline.fed ++ [o]) ∨
      ∃ b, s.written m = some b ∧
        s'.pipeline.cache = (s.pipeline.cache.insert b.height b.blockId b).1 ∧
        s'.pipeline.fed = s.pipeline.fed := by
  cases moves_of_step hs with
  | @task t p hp =>
    rcases Pipeline.step_cache hp with ⟨hcache, hfed, hne⟩ | ⟨o, os, rfl, hfeed, hcache, hfed⟩
    · refine Or.inl ⟨hcache, hfed, ?_⟩
      cases t with
      | feed => exact absurd rfl hne
      | _ => rfl
    · exact Or.inr (Or.inl ⟨o, os, rfl, hfeed, hcache, hfed⟩)
  | @populate i answer hcall =>
    cases answer with
    | none => exact Or.inl ⟨rfl, rfl, by simp only [written, hcall]⟩
    | some r => exact Or.inr (Or.inr ⟨r.1, by simp only [written, hcall], rfl, rfl⟩)
  | _ => exact Or.inl ⟨rfl, rfl, rfl⟩

/-- A step keeps the cache well formed, also when a late answer is written. -/
theorem wf_step (hwf : s.pipeline.cache.Wf) (hs : s.step m = some s') : s'.pipeline.cache.Wf := by
  rcases step_cases hs with ⟨hcache, -, -⟩ | ⟨o, os, -, -, hcache, -⟩ | ⟨b, -, hcache, -⟩
  · rw [hcache]
    exact hwf
  · rw [hcache]
    exact wf_feedCache hwf o
  · rw [hcache]
    exact hwf.insert _ _ _

/-- **One step keeps the cache free of orphans exactly when it is sanctioned.** -/
theorem noOrphan_step_iff (hwf : s.pipeline.cache.Wf) (h : s.NoOrphan) (hs : s.step m = some s') :
    s'.NoOrphan ↔ s.Sanctioned m := by
  rcases step_cases hs with ⟨hcache, hfed, hnone⟩ | ⟨o, os, rfl, hfeed, hcache, hfed⟩ |
    ⟨b, hb, hcache, hfed⟩
  · rw [NoOrphan, hcache, hfed]
    refine iff_of_true h fun b hb => ?_
    rw [hnone] at hb
    cases hb
  · rw [NoOrphan, hcache, hfed, Sanctioned]
    have hwritten : s.written (.task .feed) = o.newBlock := by simp [written, hfeed]
    rw [hwritten]
    exact agrees_feed_iff hwf h o
  · rw [NoOrphan, hcache, hfed, agrees_insert_iff hwf h, Sanctioned, hb]
    refine ⟨fun hallow b' hb' => ?_, fun hall => hall b rfl⟩
    obtain rfl := Option.some.inj hb'
    exact hallow

/-- Of the pipeline the calls change nothing but the cache. -/
theorem step_pipeline (hs : s.step m = some s') :
    (∃ cache, s'.pipeline = { s.pipeline with cache }) ∨
      ∃ t, m = .task t ∧ s.pipeline.step t = some s'.pipeline := by
  cases moves_of_step hs with
  | @task t p hp => exact Or.inr ⟨t, rfl, hp⟩
  | _ => exact Or.inl ⟨_, rfl⟩

/-- A step goes on from what the engine reached. -/
theorem reached_step (h : s.pipeline.engine.Reached s.pipeline.outs) (hs : s.step m = some s') :
    s'.pipeline.engine.Reached s'.pipeline.outs := by
  rcases step_pipeline hs with ⟨cache, hp⟩ | ⟨t, -, hp⟩
  · rw [hp]
    exact h
  · rcases Pipeline.step_engine hp with ⟨he, ho⟩ | ⟨c, out, hcall, ho⟩
    · rw [he, ho]
      exact h
    · rw [ho]
      exact h.call hcall

end Shared

/-- **When the shared cache holds no orphan.**  In any interleaving of the relayer with
`Fetch.Block` calls over an upstream that changes, the cache holds no orphan at any moment
exactly when every write, of the relayer or of a call, is of a block the stack allows at
that moment. -/
theorem noOrphan_iff_every (config : ReorgConfig) (capacity : ℕ) (archive : Option BlockArchive)
    (upstream : ℕ → Option DecodedBlock) (moves : List Move) (s₀ s : Shared)
    (hinit : Shared.init config capacity archive upstream = some s₀)
    (hrun : Run.exec Shared.step s₀ moves = some s) :
    (∀ pre post t, moves = pre ++ post → Run.exec Shared.step s₀ pre = some t → t.NoOrphan) ↔
      Run.Every Shared.Sanctioned Shared.step s₀ moves := by
  obtain ⟨p, hp, rfl⟩ := Option.map_eq_some_iff.1 hinit
  obtain ⟨engine, -, hrest⟩ := Option.bind_eq_some_iff.1 hp
  obtain ⟨cache, hcache, rfl⟩ := Option.map_eq_some_iff.1 hrest
  exact Run.forall_reached_iff_every (K := fun s : Shared => s.pipeline.cache.Wf)
    (fun _ _ _ hwf hs => Shared.wf_step hwf hs)
    (fun _ _ _ hwf h hs => Shared.noOrphan_step_iff hwf h hs) (BlockCache.wf_new hcache)
    (fun t ht => (List.not_mem_nil ht).elim) hrun

/-- **On a chain the relayer's own writes are sanctioned**, so that only an answer of the
upstream can be an orphan. -/
theorem sanctioned_feed {config : ReorgConfig} {capacity : ℕ} {archive : Option BlockArchive}
    {upstream : ℕ → Option DecodedBlock} {moves : List Move} {s₀ s : Shared}
    (hinit : Shared.init config capacity archive upstream = some s₀)
    (hrun : Run.exec Shared.step s₀ moves = some s) (hc : ChainRule s.pipeline.outs) :
    s.Sanctioned (.task .feed) := by
  have hreached : s.pipeline.engine.Reached s.pipeline.outs := by
    refine Run.exec_preserves (I := fun s : Shared => s.pipeline.engine.Reached s.pipeline.outs)
      (fun _ _ _ hv hs => Shared.reached_step hv hs) ?_ hrun
    obtain ⟨p, hp, rfl⟩ := Option.map_eq_some_iff.1 hinit
    exact (Pipeline.ok_new hp).1.reached
  intro b hb
  obtain ⟨o, ho, hob⟩ := Option.bind_eq_some_iff.1 hb
  cases o with
  | new sb =>
    obtain rfl := Option.some.inj hob
    have hpre : s.pipeline.fed ++ [.new sb] <+: s.pipeline.outs := by
      obtain ⟨os, hos⟩ := List.head?_eq_some_iff.1 ho
      exact ⟨os, by rw [Pipeline.outs, hos, List.append_assoc]; rfl⟩
    refine Or.inl fun t ht heq => ?_
    have := ((hreached.traced hc).of_isPrefix hpre).height_lt_of_new ht
    omega
  | _ => cases hob

/-- The upstream's chain with block 2 under the given tag. -/
def twoBlocks (tag : UInt8) (height : ℕ) : Option DecodedBlock :=
  if height = 1 then some (synthAt 1 0 0) else if height = 2 then some (synthAt 2 tag 0) else none

/-- A call for block 2 misses the cache and reads the upstream; then the upstream replaces
block 2, the relayer accepts and feeds the replacement, and the call writes what it read. -/
def overtaken : List Move :=
  [.task (.call (.accept (synthAt 1 0 0) [])), .task .feed, .task .send, .fetch 2, .answer 0 none,
    .reorganize (twoBlocks 1), .task (.call (.accept (synthAt 2 1 0) [])), .task .feed,
    .populate 0]

/-- **An answer that a reorg overtook puts an orphan in the cache.** The read-through insert
does not look at what the relayer has done since the call missed. -/
theorem overtaken_orphan : ¬ ∀ (config : ReorgConfig) (capacity : ℕ)
    (archive : Option BlockArchive) (upstream : ℕ → Option DecodedBlock) (moves : List Move)
    (s₀ s : Shared), Shared.init config capacity archive upstream = some s₀ →
    Run.exec Shared.step s₀ moves = some s → s.NoOrphan := by
  intro hall
  have hid := hall ⟨4, 1⟩ 8 none (twoBlocks 0) overtaken _ _ rfl rfl _ (List.mem_cons_self ..) _ _
    rfl
  exact absurd hid (by decide)

/-- The hypotheses hold of the same run. -/
theorem noOrphan_iff_every_overtaken :
    ∃ s₀ s, Shared.init ⟨4, 1⟩ 8 none (twoBlocks 0) = some s₀ ∧
      Run.exec Shared.step s₀ overtaken = some s ∧
      ((∀ pre post t, overtaken = pre ++ post → Run.exec Shared.step s₀ pre = some t →
        t.NoOrphan) ↔ Run.Every Shared.Sanctioned Shared.step s₀ overtaken) :=
  ⟨_, _, rfl, rfl, noOrphan_iff_every ⟨4, 1⟩ 8 none (twoBlocks 0) overtaken _ _ rfl rfl⟩

end Firehose
end Lightcycle
