/-
# What one call of the engine can do

`Wf` is the representation invariant of `ReorgEngine`: `canonical_ids` is the set
of ids of `canonical`, those ids are distinct, each buffered block's parent is the
block before it, and the buffer fits its window.  Under it no call panics, and a
call of `accept` is one of four things (`accept_cases`): a duplicate, a gap, a
reorg refused by the finality guard, each leaving the engine as it was, or the
block attaches.

A block attaches (`Attaches`) by splitting the buffer into the blocks kept, whose
last one is its parent, and the orphans after them, both possibly empty; the three
ingest paths of the source are this with `kept` empty, `orphans` empty, and
neither.  `attach` is the engine and the outputs before finality, ledger and
pruning (`settle`) are run, so that everything proved later about `accept` is
proved about `settle` and `attach` alone.

`crossing` lists the blocks the finality walk names.
-/

import Lightcycle.Relayer.Engine
import Lightcycle.Lib.Run

namespace Lightcycle
namespace Relayer

/-! ### The loops -/

/-- The blocks `irreversibleWalk` emits, in order. -/
def crossing (s : ℕ) : List BufferedBlock → Option ℕ → List BufferedBlock
  | [], _ => []
  | b :: bs, prev =>
    if s < b.height then []
    else if prev.any fun p => decide (b.height ≤ p) then crossing s bs prev
    else b :: crossing s bs (some b.height)

/-- The high-water mark after the blocks `l` have been emitted in order. -/
def raised (prev : Option ℕ) (l : List BufferedBlock) : Option ℕ :=
  (l.getLast?.map (·.height)).or prev

/-- The mark after the first block is its height, whatever it was. -/
theorem raised_cons (prev : Option ℕ) (b : BufferedBlock) (l : List BufferedBlock) :
    raised prev (b :: l) = raised (some b.height) l := by
  cases l with
  | nil => rfl
  | cons c l =>
    unfold raised
    rw [List.getLast?_cons_cons]
    cases h : (c :: l).getLast? with
    | none => simp at h
    | some x => rfl

/-- **The finality walk** emits the blocks it crosses and raises the mark to the last of
them. -/
theorem irreversibleWalk_eq (s : ℕ) (bs : List BufferedBlock) (prev : Option ℕ) :
    irreversibleWalk s bs prev =
      ((crossing s bs prev).map (irreversibleOf s), raised prev (crossing s bs prev)) := by
  induction bs generalizing prev with
  | nil => rfl
  | cons b bs ih =>
    unfold irreversibleWalk crossing
    split_ifs with h₁ h₂
    · rfl
    · exact ih prev
    · rw [ih, raised_cons, List.map_cons]

/-- Pruning leaves the last blocks, as many as the window has. -/
theorem pruneLoop_fst (w : ℕ) (bs : List BufferedBlock) (ids : Finset BlockId) :
    (pruneLoop w bs ids).1 = bs.drop (bs.length - w) := by
  induction bs generalizing ids with
  | nil => simp [pruneLoop]
  | cons b bs ih =>
    unfold pruneLoop
    split_ifs with h
    · rw [ih]
      rw [List.length_cons] at h ⊢
      rw [show bs.length + 1 - w = (bs.length - w) + 1 by omega, List.drop_succ_cons]
    · rw [show (b :: bs).length - w = 0 by omega, List.drop_zero]

/-- The set of ids of a list of blocks. -/
def idSet (bs : List BufferedBlock) : Finset BlockId := (bs.map (·.blockId)).toFinset

/-- The set has the ids of the blocks. -/
theorem mem_idSet {bs : List BufferedBlock} {i : BlockId} :
    i ∈ idSet bs ↔ ∃ b ∈ bs, b.blockId = i := by
  simp [idSet]

/-- A block pushed adds its id. -/
theorem idSet_append_singleton (bs : List BufferedBlock) (b : BufferedBlock) :
    idSet (bs ++ [b]) = insert b.blockId (idSet bs) := by
  ext i
  simp only [mem_idSet, Finset.mem_insert, List.mem_append, List.mem_singleton]
  constructor
  · rintro ⟨c, hc | rfl, rfl⟩
    · exact Or.inr ⟨c, hc, rfl⟩
    · exact Or.inl rfl
  · rintro (rfl | ⟨c, hc, rfl⟩)
    · exact ⟨b, Or.inr rfl, rfl⟩
    · exact ⟨c, Or.inl hc, rfl⟩

/-- Pruning keeps the set of ids in step, when no id is there twice. -/
theorem pruneLoop_snd (w : ℕ) (bs : List BufferedBlock) (h : (bs.map (·.blockId)).Nodup) :
    (pruneLoop w bs (idSet bs)).2 = idSet (pruneLoop w bs (idSet bs)).1 := by
  induction bs with
  | nil => rfl
  | cons b bs ih =>
    rw [List.map_cons, List.nodup_cons] at h
    unfold pruneLoop
    split_ifs with hw
    · have he : (idSet (b :: bs)).erase b.blockId = idSet bs := by
        rw [idSet, List.map_cons, List.toFinset_cons, Finset.erase_insert]
        · rfl
        · rw [List.mem_toFinset]
          exact h.1
      rw [he]
      exact ih h.2
    · rfl

/-- **Dropping the orphans** takes them off the back with their ids, and never fails. -/
theorem popBackLoop_eq (kept orphans : List BufferedBlock)
    (h : ((kept ++ orphans).map (·.blockId)).Nodup) :
    popBackLoop orphans.length (kept ++ orphans) (idSet (kept ++ orphans)) =
      some (kept, idSet kept) := by
  induction orphans using List.reverseRecOn with
  | nil => simp [popBackLoop]
  | append_singleton orphans o ih =>
    rw [← List.append_assoc] at h ⊢
    rw [List.map_append, List.nodup_append] at h
    obtain ⟨h₁, -, hdis⟩ := h
    have hids : (idSet (kept ++ orphans ++ [o])).erase o.blockId = idSet (kept ++ orphans) := by
      rw [idSet_append_singleton, Finset.erase_insert]
      rw [mem_idSet]
      rintro ⟨b, hb, hbo⟩
      exact hdis b.blockId (List.mem_map_of_mem hb) o.blockId (by simp) hbo
    rw [List.length_append, List.length_singleton, popBackLoop, List.getLast?_concat]
    simp only [List.dropLast_concat]
    rw [hids]
    exact ih h₁

/-- No position is found when no element meets the test. -/
theorem rposition_eq_none {α : Type*} {p : α → Bool} {l : List α} :
    rposition p l = none ↔ ∀ a ∈ l, p a = false := by
  induction l with
  | nil => simp [rposition]
  | cons a l ih =>
    rw [rposition, List.forall_mem_cons]
    cases h : rposition p l with
    | none =>
      have hl := ih.1 h
      cases hp : p a with
      | false => simpa using hl
      | true => simp
    | some i =>
      have : ¬ ∀ a ∈ l, p a = false := fun hn => by rw [ih.2 hn] at h; cases h
      simp [this]

/-- A match after which nothing matches is the one found. -/
theorem rposition_append {α : Type*} {p : α → Bool} {a : α} {post : List α} (ha : p a = true)
    (hpost : ∀ b ∈ post, p b = false) (pre : List α) :
    rposition p (pre ++ a :: post) = some pre.length := by
  induction pre with
  | nil =>
    rw [List.nil_append, rposition, rposition_eq_none.2 hpost]
    simp [ha]
  | cons b pre ih => rw [List.cons_append, rposition, ih, List.length_cons]

namespace ReorgEngine

/-! ### The representation invariant -/

/-- The representation invariant. -/
structure Wf (e : ReorgEngine) : Prop where
  /-- `canonical_ids` mirrors `canonical`. -/
  ids : e.canonicalIds = idSet e.canonical
  /-- No id is buffered twice. -/
  nodup : (e.canonical.map (·.blockId)).Nodup
  /-- Each buffered block's parent is the block before it. -/
  linked : e.canonical.IsChain fun a b => b.parentId = a.blockId
  /-- The assertion of `new`. -/
  window : e.config.finalityDepth < e.config.bufferWindow
  /-- The buffer fits its window. -/
  len_le : e.canonical.length ≤ e.config.bufferWindow

/-- What `new` builds. -/
theorem eq_of_new {config : ReorgConfig} {e : ReorgEngine} (h : ReorgEngine.new config = some e) :
    e = { canonical := [], canonicalIds := ∅, config, lastIrreversibleHeight := none
          solidifiedHead := none, forkHistory := [], nextForkId := 0 } := by
  unfold ReorgEngine.new at h
  split_ifs at h
  exact (Option.some.inj h).symm

/-- A fresh engine is well formed. -/
theorem wf_new {config : ReorgConfig} {e : ReorgEngine} (h : ReorgEngine.new config = some e) :
    e.Wf := by
  unfold ReorgEngine.new at h
  split_ifs at h with hw
  obtain rfl := Option.some.inj h
  exact ⟨rfl, List.nodup_nil, List.isChain_nil, hw, Nat.zero_le _⟩

/-- The set of ids answers for the buffer. -/
theorem Wf.mem_ids {e : ReorgEngine} (h : e.Wf) {i : BlockId} :
    i ∈ e.canonicalIds ↔ ∃ b ∈ e.canonical, b.blockId = i := by
  rw [h.ids, mem_idSet]

/-- An id determines where the buffer splits. -/
theorem Wf.split_unique {e : ReorgEngine} (h : e.Wf) {pre post pre' post' : List BufferedBlock}
    {a a' : BufferedBlock} (hs : e.canonical = pre ++ a :: post)
    (hs' : e.canonical = pre' ++ a' :: post') (hid : a.blockId = a'.blockId) :
    pre = pre' ∧ a = a' ∧ post = post' := by
  have ha : a ∈ e.canonical := by rw [hs]; simp
  have ha' : a' ∈ e.canonical := by rw [hs']; simp
  obtain rfl := List.inj_on_of_nodup_map h.nodup ha ha' hid
  have hnd := h.nodup.of_map
  rw [hs] at hnd
  obtain ⟨-, hpost, hdis⟩ := List.nodup_append.1 hnd
  have hpre : a ∉ pre := fun hmem => hdis a hmem a (List.mem_cons_self ..) rfl
  obtain ⟨rfl, -, rfl⟩ := (List.append_cons_inj_of_notMem hpre (List.nodup_cons.1 hpost).1).1
    (hs.symm.trans hs')
  exact ⟨rfl, rfl, rfl⟩

/-! ### Attaching a block -/

/-- `d` attaches to the buffer by keeping `kept` and orphaning `orphans`. -/
structure Attaches (e : ReorgEngine) (d : DecodedBlock) (kept orphans : List BufferedBlock) :
    Prop where
  split : e.canonical = kept ++ orphans
  /-- Only the first block ever has no parent in the buffer. -/
  first : kept = [] → orphans = []
  parent : ∀ p, kept.getLast? = some p → d.header.parentId = p.blockId
  fresh : ∀ b ∈ e.canonical, b.blockId ≠ d.header.blockId
  /-- The finality guard: the earliest orphan is above the high-water mark. -/
  guard : ∀ l o, e.lastIrreversibleHeight = some l → orphans.head? = some o → l < o.height

/-- A block that attaches is a first block, or it splits the buffer after its parent. -/
theorem Attaches.cases {e : ReorgEngine} {d : DecodedBlock} {kept orphans : List BufferedBlock}
    (ha : Attaches e d kept orphans) :
    (kept = [] ∧ orphans = [] ∧ e.canonical = []) ∨
      ∃ init p, kept = init ++ [p] ∧ e.canonical = init ++ p :: orphans ∧
        d.header.parentId = p.blockId := by
  rcases List.eq_nil_or_concat kept with rfl | ⟨init, p, rfl⟩
  · have ho := ha.first rfl
    exact Or.inl ⟨rfl, ho, by rw [ha.split, ho, List.append_nil]⟩
  · refine Or.inr ⟨init, p, List.concat_eq_append, ?_, ha.parent p (by simp)⟩
    rw [ha.split, List.concat_eq_append, List.append_assoc, List.singleton_append]

/-- The part kept is determined by the block. -/
theorem Attaches.kept_eq {e : ReorgEngine} (h : e.Wf) {d : DecodedBlock}
    {kept orphans pre post : List BufferedBlock} {a : BufferedBlock}
    (ha : Attaches e d kept orphans) (hsplit : e.canonical = pre ++ a :: post)
    (hpar : d.header.parentId = a.blockId) : kept = pre ++ [a] ∧ orphans = post := by
  rcases ha.cases with ⟨-, -, hnil⟩ | ⟨init, p, rfl, hcan, hp⟩
  · rw [hnil] at hsplit
    simp at hsplit
  · obtain ⟨rfl, rfl, rfl⟩ := h.split_unique hcan hsplit (hp.symm.trans hpar)
    exact ⟨rfl, rfl⟩

/-- A block attaches in one way only. -/
theorem Attaches.orphans_eq {e : ReorgEngine} (h : e.Wf) {d : DecodedBlock}
    {kept orphans kept' orphans' : List BufferedBlock} (ha : Attaches e d kept orphans)
    (ha' : Attaches e d kept' orphans') : orphans = orphans' := by
  rcases ha'.cases with ⟨-, rfl, hnil⟩ | ⟨init, p, -, hcan, hp⟩
  · have hsplit := ha.split
    rw [hnil] at hsplit
    exact (List.append_eq_nil_iff.1 hsplit.symm).2
  · exact (ha.kept_eq h hcan hp).2

/-- The `New` emission of `b` from the engine `e`. -/
def newOf (e : ReorgEngine) (b : BufferedBlock) : Output :=
  .new { step := .new, block := b, cursor := ⟨b.height, b.blockId⟩
         finality := e.deriveFinalityForTip b.height }

/-- The ledger entry of a reorg that orphaned `orphans` (oldest first). -/
def observation (d : DecodedBlock) (orphans : List BufferedBlock) : ForkObservation where
  observedAtHeight := d.header.height
  keptTip := d.header.blockId
  orphanedTips := orphans.reverse.map (·.blockId)

/-- The ledger entries of a call that orphaned `orphans`: none without orphans. -/
def observations (d : DecodedBlock) (orphans : List BufferedBlock) : List ForkObservation :=
  if orphans = [] then [] else [observation d orphans]

/-- The engine after the orphans are dropped, the block is pushed and the fork is
recorded. -/
def attached (e : ReorgEngine) (kept orphans : List BufferedBlock) (d : DecodedBlock)
    (txInfos : List DecodedTxInfo) : ReorgEngine :=
  { e with
    canonical := kept ++ [bufferedBlock e.nextForkId d txInfos]
    canonicalIds := idSet (kept ++ [bufferedBlock e.nextForkId d txInfos])
    nextForkId := e.nextForkId + 1
    forkHistory := e.forkHistory ++ observations d orphans }

/-- What is emitted up to there. -/
def attachOutputs (e : ReorgEngine) (orphans : List BufferedBlock) (d : DecodedBlock)
    (txInfos : List DecodedTxInfo) : List Output :=
  orphans.reverse.map (undoOf e.solidifiedHead) ++
    e.newOf (bufferedBlock e.nextForkId d txInfos) ::
      (observations d orphans).map fun o =>
        .forkObserved o.observedAtHeight o.keptTip o.orphanedTips

/-- What `accept` returns when `d` attaches. -/
def attach (e : ReorgEngine) (kept orphans : List BufferedBlock) (d : DecodedBlock)
    (txInfos : List DecodedTxInfo) : ReorgEngine × List Output :=
  (e.attached kept orphans d txInfos).settle (e.attachOutputs orphans d txInfos)

/-- Pushing without orphans attaches to the whole buffer. -/
theorem pushNew_eq_attached {e : ReorgEngine} (h : e.Wf) (d : DecodedBlock)
    (txInfos : List DecodedTxInfo) :
    e.pushNew d txInfos [] =
      (e.attached e.canonical [] d txInfos, e.attachOutputs [] d txInfos) := by
  unfold pushNew attached attachOutputs
  simp only [allocForkId, observations, h.ids, idSet_append_singleton, if_true, List.append_nil]
  rfl

/-- So does extending the tip. -/
theorem extendCanonical_eq {e : ReorgEngine} (h : e.Wf) (d : DecodedBlock)
    (txInfos : List DecodedTxInfo) :
    e.extendCanonical d txInfos = e.attach e.canonical [] d txInfos := by
  unfold extendCanonical attach
  rw [pushNew_eq_attached h]

/-- So does the first block. -/
theorem pushCanonicalFirst_eq {e : ReorgEngine} (h : e.Wf) (d : DecodedBlock)
    (txInfos : List DecodedTxInfo) :
    e.pushCanonicalFirst d txInfos = e.attach e.canonical [] d txInfos := by
  unfold pushCanonicalFirst attach
  rw [pushNew_eq_attached h]

/-! ### Settling -/

/-- The blocks the finality walk names. -/
def crossed (e : ReorgEngine) : List BufferedBlock :=
  e.solidifiedHead.elim [] fun s => crossing s e.canonical e.lastIrreversibleHeight

/-- The `Irreversible` outputs of the finality walk. -/
def marks (e : ReorgEngine) : List Output :=
  e.crossed.map (irreversibleOf (e.solidifiedHead.getD 0))

/-- The ledger entries the solidified head resolves. -/
def resolved (e : ReorgEngine) : List ForkObservation :=
  e.solidifiedHead.elim [] fun s => e.forkHistory.takeWhile fun o => decide (o.observedAtHeight ≤ s)

/-- The ledger entries left pending. -/
def pending (e : ReorgEngine) : List ForkObservation :=
  e.solidifiedHead.elim e.forkHistory fun s =>
    e.forkHistory.dropWhile fun o => decide (o.observedAtHeight ≤ s)

/-- The `ForkResolved` outputs of the ledger. -/
def resolutions (e : ReorgEngine) : List Output :=
  e.resolved.map fun o =>
    .forkResolved o.observedAtHeight (e.solidifiedHead.getD 0) o.keptTip o.orphanedTips

/-- The finality walk raises the mark and emits the blocks crossed. -/
theorem maybeEmitIrreversible_eq (e : ReorgEngine) (out : List Output) :
    e.maybeEmitIrreversible out =
      ({ e with lastIrreversibleHeight := raised e.lastIrreversibleHeight e.crossed },
        out ++ e.marks) := by
  unfold maybeEmitIrreversible marks crossed
  cases h : e.solidifiedHead with
  | none =>
    simp only [Option.elim_none, List.map_nil, List.append_nil]
    rw [show raised e.lastIrreversibleHeight [] = e.lastIrreversibleHeight from rfl, ← h]
  | some s =>
    simp only [Option.elim_some, Option.getD_some, irreversibleWalk_eq]

/-- The queue of forks is taken off from the front, up to the first that the head has not
reached. -/
theorem resolveLoop_eq (s : ℕ) (os : List ForkObservation) :
    resolveLoop s os =
      ((os.takeWhile fun o => decide (o.observedAtHeight ≤ s)).map fun o =>
          .forkResolved o.observedAtHeight s o.keptTip o.orphanedTips,
        os.dropWhile fun o => decide (o.observedAtHeight ≤ s)) := by
  induction os with
  | nil => rfl
  | cons o os ih =>
    unfold resolveLoop
    split_ifs with h
    · simp [Nat.not_le.2 h]
    · simp [Nat.not_lt.1 h, ih]

/-- What it takes off is emitted, and the rest stays pending. -/
theorem maybeResolveForks_eq (e : ReorgEngine) (out : List Output) :
    e.maybeResolveForks out = ({ e with forkHistory := e.pending }, out ++ e.resolutions) := by
  unfold maybeResolveForks resolutions resolved pending
  cases h : e.solidifiedHead with
  | none =>
    simp only [Option.elim_none, List.map_nil, List.append_nil]
    rw [← h]
  | some s =>
    simp only [Option.elim_some, Option.getD_some, resolveLoop_eq]

/-- What a call leaves behind once it has emitted its finality and ledger events and
pruned its buffer. -/
theorem settle_eq (e : ReorgEngine) (out : List Output) :
    e.settle out =
      ({ e with
         canonical := e.canonical.drop (e.canonical.length - e.config.bufferWindow)
         canonicalIds := (pruneLoop e.config.bufferWindow e.canonical e.canonicalIds).2
         lastIrreversibleHeight := raised e.lastIrreversibleHeight e.crossed
         forkHistory := e.pending },
        out ++ e.marks ++ e.resolutions) := by
  unfold settle maybePruneBuffer
  simp only [maybeEmitIrreversible_eq, maybeResolveForks_eq, pruneLoop_fst]
  rfl

/-- What accepting a block emits: undos, the new block, a fork, then what settling emits. -/
theorem attach_snd (e : ReorgEngine) (kept orphans : List BufferedBlock) (d : DecodedBlock)
    (txInfos : List DecodedTxInfo) :
    (e.attach kept orphans d txInfos).2 = e.attachOutputs orphans d txInfos ++
      ((e.attached kept orphans d txInfos).marks ++
        (e.attached kept orphans d txInfos).resolutions) := by
  rw [attach, settle_eq, List.append_assoc]

/-- What holds of the announcements and of the forks resolved holds of all that settling
emits. -/
theorem forall_settled {P : Output → Prop} (e : ReorgEngine)
    (hirr : ∀ b ∈ e.crossed, P (irreversibleOf (e.solidifiedHead.getD 0) b))
    (hres : ∀ f ∈ e.resolved, P (.forkResolved f.observedAtHeight (e.solidifiedHead.getD 0)
      f.keptTip f.orphanedTips)) :
    ∀ o ∈ e.marks ++ e.resolutions, P o := by
  intro o ho
  rcases List.mem_append.1 ho with ho | ho
  · obtain ⟨b, hb, rfl⟩ := List.mem_map.1 ho
    exact hirr b hb
  · obtain ⟨f, hf, rfl⟩ := List.mem_map.1 ho
    exact hres f hf

/-- What holds of the `Undo`s, of the `New` and of the fork observed holds of all that
attaching emits. -/
theorem forall_attachOutputs {P : Output → Prop} (e : ReorgEngine) {orphans : List BufferedBlock}
    {d : DecodedBlock} {txInfos : List DecodedTxInfo}
    (hundo : ∀ b ∈ orphans, P (undoOf e.solidifiedHead b))
    (hnew : P (e.newOf (bufferedBlock e.nextForkId d txInfos)))
    (hobs : ∀ f ∈ observations d orphans,
      P (.forkObserved f.observedAtHeight f.keptTip f.orphanedTips)) :
    ∀ o ∈ e.attachOutputs orphans d txInfos, P o := by
  intro o ho
  rcases List.mem_append.1 ho with ho | ho
  · obtain ⟨b, hb, rfl⟩ := List.mem_map.1 ho
    exact hundo b (List.mem_reverse.1 hb)
  · rcases List.mem_cons.1 ho with rfl | ho
    · exact hnew
    · obtain ⟨f, hf, rfl⟩ := List.mem_map.1 ho
      exact hobs f hf

/-- What settling emits on its own. -/
theorem settle_nil_snd (e : ReorgEngine) : (e.settle []).2 = e.marks ++ e.resolutions := by
  rw [settle_eq, List.nil_append]

/-- Settling restores the bound on the buffer and keeps the rest of the invariant. -/
theorem wf_settle {e : ReorgEngine} (out : List Output) (hids : e.canonicalIds = idSet e.canonical)
    (hnodup : (e.canonical.map (·.blockId)).Nodup)
    (hlinked : e.canonical.IsChain fun a b => b.parentId = a.blockId)
    (hwindow : e.config.finalityDepth < e.config.bufferWindow) : (e.settle out).1.Wf := by
  rw [settle_eq]
  refine ⟨?_, ?_, hlinked.drop _, hwindow, ?_⟩
  · simp only
    rw [hids, pruneLoop_snd _ _ hnodup, pruneLoop_fst]
  · exact hnodup.sublist ((List.drop_sublist _ _).map _)
  · simp only [List.length_drop]
    omega

/-- The engine with the solidified head moved to `s`. -/
def withHead (e : ReorgEngine) (s : ℕ) : ReorgEngine := { e with solidifiedHead := some s }

/-- A head that advanced settles the engine too: there is nothing to prune. -/
theorem setSolidifiedHead_eq {e : ReorgEngine} (h : e.Wf) {s : ℕ}
    (hs : ∀ p, e.solidifiedHead = some p → p < s) :
    e.setSolidifiedHead s = (e.withHead s).settle [] := by
  have hs' : (e.solidifiedHead.any fun prev => decide (s ≤ prev)) = false := by
    cases hp : e.solidifiedHead with
    | none => rfl
    | some p => simpa using hs p hp
  have hz : e.canonical.length - e.config.bufferWindow = 0 := Nat.sub_eq_zero_of_le h.len_le
  have hi : (pruneLoop e.config.bufferWindow e.canonical e.canonicalIds).2 = e.canonicalIds := by
    rw [h.ids, pruneLoop_snd _ _ h.nodup, pruneLoop_fst, hz, List.drop_zero]
  rw [settle_eq]
  unfold setSolidifiedHead withHead
  rw [hs', if_neg Bool.false_ne_true]
  simp only [maybeEmitIrreversible_eq, maybeResolveForks_eq, hz, hi, List.drop_zero]
  rfl

/-! ### One call -/

/-- The finality guard lets a reorg through exactly when every orphan's oldest is
above the high-water mark. -/
theorem finalityGuard_eq {e : ReorgEngine} {pre post : List BufferedBlock} {a o : BufferedBlock}
    (h : e.canonical = pre ++ a :: o :: post) :
    e.finalityGuard pre.length =
      some (e.lastIrreversibleHeight.filter fun l => decide (o.height ≤ l)) := by
  have ho : e.canonical[pre.length + 1]? = some o := by
    rw [h, List.getElem?_append_right (Nat.le_succ _)]
    simp
  unfold finalityGuard
  rw [ho]
  cases e.lastIrreversibleHeight with
  | none => rfl
  | some l => by_cases hl : o.height ≤ l <;> simp [hl, Option.filter]

/-- The ancestor search finds the parent. -/
theorem Wf.rposition_eq {e : ReorgEngine} (h : e.Wf) {d : DecodedBlock}
    {pre post : List BufferedBlock} {a : BufferedBlock} (hsplit : e.canonical = pre ++ a :: post)
    (ha : d.header.parentId = a.blockId) :
    rposition (fun b => decide (b.blockId = d.header.parentId)) e.canonical = some pre.length := by
  have hnd := h.nodup
  rw [hsplit, List.map_append, List.map_cons] at hnd
  have hpost : ∀ b ∈ post, decide (b.blockId = d.header.parentId) = false := by
    intro b hb
    rw [decide_eq_false_iff_not, ha]
    intro hba
    have := (List.nodup_cons.1 (List.nodup_append.1 hnd).2.1).1
    exact this (hba ▸ List.mem_map_of_mem hb)
  rw [hsplit]
  exact rposition_append (by simp [ha]) hpost pre

/-- **What `handle_reorg` does** when the parent is buffered and is not the tip: the
finality guard refuses the block, or it attaches. -/
theorem handleReorg_cases {e : ReorgEngine} (h : e.Wf) {d : DecodedBlock}
    (txInfos : List DecodedTxInfo) (hfresh : ∀ b ∈ e.canonical, b.blockId ≠ d.header.blockId)
    {pre post : List BufferedBlock} {a o : BufferedBlock}
    (hsplit : e.canonical = pre ++ a :: o :: post) (ha : d.header.parentId = a.blockId) :
    (∃ l, e.lastIrreversibleHeight = some l ∧ o.height ≤ l ∧
      e.handleReorg d txInfos = some (e, .error (.reorgBelowFinality d.header.height l))) ∨
    (Attaches e d (pre ++ [a]) (o :: post) ∧
      e.handleReorg d txInfos =
        some ((e.attach (pre ++ [a]) (o :: post) d txInfos).1,
          .ok (e.attach (pre ++ [a]) (o :: post) d txInfos).2)) := by
  have hr := h.rposition_eq hsplit ha
  have hlen : e.canonical.length - 1 - pre.length = (o :: post).length := by
    rw [hsplit]
    simp
  have hdrop : e.canonical.drop (pre.length + 1) = o :: post := by
    rw [hsplit, ← List.singleton_append, ← List.append_assoc]
    exact List.drop_left' (by simp)
  have hsplit' : e.canonical = (pre ++ [a]) ++ o :: post := by
    rw [hsplit, List.append_assoc, List.singleton_append]
  have hpop : popBackLoop (o :: post).length e.canonical e.canonicalIds =
      some (pre ++ [a], idSet (pre ++ [a])) := by
    rw [h.ids, hsplit']
    exact popBackLoop_eq _ _ (hsplit' ▸ h.nodup)
  unfold handleReorg
  rw [hr]
  simp only [hlen, hdrop, hpop, finalityGuard_eq hsplit]
  rw [if_neg (by simp)]
  by_cases hg : ∃ l, e.lastIrreversibleHeight = some l ∧ o.height ≤ l
  · obtain ⟨l, hl, hol⟩ := hg
    refine Or.inl ⟨l, hl, hol, ?_⟩
    simp [hl, hol, Option.filter]
  · have hf : (e.lastIrreversibleHeight.filter fun l => decide (o.height ≤ l)) = none := by
      rw [Option.filter_eq_none_iff]
      intro l hl
      simpa using fun hol => hg ⟨l, hl, hol⟩
    refine Or.inr ⟨⟨hsplit', by simp, ?_, hfresh, ?_⟩, ?_⟩
    · intro p hp
      rw [List.getLast?_concat, Option.some.injEq] at hp
      rw [ha, hp]
    · intro l o' hl ho
      obtain rfl := Option.some.inj ho
      exact Nat.lt_of_not_le fun hol => hg ⟨l, hl, hol⟩
    · simp only [hf]
      unfold attach attached attachOutputs pushNew observations
      simp only [allocForkId, idSet_append_singleton, reduceCtorEq, if_false]
      simp [observation, newOf, deriveFinalityForTip, bufferedBlock]

/-- The branches of `accept` past the duplicate check, once something is buffered. -/
theorem accept_of_tip {e : ReorgEngine} {d : DecodedBlock} (txInfos : List DecodedTxInfo)
    {tip : BufferedBlock} (hdup : d.header.blockId ∉ e.canonicalIds)
    (htip : e.canonical.getLast? = some tip) :
    e.accept d txInfos =
      if d.header.parentId = tip.blockId then
        some ((e.extendCanonical d txInfos).1, .ok (e.extendCanonical d txInfos).2)
      else if d.header.parentId ∈ e.canonicalIds then e.handleReorg d txInfos
      else some (e, .error (.parentNotInBuffer d.header.height d.header.parentId
        tip.height e.config.bufferWindow)) := by
  have hne : e.canonical.isEmpty = false := by
    cases hc : e.canonical with
    | nil => rw [hc] at htip; cases htip
    | cons b bs => rfl
  unfold accept
  rw [if_neg hdup, hne, if_neg Bool.false_ne_true, htip]

/-- **What `accept` does.**  A known id is a duplicate; a first block, a child of the
tip and an allowed reorg attach; a reorg below finality and a gap are refused; and
each refusal leaves the engine as it was. -/
theorem accept_cases {e : ReorgEngine} (h : e.Wf) (d : DecodedBlock)
    (txInfos : List DecodedTxInfo) :
    ((∃ b ∈ e.canonical, b.blockId = d.header.blockId) ∧
      e.accept d txInfos = some (e, .error (.duplicateBlock d.header.blockId))) ∨
    (∃ tip, e.canonical.getLast? = some tip ∧ (∀ b ∈ e.canonical, b.blockId ≠ d.header.blockId) ∧
      (∀ b ∈ e.canonical, b.blockId ≠ d.header.parentId) ∧
      e.accept d txInfos = some (e, .error (.parentNotInBuffer d.header.height d.header.parentId
        tip.height e.config.bufferWindow))) ∨
    (∃ pre a o post l, e.canonical = pre ++ a :: o :: post ∧ d.header.parentId = a.blockId ∧
      (∀ b ∈ e.canonical, b.blockId ≠ d.header.blockId) ∧
      e.lastIrreversibleHeight = some l ∧ o.height ≤ l ∧
      e.accept d txInfos = some (e, .error (.reorgBelowFinality d.header.height l))) ∨
    ∃ kept orphans, Attaches e d kept orphans ∧
      e.accept d txInfos =
        some ((e.attach kept orphans d txInfos).1, .ok (e.attach kept orphans d txInfos).2) := by
  by_cases hdup : d.header.blockId ∈ e.canonicalIds
  · exact Or.inl ⟨h.mem_ids.1 hdup, by unfold accept; rw [if_pos hdup]⟩
  have hfresh : ∀ b ∈ e.canonical, b.blockId ≠ d.header.blockId :=
    fun b hb hbd => hdup (h.mem_ids.2 ⟨b, hb, hbd⟩)
  refine Or.inr ?_
  cases htip : e.canonical.getLast? with
  | none =>
    have hnil : e.canonical = [] := List.getLast?_eq_none_iff.1 htip
    refine Or.inr (Or.inr ⟨[], [], ⟨hnil, fun _ => rfl, by simp, hfresh, by simp⟩, ?_⟩)
    unfold accept
    rw [if_neg hdup, hnil, List.isEmpty_nil, if_pos rfl, pushCanonicalFirst_eq h, hnil]
  | some tip =>
    have hacc := accept_of_tip txInfos hdup htip
    by_cases hext : d.header.parentId = tip.blockId
    · rw [if_pos hext, extendCanonical_eq h] at hacc
      refine Or.inr (Or.inr ⟨e.canonical, [], ?_, hacc⟩)
      refine ⟨(List.append_nil _).symm, fun _ => rfl, fun p hp => ?_, hfresh, by simp⟩
      rw [htip, Option.some.injEq] at hp
      rw [hext, hp]
    rw [if_neg hext] at hacc
    by_cases hpar : d.header.parentId ∈ e.canonicalIds
    · rw [if_pos hpar] at hacc
      obtain ⟨a, ha, hpa⟩ := h.mem_ids.1 hpar
      obtain ⟨pre, post, hsplit⟩ := List.append_of_mem ha
      cases post with
      | nil =>
        rw [hsplit, List.getLast?_concat, Option.some.injEq] at htip
        exact absurd (htip ▸ hpa.symm) hext
      | cons o post =>
        rcases handleReorg_cases h txInfos hfresh hsplit hpa.symm with
          ⟨l, hl, hol, hr⟩ | ⟨hat, hr⟩
        · exact Or.inr (Or.inl ⟨pre, a, o, post, l, hsplit, hpa.symm, hfresh, hl, hol,
            hacc.trans hr⟩)
        · exact Or.inr (Or.inr ⟨_, _, hat, hacc.trans hr⟩)
    · rw [if_neg hpar] at hacc
      refine Or.inl ⟨tip, rfl, hfresh, ?_, hacc⟩
      exact fun b hb hbp => hpar (h.mem_ids.2 ⟨b, hb, hbp⟩)

/-- **A block that attaches is accepted.** `accept` then returns the engine and the outputs
of `attach`, whichever of its three branches it takes. -/
theorem Attaches.accept_ok {e : ReorgEngine} (h : e.Wf) {d : DecodedBlock}
    (txInfos : List DecodedTxInfo) {kept orphans : List BufferedBlock}
    (ha : Attaches e d kept orphans) : ∃ e' out, e.accept d txInfos = some (e', .ok out) := by
  rcases accept_cases h d txInfos with ⟨⟨b, hb, hbd⟩, -⟩ | ⟨tip, htip, -, hpar, -⟩ |
    ⟨pre, a, o, post, l, hsplit, hpar, -, hl, hol, -⟩ | ⟨kept', orphans', -, hok⟩
  · exact absurd hbd (ha.fresh b hb)
  · rcases ha.cases with ⟨-, -, hnil⟩ | ⟨init, p, -, hcan, hp⟩
    · rw [hnil] at htip
      cases htip
    · exact absurd hp.symm (hpar p (by rw [hcan]; simp))
  · obtain ⟨-, rfl⟩ := ha.kept_eq h hsplit hpar
    have := ha.guard l o hl rfl
    omega
  · exact ⟨_, _, hok⟩

/-- What a call can do to the engine and emit: nothing, for a block refused or a head that
has not advanced; attach a block; or move the solidified head forward.  The last two
then settle. -/
inductive Step (e : ReorgEngine) : Call → ReorgEngine → List Output → Prop
  | refused (d : DecodedBlock) (txInfos : List DecodedTxInfo) : Step e (.accept d txInfos) e []
  | stale (s p : ℕ) (hp : e.solidifiedHead = some p) (hs : s ≤ p) :
      Step e (.setSolidifiedHead s) e []
  | attached (d : DecodedBlock) (txInfos : List DecodedTxInfo)
      (kept orphans : List BufferedBlock) (h : Attaches e d kept orphans) :
      Step e (.accept d txInfos) (e.attach kept orphans d txInfos).1
        (e.attach kept orphans d txInfos).2
  | head (s : ℕ) (h : ∀ p, e.solidifiedHead = some p → p < s) :
      Step e (.setSolidifiedHead s) ((e.withHead s).settle []).1 ((e.withHead s).settle []).2

/-- What holds of all that attaching and settling emit holds of all that a call emits. -/
theorem Step.forall_out {P : Output → Prop} {e e' : ReorgEngine} {c : Call} {out : List Output}
    (hs : Step e c e' out) (hset : ∀ f : ReorgEngine, ∀ o ∈ f.marks ++ f.resolutions, P o)
    (hat : ∀ d txInfos kept orphans, Attaches e d kept orphans →
      ∀ o ∈ e.attachOutputs orphans d txInfos, P o) : ∀ o ∈ out, P o := by
  cases hs with
  | refused => simp
  | stale => simp
  | attached d txInfos kept orphans ha =>
    rw [attach_snd]
    exact List.forall_mem_append.2 ⟨hat d txInfos kept orphans ha, hset _⟩
  | head s hs =>
    rw [settle_nil_snd]
    exact hset _

/-- **No call panics, and every call is a `Step`**, from any engine that meets the
invariant. -/
theorem call_step {e : ReorgEngine} (h : e.Wf) (c : Call) :
    ∃ e' out, e.call c = some (e', out) ∧ Step e c e' out := by
  cases c with
  | accept d txInfos =>
    have hcall : e.call (.accept d txInfos) =
        (e.accept d txInfos).map fun r => (r.1, emitted r.2) := rfl
    rcases accept_cases h d txInfos with ⟨-, ha⟩ | ⟨_, -, -, -, ha⟩ |
      ⟨_, _, _, _, _, -, -, -, -, -, ha⟩ | ⟨kept, orphans, hat, ha⟩
    · exact ⟨e, [], by rw [hcall, ha]; rfl, .refused d txInfos⟩
    · exact ⟨e, [], by rw [hcall, ha]; rfl, .refused d txInfos⟩
    · exact ⟨e, [], by rw [hcall, ha]; rfl, .refused d txInfos⟩
    · exact ⟨_, _, by rw [hcall, ha]; rfl, .attached d txInfos kept orphans hat⟩
  | setSolidifiedHead s =>
    by_cases hs : ∀ p, e.solidifiedHead = some p → p < s
    · exact ⟨_, _, congrArg some (setSolidifiedHead_eq h hs), .head s hs⟩
    · push Not at hs
      obtain ⟨p, hp, hsp⟩ := hs
      refine ⟨e, [], ?_, .stale s p hp hsp⟩
      simp [call, setSolidifiedHead, hp, hsp]

/-- A call that returned was a `Step`. -/
theorem step_of_call {e e' : ReorgEngine} {c : Call} {out : List Output} (h : e.Wf)
    (hc : e.call c = some (e', out)) : Step e c e' out := by
  obtain ⟨e₁, out₁, h₁, hstep⟩ := call_step h c
  rw [hc] at h₁
  obtain ⟨rfl, rfl⟩ := Prod.mk.inj (Option.some.inj h₁)
  exact hstep

/-- The ids stay distinct when a block attaches. -/
theorem Attaches.nodup {e : ReorgEngine} (h : e.Wf) {d : DecodedBlock}
    {kept orphans : List BufferedBlock} (ha : Attaches e d kept orphans)
    (forkId : UInt32) (txInfos : List DecodedTxInfo) :
    ((kept ++ [bufferedBlock forkId d txInfos]).map (·.blockId)).Nodup := by
  have hnd := h.nodup
  rw [ha.split, List.map_append] at hnd
  rw [List.map_append, List.nodup_append]
  refine ⟨(List.nodup_append.1 hnd).1, List.nodup_singleton _, ?_⟩
  intro i hi j hj hij
  obtain ⟨b, hb, rfl⟩ := List.mem_map.1 hi
  obtain rfl := List.mem_singleton.1 hj
  exact ha.fresh b (ha.split ▸ List.mem_append_left _ hb) hij

/-- The parents stay linked when a block attaches. -/
theorem Attaches.linked {e : ReorgEngine} (h : e.Wf) {d : DecodedBlock}
    {kept orphans : List BufferedBlock} (ha : Attaches e d kept orphans)
    (forkId : UInt32) (txInfos : List DecodedTxInfo) :
    (kept ++ [bufferedBlock forkId d txInfos]).IsChain fun a b => b.parentId = a.blockId := by
  have hl := h.linked
  rw [ha.split] at hl
  refine List.isChain_append.2 ⟨hl.left_of_append, List.isChain_singleton _, ?_⟩
  intro p hp b hb
  obtain rfl := Option.some.inj hb
  exact ha.parent p hp

/-- **The representation invariant is kept by every call**: ids and buffer in step, no id
twice, and each block the child of the one before it. -/
theorem Step.wf {e e' : ReorgEngine} {c : Call} {out : List Output} (h : e.Wf)
    (hs : Step e c e' out) : e'.Wf := by
  cases hs with
  | refused => exact h
  | stale => exact h
  | attached d txInfos kept orphans ha =>
    exact wf_settle _ rfl (ha.nodup h _ _) (ha.linked h _ _) h.window
  | head s hs => exact wf_settle _ h.ids h.nodup h.linked h.window

/-- **Every run keeps the engine well formed.** The invariant is carried over from one call
to the next. -/
theorem wf_of_run {e e' : ReorgEngine} {calls : List Call} {outs : List Output} (h : e.Wf)
    (hrun : Run.run call e calls = some (e', outs)) : e'.Wf :=
  Run.run_preserves (fun _ _ _ _ hI hc => (step_of_call hI hc).wf hI) h hrun

/-- A block that attached is still buffered afterwards. -/
theorem canonical_attach_ne_nil {e : ReorgEngine} (h : e.Wf) (kept orphans : List BufferedBlock)
    (d : DecodedBlock) (txInfos : List DecodedTxInfo) :
    (e.attach kept orphans d txInfos).1.canonical ≠ [] := by
  have hw : 0 < e.config.bufferWindow := Nat.zero_lt_of_lt h.window
  have hcfg : (e.attached kept orphans d txInfos).config = e.config := rfl
  have hlen : 0 < (e.attached kept orphans d txInfos).canonical.length := by simp [attached]
  rw [attach, settle_eq, Ne, List.drop_eq_nil_iff, hcfg]
  omega

/-- **A fresh engine never panics**, whatever it is fed. -/
theorem run_call {e : ReorgEngine} (h : e.Wf) (calls : List Call) :
    ∃ e' outs, Run.run call e calls = some (e', outs) ∧ e'.Wf := by
  refine Run.run_total (fun e c h => ?_) h calls
  obtain ⟨e', out, hc, hs⟩ := call_step h c
  exact ⟨e', out, hc, hs.wf h⟩

end ReorgEngine

end Relayer
end Lightcycle
