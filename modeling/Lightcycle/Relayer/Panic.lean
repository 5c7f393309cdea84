/-
# No panic

The engine once more with everything that can panic spelled out: each `expect` on a
queue, each index into the buffer and each subtraction of `usize` is an operation
that may fail, and so is the branch of `handle_reorg` for an empty reorg, which the
source takes for unreachable.  The plain model leaves out those of them that the loop
around them rules out at a glance.

On an engine that meets the representation invariant nothing fails
(`acceptChecked_eq`), the invariant holds of a new engine and is kept by every call,
and so no run panics.
-/

import Lightcycle.Relayer.Replay

namespace Lightcycle
namespace Relayer

/-- `VecDeque::pop_front`. -/
def popFront {α : Type*} : List α → Option (α × List α)
  | [] => none
  | a :: l => some (a, l)

/-- A pop shortens the queue, so the two loops that pop end. -/
theorem length_of_popFront {α : Type*} {l rest : List α} {a : α}
    (h : popFront l = some (a, rest)) : rest.length < l.length := by
  cases l with
  | nil => cases h
  | cons b l =>
    obtain ⟨rfl, rfl⟩ := Prod.mk.inj (Option.some.inj h)
    exact Nat.lt_succ_self _

/-- A subtraction of `usize`. -/
def checkedSub (a b : ℕ) : Option ℕ := if b ≤ a then some (a - b) else none

/-- The loop of `maybe_resolve_forks`: look at the front, then pop it. -/
def resolveLoopChecked (s : ℕ) (os : List ForkObservation) :
    Option (List Output × List ForkObservation) :=
  match os.head? with
  | none => some ([], os)
  | some front =>
    if s < front.observedAtHeight then some ([], os)
    else
      match h : popFront os with
      | none => none
      | some (obs, rest) =>
        have := length_of_popFront h
        (resolveLoopChecked s rest).map fun r =>
          (.forkResolved obs.observedAtHeight s obs.keptTip obs.orphanedTips :: r.1, r.2)
termination_by os.length

/-- The loop of `maybe_prune_buffer`: look at the length, then pop the front. -/
def pruneLoopChecked (window : ℕ) (bs : List BufferedBlock) (ids : Finset BlockId) :
    Option (List BufferedBlock × Finset BlockId) :=
  if window < bs.length then
    match h : popFront bs with
    | none => none
    | some (dropped, rest) =>
      have := length_of_popFront h
      pruneLoopChecked window rest (ids.erase dropped.blockId)
  else some (bs, ids)
termination_by bs.length

/-- The orphans of `handle_reorg`, tip first, by index: `ancestor_idx + 1 .. len` in
reverse. -/
def orphansChecked (bs : List BufferedBlock) (ancestorIdx : ℕ) : Option (List BufferedBlock) :=
  (List.range' (ancestorIdx + 1) (bs.length - (ancestorIdx + 1))).reverse.mapM fun i => bs[i]?

namespace ReorgEngine

/-- `maybe_resolve_forks`. -/
def maybeResolveForksChecked (e : ReorgEngine) (out : List Output) :
    Option (ReorgEngine × List Output) :=
  match e.solidifiedHead with
  | none => some (e, out)
  | some s => (resolveLoopChecked s e.forkHistory).map fun r =>
      ({ e with forkHistory := r.2 }, out ++ r.1)

/-- `maybe_prune_buffer`. -/
def maybePruneBufferChecked (e : ReorgEngine) : Option ReorgEngine :=
  (pruneLoopChecked e.config.bufferWindow e.canonical e.canonicalIds).map fun r =>
    { e with canonical := r.1, canonicalIds := r.2 }

/-- `set_solidified_head`. -/
def setSolidifiedHeadChecked (e : ReorgEngine) (newHead : ℕ) : Option (ReorgEngine × List Output) :=
  if e.solidifiedHead.any fun prev => decide (newHead ≤ prev) then some (e, [])
  else
    let r := { e with solidifiedHead := some newHead }.maybeEmitIrreversible []
    r.1.maybeResolveForksChecked r.2

/-- The end of the three ingest paths. -/
def settleChecked (e : ReorgEngine) (out : List Output) : Option (ReorgEngine × List Output) := do
  let r := e.maybeEmitIrreversible out
  let r ← r.1.maybeResolveForksChecked r.2
  let pruned ← r.1.maybePruneBufferChecked
  return (pruned, r.2)

/-- `push_canonical_first` and `extend_canonical`. -/
def extendChecked (e : ReorgEngine) (decoded : DecodedBlock) (txInfos : List DecodedTxInfo) :
    Option (ReorgEngine × List Output) :=
  let r := e.pushNew decoded txInfos []
  r.1.settleChecked r.2

/-- `handle_reorg`; a reorg of nothing is a panic here. -/
def handleReorgChecked (e : ReorgEngine) (decoded : DecodedBlock) (txInfos : List DecodedTxInfo) :
    Option (ReorgEngine × Except ReorgError (List Output)) := do
  let ancestorIdx ← rposition (fun b => decide (b.blockId = decoded.header.parentId)) e.canonical
  let lastIdx ← checkedSub e.canonical.length 1
  let undoCount ← checkedSub lastIdx ancestorIdx
  if undoCount = 0 then none
  else
    match ← e.finalityGuard ancestorIdx with
    | some li => return (e, .error (.reorgBelowFinality decoded.header.height li))
    | none =>
      let orphans ← orphansChecked e.canonical ancestorIdx
      let out := orphans.map (undoOf e.solidifiedHead)
      let orphanedTips := orphans.map (·.blockId)
      let dropped ← popBackLoop undoCount e.canonical e.canonicalIds
      let r := { e with canonical := dropped.1, canonicalIds := dropped.2 }.pushNew decoded txInfos out
      let observation : ForkObservation :=
        { observedAtHeight := decoded.header.height, keptTip := decoded.header.blockId, orphanedTips }
      let out := r.2 ++ [.forkObserved decoded.header.height decoded.header.blockId orphanedTips]
      let r ← { r.1 with forkHistory := r.1.forkHistory ++ [observation] }.settleChecked out
      return (r.1, .ok r.2)

/-- `accept`. -/
def acceptChecked (e : ReorgEngine) (decoded : DecodedBlock) (txInfos : List DecodedTxInfo) :
    Option (ReorgEngine × Except ReorgError (List Output)) :=
  if decoded.header.blockId ∈ e.canonicalIds then
    some (e, .error (.duplicateBlock decoded.header.blockId))
  else if e.canonical.isEmpty then
    (e.extendChecked decoded txInfos).map fun r => (r.1, .ok r.2)
  else
    match e.canonical.getLast? with
    | none => none
    | some tip =>
      if decoded.header.parentId = tip.blockId then
        (e.extendChecked decoded txInfos).map fun r => (r.1, .ok r.2)
      else if decoded.header.parentId ∈ e.canonicalIds then
        e.handleReorgChecked decoded txInfos
      else
        some (e, .error (.parentNotInBuffer decoded.header.height decoded.header.parentId
          tip.height e.config.bufferWindow))

/-- One call and what it emits. -/
def callChecked (e : ReorgEngine) : Call → Option (ReorgEngine × List Output)
  | .accept decoded txInfos => (e.acceptChecked decoded txInfos).map fun r => (r.1, emitted r.2)
  | .setSolidifiedHead newHead => e.setSolidifiedHeadChecked newHead

end ReorgEngine

/-! ### Nothing fails -/

/-- `maybe_resolve_forks` pops only what it has just looked at. -/
theorem resolveLoopChecked_eq (s : ℕ) (os : List ForkObservation) :
    resolveLoopChecked s os = some (resolveLoop s os) := by
  induction os with
  | nil =>
    rw [resolveLoopChecked]
    rfl
  | cons o os ih =>
    rw [resolveLoopChecked, resolveLoop]
    simp only [List.head?_cons]
    split_ifs with h
    · rfl
    · split
      · rename_i hnone
        cases hnone
      · rename_i obs rest hpop
        obtain ⟨rfl, rfl⟩ := Prod.mk.inj (Option.some.inj hpop)
        rw [ih]
        rfl

/-- `maybe_prune_buffer` pops only from a buffer longer than its window, so not from an
empty one. -/
theorem pruneLoopChecked_eq (w : ℕ) (bs : List BufferedBlock) (ids : Finset BlockId) :
    pruneLoopChecked w bs ids = some (pruneLoop w bs ids) := by
  induction bs generalizing ids with
  | nil =>
    rw [pruneLoopChecked]
    rfl
  | cons b bs ih =>
    rw [pruneLoopChecked, pruneLoop]
    split_ifs with h
    · split
      · rename_i hnone
        cases hnone
      · rename_i dropped rest hpop
        obtain ⟨rfl, rfl⟩ := Prod.mk.inj (Option.some.inj hpop)
        exact ih _
    · rfl

/-- Every index of the loop over the orphans is in range. -/
theorem mapM_getElem?_reverse (kept orphans rest : List BufferedBlock) :
    ((List.range' kept.length orphans.length).reverse.mapM fun i =>
      (kept ++ orphans ++ rest)[i]?) = some orphans.reverse := by
  induction orphans using List.reverseRecOn generalizing rest with
  | nil => rfl
  | append_singleton orphans o ih =>
    have hget : (kept ++ (orphans ++ [o]) ++ rest)[kept.length + orphans.length]? = some o := by
      rw [← List.append_assoc, List.append_assoc (kept ++ orphans), List.getElem?_append_right
        (by simp)]
      simp
    have hih := ih ([o] ++ rest)
    rw [← List.append_assoc] at hih
    rw [List.length_append, List.length_singleton, List.range'_concat, List.reverse_append,
      List.reverse_append]
    simp only [List.reverse_singleton, List.singleton_append, List.mapM_cons, Nat.one_mul]
    rw [hget, ← List.append_assoc, hih]
    rfl

/-- Read by index, the orphans of a reorg are the blocks behind the ancestor, tip first. -/
theorem orphansChecked_eq (kept orphans : List BufferedBlock) {ancestorIdx : ℕ}
    (h : kept.length = ancestorIdx + 1) :
    orphansChecked (kept ++ orphans) ancestorIdx = some orphans.reverse := by
  have hall := mapM_getElem?_reverse kept orphans []
  rw [List.append_nil] at hall
  unfold orphansChecked
  rw [← h, List.length_append, Nat.add_sub_cancel_left]
  exact hall

namespace ReorgEngine

variable {e : ReorgEngine}

/-- With or without a head, resolving forks does not panic. -/
theorem maybeResolveForksChecked_eq (e : ReorgEngine) (out : List Output) :
    e.maybeResolveForksChecked out = some (e.maybeResolveForks out) := by
  unfold maybeResolveForksChecked maybeResolveForks
  cases e.solidifiedHead with
  | none => rfl
  | some s =>
    simp only
    rw [resolveLoopChecked_eq]
    rfl

/-- `set_solidified_head` does not panic on any engine: it never reads the buffer by
index. -/
theorem setSolidifiedHeadChecked_eq (e : ReorgEngine) (s : ℕ) :
    e.setSolidifiedHeadChecked s = some (e.setSolidifiedHead s) := by
  unfold setSolidifiedHeadChecked setSolidifiedHead
  split_ifs with h
  · rfl
  · exact maybeResolveForksChecked_eq _ _

/-- The common end of the ingest paths does not panic on any engine. -/
theorem settleChecked_eq (e : ReorgEngine) (out : List Output) :
    e.settleChecked out = some (e.settle out) := by
  unfold settleChecked settle maybePruneBufferChecked maybePruneBuffer
  simp only [maybeResolveForksChecked_eq, pruneLoopChecked_eq]
  rfl

/-- A reorg onto a buffered block behind which another is buffered does not panic: the
ancestor is found, both subtractions are of smaller numbers, something is undone, and every
orphan is where its index says. -/
theorem handleReorgChecked_eq (h : e.Wf) {d : DecodedBlock} (txInfos : List DecodedTxInfo)
    {pre post : List BufferedBlock} {a o : BufferedBlock}
    (hsplit : e.canonical = pre ++ a :: o :: post) (ha : d.header.parentId = a.blockId) :
    e.handleReorgChecked d txInfos = e.handleReorg d txInfos := by
  have hlen : e.canonical.length = pre.length + 1 + (o :: post).length := by
    rw [hsplit, List.length_append, List.length_cons]
    omega
  have hlast : checkedSub e.canonical.length 1 = some (e.canonical.length - 1) :=
    if_pos (by omega)
  have hundo : checkedSub (e.canonical.length - 1) pre.length =
      some (e.canonical.length - 1 - pre.length) :=
    if_pos (by omega)
  have hne : e.canonical.length - 1 - pre.length ≠ 0 := by
    rw [List.length_cons] at hlen
    omega
  have horphans : orphansChecked e.canonical pre.length =
      some (e.canonical.drop (pre.length + 1)).reverse := by
    have hkept : (pre ++ [a]).length = pre.length + 1 := by simp
    have hsplit' : e.canonical = (pre ++ [a]) ++ o :: post := by
      rw [hsplit, List.append_assoc, List.singleton_append]
    rw [hsplit', orphansChecked_eq _ _ hkept, List.drop_left' hkept]
  unfold handleReorgChecked handleReorg
  rw [h.rposition_eq hsplit ha]
  simp only [Option.bind_eq_bind, Option.bind_some, hlast, hundo, horphans, if_neg hne,
    finalityGuard_eq hsplit, settleChecked_eq]
  cases e.lastIrreversibleHeight.filter fun l => decide (o.height ≤ l) with
  | some li => rfl
  | none =>
    simp only
    cases popBackLoop (e.canonical.length - 1 - pre.length) e.canonical e.canonicalIds with
    | none => rfl
    | some dropped => rfl

/-- **On an engine that meets the invariant nothing fails**, and no reorg is of nothing. -/
theorem acceptChecked_eq (h : e.Wf) (d : DecodedBlock) (txInfos : List DecodedTxInfo) :
    e.acceptChecked d txInfos = e.accept d txInfos := by
  unfold acceptChecked accept extendChecked pushCanonicalFirst extendCanonical
  simp only [settleChecked_eq, Option.map_some]
  by_cases hdup : d.header.blockId ∈ e.canonicalIds
  · rw [if_pos hdup, if_pos hdup]
  rw [if_neg hdup, if_neg hdup]
  by_cases hempty : e.canonical.isEmpty = true
  · rw [if_pos hempty, if_pos hempty]
  rw [if_neg hempty, if_neg hempty]
  cases htip : e.canonical.getLast? with
  | none => rfl
  | some tip =>
    simp only
    split_ifs with hext hpar
    · rfl
    · obtain ⟨a, ha, hpa⟩ := h.mem_ids.1 hpar
      obtain ⟨pre, post, hsplit⟩ := List.append_of_mem ha
      cases post with
      | nil =>
        rw [hsplit, List.getLast?_concat, Option.some.injEq] at htip
        exact absurd (htip ▸ hpa.symm) hext
      | cons o post => exact handleReorgChecked_eq h txInfos hsplit hpa.symm
    · rfl

/-- Nothing fails in either call of the ingest surface. -/
theorem callChecked_eq (h : e.Wf) (c : Call) : e.callChecked c = e.call c := by
  cases c with
  | accept d txInfos => exact congrArg (Option.map _) (acceptChecked_eq h d txInfos)
  | setSolidifiedHead s => exact setSolidifiedHeadChecked_eq e s

/-! ### Runs -/

/-- No step empties the buffer: a refused block and a head leave it, and an attached block
is its last. -/
theorem Step.canonical_ne_nil {e' : ReorgEngine} {out : List Output} {c : Call} (h : e.Wf)
    (hs : Step e c e' out) (hne : e.canonical ≠ []) : e'.canonical ≠ [] := by
  cases hs with
  | refused | stale => exact hne
  | attached d txInfos kept orphans ha => exact canonical_attach_ne_nil h kept orphans d txInfos
  | head s hs =>
    have hz : (e.withHead s).canonical.length - (e.withHead s).config.bufferWindow = 0 :=
      Nat.sub_eq_zero_of_le h.len_le
    rw [settle_eq, hz, List.drop_zero]
    exact hne

/-- Nor does a run. -/
theorem canonical_ne_nil_of_run {e' : ReorgEngine} {calls : List Call} {outs : List Output}
    (h : e.Wf) (hne : e.canonical ≠ []) (hrun : Run.run call e calls = some (e', outs)) :
    e'.canonical ≠ [] := by
  have hstep : ∀ (s : ReorgEngine) (c : Call) (s' : ReorgEngine) (out : List Output),
      (s.Wf ∧ s.canonical ≠ []) → s.call c = some (s', out) → s'.Wf ∧ s'.canonical ≠ [] := by
    rintro s c s' out ⟨hw, hs⟩ hc
    have hcall := step_of_call hw hc
    exact ⟨hcall.wf hw, hcall.canonical_ne_nil hw hs⟩
  exact (Run.run_preserves hstep ⟨h, hne⟩ hrun).2

/-- An `accept` that returns `Ok` leaves a block in the buffer, whether the buffer held one
before or not, and whatever it emits. -/
theorem canonical_ne_nil_of_accept_ok {e' : ReorgEngine} {d : DecodedBlock}
    {txInfos : List DecodedTxInfo} {out : List Output} (h : e.Wf)
    (ha : e.accept d txInfos = some (e', .ok out)) : e'.canonical ≠ [] := by
  rcases accept_cases h d txInfos with ⟨-, herr⟩ | ⟨_, -, -, -, herr⟩ |
    ⟨_, _, _, _, _, -, -, -, -, -, herr⟩ | ⟨kept, orphans, -, hok⟩
  · rw [herr] at ha
    cases ha
  · rw [herr] at ha
    cases ha
  · rw [herr] at ha
    cases ha
  · rw [hok] at ha
    cases ha
    exact canonical_attach_ne_nil h kept orphans d txInfos

/-- No call changes the configuration. -/
theorem Step.config_eq {e' : ReorgEngine} {out : List Output} {c : Call} (hs : Step e c e' out) :
    e'.config = e.config := by
  cases hs with
  | refused => rfl
  | stale => rfl
  | attached d txInfos kept orphans ha => rw [attach, settle_eq]; rfl
  | head s hs => rw [settle_eq]; rfl

/-- A run keeps the configuration the engine was made with, and so its window. -/
theorem config_of_run {config : ReorgConfig} {e' : ReorgEngine} {calls : List Call}
    {outs : List Output} (hnew : ReorgEngine.new config = some e)
    (hrun : Run.run call e calls = some (e', outs)) : e'.config = config := by
  have hstep : ∀ (s : ReorgEngine) (c : Call) (s' : ReorgEngine) (out : List Output),
      (s.Wf ∧ s.config = config) → s.call c = some (s', out) → s'.Wf ∧ s'.config = config := by
    rintro s c s' out ⟨hw, hcfg⟩ hc
    have hs := step_of_call hw hc
    exact ⟨hs.wf hw, hs.config_eq.trans hcfg⟩
  have h₀ : e.Wf ∧ e.config = config := by
    refine ⟨wf_new hnew, ?_⟩
    obtain rfl := eq_of_new hnew
    rfl
  exact (Run.run_preserves hstep h₀ hrun).2

/-- A checked run is a run. -/
theorem run_callChecked (h : e.Wf) (calls : List Call) :
    Run.run callChecked e calls = Run.run call e calls := by
  induction calls generalizing e with
  | nil => rfl
  | cons c calls ih =>
    obtain ⟨e', out, hc, hs⟩ := call_step h c
    rw [Run.run, Run.run, callChecked_eq h, hc]
    simp only [Option.bind_some]
    rw [ih (hs.wf h)]

end ReorgEngine

/-- **The representation invariant, and no panic.**  Whatever a fresh engine is fed, it does
not panic: no `expect`, index or subtraction fails and no reorg is of nothing.  In every
state reached `canonical_ids` is the set of ids of `canonical`, those ids are distinct, each
buffered block's parent is the block before it, the buffer fits its window, and it is not
empty once an `accept` of the run has returned `Ok`. -/
theorem runFresh_checked (config : ReorgConfig) (e₀ : ReorgEngine)
    (hnew : ReorgEngine.new config = some e₀) (calls : List Call) :
    ∃ e outs, Run.run ReorgEngine.callChecked e₀ calls = some (e, outs) ∧
      Run.run ReorgEngine.call e₀ calls = some (e, outs) ∧
      e.canonicalIds = (e.canonical.map (·.blockId)).toFinset ∧
      (e.canonical.map (·.blockId)).Nodup ∧
      (e.canonical.IsChain fun a b => b.parentId = a.blockId) ∧
      e.len ≤ config.bufferWindow ∧
      ∀ pre d txInfos post e₁ outs₁ e₂ out, calls = pre ++ .accept d txInfos :: post →
        Run.run ReorgEngine.call e₀ pre = some (e₁, outs₁) →
          e₁.accept d txInfos = some (e₂, .ok out) → e.canonical ≠ [] := by
  have hw := ReorgEngine.wf_new hnew
  obtain ⟨e, outs, hrun, -⟩ := ReorgEngine.run_call hw calls
  have he : e.Wf := ReorgEngine.wf_of_run hw hrun
  refine ⟨e, outs, ?_, hrun, he.ids, he.nodup, he.linked, ?_, ?_⟩
  · rw [ReorgEngine.run_callChecked hw]
    exact hrun
  · rw [← ReorgEngine.config_of_run hnew hrun]
    exact he.len_le
  · rintro pre d txInfos post e₁ outs₁ e₂ out rfl hpre hok
    have hw₁ := ReorgEngine.wf_of_run hw hpre
    -- the run reaches the engine before that call, makes it, and goes on from `e₂`
    obtain ⟨e₁', _, _, hpre', hrest, -⟩ := Run.run_append_eq_some.1 hrun
    rw [hpre] at hpre'
    cases hpre'
    obtain ⟨e₂', _, _, hcall, hpost, -⟩ := Run.run_cons_eq_some.1 hrest
    have hcall' : e₁.call (.accept d txInfos) = some (e₂, out) := by
      rw [ReorgEngine.call, hok]
      rfl
    rw [hcall'] at hcall
    cases hcall
    exact ReorgEngine.canonical_ne_nil_of_run ((ReorgEngine.step_of_call hw₁ hcall').wf hw₁)
      (ReorgEngine.canonical_ne_nil_of_accept_ok hw₁ hok) hpost

/-- The default configuration is accepted; here a reorg orphans two blocks, and one of them
comes back.  The first block was accepted, so the buffer is not empty at the end. -/
theorem runFresh_checked_default :
    ∃ e₀, ReorgEngine.new ReorgConfig.default = some e₀ ∧
      ∃ e outs, Run.run ReorgEngine.callChecked e₀ [.accept (synthAt 1 0 0) [],
          .accept (synthAt 2 0 0) [], .accept (synthAt 3 0 0) [], .accept (synthAt 2 1 0) [],
          .accept (synthAt 2 0 0) []] = some (e, outs) ∧
        Run.run ReorgEngine.call e₀ [.accept (synthAt 1 0 0) [],
          .accept (synthAt 2 0 0) [], .accept (synthAt 3 0 0) [], .accept (synthAt 2 1 0) [],
          .accept (synthAt 2 0 0) []] = some (e, outs) ∧
        e.canonicalIds = (e.canonical.map (·.blockId)).toFinset ∧
        (e.canonical.map (·.blockId)).Nodup ∧
        (e.canonical.IsChain fun a b => b.parentId = a.blockId) ∧
        e.len ≤ ReorgConfig.default.bufferWindow ∧ e.canonical ≠ [] := by
  obtain ⟨e, outs, hchecked, hrun, hids, hnodup, hlinked, hlen, hne⟩ :=
    runFresh_checked ReorgConfig.default _ rfl [.accept (synthAt 1 0 0) [],
      .accept (synthAt 2 0 0) [], .accept (synthAt 3 0 0) [], .accept (synthAt 2 1 0) [],
      .accept (synthAt 2 0 0) []]
  exact ⟨_, rfl, e, outs, hchecked, hrun, hids, hnodup, hlinked, hlen,
    hne [] _ _ _ _ _ _ _ rfl rfl rfl⟩

end Relayer
end Lightcycle
