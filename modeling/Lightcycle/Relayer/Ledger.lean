/-
# The fork ledger

A reorg appends one observation to `fork_history` and emits it as `ForkObserved`; each
settling pops from the front what the solidified head has reached and emits it as
`ForkResolved`.  What was observed is therefore what was resolved followed by what is
pending (`Ledger`), for blocks of any heights.

The queue is in order of arrival, and `maybe_resolve_forks` stops at the first
observation above the head: one of a lower height behind it stays pending although the
head has reached it.  `Drains` is the condition on one call under which nothing stays
behind, and `forksResolved_iff_along` says that it is exact.
-/

import Lightcycle.Relayer.Announce

namespace Lightcycle
namespace Relayer

/-- The ledger entry of a `ForkObserved`. -/
def Output.observation : Output → Option ForkObservation
  | .forkObserved observedAtHeight keptTip orphanedTips =>
    some { observedAtHeight, keptTip, orphanedTips }
  | _ => none

/-- The ledger entry of a `ForkResolved`, its finalized tip read as the kept tip. -/
def Output.resolution : Output → Option ForkObservation
  | .forkResolved observedAtHeight _ finalizedTip orphanedTips =>
    some { observedAtHeight, keptTip := finalizedTip, orphanedTips }
  | _ => none

/-- The id of an `Undo`. -/
def Output.undoneId : Output → Option BlockId
  | .undo s => some s.block.blockId
  | _ => none

/-- The forks observed, in order. -/
def observedForks (outs : List Output) : List ForkObservation :=
  outs.filterMap Output.observation

/-- The forks resolved, in order. -/
def resolvedForks (outs : List Output) : List ForkObservation :=
  outs.filterMap Output.resolution

/-- The ids undone, in order. -/
def undoneIds (outs : List Output) : List BlockId := outs.filterMap Output.undoneId

/-- The forks observed are those of either part. -/
theorem observedForks_append (outs outs' : List Output) :
    observedForks (outs ++ outs') = observedForks outs ++ observedForks outs' :=
  List.filterMap_append

/-- So are the forks resolved. -/
theorem resolvedForks_append (outs outs' : List Output) :
    resolvedForks (outs ++ outs') = resolvedForks outs ++ resolvedForks outs' :=
  List.filterMap_append

/-- So are the ids undone. -/
theorem undoneIds_append (outs outs' : List Output) :
    undoneIds (outs ++ outs') = undoneIds outs ++ undoneIds outs' := List.filterMap_append

/-- A `ForkResolved` is at or below the head it names. -/
def Output.HeadReached : Output → Prop
  | .forkResolved observedAtHeight finalizedHead _ _ => observedAtHeight ≤ finalizedHead
  | _ => True

/-- **What a call records**: it observes a fork exactly when it undoes something, and then
one, with the ids undone in order and with the height and id of the one block it adds. -/
structure Recorded (out : List Output) : Prop where
  observed_iff : observedForks out ≠ [] ↔ undoneIds out ≠ []
  entry : undoneIds out ≠ [] → ∃ b, accepted out = [b] ∧
    observedForks out = [⟨b.height, b.blockId, undoneIds out⟩]

/-- Nothing was undone and nothing is recorded. -/
theorem recorded_nil : Recorded [] :=
  ⟨⟨fun h => absurd rfl h, fun h => absurd rfl h⟩, fun h => absurd rfl h⟩

namespace ReorgEngine

variable {e e' f : ReorgEngine} {outs out hist : List Output} {c : Call}

/-! ### What one call adds to the ledger -/

/-- Settling observes no forks. -/
theorem observedForks_settled (e : ReorgEngine) :
    observedForks (e.marks ++ e.resolutions) = [] :=
  List.filterMap_eq_nil_iff.2 (e.forall_settled (fun _ _ => rfl) fun _ _ => rfl)

/-- Settling undoes nothing. -/
theorem undoneIds_settled (e : ReorgEngine) : undoneIds (e.marks ++ e.resolutions) = [] := by
  refine List.filterMap_eq_nil_iff.2 fun o ho => ?_
  have := e.idle_settled o ho
  cases o with
  | undo s => exact this.elim
  | _ => rfl

/-- It resolves the entries that the head has reached. -/
theorem resolvedForks_settled (e : ReorgEngine) :
    resolvedForks (e.marks ++ e.resolutions) = e.resolved := by
  have hmarks : resolvedForks e.marks = [] := by
    refine List.filterMap_eq_nil_iff.2 fun o ho => ?_
    obtain ⟨b, -, rfl⟩ := List.mem_map.1 ho
    rfl
  have hres : resolvedForks e.resolutions = e.resolved := by
    rw [resolvedForks, resolutions, List.filterMap_map]
    exact List.filterMap_some
  rw [resolvedForks_append, hmarks, hres, List.nil_append]

/-- The orphans are undone, the tip first. -/
theorem undoneIds_attachOutputs (e : ReorgEngine) (orphans : List BufferedBlock)
    (d : DecodedBlock) (txInfos : List DecodedTxInfo) :
    undoneIds (e.attachOutputs orphans d txInfos) = orphans.reverse.map (·.blockId) := by
  have hundo : ∀ l : List BufferedBlock,
      undoneIds (l.map (undoOf e.solidifiedHead)) = l.map (·.blockId) := by
    intro l
    induction l with
    | nil => rfl
    | cons b l ih =>
      rw [List.map_cons, List.map_cons, ← ih]
      rfl
  have hrest : undoneIds (e.newOf (bufferedBlock e.nextForkId d txInfos) ::
      (observations d orphans).map fun o =>
        .forkObserved o.observedAtHeight o.keptTip o.orphanedTips) = [] := by
    refine List.filterMap_eq_nil_iff.2 fun o ho => ?_
    rcases List.mem_cons.1 ho with rfl | ho
    · rfl
    · obtain ⟨g, -, rfl⟩ := List.mem_map.1 ho
      rfl
  rw [attachOutputs, undoneIds_append, hundo, hrest, List.append_nil]

/-- A reorg observes one fork, and no other block does. -/
theorem observedForks_attachOutputs (e : ReorgEngine) (orphans : List BufferedBlock)
    (d : DecodedBlock) (txInfos : List DecodedTxInfo) :
    observedForks (e.attachOutputs orphans d txInfos) = observations d orphans := by
  have hundo : observedForks (orphans.reverse.map (undoOf e.solidifiedHead)) = [] := by
    refine List.filterMap_eq_nil_iff.2 fun o ho => ?_
    obtain ⟨b, -, rfl⟩ := List.mem_map.1 ho
    rfl
  have hobs : observedForks ((observations d orphans).map fun o =>
      Output.forkObserved o.observedAtHeight o.keptTip o.orphanedTips) = observations d orphans := by
    rw [observedForks, List.filterMap_map]
    exact List.filterMap_some
  rw [attachOutputs, observedForks_append, hundo, List.nil_append]
  exact hobs

/-- Attaching a block resolves nothing by itself. -/
theorem resolvedForks_attachOutputs (e : ReorgEngine) (orphans : List BufferedBlock)
    (d : DecodedBlock) (txInfos : List DecodedTxInfo) :
    resolvedForks (e.attachOutputs orphans d txInfos) = [] :=
  List.filterMap_eq_nil_iff.2 (e.forall_attachOutputs (fun _ _ => rfl) rfl fun _ _ => rfl)

/-- What settling resolves and what it leaves pending is the queue. -/
theorem resolved_append_pending (e : ReorgEngine) : e.resolved ++ e.pending = e.forkHistory := by
  unfold resolved pending
  cases e.solidifiedHead with
  | none => rfl
  | some s => exact List.takeWhile_append_dropWhile

/-- What settling resolves is at or below the head it names. -/
theorem headReached_settled (e : ReorgEngine) :
    ∀ o ∈ e.marks ++ e.resolutions, o.HeadReached := by
  refine e.forall_settled (fun _ _ => trivial) fun g hg => ?_
  unfold resolved at hg
  cases hs : e.solidifiedHead with
  | none =>
    rw [hs] at hg
    cases hg
  | some s =>
    rw [hs] at hg
    have : g.observedAtHeight ≤ s := by simpa using List.mem_takeWhile_imp hg
    exact this

/-- Attaching a block resolves nothing, so nothing early. -/
theorem headReached_attachOutputs (e : ReorgEngine) (orphans : List BufferedBlock)
    (d : DecodedBlock) (txInfos : List DecodedTxInfo) :
    ∀ o ∈ e.attachOutputs orphans d txInfos, o.HeadReached :=
  e.forall_attachOutputs (fun _ _ => trivial) trivial fun _ _ => trivial

/-- **A reorg is recorded once**, with the ids it undid and the block it kept. -/
theorem recorded_attach (e : ReorgEngine) (kept orphans : List BufferedBlock) (d : DecodedBlock)
    (txInfos : List DecodedTxInfo) : Recorded (e.attach kept orphans d txInfos).2 := by
  have hobs : observedForks (e.attach kept orphans d txInfos).2 = observations d orphans := by
    rw [attach_snd, observedForks_append, observedForks_attachOutputs, observedForks_settled,
      List.append_nil]
  have hundo : undoneIds (e.attach kept orphans d txInfos).2 = orphans.reverse.map (·.blockId) := by
    rw [attach_snd, undoneIds_append, undoneIds_attachOutputs, undoneIds_settled, List.append_nil]
  have hnil : undoneIds (e.attach kept orphans d txInfos).2 ≠ [] ↔ orphans ≠ [] := by
    rw [hundo]
    simp
  constructor
  · rw [hnil, hobs, observations]
    split_ifs with ho
    · simp [ho]
    · simp [ho]
  · intro hne
    refine ⟨bufferedBlock e.nextForkId d txInfos, accepted_attach .., ?_⟩
    rw [hobs, observations, if_neg (hnil.1 hne), hundo]
    rfl

/-! ### The ledger -/

/-- The forks observed are those resolved followed by those pending, and none was resolved
before the head reached it. -/
structure Ledger (e : ReorgEngine) (outs : List Output) : Prop where
  observed : observedForks outs = resolvedForks outs ++ e.forkHistory
  reached : ∀ o ∈ outs, o.HeadReached

/-- The ledger of a fresh engine is empty. -/
theorem ledger_new {config : ReorgConfig} (h : ReorgEngine.new config = some e) : e.Ledger [] := by
  obtain rfl := eq_of_new h
  exact ⟨rfl, by simp⟩

/-- Settling moves the front of the queue to the forks resolved. -/
theorem Ledger.settle (h : f.Ledger hist) (pre : List Output) :
    (f.settle pre).1.Ledger (hist ++ (f.marks ++ f.resolutions)) := by
  constructor
  · rw [observedForks_append, observedForks_settled, List.append_nil, resolvedForks_append,
      resolvedForks_settled, List.append_assoc, settle_eq, resolved_append_pending]
    exact h.observed
  · intro o ho
    rcases List.mem_append.1 ho with ho | ho
    · exact h.reached o ho
    · exact f.headReached_settled o ho

/-- **One call and the ledger.** What it observes goes to the back of the queue, and what it
resolves comes off the front. -/
theorem Ledger.step (h : e.Ledger outs) (hs : Step e c e' out) : e'.Ledger (outs ++ out) := by
  cases hs with
  | refused => simpa using h
  | stale => simpa using h
  | attached d txInfos kept orphans ha =>
    have hat : (e.attached kept orphans d txInfos).Ledger
        (outs ++ e.attachOutputs orphans d txInfos) := by
      constructor
      · rw [observedForks_append, observedForks_attachOutputs, resolvedForks_append,
          resolvedForks_attachOutputs, List.append_nil, h.observed, List.append_assoc]
        rfl
      · intro o ho
        rcases List.mem_append.1 ho with ho | ho
        · exact h.reached o ho
        · exact e.headReached_attachOutputs _ _ _ o ho
    rw [attach_snd, ← List.append_assoc]
    exact hat.settle _
  | head s hs =>
    rw [settle_nil_snd]
    have hw : (e.withHead s).Ledger outs := ⟨h.observed, h.reached⟩
    exact hw.settle []

/-- Whatever a call does is recorded. -/
theorem Step.recorded (hs : Step e c e' out) : Recorded out := by
  cases hs with
  | refused => exact recorded_nil
  | stale => exact recorded_nil
  | attached d txInfos kept orphans ha => exact recorded_attach ..
  | head s hs =>
    rw [settle_nil_snd]
    constructor
    · rw [observedForks_settled, undoneIds_settled]
      exact recorded_nil.observed_iff
    · intro hne
      rw [undoneIds_settled] at hne
      exact absurd rfl hne

end ReorgEngine

/-- **The fork ledger is complete and unaltered.**  After any calls of a fresh engine, the
forks observed are those resolved followed by the pending ones, each resolved at a head at
or above it; and the next `accept` observes a fork exactly when it undoes something, with
the ids undone and the height and id of the block it adds. -/
theorem runFresh_ledger (config : ReorgConfig) (h : config.finalityDepth < config.bufferWindow)
    (calls : List Call) :
    ∃ e outs, runFresh config calls = some (e, outs) ∧
      (∀ d txInfos, ∃ e' r, e.accept d txInfos = some (e', r) ∧ Recorded (emitted r)) ∧
      observedForks outs = resolvedForks outs ++ e.forkHistory ∧
      ∀ o ∈ outs, o.HeadReached := by
  obtain ⟨e, outs, hr⟩ := runFresh_total h calls
  obtain ⟨e₀, hnew, hrun⟩ := Option.bind_eq_some_iff.1 hr
  have hreached := reached_of_runFresh hr
  have hledger : e.Reached outs ∧ e.Ledger outs :=
    Run.run_invariant (P := fun e outs => e.Reached outs ∧ e.Ledger outs)
      (fun _ _ _ _ _ hP hc =>
        ⟨hP.1.call hc, hP.2.step (ReorgEngine.step_of_call hP.1.wf hc)⟩)
      ⟨ReorgEngine.reached_new hnew, ReorgEngine.ledger_new hnew⟩ hrun
  refine ⟨e, outs, hr, fun d txInfos => ?_, hledger.2.observed, hledger.2.reached⟩
  obtain ⟨e', out, hcall, hstep⟩ := ReorgEngine.call_step hreached.wf (.accept d txInfos)
  obtain ⟨⟨e₁, r⟩, hacc, hout⟩ := Option.map_eq_some_iff.1 hcall
  obtain ⟨-, rfl⟩ := Prod.mk.inj hout
  exact ⟨e₁, r, hacc, hstep.recorded⟩

/-- The default configuration is one of them; the second block is replaced twice, and one
of the forks is resolved. -/
theorem runFresh_ledger_default :
    ReorgConfig.default.finalityDepth < ReorgConfig.default.bufferWindow ∧
      ∃ e outs, runFresh ReorgConfig.default [.accept (synthAt 1 0 0) [], .accept (synthAt 2 0 0) [],
          .accept (synthAt 2 1 0) [], .accept (synthAt 2 2 0) [], .setSolidifiedHead 2] =
            some (e, outs) ∧
        (∀ d txInfos, ∃ e' r, e.accept d txInfos = some (e', r) ∧ Recorded (emitted r)) ∧
        observedForks outs = resolvedForks outs ++ e.forkHistory ∧
        ∀ o ∈ outs, o.HeadReached :=
  ⟨by decide, runFresh_ledger _ (by decide) _⟩

/-! ### Forks left behind -/

/-- Dropping the front up to the first entry above `s` leaves only entries above `s` exactly
when no entry at or below `s` is behind one above. -/
theorem forall_dropWhile_lt_iff (s : ℕ) (q : List ForkObservation) :
    (∀ f ∈ q.dropWhile fun o => decide (o.observedAtHeight ≤ s), s < f.observedAtHeight) ↔
      q.Pairwise fun f g => g.observedAtHeight ≤ s → f.observedAtHeight ≤ s := by
  induction q with
  | nil => simp
  | cons f q ih =>
    rw [List.dropWhile_cons, List.pairwise_cons]
    by_cases hf : f.observedAtHeight ≤ s
    · rw [if_pos (decide_eq_true hf), ih]
      exact ⟨fun h => ⟨fun _ _ _ => hf, h⟩, fun h => h.2⟩
    · rw [if_neg (by simpa using hf), List.forall_mem_cons]
      constructor
      · rintro ⟨-, hq⟩
        refine ⟨fun g hg hgs => absurd (hq g hg) (by omega), ?_⟩
        exact List.pairwise_of_forall_mem_list fun f' _ g hg hgs => absurd (hq g hg) (by omega)
      · rintro ⟨hcross, -⟩
        refine ⟨by omega, fun g hg => ?_⟩
        by_contra hgs
        exact hf (hcross g hg (by omega))

namespace ReorgEngine

variable {e e' : ReorgEngine} {out : List Output} {c : Call}

/-- Nothing that the solidified head has reached is pending. -/
def ForksResolved (e : ReorgEngine) : Prop :=
  ∀ s, e.solidifiedHead = some s → ∀ f ∈ e.forkHistory, s < f.observedAtHeight

/-- Accepting `d` orphans something. -/
def Reorgs (e : ReorgEngine) (d : DecodedBlock) : Prop :=
  ∃ kept o orphans, Attaches e d kept (o :: orphans)

/-- The call leaves nothing behind: a reorg to a height the head has reached finds the queue
empty, and in the queue that a head `s` drains no entry at or below `s` is behind one above. -/
def Drains (e : ReorgEngine) : Call → Prop
  | .accept d _ => ∀ s, e.solidifiedHead = some s → d.header.height ≤ s → e.Reorgs d →
      e.forkHistory = []
  | .setSolidifiedHead s => e.forkHistory.Pairwise fun f g =>
      g.observedAtHeight ≤ s → f.observedAtHeight ≤ s

/-- A block refused would not have orphaned anything. -/
theorem not_reorgs_of_error (h : e.Wf) {d : DecodedBlock} {txInfos : List DecodedTxInfo}
    {err : ReorgError} (hacc : e.accept d txInfos = some (e', .error err)) : ¬ e.Reorgs d := by
  rintro ⟨kept, o, orphans, ha⟩
  obtain ⟨e', out, hok⟩ := ha.accept_ok h txInfos
  rw [hacc] at hok
  cases hok

/-- Settling leaves nothing that the head has reached exactly when no reached entry is
behind one that is not. -/
theorem forksResolved_settle_iff {f : ReorgEngine} (pre : List Output) :
    (f.settle pre).1.ForksResolved ↔ ∀ s, f.solidifiedHead = some s →
      f.forkHistory.Pairwise fun g g' => g'.observedAtHeight ≤ s → g.observedAtHeight ≤ s := by
  rw [settle_eq]
  refine forall_congr' fun s => imp_congr_right fun hs => ?_
  rw [← forall_dropWhile_lt_iff]
  simp only [pending, show f.solidifiedHead = some s from hs, Option.elim_some]

/-- Attaching a block leaves a fork behind exactly when the block replaces others at a height
the head has reached while something is pending. -/
theorem Attaches.forksResolved_iff (h : e.Wf) {d : DecodedBlock}
    {kept orphans : List BufferedBlock} (ha : Attaches e d kept orphans)
    (txInfos : List DecodedTxInfo) (hres : e.ForksResolved) :
    (e.attach kept orphans d txInfos).1.ForksResolved ↔ e.Drains (.accept d txInfos) := by
  rw [attach, forksResolved_settle_iff]
  refine forall_congr' fun s => imp_congr_right fun hs => ?_
  have hpending := hres s hs
  have hfirst : e.forkHistory.Pairwise fun f g => g.observedAtHeight ≤ s →
      f.observedAtHeight ≤ s :=
    List.pairwise_of_forall_mem_list fun f _ g hg hgs => absurd (hpending g hg) (by omega)
  have hq : (e.attached kept orphans d txInfos).forkHistory =
      e.forkHistory ++ observations d orphans := rfl
  rw [hq, List.pairwise_append]
  cases orphans with
  | nil =>
    refine ⟨fun _ _ hre => ?_, fun _ => ⟨hfirst, List.Pairwise.nil, by simp [observations]⟩⟩
    obtain ⟨kept', o, orphans', ha'⟩ := hre
    cases ha.orphans_eq h ha'
  | cons o orphans =>
    have hobs : observations d (o :: orphans) = [observation d (o :: orphans)] := by
      simp [observations]
    rw [hobs]
    constructor
    · rintro ⟨-, -, hcross⟩ hle -
      refine List.eq_nil_iff_forall_not_mem.2 fun f hf => ?_
      have hfs := hcross f hf _ (List.mem_singleton_self _) hle
      have := hpending f hf
      omega
    · intro hd
      refine ⟨hfirst, List.pairwise_singleton _ _, fun f hf g hg hgs => ?_⟩
      obtain rfl := List.mem_singleton.1 hg
      rw [hd hgs ⟨kept, o, orphans, ha⟩] at hf
      cases hf

/-- **One call and the forks left behind.** After it nothing is pending that the head has
reached exactly when the call drains the queue. -/
theorem forksResolved_call_iff (h : e.Wf) (hres : e.ForksResolved)
    (hc : e.call c = some (e', out)) : e'.ForksResolved ↔ e.Drains c := by
  cases c with
  | setSolidifiedHead s =>
    have hstep := step_of_call h hc
    cases hstep with
    | stale _ p hp hs =>
      refine ⟨fun _ => ?_, fun _ => hres⟩
      refine List.pairwise_of_forall_mem_list fun f _ g hg hgs => ?_
      have := hres p hp g hg
      omega
    | head _ hs =>
      rw [forksResolved_settle_iff]
      refine ⟨fun hpw => hpw s rfl, fun hd s' hs' => ?_⟩
      obtain rfl := Option.some.inj hs'
      exact hd
  | accept d txInfos =>
    obtain ⟨⟨e₁, r⟩, hacc, hout⟩ := Option.map_eq_some_iff.1 hc
    obtain ⟨rfl, -⟩ := Prod.mk.inj hout
    have hrefused : ∀ err, e.accept d txInfos = some (e, .error err) →
        (e₁.ForksResolved ↔ e.Drains (.accept d txInfos)) := by
      intro err herr
      have hnot := not_reorgs_of_error h herr
      rw [hacc] at herr
      obtain ⟨rfl, -⟩ := Prod.mk.inj (Option.some.inj herr)
      exact ⟨fun _ s _ _ hre => absurd hre hnot, fun _ => hres⟩
    rcases accept_cases h d txInfos with ⟨-, herr⟩ | ⟨tip, -, -, -, herr⟩ |
      ⟨pre, a, o, post, l, -, -, -, -, -, herr⟩ | ⟨kept, orphans, ha, hok⟩
    · exact hrefused _ herr
    · exact hrefused _ herr
    · exact hrefused _ herr
    · rw [hacc] at hok
      obtain ⟨rfl, -⟩ := Prod.mk.inj (Option.some.inj hok)
      exact ha.forksResolved_iff h txInfos hres

end ReorgEngine

/-- **When forks are resolved as soon as the head reaches them.**  In every state of a run of
a fresh engine nothing the head has reached is pending, exactly when every call of the run
leaves nothing behind. -/
theorem forksResolved_iff_along (config : ReorgConfig) (calls : List Call) (e₀ : ReorgEngine)
    (hnew : ReorgEngine.new config = some e₀) :
    (∀ pre post e outs, calls = pre ++ post →
      Run.run ReorgEngine.call e₀ pre = some (e, outs) → e.ForksResolved) ↔
      Run.Along ReorgEngine.Drains ReorgEngine.call e₀ calls := by
  refine Run.forall_reached_iff_along (K := ReorgEngine.Wf) (fun e c hw => ?_)
    (fun e c e' out hw hres hc => ReorgEngine.forksResolved_call_iff hw hres hc)
    (ReorgEngine.wf_new hnew) ?_ calls
  · obtain ⟨e', out, hc, hs⟩ := ReorgEngine.call_step hw c
    exact ⟨e', out, hc, hs.wf hw⟩
  · obtain rfl := ReorgEngine.eq_of_new hnew
    intro s hs
    cases hs

/-- A reorg at height 4, then one at height 3 that goes below it; then the head reaches
height 3. -/
def nestedReorgs : List Call :=
  [.accept (synthAt 1 0 0) [], .accept (synthAt 2 0 0) [], .accept (synthAt 3 0 0) [],
    .accept (synthAt 4 0 0) [], .accept (synthAt 4 1 0) [], .accept (synthAt 3 2 0) [],
    .setSolidifiedHead 3]

/-- **A fork can stay pending although the head has reached it.**  The deeper reorg is behind
the other one in the queue, and the queue is resolved from its front. -/
theorem fork_left_behind : ¬ ∀ (config : ReorgConfig) (calls : List Call) (e : ReorgEngine)
    (outs : List Output), runFresh config calls = some (e, outs) → e.ForksResolved := by
  intro h
  have hrun := h ReorgConfig.default nestedReorgs _ _ rfl 3 rfl ⟨3, synthId 3 2, [synthId 4 1,
    synthId 3 0]⟩ (by decide)
  exact absurd hrun (by decide)

/-- The hypothesis holds of the run of the nested reorgs. -/
theorem forksResolved_iff_along_nested :
    ∃ e₀, ReorgEngine.new ReorgConfig.default = some e₀ ∧
      ((∀ pre post e outs, nestedReorgs = pre ++ post →
        Run.run ReorgEngine.call e₀ pre = some (e, outs) → e.ForksResolved) ↔
        Run.Along ReorgEngine.Drains ReorgEngine.call e₀ nestedReorgs) :=
  ⟨_, rfl, forksResolved_iff_along ReorgConfig.default _ _ rfl⟩

end Relayer
end Lightcycle
