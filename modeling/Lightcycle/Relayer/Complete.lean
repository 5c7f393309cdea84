/-
# Irreversible once, and completely

The high-water mark makes each `Irreversible` higher than those before it, whatever is
fed to the engine, and the walk names no block above the solidified head.  Under the
chain rule the mark does more: a block that attaches is above it, so between calls a
buffered block at or below the mark was announced (`Named`) and one at or below the
solidified head is at or below the mark (`Caught`).  So the buffered blocks the head
has reached are the buffered blocks announced.

The tier of an `Undo` follows from the same two facts and not from the finality guard,
which does not look at the solidified head: the guard keeps the orphans above the
mark, so the head has not reached them.
-/

import Lightcycle.Relayer.Survivor

namespace Lightcycle
namespace Relayer

/-- An `Irreversible` is finalized at a solidified head at or above its height. -/
def Output.Finalized : Output → Prop
  | .irreversible s => s.finality.tier = .finalized ∧
      ∃ h, s.finality.solidifiedHead = some h ∧ s.block.height ≤ h
  | _ => True

/-- An `Undo` is of a block only seen. -/
def Output.UndoesSeen : Output → Prop
  | .undo s => s.finality.tier = .seen
  | _ => True

/-- The solidified head is known and has reached the height. -/
def HeadReaches (e : ReorgEngine) (height : ℕ) : Prop :=
  ∃ s, e.solidifiedHead = some s ∧ height ≤ s

namespace ReorgEngine

variable {e e' f : ReorgEngine} {outs out hist : List Output} {c : Call}

/-- The blocks crossed are at or below the head. -/
theorem headReaches_of_mem_crossed {b : BufferedBlock} (hb : b ∈ e.crossed) :
    HeadReaches e b.height := by
  cases hs : e.solidifiedHead with
  | none =>
    rw [crossed_eq_nil hs] at hb
    cases hb
  | some s =>
    rw [crossed_eq hs] at hb
    exact ⟨s, hs, mem_reach_le ((crossing_sublist ..).subset hb)⟩

/-! ### The envelopes of one call -/

/-- What settling announces is finalized. -/
theorem finalized_settled (e : ReorgEngine) : ∀ o ∈ e.marks ++ e.resolutions, o.Finalized := by
  refine e.forall_settled (fun b hb => ?_) fun _ _ => trivial
  obtain ⟨s, hs, hle⟩ := headReaches_of_mem_crossed hb
  exact ⟨rfl, s, by rw [hs]; rfl, hle⟩

/-- **Every `Irreversible` is finalized**, for blocks of any heights: it is at or below the
head it carries, and its tier says so. -/
theorem Step.finalized (hs : Step e c e' out) : ∀ o ∈ out, o.Finalized :=
  hs.forall_out finalized_settled fun _ _ _ _ _ =>
    e.forall_attachOutputs (fun _ _ => trivial) trivial fun _ _ => trivial

/-- **A reorg orphans only blocks above the solidified head**, once the announcements have
caught up with it. -/
theorem Attaches.not_headReaches {d : DecodedBlock} {kept orphans : List BufferedBlock}
    (ha : Attaches e d kept orphans) (hcaught : e.Caught) (hasc : Ascending e.canonical)
    {o : BufferedBlock} (ho : o ∈ orphans) : ¬ HeadReaches e o.height := by
  rintro ⟨s, hs, hle⟩
  obtain ⟨l, hl, hol⟩ := hcaught s hs o (by rw [ha.split]; exact List.mem_append_right _ ho) hle
  have hpw := hasc.pairwise
  rw [ha.split] at hpw
  cases orphans with
  | nil => cases ho
  | cons p os =>
    have hguard := ha.guard l p hl rfl
    rcases List.mem_cons.1 ho with rfl | ho
    · omega
    · have := (List.pairwise_cons.1 (List.pairwise_append.1 hpw).2.1).1 o ho
      omega

/-- **Every `Undo` is of a block only seen.** A reorg does not reach below the high-water
mark, and the mark has caught up with the head. -/
theorem Step.undoesSeen (hs : Step e c e' out) (hcaught : e.Caught)
    (hasc : Ascending e.canonical) : ∀ o ∈ out, o.UndoesSeen := by
  refine hs.forall_out (fun f => f.forall_settled (fun _ _ => trivial) fun _ _ => trivial)
    fun d txInfos kept orphans ha => ?_
  refine e.forall_attachOutputs (fun b hb => ?_) trivial fun _ _ => trivial
  have hnot := ha.not_headReaches hcaught hasc hb
  have htier : FinalityTier.derive b.height e.solidifiedHead false = .seen := by
    cases hsol : e.solidifiedHead with
    | none => rfl
    | some s => exact if_neg fun hle => hnot ⟨s, hsol, hle⟩
  exact htier

/-! ### Runs -/

/-- What was announced is at or below the solidified head. -/
def Headed (e : ReorgEngine) (outs : List Output) : Prop :=
  ∀ b ∈ irreversibles outs, HeadReaches e b.height

/-- What settling announces is at or below the head. -/
theorem Headed.settle (h : f.Headed hist) (pre : List Output) :
    (f.settle pre).1.Headed (hist ++ (f.marks ++ f.resolutions)) := by
  rw [settle_eq]
  intro b hb
  rw [irreversibles_append, irreversibles_settled] at hb
  rcases List.mem_append.1 hb with hb | hb
  · exact h b hb
  · have hreach : HeadReaches f b.height := headReaches_of_mem_crossed hb
    exact hreach

/-- The head only rises, so it stays above what was announced. -/
theorem Headed.step (h : e.Headed outs) (hs : Step e c e' out) : e'.Headed (outs ++ out) := by
  cases hs with
  | refused => simpa using h
  | stale => simpa using h
  | attached d txInfos kept orphans ha =>
    have hirr := e.irreversibles_append_attachOutputs outs orphans d txInfos
    have hat : (e.attached kept orphans d txInfos).Headed
        (outs ++ e.attachOutputs orphans d txInfos) := by
      intro b hb
      rw [hirr] at hb
      exact h b hb
    rw [attach_snd, ← List.append_assoc]
    exact hat.settle _
  | head s hs =>
    rw [settle_nil_snd]
    have hw : (e.withHead s).Headed outs := by
      intro b hb
      obtain ⟨p, hp, hle⟩ := h b hb
      have := hs p hp
      exact ⟨s, rfl, by omega⟩
    exact hw.settle []

/-- What holds of a run's announcements, for blocks of any heights. -/
structure Announcing (e : ReorgEngine) (outs : List Output) : Prop where
  wf : e.Wf
  rising : e.Rising outs
  headed : e.Headed outs
  finalized : ∀ o ∈ outs, o.Finalized

/-- One call goes on announcing as before. -/
theorem Announcing.call (h : e.Announcing outs) (hc : e.call c = some (e', out)) :
    e'.Announcing (outs ++ out) := by
  have hs := step_of_call h.wf hc
  refine ⟨hs.wf h.wf, h.rising.step hs, h.headed.step hs, fun o ho => ?_⟩
  rcases List.mem_append.1 ho with ho | ho
  · exact h.finalized o ho
  · exact hs.finalized o ho

/-- So does a run of a fresh engine. -/
theorem announcing_of_runFresh {config : ReorgConfig} {calls : List Call}
    (h : runFresh config calls = some (e, outs)) : e.Announcing outs := by
  obtain ⟨e₀, hnew, hrun⟩ := Option.bind_eq_some_iff.1 h
  have h₀ : e₀.Announcing [] :=
    ⟨wf_new hnew, e₀.rising_nil, by simp [Headed, irreversibles], by simp⟩
  exact Run.run_invariant (fun _ _ _ _ _ hP hc => hP.call hc) h₀ hrun

/-- Under the chain rule a run keeps its ledger, and undoes blocks only seen. -/
theorem ledgered_of_runFresh {config : ReorgConfig} {calls : List Call}
    (h : runFresh config calls = some (e, outs)) (hc : ChainRule outs) :
    e.Ledgered outs ∧ ∀ o ∈ outs, o.UndoesSeen := by
  obtain ⟨e₀, hnew, hrun⟩ := Option.bind_eq_some_iff.1 h
  refine Run.run_invariant_of_hist
    (P := fun e outs => e.Ledgered outs ∧ ∀ o ∈ outs, o.UndoesSeen) (H := ChainRule)
    (fun _ _ hc => hc.of_append) (fun s hist i s' out hP hc hcall => ?_)
    ⟨ledgered_new hnew, by simp⟩ hrun (show ChainRule ([] ++ outs) from hc)
  obtain ⟨hled, hseen⟩ := hP
  have hs := step_of_call hled.announced.reached.wf hcall
  have hasc := hled.announced.reached.tracks.ascending hc.of_append.isChain_height
  refine ⟨(hled.step hs hc).1, fun o ho => ?_⟩
  rcases List.mem_append.1 ho with ho | ho
  · exact hseen o ho
  · exact hs.undoesSeen hled.announced.caught hasc o ho

end ReorgEngine

/-- **Irreversible once, and completely.**  In every run of a fresh engine the heights
announced strictly increase, and each `Irreversible` is finalized at a solidified head at or
above its height.  Under the chain rule, after every call the buffered blocks that the
solidified head has reached are the buffered blocks announced, and every `Undo` of the run
is of a block only seen. -/
theorem runFresh_announces (config : ReorgConfig) (h : config.finalityDepth < config.bufferWindow)
    (calls : List Call) :
    ∃ e outs, runFresh config calls = some (e, outs) ∧
      ((irreversibles outs).Pairwise fun a b => a.height < b.height) ∧
      (∀ s, .irreversible s ∈ outs → s.finality.tier = .finalized ∧
        ∃ head, s.finality.solidifiedHead = some head ∧ s.block.height ≤ head) ∧
      (ChainRule outs →
        (∀ pre post e₁ outs₁, calls = pre ++ post → runFresh config pre = some (e₁, outs₁) →
          ∀ b ∈ e₁.canonical, HeadReaches e₁ b.height ↔ b ∈ irreversibles outs₁) ∧
        ∀ s, .undo s ∈ outs → s.finality.tier = .seen) := by
  obtain ⟨e, outs, hr⟩ := runFresh_total h calls
  have hann := ReorgEngine.announcing_of_runFresh hr
  refine ⟨e, outs, hr, hann.rising.rising, fun s hs => hann.finalized _ hs, fun hc => ⟨?_, ?_⟩⟩
  · intro pre post e₁ outs₁ hsplit hr₁ b hb
    have hc₁ : ChainRule outs₁ := by
      obtain ⟨e₀, hnew, hrun₁⟩ := Option.bind_eq_some_iff.1 hr₁
      rw [runFresh, hnew, Option.bind_some, hsplit] at hr
      obtain ⟨t, out, rest, hpre, -, rfl⟩ := Run.run_append_eq_some.1 hr
      obtain ⟨-, rfl⟩ := Prod.mk.inj (Option.some.inj (hpre.symm.trans hrun₁))
      exact hc.of_append
    obtain ⟨hled, -⟩ := ReorgEngine.ledgered_of_runFresh hr₁ hc₁
    constructor
    · rintro ⟨s, hs, hle⟩
      exact hled.named.named b hb (hled.announced.caught s hs b hb hle)
    · exact fun hirr => (ReorgEngine.announcing_of_runFresh hr₁).headed b hirr
  · exact fun s hs => (ReorgEngine.ledgered_of_runFresh hr hc).2 _ hs

/-- The default configuration is one of them, and this run, in which a reorg lands above a
finalized block, meets the chain rule. -/
theorem runFresh_announces_default :
    ReorgConfig.default.finalityDepth < ReorgConfig.default.bufferWindow ∧
      ∃ e outs, runFresh ReorgConfig.default [.accept (synthAt 1 0 0) [], .accept (synthAt 2 0 0) [],
          .setSolidifiedHead 1, .accept (synthAt 2 1 0) [], .setSolidifiedHead 2] =
            some (e, outs) ∧
        ((irreversibles outs).Pairwise fun a b => a.height < b.height) ∧
        (∀ s, .irreversible s ∈ outs → s.finality.tier = .finalized ∧
          ∃ head, s.finality.solidifiedHead = some head ∧ s.block.height ≤ head) ∧
        ChainRule outs ∧
        (∀ pre post e₁ outs₁, [Call.accept (synthAt 1 0 0) [], .accept (synthAt 2 0 0) [],
            .setSolidifiedHead 1, .accept (synthAt 2 1 0) [], .setSolidifiedHead 2] = pre ++ post →
          runFresh ReorgConfig.default pre = some (e₁, outs₁) →
          ∀ b ∈ e₁.canonical, HeadReaches e₁ b.height ↔ b ∈ irreversibles outs₁) ∧
        ∀ s, .undo s ∈ outs → s.finality.tier = .seen := by
  have hrule : (runFresh ReorgConfig.default [.accept (synthAt 1 0 0) [],
      .accept (synthAt 2 0 0) [], .setSolidifiedHead 1, .accept (synthAt 2 1 0) [],
      .setSolidifiedHead 2]).map (fun r => decide (ChainRule r.2)) = some true := by
    decide +kernel
  obtain ⟨e, outs, hr, hrises, htier, hheads⟩ := runFresh_announces ReorgConfig.default (by decide)
    [.accept (synthAt 1 0 0) [], .accept (synthAt 2 0 0) [], .setSolidifiedHead 1,
      .accept (synthAt 2 1 0) [], .setSolidifiedHead 2]
  rw [hr] at hrule
  have hc : ChainRule outs := of_decide_eq_true (Option.some.inj hrule)
  exact ⟨by decide, e, outs, hr, hrises, htier, hc, (hheads hc).1, (hheads hc).2⟩

end Relayer
end Lightcycle
