/-
# After a missed block

When the head polled does not attach to the buffer the engine answers
`ParentNotInBuffer`, and `process_one` logs it and leaves the engine as it was.  So
the next head is offered to the same buffer, and so is every later one: the service
does not move forward to the new head, it stays behind the gap.

`Attachable` is the condition under which `accept` takes a block once something is
buffered.  Whatever the solidified reads in between do, they leave the buffer alone,
so a sequence of polled heads yields a `New` exactly when one of them is attachable
to the buffer as it was before the first (`rounds_emit_iff`).  For a sequence of heads
that are each the parent of the next, starting above a gap, that means: one of the
heads is already buffered and the next one branches off above finality
(`gap_recovers_iff`).
-/

import Lightcycle.Relayer.Service
import Lightcycle.Relayer.Finality

namespace Lightcycle
namespace Relayer

open Store

/-- A tick whose head read succeeds. -/
structure Poll where
  srSet : Option SrSet
  solid : Except String (Option ℕ)
  head : FetchedBlock

/-- The tick of a poll. -/
def Poll.tick (p : Poll) : Tick := ⟨p.srSet, p.solid, .ok p.head⟩

/-- The header of the block polled. -/
def Poll.header (p : Poll) : DecodedHeader := p.head.decoded.header

namespace ReorgEngine

/-- The id is buffered. -/
def Buffers (e : ReorgEngine) (i : BlockId) : Prop := ∃ b ∈ e.canonical, b.blockId = i

instance (e : ReorgEngine) (i : BlockId) : Decidable (e.Buffers i) :=
  inferInstanceAs (Decidable (∃ b ∈ e.canonical, b.blockId = i))

/-- Branching off after the block `i` orphans nothing at or below the mark. -/
def BranchesAbove (e : ReorgEngine) (i : BlockId) : Prop :=
  ∀ pre a o post, e.canonical = pre ++ a :: o :: post → a.blockId = i →
    ¬ Covers e.lastIrreversibleHeight o.height

/-- What `accept` asks of a block once something is buffered. -/
def Attachable (e : ReorgEngine) (d : DecodedBlock) : Prop :=
  ¬ e.Buffers d.header.blockId ∧ e.Buffers d.header.parentId ∧ e.BranchesAbove d.header.parentId

/-- **`accept` takes exactly the attachable blocks**, once something is buffered. -/
theorem accept_attachable {e : ReorgEngine} (h : e.Wf) (hne : e.canonical ≠ []) (d : DecodedBlock)
    (txInfos : List DecodedTxInfo) :
    (e.Attachable d ∧ ∃ e' out, e.accept d txInfos = some (e', .ok out) ∧ e'.Wf ∧
      e'.canonical ≠ [] ∧ accepted out = [bufferedBlock e.nextForkId d txInfos]) ∨
    (¬ e.Attachable d ∧ ∃ err, e.accept d txInfos = some (e, .error err)) := by
  rcases accept_cases h d txInfos with ⟨⟨b, hb, hbd⟩, ha⟩ | ⟨tip, -, -, hgap, ha⟩ |
    ⟨pre, a, o, post, l, hs, hpa, -, hl, hol, ha⟩ | ⟨kept, orphans, hat, ha⟩
  · exact Or.inr ⟨fun hd => hd.1 ⟨b, hb, hbd⟩, _, ha⟩
  · refine Or.inr ⟨?_, _, ha⟩
    rintro ⟨-, ⟨b, hb, hbp⟩, -⟩
    exact hgap b hb hbp
  · refine Or.inr ⟨fun hd => ?_, _, ha⟩
    exact hd.2.2 pre a o post hs hpa.symm ⟨l, hl, hol⟩
  · refine Or.inl ⟨⟨?_, ?_, ?_⟩, _, _, ha, (Step.attached d txInfos kept orphans hat).wf h,
      canonical_attach_ne_nil h kept orphans d txInfos, accepted_attach ..⟩
    · rintro ⟨b, hb, hbd⟩
      exact hat.fresh b hb hbd
    · rcases hat.cases with ⟨-, -, hnil⟩ | ⟨init, p, -, hcan, hp⟩
      · exact absurd hnil hne
      · exact ⟨p, by rw [hcan]; simp, hp.symm⟩
    · rintro pre a o post hs hpa ⟨l, hl, hol⟩
      obtain ⟨-, rfl⟩ := hat.kept_eq h hs hpa.symm
      have := hat.guard l o hl rfl
      omega

/-- The engine after a solidified read. -/
def observe (e : ReorgEngine) (solid : Except String (Option ℕ)) : ReorgEngine :=
  match solid with
  | .ok (some h) => (e.setSolidifiedHead h).1
  | .ok none => e
  | .error _ => e

/-- Reading the solidified head leaves the buffer alone. -/
theorem canonical_observe (e : ReorgEngine) (solid : Except String (Option ℕ)) :
    (e.observe solid).canonical = e.canonical := by
  rcases solid with _ | _ | h
  · rfl
  · rfl
  · unfold observe setSolidifiedHead
    simp only
    split_ifs
    · rfl
    · rw [maybeEmitIrreversible_eq, maybeResolveForks_eq]

/-- It keeps the engine well formed. -/
theorem wf_observe {e : ReorgEngine} (h : e.Wf) (solid : Except String (Option ℕ)) :
    (e.observe solid).Wf := by
  rcases solid with _ | _ | s
  · exact h
  · exact h
  · exact (step_of_call (c := .setSolidifiedHead s) h rfl).wf h

/-- The engine after the solidified reads of some polls. -/
def observeAll (e : ReorgEngine) (polls : List Poll) : ReorgEngine :=
  polls.foldl (fun e p => e.observe p.solid) e

/-- So do any number of reads. -/
theorem canonical_observeAll (e : ReorgEngine) (polls : List Poll) :
    (e.observeAll polls).canonical = e.canonical := by
  induction polls generalizing e with
  | nil => rfl
  | cons p polls ih => exact (ih _).trans (canonical_observe e p.solid)

end ReorgEngine

namespace RelayerService

variable {recover : List.Vector UInt8 32 → List UInt8 → UInt8 → Option Address}

/-- The loop runs and its consumer is there. -/
structure Live (svc : RelayerService) : Prop where
  wf : svc.engine.Wf
  tx : svc.outputTx = none
  running : svc.exited = false

/-- The first half of a tick moves the solidified head and emits no `New`. -/
theorem observeSolidified_of_live {svc : RelayerService} (h : svc.Live)
    (solid : Except String (Option ℕ)) :
    ∃ cache headTx outs, svc.observeSolidified solid =
        ({ svc with engine := svc.engine.observe solid, blockCache := cache
                    solidifiedHeadTx := headTx }, outs, .ok ()) ∧ accepted outs = [] := by
  rcases solid with e | _ | s
  · exact ⟨_, _, _, rfl, rfl⟩
  · exact ⟨_, _, _, rfl, rfl⟩
  · refine ⟨_, _, (svc.engine.setSolidifiedHead s).2, forward_of_open _ _ h.tx, ?_⟩
    exact (ReorgEngine.step_of_call (c := .setSolidifiedHead s) h.wf rfl).accepted_head

/-- A turn of a live service sends what both halves of the tick send. -/
theorem round_eq {svc svc₁ svc₂ : RelayerService} {t : Tick} {outs sent : List Output}
    (h : svc.Live) (hsolid : svc.observeSolidified t.solid = (svc₁, outs, .ok ()))
    (hhead : svc₁.observeHead recover t.srSet t.head = some (svc₂, sent, .ok ())) :
    svc.round recover t = some (svc₂, outs ++ sent) := by
  unfold round tickOnce
  rw [h.running, if_neg Bool.false_ne_true, h.tx, if_neg (by simp)]
  simp only [hsolid, hhead, Option.map_some]

/-- **The second half of a tick whose block verifies**: a block that attaches to the
buffer is emitted as the one `New`; otherwise nothing happens. -/
theorem observeHead_of_live {svc : RelayerService} (h : svc.Live) (hne : svc.engine.canonical ≠ [])
    {srSet : Option SrSet} {head : FetchedBlock}
    (hv : verify recover svc.verifyPolicy srSet head.decoded.header = .proceed) :
    ∃ svc' sent, svc.observeHead recover srSet (.ok head) = some (svc', sent, .ok ()) ∧
      svc'.Live ∧ svc'.engine.canonical ≠ [] ∧ svc'.verifyPolicy = svc.verifyPolicy ∧
      ((svc.engine.Attachable head.decoded ∧
          ∃ b, accepted sent = [b] ∧ b.blockId = head.decoded.header.blockId) ∨
        (¬ svc.engine.Attachable head.decoded ∧ accepted sent = [] ∧ svc' = svc)) := by
  unfold observeHead
  by_cases htip : (svc.engine.tip.any fun t =>
      decide (t.blockId = head.decoded.header.blockId)) = true
  · refine ⟨svc, [], if_pos htip, h, hne, rfl, Or.inr ⟨fun hd => hd.1 ?_, rfl, rfl⟩⟩
    obtain ⟨t, ht, htd⟩ := (Option.any_eq_true ..).1 htip
    exact ⟨t, List.mem_of_getLast? ht, by simpa using htd⟩
  · simp only [htip]
    unfold processOne
    rw [hv]
    rcases ReorgEngine.accept_attachable h.wf hne head.decoded head.txInfos with
      ⟨hat, e', out, ha, hw', hne', hacc⟩ | ⟨hat, err, ha⟩
    · refine ⟨{ svc with
        engine := e'
        blockCache := out.foldl (fun c o => c.map fun c => feedCache c o) svc.blockCache },
        out, ?_, ⟨hw', h.tx, h.running⟩, hne', rfl, Or.inl ⟨hat, _, hacc, rfl⟩⟩
      simp only [ha]
      exact congrArg some (forward_of_open { svc with engine := e' } out h.tx)
    · refine ⟨svc, [], ?_, h, hne, rfl, Or.inr ⟨hat, rfl, rfl⟩⟩
      simp only [ha]
      rfl

/-- **One poll whose block verifies** emits that block when it attaches to the buffer and
nothing otherwise, and the service lives on. -/
theorem round_poll {svc : RelayerService} (h : svc.Live) (hne : svc.engine.canonical ≠ [])
    (p : Poll) (hv : verify recover svc.verifyPolicy p.srSet p.header = .proceed) :
    ∃ svc' sent, svc.round recover p.tick = some (svc', sent) ∧ svc'.Live ∧
      svc'.engine.canonical ≠ [] ∧ svc'.verifyPolicy = svc.verifyPolicy ∧
      (((svc.engine.observe p.solid).Attachable p.head.decoded ∧
          ∃ b, accepted sent = [b] ∧ b.blockId = p.header.blockId) ∨
        (¬ (svc.engine.observe p.solid).Attachable p.head.decoded ∧ accepted sent = [] ∧
          svc'.engine = svc.engine.observe p.solid)) := by
  obtain ⟨cache, headTx, outs, hsolid, hacc⟩ := observeSolidified_of_live h p.solid
  have hlive : ({ svc with engine := svc.engine.observe p.solid, blockCache := cache
                           solidifiedHeadTx := headTx } : RelayerService).Live :=
    ⟨ReorgEngine.wf_observe h.wf p.solid, h.tx, h.running⟩
  have hne' : (svc.engine.observe p.solid).canonical ≠ [] := by
    rw [ReorgEngine.canonical_observe]
    exact hne
  obtain ⟨svc', sent, hhead, hlive', hbuf, hpol, hcase⟩ := observeHead_of_live hlive hne' hv
  refine ⟨svc', outs ++ sent, round_eq h hsolid hhead, hlive', hbuf, hpol, ?_⟩
  rw [accepted_append, hacc, List.nil_append]
  rcases hcase with hat | ⟨hat, hnil, rfl⟩
  · exact Or.inl hat
  · exact Or.inr ⟨hat, hnil, rfl⟩

/-- The second half of a tick keeps a channel that is open. -/
theorem observeHead_open {svc : RelayerService} {srSet : Option SrSet}
    {head : Except String FetchedBlock} {r : RelayerService × List Output × Except ServiceError Unit}
    (hr : svc.observeHead recover srSet head = some r) (h : svc.outputTx = none) :
    r.1.outputTx = none ∧ r.1.exited = svc.exited ∧ r.2.2 ≠ .error .outputChannelClosed := by
  unfold observeHead at hr
  cases head with
  | error e =>
    obtain rfl := Option.some.inj hr
    exact ⟨h, rfl, by simp⟩
  | ok fetched =>
    simp only at hr
    split_ifs at hr with htip
    · obtain rfl := Option.some.inj hr
      exact ⟨h, rfl, by simp⟩
    · unfold processOne at hr
      split at hr
      · obtain rfl := Option.some.inj hr
        exact ⟨h, rfl, by simp⟩
      · obtain rfl := Option.some.inj hr
        exact ⟨h, rfl, by simp⟩
      · split at hr
        · cases hr
        · rename_i engine outputs _
          obtain rfl := Option.some.inj hr
          rw [forward_of_open { svc with engine } outputs h]
          exact ⟨h, rfl, by simp⟩
        · obtain rfl := Option.some.inj hr
          exact ⟨h, rfl, by simp⟩

/-- A round keeps the loop going on a channel that is open. -/
theorem Live.round {svc svc' : RelayerService} {t : Tick} {sent : List Output} (h : svc.Live)
    (hr : svc.round recover t = some (svc', sent)) : svc'.Live := by
  have hw : svc'.engine.Wf := wf_of_round h.wf hr
  obtain ⟨cache, headTx, outs, hsolid, -⟩ := observeSolidified_of_live h t.solid
  unfold RelayerService.round tickOnce at hr
  rw [h.running, if_neg Bool.false_ne_true, h.tx, if_neg (by simp)] at hr
  simp only [hsolid, Option.map_map] at hr
  obtain ⟨r, hhead, hres⟩ := Option.map_eq_some_iff.1 hr
  obtain ⟨htx, hex, hne⟩ := observeHead_open hhead h.tx
  simp only [Function.comp_apply] at hres
  obtain ⟨rfl, -⟩ := Prod.mk.inj hres
  exact ⟨hw, htx, hex.trans h.running⟩

/-- **Polls and `New`**: when every polled block verifies, the blocks emitted as `New` are
polled heads, and there is one exactly when some head attaches to the buffer held before
the first poll, at the mark the solidified reads up to its own poll have set. -/
theorem rounds_emit_iff {svc : RelayerService} (h : svc.Live) (hne : svc.engine.canonical ≠ [])
    (polls : List Poll)
    (hv : ∀ p ∈ polls, verify recover svc.verifyPolicy p.srSet p.header = .proceed) :
    ∃ svc' sent, Run.run (round recover) svc (polls.map Poll.tick) = some (svc', sent) ∧
      (∀ b ∈ accepted sent, ∃ p ∈ polls, b.blockId = p.header.blockId) ∧
      (accepted sent ≠ [] ↔ ∃ pre p post, polls = pre ++ p :: post ∧
        (svc.engine.observeAll (pre ++ [p])).Attachable p.head.decoded) := by
  induction polls generalizing svc with
  | nil => exact ⟨svc, [], rfl, by simp [accepted], by simp [accepted]⟩
  | cons p polls ih =>
    obtain ⟨hvp, hvs⟩ := List.forall_mem_cons.1 hv
    obtain ⟨svc₁, sent, hr, hlive, hne₁, hpol, hcase⟩ := round_poll h hne p hvp
    obtain ⟨svc', rest, hrest, hmem, hiff⟩ := ih hlive hne₁ (by rw [hpol]; exact hvs)
    refine ⟨svc', sent ++ rest, Run.run_cons_eq_some.2 ⟨_, _, _, hr, hrest, rfl⟩, ?_⟩
    have hmem' : ∀ b ∈ accepted rest, ∃ q ∈ p :: polls, b.blockId = q.header.blockId := by
      intro b hb
      obtain ⟨q, hq, hbq⟩ := hmem b hb
      exact ⟨q, List.mem_cons_of_mem _ hq, hbq⟩
    rw [accepted_append]
    rcases hcase with ⟨hat, b, hacc, hb⟩ | ⟨hat, hacc, heng⟩
    · rw [hacc, List.singleton_append]
      refine ⟨?_, iff_of_true (List.cons_ne_nil _ _) ⟨[], p, polls, rfl, hat⟩⟩
      exact List.forall_mem_cons.2 ⟨⟨p, List.mem_cons_self .., hb⟩, hmem'⟩
    · rw [hacc, List.nil_append, hiff, heng]
      refine ⟨hmem', ?_, ?_⟩
      · rintro ⟨pre, q, post, rfl, hq⟩
        exact ⟨p :: pre, q, post, rfl, hq⟩
      · rintro ⟨pre, q, post, hsplit, hq⟩
        cases pre with
        | nil =>
          obtain ⟨rfl, rfl⟩ := List.cons.inj hsplit
          exact absurd hq hat
        | cons p' pre =>
          obtain ⟨rfl, rfl⟩ := List.cons.inj hsplit
          exact ⟨pre, q, post, rfl, hq⟩

/-- A head chain over a gap recovers: some head is buffered already, the next is not, and
it branches off above finality as the solidified reads up to its own poll have set it. -/
def Recovers (e : ReorgEngine) (polls : List Poll) : Prop :=
  ∃ pre p q post, polls = pre ++ p :: q :: post ∧ e.Buffers p.header.blockId ∧
    ¬ e.Buffers q.header.blockId ∧
    (e.observeAll (pre ++ [p, q])).BranchesAbove p.header.blockId

end RelayerService

/-- **When a gap does not wedge the relayer.**  From every reachable state with a
non-empty buffer, on two or more polled heads that verify, each the parent of the next,
the first one's parent not buffered: one of the heads is emitted as `New` exactly when
one of them is already buffered and its successor branches off above finality. -/
theorem gap_recovers_iff (recover : List.Vector UInt8 32 → List UInt8 → UInt8 → Option Address)
    (config : ReorgConfig) (engine : ReorgEngine) (policy : VerifyPolicy)
    (cache : Option (BlockCache BufferedBlock)) (headTx : Option (Option ℕ)) (history : List Tick)
    (svc : RelayerService) (sent₀ : List Output) (polls : List Poll)
    (hnew : ReorgEngine.new config = some engine)
    (hreach : Run.run (RelayerService.round recover)
      (RelayerService.new engine policy cache headTx none) history = some (svc, sent₀))
    (hne : svc.engine.canonical ≠ [])
    (hverify : ∀ p ∈ polls, verify recover svc.verifyPolicy p.srSet p.header = .proceed)
    (hlen : 2 ≤ polls.length)
    (hchain : polls.IsChain fun p q => q.header.parentId = p.header.blockId)
    (hgap : ∀ p, polls.head? = some p → ¬ svc.engine.Buffers p.header.parentId) :
    ∃ svc' sent, Run.run (RelayerService.round recover) svc (polls.map Poll.tick) =
        some (svc', sent) ∧
      ((∃ p ∈ polls, ∃ b ∈ accepted sent, b.blockId = p.header.blockId) ↔
        RelayerService.Recovers svc.engine polls) := by
  have hlive : svc.Live := by
    refine Run.run_preserves (fun _ _ _ _ hl hr => RelayerService.Live.round hl hr) ?_ hreach
    exact ⟨ReorgEngine.wf_new hnew, rfl, rfl⟩
  obtain ⟨svc', sent, hrun, hmem, hiff⟩ := RelayerService.rounds_emit_iff hlive hne polls hverify
  refine ⟨svc', sent, hrun, ?_⟩
  have hemit : (∃ p ∈ polls, ∃ b ∈ accepted sent, b.blockId = p.header.blockId) ↔
      accepted sent ≠ [] := by
    constructor
    · rintro ⟨p, -, b, hb, -⟩
      exact List.ne_nil_of_mem hb
    · intro hacc
      obtain ⟨b, hb⟩ := List.exists_mem_of_ne_nil _ hacc
      obtain ⟨p, hp, hbp⟩ := hmem b hb
      exact ⟨p, hp, b, hb, hbp⟩
  have hbuf : ∀ l i, (svc.engine.observeAll l).Buffers i ↔ svc.engine.Buffers i := by
    intro l i
    rw [ReorgEngine.Buffers, ReorgEngine.canonical_observeAll, ReorgEngine.Buffers]
  rw [hemit, hiff]
  constructor
  · rintro ⟨pre, q, post, rfl, hnew, hpar, habove⟩
    rw [hbuf] at hnew hpar
    rcases List.eq_nil_or_concat pre with rfl | ⟨init, p, rfl⟩
    · exact absurd hpar (hgap q rfl)
    · rw [List.concat_eq_append, List.append_assoc, List.singleton_append] at hchain
      have hqp : q.header.parentId = p.header.blockId :=
        (List.isChain_cons_cons.1 hchain.right_of_append).1
      refine ⟨init, p, q, post, by simp, hqp ▸ hpar, hnew, ?_⟩
      rw [List.concat_eq_append, List.append_assoc] at habove
      exact hqp ▸ habove
  · rintro ⟨init, p, q, post, rfl, hpar, hnew, habove⟩
    have hqp : q.header.parentId = p.header.blockId :=
      (List.isChain_cons_cons.1 hchain.right_of_append).1
    refine ⟨init ++ [p], q, post, by simp, ?_, ?_, ?_⟩
    · rw [hbuf]
      exact hnew
    · rw [hbuf]
      exact hqp ▸ hpar
    · rw [List.append_assoc]
      exact hqp ▸ habove

/-- A poll of a test block, without finality and without an SR set. -/
def pollOf (d : DecodedBlock) : Poll := ⟨none, .ok none, ⟨d, []⟩⟩

/-- A service whose signatures never recover, whose policy is not to verify. -/
def unverified (engine : ReorgEngine) : RelayerService := .new engine .disabled none none none

/-- The hypotheses hold where the missed block was a sibling of the tip: blocks 2 and 3 are
buffered, block 2 is polled again and then another block 3. -/
theorem gap_recovers_iff_sibling :
    ∃ engine svc sent₀, ReorgEngine.new ⟨2, 1⟩ = some engine ∧
      Run.run (RelayerService.round fun _ _ _ => none) (unverified engine)
        ([synthAt 1 0 0, synthAt 2 0 0, synthAt 3 0 0].map fun d => (pollOf d).tick) =
          some (svc, sent₀) ∧
      ∃ svc' sent, Run.run (RelayerService.round fun _ _ _ => none) svc
          ([pollOf (synthAt 2 0 0), pollOf (synthAt 3 1 0)].map Poll.tick) = some (svc', sent) ∧
        ((∃ p ∈ [pollOf (synthAt 2 0 0), pollOf (synthAt 3 1 0)], ∃ b ∈ accepted sent,
            b.blockId = p.header.blockId) ↔
          RelayerService.Recovers svc.engine [pollOf (synthAt 2 0 0), pollOf (synthAt 3 1 0)]) := by
  refine ⟨_, _, _, rfl, rfl, ?_⟩
  refine gap_recovers_iff (fun _ _ _ => none) ⟨2, 1⟩ _ .disabled none none
    ([synthAt 1 0 0, synthAt 2 0 0, synthAt 3 0 0].map fun d => (pollOf d).tick) _ _ _ rfl rfl
    (by decide) ?_ (by decide) ?_ ?_
  · intro p _
    rfl
  · exact List.isChain_pair.2 (by decide)
  · intro p hp
    obtain rfl := Option.some.inj hp
    decide

/-- **A gap can wedge the relayer**: block 1 is buffered, block 2 is missed, and neither 3
nor 4 is ever emitted. -/
theorem gap_wedges : ¬ ∀ (recover : List.Vector UInt8 32 → List UInt8 → UInt8 → Option Address)
    (config : ReorgConfig) (engine : ReorgEngine) (policy : VerifyPolicy)
    (cache : Option (BlockCache BufferedBlock)) (headTx : Option (Option ℕ)) (history : List Tick)
    (svc : RelayerService) (sent₀ : List Output) (polls : List Poll),
    ReorgEngine.new config = some engine →
    Run.run (RelayerService.round recover)
      (RelayerService.new engine policy cache headTx none) history = some (svc, sent₀) →
    svc.engine.canonical ≠ [] →
    (∀ p ∈ polls, verify recover svc.verifyPolicy p.srSet p.header = .proceed) →
    2 ≤ polls.length →
    (polls.IsChain fun p q => q.header.parentId = p.header.blockId) →
    (∀ p, polls.head? = some p → ¬ svc.engine.Buffers p.header.parentId) →
    ∃ svc' sent, Run.run (RelayerService.round recover) svc (polls.map Poll.tick) =
        some (svc', sent) ∧
      ∃ p ∈ polls, ∃ b ∈ accepted sent, b.blockId = p.header.blockId := by
  intro h
  obtain ⟨svc', sent, hrun, p, -, b, hb, -⟩ := h (fun _ _ _ => none) ⟨2, 1⟩ _ .disabled none none
    [(pollOf (synthAt 1 0 0)).tick] _ _ [pollOf (synthAt 3 0 0), pollOf (synthAt 4 0 0)]
    rfl rfl (by decide) (fun _ _ => rfl) (by decide) (List.isChain_pair.2 (by decide))
    (by intro p hp; obtain rfl := Option.some.inj hp; decide)
  obtain ⟨-, rfl⟩ := Prod.mk.inj (Option.some.inj hrun)
  cases hb

end Relayer
end Lightcycle
