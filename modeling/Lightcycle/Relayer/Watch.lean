/-
# Two views of the solidified head

A tick stores the solidified head twice: in the watch channel, from which the firehose
derives the finality tier of what it serves, and in the engine.  The engine ignores a head
that has not advanced (`set_solidified_head`), the channel takes whatever was read.  The
two agree after every tick exactly when no successful read is below the engine's head
(`Advances`), and then a block once served as finalized stays so.
-/

import Lightcycle.Relayer.Service

namespace Lightcycle
namespace Relayer

/-- The head of the engine never falls. -/
theorem ReorgEngine.solidifiedHead_setSolidifiedHead (e : ReorgEngine) (s : ℕ) :
    (e.setSolidifiedHead s).1.solidifiedHead = some (max s (e.solidifiedHead.getD 0)) := by
  unfold setSolidifiedHead
  cases hp : e.solidifiedHead with
  | none =>
    simp only [Option.any_none, Bool.false_eq_true, if_false, maybeEmitIrreversible_eq,
      maybeResolveForks_eq]
    simp
  | some p =>
    by_cases hs : s ≤ p
    · simp [hs, hp]
    · simp only [Option.any_some, hs, decide_false, Bool.false_eq_true, if_false,
        maybeEmitIrreversible_eq, maybeResolveForks_eq, Option.getD_some]
      congr 1
      omega

/-- A block does not move the solidified head. -/
theorem ReorgEngine.Step.solidifiedHead {e e' : ReorgEngine} {d : DecodedBlock}
    {txInfos : List DecodedTxInfo} {out : List Output} (h : Step e (.accept d txInfos) e' out) :
    e'.solidifiedHead = e.solidifiedHead := by
  cases h with
  | refused => rfl
  | attached kept orphans ha => rw [attach, settle_eq]; rfl

namespace RelayerService

variable {recover : List.Vector UInt8 32 → List UInt8 → UInt8 → Option Address}
variable {svc svc' : RelayerService} {t : Tick}

/-! ### What one tick does to the two copies -/

variable (recover) in
/-- The head block touches neither copy, and the engine does not panic on it. -/
theorem observeHead_spec (hw : svc.engine.Wf) (srSet : Option SrSet)
    (head : Except String FetchedBlock) :
    ∃ r, svc.observeHead recover srSet head = some r ∧ r.1.engine.Wf ∧
      r.1.engine.solidifiedHead = svc.engine.solidifiedHead ∧
      r.1.solidifiedHeadTx = svc.solidifiedHeadTx := by
  unfold observeHead
  cases head with
  | error e => exact ⟨_, rfl, hw, rfl, rfl⟩
  | ok fetched =>
    simp only
    split_ifs
    · exact ⟨_, rfl, hw, rfl, rfl⟩
    · unfold processOne
      split
      · exact ⟨_, rfl, hw, rfl, rfl⟩
      · exact ⟨_, rfl, hw, rfl, rfl⟩
      · obtain ⟨e', out, hcall, hstep⟩ :=
          ReorgEngine.call_step hw (.accept fetched.decoded fetched.txInfos)
        obtain ⟨⟨e₁, r⟩, hacc, hout⟩ := Option.map_eq_some_iff.1 hcall
        obtain ⟨rfl, -⟩ := Prod.mk.inj hout
        rw [hacc]
        cases r with
        | error err => exact ⟨_, rfl, hstep.wf hw, hstep.solidifiedHead, rfl⟩
        | ok outputs =>
          refine ⟨_, rfl, ?_, ?_, forward_solidifiedHeadTx _ _⟩
          · rw [forward_engine]
            exact hstep.wf hw
          · rw [forward_engine]
            exact hstep.solidifiedHead

/-- The copies after the head was read: the engine keeps the higher one. -/
theorem observeSolidified_spec (svc : RelayerService) (solid : Except String (Option ℕ)) :
    (∃ h, solid = .ok (some h) ∧
        (svc.observeSolidified solid).1.engine.solidifiedHead =
          some (max h (svc.engine.solidifiedHead.getD 0)) ∧
        (svc.observeSolidified solid).1.solidifiedHeadTx =
          svc.solidifiedHeadTx.map fun _ => some h) ∨
      ((∀ h, solid ≠ .ok (some h)) ∧
        (svc.observeSolidified solid).1.engine.solidifiedHead = svc.engine.solidifiedHead ∧
        (svc.observeSolidified solid).1.solidifiedHeadTx = svc.solidifiedHeadTx) := by
  rcases solid with e | _ | h
  · exact Or.inr ⟨by simp, rfl, rfl⟩
  · exact Or.inr ⟨by simp, rfl, rfl⟩
  · rw [observeSolidified, forward_engine, forward_solidifiedHeadTx]
    exact Or.inl ⟨h, rfl, svc.engine.solidifiedHead_setSolidifiedHead h, rfl⟩

variable (recover) in
/-- `tick_once` as a step: the service it leaves and the outputs it sent. -/
def tick (svc : RelayerService) (t : Tick) : Option (RelayerService × List Output) :=
  (svc.tickOnce recover t).map fun r => (r.1, r.2.1)

variable (recover) in
/-- **One tick**: it does not panic, and it leaves the two copies as the read of the
solidified head left them. -/
theorem tick_spec (hw : svc.engine.Wf) (t : Tick) :
    ∃ svc' sent, svc.tick recover t = some (svc', sent) ∧ svc'.engine.Wf ∧
      svc'.engine.solidifiedHead = (svc.observeSolidified t.solid).1.engine.solidifiedHead ∧
      svc'.solidifiedHeadTx = (svc.observeSolidified t.solid).1.solidifiedHeadTx := by
  have hw' := wf_observeSolidified hw t.solid
  unfold tick tickOnce
  simp only
  split
  · exact ⟨_, _, rfl, hw', rfl, rfl⟩
  · obtain ⟨r, hr, hwr, hhead, htx⟩ := observeHead_spec recover hw' t.srSet t.head
    rw [hr]
    exact ⟨_, _, rfl, hwr, hhead, htx⟩

/-! ### Runs -/

/-- The watch channel is attached and holds the engine's head. -/
def ViewsAgree (svc : RelayerService) : Prop :=
  svc.solidifiedHeadTx = some svc.engine.solidifiedHead

/-- What the tick reads is not below the engine's head. -/
def Advances (svc : RelayerService) (t : Tick) : Prop :=
  ∀ h p, t.solid = .ok (some h) → svc.engine.solidifiedHead = some p → p ≤ h

/-- **One tick and the two copies.** They agree after it exactly when the head that was read
is none, or is not below the one the engine has. -/
theorem viewsAgree_tick_iff {sent : List Output} (hw : svc.engine.Wf) (h : svc.ViewsAgree)
    (ht : svc.tick recover t = some (svc', sent)) : svc'.ViewsAgree ↔ svc.Advances t := by
  obtain ⟨_, _, ht', -, hhead, htx⟩ := tick_spec recover hw t
  rw [ht] at ht'
  obtain ⟨rfl, rfl⟩ := Prod.mk.inj (Option.some.inj ht')
  rw [ViewsAgree, hhead, htx]
  rcases svc.observeSolidified_spec t.solid with ⟨s, hs, hhead', htx'⟩ | ⟨hno, hhead', htx'⟩
  · rw [hhead', htx', h, Option.map_some]
    constructor
    · intro heq s' p hs' hp
      rw [hs] at hs'
      obtain rfl : s = s' := Option.some.inj (Except.ok.inj hs')
      have : s = max s p := by simpa [hp] using heq
      omega
    · intro hadv
      cases hp : svc.engine.solidifiedHead with
      | none => simp
      | some p =>
        have hps := hadv s p hs hp
        simp only [Option.getD_some]
        congr 2
        omega
  · rw [hhead', htx']
    exact ⟨fun _ s p hs => absurd hs (hno s), fun _ => h⟩

/-- The engine's head never goes back. -/
theorem solidifiedHead_le_of_run {sent : List Output} {ticks : List Tick} {p : ℕ}
    (hw : svc.engine.Wf) (hp : svc.engine.solidifiedHead = some p)
    (hr : Run.run (tick recover) svc ticks = some (svc', sent)) :
    ∃ q, svc'.engine.solidifiedHead = some q ∧ p ≤ q := by
  have hstep : ∀ (s : RelayerService) (t : Tick) (s' : RelayerService) (out : List Output),
      s.engine.Wf ∧ (∃ q, s.engine.solidifiedHead = some q ∧ p ≤ q) →
      s.tick recover t = some (s', out) →
      s'.engine.Wf ∧ ∃ q, s'.engine.solidifiedHead = some q ∧ p ≤ q := by
    rintro s t s' out ⟨hws, q, hq, hpq⟩ hs
    obtain ⟨_, _, ht', hw', hhead, -⟩ := tick_spec recover hws t
    rw [hs] at ht'
    obtain ⟨rfl, rfl⟩ := Prod.mk.inj (Option.some.inj ht')
    refine ⟨hw', ?_⟩
    rw [hhead]
    rcases s.observeSolidified_spec t.solid with ⟨h, -, hhead', -⟩ | ⟨-, hhead', -⟩
    · refine ⟨_, hhead', ?_⟩
      rw [hq, Option.getD_some]
      omega
    · exact ⟨q, hhead'.trans hq, hpq⟩
  exact (Run.run_preserves hstep ⟨hw, p, hp, le_rfl⟩ hr).2

/-- The tier the firehose gives a block at the height, from the watch channel. -/
def servedTier (svc : RelayerService) (height : ℕ) : FinalityTier :=
  (BlockFinality.forBlock height (svc.solidifiedHeadTx.getD none) false).tier

/-- While the views agree, a cached block is served as finalized when the head of the engine
has reached it. -/
theorem servedTier_eq_finalized (h : svc.ViewsAgree) (height : ℕ) :
    svc.servedTier height = .finalized ↔
      ∃ s, svc.engine.solidifiedHead = some s ∧ height ≤ s := by
  rw [servedTier, h, Option.getD_some]
  cases svc.engine.solidifiedHead with
  | none => simp [BlockFinality.forBlock, FinalityTier.derive]
  | some s =>
    by_cases hs : height ≤ s
    · simp [BlockFinality.forBlock, FinalityTier.derive, hs]
    · simp [BlockFinality.forBlock, FinalityTier.derive, hs]

end RelayerService

open RelayerService in
/-- **When the views of the solidified head agree.**  Of any ticks of a fresh service with the
watch attached: after every tick the channel holds the engine's head, and no height served
as finalized is served otherwise later, exactly when no successful read is below the
engine's head at that moment. -/
theorem viewsAgree_iff_along
    (recover : List.Vector UInt8 32 → List UInt8 → UInt8 → Option Address)
    (config : ReorgConfig) (engine : ReorgEngine) (policy : VerifyPolicy)
    (cache : Option (Store.BlockCache BufferedBlock)) (tx : Option ℕ) (ticks : List Tick)
    (hnew : ReorgEngine.new config = some engine) :
    ((∀ pre post svc sent, ticks = pre ++ post →
        Run.run (tick recover) (new engine policy cache (some none) tx) pre = some (svc, sent) →
        svc.ViewsAgree) ∧
      ∀ pre mid post svc sent svc' sent', ticks = pre ++ (mid ++ post) →
        Run.run (tick recover) (new engine policy cache (some none) tx) pre = some (svc, sent) →
        Run.run (tick recover) svc mid = some (svc', sent') →
        ∀ height, svc.servedTier height = .finalized → svc'.servedTier height = .finalized) ↔
      Run.Along Advances (tick recover) (new engine policy cache (some none) tx) ticks := by
  have hwf : (new engine policy cache (some none) tx).engine.Wf := ReorgEngine.wf_new hnew
  have hinit : (new engine policy cache (some none) tx).ViewsAgree := by
    obtain rfl := ReorgEngine.eq_of_new hnew
    rfl
  have htotal : ∀ (s : RelayerService) (t : Tick), s.engine.Wf →
      ∃ s' out, tick recover s t = some (s', out) ∧ s'.engine.Wf := by
    intro s t hs
    obtain ⟨s', out, ht, hs', -, -⟩ := tick_spec recover hs t
    exact ⟨s', out, ht, hs'⟩
  have hiff := Run.forall_reached_iff_along (K := fun s : RelayerService => s.engine.Wf)
    (I := ViewsAgree) htotal
    (fun s t s' out hs hv ht => viewsAgree_tick_iff hs hv ht) hwf hinit ticks
  rw [← hiff]
  refine ⟨fun h => h.1, fun h => ⟨h, ?_⟩⟩
  intro pre mid post svc sent svc' sent' he hr hr' height hfin
  have hv := h pre (mid ++ post) svc sent he hr
  have hv' := h (pre ++ mid) post svc' (sent ++ sent') (by rw [he, List.append_assoc])
    (Run.run_append_eq_some.2 ⟨svc, sent, sent', hr, hr', rfl⟩)
  obtain ⟨s, hs, hle⟩ := (servedTier_eq_finalized hv height).1 hfin
  have hws : svc.engine.Wf :=
    Run.run_preserves (I := fun s : RelayerService => s.engine.Wf) (fun s t s' out hs ht => by
      obtain ⟨s₁, out₁, ht₁, hs₁⟩ := htotal s t hs
      rw [ht] at ht₁
      obtain ⟨rfl, -⟩ := Prod.mk.inj (Option.some.inj ht₁)
      exact hs₁) hwf hr
  obtain ⟨q, hq, hsq⟩ := solidifiedHead_le_of_run hws hs hr'
  exact (servedTier_eq_finalized hv' height).2 ⟨q, hq, by omega⟩

/-- A tick that reads the head `s` and the first block. -/
def tickAt (s : ℕ) : Tick where
  srSet := none
  solid := .ok (some s)
  head := .ok ⟨synthAt 1 0 0, []⟩

open RelayerService in
/-- **The views can differ, and a block can stop being finalized**: the head is read as 5 and
then as 3. -/
theorem views_differ :
    ¬ ∀ (recover : List.Vector UInt8 32 → List UInt8 → UInt8 → Option Address)
      (config : ReorgConfig) (engine : ReorgEngine) (ticks : List Tick),
      ReorgEngine.new config = some engine →
      (∀ pre post svc sent, ticks = pre ++ post →
        Run.run (tick recover) (new engine .disabled none (some none) none) pre =
          some (svc, sent) → svc.ViewsAgree) ∧
      ∀ pre mid post svc sent svc' sent', ticks = pre ++ (mid ++ post) →
        Run.run (tick recover) (new engine .disabled none (some none) none) pre =
          some (svc, sent) →
        Run.run (tick recover) svc mid = some (svc', sent') →
        ∀ height, svc.servedTier height = .finalized → svc'.servedTier height = .finalized := by
  intro h
  have hfin := (h (fun _ _ _ => none) ReorgConfig.default _ [tickAt 5, tickAt 3] rfl).2
    [tickAt 5] [tickAt 3] [] _ _ _ _ rfl rfl rfl 4 rfl
  revert hfin
  decide

open RelayerService in
/-- The hypothesis holds of the default configuration. -/
theorem viewsAgree_iff_along_default :
    ∃ engine, ReorgEngine.new ReorgConfig.default = some engine ∧
      (((∀ pre post svc sent, [tickAt 3, tickAt 5] = pre ++ post →
          Run.run (tick fun _ _ _ => none) (new engine .disabled none (some none) none) pre =
            some (svc, sent) → svc.ViewsAgree) ∧
        ∀ pre mid post svc sent svc' sent', [tickAt 3, tickAt 5] = pre ++ (mid ++ post) →
          Run.run (tick fun _ _ _ => none) (new engine .disabled none (some none) none) pre =
            some (svc, sent) →
          Run.run (tick fun _ _ _ => none) svc mid = some (svc', sent') →
          ∀ height, svc.servedTier height = .finalized → svc'.servedTier height = .finalized) ↔
        Run.Along Advances (tick fun _ _ _ => none)
          (new engine .disabled none (some none) none) [tickAt 3, tickAt 5]) :=
  ⟨_, rfl, viewsAgree_iff_along (fun _ _ _ => none) ReorgConfig.default _ .disabled none none _
    rfl⟩

end Relayer
end Lightcycle
