/-
# Does `ForkResolved` name the survivor?

An observation is frozen when the reorg happens: `maybe_resolve_forks` emits its kept tip
as the finalized one once the head has passed the height, without looking at the chain.
Under the chain rule only `set_solidified_head` ever resolves a fork.  The tip it names is
on the consumer's stack and announced exactly when it is still buffered, neither orphaned
by a later reorg nor pruned, or was announced before (`KeepsTips`); and then no orphan of
that fork is on the stack, since the orphans start at the height of the kept tip.
-/

import Lightcycle.Relayer.Ledger

namespace Lightcycle
namespace Relayer

/-- The tip is on the consumer's stack and was announced, and no orphan is on the stack. -/
structure Survivor (hist : List Output) (tip : BlockId) (orphans : List BlockId) : Prop where
  onStack : ∃ b ∈ stackOf hist, b.blockId = tip
  announced : ∃ b ∈ irreversibles hist, b.blockId = tip
  gone : ∀ i ∈ orphans, ∀ b ∈ stackOf hist, b.blockId ≠ i

instance (hist : List Output) (tip : BlockId) (orphans : List BlockId) :
    Decidable (Survivor hist tip orphans) :=
  decidable_of_iff ((∃ b ∈ stackOf hist, b.blockId = tip) ∧
      (∃ b ∈ irreversibles hist, b.blockId = tip) ∧
      ∀ i ∈ orphans, ∀ b ∈ stackOf hist, b.blockId ≠ i)
    ⟨fun h => ⟨h.1, h.2.1, h.2.2⟩, fun h => ⟨h.onStack, h.announced, h.gone⟩⟩

/-- A `ForkResolved` after the outputs `hist` names the survivor. -/
def Output.Survives (hist : List Output) : Output → Prop
  | .forkResolved _ _ finalizedTip orphanedTips => Survivor hist finalizedTip orphanedTips
  | _ => True

instance (hist : List Output) : (o : Output) → Decidable (o.Survives hist)
  | .forkResolved _ _ finalizedTip orphanedTips =>
    inferInstanceAs (Decidable (Survivor hist finalizedTip orphanedTips))
  | .new _ => inferInstanceAs (Decidable True)
  | .undo _ => inferInstanceAs (Decidable True)
  | .irreversible _ => inferInstanceAs (Decidable True)
  | .forkObserved .. => inferInstanceAs (Decidable True)

/-- Every `ForkResolved` names the survivor at the moment it is emitted. -/
def ResolvedReal (outs : List Output) : Prop :=
  Replay.Throughout (fun hist o => o.Survives hist) (fun hist o => hist ++ [o]) [] outs

instance (outs : List Output) : Decidable (ResolvedReal outs) :=
  inferInstanceAs (Decidable (Replay.Throughout _ _ _ _))

/-- Outputs are collected one by one. -/
theorem foldl_concat (hist outs : List Output) :
    outs.foldl (fun hist o => hist ++ [o]) hist = hist ++ outs := by
  induction outs generalizing hist with
  | nil => simp
  | cons o outs ih => rw [List.foldl_cons, ih, List.append_assoc, List.singleton_append]

/-- The forks resolved in either part have survivors for their tips. -/
theorem resolvedReal_append {outs out : List Output} :
    ResolvedReal (outs ++ out) ↔ ResolvedReal outs ∧
      ∀ pre o post, out = pre ++ o :: post → o.Survives (outs ++ pre) := by
  rw [ResolvedReal, Replay.throughout_append, foldl_concat, List.nil_append]
  refine and_congr_right fun _ => forall_congr' fun pre => forall_congr' fun o =>
    forall_congr' fun post => imp_congr_right fun _ => ?_
  rw [foldl_concat]

/-- Outputs that resolve nothing name no wrong survivor. -/
theorem resolvedReal_append_of_nil {outs out : List Output} (h : resolvedForks out = []) :
    ResolvedReal (outs ++ out) ↔ ResolvedReal outs := by
  rw [resolvedReal_append]
  refine and_iff_left fun pre o post ho => ?_
  have hnone := List.filterMap_eq_nil_iff.1 h o (by rw [ho]; simp)
  cases o with
  | forkResolved a b t os => cases hnone
  | _ => trivial

/-! ### Orphans of a fork whose kept tip is on the stack -/

/-- What an observation was made of: the kept tip, and the orphans, a chain that starts at
the height of the tip. -/
structure ForkOf (outs : List Output) (f : ForkObservation) (tip : BufferedBlock)
    (orphans : List BufferedBlock) : Prop where
  tip_mem : tip ∈ accepted outs
  tip_id : tip.blockId = f.keptTip
  tip_height : tip.height = f.observedAtHeight
  ids : f.orphanedTips = orphans.reverse.map (·.blockId)
  mem : ∀ o ∈ orphans, o ∈ accepted outs
  linked : orphans.IsChain fun a b => b.parentId = a.blockId
  ascending : Ascending orphans
  first : ∀ o, orphans.head? = some o → o.height = tip.height ∧ o.blockId ≠ tip.blockId

/-- What an observation was made of stays accepted. -/
theorem ForkOf.mono {outs : List Output} {f : ForkObservation} {tip : BufferedBlock}
    {orphans : List BufferedBlock} (h : ForkOf outs f tip orphans) (out : List Output) :
    ForkOf (outs ++ out) f tip orphans := by
  have hmem := accepted_subset (List.prefix_append outs out)
  exact { h with tip_mem := hmem tip h.tip_mem, mem := fun o ho => hmem o (h.mem o ho) }

namespace ReorgEngine

variable {e e' f : ReorgEngine} {outs out hist : List Output} {c : Call}

/-- A chain of accepted blocks whose first is not on the stack, above something that is, has
no block on the stack. -/
theorem Reached.chain_off_stack (h : e.Reached outs) (hc : ChainRule outs) {low : BufferedBlock}
    (hlow : low ∈ stackOf outs) {os : List BufferedBlock} (hmem : ∀ o ∈ os, o ∈ accepted outs)
    (hlinked : os.IsChain fun a b => b.parentId = a.blockId) (hasc : Ascending os)
    (hfirst : ∀ o, os.head? = some o →
      low.height ≤ o.height ∧ ∀ b ∈ stackOf outs, b.blockId ≠ o.blockId) :
    ∀ o ∈ os, ∀ b ∈ stackOf outs, b.blockId ≠ o.blockId := by
  induction os with
  | nil => simp
  | cons o os ih =>
    obtain ⟨hle, hoff⟩ := hfirst o rfl
    obtain ⟨ho, hos⟩ := List.forall_mem_cons.1 hmem
    refine List.forall_mem_cons.2 ⟨hoff, ih hos hlinked.tail hasc.tail fun o₂ hhead => ?_⟩
    have hpar : o₂.parentId = o.blockId := (List.isChain_cons.1 hlinked).1 o₂ hhead
    have hht : o₂.height = o.height + 1 := (List.isChain_cons.1 hasc).1 o₂ hhead
    refine ⟨by omega, fun b hb hid => ?_⟩
    obtain ⟨hbh, hbp⟩ := h.eq_of_blockId hc (mem_accepted_of_mem_stackOf hb)
      (hos o₂ (List.mem_of_head? hhead)) hid
    obtain ⟨t, ht, hbt, -⟩ := exists_parent_of_lt h.isChain_parent hc.isChain_height hb hlow
      (by omega)
    exact hoff t ht (by rw [← hbt, hbp, hpar])

/-- **Once the kept tip is on the stack, no orphan is**: they start at the height of the
tip, and the stack has one block at a height. -/
theorem Reached.orphans_off_stack (h : e.Reached outs) (hc : ChainRule outs) {g : ForkObservation}
    {tip low : BufferedBlock} {orphans : List BufferedBlock} (hf : ForkOf outs g tip orphans)
    (hlow : low ∈ stackOf outs) (hid : low.blockId = g.keptTip) :
    ∀ i ∈ g.orphanedTips, ∀ b ∈ stackOf outs, b.blockId ≠ i := by
  have hheight := (h.eq_of_blockId hc (mem_accepted_of_mem_stackOf hlow) hf.tip_mem
    (hid.trans hf.tip_id.symm)).1
  have hoff := h.chain_off_stack hc hlow hf.mem hf.linked hf.ascending fun o ho => by
    obtain ⟨hoh, hoi⟩ := hf.first o ho
    refine ⟨by omega, fun b hb hbo => hoi ?_⟩
    have hbh := (h.eq_of_blockId hc (mem_accepted_of_mem_stackOf hb)
      (hf.mem o (List.mem_of_head? ho)) hbo).1
    obtain rfl := eq_of_height_eq hc.isChain_height hb hlow (by omega)
    rw [← hbo, hid, hf.tip_id]
  intro i hi b hb
  rw [hf.ids] at hi
  obtain ⟨o, ho, rfl⟩ := List.mem_map.1 hi
  exact hoff o (List.mem_reverse.1 ho) b hb

/-! ### What is announced -/

/-- The announcements, the stack and the buffer. -/
structure Named (e : ReorgEngine) (outs : List Output) : Prop where
  onStack : ∀ b ∈ irreversibles outs, b ∈ stackOf outs
  low : ∀ b ∈ irreversibles outs, Covers e.lastIrreversibleHeight b.height
  /-- A buffered block at or below the high-water mark was announced. -/
  named : ∀ b ∈ e.canonical, Covers e.lastIrreversibleHeight b.height → b ∈ irreversibles outs

/-- What the mark covers after a walk it covered before, or the walk named it. -/
theorem covers_or_mem_crossed (hasc : Ascending f.canonical) {b : BufferedBlock}
    (hb : b ∈ f.canonical)
    (hcov : Covers (raised f.lastIrreversibleHeight f.crossed) b.height) :
    Covers f.lastIrreversibleHeight b.height ∨ b ∈ f.crossed := by
  cases hs : f.solidifiedHead with
  | none =>
    rw [crossed_eq_nil hs] at hcov
    exact Or.inl hcov
  | some s =>
    rw [crossed_eq hs] at hcov ⊢
    obtain ⟨l, hl, hbl⟩ := hcov
    cases hlast : (crossing s f.canonical f.lastIrreversibleHeight).getLast? with
    | none =>
      rw [raised, hlast] at hl
      exact Or.inl ⟨l, hl, hbl⟩
    | some x =>
      rw [raised, hlast] at hl
      obtain rfl : x.height = l := Option.some.inj hl
      have hxs := mem_reach_le ((crossing_sublist ..).subset (List.mem_of_getLast? hlast))
      have hbr := mem_reach_of_le hasc.pairwise hb (Nat.le_trans hbl hxs)
      obtain ⟨skipped, hsk, hcovered⟩ := exists_skipped s f.lastIrreversibleHeight hasc.pairwise
      rw [hsk] at hbr
      rcases List.mem_append.1 hbr with hbr | hbr
      · exact Or.inl (hcovered b hbr)
      · exact Or.inr hbr

/-- Settling announces the buffered blocks that the mark comes to cover. -/
theorem Named.settle (h : f.Named hist) (ht : f.Tracks (stackOf hist))
    (hasc : Ascending f.canonical) (pre : List Output) :
    (f.settle pre).1.Named (hist ++ (f.marks ++ f.resolutions)) := by
  have hirr : irreversibles (hist ++ (f.marks ++ f.resolutions)) =
      irreversibles hist ++ f.crossed := by
    rw [irreversibles_append, irreversibles_settled]
  rw [settle_eq]
  refine ⟨fun b hb => ?_, fun b hb => ?_, fun b hb hcov => ?_⟩
  · rw [hirr] at hb
    rw [stackOf_settled]
    rcases List.mem_append.1 hb with hb | hb
    · exact h.onStack b hb
    · exact ht.mem (f.crossed_sublist.subset hb)
  · rw [hirr] at hb
    rcases List.mem_append.1 hb with hb | hb
    · exact covers_raised_crossed (h.low b hb)
    · exact covers_of_mem_crossed hb
  · rw [hirr]
    have hbc := List.mem_of_mem_drop hb
    rcases covers_or_mem_crossed hasc hbc hcov with hold | hnew
    · exact List.mem_append_left _ (h.named b hbc hold)
    · exact List.mem_append_right _ hnew

/-- Attaching a block drops none that was announced. -/
theorem Attaches.named {d : DecodedBlock} {kept orphans : List BufferedBlock}
    (ha : Attaches e d kept orphans) (txInfos : List DecodedTxInfo) (h : e.Named outs)
    (hlast : e.LastAnnounced outs) (ht : e.Tracks (stackOf outs)) (hasc : Ascending e.canonical)
    (hh : (stackOf (outs ++ e.attachOutputs orphans d txInfos)).IsChain heightLink) :
    (e.attached kept orphans d txInfos).Named (outs ++ e.attachOutputs orphans d txInfos) := by
  have hirr := e.irreversibles_append_attachOutputs outs orphans d txInfos
  obtain ⟨rest, -, hst, -, hlow⟩ := ha.stack_split txInfos ht hasc
  have hpw := pairwise_height_of_isChain hh
  rw [hst] at hpw
  refine ⟨fun b hb => ?_, fun b hb => ?_, fun b hb hcov => ?_⟩
  · rw [hirr] at hb
    rw [hst]
    exact List.mem_cons_of_mem _ (hlow b (h.onStack b hb) (h.low b hb))
  · rw [hirr] at hb
    exact h.low b hb
  · rw [hirr]
    rcases List.mem_append.1 hb with hb | hb
    · exact h.named b (by rw [ha.split]; exact List.mem_append_left _ hb) hcov
    · -- the block added is above the last one announced
      obtain rfl := List.mem_singleton.1 hb
      obtain ⟨l, hl, hbl⟩ := hcov
      obtain ⟨x, hx, rfl⟩ := Option.map_eq_some_iff.1 (hlast.mark.symm.trans hl)
      have hxm := List.mem_of_getLast? hx
      have := (List.pairwise_cons.1 hpw).1 x (hlow x (h.onStack x hxm) (h.low x hxm))
      omega

/-! ### One call -/

/-- Every pending observation is what a reorg of the run was. -/
def Entries (e : ReorgEngine) (outs : List Output) : Prop :=
  ∀ g ∈ e.forkHistory, ∃ tip orphans, ForkOf outs g tip orphans

/-- The first pending observation is above the solidified head. -/
def FrontAbove (e : ReorgEngine) : Prop :=
  ∀ s g, e.solidifiedHead = some s → e.forkHistory.head? = some g → s < g.observedAtHeight

/-- What is left pending was pending. -/
theorem pending_subset (e : ReorgEngine) : ∀ g ∈ e.pending, g ∈ e.forkHistory := by
  intro g hg
  rw [← e.resolved_append_pending]
  exact List.mem_append_right _ hg

/-- After settling the head is below the front of the queue. -/
theorem frontAbove_settle (f : ReorgEngine) (pre : List Output) : (f.settle pre).1.FrontAbove := by
  rw [settle_eq]
  intro s g hs hg
  have hhead := List.head?_dropWhile_not (fun o : ForkObservation => decide (o.observedAtHeight ≤ s))
    f.forkHistory
  have hpend : f.pending =
      f.forkHistory.dropWhile fun o => decide (o.observedAtHeight ≤ s) := by
    rw [pending, show f.solidifiedHead = some s from hs, Option.elim_some]
  rw [← hpend, show f.pending.head? = some g from hg] at hhead
  simpa using hhead

/-- A head that the front is above resolves nothing. -/
theorem takeWhile_eq_nil_of_front {s : ℕ} (h : ∀ g, e.forkHistory.head? = some g →
    s < g.observedAtHeight) :
    (e.forkHistory.takeWhile fun o => decide (o.observedAtHeight ≤ s)) = [] := by
  cases hq : e.forkHistory with
  | nil => rfl
  | cons g q =>
    have := h g (by rw [hq]; rfl)
    exact List.takeWhile_cons_of_neg (by simpa using this)

/-- **The observation of a reorg**, under the chain rule: it names the new tip, and the
orphans are the chain that stood from its height on. -/
theorem Attaches.forkOf (h : e.Reached outs) {d : DecodedBlock} {kept orphans : List BufferedBlock}
    (ha : Attaches e d kept orphans) (txInfos : List DecodedTxInfo) (hne : orphans ≠ [])
    (hasc : Ascending e.canonical)
    (hh : (stackOf (outs ++ e.attachOutputs orphans d txInfos)).IsChain heightLink) :
    ForkOf (outs ++ e.attachOutputs orphans d txInfos) (observation d orphans)
      (bufferedBlock e.nextForkId d txInfos) orphans := by
  have hmem : ∀ b ∈ e.canonical, b ∈ accepted (outs ++ e.attachOutputs orphans d txInfos) := by
    intro b hb
    rw [accepted_append]
    exact List.mem_append_left _ (mem_accepted_of_mem_stackOf (h.tracks.mem hb))
  have hsub : ∀ o ∈ orphans, o ∈ e.canonical := by
    intro o ho
    rw [ha.split]
    exact List.mem_append_right _ ho
  have hlinked := h.wf.linked
  rw [ha.split] at hlinked
  have hasc' := hasc
  rw [ha.split] at hasc'
  obtain ⟨rest, -, hst, hkept, -⟩ := ha.stack_split txInfos h.tracks hasc
  refine ⟨?_, rfl, rfl, rfl, fun o ho => hmem o (hsub o ho), hlinked.right_of_append,
    hasc'.right_of_append, fun o ho => ⟨?_, ha.fresh o (hsub o (List.mem_of_head? ho))⟩⟩
  · refine mem_accepted_of_mem_stackOf ?_
    rw [hst]
    exact List.mem_cons_self ..
  · rcases ha.cases with ⟨-, hnil, -⟩ | ⟨init, p, rfl, -, -⟩
    · exact absurd hnil hne
    · -- both are one above the block they have as parent
      have hop : o.height = p.height + 1 :=
        (List.isChain_append.1 hasc').2.2 p (by simp) o ho
      obtain ⟨below, hbelow⟩ := h.tracks.top
      have hnew := hh
      rw [stackOf_append, hbelow, ha.split, List.reverse_append, List.append_assoc,
        replay_attachOutputs, List.reverse_append, List.reverse_singleton, List.singleton_append,
        List.cons_append] at hnew
      have hbp : (bufferedBlock e.nextForkId d txInfos).height = p.height + 1 :=
        (List.isChain_cons_cons.1 hnew).1
      omega

/-- What is kept of an engine and of everything it has emitted. -/
structure Ledgered (e : ReorgEngine) (outs : List Output) : Prop where
  announced : e.Announced outs
  named : e.Named outs
  entries : e.Entries outs
  front : e.FrontAbove

/-- `set_solidified_head(s)` names survivors only: the kept tip of every observation it
resolves is buffered, or was announced before. -/
def KeepsTips (e : ReorgEngine) (hist : List Output) : Call → Prop
  | .accept _ _ => True
  | .setSolidifiedHead s =>
    ∀ g ∈ e.forkHistory.takeWhile fun o => decide (o.observedAtHeight ≤ s),
      (∃ b ∈ e.canonical, b.blockId = g.keptTip) ∨
        ∃ b ∈ irreversibles hist, b.blockId = g.keptTip

/-- Whether a survivor is named depends on the stack and the announcements alone. -/
theorem survivor_congr {hist hist' : List Output} {tip : BlockId} {orphans : List BlockId}
    (hst : stackOf hist = stackOf hist') (hirr : irreversibles hist = irreversibles hist') :
    Survivor hist tip orphans ↔ Survivor hist' tip orphans := by
  constructor
  · rintro ⟨h₁, h₂, h₃⟩
    exact ⟨hst ▸ h₁, hirr ▸ h₂, hst ▸ h₃⟩
  · rintro ⟨h₁, h₂, h₃⟩
    exact ⟨hst ▸ h₁, hirr ▸ h₂, hst ▸ h₃⟩

/-- While the ledger is drained, stack and announcements stay as the walk left them. -/
theorem resolvedReal_settled (f : ReorgEngine) (hist : List Output) :
    ResolvedReal (hist ++ (f.marks ++ f.resolutions)) ↔ ResolvedReal hist ∧
      ∀ g ∈ f.resolved, Survivor (hist ++ (f.marks ++ f.resolutions)) g.keptTip g.orphanedTips := by
  have hmarks : resolvedForks f.marks = [] := by
    refine List.filterMap_eq_nil_iff.2 fun o ho => ?_
    obtain ⟨b, -, rfl⟩ := List.mem_map.1 ho
    rfl
  -- the same at every moment of the draining
  have hsame : ∀ pre post, f.resolutions = pre ++ post → ∀ tip orphans,
      Survivor (hist ++ f.marks ++ pre) tip orphans ↔
        Survivor (hist ++ (f.marks ++ f.resolutions)) tip orphans := by
    intro pre post hsplit tip orphans
    have hidle : ∀ x ∈ post.map Output.event, x.Idle := by
      intro x hx
      obtain ⟨o, ho, rfl⟩ := List.mem_map.1 hx
      exact f.idle_resolutions o (by rw [hsplit]; exact List.mem_append_right _ ho)
    have hirr : irreversibles post = [] := by
      refine List.filterMap_eq_nil_iff.2 fun o ho => ?_
      obtain ⟨g, -, rfl⟩ := List.mem_map.1 (show o ∈ f.resolutions by
        rw [hsplit]; exact List.mem_append_right _ ho)
      rfl
    rw [hsplit, ← List.append_assoc, ← List.append_assoc]
    refine survivor_congr ?_ ?_
    · rw [stackOf_append _ post, Replay.replay_of_idle hidle]
    · rw [irreversibles_append _ post, hirr, List.append_nil]
  rw [← List.append_assoc, resolvedReal_append, resolvedReal_append_of_nil hmarks]
  refine and_congr_right fun _ => ⟨fun h g hg => ?_, fun h pre o post ho => ?_⟩
  · obtain ⟨pre, post, hsplit⟩ := List.append_of_mem hg
    have hres : f.resolutions = pre.map (fun o => .forkResolved o.observedAtHeight
        (f.solidifiedHead.getD 0) o.keptTip o.orphanedTips) ++
        .forkResolved g.observedAtHeight (f.solidifiedHead.getD 0) g.keptTip g.orphanedTips ::
        post.map (fun o => .forkResolved o.observedAtHeight (f.solidifiedHead.getD 0) o.keptTip
          o.orphanedTips) := by
      rw [resolutions, hsplit, List.map_append, List.map_cons]
    rw [List.append_assoc]
    exact (hsame _ _ hres _ _).1 (h _ _ _ hres)
  · obtain ⟨g, hg, rfl⟩ := List.mem_map.1 (show o ∈ f.resolutions by rw [ho]; simp)
    have := h g hg
    rw [List.append_assoc] at this
    exact (hsame _ _ ho _ _).2 this

/-- **Under the chain rule `accept` resolves nothing**: a reorg at a height the head has
reached would orphan an announced block. -/
theorem Ledgered.resolved_attached (h : e.Ledgered outs) {d : DecodedBlock}
    {kept orphans : List BufferedBlock} (ha : Attaches e d kept orphans)
    (txInfos : List DecodedTxInfo) (hasc : Ascending e.canonical)
    (hh : (stackOf (outs ++ e.attachOutputs orphans d txInfos)).IsChain heightLink) :
    (e.attached kept orphans d txInfos).resolved = [] := by
  unfold resolved
  cases hs : e.solidifiedHead with
  | none =>
    rw [show (e.attached kept orphans d txInfos).solidifiedHead = none from hs]
    rfl
  | some s =>
    rw [show (e.attached kept orphans d txInfos).solidifiedHead = some s from hs,
      Option.elim_some]
    refine takeWhile_eq_nil_of_front fun g hg => ?_
    have hq : (e.attached kept orphans d txInfos).forkHistory =
        e.forkHistory ++ observations d orphans := rfl
    rw [hq] at hg
    cases hf : e.forkHistory with
    | cons g' q =>
      rw [hf] at hg
      obtain rfl := Option.some.inj hg
      exact h.front s g' hs (by rw [hf]; rfl)
    | nil =>
      rw [hf, List.nil_append, observations] at hg
      split_ifs at hg with ho
      · cases hg
      · obtain rfl := Option.some.inj hg
        obtain ⟨o, os, rfl⟩ := List.exists_cons_of_ne_nil ho
        have hfork := ha.forkOf h.announced.reached txInfos ho hasc hh
        have hoh := (hfork.first o rfl).1
        have hdh : (observation d (o :: os)).observedAtHeight = o.height := by
          rw [← hfork.tip_height, hoh]
        rw [hdh]
        by_contra hle
        obtain ⟨l, hl, hol⟩ := h.announced.caught s hs o
          (by rw [ha.split]; simp) (by omega)
        have := ha.guard l o hl rfl
        omega

/-- A tip that is buffered at or below the new head, or was announced, is on the stack and
announced once the walk is done. -/
theorem Ledgered.survivor_iff (h : e.Ledgered outs) {s : ℕ}
    (hr : e'.Reached (outs ++ ((e.withHead s).marks ++ (e.withHead s).resolutions)))
    (hc : ChainRule (outs ++ ((e.withHead s).marks ++ (e.withHead s).resolutions)))
    {g : ForkObservation} (hg : g ∈ e.forkHistory) (hgs : g.observedAtHeight ≤ s) :
    Survivor (outs ++ ((e.withHead s).marks ++ (e.withHead s).resolutions)) g.keptTip
        g.orphanedTips ↔
      (∃ b ∈ e.canonical, b.blockId = g.keptTip) ∨
        ∃ b ∈ irreversibles outs, b.blockId = g.keptTip := by
  have hasc := h.announced.reached.tracks.ascending hc.of_append.isChain_height
  have hst := (e.withHead s).stackOf_settled outs
  have hirr : irreversibles (outs ++ ((e.withHead s).marks ++ (e.withHead s).resolutions)) =
      irreversibles outs ++ (e.withHead s).crossed := by
    rw [irreversibles_append, irreversibles_settled]
  have hcr : ∀ b ∈ (e.withHead s).crossed, b ∈ e.canonical :=
    fun b hb => (e.withHead s).crossed_sublist.subset hb
  constructor
  · rintro ⟨-, ⟨b, hb, hid⟩, -⟩
    rw [hirr] at hb
    rcases List.mem_append.1 hb with hb | hb
    · exact Or.inr ⟨b, hb, hid⟩
    · exact Or.inl ⟨b, hcr b hb, hid⟩
  · intro hor
    -- in both cases some block with the id is on the stack and announced
    have hboth : ∃ b ∈ stackOf outs, b.blockId = g.keptTip ∧
        b ∈ irreversibles outs ++ (e.withHead s).crossed := by
      rcases hor with ⟨b, hb, hid⟩ | ⟨b, hb, hid⟩
      · have hbst := h.announced.reached.tracks.mem hb
        refine ⟨b, hbst, hid, ?_⟩
        obtain ⟨tip, orphans, hf⟩ := h.entries g hg
        have hbh := (h.announced.reached.eq_of_blockId hc.of_append
          (mem_accepted_of_mem_stackOf hbst) hf.tip_mem (hid.trans hf.tip_id.symm)).1
        have hth := hf.tip_height
        have hreach : b ∈ reach s e.canonical := mem_reach_of_le hasc.pairwise hb (by omega)
        obtain ⟨skipped, hsk, hcov⟩ := exists_skipped s e.lastIrreversibleHeight hasc.pairwise
        rw [hsk] at hreach
        rcases List.mem_append.1 hreach with hbs | hbs
        · exact List.mem_append_left _ (h.named.named b hb (hcov b hbs))
        · exact List.mem_append_right _ hbs
      · exact ⟨b, h.named.onStack b hb, hid, List.mem_append_left _ hb⟩
    obtain ⟨b, hbst, hid, hbi⟩ := hboth
    rw [← hst] at hbst
    obtain ⟨tip, orphans, hf⟩ := h.entries g hg
    exact ⟨⟨b, hbst, hid⟩, ⟨b, by rw [hirr]; exact hbi, hid⟩,
      hr.orphans_off_stack hc (hf.mono _) hbst hid⟩

/-- **One call and the survivors.** A call of `accept` resolves nothing, and one of
`set_solidified_head` names survivors exactly when it meets the condition. -/
theorem Ledgered.step (h : e.Ledgered outs) (hs : Step e c e' out)
    (hc : ChainRule (outs ++ out)) :
    e'.Ledgered (outs ++ out) ∧
      (ResolvedReal (outs ++ out) ↔ ResolvedReal outs ∧ e.KeepsTips outs c) := by
  obtain ⟨hann, -⟩ := h.announced.step hs hc
  have hasc := h.announced.reached.tracks.ascending hc.of_append.isChain_height
  cases hs with
  | refused d txInfos =>
    rw [List.append_nil]
    exact ⟨h, ⟨fun hr => ⟨hr, trivial⟩, fun hr => hr.1⟩⟩
  | stale s p hp hs =>
    rw [List.append_nil]
    refine ⟨h, ⟨fun hr => ⟨hr, ?_⟩, fun hr => hr.1⟩⟩
    have hnil := takeWhile_eq_nil_of_front (s := s) fun g hg =>
      Nat.lt_of_le_of_lt hs (h.front p g hp hg)
    rw [KeepsTips, hnil]
    simp
  | attached d txInfos kept orphans ha =>
    rw [attach_snd, ← List.append_assoc] at hann hc ⊢
    have hh := hc.of_append.isChain_height
    obtain ⟨-, ht⟩ := ha.replay txInfos h.announced.reached.tracks
    rw [← stackOf_append] at ht
    have hasc' := ht.ascending hh
    have hnamed := ha.named txInfos h.named h.announced.last h.announced.reached.tracks hasc hh
    refine ⟨⟨hann, hnamed.settle ht hasc' _, fun g hg => ?_, frontAbove_settle _ _⟩, ?_⟩
    · have hgq : g ∈ e.forkHistory ++ observations d orphans := by
        rw [attach, settle_eq] at hg
        exact pending_subset _ g hg
      rcases List.mem_append.1 hgq with hgq | hgq
      · obtain ⟨tip, os, hf⟩ := h.entries g hgq
        exact ⟨tip, os, (hf.mono _).mono _⟩
      · rw [observations] at hgq
        split_ifs at hgq with ho
        · cases hgq
        · obtain rfl := List.mem_singleton.1 hgq
          exact ⟨_, _, (ha.forkOf h.announced.reached txInfos ho hasc hh).mono _⟩
    · rw [resolvedReal_settled, h.resolved_attached ha txInfos hasc hh,
        resolvedReal_append_of_nil (e.resolvedForks_attachOutputs orphans d txInfos)]
      exact ⟨fun hr => ⟨hr.1, trivial⟩, fun hr => ⟨hr.1, by simp⟩⟩
  | head s hs =>
    rw [settle_nil_snd] at hann hc ⊢
    have ht : (e.withHead s).Tracks (stackOf outs) :=
      ⟨h.announced.reached.tracks.top, h.announced.reached.tracks.fresh⟩
    have hnamed : (e.withHead s).Named outs := ⟨h.named.onStack, h.named.low, h.named.named⟩
    refine ⟨⟨hann, hnamed.settle ht hasc [], fun g hg => ?_, frontAbove_settle _ _⟩, ?_⟩
    · have hgq : g ∈ e.forkHistory := by
        rw [settle_eq] at hg
        exact (e.withHead s).pending_subset g hg
      obtain ⟨tip, os, hf⟩ := h.entries g hgq
      exact ⟨tip, os, hf.mono _⟩
    · rw [resolvedReal_settled]
      refine and_congr_right fun _ => forall_congr' fun g => imp_congr_right fun hg => ?_
      have hgs : g.observedAtHeight ≤ s := by simpa using List.mem_takeWhile_imp hg
      exact h.survivor_iff hann.reached hc ((List.takeWhile_sublist _).subset hg) hgs

/-- A fresh engine has observed nothing. -/
theorem ledgered_new {config : ReorgConfig} (h : ReorgEngine.new config = some e) :
    e.Ledgered [] := by
  have hann := announced_new h
  obtain rfl := eq_of_new h
  refine ⟨hann, ⟨by simp [irreversibles], by simp [irreversibles], by simp⟩, by simp [Entries],
    fun s g hs => ?_⟩
  cases hs

/-- **A run and the survivors.** Every fork it resolves names a block that stayed exactly
when each of its calls meets the condition. -/
theorem Ledgered.run {calls : List Call} (h : e.Ledgered hist)
    (hr : Run.run call e calls = some (e', outs)) (hc : ChainRule (hist ++ outs)) :
    ResolvedReal (hist ++ outs) ↔
      ResolvedReal hist ∧ Run.AlongHist KeepsTips call e hist calls := by
  refine Run.hist_iff_alongHist (K := Ledgered) (H := ChainRule) (fun _ _ hc => hc.of_append)
    (fun _ _ _ _ _ h hc hcall => ?_) h hr hc
  exact h.step (step_of_call h.announced.reached.wf hcall) hc

end ReorgEngine

/-- **When `ForkResolved` names the survivor.**  Under the chain rule, every `ForkResolved` of
a run of a fresh engine names a tip that is on the consumer's stack and was announced, and
orphans none of which is on the stack, exactly when at every `set_solidified_head` the kept
tip of every fork it resolves is buffered or was announced before. -/
theorem resolvedReal_iff_along (config : ReorgConfig) (calls : List Call) (e₀ e : ReorgEngine)
    (outs : List Output) (hnew : ReorgEngine.new config = some e₀)
    (hrun : Run.run ReorgEngine.call e₀ calls = some (e, outs)) (hc : ChainRule outs) :
    ResolvedReal outs ↔ Run.AlongHist ReorgEngine.KeepsTips ReorgEngine.call e₀ [] calls := by
  have h := (ReorgEngine.ledgered_new hnew).run hrun hc
  rw [List.nil_append] at h
  rw [h]
  exact and_iff_right Replay.throughout_nil

/-- The second block is replaced and comes back; then the head reaches it. -/
def thereAndBack : List Call :=
  [.accept (synthAt 1 0 0) [], .accept (synthAt 2 0 0) [], .accept (synthAt 2 1 0) [],
    .accept (synthAt 2 0 0) [], .setSolidifiedHead 2]

/-- **`ForkResolved` can name an orphan**: the first of two forks is resolved in favour of a
block that a later reorg had orphaned. -/
theorem resolves_orphan : ¬ ∀ (config : ReorgConfig) (calls : List Call) (e : ReorgEngine)
    (outs : List Output), runFresh config calls = some (e, outs) → ChainRule outs →
      ResolvedReal outs := by
  intro h
  have hrun := h ReorgConfig.default thereAndBack _ _ rfl (by decide)
  revert hrun
  decide

/-- The hypotheses hold of a run with one fork, resolved in favour of the survivor. -/
theorem resolvedReal_iff_along_oneFork :
    ∃ e₀ e outs, ReorgEngine.new ReorgConfig.default = some e₀ ∧
      Run.run ReorgEngine.call e₀ [.accept (synthAt 1 0 0) [], .accept (synthAt 2 0 0) [],
        .accept (synthAt 2 1 0) [], .setSolidifiedHead 2] = some (e, outs) ∧
      (ResolvedReal outs ↔ Run.AlongHist ReorgEngine.KeepsTips ReorgEngine.call e₀ []
        [.accept (synthAt 1 0 0) [], .accept (synthAt 2 0 0) [], .accept (synthAt 2 1 0) [],
          .setSolidifiedHead 2]) :=
  ⟨_, _, _, rfl, rfl, resolvedReal_iff_along ReorgConfig.default _ _ _ _ rfl rfl (by decide)⟩

end Relayer
end Lightcycle
