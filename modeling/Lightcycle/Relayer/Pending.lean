/-
# Are stale fork observations dropped?

`fork_history` says of itself that it is bounded by the buffer window and a small slack,
and that observations older than the buffer are dropped silently.  No code does that.
`maybe_prune_buffer` forgets blocks and leaves the ledger alone; the ledger is drained by
`maybe_resolve_forks` only, which does nothing while no solidified head is known.

With heights one above the parent's the front of the buffer moves only when a child of
the tip comes in while the buffer is full, and then by one.  So an observation goes stale
exactly when it is at the height of the block pruned, and the ledger outgrows its bound
exactly when a reorg comes in while it is full: `Sheds` is this condition on one call, and
`ledgerBounded_iff_along` says that it is exact, for every slack.
-/

import Lightcycle.Relayer.Survivor

namespace Lightcycle
namespace Relayer

/-- Each accepted non-first block is one higher than its parent. -/
def HeightRule (outs : List Output) : Prop := Replay.Sound heightLink [] (outs.map Output.event)

instance (outs : List Output) : Decidable (HeightRule outs) :=
  inferInstanceAs (Decidable (Replay.Sound _ _ _))

/-- The rule holds of the beginning of a run. -/
theorem HeightRule.of_append (outs outs' : List Output) (h : HeightRule (outs ++ outs')) :
    HeightRule outs := by
  rw [HeightRule, List.map_append, Replay.sound_append] at h
  exact h.1

/-- Down the stack the heights fall by one. -/
theorem HeightRule.isChain {outs : List Output} (h : HeightRule outs) :
    (stackOf outs).IsChain heightLink :=
  Replay.Sound.isChain h List.isChain_nil

namespace ReorgEngine

variable {e e' : ReorgEngine} {outs out : List Output} {c : Call} {slack : ℕ}

/-- No pending observation is below the oldest buffered block, and they are at most the
window and the slack. -/
structure LedgerBounded (slack : ℕ) (e : ReorgEngine) : Prop where
  current : ∀ b, e.canonical.head? = some b → ∀ o ∈ e.forkHistory, b.height ≤ o.observedAtHeight
  bounded : e.forkHistory.length ≤ e.config.bufferWindow + slack

/-- The call leaves no observation behind: a child of the tip that finds the buffer full
finds nothing pending at the height of the block it pushes out, and a reorg finds room in
the ledger. -/
def Sheds (slack : ℕ) (e : ReorgEngine) : Call → Prop
  | .accept d _ =>
    (Attaches e d e.canonical [] → e.canonical.length = e.config.bufferWindow →
      ∀ b, e.canonical.head? = some b → ∀ o ∈ e.forkHistory, b.height < o.observedAtHeight) ∧
    (e.Reorgs d → e.forkHistory.length < e.config.bufferWindow + slack)
  | .setSolidifiedHead _ => True

/-- What is kept of an engine and of everything it has emitted. -/
structure Filed (e : ReorgEngine) (outs : List Output) : Prop where
  reached : e.Reached outs
  front : e.FrontAbove
  /-- Only a reorg is observed, and a reorg leaves something buffered. -/
  first : e.canonical = [] → e.forkHistory = []

/-! ### What one call leaves pending -/

/-- What `accept` leaves pending: the ledger is drained only when the reorg just observed is
alone in it. -/
theorem FrontAbove.pending_attached (h : e.FrontAbove) (kept orphans : List BufferedBlock)
    (d : DecodedBlock) (txInfos : List DecodedTxInfo) :
    (e.attached kept orphans d txInfos).pending = e.forkHistory ++ observations d orphans ∨
      e.forkHistory = [] ∧ (e.attached kept orphans d txInfos).pending = [] := by
  have hq : (e.attached kept orphans d txInfos).forkHistory =
      e.forkHistory ++ observations d orphans := rfl
  cases hs : e.solidifiedHead with
  | none =>
    left
    rw [pending, show (e.attached kept orphans d txInfos).solidifiedHead = none from hs,
      Option.elim_none, hq]
  | some s =>
    rw [pending, show (e.attached kept orphans d txInfos).solidifiedHead = some s from hs,
      Option.elim_some, hq]
    cases hf : e.forkHistory with
    | cons g q =>
      left
      have hg : s < g.observedAtHeight := h s g hs (by rw [hf]; rfl)
      rw [List.cons_append, List.dropWhile_cons, if_neg (by simpa using hg)]
    | nil =>
      rw [List.nil_append, observations]
      split_ifs with ho
      · exact Or.inl rfl
      · rw [List.dropWhile_cons]
        split_ifs with hd
        · exact Or.inr ⟨rfl, rfl⟩
        · exact Or.inl rfl

/-- Without orphans nothing is added to the ledger or drained. -/
theorem FrontAbove.pending_extended (h : e.FrontAbove) (kept : List BufferedBlock)
    (d : DecodedBlock) (txInfos : List DecodedTxInfo) :
    (e.attached kept [] d txInfos).pending = e.forkHistory := by
  rcases h.pending_attached kept [] d txInfos with hp | ⟨hnil, hp⟩
  · rw [hp, observations, if_pos rfl, List.append_nil]
  · rw [hp, hnil]

/-- One call files what it observes. -/
theorem Filed.step (h : e.Filed outs) (hs : Step e c e' out) : e'.Filed (outs ++ out) := by
  have hreach := h.reached.step hs
  cases hs with
  | refused d txInfos => exact ⟨hreach, h.front, h.first⟩
  | stale s p hp hs => exact ⟨hreach, h.front, h.first⟩
  | attached d txInfos kept orphans ha =>
    refine ⟨hreach, frontAbove_settle _ _, fun hnil => ?_⟩
    exact absurd hnil (canonical_attach_ne_nil h.reached.wf kept orphans d txInfos)
  | head s hs =>
    refine ⟨hreach, frontAbove_settle _ _, fun hnil => ?_⟩
    rw [settle_eq] at hnil ⊢
    have hlen : (e.withHead s).canonical.length - (e.withHead s).config.bufferWindow = 0 :=
      Nat.sub_eq_zero_of_le h.reached.wf.len_le
    rw [hlen, List.drop_zero] at hnil
    refine List.eq_nil_iff_forall_not_mem.2 fun g hg => ?_
    have hmem : g ∈ e.forkHistory := (e.withHead s).pending_subset g hg
    rw [h.first hnil] at hmem
    cases hmem

/-- A fresh engine has nothing to file. -/
theorem filed_new {config : ReorgConfig} (h : ReorgEngine.new config = some e) : e.Filed [] := by
  have hreached := reached_new h
  obtain rfl := eq_of_new h
  refine ⟨hreached, fun s g hs => ?_, fun _ => rfl⟩
  cases hs

/-! ### The bound -/

/-- The buffer after a child of the tip attaches: it moves by one block when it is full. -/
theorem canonical_extended (h : e.Wf) (d : DecodedBlock) (txInfos : List DecodedTxInfo) :
    (e.attach e.canonical [] d txInfos).1.canonical =
      if e.canonical.length = e.config.bufferWindow then
        (e.canonical ++ [bufferedBlock e.nextForkId d txInfos]).drop 1
      else e.canonical ++ [bufferedBlock e.nextForkId d txInfos] := by
  have hlen := h.len_le
  rw [attach, settle_eq]
  have hcan : (e.attached e.canonical [] d txInfos).canonical =
      e.canonical ++ [bufferedBlock e.nextForkId d txInfos] := rfl
  have hcfg : (e.attached e.canonical [] d txInfos).config = e.config := rfl
  simp only [hcan, hcfg, List.length_append, List.length_singleton]
  split_ifs with hfull
  · rw [show e.canonical.length + 1 - e.config.bufferWindow = 1 by omega]
  · rw [show e.canonical.length + 1 - e.config.bufferWindow = 0 by omega, List.drop_zero]

/-- **A child of the tip** leaves the ledger bounded exactly when nothing pending is at the
height of the block it pushes out. -/
theorem Filed.bounded_extend_iff (h : e.Filed outs) {d : DecodedBlock}
    (ha : Attaches e d e.canonical []) (txInfos : List DecodedTxInfo)
    (hasc : Ascending (e.canonical ++ [bufferedBlock e.nextForkId d txInfos]))
    (hb : e.LedgerBounded slack) :
    (e.attach e.canonical [] d txInfos).1.LedgerBounded slack ↔ e.Sheds slack (.accept d txInfos) := by
  have hpend : (e.attach e.canonical [] d txInfos).1.forkHistory = e.forkHistory := by
    rw [attach, settle_eq]
    exact h.front.pending_extended e.canonical d txInfos
  have hlen : (e.attach e.canonical [] d txInfos).1.forkHistory.length ≤
      (e.attach e.canonical [] d txInfos).1.config.bufferWindow + slack := by
    rw [hpend, attach, settle_eq]
    exact hb.bounded
  have hnoreorg : ¬ e.Reorgs d := by
    rintro ⟨kept, o, orphans, ha'⟩
    cases ha.orphans_eq h.reached.wf ha'
  -- the bound on the length is kept, so only the front matters
  have hfront : (e.attach e.canonical [] d txInfos).1.LedgerBounded slack ↔
      ∀ b, (e.attach e.canonical [] d txInfos).1.canonical.head? = some b →
        ∀ o ∈ e.forkHistory, b.height ≤ o.observedAtHeight :=
    ⟨fun hl => hpend ▸ hl.current, fun hl => ⟨hpend ▸ hl, hlen⟩⟩
  rw [hfront, canonical_extended h.reached.wf]
  cases hcan : e.canonical with
  | nil =>
    have hempty := h.first hcan
    refine ⟨fun _ => ⟨fun _ _ b hbh => ?_, fun hre => absurd hre hnoreorg⟩, fun _ b _ o ho => ?_⟩
    · rw [hcan] at hbh
      cases hbh
    · rw [hempty] at ho
      cases ho
  | cons b bs =>
    have hbh : e.canonical.head? = some b := by rw [hcan]; rfl
    by_cases hfull : e.canonical.length = e.config.bufferWindow
    · rw [if_pos (hcan ▸ hfull)]
      obtain ⟨x, rest, hx⟩ : ∃ x rest, bs ++ [bufferedBlock e.nextForkId d txInfos] = x :: rest :=
        List.exists_cons_of_ne_nil (by simp)
      have hxb : x.height = b.height + 1 := by
        rw [hcan, List.cons_append, hx] at hasc
        exact (List.isChain_cons_cons.1 hasc).1
      rw [List.cons_append, hx, List.drop_succ_cons, List.drop_zero, List.head?_cons]
      constructor
      · intro hall
        refine ⟨fun _ _ b' hb' o ho => ?_, fun hre => absurd hre hnoreorg⟩
        obtain rfl := Option.some.inj (hbh.symm.trans hb')
        have := hall x rfl o ho
        omega
      · rintro ⟨hshed, -⟩ x' hx' o ho
        obtain rfl := Option.some.inj hx'
        have := hshed ha hfull b hbh o ho
        omega
    · rw [if_neg (hcan ▸ hfull), List.cons_append, List.head?_cons]
      refine ⟨fun _ => ⟨fun _ hf => absurd hf hfull, fun hre => absurd hre hnoreorg⟩,
        fun _ b' hb' => ?_⟩
      exact hb.current b' (hbh.trans hb')

/-- **A reorg** leaves the ledger bounded exactly when there was room in it. -/
theorem Filed.bounded_reorg_iff (h : e.Filed outs) {d : DecodedBlock}
    {kept orphans : List BufferedBlock} (ha : Attaches e d kept orphans) (hne : orphans ≠ [])
    (txInfos : List DecodedTxInfo)
    (hasc : Ascending (kept ++ [bufferedBlock e.nextForkId d txInfos]))
    (hb : e.LedgerBounded slack) :
    (e.attach kept orphans d txInfos).1.LedgerBounded slack ↔ e.Sheds slack (.accept d txInfos) := by
  have hw := h.reached.wf
  have hpos : 0 < e.config.bufferWindow := Nat.zero_lt_of_lt hw.window
  obtain ⟨k, ks, rfl⟩ := List.exists_cons_of_ne_nil fun hnil => hne (ha.first hnil)
  -- the orphan's room is enough: nothing is pruned and the front stays
  have hfront : ((e.attach (k :: ks) orphans d txInfos).1).canonical.head? = some k := by
    have hlen := hw.len_le
    have ho := List.length_pos_iff.2 hne
    rw [ha.split, List.length_append, List.length_cons] at hlen
    rw [attach, settle_eq]
    have hcan : (e.attached (k :: ks) orphans d txInfos).canonical =
        k :: ks ++ [bufferedBlock e.nextForkId d txInfos] := rfl
    have hcfg : (e.attached (k :: ks) orphans d txInfos).config = e.config := rfl
    simp only [hcan, hcfg, List.length_append, List.length_cons, List.length_nil]
    rw [show ks.length + 1 + (0 + 1) - e.config.bufferWindow = 0 by omega]
    rfl
  have hkcan : e.canonical.head? = some k := by rw [ha.split]; rfl
  have hkd : k.height < d.header.height := by
    have hpw := hasc.pairwise
    rw [List.cons_append] at hpw
    exact (List.pairwise_cons.1 hpw).1 (bufferedBlock e.nextForkId d txInfos) (by simp)
  have hq : (e.attach (k :: ks) orphans d txInfos).1.forkHistory =
      (e.attached (k :: ks) orphans d txInfos).pending := by
    rw [attach, settle_eq]
  have hcfg : (e.attach (k :: ks) orphans d txInfos).1.config = e.config := by
    rw [attach, settle_eq]
    rfl
  have hcurrent : ∀ b, (e.attach (k :: ks) orphans d txInfos).1.canonical.head? = some b →
      ∀ o ∈ (e.attach (k :: ks) orphans d txInfos).1.forkHistory, b.height ≤ o.observedAtHeight := by
    intro b hbh o ho
    obtain rfl := Option.some.inj (hfront.symm.trans hbh)
    rw [hq] at ho
    have hmem : o ∈ e.forkHistory ++ observations d orphans := pending_subset _ o ho
    rcases List.mem_append.1 hmem with hmem | hmem
    · exact hb.current k hkcan o hmem
    · rw [observations, if_neg hne] at hmem
      obtain rfl := List.mem_singleton.1 hmem
      exact hkd.le
  have hnoext : ¬ Attaches e d e.canonical [] := fun ha' => hne (ha.orphans_eq hw ha')
  have hreorgs : e.Reorgs d := by
    obtain ⟨o, os, rfl⟩ := List.exists_cons_of_ne_nil hne
    exact ⟨k :: ks, o, os, ha⟩
  have hobs : observations d orphans = [observation d orphans] := if_neg hne
  have hroom : (e.attach (k :: ks) orphans d txInfos).1.LedgerBounded slack ↔
      (e.attached (k :: ks) orphans d txInfos).pending.length ≤ e.config.bufferWindow + slack := by
    refine ⟨fun hl => ?_, fun hl => ⟨hcurrent, ?_⟩⟩
    · have := hl.bounded
      rwa [hq, hcfg] at this
    · rwa [hq, hcfg]
  rw [hroom]
  constructor
  · intro hlen
    refine ⟨fun ha' => absurd ha' hnoext, fun _ => ?_⟩
    rcases h.front.pending_attached (k :: ks) orphans d txInfos with hp | ⟨hnil, -⟩
    · rw [hp, hobs, List.length_append, List.length_singleton] at hlen
      omega
    · rw [hnil, List.length_nil]
      omega
  · rintro ⟨-, hshed⟩
    have := hshed hreorgs
    rcases h.front.pending_attached (k :: ks) orphans d txInfos with hp | ⟨-, hp⟩
    · rw [hp, hobs, List.length_append, List.length_singleton]
      omega
    · rw [hp, List.length_nil]
      omega

/-- **One call and the bound on the ledger.** From a bounded ledger the next one is bounded
exactly when the call meets the condition of its case. -/
theorem Filed.bounded_call_iff (h : e.Filed outs) (hh : HeightRule (outs ++ out))
    (hb : e.LedgerBounded slack) (hc : e.call c = some (e', out)) :
    e'.LedgerBounded slack ↔ e.Sheds slack c := by
  have hw := h.reached.wf
  cases c with
  | setSolidifiedHead s =>
    refine iff_of_true ?_ trivial
    have hs := step_of_call hw hc
    cases hs with
    | stale => exact hb
    | head _ hs =>
      have hlen : (e.withHead s).canonical.length - (e.withHead s).config.bufferWindow = 0 :=
        Nat.sub_eq_zero_of_le hw.len_le
      rw [settle_eq, hlen]
      refine ⟨fun b hbh o ho => hb.current b hbh o ((e.withHead s).pending_subset o ho), ?_⟩
      have hshort : (e.withHead s).pending.length ≤ e.forkHistory.length := by
        have hsplit := congrArg List.length (e.withHead s).resolved_append_pending
        rw [List.length_append, show (e.withHead s).forkHistory = e.forkHistory from rfl] at hsplit
        omega
      exact hshort.trans hb.bounded
  | accept d txInfos =>
    obtain ⟨⟨e₁, r⟩, hacc, hout⟩ := Option.map_eq_some_iff.1 hc
    obtain ⟨rfl, rfl⟩ := Prod.mk.inj hout
    have hrefused : ∀ err, e.accept d txInfos = some (e, .error err) →
        (e₁.LedgerBounded slack ↔ e.Sheds slack (.accept d txInfos)) := by
      intro err herr
      have hnot := not_reorgs_of_error hw herr
      rw [hacc] at herr
      obtain ⟨rfl, rfl⟩ := Prod.mk.inj (Option.some.inj herr)
      refine iff_of_true hb ⟨fun ha => ?_, fun hre => absurd hre hnot⟩
      obtain ⟨e₂, out₂, hok⟩ := ha.accept_ok hw txInfos
      rw [hacc] at hok
      cases hok
    rcases accept_cases hw d txInfos with ⟨-, herr⟩ | ⟨tip, -, -, -, herr⟩ |
      ⟨pre, a, o, post, l, -, -, -, -, -, herr⟩ | ⟨kept, orphans, ha, hok⟩
    · exact hrefused _ herr
    · exact hrefused _ herr
    · exact hrefused _ herr
    · rw [hacc] at hok
      obtain ⟨rfl, rfl⟩ := Prod.mk.inj (Option.some.inj hok)
      have hasc : Ascending (kept ++ [bufferedBlock e.nextForkId d txInfos]) := by
        obtain ⟨-, ht⟩ := ha.replay txInfos h.reached.tracks
        rw [← stackOf_append] at ht
        have hh' : HeightRule (outs ++ e.attachOutputs orphans d txInfos) := by
          rw [emitted, attach_snd, ← List.append_assoc] at hh
          exact HeightRule.of_append _ _ hh
        exact ht.ascending hh'.isChain
      by_cases hne : orphans = []
      · subst hne
        obtain rfl : e.canonical = kept := by rw [ha.split, List.append_nil]
        exact h.bounded_extend_iff ha txInfos hasc hb
      · exact h.bounded_reorg_iff ha hne txInfos hasc hb

end ReorgEngine

/-- **When the ledger drops what is stale.**  In a run of a fresh engine whose accepted
non-first blocks are one higher than their parents, no state has an observation pending
below its oldest buffered block, or more of them than the window and the slack, exactly
when every child of the tip that finds the buffer full finds nothing pending at the height
of the oldest block, and every reorg finds room in the ledger. -/
theorem ledgerBounded_iff_along (slack : ℕ) (config : ReorgConfig) (calls : List Call)
    (e₀ e : ReorgEngine) (outs : List Output) (hnew : ReorgEngine.new config = some e₀)
    (hrun : Run.run ReorgEngine.call e₀ calls = some (e, outs)) (hh : HeightRule outs) :
    (∀ pre post e₁ o, calls = pre ++ post → Run.run ReorgEngine.call e₀ pre = some (e₁, o) →
      e₁.LedgerBounded slack) ↔
      Run.Along (ReorgEngine.Sheds slack) ReorgEngine.call e₀ calls := by
  refine Run.forall_reached_iff_along_of_hist (K := ReorgEngine.Filed) HeightRule.of_append
    (fun e hist c e' out h hc => ?_) (fun e hist c e' out h hh hb hc => h.bounded_call_iff hh hb hc)
    (ReorgEngine.filed_new hnew) ?_ hrun hh
  · exact h.step (ReorgEngine.step_of_call h.reached.wf hc)
  · obtain rfl := ReorgEngine.eq_of_new hnew
    exact ⟨by simp, Nat.zero_le _⟩

/-- A window of two blocks, a reorg at height 2, and no solidified head. -/
def neverSolidified : List Call :=
  [.accept (synthAt 1 0 0) [], .accept (synthAt 2 0 0) [], .accept (synthAt 2 1 0) [],
    .accept (synthAt 3 0 1) [], .accept (synthAt 4 0 0) []]

/-- **A stale observation stays pending**: the buffer holds heights 3 and 4, and the fork at
height 2 is still in the ledger. -/
theorem stale_fork_pending : ¬ ∀ (config : ReorgConfig) (calls : List Call) (e : ReorgEngine)
    (outs : List Output), runFresh config calls = some (e, outs) → HeightRule outs →
      ∀ b, e.canonical.head? = some b → ∀ o ∈ e.forkHistory, b.height ≤ o.observedAtHeight := by
  intro h
  have hstale := h ⟨2, 1⟩ neverSolidified _ _ rfl (by decide) _ rfl
    ⟨2, synthId 2 1, [synthId 2 0]⟩ (by decide)
  exact absurd hstale (by decide)

/-- The hypotheses hold of that run. -/
theorem ledgerBounded_iff_along_neverSolidified :
    ∃ e₀ e outs, ReorgEngine.new ⟨2, 1⟩ = some e₀ ∧
      Run.run ReorgEngine.call e₀ neverSolidified = some (e, outs) ∧
      ((∀ pre post e₁ o, neverSolidified = pre ++ post →
        Run.run ReorgEngine.call e₀ pre = some (e₁, o) → e₁.LedgerBounded 3) ↔
        Run.Along (ReorgEngine.Sheds 3) ReorgEngine.call e₀ neverSolidified) :=
  ⟨_, _, _, rfl, rfl, ledgerBounded_iff_along 3 ⟨2, 1⟩ _ _ _ _ rfl rfl (by decide)⟩

end Relayer
end Lightcycle
