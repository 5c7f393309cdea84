/-
# What `accept` decides

`accept` looks a block up in `canonical_ids` and searches its ancestor from the back,
but under the representation invariant its answer is a function of the buffer and the
high-water mark alone (`accept_decides`): a buffered id is a duplicate; a first block
and a child of the tip are accepted; a child of an earlier block is accepted unless the
block after its parent is at or below the mark; any other block has no parent here.
An error leaves every field of the engine as it was.

Heights play no part in it beyond the mark.  A child at or below its parent's height
attaches like any other, and the heights of the buffer strictly increase, in every
state of a run, exactly as long as no such block attaches.
-/

import Lightcycle.Relayer.Panic

namespace Lightcycle
namespace Relayer

namespace ReorgEngine

variable {e e' : ReorgEngine} {out : List Output} {d : DecodedBlock}

/-! ### The decision -/

/-- **`accept` decides by the buffer and the high-water mark**, and an error changes nothing. -/
theorem Wf.accept_decides (h : e.Wf) (x : DecodedBlock) (txInfos : List DecodedTxInfo) :
    ∃ e' r, e.accept x txInfos = some (e', r) ∧
      ((∃ i, r = .error (.duplicateBlock i)) ↔
        ∃ b ∈ e.canonical, b.blockId = x.header.blockId) ∧
      ((∀ b ∈ e.canonical, b.blockId ≠ x.header.blockId) →
        ((e.canonical = [] ∨ ∃ tip, e.canonical.getLast? = some tip ∧
            x.header.parentId = tip.blockId) → ∃ out, r = .ok out) ∧
        (∀ pre b next post, e.canonical = pre ++ b :: next :: post →
          x.header.parentId = b.blockId →
            (∀ l, e.lastIrreversibleHeight = some l → next.height ≤ l →
              r = .error (.reorgBelowFinality x.header.height l)) ∧
            ((∀ l, e.lastIrreversibleHeight = some l → l < next.height) → ∃ out, r = .ok out)) ∧
        (∀ tip, e.canonical.getLast? = some tip →
          (∀ b ∈ e.canonical, x.header.parentId ≠ b.blockId) →
            r = .error (.parentNotInBuffer x.header.height x.header.parentId tip.height
              e.config.bufferWindow))) ∧
      ∀ err, r = .error err → e' = e := by
  rcases accept_cases h x txInfos with ⟨⟨b, hb, hbx⟩, hacc⟩ | ⟨tip, htip, hfresh, hpar, hacc⟩ |
    ⟨pre, a, o, post, l, hsplit, hpa, hfresh, hl, hol, hacc⟩ | ⟨kept, orphans, ha, hacc⟩
  · refine ⟨e, _, hacc, iff_of_true ⟨_, rfl⟩ ⟨b, hb, hbx⟩, fun hfresh => ?_, fun _ _ => rfl⟩
    exact absurd hbx (hfresh b hb)
  · refine ⟨e, _, hacc, iff_of_false (by simp) ?_, fun _ => ⟨?_, ?_, ?_⟩, fun _ _ => rfl⟩
    · rintro ⟨b, hb, hbx⟩
      exact hfresh b hb hbx
    · rintro (hnil | ⟨tip', htip', htx⟩)
      · rw [hnil] at htip
        cases htip
      · exact absurd htx.symm (hpar tip' (List.mem_of_getLast? htip'))
    · intro pre b next post hsplit hbx
      exact absurd hbx.symm (hpar b (by rw [hsplit]; simp))
    · intro tip' htip' _
      obtain rfl := Option.some.inj (htip.symm.trans htip')
      rfl
  · refine ⟨e, _, hacc, iff_of_false (by simp) ?_, fun _ => ⟨?_, ?_, ?_⟩, fun _ _ => rfl⟩
    · rintro ⟨b, hb, hbx⟩
      exact hfresh b hb hbx
    · rintro (hnil | ⟨tip, htip, htx⟩)
      · rw [hnil] at hsplit
        simp at hsplit
      · -- the tip has nothing after it
        obtain ⟨init, hinit⟩ := List.getLast?_eq_some_iff.1 htip
        obtain ⟨-, -, hpost⟩ := h.split_unique hsplit hinit (hpa.symm.trans htx)
        cases hpost
    · intro pre' b next post' hsplit' hbx
      obtain ⟨-, -, hpost⟩ := h.split_unique hsplit hsplit' (hpa.symm.trans hbx)
      obtain ⟨rfl, -⟩ := List.cons.inj hpost
      refine ⟨fun l' hl' _ => ?_, fun hguard => ?_⟩
      · obtain rfl := Option.some.inj (hl.symm.trans hl')
        rfl
      · have := hguard l hl
        omega
    · intro tip _ hno
      exact absurd hpa (hno a (by rw [hsplit]; simp))
  · refine ⟨_, _, hacc, iff_of_false (by simp) ?_, fun _ => ⟨fun _ => ⟨_, rfl⟩, ?_, ?_⟩,
      fun err herr => by cases herr⟩
    · rintro ⟨b, hb, hbx⟩
      exact ha.fresh b hb hbx
    · intro pre b next post hsplit hbx
      refine ⟨fun l hl hle => ?_, fun _ => ⟨_, rfl⟩⟩
      obtain ⟨-, rfl⟩ := ha.kept_eq h hsplit hbx
      have := ha.guard l next hl rfl
      omega
    · intro tip htip hno
      rcases ha.cases with ⟨-, -, hnil⟩ | ⟨init, p, -, hcan, hp⟩
      · rw [hnil] at htip
        cases htip
      · exact absurd hp (hno p (by rw [hcan]; simp))

end ReorgEngine

/-- **`accept` decides exactly and fails atomically.**  In every state a fresh engine reaches,
a block is a duplicate iff its id is buffered.  Otherwise it is accepted when nothing is
buffered or its parent is the tip; when its parent is an earlier buffered block it is
refused as below finality if the next block is at or below the last irreversible height
and accepted if not; and when its parent is not buffered it is refused for that.  An error
leaves the engine as it was. -/
theorem runFresh_accept_decides (config : ReorgConfig) (calls : List Call) (e : ReorgEngine)
    (outs : List Output) (hrun : runFresh config calls = some (e, outs)) (x : DecodedBlock)
    (txInfos : List DecodedTxInfo) :
    ∃ e' r, e.accept x txInfos = some (e', r) ∧
      ((∃ i, r = .error (.duplicateBlock i)) ↔
        ∃ b ∈ e.canonical, b.blockId = x.header.blockId) ∧
      ((∀ b ∈ e.canonical, b.blockId ≠ x.header.blockId) →
        ((e.canonical = [] ∨ ∃ tip, e.canonical.getLast? = some tip ∧
            x.header.parentId = tip.blockId) → ∃ out, r = .ok out) ∧
        (∀ pre b next post, e.canonical = pre ++ b :: next :: post →
          x.header.parentId = b.blockId →
            (∀ l, e.lastIrreversibleHeight = some l → next.height ≤ l →
              r = .error (.reorgBelowFinality x.header.height l)) ∧
            ((∀ l, e.lastIrreversibleHeight = some l → l < next.height) → ∃ out, r = .ok out)) ∧
        (∀ tip, e.canonical.getLast? = some tip →
          (∀ b ∈ e.canonical, x.header.parentId ≠ b.blockId) →
            r = .error (.parentNotInBuffer x.header.height x.header.parentId tip.height
              e.config.bufferWindow))) ∧
      ∀ err, r = .error err → e' = e :=
  (reached_of_runFresh hrun).wf.accept_decides x txInfos

/-- The hypothesis holds of two blocks, and here of a sibling of the second. -/
theorem runFresh_accept_decides_sibling :
    ∃ e outs, runFresh ReorgConfig.default
        [.accept (synthAt 1 0 0) [], .accept (synthAt 2 0 0) [], .setSolidifiedHead 2] =
          some (e, outs) ∧
      ∃ e' r, e.accept (synthAt 2 1 0) [] = some (e', r) ∧
        ((∃ i, r = .error (.duplicateBlock i)) ↔
          ∃ b ∈ e.canonical, b.blockId = (synthAt 2 1 0).header.blockId) ∧
        ((∀ b ∈ e.canonical, b.blockId ≠ (synthAt 2 1 0).header.blockId) →
          ((e.canonical = [] ∨ ∃ tip, e.canonical.getLast? = some tip ∧
              (synthAt 2 1 0).header.parentId = tip.blockId) → ∃ out, r = .ok out) ∧
          (∀ pre b next post, e.canonical = pre ++ b :: next :: post →
            (synthAt 2 1 0).header.parentId = b.blockId →
              (∀ l, e.lastIrreversibleHeight = some l → next.height ≤ l →
                r = .error (.reorgBelowFinality (synthAt 2 1 0).header.height l)) ∧
              ((∀ l, e.lastIrreversibleHeight = some l → l < next.height) → ∃ out, r = .ok out)) ∧
          (∀ tip, e.canonical.getLast? = some tip →
            (∀ b ∈ e.canonical, (synthAt 2 1 0).header.parentId ≠ b.blockId) →
              r = .error (.parentNotInBuffer (synthAt 2 1 0).header.height
                (synthAt 2 1 0).header.parentId tip.height e.config.bufferWindow))) ∧
        ∀ err, r = .error err → e' = e :=
  ⟨_, _, rfl, runFresh_accept_decides ReorgConfig.default
    [.accept (synthAt 1 0 0) [], .accept (synthAt 2 0 0) [], .setSolidifiedHead 2] _ _ rfl _ _⟩

/-! ### Heights -/

/-- Oldest first, each block is higher than those before it. -/
def Rises (bs : List BufferedBlock) : Prop := bs.Pairwise fun a b => a.height < b.height

namespace ReorgEngine

variable {e e' : ReorgEngine} {out : List Output} {c : Call}

/-- A block at or below the buffered block it names as its parent is refused, and the engine
stays as it was. -/
def RejectsRegression (e : ReorgEngine) : Call → Prop
  | .accept x txInfos => ∀ p ∈ e.canonical, x.header.parentId = p.blockId →
      x.header.height ≤ p.height → ∃ err, e.accept x txInfos = some (e, .error err)
  | .setSolidifiedHead _ => True

/-- A block that attaches is higher than its parent. -/
def AttachesAbove (e : ReorgEngine) : Call → Prop
  | .accept x _ => ∀ kept orphans p, Attaches e x kept orphans → kept.getLast? = some p →
      p.height < x.header.height
  | .setSolidifiedHead _ => True

/-- Regressions are refused exactly when what attaches is higher than its parent. -/
theorem Wf.rejectsRegression_iff (h : e.Wf) (c : Call) :
    e.RejectsRegression c ↔ e.AttachesAbove c := by
  cases c with
  | setSolidifiedHead s => exact Iff.rfl
  | accept x txInfos =>
    constructor
    · intro hrej kept orphans p ha hp
      by_contra hle
      have hmem : p ∈ e.canonical := by
        rw [ha.split]
        exact List.mem_append_left _ (List.mem_of_getLast? hp)
      obtain ⟨err, herr⟩ := hrej p hmem (ha.parent p hp) (by omega)
      obtain ⟨e', out, hok⟩ := ha.accept_ok h txInfos
      rw [herr] at hok
      cases hok
    · intro habove p hmem hpar hle
      rcases accept_cases h x txInfos with ⟨-, hacc⟩ | ⟨_, -, -, -, hacc⟩ |
        ⟨_, _, _, _, _, -, -, -, -, -, hacc⟩ | ⟨kept, orphans, ha, -⟩
      · exact ⟨_, hacc⟩
      · exact ⟨_, hacc⟩
      · exact ⟨_, hacc⟩
      · exfalso
        rcases ha.cases with ⟨-, -, hnil⟩ | ⟨init, q, rfl, hcan, hq⟩
        · rw [hnil] at hmem
          cases hmem
        · have hqmem : q ∈ e.canonical := by rw [hcan]; simp
          obtain rfl := List.inj_on_of_nodup_map h.nodup hmem hqmem (hpar.symm.trans hq)
          have := habove _ _ p ha (by simp)
          omega

/-- **A call that attaches its block above its parent keeps the heights rising**: what it
keeps of the buffer rises, and the new block is above the last of that. -/
theorem Step.rises (hs : Step e c e' out) (habove : e.AttachesAbove c) (h : Rises e.canonical) :
    Rises e'.canonical := by
  cases hs with
  | refused => exact h
  | stale => exact h
  | attached x txInfos kept orphans ha =>
    have hkept : Rises kept := by
      rw [Rises, ha.split] at h
      exact (List.pairwise_append.1 h).1
    have hnew : Rises (kept ++ [bufferedBlock e.nextForkId x txInfos]) := by
      refine List.pairwise_append.2 ⟨hkept, List.pairwise_singleton .., fun b hb c hc => ?_⟩
      obtain rfl := List.mem_singleton.1 hc
      rcases ha.cases with ⟨rfl, -, -⟩ | ⟨init, p, rfl, -, -⟩
      · cases hb
      · have hp : p.height < x.header.height := habove _ _ p ha (by simp)
        have hnh : (bufferedBlock e.nextForkId x txInfos).height = x.header.height := rfl
        rcases List.mem_append.1 hb with hb | hb
        · have := (List.pairwise_append.1 hkept).2.2 b hb p (by simp)
          omega
        · obtain rfl := List.mem_singleton.1 hb
          omega
    rw [attach, settle_eq]
    exact hnew.sublist (List.drop_sublist _ _)
  | head s hs =>
    rw [settle_eq]
    exact h.sublist (List.drop_sublist _ _)

/-- **A run and the heights of its buffer.** They rise after every call, and no regression
is taken, exactly when each block that the run attaches is higher than its parent. -/
theorem Wf.rises_iff_along (h : e.Wf) (hr : Rises e.canonical) (calls : List Call) :
    (∀ pre post e' outs, calls = pre ++ post → Run.run call e pre = some (e', outs) →
        Rises e'.canonical ∧ ∀ c rest, post = c :: rest → e'.RejectsRegression c) ↔
      Run.Along AttachesAbove call e calls := by
  induction calls generalizing e with
  | nil =>
    refine ⟨fun _ => trivial, fun _ pre post e' outs hnil hrun => ?_⟩
    obtain ⟨rfl, rfl⟩ := List.append_eq_nil_iff.1 hnil.symm
    obtain ⟨rfl, -⟩ := Prod.mk.inj (Option.some.inj hrun)
    exact ⟨hr, fun c rest hc => by cases hc⟩
  | cons c calls ih =>
    obtain ⟨e₁, out, hc, hs⟩ := call_step h c
    constructor
    · intro hall
      have habove := (h.rejectsRegression_iff c).1 ((hall [] (c :: calls) e [] rfl rfl).2 c calls rfl)
      refine Run.along_cons hc habove ?_
      refine (ih (hs.wf h) (hs.rises habove hr)).1 fun pre post e' outs hsplit hrun => ?_
      exact hall (c :: pre) post e' (out ++ outs) (by rw [hsplit, List.cons_append])
        (Run.run_cons_eq_some.2 ⟨e₁, out, outs, hc, hrun, rfl⟩)
    · rintro ⟨habove, hrest⟩ pre post e' outs hsplit hrun
      cases pre with
      | nil =>
        obtain ⟨rfl, -⟩ := Prod.mk.inj (Option.some.inj hrun)
        refine ⟨hr, fun c' rest hpost => ?_⟩
        obtain ⟨rfl, -⟩ := List.cons.inj (hsplit.trans hpost)
        exact (h.rejectsRegression_iff c).2 habove
      | cons c' pre =>
        obtain ⟨rfl, rfl⟩ := List.cons.inj hsplit
        obtain ⟨e₂, o, rest, hc', hrun', -⟩ := Run.run_cons_eq_some.1 hrun
        obtain ⟨rfl, -⟩ := Prod.mk.inj (Option.some.inj (hc.symm.trans hc'))
        exact (ih (hs.wf h) (hs.rises habove hr)).2 (hrest e₁ out hc) pre post e' rest rfl hrun'

end ReorgEngine

/-- **When height regressions are rejected.**  In every state that a run of a fresh engine
reaches the heights of the buffer strictly increase and the next block is refused if it is
not above its buffered parent, exactly when every block of the run that attaches is above
its parent. -/
theorem runFresh_rises_iff_along (config : ReorgConfig) (calls : List Call) (e₀ : ReorgEngine)
    (hnew : ReorgEngine.new config = some e₀) :
    (∀ pre post e outs, calls = pre ++ post →
        Run.run ReorgEngine.call e₀ pre = some (e, outs) →
        Rises e.canonical ∧ ∀ c rest, post = c :: rest → e.RejectsRegression c) ↔
      Run.Along ReorgEngine.AttachesAbove ReorgEngine.call e₀ calls := by
  refine (ReorgEngine.wf_new hnew).rises_iff_along ?_ calls
  obtain rfl := ReorgEngine.eq_of_new hnew
  exact List.Pairwise.nil

/-- The test block `tag` at a height, child of any block. -/
def synthUnder (height : UInt64) (tag : UInt8) (parentId : BlockId) : DecodedBlock :=
  synthBlock height.toNat (synthId height.toNat tag) parentId height.toNat_lt

/-- A block of height 5 and its child of height 3. -/
def fallingHeights : List Call :=
  [.accept (synthAt 5 0 0) [], .accept (synthUnder 3 0 (synthId 5 0)) []]

/-- **A height regression is accepted**: the child of height 3 attaches to the tip. -/
theorem regression_accepted : ¬ ∀ (config : ReorgConfig) (calls : List Call) (e : ReorgEngine)
    (outs : List Output), runFresh config calls = some (e, outs) →
      Rises e.canonical ∧ ∀ c, e.RejectsRegression c := by
  intro h
  have hrises := (h ReorgConfig.default fallingHeights _ _ rfl).1
  revert hrises
  unfold Rises
  decide

/-- The hypothesis holds of the default configuration, and here of rising heights. -/
theorem runFresh_rises_iff_along_default :
    ∃ e₀, ReorgEngine.new ReorgConfig.default = some e₀ ∧
      ((∀ pre post e outs, [Call.accept (synthAt 5 0 0) [], .accept (synthAt 6 0 0) []] = pre ++ post →
          Run.run ReorgEngine.call e₀ pre = some (e, outs) →
          Rises e.canonical ∧ ∀ c rest, post = c :: rest → e.RejectsRegression c) ↔
        Run.Along ReorgEngine.AttachesAbove ReorgEngine.call e₀
          [.accept (synthAt 5 0 0) [], .accept (synthAt 6 0 0) []]) :=
  ⟨_, rfl, runFresh_rises_iff_along ReorgConfig.default _ _ rfl⟩

end Relayer
end Lightcycle
