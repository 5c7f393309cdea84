/-
# Solidified-head updates coalesce

The service polls the solidified head once a tick, and polls fail or repeat.  Nothing is
lost by it: `set_solidified_head(h₁)` followed by `set_solidified_head(h₂)` leaves exactly
the engine that `set_solidified_head(max h₁ h₂)` leaves, and the two streams the calls
feed, `Irreversible` and `ForkResolved`, hold the same events in the same order
(`SameStreams`).  What differs is the solidified head an event reports, and how the two
streams are interleaved.

Both walks stop early and start again.  The finality walk to `h₂` starts from the front
of a buffer whose heights may be in any order, and names what the walk to `h₁` left
(`crossing_split`): what that walk named is at or below the mark by then, and what it
never reached is still there.  The queue of the ledger is shorter by what it resolved
(`takeWhile_split`, `dropWhile_dropWhile`).  No invariant is needed, so all of it holds
from any engine state, reachable or not.
-/

import Lightcycle.Relayer.Ledger

namespace Lightcycle
namespace Relayer

/-! ### The two walks, interrupted -/

/-- The mark after two walks is the mark after the second, from that of the first. -/
theorem raised_append (prev : Option ℕ) (l l' : List BufferedBlock) :
    raised prev (l ++ l') = raised (raised prev l) l' := by
  unfold raised
  rw [List.getLast?_append]
  cases l'.getLast? with
  | none => rfl
  | some b => rfl

/-- **The finality walk can be interrupted**: walking to `s` and then, from the front again
but above the mark reached, to `t` names what walking to `t` names. -/
theorem crossing_split {s t : ℕ} (hst : s ≤ t) (bs : List BufferedBlock) (prev : Option ℕ) :
    crossing t bs prev =
      crossing s bs prev ++ crossing t bs (raised prev (crossing s bs prev)) := by
  induction bs generalizing prev with
  | nil => rfl
  | cons b bs ih =>
    rcases crossing_cons s b bs prev with ⟨-, -, hs⟩ | ⟨hle, -, hcov, hs⟩ | ⟨hle, -, hnot, hs⟩
    · -- the first walk stops here: the second one is the whole walk
      rw [hs]
      rfl
    · rw [hs]
      have hcov' : Covers (raised prev (crossing s bs prev)) b.height := covers_raised hcov
      rw [crossing_of_covers (by omega) hcov, crossing_of_covers (by omega) hcov', ih]
    · -- named by the first walk, so below the mark for the second
      rw [hs, raised_cons, List.cons_append]
      have hcov' : Covers (raised (some b.height) (crossing s bs (some b.height))) b.height :=
        covers_raised (covers_some.2 le_rfl)
      rw [crossing_of_not_covers (by omega) hnot, crossing_of_covers (by omega) hcov', ih]

section Queue

variable {α : Type*} {p q : α → Bool}

/-- Taking up to a higher bound is taking up to a lower one, and then on from there. -/
theorem takeWhile_split (h : ∀ a, p a = true → q a = true) (l : List α) :
    l.takeWhile q = l.takeWhile p ++ (l.dropWhile p).takeWhile q := by
  induction l with
  | nil => rfl
  | cons a l ih =>
    rw [List.takeWhile_cons, List.takeWhile_cons, List.dropWhile_cons]
    cases hp : p a with
    | true => rw [h a hp, if_pos rfl, if_pos rfl, if_pos rfl, ih, List.cons_append]
    | false => simp [List.takeWhile_cons]

/-- Of two tests the wider one drops all that the other does. -/
theorem dropWhile_dropWhile (h : ∀ a, p a = true → q a = true) (l : List α) :
    (l.dropWhile p).dropWhile q = l.dropWhile q := by
  induction l with
  | nil => rfl
  | cons a l ih =>
    rw [List.dropWhile_cons]
    cases hp : p a with
    | true => rw [if_pos rfl, ih, List.dropWhile_cons, h a hp, if_pos rfl]
    | false => rw [if_neg Bool.false_ne_true]

end Queue

/-! ### The streams -/

/-- The output with the solidified head it reports left out. -/
def Output.headless : Output → Output
  | .irreversible s =>
    .irreversible { s with finality := { s.finality with solidifiedHead := none } }
  | .forkResolved observedAtHeight _ finalizedTip orphanedTips =>
    .forkResolved observedAtHeight 0 finalizedTip orphanedTips
  | o => o

/-- An `Irreversible`. -/
def Output.isIrreversible : Output → Bool
  | .irreversible _ => true
  | _ => false

/-- A `ForkResolved`. -/
def Output.isForkResolved : Output → Bool
  | .forkResolved .. => true
  | _ => false

/-- The `Irreversible` events, in order, without the head they report. -/
def irreversibleStream (outs : List Output) : List Output :=
  (outs.map Output.headless).filter Output.isIrreversible

/-- The `ForkResolved` events, in order, without the head they report. -/
def resolvedStream (outs : List Output) : List Output :=
  (outs.map Output.headless).filter Output.isForkResolved

/-- Two lists of head-driven outputs hold the same streams, and nothing else. -/
structure SameStreams (outs outs' : List Output) : Prop where
  irreversible : irreversibleStream outs = irreversibleStream outs'
  resolved : resolvedStream outs = resolvedStream outs'
  only : ∀ o ∈ outs ++ outs', o.isIrreversible = true ∨ o.isForkResolved = true

/-- The stream of `Irreversible` is that of either part. -/
theorem irreversibleStream_append (outs outs' : List Output) :
    irreversibleStream (outs ++ outs') = irreversibleStream outs ++ irreversibleStream outs' := by
  rw [irreversibleStream, List.map_append, List.filter_append]
  rfl

/-- So is the stream of `ForkResolved`. -/
theorem resolvedStream_append (outs outs' : List Output) :
    resolvedStream (outs ++ outs') = resolvedStream outs ++ resolvedStream outs' := by
  rw [resolvedStream, List.map_append, List.filter_append]
  rfl

namespace ReorgEngine

variable {e : ReorgEngine} {s t : ℕ}

/-- Settling adds the blocks crossed to the one stream. -/
theorem irreversibleStream_settled (e : ReorgEngine) :
    irreversibleStream (e.marks ++ e.resolutions) =
      e.crossed.map fun b => (irreversibleOf 0 b).headless := by
  have hmarks : e.marks.map Output.headless =
      e.crossed.map fun b => (irreversibleOf 0 b).headless := by
    rw [marks, List.map_map]
    rfl
  have hres : irreversibleStream e.resolutions = [] := by
    refine List.filter_eq_nil_iff.2 fun o ho => ?_
    obtain ⟨x, hx, rfl⟩ := List.mem_map.1 ho
    obtain ⟨f, -, rfl⟩ := List.mem_map.1 hx
    simp [Output.headless, Output.isIrreversible]
  rw [irreversibleStream_append, hres, List.append_nil, irreversibleStream, hmarks]
  refine List.filter_eq_self.2 fun o ho => ?_
  obtain ⟨b, -, rfl⟩ := List.mem_map.1 ho
  rfl

/-- It adds the forks resolved to the other. -/
theorem resolvedStream_settled (e : ReorgEngine) :
    resolvedStream (e.marks ++ e.resolutions) =
      e.resolved.map fun o => .forkResolved o.observedAtHeight 0 o.keptTip o.orphanedTips := by
  have hres : e.resolutions.map Output.headless =
      e.resolved.map fun o => .forkResolved o.observedAtHeight 0 o.keptTip o.orphanedTips := by
    rw [resolutions, List.map_map]
    rfl
  have hmarks : resolvedStream e.marks = [] := by
    refine List.filter_eq_nil_iff.2 fun o ho => ?_
    obtain ⟨x, hx, rfl⟩ := List.mem_map.1 ho
    obtain ⟨b, -, rfl⟩ := List.mem_map.1 hx
    simp [Output.headless, Output.isForkResolved, irreversibleOf]
  rw [resolvedStream_append, hmarks, List.nil_append, resolvedStream, hres]
  refine List.filter_eq_self.2 fun o ho => ?_
  obtain ⟨f, -, rfl⟩ := List.mem_map.1 ho
  rfl

/-- It emits nothing else. -/
theorem only_settled (e : ReorgEngine) :
    ∀ o ∈ e.marks ++ e.resolutions, o.isIrreversible = true ∨ o.isForkResolved = true :=
  e.forall_settled (fun _ _ => Or.inl rfl) fun _ _ => Or.inr rfl

/-! ### One head after another -/

/-- The engine after the solidified head moved to `s`. -/
def advanced (e : ReorgEngine) (s : ℕ) : ReorgEngine :=
  { e.withHead s with
    lastIrreversibleHeight := raised e.lastIrreversibleHeight (e.withHead s).crossed
    forkHistory := (e.withHead s).pending }

/-- What the move emits. -/
def advanceOutputs (e : ReorgEngine) (s : ℕ) : List Output :=
  (e.withHead s).marks ++ (e.withHead s).resolutions

/-- A head at or below the known one changes nothing; any other moves the head. -/
theorem setSolidifiedHead_cases (e : ReorgEngine) (s : ℕ) :
    (∃ p, e.solidifiedHead = some p ∧ s ≤ p ∧ e.setSolidifiedHead s = (e, [])) ∨
    ((∀ p, e.solidifiedHead = some p → p < s) ∧
      e.setSolidifiedHead s = (e.advanced s, e.advanceOutputs s)) := by
  have hmove : ((e.withHead s).maybeEmitIrreversible []).1.maybeResolveForks
      ((e.withHead s).maybeEmitIrreversible []).2 = (e.advanced s, e.advanceOutputs s) := by
    rw [maybeEmitIrreversible_eq, maybeResolveForks_eq]
    rfl
  cases hp : e.solidifiedHead with
  | none =>
    refine Or.inr ⟨by simp, ?_⟩
    rw [← hmove, setSolidifiedHead, hp]
    rfl
  | some p =>
    by_cases hs : s ≤ p
    · refine Or.inl ⟨p, rfl, hs, ?_⟩
      simp [setSolidifiedHead, hp, hs]
    · refine Or.inr ⟨fun p' hp' => ?_, ?_⟩
      · obtain rfl := Option.some.inj hp'
        omega
      · rw [← hmove, setSolidifiedHead, hp, Option.any_some, decide_eq_false hs,
          if_neg Bool.false_ne_true]
        rfl

/-- **The walk to a head can stop on the way**, and name the rest from there. -/
theorem crossed_withHead_split (e : ReorgEngine) (hst : s ≤ t) :
    (e.withHead t).crossed = (e.withHead s).crossed ++ ((e.advanced s).withHead t).crossed :=
  crossing_split hst e.canonical e.lastIrreversibleHeight

/-- The queue of forks too can be resolved in two parts. -/
theorem resolved_withHead_split (e : ReorgEngine) (hst : s ≤ t) :
    (e.withHead t).resolved = (e.withHead s).resolved ++ ((e.advanced s).withHead t).resolved :=
  takeWhile_split (fun _ ho => decide_eq_true ((of_decide_eq_true ho).trans hst)) e.forkHistory

/-- What is pending in the end is the same. -/
theorem pending_withHead_split (e : ReorgEngine) (hst : s ≤ t) :
    ((e.advanced s).withHead t).pending = (e.withHead t).pending :=
  dropWhile_dropWhile (fun _ ho => decide_eq_true ((of_decide_eq_true ho).trans hst)) e.forkHistory

/-- **Moving the head in two steps** is moving it in one. -/
theorem advanced_advanced (e : ReorgEngine) (hst : s ≤ t) :
    (e.advanced s).advanced t = e.advanced t ∧
      SameStreams (e.advanceOutputs s ++ (e.advanced s).advanceOutputs t) (e.advanceOutputs t) := by
  constructor
  · have hmark : raised (e.advanced s).lastIrreversibleHeight ((e.advanced s).withHead t).crossed =
        raised e.lastIrreversibleHeight (e.withHead t).crossed := by
      rw [e.crossed_withHead_split hst, raised_append]
      rfl
    rw [advanced, hmark, e.pending_withHead_split hst]
    rfl
  · refine ⟨?_, ?_, ?_⟩
    · rw [irreversibleStream_append, advanceOutputs, advanceOutputs, advanceOutputs,
        irreversibleStream_settled, irreversibleStream_settled, irreversibleStream_settled,
        e.crossed_withHead_split hst, List.map_append]
    · rw [resolvedStream_append, advanceOutputs, advanceOutputs, advanceOutputs,
        resolvedStream_settled, resolvedStream_settled, resolvedStream_settled,
        e.resolved_withHead_split hst, List.map_append]
    · intro o ho
      rcases List.mem_append.1 ho with ho | ho
      · rcases List.mem_append.1 ho with ho | ho
        · exact only_settled _ o ho
        · exact only_settled _ o ho
      · exact only_settled _ o ho

/-- The outputs of a head update hold the two streams and nothing else. -/
theorem sameStreams_self (e : ReorgEngine) (s : ℕ) :
    SameStreams (e.setSolidifiedHead s).2 (e.setSolidifiedHead s).2 := by
  refine ⟨rfl, rfl, fun o ho => ?_⟩
  have ho : o ∈ (e.setSolidifiedHead s).2 := (List.mem_append.1 ho).elim id id
  rcases e.setSolidifiedHead_cases s with ⟨-, -, -, hs⟩ | ⟨-, hs⟩
  · rw [hs] at ho
    cases ho
  · rw [hs] at ho
    exact only_settled _ o ho

/-- **Two head updates coalesce.** They leave the engine that one update to the greater of
them leaves, and what they emit is the same apart from the heads named. -/
theorem setSolidifiedHead_max (e : ReorgEngine) (h₁ h₂ : ℕ) :
    ((e.setSolidifiedHead h₁).1.setSolidifiedHead h₂).1 = (e.setSolidifiedHead (max h₁ h₂)).1 ∧
      SameStreams ((e.setSolidifiedHead h₁).2 ++ ((e.setSolidifiedHead h₁).1.setSolidifiedHead h₂).2)
        (e.setSolidifiedHead (max h₁ h₂)).2 := by
  rcases e.setSolidifiedHead_cases h₁ with ⟨p, hp, hle, hs⟩ | ⟨hlt, hs⟩
  · -- the first update is stale: the second decides, and the maximum is stale when it is
    rw [hs]
    rcases Nat.le_total h₁ h₂ with h | h
    · rw [max_eq_right h]
      exact ⟨rfl, e.sameStreams_self h₂⟩
    · rw [max_eq_left h]
      rcases e.setSolidifiedHead_cases h₂ with ⟨-, -, -, hs₂⟩ | ⟨hlt₂, -⟩
      · rw [hs, hs₂]
        exact ⟨rfl, rfl, rfl, by simp⟩
      · have := hlt₂ p hp
        omega
  · rw [hs]
    have hhead : (e.advanced h₁).solidifiedHead = some h₁ := rfl
    rcases (e.advanced h₁).setSolidifiedHead_cases h₂ with ⟨p, hp, hle, hs₂⟩ | ⟨hlt₂, hs₂⟩
    · obtain rfl := Option.some.inj (hhead.symm.trans hp)
      have hself := e.sameStreams_self h₁
      rw [hs] at hself
      rw [max_eq_left hle, hs₂, hs, List.append_nil]
      exact ⟨rfl, hself⟩
    · have h₁₂ : h₁ < h₂ := hlt₂ h₁ hhead
      rw [max_eq_right h₁₂.le, hs₂]
      rcases e.setSolidifiedHead_cases h₂ with ⟨p, hp, hle, -⟩ | ⟨-, hs₃⟩
      · have := hlt p hp
        omega
      · rw [hs₃]
        exact e.advanced_advanced h₁₂.le

/-- A poll more coalesces with those before it. -/
theorem sameStreams_snoc {outs : List Output} {h k : ℕ}
    (hsame : SameStreams outs (e.setSolidifiedHead h).2) :
    SameStreams (outs ++ ((e.setSolidifiedHead h).1.setSolidifiedHead k).2)
      (e.setSolidifiedHead (max h k)).2 := by
  obtain ⟨hirr, hres, honly⟩ := (e.setSolidifiedHead_max h k).2
  refine ⟨?_, ?_, fun o ho => ?_⟩
  · rw [irreversibleStream_append, hsame.irreversible, ← irreversibleStream_append, hirr]
  · rw [resolvedStream_append, hsame.resolved, ← resolvedStream_append, hres]
  · rcases List.mem_append.1 ho with ho | ho
    · rcases List.mem_append.1 ho with ho | ho
      · exact hsame.only o (List.mem_append_left _ ho)
      · exact honly o (List.mem_append_left _ (List.mem_append_right _ ho))
    · exact honly o (List.mem_append_right _ ho)

/-- **Any number of head updates coalesce**: a run of polls leaves the engine that the
highest one alone leaves, and feeds the same streams. -/
theorem run_polls (e : ReorgEngine) (h : ℕ) (hs : List ℕ) :
    ∃ outs, Run.run call e ((h :: hs).map .setSolidifiedHead) =
        some ((e.setSolidifiedHead (hs.foldl max h)).1, outs) ∧
      SameStreams outs (e.setSolidifiedHead (hs.foldl max h)).2 := by
  induction hs using List.reverseRecOn with
  | nil =>
    refine ⟨(e.setSolidifiedHead h).2 ++ [], rfl, ?_⟩
    rw [List.append_nil]
    exact e.sameStreams_self h
  | append_singleton hs k ih =>
    obtain ⟨outs, hrun, hsame⟩ := ih
    have hfold : (hs ++ [k]).foldl max h = max (hs.foldl max h) k := by simp
    rw [hfold, ← (e.setSolidifiedHead_max _ k).1]
    refine ⟨outs ++ (((e.setSolidifiedHead (hs.foldl max h)).1.setSolidifiedHead k).2 ++ []), ?_, ?_⟩
    · rw [← List.cons_append, List.map_append]
      exact Run.run_append_eq_some.2 ⟨_, _, _, hrun, rfl, rfl⟩
    · rw [List.append_nil]
      exact sameStreams_snoc hsame

end ReorgEngine

/-- **Solidified-head updates coalesce.**  From any engine, two updates leave exactly the
engine the single update to the higher head leaves, and emit the same `Irreversible`
events and the same `ForkResolved` events in the same orders, up to the head they report.
So does any series of polls, missing or repeated ones included. -/
theorem setSolidifiedHead_coalesces (e : ReorgEngine) :
    (∀ h₁ h₂ : ℕ,
      ((e.setSolidifiedHead h₁).1.setSolidifiedHead h₂).1 = (e.setSolidifiedHead (max h₁ h₂)).1 ∧
        SameStreams
          ((e.setSolidifiedHead h₁).2 ++ ((e.setSolidifiedHead h₁).1.setSolidifiedHead h₂).2)
          (e.setSolidifiedHead (max h₁ h₂)).2) ∧
      ∀ (h : ℕ) (hs : List ℕ),
        ∃ outs, Run.run ReorgEngine.call e ((h :: hs).map .setSolidifiedHead) =
            some ((e.setSolidifiedHead (hs.foldl max h)).1, outs) ∧
          SameStreams outs (e.setSolidifiedHead (hs.foldl max h)).2 :=
  ⟨e.setSolidifiedHead_max, e.run_polls⟩

end Relayer
end Lightcycle
