/-
# Irreversible means irreversible

`maybe_emit_irreversible` walks the buffer from the front, breaks at the first
block above the solidified head, skips what is at or below the high-water mark and
names the rest.  The finality guard of `handle_reorg` looks at one height only, the
earliest orphan's.  What makes the guard enough, for blocks of any heights, is a
split of the buffer (`Marked.split`): the blocks up to some point are all at or
below the high-water mark, and nothing after that point has been named yet.  So a
reorg whose earliest orphan is above the mark orphans only blocks never named.

`Covers mark h` says that the high-water mark is known and at or above `h`.
-/

import Lightcycle.Relayer.Replay

namespace Lightcycle
namespace Relayer

/-- The high-water mark is known and at or above `h`. -/
def Covers (mark : Option ℕ) (h : ℕ) : Prop := ∃ l, mark = some l ∧ h ≤ l

/-- A mark covers the heights up to it. -/
theorem covers_some {l h : ℕ} : Covers (some l) h ↔ h ≤ l := by simp [Covers]

/-- The check of the walk is whether the mark covers the height. -/
theorem any_le_iff_covers {mark : Option ℕ} {h : ℕ} :
    (mark.any fun p => decide (h ≤ p)) = true ↔ Covers mark h := by
  cases mark with
  | none => simp [Covers]
  | some l => simp [Covers]

/-- It covers lower heights too. -/
theorem Covers.mono {mark : Option ℕ} {h h' : ℕ} (hc : Covers mark h) (hle : h' ≤ h) :
    Covers mark h' := by
  obtain ⟨l, hl, hhl⟩ := hc
  exact ⟨l, hl, by omega⟩

/-! ### The finality walk -/

/-- The blocks the walk reaches before it breaks. -/
def reach (s : ℕ) (bs : List BufferedBlock) : List BufferedBlock :=
  bs.takeWhile fun b => decide (b.height ≤ s)

/-- What the walk does at one block. -/
theorem crossing_cons (s : ℕ) (b : BufferedBlock) (bs : List BufferedBlock) (prev : Option ℕ) :
    (s < b.height ∧ reach s (b :: bs) = [] ∧ crossing s (b :: bs) prev = []) ∨
    (b.height ≤ s ∧ reach s (b :: bs) = b :: reach s bs ∧ Covers prev b.height ∧
      crossing s (b :: bs) prev = crossing s bs prev) ∨
    (b.height ≤ s ∧ reach s (b :: bs) = b :: reach s bs ∧ ¬ Covers prev b.height ∧
      crossing s (b :: bs) prev = b :: crossing s bs (some b.height)) := by
  rw [crossing, reach, List.takeWhile_cons]
  by_cases hs : s < b.height
  · refine Or.inl ⟨hs, ?_, if_pos hs⟩
    rw [decide_eq_false (by omega), if_neg Bool.false_ne_true]
  · have hle : b.height ≤ s := by omega
    rw [decide_eq_true hle, if_pos rfl, if_neg hs]
    by_cases hc : Covers prev b.height
    · exact Or.inr (Or.inl ⟨hle, rfl, hc, if_pos (any_le_iff_covers.2 hc)⟩)
    · exact Or.inr (Or.inr ⟨hle, rfl, hc, if_neg fun h => hc (any_le_iff_covers.1 h)⟩)

/-- The walk passes a block that the mark covers. -/
theorem crossing_of_covers {s : ℕ} {b : BufferedBlock} {bs : List BufferedBlock} {prev : Option ℕ}
    (hle : b.height ≤ s) (hc : Covers prev b.height) :
    crossing s (b :: bs) prev = crossing s bs prev := by
  rw [crossing, if_neg (by omega), if_pos (any_le_iff_covers.2 hc)]

/-- It names a block that the mark does not cover, and raises the mark to it. -/
theorem crossing_of_not_covers {s : ℕ} {b : BufferedBlock} {bs : List BufferedBlock}
    {prev : Option ℕ} (hle : b.height ≤ s) (hc : ¬ Covers prev b.height) :
    crossing s (b :: bs) prev = b :: crossing s bs (some b.height) := by
  rw [crossing, if_neg (by omega), if_neg fun h => hc (any_le_iff_covers.1 h)]

/-- The walk names only blocks it reaches, in their order. -/
theorem crossing_sublist (s : ℕ) (bs : List BufferedBlock) (prev : Option ℕ) :
    (crossing s bs prev).Sublist (reach s bs) := by
  induction bs generalizing prev with
  | nil => exact List.Sublist.slnil
  | cons b bs ih =>
    rcases crossing_cons s b bs prev with ⟨-, hr, hc⟩ | ⟨-, hr, -, hc⟩ | ⟨-, hr, -, hc⟩
    · rw [hr, hc]
    · rw [hr, hc]
      exact (ih prev).cons b
    · rw [hr, hc]
      exact (ih _).cons_cons b

/-- The high-water mark only rises. -/
theorem covers_raised {s : ℕ} {bs : List BufferedBlock} {prev : Option ℕ} {h : ℕ}
    (hp : Covers prev h) : Covers (raised prev (crossing s bs prev)) h := by
  induction bs generalizing prev with
  | nil => exact hp
  | cons b bs ih =>
    rcases crossing_cons s b bs prev with ⟨-, -, hc⟩ | ⟨-, -, -, hc⟩ | ⟨-, -, hn, hc⟩
    · rw [hc]
      exact hp
    · rw [hc]
      exact ih hp
    · rw [hc, raised_cons]
      refine ih (covers_some.2 ?_)
      by_contra hlt
      exact hn (hp.mono (by omega))

/-- Everything the walk reaches ends at or below the high-water mark. -/
theorem covers_of_mem_reach {s : ℕ} {bs : List BufferedBlock} {prev : Option ℕ}
    {b : BufferedBlock} (hb : b ∈ reach s bs) :
    Covers (raised prev (crossing s bs prev)) b.height := by
  induction bs generalizing prev with
  | nil => simp [reach] at hb
  | cons c bs ih =>
    rcases crossing_cons s c bs prev with ⟨-, hr, hc⟩ | ⟨-, hr, hcov, hc⟩ | ⟨-, hr, -, hc⟩
    · rw [hr] at hb
      cases hb
    · rw [hr] at hb
      rw [hc]
      rcases List.mem_cons.1 hb with rfl | hb
      · exact covers_raised hcov
      · exact ih hb
    · rw [hr] at hb
      rw [hc, raised_cons]
      rcases List.mem_cons.1 hb with rfl | hb
      · exact covers_raised (covers_some.2 le_rfl)
      · exact ih hb

/-- The walk names only blocks above the mark it started from. -/
theorem not_covers_of_mem_crossing {s : ℕ} {bs : List BufferedBlock} {prev : Option ℕ}
    {b : BufferedBlock} (hb : b ∈ crossing s bs prev) : ¬ Covers prev b.height := by
  induction bs generalizing prev with
  | nil => cases hb
  | cons c bs ih =>
    rcases crossing_cons s c bs prev with ⟨-, -, hc⟩ | ⟨-, -, -, hc⟩ | ⟨-, -, hn, hc⟩
    · rw [hc] at hb
      cases hb
    · rw [hc] at hb
      exact ih hb
    · rw [hc] at hb
      rcases List.mem_cons.1 hb with rfl | hb
      · exact hn
      · intro hcov
        have hle : ¬ b.height ≤ c.height := fun h => ih hb (covers_some.2 h)
        exact hn (hcov.mono (by omega))

/-- The blocks it reaches are at or below the head. -/
theorem mem_reach_le {s : ℕ} {bs : List BufferedBlock} {b : BufferedBlock}
    (hb : b ∈ reach s bs) : b.height ≤ s := by
  simpa using List.mem_takeWhile_imp hb

/-- They are the front of the buffer. -/
theorem reach_append (s : ℕ) (bs : List BufferedBlock) :
    reach s bs ++ bs.dropWhile (fun b => decide (b.height ≤ s)) = bs :=
  List.takeWhile_append_dropWhile

/-! ### Flags on the stack -/

/-- The buffer `bs` splits: a part at or below the mark, then a part with no flag on
top of the stack. -/
def Split (mark : Option ℕ) (bs : List BufferedBlock) (st : List (BufferedBlock × Bool)) : Prop :=
  ∃ settled unnamed rest, bs = settled ++ unnamed ∧ (∀ b ∈ settled, Covers mark b.height) ∧
    st = unnamed.reverse.map (·, false) ++ rest

/-- Forgetting the front of the buffer keeps the split. -/
theorem Split.drop {mark : Option ℕ} {bs : List BufferedBlock} {st : List (BufferedBlock × Bool)}
    (h : Split mark bs st) (n : ℕ) : Split mark (bs.drop n) st := by
  obtain ⟨settled, unnamed, rest, rfl, hset, rfl⟩ := h
  refine ⟨settled.drop n, unnamed.drop (n - settled.length),
    (unnamed.take (n - settled.length)).reverse.map (·, false) ++ rest, List.drop_append,
    fun b hb => hset b (List.mem_of_mem_drop hb), ?_⟩
  rw [← List.append_assoc, ← List.map_append, ← List.reverse_append, List.take_append_drop]

namespace ReorgEngine

/-- The flags on the consumer's stack and the high-water mark. -/
structure Marked (e : ReorgEngine) (st : List (BufferedBlock × Bool)) : Prop where
  /-- What is flagged is at or below the mark. -/
  low : ∀ x ∈ st, x.2 = true → Covers e.lastIrreversibleHeight x.1.height
  split : Split e.lastIrreversibleHeight e.canonical st

/-- Without a head nothing is crossed. -/
theorem crossed_eq_nil {e : ReorgEngine} (h : e.solidifiedHead = none) : e.crossed = [] := by
  rw [crossed, h, Option.elim_none]

/-- With one the walk of the buffer is. -/
theorem crossed_eq {e : ReorgEngine} {s : ℕ} (h : e.solidifiedHead = some s) :
    e.crossed = crossing s e.canonical e.lastIrreversibleHeight := by
  rw [crossed, h, Option.elim_some]

/-- The blocks crossed are buffered, in their order. -/
theorem crossed_sublist (e : ReorgEngine) : e.crossed.Sublist e.canonical := by
  cases h : e.solidifiedHead with
  | none =>
    rw [crossed_eq_nil h]
    exact List.nil_sublist _
  | some s =>
    rw [crossed_eq h]
    exact (crossing_sublist ..).trans (List.takeWhile_sublist _)

/-- None of them was covered by the mark before. -/
theorem not_covers_of_mem_crossed {e : ReorgEngine} {b : BufferedBlock} (hb : b ∈ e.crossed) :
    ¬ Covers e.lastIrreversibleHeight b.height := by
  cases h : e.solidifiedHead with
  | none =>
    rw [crossed_eq_nil h] at hb
    cases hb
  | some s =>
    rw [crossed_eq h] at hb
    exact not_covers_of_mem_crossing hb

/-- What the mark covered it covers afterwards. -/
theorem covers_raised_crossed {e : ReorgEngine} {h : ℕ} (hc : Covers e.lastIrreversibleHeight h) :
    Covers (raised e.lastIrreversibleHeight e.crossed) h := by
  cases hs : e.solidifiedHead with
  | none =>
    rw [crossed_eq_nil hs]
    exact hc
  | some s =>
    rw [crossed_eq hs]
    exact covers_raised hc

/-- It covers the blocks crossed too. -/
theorem covers_of_mem_crossed {e : ReorgEngine} {b : BufferedBlock} (hb : b ∈ e.crossed) :
    Covers (raised e.lastIrreversibleHeight e.crossed) b.height := by
  cases hs : e.solidifiedHead with
  | none =>
    rw [crossed_eq_nil hs] at hb
    cases hb
  | some s =>
    rw [crossed_eq hs] at hb ⊢
    exact covers_of_mem_reach ((crossing_sublist ..).subset hb)

/-- **The walk and the buffer**: some prefix of the buffer holds everything named and
ends at or below the mark, and it may be taken to contain any prefix that already
was. -/
theorem exists_settled (e : ReorgEngine) {settled unnamed : List BufferedBlock}
    (hsplit : e.canonical = settled ++ unnamed)
    (hset : ∀ b ∈ settled, Covers e.lastIrreversibleHeight b.height) :
    ∃ more unnamed', unnamed = more ++ unnamed' ∧ (∀ b ∈ e.crossed, b ∈ settled ++ more) ∧
      ∀ b ∈ settled ++ more, Covers (raised e.lastIrreversibleHeight e.crossed) b.height := by
  have hkeep : ∀ b ∈ settled, Covers (raised e.lastIrreversibleHeight e.crossed) b.height :=
    fun b hb => covers_raised_crossed (hset b hb)
  cases hs : e.solidifiedHead with
  | none =>
    refine ⟨[], unnamed, rfl, ?_, by simpa using hkeep⟩
    rw [crossed_eq_nil hs]
    simp
  | some s =>
    rw [crossed_eq hs] at hkeep ⊢
    have hsub := (crossing_sublist s e.canonical e.lastIrreversibleHeight).subset
    -- two prefixes of the buffer: one contains the other
    rcases List.append_eq_append_iff.1 ((reach_append s e.canonical).trans hsplit) with
      ⟨more, hmore, -⟩ | ⟨more, hmore, hun⟩
    · refine ⟨[], unnamed, rfl, fun b hb => ?_, by simpa using hkeep⟩
      rw [List.append_nil, hmore]
      exact List.mem_append_left _ (hsub hb)
    · refine ⟨more, _, hun, fun b hb => hmore ▸ hsub hb, fun b hb => ?_⟩
      rw [← hmore] at hb
      exact covers_of_mem_reach hb

/-- Each block crossed is one mark on the consumer's stack. -/
theorem map_event_marks (e : ReorgEngine) : e.marks.map Output.event = e.crossed.map .mark := by
  rw [marks, List.map_map]
  rfl

/-- Resolving forks marks nothing. -/
theorem eq_keep_of_mem_resolutions (e : ReorgEngine) :
    ∀ x ∈ e.resolutions.map Output.event, x = .keep := by
  intro x hx
  obtain ⟨o, ho, rfl⟩ := List.mem_map.1 hx
  obtain ⟨f, -, rfl⟩ := List.mem_map.1 ho
  rfl

/-- **Settling marks only fresh entries**, and keeps the split. -/
theorem Marked.settle {e : ReorgEngine} {st : List (BufferedBlock × Bool)} (h : e.Marked st)
    (hnodup : e.canonical.Nodup) (htop : ∀ b ∈ e.canonical, ∃ x ∈ st, x.1 = b)
    (out : List Output) :
    Replay.MarkSound st ((e.marks ++ e.resolutions).map Output.event) ∧
      (e.settle out).1.Marked
        (Replay.markReplay st ((e.marks ++ e.resolutions).map Output.event)) := by
  obtain ⟨settled, unnamed, rest, hsplit, hset, hst⟩ := h.split
  obtain ⟨more, unnamed', rfl, hcr, hcov⟩ := e.exists_settled hsplit hset
  have hkeep := e.eq_keep_of_mem_resolutions
  rw [List.map_append, Replay.markSound_append, Replay.markReplay_append,
    Replay.markReplay_of_keep hkeep, map_event_marks, Replay.markReplay_map_mark]
  refine ⟨⟨Replay.markSound_map_mark (hnodup.sublist e.crossed_sublist) ?_ ?_,
    Replay.markSound_of_keep hkeep⟩, ⟨?_, ?_⟩⟩
  · exact fun b hb => htop b (e.crossed_sublist.subset hb)
  · intro b hb x hx hxb
    rw [← Bool.not_eq_true]
    exact fun hflag => not_covers_of_mem_crossed hb (hxb ▸ h.low x hx hflag)
  · intro x hx hflag
    rw [settle_eq]
    obtain ⟨y, hy, rfl⟩ := List.mem_map.1 hx
    by_cases hyc : y.1 ∈ e.crossed
    · rw [if_pos hyc]
      exact hcov y.1 (hcr y.1 hyc)
    · rw [if_neg hyc] at hflag ⊢
      exact covers_raised_crossed (h.low y hy hflag)
  · -- nothing after the new split point is named: ids are distinct
    have hout : ∀ b ∈ unnamed', b ∉ e.crossed := by
      intro b hb hbc
      rw [hsplit, ← List.append_assoc, List.nodup_append] at hnodup
      exact hnodup.2.2 b (hcr b hbc) b hb rfl
    have hun : (unnamed'.reverse.map fun b => (b, false)).map
        (fun x => if x.1 ∈ e.crossed then (x.1, true) else x) =
        unnamed'.reverse.map fun b => (b, false) := by
      rw [List.map_map]
      refine List.map_congr_left fun b hb => ?_
      exact if_neg (hout b (List.mem_reverse.1 hb))
    rw [settle_eq]
    refine Split.drop ?_ _
    refine ⟨settled ++ more, unnamed', (more.reverse.map (·, false) ++ rest).map
      fun x => if x.1 ∈ e.crossed then (x.1, true) else x, ?_, hcov, ?_⟩
    · rw [hsplit, List.append_assoc]
    · simp only [hst, List.reverse_append, List.map_append, List.append_assoc, hun]

/-- **Attaching a block pops only entries that are not flagged**, and keeps the split. -/
theorem Attaches.mark {e : ReorgEngine} {d : DecodedBlock} {kept orphans : List BufferedBlock}
    (ha : Attaches e d kept orphans) (txInfos : List DecodedTxInfo)
    {st : List (BufferedBlock × Bool)} (h : e.Marked st) :
    Replay.MarkSound st ((e.attachOutputs orphans d txInfos).map Output.event) ∧
      (e.attached kept orphans d txInfos).Marked
        (Replay.markReplay st ((e.attachOutputs orphans d txInfos).map Output.event)) := by
  obtain ⟨settled, unnamed, rest, hsplit, hset, hst⟩ := h.split
  -- the guard keeps the reorg out of the part at or below the mark
  have hopen : ∃ unnamed', kept = settled ++ unnamed' ∧ unnamed = unnamed' ++ orphans := by
    rcases List.append_eq_append_iff.1 (hsplit.symm.trans ha.split) with
      ⟨unnamed', hk, hu⟩ | ⟨more, hs, ho⟩
    · exact ⟨unnamed', hk, hu⟩
    · cases more with
      | nil => exact ⟨[], by simpa using hs.symm, by simpa using ho.symm⟩
      | cons o more =>
        obtain ⟨l, hl, hol⟩ := hset o (by rw [hs]; simp)
        have := ha.guard l o hl (by rw [ho]; rfl)
        omega
  obtain ⟨unnamed', hk, rfl⟩ := hopen
  have hkeep : ∀ x ∈ (observations d orphans).map fun _ => (Replay.Event.keep :
      Replay.Event BufferedBlock), x = .keep := by
    intro x hx
    obtain ⟨_, -, rfl⟩ := List.mem_map.1 hx
    rfl
  rw [List.reverse_append, List.map_append, List.append_assoc] at hst
  rw [map_event_attachOutputs, Replay.markSound_append, Replay.markSound_cons,
    Replay.markReplay_append, hst, Replay.markReplay_map_pop]
  rw [Replay.markReplay, List.foldl_cons, ← Replay.markReplay, Replay.markReplay_of_keep hkeep]
  refine ⟨⟨Replay.markSound_map_pop _ _, trivial, Replay.markSound_of_keep hkeep⟩, ⟨?_, ?_⟩⟩
  · intro x hx hflag
    rcases List.mem_cons.1 hx with rfl | hx
    · cases hflag
    · exact h.low x (hst ▸ List.mem_append_right _ hx) hflag
  · refine ⟨settled, unnamed' ++ [bufferedBlock e.nextForkId d txInfos], rest, ?_, hset, ?_⟩
    · simp [attached, hk]
    · simp [Replay.markApply]

/-- **One call and the flags on the consumer's stack.** Its marks name entries not flagged
before, its pops take none that is, and the mark stays above all of them. -/
theorem Step.mark {e e' : ReorgEngine} {c : Call} {out : List Output} (hw : e.Wf)
    (hs : Step e c e' out) {st : List (BufferedBlock × Bool)} (ht : e.Tracks (st.map Prod.fst))
    (h : e.Marked st) :
    Replay.MarkSound st (out.map Output.event) ∧
      e'.Marked (Replay.markReplay st (out.map Output.event)) := by
  -- an engine whose buffer tops the stack can settle
  have hsettle : ∀ (f : ReorgEngine) (pre : List Output) (st : List (BufferedBlock × Bool)),
      f.Tracks (st.map Prod.fst) → (f.canonical.map (·.blockId)).Nodup → f.Marked st →
      Replay.MarkSound st ((f.marks ++ f.resolutions).map Output.event) ∧
        (f.settle pre).1.Marked
          (Replay.markReplay st ((f.marks ++ f.resolutions).map Output.event)) := by
    intro f pre st ht hnd hm
    obtain ⟨below, hbelow⟩ := ht.top
    refine hm.settle hnd.of_map (fun b hb => ?_) pre
    have hb' : b ∈ st.map Prod.fst := by
      rw [hbelow]
      exact List.mem_append_left _ (List.mem_reverse.2 hb)
    exact List.mem_map.1 hb'
  cases hs with
  | refused => exact ⟨Replay.markSound_nil, h⟩
  | stale => exact ⟨Replay.markSound_nil, h⟩
  | attached d txInfos kept orphans ha =>
    obtain ⟨hsound, hm⟩ := ha.mark txInfos h
    obtain ⟨-, ht'⟩ := ha.replay txInfos ht
    rw [← Replay.markReplay_map_fst] at ht'
    rw [attach_snd, List.map_append, Replay.markSound_append, Replay.markReplay_append]
    obtain ⟨hsound', hm'⟩ := hsettle _ (e.attachOutputs orphans d txInfos) _ ht' (ha.nodup hw _ _) hm
    exact ⟨⟨hsound, hsound'⟩, hm'⟩
  | head s hs =>
    rw [settle_nil_snd]
    exact hsettle (e.withHead s) [] st ⟨ht.top, ht.fresh⟩ hw.nodup ⟨h.low, h.split⟩

/-- The flags on the stack after everything a run has emitted. -/
structure MarkReached (e : ReorgEngine) (outs : List Output) : Prop where
  reached : e.Reached outs
  sound : Replay.MarkSound [] (outs.map Output.event)
  marked : e.Marked (Replay.markReplay [] (outs.map Output.event))

/-- A fresh engine has marked nothing. -/
theorem markReached_new {config : ReorgConfig} {e : ReorgEngine}
    (h : ReorgEngine.new config = some e) : e.MarkReached [] := by
  refine ⟨reached_new h, Replay.markSound_nil, ?_⟩
  obtain rfl := eq_of_new h
  exact ⟨by simp [Replay.markReplay], ⟨[], [], [], rfl, by simp, rfl⟩⟩

/-- One call goes on from the marks reached. -/
theorem MarkReached.call {e e' : ReorgEngine} {outs out : List Output} {c : Call}
    (h : e.MarkReached outs) (hc : e.call c = some (e', out)) : e'.MarkReached (outs ++ out) := by
  have htracks : e.Tracks ((Replay.markReplay [] (outs.map Output.event)).map Prod.fst) := by
    rw [Replay.markReplay_map_fst]
    exact h.reached.tracks
  obtain ⟨hsound, hmarked⟩ := (step_of_call h.reached.wf hc).mark h.reached.wf htracks h.marked
  refine ⟨h.reached.call hc, ?_, ?_⟩
  · rw [List.map_append, Replay.markSound_append]
    exact ⟨h.sound, hsound⟩
  · rw [List.map_append, Replay.markReplay_append]
    exact hmarked

end ReorgEngine

/-- So does a run of a fresh engine. -/
theorem markReached_of_runFresh {config : ReorgConfig} {calls : List Call} {e : ReorgEngine}
    {outs : List Output} (h : runFresh config calls = some (e, outs)) : e.MarkReached outs := by
  obtain ⟨e₀, hnew, hrun⟩ := Option.bind_eq_some_iff.1 h
  exact Run.run_invariant (fun _ _ _ _ _ hP hc => hP.call hc) (ReorgEngine.markReached_new hnew) hrun

/-- Only accepted blocks are announced as irreversible. -/
theorem mem_accepted_of_irreversible {config : ReorgConfig} {calls : List Call} {e : ReorgEngine}
    {outs : List Output} (h : runFresh config calls = some (e, outs)) {s : StreamableBlock}
    (hs : .irreversible s ∈ outs) : s.block ∈ accepted outs :=
  mem_accepted_of_push ((markReached_of_runFresh h).sound.push_of_mark
    (List.mem_map_of_mem (f := Output.event) hs))

/-- **Irreversible means irreversible.**  In every run of a fresh engine, on blocks of
any heights, every `Irreversible` names an entry on the consumer's stack that was not
named before, and no `Undo` pops an entry that was named. -/
theorem runFresh_markSound (config : ReorgConfig)
    (h : config.finalityDepth < config.bufferWindow) (calls : List Call) :
    ∃ e outs, runFresh config calls = some (e, outs) ∧
      Replay.MarkSound [] (outs.map Output.event) := by
  obtain ⟨e, outs, hr⟩ := runFresh_total h calls
  exact ⟨e, outs, hr, (markReached_of_runFresh hr).sound⟩

/-- The default configuration is one of them; here a reorg follows a finalized block. -/
theorem runFresh_markSound_default :
    ReorgConfig.default.finalityDepth < ReorgConfig.default.bufferWindow ∧
      ∃ e outs, runFresh ReorgConfig.default [.accept (synthAt 1 0 0) [], .accept (synthAt 2 0 0) [],
          .setSolidifiedHead 1, .accept (synthAt 2 1 0) [], .setSolidifiedHead 2] =
            some (e, outs) ∧
        Replay.MarkSound [] (outs.map Output.event) :=
  ⟨by decide, runFresh_markSound _ (by decide) _⟩

end Relayer
end Lightcycle
