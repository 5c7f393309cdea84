/-
# Are finalized blocks announced without gaps?

Under the chain rule the blocks a finality walk names are consecutive in the
buffer, so a gap in the sequence of `Irreversible` outputs can only open between
two walks.  It opens exactly when `set_solidified_head` reaches the front of the
buffer while the front is more than one above the high-water mark: the buffer is
pruned by size alone, so the blocks between the mark and the front were dropped
before the head reached them.  A call of `accept` opens no gap: its walk runs
before its pruning, against a head that had already named everything it reached.

`Announces` is this condition on one call, and `announcedLinked_iff_along` says that a run
announces its finalized blocks without gaps iff all its calls meet it.
-/

import Lightcycle.Relayer.Finality

namespace Lightcycle
namespace Relayer

/-- The block of an `Irreversible`. -/
def Output.irreversibleBlock : Output → Option BufferedBlock
  | .irreversible s => some s.block
  | _ => none

/-- The blocks announced as irreversible, in order. -/
def irreversibles (outs : List Output) : List BufferedBlock :=
  outs.filterMap Output.irreversibleBlock

/-- Any two successive `Irreversible` outputs are parent and child. -/
def AnnouncedLinked (outs : List Output) : Prop :=
  (irreversibles outs).IsChain fun b b' => b'.parentId = b.blockId

instance (outs : List Output) : Decidable (AnnouncedLinked outs) :=
  inferInstanceAs (Decidable (List.IsChain _ _))

/-- The blocks announced are those of either part. -/
theorem irreversibles_append (outs outs' : List Output) :
    irreversibles (outs ++ outs') = irreversibles outs ++ irreversibles outs' :=
  List.filterMap_append

/-! ### The finality walk on consecutive heights -/

/-- Above the mark the walk names everything it reaches. -/
theorem crossing_eq_reach (s : ℕ) {bs : List BufferedBlock} {prev : Option ℕ}
    (hpw : bs.Pairwise fun a b => a.height < b.height)
    (hprev : ∀ b ∈ bs, ¬ Covers prev b.height) : crossing s bs prev = reach s bs := by
  induction bs generalizing prev with
  | nil => rfl
  | cons b bs ih =>
    obtain ⟨hb, hbs⟩ := List.pairwise_cons.1 hpw
    rcases crossing_cons s b bs prev with ⟨-, hr, hc⟩ | ⟨-, -, hcov, -⟩ | ⟨-, hr, -, hc⟩
    · rw [hr, hc]
    · exact absurd hcov (hprev b (List.mem_cons_self ..))
    · rw [hr, hc, ih hbs]
      intro c hcm hcov
      have h₁ := hb c hcm
      have h₂ := covers_some.1 hcov
      omega

/-- On consecutive heights the walk skips a prefix of what it reaches, all at or below
the mark, and names the rest. -/
theorem exists_skipped (s : ℕ) {bs : List BufferedBlock} (prev : Option ℕ)
    (hpw : bs.Pairwise fun a b => a.height < b.height) :
    ∃ skipped, reach s bs = skipped ++ crossing s bs prev ∧
      ∀ b ∈ skipped, Covers prev b.height := by
  induction bs with
  | nil => exact ⟨[], rfl, by simp⟩
  | cons b bs ih =>
    obtain ⟨hb, hbs⟩ := List.pairwise_cons.1 hpw
    rcases crossing_cons s b bs prev with ⟨-, hr, hc⟩ | ⟨-, hr, hcov, hc⟩ | ⟨-, hr, -, hc⟩
    · exact ⟨[], by rw [hr, hc, List.nil_append], by simp⟩
    · obtain ⟨skipped, hsk, hall⟩ := ih hbs
      refine ⟨b :: skipped, by rw [hr, hc, hsk, List.cons_append], ?_⟩
      exact List.forall_mem_cons.2 ⟨hcov, hall⟩
    · refine ⟨[], ?_, by simp⟩
      rw [hr, hc, List.nil_append, crossing_eq_reach s hbs]
      intro c hcm hcov
      have h₁ := hb c hcm
      have h₂ := covers_some.1 hcov
      omega

/-- What the walk names is a contiguous part of the buffer. -/
theorem crossing_isInfix (s : ℕ) {bs : List BufferedBlock} (prev : Option ℕ) (h : Ascending bs) :
    crossing s bs prev <:+: bs := by
  obtain ⟨skipped, hsk, -⟩ := exists_skipped s prev h.pairwise
  refine ⟨skipped, bs.dropWhile fun b => decide (b.height ≤ s), ?_⟩
  rw [← hsk, reach_append]

/-- The first block named is one above the mark, or it is the front of the buffer. -/
theorem head_crossing {s l : ℕ} {bs : List BufferedBlock} {x : BufferedBlock} (h : Ascending bs)
    (hx : (crossing s bs (some l)).head? = some x) : x.height = l + 1 ∨ bs.head? = some x := by
  obtain ⟨skipped, hsk, hcov⟩ := exists_skipped s (some l) h.pairwise
  obtain ⟨rest, hrest⟩ := List.head?_eq_some_iff.1 hx
  have hbs : bs = skipped ++ x :: (rest ++ bs.dropWhile fun b => decide (b.height ≤ s)) := by
    conv_lhs => rw [← reach_append s bs, hsk, hrest]
    simp
  rcases List.eq_nil_or_concat skipped with rfl | ⟨init, y, rfl⟩
  · refine Or.inr ?_
    rw [hbs]
    rfl
  · refine Or.inl ?_
    have hyx : x.height = y.height + 1 := by
      have hch := h
      rw [hbs, List.concat_eq_append, List.append_assoc] at hch
      exact (List.isChain_cons_cons.1 hch.right_of_append).1
    have hy := covers_some.1 (hcov y (by simp))
    have hxl : ¬ x.height ≤ l := fun hle =>
      not_covers_of_mem_crossing (List.mem_of_head? hx) (covers_some.2 hle)
    omega

/-- In an ascending buffer the walk reaches every block at or below the head. -/
theorem mem_reach_of_le {s : ℕ} {bs : List BufferedBlock} {b : BufferedBlock}
    (hpw : bs.Pairwise fun a b => a.height < b.height) (hb : b ∈ bs) (hle : b.height ≤ s) :
    b ∈ reach s bs := by
  induction bs with
  | nil => cases hb
  | cons c bs ih =>
    obtain ⟨hc, hbs⟩ := List.pairwise_cons.1 hpw
    have hcs : c.height ≤ s := by
      rcases List.mem_cons.1 hb with rfl | hb
      · exact hle
      · have := hc b hb
        omega
    rw [reach, List.takeWhile_cons, decide_eq_true hcs, if_pos rfl]
    rcases List.mem_cons.1 hb with rfl | hb
    · exact List.mem_cons_self ..
    · exact List.mem_cons_of_mem _ (ih hbs hb)

/-! ### Two successive announcements -/

namespace ReorgEngine

/-- `set_solidified_head(s)` opens no gap: nothing was announced yet, or the front of the
buffer is at most one above the last height announced, or `s` does not reach it. -/
def Announces (e : ReorgEngine) : Call → Prop
  | .accept _ _ => True
  | .setSolidifiedHead s => ∀ l b, e.lastIrreversibleHeight = some l → e.canonical.head? = some b →
      b.height ≤ l + 1 ∨ s < b.height

/-- Settling announces the blocks crossed. -/
theorem irreversibles_settled (e : ReorgEngine) :
    irreversibles (e.marks ++ e.resolutions) = e.crossed := by
  have hres : irreversibles e.resolutions = [] := by
    refine List.filterMap_eq_nil_iff.2 fun o ho => ?_
    obtain ⟨f, -, rfl⟩ := List.mem_map.1 ho
    rfl
  have hmarks : irreversibles e.marks = e.crossed := by
    rw [irreversibles, marks, List.filterMap_map]
    exact List.filterMap_some
  rw [irreversibles_append, hres, hmarks, List.append_nil]

/-- Attaching a block announces nothing by itself. -/
theorem irreversibles_attachOutputs (e : ReorgEngine) (orphans : List BufferedBlock)
    (d : DecodedBlock) (txInfos : List DecodedTxInfo) :
    irreversibles (e.attachOutputs orphans d txInfos) = [] :=
  List.filterMap_eq_nil_iff.2 (e.forall_attachOutputs (fun _ _ => rfl) rfl fun _ _ => rfl)

/-- Attaching a block announces nothing. -/
theorem irreversibles_append_attachOutputs (e : ReorgEngine) (outs : List Output)
    (orphans : List BufferedBlock) (d : DecodedBlock) (txInfos : List DecodedTxInfo) :
    irreversibles (outs ++ e.attachOutputs orphans d txInfos) = irreversibles outs := by
  rw [irreversibles_append, irreversibles_attachOutputs, List.append_nil]

/-- The heights announced so far, and the high-water mark above them. -/
structure Rising (e : ReorgEngine) (outs : List Output) : Prop where
  covered : ∀ b ∈ irreversibles outs, Covers e.lastIrreversibleHeight b.height
  rising : (irreversibles outs).Pairwise fun a b => a.height < b.height

/-- **The walk names strictly rising heights**, whatever the buffer holds. -/
theorem pairwise_crossing (s : ℕ) (bs : List BufferedBlock) (prev : Option ℕ) :
    (crossing s bs prev).Pairwise fun a b => a.height < b.height := by
  induction bs generalizing prev with
  | nil => exact List.Pairwise.nil
  | cons b bs ih =>
    rcases crossing_cons s b bs prev with ⟨-, -, hc⟩ | ⟨-, -, -, hc⟩ | ⟨-, -, -, hc⟩
    · rw [hc]
      exact List.Pairwise.nil
    · rw [hc]
      exact ih prev
    · rw [hc]
      refine List.pairwise_cons.2 ⟨fun c hcm => ?_, ih _⟩
      have hn := not_covers_of_mem_crossing hcm
      rw [covers_some] at hn
      omega

/-- Settling goes on above the mark. -/
theorem Rising.settle {f : ReorgEngine} {hist : List Output} (h : f.Rising hist)
    (pre : List Output) : (f.settle pre).1.Rising (hist ++ (f.marks ++ f.resolutions)) := by
  have hpw : f.crossed.Pairwise fun a b => a.height < b.height := by
    cases hs : f.solidifiedHead with
    | none => rw [crossed_eq_nil hs]; exact List.Pairwise.nil
    | some s => rw [crossed_eq hs]; exact pairwise_crossing ..
  rw [settle_eq]
  constructor
  · intro b hb
    rw [irreversibles_append, irreversibles_settled] at hb
    rcases List.mem_append.1 hb with hb | hb
    · exact covers_raised_crossed (h.covered b hb)
    · exact covers_of_mem_crossed hb
  · rw [irreversibles_append, irreversibles_settled, List.pairwise_append]
    refine ⟨h.rising, hpw, fun a ha b hb => ?_⟩
    by_contra hle
    exact not_covers_of_mem_crossed hb ((h.covered a ha).mono (by omega))

/-- **Each height announced is above those before**, for blocks of any heights: the walk
passes what the mark covers and raises the mark to what it names. -/
theorem Rising.step {e e' : ReorgEngine} {outs out : List Output} {c : Call} (h : e.Rising outs)
    (hs : Step e c e' out) : e'.Rising (outs ++ out) := by
  cases hs with
  | refused => simpa using h
  | stale => simpa using h
  | attached d txInfos kept orphans ha =>
    have hirr := e.irreversibles_append_attachOutputs outs orphans d txInfos
    have hat : (e.attached kept orphans d txInfos).Rising
        (outs ++ e.attachOutputs orphans d txInfos) :=
      ⟨by rw [hirr]; exact h.covered, by rw [hirr]; exact h.rising⟩
    rw [attach_snd, ← List.append_assoc]
    exact hat.settle _
  | head s hs =>
    rw [settle_nil_snd]
    have hw : (e.withHead s).Rising outs := ⟨h.covered, h.rising⟩
    exact hw.settle []

/-- Nothing has been announced. -/
theorem rising_nil (e : ReorgEngine) : e.Rising [] := ⟨by simp [irreversibles], List.Pairwise.nil⟩

/-- The buffer ascends, being the top of a stack that does. -/
theorem Tracks.ascending {e : ReorgEngine} {st : List BufferedBlock} (h : e.Tracks st)
    (hst : st.IsChain heightLink) : Ascending e.canonical := by
  obtain ⟨below, rfl⟩ := h.top
  exact List.isChain_reverse.1 hst.left_of_append

/-- The last announcement, the high-water mark and the stack. -/
structure LastAnnounced (e : ReorgEngine) (outs : List Output) : Prop where
  mark : e.lastIrreversibleHeight = (irreversibles outs).getLast?.map (·.height)
  onStack : ∀ b, (irreversibles outs).getLast? = some b → b ∈ stackOf outs

/-- Between calls, everything the solidified head reaches has been announced. -/
def Caught (e : ReorgEngine) : Prop :=
  ∀ s, e.solidifiedHead = some s → ∀ b ∈ e.canonical, b.height ≤ s →
    Covers e.lastIrreversibleHeight b.height

variable {e e' f : ReorgEngine} {outs out hist : List Output} {c : Call}

/-- A buffered block is on the stack. -/
theorem Tracks.mem {st : List BufferedBlock} (h : e.Tracks st) {b : BufferedBlock}
    (hb : b ∈ e.canonical) : b ∈ st := by
  obtain ⟨below, hbelow⟩ := h.top
  rw [hbelow]
  exact List.mem_append_left _ (List.mem_reverse.2 hb)

/-- **Attaching a block and the stack**: the orphans come off, and with them nothing at or
below the high-water mark. -/
theorem Attaches.stack_split {d : DecodedBlock} {kept orphans : List BufferedBlock}
    (ha : Attaches e d kept orphans) (txInfos : List DecodedTxInfo) (ht : e.Tracks (stackOf outs))
    (hasc : Ascending e.canonical) :
    ∃ rest, stackOf outs = orphans.reverse ++ rest ∧
      stackOf (outs ++ e.attachOutputs orphans d txInfos) =
        bufferedBlock e.nextForkId d txInfos :: rest ∧
      (∀ b ∈ kept, b ∈ rest) ∧
      ∀ b ∈ stackOf outs, Covers e.lastIrreversibleHeight b.height → b ∈ rest := by
  obtain ⟨below, hbelow⟩ := ht.top
  rw [ha.split, List.reverse_append, List.append_assoc] at hbelow
  refine ⟨kept.reverse ++ below, hbelow, ?_, fun b hb => ?_, fun b hb hcov => ?_⟩
  · rw [stackOf_append, hbelow, replay_attachOutputs]
  · exact List.mem_append_left _ (List.mem_reverse.2 hb)
  · rw [hbelow] at hb
    rcases List.mem_append.1 hb with hbo | hb
    · obtain ⟨l, hl, hbl⟩ := hcov
      have hpw := hasc.pairwise
      rw [ha.split] at hpw
      have hpo := (List.pairwise_append.1 hpw).2.1
      cases ho : orphans with
      | nil =>
        rw [ho] at hbo
        cases hbo
      | cons o os =>
        have hguard := ha.guard l o hl (by rw [ho]; rfl)
        rw [ho] at hbo hpo
        rcases List.mem_cons.1 (List.mem_reverse.1 hbo) with rfl | hbo
        · omega
        · have := (List.pairwise_cons.1 hpo).1 b hbo
          omega
    · exact hb

/-- Settling announces the blocks crossed and catches up. -/
theorem LastAnnounced.settle (h : f.LastAnnounced hist) (ht : f.Tracks (stackOf hist))
    (hasc : Ascending f.canonical) (pre : List Output) :
    (f.settle pre).1.LastAnnounced (hist ++ (f.marks ++ f.resolutions)) ∧
      (f.settle pre).1.Caught := by
  have hmem : ∀ b ∈ f.crossed, b ∈ stackOf hist :=
    fun b hb => ht.mem (f.crossed_sublist.subset hb)
  refine ⟨⟨?_, ?_⟩, ?_⟩
  · rw [irreversibles_append, irreversibles_settled, List.getLast?_append, settle_eq]
    simp only [raised]
    cases f.crossed.getLast? with
    | none => exact h.mark
    | some b => rfl
  · intro b hb
    rw [irreversibles_append, irreversibles_settled, List.getLast?_append] at hb
    rw [stackOf_settled]
    cases hl : f.crossed.getLast? with
    | none =>
      rw [hl] at hb
      exact h.onStack b hb
    | some x =>
      rw [hl] at hb
      obtain rfl := Option.some.inj hb
      exact hmem x (List.mem_of_getLast? hl)
  · rw [settle_eq]
    intro s hs b hb hle
    simp only at hs hb ⊢
    rw [crossed_eq hs]
    exact covers_of_mem_reach (mem_reach_of_le hasc.pairwise (List.mem_of_mem_drop hb) hle)

/-- The blocks crossed are linked, so only the joint with the last announcement can
break the sequence. -/
theorem announcedLinked_settled (hlinked : f.canonical.IsChain fun a b => b.parentId = a.blockId)
    (hasc : Ascending f.canonical) :
    AnnouncedLinked (hist ++ (f.marks ++ f.resolutions)) ↔ AnnouncedLinked hist ∧
      ∀ b x, (irreversibles hist).getLast? = some b → f.crossed.head? = some x →
        x.parentId = b.blockId := by
  have hcrossed : f.crossed.IsChain fun b b' => b'.parentId = b.blockId := by
    cases hs : f.solidifiedHead with
    | none => rw [crossed_eq_nil hs]; exact List.isChain_nil
    | some s =>
      rw [crossed_eq hs]
      exact hlinked.infix (crossing_isInfix s _ hasc)
  rw [AnnouncedLinked, irreversibles_append, irreversibles_settled, List.isChain_append]
  constructor
  · rintro ⟨h₁, -, h₂⟩
    exact ⟨h₁, fun b x hb hx => h₂ b hb x hx⟩
  · rintro ⟨h₁, h₂⟩
    exact ⟨h₁, hcrossed, fun b hb x hx => h₂ b x hb hx⟩

/-- A block crossed is the child of the last block announced exactly when it is one
higher. -/
theorem LastAnnounced.parentId_iff (h : f.LastAnnounced hist) (ht : f.Tracks (stackOf hist))
    (hr : e'.Reached (hist ++ (f.marks ++ f.resolutions)))
    (hc : ChainRule (hist ++ (f.marks ++ f.resolutions))) {b x : BufferedBlock}
    (hb : (irreversibles hist).getLast? = some b) (hx : x ∈ f.crossed) :
    x.parentId = b.blockId ↔ x.height = b.height + 1 := by
  have hmark : f.lastIrreversibleHeight = some b.height := by rw [h.mark, hb]; rfl
  have hxst : x ∈ stackOf hist := ht.mem (f.crossed_sublist.subset hx)
  have hlt : b.height < x.height := by
    have := not_covers_of_mem_crossed hx
    rw [hmark, covers_some] at this
    omega
  refine hr.parentId_iff_height hc ?_ ?_ hlt
  · rw [stackOf_settled]
    exact hxst
  · rw [stackOf_settled]
    exact h.onStack b hb

/-- Attaching a block leaves the last block announced on the stack: the guard keeps the
orphans above it. -/
theorem Attaches.lastAnnounced {d : DecodedBlock} {kept orphans : List BufferedBlock}
    (ha : Attaches e d kept orphans) (txInfos : List DecodedTxInfo) (h : e.LastAnnounced outs)
    (ht : e.Tracks (stackOf outs)) (hasc : Ascending e.canonical) :
    (e.attached kept orphans d txInfos).LastAnnounced
      (outs ++ e.attachOutputs orphans d txInfos) := by
  have hirr := e.irreversibles_append_attachOutputs outs orphans d txInfos
  refine ⟨by rw [hirr]; exact h.mark, fun b hb => ?_⟩
  rw [hirr] at hb
  have hmark : e.lastIrreversibleHeight = some b.height := by rw [h.mark, hb]; rfl
  obtain ⟨rest, -, hst, -, hlow⟩ := ha.stack_split txInfos ht hasc
  rw [hst]
  exact List.mem_cons_of_mem _ (hlow b (h.onStack b hb) (hmark ▸ covers_some.2 le_rfl))

/-- **A call of `accept` opens no gap**: once a block was announced, what the walk crosses
first is one above it. -/
theorem Attaches.head_crossed {d : DecodedBlock} {kept orphans : List BufferedBlock}
    (ha : Attaches e d kept orphans) (txInfos : List DecodedTxInfo) (hcaught : e.Caught)
    (hasc : Ascending (e.attached kept orphans d txInfos).canonical) (hkept : kept ≠ [])
    {l : ℕ} (hl : e.lastIrreversibleHeight = some l) {x : BufferedBlock}
    (hx : (e.attached kept orphans d txInfos).crossed.head? = some x) : x.height = l + 1 := by
  cases hs : e.solidifiedHead with
  | none =>
    rw [crossed_eq_nil (show (e.attached kept orphans d txInfos).solidifiedHead = none from hs)]
      at hx
    cases hx
  | some s =>
    rw [crossed_eq (show (e.attached kept orphans d txInfos).solidifiedHead = some s from hs),
      show (e.attached kept orphans d txInfos).lastIrreversibleHeight = some l from hl] at hx
    have hxc := List.mem_of_head? hx
    rcases head_crossing hasc hx with h | hfront
    · exact h
    · -- the front was there before, so the head had already named it
      have hxk : x ∈ e.canonical := by
        rw [ha.split]
        refine List.mem_append_left _ (List.mem_of_head? ?_)
        rw [← hfront, attached, List.head?_append_of_ne_nil _ hkept]
      have hle := mem_reach_le ((crossing_sublist ..).subset hxc)
      have hcov := hcaught s hs x hxk hle
      rw [hl] at hcov
      exact absurd hcov (not_covers_of_mem_crossing hxc)

/-- **A head that advanced opens a gap exactly when it reaches a front more than one above
the last height announced.** -/
theorem head_crossed_withHead_iff {s l : ℕ} (hasc : Ascending e.canonical)
    (hl : e.lastIrreversibleHeight = some l) :
    (∀ x, (e.withHead s).crossed.head? = some x → x.height = l + 1) ↔
      e.Announces (.setSolidifiedHead s) := by
  have hcr : (e.withHead s).crossed = crossing s e.canonical (some l) := by
    rw [← hl]
    exact crossed_eq rfl
  rw [hcr]
  constructor
  · intro h l' b hl' hb
    obtain rfl : l = l' := Option.some.inj (hl.symm.trans hl')
    by_contra hnot
    push Not at hnot
    obtain ⟨rest, hrest⟩ := List.head?_eq_some_iff.1 hb
    rw [hrest] at h
    rcases crossing_cons s b rest (some l) with ⟨hs, -, -⟩ | ⟨-, -, hcov, -⟩ | ⟨-, -, -, hc⟩
    · omega
    · have := covers_some.1 hcov
      omega
    · have := h b (by rw [hc]; rfl)
      omega
  · intro h x hx
    rcases head_crossing hasc hx with hxl | hfront
    · exact hxl
    · have hxc := List.mem_of_head? hx
      have hle := mem_reach_le ((crossing_sublist ..).subset hxc)
      have hgt : ¬ x.height ≤ l := fun hle =>
        not_covers_of_mem_crossing hxc (covers_some.2 hle)
      rcases h l x hl hfront with h | h
      · omega
      · omega

/-- What is kept of an engine and of everything it has emitted. -/
structure Announced (e : ReorgEngine) (outs : List Output) : Prop where
  reached : e.Reached outs
  last : e.LastAnnounced outs
  caught : e.Caught

/-- **One call and the announcements**: the sequence stays linked iff it was and the call
meets the condition. -/
theorem Announced.step (h : e.Announced outs) (hs : Step e c e' out)
    (hc : ChainRule (outs ++ out)) :
    e'.Announced (outs ++ out) ∧
      (AnnouncedLinked (outs ++ out) ↔ AnnouncedLinked outs ∧ e.Announces c) := by
  have hreach := h.reached.step hs
  have hasc := h.reached.tracks.ascending hc.of_append.isChain_height
  have hmark : ∀ b, (irreversibles outs).getLast? = some b →
      e.lastIrreversibleHeight = some b.height := fun b hb => by rw [h.last.mark, hb]; rfl
  cases hs with
  | refused d txInfos =>
    rw [List.append_nil]
    exact ⟨h, ⟨fun hl => ⟨hl, trivial⟩, fun hl => hl.1⟩⟩
  | stale s p hp hs =>
    rw [List.append_nil]
    refine ⟨h, ⟨fun hl => ⟨hl, fun l b hlb hb => ?_⟩, fun hl => hl.1⟩⟩
    by_cases hbp : b.height ≤ p
    · have hcov := h.caught p hp b (List.mem_of_head? hb) hbp
      rw [hlb, covers_some] at hcov
      omega
    · omega
  | attached d txInfos kept orphans ha =>
    rw [attach_snd, ← List.append_assoc] at hreach hc ⊢
    obtain ⟨-, ht⟩ := ha.replay txInfos h.reached.tracks
    rw [← stackOf_append] at ht
    have hasc' := ht.ascending hc.of_append.isChain_height
    have hlast := ha.lastAnnounced txInfos h.last h.reached.tracks hasc
    obtain ⟨hlast', hcaught'⟩ := hlast.settle ht hasc' (e.attachOutputs orphans d txInfos)
    refine ⟨⟨hreach, hlast', hcaught'⟩, ?_⟩
    rw [announcedLinked_settled (ha.linked h.reached.wf _ _) hasc']
    have hirr := e.irreversibles_append_attachOutputs outs orphans d txInfos
    rw [AnnouncedLinked, hirr]
    refine and_congr_right fun _ => ⟨fun _ => trivial, fun _ b x hb hx => ?_⟩
    have hkept : kept ≠ [] := by
      rintro rfl
      have hnil : e.canonical = [] := by rw [ha.split, ha.first rfl, List.nil_append]
      have hbst := h.last.onStack b hb
      rw [h.reached.tracks.fresh hnil] at hbst
      cases hbst
    rw [hlast.parentId_iff ht hreach hc (by rw [hirr, hb]) (List.mem_of_head? hx)]
    exact ha.head_crossed txInfos h.caught hasc' hkept (hmark b hb) hx
  | head s hs =>
    rw [settle_nil_snd] at hreach hc ⊢
    have ht : (e.withHead s).Tracks (stackOf outs) := ⟨h.reached.tracks.top, h.reached.tracks.fresh⟩
    have hlast : (e.withHead s).LastAnnounced outs := ⟨h.last.mark, h.last.onStack⟩
    obtain ⟨hlast', hcaught'⟩ := hlast.settle ht hasc []
    refine ⟨⟨hreach, hlast', hcaught'⟩, ?_⟩
    rw [announcedLinked_settled (f := e.withHead s) h.reached.wf.linked hasc]
    refine and_congr_right fun _ => ?_
    constructor
    · intro hjoint l b hl hb
      obtain ⟨last, hlst, rfl⟩ := Option.map_eq_some_iff.1 (h.last.mark.symm.trans hl)
      refine (head_crossed_withHead_iff hasc hl).1 (fun x hx => ?_) _ b hl hb
      exact (hlast.parentId_iff ht hreach hc hlst (List.mem_of_head? hx)).1 (hjoint last x hlst hx)
    · intro hann b x hb hx
      rw [hlast.parentId_iff ht hreach hc hb (List.mem_of_head? hx)]
      exact (head_crossed_withHead_iff hasc (hmark b hb)).2 hann x hx

/-- A fresh engine has announced nothing. -/
theorem announced_new {config : ReorgConfig} (h : ReorgEngine.new config = some e) :
    e.Announced [] := by
  have hreached := reached_new h
  obtain rfl := eq_of_new h
  refine ⟨hreached, ⟨rfl, by simp [irreversibles]⟩, fun s hs => ?_⟩
  cases hs

/-- **A run and the announcements.** Started from linked announcements, they are linked at
the end exactly when every call of the run meets the condition. -/
theorem Announced.run {calls : List Call} (h : e.Announced hist)
    (hr : Run.run call e calls = some (e', outs)) (hc : ChainRule (hist ++ outs)) :
    AnnouncedLinked (hist ++ outs) ↔ AnnouncedLinked hist ∧ Run.Along Announces call e calls := by
  rw [← Run.alongHist_iff_along hist]
  refine Run.hist_iff_alongHist (K := Announced) (H := ChainRule) (fun _ _ hc => hc.of_append)
    (fun _ _ _ _ _ h hc hcall => ?_) h hr hc
  exact h.step (step_of_call h.reached.wf hcall) hc

end ReorgEngine

/-- **When finalized blocks are announced without gaps.**  Under the chain rule, any two
successive `Irreversible` outputs of a run of a fresh engine are parent and child exactly
when no `set_solidified_head` of the run reaches a front of the buffer more than one above
the last height announced. -/
theorem announcedLinked_iff_along (config : ReorgConfig) (calls : List Call) (e₀ e : ReorgEngine)
    (outs : List Output) (hnew : ReorgEngine.new config = some e₀)
    (hrun : Run.run ReorgEngine.call e₀ calls = some (e, outs)) (hc : ChainRule outs) :
    AnnouncedLinked outs ↔ Run.Along ReorgEngine.Announces ReorgEngine.call e₀ calls := by
  have h := (ReorgEngine.announced_new hnew).run hrun hc
  rw [List.nil_append] at h
  rw [h]
  exact and_iff_right List.isChain_nil

/-- A window of two blocks, and the solidified head late by three. -/
def lateHead : List Call :=
  [.accept (synthAt 1 0 0) [], .setSolidifiedHead 1, .accept (synthAt 2 0 0) [],
    .accept (synthAt 3 0 0) [], .accept (synthAt 4 0 0) [], .setSolidifiedHead 4]

/-- **Finalized blocks can be announced with a gap**: on a linear chain, block 1 is
followed by block 3, pruned block 2 is never announced. -/
theorem announced_gap : ¬ ∀ (config : ReorgConfig) (calls : List Call) (e : ReorgEngine)
    (outs : List Output), runFresh config calls = some (e, outs) → ChainRule outs →
      AnnouncedLinked outs := by
  intro h
  have hrun := h ⟨2, 1⟩ lateHead _ _ rfl (by decide)
  revert hrun
  decide

/-- The hypotheses hold of a run whose head keeps up. -/
theorem announcedLinked_iff_along_keepingUp :
    ∃ e₀ e outs, ReorgEngine.new ⟨2, 1⟩ = some e₀ ∧
      Run.run ReorgEngine.call e₀ [.accept (synthAt 1 0 0) [], .accept (synthAt 2 0 0) [],
        .setSolidifiedHead 1, .accept (synthAt 3 0 0) [], .setSolidifiedHead 2] = some (e, outs) ∧
      (AnnouncedLinked outs ↔ Run.Along ReorgEngine.Announces ReorgEngine.call e₀
        [.accept (synthAt 1 0 0) [], .accept (synthAt 2 0 0) [], .setSolidifiedHead 1,
          .accept (synthAt 3 0 0) [], .setSolidifiedHead 2]) :=
  ⟨_, _, _, rfl, rfl, announcedLinked_iff_along ⟨2, 1⟩ _ _ _ _ rfl rfl (by decide)⟩

end Relayer
end Lightcycle
