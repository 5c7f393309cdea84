/-
# Joining a stream in the middle

A writer's stack follows a stream of pushes and pops.  A reader starts from some rows of
the stack, the last of them `r`, and then receives only the events above the height of `r`
(`above`).  The reader is in step with the writer while what the writer has above that
height is what the reader has above `r` (`InStep`).  From there every event the reader
receives fits its stack exactly as long as `r` is on the writer's stack whenever the writer
moves above it (`soundWhile_iff_of_inStep`); a reader that joins while the writer is
already above `r` fits none (`soundWhile_iff_of_ahead`).

A reader that joins with a stack of its own and receives every event fits exactly as long as
the writer stays in what both stacks have on top (`Meets`, `soundWhile_iff_meets`).

`link` relates a pushed value to the one below it, `ht` is the height.
-/

import Lightcycle.Lib.Replay

namespace Replay

variable {β γ : Type*}

/-! ### Renaming the values -/

/-- The event with its value renamed. -/
def Event.map (f : β → γ) : Event β → Event γ
  | .push b => .push (f b)
  | .pop b => .pop (f b)
  | .mark b => .mark (f b)
  | .keep => .keep

/-- Replay commutes with a map of what is on the stack. -/
theorem replay_map (f : β → γ) (st : List β) (es : List (Event β)) :
    replay (st.map f) (es.map (Event.map f)) = (replay st es).map f := by
  induction es generalizing st with
  | nil => rfl
  | cons e es ih =>
    have he : apply (st.map f) (e.map f) = (apply st e).map f := by
      cases e with
      | push b => rfl
      | pop b => exact List.map_tail.symm
      | mark b => rfl
      | keep => rfl
    rw [List.map_cons, replay_cons, he, ih]
    rfl

/-- Events that were sound are sound under a map that keeps the links. -/
theorem Sound.map {link : β → β → Prop} {link' : γ → γ → Prop} {f : β → γ} {st : List β}
    {es : List (Event β)} (h : Sound link st es) (hl : ∀ b t, link b t → link' (f b) (f t)) :
    Sound link' (st.map f) (es.map (Event.map f)) := by
  induction es generalizing st with
  | nil => exact sound_nil
  | cons e es ih =>
    obtain ⟨he, hes⟩ := sound_cons.1 h
    have happ : apply (st.map f) (e.map f) = (apply st e).map f := replay_map f st [e]
    refine sound_cons.2 ⟨?_, happ ▸ ih hes⟩
    cases e with
    | push b =>
      intro t ht
      rw [List.head?_map] at ht
      obtain ⟨t', ht', rfl⟩ := Option.map_eq_some_iff.1 ht
      exact hl b t' (he t' ht')
    | pop b =>
      have : (st.map f).head? = some (f b) := by rw [List.head?_map, show st.head? = some b from he]; rfl
      exact this
    | mark b => trivial
    | keep => trivial

/-! ### Rows pushed one after the other -/

variable {link : β → β → Prop}

/-- Rows that are pushed are on the stack in reverse. -/
theorem replay_map_push (rows st : List β) :
    replay st (rows.map .push) = rows.reverse ++ st := by
  induction rows generalizing st with
  | nil => rfl
  | cons b rows ih =>
    rw [List.map_cons, replay_cons, ih, List.reverse_cons, List.append_assoc]
    rfl

/-- Linked rows fit a stack as soon as the first does. -/
theorem soundWhile_map_push {rows st : List β} (h : rows.IsChain fun a b => link b a) :
    SoundWhile link st (rows.map .push) ↔
      ∀ b t, rows.head? = some b → st.head? = some t → link b t := by
  induction rows generalizing st with
  | nil => exact ⟨fun _ b t hb => (by cases hb), fun _ => soundWhile_nil⟩
  | cons b rows ih =>
    rw [List.map_cons, soundWhile_cons, ih h.tail]
    constructor
    · rintro ⟨hfits, -⟩ c t hc ht
      obtain rfl := Option.some.inj hc
      exact hfits (by rintro rfl; cases ht) t ht
    · intro hfirst
      refine ⟨fun _ t ht => hfirst b t rfl ht, fun c t hc ht => ?_⟩
      obtain rfl := Option.some.inj ht
      exact (List.isChain_cons.1 h).1 c hc

/-! ### The reader -/

section Reader

variable (ht : β → ℕ) (cut : ℕ)

/-- The event is about a value above the cut. -/
def above : Event β → Bool
  | .push b => decide (cut < ht b)
  | .pop b => decide (cut < ht b)
  | .mark b => decide (cut < ht b)
  | .keep => false

/-- The event moves the writer's stack above the cut. -/
def MovesAbove : Event β → Prop
  | .push b => cut < ht b
  | .pop b => cut < ht b
  | .mark _ => False
  | .keep => False

/-- The part of a stack above the cut. -/
def high (st : List β) : List β := st.takeWhile fun b => decide (cut < ht b)

/-- What the reader has above its rows is what the writer has above the cut, on top of the
last row. -/
structure InStep (r : β) (rows : List β) (st reader : List β) : Prop where
  reader : reader = high ht cut st ++ rows
  under : high ht cut st ≠ [] → r ∈ st

end Reader

variable {ht : β → ℕ} {cut : ℕ} {r : β} {rest st : List β} {es : List (Event β)}

/-- An element above the cut is on the high part. -/
theorem high_cons_of_lt {b : β} (h : cut < ht b) : high ht cut (b :: st) = b :: high ht cut st :=
  List.takeWhile_cons_of_pos (by simpa using h)

/-- Below one at the cut there is no high part. -/
theorem high_cons_of_le {b : β} (h : ht b ≤ cut) : high ht cut (b :: st) = [] :=
  List.takeWhile_cons_of_neg (by simpa using h)

/-- There is none either when the top is at the cut or below it. -/
theorem high_eq_nil (h : ∀ t, st.head? = some t → ht t ≤ cut) : high ht cut st = [] := by
  cases st with
  | nil => rfl
  | cons t st => exact high_cons_of_le (h t rfl)

/-- What holds of the writer's stack and of the events to come. -/
structure Writer (link : β → β → Prop) (ht : β → ℕ) (cut : ℕ) (r : β) (st : List β)
    (es : List (Event β)) : Prop where
  sound : Sound link st es
  /-- Heights go up by one. -/
  height : Sound (fun b t => ht b = ht t + 1) st es
  chain : st.IsChain fun b t => ht b = ht t + 1
  /-- A child of `r` and of a value on the stack has one parent. -/
  parent : ∀ b t, (t ∈ st ∨ .push t ∈ es) → link b t → link b r → t = r
  /-- What is pushed on an empty stack is not above the cut. -/
  bottom : Throughout (fun st e => st = [] → ∀ b, e = .push b → ht b ≤ cut) apply st es

namespace Writer

variable {e : Event β}

/-- What is left of the writer's events after the first is written by the same rules. -/
theorem tail (h : Writer link ht cut r st (e :: es)) : Writer link ht cut r (apply st e) es := by
  obtain ⟨hfits, hes⟩ := sound_cons.1 h.height
  refine ⟨(sound_cons.1 h.sound).2, hes, ?_, fun b t hmem => h.parent b t ?_,
    (throughout_cons.1 h.bottom).2⟩
  · cases e with
    | push b => exact List.isChain_cons.2 ⟨hfits, h.chain⟩
    | pop b => exact h.chain.tail
    | mark b => exact h.chain
    | keep => exact h.chain
  · rcases hmem with hmem | hmem
    · cases e with
      | push b =>
        rcases List.mem_cons.1 hmem with rfl | hmem
        · exact Or.inr (List.mem_cons_self ..)
        · exact Or.inl hmem
      | pop b => exact Or.inl (List.mem_of_mem_tail hmem)
      | mark b => exact Or.inl hmem
      | keep => exact Or.inl hmem
    · exact Or.inr (List.mem_cons_of_mem _ hmem)

/-- Below the top everything is lower. -/
theorem lt_top {t x : β} (h : Writer link ht cut r (t :: st) es) (hx : x ∈ st) : ht x < ht t := by
  have : Trans (fun a b : β => ht b < ht a) (fun a b : β => ht b < ht a)
      (fun a b : β => ht b < ht a) := ⟨fun hab hbc => Nat.lt_trans hbc hab⟩
  have hpw : (t :: st).Pairwise fun a b => ht b < ht a :=
    List.isChain_iff_pairwise.1 (h.chain.imp fun a b hab => by omega)
  exact (List.pairwise_cons.1 hpw).1 x hx

/-- A push above the cut is on something, which is its parent and one lower. -/
theorem push_above {b : β} (h : Writer link ht cut r st (.push b :: es)) (hb : cut < ht b) :
    ∃ t st', st = t :: st' ∧ link b t ∧ ht b = ht t + 1 := by
  cases st with
  | nil =>
    have := (throughout_cons.1 h.bottom).1 rfl b rfl
    omega
  | cons t st' =>
    exact ⟨t, st', rfl, (sound_cons.1 h.sound).1 t rfl, (sound_cons.1 h.height).1 t rfl⟩

/-- Below a push that is not above the cut, nothing is. -/
theorem high_of_push {b : β} (h : Writer link ht cut r st (.push b :: es)) (hb : ht b ≤ cut) :
    high ht cut st = [] := by
  refine high_eq_nil fun t htop => ?_
  have := (sound_cons.1 h.height).1 t htop
  omega

/-- The writer pops what is on top. -/
theorem pop_top {b : β} (h : Writer link ht cut r st (.pop b :: es)) : ∃ st', st = b :: st' :=
  List.head?_eq_some_iff.1 (sound_cons.1 h.sound).1

end Writer

namespace InStep

variable {e : Event β} {rows reader : List β}

/-- A push the reader receives fits exactly when `r` is on the writer's stack, and then the
two stay in step. -/
theorem push {b : β} (hin : InStep ht cut r (r :: rest) st reader) (hcut : ht r = cut)
    (h : Writer link ht cut r st (.push b :: es)) (hb : cut < ht b) :
    (Fits link reader (.push b) ↔ r ∈ st) ∧
      (r ∈ st → InStep ht cut r (r :: rest) (b :: st) (b :: reader)) := by
  obtain ⟨rfl, hunder⟩ := hin
  obtain ⟨t, st', rfl, hlink, hheight⟩ := h.push_above hb
  refine ⟨?_, fun hmem => ⟨by rw [high_cons_of_lt hb]; rfl, fun _ => List.mem_cons_of_mem _ hmem⟩⟩
  rcases Nat.lt_or_ge cut (ht t) with htop | htop
  · -- the reader has the top as well
    have hmem : r ∈ t :: st' := hunder (by rw [high_cons_of_lt htop]; simp)
    refine iff_of_true (fun u hu => ?_) hmem
    rw [high_cons_of_lt htop] at hu
    obtain rfl := Option.some.inj hu
    exact hlink
  · -- the top is at the height of the last row
    rw [high_cons_of_le htop, List.nil_append]
    constructor
    · intro hfits
      rw [← h.parent b t (Or.inl (List.mem_cons_self ..)) hlink (hfits r rfl)]
      exact List.mem_cons_self ..
    · intro hmem u hu
      obtain rfl := Option.some.inj hu
      rcases List.mem_cons.1 hmem with rfl | hmem
      · exact hlink
      · have := h.lt_top hmem
        omega

/-- A pop the reader receives is of its top, and the two stay in step. -/
theorem pop {b : β} (hin : InStep ht cut r (r :: rest) st reader) (hcut : ht r = cut)
    (h : Writer link ht cut r st (.pop b :: es)) (hb : cut < ht b) :
    Fits link reader (.pop b) ∧ r ∈ st ∧ InStep ht cut r (r :: rest) st.tail reader.tail := by
  obtain ⟨rfl, hunder⟩ := hin
  obtain ⟨st', rfl⟩ := h.pop_top
  have hmem : r ∈ b :: st' := hunder (by rw [high_cons_of_lt hb]; simp)
  have hmem' : r ∈ st' := by
    rcases List.mem_cons.1 hmem with rfl | hmem
    · omega
    · exact hmem
  rw [high_cons_of_lt hb]
  exact ⟨rfl, hmem, rfl, fun _ => hmem'⟩

/-- **An event the reader receives** fits its stack exactly when the row it joined at is
still under what the writer moves, and then the two stay in step. -/
theorem event (hin : InStep ht cut r (r :: rest) st reader) (hcut : ht r = cut)
    (h : Writer link ht cut r st (e :: es)) (habove : above ht cut e = true) :
    (Fits link reader e ↔ (MovesAbove ht cut e → r ∈ st)) ∧
      ((MovesAbove ht cut e → r ∈ st) →
        InStep ht cut r (r :: rest) (apply st e) (apply reader e)) := by
  cases e with
  | push b =>
    have hb : cut < ht b := of_decide_eq_true habove
    obtain ⟨hfits, hstep⟩ := hin.push hcut h hb
    exact ⟨hfits.trans ⟨fun hmem _ => hmem, fun hmem => hmem hb⟩, fun hmem => hstep (hmem hb)⟩
  | pop b =>
    have hb : cut < ht b := of_decide_eq_true habove
    obtain ⟨hfits, hmem, hstep⟩ := hin.pop hcut h hb
    exact ⟨iff_of_true hfits fun _ => hmem, fun _ => hstep⟩
  | mark b => exact ⟨iff_of_true trivial fun hm => hm.elim, fun _ => hin⟩
  | keep => cases habove

/-- **An event the reader does not receive** does not move the writer above the cut. -/
theorem skip (hin : InStep ht cut r rows st reader) (h : Writer link ht cut r st (e :: es))
    (habove : above ht cut e = false) :
    ¬ MovesAbove ht cut e ∧ InStep ht cut r rows (apply st e) reader := by
  cases e with
  | push b =>
    have hb : ¬ cut < ht b := of_decide_eq_false habove
    have hle : ht b ≤ cut := by omega
    obtain ⟨rfl, hunder⟩ := hin
    refine ⟨hb, ?_, fun hne => absurd (high_cons_of_le hle) hne⟩
    rw [h.high_of_push hle, apply, high_cons_of_le hle]
  | pop b =>
    have hb : ¬ cut < ht b := of_decide_eq_false habove
    have hle : ht b ≤ cut := by omega
    obtain ⟨rfl, hunder⟩ := hin
    obtain ⟨st', rfl⟩ := h.pop_top
    have hhigh : high ht cut st' = [] := by
      refine high_eq_nil fun t htop => ?_
      have := h.lt_top (List.mem_of_head? htop)
      omega
    refine ⟨hb, ?_, fun hne => absurd hhigh hne⟩
    rw [high_cons_of_le hle, apply, List.tail_cons, hhigh]
  | mark b => exact ⟨id, hin⟩
  | keep => exact ⟨id, hin⟩

end InStep

/-- **A reader in step.**  Everything it receives fits its stack exactly when the last row
is on the writer's stack whenever the writer moves above it. -/
theorem soundWhile_iff_of_inStep {rows : List β} (reader : List β) (hr : rows.head? = some r)
    (hcut : ht r = cut) (h : Writer link ht cut r st es) (hin : InStep ht cut r rows st reader) :
    SoundWhile link reader (es.filter (above ht cut)) ↔
      Throughout (fun st e => MovesAbove ht cut e → r ∈ st) apply st es := by
  obtain ⟨rest, rfl⟩ := List.head?_eq_some_iff.1 hr
  induction es generalizing st reader with
  | nil => exact ⟨fun _ => throughout_nil, fun _ => soundWhile_nil⟩
  | cons e es ih =>
    rw [throughout_cons]
    cases habove : above ht cut e with
    | true =>
      obtain ⟨hfits, hstep⟩ := hin.event hcut h habove
      have hne : reader ≠ [] := by
        rw [hin.reader]
        simp
      rw [List.filter_cons_of_pos habove, soundWhile_cons]
      constructor
      · rintro ⟨hfirst, hrest⟩
        have hmem := hfits.1 (hfirst hne)
        exact ⟨hmem, (ih _ h.tail (hstep hmem)).1 hrest⟩
      · rintro ⟨hmem, hrest⟩
        exact ⟨fun _ => hfits.2 hmem, (ih _ h.tail (hstep hmem)).2 hrest⟩
    | false =>
      obtain ⟨hnot, hstep⟩ := hin.skip h habove
      rw [List.filter_cons_of_neg (by simp [habove]), ih _ h.tail hstep]
      exact ⟨fun hrest => ⟨fun hm => absurd hm hnot, hrest⟩, fun hrest => hrest.2⟩

/-- **A reader that joins below the writer's top** fits nothing the writer does above. -/
theorem soundWhile_iff_of_ahead {t : β} (hcut : ht r = cut)
    (h : Writer link ht cut r (t :: st) es) (hahead : cut < ht t) :
    SoundWhile link (r :: rest) (es.filter (above ht cut)) ↔
      Throughout (fun _ e => ¬ MovesAbove ht cut e) apply (t :: st) es := by
  induction es with
  | nil => exact ⟨fun _ => throughout_nil, fun _ => soundWhile_nil⟩
  | cons e es ih =>
    rw [throughout_cons]
    cases e with
    | mark b =>
      have hih := ih h.tail
      by_cases hb : cut < ht b
      · rw [List.filter_cons_of_pos (by simpa [above] using hb), soundWhile_cons]
        exact (and_congr_right fun _ => hih).trans
          ⟨fun hx => ⟨fun hm => hm.elim, hx.2⟩, fun hx => ⟨fun _ => trivial, hx.2⟩⟩
      · rw [List.filter_cons_of_neg (by simpa [above] using hb), hih]
        exact ⟨fun hx => ⟨fun hm => hm.elim, hx⟩, fun hx => hx.2⟩
    | keep =>
      rw [List.filter_cons_of_neg (by simp [above]), ih h.tail]
      exact ⟨fun hx => ⟨fun hm => hm.elim, hx⟩, fun hx => hx.2⟩
    | push b =>
      have hlink := (sound_cons.1 h.sound).1 t rfl
      have hheight := (sound_cons.1 h.height).1 t rfl
      have hb : cut < ht b := by omega
      rw [List.filter_cons_of_pos (by simpa [above] using hb), soundWhile_cons]
      constructor
      · rintro ⟨hfits, -⟩
        have := h.parent b t (Or.inl (List.mem_cons_self ..)) hlink
          (hfits (List.cons_ne_nil _ _) r rfl)
        rw [this] at hahead
        omega
      · rintro ⟨hnot, -⟩
        exact absurd hb hnot
    | pop b =>
      obtain ⟨st', hst⟩ := h.pop_top
      obtain ⟨rfl, rfl⟩ := List.cons.inj hst
      rw [List.filter_cons_of_pos (by simpa [above] using hahead), soundWhile_cons]
      constructor
      · rintro ⟨hfits, -⟩
        obtain rfl : r = t := Option.some.inj (hfits (List.cons_ne_nil _ _))
        omega
      · rintro ⟨hnot, -⟩
        exact absurd hahead hnot

/-- **A reader that joins with rows up to `r`.**  Everything it receives fits its stack
exactly when, whenever the writer moves above `r`, the writer was not above it at the start
and `r` is on its stack. -/
theorem soundWhile_iff_of_join (hcut : ht r = cut) (h : Writer link ht cut r st es) :
    SoundWhile link (r :: rest) (es.filter (above ht cut)) ↔
      Throughout (fun now e => MovesAbove ht cut e →
        (∀ t, st.head? = some t → ht t ≤ cut) ∧ r ∈ now) apply st es := by
  by_cases htop : ∀ t, st.head? = some t → ht t ≤ cut
  · have hhigh := high_eq_nil htop
    rw [soundWhile_iff_of_inStep _ rfl hcut h
      ⟨by rw [hhigh]; rfl, fun hne => absurd hhigh hne⟩]
    refine forall_congr' fun pre => forall_congr' fun e => forall_congr' fun post =>
      imp_congr_right fun _ => imp_congr_right fun _ => ?_
    exact ⟨fun hr => ⟨htop, hr⟩, fun hr => hr.2⟩
  · push Not at htop
    obtain ⟨t, hhead, hlt⟩ := htop
    obtain ⟨st', rfl⟩ := List.head?_eq_some_iff.1 hhead
    rw [soundWhile_iff_of_ahead hcut h hlt]
    refine forall_congr' fun pre => forall_congr' fun e => forall_congr' fun post =>
      imp_congr_right fun _ => ⟨fun hnot hm => absurd hm hnot, fun himp hm => ?_⟩
    have := (himp hm).1 t rfl
    omega

/-! ### A reader that receives everything -/

/-- The two stacks have `shared` on top, and the writer's moves stay above what is under it
on its own side.  A reader that has nothing under it is not bound by this, and neither is a
writer on an empty stack whose event fits what the reader has under it. -/
def Meets (link : β → β → Prop) (reader writer : List β) (es : List (Event β)) : Prop :=
  ∃ shared under below, reader = shared ++ under ∧ writer = shared ++ below ∧
    Throughout (fun now e => ¬ e.Idle →
      under = [] ∨ below.length < now.length ∨ now = [] ∧ Fits link under e) apply writer es

/-- A reader whose stack is the upper part of the writer's. -/
theorem soundWhile_of_prefix {reader writer : List β} (hs : Sound link writer es)
    (h : reader <+: writer) : SoundWhile link reader es := by
  induction es generalizing reader writer with
  | nil => exact soundWhile_nil
  | cons e es ih =>
    obtain ⟨he, hes⟩ := sound_cons.1 hs
    obtain ⟨below, rfl⟩ := h
    rw [soundWhile_cons]
    cases reader with
    | nil =>
      refine ⟨fun hne => absurd rfl hne, ih hes ?_⟩
      cases e with
      | push b => exact (List.prefix_cons_inj b).2 List.nil_prefix
      | pop b => exact List.nil_prefix
      | mark b => exact List.nil_prefix
      | keep => exact List.nil_prefix
    | cons x reader =>
      cases e with
      | push b =>
        exact ⟨fun _ t ht => he t ht, ih hes (List.prefix_append (b :: x :: reader) below)⟩
      | pop b => exact ⟨fun _ => he, ih hes (List.prefix_append reader below)⟩
      | mark b => exact ⟨fun _ => trivial, ih hes (List.prefix_append _ below)⟩
      | keep => exact ⟨fun _ => trivial, ih hes (List.prefix_append _ below)⟩

/-- The writer moves in what is shared, so the reader's top is the writer's. -/
theorem soundWhile_of_shared {shared under below : List β} (hs : Sound link (shared ++ below) es)
    (hne : under ≠ [])
    (h : Throughout (fun now e => ¬ e.Idle → under = [] ∨ below.length < now.length ∨
      now = [] ∧ Fits link under e) apply (shared ++ below) es) :
    SoundWhile link (shared ++ under) es := by
  induction es generalizing shared with
  | nil => exact soundWhile_nil
  | cons e es ih =>
    obtain ⟨he, hes⟩ := sound_cons.1 hs
    obtain ⟨hmove, hrest⟩ := throughout_cons.1 h
    rw [soundWhile_cons]
    cases e with
    | push b =>
      refine ⟨fun _ t ht => ?_, @ih (b :: shared) hes hrest⟩
      cases shared with
      | nil =>
        rcases hmove (fun hidle => hidle) with hnil | hlt | ⟨-, hfits⟩
        · exact absurd hnil hne
        · exact absurd hlt (Nat.lt_irrefl _)
        · exact hfits t ht
      | cons x shared => exact he t ht
    | pop b =>
      cases shared with
      | nil =>
        rcases hmove (fun hidle => hidle) with hnil | hlt | ⟨hempty, -⟩
        · exact absurd hnil hne
        · exact absurd hlt (Nat.lt_irrefl _)
        · have hb : ([] ++ below).head? = some b := he
          rw [hempty] at hb
          cases hb
      | cons x shared => exact ⟨fun _ => he, ih hes hrest⟩
    | mark b => exact ⟨fun _ => trivial, ih hes hrest⟩
    | keep => exact ⟨fun _ => trivial, ih hes hrest⟩

/-- Two lists part somewhere, unless the first is the upper part of the second. -/
theorem prefix_or_parts (reader writer : List β) : reader <+: writer ∨
    ∃ shared s under below, reader = shared ++ s :: under ∧ writer = shared ++ below ∧
      below.head? ≠ some s := by
  induction reader generalizing writer with
  | nil => exact Or.inl List.nil_prefix
  | cons x reader ih =>
    by_cases hx : writer.head? = some x
    · obtain ⟨writer, rfl⟩ := List.head?_eq_some_iff.1 hx
      rcases ih writer with hpre | ⟨shared, s, under, below, rfl, rfl, hs⟩
      · exact Or.inl ((List.prefix_cons_inj x).2 hpre)
      · exact Or.inr ⟨x :: shared, s, under, below, rfl, rfl, hs⟩
    · exact Or.inr ⟨[], x, reader, writer, rfl, rfl, hx⟩

/-- Where the two stacks part, no event of the writer fits both. -/
theorem throughout_of_parted {shared under below : List β} {s : β}
    (hs : Sound link (shared ++ below) es) (hpart : below.head? ≠ some s)
    (huniq : ∀ b t, t ∈ below → link b s → link b t → s = t)
    (h : SoundWhile link (shared ++ s :: under) es) :
    Throughout (fun now e => ¬ e.Idle → s :: under = [] ∨ below.length < now.length ∨
      now = [] ∧ Fits link (s :: under) e) apply (shared ++ below) es := by
  induction es generalizing shared with
  | nil => exact throughout_nil
  | cons e es ih =>
    obtain ⟨he, hes⟩ := sound_cons.1 hs
    obtain ⟨hfits, hrest⟩ := soundWhile_cons.1 h
    rw [throughout_cons]
    cases e with
    | push b =>
      refine ⟨fun _ => Or.inr ?_, @ih (b :: shared) hes hrest⟩
      cases shared with
      | nil =>
        cases below with
        | nil => exact Or.inr ⟨rfl, hfits (List.cons_ne_nil _ _)⟩
        | cons t below =>
          have heq := huniq b t (List.mem_cons_self ..)
            (hfits (List.cons_ne_nil _ _) s rfl) (he t rfl)
          exact absurd (congrArg some heq.symm) hpart
      | cons x shared => exact Or.inl (by simp)
    | pop b =>
      cases shared with
      | nil =>
        have hsb : some s = some b := hfits (List.cons_ne_nil _ _)
        exact absurd (he.trans hsb.symm) hpart
      | cons x shared =>
        exact ⟨fun _ => Or.inr (Or.inl (by simp)), ih hes hrest⟩
    | mark b => exact ⟨fun hidle => absurd trivial hidle, ih hes hrest⟩
    | keep => exact ⟨fun hidle => absurd trivial hidle, ih hes hrest⟩

/-- **A reader that joins with a stack of its own.**  When what a value is linked to is
unique, every event fits the reader's stack exactly when the two stacks meet. -/
theorem soundWhile_iff_meets {reader writer : List β} (hs : Sound link writer es)
    (huniq : ∀ b s t, s ∈ reader → t ∈ writer → link b s → link b t → s = t) :
    SoundWhile link reader es ↔ Meets link reader writer es := by
  constructor
  · intro h
    rcases prefix_or_parts reader writer with ⟨below, rfl⟩ |
      ⟨shared, s, under, below, rfl, rfl, hpart⟩
    · exact ⟨reader, [], below, (List.append_nil _).symm, rfl, fun _ _ _ _ _ => Or.inl rfl⟩
    · refine ⟨shared, s :: under, below, rfl, rfl, throughout_of_parted hs hpart ?_ h⟩
      exact fun b t ht => huniq b s t (by simp) (List.mem_append_right _ ht)
  · rintro ⟨shared, under, below, rfl, rfl, h⟩
    by_cases hne : under = []
    · subst hne
      rw [List.append_nil]
      exact soundWhile_of_prefix hs (List.prefix_append _ _)
    · exact soundWhile_of_shared hs hne h

end Replay
