/-
# Replaying pushes and pops on a stack

A stream of events drives a stack (`List β`, top first): `push b` puts `b` on top,
`pop b` removes the top and claims it was `b`, `mark b` flags every entry equal to
`b`, `keep` does nothing.  `Sound link` says that every event fits the stack left
by the events before it: a pop names the top, and a push on a non-empty stack is
linked to the top.  `SoundWhile link` asks the same only of the events that meet a
non-empty stack, which is what a reader who joined in the middle can check.
`Rooted` says that no pop empties the stack, so that its bottom never changes.

`markReplay` replays on a stack of flagged entries, and `MarkSound` says that a
mark names an entry that is there and not flagged yet, and that a pop never
removes a flagged entry.
-/

import Mathlib

namespace Replay

section Throughout

variable {S E : Type*} {fits : S → E → Prop} {app : S → E → S} {s : S} {es fs : List E}

/-- Folding `app` over the stream, every event meets `fits` in the state it is
folded into. -/
def Throughout (fits : S → E → Prop) (app : S → E → S) (s : S) (es : List E) : Prop :=
  ∀ pre e post, es = pre ++ e :: post → fits (pre.foldl app s) e

/-- Nothing is asked of no events. -/
theorem throughout_nil : Throughout fits app s [] := by
  intro pre e post h
  simp at h

/-- The first event fits the state, and the others fit from the state it leaves. -/
theorem throughout_cons {e : E} :
    Throughout fits app s (e :: es) ↔ fits s e ∧ Throughout fits app (app s e) es := by
  constructor
  · intro h
    refine ⟨h [] e es rfl, fun pre f post he => ?_⟩
    exact h (e :: pre) f post (by rw [he, List.cons_append])
  · rintro ⟨he, hes⟩ pre f post h
    cases pre with
    | nil =>
      obtain ⟨rfl, rfl⟩ := List.cons.inj h
      exact he
    | cons g pre =>
      obtain ⟨rfl, rfl⟩ := List.cons.inj h
      exact hes pre f post rfl

/-- The first events fit, and the others from the state that these leave. -/
theorem throughout_append :
    Throughout fits app s (es ++ fs) ↔
      Throughout fits app s es ∧ Throughout fits app (es.foldl app s) fs := by
  induction es generalizing s with
  | nil => simp [throughout_nil]
  | cons e es ih =>
    rw [List.cons_append, throughout_cons, throughout_cons, ih, List.foldl_cons, and_assoc]

instance decidableThroughout [∀ s e, Decidable (fits s e)] :
    (s : S) → (es : List E) → Decidable (Throughout fits app s es)
  | _, [] => isTrue throughout_nil
  | s, e :: es =>
    have := decidableThroughout (app s e) es
    decidable_of_iff _ throughout_cons.symm

end Throughout

variable {β : Type*}

/-- What one message does to the reader's stack. -/
inductive Event (β : Type*) where
  | push (b : β)
  | pop (b : β)
  | mark (b : β)
  | keep
deriving DecidableEq

/-- The stack after one event, whatever it claims. -/
def apply : List β → Event β → List β
  | st, .push b => b :: st
  | st, .pop _ => st.tail
  | st, .mark _ => st
  | st, .keep => st

/-- The stack after a stream of events. -/
def replay (st : List β) (es : List (Event β)) : List β := es.foldl apply st

/-- The event says the truth about the stack it meets. -/
def Fits (link : β → β → Prop) (st : List β) : Event β → Prop
  | .push b => ∀ t, st.head? = some t → link b t
  | .pop b => st.head? = some b
  | .mark _ => True
  | .keep => True

/-- Every event fits the stack left by the events before it. -/
def Sound (link : β → β → Prop) (st : List β) (es : List (Event β)) : Prop :=
  Throughout (Fits link) apply st es

/-- No events leave the stack alone. -/
@[simp] theorem replay_nil (st : List β) : replay st [] = st := rfl

/-- Events are replayed one by one. -/
@[simp] theorem replay_cons (st : List β) (e : Event β) (es : List (Event β)) :
    replay st (e :: es) = replay (apply st e) es := rfl

/-- Events are replayed in two parts, the second on the stack of the first. -/
theorem replay_append (st : List β) (es fs : List (Event β)) :
    replay st (es ++ fs) = replay (replay st es) fs := List.foldl_append

variable {link : β → β → Prop} {st : List β} {es fs : List (Event β)}

/-- No events are sound. -/
theorem sound_nil : Sound link st [] := throughout_nil

/-- Soundness event by event. -/
theorem sound_cons {e : Event β} :
    Sound link st (e :: es) ↔ Fits link st e ∧ Sound link (apply st e) es := throughout_cons

/-- Soundness in two parts, the second on the stack of the first. -/
theorem sound_append :
    Sound link st (es ++ fs) ↔ Sound link st es ∧ Sound link (replay st es) fs :=
  throughout_append

instance decidableFits [DecidableEq β] [DecidableRel link] (st : List β) :
    (e : Event β) → Decidable (Fits link st e)
  | .push b => inferInstanceAs (Decidable (∀ t, st.head? = some t → link b t))
  | .pop b => inferInstanceAs (Decidable (st.head? = some b))
  | .mark _ => inferInstanceAs (Decidable True)
  | .keep => inferInstanceAs (Decidable True)

instance decidableSound [DecidableEq β] [DecidableRel link] (st : List β) (es : List (Event β)) :
    Decidable (Sound link st es) := decidableThroughout st es

/-- Popping the top entries in order, top first, leaves what is below them. -/
theorem replay_map_pop (l : List β) (st : List β) : replay (l ++ st) (l.map .pop) = st := by
  induction l with
  | nil => rfl
  | cons b l ih => exact ih

/-- The top of a stack is popped down element by element. -/
theorem sound_map_pop (l : List β) (st : List β) : Sound link (l ++ st) (l.map .pop) := by
  induction l with
  | nil => exact sound_nil
  | cons b l ih => exact sound_cons.2 ⟨rfl, ih⟩

/-- Neither a push nor a pop. -/
def Event.Idle : Event β → Prop
  | .push _ => False
  | .pop _ => False
  | .mark _ => True
  | .keep => True

/-- Idle events leave the stack alone. -/
theorem replay_of_idle (h : ∀ e ∈ es, e.Idle) : replay st es = st := by
  induction es with
  | nil => rfl
  | cons e es ih =>
    obtain ⟨he, hes⟩ := List.forall_mem_cons.1 h
    cases e with
    | push b => exact he.elim
    | pop b => exact he.elim
    | mark b => exact ih hes
    | keep => exact ih hes

/-- They are sound on every stack. -/
theorem sound_of_idle (h : ∀ e ∈ es, e.Idle) : Sound link st es := by
  intro pre e post he
  have : e.Idle := h e (by rw [he]; simp)
  cases e with
  | push b => exact this.elim
  | pop b => exact this.elim
  | mark b => trivial
  | keep => trivial

/-- A sound stream keeps a linked stack linked. -/
theorem Sound.isChain (h : Sound link st es) (hst : st.IsChain link) :
    (replay st es).IsChain link := by
  induction es generalizing st with
  | nil => exact hst
  | cons e es ih =>
    obtain ⟨he, hes⟩ := sound_cons.1 h
    refine ih hes ?_
    cases e with
    | push b => exact List.isChain_cons.2 ⟨he, hst⟩
    | pop b => exact hst.tail
    | mark b => exact hst
    | keep => exact hst

/-- Whatever is on the stack afterwards was there before or was pushed. -/
theorem mem_replay {b : β} (h : b ∈ replay st es) : b ∈ st ∨ .push b ∈ es := by
  induction es generalizing st with
  | nil => exact Or.inl h
  | cons e es ih =>
    rcases ih h with hb | hb
    · cases e with
      | push c =>
        rcases List.mem_cons.1 hb with rfl | hb
        · exact Or.inr (List.mem_cons_self ..)
        · exact Or.inl hb
      | pop c => exact Or.inl (List.mem_of_mem_tail hb)
      | mark c => exact Or.inl hb
      | keep => exact Or.inl hb
    · exact Or.inr (List.mem_cons_of_mem _ hb)

/-- A stream from the empty stack that is sound for one link is sound for any link that the
pushed values it relates meet. -/
theorem Sound.imp {link' : β → β → Prop} (h : Sound link [] es)
    (hl : ∀ b t, .push b ∈ es → .push t ∈ es → link b t → link' b t) : Sound link' [] es := by
  intro pre e post he
  have hfits := h pre e post he
  cases e with
  | push b =>
    intro t ht
    have hmem : t ∈ pre.foldl apply [] := List.mem_of_head? ht
    rcases mem_replay hmem with hnil | hpush
    · cases hnil
    · exact hl b t (by rw [he]; simp) (by rw [he]; simp [hpush]) (hfits t ht)
  | pop b => exact hfits
  | mark b => trivial
  | keep => trivial

/-! ### The bottom of the stack -/

/-- A pop leaves something on the stack. -/
def KeepsBottom : List β → Event β → Prop
  | st, .pop _ => st.tail ≠ []
  | _, .push _ => True
  | _, .mark _ => True
  | _, .keep => True

/-- No event of the stream empties the stack. -/
def Rooted (st : List β) (es : List (Event β)) : Prop := Throughout KeepsBottom apply st es

/-- No events leave the bottom. -/
theorem rooted_nil : Rooted st [] := throughout_nil

/-- The bottom is kept event by event. -/
theorem rooted_cons {e : Event β} :
    Rooted st (e :: es) ↔ KeepsBottom st e ∧ Rooted (apply st e) es := throughout_cons

/-- The bottom is kept in two parts. -/
theorem rooted_append :
    Rooted st (es ++ fs) ↔ Rooted st es ∧ Rooted (replay st es) fs := throughout_append

/-- Pops that leave something on the stack keep its bottom. -/
theorem rooted_map_pop (l : List β) {st : List β} (h : st ≠ []) :
    Rooted (l ++ st) (l.map .pop) := by
  induction l with
  | nil => exact rooted_nil
  | cons b l ih => exact rooted_cons.2 ⟨List.append_ne_nil_of_right_ne_nil l h, ih⟩

/-- Idle events keep the bottom. -/
theorem rooted_of_idle (h : ∀ e ∈ es, e.Idle) : Rooted st es := by
  intro pre e post he
  have : e.Idle := h e (by rw [he]; simp)
  cases e with
  | push b => exact this.elim
  | pop b => exact this.elim
  | mark b => trivial
  | keep => trivial

/-- **The bottom of a non-empty stack stays** under events that never empty it, whatever
they push and pop above it. -/
theorem Rooted.getLast? (h : Rooted st es) (hne : st ≠ []) :
    (replay st es).getLast? = st.getLast? ∧ replay st es ≠ [] := by
  induction es generalizing st with
  | nil => exact ⟨rfl, hne⟩
  | cons e es ih =>
    obtain ⟨he, hes⟩ := rooted_cons.1 h
    have hstep : (apply st e).getLast? = st.getLast? ∧ apply st e ≠ [] := by
      cases e with
      | push b =>
        refine ⟨?_, List.cons_ne_nil b st⟩
        obtain ⟨t, rest, rfl⟩ := List.exists_cons_of_ne_nil hne
        rfl
      | pop b =>
        obtain ⟨t, rest, rfl⟩ := List.exists_cons_of_ne_nil hne
        obtain ⟨u, rest, rfl⟩ := List.exists_cons_of_ne_nil (show rest ≠ [] from he)
        exact ⟨rfl, List.cons_ne_nil u rest⟩
      | mark b => exact ⟨rfl, hne⟩
      | keep => exact ⟨rfl, hne⟩
    obtain ⟨hlast, hne'⟩ := ih hes hstep.2
    exact ⟨hlast.trans hstep.1, hne'⟩

/-! ### As long as the stack is not empty -/

/-- Every event that meets a non-empty stack fits it. -/
def SoundWhile (link : β → β → Prop) (st : List β) (es : List (Event β)) : Prop :=
  Throughout (fun st e => st ≠ [] → Fits link st e) apply st es

/-- No events are sound on whatever is there. -/
theorem soundWhile_nil : SoundWhile link st [] := throughout_nil

/-- Soundness event by event, where an empty stack takes anything. -/
theorem soundWhile_cons {e : Event β} :
    SoundWhile link st (e :: es) ↔
      (st ≠ [] → Fits link st e) ∧ SoundWhile link (apply st e) es := throughout_cons

/-- The same in two parts. -/
theorem soundWhile_append :
    SoundWhile link st (es ++ fs) ↔ SoundWhile link st es ∧ SoundWhile link (replay st es) fs :=
  throughout_append

instance decidableSoundWhile [DecidableEq β] [DecidableRel link] (st : List β)
    (es : List (Event β)) : Decidable (SoundWhile link st es) := decidableThroughout st es

/-! ### Marked entries -/

variable [DecidableEq β]

/-- The flagged stack after one event: a mark flags the entries it names. -/
def markApply : List (β × Bool) → Event β → List (β × Bool)
  | st, .push b => (b, false) :: st
  | st, .pop _ => st.tail
  | st, .mark b => st.map fun x => if x.1 = b then (x.1, true) else x
  | st, .keep => st

/-- The flagged stack after a stream of events. -/
def markReplay (st : List (β × Bool)) (es : List (Event β)) : List (β × Bool) :=
  es.foldl markApply st

/-- A mark names an entry that is there and not flagged; a pop removes no flagged
entry. -/
def MarkFits (st : List (β × Bool)) : Event β → Prop
  | .push _ => True
  | .pop _ => ∀ x, st.head? = some x → x.2 = false
  | .mark b => (∃ x ∈ st, x.1 = b) ∧ ∀ x ∈ st, x.1 = b → x.2 = false
  | .keep => True

/-- Every event of the stream meets `MarkFits` on the flagged stack before it. -/
def MarkSound (st : List (β × Bool)) (es : List (Event β)) : Prop :=
  Throughout MarkFits markApply st es

/-- Marked stacks are replayed in two parts. -/
theorem markReplay_append (st : List (β × Bool)) (es fs : List (Event β)) :
    markReplay st (es ++ fs) = markReplay (markReplay st es) fs := List.foldl_append

/-- No events are sound for the marks. -/
theorem markSound_nil {st : List (β × Bool)} : MarkSound st [] := throughout_nil

/-- Soundness for the marks event by event. -/
theorem markSound_cons {st : List (β × Bool)} {e : Event β} {es : List (Event β)} :
    MarkSound st (e :: es) ↔ MarkFits st e ∧ MarkSound (markApply st e) es := throughout_cons

/-- The same in two parts, the second on the marks of the first. -/
theorem markSound_append {st : List (β × Bool)} {es fs : List (Event β)} :
    MarkSound st (es ++ fs) ↔ MarkSound st es ∧ MarkSound (markReplay st es) fs :=
  throughout_append

/-- Forgetting the flags, the flagged replay is the plain one. -/
theorem markReplay_map_fst (st : List (β × Bool)) (es : List (Event β)) :
    (markReplay st es).map Prod.fst = replay (st.map Prod.fst) es := by
  induction es generalizing st with
  | nil => rfl
  | cons e es ih =>
    have he : (markApply st e).map Prod.fst = apply (st.map Prod.fst) e := by
      cases e with
      | push b => rfl
      | pop b => exact List.map_tail
      | mark b =>
        simp only [markApply, apply, List.map_map]
        refine List.map_congr_left fun x _ => ?_
        simp only [Function.comp_apply]
        split_ifs <;> rfl
      | keep => rfl
    have h := ih (markApply st e)
    rw [he] at h
    exact h

/-- From the empty stack only what was pushed is marked. -/
theorem MarkSound.push_of_mark {es : List (Event β)} {b : β} (h : MarkSound [] es)
    (hb : .mark b ∈ es) : .push b ∈ es := by
  obtain ⟨pre, post, rfl⟩ := List.mem_iff_append.1 hb
  obtain ⟨⟨x, hx, rfl⟩, -⟩ := (markSound_cons.1 (markSound_append.1 h).2).1
  have hmem : x.1 ∈ replay [] pre := by
    rw [← List.map_nil, ← markReplay_map_fst]
    exact List.mem_map_of_mem hx
  rcases mem_replay hmem with hnil | hpush
  · cases hnil
  · exact List.mem_append_left _ hpush

variable {st : List (β × Bool)} {l : List β}

/-- Events that only keep leave the marks alone. -/
theorem markReplay_of_keep (h : ∀ e ∈ es, e = .keep) : markReplay st es = st := by
  induction es with
  | nil => rfl
  | cons e es ih =>
    obtain ⟨rfl, hes⟩ := List.forall_mem_cons.1 h
    exact ih hes

/-- They are sound for any marks. -/
theorem markSound_of_keep (h : ∀ e ∈ es, e = .keep) : MarkSound st es := by
  intro pre e post he
  obtain rfl := h e (by rw [he]; simp)
  trivial

/-- Popping entries that are not flagged. -/
theorem markReplay_map_pop (l : List β) (st : List (β × Bool)) :
    markReplay (l.map (·, false) ++ st) (l.map .pop) = st := by
  induction l with
  | nil => rfl
  | cons b l ih => exact ih

/-- What is not marked may be popped. -/
theorem markSound_map_pop (l : List β) (st : List (β × Bool)) :
    MarkSound (l.map (·, false) ++ st) (l.map .pop) := by
  induction l with
  | nil => exact markSound_nil
  | cons b l ih =>
    refine markSound_cons.2 ⟨fun x hx => ?_, ih⟩
    obtain rfl := Option.some.inj hx
    rfl

/-- Marking the blocks of `l` flags the entries that are in `l`. -/
theorem markReplay_map_mark (l : List β) (st : List (β × Bool)) :
    markReplay st (l.map .mark) = st.map fun x => if x.1 ∈ l then (x.1, true) else x := by
  induction l generalizing st with
  | nil => simp [markReplay]
  | cons b l ih =>
    have h := ih (markApply st (.mark b))
    rw [List.map_cons, markReplay, List.foldl_cons, ← markReplay, h, markApply, List.map_map]
    refine List.map_congr_left fun x _ => ?_
    by_cases hb : x.1 = b
    · simp [hb]
    · simp [hb]

/-- Distinct blocks that are on the stack and not flagged can be marked in turn. -/
theorem markSound_map_mark (hnd : l.Nodup) (hmem : ∀ b ∈ l, ∃ x ∈ st, x.1 = b)
    (hnew : ∀ b ∈ l, ∀ x ∈ st, x.1 = b → x.2 = false) : MarkSound st (l.map .mark) := by
  induction l generalizing st with
  | nil => exact markSound_nil
  | cons b l ih =>
    obtain ⟨hb, hl⟩ := List.nodup_cons.1 hnd
    obtain ⟨hmb, hml⟩ := List.forall_mem_cons.1 hmem
    obtain ⟨hnb, hnl⟩ := List.forall_mem_cons.1 hnew
    refine markSound_cons.2 ⟨⟨hmb, hnb⟩, ih hl ?_ ?_⟩
    · intro c hc
      obtain ⟨x, hx, rfl⟩ := hml c hc
      refine ⟨_, List.mem_map_of_mem hx, ?_⟩
      split_ifs <;> rfl
    · intro c hc x hx hxc
      obtain ⟨y, hy, rfl⟩ := List.mem_map.1 hx
      have hyb : y.1 ≠ b := by
        rintro rfl
        simp only [if_true] at hxc
        exact hb (hxc ▸ hc)
      rw [if_neg hyb] at hxc ⊢
      exact hnl c hc y hy hxc

end Replay
