/-
# Decoders that can fail

A decoder is a function into `Except ε`: it stops at the first error.  A decoder
built by `do` succeeds when its first part does and the rest does on the value
(`bind_eq_ok`), and `List.mapM` of a decoder succeeds when it does on every element,
with the values in order (`mapM_eq_ok`).
-/

import Mathlib

namespace Decode

universe u

variable {ε : Type*} {α β : Type u}

/-- A computation in two parts succeeds when both do. -/
theorem bind_eq_ok {x : Except ε α} {f : α → Except ε β} {b : β} :
    (x >>= f) = .ok b ↔ ∃ a, x = .ok a ∧ f a = .ok b := by
  cases x with
  | error e => exact iff_of_false (fun h => by cases h) fun ⟨_, h, _⟩ => by cases h
  | ok a => exact ⟨fun h => ⟨a, rfl, h⟩, fun ⟨_, ha, h⟩ => Except.ok.inj ha ▸ h⟩

/-- A map succeeds when what is mapped does. -/
theorem map_eq_ok {x : Except ε α} {f : α → β} {b : β} :
    x.map f = .ok b ↔ ∃ a, x = .ok a ∧ f a = b := by
  cases x with
  | error e => exact iff_of_false (fun h => by cases h) fun ⟨_, h, _⟩ => by cases h
  | ok a => exact ⟨fun h => ⟨a, rfl, Except.ok.inj h⟩, fun ⟨_, ha, h⟩ => by
      rw [← h, ← Except.ok.inj ha]; rfl⟩

/-- Another error is no other value. -/
theorem mapError_eq_ok {ε' : Type*} {x : Except ε α} {f : ε → ε'} {a : α} :
    x.mapError f = .ok a ↔ x = .ok a := by
  cases x with
  | error e => exact iff_of_false (fun h => by cases h) fun h => by cases h
  | ok b => exact ⟨fun h => Except.ok.inj h ▸ rfl, fun h => Except.ok.inj h ▸ rfl⟩

/-- A result is there exactly when the computation succeeded with it. -/
theorem toOption_eq_some {x : Except ε α} {a : α} : x.toOption = some a ↔ x = .ok a := by
  cases x with
  | error e => simp [Except.toOption]
  | ok b => simp [Except.toOption]

/-- Errors and no value are one. -/
theorem toOption_join_eq_some {x : Except ε (Option α)} {a : α} :
    x.toOption.join = some a ↔ x = .ok (some a) := by
  cases x with
  | error e => exact iff_of_false (fun h => by cases h) fun h => by cases h
  | ok b => exact ⟨congrArg Except.ok, Except.ok.inj⟩

/-- A list decodes when each element does, in order. -/
theorem mapM_eq_ok {f : α → Except ε β} {l : List α} {bs : List β} :
    l.mapM f = .ok bs ↔ List.Forall₂ (fun a b => f a = .ok b) l bs := by
  induction l generalizing bs with
  | nil =>
    rw [List.mapM_nil, List.forall₂_nil_left_iff]
    exact ⟨fun h => (Except.ok.inj h).symm, fun h => congrArg Except.ok h.symm⟩
  | cons a l ih =>
    rw [List.mapM_cons, List.forall₂_cons_left_iff, bind_eq_ok]
    constructor
    · rintro ⟨b, hb, h⟩
      obtain ⟨bs', hbs', h⟩ := bind_eq_ok.1 h
      exact ⟨b, bs', hb, ih.1 hbs', (Except.ok.inj h).symm⟩
    · rintro ⟨b, bs', hb, hbs', rfl⟩
      exact ⟨b, hb, bind_eq_ok.2 ⟨bs', ih.2 hbs', rfl⟩⟩

/-- A list decodes when each element does. -/
theorem exists_mapM_eq_ok {f : α → Except ε β} {l : List α} :
    (∃ bs, l.mapM f = .ok bs) ↔ ∀ a ∈ l, ∃ b, f a = .ok b := by
  simp only [mapM_eq_ok]
  induction l with
  | nil => simp
  | cons a l ih =>
    simp only [List.forall₂_cons_left_iff, List.forall_mem_cons, ← ih]
    exact ⟨fun ⟨_, b, bs, hb, hbs, _⟩ => ⟨⟨b, hb⟩, bs, hbs⟩,
      fun ⟨⟨b, hb⟩, bs, hbs⟩ => ⟨_, b, bs, hb, hbs, rfl⟩⟩

/-- A decoder built by `do` fails in its first part, or in the rest. -/
theorem bind_eq_error {x : Except ε α} {f : α → Except ε β} {e : ε} :
    (x >>= f) = .error e ↔ x = .error e ∨ ∃ a, x = .ok a ∧ f a = .error e := by
  cases x with
  | error e' =>
    refine ⟨fun h => .inl (congrArg Except.error (Except.error.inj h)), ?_⟩
    rintro (h | ⟨_, h, _⟩)
    · exact congrArg Except.error (Except.error.inj h)
    · cases h
  | ok a =>
    refine ⟨fun h => .inr ⟨a, rfl, h⟩, ?_⟩
    rintro (h | ⟨_, h, hf⟩)
    · cases h
    · rw [Except.ok.inj h]
      exact hf

/-- A list fails at the first element that does. -/
theorem mapM_eq_error {f : α → Except ε β} {l : List α} {e : ε} :
    l.mapM f = .error e ↔
      ∃ pre a post, l = pre ++ a :: post ∧ (∀ x ∈ pre, ∃ b, f x = .ok b) ∧ f a = .error e := by
  induction l with
  | nil =>
    rw [List.mapM_nil]
    refine iff_of_false (fun h => by cases h) ?_
    rintro ⟨pre, a, post, h, -⟩
    exact absurd h (by simp)
  | cons x l ih =>
    rw [List.mapM_cons, bind_eq_error]
    constructor
    · rintro (h | ⟨b, hb, h⟩)
      · exact ⟨[], x, l, rfl, fun _ h => (List.not_mem_nil h).elim, h⟩
      · rcases bind_eq_error.1 h with h | ⟨_, -, h⟩
        · obtain ⟨pre, a, post, rfl, hpre, ha⟩ := ih.1 h
          exact ⟨x :: pre, a, post, rfl, List.forall_mem_cons.2 ⟨⟨b, hb⟩, hpre⟩, ha⟩
        · cases h
    · rintro ⟨pre, a, post, heq, hpre, ha⟩
      cases pre with
      | nil =>
        obtain ⟨rfl, rfl⟩ := List.cons.inj heq
        exact .inl ha
      | cons y pre =>
        obtain ⟨rfl, rfl⟩ := List.cons.inj heq
        obtain ⟨⟨b, hb⟩, hpre⟩ := List.forall_mem_cons.1 hpre
        exact .inr ⟨b, hb, bind_eq_error.2 (.inl (ih.2 ⟨pre, a, post, rfl, hpre, ha⟩))⟩

/-- What was decoded is what the elements decode to. -/
theorem mem_of_mapM_eq_ok {f : α → Except ε β} {l : List α} {bs : List β} (h : l.mapM f = .ok bs)
    {b : β} : b ∈ bs ↔ ∃ a ∈ l, f a = .ok b := by
  have hall := mapM_eq_ok.1 h
  clear h
  induction hall with
  | nil => simp
  | @cons a c l bs hac _ ih =>
    have hc : b = c ↔ f a = .ok b := by rw [hac, Except.ok.injEq, eq_comm]
    simp only [List.mem_cons, ih, hc, exists_eq_or_imp]

/-- Of two related lists, an element of the first is related to one of the second. -/
theorem exists_of_forall₂ {γ δ : Type*} {R : γ → δ → Prop} {l : List γ} {m : List δ}
    (h : List.Forall₂ R l m) {a : γ} (ha : a ∈ l) : ∃ b ∈ m, R a b := by
  induction h with
  | nil => cases ha
  | @cons c d l m hcd _ ih =>
    rcases List.mem_cons.1 ha with rfl | ha
    · exact ⟨d, List.mem_cons_self .., hcd⟩
    · obtain ⟨b, hb, hab⟩ := ih ha
      exact ⟨b, List.mem_cons_of_mem _ hb, hab⟩

/-- Lists related through a third one. -/
theorem forall₂_trans {γ δ ι : Type*} {R : γ → δ → Prop} {S : δ → ι → Prop} {T : γ → ι → Prop}
    (hT : ∀ a b c, R a b → S b c → T a c) {l : List γ} {m : List δ} {k : List ι}
    (hlm : List.Forall₂ R l m) (hmk : List.Forall₂ S m k) : List.Forall₂ T l k := by
  induction hlm generalizing k with
  | nil =>
    cases hmk
    exact .nil
  | cons hab _ ih =>
    cases hmk with
    | cons hbc hmk => exact .cons (hT _ _ _ hab hbc) (ih hmk)

/-- In a list that decodes each element does. -/
theorem exists_of_mapM_eq_ok {f : α → Except ε β} {l : List α} {bs : List β}
    (h : l.mapM f = .ok bs) {a : α} (ha : a ∈ l) : ∃ b ∈ bs, f a = .ok b :=
  exists_of_forall₂ (mapM_eq_ok.1 h) ha

end Decode
