/-
# Words, blanks and numerals

A text over any alphabet, some of whose letters are blanks (`p`).  `trim` drops the
blanks at both ends, `words` are the maximal blank-free pieces.  Both are described
from the other side, by the texts they come from: `trim l = t` when `l` is the
trimmed text `t` between blanks (`trim_eq_iff`), and `words l = ws` when `l` is
spelled by the words `ws` with blanks around them and at least one between two
(`words_eq_iff`).  The second form is the one a grammar is stated in.  `fields` cuts a
text at a separator and takes the words of each piece.

`Decimal` has the decimal numerals: texts of digits, with `Nat.ofDigitChars` for the
value.  A numeral of a positive number is the one `Nat.toDigits` prints exactly when
it has no leading zero (`toDigits_of_head_ne_zero`).
-/

import Mathlib

namespace Words

variable {α : Type*} {p : α → Bool}

/-- A text of blanks. -/
def Blank (p : α → Bool) (l : List α) : Prop := ∀ c ∈ l, p c = true

/-- A text that neither begins nor ends with a blank. -/
def Trimmed (p : α → Bool) (l : List α) : Prop :=
  (∀ c ∈ l.head?, p c = false) ∧ ∀ c ∈ l.getLast?, p c = false

/-- A nonempty text without blanks. -/
def Word (p : α → Bool) (w : List α) : Prop := w ≠ [] ∧ ∀ c ∈ w, p c = false

/-- Nothing is blank. -/
theorem Blank.nil : Blank p [] := fun _ h => absurd h List.not_mem_nil

/-- Two blanks are one. -/
theorem Blank.append {l m : List α} (hl : Blank p l) (hm : Blank p m) : Blank p (l ++ m) :=
  fun c hc => (List.mem_append.1 hc).elim (hl c) (hm c)

/-- A blank has only blank characters. -/
theorem Blank.notMem {g : List α} (hg : Blank p g) {c : α} (hc : p c = false) : c ∉ g :=
  fun h => Bool.false_ne_true (hc.symm.trans (hg c h))

/-- A word has no blanks, so none at its ends. -/
theorem Word.trimmed {w : List α} (h : Word p w) : Trimmed p w :=
  ⟨fun c hc => h.2 c (List.mem_of_mem_head? hc), fun c hc => h.2 c (List.mem_of_mem_getLast? hc)⟩

/-- Nothing has no ends. -/
theorem Trimmed.nil : Trimmed p [] := ⟨by simp, by simp⟩

/-- A text that begins like one trimmed text and ends like another is trimmed. -/
theorem Trimmed.append {l m : List α} (hl : Trimmed p l) (hm : Trimmed p m) (hl0 : l ≠ [])
    (hm0 : m ≠ []) (r : List α) : Trimmed p (l ++ r ++ m) := by
  constructor
  · intro c hc
    rw [List.append_assoc, List.head?_append_of_ne_nil l hl0] at hc
    exact hl.1 c hc
  · intro c hc
    rw [List.getLast?_append_of_ne_nil _ hm0] at hc
    exact hm.2 c hc

/-! ### Trimming -/

/-- The text without the blanks at its two ends. -/
def trim (p : α → Bool) (l : List α) : List α := (l.dropWhile p).rdropWhile p

/-- Nothing is dropped in front of a character that stays. -/
theorem dropWhile_eq_self {l : List α} (h : ∀ c ∈ l.head?, p c = false) : l.dropWhile p = l := by
  cases l with
  | nil => rfl
  | cons c l =>
    have hc : p c = false := h c rfl
    rw [List.dropWhile_cons, hc, if_neg Bool.false_ne_true]

/-- A blank at the end is dropped. -/
theorem rdropWhile_append_blank (l : List α) {b : List α} (hb : Blank p b) :
    (l ++ b).rdropWhile p = l.rdropWhile p := by
  unfold List.rdropWhile
  rw [List.reverse_append, List.dropWhile_append_of_pos fun c hc => hb c (List.mem_reverse.1 hc)]

/-- Nothing is dropped behind a character that stays. -/
theorem rdropWhile_eq_self {l : List α} (h : ∀ c ∈ l.getLast?, p c = false) :
    l.rdropWhile p = l := by
  unfold List.rdropWhile
  rw [dropWhile_eq_self (by rwa [List.head?_reverse]), List.reverse_reverse]

/-- **Trimming finds the trimmed text between two runs of blanks.** -/
theorem trim_append {a t b : List α} (ha : Blank p a) (ht : Trimmed p t) (hb : Blank p b) :
    trim p (a ++ t ++ b) = t := by
  unfold trim
  rw [List.append_assoc, List.dropWhile_append_of_pos ha]
  cases t with
  | nil =>
    rw [List.nil_append, List.dropWhile_eq_nil_iff.2 hb, List.rdropWhile_nil]
  | cons c t =>
    rw [dropWhile_eq_self (l := c :: t ++ b) fun x hx => ht.1 x hx, rdropWhile_append_blank _ hb,
      rdropWhile_eq_self ht.2]

/-- A trimmed text has no blanks at its ends. -/
theorem trimmed_trim (l : List α) : Trimmed p (trim p l) := by
  constructor
  · intro c hc
    obtain ⟨s, hs⟩ : trim p l <+: l.dropWhile p := List.rdropWhile_prefix ..
    have hne : trim p l ≠ [] := by
      rintro h
      rw [h] at hc
      cases hc
    have hhead : (l.dropWhile p).head? = some c := by
      rw [← hs, List.head?_append_of_ne_nil _ hne]
      exact hc
    have hnot := List.head?_dropWhile_not p l
    rw [hhead] at hnot
    exact hnot
  · intro c hc
    obtain ⟨h, rfl⟩ := List.mem_getLast?_eq_getLast hc
    exact Bool.not_eq_true _ ▸ List.rdropWhile_last_not p (l.dropWhile p) h

/-- A text is its trimmed self between two runs of blanks. -/
theorem exists_trim (l : List α) : ∃ a b, Blank p a ∧ Blank p b ∧ l = a ++ trim p l ++ b := by
  refine ⟨l.takeWhile p, (l.dropWhile p).rtakeWhile p, fun c hc => List.mem_takeWhile_imp hc,
    fun c hc => List.mem_rtakeWhile_imp hc, ?_⟩
  unfold trim
  rw [List.append_assoc, List.rdropWhile_append_rtakeWhile, List.takeWhile_append_dropWhile]

/-- **Trimming** takes the blanks off both ends, and nothing else does. -/
theorem trim_eq_iff {l t : List α} :
    trim p l = t ↔ Trimmed p t ∧ ∃ a b, Blank p a ∧ Blank p b ∧ l = a ++ t ++ b := by
  constructor
  · rintro rfl
    exact ⟨trimmed_trim l, exists_trim l⟩
  · rintro ⟨ht, a, b, ha, hb, rfl⟩
    exact trim_append ha ht hb

/-- Only blanks are trimmed to nothing. -/
theorem trim_eq_nil_iff {l : List α} : trim p l = [] ↔ Blank p l := by
  constructor
  · intro h
    obtain ⟨a, b, ha, hb, hl⟩ := exists_trim (p := p) l
    rw [hl, h, List.append_nil]
    exact ha.append hb
  · intro h
    simpa using trim_append h Trimmed.nil (Blank.nil (p := p))

/-! ### Words -/

/-- The maximal blank-free pieces. -/
def words (p : α → Bool) (l : List α) : List (List α) :=
  (l.splitOnP p).filter fun w => !w.isEmpty

/-- No text has no words. -/
@[simp] theorem words_nil : words p [] = [] := rfl

/-- A blank separates the words before it from those after it. -/
theorem words_append_cons (l m : List α) {c : α} (hc : p c = true) :
    words p (l ++ c :: m) = words p l ++ words p m := by
  unfold words
  rw [List.splitOnP_append_cons l m hc, List.filter_append]

/-- A blank in front adds no word. -/
theorem words_cons {c : α} (hc : p c = true) (l : List α) : words p (c :: l) = words p l :=
  words_append_cons [] l hc

/-- A word is the one word of its text. -/
theorem words_word {w : List α} (hw : Word p w) : words p w = [w] := by
  unfold words
  rw [List.splitOnP_eq_singleton hw.2, List.filter_cons_of_pos, List.filter_nil]
  cases w with
  | nil => exact absurd rfl hw.1
  | cons c w => rfl

/-- A blank has no words. -/
theorem words_blank {g : List α} (hg : Blank p g) : words p g = [] := by
  induction g with
  | nil => rfl
  | cons c g ih =>
    rw [words_cons (hg c List.mem_cons_self), ih fun x hx => hg x (List.mem_cons_of_mem _ hx)]

/-- A blank in front adds no words. -/
theorem words_blank_append {g : List α} (hg : Blank p g) (l : List α) :
    words p (g ++ l) = words p l := by
  induction g with
  | nil => rfl
  | cons c g ih =>
    rw [List.cons_append, words_cons (hg c List.mem_cons_self),
      ih fun x hx => hg x (List.mem_cons_of_mem _ hx)]

/-- Nor does one behind. -/
theorem words_append_blank (l : List α) {g : List α} (hg : Blank p g) :
    words p (l ++ g) = words p l := by
  cases g with
  | nil => rw [List.append_nil]
  | cons c g =>
    rw [words_append_cons l g (hg c List.mem_cons_self),
      words_blank fun x hx => hg x (List.mem_cons_of_mem _ hx), List.append_nil]

/-- Trimming first does not change the words. -/
theorem words_trim (l : List α) : words p (trim p l) = words p l := by
  obtain ⟨a, b, ha, hb, hl⟩ := exists_trim (p := p) l
  conv_rhs => rw [hl, words_append_blank _ hb, words_blank_append ha]

/-- The texts that spell a list of words: blanks anywhere around the words, and at
least one after a word that is not the last thing in the text. -/
inductive Spells (p : α → Bool) : List (List α) → List α → Prop where
  | nil : Spells p [] []
  | blank {ws l c} : p c = true → Spells p ws l → Spells p ws (c :: l)
  | word {w ws l} : Word p w → (∀ c ∈ l.head?, p c = true) → Spells p ws l →
      Spells p (w :: ws) (w ++ l)

/-- The words of a text are the ones it spells. -/
theorem words_of_spells {ws : List (List α)} {l : List α} (h : Spells p ws l) :
    words p l = ws := by
  induction h with
  | nil => rfl
  | blank hc _ ih => rw [words_cons hc, ih]
  | @word w ws l hw hl _ ih =>
    cases l with
    | nil => rw [List.append_nil, words_word hw, ← ih, words_nil]
    | cons c l =>
      have hc : p c = true := hl c rfl
      rw [words_append_cons w l hc, words_word hw, ← ih, words_cons hc, List.singleton_append]

/-- Every text spells its words.  A text that begins with a letter begins with its
longest blank-free piece. -/
theorem spells_words (l : List α) : Spells p (words p l) l := by
  induction hn : l.length using Nat.strong_induction_on generalizing l with
  | _ n ih =>
    subst hn
    cases l with
    | nil => exact .nil
    | cons c l =>
      cases hc : p c with
      | true =>
        rw [words_cons hc]
        exact .blank hc (ih l.length (Nat.lt_succ_self _) l rfl)
      | false =>
        set q : α → Bool := fun x => !p x with hq
        have hqc : q c = true := by simp [hq, hc]
        have hlt : ((c :: l).dropWhile q).length < (c :: l).length := by
          rw [List.dropWhile_cons, if_pos hqc]
          exact Nat.lt_succ_of_le (List.length_dropWhile_le q l)
        have hw : Word p ((c :: l).takeWhile q) := by
          refine ⟨?_, fun x hx => ?_⟩
          · rw [List.takeWhile_cons, if_pos hqc]
            exact List.cons_ne_nil _ _
          · simpa [hq] using List.mem_takeWhile_imp hx
        have hrest : ∀ x ∈ ((c :: l).dropWhile q).head?, p x = true := by
          intro x hx
          have hnot := List.head?_dropWhile_not q (c :: l)
          rw [hx] at hnot
          simpa [hq] using hnot
        have hspell := Spells.word hw hrest (ih _ hlt _ rfl)
        rw [List.takeWhile_append_dropWhile] at hspell
        have hwords := words_of_spells hspell
        rwa [← hwords] at hspell

/-- **The words of a text are the list it spells**: runs without blanks, with blanks between
them. -/
theorem words_eq_iff {ws : List (List α)} {l : List α} : words p l = ws ↔ Spells p ws l :=
  ⟨fun h => h ▸ spells_words l, words_of_spells⟩

/-- What is spelled are words. -/
theorem Spells.word_of_mem {ws : List (List α)} {l : List α} (h : Spells p ws l) {w : List α}
    (hw : w ∈ ws) : Word p w := by
  induction h with
  | nil => cases hw
  | blank _ _ ih => exact ih hw
  | word hv _ _ ih =>
    rcases List.mem_cons.1 hw with rfl | hw
    · exact hv
    · exact ih hw

/-- A letter of a spelled text is a blank or a letter of one of the words. -/
theorem Spells.mem {ws : List (List α)} {l : List α} (h : Spells p ws l) {c : α} (hc : c ∈ l) :
    p c = true ∨ ∃ w ∈ ws, c ∈ w := by
  induction h with
  | nil => cases hc
  | blank hb _ ih =>
    rcases List.mem_cons.1 hc with rfl | hc
    · exact .inl hb
    · exact ih hc
  | word _ _ _ ih =>
    rcases List.mem_append.1 hc with hc | hc
    · exact .inr ⟨_, List.mem_cons_self, hc⟩
    · rcases ih hc with hb | ⟨w, hw, hc⟩
      · exact .inl hb
      · exact .inr ⟨w, List.mem_cons_of_mem _ hw, hc⟩

/-- A blank in front changes nothing of what is spelled. -/
theorem Spells.blank_append {ws : List (List α)} {l a : List α} (h : Spells p ws l)
    (ha : Blank p a) : Spells p ws (a ++ l) :=
  words_eq_iff.1 (by rw [words_blank_append ha, words_of_spells h])

/-- Nor does one behind. -/
theorem Spells.append_blank {ws : List (List α)} {l b : List α} (h : Spells p ws l)
    (hb : Blank p b) : Spells p ws (l ++ b) :=
  words_eq_iff.1 (by rw [words_append_blank _ hb, words_of_spells h])

/-- What may follow a word: a text that is empty or begins with a blank. -/
def Follows (p : α → Bool) (ws : List (List α)) (l : List α) : Prop :=
  Spells p ws l ∧ ∀ c ∈ l.head?, p c = true

/-- Only a blank follows when there are no words left. -/
theorem follows_blank {b : List α} (hb : Blank p b) : Follows p [] b :=
  ⟨words_eq_iff.1 (words_blank hb), fun c hc => hb c (List.mem_of_mem_head? hc)⟩

/-- Behind a blank that is there another word may follow. -/
theorem Follows.cons {ws : List (List α)} {l b w : List α} (h : Follows p ws l) (hb : Blank p b)
    (hb0 : b ≠ []) (hw : Word p w) : Follows p (w :: ws) (b ++ w ++ l) := by
  refine ⟨?_, fun c hc => ?_⟩
  · rw [List.append_assoc]
    exact (Spells.word hw h.2 h.1).blank_append hb
  · rw [List.append_assoc, List.head?_append_of_ne_nil _ hb0] at hc
    exact hb c (List.mem_of_mem_head? hc)

/-! ### Separated fields -/

variable {sep : α}

/-- The texts that spell a list of fields. -/
inductive Lists (p : α → Bool) (sep : α) : List (List (List α)) → List α → Prop where
  | one {ws l} : Spells p ws l → sep ∉ l → Lists p sep [ws] l
  | cons {ws l wss m} : Spells p ws l → sep ∉ l → Lists p sep wss m →
      Lists p sep (ws :: wss) (l ++ sep :: m)

/-- A blank in front changes nothing of what is listed. -/
theorem Lists.blank_append {wss : List (List (List α))} {l a : List α} (h : Lists p sep wss l)
    (ha : Blank p a) (hsep : p sep = false) : Lists p sep wss (a ++ l) := by
  have hmem : ∀ {m}, sep ∉ m → sep ∉ a ++ m := fun hm =>
    List.not_mem_append (ha.notMem hsep) hm
  cases h with
  | one hw hl => exact .one (hw.blank_append ha) (hmem hl)
  | cons hw hl hm =>
    rw [← List.append_assoc]
    exact .cons (hw.blank_append ha) (hmem hl) hm

/-- Nor does one behind. -/
theorem Lists.append_blank {wss : List (List (List α))} {l b : List α} (h : Lists p sep wss l)
    (hb : Blank p b) (hsep : p sep = false) : Lists p sep wss (l ++ b) := by
  induction h with
  | one hw hl =>
    exact .one (hw.append_blank hb) (List.not_mem_append hl (hb.notMem hsep))
  | cons hw hl _ ih =>
    rw [List.append_assoc, List.cons_append]
    exact .cons hw hl ih

/-- Spelled pieces joined by the separator. -/
theorem lists_intercalate {wss : List (List (List α))} {ls : List (List α)}
    (h : List.Forall₂ (fun ws l => Spells p ws l ∧ sep ∉ l) wss ls) (hls : ls ≠ []) :
    Lists p sep wss ([sep].intercalate ls) := by
  induction h with
  | nil => exact absurd rfl hls
  | @cons ws l wss ls hl hrest ih =>
    cases ls with
    | nil =>
      cases hrest
      rw [List.intercalate_singleton]
      exact .one hl.1 hl.2
    | cons m ls =>
      rw [List.intercalate_cons_cons, List.append_assoc, List.singleton_append]
      exact .cons hl.1 hl.2 (ih (List.cons_ne_nil _ _))

variable [DecidableEq α]

/-- The words of the pieces between the separators. -/
def fields (p : α → Bool) (sep : α) (l : List α) : List (List (List α)) :=
  (l.splitOn sep).map (words p)

/-- The fields of a text are the ones it lists, each with its words. -/
theorem fields_of_lists {wss : List (List (List α))} {l : List α} (h : Lists p sep wss l) :
    fields p sep l = wss := by
  induction h with
  | one hw hl =>
    unfold fields
    rw [List.splitOn_eq_singleton hl, List.map_singleton, words_of_spells hw]
  | cons hw hl _ ih =>
    unfold fields at ih ⊢
    rw [List.splitOn_append_cons_self_of_not_mem hl, List.map_cons, words_of_spells hw, ih]

/-- Every text lists its fields: the first piece ends at the first separator. -/
theorem lists_fields (l : List α) : Lists p sep (fields p sep l) l := by
  induction hn : l.length using Nat.strong_induction_on generalizing l with
  | _ n ih =>
    subst hn
    by_cases hl : sep ∈ l
    · obtain ⟨a, b, rfl, ha⟩ := List.eq_append_cons_of_mem hl
      have hlt : b.length < (a ++ sep :: b).length := by
        rw [List.length_append, List.length_cons]
        omega
      unfold fields
      rw [List.splitOn_append_cons_self_of_not_mem ha, List.map_cons]
      exact .cons (spells_words a) ha (ih _ hlt b rfl)
    · unfold fields
      rw [List.splitOn_eq_singleton hl, List.map_singleton]
      exact .one (spells_words l) hl

/-- **The fields of a text are the list it spells**: the words between one separator and the
next. -/
theorem fields_eq_iff {wss : List (List (List α))} {l : List α} :
    fields p sep l = wss ↔ Lists p sep wss l :=
  ⟨fun h => h ▸ lists_fields l, fields_of_lists⟩

/-- Trimming first does not change the fields. -/
theorem fields_trim (hsep : p sep = false) (l : List α) :
    fields p sep (trim p l) = fields p sep l := by
  obtain ⟨a, b, ha, hb, hl⟩ := exists_trim (p := p) l
  have hfields : Lists p sep (fields p sep (trim p l)) (trim p l) := lists_fields _
  have h := (hfields.blank_append ha hsep).append_blank hb hsep
  rw [← hl] at h
  exact (fields_of_lists h).symm

end Words

namespace Decimal

/-- A nonempty text of decimal digits. -/
def Digits (l : List Char) : Prop := l ≠ [] ∧ ∀ c ∈ l, c.isDigit = true

instance (l : List Char) : Decidable (Digits l) := inferInstanceAs (Decidable (_ ∧ _))

/-- A number is written in digits. -/
theorem digits_toDigits (n : ℕ) : Digits (Nat.toDigits 10 n) :=
  ⟨Nat.toDigits_ne_nil, fun _ hc => Nat.isDigit_of_mem_toDigits (by decide) (by decide) hc⟩

/-- A digit is the digit of its value. -/
theorem exists_digitChar {c : Char} (hc : c.isDigit = true) :
    ∃ d < 10, c = Nat.digitChar d ∧ c.toNat - '0'.toNat = d := by
  have h : c.toNat ∈ List.range' 48 10 := by
    simp only [Char.isDigit, ge_iff_le, Bool.and_eq_true, decide_eq_true_eq, UInt32.le_iff_toNat_le,
      Char.reduceVal] at hc
    rw [List.mem_range'_1]
    exact ⟨hc.1, Nat.lt_succ_of_le hc.2⟩
  have hof : ∀ n ∈ List.range' 48 10, ∃ d < 10, Char.ofNat n = Nat.digitChar d ∧
      n - '0'.toNat = d := by decide
  obtain ⟨d, hd, hchar, hval⟩ := hof _ h
  exact ⟨d, hd, by rw [← hchar, Char.ofNat_toNat], hval⟩

/-- Digits after a positive number print as they stand. -/
theorem toDigits_ofDigitChars {l : List Char} (hl : ∀ c ∈ l, c.isDigit = true) {n : ℕ}
    (hn : 0 < n) : Nat.toDigits 10 (Nat.ofDigitChars 10 l n) = Nat.toDigits 10 n ++ l := by
  induction l generalizing n with
  | nil => simp
  | cons c l ih =>
    obtain ⟨d, hd, rfl, -⟩ := exists_digitChar (hl c List.mem_cons_self)
    rw [Nat.ofDigitChars_cons_digitChar_of_lt_ten hd,
      ih (fun x hx => hl x (List.mem_cons_of_mem _ hx)) (by omega),
      ← Nat.toDigits_append_toDigits (by decide) hn hd, Nat.toDigits_of_lt_base hd,
      List.append_assoc, List.singleton_append]

/-- **A numeral without a leading zero is the one that is printed**, so it is the only such
text of its number. -/
theorem toDigits_of_head_ne_zero {l : List Char} (hl : Digits l) (h0 : l.head? ≠ some '0') :
    Nat.toDigits 10 (Nat.ofDigitChars 10 l 0) = l := by
  obtain ⟨hne, hall⟩ := hl
  cases l with
  | nil => exact absurd rfl hne
  | cons c l =>
    obtain ⟨d, hd, rfl, -⟩ := exists_digitChar (hall c List.mem_cons_self)
    have hpos : 0 < d := by
      rcases Nat.eq_zero_or_pos d with rfl | hpos
      · exact absurd rfl h0
      · exact hpos
    rw [Nat.ofDigitChars_cons_digitChar_of_lt_ten hd, Nat.mul_zero, Nat.zero_add,
      toDigits_ofDigitChars (fun x hx => hall x (List.mem_cons_of_mem _ hx)) hpos,
      Nat.toDigits_of_lt_base hd, List.singleton_append]

/-- The numeral of a positive number does not begin with a zero. -/
theorem head?_toDigits {n : ℕ} (hn : 0 < n) : (Nat.toDigits 10 n).head? ≠ some '0' := by
  induction n using Nat.strong_induction_on with
  | _ n ih =>
    rcases Nat.lt_or_ge n 10 with h | h
    · rw [Nat.toDigits_of_lt_base h, List.head?_singleton]
      intro h0
      exact hn.ne' (Nat.digitChar_eq_zero.1 (Option.some.inj h0))
    · rw [Nat.toDigits_of_base_le (by decide) h,
        List.head?_append_of_ne_nil _ Nat.toDigits_ne_nil]
      exact ih (n / 10) (by omega) (by omega)

end Decimal
