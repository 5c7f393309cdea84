/-
# Which event signatures are accepted

The documented grammar (`Grammar`): an identifier, and in parentheses parameters that
are a type, perhaps `indexed`, perhaps an identifier, with widths in plain decimal.
The parser accepts every text of the grammar and some more (`accepts_iff`): it does not
look at names, so a pasted `event Transfer(address)` is the event called
`event Transfer`, and it reads a width with the integer parser, which takes `+8` and
`08` for 8.  `Slack` is the exact set of these texts.

Canonicalisation is on safe ground whatever the slack.  `canonicalSignature` is a
function of the name and the types, its text is accepted again with the same name and
types, and every way of writing a declaration out, with blanks, `indexed`, names and
the bare `uint` and `int`, is read back as it was meant.
-/

import Lightcycle.Codec.AbiGrammar

namespace Lightcycle

open Words (Blank Spells Lists Word)

/-! ### The grammar -/

/-- The first character of an identifier. -/
def identStart (c : Char) : Bool := c.isAlpha || c == '_' || c == '$'

/-- A character of an identifier. -/
def identPart (c : Char) : Bool := identStart c || c.isDigit

/-- An identifier. -/
def isIdentifier : List Char → Bool
  | [] => false
  | c :: l => identStart c && l.all identPart

/-- The words of one parameter, given the spellings of a width and the names. -/
def ParamForm (num : ℕ → List Char → Prop) (ident : List Char → Prop)
    (ts : List (List Char)) : Prop :=
  ∃ ty w, AbiType.SpelledBy num ty w ∧
    (ts = [w] ∨ ts = [w, "indexed".toList] ∨
      ∃ x, ident x ∧ (ts = [w, x] ∨ ts = [w, "indexed".toList, x]))

/-- The documented grammar of a signature. -/
def Grammar (s : List Char) : Prop :=
  ∃ name toks, Spelled s name toks ∧ isIdentifier name = true ∧
    ∀ ts ∈ toks, ParamForm DecimalWidth (fun x => isIdentifier x = true) ts

/-- A width with a sign or a leading zero. -/
def LooseWidth (d : List Char) : Prop := d.head? = some '+' ∨ d.head? = some '0'

/-- A type whose width, behind the letters, is loose. -/
def LooseType (w : List Char) : Prop := LooseWidth (w.dropWhile Char.isAlpha)

/-- A parameter with a loose type or with a name that is not an identifier. -/
def LooseParam (ts : List (List Char)) : Prop :=
  ∃ w names, ts = w :: names ∧ (LooseType w ∨ ∃ x ∈ names, isIdentifier x = false)

/-- The shape of a signature, with a name that is not an identifier or a loose width
somewhere in it. -/
def Slack (s : List Char) : Prop :=
  ∃ name toks, Spelled s name toks ∧ (∀ ts ∈ toks, ParamForm Numeral (· ≠ []) ts) ∧
    (isIdentifier name = false ∨ ∃ ts ∈ toks, LooseParam ts)

/-! ### Loose and strict spellings -/

/-- What the grammar spells the parser accepts: it only allows more numerals. -/
theorem AbiType.SpelledBy.of_decimal {ty : AbiType} {w : List Char}
    (h : ty.SpelledBy DecimalWidth w) : ty.SpelledBy Numeral w := by
  have hbits : ∀ {n d}, d = [] ∧ n = 256 ∨ DecimalWidth n d → d = [] ∧ n = 256 ∨ Numeral n d :=
    fun h => h.imp id Numeral.of_decimalWidth
  cases ty with
  | address | bool => exact h
  | uint n | int n =>
    obtain ⟨hn, d, hw, hd⟩ := h
    exact ⟨hn, d, hw, hbits hd⟩
  | bytes n =>
    obtain ⟨hn, d, hw, hd⟩ := h
    exact ⟨hn, d, hw, .of_decimalWidth hd⟩

/-- **A width is plain decimal unless it begins with a sign or a zero.** These two are all
that `str::parse` takes beyond the grammar. -/
theorem Numeral.decimal_iff {n : ℕ} {d : List Char} (h : Numeral n d) (hn : 0 < n) :
    DecimalWidth n d ↔ ¬ LooseWidth d := by
  unfold LooseWidth
  constructor
  · rintro rfl (hplus | hzero)
    · exact plus_notMem (Decimal.digits_toDigits n) hplus
    · exact Decimal.head?_toDigits hn hzero
  · intro hloose
    obtain ⟨e, rfl | rfl, he, rfl⟩ := h
    · exact (Decimal.toDigits_of_head_ne_zero he fun h0 => hloose (.inr h0)).symm
    · exact absurd (.inl rfl) hloose

/-- Behind the letters of a type stands its width. -/
theorem dropWhile_isAlpha {pre d : List Char} (hpre : pre.all Char.isAlpha = true)
    (hd : ∀ c ∈ d.head?, c.isAlpha = false) : (pre ++ d).dropWhile Char.isAlpha = d := by
  rw [List.dropWhile_append_of_pos (List.all_eq_true.1 hpre), Words.dropWhile_eq_self hd]

/-- A number starts with a digit or a sign, so it does not run on from the letters in front.
-/
theorem Numeral.head_isAlpha {n : ℕ} {d : List Char} (h : Numeral n d) :
    ∀ c ∈ d.head?, c.isAlpha = false := by
  intro c hc
  obtain ⟨e, rfl | rfl, he, -⟩ := h
  · obtain ⟨k, hk, rfl, -⟩ := Decimal.exists_digitChar (he.2 c (List.mem_of_mem_head? hc))
    have hdigit : ∀ k < 10, (Nat.digitChar k).isAlpha = false := by decide
    exact hdigit k hk
  · obtain rfl := Option.some.inj hc
    rfl

/-- A spelled type is in the grammar unless its width is loose. -/
theorem AbiType.SpelledBy.decimal_iff {ty : AbiType} {w : List Char} (h : ty.SpelledBy Numeral w) :
    ty.SpelledBy DecimalWidth w ↔ ¬ LooseType w := by
  have hnil : ¬ LooseWidth [] := by rintro (h | h) <;> cases h
  have hbits : ∀ {pre n d}, pre.all Char.isAlpha = true → 0 < n →
      d = [] ∧ n = 256 ∨ Numeral n d →
      (d = [] ∧ n = 256 ∨ DecimalWidth n d ↔ ¬ LooseType (pre ++ d)) := by
    rintro pre n d hpre hn (⟨rfl, rfl⟩ | hd)
    · refine iff_of_true (.inl ⟨rfl, rfl⟩) ?_
      unfold LooseType
      rwa [dropWhile_isAlpha hpre (by simp)]
    · unfold LooseType
      rw [dropWhile_isAlpha hpre hd.head_isAlpha, ← hd.decimal_iff hn]
      exact or_iff_right fun h => hd.ne_nil h.1
  cases ty with
  | address =>
    obtain rfl : w = "address".toList := h
    exact iff_of_true rfl hnil
  | bool =>
    obtain rfl : w = "bool".toList := h
    exact iff_of_true rfl hnil
  | uint n =>
    obtain ⟨hn, d, rfl, hd⟩ := h
    rw [← hbits rfl hn.2.1 hd]
    exact ⟨fun ⟨_, e, he, h⟩ => List.append_cancel_left he ▸ h, fun h => ⟨hn, d, rfl, h⟩⟩
  | int n =>
    obtain ⟨hn, d, rfl, hd⟩ := h
    rw [← hbits rfl hn.2.1 hd]
    exact ⟨fun ⟨_, e, he, h⟩ => List.append_cancel_left he ▸ h, fun h => ⟨hn, d, rfl, h⟩⟩
  | bytes n =>
    obtain ⟨hn, d, rfl, hd⟩ := h
    have hloose := @hbits "bytes".toList n d rfl hn.1 (.inr hd)
    rw [← hloose, or_iff_right fun h => hd.ne_nil h.1]
    exact ⟨fun ⟨_, e, he, h⟩ => List.append_cancel_left he ▸ h, fun h => ⟨hn, d, rfl, h⟩⟩

/-- An identifier has a first character. -/
theorem isIdentifier_ne_nil {x : List Char} (h : isIdentifier x = true) : x ≠ [] := by
  rintro rfl
  cases h

/-- The words of a parameter are in the grammar unless they are loose. -/
theorem ParamForm.decimal_iff {ts : List (List Char)} (h : ParamForm Numeral (· ≠ []) ts) :
    ParamForm DecimalWidth (fun x => isIdentifier x = true) ts ↔ ¬ LooseParam ts := by
  have hflag : isIdentifier "indexed".toList = true := by decide
  constructor
  · rintro ⟨ty, w, hw, hts⟩ ⟨w', names, rfl, hloose⟩
    obtain ⟨rfl, hnames⟩ : w' = w ∧ ∀ x ∈ names, isIdentifier x = true := by
      have hone : ∀ {x}, isIdentifier x = true → ∀ y ∈ [x], isIdentifier y = true :=
        fun hx y hy => List.mem_singleton.1 hy ▸ hx
      rcases hts with h | h | ⟨x, hx, h | h⟩ <;> obtain ⟨rfl, rfl⟩ := List.cons.inj h
      · exact ⟨rfl, fun x hx => absurd hx List.not_mem_nil⟩
      · exact ⟨rfl, hone hflag⟩
      · exact ⟨rfl, hone hx⟩
      · exact ⟨rfl, List.forall_mem_cons.2 ⟨hflag, hone hx⟩⟩
    rcases hloose with hloose | ⟨x, hx, hloose⟩
    · exact (hw.of_decimal.decimal_iff).1 hw hloose
    · exact Bool.false_ne_true (hloose.symm.trans (hnames x hx))
  · intro hloose
    obtain ⟨ty, w, hw, hts⟩ := h
    have hident : ∀ {names}, ts = w :: names → ∀ x ∈ names, isIdentifier x = true := by
      intro names hnames x hx
      by_contra hx'
      exact hloose ⟨w, names, hnames, .inr ⟨x, hx, Bool.eq_false_iff.2 hx'⟩⟩
    have hstrict : ty.SpelledBy DecimalWidth w := hw.decimal_iff.2 fun hlt =>
      hloose ⟨w, ts.tail, by rcases hts with rfl | rfl | ⟨x, -, rfl | rfl⟩ <;> rfl, .inl hlt⟩
    refine ⟨ty, w, hstrict, ?_⟩
    rcases hts with h | h | ⟨x, -, h | h⟩
    · exact .inl h
    · exact .inr (.inl h)
    · exact .inr (.inr ⟨x, hident h x (by simp), .inl h⟩)
    · exact .inr (.inr ⟨x, hident h x (by simp), .inr h⟩)

/-! ### What is accepted -/

section accept

variable {keccak256 : List UInt8 → List.Vector UInt8 32} {s : List Char}

/-- Some parameter is read from the words exactly when they are one in form. -/
theorem exists_spelledBy {num : ℕ → List Char → Prop} {ts : List (List Char)} :
    (∃ p : AbiParam, p.SpelledBy num ts) ↔ ParamForm num (· ≠ []) ts := by
  constructor
  · rintro ⟨⟨name, ty, indexed⟩, ⟨w, hw, rfl⟩, -⟩
    refine ⟨ty, w, hw, ?_⟩
    unfold paramWords
    cases indexed <;> cases name
    · exact .inl rfl
    · exact .inr (.inr ⟨_, List.cons_ne_nil _ _, .inl rfl⟩)
    · exact .inr (.inl rfl)
    · exact .inr (.inr ⟨_, List.cons_ne_nil _ _, .inr rfl⟩)
  · rintro ⟨ty, w, hw, rfl | rfl | ⟨x, hx, rfl | rfl⟩⟩
    · exact ⟨⟨[], ty, false⟩, ⟨w, hw, rfl⟩, fun _ h => by cases h⟩
    · exact ⟨⟨[], ty, true⟩, ⟨w, hw, rfl⟩, fun h => by cases h⟩
    · by_cases hflag : x = "indexed".toList
      · exact ⟨⟨[], ty, true⟩, ⟨w, hw, by rw [hflag]; rfl⟩, fun h => by cases h⟩
      · exact ⟨⟨x, ty, false⟩, ⟨w, hw, by simp [paramWords, hx]⟩, fun _ => hflag⟩
    · exact ⟨⟨x, ty, true⟩, ⟨w, hw, by simp [paramWords, hx]⟩, fun h => by cases h⟩

/-- A list of partners is found by finding a partner for each element. -/
theorem exists_forall₂ {α β : Type*} {R : α → β → Prop} {l : List α} :
    (∃ m, List.Forall₂ R l m) ↔ ∀ a ∈ l, ∃ b, R a b := by
  constructor
  · rintro ⟨m, h⟩ a ha
    obtain ⟨b, -, hb⟩ := Decode.exists_of_forall₂ h ha
    exact ⟨b, hb⟩
  · intro h
    induction l with
    | nil => exact ⟨[], .nil⟩
    | cons a l ih =>
      obtain ⟨b, hb⟩ := h a List.mem_cons_self
      obtain ⟨m, hm⟩ := ih fun x hx => h x (List.mem_cons_of_mem _ hx)
      exact ⟨b :: m, .cons hb hm⟩

/-- **What the parser accepts:** the shape of a signature, whatever the names are and
with widths as the integer parser reads them. -/
theorem accepts_iff :
    (∃ sig, EventSignature.parse keccak256 s = .ok sig) ↔
      ∃ name toks, Spelled s name toks ∧ ∀ ts ∈ toks, ParamForm Numeral (· ≠ []) ts := by
  simp only [← exists_spelledBy, ← exists_forall₂, parse_eq_ok]
  constructor
  · rintro ⟨sig, ⟨toks, hs, hall⟩, -⟩
    exact ⟨sig.name, toks, hs, sig.params, hall⟩
  · rintro ⟨name, toks, hs, params, hall⟩
    exact ⟨⟨name, params, keccak256 (asBytes (canonicalSignature name params))⟩,
      ⟨toks, hs, hall⟩, rfl⟩

/-- **The grammar is accepted**, whatever the hash: the parser takes every signature that
the documented grammar describes. -/
theorem accepts_of_grammar (h : Grammar s) : ∃ sig, EventSignature.parse keccak256 s = .ok sig := by
  obtain ⟨name, toks, hs, -, hform⟩ := h
  refine accepts_iff.2 ⟨name, toks, hs, fun ts hts => ?_⟩
  obtain ⟨ty, w, hw, hshape⟩ := hform ts hts
  refine ⟨ty, w, hw.of_decimal, hshape.imp id (Or.imp id ?_)⟩
  rintro ⟨x, hx, h⟩
  exact ⟨x, isIdentifier_ne_nil hx, h⟩

/-- A text of the shape is in the grammar unless it is slack. -/
theorem grammar_iff {name : List Char} {toks : List (List (List Char))} (hs : Spelled s name toks)
    (hform : ∀ ts ∈ toks, ParamForm Numeral (· ≠ []) ts) : Grammar s ↔ ¬ Slack s := by
  constructor
  · rintro ⟨name₁, toks₁, hs₁, hname, hstrict⟩ ⟨name₂, toks₂, hs₂, hform₂, hloose⟩
    obtain ⟨rfl, rfl⟩ := hs₁.unique hs₂
    rcases hloose with hname' | ⟨ts, hts, hloose⟩
    · exact Bool.false_ne_true (hname'.symm.trans hname)
    · exact (hform₂ ts hts).decimal_iff.1 (hstrict ts hts) hloose
  · intro hslack
    refine ⟨name, toks, hs, ?_, fun ts hts => (hform ts hts).decimal_iff.2 fun hloose => ?_⟩
    · by_contra hname
      exact hslack ⟨name, toks, hs, hform, .inl (Bool.eq_false_iff.2 hname)⟩
    · exact hslack ⟨name, toks, hs, hform, .inr ⟨ts, hts, hloose⟩⟩

/-- **The parser accepts exactly the grammar, and rejects every other text with an error, on
the texts without slack and on no others.** A text has slack when it has the shape of a
declaration but a name in it is no identifier, or a width has a sign or a leading zero: the
parser lets such a text through. -/
theorem parse_grammar_iff (keccak256 : List UInt8 → List.Vector UInt8 32) (s : List Char) :
    (((∃ sig, EventSignature.parse keccak256 s = .ok sig) ↔ Grammar s) ∧
      (¬ Grammar s → ∃ e, EventSignature.parse keccak256 s = .error e)) ↔ ¬ Slack s := by
  constructor
  · rintro ⟨hiff, -⟩ hslack
    obtain ⟨name, toks, hs, hform, hloose⟩ := hslack
    exact (grammar_iff hs hform).1 (hiff.1 (accepts_iff.2 ⟨name, toks, hs, hform⟩))
      ⟨name, toks, hs, hform, hloose⟩
  · intro hslack
    have hiff : (∃ sig, EventSignature.parse keccak256 s = .ok sig) ↔ Grammar s := by
      refine ⟨fun h => ?_, accepts_of_grammar⟩
      obtain ⟨name, toks, hs, hform⟩ := accepts_iff.1 h
      exact (grammar_iff hs hform).2 hslack
    refine ⟨hiff, fun hg => ?_⟩
    cases hp : EventSignature.parse keccak256 s with
    | error e => exact ⟨e, rfl⟩
    | ok sig => exact absurd (hiff.1 ⟨sig, hp⟩) hg

/-- A pasted declaration is accepted: the event is called `event A`. -/
theorem parse_pasted_declaration :
    ¬ ((∃ sig, EventSignature.parse (fun _ => List.Vector.replicate 32 0)
        "event A(bool)".toList = .ok sig) ↔ Grammar "event A(bool)".toList) := by
  intro h
  obtain ⟨name, toks, hs, hname, -⟩ := h.1 ⟨_, rfl⟩
  obtain ⟨-, -, -, hpieces, -⟩ := hs.pieces
  obtain rfl : "event A".toList = name := hpieces
  exact absurd hname (by decide)

end accept

/-! ### Canonical form and renderings -/

/-- The canonical text depends on the parameters through their types only. -/
theorem canonicalSignature_congr {name : List Char} {ps qs : List AbiParam}
    (h : ps.map AbiParam.ty = qs.map AbiParam.ty) :
    canonicalSignature name ps = canonicalSignature name qs := by
  have hdisplay : ∀ ps : List AbiParam,
      ps.map (fun p => p.ty.display) = (ps.map AbiParam.ty).map AbiType.display :=
    fun ps => by rw [List.map_map]; rfl
  unfold canonicalSignature
  rw [hdisplay ps, h, ← hdisplay qs]

/-- The ways to write a type down: as it prints, or without the width when that is 256. -/
def AbiType.Renders (ty : AbiType) (w : List Char) : Prop :=
  w = ty.display ∨ ty = .uint 256 ∧ w = "uint".toList ∨ ty = .int 256 ∧ w = "int".toList

/-- A parameter name that can be written: nothing, or a word other than `indexed`
without commas and parentheses. -/
def PlainParam (x : List Char) : Prop :=
  x = [] ∨ Word isWhitespace x ∧ ',' ∉ x ∧ '(' ∉ x ∧ ')' ∉ x ∧ x ≠ "indexed".toList

/-- An event name that can be written. -/
def PlainName (name : List Char) : Prop :=
  name ≠ [] ∧ '(' ∉ name ∧ ')' ∉ name ∧ Words.Trimmed isWhitespace name

/-- The ways to write a parameter down: its type, `indexed` if it is, its name if it
has one, with blanks around and at least one between two words. -/
def AbiParam.Renders (p : AbiParam) (piece : List Char) : Prop :=
  ∃ w a b c d, p.ty.Renders w ∧ Blank isWhitespace a ∧ Blank isWhitespace d ∧
    (Blank isWhitespace b ∧ b ≠ []) ∧ (Blank isWhitespace c ∧ c ≠ []) ∧
    piece = a ++ (w ++ ((if p.indexed then b ++ "indexed".toList else []) ++
      ((if p.name.isEmpty then [] else c ++ p.name) ++ d)))

/-- The ways to write the parameters of an event down. -/
def RendersList (ps : List AbiParam) (body : List Char) : Prop :=
  ps = [] ∧ Blank isWhitespace body ∨
    ps ≠ [] ∧ ∃ pieces, List.Forall₂ AbiParam.Renders ps pieces ∧ body = [','].intercalate pieces

/-- The ways to write an event down. -/
def Renders (name : List Char) (ps : List AbiParam) (s : List Char) : Prop :=
  ∃ a b body c, Blank isWhitespace a ∧ Blank isWhitespace b ∧ Blank isWhitespace c ∧
    RendersList ps body ∧ s = a ++ (name ++ b ++ '(' :: (body ++ [')'])) ++ c

/-- A type written down in one of its ways is spelled by that word. -/
theorem AbiType.Renders.spelledBy {ty : AbiType} {w : List Char} (h : ty.Renders w)
    (hty : ty.Valid) : ty.SpelledBy Numeral w := by
  rcases h with rfl | ⟨rfl, rfl⟩ | ⟨rfl, rfl⟩
  · cases ty with
    | address | bool => exact rfl
    | uint n | int n => exact ⟨hty, _, rfl, .inr (.of_decimalWidth rfl)⟩
    | bytes n => exact ⟨hty, _, rfl, .of_decimalWidth rfl⟩
  · exact ⟨hty, [], rfl, .inl ⟨rfl, rfl⟩⟩
  · exact ⟨hty, [], rfl, .inl ⟨rfl, rfl⟩⟩

/-- A word spells only types whose width the code allows. -/
theorem AbiType.SpelledBy.valid {num : ℕ → List Char → Prop} {ty : AbiType} {w : List Char}
    (h : ty.SpelledBy num w) : ty.Valid := by
  cases ty with
  | address | bool => trivial
  | uint n | int n | bytes n => exact h.1

/-- The characters of identifiers are no blanks and none that separate parameters. -/
theorem identPart_plain {c : Char} (h : identPart c = true) :
    isWhitespace c = false ∧ c ≠ ',' ∧ c ≠ '(' ∧ c ≠ ')' := by
  have hval : c.toNat = c.val.toNat := rfl
  have hrange : c.toNat = 36 ∨ 48 ≤ c.toNat ∧ c.toNat ≤ 57 ∨ 65 ≤ c.toNat ∧ c.toNat ≤ 90 ∨
      c.toNat = 95 ∨ 97 ≤ c.toNat ∧ c.toNat ≤ 122 := by
    simp only [identPart, identStart, Char.isAlpha, Char.isUpper, Char.isLower, Char.isDigit,
      Bool.or_eq_true, Bool.and_eq_true, decide_eq_true_eq, UInt32.le_iff_toNat_le, ge_iff_le,
      Char.reduceVal, UInt32.reduceToNat, beq_iff_eq] at h
    rcases h with ((h | rfl) | rfl) | h
    · omega
    · decide
    · decide
    · omega
  refine ⟨?_, ?_, ?_, ?_⟩
  · simp only [isWhitespace, Bool.or_eq_false_iff, Bool.and_eq_false_iff, decide_eq_false_iff_not,
      beq_eq_false_iff_ne]
    omega
  all_goals
    rintro rfl
    exact absurd hrange (by decide)

/-- Each character of an identifier may stand inside one. -/
theorem isIdentifier_chars {w : List Char} (h : isIdentifier w = true) :
    ∀ c ∈ w, identPart c = true := by
  cases w with
  | nil => exact fun c hc => absurd hc List.not_mem_nil
  | cons c l =>
    obtain ⟨hc, hl⟩ := Bool.and_eq_true_iff.1 h
    refine List.forall_mem_cons.2 ⟨?_, List.all_eq_true.1 hl⟩
    unfold identPart
    rw [hc, Bool.true_or]

/-- An identifier is one word, free of the characters that separate parameters. -/
theorem word_of_identifier {w : List Char} (h : isIdentifier w = true) :
    Word isWhitespace w ∧ ',' ∉ w ∧ '(' ∉ w ∧ ')' ∉ w := by
  have hplain := fun c hc => identPart_plain (isIdentifier_chars h c hc)
  exact ⟨⟨isIdentifier_ne_nil h, fun c hc => (hplain c hc).1⟩, fun hc => (hplain _ hc).2.1 rfl,
    fun hc => (hplain _ hc).2.2.1 rfl, fun hc => (hplain _ hc).2.2.2 rfl⟩

/-- Identifiers can be written as names of events. -/
theorem PlainName.of_identifier {w : List Char} (h : isIdentifier w = true) : PlainName w := by
  obtain ⟨hw, -, hopen, hclose⟩ := word_of_identifier h
  exact ⟨hw.1, hopen, hclose, hw.trimmed⟩

/-- Identifiers other than `indexed` can be written as names of parameters. -/
theorem PlainParam.of_identifier {w : List Char} (h : isIdentifier w = true)
    (hflag : w ≠ "indexed".toList) : PlainParam w := by
  obtain ⟨hw, hcomma, hopen, hclose⟩ := word_of_identifier h
  exact .inr ⟨hw, hcomma, hopen, hclose, hflag⟩

/-- Letters and digits may stand inside identifiers. -/
theorem identPart_of_isAlphanum {c : Char} (h : c.isAlphanum = true) : identPart c = true := by
  unfold Char.isAlphanum at h
  unfold identPart identStart
  rcases Bool.or_eq_true_iff.1 h with h | h <;> simp [h]

/-- A type is written with letters and digits. -/
theorem AbiType.Renders.alphanum {ty : AbiType} {w : List Char} (h : ty.Renders w) :
    w ≠ [] ∧ ∀ c ∈ w, c.isAlphanum = true := by
  have hdigits : ∀ {pre : List Char} {n}, pre ≠ [] → pre.all Char.isAlphanum = true →
      pre ++ Nat.toDigits 10 n ≠ [] ∧ ∀ c ∈ pre ++ Nat.toDigits 10 n, c.isAlphanum = true := by
    intro pre n hne hpre
    refine ⟨fun h => hne (List.append_eq_nil_iff.1 h).1, fun c hc => ?_⟩
    rcases List.mem_append.1 hc with hc | hc
    · exact List.all_eq_true.1 hpre c hc
    · simp [Char.isAlphanum, (Decimal.digits_toDigits n).2 c hc]
  have hletters : ∀ {pre : List Char}, pre ≠ [] → pre.all Char.isAlphanum = true →
      pre ≠ [] ∧ ∀ c ∈ pre, c.isAlphanum = true :=
    fun hne hpre => ⟨hne, List.all_eq_true.1 hpre⟩
  rcases h with rfl | ⟨-, rfl⟩ | ⟨-, rfl⟩
  · cases ty with
    | address | bool => exact hletters (List.cons_ne_nil _ _) rfl
    | uint n | int n | bytes n => exact hdigits (List.cons_ne_nil _ _) rfl
  · exact hletters (List.cons_ne_nil _ _) rfl
  · exact hletters (List.cons_ne_nil _ _) rfl

/-- A name that is there is one word, and not the flag. -/
theorem PlainParam.word {x : List Char} (h : PlainParam x) (hx : x ≠ []) :
    Word isWhitespace x ∧ ',' ∉ x ∧ x ≠ "indexed".toList := by
  rcases h with rfl | ⟨hw, hcomma, -, -, hflag⟩
  · exact absurd rfl hx
  · exact ⟨hw, hcomma, hflag⟩

/-- A written parameter is spelled by its words and has no comma in it. -/
theorem AbiParam.Renders.spells {p : AbiParam} {piece : List Char} (h : p.Renders piece)
    (hty : p.ty.Valid) (hname : PlainParam p.name) :
    ∃ ts, p.SpelledBy Numeral ts ∧ Spells isWhitespace ts piece ∧ ',' ∉ piece := by
  obtain ⟨w, a, b, c, d, hw, ha, hd, ⟨hb, hb0⟩, ⟨hc, hc0⟩, rfl⟩ := h
  have hblank : ∀ {g : List Char}, Blank isWhitespace g → ',' ∉ g := fun hg => hg.notMem rfl
  have hwword : Word isWhitespace w :=
    ⟨hw.alphanum.1, fun x hx => (identPart_plain (identPart_of_isAlphanum (hw.alphanum.2 x hx))).1⟩
  have hwcomma : ',' ∉ w := fun hx =>
    (identPart_plain (identPart_of_isAlphanum (hw.alphanum.2 _ hx))).2.1 rfl
  -- the name, then the flag before it
  have hnamed : Words.Follows isWhitespace (if p.name.isEmpty then [] else [p.name])
      ((if p.name.isEmpty then [] else c ++ p.name) ++ d) ∧
      ',' ∉ (if p.name.isEmpty then [] else c ++ p.name) ++ d := by
    by_cases hempty : p.name.isEmpty
    · rw [if_pos hempty, if_pos hempty]
      exact ⟨Words.follows_blank hd, hblank hd⟩
    · obtain ⟨hword, hcomma, -⟩ := hname.word fun h => hempty (List.isEmpty_iff.2 h)
      rw [if_neg hempty, if_neg hempty]
      exact ⟨(Words.follows_blank hd).cons hc hc0 hword,
        List.not_mem_append (List.not_mem_append (hblank hc) hcomma) (hblank hd)⟩
  have hflagged : Words.Follows isWhitespace
      ((if p.indexed then ["indexed".toList] else []) ++ if p.name.isEmpty then [] else [p.name])
      ((if p.indexed then b ++ "indexed".toList else []) ++
        ((if p.name.isEmpty then [] else c ++ p.name) ++ d)) ∧
      ',' ∉ (if p.indexed then b ++ "indexed".toList else []) ++
        ((if p.name.isEmpty then [] else c ++ p.name) ++ d) := by
    cases p.indexed with
    | false => exact hnamed
    | true =>
      have hall : "indexed".toList.all (fun x => !isWhitespace x) = true := rfl
      have hword : Word isWhitespace "indexed".toList :=
        ⟨List.cons_ne_nil _ _, fun x hx => by simpa using List.all_eq_true.1 hall x hx⟩
      exact ⟨hnamed.1.cons hb hb0 hword,
        List.not_mem_append (List.not_mem_append (hblank hb) (by decide)) hnamed.2⟩
  refine ⟨paramWords w p.indexed p.name, ⟨⟨w, hw.spelledBy hty, rfl⟩, fun _ hflag => ?_⟩, ?_, ?_⟩
  · exact (hname.word (by rw [hflag]; exact List.cons_ne_nil _ _)).2.2 hflag
  · exact (Spells.word hwword hflagged.1.2 hflagged.1.1).blank_append ha
  · exact List.not_mem_append (hblank ha) (List.not_mem_append hwcomma hflagged.2)

/-- Written parameters are spelled by their words. -/
theorem RendersList.bodySpelled {ps : List AbiParam} {body : List Char} (h : RendersList ps body)
    (hps : ∀ p ∈ ps, p.ty.Valid ∧ PlainParam p.name) :
    ∃ toks, BodySpelled toks body ∧
      List.Forall₂ (fun ts p => AbiParam.SpelledBy Numeral p ts) toks ps := by
  rcases h with ⟨rfl, hb⟩ | ⟨hne, pieces, hpieces, rfl⟩
  · exact ⟨[], .inl ⟨rfl, hb⟩, .nil⟩
  · have hall : ∃ toks, List.Forall₂ (fun ts l => Spells isWhitespace ts l ∧ ',' ∉ l) toks pieces ∧
        List.Forall₂ (fun ts p => AbiParam.SpelledBy Numeral p ts) toks ps := by
      clear hne
      induction hpieces with
      | nil => exact ⟨[], .nil, .nil⟩
      | @cons p piece ps pieces hp _ ih =>
        obtain ⟨hty, hname⟩ := hps p List.mem_cons_self
        obtain ⟨ts, hspelled, hspells, hcomma⟩ := hp.spells hty hname
        obtain ⟨toks, hl, hr⟩ := ih fun q hq => hps q (List.mem_cons_of_mem _ hq)
        exact ⟨ts :: toks, .cons ⟨hspells, hcomma⟩ hl, .cons hspelled hr⟩
    obtain ⟨toks, hl, hr⟩ := hall
    refine ⟨toks, .inr ⟨Words.lists_intercalate hl fun h => ?_, fun ts hts => ?_⟩, hr⟩
    · subst h
      cases hpieces
      exact hne rfl
    · obtain ⟨p, -, hp⟩ := Decode.exists_of_forall₂ hr hts
      exact hp.ne_nil

section render

variable {keccak256 : List UInt8 → List.Vector UInt8 32}

/-- **What is written down is read back.** However an event is laid out, with blanks and
with or without names, the parser finds its name and its parameters, and the topic depends
on the name and the types alone. -/
theorem parse_of_renders {name : List Char} {ps : List AbiParam} {s : List Char}
    (hne : name ≠ []) (hopen : '(' ∉ name) (htrimmed : Words.Trimmed isWhitespace name)
    (hps : ∀ p ∈ ps, p.ty.Valid ∧ PlainParam p.name) (h : Renders name ps s) :
    EventSignature.parse keccak256 s =
      .ok ⟨name, ps, keccak256 (asBytes (canonicalSignature name ps))⟩ := by
  obtain ⟨a, b, body, c, ha, hb, hc, hlist, rfl⟩ := h
  obtain ⟨toks, hbody, hall⟩ := hlist.bodySpelled hps
  exact parse_eq_ok.2 ⟨⟨toks, ⟨hne, htrimmed, hopen, a, b, body, c, ha, hb, hc, rfl, hbody⟩, hall⟩,
    rfl⟩

/-- A parameter in the usual layout, one space between two words. -/
def AbiParam.text (p : AbiParam) : List Char :=
  p.ty.display ++ ((if p.indexed then " indexed".toList else []) ++
    if p.name.isEmpty then [] else ' ' :: p.name)

/-- Parameters in the usual layout, a space behind a comma. -/
def paramsText : List AbiParam → List Char
  | [] => []
  | p :: ps => [','].intercalate (p.text :: ps.map fun q => ' ' :: q.text)

/-- An event in the usual layout. -/
def declaration (name : List Char) (ps : List AbiParam) : List Char :=
  name ++ '(' :: paramsText ps ++ [')']

/-- A space is blank, and enough to part two words. -/
theorem blank_space : Blank isWhitespace [' '] ∧ [' '] ≠ [] :=
  ⟨fun c hc => by rw [List.mem_singleton.1 hc]; rfl, List.cons_ne_nil _ _⟩

/-- The usual layout of a parameter is one of the ways to write it. -/
theorem AbiParam.renders_text (p : AbiParam) {a : List Char} (ha : Blank isWhitespace a) :
    p.Renders (a ++ p.text) := by
  refine ⟨p.ty.display, a, [' '], [' '], [], .inl rfl, ha, Words.Blank.nil, blank_space,
    blank_space, ?_⟩
  unfold AbiParam.text
  rw [List.append_nil]
  rfl

/-- The usual layout is read back. -/
theorem parse_declaration {name : List Char} {ps : List AbiParam} (hname : PlainName name)
    (hps : ∀ p ∈ ps, p.ty.Valid ∧ PlainParam p.name) :
    EventSignature.parse keccak256 (declaration name ps) =
      .ok ⟨name, ps, keccak256 (asBytes (canonicalSignature name ps))⟩ := by
  obtain ⟨hne, hopen, -, htrimmed⟩ := hname
  refine parse_of_renders hne hopen htrimmed hps ⟨[], [], paramsText ps, [], Words.Blank.nil,
    Words.Blank.nil, Words.Blank.nil, ?_, by simp [declaration]⟩
  cases ps with
  | nil => exact .inl ⟨rfl, Words.Blank.nil⟩
  | cons p ps =>
    refine .inr ⟨List.cons_ne_nil _ _, _, .cons (p.renders_text Words.Blank.nil) ?_, rfl⟩
    rw [List.forall₂_map_right_iff, List.forall₂_same]
    exact fun q _ => q.renders_text blank_space.1

/-- The parameters without names and flags. -/
def bare (ps : List AbiParam) : List AbiParam := ps.map fun p => ⟨[], p.ty, false⟩

/-- Without names and flags the types are the same. -/
theorem bare_ty (ps : List AbiParam) : (bare ps).map AbiParam.ty = ps.map AbiParam.ty := by
  unfold bare
  rw [List.map_map]
  rfl

/-- The canonical text is a way to write down the bare parameters. -/
theorem renders_canonicalSignature (name : List Char) (ps : List AbiParam) :
    Renders name (bare ps) (canonicalSignature name ps) := by
  have hpiece : ∀ p : AbiParam, AbiParam.Renders ⟨[], p.ty, false⟩ p.ty.display := fun p =>
    ⟨p.ty.display, [], [' '], [' '], [], .inl rfl, Words.Blank.nil, Words.Blank.nil, blank_space,
      blank_space, by simp⟩
  refine ⟨[], [], [','].intercalate (ps.map fun p => p.ty.display), [], Words.Blank.nil,
    Words.Blank.nil, Words.Blank.nil, ?_, by simp [canonicalSignature]⟩
  cases ps with
  | nil => exact .inl ⟨rfl, Words.Blank.nil⟩
  | cons p ps =>
    refine .inr ⟨List.cons_ne_nil _ _, _, ?_, rfl⟩
    unfold bare
    rw [List.forall₂_map_left_iff, List.forall₂_map_right_iff, List.forall₂_same]
    exact fun q _ => hpiece q

/-- The widths in an accepted signature are those the code allows. -/
theorem valid_of_parse {s : List Char} {sig : EventSignature}
    (h : EventSignature.parse keccak256 s = .ok sig) : ∀ p ∈ sig.params, p.ty.Valid := by
  intro p hp
  obtain ⟨⟨toks, -, hall⟩, -⟩ := parse_eq_ok.1 h
  obtain ⟨ts, -, ⟨w, hw, -⟩, -⟩ := Decode.exists_of_forall₂ hall.flip hp
  exact hw.valid

/-- **Canonicalisation is a fixpoint and spelling does not matter.**  The canonical
text of an accepted signature is accepted, with the same name, types and topic; and
all the ways to write down an event with given types are read back, with one topic. -/
theorem canonical_and_renderings (keccak256 : List UInt8 → List.Vector UInt8 32) :
    (∀ s sig, EventSignature.parse keccak256 s = .ok sig →
      ∃ sig', EventSignature.parse keccak256 (canonicalSignature sig.name sig.params) = .ok sig' ∧
        sig'.name = sig.name ∧ sig'.params.map AbiParam.ty = sig.params.map AbiParam.ty ∧
        sig'.topic0 = sig.topic0) ∧
    ∀ name types, PlainName name → (∀ ty ∈ types, AbiType.Valid ty) →
      ∃ topic0, ∀ ps s, ps.map AbiParam.ty = types → (∀ p ∈ ps, PlainParam p.name) →
        Renders name ps s → EventSignature.parse keccak256 s = .ok ⟨name, ps, topic0⟩ := by
  constructor
  · intro s sig h
    obtain ⟨⟨toks, hs, -⟩, htopic⟩ := parse_eq_ok.1 h
    have hps : ∀ p ∈ bare sig.params, p.ty.Valid ∧ PlainParam p.name := by
      intro p hp
      obtain ⟨q, hq, rfl⟩ := List.mem_map.1 hp
      exact ⟨valid_of_parse h q hq, .inl rfl⟩
    refine ⟨_, parse_of_renders hs.ne_nil hs.open_notMem hs.trimmed hps
      (renders_canonicalSignature sig.name sig.params), rfl, bare_ty _, ?_⟩
    rw [htopic, canonicalSignature_congr (bare_ty sig.params)]
  · rintro name types ⟨hne, hopen, -, htrimmed⟩ htypes
    refine ⟨keccak256 (asBytes (canonicalSignature name (types.map fun ty => ⟨[], ty, false⟩))), ?_⟩
    rintro ps s rfl hnames h
    have hps : ∀ p ∈ ps, p.ty.Valid ∧ PlainParam p.name := fun p hp =>
      ⟨htypes p.ty (List.mem_map_of_mem hp), hnames p hp⟩
    rw [parse_of_renders hne hopen htrimmed hps h, List.map_map,
      ← canonicalSignature_congr (bare_ty ps)]
    rfl

/-- Two parameters, the first indexed and both named. -/
def twoParams : List AbiParam := [⟨"from".toList, .address, true⟩, ⟨"x".toList, .uint 256, false⟩]

/-- `E(address indexed from,uint x)` has a canonical text that is read back, and so is the
same event with more blanks. -/
theorem canonical_and_renderings_twoParams :
    (∃ sig sig', EventSignature.parse (fun _ => List.Vector.replicate 32 0)
        "E(address indexed from,uint x)".toList = .ok sig ∧ sig.params = twoParams ∧
      EventSignature.parse (fun _ => List.Vector.replicate 32 0)
        (canonicalSignature sig.name sig.params) = .ok sig' ∧
      sig'.name = sig.name ∧ sig'.params.map AbiParam.ty = sig.params.map AbiParam.ty ∧
      sig'.topic0 = sig.topic0) ∧
    ∃ topic0, EventSignature.parse (fun _ => List.Vector.replicate 32 0)
      "E( address  indexed from , uint x)".toList = .ok ⟨"E".toList, twoParams, topic0⟩ := by
  obtain ⟨hfix, hrender⟩ := canonical_and_renderings fun _ => List.Vector.replicate 32 0
  have hname : PlainName "E".toList := .of_identifier rfl
  have hspaces : Blank isWhitespace [' ', ' '] ∧ [' ', ' '] ≠ [] :=
    ⟨blank_space.1.append blank_space.1, List.cons_ne_nil _ _⟩
  constructor
  · obtain ⟨sig', hp, hcanonical⟩ := hfix "E(address indexed from,uint x)".toList _ rfl
    exact ⟨_, sig', rfl, rfl, hp, hcanonical⟩
  · have hvalid : ∀ ty ∈ [AbiType.address, .uint 256], AbiType.Valid ty := by
      simp only [List.forall_mem_cons]
      refine ⟨trivial, ⟨?_, ?_, le_rfl⟩, by simp⟩ <;> norm_num
    have hplain : ∀ p ∈ twoParams, PlainParam p.name := by
      simp only [twoParams, List.forall_mem_cons]
      exact ⟨.of_identifier rfl (by decide), .of_identifier rfl (by decide), by simp⟩
    obtain ⟨topic0, h⟩ := hrender "E".toList [.address, .uint 256] hname hvalid
    refine ⟨topic0, h twoParams _ rfl hplain ⟨[], [], " address  indexed from , uint x".toList, [],
      Words.Blank.nil, Words.Blank.nil, Words.Blank.nil, .inr ⟨List.cons_ne_nil _ _,
        [" address  indexed from ".toList, " uint x".toList], .cons ?_ (.cons ?_ .nil), rfl⟩, rfl⟩⟩
    · exact ⟨"address".toList, [' '], [' ', ' '], [' '], [' '], .inl rfl, blank_space.1,
        blank_space.1, hspaces, blank_space, rfl⟩
    · exact ⟨"uint".toList, [' '], [' '], [' '], [], .inr (.inl ⟨rfl, rfl⟩), blank_space.1,
        Words.Blank.nil, blank_space, blank_space, rfl⟩

end render

end Lightcycle
