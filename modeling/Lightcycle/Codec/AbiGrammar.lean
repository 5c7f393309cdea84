/-
# The grammar of event signatures

What `EventSignature::parse` accepts, stated without it.  A signature is spelled by a
name and, for each parameter, its words (`Spelled`): blanks may stand anywhere around
them.  The words of a parameter are a type, perhaps `indexed`, perhaps a name
(`ParamForm`).  How a width is written and what counts as a name are parameters of the
form, because the parser is more lenient there than the grammar: it reads a width with
the standard integer parser (`Numeral`) and does not look at names at all.
-/

import Lightcycle.Codec.Abi

namespace Lightcycle

open Words (Blank Spells Lists)

/-! ### Types -/

/-- A width as the integer parser reads it: digits, perhaps behind a `+`. -/
def Numeral (n : ℕ) (w : List Char) : Prop :=
  ∃ d, (w = d ∨ w = '+' :: d) ∧ Decimal.Digits d ∧ Nat.ofDigitChars 10 d 0 = n

/-- A width as the grammar writes it. -/
def DecimalWidth (n : ℕ) (w : List Char) : Prop := w = Nat.toDigits 10 n

/-- A width without leading zeros is one of the texts `str::parse` reads as it. -/
theorem Numeral.of_decimalWidth {n : ℕ} {w : List Char} (h : DecimalWidth n w) : Numeral n w :=
  ⟨_, .inl h, Decimal.digits_toDigits n, Nat.ofDigitChars_ten_toDigits⟩

/-- The empty text is no number. -/
theorem Numeral.ne_nil {n : ℕ} {w : List Char} (h : Numeral n w) : w ≠ [] := by
  obtain ⟨d, rfl | rfl, hd, -⟩ := h
  · exact hd.1
  · exact List.cons_ne_nil _ _

/-- A text of digits has no sign that the parser could take off. -/
theorem plus_notMem {d : List Char} (hd : Decimal.Digits d) : d.head? ≠ some '+' := fun h =>
  absurd (hd.2 _ (List.mem_of_mem_head? h)) (by decide)

/-- **What `str::parse` accepts**: the texts of a number, with a sign and leading zeros, up
to the largest number of the type. -/
theorem parseUnsigned_eq_some {max n : ℕ} {w : List Char} :
    parseUnsigned max w = some n ↔ Numeral n w ∧ n ≤ max := by
  unfold parseUnsigned
  constructor
  · intro h
    by_cases hplus : w.head? = some '+'
    · obtain ⟨d, rfl⟩ : ∃ d, w = '+' :: d := List.head?_eq_some_iff.1 hplus
      simp only [hplus, if_true, List.tail_cons] at h
      split_ifs at h with hd hle
      obtain rfl := Option.some.inj h
      exact ⟨⟨d, .inr rfl, hd, rfl⟩, hle⟩
    · simp only [hplus, if_false] at h
      split_ifs at h with hd hle
      obtain rfl := Option.some.inj h
      exact ⟨⟨w, .inl rfl, hd, rfl⟩, hle⟩
  · rintro ⟨⟨d, rfl | rfl, hd, rfl⟩, hle⟩
    · simp only [plus_notMem hd, if_false, hd, hle, if_true]
    · simp only [List.head?_cons, List.tail_cons, hd, hle, if_true]

/-- The widths of `uint` and `int`. -/
def BitWidth (n : ℕ) : Prop := 8 ∣ n ∧ 0 < n ∧ n ≤ 256

/-- The widths of `bytes`. -/
def ByteWidth (n : ℕ) : Prop := 0 < n ∧ n ≤ 32

/-- The spellings of a type, given the spellings of a width. -/
def AbiType.SpelledBy (num : ℕ → List Char → Prop) : AbiType → List Char → Prop
  | .address, w => w = "address".toList
  | .bool, w => w = "bool".toList
  | .uint n, w => BitWidth n ∧ ∃ d, w = "uint".toList ++ d ∧ (d = [] ∧ n = 256 ∨ num n d)
  | .int n, w => BitWidth n ∧ ∃ d, w = "int".toList ++ d ∧ (d = [] ∧ n = 256 ∨ num n d)
  | .bytes n, w => ByteWidth n ∧ ∃ d, w = "bytes".toList ++ d ∧ num n d

/-- A type the parser can return. -/
def AbiType.Valid : AbiType → Prop
  | .address | .bool => True
  | .uint n | .int n => BitWidth n
  | .bytes n => ByteWidth n

/-- A width is accepted when it is a number in range that the check of the type does not
refuse. -/
theorem parseWidth_eq_ok {max n : ℕ} {bad : ℕ → Prop} [DecidablePred bad] {s d : List Char} :
    parseWidth max bad s d = .ok n ↔ Numeral n d ∧ n ≤ max ∧ ¬ bad n := by
  unfold parseWidth
  rw [← and_assoc, ← parseUnsigned_eq_some]
  cases parseUnsigned max d with
  | none => exact iff_of_false (fun h => by cases h) fun h => by cases h.1
  | some m =>
    simp only [Option.some.injEq]
    by_cases hm : bad m
    · rw [if_pos hm]
      refine iff_of_false (fun h => by cases h) ?_
      rintro ⟨rfl, h⟩
      exact h hm
    · rw [if_neg hm, Except.ok.injEq]
      exact ⟨fun h => ⟨h, h ▸ hm⟩, fun h => h.1⟩

/-- The bits of `uint` and `int`: none are 256, and the others are written out. -/
theorem parseBits_eq_ok {s d : List Char} {n : ℕ} :
    parseBits s d = .ok n ↔ BitWidth n ∧ (d = [] ∧ n = 256 ∨ Numeral n d) := by
  unfold parseBits
  cases d with
  | nil =>
    constructor
    · intro h
      obtain rfl := Except.ok.inj h
      exact ⟨⟨by norm_num, by norm_num, le_rfl⟩, .inl ⟨rfl, rfl⟩⟩
    · rintro ⟨-, ⟨-, rfl⟩ | h⟩
      · rfl
      · exact absurd rfl h.ne_nil
  | cons c d =>
    rw [List.isEmpty_cons, if_neg Bool.false_ne_true, parseWidth_eq_ok]
    constructor
    · rintro ⟨h, -, hn⟩
      exact ⟨⟨by omega, by omega, by omega⟩, .inr h⟩
    · rintro ⟨⟨h8, h0, h256⟩, ⟨h, -⟩ | h⟩
      · cases h
      · exact ⟨h, by omega, by omega⟩

/-- The width of `bytes` has to be written out. -/
theorem parseByteWidth_eq_ok {s d : List Char} {n : ℕ} :
    parseByteWidth s d = .ok n ↔ ByteWidth n ∧ Numeral n d := by
  unfold parseByteWidth
  cases d with
  | nil => exact iff_of_false (fun h => by cases h) fun h => absurd rfl h.2.ne_nil
  | cons c d =>
    rw [List.isEmpty_cons, if_neg Bool.false_ne_true, parseWidth_eq_ok]
    unfold ByteWidth
    constructor
    · rintro ⟨h, -, hn⟩
      exact ⟨⟨by omega, by omega⟩, h⟩
    · rintro ⟨⟨h0, h32⟩, h⟩
      exact ⟨h, by omega, by omega⟩

/-- The rest of a text is found when the prefix is in front of it. -/
theorem stripPrefix_eq_some {pre s d : List Char} : stripPrefix pre s = some d ↔ s = pre ++ d := by
  unfold stripPrefix
  by_cases h : pre.isPrefixOf s
  · obtain ⟨t, rfl⟩ := List.isPrefixOf_iff_prefix.1 h
    rw [if_pos h, List.drop_left, Option.some.injEq, List.append_cancel_left_eq]
  · rw [if_neg h]
    refine iff_of_false (fun h => by cases h) ?_
    rintro rfl
    exact h (List.isPrefixOf_iff_prefix.2 (List.prefix_append ..))

/-- A spelled type has no bracket: names of types are letters, widths digits. -/
theorem AbiType.SpelledBy.bracket_notMem {ty : AbiType} {w : List Char}
    (h : ty.SpelledBy Numeral w) : '[' ∉ w := by
  have hnum : ∀ {n d}, Numeral n d → '[' ∉ d := by
    rintro n d ⟨e, he, hd, -⟩ hmem
    have hmem' : '[' ∈ e := by
      rcases he with rfl | rfl
      · exact hmem
      · simpa using hmem
    exact absurd (hd.2 _ hmem') (by decide)
  have hbits : ∀ {n d}, d = [] ∧ n = 256 ∨ Numeral n d → '[' ∉ d := by
    rintro n d (⟨rfl, -⟩ | h)
    · exact List.not_mem_nil
    · exact hnum h
  cases ty with
  | address => rw [show w = _ from h]; decide
  | bool => rw [show w = _ from h]; decide
  | uint n =>
    obtain ⟨-, d, rfl, hd⟩ := h
    exact List.not_mem_append (by decide) (hbits hd)
  | int n =>
    obtain ⟨-, d, rfl, hd⟩ := h
    exact List.not_mem_append (by decide) (hbits hd)
  | bytes n =>
    obtain ⟨-, d, rfl, hd⟩ := h
    exact List.not_mem_append (by decide) (hnum hd)

/-- Without the prefix there is no rest. -/
theorem stripPrefix_eq_none {pre s : List Char} (h : ¬ pre <+: s) : stripPrefix pre s = none := by
  unfold stripPrefix
  rw [if_neg fun hp => h (List.isPrefixOf_iff_prefix.1 hp)]

/-- **What `parse_type` accepts:** the spellings with widths as the integer parser
reads them. -/
theorem parseType_eq_ok {w : List Char} {ty : AbiType} :
    parseType w = .ok ty ↔ ty.SpelledBy Numeral w := by
  constructor
  · intro h
    unfold parseType at h
    by_cases hb : '[' ∈ w
    · rw [if_pos hb] at h
      cases h
    rw [if_neg hb] at h
    by_cases haddr : w = "address".toList
    · rw [if_pos haddr] at h
      obtain rfl := Except.ok.inj h
      exact haddr
    rw [if_neg haddr] at h
    by_cases hbool : w = "bool".toList
    · rw [if_pos hbool] at h
      obtain rfl := Except.ok.inj h
      exact hbool
    rw [if_neg hbool] at h
    cases hu : stripPrefix "uint".toList w with
    | some d =>
      rw [hu] at h
      obtain ⟨n, hn, rfl⟩ := Decode.map_eq_ok.1 h
      have hn := parseBits_eq_ok.1 hn
      exact ⟨hn.1, d, stripPrefix_eq_some.1 hu, hn.2⟩
    | none =>
    rw [hu] at h
    cases hi : stripPrefix "int".toList w with
    | some d =>
      rw [hi] at h
      obtain ⟨n, hn, rfl⟩ := Decode.map_eq_ok.1 h
      have hn := parseBits_eq_ok.1 hn
      exact ⟨hn.1, d, stripPrefix_eq_some.1 hi, hn.2⟩
    | none =>
    rw [hi] at h
    cases hy : stripPrefix "bytes".toList w with
    | some d =>
      rw [hy] at h
      obtain ⟨n, hn, rfl⟩ := Decode.map_eq_ok.1 h
      have hn := parseByteWidth_eq_ok.1 hn
      exact ⟨hn.1, d, stripPrefix_eq_some.1 hy, hn.2⟩
    | none =>
      rw [hy] at h
      split_ifs at h
  · intro h
    unfold parseType
    rw [if_neg h.bracket_notMem]
    cases ty with
    | address => exact if_pos h
    | bool =>
      obtain rfl : w = "bool".toList := h
      rfl
    | uint n =>
      obtain ⟨hn, d, rfl, hd⟩ := h
      rw [if_neg (by simp), if_neg (by simp), stripPrefix_eq_some.2 rfl]
      exact Decode.map_eq_ok.2 ⟨n, parseBits_eq_ok.2 ⟨hn, hd⟩, rfl⟩
    | int n =>
      obtain ⟨hn, d, rfl, hd⟩ := h
      rw [if_neg (by simp), if_neg (by simp), stripPrefix_eq_none (by simp),
        stripPrefix_eq_some.2 rfl]
      exact Decode.map_eq_ok.2 ⟨n, parseBits_eq_ok.2 ⟨hn, hd⟩, rfl⟩
    | bytes n =>
      obtain ⟨hn, d, rfl, hd⟩ := h
      rw [if_neg (by simp), if_neg (by simp), stripPrefix_eq_none (by simp),
        stripPrefix_eq_none (by simp), stripPrefix_eq_some.2 rfl]
      exact Decode.map_eq_ok.2 ⟨n, parseByteWidth_eq_ok.2 ⟨hn, hd⟩, rfl⟩

/-! ### Parameters -/

/-- The words of a parameter whose type is spelled `w`. -/
def paramWords (w : List Char) (indexed : Bool) (name : List Char) : List (List Char) :=
  w :: ((if indexed then ["indexed".toList] else []) ++ if name.isEmpty then [] else [name])

/-- The words that are read as the parameter `p`.  `indexed` where a name could stand
is the flag. -/
def AbiParam.SpelledBy (num : ℕ → List Char → Prop) (p : AbiParam) (ts : List (List Char)) : Prop :=
  (∃ w, p.ty.SpelledBy num w ∧ ts = paramWords w p.indexed p.name) ∧
    (p.indexed = false → p.name ≠ "indexed".toList)

/-- A parameter is spelled by one word at least, that of its type. -/
theorem AbiParam.SpelledBy.ne_nil {num : ℕ → List Char → Prop} {p : AbiParam}
    {ts : List (List Char)} (h : p.SpelledBy num ts) : ts ≠ [] := by
  obtain ⟨⟨w, -, rfl⟩, -⟩ := h
  exact List.cons_ne_nil _ _

/-- The words of a parameter come apart into its type, flag and name, unless the name alone
would be taken for the flag. -/
theorem paramParts_paramWords {w name : List Char} {indexed : Bool}
    (h : indexed = false → name ≠ "indexed".toList) :
    paramParts (paramWords w indexed name) = some (w, indexed, name) := by
  cases indexed with
  | true => cases name <;> rfl
  | false =>
    cases name with
    | nil => rfl
    | cons c name => exact if_neg (h rfl)

/-- Conversely the words are those of the parts that they came apart into. -/
theorem eq_paramWords {ts : List (List Char)} (hts : ∀ t ∈ ts, t ≠ []) {w name : List Char}
    {indexed : Bool} (h : paramParts ts = some (w, indexed, name)) :
    ts = paramWords w indexed name ∧ (indexed = false → name ≠ "indexed".toList) := by
  have hname : ∀ t ∈ ts, t.isEmpty = false := fun t ht => by
    rw [List.isEmpty_eq_false_iff]
    exact hts t ht
  unfold paramWords
  match ts with
  | [ty] =>
    obtain ⟨rfl, rfl, rfl⟩ : ty = w ∧ false = indexed ∧ [] = name := by simpa [paramParts] using h
    exact ⟨rfl, fun _ h => by cases h⟩
  | [ty, x] =>
    replace h : (if x = "indexed".toList then some (ty, true, []) else some (ty, false, x)) =
        some (w, indexed, name) := h
    by_cases hx : x = "indexed".toList
    · rw [if_pos hx] at h
      obtain ⟨rfl, rfl, rfl⟩ : ty = w ∧ true = indexed ∧ [] = name := by simpa using h
      exact ⟨by rw [hx]; rfl, fun h => by cases h⟩
    · rw [if_neg hx] at h
      obtain ⟨rfl, rfl, rfl⟩ : ty = w ∧ false = indexed ∧ x = name := by simpa using h
      exact ⟨by simp [hname], fun _ => hx⟩
  | [ty, x, y] =>
    replace h : (if x = "indexed".toList then some (ty, true, y) else none) =
        some (w, indexed, name) := h
    split_ifs at h with hx
    obtain ⟨rfl, rfl, rfl⟩ : ty = w ∧ true = indexed ∧ y = name := by simpa using h
    exact ⟨by simp [hname, hx], fun h => by cases h⟩

/-- A parameter is read from its words, whatever the blanks between them. -/
theorem parseOneParam_eq_ok {s : List Char} {p : AbiParam} :
    parseOneParam s = .ok p ↔ p.SpelledBy Numeral (splitWhitespace s) := by
  have hts : ∀ t ∈ splitWhitespace s, t ≠ [] := fun t ht =>
    ((Words.spells_words s).word_of_mem ht).1
  unfold parseOneParam
  constructor
  · intro h
    cases hparts : paramParts (splitWhitespace s) with
    | none =>
      rw [hparts] at h
      cases h
    | some parts =>
      rw [hparts] at h
      obtain ⟨w, indexed, name⟩ := parts
      obtain ⟨ty, hty, h⟩ := Decode.bind_eq_ok.1 h
      obtain rfl := Except.ok.inj h
      obtain ⟨hwords, hname⟩ := eq_paramWords hts hparts
      exact ⟨⟨w, parseType_eq_ok.1 hty, hwords⟩, hname⟩
  · rintro ⟨⟨w, hw, hwords⟩, hname⟩
    rw [hwords, paramParts_paramWords hname]
    exact Decode.bind_eq_ok.2 ⟨p.ty, parseType_eq_ok.2 hw, rfl⟩

/-! ### Signatures -/

/-- The text between the parentheses: blanks when there is no parameter, else the
parameters with commas between them. -/
def BodySpelled (toks : List (List (List Char))) (body : List Char) : Prop :=
  toks = [] ∧ Blank isWhitespace body ∨
    Lists isWhitespace ',' toks body ∧ ∀ ts ∈ toks, ts ≠ []

/-- **The parameters read from a body** are those it spells, one for each piece between
commas. -/
theorem parseParamList_eq_ok {body : List Char} {ps : List AbiParam} :
    parseParamList body = .ok ps ↔
      ∃ toks, BodySpelled toks body ∧ List.Forall₂ (fun ts p => p.SpelledBy Numeral ts) toks ps := by
  have hfields : (List.splitOn ',' (trim body)).map splitWhitespace =
      Words.fields isWhitespace ',' body := Words.fields_trim (by decide) body
  have hparam : ∀ piece p, parseOneParam (trim piece) = .ok p ↔
      p.SpelledBy Numeral (splitWhitespace piece) := by
    intro piece p
    rw [parseOneParam_eq_ok]
    unfold splitWhitespace trim
    rw [Words.words_trim]
  -- the pieces that decode, as the fields of the body
  have hall : ((trim body).splitOn ',').mapM (fun tok => parseOneParam (trim tok)) = .ok ps ↔
      List.Forall₂ (fun ts p => p.SpelledBy Numeral ts) (Words.fields isWhitespace ',' body) ps := by
    simp only [Decode.mapM_eq_ok, ← hfields, List.forall₂_map_left_iff, hparam]
  unfold parseParamList
  by_cases hblank : Blank isWhitespace body
  · have htrim : trim body = [] := Words.trim_eq_nil_iff.2 hblank
    simp only [htrim, List.isEmpty_nil, if_true]
    constructor
    · intro h
      obtain rfl := Except.ok.inj h
      exact ⟨[], .inl ⟨rfl, hblank⟩, .nil⟩
    · rintro ⟨toks, ⟨rfl, -⟩ | ⟨hl, hne⟩, hps⟩
      · cases hps
        rfl
      · have h := Words.fields_eq_iff.2 hl
        rw [← hfields, htrim] at h
        subst h
        exact absurd rfl (hne _ List.mem_cons_self)
  · have htrim : (trim body).isEmpty = false := by
      rw [List.isEmpty_eq_false_iff]
      exact fun h => hblank (Words.trim_eq_nil_iff.1 h)
    simp only [htrim, Bool.false_eq_true, if_false, hall]
    constructor
    · intro h
      refine ⟨_, .inr ⟨Words.fields_eq_iff.1 rfl, fun ts hts => ?_⟩, h⟩
      obtain ⟨p, -, hp⟩ := Decode.exists_of_forall₂ h hts
      exact hp.ne_nil
    · rintro ⟨toks, ⟨-, h⟩ | ⟨hl, -⟩, hps⟩
      · exact absurd h hblank
      · rwa [Words.fields_eq_iff.2 hl]

/-- The text `s` is the name, `(`, the parameters and `)`, with blanks anywhere around. -/
structure Spelled (s name : List Char) (toks : List (List (List Char))) : Prop where
  ne_nil : name ≠ []
  trimmed : Words.Trimmed isWhitespace name
  open_notMem : '(' ∉ name
  text : ∃ a b body c, Blank isWhitespace a ∧ Blank isWhitespace b ∧ Blank isWhitespace c ∧
    s = a ++ (name ++ b ++ '(' :: (body ++ [')'])) ++ c ∧ BodySpelled toks body

/-- What `find` and `trim` make of a spelled text. -/
theorem Spelled.pieces {s name : List Char} {toks : List (List (List Char))}
    (h : Spelled s name toks) :
    ∃ body, (trim s).dropWhile (· != '(') = '(' :: (body ++ [')']) ∧
      (trim s).getLast? = some ')' ∧ trim ((trim s).takeWhile (· != '(')) = name ∧
      BodySpelled toks body := by
  obtain ⟨hne, htrimmed, hopen, a, b, body, c, ha, hb, hc, rfl, hbody⟩ := h
  have hs : trim (a ++ (name ++ b ++ '(' :: (body ++ [')'])) ++ c) =
      name ++ b ++ '(' :: (body ++ [')']) := by
    refine Words.trim_append ha ?_ hc
    have hclose : Words.Trimmed isWhitespace [')'] :=
      Words.Word.trimmed ⟨List.cons_ne_nil _ _, fun x hx => by rw [List.mem_singleton.1 hx]; rfl⟩
    have ht := htrimmed.append hclose hne (List.cons_ne_nil _ _) (b ++ '(' :: body)
    simpa using ht
  have hpre : ∀ x ∈ name ++ b, (x != '(') = true := by
    intro x hx
    rw [bne_iff_ne]
    rintro rfl
    exact List.not_mem_append hopen (hb.notMem (by decide)) hx
  rw [hs]
  refine ⟨body, ?_, ?_, ?_, hbody⟩
  · rw [List.dropWhile_append_of_pos hpre]
    rfl
  · rw [← List.cons_append, ← List.append_assoc, List.getLast?_append_of_ne_nil _ (by decide)]
    rfl
  · rw [List.takeWhile_append_of_pos hpre, List.takeWhile_cons_of_neg (by decide), List.append_nil]
    exact Words.trim_append Words.Blank.nil htrimmed hb

/-- The words of a body are determined by it. -/
theorem BodySpelled.unique {toks toks' : List (List (List Char))} {body : List Char}
    (h : BodySpelled toks body) (h' : BodySpelled toks' body) : toks = toks' := by
  have key : ∀ {toks}, Blank isWhitespace body → Lists isWhitespace ',' toks body →
      (∀ ts ∈ toks, ts ≠ []) → False := by
    intro toks hb hl hne
    have hf := Words.fields_eq_iff.2 hl
    rw [← Words.fields_trim (by decide), Words.trim_eq_nil_iff.2 hb] at hf
    subst hf
    exact hne _ List.mem_cons_self rfl
  rcases h with ⟨rfl, hb⟩ | ⟨hl, hne⟩ <;> rcases h' with ⟨rfl, hb'⟩ | ⟨hl', hne'⟩
  · rfl
  · exact (key hb hl' hne').elim
  · exact (key hb' hl hne).elim
  · rw [← Words.fields_eq_iff.2 hl, Words.fields_eq_iff.2 hl']

/-- **A text is spelled in one way.** Name and parameters are found again by the first
opening parenthesis and the commas, so two spellings of one text have the same words. -/
theorem Spelled.unique {s name name' : List Char} {toks toks' : List (List (List Char))}
    (h : Spelled s name toks) (h' : Spelled s name' toks') : name = name' ∧ toks = toks' := by
  obtain ⟨body, hrest, -, hname, hbody⟩ := h.pieces
  obtain ⟨body', hrest', -, hname', hbody'⟩ := h'.pieces
  rw [hrest] at hrest'
  have hb : body = body' := List.append_cancel_right (List.cons.inj hrest').2
  subst hb
  exact ⟨hname.symm.trans hname', hbody.unique hbody'⟩

/-- The text around the first `(` and the last `)` is spelled by what stands there. -/
theorem spelled_of_pieces {s rest : List Char} {toks : List (List (List Char))} {c : Char}
    (hrest : (trim s).dropWhile (· != '(') = c :: rest) (hlast : (trim s).getLast? = some ')')
    (hname : trim ((trim s).takeWhile (· != '(')) ≠ []) (hbody : BodySpelled toks rest.dropLast) :
    Spelled s (trim ((trim s).takeWhile (· != '('))) toks := by
  obtain ⟨a, d, ha, hd, hs⟩ := Words.exists_trim (p := isWhitespace) s
  have hc : c = '(' := by
    have h := List.head?_dropWhile_not (· != '(') (trim s)
    rw [hrest] at h
    simpa using h
  subst hc
  obtain ⟨pre, hpre⟩ : ∃ pre, (trim s).takeWhile (· != '(') = pre := ⟨_, rfl⟩
  have htext : trim s = pre ++ '(' :: rest := by
    rw [← hpre, ← hrest, List.takeWhile_append_dropWhile]
  have hopen : '(' ∉ pre := fun h => by
    rw [← hpre] at h
    simpa using List.mem_takeWhile_imp h
  have hclose : rest = rest.dropLast ++ [')'] := by
    rw [htext, List.getLast?_append_of_ne_nil _ (List.cons_ne_nil _ _)] at hlast
    cases rest using List.reverseRecOn with
    | nil => exact absurd hlast (by decide)
    | append_singleton rest x =>
      rw [← List.cons_append, List.getLast?_concat] at hlast
      rw [List.dropLast_concat, Option.some.inj hlast]
  rw [hpre] at hname ⊢
  obtain ⟨htrimmed, a', b, ha', hb, hsplit⟩ :=
    (Words.trim_eq_iff (p := isWhitespace) (l := pre)).1 rfl
  refine ⟨hname, htrimmed, fun h => hopen ?_,
    a ++ a', b, rest.dropLast, d, ha.append ha', hb, hd, ?_, hbody⟩
  · rw [hsplit]
    exact List.mem_append_left _ (List.mem_append_right _ h)
  · rw [← hclose]
    calc s = a ++ trim s ++ d := hs
      _ = a ++ ((a' ++ trim pre ++ b) ++ '(' :: rest) ++ d := by
        rw [htext]
        exact congrArg (fun l => a ++ (l ++ '(' :: rest) ++ d) hsplit
      _ = a ++ a' ++ (trim pre ++ b ++ '(' :: rest) ++ d := by simp only [List.append_assoc]

/-- **`parse` in terms of the spelling of its input.** It succeeds when the text has a
spelling whose words are parameters, and its result is the name, these parameters and the
topic of the canonical text. -/
theorem parse_eq_ok {keccak256 : List UInt8 → List.Vector UInt8 32} {s : List Char}
    {sig : EventSignature} :
    EventSignature.parse keccak256 s = .ok sig ↔
      (∃ toks, Spelled s sig.name toks ∧
        List.Forall₂ (fun ts p => p.SpelledBy Numeral ts) toks sig.params) ∧
      sig.topic0 = keccak256 (asBytes (canonicalSignature sig.name sig.params)) := by
  unfold EventSignature.parse
  constructor
  · intro h
    cases hrest : (trim s).dropWhile (· != '(') with
    | nil =>
      simp only [hrest] at h
      cases h
    | cons c rest =>
      simp only [hrest] at h
      split_ifs at h with hlast hname
      obtain ⟨params, hparams, h⟩ := Decode.bind_eq_ok.1 h
      obtain rfl := Except.ok.inj h
      obtain ⟨toks, hbody, hall⟩ := parseParamList_eq_ok.1 hparams
      rw [List.isEmpty_iff] at hname
      exact ⟨⟨toks, spelled_of_pieces hrest (not_not.1 hlast) hname hbody, hall⟩, rfl⟩
  · rintro ⟨⟨toks, hs, hall⟩, htopic⟩
    obtain ⟨body, hrest, hlast, hname, hbody⟩ := hs.pieces
    have hne : sig.name.isEmpty = false := List.isEmpty_eq_false_iff.2 hs.ne_nil
    simp only [hrest, hlast, hname, hne, ne_eq, not_true, if_false, Bool.false_eq_true,
      List.dropLast_concat]
    refine Decode.bind_eq_ok.2 ⟨sig.params, parseParamList_eq_ok.2 ⟨toks, hbody, hall⟩, ?_⟩
    rw [← htopic]
    rfl

end Lightcycle
