/-
# The protobuf wire format

A message is a sequence of records, each a key and a value.  The key is a varint with
the number of the field and one of six wire types; a value is a varint, 8 or 4 bytes, a
length and that many bytes, or a group of records up to its end key.  `parse` reads the
records of a message, `print` writes them.

A varint has at most ten bytes and 64 bits, and need not be the shortest: the same
number, and so the same message, has many texts.  `print` writes the shortest, and
`parse_print` is that it is read back.  Messages behave under concatenation
(`parse_append`), which is what makes merging two occurrences of a sub-message the same
as reading them as one.
-/

import Mathlib

namespace Protobuf

/-! ### Varints -/

/-- The shortest varint of a number, at most `fuel` bytes. -/
def varintBytes : ℕ → ℕ → List UInt8
  | 0, _ => []
  | fuel + 1, n =>
    if n < 128 then [UInt8.ofNat n]
    else UInt8.ofNat (n % 128 + 128) :: varintBytes fuel (n / 128)

/-- The shortest varint of a 64-bit number. -/
def varint (n : ℕ) : List UInt8 := varintBytes 10 n

/-- Reads a varint of at most `fuel` bytes.  The last byte that may be there holds one
bit. -/
def readVarintNat : ℕ → List UInt8 → Option (ℕ × List UInt8)
  | 0, _ => none
  | _ + 1, [] => none
  | fuel + 1, b :: bs =>
    if b.toNat < 128 then
      if fuel = 0 ∧ 2 ≤ b.toNat then none else some (b.toNat, bs)
    else do
      let (n, rest) ← readVarintNat fuel bs
      return (b.toNat - 128 + 128 * n, rest)

/-- Reads a varint. -/
def readVarint (bs : List UInt8) : Option (ℕ × List UInt8) := readVarintNat 10 bs

/-- **A varint is read back**, when it has no more bytes than are read and the number fits
them. -/
theorem readVarintNat_varintBytes {k n : ℕ} (hn : n < 2 ^ (7 * k + 1)) (rest : List UInt8) :
    readVarintNat (k + 1) (varintBytes (k + 1) n ++ rest) = some (n, rest) := by
  induction k generalizing n with
  | zero =>
    have hlt : n < 128 := by omega
    have hb : (UInt8.ofNat n).toNat = n := by
      rw [UInt8.toNat_ofNat']
      omega
    rw [varintBytes, if_pos hlt, List.singleton_append, readVarintNat, hb, if_pos hlt,
      if_neg (by omega)]
  | succ k ih =>
    rw [varintBytes]
    by_cases hlt : n < 128
    · have hb : (UInt8.ofNat n).toNat = n := by
        rw [UInt8.toNat_ofNat']
        omega
      rw [if_pos hlt, List.singleton_append, readVarintNat, hb, if_pos hlt, if_neg (by omega)]
    · have hb : (UInt8.ofNat (n % 128 + 128)).toNat = n % 128 + 128 := by
        rw [UInt8.toNat_ofNat']
        omega
      have hdiv : n / 128 < 2 ^ (7 * k + 1) := by
        rw [Nat.div_lt_iff_lt_mul (by norm_num)]
        calc n < 2 ^ (7 * (k + 1) + 1) := hn
          _ = 2 ^ (7 * k + 1) * 2 ^ 7 := by rw [← pow_add]; congr 1
      have hn : n % 128 + 128 - 128 + 128 * (n / 128) = n := by omega
      rw [if_neg hlt, List.cons_append, readVarintNat, hb, if_neg (by omega), ih hdiv]
      simp only [Option.bind_eq_bind, Option.bind_some, hn, Option.pure_def]

/-- **A written varint is read back**, in front of anything, for every number that ten bytes
hold. -/
theorem readVarint_varint {n : ℕ} (hn : n < 2 ^ 64) (rest : List UInt8) :
    readVarint (varint n ++ rest) = some (n, rest) :=
  readVarintNat_varintBytes hn rest

/-- Reading a varint does not look at what comes behind it. -/
theorem readVarintNat_append {fuel n : ℕ} {bs rest : List UInt8}
    (h : readVarintNat fuel bs = some (n, rest)) (q : List UInt8) :
    readVarintNat fuel (bs ++ q) = some (n, rest ++ q) := by
  induction fuel generalizing bs n rest with
  | zero => cases h
  | succ fuel ih =>
    cases bs with
    | nil => cases h
    | cons b bs =>
      rw [List.cons_append]
      unfold readVarintNat at h ⊢
      split_ifs at h ⊢ with hlt hlast
      · obtain ⟨rfl, rfl⟩ := Prod.mk.inj (Option.some.inj h)
        rfl
      · obtain ⟨⟨m, r⟩, hread, h⟩ := Option.bind_eq_some_iff.1 h
        obtain ⟨rfl, rfl⟩ := Prod.mk.inj (Option.some.inj h)
        rw [ih hread]
        rfl

/-- The same of a varint of ten bytes at most. -/
theorem readVarint_append {n : ℕ} {bs rest : List UInt8} (h : readVarint bs = some (n, rest))
    (q : List UInt8) : readVarint (bs ++ q) = some (n, rest ++ q) := readVarintNat_append h q

/-- A varint takes at least one byte. -/
theorem length_of_readVarintNat {fuel n : ℕ} {bs rest : List UInt8}
    (h : readVarintNat fuel bs = some (n, rest)) : rest.length < bs.length := by
  induction fuel generalizing bs n rest with
  | zero => cases h
  | succ fuel ih =>
    cases bs with
    | nil => cases h
    | cons b bs =>
      unfold readVarintNat at h
      split_ifs at h with hlt hlast
      · obtain ⟨rfl, rfl⟩ := Prod.mk.inj (Option.some.inj h)
        exact Nat.lt_succ_self _
      · obtain ⟨⟨m, r⟩, hread, h⟩ := Option.bind_eq_some_iff.1 h
        obtain ⟨rfl, rfl⟩ := Prod.mk.inj (Option.some.inj h)
        exact Nat.lt_succ_of_lt (ih hread)

/-- Every number takes a byte. -/
theorem varint_ne_nil (n : ℕ) : varint n ≠ [] := by
  unfold varint varintBytes
  split_ifs
  · exact List.cons_ne_nil _ _
  · exact List.cons_ne_nil _ _

/-! ### Records -/

/-- The value of a record; of fixed-width values and groups only that they are there. -/
inductive Value where
  | varint (n : UInt64)
  | len (bytes : List UInt8)
  | other
deriving DecidableEq

/-- The bytes of a length-delimited value. -/
def Value.len? : Value → Option (List UInt8)
  | .len bytes => some bytes
  | _ => none

/-- The bytes of a length-delimited value, none of another one. -/
def Value.bytes (v : Value) : List UInt8 := v.len?.getD []

/-- A field of a message as it stands in the text. -/
structure Record where
  tag : ℕ
  value : Value
deriving DecidableEq

/-- Reads a key, at most a `u32`: the number of the field, not 0, and the wire type. -/
def readKey (bs : List UInt8) : Option (ℕ × ℕ × List UInt8) := do
  let (key, rest) ← readVarint bs
  if 2 ^ 32 ≤ key ∨ key / 8 = 0 then none else return (key / 8, key % 8, rest)

/-- Reads `n` bytes. -/
def readBytes (n : ℕ) (bs : List UInt8) : Option (List UInt8 × List UInt8) :=
  if bs.length < n then none else some (bs.take n, bs.drop n)

/-- Reads a value that is not a group. -/
def readValue (wireType : ℕ) (bs : List UInt8) : Option (Value × List UInt8) :=
  match wireType with
  | 0 => (readVarint bs).map fun (n, rest) => (.varint (UInt64.ofNat n), rest)
  | 1 => (readBytes 8 bs).map fun (_, rest) => (.other, rest)
  | 2 => do
    let (n, bs) ← readVarint bs
    let (bytes, rest) ← readBytes n bs
    return (.len bytes, rest)
  | 5 => (readBytes 4 bs).map fun (_, rest) => (.other, rest)
  | _ => none

/-- Skips the rest of a group and of the groups around it: `opened` are the numbers of
the open groups, the innermost first, and an end key closes the innermost.  Within
`depth` open groups nothing but an end key is read.  Every round takes a byte at least,
so the length of the text is enough fuel. -/
def skipGroup (depth : ℕ) : ℕ → List ℕ → List UInt8 → Option (List UInt8)
  | _, [], bs => some bs
  | 0, _ :: _, _ => none
  | fuel + 1, tag :: opened, bs => do
    let (tag', wireType, bs) ← readKey bs
    if wireType = 4 then
      if tag' = tag then skipGroup depth fuel opened bs else none
    else if depth ≤ opened.length + 1 then none
    else if wireType = 3 then skipGroup depth fuel (tag' :: tag :: opened) bs
    else do
      let (_, bs) ← readValue wireType bs
      skipGroup depth fuel (tag :: opened) bs

/-- Reads a record.  An end key without a group is refused. -/
def readRecord (depth : ℕ) (bs : List UInt8) : Option (Record × List UInt8) := do
  let (tag, wireType, bs) ← readKey bs
  if wireType = 3 then do
    let rest ← skipGroup depth bs.length [tag] bs
    return (⟨tag, .other⟩, rest)
  else do
    let (value, rest) ← readValue wireType bs
    return (⟨tag, value⟩, rest)

/-- Reads records to the end of the text; the length of the text is enough fuel. -/
def parseFuel (depth : ℕ) : ℕ → List UInt8 → Option (List Record)
  | _, [] => some []
  | 0, _ :: _ => none
  | fuel + 1, b :: bs => do
    let (r, rest) ← readRecord depth (b :: bs)
    let rs ← parseFuel depth fuel rest
    return r :: rs

/-- The records of a message; groups nest less than `depth` deep. -/
def parse (depth : ℕ) (bs : List UInt8) : Option (List Record) := parseFuel depth bs.length bs

/-- Writes a record. -/
def Record.print (r : Record) : List UInt8 :=
  match r.value with
  | .varint n => Protobuf.varint (8 * r.tag) ++ Protobuf.varint n.toNat
  | .len bytes => Protobuf.varint (8 * r.tag + 2) ++ (Protobuf.varint bytes.length ++ bytes)
  | .other => []

/-- Writes the records of a message. -/
def print (rs : List Record) : List UInt8 := rs.flatMap Record.print

/-- A record that can be written: the key is a `u32`, the length a `u64`. -/
def Record.Ok (r : Record) : Prop :=
  0 < r.tag ∧ r.tag < 2 ^ 29 ∧
    match r.value with
    | .varint _ => True
    | .len bytes => bytes.length < 2 ^ 64
    | .other => False

/-! ### Written records are read back -/

/-- The key of a record is read back, for any field number the format has. -/
theorem readKey_varint {tag wireType : ℕ} (h0 : 0 < tag) (htag : tag < 2 ^ 29) (hw : wireType < 8)
    (rest : List UInt8) :
    readKey (varint (8 * tag + wireType) ++ rest) = some (tag, wireType, rest) := by
  unfold readKey
  rw [readVarint_varint (by omega)]
  have hdiv : (8 * tag + wireType) / 8 = tag := by omega
  have hmod : (8 * tag + wireType) % 8 = wireType := by omega
  simp only [Option.bind_eq_bind, Option.bind_some, hdiv, hmod]
  exact if_neg (by omega)

/-- Bytes are read back by their length. -/
theorem readBytes_append (bytes rest : List UInt8) :
    readBytes bytes.length (bytes ++ rest) = some (bytes, rest) := by
  unfold readBytes
  rw [if_neg (by rw [List.length_append]; omega), List.take_left, List.drop_left]

/-- **A record is read back** from in front of anything. -/
theorem readRecord_print {depth : ℕ} {r : Record} (hr : r.Ok) (rest : List UInt8) :
    readRecord depth (r.print ++ rest) = some (r, rest) := by
  obtain ⟨tag, value⟩ := r
  obtain ⟨h0, htag, hvalue⟩ := hr
  unfold readRecord Record.print
  cases value with
  | varint n =>
    have hkey := @readKey_varint tag 0 h0 htag (by norm_num) (varint n.toNat ++ rest)
    simp only [Nat.add_zero] at hkey
    have hval : readValue 0 (varint n.toNat ++ rest) = some (.varint n, rest) := by
      unfold readValue
      simp only [readVarint_varint n.toNat_lt, Option.map_some, UInt64.ofNat_toNat]
    simp only [List.append_assoc, hkey, hval, Option.bind_eq_bind, Option.bind_some]
    rfl
  | len bytes =>
    have hkey := @readKey_varint tag 2 h0 htag (by norm_num)
      (varint bytes.length ++ (bytes ++ rest))
    have hval : readValue 2 (varint bytes.length ++ (bytes ++ rest)) = some (.len bytes, rest) := by
      unfold readValue
      simp only [readVarint_varint hvalue, readBytes_append, Option.bind_eq_bind, Option.bind_some]
      rfl
    simp only [List.append_assoc, hkey, hval, Option.bind_eq_bind, Option.bind_some]
    rfl
  | other => exact hvalue.elim

/-- Every record takes a byte, so a list of records ends with its bytes. -/
theorem Record.print_ne_nil {r : Record} (hr : r.Ok) : r.print ≠ [] := by
  obtain ⟨tag, value⟩ := r
  cases value with
  | varint n | len bytes => exact List.append_ne_nil_of_left_ne_nil (varint_ne_nil _) _
  | other => exact hr.2.2.elim

/-- Bytes that are left start another record. -/
theorem parseFuel_ne_nil {depth fuel : ℕ} {bs : List UInt8} (hbs : bs ≠ []) :
    parseFuel depth (fuel + 1) bs = (do
      let (r, rest) ← readRecord depth bs
      let rs ← parseFuel depth fuel rest
      return r :: rs) := by
  cases bs with
  | nil => exact absurd rfl hbs
  | cons b bs => rfl

/-- **Written records are read back**, in order, whatever field numbers and values they
have. -/
theorem parse_print {depth : ℕ} {rs : List Record} (hrs : ∀ r ∈ rs, r.Ok) :
    parse depth (print rs) = some rs := by
  have key : ∀ fuel, (print rs).length ≤ fuel → parseFuel depth fuel (print rs) = some rs := by
    induction rs with
    | nil =>
      intro fuel _
      cases fuel <;> rfl
    | cons r rs ih =>
      intro fuel hfuel
      have hr := hrs r List.mem_cons_self
      have hprint : print (r :: rs) = r.print ++ print rs := List.flatMap_cons
      have hpos : 0 < r.print.length := List.length_pos_iff.2 (Record.print_ne_nil hr)
      rw [hprint, List.length_append] at hfuel
      obtain ⟨fuel, rfl⟩ : ∃ n, fuel = n + 1 := ⟨fuel - 1, by omega⟩
      rw [hprint, parseFuel_ne_nil (List.append_ne_nil_of_left_ne_nil (Record.print_ne_nil hr) _),
        readRecord_print hr]
      simp only [Option.bind_eq_bind, Option.bind_some,
        ih (fun x hx => hrs x (List.mem_cons_of_mem _ hx)) fuel (by omega)]
      rfl
  exact key _ le_rfl

/-! ### Reading goes on behind a message -/

/-- Reading a key does not look at what comes behind it. -/
theorem readKey_append {tag wireType : ℕ} {bs rest : List UInt8}
    (h : readKey bs = some (tag, wireType, rest)) (q : List UInt8) :
    readKey (bs ++ q) = some (tag, wireType, rest ++ q) := by
  obtain ⟨⟨key, r⟩, hread, h⟩ := Option.bind_eq_some_iff.1 h
  unfold readKey
  simp only [readVarint_append hread, Option.bind_eq_bind, Option.bind_some] at h ⊢
  split_ifs at h ⊢ with hkey
  obtain ⟨rfl, rfl, rfl⟩ : key / 8 = tag ∧ key % 8 = wireType ∧ r = rest := by simpa using h
  rfl

/-- Nor does reading bytes. -/
theorem readBytes_append_right {n : ℕ} {bs bytes rest : List UInt8}
    (h : readBytes n bs = some (bytes, rest)) (q : List UInt8) :
    readBytes n (bs ++ q) = some (bytes, rest ++ q) := by
  unfold readBytes at h ⊢
  split_ifs at h with hlt
  obtain ⟨rfl, rfl⟩ := Prod.mk.inj (Option.some.inj h)
  rw [if_neg (by rw [List.length_append]; omega), List.take_append_of_le_length (by omega),
    List.drop_append_of_le_length (by omega)]

/-- Nor does reading a value. -/
theorem readValue_append {wireType : ℕ} {value : Value} {bs rest : List UInt8}
    (h : readValue wireType bs = some (value, rest)) (q : List UInt8) :
    readValue wireType (bs ++ q) = some (value, rest ++ q) := by
  unfold readValue at h ⊢
  match wireType with
  | 0 =>
    obtain ⟨⟨n, r⟩, hread, h⟩ := Option.map_eq_some_iff.1 h
    obtain ⟨rfl, rfl⟩ := Prod.mk.inj h
    simp only [readVarint_append hread, Option.map_some]
  | 1 | 5 =>
    obtain ⟨⟨bytes, r⟩, hread, h⟩ := Option.map_eq_some_iff.1 h
    obtain ⟨rfl, rfl⟩ := Prod.mk.inj h
    simp only [readBytes_append_right hread, Option.map_some]
  | 2 =>
    obtain ⟨⟨n, r⟩, hread, h⟩ := Option.bind_eq_some_iff.1 h
    obtain ⟨⟨bytes, r'⟩, hbytes, h⟩ := Option.bind_eq_some_iff.1 h
    obtain ⟨rfl, rfl⟩ := Prod.mk.inj (Option.some.inj h)
    simp only [readVarint_append hread, readBytes_append_right hbytes, Option.bind_eq_bind,
      Option.bind_some]
    rfl
  | 3 | 4 | _ + 6 => cases h

/-- Nor does skipping a group; more steps than were needed do not matter. -/
theorem skipGroup_append {depth fuel fuel' : ℕ} {opened : List ℕ} {bs rest : List UInt8}
    (h : skipGroup depth fuel opened bs = some rest) (hfuel : fuel ≤ fuel') (q : List UInt8) :
    skipGroup depth fuel' opened (bs ++ q) = some (rest ++ q) := by
  induction fuel generalizing fuel' opened bs with
  | zero =>
    cases opened with
    | nil =>
      obtain rfl := Option.some.inj h
      cases fuel' <;> rfl
    | cons tag opened => cases h
  | succ fuel ih =>
    cases opened with
    | nil =>
      obtain rfl := Option.some.inj h
      cases fuel' <;> rfl
    | cons tag opened =>
      obtain ⟨fuel', rfl⟩ : ∃ n, fuel' = n + 1 := ⟨fuel' - 1, by omega⟩
      have hle : fuel ≤ fuel' := by omega
      unfold skipGroup at h ⊢
      obtain ⟨⟨tag', wireType, r⟩, hkey, h⟩ := Option.bind_eq_some_iff.1 h
      simp only [readKey_append hkey, Option.bind_eq_bind, Option.bind_some] at h ⊢
      split_ifs at h ⊢ with hend htag hdepth hstart
      · exact ih h hle
      · exact ih h hle
      · obtain ⟨⟨value, r'⟩, hvalue, h⟩ := Option.bind_eq_some_iff.1 h
        simp only [readValue_append hvalue, Option.bind_some]
        exact ih h hle

/-- Nor does reading a record. -/
theorem readRecord_append {depth : ℕ} {r : Record} {bs rest : List UInt8}
    (h : readRecord depth bs = some (r, rest)) (q : List UInt8) :
    readRecord depth (bs ++ q) = some (r, rest ++ q) := by
  unfold readRecord at h ⊢
  obtain ⟨⟨tag, wireType, bs'⟩, hkey, h⟩ := Option.bind_eq_some_iff.1 h
  simp only [readKey_append hkey, Option.bind_eq_bind, Option.bind_some] at h ⊢
  split_ifs at h ⊢ with hgroup
  · obtain ⟨rest', hskip, h⟩ := Option.bind_eq_some_iff.1 h
    obtain ⟨rfl, rfl⟩ := Prod.mk.inj (Option.some.inj h)
    have hle : bs'.length ≤ (bs' ++ q).length := by rw [List.length_append]; omega
    simp only [skipGroup_append hskip hle, Option.bind_some]
    rfl
  · obtain ⟨⟨value, rest'⟩, hvalue, h⟩ := Option.bind_eq_some_iff.1 h
    obtain ⟨rfl, rfl⟩ := Prod.mk.inj (Option.some.inj h)
    simp only [readValue_append hvalue, Option.bind_some]
    rfl

/-- More steps than were needed give the same records. -/
theorem parseFuel_mono {depth fuel fuel' : ℕ} {bs : List UInt8} {rs : List Record}
    (h : parseFuel depth fuel bs = some rs) (hfuel : fuel ≤ fuel') :
    parseFuel depth fuel' bs = some rs := by
  induction fuel generalizing fuel' bs rs with
  | zero =>
    cases bs with
    | nil => cases fuel' <;> exact h
    | cons b bs => cases h
  | succ fuel ih =>
    cases bs with
    | nil => cases fuel' <;> exact h
    | cons b bs =>
      obtain ⟨fuel', rfl⟩ : ∃ n, fuel' = n + 1 := ⟨fuel' - 1, by omega⟩
      unfold parseFuel at h ⊢
      obtain ⟨⟨r, rest⟩, hread, h⟩ := Option.bind_eq_some_iff.1 h
      obtain ⟨rs', hrs, h⟩ := Option.bind_eq_some_iff.1 h
      simp only [hread, ih hrs (show fuel ≤ fuel' by omega), Option.bind_eq_bind, Option.bind_some]
      exact h

/-- **The records of two messages in a row are those of the first and of the second**, which
is how prost merges a field that occurs twice. -/
theorem parse_append {depth : ℕ} {p q : List UInt8} {rs rs' : List Record}
    (hp : parse depth p = some rs) (hq : parse depth q = some rs') :
    parse depth (p ++ q) = some (rs ++ rs') := by
  have key : ∀ fuel p rs, parseFuel depth fuel p = some rs →
      parseFuel depth (fuel + q.length) (p ++ q) = some (rs ++ rs') := by
    intro fuel
    induction fuel with
    | zero =>
      intro p rs h
      cases p with
      | nil =>
        obtain rfl := Option.some.inj h
        exact parseFuel_mono hq (by omega)
      | cons b p => cases h
    | succ fuel ih =>
      intro p rs h
      cases p with
      | nil =>
        obtain rfl := Option.some.inj h
        exact parseFuel_mono hq (by omega)
      | cons b p =>
        unfold parseFuel at h
        obtain ⟨⟨r, rest⟩, hread, h⟩ := Option.bind_eq_some_iff.1 h
        obtain ⟨rs₁, hrs, h⟩ := Option.bind_eq_some_iff.1 h
        obtain rfl := Option.some.inj h
        have hfuel : fuel + 1 + q.length = fuel + q.length + 1 := by omega
        rw [hfuel, parseFuel_ne_nil (by simp), readRecord_append hread]
        simp only [ih rest rs₁ hrs, Option.bind_eq_bind, Option.bind_some]
        rfl
  unfold parse
  rw [List.length_append]
  exact key _ p rs hp

/-! ### The length of a text -/

/-- A key takes a byte at least. -/
theorem length_of_readKey {tag wireType : ℕ} {bs rest : List UInt8}
    (h : readKey bs = some (tag, wireType, rest)) : rest.length < bs.length := by
  obtain ⟨⟨key, r⟩, hread, h⟩ := Option.bind_eq_some_iff.1 h
  simp only at h
  split_ifs at h
  obtain ⟨-, -, rfl⟩ : key / 8 = tag ∧ key % 8 = wireType ∧ r = rest := by simpa using h
  exact length_of_readVarintNat hread

/-- The bytes read and those left are the ones that were there. -/
theorem length_of_readBytes {n : ℕ} {bs bytes rest : List UInt8}
    (h : readBytes n bs = some (bytes, rest)) : bytes.length + rest.length = bs.length := by
  unfold readBytes at h
  split_ifs at h
  obtain ⟨rfl, rfl⟩ := Prod.mk.inj (Option.some.inj h)
  rw [List.length_take, List.length_drop]
  omega

/-- The bytes of a value are part of what was read. -/
theorem length_of_readValue {wireType : ℕ} {value : Value} {bs rest : List UInt8}
    (h : readValue wireType bs = some (value, rest)) :
    value.bytes.length + rest.length ≤ bs.length := by
  unfold readValue at h
  match wireType with
  | 0 =>
    obtain ⟨⟨n, r⟩, hread, h⟩ := Option.map_eq_some_iff.1 h
    obtain ⟨rfl, rfl⟩ := Prod.mk.inj h
    have hlt := length_of_readVarintNat hread
    exact (Nat.zero_add _).trans_le hlt.le
  | 1 | 5 =>
    obtain ⟨⟨bytes, r⟩, hread, h⟩ := Option.map_eq_some_iff.1 h
    obtain ⟨rfl, rfl⟩ := Prod.mk.inj h
    have heq := length_of_readBytes hread
    exact (Nat.zero_add _).trans_le (by omega)
  | 2 =>
    obtain ⟨⟨n, r⟩, hread, h⟩ := Option.bind_eq_some_iff.1 h
    obtain ⟨⟨bytes, r'⟩, hbytes, h⟩ := Option.bind_eq_some_iff.1 h
    obtain ⟨rfl, rfl⟩ := Prod.mk.inj (Option.some.inj h)
    exact (length_of_readBytes hbytes).trans_le (length_of_readVarintNat hread).le
  | 3 | 4 | _ + 6 => cases h

/-- Any two numbers of steps that suffice skip a group alike. -/
theorem skipGroup_fuel {depth fuel fuel' : ℕ} {opened : List ℕ} {bs : List UInt8}
    (h : bs.length ≤ fuel) (h' : bs.length ≤ fuel') :
    skipGroup depth fuel opened bs = skipGroup depth fuel' opened bs := by
  induction fuel generalizing fuel' opened bs with
  | zero =>
    obtain rfl := List.length_eq_zero_iff.1 (Nat.le_zero.1 h)
    cases opened with
    | nil => cases fuel' <;> rfl
    | cons tag opened => cases fuel' <;> rfl
  | succ fuel ih =>
    cases opened with
    | nil => cases fuel' <;> rfl
    | cons tag opened =>
      cases fuel' with
      | zero =>
        obtain rfl := List.length_eq_zero_iff.1 (Nat.le_zero.1 h')
        rfl
      | succ fuel' =>
        unfold skipGroup
        refine Option.bind_congr fun ⟨tag', wireType, r⟩ hkey => ?_
        have hlt := length_of_readKey hkey
        have hr : ∀ {opened}, skipGroup depth fuel opened r = skipGroup depth fuel' opened r :=
          ih (by omega) (by omega)
        simp only [hr]
        split_ifs
        · rfl
        · rfl
        · rfl
        · rfl
        · refine Option.bind_congr fun ⟨value, r'⟩ hvalue => ?_
          have hle := length_of_readValue hvalue
          exact ih (show r'.length ≤ fuel by omega) (show r'.length ≤ fuel' by omega)

/-- Skipping a group leaves no more than there was. -/
theorem length_of_skipGroup {depth fuel : ℕ} {opened : List ℕ} {bs rest : List UInt8}
    (h : skipGroup depth fuel opened bs = some rest) : rest.length ≤ bs.length := by
  induction fuel generalizing opened bs with
  | zero =>
    cases opened with
    | nil => exact (congrArg List.length (Option.some.inj h)).ge
    | cons tag opened => cases h
  | succ fuel ih =>
    cases opened with
    | nil => exact (congrArg List.length (Option.some.inj h)).ge
    | cons tag opened =>
      unfold skipGroup at h
      obtain ⟨⟨tag', wireType, r⟩, hkey, h⟩ := Option.bind_eq_some_iff.1 h
      have hlt := length_of_readKey hkey
      simp only at h
      split_ifs at h
      · exact (ih h).trans hlt.le
      · exact (ih h).trans hlt.le
      · obtain ⟨⟨value, r'⟩, hvalue, h⟩ := Option.bind_eq_some_iff.1 h
        have hle := length_of_readValue hvalue
        exact (ih h).trans (show r'.length ≤ bs.length by omega)

/-- A record takes a byte more than its value has at least, so parsing ends. -/
theorem length_of_readRecord {depth : ℕ} {r : Record} {bs rest : List UInt8}
    (h : readRecord depth bs = some (r, rest)) :
    r.value.bytes.length + rest.length < bs.length := by
  obtain ⟨⟨tag, wireType, bs'⟩, hkey, h⟩ := Option.bind_eq_some_iff.1 h
  have hlt := length_of_readKey hkey
  simp only at h
  split_ifs at h
  · obtain ⟨rest', hskip, h⟩ := Option.bind_eq_some_iff.1 h
    obtain ⟨rfl, rfl⟩ := Prod.mk.inj (Option.some.inj h)
    exact (Nat.zero_add _).trans_lt ((length_of_skipGroup hskip).trans_lt hlt)
  · obtain ⟨⟨value, rest'⟩, hvalue, h⟩ := Option.bind_eq_some_iff.1 h
    obtain ⟨rfl, rfl⟩ := Prod.mk.inj (Option.some.inj h)
    exact (length_of_readValue hvalue).trans_lt hlt

/-- The values of a message are together no longer than its text. -/
theorem length_of_parse {depth : ℕ} {bs : List UInt8} {rs : List Record}
    (h : parse depth bs = some rs) : (rs.flatMap fun r => r.value.bytes).length ≤ bs.length := by
  have key : ∀ fuel bs rs, parseFuel depth fuel bs = some rs →
      (rs.flatMap fun r => r.value.bytes).length ≤ bs.length := by
    intro fuel
    induction fuel with
    | zero =>
      intro bs rs h
      cases bs with
      | nil =>
        obtain rfl := Option.some.inj h
        exact le_rfl
      | cons b bs => cases h
    | succ fuel ih =>
      intro bs rs h
      cases bs with
      | nil =>
        obtain rfl := Option.some.inj h
        exact le_rfl
      | cons b bs =>
        unfold parseFuel at h
        obtain ⟨⟨r, rest⟩, hread, h⟩ := Option.bind_eq_some_iff.1 h
        obtain ⟨rs', hrs, h⟩ := Option.bind_eq_some_iff.1 h
        obtain rfl := Option.some.inj h
        have hlt := length_of_readRecord hread
        have hle := ih rest rs' hrs
        rw [List.flatMap_cons, List.length_append]
        omega
  exact key _ bs rs h

/-- **The reader never stops for want of fuel**: every record takes a byte, so as many steps
as there are bytes suffice. -/
theorem parseFuel_eq_parse {depth fuel : ℕ} {bs : List UInt8} (h : bs.length ≤ fuel) :
    parseFuel depth fuel bs = parse depth bs := by
  have key : ∀ fuel fuel' bs, bs.length ≤ fuel → bs.length ≤ fuel' →
      parseFuel depth fuel bs = parseFuel depth fuel' bs := by
    intro fuel
    induction fuel with
    | zero =>
      intro fuel' bs h _
      obtain rfl := List.length_eq_zero_iff.1 (Nat.le_zero.1 h)
      cases fuel' <;> rfl
    | succ fuel ih =>
      intro fuel' bs h h'
      cases bs with
      | nil => cases fuel' <;> rfl
      | cons b bs =>
        obtain ⟨fuel', rfl⟩ : ∃ n, fuel' = n + 1 := ⟨fuel' - 1, by rw [List.length_cons] at h'; omega⟩
        unfold parseFuel
        refine Option.bind_congr fun ⟨r, rest⟩ hread => ?_
        have hlt := length_of_readRecord hread
        simp only [ih fuel' rest (by omega) (by omega)]
  exact key fuel bs.length bs h le_rfl

end Protobuf
