/-
# Messages with wide numbers

A `Message` of `Lightcycle.Lib.Schema` reads back every value of its type.  A model that
keeps an `int64` as an integer has values that no message carries.  A `Format` is a
message type over such a model: `Fits` says which values have their numbers within the
fields, and these are the values that are read back (`Format.decode_encode_iff`).

A `oneof` has at most one of its members.  Its records are read in order: those of one
member in a row are merged, as the occurrences of a sub-message are, and another member
takes the place of what was there.  So they are read run by run, every run has to be
readable, and the last one counts (`oneof`).
-/

import Lightcycle.Lib.Schema

namespace Protobuf

/-! ### Scalars -/

/-- The number of a varint. -/
def Value.varint? : Value → Option UInt64
  | .varint n => some n
  | .len _ | .other => none

/-- A varint is a value with a number. -/
theorem Value.varint_ne_other (n : UInt64) : Value.varint n ≠ .other := by rintro ⟨⟩

/-- Its number is read back. -/
theorem Value.varint?_varint (n : UInt64) : (Value.varint n).varint? = some n := rfl

/-- `uint64`. -/
def Scalar.uint64 : Scalar UInt64 where
  default := 0
  toValue := .varint
  ofValue := Value.varint?
  toValue_ne_other := Value.varint_ne_other
  ofValue_toValue := Value.varint?_varint

/-- `bool`: every number but 0 is `true`. -/
def Scalar.bool : Scalar Bool where
  default := false
  toValue b := .varint b.toUInt64
  ofValue v := v.varint?.map (· != 0)
  toValue_ne_other b := Value.varint_ne_other b.toUInt64
  ofValue_toValue b := by cases b <;> rfl

/-- `string`, of a model that keeps its characters. -/
def Scalar.text : Scalar (List Char) where
  default := []
  toValue cs := Scalar.string.toValue (String.ofList cs)
  ofValue v := (Scalar.string.ofValue v).map String.toList
  toValue_ne_other _ := Scalar.string.toValue_ne_other _
  ofValue_toValue cs := by
    rw [Scalar.string.ofValue_toValue, Option.map_some, String.toList_ofList]

/-- No records are written for nothing. -/
@[simp] theorem written_nil : Written [] := fun _ hr => (List.not_mem_nil hr).elim

section repeated

variable {α : Type} (k : Scalar α)

/-- Writes the elements of a repeated scalar, each under its own key. -/
def Scalar.putAll (n : ℕ) (as : List α) : List Record := as.map fun a => ⟨n, k.toValue a⟩

/-- A repeated field is written as one record for each value, in order. -/
@[simp] theorem Scalar.occ_putAll (n : ℕ) (as : List α) :
    occ n (k.putAll n as) = as.map k.toValue := by
  unfold occ Scalar.putAll
  rw [List.filter_eq_self.2 (by simp), List.map_map]
  rfl

/-- It writes no records of other fields. -/
@[simp] theorem Scalar.occ_putAll_of_ne {n m : ℕ} (h : m ≠ n) (as : List α) :
    occ n (k.putAll m as) = [] := by
  unfold occ Scalar.putAll
  rw [List.filter_eq_nil_iff.2 (by simp [h]), List.map_nil]

/-- Its records are ones that the wire format can carry. -/
@[simp] theorem Scalar.written_putAll {n : ℕ} (h0 : 0 < n) (hn : n < 2 ^ 29) (as : List α) :
    Written (k.putAll n as) := by
  intro r hr
  obtain ⟨a, -, rfl⟩ := List.mem_map.1 hr
  exact ⟨h0, hn, k.toValue_ne_other a⟩

/-- A repeated field is read back in order. -/
@[simp] theorem Scalar.getAll_map (as : List α) : k.getAll (as.map k.toValue) = some as := by
  unfold Scalar.getAll
  rw [mapM_eq_some, List.forall₂_map_left_iff, List.forall₂_same]
  exact fun a _ => k.ofValue_toValue a

end repeated

/-! ### Numbers -/

/-- The integers of an `int64`. -/
def FitsInt64 (i : ℤ) : Prop := -2 ^ 63 ≤ i ∧ i < 2 ^ 63

/-- The integers of an `int32`. -/
def FitsInt32 (i : ℤ) : Prop := -2 ^ 31 ≤ i ∧ i < 2 ^ 31

/-- The numbers of a `uint64`. -/
def FitsUInt64 (i : ℕ) : Prop := i < 2 ^ 64

instance (i : ℤ) : Decidable (FitsInt64 i) := inferInstanceAs (Decidable (_ ∧ _))
instance (i : ℤ) : Decidable (FitsInt32 i) := inferInstanceAs (Decidable (_ ∧ _))
instance (i : ℕ) : Decidable (FitsUInt64 i) := inferInstanceAs (Decidable (_ < _))

/-- An `i64` is within the range of `int64`. -/
theorem fitsInt64_toInt (a : Int64) : FitsInt64 a.toInt := ⟨a.le_toInt, a.toInt_lt⟩

/-- An `i32` is within the range of `int32`. -/
theorem fitsInt32_toInt (a : Int32) : FitsInt32 a.toInt := ⟨a.le_toInt, a.toInt_lt⟩

/-- Writes an integer, of 64 bits or of 32: either way its sign is in 64. -/
def putInt (n : ℕ) (i : ℤ) : List Record := Scalar.int64.put n (Int64.ofInt i)

/-- Reads an `int64`. -/
def getInt64 (vs : List Value) : Option ℤ := (Scalar.int64.get vs).map Int64.toInt

/-- Reads an `int32`. -/
def getInt32 (vs : List Value) : Option ℤ := (Scalar.int32.get vs).map Int32.toInt

/-- Writes a `uint64`. -/
def putNat (n : ℕ) (i : ℕ) : List Record := Scalar.uint64.put n (UInt64.ofNat i)

/-- Reads a `uint64`. -/
def getUInt64 (vs : List Value) : Option ℕ := (Scalar.uint64.get vs).map UInt64.toNat

/-- A signed field writes no records of other fields. -/
@[simp] theorem occ_putInt_of_ne {n m : ℕ} (h : m ≠ n) (i : ℤ) : occ n (putInt m i) = [] :=
  Scalar.int64.occ_put_of_ne h _

/-- Nor does an unsigned one. -/
@[simp] theorem occ_putNat_of_ne {n m : ℕ} (h : m ≠ n) (i : ℕ) : occ n (putNat m i) = [] :=
  Scalar.uint64.occ_put_of_ne h _

/-- The record of a signed field is one that the wire format can carry. -/
@[simp] theorem written_putInt {n : ℕ} (h0 : 0 < n) (hn : n < 2 ^ 29) (i : ℤ) :
    Written (putInt n i) := Scalar.int64.written_put h0 hn _

/-- So is the record of an unsigned one. -/
@[simp] theorem written_putNat {n : ℕ} (h0 : 0 < n) (hn : n < 2 ^ 29) (i : ℕ) :
    Written (putNat n i) := Scalar.uint64.written_put h0 hn _

/-- A number in range is read back from its `int64` field, also 0, which is not written. -/
@[simp] theorem getInt64_putInt {n : ℕ} {i : ℤ} (h : FitsInt64 i) :
    getInt64 (occ n (putInt n i)) = some i := by
  unfold getInt64 putInt
  rw [Scalar.get_put, Option.map_some, Int64.toInt_ofInt_of_le h.1 h.2]

/-- The low 32 bits are read of what was written with its sign in 64. -/
theorem Scalar.int32_get_put (n : ℕ) (a : Int64) :
    Scalar.int32.get (occ n (Scalar.int64.put n a)) = some a.toInt32 := by
  unfold Scalar.put Scalar.get
  by_cases h : a = 0
  · rw [h]
    rfl
  · rw [if_neg (show ¬ a = Scalar.int64.default from h)]
    simp [occ, Scalar.int32, Scalar.int64]

/-- So it is from its `int32` field. -/
@[simp] theorem getInt32_putInt {n : ℕ} {i : ℤ} (h : FitsInt32 i) :
    getInt32 (occ n (putInt n i)) = some i := by
  unfold FitsInt32 at h
  unfold getInt32 putInt
  rw [Scalar.int32_get_put, Option.map_some, Int64.toInt_toInt32,
    Int64.toInt_ofInt_of_le (by omega) (by omega), Int.bmod_eq_of_le (by omega) (by omega)]

/-- So it is from its `uint64` field. -/
@[simp] theorem getUInt64_putNat {n i : ℕ} (h : FitsUInt64 i) :
    getUInt64 (occ n (putNat n i)) = some i := by
  unfold getUInt64 putNat
  rw [Scalar.get_put, Option.map_some, UInt64.toNat_ofNat_of_lt' h]

/-- What is read from an `int64` field is in range. -/
theorem fits_of_getInt64 {vs : List Value} {i : ℤ} (h : getInt64 vs = some i) : FitsInt64 i := by
  obtain ⟨a, -, rfl⟩ := Option.map_eq_some_iff.1 h
  exact fitsInt64_toInt a

/-- So is what is read from an `int32` field. -/
theorem fits_of_getInt32 {vs : List Value} {i : ℤ} (h : getInt32 vs = some i) : FitsInt32 i := by
  obtain ⟨a, -, rfl⟩ := Option.map_eq_some_iff.1 h
  exact fitsInt32_toInt a

/-- So is what is read from a `uint64` field. -/
theorem fits_of_getUInt64 {vs : List Value} {i : ℕ} (h : getUInt64 vs = some i) :
    FitsUInt64 i := by
  obtain ⟨a, -, rfl⟩ := Option.map_eq_some_iff.1 h
  exact a.toNat_lt

/-! ### Formats -/

/-- A message type whose values may have numbers too wide for their fields. -/
structure Format (α : Type) where
  Fits : α → Prop
  records : α → List Record
  read : ℕ → List Record → Option α
  written : ∀ a, Written (records a)
  read_records : ∀ depth a, Fits a → (print (records a)).length < 2 ^ 64 →
    read depth (records a) = some a
  fits_of_read : ∀ depth rs a, read depth rs = some a → Fits a

section read

variable {α : Type} {read : List Record → Option α} {P : α → Prop} {depth : ℕ} {vs : List Value}

/-- What holds of all that is read holds of the elements of a repeated sub-message. -/
theorem forall_of_readAll {as : List α} (hP : ∀ rs a, read rs = some a → P a)
    (h : readAll read depth vs = some as) : ∀ a ∈ as, P a := by
  intro a ha
  obtain ⟨i, hi, rfl⟩ := List.getElem_of_mem ha
  have hall := parse_of_readAll h
  obtain ⟨rs, -, hread⟩ := hall.get (hall.length_eq ▸ hi) hi
  exact hP rs _ hread

/-- What holds of every message that is read holds of the one in the field. -/
theorem forall_of_readOne {a : Option α} (hP : ∀ rs a, read rs = some a → P a)
    (h : readOne read depth vs = some a) : ∀ b ∈ a.toList, P b := by
  intro b hb
  obtain rfl := Option.mem_toList.1 hb
  obtain ⟨rs, -, hread⟩ := parse_of_readOne h
  exact hP rs b hread

end read

/-- An element of a text is shorter than the text. -/
theorem length_of_mem_texts {rs : List Record} (n : ℕ) (texts : List (List UInt8))
    (hrs : Scalar.bytes.putAll n texts ⊆ rs) (hlen : (print rs).length < 2 ^ 64) :
    ∀ text ∈ texts, text.length < 2 ^ 64 := fun _ h =>
  (length_le_print (hrs (List.mem_map_of_mem h)) rfl).trans_lt hlen

section format

variable {α : Type} (f : Format α)

/-- The text of a message. -/
def Format.encode (a : α) : List UInt8 := print (f.records a)

/-- Reads a text as a message. -/
def Format.decode (depth : ℕ) (bs : List UInt8) : Option α := do
  let rs ← parse depth bs
  f.read depth rs

/-- The records of a message are found in its encoding. -/
theorem Format.parse_encode {depth : ℕ} {a : α} (h : (f.encode a).length < 2 ^ 64) :
    parse depth (f.encode a) = some (f.records a) :=
  parse_print (ok_of_written (f.written a) h)

/-- **What fits is read back, and only that.** A number out of its field is read as another
one, so a message is its own reading exactly when all its numbers fit. -/
theorem Format.decode_encode_iff {depth : ℕ} {a : α} (h : (f.encode a).length < 2 ^ 64) :
    f.decode depth (f.encode a) = some a ↔ f.Fits a := by
  unfold Format.decode
  rw [f.parse_encode h]
  exact ⟨f.fits_of_read depth _ a, fun hfits => f.read_records depth a hfits h⟩

/-- Writes the elements of a repeated sub-message. -/
def Format.putAll (n : ℕ) (as : List α) : List Record := Scalar.bytes.putAll n (as.map f.encode)

/-- Writes a sub-message. -/
def Format.putOne (n : ℕ) (a : Option α) : List Record := f.putAll n a.toList

/-- A repeated message is written as the encodings of its elements. -/
@[simp] theorem Format.putAll_eq (n : ℕ) (as : List α) :
    f.putAll n as = Scalar.bytes.putAll n (as.map f.encode) := rfl

/-- A message that may be missing is written as a list of at most one. -/
@[simp] theorem Format.putOne_eq (n : ℕ) (a : Option α) : f.putOne n a = f.putAll n a.toList := rfl

variable {f} {depth : ℕ}

/-- An encoded message inside a field is read back, when it fits. -/
theorem Format.records_bytes {a : α} (hfits : f.Fits a) (hlen : (f.encode a).length < 2 ^ 64) :
    (Value.records depth (Scalar.bytes.toValue (f.encode a)) >>= f.read depth) = some a := by
  have hparse : Value.records depth (Scalar.bytes.toValue (f.encode a)) = some (f.records a) :=
    f.parse_encode hlen
  rw [hparse]
  exact f.read_records depth a hfits hlen

/-- Elements that fit and are short enough are read back. -/
theorem Format.readAll_map {as : List α} (hfits : ∀ a ∈ as, f.Fits a)
    (hlen : ∀ text ∈ as.map f.encode, text.length < 2 ^ 64) :
    readAll (f.read depth) depth ((as.map f.encode).map Scalar.bytes.toValue) = some as := by
  unfold readAll
  rw [List.map_map, mapM_eq_some, List.forall₂_map_left_iff, List.forall₂_same]
  exact fun a ha => Format.records_bytes (hfits a ha) (hlen _ (List.mem_map_of_mem ha))

/-- So is the field of one that may be missing. -/
theorem Format.readOne_map {a : Option α} (hfits : ∀ b ∈ a.toList, f.Fits b)
    (hlen : ∀ text ∈ a.toList.map f.encode, text.length < 2 ^ 64) :
    readOne (f.read depth) depth ((a.toList.map f.encode).map Scalar.bytes.toValue) = some a := by
  cases a with
  | none => rfl
  | some a =>
    have ha := hlen _ (List.mem_singleton_self (f.encode a))
    have hparse : Value.records depth (Scalar.bytes.toValue (f.encode a)) = some (f.records a) :=
      f.parse_encode ha
    have hread := f.read_records depth a (hfits a (List.mem_singleton_self a)) ha
    unfold readOne
    simp [hparse, hread]

/-- What was read of a repeated sub-message fits. -/
theorem Format.fits_of_readAll {vs : List Value} {as : List α}
    (h : readAll (f.read depth) depth vs = some as) : ∀ a ∈ as, f.Fits a :=
  forall_of_readAll (f.fits_of_read depth) h

/-- A message that was read from a field fits. -/
theorem Format.fits_of_readOne {vs : List Value} {a : Option α}
    (h : readOne (f.read depth) depth vs = some a) : ∀ b ∈ a.toList, f.Fits b :=
  forall_of_readOne (f.fits_of_read depth) h

end format

/-! ### A `oneof` -/

/-- The records of some fields. -/
def among (ns : List ℕ) (rs : List Record) : List Record := rs.filter fun r => r.tag ∈ ns

/-- The records of some fields are found in either part. -/
@[simp] theorem among_append (ns : List ℕ) (rs rs' : List Record) :
    among ns (rs ++ rs') = among ns rs ++ among ns rs' := List.filter_append ..

/-- A field that is not among them adds none. -/
@[simp] theorem Scalar.among_put {α : Type} [DecidableEq α] (k : Scalar α) {ns : List ℕ} {n : ℕ}
    (h : n ∉ ns) (a : α) : among ns (k.put n a) = [] := by
  unfold Scalar.put among
  split_ifs
  · rfl
  · simp [h]

/-- Nor does a signed field that is not among them. -/
@[simp] theorem among_putInt {ns : List ℕ} {n : ℕ} (h : n ∉ ns) (i : ℤ) :
    among ns (putInt n i) = [] := Scalar.int64.among_put h _

/-- Maximal runs of records under one number. -/
def runs (rs : List Record) : List (List Record) := rs.splitBy fun r r' => r.tag == r'.tag

/-- Reads a run by its number. -/
def readRun {α : Type} (read : ℕ → List Value → Option α) (run : List Record) : Option α :=
  run.head?.bind fun r => read r.tag (run.map Record.value)

/-- Reads the `oneof` of the numbers `ns`; `read n` reads a run under the number `n`. -/
def oneof {α : Type} (ns : List ℕ) (read : ℕ → List Value → Option α) (rs : List Record) :
    Option (Option α) :=
  ((runs (among ns rs)).mapM (readRun read)).map List.getLast?

/-- A `oneof` that is not there. -/
theorem oneof_nil {α : Type} {ns : List ℕ} (read : ℕ → List Value → Option α) {rs : List Record}
    (h : among ns rs = []) : oneof ns read rs = some none := by
  unfold oneof
  rw [h]
  rfl

/-- A `oneof` that is there once. -/
theorem oneof_singleton {α : Type} {ns : List ℕ} {read : ℕ → List Value → Option α}
    {rs : List Record} {r : Record} {a : α} (h : among ns rs = [r])
    (hread : read r.tag [r.value] = some a) : oneof ns read rs = some (some a) := by
  have hruns : runs [r] = [[r]] := rfl
  have hrun : readRun read [r] = some a := hread
  unfold oneof
  rw [h, hruns, List.mapM_cons, hrun]
  rfl

/-- What was read of a `oneof` was read of a run. -/
theorem exists_of_oneof {α : Type} {ns : List ℕ} {read : ℕ → List Value → Option α}
    {rs : List Record} {a : α} (h : oneof ns read rs = some (some a)) :
    ∃ n vs, read n vs = some a := by
  obtain ⟨as, has, hlast⟩ := Option.map_eq_some_iff.1 h
  have hmem : a ∈ as := List.mem_of_getLast? hlast
  obtain ⟨i, hi, rfl⟩ := List.getElem_of_mem hmem
  have hall := mapM_eq_some.1 has
  obtain ⟨r, -, hread⟩ := Option.bind_eq_some_iff.1 (hall.get (hall.length_eq ▸ hi) hi)
  exact ⟨r.tag, _, hread⟩

end Protobuf
