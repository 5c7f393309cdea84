/-
# Typed protobuf messages

A message type over the records of `Lightcycle.Lib.Protobuf`.  A field is read from the
values that stand under its number (`occ`): the last wins for a scalar, all of them in
order make a repeated field, and the occurrences of a sub-message are read as one
message.  A scalar is written unless it has its default.  Records under other numbers
are ignored when reading and never written.

A kind of scalar (`Scalar`) and a message type (`Message`) carry the law that what is
written is read back; `Message.decode_encode` is that law for texts.  The converse fails,
for a text may have unknown fields, fields in another order, defaults written out and
varints that are not the shortest: `Canonical` is the property of the texts that are the
encoding of a message, and on them decoding and encoding again changes nothing
(`Canonical.reencode`).

The depth bounds how groups nest; a schema without recursion bounds its sub-messages.
-/

import Lightcycle.Lib.Protobuf

namespace Protobuf

/-- The values under a number. -/
def occ (n : ℕ) (rs : List Record) : List Value :=
  (rs.filter fun r => r.tag = n).map Record.value

/-- No records, no occurrences. -/
@[simp] theorem occ_nil (n : ℕ) : occ n [] = [] := rfl

/-- The occurrences of a field are found in either part, in order. -/
@[simp] theorem occ_append (n : ℕ) (rs rs' : List Record) :
    occ n (rs ++ rs') = occ n rs ++ occ n rs' := by
  unfold occ
  rw [List.filter_append, List.map_append]

/-- A record that can be written but for the length of its value. -/
def Record.Written (r : Record) : Prop := 0 < r.tag ∧ r.tag < 2 ^ 29 ∧ r.value ≠ .other

/-- The bytes of a length-delimited value are part of the text. -/
theorem length_le_print {rs : List Record} {r : Record} (hr : r ∈ rs) {bytes : List UInt8}
    (hv : r.value = .len bytes) : bytes.length ≤ (print rs).length := by
  induction rs with
  | nil => cases hr
  | cons r' rs ih =>
    unfold print at ih ⊢
    rw [List.flatMap_cons, List.length_append]
    rcases List.mem_cons.1 hr with rfl | hr
    · unfold Record.print
      rw [hv]
      simp only [List.length_append]
      omega
    · exact (ih hr).trans (Nat.le_add_left _ _)

/-- Records that can be written. -/
def Written (rs : List Record) : Prop := ∀ r ∈ rs, r.Written

/-- Both parts are written. -/
@[simp] theorem written_append {rs rs' : List Record} :
    Written (rs ++ rs') ↔ Written rs ∧ Written rs' := List.forall_mem_append

/-- Written records are ones the wire format reads back, when they are not too long. -/
theorem ok_of_written {rs : List Record} (hrs : Written rs)
    (hlen : (print rs).length < 2 ^ 64) : ∀ r ∈ rs, r.Ok := by
  intro r hr
  obtain ⟨h0, htag, hother⟩ := hrs r hr
  refine ⟨h0, htag, ?_⟩
  cases hv : r.value with
  | varint n => trivial
  | len bytes => exact (length_le_print hr hv).trans_lt hlen
  | other => exact hother hv

/-! ### Scalars -/

/-- A kind of scalar, written and read as a value. -/
structure Scalar (α : Type) where
  default : α
  toValue : α → Value
  ofValue : Value → Option α
  toValue_ne_other : ∀ a, toValue a ≠ .other
  ofValue_toValue : ∀ a, ofValue (toValue a) = some a

/-- `int64`. -/
def Scalar.int64 : Scalar Int64 where
  default := 0
  toValue a := .varint a.toUInt64
  ofValue
    | .varint n => some n.toInt64
    | _ => none
  toValue_ne_other _ h := by cases h
  ofValue_toValue a := by simp

/-- `int32` and the enumerations: written with its sign in 64 bits, read from the low 32. -/
def Scalar.int32 : Scalar Int32 where
  default := 0
  toValue a := .varint a.toInt64.toUInt64
  ofValue
    | .varint n => some n.toInt64.toInt32
    | _ => none
  toValue_ne_other _ h := by cases h
  ofValue_toValue a := by simp

/-- Bytes with a length are a value. -/
theorem Value.len_ne_other (bytes : List UInt8) : Value.len bytes ≠ .other := by
  intro h
  cases h

/-- `bytes`. -/
def Scalar.bytes : Scalar (List UInt8) where
  default := []
  toValue := .len
  ofValue := Value.len?
  toValue_ne_other := Value.len_ne_other
  ofValue_toValue _ := rfl

/-- `string`: the bytes have to be UTF-8. -/
def Scalar.string : Scalar String where
  default := ""
  toValue s := .len s.toByteArray.data.toList
  ofValue v := v.len?.bind fun bytes => String.fromUTF8? ⟨bytes.toArray⟩
  toValue_ne_other _ := Value.len_ne_other _
  ofValue_toValue s := by
    have hbytes : (⟨s.toByteArray.data.toList.toArray⟩ : ByteArray) = s.toByteArray := by
      rw [Array.toArray_toList]
    rw [Value.len?, Option.bind_some, hbytes]
    exact dif_pos s.isValidUTF8

section scalar

variable {α : Type} (k : Scalar α)

/-- The scalar under a number: every value there is of the kind, the last one counts. -/
def Scalar.get (vs : List Value) : Option α := vs.foldlM (fun _ v => k.ofValue v) k.default

/-- The elements of a repeated scalar. -/
def Scalar.getAll (vs : List Value) : Option (List α) := vs.mapM k.ofValue

/-- Writes a scalar. -/
def Scalar.put [DecidableEq α] (n : ℕ) (a : α) : List Record :=
  if a = k.default then [] else [⟨n, k.toValue a⟩]

variable [DecidableEq α]

/-- **A field is read back**, also when it has its default and is not written. -/
@[simp] theorem Scalar.get_put (n : ℕ) (a : α) : k.get (occ n (k.put n a)) = some a := by
  unfold Scalar.put Scalar.get
  by_cases h : a = k.default
  · rw [if_pos h, h]
    rfl
  · rw [if_neg h]
    simp [occ, k.ofValue_toValue]

/-- A field writes no records of other fields. -/
@[simp] theorem Scalar.occ_put_of_ne {n m : ℕ} (h : m ≠ n) (a : α) : occ n (k.put m a) = [] := by
  unfold Scalar.put
  split_ifs
  · rfl
  · simp [occ, h]

/-- The record of a field is one that the wire format can carry. -/
@[simp] theorem Scalar.written_put {n : ℕ} (h0 : 0 < n) (hn : n < 2 ^ 29) (a : α) :
    Written (k.put n a) := by
  intro r hr
  unfold Scalar.put at hr
  split_ifs at hr
  · cases hr
  · rw [List.mem_singleton.1 hr]
    exact ⟨h0, hn, k.toValue_ne_other a⟩

end scalar

/-! ### Sub-messages -/

/-- The records of a sub-message. -/
def Value.records (depth : ℕ) : Value → Option (List Record)
  | .len bytes => parse depth bytes
  | _ => none

/-- The sub-message under a number: its occurrences are read as one message. -/
def readOne {α : Type} (read : List Record → Option α) (depth : ℕ) (vs : List Value) :
    Option (Option α) :=
  if vs.isEmpty then some none
  else do
    let rss ← vs.mapM (Value.records depth)
    let a ← read rss.flatten
    return some a

/-- The elements of a repeated sub-message. -/
def readAll {α : Type} (read : List Record → Option α) (depth : ℕ) (vs : List Value) :
    Option (List α) :=
  vs.mapM fun v => v.records depth >>= read

/-- A list is read when each element is, in order. -/
theorem mapM_eq_some {α β : Type} {f : α → Option β} {l : List α} {bs : List β} :
    l.mapM f = some bs ↔ List.Forall₂ (fun a b => f a = some b) l bs := by
  induction l generalizing bs with
  | nil =>
    rw [List.mapM_nil, List.forall₂_nil_left_iff]
    exact ⟨fun h => (Option.some.inj h).symm, fun h => congrArg some h.symm⟩
  | cons a l ih =>
    rw [List.mapM_cons, List.forall₂_cons_left_iff]
    constructor
    · intro h
      obtain ⟨b, hb, h⟩ := Option.bind_eq_some_iff.1 h
      obtain ⟨bs', hbs', h⟩ := Option.bind_eq_some_iff.1 h
      exact ⟨b, bs', hb, ih.1 hbs', (Option.some.inj h).symm⟩
    · rintro ⟨b, bs', hb, hbs', rfl⟩
      exact Option.bind_eq_some_iff.2
        ⟨b, hb, Option.bind_eq_some_iff.2 ⟨bs', ih.2 hbs', rfl⟩⟩

/-- The records of a value are those of its bytes. -/
theorem Value.parse_bytes {depth : ℕ} {v : Value} {rs : List Record}
    (h : v.records depth = some rs) : parse depth v.bytes = some rs := by
  cases v with
  | len bytes => exact h
  | varint | other => cases h

/-- Occurrences that are read as one message are its parts. -/
theorem parse_flatMap_bytes {depth : ℕ} {vs : List Value} {rss : List (List Record)}
    (h : vs.mapM (Value.records depth) = some rss) :
    parse depth (vs.flatMap Value.bytes) = some rss.flatten := by
  have hall := mapM_eq_some.1 h
  clear h
  induction hall with
  | nil => rfl
  | cons hv _ ih =>
    rw [List.flatMap_cons, List.flatten_cons]
    exact parse_append (Value.parse_bytes hv) ih

/-- A sub-message is read from its occurrences, one after the other. -/
theorem parse_of_readOne {α : Type} {read : List Record → Option α} {depth : ℕ} {vs : List Value}
    {a : α} (h : readOne read depth vs = some (some a)) :
    ∃ rs, parse depth (vs.flatMap Value.bytes) = some rs ∧ read rs = some a := by
  unfold readOne at h
  split_ifs at h
  · cases h
  · obtain ⟨rss, hrss, h⟩ := Option.bind_eq_some_iff.1 h
    obtain ⟨a', ha, h⟩ := Option.bind_eq_some_iff.1 h
    obtain rfl := Option.some.inj (Option.some.inj h)
    exact ⟨_, parse_flatMap_bytes hrss, ha⟩

/-- The elements of a repeated sub-message are read from their occurrences. -/
theorem parse_of_readAll {α : Type} {read : List Record → Option α} {depth : ℕ} {vs : List Value}
    {as : List α} (h : readAll read depth vs = some as) :
    List.Forall₂ (fun v a => ∃ rs, parse depth v.bytes = some rs ∧ read rs = some a) vs as := by
  refine (mapM_eq_some.1 h).imp fun v a hv => ?_
  obtain ⟨rs, hrs, ha⟩ := Option.bind_eq_some_iff.1 hv
  exact ⟨rs, Value.parse_bytes hrs, ha⟩

/-! ### The text of a field -/

/-- The texts under a number in a text, one for each occurrence. -/
def fieldTexts (depth n : ℕ) (bs : List UInt8) : List (List UInt8) :=
  match parse depth bs with
  | some rs => (occ n rs).map Value.bytes
  | none => []

/-- The text under a number: the occurrences, one after the other. -/
def fieldText (depth n : ℕ) (bs : List UInt8) : List UInt8 := (fieldTexts depth n bs).flatten

/-- The texts of a field are the bytes of its records. -/
theorem fieldTexts_of_parse {depth n : ℕ} {bs : List UInt8} {rs : List Record}
    (h : parse depth bs = some rs) : fieldTexts depth n bs = (occ n rs).map Value.bytes := by
  unfold fieldTexts
  rw [h]

/-- Behind each other they are what a merged field is read from. -/
theorem fieldText_of_parse {depth n : ℕ} {bs : List UInt8} {rs : List Record}
    (h : parse depth bs = some rs) : fieldText depth n bs = (occ n rs).flatMap Value.bytes := by
  unfold fieldText
  rw [fieldTexts_of_parse h, List.flatMap_def]

/-- The text of a field is no longer than the text it is in. -/
theorem length_fieldText (depth n : ℕ) (bs : List UInt8) :
    (fieldText depth n bs).length ≤ bs.length := by
  cases h : parse depth bs with
  | none =>
    unfold fieldText fieldTexts
    rw [h]
    exact Nat.zero_le _
  | some rs =>
    have hsub : ((rs.filter fun r => r.tag = n).flatMap fun r => r.value.bytes).length ≤
        (rs.flatMap fun r => r.value.bytes).length :=
      (List.filter_sublist.flatMap _).length_le
    rw [fieldText_of_parse h, occ, List.flatMap_map]
    exact hsub.trans (length_of_parse h)

/-- The text of a field is no longer than the message. -/
theorem length_of_mem_fieldTexts {depth n : ℕ} {bs text : List UInt8}
    (h : text ∈ fieldTexts depth n bs) : text.length ≤ bs.length :=
  (List.sublist_flatten_of_mem h).length_le.trans (length_fieldText depth n bs)

/-! ### Messages -/

/-- A message type: the records a message is written as, and how it is read from
records when groups may nest less than `depth` deep. -/
structure Message (α : Type) where
  records : α → List Record
  read : ℕ → List Record → Option α
  written : ∀ a, Written (records a)
  read_records : ∀ depth a, (print (records a)).length < 2 ^ 64 → read depth (records a) = some a

section message

variable {α : Type} (m : Message α)

/-- The text of a message. -/
def Message.encode (a : α) : List UInt8 := print (m.records a)

/-- Reads a text as a message. -/
def Message.decode (depth : ℕ) (bs : List UInt8) : Option α := do
  let rs ← parse depth bs
  m.read depth rs

/-- The records of a message are found in its encoding. -/
theorem Message.parse_encode {depth : ℕ} {a : α} (h : (m.encode a).length < 2 ^ 64) :
    parse depth (m.encode a) = some (m.records a) :=
  parse_print (ok_of_written (m.written a) h)

/-- **What was written is read back**, field by field, for any schema of fields and nested
messages, as long as the text is not too long. -/
theorem Message.decode_encode {depth : ℕ} {a : α} (h : (m.encode a).length < 2 ^ 64) :
    m.decode depth (m.encode a) = some a := by
  unfold Message.decode
  rw [m.parse_encode h]
  exact m.read_records depth a h

/-- Writes a sub-message. -/
def Message.putOne (n : ℕ) (a : Option α) : List Record := a.toList.map fun a => ⟨n, .len (m.encode a)⟩

/-- Writes the elements of a repeated sub-message. -/
def Message.putAll (n : ℕ) (as : List α) : List Record := as.map fun a => ⟨n, .len (m.encode a)⟩

/-- A message that may be missing is written as a list of at most one. -/
@[simp] theorem Message.putOne_eq (n : ℕ) (a : Option α) : m.putOne n a = m.putAll n a.toList := rfl

/-- A repeated message is written as one record for each element, in order. -/
@[simp] theorem Message.occ_putAll (n : ℕ) (as : List α) :
    occ n (m.putAll n as) = as.map fun a => .len (m.encode a) := by
  unfold occ Message.putAll
  rw [List.filter_eq_self.2 (by simp), List.map_map]
  rfl

/-- It writes no records of other fields. -/
@[simp] theorem Message.occ_putAll_of_ne {n k : ℕ} (h : k ≠ n) (as : List α) :
    occ n (m.putAll k as) = [] := by
  unfold occ Message.putAll
  rw [List.filter_eq_nil_iff.2 (by simp [h]), List.map_nil]

/-- Its records are ones that the wire format can carry. -/
@[simp] theorem Message.written_putAll {n : ℕ} (h0 : 0 < n) (hn : n < 2 ^ 29) (as : List α) :
    Written (m.putAll n as) := by
  intro r hr
  obtain ⟨a, -, rfl⟩ := List.mem_map.1 hr
  exact ⟨h0, hn, fun h => by cases h⟩

/-- Elements that are short enough are read back. -/
theorem Message.readAll_map {depth : ℕ} {as : List α} (h : ∀ a ∈ as, (m.encode a).length < 2 ^ 64) :
    readAll (m.read depth) depth (as.map fun a => .len (m.encode a)) = some as := by
  unfold readAll
  induction as with
  | nil => rfl
  | cons a as ih =>
    have ha := h a List.mem_cons_self
    have hread : (Value.records depth (.len (m.encode a)) >>= m.read depth) = some a := by
      simp only [Value.records, m.parse_encode ha, Option.bind_eq_bind, Option.bind_some]
      exact m.read_records depth a ha
    rw [List.map_cons, List.mapM_cons, ih fun b hb => h b (List.mem_cons_of_mem _ hb)]
    simp only [hread, Option.bind_eq_bind, Option.bind_some]
    rfl

/-- A message that may be missing is read back. -/
theorem Message.readOne_map {depth : ℕ} {a : Option α}
    (h : ∀ b ∈ a.toList, (m.encode b).length < 2 ^ 64) :
    readOne (m.read depth) depth (a.toList.map fun a => .len (m.encode a)) = some a := by
  cases a with
  | none => rfl
  | some a =>
    have ha := h a (List.mem_singleton_self a)
    unfold readOne
    simp only [Option.toList_some, List.map_singleton, List.isEmpty_cons, Bool.false_eq_true,
      if_false, List.mapM_cons, List.mapM_nil, Value.records, m.parse_encode ha,
      Option.bind_eq_bind, Option.bind_some, Option.pure_def, List.flatten_cons, List.flatten_nil,
      List.append_nil, m.read_records depth a ha]

/-- An element of a text is shorter than the text. -/
theorem Message.length_of_mem {rs : List Record} (n : ℕ) (as : List α)
    (hrs : m.putAll n as ⊆ rs) (hlen : (print rs).length < 2 ^ 64) :
    ∀ a ∈ as, (m.encode a).length < 2 ^ 64 := fun _ ha =>
  (length_le_print (hrs (List.mem_map_of_mem ha)) rfl).trans_lt hlen

/-- A text that is the encoding of a message. -/
def Canonical (bs : List UInt8) : Prop := ∃ a, bs = m.encode a

/-- A sub-message is decoded from the text of its field. -/
theorem Message.decode_of_readOne {depth : ℕ} {vs : List Value} {a : α}
    (h : readOne (m.read depth) depth vs = some (some a)) :
    m.decode depth (vs.flatMap Value.bytes) = some a := by
  obtain ⟨rs, hrs, ha⟩ := parse_of_readOne h
  unfold Message.decode
  rw [hrs]
  exact ha

/-- **Decoding a canonical text and encoding again changes nothing**: with every field at
its place and no unknown ones, the bytes are determined by the message. -/
theorem Canonical.reencode {bs : List UInt8} (h : Canonical m bs) (hlen : bs.length < 2 ^ 64)
    {depth : ℕ} {a : α} (ha : m.decode depth bs = some a) : m.encode a = bs := by
  obtain ⟨b, rfl⟩ := h
  rw [m.decode_encode hlen] at ha
  rw [Option.some.inj ha]

/-- A text is its own re-encoding when it is canonical. -/
theorem Message.encode_eq_iff {depth : ℕ} {bs : List UInt8} {a : α}
    (ha : m.decode depth bs = some a) (hlen : bs.length < 2 ^ 64) :
    m.encode a = bs ↔ Canonical m bs :=
  ⟨fun h => ⟨a, h.symm⟩, fun h => h.reencode m hlen ha⟩

end message

end Protobuf
