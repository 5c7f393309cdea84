/-
# Decoding a log by its signature

`crates/lightcycle-codec/src/abi.rs`, the half that reads logs: `EventRegistry` and
`decode_with_signature`.  Topics and data are read with two cursors by indexing and
slicing, which panic out of range; here a panic is the outer `none`.  The order of the
reads is the order of the parameters, with any interleaving of the indexed ones.

`decode_assigns` is what comes out: the checks of the two lengths are exactly what
makes the reads succeed, the topics behind the first go to the indexed parameters in
order, and the data, cut into words of 32 bytes, to the others.  The values are given by
a relation (`ReadsAs`) between a word and what it stands for at a type, which the code's
conversions are shown to keep (`AbiType.readsAs_value`).
-/

import Lightcycle.Codec.Abi
import Lightcycle.Codec.Block

namespace Lightcycle

/-- One decoded value; a number or a `bytesN` stays a 32-byte word. -/
inductive AbiValue where
  | address (a : Address)
  | bool (b : Bool)
  | word (w : List.Vector UInt8 32)
deriving DecidableEq

/-- The matched signature with a value for each parameter, in declaration order. -/
structure DecodedEvent where
  name : List Char
  params : List (AbiParam × AbiValue)
deriving DecidableEq

/-- Errors from decoding a log against a registered signature. -/
inductive AbiDecodeError where
  | indexedCountMismatch (expected got : ℕ)
  | dataLenMismatch (expected got words : ℕ)
deriving DecidableEq

/-- The network byte and 20 bytes make the 21 bytes of an address. -/
theorem length_tronAddress (w : List.Vector UInt8 32) : (0x41 :: w.toList.drop 12).length = 21 := by
  simp

/-- `word_to_tron_address`: the network byte and the last 20 bytes of the word. -/
def wordToTronAddress (w : List.Vector UInt8 32) : Address :=
  ⟨⟨0x41 :: w.toList.drop 12, length_tronAddress w⟩⟩

/-- `word_to_bool`: the last byte is not zero. -/
def wordToBool (w : List.Vector UInt8 32) : Bool := w.get 31 != 0

/-- The value of a word at a type. -/
def AbiType.value (ty : AbiType) (w : List.Vector UInt8 32) : AbiValue :=
  match ty with
  | .address => .address (wordToTronAddress w)
  | .bool => .bool (wordToBool w)
  | .uint _ | .int _ | .bytes _ => .word w

/-- A parameter with the value of its word. -/
def AbiParam.decode (p : AbiParam) (w : List.Vector UInt8 32) : AbiParam × AbiValue :=
  (p, p.ty.value w)

/-- `data[at..at + 32]`. -/
def slice32 (data : List UInt8) (start : ℕ) : Option (List.Vector UInt8 32) :=
  if h : start + 32 ≤ data.length then
    some ⟨(data.drop start).take 32, by rw [List.length_take, List.length_drop]; omega⟩
  else none

/-- The loop over the parameters, with the cursor of the topics and that of the data. -/
def decodeLoop (topics : List (List.Vector UInt8 32)) (data : List UInt8) :
    List AbiParam → ℕ → ℕ → Option (List (AbiParam × AbiValue))
  | [], _, _ => some []
  | p :: ps, topicCursor, dataCursor =>
    if p.indexed then do
      let word ← topics[topicCursor]?
      let out ← decodeLoop topics data ps (topicCursor + 1) dataCursor
      return p.decode word :: out
    else do
      let word ← slice32 data dataCursor
      let out ← decodeLoop topics data ps topicCursor (dataCursor + 32)
      return p.decode word :: out

/-- `decode_with_signature`.  A `Vec` holds fewer than `2 ^ 59` parameters, so the
`saturating_mul` by 32 is a product. -/
def decodeWithSignature (sig : EventSignature) (log : Log) :
    Option (Except AbiDecodeError DecodedEvent) :=
  let expectedIndexed := (sig.params.filter (·.indexed)).length
  let gotIndexed := log.topics.length - 1
  if gotIndexed ≠ expectedIndexed then
    some (.error (.indexedCountMismatch expectedIndexed gotIndexed))
  else
    let nonIndexedCount := sig.params.length - expectedIndexed
    let expectedData := nonIndexedCount * 32
    if log.data.length ≠ expectedData then
      some (.error (.dataLenMismatch expectedData log.data.length nonIndexedCount))
    else (decodeLoop log.topics log.data sig.params 1 0).map fun params =>
      .ok { name := sig.name, params }

/-- The registered signatures by topic. -/
structure EventRegistry where
  byTopic0 : Finmap fun _ : List.Vector UInt8 32 => EventSignature

/-- `EventRegistry::new`. -/
def EventRegistry.new : EventRegistry := ⟨∅⟩

/-- `EventRegistry::register`: the last registration of a topic wins. -/
def EventRegistry.register (reg : EventRegistry) (sig : EventSignature) : EventRegistry :=
  ⟨reg.byTopic0.insert sig.topic0 sig⟩

/-- `EventRegistry::signature`. -/
def EventRegistry.signature (reg : EventRegistry) (topic0 : List.Vector UInt8 32) :
    Option EventSignature := reg.byTopic0.lookup topic0

/-- `EventRegistry::decode`. -/
def EventRegistry.decode (reg : EventRegistry) (log : Log) :
    Option (Except AbiDecodeError (Option DecodedEvent)) :=
  match log.topics with
  | [] => some (.ok none)
  | topic0 :: _ =>
    match reg.signature topic0 with
    | none => some (.ok none)
    | some sig => (decodeWithSignature sig log).map fun r => r.map some

/-- After a registration its topic selects it, and every other topic what it selected
before: the map keeps one signature a topic. -/
@[simp] theorem EventRegistry.signature_register (reg : EventRegistry) (sig : EventSignature)
    (topic0 : List.Vector UInt8 32) : (reg.register sig).signature topic0 =
      if topic0 = sig.topic0 then some sig else reg.signature topic0 := by
  unfold EventRegistry.signature EventRegistry.register
  by_cases h : topic0 = sig.topic0
  · rw [if_pos h, h, Finmap.lookup_insert]
  · rw [if_neg h, Finmap.lookup_insert_of_ne _ h]

/-! ### The two cursors -/

/-- A read of the data succeeds exactly when 32 bytes are left at the cursor, and gives
these bytes.  Out of range it is the panic of the slice. -/
theorem slice32_eq_some {data : List UInt8} {start : ℕ} {w : List.Vector UInt8 32} :
    slice32 data start = some w ↔
      start + 32 ≤ data.length ∧ w.toList = (data.drop start).take 32 := by
  unfold slice32
  split_ifs with h
  · refine ⟨fun hw => ⟨h, ?_⟩, fun hw => ?_⟩
    · obtain rfl := Option.some.inj hw
      rfl
    · exact congrArg some (List.Vector.toList_injective hw.2.symm)
  · exact iff_of_false (fun hw => by cases hw) fun hw => h hw.1

/-- The words of a concatenation are its slices. -/
theorem slice32_flatMap {ws : List (List.Vector UInt8 32)} {j : ℕ} (hj : j < ws.length) :
    slice32 (ws.flatMap List.Vector.toList) (32 * j) = some ws[j] := by
  rw [slice32_eq_some]
  induction ws generalizing j with
  | nil => cases hj
  | cons w ws ih =>
    have hw : w.toList.length = 32 := w.toList_length
    rw [List.flatMap_cons, List.length_append, hw]
    cases j with
    | zero =>
      refine ⟨by omega, ?_⟩
      rw [Nat.mul_zero, List.drop_zero, List.take_left' hw]
      rfl
    | succ j =>
      obtain ⟨hle, hslice⟩ := ih (Nat.lt_of_succ_lt_succ hj)
      refine ⟨by omega, ?_⟩
      have hstart : 32 * (j + 1) = w.toList.length + 32 * j := by omega
      rw [List.getElem_cons_succ, hslice, hstart, List.drop_length_add_append]

/-- The parameters whose word is a topic. -/
def indexedParams (ps : List AbiParam) : List AbiParam := ps.filter fun p => p.indexed

/-- The parameters whose word is in the data. -/
def dataParams (ps : List AbiParam) : List AbiParam := ps.filter fun p => !p.indexed

/-- What a word of 32 bytes stands for at a type, in the terms of the contract ABI and
of TRON addresses: an address is the network byte `0x41` before the last 20 bytes of the
word, a boolean is true exactly when the last byte is not zero, and a number or a
`bytesN` is the word itself. -/
inductive ReadsAs : AbiType → List.Vector UInt8 32 → AbiValue → Prop
  | address {word : List.Vector UInt8 32} {pad account : List UInt8} {a : Address}
      (split : word.toList = pad ++ account) (twenty : account.length = 20)
      (value : a.bytes.toList = 0x41 :: account) : ReadsAs .address word (.address a)
  | bool {word : List.Vector UInt8 32} {pad : List UInt8} {last : UInt8} {b : Bool}
      (split : word.toList = pad ++ [last]) (value : b = true ↔ last ≠ 0) :
      ReadsAs .bool word (.bool b)
  | uint (bits : ℕ) (word : List.Vector UInt8 32) : ReadsAs (.uint bits) word (.word word)
  | int (bits : ℕ) (word : List.Vector UInt8 32) : ReadsAs (.int bits) word (.word word)
  | bytes (len : ℕ) (word : List.Vector UInt8 32) : ReadsAs (.bytes len) word (.word word)

/-- The last byte of a word, behind the 31 before it. -/
theorem toList_eq_append_get (w : List.Vector UInt8 32) :
    w.toList = w.toList.take 31 ++ [w.get 31] := by
  have hlen : 31 < w.toList.length := by rw [w.toList_length]; omega
  have hdrop : w.toList.drop 31 = w.toList[31] :: w.toList.drop 32 := List.drop_eq_getElem_cons hlen
  have hnil : w.toList.drop 32 = [] := List.drop_of_length_le (by rw [w.toList_length])
  calc w.toList = w.toList.take 31 ++ w.toList.drop 31 := (List.take_append_drop 31 _).symm
    _ = w.toList.take 31 ++ [w.get 31] := by rw [hdrop, hnil]; rfl

/-- The value the code gives a word at a type is what the word stands for there. -/
theorem AbiType.readsAs_value (ty : AbiType) (w : List.Vector UInt8 32) :
    ReadsAs ty w (ty.value w) := by
  cases ty with
  | address => exact .address (List.take_append_drop 12 w.toList).symm (by simp) rfl
  | bool => exact .bool (toList_eq_append_get w) (by simp [wordToBool])
  | uint bits => exact .uint bits w
  | int bits => exact .int bits w
  | bytes len => exact .bytes len w

/-- The decoded parameters `out` pair `ps` with the words: `topics` go to the indexed
ones in order, `words`, which make up the data, to the others, and each value is what its
word stands for at the type of its parameter. -/
structure Assigns (ps : List AbiParam) (topics words : List (List.Vector UInt8 32))
    (data : List UInt8) (out : List (AbiParam × AbiValue)) : Prop where
  declared : out.map Prod.fst = ps
  indexed : List.Forall₂ (fun x word => ReadsAs x.1.ty word x.2)
    (out.filter fun x => x.1.indexed) topics
  nonIndexed : List.Forall₂ (fun x word => ReadsAs x.1.ty word x.2)
    (out.filter fun x => !x.1.indexed) words
  topics_length : topics.length = (indexedParams ps).length
  words_length : words.length = (dataParams ps).length
  data_eq : words.flatMap List.Vector.toList = data

/-- **The two cursors.**  When as many topics are left as there are indexed parameters
to come, and 32 bytes for each of the others, no read is out of range and every topic
and byte left is read once. -/
theorem decodeLoop_assigns {topics : List (List.Vector UInt8 32)} {data : List UInt8}
    {ps : List AbiParam} {t d : ℕ} (ht : (topics.drop t).length = (indexedParams ps).length)
    (hd : (data.drop d).length = 32 * (dataParams ps).length) :
    ∃ out words, decodeLoop topics data ps t d = some out ∧
      Assigns ps (topics.drop t) words (data.drop d) out := by
  induction ps generalizing t d with
  | nil =>
    have hdata : data.drop d = [] := List.length_eq_zero_iff.1 hd
    have htopics : topics.drop t = [] := List.length_eq_zero_iff.1 ht
    rw [htopics, hdata]
    exact ⟨[], [], rfl, rfl, .nil, .nil, rfl, rfl, rfl⟩
  | cons p ps ih =>
    unfold decodeLoop
    cases hp : p.indexed with
    | true =>
      have hidx : indexedParams (p :: ps) = p :: indexedParams ps := List.filter_cons_of_pos hp
      have hdat : dataParams (p :: ps) = dataParams ps := List.filter_cons_of_neg (by simp [hp])
      rw [hidx, List.length_cons] at ht
      rw [hdat] at hd
      have hlt : t < topics.length := by
        rw [List.length_drop] at ht
        omega
      have hdrop : topics.drop t = topics[t] :: topics.drop (t + 1) := List.drop_eq_getElem_cons hlt
      obtain ⟨out, words, hout, h⟩ := ih (t := t + 1) (by
        rw [hdrop, List.length_cons] at ht
        omega) hd
      refine ⟨p.decode topics[t] :: out, words, ?_, ?_⟩
      · rw [if_pos rfl, List.getElem?_eq_getElem hlt, hout]
        rfl
      · refine ⟨by rw [List.map_cons, h.declared]; rfl, ?_, ?_, by rw [hidx, ht, List.length_cons],
          by rw [hdat, h.words_length], h.data_eq⟩
        · rw [hdrop, List.filter_cons_of_pos (by exact hp)]
          exact .cons (p.ty.readsAs_value _) h.indexed
        · rw [List.filter_cons_of_neg (by simp [AbiParam.decode, hp])]
          exact h.nonIndexed
    | false =>
      have hidx : indexedParams (p :: ps) = indexedParams ps :=
        List.filter_cons_of_neg (by simp [hp])
      have hdat : dataParams (p :: ps) = p :: dataParams ps :=
        List.filter_cons_of_pos (by simp [hp])
      rw [hidx] at ht
      rw [hdat, List.length_cons, List.length_drop] at hd
      obtain ⟨word, hword⟩ : ∃ word, slice32 data d = some word :=
        ⟨_, dif_pos (by omega : d + 32 ≤ data.length)⟩
      obtain ⟨out, words, hout, h⟩ := ih (d := d + 32) ht (by
        rw [List.length_drop]
        omega)
      refine ⟨p.decode word :: out, word :: words, ?_, ?_⟩
      · rw [if_neg Bool.false_ne_true, hword, hout]
        rfl
      · refine ⟨by rw [List.map_cons, h.declared]; rfl, ?_, ?_, by rw [hidx, ht],
          by rw [hdat, List.length_cons, List.length_cons, h.words_length], ?_⟩
        · rw [List.filter_cons_of_neg (by simp [AbiParam.decode, hp])]
          exact h.indexed
        · rw [List.filter_cons_of_pos (by simp [AbiParam.decode, hp])]
          exact .cons (p.ty.readsAs_value word) h.nonIndexed
        · rw [List.flatMap_cons, h.data_eq, (slice32_eq_some.1 hword).2, ← List.drop_drop,
            List.take_append_drop]

/-- The code counts the other parameters by a subtraction; it never goes below zero and
is the number of parameters whose word is in the data. -/
theorem length_dataParams (ps : List AbiParam) :
    ps.length - (indexedParams ps).length = (dataParams ps).length := by
  have h : ps.length = (indexedParams ps).length + (dataParams ps).length :=
    List.length_eq_length_filter_add fun p : AbiParam => p.indexed
  omega

/-- The three outcomes of a decode, by the number of topics and the length of the data. -/
theorem decodeWithSignature_cases (sig : EventSignature) (log : Log) :
    (log.topics.length - 1 ≠ (indexedParams sig.params).length ∧
      decodeWithSignature sig log = some (.error (.indexedCountMismatch
        (indexedParams sig.params).length (log.topics.length - 1)))) ∨
    (log.topics.length - 1 = (indexedParams sig.params).length ∧
      log.data.length ≠ 32 * (dataParams sig.params).length ∧
      decodeWithSignature sig log = some (.error (.dataLenMismatch
        ((dataParams sig.params).length * 32) log.data.length (dataParams sig.params).length))) ∨
    (log.topics.length - 1 = (indexedParams sig.params).length ∧
      log.data.length = 32 * (dataParams sig.params).length ∧
      ∃ ev words, decodeWithSignature sig log = some (.ok ev) ∧ ev.name = sig.name ∧
        Assigns sig.params log.topics.tail words log.data ev.params) := by
  unfold decodeWithSignature
  by_cases hidx : log.topics.length - 1 = (indexedParams sig.params).length
  · by_cases hdat : log.data.length = 32 * (dataParams sig.params).length
    · have htopics : (log.topics.drop 1).length = (indexedParams sig.params).length := by
        rwa [List.length_drop]
      obtain ⟨out, words, hout, h⟩ := decodeLoop_assigns (d := 0) htopics hdat
      refine .inr (.inr ⟨hidx, hdat, ⟨sig.name, out⟩, words, ?_, rfl, ?_⟩)
      · have hlen :
            ¬ log.data.length ≠ (sig.params.length - (indexedParams sig.params).length) * 32 := by
          rw [length_dataParams]
          omega
        simp only [indexedParams] at hidx hlen
        simp only [hidx, hlen, ne_eq, not_true, if_false, hout, Option.map_some]
      · rwa [List.drop_one, List.drop_zero] at h
    · refine .inr (.inl ⟨hidx, hdat, ?_⟩)
      have hlen : log.data.length ≠ (sig.params.length - (indexedParams sig.params).length) * 32 := by
        rw [length_dataParams]
        omega
      rw [← length_dataParams]
      simp only [indexedParams] at hidx hlen ⊢
      simp only [hidx, hlen, ne_eq, not_true, not_false_eq_true, if_false, if_true]
  · exact .inl ⟨hidx, if_pos hidx⟩

/-- **Each word to its parameter.**  A log selected by its first topic fails on the
count of the other topics, else on the length of the data, and otherwise decodes in
declaration order: topics to the indexed parameters, words of the data to the others,
each once, and nothing is read out of range.  What an address, a boolean or a word is of
its 32 bytes is said by `ReadsAs`, not by the code's own conversions. -/
theorem decode_assigns (reg : EventRegistry) (log : Log) (sig : EventSignature)
    (hsig : ∃ topic0 ∈ log.topics.head?, reg.signature topic0 = some sig) :
    ((∃ expected got, reg.decode log = some (.error (.indexedCountMismatch expected got))) ↔
      log.topics.tail.length ≠ (indexedParams sig.params).length) ∧
    ((∃ expected got words, reg.decode log = some (.error (.dataLenMismatch expected got words))) ↔
      log.topics.tail.length = (indexedParams sig.params).length ∧
        log.data.length ≠ 32 * (dataParams sig.params).length) ∧
    (log.topics.tail.length = (indexedParams sig.params).length →
      log.data.length = 32 * (dataParams sig.params).length →
      ∃ ev words, reg.decode log = some (.ok (some ev)) ∧ ev.name = sig.name ∧
        Assigns sig.params log.topics.tail words log.data ev.params ∧
        ∀ (j : ℕ) (hj : j < words.length), slice32 log.data (32 * j) = some words[j]) := by
  obtain ⟨topic0, htopic0, hsig⟩ := hsig
  have hdecode : reg.decode log = (decodeWithSignature sig log).map fun r => r.map some := by
    unfold EventRegistry.decode
    cases htopics : log.topics with
    | nil =>
      rw [htopics] at htopic0
      cases htopic0
    | cons t ts =>
      rw [htopics] at htopic0
      obtain rfl : t = topic0 := Option.some.inj htopic0
      simp only [hsig]
  rw [List.length_tail, hdecode]
  rcases decodeWithSignature_cases sig log with
    ⟨hidx, h⟩ | ⟨hidx, hdat, h⟩ | ⟨hidx, hdat, ev, words, h, hname, hassigns⟩ <;> rw [h]
  · refine ⟨iff_of_true ⟨_, _, rfl⟩ hidx, ?_, fun h => absurd h hidx⟩
    exact iff_of_false (fun ⟨_, _, _, h⟩ => by cases h) fun h => hidx h.1
  · refine ⟨iff_of_false (fun ⟨_, _, h⟩ => by cases h) fun h => h hidx, ?_, fun _ h => absurd h hdat⟩
    exact iff_of_true ⟨_, _, _, rfl⟩ ⟨hidx, hdat⟩
  · refine ⟨iff_of_false (fun ⟨_, _, h⟩ => by cases h) fun h => h hidx,
      iff_of_false (fun ⟨_, _, _, h⟩ => by cases h) fun h => h.2 hdat,
      fun _ _ => ⟨ev, words, rfl, hname, hassigns, fun j hj => ?_⟩⟩
    rw [← hassigns.data_eq]
    exact slice32_flatMap hj

/-- `E(address indexed a, bool b)` and a log with one topic behind the first and 32
bytes of data. -/
theorem decode_assigns_one_of_each :
    ∃ ev words, ((EventRegistry.new).register
        ⟨"E".toList, [⟨"a".toList, .address, true⟩, ⟨"b".toList, .bool, false⟩],
          List.Vector.replicate 32 7⟩).decode
        ⟨Address.fill 0x41, [List.Vector.replicate 32 7, List.Vector.replicate 32 1],
          List.replicate 32 0⟩ = some (.ok (some ev)) ∧ ev.name = "E".toList ∧
      Assigns [⟨"a".toList, .address, true⟩, ⟨"b".toList, .bool, false⟩]
        [List.Vector.replicate 32 1] words (List.replicate 32 0) ev.params := by
  obtain ⟨-, -, h⟩ := decode_assigns
    ((EventRegistry.new).register
        ⟨"E".toList, [⟨"a".toList, .address, true⟩, ⟨"b".toList, .bool, false⟩],
          List.Vector.replicate 32 7⟩)
    ⟨Address.fill 0x41, [List.Vector.replicate 32 7, List.Vector.replicate 32 1],
      List.replicate 32 0⟩
    ⟨"E".toList, [⟨"a".toList, .address, true⟩, ⟨"b".toList, .bool, false⟩],
      List.Vector.replicate 32 7⟩
    ⟨List.Vector.replicate 32 7, rfl, by rw [EventRegistry.signature_register, if_pos rfl]⟩
  obtain ⟨ev, words, hev, hname, hassigns, -⟩ := h rfl rfl
  exact ⟨ev, words, hev, hname, hassigns⟩

end Lightcycle
