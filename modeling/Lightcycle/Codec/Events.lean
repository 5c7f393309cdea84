/-
# The built-in token decoders

`crates/lightcycle-codec/src/events.rs`: the TRC-20 `Transfer` and `Approval` and the
TRC-721 `Transfer`, recognised by their first topic without a registry.  Each is set
against a registry that holds its declaration and nothing else: `Agrees` says that both
decode the same logs, to the same values.

The two TRC-20 decoders agree with it on every log.  The TRC-721 decoder does not look
at the data, which its documentation expects to be empty: `builtin_agrees_iff` has the
exact set of logs on which all three agree.
-/

import Lightcycle.Codec.AbiDecode
import Lightcycle.Codec.AbiSignature

namespace Lightcycle

/-- `TRC20_TRANSFER_TOPIC0`. -/
def trc20TransferTopic0 : List.Vector UInt8 32 :=
  ⟨[0xdd, 0xf2, 0x52, 0xad, 0x1b, 0xe2, 0xc8, 0x9b, 0x69, 0xc2, 0xb0, 0x68, 0xfc, 0x37, 0x8d, 0xaa,
    0x95, 0x2b, 0xa7, 0xf1, 0x63, 0xc4, 0xa1, 0x16, 0x28, 0xf5, 0x5a, 0x4d, 0xf5, 0x23, 0xb3, 0xef],
    rfl⟩

/-- `TRC20_APPROVAL_TOPIC0`. -/
def trc20ApprovalTopic0 : List.Vector UInt8 32 :=
  ⟨[0x8c, 0x5b, 0xe1, 0xe5, 0xeb, 0xec, 0x7d, 0x5b, 0xd1, 0x4f, 0x71, 0x42, 0x7d, 0x1e, 0x84, 0xf3,
    0xdd, 0x03, 0x14, 0xc0, 0xf7, 0xb2, 0x29, 0x1e, 0x5b, 0x20, 0x0a, 0xc8, 0xc7, 0xc3, 0xb9, 0x25],
    rfl⟩

/-- Decoded TRC-20 `Transfer` event. -/
structure Trc20Transfer where
  token : Address
  fromAddr : Address
  toAddr : Address
  value : List.Vector UInt8 32
deriving DecidableEq

/-- Decoded TRC-20 `Approval` event. -/
structure Trc20Approval where
  token : Address
  owner : Address
  spender : Address
  value : List.Vector UInt8 32
deriving DecidableEq

/-- Decoded TRC-721 `Transfer` event. -/
structure Trc721Transfer where
  token : Address
  fromAddr : Address
  toAddr : Address
  tokenId : List.Vector UInt8 32
deriving DecidableEq

/-- `topic_to_tron_address`: the last 20 bytes behind the network byte; never `none`. -/
def topicToTronAddress (topic : List.Vector UInt8 32) : Option Address :=
  some ⟨⟨0x41 :: topic.toList.drop 12, length_tronAddress topic⟩⟩

/-- `data_to_uint256`. -/
def dataToUint256 (data : List UInt8) : Option (List.Vector UInt8 32) :=
  if h : data.length = 32 then some ⟨data, h⟩ else none

/-- What the two TRC-20 decoders have in common: three topics, the first of them
`topic0`, two addresses and a 32-byte word of data. -/
def decodeTrc20 (topic0 : List.Vector UInt8 32) (log : Log) :
    Option (Address × Address × List.Vector UInt8 32) :=
  match log.topics with
  | [t0, t1, t2] =>
    if t0 ≠ topic0 then none
    else do
      let a ← topicToTronAddress t1
      let b ← topicToTronAddress t2
      let value ← dataToUint256 log.data
      return (a, b, value)
  | _ => none

/-- `decode_trc20_transfer`. -/
def decodeTrc20Transfer (log : Log) : Option Trc20Transfer :=
  (decodeTrc20 trc20TransferTopic0 log).map fun (fromAddr, toAddr, value) =>
    { token := log.address, fromAddr, toAddr, value }

/-- `decode_trc20_approval`. -/
def decodeTrc20Approval (log : Log) : Option Trc20Approval :=
  (decodeTrc20 trc20ApprovalTopic0 log).map fun (owner, spender, value) =>
    { token := log.address, owner, spender, value }

/-- `decode_trc721_transfer`: four topics, the first that of a TRC-20 transfer.  The
data are not looked at. -/
def decodeTrc721Transfer (log : Log) : Option Trc721Transfer :=
  match log.topics with
  | [t0, t1, t2, t3] =>
    if t0 ≠ trc20TransferTopic0 then none
    else do
      let fromAddr ← topicToTronAddress t1
      let toAddr ← topicToTronAddress t2
      return { token := log.address, fromAddr, toAddr, tokenId := t3 }
  | _ => none

/-- `EventRegistry::register_signature`. -/
def EventRegistry.registerSignature (keccak256 : List UInt8 → List.Vector UInt8 32)
    (reg : EventRegistry) (s : List Char) : Except AbiParseError EventRegistry := do
  let sig ← EventSignature.parse keccak256 s
  return reg.register sig

/-- The declaration of the TRC-20 transfer. -/
def trc20TransferDecl : List Char :=
  "Transfer(address indexed from, address indexed to, uint256 value)".toList

/-- The declaration of the TRC-20 approval. -/
def trc20ApprovalDecl : List Char :=
  "Approval(address indexed owner, address indexed spender, uint256 value)".toList

/-- The declaration of the TRC-721 transfer. -/
def trc721TransferDecl : List Char :=
  "Transfer(address indexed from, address indexed to, uint256 indexed tokenId)".toList

/-- The values of an event in the order of its declaration. -/
def Trc20Transfer.values (e : Trc20Transfer) : List AbiValue :=
  [.address e.fromAddr, .address e.toAddr, .word e.value]

/-- The values of an event in the order of its declaration. -/
def Trc20Approval.values (e : Trc20Approval) : List AbiValue :=
  [.address e.owner, .address e.spender, .word e.value]

/-- The values of an event in the order of its declaration. -/
def Trc721Transfer.values (e : Trc721Transfer) : List AbiValue :=
  [.address e.fromAddr, .address e.toAddr, .word e.tokenId]

/-- A built-in decoder and a registry decode the same logs to the same values. -/
def Agrees {ε : Type} (values : ε → List AbiValue) (decode : Log → Option ε)
    (reg : EventRegistry) (log : Log) : Prop :=
  ((∃ e, decode log = some e) ↔ ∃ d, reg.decode log = some (.ok (some d))) ∧
    ∀ e d, decode log = some e → reg.decode log = some (.ok (some d)) →
      d.params.map Prod.snd = values e

/-! ### A registry with one signature -/

/-- With one signature registered, a log is decoded when its first topic is the signature's
and the signature reads it. -/
theorem decode_register (sig : EventSignature) (log : Log) (d : DecodedEvent) :
    (EventRegistry.new.register sig).decode log = some (.ok (some d)) ↔
      log.topics.head? = some sig.topic0 ∧ decodeWithSignature sig log = some (.ok d) := by
  unfold EventRegistry.decode
  cases log.topics with
  | nil => exact iff_of_false (fun h => by cases h) fun h => by cases h.1
  | cons t ts =>
    simp only [EventRegistry.signature_register, List.head?_cons, Option.some.injEq]
    by_cases ht : t = sig.topic0
    · simp only [ht, if_true, true_and]
      cases decodeWithSignature sig log with
      | none => exact iff_of_false (fun h => by cases h) fun h => by cases h
      | some r =>
        cases r with
        | error e => exact iff_of_false (fun h => by cases h) fun h => by cases h
        | ok d' =>
          simp only [Option.map_some, Except.map, Option.some.injEq, Except.ok.injEq]
    · simp only [ht, if_false, false_and, iff_false]
      exact fun h => by cases h

/-- A signature reads a log with one topic for each indexed parameter and one word of data
for each other one. -/
theorem decodeWithSignature_eq_ok {sig : EventSignature} {log : Log} {d : DecodedEvent} :
    decodeWithSignature sig log = some (.ok d) ↔
      log.topics.length - 1 = (indexedParams sig.params).length ∧
      log.data.length = 32 * (dataParams sig.params).length ∧
      decodeLoop log.topics log.data sig.params 1 0 = some d.params ∧ sig.name = d.name := by
  have hlen : (log.data.length = (sig.params.length - (indexedParams sig.params).length) * 32) ↔
      log.data.length = 32 * (dataParams sig.params).length := by
    rw [length_dataParams, Nat.mul_comm]
  rw [← hlen]
  unfold decodeWithSignature indexedParams
  by_cases hidx : log.topics.length - 1 = (sig.params.filter fun p => p.indexed).length
  · by_cases hdat : log.data.length =
        (sig.params.length - (sig.params.filter fun p => p.indexed).length) * 32
    · obtain ⟨name, params⟩ := d
      simp only [hidx, hdat, ne_eq, not_true, if_false, true_and, Option.map_eq_some_iff,
        Except.ok.injEq, DecodedEvent.mk.injEq]
      constructor
      · rintro ⟨ps, hps, hname, rfl⟩
        exact ⟨hps, hname⟩
      · rintro ⟨hps, hname⟩
        exact ⟨params, hps, hname, rfl⟩
    · simp only [hidx, hdat, ne_eq, not_true, not_false_eq_true, if_false, if_true, false_and,
        and_false, iff_false]
      exact fun h => by cases h
  · simp only [hidx, ne_eq, not_false_eq_true, if_true, false_and, iff_false]
    exact fun h => by cases h

/-- A text of 32 bytes is a word. -/
theorem exists_word {data : List UInt8} (h : data.length = 32) :
    ∃ w : List.Vector UInt8 32, data = w.toList := ⟨⟨data, h⟩, rfl⟩

/-- The logs of an event with two indexed parameters and one in the data. -/
theorem decode_two_topics {sig : EventSignature} {p q r : AbiParam} (hps : sig.params = [p, q, r])
    (hp : p.indexed = true) (hq : q.indexed = true) (hr : r.indexed = false) (log : Log)
    (d : DecodedEvent) :
    (EventRegistry.new.register sig).decode log = some (.ok (some d)) ↔
      ∃ a b w, (log.topics = [sig.topic0, a, b] ∧ log.data = w.toList) ∧
        d = ⟨sig.name, [p.decode a, q.decode b, r.decode w]⟩ := by
  have hloop : ∀ t a b w, decodeLoop [t, a, b] (List.Vector.toList w) [p, q, r] 1 0 =
      some [p.decode a, q.decode b, r.decode w] := by
    intro t a b w
    have hslice : slice32 w.toList 0 = some w := by
      rw [slice32_eq_some]
      exact ⟨by rw [w.toList_length], by rw [List.drop_zero, List.take_of_length_le (by simp)]⟩
    simp [decodeLoop, hp, hq, hr, hslice]
  rw [decode_register, decodeWithSignature_eq_ok, hps]
  simp only [indexedParams, dataParams, hp, hq, hr, List.filter_cons, List.filter_nil, Bool.not_true,
    Bool.not_false, Bool.false_eq_true, if_true, if_false, List.length_cons, List.length_nil]
  constructor
  · rintro ⟨hhead, hidx, hdat, hparams, hname⟩
    obtain ⟨w, hw⟩ := exists_word hdat
    obtain ⟨rest, htopics⟩ := List.head?_eq_some_iff.1 hhead
    rw [htopics, List.length_cons, Nat.add_sub_cancel] at hidx
    obtain ⟨a, b, rfl⟩ := List.length_eq_two.1 hidx
    rw [htopics, hw, hloop] at hparams
    exact ⟨a, b, w, ⟨htopics, hw⟩, by rw [hname, Option.some.inj hparams]⟩
  · rintro ⟨a, b, w, ⟨htopics, hw⟩, rfl⟩
    rw [htopics, hw, hloop]
    exact ⟨rfl, rfl, by simp, rfl, rfl⟩

/-- The logs of an event with three indexed parameters. -/
theorem decode_three_topics {sig : EventSignature} {p q r : AbiParam} (hps : sig.params = [p, q, r])
    (hp : p.indexed = true) (hq : q.indexed = true) (hr : r.indexed = true) (log : Log)
    (d : DecodedEvent) :
    (EventRegistry.new.register sig).decode log = some (.ok (some d)) ↔
      ∃ a b c, (log.topics = [sig.topic0, a, b, c] ∧ log.data = []) ∧
        d = ⟨sig.name, [p.decode a, q.decode b, r.decode c]⟩ := by
  have hloop : ∀ t a b c, decodeLoop [t, a, b, c] [] [p, q, r] 1 0 =
      some [p.decode a, q.decode b, r.decode c] := by
    intro t a b c
    simp [decodeLoop, hp, hq, hr]
  rw [decode_register, decodeWithSignature_eq_ok, hps]
  simp only [indexedParams, dataParams, hp, hq, hr, List.filter_cons, List.filter_nil, Bool.not_true,
    Bool.false_eq_true, if_true, if_false, List.length_cons, List.length_nil, Nat.mul_zero,
    List.length_eq_zero_iff]
  constructor
  · rintro ⟨hhead, hidx, hdat, hparams, hname⟩
    obtain ⟨rest, htopics⟩ := List.head?_eq_some_iff.1 hhead
    rw [htopics, List.length_cons, Nat.add_sub_cancel] at hidx
    obtain ⟨a, b, c, rfl⟩ := List.length_eq_three.1 hidx
    rw [htopics, hdat, hloop] at hparams
    exact ⟨a, b, c, ⟨htopics, hdat⟩, by rw [hname, Option.some.inj hparams]⟩
  · rintro ⟨a, b, c, ⟨htopics, hdat⟩, rfl⟩
    rw [htopics, hdat, hloop]
    exact ⟨rfl, rfl, rfl, rfl, rfl⟩

/-! ### The built-in decoders -/

/-- A decoder and a registry that read the same three words of a log agree on it. -/
theorem agrees_of_reads {ε : Type} {values : ε → List AbiValue} {decode : Log → Option ε}
    {reg : EventRegistry} {log : Log} {Reads : List.Vector UInt8 32 → List.Vector UInt8 32 →
      List.Vector UInt8 32 → Prop}
    {build : List.Vector UInt8 32 → List.Vector UInt8 32 → List.Vector UInt8 32 → ε}
    {event : List.Vector UInt8 32 → List.Vector UInt8 32 → List.Vector UInt8 32 → DecodedEvent}
    (hdecode : ∀ e, decode log = some e ↔ ∃ a b c, Reads a b c ∧ e = build a b c)
    (hreg : ∀ d, reg.decode log = some (.ok (some d)) ↔ ∃ a b c, Reads a b c ∧ d = event a b c)
    (huniq : ∀ a b c a' b' c', Reads a b c → Reads a' b' c' → a = a' ∧ b = b' ∧ c = c')
    (hvalues : ∀ a b c, (event a b c).params.map Prod.snd = values (build a b c)) :
    Agrees values decode reg log := by
  refine ⟨⟨?_, ?_⟩, ?_⟩
  · rintro ⟨e, he⟩
    obtain ⟨a, b, c, hr, -⟩ := (hdecode e).1 he
    exact ⟨_, (hreg _).2 ⟨a, b, c, hr, rfl⟩⟩
  · rintro ⟨d, hd⟩
    obtain ⟨a, b, c, hr, -⟩ := (hreg d).1 hd
    exact ⟨_, (hdecode _).2 ⟨a, b, c, hr, rfl⟩⟩
  · intro e d he hd
    obtain ⟨a, b, c, hr, rfl⟩ := (hdecode e).1 he
    obtain ⟨a', b', c', hr', rfl⟩ := (hreg d).1 hd
    obtain ⟨rfl, rfl, rfl⟩ := huniq a b c a' b' c' hr hr'
    exact hvalues a b c

/-- A TRC-20 decoder returns a log of three topics with one word of data. -/
theorem decodeTrc20_eq_some {topic0 : List.Vector UInt8 32} {log : Log}
    {x : Address × Address × List.Vector UInt8 32} :
    decodeTrc20 topic0 log = some x ↔
      ∃ a b w, (log.topics = [topic0, a, b] ∧ log.data = w.toList) ∧
        x = (wordToTronAddress a, wordToTronAddress b, w) := by
  unfold decodeTrc20
  constructor
  · intro h
    match htopics : log.topics with
    | [t0, t1, t2] =>
      simp only [htopics] at h
      split_ifs at h with ht0
      obtain rfl := not_not.1 ht0
      unfold dataToUint256 at h
      by_cases hlen : log.data.length = 32
      · rw [dif_pos hlen] at h
        exact ⟨t1, t2, ⟨log.data, hlen⟩, ⟨rfl, rfl⟩, (Option.some.inj h).symm⟩
      · rw [dif_neg hlen] at h
        cases h
    | [] | [_] | [_, _] | _ :: _ :: _ :: _ :: _ =>
      simp only [htopics] at h
      cases h
  · rintro ⟨a, b, w, ⟨htopics, hw⟩, rfl⟩
    simp only [htopics, ne_eq, not_true, if_false]
    have hdata : dataToUint256 log.data = some w := by
      unfold dataToUint256
      rw [dif_pos (by rw [hw, w.toList_length])]
      exact congrArg some (List.Vector.toList_injective hw)
    rw [hdata]
    rfl

/-- The TRC-721 decoder returns a log of four topics, whatever its data. -/
theorem decodeTrc721Transfer_eq_some {log : Log} {e : Trc721Transfer} :
    decodeTrc721Transfer log = some e ↔
      ∃ a b c, log.topics = [trc20TransferTopic0, a, b, c] ∧
        e = ⟨log.address, wordToTronAddress a, wordToTronAddress b, c⟩ := by
  unfold decodeTrc721Transfer
  constructor
  · intro h
    match htopics : log.topics with
    | [t0, t1, t2, t3] =>
      simp only [htopics] at h
      split_ifs at h with ht0
      obtain rfl := not_not.1 ht0
      exact ⟨t1, t2, t3, rfl, (Option.some.inj h).symm⟩
    | [] | [_] | [_, _] | [_, _, _] | _ :: _ :: _ :: _ :: _ :: _ =>
      simp only [htopics] at h
      cases h
  · rintro ⟨a, b, c, htopics, rfl⟩
    simp only [htopics, ne_eq, not_true, if_false]
    rfl

/-- The TRC-20 decoder for `topic0` agrees with a registry that holds a declaration with
that topic, two indexed addresses and a 256-bit number in the data. -/
theorem agrees_trc20 {ε : Type} {values : ε → List AbiValue} {decode : Log → Option ε}
    (build : Log → Address × Address × List.Vector UInt8 32 → ε) {sig : EventSignature}
    {topic0 : List.Vector UInt8 32} {p q r : List Char} (hps : sig.params =
      [⟨p, .address, true⟩, ⟨q, .address, true⟩, ⟨r, .uint 256, false⟩])
    (htopic : sig.topic0 = topic0)
    (hdecode : ∀ log, decode log = (decodeTrc20 topic0 log).map (build log))
    (hvalues : ∀ log a b w, values (build log (a, b, w)) = [.address a, .address b, .word w])
    (log : Log) : Agrees values decode (EventRegistry.new.register sig) log := by
  subst htopic
  have hdec : ∀ e, decode log = some e ↔ ∃ a b w,
      (log.topics = [sig.topic0, a, b] ∧ log.data = w.toList) ∧
        e = build log (wordToTronAddress a, wordToTronAddress b, w) := by
    intro e
    rw [hdecode, Option.map_eq_some_iff]
    simp only [decodeTrc20_eq_some]
    constructor
    · rintro ⟨_, ⟨a, b, w, hr, rfl⟩, rfl⟩
      exact ⟨a, b, w, hr, rfl⟩
    · rintro ⟨a, b, w, hr, rfl⟩
      exact ⟨_, ⟨a, b, w, hr, rfl⟩, rfl⟩
  refine agrees_of_reads hdec (decode_two_topics hps rfl rfl rfl log) ?_ fun a b w => ?_
  · rintro a b w a' b' w' ⟨htopics, hw⟩ ⟨htopics', hw'⟩
    obtain ⟨rfl, rfl⟩ : a = a' ∧ b = b' := by simpa using htopics.symm.trans htopics'
    exact ⟨rfl, rfl, List.Vector.toList_injective (hw.symm.trans hw')⟩
  · rw [hvalues]
    rfl

/-- A log of the TRC-721 transfer, whatever its data. -/
def Trc721Shape (log : Log) : Prop :=
  log.topics.length = 4 ∧ log.topics.head? = some trc20TransferTopic0

/-- **The TRC-721 decoder agrees with the registry except on a transfer with data.** The
registry refuses data that no parameter is read from, and the decoder does not look at it.
-/
theorem agrees_trc721_iff {sig : EventSignature} {p q r : List Char} (hps : sig.params =
      [⟨p, .address, true⟩, ⟨q, .address, true⟩, ⟨r, .uint 256, true⟩])
    (htopic : sig.topic0 = trc20TransferTopic0) (log : Log) :
    Agrees Trc721Transfer.values decodeTrc721Transfer (EventRegistry.new.register sig) log ↔
      ¬ Trc721Shape log ∨ log.data = [] := by
  have hreg := decode_three_topics hps rfl rfl rfl log
  rw [htopic] at hreg
  have hshape : ∀ {a b c}, log.topics = [trc20TransferTopic0, a, b, c] → Trc721Shape log :=
    fun h => by unfold Trc721Shape; rw [h]; exact ⟨rfl, rfl⟩
  constructor
  · intro h
    by_contra hcon
    obtain ⟨hlog, hdata⟩ := not_or.1 hcon
    obtain ⟨hlen, hhead⟩ := not_not.1 hlog
    obtain ⟨t, a, b, c, htopics⟩ := List.length_eq_four.1 hlen
    rw [htopics] at hhead
    obtain rfl := Option.some.inj hhead
    obtain ⟨d, hd⟩ := h.1.1 ⟨_, decodeTrc721Transfer_eq_some.2 ⟨a, b, c, htopics, rfl⟩⟩
    obtain ⟨-, -, -, ⟨-, hempty⟩, -⟩ := (hreg d).1 hd
    exact hdata hempty
  · intro hcond
    have hdec : ∀ e, decodeTrc721Transfer log = some e ↔ ∃ a b c,
        (log.topics = [trc20TransferTopic0, a, b, c] ∧ log.data = []) ∧
          e = ⟨log.address, wordToTronAddress a, wordToTronAddress b, c⟩ := by
      intro e
      rw [decodeTrc721Transfer_eq_some]
      constructor
      · rintro ⟨a, b, c, htopics, he⟩
        exact ⟨a, b, c, ⟨htopics, hcond.resolve_left (not_not.2 (hshape htopics))⟩, he⟩
      · rintro ⟨a, b, c, ⟨htopics, -⟩, he⟩
        exact ⟨a, b, c, htopics, he⟩
    refine agrees_of_reads hdec hreg ?_ fun _ _ _ => rfl
    rintro a b c a' b' c' ⟨htopics, -⟩ ⟨htopics', -⟩
    simpa using htopics.symm.trans htopics'

/-- A declaration of two addresses and a number, in the usual layout and with
identifiers for names, registers under the hash of its canonical text. -/
theorem registerSignature_eq_ok {keccak256 : List UInt8 → List.Vector UInt8 32}
    {decl : List Char} (name canonical p q r : List Char) (indexed : Bool) {ps : List AbiParam}
    (hps : ps = [⟨p, .address, true⟩, ⟨q, .address, true⟩, ⟨r, .uint 256, indexed⟩])
    (hdecl : decl = declaration name ps) (hcanonical : canonicalSignature name ps = canonical)
    (hname : isIdentifier name = true)
    (hnames : ∀ x ∈ [p, q, r], isIdentifier x = true ∧ x ≠ "indexed".toList) :
    EventRegistry.new.registerSignature keccak256 decl =
      .ok (EventRegistry.new.register ⟨name, ps, keccak256 (asBytes canonical)⟩) := by
  have hplain : ∀ x ∈ [p, q, r], PlainParam x := fun x hx =>
    .of_identifier (hnames x hx).1 (hnames x hx).2
  have hvalid : ∀ x ∈ ps, x.ty.Valid ∧ PlainParam x.name := by
    rw [hps]
    simp only [List.forall_mem_cons] at hplain ⊢
    refine ⟨⟨trivial, hplain.1⟩, ⟨trivial, hplain.2.1⟩, ⟨⟨?_, ?_, le_rfl⟩, hplain.2.2.1⟩, by simp⟩ <;>
      norm_num
  unfold EventRegistry.registerSignature
  rw [hdecl, parse_declaration (.of_identifier hname) hvalid, hcanonical]
  rfl

/-- **The built-in decoders against the registry.**  With the two topics the hashes of
their signatures, each declaration registers, the TRC-20 decoders agree with their
registries on every log, and all three agree exactly on the logs that are not a TRC-721
transfer with data. -/
theorem builtin_agrees_iff (keccak256 : List UInt8 → List.Vector UInt8 32)
    (htransfer : keccak256 (asBytes "Transfer(address,address,uint256)".toList) =
      trc20TransferTopic0)
    (happroval : keccak256 (asBytes "Approval(address,address,uint256)".toList) =
      trc20ApprovalTopic0) :
    ∃ transfer20 approval20 transfer721,
      EventRegistry.new.registerSignature keccak256 trc20TransferDecl = .ok transfer20 ∧
      EventRegistry.new.registerSignature keccak256 trc20ApprovalDecl = .ok approval20 ∧
      EventRegistry.new.registerSignature keccak256 trc721TransferDecl = .ok transfer721 ∧
      ∀ log,
        (Agrees Trc20Transfer.values decodeTrc20Transfer transfer20 log ∧
          Agrees Trc20Approval.values decodeTrc20Approval approval20 log ∧
          Agrees Trc721Transfer.values decodeTrc721Transfer transfer721 log) ↔
        ¬ Trc721Shape log ∨ log.data = [] := by
  refine ⟨_, _, _,
    registerSignature_eq_ok "Transfer".toList "Transfer(address,address,uint256)".toList
      "from".toList "to".toList "value".toList false rfl (by decide +kernel) (by decide +kernel) rfl
      (by decide +kernel),
    registerSignature_eq_ok "Approval".toList "Approval(address,address,uint256)".toList
      "owner".toList "spender".toList "value".toList false rfl (by decide +kernel)
      (by decide +kernel) rfl (by decide +kernel),
    registerSignature_eq_ok "Transfer".toList "Transfer(address,address,uint256)".toList
      "from".toList "to".toList "tokenId".toList true rfl (by decide +kernel) (by decide +kernel) rfl
      (by decide +kernel),
    fun log => ?_⟩
  refine ⟨fun h => (agrees_trc721_iff rfl htransfer log).1 h.2.2, fun h => ⟨?_, ?_,
    (agrees_trc721_iff rfl htransfer log).2 h⟩⟩
  · refine agrees_trc20 (fun log x => Trc20Transfer.mk log.address x.1 x.2.1 x.2.2) rfl htransfer
      (fun _ => rfl) ?_ log
    exact fun _ _ _ _ => rfl
  · refine agrees_trc20 (fun log x => Trc20Approval.mk log.address x.1 x.2.1 x.2.2) rfl happroval
      (fun _ => rfl) ?_ log
    exact fun _ _ _ _ => rfl

/-- The hash of the two signatures and nothing else. -/
def tokenTopics (bytes : List UInt8) : List.Vector UInt8 32 :=
  if bytes = asBytes "Transfer(address,address,uint256)".toList then trc20TransferTopic0
  else if bytes = asBytes "Approval(address,address,uint256)".toList then trc20ApprovalTopic0
  else List.Vector.replicate 32 0

/-- A TRC-721 transfer from one address to another, without data. -/
def plainTransfer : Log :=
  ⟨Address.fill 0x41, [trc20TransferTopic0, ⟨List.replicate 12 0 ++ List.replicate 20 1, rfl⟩,
    ⟨List.replicate 12 0 ++ List.replicate 20 2, rfl⟩, List.Vector.replicate 32 3], []⟩

/-- With these hashes all three agree on a TRC-721 transfer without data, which the decoder
returns and so the registry too. -/
theorem builtin_agrees_trc721Transfer :
    ∃ transfer20 approval20 transfer721 e d,
      EventRegistry.new.registerSignature tokenTopics trc20TransferDecl = .ok transfer20 ∧
      EventRegistry.new.registerSignature tokenTopics trc20ApprovalDecl = .ok approval20 ∧
      EventRegistry.new.registerSignature tokenTopics trc721TransferDecl = .ok transfer721 ∧
      (Agrees Trc20Transfer.values decodeTrc20Transfer transfer20 plainTransfer ∧
        Agrees Trc20Approval.values decodeTrc20Approval approval20 plainTransfer ∧
        Agrees Trc721Transfer.values decodeTrc721Transfer transfer721 plainTransfer) ∧
      decodeTrc721Transfer plainTransfer = some e ∧
      transfer721.decode plainTransfer = some (.ok (some d)) ∧
      d.params.map Prod.snd = e.values := by
  obtain ⟨transfer20, approval20, transfer721, h20, happroval, h721, h⟩ :=
    builtin_agrees_iff tokenTopics (if_pos rfl) (by decide +kernel)
  have hall := (h plainTransfer).2 (.inr rfl)
  have hsome : (decodeTrc721Transfer plainTransfer).isSome = true := by decide +kernel
  obtain ⟨e, he⟩ := Option.isSome_iff_exists.1 hsome
  obtain ⟨d, hd⟩ := hall.2.2.1.1 ⟨e, he⟩
  exact ⟨transfer20, approval20, transfer721, e, d, h20, happroval, h721, hall, he, hd,
    hall.2.2.2 e d he hd⟩

/-- A TRC-721 transfer with a byte of data: the decoder returns it, the registry an
error. -/
theorem trc721_with_data :
    ∃ transfer721, EventRegistry.new.registerSignature tokenTopics trc721TransferDecl =
        .ok transfer721 ∧
      ¬ Agrees Trc721Transfer.values decodeTrc721Transfer transfer721
        ⟨Address.fill 0x41, trc20TransferTopic0 :: List.replicate 3 (List.Vector.replicate 32 1),
          [0]⟩ := by
  refine ⟨_, registerSignature_eq_ok "Transfer".toList "Transfer(address,address,uint256)".toList
      "from".toList "to".toList "tokenId".toList true rfl (by decide +kernel) (by decide +kernel) rfl
      (by decide +kernel), fun h => ?_⟩
  have htopic : tokenTopics (asBytes "Transfer(address,address,uint256)".toList) =
      trc20TransferTopic0 := if_pos rfl
  rcases (agrees_trc721_iff rfl htopic _).1 h with hshape | hdata
  · exact hshape ⟨rfl, rfl⟩
  · cases hdata

end Lightcycle
