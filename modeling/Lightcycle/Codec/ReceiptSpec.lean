/-
# Receipts are accepted exactly, and refused at the first fault

`decode_transaction_info_list` against two predicates on the messages that do not mention
the decoders: `KeptInfo` is what a receipt keeps of its message, which is less than the
message has, and `InfoFault` the one error of a receipt that is refused.  The fields are
checked in the order of the source, the id before the contract's address, the logs and the
internal transactions, and within a list the first fault counts
(`decodeTransactionInfoMessage_eq_ok`, `decodeTransactionInfoMessage_eq_error`).

Two fields are not checked.  A topic is made a word of 32 bytes from whatever there is, and
the number of the block is 0 where the message has a negative one.
-/

import Lightcycle.Codec.Contracts

namespace Lightcycle

/-! ### The checks of a length -/

/-- An address is refused for its length only, and the error names the field and the length.
-/
theorem bytesToAddress_eq_error {b : List UInt8} {field : String} {e : CodecError} :
    bytesToAddress b field = .error e ↔ b.length ≠ 21 ∧ .badAddress field b.length = e := by
  unfold bytesToAddress
  by_cases h : b.length = 21
  · rw [dif_pos h]
    exact iff_of_false (fun h => by cases h) fun hne => hne.1 h
  · rw [dif_neg h, Except.error.injEq]
    exact ⟨fun he => ⟨h, he⟩, fun he => he.2⟩

/-- So is a hash. -/
theorem bytesToHash32_eq_error {b : List UInt8} {field : String} {e : CodecError} :
    bytesToHash32 b field = .error e ↔ b.length ≠ 32 ∧ .badHash field b.length = e := by
  unfold bytesToHash32
  by_cases h : b.length = 32
  · rw [dif_pos h]
    exact iff_of_false (fun h => by cases h) fun hne => hne.1 h
  · rw [dif_neg h, Except.error.injEq]
    exact ⟨fun he => ⟨h, he⟩, fun he => he.2⟩

/-- The contract address that is read has the bytes of the field, and is none when there are
none. -/
theorem decodeContractAddress_eq_ok {b : List UInt8} {a : Option Address} :
    decodeContractAddress b = .ok a ↔ (a.map fun a => a.bytes.toList).getD [] = b := by
  unfold decodeContractAddress
  cases b with
  | nil =>
    cases a with
    | none => exact iff_of_true rfl rfl
    | some a => exact iff_of_false (fun h => by cases h) fun h => a.toList_ne_nil h
  | cons x b =>
    rw [if_neg (by simp), Decode.map_eq_ok]
    cases a with
    | none => exact iff_of_false (fun ⟨_, _, h⟩ => by cases h) fun h => by cases h
    | some a =>
      simp only [bytesToAddress_eq_ok, Option.some.injEq, exists_eq_right, Option.map_some,
        Option.getD_some]

/-- It is refused when there are bytes, but not as many as an address has. -/
theorem decodeContractAddress_eq_error {b : List UInt8} {e : CodecError} :
    decodeContractAddress b = .error e ↔
      b ≠ [] ∧ b.length ≠ 21 ∧ .badAddress "TransactionInfo.contract_address" b.length = e := by
  unfold decodeContractAddress
  cases b with
  | nil => exact iff_of_false (fun h => by cases h) fun h => h.1 rfl
  | cons x b =>
    have herr : ∀ {y : Except CodecError Address}, y.map some = .error e ↔ y = .error e := by
      intro y
      cases y with
      | ok a => exact iff_of_false (fun h => by cases h) fun h => by cases h
      | error e' => exact ⟨fun h => congrArg _ (Except.error.inj h), fun h => by rw [h]; rfl⟩
    rw [if_neg (by simp), herr, bytesToAddress_eq_error]
    exact ⟨fun h => ⟨List.cons_ne_nil _ _, h⟩, fun h => h.2⟩

/-! ### What is kept -/

/-- What is kept of a topic as a word: all of it behind zeros, or the first 32 bytes of one
that is longer. -/
inductive KeptTopic (t : List UInt8) (w : List.Vector UInt8 32) : Prop
  | short (zeros : ℕ) (h : w.toList = List.replicate zeros 0 ++ t)
  | long (rest : List UInt8) (h : t = w.toList ++ rest)

/-- A topic as a word. -/
def topicWord (t : List UInt8) : List.Vector UInt8 32 := ⟨padTopic t, length_padTopic t⟩

/-- The word of a topic is the only one that keeps it. -/
theorem topicWord_eq_iff {t : List UInt8} {w : List.Vector UInt8 32} :
    topicWord t = w ↔ KeptTopic t w := by
  have hpad : topicWord t = w ↔ padTopic t = w.toList :=
    List.Vector.toList_injective.eq_iff.symm
  rw [hpad, padTopic]
  constructor
  · intro h
    rcases le_total t.length 32 with hle | hle
    · rw [List.take_of_length_le hle] at h
      exact .short _ h.symm
    · rw [min_eq_right hle, Nat.sub_self, List.replicate_zero, List.nil_append] at h
      exact .long (t.drop 32) (by rw [← h, List.take_append_drop])
  · have hw := w.toList_length
    rintro (⟨zeros, h⟩ | ⟨rest, rfl⟩)
    · rw [h, List.length_append, List.length_replicate] at hw
      have hzeros : 32 - min t.length 32 = zeros := by omega
      rw [h, hzeros, List.take_of_length_le (by omega)]
    · rw [List.take_left' hw, List.length_append, hw, min_eq_right (by omega), Nat.sub_self,
        List.replicate_zero, List.nil_append]

/-- What is kept of a log: the topics one by one, as words. -/
structure KeptLog (l : Protocol.Log) (d : Log) : Prop where
  address : d.address.bytes.toList = l.address
  topics : List.Forall₂ KeptTopic l.topics d.topics
  data : d.data = l.data

/-- A log is decoded to what is kept of it. -/
theorem decodeLog_eq_ok {l : Protocol.Log} {d : Log} : decodeLog l = .ok d ↔ KeptLog l d := by
  have hlog : decodeLog l = bytesToAddress l.address "Log.address" >>= fun address =>
      .ok { address, topics := l.topics.map topicWord, data := l.data } := rfl
  have htopics : l.topics.map topicWord = d.topics ↔ List.Forall₂ KeptTopic l.topics d.topics := by
    rw [← List.forall₂_eq_eq_eq, List.forall₂_map_left_iff]
    simp only [topicWord_eq_iff]
  rw [hlog, Decode.bind_eq_ok]
  constructor
  · rintro ⟨a, ha, h⟩
    obtain rfl := Except.ok.inj h
    exact ⟨bytesToAddress_eq_ok.1 ha, htopics.1 rfl, rfl⟩
  · rintro ⟨haddress, hd, hdata⟩
    refine ⟨d.address, bytesToAddress_eq_ok.2 haddress, ?_⟩
    rw [htopics.2 hd, ← hdata]

/-- What is kept of an internal transaction. -/
structure KeptInternal (i : Protocol.InternalTransaction) (d : InternalTx) : Prop where
  hash : d.hash.toList = i.hash
  caller : d.caller.bytes.toList = i.callerAddress
  transferTo : d.transferTo.bytes.toList = i.transferToAddress
  callValues : d.callValues = i.callValueInfo.map fun c => ⟨c.callValue, c.tokenId⟩
  rejected : d.rejected = i.rejected
  note : d.note = i.note

/-- An internal transaction is decoded to what is kept of it. -/
theorem decodeInternal_eq_ok {i : Protocol.InternalTransaction} {d : InternalTx} :
    decodeInternal i = .ok d ↔ KeptInternal i d := by
  unfold decodeInternal
  constructor
  · intro h
    obtain ⟨hash, hhash, h⟩ := Decode.bind_eq_ok.1 h
    obtain ⟨caller, hcaller, h⟩ := Decode.bind_eq_ok.1 h
    obtain ⟨transferTo, hto, h⟩ := Decode.bind_eq_ok.1 h
    obtain rfl := Except.ok.inj h
    exact ⟨bytesToHash32_eq_ok.1 hhash, bytesToAddress_eq_ok.1 hcaller, bytesToAddress_eq_ok.1 hto,
      rfl, rfl, rfl⟩
  · intro h
    refine Decode.bind_eq_ok.2 ⟨d.hash, bytesToHash32_eq_ok.2 h.hash, Decode.bind_eq_ok.2
      ⟨d.caller, bytesToAddress_eq_ok.2 h.caller, Decode.bind_eq_ok.2
        ⟨d.transferTo, bytesToAddress_eq_ok.2 h.transferTo, congrArg Except.ok ?_⟩⟩⟩
    rw [← h.callValues, ← h.rejected, ← h.note]

/-- What is kept of the resource costs: all of them, and nothing used where there are none. -/
inductive KeptResource : Option Protocol.ResourceReceipt → ResourceCost → Prop
  | none : KeptResource none ⟨0, 0, 0, 0, 0, 0, 0⟩
  | some (r : Protocol.ResourceReceipt) (c : ResourceCost)
    (energy : c.energyUsage = r.energyUsage ∧ c.energyFee = r.energyFee ∧
      c.originEnergyUsage = r.originEnergyUsage ∧ c.energyUsageTotal = r.energyUsageTotal ∧
      c.energyPenaltyTotal = r.energyPenaltyTotal)
    (net : c.netUsage = r.netUsage ∧ c.netFee = r.netFee) : KeptResource (.some r) c

/-- The resource costs are decoded to what is kept of them. -/
theorem decodeResource_eq_iff {r : Option Protocol.ResourceReceipt} {c : ResourceCost} :
    c = (r.map decodeResource).getD .default ↔ KeptResource r c := by
  cases r with
  | none =>
    constructor
    · rintro rfl
      exact .none
    · rintro ⟨⟩
      rfl
  | some r =>
    constructor
    · rintro rfl
      exact .some r _ ⟨rfl, rfl, rfl, rfl, rfl⟩ ⟨rfl, rfl⟩
    · intro h
      cases h with
      | some _ _ energy net =>
        obtain ⟨h₁, h₂, h₃, h₄, h₅⟩ := energy
        rw [Option.map_some, Option.getD_some, decodeResource, ← h₁, ← h₂, ← h₃, ← h₄, ← h₅, ← net.1,
          ← net.2]

/-- What is kept of a receipt. -/
structure KeptInfo (info : Protocol.TransactionInfo) (d : DecodedTxInfo) : Prop where
  txHash : d.txHash.bytes.toList = info.id
  blockHeight : d.blockHeight = info.blockNumber.toNat
  blockTimestampMs : d.blockTimestampMs = info.blockTimeStamp
  feeSun : d.feeSun = info.fee
  success : d.success = decide (info.result = 0)
  contractAddress : (d.contractAddress.map fun a => a.bytes.toList).getD [] = info.contractAddress
  resource : KeptResource info.receipt d.resource
  logs : List.Forall₂ KeptLog info.log d.logs
  internal : List.Forall₂ KeptInternal info.internalTransactions d.internalTransactions

/-- **A receipt is decoded to what is kept of it.** There is at most one such receipt, and
there is one exactly when no field has a fault. -/
theorem decodeTransactionInfoMessage_eq_ok {info : Protocol.TransactionInfo} {d : DecodedTxInfo} :
    decodeTransactionInfoMessage info = .ok d ↔ KeptInfo info d := by
  unfold decodeTransactionInfoMessage
  constructor
  · intro h
    obtain ⟨txHash, hid, h⟩ := Decode.bind_eq_ok.1 h
    obtain ⟨contractAddress, hcontract, h⟩ := Decode.bind_eq_ok.1 h
    obtain ⟨logs, hlogs, h⟩ := Decode.bind_eq_ok.1 h
    obtain ⟨internal, hinternal, h⟩ := Decode.bind_eq_ok.1 h
    obtain rfl := Except.ok.inj h
    simp only [Decode.mapM_eq_ok, decodeLog_eq_ok] at hlogs
    simp only [Decode.mapM_eq_ok, decodeInternal_eq_ok] at hinternal
    exact ⟨toList_of_bytesToTxHash hid, rfl, rfl, rfl, rfl, decodeContractAddress_eq_ok.1 hcontract,
      decodeResource_eq_iff.1 rfl, hlogs, hinternal⟩
  · intro h
    have hid : bytesToTxHash info.id "TransactionInfo.id" = .ok d.txHash :=
      Decode.map_eq_ok.2 ⟨d.txHash.bytes, bytesToHash32_eq_ok.2 h.txHash, rfl⟩
    have hlogs : info.log.mapM decodeLog = .ok d.logs := by
      simpa only [Decode.mapM_eq_ok, decodeLog_eq_ok] using h.logs
    have hinternal : info.internalTransactions.mapM decodeInternal = .ok d.internalTransactions := by
      simpa only [Decode.mapM_eq_ok, decodeInternal_eq_ok] using h.internal
    refine Decode.bind_eq_ok.2 ⟨_, hid, Decode.bind_eq_ok.2
      ⟨_, decodeContractAddress_eq_ok.2 h.contractAddress, Decode.bind_eq_ok.2
        ⟨_, hlogs, Decode.bind_eq_ok.2 ⟨_, hinternal, congrArg Except.ok ?_⟩⟩⟩⟩
    have hsuccess : d.success = decide (info.result = Protocol.sucess) := h.success
    rw [← h.blockHeight, ← h.blockTimestampMs, ← h.feeSun, ← hsuccess,
      ← decodeResource_eq_iff.2 h.resource]

/-! ### What is refused -/

/-- Bytes that do not parse give the one error that says so. -/
theorem orProtoDecode_eq_error {α : Type} {x : Option α} {e : CodecError} :
    orProtoDecode x = .error e ↔ x = none ∧ e = .protoDecode := by
  cases x with
  | none => exact ⟨fun h => ⟨rfl, (Except.error.inj h).symm⟩, fun h => by rw [h.2]; rfl⟩
  | some a => exact iff_of_false (fun h => by cases h) fun h => by cases h.1

/-- A decoder fails on what it does not accept. -/
theorem exists_ok_iff_not_error {α : Type} {x : Except CodecError α} :
    (∃ a, x = .ok a) ↔ ∀ e, x ≠ .error e := by
  cases x with
  | error e => exact iff_of_false (fun ⟨_, h⟩ => by cases h) fun h => h e rfl
  | ok a => exact iff_of_true ⟨a, rfl⟩ fun _ h => by cases h

/-- The fault of a log. -/
inductive LogFault (l : Protocol.Log) : CodecError → Prop
  | address (h : l.address.length ≠ 21) : LogFault l (.badAddress "Log.address" l.address.length)

/-- The first fault of an internal transaction. -/
inductive InternalFault (i : Protocol.InternalTransaction) : CodecError → Prop
  | hash (h : i.hash.length ≠ 32) :
    InternalFault i (.badHash "InternalTransaction.hash" i.hash.length)
  | caller (hhash : i.hash.length = 32) (h : i.callerAddress.length ≠ 21) :
    InternalFault i (.badAddress "InternalTransaction.caller_address" i.callerAddress.length)
  | transferTo (hhash : i.hash.length = 32) (hcaller : i.callerAddress.length = 21)
    (h : i.transferToAddress.length ≠ 21) :
    InternalFault i (.badAddress "InternalTransaction.transferTo_address" i.transferToAddress.length)

/-- The first fault of a receipt. -/
inductive InfoFault (info : Protocol.TransactionInfo) : CodecError → Prop
  | id (h : info.id.length ≠ 32) : InfoFault info (.badHash "TransactionInfo.id" info.id.length)
  | contractAddress (hid : info.id.length = 32) (hne : info.contractAddress ≠ [])
    (h : info.contractAddress.length ≠ 21) :
    InfoFault info (.badAddress "TransactionInfo.contract_address" info.contractAddress.length)
  | log (hid : info.id.length = 32)
    (hcontract : info.contractAddress = [] ∨ info.contractAddress.length = 21)
    {pre post : List Protocol.Log} {l : Protocol.Log} {e : CodecError}
    (hsplit : info.log = pre ++ l :: post) (hpre : ∀ x ∈ pre, ∀ e, ¬ LogFault x e)
    (h : LogFault l e) : InfoFault info e
  | internal (hid : info.id.length = 32)
    (hcontract : info.contractAddress = [] ∨ info.contractAddress.length = 21)
    (hlogs : ∀ l ∈ info.log, ∀ e, ¬ LogFault l e)
    {pre post : List Protocol.InternalTransaction} {i : Protocol.InternalTransaction} {e : CodecError}
    (hsplit : info.internalTransactions = pre ++ i :: post)
    (hpre : ∀ x ∈ pre, ∀ e, ¬ InternalFault x e) (h : InternalFault i e) : InfoFault info e

/-- A log is refused for its address. -/
theorem decodeLog_eq_error {l : Protocol.Log} {e : CodecError} :
    decodeLog l = .error e ↔ LogFault l e := by
  unfold decodeLog
  rw [Decode.bind_eq_error, bytesToAddress_eq_error]
  constructor
  · rintro (⟨h, rfl⟩ | ⟨_, -, h⟩)
    · exact .address h
    · cases h
  · intro h
    cases h with
    | address h => exact .inl ⟨h, rfl⟩

/-- An address is there when the length is right. -/
theorem bytesToAddress_ok_iff {b : List UInt8} {field : String} :
    (∃ a, bytesToAddress b field = .ok a) ↔ b.length = 21 := by
  simp only [bytesToAddress_eq_ok, Address.exists_toList]

/-- A hash is there when the length is right. -/
theorem bytesToHash32_ok_iff {b : List UInt8} {field : String} :
    (∃ a, bytesToHash32 b field = .ok a) ↔ b.length = 32 := by
  simp only [bytesToHash32_eq_ok]
  exact ⟨fun ⟨a, h⟩ => h ▸ a.toList_length, fun h => ⟨⟨b, h⟩, rfl⟩⟩

/-- An internal transaction is refused for the first of its faults. -/
theorem decodeInternal_eq_error {i : Protocol.InternalTransaction} {e : CodecError} :
    decodeInternal i = .error e ↔ InternalFault i e := by
  unfold decodeInternal
  simp only [Decode.bind_eq_error, bytesToAddress_eq_error, bytesToHash32_eq_error]
  constructor
  · rintro (⟨h, rfl⟩ | ⟨hash, hhash, ⟨h, rfl⟩ | ⟨caller, hcaller, ⟨h, rfl⟩ | ⟨_, -, h⟩⟩⟩)
    · exact .hash h
    · exact .caller (bytesToHash32_ok_iff.1 ⟨_, hhash⟩) h
    · exact .transferTo (bytesToHash32_ok_iff.1 ⟨_, hhash⟩) (bytesToAddress_ok_iff.1 ⟨_, hcaller⟩) h
    · cases h
  · intro h
    cases h with
    | hash h => exact .inl ⟨h, rfl⟩
    | caller hhash h =>
      obtain ⟨hash, hhash⟩ := bytesToHash32_ok_iff.2 hhash
      exact .inr ⟨hash, hhash, .inl ⟨h, rfl⟩⟩
    | transferTo hhash hcaller h =>
      obtain ⟨hash, hhash⟩ := bytesToHash32_ok_iff.2 hhash
      obtain ⟨caller, hcaller⟩ := bytesToAddress_ok_iff.2 hcaller
      exact .inr ⟨hash, hhash, .inr ⟨caller, hcaller, .inl ⟨h, rfl⟩⟩⟩

/-- The first check of a receipt. -/
theorem bytesToTxHash_eq_error {b : List UInt8} {field : String} {e : CodecError} :
    bytesToTxHash b field = .error e ↔ b.length ≠ 32 ∧ .badHash field b.length = e := by
  rw [← bytesToHash32_eq_error]
  unfold bytesToTxHash
  cases bytesToHash32 b field with
  | ok a => exact iff_of_false (fun h => by cases h) fun h => by cases h
  | error e' => exact ⟨fun h => congrArg _ (Except.error.inj h), fun h => by rw [h]; rfl⟩

/-- A transaction hash is there when the length is right. -/
theorem bytesToTxHash_ok_iff {b : List UInt8} {field : String} :
    (∃ a, bytesToTxHash b field = .ok a) ↔ b.length = 32 := by
  rw [← @bytesToHash32_ok_iff b field]
  simp only [bytesToTxHash, Decode.map_eq_ok]
  exact ⟨fun ⟨_, a, ha, _⟩ => ⟨a, ha⟩, fun ⟨a, ha⟩ => ⟨_, a, ha, rfl⟩⟩

/-- A contract address is read from an empty field and from one with the length of an
address. -/
theorem decodeContractAddress_ok_iff {b : List UInt8} :
    (∃ a, decodeContractAddress b = .ok a) ↔ b = [] ∨ b.length = 21 := by
  simp only [decodeContractAddress_eq_ok, exists_innerAddress]

/-- **A receipt is refused for its first fault**, in the order in which the fields are
checked, and the error names the field. -/
theorem decodeTransactionInfoMessage_eq_error {info : Protocol.TransactionInfo} {e : CodecError} :
    decodeTransactionInfoMessage info = .error e ↔ InfoFault info e := by
  unfold decodeTransactionInfoMessage
  simp only [Decode.bind_eq_error, bytesToTxHash_eq_error, decodeContractAddress_eq_error,
    Decode.mapM_eq_error, exists_ok_iff_not_error, ne_eq, decodeLog_eq_error,
    decodeInternal_eq_error]
  constructor
  · rintro (⟨h, rfl⟩ | ⟨txHash, hid, ⟨hne, h, rfl⟩ | ⟨contractAddress, hcontract,
      ⟨pre, l, post, hsplit, hpre, h⟩ | ⟨logs, hlogs, ⟨pre, i, post, hsplit, hpre, h⟩ | ⟨_, -, h⟩⟩⟩⟩)
    · exact .id h
    · exact .contractAddress (bytesToTxHash_ok_iff.1 ⟨_, hid⟩) hne h
    · exact .log (bytesToTxHash_ok_iff.1 ⟨_, hid⟩) (decodeContractAddress_ok_iff.1 ⟨_, hcontract⟩)
        hsplit hpre h
    · have hall : ∀ l ∈ info.log, ∀ e, ¬ LogFault l e := by
        intro l hl e he
        obtain ⟨d, hd⟩ := Decode.exists_mapM_eq_ok.1 ⟨logs, hlogs⟩ l hl
        rw [decodeLog_eq_error.2 he] at hd
        cases hd
      exact .internal (bytesToTxHash_ok_iff.1 ⟨_, hid⟩)
        (decodeContractAddress_ok_iff.1 ⟨_, hcontract⟩) hall hsplit hpre h
    · cases h
  · intro h
    cases h with
    | id h => exact .inl ⟨h, rfl⟩
    | contractAddress hid hne h =>
      obtain ⟨txHash, hid⟩ := bytesToTxHash_ok_iff.2 hid
      exact .inr ⟨txHash, hid, .inl ⟨hne, h, rfl⟩⟩
    | @log hid hcontract pre post l e hsplit hpre h =>
      obtain ⟨txHash, hid⟩ := bytesToTxHash_ok_iff.2 hid
      obtain ⟨contractAddress, hcontract⟩ := decodeContractAddress_ok_iff.2 hcontract
      exact .inr ⟨txHash, hid, .inr ⟨contractAddress, hcontract,
        .inl ⟨pre, l, post, hsplit, hpre, h⟩⟩⟩
    | @internal hid hcontract hlogs pre post i e hsplit hpre h =>
      obtain ⟨txHash, hid⟩ := bytesToTxHash_ok_iff.2 hid
      obtain ⟨contractAddress, hcontract⟩ := decodeContractAddress_ok_iff.2 hcontract
      have hlogs : ∀ l ∈ info.log, ∃ d, decodeLog l = .ok d := by
        intro l hl
        rw [exists_ok_iff_not_error]
        exact fun e he => hlogs l hl e (decodeLog_eq_error.1 he)
      obtain ⟨logs, hlogs⟩ := Decode.exists_mapM_eq_ok.2 hlogs
      exact .inr ⟨txHash, hid, .inr ⟨contractAddress, hcontract, .inr ⟨logs, hlogs,
        .inl ⟨pre, i, post, hsplit, hpre, h⟩⟩⟩⟩

/-- **Receipts are decoded exactly.**  Of any bytes, `decode_transaction_info_list` returns a
list of receipts when the bytes parse and each message keeps what its receipt has, in order and
none dropped; and it returns an error when they do not parse, or for the first message with
a fault, the first of its faults. -/
theorem receipts_decode_exactly (raw : List UInt8) :
    (∀ infos, decodeTransactionInfoList raw = .ok infos ↔
      ∃ list, Protocol.decodeInfoList raw = some list ∧ List.Forall₂ KeptInfo list infos) ∧
    ∀ e, decodeTransactionInfoList raw = .error e ↔
      (Protocol.decodeInfoList raw = none ∧ e = .protoDecode) ∨
        ∃ pre info post, Protocol.decodeInfoList raw = some (pre ++ info :: post) ∧
          (∀ x ∈ pre, ∀ e, ¬ InfoFault x e) ∧ InfoFault info e := by
  unfold decodeTransactionInfoList decodeTransactionInfoListMessage
  refine ⟨fun infos => ?_, fun e => ?_⟩
  · simp only [Decode.bind_eq_ok, orProtoDecode_eq_ok, Decode.mapM_eq_ok,
      decodeTransactionInfoMessage_eq_ok]
  · simp only [Decode.bind_eq_error, orProtoDecode_eq_error, orProtoDecode_eq_ok,
      Decode.mapM_eq_error, exists_ok_iff_not_error, ne_eq, decodeTransactionInfoMessage_eq_error]
    refine or_congr Iff.rfl ⟨?_, ?_⟩
    · rintro ⟨list, hlist, pre, info, post, rfl, hpre, h⟩
      exact ⟨pre, info, post, hlist, hpre, h⟩
    · rintro ⟨pre, info, post, hlist, hpre, h⟩
      exact ⟨_, hlist, pre, info, post, rfl, hpre, h⟩

end Lightcycle
