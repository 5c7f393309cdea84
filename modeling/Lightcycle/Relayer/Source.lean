/-
# What java-tron answers

`GrpcSource` of `crates/lightcycle-source/src/grpc.rs`, over the replies to its RPCs: the
bytes of a message, or a failure of the call.  Bytes that do not parse fail the call too.
The text of an error is its outermost context, the one that is logged.

Of the witnesses only those in the rotation are members of the SR set, and only their
addresses are checked (`mem_srMembers`, `exists_srMembers`).
-/

import Lightcycle.Codec.Contracts
import Lightcycle.Relayer.Fetcher

namespace Lightcycle

namespace Protocol

open Protobuf

/-- `protocol::Witness`. -/
structure Witness where
  address : List UInt8
  isJobs : Bool
deriving DecidableEq

/-- A witness as it is read. -/
def Witness.read (rs : List Record) : Option Witness := do
  let address ← Scalar.bytes.get (occ 1 rs)
  reads .int64 [2, 5, 6, 7, 8] rs
  reads .bytes [3] rs
  reads .string [4] rs
  let isJobs ← Scalar.bool.get (occ 9 rs)
  return { address, isJobs }

/-- `protocol::WitnessList::decode`. -/
def decodeWitnessList (bytes : List UInt8) : Option (List Witness) :=
  parse recursionLimit bytes >>= fun rs =>
    readAll Witness.read (recursionLimit - 1) (occ 1 rs)

end Protocol

namespace Relayer

/-- The reply to a call: the bytes of a message, none when the call fails. -/
abbrev Reply := Option (List UInt8)

/-- A call whose reply is decoded, under the context of its error. -/
def rpc {α : Type} (decode : List UInt8 → Option α) (context : String) (reply : Reply) :
    Except String α :=
  (reply.bind decode).elim (.error context) .ok

/-- An RPC succeeds when there is a reply and it decodes. -/
theorem rpc_eq_ok {α : Type} {decode : List UInt8 → Option α} {context : String} {reply : Reply}
    {a : α} : rpc decode context reply = .ok a ↔ ∃ bytes, reply = some bytes ∧ decode bytes = some a := by
  unfold rpc
  cases h : reply.bind decode with
  | none =>
    refine iff_of_false (fun h => by cases h) ?_
    rintro ⟨bytes, rfl, hdecode⟩
    rw [Option.bind_some, hdecode] at h
    cases h
  | some b =>
    rw [← Option.bind_eq_some_iff, h, Option.elim_some, Option.some.injEq]
    exact Except.ok.injEq b a ▸ Iff.rfl

namespace GrpcSource

/-- `fetch_now_block`. -/
def fetchNowBlock : Reply → Except String Protocol.Block :=
  rpc Protocol.Block.decode "get_now_block rpc failed"

/-- `fetch_block`. -/
def fetchBlock (getBlockByNum : ℕ → Reply) (height : ℕ) : Except String Protocol.Block :=
  if height < 2 ^ 63 then
    rpc Protocol.Block.decode "get_block_by_num rpc failed (closed in lite-fullnode mode)"
      (getBlockByNum height)
  else .error "height exceeds i64::MAX (decades from now)"

/-- The head of `fetch_solidified_head`: none without a header or its raw data. -/
def solidifiedHead (block : Protocol.Block) : Except String (Option ℕ) :=
  (block.blockHeader.bind (·.rawData)).elim (.ok none) fun raw =>
    if raw.number < 0 then
      .error ("solidified head returned negative number (" ++ toString raw.number.toInt ++
        "); chain-level bug")
    else .ok (some raw.number.toInt.toNat)

/-- `fetch_solidified_head`. -/
def fetchSolidifiedHead (reply : Reply) : Except String (Option ℕ) := do
  let block ← rpc Protocol.Block.decode "walletsolidity.get_now_block rpc failed" reply
  solidifiedHead block

/-- `fetch_transaction_info_by_block_num`. -/
def fetchTransactionInfoByBlockNum (reply : ℕ → Reply) (height : ℕ) :
    Except String (List Protocol.TransactionInfo) :=
  if height < 2 ^ 63 then
    rpc Protocol.decodeInfoList "get_transaction_info_by_block_num rpc failed" (reply height)
  else .error "height exceeds i64::MAX"

/-- The loop of `fetch_active_sr_set`: a witness out of the rotation is skipped, and the
first one in it whose address is not 21 bytes is the error. -/
def srMembers : List Protocol.Witness → Except String (List Address)
  | [] => .ok []
  | w :: ws =>
    if w.isJobs = false then srMembers ws
    else if h : w.address.length = 21 then (srMembers ws).map (⟨⟨w.address, h⟩⟩ :: ·)
    else .error ("witness address has wrong length: got " ++ toString w.address.length ++
      " bytes, expected 21")

/-- `fetch_active_sr_set`. -/
def fetchActiveSrSet (reply : Reply) : Except String SrSet := do
  let witnesses ← rpc Protocol.decodeWitnessList "list_witnesses rpc failed" reply
  (srMembers witnesses).map SrSet.new

/-- **The members are the witnesses in the rotation**, with an address of the right length.
-/
theorem mem_srMembers {ws : List Protocol.Witness} {as : List Address} (h : srMembers ws = .ok as)
    {a : Address} : a ∈ as ↔ ∃ w ∈ ws, w.isJobs = true ∧ w.address = a.bytes.toList := by
  induction ws generalizing as with
  | nil =>
    obtain rfl := Except.ok.inj h
    simp
  | cons w ws ih =>
    rw [srMembers] at h
    rw [List.exists_mem_cons_iff]
    split_ifs at h with hjobs hlen
    · simp [ih h, hjobs]
    · obtain ⟨rest, hrest, rfl⟩ := Decode.map_eq_ok.1 h
      have hhead : a = ⟨⟨w.address, hlen⟩⟩ ↔ w.isJobs = true ∧ w.address = a.bytes.toList := by
        rw [Bool.not_eq_false] at hjobs
        constructor
        · rintro rfl
          exact ⟨hjobs, rfl⟩
        · rintro ⟨-, hw⟩
          obtain ⟨bytes⟩ := a
          exact congrArg Address.mk (Subtype.ext hw.symm)
      rw [List.mem_cons, hhead, ih hrest]

/-- There is an SR set when every witness in the rotation has an address. -/
theorem exists_srMembers {ws : List Protocol.Witness} :
    (∃ as, srMembers ws = .ok as) ↔ ∀ w ∈ ws, w.isJobs = true → w.address.length = 21 := by
  induction ws with
  | nil => exact iff_of_true ⟨[], rfl⟩ fun _ hw => (List.not_mem_nil hw).elim
  | cons w ws ih =>
    rw [List.forall_mem_cons, ← ih, srMembers]
    split_ifs with hjobs hlen
    · simp [hjobs]
    · constructor
      · rintro ⟨as, has⟩
        obtain ⟨rest, hrest, -⟩ := Decode.map_eq_ok.1 has
        exact ⟨fun _ => hlen, rest, hrest⟩
      · rintro ⟨-, rest, hrest⟩
        exact ⟨_, Decode.map_eq_ok.2 ⟨rest, hrest, rfl⟩⟩
    · rw [Bool.not_eq_false] at hjobs
      exact iff_of_false (fun ⟨_, h⟩ => by cases h) fun h => hlen (h.1 hjobs)

/-- A fetched SR set is the witnesses of the reply that are in the rotation. -/
theorem exists_witnesses {reply : Reply} {sr : SrSet} (h : fetchActiveSrSet reply = .ok sr) :
    ∃ bytes ws, reply = some bytes ∧ Protocol.decodeWitnessList bytes = some ws ∧
      ∀ a, sr.contains a = true → ∃ w ∈ ws, w.isJobs = true ∧ w.address = a.bytes.toList := by
  obtain ⟨ws, hws, h⟩ := Decode.bind_eq_ok.1 h
  obtain ⟨as, has, rfl⟩ := Decode.map_eq_ok.1 h
  obtain ⟨bytes, hbytes, hdecode⟩ := rpc_eq_ok.1 hws
  exact ⟨bytes, ws, hbytes, hdecode, fun a ha => (mem_srMembers has).1 (SrSet.contains_new.1 ha)⟩

/-- A solidified head is a `u64`. -/
theorem lt_of_fetchSolidifiedHead {reply : Reply} {s : ℕ}
    (h : fetchSolidifiedHead reply = .ok (some s)) : s < 2 ^ 64 := by
  obtain ⟨block, -, h⟩ := Decode.bind_eq_ok.1 h
  unfold solidifiedHead at h
  cases hraw : block.blockHeader.bind (·.rawData) with
  | none =>
    rw [hraw] at h
    cases h
  | some raw =>
    rw [hraw, Option.elim_some] at h
    split_ifs at h
    obtain rfl := Option.some.inj (Except.ok.inj h)
    have hlt := raw.number.toInt_lt
    omega

end GrpcSource

/-! ### The fetcher -/

/-- The replies a tick gets. -/
structure Replies where
  solidity : Reply
  nowBlock : Reply
  transactionInfo : ℕ → Reply

/-- `GrpcBlockFetcher::fetch_now_block`. -/
def GrpcBlockFetcher.fetchNowBlock (p : Protocol.PayloadDecoders)
    (sha256 : List UInt8 → List.Vector UInt8 32) (fetchTxInfo : Bool) (r : Replies) :
    Except String FetchedBlock :=
  Relayer.fetchNowBlock fetchTxInfo
    ((GrpcSource.fetchNowBlock r.nowBlock).bind fun block =>
      (decodeBlockMessage p sha256 block).mapError fun _ => "codec decode failed")
    (GrpcSource.fetchTransactionInfoByBlockNum r.transactionInfo)

/-- The block and the receipts were decoded from replies of the tick, the receipts unless
there are none. -/
structure Replies.Carry (p : Protocol.PayloadDecoders)
    (sha256 : List UInt8 → List.Vector UInt8 32) (r : Replies) (d : DecodedBlock)
    (txInfos : List DecodedTxInfo) : Prop where
  block : ∃ bytes, r.nowBlock = some bytes ∧ decodeBlock p sha256 bytes = .ok d
  txInfos : txInfos = [] ∨ ∃ bytes, r.transactionInfo d.header.height = some bytes ∧
    decodeTransactionInfoList bytes = .ok txInfos

/-- **What the fetcher returns is what the replies carry**: the block of the `GetNowBlock`
reply, and receipts decoded from the other one. -/
theorem GrpcBlockFetcher.carry_of_fetchNowBlock {p : Protocol.PayloadDecoders}
    {sha256 : List UInt8 → List.Vector UInt8 32} {fetchTxInfo : Bool} {r : Replies}
    {fetched : FetchedBlock} (h : fetchNowBlock p sha256 fetchTxInfo r = .ok fetched) :
    r.Carry p sha256 fetched.decoded fetched.txInfos := by
  obtain ⟨hnow, hinfos⟩ := fetchNowBlock_cases h
  refine ⟨?_, ?_⟩
  · obtain ⟨block, hblock, hdecoded⟩ := Decode.bind_eq_ok.1 hnow
    obtain ⟨bytes, hbytes, hdecode⟩ := rpc_eq_ok.1 hblock
    exact ⟨bytes, hbytes, Decode.bind_eq_ok.2
      ⟨block, orProtoDecode_eq_ok.2 hdecode, Decode.mapError_eq_ok.1 hdecoded⟩⟩
  · rcases hinfos with ⟨hnil, -⟩ | ⟨list, -, hlist, hdecode⟩
    · exact Or.inl hnil
    · unfold GrpcSource.fetchTransactionInfoByBlockNum at hlist
      split_ifs at hlist
      obtain ⟨bytes, hbytes, hread⟩ := rpc_eq_ok.1 hlist
      exact Or.inr ⟨bytes, hbytes,
        Decode.bind_eq_ok.2 ⟨list, orProtoDecode_eq_ok.2 hread, hdecode⟩⟩

end Relayer
end Lightcycle
