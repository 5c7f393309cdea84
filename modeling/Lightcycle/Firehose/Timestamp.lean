/-
# Milliseconds as a timestamp

`timestamp_from_ms` of `encode.rs` and its copy in `server.rs`, on the integers the code
computes with: an `i64` of milliseconds, an `i64` of seconds and an `i32` of nanoseconds.
`google.protobuf.Timestamp` counts its nanoseconds forward from the second, in
`0..=999999999`, before 1970 as after it.  Both operators of `i64` round toward zero, so
that a time before 1970 which is not a whole second gets its nanoseconds with a minus
sign (`normalised_iff`).  Nothing else goes wrong: no step overflows (`steps_exact`) and
the milliseconds are recovered (`millis_timestampFromMs`) for every `i64`.

A header's time is `raw_data.timestamp` as it came, so that a block can carry such a time
into its payload and into the metadata beside it (`timestamps_of_wire`).
-/

import Lightcycle.Firehose.Server
import Lightcycle.Codec.BlockId

namespace Lightcycle
namespace Firehose

open Relayer

/-! ### What a timestamp is for -/

namespace Pb

/-- The nanoseconds are in the range that `google.protobuf.Timestamp` gives them. -/
def Timestamp.Normalised (t : Timestamp) : Prop := 0 ≤ t.nanos ∧ t.nanos ≤ 999999999

instance (t : Timestamp) : Decidable t.Normalised :=
  inferInstanceAs (Decidable (0 ≤ t.nanos ∧ t.nanos ≤ 999999999))

/-- The milliseconds of a timestamp. -/
def Timestamp.millis (t : Timestamp) : ℤ := t.seconds * 1000 + t.nanos / 1000000

/-- The whole milliseconds since 1970, the seconds rounded down. -/
def Timestamp.ofMillis (ms : ℤ) : Timestamp := ⟨ms / 1000, ms % 1000 * 1000000⟩

/-- The conforming timestamp has its nanos in `0 .. 999 999 999`. -/
theorem Timestamp.normalised_ofMillis (ms : ℤ) : (ofMillis ms).Normalised := by
  simp only [Normalised, ofMillis]
  omega

/-- It is that of the milliseconds. -/
theorem Timestamp.millis_ofMillis (ms : ℤ) : (ofMillis ms).millis = ms := by
  simp only [millis, ofMillis]
  omega

/-- A normalised timestamp without a fraction of a millisecond is the one of its
milliseconds. -/
theorem Timestamp.eq_ofMillis {t : Timestamp} (hn : t.Normalised) (hd : 1000000 ∣ t.nanos) :
    t = ofMillis t.millis := by
  obtain ⟨seconds, nanos⟩ := t
  simp only [Normalised] at hn hd
  simp only [ofMillis, millis, mk.injEq]
  omega

end Pb

/-! ### The two functions -/

namespace Machine

/-- `prost_types::Timestamp`. -/
structure Timestamp where
  seconds : Int64
  nanos : Int32
deriving DecidableEq

/-- The message with the values of the fields. -/
def Timestamp.toPb (t : Timestamp) : Pb.Timestamp := ⟨t.seconds.toInt, t.nanos.toInt⟩

/-- `timestamp_from_ms` of `encode.rs`. -/
def timestampFromMs (ms : Int64) : Timestamp where
  seconds := ms / 1000
  nanos := (ms % 1000 * 1000000).toInt32

/-- `timestamp_from_ms` of `server.rs`. -/
def Server.timestampFromMs (ms : Int64) : Timestamp where
  seconds := ms / 1000
  nanos := (ms % 1000 * 1000000).toInt32

/-- No step of `timestamp_from_ms` overflows, nor does the way back from the seconds. -/
structure StepsExact (ms : Int64) : Prop where
  quotient : (ms / 1000).toInt = ms.toInt.tdiv 1000
  remainder : (ms % 1000).toInt = ms.toInt.tmod 1000
  product : (ms % 1000 * 1000000).toInt = (ms % 1000).toInt * 1000000
  cast : (ms % 1000 * 1000000).toInt32.toInt = (ms % 1000 * 1000000).toInt
  scaled : (ms / 1000 * 1000).toInt = (ms / 1000).toInt * 1000

/-- Rounding toward zero is rounding down except below zero, between two seconds. -/
theorem tdiv_thousand (ms : ℤ) :
    ms.tdiv 1000 = if 0 ≤ ms ∨ 1000 ∣ ms then ms / 1000 else ms / 1000 + 1 := by
  rw [Int.tdiv_eq_ediv, show Int.sign 1000 = 1 from rfl]
  split_ifs <;> omega

/-- The remainder of the code is that of the floor, except below 0 where it is one divisor
less. -/
theorem tmod_thousand (ms : ℤ) :
    ms.tmod 1000 = if 0 ≤ ms ∨ 1000 ∣ ms then ms % 1000 else ms % 1000 - 1000 := by
  rw [Int.tmod_eq_emod, show Int.natAbs 1000 = 1000 from rfl]
  split_ifs <;> omega

/-- A product that fits does not wrap. -/
theorem toInt_mul_of_fits {a b : Int64} (hlo : -2 ^ 63 ≤ a.toInt * b.toInt)
    (hhi : a.toInt * b.toInt < 2 ^ 63) : (a * b).toInt = a.toInt * b.toInt := by
  rw [Int64.toInt_mul]
  exact Int.bmod_eq_of_le (by omega) (by omega)

/-- **No `i64` overflows on its way to a timestamp**: quotient, remainder and product all
fit, for every time. -/
theorem steps_exact (ms : Int64) : StepsExact ms := by
  have hlo := ms.le_toInt
  have hhi := ms.toInt_lt
  have hthousand : (1000 : Int64).toInt = 1000 := rfl
  have hmillion : (1000000 : Int64).toInt = 1000000 := rfl
  have hquotient : (ms / 1000).toInt = ms.toInt.tdiv 1000 :=
    Int64.toInt_div_of_ne_right ms 1000 (by decide)
  have hremainder : (ms % 1000).toInt = ms.toInt.tmod 1000 := Int64.toInt_mod ms 1000
  -- the remainder is below 1000 in absolute value, so the product fits even an `i32`
  have hbounds : -1000 < ms.toInt.tmod 1000 ∧ ms.toInt.tmod 1000 < 1000 :=
    ⟨Int.lt_tmod_of_pos _ (by decide), Int.tmod_lt_of_pos _ (by decide)⟩
  have hproduct : (ms % 1000 * 1000000).toInt = (ms % 1000).toInt * 1000000 := by
    rw [← hmillion]
    refine toInt_mul_of_fits ?_ ?_ <;> rw [hremainder, hmillion] <;> omega
  have hscaled : (ms / 1000 * 1000).toInt = (ms / 1000).toInt * 1000 := by
    rw [← hthousand]
    refine toInt_mul_of_fits ?_ ?_ <;> rw [hquotient, hthousand, tdiv_thousand] <;>
      split_ifs <;> omega
  refine ⟨hquotient, hremainder, hproduct, ?_, hscaled⟩
  rw [Int64.toInt_toInt32, hproduct, hremainder]
  exact Int.bmod_eq_of_le (by omega) (by omega)

/-- The two functions compute one timestamp, that of the encoder's integers. -/
theorem toPb_timestampFromMs (ms : Int64) :
    (timestampFromMs ms).toPb = Firehose.timestampFromMs ms.toInt := by
  have hexact := steps_exact ms
  simp only [Timestamp.toPb, timestampFromMs, Firehose.timestampFromMs, hexact.cast,
    hexact.product, hexact.remainder, hexact.quotient]

/-- The copy of the server is read as the one without machine integers. -/
theorem Server.toPb_timestampFromMs (ms : Int64) :
    (Server.timestampFromMs ms).toPb = Firehose.Server.timestampFromMs ms.toInt :=
  Machine.toPb_timestampFromMs ms

end Machine

/-! ### Where the nanoseconds are in range -/

/-- **The milliseconds are recovered from the timestamp**, also before 1970, where the
nanoseconds are negative. -/
theorem millis_timestampFromMs (ms : ℤ) : (timestampFromMs ms).millis = ms := by
  have hsplit := Int.tmod_add_mul_tdiv ms 1000
  simp only [Pb.Timestamp.millis, timestampFromMs]
  omega

/-- **The nanoseconds are in range from 1970 on, and at whole seconds before it.** Otherwise
the remainder is negative, since Rust rounds a quotient towards zero. -/
theorem normalised_timestampFromMs_iff (ms : ℤ) :
    (timestampFromMs ms).Normalised ↔ 0 ≤ ms ∨ 1000 ∣ ms := by
  simp only [Pb.Timestamp.Normalised, timestampFromMs, Machine.tmod_thousand]
  split_ifs <;> omega

/-- Where they are, the timestamp is the one rounded down. -/
theorem timestampFromMs_eq_ofMillis_iff (ms : ℤ) :
    timestampFromMs ms = Pb.Timestamp.ofMillis ms ↔ 0 ≤ ms ∨ 1000 ∣ ms := by
  rw [← normalised_timestampFromMs_iff]
  constructor
  · intro h
    rw [h]
    exact Pb.Timestamp.normalised_ofMillis ms
  · intro h
    have hwhole : (1000000 : ℤ) ∣ (timestampFromMs ms).nanos := Dvd.intro_left _ rfl
    rw [Pb.Timestamp.eq_ofMillis h hwhole, millis_timestampFromMs]

/-- What a timestamp of `ms` is asked for. -/
structure Conforms (ms : Int64) (t : Machine.Timestamp) : Prop where
  normalised : t.toPb.Normalised
  lossless : t.toPb.millis = ms.toInt
  exact : Machine.StepsExact ms

/-- **The conversion conforms** on times from 1970 on, and before only on whole seconds. -/
theorem conforms_timestampFromMs_iff (ms : Int64) :
    Conforms ms (Machine.timestampFromMs ms) ↔ 0 ≤ ms.toInt ∨ (1000 : ℤ) ∣ ms.toInt := by
  rw [← normalised_timestampFromMs_iff, ← Machine.toPb_timestampFromMs]
  constructor
  · exact Conforms.normalised
  · intro h
    refine ⟨h, ?_, Machine.steps_exact ms⟩
    rw [Machine.toPb_timestampFromMs, millis_timestampFromMs]

/-- **Both functions give a normalised timestamp exactly from 1970 on and at whole seconds
before it.** At any other instant before 1970 the truncating division leaves negative
nanoseconds, which a protobuf timestamp may not have; the encoder's copy and the server's
agree on this for every `i64`. -/
theorem timestamps_conform_iff (ms : Int64) :
    (Conforms ms (Machine.timestampFromMs ms) ↔ 0 ≤ ms.toInt ∨ (1000 : ℤ) ∣ ms.toInt) ∧
      (Conforms ms (Machine.Server.timestampFromMs ms) ↔
        0 ≤ ms.toInt ∨ (1000 : ℤ) ∣ ms.toInt) :=
  ⟨conforms_timestampFromMs_iff ms, conforms_timestampFromMs_iff ms⟩

/-! ### The times of a block -/

/-- The time of a decoded header is the `i64` of its message. -/
theorem timestampMs_of_decodeHeader {sha256 : List UInt8 → List.Vector UInt8 32}
    {h : Protocol.BlockHeader} {d : DecodedHeader} (hd : decodeHeader sha256 h = .ok d) :
    ∃ raw, h.rawData = some raw ∧ d.timestampMs = raw.timestamp.toInt := by
  unfold decodeHeader at hd
  cases hraw : h.rawData with
  | none =>
    rw [hraw] at hd
    cases hd
  | some raw =>
    rw [hraw] at hd
    obtain ⟨parentId, -, hd⟩ := Decode.bind_eq_ok.1 hd
    obtain ⟨txTrieRoot, -, hd⟩ := Decode.bind_eq_ok.1 hd
    obtain ⟨witness, -, hd⟩ := Decode.bind_eq_ok.1 hd
    exact ⟨raw, rfl, (congrArg DecodedHeader.timestampMs (Except.ok.inj hd)).symm⟩

/-- **A block from the wire has the two timestamps of its `raw_data.timestamp`,** one in the
payload and one in the metadata of its responses. -/
theorem timestamps_of_wire {p : Protocol.PayloadDecoders}
    {sha256 : List UInt8 → List.Vector UInt8 32} {block : Protocol.Block} {b : BufferedBlock}
    (h : decodeBlockMessage p sha256 block = .ok b.decoded) (finality : BlockFinality)
    (prost : Prost) (cursor : Cursor) (step : ForkStep) :
    ∃ hdr raw, block.blockHeader = some hdr ∧ hdr.rawData = some raw ∧
      (encodeBlock b finality).time = some (Machine.timestampFromMs raw.timestamp).toPb ∧
      (streamableToResponse prost ⟨.new, b, cursor, finality⟩ step).metadata.bind (·.time) =
        some (Machine.Server.timestampFromMs raw.timestamp).toPb := by
  obtain ⟨⟨hdr, hhdr, hheader⟩, -⟩ := decodeBlockMessage_eq_ok.1 h
  obtain ⟨raw, hraw, hms⟩ := timestampMs_of_decodeHeader hheader
  refine ⟨hdr, raw, hhdr, hraw, ?_, ?_⟩
  · rw [Machine.toPb_timestampFromMs, ← hms]
    rfl
  · rw [Machine.Server.toPb_timestampFromMs, ← hms]
    rfl

/-! ### One millisecond before 1970 -/

/-- A block of that time, with nothing in it. -/
def earlyBlock : Protocol.Block where
  transactions := []
  blockHeader := some ⟨some { bareRaw 1 with timestamp := -1 }, []⟩

/-- The block is accepted, and both of its timestamps are the second 0 and minus a million
nanoseconds. -/
theorem timestamps_conform_not_before_1970 :
    (∃ d, decodeBlockMessage noPayloads (digestOf []) earlyBlock = .ok d ∧
      d.header.timestampMs = (-1 : Int64).toInt) ∧
    (Machine.timestampFromMs (-1)).toPb = ⟨0, -1000000⟩ ∧
    (Machine.Server.timestampFromMs (-1)).toPb = ⟨0, -1000000⟩ ∧
    ¬ ∀ ms : Int64, Conforms ms (Machine.timestampFromMs ms) ∧
      Conforms ms (Machine.Server.timestampFromMs ms) := by
  refine ⟨⟨_, rfl, rfl⟩, by decide, by decide, fun h => ?_⟩
  have hnormalised := (h (-1)).1.normalised
  exact absurd hnormalised (by decide)

end Firehose
end Lightcycle
