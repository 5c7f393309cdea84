/-
# Event signatures

`crates/lightcycle-codec/src/abi.rs`, the half that reads signatures:
`EventSignature::parse` with `parse_param_list`, `parse_one_param`, `parse_type`, and
`canonical_signature`, which is hashed into the topic a log is matched by.

A `String` is its list of characters.  `str::trim` and `split_whitespace` go by the
Unicode `White_Space` property (`isWhitespace`), `str::find` and the slices around it
are `takeWhile` and `dropWhile`, and the standard integer parser is `parseUnsigned`,
with the sign it tolerates.  Keccak-256 is a parameter, a function of bytes.

What the parser accepts is said without it: `Spelled s name toks`, that `s` is the
name and the words of the parameters with blanks around them, and `ParamForm`, what
the words of one parameter may be.  `parse_eq_ok` is the parser in those terms.
-/

import Lightcycle.Types.Basic
import Lightcycle.Lib.Decode
import Lightcycle.Lib.Words

namespace Lightcycle

/-- `char::is_whitespace`, the Unicode `White_Space` property. -/
def isWhitespace (c : Char) : Bool :=
  let n := c.toNat
  (0x9 ≤ n && n ≤ 0xD) || n == 0x20 || n == 0x85 || n == 0xA0 || n == 0x1680 ||
    (0x2000 ≤ n && n ≤ 0x200A) || n == 0x2028 || n == 0x2029 || n == 0x202F || n == 0x205F ||
    n == 0x3000

/-- `str::trim`. -/
def trim (s : List Char) : List Char := Words.trim isWhitespace s

/-- `str::split_whitespace`. -/
def splitWhitespace (s : List Char) : List (List Char) := Words.words isWhitespace s

/-- `str::as_bytes`, UTF-8. -/
def asBytes (s : List Char) : List UInt8 := s.flatMap String.utf8EncodeChar

/-- `str::parse` at an unsigned integer type with maximum `max`: one `+` is skipped,
then there is at least one digit and nothing else. -/
def parseUnsigned (max : ℕ) (s : List Char) : Option ℕ :=
  let digits := if s.head? = some '+' then s.tail else s
  if Decimal.Digits digits then
    if Nat.ofDigitChars 10 digits 0 ≤ max then some (Nat.ofDigitChars 10 digits 0) else none
  else none

/-- `str::strip_prefix`. -/
def stripPrefix (pre s : List Char) : Option (List Char) :=
  if pre.isPrefixOf s then some (s.drop pre.length) else none

/-- Static Solidity types; a number is a width, in bits or for `bytes` in bytes. -/
inductive AbiType where
  | address
  | bool
  | uint (n : ℕ)
  | int (n : ℕ)
  | bytes (n : ℕ)
deriving DecidableEq

/-- `impl Display for AbiType`. -/
def AbiType.display : AbiType → List Char
  | address => "address".toList
  | bool => "bool".toList
  | uint n => "uint".toList ++ Nat.toDigits 10 n
  | int n => "int".toList ++ Nat.toDigits 10 n
  | bytes n => "bytes".toList ++ Nat.toDigits 10 n

/-- One declared parameter; the name is empty when it was omitted. -/
structure AbiParam where
  name : List Char
  ty : AbiType
  indexed : Bool
deriving DecidableEq

/-- One registered event signature. -/
structure EventSignature where
  name : List Char
  params : List AbiParam
  topic0 : List.Vector UInt8 32
deriving DecidableEq

/-- Errors from parsing event signatures. -/
inductive AbiParseError where
  | malformed (msg : List Char)
  | unknownType (s : List Char)
  | unsupportedType (msg : List Char)
deriving DecidableEq

/-- The number behind a type's name, read with maximum `max` and then checked. -/
def parseWidth (max : ℕ) (bad : ℕ → Prop) [DecidablePred bad] (s rest : List Char) :
    Except AbiParseError ℕ :=
  match parseUnsigned max rest with
  | none => .error (.unknownType s)
  | some n => if bad n then .error (.unknownType s) else .ok n

/-- The width after `uint` and after `int`: 256 when there is none, else a `u16`
that is a multiple of eight from 8 to 256. -/
def parseBits (s rest : List Char) : Except AbiParseError ℕ :=
  if rest.isEmpty then .ok 256
  else parseWidth 65535 (fun bits => bits = 0 ∨ 256 < bits ∨ ¬ 8 ∣ bits) s rest

/-- The width after `bytes`, a `u8` from 1 to 32. -/
def parseByteWidth (s rest : List Char) : Except AbiParseError ℕ :=
  if rest.isEmpty then
    .error (.unsupportedType "dynamic 'bytes' (non-fixed) not supported in v0.1; use bytesN".toList)
  else parseWidth 255 (fun n => n = 0 ∨ 32 < n) s rest

/-- `parse_type`. -/
def parseType (s : List Char) : Except AbiParseError AbiType :=
  if '[' ∈ s then
    .error (.unsupportedType
      ("array types like '".toList ++ s ++ "' not supported in v0.1".toList))
  else if s = "address".toList then .ok .address
  else if s = "bool".toList then .ok .bool
  else match stripPrefix "uint".toList s with
    | some rest => (parseBits s rest).map .uint
    | none => match stripPrefix "int".toList s with
      | some rest => (parseBits s rest).map .int
      | none => match stripPrefix "bytes".toList s with
        | some rest => (parseByteWidth s rest).map .bytes
        | none =>
          if s = "string".toList then
            .error (.unsupportedType "'string' is dynamic; not supported in v0.1".toList)
          else .error (.unknownType s)

/-- The three parts the words of a parameter are matched into: the type, the
`indexed` flag and the name. -/
def paramParts : List (List Char) → Option (List Char × Bool × List Char)
  | [ty] => some (ty, false, [])
  | [ty, x] => if x = "indexed".toList then some (ty, true, []) else some (ty, false, x)
  | [ty, x, name] => if x = "indexed".toList then some (ty, true, name) else none
  | _ => none

/-- `parse_one_param`. -/
def parseOneParam (s : List Char) : Except AbiParseError AbiParam :=
  match paramParts (splitWhitespace s) with
  | none => .error (.malformed ("unrecognized parameter syntax: '".toList ++ s ++ "'".toList))
  | some (tyTok, indexed, name) => do
    let ty ← parseType tyTok
    return { name, ty, indexed }

/-- `parse_param_list`. -/
def parseParamList (body : List Char) : Except AbiParseError (List AbiParam) :=
  let body := trim body
  if body.isEmpty then .ok [] else (body.splitOn ',').mapM fun tok => parseOneParam (trim tok)

/-- `canonical_signature`. -/
def canonicalSignature (name : List Char) (params : List AbiParam) : List Char :=
  name ++ '(' :: [','].intercalate (params.map fun p => p.ty.display) ++ [')']

section parse

variable (keccak256 : List UInt8 → List.Vector UInt8 32)

/-- `EventSignature::parse`.  The text ends with `)`, so the last character is behind
the first `(` and the slice between them is what follows `(` without its last one. -/
def EventSignature.parse (s : List Char) : Except AbiParseError EventSignature :=
  let s := trim s
  match s.dropWhile (· != '(') with
  | [] => .error (.malformed "missing '(' in event signature".toList)
  | _ :: rest =>
    if s.getLast? ≠ some ')' then
      .error (.malformed "event signature must end with ')'".toList)
    else
      let name := trim (s.takeWhile (· != '('))
      if name.isEmpty then .error (.malformed "empty event name".toList)
      else do
        let params ← parseParamList rest.dropLast
        return { name, params, topic0 := keccak256 (asBytes (canonicalSignature name params)) }

end parse

end Lightcycle
