import InterpretThis.Codecs.Unicode
import Mathlib.Data.List.Infix

namespace InterpretThis
namespace Codecs

inductive Failure where
  | typeError (message : Text)
  | valueError (message : Text)
  /-- An exception under its own name. -/
  | exception (type : String) (message : Text)
  deriving DecidableEq

inductive Argument where
  | str (t : Text)
  | other
  deriving DecidableEq

inductive Codec where
  | utf8
  | ascii
  | latin1
  | utf16 (order : Option ByteOrder)
  | utf32 (order : Option ByteOrder)
  | unicodeEscape
  deriving DecidableEq

def named (name : Text) (spellings : List String) : Bool := spellings.any fun s => s.toList==name

def lower (name : Text) : Text := name.map Char.toLower

/-- The arms of `str.encode`. -/
def encodeCodec (name : Text) : Option Codec :=
  if named name ["utf-8","utf_8","u8"] then some .utf8
  else if named name ["ascii","us-ascii"] then some .ascii
  else if named name ["latin-1","latin1","iso-8859-1","iso8859-1"] then some .latin1
  else if named name ["utf-16","utf16"] then some (.utf16 none)
  else if named name ["utf-16-le","utf-16le","utf_16_le"] then some (.utf16 (some .little))
  else if named name ["utf-16-be","utf-16be","utf_16_be"] then some (.utf16 (some .big))
  else if named name ["utf-32","utf32"] then some (.utf32 none)
  else if named name ["utf-32-le","utf-32le","utf_32_le"] then some (.utf32 (some .little))
  else if named name ["utf-32-be","utf-32be","utf_32_be"] then some (.utf32 (some .big))
  else if named name ["unicode-escape","unicode_escape"] then some .unicodeEscape
  else none

def unknownEncoding (name : Text) : Failure :=
  .exception "LookupError" ("unknown encoding: ".toList++name)

def unknownErrorHandler (errors : Text) : Failure :=
  .exception "LookupError" ("unknown error handler name '".toList++errors++['\''])

/-- `{n:0width$x}`. -/
def hexLower (width n : ℕ) : Text :=
  List.replicate (width-(Nat.toDigits 16 n).length) '0'++Nat.toDigits 16 n

def hexEscape (u : ℕ) : Text :=
  if u≤0xff then '\\' :: 'x' :: hexLower 2 u
  else if u≤0xffff then '\\' :: 'u' :: hexLower 4 u
  else '\\' :: 'U' :: hexLower 8 u

def unicodeEscapeChar (c : Char) : Text :=
  match c with
  | '\\' => ['\\','\\']
  | '\n' => ['\\','n']
  | '\r' => ['\\','r']
  | '\t' => ['\\','t']
  | c => if ' ' ≤ c ∧ c ≤ '~' then [c] else hexEscape c.toNat

def unicodeEscapeEncode (s : Text) : List UInt8 := asBytes (s.flatMap unicodeEscapeChar)

/-- What the `errors` handler writes for a character that does not fit. -/
def encodeUnfit (codec errors : Text) (u : ℕ) : Except Failure (List UInt8) :=
  if errors="strict".toList then
    .error (.exception "UnicodeEncodeError"
      (['\'']++codec++"' codec can't encode character".toList))
  else if errors="ignore".toList then .ok []
  else if errors="replace".toList then .ok [0x3F]
  else if errors="xmlcharrefreplace".toList then
    .ok (asBytes ("&#".toList++Nat.toDigits 10 u++[';']))
  else if errors="backslashreplace".toList then .ok (asBytes (hexEscape u))
  else .error (unknownErrorHandler errors)

def encodeNarrow (max : ℕ) (codec errors : Text) : Text → Except Failure (List UInt8)
  | [] => .ok []
  | c::s => do
    let bytes ← if c.toNat ≤ max then .ok [UInt8.ofNat c.toNat] else encodeUnfit codec errors c.toNat
    let rest ← encodeNarrow max codec errors s
    return bytes++rest

def writeUtf16 (order : ByteOrder) (s : Text) : List UInt8 :=
  Units.write order 2 ((encodeUtf16 s).map UInt16.toNat)

def writeUtf32 (order : ByteOrder) (s : Text) : List UInt8 := Units.write order 4 (s.map Char.toNat)

/-- `bind_method_params`. -/
def bindKeywords {V : Type} (method : Text) (params : List Text) :
    List (Option V) → List (Text×V) → Except Failure (List (Option V))
  | bound,[] => .ok bound
  | bound,(name,value)::kwargs =>
    match params.findIdx? (·==name) with
    | none =>
      .error (.typeError (method++"() got an unexpected keyword argument '".toList++name++['\'']))
    | some i =>
      if (bound[i]?.join).isSome then
        .error (.typeError (method++"() got multiple values for argument '".toList++name++['\'']))
      else bindKeywords method params (bound.set i (some value)) kwargs

def bindMethodParams {V : Type} (method : Text) (args : List V) (kwargs : List (Text×V))
    (params : List Text) : Except Failure (List (Option V)) :=
  if params.length<args.length then
    .error (.typeError (method++"() takes at most ".toList++Nat.toDigits 10 params.length++
      " argument".toList++(if params.length=1 then [] else ['s'])++" (".toList++
      Nat.toDigits 10 args.length++" given)".toList))
  else
    bindKeywords method params
      (args.map some++List.replicate (params.length-args.length) none) kwargs

def textOr (missing : Text) (message : String) : Option Argument → Except Failure Text
  | some (.str t) => .ok t
  | none => .ok missing
  | some .other => .error (.typeError message.toList)

/-- `str.encode`. -/
def encode (s : Text) (args : List Argument) (kwargs : List (Text×Argument)) :
    Except Failure (List UInt8) := do
  let bound ← bindMethodParams "encode".toList args kwargs ["encoding".toList,"errors".toList]
  let encoding ← textOr "utf-8".toList "encode() argument must be str" (bound[0]?.join)
  let errors ← textOr "strict".toList "errors must be str" (bound[1]?.join)
  match encodeCodec (lower encoding) with
  | some .utf8 => return asBytes s
  | some .ascii => encodeNarrow 0x7f "ascii".toList errors s
  | some .latin1 => encodeNarrow 0xff "latin-1".toList errors s
  | some (.utf16 none) => return [0xFF,0xFE]++writeUtf16 .little s
  | some (.utf16 (some order)) => return writeUtf16 order s
  | some (.utf32 none) => return [0xFF,0xFE,0x00,0x00]++writeUtf32 .little s
  | some (.utf32 (some order)) => return writeUtf32 order s
  | some .unicodeEscape => return unicodeEscapeEncode s
  | none => .error (unknownEncoding (lower encoding))

/-- The byte order that a spelling names: `lname.contains("be")`, then `"le"`. -/
def orderOf (name : Text) : Option ByteOrder :=
  if "be".toList.IsInfix name then some .big
  else if "le".toList.IsInfix name then some .little
  else none

/-- The arms of `bytes.decode`. -/
def decodeCodec (name : Text) : Option Codec :=
  if named name ["utf-8","utf_8","u8"] then some .utf8
  else if named name ["ascii","us-ascii"] then some .ascii
  else if named name ["latin-1","latin1","iso-8859-1","iso8859-1"] then some .latin1
  else if named name ["utf-16","utf16","utf-16-le","utf-16le","utf_16_le","utf-16-be","utf-16be",
      "utf_16_be"] then some (.utf16 (orderOf name))
  else if named name ["utf-32","utf32","utf-32-le","utf-32le","utf_32_le","utf-32-be","utf-32be",
      "utf_32_be"] then some (.utf32 (orderOf name))
  else if named name ["unicode-escape","unicode_escape"] then some .unicodeEscape
  else none

/-- Decode around the faults: `filler` for a bad sequence, `final` for a cut-off one at the end. -/
def decodeAround (filler final : Text) : ℕ → List UInt8 → Text
  | 0,_ => []
  | fuel+1,b =>
    match SymbolReader.scan readUtf8 b.length b with
    | (s,none) => s
    | (s,some (_,none)) => s++final
    | (s,some (bad,some len)) => s++filler++decodeAround filler final fuel (bad.drop len)

def cannotDecode (codec : String) (byte : UInt8) (pos : ℕ) (reason : String) : Failure :=
  .exception "UnicodeDecodeError" (['\'']++codec.toList++"' codec can't decode byte 0x".toList++
    hexLower 2 byte.toNat++" in position ".toList++Nat.toDigits 10 pos++": ".toList++reason.toList)

/-- `decode_utf8_with_errors`. -/
def decodeUtf8WithErrors (b : List UInt8) (errors : Text) : Except Failure Text :=
  if errors="replace".toList then
    .ok (decodeAround [Char.ofNat 0xFFFD] [Char.ofNat 0xFFFD] (b.length+1) b)
  else if errors="ignore".toList then .ok (decodeAround [] [] (b.length+1) b)
  else
    match SymbolReader.scan readUtf8 b.length b with
    | (s,none) => .ok s
    | (_,some (bad,len)) =>
      if errors="strict".toList then
        let byte := bad.headD 0
        let reason := match len with
          | none => "unexpected end of data"
          | some _ =>
            if 0xC2≤byte ∧ byte≤0xF4 then "invalid continuation byte" else "invalid start byte"
        .error (cannotDecode "utf-8" byte (b.length-bad.length) reason)
      else .error (unknownErrorHandler errors)

def charOfByte (b : UInt8) : Char := Char.ofNat b.toNat

/-- `decode_ascii_with_errors`. -/
def decodeAsciiWithErrors (b : List UInt8) (errors : Text) : Except Failure Text :=
  if b.all (·<128) then .ok ((fromUtf8 b).getD [])
  else if errors="replace".toList then
    .ok (b.map fun c => if c<128 then charOfByte c else Char.ofNat 0xFFFD)
  else if errors="ignore".toList then .ok ((b.filter (·<128)).map charOfByte)
  else if errors="strict".toList then
    let pos := b.findIdx (128≤·)
    .error (cannotDecode "ascii" (b.getD pos 0) pos "ordinal not in range(128)")
  else .error (unknownErrorHandler errors)

/-- The byte order and the code units: the plain name reads and strips a leading mark. -/
def splitUtf16 (order : Option ByteOrder) (b : List UInt8) : ByteOrder×List UInt8 :=
  match order with
  | some order => (order,b)
  | none =>
    match b with
    | 0xFF::0xFE::rest => (.little,rest)
    | 0xFE::0xFF::rest => (.big,rest)
    | _ => (.little,b)

def splitUtf32 (order : Option ByteOrder) (b : List UInt8) : ByteOrder×List UInt8 :=
  match order with
  | some order => (order,b)
  | none =>
    match b with
    | 0xFF::0xFE::0x00::0x00::rest => (.little,rest)
    | 0x00::0x00::0xFE::0xFF::rest => (.big,rest)
    | _ => (.little,b)

def decodeUtf16 (order : Option ByteOrder) (b : List UInt8) : Except Failure Text :=
  let (order,body) := splitUtf16 order b
  match fromUtf16 ((Units.read order 2 body).map UInt16.ofNat) with
  | some s => .ok s
  | none => .error (.valueError "invalid utf-16 data".toList)

def fromUtf32 : List ℕ → Except Failure Text
  | [] => .ok []
  | u::units =>
    match fromU32 u with
    | some c => (fromUtf32 units).map (c::·)
    | none => .error (.valueError "invalid utf-32 data".toList)

def decodeUtf32 (order : Option ByteOrder) (b : List UInt8) : Except Failure Text :=
  let (order,body) := splitUtf32 order b
  fromUtf32 (Units.read order 4 body)

def hexDigit (c : Char) : Option ℕ :=
  if '0' ≤ c ∧ c ≤ '9' then some (c.toNat-48)
  else if 'a' ≤ c ∧ c ≤ 'f' then some (c.toNat-87)
  else if 'A' ≤ c ∧ c ≤ 'F' then some (c.toNat-55)
  else none

/-- One more digit of a `u32`, unless it overflows. -/
def hexStep (n : Option ℕ) (c : Char) : Option ℕ :=
  match n,hexDigit c with
  | some n,some d => if n*16+d<2^32 then some (n*16+d) else none
  | _,_ => none

/-- `u32::from_str_radix` in base 16: a leading plus sign is allowed. -/
def fromStrRadix (digits : Text) : Option ℕ :=
  match digits with
  | [] => none
  | ['+'] => none
  | '+'::digits => digits.foldl hexStep (some 0)
  | digits => digits.foldl hexStep (some 0)

/-- The hex digits of an escape: the text they write, and what is left after them. -/
def readHex (count : ℕ) (rest : List UInt8) : Text×List UInt8 :=
  match fromStrRadix ((fromUtf8 (rest.take count)).getD []) with
  | some v => ((fromU32 v).toList,rest.drop count)
  | none => ([],rest)

/-- What follows a backslash: the text it writes, and what is left. -/
def readEscape (c : UInt8) (rest : List UInt8) : Text×List UInt8 :=
  match charOfByte c with
  | 'n' => (['\n'],rest)
  | 't' => (['\t'],rest)
  | 'r' => (['\r'],rest)
  | '\\' => (['\\'],rest)
  | '\'' => (['\''],rest)
  | '"' => (['"'],rest)
  | 'a' => ([Char.ofNat 7],rest)
  | 'b' => ([Char.ofNat 8],rest)
  | 'f' => ([Char.ofNat 12],rest)
  | 'v' => ([Char.ofNat 11],rest)
  | '0' => ([Char.ofNat 0],rest)
  | 'x' => readHex 2 rest
  | 'u' => readHex 4 rest
  | 'U' => readHex 8 rest
  | other => (['\\',other],rest)

/-- `unicode_escape_decode`; every turn of its loop takes a byte. -/
def unicodeEscapeDecode : ℕ → List UInt8 → Text
  | 0,_ => []
  | _+1,[] => []
  | _+1,[b] => [charOfByte b]
  | fuel+1,b::c::rest =>
    if b≠0x5C then charOfByte b::unicodeEscapeDecode fuel (c::rest)
    else (readEscape c rest).1++unicodeEscapeDecode fuel (readEscape c rest).2

def unexpectedKeyword (name : Text) : Failure :=
  .typeError (['\'']++name++"' is an invalid keyword argument for decode()".toList)

/-- An argument of `decode`, by position or by keyword. -/
def argumentOr (missing : Text) (which : String) (position : ℕ) (name : String)
    (args : List Argument) (kwargs : List (Text×Argument)) : Except Failure Text :=
  textOr missing ("decode() argument '"++which++"' must be str")
    (args[position]? <|> kwargs.lookup name.toList)

/-- `bytes.decode`. -/
def decode (b : List UInt8) (args : List Argument) (kwargs : List (Text×Argument)) :
    Except Failure Text := do
  match kwargs.find? fun kw => kw.1≠"encoding".toList && kw.1≠"errors".toList with
  | some kw => .error (unexpectedKeyword kw.1)
  | none =>
    let encoding ← argumentOr "utf-8".toList "encoding" 0 "encoding" args kwargs
    let errors ← argumentOr "strict".toList "errors" 1 "errors" args kwargs
    match decodeCodec (lower encoding) with
    | some .utf8 => decodeUtf8WithErrors b errors
    | some .ascii => decodeAsciiWithErrors b errors
    | some .latin1 => return b.map charOfByte
    | some (.utf16 order) => decodeUtf16 order b
    | some (.utf32 order) => decodeUtf32 order b
    | some .unicodeEscape => return unicodeEscapeDecode b.length b
    | none => .error (unknownEncoding (lower encoding))

end Codecs
end InterpretThis
