import InterpretThis.Framework.Grouping
import Mathlib.Data.Bool.AllAny
import Mathlib.Data.List.Basic
import Mathlib.Data.List.DropRight
import Mathlib.Algebra.Group.Nat.Defs

namespace InterpretThis
namespace Format

open Grouping

abbrev Text := List Char

def maxFormatWidth : ℕ := 10000

def aligns : List Char := ['<','>','^','=']

/-- A format spec after its type character has been split off: what `apply_format_spec` reads of it. -/
structure FormatSpec where
  fill : Option Char
  align : Option Char
  sign : Option Char
  alternate : Bool
  zeroPad : Bool
  width : Option ℕ
  grouping : Option Char
  precision : Option ℕ
  /-- The type character, and whatever stands after it. -/
  rest : Text
  deriving DecidableEq

def parseFillAlign : Text → Option Char×Option Char×Text
  | [] => (none,none,[])
  | [c] => if c∈aligns then (none,some c,[]) else (none,none,[c])
  | c::a::rest =>
    if a∈aligns then (some c,some a,rest)
    else if c∈aligns then (none,some c,a::rest)
    else (none,none,c::a::rest)

def parseOneOf (options : List Char) : Text → Option Char×Text
  | [] => (none,[])
  | c::rest => if c∈options then (some c,rest) else (none,c::rest)

def parseSign : Text → Option Char×Text := parseOneOf ['+','-',' ']

def parseGrouping : Text → Option Char×Text := parseOneOf [',','_']

def parseFlag (flag : Char) : Text → Bool×Text
  | [] => (false,[])
  | c::rest => if c=flag then (true,rest) else (false,c::rest)

/-- `parse:: < i64>` of a digit run: a number that does not fit is none. -/
def parseI64 (digits : Text) : Option ℕ :=
  if Nat.ofDigitChars 10 digits 0<2^63 then some (Nat.ofDigitChars 10 digits 0) else none

def parseNumber (chars : Text) : Option ℕ×Text :=
  if (chars.takeWhile Char.isDigit)=[] then (none,chars)
  else (parseI64 (chars.takeWhile Char.isDigit),chars.dropWhile Char.isDigit)

def parsePrecision : Text → Option ℕ×Text
  | '.'::rest => parseNumber rest
  | rest => (none,rest)

def parseSpec (chars : Text) : FormatSpec :=
  let (fill,align,rest) := parseFillAlign chars
  let (sign,rest) := parseSign rest
  let (alternate,rest) := parseFlag '#' rest
  let (zeroPad,rest) := parseFlag '0' rest
  let (width,rest) := parseNumber rest
  let (grouping,rest) := parseGrouping rest
  let (precision,rest) := parsePrecision rest
  ⟨fill,align,sign,alternate,zeroPad,width,grouping,precision,rest⟩

namespace FormatSpec

def typeChar (p : FormatSpec) : Option Char := p.rest.head?

/-- Binary, octal and hex bodies are grouped by 4, everything else by 3. -/
def groupSize (p : FormatSpec) : ℕ :=
  match p.typeChar with
  | some c => if c∈['b','o','x','X'] then 4 else 3
  | none => 3

end FormatSpec

def isExponentOrPoint (c : Char) : Bool := c∈['.','e','E']

def isHexDigit (c : Char) : Bool :=
  c.isDigit||c∈['a','b','c','d','e','f','A','B','C','D','E','F']

/-- The leading character of `raw` if it is one of the signs. -/
def splitSign (signs : List Char) : Text → Text×Text
  | [] => ([],[])
  | c::rest => if c∈signs then ([c],rest) else ([],c::rest)

def splitRadixPrefix : Text → Text×Text
  | '0'::c::rest =>
    if c∈['b','B','o','O','x','X'] then (['0',c],rest) else ([],'0'::c::rest)
  | raw => ([],raw)

def splitTail (raw : Text) : Text×Text :=
  (raw.takeWhile fun c => !isExponentOrPoint c,raw.dropWhile fun c => !isExponentOrPoint c)

def applyThousandsSeparator (raw : Text) (sep : Char) (grp : ℕ) : Text :=
  let (sign,rest) := splitSign ['-','+'] raw
  let (radix,rest) := splitRadixPrefix rest
  let (intPart,tail) := splitTail rest
  if intPart=[] ∨ ¬intPart.all (fun c => if grp=4 then isHexDigit c else c.isDigit) then raw
  else sign++radix++separate sep grp intPart++tail

def bytesAsChars (text : Text) : Text :=
  text.flatMap fun c => (String.utf8EncodeChar c).map fun b => Char.ofNat b.toNat

def padAndGroupZero (digits : Text) (avail grp : ℕ) (sep : Char) : Text :=
  let bytes := bytesAsChars digits
  let d := growDigits grp avail avail (max bytes.length 1)
  separate sep grp (List.replicate (d-bytes.length) '0'++bytes)

/-- The body under the sign option; `number` tells the values that a `+` applies to. -/
def applySign (sign : Option Char) (number : Bool) (body : Text) : Text :=
  match sign with
  | some '+' => if number&&body.head?≠some '-' then '+'::body else body
  | some ' ' => if body.head?≠some '-' then ' '::body else body
  | _ => body

namespace FormatSpec

def fillChar (p : FormatSpec) : Char := p.fill.getD (if p.zeroPad then '0' else ' ')

def alignment (p : FormatSpec) (number : Bool) : Char :=
  p.align.getD (if p.zeroPad then '=' else if number then '>' else '<')

/-- Padding after the sign and the radix prefix. -/
def padInside (p : FormatSpec) (width : ℕ) (text : Text) : Text :=
  let (sign,rest) := splitSign ['-','+',' '] text
  let (radix,rest) := splitRadixPrefix rest
  match p.grouping with
  | some sep =>
    if p.fillChar = '0' then
      let (intGrouped,tail) := splitTail rest
      let bare := intGrouped.filter fun c => c≠sep
      sign++radix++padAndGroupZero bare (width-((sign++radix).length+tail.length)) p.groupSize sep
        ++tail
    else sign++radix++List.replicate (width-text.length) p.fillChar++rest
  | none => sign++radix++List.replicate (width-text.length) p.fillChar++rest

def pad (p : FormatSpec) (number : Bool) (text : Text) : Text :=
  let width := p.width.getD 0
  let padding := width-text.length
  if width≤text.length then text
  else match p.alignment number with
    | '<' => text++List.replicate padding p.fillChar
    | '>' => List.replicate padding p.fillChar++text
    | '^' =>
      List.replicate (padding/2) p.fillChar++text++
        List.replicate (padding-padding/2) p.fillChar
    | '=' => p.padInside width text
    | _ => text

/-- The body with its grouping, sign and padding. -/
def dress (p : FormatSpec) (number : Bool) (raw : Text) : Text :=
  let formatted := match p.grouping with
    | some sep => applyThousandsSeparator raw sep p.groupSize
    | none => raw
  p.pad number (applySign p.sign number formatted)

end FormatSpec

inductive EnumKind where
  | plain
  | int
  | str
  | flag
  | intFlag
  deriving DecidableEq

/-- A value as the formatter tells values apart: `F` floats, `D` decimals, `O` everything it only prints. -/
inductive Value (F D O : Type) where
  | bool (b : Bool)
  | int (n : ℤ)
  | float (f : F)
  | complex (re im : F)
  | decimal (d : D)
  | fraction (o : O)
  | str (s : Text)
  | member (kind : EnumKind) (value : Value F D O)
  /-- A date, a datetime or a time. -/
  | temporal (o : O)
  | object (className : String)
  | other (o : O)

inductive FailureKind where
  | valueError
  | typeError
  | overflowError
  | keyError
  | limitExceeded
  | runtime
  /-- The host's own formatting machinery panics. -/
  | panic
  deriving DecidableEq

structure Failure where
  kind : FailureKind
  message : String
  deriving DecidableEq

/-- What formatting takes from the number libraries and from the value renderers. -/
structure Renderer (F D O : Type) where
  /-- `Display` of the values whose text is not given here. -/
  displayOther : Value F D O → Text
  repr : Value F D O → Text
  typeName : Value F D O → String
  pythonTypeName : Value F D O → String
  isNan : F → Bool
  isInfinite : F → Bool
  /-- `f < 0.0`. -/
  isBelowZero : F → Bool
  isZero : F → Bool
  isSignNegative : F → Bool
  abs : F → F
  timesHundred : F → F
  /-- `{:.p$}`, for a precision in range. -/
  fixed : F → ℕ → Text
  /-- `{:.p$e}`, for a precision in range. -/
  scientific : F → ℕ → Text
  /-- `to_f64` of an integer, overflow to infinity. -/
  ofInt : ℤ → F
  ofDecimal : D → F
  /-- `as_float` of the values other than floats, integers and bools. -/
  floatOther : Value F D O → Option F
  decimalTimesHundred : D → D
  /-- `with_scale_round(p, HalfEven).to_plain_string()`. -/
  decimalFixed : D → ℕ → Text
  /-- The host's `strftime`: none for a pattern that it does not know or the value has no part for. -/
  strftime : O → Text → Option Text

variable {F D O : Type}

namespace Value

/-- The values that are right-aligned by default and that a `+` applies to. -/
def isNumber : Value F D O → Bool
  | .int _ | .bool _ | .float _ | .complex _ _ | .decimal _ | .fraction _ => true
  | _ => false

end Value

namespace Renderer

variable (R : Renderer F D O)

def decimal (n : ℤ) : Text :=
  if n<0 then '-'::Nat.toDigits 10 n.natAbs else Nat.toDigits 10 n.natAbs

def boolText (b : Bool) : Text := if b then ['T','r','u','e'] else ['F','a','l','s','e']

/-- A value printed with `Display`. -/
def display : Value F D O → Text
  | .int n => decimal n
  | .bool b => boolText b
  | .str s => s
  | v => R.displayOther v

def isFinite (f : F) : Bool := !R.isNan f&&!R.isInfinite f

/-- A precision given to the host's formatter has 16 bits; a wider one panics. -/
def checkPrecision (p : ℕ) (text : Text) : Except Failure Text :=
  if p<2^16 then .ok text else .error ⟨.panic,"Formatting argument out of range"⟩

def formatFixed (f : F) (p : ℕ) : Except Failure Text := checkPrecision p (R.fixed f p)

def unknownFormatCode (code : Char) (typeName : String) : Failure :=
  ⟨.valueError,"Unknown format code '"++code.toString++"' for object of type '"++typeName++"'"⟩

/-- An exponent as the host writes it: a bare digit run, or one after a sign. -/
def parseExponent (digits : Text) : Option ℤ :=
  match digits with
  | '-'::ds => if ds≠[] ∧ ds.all Char.isDigit then some (-(Nat.ofDigitChars 10 ds 0 : ℤ)) else none
  | '+'::ds => if ds≠[] ∧ ds.all Char.isDigit then some (Nat.ofDigitChars 10 ds 0 : ℤ) else none
  | ds => if ds≠[] ∧ ds.all Char.isDigit then some (Nat.ofDigitChars 10 ds 0 : ℤ) else none

def isExponentLetter (c : Char) : Bool := c∈['e','E']

def stripGeneralZeros (s : Text) : Text :=
  let mantissa := s.takeWhile fun c => !isExponentLetter c
  let exp := s.dropWhile fun c => !isExponentLetter c
  let trimmed := if '.'∈mantissa
    then (mantissa.rdropWhile fun c => c == '0').rdropWhile fun c => c == '.'
    else mantissa
  trimmed++exp

/-- The exponent rebuilt in CPython's shape: always a sign, at least two digits. -/
def pythonExponent (uppercase : Bool) (formatted : Text) : Text :=
  match formatted.dropWhile fun c => c≠ 'e' with
  | [] => formatted
  | _::expPart =>
    let (expSign,expDigits) := match expPart with
      | '-'::ds => ('-',ds)
      | '+'::ds => ('+',ds)
      | ds => ('+',ds)
    let paddedExp := if expDigits.length<2 then '0'::expDigits else expDigits
    formatted.takeWhile (fun c => c≠ 'e')++(if uppercase then 'E' else 'e')::expSign::paddedExp

def formatScientific (f : F) (precision : ℕ) (uppercase : Bool) : Except Failure Text :=
  (checkPrecision precision (R.scientific f precision)).map (pythonExponent uppercase)

def formatGeneral (f : F) (precision : ℕ) (uppercase alternate : Bool) : Except Failure Text :=
  if R.isNan f then .ok (if uppercase then ['N','A','N'] else ['n','a','n'])
  else if R.isInfinite f then
    let s := if R.isBelowZero f then ['-','i','n','f'] else ['i','n','f']
    .ok (if uppercase then s.map Char.toUpper else s)
  else
    let p := max precision 1
    let rendered :=
      if R.isZero f then R.formatFixed f (p-1)
      else (checkPrecision (p-1) (R.scientific f (p-1))).bind fun sci =>
        let expPart := ((sci.dropWhile fun c => c≠ 'e').drop 1).takeWhile fun c => c≠ 'e'
        let exp := (parseExponent expPart).getD 0
        if exp< -4 ∨ (p : ℤ)≤exp then R.formatScientific f (p-1) uppercase
        else R.formatFixed f ((p : ℤ)-1-exp).toNat
    rendered.map fun text => if alternate then text else stripGeneralZeros text

def minimizeExponentDigits (s : Text) : Text :=
  match s.dropWhile fun c => !isExponentLetter c with
  | marker::sign::digit::digits =>
    if sign∈['+','-'] then
      let trimmed := (digit::digits).dropWhile fun c => c == '0'
      (s.takeWhile fun c => !isExponentLetter c)++
        marker::sign::(if trimmed=[] then ['0'] else trimmed)
    else s
  | _ => s

def isFloatCode (c : Char) : Bool := c∈['f','F','e','E','g','G','n','%']

/-- The arms of `format_value_body` for a float. -/
def formatFloat (f : F) (typeChar : Option Char) (precision : Option ℕ) (alternate : Bool) :
    Except Failure Text :=
  let prec := precision.getD 6
  match typeChar with
  | none =>
    match precision with
    | none => .ok (R.display (.float f))
    | some p => (R.formatGeneral f p false alternate).map fun rendered =>
        if rendered.any isExponentOrPoint then rendered else rendered++['.','0']
  | some c =>
    if isFloatCode c∧!R.isFinite f then
      let base := if R.isNan f then ['n','a','n']
        else if R.isBelowZero f then ['-','i','n','f'] else ['i','n','f']
      .ok ((if c.isUpper then base.map Char.toUpper else base)++(if c= '%' then ['%'] else []))
    else match c with
      | 'f' | 'F' => R.formatFixed f prec
      | 'e' => R.formatScientific f prec false
      | 'E' => R.formatScientific f prec true
      | 'g' | 'n' => R.formatGeneral f prec false alternate
      | 'G' => R.formatGeneral f prec true alternate
      | '%' => (R.formatFixed (R.timesHundred f) prec).map fun text => text++['%']
      | c => .error (unknownFormatCode c (R.typeName (.float f)))

def upperDigits (text : Text) : Text := text.map Char.toUpper

/-- The magnitude in a radix, with its prefix in the alternate form and the sign before both. -/
def radix (n : ℤ) (kind : Char) (alternate : Bool) : Text :=
  let body := match (kind,alternate) with
    | ('b',false) => Nat.toDigits 2 n.natAbs
    | ('b',true) => '0':: 'b'::Nat.toDigits 2 n.natAbs
    | ('o',false) => Nat.toDigits 8 n.natAbs
    | ('o',true) => '0':: 'o'::Nat.toDigits 8 n.natAbs
    | ('x',false) => Nat.toDigits 16 n.natAbs
    | ('x',true) => '0':: 'x'::Nat.toDigits 16 n.natAbs
    | ('X',false) => upperDigits (Nat.toDigits 16 n.natAbs)
    | _ => '0':: 'X'::upperDigits (Nat.toDigits 16 n.natAbs)
  if n<0 then '-'::body else body

/-- The code point of `n`, if it is one. -/
def codePoint (n : ℤ) : Option Char :=
  if 0≤n ∧ n.toNat.isValidChar then some (Char.ofNat n.toNat) else none

def charRange : Failure := ⟨.overflowError,"%c arg not in range(0x110000)"⟩

def integerCodes : List (Option Char) :=
  [none,some 'd',some 'n',some 'b',some 'o',some 'x',some 'X',some 'c']

/-- An integer under a presentation code; `typeName` names its type in the error. -/
def formatInteger (n : ℤ) (typeName : String) (typeChar : Option Char) (precision : Option ℕ)
    (alternate : Bool) : Except Failure Text :=
  let prec := precision.getD 6
  if precision.isSome ∧ typeChar∈integerCodes then
    .error ⟨.valueError,"Precision not allowed in integer format specifier"⟩
  else match typeChar with
    | none | some 'd' | some 'n' => .ok (decimal n)
    | some 'b' => .ok (radix n 'b' alternate)
    | some 'o' => .ok (radix n 'o' alternate)
    | some 'x' => .ok (radix n 'x' alternate)
    | some 'X' => .ok (radix n 'X' alternate)
    | some 'c' =>
      match codePoint n with
      | some c => .ok [c]
      | none => .error charRange
    | some 'f' | some 'F' => R.formatFixed (R.ofInt n) prec
    | some 'e' => R.formatScientific (R.ofInt n) prec false
    | some 'E' => R.formatScientific (R.ofInt n) prec true
    | some 'g' => R.formatGeneral (R.ofInt n) prec false alternate
    | some 'G' => R.formatGeneral (R.ofInt n) prec true alternate
    | some '%' => (R.formatFixed (R.timesHundred (R.ofInt n)) prec).map fun text => text++['%']
    | some c => .error (unknownFormatCode c typeName)

/-- The text of a value under the presentation code, without grouping, sign option and padding. -/
def formatValueBody (v : Value F D O) (typeChar : Option Char) (precision : Option ℕ)
    (alternate : Bool) : Except Failure Text :=
  let prec := precision.getD 6
  match v with
  | .int n => R.formatInteger n (R.typeName v) typeChar precision alternate
  | .bool b =>
    match typeChar with
    | none => .ok (boolText b)
    | some _ => R.formatInteger b.toInt (R.typeName (.int b.toInt)) typeChar precision alternate
  | .float f => R.formatFloat f typeChar precision alternate
  | .str s =>
    match precision with
    | none => .ok s
    | some p => .ok (s.take p)
  | .complex re im =>
    match typeChar with
    | none => .ok (R.display v)
    | some c =>
      if isFloatCode c then do
        let reText ← R.formatFloat re typeChar precision alternate
        let imText ← R.formatFloat (R.abs im) typeChar precision alternate
        return reText++(if R.isSignNegative im then '-' else '+')::imText++['j']
      else .error (unknownFormatCode c (R.typeName v))
  | .decimal d =>
    match typeChar with
    | none => .ok (R.display v)
    | some c =>
      if c∈['f','F'] then .ok (R.decimalFixed d prec)
      else if c= '%' then .ok (R.decimalFixed (R.decimalTimesHundred d) prec++['%'])
      else if c∈['e','E','g','G','n'] then
        (R.formatFloat (R.ofDecimal d) typeChar precision alternate).map minimizeExponentDigits
      else .error (unknownFormatCode c (R.typeName v))
  | _ =>
    match typeChar with
    | none => .ok (R.display v)
    | some c => .error (unknownFormatCode c (R.typeName v))

/-- The part of `apply_format_spec` after the value's own formatting rules: the spec is parsed, the body formatted and dressed. -/
def applyParsed (v : Value F D O) (spec : Text) : Except Failure Text :=
  let p := parseSpec spec
  match p.width with
  | some w =>
    if maxFormatWidth<w then
      .error ⟨.limitExceeded,"format width "++toString w++" exceeds maximum ("
        ++toString maxFormatWidth++")"⟩
    else format p
  | none => format p
where
  format (p : FormatSpec) : Except Failure Text :=
    if 1<p.rest.length then
      .error ⟨.valueError,"Invalid format specifier '"++String.ofList spec++"' for object of type '"
        ++R.pythonTypeName v++"'"⟩
    else (R.formatValueBody v p.typeChar p.precision p.alternate).map fun raw =>
      p.dress v.isNumber raw

/-- `to_string` panics where `strftime` fails. -/
def formatTemporal (o : O) (spec : Text) : Except Failure Text :=
  match R.strftime o spec with
  | some text => .ok text
  | none => .error ⟨.panic,"a Display implementation returned an error unexpectedly: Error"⟩

/-- A Python-style format spec applied to a value. -/
def applyFormatSpec (v : Value F D O) (spec : Text) : Except Failure Text :=
  if spec=[] then .ok (R.display v)
  else match v with
    | .member kind inner =>
      if kind∈[EnumKind.int,.str,.intFlag] then applyFormatSpec inner spec
      else R.applyParsed v spec
    | .temporal o => R.formatTemporal o spec
    | .object className =>
      .error ⟨.typeError,"unsupported format string passed to "++className++".__format__"⟩
    | v => R.applyParsed v spec

end Renderer

end Format
end InterpretThis
