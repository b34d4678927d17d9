import InterpretThis.Format.Value
import InterpretThis.Math.Binary64
import Mathlib.Data.Rat.Floor
import Mathlib.Tactic.Linarith

namespace InterpretThis
namespace Format

/-- A parsed `%`-conversion specifier. -/
structure PercentSpec where
  minus : Bool
  sign : Option Char
  zero : Bool
  alt : Bool
  width : Option ℕ
  precision : Option ℕ
  conv : Char
  deriving DecidableEq

structure PercentFlags where
  minus : Bool
  plus : Bool
  space : Bool
  zero : Bool
  alt : Bool
  deriving DecidableEq

def noFlags : PercentFlags := ⟨false,false,false,false,false⟩

variable {D O : Type}

/-- The right operand of `%`. The last component of a mapping is the mapping itself. -/
inductive PercentArg (D O : Type) where
  | tuple (items : List (Value F64 D O))
  | dict (entries : List (Text×Value F64 D O)) (self : Value F64 D O)
  | orderedDict (entries : List (Text×Value F64 D O)) (self : Value F64 D O)
  | single (v : Value F64 D O)

namespace PercentArg

def positional : PercentArg D O → List (Value F64 D O)
  | .tuple items => items
  | .dict _ _ => []
  | .orderedDict _ self => [self]
  | .single v => [v]

def mapping : PercentArg D O → Option (List (Text×Value F64 D O))
  | .dict entries _ | .orderedDict entries _ => some entries
  | _ => none

end PercentArg

inductive PercentPiece (D O : Type) where
  | literal (text : Text)
  | conv (spec : PercentSpec) (value : Value F64 D O)

/-- The walk over a template: what is left of it, and the positional arguments not consumed yet. -/
structure PercentCursor (D O : Type) where
  chars : Text
  args : List (Value F64 D O)

namespace Renderer

variable (R : Renderer F64 D O)

def notEnough : Failure := ⟨.typeError,"not enough arguments for format string"⟩

def nextArg (args : List (Value F64 D O)) : Except Failure (Value F64 D O×List (Value F64 D O)) :=
  match args with
  | [] => .error notEnough
  | v::args => .ok (v,args)

/-- The integer value of a `*`, an `i64`. -/
def percentStarArg (args : List (Value F64 D O)) : Except Failure (ℤ×List (Value F64 D O)) := do
  let (v,args) ← nextArg args
  match v with
  | .int n =>
    if -2^63≤n ∧ n<2^63 then .ok (n,args)
    else .error ⟨.typeError,"* wants int, not "++R.typeName v⟩
  | .bool b => .ok (b.toInt,args)
  | v => .error ⟨.typeError,"* wants int, not "++R.typeName v⟩

def parsePercentKey (chars : Text) : Except Failure (Option Text×Text) :=
  match chars with
  | '('::rest =>
    match rest.dropWhile fun c => c≠ ')' with
    | [] => .error ⟨.valueError,"incomplete format key"⟩
    | _::tail => .ok (some (rest.takeWhile fun c => c≠ ')'),tail)
  | _ => .ok (none,chars)

def parsePercentFlags (flags : PercentFlags) : Text → PercentFlags×Text
  | '-'::rest => parsePercentFlags {flags with minus := true} rest
  | '+'::rest => parsePercentFlags {flags with plus := true} rest
  | ' '::rest => parsePercentFlags {flags with space := true} rest
  | '0'::rest => parsePercentFlags {flags with zero := true} rest
  | '#'::rest => parsePercentFlags {flags with alt := true} rest
  | chars => (flags,chars)

/-- The width's digits; a negative `*` left-justifies in its absolute value. -/
def parsePercentWidth (flags : PercentFlags) (cursor : PercentCursor D O) :
    Except Failure (PercentFlags×Text×PercentCursor D O) :=
  match cursor.chars with
  | '*'::rest => do
    let (w,args) ← R.percentStarArg cursor.args
    if w<0 then
      .ok ({flags with minus := true},Nat.toDigits 10 (min w.natAbs (2^63-1)),⟨rest,args⟩)
    else .ok (flags,Nat.toDigits 10 w.natAbs,⟨rest,args⟩)
  | chars =>
    .ok (flags,chars.takeWhile Char.isDigit,⟨chars.dropWhile Char.isDigit,cursor.args⟩)

def parsePercentPrecision (cursor : PercentCursor D O) :
    Except Failure (Option Text×PercentCursor D O) :=
  match cursor.chars with
  | '.':: '*'::rest => do
    let (p,args) ← R.percentStarArg cursor.args
    .ok (if p<0 then none else some (Nat.toDigits 10 p.natAbs),⟨rest,args⟩)
  | '.'::rest =>
    .ok (some (rest.takeWhile Char.isDigit),⟨rest.dropWhile Char.isDigit,cursor.args⟩)
  | _ => .ok (none,cursor)

def parseOptI64 (digits : Text) : Option ℕ := if digits=[] then none else parseI64 digits

/-- The operand of a conversion: the mapping's entry, or the next positional argument. -/
def percentValue (arg : PercentArg D O) (key : Option Text) (args : List (Value F64 D O)) :
    Except Failure (Value F64 D O×List (Value F64 D O)) :=
  match key with
  | some key =>
    match arg.mapping with
    | none => .error ⟨.typeError,"format requires a mapping"⟩
    | some entries =>
      match entries.find? fun e => e.1=key with
      | some e => .ok (e.2,args)
      | none => .error ⟨.keyError,"'"++String.ofList key++"'"⟩
  | none => nextArg args

/-- One conversion, after its `%`. -/
def parseConversion (arg : PercentArg D O) (cursor : PercentCursor D O) :
    Except Failure (PercentSpec×Value F64 D O×PercentCursor D O) := do
  let (key,rest) ← parsePercentKey cursor.chars
  let (flags,rest) := parsePercentFlags noFlags rest
  let (flags,width,cursor) ← R.parsePercentWidth flags ⟨rest,cursor.args⟩
  let (precision,cursor) ← R.parsePercentPrecision cursor
  match cursor.chars.dropWhile fun c => c∈['l','h','L'] with
  | [] => .error ⟨.valueError,"incomplete format"⟩
  | conv::rest =>
    let (value,args) ← percentValue arg key cursor.args
    let sign := if flags.plus then some '+' else if flags.space then some ' ' else none
    return (⟨flags.minus,sign,flags.zero,flags.alt,parseOptI64 width,
      precision.map fun p => (parseOptI64 p).getD 0,conv⟩,value,⟨rest,args⟩)

def literalPiece (lit : Text) : List (PercentPiece D O) :=
  if lit=[] then [] else [.literal lit]

def leftOver : Failure := ⟨.typeError,"not all arguments converted during string formatting"⟩

/-- The walk over the template; every round consumes a character, so the template's length is fuel enough. -/
def percentLoop (arg : PercentArg D O) : ℕ → Text → PercentCursor D O →
    Except Failure (List (PercentPiece D O)×List (Value F64 D O))
  | 0,lit,cursor => .ok (literalPiece lit,cursor.args)
  | fuel+1,lit,cursor =>
    match cursor.chars with
    | [] => .ok (literalPiece lit,cursor.args)
    | '%':: '%'::rest => percentLoop arg fuel (lit++['%']) ⟨rest,cursor.args⟩
    | '%'::rest => do
      let (spec,value,cursor) ← R.parseConversion arg ⟨rest,cursor.args⟩
      let (pieces,args) ← percentLoop arg fuel [] cursor
      return (literalPiece lit++.conv spec value::pieces,args)
    | c::rest => percentLoop arg fuel (lit++[c]) ⟨rest,cursor.args⟩

def parsePercentPieces (template : Text) (arg : PercentArg D O) :
    Except Failure (List (PercentPiece D O)) := do
  let (pieces,left) ← R.percentLoop arg (template.length+1) [] ⟨template,arg.positional⟩
  if arg.mapping.isNone ∧ left≠[] then .error leftOver
  else return pieces

/-- `trunc() as i64`, which saturates; NaN gives zero. -/
def percentTrunc (f : F64) : ℤ :=
  if f.isNan then 0
  else if f.isInfinite then if f.isNegative then -2^63 else 2^63-1
  else max (-2^63) (min (2^63-1) (if f.toRat<0 then ⌈f.toRat⌉ else ⌊f.toRat⌋))

/-- The `%`-specifier in the brace mini-language, right-aligned by default. -/
def buildBraceSpec (spec : PercentSpec) (typeChar : Char) : Text :=
  (if spec.minus then ['<'] else if !spec.zero then ['>'] else [])++
    (spec.sign.toList++
    ((if spec.alt then ['#'] else [])++
    ((if spec.zero&&!spec.minus then ['0'] else [])++
    ((match spec.width with
      | some w => Nat.toDigits 10 w
      | none => [])++
    ((match spec.precision with
      | some p => '.'::Nat.toDigits 10 p
      | none => [])++[typeChar])))))

/-- The lower-case hex digits of `n`, at least `width` of them. -/
def hexPadded (width n : ℕ) : Text :=
  List.replicate (width-(Nat.toDigits 16 n).length) '0'++Nat.toDigits 16 n

def escapeChar (c : Char) : Text :=
  if c.toNat<0x80 then [c]
  else if c.toNat<0x100 then '\\':: 'x'::hexPadded 2 c.toNat
  else if c.toNat<0x10000 then '\\':: 'u'::hexPadded 4 c.toNat
  else '\\':: 'U'::hexPadded 8 c.toNat

def asciiEscape (text : Text) : Text := text.flatMap escapeChar

def asFloat (v : Value F64 D O) : Option F64 :=
  match v with
  | .float f => some f
  | .int n => some (R.ofInt n)
  | .bool b => some (R.ofInt b.toInt)
  | v => R.floatOther v

def charRequired : Failure := ⟨.typeError,"%c requires int or char"⟩

/-- The character of a `%c` operand. -/
def percentChar (v : Value F64 D O) : Except Failure Text :=
  match v with
  | .str [c] => .ok [c]
  | .int n => (codePoint n).elim (.error charRange) fun c => .ok [c]
  | .bool b => (codePoint b.toInt).elim (.error charRange) fun c => .ok [c]
  | _ => .error charRequired

def percentInteger (v : Value F64 D O) (conv : Char) : Except Failure (Value F64 D O) :=
  match v with
  | .int n => .ok (.int n)
  | .bool b => .ok (.int b.toInt)
  | .float f => .ok (.int (percentTrunc f))
  | v =>
    let requirement := if conv∈['o','x','X'] then "an integer" else "a real number"
    .error ⟨.typeError,"%"++conv.toString++" format: "++requirement++" is required, not "
      ++R.typeName v⟩

def formatPercentConversion (v : Value F64 D O) (spec : PercentSpec) : Except Failure Text :=
  if spec.conv = 'c' then do
    let ch ← percentChar v
    R.applyFormatSpec (.str ch) (buildBraceSpec spec 's')
  else if spec.conv∈['d','i','u'] then do
    let n ← R.percentInteger v spec.conv
    R.applyFormatSpec n (buildBraceSpec spec 'd')
  else if spec.conv∈['o','x','X'] then do
    let n ← R.percentInteger v spec.conv
    R.applyFormatSpec n (buildBraceSpec spec spec.conv)
  else if spec.conv∈['e','E','f','F','g','G'] then
    match R.asFloat v with
    | some f => R.applyFormatSpec (.float f) (buildBraceSpec spec spec.conv)
    | none => .error ⟨.typeError,"must be real number, not "++R.typeName v⟩
  else if spec.conv = 's' then
    R.applyFormatSpec (.str (R.display v)) (buildBraceSpec spec 's')
  else if spec.conv = 'r' then
    R.applyFormatSpec (.str (R.repr v)) (buildBraceSpec spec 'r')
  else if spec.conv = 'a' then
    R.applyFormatSpec (.str (asciiEscape (R.repr v))) (buildBraceSpec spec 's')
  else .error ⟨.valueError,"unsupported format character '"++spec.conv.toString++"'"⟩

def formatPieces : List (PercentPiece D O) → Except Failure Text
  | [] => .ok []
  | .literal text::pieces => do
    let rest ← formatPieces pieces
    return text++rest
  | .conv spec v::pieces => do
    let text ← R.formatPercentConversion v spec
    let rest ← formatPieces pieces
    return text++rest

/-- Printf-style formatting of builtin operands. -/
def strPercentFormat (template : Text) (arg : PercentArg D O) : Except Failure Text := do
  let pieces ← R.parsePercentPieces template arg
  R.formatPieces pieces

end Renderer

end Format
end InterpretThis

namespace InterpretThis
namespace Format

open Grouping

section Dressing

theorem splitSign_append (signs : List Char) (text : Text) :
    (splitSign signs text).1++(splitSign signs text).2=text := by
  cases text with
  | nil => rfl
  | cons c rest =>
    simp only [splitSign]
    split_ifs <;> rfl

theorem splitRadixPrefix_append (text : Text) :
    (splitRadixPrefix text).1++(splitRadixPrefix text).2=text := by
  unfold splitRadixPrefix
  split
  · split_ifs <;> rfl
  · rfl

theorem splitSign_length (signs : List Char) (text : Text) :
    (splitSign signs text).1.length+(splitSign signs text).2.length=text.length := by
  rw [← List.length_append,splitSign_append]

theorem splitRadixPrefix_length (text : Text) :
    (splitRadixPrefix text).1.length+(splitRadixPrefix text).2.length=text.length := by
  rw [← List.length_append,splitRadixPrefix_append]

theorem splitTail_length (text : Text) :
    (splitTail text).1.length+(splitTail text).2.length=text.length := by
  rw [← List.length_append]
  exact congrArg List.length (List.takeWhile_append_dropWhile)

theorem length_separate_le (sep : Char) (k : ℕ) (hk : 0<k) (ds : Text) :
    (separate sep k ds).length≤2*ds.length := by
  rw [length_separate sep k ds hk]
  have h : (ds.length-1)/k≤ds.length-1 := Nat.div_le_self _ _
  omega

/-- Grouping at most doubles a body. -/
theorem length_applyThousandsSeparator (raw : Text) (sep : Char) (grp : ℕ) (hk : 0<grp) :
    (applyThousandsSeparator raw sep grp).length≤2*raw.length := by
  have h1 := splitSign_length ['-','+'] raw
  have h2 := splitRadixPrefix_length (splitSign ['-','+'] raw).2
  have h3 := splitTail_length (splitRadixPrefix (splitSign ['-','+'] raw).2).2
  have h4 := length_separate_le sep grp hk
    (splitTail (splitRadixPrefix (splitSign ['-','+'] raw).2).2).1
  have h0 : raw.length≤2*raw.length := by omega
  have hg : ((splitSign ['-','+'] raw).1++(splitRadixPrefix (splitSign ['-','+'] raw).2).1++
      separate sep grp (splitTail (splitRadixPrefix (splitSign ['-','+'] raw).2).2).1++
      (splitTail (splitRadixPrefix (splitSign ['-','+'] raw).2).2).2).length≤2*raw.length := by
    simp only [List.length_append]
    omega
  unfold applyThousandsSeparator
  dsimp only
  by_cases h : (splitTail (splitRadixPrefix (splitSign ['-','+'] raw).2).2).1=[] ∨
      ¬(splitTail (splitRadixPrefix (splitSign ['-','+'] raw).2).2).1.all
        (fun c => if grp=4 then isHexDigit c else c.isDigit)
  · rw [if_pos h]
    exact h0
  · rw [if_neg h]
    exact hg

theorem length_applySign (sign : Option Char) (number : Bool) (body : Text) :
    body.length≤(applySign sign number body).length ∧
      (applySign sign number body).length≤body.length+1 := by
  unfold applySign
  split
  · split_ifs <;> simp
  · split_ifs <;> simp
  · omega

theorem length_bytesAsChars (text : Text) : (bytesAsChars text).length≤4*text.length := by
  induction text with
  | nil => exact le_refl _
  | cons c text ih =>
    have hc : (String.utf8EncodeChar c).length≤4 := by
      rw [String.length_utf8EncodeChar]
      exact Char.utf8Size_le_four c
    simp only [bytesAsChars,List.flatMap_cons,List.length_append,List.length_map,
      List.length_cons] at ih ⊢
    omega

theorem growDigits_le (k avail fuel d : ℕ) : growDigits k avail fuel d ≤ max d avail := by
  induction fuel generalizing d with
  | zero => exact Nat.le_max_left _ _
  | succ fuel ih =>
    simp only [growDigits]
    split_ifs with h
    · have hd : d<avail := lt_of_le_of_lt (Nat.le_add_right _ _) h
      have hi := ih (d+1)
      omega
    · exact Nat.le_max_left _ _

theorem length_padAndGroupZero (digits : Text) (avail grp : ℕ) (sep : Char) (hk : 0<grp) :
    (padAndGroupZero digits avail grp sep).length≤2*(4*digits.length+1+avail) := by
  have hb := length_bytesAsChars digits
  have hg := growDigits_le grp avail avail (max (bytesAsChars digits).length 1)
  have hs := length_separate_le sep grp hk (List.replicate
    (growDigits grp avail avail (max (bytesAsChars digits).length 1)-
      (bytesAsChars digits).length) '0'++bytesAsChars digits)
  simp only [padAndGroupZero]
  rw [List.length_append,List.length_replicate] at hs
  omega

namespace FormatSpec

variable (p : FormatSpec)

theorem groupSize_pos : 0<p.groupSize := by
  unfold groupSize
  split
  · split_ifs <;> decide
  · decide

theorem length_padInside (width : ℕ) (text : Text) (hw : text.length<width) :
    (p.padInside width text).length≤11*width := by
  have h1 := splitSign_length ['-','+',' '] text
  have h2 := splitRadixPrefix_length (splitSign ['-','+',' '] text).2
  have h3 := splitTail_length (splitRadixPrefix (splitSign ['-','+',' '] text).2).2
  simp only [padInside]
  split
  · rename_i sep _
    split_ifs
    · have hf := List.length_filter_le (fun c => decide (c≠sep))
        (splitTail (splitRadixPrefix (splitSign ['-','+',' '] text).2).2).1
      have hp := length_padAndGroupZero
        ((splitTail (splitRadixPrefix (splitSign ['-','+',' '] text).2).2).1.filter
          fun c => decide (c≠sep))
        (width-(((splitSign ['-','+',' '] text).1++
          (splitRadixPrefix (splitSign ['-','+',' '] text).2).1).length+
          (splitTail (splitRadixPrefix (splitSign ['-','+',' '] text).2).2).2.length))
        p.groupSize sep p.groupSize_pos
      simp only [List.length_append] at hp ⊢
      omega
    · simp only [List.length_append,List.length_replicate]
      omega
  · simp only [List.length_append,List.length_replicate]
    omega

theorem length_pad (number : Bool) (text : Text) :
    (p.pad number text).length≤text.length+11*(p.width.getD 0) ∧
      text.length≤(p.pad number text).length+11*(p.width.getD 0) := by
  simp only [pad]
  split_ifs with hw
  · omega
  · refine ⟨?_,by omega⟩
    split
    · simp only [List.length_append,List.length_replicate]
      omega
    · simp only [List.length_append,List.length_replicate]
      omega
    · simp only [List.length_append,List.length_replicate]
      omega
    · have h := p.length_padInside (p.width.getD 0) text (Nat.lt_of_not_le hw)
      omega
    · omega

/-- The body after grouping. -/
def group (raw : Text) : Text :=
  match p.grouping with
  | some sep => applyThousandsSeparator raw sep p.groupSize
  | none => raw

theorem dress_group (number : Bool) (raw : Text) :
    p.dress number raw=p.pad number (applySign p.sign number (p.group raw)) := by
  unfold dress group
  cases p.grouping <;> rfl

theorem length_group (raw : Text) : (p.group raw).length≤2*raw.length := by
  unfold group
  cases p.grouping with
  | none =>
    dsimp only
    omega
  | some sep => exact length_applyThousandsSeparator raw sep _ p.groupSize_pos

def uncounted : FormatSpec := {p with width := none, precision := none}

theorem length_dress (number : Bool) (raw raw' : Text) :
    (p.dress number raw).length+(p.group raw').length≤
      (p.uncounted.dress number raw').length+(p.group raw).length+1+11*(p.width.getD 0) := by
  rw [dress_group,dress_group]
  have h1 := (p.length_pad number (applySign p.sign number (p.group raw))).1
  have h2 := (length_applySign p.sign number (p.group raw)).2
  have h3 := (p.uncounted.length_pad number
    (applySign p.uncounted.sign number (p.uncounted.group raw'))).2
  have h4 := (length_applySign p.sign number (p.group raw')).1
  have hg : p.uncounted.group raw'=p.group raw' := rfl
  have hs : p.uncounted.sign=p.sign := rfl
  have hw : p.uncounted.width.getD 0=0 := rfl
  rw [hg,hs,hw] at h3
  rw [hg,hs]
  omega

end FormatSpec

end Dressing

end Format
end InterpretThis
