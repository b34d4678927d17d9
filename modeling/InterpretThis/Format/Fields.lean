import InterpretThis.Format.Value
import InterpretThis.Framework.Outcome

namespace InterpretThis
namespace Format

inductive RenderMode where
  | display
  | repr
  | ascii
  deriving DecidableEq

/-- What formatting asks of the interpreter, whose state holds the arguments and their next automatic index. -/
structure Host (S E F D O : Type) where
  /-- An expression's value, proxies resolved. -/
  eval : E → StateT S (Except Failure) (Value F D O)
  render : RenderMode → Value F D O → StateT S (Except Failure) Text
  /-- The text that a user's `__format__` returns, if the value has one. -/
  callFormatSlot : Value F D O → Text → StateT S (Except Failure) (Option Text)
  resolveFormatArg : Text → StateT S (Except Failure) (Value F D O)

/-- A part of an f-string. -/
inductive Part (E : Type) where
  | literal (text : Text)
  | formatted (value : E) (conversion : Option RenderMode) (formatSpec : Option E)
  | other (value : E)

/-- A part of the text produced, with the fields told apart. -/
inductive Piece where
  | literal (text : Text)
  | field (text : Text)
  deriving DecidableEq

def Piece.text : Piece → Text
  | .literal text | .field text => text

/-- The text before the first occurrence of `c` and the one after it. -/
def splitOnce (c : Char) (text : Text) : Option (Text×Text) :=
  match text.dropWhile fun d => d≠c with
  | [] => none
  | _::rest => some (text.takeWhile fun d => d≠c,rest)

/-- The text before the last occurrence of `c` and the one after it. -/
def rsplitOnce (c : Char) (text : Text) : Option (Text×Text) :=
  (splitOnce c text.reverse).map fun (tail,init) => (init.reverse,tail.reverse)

theorem splitOnce_length (c : Char) (text head rest : Text) (h : splitOnce c text=some (head,rest)) :
    head.length≤text.length ∧ rest.length<text.length := by
  unfold splitOnce at h
  have hs : (text.dropWhile fun d => d≠c).length≤text.length := (List.dropWhile_suffix _).length_le
  cases hd : text.dropWhile fun d => d≠c with
  | nil =>
    rw [hd] at h
    cases h
  | cons d ds =>
    rw [hd] at h hs
    cases h
    exact ⟨(List.takeWhile_prefix _).length_le,hs⟩

/-- The field up to the brace that closes it, and what follows. -/
def scanField : ℕ → Text → Option (Text×Text)
  | _,[] => none
  | depth,'}'::rest =>
    if depth=0 then some ([],rest)
    else (scanField (depth-1) rest).map fun (field,tail) => ('}'::field,tail)
  | depth,'{'::rest => (scanField (depth+1) rest).map fun (field,tail) => ('{'::field,tail)
  | depth,c::rest => (scanField depth rest).map fun (field,tail) => (c::field,tail)

theorem scanField_length (depth : ℕ) (text field left : Text)
    (h : scanField depth text=some (field,left)) : left.length<text.length := by
  induction text generalizing depth field left with
  | nil => cases h
  | cons c rest ih =>
    have step (d : ℕ) (c' : Char)
        (hm : (scanField d rest).map (fun r => (c'::r.1,r.2))=some (field,left)) :
        left.length<(c::rest).length := by
      rw [Option.map_eq_some_iff] at hm
      obtain ⟨⟨f,t⟩,hs,he⟩ := hm
      cases he
      exact (ih d f _ hs).trans (Nat.lt_succ_self _)
    unfold scanField at h
    split at h
    · cases h
    · rename_i heq
      cases heq
      split_ifs at h
      · cases h
        exact Nat.lt_succ_self _
      · exact step _ _ h
    · rename_i heq
      cases heq
      exact step _ _ h
    · rename_i heq
      cases heq
      exact step _ _ h

namespace Host

variable {S E F D O : Type} (R : Renderer F D O) (H : Host S E F D O)

def singleOpen : Failure := ⟨.valueError,"Single '\x7b' encountered in format string"⟩

def singleClose : Failure := ⟨.valueError,"Single '\x7d' encountered in format string"⟩

def unmatchedOpen : Failure := ⟨.valueError,"unmatched '\x7b' in format spec"⟩

def lift {α : Type} (r : Except Failure α) : StateT S (Except Failure) α := fun s =>
  match r with
  | .ok a => .ok (a,s)
  | .error e => .error e

def convert (conversion : Option RenderMode) (value : Value F D O) :
    StateT S (Except Failure) (Value F D O) :=
  match conversion with
  | none => pure value
  | some mode => do
    let text ← H.render mode value
    return .str text

/-- The last stage of every front end: the user's `__format__`, or the value rendered without a spec, or the spec applied. -/
def formatConverted (converted : Value F D O) (spec : Option Text) :
    StateT S (Except Failure) Text := do
  match ← H.callFormatSlot converted (spec.getD []) with
  | some text => return text
  | none =>
    match spec with
    | none | some [] => H.render .display converted
    | some (c::cs) => lift (R.applyFormatSpec converted (c::cs))

def evalFormattedValue (value : E) (conversion : Option RenderMode) (formatSpec : Option E) :
    StateT S (Except Failure) Text := do
  let value ← H.eval value
  let converted ← H.convert conversion value
  match formatSpec with
  | none => H.formatConverted R converted none
  | some formatSpec => do
    let spec ← H.eval formatSpec
    H.formatConverted R converted (some (R.display spec))

/-- The pieces of an f-string. -/
def evalJoinedStr : List (Part E) → StateT S (Except Failure) (List Piece)
  | [] => return []
  | .literal text::parts => do
    let pieces ← evalJoinedStr parts
    return .literal text::pieces
  | .formatted value conversion formatSpec::parts => do
    let text ← H.evalFormattedValue R value conversion formatSpec
    let pieces ← evalJoinedStr parts
    return .field text::pieces
  | .other value::parts => do
    let value ← H.eval value
    let pieces ← evalJoinedStr parts
    return .literal (R.display value)::pieces

/-- The name of a field and its conversion character. -/
def splitConversion (head : Text) : Text×Option Char :=
  match rsplitOnce '!' head with
  | some (name,[c]) => (name,some c)
  | _ => (head,none)

def conversionMode : Option Char → Except Failure (Option RenderMode)
  | none => .ok none
  | some 's' => .ok (some .display)
  | some 'r' => .ok (some .repr)
  | some 'a' => .ok (some .ascii)
  | some c => .error ⟨.valueError,"Unknown conversion specifier "++c.toString⟩

mutual

/-- One replacement field, without its braces. -/
def renderFormatField (field : Text) : StateT S (Except Failure) Text := do
  let head := ((splitOnce ':' field).map Prod.fst).getD field
  let value ← H.resolveFormatArg (splitConversion head).1
  let mode ← lift (conversionMode (splitConversion head).2)
  let converted ← H.convert mode value
  match h : splitOnce ':' field with
  | none => H.formatConverted R converted none
  | some (_,spec) => do
    let resolved ← resolveNestedSpec spec
    H.formatConverted R converted (some resolved)
termination_by field.length
decreasing_by exact (splitOnce_length _ _ _ _ h).2

/-- A spec with the fields inside it replaced. -/
def resolveNestedSpec : Text → StateT S (Except Failure) Text
  | [] => return []
  | '{'::rest =>
    match h : splitOnce '}' rest with
    | none => throw unmatchedOpen
    | some (inner,tail) => do
      let text ← renderFormatField inner
      let out ← resolveNestedSpec tail
      return text++out
  | c::rest => do
    let out ← resolveNestedSpec rest
    return c::out
termination_by spec => spec.length
decreasing_by
  · exact Nat.lt_succ_of_le (splitOnce_length _ _ _ _ h).1
  · exact (splitOnce_length _ _ _ _ h).2.trans (Nat.lt_succ_self _)
  · exact Nat.lt_succ_self _

end

/-- The pieces of `str.format`. -/
def strFormat : Text → StateT S (Except Failure) (List Piece)
  | [] => return []
  | '{':: '{'::rest => do
    let pieces ← strFormat rest
    return .literal ['{']::pieces
  | '}':: '}'::rest => do
    let pieces ← strFormat rest
    return .literal ['}']::pieces
  | '{'::rest =>
    match h : scanField 0 rest with
    | none => throw singleOpen
    | some (field,tail) => do
      let text ← H.renderFormatField R field
      let pieces ← strFormat tail
      return .field text::pieces
  | '}'::_ => throw singleClose
  | c::rest => do
    let pieces ← strFormat rest
    return .literal [c]::pieces
termination_by template => template.length
decreasing_by
  · exact Nat.lt_succ_of_le (Nat.le_succ _)
  · exact Nat.lt_succ_of_le (Nat.le_succ _)
  · exact (scanField_length _ _ _ _ h).trans (Nat.lt_succ_self _)
  · exact Nat.lt_succ_self _

end Host

end Format
end InterpretThis
