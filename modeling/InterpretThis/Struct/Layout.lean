import InterpretThis.Framework.Bytes
import Mathlib.Data.List.Basic
import Mathlib.Tactic.SplitIfs

namespace InterpretThis
namespace Struct

abbrev Text := List Char

inductive Failure where
  /-- `struct.error`. -/
  | structError (message : String)
  /-- The host panics: an index or a length out of range. -/
  | panic
  deriving DecidableEq

inductive Mode where
  | little
  | big
  | native
  deriving DecidableEq

/-- The format characters. -/
inductive Code where
  | x
  | c
  | b
  | B
  | bool
  | s
  | h
  | H
  | i
  | I
  | f
  | l
  | L
  | q
  | Q
  | d
  deriving DecidableEq

namespace Code

def ofChar : Char → Option Code
  | 'x' => some x
  | 'c' => some c
  | 'b' => some b
  | 'B' => some B
  | '?' => some bool
  | 's' => some s
  | 'h' => some h
  | 'H' => some H
  | 'i' => some i
  | 'I' => some I
  | 'f' => some f
  | 'l' => some l
  | 'L' => some L
  | 'q' => some q
  | 'Q' => some Q
  | 'd' => some d
  | _ => none

/-- `code_size`: the bytes of one element. -/
def size (mode : Mode) : Code → ℕ
  | x | c | b | B | bool | s => 1
  | h | H => 2
  | i | I | f => 4
  | l | L => if mode=.native then 8 else 4
  | q | Q | d => 8

/-- `code_align`. -/
def align (mode : Mode) (code : Code) : ℕ :=
  if mode=.native ∧ code∉[x,c,s,b,B,bool] then code.size mode else 1

end Code

/-- A parsed field; for `s` the count is the width of its one string. -/
structure Field where
  code : Code
  count : ℕ
  deriving DecidableEq

/-- A `usize` result. -/
def wrap (n : ℕ) : ℕ := n%2^64

def codeOf (c : Char) : Except Failure Code :=
  match Code.ofChar c with
  | some code => .ok code
  | none => .error (.structError ("bad char in struct format: '"++c.toString++"'"))

def isAsciiWhitespace (c : Char) : Bool := c∈[' ','\t','\n','\x0c','\r']

def digit (c : Char) : ℕ := c.toNat- '0'.toNat

/-- The fields of a format; `pending` is the repeat count read so far, and `step` adds a digit to it. -/
def parseFields (step : ℕ → ℕ → ℕ) : Option ℕ → Text → Except Failure (List Field)
  | none,[] => .ok []
  | some _,[] => .error (.structError "repeat count given without format specifier")
  | none,c::rest =>
    if isAsciiWhitespace c then parseFields step none rest
    else if c.isDigit then parseFields step (some (step 0 (digit c))) rest
    else do
      let code ← codeOf c
      let fields ← parseFields step none rest
      return ⟨code,1⟩::fields
  | some n,c::rest =>
    if c.isDigit then parseFields step (some (step n (digit c))) rest
    else do
      let code ← codeOf c
      let fields ← parseFields step none rest
      return ⟨code,n⟩::fields

def parseMode : Text → Mode×Text
  | '<':: rest => (.little,rest)
  | '>':: rest => (.big,rest)
  | '!':: rest => (.big,rest)
  | '=':: rest => (.little,rest)
  | '@':: rest => (.native,rest)
  | rest => (.native,rest)

def parseFormatWith (step : ℕ → ℕ → ℕ) (fmt : Text) : Except Failure (Mode×List Field) :=
  (parseFields step none (parseMode fmt).2).map fun fields => ((parseMode fmt).1,fields)

/-- The format with its counts in a `usize`, where a digit too many wraps around. -/
def parseFormat (fmt : Text) : Except Failure (Mode×List Field) :=
  parseFormatWith (fun n d => wrap (wrap (n*10)+d)) fmt

def writtenFormat (fmt : Text) : Except Failure (Mode×List Field) :=
  parseFormatWith (fun n d => n*10+d) fmt

def alignTo (offset alignment : ℕ) : ℕ :=
  if 1<alignment then wrap ((offset+alignment-1)/alignment*alignment) else offset

/-- The walk of `layout_size` from an offset. -/
def layoutFrom (mode : Mode) : ℕ → List Field → ℕ
  | offset,[] => offset
  | offset,f::fields =>
    layoutFrom mode (wrap (alignTo offset (f.code.align mode)+
      if f.code=.s then f.count else wrap (f.count*f.code.size mode))) fields

def layoutSize (mode : Mode) (fields : List Field) : ℕ := layoutFrom mode 0 fields

namespace Field

/-- The values that a field takes: none for `x`, one for `s`. -/
def values (f : Field) : ℕ :=
  match f.code with
  | .x => 0
  | .s => 1
  | _ => f.count

end Field

def valueCount (fields : List Field) : ℕ :=
  fields.foldl (fun n f => wrap (n+f.values)) 0

/-- `struct.calcsize`, whose result is an `i64`. -/
def calcsize (fmt : Text) : Except Failure ℕ := do
  let (mode,fields) ← parseFormat fmt
  return if layoutSize mode fields<2^63 then layoutSize mode fields else 0

section Exact

def alignUp (offset alignment : ℕ) : ℕ :=
  if 1<alignment then (offset+alignment-1)/alignment*alignment else offset

namespace Field

def width (mode : Mode) (f : Field) : ℕ := f.count*f.code.size mode

def start (mode : Mode) (f : Field) (offset : ℕ) : ℕ := alignUp offset (f.code.align mode)

end Field

/-- Where the fields end that start behind an offset. -/
def endFrom (mode : Mode) : ℕ → List Field → ℕ
  | offset,[] => offset
  | offset,f::fields => endFrom mode (f.start mode offset+f.width mode) fields

variable (mode : Mode)

theorem le_alignUp (offset alignment : ℕ) : offset≤alignUp offset alignment := by
  unfold alignUp
  split_ifs with h
  · have hm := Nat.div_add_mod (offset+alignment-1) alignment
    have hr := Nat.mod_lt (offset+alignment-1) (show 0<alignment by omega)
    rw [Nat.mul_comm] at hm
    omega
  · exact le_refl _

theorem le_start (f : Field) (offset : ℕ) : offset≤f.start mode offset := le_alignUp _ _

theorem le_endFrom (fields : List Field) (offset : ℕ) : offset≤endFrom mode offset fields := by
  induction fields generalizing offset with
  | nil => exact le_refl _
  | cons f fields ih =>
    have h := ih (f.start mode offset+f.width mode)
    have hs := le_start mode f offset
    simp only [endFrom]
    omega

theorem size_pos (code : Code) : 0<code.size mode := by
  cases code <;> cases mode <;> decide

theorem count_le_width (f : Field) : f.count≤f.width mode :=
  Nat.le_mul_of_pos_right _ (size_pos mode f.code)

theorem wrap_self (n : ℕ) (h : n<2^64) : wrap n=n := Nat.mod_eq_of_lt h

theorem alignTo_exact (offset alignment : ℕ) (h : alignUp offset alignment<2^64) :
    alignTo offset alignment=alignUp offset alignment := by
  unfold alignTo alignUp at *
  split_ifs at h ⊢
  · exact wrap_self _ h
  · rfl

theorem bounds (f : Field) (fields : List Field) (offset bound : ℕ)
    (h : endFrom mode offset (f::fields)<bound) :
    f.start mode offset+f.width mode<bound :=
  lt_of_le_of_lt (le_endFrom mode fields _) h

theorem layoutFrom_exact (fields : List Field) (offset : ℕ) (h : endFrom mode offset fields<2^64) :
    layoutFrom mode offset fields=endFrom mode offset fields := by
  induction fields generalizing offset with
  | nil => rfl
  | cons f fields ih =>
    have hb := bounds mode f fields offset _ h
    have hstart : f.start mode offset<2^64 := by omega
    have hwidth : f.width mode<2^64 := by omega
    have hw : (if f.code=.s then f.count else wrap (f.count*f.code.size mode))=f.width mode := by
      split_ifs with hs
      · unfold Field.width
        rw [hs]
        exact (Nat.mul_one _).symm
      · exact wrap_self _ hwidth
    have ha : alignTo offset (f.code.align mode)=f.start mode offset := alignTo_exact _ _ hstart
    simp only [layoutFrom,endFrom]
    rw [hw,ha,wrap_self _ hb]
    exact ih _ h

theorem values_le (fields : List Field) (offset : ℕ) :
    offset+(fields.map Field.values).sum≤endFrom mode offset fields+fields.length := by
  induction fields generalizing offset with
  | nil => simp [endFrom]
  | cons f fields ih =>
    have h := ih (f.start mode offset+f.width mode)
    have hs := le_start mode f offset
    have hc := count_le_width mode f
    have hv : f.values≤f.count+1 := by
      unfold Field.values
      split <;> omega
    simp only [List.map_cons,List.sum_cons,endFrom,List.length_cons]
    omega

theorem valueCount_from (fields : List Field) (n : ℕ)
    (h : n+(fields.map Field.values).sum<2^64) :
    fields.foldl (fun n f => wrap (n+f.values)) n=n+(fields.map Field.values).sum := by
  induction fields generalizing n with
  | nil => rfl
  | cons f fields ih =>
    simp only [List.map_cons,List.sum_cons] at h
    simp only [List.foldl_cons,List.map_cons,List.sum_cons]
    rw [wrap_self _ (by omega),ih _ (by omega),Nat.add_assoc]

theorem valueCount_exact (fields : List Field)
    (h : endFrom mode 0 fields+fields.length<2^64) :
    valueCount fields=(fields.map Field.values).sum := by
  have hv := values_le mode fields 0
  unfold valueCount
  rw [valueCount_from fields 0 (by omega),Nat.zero_add]

end Exact

section Parsing

/-- A field with its count in a `usize`. -/
def wrapField (f : Field) : Field := ⟨f.code,wrap f.count⟩

theorem wrap_step (n d : ℕ) : wrap (wrap (wrap n*10)+d)=wrap (n*10+d) := by
  unfold wrap
  omega

/-- The parser's counts are the written ones, wrapped around. -/
theorem parseFields_wrap (pending : Option ℕ) (text : Text) :
    parseFields (fun n d => wrap (wrap (n*10)+d)) (pending.map wrap) text=
      (parseFields (fun n d => n*10+d) pending text).map (List.map wrapField) := by
  have first (d : ℕ) : wrap (wrap (0*10)+d)=wrap (0*10+d) := wrap_step 0 d
  induction text generalizing pending with
  | nil => cases pending <;> rfl
  | cons c rest ih =>
    have field (n : ℕ) (m : ℕ) (hm : m=wrap n) :
        (do
          let code ← codeOf c
          let fields ← parseFields (fun n d => wrap (wrap (n*10)+d)) none rest
          return (⟨code,m⟩::fields : List Field))=
        (do
          let code ← codeOf c
          let fields ← parseFields (fun n d => n*10+d) none rest
          return (⟨code,n⟩::fields : List Field) : Except Failure (List Field)).map
            (List.map wrapField) := by
      have hrest := ih none
      simp only [Option.map_none] at hrest
      rw [hrest,hm]
      cases codeOf c with
      | error e => rfl
      | ok code =>
        cases parseFields (fun n d => n*10+d) none rest with
        | error e => rfl
        | ok fields => rfl
    cases pending with
    | none =>
      simp only [Option.map_none,parseFields]
      split_ifs
      · exact ih none
      · have h := ih (some (0*10+digit c))
        simp only [Option.map_some] at h
        rw [first]
        exact h
      · exact field 1 1 (by decide)
    | some n =>
      simp only [Option.map_some,parseFields]
      split_ifs
      · have h := ih (some (n*10+digit c))
        simp only [Option.map_some] at h
        rw [wrap_step]
        exact h
      · exact field n _ rfl

theorem parseFormat_wrap (fmt : Text) :
    parseFormat fmt=(writtenFormat fmt).map fun mf => (mf.1,mf.2.map wrapField) := by
  have h := parseFields_wrap none (parseMode fmt).2
  simp only [Option.map_none] at h
  unfold parseFormat writtenFormat parseFormatWith
  rw [h]
  cases parseFields (fun n d => n*10+d) none (parseMode fmt).2 <;> rfl

/-- Every field has a character of its own. -/
theorem length_parseFields (step : ℕ → ℕ → ℕ) (pending : Option ℕ) (text : Text)
    (fields : List Field) (h : parseFields step pending text=.ok fields) :
    fields.length≤text.length := by
  induction text generalizing pending fields with
  | nil =>
    cases pending with
    | none =>
      cases h
      exact le_refl _
    | some n => cases h
  | cons c rest ih =>
    have field (n : ℕ) (hf : (do
          let code ← codeOf c
          let fields ← parseFields step none rest
          return (⟨code,n⟩::fields : List Field) : Except Failure (List Field))=.ok fields) :
        fields.length≤(c::rest).length := by
      cases hc : codeOf c with
      | error e =>
        rw [hc] at hf
        cases hf
      | ok code =>
        cases hr : parseFields step none rest with
        | error e =>
          rw [hc,hr] at hf
          cases hf
        | ok tail =>
          rw [hc,hr] at hf
          cases hf
          exact Nat.succ_le_succ (ih none tail hr)
    cases pending with
    | none =>
      rw [parseFields] at h
      split_ifs at h
      · exact (ih _ _ h).trans (Nat.le_succ _)
      · exact (ih _ _ h).trans (Nat.le_succ _)
      · exact field _ h
    | some n =>
      rw [parseFields] at h
      split_ifs at h
      · exact (ih _ _ h).trans (Nat.le_succ _)
      · exact field _ h

theorem length_parseMode (fmt : Text) : (parseMode fmt).2.length≤fmt.length := by
  unfold parseMode
  split <;> first
    | exact Nat.le_succ _
    | exact le_refl _

theorem length_writtenFormat (fmt : Text) (mode : Mode) (fields : List Field)
    (h : writtenFormat fmt=.ok (mode,fields)) : fields.length≤fmt.length := by
  unfold writtenFormat parseFormatWith at h
  cases hp : parseFields (fun n d => n*10+d) none (parseMode fmt).2 with
  | error e =>
    rw [hp] at h
    cases h
  | ok parsed =>
    rw [hp] at h
    cases h
    exact (length_parseFields _ _ _ _ hp).trans (length_parseMode fmt)

theorem wrapField_exact (mode : Mode) (fields : List Field) (offset : ℕ)
    (h : endFrom mode offset fields<2^64) : fields.map wrapField=fields := by
  induction fields generalizing offset with
  | nil => rfl
  | cons f fields ih =>
    have hb := bounds mode f fields offset _ h
    have hc := count_le_width mode f
    have hf : wrapField f=f := by
      unfold wrapField
      rw [wrap_self _ (by omega)]
    rw [List.map_cons,hf,ih _ h]

end Parsing

end Struct
end InterpretThis
