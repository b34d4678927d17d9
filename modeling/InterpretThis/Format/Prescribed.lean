import InterpretThis.Format.Value
import Mathlib.Tactic.IntervalCases
import Mathlib.Tactic.Ring

namespace InterpretThis
namespace Format

inductive Align where
  | left
  | right
  | center
  | inside
  deriving DecidableEq

def Align.char : Align → Char
  | .left => '<'
  | .right => '>'
  | .center => '^'
  | .inside => '='

inductive SignOption where
  | plus
  | minus
  | space
  deriving DecidableEq

def SignOption.char : SignOption → Char
  | .plus => '+'
  | .minus => '-'
  | .space => ' '

inductive Separator where
  | comma
  | underscore
  deriving DecidableEq

def Separator.char : Separator → Char
  | .comma => ','
  | .underscore => '_'

inductive IntType where
  | default
  | decimal
  | number
  | binary
  | octal
  | hex
  | upperHex
  deriving DecidableEq

namespace IntType

def char : IntType → Option Char
  | .default => none
  | .decimal => some 'd'
  | .number => some 'n'
  | .binary => some 'b'
  | .octal => some 'o'
  | .hex => some 'x'
  | .upperHex => some 'X'

def radix : IntType → ℕ
  | .binary => 2
  | .octal => 8
  | .hex | .upperHex => 16
  | _ => 10

/-- Radix digits come in groups of four, decimal ones in groups of three. -/
def groupSize : IntType → ℕ
  | .binary | .octal | .hex | .upperHex => 4
  | _ => 3

def radixPrefix : IntType → Text
  | .binary => ['0','b']
  | .octal => ['0','o']
  | .hex => ['0','x']
  | .upperHex => ['0','X']
  | _ => []

def digits (t : IntType) (m : ℕ) : Text :=
  match t with
  | .upperHex => (Nat.toDigits 16 m).map Char.toUpper
  | t => Nat.toDigits t.radix m

end IntType

/-- A well-formed format spec for an integer. -/
structure IntSpec where
  fill : Option Char
  align : Option Align
  sign : Option SignOption
  alternate : Bool
  zero : Bool
  width : Text
  grouping : Option Separator
  type : IntType
  /-- A fill character is only given with an alignment. -/
  fill_align : fill.isSome → align.isSome
  width_digits : ∀ c∈width,c.isDigit
  /-- A leading zero of the width is the zero flag. -/
  width_zero : zero=false → width.head?≠some '0'
  width_le : Nat.ofDigitChars 10 width 0 ≤ maxFormatWidth
  comma_type : grouping=some .comma → type∈[IntType.default,.decimal]
  underscore_type : grouping=some .underscore → type≠IntType.number

namespace IntSpec

def flagText (flag : Bool) (c : Char) : Text := if flag then [c] else []

def text (s : IntSpec) : Text :=
  s.fill.toList++((s.align.map Align.char).toList++((s.sign.map SignOption.char).toList++
    (flagText s.alternate '#'++(flagText s.zero '0'++(s.width++
      ((s.grouping.map Separator.char).toList++s.type.char.toList))))))

def minWidth (s : IntSpec) : ℕ := Nat.ofDigitChars 10 s.width 0

def fillChar (s : IntSpec) : Char := s.fill.getD (if s.zero then '0' else ' ')

def alignment (s : IntSpec) : Align := s.align.getD (if s.zero then .inside else .right)

def signText (s : IntSpec) (n : ℤ) : Text :=
  if n<0 then ['-'] else
    match s.sign with
    | some .plus => ['+']
    | some .space => [' ']
    | _ => []

def radixText (s : IntSpec) : Text := if s.alternate then s.type.radixPrefix else []

def head (s : IntSpec) (n : ℤ) : Text := s.signText n++s.radixText

def digits (s : IntSpec) (n : ℤ) : Text := s.type.digits n.natAbs

/-- Padding with zeros after the sign counts as digits. -/
def ZeroFills (s : IntSpec) : Prop := s.fillChar = '0' ∧ s.alignment=.inside

instance (s : IntSpec) : Decidable s.ZeroFills := inferInstanceAs (Decidable (_ ∧ _))

def digitWidth (s : IntSpec) (n : ℤ) : ℕ :=
  if s.ZeroFills then s.minWidth-(s.head n).length else 0

/-- The digits with the zeros that fill them up, grouped from the right. -/
def body (s : IntSpec) (n : ℤ) : Text :=
  match s.grouping with
  | none =>
    List.replicate (s.digitWidth n-(s.digits n).length) '0'++s.digits n
  | some sep => Grouping.zeroFilled '0' sep.char s.type.groupSize (s.digitWidth n) (s.digits n)

/-- Head and body with `padding` fill characters on the side of the alignment. -/
def padded (s : IntSpec) (padding : ℕ) (head body : Text) : Text :=
  match s.alignment with
  | .left => head++body++List.replicate padding s.fillChar
  | .right => List.replicate padding s.fillChar++(head++body)
  | .center =>
    List.replicate (padding/2) s.fillChar++(head++body)++
      List.replicate (padding-padding/2) s.fillChar
  | .inside => head++List.replicate padding s.fillChar++body

/-- The text that the format specification mini-language prescribes for `n`. -/
def prescribed (s : IntSpec) (n : ℤ) : Text :=
  s.padded (s.minWidth-(s.head n++s.body n).length) (s.head n) (s.body n)

def isNotSeparator (s : IntSpec) (c : Char) : Bool := s.grouping.map Separator.char≠some c

end IntSpec

section Parsing

theorem parseOneOf_none (options : List Char) (rest : Text) (hr : ∀ c∈rest,c∉options) :
    parseOneOf options rest=(none,rest) := by
  cases rest with
  | nil => rfl
  | cons c rest => simp only [parseOneOf,if_neg (hr c (by simp))]

theorem parseOneOf_option (options : List Char) (o : Option Char) (rest : Text)
    (ho : ∀ c,o=some c → c∈options) (hr : ∀ c∈rest,c∉options) :
    parseOneOf options (o.toList++rest)=(o,rest) := by
  cases o with
  | none => exact parseOneOf_none options rest hr
  | some c => simp [parseOneOf,ho c rfl]

theorem parseFlag_flag (flag : Char) (given : Bool) (rest : Text)
    (hr : given=false → rest.head?≠some flag) :
    parseFlag flag (IntSpec.flagText given flag++rest)=(given,rest) := by
  cases given with
  | true => simp [IntSpec.flagText,parseFlag]
  | false =>
    have hf := hr rfl
    cases rest with
    | nil => rfl
    | cons c rest =>
      have hc : c≠flag := fun h => hf (by rw [h]; rfl)
      simp [IntSpec.flagText,parseFlag,hc]

theorem parseFillAlign_none (rest : Text) (hr : ∀ c∈rest,c∉aligns) :
    parseFillAlign rest=(none,none,rest) := by
  cases rest with
  | nil => rfl
  | cons c rest =>
    cases rest with
    | nil => simp only [parseFillAlign,if_neg (hr c (by simp))]
    | cons a rest =>
      simp only [parseFillAlign,if_neg (hr c (by simp)),if_neg (hr a (by simp))]

theorem parseFillAlign_align (a : Char) (rest : Text) (ha : a∈aligns) (hr : ∀ c∈rest,c∉aligns) :
    parseFillAlign (a::rest)=(none,some a,rest) := by
  cases rest with
  | nil => simp only [parseFillAlign,if_pos ha]
  | cons c rest => simp only [parseFillAlign,if_pos ha,if_neg (hr c (by simp))]

theorem takeWhile_digits (ds rest : Text) (hd : ∀ c∈ds,c.isDigit)
    (hr : ∀ c∈rest,c.isDigit=false) :
    (ds++rest).takeWhile Char.isDigit=ds ∧ (ds++rest).dropWhile Char.isDigit=rest := by
  induction ds with
  | nil =>
    cases rest with
    | nil => exact ⟨rfl,rfl⟩
    | cons c rest => simp [hr c (by simp)]
  | cons d ds ih =>
    have hh := hd d (by simp)
    have ht := ih fun c hc => hd c (by simp [hc])
    simp [hh,ht.1,ht.2]

theorem parseNumber_digits (ds rest : Text) (hd : ∀ c∈ds,c.isDigit)
    (hr : ∀ c∈rest,c.isDigit=false) :
    parseNumber (ds++rest)=(if ds=[] then none else parseI64 ds,rest) := by
  obtain ⟨ht,hs⟩ := takeWhile_digits ds rest hd hr
  simp only [parseNumber,ht,hs]
  cases ds with
  | nil => rfl
  | cons d ds => rfl

end Parsing

namespace IntSpec

variable (s : IntSpec)

def suffix : Text := (s.grouping.map Separator.char).toList++s.type.char.toList

theorem suffix_chars (c : Char) (hc : c∈s.suffix) : c∈[',','_','d','n','b','o','x','X'] := by
  simp only [suffix,List.mem_append] at hc
  obtain hc | hc := hc
  · cases hg : s.grouping with
    | none => simp [hg] at hc
    | some sep => cases sep <;> simp [hg,Separator.char] at hc <;> simp [hc]
  · cases ht : s.type <;> simp [ht,IntType.char] at hc <;> simp [hc]

theorem suffix_apart (options : List Char)
    (ho : ∀ c∈[',','_','d','n','b','o','x','X'],c∉options) (c : Char) (hc : c∈s.suffix) :
    c∉options :=
  ho c (s.suffix_chars c hc)

theorem suffix_digits (c : Char) (hc : c∈s.suffix) : c.isDigit=false := by
  have hd : ∀ c∈[',','_','d','n','b','o','x','X'],c.isDigit=false :=
    List.all_iff_forall_prop.mp (by decide)
  exact hd c (s.suffix_chars c hc)

theorem late_apart (options : List Char) (hd : ∀ c∈options,c.isDigit=false)
    (ho : ∀ c∈[',','_','d','n','b','o','x','X'],c∉options) (c : Char)
    (hc : c∈s.width++s.suffix) : c∉options := by
  simp only [List.mem_append] at hc
  obtain hc | hc := hc
  · intro hm
    have h1 := hd c hm
    rw [s.width_digits c hc] at h1
    cases h1
  · exact s.suffix_apart options ho c hc

theorem mem_flagText (flag : Bool) (f c : Char) (hc : c∈flagText flag f) : c=f := by
  cases flag with
  | true => simpa [flagText] using hc
  | false => cases hc

theorem zero_head (hz : s.zero=false) : (s.width++s.suffix).head?≠some '0' := by
  cases hw : s.width with
  | nil =>
    intro hh
    have hm := List.mem_of_head? hh
    rw [List.nil_append] at hm
    exact absurd (s.suffix_chars _ hm) (by decide)
  | cons d ds =>
    have h0 := s.width_zero hz
    rw [hw] at h0
    simpa using h0

theorem late_options (options : List Char) (sharp zero : Bool) (hd : ∀ c∈options,c.isDigit=false)
    (hs : '#'∉options) (ho : ∀ c∈[',','_','d','n','b','o','x','X'],c∉options) (c : Char)
    (hc : c∈flagText sharp '#'++(flagText zero '0'++(s.width++s.suffix))) : c∉options := by
  rw [List.mem_append,List.mem_append] at hc
  obtain hc | hc | hc := hc
  · rw [mem_flagText _ _ _ hc]
    exact hs
  · rw [mem_flagText _ _ _ hc]
    intro hm
    exact absurd (hd _ hm) (by decide)
  · exact s.late_apart options hd ho c hc

theorem sign_mem (c : Char) (hc : s.sign.map SignOption.char=some c) : c∈['+','-',' '] := by
  cases hs : s.sign with
  | none => simp [hs] at hc
  | some sign => cases sign <;> simp [hs,SignOption.char] at hc <;> simp [← hc]

theorem grouping_mem (c : Char) (hc : s.grouping.map Separator.char=some c) : c∈[',','_'] := by
  cases hs : s.grouping with
  | none => simp [hs] at hc
  | some sep => cases sep <;> simp [hs,Separator.char] at hc <;> simp [← hc]

/-- What follows fill and alignment. -/
def rest : Text :=
  (s.sign.map SignOption.char).toList++
    (flagText s.alternate '#'++(flagText s.zero '0'++(s.width++s.suffix)))

theorem rest_aligns (c : Char) (hc : c∈s.rest) : c∉aligns := by
  simp only [rest,List.mem_append (s := (s.sign.map SignOption.char).toList)] at hc
  obtain hc | hc := hc
  · have hm := s.sign_mem c (by simpa using hc)
    have hd : ∀ c∈['+','-',' '],c∉aligns := List.all_iff_forall_prop.mp (by decide)
    exact hd c hm
  · exact s.late_options aligns _ _ (List.all_iff_forall_prop.mp (by decide)) (by decide)
      (List.all_iff_forall_prop.mp (by decide)) c hc

theorem parseFillAlign_text :
    parseFillAlign s.text=(s.fill,s.align.map Align.char,s.rest) := by
  have ht : s.text=s.fill.toList++((s.align.map Align.char).toList++s.rest) := rfl
  have hm (a : Align) : a.char∈aligns := by cases a <;> decide
  rw [ht]
  cases ha : s.align with
  | none =>
    have hf : s.fill=none := by
      cases hf : s.fill with
      | none => rfl
      | some f => simpa [hf,ha] using s.fill_align
    rw [hf]
    exact parseFillAlign_none s.rest s.rest_aligns
  | some a =>
    cases hf : s.fill with
    | none => exact parseFillAlign_align a.char s.rest (hm a) s.rest_aligns
    | some f =>
      simp [parseFillAlign,hm a]

def widthOption : Option ℕ := if s.width=[] then none else some s.minWidth

theorem widthOption_getD : s.widthOption.getD 0=s.minWidth := by
  by_cases hw : s.width=[]
  · simp [widthOption,minWidth,hw]
  · simp [widthOption,hw]

theorem parseI64_width : parseI64 s.width=some s.minWidth := by
  have hl := s.width_le
  have hf : Nat.ofDigitChars 10 s.width 0<2^63 := by
    rw [maxFormatWidth] at hl
    omega
  simp only [parseI64,if_pos hf,minWidth]

/-- The parser reads a well-formed spec as it was written. -/
theorem parseSpec_text :
    parseSpec s.text=⟨s.fill,s.align.map Align.char,s.sign.map SignOption.char,s.alternate,s.zero,
      s.widthOption,s.grouping.map Separator.char,none,s.type.char.toList⟩ := by
  have hs : parseSign s.rest=(s.sign.map SignOption.char,
      flagText s.alternate '#'++(flagText s.zero '0'++(s.width++s.suffix))) :=
    parseOneOf_option _ _ _ s.sign_mem
      (s.late_options _ _ _ (List.all_iff_forall_prop.mp (by decide)) (by decide)
        (List.all_iff_forall_prop.mp (by decide)))
  have ha : parseFlag '#' (flagText s.alternate '#'++(flagText s.zero '0'++(s.width++s.suffix)))=
      (s.alternate,flagText s.zero '0'++(s.width++s.suffix)) := by
    apply parseFlag_flag
    intro _ hh
    have hm := List.mem_of_head? hh
    rw [List.mem_append] at hm
    obtain hm | hm := hm
    · exact absurd (mem_flagText _ _ _ hm) (by decide)
    · exact s.late_apart ['#'] (List.all_iff_forall_prop.mp (by decide))
        (List.all_iff_forall_prop.mp (by decide)) _ hm (by decide)
  have hz : parseFlag '0' (flagText s.zero '0'++(s.width++s.suffix))=
      (s.zero,s.width++s.suffix) := parseFlag_flag _ _ _ s.zero_head
  have hw : parseNumber (s.width++s.suffix)=(s.widthOption,s.suffix) := by
    rw [parseNumber_digits s.width s.suffix s.width_digits s.suffix_digits,s.parseI64_width]
    rfl
  have ht (c : Char) (hc : c∈s.type.char.toList) : c∈['d','n','b','o','x','X'] := by
    cases ht : s.type <;> simp [ht,IntType.char] at hc <;> simp [hc]
  have hg : parseGrouping s.suffix=(s.grouping.map Separator.char,s.type.char.toList) := by
    have hd : ∀ c∈['d','n','b','o','x','X'],c∉[',','_'] := List.all_iff_forall_prop.mp (by decide)
    exact parseOneOf_option _ _ _ s.grouping_mem fun c hc => hd c (ht c hc)
  have hp : parsePrecision s.type.char.toList=(none,s.type.char.toList) := by
    cases s.type <;> rfl
  simp only [parseSpec,s.parseFillAlign_text,hs,ha,hz,hw,hg,hp]

end IntSpec

def hexValue (c : Char) : ℕ :=
  if c.isDigit then c.toNat-48 else if 97 ≤ c.toNat then c.toNat-87 else c.toNat-55

def readDigits (b : ℕ) (text : Text) : ℕ := text.foldl (fun m c => b*m+hexValue c) 0

section Digits

theorem toDigits_chars (b m : ℕ) (hb : 1<b) :
    ∀ c∈Nat.toDigits b m,∃ d,d<b ∧ c=Nat.digitChar d := by
  induction m using Nat.strong_induction_on with
  | _ m ih =>
    intro c hc
    by_cases hm : m<b
    · rw [Nat.toDigits_of_lt_base hm,List.mem_singleton] at hc
      exact ⟨m,hm,hc⟩
    · have hl : m/b < m := Nat.div_lt_self (by omega) hb
      rw [Nat.toDigits_of_base_le hb (by omega),List.mem_append,List.mem_singleton] at hc
      obtain hc | hc := hc
      · exact ih (m/b) hl c hc
      · exact ⟨m%b,Nat.mod_lt m (by omega),hc⟩

theorem toDigits_lead (b m : ℕ) (hb : 1<b) (hh : (Nat.toDigits b m).head?=some '0') : m=0 := by
  induction m using Nat.strong_induction_on with
  | _ m ih =>
    by_cases hm : m<b
    · rw [Nat.toDigits_of_lt_base hm] at hh
      simpa using hh
    · have hl : m/b < m := Nat.div_lt_self (by omega) hb
      have hp : 0 < m/b := Nat.div_pos (by omega) (by omega)
      rw [Nat.toDigits_of_base_le hb (by omega),List.head?_append_of_ne_nil _ Nat.toDigits_ne_nil]
        at hh
      have h0 := ih (m/b) hl hh
      omega

theorem readDigits_append (b : ℕ) (text : Text) (c : Char) :
    readDigits b (text++[c])=b*readDigits b text+hexValue c := by
  simp only [readDigits,List.foldl_append,List.foldl_cons,List.foldl_nil]

theorem readDigits_map (b m : ℕ) (f : Char → Char) (hb : 1<b) (h16 : b≤16)
    (hf : ∀ d,d<16 → hexValue (f (Nat.digitChar d))=d) :
    readDigits b ((Nat.toDigits b m).map f)=m := by
  induction m using Nat.strong_induction_on with
  | _ m ih =>
    by_cases hm : m<b
    · rw [Nat.toDigits_of_lt_base hm]
      simp [readDigits,hf m (by omega)]
    · have hl : m/b < m := Nat.div_lt_self (by omega) hb
      have hr : m%b<16 := lt_of_lt_of_le (Nat.mod_lt m (by omega)) h16
      rw [Nat.toDigits_of_base_le hb (by omega),List.map_append,List.map_singleton,
        readDigits_append,ih (m/b) hl,hf _ hr]
      exact Nat.div_add_mod m b

namespace IntType

variable (t : IntType) (m : ℕ)

theorem digits_eq : ∃ f : Char → Char,t.digits m=(Nat.toDigits t.radix m).map f ∧
    (∀ d,d<16 → hexValue (f (Nat.digitChar d))=d ∧ isHexDigit (f (Nat.digitChar d)) ∧
      (f (Nat.digitChar d)).toNat<128 ∧ (f (Nat.digitChar d) = '0' → d=0) ∧
      (d<10 → f (Nat.digitChar d)=Nat.digitChar d)) := by
  cases t with
  | upperHex =>
    refine ⟨Char.toUpper,rfl,?_⟩
    intro d hd
    interval_cases d <;> decide
  | _ =>
    refine ⟨id,by simp [digits],?_⟩
    intro d hd
    interval_cases d <;> decide

theorem radix_bounds : 1<t.radix ∧ t.radix≤16 := by
  cases t <;> decide

theorem digits_chars (c : Char) (hc : c∈t.digits m) : isHexDigit c ∧ c.toNat<128 := by
  obtain ⟨f,he,hf⟩ := t.digits_eq m
  rw [he,List.mem_map] at hc
  obtain ⟨x,hx,rfl⟩ := hc
  obtain ⟨d,hd,rfl⟩ := toDigits_chars t.radix m t.radix_bounds.1 x hx
  have h16 := hf d (lt_of_lt_of_le hd t.radix_bounds.2)
  exact ⟨h16.2.1,h16.2.2.1⟩

theorem digits_ne_nil : t.digits m≠[] := by
  obtain ⟨f,he,-⟩ := t.digits_eq m
  rw [he]
  simp

theorem digits_lead (hh : (t.digits m).head?=some '0') : t.digits m=['0'] := by
  obtain ⟨f,he,hf⟩ := t.digits_eq m
  have hz : (Nat.toDigits t.radix m).head?=some '0' := by
    cases hd : Nat.toDigits t.radix m with
    | nil => exact absurd hd Nat.toDigits_ne_nil
    | cons x xs =>
      rw [he,hd] at hh
      simp only [List.map_cons,List.head?_cons,Option.some.injEq] at hh
      obtain ⟨d,hb,rfl⟩ := toDigits_chars t.radix m t.radix_bounds.1 x (by simp [hd])
      have h0 := (hf d (lt_of_lt_of_le hb t.radix_bounds.2)).2.2.2.1 hh
      simp [h0]
  have h0 := toDigits_lead t.radix m t.radix_bounds.1 hz
  rw [he,h0,Nat.toDigits_zero]
  have hf0 := (hf 0 (by omega)).2.2.2.2 (by omega)
  change [f (Nat.digitChar 0)]=[Nat.digitChar 0]
  rw [hf0]

theorem readDigits_digits : readDigits t.radix (t.digits m)=m := by
  obtain ⟨f,he,hf⟩ := t.digits_eq m
  rw [he]
  exact readDigits_map t.radix m f t.radix_bounds.1 t.radix_bounds.2 fun d hd => (hf d hd).1

theorem digits_valid (c : Char) (hc : c∈t.digits m) :
    (if t.groupSize=4 then isHexDigit c else c.isDigit)=true := by
  have hh := (t.digits_chars m c hc).1
  cases t with
  | default | decimal | number =>
    simp only [groupSize]
    exact Nat.isDigit_of_mem_toDigits (by decide) (by decide) hc
  | _ => simpa [groupSize] using hh

theorem digits_letters (c : Char) (hc : c∈t.digits m) (he : c∈['.','e','E']) :
    t∈[IntType.hex,.upperHex] := by
  have hn (hd : c.isDigit=true) : False := by
    have h0 : ∀ c∈['.','e','E'],c.isDigit=false := List.all_iff_forall_prop.mp (by decide)
    rw [h0 c he] at hd
    cases hd
  cases t with
  | hex | upperHex => simp
  | _ => exact absurd (Nat.isDigit_of_mem_toDigits (by decide) (by decide) hc) hn

theorem groupSize_pos : 0<t.groupSize := by
  cases t <;> decide

end IntType

theorem bytesAsChars_ascii (text : Text) (ht : ∀ c∈text,c.toNat<128) : bytesAsChars text=text := by
  have one (c : Char) (hc : c.toNat<128) :
      ((String.utf8EncodeChar c).map fun b => Char.ofNat b.toNat)=[c] := by
    have hs : String.utf8EncodeChar c=[UInt8.ofNat c.toNat] := by
      have hv : c.toNat≤127 := by omega
      simp [String.utf8EncodeChar,hv]
    rw [hs]
    have hm : c.toNat%256=c.toNat := Nat.mod_eq_of_lt (by omega)
    simp [hm]
  induction text with
  | nil => rfl
  | cons c text ih =>
    have hh := one c (ht c (by simp))
    have hr := ih fun d hd => ht d (by simp [hd])
    simp only [bytesAsChars,List.flatMap_cons] at hr ⊢
    rw [hh,hr]
    rfl

end Digits

end Format
end InterpretThis
