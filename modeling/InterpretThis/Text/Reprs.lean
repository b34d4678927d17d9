import InterpretThis.Framework.Calling
import InterpretThis.Framework.Quoted

namespace InterpretThis.Reprs

open Quoted

/-- The categories of `unicode_general_category`. -/
inductive GeneralCategory where
  | closePunctuation | connectorPunctuation | control | currencySymbol | dashPunctuation
  | decimalNumber | enclosingMark | finalPunctuation | format | initialPunctuation
  | letterNumber | lineSeparator | lowercaseLetter | mathSymbol | modifierLetter
  | modifierSymbol | nonspacingMark | openPunctuation | otherLetter | otherNumber
  | otherPunctuation | otherSymbol | paragraphSeparator | privateUse | spaceSeparator
  | spacingMark | surrogate | titlecaseLetter | unassigned | uppercaseLetter
  deriving DecidableEq

def hidden : List GeneralCategory :=
  [.control,.format,.surrogate,.privateUse,.unassigned,.lineSeparator,.paragraphSeparator,
    .spaceSeparator]

-- `get_general_category`.
variable (category : Char → GeneralCategory)

def charIsPrintable (c : Char) : Bool := c= ' ' || !hidden.contains (category c)

def quoteOf (single double : Bool) : Char := if single && !double then '"' else '\''

/-- One step of the loop of `python_str_repr`. -/
def escapeChar (quote ch : Char) : List Char :=
  if ch= '\\' then ['\\', '\\']
  else if ch= '\n' then ['\\', 'n']
  else if ch= '\r' then ['\\', 'r']
  else if ch= '\t' then ['\\', 't']
  else if ch=quote then ['\\',ch]
  else if charIsPrintable category ch then [ch]
  else if ch.toNat ≤ 0xff then '\\':: 'x'::hexDigits 2 ch.toNat
  else if ch.toNat ≤ 0xffff then '\\':: 'u'::hexDigits 4 ch.toNat
  else '\\':: 'U'::hexDigits 8 ch.toNat

def pythonStrRepr (s : List Char) : List Char :=
  let quote := quoteOf (s.contains '\'') (s.contains '"')
  quote::(s.flatMap (escapeChar category quote)++[quote])

/-- One step of the loop of `write_bytes_literal`. -/
def escapeByte (quote : Char) (byte : UInt8) : List Char :=
  let ch := Char.ofNat byte.toNat
  if ch= '\\' then ['\\', '\\']
  else if ch= '\n' then ['\\', 'n']
  else if ch= '\r' then ['\\', 'r']
  else if ch= '\t' then ['\\', 't']
  else if ch=quote then ['\\',ch]
  else if 0x20 ≤ byte.toNat ∧ byte.toNat ≤ 0x7e then [ch]
  else '\\':: 'x'::hexDigits 2 byte.toNat

def writeBytesLiteral (b : List UInt8) : List Char :=
  let quote := quoteOf (b.contains 39) (b.contains 34)
  'b'::quote::(b.flatMap (escapeByte quote)++[quote])

section Reader

variable {α : Type}

def escapes : List (Char×Char) :=
  [('\\', '\\'),('n', '\n'),('r', '\r'),('t', '\t'),('\'', '\''),('"', '"')]

section Escapes

variable (widths : List (Char×ℕ)) (wide plain : ℕ → Option α)

/-- What follows a backslash: an escaped character, or a number of a fixed width. -/
def readEscape : List Char → Option (α×List Char)
  | [] => none
  | e::t =>
    match escapes.lookup e with
    | some v => (plain v.toNat).map (·,t)
    | none => (widths.lookup e).bind fun w => (readHex w 0 t).bind fun p =>
        (wide p.1).map (·,p.2)

def readElement : List Char → Option (α×List Char)
  | [] => none
  | c::t =>
    if c= '\\' then readEscape widths wide plain t
    else if c= '\n' ∨ c= '\r' then none
    else (plain c.toNat).map (·,t)

end Escapes

def charOf (n : ℕ) : Option Char := if n.isValidChar then some (Char.ofNat n) else none

def byteBelow (limit n : ℕ) : Option UInt8 := if n<limit then some (UInt8.ofNat n) else none

def readChar : List Char → Option (Char×List Char) :=
  readElement [('x',2),('u',4),('U',8)] charOf charOf

def readByte : List Char → Option (UInt8×List Char) :=
  readElement [('x',2)] (byteBelow 256) (byteBelow 128)

/-- A literal on one line, between two quotes of the same kind, with nothing behind it. -/
def readLiteral (next : List Char → Option (α×List Char)) : List Char → Option (List α)
  | [] => none
  | quote::t =>
    if quote= '\'' ∨ quote= '"' then
      (readBody quote next t.length t).bind fun p => if p.2=[] then some p.1 else none
    else none

def readStr : List Char → Option (List Char) := readLiteral readChar

def readBytes : List Char → Option (List UInt8)
  | 'b'::t => readLiteral readByte t
  | _ => none

end Reader

section Elements

variable {α : Type} {widths : List (Char×ℕ)} {wide plain : ℕ → Option α}

theorem readElement_plain {c : Char} {a : α} (t : List Char) (hc : c≠ '\\' ∧ c≠ '\n' ∧ c≠ '\r')
    (h : plain c.toNat=some a) : readElement widths wide plain (c::t)=some (a,t) := by
  rw [readElement,if_neg hc.1,if_neg (not_or.mpr hc.2),h]
  rfl

theorem readElement_escape {e v : Char} {a : α} (t : List Char) (he : escapes.lookup e=some v)
    (h : plain v.toNat=some a) : readElement widths wide plain ('\\'::e::t)=some (a,t) := by
  rw [readElement,if_pos rfl,readEscape,he]
  simp only [h,Option.map_some]

theorem readElement_hex {e : Char} {w n : ℕ} {a : α} (t : List Char)
    (he : escapes.lookup e=none) (hw : widths.lookup e=some w) (hn : n<16^w)
    (h : wide n=some a) :
    readElement widths wide plain ('\\'::e::hexDigits w n++t)=some (a,t) := by
  have read := readHex_digits w 0 0 n t hn
  rw [Nat.add_zero,Nat.mul_zero,Nat.zero_add] at read
  rw [List.cons_append,List.cons_append,readElement,if_pos rfl,readEscape,he]
  simp only [hw,Option.bind_some,read,h,readHex,Option.map_some]

/-- The three shapes of a repr's words: an escape, the character itself, a number. -/
inductive Word (widths : List (Char×ℕ)) (wide plain : ℕ → Option α) (quote c : Char) (a : α) :
    List Char → Prop
  | escaped (e : Char) (he : escapes.lookup e=some c) (h : plain c.toNat=some a) :
    Word widths wide plain quote c a ['\\',e]
  | itself (hc : c≠ '\\' ∧ c≠ '\n' ∧ c≠ '\r') (hq : c≠quote) (h : plain c.toNat=some a) :
    Word widths wide plain quote c a [c]
  | numbered (e : Char) (w : ℕ) (he : escapes.lookup e=none) (hw : widths.lookup e=some w)
    (hn : c.toNat<16^w) (h : wide c.toNat=some a) :
    Word widths wide plain quote c a ('\\'::e::hexDigits w c.toNat)

theorem code_of_words {quote : Char} {code : α → List Char} {char : α → Char}
    (hq : quote= '\'' ∨ quote= '"')
    (h : ∀ a,Word widths wide plain quote (char a) a (code a)) :
    Quoted.Code quote (readElement widths wide plain) code := by
  have hback : '\\'≠quote := by
    rintro rfl
    exact absurd hq (by decide)
  constructor
  · intro a
    have word := h a
    generalize code a=t at word
    cases word with
    | escaped e _ _ => exact ⟨_,_,rfl,hback⟩
    | itself _ hne _ => exact ⟨_,_,rfl,hne⟩
    | numbered e w _ _ _ _ => exact ⟨_,_,rfl,hback⟩
  · intro a t
    have word := h a
    generalize code a=u at word
    cases word with
    | escaped e he hp => exact readElement_escape t he hp
    | itself hc _ hp => exact readElement_plain t hc hp
    | numbered e w he hw hn hp => exact readElement_hex t he hw hn hp

/-- A literal of such words is read back whole. -/
theorem readLiteral_words {quote : Char} {code : α → List Char} (xs : List α)
    (hq : quote= '\'' ∨ quote= '"') (h : Quoted.Code quote (readElement widths wide plain) code) :
    readLiteral (readElement widths wide plain) (quote::(xs.flatMap code++[quote]))=some xs := by
  have hlen : xs.length<(xs.flatMap code++[quote]).length := by
    rw [List.length_append,List.length_singleton]
    exact Nat.lt_succ_of_le (h.length_le xs)
  rw [readLiteral,if_pos hq,h.readBody_eq xs [] hlen]
  rfl

end Elements

section Readers

theorem charOf_toNat (c : Char) : charOf c.toNat=some c := by
  have valid : c.toNat.isValidChar := c.valid
  rw [charOf,if_pos valid,Char.ofNat_toNat]

theorem quoteOf_quote (single double : Bool) :
    quoteOf single double= '\'' ∨ quoteOf single double= '"' := by
  rw [quoteOf]
  split
  · exact Or.inr rfl
  · exact Or.inl rfl

theorem lookup_quote {quote : Char} (hq : quote= '\'' ∨ quote= '"') :
    escapes.lookup quote=some quote := by
  rcases hq with rfl | rfl <;> decide

variable (category : Char → GeneralCategory)

theorem escapeChar_word {quote : Char} (hq : quote= '\'' ∨ quote= '"') (c : Char) :
    Word [('x',2),('u',4),('U',8)] charOf charOf quote c c (escapeChar category quote c) := by
  have hself := charOf_toNat c
  have hsmall : c.toNat<16^8 := by
    have valid : c.toNat.isValidChar := c.valid
    rcases valid with h | h <;> omega
  rw [escapeChar]
  split_ifs with hback hline hreturn htab hquote hprint hx hu
  · exact .escaped '\\' (by rw [hback]; decide) hself
  · exact .escaped 'n' (by rw [hline]; decide) hself
  · exact .escaped 'r' (by rw [hreturn]; decide) hself
  · exact .escaped 't' (by rw [htab]; decide) hself
  · exact .escaped c (by rw [hquote]; exact lookup_quote hq) hself
  · exact .itself ⟨hback,hline,hreturn⟩ hquote hself
  · exact .numbered 'x' 2 (by decide) (by decide) (by omega) hself
  · exact .numbered 'u' 4 (by decide) (by decide) (by omega) hself
  · exact .numbered 'U' 8 (by decide) (by decide) hsmall hself

theorem byteBelow_toNat {limit : ℕ} (b : UInt8) (h : b.toNat<limit) :
    byteBelow limit b.toNat=some b := by
  rw [byteBelow,if_pos h,UInt8.ofNat_toNat]

theorem byte_char (b : UInt8) : (Char.ofNat b.toNat).toNat=b.toNat := by
  have hb := b.toNat_lt
  have valid : b.toNat.isValidChar := Or.inl (by omega)
  rw [Char.ofNat,dif_pos valid]
  rfl

theorem escapeByte_word {quote : Char} (hq : quote= '\'' ∨ quote= '"') (b : UInt8) :
    Word [('x',2)] (byteBelow 256) (byteBelow 128) quote (Char.ofNat b.toNat) b
      (escapeByte quote b) := by
  have hchar := byte_char b
  have low {c : Char} (hc : c.toNat<128) (h : Char.ofNat b.toNat=c) :
      byteBelow 128 (Char.ofNat b.toNat).toNat=some b := by
    rw [hchar]
    exact byteBelow_toNat b (by rw [← hchar,h]; exact hc)
  have lowQuote : quote.toNat<128 := by rcases hq with rfl | rfl <;> decide
  rw [escapeByte]
  split_ifs with hback hline hreturn htab hquote hprint
  · exact .escaped '\\' (by rw [hback]; decide) (low (by decide) hback)
  · exact .escaped 'n' (by rw [hline]; decide) (low (by decide) hline)
  · exact .escaped 'r' (by rw [hreturn]; decide) (low (by decide) hreturn)
  · exact .escaped 't' (by rw [htab]; decide) (low (by decide) htab)
  · exact .escaped _ (by rw [hquote]; exact lookup_quote hq) (low lowQuote hquote)
  · refine .itself ⟨hback,hline,hreturn⟩ hquote ?_
    rw [hchar]
    exact byteBelow_toNat b (by omega)
  · have word : Word [('x',2)] (byteBelow 256) (byteBelow 128) quote (Char.ofNat b.toNat) b
        ('\\':: 'x'::hexDigits 2 (Char.ofNat b.toNat).toNat) :=
      .numbered 'x' 2 (by decide) (by decide) (by rw [hchar]; exact b.toNat_lt)
        (by rw [hchar]; exact byteBelow_toNat b b.toNat_lt)
    rw [hchar] at word
    exact word

theorem readStr_repr (s : List Char) : readStr (pythonStrRepr category s)=some s := by
  have hq := quoteOf_quote (s.contains '\'') (s.contains '"')
  exact readLiteral_words s hq (code_of_words hq (escapeChar_word category hq))

theorem readBytes_literal (b : List UInt8) : readBytes (writeBytesLiteral b)=some b := by
  have hq := quoteOf_quote (b.contains 39) (b.contains 34)
  exact readLiteral_words b hq (code_of_words hq (escapeByte_word hq))

theorem pythonStrRepr_injective : Function.Injective (pythonStrRepr category) := by
  intro s t h
  have hs := readStr_repr category s
  rw [h,readStr_repr] at hs
  exact (Option.some.inj hs).symm

theorem writeBytesLiteral_injective : Function.Injective writeBytesLiteral := by
  intro b d h
  have hb := readBytes_literal b
  rw [h,readBytes_literal] at hb
  exact (Option.some.inj hb).symm

end Readers

section Shown

variable {α : Type} {widths : List (Char×ℕ)} {wide plain : ℕ → Option α}

def Ascii (c : Char) : Prop := 0x21 ≤ c.toNat ∧ c.toNat ≤ 0x7e

instance (c : Char) : Decidable (Ascii c) := inferInstanceAs (Decidable (_ ∧ _))

theorem hexChars_ascii {c : Char} (h : c∈hexChars) : Ascii c := by
  have all : hexChars.all fun c => decide (Ascii c) := by decide
  exact of_decide_eq_true (List.all_eq_true.mp all c h)

theorem escapes_ascii {e c : Char} (h : escapes.lookup e=some c) : Ascii e := by
  have all : escapes.all fun p => decide (Ascii p.1) := by decide
  exact of_decide_eq_true (List.all_eq_true.mp all _ (Calling.mem_of_lookup h))

/-- A word is the character itself or ASCII. -/
theorem Word.shown {quote c : Char} {a : α} {t : List Char} (hw : ∀ p∈widths,Ascii p.1)
    (h : Word widths wide plain quote c a t) :
    (t=[c] ∧ c≠ '\n' ∧ c≠ '\r') ∨ ∀ x∈t,Ascii x := by
  cases h with
  | itself hc _ _ => exact Or.inl ⟨rfl,hc.2⟩
  | escaped e he _ =>
    right
    intro x hx
    rcases List.mem_cons.mp hx with rfl | hx
    · decide
    · rw [List.mem_singleton.mp hx]
      exact escapes_ascii he
  | numbered e w _ hlookup _ _ =>
    right
    intro x hx
    rcases List.mem_cons.mp hx with rfl | hx
    · decide
    rcases List.mem_cons.mp hx with rfl | hx
    · exact hw _ (Calling.mem_of_lookup hlookup)
    · exact hexChars_ascii (hexDigits_mem hx)

theorem escapeChar_shown (category : Char → GeneralCategory) {quote c x : Char}
    (hq : quote= '\'' ∨ quote= '"') (hx : x∈escapeChar category quote c) :
    Ascii x ∨ charIsPrintable category x=true ∧ x≠ '\n' ∧ x≠ '\r' := by
  rcases (escapeChar_word category hq c).shown (by decide) with ⟨hone,hne⟩ | hall
  · right
    rw [hone,List.mem_singleton] at hx
    rw [hx]
    refine ⟨?_,hne⟩
    by_contra hprint
    rw [escapeChar] at hone
    split_ifs at hone <;> injection hone <;> contradiction
  · exact Or.inl (hall x hx)

theorem escapeByte_shown {quote x : Char} {b : UInt8} (hq : quote= '\'' ∨ quote= '"')
    (hx : x∈escapeByte quote b) : 0x20 ≤ x.toNat ∧ x.toNat ≤ 0x7e := by
  rcases (escapeByte_word hq b).shown (by decide) with ⟨hone,-⟩ | hall
  · rw [hone,List.mem_singleton] at hx
    rw [hx,byte_char]
    by_contra hrange
    rw [escapeByte] at hone
    split_ifs at hone <;> injection hone <;> contradiction
  · have h := hall x hx
    rw [Ascii] at h
    omega

/-- Around the words stand two quotes. -/
theorem mem_quoted {code : α → List Char} {quote x : Char} {xs : List α}
    (hx : x∈quote::(xs.flatMap code++[quote])) : x=quote ∨ ∃a∈xs,x∈code a := by
  rcases List.mem_cons.mp hx with rfl | hx
  · exact Or.inl rfl
  rcases List.mem_append.mp hx with hx | hx
  · exact Or.inr (List.mem_flatMap.mp hx)
  · exact Or.inl (List.mem_singleton.mp hx)

theorem quote_ascii {quote : Char} (hq : quote= '\'' ∨ quote= '"') : Ascii quote := by
  rcases hq with rfl | rfl <;> decide

theorem ascii_oneLine {c : Char} (h : Ascii c) : c≠ '\n' ∧ c≠ '\r' := by
  constructor <;>
  · rintro rfl
    exact absurd h (by decide)

/-- No ASCII character above the space is hidden. -/
def AsciiShown (category : Char → GeneralCategory) : Prop := ∀ c,Ascii c → category c∉hidden

theorem pythonStrRepr_shown {category : Char → GeneralCategory} (ascii : AsciiShown category)
    (s : List Char) (x : Char) (hx : x∈pythonStrRepr category s) :
    charIsPrintable category x=true ∧ x≠ '\n' ∧ x≠ '\r' := by
  have printable {c : Char} (h : Ascii c) :
      charIsPrintable category c=true ∧ c≠ '\n' ∧ c≠ '\r' := by
    refine ⟨?_,ascii_oneLine h⟩
    rw [charIsPrintable,List.contains_eq_mem,decide_eq_false (ascii c h)]
    exact Bool.or_true _
  have hq := quoteOf_quote (s.contains '\'') (s.contains '"')
  rcases mem_quoted hx with rfl | ⟨c,-,hc⟩
  · exact printable (quote_ascii hq)
  · rcases escapeChar_shown category hq hc with h | h
    · exact printable h
    · exact h

theorem writeBytesLiteral_shown (b : List UInt8) (x : Char) (hx : x∈writeBytesLiteral b) :
    0x20 ≤ x.toNat ∧ x.toNat ≤ 0x7e := by
  rcases List.mem_cons.mp hx with rfl | hx
  · decide
  have hq := quoteOf_quote (b.contains 39) (b.contains 34)
  rcases mem_quoted hx with rfl | ⟨c,-,hc⟩
  · have h := quote_ascii hq
    rw [Ascii] at h
    omega
  · exact escapeByte_shown hq hc

end Shown

/-- Reprs are literals of what they show, on one line of printable characters. -/
theorem reprs_read_back (category : Char → GeneralCategory) (ascii : AsciiShown category) :
    (∀ s,readStr (pythonStrRepr category s)=some s) ∧
    (∀ b,readBytes (writeBytesLiteral b)=some b) ∧
    Function.Injective (pythonStrRepr category) ∧ Function.Injective writeBytesLiteral ∧
    (∀ s,∀ c∈pythonStrRepr category s,charIsPrintable category c=true ∧ c≠ '\n' ∧ c≠ '\r') ∧
    ∀ b,∀ c∈writeBytesLiteral b,0x20 ≤ c.toNat ∧ c.toNat ≤ 0x7e :=
  ⟨readStr_repr category,readBytes_literal,pythonStrRepr_injective category,
    writeBytesLiteral_injective,pythonStrRepr_shown ascii,writeBytesLiteral_shown⟩

/-- The categories of ASCII. -/
def asciiCategory (c : Char) : GeneralCategory :=
  if c.toNat<32 ∨ c.toNat=127 then .control
  else if c= ' ' then .spaceSeparator
  else if 127<c.toNat then .unassigned
  else if c.isDigit then .decimalNumber
  else if c.isUpper then .uppercaseLetter
  else if c.isLower then .lowercaseLetter
  else if c∈['(', '[', '{'] then .openPunctuation
  else if c∈[')', ']', '}'] then .closePunctuation
  else if c∈['+', '<', '=', '>', '|', '~'] then .mathSymbol
  else if c= '^' ∨ c.toNat=96 then .modifierSymbol
  else if c= '$' then .currencySymbol
  else if c= '-' then .dashPunctuation
  else if c= '_' then .connectorPunctuation
  else .otherPunctuation

theorem asciiCategory_shown : AsciiShown asciiCategory := by
  have all : (List.range 127).all fun n => decide (33 ≤ n →
      asciiCategory (Char.ofNat n)∉hidden) := by decide
  intro c hc
  have h := of_decide_eq_true (List.all_eq_true.mp all c.toNat
    (List.mem_range.mpr (Nat.lt_succ_of_le hc.2))) hc.1
  rwa [Char.ofNat_toNat] at h

/-- A quote of each kind, a backslash and a tab. -/
theorem reprs_read_back_ascii :
    readStr (pythonStrRepr asciiCategory "it's \"\\\t".toList)=some "it's \"\\\t".toList :=
  (reprs_read_back asciiCategory asciiCategory_shown).1 "it's \"\\\t".toList

end InterpretThis.Reprs
