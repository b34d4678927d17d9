import InterpretThis.Format.Prescribed
import InterpretThis.Format.Value

namespace InterpretThis
namespace Format

open Grouping

/-- What the formatter makes of a digit run: only the digits before the first exponent letter are grouped. -/
def cutGrouped (sep : Char) (grp : ℕ) (digits : Text) : Text :=
  if (splitTail digits).1=[] then digits
  else separate sep grp (splitTail digits).1++(splitTail digits).2

section Split

theorem splitTail_append (text : Text) : (splitTail text).1++(splitTail text).2=text :=
  List.takeWhile_append_dropWhile

theorem splitTail_plain (text : Text) (ht : ∀ c∈text,c∉['.','e','E']) :
    splitTail text=(text,[]) := by
  have hp (c : Char) (hc : c∈text) : (!isExponentOrPoint c)=true := by
    simpa [isExponentOrPoint] using ht c hc
  simp only [splitTail,Prod.mk.injEq,List.takeWhile_eq_self_iff,List.dropWhile_eq_nil_iff]
  exact ⟨hp,hp⟩

theorem splitTail_snd (text : Text) (c : Char) (hc : c∈text) (he : c∈['.','e','E']) :
    (splitTail text).2≠[] := by
  intro h
  simp only [splitTail,List.dropWhile_eq_nil_iff] at h
  have hn := h c hc
  simp only [isExponentOrPoint,Bool.not_eq_true',decide_eq_false_iff_not] at hn
  exact hn he

theorem splitTail_mem (text : Text) (c : Char) :
    (c∈(splitTail text).1 → c∈text) ∧ (c∈(splitTail text).2 → c∈text) := by
  have ha := splitTail_append text
  constructor
  · intro h
    rw [← ha]
    exact List.mem_append_left _ h
  · intro h
    rw [← ha]
    exact List.mem_append_right _ h

theorem splitSign_sign (signs : List Char) (c : Char) (rest : Text) (hc : c∈signs) :
    splitSign signs (c::rest)=([c],rest) := by
  simp only [splitSign,if_pos hc]

theorem splitSign_none (signs : List Char) (rest : Text)
    (hr : ∀ c,rest.head?=some c → c∉signs) : splitSign signs rest=([],rest) := by
  cases rest with
  | nil => rfl
  | cons c rest => simp only [splitSign,if_neg (hr c rfl)]

theorem splitRadixPrefix_none (rest : Text) (hr : rest.head?=some '0' → rest=['0']) :
    splitRadixPrefix rest=([],rest) := by
  unfold splitRadixPrefix
  split
  · have h0 := hr rfl
    cases h0
  · rfl

theorem replicate_cancel {c : Char} {a b : ℕ} {xs ys : Text} (hx : xs.head?≠some c)
    (hy : ys.head?≠some c) (he : List.replicate a c++xs=List.replicate b c++ys) : xs=ys := by
  have drop (k : ℕ) (zs : Text) (hz : zs.head?≠some c) :
      (List.replicate k c++zs).dropWhile (fun d => d=c)=zs := by
    induction k with
    | zero =>
      cases zs with
      | nil => rfl
      | cons z zs =>
        have hn : z≠c := fun h => hz (by rw [h]; rfl)
        simp [hn]
    | succ k ih => simpa [List.replicate_succ] using ih
  rw [← drop a xs hx,he,drop b ys hy]

end Split

section CutGrouped

variable (sep : Char) (grp : ℕ) (digits : Text)

theorem cutGrouped_plain (hd : ∀ c∈digits,c∉['.','e','E']) :
    cutGrouped sep grp digits=separate sep grp digits := by
  unfold cutGrouped
  rw [splitTail_plain digits hd]
  split_ifs with h
  · simp only at h
    rw [h]
    rfl
  · simp

theorem cutGrouped_short (hl : digits.length≤grp) : cutGrouped sep grp digits=digits := by
  have ha := splitTail_append digits
  unfold cutGrouped
  split_ifs
  · rfl
  · have hs : (splitTail digits).1.length≤grp := by
      have hh := congrArg List.length ha
      rw [List.length_append] at hh
      omega
    rw [separate_short sep grp _ hs,ha]

theorem cutGrouped_head : (cutGrouped sep grp digits).head?=digits.head? := by
  unfold cutGrouped
  split_ifs with h
  · rfl
  · have hs := separate_ne_nil sep grp _ h
    rw [List.head?_append_of_ne_nil _ hs,separate_head]
    nth_rewrite 2 [← splitTail_append digits]
    rw [List.head?_append_of_ne_nil _ h]

theorem cutGrouped_bare (hs : sep∉digits) :
    (cutGrouped sep grp digits).filter (fun c => c≠sep)=digits := by
  have keep (text : Text) (ht : sep∉text) : text.filter (fun c => c≠sep)=text := by
    rw [List.filter_eq_self]
    intro c hc
    have hn : c≠sep := fun h => ht (h ▸ hc)
    simpa using hn
  have h1 : sep∉(splitTail digits).1 := fun h => hs ((splitTail_mem digits sep).1 h)
  have h2 : sep∉(splitTail digits).2 := fun h => hs ((splitTail_mem digits sep).2 h)
  unfold cutGrouped
  split_ifs
  · exact keep digits hs
  · rw [List.filter_append,separate_bare sep grp _ h1,keep _ h2,splitTail_append]

theorem cutGrouped_mem (c : Char) (hc : c∈cutGrouped sep grp digits) : c=sep ∨ c∈digits := by
  unfold cutGrouped at hc
  split_ifs at hc
  · exact Or.inr hc
  · rw [List.mem_append] at hc
    obtain hc | hc := hc
    · exact (mem_separate sep grp _ hc).imp id (splitTail_mem digits c).1
    · exact Or.inr ((splitTail_mem digits c).2 hc)

theorem cutGrouped_tail (hs : sep∉['.','e','E']) :
    (splitTail (cutGrouped sep grp digits)).2=(splitTail digits).2 := by
  have plain (c : Char) (hc : c∈separate sep grp (splitTail digits).1) :
      (!isExponentOrPoint c)=true := by
    obtain rfl | hc := mem_separate sep grp _ hc
    · simpa [isExponentOrPoint] using hs
    · exact List.mem_takeWhile_imp (p := fun c => !isExponentOrPoint c) hc
  unfold cutGrouped
  split_ifs
  · rfl
  · change ((separate sep grp (splitTail digits).1)++(splitTail digits).2).dropWhile
      (fun c => !isExponentOrPoint c)=(splitTail digits).2
    rw [List.dropWhile_append_of_pos plain]
    exact List.dropWhile_idempotent _ digits

theorem cutGrouped_unmarked (hk : 0<grp) (hs : sep∉digits) (c : Char) (hc : c∈digits)
    (he : c∈['.','e','E']) : (cutGrouped sep grp digits).reverse[grp]?≠some sep := by
  have h1 : sep∉(splitTail digits).1 := fun h => hs ((splitTail_mem digits sep).1 h)
  have h2 : sep∉(splitTail digits).2 := fun h => hs ((splitTail_mem digits sep).2 h)
  unfold cutGrouped
  split_ifs
  · intro h
    exact hs (List.mem_reverse.mp (List.mem_of_getElem? h))
  · exact separate_unmarked sep grp _ _ hk (splitTail_snd digits c hc he) h1 h2

theorem cutGrouped_last (hk : 0<grp) (hs : sep∉digits) :
    (cutGrouped sep grp digits).reverse.head?≠some sep := by
  intro h
  have h1 : sep∉(splitTail digits).1 := fun h => hs ((splitTail_mem digits sep).1 h)
  have h2 : sep∉(splitTail digits).2 := fun h => hs ((splitTail_mem digits sep).2 h)
  unfold cutGrouped at h
  split_ifs at h
  · exact hs (List.mem_reverse.mp (List.mem_of_head? h))
  · rw [List.reverse_append] at h
    by_cases ht : (splitTail digits).2=[]
    · rw [ht,List.reverse_nil,List.nil_append,List.head?_eq_getElem?,
        separate_last sep grp _ hk 0 hk] at h
      exact h1 (List.mem_reverse.mp (List.mem_of_getElem? h))
    · rw [List.head?_append_of_ne_nil _ (by simpa using ht)] at h
      exact h2 (List.mem_reverse.mp (List.mem_of_head? h))

end CutGrouped

namespace IntSpec

variable (s : IntSpec) (n : ℤ)

def parsed : FormatSpec :=
  ⟨s.fill,s.align.map Align.char,s.sign.map SignOption.char,s.alternate,s.zero,
    s.widthOption,s.grouping.map Separator.char,none,s.type.char.toList⟩

theorem parsed_typeChar : s.parsed.typeChar=s.type.char := by
  unfold FormatSpec.typeChar parsed
  cases s.type <;> rfl

theorem parsed_groupSize : s.parsed.groupSize=s.type.groupSize := by
  rw [FormatSpec.groupSize,parsed_typeChar]
  cases s.type <;> rfl

theorem parsed_fillChar : s.parsed.fillChar=s.fillChar := rfl

theorem parsed_alignment : s.parsed.alignment true=s.alignment.char := by
  unfold FormatSpec.alignment alignment parsed
  cases s.align with
  | some a => rfl
  | none =>
    cases s.zero with
    | true => rfl
    | false => rfl

theorem parsed_width : s.parsed.width.getD 0=s.minWidth := s.widthOption_getD

theorem parsed_padInside (sep : Char) (hg : s.grouping.map Separator.char=some sep)
    (text sign radix digits : Text) (width : ℕ)
    (h1 : splitSign ['-','+',' '] text=(sign,radix++digits))
    (h2 : splitRadixPrefix (radix++digits)=(radix,digits)) :
    s.parsed.padInside width text=
      if s.fillChar = '0' then
        sign++radix++padAndGroupZero ((splitTail digits).1.filter fun c => c≠sep)
          (width-((sign++radix).length+(splitTail digits).2.length)) s.type.groupSize sep++
          (splitTail digits).2
      else sign++radix++List.replicate (width-text.length) s.fillChar++digits := by
  have hp : s.parsed.grouping=some sep := hg
  simp only [FormatSpec.padInside,h1,h2,hp,parsed_groupSize,parsed_fillChar]

theorem parsed_padInside_plain (hg : s.grouping=none) (text sign radix digits : Text) (width : ℕ)
    (h1 : splitSign ['-','+',' '] text=(sign,radix++digits))
    (h2 : splitRadixPrefix (radix++digits)=(radix,digits)) :
    s.parsed.padInside width text=
      sign++radix++List.replicate (width-text.length) s.fillChar++digits := by
  have hp : s.parsed.grouping=none := by simp only [parsed,hg,Option.map_none]
  simp only [FormatSpec.padInside,h1,h2,hp,parsed_fillChar]

def minus (n : ℤ) : Text := if n<0 then ['-'] else []

def raw : Text := minus n++(s.radixText++s.digits n)

theorem radixText_cases : s.radixText=[] ∨
    ∃ c,c∈['b','B','o','O','x','X'] ∧ s.radixText=['0',c] := by
  unfold radixText
  cases s.alternate with
  | false => exact Or.inl rfl
  | true =>
    cases s.type with
    | binary => exact Or.inr ⟨'b',by decide,rfl⟩
    | octal => exact Or.inr ⟨'o',by decide,rfl⟩
    | hex => exact Or.inr ⟨'x',by decide,rfl⟩
    | upperHex => exact Or.inr ⟨'X',by decide,rfl⟩
    | _ => exact Or.inl rfl

/-- A digit run as the parts of the formatter see it: the digits of `n`, possibly with separators. -/
structure Shows (X : Text) : Prop where
  head : X.head?=(s.digits n).head?
  single : s.digits n=['0'] → X=['0']

theorem shows_digits : s.Shows n (s.digits n) := ⟨rfl,id⟩

theorem shows_cutGrouped (sep : Char) : s.Shows n (cutGrouped sep s.type.groupSize (s.digits n)) := by
  refine ⟨cutGrouped_head sep _ _,?_⟩
  intro h
  rw [h,cutGrouped_short sep _ _ (by simpa using Nat.succ_le_of_lt s.type.groupSize_pos)]

theorem head_hex (X : Text) (hX : s.Shows n X) :
    ∃ c,X.head?=some c ∧ isHexDigit c=true := by
  cases hd : s.digits n with
  | nil => exact absurd hd (s.type.digits_ne_nil _)
  | cons c cs =>
    refine ⟨c,by rw [hX.head,hd]; rfl,?_⟩
    exact (s.type.digits_chars n.natAbs c (by rw [← digits,hd]; simp)).1

theorem splitRadix_shown (X : Text) (hX : s.Shows n X) :
    splitRadixPrefix (s.radixText++X)=(s.radixText,X) := by
  obtain h | ⟨c,hc,h⟩ := s.radixText_cases
  · rw [h,List.nil_append]
    apply splitRadixPrefix_none
    intro h0
    rw [hX.head] at h0
    exact hX.single (s.type.digits_lead n.natAbs h0)
  · rw [h]
    simp only [List.cons_append,List.nil_append,splitRadixPrefix,if_pos hc]

theorem radix_head (X : Text) (hX : s.Shows n X) (c : Char)
    (hc : (s.radixText++X).head?=some c) : isHexDigit c=true := by
  obtain h | ⟨x,-,h⟩ := s.radixText_cases
  · obtain ⟨d,hd,hh⟩ := s.head_hex n X hX
    rw [h,List.nil_append,hd] at hc
    cases hc
    exact hh
  · rw [h] at hc
    cases hc
    decide

theorem splitSign_shown (signs : List Char) (hs : ∀ c∈signs,isHexDigit c=false) (sign X : Text)
    (hg : sign=[] ∨ ∃ c∈signs,sign=[c]) (hX : s.Shows n X) :
    splitSign signs (sign++(s.radixText++X))=(sign,s.radixText++X) := by
  obtain rfl | ⟨c,hc,rfl⟩ := hg
  · apply splitSign_none
    intro c hc hm
    have h1 := s.radix_head n X hX c hc
    rw [hs c hm] at h1
    cases h1
  · exact splitSign_sign signs c _ hc

theorem minus_cases : minus n=[] ∨ ∃ c∈['-','+'],minus n=[c] := by
  unfold minus
  split_ifs
  · exact Or.inr ⟨'-',by decide,rfl⟩
  · exact Or.inl rfl

theorem signText_cases : s.signText n=[] ∨ ∃ c∈['-','+',' '],s.signText n=[c] := by
  unfold signText
  split_ifs
  · exact Or.inr ⟨'-',by decide,rfl⟩
  · cases s.sign with
    | none => exact Or.inl rfl
    | some sign =>
      cases sign with
      | plus => exact Or.inr ⟨'+',by decide,rfl⟩
      | minus => exact Or.inl rfl
      | space => exact Or.inr ⟨' ',by decide,rfl⟩

theorem digits_isHex (c : Char) (hc : c∈s.digits n) : isHexDigit c=true :=
  (s.type.digits_chars n.natAbs c hc).1

theorem separator_apart (sep : Separator) : sep.char∉s.digits n := by
  have hs : isHexDigit sep.char=false := by cases sep <;> rfl
  intro hm
  rw [s.digits_isHex n _ hm] at hs
  cases hs

theorem applyThousandsSeparator_raw (sep : Char) :
    applyThousandsSeparator (s.raw n) sep s.type.groupSize=
      minus n++(s.radixText++cutGrouped sep s.type.groupSize (s.digits n)) := by
  have h1 := s.splitSign_shown n ['-','+'] (List.all_iff_forall_prop.mp (by decide)) _ _
    (minus_cases n) (s.shows_digits n)
  have h2 := s.splitRadix_shown n _ (s.shows_digits n)
  have hv : ((splitTail (s.digits n)).1.all fun c =>
      if s.type.groupSize=4 then isHexDigit c else c.isDigit)=true := by
    rw [List.all_eq_true]
    intro c hc
    exact s.type.digits_valid n.natAbs c ((splitTail_mem _ c).1 hc)
  simp only [applyThousandsSeparator,raw,h1,h2,hv,cutGrouped,not_true_eq_false,or_false]
  split_ifs
  · rfl
  · simp only [List.append_assoc]

theorem applySign_shown (X : Text) (hX : s.Shows n X) :
    applySign (s.sign.map SignOption.char) true (minus n++(s.radixText++X))=
      s.signText n++(s.radixText++X) := by
  have hh : (s.radixText++X).head?≠some '-' := by
    intro h
    exact absurd (s.radix_head n X hX _ h) (by decide)
  generalize s.radixText++X=T at hh
  by_cases hn : n<0
  · have hm : minus n=['-'] := by simp only [minus,if_pos hn]
    have hs : s.signText n=['-'] := by simp only [signText,if_pos hn]
    rw [hm,hs]
    cases s.sign with
    | none => rfl
    | some sign => cases sign <;> rfl
  · have hm : minus n=[] := by simp only [minus,if_neg hn]
    rw [hm,signText,if_neg hn,List.nil_append]
    cases s.sign with
    | none => rfl
    | some sign => cases sign <;> simp [applySign,SignOption.char,hh]

/-- The digits as the formatter groups them. -/
def shown : Text :=
  match s.grouping with
  | none => s.digits n
  | some sep => cutGrouped sep.char s.type.groupSize (s.digits n)

theorem shows_shown : s.Shows n (s.shown n) := by
  unfold shown
  cases s.grouping with
  | none => exact s.shows_digits n
  | some sep => exact s.shows_cutGrouped n sep.char

theorem dress_raw : s.parsed.dress true (s.raw n)=s.parsed.pad true (s.head n++s.shown n) := by
  have ha : applySign s.parsed.sign true (minus n++(s.radixText++s.shown n))=
      s.head n++s.shown n := by
    rw [head,List.append_assoc]
    exact s.applySign_shown n (s.shown n) (s.shows_shown n)
  have hp : s.parsed.grouping=s.grouping.map Separator.char := rfl
  rw [← ha]
  unfold FormatSpec.dress
  cases hg : s.grouping with
  | none => simp only [hp,hg,Option.map_none,shown,raw]
  | some sep =>
    simp only [hp,hg,Option.map_some,shown,parsed_groupSize,applyThousandsSeparator_raw]

theorem padded_zero (head body : Text) : s.padded 0 head body=head++body := by
  unfold padded
  cases s.alignment <;> simp

variable (X : Text)

theorem splits_shown (hX : s.Shows n X) :
    splitSign ['-','+',' '] (s.head n++X)=(s.signText n,s.radixText++X) ∧
      splitRadixPrefix (s.radixText++X)=(s.radixText,X) := by
  refine ⟨?_,s.splitRadix_shown n X hX⟩
  rw [head,List.append_assoc]
  exact s.splitSign_shown n ['-','+',' '] (List.all_iff_forall_prop.mp (by decide)) _ X
    (s.signText_cases n) hX

/-- Where no zero filling is grouped the formatter pads as prescribed. -/
theorem pad_shown (hX : s.Shows n X) (hz : ¬(s.ZeroFills ∧ s.grouping.isSome)) :
    s.parsed.pad true (s.head n++X)=
      s.padded (s.minWidth-(s.head n++X).length) (s.head n) X := by
  obtain ⟨h1,h2⟩ := s.splits_shown n X hX
  simp only [FormatSpec.pad,parsed_width,parsed_alignment,parsed_fillChar]
  split_ifs with hw
  · rw [Nat.sub_eq_zero_of_le hw,padded_zero]
  · unfold padded
    cases ha : s.alignment with
    | left => rfl
    | right => rfl
    | center => rfl
    | inside =>
      simp only [Align.char]
      cases hg : s.grouping with
      | none => exact s.parsed_padInside_plain hg _ _ _ _ _ h1 h2
      | some sep =>
        have hf : s.fillChar≠ '0' := by
          intro hf
          exact hz ⟨⟨hf,ha⟩,by rw [hg]; rfl⟩
        rw [s.parsed_padInside sep.char (by rw [hg]; rfl) _ _ _ _ _ h1 h2,if_neg hf]
        rfl

theorem pad_regrouped (hX : s.Shows n X) (hz : s.ZeroFills) (sep : Separator)
    (hg : s.grouping=some sep) (hw : (s.head n++X).length<s.minWidth) :
    s.parsed.pad true (s.head n++X)=
      s.head n++padAndGroupZero ((splitTail X).1.filter fun c => c≠sep.char)
        (s.minWidth-((s.head n).length+(splitTail X).2.length)) s.type.groupSize sep.char++
        (splitTail X).2 := by
  obtain ⟨h1,h2⟩ := s.splits_shown n X hX
  have hl : ¬s.minWidth≤(s.head n++X).length := by omega
  simp only [FormatSpec.pad,parsed_width,parsed_alignment,hz.2,Align.char,if_neg hl]
  rw [s.parsed_padInside sep.char (by rw [hg]; rfl) _ _ _ _ _ h1 h2,if_pos hz.1]
  rfl

theorem pad_wide (hw : s.minWidth≤(s.head n++X).length) :
    s.parsed.pad true (s.head n++X)=s.head n++X := by
  simp only [FormatSpec.pad,parsed_width,if_pos hw]

end IntSpec

section Formatter

variable {F D O : Type} (R : Renderer F D O) (s : IntSpec) (n : ℤ)

theorem formatInteger_raw (typeName : String) :
    R.formatInteger n typeName s.type.char none s.alternate=.ok (s.raw n) := by
  unfold Renderer.formatInteger IntSpec.raw IntSpec.radixText IntSpec.digits IntSpec.minus
  by_cases hn : n<0
  · cases s.alternate <;> cases s.type <;>
      simp [IntType.char,IntType.radixPrefix,IntType.digits,IntType.radix,Renderer.decimal,
        Renderer.radix,Renderer.upperDigits,hn]
  · cases s.alternate <;> cases s.type <;>
      simp [IntType.char,IntType.radixPrefix,IntType.digits,IntType.radix,Renderer.decimal,
        Renderer.radix,Renderer.upperDigits,hn]

theorem applyParsed_text :
    R.applyParsed (.int n) s.text=.ok (s.parsed.pad true (s.head n++s.shown n)) := by
  have hp : parseSpec s.text=s.parsed := s.parseSpec_text
  have hf : Renderer.applyParsed.format R (.int n) s.text s.parsed=
      .ok (s.parsed.pad true (s.head n++s.shown n)) := by
    have hr : ¬1<s.parsed.rest.length := by
      unfold IntSpec.parsed
      cases s.type <;> simp [IntType.char]
    have hb : R.formatValueBody (.int n) s.parsed.typeChar s.parsed.precision s.parsed.alternate=
        .ok (s.raw n) := by
      rw [IntSpec.parsed_typeChar]
      exact formatInteger_raw R s n _
    simp only [Renderer.applyParsed.format,if_neg hr,hb,Except.map,Value.isNumber,
      IntSpec.dress_raw]
  have hw : s.parsed.width=s.widthOption := rfl
  simp only [Renderer.applyParsed,hp,hw]
  unfold IntSpec.widthOption
  split_ifs with he
  · exact hf
  · have hl : ¬maxFormatWidth<s.minWidth := Nat.not_lt.mpr s.width_le
    simp only [if_neg hl]
    exact hf

theorem applyFormatSpec_text :
    R.applyFormatSpec (.int n) s.text=.ok (s.parsed.pad true (s.head n++s.shown n)) := by
  unfold Renderer.applyFormatSpec
  split_ifs with he
  · -- The empty spec prints the value, which is what parsing it gives.
    have hs := applyParsed_text R s n
    rw [he] at hs
    rw [← hs]
    have hp : parseSpec []=⟨none,none,none,false,false,none,none,none,[]⟩ := rfl
    simp only [Renderer.applyParsed,hp,Renderer.applyParsed.format,List.length_nil,
      Nat.not_lt_zero,if_false,FormatSpec.typeChar,List.head?_nil,Renderer.formatValueBody,
      Renderer.formatInteger,Renderer.display]
    simp [Except.map,FormatSpec.dress,FormatSpec.pad,applySign]
  · exact applyParsed_text R s n

end Formatter

end Format
end InterpretThis
