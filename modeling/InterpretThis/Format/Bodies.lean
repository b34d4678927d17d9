import InterpretThis.Format.Percent
import InterpretThis.Format.Integer

namespace InterpretThis
namespace Format

open Grouping Renderer

/-- A text of at most `n` characters. -/
def Short (n : ℕ) (x : Except Failure Text) : Prop := ∃ text,x=.ok text ∧ text.length≤n

theorem Short.map {n m : ℕ} {x : Except Failure Text} {f : Text → Text} (hx : Short n x)
    (hf : ∀ text,text.length≤n → (f text).length ≤ m) : Short m (x.map f) := by
  obtain ⟨text,rfl,h⟩ := hx
  exact ⟨f text,rfl,hf text h⟩

theorem Short.mono {n m : ℕ} {x : Except Failure Text} (hx : Short n x) (h : n ≤ m) : Short m x := by
  obtain ⟨text,rfl,ht⟩ := hx
  exact ⟨text,rfl,ht.trans h⟩

/-- The program's own error, or a text whose size exceeds the natural one's by no more than `extra`. -/
def Capped (extra : ℕ) (size : Text → ℕ) (natural actual : Except Failure Text) : Prop :=
  match actual with
  | .ok text => ∃ base,natural=.ok base ∧ size text ≤ size base+extra
  | .error e => e.kind≠.panic

namespace Capped

variable {extra : ℕ} {size : Text → ℕ} {natural actual : Except Failure Text}

theorem of_ok {text base : Text} (ha : actual=.ok text) (hn : natural=.ok base)
    (hs : size text ≤ size base+extra) : Capped extra size natural actual := by
  rw [ha]
  exact ⟨base,hn,hs⟩

theorem of_error {e : Failure} (ha : actual=.error e) (he : e.kind≠.panic) :
    Capped extra size natural actual := by
  rw [ha]
  exact he

theorem refl (h : ∀ e,actual=.error e → e.kind≠.panic) : Capped extra size actual actual := by
  cases actual with
  | ok text => exact ⟨text,rfl,Nat.le_add_right _ _⟩
  | error e => exact h e rfl

theorem of_short {n m : ℕ} (ha : Short n actual) (hn : Short m natural)
    (hs : ∀ text,text.length≤n → size text≤extra) : Capped extra size natural actual := by
  obtain ⟨text,ha,ht⟩ := ha
  obtain ⟨base,hn,-⟩ := hn
  exact of_ok ha hn ((hs text ht).trans (Nat.le_add_left _ _))

end Capped

variable {F D O : Type}

/-- The lengths that the number libraries promise. -/
structure Sized (R : Renderer F D O) : Prop where
  /-- A sign, 309 digits, the point, and the digits asked for. -/
  fixed : ∀ f p,(R.fixed f p).length≤p+311
  /-- A sign, a digit, the point, the digits asked for, and an exponent down to `e-324`. -/
  scientific : ∀ f p,(R.scientific f p).length≤p+8
  /-- A sign, an integer part that rounding widens by one digit, and the digits asked for. -/
  decimalFixed : ∀ d,∃ sign whole fraction : ℕ → Text,∀ p,
    R.decimalFixed d p=sign p++(whole p++if p=0 then [] else '.'::fraction p) ∧
      (sign p=[] ∨ sign p=['-']) ∧ whole p≠[] ∧ (∀ c∈whole p,c.isDigit) ∧
      (fraction p).length=p ∧ (whole p).length≤(whole 6).length+1

section Floats

theorem stripGeneralZeros_length (text : Text) : (stripGeneralZeros text).length≤text.length := by
  have h : (text.takeWhile fun c => !isExponentLetter c).length+
      (text.dropWhile fun c => !isExponentLetter c).length=text.length := by
    rw [← List.length_append,List.takeWhile_append_dropWhile]
  unfold stripGeneralZeros
  rw [List.length_append]
  have ht : (if '.'∈text.takeWhile fun c => !isExponentLetter c
      then ((text.takeWhile fun c => !isExponentLetter c).rdropWhile fun c => c == '0').rdropWhile
        fun c => c == '.'
      else text.takeWhile fun c => !isExponentLetter c).length≤
        (text.takeWhile fun c => !isExponentLetter c).length := by
    split_ifs
    · have h1 := (List.rdropWhile_prefix (fun c => c == '0')
        (text.takeWhile fun c => !isExponentLetter c)).length_le
      have h2 := (List.rdropWhile_prefix (fun c => c == '.')
        ((text.takeWhile fun c => !isExponentLetter c).rdropWhile fun c => c == '0')).length_le
      exact h2.trans h1
    · exact le_refl _
  omega

theorem pythonExponent_length (up : Bool) (text : Text) :
    (pythonExponent up text).length≤text.length+2 := by
  have h : (text.takeWhile fun c => c≠ 'e').length+
      (text.dropWhile fun c => c≠ 'e').length=text.length := by
    rw [← List.length_append,List.takeWhile_append_dropWhile]
  unfold pythonExponent
  cases hd : text.dropWhile fun c => c≠ 'e' with
  | nil => exact Nat.le_add_right _ _
  | cons c exp =>
    rw [hd,List.length_cons] at h
    have hr (r : Char×Text) (hl : r.2.length≤exp.length) :
        (text.takeWhile (fun c => c≠ 'e')++(if up then 'E' else 'e')::r.1::
          (if r.2.length<2 then '0'::r.2 else r.2)).length≤text.length+2 := by
      have hpad : (if r.2.length<2 then '0'::r.2 else r.2).length ≤ r.2.length+1 := by
        split_ifs <;> simp
      simp only [List.length_append,List.length_cons]
      omega
    apply hr
    split <;> simp

theorem minimizeExponentDigits_length (text : Text) :
    (minimizeExponentDigits text).length≤text.length := by
  have h : (text.takeWhile fun c => !isExponentLetter c).length+
      (text.dropWhile fun c => !isExponentLetter c).length=text.length := by
    rw [← List.length_append,List.takeWhile_append_dropWhile]
  unfold minimizeExponentDigits
  split
  · rename_i marker sign digit digits hd
    rw [hd] at h
    have ht : ((digit::digits).dropWhile fun c => c == '0').length≤(digit::digits).length :=
      (List.dropWhile_suffix _).length_le
    have hz : (if ((digit::digits).dropWhile fun c => c == '0')=[] then ['0']
        else (digit::digits).dropWhile fun c => c == '0').length≤(digit::digits).length := by
      split_ifs
      · simp
      · exact ht
    by_cases hs : sign∈['+','-']
    · rw [if_pos hs]
      simp only [List.length_append,List.length_cons] at h hz ⊢
      omega
    · rw [if_neg hs]
  · exact le_refl _

variable (R : Renderer F D O) (hR : Sized R)

include hR

theorem formatFixed_short (f : F) (p : ℕ) (hp : p<2^16) : Short (p+311) (R.formatFixed f p) :=
  ⟨R.fixed f p,if_pos hp,hR.fixed f p⟩

theorem formatScientific_short (f : F) (p : ℕ) (up : Bool) (hp : p<2^16) :
    Short (p+10) (R.formatScientific f p up) := by
  have h : Short (p+8) (checkPrecision p (R.scientific f p)) :=
    ⟨R.scientific f p,if_pos hp,hR.scientific f p⟩
  apply h.map
  intro text ht
  have he := pythonExponent_length up text
  omega

theorem formatGeneral_short (f : F) (p : ℕ) (up alternate : Bool) (hp : p ≤ maxFormatWidth) :
    Short (p+316) (R.formatGeneral f p up alternate) := by
  have hmax : p≤10000 := hp
  have hlow : max p 1-1<2^16 := by omega
  unfold formatGeneral
  by_cases hn : R.isNan f=true
  · rw [if_pos hn]
    refine ⟨_,rfl,?_⟩
    split_ifs <;> exact Nat.le_add_left 3 _
  rw [if_neg hn]
  by_cases hi : R.isInfinite f=true
  · rw [if_pos hi]
    refine ⟨_,rfl,?_⟩
    split_ifs <;> simp only [List.length_map,List.length_cons,List.length_nil] <;> omega
  rw [if_neg hi]
  apply Short.map (n := p+316)
  · by_cases hz : R.isZero f=true
    · rw [if_pos hz]
      exact (formatFixed_short R hR f _ hlow).mono (by omega)
    rw [if_neg hz]
    have hsci : checkPrecision (max p 1-1) (R.scientific f (max p 1-1))=
        .ok (R.scientific f (max p 1-1)) := if_pos hlow
    rw [hsci]
    simp only [Except.bind]
    generalize (parseExponent _).getD 0=exp
    split_ifs with he
    · exact (formatScientific_short R hR f _ up hlow).mono (by omega)
    · have hd : (((max p 1 : ℕ) : ℤ)-1-exp).toNat≤p+4 := by omega
      exact (formatFixed_short R hR f _ (by omega)).mono (by omega)
  · intro text ht
    have hs := stripGeneralZeros_length text
    split_ifs <;> omega

theorem formatFloat_short (f : F) (c : Char) (precision : Option ℕ) (alternate : Bool)
    (hc : isFloatCode c) (hp : precision.getD 6 ≤ maxFormatWidth) :
    Short (precision.getD 6+320) (R.formatFloat f (some c) precision alternate) := by
  have hmax : precision.getD 6≤10000 := hp
  have hlow : precision.getD 6<2^16 := by omega
  by_cases hf : R.isFinite f=true
  · have hcodes : c∈['f','F','e','E','g','G','n','%'] := by
      simpa [isFloatCode] using hc
    have hno : ¬(isFloatCode c∧!R.isFinite f) := by simp [hf]
    simp only [formatFloat,hno,if_false]
    simp only [List.mem_cons,List.not_mem_nil,or_false] at hcodes
    have hfixed := (formatFixed_short R hR f _ hlow).mono (m := precision.getD 6+320) (by omega)
    have hgeneral (up : Bool) := (formatGeneral_short R hR f _ up alternate hp).mono
      (m := precision.getD 6+320) (by omega)
    have hsci (up : Bool) := (formatScientific_short R hR f _ up hlow).mono
      (m := precision.getD 6+320) (by omega)
    have hpercent : Short (precision.getD 6+320)
        ((R.formatFixed (R.timesHundred f) (precision.getD 6)).map fun text => text++['%']) := by
      apply (formatFixed_short R hR _ _ hlow).map
      intro text ht
      rw [List.length_append,List.length_singleton]
      omega
    obtain rfl | rfl | rfl | rfl | rfl | rfl | rfl | rfl := hcodes
    · exact hfixed
    · exact hfixed
    · exact hsci false
    · exact hsci true
    · exact hgeneral false
    · exact hgeneral true
    · exact hgeneral false
    · exact hpercent
  · have hyes : isFloatCode c∧!R.isFinite f := ⟨hc,by simpa using hf⟩
    simp only [formatFloat,hyes]
    refine ⟨_,rfl,?_⟩
    split_ifs <;> simp

end Floats

theorem formatFloat_other (R : Renderer F D O) (f : F) (c : Char) (precision : Option ℕ)
    (alternate : Bool) (hc : isFloatCode c=false) :
    R.formatFloat f (some c) precision alternate=
      .error (unknownFormatCode c (R.typeName (.float f))) := by
  simp only [formatFloat,hc,Bool.false_eq_true,false_and,if_false]
  split
  all_goals first
    | rfl
    | exact absurd hc (by decide)

section Decimals

/-- A sign, a digit run, and what follows it. -/
structure Plain (sign whole tail : Text) : Prop where
  signed : sign=[] ∨ sign=['-']
  nonempty : whole≠[]
  digits : ∀ c∈whole,c.isDigit
  closed : ∀ c,tail.head?=some c → c∈['.','%']

variable {sign whole tail : Text} (h : Plain sign whole tail)

include h

theorem splitSign_plain : splitSign ['-','+'] (sign++(whole++tail))=(sign,whole++tail) := by
  obtain hs | hs := h.signed
  · rw [hs]
    apply splitSign_none
    intro c hc hm
    rw [List.nil_append,List.head?_append_of_ne_nil _ h.nonempty] at hc
    have hd := h.digits c (List.mem_of_head? hc)
    have hn : ∀ c∈['-','+'],c.isDigit=false := List.all_iff_forall_prop.mp (by decide)
    rw [hn c hm] at hd
    cases hd
  · rw [hs]
    exact splitSign_sign _ '-' _ (by decide)

theorem splitRadixPrefix_plain : splitRadixPrefix (whole++tail)=([],whole++tail) := by
  have second (c : Char) (hc : c.isDigit ∨ c∈['.','%']) : c∉['b','B','o','O','x','X'] := by
    intro hm
    have hn : ∀ c∈['b','B','o','O','x','X'],c.isDigit=false ∧ c∉['.','%'] :=
      List.all_iff_forall_prop.mp (by decide)
    obtain hd | hd := hc
    · rw [(hn c hm).1] at hd
      cases hd
    · exact (hn c hm).2 hd
  unfold splitRadixPrefix
  split
  · rename_i c rest heq
    have hc : c.isDigit ∨ c∈['.','%'] := by
      cases hw : whole with
      | nil => exact absurd hw h.nonempty
      | cons d ds =>
        rw [hw,List.cons_append,List.cons.injEq] at heq
        cases ds with
        | nil => exact Or.inr (h.closed c (by rw [← List.nil_append tail,heq.2]; rfl))
        | cons e es =>
          rw [List.cons_append,List.cons.injEq] at heq
          exact Or.inl (heq.2.1 ▸ h.digits e (by simp [hw]))
    rw [if_neg (second c hc),heq]
  · rfl

theorem splitTail_point (ht : tail=[] ∨ tail.head?=some '.') :
    splitTail (whole++tail)=(whole,tail) := by
  have hdigit (c : Char) (hc : c∈whole) : (!isExponentOrPoint c)=true := by
    have hd := h.digits c hc
    have hn : ∀ c∈['.','e','E'],c.isDigit=false := List.all_iff_forall_prop.mp (by decide)
    simp only [isExponentOrPoint,Bool.not_eq_true',decide_eq_false_iff_not]
    intro hm
    rw [hn c hm] at hd
    cases hd
  have htake : tail.takeWhile (fun c => !isExponentOrPoint c)=[] := by
    obtain rfl | ht := ht
    · rfl
    · cases tail with
      | nil => rfl
      | cons c rest =>
        cases ht
        rfl
  have hdrop : tail.dropWhile (fun c => !isExponentOrPoint c)=tail := by
    obtain rfl | ht := ht
    · rfl
    · cases tail with
      | nil => rfl
      | cons c rest =>
        cases ht
        rfl
  simp only [splitTail,Prod.mk.injEq]
  constructor
  · rw [List.takeWhile_append_of_pos hdigit,htake,List.append_nil]
  · rw [List.dropWhile_append_of_pos hdigit,hdrop]

theorem length_grouped_plain (sep : Char) (ht : tail=[] ∨ tail.head?=some '.') :
    (applyThousandsSeparator (sign++(whole++tail)) sep 3).length=
      sign.length+(whole.length+(whole.length-1)/3)+tail.length := by
  have hv : ¬(whole=[] ∨ ¬(whole.all fun c => if 3=4 then isHexDigit c else c.isDigit)) := by
    rw [not_or,not_not]
    exact ⟨h.nonempty,List.all_eq_true.mpr h.digits⟩
  simp only [applyThousandsSeparator,splitSign_plain h,splitRadixPrefix_plain h,
    splitTail_point h ht,if_neg hv,List.append_nil,List.length_append,
    length_separate sep 3 whole (by decide)]

theorem length_grouped_le (sep : Char) (ht : tail=[] ∨ tail.head?=some '.' ∨ tail=['%']) :
    (applyThousandsSeparator (sign++(whole++tail)) sep 3).length≤
      sign.length+(whole.length+(whole.length-1)/3)+tail.length := by
  by_cases hp : tail=[] ∨ tail.head?=some '.'
  · exact (length_grouped_plain h sep hp).le
  have he : tail=['%'] := by
    obtain ht | ht | ht := ht
    · exact absurd (Or.inl ht) hp
    · exact absurd (Or.inr ht) hp
    · exact ht
  have hs := splitTail_plain (whole++tail) fun c hc hm => by
    rw [he,List.mem_append,List.mem_singleton] at hc
    have hn : ∀ c∈['.','e','E'],c.isDigit=false ∧ c≠ '%' :=
      List.all_iff_forall_prop.mp (by decide)
    obtain hc | hc := hc
    · have hd := h.digits c hc
      rw [(hn c hm).1] at hd
      cases hd
    · exact (hn c hm).2 hc
  have hv : whole++tail=[] ∨
      ¬((whole++tail).all fun c => if 3=4 then isHexDigit c else c.isDigit)=true := by
    right
    rw [he]
    simp
  simp only [applyThousandsSeparator,splitSign_plain h,splitRadixPrefix_plain h,hs,if_pos hv,
    List.length_append]
  omega

end Decimals

namespace FormatSpec

variable {R : Renderer F D O} (hR : Sized R) (p : FormatSpec)

include hR

/-- A decimal's body grows with its precision alone, grouped or not. -/
theorem group_decimalFixed (hg : p.groupSize=3) (d : D) (n : ℕ) (suffix : Text)
    (hs : suffix=[] ∨ suffix=['%']) :
    (p.group (R.decimalFixed d n++suffix)).length≤
      (p.group (R.decimalFixed d 6++suffix)).length+n+4 := by
  obtain ⟨sign,whole,fraction,hd⟩ := hR.decimalFixed d
  have shape (m : ℕ) : Plain (sign m) (whole m) ((if m=0 then [] else '.'::fraction m)++suffix) ∧
      R.decimalFixed d m++suffix=
        sign m++(whole m++((if m=0 then [] else '.'::fraction m)++suffix)) := by
    obtain ⟨he,hsign,hwhole,hdigits,-,-⟩ := hd m
    refine ⟨⟨hsign,hwhole,hdigits,?_⟩,by rw [he,List.append_assoc,List.append_assoc]⟩
    intro c hc
    split_ifs at hc
    · obtain rfl | rfl := hs
      · cases hc
      · cases hc
        decide
    · cases hc
      decide
  have hone : suffix.length≤1 := by
    obtain rfl | rfl := hs <;> simp
  have hsign (m : ℕ) : (sign m).length≤1 := by
    obtain h | h := (hd m).2.1 <;> simp [h]
  have hlen : (if n=0 then [] else '.'::fraction n).length≤n+1 := by
    split_ifs
    · exact Nat.zero_le _
    · rw [List.length_cons,(hd n).2.2.2.2.1]
  have hfraction : (if (6 : ℕ)=0 then [] else '.'::fraction 6).length=7 := by
    rw [if_neg (by decide),List.length_cons,(hd 6).2.2.2.2.1]
  have hwhole := (hd n).2.2.2.2.2
  have hpos : 0<(whole 6).length := List.length_pos_of_ne_nil (hd 6).2.2.1
  rw [(shape n).2,(shape 6).2]
  unfold group
  cases p.grouping with
  | none =>
    simp only [List.length_append,hfraction]
    have := hsign n
    omega
  | some sep =>
    dsimp only
    rw [hg]
    have htail : (if n=0 then [] else '.'::fraction n)++suffix=[] ∨
        ((if n=0 then [] else '.'::fraction n)++suffix).head?=some '.' ∨
        (if n=0 then [] else '.'::fraction n)++suffix=['%'] := by
      split_ifs
      · exact hs.elim Or.inl fun h => Or.inr (Or.inr h)
      · exact Or.inr (Or.inl rfl)
    have h1 := length_grouped_le (shape n).1 sep htail
    have h2 := length_grouped_plain (shape 6).1 sep (Or.inr rfl)
    rw [h2]
    simp only [List.length_append,hfraction] at h1 ⊢
    have := hsign n
    omega

end FormatSpec

end Format
end InterpretThis
