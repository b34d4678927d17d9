import InterpretThis.Format.Bodies

namespace InterpretThis
namespace Format

open Renderer

variable {F D O : Type}

/-- Whether the precision goes into the length of the value's body. A string is only cut by it, but what is left may be grouped. -/
def Value.multiplies (p : FormatSpec) : Value F D O → Bool
  | .int _ | .bool _ | .complex _ _ | .decimal _ => p.typeChar.any isFloatCode
  | .float _ => p.typeChar.all isFloatCode
  | .str _ => p.grouping.isSome
  | .member kind inner => decide (kind∈[EnumKind.int,.str,.intFlag])&&inner.multiplies p
  | _ => false

/-- The precision is within the cap wherever it counts. -/
def Value.Modest (p : FormatSpec) (v : Value F D O) : Prop :=
  v.multiplies p=true → p.precision.getD 0 ≤ maxFormatWidth

def bodyCap : ℕ := 4*maxFormatWidth+1400

section Bodies

variable {R : Renderer F D O} (hR : Sized R) (p : FormatSpec)

theorem getD_six {precision : Option ℕ} (h : precision.getD 0 ≤ maxFormatWidth) :
    precision.getD 6 ≤ maxFormatWidth := by
  cases precision with
  | none => decide
  | some n => exact h

theorem group_short {n : ℕ} (hn : n≤2*maxFormatWidth+700) (text : Text) (ht : text.length≤n) :
    (p.group text).length≤bodyCap := by
  have h := p.length_group text
  unfold bodyCap
  omega

theorem capped_of_short {n m : ℕ} {natural actual : Except Failure Text} (ha : Short n actual)
    (hn : Short m natural) (hle : n≤2*maxFormatWidth+700) :
    Capped bodyCap (fun text => (p.group text).length) natural actual :=
  Capped.of_short ha hn (group_short p hle)

theorem unknownFormatCode_kind (c : Char) (typeName : String) :
    (unknownFormatCode c typeName).kind≠.panic := by
  intro h
  cases h

include hR

theorem formatFloat_capped (f : F) (c : Char) (precision : Option ℕ) (alternate : Bool)
    (hm : isFloatCode c=true → precision.getD 0 ≤ maxFormatWidth) :
    Capped bodyCap (fun text => (p.group text).length) (R.formatFloat f (some c) none alternate)
      (R.formatFloat f (some c) precision alternate) := by
  by_cases hc : isFloatCode c=true
  · have hp := getD_six (hm hc)
    have ha := formatFloat_short R hR f c precision alternate hc hp
    have hn := formatFloat_short R hR f c none alternate hc (by decide)
    exact capped_of_short p ha hn (by omega)
  · rw [Bool.not_eq_true] at hc
    exact Capped.of_error (formatFloat_other R f c precision alternate hc)
      (unknownFormatCode_kind _ _)

theorem formatInteger_capped (n : ℤ) (typeName : String) (typeChar : Option Char)
    (precision : Option ℕ) (alternate : Bool)
    (hm : typeChar.any isFloatCode=true → precision.getD 0 ≤ maxFormatWidth) :
    Capped bodyCap (fun text => (p.group text).length)
      (R.formatInteger n typeName typeChar none alternate)
      (R.formatInteger n typeName typeChar precision alternate) := by
  have hnone : ¬((none : Option ℕ).isSome=true ∧ typeChar∈integerCodes) := fun h => nomatch h.1
  by_cases hi : precision.isSome ∧ typeChar∈integerCodes
  · have herr : R.formatInteger n typeName typeChar precision alternate=
        .error ⟨.valueError,"Precision not allowed in integer format specifier"⟩ := if_pos hi
    exact Capped.of_error herr fun h => nomatch h
  have hlow (q : Option ℕ) (hq : q.getD 6 ≤ maxFormatWidth) : q.getD 6<2^16 :=
    lt_of_le_of_lt hq (by decide)
  have hsix : (none : Option ℕ).getD 6 ≤ maxFormatWidth := by decide
  have fixed (f : F) (hq : precision.getD 6 ≤ maxFormatWidth) :
      Capped bodyCap (fun text => (p.group text).length)
        (R.formatFixed f ((none : Option ℕ).getD 6)) (R.formatFixed f (precision.getD 6)) :=
    capped_of_short p (formatFixed_short R hR f _ (hlow _ hq))
      (formatFixed_short R hR f _ (hlow _ hsix)) (by omega)
  have scientific (up : Bool) (hq : precision.getD 6 ≤ maxFormatWidth) :
      Capped bodyCap (fun text => (p.group text).length)
        (R.formatScientific (R.ofInt n) ((none : Option ℕ).getD 6) up)
        (R.formatScientific (R.ofInt n) (precision.getD 6) up) :=
    capped_of_short p (formatScientific_short R hR _ _ up (hlow _ hq))
      (formatScientific_short R hR _ _ up (hlow _ hsix)) (by omega)
  have general (up : Bool) (hq : precision.getD 6 ≤ maxFormatWidth) :
      Capped bodyCap (fun text => (p.group text).length)
        (R.formatGeneral (R.ofInt n) ((none : Option ℕ).getD 6) up alternate)
        (R.formatGeneral (R.ofInt n) (precision.getD 6) up alternate) :=
    capped_of_short p (formatGeneral_short R hR _ _ up alternate hq)
      (formatGeneral_short R hR _ _ up alternate hsix) (by omega)
  have percent (q : Option ℕ) (hq : q.getD 6 ≤ maxFormatWidth) :
      Short (q.getD 6+312)
        ((R.formatFixed (R.timesHundred (R.ofInt n)) (q.getD 6)).map fun text => text++['%']) := by
    apply (formatFixed_short R hR _ _ (hlow _ hq)).map
    intro text ht
    rw [List.length_append,List.length_singleton]
    omega
  unfold formatInteger
  rw [if_neg hnone,if_neg hi]
  split
  case h_9 | h_10 => exact fixed _ (getD_six (hm rfl))
  case h_11 => exact scientific false (getD_six (hm rfl))
  case h_12 => exact scientific true (getD_six (hm rfl))
  case h_13 => exact general false (getD_six (hm rfl))
  case h_14 => exact general true (getD_six (hm rfl))
  case h_15 =>
    have hq := getD_six (hm rfl)
    have ha := percent precision hq
    have hn := percent none hsix
    exact capped_of_short p ha hn (by omega)
  case h_8 =>
    cases hc : codePoint n with
    | none => exact Capped.of_error rfl fun h => nomatch h
    | some c => exact Capped.refl fun e he => nomatch he
  case h_16 => exact Capped.of_error rfl (unknownFormatCode_kind _ _)
  all_goals exact Capped.refl fun e he => nomatch he

/-- What the precision of the spec adds to the value's body is within the cap. -/
def Value.CappedBody (R : Renderer F D O) (p : FormatSpec) (v : Value F D O) : Prop :=
  Capped bodyCap (fun text => (p.group text).length)
    (R.formatValueBody v p.typeChar none p.alternate)
    (R.formatValueBody v p.typeChar p.precision p.alternate)

omit hR in
theorem capped_unknown {natural : Except Failure Text} (c : Char) (typeName : String) :
    Capped bodyCap (fun text => (p.group text).length) natural
      (.error (unknownFormatCode c typeName)) := unknownFormatCode_kind c typeName

omit hR in
theorem capped_same (text : Text) :
    Capped bodyCap (fun text => (p.group text).length) (.ok text) (.ok text) :=
  Capped.refl fun e he => nomatch he

theorem boolBody_capped (b : Bool) (hm : (Value.bool b : Value F D O).Modest p) :
    (Value.bool b : Value F D O).CappedBody R p := by
  have h := formatInteger_capped hR p b.toInt (R.typeName (.int b.toInt)) _ p.precision
    p.alternate hm
  simp only [Value.CappedBody,formatValueBody]
  cases ht : p.typeChar with
  | none => exact capped_same p _
  | some c =>
    rw [ht] at h
    exact h

theorem floatBody_capped (f : F) (hm : (Value.float f : Value F D O).Modest p) :
    (Value.float f : Value F D O).CappedBody R p := by
  simp only [Value.Modest,Value.multiplies] at hm
  simp only [Value.CappedBody,formatValueBody]
  cases ht : p.typeChar with
  | none =>
    rw [ht] at hm
    simp only [formatFloat]
    cases hp : p.precision with
    | none => exact capped_same p _
    | some q =>
      rw [hp] at hm
      have hq : q ≤ maxFormatWidth := hm rfl
      obtain ⟨text,he,hl⟩ := formatGeneral_short R hR f q false p.alternate hq
      refine Capped.of_ok (congrArg (Except.map _) he) rfl ?_
      apply (group_short p (le_refl _) _ _).trans (Nat.le_add_left _ _)
      dsimp only
      split_ifs
      · omega
      · simp only [List.length_append,List.length_cons,List.length_nil]
        omega
  | some c =>
    rw [ht] at hm
    exact formatFloat_capped hR p f c _ _ hm

/-- Both parts of a complex number are written by the same code. -/
theorem complexBody_capped (re im : F) (hm : (Value.complex re im : Value F D O).Modest p) :
    (Value.complex re im : Value F D O).CappedBody R p := by
  simp only [Value.Modest,Value.multiplies] at hm
  simp only [Value.CappedBody,formatValueBody]
  cases ht : p.typeChar with
  | none => exact capped_same p _
  | some c =>
    rw [ht] at hm
    by_cases hc : isFloatCode c=true
    · have parts (q : Option ℕ) (hq : q.getD 6 ≤ maxFormatWidth) : Short (2*q.getD 6+642) (do
          let reText ← R.formatFloat re (some c) q p.alternate
          let imText ← R.formatFloat (R.abs im) (some c) q p.alternate
          return reText++(if R.isSignNegative im then '-' else '+')::imText++['j']) := by
        obtain ⟨reText,hre,hrl⟩ := formatFloat_short R hR re c q p.alternate hc hq
        obtain ⟨imText,him,hil⟩ := formatFloat_short R hR (R.abs im) c q p.alternate hc hq
        rw [hre,him]
        refine ⟨_,rfl,?_⟩
        simp only [List.length_append,List.length_cons,List.length_nil]
        omega
      have hq := getD_six (hm hc)
      have ha := parts p.precision hq
      have hn := parts none (by decide)
      dsimp only
      rw [if_pos hc,if_pos hc]
      exact capped_of_short p ha hn (by omega)
    · dsimp only
      rw [if_neg hc,if_neg hc]
      exact capped_unknown p _ _

/-- A decimal in fixed notation, which is grouped by threes. -/
theorem decimalFixed_capped {c : Char} (ht : p.typeChar=some c) (hc : c∈['f','F','%'])
    (hm : isFloatCode c=true → p.precision.getD 0 ≤ maxFormatWidth) (e : D) (suffix : Text)
    (hs : suffix=[] ∨ suffix=['%']) :
    Capped bodyCap (fun text => (p.group text).length)
      (.ok (R.decimalFixed e ((none : Option ℕ).getD 6)++suffix))
      (.ok (R.decimalFixed e (p.precision.getD 6)++suffix)) := by
  have hcodes : ∀ c∈['f','F','%'],isFloatCode c=true ∧ c∉['b','o','x','X'] :=
    List.all_iff_forall_prop.mp (by decide)
  have hq := getD_six (hm (hcodes c hc).1)
  have hg : p.groupSize=3 := by
    unfold FormatSpec.groupSize
    rw [ht]
    exact if_neg (hcodes c hc).2
  have h := p.group_decimalFixed hR hg e (p.precision.getD 6) suffix hs
  refine Capped.of_ok rfl rfl (h.trans ?_)
  have hcap : maxFormatWidth+4≤bodyCap := by decide
  have hnone : (none : Option ℕ).getD 6=6 := rfl
  rw [hnone]
  omega

/-- A decimal that is written as a float, with the exponent of a decimal. -/
theorem decimalFloat_capped {c : Char} (hc : c∈['e','E','g','G','n'])
    (hm : isFloatCode c=true → p.precision.getD 0 ≤ maxFormatWidth) (d : D) :
    Capped bodyCap (fun text => (p.group text).length)
      ((R.formatFloat (R.ofDecimal d) (some c) none p.alternate).map minimizeExponentDigits)
      ((R.formatFloat (R.ofDecimal d) (some c) p.precision p.alternate).map
        minimizeExponentDigits) := by
  have hcodes : ∀ c∈['e','E','g','G','n'],isFloatCode c=true :=
    List.all_iff_forall_prop.mp (by decide)
  have trimmed (q : Option ℕ) (hq : q.getD 6 ≤ maxFormatWidth) : Short (q.getD 6+320)
      ((R.formatFloat (R.ofDecimal d) (some c) q p.alternate).map minimizeExponentDigits) :=
    (formatFloat_short R hR _ c q p.alternate (hcodes c hc) hq).map fun text hl =>
      (minimizeExponentDigits_length text).trans hl
  have hq := getD_six (hm (hcodes c hc))
  have ha := trimmed p.precision hq
  have hn := trimmed none (by decide)
  exact capped_of_short p ha hn (by omega)

theorem decimalBody_capped (d : D) (hm : (Value.decimal d : Value F D O).Modest p) :
    (Value.decimal d : Value F D O).CappedBody R p := by
  simp only [Value.Modest,Value.multiplies] at hm
  simp only [Value.CappedBody,formatValueBody]
  cases ht : p.typeChar with
  | none => exact capped_same p _
  | some c =>
    rw [ht] at hm
    dsimp only
    by_cases hf : c∈['f','F']
    · have h := decimalFixed_capped hR p ht (List.mem_append_left ['%'] hf) hm d [] (Or.inl rfl)
      rw [List.append_nil,List.append_nil] at h
      rw [if_pos hf,if_pos hf]
      exact h
    rw [if_neg hf,if_neg hf]
    by_cases hpct : c= '%'
    · rw [if_pos hpct,if_pos hpct]
      exact decimalFixed_capped hR p ht (by simp [hpct]) hm _ ['%'] (Or.inr rfl)
    rw [if_neg hpct,if_neg hpct]
    by_cases he : c∈['e','E','g','G','n']
    · rw [if_pos he,if_pos he]
      exact decimalFloat_capped hR p he hm d
    · rw [if_neg he,if_neg he]
      exact capped_unknown p _ _

omit hR in
/-- A string is cut by the precision: only its grouping can make it longer. -/
theorem strBody_capped (s : Text) (hm : (Value.str s : Value F D O).Modest p) :
    (Value.str s : Value F D O).CappedBody R p := by
  simp only [Value.Modest,Value.multiplies] at hm
  simp only [Value.CappedBody,formatValueBody]
  cases hp : p.precision with
  | none => exact capped_same p _
  | some q =>
    rw [hp] at hm
    have ht : (s.take q).length≤q := List.length_take_le q s
    refine Capped.of_ok rfl rfl ?_
    cases hg : p.grouping with
    | none =>
      have hgroup (text : Text) : p.group text=text := by
        unfold FormatSpec.group
        rw [hg]
      rw [hgroup,hgroup]
      exact (List.length_take_le' q s).trans (Nat.le_add_right _ _)
    | some sep =>
      rw [hg] at hm
      have hq : q ≤ maxFormatWidth := hm rfl
      have hle : q≤2*maxFormatWidth+700 := hq.trans (by decide)
      have hgroup := group_short p hle _ ht
      exact hgroup.trans (Nat.le_add_left _ _)

theorem formatValueBody_capped (v : Value F D O) (hm : v.Modest p) : v.CappedBody R p := by
  cases v with
  | int n => exact formatInteger_capped hR p n _ _ _ _ hm
  | bool b => exact boolBody_capped hR p b hm
  | float f => exact floatBody_capped hR p f hm
  | complex re im => exact complexBody_capped hR p re im hm
  | decimal d => exact decimalBody_capped hR p d hm
  | str s => exact strBody_capped p s hm
  | fraction o | member kind value | temporal o | object className | other o =>
    simp only [Value.CappedBody,formatValueBody]
    cases p.typeChar with
    | none => exact capped_same p _
    | some c => exact capped_unknown p _ _

end Bodies

def formatCap : ℕ := 16*maxFormatWidth

namespace Renderer

/-- The text that a spec gives once its width and its precision are taken out. -/
def naturalText (R : Renderer F D O) (v : Value F D O) (spec : Text) : Except Failure Text :=
  if spec=[] then .ok (R.display v)
  else match v with
    | .member kind inner =>
      if kind∈[EnumKind.int,.str,.intFlag] then naturalText R inner spec
      else applyParsed.format R v spec (parseSpec spec).uncounted
    | .temporal o => R.formatTemporal o spec
    | .object className =>
      .error ⟨.typeError,"unsupported format string passed to "++className++".__format__"⟩
    | v => applyParsed.format R v spec (parseSpec spec).uncounted

/-- The host can write the value in the pattern. -/
def Writes (R : Renderer F D O) (spec : Text) : Value F D O → Prop
  | .temporal o => (R.strftime o spec).isSome=true
  | .member kind inner => kind∈[EnumKind.int,.str,.intFlag] → Writes R spec inner
  | _ => True

/-- What the guard of the width leaves to the spec. -/
def Guarded (R : Renderer F D O) (v : Value F D O) (spec : Text) : Prop :=
  v.Modest (parseSpec spec) ∧ (spec≠[] → R.Writes spec v)

variable {R : Renderer F D O} (hR : Sized R)

include hR

theorem applyParsed_capped (v : Value F D O) (spec : Text) (hm : v.Modest (parseSpec spec)) :
    Capped formatCap List.length (applyParsed.format R v spec (parseSpec spec).uncounted)
      (R.applyParsed v spec) := by
  generalize hp : parseSpec spec=p at hm
  have hformat (hw : p.width.getD 0 ≤ maxFormatWidth) :
      Capped formatCap List.length (applyParsed.format R v spec p.uncounted)
        (applyParsed.format R v spec p) := by
    have hu : p.uncounted.rest=p.rest := rfl
    unfold applyParsed.format
    rw [hu]
    by_cases hr : 1<p.rest.length
    · rw [if_pos hr,if_pos hr]
      exact Capped.refl fun e he => by
        cases he
        exact fun h => nomatch h
    rw [if_neg hr,if_neg hr]
    have hb := formatValueBody_capped hR p v hm
    unfold Value.CappedBody at hb
    have ht : p.uncounted.typeChar=p.typeChar := rfl
    have hq : p.uncounted.precision=none := rfl
    have ha : p.uncounted.alternate=p.alternate := rfl
    rw [ht,hq,ha]
    cases hv : R.formatValueBody v p.typeChar p.precision p.alternate with
    | error e =>
      rw [hv] at hb
      exact hb
    | ok raw =>
      rw [hv] at hb
      obtain ⟨base,hn,hl⟩ := hb
      rw [hn]
      refine Capped.of_ok rfl rfl ?_
      have hd := p.length_dress v.isNumber raw base
      dsimp only at hl ⊢
      have hcap : formatCap=160000 := rfl
      have hbody : bodyCap=41400 := rfl
      have hmax : maxFormatWidth=10000 := rfl
      omega
  unfold applyParsed
  rw [hp]
  dsimp only
  cases hw : p.width with
  | none => exact hformat (by rw [hw]; exact Nat.zero_le _)
  | some w =>
    dsimp only
    by_cases hl : maxFormatWidth<w
    · rw [if_pos hl]
      exact fun h => nomatch h
    · rw [if_neg hl]
      exact hformat (by rw [hw]; exact Nat.le_of_not_lt hl)

/-- A format spec whose precision is within the cap wherever it counts, or whose pattern the host can
write, is capped. -/
theorem applyFormatSpec_capped (v : Value F D O) (spec : Text) (hg : R.Guarded v spec) :
    Capped formatCap List.length (R.naturalText v spec) (R.applyFormatSpec v spec) := by
  have same {text : Text} : Capped formatCap List.length (.ok text) (.ok text) :=
    Capped.refl (by intro e he; cases he)
  unfold naturalText applyFormatSpec
  by_cases hs : spec=[]
  · rw [if_pos hs,if_pos hs]
    exact same
  rw [if_neg hs,if_neg hs]
  obtain ⟨hm,hw⟩ := hg
  cases v with
  | member kind inner =>
    dsimp only
    by_cases hk : kind∈[EnumKind.int,.str,.intFlag]
    · rw [if_pos hk,if_pos hk]
      refine applyFormatSpec_capped inner spec ⟨fun hc => ?_,fun hs => hw hs hk⟩
      exact hm (by simp only [Value.multiplies,hk,decide_true,Bool.true_and,hc])
    · rw [if_neg hk,if_neg hk]
      exact applyParsed_capped hR _ spec hm
  | temporal o =>
    obtain ⟨text,ht⟩ := Option.isSome_iff_exists.mp (hw hs)
    dsimp only
    rw [formatTemporal,ht]
    exact same
  | object className => intro h; cases h
  | int | bool | float | complex | decimal | fraction | str | other =>
    exact applyParsed_capped hR _ spec hm

end Renderer

end Format
end InterpretThis
