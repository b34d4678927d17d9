import InterpretThis.Format.Bounded
import InterpretThis.Format.Fields
import InterpretThis.Format.PrintfConvert

namespace InterpretThis
namespace Format

open Renderer

section Counts

/-- The digit run after the point. -/
def precisionRun : Text → Text
  | '.'::rest => rest.takeWhile Char.isDigit
  | _ => []

/-- The digit runs that a spec writes for its width and its precision. -/
def countRuns (chars : Text) : Text×Text :=
  let (_,_,rest) := parseFillAlign chars
  let (_,rest) := parseSign rest
  let (_,rest) := parseFlag '#' rest
  let (_,rest) := parseFlag '0' rest
  (rest.takeWhile Char.isDigit,precisionRun (parseGrouping (rest.dropWhile Char.isDigit)).2)

def writtenCount (run : Text) : Option ℕ :=
  if run=[] then none else some (Nat.ofDigitChars 10 run 0)

def FitsI64 (run : Text) : Prop := Nat.ofDigitChars 10 run 0<2^63

/-- The spec is read with the width and the precision that are written in it. -/
def Heeds (spec : Text) : Prop :=
  (parseSpec spec).width=writtenCount (countRuns spec).1 ∧
    (parseSpec spec).precision=writtenCount (countRuns spec).2

theorem fits_nil : FitsI64 [] := by
  unfold FitsI64
  decide

theorem parseOptI64_written (run : Text) : parseOptI64 run=writtenCount run ↔ FitsI64 run := by
  unfold parseOptI64 writtenCount parseI64
  by_cases hr : run=[]
  · rw [if_pos hr,if_pos hr,hr]
    exact ⟨fun _ => fits_nil,fun _ => rfl⟩
  rw [if_neg hr,if_neg hr]
  by_cases hf : Nat.ofDigitChars 10 run 0<2^63
  · rw [if_pos hf]
    exact ⟨fun _ => hf,fun _ => rfl⟩
  · rw [if_neg hf]
    exact ⟨fun h => (nomatch h),fun h => absurd h hf⟩

theorem parseNumber_opt (chars : Text) :
    parseNumber chars=(parseOptI64 (chars.takeWhile Char.isDigit),chars.dropWhile Char.isDigit) := by
  unfold parseNumber parseOptI64
  split_ifs with h
  · have hd := List.takeWhile_append_dropWhile (p := Char.isDigit) (l := chars)
    rw [h,List.nil_append] at hd
    rw [hd]
  · rfl

theorem parsePrecision_run (rest : Text) :
    (parsePrecision rest).1=parseOptI64 (precisionRun rest) := by
  cases rest with
  | nil => rfl
  | cons c cs =>
    by_cases hc : c= '.'
    · rw [hc]
      simp only [parsePrecision,parseNumber_opt,precisionRun]
    · simp [parsePrecision,precisionRun,hc,parseOptI64]

theorem parseSpec_counts (spec : Text) :
    (parseSpec spec).width=parseOptI64 (countRuns spec).1 ∧
      (parseSpec spec).precision=parseOptI64 (countRuns spec).2 := by
  unfold parseSpec countRuns
  simp only [parseNumber_opt,parsePrecision_run]
  exact ⟨trivial,trivial⟩

theorem heeds_iff (spec : Text) :
    Heeds spec ↔ FitsI64 (countRuns spec).1 ∧ FitsI64 (countRuns spec).2 := by
  obtain ⟨hw,hp⟩ := parseSpec_counts spec
  unfold Heeds
  rw [hw,hp,parseOptI64_written,parseOptI64_written]

end Counts

namespace FormatSpec

theorem dress_unpadded (p : FormatSpec) (hw : p.width=none) (number : Bool) (raw : Text) :
    p.dress number raw=applySign p.sign number (p.group raw) := by
  rw [dress_group]
  unfold pad
  rw [hw]
  exact if_pos (Nat.zero_le _)

end FormatSpec

section Percent

variable {D O : Type} (R : Renderer F64 D O)

/-- The value that a conversion hands to the brace formatter, and the type character. -/
def percentOperand (v : Value F64 D O) (conv : Char) : Except Failure (Value F64 D O×Char) :=
  if conv= 'c' then (percentChar v).map fun ch => (.str ch,'s')
  else if conv∈['d','i','u'] then (R.percentInteger v conv).map fun n => (n,'d')
  else if conv∈['o','x','X'] then (R.percentInteger v conv).map fun n => (n,conv)
  else if conv∈['e','E','f','F','g','G'] then
    match R.asFloat v with
    | some f => .ok (.float f,conv)
    | none => .error ⟨.typeError,"must be real number, not "++R.typeName v⟩
  else if conv= 's' then .ok (.str (R.display v),'s')
  else if conv= 'r' then .ok (.str (R.repr v),'r')
  else if conv= 'a' then .ok (.str (asciiEscape (R.repr v)),'s')
  else .error ⟨.valueError,"unsupported format character '"++conv.toString++"'"⟩

theorem formatPercentConversion_operand (v : Value F64 D O) (spec : PercentSpec) :
    R.formatPercentConversion v spec=(percentOperand R v spec.conv).bind fun xt =>
      R.applyFormatSpec xt.1 (buildBraceSpec spec xt.2) := by
  unfold formatPercentConversion percentOperand
  split_ifs
  · cases percentChar v <;> rfl
  · cases R.percentInteger v spec.conv <;> rfl
  · cases R.percentInteger v spec.conv <;> rfl
  · cases R.asFloat v <;> rfl
  all_goals rfl

/-- A conversion formats a string, an integer under an integer code, or a float. -/
inductive Operand (conv : Char) : Value F64 D O×Char → Prop where
  | str (s : Text) {t : Char} (ht : t∈['s','r']) : Operand conv (.str s,t)
  | int (n : ℤ) {t : Char} (ht : t∈['d','o','x','X']) : Operand conv (.int n,t)
  | float (f : F64) (ht : conv∈['e','E','f','F','g','G']) : Operand conv (.float f,conv)

theorem percentInteger_outcome (v : Value F64 D O) (conv : Char) :
    (∃ n,R.percentInteger v conv=.ok (.int n)) ∨
      ∃ message,R.percentInteger v conv=.error ⟨.typeError,message⟩ := by
  cases v <;> first
    | exact Or.inl ⟨_,rfl⟩
    | exact Or.inr ⟨_,rfl⟩

theorem percentChar_outcome (v : Value F64 D O) :
    (∃ s,percentChar v=.ok s) ∨ ∃ e,percentChar v=.error e ∧ e.kind≠.panic := by
  have ofInt (n : ℤ) : (∃ s,(codePoint n).elim (.error charRange) (fun c => .ok [c])=
      (.ok s : Except Failure Text)) ∨ ∃ e,(codePoint n).elim (.error charRange) (fun c => .ok [c])=
      (.error e : Except Failure Text) ∧ e.kind≠.panic := by
    cases codePoint n with
    | none => exact Or.inr ⟨_,rfl,fun h => nomatch h⟩
    | some c => exact Or.inl ⟨_,rfl⟩
  unfold percentChar
  split
  · exact Or.inl ⟨_,rfl⟩
  · exact ofInt _
  · exact ofInt _
  · exact Or.inr ⟨_,rfl,fun h => nomatch h⟩

theorem percentOperand_outcome (v : Value F64 D O) (conv : Char) :
    (∃ xt,percentOperand R v conv=.ok xt ∧ Operand conv xt) ∨
      ∃ e,percentOperand R v conv=.error e ∧ e.kind≠.panic := by
  unfold percentOperand
  split_ifs with hc hd ho hf
  · obtain ⟨s,hs⟩ | ⟨e,he,hk⟩ := percentChar_outcome v
    · exact Or.inl ⟨_,congrArg (Except.map _) hs,.str s (by decide)⟩
    · exact Or.inr ⟨e,congrArg (Except.map _) he,hk⟩
  · obtain ⟨n,hn⟩ | ⟨message,he⟩ := percentInteger_outcome R v conv
    · exact Or.inl ⟨_,congrArg (Except.map _) hn,.int n (by decide)⟩
    · exact Or.inr ⟨_,congrArg (Except.map _) he,fun h => nomatch h⟩
  · obtain ⟨n,hn⟩ | ⟨message,he⟩ := percentInteger_outcome R v conv
    · exact Or.inl ⟨_,congrArg (Except.map _) hn,.int n (List.mem_cons_of_mem _ ho)⟩
    · exact Or.inr ⟨_,congrArg (Except.map _) he,fun h => nomatch h⟩
  · cases R.asFloat v with
    | none => exact Or.inr ⟨_,rfl,fun h => nomatch h⟩
    | some f => exact Or.inl ⟨_,rfl,.float f hf⟩
  · exact Or.inl ⟨_,rfl,.str _ (by decide)⟩
  · exact Or.inl ⟨_,rfl,.str _ (by decide)⟩
  · exact Or.inl ⟨_,rfl,.str _ (by decide)⟩
  · exact Or.inr ⟨_,rfl,fun h => nomatch h⟩

/-- The precision is within the cap wherever it counts. -/
def PercentSpec.Modest (spec : PercentSpec) : Prop :=
  spec.conv∈['e','E','f','F','g','G'] → spec.precision.getD 0 ≤ maxFormatWidth

def PercentSpec.uncounted (spec : PercentSpec) : PercentSpec :=
  {spec with width := none, precision := none}

/-- What the parser gives: an ordinary sign, and counts that fit. -/
structure PercentSpec.Read (spec : PercentSpec) : Prop where
  sign : ∀ c,spec.sign=some c → c∈['+',' ']
  width : ∀ w,spec.width=some w → w<2^63
  precision : ∀ p,spec.precision=some p → p<2^63

variable {R} (hR : Sized R)

include hR

theorem applyFormatSpec_brace_capped (spec : PercentSpec) (hs : spec.Read) (hm : spec.Modest)
    (x : Value F64 D O) (t : Char) (hx : Operand spec.conv (x,t)) :
    Capped formatCap List.length (R.applyFormatSpec x (buildBraceSpec spec.uncounted t))
      (R.applyFormatSpec x (buildBraceSpec spec t)) := by
  have ht : t∈Printf.braceTypes := by
    cases hx with
    | str s ht =>
      have h : ∀ t∈['s','r'],t∈Printf.braceTypes := List.all_iff_forall_prop.mp (by decide)
      exact h t ht
    | int n ht =>
      have h : ∀ t∈['d','o','x','X'],t∈Printf.braceTypes := List.all_iff_forall_prop.mp (by decide)
      exact h t ht
    | float f ht =>
      have h : ∀ t∈['e','E','f','F','g','G'],t∈Printf.braceTypes :=
        List.all_iff_forall_prop.mp (by decide)
      exact h _ ht
  have hread : Printf.Readable spec t := ⟨hs.sign,hs.width,hs.precision,ht⟩
  have hbare : Printf.Readable spec.uncounted t :=
    ⟨hs.sign,(fun _ h => nomatch h),(fun _ h => nomatch h),ht⟩
  have hp := Printf.parseSpec_brace spec t hread
  have hp0 := Printf.parseSpec_brace spec.uncounted t hbare
  have hmodest : x.Modest (parseSpec (buildBraceSpec spec t)) := by
    rw [hp]
    intro hmul
    cases hx with
    | str s hcode => cases hmul
    | int n hcode =>
      have h : ∀ t∈['d','o','x','X'],isFloatCode t=false := List.all_iff_forall_prop.mp (by decide)
      have hf : isFloatCode t=true := hmul
      rw [h t hcode] at hf
      cases hf
    | float f hcode => exact hm hcode
  have hwrites : R.Writes (buildBraceSpec spec t) x := by
    cases hx <;> exact trivial
  have hcap := applyFormatSpec_capped hR x _ ⟨hmodest,fun _ => hwrites⟩
  have hne (s : PercentSpec) : buildBraceSpec s t≠[] := by
    intro h
    have hl : t∈buildBraceSpec s t := by simp [buildBraceSpec]
    rw [h] at hl
    cases hl
  have hparsed (s : PercentSpec) : R.applyFormatSpec x (buildBraceSpec s t)=
      R.applyParsed x (buildBraceSpec s t) := by
    unfold applyFormatSpec
    rw [if_neg (hne s)]
    cases hx <;> rfl
  have hnatural : R.naturalText x (buildBraceSpec spec t)=
      applyParsed.format R x (buildBraceSpec spec t)
        (parseSpec (buildBraceSpec spec t)).uncounted := by
    unfold naturalText
    rw [if_neg (hne spec)]
    cases hx <;> rfl
  have hsame : R.applyFormatSpec x (buildBraceSpec spec.uncounted t)=
      R.naturalText x (buildBraceSpec spec t) := by
    rw [hparsed,hnatural,hp]
    unfold applyParsed
    rw [hp0]
    have hw : Printf.readWidth spec.uncounted=none := by
      unfold Printf.readWidth
      split_ifs <;> rfl
    rw [hw]
    dsimp only
    unfold applyParsed.format
    rw [if_neg (by simp),if_neg (by simp [FormatSpec.uncounted])]
    refine congrArg (fun f => Except.map f _) (funext fun raw => ?_)
    rw [FormatSpec.dress_unpadded _ rfl,FormatSpec.dress_unpadded _ rfl]
    rfl
  rw [hsame]
  exact hcap

theorem formatPercentConversion_capped (v : Value F64 D O) (spec : PercentSpec) (hs : spec.Read)
    (hm : spec.Modest) :
    Capped formatCap List.length (R.formatPercentConversion v spec.uncounted)
      (R.formatPercentConversion v spec) := by
  have hconv : spec.uncounted.conv=spec.conv := rfl
  rw [formatPercentConversion_operand,formatPercentConversion_operand,hconv]
  obtain ⟨⟨x,t⟩,hx,hop⟩ | ⟨e,he,hk⟩ := percentOperand_outcome R v spec.conv
  · rw [hx]
    exact applyFormatSpec_brace_capped hR spec hs hm x t hop
  · rw [he]
    exact hk

omit hR in
theorem parseOptI64_fits (run : Text) (n : ℕ) (h : parseOptI64 run=some n) : n<2^63 := by
  unfold parseOptI64 parseI64 at h
  split_ifs at h with hr hf
  cases h
  exact hf

omit hR in
theorem parseConversion_read (arg : PercentArg D O) (cursor : PercentCursor D O)
    (out : PercentSpec×Value F64 D O×PercentCursor D O)
    (h : R.parseConversion arg cursor=.ok out) : out.1.Read := by
  unfold parseConversion at h
  simp only [bind,Except.bind] at h
  split at h
  · cases h
  split at h
  · cases h
  split at h
  · cases h
  split at h
  · cases h
  split at h
  · cases h
  cases h
  refine ⟨?_,fun w hw => parseOptI64_fits _ w hw,?_⟩
  · intro c hc
    dsimp only at hc
    split_ifs at hc
    · cases hc
      decide
    · cases hc
      decide
  · intro p hp
    simp only [Option.map_eq_some_iff] at hp
    obtain ⟨run,-,rfl⟩ := hp
    cases hr : parseOptI64 run with
    | none => decide
    | some n => exact parseOptI64_fits run n hr

omit hR in
theorem percentLoop_read (arg : PercentArg D O) (fuel : ℕ) (lit : Text)
    (cursor : PercentCursor D O) (out : List (PercentPiece D O)×List (Value F64 D O))
    (h : R.percentLoop arg fuel lit cursor=.ok out) (spec : PercentSpec) (v : Value F64 D O)
    (hm : .conv spec v∈out.1) : spec.Read := by
  have literal (lit : Text) : .conv spec v∉(literalPiece lit : List (PercentPiece D O)) := by
    unfold literalPiece
    split_ifs <;> simp
  induction fuel generalizing lit cursor out with
  | zero =>
    cases h
    exact absurd hm (literal lit)
  | succ fuel ih =>
    rw [percentLoop] at h
    split at h
    · cases h
      exact absurd hm (literal lit)
    · exact ih _ _ _ h hm
    · simp only [bind,Except.bind] at h
      split at h
      · cases h
      rename_i hconv
      split at h
      · cases h
      rename_i hrest
      cases h
      have hread := parseConversion_read _ _ _ hconv
      simp only [List.mem_append,List.mem_cons,PercentPiece.conv.injEq] at hm
      obtain hm | ⟨hspec,-⟩ | hm := hm
      · exact absurd hm (literal lit)
      · rw [hspec]
        exact hread
      · exact ih _ _ _ hrest hm
    · exact ih _ _ _ h hm

omit hR in
theorem parsePercentPieces_read (template : Text) (arg : PercentArg D O)
    (pieces : List (PercentPiece D O)) (h : R.parsePercentPieces template arg=.ok pieces)
    (spec : PercentSpec) (v : Value F64 D O) (hm : .conv spec v∈pieces) : spec.Read := by
  unfold parsePercentPieces at h
  simp only [bind,Except.bind] at h
  split at h
  · cases h
  rename_i hloop
  split_ifs at h
  cases h
  exact percentLoop_read _ _ _ _ _ hloop spec v hm

end Percent

namespace Host

variable {S E F D O : Type} (R : Renderer F D O) (H : Host S E F D O)

/-- A field's text: rendered without a spec, returned by the user's `__format__`, or a spec's, which is capped if the precision is modest. -/
inductive Shown (text : Text) : Prop where
  | rendered (mode : RenderMode) (v : Value F D O) (s s' : S)
    (h : H.render mode v s=.ok (text,s'))
  | slot (v : Value F D O) (spec : Text) (s s' : S)
    (h : H.callFormatSlot v spec s=.ok (some text,s'))
  | formatted (v : Value F D O) (spec : Text) (h : R.applyFormatSpec v spec=.ok text)
    (hc : R.Guarded v spec →
      ∃ base,R.naturalText v spec=.ok base ∧ text.length≤base.length+formatCap)

/-- An error that ends formatting: the host's, the program's own, or a panic over a precision that is
not modest or a pattern that the host cannot write. -/
inductive Fault (e : Failure) : Prop where
  | own (h : e.kind≠.panic)
  | eval (x : E) (s : S) (h : H.eval x s=.error e)
  | render (mode : RenderMode) (v : Value F D O) (s : S) (h : H.render mode v s=.error e)
  | slot (v : Value F D O) (spec : Text) (s : S) (h : H.callFormatSlot v spec s=.error e)
  | resolve (name : Text) (s : S) (h : H.resolveFormatArg name s=.error e)
  | formatted (v : Value F D O) (spec : Text) (h : R.applyFormatSpec v spec=.error e)
    (hc : ¬R.Guarded v spec)

/-- Every field among the pieces is shown in one of these ways. -/
def Fields (pieces : List Piece) : Prop := ∀ text,.field text∈pieces → Shown R H text

theorem eval_yields (x : E) : Yields (fun _ => True) (Fault R H) (H.eval x) := by
  intro s
  cases hr : H.eval x s with
  | ok r => trivial
  | error e => exact .eval x s hr

theorem render_yields (mode : RenderMode) (v : Value F D O) :
    Yields (Shown R H) (Fault R H) (H.render mode v) := by
  intro s
  cases hr : H.render mode v s with
  | ok r => exact .rendered mode v s r.2 hr
  | error e => exact .render mode v s hr

theorem resolve_yields (name : Text) :
    Yields (fun _ => True) (Fault R H) (H.resolveFormatArg name) := by
  intro s
  cases hr : H.resolveFormatArg name s with
  | ok r => trivial
  | error e => exact .resolve name s hr

theorem convert_yields (mode : Option RenderMode) (v : Value F D O) :
    Yields (fun _ => True) (Fault R H) (H.convert mode v) := by
  cases mode with
  | none => exact Yields.pure trivial
  | some mode => exact (render_yields R H mode v).bind fun _ _ => Yields.pure trivial

variable {R} (hR : Sized R)

include hR

theorem formatConverted_yields (v : Value F D O) (spec : Option Text) :
    Yields (Shown R H) (Fault R H) (H.formatConverted R v spec) := by
  have hslot : Yields (fun r => ∀ text,r=some text → Shown R H text) (Fault R H)
      (H.callFormatSlot v (spec.getD [])) := by
    intro s
    cases hr : H.callFormatSlot v (spec.getD []) s with
    | error e => exact .slot v _ s hr
    | ok r =>
      intro text ht
      rw [← Prod.eta r,ht] at hr
      exact .slot v _ s r.2 hr
  apply hslot.bind
  intro r hshown
  cases r with
  | some text => exact Yields.pure (hshown text rfl)
  | none =>
    dsimp only
    split
    · exact render_yields R H .display v
    · exact render_yields R H .display v
    · rename_i c cs
      intro s
      have hcap := applyFormatSpec_capped hR v (c::cs)
      unfold lift
      cases hf : R.applyFormatSpec v (c::cs) with
      | ok text =>
        rw [hf] at hcap
        exact .formatted v _ hf hcap
      | error e =>
        rw [hf] at hcap
        by_cases hm : R.Guarded v (c::cs)
        · exact .own (hcap hm)
        · exact .formatted v _ hf hm

theorem evalFormattedValue_yields (value : E) (conversion : Option RenderMode) (spec : Option E) :
    Yields (Shown R H) (Fault R H) (H.evalFormattedValue R value conversion spec) := by
  apply (eval_yields R H value).bind
  intro v _
  apply (convert_yields R H conversion v).bind
  intro converted _
  cases spec with
  | none => exact formatConverted_yields H hR converted none
  | some spec =>
    apply (eval_yields R H spec).bind
    intro w _
    exact formatConverted_yields H hR converted _

/-- The fields of an f-string. -/
theorem evalJoinedStr_yields (parts : List (Part E)) :
    Yields (Fields R H) (Fault R H) (H.evalJoinedStr R parts) := by
  induction parts with
  | nil => exact Yields.pure (by intro text h; cases h)
  | cons part parts ih =>
    have literal (lit : Text) : Yields (Fields R H) (Fault R H) (do
        let pieces ← H.evalJoinedStr R parts
        return .literal lit::pieces) := by
      apply ih.bind
      intro pieces hp
      apply Yields.pure
      intro text ht
      cases ht with
      | tail _ ht => exact hp text ht
    cases part with
    | literal lit => exact literal lit
    | other value => exact (eval_yields R H value).bind fun v _ => literal (R.display v)
    | formatted value conversion spec =>
      apply (evalFormattedValue_yields H hR value conversion spec).bind
      intro shown hs
      apply ih.bind
      intro pieces hp
      apply Yields.pure
      intro text ht
      cases ht with
      | head => exact hs
      | tail _ ht => exact hp text ht

omit hR in
theorem conversionMode_yields (c : Option Char) :
    Yields (fun _ => True) (Fault R H)
      (lift (conversionMode c) : StateT S (Except Failure) (Option RenderMode)) := by
  have houtcome : (∃ mode,conversionMode c=.ok mode) ∨
      ∃ message,conversionMode c=.error ⟨.valueError,message⟩ := by
    unfold conversionMode
    split <;> first
      | exact Or.inl ⟨_,rfl⟩
      | exact Or.inr ⟨_,rfl⟩
  intro s
  obtain ⟨mode,h⟩ | ⟨message,h⟩ := houtcome
  · rw [h]
    trivial
  · rw [h]
    exact .own fun h => nomatch h

/-- A field and the fields inside its spec, by the length of the text. -/
theorem field_yields (n : ℕ) :
    (∀ field : Text,field.length=n → Yields (Shown R H) (Fault R H) (H.renderFormatField R field)) ∧
      ∀ spec : Text,spec.length=n →
        Yields (fun _ => True) (Fault R H) (H.resolveNestedSpec R spec) := by
  induction n using Nat.strong_induction_on with
  | _ n ih =>
    constructor
    · intro field hn
      rw [renderFormatField]
      apply (resolve_yields R H _).bind
      intro v _
      apply (conversionMode_yields H _).bind
      intro mode _
      apply (convert_yields R H mode v).bind
      intro converted _
      split
      · exact formatConverted_yields H hR converted none
      · rename_i hs
        have hl := (splitOnce_length _ _ _ _ hs).2
        apply ((ih _ (hn ▸ hl)).2 _ rfl).bind
        intro resolved _
        exact formatConverted_yields H hR converted _
    · intro spec hn
      cases spec with
      | nil =>
        rw [resolveNestedSpec]
        exact Yields.pure trivial
      | cons c rest =>
        have hrest := (ih rest.length (hn ▸ Nat.lt_succ_self _)).2 rest rfl
        rw [resolveNestedSpec.eq_def]
        split
        · rename_i heq
          cases heq
        · rename_i heq
          cases heq
          split
          · exact Yields.throw (.own (by intro h; cases h))
          · rename_i hs
            obtain ⟨hi,ht⟩ := splitOnce_length _ _ _ _ hs
            apply ((ih _ (hn ▸ Nat.lt_succ_of_le hi)).1 _ rfl).bind
            intro text _
            apply ((ih _ (hn ▸ ht.trans (Nat.lt_succ_self _))).2 _ rfl).bind
            intro out _
            exact Yields.pure trivial
        · rename_i heq
          cases heq
          exact hrest.bind fun out _ => Yields.pure trivial

/-- The fields of `str.format`. -/
theorem strFormat_yields (template : Text) :
    Yields (Fields R H) (Fault R H) (H.strFormat R template) := by
  generalize hn : template.length=n
  induction n using Nat.strong_induction_on generalizing template with
  | _ n ih =>
    have literal (rest : Text) (lit : Text) (hl : rest.length<n) :
        Yields (Fields R H) (Fault R H) (do
          let pieces ← H.strFormat R rest
          return .literal lit::pieces) := by
      apply (ih rest.length hl rest rfl).bind
      intro pieces hp
      apply Yields.pure
      intro text ht
      cases ht with
      | tail _ ht => exact hp text ht
    rw [strFormat.eq_def]
    split
    · exact Yields.pure (by intro text h; cases h)
    · exact literal _ _ (hn ▸ Nat.lt_succ_of_le (Nat.le_succ _))
    · exact literal _ _ (hn ▸ Nat.lt_succ_of_le (Nat.le_succ _))
    · split
      · exact Yields.throw (.own (by intro h; cases h))
      · rename_i hs
        have hl := scanField_length _ _ _ _ hs
        apply ((field_yields H hR _).1 _ rfl).bind
        intro shown hshown
        apply (ih _ (hn ▸ hl.trans (Nat.lt_succ_self _)) _ rfl).bind
        intro pieces hp
        apply Yields.pure
        intro text ht
        cases ht with
        | head => exact hshown
        | tail _ ht => exact hp text ht
    · exact Yields.throw (.own (by intro h; cases h))
    · exact literal _ _ (hn ▸ Nat.lt_succ_self _)

end Host

/-- Specs and conversions are read with the counts written in them exactly when these fit, and every
field of the three front ends is capped while the precision is modest and the host can write the
pattern of a temporal value. -/
theorem outputs_capped {D O : Type} {R : Renderer F64 D O} (hR : Sized R) :
    (∀ (v : Value F64 D O) (spec : Text),
      (Heeds spec ↔ FitsI64 (countRuns spec).1 ∧ FitsI64 (countRuns spec).2) ∧
      (R.Guarded v spec →
        Capped formatCap List.length (R.naturalText v spec) (R.applyFormatSpec v spec))) ∧
    (∀ run : Text,parseOptI64 run=writtenCount run ↔ FitsI64 run) ∧
    (∀ (template : Text) (arg : PercentArg D O) (pieces : List (PercentPiece D O)),
      R.parsePercentPieces template arg=.ok pieces → ∀ (spec : PercentSpec) (v : Value F64 D O),
        .conv spec v∈pieces → spec.Modest →
          Capped formatCap List.length (R.formatPercentConversion v spec.uncounted)
            (R.formatPercentConversion v spec)) ∧
    ∀ {S E : Type} (H : Host S E F64 D O),
      (∀ template : Text,Yields (Host.Fields R H) (Host.Fault R H) (H.strFormat R template)) ∧
        ∀ parts : List (Part E),
          Yields (Host.Fields R H) (Host.Fault R H) (H.evalJoinedStr R parts) := by
  refine ⟨?_,parseOptI64_written,?_,?_⟩
  · intro v spec
    exact ⟨heeds_iff spec,applyFormatSpec_capped hR v spec⟩
  · intro template arg pieces hp spec v hm hmodest
    exact formatPercentConversion_capped hR v spec (parsePercentPieces_read _ _ _ hp spec v hm) hmodest
  · intro S E H
    exact ⟨H.strFormat_yields hR,H.evalJoinedStr_yields hR⟩

section Samples

def zeroText (p : ℕ) : Text := if p=0 then ['0'] else '0':: '.'::List.replicate p '0'

/-- A renderer whose floats and decimals are all zero. -/
def zeros : Renderer F64 Unit Unit where
  displayOther := fun _ => ['0']
  repr := fun _ => ['0']
  typeName := fun _ => ""
  pythonTypeName := fun _ => ""
  isNan := F64.isNan
  isInfinite := F64.isInfinite
  isBelowZero := fun f => f.isNegative
  isZero := fun f => f.mag = 0
  isSignNegative := F64.isNegative
  abs := id
  timesHundred := id
  fixed := fun _ => zeroText
  scientific := fun _ p => zeroText p++['e','0']
  ofInt := F64.ofInt
  ofDecimal := fun _ => F64.zero
  floatOther := fun _ => none
  decimalTimesHundred := id
  decimalFixed := fun _ => zeroText
  strftime := fun _ _ => some []

theorem zeroText_length (p : ℕ) : (zeroText p).length≤p+2 := by
  unfold zeroText
  split_ifs <;> simp

theorem zeros_sized : Sized zeros where
  fixed := fun _ p => (zeroText_length p).trans (by omega)
  scientific := fun _ p => by
    have h := zeroText_length p
    change (zeroText p++['e','0']).length≤_
    rw [List.length_append]
    simp only [List.length_cons,List.length_nil]
    omega
  decimalFixed := fun _ => by
    refine ⟨fun _ => [],fun _ => ['0'],fun p => List.replicate p '0',fun p => ?_⟩
    refine ⟨?_,Or.inl rfl,by simp,by simp,List.length_replicate,by simp⟩
    change zeroText p=_
    unfold zeroText
    split_ifs <;> rfl

/-- `format(Decimal(0), '.3f')`. -/
theorem thousandths_capped : Capped formatCap List.length
    (zeros.naturalText (.decimal ()) ['.','3','f'])
    (zeros.applyFormatSpec (.decimal ()) ['.','3','f']) :=
  ((outputs_capped zeros_sized).1 _ _).2 ⟨fun _ => by decide,fun _ => trivial⟩

/-- `<.pf`. -/
def fixedSpec (p : ℕ) : PercentSpec := ⟨true,none,false,false,none,some p,'f'⟩

theorem fixedSpec_text (p : ℕ) (hp : p<2^63) :
    zeros.naturalText (.decimal ()) (buildBraceSpec (fixedSpec p) 'f')=.ok (zeroText 6) ∧
      zeros.applyFormatSpec (.decimal ()) (buildBraceSpec (fixedSpec p) 'f')=.ok (zeroText p) := by
  have hread : Printf.Readable (fixedSpec p) 'f' := by
    refine ⟨(fun _ h => nomatch h),(fun _ h => nomatch h),?_,by decide⟩
    intro q hq
    cases hq
    exact hp
  have hparse := Printf.parseSpec_brace (fixedSpec p) 'f' hread
  have hformat (q : FormatSpec) (hrest : q.rest=['f']) (hw : q.width=none) (hs : q.sign=none)
      (hg : q.grouping=none) : applyParsed.format zeros (.decimal ())
        (buildBraceSpec (fixedSpec p) 'f') q=.ok (zeroText (q.precision.getD 6)) := by
    have ht : q.typeChar=some 'f' := by
      unfold FormatSpec.typeChar
      rw [hrest]
      rfl
    unfold applyParsed.format
    rw [hrest,if_neg (by decide),ht]
    have hbody : zeros.formatValueBody (.decimal ()) (some 'f') q.precision q.alternate=
        .ok (zeroText (q.precision.getD 6)) := rfl
    rw [hbody]
    simp only [Except.map,FormatSpec.dress_unpadded q hw,hs,applySign,FormatSpec.group,hg]
  constructor
  · change applyParsed.format zeros (.decimal ()) (buildBraceSpec (fixedSpec p) 'f')
      (parseSpec (buildBraceSpec (fixedSpec p) 'f')).uncounted=_
    rw [hparse]
    exact hformat _ rfl rfl rfl rfl
  · change applyParsed zeros (.decimal ()) (buildBraceSpec (fixedSpec p) 'f')=_
    unfold applyParsed
    rw [hparse]
    exact hformat _ rfl rfl rfl rfl

/-- Twenty nines: no `i64`. -/
def overlong : Text := List.replicate 20 '9'

/-- Overlong counts are ignored by both readers, a decimal's precision goes past every multiple of the cap, and a float's makes the host panic. -/
theorem unguarded :
    (¬FitsI64 overlong ∧ zeros.applyFormatSpec (.int 5) overlong=.ok ['5'] ∧
      zeros.strPercentFormat ('%'::(overlong++['d'])) (.single (.int 5))=.ok ['5']) ∧
    (∀ c,c<10^14 → ∃ spec base text,zeros.naturalText (.decimal ()) spec=.ok base ∧
      zeros.applyFormatSpec (.decimal ()) spec=.ok text ∧
      base.length+c*maxFormatWidth<text.length) ∧
    zeros.applyFormatSpec (.float F64.zero) ['.','7','0','0','0','0','f']=
      .error ⟨.panic,"Formatting argument out of range"⟩ := by
  refine ⟨⟨?_,rfl,rfl⟩,?_,rfl⟩
  · unfold FitsI64
    decide
  · intro c hc
    have hmax : maxFormatWidth=10000 := rfl
    have hp : (c+1)*maxFormatWidth<2^63 := by
      rw [hmax]
      omega
    obtain ⟨hn,ha⟩ := fixedSpec_text _ hp
    refine ⟨_,_,_,hn,ha,?_⟩
    have hlen : (zeroText ((c+1)*maxFormatWidth)).length=(c+1)*maxFormatWidth+2 := by
      unfold zeroText
      rw [if_neg (by rw [hmax]; omega)]
      simp only [List.length_cons,List.length_replicate]
    have hsix : (zeroText 6).length=8 := rfl
    rw [hlen,hsix,hmax]
    omega

end Samples

end Format
end InterpretThis
