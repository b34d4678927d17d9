import InterpretThis.Format.Percent
import Mathlib.Tactic.Linarith
import InterpretThis.Format.Misgrouping

namespace InterpretThis
namespace Format
namespace Printf

open Renderer

section Brace

variable (spec : PercentSpec) (t : Char)

def alignText : Text := if spec.minus then ['<'] else if !spec.zero then ['>'] else []

def zeroFlag : Bool := spec.zero&&!spec.minus

def widthText : Text :=
  match spec.width with
  | some w => Nat.toDigits 10 w
  | none => []

def precText : Text :=
  match spec.precision with
  | some p => '.'::Nat.toDigits 10 p
  | none => []

theorem buildBraceSpec_parts : buildBraceSpec spec t=
    alignText spec++(spec.sign.toList++(IntSpec.flagText spec.alt '#'++
      (IntSpec.flagText (zeroFlag spec) '0'++(widthText spec++(precText spec++[t]))))) := rfl

def readsZero : Bool := zeroFlag spec||decide (spec.width=some 0)

def readWidth : Option ℕ := if zeroFlag spec=false ∧ spec.width=some 0 then none else spec.width

def braceTypes : List Char := ['d','o','x','X','s','r','e','E','f','F','g','G']

structure Readable : Prop where
  sign : ∀ c,spec.sign=some c → c∈['+',' ']
  width : ∀ w,spec.width=some w → w<2^63
  precision : ∀ p,spec.precision=some p → p<2^63
  type : t∈braceTypes

theorem toDigits_isDigit (m : ℕ) (c : Char) (hc : c∈Nat.toDigits 10 m) : c.isDigit :=
  Nat.isDigit_of_mem_toDigits (by decide) (by decide) hc

theorem ofDigitChars_toDigits_ten (m : ℕ) : Nat.ofDigitChars 10 (Nat.toDigits 10 m) 0=m :=
  Nat.ofDigitChars_toDigits (by decide) (by decide)

theorem precision_apart (options : List Char) (hd : ∀ c∈options,c.isDigit=false)
    (hp : '.'∉options) (ho : ∀ c∈braceTypes,c∉options) (h : Readable spec t)
    (c : Char) (hc : c∈precText spec++[t]) : c∉options := by
  rw [List.mem_append,List.mem_singleton] at hc
  obtain hc | rfl := hc
  · unfold precText at hc
    cases hs : spec.precision with
    | none =>
      rw [hs] at hc
      cases hc
    | some p =>
      rw [hs] at hc
      simp only [List.mem_cons] at hc
      obtain rfl | hc := hc
      · exact hp
      · intro hm
        have h1 := toDigits_isDigit p c hc
        rw [hd c hm] at h1
        cases h1
  · exact ho c h.type

theorem widthText_digits (c : Char) (hc : c∈widthText spec) : c.isDigit := by
  unfold widthText at hc
  cases hs : spec.width with
  | none =>
    rw [hs] at hc
    cases hc
  | some w =>
    rw [hs] at hc
    exact toDigits_isDigit w c hc

theorem width_apart (options : List Char) (hd : ∀ c∈options,c.isDigit=false)
    (hp : '.'∉options) (ho : ∀ c∈braceTypes,c∉options) (h : Readable spec t)
    (c : Char) (hc : c∈widthText spec++(precText spec++[t])) : c∉options := by
  rw [List.mem_append] at hc
  obtain hc | hc := hc
  · intro hm
    have h1 := widthText_digits spec c hc
    rw [hd c hm] at h1
    cases h1
  · exact precision_apart spec t options hd hp ho h c hc

theorem flags_apart (options : List Char) (hd : ∀ c∈options,c.isDigit=false) (hs : '#'∉options)
    (hp : '.'∉options) (ho : ∀ c∈braceTypes,c∉options) (h : Readable spec t)
    (sharp zero : Bool) (c : Char)
    (hc : c∈IntSpec.flagText sharp '#'++(IntSpec.flagText zero '0'++
      (widthText spec++(precText spec++[t])))) : c∉options := by
  rw [List.mem_append,List.mem_append] at hc
  obtain hc | hc | hc := hc
  · rw [IntSpec.mem_flagText _ _ _ hc]
    exact hs
  · rw [IntSpec.mem_flagText _ _ _ hc]
    intro hm
    exact absurd (hd _ hm) (by decide)
  · exact width_apart spec t options hd hp ho h c hc

theorem parseZero_text (h : Readable spec t) :
    parseFlag '0' (IntSpec.flagText (zeroFlag spec) '0'++(widthText spec++(precText spec++[t])))=
      (readsZero spec,(if zeroFlag spec=false ∧ spec.width=some 0 then [] else widthText spec)++
        (precText spec++[t])) := by
  by_cases hz : zeroFlag spec=true
  · have hp := parseFlag_flag '0' (zeroFlag spec) (widthText spec++(precText spec++[t]))
      fun hf => absurd (hz.symm.trans hf) (by decide)
    rw [hp,readsZero,hz]
    simp
  · rw [Bool.not_eq_true] at hz
    by_cases hw : spec.width=some 0
    · simp [readsZero,widthText,hz,hw,IntSpec.flagText,parseFlag]
    · have hh : (widthText spec++(precText spec++[t])).head?≠some '0' := by
        intro hh
        cases hs : spec.width with
        | none =>
          have hm := List.mem_of_head? hh
          simp only [widthText,hs,List.nil_append,List.mem_append,List.mem_singleton] at hm
          obtain hm | hm := hm
          · unfold precText at hh hm
            cases hpr : spec.precision with
            | none =>
              rw [hpr] at hm
              cases hm
            | some p =>
              simp only [widthText,hs,hpr] at hh
              cases hh
          · have h0 : '0'∉braceTypes := by decide
            exact h0 (hm ▸ h.type)
        | some w =>
          simp only [widthText,hs] at hh
          rw [List.head?_append_of_ne_nil _ Nat.toDigits_ne_nil] at hh
          have hw0 := toDigits_lead 10 w (by decide) hh
          exact hw (by rw [hs,hw0])
      have hp := parseFlag_flag '0' (zeroFlag spec) (widthText spec++(precText spec++[t]))
        fun _ => hh
      rw [hp,readsZero,hz]
      simp [hw]

theorem digits_split (ds rest : Text) (ch : Char) (cs : Text) (hr : rest=ch::cs)
    (hd : ∀ c∈ds,c.isDigit) (hc : ch.isDigit=false) :
    (ds++rest).takeWhile Char.isDigit=ds ∧ (ds++rest).dropWhile Char.isDigit=rest := by
  rw [List.takeWhile_append_of_pos hd,List.dropWhile_append_of_pos hd,hr]
  simp [hc]

theorem parseNumber_run (m : ℕ) (ch : Char) (cs : Text) (hm : m<2^63) (hc : ch.isDigit=false) :
    parseNumber (Nat.toDigits 10 m++ch::cs)=(some m,ch::cs) := by
  obtain ⟨h1,h2⟩ := digits_split (Nat.toDigits 10 m) (ch::cs) ch cs rfl (toDigits_isDigit m) hc
  simp only [parseNumber,h1,h2,if_neg Nat.toDigits_ne_nil,parseI64,ofDigitChars_toDigits_ten,
    if_pos hm]

theorem parseNumber_none (ch : Char) (cs : Text) (hc : ch.isDigit=false) :
    parseNumber (ch::cs)=(none,ch::cs) := by
  simp [parseNumber,hc]

theorem type_plain (h : Readable spec t) : t.isDigit=false ∧ t≠ '.' := by
  have hd : ∀ c∈braceTypes,c.isDigit=false ∧ c≠ '.' := List.all_iff_forall_prop.mp (by decide)
  exact hd t h.type

theorem precision_first (h : Readable spec t) :
    ∃ ch cs,precText spec++[t]=ch::cs ∧ ch.isDigit=false := by
  unfold precText
  cases spec.precision with
  | none => exact ⟨t,[],rfl,(type_plain spec t h).1⟩
  | some p => exact ⟨'.',_,rfl,by decide⟩

theorem parseNumber_width (h : Readable spec t) :
    parseNumber ((if zeroFlag spec=false ∧ spec.width=some 0 then [] else widthText spec)++
      (precText spec++[t]))=(readWidth spec,precText spec++[t]) := by
  obtain ⟨ch,cs,he,hc⟩ := precision_first spec t h
  rw [he]
  unfold readWidth
  split_ifs with hz
  · exact parseNumber_none ch cs hc
  · unfold widthText
    cases hs : spec.width with
    | none => exact parseNumber_none ch cs hc
    | some w => exact parseNumber_run w ch cs (h.width w hs) hc

theorem parsePrecision_text (h : Readable spec t) :
    parsePrecision (precText spec++[t])=(spec.precision,[t]) := by
  obtain ⟨hdig,hdot⟩ := type_plain spec t h
  unfold precText
  cases hp : spec.precision with
  | none =>
    rw [List.nil_append]
    unfold parsePrecision
    split
    · rename_i h
      cases h
      exact absurd rfl hdot
    · rfl
  | some p => exact parseNumber_run p t [] (h.precision p hp) hdig

/-- The brace spec is read as it was built, a width of zero apart. -/
theorem parseSpec_brace (h : Readable spec t) :
    parseSpec (buildBraceSpec spec t)=⟨none,(alignText spec).head?,spec.sign,spec.alt,
      readsZero spec,readWidth spec,none,spec.precision,[t]⟩ := by
  have hrest (c : Char) (hc : c∈spec.sign.toList++(IntSpec.flagText spec.alt '#'++
      (IntSpec.flagText (zeroFlag spec) '0'++(widthText spec++(precText spec++[t]))))) :
      c∉aligns := by
    rw [List.mem_append] at hc
    obtain hc | hc := hc
    · have hm := h.sign c (by simpa using hc)
      have hd : ∀ c∈['+',' '],c∉aligns := List.all_iff_forall_prop.mp (by decide)
      exact hd c hm
    · exact flags_apart spec t aligns (List.all_iff_forall_prop.mp (by decide)) (by decide)
        (by decide) (List.all_iff_forall_prop.mp (by decide)) h _ _ c hc
  have hfill : parseFillAlign (buildBraceSpec spec t)=(none,(alignText spec).head?,
      spec.sign.toList++(IntSpec.flagText spec.alt '#'++
        (IntSpec.flagText (zeroFlag spec) '0'++(widthText spec++(precText spec++[t]))))) := by
    rw [buildBraceSpec_parts]
    unfold alignText
    split_ifs
    · exact parseFillAlign_align '<' _ (by decide) hrest
    · exact parseFillAlign_align '>' _ (by decide) hrest
    · exact parseFillAlign_none _ hrest
  have hs : parseSign (spec.sign.toList++(IntSpec.flagText spec.alt '#'++
      (IntSpec.flagText (zeroFlag spec) '0'++(widthText spec++(precText spec++[t])))))=
      (spec.sign,IntSpec.flagText spec.alt '#'++
        (IntSpec.flagText (zeroFlag spec) '0'++(widthText spec++(precText spec++[t])))) := by
    apply parseOneOf_option
    · intro c hc
      have hm := h.sign c hc
      simp only [List.mem_cons,List.not_mem_nil,or_false] at hm ⊢
      tauto
    · exact flags_apart spec t _ (List.all_iff_forall_prop.mp (by decide)) (by decide) (by decide)
        (List.all_iff_forall_prop.mp (by decide)) h _ _
  have ha : parseFlag '#' (IntSpec.flagText spec.alt '#'++
      (IntSpec.flagText (zeroFlag spec) '0'++(widthText spec++(precText spec++[t]))))=
      (spec.alt,IntSpec.flagText (zeroFlag spec) '0'++(widthText spec++(precText spec++[t]))) := by
    apply parseFlag_flag
    intro _ hh
    have hm := List.mem_of_head? hh
    rw [List.mem_append] at hm
    obtain hm | hm := hm
    · exact absurd (IntSpec.mem_flagText _ _ _ hm) (by decide)
    · exact width_apart spec t ['#'] (List.all_iff_forall_prop.mp (by decide)) (by decide)
        (List.all_iff_forall_prop.mp (by decide)) h _ hm (by decide)
  have hz := parseZero_text spec t h
  have hw := parseNumber_width spec t h
  have hg : parseGrouping (precText spec++[t])=(none,precText spec++[t]) :=
    parseOneOf_none _ _ (precision_apart spec t _ (List.all_iff_forall_prop.mp (by decide))
      (by decide) (List.all_iff_forall_prop.mp (by decide)) h)
  simp only [parseSpec,hfill,hs,ha,hz,hw,hg,parsePrecision_text spec t h]

end Brace

end Printf
end Format
end InterpretThis
