import InterpretThis.Framework.Numeral
import InterpretThis.Value.Arith
import InterpretThis.Value.Key
import Mathlib.Tactic.SplitIfs

namespace InterpretThis
namespace ParseInt

open Numeral

/-- `to_ascii_lowercase` of one character. -/
def lowerAscii (c : Char) : Char :=
  if 65 ≤ c.toNat ∧ c.toNat≤90 then Char.ofNat (c.toNat+32) else c

/-- `strip_ci`. -/
def stripCi (s pre : List Char) : Option (List Char) :=
  if pre.length ≤ s.length ∧ (s.take pre.length).map lowerAscii=pre.map lowerAscii then
    some (s.drop pre.length)
  else none

/-- The loop of `clean_underscores`. -/
def cleanLoop : Bool → List Char → Option (List Char)
  | _,[] => some []
  | previous,c::s =>
    if c = '_' then if previous then none else cleanLoop true s
    else (cleanLoop false s).map (c::·)

/-- `clean_underscores`. -/
def cleanUnderscores (s : List Char) : Option (List Char) :=
  if s=[] then some []
  else if s.head?=some '_' ∨ s.getLast?=some '_' then none
  else cleanLoop false s

/-- The sign in front, as "is negative", and the rest. -/
def splitSign : List Char → Bool×List Char
  | '-'::rest => (true,rest)
  | '+'::rest => (false,rest)
  | rest => (false,rest)

/-- The radix and what follows a base prefix. -/
def splitPrefix (base : Int64) (rest : List Char) : ℕ×List Char :=
  if base=0 then
    match stripCi rest ['0','x'] with
    | some r => (16,r)
    | none =>
      match stripCi rest ['0','o'] with
      | some r => (8,r)
      | none =>
        match stripCi rest ['0','b'] with
        | some r => (2,r)
        | none => (10,rest)
  else
    let radix := base.toInt.toNat
    let stripped :=
      if radix=16 then stripCi rest ['0','x']
      else if radix=8 then stripCi rest ['0','o']
      else if radix=2 then stripCi rest ['0','b']
      else none
    (radix,stripped.getD rest)

section Parser

variable (fromStrRadix : List Char → ℕ → Option ℤ) (pythonStrRepr : List Char → String)

/-- `parse_int_str`; `from_str_radix` and the repr of the text are parameters. -/
def parseIntStr (raw : List Char) (base : Int64) : Except EvalError Value :=
  let invalid : Except EvalError Value := .error (.exception "ValueError"
    ("invalid literal for int() with base "++toString base.toInt++": "++pythonStrRepr raw))
  if base≠0 ∧ ¬(2≤base ∧ base≤36) then
    .error (.exception "ValueError" "int() base must be >= 2 and <= 36, or 0")
  else
    let (negative,rest) := splitSign (trim raw)
    let (radix,digitsRaw) := splitPrefix base rest
    match cleanUnderscores digitsRaw with
    | none => invalid
    | some cleaned =>
      if cleaned=[] then invalid
      else if base=0 ∧ radix=10 ∧ 1<cleaned.length ∧ cleaned.head?=some '0' ∧
          cleaned.any (· ≠ '0') then invalid
      else
        match fromStrRadix cleaned radix with
        | none => invalid
        | some big => .ok (intFromBigint (if negative then -big else big))

end Parser

/-- `value_to_i64`. -/
def valueToI64 : Value → Except EvalError Int64
  | .int i => .ok i
  | .bool b => .ok (if b then 1 else 0)
  | .enumMember _ _ value .int => valueToI64 value
  | .enumMember _ _ value .intFlag => valueToI64 value
  | v => .error (.interpreter (.typeError
      ("'"++v.typeName++"' object cannot be interpreted as an integer")))

/-- The builtins `hex`, `oct` and `bin`, by the letter of their prefix. -/
inductive Mark where
  | hex
  | oct
  | bin
  deriving DecidableEq

namespace Mark

def radix : Mark → ℕ
  | hex => 16
  | oct => 8
  | bin => 2

def letter : Mark → Char
  | hex => 'x'
  | oct => 'o'
  | bin => 'b'

end Mark

/-- `bin`, `oct` and `hex` of an argument without `__index__`. -/
def baseText (mark : Mark) (v : Value) : Except EvalError (List Char) := do
  let n ← valueToI64 v
  return (if n<0 then ['-'] else [])++ '0'::mark.letter::Nat.toDigits mark.radix n.toInt.natAbs

def decimalText (n : ℤ) : List Char :=
  (if n<0 then ['-'] else [])++Nat.toDigits 10 n.natAbs

section Prefixes

theorem toNat_raised {n : ℕ} (hn : n≤90) : (Char.ofNat (n+32)).toNat=n+32 := by
  have hvalid : (n+32).isValidChar := .inl (by omega)
  rw [Char.ofNat,dif_pos hvalid]
  rfl

theorem lowerAscii_eq {c l : Char} (hl : 97≤l.toNat ∧ l.toNat≤122) :
    lowerAscii c=l ↔ c=l ∨ c.toNat+32=l.toNat := by
  rw [lowerAscii]
  split_ifs with h
  · have hto := toNat_raised h.2
    constructor
    · intro he
      rw [he] at hto
      exact .inr hto.symm
    · rintro (rfl|he)
      · omega
      · exact Char.toNat_inj.mp (hto.trans he)
  · constructor
    · exact .inl
    · rintro (rfl|he)
      · rfl
      · omega

theorem lowerAscii_digit : lowerAscii '0' = '0' := rfl

/-- What is left of a text after `0` and a letter of either case. -/
theorem stripCi_some {s r : List Char} {l : Char} (hl : 97≤l.toNat ∧ l.toNat≤122) :
    stripCi s ['0',l]=some r ↔ ∃ c,s = '0'::c::r ∧ (c=l ∨ c.toNat+32=l.toNat) := by
  have hlow : lowerAscii l=l := (lowerAscii_eq hl).mpr (.inl rfl)
  have hzero : ∀ c,lowerAscii c = '0' ↔ c = '0' := by
    intro c
    rw [lowerAscii]
    split_ifs with h
    · have hto := toNat_raised h.2
      constructor
      · intro he
        rw [he] at hto
        change 48=_ at hto
        omega
      · rintro rfl
        exact absurd h.1 (by decide)
    · rfl
  rw [stripCi]
  match s with
  | [] => simp
  | [a] => simp
  | a::c::s =>
    have hmap : ((a::c::s).take ['0',l].length).map lowerAscii=['0',l].map lowerAscii ↔
        a = '0' ∧ (c=l ∨ c.toNat+32=l.toNat) := by
      change [lowerAscii a,lowerAscii c]=[lowerAscii '0',lowerAscii l] ↔ _
      rw [hlow,lowerAscii_digit,List.cons.injEq,List.cons.injEq,hzero,lowerAscii_eq hl]
      simp
    constructor
    · intro h
      split_ifs at h with hc
      cases h
      obtain ⟨rfl,hletter⟩ := hmap.mp hc.2
      exact ⟨c,rfl,hletter⟩
    · rintro ⟨d,hs,hd⟩
      cases hs
      rw [if_pos ⟨by simp,hmap.mpr ⟨rfl,hd⟩⟩]
      rfl

end Prefixes

/-- An optional sign. -/
inductive Sign where
  | none
  | plus
  | minus

namespace Sign

def text : Sign → List Char
  | none => []
  | plus => ['+']
  | minus => ['-']

def apply : Sign → ℤ → ℤ
  | minus,n => -n
  | _,n => n

end Sign

/-- What the library parser reads: a sign, and digits of the radix with underscores after the
first of them. -/
def ReadsRadix (fromStrRadix : List Char → ℕ → Option ℤ) : Prop :=
  ∀ (s : List Char) (radix : ℕ) (n : ℤ),2 ≤ radix → radix≤36 → (fromStrRadix s radix=some n ↔
    ∃ (sign : Sign) (c : Char) (body : List Char),s=sign.text++c::body ∧ IsDigit radix c ∧
      (∀ d∈body,IsDigit radix d ∨ d = '_') ∧ n=sign.apply (value radix (c::body)))

section Cleaning

variable {s t : List Char} {radix : ℕ}

theorem cleanLoop_fresh {c : Char} (hc : c ≠ '_') (previous : Bool) (s : List Char) :
    cleanLoop previous (c::s)=(cleanLoop false s).map (c::·) := by
  rw [cleanLoop,if_neg hc]

theorem strip_cons {c : Char} (hc : c ≠ '_') (s : List Char) : strip (c::s)=c::strip s := by
  simp [strip,hc]

theorem strip_gap (s : List Char) : strip ('_'::s)=strip s := rfl

/-- Past its first character the loop takes exactly the texts with single underscores. -/
theorem cleanLoop_some (hhead : ∃ c s',s=c::s' ∧ c ≠ '_') (hlast : s.getLast?≠some '_') :
    cleanLoop false s=some t ↔ Grouped (· ≠ '_') s ∧ t=strip s := by
  induction hn : s.length using Nat.strongRecOn generalizing s t with
  | _ n ih =>
    obtain ⟨c,s',rfl,hc⟩ := hhead
    rw [cleanLoop_fresh hc,strip_cons hc]
    match s' with
    | [] =>
      constructor
      · intro h
        cases h
        exact ⟨.single hc,rfl⟩
      · rintro ⟨-,rfl⟩
        rfl
    | d::s' =>
      have hlast' : (d::s').getLast?≠some '_' := by rwa [List.getLast?_cons_cons] at hlast
      by_cases hd : d = '_'
      · subst hd
        match s' with
        | [] => exact absurd rfl hlast'
        | e::s' =>
          have hlast'' : (e::s').getLast?≠some '_' := by rwa [List.getLast?_cons_cons] at hlast'
          by_cases he : e = '_'
          · subst he
            refine iff_of_false (fun h => nomatch h) ?_
            rintro ⟨h,-⟩
            cases h with
            | cons _ hs =>
              obtain ⟨_,_,heq,hne⟩ := hs.head
              cases heq
              exact hne rfl
            | gap _ hs =>
              obtain ⟨_,_,heq,hne⟩ := hs.head
              cases heq
              exact hne rfl
          · have hrec := ih (e::s').length (by simp at hn ⊢; omega) ⟨e,s',rfl,he⟩ hlast''
              (t := strip (e::s')) rfl
            have hloop : cleanLoop false ('_'::e::s')=cleanLoop false (e::s') := by
              rw [cleanLoop,if_pos rfl,if_neg (by decide),cleanLoop_fresh he,cleanLoop_fresh he]
            rw [hloop,strip_gap]
            constructor
            · intro h
              obtain ⟨u,hu,rfl⟩ := Option.map_eq_some_iff.mp h
              have hsep := (ih (e::s').length (by simp at hn ⊢; omega) ⟨e,s',rfl,he⟩ hlast''
                rfl).mp hu
              exact ⟨.gap hc hsep.1,by rw [hsep.2]⟩
            · rintro ⟨h,rfl⟩
              have hsep : Grouped (· ≠ '_') (e::s') := by
                cases h with
                | cons _ hs =>
                  obtain ⟨_,_,heq,hne⟩ := hs.head
                  cases heq
                  exact absurd rfl hne
                | gap _ hs => exact hs
              rw [hrec.mpr ⟨hsep,rfl⟩]
              rfl
      · have hrec := fun u => ih (d::s').length (by simp at hn ⊢; omega) ⟨d,s',rfl,hd⟩ hlast'
          (t := u) rfl
        constructor
        · intro h
          obtain ⟨u,hu,rfl⟩ := Option.map_eq_some_iff.mp h
          have hsep := (hrec u).mp hu
          exact ⟨.cons hc hsep.1,by rw [hsep.2]⟩
        · rintro ⟨h,rfl⟩
          have hsep : Grouped (· ≠ '_') (d::s') := by
            cases h with
            | cons _ hs => exact hs
            | gap => exact absurd rfl hd
          rw [(hrec _).mpr ⟨hsep,rfl⟩]
          rfl

theorem cleanUnderscores_some :
    cleanUnderscores s=some t ↔ (s=[] ∧ t=[]) ∨ Grouped (· ≠ '_') s ∧ t=strip s := by
  rw [cleanUnderscores]
  by_cases hs : s=[]
  · subst hs
    rw [if_pos rfl]
    constructor
    · intro h
      exact .inl ⟨rfl,(Option.some.inj h).symm⟩
    · rintro (⟨-,rfl⟩|⟨h,-⟩)
      · rfl
      · exact absurd rfl h.ne_nil
  rw [if_neg hs]
  split_ifs with hends
  · refine iff_of_false (fun h => nomatch h) ?_
    rintro (⟨h,-⟩|⟨h,-⟩)
    · exact hs h
    · rcases hends with hhead|hlast
      · obtain ⟨c,s',rfl,hc⟩ := h.head
        exact hc (Option.some.inj hhead)
      · obtain ⟨s',c,rfl,hc⟩ := h.last
        rw [List.getLast?_concat] at hlast
        exact hc (Option.some.inj hlast)
  · obtain ⟨c,s',rfl⟩ := List.exists_cons_of_ne_nil hs
    have hc : c ≠ '_' := fun h => hends (.inl (congrArg some h))
    rw [cleanLoop_some ⟨c,s',rfl,hc⟩ fun h => hends (.inr h)]
    exact ⟨.inr,fun h => h.resolve_left fun h => hs h.1⟩

end Cleaning

section Reading

variable {fromStrRadix : List Char → ℕ → Option ℤ} {radix : ℕ} {s : List Char}

theorem digitValue_zero {c : Char} : digitValue c=some 0 ↔ c = '0' := by
  constructor
  · intro h
    rw [digitValue] at h
    apply Char.toNat_inj.mp
    change c.toNat=48
    split_ifs at h with h1 h2 h3
    · have hval := Option.some.inj h
      omega
    · have hval := Option.some.inj h
      omega
    · have hval := Option.some.inj h
      omega
  · rintro rfl
    rfl

theorem value_eq_zero (hr : 0 < radix) (hs : ∀ c∈s,IsDigit radix c) :
    value radix s=0 ↔ ∀ c∈s,c = '0' := by
  induction s using List.reverseRecOn with
  | nil => exact ⟨fun _ _ h => (nomatch h),fun _ => rfl⟩
  | append_singleton s c ih =>
    obtain ⟨d,hd,-⟩ := hs c (by simp)
    have hrec := ih fun x hx => hs x (by simp [hx])
    rw [value_append,hd]
    change radix*value radix s+d=0 ↔ _
    constructor
    · intro h
      have hprod : radix*value radix s=0 := by omega
      have hs0 := (Nat.mul_eq_zero.mp hprod).resolve_left (by omega)
      have hd0 : d=0 := by omega
      subst hd0
      intro x hx
      obtain hx|hx := List.mem_append.mp hx
      · exact hrec.mp hs0 x hx
      · rw [List.mem_singleton.mp hx]
        exact digitValue_zero.mp hd
    · intro h
      have hs0 := hrec.mpr fun x hx => h x (by simp [hx])
      have hc := h c (by simp)
      rw [digitValue_zero.mpr hc] at hd
      rw [hs0,← Option.some.inj hd]
      rfl

/-- Digit groups behind at most one sign; an underscore may follow the sign. -/
inductive Signed (radix : ℕ) : Sign → List Char → List Char → Prop where
  | none {s : List Char} (hs : Grouped (IsDigit radix) s) : Signed radix .none s s
  | cons {sign : Sign} {x : Char} {s : List Char} (hx : sign.text=[x])
      (hs : Grouped (IsDigit radix) s) : Signed radix sign (x::s) s
  | gap {sign : Sign} {x : Char} {s : List Char} (hx : sign.text=[x])
      (hs : Grouped (IsDigit radix) s) : Signed radix sign (x:: '_'::s) s

theorem sign_char {sign : Sign} {x : Char} (hx : sign.text=[x]) : x = '+' ∨ x = '-' := by
  cases sign with
  | none => cases hx
  | plus =>
    cases hx
    exact .inl rfl
  | minus =>
    cases hx
    exact .inr rfl

theorem sign_ne_gap {sign : Sign} {x : Char} (hx : sign.text=[x]) : x ≠ '_' := by
  obtain rfl|rfl := sign_char hx <;> decide

theorem strip_grouped (h : Grouped (· ≠ '_') s) : ∃ c s',s=c::s' ∧ c ≠ '_' ∧
    strip s=c::strip s' := by
  obtain ⟨c,s',rfl,hc⟩ := h.head
  exact ⟨c,s',rfl,hc,strip_cons hc s'⟩

theorem grouped_tail {c : Char} (h : Grouped (· ≠ '_') (c::s)) (hne : strip s≠[]) :
    Grouped (· ≠ '_') s ∨ ∃ s',s = '_'::s' ∧ Grouped (· ≠ '_') s' := by
  cases h with
  | single => exact absurd rfl hne
  | cons _ hs => exact .inl hs
  | gap _ hs => exact .inr ⟨_,rfl,hs⟩

theorem strip_no_gap : ∀ c∈strip s,c ≠ '_' := by
  intro c hc
  simpa using (List.mem_filter.mp hc).2

/-- A cleaned text is read exactly when the text is digit groups behind at most one sign. -/
theorem reads_strip (hf : ReadsRadix fromStrRadix) (h2 : 2 ≤ radix) (h36 : radix≤36)
    (hsep : Grouped (· ≠ '_') s) (n : ℤ) : fromStrRadix (strip s) radix=some n ↔
      ∃ sign body,Signed radix sign s body ∧ n=sign.apply (value radix body) := by
  rw [hf _ _ _ h2 h36]
  constructor
  · rintro ⟨sign,c,body,hs,hc,hbody,rfl⟩
    have hdigits : ∀ d∈c::body,IsDigit radix d := by
      intro d hd
      obtain rfl|hd := List.mem_cons.mp hd
      · exact hc
      · refine (hbody d hd).resolve_right fun hgap => ?_
        refine strip_no_gap (s := s) d ?_ hgap
        rw [hs]
        exact List.mem_append_right _ (List.mem_cons_of_mem _ hd)
    cases htext : sign.text with
    | nil =>
      obtain rfl : sign=.none := by
        cases sign with
        | none => rfl
        | plus => cases htext
        | minus => cases htext
      change strip s=c::body at hs
      refine ⟨.none,s,.none (hsep.of_strip (by rw [hs]; exact hdigits)),?_⟩
      rw [← value_strip s,hs]
    | cons x xs =>
      obtain rfl : xs=[] := by
        cases sign with
        | none => cases htext
        | plus => exact (List.cons.inj htext).2.symm
        | minus => exact (List.cons.inj htext).2.symm
      obtain ⟨a,s',rfl,ha,hstrip⟩ := strip_grouped hsep
      rw [htext,hstrip] at hs
      obtain ⟨rfl,hs'⟩ := List.cons.inj hs
      replace hs' : strip s'=c::body := hs'
      have hval : value radix s'=value radix (c::body) := by rw [← hs',value_strip]
      obtain h|⟨s'',rfl,h⟩ := grouped_tail hsep (by rw [hs']; exact List.cons_ne_nil _ _)
      · exact ⟨sign,s',.cons htext (h.of_strip (by rw [hs']; exact hdigits)),by rw [hval]⟩
      · refine ⟨sign,s'',.gap htext (h.of_strip ?_),?_⟩
        · rw [← strip_gap,hs']
          exact hdigits
        · rw [← hval]
          rfl
  · rintro ⟨sign,body,hsigned,rfl⟩
    have hread : ∀ {body : List Char},Grouped (IsDigit radix) body → ∃ c rest,
        strip body=c::rest ∧ IsDigit radix c ∧ (∀ d∈rest,IsDigit radix d ∨ d = '_') ∧
        value radix body=value radix (c::rest) := by
      intro body hbody
      have hne := (hbody.mono isDigit_ne).strip_ne_nil
      obtain ⟨c,rest,hrest⟩ := List.exists_cons_of_ne_nil hne
      have hmem := hbody.strip_mem
      rw [hrest] at hmem
      refine ⟨c,rest,hrest,hmem c List.mem_cons_self,?_,by rw [← value_strip body,hrest]⟩
      exact fun d hd => .inl (hmem d (List.mem_cons_of_mem _ hd))
    cases hsigned with
    | none hs =>
      obtain ⟨c,rest,hrest,hc,hall,hval⟩ := hread hs
      exact ⟨.none,c,rest,hrest,hc,hall,by rw [hval]⟩
    | cons hx hs =>
      obtain ⟨c,rest,hrest,hc,hall,hval⟩ := hread hs
      refine ⟨sign,c,rest,?_,hc,hall,by rw [hval]⟩
      rw [strip_cons (sign_ne_gap hx),hrest,hx]
      rfl
    | gap hx hs =>
      obtain ⟨c,rest,hrest,hc,hall,hval⟩ := hread hs
      refine ⟨sign,c,rest,?_,hc,hall,by rw [hval]⟩
      rw [strip_cons (sign_ne_gap hx),strip_gap,hrest,hx]
      rfl

end Reading

end ParseInt
end InterpretThis
