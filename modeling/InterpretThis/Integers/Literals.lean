import InterpretThis.Integers.ParseInt
import InterpretThis.Value.ArithExact
import Mathlib.Data.Bool.AllAny
import Mathlib.Data.List.TakeWhile
import Mathlib.Data.String.Basic

namespace InterpretThis
namespace ParseInt

open Numeral

/-- The letter of a mark in either case. -/
def Mark.Spells (m : Mark) (c : Char) : Prop := c=m.letter ∨ c.toNat+32=m.letter.toNat

/-- What may stand between the sign and the digits, with the radix it leaves. -/
inductive Opening (base : ℤ) : ℕ → List Char → Prop where
  | bare (h : base≠0) : Opening base base.toNat []
  | decimal (h : base=0) : Opening base 10 []
  | marked (m : Mark) {c : Char} (hb : base=0 ∨ base=m.radix) (hc : m.Spells c) :
      Opening base m.radix ['0',c]
  | gap (m : Mark) {c : Char} (hb : base=0 ∨ base=m.radix) (hc : m.Spells c) :
      Opening base m.radix ['0',c,'_']

/-- White space in ASCII. -/
def Space (c : Char) : Prop := c = ' ' ∨ 9 ≤ c.toNat ∧ c.toNat≤13

/-- A leading zero of a decimal literal means zero. -/
def ZeroRule (base : ℤ) (opening body : List Char) : Prop :=
  base=0 → opening=[] → body.head?=some '0' → value 10 body=0

def ValidBase (base : ℤ) : Prop := base=0 ∨ 2≤base ∧ base≤36

/-- The text is an integer literal of the base that denotes `n`. -/
def Denotes (base : ℤ) (s : List Char) (n : ℤ) : Prop :=
  ValidBase base ∧ ∃ (before after opening body : List Char) (sign : Sign) (radix : ℕ),
    (∀ c∈before,Space c) ∧ (∀ c∈after,Space c) ∧
    s=before++(sign.text++(opening++body))++after ∧ Opening base radix opening ∧
    Grouped (IsDigit radix) body ∧ ZeroRule base opening body ∧
    n=sign.apply (value radix body)

section Trimming

variable {p : Char → Bool} {s : List Char}

theorem dropWhile_pass {before : List Char} (hb : ∀ c∈before,p c=true) (hs : ∀ c∈s.head?,p c=false) :
    (before++s).dropWhile p=s := by
  induction before with
  | nil =>
    cases s with
    | nil => rfl
    | cons c s => exact List.dropWhile_cons_of_neg (by simp [hs c rfl])
  | cons b before ih =>
    rw [List.cons_append,List.dropWhile_cons_of_pos (hb b List.mem_cons_self)]
    exact ih fun c hc => hb c (List.mem_cons_of_mem _ hc)

theorem trim_eq {before after : List Char} (hb : ∀ c∈before,isWhitespace c=true)
    (ha : ∀ c∈after,isWhitespace c=true) (hhead : ∀ c∈s.head?,isWhitespace c=false)
    (hlast : ∀ c∈s.getLast?,isWhitespace c=false) (hne : s≠[]) :
    trim (before++s++after)=s := by
  rw [trim,List.append_assoc,dropWhile_pass hb,List.reverse_append,dropWhile_pass,
    List.reverse_reverse]
  · exact fun c hc => ha c (List.mem_reverse.mp hc)
  · rw [List.head?_reverse]
    exact hlast
  · rw [List.head?_append_of_ne_nil _ hne]
    exact hhead

theorem trim_split (s : List Char) : ∃ before after,s=before++trim s++after ∧
    (∀ c∈before,isWhitespace c=true) ∧ ∀ c∈after,isWhitespace c=true := by
  refine ⟨s.takeWhile isWhitespace,
    ((s.dropWhile isWhitespace).reverse.takeWhile isWhitespace).reverse,?_,?_,?_⟩
  · rw [trim,List.append_assoc,← List.reverse_append,List.takeWhile_append_dropWhile,
      List.reverse_reverse,List.takeWhile_append_dropWhile]
  · exact fun c hc => List.mem_takeWhile_imp hc
  · exact fun c hc => List.mem_takeWhile_imp (List.mem_reverse.mp hc)

theorem isWhitespace_ascii {c : Char} (hc : c.toNat<128) : isWhitespace c=true ↔ Space c := by
  have hspace : c = ' ' ↔ c.toNat=32 := Char.toNat_inj.symm
  simp only [isWhitespace,Space,hspace,Bool.or_eq_true,decide_eq_true_eq,beq_iff_eq]
  omega

end Trimming

section Signs

/-- A text without a sign at its front. -/
def Unsigned (s : List Char) : Prop := s.head?≠some '+' ∧ s.head?≠some '-'

theorem splitSign_of {s : List Char} (hs : Unsigned s) (sign : Sign) :
    splitSign (sign.text++s)=(match sign with | .minus => true | _ => false,s) := by
  cases sign with
  | plus => rfl
  | minus => rfl
  | none =>
    change splitSign s=(false,s)
    rw [splitSign.eq_def]
    split
    · exact absurd rfl hs.2
    · exact absurd rfl hs.1
    · rfl

theorem splitSign_text (s : List Char) : ∃ sign : Sign,s=sign.text++(splitSign s).2 ∧
    (splitSign s).1=(match sign with | .minus => true | _ => false) := by
  rw [splitSign.eq_def]
  split
  · exact ⟨.minus,rfl,rfl⟩
  · exact ⟨.plus,rfl,rfl⟩
  · exact ⟨.none,rfl,rfl⟩

end Signs

section Openings

variable {base : Int64} {rest r : List Char} {m : Mark} {c : Char}

theorem stripMark (m : Mark) : stripCi rest ['0',m.letter]=some r ↔
    ∃ c,rest = '0'::c::r ∧ m.Spells c := stripCi_some (by cases m <;> decide)

theorem spells_inj {m' : Mark} (h : m.Spells c) (h' : m'.Spells c) : m=m' := by
  have hcode : ∀ {m : Mark},m.Spells c → c.toNat=m.letter.toNat ∨ c.toNat+32=m.letter.toNat :=
    fun h => h.imp (congrArg Char.toNat) id
  have h := hcode h
  have h' := hcode h'
  have hx : 'x'.toNat=120 := rfl
  have ho : 'o'.toNat=111 := rfl
  have hb : 'b'.toNat=98 := rfl
  cases m <;> cases m' <;> simp only [Mark.letter,hx,ho,hb] at h h' <;> first | rfl | omega

theorem stripMark_none (m' : Mark) (hc : m.Spells c) (hm : m≠m') :
    stripCi ('0'::c::r) ['0',m'.letter]=none := by
  cases h : stripCi ('0'::c::r) ['0',m'.letter] with
  | none => rfl
  | some r' =>
    obtain ⟨c',he,hc'⟩ := (stripMark m').mp h
    cases he
    exact absurd (spells_inj hc hc') hm

/-- A mark that the base allows is taken off. -/
theorem splitPrefix_marked (hb : base.toInt=0 ∨ base.toInt=m.radix) (hc : m.Spells c) :
    splitPrefix base ('0'::c::r)=(m.radix,r) := by
  have hself : stripCi ('0'::c::r) ['0',m.letter]=some r := (stripMark m).mpr ⟨c,rfl,hc⟩
  rw [splitPrefix]
  by_cases h0 : base=0
  · rw [if_pos h0]
    cases m with
    | hex =>
      change stripCi ('0'::c::r) ['0','x']=_ at hself
      rw [hself]
      rfl
    | oct =>
      have hx : stripCi ('0'::c::r) ['0','x']=none := stripMark_none .hex hc (by decide)
      change stripCi ('0'::c::r) ['0','o']=_ at hself
      rw [hx,hself]
      rfl
    | bin =>
      have hx : stripCi ('0'::c::r) ['0','x']=none := stripMark_none .hex hc (by decide)
      have ho : stripCi ('0'::c::r) ['0','o']=none := stripMark_none .oct hc (by decide)
      change stripCi ('0'::c::r) ['0','b']=_ at hself
      rw [hx,ho,hself]
      rfl
  · have hb : base.toInt=m.radix := hb.resolve_left fun h => h0 (Int64.toInt_inj.mp h)
    rw [if_neg h0,hb]
    cases m with
    | hex =>
      change (16,(stripCi ('0'::c::r) ['0','x']).getD _)=_
      rw [show stripCi _ ['0','x']=_ from hself]
      rfl
    | oct =>
      change (8,(stripCi ('0'::c::r) ['0','o']).getD _)=_
      rw [show stripCi _ ['0','o']=_ from hself]
      rfl
    | bin =>
      change (2,(stripCi ('0'::c::r) ['0','b']).getD _)=_
      rw [show stripCi _ ['0','b']=_ from hself]
      rfl

/-- Without an allowed mark nothing is taken off. -/
theorem splitPrefix_bare (h : ∀ (m : Mark) (c : Char) (r : List Char),
    base.toInt=0 ∨ base.toInt=m.radix → m.Spells c → rest ≠ '0'::c::r) :
    splitPrefix base rest=(if base=0 then 10 else base.toInt.toNat,rest) := by
  have hnone : ∀ m : Mark,base.toInt=0 ∨ base.toInt=m.radix →
      stripCi rest ['0',m.letter]=none := by
    intro m hb
    cases hs : stripCi rest ['0',m.letter] with
    | none => rfl
    | some r =>
      obtain ⟨c,he,hc⟩ := (stripMark m).mp hs
      exact absurd he (h m c r hb hc)
  rw [splitPrefix]
  by_cases h0 : base=0
  · have hz : base.toInt=0 := by rw [h0]; rfl
    have hx : stripCi rest ['0','x']=none := hnone .hex (.inl hz)
    have ho : stripCi rest ['0','o']=none := hnone .oct (.inl hz)
    have hb : stripCi rest ['0','b']=none := hnone .bin (.inl hz)
    rw [if_pos h0,if_pos h0,hx,ho,hb]
  · rw [if_neg h0,if_neg h0]
    have hstripped : (if base.toInt.toNat=16 then stripCi rest ['0','x']
        else if base.toInt.toNat=8 then stripCi rest ['0','o']
        else if base.toInt.toNat=2 then stripCi rest ['0','b'] else none)=none := by
      split_ifs with h16 h8 h2
      · exact hnone .hex (.inr (by change _=(16 : ℤ); omega))
      · exact hnone .oct (.inr (by change _=(8 : ℤ); omega))
      · exact hnone .bin (.inr (by change _=(2 : ℤ); omega))
      · rfl
    exact congrArg (fun o : Option (List Char) => (base.toInt.toNat,o.getD rest)) hstripped

def bareRadix (base : Int64) : ℕ := if base=0 then 10 else base.toInt.toNat

theorem splitPrefix_cases (base : Int64) (rest : List Char) :
    (∃ (m : Mark) (c : Char) (r : List Char),(base.toInt=0 ∨ base.toInt=m.radix) ∧ m.Spells c ∧
      rest = '0'::c::r ∧ splitPrefix base rest=(m.radix,r)) ∨
    splitPrefix base rest=(bareRadix base,rest) := by
  by_cases h : ∃ (m : Mark) (c : Char) (r : List Char),
      (base.toInt=0 ∨ base.toInt=m.radix) ∧ m.Spells c ∧ rest = '0'::c::r
  · obtain ⟨m,c,r,hb,hc,rfl⟩ := h
    exact .inl ⟨m,c,r,hb,hc,rfl,splitPrefix_marked hb hc⟩
  · exact .inr (splitPrefix_bare fun m c r hb hc he => h ⟨m,c,r,hb,hc,he⟩)

theorem digit_range {radix : ℕ} (h : IsDigit radix c) :
    48 ≤ c.toNat ∧ c.toNat≤122 := by
  obtain ⟨d,hd,-⟩ := h
  rw [digitValue] at hd
  split_ifs at hd <;> omega

theorem digit_not_space {radix : ℕ} (h : IsDigit radix c) : isWhitespace c=false := by
  have hrange := digit_range h
  rw [Bool.eq_false_iff]
  intro hw
  obtain hspace|hspace := (isWhitespace_ascii (by omega)).mp hw
  · rw [hspace] at hrange
    exact absurd hrange.1 (by decide)
  · omega

theorem spells_not_digit {radix : ℕ} (hc : m.Spells c) (hr : radix=m.radix ∨ radix=10) :
    ¬IsDigit radix c := by
  rintro ⟨d,hd,hlt⟩
  have hcode : c.toNat=m.letter.toNat ∨ c.toNat+32=m.letter.toNat :=
    hc.imp (congrArg Char.toNat) id
  have hx : 'x'.toNat=120 := rfl
  have ho : 'o'.toNat=111 := rfl
  have hb : 'b'.toNat=98 := rfl
  rw [digitValue] at hd
  cases m <;> simp only [Mark.letter,Mark.radix,hx,ho,hb] at hcode hr <;>
    split_ifs at hd <;> have hd := Option.some.inj hd <;> omega

theorem spells_ne_gap (hc : m.Spells c) : c ≠ '_' := by
  rintro rfl
  have hgap : '_'.toNat=95 := rfl
  have hcode : '_'.toNat=m.letter.toNat ∨ '_'.toNat+32=m.letter.toNat :=
    hc.imp (congrArg Char.toNat) id
  have hx : 'x'.toNat=120 := rfl
  have ho : 'o'.toNat=111 := rfl
  have hb : 'b'.toNat=98 := rfl
  cases m <;> simp only [Mark.letter,hx,ho,hb,hgap] at hcode <;> omega

theorem splitPrefix_digits {body : List Char} (h : Grouped (IsDigit (bareRadix base)) body) :
    splitPrefix base body=(bareRadix base,body) := by
  refine splitPrefix_bare fun m c r hb hc he => ?_
  subst he
  have hradix : bareRadix base=m.radix ∨ bareRadix base=10 := by
    rw [bareRadix]
    split_ifs with h0
    · exact .inr rfl
    · have hne : base.toInt≠0 := fun h => h0 (Int64.toInt_inj.mp h)
      exact .inl (by rw [hb.resolve_left hne]; rfl)
  obtain hgap|hdigit := h.second
  · exact spells_ne_gap hc hgap
  · exact spells_not_digit hc hradix hdigit

end Openings

section Grammar

variable (base : Int64) (s : List Char)

/-- What the source is left with once white space, sign and mark are off. -/
def restOf : List Char := (splitSign (trim s)).2

def radixOf : ℕ := (splitPrefix base (restOf s)).1

def digitsOf : List Char := (splitPrefix base (restOf s)).2

def outer (n : ℤ) : ℤ := if (splitSign (trim s)).1 then -n else n

/-- No zero leads the digits of a decimal literal of base 0 but those of zero. -/
def Zeros (body : List Char) : Prop :=
  base=0 → radixOf base s=10 → body.head?=some '0' → value 10 body=0

/-- A mark of the base was taken off. -/
def IsMarked : Prop := digitsOf base s≠restOf s

/-- An underscore stands between the mark and the digits. -/
def GapAfterMark : Prop := ValidBase base.toInt ∧ IsMarked base s ∧
  ∃ body,digitsOf base s = '_'::body ∧ Grouped (IsDigit (radixOf base s)) body

variable {base s}

theorem outer_apply {sign : Sign} (h : (splitSign (trim s)).1=
    (match sign with | .minus => true | _ => false)) (n : ℤ) : outer s n=sign.apply n := by
  rw [outer,h]
  cases sign <;> rfl

/-- A literal between white space comes apart into what the source computes. -/
theorem split_literal {before after opening body : List Char} {sign : Sign} {radix : ℕ}
    (hb : ∀ c∈before,Space c) (ha : ∀ c∈after,Space c)
    (hs : s=before++(sign.text++(opening++body))++after)
    (hopen : opening=[] ∨ opening.head?=some '0') (hbody : Grouped (IsDigit radix) body) :
    restOf s=opening++body ∧ ∀ n,outer s n=sign.apply n := by
  have hspace : ∀ {c : Char},Space c → isWhitespace c=true := by
    intro c hc
    refine (isWhitespace_ascii ?_).mpr hc
    obtain rfl|hc := hc
    · decide
    · omega
  obtain ⟨c,body',hc,hdigit⟩ := hbody.head
  obtain ⟨body'',l,hl,hlast⟩ := hbody.last
  have hfirst : ∀ x∈(opening++body).head?,x = '0' ∨ x=c := by
    intro x hx
    obtain rfl|h0 := hopen
    · rw [hc] at hx
      exact .inr (Option.some.inj hx).symm
    · cases opening with
      | nil => cases h0
      | cons o opening =>
        cases h0
        exact .inl (Option.some.inj hx).symm
  have hunsigned : Unsigned (opening++body) := by
    constructor
    · intro h
      obtain he|he := hfirst '+' h
      · exact absurd he (by decide)
      · exact (isDigit_unsigned c hdigit).1 he.symm
    · intro h
      obtain he|he := hfirst '-' h
      · exact absurd he (by decide)
      · exact (isDigit_unsigned c hdigit).2 he.symm
  have htrim : trim s=sign.text++(opening++body) := by
    rw [hs]
    refine trim_eq (fun c hc => hspace (hb c hc)) (fun c hc => hspace (ha c hc)) ?_ ?_ ?_
    · intro x hx
      cases sign with
      | plus =>
        cases hx
        rfl
      | minus =>
        cases hx
        rfl
      | none =>
        obtain rfl|rfl := hfirst x hx
        · rfl
        · exact digit_not_space hdigit
    · intro x hx
      rw [hl,← List.append_assoc,← List.append_assoc,List.getLast?_concat] at hx
      rw [← Option.some.inj hx]
      exact digit_not_space hlast
    · rw [hl]
      simp
  have hsplit := splitSign_of hunsigned sign
  refine ⟨?_,fun n => outer_apply ?_ n⟩
  · rw [restOf,htrim,hsplit]
  · rw [htrim,hsplit]

theorem split_text {opening body : List Char} {sign : Sign} {radix : ℕ}
    (hs : s=sign.text++(opening++body)) (hopen : opening=[] ∨ opening.head?=some '0')
    (hbody : Grouped (IsDigit radix) body) :
    restOf s=opening++body ∧ ∀ n,outer s n=sign.apply n := by
  have hnone : ∀ c∈([] : List Char),Space c := fun _ h => (nomatch h)
  refine split_literal hnone hnone ?_ hopen hbody
  rw [List.nil_append,List.append_nil]
  exact hs

theorem base_eq_zero : base=0 ↔ base.toInt=0 := Int64.toInt_inj.symm

/-- Python's grammar in terms of what the source computes. -/
theorem denotes_iff (hascii : ∀ c∈s,c.toNat<128) (n : ℤ) : Denotes base.toInt s n ↔
    ValidBase base.toInt ∧
    (Grouped (IsDigit (radixOf base s)) (digitsOf base s) ∧ Zeros base s (digitsOf base s) ∧
        n=outer s (value (radixOf base s) (digitsOf base s)) ∨
      IsMarked base s ∧ ∃ body,digitsOf base s = '_'::body ∧
        Grouped (IsDigit (radixOf base s)) body ∧ n=outer s (value (radixOf base s) body)) := by
  refine and_congr_right fun hvalid => ⟨?_,?_⟩
  · rintro ⟨before,after,opening,body,sign,radix,hb,ha,hs,hopening,hbody,hzero,rfl⟩
    have hopen : opening=[] ∨ opening.head?=some '0' := by
      cases hopening with
      | bare => exact .inl rfl
      | decimal => exact .inl rfl
      | marked => exact .inr rfl
      | gap => exact .inr rfl
    obtain ⟨hrest,houter⟩ := split_literal hb ha hs hopen hbody
    have hplain : opening=[] → radix=bareRadix base →
        Grouped (IsDigit (radixOf base s)) (digitsOf base s) ∧ Zeros base s (digitsOf base s) ∧
        sign.apply (value radix body)=outer s (value (radixOf base s) (digitsOf base s)) := by
      rintro rfl rfl
      have hsplit : splitPrefix base (restOf s)=(bareRadix base,body) := by
        rw [hrest]
        exact splitPrefix_digits hbody
      have hr : radixOf base s=bareRadix base := congrArg Prod.fst hsplit
      have hd : digitsOf base s=body := congrArg Prod.snd hsplit
      rw [hr,hd,houter]
      exact ⟨hbody,fun h0 _ => hzero (base_eq_zero.mp h0) rfl,rfl⟩
    cases hopening with
    | bare h =>
      refine .inl (hplain rfl ?_)
      rw [bareRadix,if_neg fun h0 => h (base_eq_zero.mp h0)]
    | decimal h =>
      refine .inl (hplain rfl ?_)
      rw [bareRadix,if_pos (base_eq_zero.mpr h)]
    | marked m hbase hc =>
      have hsplit : splitPrefix base (restOf s)=(m.radix,body) := by
        rw [hrest]
        exact splitPrefix_marked hbase hc
      have hr : radixOf base s=m.radix := congrArg Prod.fst hsplit
      have hd : digitsOf base s=body := congrArg Prod.snd hsplit
      rw [hr,hd,houter]
      refine .inl ⟨hbody,fun _ h10 => ?_,rfl⟩
      rw [hr] at h10
      cases m <;> cases h10
    | @gap m c hbase hc =>
      have hsplit : splitPrefix base (restOf s)=(m.radix,'_'::body) := by
        rw [hrest]
        exact splitPrefix_marked hbase hc
      have hr : radixOf base s=m.radix := congrArg Prod.fst hsplit
      have hd : digitsOf base s = '_'::body := congrArg Prod.snd hsplit
      rw [hr]
      refine .inr ⟨?_,body,hd,hbody,(houter _).symm⟩
      rw [IsMarked,hd,hrest]
      exact fun h => absurd (List.cons.inj h).1 (by decide)
  · intro h
    obtain ⟨before,after,hs,hb,ha⟩ := trim_split s
    obtain ⟨sign,hsign,hneg⟩ := splitSign_text (trim s)
    have hsp : ∀ c∈before,Space c := fun c hc => (isWhitespace_ascii (hascii c (by
      rw [hs]
      simp [hc]))).mp (hb c hc)
    have hsp' : ∀ c∈after,Space c := fun c hc => (isWhitespace_ascii (hascii c (by
      rw [hs]
      simp [hc]))).mp (ha c hc)
    have htext : ∀ rest,restOf s=rest → s=before++(sign.text++rest)++after := by
      rintro _ rfl
      rw [restOf,← hsign]
      exact hs
    have houter := outer_apply hneg
    obtain ⟨m,c,r,hbase,hc,hrest,hsplit⟩|hsplit := splitPrefix_cases base (restOf s)
    · have hr : radixOf base s=m.radix := congrArg Prod.fst hsplit
      have hd : digitsOf base s=r := congrArg Prod.snd hsplit
      rw [hr,hd] at h
      obtain ⟨hbody,-,rfl⟩|⟨-,body,rfl,hbody,rfl⟩ := h
      · exact ⟨before,after,['0',c],r,sign,m.radix,hsp,hsp',htext _ hrest,
          .marked m hbase hc,hbody,fun _ h => absurd h (List.cons_ne_nil _ _),houter _⟩
      · exact ⟨before,after,['0',c,'_'],body,sign,m.radix,hsp,hsp',htext _ hrest,
          .gap m hbase hc,hbody,fun _ h => absurd h (List.cons_ne_nil _ _),houter _⟩
    · have hr : radixOf base s=bareRadix base := congrArg Prod.fst hsplit
      have hd : digitsOf base s=restOf s := congrArg Prod.snd hsplit
      obtain ⟨hbody,hzero,rfl⟩|⟨hmark,-⟩ := h
      · rw [hr,hd] at hbody
        refine ⟨before,after,[],restOf s,sign,bareRadix base,hsp,hsp',htext _ rfl,?_,hbody,?_,?_⟩
        · rw [bareRadix]
          split_ifs with h0
          · exact .decimal (base_eq_zero.mp h0)
          · exact .bare fun h => h0 (base_eq_zero.mpr h)
        · intro h0 _ hhead
          have h0 := base_eq_zero.mpr h0
          rw [Zeros,hd,hr,bareRadix,if_pos h0] at hzero
          exact hzero h0 rfl hhead
        · rw [houter,hr,hd]
      · exact absurd hd hmark

end Grammar

section Exactness

variable {fromStrRadix : List Char → ℕ → Option ℤ} {pythonStrRepr : List Char → String}
  {base : Int64} {s : List Char}

/-- After the sign or the mark another sign stands before digits of the radix. -/
def SecondSign (base : Int64) (s : List Char) : Prop := ValidBase base.toInt ∧
  ∃ sign body,sign.text≠[] ∧ Signed (radixOf base s) sign (digitsOf base s) body

theorem radixOf_bounds (hvalid : ValidBase base.toInt) :
    2 ≤ radixOf base s ∧ radixOf base s≤36 := by
  rw [radixOf]
  obtain ⟨m,_,_,_,_,_,hsplit⟩|hsplit := splitPrefix_cases base (restOf s)
  · rw [hsplit]
    change 2 ≤ m.radix ∧ m.radix≤36
    cases m <;> decide
  · rw [hsplit]
    change 2≤bareRadix base ∧ bareRadix base≤36
    rw [bareRadix]
    split_ifs with h0
    · decide
    · have hne : base.toInt≠0 := fun h => h0 (base_eq_zero.mpr h)
      have hrange := hvalid.resolve_left hne
      omega

theorem validBase_iff : ValidBase base.toInt ↔ ¬(base≠0 ∧ ¬(2≤base ∧ base≤36)) := by
  have h2 : (2 : Int64)≤base ↔ 2≤base.toInt := Int64.le_iff_toInt_le
  have h36 : base≤36 ↔ base.toInt≤36 := Int64.le_iff_toInt_le
  rw [ValidBase,← base_eq_zero,h2,h36]
  tauto

/-- The test of the source on the cleaned digits of a decimal literal. -/
theorem zeros_iff {body : List Char} (hbody : Grouped (IsDigit (radixOf base s)) body) :
    ¬(base=0 ∧ radixOf base s=10 ∧ 1<(strip body).length ∧ (strip body).head?=some '0' ∧
      (strip body).any (· ≠ '0')) ↔ Zeros base s body := by
  rw [Zeros]
  refine ⟨fun h h0 h10 hhead => ?_,fun h hbad => ?_⟩
  · rw [h10] at hbody
    by_contra hne
    have hdigits := hbody.strip_mem
    obtain ⟨c,body',rfl,hc⟩ := hbody.head
    cases hhead
    rw [← value_strip,value_eq_zero (by decide) hdigits] at hne
    push Not at hne
    obtain ⟨x,hx,hx0⟩ := hne
    rw [strip_cons (by decide)] at hx h
    have hx' := (List.mem_cons.mp hx).resolve_left hx0
    have hpos := List.length_pos_of_mem hx'
    refine h ⟨h0,h10,?_,rfl,?_⟩
    · rw [List.length_cons]
      omega
    · exact List.any_eq_true.mpr ⟨x,hx,by simpa using hx0⟩
  · obtain ⟨h0,h10,-,hhead,hany⟩ := hbad
    rw [h10] at hbody
    have hdigits := hbody.strip_mem
    obtain ⟨c,body',rfl,hc⟩ := hbody.head
    rw [strip_cons (isDigit_ne c hc)] at hhead hany
    have hzero := h h0 h10 hhead
    rw [← value_strip,value_eq_zero (by decide) hdigits,strip_cons (isDigit_ne c hc)] at hzero
    obtain ⟨x,hx,hx0⟩ := List.any_eq_true.mp hany
    exact absurd (hzero x hx) (by simpa using hx0)

theorem strip_signed {radix : ℕ} {sign : Sign} {body : List Char}
    (h : Signed radix sign s body) (hsign : sign.text≠[]) : (strip s).head?≠some '0' := by
  have hne : ∀ {x : Char},sign.text=[x] → x ≠ '0' := by
    intro x hx
    obtain rfl|rfl := sign_char hx <;> decide
  cases h with
  | none => exact absurd rfl hsign
  | cons hx _ =>
    rw [strip_cons (sign_ne_gap hx)]
    exact fun h => hne hx (Option.some.inj h)
  | gap hx _ =>
    rw [strip_cons (sign_ne_gap hx)]
    exact fun h => hne hx (Option.some.inj h)

theorem signed_unsigned {radix : ℕ} {sign : Sign} {body : List Char}
    (h : Signed radix sign s body) (hsign : sign.text=[]) :
    body=s ∧ Grouped (IsDigit radix) s := by
  cases h with
  | none hs => exact ⟨rfl,hs⟩
  | cons hx _ =>
    rw [hx] at hsign
    cases hsign
  | gap hx _ =>
    rw [hx] at hsign
    cases hsign

theorem signed_spaced {radix : ℕ} {sign : Sign} {body : List Char}
    (h : Signed radix sign s body) : Grouped (· ≠ '_') s := by
  cases h with
  | none hs => exact hs.mono isDigit_ne
  | cons hx hs => exact .cons (sign_ne_gap hx) (hs.mono isDigit_ne)
  | gap hx hs => exact .gap (sign_ne_gap hx) (hs.mono isDigit_ne)

variable (fromStrRadix pythonStrRepr) in
theorem parseIntStr_valid (hvalid : ValidBase base.toInt) : ∃ e : EvalError,
    parseIntStr fromStrRadix pythonStrRepr s base=
      match cleanUnderscores (digitsOf base s) with
      | none => .error e
      | some cleaned =>
        if cleaned=[] then .error e
        else if base=0 ∧ radixOf base s=10 ∧ 1<cleaned.length ∧ cleaned.head?=some '0' ∧
            cleaned.any (· ≠ '0') then .error e
        else
          match fromStrRadix cleaned (radixOf base s) with
          | none => .error e
          | some big => .ok (intFromBigint (outer s big)) := by
  rw [parseIntStr,if_neg (validBase_iff.mp hvalid)]
  exact ⟨_,rfl⟩

/-- What the source accepts: digit groups of the radix behind at most one more sign. -/
theorem parseIntStr_ok (hf : ReadsRadix fromStrRadix) (v : Value) :
    parseIntStr fromStrRadix pythonStrRepr s base=.ok v ↔ ValidBase base.toInt ∧
      ∃ sign body,Signed (radixOf base s) sign (digitsOf base s) body ∧
        (sign.text=[] → Zeros base s body) ∧
        v=intFromBigint (outer s (sign.apply (value (radixOf base s) body))) := by
  by_cases hvalid : ValidBase base.toInt
  swap
  · rw [parseIntStr,if_pos (not_not.mp fun h => hvalid (validBase_iff.mpr h))]
    exact iff_of_false (by intro h; cases h) fun h => hvalid h.1
  obtain ⟨e,heq⟩ := parseIntStr_valid fromStrRadix pythonStrRepr (s := s) hvalid
  rw [heq,and_iff_right hvalid]
  obtain ⟨h2,h36⟩ := radixOf_bounds (s := s) hvalid
  have hsome := fun t => cleanUnderscores_some (s := digitsOf base s) (t := t)
  cases hclean : cleanUnderscores (digitsOf base s) with
  | none =>
    refine iff_of_false (by intro h; cases h) ?_
    rintro ⟨sign,body,hsigned,-,-⟩
    have hok := (hsome _).mpr (.inr ⟨signed_spaced hsigned,rfl⟩)
    rw [hclean] at hok
    cases hok
  | some cleaned =>
    simp only
    obtain ⟨hd,rfl⟩|⟨hsep,rfl⟩ := (hsome _).mp hclean
    · rw [if_pos rfl]
      refine iff_of_false (by intro h; cases h) ?_
      rintro ⟨sign,body,hsigned,-,-⟩
      exact (signed_spaced hsigned).ne_nil hd
    rw [if_neg hsep.strip_ne_nil]
    have hread := reads_strip hf h2 h36 hsep
    split_ifs with hzero
    · refine iff_of_false (by intro h; cases h) ?_
      rintro ⟨sign,body,hsigned,hrule,-⟩
      by_cases htext : sign.text=[]
      · obtain ⟨rfl,hs⟩ := signed_unsigned hsigned htext
        exact (zeros_iff hs).mpr (hrule htext) hzero
      · exact strip_signed hsigned htext hzero.2.2.2.1
    · have hrule : ∀ {sign : Sign} {body : List Char},
          Signed (radixOf base s) sign (digitsOf base s) body → sign.text=[] →
          Zeros base s body := by
        intro sign body hsigned htext
        obtain ⟨rfl,hs⟩ := signed_unsigned hsigned htext
        exact (zeros_iff hs).mp hzero
      cases hbig : fromStrRadix (strip (digitsOf base s)) (radixOf base s) with
      | none =>
        refine iff_of_false (by intro h; cases h) ?_
        rintro ⟨sign,body,hsigned,-,-⟩
        have hok := (hread _).mpr ⟨sign,body,hsigned,rfl⟩
        rw [hbig] at hok
        cases hok
      | some big =>
        constructor
        · intro h
          obtain ⟨sign,body,hsigned,rfl⟩ := (hread big).mp hbig
          exact ⟨sign,body,hsigned,hrule hsigned,(Except.ok.inj h).symm⟩
        · rintro ⟨sign,body,hsigned,-,rfl⟩
          have hok := (hread _).mpr ⟨sign,body,hsigned,rfl⟩
          rw [hbig] at hok
          rw [Option.some.inj hok]

end Exactness

def markedText (mark : Mark) (n : ℤ) : List Char :=
  (if n<0 then ['-'] else [])++ '0'::mark.letter::Nat.toDigits mark.radix n.natAbs

section Texts

variable {fromStrRadix : List Char → ℕ → Option ℤ} {pythonStrRepr : List Char → String}
  {base : Int64} {s : List Char}

theorem sign_none {sign : Sign} (h : sign.text=[]) : sign=.none := by
  cases sign with
  | none => rfl
  | plus => cases h
  | minus => cases h

theorem parse_grouped (hf : ReadsRadix fromStrRadix) (hvalid : ValidBase base.toInt)
    (hd : Grouped (IsDigit (radixOf base s)) (digitsOf base s))
    (hz : Zeros base s (digitsOf base s)) : parseIntStr fromStrRadix pythonStrRepr s base=
      .ok (intFromBigint (outer s (value (radixOf base s) (digitsOf base s)))) :=
  (parseIntStr_ok hf _).mpr ⟨hvalid,.none,_,.none hd,fun _ => hz,rfl⟩

def signOf (n : ℤ) : Sign := if n<0 then .minus else .none

theorem signOf_text (n : ℤ) : (signOf n).text=if n<0 then ['-'] else [] := by
  rw [signOf]
  split <;> rfl

theorem signOf_apply (n : ℤ) : (signOf n).apply n.natAbs=n := by
  rw [signOf]
  split_ifs with h
  · change -(n.natAbs : ℤ)=n
    omega
  · change (n.natAbs : ℤ)=n
    omega

theorem mark_bounds (mark : Mark) : 1 < mark.radix ∧ mark.radix≤16 := by
  cases mark <;> decide

theorem parse_decimal (hf : ReadsRadix fromStrRadix) (n : ℤ) :
    parseIntStr fromStrRadix pythonStrRepr (decimalText n) 10=.ok (intFromBigint n) := by
  have hbody : Grouped (IsDigit (bareRadix 10)) (Nat.toDigits 10 n.natAbs) :=
    grouped_toDigits (by decide) (by decide) n.natAbs
  have htext : decimalText n=(signOf n).text++([]++Nat.toDigits 10 n.natAbs) := by
    rw [signOf_text]
    rfl
  obtain ⟨hrest,houter⟩ := split_text htext (.inl rfl) hbody
  have hsplit : splitPrefix 10 (restOf (decimalText n))=(10,Nat.toDigits 10 n.natAbs) := by
    rw [hrest]
    exact splitPrefix_digits hbody
  have hr : radixOf 10 (decimalText n)=10 := congrArg Prod.fst hsplit
  have hd : digitsOf 10 (decimalText n)=Nat.toDigits 10 n.natAbs := congrArg Prod.snd hsplit
  rw [parse_grouped hf (.inr (by decide)) (by rwa [hr,hd]) fun h => absurd h (by decide),hr,hd,
    houter,value_toDigits (by decide) (by decide),signOf_apply]

theorem parse_marked (hf : ReadsRadix fromStrRadix) (mark : Mark) (n : ℤ)
    (hvalid : ValidBase base.toInt) (hb : base.toInt=0 ∨ base.toInt=mark.radix) :
    parseIntStr fromStrRadix pythonStrRepr (markedText mark n) base=.ok (intFromBigint n) := by
  obtain ⟨h1,h16⟩ := mark_bounds mark
  have hbody := grouped_toDigits h1 h16 n.natAbs
  have htext : markedText mark n=
      (signOf n).text++(['0',mark.letter]++Nat.toDigits mark.radix n.natAbs) := by
    rw [signOf_text]
    rfl
  obtain ⟨hrest,houter⟩ := split_text htext (.inr rfl) hbody
  have hsplit : splitPrefix base (restOf (markedText mark n))=
      (mark.radix,Nat.toDigits mark.radix n.natAbs) := by
    rw [hrest]
    exact splitPrefix_marked hb (.inl rfl)
  have hr : radixOf base (markedText mark n)=mark.radix := congrArg Prod.fst hsplit
  have hd : digitsOf base (markedText mark n)=Nat.toDigits mark.radix n.natAbs :=
    congrArg Prod.snd hsplit
  have hz : Zeros base (markedText mark n) (digitsOf base (markedText mark n)) := by
    intro _ h10
    rw [hr] at h10
    cases mark <;> cases h10
  rw [parse_grouped hf hvalid (by rwa [hr,hd]) hz,hr,hd,houter,value_toDigits h1 h16,signOf_apply]

/-- The builtins refuse what does not fit an `i64`. -/
theorem baseText_iff (mark : Mark) (n : ℤ) (t : List Char) :
    baseText mark (intFromBigint n)=.ok t ↔ t=markedText mark n ∧ -2^63≤n ∧ n<2^63 := by
  rw [intFromBigint]
  cases h : fitsI64 n with
  | none =>
    refine iff_of_false (by intro h; cases h) ?_
    rintro ⟨-,hrange⟩
    have hout := (fitsI64_none n).mp h
    omega
  | some i =>
    have hi := PyInt.fitsI64_value n i h
    have hneg : i<0 ↔ i.toInt<0 := Int64.lt_iff_toInt_lt
    have htext : baseText mark (.int i)=.ok (markedText mark n) := by
      change Except.ok ((if i<0 then ['-'] else [])++
        '0'::mark.letter::Nat.toDigits mark.radix i.toInt.natAbs)=_
      simp only [hneg,hi]
      rfl
    have hlow := i.le_toInt
    have hhigh := i.toInt_lt
    change baseText mark (.int i)=_ ↔ _
    rw [htext]
    constructor
    · intro he
      exact ⟨(Except.ok.inj he).symm,by omega,by omega⟩
    · rintro ⟨rfl,-⟩
      rfl

end Texts

section Statement

variable (fromStrRadix : List Char → ℕ → Option ℤ) (pythonStrRepr : List Char → String)
  (base : Int64) (s : List Char)

/-- `int(text, base)` gives the integer that the text denotes, and an error for any other text. -/
def ReadsLiterals : Prop := ∀ v,parseIntStr fromStrRadix pythonStrRepr s base=.ok v ↔
  ∃ n,Denotes base.toInt s n ∧ v=intFromBigint n

variable {fromStrRadix pythonStrRepr base s}

theorem signed_head {radix : ℕ} {sign : Sign} {body : List Char} (h : Signed radix sign s body)
    (hsign : sign.text≠[]) : ∃ x s',s=x::s' ∧ (x = '+' ∨ x = '-') := by
  cases h with
  | none => exact absurd rfl hsign
  | cons hx _ => exact ⟨_,_,rfl,sign_char hx⟩
  | gap hx _ => exact ⟨_,_,rfl,sign_char hx⟩

theorem readsLiterals_iff (hf : ReadsRadix fromStrRadix) (hascii : ∀ c∈s,c.toNat<128) :
    ReadsLiterals fromStrRadix pythonStrRepr base s ↔
      ¬SecondSign base s ∧ ¬GapAfterMark base s := by
  constructor
  · intro h
    constructor
    · rintro ⟨hvalid,sign,body,hsign,hsigned⟩
      obtain ⟨n,hn,-⟩ := (h _).mp ((parseIntStr_ok hf _).mpr
        ⟨hvalid,sign,body,hsigned,fun ht => absurd ht hsign,rfl⟩)
      obtain ⟨x,s',hx,hchar⟩ := signed_head hsigned hsign
      obtain ⟨-,⟨hd,-,-⟩|⟨-,_,hd,-⟩⟩ := (denotes_iff hascii n).mp hn
      · obtain ⟨c,_,hc,hdigit⟩ := hd.head
        rw [hx] at hc
        obtain rfl := (List.cons.inj hc).1
        have hunsigned := isDigit_unsigned x hdigit
        exact hchar.elim hunsigned.1 hunsigned.2
      · rw [hx] at hd
        obtain rfl := (List.cons.inj hd).1
        revert hchar
        decide
    · rintro ⟨hvalid,hmark,body,hd,hbody⟩
      have hn := (denotes_iff hascii _).mpr ⟨hvalid,.inr ⟨hmark,body,hd,hbody,rfl⟩⟩
      obtain ⟨-,sign,_,hsigned,-⟩ := (parseIntStr_ok hf _).mp ((h _).mpr ⟨_,hn,rfl⟩)
      obtain ⟨c,_,hc,hne⟩ := (signed_spaced hsigned).head
      rw [hd] at hc
      exact hne (List.cons.inj hc).1.symm
  · rintro ⟨hsecond,hgap⟩ v
    constructor
    · intro hv
      obtain ⟨hvalid,sign,body,hsigned,hzero,rfl⟩ := (parseIntStr_ok hf v).mp hv
      by_cases hsign : sign.text=[]
      · obtain ⟨rfl,hd⟩ := signed_unsigned hsigned hsign
        obtain rfl := sign_none hsign
        exact ⟨_,(denotes_iff hascii _).mpr ⟨hvalid,.inl ⟨hd,hzero rfl,rfl⟩⟩,rfl⟩
      · exact absurd ⟨hvalid,sign,body,hsign,hsigned⟩ hsecond
    · rintro ⟨n,hn,rfl⟩
      obtain ⟨hvalid,⟨hd,hzero,rfl⟩|⟨hmark,body,hd,hbody,-⟩⟩ := (denotes_iff hascii n).mp hn
      · exact parse_grouped hf hvalid hd hzero
      · exact absurd ⟨hvalid,hmark,body,hd,hbody⟩ hgap

/-- `int` reads Python's literals exactly but for a second sign and an underscore after a mark; the
texts of the builtins are read back, and `hex`, `oct` and `bin` write `i64` integers only. -/
theorem parse_exact (hf : ReadsRadix fromStrRadix) (pythonStrRepr : List Char → String)
    (base : Int64) (hascii : ∀ c∈s,c.toNat<128) :
    (ReadsLiterals fromStrRadix pythonStrRepr base s ↔
      ¬SecondSign base s ∧ ¬GapAfterMark base s) ∧
    (∀ n,parseIntStr fromStrRadix pythonStrRepr (decimalText n) 10=.ok (intFromBigint n)) ∧
    (∀ mark n,
      parseIntStr fromStrRadix pythonStrRepr (markedText mark n) 0=.ok (intFromBigint n) ∧
      parseIntStr fromStrRadix pythonStrRepr (markedText mark n) (Int64.ofNat mark.radix)=
        .ok (intFromBigint n)) ∧
    ∀ mark n t,baseText mark (intFromBigint n)=.ok t ↔
      t=markedText mark n ∧ -2^63≤n ∧ n<2^63 := by
  refine ⟨readsLiterals_iff hf hascii,parse_decimal hf,fun mark n => ⟨?_,?_⟩,baseText_iff⟩
  · exact parse_marked hf mark n (.inl rfl) (.inl rfl)
  · have hbase : (Int64.ofNat mark.radix).toInt=mark.radix := by cases mark <;> decide
    refine parse_marked hf mark n (.inr ?_) (.inr hbase)
    cases mark <;> decide

end Statement

section Instance

instance (radix : ℕ) (c : Char) : Decidable (IsDigit radix c) :=
  decidable_of_iff ((digitValue c).any (fun d => decide (d < radix))=true) (by
    rw [IsDigit,Option.any_eq_true]
    simp only [decide_eq_true_eq])

/-- Digits of a radix with underscores after the first of them. -/
def natFromStr (s : List Char) (radix : ℕ) : Option ℤ :=
  match s with
  | [] => none
  | c::body =>
    if IsDigit radix c ∧ body.all (fun d => decide (IsDigit radix d ∨ d= '_')) then
      some (value radix (c::body))
    else none

/-- A parser that reads as the library's does. -/
def intFromStr (s : List Char) (radix : ℕ) : Option ℤ :=
  match s with
  | '-'::rest => (natFromStr rest radix).map (-·)
  | '+'::rest => natFromStr rest radix
  | rest => natFromStr rest radix

theorem natFromStr_some (s : List Char) (radix : ℕ) (n : ℤ) : natFromStr s radix=some n ↔
    ∃ c body,s=c::body ∧ IsDigit radix c ∧ (∀ d∈body,IsDigit radix d ∨ d = '_') ∧
      n=value radix (c::body) := by
  cases s with
  | nil => exact ⟨fun h => (nomatch h),fun ⟨_,_,h,_⟩ => (nomatch h)⟩
  | cons c body =>
    simp only [natFromStr,List.all_eq_true,decide_eq_true_eq]
    constructor
    · intro h
      split_ifs at h with hd
      exact ⟨c,body,rfl,hd.1,hd.2,(Option.some.inj h).symm⟩
    · rintro ⟨_,_,he,hc,hd,rfl⟩
      cases he
      rw [if_pos ⟨hc,hd⟩]

theorem intFromStr_reads : ReadsRadix intFromStr := by
  intro s radix n _ _
  rw [intFromStr.eq_def]
  constructor
  · intro h
    split at h
    · obtain ⟨m,hm,rfl⟩ := Option.map_eq_some_iff.mp h
      obtain ⟨c,body,rfl,hc,hd,rfl⟩ := (natFromStr_some _ _ _).mp hm
      exact ⟨.minus,c,body,rfl,hc,hd,rfl⟩
    · obtain ⟨c,body,rfl,hc,hd,rfl⟩ := (natFromStr_some _ _ _).mp h
      exact ⟨.plus,c,body,rfl,hc,hd,rfl⟩
    · obtain ⟨c,body,rfl,hc,hd,rfl⟩ := (natFromStr_some _ _ _).mp h
      exact ⟨.none,c,body,rfl,hc,hd,rfl⟩
  · rintro ⟨sign,c,body,rfl,hc,hd,rfl⟩
    have hnat := (natFromStr_some (c::body) radix _).mpr ⟨c,body,rfl,hc,hd,rfl⟩
    cases sign with
    | minus =>
      change (natFromStr (c::body) radix).map (-·)=_
      rw [hnat]
      rfl
    | plus => exact hnat
    | none =>
      have hunsigned := isDigit_unsigned c hc
      change (match c::body with
        | '-'::rest => (natFromStr rest radix).map (-·)
        | '+'::rest => natFromStr rest radix
        | rest => natFromStr rest radix)=_
      split
      · rename_i he
        exact absurd (List.cons.inj he).1 hunsigned.2
      · rename_i he
        exact absurd (List.cons.inj he).1 hunsigned.1
      · exact hnat

/-- `int("0x1_f", 0)` is 31. -/
theorem parse_exact_hex : ReadsLiterals intFromStr (fun _ => "") 0 "0x1_f".toList := by
  refine ((parse_exact intFromStr_reads (fun _ => "") 0
    (List.all_iff_forall_prop.mp (by decide))).1).mpr ⟨?_,?_⟩
  · rintro ⟨-,sign,body,hsign,hsigned⟩
    obtain ⟨x,_,hx,hchar⟩ := signed_head hsigned hsign
    have hd : digitsOf 0 "0x1_f".toList="1_f".toList := by decide
    rw [hd] at hx
    obtain rfl := (List.cons.inj hx).1
    revert hchar
    decide
  · rintro ⟨-,-,body,hd,-⟩
    have hdigits : digitsOf 0 "0x1_f".toList="1_f".toList := by decide
    rw [hdigits] at hd
    exact absurd (List.cons.inj hd).1 (by decide)

/-- `int("--5")` is 5. -/
theorem double_sign_read : ¬∀ fromStrRadix,ReadsRadix fromStrRadix →
    ∀ (base : Int64) (s : List Char),(∀ c∈s,c.toNat<128) →
      ReadsLiterals fromStrRadix (fun _ => "") base s := by
  intro h
  have hall := h intFromStr intFromStr_reads 10 "--5".toList
    (List.all_iff_forall_prop.mp (by decide))
  refine ((readsLiterals_iff intFromStr_reads
    (List.all_iff_forall_prop.mp (by decide))).mp hall).1 ⟨.inr (by decide),.minus,['5'],?_,?_⟩
  · exact List.cons_ne_nil _ _
  · have hd : digitsOf 10 "--5".toList=['-','5'] := by decide
    rw [hd]
    exact .cons rfl (.single (by decide))

end Instance

end ParseInt
end InterpretThis
