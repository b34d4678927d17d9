import InterpretThis.Value.Exact
import InterpretThis.Value.Hash

namespace InterpretThis

open Pyhash

namespace F64

theorem eq_key (f g : F64) (h : f.eq g=true) : f.isNan=false ∧ g.isNan=false ∧ f.key=g.key := by
  unfold F64.eq at h
  simp only [Bool.and_eq_true,Bool.not_eq_true',decide_eq_true_eq] at h
  exact ⟨h.1.1,h.1.2,h.2⟩

theorem eq_of_key (f g : F64) (hf : f.isNan=false) (hg : g.isNan=false) (h : f.key=g.key) :
    f.eq g=true := by
  unfold F64.eq
  rw [hf,hg,decide_eq_true h]
  rfl

theorem mag_of_key (f g : F64) (h : f.key=g.key) : f.mag=g.mag := by
  rw [← key_natAbs f,h,key_natAbs g]

theorem isFinite_of_key (f g : F64) (h : f.key=g.key) : f.isFinite=g.isFinite := by
  unfold isFinite
  rw [mag_of_key f g h]

end F64

section Numbers

theorem hashDouble_congr (f g : F64) (h : f.eq g=true) : hashDouble f=hashDouble g := by
  obtain ⟨_,_,hk⟩ := F64.eq_key f g h
  have hfin := F64.isFinite_of_key f g hk
  cases hf : f.isFinite with
  | true =>
    rw [hashDouble_eq f hf,hashDouble_eq g (hfin.symm.trans hf),(F64.toRat_eq f g).mpr hk]
  | false =>
    have hinf : f.isInfinite=g.isInfinite := by
      unfold F64.isInfinite
      rw [F64.mag_of_key f g hk]
    unfold hashDouble
    rw [if_pos hf,if_pos (hfin.symm.trans hf),hinf,hk]

theorem hashDouble_zero (f : F64) (h : f.eq F64.zero=true) : hashDouble f=0 := by
  rw [hashDouble_congr f _ h]
  decide

theorem finalizeHash_ne (h : Int) (hb : h.natAbs<2^62) : finalizeHash h≠-1 := by
  unfold finalizeHash
  intro he
  have ht := congrArg Int64.toInt he
  by_cases h1 : h=-1
  · rw [if_pos h1] at ht
    exact absurd ht (by decide)
  · rw [if_neg h1,Int64.toInt_ofInt_of_le (by omega) (by omega)] at ht
    exact h1 (ht.trans (by decide))

theorem numericHash_ne (q : Rat) : numericHash q≠-1 := by
  have hval : ((Mersenne.absResidue q).val : Int)<2^61 := by
    have : NeZero Mersenne.modulus := ⟨Mersenne.modulus_pos.ne'⟩
    have hv := ZMod.val_lt (Mersenne.absResidue q)
    have hm : Mersenne.modulus<2^61 := by decide
    omega
  unfold numericHash
  refine finalizeHash_ne _ ?_
  have hinf : hashInf=314159 := rfl
  rw [hinf]
  split <;> split <;> omega

theorem hashDouble_ne (f : F64) : hashDouble f≠-1 := by
  cases hf : f.isFinite with
  | true =>
    rw [hashDouble_eq f hf]
    exact numericHash_ne _
  | false =>
    unfold hashDouble
    rw [if_pos hf]
    split
    · split <;> decide
    · decide

theorem hashComplex_real (re im : F64) (h : im.eq F64.zero=true) :
    hashComplex re im=hashDouble re := by
  unfold hashComplex
  rw [hashDouble_zero im h]
  have hz : (hashDouble re).toUInt64+1000003*(0 : Int64).toUInt64=(hashDouble re).toUInt64 := by
    exact UInt64.add_zero _
  rw [hz]
  have hne : (hashDouble re).toUInt64≠18446744073709551615 := by
    intro he
    refine hashDouble_ne re ?_
    exact congrArg UInt64.toInt64 he
  rw [if_neg hne]
  exact Int64.toInt64_toUInt64 _

end Numbers

/-- What a number stands for; infinite decimals equal no float. -/
inductive Meaning where
  | rational (q : Rat)
  | infinite (key : Int)
  | plane (re im : Int)
  | infiniteDecimal (kind : DecimalKind)

namespace Number

def hash : Number → Int64
  | int n => hashInteger n
  | float f => hashDouble f
  | complex re im => hashComplex re im
  | decimal d => decimalHash d.digits
  | fraction q => fractionHash q

def floatMeaning (f : F64) : Option Meaning :=
  if f.isNan then none
  else if f.isFinite then some (.rational f.toRat) else some (.infinite f.key)

def meaning : Number → Option Meaning
  | int n => some (.rational n)
  | float f => floatMeaning f
  | complex re im =>
    if im.eq F64.zero then floatMeaning re
    else if re.isNan||im.isNan then none else some (.plane re.key im.key)
  | decimal d =>
    if d.kind.isSpecial then (if d.kind.isNan then none else some (.infiniteDecimal d.kind))
    else some (.rational d.digits.toRat)
  | fraction q => some (.rational q)

/-- The int converts to the float, which is not its value. -/
def Misread (n : Int) (f : F64) : Prop :=
  f.eq (F64.ofInt n)=true ∧ ¬(f.isFinite=true ∧ (n : Rat)=f.toRat)

/-- The scale of a decimal is not the least `i64`, which the hash cannot negate. -/
def HasScale : Number → Prop
  | decimal d => d.digits.scale≠Int64.minValue
  | _ => True

/-- No int is misread as a float between the two. -/
def Clean : Number → Number → Prop
  | int n,float f => ¬Misread n f
  | float f,int n => ¬Misread n f
  | int n,complex re _ => ¬Misread n re
  | complex re _,int n => ¬Misread n re
  | x,y => x.HasScale ∧ y.HasScale

theorem floatMeaning_congr (f g : F64) (h : f.eq g=true) :
    floatMeaning f=floatMeaning g ∧ floatMeaning f≠none := by
  obtain ⟨hf,hg,hk⟩ := F64.eq_key f g h
  have hfin := F64.isFinite_of_key f g hk
  unfold floatMeaning
  rw [hf,hg,hfin,hk,(F64.toRat_eq f g).mpr hk]
  refine ⟨rfl,?_⟩
  cases g.isFinite <;> exact Option.some_ne_none _

theorem floatMeaning_int (n : Int) (f : F64) (h : f.eq (F64.ofInt n)=true) (hm : ¬Misread n f) :
    f.isFinite=true ∧ (n : Rat)=f.toRat ∧ floatMeaning f=some (.rational n) := by
  have hx : f.isFinite=true ∧ (n : Rat)=f.toRat := by
    by_contra hc
    exact hm ⟨h,hc⟩
  refine ⟨hx.1,hx.2,?_⟩
  rw [floatMeaning,F64.isNan_of_finite f hx.1,hx.1,hx.2]
  rfl

theorem floatToBigrational_some (f : F64) (q : Rat) (h : floatToBigrational f=some q) :
    floatMeaning f=some (.rational q) := by
  rw [floatToBigrational_eq] at h
  cases hf : f.isFinite with
  | true =>
    rw [hf] at h
    rw [floatMeaning,F64.isNan_of_finite f hf,hf,← Option.some_inj.mp h]
    rfl
  | false =>
    rw [hf] at h
    cases h

theorem decimalToBigrational_some (d : PyDecimal) (q : Rat) (h : decimalToBigrational d=some q) :
    d.digits.toRat=q := by
  rw [decimalToBigrational_eq] at h
  cases hd : d.materialises with
  | true =>
    rw [hd] at h
    exact Option.some_inj.mp h
  | false =>
    rw [hd] at h
    cases h

theorem sameRational_some (x y : Option Rat) (h : sameRational x y=true) :
    ∃q, x=some q ∧ y=some q := by
  cases x with
  | none => cases h
  | some p =>
    cases y with
    | none => cases h
    | some q =>
      have hq := of_decide_eq_true h
      exact ⟨p,rfl,by rw [hq]⟩

theorem meaning_plain (d : PyDecimal) (hd : d.kind.isSpecial=false) :
    (decimal d).meaning=some (.rational d.digits.toRat) := by
  rw [meaning,hd]
  rfl

theorem meaning_real (re im : F64) (h : im.eq F64.zero=true) :
    (complex re im).meaning=floatMeaning re := if_pos h

/-- Equality within one meaning. -/
def Alike (x y : Number) : Prop := x.meaning=y.meaning ∧ x.meaning≠none

theorem Alike.symm {x y : Number} (h : Alike x y) : Alike y x := by
  refine ⟨h.1.symm,?_⟩
  rw [← h.1]
  exact h.2

theorem Alike.trans {x y z : Number} (h : Alike x y) (h' : Alike y z) : Alike x z :=
  ⟨h.1.trans h'.1,h.2⟩

theorem alike_of_some {x y : Number} {v : Meaning} (hx : x.meaning=some v) (hy : y.meaning=some v) :
    Alike x y := by
  refine ⟨hx.trans hy.symm,?_⟩
  rw [hx]
  exact Option.some_ne_none v

section Reading

variable (n : Int) (f : F64) (d : PyDecimal) (q : Rat)

theorem alike_int_float (h : f.eq (F64.ofInt n)=true) (hm : ¬Misread n f) :
    Alike (int n) (float f) := alike_of_some rfl (floatMeaning_int n f h hm).2.2

theorem alike_int_complex (im : F64) (h : (f.eq (F64.ofInt n)&&im.eq F64.zero)=true)
    (hm : ¬Misread n f) : Alike (int n) (complex f im) := by
  rw [Bool.and_eq_true] at h
  exact alike_of_some rfl ((meaning_real f im h.2).trans (floatMeaning_int n f h.1 hm).2.2)

theorem alike_int_decimal (h : (!d.kind.isSpecial&&decide (d.digits.toRat=n))=true) :
    Alike (int n) (decimal d) := by
  rw [Bool.and_eq_true,Bool.not_eq_true',decide_eq_true_eq] at h
  refine alike_of_some rfl ?_
  rw [meaning_plain d h.1,h.2]

theorem alike_float_complex (re im : F64) (h : (re.eq f&&im.eq F64.zero)=true) :
    Alike (float f) (complex re im) := by
  rw [Bool.and_eq_true] at h
  have hc := floatMeaning_congr re f h.1
  exact (show Alike (complex re im) (float f) by
    unfold Alike
    rw [meaning_real re im h.2]
    exact hc).symm

theorem alike_float_decimal (h : (!d.kind.isSpecial&&
    sameRational (decimalToBigrational d) (floatToBigrational f))=true) :
    Alike (float f) (decimal d) := by
  rw [Bool.and_eq_true,Bool.not_eq_true'] at h
  obtain ⟨r,hd,hf⟩ := sameRational_some _ _ h.2
  refine alike_of_some (floatToBigrational_some f r hf) ?_
  rw [meaning_plain d h.1,decimalToBigrational_some d r hd]

theorem alike_float_fraction (h : decide (floatToBigrational f=some q)=true) :
    Alike (float f) (fraction q) :=
  alike_of_some (floatToBigrational_some f q (of_decide_eq_true h)) rfl

theorem alike_decimal_fraction (hd : d.kind.isSpecial=false)
    (h : decide (decimalToBigrational d=some q)=true) : Alike (decimal d) (fraction q) := by
  refine alike_of_some (meaning_plain d hd) ?_
  rw [decimalToBigrational_some d q (of_decide_eq_true h)]
  rfl

end Reading

theorem alike_complex (re im re' im' : F64) (h : (re.eq re'&&im.eq im')=true) :
    Alike (complex re im) (complex re' im') := by
  rw [Bool.and_eq_true] at h
  obtain ⟨hi,hi',hki⟩ := F64.eq_key im im' h.2
  obtain ⟨hr,hr',hkr⟩ := F64.eq_key re re' h.1
  have hz : im.eq F64.zero=im'.eq F64.zero := by
    unfold F64.eq
    rw [hi,hi',hki]
  simp only [Alike,meaning,hz]
  cases im'.eq F64.zero with
  | true => exact floatMeaning_congr re re' h.1
  | false =>
    rw [hr,hr',hi,hi',hkr,hki]
    exact ⟨rfl,Option.some_ne_none _⟩

theorem alike_decimal (d d' : PyDecimal) (h : decimalsEqual d d'=true) :
    Alike (decimal d) (decimal d') := by
  unfold decimalsEqual at h
  by_cases hs : (d.kind.isSpecial||d'.kind.isSpecial)=true
  · rw [if_pos hs] at h
    have hkind : ∃k : DecimalKind, k.isSpecial=true ∧ k.isNan=false ∧ d.kind=k ∧ d'.kind=k := by
      split at h
      · cases h
      · rw [Bool.or_eq_true,Bool.and_eq_true,Bool.and_eq_true,beq_iff_eq,beq_iff_eq,beq_iff_eq,
          beq_iff_eq] at h
        cases h with
        | inl h => exact ⟨.posInf,rfl,rfl,h⟩
        | inr h => exact ⟨.negInf,rfl,rfl,h⟩
    obtain ⟨k,hk,hn,he,he'⟩ := hkind
    have hm : ∀x : PyDecimal, x.kind=k → (decimal x).meaning=some (.infiniteDecimal k) := by
      intro x hx
      rw [meaning,hx,hk,hn]
      rfl
    exact alike_of_some (hm d he) (hm d' he')
  · rw [if_neg hs,decide_eq_true_eq] at h
    rw [Bool.or_eq_true,not_or,Bool.not_eq_true,Bool.not_eq_true] at hs
    refine alike_of_some (meaning_plain d hs.1) ?_
    rw [meaning_plain d' hs.2,h]

/-- The fraction zero against an infinite or NaN decimal, which the fraction slot reads as zero. -/
def ZeroSpecial (x y : Number) : Prop := ∃d, x=.fraction 0 ∧ y=.decimal d ∧ d.kind.isSpecial=true

theorem special_zero (d : PyDecimal) (hd : d.kind.isSpecial=true) : d.digits.toRat=0 := by
  have hz : d.digits.mantissa=0 := by
    refine d.placeholder ?_
    intro hk
    rw [hk] at hd
    cases hd
  rw [BigDecimal.toRat,hz,Int.cast_zero,zero_mul]

/-- Where no int is misread, equal numbers have one meaning. -/
theorem equal_alike (x y : Number) (h : x.equal y=true) (hc : x.Clean y) :
    Alike x y ∨ ZeroSpecial x y := by
  cases x with
  | int n =>
    left
    cases y with
    | int m =>
      cases of_decide_eq_true h
      exact alike_of_some rfl rfl
    | float f => exact alike_int_float n f h hc
    | complex re im => exact alike_int_complex n re im h hc
    | decimal d => exact alike_int_decimal n d h
    | fraction q =>
      cases of_decide_eq_true h
      exact alike_of_some rfl rfl
  | float f =>
    left
    cases y with
    | int m => exact (alike_int_float m f h hc).symm
    | float g => exact floatMeaning_congr f g h
    | complex re im => exact alike_float_complex f re im h
    | decimal d => exact alike_float_decimal f d h
    | fraction q => exact alike_float_fraction f q h
  | complex re im =>
    left
    cases y with
    | int m => exact (alike_int_complex m re im h hc).symm
    | float g => exact (alike_float_complex g re im h).symm
    | complex re' im' => exact alike_complex re im re' im' h
    | decimal d => cases h
    | fraction q => cases h
  | decimal d =>
    left
    cases y with
    | int m => exact (alike_int_decimal m d h).symm
    | float g => exact (alike_float_decimal g d h).symm
    | complex re im => cases h
    | decimal d' => exact alike_decimal d d' h
    | fraction q =>
      have h' := Bool.and_eq_true_iff.mp h
      exact alike_decimal_fraction d q (by simpa using h'.1) h'.2
  | fraction q =>
    cases y with
    | int m =>
      cases of_decide_eq_true h
      exact .inl (alike_of_some rfl rfl)
    | float g => exact .inl (alike_float_fraction g q h).symm
    | complex re im => cases h
    | decimal d =>
      cases hd : d.kind.isSpecial with
      | true =>
        right
        refine ⟨d,?_,rfl,hd⟩
        rw [← decimalToBigrational_some d q (of_decide_eq_true h),special_zero d hd]
      | false => exact .inl (alike_decimal_fraction d q hd h).symm
    | fraction q' =>
      cases of_decide_eq_true h
      exact .inl (alike_of_some rfl rfl)

section Hash

theorem floatMeaning_inv (f : F64) (v : Meaning) (h : floatMeaning f=some v) :
    f.isNan=false ∧ ((f.isFinite=true ∧ v=.rational f.toRat) ∨
      (f.isFinite=false ∧ f.isInfinite=true ∧ v=.infinite f.key)) := by
  unfold floatMeaning at h
  cases hn : f.isNan with
  | true =>
    rw [hn] at h
    cases h
  | false =>
    rw [hn] at h
    refine ⟨rfl,?_⟩
    cases hf : f.isFinite with
    | true =>
      rw [hf] at h
      exact .inl ⟨rfl,(Option.some_inj.mp h).symm⟩
    | false =>
      rw [hf] at h
      refine .inr ⟨rfl,?_,(Option.some_inj.mp h).symm⟩
      unfold F64.isNan at hn
      unfold F64.isFinite at hf
      have h1 := of_decide_eq_false hn
      have h2 := of_decide_eq_false hf
      exact decide_eq_true (by omega)

def infiniteHash (k : Int) : Int64 := Int64.ofInt (if 0<k then hashInf else -hashInf)

theorem floatMeaning_hash (f : F64) (v : Meaning) (h : floatMeaning f=some v) :
    (∀q, v=.rational q → hashDouble f=numericHash q) ∧
      ∀k, v=.infinite k → hashDouble f=infiniteHash k := by
  obtain ⟨_,⟨hf,hv⟩|⟨hf,hi,hv⟩⟩ := floatMeaning_inv f v h
  · subst hv
    constructor
    · intro q hq
      cases hq
      exact hashDouble_eq f hf
    · intro k hk
      cases hk
  · subst hv
    constructor
    · intro q hq
      cases hq
    · intro k hk
      cases hk
      unfold hashDouble
      rw [if_pos hf,if_pos hi]
      rfl

theorem complex_meaning_inv (re im : F64) (v : Meaning) (h : (complex re im).meaning=some v) :
    (im.eq F64.zero=true ∧ floatMeaning re=some v) ∨
      (re.isNan=false ∧ im.isNan=false ∧ v=.plane re.key im.key) := by
  unfold meaning at h
  cases hz : im.eq F64.zero with
  | true =>
    simp only [hz] at h
    exact .inl ⟨rfl,h⟩
  | false =>
    simp only [hz] at h
    cases hr : re.isNan with
    | true =>
      rw [hr] at h
      cases h
    | false =>
      cases hi : im.isNan with
      | true =>
        rw [hr,hi] at h
        cases h
      | false =>
        rw [hr,hi] at h
        exact .inr ⟨rfl,rfl,(Option.some_inj.mp h).symm⟩

theorem decimal_meaning_inv (d : PyDecimal) (v : Meaning) (h : (decimal d).meaning=some v) :
    (d.kind.isSpecial=false ∧ v=.rational d.digits.toRat) ∨
      (d.kind.isSpecial=true ∧ d.kind.isNan=false ∧ v=.infiniteDecimal d.kind) := by
  unfold meaning at h
  cases hs : d.kind.isSpecial with
  | false =>
    simp only [hs] at h
    exact .inl ⟨rfl,(Option.some_inj.mp h).symm⟩
  | true =>
    simp only [hs] at h
    cases hn : d.kind.isNan with
    | true =>
      rw [hn] at h
      cases h
    | false =>
      rw [hn] at h
      exact .inr ⟨rfl,rfl,(Option.some_inj.mp h).symm⟩

theorem special_hash (d : PyDecimal) (hd : d.kind.isSpecial=true)
    (hs : d.digits.scale≠Int64.minValue) : decimalHash d.digits=numericHash 0 := by
  rw [decimalHash_eq d.digits hs,special_zero d hd]

theorem plane_inv (x : Number) (a b : Int) (h : x.meaning=some (.plane a b)) :
    ∃re im : F64, x=.complex re im ∧ re.isNan=false ∧ im.isNan=false ∧ re.key=a ∧ im.key=b := by
  have real : ∀f, floatMeaning f≠some (.plane a b) := by
    intro f hf
    obtain ⟨_,⟨_,hv⟩|⟨_,_,hv⟩⟩ := floatMeaning_inv f _ hf
    · cases hv
    · cases hv
  cases x with
  | int n => cases h
  | float f => exact absurd h (real f)
  | complex re im =>
    obtain ⟨_,hm⟩|⟨hr,hi,hv⟩ := complex_meaning_inv re im _ h
    · exact absurd hm (real re)
    · have ⟨ha,hb⟩ := Meaning.plane.inj hv
      exact ⟨re,im,rfl,hr,hi,ha.symm,hb.symm⟩
  | decimal d =>
    obtain ⟨_,hv⟩|⟨_,_,hv⟩ := decimal_meaning_inv d _ h
    · cases hv
    · cases hv
  | fraction q => cases h

theorem infiniteDecimal_inv (x : Number) (k : DecimalKind)
    (h : x.meaning=some (.infiniteDecimal k)) :
    ∃d, x=.decimal d ∧ d.kind=k ∧ k.isSpecial=true ∧ k.isNan=false := by
  have real : ∀f, floatMeaning f≠some (.infiniteDecimal k) := by
    intro f hf
    obtain ⟨_,⟨_,hv⟩|⟨_,_,hv⟩⟩ := floatMeaning_inv f _ hf
    · cases hv
    · cases hv
  cases x with
  | int n => cases h
  | float f => exact absurd h (real f)
  | complex re im =>
    obtain ⟨_,hm⟩|⟨_,_,hv⟩ := complex_meaning_inv re im _ h
    · exact absurd hm (real re)
    · cases hv
  | decimal d =>
    obtain ⟨_,hv⟩|⟨hd,hn,hv⟩ := decimal_meaning_inv d _ h
    · cases hv
    · cases hv
      exact ⟨d,rfl,rfl,hd,hn⟩
  | fraction q => cases h

/-- A number that stands for a rational or an infinity is a real number or has its hash. -/
theorem float_part (x : Number) (v : Meaning) (hx : x.meaning=some v)
    (hv : (∃q, v=.rational q) ∨ ∃k, v=.infinite k) :
    (∃f, floatMeaning f=some v ∧ x.hash=hashDouble f) ∨
      ∃q, v=.rational q ∧ (x.HasScale → x.hash=numericHash q) := by
  cases x with
  | int n =>
    cases hx
    exact .inr ⟨n,rfl,fun _ => hashInteger_eq n⟩
  | float f => exact .inl ⟨f,hx,rfl⟩
  | complex re im =>
    obtain ⟨hz,hm⟩|⟨_,_,hp⟩ := complex_meaning_inv re im v hx
    · exact .inl ⟨re,hm,hashComplex_real re im hz⟩
    · subst hp
      obtain ⟨q,hq⟩|⟨k,hk⟩ := hv
      · cases hq
      · cases hk
  | decimal d =>
    obtain ⟨_,hd⟩|⟨_,_,hd⟩ := decimal_meaning_inv d v hx
    · exact .inr ⟨_,hd,fun hs => decimalHash_eq d.digits hs⟩
    · subst hd
      obtain ⟨q,hq⟩|⟨k,hk⟩ := hv
      · cases hq
      · cases hk
  | fraction q =>
    cases hx
    exact .inr ⟨q,rfl,fun _ => fractionHash_eq q⟩

theorem rational_hash (x : Number) (q : Rat) (hx : x.meaning=some (.rational q))
    (hs : x.HasScale) : x.hash=numericHash q := by
  obtain ⟨f,hf,hh⟩|⟨r,hr,hh⟩ := float_part x _ hx (.inl ⟨q,rfl⟩)
  · exact hh.trans ((floatMeaning_hash f _ hf).1 q rfl)
  · rw [hh hs,Meaning.rational.inj hr]

theorem infinite_hash (x : Number) (k : Int) (hx : x.meaning=some (.infinite k)) :
    x.hash=infiniteHash k := by
  obtain ⟨f,hf,hh⟩|⟨r,hr,_⟩ := float_part x _ hx (.inr ⟨k,rfl⟩)
  · exact hh.trans ((floatMeaning_hash f _ hf).2 k rfl)
  · cases hr

theorem hash_alike (x y : Number) (h : Alike x y) (hx : x.HasScale) (hy : y.HasScale) :
    x.hash=y.hash := by
  obtain ⟨v,hv⟩ := Option.ne_none_iff_exists'.mp h.2
  have hv' := h.1.symm.trans hv
  cases v with
  | rational q => exact (rational_hash x q hv hx).trans (rational_hash y q hv' hy).symm
  | infinite k => exact (infinite_hash x k hv).trans (infinite_hash y k hv').symm
  | plane a b =>
    obtain ⟨re,im,rfl,hr,hi,hkr,hki⟩ := plane_inv x a b hv
    obtain ⟨re',im',rfl,hr',hi',hkr',hki'⟩ := plane_inv y a b hv'
    change hashComplex re im=hashComplex re' im'
    unfold hashComplex
    rw [hashDouble_congr re re' (F64.eq_of_key re re' hr hr' (hkr.trans hkr'.symm)),
      hashDouble_congr im im' (F64.eq_of_key im im' hi hi' (hki.trans hki'.symm))]
  | infiniteDecimal k =>
    obtain ⟨d,rfl,hk,hsp,_⟩ := infiniteDecimal_inv x k hv
    obtain ⟨d',rfl,hk',_,_⟩ := infiniteDecimal_inv y k hv'
    exact (special_hash d (by rw [hk,hsp]) hx).trans (special_hash d' (by rw [hk',hsp]) hy).symm

theorem clean_scale (x y : Number) (h : x.Clean y) : x.HasScale ∧ y.HasScale := by
  cases x <;> cases y <;> first | exact h | exact ⟨trivial,trivial⟩

theorem equal_hash_number (x y : Number) (h : x.equal y=true) (hc : x.Clean y) :
    x.hash=y.hash := by
  have hs := clean_scale x y hc
  cases equal_alike x y h hc with
  | inl ha => exact hash_alike x y ha hs.1 hs.2
  | inr hz =>
    obtain ⟨d,rfl,rfl,hd⟩ := hz
    exact (fractionHash_eq 0).trans (special_hash d hd hs.2).symm

end Hash

section Clashes

/-- Kinds that the slots do not compare by value. -/
def Unread : Number → Number → Prop
  | complex _ _,decimal _ => True
  | complex _ _,fraction _ => True
  | decimal d,float _ => d.materialises=false
  | decimal d,fraction _ => d.materialises=false
  | _,_ => False

/-- Two numbers of one value that the slots tell apart. -/
def Clash (x y : Number) : Prop :=
  (x.meaning=y.meaning ∧ (Unread x y ∨ Unread y x)) ∨ ZeroSpecial x y ∨ ZeroSpecial y x

theorem float_equal (f g : F64) (h : floatMeaning f=floatMeaning g) (hn : floatMeaning f≠none) :
    f.eq g=true := by
  obtain ⟨v,hv⟩ := Option.ne_none_iff_exists'.mp hn
  obtain ⟨hf,hf'⟩ := floatMeaning_inv f v hv
  obtain ⟨hg,hg'⟩ := floatMeaning_inv g v (h.symm.trans hv)
  refine F64.eq_of_key f g hf hg ?_
  obtain ⟨_,hf'⟩|⟨_,_,hf'⟩ := hf'
  · obtain ⟨_,hg'⟩|⟨_,_,hg'⟩ := hg'
    · exact (F64.toRat_eq f g).mp (Meaning.rational.inj (hf'.symm.trans hg'))
    · cases hf'.symm.trans hg'
  · obtain ⟨_,hg'⟩|⟨_,_,hg'⟩ := hg'
    · cases hf'.symm.trans hg'
    · exact Meaning.infinite.inj (hf'.symm.trans hg')

theorem int_equal (n : Int) (f : F64) (h : floatMeaning f=some (.rational n)) :
    f.eq (F64.ofInt n)=true := by
  obtain ⟨_,⟨hf,hv⟩|⟨_,_,hv⟩⟩ := floatMeaning_inv f _ h
  · exact (F64.eq_ofInt n f hf).mpr (F64.ofInt_exact n f hf (Meaning.rational.inj hv))
  · cases hv

theorem exact_of_meaning (x : Number) (q : Rat) (h : x.meaning=some (.rational q)) :
    x.exact=some q ∨ ∃re im : F64, x=.complex re im ∧ im.eq F64.zero=true ∧
      floatMeaning re=some (.rational q) := by
  cases x with
  | int n =>
    cases h
    exact .inl rfl
  | float f =>
    obtain ⟨_,⟨hf,hv⟩|⟨_,_,hv⟩⟩ := floatMeaning_inv f _ h
    · left
      rw [exact,if_pos hf,Meaning.rational.inj hv]
    · cases hv
  | complex re im =>
    obtain ⟨hz,hm⟩|⟨_,_,hv⟩ := complex_meaning_inv re im _ h
    · exact .inr ⟨re,im,rfl,hz,hm⟩
    · cases hv
  | decimal d =>
    obtain ⟨hd,hv⟩|⟨_,_,hv⟩ := decimal_meaning_inv d _ h
    · left
      rw [exact,hd,Meaning.rational.inj hv]
      rfl
    · cases hv
  | fraction r =>
    cases h
    exact .inl rfl

theorem unread_of_unscaled (x y : Number) (h : x.Unscaled y) : Unread x y ∨ Unread y x := by
  cases x <;> cases y <;> first | exact .inl h | exact .inr h

theorem zero_keys (f g : F64) (hf : f.eq F64.zero=true) (hg : g.eq F64.zero=true) :
    f.eq g=true := by
  obtain ⟨hn,_,hk⟩ := F64.eq_key f _ hf
  obtain ⟨hn',_,hk'⟩ := F64.eq_key g _ hg
  exact F64.eq_of_key f g hn hn' (hk.trans hk'.symm)

/-- A real complex number against a number of its rational value. -/
theorem real_complex_equal (re im : F64) (y : Number) (q : Rat) (hz : im.eq F64.zero=true)
    (hm : floatMeaning re=some (.rational q)) (hy : y.meaning=some (.rational q))
    (hu : ¬Unread (complex re im) y) :
    (complex re im).equal y=true ∧ y.equal (complex re im)=true := by
  cases y with
  | int n =>
    have hn : q=n := (Meaning.rational.inj (Option.some_inj.mp hy)).symm
    rw [hn] at hm
    have h := int_equal n re hm
    exact ⟨Bool.and_eq_true_iff.mpr ⟨h,hz⟩,Bool.and_eq_true_iff.mpr ⟨h,hz⟩⟩
  | float g =>
    have h := float_equal re g (hm.trans hy.symm) (by rw [hm]; exact Option.some_ne_none _)
    exact ⟨Bool.and_eq_true_iff.mpr ⟨h,hz⟩,Bool.and_eq_true_iff.mpr ⟨h,hz⟩⟩
  | complex re' im' =>
    obtain ⟨hz',hm'⟩|⟨_,_,hv⟩ := complex_meaning_inv re' im' _ hy
    · have h := float_equal re re' (hm.trans hm'.symm) (by rw [hm]; exact Option.some_ne_none _)
      refine ⟨Bool.and_eq_true_iff.mpr ⟨h,zero_keys im im' hz hz'⟩,?_⟩
      exact Bool.and_eq_true_iff.mpr ⟨(F64.eq_comm re' re).trans h,zero_keys im' im hz' hz⟩
    · cases hv
  | decimal d => exact absurd trivial hu
  | fraction r => exact absurd trivial hu

theorem infinite_equal (x y : Number) (k : Int) (hx : x.meaning=some (.infinite k))
    (hy : y.meaning=some (.infinite k)) : x.equal y=true := by
  have part : ∀z : Number, z.meaning=some (.infinite k) → (∃f, z=.float f ∧
      floatMeaning f=some (.infinite k)) ∨ ∃re im, z=.complex re im ∧ im.eq F64.zero=true ∧
        floatMeaning re=some (.infinite k) := by
    intro z hz
    cases z with
    | int n => cases hz
    | float f => exact .inl ⟨f,rfl,hz⟩
    | complex re im =>
      obtain ⟨h0,hm⟩|⟨_,_,hv⟩ := complex_meaning_inv re im _ hz
      · exact .inr ⟨re,im,rfl,h0,hm⟩
      · cases hv
    | decimal d =>
      obtain ⟨_,hv⟩|⟨_,_,hv⟩ := decimal_meaning_inv d _ hz
      · cases hv
      · cases hv
    | fraction q => cases hz
  have key : ∀f g, floatMeaning f=some (.infinite k) → floatMeaning g=some (.infinite k) →
      f.eq g=true := fun f g hf hg =>
    float_equal f g (hf.trans hg.symm) (by rw [hf]; exact Option.some_ne_none _)
  obtain ⟨f,rfl,hf⟩|⟨re,im,rfl,hz,hf⟩ := part x hx
  · obtain ⟨g,rfl,hg⟩|⟨re',im',rfl,hz',hg⟩ := part y hy
    · exact key f g hf hg
    · exact Bool.and_eq_true_iff.mpr ⟨key re' f hg hf,hz'⟩
  · obtain ⟨g,rfl,hg⟩|⟨re',im',rfl,hz',hg⟩ := part y hy
    · exact Bool.and_eq_true_iff.mpr ⟨key re g hf hg,hz⟩
    · exact Bool.and_eq_true_iff.mpr ⟨key re re' hf hg,zero_keys im im' hz hz'⟩

/-- Numbers of one meaning are equal unless they clash. -/
theorem alike_equal (x y : Number) (h : Alike x y) (hc : ¬Clash x y) : x.equal y=true := by
  have hu : ¬(Unread x y ∨ Unread y x) := fun hu => hc (.inl ⟨h.1,hu⟩)
  obtain ⟨v,hv⟩ := Option.ne_none_iff_exists'.mp h.2
  have hv' := h.1.symm.trans hv
  cases v with
  | rational q =>
    obtain hx|⟨re,im,rfl,hz,hm⟩ := exact_of_meaning x q hv
    · obtain hy|⟨re,im,rfl,hz,hm⟩ := exact_of_meaning y q hv'
      · refine (equal_exact x y q q hx hy).mpr (.inl ⟨rfl,?_⟩)
        exact fun hs => hu (unread_of_unscaled x y hs)
      · exact (real_complex_equal re im x q hz hm hv (fun hn => hu (.inr hn))).2
    · exact (real_complex_equal re im y q hz hm hv' (fun hn => hu (.inl hn))).1
  | infinite k => exact infinite_equal x y k hv hv'
  | plane a b =>
    obtain ⟨re,im,rfl,hr,hi,hkr,hki⟩ := plane_inv x a b hv
    obtain ⟨re',im',rfl,hr',hi',hkr',hki'⟩ := plane_inv y a b hv'
    exact Bool.and_eq_true_iff.mpr ⟨F64.eq_of_key re re' hr hr' (hkr.trans hkr'.symm),
      F64.eq_of_key im im' hi hi' (hki.trans hki'.symm)⟩
  | infiniteDecimal k =>
    obtain ⟨d,rfl,hk,hsp,hn⟩ := infiniteDecimal_inv x k hv
    obtain ⟨d',rfl,hk',_,_⟩ := infiniteDecimal_inv y k hv'
    change decimalsEqual d d'=true
    unfold decimalsEqual
    rw [hk,hk']
    cases k with
    | posInf => rfl
    | negInf => rfl
    | normal => cases hsp
    | negZero => cases hsp
    | nan => cases hn

/-- Two numbers equal to a third are equal to each other, unless they clash. -/
theorem equal_of_common (x y z : Number) (hx : x.equal z=true) (hy : y.equal z=true)
    (cx : x.Clean z) (cy : y.Clean z) (hc : ¬Clash x y) : x.equal y=true := by
  obtain hax|⟨d,rfl,rfl,hd⟩ := equal_alike x z hx cx
  · obtain hay|⟨d,rfl,rfl,hd⟩ := equal_alike y z hy cy
    · exact alike_equal x y (hax.trans hay.symm) hc
    · -- `x` has the meaning of an infinite decimal, so it clashes with the fraction zero.
      obtain ⟨v,hv⟩ := Option.ne_none_iff_exists'.mp hax.2
      obtain ⟨hs,_⟩|⟨_,_,hk⟩ := decimal_meaning_inv d v (hax.1.symm.trans hv)
      · rw [hs] at hd
        cases hd
      · subst hk
        obtain ⟨d',rfl,hk',hsp,_⟩ := infiniteDecimal_inv x _ hv
        exact absurd (.inr (.inr ⟨d',rfl,rfl,by rw [hk',hsp]⟩)) hc
  · obtain hay|⟨d',rfl,_,_⟩ := equal_alike y _ hy cy
    · obtain ⟨v,hv⟩ := Option.ne_none_iff_exists'.mp hay.2
      obtain ⟨hs,_⟩|⟨_,_,hk⟩ := decimal_meaning_inv d v (hay.1.symm.trans hv)
      · rw [hs] at hd
        cases hd
      · subst hk
        obtain ⟨d',rfl,hk',hsp,_⟩ := infiniteDecimal_inv y _ hv
        exact absurd (.inr (.inl ⟨d',rfl,rfl,by rw [hk',hsp]⟩)) hc
    · change decide ((0 : Rat)=0)=true
      exact decide_eq_true rfl

end Clashes

end Number

end InterpretThis
