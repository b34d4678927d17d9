import InterpretThis.Value.Tower

namespace InterpretThis

open Pyhash

section Materialised

def PyDecimal.materialises (d : PyDecimal) : Bool :=
  decide (d.digits.scale.toInt.natAbs≤4294967295)

theorem decimalToBigrational_eq (d : PyDecimal) :
    decimalToBigrational d=if d.materialises then some d.digits.toRat else none := by
  have hsmall : d.materialises=decide (d.digits.scale.toInt.natAbs≤4294967295) := rfl
  rw [hsmall]
  unfold decimalToBigrational wordOfScale BigDecimal.toRat
  by_cases hs : 0≤d.digits.scale.toInt
  · rw [if_pos hs]
    by_cases hb : d.digits.scale.toInt≤4294967295
    · have hn : d.digits.scale.toInt.natAbs≤4294967295 := by omega
      rw [if_pos ⟨hs,hb⟩,if_pos (decide_eq_true hn)]
      have he : -d.digits.scale.toInt=-(d.digits.scale.toInt.toNat : Int) := by omega
      rw [he,zpow_neg,zpow_natCast]
      rfl
    · have hn : ¬d.digits.scale.toInt.natAbs≤4294967295 := by omega
      rw [if_neg (fun h => hb h.2),if_neg (by simpa using hn)]
      rfl
  · rw [if_neg hs]
    by_cases hm : d.digits.scale=Int64.minValue
    · rw [hm,if_neg (by decide),if_neg (by decide)]
      rfl
    · have hneg := toInt_neg_scale d.digits.scale hm
      rw [hneg]
      by_cases hb : -d.digits.scale.toInt≤4294967295
      · have hn : d.digits.scale.toInt.natAbs≤4294967295 := by omega
        rw [if_pos ⟨by omega,hb⟩,if_pos (decide_eq_true hn)]
        obtain ⟨e,he⟩ := Int.eq_ofNat_of_zero_le (show 0≤-d.digits.scale.toInt by omega)
        rw [he,zpow_natCast]
        rfl
      · have hn : ¬d.digits.scale.toInt.natAbs≤4294967295 := by omega
        rw [if_neg (fun h => hb h.2),if_neg (by simpa using hn)]
        rfl

theorem shift_zpow (x : Rat) (e : Int) :
    (if 0≤e then x*2^e.toNat else x/2^(-e).toNat)=x*(2 : Rat)^e := by
  by_cases he : 0≤e
  · obtain ⟨k,hk⟩ := Int.eq_ofNat_of_zero_le he
    rw [if_pos he,hk,zpow_natCast]
    rfl
  · obtain ⟨k,hk⟩ := Int.eq_ofNat_of_zero_le (show 0≤-e by omega)
    have hneg : e=-(k : Int) := by omega
    rw [if_neg he,hk,hneg,zpow_neg,zpow_natCast]
    rfl

theorem grid_zpow : ((F64.grid : Nat) : Rat)=(2 : Rat)^(1074 : Int) := by
  rw [F64.grid_def,Nat.cast_pow,Nat.cast_ofNat]
  exact (zpow_natCast (2 : Rat) 1074).symm

theorem integerDecode_eq (f : F64) :
    (((integerDecode f).1*f.sign : Int) : Rat)*(2 : Rat)^(integerDecode f).2=f.toRat := by
  have h2 : (2 : Rat)≠0 := by norm_num
  have hgrid := grid_zpow
  rw [F64.toRat,hgrid,div_eq_mul_inv,← zpow_neg]
  by_cases hsmall : f.mag<2^52
  · have he : f.mag/2^52=0 := Nat.div_eq_of_lt hsmall
    have hd : integerDecode f=(f.mag*2,0-1075) := by
      unfold integerDecode
      rw [he,Nat.mod_eq_of_lt hsmall]
      rfl
    have hz : (2 : Rat)^(0-1075 : Int)=2⁻¹*(2 : Rat)^(-1074 : Int) := by
      rw [← zpow_neg_one,← zpow_add₀ h2]
      norm_num
    rw [hd,hz,F64.units,if_pos hsmall]
    generalize (2 : Rat)^(-1074 : Int)=g
    push_cast
    ring
  · have hpos : 1≤f.mag/2^52 := by omega
    have hd : integerDecode f=(f.mag%2^52+2^52,((f.mag/2^52 : Nat) : Int)-1075) := by
      unfold integerDecode
      exact Prod.ext (if_neg (by omega)) rfl
    have hz : (2 : Rat)^(((f.mag/2^52 : Nat) : Int)-1075)=
        2^(f.mag/2^52-1)*(2 : Rat)^(-1074 : Int) := by
      rw [← zpow_natCast,← zpow_add₀ h2]
      congr 1
      omega
    rw [hd,hz,F64.units,if_neg hsmall]
    generalize (2 : Rat)^(-1074 : Int)=g
    generalize f.mag%2^52=r
    generalize f.mag/2^52-1=e
    push_cast
    ring

theorem floatToBigrational_eq (f : F64) :
    floatToBigrational f=if f.isFinite then some f.toRat else none := by
  unfold floatToBigrational
  cases hf : f.isFinite with
  | false => rfl
  | true =>
    rw [if_pos rfl,if_pos rfl,← integerDecode_eq f,← shift_zpow]

end Materialised

section Order

theorem dispatchLt_slot (a b : Value) (x y : Number) (ha : a.number=some x) (hb : b.number=some y) :
    dispatchLt a b=slotLt a b := by
  cases a <;> cases ha <;> cases b <;> cases hb <;> rw [dispatchLt] <;> rfl

variable {a b : Value} {r : Bool}

theorem slotLt_of_some (h : ltSlot a a b=some (.ok r)) : slotLt a b=.ok r := by
  simp only [slotLt,h]

theorem slotLt_of_none (h : ltSlot a a b=none) (h' : ltSlot b a b=some (.ok r)) :
    slotLt a b=.ok r := by
  simp only [slotLt,h,h']

theorem asBigint_int (a : Value) (n : Int) (ha : a.number=some (.int n)) : a.asBigint=some n :=
  int_cases (P := fun a n => a.asBigint=some n) (fun _ => rfl) (fun _ => rfl) (fun _ => rfl) a n ha

theorem intLt_int (a b : Value) (n m : Int) (ha : a.number=some (.int n))
    (hb : b.number=some (.int m)) : intLt a b=some (.ok (decide (n < m))) := by
  refine int_cases (P := fun b m => intLt a b=some (.ok (decide (n < m)))) ?_ ?_ ?_ b m hb
  all_goals
    intro y
    unfold intLt
    rw [asBigint_int a n ha]
    rfl

theorem intLt_float (a : Value) (n : Int) (f : F64) (ha : a.number=some (.int n)) :
    intLt a (.float f)=some (.ok ((F64.ofInt n).lt f)) := by
  unfold intLt
  rw [asBigint_int a n ha]
  rfl

theorem slotLt_int (a b : Value) (n m : Int) (ha : a.number=some (.int n))
    (hb : b.number=some (.int m)) : slotLt a b=.ok (decide (n < m)) := by
  have hint := intLt_int a b n m ha hb
  cases a with
  | bool x =>
    cases ha
    cases b with
    | bool y =>
      cases hb
      refine slotLt_of_some ?_
      change some (Except.ok (decide ((boolI64 x).toInt<(boolI64 y).toInt)))=_
      rw [boolI64_toInt,boolI64_toInt]
    | int j =>
      cases hb
      refine slotLt_of_some ?_
      change some (Except.ok (decide ((boolI64 x).toInt<j.toInt)))=_
      rw [boolI64_toInt]
    | bigInt j =>
      cases hb
      exact slotLt_of_none rfl hint
    | _ => cases hb
  | int i => exact slotLt_of_some hint
  | bigInt i => exact slotLt_of_some hint
  | _ => cases ha

theorem slotLt_int_float (a : Value) (n : Int) (f : F64) (ha : a.number=some (.int n)) :
    slotLt a (.float f)=.ok ((F64.ofInt n).lt f) := by
  have hint := intLt_float a n f ha
  cases a with
  | bool x =>
    cases ha
    refine slotLt_of_some ?_
    change some (Except.ok ((F64.ofInt (boolI64 x).toInt).lt f))=_
    rw [boolI64_toInt]
  | int i => exact slotLt_of_some hint
  | bigInt i => exact slotLt_of_some hint
  | _ => cases ha

theorem slotLt_float_int (f : F64) (b : Value) (m : Int) (hb : b.number=some (.int m)) :
    slotLt (.float f) b=.ok (f.lt (F64.ofInt m)) := by
  refine slotLt_of_some ?_
  refine int_cases (P := fun b m => ltSlot (.float f) (.float f) b=some (.ok (f.lt (F64.ofInt m))))
    ?_ (fun _ => rfl) (fun _ => rfl) b m hb
  intro y
  rw [ofInt_boolInt]
  rfl

section Mixed

variable (lhs rhs : Value)

theorem decimalLt_plain (p q : Rat) (hl : (decimalOperandKind lhs).isSpecial=false)
    (hr : (decimalOperandKind rhs).isSpecial=false)
    (hm : ((isDecimal lhs&&isFloatOrFraction rhs)||(isDecimal rhs&&isFloatOrFraction lhs))=false)
    (hp : decimalToBigdecimal lhs=some p) (hq : decimalToBigdecimal rhs=some q) :
    decimalLt lhs rhs=some (.ok (decide (p<q))) := by
  unfold decimalLt
  simp only [hl,hr,hm,hp,hq]
  rfl

theorem decimalLt_mixed (hl : (decimalOperandKind lhs).isSpecial=false)
    (hr : (decimalOperandKind rhs).isSpecial=false)
    (hm : ((isDecimal lhs&&isFloatOrFraction rhs)||(isDecimal rhs&&isFloatOrFraction lhs))=true) :
    decimalLt lhs rhs=some (.ok (towerLess lhs rhs)) := by
  unfold decimalLt
  simp only [hl,hr,hm]
  rfl

theorem fractionLt_plain (p q : Rat)
    (hm : ((isFraction lhs&&isFloatOrDecimal rhs)||(isFraction rhs&&isFloatOrDecimal lhs))=false)
    (hp : fractionToBigrational lhs=some p) (hq : fractionToBigrational rhs=some q) :
    fractionLt lhs rhs=some (.ok (decide (p<q))) := by
  unfold fractionLt
  simp only [hm,hp,hq]
  rfl

theorem fractionLt_mixed
    (hm : ((isFraction lhs&&isFloatOrDecimal rhs)||(isFraction rhs&&isFloatOrDecimal lhs))=true) :
    fractionLt lhs rhs=some (.ok (towerLess lhs rhs)) := by
  unfold fractionLt
  simp only [hm]
  rfl

end Mixed

theorem tower_finite (a : Value) (x : Number) (ha : a.number=some x) (hx : x.exact≠none) :
    isNanFloat a=false ∧ towerRank a=0 := by
  cases a with
  | float f =>
    cases ha
    have hf : f.isFinite=true := by
      by_contra h
      exact hx (if_neg h)
    have hinf : f.isInfinite=false := by
      unfold F64.isInfinite
      unfold F64.isFinite at hf
      have := of_decide_eq_true hf
      exact decide_eq_false (by omega)
    refine ⟨F64.isNan_of_finite f hf,?_⟩
    change (if f.isInfinite then _ else _)=_
    rw [hinf]
    rfl
  | _ => exact ⟨rfl,rfl⟩

end Order

namespace Number

/-- The value that the exact comparisons build, when they can build it. -/
def materialised : Number → Option Rat
  | int n => some n
  | float f => floatToBigrational f
  | complex _ _ => none
  | decimal d => decimalToBigrational d
  | fraction q => some q

def materialisedLess (x y : Number) : Bool := lessRational x.materialised y.materialised

/-- What the slots answer for two finite real numbers. -/
def less : Number → Number → Bool
  | int n,int m => decide (n < m)
  | int n,float f => (F64.ofInt n).lt f
  | float f,int n => f.lt (F64.ofInt n)
  | float f,float g => f.lt g
  | int n,decimal d => decide ((n : Rat)<d.digits.toRat)
  | decimal d,int n => decide (d.digits.toRat<(n : Rat))
  | decimal d,decimal d' => decide (d.digits.toRat<d'.digits.toRat)
  | x,y => materialisedLess x y

end Number

section Order

theorem exactRational_materialised (a : Value) (x : Number) (ha : a.number=some x) :
    exactRational a=x.materialised := by
  cases x with
  | int n =>
    refine int_cases (P := fun a n => exactRational a=some (n : Rat))
      (fun _ => rfl) (fun _ => rfl) (fun _ => rfl) a n ha
  | float f =>
    cases number_float a f ha
    rfl
  | complex re im =>
    cases number_complex a re im ha
    rfl
  | decimal d =>
    cases number_decimal a d ha
    rfl
  | fraction q =>
    cases number_fraction a q ha
    rfl

theorem towerLess_number (a b : Value) (x y : Number) (ha : a.number=some x) (hb : b.number=some y)
    (hx : x.exact≠none) (hy : y.exact≠none) : towerLess a b=x.materialisedLess y := by
  have ⟨hna,hra⟩ := tower_finite a x ha hx
  have ⟨hnb,hrb⟩ := tower_finite b y hb hy
  unfold towerLess Number.materialisedLess
  rw [hna,hnb,if_neg (by decide),if_pos ⟨hra,hrb⟩,exactRational_materialised a x ha,
    exactRational_materialised b y hb]

theorem plain_of_exact (d : PyDecimal) (h : (Number.decimal d).exact≠none) :
    d.kind.isSpecial=false := by
  cases hd : d.kind.isSpecial with
  | false => rfl
  | true => exact absurd (if_pos hd) h

theorem kind_int (a : Value) (n : Int) (ha : a.number=some (.int n)) :
    (decimalOperandKind a).isSpecial=false ∧ isDecimal a=false ∧ isFraction a=false ∧
      isFloatOrFraction a=false ∧ isFloatOrDecimal a=false :=
  int_cases (P := fun a _ => (decimalOperandKind a).isSpecial=false ∧ isDecimal a=false ∧
      isFraction a=false ∧ isFloatOrFraction a=false ∧ isFloatOrDecimal a=false)
    (fun _ => ⟨rfl,rfl,rfl,rfl,rfl⟩) (fun _ => ⟨rfl,rfl,rfl,rfl,rfl⟩)
    (fun _ => ⟨rfl,rfl,rfl,rfl,rfl⟩) a n ha

theorem ltSlot_int_decimal (a : Value) (n : Int) (d : PyDecimal) (ha : a.number=some (.int n)) :
    ltSlot a a (.decimal d)=none :=
  int_cases (P := fun a _ => ltSlot a a (.decimal d)=none) (fun _ => rfl) (fun _ => rfl)
    (fun _ => rfl) a n ha

theorem ltSlot_int_fraction (a : Value) (n : Int) (q : Rat) (ha : a.number=some (.int n)) :
    ltSlot a a (.fraction q)=none :=
  int_cases (P := fun a _ => ltSlot a a (.fraction q)=none) (fun _ => rfl) (fun _ => rfl)
    (fun _ => rfl) a n ha

section Pairs

variable (a b : Value) (x y : Number) (hx : x.exact≠none) (hy : y.exact≠none)

include hx hy

theorem slotLt_from_int (n : Int) (ha : a.number=some (.int n)) (hb : b.number=some y)
    (hn : x=.int n) : slotLt a b=.ok (Number.less x y) := by
  subst hn
  obtain ⟨hs,hd,hf,hff,hfd⟩ := kind_int a n ha
  cases y with
  | int m => exact slotLt_int a b n m ha hb
  | float f =>
    cases number_float b f hb
    exact slotLt_int_float a n f ha
  | complex re im => exact absurd rfl hy
  | decimal d =>
    cases number_decimal b d hb
    refine slotLt_of_none (ltSlot_int_decimal a n d ha) ?_
    refine decimalLt_plain a _ n d.digits.toRat hs (plain_of_exact d hy) ?_
      (decimalToBigdecimal_int n a ha) rfl
    rw [hd,hff]
    rfl
  | fraction q =>
    cases number_fraction b q hb
    refine slotLt_of_none (ltSlot_int_fraction a n q ha) ?_
    refine fractionLt_plain a _ n q ?_ (fractionToBigrational_int n a ha) rfl
    rw [hf,hfd]
    rfl

theorem slotLt_from_float (f : F64) (hb : b.number=some y) (hf : x=.float f) :
    slotLt (.float f) b=.ok (Number.less x y) := by
  subst hf
  have htower : ∀ha : (Value.float f).number=some (.float f), towerLess (.float f) b=
      Number.materialisedLess (.float f) y := fun ha => towerLess_number _ b _ y ha hb hx hy
  cases y with
  | int m => exact slotLt_float_int f b m hb
  | float g =>
    cases number_float b g hb
    exact slotLt_of_some rfl
  | complex re im => exact absurd rfl hy
  | decimal d =>
    cases number_decimal b d hb
    refine slotLt_of_none rfl ?_
    refine (decimalLt_mixed (.float f) (.decimal d) rfl (plain_of_exact d hy) rfl).trans ?_
    rw [htower rfl]
    rfl
  | fraction q =>
    cases number_fraction b q hb
    refine slotLt_of_none rfl ?_
    refine (fractionLt_mixed _ _ rfl).trans ?_
    rw [htower rfl]
    rfl

theorem slotLt_from_decimal (d : PyDecimal) (hb : b.number=some y) (hd : x=.decimal d) :
    slotLt (.decimal d) b=.ok (Number.less x y) := by
  subst hd
  have hplain := plain_of_exact d hx
  have htower : ∀ha : (Value.decimal d).number=some (.decimal d), towerLess (.decimal d) b=
      Number.materialisedLess (.decimal d) y := fun ha => towerLess_number _ b _ y ha hb hx hy
  cases y with
  | int m =>
    obtain ⟨hs,hdec,hf,hff,hfd⟩ := kind_int b m hb
    refine slotLt_of_some ?_
    refine decimalLt_plain _ b d.digits.toRat m hplain hs ?_ rfl (decimalToBigdecimal_int m b hb)
    rw [hdec,hff]
    rfl
  | float g =>
    cases number_float b g hb
    refine slotLt_of_some ?_
    refine (decimalLt_mixed (.decimal d) (.float g) hplain rfl rfl).trans ?_
    rw [htower rfl]
    rfl
  | complex re im => exact absurd rfl hy
  | decimal d' =>
    cases number_decimal b d' hb
    exact slotLt_of_some (decimalLt_plain _ _ _ _ hplain (plain_of_exact d' hy) rfl rfl rfl)
  | fraction q =>
    cases number_fraction b q hb
    refine slotLt_of_some ?_
    refine (decimalLt_mixed (.decimal d) (.fraction q) hplain rfl rfl).trans ?_
    rw [htower rfl]
    rfl

theorem slotLt_from_fraction (q : Rat) (hb : b.number=some y) (hq : x=.fraction q) :
    slotLt (.fraction q) b=.ok (Number.less x y) := by
  subst hq
  have htower : ∀ha : (Value.fraction q).number=some (.fraction q), towerLess (.fraction q) b=
      Number.materialisedLess (.fraction q) y := fun ha => towerLess_number _ b _ y ha hb hx hy
  cases y with
  | int m =>
    obtain ⟨hs,hdec,hf,hff,hfd⟩ := kind_int b m hb
    refine slotLt_of_some ?_
    refine fractionLt_plain _ b q m ?_ rfl (fractionToBigrational_int m b hb)
    rw [hf,hfd]
    rfl
  | float g =>
    cases number_float b g hb
    refine slotLt_of_some ?_
    refine (fractionLt_mixed _ _ rfl).trans ?_
    rw [htower rfl]
    rfl
  | complex re im => exact absurd rfl hy
  | decimal d =>
    cases number_decimal b d hb
    refine slotLt_of_some ?_
    refine (fractionLt_mixed _ _ rfl).trans ?_
    rw [htower rfl]
    rfl
  | fraction q' =>
    cases number_fraction b q' hb
    exact slotLt_of_some (fractionLt_plain _ _ q q' rfl rfl rfl)

theorem dispatchLt_number (ha : a.number=some x) (hb : b.number=some y) :
    dispatchLt a b=.ok (x.less y) := by
  rw [dispatchLt_slot a b x y ha hb]
  cases x with
  | int n => exact slotLt_from_int a b _ y hx hy n ha hb rfl
  | float f =>
    cases number_float a f ha
    exact slotLt_from_float b _ y hx hy f hb rfl
  | complex re im => exact absurd rfl hx
  | decimal d =>
    cases number_decimal a d ha
    exact slotLt_from_decimal b _ y hx hy d hb rfl
  | fraction q =>
    cases number_fraction a q ha
    exact slotLt_from_fraction b _ y hx hy q hb rfl

end Pairs

end Order

namespace Number

/-- The int is not the float, and converting it gives the float. -/
def RoundsOnto (n : Int) (f : F64) : Prop := (F64.ofInt n).key=f.key ∧ (n : Rat)≠f.toRat

/-- An int against a float onto which it rounds. -/
def Rounded : Number → Number → Prop
  | int n,float f => RoundsOnto n f
  | float f,int n => RoundsOnto n f
  | _,_ => False

/-- A decimal of a scale that is not materialised, against a float or a fraction. -/
def Unscaled : Number → Number → Prop
  | decimal d,float _ => d.materialises=false
  | decimal d,fraction _ => d.materialises=false
  | float _,decimal d => d.materialises=false
  | fraction _,decimal d => d.materialises=false
  | _,_ => False

theorem materialised_exact (x : Number) (p : Rat) (hx : x.exact=some p) :
    x.materialised=some p ∨ ∃d, x=.decimal d ∧ d.materialises=false ∧ x.materialised=none := by
  cases x with
  | int n => exact .inl hx
  | float f =>
    left
    rw [materialised,floatToBigrational_eq]
    exact hx
  | complex re im => cases hx
  | decimal d =>
    rw [materialised,decimalToBigrational_eq]
    cases hd : d.materialises with
    | true =>
      left
      have hplain := plain_of_exact d (by rw [hx]; exact Option.some_ne_none p)
      rw [exact,hplain] at hx
      exact hx
    | false => exact .inr ⟨d,rfl,hd,rfl⟩
  | fraction q => exact .inl hx

theorem exact_float (f : F64) (p : Rat) (h : (float f).exact=some p) :
    f.isFinite=true ∧ f.toRat=p := by
  change (if f.isFinite then some f.toRat else none)=some p at h
  cases hf : f.isFinite with
  | true =>
    rw [hf] at h
    exact ⟨rfl,Option.some_inj.mp h⟩
  | false =>
    rw [hf] at h
    cases h

theorem exact_decimal (d : PyDecimal) (p : Rat) (h : (decimal d).exact=some p) :
    d.kind.isSpecial=false ∧ d.digits.toRat=p := by
  have hplain := plain_of_exact d (by rw [h]; exact Option.some_ne_none p)
  rw [exact,hplain] at h
  exact ⟨hplain,Option.some_inj.mp h⟩

theorem eq_ofInt_exact (n : Int) (f : F64) (hf : f.isFinite=true) :
    f.eq (F64.ofInt n)=true ↔ (n : Rat)=f.toRat ∨ RoundsOnto n f := by
  rw [F64.eq_ofInt n f hf]
  by_cases h : (n : Rat)=f.toRat
  · exact ⟨fun _ => .inl h,fun _ => F64.ofInt_exact n f hf h⟩
  · constructor
    · intro hk
      exact .inr ⟨hk,h⟩
    · rintro (he|he)
      · exact absurd he h
      · exact he.1

theorem materialised_eq (d : PyDecimal) (r : Rat) :
    decide (decimalToBigrational d=some r)=true ↔ d.digits.toRat=r ∧ ¬d.materialises=false := by
  rw [decimalToBigrational_eq,decide_eq_true_eq]
  cases d.materialises with
  | true => simp
  | false => simp

theorem materialised_float_eq (d : PyDecimal) (f : F64) (hf : f.isFinite=true) :
    sameRational (decimalToBigrational d) (floatToBigrational f)=true ↔
      d.digits.toRat=f.toRat ∧ ¬d.materialises=false := by
  rw [decimalToBigrational_eq,floatToBigrational_eq,if_pos hf]
  cases d.materialises with
  | true => simp [sameRational]
  | false => simp [sameRational]

theorem floatToBigrational_finite (f : F64) (hf : f.isFinite=true) (q : Rat) :
    decide (floatToBigrational f=some q)=true ↔ f.toRat=q := by
  rw [floatToBigrational_eq,if_pos hf,decide_eq_true_eq,Option.some_inj]

theorem equal_exact (x y : Number) (p q : Rat) (hx : x.exact=some p) (hy : y.exact=some q) :
    x.equal y=true ↔ (p=q ∧ ¬x.Unscaled y) ∨ x.Rounded y := by
  cases x with
  | complex re im => cases hx
  | int n =>
    cases hx
    cases y with
    | complex re im => cases hy
    | int m =>
      cases hy
      simp [equal,Unscaled,Rounded]
    | float f =>
      obtain ⟨hf,rfl⟩ := exact_float f q hy
      simp only [equal,Unscaled,Rounded,eq_ofInt_exact n f hf,not_false_eq_true,and_true]
    | decimal d =>
      obtain ⟨hd,rfl⟩ := exact_decimal d q hy
      simp [equal,Unscaled,Rounded,hd,eq_comm]
    | fraction r =>
      cases hy
      simp [equal,Unscaled,Rounded,eq_comm]
  | float f =>
    obtain ⟨hf,rfl⟩ := exact_float f p hx
    cases y with
    | complex re im => cases hy
    | int m =>
      cases hy
      simp only [equal,Unscaled,Rounded,eq_ofInt_exact m f hf,not_false_eq_true,and_true]
      rw [eq_comm]
    | float g =>
      obtain ⟨hg,rfl⟩ := exact_float g q hy
      simp [equal,Unscaled,Rounded,F64.eq_iff f g hf hg]
    | decimal d =>
      obtain ⟨hd,rfl⟩ := exact_decimal d q hy
      simp only [equal,Unscaled,Rounded,hd,materialised_float_eq d f hf,Bool.not_false,
        Bool.true_and,or_false]
      rw [Eq.comm (a := d.digits.toRat)]
    | fraction r =>
      cases hy
      simp only [equal,Unscaled,Rounded,floatToBigrational_finite f hf,not_false_eq_true,
        and_true,or_false]
  | decimal d =>
    obtain ⟨hd,rfl⟩ := exact_decimal d p hx
    cases y with
    | complex re im => cases hy
    | int m =>
      cases hy
      simp [equal,Unscaled,Rounded,hd]
    | float g =>
      obtain ⟨hg,rfl⟩ := exact_float g q hy
      simp only [equal,Unscaled,Rounded,hd,materialised_float_eq d g hg,Bool.not_false,
        Bool.true_and,or_false]
    | decimal d' =>
      obtain ⟨hd',rfl⟩ := exact_decimal d' q hy
      simp [equal,decimalsEqual,Unscaled,Rounded,hd,hd']
    | fraction r =>
      cases hy
      simp only [equal,Unscaled,Rounded,hd,materialised_eq,Bool.not_false,Bool.true_and,or_false]
  | fraction r =>
    cases hx
    cases y with
    | complex re im => cases hy
    | int m =>
      cases hy
      simp [equal,Unscaled,Rounded]
    | float g =>
      obtain ⟨hg,rfl⟩ := exact_float g q hy
      simp only [equal,Unscaled,Rounded,floatToBigrational_finite g hg,not_false_eq_true,
        and_true,or_false]
      rw [eq_comm]
    | decimal d =>
      obtain ⟨hd,rfl⟩ := exact_decimal d q hy
      simp only [equal,Unscaled,Rounded,materialised_eq,or_false]
      rw [eq_comm]
    | fraction r' =>
      cases hy
      simp [equal,Unscaled,Rounded]

/-- The comparison of materialised values is exact except where a decimal is not materialised. -/
theorem materialisedLess_exact (x y : Number) (p q : Rat) (hx : x.exact=some p)
    (hy : y.exact=some q) : x.materialisedLess y=true ↔
      p<q ∧ ∀d, x=.decimal d ∨ y=.decimal d → ¬d.materialises=false := by
  unfold materialisedLess
  obtain hmx|⟨d,rfl,hd,hmx⟩ := materialised_exact x p hx
  · obtain hmy|⟨d,rfl,hd,hmy⟩ := materialised_exact y q hy
    · rw [hmx,hmy]
      have hno : ∀d, x=.decimal d ∨ y=.decimal d → ¬d.materialises=false := by
        intro d hd hm
        have hnone : (decimal d).materialised=none := by
          rw [materialised,decimalToBigrational_eq,hm]
          rfl
        cases hd with
        | inl h =>
          rw [h,hnone] at hmx
          cases hmx
        | inr h =>
          rw [h,hnone] at hmy
          cases hmy
      simp only [lessRational,decide_eq_true_eq]
      exact ⟨fun h => ⟨h,hno⟩,fun h => h.1⟩
    · rw [hmx,hmy]
      constructor
      · intro h
        cases h
      · intro h
        exact absurd hd (h.2 d (.inr rfl))
  · rw [hmx]
    constructor
    · intro h
      cases h
    · intro h
      exact absurd hd (h.2 d (.inl rfl))

theorem less_exact (x y : Number) (p q : Rat) (hx : x.exact=some p) (hy : y.exact=some q) :
    x.less y=true ↔ p<q ∧ ¬x.Unscaled y ∧ ¬x.Rounded y := by
  have hmat := materialisedLess_exact x y p q hx hy
  cases x with
  | complex re im => cases hx
  | int n =>
    cases hx
    cases y with
    | complex re im => cases hy
    | int m =>
      cases hy
      simp [less,Unscaled,Rounded]
    | float f =>
      obtain ⟨hf,rfl⟩ := exact_float f q hy
      simp only [less,Unscaled,Rounded,RoundsOnto,F64.ofInt_lt n f hf,not_false_eq_true,true_and]
      refine and_congr_right (fun hlt => not_congr ?_)
      exact ⟨fun h => ⟨h,hlt.ne⟩,fun h => h.1⟩
    | decimal d =>
      obtain ⟨hd,rfl⟩ := exact_decimal d q hy
      simp [less,Unscaled,Rounded]
    | fraction r =>
      simpa [less,Unscaled,Rounded] using hmat
  | float f =>
    obtain ⟨hf,rfl⟩ := exact_float f p hx
    cases y with
    | complex re im => cases hy
    | int m =>
      cases hy
      simp only [less,Unscaled,Rounded,RoundsOnto,F64.lt_ofInt m f hf,not_false_eq_true,true_and]
      refine and_congr_right (fun hlt => not_congr ?_)
      exact ⟨fun h => ⟨h,hlt.ne'⟩,fun h => h.1⟩
    | float g =>
      obtain ⟨hg,rfl⟩ := exact_float g q hy
      simp [less,Unscaled,Rounded,F64.lt_iff f g hf hg]
    | decimal d => simpa [less,Unscaled,Rounded] using hmat
    | fraction r => simpa [less,Unscaled,Rounded] using hmat
  | decimal d =>
    obtain ⟨hd,rfl⟩ := exact_decimal d p hx
    cases y with
    | complex re im => cases hy
    | int m =>
      cases hy
      simp [less,Unscaled,Rounded]
    | float g => simpa [less,Unscaled,Rounded] using hmat
    | decimal d' =>
      obtain ⟨hd',rfl⟩ := exact_decimal d' q hy
      simp [less,Unscaled,Rounded]
    | fraction r => simpa [less,Unscaled,Rounded] using hmat
  | fraction r =>
    cases y with
    | complex re im => cases hy
    | int m => simpa [less,Unscaled,Rounded] using hmat
    | float g => simpa [less,Unscaled,Rounded] using hmat
    | decimal d => simpa [less,Unscaled,Rounded] using hmat
    | fraction r' => simpa [less,Unscaled,Rounded] using hmat

end Number

section Comparison

def exactValue (v : Value) : Option Rat := v.number.bind Number.exact

/-- One operand is an int, the other a float onto which it rounds without being equal to it. -/
def Rounded (a b : Value) : Prop := ∃x y, a.number=some x ∧ b.number=some y ∧ x.Rounded y

/-- One operand is a decimal whose power of ten is not materialised, the other a float or a
fraction. -/
def Unscaled (a b : Value) : Prop := ∃x y, a.number=some x ∧ b.number=some y ∧ x.Unscaled y

/-- `==` is an equivalence, `<` is transitive, and of `a<b`, `a==b`, `b<a` exactly one holds. -/
structure TotallyOrdered (pool : Set Value) : Prop where
  refl : ∀a∈pool, recurseEq a a=true
  symm : ∀a∈pool, ∀b∈pool, recurseEq a b=true → recurseEq b a=true
  trans : ∀a∈pool, ∀b∈pool, ∀c∈pool, recurseEq a b=true → recurseEq b c=true → recurseEq a c=true
  ltTrans : ∀a∈pool, ∀b∈pool, ∀c∈pool,
    dispatchLt a b=.ok true → dispatchLt b c=.ok true → dispatchLt a c=.ok true
  trichotomy : ∀a∈pool, ∀b∈pool,
    (dispatchLt a b=.ok true ∧ recurseEq a b=false ∧ dispatchLt b a=.ok false) ∨
    (dispatchLt a b=.ok false ∧ recurseEq a b=true ∧ dispatchLt b a=.ok false) ∨
    (dispatchLt a b=.ok false ∧ recurseEq a b=false ∧ dispatchLt b a=.ok true)

variable {a b : Value} {p q : Rat}

theorem exactValue_number (h : exactValue a=some p) : ∃x, a.number=some x ∧ x.exact=some p :=
  Option.bind_eq_some_iff.mp h

theorem rounded_iff {x y : Number} (hx : a.number=some x) (hy : b.number=some y) :
    Rounded a b ↔ x.Rounded y := by
  constructor
  · intro ⟨x',y',hx',hy',h⟩
    cases hx.symm.trans hx'
    cases hy.symm.trans hy'
    exact h
  · intro h
    exact ⟨x,y,hx,hy,h⟩

theorem recurseEq_exact (ha : exactValue a=some p) (hb : exactValue b=some q)
    (hu : ¬Unscaled a b) : recurseEq a b=true ↔ p=q ∨ Rounded a b := by
  obtain ⟨x,hx,hp⟩ := exactValue_number ha
  obtain ⟨y,hy,hq⟩ := exactValue_number hb
  have hux : ¬x.Unscaled y := fun h => hu ⟨x,y,hx,hy,h⟩
  have heq : recurseEq a b=x.equal y := recurseEqN_number 999 a b x y hx hy
  rw [heq,Number.equal_exact x y p q hp hq,rounded_iff hx hy]
  simp only [hux,not_false_eq_true,and_true]

theorem dispatchLt_ok (ha : exactValue a=some p) (hb : exactValue b=some q) :
    ∃r, dispatchLt a b=.ok r := by
  obtain ⟨x,hx,hp⟩ := exactValue_number ha
  obtain ⟨y,hy,hq⟩ := exactValue_number hb
  exact ⟨_,dispatchLt_number a b x y (by rw [hp]; exact Option.some_ne_none p)
    (by rw [hq]; exact Option.some_ne_none q) hx hy⟩

theorem dispatchLt_exact (ha : exactValue a=some p) (hb : exactValue b=some q)
    (hu : ¬Unscaled a b) : dispatchLt a b=.ok true ↔ p<q ∧ ¬Rounded a b := by
  obtain ⟨x,hx,hp⟩ := exactValue_number ha
  obtain ⟨y,hy,hq⟩ := exactValue_number hb
  have hux : ¬x.Unscaled y := fun h => hu ⟨x,y,hx,hy,h⟩
  rw [dispatchLt_number a b x y (by rw [hp]; exact Option.some_ne_none p)
    (by rw [hq]; exact Option.some_ne_none q) hx hy,Except.ok.injEq,
    Number.less_exact x y p q hp hq,rounded_iff hx hy]
  simp only [hux,not_false_eq_true,true_and]

/-- Where no int rounds onto a float and every decimal is materialised, both operators read
off the exact values. -/
theorem totallyOrdered_of_exact (pool : Set Value) (val : Value → Rat)
    (hval : ∀a∈pool, exactValue a=some (val a))
    (heq : ∀a∈pool, ∀b∈pool, recurseEq a b=true ↔ val a=val b)
    (hlt : ∀a∈pool, ∀b∈pool, dispatchLt a b=.ok true ↔ val a<val b) : TotallyOrdered pool := by
  have hne : ∀a∈pool, ∀b∈pool, val a≠val b → recurseEq a b=false := by
    intro a ha b hb h
    exact Bool.eq_false_iff.mpr (fun he => h ((heq a ha b hb).mp he))
  have hge : ∀a∈pool, ∀b∈pool, ¬val a<val b → dispatchLt a b=.ok false := by
    intro a ha b hb h
    obtain ⟨r,hr⟩ := dispatchLt_ok (hval a ha) (hval b hb)
    cases r with
    | false => exact hr
    | true => exact absurd ((hlt a ha b hb).mp hr) h
  refine ⟨fun a ha => (heq a ha a ha).mpr rfl,?_,?_,?_,?_⟩
  · intro a ha b hb h
    exact (heq b hb a ha).mpr ((heq a ha b hb).mp h).symm
  · intro a ha b hb c hc hab hbc
    exact (heq a ha c hc).mpr (((heq a ha b hb).mp hab).trans ((heq b hb c hc).mp hbc))
  · intro a ha b hb c hc hab hbc
    exact (hlt a ha c hc).mpr (((hlt a ha b hb).mp hab).trans ((hlt b hb c hc).mp hbc))
  · intro a ha b hb
    obtain h|h|h := lt_trichotomy (val a) (val b)
    · exact .inl ⟨(hlt a ha b hb).mpr h,hne a ha b hb h.ne,hge b hb a ha h.le.not_gt⟩
    · exact .inr (.inl ⟨hge a ha b hb h.not_lt,(heq a ha b hb).mpr h,hge b hb a ha h.symm.not_lt⟩)
    · exact .inr (.inr ⟨hge a ha b hb h.le.not_gt,hne a ha b hb h.ne',(hlt b hb a ha).mpr h⟩)

/-- Mixed comparison is exact, but for an int against a float: the int is converted first, so
the two are equal where it rounds onto the float. -/
theorem comparison_exact :
    (∀a b p q, exactValue a=some p → exactValue b=some q → ¬Unscaled a b →
      (recurseEq a b=true ↔ p=q ∨ Rounded a b) ∧
      (dispatchLt a b=.ok true ↔ p<q ∧ ¬Rounded a b)) ∧
    ∀pool : Set Value, (∀a∈pool, exactValue a≠none) →
      (∀a∈pool, ∀b∈pool, ¬Rounded a b ∧ ¬Unscaled a b) → TotallyOrdered pool := by
  constructor
  · intro a b p q ha hb hu
    exact ⟨recurseEq_exact ha hb hu,dispatchLt_exact ha hb hu⟩
  · intro pool hnum hpool
    have hval : ∀a∈pool, exactValue a=some ((exactValue a).getD 0) := by
      intro a ha
      obtain ⟨p,hp⟩ := Option.ne_none_iff_exists'.mp (hnum a ha)
      rw [hp]
      rfl
    refine totallyOrdered_of_exact pool (fun a => (exactValue a).getD 0) hval ?_ ?_
    · intro a ha b hb
      have ⟨hr,hu⟩ := hpool a ha b hb
      rw [recurseEq_exact (hval a ha) (hval b hb) hu]
      simp only [hr,or_false]
    · intro a ha b hb
      have ⟨hr,hu⟩ := hpool a ha b hb
      rw [dispatchLt_exact (hval a ha) (hval b hb) hu]
      simp only [hr,not_false_eq_true,and_true]

theorem comparison_exact_half :
    ((recurseEq (.int 2) (.fraction (1/2))=true ↔ (2 : Rat)=1/2 ∨ Rounded (.int 2) (.fraction (1/2))) ∧
      (dispatchLt (.int 2) (.fraction (1/2))=.ok true ↔
        (2 : Rat)<1/2 ∧ ¬Rounded (.int 2) (.fraction (1/2)))) ∧
    TotallyOrdered {.int 2,.fraction (1/2)} := by
  have hmem : ∀a∈({.int 2,.fraction (1/2)} : Set Value), a.number=some (.int 2) ∨
      a.number=some (.fraction (1/2)) := by
    intro a ha
    obtain rfl|rfl := ha
    · exact .inl rfl
    · exact .inr rfl
  refine ⟨comparison_exact.1 (.int 2) (.fraction (1/2)) 2 (1/2) rfl rfl ?_,
    comparison_exact.2 _ ?_ ?_⟩
  · intro ⟨x,y,hx,hy,h⟩
    cases hx
    cases hy
    exact h
  · intro a ha
    obtain h|h := hmem a ha
    · rw [exactValue,h]
      exact Option.some_ne_none _
    · rw [exactValue,h]
      exact Option.some_ne_none _
  · intro a ha b hb
    constructor
    · intro ⟨x,y,hx,hy,h⟩
      obtain ha|ha := hmem a ha <;> obtain hb|hb := hmem b hb <;> cases hx.symm.trans ha <;>
        cases hy.symm.trans hb <;> exact h
    · intro ⟨x,y,hx,hy,h⟩
      obtain ha|ha := hmem a ha <;> obtain hb|hb := hmem b hb <;> cases hx.symm.trans ha <;>
        cases hy.symm.trans hb <;> exact h

/-- `2^53` and `2^53+1` both equal the float `2^53`. -/
theorem comparison_rounds : ¬∀a b p q, exactValue a=some p → exactValue b=some q →
    (recurseEq a b=true ↔ p=q) ∧ (dispatchLt a b=.ok true ↔ p<q) := by
  intro h
  let f : F64 := ⟨0x4340000000000000⟩
  have hfin : f.isFinite=true := by decide
  have hf : exactValue (.float f)=some f.toRat := by
    change (if f.isFinite then some f.toRat else none)=_
    exact if_pos hfin
  have h1 := (h (.int 9007199254740993) (.float f) 9007199254740993 f.toRat rfl hf).1.mp (by decide)
  have h2 := (h (.int 9007199254740992) (.float f) 9007199254740992 f.toRat rfl hf).1.mp (by decide)
  rw [← h2] at h1
  norm_num at h1

end Comparison

end InterpretThis
