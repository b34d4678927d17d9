import InterpretThis.Value.Ordering

namespace InterpretThis

open Pyhash

/-- The five kinds of number that the comparison slots tell apart. -/
inductive Number where
  | int (n : Int)
  | float (f : F64)
  | complex (re im : F64)
  | decimal (d : PyDecimal)
  | fraction (q : Rat)

namespace Value

def number : Value → Option Number
  | bool b => some (.int (boolInt b))
  | int i => some (.int i.toInt)
  | bigInt i => some (.int i)
  | float f => some (.float f)
  | complex re im => some (.complex re im)
  | decimal d => some (.decimal d)
  | fraction q => some (.fraction q)
  | _ => Option.none

end Value

namespace Number

/-- The exact value of a finite real number. -/
def exact : Number → Option Rat
  | int n => some n
  | float f => if f.isFinite then some f.toRat else none
  | complex _ _ => none
  | decimal d => if d.kind.isSpecial then none else some d.digits.toRat
  | fraction q => some q

def decimalsEqual (a b : PyDecimal) : Bool :=
  if a.kind.isSpecial||b.kind.isSpecial then
    if a.kind.isNan||b.kind.isNan then false
    else (a.kind==.posInf&&b.kind==.posInf)||(a.kind==.negInf&&b.kind==.negInf)
  else decide (a.digits.toRat=b.digits.toRat)

def sameRational : Option Rat → Option Rat → Bool
  | some x,some y => decide (x=y)
  | _,_ => false

/-- What the two slots answer together. -/
def equal : Number → Number → Bool
  | int n,int m => decide (n=m)
  | int n,float f => f.eq (F64.ofInt n)
  | int n,complex re im => re.eq (F64.ofInt n)&&im.eq F64.zero
  | int n,decimal d => !d.kind.isSpecial&&decide (d.digits.toRat=n)
  | int n,fraction q => decide (q=n)
  | float f,int n => f.eq (F64.ofInt n)
  | float f,float g => f.eq g
  | float f,complex re im => re.eq f&&im.eq F64.zero
  | float f,decimal d => !d.kind.isSpecial&&
      sameRational (decimalToBigrational d) (floatToBigrational f)
  | float f,fraction q => decide (floatToBigrational f=some q)
  | complex re im,int n => re.eq (F64.ofInt n)&&im.eq F64.zero
  | complex re im,float f => re.eq f&&im.eq F64.zero
  | complex re im,complex re' im' => re.eq re'&&im.eq im'
  | complex _ _,decimal _ => false
  | complex _ _,fraction _ => false
  | decimal d,int n => !d.kind.isSpecial&&decide (d.digits.toRat=n)
  | decimal d,float f => !d.kind.isSpecial&&
      sameRational (decimalToBigrational d) (floatToBigrational f)
  | decimal _,complex _ _ => false
  | decimal d,decimal d' => decimalsEqual d d'
  | decimal d,fraction q => !d.kind.isSpecial&&decide (decimalToBigrational d=some q)
  | fraction q,int n => decide (q=n)
  | fraction q,float f => decide (floatToBigrational f=some q)
  | fraction _,complex _ _ => false
  -- The fraction slot reads the digits of an infinity or a NaN, which are zero.
  | fraction q,decimal d => decide (decimalToBigrational d=some q)
  | fraction q,fraction q' => decide (q=q')

end Number

theorem F64.ofInt_one : F64.ofInt 1=F64.one := by decide

theorem F64.ofInt_zero : F64.ofInt 0=F64.zero := by decide

theorem F64.eq_comm (f g : F64) : f.eq g=g.eq f := by
  simp only [F64.eq,Eq.comm (a := f.key)]
  cases f.isNan <;> cases g.isNan <;> rfl

theorem ofInt_boolInt (b : Bool) : F64.ofInt (boolInt b)=if b then F64.one else F64.zero := by
  cases b
  · exact F64.ofInt_zero
  · exact F64.ofInt_one

theorem boolI64_toInt (b : Bool) : (boolI64 b).toInt=boolInt b := by cases b <;> rfl

theorem boolInt_eq (a b : Bool) : (a==b)=(boolInt a==boolInt b) := by
  cases a <;> cases b <;> rfl

theorem int64_beq (i j : Int64) : (i==j)=decide (i.toInt=j.toInt) := by
  rw [beq_eq_decide]
  exact decide_eq_decide.mpr Int64.toInt_inj.symm

section Equality

theorem boolEq_intEq (a : Bool) (rhs : Value) : boolEq a rhs=intEq (boolInt a) rhs := by
  cases rhs with
  | bool b => exact congrArg some (boolInt_eq a b)
  | int i =>
    change some (i==boolI64 a)=some (boolInt a==i.toInt)
    rw [int64_beq,boolI64_toInt,beq_eq_decide]
    exact congrArg some (decide_eq_decide.mpr Eq.comm)
  | bigInt i =>
    change some (i==boolInt a)=some (boolInt a==i)
    rw [BEq.comm]
  | float f =>
    change some (f.eq (if a then F64.one else F64.zero))=some (f.eq (F64.ofInt (boolInt a)))
    rw [ofInt_boolInt]
  | _ => rfl

theorem int_cases {P : Value → Int → Prop} (hbool : ∀b, P (.bool b) (boolInt b))
    (hint : ∀i : Int64, P (.int i) i.toInt) (hbig : ∀i, P (.bigInt i) i) (a : Value) (n : Int)
    (ha : a.number=some (.int n)) : P a n := by
  cases a with
  | bool b =>
    cases ha
    exact hbool b
  | int i =>
    cases ha
    exact hint i
  | bigInt i =>
    cases ha
    exact hbig _
  | _ => cases ha

theorem number_float (a : Value) (f : F64) (ha : a.number=some (.float f)) : a=.float f := by
  cases a with
  | float g =>
    cases ha
    rfl
  | _ => cases ha

theorem number_complex (a : Value) (re im : F64) (ha : a.number=some (.complex re im)) :
    a=.complex re im := by
  cases a with
  | complex re' im' =>
    cases ha
    rfl
  | _ => cases ha

theorem number_decimal (a : Value) (d : PyDecimal) (ha : a.number=some (.decimal d)) :
    a=.decimal d := by
  cases a with
  | decimal d' =>
    cases ha
    rfl
  | _ => cases ha

theorem number_fraction (a : Value) (q : Rat) (ha : a.number=some (.fraction q)) :
    a=.fraction q := by
  cases a with
  | fraction q' =>
    cases ha
    rfl
  | _ => cases ha

section Integers

variable (n : Int) (b : Value) (hb : b.number=some (.int n))

include hb

theorem eqSlot_int (rec veq : Value → Value → Bool) (rhs : Value) :
    eqSlot rec veq b rhs=intEq n rhs :=
  int_cases (P := fun b n => eqSlot rec veq b rhs=intEq n rhs) (fun y => boolEq_intEq y rhs)
    (fun _ => rfl) (fun _ => rfl) b n hb

theorem intEq_int (m : Int) : intEq m b=some (decide (m=n)) :=
  int_cases (P := fun b n => intEq m b=some (decide (m=n)))
    (fun _ => congrArg some (beq_eq_decide _ _)) (fun _ => congrArg some (beq_eq_decide _ _))
    (fun _ => congrArg some (beq_eq_decide _ _)) b n hb

theorem floatEq_int (f : F64) : floatEq f b=some (f.eq (F64.ofInt n)) ∨ floatEq f b=none := by
  refine int_cases (P := fun b n => floatEq f b=some (f.eq (F64.ofInt n)) ∨ floatEq f b=none)
    ?_ (fun _ => .inl rfl) (fun _ => .inr rfl) b n hb
  intro y
  left
  rw [ofInt_boolInt]
  rfl

theorem valueToComplex_int : valueToComplex b=some (F64.ofInt n,F64.zero) := by
  refine int_cases (P := fun b n => valueToComplex b=some (F64.ofInt n,F64.zero))
    ?_ (fun _ => rfl) (fun _ => rfl) b n hb
  intro y
  rw [ofInt_boolInt]
  rfl

theorem decimalToBigdecimal_int : decimalToBigdecimal b=some (n : Rat) :=
  int_cases (P := fun b n => decimalToBigdecimal b=some (n : Rat))
    (fun _ => rfl) (fun _ => rfl) (fun _ => rfl) b n hb

theorem fractionToBigrational_int : fractionToBigrational b=some (n : Rat) :=
  int_cases (P := fun b n => fractionToBigrational b=some (n : Rat))
    (fun _ => rfl) (fun _ => rfl) (fun _ => rfl) b n hb

theorem decimalEq_int (d : PyDecimal) :
    decimalEq d b=some (!d.kind.isSpecial&&decide (d.digits.toRat=n)) := by
  have hk : decimalOperandKind b=.normal :=
    int_cases (P := fun b _ => decimalOperandKind b=.normal)
      (fun _ => rfl) (fun _ => rfl) (fun _ => rfl) b n hb
  have hf : isFloatOrFraction b=false :=
    int_cases (P := fun b _ => isFloatOrFraction b=false)
      (fun _ => rfl) (fun _ => rfl) (fun _ => rfl) b n hb
  unfold decimalEq
  rw [hk,hf,decimalToBigdecimal_int n b hb]
  cases hd : d.kind <;> rfl

theorem fractionEq_int (q : Rat) : fractionEq q b=some (decide (q=n)) := by
  have hf : isFloatOrDecimal b=false :=
    int_cases (P := fun b _ => isFloatOrDecimal b=false)
      (fun _ => rfl) (fun _ => rfl) (fun _ => rfl) b n hb
  unfold fractionEq
  rw [hf,fractionToBigrational_int n b hb]
  rfl

end Integers

section Dispatch

variable {k : Nat} {a b : Value} {r : Bool}

theorem recurseEqN_of_some (h : eqSlot (recurseEqN k) (valuesEqual k) a b=some r) :
    recurseEqN (k+1) a b=r := by
  simp only [recurseEqN,h]

theorem recurseEqN_of_none (h : eqSlot (recurseEqN k) (valuesEqual k) a b=none)
    (h' : eqSlot (recurseEqN k) (valuesEqual k) b a=some r) : recurseEqN (k+1) a b=r := by
  simp only [recurseEqN,h,h']

theorem recurseEqN_of_nones (h : eqSlot (recurseEqN k) (valuesEqual k) a b=none)
    (h' : eqSlot (recurseEqN k) (valuesEqual k) b a=none) : recurseEqN (k+1) a b=false := by
  simp only [recurseEqN,h,h']

end Dispatch

section Mixed

variable (rec veq : Value → Value → Bool)

theorem decimalEq_special (d : PyDecimal) (b : Value) (hd : d.kind.isSpecial=true)
    (hb : decimalOperandKind b=.normal) : decimalEq d b=some false := by
  unfold decimalEq
  rw [hb]
  cases hk : d.kind <;> rw [hk] at hd <;> first | rfl | cases hd

theorem decimalEq_exact (d : PyDecimal) (b : Value) (hd : d.kind.isSpecial=false)
    (hb : decimalOperandKind b=.normal) (hf : isFloatOrFraction b=true) :
    decimalEq d b=(decimalToBigrational d).bind fun x =>
      (exactRational b).bind fun y => some (decide (x=y)) := by
  unfold decimalEq
  rw [hb,hd,hf]
  rfl

theorem decimalEq_decimal (d d' : PyDecimal) :
    decimalEq d (.decimal d')=some (Number.decimalsEqual d d') := by
  unfold decimalEq Number.decimalsEqual
  change (if (d.kind.isSpecial||d'.kind.isSpecial)=true then _ else _)=_
  by_cases h : (d.kind.isSpecial||d'.kind.isSpecial)=true
  · rw [if_pos h,if_pos h]
    change (if (d.kind.isNan||d'.kind.isNan)=true then _ else _)=_
    split <;> rfl
  · rw [if_neg h,if_neg h]
    rfl

theorem fractionEq_exact (q : Rat) (b : Value) (hb : isFloatOrDecimal b=true) :
    fractionEq q b=some (decide (exactRational b=some q)) := by
  unfold fractionEq
  rw [if_pos hb]
  cases h : exactRational b with
  | none => rfl
  | some x =>
    refine congrArg some (decide_eq_decide.mpr ?_)
    rw [Option.some_inj]
    exact Eq.comm

end Mixed

theorem decimalEq_float (d : PyDecimal) (f : F64) :
    decimalEq d (.float f)=some (Number.equal (.decimal d) (.float f)) ∨
      decimalEq d (.float f)=none ∧ Number.equal (.decimal d) (.float f)=false := by
  cases hd : d.kind.isSpecial with
  | true =>
    left
    rw [decimalEq_special d _ hd rfl,Number.equal,hd]
    rfl
  | false =>
    have he : exactRational (.float f)=floatToBigrational f := rfl
    rw [decimalEq_exact d _ hd rfl rfl,he,Number.equal,hd]
    cases decimalToBigrational d with
    | none => exact .inr ⟨rfl,rfl⟩
    | some x =>
      cases floatToBigrational f with
      | none => exact .inr ⟨rfl,rfl⟩
      | some y => exact .inl rfl

theorem decimalEq_fraction (d : PyDecimal) (q : Rat) :
    decimalEq d (.fraction q)=some (Number.equal (.decimal d) (.fraction q)) ∨
      decimalEq d (.fraction q)=none ∧ decimalToBigrational d=none := by
  cases hd : d.kind.isSpecial with
  | true =>
    left
    rw [decimalEq_special d _ hd rfl,Number.equal,hd]
    rfl
  | false =>
    rw [decimalEq_exact d _ hd rfl rfl,Number.equal,hd]
    cases decimalToBigrational d with
    | none => exact .inr ⟨rfl,rfl⟩
    | some x =>
      left
      refine congrArg some (decide_eq_decide.mpr ?_)
      rw [Option.some_inj]

theorem recurseEqN_int (k : Nat) (a b : Value) (n : Int) (y : Number)
    (ha : a.number=some (.int n)) (hb : b.number=some y) :
    recurseEqN (k+1) a b=Number.equal (.int n) y := by
  have ha' := eqSlot_int n a ha (recurseEqN k) (valuesEqual k) b
  cases y with
  | int m => exact recurseEqN_of_some (ha'.trans (intEq_int m b hb n))
  | float f =>
    cases number_float b f hb
    exact recurseEqN_of_some ha'
  | complex re im =>
    cases number_complex b re im hb
    refine recurseEqN_of_none ha' ?_
    change complexEq _ a=_
    unfold complexEq
    rw [valueToComplex_int n a ha]
    rfl
  | decimal d =>
    cases number_decimal b d hb
    exact recurseEqN_of_none ha' (decimalEq_int n a ha d)
  | fraction q =>
    cases number_fraction b q hb
    exact recurseEqN_of_none ha' (fractionEq_int n a ha q)

theorem recurseEqN_float (k : Nat) (b : Value) (f : F64) (y : Number) (hb : b.number=some y) :
    recurseEqN (k+1) (.float f) b=Number.equal (.float f) y := by
  cases y with
  | int m =>
    cases floatEq_int m b hb f with
    | inl h => exact recurseEqN_of_some h
    | inr h =>
      refine recurseEqN_of_none h ?_
      rw [eqSlot_int m b hb]
      rfl
  | float g =>
    cases number_float b g hb
    rfl
  | complex re im =>
    cases number_complex b re im hb
    rfl
  | decimal d =>
    cases number_decimal b d hb
    cases decimalEq_float d f with
    | inl h => exact recurseEqN_of_none rfl h
    | inr h =>
      have hr : recurseEqN (k+1) (.float f) (.decimal d)=false := recurseEqN_of_nones rfl h.1
      exact hr.trans h.2.symm
  | fraction q =>
    cases number_fraction b q hb
    exact recurseEqN_of_none rfl (fractionEq_exact q _ rfl)

theorem recurseEqN_complex (k : Nat) (b : Value) (re im : F64) (y : Number)
    (hb : b.number=some y) :
    recurseEqN (k+1) (.complex re im) b=Number.equal (.complex re im) y := by
  cases y with
  | int m =>
    refine recurseEqN_of_some ?_
    change complexEq _ b=_
    unfold complexEq
    rw [valueToComplex_int m b hb]
    rfl
  | float g =>
    cases number_float b g hb
    rfl
  | complex re' im' =>
    cases number_complex b re' im' hb
    rfl
  | decimal d =>
    cases number_decimal b d hb
    rfl
  | fraction q =>
    cases number_fraction b q hb
    rfl

theorem recurseEqN_decimal (k : Nat) (b : Value) (d : PyDecimal) (y : Number)
    (hb : b.number=some y) :
    recurseEqN (k+1) (.decimal d) b=Number.equal (.decimal d) y := by
  cases y with
  | int m => exact recurseEqN_of_some (decimalEq_int m b hb d)
  | float g =>
    cases number_float b g hb
    cases decimalEq_float d g with
    | inl h => exact recurseEqN_of_some h
    | inr h =>
      have hr : recurseEqN (k+1) (.decimal d) (.float g)=false := recurseEqN_of_nones h.1 rfl
      exact hr.trans h.2.symm
  | complex re im =>
    cases number_complex b re im hb
    cases hd : d.kind.isSpecial with
    | true => exact recurseEqN_of_some (decimalEq_special d _ hd rfl)
    | false =>
      refine recurseEqN_of_none ?_ rfl
      change decimalEq d _=none
      unfold decimalEq
      change (if (d.kind.isSpecial||false)=true then _ else _)=_
      rw [hd]
      rfl
  | decimal d' =>
    cases number_decimal b d' hb
    exact recurseEqN_of_some (decimalEq_decimal d d')
  | fraction q =>
    cases number_fraction b q hb
    cases decimalEq_fraction d q with
    | inl h => exact recurseEqN_of_some h
    | inr h =>
      have hr : recurseEqN (k+1) (.decimal d) (.fraction q)=decide (decimalToBigrational d=some q) :=
        recurseEqN_of_none h.1 (fractionEq_exact q _ rfl)
      rw [hr,Number.equal,h.2]
      simp

theorem recurseEqN_fraction (k : Nat) (b : Value) (q : Rat) (y : Number) (hb : b.number=some y) :
    recurseEqN (k+1) (.fraction q) b=Number.equal (.fraction q) y := by
  cases y with
  | int m => exact recurseEqN_of_some (fractionEq_int m b hb q)
  | float g =>
    cases number_float b g hb
    exact recurseEqN_of_some (fractionEq_exact q _ rfl)
  | complex re im =>
    cases number_complex b re im hb
    exact recurseEqN_of_none rfl rfl
  | decimal d =>
    cases number_decimal b d hb
    exact recurseEqN_of_some (fractionEq_exact q _ rfl)
  | fraction q' =>
    cases number_fraction b q' hb
    rfl

theorem recurseEqN_number (k : Nat) (a b : Value) (x y : Number) (ha : a.number=some x)
    (hb : b.number=some y) : recurseEqN (k+1) a b=x.equal y := by
  cases x with
  | int n => exact recurseEqN_int k a b n y ha hb
  | float f =>
    cases number_float a f ha
    exact recurseEqN_float k b f y hb
  | complex re im =>
    cases number_complex a re im ha
    exact recurseEqN_complex k b re im y hb
  | decimal d =>
    cases number_decimal a d ha
    exact recurseEqN_decimal k b d y hb
  | fraction q =>
    cases number_fraction a q ha
    exact recurseEqN_fraction k b q y hb

end Equality

end InterpretThis
