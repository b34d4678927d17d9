import InterpretThis.Value.Arith
import InterpretThis.Value.NumericKey

namespace InterpretThis

open TwosComplement

/-- An `int` or `bool` in canonical form: a big int is one that no `i64` holds. -/
inductive PyInt where
  | bool (b : Bool)
  | int (i : Int64)
  | big (n : Int) (wide : fitsI64 n=none)

namespace PyInt

def toValue : PyInt → Value
  | bool b => .bool b
  | int i => .int i
  | big n _ => .bigInt n

def value : PyInt → Int
  | bool b => boolInt b
  | int i => i.toInt
  | big n _ => n

def isBool : PyInt → Bool
  | bool _ => true
  | _ => false

/-- The canonical form of an integer. -/
def ofInt (n : Int) : PyInt :=
  match h : fitsI64 n with
  | some i => int i
  | none => big n h

theorem fitsI64_value (n : Int) (i : Int64) (h : fitsI64 n=some i) : i.toInt=n := by
  have hfits : ¬fitsI64 n=none := by rw [h]; simp
  obtain ⟨j,hj⟩ := fitsI64_some n hfits
  rw [← hj,fitsI64_toInt,Option.some.injEq] at h
  rw [← h,hj]

theorem ofInt_cases (n : Int) :
    (∃i, fitsI64 n=some i ∧ ofInt n=int i) ∨ (∃wide : fitsI64 n=none, ofInt n=big n wide) := by
  unfold ofInt
  split
  · exact .inl ⟨_,‹_›,rfl⟩
  · exact .inr ⟨‹_›,rfl⟩

@[simp] theorem ofInt_value (n : Int) : (ofInt n).value=n := by
  obtain ⟨i,hi,ho⟩|⟨wide,ho⟩ := ofInt_cases n
  · rw [ho]
    exact fitsI64_value n i hi
  · rw [ho]
    rfl

@[simp] theorem ofInt_isBool (n : Int) : (ofInt n).isBool=false := by
  obtain ⟨i,-,ho⟩|⟨wide,ho⟩ := ofInt_cases n <;> rw [ho] <;> rfl

theorem ofInt_toValue (n : Int) : (ofInt n).toValue=intFromBigint n := by
  rw [intFromBigint]
  obtain ⟨i,hi,ho⟩|⟨wide,ho⟩ := ofInt_cases n
  · rw [ho,hi]
    rfl
  · rw [ho,wide]
    rfl

theorem asBigint_toValue (a : PyInt) : a.toValue.asBigint=some a.value := by cases a <;> rfl

theorem toBigint_toValue (a : PyInt) : toBigint a.toValue=.ok a.value := by
  rw [toBigint,asBigint_toValue]

theorem isInt_toValue (a : PyInt) : isInt a.toValue=true := by cases a <;> rfl

theorem requireIntOperands_ok (op : String) (a b : PyInt) :
    requireIntOperands op a.toValue b.toValue=.ok () := by
  rw [requireIntOperands,asBigint_toValue,asBigint_toValue]
  exact if_neg (by simp)

end PyInt

section Checked

variable (exact : Int → Int → Int)

theorem fastOp_eq (a b : Int64) :
    fastOp exact a b=(PyInt.ofInt (exact a.toInt b.toInt)).toValue := by
  rw [PyInt.ofInt_toValue,fastOp,checkedOp]
  cases h : fitsI64 (exact a.toInt b.toInt) with
  | some v => simp only [intFromBigint,h]
  | none => rfl

theorem promoted_eq (a b : PyInt) :
    (do
      let l ← toBigint a.toValue
      let r ← toBigint b.toValue
      return intFromBigint (exact l r) : Except EvalError Value)=
        .ok (PyInt.ofInt (exact a.value b.value)).toValue := by
  rw [a.toBigint_toValue,b.toBigint_toValue,PyInt.ofInt_toValue]
  rfl

theorem intOp_eq (a b : PyInt) :
    intOp exact a.toValue b.toValue=.ok (PyInt.ofInt (exact a.value b.value)).toValue := by
  have hpromoted := promoted_eq exact a b
  cases a with
  | int i =>
    cases b with
    | int j =>
      cases h : fitsI64 (exact i.toInt j.toInt) with
      | some v =>
        have hfast : intOp exact (.int i) (.int j)=.ok (.int v) := by simp only [intOp,checkedOp,h]
        have hform : intFromBigint (exact i.toInt j.toInt)=.int v := by simp only [intFromBigint,h]
        rw [PyInt.ofInt_toValue]
        exact hfast.trans (congrArg Except.ok hform.symm)
      | none =>
        rw [← hpromoted]
        simp only [intOp,PyInt.toValue,checkedOp,h]
    | _ => exact hpromoted
  | _ => exact hpromoted

end Checked

section Division

theorem xor_negative (a b : Int64) : a^^^b<0 ↔ (a.toInt<0 ↔ ¬b.toInt<0) := by
  have hmsb : ∀c : Int64, c.toInt<0 ↔ c.toBitVec.msb=true := by
    intro c
    rw [BitVec.msb_eq_toInt,decide_eq_true_eq]
    rfl
  have hx : (a^^^b).toBitVec.msb=(a.toBitVec.msb^^b.toBitVec.msb) := by
    rw [Int64.toBitVec_xor,BitVec.msb_xor]
  rw [Int64.lt_iff_toInt_lt,Int64.toInt_zero,hmsb,hmsb,hmsb,hx]
  cases a.toBitVec.msb <;> cases b.toBitVec.msb <;> decide

theorem toInt_quotient (a b : Int64) (hfit : ¬(a=Int64.minValue ∧ b=-1)) :
    (a/b).toInt=a.toInt.tdiv b.toInt := by
  by_cases ha : a=Int64.minValue
  · exact Int64.toInt_div_of_ne_right a b (fun hb => hfit ⟨ha,hb⟩)
  · exact Int64.toInt_div_of_ne_left a b ha

theorem toInt_eq_zero (a : Int64) : a.toInt=0 ↔ a=0 := by
  rw [← Int64.toInt_zero,Int64.toInt_inj]

/-- Both kernels of floor division on words, where the quotient fits. -/
theorem pythonFloordiv_spec (a b : Int64) (hb : b≠0) (hfit : ¬(a=Int64.minValue ∧ b=-1)) :
    FloorDivision a.toInt b.toInt (pythonFloordiv a b).toInt (pythonMod a b).toInt := by
  have hb0 : b.toInt≠0 := fun h => hb ((toInt_eq_zero b).mp h)
  have hspec := floorDivision_tdiv a.toInt b.toInt hb0
  have hd := toInt_quotient a b hfit
  have hr := Int64.toInt_mod a b
  have ha₁ := a.le_toInt
  have ha₂ := a.toInt_lt
  have hb₁ := b.le_toInt
  have hb₂ := b.toInt_lt
  have hcond : (a%b≠0 ∧ (a%b)^^^b<0) ↔
      (a.toInt.tmod b.toInt≠0 ∧ (a.toInt.tmod b.toInt<0 ↔ ¬b.toInt<0)) := by
    rw [xor_negative,hr,Ne,← toInt_eq_zero,hr]
  unfold pythonFloordiv pythonMod
  simp only [hcond]
  by_cases hc : a.toInt.tmod b.toInt≠0 ∧ (a.toInt.tmod b.toInt<0 ↔ ¬b.toInt<0)
  · rw [if_pos hc] at hspec
    rw [if_pos hc,if_pos hc]
    have habs : (a.toInt.tmod b.toInt).natAbs<b.toInt.natAbs := by
      rw [Int.natAbs_tmod]
      exact Nat.mod_lt _ (Int.natAbs_pos.mpr hb0)
    have hhalf : (a.toInt.tdiv b.toInt).natAbs≤a.toInt.natAbs/2 := by
      rw [Int.natAbs_tdiv]
      exact Nat.div_le_div_left (by omega) (by omega)
    have hq : (a/b-1).toInt=a.toInt.tdiv b.toInt-1 := by
      rw [Int64.toInt_sub,hd,Int64.toInt_one]
      exact Int.bmod_eq_of_le (by omega) (by omega)
    have hm : (a%b+b).toInt=a.toInt.tmod b.toInt+b.toInt := by
      rw [Int64.toInt_add,hr]
      exact Int.bmod_eq_of_le (by omega) (by omega)
    rw [hq,hm]
    exact hspec
  · rw [if_neg hc] at hspec
    rw [if_neg hc,if_neg hc,hd,hr]
    exact hspec

/-- The integer branch of `//` and `%`: the exact result, or the error of a zero divisor. -/
theorem divideInts_spec (fast : Int64 → Int64 → Int64) (floor : Int → Int → Int)
    (message : String) (good : Int → Int → Int → Prop)
    (hfast : ∀a b : Int64, b≠0 → ¬(a=Int64.minValue ∧ b=-1) →
      good a.toInt b.toInt (fast a b).toInt)
    (hfloor : ∀x y, y≠0 → good x y (floor x y)) (a b : PyInt) :
    (b.value=0 ∧ divideInts fast floor message a.toValue b.toValue=
      .error (zeroDivisionError message)) ∨
    (b.value≠0 ∧ ∃c : PyInt, divideInts fast floor message a.toValue b.toValue=.ok c.toValue ∧
      good a.value b.value c.value ∧ c.isBool=false) := by
  have hpromoted : (do
      let l ← toBigint a.toValue
      let r ← toBigint b.toValue
      if r=0 then .error (zeroDivisionError message)
      else return intFromBigint (floor l r) : Except EvalError Value)=
        if b.value=0 then .error (zeroDivisionError message)
        else .ok (PyInt.ofInt (floor a.value b.value)).toValue := by
    rw [a.toBigint_toValue,b.toBigint_toValue,PyInt.ofInt_toValue]
    rfl
  by_cases hslow : divideInts fast floor message a.toValue b.toValue=
      if b.value=0 then .error (zeroDivisionError message)
      else .ok (PyInt.ofInt (floor a.value b.value)).toValue
  · rw [hslow]
    by_cases hb : b.value=0
    · exact .inl ⟨hb,if_pos hb⟩
    · refine .inr ⟨hb,_,if_neg hb,?_,PyInt.ofInt_isBool _⟩
      rw [PyInt.ofInt_value]
      exact hfloor a.value b.value hb
  · -- only two words take the fast path
    cases a with
    | int i =>
      cases b with
      | int j =>
        by_cases hj : j=0
        · refine .inl ⟨(toInt_eq_zero j).mpr hj,?_⟩
          simp only [divideInts,PyInt.toValue,if_pos hj]
        · have hj0 : j.toInt≠0 := fun h => hj ((toInt_eq_zero j).mp h)
          by_cases hmin : i=Int64.minValue ∧ j=-1
          · refine absurd ?_ hslow
            rw [← hpromoted]
            simp only [divideInts,PyInt.toValue,if_neg hj,if_neg (not_not.mpr hmin)]
          · refine .inr ⟨hj0,.int (fast i j),?_,hfast i j hj hmin,rfl⟩
            simp only [divideInts,PyInt.toValue,if_neg hj,hmin,not_false_eq_true,if_true]
      | _ => exact absurd hpromoted hslow
    | _ => exact absurd hpromoted hslow

end Division

section Powers

theorem limited_ok (n : Int) (maxBits : Nat) (r : Value) (h : intFromBigintLimited n maxBits=.ok r) :
    r=(PyInt.ofInt n).toValue := by
  unfold intFromBigintLimited at h
  split at h
  · cases h
  · cases h
    exact (PyInt.ofInt_toValue n).symm

theorem toU32_some (n : Int) (k : Nat) (h : toU32 n=some k) : 0≤ n ∧ k=n.toNat := by
  unfold toU32 at h
  split at h
  · cases h
    exact ⟨(‹_ ∧ _›).1,rfl⟩
  · cases h

variable (powf : Int → Int → F64) (maxIntBits : Nat) (a b : PyInt) (r : Value)

/-- An integer power that returns is the exact power; a zero exponent gives one at once. -/
theorem powInts_ok (hexp : 0≤b.value)
    (h : powInts powf maxIntBits a.toValue b.toValue=.ok r) :
    r=(PyInt.ofInt (a.value^b.value.toNat)).toValue := by
  have hneg : ¬b.value<0 := by omega
  simp only [powInts,a.asBigint_toValue,b.asBigint_toValue,if_neg hneg] at h
  by_cases h0 : b.value=0
  · rw [if_pos h0] at h
    cases h
    rw [h0,Int.toNat_zero,pow_zero,PyInt.ofInt_toValue]
    rfl
  · rw [if_neg h0] at h
    cases hu : toU32 b.value with
    | none =>
      rw [hu] at h
      cases h
    | some k =>
      simp only [hu] at h
      rw [← (toU32_some _ k hu).2]
      split at h
      · cases h
      · split at h
        · cases h
        · exact limited_ok _ maxIntBits r h

theorem lshiftValues_ok (h : lshiftValues maxIntBits a.toValue b.toValue=.ok r) :
    0≤b.value ∧ r=(PyInt.ofInt (a.value*2^b.value.toNat)).toValue := by
  simp only [lshiftValues,PyInt.requireIntOperands_ok,a.toBigint_toValue,b.toBigint_toValue,bind,
    Except.bind] at h
  split at h
  · cases h
  · cases hu : toU32 b.value with
    | none =>
      rw [hu] at h
      cases h
    | some k =>
      simp only [hu] at h
      obtain ⟨hpos,hk⟩ := toU32_some _ k hu
      rw [← hk]
      split at h
      · cases h
      · exact ⟨hpos,limited_ok _ maxIntBits r h⟩

theorem rshiftValues_ok (h : rshiftValues maxIntBits a.toValue b.toValue=.ok r) :
    0≤b.value ∧ r=(PyInt.ofInt (a.value.fdiv (2^b.value.toNat))).toValue := by
  simp only [rshiftValues,PyInt.requireIntOperands_ok,a.toBigint_toValue,b.toBigint_toValue,bind,
    Except.bind] at h
  split at h
  · cases h
  · cases hu : toU32 b.value with
    | none =>
      rw [hu] at h
      cases h
    | some k =>
      simp only [hu] at h
      obtain ⟨hpos,hk⟩ := toU32_some _ k hu
      rw [← hk]
      exact ⟨hpos,limited_ok _ maxIntBits r h⟩

end Powers

section Bits

/-- A bitwise kernel acts bit by bit in two's complement and keeps a bool pair boolean. -/
theorem bitInts_ok (op : String) (f : Bool → Bool → Bool) (onWord : Int64 → Int64 → Int64)
    (onInt : Int → Int → Int)
    (hword : ∀a b i, (onWord a b).toInt.testBit i=f (a.toInt.testBit i) (b.toInt.testBit i))
    (hint : ∀x y i, (onInt x y).testBit i=f (x.testBit i) (y.testBit i)) (hf : f false false=false)
    (a b : PyInt) :
    ∃c : PyInt, bitInts op f onWord onInt a.toValue b.toValue=.ok c.toValue ∧
      (∀i, c.value.testBit i=f (a.value.testBit i) (b.value.testBit i)) ∧
      (c.isBool=true ↔ a.isBool=true ∧ b.isBool=true) := by
  have hslow : (do
      requireIntOperands op a.toValue b.toValue
      let l ← toBigint a.toValue
      let r ← toBigint b.toValue
      return intFromBigint (onInt l r) : Except EvalError Value)=
        .ok (PyInt.ofInt (onInt a.value b.value)).toValue := by
    rw [PyInt.requireIntOperands_ok,a.toBigint_toValue,b.toBigint_toValue,PyInt.ofInt_toValue]
    rfl
  have hpromoted : ¬(a.isBool=true ∧ b.isBool=true) →
      bitInts op f onWord onInt a.toValue b.toValue=.ok (PyInt.ofInt (onInt a.value b.value)).toValue →
      ∃c : PyInt, bitInts op f onWord onInt a.toValue b.toValue=.ok c.toValue ∧
        (∀i, c.value.testBit i=f (a.value.testBit i) (b.value.testBit i)) ∧
        (c.isBool=true ↔ a.isBool=true ∧ b.isBool=true) := by
    intro hbool h
    refine ⟨_,h,?_,?_⟩
    · intro i
      rw [PyInt.ofInt_value]
      exact hint _ _ i
    · simp [hbool]
  cases a with
  | bool p =>
    cases b with
    | bool q =>
      refine ⟨.bool (f p q),rfl,?_,by simp [PyInt.isBool]⟩
      intro i
      have hbit : ∀c : Bool, (boolInt c).testBit i=(c&&decide (i=0)) := by
        intro c
        cases c with
        | false => simp [boolInt,Int.testBit]
        | true =>
          cases i with
          | zero => rfl
          | succ j => exact (Nat.testBit_succ 1 j).trans (by simp)
      simp only [PyInt.value,hbit]
      cases h : decide (i=0) <;> simp [hf]
    | _ => exact hpromoted (by simp [PyInt.isBool]) hslow
  | int p =>
    cases b with
    | int q =>
      refine ⟨.int (onWord p q),rfl,?_,by simp [PyInt.isBool]⟩
      intro i
      exact hword p q i
    | _ => exact hpromoted (by simp [PyInt.isBool]) hslow
  | big n wide => exact hpromoted (by simp [PyInt.isBool]) hslow

theorem toInt_or (a b : Int64) (i : Nat) :
    (a|||b).toInt.testBit i=(a.toInt.testBit i||b.toInt.testBit i) := by
  apply testBit_toInt_map or a.toBitVec b.toBitVec (a|||b).toBitVec
  · intro j _
    rw [Int64.toBitVec_or,BitVec.getLsbD_or]
  · rw [Int64.toBitVec_or,BitVec.msb_or]

theorem toInt_xor (a b : Int64) (i : Nat) :
    (a^^^b).toInt.testBit i=(a.toInt.testBit i^^b.toInt.testBit i) := by
  apply testBit_toInt_map xor a.toBitVec b.toBitVec (a^^^b).toBitVec
  · intro j _
    rw [Int64.toBitVec_xor,BitVec.getLsbD_xor]
  · rw [Int64.toBitVec_xor,BitVec.msb_xor]

theorem toInt_and (a b : Int64) (i : Nat) :
    (a&&&b).toInt.testBit i=(a.toInt.testBit i&&b.toInt.testBit i) := by
  apply testBit_toInt_map and a.toBitVec b.toBitVec (a&&&b).toBitVec
  · intro j _
    rw [Int64.toBitVec_and,BitVec.getLsbD_and]
  · rw [Int64.toBitVec_and,BitVec.msb_and]

theorem toInt_complement (a : Int64) : (~~~a).toInt= -a.toInt-1 := by
  have hlow := a.le_toInt
  have hhigh := a.toInt_lt
  rw [Int64.toInt_not]
  exact Int.bmod_eq_of_le (by omega) (by omega)

theorem testBit_complement (n : Int) (i : Nat) : (-n-1).testBit i=!n.testBit i := by
  have h : -n-1=n.lnot := by
    cases n with
    | ofNat k =>
      rw [Int.lnot,Int.negSucc_eq,Int.ofNat_eq_natCast]
      omega
    | negSucc k =>
      rw [Int.lnot,Int.negSucc_eq]
      omega
  rw [h,Int.testBit_lnot]

end Bits

section Exact

/-- The operators whose result may stay a bool. -/
def Operator.bitwise : Operator → Bool
  | .bitOr => true
  | .bitXor => true
  | .bitAnd => true
  | _ => false

/-- `r` is the result of `op` on the mathematical integers. -/
def Computes (op : Operator) (x y r : Int) : Prop :=
  match op with
  | .add => r=x+y
  | .sub => r=x-y
  | .mult => r=x*y
  | .floorDiv => ∃m, FloorDivision x y r m
  | .mod => ∃q, FloorDivision x y q r
  | .pow => 0≤y ∧ r=x^y.toNat
  | .lShift => 0≤y ∧ r=x*2^y.toNat
  | .rShift => 0≤y ∧ ∃m, FloorDivision x (2^y.toNat) r m
  | .bitOr => ∀i, r.testBit i=(x.testBit i||y.testBit i)
  | .bitXor => ∀i, r.testBit i=(x.testBit i^^y.testBit i)
  | .bitAnd => ∀i, r.testBit i=(x.testBit i&&y.testBit i)
  | .div => False
  | .matMult => False

/-- `outcome` is exact and canonical for `op` on `a` and `b`. -/
structure Exact (op : Operator) (a b : PyInt) (outcome : Except EvalError Value) : Prop where
  result : ∀r, outcome=.ok r → ∃c : PyInt, r=c.toValue ∧ Computes op a.value b.value c.value ∧
    (c.isBool=true ↔ op.bitwise=true ∧ a.isBool=true ∧ b.isBool=true)
  zero : op=.floorDiv ∨ op=.mod →
    ((∃message, outcome=.error (zeroDivisionError message)) ↔ b.value=0)

variable {op : Operator} {a b : PyInt} {outcome : Except EvalError Value}

theorem exact_ofInt (n : Int) (hbit : op.bitwise=false) (hdiv : ¬(op=.floorDiv ∨ op=.mod))
    (h : ∀r, outcome=.ok r → Computes op a.value b.value n ∧ r=(PyInt.ofInt n).toValue) :
    Exact op a b outcome := by
  refine ⟨?_,fun hop => absurd hop hdiv⟩
  intro r hr
  obtain ⟨hcomp,hform⟩ := h r hr
  refine ⟨_,hform,?_,?_⟩
  · rw [PyInt.ofInt_value]
    exact hcomp
  · simp [hbit]

theorem exact_division (message : String) (hbit : op.bitwise=false)
    (h : (b.value=0 ∧ outcome=.error (zeroDivisionError message)) ∨
      (b.value≠0 ∧ ∃c : PyInt, outcome=.ok c.toValue ∧ Computes op a.value b.value c.value ∧
        c.isBool=false)) :
    Exact op a b outcome := by
  obtain ⟨h0,hout⟩|⟨h0,c,hout,hcomp,hbool⟩ := h
  · subst hout
    refine ⟨?_,fun _ => ⟨fun _ => h0,fun _ => ⟨message,rfl⟩⟩⟩
    intro r hr
    cases hr
  · subst hout
    refine ⟨?_,?_⟩
    · intro r hr
      cases hr
      exact ⟨c,rfl,hcomp,by simp [hbool,hbit]⟩
    · intro _
      refine ⟨?_,fun hb => absurd hb h0⟩
      rintro ⟨m,hm⟩
      cases hm

theorem exact_bits (hbit : op.bitwise=true)
    (h : ∃c : PyInt, outcome=.ok c.toValue ∧ Computes op a.value b.value c.value ∧
      (c.isBool=true ↔ a.isBool=true ∧ b.isBool=true)) :
    Exact op a b outcome := by
  obtain ⟨c,hout,hcomp,hbool⟩ := h
  subst hout
  refine ⟨?_,?_⟩
  · intro r hr
    cases hr
    exact ⟨c,rfl,hcomp,by simp [hbool,hbit]⟩
  · rintro (hop|hop) <;> subst hop <;> cases hbit

variable (powf : Int → Int → F64) (rest : Operator → Value → Value → Except EvalError Value)
  (maxIntBits : Nat)

/-- The dispatch hands a pair of integers to the kernel of the operator. -/
theorem applyBinop_exact (op : Operator) (a b : PyInt) (hdiv : op≠.div) (hmat : op≠.matMult)
    (hpow : op=.pow → 0≤b.value) :
    Exact op a b (applyBinop powf rest maxIntBits op a.toValue b.toValue) := by
  have hints : (isInt a.toValue&&isInt b.toValue)=true := by rw [a.isInt_toValue,b.isInt_toValue]; rfl
  unfold applyBinop
  rw [if_pos hints]
  cases op with
  | add =>
    refine exact_ofInt (a.value+b.value) rfl (by simp) ?_
    intro r hr
    exact ⟨rfl,(Except.ok.inj ((intOp_eq _ a b).symm.trans hr)).symm⟩
  | sub =>
    refine exact_ofInt (a.value-b.value) rfl (by simp) ?_
    intro r hr
    exact ⟨rfl,(Except.ok.inj ((intOp_eq _ a b).symm.trans hr)).symm⟩
  | mult =>
    refine exact_ofInt (a.value*b.value) rfl (by simp) ?_
    intro r hr
    exact ⟨rfl,(Except.ok.inj ((intOp_eq _ a b).symm.trans hr)).symm⟩
  | floorDiv =>
    apply exact_division "integer division or modulo by zero" rfl
    apply divideInts_spec _ _ _ (fun x y q => ∃m, FloorDivision x y q m)
    · intro i j hj hfit
      exact ⟨_,pythonFloordiv_spec i j hj hfit⟩
    · intro x y hy
      exact ⟨_,floorDivision_fdiv x y hy⟩
  | mod =>
    apply exact_division "integer modulo by zero" rfl
    apply divideInts_spec _ _ _ (fun x y m => ∃q, FloorDivision x y q m)
    · intro i j hj hfit
      exact ⟨_,pythonFloordiv_spec i j hj hfit⟩
    · intro x y hy
      exact ⟨_,floorDivision_fdiv x y hy⟩
  | pow =>
    refine exact_ofInt (a.value^b.value.toNat) rfl (by simp) ?_
    intro r hr
    exact ⟨⟨hpow rfl,rfl⟩,powInts_ok powf maxIntBits a b r (hpow rfl) hr⟩
  | lShift =>
    refine exact_ofInt (a.value*2^b.value.toNat) rfl (by simp) ?_
    intro r hr
    obtain ⟨hpos,hform⟩ := lshiftValues_ok maxIntBits a b r hr
    exact ⟨⟨hpos,rfl⟩,hform⟩
  | rShift =>
    refine exact_ofInt (a.value.fdiv (2^b.value.toNat)) rfl (by simp) ?_
    intro r hr
    obtain ⟨hpos,hform⟩ := rshiftValues_ok maxIntBits a b r hr
    exact ⟨⟨hpos,_,floorDivision_fdiv _ _ (by positivity)⟩,hform⟩
  | bitOr =>
    apply exact_bits rfl
    exact bitInts_ok "|" or _ _ toInt_or Int.testBit_lor rfl a b
  | bitXor =>
    apply exact_bits rfl
    exact bitInts_ok "^" xor _ _ toInt_xor Int.testBit_lxor rfl a b
  | bitAnd =>
    apply exact_bits rfl
    exact bitInts_ok "&" and _ _ toInt_and Int.testBit_land rfl a b
  | div => exact absurd rfl hdiv
  | matMult => exact absurd rfl hmat

theorem evalBinop_eq (op : Operator) (a b : PyInt) :
    evalBinop powf rest maxIntBits op a.toValue b.toValue=
      applyBinop powf rest maxIntBits op a.toValue b.toValue := by
  have hfast : ∀(exact : Int → Int → Int) (i j : Int64),
      intOp exact (.int i) (.int j)=.ok (fastOp exact i j) := by
    intro exact i j
    rw [fastOp_eq]
    exact intOp_eq exact (.int i) (.int j)
  cases a with
  | int i =>
    cases b with
    | int j =>
      cases op with
      | add => exact (hfast _ i j).symm
      | sub => exact (hfast _ i j).symm
      | mult => exact (hfast _ i j).symm
      | _ => rfl
    | _ => rfl
  | _ => rfl

variable (other : UnaryOp → Value → Except EvalError Value)

theorem negate_exact (a : PyInt) :
    applyUnaryop other .uSub a.toValue=.ok (PyInt.ofInt (-a.value)).toValue := by
  rw [PyInt.ofInt_toValue]
  cases a with
  | bool p => cases p <;> rfl
  | int i =>
    cases h : fitsI64 (-i.toInt) with
    | some v => simp only [applyUnaryop,PyInt.toValue,PyInt.value,checkedNeg,intFromBigint,h]
    | none => simp only [applyUnaryop,PyInt.toValue,PyInt.value,checkedNeg,h]
  | big n wide => rfl

theorem invert_exact (a : PyInt) :
    applyUnaryop other .invert a.toValue=.ok (PyInt.ofInt (-a.value-1)).toValue := by
  rw [PyInt.ofInt_toValue]
  have hword : ∀i : Int64, intFromBigint (-i.toInt-1)=.int (~~~i) := by
    intro i
    rw [← toInt_complement,intFromBigint,fitsI64_toInt]
  cases a with
  | bool p => cases p <;> rfl
  | int i => exact congrArg Except.ok (hword i).symm
  | big n wide => rfl

/-- Integer arithmetic is exact and canonical, in the inline fast path, the dispatch and the
unary operators. -/
theorem integer_arithmetic_exact :
    (∀(op : Operator) (a b : PyInt), op≠.div → op≠.matMult → (op=.pow → 0≤b.value) →
      Exact op a b (applyBinop powf rest maxIntBits op a.toValue b.toValue) ∧
      Exact op a b (evalBinop powf rest maxIntBits op a.toValue b.toValue)) ∧
    ∀a : PyInt,
      (∃c : PyInt, applyUnaryop other .uSub a.toValue=.ok c.toValue ∧ c.value= -a.value ∧
        c.isBool=false) ∧
      ∃c : PyInt, applyUnaryop other .invert a.toValue=.ok c.toValue ∧ c.isBool=false ∧
        ∀i, c.value.testBit i=!a.value.testBit i := by
  refine ⟨?_,?_⟩
  · intro op a b hdiv hmat hpow
    rw [evalBinop_eq]
    exact ⟨applyBinop_exact powf rest maxIntBits op a b hdiv hmat hpow,
      applyBinop_exact powf rest maxIntBits op a b hdiv hmat hpow⟩
  · intro a
    refine ⟨⟨_,negate_exact other a,PyInt.ofInt_value _,PyInt.ofInt_isBool _⟩,
      ⟨_,invert_exact other a,PyInt.ofInt_isBool _,?_⟩⟩
    intro i
    rw [PyInt.ofInt_value]
    exact testBit_complement a.value i

/-- `i64::MIN // -1` leaves the fast path and comes back as a big int. -/
theorem integer_arithmetic_exact_minimum :
    Exact .floorDiv (.int Int64.minValue) (.int (-1))
      (applyBinop (fun _ _ => ⟨0⟩) (fun _ l _ => .ok l) 4096 .floorDiv (.int Int64.minValue)
        (.int (-1))) ∧
    applyBinop (fun _ _ => ⟨0⟩) (fun _ l _ => .ok l) 4096 .floorDiv (.int Int64.minValue)
      (.int (-1))=.ok (.bigInt (2^63)) :=
  ⟨((integer_arithmetic_exact (fun _ _ => ⟨0⟩) (fun _ l _ => .ok l) 4096 (fun _ v => .ok v)).1
    .floorDiv (.int Int64.minValue) (.int (-1)) (by decide) (by decide) (by decide)).1,rfl⟩

end Exact

section Sizes

theorem bits_pow_lower (l : Int) (exp : Nat) (h : 2≤bits l) : (bits l-1)*exp<bits (l^exp) := by
  have hlow : 2^(bits l-1)≤l.natAbs := Nat.lt_size.mp (by rw [← bits]; omega)
  rw [bits.eq_def (l^exp),Int.natAbs_pow,Nat.lt_size,pow_mul]
  exact Nat.pow_le_pow_left hlow exp

theorem bits_pow_upper (l : Int) (exp : Nat) : bits (l^exp)≤bits l*exp+(if exp=0 then 1 else 0) := by
  rw [bits,Int.natAbs_pow,Nat.size_le]
  by_cases h0 : exp=0
  · rw [h0,if_pos rfl,pow_zero,Nat.mul_zero]
    decide
  · rw [if_neg h0,Nat.add_zero,pow_mul]
    exact Nat.pow_lt_pow_left (Nat.lt_size_self l.natAbs) h0

theorem bits_pow_small (l : Int) (exp : Nat) (hexp : 1≤exp) (h : bits l<2) : bits (l^exp)=bits l := by
  have hlt : l.natAbs<2^1 := Nat.size_le.mp (by rw [← bits]; omega)
  have hcases : l.natAbs=0 ∨ l.natAbs=1 := by omega
  rw [bits,bits,Int.natAbs_pow]
  cases hcases with
  | inl h0 => rw [h0,zero_pow (by omega)]
  | inr h1 => rw [h1,one_pow]

end Sizes

section Building

/-- The power that `l.pow(exp)` builds, if the check before it lets it through. -/
def builtPower (maxIntBits : Nat) (l : Int) (exp : Nat) : Option Int :=
  if 2≤bits l ∧ maxIntBits ≤ min ((bits l-1)*exp) (2^64-1) then none else some (l^exp)

variable (powf : Int → Int → F64) (maxIntBits : Nat) {left right : Value} {l r : Int}

theorem powInts_built (hl : left.asBigint=some l) (hr : right.asBigint=some r) (hpos : 1≤ r)
    (hmax : r ≤ maxExponent) :
    powInts powf maxIntBits left right=match builtPower maxIntBits l r.toNat with
      | none => .error (overflowError "integer power result too large to represent")
      | some n => intFromBigintLimited n maxIntBits := by
  have hcap : maxExponent=1000000 := rfl
  have hu : toU32 r=some r.toNat := by
    rw [toU32,if_pos (by omega)]
  rw [powInts]
  simp only [hl,hr,hu,if_neg (show ¬r<0 by omega),if_neg (show ¬r=0 by omega),
    if_neg (show ¬maxExponent < r.toNat by omega),builtPower]
  split <;> rfl

theorem builtPower_none {exp : Nat} (h : builtPower maxIntBits l exp=none) :
    maxIntBits<bits (l^exp) := by
  rw [builtPower] at h
  split at h
  case isTrue hcond =>
    have hlow := bits_pow_lower l exp hcond.1
    omega
  case isFalse => cases h

theorem builtPower_some (hmax : maxIntBits<2^64) {exp : Nat} {n : Int} (hexp : 1≤exp)
    (h : builtPower maxIntBits l exp=some n) :
    n=l^exp ∧ (maxIntBits=0 ∧ bits l<2 ∧ bits n=bits l ∨ bits n<2*maxIntBits+bits l) := by
  rw [builtPower] at h
  split at h
  case isTrue => cases h
  case isFalse hcond =>
    cases h
    refine ⟨rfl,?_⟩
    by_cases hsmall : bits l<2
    · have hkeep := bits_pow_small l exp hexp hsmall
      by_cases h0 : maxIntBits=0
      · exact .inl ⟨h0,hsmall,hkeep⟩
      · exact .inr (by omega)
    · have hpass : (bits l-1)*exp < maxIntBits := by omega
      have hup := bits_pow_upper l exp
      rw [if_neg (by omega)] at hup
      have hdouble : bits l*exp≤2*((bits l-1)*exp) := by
        rw [← Nat.mul_assoc]
        exact Nat.mul_le_mul_right exp (by omega)
      exact .inr (by omega)

end Building

/-- The power that fits is returned, the one that does not is an `OverflowError`, and what is built on the way stays below twice the limit. -/
theorem power_limited (powf : Int → Int → F64) (maxIntBits : UInt64) (left right : Value) (l r : Int)
    (hl : left.asBigint=some l) (hr : right.asBigint=some r) (hpos : 1≤ r) (hmax : r≤1000000) :
    (bits (l^r.toNat) ≤ maxIntBits.toNat →
      powInts powf maxIntBits.toNat left right=.ok (intFromBigint (l^r.toNat))) ∧
    (maxIntBits.toNat<bits (l^r.toNat) →
      ∃ message,powInts powf maxIntBits.toNat left right=.error (overflowError message)) ∧
    ∀ n,builtPower maxIntBits.toNat l r.toNat=some n →
      n=l^r.toNat ∧ (maxIntBits.toNat=0 ∧ bits l<2 ∧ bits n=bits l ∨
        bits n<2*maxIntBits.toNat+bits l) := by
  have hword : maxIntBits.toNat<2^64 := maxIntBits.toNat_lt
  have hexp : 1≤ r.toNat := by omega
  have hbuilt := powInts_built powf maxIntBits.toNat hl hr hpos hmax
  refine ⟨?_,?_,fun n hn => builtPower_some _ hword hexp hn⟩
  · intro hfits
    cases hb : builtPower maxIntBits.toNat l r.toNat with
    | none =>
      have hlarge := builtPower_none _ hb
      omega
    | some n =>
      obtain ⟨rfl,-⟩ := builtPower_some _ hword hexp hb
      rw [hbuilt,hb]
      show intFromBigintLimited (l^r.toNat) maxIntBits.toNat=_
      rw [intFromBigintLimited,if_neg (by omega)]
  · intro hlarge
    cases hb : builtPower maxIntBits.toNat l r.toNat with
    | none => exact ⟨_,by rw [hbuilt,hb]⟩
    | some n =>
      obtain ⟨rfl,-⟩ := builtPower_some _ hword hexp hb
      refine ⟨"int exceeds max_int_bits limit ("++toString maxIntBits.toNat++" bits)",?_⟩
      rw [hbuilt,hb]
      show intFromBigintLimited (l^r.toNat) maxIntBits.toNat=_
      rw [intFromBigintLimited,if_pos hlarge]

theorem power_limited_cube : builtPower 8 3 5=some (3^5) ∧ bits (3^5)<2*8+bits 3 := by
  have hbuilt : builtPower 8 3 5=some (3^5) := by decide
  obtain ⟨-,-,hroom⟩ :=
    power_limited (fun _ _ => F64.zero) 8 (.int 3) (.int 5) 3 5 rfl rfl (by decide) (by decide)
  obtain ⟨-,hzero | hbits⟩ := hroom (3^5) hbuilt
  · exact absurd hzero.1 (by decide)
  · exact ⟨hbuilt,hbits⟩

/-- With a limit of no bits the bound has no room for a power of zero. -/
theorem no_room : ∃ n,builtPower (0 : UInt64).toNat 0 1=some n ∧
    ¬bits n<2*(0 : UInt64).toNat+bits 0 := ⟨0,by decide,by decide⟩

end InterpretThis
