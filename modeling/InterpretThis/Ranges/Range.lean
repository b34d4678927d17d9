import InterpretThis.Framework.Progression
import InterpretThis.Value.Arith
import InterpretThis.Value.Tower

namespace InterpretThis.Ranges

/-- The `i64` that a release build keeps of an exact result. -/
def wrap (n : Int) : Int := (n+2^63)%2^64-2^63

def InI64 (n : Int) : Prop := -2^63≤ n ∧ n<2^63

instance (n : Int) : Decidable (InI64 n) := inferInstanceAs (Decidable (_ ∧ _))

section Wrapping

theorem wrap_of_in {n : Int} (h : InI64 n) : wrap n=n := by
  have hlow := h.1
  have hhigh := h.2
  rw [wrap]
  omega

theorem in_wrap (n : Int) : InI64 (wrap n) := by
  constructor <;> (rw [wrap]; omega)

theorem wrap_wrap_add (n m : Int) : wrap (wrap n+m)=wrap (n+m) := by
  simp only [wrap]
  omega

theorem wrap_wrap_sub (n m : Int) : wrap (wrap n-m)=wrap (n-m) := by
  simp only [wrap]
  omega

theorem bmod_wrap (n : Int) : n.bmod (2^64)=wrap n := by
  rw [Int.bmod_def,wrap]
  omega

variable (a b : Int64)

theorem in_toInt : InI64 a.toInt := ⟨a.le_toInt,a.toInt_lt⟩

theorem toInt_add : (a+b).toInt=wrap (a.toInt+b.toInt) := by
  rw [Int64.toInt_add,bmod_wrap]

theorem toInt_sub : (a-b).toInt=wrap (a.toInt-b.toInt) := by
  rw [Int64.toInt_sub,bmod_wrap]

theorem toInt_neg : (-a).toInt=wrap (-a.toInt) := by
  rw [Int64.toInt_neg,bmod_wrap]

theorem toInt_mul : (a*b).toInt=wrap (a.toInt*b.toInt) := by
  rw [Int64.toInt_mul,bmod_wrap]

theorem toInt_div : (a/b).toInt=wrap (a.toInt.tdiv b.toInt) := by
  rw [Int64.toInt_div,bmod_wrap]

theorem toInt_mod : (a%b).toInt=a.toInt.tmod b.toInt := Int64.toInt_mod a b

end Wrapping

section Source

variable (start stop step : Int64)

/-- `range_length`; the last conversion is `usize::try_from(raw).unwrap_or(0)`. -/
def rangeLength : Nat :=
  let raw : Int64 :=
    if 0<step then max ((stop-start+step-1)/step) 0
    else if step<0 then max ((start-stop-step-1)/(-step)) 0
    else 0
  raw.toInt.toNat

def maxCollectionSize : Int := 10000000

/-- The count of `range_iter`, taken on `i128`. -/
def rangeCount : Int :=
  let s := start.toInt
  let e := stop.toInt
  let st := step.toInt
  let span := e-s
  if 0<st ∧ 0<span ∨ st<0 ∧ span<0 then span.tdiv st+(if span.tmod st≠0 then 1 else 0) else 0

/-- The loop of `range_iter`; the fuel bounds its passes. -/
def rangeWalk : Nat → Int64 → Option (List Int64)
  | 0,_ => none
  | fuel+1,i =>
    if 0<step ∧ i < stop ∨ step<0 ∧ stop < i then (rangeWalk fuel (i+step)).map (i::·) else some []

def rangeIter (fuel : Nat) : Option (Except EvalError (List Int64)) :=
  let count := rangeCount start stop step
  if maxCollectionSize<count then
    some (.error (.interpreter (.limitExceeded ("range with "++toString count++
      " elements is too large to materialise (limit: "++toString maxCollectionSize++")"))))
  else (rangeWalk stop step fuel start).map .ok

/-- `*f as i64`: the fraction is dropped and the result saturates. -/
def floatAsI64 (f : F64) : Int := max (-2^63) (min (f.toRat.num.tdiv f.toRat.den) (2^63-1))

/-- The `i64` that `range_contains` looks for. -/
def searched : Value → Option Int64
  | .int n => some n
  | .bool b => some (boolI64 b)
  | .float f =>
    if f.isFinite=false ∨ f.toRat.den≠1 then none
    else if (F64.ofInt (floatAsI64 f)).eq f=false then none
    else some (Int64.ofInt (floatAsI64 f))
  | _ => none

/-- `range_contains`; the remainder of `i64::MIN` by `-1` panics. -/
def rangeContains (item : Value) : Option Bool :=
  match searched item with
  | none => some false
  | some val =>
    if step=0 then some false
    else if (if 0<step then start≤val ∧ val<stop else val ≤ start ∧ stop<val) then
      if val-start=Int64.minValue ∧ step=-1 then none
      else some (decide ((val-start)%step=0))
    else some false

def intIndex (index : Value) (containerName : String) : Except EvalError Int64 :=
  match index with
  | .int i => .ok i
  | .bool b => .ok (boolI64 b)
  | .enumMember _ _ value .int => intIndex value containerName
  | .enumMember _ _ value .intFlag => intIndex value containerName
  | other => .error (.interpreter (.typeError (
    if containerName="string" then "string indices must be integers, not '"++other.typeName++"'"
    else if containerName="bytes" then
      "byte indices must be integers or slices, not "++other.typeName
    else containerName++" indices must be integers or slices, not "++other.typeName)))

def indexError (kind : String) : EvalError := .exception "IndexError" (kind++" index out of range")

def normalizeSeqIndex (raw : Int64) (len : Nat) (kind : String) : Except EvalError Nat :=
  if (2 : Int)^63 ≤ len then
    .error (.interpreter (.runtime "sequence length overflows i64 for indexing"))
  else
    let lenI := Int64.ofNat len
    let adjusted := if raw<0 then lenI+raw else raw
    if adjusted<0 ∨ lenI≤adjusted then .error (indexError kind)
    else .ok adjusted.toInt.toNat

def rangeGetItem (index : Value) : Except EvalError Value := do
  let raw ← intIndex index "range"
  let len := rangeLength start stop step
  let idx ← normalizeSeqIndex raw len "range object"
  if (2 : Int)^63 ≤ idx then .error (.interpreter (.runtime "range index overflow"))
  else return .int (start+Int64.ofNat idx*step)

/-- `is_truthy` of a range. -/
def isTruthy : Bool := if 0<step then decide (start<stop) else decide (stop<start)

end Source

open Progression

/-- The way from `start` to `stop` in the direction of the step. -/
def extent (start stop step : Int) : Int := if 0<step then stop-start else start-stop

/-- The numerator of the length is an `i64`. The least step is its own negation, so it counts one term or none. -/
def LengthFits (start stop step : Int) : Prop :=
  if step=-2^63 then (extent start stop step≤0 ∧ extent start stop step≠1-2^64) ∨ extent start stop step=1
  else InI64 (extent start stop step+step.natAbs-1)

instance (start stop step : Int) : Decidable (LengthFits start stop step) :=
  inferInstanceAs (Decidable (ite _ _ _))

section Quotient

theorem tdiv_nonpos {n d : Int} (hd : 0<d) (hn : n≤0) : n.tdiv d≤0 := by
  obtain ⟨m,rfl⟩ : ∃ m,n= -m := ⟨-n,by omega⟩
  rw [Int.neg_tdiv]
  have hm := Int.tdiv_nonneg (show 0≤ m by omega) hd.le
  omega

/-- A wrapped numerator never gives the right quotient. -/
theorem wrapped_quotient {n d : Int} (hd : 0<d) (hd' : d<2^63) (hlow : d-2^64≤ n) (hhigh : n<2^65) :
    ((wrap n).tdiv d).toNat=(n/d).toNat ↔ InI64 n := by
  constructor
  · intro h
    by_contra hout
    by_cases hneg : n<0
    · -- the wrapped numerator is at least the divisor, and there is no term
      have hw : d≤wrap n := by
        rw [InI64] at hout
        rw [wrap]
        omega
      have hone : 1≤(wrap n).tdiv d := by
        rw [Int.tdiv_eq_ediv_of_nonneg (by omega)]
        exact (Int.le_ediv_iff_mul_le hd).mpr (by omega)
      have hzero : n/d<0 := Int.ediv_neg_of_neg_of_pos hneg hd
      omega
    · have hpos : 1≤ n/d := (Int.le_ediv_iff_mul_le hd).mpr (by rw [InI64] at hout; omega)
      by_cases hw : wrap n<0
      · have hnone := tdiv_nonpos hd hw.le
        omega
      · -- the numerator lost `2^64`, more than one divisor
        have hless : wrap n+d≤ n := by
          rw [InI64] at hout
          rw [wrap] at hw ⊢
          omega
        have hstep : (wrap n+d)/d=wrap n/d+1 := by
          rw [Int.add_ediv_of_dvd_right (dvd_refl d),Int.ediv_self (by omega)]
        have hmono : (wrap n+d)/d≤ n/d := Int.ediv_le_ediv hd hless
        rw [Int.tdiv_eq_ediv_of_nonneg (by omega)] at h
        have hnonneg : 0≤wrap n/d := Int.ediv_nonneg (by omega) hd.le
        omega
  · intro hin
    rw [wrap_of_in hin]
    by_cases hneg : n<0
    · have hleft := tdiv_nonpos hd hneg.le
      have hright : n/d<0 := Int.ediv_neg_of_neg_of_pos hneg hd
      omega
    · rw [Int.tdiv_eq_ediv_of_nonneg (by omega)]

theorem wrap_tdiv {n d : Int} (hn : InI64 n) (hd : d≠-1) : wrap (n.tdiv d)=n.tdiv d := by
  apply wrap_of_in
  have hlow := hn.1
  have hhigh := hn.2
  by_cases h1 : d=1
  · rw [h1,Int.tdiv_one]
    exact hn
  · have habs : (n.tdiv d).natAbs=n.natAbs/d.natAbs := Int.natAbs_tdiv n d
    have hhalf : n.natAbs/d.natAbs≤2^62 := by
      by_cases h0 : d.natAbs=0
      · rw [h0,Nat.div_zero]
        exact Nat.zero_le _
      · have htwo : n.natAbs/d.natAbs≤ n.natAbs/2 := Nat.div_le_div_left (by omega) (by omega)
        omega
    constructor <;> omega

theorem toNat_max (x : Int64) : (max x 0).toInt.toNat=x.toInt.toNat := by
  have hdef : max x 0=if x≤0 then 0 else x := rfl
  rw [hdef]
  by_cases h : x≤0
  · have hle : x.toInt≤0 := Int64.le_iff_toInt_le.mp h
    rw [if_pos h,Int64.toInt_zero]
    omega
  · rw [if_neg h]

end Quotient

section Length

variable (start stop step : Int64)

theorem rangeLength_up (hs : 0<step.toInt) : rangeLength start stop step=
    ((wrap (stop.toInt-start.toInt+step.toInt-1)).tdiv step.toInt).toNat := by
  have hpos : 0<step := Int64.lt_iff_toInt_lt.mpr hs
  have hone : (1 : Int64).toInt=1 := rfl
  have hnum : (stop-start+step-1).toInt=wrap (stop.toInt-start.toInt+step.toInt-1) := by
    rw [toInt_sub,toInt_add,toInt_sub,hone,wrap_wrap_sub,add_sub_assoc,wrap_wrap_add,← add_sub_assoc]
  rw [rangeLength]
  simp only [if_pos hpos]
  rw [toNat_max,toInt_div,hnum,wrap_tdiv (in_wrap _) (by omega)]

theorem rangeLength_down (hs : step.toInt<0) (hmin : step.toInt≠-2^63) :
    rangeLength start stop step=
      ((wrap (start.toInt-stop.toInt-step.toInt-1)).tdiv (-step.toInt)).toNat := by
  have h3 := in_toInt step
  rw [InI64] at h3
  have hneg : step<0 := Int64.lt_iff_toInt_lt.mpr hs
  have hnpos : ¬0<step := fun h => by
    have hlt : 0<step.toInt := Int64.lt_iff_toInt_lt.mp h
    omega
  have hone : (1 : Int64).toInt=1 := rfl
  have hden : (-step).toInt=-step.toInt := by
    rw [toInt_neg,wrap_of_in ⟨by omega,by omega⟩]
  have hnum : (start-stop-step-1).toInt=wrap (start.toInt-stop.toInt-step.toInt-1) := by
    rw [toInt_sub,toInt_sub,toInt_sub,hone,wrap_wrap_sub,sub_sub,wrap_wrap_sub,← sub_sub]
  rw [rangeLength]
  simp only [if_neg hnpos,if_pos hneg]
  rw [toNat_max,toInt_div,hnum,hden,wrap_tdiv (in_wrap _) (by omega)]

theorem length_up (hs : 0<step.toInt) :
    rangeLength start stop step=count start.toInt stop.toInt step.toInt ↔
      LengthFits start.toInt stop.toInt step.toInt := by
  have h1 := in_toInt start
  have h2 := in_toInt stop
  have h3 := in_toInt step
  rw [InI64] at h1 h2 h3
  have hext : extent start.toInt stop.toInt step.toInt=stop.toInt-start.toInt := if_pos hs
  rw [rangeLength_up start stop step hs,count,if_pos hs,
    wrapped_quotient hs h3.2 (by omega) (by omega),LengthFits,if_neg (by omega),hext]
  have habs : (step.toInt.natAbs : Int)=step.toInt := Int.natAbs_of_nonneg hs.le
  rw [habs]

theorem length_down (hs : step.toInt<0) (hmin : step.toInt≠-2^63) :
    rangeLength start stop step=count start.toInt stop.toInt step.toInt ↔
      LengthFits start.toInt stop.toInt step.toInt := by
  have h1 := in_toInt start
  have h2 := in_toInt stop
  have h3 := in_toInt step
  rw [InI64] at h1 h2 h3
  have hext : extent start.toInt stop.toInt step.toInt=start.toInt-stop.toInt := if_neg (by omega)
  rw [rangeLength_down start stop step hs hmin,count,if_neg (by omega),
    wrapped_quotient (by omega) (by omega) (by omega) (by omega),LengthFits,if_neg hmin,hext]
  have habs : (step.toInt.natAbs : Int)=-step.toInt := by omega
  rw [habs]
  have hsum : start.toInt-stop.toInt-step.toInt-1=start.toInt-stop.toInt+ -step.toInt-1 := by ring
  rw [hsum]

theorem tdiv_least {n : Int} (h : InI64 n) : (n.tdiv (-2^63)).toNat=if n=-2^63 then 1 else 0 := by
  have hlow := h.1
  have hhigh := h.2
  rw [Int.tdiv_neg]
  by_cases hn : 0≤ n
  · rw [Int.tdiv_eq_ediv_of_nonneg hn,if_neg (by omega)]
    omega
  · obtain ⟨m,rfl⟩ : ∃ m,n= -m := ⟨-n,by omega⟩
    rw [Int.neg_tdiv,neg_neg,Int.tdiv_eq_ediv_of_nonneg (by omega)]
    split_ifs <;> omega

theorem rangeLength_least (hs : step.toInt=-2^63) : rangeLength start stop step=
    if wrap (start.toInt-stop.toInt-step.toInt-1)=-2^63 then 1 else 0 := by
  have hneg : step<0 := Int64.lt_iff_toInt_lt.mpr (by rw [hs]; decide)
  have hnpos : ¬0<step := fun h => by
    have hlt : 0<step.toInt := Int64.lt_iff_toInt_lt.mp h
    omega
  have hone : (1 : Int64).toInt=1 := rfl
  have hden : (-step).toInt=-2^63 := by
    rw [toInt_neg,hs]
    decide
  have hnum : (start-stop-step-1).toInt=wrap (start.toInt-stop.toInt-step.toInt-1) := by
    rw [toInt_sub,toInt_sub,toInt_sub,hone,wrap_wrap_sub,sub_sub,wrap_wrap_sub,← sub_sub]
  rw [rangeLength]
  simp only [if_neg hnpos,if_pos hneg]
  rw [toNat_max,toInt_div,hnum,hden,wrap_tdiv (in_wrap _) (by decide),tdiv_least (in_wrap _)]

theorem length_least (hs : step.toInt=-2^63) :
    rangeLength start stop step=count start.toInt stop.toInt step.toInt ↔
      LengthFits start.toInt stop.toInt step.toInt := by
  have h1 := in_toInt start
  have h2 := in_toInt stop
  rw [InI64] at h1 h2
  have hext : extent start.toInt stop.toInt step.toInt=start.toInt-stop.toInt := if_neg (by omega)
  have hcount : count start.toInt stop.toInt step.toInt=
      ((start.toInt-stop.toInt-step.toInt-1)/(-step.toInt)).toNat := by
    rw [count,if_neg (by omega)]
  rw [rangeLength_least start stop step hs,hcount,LengthFits,if_pos hs,hext,hs,neg_neg,wrap]
  clear hcount hext
  split_ifs <;> omega

theorem length_iff (h0 : step≠0) :
    rangeLength start stop step=count start.toInt stop.toInt step.toInt ↔
      LengthFits start.toInt stop.toInt step.toInt := by
  by_cases hs : 0<step.toInt
  · exact length_up start stop step hs
  · have hne : step.toInt≠0 := fun h => h0 (Int64.toInt_inj.mp h)
    by_cases hmin : step.toInt=-2^63
    · exact length_least start stop step hmin
    · exact length_down start stop step (by omega) hmin

/-- A length that comes out wrong for a range with terms is zero. -/
theorem length_or_zero (h0 : step≠0) (hpos : 0<count start.toInt stop.toInt step.toInt) :
    rangeLength start stop step=count start.toInt stop.toInt step.toInt ∨
      rangeLength start stop step=0 := by
  have h1 := in_toInt start
  have h2 := in_toInt stop
  have h3 := in_toInt step
  have hne : step.toInt≠0 := fun h => h0 (Int64.toInt_inj.mp h)
  have hgo := (ahead_iff hne).mpr hpos
  rw [InI64] at h1 h2 h3
  rw [Ahead] at hgo
  have hsmall : ∀ {n d : Int},0<d → n<d → (n.tdiv d).toNat=0 := by
    intro n d hd hn
    by_cases hneg : n<0
    · have hle := tdiv_nonpos hd hneg.le
      omega
    · rw [Int.tdiv_eq_zero_of_lt (by omega) hn]
      rfl
  by_cases hs : 0<step.toInt
  · rw [length_up start stop step hs,rangeLength_up start stop step hs]
    by_cases hl : LengthFits start.toInt stop.toInt step.toInt
    · exact .inl hl
    · rw [LengthFits,if_neg (by omega),extent,if_pos hs,InI64] at hl
      refine .inr (hsmall hs ?_)
      rw [wrap]
      omega
  · by_cases hmin : step.toInt=-2^63
    · rw [length_least start stop step hmin,rangeLength_least start stop step hmin]
      rw [LengthFits,if_pos hmin,extent,if_neg hs,hmin,wrap]
      split_ifs <;> omega
    · rw [length_down start stop step (by omega) hmin,
        rangeLength_down start stop step (by omega) hmin]
      by_cases hl : LengthFits start.toInt stop.toInt step.toInt
      · exact .inl hl
      · rw [LengthFits,if_neg hmin,extent,if_neg hs,InI64] at hl
        refine .inr (hsmall (by omega) ?_)
        rw [wrap]
        omega

end Length

end InterpretThis.Ranges
