import InterpretThis.Math.Approximation
import Mathlib.Algebra.Order.Ring.Abs
import Mathlib.RingTheory.Coprime.Lemmas

namespace InterpretThis.Fractions

open Approximation

/-- `p0`, `q0`, `p1`, `q1` of the loop. -/
structure Convergents where
  p0 : ℤ
  q0 : ℤ
  p1 : ℤ
  q1 : ℤ

/-- The loop of `limit_denominator`; the quotient truncates toward zero, and a division by zero is
`none`. -/
def expand (m : ℤ) (c : Convergents) (n d : ℤ) : Option Convergents :=
  if d=0 then none
  else
    let a := n.tdiv d
    let q2 := c.q0+a*c.q1
    if m<q2 then some c
    else expand m ⟨c.p1,c.q1,c.p0+a*c.p1,q2⟩ d (n-a*d)
termination_by d.natAbs
decreasing_by
  have hrem : n-n.tdiv d*d=n.tmod d := by rw [Int.tmod_def,mul_comm]
  rw [hrem,Int.natAbs_tmod]
  exact Nat.mod_lt _ (Int.natAbs_pos.mpr (by assumption))

/-- `BigRational::new`. -/
def newRatio (p q : ℤ) : Option ℚ := if q=0 then none else some ((p : ℚ)/q)

/-- What follows the loop. -/
def closest (m : ℤ) (f : ℚ) (c : Convergents) : Option ℚ :=
  if c.q1=0 then none
  else
    let k := (m-c.q0).tdiv c.q1
    (newRatio (c.p0+k*c.p1) (c.q0+k*c.q1)).bind fun bound1 =>
      (newRatio c.p1 c.q1).map fun bound2 =>
        if |bound2-f| ≤ |bound1-f| then bound2 else bound1

def limitDenominator (f : ℚ) (maxDenominator : ℤ) : Option ℚ :=
  if maxDenominator<1 then some f
  else if (f.den : ℤ) ≤ maxDenominator then some f
  else (expand maxDenominator ⟨0,1,1,0⟩ f.num f.den).bind (closest maxDenominator f)

/-- The denominators of the convergents of `n/d`. -/
def denominators (q0 q1 n d : ℕ) : List ℕ :=
  if h : d=0 then []
  else (q0+n/d*q1)::denominators q1 (q0+n/d*q1) d (n%d)
termination_by d
decreasing_by exact Nat.mod_lt n (Nat.pos_of_ne_zero h)

/-- The index of the first convergent of a number whose denominator is above the limit. -/
def crossing (f : ℚ) (m : ℤ) : ℕ :=
  (denominators 1 0 f.num.natAbs f.den).findIdx fun q : ℕ => decide (m<q)

/-- What the claim asks of a result. -/
def Limits (f : ℚ) (m : ℤ) : Prop :=
  ∃ r,limitDenominator f m=some r ∧ Best m f r ∧ ((f.den : ℤ) ≤ m → r=f)

/-- The remainders and the convergents of the Euclidean run on `N/D`. -/
structure Expansion (N D p0 q0 p1 q1 n d : ℕ) : Prop where
  num : N=p1*n+p0*d
  den : D=q1*n+q0*d
  det : (p1*q0 : ℤ)-p0*q1=1 ∨ (p0*q1 : ℤ)-p1*q0=1

section Run

variable {N D p0 q0 p1 q1 n d m : ℕ}

theorem Expansion.remainder_pos (e : Expansion N D p0 q0 p1 q1 n d) (hc : N.Coprime D)
    (hm : m<D) (hq : q1 ≤ m) : 0<d := by
  by_contra hzero
  have hd : d=0 := by omega
  have hN := e.num
  have hD := e.den
  rw [hd,Nat.mul_zero,Nat.add_zero] at hN hD
  have hdvd : n ∣ N.gcd D := Nat.dvd_gcd ⟨p1,by rw [hN,Nat.mul_comm]⟩ ⟨q1,by rw [hD,Nat.mul_comm]⟩
  rw [hc] at hdvd
  have hone : n=1 := Nat.dvd_one.mp hdvd
  rw [hone,Nat.mul_one] at hD
  omega

theorem Expansion.step (e : Expansion N D p0 q0 p1 q1 n d) :
    Expansion N D p1 q1 (p0+n/d*p1) (q0+n/d*q1) d (n%d) := by
  have hn : n=d*(n/d)+n%d := (Nat.div_add_mod n d).symm
  have hN := e.num
  have hD := e.den
  refine ⟨?_,?_,?_⟩
  · calc N=p1*(d*(n/d)+n%d)+p0*d := by rw [← hn]; exact hN
      _=(p0+n/d*p1)*d+p1*(n%d) := by ring
  · calc D=q1*(d*(n/d)+n%d)+q0*d := by rw [← hn]; exact hD
      _=(q0+n/d*q1)*d+q1*(n%d) := by ring
  · push_cast
    cases e.det with
    | inl h =>
      right
      rw [← h]
      ring
    | inr h =>
      left
      rw [← h]
      ring

/-- Moving `p0/q0` toward `p1/q1` by `k` steps. -/
theorem Expansion.slide (e : Expansion N D p0 q0 p1 q1 n d) {k : ℕ} (hk : k*d ≤ n) :
    Expansion N D (p0+k*p1) (q0+k*q1) p1 q1 (n-k*d) d := by
  obtain ⟨r,hr⟩ := Nat.exists_eq_add_of_le hk
  have hsub : n-k*d=r := by omega
  rw [hsub]
  refine ⟨?_,?_,?_⟩
  · rw [e.num,hr]
    ring
  · rw [e.den,hr]
    ring
  · push_cast
    cases e.det with
    | inl h =>
      left
      rw [← h]
      ring
    | inr h =>
      right
      rw [← h]
      ring

theorem expand_step (m p0 q0 p1 q1 n d : ℤ) (hd : d≠0) :
    expand m ⟨p0,q0,p1,q1⟩ n d=
      if m<q0+n.tdiv d*q1 then some ⟨p0,q0,p1,q1⟩
      else expand m ⟨p1,q1,p0+n.tdiv d*p1,q0+n.tdiv d*q1⟩ d (n-n.tdiv d*d) := by
  rw [expand,if_neg hd]

theorem remainder_cast (n d : ℕ) : (n : ℤ)-(n/d : ℕ)*d=(n%d : ℕ) := by
  have h := Nat.div_add_mod n d
  have hz : ((d*(n/d)+n%d : ℕ) : ℤ)=n := by rw [h]
  push_cast at hz ⊢
  linarith

/-- On a number that is not negative the loop stops before the first convergent above the limit. -/
theorem expand_pos (hc : N.Coprime D) (hm : m<D) (e : Expansion N D p0 q0 p1 q1 n d)
    (h0 : q0 ≤ m) (h1 : q1 ≤ m) :
    ∃ p0' q0' p1' q1' n' d' : ℕ,
      expand m ⟨p0,q0,p1,q1⟩ n d=some ⟨p0',q0',p1',q1'⟩ ∧
      Expansion N D p0' q0' p1' q1' n' d' ∧ q0' ≤ m ∧ q1' ≤ m ∧ m<q0'+n'/d'*q1' := by
  induction d using Nat.strong_induction_on generalizing p0 q0 p1 q1 n with
  | _ d ih =>
    have hd := e.remainder_pos hc hm h1
    have hquot : (n : ℤ).tdiv d=(n/d : ℕ) := rfl
    rw [expand_step _ _ _ _ _ _ _ (by omega),hquot,remainder_cast]
    by_cases hq : m<q0+n/d*q1
    · refine ⟨p0,q0,p1,q1,n,d,?_,e,h0,h1,hq⟩
      rw [if_pos (by exact_mod_cast hq)]
    · obtain ⟨p0',q0',p1',q1',n',d',hrun,he⟩ := ih (n%d) (Nat.mod_lt n hd) e.step h1 (by omega)
      refine ⟨p0',q0',p1',q1',n',d',?_,he⟩
      rw [if_neg (by exact_mod_cast hq)]
      push_cast at hrun ⊢
      exact hrun

/-- The state of a run on the negated number. The truncated quotients are all negated, so at every
other step the signs of the two convergents are exchanged. -/
def negated (even : Bool) (m : ℤ) (p0 q0 p1 q1 n d : ℕ) : Option Convergents :=
  match even with
  | true => expand m ⟨-p0,q0,p1,-q1⟩ (-n) d
  | false => expand m ⟨p0,-q0,-p1,q1⟩ n (-d)

theorem negated_step (even : Bool) (hd : 0<d) :
    negated even m p0 q0 p1 q1 n d=
      if even=true ∧ m<q0+n/d*q1 then some ⟨-p0,q0,p1,-q1⟩
      else negated (!even) m p1 q1 (p0+n/d*p1) (q0+n/d*q1) d (n%d) := by
  have hrem := remainder_cast n d
  cases even with
  | true =>
    have hquot : (-n : ℤ).tdiv d= -(n/d : ℕ) := by rw [Int.neg_tdiv]; rfl
    have hden : (q0 : ℤ)+ -(n/d : ℕ)* -q1=(q0+n/d*q1 : ℕ) := by push_cast; ring
    have hnum : (-p0 : ℤ)+ -(n/d : ℕ)*p1= -(p0+n/d*p1 : ℕ) := by push_cast; ring
    have hleft : (-n : ℤ)- -(n/d : ℕ)*d= -(n%d : ℕ) := by rw [← hrem]; ring
    rw [negated,expand_step _ _ _ _ _ _ _ (by omega),hquot,hden,hnum,hleft]
    simp only [true_and,Nat.cast_lt]
    rfl
  | false =>
    have hquot : (n : ℤ).tdiv (-d)= -(n/d : ℕ) := by rw [Int.tdiv_neg]; rfl
    have hden : (-q0 : ℤ)+ -(n/d : ℕ)*q1= -(q0+n/d*q1 : ℕ) := by push_cast; ring
    have hnum : (p0 : ℤ)+ -(n/d : ℕ)* -p1=(p0+n/d*p1 : ℕ) := by push_cast; ring
    have hleft : (n : ℤ)- -(n/d : ℕ)* -d=(n%d : ℕ) := by rw [← hrem]; ring
    rw [negated,expand_step _ _ _ _ _ _ _ (by omega),hquot,hden,hnum,hleft,if_neg (by omega),
      if_neg (by simp)]
    rfl

/-- The two bounds of the last step are the ends of a bracket. -/
theorem Expansion.bracket (e : Expansion N D p0 q0 p1 q1 n d) (hD : 0<D) (h0 : 0<q0)
    (h1 : 0<q1) (hwide : m<q0+q1) :
    Bracket m ((N : ℚ)/D) p0 q0 p1 q1 ∨ Bracket m ((N : ℚ)/D) p1 q1 p0 q0 := by
  have hnum : (N : ℤ)=p1*n+p0*d := by exact_mod_cast e.num
  have hden : (D : ℤ)=q1*n+q0*d := by exact_mod_cast e.den
  have r0 : (0 : ℤ)<q0 := by exact_mod_cast h0
  have r1 : (0 : ℤ)<q1 := by exact_mod_cast h1
  have rD : (0 : ℤ)<D := by exact_mod_cast hD
  cases e.det with
  | inl h => exact Or.inl (.of_weights r0 r1 h (by omega) rD (by omega) (by omega) hnum hden)
  | inr h =>
    rw [add_comm] at hnum hden
    exact Or.inr (.of_weights r1 r0 h (by omega) rD (by omega) (by omega) hnum hden)

/-- The quotient of the last step. -/
theorem closest_bounds (x : ℚ) (h0 : q0 ≤ m) (h1 : 0<q1) (hpos : 0<q0+(m-q0)/q1*q1) :
    closest m x ⟨p0,q0,p1,q1⟩=some
      (if |(p1 : ℚ)/q1-x| ≤ |((p0+(m-q0)/q1*p1 : ℕ) : ℚ)/(q0+(m-q0)/q1*q1 : ℕ)-x| then (p1 : ℚ)/q1
        else ((p0+(m-q0)/q1*p1 : ℕ) : ℚ)/(q0+(m-q0)/q1*q1 : ℕ)) := by
  have hk : ((m : ℤ)-q0).tdiv q1=((m-q0)/q1 : ℕ) := by
    rw [← Nat.cast_sub h0]
    rfl
  have hne : (q1 : ℤ)≠0 := by omega
  have hbound : (q0 : ℤ)+((m-q0)/q1 : ℕ)*q1≠0 := by
    have := hpos.ne'
    exact_mod_cast this
  rw [closest,if_neg hne]
  simp only [hk,newRatio,if_neg hne,if_neg hbound,Option.bind_some,Option.map_some]
  push_cast
  rfl

/-- Whichever end comes first in the bracket. -/
theorem nearer_best {x : ℚ} {m p q p' q' : ℤ} (h : Bracket m x p q p' q' ∨ Bracket m x p' q' p q)
    (hq : q ≤ m) (hq' : q' ≤ m) :
    Best m x (if |(p' : ℚ)/q'-x| ≤ |(p : ℚ)/q-x| then (p' : ℚ)/q' else (p : ℚ)/q) := by
  rw [abs_sub_comm _ x,abs_sub_comm _ x]
  split
  case isTrue hle =>
    cases h with
    | inl b => exact (b.best hq hq').2 hle
    | inr b => exact (b.best hq' hq).1 hle
  case isFalse hlt =>
    have hle := (not_le.mp hlt).le
    cases h with
    | inl b => exact (b.best hq hq').1 hle
    | inr b => exact (b.best hq' hq).2 hle

theorem closest_best (e : Expansion N D p0 q0 p1 q1 n d) (hD : 0<D) (h0 : q0 ≤ m) (h1 : q1 ≤ m)
    (hstop : m<q0+n/d*q1) :
    ∃r,closest m ((N : ℚ)/D) ⟨p0,q0,p1,q1⟩=some r ∧ Best m ((N : ℚ)/D) r := by
  have hq1 : 0<q1 := by
    rcases Nat.eq_zero_or_pos q1 with hz | hp
    · rw [hz,Nat.mul_zero] at hstop
      omega
    · exact hp
  have hsplit := Nat.div_add_mod (m-q0) q1
  have hmod := Nat.mod_lt (m-q0) hq1
  rw [Nat.mul_comm] at hsplit
  have hk : (m-q0)/q1<n/d := by
    by_contra hle
    have := Nat.mul_le_mul_right q1 (not_lt.mp hle)
    omega
  have hkd : (m-q0)/q1*d ≤ n :=
    (Nat.mul_le_mul_right d hk.le).trans (Nat.div_mul_le_self n d)
  have hpos : 0<q0+(m-q0)/q1*q1 := by omega
  rw [closest_bounds _ h0 hq1 hpos]
  refine ⟨_,rfl,?_⟩
  have near := (e.slide hkd).bracket hD hpos hq1 (m := m) (by omega)
  exact nearer_best near (by omega) (by omega)

theorem newRatio_neg_left (p q : ℤ) : newRatio (-p) q=(newRatio p q).map (-·) := by
  by_cases hq : q=0
  · rw [newRatio,newRatio,if_pos hq,if_pos hq]
    rfl
  · rw [newRatio,newRatio,if_neg hq,if_neg hq,Option.map_some]
    push_cast
    rw [neg_div]

theorem newRatio_neg_right (p q : ℤ) : newRatio p (-q)=(newRatio p q).map (-·) := by
  by_cases hq : q=0
  · rw [newRatio,newRatio,if_pos hq,if_pos (by omega)]
    rfl
  · rw [newRatio,newRatio,if_neg hq,if_neg (by omega),Option.map_some]
    push_cast
    rw [div_neg]

/-- The last step commutes with the negation of the number. -/
theorem closest_negated (m : ℤ) (x : ℚ) (p0 q0 p1 q1 : ℤ) :
    closest m (-x) ⟨-p0,q0,p1,-q1⟩=(closest m x ⟨p0,q0,p1,q1⟩).map (-·) := by
  rw [closest,closest]
  by_cases hq : q1=0
  · rw [if_pos hq,if_pos (neg_eq_zero.mpr hq)]
    rfl
  · rw [if_neg hq,if_neg (neg_ne_zero.mpr hq)]
    have hnum : -p0+(m-q0).tdiv (-q1)*p1= -(p0+(m-q0).tdiv q1*p1) := by
      rw [Int.tdiv_neg]
      ring
    have hden : q0+(m-q0).tdiv (-q1)* -q1=q0+(m-q0).tdiv q1*q1 := by
      rw [Int.tdiv_neg]
      ring
    have dist (r : ℚ) : |-r- -x|=|r-x| := by
      rw [← abs_neg,neg_sub,sub_neg_eq_add,neg_add_eq_sub]
    simp only [hnum,hden,newRatio_neg_left,newRatio_neg_right]
    cases newRatio (p0+(m-q0).tdiv q1*p1) (q0+(m-q0).tdiv q1*q1) with
    | none => rfl
    | some bound1 =>
      cases newRatio p1 q1 with
      | none => rfl
      | some bound2 =>
        simp only [Option.map_some,Option.bind_some,dist]
        split <;> rfl

/-- A convergent above the limit is nearer than the one before it. -/
theorem Expansion.nearer (e : Expansion N D p0 q0 p1 q1 n d) (hD : 0<D) (h0 : 0<q0)
    (h1 : q0 ≤ q1) (hd : d ≤ n) : |(p1 : ℚ)/q1-(N : ℚ)/D| ≤ |(p0 : ℚ)/q0-(N : ℚ)/D| := by
  have rD : (0 : ℚ)<D := by exact_mod_cast hD
  have r0 : (0 : ℚ)<q0 := by exact_mod_cast h0
  have r1 : (0 : ℚ)<q1 := by exact_mod_cast h0.trans_le h1
  have hnum : (N : ℚ)=p1*n+p0*d := by exact_mod_cast e.num
  have hden : (D : ℚ)=q1*n+q0*d := by exact_mod_cast e.den
  have left : (p1 : ℚ)/q1-(N : ℚ)/D=(p1*q0-p0*q1)*(d/(q1*D)) := by
    rw [div_sub_div _ _ r1.ne' rD.ne',hnum,hden]
    ring
  have right : (p0 : ℚ)/q0-(N : ℚ)/D=(p0*q1-p1*q0)*(n/(q0*D)) := by
    rw [div_sub_div _ _ r0.ne' rD.ne',hnum,hden]
    ring
  have le : (d : ℚ)/(q1*D) ≤ n/(q0*D) := by
    have hdn : (d : ℚ) ≤ n := by exact_mod_cast hd
    have hqq : (q0 : ℚ) ≤ q1 := by exact_mod_cast h1
    gcongr
  have unit : |(p1*q0 : ℚ)-p0*q1|=1 := by
    cases e.det with
    | inl h =>
      have hq : (p1*q0 : ℚ)-p0*q1=1 := by exact_mod_cast h
      rw [hq,abs_one]
    | inr h =>
      have hq : (p0*q1 : ℚ)-p1*q0=1 := by exact_mod_cast h
      rw [abs_sub_comm,hq,abs_one]
  have nonneg (a b : ℕ) : (0 : ℚ) ≤ a/(b*D) :=
    div_nonneg a.cast_nonneg (mul_nonneg b.cast_nonneg rD.le)
  rw [left,right,abs_mul,abs_mul,abs_sub_comm (p0*q1 : ℚ),unit,one_mul,one_mul,
    abs_of_nonneg (nonneg d q1),abs_of_nonneg (nonneg n q0)]
  exact le

theorem Expansion.den_eq (e : Expansion N D p0 q0 p1 q1 n d) (h1 : 0<q1) :
    ((p1 : ℚ)/q1).den=q1 := by
  have hco : p1.Coprime q1 := by
    rw [← Nat.isCoprime_iff_coprime]
    cases e.det with
    | inl h => exact ⟨q0,-p0,by rw [← h]; ring⟩
    | inr h => exact ⟨-q0,p0,by rw [← h]; ring⟩
  have h := Rat.den_div_eq_of_coprime (a := p1) (b := q1) (by exact_mod_cast h1) hco
  rw [Int.cast_natCast,Int.cast_natCast] at h
  exact Int.natCast_inj.mp h

/-- From a convergent above the limit the last step returns that convergent. -/
theorem closest_far (e : Expansion N D p0 q0 p1 q1 n d) (hD : 0<D) (h0 : 0<q0) (hm : q0 ≤ m)
    (h1 : m<q1) (hd : d ≤ n) :
    ∃r,closest m ((N : ℚ)/D) ⟨p0,q0,p1,q1⟩=some r ∧ ¬ (r.den : ℤ) ≤ m := by
  have hk : (m-q0)/q1=0 := Nat.div_eq_of_lt (by omega)
  rw [closest_bounds _ hm (by omega) (by omega),hk,Nat.zero_mul,Nat.zero_mul,Nat.add_zero,
    Nat.add_zero,if_pos (e.nearer hD h0 (by omega) hd)]
  refine ⟨_,rfl,?_⟩
  rw [e.den_eq (by omega)]
  omega

/-- Where the loop stops on a negated number: before the first convergent above the limit. -/
def StopsBefore (N D m : ℕ) (run : Option Convergents) : Prop :=
  ∃p0 q0 p1 q1 n d : ℕ,run=some ⟨-p0,q0,p1,-q1⟩ ∧ Expansion N D p0 q0 p1 q1 n d ∧
    q0 ≤ m ∧ q1 ≤ m ∧ m<q0+n/d*q1

/-- Or past it, unless the expansion ends there with a division by zero. -/
def StopsPast (N D m : ℕ) (run : Option Convergents) : Prop :=
  run=none ∨ ∃p0 q0 p1 q1 n d : ℕ,run=some ⟨-p0,q0,p1,-q1⟩ ∧ Expansion N D p0 q0 p1 q1 n d ∧
    0<q0 ∧ q0 ≤ m ∧ m<q1 ∧ d ≤ n

/-- The crossing as seen from a state of the run. -/
def ahead (m q0 q1 n d : ℕ) : ℕ := (denominators q0 q1 n d).findIdx fun q => decide (m<q)

theorem ahead_step (hd : 0<d) : ahead m q0 q1 n d=
    if m<q0+n/d*q1 then 0 else ahead m q1 (q0+n/d*q1) d (n%d)+1 := by
  rw [ahead,denominators,dif_neg hd.ne',List.findIdx_cons]
  by_cases h : m<q0+n/d*q1
  · rw [if_pos h,decide_eq_true h]
    rfl
  · rw [if_neg h,decide_eq_false h]
    rfl

/-- At the crossing of an odd step the loop goes one step too far. -/
theorem negated_crossed (e : Expansion N D p0 q0 p1 q1 n d) (hd : 0<d) (h0 : 0<q1) (h1 : q1 ≤ m)
    (hq : m<q0+n/d*q1) : StopsPast N D m (negated false m p0 q0 p1 q1 n d) := by
  rw [negated_step _ hd,if_neg (by simp)]
  rcases Nat.eq_zero_or_pos (n%d) with hzero | hpos
  · left
    rw [hzero,Bool.not_false,negated,expand,if_pos Int.natCast_zero]
  · right
    have hlt := Nat.mod_lt n hd
    have hquot : 1 ≤ d/(n%d) := (Nat.one_le_div_iff hpos).mpr hlt.le
    have hnext : m<q1+d/(n%d)*(q0+n/d*q1) := by
      have := Nat.mul_le_mul_right (q0+n/d*q1) hquot
      omega
    refine ⟨p1,q1,p0+n/d*p1,q0+n/d*q1,d,n%d,?_,e.step,h0,h1,hq,hlt.le⟩
    rw [negated_step _ hpos,if_pos ⟨rfl,hnext⟩]

theorem negated_stops (even : Bool) (hc : N.Coprime D) (hm : m<D)
    (e : Expansion N D p0 q0 p1 q1 n d) (h0 : q0 ≤ m) (h1 : q1 ≤ m)
    (hpos : 0 < if even then q0 else q1) :
    ((Even (ahead m q0 q1 n d) ↔ even=true) →
      StopsBefore N D m (negated even m p0 q0 p1 q1 n d)) ∧
    (¬ (Even (ahead m q0 q1 n d) ↔ even=true) →
      StopsPast N D m (negated even m p0 q0 p1 q1 n d)) := by
  induction d using Nat.strong_induction_on generalizing even p0 q0 p1 q1 n with
  | _ d ih =>
    have hd := e.remainder_pos hc hm h1
    rw [ahead_step hd]
    by_cases hq : m<q0+n/d*q1
    · rw [if_pos hq]
      cases even with
      | true =>
        refine ⟨fun _ => ⟨p0,q0,p1,q1,n,d,?_,e,h0,h1,hq⟩,fun h => absurd (by simp) h⟩
        rw [negated_step _ hd,if_pos ⟨rfl,hq⟩]
      | false => exact ⟨fun h => absurd h (by simp),fun _ => negated_crossed e hd hpos h1 hq⟩
    · rw [if_neg hq,negated_step _ hd,if_neg fun h => hq h.2,Nat.even_add_one]
      have hnext : 0 < if !even then q1 else q0+n/d*q1 := by
        cases even with
        | true => exact Nat.lt_of_lt_of_le hpos (Nat.le_add_right q0 _)
        | false => exact hpos
      have run := ih (n%d) (Nat.mod_lt n hd) (!even) e.step h1 (by omega) hnext
      have flip : (Even (ahead m q1 (q0+n/d*q1) d (n%d)) ↔ (!even)=true) ↔
          (¬Even (ahead m q1 (q0+n/d*q1) d (n%d)) ↔ even=true) := by
        cases even <;> simp
      rw [flip] at run
      exact run

end Run

section Limits

variable {f : ℚ} {m : ℤ}

theorem limits_self (hm : 1 ≤ m) (hden : (f.den : ℤ) ≤ m) : Limits f m := by
  refine ⟨f,?_,best_self hden,fun _ => rfl⟩
  rw [limitDenominator,if_neg (by omega),if_pos hden]

theorem start (N D : ℕ) : Expansion N D 0 1 1 0 N D :=
  ⟨by simp,by simp,Or.inl (by simp)⟩

theorem limits_nonneg (hm : 1 ≤ m) (hden : ¬ (f.den : ℤ) ≤ m) (hf : 0 ≤ f) : Limits f m := by
  obtain ⟨k,rfl⟩ := Int.eq_ofNat_of_zero_le (by omega : 0 ≤ m)
  have hnum : f.num=f.num.natAbs := (Int.natAbs_of_nonneg (Rat.num_nonneg.mpr hf)).symm
  have hval : (f.num.natAbs : ℚ)/f.den=f := by
    conv_rhs => rw [← Rat.num_div_den f,hnum]
    rfl
  obtain ⟨p0,q0,p1,q1,n,d,hrun,e,h0,h1,hstop⟩ :=
    expand_pos (m := k) f.reduced (by omega) (start f.num.natAbs f.den) (by omega) (by omega)
  obtain ⟨r,hr,best⟩ := closest_best e f.pos h0 h1 hstop
  rw [hval] at hr best
  refine ⟨r,?_,best,fun h => absurd h hden⟩
  rw [limitDenominator,if_neg (by omega),if_neg hden,hnum]
  have first : (⟨0,1,1,0⟩ : Convergents)=⟨(0 : ℕ),(1 : ℕ),(1 : ℕ),(0 : ℕ)⟩ := rfl
  rw [first,hrun]
  exact hr

theorem neg_value (hf : f<0) : -((f.num.natAbs : ℚ)/f.den)=f := by
  have hnum : f.num= -(f.num.natAbs : ℤ) := by
    have := Rat.num_neg.mpr hf
    omega
  conv_rhs => rw [← Rat.num_div_den f,hnum]
  rw [Int.cast_neg,neg_div]
  rfl

theorem limit_negated {k : ℕ} (hm : 1 ≤ k) (hden : ¬ (f.den : ℤ) ≤ k) (hf : f<0) :
    limitDenominator f k=
      (negated true k 0 1 1 0 f.num.natAbs f.den).bind (closest k f) := by
  have hnum : f.num= -(f.num.natAbs : ℤ) := by
    have := Rat.num_neg.mpr hf
    omega
  rw [limitDenominator,if_neg (by omega),if_neg hden,negated,← hnum]
  rfl

theorem limits_before {k : ℕ} (hm : 1 ≤ k) (hden : ¬ (f.den : ℤ) ≤ k) (hf : f<0)
    (h : StopsBefore f.num.natAbs f.den k (negated true k 0 1 1 0 f.num.natAbs f.den)) :
    Limits f k := by
  obtain ⟨p0,q0,p1,q1,n,d,hrun,e,h0,h1,hstop⟩ := h
  obtain ⟨r,hr,best⟩ := closest_best e f.pos h0 h1 hstop
  have neg := best_neg best
  rw [neg_value hf] at neg
  refine ⟨-r,?_,neg,fun h => absurd h hden⟩
  have run := closest_negated k ((f.num.natAbs : ℚ)/f.den) p0 q0 p1 q1
  rw [neg_value hf,hr] at run
  rw [limit_negated hm hden hf,hrun]
  exact run

theorem not_limits_past {k : ℕ} (hm : 1 ≤ k) (hden : ¬ (f.den : ℤ) ≤ k) (hf : f<0)
    (h : StopsPast f.num.natAbs f.den k (negated true k 0 1 1 0 f.num.natAbs f.den)) :
    ¬ Limits f k := by
  rintro ⟨r,hr,best,-⟩
  rw [limit_negated hm hden hf] at hr
  rcases h with hnone | ⟨p0,q0,p1,q1,n,d,hrun,e,hpos,h0,h1,hle⟩
  · rw [hnone] at hr
    cases hr
  · obtain ⟨far,hfar,hbig⟩ := closest_far e f.pos hpos h0 h1 hle
    have run := closest_negated k ((f.num.natAbs : ℚ)/f.den) p0 q0 p1 q1
    rw [neg_value hf,hfar] at run
    rw [hrun,Option.bind_some,run,Option.map_some] at hr
    cases hr
    rw [Best,Rat.neg_den] at best
    exact hbig best.1

/-- The result is a best approximation exactly when the number is not negative, needs no rounding,
or has its first convergent above the limit at an even index. -/
theorem limitDenominator_best_iff (f : ℚ) (m : ℤ) (hm : 1 ≤ m) :
    Limits f m ↔ 0 ≤ f ∨ (f.den : ℤ) ≤ m ∨ Even (crossing f m) := by
  by_cases hden : (f.den : ℤ) ≤ m
  · exact iff_of_true (limits_self hm hden) (Or.inr (Or.inl hden))
  by_cases hf : 0 ≤ f
  · exact iff_of_true (limits_nonneg hm hden hf) (Or.inl hf)
  obtain ⟨k,rfl⟩ := Int.eq_ofNat_of_zero_le (by omega : 0 ≤ m)
  have hlt : f<0 := not_le.mp hf
  have hk : 1 ≤ k := by exact_mod_cast hm
  have hkden : k<f.den := by omega
  have cross : crossing f k=ahead k 1 0 f.num.natAbs f.den := by
    simp only [crossing,ahead,Nat.cast_lt]
  have stops := negated_stops true f.reduced hkden (start f.num.natAbs f.den) hk
    (Nat.zero_le k) Nat.one_pos
  rw [cross]
  by_cases heven : Even (ahead k 1 0 f.num.natAbs f.den)
  · exact iff_of_true (limits_before hk hden hlt (stops.1 (iff_of_true heven rfl)))
      (Or.inr (Or.inr heven))
  · refine iff_of_false (not_limits_past hk hden hlt (stops.2 fun h => heven (h.2 rfl))) ?_
    rintro (h | h | h)
    · exact hf h
    · exact hden h
    · exact heven h

/-- `Fraction(-3,7).limit_denominator(5)`. -/
theorem limitDenominator_best_iff_three_sevenths : Limits (-3/7) 5 := by
  have hnum : (-3/7 : ℚ).num= -3 := by with_unfolding_all decide
  have hden : (-3/7 : ℚ).den=7 := by with_unfolding_all decide
  have even : crossing (-3/7) 5=2 := by
    unfold crossing
    rw [hnum,hden]
    simp [denominators,List.findIdx_cons]
  apply (limitDenominator_best_iff (-3/7) 5 (by decide)).mpr
  rw [even]
  exact .inr (.inr (by decide))

/-- `Fraction(-1,3).limit_denominator(2)` divides by zero. -/
theorem limitDenominator_third : ¬ ∀ f : ℚ,∀ m : ℤ,1 ≤ m → Limits f m := by
  intro h
  obtain ⟨r,hr,-⟩ := h (-1/3) 2 (by decide)
  have none : limitDenominator (-1/3) 2=none := by
    have hnum : (-1/3 : ℚ).num= -1 := by with_unfolding_all decide
    have hden : (-1/3 : ℚ).den=3 := by with_unfolding_all decide
    rw [limitDenominator,if_neg (by decide),hnum,hden,if_neg (by decide),
      expand_step _ _ _ _ _ _ _ (by decide),if_neg (by decide),
      expand_step _ _ _ _ _ _ _ (by decide),if_neg (by decide),expand,if_pos (by decide)]
    rfl
  rw [none] at hr
  cases hr

end Limits

end InterpretThis.Fractions
