import Mathlib.Algebra.Order.Field.Rat
import Mathlib.Data.Rat.Lemmas
import Mathlib.Tactic.Linarith
import Mathlib.Tactic.FieldSimp
import Mathlib.Tactic.Ring

namespace InterpretThis.Approximation

/-- No fraction whose denominator is at most `m` is closer to `x`. -/
def Best (m : ℤ) (x r : ℚ) : Prop :=
  (r.den : ℤ) ≤ m ∧ ∀ q : ℚ,(q.den : ℤ) ≤ m → |x-r| ≤ |x-q|

theorem best_self {m : ℤ} {x : ℚ} (h : (x.den : ℤ) ≤ m) : Best m x x := by
  refine ⟨h,fun q _ => ?_⟩
  rw [sub_self,abs_zero]
  exact abs_nonneg _

theorem best_neg {m : ℤ} {x r : ℚ} (h : Best m x r) : Best m (-x) (-r) := by
  refine ⟨h.1,fun q hq => ?_⟩
  have hneg := h.2 (-q) hq
  have left : -x- -r=-(x-r) := by ring
  have right : -x-q=-(x- -q) := by ring
  rw [left,right,abs_neg,abs_neg]
  exact hneg

/-- Two neighbouring fractions around `x` with no fraction of a small denominator between them. -/
structure Bracket (m : ℤ) (x : ℚ) (p q p' q' : ℤ) : Prop where
  pos : 0<q
  pos' : 0<q'
  neighbours : p'*q-p*q'=1
  wide : m<q+q'
  low : (p : ℚ)/q ≤ x
  high : x ≤ (p' : ℚ)/q'

variable {m : ℤ} {x : ℚ} {p q p' q' : ℤ}

theorem Bracket.outside (b : Bracket m x p q p' q') (r : ℚ) (hr : (r.den : ℤ) ≤ m) :
    r ≤ (p : ℚ)/q ∨ (p' : ℚ)/q' ≤ r := by
  by_contra hnot
  obtain ⟨hlow,hhigh⟩ := not_or.mp hnot
  have hq : (0 : ℚ)<q := by exact_mod_cast b.pos
  have hq' : (0 : ℚ)<q' := by exact_mod_cast b.pos'
  have hv : (0 : ℚ)<r.den := by exact_mod_cast r.pos
  have hcast : r=(r.num : ℚ)/r.den := (Rat.num_div_den r).symm
  rw [hcast,not_le,div_lt_div_iff₀ hq hv] at hlow
  rw [hcast,not_le,div_lt_div_iff₀ hv hq'] at hhigh
  have left : p*r.den<r.num*q := by exact_mod_cast hlow
  have right : r.num*q'<p'*r.den := by exact_mod_cast hhigh
  have split : (r.den : ℤ)=q'*(r.num*q-p*r.den)+q*(p'*r.den-r.num*q') := by
    calc (r.den : ℤ)=r.den*(p'*q-p*q') := by rw [b.neighbours,mul_one]
      _=q'*(r.num*q-p*r.den)+q*(p'*r.den-r.num*q') := by ring
  have h1 : q'*1 ≤ q'*(r.num*q-p*r.den) := mul_le_mul_of_nonneg_left (by omega) b.pos'.le
  have h2 : q*1 ≤ q*(p'*r.den-r.num*q') := mul_le_mul_of_nonneg_left (by omega) b.pos.le
  have hwide := b.wide
  omega

theorem Bracket.near (b : Bracket m x p q p' q') (r : ℚ) (hr : (r.den : ℤ) ≤ m) :
    |x-(p : ℚ)/q| ≤ |x-r| ∨ |x-(p' : ℚ)/q'| ≤ |x-r| := by
  have hlow := b.low
  have hhigh := b.high
  cases b.outside r hr with
  | inl below =>
    left
    rw [abs_of_nonneg (by linarith),abs_of_nonneg (by linarith)]
    linarith
  | inr above =>
    right
    rw [abs_of_nonpos (by linarith),abs_of_nonpos (by linarith)]
    linarith

/-- A number made from both ends with weights that are not negative is between them. -/
theorem Bracket.of_weights {N D s t : ℤ} (hq : 0<q) (hq' : 0<q') (hdet : p'*q-p*q'=1)
    (hwide : m<q+q') (hD : 0<D) (hs : 0 ≤ s) (ht : 0 ≤ t) (hnum : N=p'*s+p*t)
    (hden : D=q'*s+q*t) : Bracket m ((N : ℚ)/D) p q p' q' := by
  have rq : (0 : ℚ)<q := by exact_mod_cast hq
  have rq' : (0 : ℚ)<q' := by exact_mod_cast hq'
  have rD : (0 : ℚ)<D := by exact_mod_cast hD
  refine ⟨hq,hq',hdet,hwide,?_,?_⟩
  · rw [div_le_div_iff₀ rq rD]
    have low : p*D ≤ N*q := by
      have gap : N*q-p*D=s*(p'*q-p*q') := by
        rw [hnum,hden]
        ring
      rw [hdet,mul_one] at gap
      omega
    exact_mod_cast low
  · rw [div_le_div_iff₀ rD rq']
    have high : N*q' ≤ p'*D := by
      have gap : p'*D-N*q'=t*(p'*q-p*q') := by
        rw [hnum,hden]
        ring
      rw [hdet,mul_one] at gap
      omega
    exact_mod_cast high

theorem den_div_le {a c : ℤ} (hc : 0<c) : (((a : ℚ)/c).den : ℤ) ≤ c := by
  have hdvd : (((a : ℚ)/c).den : ℤ) ∣ c := by
    have h := Rat.den_dvd a c
    rwa [Rat.divInt_eq_div] at h
  exact Int.le_of_dvd hc hdvd

/-- The nearer end of a bracket is a best approximation. -/
theorem Bracket.best (b : Bracket m x p q p' q') (hq : q ≤ m) (hq' : q' ≤ m) :
    (|x-(p : ℚ)/q| ≤ |x-(p' : ℚ)/q'| → Best m x ((p : ℚ)/q)) ∧
    (|x-(p' : ℚ)/q'| ≤ |x-(p : ℚ)/q| → Best m x ((p' : ℚ)/q')) := by
  refine ⟨fun h => ⟨(den_div_le b.pos).trans hq,fun r hr => ?_⟩,
    fun h => ⟨(den_div_le b.pos').trans hq',fun r hr => ?_⟩⟩
  · cases b.near r hr with
    | inl low => exact low
    | inr high => exact h.trans high
  · cases b.near r hr with
    | inl low => exact h.trans low
    | inr high => exact high

end InterpretThis.Approximation
