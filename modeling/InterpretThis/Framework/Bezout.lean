import Mathlib.Algebra.Order.Ring.Abs
import Mathlib.Data.Int.GCD
import Mathlib.Data.Int.ModEq
import Mathlib.Tactic.Ring

namespace InterpretThis
namespace Bezout

/-- What the two rows of the extended Euclidean algorithm on `a` and `m` keep: each cofactor gives
its remainder modulo `m`, and the cofactors have opposite signs and balance to `m`. -/
structure Rows (a m oldR r oldS s : ℤ) : Prop where
  old_nonneg : 0 ≤ oldR
  nonneg : 0 ≤ r
  old : oldS*a≡oldR [ZMOD m]
  new : s*a≡r [ZMOD m]
  gcd : Int.gcd oldR r=Int.gcd a m
  size : |oldS| * r+|s| * oldR=m
  sign : oldS*s ≤ 0

variable {a m oldR r oldS s : ℤ}

theorem start (ha : 0 ≤ a) (hm : 0 ≤ m) : Rows a m a m 1 0 where
  old_nonneg := ha
  nonneg := hm
  old := by rw [one_mul]
  new := by
    rw [zero_mul]
    exact (Int.modEq_zero_iff_dvd.mpr dvd_rfl).symm
  gcd := rfl
  size := by rw [abs_one,abs_zero,one_mul,zero_mul,add_zero]
  sign := by rw [mul_zero]

theorem abs_sub_mul (hsign : oldS*s ≤ 0) {q : ℤ} (hq : 0 ≤ q) :
    |oldS-q*s|=|oldS|+q*|s| := by
  have hsame (h : oldS*s=0) : |oldS-q*s|=|oldS|+q*|s| := by
    rcases mul_eq_zero.mp h with h | h
    · rw [h,zero_sub,abs_neg,abs_zero,zero_add,abs_mul,abs_of_nonneg hq]
    · rw [h,mul_zero,sub_zero,abs_zero,mul_zero,add_zero]
  rcases le_total 0 oldS with h | h <;> rcases le_total 0 s with h' | h'
  · exact hsame (le_antisymm hsign (mul_nonneg h h'))
  · have hle : q*s ≤ 0 := mul_nonpos_of_nonneg_of_nonpos hq h'
    rw [abs_of_nonneg (by omega),abs_of_nonneg h,abs_of_nonpos h']
    ring
  · have hle : 0 ≤ q*s := mul_nonneg hq h'
    rw [abs_of_nonpos (by omega),abs_of_nonpos h,abs_of_nonneg h']
    ring
  · exact hsame (le_antisymm hsign (mul_nonneg_of_nonpos_of_nonpos h h'))

theorem Rows.step (h : Rows a m oldR r oldS s) (hr : 0 < r) :
    Rows a m r (oldR-oldR/r*r) s (oldS-oldR/r*s) where
  old_nonneg := h.nonneg
  nonneg := by
    have hle := Int.ediv_mul_le oldR hr.ne'
    omega
  old := h.new
  new := by
    rw [sub_mul,mul_assoc]
    exact h.old.sub (h.new.mul_left _)
  gcd := by
    rw [← h.gcd,Int.gcd_comm r,mul_comm,Int.gcd_sub_mul_left_left]
  size := by
    rw [abs_sub_mul h.sign (Int.ediv_nonneg h.old_nonneg h.nonneg),← h.size]
    ring
  sign := by
    have hq : 0 ≤ oldR/r := Int.ediv_nonneg h.old_nonneg h.nonneg
    have hsquare : 0 ≤ oldR/r*(s*s) := mul_nonneg hq (mul_self_nonneg s)
    have hsign := h.sign
    have heq : s*(oldS-oldR/r*s)=oldS*s-oldR/r*(s*s) := by ring
    omega

theorem Rows.bounds_new (h : Rows a m oldR r oldS s) (hold : 0<oldR) : |s| ≤ m := by
  have hnew : |s| * 1 ≤ |s| * oldR := mul_le_mul_of_nonneg_left hold (abs_nonneg _)
  have hpos : 0 ≤ |oldS| * r := mul_nonneg (abs_nonneg _) h.nonneg
  have hsize := h.size
  omega

theorem Rows.last (h : Rows a m oldR 0 oldS s) :
    oldR=Int.gcd a m ∧ oldS*a≡Int.gcd a m [ZMOD m] := by
  have heq : oldR=Int.gcd a m := by
    rw [← h.gcd,Int.gcd_zero_right,Int.natAbs_of_nonneg h.old_nonneg]
  exact ⟨heq,heq ▸ h.old⟩

end Bezout
end InterpretThis
