import Mathlib.Data.Int.Bitwise
import Mathlib.Tactic.Ring

namespace InterpretThis.TwosComplement

section Bits

variable {w : Nat}

theorem toInt_of_msb (x : BitVec w) (h : x.msb=true) : x.toInt=Int.negSucc (2^w-(x.toNat+1)) := by
  have hlt := x.isLt
  rw [BitVec.toInt_eq_msb_cond,if_pos h,Int.negSucc_eq]
  have hcast : ((2^w-(x.toNat+1) : Nat) : Int)=2^w-(x.toNat+1) := by
    rw [Nat.cast_sub hlt]
    push_cast
    rfl
  rw [hcast]
  push_cast
  ring

theorem testBit_toInt (x : BitVec w) (i : Nat) :
    x.toInt.testBit i=if i<w then x.getLsbD i else x.msb := by
  cases h : x.msb with
  | true =>
    rw [toInt_of_msb x h,Int.testBit,Nat.testBit_two_pow_sub_succ x.isLt]
    split_ifs with hi
    · simp [hi,BitVec.getLsbD]
    · simp [hi]
  | false =>
    rw [BitVec.toInt_eq_msb_cond,h,if_neg (by decide)]
    change x.toNat.testBit i=_
    split_ifs with hi
    · rfl
    · exact BitVec.getLsbD_of_ge x i (by omega)

theorem testBit_toInt_map (f : Bool → Bool → Bool) (x y z : BitVec w)
    (hbits : ∀i, i<w → z.getLsbD i=f (x.getLsbD i) (y.getLsbD i)) (hmsb : z.msb=f x.msb y.msb)
    (i : Nat) : z.toInt.testBit i=f (x.toInt.testBit i) (y.toInt.testBit i) := by
  rw [testBit_toInt,testBit_toInt,testBit_toInt]
  split_ifs with hi
  · exact hbits i hi
  · exact hmsb

end Bits

section Division

/-- `q` is the quotient rounded down and `r` the remainder with the divisor's sign. -/
def FloorDivision (x y q r : Int) : Prop :=
  x=y*q+r ∧ ((0 ≤ r ∧ r<y) ∨ (y < r ∧ r≤0))

theorem floorDivision_fdiv (x y : Int) (hy : y≠0) : FloorDivision x y (x.fdiv y) (x.fmod y) := by
  refine ⟨(Int.mul_fdiv_add_fmod x y).symm,?_⟩
  have hlow := Int.emod_nonneg x hy
  have hhigh := Int.emod_lt_abs x hy
  rw [Int.fmod_eq_emod]
  split_ifs with h
  · obtain hpos|hdvd := h
    · rw [abs_of_nonneg hpos] at hhigh
      omega
    · rw [Int.emod_eq_zero_of_dvd hdvd]
      omega
  · rw [not_or] at h
    have hne : x%y≠0 := fun h0 => h.2 (Int.dvd_of_emod_eq_zero h0)
    rw [abs_of_neg (by omega)] at hhigh
    omega

theorem floorDivision_tdiv (x y : Int) (hy : y≠0) :
    if x.tmod y≠0 ∧ (x.tmod y<0 ↔ ¬y<0) then FloorDivision x y (x.tdiv y-1) (x.tmod y+y)
    else FloorDivision x y (x.tdiv y) (x.tmod y) := by
  have hsum := Int.mul_tdiv_add_tmod x y
  have habs : (x.tmod y).natAbs<y.natAbs := by
    rw [Int.natAbs_tmod]
    exact Nat.mod_lt _ (Int.natAbs_pos.mpr hy)
  split_ifs with h
  · refine ⟨?_,by omega⟩
    calc x=y*x.tdiv y+x.tmod y := hsum.symm
      _=y*(x.tdiv y-1)+(x.tmod y+y) := by ring
  · exact ⟨hsum.symm,by omega⟩

end Division

end InterpretThis.TwosComplement
