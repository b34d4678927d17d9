import Mathlib.Algebra.Order.Field.Rat
import Mathlib.Algebra.Order.Ring.Abs
import Mathlib.Algebra.Group.Int.Even
import Mathlib.Tactic.FieldSimp
import Mathlib.Tactic.Linarith
import Mathlib.Tactic.Ring

namespace InterpretThis.HalfEven

/-- `y` is the multiple of `s` nearest to `x`, a tie going to the even multiple. -/
def Nearest (x s y : ℚ) : Prop :=
  ∃k : ℤ,y=k*s ∧ ∀j : ℤ,|x-k*s| ≤ |x-j*s| ∧ (|x-j*s| ≤ |x-k*s| → j≠k → Even k)

section Unit

variable {x s c : ℚ} {k j : ℤ}

theorem step_apart (hs : 0<s) (hne : j≠k) : s ≤ |x-k*s|+|x-j*s| := by
  have one : (1 : ℚ) ≤ |(k : ℚ)-j| := by
    exact_mod_cast Int.one_le_abs (sub_ne_zero.mpr hne.symm)
  calc s ≤ |(k : ℚ)-j| * s := le_mul_of_one_le_left hs.le one
    _=|(x-j*s)-(x-k*s)| := by
      have split : (x-j*s)-(x-k*s)=(k-j)*s := by ring
      rw [split,abs_mul,abs_of_pos hs]
    _ ≤ |x-j*s|+|x-k*s| := abs_sub _ _
    _=|x-k*s|+|x-j*s| := add_comm _ _

/-- Within half a step nothing is nearer. -/
theorem nearest_of_close (hs : 0<s) (close : 2*|x-k*s| ≤ s) (tie : 2*|x-k*s|=s → Even k) :
    Nearest x s (k*s) := by
  refine ⟨k,rfl,fun j => ?_⟩
  by_cases hne : j=k
  · rw [hne]
    exact ⟨le_rfl,fun _ h => absurd rfl h⟩
  · have apart := step_apart (x := x) hs hne
    refine ⟨by linarith,fun hle _ => tie (by linarith)⟩

theorem close_of_neighbours {t : ℚ} (hs : 0<s) (up : |t| ≤ |t-s|) (down : |t| ≤ |t+s|) :
    2*|t| ≤ s := by
  rcases le_total 0 t with h | h
  · rw [abs_of_nonneg h] at up ⊢
    rcases abs_cases (t-s) with hc | hc <;> linarith
  · rw [abs_of_nonpos h] at down ⊢
    rcases abs_cases (t+s) with hc | hc <;> linarith

/-- The nearest multiple is unique. -/
theorem Nearest.unique {y z : ℚ} (hs : 0<s) (hy : Nearest x s y) (hz : Nearest x s z) : y=z := by
  obtain ⟨k,rfl,near⟩ := hy
  obtain ⟨l,rfl,near'⟩ := hz
  by_contra hne
  have hkl : l≠k := by
    rintro rfl
    exact hne rfl
  have even := (near l).2 (near' k).1 hkl
  have even' := (near' k).2 (near l).1 hkl.symm
  have up := (near (k+1)).1
  have down := (near (k-1)).1
  have move : x-((k+1 : ℤ) : ℚ)*s=(x-k*s)-s := by push_cast; ring
  have back : x-((k-1 : ℤ) : ℚ)*s=(x-k*s)+s := by push_cast; ring
  rw [move] at up
  rw [back] at down
  have close := close_of_neighbours hs up down
  -- Two even numbers are two steps apart.
  have two : (2 : ℚ) ≤ |(k : ℚ)-l| := by
    have gap : 2 ≤ |k-l| := Int.le_of_dvd (abs_pos.mpr (sub_ne_zero.mpr hkl.symm))
      ((dvd_abs _ _).mpr (even.sub even').two_dvd)
    exact_mod_cast gap
  have far : 2*s ≤ |x-k*s|+|x-l*s| := by
    calc 2*s ≤ |(k : ℚ)-l| * s := mul_le_mul_of_nonneg_right two hs.le
      _=|(x-l*s)-(x-k*s)| := by
        have split : (x-l*s)-(x-k*s)=(k-l)*s := by ring
        rw [split,abs_mul,abs_of_pos hs]
      _ ≤ |x-l*s|+|x-k*s| := abs_sub _ _
      _=|x-k*s|+|x-l*s| := add_comm _ _
  have le := (near' k).1
  linarith

/-- Scaling the number and the step. -/
theorem Nearest.scale {y : ℚ} (hc : 0<c) (h : Nearest x s y) : Nearest (x*c) (s*c) (y*c) := by
  obtain ⟨k,rfl,near⟩ := h
  refine ⟨k,by ring,fun j => ?_⟩
  have move (i : ℤ) : |x*c-i*(s*c)|=|x-i*s| * c := by
    have split : x*c-i*(s*c)=(x-i*s)*c := by ring
    rw [split,abs_mul,abs_of_pos hc]
  rw [move,move]
  exact ⟨mul_le_mul_of_nonneg_right (near j).1 hc.le,
    fun hle hne => (near j).2 (le_of_mul_le_mul_right hle hc) hne⟩

end Unit

end InterpretThis.HalfEven
