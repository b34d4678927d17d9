import Mathlib.Data.Nat.Choose.Basic
import Mathlib.Data.Int.Cast.Lemmas

namespace InterpretThis.Counting

inductive Raised where
  | typeError (message : String)
  | valueError (message : String)

/-- An argument: an `int` or `bool` of any size, or something else by its type's name. -/
inductive Arg where
  | int (z : ℤ)
  | other (typeName : String)

def notInteger (typeName : String) : Raised :=
  .typeError ("'"++typeName++"' object cannot be interpreted as an integer")

def nonnegInt (func : String) : Arg → Except Raised ℤ
  | .int z =>
    if z<0 then .error (.valueError (func++"() argument must be a non-negative integer")) else .ok z
  | .other typeName => .error (notInteger typeName)

def combLoop (n k i result : ℤ) : ℤ :=
  if i<k then combLoop n k (i+1) ((result*(n-k+i+1)).tdiv (i+1)) else result
termination_by (k-i).toNat

/-- What the loop divides, and by what, pass by pass. -/
def combDivisions (n k i result : ℤ) : List (ℤ×ℤ) :=
  if i<k then
    (result*(n-k+i+1),i+1)::combDivisions n k (i+1) ((result*(n-k+i+1)).tdiv (i+1))
  else []
termination_by (k-i).toNat

/-- `math.comb`, with the smaller of `k` and `n-k`. -/
def mathComb (n k : Arg) : Except Raised ℤ := do
  let n ← nonnegInt "comb" n
  let k ← nonnegInt "comb" k
  if k>n then return 0
  let k := if n-k<k then n-k else k
  return combLoop n k 0 1

def permLoop (n k i result : ℤ) : ℤ :=
  if i<k then permLoop n k (i+1) (result*(n-i)) else result
termination_by (k-i).toNat

def mathPerm (n : Arg) (k : Option Arg) : Except Raised ℤ := do
  let n ← nonnegInt "perm" n
  let k ← match k with
    | none => pure n
    | some k => nonnegInt "perm" k
  if k>n then return 0
  return permLoop n k 0 1

def factorialLoop (n k result : ℤ) : ℤ :=
  if k ≤ n then factorialLoop n (k+1) (result*k) else result
termination_by (n+1-k).toNat

def factorial : Arg → Except Raised ℤ
  | .int n =>
    if n<0 then .error (.valueError "factorial() not defined for negative values")
    else .ok (factorialLoop n 2 1)
  | .other typeName => .error (notInteger typeName)

section Loops

theorem choose_mul (m i : ℕ) :
    (((m+i).choose i : ℕ) : ℤ)*(m+i+1)=((m+(i+1)).choose (i+1) : ℕ)*(i+1) := by
  have exact := Nat.add_one_mul_choose_eq (m+i) i
  rw [mul_comm]
  exact_mod_cast exact

/-- The next partial result is exact. -/
theorem choose_step (m i : ℕ) :
    ((((m+i).choose i : ℕ) : ℤ)*(m+i+1)).tdiv (i+1)=((m+(i+1)).choose (i+1) : ℕ) := by
  rw [choose_mul]
  exact Int.mul_tdiv_cancel _ (by omega)

theorem combDivisions_exact (m k d : ℕ) : ∀ i : ℕ,i+d=k →
    ∀p∈combDivisions (m+k) k i ((m+i).choose i : ℕ),p.2∣p.1 := by
  induction d with
  | zero =>
    rintro i rfl p hp
    rw [combDivisions,if_neg (by omega)] at hp
    cases hp
  | succ d ih =>
    intro i hi p hp
    have hterm : (m+k : ℤ)-k+i+1=m+i+1 := by omega
    rw [combDivisions,if_pos (by omega),hterm,choose_step] at hp
    rcases List.mem_cons.mp hp with rfl | later
    · exact ⟨_,(choose_mul m i).trans (mul_comm _ _)⟩
    · exact ih (i+1) (by omega) p (by exact_mod_cast later)

theorem combLoop_eq (m k d : ℕ) : ∀ i : ℕ,i+d=k →
    combLoop (m+k) k i ((m+i).choose i : ℕ)=((m+k).choose k : ℕ) := by
  induction d with
  | zero =>
    rintro i rfl
    rw [combLoop,if_neg (by omega)]
    rfl
  | succ d ih =>
    intro i hi
    have next := ih (i+1) (by omega)
    rw [combLoop,if_pos (by omega)]
    have hterm : (m+k : ℤ)-k+i+1=m+i+1 := by omega
    rw [hterm,choose_step]
    exact_mod_cast next

theorem combLoop_start {n m k : ℕ} (h : m+k=n) : combLoop n k 0 1=(n.choose k : ℕ) := by
  subst h
  have loop := combLoop_eq m k k 0 (Nat.zero_add k)
  rw [Nat.choose_zero_right] at loop
  exact_mod_cast loop

theorem permLoop_eq (n k d : ℕ) (hk : k ≤ n) : ∀ i : ℕ,i+d=k →
    permLoop n k i (n.descFactorial i : ℕ)=(n.descFactorial k : ℕ) := by
  induction d with
  | zero =>
    rintro i rfl
    rw [permLoop,if_neg (by omega)]
    rfl
  | succ d ih =>
    intro i hi
    have next := ih (i+1) (by omega)
    rw [permLoop,if_pos (by omega)]
    have hterm : ((n.descFactorial i : ℕ) : ℤ)*(n-i)=(n.descFactorial (i+1) : ℕ) := by
      rw [Nat.descFactorial_succ,mul_comm]
      push_cast [Nat.cast_sub (show i ≤ n by omega)]
      rfl
    rw [hterm]
    exact_mod_cast next

theorem factorialLoop_eq (n d : ℕ) : ∀ k : ℕ,k+d=n →
    factorialLoop n (k+1) (k.factorial : ℕ)=(n.factorial : ℕ) := by
  induction d with
  | zero =>
    rintro k rfl
    rw [factorialLoop,if_neg (by omega)]
    rfl
  | succ d ih =>
    intro k hk
    have next := ih (k+1) (by omega)
    rw [factorialLoop,if_pos (by omega)]
    have hterm : ((k.factorial : ℕ) : ℤ)*(k+1)=((k+1).factorial : ℕ) := by
      rw [Nat.factorial_succ,mul_comm]
      push_cast
      rfl
    rw [hterm]
    exact_mod_cast next

end Loops

theorem nonnegInt_cast (func : String) (n : ℕ) : nonnegInt func (.int n)=.ok n := by
  rw [nonnegInt,if_neg (by omega)]

theorem mathComb_eq (n k : ℕ) : mathComb (.int n) (.int k)=.ok (n.choose k : ℕ) := by
  rw [mathComb,nonnegInt_cast,nonnegInt_cast]
  change (if (k : ℤ)>n then Except.ok 0 else
    Except.ok (combLoop n (if (n : ℤ)-k<k then n-k else k) 0 1))=_
  by_cases hk : k>n
  · rw [if_pos (by omega),Nat.choose_eq_zero_of_lt hk]
    rfl
  · rw [if_neg (by omega)]
    by_cases hhalf : (n : ℤ)-k<k
    · have hcast : (n : ℤ)-k=((n-k : ℕ) : ℤ) := by omega
      rw [if_pos hhalf,← Nat.choose_symm (show k ≤ n by omega),hcast]
      exact congrArg _ (combLoop_start (m := k) (by omega))
    · rw [if_neg hhalf]
      exact congrArg _ (combLoop_start (m := n-k) (by omega))

theorem mathPerm_eq (n k : ℕ) :
    mathPerm (.int n) (some (.int k))=.ok (n.descFactorial k : ℕ) := by
  rw [mathPerm,nonnegInt_cast]
  change (nonnegInt "perm" (.int k) >>= fun k => if k>(n : ℤ) then Except.ok 0 else
    Except.ok (permLoop n k 0 1))=_
  rw [nonnegInt_cast]
  change (if (k : ℤ)>n then Except.ok 0 else Except.ok (permLoop n k 0 1))=_
  by_cases hk : k>n
  · rw [if_pos (by omega),Nat.descFactorial_eq_zero_iff_lt.mpr hk]
    rfl
  · rw [if_neg (by omega)]
    exact congrArg _ (permLoop_eq n k k (by omega) 0 (Nat.zero_add k))

theorem factorial_eq (n : ℕ) : factorial (.int n)=.ok (n.factorial : ℕ) := by
  rw [factorial,if_neg (by omega)]
  cases n with
  | zero =>
    rw [factorialLoop,if_neg (by omega)]
    rfl
  | succ n => exact congrArg _ (factorialLoop_eq (n+1) n 1 (by omega))

/-- The counting functions are exact at every size, every division on the way included. -/
theorem counting_exact (n k : ℕ) : mathComb (.int n) (.int k)=.ok (n.choose k : ℕ) ∧
    mathPerm (.int n) (some (.int k))=.ok (n.descFactorial k : ℕ) ∧
    mathPerm (.int n) none=.ok (n.factorial : ℕ) ∧ factorial (.int n)=.ok (n.factorial : ℕ) ∧
    ∀p∈combDivisions (n+k) k 0 1,p.2∣p.1 := by
  refine ⟨mathComb_eq n k,mathPerm_eq n k,?_,factorial_eq n,?_⟩
  · have whole := mathPerm_eq n n
    rw [Nat.descFactorial_self] at whole
    simp only [mathPerm,nonnegInt_cast] at whole ⊢
    exact whole
  · have exact := combDivisions_exact n k k 0 (Nat.zero_add k)
    rw [Nat.choose_zero_right] at exact
    exact_mod_cast exact

end InterpretThis.Counting
