import Mathlib.Logic.Function.Basic

namespace InterpretThis
namespace Register

/-- The taps of a generator of size `n`: a term is made of the one `n` before it, the next one and
the one `m` after that. -/
structure Taps (α : Type) where
  n : Nat
  m : Nat
  one_lt : 1<n
  m_lt : m<n
  combine : α → α → α → α

variable {α : Type} (T : Taps α)

/-- The terms of the recurrence from the first `n`. -/
def term (start : Nat → α) (k : Nat) : α :=
  if k<T.n then start k
  else T.combine (term start (k-T.n)) (term start (k-T.n+1)) (term start (k-T.n+T.m))
termination_by k
decreasing_by
  all_goals
    have hone := T.one_lt
    have hm := T.m_lt
    omega

theorem term_start {start : Nat → α} {k : Nat} (h : k<T.n) : term T start k=start k := by
  rw [term,if_pos h]

theorem term_add (start : Nat → α) (k : Nat) :
    term T start (k+T.n)=
      T.combine (term T start k) (term T start (k+1)) (term T start (k+T.m)) := by
  rw [term,if_neg (by omega),Nat.add_sub_cancel]

def renew (a : Nat → α) (i : Nat) : Nat → α :=
  Function.update a i (T.combine (a i) (a ((i+1)%T.n)) (a ((i+T.m)%T.n)))

/-- The block of terms from `b` on, the first `j` of them renewed. -/
def Partly (start : Nat → α) (b j : Nat) (a : Nat → α) : Prop :=
  ∀ i,i<T.n → a i=if i<j then term T start (b+T.n+i) else term T start (b+i)

theorem Partly.read {start a : Nat → α} {b j d : Nat} (h : Partly T start b j a) (hj : j<T.n)
    (hd : 0<d) (hdn : d<T.n) : a ((j+d)%T.n)=term T start (b+j+d) := by
  by_cases hw : j+d<T.n
  · rw [Nat.mod_eq_of_lt hw,h _ hw,if_neg (by omega),Nat.add_assoc]
  · have hmod : (j+d)%T.n=j+d-T.n := by
      rw [Nat.mod_eq_sub_mod (by omega),Nat.mod_eq_of_lt (by omega)]
    rw [hmod,h _ (by omega),if_pos (by omega)]
    congr 1
    omega

theorem Partly.step {start a : Nat → α} {b j : Nat} (hm : 0<T.m) (h : Partly T start b j a)
    (hj : j<T.n) : Partly T start b (j+1) (renew T a j) := by
  intro i hi
  by_cases hij : i=j
  · subst hij
    have hself : a i=term T start (b+i) := by rw [h i hi,if_neg (Nat.lt_irrefl i)]
    have hnext := h.read T hj Nat.one_pos T.one_lt
    have hfar := h.read T hj hm T.m_lt
    rw [renew,Function.update_self,if_pos (Nat.lt_succ_self i),hself,hnext,hfar,
      Nat.add_right_comm b T.n i,term_add]
  · rw [renew,Function.update_of_ne hij,h i hi]
    by_cases hlt : i<j
    · rw [if_pos hlt,if_pos (by omega)]
    · rw [if_neg hlt,if_neg (by omega)]

theorem pass_block {start a : Nat → α} {b : Nat} (hm : 0<T.m)
    (h : ∀ i,i<T.n → a i=term T start (b+i)) :
    ∀ i,i<T.n → (List.range T.n).foldl (renew T) a i=term T start (b+T.n+i) := by
  have hrun : ∀ j,j≤ T.n → Partly T start b j ((List.range j).foldl (renew T) a) := by
    intro j hj
    induction j with
    | zero =>
      intro i hi
      rw [if_neg (Nat.not_lt_zero i)]
      exact h i hi
    | succ j ih =>
      rw [List.range_succ,List.foldl_append]
      exact (ih (by omega)).step T hm (by omega)
  intro i hi
  rw [hrun T.n (Nat.le_refl _) i hi,if_pos hi]

end Register
end InterpretThis
