import InterpretThis.Budget.Frame
import Mathlib.Algebra.BigOperators.Group.List.Basic
import Mathlib.Tactic.Ring

namespace InterpretThis.Budget

section Worth

variable {H V : Type} (size : H → V → Nat)

def worthOf (heap : H) : Option V → Int
  | some v => size heap v
  | none => 0

def worth (names : List String) (s : InterpreterState H V) : Int :=
  (names.map fun n => worthOf size s.heap (s.vars n)).sum

variable {size} {names : List String}

theorem worth_put (hnd : names.Nodup) {name : String} (hname : name ∈ names)
    (s : InterpreterState H V) (v : Option V) :
    worth size names (s.put name v)=
      worth size names s-worthOf size s.heap (s.vars name)+
        worthOf size s.heap v := by
  induction names with
  | nil => cases hname
  | cons n names ih =>
    obtain ⟨hn,hnd⟩ := List.nodup_cons.mp hnd
    unfold worth at ih ⊢
    rw [List.map_cons,List.map_cons,List.sum_cons,List.sum_cons]
    by_cases heq : n=name
    · subst heq
      have hrest : names.map (fun m => worthOf size (s.put n v).heap
          ((s.put n v).vars m))=names.map fun m => worthOf size s.heap (s.vars m) := by
        refine List.map_congr_left fun m hm => ?_
        have hne : m≠n := fun h => hn (h ▸ hm)
        simp [InterpreterState.put,hne]
      rw [hrest]
      simp only [InterpreterState.put,if_true]
      ring
    · rw [ih hnd ((List.mem_cons.mp hname).resolve_left (Ne.symm heq))]
      simp only [InterpreterState.put,heq,if_false]
      ring

end Worth

section Steps

variable {H V : Type} {size : H → V → Nat} {names : List String}

theorem worth_congr {s t : InterpreterState H V} (hh : size t.heap=size s.heap)
    (hv : t.vars=s.vars) : worth size names t=worth size names s := by
  have each : worthOf size t.heap=worthOf size s.heap := by
    funext v
    cases v with
    | none => rfl
    | some v => exact congrArg (fun f => (f v : Int)) hh
  unfold worth
  rw [each,hv]

/-- The names that a body binds or deletes. -/
def Op.bound : Op H V → List String
  | .bind name _ => [name]
  | .unbind name => [name]
  | _ => []

end Steps

end InterpretThis.Budget
