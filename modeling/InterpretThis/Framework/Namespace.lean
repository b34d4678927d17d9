import Mathlib.Logic.Function.Basic

namespace InterpretThis

abbrev Names (V : Type) : Type := String → Option V

def Names.above {V : Type} (n e : Names V) : Names V := fun x => (n x).or (e x)

/-- What code does with names: its own reads and bindings, and those of the functions it calls,
which know the outer scope only. -/
inductive Code (V E A : Type) where
  | done (a : A)
  | fail (e : E)
  | read (x : String) (k : Option V → Code V E A)
  | bind (x : String) (v : V) (t : Code V E A)
  | unbind (x : String) (t : Code V E A)
  | readOuter (x : String) (k : Option V → Code V E A)
  | writeOuter (x : String) (v : Option V) (t : Code V E A)

/-- A namespace that keeps the names of its methods apart, over an outer scope. -/
structure Scopes (V : Type) where
  own : Names V
  methods : Names V
  outer : Names V

namespace Scopes

variable {V : Type}

def lookup (s : Scopes V) (x : String) : Option V := ((s.own x).or (s.methods x)).or (s.outer x)

def bind (x : String) (v : V) (s : Scopes V) : Scopes V :=
  ⟨Function.update s.own x (some v),Function.update s.methods x none,s.outer⟩

def bindMethod (x : String) (v : V) (s : Scopes V) : Scopes V :=
  ⟨Function.update s.own x none,Function.update s.methods x (some v),s.outer⟩

def unbind (x : String) (s : Scopes V) : Scopes V :=
  ⟨Function.update s.own x none,Function.update s.methods x none,s.outer⟩

def writeOuter (x : String) (v : Option V) (s : Scopes V) : Scopes V :=
  ⟨s.own,s.methods,Function.update s.outer x v⟩

def shared (s : Scopes V) : Names V := s.own.above s.outer

end Scopes

namespace Code

variable {V E A B : Type}

def andThen (f : A → Code V E B) : Code V E A → Code V E B
  | done a => f a
  | fail e => fail e
  | read x k => read x fun o => (k o).andThen f
  | bind x v t => bind x v (t.andThen f)
  | unbind x t => unbind x (t.andThen f)
  | readOuter x k => readOuter x fun o => (k o).andThen f
  | writeOuter x v t => writeOuter x v (t.andThen f)

instance : Monad (Code V E) where
  pure := done
  bind t f := t.andThen f

/-- A run with all names in one map. -/
def runShared : Code V E A → Names V → Except E A×Names V
  | done a,u => (.ok a,u)
  | fail e,u => (.error e,u)
  | read x k,u => (k (u x)).runShared u
  | bind x v t,u => t.runShared (Function.update u x (some v))
  | unbind x t,u => t.runShared (Function.update u x none)
  | readOuter x k,u => (k (u x)).runShared u
  | writeOuter x v t,u => t.runShared (Function.update u x v)

/-- A run in a namespace over the outer scope. -/
def runApart : Code V E A → Scopes V → Except E A×Scopes V
  | done a,s => (.ok a,s)
  | fail e,s => (.error e,s)
  | read x k,s => (k (s.lookup x)).runApart s
  | bind x v t,s => t.runApart (s.bind x v)
  | unbind x t,s => t.runApart (s.unbind x)
  | readOuter x k,s => (k (s.outer x)).runApart s
  | writeOuter x v t,s => t.runApart (s.writeOuter x v)

/-- The run touches no name that means something else in one map: no method by its name, no outer
name that the namespace has, and it removes none that the outer scope has. -/
def Separate : Code V E A → Scopes V → Prop
  | done _,_ => True
  | fail _,_ => True
  | read x k,s => s.methods x=none ∧ (k (s.lookup x)).Separate s
  | bind x v t,s => s.methods x=none ∧ t.Separate (s.bind x v)
  | unbind x t,s => s.methods x=none ∧ s.outer x=none ∧ t.Separate (s.unbind x)
  | readOuter x k,s => s.own x=none ∧ (k (s.outer x)).Separate s
  | writeOuter x v t,s => s.own x=none ∧ t.Separate (s.writeOuter x v)

end Code

section Shared

variable {V E A B : Type}

theorem update_none {f : Names V} {x : String} (h : f x=none) : Function.update f x none=f :=
  (congrArg (Function.update f x) h.symm).trans (Function.update_eq_self x f)

theorem above_update (n e : Names V) (x : String) (v : V) :
    Names.above (Function.update n x (some v)) e=Function.update (Names.above n e) x (some v) := by
  funext y
  by_cases h : y=x
  · subst h
    simp [Names.above]
  · simp [Names.above,h]

theorem above_remove {n e : Names V} {x : String} (h : e x=none) :
    Names.above (Function.update n x none) e=Function.update (Names.above n e) x none := by
  funext y
  by_cases hy : y=x
  · subst hy
    simp [Names.above,h]
  · simp [Names.above,hy]

theorem above_updateOuter {n : Names V} {x : String} (e : Names V) (v : Option V) (h : n x=none) :
    Names.above n (Function.update e x v)=Function.update (Names.above n e) x v := by
  funext y
  by_cases hy : y=x
  · subst hy
    simp [Names.above,h]
  · simp [Names.above,hy]

/-- A separate run does the same in one map, and defines no method. -/
theorem Code.Separate.runShared_eq : ∀{c : Code V E A} {s : Scopes V}, c.Separate s →
    c.runShared s.shared=((c.runApart s).1,(c.runApart s).2.shared) ∧
      (c.runApart s).2.methods=s.methods
  | .done _,_,_ => ⟨rfl,rfl⟩
  | .fail _,_,_ => ⟨rfl,rfl⟩
  | .read x k,s,⟨hm,hk⟩ => by
    have hread : s.shared x=s.lookup x := by
      unfold Scopes.shared Names.above Scopes.lookup
      rw [hm]
      simp
    have ih := hk.runShared_eq
    rw [Code.runShared,hread]
    exact ih
  | .bind x v t,s,⟨hm,ht⟩ => by
    have hshared : (s.bind x v).shared=Function.update s.shared x (some v) :=
      above_update s.own s.outer x v
    have ih := ht.runShared_eq
    have hmethods : (s.bind x v).methods=s.methods := update_none hm
    rw [hshared,hmethods] at ih
    exact ih
  | .unbind x t,s,⟨hm,ho,ht⟩ => by
    have hshared : (s.unbind x).shared=Function.update s.shared x none := above_remove ho
    have ih := ht.runShared_eq
    have hmethods : (s.unbind x).methods=s.methods := update_none hm
    rw [hshared,hmethods] at ih
    exact ih
  | .readOuter x k,s,⟨hn,hk⟩ => by
    have hread : s.shared x=s.outer x := by
      unfold Scopes.shared Names.above
      rw [hn]
      rfl
    have ih := hk.runShared_eq
    rw [Code.runShared,hread]
    exact ih
  | .writeOuter x v t,s,⟨hn,ht⟩ => by
    have hshared : (s.writeOuter x v).shared=Function.update s.shared x v :=
      above_updateOuter s.outer v hn
    have ih := ht.runShared_eq
    rw [hshared] at ih
    exact ih

theorem Code.runApart_andThen (f : A → Code V E B) : ∀(c : Code V E A) (s : Scopes V),
    (c >>= f).runApart s=match c.runApart s with
      | (.ok a,t) => (f a).runApart t
      | (.error e,t) => (.error e,t)
  | .done _,_ => rfl
  | .fail _,_ => rfl
  | .read _ k,s => Code.runApart_andThen f (k (s.lookup _)) s
  | .bind _ _ t,s => Code.runApart_andThen f t (s.bind _ _)
  | .unbind _ t,s => Code.runApart_andThen f t (s.unbind _)
  | .readOuter _ k,s => Code.runApart_andThen f (k (s.outer _)) s
  | .writeOuter _ _ t,s => Code.runApart_andThen f t (s.writeOuter _ _)

end Shared

end InterpretThis
