import Mathlib.Init

namespace InterpretThis.Refinement

variable {S A O R : Type}

/-- A run of a deterministic machine with replies; `none` is a step that does not return. -/
def run (step : S → O → Option (S×R)) : S → List O → Option (S×List R)
  | s,[] => some (s,[])
  | s,o::os =>
    match step s o with
    | none => none
    | some (s₁,r) => (run step s₁ os).map fun p => (p.1,r::p.2)

/-- A run of an abstract machine, which may depend on the replies it is shown. -/
inductive AbsRun (step : A → O → R → A → Prop) : A → List O → List R → A → Prop
  | nil (a : A) : AbsRun step a [] [] a
  | cons (a b c : A) (o : O) (os : List O) (r : R) (rs : List R) :
      step a o r b → AbsRun step b os rs c → AbsRun step a (o::os) (r::rs) c

theorem run_refines (step : S → O → Option (S×R)) (absStep : A → O → R → A → Prop)
    (rel : S → A → Prop)
    (sim : ∀s a o,rel s a → ∃s' r a',step s o=some (s',r) ∧ absStep a o r a' ∧ rel s' a')
    (os : List O) (s : S) (a : A) (h : rel s a) :
    ∃s' rs a',run step s os=some (s',rs) ∧ AbsRun absStep a os rs a' ∧ rel s' a' := by
  induction os generalizing s a with
  | nil => exact ⟨s,[],a,rfl,.nil a,h⟩
  | cons o os ih =>
    obtain ⟨s₁,r,a₁,hs,ha,h₁⟩ := sim s a o h
    obtain ⟨s₂,rs,a₂,hr,hA,h₂⟩ := ih s₁ a₁ h₁
    refine ⟨s₂,r::rs,a₂,?_,.cons _ _ _ _ _ _ _ ha hA,h₂⟩
    rw [run,hs]
    change (run step s₁ os).map _=_
    rw [hr]
    rfl

/-- Every step of a run meets a condition on the state before it. -/
def Meets (step : S → O → S) (ok : S → O → Prop) : S → List O → Prop
  | _,[] => True
  | s,o::os => ok s o ∧ Meets step ok (step s o) os

theorem meets_append {step : S → O → S} {ok : S → O → Prop} {s : S} {os ps : List O} :
    Meets step ok s (os++ps) ↔ Meets step ok s os ∧ Meets step ok (os.foldl step s) ps := by
  induction os generalizing s with
  | nil => exact (iff_of_eq (true_and _)).symm
  | cons o os ih =>
    show ok s o ∧ Meets step ok (step s o) (os++ps) ↔
      (ok s o ∧ Meets step ok (step s o) os) ∧ Meets step ok (os.foldl step (step s o)) ps
    rw [ih,and_assoc]

theorem run_simulates (step : S → O → S) (absStep : A → O → A) (ok : A → O → Prop)
    (rel : S → A → Prop) (hstep : ∀s a o, rel s a → ok a o → rel (step s o) (absStep a o))
    (os : List O) (s : S) (a : A) (h : rel s a) (hok : Meets absStep ok a os) :
    rel (os.foldl step s) (os.foldl absStep a) := by
  induction os generalizing s a with
  | nil => exact h
  | cons o os ih => exact ih (step s o) (absStep a o) (hstep s a o h hok.1) hok.2

theorem run_invariant (step : S → O → S) (ok : S → O → Prop) (inv : S → Prop)
    (hstep : ∀s o, inv s → ok s o → inv (step s o)) (os : List O) (s : S) (h : inv s)
    (hok : Meets step ok s os) : inv (os.foldl step s) := by
  induction os generalizing s with
  | nil => exact h
  | cons o os ih => exact ih (step s o) (hstep s o h hok.1) hok.2

/-- What every step keeps, of the state and the replies so far, holds after every run. -/
theorem run_records {step : S → O → Option (S×R)} (inv : S → List R → Prop)
    (hstep : ∀ s rs o s' r,inv s rs → step s o=some (s',r) → inv s' (rs++[r])) (os : List O)
    {s s' : S} {before rs : List R} (h : inv s before) (hr : run step s os=some (s',rs)) :
    inv s' (before++rs) := by
  induction os generalizing s before rs with
  | nil =>
    cases hr
    rw [List.append_nil]
    exact h
  | cons o os ih =>
    rw [run] at hr
    cases hs : step s o with
    | none =>
      rw [hs] at hr
      cases hr
    | some p =>
      rw [hs] at hr
      obtain ⟨q,hq,he⟩ := Option.map_eq_some_iff.mp hr
      cases he
      have tail := ih (hstep s before o p.1 p.2 h hs) hq
      rw [List.append_assoc] at tail
      exact tail

end InterpretThis.Refinement
