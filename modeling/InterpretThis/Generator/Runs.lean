import InterpretThis.Generator.Step
import InterpretThis.Generator.Resume
import Mathlib.Algebra.GroupWithZero.Nat

namespace InterpretThis.Generator

open Resumption

section Calls

variable {V X W : Type}

/-- What happens to a suspended generator before its body is run again: the flag that tells the
suspended yield to take its answer stays set. -/
structure Answer (W V X : Type) where
  act : Cell V X×W → Cell V X×W
  keeps : ∀s, s.1.resumeAtYield=true → (act s).1.resumeAtYield=true

end Calls

section Runs

variable {W V X : Type}

def Answer.onFrame (a : Answer W V X) (s : Frame V X×W) : Frame V X×W :=
  ({s.1 with regs.cell := (a.act (s.1.regs.cell,s.2)).1},(a.act (s.1.regs.cell,s.2)).2)

def Answer.onRegs (a : Answer W V X) (s : Regs V X×W) : Regs V X×W :=
  ({s.1 with cell := (a.act (s.1.cell,s.2)).1},(a.act (s.1.cell,s.2)).2)

/-- How one run of a body ends, and what follows when it is suspended. -/
def ran (r : Process Empty (Frame V X×W) (Except (Signal V X) (TryStep V X)))
    (next : Nat → V → Frame V X×W → List V×Outcome (Frame V X×W) (Except (Signal V X) Unit)) :
    List V×Outcome (Frame V X×W) (Except (Signal V X) Unit) :=
  match r with
  | .done (.ok .completed) t => ([],.ended (.ok ()) t)
  | .done (.ok (.errored e)) t => ([],.ended (.error e) t)
  | .done (.ok (.yielded i v)) t => next i v t
  | .done (.error e) t => ([],.ended (.error e) t)
  | .diverge => ([],.lost)

/-- The runs of a body from a statement on, one more than there are answers. -/
def runs (body : Nat → Stepping W V X (TryStep V X)) : List (Answer W V X) → Nat → Frame V X×W →
    List V×Outcome (Frame V X×W) (Except (Signal V X) Unit)
  | [],i,s => ran (body i s) fun _ v t => ([v],.waiting t)
  | a::as,i,s => ran (body i s) fun j v t =>
    (v::(runs body as j (a.onFrame t)).1,(runs body as j (a.onFrame t)).2)

theorem keeps_onRegs (a : Answer W V X) (y : Suspension V) (s : Regs V X×W) :
    Keeps y s.1 (a.onRegs s).1 where
  fors _ _ := rfl
  whiles _ _ := rfl
  resume h := a.keeps _ h

/-- The runs of a body hand out what a course hands out, and stand where it stands. -/
def RunsAs (r : List V×Outcome (Frame V X×W) (Except (Signal V X) Unit))
    (c : List (Suspension V)×Outcome (Regs V X×W) (Except (Signal V X) Unit)) : Prop :=
  r.1=c.1.map Suspension.value ∧ r.2.map (fun t => (t.1.regs,t.2))=c.2

theorem Resumes.runsAs {calm : Cell V X → Prop} {body : Nat → Stepping W V X (TryStep V X)}
    {p : Process (Suspension V) (Regs V X×W) (Except (Signal V X) Unit)} {i : Nat}
    {s : Frame V X×W} (h : Resumes calm (.walk body) p (body i s)) (as : List (Answer W V X))
    (hp : (p.play (as.map Answer.onRegs)).2≠.lost) :
    RunsAs (runs body as i s) (p.play (as.map Answer.onRegs)) := by
  induction p generalizing i s as with
  | done r t =>
    have hq := h.1
    cases r with
    | ok u => cases as <;> simp [RunsAs,runs,hq,Shape.walk,stepOf,ran,Process.play,Outcome.map]
    | error e => cases as <;> simp [RunsAs,runs,hq,Shape.walk,stepOf,ran,Process.play,Outcome.map]
  | ask y t k ih =>
    obtain ⟨st,hq,hk⟩ := h
    cases as with
    | nil => simp [RunsAs,runs,hq,Shape.walk,ran,Process.play,Outcome.map]
    | cons a as =>
      have hrest := ih (a.onRegs t) (hk _ (keeps_onRegs a y t)) as hp
      have hrun : runs body (a::as) i s=
          (y.value::(runs body as y.index (a.onFrame (⟨t.1,st⟩,t.2))).1,
            (runs body as y.index (a.onFrame (⟨t.1,st⟩,t.2))).2) := by
        simp only [runs,hq]
        rfl
      rw [hrun]
      exact ⟨congrArg (y.value::·) hrest.1,hrest.2⟩
  | diverge => exact absurd rfl hp

theorem runGeneratorBody_runsAs {L : Type} {E : Effects W V X L} {fuel : Nat}
    {calm : Cell V X → Prop} {ev : Evaluator W V X L} (hA : Adequate E fuel calm ev)
    (watch : Watch W V X) (body : List (Stmt L)) (as : List (Answer W V X)) {s : Regs V X×W}
    (hs : calm s.1.cell)
    (hp : ((bodyCourse E watch ev fuel body s).play (as.map Answer.onRegs)).2≠.lost) :
    RunsAs (runs (runGeneratorBody E fuel body) as 0 (⟨s.1,.empty⟩,s.2))
      ((bodyCourse E watch ev fuel body s).play (as.map Answer.onRegs)) := by
  have hfollows := walk_follows watch hA .top body (stmts_resume watch hA body)
  exact (hfollows 0 s.1 s.2 hs).runsAs as hp

end Runs

section Sample

/-- The state of a small interpreter: how often its function was called, its variable and the
exceptions that are being handled. -/
structure Tiny where
  calls : Nat
  x : Nat
  active : List Nat
  deriving DecidableEq

inductive TinyOp where
  | const (n : Nat)
  | call
  | name
  | add
  | store
  | raise (x : Nat)
  | skip

def tiny : Effects Tiny Nat Nat TinyOp where
  none := 0
  prim
    | .const n,_,w => (.ok n,w)
    | .call,_,w => (.ok 0,{w with calls := w.calls+1})
    | .name,_,w => (.ok w.x,w)
    | _,vs,w => (.ok vs.sum,w)
  act
    | .raise x,_,w => (.error (.exc x),w)
    | .store,vs,w => (.ok (),{w with x := vs.sum})
    | _,_,w => (.ok (),w)
  truthy v w := (.ok (v≠0),w)
  isLazy _ := false
  isGenerator _ := false
  iter v w := (.ok [v,v+1],w)
  next _ w := (.error 0,w)
  isStop x := x=0
  stopValue _ := 0
  assignTarget _ _ w := (.ok (),w)
  setVariable _ v w := (.ok (),{w with x := v})
  deleteVariable _ w := w
  matchesHandler _ _ w := (.ok true,w)
  excValue x := x
  pushException x w := {w with active := x::w.active}
  popException w := {w with active := w.active.tail}
  activeException w := w.active.head?
  setImplicitContext x _ := x
  enterContext v w := (.ok v,w)
  exitContext _ _ w := (.ok false,w)
  choose _ _ w := (.finish (.ok ()),w)

def Regs.fresh : Regs Nat Nat := ⟨⟨false,0,none,none,none,[]⟩,⟨∅,∅⟩⟩

def Answer.send (v : Nat) : Answer Tiny Nat Nat :=
  ⟨fun s => ({s.1 with sendValue := v},s.2),fun _ h => h⟩

end Sample

end InterpretThis.Generator
