import InterpretThis.Generator.Eval
import Mathlib.Data.List.AList

namespace InterpretThis.Generator

open Resumption

/-- Where a suspended `for` loop goes on; its record is found under the target. -/
structure ForState (V : Type) where
  items : List V
  pos : Nat
  bodyIndex : Nat
  lazySource : Option V
  currentItem : Option V

/-- The records of suspended loops. An entry of `for_stack` is updated in place or added, so that
there is one for each target; `while_resume` is keyed by the offset of the loop. -/
structure Loops (V : Type) where
  forStack : AList fun _ : String => ForState V
  whileResume : AList fun _ : Nat => Nat

/-- What a frame keeps under names: the registers of yield expressions and the loop records. -/
structure Regs (V X : Type) where
  cell : Cell V X
  loops : Loops V

structure IfResume where
  inOrelse : Bool
  index : Nat

inductive TryPhase where
  | body
  | handler (h : Nat)
  | orelse
  | finalbody

structure TryResume where
  phase : TryPhase
  index : Nat

structure WithResume (V : Type) where
  index : Nat
  managers : List V

/-- The records that are popped by whoever is resumed next, the last pushed first. -/
structure Stacks (V : Type) where
  ifStack : List IfResume
  tryStack : List TryResume
  withStack : List (WithResume V)

def Stacks.empty {V : Type} : Stacks V := ⟨[],[],[]⟩

structure Frame (V X : Type) where
  regs : Regs V X
  records : Stacks V

namespace Regs

variable {V X : Type}

def setResume (b : Bool) (g : Regs V X) : Regs V X := {g with cell.resumeAtYield := b}

/-- The resume flag is cleared when `b` holds. -/
def cleared (b : Bool) (g : Regs V X) : Regs V X := if b then g.setResume false else g

def saveFor (target : String) (st : ForState V) (g : Regs V X) : Regs V X :=
  {g with loops.forStack := g.loops.forStack.insert target st}

def removeFor (target : String) (g : Regs V X) : Regs V X :=
  {g with loops.forStack := g.loops.forStack.erase target}

/-- The next item, if the loop has a record. -/
def advanceFor (target : String) (pos : Nat) (g : Regs V X) : Regs V X :=
  match g.loops.forStack.lookup target with
  | some st => g.saveFor target {st with pos := pos, bodyIndex := 0}
  | none => g

def saveWhile (offset index : Nat) (g : Regs V X) : Regs V X :=
  {g with loops.whileResume := g.loops.whileResume.insert offset index}

def removeWhile (offset : Nat) (g : Regs V X) : Regs V X :=
  {g with loops.whileResume := g.loops.whileResume.erase offset}

end Regs

section Yields

variable {Y W V X L : Type} (E : Effects W V X L)

/-- What `yield from` does with its source: it has a value at once, or hands out a first item. -/
inductive Started (V : Type) where
  | value (v : V)
  | handsOut (v : V)

/-- A generator is pulled once and delegated to; of an iterable, what follows the first item is
left to the steps that come. -/
def takeOver (source : V) : Comp Y (Cell V X×W) (Signal V X) (Started V) :=
  if E.isGenerator source then do
    match ← (liftE (E.next source)).attempt with
    | .ok v =>
      Comp.modify fun s => ({s.1 with delegatingTo := some source},s.2)
      pure (.handsOut v)
    | .error (.exc x) =>
      if E.isStop x then pure (.value (E.stopValue x)) else Comp.throw (.exc x)
    | .error s => Comp.throw s
  else do
    let items ← liftE (E.iter source)
    match items with
    | [] => pure (.value E.none)
    | v::rest =>
      Comp.modify fun s => ({s.1 with
        yieldFromReturn := some E.none
        drains := if rest.isEmpty then s.1.drains else rest::s.1.drains},s.2)
      pure (.handsOut v)

def takeAnswer (take : Cell V X → Except X V×Cell V X) : Comp Y (Cell V X×W) (Signal V X) V :=
  Comp.lift fun s => ((take s.1).1.mapError .exc,((take s.1).2,s.2))

/-- The yield expressions of a suspended generator: the one that is resumed takes its answer, any
other leaves the body. -/
def suspendedly : Yielding Empty (Cell V X×W) V X where
  yield op := fun s =>
    if s.1.resumeAtYield then takeAnswer (Cell.takeSent E.none) s
    else (do
      let v ← op
      Comp.throw (.yielded v) : Comp Empty (Cell V X×W) (Signal V X) V) s
  yieldFrom op := fun s =>
    if s.1.resumeAtYield then takeAnswer (Cell.takeReturn E.none) s
    else (do
      let source ← op
      match ← takeOver E source with
      | .value v => pure v
      | .handsOut v => Comp.throw (.yielded v) : Comp Empty (Cell V X×W) (Signal V X) V) s

end Yields

/-- Who walks through a list of statements. -/
inductive Ctx where
  | top
  | forLoop
  | whileLoop
  | branch
  | phase
  | block

section Delegation

variable {L : Type}

/-- The statements that a walk hands to a stepper of their own. -/
def delegates (ctx : Ctx) (s : Stmt L) : Bool :=
  match ctx,s with
  | .top,.forStmt target _ _ _ => (forNameTarget target).isSome
  | .top,.whileStmt .. => true
  | .top,.tryStmt .. => true
  | .top,.withStmt _ body => ifBranchSuspendables body&&containsYieldStmt s
  | .top,.ifStmt _ body orelse =>
    ifBranchSuspendables body&&ifBranchSuspendables orelse&&containsYieldStmt s
  | .forLoop,.ifStmt _ body orelse =>
    containsYieldStmt s&&loopNestSuspendables body&&loopNestSuspendables orelse
  | .whileLoop,.ifStmt .. => true
  | .branch,.ifStmt .. => true
  | .phase,.ifStmt _ body orelse =>
    containsYieldStmt s&&ifBranchSuspendables body&&ifBranchSuspendables orelse
  | .block,.ifStmt _ body orelse =>
    containsYieldStmt s&&ifBranchSuspendables body&&ifBranchSuspendables orelse
  | .branch,.tryStmt .. => true
  | .phase,.tryStmt .. => true
  | .block,.tryStmt .. => true
  | .block,.withStmt _ body => containsYieldStmt s&&ifBranchSuspendables body
  | _,.whileStmt _ _ _ orelse => containsYieldStmt s&&orelse.isEmpty
  | _,.forStmt target _ _ orelse => containsYieldStmt s&&forDelegatable target orelse
  | _,_ => false

/-- Whether the resume flag is cleared after a statement. -/
def clears (ctx : Ctx) (s : Stmt L) : Bool :=
  match ctx with
  | .top => !delegates .top s
  | _ => true

end Delegation

/-- How a walk through statements ends: `TryStep`, with the index of the statement that yielded. -/
inductive TryStep (V X : Type) where
  | completed
  | yielded (index : Nat) (v : V)
  | errored (s : Signal V X)

abbrev Stepping (W V X A : Type) : Type := Comp Empty (Frame V X×W) (Signal V X) A

section Frames

variable {W V X A : Type}

def onCell (m : Comp Empty (Cell V X×W) (Signal V X) A) : Stepping W V X A :=
  m.within id (fun f : Frame V X => f.regs.cell) fun f c => {f with regs.cell := c}

def modifyRegs (f : Regs V X → Regs V X) : Stepping W V X Unit :=
  Comp.modify fun s => ({s.1 with regs := f s.1.regs},s.2)

def readRegs (f : Regs V X → A) : Stepping W V X A := Comp.lift fun s => (.ok (f s.1.regs),s)

def pushIf (r : IfResume) : Stepping W V X Unit :=
  Comp.modify fun s => ({s.1 with records.ifStack := r::s.1.records.ifStack},s.2)

def popIf : Stepping W V X (Option IfResume) :=
  Comp.lift fun s => (.ok s.1.records.ifStack.head?,
    ({s.1 with records.ifStack := s.1.records.ifStack.tail},s.2))

def pushTry (r : TryResume) : Stepping W V X Unit :=
  Comp.modify fun s => ({s.1 with records.tryStack := r::s.1.records.tryStack},s.2)

def popTry : Stepping W V X (Option TryResume) :=
  Comp.lift fun s => (.ok s.1.records.tryStack.head?,
    ({s.1 with records.tryStack := s.1.records.tryStack.tail},s.2))

def pushWith (r : WithResume V) : Stepping W V X Unit :=
  Comp.modify fun s => ({s.1 with records.withStack := r::s.1.records.withStack},s.2)

def popWith : Stepping W V X (Option (WithResume V)) :=
  Comp.lift fun s => (.ok s.1.records.withStack.head?,
    ({s.1 with records.withStack := s.1.records.withStack.tail},s.2))

end Frames

section Steppers

variable {W V X L : Type} (E : Effects W V X L)

def rebind {Y A : Type} (target : String) (v : V) (index : Nat) : Comp Y (A×W) (Signal V X) Unit :=
  if index=0 then liftE (E.setVariable target v) else pure ()

/-- The item that a lazy loop is at, or the next one. -/
def itemAt {Y A : Type} (target : String) (source : V) :
    Option (V×Nat) → Comp Y (A×W) (Signal V X) (Option (V×Nat))
  | some current => pure (some current)
  | none => do
    match ← pull E source with
    | none => pure none
    | some v =>
      liftE (E.setVariable target v)
      pure (some (v,0))

/-- The end of one round of a loop. -/
def afterRound (next stop : Stepping W V X Unit) (save : Nat → Regs V X → Regs V X) :
    TryStep V X → Stepping W V X Unit
  | .completed => next
  | .errored .cont => next
  | .errored .brk => stop
  | .yielded i v => do
    modifyRegs (save i)
    Comp.throw (.yielded v)
  | .errored s => Comp.throw s

/-- The rounds of `run_for_suspendable` over `items`, from the ones that are left. -/
def forItems (target : String) (items : List V) (body : Nat → Stepping W V X (TryStep V X)) :
    List V → Nat → Nat → Stepping W V X Unit
  | [],_,_ => modifyRegs (Regs.removeFor target)
  | v::vs,pos,index => do
    rebind E target v index
    let r ← body index
    afterRound (do
        modifyRegs (Regs.advanceFor target (pos+1))
        forItems target items body vs (pos+1) 0)
      (modifyRegs (Regs.removeFor target))
      (fun i => Regs.saveFor target ⟨items,pos,i,none,none⟩) r

/-- `run_for_lazy`. -/
def forLazy (target : String) (source : V) (body : Nat → Stepping W V X (TryStep V X)) :
    Nat → Option (V×Nat) → Stepping W V X Unit
  | 0,_ => Comp.diverge
  | fuel+1,current => do
    match ← itemAt E target source current with
    | none => modifyRegs (Regs.removeFor target)
    | some (v,index) =>
      let r ← body index
      afterRound (forLazy target source body fuel none) (modifyRegs (Regs.removeFor target))
        (fun i => Regs.saveFor target ⟨[],0,i,some source,some v⟩) r

/-- The rounds of `run_while_suspendable`; the first one skips the test when it is resumed. -/
def whileRounds (offset : Nat) (test : Stepping W V X Bool)
    (body : Nat → Stepping W V X (TryStep V X)) : Nat → Option Nat → Stepping W V X Unit
  | 0,_ => Comp.diverge
  | fuel+1,resumed => do
    let go ← (match resumed with
      | some _ => pure true
      | none => test)
    if go then
      let r ← body (resumed.getD 0)
      afterRound (whileRounds offset test body fuel none) (modifyRegs (Regs.removeWhile offset))
        (Regs.saveWhile offset) r
    else modifyRegs (Regs.removeWhile offset)

variable (fuel : Nat)

/-- When a statement yields, its next run takes the answer. -/
def endDirect : Except (Signal V X) Unit → Stepping W V X Unit
  | .ok () => pure ()
  | .error (.yielded v) => do
    modifyRegs (Regs.setResume true)
    Comp.throw (.yielded v)
  | .error s => Comp.throw s

def direct (s : Stmt L) : Stepping W V X Unit := do
  endDirect (← (onCell (evalStmt E (suspendedly E) fuel s)).attempt)

/-- `run_for_suspendable`. -/
def runFor (target : String) (iter : Expr L) (body : Nat → Stepping W V X (TryStep V X)) :
    Stepping W V X Unit := do
  match ← readRegs fun g => g.loops.forStack.lookup target with
  | some ⟨_,_,index,some source,current⟩ =>
    forLazy E target source body fuel (current.map fun v => (v,index))
  | some ⟨items,pos,index,none,_⟩ => forItems E target items body (items.drop pos) pos index
  | none =>
    let iterable ← onCell (evalExpr E (suspendedly E) iter)
    if E.isLazy iterable then forLazy E target iterable body fuel none
    else do
      let items ← liftE (E.iter iterable)
      forItems E target items body items 0 0

/-- `run_while_suspendable`. -/
def runWhile (offset : Nat) (test : Expr L) (body : Nat → Stepping W V X (TryStep V X)) :
    Stepping W V X Unit := do
  let resumed ← readRegs fun g => g.loops.whileResume.lookup offset
  whileRounds offset (onCell (evalTest E (suspendedly E) test)) body fuel resumed

/-- The end of a branch. -/
def endBranch (inOrelse : Bool) : TryStep V X → Stepping W V X Unit
  | .completed => pure ()
  | .yielded i v => do
    pushIf ⟨inOrelse,i⟩
    Comp.throw (.yielded v)
  | .errored s => Comp.throw s

/-- `run_if_suspendable`. -/
def runIf (test : Expr L) (body orelse : Nat → Stepping W V X (TryStep V X)) :
    Stepping W V X Unit := do
  match ← popIf with
  | some ⟨true,i⟩ => endBranch true (← orelse i)
  | some ⟨false,i⟩ => endBranch false (← body i)
  | none =>
    if ← onCell (evalTest E (suspendedly E) test) then endBranch false (← body 0)
    else endBranch true (← orelse 0)

/-- The end of one phase of a `try`. -/
def endPhase (phase : TryPhase) (next : Except (Signal V X) Unit → Stepping W V X Unit) :
    TryStep V X → Stepping W V X Unit
  | .completed => next (.ok ())
  | .yielded i v => do
    pushTry ⟨phase,i⟩
    Comp.throw (.yielded v)
  | .errored s => next (.error s)

def deliver {Y S : Type} : Except (Signal V X) Unit → Comp Y S (Signal V X) Unit
  | .ok () => pure ()
  | .error s => Comp.throw s

/-- The end of `finally`: what is pending goes on unless `finally` raises. -/
def endFinally (pending : Except (Signal V X) Unit) : TryStep V X → Stepping W V X Unit :=
  endPhase .finalbody fun r =>
    match r with
    | .ok () => deliver pending
    | .error s => Comp.throw s

/-- `finish_try`. -/
def finish (finalbody : Nat → Stepping W V X (TryStep V X)) (pending : Except (Signal V X) Unit) :
    Stepping W V X Unit := do
  endFinally pending (← finalbody 0)

/-- An `except` clause with the walk through its body. -/
structure Clause (L B : Type) where
  type : Option L
  name : Option String
  body : B

/-- `cleanup_handler`, then `finally`. -/
def leaveHandler (name : Option String) (finalbody : Nat → Stepping W V X (TryStep V X))
    (r : Except (Signal V X) Unit) : Stepping W V X Unit := do
  modifyW E.popException
  unbindName E name
  finish finalbody r

/-- The handlers of `enter_or_propagate`, from the one with index `h`. -/
def enterOrPropagate (x : X) (finalbody : Nat → Stepping W V X (TryStep V X)) :
    List (Clause L (Nat → Stepping W V X (TryStep V X))) → Nat → Stepping W V X Unit
  | [],_ => finish finalbody (.error (.exc x))
  | c::cs,h => do
    if ← liftE (E.matchesHandler c.type x) then
      bindName E c.name (E.excValue x)
      modifyW (E.pushException x)
      endPhase (.handler h) (leaveHandler E c.name finalbody) (← c.body 0)
    else enterOrPropagate x finalbody cs (h+1)

/-- What follows the body of a `try`. -/
def afterBody (orelse finalbody : Nat → Stepping W V X (TryStep V X))
    (handlers : List (Clause L (Nat → Stepping W V X (TryStep V X)))) :
    Except (Signal V X) Unit → Stepping W V X Unit
  | .ok () => do
    endPhase .orelse (finish finalbody) (← orelse 0)
  | .error (.exc x) => enterOrPropagate E x finalbody handlers 0
  | .error s => finish finalbody (.error s)

/-- `run_try_suspendable`. What was pending when `finally` yielded is not in its record. -/
def runTry (body orelse finalbody : Nat → Stepping W V X (TryStep V X))
    (handlers : List (Clause L (Nat → Stepping W V X (TryStep V X)))) : Stepping W V X Unit := do
  match ← popTry with
  | none => endPhase .body (afterBody E orelse finalbody handlers) (← body 0)
  | some ⟨.body,i⟩ => endPhase .body (afterBody E orelse finalbody handlers) (← body i)
  | some ⟨.handler h,i⟩ =>
    match handlers[h]? with
    | some c => endPhase (.handler h) (leaveHandler E c.name finalbody) (← c.body i)
    | none => pure ()
  | some ⟨.orelse,i⟩ => endPhase .orelse (finish finalbody) (← orelse i)
  | some ⟨.finalbody,i⟩ => endFinally (.ok ()) (← finalbody i)

/-- The end of the body of a `with`. -/
def endBlock (managers : List V) : TryStep V X → Stepping W V X Unit
  | .completed => exitContextManagers E managers (.ok ())
  | .yielded i v => do
    pushWith ⟨i,managers⟩
    Comp.throw (.yielded v)
  | .errored s => exitContextManagers E managers (.error s)

/-- `run_with_suspendable`. -/
def runWith (items : List (Expr L×Option L)) (body : Nat → Stepping W V X (TryStep V X)) :
    Stepping W V X Unit := do
  match ← popWith with
  | some ⟨i,managers⟩ => endBlock E managers (← body i)
  | none =>
    let managers ← onCell (enterItems E (suspendedly E) items [])
    endBlock E managers (← body 0)

/-- How a walk goes on after the statement with index `i`. -/
def afterStmt (cleared : Bool) (i : Nat) (rest : Stepping W V X (TryStep V X)) :
    Except (Signal V X) Unit → Stepping W V X (TryStep V X)
  | .ok () => do
    modifyRegs (Regs.cleared cleared)
    rest
  | .error (.yielded v) => pure (.yielded i v)
  | .error e => pure (.errored e)

mutual

def runStepper : Stmt L → Stepping W V X Unit
  | .simple kind l parts => direct E fuel (.simple kind l parts)
  | .ifStmt test body orelse =>
    runIf E test (fun i => stepFrom .branch i 0 body) fun i => stepFrom .branch i 0 orelse
  | .forStmt (.name id) iter body _ => runFor E fuel id iter fun i => stepFrom .forLoop i 0 body
  | .forStmt (.other l) iter body orelse => direct E fuel (.forStmt (.other l) iter body orelse)
  | .whileStmt offset test body _ =>
    runWhile E fuel offset test fun i => stepFrom .whileLoop i 0 body
  | .tryStmt body handlers orelse finalbody =>
    runTry E (fun i => stepFrom .phase i 0 body) (fun i => stepFrom .phase i 0 orelse)
      (fun i => stepFrom .phase i 0 finalbody) (clauses handlers)
  | .withStmt items body => runWith E items fun i => stepFrom .block i 0 body
  | .blocks searched l bodies => direct E fuel (.blocks searched l bodies)

/-- The walk through statements from index `start` on; the first of the list has index `i`. -/
def stepFrom (ctx : Ctx) (start : Nat) : Nat → List (Stmt L) → Stepping W V X (TryStep V X)
  | _,[] => pure .completed
  | i,s::ss =>
    if i<start then stepFrom ctx start (i+1) ss
    else do
      let r ← (if delegates ctx s then runStepper s else direct E fuel s).attempt
      afterStmt (clears ctx s) i (stepFrom ctx start (i+1) ss) r

def clauses : List (Handler L) → List (Clause L (Nat → Stepping W V X (TryStep V X)))
  | [] => []
  | .mk type name body::hs => ⟨type,name,fun i => stepFrom .phase i 0 body⟩::clauses hs

end

/-- `run_generator_body` from the statement that the frame is at. -/
def runGeneratorBody (body : List (Stmt L)) (stmtIndex : Nat) : Stepping W V X (TryStep V X) :=
  stepFrom E fuel .top stmtIndex 0 body

end Steppers

end InterpretThis.Generator
