import InterpretThis.Generator.Engine

namespace InterpretThis.Generator

open Resumption

section Loops

variable {L : Type}

mutual

def hasLoop : Stmt L → Bool
  | .simple .. => false
  | .ifStmt _ body orelse => hasLoops body||hasLoops orelse
  | .forStmt .. => true
  | .whileStmt .. => true
  | .tryStmt body handlers orelse finalbody =>
    hasLoops body||hasLoopHandlers handlers||hasLoops orelse||hasLoops finalbody
  | .withStmt _ body => hasLoops body
  | .blocks _ _ bodies => hasLoopBlocks bodies

def hasLoops : List (Stmt L) → Bool
  | [] => false
  | s::ss => hasLoop s||hasLoops ss

def hasLoopHandlers : List (Handler L) → Bool
  | [] => false
  | .mk _ _ body::hs => hasLoops body||hasLoopHandlers hs

def hasLoopBlocks : List (List (Stmt L)) → Bool
  | [] => false
  | b::bs => hasLoops b||hasLoopBlocks bs

end

end Loops

inductive LoopKey where
  | forLoop (target : String)
  | whileLoop (offset : Nat)
  deriving DecidableEq

namespace Regs

variable {V X : Type}

def recorded (g : Regs V X) : LoopKey → Bool
  | .forLoop target => (g.loops.forStack.lookup target).isSome
  | .whileLoop offset => (g.loops.whileResume.lookup offset).isSome

def keys (g : Regs V X) : List LoopKey :=
  g.loops.forStack.keys.map .forLoop++g.loops.whileResume.keys.map .whileLoop

end Regs

/-- What a body hands out when it is suspended: the value, the index of the suspended statement in
the walk that is looked at, the loops that have been entered around it, innermost last, and the
names of all loops around it. -/
structure Suspension (V : Type) where
  value : V
  index : Nat
  entered : List LoopKey
  names : List LoopKey

abbrev Course (W V X A : Type) : Type := Comp (Suspension V) (Regs V X×W) (Signal V X) A

/-- The events at which a course is given up. -/
structure Watch (W V X : Type) where
  /-- A loop is left by an exception or a return while it has a record. -/
  leaks : Bool
  /-- A loop is entered while there is a record under its name. -/
  stale : Bool
  /-- A statement with a loop in it is suspended although no stepper took it over. -/
  hidden : Bool
  /-- A `finally` block is suspended while something is pending. -/
  pending : Bool
  /-- The `else` block of a loop is skipped. -/
  skips : Bool
  /-- An exception is not the one that it would be with its implicit context. -/
  differ : X → X → Bool
  /-- Binding the loop variable again changes the state. -/
  rebinds : String → V → W → Bool

/-- A course that follows the engine in everything but the evaluation of parts. -/
def Watch.none {W V X : Type} : Watch W V X where
  leaks := false
  stale := false
  hidden := false
  pending := false
  skips := false
  differ _ _ := false
  rebinds _ _ _ := false

/-- How the parts of a body that are not stepped through are evaluated. -/
structure Evaluator (W V X L : Type) where
  stmt : Stmt L → Comp V (Cell V X×W) (Signal V X) Unit
  test : Expr L → Comp V (Cell V X×W) (Signal V X) Bool
  iter : Expr L → Comp V (Cell V X×W) (Signal V X) V
  items : List (Expr L×Option L) → Comp V (Cell V X×W) (Signal V X) (List V)

section Answering

variable {W V X L : Type} (E : Effects W V X L)

/-- Hand out a value and take what was put into the registers meanwhile. -/
def awaitAnswer (v : V) (take : Cell V X → Except X V×Cell V X) :
    Comp V (Cell V X×W) (Signal V X) V := do
  Comp.ask (fun _ => v) fun s => ({s.1 with resumeAtYield := true},s.2)
  takeAnswer take

/-- The yield expressions of a body that stays where it is: each is a call that returns, or raises,
what the consumer answers. -/
def answering : Yielding V (Cell V X×W) V X where
  yield op := do
    let v ← op
    awaitAnswer v (Cell.takeSent E.none)
  yieldFrom op := do
    let source ← op
    match ← takeOver E source with
    | .value v => pure v
    | .handsOut v => awaitAnswer v (Cell.takeReturn E.none)

end Answering

section Combinators

variable {W V X A : Type}

def inRegs (m : Comp V (Cell V X×W) (Signal V X) A) : Course W V X A :=
  m.within (fun v => ⟨v,0,[],[]⟩) Regs.cell fun g c => {g with cell := c}

def changeRegs (f : Regs V X → Regs V X) : Course W V X Unit :=
  Comp.modify fun s => (f s.1,s.2)

def seeRegs (f : Regs V X → A) : Course W V X A := Comp.lift fun s => (.ok (f s.1),s)

def atIndex (i : Nat) (m : Course W V X A) : Course W V X A :=
  m.intercept fun y s k => .ask {y with index := i} s k

/-- A part that must not be suspended when `b` holds. -/
def unsuspended (b : Bool) (m : Course W V X A) : Course W V X A :=
  m.intercept fun y s k => if b then .diverge else .ask y s k

/-- A loop in progress: its record is saved whenever the body waits, under a name that none of
the loops inside uses. `wake` is the effect of resuming the loop. -/
def inLoop (key : LoopKey) (save : Nat → Regs V X → Regs V X) (wake : Nat → W → Option W)
    (m : Course W V X A) : Course W V X A :=
  m.intercept fun y s k =>
    if key ∈ y.names then .diverge
    else .ask {y with entered := key::y.entered, names := key::y.names}
      (save y.index s.1,s.2) fun t => (wake y.index t.2).elim .diverge fun w => k (t.1,w)

def ahead (key : LoopKey) (m : Course W V X A) : Course W V X A :=
  m.intercept fun y s k => .ask {y with names := key::y.names} s k

/-- The way out of a loop. -/
def leaving (watched : Bool) (key : LoopKey) (m : Course W V X Unit) : Course W V X Unit := fun s =>
  (m s).bind fun r t =>
    match r with
    | .ok () => .done (.ok ()) t
    | .error e => if watched&&t.1.recorded key then .diverge else .done (.error e) t

def courseRound (next stop : Course W V X Unit) : Except (Signal V X) Unit → Course W V X Unit
  | .ok () => next
  | .error .cont => next
  | .error .brk => stop
  | .error s => Comp.throw s

/-- The course goes on unless `b` holds. -/
def giveUpIf (b : Bool) : Course W V X Unit := if b then Comp.diverge else pure ()

end Combinators

section Courses

variable {W V X L : Type} (E : Effects W V X L) (watch : Watch W V X)

/-- A resumed loop binds its variable again when it was suspended in its first statement. -/
def wakeItem (target : String) (v : V) (i : Nat) (w : W) : Option W :=
  if i=0 then
    match E.setVariable target v w with
    | (.ok (),w') => if watch.rebinds target v w then none else some w'
    | (.error _,_) => none
  else some w

def itemsCourse (skipped : Bool) (target : String) (items : List V)
    (body : Nat → Course W V X Unit) : List V → Nat → Nat → Course W V X Unit
  | [],_,_ => do
    changeRegs (Regs.removeFor target)
    giveUpIf (watch.skips&&skipped)
  | v::vs,pos,index => do
    rebind E target v index
    let r ← (inLoop (.forLoop target) (fun i => Regs.saveFor target ⟨items,pos,i,none,none⟩)
      (wakeItem E watch target v) (body index)).attempt
    courseRound (do
        changeRegs (Regs.advanceFor target (pos+1))
        itemsCourse skipped target items body vs (pos+1) 0)
      (changeRegs (Regs.removeFor target)) r

def lazyCourse (skipped : Bool) (target : String) (source : V)
    (body : Nat → Course W V X Unit) : Nat → Option (V×Nat) → Course W V X Unit
  | 0,_ => Comp.diverge
  | fuel+1,current => do
    match ← itemAt E target source current with
    | none =>
      changeRegs (Regs.removeFor target)
      giveUpIf (watch.skips&&skipped)
    | some (v,index) =>
      let r ← (inLoop (.forLoop target)
        (fun i => Regs.saveFor target ⟨[],0,i,some source,some v⟩)
        (fun _ => some) (body index)).attempt
      courseRound (lazyCourse skipped target source body fuel none)
        (changeRegs (Regs.removeFor target)) r

def whileCourse (skipped : Bool) (offset : Nat) (test : Course W V X Bool)
    (body : Nat → Course W V X Unit) : Nat → Option Nat → Course W V X Unit
  | 0,_ => Comp.diverge
  | fuel+1,resumed => do
    let go ← (match resumed with
      | some _ => pure true
      | none => test)
    if go then
      let r ← (inLoop (.whileLoop offset) (Regs.saveWhile offset) (fun _ => some)
        (body (resumed.getD 0))).attempt
      courseRound (whileCourse skipped offset test body fuel none)
        (changeRegs (Regs.removeWhile offset)) r
    else do
      changeRegs (Regs.removeWhile offset)
      giveUpIf (watch.skips&&skipped)

/-- `finally` in a course. What is pending does not outlast a suspension. -/
def finishCourse (finalbody : Course W V X Unit) (pending : Except (Signal V X) Unit) :
    Course W V X Unit := fun s =>
  match finalbody s with
  | .done (.ok ()) t => .done pending t
  | .done (.error e) t => .done (.error e) t
  | .ask y t k =>
    match pending with
    | .ok () => .ask y t k
    | .error _ => if watch.pending then .diverge else .ask y t k
  | .diverge => .diverge

/-- An exception that implicit contexts leave as it is. -/
def sameContext (f : W → X) (x : X) : Course W V X Unit := do
  let y ← readW f
  giveUpIf (watch.differ y x)

def raisedContext (handled : X) : Except (Signal V X) Unit → Course W V X Unit
  | .error (.exc x) => giveUpIf (watch.differ (E.setImplicitContext x handled) x)
  | _ => pure ()

def handlersCourse (x : X) (finalbody : Course W V X Unit) :
    List (Clause L (Course W V X Unit)) → Course W V X Unit
  | [] => finishCourse watch finalbody (.error (.exc x))
  | c::cs => do
    if ← liftE (E.matchesHandler c.type x) then
      sameContext watch (caught E x) x
      bindName E c.name (E.excValue x)
      modifyW (E.pushException x)
      let r ← c.body.attempt
      modifyW E.popException
      unbindName E c.name
      raisedContext E watch x r
      finishCourse watch finalbody r
    else handlersCourse x finalbody cs

def afterBodyCourse (orelse finalbody : Course W V X Unit)
    (handlers : List (Clause L (Course W V X Unit))) :
    Except (Signal V X) Unit → Course W V X Unit
  | .ok () => do
    let r ← orelse.attempt
    finishCourse watch finalbody r
  | .error (.exc x) => handlersCourse E watch x finalbody handlers
  | .error s => finishCourse watch finalbody (.error s)

def tryCourse (body orelse finalbody : Course W V X Unit)
    (handlers : List (Clause L (Course W V X Unit))) : Course W V X Unit := do
  let r ← body.attempt
  afterBodyCourse E watch orelse finalbody handlers r

variable (ev : Evaluator W V X L) (fuel : Nat)

def directCourse (s : Stmt L) : Course W V X Unit :=
  unsuspended (watch.hidden&&hasLoop s) (inRegs (ev.stmt s))

def forCourse (skipped : Bool) (target : String) (iter : Expr L) (body : Nat → Course W V X Unit) :
    Course W V X Unit := do
  match ← seeRegs fun g => g.loops.forStack.lookup target with
  | some ⟨_,_,index,some source,current⟩ =>
    giveUpIf watch.stale
    lazyCourse E watch skipped target source body fuel (current.map fun v => (v,index))
  | some ⟨items,pos,index,none,_⟩ =>
    giveUpIf watch.stale
    itemsCourse E watch skipped target items body (items.drop pos) pos index
  | none =>
    let iterable ← ahead (.forLoop target) (inRegs (ev.iter iter))
    if E.isLazy iterable then lazyCourse E watch skipped target iterable body fuel none
    else do
      let items ← liftE (E.iter iterable)
      itemsCourse E watch skipped target items body items 0 0

def runWhileCourse (skipped : Bool) (offset : Nat) (test : Expr L)
    (body : Nat → Course W V X Unit) : Course W V X Unit := do
  let resumed ← seeRegs fun g => g.loops.whileResume.lookup offset
  giveUpIf (watch.stale&&resumed.isSome)
  whileCourse watch skipped offset (unsuspended true (inRegs (ev.test test))) body fuel resumed

def ifCourse (test : Expr L) (body orelse : Course W V X Unit) : Course W V X Unit := do
  if ← inRegs (ev.test test) then body else orelse

def withCourse (items : List (Expr L×Option L)) (body : Course W V X Unit) :
    Course W V X Unit := do
  let managers ← inRegs (ev.items items)
  let r ← body.attempt
  exitContextManagers E managers r

mutual

/-- The course of a statement that a stepper takes over. -/
def course : Stmt L → Course W V X Unit
  | .simple kind l parts => directCourse watch ev (.simple kind l parts)
  | .ifStmt test body orelse =>
    ifCourse ev test (courseFrom .branch 0 0 body) (courseFrom .branch 0 0 orelse)
  | .forStmt (.name id) iter body orelse =>
    leaving watch.leaks (.forLoop id)
      (forCourse E watch ev fuel (!orelse.isEmpty) id iter fun i => courseFrom .forLoop i 0 body)
  | .forStmt (.other l) iter body orelse =>
    directCourse watch ev (.forStmt (.other l) iter body orelse)
  | .whileStmt offset test body orelse =>
    leaving watch.leaks (.whileLoop offset)
      (runWhileCourse watch ev fuel (!orelse.isEmpty) offset test fun i =>
        courseFrom .whileLoop i 0 body)
  | .tryStmt body handlers orelse finalbody =>
    tryCourse E watch (courseFrom .phase 0 0 body) (courseFrom .phase 0 0 orelse)
      (courseFrom .phase 0 0 finalbody) (clauseCourses handlers)
  | .withStmt items body => withCourse E ev items (courseFrom .block 0 0 body)
  | .blocks searched l bodies => directCourse watch ev (.blocks searched l bodies)

/-- The course of statements from index `start` on; the first of the list has index `i`. -/
def courseFrom (ctx : Ctx) (start : Nat) : Nat → List (Stmt L) → Course W V X Unit
  | _,[] => pure ()
  | i,s::ss =>
    if i<start then courseFrom ctx start (i+1) ss
    else do
      atIndex i (if delegates ctx s then course s else directCourse watch ev s)
      changeRegs (Regs.cleared (clears ctx s))
      courseFrom ctx start (i+1) ss

def clauseCourses : List (Handler L) → List (Clause L (Course W V X Unit))
  | [] => []
  | .mk type name body::hs => ⟨type,name,courseFrom .phase 0 0 body⟩::clauseCourses hs

end

def bodyCourse (body : List (Stmt L)) : Course W V X Unit :=
  courseFrom E watch ev fuel .top 0 0 body

end Courses

end InterpretThis.Generator
