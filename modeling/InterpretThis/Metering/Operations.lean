import InterpretThis.Exceptions.Try
import InterpretThis.Framework.Strategy

namespace InterpretThis.Metering

open Exceptions

structure Config where
  maxOperations : Nat
  maxWhileIterations : Nat

/-- What a suspended generator keeps of its `while` loops. -/
structure Frame where
  whileResume : List (Nat×Nat)
  resumeAtYield : Bool

/-- The state of the interpreter without its counter. The innermost generator comes first. -/
structure Store (X : Type) where
  activeGenerators : List Nat
  generators : Nat → Option Frame
  rest : X

/-- The state of the interpreter. `trips` is for the record only: the passes that a loop of a
generator had made when a yield left it. -/
structure Meter (X : Type) where
  operationsCount : Nat
  trips : Nat → Nat → Nat
  store : Store X

/-- An evaluation of a statement or an expression with the count it found, and a pass of a `while`
loop: whether a generator steps the loop, its passes before the last yield and since. -/
inductive Event where
  | evaluated (operationsCount : Nat) (refused : Bool)
  | pass (stepped : Bool) (before n : Nat)
deriving DecidableEq

/-- A statement or an expression. The label of a `while` is its offset. -/
inductive Node (L : Type) where
  | other (l : L)
  | whileStmt (offset : Nat) (test : L) (body orelse : List (Node L))
  | tryStmt (body : List (Node L)) (handlers : List (Option L×Option String×List (Node L)))
    (orelse finalbody : List (Node L))

structure Loop (L : Type) where
  offset : Nat
  test : L
  body : List (Node L)

/-- What the interpreter can be asked for: an evaluation, which is counted, and the steppers of
generator bodies, which are not. `rounds` is the loop inside `run_while_suspendable`. -/
inductive Part (L : Type) where
  | eval (n : Node L)
  | step (l : L)
  | stepWhile (w : Loop L)
  | rounds (w : Loop L) (resumed : Option Nat) (before n : Nat)

abbrev Answer (D V : Type) : Type := Except (EvalError D V) V

abbrev Quiet (L D V X A : Type) : Type := Strategy (Part L) (Answer D V) (Store X) Empty A

abbrev Host (L D V X A : Type) : Type := Strategy (Part L) (Answer D V) (Meter X) Event A

/-- A program: what its statements and expressions besides `while` and `try` do, and what these two
take from the rest of the interpreter. -/
structure Program (L D V X : Type) where
  config : Config
  payload : Payload D
  none : V
  arm : L → Quiet L D V X (Answer D V)
  /-- The increments beyond the first: a tree of numbers is counted as a whole. -/
  extra : L → Store X → Nat
  /-- The memory and the time, looked at after every hundredth operation. -/
  overdue : Nat → Store X → Option InterpreterError
  yields : L → Bool
  /-- The statements that a stepped loop hands to a stepper: every `if`, and a `for` that yields. -/
  stepped : L → Bool
  step : L → Quiet L D V X (Answer D V)
  /-- The truth value of the test, in a loop that a generator steps or in another: only `eval_while`
  resolves a proxy first. -/
  truthy (stepped : Bool) : V → Quiet L D V X (Except (EvalError D V) Bool)
  matchesHandler : Option L → ExceptionValue D → Quiet L D V X (Except (EvalError D V) Bool)
  activeException : Store X → Option (ExceptionValue D)
  pushException : ExceptionValue D → Store X → Store X
  popException : Store X → Store X
  setVariable : String → ExceptionValue D → Store X → Except InterpreterError Unit×Store X
  deleteVariable : String → Store X → Store X

section Counting

variable {L D V X : Type} (p : Program L D V X)

def operationsError : InterpreterError :=
  .limitExceeded ("exceeded maximum of "++toString p.config.maxOperations++" operations")

/-- `increment_ops`. -/
def incrementOps (s : Meter X) : Option InterpreterError×Meter X :=
  let t := {s with operationsCount := s.operationsCount+1}
  if p.config.maxOperations≤t.operationsCount then (some (operationsError p),t)
  else if t.operationsCount%100=0 then (p.overdue t.operationsCount t.store,t)
  else (none,t)

def incrementMany : Nat → Meter X → Option InterpreterError×Meter X
  | 0,s => (none,s)
  | k+1,s =>
    match incrementOps p s with
    | (some e,t) => (some e,t)
    | (none,t) => incrementMany k t

def operations : Node L → Store X → Nat
  | .other l,s => p.extra l s+1
  | _,_ => 1

/-- What `eval_stmt` and `eval_expr` begin with. -/
def enter : Part L → Meter X → Option (Answer D V)×Meter X×List Event
  | .eval n,s =>
    match incrementMany p (operations p n s.store) s with
    | (some e,t) => (some (.error (.interpreter e)),t,[.evaluated s.operationsCount true])
    | (none,t) => (none,t,[.evaluated s.operationsCount false])
  | _,s => (none,s,[])

end Counting

section Search

variable {L D V X : Type} (p : Program L D V X)

mutual

/-- `contains_yield_stmts` of one statement. -/
def containsYield : Node L → Bool
  | .other l => p.yields l
  | .whileStmt _ test body orelse => p.yields test||containsYields body||containsYields orelse
  | .tryStmt body handlers orelse finalbody =>
    containsYields body||containsYields orelse||containsYields finalbody||handlersYield handlers

def containsYields : List (Node L) → Bool
  | [] => false
  | n::ns => containsYield n||containsYields ns

def handlersYield : List (Option L×Option String×List (Node L)) → Bool
  | [] => false
  | (_,_,body)::hs => containsYields body||handlersYield hs

end

end Search

section Store

variable {X : Type}

def Store.activeFrame (s : Store X) : Option Frame := s.activeGenerators.head?.bind s.generators

def Store.updateFrame (f : Frame → Frame) (s : Store X) : Store X :=
  match s.activeGenerators.head? with
  | none => s
  | some g => {s with generators := Function.update s.generators g ((s.generators g).map f)}

def Store.savedIndex (offset : Nat) (s : Store X) : Option Nat :=
  s.activeFrame.bind fun f => (f.whileResume.reverse.find? fun r => r.1=offset).map Prod.snd

def Store.clearResume (offset : Nat) : Store X → Store X :=
  Store.updateFrame fun f => {f with whileResume := f.whileResume.filter fun r => r.1≠offset}

/-- The first record of the loop is updated in place, else one is added. -/
def upsert (offset index : Nat) : List (Nat×Nat) → List (Nat×Nat)
  | [] => [(offset,index)]
  | r::rs => if r.1=offset then (offset,index)::rs else r::upsert offset index rs

def Store.saveResume (offset index : Nat) : Store X → Store X :=
  Store.updateFrame fun f => {f with whileResume := upsert offset index f.whileResume}

def Store.setResumeAtYield (b : Bool) : Store X → Store X :=
  Store.updateFrame fun f => {f with resumeAtYield := b}

def Meter.setStore (t : Store X) (s : Meter X) : Meter X := {s with store := t}

def Meter.onStore (f : Store X → Store X) (s : Meter X) : Meter X := s.setStore (f s.store)

def Meter.tripsOf (offset : Nat) (s : Meter X) : Nat :=
  match s.store.activeGenerators.head? with
  | none => 0
  | some g => s.trips g offset

def Meter.setTrips (offset n : Nat) (s : Meter X) : Meter X :=
  match s.store.activeGenerators.head? with
  | none => s
  | some g => {s with trips := Function.update s.trips g (Function.update (s.trips g) offset n)}

end Store

section Evaluation

variable {L D V X : Type} (p : Program L D V X)

def quietly {A : Type} (t : Quiet L D V X A) : Host L D V X A := t.within Meter.store Meter.setStore

def onStore (f : Store X → Store X) : Host L D V X Unit := Strategy.modify (Meter.onStore f)

/-- `eval_body`. -/
def evalBody : List (Node L) → V → Host L D V X (Answer D V)
  | [],result => pure (.ok result)
  | n::ns,_ => do
    match ← Strategy.ask (.eval n) with
    | .ok v => evalBody ns v
    | .error e => pure (.error e)

/-- The test of a loop and its truth value. -/
def evalTest (stepped : Bool) (test : L) : Host L D V X (Except (EvalError D V) Bool) := do
  match ← Strategy.ask (.eval (.other test)) with
  | .error e => pure (.error e)
  | .ok v => quietly (p.truthy stepped v)

/-- How the body of a loop ends one pass. -/
inductive PassEnd (D V : Type) where
  | next (result : V)
  | broke (result : V)
  | failed (e : EvalError D V)

def passBody : List (Node L) → V → Host L D V X (PassEnd D V)
  | [],result => pure (.next result)
  | n::ns,result => do
    match ← Strategy.ask (.eval n) with
    | .ok v => passBody ns v
    | .error (.signal .cont) => pure (.next result)
    | .error (.signal .brk) => pure (.broke result)
    | .error e => pure (.failed e)

/-- The passes that a loop left by this error can be resumed after. -/
def tripsLeft (e : EvalError D V) (n : Nat) : Nat :=
  match e with
  | .signal (.yield _) => n
  | _ => 0

def whileError : InterpreterError :=
  .limitExceeded ("while loop exceeded maximum iterations ("++
    toString p.config.maxWhileIterations++")")

/-- The passes of `eval_while` that the limit leaves, after `n` of them. -/
def whilePasses (w : Loop L) (orelse : List (Node L)) (before : Nat) : Nat → Nat → V →
    Host L D V X (Answer D V)
  | 0,_,_ => do
    Strategy.modify (Meter.setTrips w.offset 0)
    pure (.error (.interpreter (whileError p)))
  | left+1,n,result => do
    match ← evalTest p false w.test with
    | .error e =>
      Strategy.modify (Meter.setTrips w.offset (tripsLeft e (before+n)))
      pure (.error e)
    | .ok false =>
      Strategy.modify (Meter.setTrips w.offset 0)
      evalBody orelse result
    | .ok true =>
      Strategy.emit (.pass false before (n+1))
      match ← passBody w.body result with
      | .next v => whilePasses w orelse before left (n+1) v
      | .broke v =>
        Strategy.modify (Meter.setTrips w.offset 0)
        pure (.ok v)
      | .failed e =>
        Strategy.modify (Meter.setTrips w.offset (tripsLeft e (before+n+1)))
        pure (.error e)

def evalWhile (w : Loop L) (orelse : List (Node L)) : Host L D V X (Answer D V) := do
  let before ← Strategy.read (Meter.tripsOf w.offset)
  whilePasses p w orelse before p.config.maxWhileIterations 0 p.none

/-- How a statement of a stepped loop is run, and whether a stepper of its own runs it. -/
def steppedPart : Node L → Part L×Bool
  | .other l => if p.stepped l then (.step l,true) else (.eval (.other l),false)
  | .whileStmt offset test body orelse =>
    if containsYield p (.whileStmt offset test body orelse)&&orelse.isEmpty then
      (.stepWhile ⟨offset,test,body⟩,true)
    else (.eval (.whileStmt offset test body orelse),false)
  | n => (.eval n,false)

def markYield (nested : Bool) : Host L D V X Unit :=
  if nested then pure () else onStore (Store.setResumeAtYield true)

/-- The statements of a stepped loop from the one with this index on, in pass `n` since the last
yield. -/
def stepStatements (w : Loop L) (before n : Nat) : List (Node L) → Nat → Host L D V X (Answer D V)
  | [],_ => Strategy.ask (.rounds w none before n)
  | s::ss,i => do
    match ← Strategy.ask (steppedPart p s).1 with
    | .ok _ =>
      onStore (Store.setResumeAtYield false)
      stepStatements w before n ss (i+1)
    | .error (.signal .cont) => Strategy.ask (.rounds w none before n)
    | .error (.signal .brk) =>
      onStore (Store.clearResume w.offset)
      Strategy.modify (Meter.setTrips w.offset 0)
      pure (.ok p.none)
    | .error (.signal (.yield v)) =>
      markYield (steppedPart p s).2
      onStore (Store.saveResume w.offset i)
      Strategy.modify (Meter.setTrips w.offset (before+n))
      pure (.error (.signal (.yield v)))
    | .error e =>
      Strategy.modify (Meter.setTrips w.offset 0)
      pure (.error e)

/-- One round of `run_while_suspendable`. A resumed pass goes on where it was left, without the
test. -/
def stepRound (w : Loop L) (before n : Nat) : Option Nat → Host L D V X (Answer D V)
  | some i => stepStatements p w before n (w.body.drop i) i
  | none => do
    match ← evalTest p true w.test with
    | .error e =>
      Strategy.modify (Meter.setTrips w.offset (tripsLeft e (before+n)))
      pure (.error e)
    | .ok false =>
      onStore (Store.clearResume w.offset)
      Strategy.modify (Meter.setTrips w.offset 0)
      pure (.ok p.none)
    | .ok true =>
      Strategy.emit (.pass true before (n+1))
      stepStatements p w before (n+1) w.body 0

def runWhileSuspendable (w : Loop L) : Host L D V X (Answer D V) := do
  let resumed ← Strategy.read fun s => s.store.savedIndex w.offset
  let before ← Strategy.read (Meter.tripsOf w.offset)
  Strategy.ask (.rounds w resumed before 0)

/-- `chain_context`: only exceptions are chained. -/
def chainContext (handled : ExceptionValue D) : EvalError D V → EvalError D V
  | .exception x => .exception (x.setImplicitContext p.payload handled)
  | e => e

def caughtIn (exc : ExceptionValue D) (s : Store X) : ExceptionValue D :=
  match p.activeException s with
  | some outer => exc.setImplicitContext p.payload outer
  | none => exc

def bindName (name : Option String) (exc : ExceptionValue D) :
    Host L D V X (Except InterpreterError Unit) :=
  match name with
  | none => pure (.ok ())
  | some n => Strategy.step fun s =>
    ((p.setVariable n exc s.store).1,s.setStore (p.setVariable n exc s.store).2)

def unbindName (name : Option String) : Host L D V X Unit :=
  match name with
  | none => pure ()
  | some n => onStore (p.deleteVariable n)

/-- A matching handler; the inner answer is that of its body. -/
def enterHandler (name : Option String) (body : List (Node L)) (exc : ExceptionValue D) :
    Host L D V X (Except (EvalError D V) (Answer D V)) := do
  let exc ← Strategy.read fun s => caughtIn p exc s.store
  match ← bindName p name exc with
  | .error e => pure (.error (.interpreter e))
  | .ok () =>
    onStore (p.pushException exc)
    let r ← evalBody body p.none
    onStore p.popException
    unbindName p name
    pure (.ok (r.mapError (chainContext p exc)))

/-- `try_match_handlers`. -/
def tryMatchHandlers (exc : ExceptionValue D) :
    List (Option L×Option String×List (Node L)) →
      Host L D V X (Except (EvalError D V) (Option (Answer D V)))
  | [] => pure (.ok none)
  | (type,name,body)::hs => do
    match ← quietly (p.matchesHandler type exc) with
    | .error e => pure (.error e)
    | .ok false => tryMatchHandlers exc hs
    | .ok true =>
      match ← enterHandler p name body exc with
      | .error e => pure (.error e)
      | .ok r => pure (.ok (some r))

/-- `finally`, and what was pending when it does not raise. -/
def finish (finalbody : List (Node L)) (pending : Answer D V) : Host L D V X (Answer D V) :=
  if finalbody.isEmpty then pure pending
  else do
    match ← evalBody finalbody p.none with
    | .ok _ => pure pending
    | .error e => pure (.error e)

/-- The handlers for an error, then `finally`. An error of the search leaves the statement. -/
def handle (handlers : List (Option L×Option String×List (Node L))) (finalbody : List (Node L))
    (original : EvalError D V) (exc : ExceptionValue D) : Host L D V X (Answer D V) := do
  match ← tryMatchHandlers p exc handlers with
  | .error e => pure (.error e)
  | .ok none => finish p finalbody (.error original)
  | .ok (some r) => finish p finalbody r

/-- `eval_try`: the errors of the interpreter, its limits among them, are caught as exceptions. -/
def evalTry (body : List (Node L)) (handlers : List (Option L×Option String×List (Node L)))
    (orelse finalbody : List (Node L)) : Host L D V X (Answer D V) := do
  match ← evalBody body p.none with
  | .ok _ =>
    let r ← evalBody orelse p.none
    finish p finalbody r
  | .error (.signal (.yield v)) => pure (.error (.signal (.yield v)))
  | .error (.signal sig) => finish p finalbody (.error (.signal sig))
  | .error (.exception x) => handle p handlers finalbody (.exception x) x
  | .error (.interpreter e) =>
    handle p handlers finalbody (.interpreter e) (interpreterErrorToException p.payload e)

def Program.armOf : Part L → Host L D V X (Answer D V)
  | .eval (.other l) => quietly (p.arm l)
  | .eval (.whileStmt offset test body orelse) => evalWhile p ⟨offset,test,body⟩ orelse
  | .eval (.tryStmt body handlers orelse finalbody) => evalTry p body handlers orelse finalbody
  | .step l => quietly (p.step l)
  | .stepWhile w => runWhileSuspendable w
  | .rounds w resumed before n => stepRound p w before n resumed

def Program.evaluator : Evaluator (Part L) (Answer D V) (Meter X) Event where
  enter := enter p
  arm := p.armOf

def Program.run (fuel : Nat) (q : Part L) : Recorded (Meter X) Unit Event (Answer D V) :=
  p.evaluator.run fuel q

end Evaluation

end InterpretThis.Metering
