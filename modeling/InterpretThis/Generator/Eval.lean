import InterpretThis.Framework.Resumption
import Mathlib.Init

namespace InterpretThis.Generator

/-- An expression with its sub-expressions in evaluation order. `L` labels the operation that
follows them: a leaf is a node without arguments. -/
inductive Expr (L : Type) where
  | node (l : L) (args : List (Expr L))
  | boolOp (isAnd : Bool) (left right : Expr L)
  | ifExp (test body orelse : Expr L)
  | yield (value : Expr L)
  | yieldFrom (source : Expr L)

inductive SimpleKind where
  | expr
  | assign
  | augAssign
  | annAssign
  | ret
  | raise
  | other
  deriving DecidableEq

/-- A bare name can be suspended, any other target cannot. -/
inductive Target (L : Type) where
  | name (id : String)
  | other (l : L)

mutual

/-- A statement. The parts of a simple statement are its sub-expressions in evaluation order. A
`while` carries its offset. `blocks` stands for the compound statements that no stepper enters;
`searched` tells whether the search for yields looks into them (`match` does, `try*` and the
asynchronous ones do not). -/
inductive Stmt (L : Type) where
  | simple (kind : SimpleKind) (l : L) (parts : List (Expr L))
  | ifStmt (test : Expr L) (body orelse : List (Stmt L))
  | forStmt (target : Target L) (iter : Expr L) (body orelse : List (Stmt L))
  | whileStmt (offset : Nat) (test : Expr L) (body orelse : List (Stmt L))
  | tryStmt (body : List (Stmt L)) (handlers : List (Handler L)) (orelse finalbody : List (Stmt L))
  | withStmt (items : List (Expr L×Option L)) (body : List (Stmt L))
  | blocks (searched : Bool) (l : L) (bodies : List (List (Stmt L)))

inductive Handler (L : Type) where
  | mk (type : Option L) (name : Option String) (body : List (Stmt L))

end

namespace Handler

variable {L : Type}

def type : Handler L → Option L
  | mk type _ _ => type

def name : Handler L → Option String
  | mk _ name _ => name

def body : Handler L → List (Stmt L)
  | mk _ _ body => body

end Handler

section Search

variable {L : Type}

mutual

def containsYieldExpr : Expr L → Bool
  | .node _ args => containsYieldExprs args
  | .boolOp _ left right => containsYieldExpr left||containsYieldExpr right
  | .ifExp test body orelse =>
    containsYieldExpr test||containsYieldExpr body||containsYieldExpr orelse
  | .yield _ => true
  | .yieldFrom _ => true

def containsYieldExprs : List (Expr L) → Bool
  | [] => false
  | e::es => containsYieldExpr e||containsYieldExprs es

end

/-- The parts of a simple statement that the search for yields visits. -/
def searchedParts (kind : SimpleKind) (parts : List (Expr L)) : List (Expr L) :=
  match kind with
  | .annAssign => parts.take 1
  | .other => []
  | _ => parts

mutual

def containsYieldStmt : Stmt L → Bool
  | .simple kind _ parts => containsYieldExprs (searchedParts kind parts)
  | .ifStmt test body orelse =>
    containsYieldExpr test||containsYieldStmts body||containsYieldStmts orelse
  | .forStmt _ iter body orelse =>
    containsYieldExpr iter||containsYieldStmts body||containsYieldStmts orelse
  | .whileStmt _ test body orelse =>
    containsYieldExpr test||containsYieldStmts body||containsYieldStmts orelse
  | .tryStmt body handlers orelse finalbody =>
    containsYieldStmts body||containsYieldStmts orelse||containsYieldStmts finalbody||
      containsYieldHandlers handlers
  | .withStmt _ body => containsYieldStmts body
  | .blocks searched _ bodies => searched&&containsYieldBlocks bodies

def containsYieldStmts : List (Stmt L) → Bool
  | [] => false
  | s::ss => containsYieldStmt s||containsYieldStmts ss

def containsYieldHandlers : List (Handler L) → Bool
  | [] => false
  | .mk _ _ body::hs => containsYieldStmts body||containsYieldHandlers hs

def containsYieldBlocks : List (List (Stmt L)) → Bool
  | [] => false
  | b::bs => containsYieldStmts b||containsYieldBlocks bs

end

end Search

section Gates

variable {L : Type}

def forNameTarget : Target L → Option String
  | .name id => some id
  | .other _ => none

def forDelegatable (target : Target L) (orelse : List (Stmt L)) : Bool :=
  (forNameTarget target).isSome&&orelse.isEmpty

mutual

/-- Whether a statement may stand in a loop that can be re-entered. -/
def loopNestSuspendable : Stmt L → Bool
  | .ifStmt _ body orelse => loopNestSuspendables body&&loopNestSuspendables orelse
  | .forStmt target iter body orelse =>
    !containsYieldStmt (.forStmt target iter body orelse)||
      (forDelegatable target orelse&&loopNestSuspendables body)
  | .whileStmt offset test body orelse =>
    !containsYieldStmt (.whileStmt offset test body orelse)||
      (orelse.isEmpty&&loopNestSuspendables body)
  | .withStmt items body => !containsYieldStmt (.withStmt items body)
  | .tryStmt body handlers orelse finalbody =>
    !containsYieldStmt (.tryStmt body handlers orelse finalbody)
  | .blocks searched l bodies => !containsYieldStmt (.blocks searched l bodies)
  | .simple .. => true

def loopNestSuspendables : List (Stmt L) → Bool
  | [] => true
  | s::ss => loopNestSuspendable s&&loopNestSuspendables ss

end

mutual

/-- Whether a statement may stand in a branch or a phase that can be re-entered. -/
def ifBranchSuspendable : Stmt L → Bool
  | .ifStmt _ body orelse => ifBranchSuspendables body&&ifBranchSuspendables orelse
  | .tryStmt body handlers orelse finalbody =>
    ifBranchSuspendables body&&ifBranchSuspendables orelse&&ifBranchSuspendables finalbody&&
      handlersSuspendable handlers
  | .whileStmt offset test body orelse =>
    !containsYieldStmt (.whileStmt offset test body orelse)||
      (orelse.isEmpty&&loopNestSuspendables body)
  | .forStmt target iter body orelse =>
    !containsYieldStmt (.forStmt target iter body orelse)||
      (forDelegatable target orelse&&loopNestSuspendables body)
  | .withStmt items body => !containsYieldStmt (.withStmt items body)
  | .blocks searched l bodies => !containsYieldStmt (.blocks searched l bodies)
  | .simple .. => true

def ifBranchSuspendables : List (Stmt L) → Bool
  | [] => true
  | s::ss => ifBranchSuspendable s&&ifBranchSuspendables ss

def handlersSuspendable : List (Handler L) → Bool
  | [] => true
  | .mk _ _ body::hs => ifBranchSuspendables body&&handlersSuspendable hs

end

def topLevelSuspendable (s : Stmt L) : Bool :=
  if !containsYieldStmt s then true
  else match s with
    | .forStmt target _ body orelse => forDelegatable target orelse&&loopNestSuspendables body
    | .whileStmt _ _ body orelse => orelse.isEmpty&&loopNestSuspendables body
    | .ifStmt _ body orelse => ifBranchSuspendables body&&ifBranchSuspendables orelse
    | .tryStmt body handlers orelse finalbody =>
      ifBranchSuspendables body&&ifBranchSuspendables orelse&&ifBranchSuspendables finalbody&&
        handlersSuspendable handlers
    | .withStmt _ body => ifBranchSuspendables body
    | .simple kind _ _ => kind=.expr||kind=.assign||kind=.augAssign||kind=.annAssign||kind=.ret
    | .blocks .. => false

def generatorSuspendable (body : List (Stmt L)) : Bool := body.all topLevelSuspendable

end Gates

open Resumption

/-- What leaves a statement before its end. -/
inductive Signal (V X : Type) where
  | ret (v : V)
  | brk
  | cont
  | yielded (v : V)
  | exc (x : X)

/-- What a compound statement without a stepper does next. -/
inductive Choice (V X : Type) where
  | block (i : Nat)
  | finish (r : Except (Signal V X) Unit)

/-- The parts of the interpreter that statements call on. `W` is the state they share. -/
structure Effects (W V X L : Type) where
  none : V
  /-- The operation of a node, once its arguments have been evaluated. -/
  prim : L → List V → W → Except X V×W
  /-- The effect of a simple statement, once its parts have been evaluated. -/
  act : L → List V → W → Except (Signal V X) Unit×W
  truthy : V → W → Except X Bool×W
  /-- The generators and iterators that a loop steps one item at a time. -/
  isLazy : V → Bool
  isGenerator : V → Bool
  iter : V → W → Except X (List V)×W
  next : V → W → Except X V×W
  isStop : X → Bool
  stopValue : X → V
  assignTarget : L → V → W → Except X Unit×W
  setVariable : String → V → W → Except X Unit×W
  deleteVariable : String → W → W
  matchesHandler : Option L → X → W → Except X Bool×W
  excValue : X → V
  pushException : X → W → W
  popException : W → W
  activeException : W → Option X
  /-- `set_implicit_context exc handled`. -/
  setImplicitContext : X → X → X
  enterContext : V → W → Except X V×W
  /-- The truth value of what `__exit__` returned. -/
  exitContext : V → Option X → W → Except X Bool×W
  /-- Statements without a stepper: the next block, given how the last one ended. -/
  choose : L → Option (Except (Signal V X) Unit) → W → Choice V X×W

/-- How the two yield expressions treat their operand. -/
structure Yielding (Y S V X : Type) where
  yield : Comp Y S (Signal V X) V → Comp Y S (Signal V X) V
  yieldFrom : Comp Y S (Signal V X) V → Comp Y S (Signal V X) V

section Semantics

variable {Y A W V X L : Type} (E : Effects W V X L)

theorem mapError_ok {α ε ε' : Type} (f : ε → ε') (a : α) :
    (Except.ok a : Except ε α).mapError f=.ok a := rfl

theorem mapError_error {α ε ε' : Type} (f : ε → ε') (e : ε) :
    (Except.error e : Except ε α).mapError f=.error (f e) := rfl

def liftE {α : Type} (f : W → Except X α×W) : Comp Y (A×W) (Signal V X) α :=
  Comp.lift fun s => ((f s.2).1.mapError .exc,(s.1,(f s.2).2))

def liftS {α : Type} (f : W → Except (Signal V X) α×W) : Comp Y (A×W) (Signal V X) α :=
  Comp.lift fun s => ((f s.2).1,(s.1,(f s.2).2))

def modifyW (f : W → W) : Comp Y (A×W) (Signal V X) Unit := Comp.modify fun s => (s.1,f s.2)

def readW {α : Type} (f : W → α) : Comp Y (A×W) (Signal V X) α :=
  Comp.lift fun s => (.ok (f s.2),s)

def assignFor (target : Target L) (v : V) : Comp Y (A×W) (Signal V X) Unit :=
  match target with
  | .name id => liftE (E.setVariable id v)
  | .other l => liftE (E.assignTarget l v)

/-- Bind the name of a handler. -/
def bindName (name : Option String) (v : V) : Comp Y (A×W) (Signal V X) Unit :=
  match name with
  | some n => liftE (E.setVariable n v)
  | none => pure ()

def unbindName (name : Option String) : Comp Y (A×W) (Signal V X) Unit :=
  match name with
  | some n => modifyW (E.deleteVariable n)
  | none => pure ()

def assignOptional (target : Option L) (v : V) : Comp Y (A×W) (Signal V X) Unit :=
  match target with
  | some l => liftE (E.assignTarget l v)
  | none => pure ()

/-- The managers in reverse order, each with the exception that is pending when it is reached. -/
def exitEach : List V → Option X → Comp Y (A×W) (Signal V X) (Option X)
  | [],pending => pure pending
  | cm::cms,pending => do
    let r ← (liftE (E.exitContext cm pending)).attempt
    match r with
    | .ok suppress => exitEach cms (if suppress then none else pending)
    | .error (.exc x) => exitEach cms (some x)
    | .error s => Comp.throw s

/-- `exit_context_managers`: an exception may be suppressed, any other signal goes on. -/
def exitContextManagers (managers : List V) (r : Except (Signal V X) Unit) :
    Comp Y (A×W) (Signal V X) Unit := do
  match r with
  | .ok () =>
    let pending ← exitEach E managers.reverse none
    match pending with
    | some x => Comp.throw (.exc x)
    | none => pure ()
  | .error (.exc x) =>
    let pending ← exitEach E managers.reverse (some x)
    match pending with
    | some x => Comp.throw (.exc x)
    | none => pure ()
  | .error s => do
    let _ ← exitEach E managers.reverse none
    Comp.throw s

variable (h : Yielding Y (A×W) V X)

mutual

def evalExpr : Expr L → Comp Y (A×W) (Signal V X) V
  | .node l args => do
    let vs ← evalExprs args
    liftE (E.prim l vs)
  | .boolOp isAnd left right => do
    let v ← evalExpr left
    let b ← liftE (E.truthy v)
    if b=isAnd then evalExpr right else pure v
  | .ifExp test body orelse => do
    let v ← evalExpr test
    let b ← liftE (E.truthy v)
    if b then evalExpr body else evalExpr orelse
  | .yield value => h.yield (evalExpr value)
  | .yieldFrom source => h.yieldFrom (evalExpr source)

def evalExprs : List (Expr L) → Comp Y (A×W) (Signal V X) (List V)
  | [] => pure []
  | e::es => do
    let v ← evalExpr e
    let vs ← evalExprs es
    pure (v::vs)

end

/-- How a loop body ends: the loop goes on or it is broken off. -/
def loopBody (body : Comp Y (A×W) (Signal V X) Unit) : Comp Y (A×W) (Signal V X) Bool := do
  match ← body.attempt with
  | .ok () => pure true
  | .error .cont => pure true
  | .error .brk => pure false
  | .error s => Comp.throw s

/-- The rounds of a loop over items that are all there. `false` after a break. -/
def loopItems (round : V → Comp Y (A×W) (Signal V X) Bool) : List V → Comp Y (A×W) (Signal V X) Bool
  | [] => pure true
  | v::vs => do
    if ← round v then loopItems round vs else pure false

/-- The next item of an iterator, or none at its end. -/
def pull (source : V) : Comp Y (A×W) (Signal V X) (Option V) := do
  match ← (liftE (E.next source)).attempt with
  | .ok v => pure (some v)
  | .error (.exc x) => if E.isStop x then pure none else Comp.throw (.exc x)
  | .error s => Comp.throw s

def loopLazy (source : V) (round : V → Comp Y (A×W) (Signal V X) Bool) :
    Nat → Comp Y (A×W) (Signal V X) Bool
  | 0 => Comp.diverge
  | fuel+1 => do
    match ← pull E source with
    | none => pure true
    | some v => if ← round v then loopLazy source round fuel else pure false

/-- The rounds of a `for` loop. -/
def loopOver (iterable : V) (round : V → Comp Y (A×W) (Signal V X) Bool) (fuel : Nat) :
    Comp Y (A×W) (Signal V X) Bool :=
  if E.isLazy iterable then loopLazy E iterable round fuel
  else do
    let items ← liftE (E.iter iterable)
    loopItems round items

def loopWhile (test : Comp Y (A×W) (Signal V X) Bool) (body : Comp Y (A×W) (Signal V X) Bool) :
    Nat → Comp Y (A×W) (Signal V X) Bool
  | 0 => Comp.diverge
  | fuel+1 => do
    if ← test then
      if ← body then loopWhile test body fuel else pure false
    else pure true

def evalTest (test : Expr L) : Comp Y (A×W) (Signal V X) Bool := do
  let v ← evalExpr E h test
  liftE (E.truthy v)

def enterItems : List (Expr L×Option L) → List V → Comp Y (A×W) (Signal V X) (List V)
  | [],managers => pure managers
  | (e,target)::items,managers => do
    let cm ← evalExpr E h e
    let entered ← liftE (E.enterContext cm)
    assignOptional E target entered
    enterItems items (managers++[cm])

/-- The blocks of a statement without a stepper, one after the other. -/
def runBlocks (l : L) (block : Nat → Comp Y (A×W) (Signal V X) Unit) :
    Nat → Option (Except (Signal V X) Unit) → Comp Y (A×W) (Signal V X) Unit
  | 0,_ => Comp.diverge
  | fuel+1,last => do
    let c ← Comp.lift fun s => (.ok (E.choose l last s.2).1,(s.1,(E.choose l last s.2).2))
    match c with
    | .block i =>
      let r ← (block i).attempt
      runBlocks l block fuel (some r)
    | .finish (.ok ()) => pure ()
    | .finish (.error s) => Comp.throw s

/-- The value that an exception takes when it is caught while another one is handled. -/
def caught (x : X) (w : W) : X :=
  match E.activeException w with
  | some outer => E.setImplicitContext x outer
  | none => x

/-- `chain_context`: what a handler raises gets the handled exception as its context. -/
def chainContext (handled : X) : Except (Signal V X) Unit → Except (Signal V X) Unit
  | .error (.exc x) => .error (.exc (E.setImplicitContext x handled))
  | r => r

/-- The body of a handler between the binding and the removal of its name. -/
def runHandler (name : Option String) (x : X) (body : Comp Y (A×W) (Signal V X) Unit) :
    Comp Y (A×W) (Signal V X) (Except (Signal V X) Unit) := do
  let x ← readW (caught E x)
  bindName E name (E.excValue x)
  modifyW (E.pushException x)
  let r ← body.attempt
  modifyW E.popException
  unbindName E name
  pure (chainContext E x r)

/-- The end of `eval_try`: what the last block leaves is overridden by what `finally` raises. -/
def finishTry (pending : Except (Signal V X) Unit) (finalbody : Comp Y (A×W) (Signal V X) Unit) :
    Comp Y (A×W) (Signal V X) Unit := do
  finalbody
  match pending with
  | .ok () => pure ()
  | .error s => Comp.throw s

variable (fuel : Nat)

mutual

def evalStmt : Stmt L → Comp Y (A×W) (Signal V X) Unit
  | .simple _ l parts => do
    let vs ← evalExprs E h parts
    liftS (E.act l vs)
  | .ifStmt test body orelse => do
    if ← evalTest E h test then evalBody body else evalBody orelse
  | .forStmt target iter body orelse => do
    let iterable ← evalExpr E h iter
    let whole ← loopOver E iterable (fun v => do
      assignFor E target v
      loopBody (evalBody body)) fuel
    if whole then evalBody orelse else pure ()
  | .whileStmt _ test body orelse => do
    let whole ← loopWhile (evalTest E h test) (loopBody (evalBody body)) fuel
    if whole then evalBody orelse else pure ()
  | .tryStmt body handlers orelse finalbody => do
    match ← (evalBody body).attempt with
    | .ok () =>
      let r ← (evalBody orelse).attempt
      finishTry r (evalBody finalbody)
    | .error (.yielded v) => Comp.throw (.yielded v)
    | .error (.exc x) => do
      let r ← tryMatchHandlers x handlers
      finishTry r (evalBody finalbody)
    | .error s => finishTry (.error s) (evalBody finalbody)
  | .withStmt items body => do
    let managers ← enterItems E h items []
    let r ← (evalBody body).attempt
    exitContextManagers E managers r
  | .blocks _ l bodies => runBlocks E l (evalBlock bodies) fuel none

def evalBody : List (Stmt L) → Comp Y (A×W) (Signal V X) Unit
  | [] => pure ()
  | s::ss => do
    evalStmt s
    evalBody ss

/-- The first handler that matches. -/
def tryMatchHandlers (x : X) : List (Handler L) → Comp Y (A×W) (Signal V X) (Except (Signal V X) Unit)
  | [] => pure (.error (.exc x))
  | .mk type name body::hs => do
    if ← liftE (E.matchesHandler type x) then runHandler E name x (evalBody body)
    else tryMatchHandlers x hs

def evalBlock : List (List (Stmt L)) → Nat → Comp Y (A×W) (Signal V X) Unit
  | [],_ => pure ()
  | b::_,0 => evalBody b
  | _::bs,i+1 => evalBlock bs i

end

end Semantics

/-- The registers of a frame that yield expressions read and write. `drains` holds what is left of
the iterables that `yield from` took over: the entries of `for_stack` with an empty target, which
always stand above the entries of loops. -/
structure Cell (V X : Type) where
  resumeAtYield : Bool
  sendValue : V
  pendingThrow : Option X
  yieldFromReturn : Option V
  delegatingTo : Option V
  drains : List (List V)

namespace Cell

variable {V X : Type}

/-- The answer that a resumed `yield` takes. -/
def takeSent (none : V) (c : Cell V X) : Except X V×Cell V X :=
  match c.pendingThrow with
  | some x => (.error x,{c with resumeAtYield := false, pendingThrow := .none})
  | .none => (.ok c.sendValue,{c with resumeAtYield := false, sendValue := none})

/-- The answer that a resumed `yield from` takes. -/
def takeReturn (none : V) (c : Cell V X) : Except X V×Cell V X :=
  match c.pendingThrow with
  | some x => (.error x,{c with resumeAtYield := false, pendingThrow := .none})
  | .none => (.ok (c.yieldFromReturn.getD none),
      {c with resumeAtYield := false, yieldFromReturn := .none})

end Cell

end InterpretThis.Generator
