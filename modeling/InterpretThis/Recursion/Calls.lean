import InterpretThis.Exceptions.Try
import InterpretThis.Framework.Strategy

namespace InterpretThis.Recursion

open Exceptions

structure MethodFrame (V : Type) where
  definingClass : String
  selfValue : V
  selfLocalName : Option String

/-- The counters and stacks of active frames, the innermost entries first. -/
structure Marks (V : Type) where
  callDepth : Nat
  exprDepth : Nat
  savedExprDepth : List Nat
  bodySourceStack : List String
  qualnameStack : List String
  methodFrameStack : List (MethodFrame V)
  activeGeneratorStack : List Nat
  frameCellOwners : List (String → Option Nat)

structure State (V X : Type) where
  marks : Marks V
  rest : X

def State.setRest {V X : Type} (x : X) (s : State V X) : State V X := {s with rest := x}

/-- A frame of user code is entered: the calls and the generator bodies that are now active. A
capture cell is newly registered: the number of cell scopes there are. -/
inductive Event where
  | entered (calls generators : Nat)
  | captured (scopes : Nat)
deriving DecidableEq

/-- A function or a method. `name` is qualified by the class of a method. -/
structure FunctionDef (L : Type) where
  label : L
  name : String
  qualname : String
  source : String
  firstParam : Option String

structure LambdaDef (L : Type) where
  label : L
  qualname : String
  source : String

/-- What the interpreter can be asked for. `guarded` are the evaluations that count their nesting,
`plain` all others. -/
inductive Part (L A V : Type) where
  | call (f : FunctionDef L) (args : A)
  | lambda (f : LambdaDef L) (args : A)
  | method (f : FunctionDef L) (self : V) (args : A)
  | step (id : Nat) (sent : V)
  | classBody (l : L) (name : String)
  | guarded (l : L)
  | plain (l : L)
  | capture (name : String) (cell : Nat)

abbrev Answer (D V : Type) : Type := Except (EvalError D V) V

abbrev Quiet (L A D V X B : Type) : Type := Strategy (Part L A V) (Answer D V) X Empty B

abbrev Host (L A D V X B : Type) : Type :=
  Strategy (Part L A V) (Answer D V) (State V X) Event B

/-- A program: what its calls, its generator bodies and its other evaluations do. `A` are arguments,
also when they are bound to parameters. -/
structure Program (L A D V X : Type) where
  maxRecursionDepth : Nat
  none : V
  /-- The conditions of the fast path: no parameters, closure or bindings, no generator. -/
  trivial : FunctionDef L → A → X → Bool
  /-- `try_eval_trivial_body`. -/
  direct : FunctionDef L → X → Option V
  isReceiver : V → Bool
  /-- `bind_params_named`. -/
  bindParams : Part L A V → Quiet L A D V X (Except (EvalError D V) A)
  /-- The checkpoint is captured and the scope applied; a failure restores the checkpoint. -/
  applyScope : Part L A V → A → Quiet L A D V X (Except (EvalError D V) A)
  suspends : FunctionDef L → X → Bool
  createGenerator : FunctionDef L → Quiet L A D V X V
  /-- The body, with the eager buffer of a generator that is not suspended. -/
  body : Part L A V → Quiet L A D V X (Answer D V)
  /-- `nonlocal` cells are written back and the checkpoint is restored. -/
  restore : Part L A V → A → Quiet L A D V X Unit
  /-- The frame of a generator is opened: it is finished, hands out what is left, or runs. -/
  openFrame : Nat → V → Quiet L A D V X (Except (Answer D V) String)
  generatorBody : Nat → Quiet L A D V X (Except (EvalError D V) Unit)
  closeFrame : Nat → Except (EvalError D V) Unit → Quiet L A D V X (Answer D V)
  /-- Keywords, bases and `__prepare__` of a class statement. -/
  openClass : L → Quiet L A D V X (Except (EvalError D V) Unit)
  runClass : L → Quiet L A D V X (Except (EvalError D V) Unit)
  closeClass : L → Quiet L A D V X (Answer D V)
  arm : L → Quiet L A D V X (Answer D V)

section Registers

variable {V : Type}

namespace Marks

/-- `enter_call` on success. -/
def enterCall (r : Marks V) : Marks V :=
  {r with
    callDepth := r.callDepth+1
    savedExprDepth := r.exprDepth::r.savedExprDepth
    exprDepth := 0}

def exitCall (r : Marks V) : Marks V :=
  match r.savedExprDepth with
  | [] => {r with callDepth := r.callDepth-1}
  | d::ds => {r with callDepth := r.callDepth-1, savedExprDepth := ds, exprDepth := d}

def enterExpr (r : Marks V) : Marks V := {r with exprDepth := r.exprDepth+1}

def exitExpr (r : Marks V) : Marks V := {r with exprDepth := r.exprDepth-1}

def pushSource (source : String) (r : Marks V) : Marks V :=
  {r with bodySourceStack := source::r.bodySourceStack}

def popSource (r : Marks V) : Marks V := {r with bodySourceStack := r.bodySourceStack.tail}

def pushQualname (name : String) (r : Marks V) : Marks V :=
  {r with qualnameStack := name::r.qualnameStack}

def popQualname (r : Marks V) : Marks V := {r with qualnameStack := r.qualnameStack.tail}

def pushOwners (r : Marks V) : Marks V :=
  {r with frameCellOwners := (fun _ => none)::r.frameCellOwners}

def popOwners (r : Marks V) : Marks V := {r with frameCellOwners := r.frameCellOwners.tail}

def pushMethod (f : MethodFrame V) (r : Marks V) : Marks V :=
  {r with methodFrameStack := f::r.methodFrameStack}

def popMethod (r : Marks V) : Marks V := {r with methodFrameStack := r.methodFrameStack.tail}

def pushGenerator (id : Nat) (r : Marks V) : Marks V :=
  {r with activeGeneratorStack := id::r.activeGeneratorStack}

def popGenerator (r : Marks V) : Marks V :=
  {r with activeGeneratorStack := r.activeGeneratorStack.tail}

/-- The cell is registered with the innermost scope already, or there is no scope. -/
def backs (name : String) (cell : Nat) (r : Marks V) : Bool :=
  match r.frameCellOwners with
  | [] => true
  | owners::_ => owners name==some cell

/-- A cell is registered with the innermost scope. -/
def capture (name : String) (cell : Nat) (r : Marks V) : Marks V :=
  {r with frameCellOwners := match r.frameCellOwners with
    | [] => []
    | owners::rest => Function.update owners name (some cell)::rest}

end Marks

end Registers

section Evaluation

variable {L A D V X : Type} (p : Program L A D V X)

def quietly {B : Type} (t : Quiet L A D V X B) : Host L A D V X B :=
  t.within State.rest State.setRest

def onMarks (f : Marks V → Marks V) : Host L A D V X Unit :=
  Strategy.modify fun s => {s with marks := f s.marks}

def readMarks {B : Type} (f : Marks V → B) : Host L A D V X B := Strategy.read fun s => f s.marks

def recursionError : Answer D V :=
  .error (.interpreter (.recursionLimitExceeded p.maxRecursionDepth))

def noteEntry (calls generators : Nat) : Host L A D V X Unit :=
  Strategy.emit (.entered calls generators)

/-- A frame after `enter_call`, or the error of the limit. -/
def framed (t : Host L A D V X (Answer D V)) : Host L A D V X (Answer D V) := do
  let r ← readMarks id
  if p.maxRecursionDepth ≤ r.callDepth then pure (recursionError p)
  else do
    onMarks Marks.enterCall
    noteEntry (r.callDepth+1) r.activeGeneratorStack.length
    t

/-- `return` ends a call with its value. -/
def returned : Answer D V → Answer D V
  | .error (.signal (.ret v)) => .ok v
  | r => r

def locals (f : FunctionDef L) : String := f.qualname++".<locals>"

/-- The fast path of `call_user_function_inner`. -/
def callTrivial (f : FunctionDef L) (args : A) : Host L A D V X (Answer D V) := do
  match ← quietly (Strategy.read (p.direct f)) with
  | some v =>
    onMarks Marks.exitCall
    pure (.ok v)
  | none =>
    onMarks (Marks.pushSource f.source)
    onMarks (Marks.pushQualname (locals f))
    onMarks Marks.pushOwners
    let r ← quietly (p.body (.call f args))
    onMarks Marks.popOwners
    onMarks Marks.popSource
    onMarks Marks.popQualname
    onMarks Marks.exitCall
    pure (returned r)

/-- What follows once the scope of a function is applied. -/
def callBody (f : FunctionDef L) (args checkpoint : A) : Host L A D V X (Answer D V) := do
  onMarks (Marks.pushSource f.source)
  onMarks (Marks.pushQualname (locals f))
  if ← quietly (Strategy.read (p.suspends f)) then do
    let g ← quietly (p.createGenerator f)
    quietly (p.restore (.call f args) checkpoint)
    onMarks Marks.popOwners
    onMarks Marks.exitCall
    onMarks Marks.popSource
    onMarks Marks.popQualname
    pure (.ok g)
  else do
    let r ← quietly (p.body (.call f args))
    quietly (p.restore (.call f args) checkpoint)
    onMarks Marks.popOwners
    onMarks Marks.exitCall
    onMarks Marks.popSource
    onMarks Marks.popQualname
    pure (returned r)

def callFrame (f : FunctionDef L) (args : A) : Host L A D V X (Answer D V) := do
  onMarks Marks.pushOwners
  match ← quietly (p.bindParams (.call f args)) with
  | .error e =>
    onMarks Marks.popOwners
    onMarks Marks.exitCall
    pure (.error e)
  | .ok bound =>
    match ← quietly (p.applyScope (.call f args) bound) with
    | .error e =>
      onMarks Marks.popOwners
      onMarks Marks.exitCall
      pure (.error e)
    | .ok checkpoint => callBody p f args checkpoint

/-- `call_user_function_inner`. -/
def callUserFunction (f : FunctionDef L) (args : A) : Host L A D V X (Answer D V) :=
  framed p do
    if ← quietly (Strategy.read (p.trivial f args)) then callTrivial p f args
    else callFrame p f args

/-- `call_lambda_inner`: no scope of capture cells. -/
def callLambda (f : LambdaDef L) (args : A) : Host L A D V X (Answer D V) :=
  framed p do
    match ← quietly (p.bindParams (.lambda f args)) with
    | .error e =>
      onMarks Marks.exitCall
      pure (.error e)
    | .ok bound =>
      match ← quietly (p.applyScope (.lambda f args) bound) with
      | .error e =>
        onMarks Marks.exitCall
        pure (.error e)
      | .ok checkpoint =>
        onMarks (Marks.pushSource f.source)
        onMarks (Marks.pushQualname (f.qualname++".<locals>"))
        let r ← quietly (p.body (.lambda f args))
        onMarks Marks.popSource
        onMarks Marks.popQualname
        quietly (p.restore (.lambda f args) checkpoint)
        onMarks Marks.exitCall
        pure r

def definingClass (f : FunctionDef L) : String :=
  String.ofList (f.name.toList.takeWhile fun c => c≠ '.')

/-- The frame for `super()`, for an instance or a class. -/
def pushMethodFrame (f : FunctionDef L) (self : V) : Host L A D V X Unit :=
  if p.isReceiver self then onMarks (Marks.pushMethod ⟨definingClass f,self,f.firstParam⟩)
  else pure ()

def popMethodFrame (self : V) : Host L A D V X Unit :=
  if p.isReceiver self then onMarks Marks.popMethod else pure ()

/-- `call_method_inner`. -/
def callMethod (f : FunctionDef L) (self : V) (args : A) : Host L A D V X (Answer D V) :=
  framed p do
    onMarks Marks.pushOwners
    pushMethodFrame p f self
    match ← quietly (p.bindParams (.method f self args)) with
    | .error e =>
      popMethodFrame p self
      onMarks Marks.popOwners
      onMarks Marks.exitCall
      pure (.error e)
    | .ok bound =>
      match ← quietly (p.applyScope (.method f self args) bound) with
      | .error e =>
        popMethodFrame p self
        onMarks Marks.popOwners
        onMarks Marks.exitCall
        pure (.error e)
      | .ok checkpoint =>
        let r ← quietly (p.body (.method f self args))
        quietly (p.restore (.method f self args) checkpoint)
        popMethodFrame p self
        onMarks Marks.popOwners
        onMarks Marks.exitCall
        pure (returned r)

/-- `step_generator`: neither `enter_call` nor a scope of capture cells. -/
def stepGenerator (id : Nat) (sent : V) : Host L A D V X (Answer D V) := do
  match ← quietly (p.openFrame id sent) with
  | .error answer => pure answer
  | .ok source =>
    onMarks (Marks.pushSource source)
    onMarks (Marks.pushGenerator id)
    let r ← readMarks fun r => (r.callDepth,r.activeGeneratorStack.length)
    noteEntry r.1 r.2
    let e ← quietly (p.generatorBody id)
    onMarks Marks.popGenerator
    onMarks Marks.popSource
    quietly (p.closeFrame id e)

def qualnameOf (name : String) (r : Marks V) : String :=
  match r.qualnameStack.head? with
  | some parent => parent++"."++name
  | none => name

/-- The qualified names around the body of a class statement. -/
def evalClassDef (l : L) (name : String) : Host L A D V X (Answer D V) := do
  match ← quietly (p.openClass l) with
  | .error e => pure (.error e)
  | .ok () =>
    let qualname ← readMarks (qualnameOf name)
    onMarks (Marks.pushQualname qualname)
    let r ← quietly (p.runClass l)
    onMarks Marks.popQualname
    match r with
    | .error e => pure (.error e)
    | .ok () => quietly (p.closeClass l)

/-- An evaluation between `enter_expr` and `exit_expr`. -/
def evalGuarded (l : L) : Host L A D V X (Answer D V) := do
  let r ← readMarks id
  if p.maxRecursionDepth ≤ r.exprDepth then pure (recursionError p)
  else do
    onMarks Marks.enterExpr
    let a ← quietly (p.arm l)
    onMarks Marks.exitExpr
    pure a

/-- A closure backs a name by a cell of the innermost scope. -/
def captureCell (name : String) (cell : Nat) : Host L A D V X (Answer D V) := do
  let r ← readMarks id
  if r.backs name cell then pure (.ok p.none)
  else do
    Strategy.emit (.captured r.frameCellOwners.length)
    onMarks (Marks.capture name cell)
    pure (.ok p.none)

def Program.armOf : Part L A V → Host L A D V X (Answer D V)
  | .call f args => callUserFunction p f args
  | .lambda f args => callLambda p f args
  | .method f self args => callMethod p f self args
  | .step id sent => stepGenerator p id sent
  | .classBody l name => evalClassDef p l name
  | .guarded l => evalGuarded p l
  | .plain l => quietly (p.arm l)
  | .capture name cell => captureCell p name cell

def Program.evaluator : Evaluator (Part L A V) (Answer D V) (State V X) Event where
  enter := fun _ s => (Option.none,s,[])
  arm := p.armOf

def Program.run (fuel : Nat) (q : Part L A V) : Recorded (State V X) Unit Event (Answer D V) :=
  p.evaluator.run fuel q

end Evaluation

end InterpretThis.Recursion
