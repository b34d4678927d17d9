import InterpretThis.Exceptions.Hierarchy

namespace InterpretThis.Exceptions

/-- An exception. `data` is what else it carries: arguments, cause, line and fields. -/
inductive ExceptionValue (D : Type) where
  | leaf (typeName message : String) (data : D)
  | group (typeName message : String) (data : D) (exceptions : List (ExceptionValue D))

/-- What exceptions carry besides their type and message. -/
structure Payload (D : Type) where
  ofMessage : String → D
  ofGroup : String → List (ExceptionValue D) → D
  hasContext : D → Bool
  sameArgs : D → D → Bool
  withContext : D → ExceptionValue D → D

namespace ExceptionValue

variable {D : Type}

def typeName : ExceptionValue D → String
  | leaf t _ _ => t
  | group t _ _ _ => t

def message : ExceptionValue D → String
  | leaf _ m _ => m
  | group _ m _ _ => m

def data : ExceptionValue D → D
  | leaf _ _ d => d
  | group _ _ d _ => d

def setData (d : D) : ExceptionValue D → ExceptionValue D
  | leaf t m _ => leaf t m d
  | group t m _ xs => group t m d xs

/-- `ExceptionValue::new`. -/
def new (P : Payload D) (typeName message : String) : ExceptionValue D :=
  leaf typeName message (P.ofMessage message)

/-- `ExceptionValue::group`. -/
def newGroup (P : Payload D) (typeName message : String) (xs : List (ExceptionValue D)) :
    ExceptionValue D :=
  group typeName message (P.ofGroup message xs) xs

/-- `set_implicit_context`: a context that is there stays, and a re-raise gets none. -/
def setImplicitContext (P : Payload D) (exc handled : ExceptionValue D) : ExceptionValue D :=
  let isReraise := exc.typeName=handled.typeName&&exc.message=handled.message&&
    P.sameArgs exc.data handled.data
  if !P.hasContext exc.data&& !isReraise then exc.setData (P.withContext exc.data handled) else exc

end ExceptionValue

section Errors

inductive InterpreterError where
  | syntaxError (m : String)
  | security (m : String)
  | runtime (m : String)
  | limitExceeded (m : String)
  | recursionLimitExceeded (limit : Nat)
  | tool (toolName message : String)
  | nameError (m : String)
  | typeError (m : String)
  | valueError (m : String)
  | attributeError (m : String)
  | assertionError (m : String)
  | pythonException (typeName message : String)
  | stateFormatSuperseded (found expected : Nat)
  deriving DecidableEq

/-- What stands before the last occurrence of a pattern. -/
def beforeLast (pattern : List Char) : List Char → Option (List Char)
  | [] => none
  | c::cs =>
    match beforeLast pattern cs with
    | some p => some (c::p)
    | none => if pattern.isPrefixOf (c::cs) then some [] else none

/-- Remove a trailing line marker. -/
def stripLineMarker (msg : String) : String :=
  match beforeLast " (at line ".toList msg.toList with
  | some p => if msg.toList.getLast?=some ')' then String.ofList p else msg
  | none => msg

def interpreterErrorToException {D : Type} (P : Payload D) : InterpreterError → ExceptionValue D
  | .typeError m => .new P "TypeError" (stripLineMarker m)
  | .valueError m => .new P "ValueError" (stripLineMarker m)
  | .nameError m => .new P "NameError" (stripLineMarker m)
  | .attributeError m => .new P "AttributeError" (stripLineMarker m)
  | .assertionError m => .new P "AssertionError" (stripLineMarker m)
  | .pythonException t m => .new P t (stripLineMarker m)
  | .runtime m => .new P "RuntimeError" (stripLineMarker m)
  | .recursionLimitExceeded _ => .new P "RecursionError" "maximum recursion depth exceeded"
  | .tool t m => .new P "Exception" ("ToolError in '"++t++"': "++stripLineMarker m)
  | .syntaxError m => .new P "Exception" (stripLineMarker ("SyntaxError: "++m))
  | .security m => .new P "Exception" (stripLineMarker ("SecurityError: "++m))
  | .limitExceeded m => .new P "Exception" (stripLineMarker ("LimitExceeded: "++m))
  | .stateFormatSuperseded found expected => .new P "Exception" (stripLineMarker
    ("interpreter state format superseded: found version "++toString found++", expected "++
      toString expected++"; host must restart from initial step"))

inductive ControlFlow (V : Type) where
  | brk
  | cont
  | ret (v : V)
  | yield (v : V)

inductive EvalError (D V : Type) where
  | interpreter (e : InterpreterError)
  | signal (s : ControlFlow V)
  | exception (x : ExceptionValue D)

end Errors

/-- The state of the interpreter, as far as `try` looks at it. The active exceptions stand with the
innermost one first. -/
structure State (D V W : Type) where
  bindings : String → Option V
  active : List (ExceptionValue D)
  world : W

abbrev Part (D V W : Type) : Type := State D V W → Except (EvalError D V) V×State D V W

/-- What `try` takes from the rest of the interpreter. -/
structure Interp (D V W : Type) where
  payload : Payload D
  none : V
  excValue : ExceptionValue D → V
  /-- The names of the types that a value stands for in an `except` clause. -/
  typeNames : V → List String
  classes : W → Registry
  /-- The accounts after a variable is set and after one is removed. -/
  charge : String → V → State D V W → W
  release : String → State D V W → W
  checkMemory : W → Option InterpreterError

structure Handler (D V W : Type) where
  type : Option (Part D V W)
  name : Option String
  body : Part D V W

structure TryStmt (D V W : Type) where
  body : Part D V W
  handlers : List (Handler D V W)
  orelse : Part D V W
  finalbody : Option (Part D V W)

section Try

variable {D V W : Type} (I : Interp D V W)

/-- The variable is bound before the limit is checked. -/
def setVariable (name : String) (v : V) (s : State D V W) :
    Except InterpreterError Unit×State D V W :=
  let t : State D V W := ⟨fun n => if n=name then some v else s.bindings n,s.active,I.charge name v s⟩
  match I.checkMemory t.world with
  | some e => (.error e,t)
  | none => (.ok (),t)

def deleteVariable (name : String) (s : State D V W) : State D V W :=
  ⟨fun n => if n=name then none else s.bindings n,s.active,I.release name s⟩

def bindName (name : Option String) (v : V) (s : State D V W) :
    Except InterpreterError Unit×State D V W :=
  match name with
  | some n => setVariable I n v s
  | none => (.ok (),s)

def unbindName (name : Option String) (s : State D V W) : State D V W :=
  match name with
  | some n => deleteVariable I n s
  | none => s

/-- `matches_handler`: a bare `except` catches everything. -/
def matchesHandler (h : Handler D V W) (exc : ExceptionValue D) (s : State D V W) :
    Except (EvalError D V) Bool×State D V W :=
  match h.type with
  | none => (.ok true,s)
  | some type =>
    match type s with
    | (.error e,s) => (.error e,s)
    | (.ok v,s) =>
      (.ok ((I.typeNames v).any ((I.classes s.world).matchesExceptionType exc.typeName)),s)

/-- Only exceptions are chained. -/
def chainContext (handled : ExceptionValue D) : EvalError D V → EvalError D V
  | .exception x => .exception (x.setImplicitContext I.payload handled)
  | e => e

/-- The exception gets the one that is being handled as its context when it is caught. -/
def caughtIn (exc : ExceptionValue D) (s : State D V W) : ExceptionValue D :=
  match s.active.head? with
  | some outer => exc.setImplicitContext I.payload outer
  | none => exc

/-- The body of a handler, with the exception on the stack. -/
def runBody (body : Part D V W) (exc : ExceptionValue D) (s : State D V W) :
    Except (EvalError D V) V×State D V W :=
  let (r,t) := body {s with active := exc::s.active}
  (r,{t with active := t.active.tail})

/-- A matching handler. The inner result is that of its body. -/
def enterHandler (h : Handler D V W) (exc : ExceptionValue D) (s : State D V W) :
    Except (EvalError D V) (Except (EvalError D V) V)×State D V W :=
  let exc := caughtIn I exc s
  match bindName I h.name (I.excValue exc) s with
  | (.error e,s) => (.error (.interpreter e),s)
  | (.ok (),s) =>
    let (r,s) := runBody h.body exc s
    (.ok (r.mapError (chainContext I exc)),unbindName I h.name s)

/-- The first handler that matches. -/
def tryMatchHandlers (exc : ExceptionValue D) : List (Handler D V W) → State D V W →
    Except (EvalError D V) (Option (Except (EvalError D V) V))×State D V W
  | [],s => (.ok none,s)
  | h::hs,s =>
    match matchesHandler I h exc s with
    | (.error e,s) => (.error e,s)
    | (.ok false,s) => tryMatchHandlers exc hs s
    | (.ok true,s) =>
      match enterHandler I h exc s with
      | (.error e,s) => (.error e,s)
      | (.ok r,s) => (.ok (some r),s)

/-- `finally`, and what was pending when it does not raise. -/
def finish (finalbody : Option (Part D V W)) (pending : Except (EvalError D V) V)
    (s : State D V W) : Except (EvalError D V) V×State D V W :=
  match finalbody with
  | none => (pending,s)
  | some f =>
    match f s with
    | (.ok _,s) => (pending,s)
    | (.error e,s) => (.error e,s)

/-- What follows the search for a handler. An error of the search itself leaves the statement. -/
def afterHandlers (finalbody : Option (Part D V W)) (original : EvalError D V) :
    Except (EvalError D V) (Option (Except (EvalError D V) V))×State D V W →
    Except (EvalError D V) V×State D V W
  | (.error e,s) => (.error e,s)
  | (.ok none,s) => finish finalbody (.error original) s
  | (.ok (some r),s) => finish finalbody r s

/-- `try` and `try … except*` differ in their handlers only. -/
def evalTryWith (search : ExceptionValue D → State D V W →
    Except (EvalError D V) (Option (Except (EvalError D V) V))×State D V W)
    (st : TryStmt D V W) (s : State D V W) : Except (EvalError D V) V×State D V W :=
  match st.body s with
  | (.ok _,s) =>
    let (r,s) := st.orelse s
    finish st.finalbody r s
  | (.error (.signal (.yield v)),s) => (.error (.signal (.yield v)),s)
  | (.error (.signal sig),s) => finish st.finalbody (.error (.signal sig)) s
  | (.error (.exception x),s) => afterHandlers st.finalbody (.exception x) (search x s)
  | (.error (.interpreter e),s) => afterHandlers st.finalbody (.interpreter e)
    (search (interpreterErrorToException I.payload e) s)

def evalTry (st : TryStmt D V W) : Part D V W :=
  evalTryWith I (fun x => tryMatchHandlers I x st.handlers) st

end Try

section Star

variable {D V W : Type} (I : Interp D V W)

/-- Which of the exceptions a handler of `except*` matches. -/
def splitMatched (h : Handler D V W) : List (ExceptionValue D) → State D V W →
    Except (EvalError D V) (List (ExceptionValue D)×List (ExceptionValue D))×State D V W
  | [],s => (.ok ([],[]),s)
  | x::xs,s =>
    match matchesHandler I h x s with
    | (.error e,s) => (.error e,s)
    | (.ok b,s) =>
      match splitMatched h xs s with
      | (.error e,s) => (.error e,s)
      | (.ok (matched,unmatched),s) =>
        (.ok (if b then (x::matched,unmatched) else (matched,x::unmatched)),s)

/-- A handler of `except*`. Its name is removed when its body succeeds. -/
def enterStarHandler (h : Handler D V W) (group : ExceptionValue D) (s : State D V W) :
    Except (EvalError D V) (Except (EvalError D V) V)×State D V W :=
  match bindName I h.name (I.excValue group) s with
  | (.error e,s) => (.error (.interpreter e),s)
  | (.ok (),s) =>
    match runBody h.body group s with
    | (.ok v,s) => (.ok (.ok v),unbindName I h.name s)
    | (.error e,s) => (.ok (.error (chainContext I group e)),s)

/-- What is re-raised of the exceptions that no handler matched: one of them as it is, unless it is a
group. -/
def reraise (message : String) : List (ExceptionValue D) → ExceptionValue D
  | [.leaf t m d] => .leaf t m d
  | remaining => .newGroup I.payload "ExceptionGroup" message remaining

def starEnd (message : String) (remaining : List (ExceptionValue D)) (anyMatched : Bool) (last : V) :
    Option (Except (EvalError D V) V) :=
  if !remaining.isEmpty then some (.error (.exception (reraise I message remaining)))
  else if anyMatched then some (.ok last)
  else none

/-- The handlers of `except*`, one after the other. -/
def starRounds (message : String) : List (Handler D V W) → List (ExceptionValue D) → Bool → V →
    State D V W → Except (EvalError D V) (Option (Except (EvalError D V) V))×State D V W
  | [],remaining,anyMatched,last,s => (.ok (starEnd I message remaining anyMatched last),s)
  | h::hs,remaining,anyMatched,last,s =>
    if remaining.isEmpty then (.ok (starEnd I message remaining anyMatched last),s)
    else match splitMatched I h remaining s with
    | (.error e,s) => (.error e,s)
    | (.ok (matched,unmatched),s) =>
      if matched.isEmpty then starRounds message hs unmatched anyMatched last s
      else match enterStarHandler I h (.newGroup I.payload "ExceptionGroup" message matched) s with
      | (.error e,s) => (.error e,s)
      | (.ok (.ok v),s) => starRounds message hs unmatched true v s
      | (.ok (.error e),s) => (.ok (some (.error e)),s)

/-- The members of a group, or the exception itself. -/
def members : ExceptionValue D → List (ExceptionValue D)
  | .group _ _ _ xs => xs
  | x => [x]

def tryMatchStarHandlers (exc : ExceptionValue D) (hs : List (Handler D V W)) (s : State D V W) :
    Except (EvalError D V) (Option (Except (EvalError D V) V))×State D V W :=
  starRounds I exc.message hs (members exc) false I.none s

def evalTryStar (st : TryStmt D V W) : Part D V W :=
  evalTryWith I (fun x => tryMatchStarHandlers I x st.handlers) st

end Star

end InterpretThis.Exceptions
