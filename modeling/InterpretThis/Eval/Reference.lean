import InterpretThis.Ast.Binding
import InterpretThis.Eval.Entry
import InterpretThis.Framework.Refinement

namespace InterpretThis.Eval

open Ast

variable {V : Type} (cfg : Config V)

namespace Scope

/-- The cell that the frame at a depth of `frame_cell_owners` owns for a name. -/
def ownerAt (σ : Scope V) (k : Nat) (n : String) : Option Nat := (σ.owners[k]?).bind (fun o => o n)

/-- Register a cell with the frame on top. -/
def own (σ : Scope V) (n : String) (id : Nat) : Scope V :=
  match σ.owners with
  | o::rest => {σ with owners := Function.update o n (some id)::rest}
  | [] => σ

def addCell (σ : Scope V) (n : String) (v : V) : Scope V :=
  {(σ.cellInsert σ.nextCell n v).own n σ.nextCell with nextCell := σ.nextCell+1}

/-- A name that is bound and has no cell yet gets one. -/
def ensureCaptureCell (σ : Scope V) (n : String) : Scope V :=
  match σ.owners,σ.vars n,σ.owner n with
  | _::_,some v,none => σ.addCell n v
  | _,_,_ => σ

/-- `ensure_capture_cells`. -/
def ensureCaptureCells (free : List String) (σ : Scope V) : Scope V :=
  free.foldl ensureCaptureCell σ

/-- The cell of a def's `nonlocal` names: the first one they have, else a new one. -/
def nonlocalCell (σ : Scope V) (names : List String) : Nat :=
  (names.findSome? σ.owner).getD σ.nextCell

/-- Give the cell an entry for each bound name that has none there. -/
def seedCell (σ : Scope V) (id : Nat) (names : List String) : Scope V :=
  {σ with cells := Function.update σ.cells id (some (Cell.insertAll
    (fun n => if (σ.cellGet id n).isSome then none else σ.vars n) names ((σ.cells id).getD [])))}

/-- `resolve_closure_cells`. -/
def resolveClosureCells (names : List String) (σ : Scope V) : Scope V :=
  if names.isEmpty then σ
  else
    let id := σ.nonlocalCell names
    let τ := names.foldl (fun τ n => τ.own n id) (σ.seedCell id names)
    {τ with nextCell := if (names.findSome? σ.owner).isSome then σ.nextCell else σ.nextCell+1}

/-- The cell of a nested function's own name, which reads as `None` until the name is bound. -/
def selfCell (none : V) (σ : Scope V) (n : String) : Scope V :=
  match σ.owner n with
  | some id => if (σ.cellGet id n).isSome then σ else σ.cellInsert id n none
  | _ => σ.addCell n none

def mirror (σ : Scope V) (n : String) (v : V) : Scope V := (σ.writeThrough n v).put n (some v)

end Scope

open Scope

/-- What runs on the shared variables: the module, calls with a checkpoint of their own, and
blocks that put names back but own no cells: lambda calls, comprehensions and class bodies. A class
body puts every variable back: its names are all those of the program. -/
inductive Frame (V : Type) where
  | module
  | function (f : FunctionScope V) (names : List String) (before : Scope V)
  | block (names : List String) (before : Scope V)

namespace Frame

def isFunction : Frame V → Bool
  | block _ _ => false
  | _ => true

/-- The names of the checkpoint. -/
def names : Frame V → List String
  | module => []
  | function _ ns _ => ns
  | block ns _ => ns

def before : Frame V → String → Option V
  | module => fun _ => none
  | function _ _ σ => σ.vars
  | block _ σ => σ.vars

/-- The function writes the name back to the cell when it returns. -/
def Writes (n : String) (id : Nat) : Frame V → Prop
  | function f _ _ => f.cellId=some id ∧ n∈f.nonlocalNames
  | _ => False

end Frame

/-- The interpreter state as far as cells go. `captured` holds, frame by frame as
`frame_cell_owners`, the cells that the closures made in it refer to. -/
structure Machine (V : Type) where
  scope : Scope V
  frames : List (Frame V)
  captured : List (List (String → Option Nat))

inductive Step (V : Type) where
  -- assignments, loop variables and every other binding through `set_variable`
  | assign (n : String) (v : V)
  | mirror (n : String) (v : V)
  | delete (n : String)
  -- the parts of a `def` and of a lambda expression
  | capture (free : List String)
  | resolve (nonlocals : List String)
  | close (names : List String)
  | define (n : String) (v : V) (selfRecursive : Bool)
  | enter (f : FunctionScope V) (locals : List (String×V))
  | enterLambda (f : LambdaScope V) (locals : List (String×V))
  | enterBlock (names : List String)
  | leave

namespace Machine

/-- `execute` pushes a base frame for the module. -/
def start : Machine V := ⟨Scope.empty.pushOwners,[.module],[[]]⟩

def enter (M : Machine V) (f : FunctionScope V) (locals : List (String×V)) : Machine V :=
  let σ := M.scope
  if isTrivial locals f then ⟨σ.pushOwners,.function f [] σ::M.frames,[]::M.captured⟩
  else
    let entry := applyFunctionScope cfg locals f σ.pushOwners
    if entry.2 then ⟨entry.1,.function f (touched cfg f σ) σ::M.frames,[]::M.captured⟩
    else {M with scope := (restore (touched cfg f σ) σ entry.1).popOwners}

def enterLambda (M : Machine V) (f : LambdaScope V) (locals : List (String×V)) : Machine V :=
  let entry := applyLambdaScope cfg locals f M.scope
  if entry.2 then {M with
    scope := entry.1
    frames := .block (lambdaTouched cfg f M.scope) M.scope::M.frames}
  else {M with scope := restore (lambdaTouched cfg f M.scope) M.scope entry.1}

/-- The end of a call or block, whatever its outcome. -/
def leave (M : Machine V) : Machine V :=
  match M.frames with
  | .function f names σ::rest =>
    ⟨(restore names σ (writebackNonlocalCell f M.scope)).popOwners,rest,M.captured.tail⟩
  | .block names σ::rest => {M with scope := restore names σ M.scope, frames := rest}
  | _ => M

def step (none : V) (M : Machine V) : Step V → Machine V
  | .assign n v => {M with scope := (M.scope.setVariable cfg n v).1}
  | .mirror n v => {M with scope := M.scope.mirror n v}
  | .delete n => {M with scope := M.scope.deleteVariable cfg n}
  | .capture free => {M with scope := M.scope.ensureCaptureCells free}
  | .resolve nonlocals => {M with scope := M.scope.resolveClosureCells nonlocals}
  | .close names =>
    match M.captured with
    | top::rest => {M with
        captured := ((fun n => if n∈names then M.scope.owner n else Option.none)::top)::rest}
    | [] => M
  | .define n v selfRecursive =>
    let σ := if selfRecursive then M.scope.selfCell none n else M.scope
    {M with scope := (σ.setVariable cfg n v).1}
  | .enter f locals => M.enter cfg f locals
  | .enterLambda f locals => M.enterLambda cfg f locals
  | .enterBlock names => {M with frames := .block names M.scope::M.frames}
  | .leave => M.leave

end Machine

end InterpretThis.Eval
