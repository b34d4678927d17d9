import InterpretThis.Operators.Dispatch
import InterpretThis.State.Import

namespace InterpretThis.Numeric

open Operators

inductive Constant where
  | none
  | ellipsis
  | bool (b : Bool)
  | int (i : Int)
  | float (f : F64)
  | str (s : String)
  | bytes (b : List UInt8)
  | tuple (items : List Constant)
  | complex (real imag : F64)

/-- `ast::CmpOp`. -/
inductive Comparison where
  | rich (op : CmpOp)
  | is
  | isNot
  | in
  | notIn

/-- An expression; `other` stands for the kinds besides these four. -/
inductive Expr (L : Type) where
  | constant (value : Constant)
  | name (id : String)
  | binOp (left : Expr L) (op : Operator) (right : Expr L)
  | compare (left : Expr L) (ops : List Comparison) (comparators : List (Expr L))
  | other (l : L)

inductive Failure where
  | recursionLimitExceeded (limit : Nat)
  | raised (e : EvalError)
deriving DecidableEq

structure Config where
  maxRecursionDepth : Nat
  maxOperations : Nat
  maxIntBits : Nat

structure State (W : Type) where
  bindings : String → Option Value
  operationsCount : Nat
  exprDepth : Nat
  decimalPrec : Int
  world : W

/-- What an evaluation does: a constant or a variable that is read, a call of a user's method. -/
inductive Event (L M : Type) where
  | read (e : Expr L)
  | called (c : Call M Value)

def isSyncNumeric : Value → Bool
  | .bool _ => true
  | .int _ => true
  | .bigInt _ => true
  | .float _ => true
  | _ => false

/-- What arithmetic on numbers can give: a power may be complex. -/
def isNumber (v : Value) : Bool :=
  match v with
  | .complex _ _ => true
  | v => isSyncNumeric v

section Constants

mutual

def evalConstant : Constant → Value
  | .none => .none
  | .ellipsis => .ellipsis
  | .bool b => .bool b
  | .int i => intFromBigint i
  | .float f => .float f
  | .str s => .string s
  | .bytes b => .bytes b
  | .tuple items => .tuple (evalConstants items)
  | .complex real imag => .complex real imag

def evalConstants : List Constant → List Value
  | [] => []
  | c::cs => evalConstant c::evalConstants cs

end

end Constants

/-- What the two evaluators take from the rest of the interpreter. Numbers are no instances of a
user's class, and neither the members of flags nor the printf formats are among them. -/
structure Host (C M L W : Type) extends Machine C M Value (State W) Failure where
  config : Config
  powf : Int → Int → F64
  /-- The results of `apply_binop` that are not those of the integer kernels. -/
  rest : Int → Operator → Value → Value → Except EvalError Value
  rest_number : ∀{p op l r v}, isNumber l → isNumber r → rest p op l r=.ok v → isNumber v
  applyBinop_eq : ∀op l r s, toMachine.applyBinop op l r s=
    (InterpretThis.applyBinop powf (rest s.decimalPrec) config.maxIntBits op l r).mapError .raised
  instanceClass_number : ∀{v}, isNumber v → toMachine.instanceClass v=none
  early_number : ∀{op l r}, isNumber l → toMachine.early op l r=none
  namedtupleItems_number : ∀{v s}, isNumber v → toMachine.namedtupleItems v s=none
  compareNumbers : CmpOp → Value → Value → Except Failure Bool
  compareBuiltin_number : ∀{op l r s}, isNumber l → isNumber r →
    toMachine.compareBuiltin op l r s=compareNumbers op l r
  valuesIs : Value → Value → Bool
  contains : Value → Value → Recorded (State W) Failure (Event L M) Bool
  resolveProxy : Recorded (State W) Failure (Event L M) Value
  /-- The memory and the time, looked at after every hundredth operation. -/
  overdue : Nat → W → Option String
  /-- What `eval_name` finds for a name that is no variable. -/
  predefined : String → W → Except Failure Value
  /-- How often `compare` may call itself for `total_ordering`. -/
  fuel : Nat
  evalOther : L → Recorded (State W) Failure (Event L M) Value

section Metering

variable {C M L W : Type} (x : Host C M L W)

def limitExceeded (message : String) : Failure := .raised (.interpreter (.limitExceeded message))

def Host.recursionError : Failure := .recursionLimitExceeded x.config.maxRecursionDepth

def Host.operationsError : Failure :=
  limitExceeded ("exceeded maximum of "++toString x.config.maxOperations++" operations")

/-- What `increment_ops` answers once the count is `n`. -/
def Host.checkOps (n : Nat) (w : W) : Except Failure Unit :=
  if x.config.maxOperations≤n then .error x.operationsError
  else if n%100=0 then
    match x.overdue n w with
    | some message => .error (limitExceeded message)
    | none => .ok ()
  else .ok ()

def Host.incrementOps (s : State W) : Except Failure Unit×State W :=
  (x.checkOps (s.operationsCount+1) s.world,{s with operationsCount := s.operationsCount+1})

/-- `increment_ops`, `n` times or up to its first error. -/
def Host.incrementMany : Nat → State W → Except Failure Unit×State W
  | 0,s => (.ok (),s)
  | n+1,s =>
    match x.incrementOps s with
    | (.error e,t) => (.error e,t)
    | (.ok _,t) => incrementMany n t

end Metering

section Sync

/-- The result of the synchronous evaluator with the operations to count. `read` is for the
record only. -/
structure NumericSync (L : Type) where
  result : Except Failure Value
  count : Nat
  read : List (Expr L)

/-- An operand after those that read `seen`; its error ends the evaluation with its own count. -/
def operand {L : Type} (seen : List (Expr L)) (o : Option (NumericSync L))
    (k : Value → Nat → List (Expr L) → Option (NumericSync L)) : Option (NumericSync L) :=
  match o with
  | none => none
  | some ⟨.error e,count,read⟩ => some ⟨.error e,count,seen++read⟩
  | some ⟨.ok v,count,read⟩ => k v count (seen++read)

def leaf {L : Type} (e : Expr L) (v : Value) : Option (NumericSync L) :=
  if isSyncNumeric v then some ⟨.ok v,1,[e]⟩ else none

def Comparison.isMembership : Comparison → Bool
  | .in => true
  | .notIn => true
  | _ => false

variable {C M L W : Type} (x : Host C M L W)

def Host.guarded (depth : Nat) (o : Option (NumericSync L)) : Option (NumericSync L) :=
  if x.config.maxRecursionDepth≤depth then some ⟨.error x.recursionError,1,[]⟩ else o

/-- One link of a chain. A chain with a membership test does not come here. -/
def Host.compareSync (s : State W) (op : Comparison) (l r : Value) : Except Failure Bool :=
  match op with
  | .is => .ok (x.valuesIs l r)
  | .isNot => .ok (!x.valuesIs l r)
  | .rich op => x.compareBuiltin op l r s
  | .in => .ok false
  | .notIn => .ok false

mutual

def Host.evalNumericUnmetered (s : State W) : Expr L → Nat → Option (NumericSync L)
  | .constant c,depth => x.guarded depth (leaf (.constant c) (evalConstant c))
  | .name id,depth => x.guarded depth ((s.bindings id).bind (leaf (.name id)))
  | .binOp l op r,depth => x.guarded depth
    (operand [] (evalNumericUnmetered s l (depth+1)) fun a m seen =>
      operand seen (evalNumericUnmetered s r (depth+1)) fun b n seen =>
        some ⟨x.applyBinop op a b s,m+n+1,seen⟩)
  | .compare l ops cs,depth => x.guarded depth
    (if ops.any Comparison.isMembership then none
      else operand [] (evalNumericUnmetered s l (depth+1)) fun a m seen =>
        evalNumericCompare s cs (depth+1) ops a m seen)
  | .other _,depth => x.guarded depth none

/-- The loop of `eval_numeric_compare_unmetered`. -/
def Host.evalNumericCompare (s : State W) : List (Expr L) → Nat → List Comparison → Value → Nat →
    List (Expr L) → Option (NumericSync L)
  | c::cs,depth,op::ops,left,count,seen =>
    operand seen (evalNumericUnmetered s c depth) fun right n seen =>
      match x.compareSync s op left right with
      | .ok true => evalNumericCompare s cs depth ops right (count+n+1) seen
      | .ok false => some ⟨.ok (.bool false),count+n+1,seen⟩
      | .error e => some ⟨.error e,count+n+1,seen⟩
  | _,_,_,_,count,seen => some ⟨.ok (.bool true),count,seen⟩

end

/-- The operations of an outcome are counted once it is known. -/
def Host.metered (o : NumericSync L) (s : State W) :
    Except Failure Value×State W×List (Event L M) :=
  match x.incrementMany o.count s with
  | (.error err,t) => (.error err,t,o.read.map .read)
  | (.ok _,t) => (o.result,t,o.read.map .read)

def Host.tryEvalNumericExprSync (e : Expr L) (s : State W) :
    Option (Except Failure Value)×State W×List (Event L M) :=
  match x.evalNumericUnmetered s e 0 with
  | none => (none,s,[])
  | some o => (some (x.metered o s).1,(x.metered o s).2.1,(x.metered o s).2.2)

end Sync

section Async

variable {C M L W : Type} [DecidableEq C] [DecidableEq Value] (x : Host C M L W)

abbrev Eval (L M W A : Type) : Type := Recorded (State W) Failure (Event L M) A

def Host.increment : Eval L M W Unit := Recorded.lift x.incrementOps

def accessError (id : String) : Failure :=
  .raised (.interpreter (.security ("access to '"++id++"' is not allowed")))

def Host.evalName (id : String) (s : State W) : Except Failure Value :=
  if dangerousNames.contains id then .error (accessError id)
  else match s.bindings id with
    | some v => .ok v
    | none => x.predefined id s.world

/-- A constant or a name: counted, then read. -/
def Host.readLeaf (e : Expr L) (f : State W → Except Failure Value) : Eval L M W Value := do
  x.increment
  fun s => (f s,s,[.read e])

/-- `try_eval_expr_sync`, then `slow` where it declines. -/
def Host.syncFirst (e : Expr L) (slow : Eval L M W Value) : Eval L M W Value :=
  match e with
  | .constant c => x.readLeaf e fun _ => .ok (evalConstant c)
  | .name id => x.readLeaf e (x.evalName id)
  | .other _ => slow
  | _ => fun s =>
    match x.tryEvalNumericExprSync e s with
    | (some r,t,log) => (r,t,log)
    | (none,t,_) => slow t

/-- `resolve_proxy`. -/
def Host.resolved : Value → Eval L M W Value
  | .lazyProxy => x.resolveProxy
  | v => pure v

/-- `enter_expr` and `exit_expr` around an evaluation. -/
def Host.nested {A : Type} (m : Eval L M W A) : Eval L M W A := fun s =>
  if x.config.maxRecursionDepth ≤ s.exprDepth then (.error x.recursionError,s,[])
  else
    let out := m {s with exprDepth := s.exprDepth+1}
    (out.1,{out.2.1 with exprDepth := out.2.1.exprDepth-1},out.2.2)

/-- The end of `eval_binop_inner`, on resolved operands. -/
def Host.binopValues (op : Operator) (l r : Value) : Eval L M W Value :=
  match l,r,op with
  | .int a,.int b,.add => pure (fastOp (·+·) a b)
  | .int a,.int b,.sub => pure (fastOp (·-·) a b)
  | .int a,.int b,.mult => pure (fastOp (·*·) a b)
  | _,_,_ => Recorded.relabel .called (x.binop op l r)

def Host.evalBinopWith (left right : Eval L M W Value) (op : Operator) : Eval L M W Value :=
  x.nested do
    let l ← left
    let l ← x.resolved l
    let r ← right
    let r ← x.resolved r
    x.binopValues op l r

/-- One link of a chain in `eval_compare`. -/
def Host.compareValues (op : Comparison) (l r : Value) : Eval L M W Bool :=
  match op with
  | .in => x.contains r l
  | .notIn => do return !(← x.contains r l)
  | .is => pure (x.valuesIs l r)
  | .isNot => pure (!x.valuesIs l r)
  | .rich op => Recorded.relabel .called (x.compare (x.fuel+1) op l r)

def Host.evalCompareWith (left : Eval L M W Value) (chain : Value → Eval L M W Value) :
    Eval L M W Value := do
  let v ← left
  let v ← x.resolved v
  chain v

mutual

def Host.evalExpr : Expr L → Eval L M W Value
  | .constant c => x.readLeaf (.constant c) fun _ => .ok (evalConstant c)
  | .name id => x.readLeaf (.name id) (x.evalName id)
  | .binOp l op r => x.syncFirst (.binOp l op r) do
    x.increment
    x.evalBinopWith (x.syncFirst l (evalExpr l)) (x.syncFirst r (evalExpr r)) op
  | .compare l ops cs => x.syncFirst (.compare l ops cs) do
    x.increment
    x.evalCompareWith (x.syncFirst l (evalExpr l)) (evalComparators cs ops)
  | .other l => do
    x.increment
    x.evalOther l

/-- The loop of `eval_compare`. -/
def Host.evalComparators : List (Expr L) → List Comparison → Value → Eval L M W Value
  | c::cs,op::ops,left => do
    let right ← x.syncFirst c (evalExpr c)
    let right ← x.resolved right
    if ← x.compareValues op left right then evalComparators cs ops right
    else pure (.bool false)
  | _,_,_ => pure (.bool true)

end

def Host.evalBinop (l : Expr L) (op : Operator) (r : Expr L) : Eval L M W Value :=
  x.evalBinopWith (x.syncFirst l (x.evalExpr l)) (x.syncFirst r (x.evalExpr r)) op

def Host.evalCompare (l : Expr L) (ops : List Comparison) (cs : List (Expr L)) :
    Eval L M W Value :=
  x.evalCompareWith (x.syncFirst l (x.evalExpr l)) (x.evalComparators cs ops)

end Async

end InterpretThis.Numeric
