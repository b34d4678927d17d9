import InterpretThis.Framework.Recorded
import InterpretThis.Value.Arith

namespace InterpretThis.Operators

/-- `ast::CmpOp` without identity and membership. -/
inductive CmpOp where
  | eq
  | notEq
  | lt
  | ltE
  | gt
  | gtE
deriving DecidableEq

def CmpOp.isOrdering : CmpOp → Bool
  | .eq => false
  | .notEq => false
  | _ => true

def arithSlot : Operator → String
  | .add => "__add__"
  | .sub => "__sub__"
  | .mult => "__mul__"
  | .div => "__truediv__"
  | .floorDiv => "__floordiv__"
  | .mod => "__mod__"
  | .pow => "__pow__"
  | .matMult => "__matmul__"
  | .lShift => "__lshift__"
  | .rShift => "__rshift__"
  | .bitOr => "__or__"
  | .bitXor => "__xor__"
  | .bitAnd => "__and__"

def reflectedArithSlot : Operator → String
  | .add => "__radd__"
  | .sub => "__rsub__"
  | .mult => "__rmul__"
  | .div => "__rtruediv__"
  | .floorDiv => "__rfloordiv__"
  | .mod => "__rmod__"
  | .pow => "__rpow__"
  | .matMult => "__rmatmul__"
  | .lShift => "__rlshift__"
  | .rShift => "__rrshift__"
  | .bitOr => "__ror__"
  | .bitXor => "__rxor__"
  | .bitAnd => "__rand__"

def forwardCompareSlot : CmpOp → String
  | .eq => "__eq__"
  | .notEq => "__eq__"
  | .lt => "__lt__"
  | .ltE => "__le__"
  | .gt => "__gt__"
  | .gtE => "__ge__"

def reflectedCompareSlot : CmpOp → String
  | .eq => "__eq__"
  | .notEq => "__eq__"
  | .lt => "__gt__"
  | .ltE => "__ge__"
  | .gt => "__lt__"
  | .gtE => "__le__"

/-- A field of a dataclass. -/
structure Field where
  name : String
  compare : Bool

/-- A call of a user's operator method. -/
structure Call (M V : Type) where
  slot : String
  method : M
  receiver : V
  arg : V
deriving DecidableEq

/-- What the operators rely on: the class registry, the user's methods and the builtin kernels. -/
structure Machine (C M V S E : Type) where
  /-- The class of a `Value::Instance`. -/
  instanceClass : V → Option C
  lookup : C → String → Option M
  callMethod : M → V → V → S → Except E V×S
  notImplemented : V
  isTruthy : V → Bool
  /-- Two flags of one class, and printf formatting with an instance among its arguments. -/
  early : Operator → V → V → Option (S → Except E V×S)
  namedtupleItems : V → S → Option V
  applyBinop : Operator → V → V → S → Except E V
  order : C → Bool
  dataclassFields : C → Option (List Field)
  totalOrdering : C → Bool
  ownMethod : C → String → Bool
  fieldOf : V → String → S → Option V
  valuesEqual : V → V → S → Bool
  dispatchLt : V → V → S → Except E Bool
  compareBuiltin : CmpOp → V → V → S → Except E Bool
  unorderable : CmpOp → V → V → E
  stackExhausted : E

section Code

variable {C M V S E : Type} [DecidableEq C] [DecidableEq V] (x : Machine C M V S E)

def Machine.instanceSlot (v : V) (slot : String) : Option M :=
  (x.instanceClass v).bind fun c => x.lookup c slot

/-- A call of a method; `NotImplemented` declines. -/
def Machine.ask (c : Call M V) (s : S) : Except E (Option V)×S :=
  match x.callMethod c.method c.receiver c.arg s with
  | (.error e,s') => (.error e,s')
  | (.ok v,s') => (.ok (if v=x.notImplemented then none else some v),s')

def Machine.askCall (c : Call M V) : Recorded S E (Call M V) (Option V) :=
  fun s => ((x.ask c s).1,(x.ask c s).2,[c])

/-- `instance_slot` and `invoke_slot`. -/
def Machine.askSlot (slot : String) (receiver arg : V) : Recorded S E (Call M V) (Option V) :=
  match x.instanceSlot receiver slot with
  | none => pure none
  | some m => x.askCall ⟨slot,m,receiver,arg⟩

def Machine.sameClass (l r : V) : Bool :=
  match x.instanceClass l,x.instanceClass r with
  | some c,some d => c=d
  | _,_ => false

/-- The builtin kernel: a namedtuple concatenates and repeats as its tuple. -/
def Machine.applyKernel (op : Operator) (l r : V) (s : S) : Except E V×S :=
  if op=.add ∨ op=.mult then
    (x.applyBinop op ((x.namedtupleItems l s).getD l) ((x.namedtupleItems r s).getD r) s,s)
  else (x.applyBinop op l r s,s)

def Machine.binop (op : Operator) (l r : V) : Recorded S E (Call M V) V :=
  match x.early op l r with
  | some f => Recorded.lift f
  | none => do
    match ← x.askSlot (arithSlot op) l r with
    | some v => pure v
    | none =>
      match ← (if x.sameClass l r then pure none else x.askSlot (reflectedArithSlot op) r l) with
      | some v => pure v
      | none => Recorded.lift (x.applyKernel op l r)

/-- Whether the first fields that differ are in order; `none` when none differ. -/
def Machine.lexLess (s : S) : List V → List V → Except E (Option Bool)
  | a::as,b::bs =>
    if x.valuesEqual a b s then lexLess s as bs
    else match x.dispatchLt a b s with
      | .ok less => .ok (some less)
      | .error e => .error e
  | _,_ => .ok none

def orderResult (op : CmpOp) (less equal : Bool) : Bool :=
  match op with
  | .eq => equal
  | .notEq => !equal
  | .lt => less&&!equal
  | .ltE => less||equal
  | .gt => !less&&!equal
  | .gtE => !less||equal

def Machine.fieldKey (fields : List Field) (v : V) (s : S) : List V :=
  (fields.filter Field.compare).filterMap fun f => x.fieldOf v f.name s

/-- `@dataclass(order=True)` instances of one class compare by their fields. -/
def Machine.dataclassOrderCompare (op : CmpOp) (l r : V) (s : S) : Option (Except E Bool) :=
  match x.instanceClass l,x.instanceClass r with
  | some c,some d =>
    if c≠d ∨ x.order c=false then none
    else (x.dataclassFields c).map fun fields =>
      let as := x.fieldKey fields l s
      let bs := x.fieldKey fields r s
      match x.lexLess s as bs with
      | .error e => .error e
      | .ok (some less) => .ok (orderResult op less false)
      | .ok none => .ok (orderResult op (as.length<bs.length) (as.length=bs.length))
  | _,_ => none

/-- The ordering method a `total_ordering` class defines itself. -/
def Machine.rootOf (c : C) : Option CmpOp :=
  [CmpOp.lt,.ltE,.gt,.gtE].find? fun op => x.ownMethod c (forwardCompareSlot op)

/-- `functools` derivations from the root's result and the equality. -/
def deriveOrdering (root op : CmpOp) (r e : Bool) : Option Bool :=
  match root,op with
  | .lt,.ltE => some (r||e)
  | .lt,.gt => some (!r&&!e)
  | .lt,.gtE => some (!r)
  | .ltE,.lt => some (r&&!e)
  | .ltE,.gt => some (!r)
  | .ltE,.gtE => some (!r||e)
  | .gt,.lt => some (!r&&!e)
  | .gt,.ltE => some (!r)
  | .gt,.gtE => some (r||e)
  | .gtE,.lt => some (!r)
  | .gtE,.ltE => some (!r||e)
  | .gtE,.gt => some (r&&!e)
  | _,_ => none

def Machine.totalOrderingDerive (again : CmpOp → V → V → Recorded S E (Call M V) Bool)
    (op : CmpOp) (l r : V) : Recorded S E (Call M V) (Option Bool) :=
  if !op.isOrdering then pure none
  else match x.instanceClass l with
    | none => pure none
    | some c =>
      if !x.totalOrdering c then pure none
      else match x.rootOf c with
        | none => pure none
        | some root => do
          let a ← again root l r
          let e ← again .eq l r
          pure (deriveOrdering root op a e)

/-- An answer as the result of the comparison: `!=` negates `__eq__`. -/
def Machine.answer (op : CmpOp) (v : V) : Bool :=
  if op=.notEq then !x.isTruthy v else x.isTruthy v

/-- What is left when no user method answers. -/
def Machine.compareRest (again : CmpOp → V → V → Recorded S E (Call M V) Bool) (op : CmpOp)
    (l r : V) : Recorded S E (Call M V) Bool := fun s =>
  match x.dataclassOrderCompare op l r s with
  | some res => (res,s,[])
  | none => (x.totalOrderingDerive again op l r >>= fun o =>
      match o with
      | some b => pure b
      | none =>
        if op.isOrdering&&((x.instanceClass l).isSome||(x.instanceClass r).isSome) then
          Recorded.throw (x.unorderable op l r)
        else Recorded.lift fun s => (x.compareBuiltin op l r s,s)) s

/-- `compare`; the fuel counts its calls from `total_ordering_derive`. -/
def Machine.compare : Nat → CmpOp → V → V → Recorded S E (Call M V) Bool
  | 0,_,_,_ => Recorded.throw x.stackExhausted
  | fuel+1,op,l,r => do
    match ← x.askSlot (forwardCompareSlot op) l r with
    | some v => pure (x.answer op v)
    | none =>
      match ← x.askSlot (reflectedCompareSlot op) r l with
      | some v => pure (x.answer op v)
      | none => x.compareRest (compare fuel) op l r

end Code

end InterpretThis.Operators
