import InterpretThis.Math.TwosComplement
import InterpretThis.Value.Key

namespace InterpretThis

/-- `ast::Operator`. -/
inductive Operator where
  | add
  | sub
  | mult
  | matMult
  | div
  | mod
  | pow
  | lShift
  | rShift
  | bitOr
  | bitXor
  | bitAnd
  | floorDiv
  deriving DecidableEq

/-- `ast::UnaryOp`. -/
inductive UnaryOp where
  | invert
  | not
  | uAdd
  | uSub
  deriving DecidableEq

section Coercions

def intFromBigint (n : Int) : Value :=
  match fitsI64 n with
  | some i => .int i
  | none => .bigInt n

def overflowError (message : String) : EvalError := .exception "OverflowError" message

def zeroDivisionError (message : String) : EvalError := .exception "ZeroDivisionError" message

/-- `BigInt::bits`, the size of the magnitude. -/
def bits (n : Int) : Nat := n.natAbs.size

def intFromBigintLimited (n : Int) (maxBits : Nat) : Except EvalError Value :=
  if maxBits<bits n then
    .error (overflowError ("int exceeds max_int_bits limit ("++toString maxBits++" bits)"))
  else .ok (intFromBigint n)

def toBigint (v : Value) : Except EvalError Int :=
  match v.asBigint with
  | some n => .ok n
  | none => .error (.interpreter (.typeError
      ("unsupported operand type for integer operation: '"++v.typeName++"'")))

def unsupported (op : String) (left right : Value) : EvalError :=
  .interpreter (.typeError ("unsupported operand type(s) for "++op++": '"++left.typeName++
    "' and '"++right.typeName++"'"))

def requireIntOperands (op : String) (left right : Value) : Except EvalError Unit :=
  if left.asBigint=none ∨ right.asBigint=none then .error (unsupported op left right) else .ok ()

/-- `u32::try_from`. -/
def toU32 (n : Int) : Option Nat := if 0≤ n ∧ n<2^32 then some n.toNat else none

end Coercions

section Kernels

/-- `checked_add`, `checked_sub` and `checked_mul`, over the exact operation. -/
def checkedOp (exact : Int → Int → Int) (a b : Int64) : Option Int64 := fitsI64 (exact a.toInt b.toInt)

/-- The shape of `int_add`, `int_sub` and `int_mul`. -/
def intOp (exact : Int → Int → Int) (left right : Value) : Except EvalError Value :=
  let promoted : Except EvalError Value := do
    let l ← toBigint left
    let r ← toBigint right
    return intFromBigint (exact l r)
  match left,right with
  | .int a,.int b => match checkedOp exact a b with
    | some v => .ok (.int v)
    | none => promoted
  | _,_ => promoted

def intAdd : Value → Value → Except EvalError Value := intOp (·+·)

def intSub : Value → Value → Except EvalError Value := intOp (·-·)

def intMul : Value → Value → Except EvalError Value := intOp (·*·)

def pythonFloordiv (a b : Int64) : Int64 :=
  let d := a/b
  let r := a%b
  if r≠0 ∧ r^^^b<0 then d-1 else d

def pythonMod (a b : Int64) : Int64 :=
  let r := a%b
  if r≠0 ∧ r^^^b<0 then r+b else r

/-- The shape of the integer branch of `floordiv_values` and `mod_values`: `i64::MIN` by `-1`
alone leaves the fast path. -/
def divideInts (fast : Int64 → Int64 → Int64) (floor : Int → Int → Int) (message : String)
    (left right : Value) : Except EvalError Value :=
  let promoted : Except EvalError Value := do
    let l ← toBigint left
    let r ← toBigint right
    if r=0 then .error (zeroDivisionError message)
    else return intFromBigint (floor l r)
  match left,right with
  | .int a,.int b =>
    if b=0 then .error (zeroDivisionError message)
    else if ¬(a=Int64.minValue ∧ b=-1) then .ok (.int (fast a b))
    else promoted
  | _,_ => promoted

def floordivInts : Value → Value → Except EvalError Value :=
  divideInts pythonFloordiv Int.fdiv "integer division or modulo by zero"

def modInts : Value → Value → Except EvalError Value :=
  divideInts pythonMod Int.fmod "integer modulo by zero"

def maxExponent : Nat := 1000000

-- `powf` is the float power of the two converted integers.
variable (powf : Int → Int → F64)

/-- The integer branch of `pow_values`. -/
def powInts (maxIntBits : Nat) (left right : Value) : Except EvalError Value := do
  let some l := left.asBigint | .error (unsupported "**" left right)
  let some r := right.asBigint | .error (unsupported "**" left right)
  if r<0 then
    if l=0 then .error (zeroDivisionError "0.0 cannot be raised to a negative power")
    else .ok (.float (powf l r))
  else if r=0 then .ok (.int 1)
  else
    let some exp := toU32 r | .error (overflowError "exponent too large for integer power")
    if maxExponent<exp then .error (overflowError "exponent too large for integer power")
    else if 2≤bits l ∧ maxIntBits ≤ min ((bits l-1)*exp) (2^64-1) then
      .error (overflowError "integer power result too large to represent")
    else intFromBigintLimited (l^exp) maxIntBits

def lshiftValues (maxIntBits : Nat) (left right : Value) : Except EvalError Value := do
  requireIntOperands "<<" left right
  let l ← toBigint left
  let r ← toBigint right
  if r<0 then .error (.interpreter (.valueError "negative shift count"))
  else
    let some shift := toU32 r | .error (overflowError "shift count too large")
    if maxExponent<shift then .error (overflowError "shift count too large")
    else intFromBigintLimited (l*2^shift) maxIntBits

/-- The right shift of a `BigInt` rounds down. -/
def rshiftValues (maxIntBits : Nat) (left right : Value) : Except EvalError Value := do
  requireIntOperands ">>" left right
  let l ← toBigint left
  let r ← toBigint right
  if r<0 then .error (.interpreter (.valueError "negative shift count"))
  else
    let some shift := toU32 r | .error (overflowError "shift count too large")
    intFromBigintLimited (l.fdiv (2^shift)) maxIntBits

/-- The shape of the bitwise kernels on integers; a bool pair stays a bool. -/
def bitInts (op : String) (onBool : Bool → Bool → Bool) (onWord : Int64 → Int64 → Int64)
    (onInt : Int → Int → Int) (left right : Value) : Except EvalError Value :=
  match left,right with
  | .bool a,.bool b => .ok (.bool (onBool a b))
  | .int a,.int b => .ok (.int (onWord a b))
  | _,_ => do
    requireIntOperands op left right
    let l ← toBigint left
    let r ← toBigint right
    return intFromBigint (onInt l r)

def bitorInts : Value → Value → Except EvalError Value := bitInts "|" or (·|||·) Int.lor

def bitxorInts : Value → Value → Except EvalError Value := bitInts "^" xor (·^^^·) Int.xor

def bitandInts : Value → Value → Except EvalError Value := bitInts "&" and (·&&&·) Int.land

end Kernels

section Dispatch

/-- The operand kinds of the integer kernels. -/
def isInt : Value → Bool
  | .bool _ => true
  | .int _ => true
  | .bigInt _ => true
  | _ => false

-- `rest` stands for every operator on operands that are not both integers, and for `/` and
-- `@`, whose results are not integers.
variable (powf : Int → Int → F64) (rest : Operator → Value → Value → Except EvalError Value)
  (maxIntBits : Nat)

def applyBinop (op : Operator) (left right : Value) : Except EvalError Value :=
  if isInt left&&isInt right then
    match op with
    | .add => intAdd left right
    | .sub => intSub left right
    | .mult => intMul left right
    | .floorDiv => floordivInts left right
    | .mod => modInts left right
    | .pow => powInts powf maxIntBits left right
    | .lShift => lshiftValues maxIntBits left right
    | .rShift => rshiftValues maxIntBits left right
    | .bitOr => bitorInts left right
    | .bitXor => bitxorInts left right
    | .bitAnd => bitandInts left right
    | .div => rest op left right
    | .matMult => rest op left right
  else rest op left right

/-- The shape of the fast path: the checked operation, or the promoted one. -/
def fastOp (exact : Int → Int → Int) (a b : Int64) : Value :=
  match checkedOp exact a b with
  | some v => .int v
  | none => intFromBigint (exact a.toInt b.toInt)

/-- `eval_binop_inner` once the operands are evaluated. -/
def evalBinop (op : Operator) (left right : Value) : Except EvalError Value :=
  match left,right,op with
  | .int a,.int b,.add => .ok (fastOp (·+·) a b)
  | .int a,.int b,.sub => .ok (fastOp (·-·) a b)
  | .int a,.int b,.mult => .ok (fastOp (·*·) a b)
  | _,_,_ => applyBinop powf rest maxIntBits op left right

/-- `checked_neg`. -/
def checkedNeg (a : Int64) : Option Int64 := fitsI64 (-a.toInt)

-- `other` stands for the operands that are no integers, and for `not`.
variable (other : UnaryOp → Value → Except EvalError Value)

def applyUnaryop (op : UnaryOp) (operand : Value) : Except EvalError Value :=
  match op,operand with
  | .uAdd,.int i => .ok (.int i)
  | .uAdd,.bigInt n => .ok (.bigInt n)
  | .uAdd,.bool b => .ok (.int (boolI64 b))
  | .uSub,.int i => .ok (match checkedNeg i with
    | some v => .int v
    | none => intFromBigint (-i.toInt))
  | .uSub,.bigInt n => .ok (intFromBigint (-n))
  | .uSub,.bool b => .ok (.int (if b then -1 else 0))
  | .invert,.int i => .ok (.int (~~~i))
  | .invert,.bool b => .ok (.int (~~~(boolI64 b)))
  | .invert,.bigInt n => .ok (intFromBigint (-n-1))
  | _,_ => other op operand

end Dispatch

end InterpretThis
