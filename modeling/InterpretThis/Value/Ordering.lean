import InterpretThis.Value.Key

namespace InterpretThis

open Pyhash

section Slots

def boolLt (a : Bool) (rhs : Value) : Option (Except EvalError Bool) :=
  match rhs with
  | .bool b => some (.ok (decide ((boolI64 a).toInt<(boolI64 b).toInt)))
  | .int b => some (.ok (decide ((boolI64 a).toInt<b.toInt)))
  | .float b => some (.ok ((F64.ofInt (boolI64 a).toInt).lt b))
  | _ => none

def intLt (lhs rhs : Value) : Option (Except EvalError Bool) := do
  let a ← lhs.asBigint
  match rhs with
  | .int b => return .ok (decide (a<b.toInt))
  | .bigInt b => return .ok (decide (a<b))
  | .bool b => return .ok (decide (a<boolInt b))
  | .float b => return .ok ((F64.ofInt a).lt b)
  | _ => none

def floatLt (a : F64) (rhs : Value) : Option (Except EvalError Bool) :=
  match rhs with
  | .float b => some (.ok (a.lt b))
  | .bool b => some (.ok (a.lt (if b then F64.one else F64.zero)))
  | .int b => some (.ok (a.lt (F64.ofInt b.toInt)))
  | .bigInt b => some (.ok (a.lt (F64.ofInt b)))
  | _ => none

def bytesLt (lhs rhs : Value) : Option (Except EvalError Bool) := do
  let a ← lhs.bytesView
  let b ← rhs.bytesView
  return .ok (decide (a<b))

/-- Proper subset. -/
def setLt (lhs rhs : Value) : Option (Except EvalError Bool) := do
  let a ← lhs.setItems
  let b ← rhs.setItems
  return .ok (decide (a.length<b.length)&&a.all (fun x => b.any (fun y => recurseEq x y)))

def datetimeLt (a : NaiveDateTime) (ta : Option Int32) (b : NaiveDateTime) (tb : Option Int32) :
    Except EvalError Bool :=
  match ta,tb with
  | none,none => .ok (decide (a<b))
  | some oa,some ob => .ok (decide (a.minusSeconds oa.toInt<b.minusSeconds ob.toInt))
  | _,_ => .error (.interpreter
      (.typeError "can't compare offset-naive and offset-aware datetimes"))

/-- Infinite floats rank outside the finite values. -/
def towerRank : Value → Int
  | .float f => if f.isInfinite then (if F64.zero.lt f then 1 else -1) else 0
  | _ => 0

def isNanFloat : Value → Bool
  | .float f => f.isNan
  | _ => false

def lessRational : Option Rat → Option Rat → Bool
  | some a,some b => decide (a<b)
  | _,_ => false

/-- `tower_partial_cmp(lhs, rhs) == Some(Less)`. -/
def towerLess (lhs rhs : Value) : Bool :=
  if isNanFloat lhs||isNanFloat rhs then false
  else if towerRank lhs=0 ∧ towerRank rhs=0 then
    lessRational (exactRational lhs) (exactRational rhs)
  else decide (towerRank lhs<towerRank rhs)

def isDecimal : Value → Bool
  | .decimal _ => true
  | _ => false

def isFraction : Value → Bool
  | .fraction _ => true
  | _ => false

def decimalRank : DecimalKind → Int
  | .negInf => -2
  | .posInf => 2
  | _ => 0

/-- Serves either operand position. -/
def decimalLt (lhs rhs : Value) : Option (Except EvalError Bool) :=
  let ka := decimalOperandKind lhs
  let kb := decimalOperandKind rhs
  if ka.isSpecial||kb.isSpecial then
    if ka.isNan||kb.isNan then
      some (.error (.exception "InvalidOperation" "comparison involving NaN"))
    else some (.ok (decide (decimalRank ka<decimalRank kb)))
  else if (isDecimal lhs&&isFloatOrFraction rhs)||(isDecimal rhs&&isFloatOrFraction lhs) then
    some (.ok (towerLess lhs rhs))
  else do
    let a ← decimalToBigdecimal lhs
    let b ← decimalToBigdecimal rhs
    return .ok (decide (a<b))

/-- Serves either operand position. -/
def fractionLt (lhs rhs : Value) : Option (Except EvalError Bool) :=
  if (isFraction lhs&&isFloatOrDecimal rhs)||(isFraction rhs&&isFloatOrDecimal lhs) then
    some (.ok (towerLess lhs rhs))
  else do
    let a ← fractionToBigrational lhs
    let b ← fractionToBigrational rhs
    return .ok (decide (a<b))

/-- The `lt_slot` of the type of `self`, except for lists and tuples, whose slot handles only
two operands of the same type. -/
def ltSlot (self lhs rhs : Value) : Option (Except EvalError Bool) :=
  match self with
  | .bool _ => match lhs with
    | .bool a => boolLt a rhs
    | _ => none
  | .int _ => intLt lhs rhs
  | .bigInt _ => intLt lhs rhs
  | .float _ => match lhs with
    | .float a => floatLt a rhs
    | _ => none
  | .string _ => match lhs,rhs with
    | .string a,.string b => some (.ok (decide (a<b)))
    | _,_ => none
  | .bytes _ => bytesLt lhs rhs
  | .byteArray _ => bytesLt lhs rhs
  | .memoryView _ => bytesLt lhs rhs
  | .set _ => setLt lhs rhs
  | .frozenset _ => setLt lhs rhs
  | .date _ => match lhs,rhs with
    | .date a,.date b => some (.ok (decide (a<b)))
    | _,_ => none
  | .dateTime _ _ => match lhs,rhs with
    | .dateTime a ta,.dateTime b tb => some (datetimeLt a ta b tb)
    | _,_ => none
  | .time _ => match lhs,rhs with
    | .time a,.time b => some (.ok (decide (a<b)))
    | _,_ => none
  | .timeDelta _ => match lhs,rhs with
    | .timeDelta a,.timeDelta b => some (.ok (decide (a.toInt<b.toInt)))
    | _,_ => none
  | .decimal _ => decimalLt lhs rhs
  | .fraction _ => fractionLt lhs rhs
  | _ => none

end Slots

def typeErrorUnsupported (op : String) (lhs rhs : Value) : EvalError :=
  .interpreter (.typeError ("'"++op++"' not supported between instances of '"++lhs.typeObjectName++
    "' and '"++rhs.typeObjectName++"'"))

/-- The left operand's slot answers, then the right operand's, with the operands in the
same order. -/
def slotLt (lhs rhs : Value) : Except EvalError Bool :=
  match ltSlot lhs lhs rhs with
  | some r => r
  | none =>
    match ltSlot rhs lhs rhs with
    | some r => r
    | none => .error (typeErrorUnsupported "<" lhs rhs)

theorem enumValue_size {v inner : Value} (h : enumValue v=some inner) : sizeOf inner<sizeOf v := by
  unfold enumValue at h
  split at h
  · cases h
    simp only [Value.enumMember.sizeOf_spec]
    omega
  · cases h
    simp only [Value.enumMember.sizeOf_spec]
    omega
  · cases h

mutual

/-- `dispatch_lt`: members of int and str enumerations compare by their value. -/
def dispatchLt (lhs rhs : Value) : Except EvalError Bool :=
  match hl : enumValue lhs,hr : enumValue rhs with
  | some l,some r => dispatchLt l r
  | some l,none => dispatchLt l rhs
  | none,some r => dispatchLt lhs r
  | none,none =>
    match lhs,rhs with
    | .list i a,.list j b => if i=j then .ok false else lexLt a b
    | .tuple a,.tuple b => lexLt a b
    | lhs,rhs => slotLt lhs rhs
termination_by sizeOf lhs+sizeOf rhs
decreasing_by
  all_goals simp_wf
  · have := enumValue_size hl
    have := enumValue_size hr
    omega
  · have := enumValue_size hl
    omega
  · have := enumValue_size hr
    omega
  · omega
  · omega

/-- The first unequal position decides; a proper prefix is less. -/
def lexLt (a b : List Value) : Except EvalError Bool :=
  match a,b with
  | x::a,y::b => if recurseEq x y then lexLt a b else dispatchLt x y
  | a,b => .ok (decide (a.length<b.length))
termination_by sizeOf a+sizeOf b
decreasing_by
  all_goals simp_wf
  all_goals omega

end

end InterpretThis
