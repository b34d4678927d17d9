import InterpretThis.Pyhash.Numeric

namespace InterpretThis

open Pyhash

/-- A calendar day, counted from 1 January of year 1 as day 1. -/
structure NaiveDate where
  days : Int
  deriving DecidableEq

/-- Seconds of the day and nanoseconds of the second. -/
structure NaiveTime where
  secs : Nat
  nanos : Nat
  deriving DecidableEq

structure NaiveDateTime where
  date : NaiveDate
  time : NaiveTime
  deriving DecidableEq

instance : LT NaiveDate := ⟨fun a b => a.days<b.days⟩

instance (a b : NaiveDate) : Decidable (a<b) := inferInstanceAs (Decidable (a.days<b.days))

instance : LT NaiveTime := ⟨fun a b => a.secs<b.secs ∨ (a.secs=b.secs ∧ a.nanos<b.nanos)⟩

instance (a b : NaiveTime) : Decidable (a<b) :=
  inferInstanceAs (Decidable (a.secs<b.secs ∨ (a.secs=b.secs ∧ a.nanos<b.nanos)))

instance : LT NaiveDateTime := ⟨fun a b => a.date<b.date ∨ (a.date=b.date ∧ a.time<b.time)⟩

instance (a b : NaiveDateTime) : Decidable (a<b) :=
  inferInstanceAs (Decidable (a.date<b.date ∨ (a.date=b.date ∧ a.time<b.time)))

namespace NaiveDate

/-- The proleptic Gregorian year, month and day, over 400-year eras that begin in March. -/
def civil (d : NaiveDate) : Int×Nat×Nat :=
  let z := d.days+305
  let era := z/146097
  let doe := (z%146097).toNat
  let yoe := (doe-doe/1460+doe/36524-doe/146096)/365
  let doy := doe-(365*yoe+yoe/4-yoe/100)
  let mp := (5*doy+2)/153
  let day := doy-(153*mp+2)/5+1
  let month := if mp<10 then mp+3 else mp-9
  ((yoe : Int)+era*400+(if month≤2 then 1 else 0),month,day)

def year (d : NaiveDate) : Int := d.civil.1

def month (d : NaiveDate) : Nat := d.civil.2.1

def day (d : NaiveDate) : Nat := d.civil.2.2

end NaiveDate

/-- `dt - Duration::seconds(o)`. -/
def NaiveDateTime.minusSeconds (dt : NaiveDateTime) (o : Int) : NaiveDateTime :=
  let total := dt.date.days*86400+dt.time.secs-o
  ⟨⟨total/86400⟩,⟨(total%86400).toNat,dt.time.nanos⟩⟩

/-- Errors surfaced to the host. -/
inductive InterpreterError where
  | syntaxError (message : String)
  | security (message : String)
  | runtime (message : String)
  | limitExceeded (message : String)
  | typeError (message : String)
  | valueError (message : String)
  | stateFormatSuperseded (found expected : Nat)
  deriving DecidableEq

inductive EvalError where
  | interpreter (e : InterpreterError)
  | exception (typeName message : String)
  deriving DecidableEq

inductive EnumKind where
  | plain
  | int
  | str
  | flag
  | intFlag
  deriving DecidableEq

inductive DecimalKind where
  | normal
  | negZero
  | posInf
  | negInf
  | nan
  deriving DecidableEq

namespace DecimalKind

def isNan : DecimalKind → Bool
  | nan => true
  | _ => false

def isSpecial : DecimalKind → Bool
  | posInf => true
  | negInf => true
  | nan => true
  | _ => false

end DecimalKind

/-- A decimal with the tag for what the digits cannot express. For every tag but `normal`
the digits are a zero placeholder. -/
structure PyDecimal where
  digits : BigDecimal
  kind : DecimalKind
  placeholder : kind≠.normal → digits.mantissa=0

abbrev Addr := Nat

mutual

/-- The values the modelled functions tell apart. A `set` or `frozenset` is listed in the
iteration order of its table, which is all that nested sets are read through; shared
storage carries its identity. -/
inductive Value where
  | none
  | notImplemented
  | ellipsis
  | bool (b : Bool)
  | int (i : Int64)
  | bigInt (i : Int)
  | float (f : F64)
  | complex (re im : F64)
  | string (s : String)
  | bytes (b : List UInt8)
  | byteArray (b : List UInt8)
  | memoryView (inner : Value)
  | list (addr : Addr) (items : List Value)
  | tuple (items : List Value)
  | dict (addr : Addr) (entries : List (ValueKey×Value))
  | orderedDict (addr : Addr) (entries : List (ValueKey×Value))
  | set (items : List Value)
  | frozenset (items : List Value)
  | function (addr : Addr) (f : FunctionDef)
  | lambda (addr : Addr) (l : LambdaDef)
  | lazyProxy
  | type (name : String)
  | classRef (name : String)
  | exceptionType (name : String)
  | builtinName (name : String)
  | instanceValue (className : String) (addr : Addr) (fields : List (String×Value))
  | date (d : NaiveDate)
  | dateTime (dt : NaiveDateTime) (tzOffsetSecs : Option Int32)
  | time (t : NaiveTime)
  | timeDelta (micros : Int64)
  | timeZone (offset : Int32)
  | enumMember (className memberName : String) (value : Value) (kind : EnumKind)
  | decimal (d : PyDecimal)
  | fraction (q : Rat)
  | deque (items : List Value) (maxlen : Option Nat)

inductive ValueKey where
  | none
  | ellipsis
  | bool (b : Bool)
  | int (i : Int64)
  | bigInt (i : Int)
  | float (bits : UInt64)
  | complex (re im : UInt64)
  | string (s : String)
  | tuple (items : List ValueKey)
  | frozenset (items : List ValueKey)
  | instanceKey (hash : Int64) (value : Value)
  | date (d : NaiveDate)
  | time (t : NaiveTime)
  | dateTime (dt : NaiveDateTime) (tzOffsetSecs : Option Int32)
  | timeDelta (micros : Int64)
  | decimal (d : BigDecimal)
  | fraction (q : Rat)

/-- `defaults` holds the evaluated defaults of all parameters. -/
inductive FunctionDef where
  | mk (name bodyKey source : String) (isAsync : Bool) (defaults : List Value)
      (closure annotations : List (String×Value))

inductive LambdaDef where
  | mk (lambdaId source : String) (defaults : List Value) (closure : List (String×Value))

end

namespace Value

/-- The display name of the builtin type object. -/
def typeObjectName : Value → String
  | none => "NoneType"
  | bool _ => "bool"
  | int _ => "int"
  | bigInt _ => "int"
  | float _ => "float"
  | complex _ _ => "complex"
  | string _ => "str"
  | bytes _ => "bytes"
  | byteArray _ => "bytearray"
  | memoryView _ => "memoryview"
  | list _ _ => "list"
  | tuple _ => "tuple"
  | dict _ _ => "dict"
  | orderedDict _ _ => "OrderedDict"
  | set _ => "set"
  | frozenset _ => "frozenset"
  | date _ => "date"
  | dateTime _ _ => "datetime"
  | time _ => "time"
  | timeDelta _ => "timedelta"
  | timeZone _ => "timezone"
  | enumMember _ _ _ _ => "enum"
  | decimal _ => "Decimal"
  | fraction _ => "Fraction"
  | deque _ _ => "deque"
  | instanceValue className _ _ => className
  | _ => "object"

/-- `type_name`. -/
def typeName : Value → String
  | none => "NoneType"
  | notImplemented => "NotImplementedType"
  | ellipsis => "ellipsis"
  | bool _ => "bool"
  | int _ => "int"
  | bigInt _ => "int"
  | float _ => "float"
  | complex _ _ => "complex"
  | string _ => "str"
  | bytes _ => "bytes"
  | byteArray _ => "bytearray"
  | memoryView _ => "memoryview"
  | list _ _ => "list"
  | tuple _ => "tuple"
  | dict _ _ => "dict"
  | orderedDict _ _ => "OrderedDict"
  | set _ => "set"
  | frozenset _ => "frozenset"
  | function _ _ => "function"
  | lambda _ _ => "function"
  | lazyProxy => "LazyProxy"
  | type _ => "type"
  | classRef _ => "type"
  | exceptionType _ => "type"
  | builtinName _ => "builtin_function_or_method"
  | instanceValue _ _ _ => "object"
  | date _ => "date"
  | dateTime _ _ => "datetime"
  | time _ => "time"
  | timeDelta _ => "timedelta"
  | timeZone _ => "timezone"
  | enumMember _ _ _ _ => "enum"
  | decimal _ => "Decimal"
  | fraction _ => "Fraction"
  | deque _ _ => "deque"

def asDict : Value → Option (Addr×List (ValueKey×Value))
  | dict addr entries => some (addr,entries)
  | orderedDict addr entries => some (addr,entries)
  | _ => Option.none

def setItems : Value → Option (List Value)
  | set items => some items
  | frozenset items => some items
  | _ => Option.none

def bytesView : Value → Option (List UInt8)
  | bytes b => some b
  | byteArray b => some b
  | memoryView inner => inner.bytesView
  | _ => Option.none

/-- An int-like value; members of int enumerations count by their value. -/
def asBigint : Value → Option Int
  | int i => some i.toInt
  | bigInt i => some i
  | bool b => some (if b then 1 else 0)
  | enumMember _ _ value .int => value.asBigint
  | enumMember _ _ value .intFlag => value.asBigint
  | _ => Option.none

end Value

end InterpretThis
