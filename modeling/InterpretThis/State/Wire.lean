import InterpretThis.Framework.Json
import InterpretThis.Pyset.Body
import InterpretThis.State.Import
import InterpretThis.Value.Hash
import InterpretThis.Value.KeyContract

namespace InterpretThis

open Pyhash Pyset Json

/-- What the state codec uses of other crates: the hash functions, and the text formats of
decimals and of calendar values. -/
structure Externals where
  sip : List UInt8 → UInt64
  finish : List Datum → UInt64
  hasher : List Datum → UInt64
  decimalText : BigDecimal → String
  decimalOf : String → Option BigDecimal
  dateText : NaiveDate → String
  dateOf : String → Option NaiveDate
  timeText : NaiveTime → String
  timeOf : String → Option NaiveTime
  dateTimeText : NaiveDateTime → String
  dateTimeOf : String → Option NaiveDateTime

/-- The variants of `Value` and `ValueKey`, by their name on the wire. -/
inductive Variant where
  | none
  | notImplemented
  | ellipsis
  | bool
  | int
  | bigInt
  | float
  | complex
  | string
  | bytes
  | byteArray
  | memoryView
  | list
  | tuple
  | dict
  | orderedDict
  | set
  | frozenset
  | function
  | lambda
  | type
  | classRef
  | exceptionType
  | builtinName
  | instanceValue
  | date
  | dateTime
  | time
  | timeDelta
  | timeZone
  | enumMember
  | decimal
  | fraction
  | deque
  deriving DecidableEq

namespace Variant

def name : Variant → String
  | none => "None"
  | notImplemented => "NotImplemented"
  | ellipsis => "Ellipsis"
  | bool => "Bool"
  | int => "Int"
  | bigInt => "BigInt"
  | float => "Float"
  | complex => "Complex"
  | string => "String"
  | bytes => "Bytes"
  | byteArray => "ByteArray"
  | memoryView => "MemoryView"
  | list => "List"
  | tuple => "Tuple"
  | dict => "Dict"
  | orderedDict => "OrderedDict"
  | set => "Set"
  | frozenset => "Frozenset"
  | function => "Function"
  | lambda => "Lambda"
  | type => "Type"
  | classRef => "Class"
  | exceptionType => "ExceptionType"
  | builtinName => "BuiltinName"
  | instanceValue => "Instance"
  | date => "Date"
  | dateTime => "DateTime"
  | time => "Time"
  | timeDelta => "TimeDelta"
  | timeZone => "TimeZone"
  | enumMember => "EnumMember"
  | decimal => "Decimal"
  | fraction => "Fraction"
  | deque => "Deque"

def all : List Variant :=
  [none,notImplemented,ellipsis,bool,int,bigInt,float,complex,string,bytes,byteArray,memoryView,
    list,tuple,dict,orderedDict,set,frozenset,function,lambda,type,classRef,exceptionType,
    builtinName,instanceValue,date,dateTime,time,timeDelta,timeZone,enumMember,decimal,fraction,deque]

def ofName (s : String) : Option Variant := all.find? (fun v => v.name==s)

@[simp] theorem ofName_name (v : Variant) : ofName v.name=some v := by cases v <;> decide

def tagged (v : Variant) (payload : Json) : Json := .obj [(v.name,payload)]

end Variant

section Small

def enumKindName : EnumKind → String
  | .plain => "Plain"
  | .int => "Int"
  | .str => "Str"
  | .flag => "Flag"
  | .intFlag => "IntFlag"

def asEnumKind : Json → Except String EnumKind
  | .str "Plain" => .ok .plain
  | .str "Int" => .ok .int
  | .str "Str" => .ok .str
  | .str "Flag" => .ok .flag
  | .str "IntFlag" => .ok .intFlag
  | _ => .error "unknown variant of EnumKind"

def decimalKindName : DecimalKind → String
  | .normal => "Normal"
  | .negZero => "NegZero"
  | .posInf => "PosInf"
  | .negInf => "NegInf"
  | .nan => "Nan"

def asDecimalKind : Json → Except String DecimalKind
  | .str "Normal" => .ok .normal
  | .str "NegZero" => .ok .negZero
  | .str "PosInf" => .ok .posInf
  | .str "NegInf" => .ok .negInf
  | .str "Nan" => .ok .nan
  | _ => .error "unknown variant of DecimalKind"

/-- The digits of a special decimal are a placeholder. -/
def makeDecimal (digits : BigDecimal) (kind : DecimalKind) : PyDecimal :=
  if h : kind=.normal then ⟨digits,kind,fun hn => absurd h hn⟩
  else ⟨⟨0,digits.scale⟩,kind,fun _ => rfl⟩

def asText {α : Type} (read : String → Option α) : Json → Except String α
  | .str s => match read s with
    | some x => .ok x
    | none => .error "invalid value"
  | _ => .error "invalid type, expected a string"

def asInt64 (j : Json) : Except String Int64 :=
  (asInt Int64.minValue.toInt Int64.maxValue.toInt j).map Int64.ofInt

def asInt32 (j : Json) : Except String Int32 :=
  (asInt Int32.minValue.toInt Int32.maxValue.toInt j).map Int32.ofInt

def asUInt64 (j : Json) : Except String UInt64 :=
  (asInt 0 (2^64-1) j).map fun i => UInt64.ofNat i.toNat

def asByte (j : Json) : Except String UInt8 := (asInt 0 255 j).map fun i => UInt8.ofNat i.toNat

def ofBytes (b : List UInt8) : Json := .arr (b.map fun x => .int x.toNat)

def ofOffset : Option Int32 → Json
  | none => .null
  | some o => .int o.toInt

def asOffset : Json → Except String (Option Int32)
  | .null => .ok none
  | j => (asInt32 j).map some

def ofMaxlen : Option Nat → Json
  | none => .null
  | some n => .int n

def asMaxlen : Json → Except String (Option Nat)
  | .null => .ok none
  | j => (asInt 0 (2^64-1) j).map fun i => some i.toNat

def ofRational (q : Rat) : Json := .arr [ofBigInt q.num,ofBigInt q.den]

def asRational : Json → Except String Rat
  | .arr [n,d] => do
    let num ← asBigInt n
    let den ← asBigInt d
    if den=0 then .error "invalid value, expected a ratio with non-zero denominator"
    else return (num : Rat)/den
  | _ => .error "invalid type, expected a ratio"

end Small

section Write

variable (ext : Externals)

mutual

/-- `Serialize for Value`. A `LazyProxy` is skipped by the derive and makes the export fail
(`hasProxy`). -/
def valueJson : Value → Json
  | .none => .str Variant.none.name
  | .notImplemented => .str Variant.notImplemented.name
  | .ellipsis => .str Variant.ellipsis.name
  | .bool b => Variant.bool.tagged (.bool b)
  | .int i => Variant.int.tagged (.int i.toInt)
  | .bigInt i => Variant.bigInt.tagged (ofBigInt i)
  | .float f => Variant.float.tagged (ofFloat f)
  | .complex re im => Variant.complex.tagged (.arr [ofFloat re,ofFloat im])
  | .string s => Variant.string.tagged (.str s)
  | .bytes b => Variant.bytes.tagged (ofBytes b)
  | .byteArray b => Variant.byteArray.tagged (ofBytes b)
  | .memoryView inner => Variant.memoryView.tagged (valueJson inner)
  | .list _ items => Variant.list.tagged (.arr (valuesJson items))
  | .tuple items => Variant.tuple.tagged (.arr (valuesJson items))
  | .dict _ entries => Variant.dict.tagged (.arr (entriesJson entries))
  | .orderedDict _ entries => Variant.orderedDict.tagged (.arr (entriesJson entries))
  | .set items => Variant.set.tagged (.arr (valuesJson items))
  | .frozenset items => Variant.frozenset.tagged (.arr (valuesJson items))
  | .function _ f => Variant.function.tagged (functionJson f)
  | .lambda _ l => Variant.lambda.tagged (lambdaJson l)
  | .lazyProxy => .null
  | .type n => Variant.type.tagged (.str n)
  | .classRef n => Variant.classRef.tagged (.str n)
  | .exceptionType n => Variant.exceptionType.tagged (.str n)
  | .builtinName n => Variant.builtinName.tagged (.str n)
  | .instanceValue className _ fields => Variant.instanceValue.tagged
      (.obj [("class_name",.str className),("fields",.obj (fieldsJson fields))])
  | .date d => Variant.date.tagged (.str (ext.dateText d))
  | .dateTime dt tz => Variant.dateTime.tagged
      (.obj [("dt",.str (ext.dateTimeText dt)),("tz_offset_secs",ofOffset tz)])
  | .time t => Variant.time.tagged (.str (ext.timeText t))
  | .timeDelta m => Variant.timeDelta.tagged (.int m.toInt)
  | .timeZone o => Variant.timeZone.tagged (.int o.toInt)
  | .enumMember className memberName value kind => Variant.enumMember.tagged
      (.obj [("class_name",.str className),("member_name",.str memberName),
        ("value",valueJson value),("kind",.str (enumKindName kind))])
  | .decimal d => Variant.decimal.tagged
      (.arr [.str (ext.decimalText d.digits),.str (decimalKindName d.kind)])
  | .fraction q => Variant.fraction.tagged (ofRational q)
  | .deque items maxlen => Variant.deque.tagged
      (.obj [("items",.arr (valuesJson items)),("maxlen",ofMaxlen maxlen)])

def valuesJson : List Value → List Json
  | [] => []
  | v::vs => valueJson v::valuesJson vs

/-- A dict is written as a list of `[key, value]` pairs. -/
def entriesJson : List (ValueKey×Value) → List Json
  | [] => []
  | (k,v)::es => .arr [keyJson k,valueJson v]::entriesJson es

def fieldsJson : List (String×Value) → List (String×Json)
  | [] => []
  | (k,v)::fs => (k,valueJson v)::fieldsJson fs

def pairsJson : List (String×Value) → List Json
  | [] => []
  | (k,v)::fs => .arr [.str k,valueJson v]::pairsJson fs

/-- The body key is not written. -/
def functionJson : FunctionDef → Json
  | .mk name _ source isAsync defaults closure annotations =>
    .obj [("name",.str name),("params",.obj [("default_values",.arr (valuesJson defaults))]),
      ("closure",.obj (fieldsJson closure)),("source",.str source),
      ("annotations",.arr (pairsJson annotations)),("is_async",.bool isAsync)]

def lambdaJson : LambdaDef → Json
  | .mk lambdaId source defaults closure =>
    .obj [("params",.obj [("default_values",.arr (valuesJson defaults))]),
      ("lambda_id",.str lambdaId),("source",.str source),("closure",.obj (fieldsJson closure))]

/-- `Serialize for ValueKey`: floats are written by their bits. -/
def keyJson : ValueKey → Json
  | .none => .str Variant.none.name
  | .ellipsis => .str Variant.ellipsis.name
  | .bool b => Variant.bool.tagged (.bool b)
  | .int i => Variant.int.tagged (.int i.toInt)
  | .bigInt i => Variant.bigInt.tagged (ofBigInt i)
  | .float bits => Variant.float.tagged (.int bits.toNat)
  | .complex re im => Variant.complex.tagged (.arr [.int re.toNat,.int im.toNat])
  | .string s => Variant.string.tagged (.str s)
  | .tuple items => Variant.tuple.tagged (.arr (keysJson items))
  | .frozenset items => Variant.frozenset.tagged (.arr (keysJson items))
  | .instanceKey hash value => Variant.instanceValue.tagged
      (.obj [("hash",.int hash.toInt),("value",valueJson value)])
  | .date d => Variant.date.tagged (.str (ext.dateText d))
  | .time t => Variant.time.tagged (.str (ext.timeText t))
  | .dateTime dt tz => Variant.dateTime.tagged
      (.obj [("dt",.str (ext.dateTimeText dt)),("tz_offset_secs",ofOffset tz)])
  | .timeDelta m => Variant.timeDelta.tagged (.int m.toInt)
  | .decimal d => Variant.decimal.tagged (.str (ext.decimalText d))
  | .fraction q => Variant.fraction.tagged (ofRational q)

def keysJson : List ValueKey → List Json
  | [] => []
  | k::ks => keyJson k::keysJson ks

end

end Write

section Proxies

mutual

/-- A `LazyProxy` somewhere in the value, which the derived serializer refuses. -/
def hasProxy : Value → Bool
  | .lazyProxy => true
  | .memoryView inner => hasProxy inner
  | .list _ items => anyProxy items
  | .tuple items => anyProxy items
  | .dict _ entries => entryProxy entries
  | .orderedDict _ entries => entryProxy entries
  | .set items => anyProxy items
  | .frozenset items => anyProxy items
  | .function _ f => functionProxy f
  | .lambda _ l => lambdaProxy l
  | .instanceValue _ _ fields => fieldProxy fields
  | .enumMember _ _ value _ => hasProxy value
  | .deque items _ => anyProxy items
  | _ => false

def anyProxy : List Value → Bool
  | [] => false
  | v::vs => hasProxy v||anyProxy vs

def entryProxy : List (ValueKey×Value) → Bool
  | [] => false
  | (k,v)::es => keyProxy k||hasProxy v||entryProxy es

def fieldProxy : List (String×Value) → Bool
  | [] => false
  | (_,v)::fs => hasProxy v||fieldProxy fs

def functionProxy : FunctionDef → Bool
  | .mk _ _ _ _ defaults closure annotations =>
    anyProxy defaults||fieldProxy closure||fieldProxy annotations

def lambdaProxy : LambdaDef → Bool
  | .mk _ _ defaults closure => anyProxy defaults||fieldProxy closure

def keyProxy : ValueKey → Bool
  | .tuple items => anyKeyProxy items
  | .frozenset items => anyKeyProxy items
  | .instanceKey _ value => hasProxy value
  | _ => false

def anyKeyProxy : List ValueKey → Bool
  | [] => false
  | k::ks => keyProxy k||anyKeyProxy ks

end

end Proxies

section Read

variable (ext : Externals)

def sameKey (k k' : ValueKey) : Bool :=
  ext.hasher (keyFeed ext.finish k)==ext.hasher (keyFeed ext.finish k')&&keyEquals k k'

/-- `IndexMap::insert`: a known key keeps its place and takes the new value. -/
def dictInsert (k : ValueKey) (v : Value) : List (ValueKey×Value) → List (ValueKey×Value)
  | [] => [(k,v)]
  | (k',v')::es => if sameKey ext k k' then (k',v)::es else (k',v')::dictInsert k v es

def collectEntries (pairs : List (ValueKey×Value)) : List (ValueKey×Value) :=
  pairs.foldl (fun es e => dictInsert ext e.1 e.2 es) []

/-- `SetBody::from_items`, listed in the order of the rebuilt set. -/
def rebuildSet (items : List Value) : Except String (List Value) :=
  match SetBody.fromItems recurseEq (pythonHash ext.sip) items with
  | some b => .ok b.iterOrdered
  | none => .error "the probe of a set does not stop"

def unitValue (tag : String) : Except String Value :=
  match Variant.ofName tag with
  | some .none => .ok .none
  | some .notImplemented => .ok .notImplemented
  | some .ellipsis => .ok .ellipsis
  | _ => .error "invalid type, unit variant"

def unitKey (tag : String) : Except String ValueKey :=
  match Variant.ofName tag with
  | some .none => .ok .none
  | some .ellipsis => .ok .ellipsis
  | _ => .error "invalid type, unit variant"

mutual

/-- `Deserialize for Value`. Shared storage is fresh, so no identity survives. -/
def valueOfJson : Json → Except String Value
  | .str tag => unitValue tag
  | .obj [(tag,payload)] => match Variant.ofName tag with
    | some variant => payloadValue variant payload
    | none => .error "unknown variant"
  | _ => .error "invalid type, expected enum Value"
termination_by j => (sizeOf j,0)

def payloadValue (variant : Variant) (payload : Json) : Except String Value :=
  match variant with
  | .none => .error "invalid type, expected unit variant"
  | .notImplemented => .error "invalid type, expected unit variant"
  | .ellipsis => .error "invalid type, expected unit variant"
  | .bool => (asBool payload).map .bool
  | .int => (asInt64 payload).map .int
  | .bigInt => (asBigInt payload).map .bigInt
  | .float => (asFloat payload).map .float
  | .complex => match payload with
    | .arr [re,im] => do
      let re ← asFloat re
      let im ← asFloat im
      return .complex re im
    | _ => .error "invalid type, expected a complex number"
  | .string => (asString payload).map .string
  | .bytes => (asArray asByte payload).map .bytes
  | .byteArray => (asArray asByte payload).map .byteArray
  | .memoryView => (valueOfJson payload).map .memoryView
  | .list => (sequenceOfJson payload).map (.list 0)
  | .tuple => (sequenceOfJson payload).map .tuple
  | .dict => match payload with
    | .arr items => (entriesOfJson items).map fun es => .dict 0 (collectEntries ext es)
    | _ => .error "invalid type, expected a sequence"
  | .orderedDict => match payload with
    | .arr items => (entriesOfJson items).map fun es => .orderedDict 0 (collectEntries ext es)
    | _ => .error "invalid type, expected a sequence"
  | .set => ((sequenceOfJson payload).bind (rebuildSet ext)).map .set
  | .frozenset => ((sequenceOfJson payload).bind (rebuildSet ext)).map .frozenset
  | .function => (functionOfJson payload).map (.function 0)
  | .lambda => (lambdaOfJson payload).map (.lambda 0)
  | .type => (asString payload).map .type
  | .classRef => (asString payload).map .classRef
  | .exceptionType => (asString payload).map .exceptionType
  | .builtinName => (asString payload).map .builtinName
  | .instanceValue => match payload with
    | .obj fields => do
      let className ← (getField "class_name" fields).bind (fun j => asString j.1)
      let ⟨j,_⟩ ← getField "fields" fields
      let fs ← mapOfJson j
      return .instanceValue className 0 fs
    | _ => .error "invalid type, expected struct InstanceValue"
  | .date => (asText ext.dateOf payload).map .date
  | .dateTime => match payload with
    | .obj fields => do
      let dt ← (getField "dt" fields).bind (fun j => asText ext.dateTimeOf j.1)
      let tz ← (getField "tz_offset_secs" fields).bind (fun j => asOffset j.1)
      return .dateTime dt tz
    | _ => .error "invalid type, expected struct variant DateTime"
  | .time => (asText ext.timeOf payload).map .time
  | .timeDelta => (asInt64 payload).map .timeDelta
  | .timeZone => (asInt32 payload).map .timeZone
  | .enumMember => match payload with
    | .obj fields => do
      let className ← (getField "class_name" fields).bind (fun j => asString j.1)
      let memberName ← (getField "member_name" fields).bind (fun j => asString j.1)
      let ⟨j,_⟩ ← getField "value" fields
      let value ← valueOfJson j
      let kind ← (getField "kind" fields).bind (fun j => asEnumKind j.1)
      return .enumMember className memberName value kind
    | _ => .error "invalid type, expected struct variant EnumMember"
  | .decimal => match payload with
    | .arr [digits,kind] => do
      let digits ← asText ext.decimalOf digits
      let kind ← asDecimalKind kind
      return .decimal (makeDecimal digits kind)
    | _ => .error "invalid type, expected tuple variant Decimal"
  | .fraction => (asRational payload).map .fraction
  | .deque => match payload with
    | .obj fields => do
      let ⟨j,_⟩ ← getField "items" fields
      let items ← sequenceOfJson j
      let maxlen ← (getField "maxlen" fields).bind (fun j => asMaxlen j.1)
      return .deque items maxlen
    | _ => .error "invalid type, expected struct variant Deque"
termination_by (sizeOf payload,1)

def sequenceOfJson : Json → Except String (List Value)
  | .arr items => valuesOfJson items
  | _ => .error "invalid type, expected a sequence"
termination_by j => (sizeOf j,0)

def valuesOfJson : List Json → Except String (List Value)
  | [] => .ok []
  | j::js => do
    let v ← valueOfJson j
    let vs ← valuesOfJson js
    return v::vs
termination_by js => (sizeOf js,0)

def entriesOfJson : List Json → Except String (List (ValueKey×Value))
  | [] => .ok []
  | .arr [k,v]::js => do
    let k ← keyOfJson k
    let v ← valueOfJson v
    let es ← entriesOfJson js
    return (k,v)::es
  | _ => .error "invalid type, expected a pair"
termination_by js => (sizeOf js,0)

def fieldsOfJson : List (String×Json) → Except String (List (String×Value))
  | [] => .ok []
  | (k,j)::js => do
    let v ← valueOfJson j
    let fs ← fieldsOfJson js
    return (k,v)::fs
termination_by js => (sizeOf js,0)

def pairsOfJson : List Json → Except String (List (String×Value))
  | [] => .ok []
  | .arr [.str k,j]::js => do
    let v ← valueOfJson j
    let fs ← pairsOfJson js
    return (k,v)::fs
  | _ => .error "invalid type, expected a pair"
termination_by js => (sizeOf js,0)

def annotationsOfJson : Json → Except String (List (String×Value))
  | .arr items => pairsOfJson items
  | _ => .error "invalid type, expected a sequence"
termination_by j => (sizeOf j,0)

/-- A map with string keys; a repeated key overwrites. -/
def mapOfJson : Json → Except String (List (String×Value))
  | .obj fields => (fieldsOfJson fields).map (insertAll [])
  | _ => .error "invalid type, expected a map"
termination_by j => (sizeOf j,0)

def defaultsOfJson : Json → Except String (List Value)
  | .obj fields => do
    let ⟨j,_⟩ ← getField "default_values" fields
    sequenceOfJson j
  | _ => .error "invalid type, expected struct FunctionParams"
termination_by j => (sizeOf j,0)

def functionOfJson : Json → Except String FunctionDef
  | .obj fields => do
    let name ← (getField "name" fields).bind (fun j => asString j.1)
    let ⟨params,_⟩ ← getField "params" fields
    let defaults ← defaultsOfJson params
    let ⟨closure,_⟩ ← getField "closure" fields
    let closure ← mapOfJson closure
    let source ← (getField "source" fields).bind (fun j => asString j.1)
    let ⟨annotations,_⟩ ← getField "annotations" fields
    let annotations ← annotationsOfJson annotations
    let isAsync ← (getField "is_async" fields).bind (fun j => asBool j.1)
    return .mk name "" source isAsync defaults closure annotations
  | _ => .error "invalid type, expected struct FunctionDef"
termination_by j => (sizeOf j,0)

def lambdaOfJson : Json → Except String LambdaDef
  | .obj fields => do
    let ⟨params,_⟩ ← getField "params" fields
    let defaults ← defaultsOfJson params
    let lambdaId ← (getField "lambda_id" fields).bind (fun j => asString j.1)
    let source ← (getField "source" fields).bind (fun j => asString j.1)
    let ⟨closure,_⟩ ← getField "closure" fields
    let closure ← mapOfJson closure
    return .mk lambdaId source defaults closure
  | _ => .error "invalid type, expected struct LambdaDef"
termination_by j => (sizeOf j,0)

def keyOfJson : Json → Except String ValueKey
  | .str tag => unitKey tag
  | .obj [(tag,payload)] => match Variant.ofName tag with
    | some variant => payloadKey variant payload
    | none => .error "unknown variant"
  | _ => .error "invalid type, expected enum ValueKey"
termination_by j => (sizeOf j,0)

def payloadKey (variant : Variant) (payload : Json) : Except String ValueKey :=
  match variant with
  | .bool => (asBool payload).map .bool
  | .int => (asInt64 payload).map .int
  | .bigInt => (asBigInt payload).map .bigInt
  | .float => (asUInt64 payload).map .float
  | .complex => match payload with
    | .arr [re,im] => do
      let re ← asUInt64 re
      let im ← asUInt64 im
      return .complex re im
    | _ => .error "invalid type, expected a complex number"
  | .string => (asString payload).map .string
  | .tuple => match payload with
    | .arr items => (keysOfJson items).map .tuple
    | _ => .error "invalid type, expected a sequence"
  | .frozenset => match payload with
    | .arr items => (keysOfJson items).map .frozenset
    | _ => .error "invalid type, expected a sequence"
  | .instanceValue => match payload with
    | .obj fields => do
      let hash ← (getField "hash" fields).bind (fun j => asInt64 j.1)
      let ⟨j,_⟩ ← getField "value" fields
      let value ← valueOfJson j
      return .instanceKey hash value
    | _ => .error "invalid type, expected struct variant Instance"
  | .date => (asText ext.dateOf payload).map .date
  | .time => (asText ext.timeOf payload).map .time
  | .dateTime => match payload with
    | .obj fields => do
      let dt ← (getField "dt" fields).bind (fun j => asText ext.dateTimeOf j.1)
      let tz ← (getField "tz_offset_secs" fields).bind (fun j => asOffset j.1)
      return .dateTime dt tz
    | _ => .error "invalid type, expected struct variant DateTime"
  | .timeDelta => (asInt64 payload).map .timeDelta
  | .decimal => (asText ext.decimalOf payload).map .decimal
  | .fraction => (asRational payload).map .fraction
  | _ => .error "unknown variant of ValueKey"
termination_by (sizeOf payload,1)

def keysOfJson : List Json → Except String (List ValueKey)
  | [] => .ok []
  | j::js => do
    let k ← keyOfJson j
    let ks ← keysOfJson js
    return k::ks
termination_by js => (sizeOf js,0)

end

end Read

/-- What is used of the JSON crate: a document that it accepts is read back as it was written.
`Accepts` leaves out what its parser refuses, such as nesting past its limit. -/
structure JsonCodec where
  toVec : Json → List UInt8
  fromSlice : List UInt8 → Except String Json
  Accepts : Json → Prop
  roundTrip : ∀j, Accepts j → fromSlice (toVec j)=.ok j
  rejects : ∀j, ¬Accepts j → ∃e, fromSlice (toVec j)=.error e

section Classes

variable (ext : Externals)

def ofOption {α : Type} (write : α → Json) : Option α → Json
  | none => .null
  | some x => write x

def asOption {α : Type} (read : Json → Except String α) : Json → Except String (Option α)
  | .null => .ok none
  | j => (read j).map some

def readFields {α : Type} (read : Json → Except String α) :
    List (String×Json) → Except String (List (String×α))
  | [] => .ok []
  | (k,j)::fields => do
    let x ← read j
    let rest ← readFields read fields
    return (k,x)::rest

/-- A map with string keys; a repeated key overwrites. -/
def asMap {α : Type} (read : Json → Except String α) : Json → Except String (List (String×α))
  | .obj fields => (readFields read fields).map (insertAll [])
  | _ => .error "invalid type, expected a map"

def field {α : Type} (name : String) (read : Json → Except String α) (fields : List (String×Json)) :
    Except String α :=
  (getField name fields).bind fun j => read j.1

def ofMap {α : Type} (write : α → Json) (m : List (String×α)) : Json :=
  .obj (m.map fun e => (e.1,write e.2))

def propertyJson (p : PropertyDef) : Json :=
  .obj [("getter",functionJson ext p.getter),("setter",ofOption (functionJson ext) p.setter),
    ("deleter",ofOption (functionJson ext) p.deleter)]

def propertyOfJson : Json → Except String PropertyDef
  | .obj fields => do
    let getter ← field "getter" (functionOfJson ext) fields
    let setter ← field "setter" (asOption (functionOfJson ext)) fields
    let deleter ← field "deleter" (asOption (functionOfJson ext)) fields
    return ⟨getter,setter,deleter⟩
  | _ => .error "invalid type, expected struct PropertyDef"

def dataclassFieldJson (f : DataclassField) : Json :=
  .obj [("name",.str f.name),("default",ofOption (valueJson ext) f.default),
    ("default_factory",ofOption (valueJson ext) f.defaultFactory)]

def dataclassFieldOfJson : Json → Except String DataclassField
  | .obj fields => do
    let name ← field "name" asString fields
    let default ← field "default" (asOption (valueOfJson ext)) fields
    let defaultFactory ← field "default_factory" (asOption (valueOfJson ext)) fields
    return ⟨name,default,defaultFactory⟩
  | _ => .error "invalid type, expected struct DataclassField"

def classJson (c : ClassValue) : Json :=
  .obj [("name",.str c.name),("methods",ofMap (functionJson ext) c.methods),
    ("class_attrs",ofMap (valueJson ext) c.classAttrs),
    ("properties",ofMap (propertyJson ext) c.properties),
    ("static_methods",ofMap (functionJson ext) c.staticMethods),
    ("class_methods",ofMap (functionJson ext) c.classMethods),
    ("dataclass_fields",ofOption (fun fs => .arr (fs.map (dataclassFieldJson ext))) c.dataclassFields)]

def classOfJson : Json → Except String ClassValue
  | .obj fields => do
    let name ← field "name" asString fields
    let methods ← field "methods" (asMap (functionOfJson ext)) fields
    let classAttrs ← field "class_attrs" (asMap (valueOfJson ext)) fields
    let properties ← field "properties" (asMap (propertyOfJson ext)) fields
    let staticMethods ← field "static_methods" (asMap (functionOfJson ext)) fields
    let classMethods ← field "class_methods" (asMap (functionOfJson ext)) fields
    let dataclassFields ←
      field "dataclass_fields" (asOption (asArray (dataclassFieldOfJson ext))) fields
    return ⟨name,methods,classAttrs,properties,staticMethods,classMethods,dataclassFields⟩
  | _ => .error "invalid type, expected struct ClassValue"

def propertyProxy (p : PropertyDef) : Bool :=
  functionProxy p.getter||p.setter.any functionProxy||p.deleter.any functionProxy

/-- A `LazyProxy` somewhere in the class. -/
def classProxy (c : ClassValue) : Bool :=
  c.methods.any (fun e => functionProxy e.2)||fieldProxy c.classAttrs||
    c.properties.any (fun e => propertyProxy e.2)||
    c.staticMethods.any (fun e => functionProxy e.2)||
    c.classMethods.any (fun e => functionProxy e.2)||
    c.dataclassFields.any (fun fs => fs.any fun f => f.default.any hasProxy||f.defaultFactory.any hasProxy)

end Classes

section State

variable (codec : JsonCodec) (ext : Externals)

def stateJson (s : SerializedState) : Json :=
  .obj [("variables",.obj (fieldsJson ext s.vars)),("classes",ofMap (classJson ext) s.classes)]

/-- A document without classes is read as one with none. -/
def stateOfJson : Json → Except String SerializedState
  | .obj fields => do
    let vars ← field "variables" (mapOfJson ext) fields
    let classes ← match getField "classes" fields with
      | .ok j => asMap (classOfJson ext) j.1
      | .error _ => .ok []
    return ⟨vars,classes⟩
  | _ => .error "invalid type, expected struct SerializedState"

/-- A `BTreeMap` lists its entries by key. -/
def btree {β : Type} (m : List (String×β)) : List (String×β) :=
  m.mergeSort (fun a b => decide (a.1≤b.1))

def isInternal (key : String) : Bool := key.toList.head? == some '_'

def isLazyProxy : Value → Bool
  | .lazyProxy => true
  | _ => false

/-- The variables and classes that `export_state` writes. -/
def exported (s : InterpreterState) : SerializedState :=
  ⟨btree (s.vars.filter fun e => !isInternal e.1&& !isLazyProxy e.2),btree s.classes⟩

/-- A little-endian `u32`. -/
def u32ToLe (n : Nat) : List UInt8 :=
  [UInt8.ofNat n,UInt8.ofNat (n/256),UInt8.ofNat (n/65536),UInt8.ofNat (n/16777216)]

def exportState (s : InterpreterState) : Except InterpreterError (List UInt8) :=
  let serialized := exported s
  if fieldProxy serialized.vars||serialized.classes.any (fun e => classProxy e.2) then
    .error (.runtime
      "failed to serialize state: the enum variant Value::LazyProxy cannot be serialized")
  else .ok (u32ToLe stateFormatVersion++codec.toVec (stateJson ext serialized))

def decodeState (body : List UInt8) : Except String SerializedState :=
  (codec.fromSlice body).bind (stateOfJson ext)

def InterpreterState.fresh (maxMemoryBytes : Nat) : InterpreterState :=
  ⟨[],[],[],[],0,maxMemoryBytes,0⟩

end State

end InterpretThis
