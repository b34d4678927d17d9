import InterpretThis.Classes.Mro
import InterpretThis.Framework.Lineage
import InterpretThis.Names.Lookup

namespace InterpretThis
namespace ClassTable

/-- Where a body is cached: `Class.rest` for what a class statement defines, `name#cursor` for a
function statement's. -/
inductive BodyKey where
  | member (cls rest : String)
  | function (name : String) (cursor : ℕ)
  deriving DecidableEq

/-- A function object; `data` is what it carries besides its key. -/
structure FunctionDef (P : Type) where
  key : BodyKey
  data : P

structure PropertyDef (P : Type) where
  getter : FunctionDef P
  setter : Option (FunctionDef P)
  deleter : Option (FunctionDef P)
  cached : Bool

inductive Value (P O : Type) where
  | cls (name : String)
  | object (className : String) (address : ℕ)
  | function (f : FunctionDef P)
  | type (name : String)
  | exceptionType (name : String)
  | moduleFunction (name : String)
  | strings (items : List String)
  | other (o : O)

structure ClassValue (P O : Type) where
  methods : String → Option (FunctionDef P)
  properties : String → Option (PropertyDef P)
  staticMethods : String → Option (FunctionDef P)
  classMethods : String → Option (FunctionDef P)
  classAttrs : String → Option (Value P O)
  bases : List String
  mro : List String
  metaclass : Option String
  qualname : String

/-- A class statement whose body is running. -/
structure Build (P O : Type) where
  name : String
  bases : List String
  metaclass : Option String
  qualname : String
  methods : String → Option (FunctionDef P)
  properties : String → Option (PropertyDef P)
  staticMethods : String → Option (FunctionDef P)
  classMethods : String → Option (FunctionDef P)
  classAttrs : String → Option (Value P O)

/-- The tables before the first statement of the body. -/
def Build.new {P O : Type} (name : String) (bases : List String) (metaclass : Option String)
    (qualname : String) : Build P O where
  name := name
  bases := bases
  metaclass := metaclass
  qualname := qualname
  methods _ := none
  properties _ := none
  staticMethods _ := none
  classMethods _ := none
  classAttrs _ := none

structure State (P O B : Type) where
  classes : String → Option (ClassValue P O)
  functionBodies : BodyKey → Option B
  nextCursor : ℕ
  builds : List (Build P O)

inductive Failure where
  | nameError (name : String)
  | typeError (message : String)

/-- How a method is decorated once `@abstractmethod` is stripped. -/
inductive Decoration where
  | plain
  | property (cached : Bool)
  | staticMethod
  | classMethod
  | setter (property : String)
  | deleter (property : String)
  /-- Another decorator: its result becomes a class attribute. -/
  | custom
  deriving DecidableEq

inductive BaseExpr (P O : Type) where
  /-- A bare name, with what the environment holds under it. -/
  | name (id : String) (resolved : Option (Value P O))
  | computed (v : Value P O)

variable {P O B : Type}

def State.registry (s : State P O B) : Classes.Registry := fun n =>
  (s.classes n).map fun c => ⟨c.bases,c.mro⟩

/-- `ClassValue::new`. -/
def ClassValue.new (name : String) : ClassValue P O where
  methods _ := none
  properties _ := none
  staticMethods _ := none
  classMethods _ := none
  classAttrs _ := none
  bases := []
  mro := [name]
  metaclass := none
  qualname := name

/-- A name and a value of the class header, as a base to record; `none` is skipped. -/
def recordBase (s : State P O B) (id : String) (resolved : Option (Value P O)) :
    Except Failure (Option String) :=
  if id="object" then .ok none
  else
    match resolved with
    | some (.type _) => .ok none
    | some (.moduleFunction _) => .ok none
    | _ =>
      let isExceptionBase := Names.isExceptionTypeName id ||
        (match resolved with | some (.exceptionType _) => true | _ => false)
      let isTypeBase := id=="type" && resolved.isNone && (s.classes id).isNone
      if (s.classes id).isNone && !isExceptionBase && !isTypeBase then .error (.nameError id)
      else .ok (some id)

def resolveBase (s : State P O B) : BaseExpr P O → Except Failure (Option String)
  | .name id resolved => recordBase s id resolved
  | .computed (.cls n) => recordBase s n (some (.cls n))
  | .computed (.exceptionType n) => recordBase s n (some (.exceptionType n))
  | .computed (.type n) => recordBase s n (some (.type n))
  | .computed _ => .error (.typeError "bases must be types")

def resolveBases (s : State P O B) : List (BaseExpr P O) → Except Failure (List String)
  | [] => .ok []
  | e::es => do
    let base ← resolveBase s e
    let bases ← resolveBases s es
    return base.toList++bases

def inheritedMetaclass (s : State P O B) (bases : List String) : Option String :=
  bases.findSome? fun b => (s.classes b).bind (·.metaclass)

def metaclassName : Option (Value P O) → Except Failure (Option String)
  | none => .ok none
  | some (.type "type") => .ok none
  | some (.type "abc.ABCMeta") => .ok none
  | some (.type "abc.ABC") => .ok none
  | some (.cls n) => .ok (some n)
  | some _ => .error (.typeError "metaclass must be a type")

/-- The rest of the key under which a method's body is cached. -/
def Decoration.rest (method : String) : Decoration → String
  | .plain | .custom => method
  | .property _ => method++"__get"
  | .staticMethod => method++"__static"
  | .classMethod => method++"__class"
  | .setter p => p++"__set"
  | .deleter p => p++"__del"

/-- `classify_decorated_method` on the tables of the running class body. -/
def Build.classify (b : Build P O) (method : String) (f : FunctionDef P) :
    Decoration → Option (Build P O)
  | .plain => some {b with methods := Function.update b.methods method (some f)}
  | .property cached =>
    some {b with properties := Function.update b.properties method (some ⟨f,none,none,cached⟩)}
  | .staticMethod => some {b with staticMethods := Function.update b.staticMethods method (some f)}
  | .classMethod => some {b with classMethods := Function.update b.classMethods method (some f)}
  | .setter p => (b.properties p).map fun prop =>
    {b with properties := Function.update b.properties p (some {prop with setter := some f})}
  | .deleter p => (b.properties p).map fun prop =>
    {b with properties := Function.update b.properties p (some {prop with deleter := some f})}
  | .custom => some b

def State.cache (s : State P O B) (key : BodyKey) (body : B) : State P O B :=
  {s with functionBodies := Function.update s.functionBodies key (some body)}

def State.register (s : State P O B) (name : String) (c : ClassValue P O) : State P O B :=
  {s with classes := Function.update s.classes name (some c)}

/-- The entry that the end of a class statement records. -/
def Build.classValue (b : Build P O) (mro : List String) : ClassValue P O where
  methods := b.methods
  properties := b.properties
  staticMethods := b.staticMethods
  classMethods := b.classMethods
  classAttrs := b.classAttrs
  bases := b.bases
  mro := mro
  metaclass := b.metaclass
  qualname := b.qualname

/-- The steps of a program that have to do with classes. -/
inductive Event (P O B : Type) where
  /-- The header of a class statement. -/
  | openClass (name : String) (bases : List (BaseExpr P O)) (metaclass : Option (Value P O))
  /-- A `def` in the class body that is running. -/
  | defMethod (name : String) (decoration : Decoration) (data : P) (body : B)
  /-- A name that the class body binds. -/
  | bindAttr (name : String) (v : Value P O)
  | closeClass
  /-- The class body raises. -/
  | abandonClass
  | defFunction (name : String) (data : P) (body : B)
  /-- `type(name, bases, dict)`. -/
  | typeNew (name : String) (bases : List (Value P O)) (attrs : List (String×Value P O))
  /-- `namedtuple(name, fields)` when its arguments pass the checks, with the code that it makes for
  each method. -/
  | namedtuple (name : String) (fields : List String) (defaults : O) (made : String → P×B)
  /-- A marker class of the library, such as `functools.CmpKey`, is needed. -/
  | marker (name : String)
  /-- `C.attr = v`. -/
  | setClassAttr (cls attr : String) (v : Value P O)

/-- A value that the program can hold: its function has been defined, its class recorded. -/
def State.holds (s : State P O B) : Value P O → Bool
  | .function f => (s.functionBodies f.key).isSome
  | .cls n => (s.classes n).isSome
  | .object n _ => (s.classes n).isSome
  | _ => true

def State.holdsBase (s : State P O B) : BaseExpr P O → Bool
  | .name _ resolved => resolved.all s.holds
  | .computed v => s.holds v

def typeBase : Value P O → Option (Option String)
  | .cls n => some (some n)
  | .exceptionType n => some (some n)
  | .type n => if n="object" ∨ n="type" then some none else none
  | _ => none

def typeBases : List (Value P O) → Option (List String)
  | [] => some []
  | v::vs => do
    let base ← typeBase v
    let bases ← typeBases vs
    return base.toList++bases

def attrTable : List (String×Value P O) → String → Option (Value P O)
  | [] => fun _ => none
  | (k,v)::rest => fun n => if n=k then some v else attrTable rest n

/-- The class that a call of `namedtuple` records. -/
def namedtupleClass (name : String) (fields : List String) (defaults : O) (made : String → P×B) :
    ClassValue P O :=
  {(ClassValue.new name : ClassValue P O) with
    methods := fun m => if m="__init__" ∨ m="_asdict" ∨ m="_replace" then
      some ⟨.member name m,(made m).1⟩ else none
    staticMethods := fun m => if m="_make" then some ⟨.member name m,(made m).1⟩ else none
    classAttrs := fun n => if n="_fields" ∨ n="__match_args__" then some (.strings fields)
      else if n="_field_defaults" then some (.other defaults) else none}

def State.cacheMembers (s : State P O B) (name : String) (made : String → P×B) :
    List String → State P O B
  | [] => s
  | m::ms => (s.cache (.member name m) (made m).2).cacheMembers name made ms

def namedtupleMembers : List String := ["__init__","_asdict","_make","_replace"]

def qualnameUnder (builds : List (Build P O)) (name : String) : String :=
  match builds with
  | [] => name
  | parent::_ => parent.qualname++"."++name

/-- `none` where the program cannot take the step; a step that raises leaves the state. -/
def step (s : State P O B) : Event P O B → Option (State P O B)
  | .openClass name bases metaclass =>
    if metaclass.all s.holds && bases.all s.holdsBase then
      match metaclassName metaclass,resolveBases s bases with
      | .ok kind,.ok bases =>
        let metaclass := kind <|> inheritedMetaclass s bases
        some {s with builds := .new name bases metaclass (qualnameUnder s.builds name)::s.builds}
      | _,_ => some s
    else none
  | .defMethod name decoration data body =>
    match s.builds with
    | [] => none
    | b::builds =>
      let key := BodyKey.member b.name (decoration.rest name)
      match b.classify name ⟨key,data⟩ decoration with
      | some b => some {(s.cache key body) with builds := b::builds}
      | none => some s
  | .bindAttr name v =>
    match s.builds with
    | [] => none
    | b::builds =>
      if s.holds v then
        let bound := {b with classAttrs := Function.update b.classAttrs name (some v)}
        some {s with builds := bound::builds}
      else none
  | .closeClass =>
    match s.builds with
    | [] => none
    | b::builds =>
      match Classes.buildMro b.name b.bases s.registry with
      | .ok mro => some (({s with builds := builds} : State P O B).register b.name (b.classValue mro))
      | .error _ => some {s with builds := builds}
  | .abandonClass =>
    match s.builds with
    | [] => none
    | _::builds => some {s with builds := builds}
  | .defFunction name _ body =>
    some {(s.cache (.function name s.nextCursor) body) with nextCursor := s.nextCursor+1}
  | .typeNew name bases attrs =>
    if attrs.all (fun kv => s.holds kv.2) then
      match typeBases bases with
      | none => some s
      | some bases =>
        match Classes.buildMro name bases s.registry with
        | .ok mro => some (s.register name {(ClassValue.new name : ClassValue P O) with
            classAttrs := attrTable attrs, bases := bases, mro := mro})
        | .error _ => some s
    else none
  | .namedtuple name fields defaults made =>
    some ((s.cacheMembers name made namedtupleMembers).register name
      (namedtupleClass name fields defaults made))
  | .marker name => some (if (s.classes name).isSome then s else s.register name (.new name))
  | .setClassAttr cls attr v =>
    if s.holds v then
      (s.classes cls).map fun c =>
        s.register cls {c with classAttrs := Function.update c.classAttrs attr (some v)}
    else none

def run (s : State P O B) : List (Event P O B) → Option (State P O B)
  | [] => some s
  | e::es => (step s e).bind fun s => run s es

/-- A namedtuple-shaped class of the library. -/
def seededClass (name : String) (fields : List String) : ClassValue P O :=
  {(ClassValue.new name : ClassValue P O) with
    classAttrs := fun n => if n="_fields" then some (.strings fields) else none}

def seeded : List (String×List String) :=
  [("time.struct_time",["tm_year","tm_mon","tm_mday","tm_hour","tm_min","tm_sec","tm_wday",
      "tm_yday","tm_isdst"]),
    ("datetime.IsoCalendarDate",["year","week","weekday"]),
    ("CacheInfo",["hits","misses","maxsize","currsize"]),
    ("DecimalTuple",["sign","digits","exponent"])]

/-- `InterpreterState::new`. -/
def initial : State P O B where
  classes n := (seeded.lookup n).map (seededClass n)
  functionBodies _ := none
  nextCursor := 0
  builds := []

end ClassTable
end InterpretThis
