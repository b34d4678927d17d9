import InterpretThis.Framework.Recorded
import InterpretThis.State.Import

namespace InterpretThis.Names

inductive Failure (E : Type) where
  | security (text : String)
  | runtime (text : String)
  | typeError (text : String)
  | valueError (text : String)
  | nameError (text : String)
  | limitExceeded
  | exception (typeName text : String)
  | foreign (e : E)
deriving DecidableEq

/-- The state of module code: no frame owns capture cells there. -/
structure ModuleState (V W : Type) where
  vars : String → Option V
  memoryUsed : Nat
  world : W

abbrev Binding (V W E α : Type) : Type := Recorded (ModuleState V W) (Failure E) String α

/-- An assignment target; `place` is an attribute or a subscript. -/
inductive Target (P : Type) where
  | name (id : String)
  | sequence (elts : List (Target P))
  | starred (value : Target P)
  | place (p : P)
  | unsupported

structure Alias where
  name : String
  asname : Option String

/-- What the constructs rely on. -/
structure Externals (P V W E : Type) where
  valueSize : V → Nat
  maxMemory : Nat
  iter : V → ModuleState V W → Except (Failure E) (List V)×ModuleState V W
  assignPlace : P → V → ModuleState V W → Except (Failure E) Unit×ModuleState V W
  sharedList : List V → V
  comprehensionItems : V → Option (List V)
  module : String → V
  abstractBase : String → V
  classObject : String → V
  moduleMember : String → String → Except (Failure E) V
  classRegistered : String → W → Bool
  ensureRegistered : String → ModuleState V W → Except (Failure E) Unit×ModuleState V W

def protectedBuiltins : List String :=
  ["print","len","range","str","int","float","bool","type","isinstance","issubclass","super",
    "hasattr","callable","abs","round","min","max","sum","all","any","sorted","enumerate","zip",
    "reversed","chr","ord","list","tuple","dict","set","filter","map","object"]

def knownModules : List String :=
  ["asyncio","math","cmath","bisect","calendar","array","operator","json","re","datetime",
    "statistics","collections","string","textwrap","base64","hashlib","heapq","itertools",
    "functools","typing","enum","dataclasses","decimal","fractions","copy","contextlib","abc","io",
    "sys","random","struct"]

def isKnownModule (name : String) : Bool := knownModules.contains name

def lastPart (name : String) : String := ((name.splitOn ".").getLast?).getD name

def isCollectionsAbc (name : String) : Bool :=
  ["Hashable","Iterable","Iterator","Reversible","Generator","Sized","Container","Callable",
    "Collection","Sequence","MutableSequence","ByteString","Set","MutableSet","Mapping",
    "MutableMapping","MappingView","KeysView","ItemsView","ValuesView"].contains (lastPart name)

def isUserCollection (name : String) : Bool := ["UserDict","UserList","UserString"].contains name

inductive NameContext where
  | access
  | functionDefinition
  | assignment

section Checks

variable {E : Type}

def validateName (ctx : NameContext) (name : String) : Except (Failure E) Unit :=
  if dangerousNames.contains name then
    .error (.security (match ctx with
      | .access => "access to '"++name++"' is not allowed"
      | .functionDefinition => "function name '"++name++"' is a dangerous builtin and not allowed"
      | .assignment => "cannot assign to dangerous name '"++name++"'"))
  else .ok ()

def eraseError (name : String) : Failure E :=
  .security ("cannot assign to name '"++name++"': doing this would erase the existing tool")

/-- The checks of `assign_target` on a bare name. -/
def checkAssigned (tools : String → Bool) (name : String) : Except (Failure E) Unit := do
  validateName .assignment name
  if tools name then .error (eraseError name)
  else if protectedBuiltins.contains name then .error (eraseError name)
  else .ok ()

/-- The checks of a `def` on its name. -/
def checkDefined (tools : String → Bool) (name : String) : Except (Failure E) Unit := do
  validateName .functionDefinition name
  if tools name then .error (.security ("'"++name++"' is not allowed to be overridden")) else .ok ()

def unchecked : String → Except (Failure E) Unit := fun _ => .ok ()

end Checks

section Constructs

variable {P V W E : Type} (x : Externals P V W E)

def usizeMax : Nat := 2^64-1

def insertVariable (name : String) (v : V) (s : ModuleState V W) : ModuleState V W :=
  {s with vars := Function.update s.vars name (some v)}

/-- `set_variable`: the value is stored, then the memory is checked. -/
def setVariable (name : String) (v : V) : Binding V W E Unit := fun s =>
  let freed := s.memoryUsed-((s.vars name).map x.valueSize).getD 0
  let used := min (freed+x.valueSize v) usizeMax
  (if x.maxMemory<used then .error .limitExceeded else .ok (),
    {insertVariable name v s with memoryUsed := used},[name])

/-- A checked binding of one name. -/
def bindName (check : String → Except (Failure E) Unit) (name : String) (v : V) :
    Binding V W E Unit := do
  Recorded.ofExcept (check name)
  setVariable x name v

def isStarred : Target P → Bool
  | .starred _ => true
  | _ => false

/-- The value each target of a sequence gets, the starred one a list of the rest. -/
def spread (elts : List (Target P)) (items : List V) : Except (Failure E) (List V) :=
  match elts.findIdx? isStarred with
  | some star =>
    if (elts.drop (star+1)).any isStarred then
      .error (.runtime "multiple starred expressions in assignment")
    else if items.length<elts.length-1 then
      .error (.valueError s!"not enough values to unpack (expected at least {elts.length-1}, got {items.length})")
    else
      let tail := elts.length-star-1
      .ok (items.take star++[x.sharedList ((items.drop star).take (items.length-tail-star))]++
        items.drop (items.length-tail))
  | none =>
    if items.length<elts.length then
      .error (.valueError s!"not enough values to unpack (expected {elts.length}, got {items.length})")
    else if elts.length < items.length then
      .error (.valueError s!"too many values to unpack (expected {elts.length})")
    else .ok items

mutual

def assignTarget (check : String → Except (Failure E) Unit) :
    Target P → V → Binding V W E Unit
  | .name id,v => bindName x check id v
  | .sequence elts,v => do
    let items ← Recorded.lift (x.iter v)
    let vs ← Recorded.ofExcept (spread x elts items)
    assignEach check elts vs
  | .place p,v => Recorded.lift (x.assignPlace p v)
  | .starred _,_ => Recorded.throw (.runtime "cannot assign to this expression")
  | .unsupported,_ => Recorded.throw (.runtime "cannot assign to this expression")

def assignEach (check : String → Except (Failure E) Unit) :
    List (Target P) → List V → Binding V W E Unit
  | .starred inner::ts,v::vs => do
    assignTarget check inner v
    assignEach check ts vs
  | t::ts,v::vs => do
    assignTarget check t v
    assignEach check ts vs
  | _,_ => pure ()

end

def assignTargets (check : String → Except (Failure E) Unit) (v : V) :
    List (Target P) → Binding V W E Unit
  | [] => pure ()
  | t::ts => do
    assignTarget x check t v
    assignTargets check v ts

/-- The target of a comprehension goes straight into the map. -/
def insertName (check : String → Except (Failure E) Unit) (name : String) (v : V) :
    Binding V W E Unit := do
  Recorded.ofExcept (check name)
  fun s => (.ok (),insertVariable name v s,[name])

mutual

def setComprehensionTarget (check : String → Except (Failure E) Unit) :
    Target P → V → Binding V W E Unit
  | .name id,v => insertName check id v
  | .sequence elts,v =>
    match x.comprehensionItems v with
    | none => Recorded.throw (.typeError "cannot unpack non-iterable value in comprehension")
    | some items =>
      if elts.length≠items.length then
        Recorded.throw (.runtime "cannot unpack tuple of wrong size in comprehension")
      else setComprehensionEach check elts items
  | _,_ => Recorded.throw (.runtime "unsupported comprehension target")

def setComprehensionEach (check : String → Except (Failure E) Unit) :
    List (Target P) → List V → Binding V W E Unit
  | t::ts,v::vs => do
    setComprehensionTarget check t v
    setComprehensionEach check ts vs
  | _,_ => pure ()

end

def Alias.bind (a : Alias) : String := a.asname.getD a.name

/-- The name `import m` binds: `import collections.abc` binds the package. -/
def Alias.moduleName (a : Alias) : String :=
  if a.name="collections.abc" then a.asname.getD "collections" else a.bind

def moduleNotFound (module : String) : Failure E :=
  .exception "ModuleNotFoundError" ("No module named '"++module++"'")

def importModule (check : String → Except (Failure E) Unit) (a : Alias) : Binding V W E Unit :=
  if a.name="collections.abc" then bindName x check a.moduleName (x.module a.name)
  else if !isKnownModule a.name then Recorded.throw (moduleNotFound a.name)
  else bindName x check a.moduleName (x.module a.name)

def evalImport (check : String → Except (Failure E) Unit) : List Alias → Binding V W E Unit
  | [] => pure ()
  | a::as => do
    importModule x check a
    evalImport check as

/-- `from collections import UserDict`: the class is registered first, from its own source. -/
def importUserCollection (check : String → Except (Failure E) Unit) (name bind : String) :
    Binding V W E Unit := do
  let newly ← Recorded.lift fun s => (.ok (!x.classRegistered name s.world),s)
  Recorded.lift (x.ensureRegistered name)
  bindName x check bind (x.classObject name)
  if newly ∧ bind≠name then
    Recorded.lift fun s => (.ok (),{s with vars := Function.update s.vars name none})
  else pure ()

def importMember (check : String → Except (Failure E) Unit) (module : String) (a : Alias) :
    Binding V W E Unit :=
  if module="collections.abc" then
    if !isCollectionsAbc a.name then
      Recorded.throw (.exception "ImportError"
        ("cannot import name '"++a.name++"' from 'collections.abc'"))
    else bindName x check a.bind (x.abstractBase a.name)
  else if a.name="*" then
    Recorded.throw (.security "`from module import *` is not supported")
  else if module="collections" ∧ isUserCollection a.name then
    importUserCollection x check a.name a.bind
  else do
    let v ← Recorded.ofExcept (x.moduleMember module a.name)
    bindName x check a.bind v

def importMembers (check : String → Except (Failure E) Unit) (module : String) :
    List Alias → Binding V W E Unit
  | [] => pure ()
  | a::as => do
    importMember x check module a
    importMembers check module as

def evalImportFrom (check : String → Except (Failure E) Unit) (relative : Bool) (module : String)
    (as : List Alias) : Binding V W E Unit :=
  if relative then Recorded.throw (.security "relative imports are not supported")
  else if module≠"collections.abc" ∧ !isKnownModule module then
    Recorded.throw (moduleNotFound module)
  else importMembers x check module as

def bindCaptures (check : String → Except (Failure E) Unit) :
    List (String×V) → Binding V W E Unit
  | [] => pure ()
  | b::bs => do
    bindName x check b.1 b.2
    bindCaptures check bs

/-- `name op= …` with the right-hand side and the operator as `combine`: the slot is written in
place and the growth is charged. -/
def augAssignName (check : String → Except (Failure E) Unit) (name : String)
    (combine : V → ModuleState V W → Except (Failure E) V×ModuleState V W) :
    Binding V W E Unit := do
  let current ← fun s => (((s.vars name).elim
    (.error (.nameError ("name '"++name++"' is not defined"))) .ok),s,[])
  let new ← Recorded.lift (combine current)
  let _ ← fun s => (((s.vars name).elim
    (.error (.nameError ("name '"++name++"' is not defined"))) fun _ => .ok ()),s,[])
  Recorded.ofExcept (check name)
  fun s =>
    let old := x.valueSize current
    let size := x.valueSize new
    let used := if old ≤ size then min (s.memoryUsed+(size-old)) usizeMax
      else s.memoryUsed-(old-size)
    (if old ≤ size ∧ x.maxMemory<used then .error .limitExceeded else .ok (),
      {insertVariable name new s with memoryUsed := used},[name])

end Constructs

/-- The arrival of a value at a binding construct; `build`, `finish` and `combine` run the user's
own code. -/
inductive Binder (P V W E : Type) where
  | assign (targets : List (Target P)) (v : V)
  | annAssign (target : Target P) (v : V)
  | augAssign (name : String)
      (combine : V → ModuleState V W → Except (Failure E) V×ModuleState V W)
  | forTarget (target : Target P) (item : V)
  | withTarget (target : Target P) (entered : V)
  | namedExpr (name : String) (v : V)
  | functionDef (name : String) (build : ModuleState V W → Except (Failure E) V×ModuleState V W)
  | classDef (name : String) (build : ModuleState V W → Except (Failure E) V×ModuleState V W)
      (finish : ModuleState V W → Except (Failure E) (Option V)×ModuleState V W)
  | importModules (aliases : List Alias)
  | importFrom (relative : Bool) (module : String) (aliases : List Alias)
  | exceptAs (name : String) (exc : V)
  | matchCaptures (bindings : List (String×V))
  | comprehensionTarget (target : Target P) (item : V)

mutual

def Target.names {P : Type} : Target P → List String
  | .name id => [id]
  | .sequence elts => Target.namesEach elts
  | .starred t => t.names
  | .place _ => []
  | .unsupported => []

def Target.namesEach {P : Type} : List (Target P) → List String
  | [] => []
  | t::ts => t.names++Target.namesEach ts

end

namespace Binder

variable {P V W E : Type}

/-- The names the construct binds, in the order it binds them. -/
def names : Binder P V W E → List String
  | assign targets _ => Target.namesEach targets
  | annAssign target _ => target.names
  | augAssign name _ => [name]
  | forTarget target _ => target.names
  | withTarget target _ => target.names
  | namedExpr name _ => [name]
  | functionDef name _ => [name]
  | classDef name _ _ => [name]
  | importModules aliases => aliases.map Alias.moduleName
  | importFrom _ _ aliases => aliases.map Alias.bind
  | exceptAs name _ => [name]
  | matchCaptures bindings => bindings.map Prod.fst
  | comprehensionTarget target _ => target.names

/-- The check each construct makes on a name. -/
def check (tools : String → Bool) : Binder P V W E → String → Except (Failure E) Unit
  | assign _ _ => checkAssigned tools
  | annAssign _ _ => checkAssigned tools
  | augAssign _ _ => unchecked
  | forTarget _ _ => checkAssigned tools
  | withTarget _ _ => checkAssigned tools
  | namedExpr _ _ => validateName .assignment
  | functionDef _ _ => checkDefined tools
  | classDef _ _ _ => validateName .assignment
  | importModules _ => unchecked
  | importFrom _ _ _ => unchecked
  | exceptAs _ _ => unchecked
  | matchCaptures _ => unchecked
  | comprehensionTarget _ _ => unchecked

def runWith (x : Externals P V W E) (check : String → Except (Failure E) Unit) :
    Binder P V W E → Binding V W E Unit
  | assign targets v => assignTargets x check v targets
  | annAssign target v => assignTarget x check target v
  | augAssign name combine => augAssignName x check name combine
  | forTarget target item => assignTarget x check target item
  | withTarget target entered => assignTarget x check target entered
  | namedExpr name v => bindName x check name v
  | functionDef name build => do
    Recorded.ofExcept (check name)
    let v ← Recorded.lift build
    setVariable x name v
  | classDef name build finish => do
    Recorded.ofExcept (check name)
    let v ← Recorded.lift build
    setVariable x name v
    match ← Recorded.lift finish with
    | none => pure ()
    | some w => setVariable x name w
  | importModules aliases => evalImport x check aliases
  | importFrom relative module aliases => evalImportFrom x check relative module aliases
  | exceptAs name exc => bindName x check name exc
  | matchCaptures bindings => bindCaptures x check bindings
  | comprehensionTarget target item => setComprehensionTarget x check target item

def run (x : Externals P V W E) (tools : String → Bool) (b : Binder P V W E) :
    Binding V W E Unit := b.runWith x (b.check tools)

/-- The names a construct refuses to bind. -/
def refuses (tools : String → Bool) : Binder P V W E → String → Bool
  | assign _ _,n => dangerousNames.contains n||tools n||protectedBuiltins.contains n
  | annAssign _ _,n => dangerousNames.contains n||tools n||protectedBuiltins.contains n
  | forTarget _ _,n => dangerousNames.contains n||tools n||protectedBuiltins.contains n
  | withTarget _ _,n => dangerousNames.contains n||tools n||protectedBuiltins.contains n
  | functionDef _ _,n => dangerousNames.contains n||tools n
  | classDef _ _ _,n => dangerousNames.contains n
  | namedExpr _ _,n => dangerousNames.contains n
  | augAssign _ _,_ => false
  | importModules _,_ => false
  | importFrom _ _ _,_ => false
  | exceptAs _ _,_ => false
  | matchCaptures _,_ => false
  | comprehensionTarget _ _,_ => false

end Binder

/-- The names that must not be rebound. -/
def Guarded (tools : String → Bool) (name : String) : Prop :=
  name∈protectedBuiltins ∨ tools name=true

/-- The computation ends in an error and binds no name. -/
def Binding.Refused {V W E α : Type} (m : Binding V W E α) (s : ModuleState V W) : Prop :=
  (∃e, m.result s=.error e) ∧ m.record s=[]

section Checks

variable {E : Type}

theorem validateName_error {ctx : NameContext} {name : String} :
    (∃e, validateName (E := E) ctx name=.error e) ↔ dangerousNames.contains name=true := by
  unfold validateName
  split_ifs with h
  · simpa using h
  · simpa using h

theorem validateName_error_or {ctx : NameContext} {name : String}
    {rest : Except (Failure E) Unit} :
    (∃e, (do validateName ctx name; rest)=Except.error e) ↔
      dangerousNames.contains name=true ∨ ∃e, rest=.error e := by
  cases hv : validateName (E := E) ctx name with
  | error e =>
    have hd := validateName_error.mp ⟨e,hv⟩
    constructor
    · intro _
      exact Or.inl hd
    · intro _
      exact ⟨e,rfl⟩
  | ok u =>
    have hd : ¬dangerousNames.contains name=true := by
      intro h
      obtain ⟨e,he⟩ := validateName_error.mpr h
      rw [hv] at he
      cases he
    constructor
    · intro h
      exact Or.inr h
    · rintro (h | h)
      · exact absurd h hd
      · exact h

theorem checkAssigned_error {tools : String → Bool} {name : String} :
    (∃e, checkAssigned (E := E) tools name=.error e) ↔
      (dangerousNames.contains name||tools name||protectedBuiltins.contains name)=true := by
  have hrest : (∃e, (if tools name then Except.error (eraseError (E := E) name)
      else if protectedBuiltins.contains name then .error (eraseError name) else .ok ())=.error e) ↔
      tools name=true ∨ protectedBuiltins.contains name=true := by
    split_ifs with ht hp <;> simp [ht]
    · exact List.contains_iff_mem.mp hp
    · intro h
      exact hp (List.contains_iff_mem.mpr h)
  rw [checkAssigned,validateName_error_or,hrest]
  simp [or_assoc]

theorem checkDefined_error {tools : String → Bool} {name : String} :
    (∃e, checkDefined (E := E) tools name=.error e) ↔
      (dangerousNames.contains name||tools name)=true := by
  rw [checkDefined,validateName_error_or]
  split_ifs with ht <;> simp [ht]

end Checks

theorem Binder.check_error {P V W E : Type} (tools : String → Bool) (b : Binder P V W E)
    (name : String) : (∃e, b.check tools name=.error e) ↔ b.refuses tools name=true := by
  cases b with
  | assign => exact checkAssigned_error
  | annAssign => exact checkAssigned_error
  | forTarget => exact checkAssigned_error
  | withTarget => exact checkAssigned_error
  | functionDef => exact checkDefined_error
  | classDef =>
    have h : (∃e : Failure E, validateName .assignment name=.error e) ↔ _ := validateName_error
    exact h
  | namedExpr =>
    have h : (∃e : Failure E, validateName .assignment name=.error e) ↔ _ := validateName_error
    exact h
  | _ => simp [Binder.check,Binder.refuses,unchecked]

end InterpretThis.Names
