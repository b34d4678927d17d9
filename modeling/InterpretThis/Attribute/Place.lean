import Mathlib.Data.List.Basic
import Mathlib.Logic.Function.Basic

namespace InterpretThis.Attribute

inductive ErrorKind where
  | security
  | attributeError
  | typeError
  | indexError
  | keyError
  | nameError
  | valueError
  | runtime
  | limitExceeded
  | frozenInstance
  | user
  deriving DecidableEq, Repr

structure EvalError where
  kind : ErrorKind
  message : String
  deriving DecidableEq, Repr

/-- The values that assignment targets run into. Lists, dicts and instances are shared handles, the
other containers hold their contents inline. `K` is the type of hashed keys. -/
inductive Val (K : Type) where
  | none
  | bool (b : Bool)
  | int (i : Int)
  | str (s : String)
  | range (start stop step : Int)
  | slice (start stop step : Val K)
  | tuple (items : List (Val K))
  | list (addr : Nat)
  | dict (addr : Nat)
  | orderedDict (addr : Nat)
  | defaultDict (factory : Nat) (items : K → Option (Val K))
  | counter (items : K → Option (Val K))
  | deque (items : List (Val K))
  | userInstance (addr : Nat)
  | cls (name : String)
  | function (bodyKey : String)
  | exception (typeName : String) (fields : String → Option (Val K))
  | other (typeName : String) (id : Nat)

namespace Val

variable {K : Type}

def typeName : Val K → String
  | none => "NoneType"
  | bool _ => "bool"
  | int _ => "int"
  | str _ => "str"
  | range .. => "range"
  | slice .. => "slice"
  | tuple _ => "tuple"
  | list _ => "list"
  | dict _ => "dict"
  | orderedDict _ => "OrderedDict"
  | defaultDict .. => "defaultdict"
  | counter _ => "Counter"
  | deque _ => "deque"
  | userInstance _ => "object"
  | cls _ => "type"
  | function _ => "function"
  | exception n _ => n
  | other n _ => n

/-- The containers that a static subscript of a bare name reads without cloning them; `bytes` is kept
under its type's name. -/
def isBorrowed : Val K → Bool
  | dict _ => true
  | list _ => true
  | tuple _ => true
  | str _ => true
  | range .. => true
  | other n _ => n=="bytes"
  | _ => false

def className : Val K → Option String
  | cls n => some n
  | _ => Option.none

def isInstanceOrSlice : Val K → Bool
  | userInstance _ => true
  | slice .. => true
  | _ => false

end Val

structure PropertyDef where
  setter : Option String
  deleter : Option String

/-- The part of `ClassValue` that attribute stores consult. Methods are named by their body key. -/
structure ClassValue (K : Type) where
  frozen : Bool
  slots : Bool
  slotNames : List String
  dataclassFields : Option (List String)
  classAttrs : String → Option (Val K)
  properties : String → Option PropertyDef
  methods : String → Option String
  mro : List String

structure InstanceValue (K : Type) where
  className : String
  fields : String → Option (Val K)

structure InterpreterState (K : Type) where
  vars : String → Option (Val K)
  classes : String → Option (ClassValue K)
  functionAttrs : String → String → Option (Val K)
  instances : Nat → InstanceValue K
  lists : Nat → List (Val K)
  dicts : Nat → K → Option (Val K)
  memoryUsedBytes : Nat
  decimalPrec : Int

/-- The maps that an attribute store writes. -/
structure AttributeMaps (K : Type) where
  fields : Nat → String → Option (Val K)
  classAttrs : String → Option (String → Option (Val K))
  functionAttrs : String → String → Option (Val K)

namespace InterpreterState

variable {K : Type}

def maps (s : InterpreterState K) : AttributeMaps K :=
  ⟨fun i => (s.instances i).fields,fun c => (s.classes c).map (·.classAttrs),s.functionAttrs⟩

def setVar (s : InterpreterState K) (name : String) (v : Val K) : InterpreterState K :=
  {s with vars := Function.update s.vars name (some v)}

def setField (s : InterpreterState K) (i : Nat) (attr : String) (v : Val K) : InterpreterState K :=
  let ob := s.instances i
  {s with instances := Function.update s.instances i
            {ob with fields := Function.update ob.fields attr (some v)}}

def setClassAttr (s : InterpreterState K) (c : String) (cls : ClassValue K) (attr : String)
    (v : Val K) : InterpreterState K :=
  {s with classes := Function.update s.classes c
            (some {cls with classAttrs := Function.update cls.classAttrs attr (some v)})}

def setFunctionAttr (s : InterpreterState K) (key attr : String) (v : Val K) :
    InterpreterState K :=
  {s with functionAttrs := Function.update s.functionAttrs key
            (Function.update (s.functionAttrs key) attr (some v))}

def removeField (s : InterpreterState K) (i : Nat) (attr : String) : InterpreterState K :=
  let ob := s.instances i
  {s with instances := Function.update s.instances i
            {ob with fields := Function.update ob.fields attr none}}

/-- The first ancestor of a class for which the lookup succeeds. -/
def walkMro {α : Type} (s : InterpreterState K) (className : String)
    (look : ClassValue K → Option α) : Option α :=
  (s.classes className).bind fun c => c.mro.findSome? fun anc => (s.classes anc).bind look

/-- The class attribute that is an instance, with its class. -/
def lookupClassAttrInstance (s : InterpreterState K) (className attr : String) : Option Nat :=
  s.walkMro className fun c => match c.classAttrs attr with
    | some (.userInstance i) => some i
    | _ => none

def lookupProperty (s : InterpreterState K) (className attr : String) : Option PropertyDef :=
  s.walkMro className fun c => c.properties attr

def lookupMethodInMro (s : InterpreterState K) (className method : String) : Option String :=
  s.walkMro className fun c => c.methods method

/-- The value of a class attribute, its own or an inherited one. -/
def classAttr (s : InterpreterState K) (className attr : String) : Option (Val K) :=
  (s.classes className).bind fun c => (c.classAttrs attr).orElse fun _ =>
    c.mro.findSome? fun anc => (s.classes anc).bind fun a => a.classAttrs attr

end InterpreterState

def blockedAttributes : List String :=
  ["__class__","__globals__","__code__","__closure__","__dict__","__subclasses__","__bases__",
    "__mro__","__builtins__","__spec__","__loader__"]

def validateAttribute (attr : String) : Except EvalError Unit :=
  if attr ∈ blockedAttributes then
    .error ⟨.security,s!"access to '{attr}' is not permitted for security reasons"⟩
  else .ok ()

def isObjectAttr (attr : String) : Bool := attr=="__class__"

theorem validateAttribute_ok_iff (attr : String) :
    validateAttribute attr=.ok () ↔ attr ∉ blockedAttributes := by
  unfold validateAttribute
  split <;> simp_all

theorem validateAttribute_error_of_mem {attr : String} (h : attr ∈ blockedAttributes) :
    ∃e, validateAttribute attr=.error e := by
  simp [validateAttribute,h]

/-- A target or receiver expression. Sub-expressions of other forms stand as labels. -/
inductive Expr (L : Type) where
  | name (id : String)
  | attr (value : Expr L) (name : String)
  | subscript (value : Expr L) (index : L)
  | slice (value : Expr L) (lower upper step : Option L)
  | other (l : L)
  deriving DecidableEq

namespace Expr

variable {L : Type}

/-- A chain of subscripts and attributes rooted at a name. -/
def isChain : Expr L → Bool
  | name _ => true
  | attr v _ => v.isChain
  | subscript v _ => v.isChain
  | slice v _ _ _ => v.isChain
  | other _ => false

def bounds (lower upper step : Option L) : List L := lower.toList++upper.toList++step.toList

/-- The index and bound sub-expressions in source order. -/
def indices : Expr L → List L
  | name _ => []
  | attr v _ => v.indices
  | subscript v i => v.indices++[i]
  | slice v lower upper step => v.indices++bounds lower upper step
  | other _ => []

/-- The number of accessors. -/
def depth : Expr L → Nat
  | attr v _ => v.depth+1
  | subscript v _ => v.depth+1
  | slice v _ _ _ => v.depth+1
  | _ => 0

def isName : Expr L → Bool
  | name _ => true
  | _ => false

def isSubscript : Expr L → Bool
  | subscript .. => true
  | slice .. => true
  | _ => false

end Expr

/-- What an evaluation leaves in the record: an index sub-expression or a receiver that was
evaluated, or a user method that was called. -/
inductive Event (L : Type) where
  | eval (l : L)
  | receiver (e : Expr L)
  | call (method : String)
  deriving DecidableEq

namespace Event

variable {L : Type}

def label : Event L → Option L
  | eval l => some l
  | _ => none

def expr : Event L → Option (Expr L)
  | receiver e => some e
  | _ => none

end Event

structure Run (K L α : Type) where
  out : Except EvalError α
  state : InterpreterState K
  trace : List (Event L)

namespace Run

variable {K L α : Type}

def evaluated (r : Run K L α) : List L := r.trace.filterMap Event.label

def receivers (r : Run K L α) : List (Expr L) := r.trace.filterMap Event.expr

end Run

def Eval (K L α : Type) : Type := InterpreterState K → Run K L α

namespace Eval

variable {K L α β : Type}

def pure (a : α) : Eval K L α := fun s => ⟨.ok a,s,[]⟩

def bind (m : Eval K L α) (f : α → Eval K L β) : Eval K L β := fun s =>
  match (m s).out with
  | .ok a => ⟨(f a (m s).state).out,(f a (m s).state).state,(m s).trace++(f a (m s).state).trace⟩
  | .error e => ⟨.error e,(m s).state,(m s).trace⟩

instance : Monad (Eval K L) where
  pure := pure
  bind := bind

def lift (f : InterpreterState K → Except EvalError α×InterpreterState K) : Eval K L α := fun s =>
  ⟨(f s).1,(f s).2,[]⟩

def check (r : Except EvalError α) : Eval K L α := fun s => ⟨r,s,[]⟩

def throw (kind : ErrorKind) (message : String) : Eval K L α := check (.error ⟨kind,message⟩)

def note (e : Event L) : Eval K L Unit := fun s => ⟨.ok (),s,[e]⟩

def get : Eval K L (InterpreterState K) := fun s => ⟨.ok s,s,[]⟩

def modify (f : InterpreterState K → InterpreterState K) : Eval K L Unit := fun s => ⟨.ok (),f s,[]⟩

@[simp] theorem pure_apply (a : α) (s : InterpreterState K) :
    (Pure.pure a : Eval K L α) s=⟨.ok a,s,[]⟩ := rfl

@[simp] theorem check_apply (r : Except EvalError α) (s : InterpreterState K) :
    (check r : Eval K L α) s=⟨r,s,[]⟩ := rfl

@[simp] theorem throw_apply (kind : ErrorKind) (message : String) (s : InterpreterState K) :
    (throw kind message : Eval K L α) s=⟨.error ⟨kind,message⟩,s,[]⟩ := rfl

@[simp] theorem get_apply (s : InterpreterState K) : (get : Eval K L _) s=⟨.ok s,s,[]⟩ := rfl

@[simp] theorem modify_apply (f : InterpreterState K → InterpreterState K)
    (s : InterpreterState K) : (modify f : Eval K L Unit) s=⟨.ok (),f s,[]⟩ := rfl

@[simp] theorem get_bind (f : InterpreterState K → Eval K L β) (s : InterpreterState K) :
    (get>>=f) s=f s s := rfl

@[simp] theorem modify_bind (g : InterpreterState K → InterpreterState K) (f : Unit → Eval K L β)
    (s : InterpreterState K) : (modify g>>=f) s=f () (g s) := rfl

@[simp] theorem check_ok_bind (a : α) (f : α → Eval K L β) (s : InterpreterState K) :
    (check (.ok a)>>=f) s=f a s := rfl

@[simp] theorem check_error_bind (e : EvalError) (f : α → Eval K L β) (s : InterpreterState K) :
    (check (.error e)>>=f) s=⟨.error e,s,[]⟩ := rfl

theorem bind_of_ok {m : Eval K L α} {f : α → Eval K L β} {s : InterpreterState K} {a : α}
    (h : (m s).out=.ok a) : (m>>=f) s=⟨(f a (m s).state).out,(f a (m s).state).state,
      (m s).trace++(f a (m s).state).trace⟩ := by
  show bind m f s=_
  simp [bind,h]

theorem bind_of_error {m : Eval K L α} {f : α → Eval K L β} {s : InterpreterState K}
    {e : EvalError} (h : (m s).out=.error e) : (m>>=f) s=⟨.error e,(m s).state,(m s).trace⟩ := by
  show bind m f s=_
  simp [bind,h]

end Eval

/-- The parts of the interpreter that assignment targets call on. `evalLeaf` is `eval_expr` on a
sub-expression of the target, `evalGlobal` resolves a name that is no variable. -/
structure Externals (K L : Type) where
  valueToKey : Val K → Except EvalError K
  keyRepr : K → String
  keySize : K → Nat
  valueSize : Val K → Nat
  maxMemoryBytes : Nat
  evalLeaf : L → InterpreterState K → Except EvalError (Val K)×InterpreterState K
  evalGlobal : String → Except EvalError (Val K)
  sliceIsStatic : L → String → Bool
  /-- `op::getitem` with the intercepts of `eval_subscript`; the name is that of a bare receiver. -/
  getitem : Option String → Val K → Val K → InterpreterState K →
    Except EvalError (Val K)×InterpreterState K
  getSlice : Val K → Option (Val K) → Option (Val K) → Option (Val K) → InterpreterState K →
    Except EvalError (Val K)
  applySlice : Val K → Option (Val K) → Option (Val K) → Option (Val K) → InterpreterState K →
    Except EvalError (Val K)×InterpreterState K
  setSlice : Val K → Option (Val K)×Option (Val K)×Option (Val K) → Val K → InterpreterState K →
    Except EvalError Int×InterpreterState K
  getattr : Val K → String → InterpreterState K → Except EvalError (Val K)×InterpreterState K
  augBinop : String → Val K → Val K → InterpreterState K →
    Except EvalError (Val K)×InterpreterState K
  invokeFactory : Nat → InterpreterState K → Except EvalError (Val K)×InterpreterState K
  /-- The returned value and the value of `self` after the call. -/
  callMethod : String → Val K → List (Val K) → InterpreterState K →
    Except EvalError (Val K×Val K)×InterpreterState K
  /-- The items of an unpacked value. -/
  iterate : Val K → InterpreterState K → Except EvalError (List (Val K))×InterpreterState K
  sharedList : List (Val K) → InterpreterState K → Val K×InterpreterState K

inductive PlaceStep (K : Type) where
  | index (key : Val K)
  | slice (lower upper step : Option (Val K))
  | attr (name : String)

structure Place (K : Type) where
  root : String
  steps : List (PlaceStep K)

namespace Place

variable {K : Type}

def push (p : Place K) (step : PlaceStep K) : Place K := {p with steps := p.steps++[step]}

def isNavigable (p : Place K) : Bool := p.steps.all fun
  | .slice .. => false
  | _ => true

/-- The bounds of a place that ends in a slice. -/
def lastSlice (p : Place K) : Option (Option (Val K)×Option (Val K)×Option (Val K)) :=
  match p.steps.getLast? with
  | some (.slice lower upper step) => some (lower,upper,step)
  | _ => none

def parent (p : Place K) : Place K := {p with steps := p.steps.dropLast}

end Place

section Semantics

variable {K L : Type} [DecidableEq K] (x : Externals K L)

def leaf (l : L) : Eval K L (Val K) := fun s => ⟨(x.evalLeaf l s).1,(x.evalLeaf l s).2,[.eval l]⟩

def leafOpt : Option L → Eval K L (Option (Val K))
  | some l => do
    let v ← leaf x l
    pure (some v)
  | none => pure none

/-- A computed `slice()` object as an index is a slice step. -/
def stepOf : Val K → PlaceStep K
  | .slice lower upper step => .slice (bound lower) (bound upper) (bound step)
  | v => .index v
where
  bound : Val K → Option (Val K)
    | .none => none
    | v => some v

/-- Whether the base of an attribute is a name that holds a class. -/
def namesClass (s : InterpreterState K) : Expr L → Bool
  | .name id => match s.vars id with
    | some (.cls _) => true
    | _ => false
  | _ => false

def validateRead (attr : String) : Eval K L Unit :=
  Eval.check (if isObjectAttr attr then .ok () else validateAttribute attr)

def evalPlace : Expr L → Eval K L (Option (Place K))
  | .name id => pure (some ⟨id,[]⟩)
  | .subscript v i => do
    match ← evalPlace v with
    | none => pure none
    | some p =>
      let key ← leaf x i
      pure (some (p.push (stepOf key)))
  | .slice v lower upper step => do
    match ← evalPlace v with
    | none => pure none
    | some p =>
      let lo ← leafOpt x lower
      let up ← leafOpt x upper
      let st ← leafOpt x step
      pure (some (p.push (.slice lo up st)))
  | .attr v attr => do
    validateRead attr
    let s ← Eval.get
    if namesClass s v then pure none
    else match ← evalPlace v with
      | none => pure none
      | some p => pure (some (p.push (.attr attr)))
  | .other _ => pure none

def seqIndex (len : Nat) : Val K → Except EvalError Nat
  | .int i => inBounds i
  | .bool b => inBounds (if b then 1 else 0)
  | v => .error ⟨.typeError,s!"list indices must be integers or slices, not {v.typeName}"⟩
where
  inBounds (raw : Int) : Except EvalError Nat :=
    let i := if raw<0 then len+raw else raw
    if i<0 ∨ len ≤ i then .error ⟨.indexError,"list index out of range"⟩ else .ok i.toNat

/-- `nav_recurse`. The callback gets the slot and gives it back, the way back writes it into the
containers passed on the way; what a counter entered on the way stays when a later step fails. -/
def navigate {α : Type}
    (f : Val K → InterpreterState K → Except EvalError α×Val K×InterpreterState K) :
    List (PlaceStep K) → Val K → InterpreterState K → Except EvalError α×Val K×InterpreterState K
  | [],cur,s => f cur s
  | .index key::rest,cur,s =>
    match cur with
    | .list i =>
      match seqIndex (s.lists i).length key with
      | .error e => (.error e,cur,s)
      | .ok j =>
        let r := navigate f rest ((s.lists i).getD j .none) s
        (r.1,cur,{r.2.2 with lists := Function.update r.2.2.lists i ((r.2.2.lists i).set j r.2.1)})
    | .deque items =>
      match seqIndex items.length key with
      | .error e => (.error e,cur,s)
      | .ok j =>
        let r := navigate f rest (items.getD j .none) s
        (r.1,.deque (items.set j r.2.1),r.2.2)
    | .dict i | .orderedDict i =>
      match x.valueToKey key with
      | .error e => (.error e,cur,s)
      | .ok k => match s.dicts i k with
        | none => (.error ⟨.keyError,x.keyRepr k⟩,cur,s)
        | some v =>
          let r := navigate f rest v s
          (r.1,cur,setDict i k r.2.1 r.2.2)
    | .defaultDict factory items =>
      match x.valueToKey key with
      | .error e => (.error e,cur,s)
      | .ok k => match items k with
        | none => (.error ⟨.keyError,x.keyRepr k⟩,cur,s)
        | some v =>
          let r := navigate f rest v s
          (r.1,.defaultDict factory (Function.update items k (some r.2.1)),r.2.2)
    | .counter items =>
      match x.valueToKey key with
      | .error e => (.error e,cur,s)
      | .ok k =>
        let r := navigate f rest ((items k).getD (.int 0)) s
        (r.1,.counter (Function.update items k (some r.2.1)),r.2.2)
    | v => (.error ⟨.typeError,s!"'{v.typeName}' object is not subscriptable"⟩,cur,s)
  | .attr name::rest,cur,s =>
    match cur with
    | .dict i =>
      match x.valueToKey (.str name) with
      | .error e => (.error e,cur,s)
      | .ok k => match s.dicts i k with
        | none => (.error ⟨.attributeError,s!"'dict' object has no attribute '{name}'"⟩,cur,s)
        | some v =>
          let r := navigate f rest v s
          (r.1,cur,setDict i k r.2.1 r.2.2)
    | .userInstance i =>
      match (s.instances i).fields name with
      | none => (.error ⟨.attributeError,
          s!"'{(s.instances i).className}' object has no attribute '{name}'"⟩,cur,s)
      | some v =>
        let r := navigate f rest v s
        (r.1,cur,r.2.2.setField i name r.2.1)
    | v => (.error ⟨.attributeError,s!"'{v.typeName}' object has no attribute '{name}'"⟩,cur,s)
  | .slice ..::_,cur,s =>
    (.error ⟨.runtime,"a slice cannot be used as an intermediate assignment target"⟩,cur,s)
where
  setDict (i : Nat) (k : K) (v : Val K) (s : InterpreterState K) : InterpreterState K :=
    {s with dicts := Function.update s.dicts i (Function.update (s.dicts i) k (some v))}

/-- `with_navigate_mut` on a variable. -/
def navigateRoot {α : Type}
    (f : Val K → InterpreterState K → Except EvalError α×Val K×InterpreterState K) (root : String)
    (steps : List (PlaceStep K)) : Eval K L α := fun s =>
  match s.vars root with
  | none => ⟨.error ⟨.nameError,s!"name '{root}' is not defined"⟩,s,[]⟩
  | some v =>
    let r := navigate x f steps v s
    ⟨r.1,r.2.2.setVar root r.2.1,[]⟩

def readSlot (v : Val K) (s : InterpreterState K) : Except EvalError (Val K)×Val K×InterpreterState K :=
  (.ok v,v,s)

/-- The value of a receiver reached through its place, where it can be reached: the root is a copy,
so only shared storage keeps what the way there entered. -/
def peek : Option (Place K) → Eval K L (Option (Val K))
  | none => pure none
  | some p => fun s =>
    match s.vars p.root with
    | none => ⟨.ok none,s,[]⟩
    | some v =>
      if p.isNavigable then
        let r := navigate x readSlot p.steps v s
        ⟨.ok r.1.toOption,r.2.2,[]⟩
      else ⟨.ok none,s,[]⟩

def evalName (id : String) : Eval K L (Val K) := fun s =>
  match s.vars id with
  | some v => ⟨.ok v,s,[]⟩
  | none => ⟨x.evalGlobal id,s,[]⟩

/-- The container of a static subscript that is read in place. -/
def borrowed (id : String) (index : Val K) (s : InterpreterState K) : Option (Val K) :=
  match s.vars id with
  | some c => if c.isBorrowed&& !index.isInstanceOrSlice then some c else none
  | none => none

/-- A static subscript of a bare name reads its container in place; the index of any other
container is evaluated again. -/
def evalSubscriptOfName (id : String) (i : L) : Eval K L (Val K) := do
  if x.sliceIsStatic i id then
    let index ← leaf x i
    let s ← Eval.get
    match borrowed id index s with
    | some c => Eval.lift (x.getitem (some id) c index)
    | none => slow
  else slow
where
  slow : Eval K L (Val K) := do
    Eval.note (.receiver (.name id))
    let obj ← evalName x id
    let index ← leaf x i
    Eval.lift (x.getitem (some id) obj index)

def evalExpr : Expr L → Eval K L (Val K)
  | .name id => do
    Eval.note (.receiver (.name id))
    evalName x id
  | .other l => leaf x l
  | .subscript (.name id) i => do
    Eval.note (.receiver (.subscript (.name id) i))
    evalSubscriptOfName x id i
  | .subscript v i => do
    Eval.note (.receiver (.subscript v i))
    let obj ← evalExpr v
    let index ← leaf x i
    Eval.lift (x.getitem none obj index)
  | .slice v lower upper step => do
    Eval.note (.receiver (.slice v lower upper step))
    let obj ← evalExpr v
    let lo ← leafOpt x lower
    let up ← leafOpt x upper
    let st ← leafOpt x step
    Eval.lift (x.applySlice obj lo up st)
  | .attr v attr => do
    Eval.note (.receiver (.attr v attr))
    validateRead attr
    let p ← evalPlace x v
    match ← peek x p with
    | some obj => Eval.lift (x.getattr obj attr)
    | none =>
      let obj ← evalExpr v
      Eval.lift (x.getattr obj attr)

end Semantics

end InterpretThis.Attribute
