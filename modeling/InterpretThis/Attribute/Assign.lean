import InterpretThis.Attribute.Place
import Mathlib.Algebra.Group.Int.Defs
import Mathlib.Algebra.Group.Nat.Defs

namespace InterpretThis.Attribute

section Semantics

variable {K L : Type} [DecidableEq K] (x : Externals K L)

def usizeMax : Nat := 2^64-1

def toIsize (n : Nat) : Int := min n (2^63-1)

def sizeDelta (old new : Nat) : Int := toIsize new-toIsize old

def memoryError (s : InterpreterState K) : EvalError :=
  ⟨.limitExceeded,s!"memory usage ({s.memoryUsedBytes} bytes) exceeds limit ({x.maxMemoryBytes} bytes)"⟩

def checkMemory : Eval K L Unit := fun s =>
  ⟨if min x.maxMemoryBytes usizeMax<s.memoryUsedBytes then .error (memoryError x s) else .ok (),s,[]⟩

/-- `apply_mem_delta`: growth is checked against the limit. -/
def applyMemDelta (delta : Int) : Eval K L Unit :=
  if 0 ≤ delta then do
    Eval.modify fun s => {s with memoryUsedBytes := min (s.memoryUsedBytes+delta.toNat) usizeMax}
    checkMemory x
  else Eval.modify fun s => {s with memoryUsedBytes := s.memoryUsedBytes-(-delta).toNat}

def setVariable (name : String) (v : Val K) : Eval K L Unit := do
  Eval.modify fun s =>
    let freed := s.memoryUsedBytes-(match s.vars name with
      | some old => x.valueSize old
      | none => 0)
    {s.setVar name v with memoryUsedBytes := min (freed+x.valueSize v) usizeMax}
  checkMemory x

def callMethod (method : String) (self : Val K) (args : List (Val K)) : Eval K L (Val K×Val K) :=
  fun s => ⟨(x.callMethod method self args s).1,(x.callMethod method self args s).2,[.call method]⟩

/-- The entry of a defaultdict that is not there yet, with its factory. -/
def missingEntry (k : K) (v : Val K) (s : InterpreterState K) :
    Except EvalError (Option Nat)×Val K×InterpreterState K :=
  match v with
  | .defaultDict factory items => (.ok (if (items k).isNone then some factory else none),v,s)
  | _ => (.ok none,v,s)

def enterDefault (k : K) (synth : Val K) (v : Val K) (s : InterpreterState K) :
    Except EvalError Int×Val K×InterpreterState K :=
  match v with
  | .defaultDict factory items => (.ok (toIsize (x.keySize k+x.valueSize synth)),
      .defaultDict factory (Function.update items k (some synth)),s)
  | _ => (.ok 0,v,s)

/-- Enter the default of every defaultdict on the way to a target, to a depth of 16 subscripts. -/
def pretouchDefaultdict (depth : Nat) : Expr L → Eval K L Unit
  | .subscript v i =>
    if 16<depth then pure ()
    else do
      pretouchDefaultdict (depth+1) v
      match ← evalPlace x v with
      | none => pure ()
      | some p =>
        if !p.isNavigable then pure ()
        else do
          let index ← leaf x i
          let key ← Eval.check (x.valueToKey index)
          match ← navigateRoot x (missingEntry key) p.root p.steps with
          | none => pure ()
          | some factory =>
            let synth ← Eval.lift (x.invokeFactory factory)
            let delta ← navigateRoot x (enterDefault x key synth) p.root p.steps
            applyMemDelta x delta
  | .slice v _ _ _ => if 16<depth then pure () else pretouchDefaultdict (depth+1) v
  | _ => pure ()

/-- Where an augmented assignment will store its result. -/
inductive Store (K : Type) where
  | classAttr (className attr : String) (v : Val K)
  | functionAttr (key attr : String) (v : Val K)
  | slot (p : Place K) (oldSize : Nat) (v : Val K)
  | slice (root : String) (steps : List (PlaceStep K))
      (spec : Option (Val K)×Option (Val K)×Option (Val K)) (v : Val K)

/-- The class that the base of an attribute target evaluates to. -/
def baseClass : Expr L → Eval K L (Option String)
  | .name id => do
    let s ← Eval.get
    pure ((s.vars id).bind Val.className)
  | v => do
    let obj ← evalExpr x v
    pure obj.className

/-- The right-hand side and the operation. -/
def combine (op : String) (current : Val K) (rhs : L) : Eval K L (Val K) := do
  let r ← leaf x rhs
  Eval.lift (x.augBinop op current r)

/-- Read the slice that a place ends in, and combine it with the right-hand side. -/
def resolveSlice (op : String) (p : Place K) (spec : Option (Val K)×Option (Val K)×Option (Val K))
    (rhs : L) : Eval K L (Store K) :=
  if !p.parent.isNavigable then
    Eval.throw .runtime "augmented assignment to a nested slice target is not supported (see CONFORMANCE.md#unsupported-language-features)"
  else do
    let parent ← navigateRoot x readSlot p.root p.parent.steps
    let s ← Eval.get
    let current ← Eval.check (x.getSlice parent spec.1 spec.2.1 spec.2.2 s)
    let v ← combine x op current rhs
    pure (.slice p.root p.parent.steps spec v)

def resolveSlot (op : String) (p : Place K) (rhs : L) : Eval K L (Store K) :=
  if !p.isNavigable then
    Eval.throw .runtime "augmented assignment to a slice target is not supported (see CONFORMANCE.md#unsupported-language-features)"
  else do
    let current ← navigateRoot x readSlot p.root p.steps
    let v ← combine x op current rhs
    pure (.slot p (x.valueSize current) v)

def resolveEnd (op : String) (p : Place K) (rhs : L) : Eval K L (Store K) :=
  match p.lastSlice with
  | some spec => resolveSlice x op p spec rhs
  | none => resolveSlot x op p rhs

/-- The part of `eval_aug_assign` that goes through the place of the target. -/
def resolvePlace (op : String) (target : Expr L) (rhs : L) : Eval K L (Store K) := do
  pretouchDefaultdict x 0 target
  match ← evalPlace x target with
  | none => Eval.throw .runtime "unsupported augmented assignment target (see CONFORMANCE.md#unsupported-language-features)"
  | some p => resolveEnd x op p rhs

/-- The value that the class registry holds for the target. -/
def classEntry (s : InterpreterState K) (base : Option String) (attr : String) :
    Option (String×Val K) :=
  base.bind fun c => (s.classAttr c attr).map fun current => (c,current)

/-- The value that a function of that name holds for the target. -/
def functionEntry (s : InterpreterState K) (v : Expr L) (attr : String) : Option (String×Val K) :=
  match v with
  | .name id => match s.vars id with
    | some (.function key) => (s.functionAttrs key attr).map fun current => (key,current)
    | _ => none
  | _ => none

/-- The evaluations of `eval_aug_assign`: class attributes first, then function attributes, then
the place. -/
def resolveAugAssign (op : String) (target : Expr L) (rhs : L) : Eval K L (Store K) :=
  match target with
  | .attr v attr => do
    let base ← baseClass x v
    let s ← Eval.get
    match classEntry s base attr with
    | some (c,current) =>
      let new ← combine x op current rhs
      pure (.classAttr c attr new)
    | none =>
      match functionEntry s v attr with
      | some (key,current) =>
        let new ← combine x op current rhs
        pure (.functionAttr key attr new)
      | none => resolvePlace x op target rhs
  | _ => resolvePlace x op target rhs

def writeSlot (oldSize : Nat) (new : Val K) (_ : Val K) (s : InterpreterState K) :
    Except EvalError Int×Val K×InterpreterState K :=
  (.ok (sizeDelta oldSize (x.valueSize new)),new,s)

def writeSlice (spec : Option (Val K)×Option (Val K)×Option (Val K)) (new : Val K) (parent : Val K)
    (s : InterpreterState K) : Except EvalError Int×Val K×InterpreterState K :=
  ((x.setSlice parent spec new s).1,parent,(x.setSlice parent spec new s).2)

def commit : Store K → Eval K L Unit
  | .classAttr c attr v => Eval.modify fun s => match s.classes c with
    | some cls => s.setClassAttr c cls attr v
    | none => s
  | .functionAttr key attr v => Eval.modify fun s => s.setFunctionAttr key attr v
  | .slot p oldSize v => do
    let delta ← navigateRoot x (writeSlot x oldSize v) p.root p.steps
    applyMemDelta x delta
  | .slice root steps spec v => do
    let delta ← navigateRoot x (writeSlice x spec v) root steps
    applyMemDelta x delta

def evalAugAssign (op : String) (target : Expr L) (rhs : L) : Eval K L Unit := do
  let store ← resolveAugAssign x op target rhs
  commit x store

def frozenError (attr : String) : EvalError := ⟨.frozenInstance,s!"cannot assign to field '{attr}'"⟩

def isFrozen (s : InterpreterState K) (className : String) : Bool :=
  match s.classes className with
  | some c => c.frozen
  | none => false

/-- The allowlist of `__slots__` and of `@dataclass(slots=True)`. -/
def slotAllowed (s : InterpreterState K) (className attr : String) : Bool :=
  match s.classes className with
  | some c => !c.slots||c.slotNames.contains attr||(match c.dataclassFields with
    | some fs => fs.contains attr
    | none => false)
  | none => true

def contextClass : String := "decimal.Context"

/-- The precision of a decimal context that was written. -/
def syncPrec (className attr : String) (v : Val K) : Eval K L Unit := Eval.modify fun s =>
  if attr=="prec"&&className==contextClass then
    match v with
    | .int n => if 1 ≤ n then {s with decimalPrec := n} else s
    | _ => s
  else s

/-- An attribute store on a receiver that is no bare name. -/
def assignComputed (obj : Val K) (attr : String) (v : Val K) : Eval K L Unit :=
  match obj with
  | .userInstance i => do
    let s ← Eval.get
    let className := (s.instances i).className
    if isFrozen s className then Eval.check (.error (frozenError attr))
    else do
      Eval.modify fun s => s.setField i attr v
      syncPrec className attr v
  | _ => Eval.throw .runtime "cannot assign to this expression"

/-- The growth of an instance by a field that is written. -/
def fieldDelta (s : InterpreterState K) (i : Nat) (attr : String) (new : Val K) : Int :=
  match (s.instances i).fields attr with
  | some old => sizeDelta (x.valueSize old) (x.valueSize new)
  | none => toIsize (attr.utf8ByteSize+x.valueSize new)

/-- `set_attr`, the terminal write of a place. -/
def setAttr (attr : String) (new : Val K) (container : Val K) (s : InterpreterState K) :
    Except EvalError Int×Val K×InterpreterState K :=
  match validateAttribute attr with
  | .error e => (.error e,container,s)
  | .ok () => match container with
    | .userInstance i => (.ok (fieldDelta x s i attr new),container,s.setField i attr new)
    | v => (.error ⟨.attributeError,s!"'{v.typeName}' object has no attribute '{attr}'"⟩,container,s)

/-- The place machinery for `name.attr = v`. -/
def assignThroughPlace (name attr : String) (v : Val K) : Eval K L Unit := do
  match ← evalPlace x (.attr (.name name) attr) with
  | none => Eval.throw .runtime "cannot assign to this expression"
  | some p =>
    let delta ← navigateRoot x (setAttr x attr v) p.root p.parent.steps
    applyMemDelta x delta
    let s ← Eval.get
    match s.vars p.root with
    | some (.userInstance i) => syncPrec (s.instances i).className attr v
    | _ => pure ()

/-- What a class puts in the place of a plain field store. -/
inductive Hook where
  | descriptor (desc : Nat) (setMethod : String)
  | property (setter : Option String)
  | setattr (method : String)

def findHook (s : InterpreterState K) (className attr : String) : Option Hook :=
  match descriptor s className attr with
  | some h => some h
  | none => match s.lookupProperty className attr with
    | some prop => some (.property prop.setter)
    | none => (s.lookupMethodInMro className "__setattr__").map .setattr
where
  descriptor (s : InterpreterState K) (className attr : String) : Option Hook :=
    (s.lookupClassAttrInstance className attr).bind fun d =>
      (s.lookupMethodInMro (s.instances d).className "__set__").map fun m => .descriptor d m

def runHook (name : String) (obj : Val K) (className attr : String) (v : Val K) : Hook → Eval K L Unit
  | .descriptor d m => do
    let _ ← callMethod x m (.userInstance d) [obj,v]
    pure ()
  | .property (some setter) => do
    let r ← callMethod x setter obj [v]
    setVariable x name r.2
  | .property none =>
    Eval.throw .attributeError s!"property '{attr}' of '{className}' object has no setter"
  | .setattr m => do
    let r ← callMethod x m obj [.str attr,v]
    setVariable x name r.2

/-- An attribute store on a bare name that holds an instance. -/
def assignInstance (name : String) (i : Nat) (attr : String) (v : Val K) : Eval K L Unit := do
  let s ← Eval.get
  let className := (s.instances i).className
  if isFrozen s className then Eval.check (.error (frozenError attr))
  else if !slotAllowed s className attr then
    Eval.throw .attributeError s!"'{className}' object has no attribute '{attr}'"
  else match findHook s className attr with
    | some h => runHook x name (.userInstance i) className attr v h
    | none => assignThroughPlace x name attr v

def assignNamed (name attr : String) (v : Val K) : Eval K L Unit := do
  let s ← Eval.get
  match s.vars name with
  | some (.userInstance i) => assignInstance x name i attr v
  | some (.cls c) => match s.classes c with
    | some cls => Eval.modify fun s => s.setClassAttr c cls attr v
    | none => assignThroughPlace x name attr v
  | some (.function key) => Eval.modify fun s => s.setFunctionAttr key attr v
  | some (.exception typeName fields) => do
    Eval.check (validateAttribute attr)
    Eval.modify fun s => s.setVar name (.exception typeName (Function.update fields attr (some v)))
  | _ => assignThroughPlace x name attr v

/-- `assign_target` on an attribute target. -/
def assignAttribute (receiver : Expr L) (attr : String) (v : Val K) : Eval K L Unit :=
  match receiver with
  | .name name => assignNamed x name attr v
  | r => do
    let obj ← evalExpr x r
    assignComputed obj attr v

/-- A target of an assignment, a `for` or a `with`. Name and subscript targets stand as labels. -/
inductive Target (L : Type) where
  | attr (receiver : Expr L) (name : String)
  | other (l : L)
  | unpack (elts : List (Target L))
  | unpackStar (head : List (Target L)) (star : Target L) (tail : List (Target L))

def tooFew (expected got : Nat) : EvalError :=
  ⟨.valueError,s!"not enough values to unpack (expected {expected}, got {got})"⟩

def tooFewForStar (expected got : Nat) : EvalError :=
  ⟨.valueError,s!"not enough values to unpack (expected at least {expected}, got {got})"⟩

def tooMany (expected : Nat) : EvalError :=
  ⟨.valueError,s!"too many values to unpack (expected {expected})"⟩

def newList (items : List (Val K)) : Eval K L (Val K) := fun s =>
  ⟨.ok (x.sharedList items s).1,(x.sharedList items s).2,[]⟩

mutual

def assignTarget (store : L → Val K → Eval K L Unit) : Target L → Val K → Eval K L Unit
  | .attr r attr,v => assignAttribute x r attr v
  | .other l,v => store l v
  | .unpack elts,v => do
    let items ← Eval.lift (x.iterate v)
    if items.length<elts.length then Eval.check (.error (tooFew elts.length items.length))
    else if elts.length < items.length then Eval.check (.error (tooMany elts.length))
    else assignEach store elts items
  | .unpackStar head star tail,v => do
    let items ← Eval.lift (x.iterate v)
    if items.length<head.length+tail.length then
      Eval.check (.error (tooFewForStar (head.length+tail.length) items.length))
    else do
      assignEach store head items
      let rest ← newList x ((items.drop head.length).take (items.length-head.length-tail.length))
      assignTarget store star rest
      assignEach store tail (items.drop (items.length-tail.length))

def assignEach (store : L → Val K → Eval K L Unit) : List (Target L) → List (Val K) → Eval K L Unit
  | t::ts,v::vs => do
    assignTarget store t v
    assignEach store ts vs
  | _,_ => pure ()

end

/-- The methods of a class that stand in for the removal of a field. -/
def deleteInstance (name : String) (i : Nat) (attr : String) : Eval K L Unit := do
  let s ← Eval.get
  let className := (s.instances i).className
  match (s.lookupClassAttrInstance className attr).bind fun d =>
      (s.lookupMethodInMro (s.instances d).className "__delete__").map fun m => (d,m) with
  | some (d,m) => do
    let _ ← callMethod x m (.userInstance d) [.userInstance i]
    pure ()
  | none => match s.lookupProperty className attr with
    | some prop => match prop.deleter with
      | some deleter => do
        let r ← callMethod x deleter (.userInstance i) []
        setVariable x name r.2
      | none =>
        Eval.throw .attributeError s!"property '{attr}' of '{className}' object has no deleter"
    | none => match s.lookupMethodInMro className "__delattr__" with
      | some m => do
        let r ← callMethod x m (.userInstance i) [.str attr]
        setVariable x name r.2
      | none => match (s.instances i).fields attr with
        | some _ => Eval.modify fun s => s.removeField i attr
        | none => Eval.throw .attributeError s!"'{className}' object has no attribute '{attr}'"

def dropField (attr : String) (parent : Val K) (s : InterpreterState K) :
    Except EvalError Unit×Val K×InterpreterState K :=
  match parent with
  | .userInstance i => match (s.instances i).fields attr with
    | some _ => (.ok (),parent,s.removeField i attr)
    | none => (.error ⟨.attributeError,
        s!"'{(s.instances i).className}' object has no attribute '{attr}'"⟩,parent,s)
  | v => (.error ⟨.attributeError,s!"'{v.typeName}' object attribute deletion not supported"⟩,parent,s)

def deleteThroughPlace (receiver : Expr L) (attr : String) : Eval K L Unit := do
  let unsupported := "complex delete attribute target not supported (see CONFORMANCE.md#unsupported-language-features)"
  match ← evalPlace x (.attr receiver attr) with
  | none => Eval.throw .runtime unsupported
  | some p =>
    if !p.isNavigable then Eval.throw .runtime unsupported
    else navigateRoot x (dropField attr) p.root p.parent.steps

/-- `delete_target` on an attribute target. -/
def deleteAttribute (receiver : Expr L) (attr : String) : Eval K L Unit := do
  Eval.check (validateAttribute attr)
  match receiver with
  | .name name => do
    let s ← Eval.get
    match s.vars name with
    | none => Eval.throw .nameError s!"name '{name}' is not defined"
    | some (.userInstance i) => deleteInstance x name i attr
    | some _ => deleteThroughPlace x receiver attr
  | _ => deleteThroughPlace x receiver attr

end Semantics

end InterpretThis.Attribute
