import InterpretThis.Framework.Route
import InterpretThis.Budget.Frame

namespace InterpretThis.Place

mutual

/-- A value as a variable or a slot holds it: the shared containers are handles. -/
inductive Value (K : Type) where
  | none
  | bool (b : Bool)
  | int (i : Int64)
  | bigInt (n : Int)
  | float (bits : UInt64)
  | string (s : String)
  | tuple (items : List (Value K))
  | list (addr : Nat)
  | dict (addr : Nat)
  | orderedDict (addr : Nat)
  | set (addr : Nat)
  | byteArray (addr : Nat)
  | userInstance (className : String) (fields : Nat)
  | deque (items : List (Value K))
  | defaultDict (items : List (K×Value K)) (factory : Value K)
  | counter (map : List (K×Value K))
  | classRef (name : String)
  | function (name : String)
  | boundMethod (receiver : BoundMethodReceiver K) (method : String)

inductive BoundMethodReceiver (K : Type) where
  | snapshot (value : Value K)
  | place (root : String) (steps : List (BoundMethodStep K))

inductive BoundMethodStep (K : Type) where
  | index (key : Value K)
  | attr (name : String)

end

inductive Body (K : Type) where
  | list (items : List (Value K))
  | dict (map : List (K×Value K))
  | set (items : List (Value K))
  | byteArray (bytes : List UInt8)
  | fields (fields : List (String×Value K))

/-- What a shared handle leads to. -/
structure Object (K : Type) where
  body : Body K
  sizeCache : Option Nat

abbrev Heap (K : Type) := List (Object K)

abbrev State (K : Type) := Budget.InterpreterState (Heap K) (Value K)

inductive Failure (K : Type) where
  | nameNotDefined (name : String)
  | typeError (message : String)
  | attributeError (message : String)
  | keyError (key : K)
  | indexError (what : String)
  | runtime (message : String)
  | limitExceeded
  | raised (message : String)

/-- The keys of mappings: how a value or a text becomes one, or fails to. -/
structure Keys (K : Type) where
  valueToKey : Value K → Except (Failure K) K
  ofString : String → K

inductive PlaceStep (K : Type) where
  | index (key : Value K)
  | slice (lower upper step : Option (Value K))
  | attr (name : String)

structure Place (K : Type) where
  root : String
  steps : List (PlaceStep K)

variable {K : Type}

namespace PlaceStep

def isSlice : PlaceStep K → Bool
  | .slice _ _ _ => true
  | _ => false

end PlaceStep

def Place.isNavigable (p : Place K) : Bool := p.steps.all fun s => !s.isSlice

def Value.typeName : Value K → String
  | .none => "NoneType"
  | .bool _ => "bool"
  | .int _ => "int"
  | .bigInt _ => "int"
  | .float _ => "float"
  | .string _ => "str"
  | .tuple _ => "tuple"
  | .list _ => "list"
  | .dict _ => "dict"
  | .orderedDict _ => "OrderedDict"
  | .set _ => "set"
  | .byteArray _ => "bytearray"
  | .userInstance className _ => className
  | .deque _ => "collections.deque"
  | .defaultDict _ _ => "collections.defaultdict"
  | .counter _ => "Counter"
  | .classRef _ => "type"
  | .function _ => "function"
  | .boundMethod _ _ => "builtin_function_or_method"

/-- The containers that are mutable, builtin and shared. -/
def Value.isContainer : Value K → Bool
  | .list _ => true
  | .dict _ => true
  | .set _ => true
  | .byteArray _ => true
  | _ => false

/-- The values whose contents lie in the slot that holds them. -/
def Value.isInline : Value K → Bool
  | .deque _ => true
  | .defaultDict _ _ => true
  | .counter _ => true
  | _ => false

namespace Heap

def body (h : Heap K) (a : Nat) : Body K :=
  match h[a]? with
  | some o => o.body
  | Option.none => .list []

def items (h : Heap K) (a : Nat) : List (Value K) :=
  match h.body a with
  | .list items => items
  | _ => []

def map (h : Heap K) (a : Nat) : List (K×Value K) :=
  match h.body a with
  | .dict map => map
  | _ => []

def fields (h : Heap K) (a : Nat) : List (String×Value K) :=
  match h.body a with
  | .fields fields => fields
  | _ => []

def setBody (h : Heap K) (a : Nat) (b : Body K) : Heap K := h.modify a fun _ => ⟨b,Option.none⟩

end Heap

def seqIndex (length : Nat) (key : Value K) : Except (Failure K) Nat :=
  let at_ (raw : Int) : Except (Failure K) Nat :=
    let idx := if raw<0 then length+raw else raw
    if idx<0 ∨ (length : Int) ≤ idx then .error (.indexError "list") else .ok idx.toNat
  match key with
  | .int i => at_ i.toInt
  | .bool b => at_ (if b then 1 else 0)
  | other => .error (.typeError
      ("list indices must be integers or slices, not "++other.typeName))

def replaceEntry [DecidableEq K] (map : List (K×Value K)) (k : K) (v : Value K) :
    List (K×Value K) :=
  map.map fun e => if e.1=k then (e.1,v) else e

section Navigation

variable [DecidableEq K] (keys : Keys K)

def element (items : List (Value K)) (key : Value K) : Except (Failure K) (Value K) :=
  match seqIndex items.length key with
  | .ok i =>
    match items[i]? with
    | some v => .ok v
    | Option.none => .error (.indexError "list")
  | .error e => .error e

def entry (map : List (K×Value K)) (key : Value K) : Except (Failure K) (Value K) :=
  match keys.valueToKey key with
  | .ok k =>
    match map.lookup k with
    | some v => .ok v
    | Option.none => .error (.keyError k)
  | .error e => .error e

/-- The slot that a step of `nav_recurse` goes to. -/
def child (h : Heap K) (cur : Value K) : PlaceStep K → Except (Failure K) (Value K)
  | .index key =>
    match cur with
    | .list a => element (h.items a) key
    | .dict a => entry keys (h.map a) key
    | .defaultDict items _ => entry keys items key
    | .counter map =>
      match keys.valueToKey key with
      | .ok k => .ok ((map.lookup k).getD (.int 0))
      | .error e => .error e
    | .orderedDict a => entry keys (h.map a) key
    | .deque items => element items key
    | other => .error (.typeError ("'"++other.typeName++"' object is not subscriptable"))
  | .attr name =>
    match cur with
    | .dict a =>
      match (h.map a).lookup (keys.ofString name) with
      | some v => .ok v
      | Option.none => .error (.attributeError ("'dict' object has no attribute '"++name++"'"))
    | .userInstance className a =>
      match (h.fields a).lookup name with
      | some v => .ok v
      | Option.none =>
        .error (.attributeError ("'"++className++"' object has no attribute '"++name++"'"))
    | other =>
      .error (.attributeError ("'"++other.typeName++"' object has no attribute '"++name++"'"))
  | .slice _ _ _ =>
    .error (.runtime "a slice cannot be used as an intermediate assignment target")

/-- Whether the step makes the entry it goes to: a counter has a zero for a missing key. -/
def materialises (cur : Value K) : PlaceStep K → Bool
  | .index key =>
    match cur with
    | .counter map =>
      match keys.valueToKey key with
      | .ok k => (map.lookup k).isNone
      | .error _ => false
    | _ => false
  | _ => false

def replaceElement (items : List (Value K)) (key new : Value K) : List (Value K) :=
  match seqIndex items.length key with
  | .ok i => items.set i new
  | .error _ => items

def replaceAtKey (map : List (K×Value K)) (key new : Value K) : List (K×Value K) :=
  match keys.valueToKey key with
  | .ok k => if (map.lookup k).isSome then replaceEntry map k new else map++[(k,new)]
  | .error _ => map

def replaceField (fields : List (String×Value K)) (name : String) (new : Value K) :
    List (String×Value K) :=
  fields.map fun e => if e.1=name then (e.1,new) else e

/-- The slot that a step goes to gets new contents; so does the slot of an inline container. -/
def putChild (h : Heap K) (cur new : Value K) : PlaceStep K → Heap K×Option (Value K)
  | .index key =>
    match cur with
    | .list a => (h.setBody a (.list (replaceElement (h.items a) key new)),Option.none)
    | .dict a => (h.setBody a (.dict (replaceAtKey keys (h.map a) key new)),Option.none)
    | .orderedDict a => (h.setBody a (.dict (replaceAtKey keys (h.map a) key new)),Option.none)
    | .defaultDict items factory => (h,some (.defaultDict (replaceAtKey keys items key new) factory))
    | .counter map => (h,some (.counter (replaceAtKey keys map key new)))
    | .deque items => (h,some (.deque (replaceElement items key new)))
    | _ => (h,Option.none)
  | .attr name =>
    match cur with
    | .dict a =>
      (h.setBody a (.dict (replaceEntry (h.map a) (keys.ofString name) new)),Option.none)
    | .userInstance _ a =>
      (h.setBody a (.fields (replaceField (h.fields a) name new)),Option.none)
    | _ => (h,Option.none)
  | .slice _ _ _ => (h,Option.none)

/-- `nav_recurse`: runs `f` on the slot that the steps lead to. What `f` puts into the slot, if
anything, is written back on the way out. -/
def navRecurse {α : Type} (f : Heap K → Value K → α×Heap K×Option (Value K)) :
    Heap K → Value K → List (PlaceStep K) → Except (Failure K) α×Heap K×Option (Value K)
  | h,cur,[] =>
    let (r,t,new) := f h cur
    (.ok r,t,new)
  | h,cur,head::tail =>
    match child keys h cur head with
    | .error e => (.error e,h,Option.none)
    | .ok c =>
      let (r,t,new) := navRecurse f h c tail
      match new,materialises keys cur head with
      | some d,_ =>
        let (u,outer) := putChild keys t cur d head
        (r,u,outer)
      | Option.none,true =>
        let (u,outer) := putChild keys t cur c head
        (r,u,outer)
      | Option.none,false => (r,t,Option.none)

/-- `with_navigate_mut` on the variable that is the root of a place. -/
def withNavigateMut {α : Type} (root : String) (steps : List (PlaceStep K))
    (f : Heap K → Value K → α×Heap K×Option (Value K)) (s : State K) :
    Except (Failure K) α×State K :=
  match s.vars root with
  | Option.none => (.error (.nameNotDefined root),s)
  | some v =>
    let (r,h,new) := navRecurse keys f s.heap v steps
    match new with
    | some w => (r,{s with heap := h}.put root (some w))
    | Option.none => (r,{s with heap := h})

/-- What a root and steps lead to. -/
def leads (s : State K) (root : String) (steps : List (PlaceStep K)) :
    Except (Failure K) (Value K) :=
  match s.vars root with
  | Option.none => .error (.nameNotDefined root)
  | some v => Route.follow (child keys s.heap) v steps

end Navigation

end InterpretThis.Place
