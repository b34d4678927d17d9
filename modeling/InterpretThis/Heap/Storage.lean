import InterpretThis.Framework.Refinement
import Mathlib.Logic.Function.Basic

namespace InterpretThis.Heap

/-- The container kinds of `Value`. -/
inductive Kind where
  | list
  | dict
  | orderedDict
  | set
  | byteArray
  | array
  | stringIo
  | userInstance
  | deque
  | defaultDict
  | counter
  | chainMap
  | exception
  | tuple
  deriving DecidableEq

namespace Kind

/-- The variants that hold a shared handle; the others hold their contents inline, and a clone
copies them. -/
def isShared : Kind → Bool
  | .list => true
  | .dict => true
  | .orderedDict => true
  | .set => true
  | .byteArray => true
  | .array => true
  | .stringIo => true
  | .userInstance => true
  | _ => false

/-- The variants that `nav_recurse` steps into. -/
def isNavigable : Kind → Bool
  | .list => true
  | .dict => true
  | .defaultDict => true
  | .counter => true
  | .orderedDict => true
  | .deque => true
  | .userInstance => true
  | _ => false

def isMutable (k : Kind) : Bool := k≠tuple

end Kind

/-- A value as it is stored. A mapping holds its keys and values in turn. -/
inductive Val (A : Type) where
  | atom (a : A)
  | shared (kind : Kind) (addr : Nat)
  | inline (kind : Kind) (slots : List (Val A))

/-- A root and the positions that the evaluated steps of a place resolve to. -/
structure Place (R : Type) where
  root : R
  path : List Nat

inductive Operand (R A : Type) where
  | atom (a : A)
  | place (p : Place R)

/-- Where a slot of a mutated container comes from. -/
inductive Source (R A : Type) where
  | keep (i : Nat)
  | value (o : Operand R A)

/-- How the interpreter carries a mutation out: in the storage it reached, as `list.sort` and
`list.remove`, which take the items out of a receiver that is no place, or as an augmented
assignment that builds the result anew (every one but `list +=` and the set operators). -/
inductive Manner where
  | inPlace
  | takesOut
  | rebuilt

/-- The operations that make aliases, drop them and mutate. A root is anything that holds a
value of its own: a variable, a parameter, a loop variable, a closure snapshot, a cell, a
default, a temporary. `computed` marks a receiver that is the value of a call or another
expression that is no place. `method` reads a bound method from a place, which keeps the place
and not the object, and `call` calls it. `giveBack` ends a method, a setter or a hook that ran on
an instance: the place of the receiver gets what the first parameter holds. -/
inductive Op (R A : Type) where
  | bind (r : R) (o : Operand R A)
  | build (r : R) (kind : Kind) (os : List (Operand R A))
  | unbind (r : R)
  | mutate (p : Place R) (computed : Bool) (manner : Manner) (recipe : List (Source R A))
  | method (r : R) (p : Place R)
  | call (r : R) (p : Place R) (manner : Manner) (recipe : List (Source R A))
  | giveBack (p : Place R) (o : Operand R A)

variable {R A : Type} [DecidableEq R]

section Shared

variable {X Y : Type}

def Operand.eval (atom : A → X) (read : Place R → Option X) : Operand R A → Option X
  | .atom a => some (atom a)
  | .place p => read p

def Source.eval (atom : A → X) (read : Place R → Option X) (old : List X) :
    Source R A → Option X
  | .keep i => old[i]?
  | .value o => o.eval atom read

def assemble (f : Y → Option X) : List Y → Option (List X)
  | [] => some []
  | y::ys => (f y).bind fun x => (assemble f ys).map fun xs => x::xs

end Shared

section Concrete

/-- The variables and the shared storage. -/
structure Store (R A : Type) where
  vars : R → Option (Val A)
  heap : Nat → List (Val A)
  next : Nat

/-- The storage that a slot lies in. -/
inductive Base (R : Type) where
  | root (r : R)
  | object (addr : Nat)

namespace Val

def slots (heap : Nat → List (Val A)) : Val A → List (Val A)
  | atom _ => []
  | shared _ i => heap i
  | inline _ s => s

def isNavigable : Val A → Bool
  | atom _ => false
  | shared k _ => k.isNavigable
  | inline k _ => k.isNavigable

def walk (heap : Nat → List (Val A)) : Val A → List Nat → Option (Val A)
  | v,[] => some v
  | v,i::path => ((v.slots heap)[i]?).bind fun c => walk heap c path

/-- Whether `with_navigate_mut` follows the path. -/
def navigates (heap : Nat → List (Val A)) : Val A → List Nat → Bool
  | _,[] => true
  | v,i::path => v.isNavigable&&(match (v.slots heap)[i]? with
    | some c => navigates heap c path
    | none => false)

/-- The storage that holds the slot a path ends in, and the positions inside it. -/
def locate (heap : Nat → List (Val A)) : Base R → List Nat → Val A → List Nat → Base R×List Nat
  | base,inner,_,[] => (base,inner)
  | base,inner,v,i::path =>
    match (v.slots heap)[i]?,v with
    | some c,shared _ addr => locate heap (.object addr) [i] c path
    | some c,_ => locate heap base (inner++[i]) c path
    | none,_ => (base,inner)

/-- Replace a value inside inline containers. -/
def replaceAt : Val A → Val A → List Nat → Val A
  | _,new,[] => new
  | inline k s,new,i::path => inline k (s.modify i fun c => replaceAt c new path)
  | v,_,_::_ => v

end Val

namespace Store

def empty : Store R A := ⟨fun _ => none,fun _ => [],0⟩

def read (σ : Store R A) (p : Place R) : Option (Val A) :=
  (σ.vars p.root).bind fun v => v.walk σ.heap p.path

def put (σ : Store R A) (r : R) (v : Option (Val A)) : Store R A :=
  {σ with vars := Function.update σ.vars r v}

def setSlots (σ : Store R A) (addr : Nat) (slots : List (Val A)) : Store R A :=
  {σ with heap := Function.update σ.heap addr slots}

def write (σ : Store R A) (new : Val A) : Base R×List Nat → Store R A
  | (.root r,inner) => σ.put r ((σ.vars r).map fun v => v.replaceAt new inner)
  | (.object i,j::inner) => σ.setSlots i ((σ.heap i).modify j fun v => v.replaceAt new inner)
  | (.object _,[]) => σ

/-- The slot that a place names. -/
def slot (σ : Store R A) (p : Place R) : Base R×List Nat :=
  match σ.vars p.root with
  | some v => v.locate σ.heap (.root p.root) [] p.path
  | none => (.root p.root,[])

def navigates (σ : Store R A) (p : Place R) : Bool :=
  match σ.vars p.root with
  | some v => v.navigates σ.heap p.path
  | none => false

/-- A mutation of the value that a receiver evaluates to. -/
def mutate (σ : Store R A) (p : Place R) (isPlace : Bool) (manner : Manner) (target : Val A)
    (new : List (Val A)) : Store R A :=
  match target,manner with
  | .atom _,_ => σ
  | .shared _ i,.inPlace => σ.setSlots i new
  | .shared _ i,.takesOut => if isPlace then σ.setSlots i new else σ
  | .shared k _,.rebuilt =>
    if isPlace then {(σ.setSlots σ.next new).write (.shared k σ.next) (σ.slot p) with next := σ.next+1}
    else σ
  -- the inline contents of a temporary are dropped with it
  | .inline k _,_ => if k.isMutable&&isPlace then σ.write (.inline k new) (σ.slot p) else σ

/-- Evaluate the receiver and the new contents, and mutate. -/
def perform (σ : Store R A) (p : Place R) (computed : Bool) (manner : Manner)
    (recipe : List (Source R A)) : Store R A :=
  match σ.read p with
  | some v =>
    match assemble (fun s => s.eval .atom σ.read (v.slots σ.heap)) recipe with
    | some new => σ.mutate p (!computed&&σ.navigates p) manner v new
    | none => σ
  | none => σ

def step (σ : Store R A) : Op R A → Store R A
  | .bind r o =>
    match o.eval .atom σ.read with
    | some v => σ.put r (some v)
    | none => σ
  | .build r kind os =>
    match assemble (fun o => o.eval .atom σ.read) os with
    | some vs =>
      if kind.isShared then {(σ.setSlots σ.next vs).put r (some (.shared kind σ.next)) with next := σ.next+1}
      else {σ.put r (some (.inline kind vs)) with next := σ.next+1}
    | none => σ
  | .unbind r => σ.put r none
  | .mutate p computed manner recipe => σ.perform p computed manner recipe
  | .method _ _ => σ
  | .call _ p manner recipe => σ.perform p false manner recipe
  | .giveBack p o =>
    match o.eval .atom σ.read with
    | some v => if σ.navigates p then σ.write v (σ.slot p) else σ
    | none => σ

end Store

end Concrete

section Reference

/-- A value under reference semantics: every container is an object with an identity. -/
inductive Ref (A : Type) where
  | atom (a : A)
  | ref (id : Nat)

structure Object (A : Type) where
  kind : Kind
  slots : List (Ref A)

/-- The variables, the objects and the receivers of the bound methods. -/
structure World (R A : Type) where
  vars : R → Option (Ref A)
  heap : Nat → Object A
  next : Nat
  methods : R → Option (Ref A)

namespace Ref

def slots (heap : Nat → Object A) : Ref A → List (Ref A)
  | atom _ => []
  | ref i => (heap i).slots

def isNavigable (heap : Nat → Object A) : Ref A → Bool
  | atom _ => false
  | ref i => (heap i).kind.isNavigable

def walk (heap : Nat → Object A) : Ref A → List Nat → Option (Ref A)
  | v,[] => some v
  | v,i::path => ((v.slots heap)[i]?).bind fun c => walk heap c path

def navigates (heap : Nat → Object A) : Ref A → List Nat → Bool
  | _,[] => true
  | v,i::path => v.isNavigable heap&&(match (v.slots heap)[i]? with
    | some c => navigates heap c path
    | none => false)

/-- The object in whose own storage, or the variable in which, a path ends. -/
def locate (heap : Nat → Object A) : Base R → List Nat → Ref A → List Nat → Base R×List Nat
  | base,inner,_,[] => (base,inner)
  | base,inner,v,i::path =>
    match (v.slots heap)[i]?,v with
    | some c,ref j =>
      if (heap j).kind.isShared then locate heap (.object j) [i] c path
      else locate heap base (inner++[i]) c path
    | some c,_ => locate heap base (inner++[i]) c path
    | none,_ => (base,inner)

/-- A walk that stays in the storage it starts in. -/
def inlineWalk (heap : Nat → Object A) : Ref A → List Nat → Option (Ref A)
  | v,[] => some v
  | atom _,_::_ => none
  | ref i,j::path =>
    if (heap i).kind.isShared then none
    else ((heap i).slots[j]?).bind fun c => inlineWalk heap c path

/-- The value is the object, or holds it in its own storage. -/
def Contains (heap : Nat → Object A) (v : Ref A) (t : Nat) : Prop :=
  ∃path, inlineWalk heap v path=some (ref t)

end Ref

namespace World

def empty : World R A := ⟨fun _ => none,fun _ => ⟨.tuple,[]⟩,0,fun _ => none⟩

def read (α : World R A) (p : Place R) : Option (Ref A) :=
  (α.vars p.root).bind fun v => v.walk α.heap p.path

def put (α : World R A) (r : R) (v : Option (Ref A)) : World R A :=
  {α with vars := Function.update α.vars r v}

def setObject (α : World R A) (i : Nat) (ob : Object A) : World R A :=
  {α with heap := Function.update α.heap i ob}

def slot (α : World R A) (p : Place R) : Base R×List Nat :=
  match α.vars p.root with
  | some v => v.locate α.heap (.root p.root) [] p.path
  | none => (.root p.root,[])

def navigates (α : World R A) (p : Place R) : Bool :=
  match α.vars p.root with
  | some v => v.navigates α.heap p.path
  | none => false

/-- A mutation of the object that a receiver is. -/
def perform (α : World R A) (target : Option (Ref A)) (recipe : List (Source R A)) : World R A :=
  match target with
  | some (.ref t) =>
    match assemble (fun s => s.eval .atom α.read (α.heap t).slots) recipe with
    | some new =>
      if (α.heap t).kind.isMutable then α.setObject t ⟨(α.heap t).kind,new⟩ else α
    | none => α
  | _ => α

def step (α : World R A) : Op R A → World R A
  | .bind r o =>
    match o.eval .atom α.read with
    | some v => α.put r (some v)
    | none => α
  | .build r kind os =>
    match assemble (fun o => o.eval .atom α.read) os with
    | some vs =>
      {(α.setObject α.next ⟨kind,vs⟩).put r (some (.ref α.next)) with next := α.next+1}
    | none => α
  | .unbind r => α.put r none
  | .mutate p _ _ recipe => α.perform (α.read p) recipe
  | .method r p => {α with methods := Function.update α.methods r (α.read p)}
  | .call r _ _ recipe => α.perform (α.methods r) recipe
  | .giveBack _ _ => α

/-- The object lies at the positions of a variable or of a shared object. -/
def Occurs (α : World R A) (t : Nat) : Base R×List Nat → Prop
  | (.root r,inner) => ∃v, α.vars r=some v ∧ v.inlineWalk α.heap inner=some (.ref t)
  | (.object i,inner) => (α.heap i).kind.isShared=true ∧ ∃j path v, inner=j::path ∧
      (α.heap i).slots[j]?=some v ∧ v.inlineWalk α.heap path=some (.ref t)

end World

end Reference

end InterpretThis.Heap
