import InterpretThis.Framework.Namespace

namespace InterpretThis.ClassBody

/-- A target of an assignment. `other` is an attribute or a subscript, with what stores into it. -/
inductive Target (V E : Type) where
  | name (x : String)
  | seq (ts : List (Target V E))
  | starred (t : Target V E)
  | other (store : V → Code V E Unit)

/-- The tables of a class for what its `def`s make. -/
inductive Kind where
  | method
  | property
  | staticMethod
  | classMethod
deriving DecidableEq

/-- The decorators of a `def`, apart from `@abstractmethod`. -/
inductive Shape (V E : Type) where
  /-- None, or one builtin decorator of the name. -/
  | builtin (name : Option String)
  /-- `@prop.setter` or `@prop.deleter`. -/
  | accessor (prop : String) (deleter : Bool) (decorator : Code V E V)
  | custom (decorator : Code V E V)
  /-- Several decorators. -/
  | stack (decorators : List (Code V E V))

/-- A `setter` of what is no property of the class so far is a decorator like any other. -/
def Shape.resolve {V E : Type} (isProperty : String → Bool) : Shape V E → Shape V E
  | .accessor prop deleter decorator =>
    if isProperty prop then .accessor prop deleter decorator else .custom decorator
  | shape => shape

/-- A statement of a class body; `make` evaluates the defaults of a `def` and makes its object.
`block` stands for `if`, `for`, `while` and nested classes, `other` for all that is not modelled. -/
inductive Stmt (V E : Type) where
  | assign (value : Code V E V) (targets : List (Target V E))
  | annAssign (name : String) (value : Code V E V) ( annotation : Code V E Unit)
  | functionDef (name : String) (shape : Shape V E) (make : Code V E V)
  | block (c : Code V E Unit)
  | other (c : Code V E Unit)

/-- What a class statement takes from the rest of the interpreter. -/
structure Machine (V E : Type) where
  /-- `==` of two values. -/
  same : V → V → Bool
  /-- The items of a list, a tuple or a string. -/
  items : V → Except E (List V)
  wrongArity : Nat → Nat → E
  /-- The values that so many targets get of an iterable, the one at the index starred. -/
  unpack : Nat → Option Nat → V → Code V E (List V)
  /-- The table for the object of a `def`. -/
  kind : V → Kind
  /-- The property with the function as its setter or deleter. -/
  accessor : Bool → V → V → V
  accessor_kind : ∀{d p f}, kind p=.property → kind (accessor d p f)=.property
  call : V → V → Code V E V
  /-- The error for a stack of decorators. -/
  unsupported : String → E

section Code

variable {V E : Type} (x : Machine V E)

mutual

def bindClassTarget : Target V E → V → Names V → Except E (Names V)
  | .name n,v,attrs => .ok (Function.update attrs n (some v))
  | .seq ts,v,attrs =>
    match x.items v with
    | .error e => .error e
    | .ok vs =>
      if vs.length≠ts.length then .error (x.wrongArity vs.length ts.length)
      else unpackClassTargets ts vs attrs
  | .starred _,_,attrs => .ok attrs
  | .other _,_,attrs => .ok attrs

def unpackClassTargets : List (Target V E) → List V → Names V → Except E (Names V)
  | t::ts,v::vs,attrs =>
    match bindClassTarget t v attrs with
    | .error e => .error e
    | .ok attrs => unpackClassTargets ts vs attrs
  | _,_,attrs => .ok attrs

end

/-- Every target gets the value. -/
def bindClassTargets (v : V) : List (Target V E) → Names V → Except E (Names V)
  | [],attrs => .ok attrs
  | t::ts,attrs =>
    match bindClassTarget x t v attrs with
    | .error e => .error e
    | .ok attrs => bindClassTargets v ts attrs

/-- The value of a name is not the given one. -/
def Machine.differs (o : Option V) (v : V) : Bool :=
  match o with
  | none => true
  | some w => !x.same w v

/-- The names whose value differs from the class dictionary's and from the saved scope's. -/
def harvest (saved vars attrs : Names V) : Names V := fun n =>
  match vars n with
  | none => attrs n
  | some v => if x.differs (attrs n) v&&x.differs (saved n) v then some v else attrs n

/-- The class dictionary, the four tables and the variables while the body runs. -/
structure Build (V : Type) where
  attrs : Names V
  tables : Kind → Names V
  vars : Names V

def Build.harvested (saved : Names V) (b : Build V) : Build V :=
  {b with attrs := harvest x saved b.vars b.attrs}

def Build.seeded (b : Build V) : Build V := {b with vars := b.attrs.above b.vars}

/-- An entry of one table; the other tables keep theirs. -/
def insertTable (tables : Kind → Names V) (k : Kind) (n : String) (f : V) : Kind → Names V :=
  Function.update tables k (Function.update (tables k) n (some f))

/-- The function, then its decorator, then the call. -/
def decorate (make decorator : Code V E V) : Code V E V :=
  make.andThen fun f => decorator.andThen fun d => x.call d f

/-- A `def` of the body. -/
def evalClassDef (saved : Names V) (n : String) (shape : Shape V E) (make : Code V E V)
    (b : Build V) : Except E (Build V) :=
  match shape.resolve fun p => (b.tables .property p).isSome with
  | .builtin _ =>
    match make.runShared b.vars with
    | (.error e,_) => .error e
    | (.ok f,u) => .ok (Build.harvested x saved ⟨b.attrs,insertTable b.tables (x.kind f) n f,u⟩)
  | .accessor prop deleter _ =>
    match make.runShared b.vars,b.tables .property prop with
    | (.error e,_),_ => .error e
    | (.ok _,_),none => .error (x.unsupported n)
    | (.ok f,u),some p => .ok (Build.harvested x saved
        ⟨b.attrs,insertTable b.tables .property prop (x.accessor deleter p f),u⟩)
  | .custom decorator =>
    match (decorate x make decorator).runShared b.vars with
    | (.error e,_) => .error e
    | (.ok w,u) => .ok ⟨Function.update b.attrs n (some w),b.tables,u⟩
  | .stack _ =>
    match make.runShared b.vars with
    | (.error e,_) => .error e
    | (.ok _,_) => .error (x.unsupported n)

/-- One statement of the body. -/
def evalClassStmt (saved : Names V) (s : Stmt V E) (b : Build V) : Except E (Build V) :=
  let b := b.seeded
  match s with
  | .assign value targets =>
    match value.runShared b.vars with
    | (.error e,_) => .error e
    | (.ok v,u) =>
      match bindClassTargets x v targets b.attrs with
      | .error e => .error e
      | .ok attrs => .ok (Build.harvested x saved ⟨attrs,b.tables,u⟩)
  | .annAssign n value _ =>
    match value.runShared b.vars with
    | (.error e,_) => .error e
    | (.ok v,u) =>
      .ok (Build.harvested x saved ⟨Function.update b.attrs n (some v),b.tables,u⟩)
  | .functionDef n shape make => evalClassDef x saved n shape make b
  | .block c =>
    match c.runShared b.vars with
    | (.error e,_) => .error e
    | (.ok (),u) => .ok (Build.harvested x saved ⟨b.attrs,b.tables,u⟩)
  | .other _ => .ok (b.harvested x saved)

def evalClassStmts (saved : Names V) : List (Stmt V E) → Build V → Except E (Build V)
  | [],b => .ok b
  | s::ss,b =>
    match evalClassStmt x saved s b with
    | .error e => .error e
    | .ok b => evalClassStmts saved ss b

/-- The class dictionary and the tables that a body leaves, and the enclosing scope, which is put
back as it was. -/
def evalClassBody (prepared : Names V) (body : List (Stmt V E)) (outer : Names V) :
    Except E (Names V×(Kind → Names V))×Names V :=
  ((evalClassStmts x outer body ⟨prepared,fun _ _ => none,outer⟩).map
    fun b => (b.attrs,b.tables),outer)

end Code

section Reference

variable {V E : Type} (x : Machine V E)

/-- The position of the starred target. -/
def starIndex : List (Target V E) → Option Nat
  | [] => none
  | .starred _::_ => some 0
  | _::ts => (starIndex ts).map (·+1)

mutual

/-- The assignment of a value to a target, in a body that is a scope of its own. -/
def pyTarget : Target V E → V → Code V E Unit
  | .name n,v => .bind n v (.done ())
  | .seq ts,v => (x.unpack ts.length (starIndex ts) v).andThen (pyUnpack ts)
  | .starred t,v => pyTarget t v
  | .other store,v => store v

def pyUnpack : List (Target V E) → List V → Code V E Unit
  | t::ts,v::vs => (pyTarget t v).andThen fun _ => pyUnpack ts vs
  | _,_ => .done ()

end

def pyTargets (v : V) : List (Target V E) → Code V E Unit
  | [] => .done ()
  | t::ts => (pyTarget x t v).andThen fun _ => pyTargets v ts

/-- Decorators are evaluated before the function and called after it, the last one first. -/
def pyDecorate (make : Code V E V) : List (Code V E V) → Code V E V
  | [] => make
  | d::ds => d.andThen fun w => (pyDecorate make ds).andThen (x.call w)

/-- The entries of one namespace by the tables they belong to. -/
def Machine.split (methods : Names V) : Kind → Names V :=
  fun k n => (methods n).filter fun f => x.kind f=k

/-- A run, and what the end of it binds. -/
def bindEnd (bound : V → Scopes V → Scopes V) : Except E V×Scopes V → Except E Unit×Scopes V
  | (.error e,t) => (.error e,t)
  | (.ok w,t) => (.ok (),bound w t)

/-- A `def`, whose objects of the builtin kinds the namespace keeps apart. -/
def pyDef (n : String) (shape : Shape V E) (make : Code V E V) (t : Scopes V) :
    Except E Unit×Scopes V :=
  match shape.resolve fun p => (x.split t.methods .property p).isSome with
  | .builtin _ => bindEnd (fun f => Scopes.bindMethod n f) (make.runApart t)
  | .accessor prop deleter _ =>
    match x.split t.methods .property prop with
    | none => bindEnd (fun f => Scopes.bindMethod n f) (make.runApart t)
    | some p => bindEnd (fun f => Scopes.bindMethod n (x.accessor deleter p f)) (make.runApart t)
  | .custom decorator =>
    bindEnd (fun w => Scopes.bind n w) ((pyDecorate x make [decorator]).runApart t)
  | .stack decorators =>
    bindEnd (fun w => Scopes.bind n w) ((pyDecorate x make decorators).runApart t)

def pyStmt (s : Stmt V E) (t : Scopes V) : Except E Unit×Scopes V :=
  match s with
  | .assign value targets => (value.andThen fun v => pyTargets x v targets).runApart t
  | .annAssign n value annotation =>
    (value.andThen fun v => .bind n v annotation).runApart t
  | .functionDef n shape make => pyDef x n shape make t
  | .block c => c.runApart t
  | .other c => c.runApart t

def pyStmts : List (Stmt V E) → Scopes V → Except E Unit×Scopes V
  | [],t => (.ok (),t)
  | s::ss,t =>
    match pyStmt x s t with
    | (.error e,t) => (.error e,t)
    | (.ok (),t) => pyStmts ss t

/-- A class body by the language reference: it runs in a namespace of its own, and what the
functions it calls do to the enclosing scope stays done. -/
def pyClassBody (prepared : Names V) (body : List (Stmt V E)) (outer : Names V) :
    Except E (Names V×(Kind → Names V))×Names V :=
  ((pyStmts x body ⟨prepared,fun _ => none,outer⟩).1.map fun _ =>
      ((pyStmts x body ⟨prepared,fun _ => none,outer⟩).2.own,
        x.split (pyStmts x body ⟨prepared,fun _ => none,outer⟩).2.methods),
    (pyStmts x body ⟨prepared,fun _ => none,outer⟩).2.outer)

end Reference

end InterpretThis.ClassBody
