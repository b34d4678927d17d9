import InterpretThis.Budget.Frame
import InterpretThis.Place.Store

namespace InterpretThis.Place

/-- What a method returns, and the bytes by which it changed the receiver. -/
structure MethodOutcome (K : Type) where
  value : Value K
  memDelta : Int

/-- An expression as `eval_place` looks at it; `X` stands for all other expressions. -/
inductive Expr (X : Type) where
  | name (id : String)
  | subscript (value : Expr X) (slice : X)
  | slice (value : Expr X) (lower upper step : Option X)
  | attribute (value : Expr X) (attr : String)
  | other (e : X)

/-- The parts of the interpreter that attribute access and calls go through: the evaluator, the
tables of methods, how values compare, and what runs user code. -/
structure Machine (K X : Type) where
  keys : Keys K
  evalExpr : Expr X → State K → Except (Failure K) (Value K)×State K
  isBlocked : String → Bool
  typeObjectOf : Value K → Value K
  getattrOther : Value K → String → Option (Place K) → State K →
    Except (Failure K) (Value K)×State K
  otherDunders : Value K → Option (List String)
  methods : Heap K → Value K → String → List (Value K) → List (String×Value K) →
    Except (Failure K) (MethodOutcome K)×Heap K
  valuesEqual : Heap K → Value K → Value K → Bool
  eq : Value K → Value K → State K → Except (Failure K) Bool×State K
  sequenceIndexRange : List (Value K) → Nat → Except (Failure K) (Nat×Nat)
  repr : Heap K → Value K → String
  estimateValueSize : Heap K → Value K → Nat
  inlineMethods : Heap K → Value K → String → List (Value K) → List (String×Value K) →
    Except (Failure K) (MethodOutcome K)×Heap K×Value K
  isTruthy : Heap K → Value K → Bool
  dsuSort : List (Value K) → Option (Value K) → Bool → State K →
    Except (Failure K) (List (Value K))×State K
  makeIterator : Value K → State K → Except (Failure K) (Value K)×State K
  callTypeMethod : String → String → List (Value K) → List (String×Value K) → State K →
    Except (Failure K) (Value K)×State K
  boundStrFormat : String → String → List (Value K) → List (String×Value K) → State K →
    Except (Failure K) (Value K)×State K
  callInstanceMethod : String → Nat → String → List (Value K) → List (String×Value K) → State K →
    Option (Except (Failure K) (Value K)×State K)

section Tables

def commonDunders : List String :=
  ["__delattr__","__dir__","__doc__","__eq__","__format__","__ge__","__getattribute__",
    "__getstate__","__gt__","__hash__","__init__","__init_subclass__","__le__","__lt__","__ne__",
    "__new__","__reduce__","__reduce_ex__","__repr__","__setattr__","__sizeof__","__str__",
    "__subclasshook__"]

def listDunders : List String :=
  ["__add__","__class_getitem__","__contains__","__delitem__","__getitem__","__iadd__","__imul__",
    "__iter__","__len__","__mul__","__reversed__","__rmul__","__setitem__"]

def dictDunders : List String :=
  ["__class_getitem__","__contains__","__delitem__","__getitem__","__ior__","__iter__","__len__",
    "__or__","__reversed__","__ror__","__setitem__"]

def setDunders : List String :=
  ["__and__","__class_getitem__","__contains__","__iand__","__ior__","__isub__","__iter__",
    "__ixor__","__len__","__or__","__rand__","__ror__","__rsub__","__rxor__","__sub__","__xor__"]

def bytearrayDunders : List String :=
  ["__add__","__alloc__","__buffer__","__contains__","__delitem__","__getitem__","__iadd__",
    "__imul__","__iter__","__len__","__mod__","__mul__","__release_buffer__","__rmod__",
    "__rmul__","__setitem__"]

def listMethods : List String :=
  ["append","extend","insert","pop","remove","sort","reverse","index","count","copy","clear"]

def dictMethods : List String :=
  ["keys","values","items","get","pop","popitem","update","setdefault","copy","clear","fromkeys"]

def setMethods : List String :=
  ["add","remove","discard","pop","clear","copy","union","intersection","difference",
    "symmetric_difference","issubset","issuperset","isdisjoint","update","intersection_update",
    "difference_update","symmetric_difference_update"]

def bytearrayMethods : List String :=
  ["append","extend","insert","remove","pop","clear","reverse","copy","decode","hex","upper",
    "lower","swapcase","capitalize","title","isdigit","isalpha","isalnum","isspace","isupper",
    "islower","strip","lstrip","rstrip","split","replace","find","rfind","index","rindex","count",
    "startswith","endswith","removeprefix","removesuffix","join","isascii","istitle","expandtabs",
    "rsplit","translate","partition","rpartition","center","ljust","rjust","zfill","splitlines",
    "fromhex","maketrans"]

end Tables

variable {K X : Type}

section Attributes

def isDunderName (name : String) : Bool :=
  4<name.utf8ByteSize && "__".toList.isPrefixOf name.toList && "__".toList.isSuffixOf name.toList

def isObjectAttr (name : String) : Bool := name=="__class__"

/-- The dunders and the methods of a container type. -/
def attributeTables : Value K → Option (List String×List String)
  | .list _ => some (listDunders,listMethods)
  | .dict _ => some (dictDunders,dictMethods)
  | .set _ => some (setDunders,setMethods)
  | .byteArray _ => some (bytearrayDunders,bytearrayMethods)
  | _ => none

variable (M : Machine K X)

def builtinDunderPresent (value : Value K) (name : String) : Bool :=
  match ((attributeTables value).map Prod.fst).or (M.otherDunders value) with
  | some extras => commonDunders.contains name || extras.contains name
  | none => false

def boundMethod (value : Value K) (attr : String) : Value K := .boundMethod (.snapshot value) attr

def attributeError (value : Value K) (attr : String) : Failure K :=
  .attributeError ("'"++value.typeName++"' object has no attribute '"++attr++"'")

/-- `dispatch_getattr_opt` for a container. -/
def dispatchGetattr (methods : List String) (value : Value K) (name : String) :
    Except (Failure K) (Value K) :=
  if isDunderName name && builtinDunderPresent M value name then .ok (boundMethod value name)
  else if methods.contains name then .ok (boundMethod value name)
  else .error (attributeError value name)

def boundStep : PlaceStep K → Option (BoundMethodStep K)
  | .index key => some (.index key)
  | .attr name => some (.attr name)
  | .slice _ _ _ => none

def placeStep : BoundMethodStep K → PlaceStep K
  | .index key => .index key
  | .attr name => .attr name

def upgradeBoundMethodPlace (val : Value K) (placeForUpgrade : Option (Place K)) : Value K :=
  match val,placeForUpgrade with
  | .boundMethod (.snapshot _) method,some place =>
    .boundMethod (.place place.root (place.steps.filterMap boundStep)) method
  | val,_ => val

def blockedError (name : String) : Failure K :=
  .raised ("access to '"++name++"' is not permitted for security reasons")

def getattrOnValue (obj : Value K) (name : String) (placeForUpgrade : Option (Place K))
    (s : State K) : Except (Failure K) (Value K)×State K :=
  if isObjectAttr name then (.ok (M.typeObjectOf obj),s)
  else
    match attributeTables obj with
    | some (_,methods) =>
      if M.isBlocked name then (.error (blockedError name),s)
      else
        match dispatchGetattr M methods obj name with
        | .ok val => (.ok (upgradeBoundMethodPlace val placeForUpgrade),s)
        | .error e => (.error e,s)
    | none => M.getattrOther obj name placeForUpgrade s

end Attributes

section Places

variable (M : Machine K X)

def evalOpt (e : Option X) (s : State K) : Except (Failure K) (Option (Value K))×State K :=
  match e with
  | some e =>
    let (r,t) := M.evalExpr (.other e) s
    (r.map some,t)
  | none => (.ok none,s)

def evalSlice (lower upper step : Option X) (s : State K) :
    Except (Failure K) (PlaceStep K)×State K :=
  match evalOpt M lower s with
  | (.error e,t) => (.error e,t)
  | (.ok l,t) =>
    match evalOpt M upper t with
    | (.error e,u) => (.error e,u)
    | (.ok h,u) =>
      let (r,w) := evalOpt M step u
      (r.map fun st => .slice l h st,w)

def isClassName (e : Expr X) (s : State K) : Bool :=
  match e with
  | .name id =>
    match s.vars id with
    | some (.classRef _) => true
    | _ => false
  | _ => false

def Place.push (p : Place K) (step : PlaceStep K) : Place K := ⟨p.root,p.steps++[step]⟩

/-- The root and the evaluated steps of an expression, if a variable is its root. -/
def evalPlace : Expr X → State K → Except (Failure K) (Option (Place K))×State K
  | .name id,s => (.ok (some ⟨id,[]⟩),s)
  | .subscript value slice,s =>
    match evalPlace value s with
    | (.ok (some place),t) =>
      let (r,u) := M.evalExpr (.other slice) t
      (r.map fun key => some (place.push (.index key)),u)
    | r => r
  | .slice value lower upper step,s =>
    match evalPlace value s with
    | (.ok (some place),t) =>
      let (r,u) := evalSlice M lower upper step t
      (r.map fun st => some (place.push st),u)
    | r => r
  | .attribute value attr,s =>
    if !isObjectAttr attr && M.isBlocked attr then (.error (blockedError attr),s)
    else if isClassName value s then (.ok none,s)
    else
      match evalPlace value s with
      | (.ok (some place),t) => (.ok (some (place.push (.attr attr))),t)
      | r => r
  | .other _,s => (.ok none,s)

variable [DecidableEq K]

/-- The navigation of a clone of the root: only what lies behind handles can change. -/
def peek (place : Place K) (s : State K) : Except (Failure K) (Value K)×State K :=
  match s.vars place.root with
  | none => (.error (.nameNotDefined place.root),s)
  | some root =>
    let (r,h,_) := navRecurse M.keys (fun h target => (target,h,none)) s.heap root place.steps
    (r,{s with heap := h})

def usablePlace (place : Option (Place K)) (s : State K) : Option (Place K) :=
  place.filter fun p => p.isNavigable && (s.vars p.root).isSome

/-- The receiver of an attribute, with its place if that can be navigated. -/
def evalReceiver (e : Expr X) (s : State K) :
    Except (Failure K) (Value K×Option (Place K))×State K :=
  match evalPlace M e s with
  | (.error err,t) => (.error err,t)
  | (.ok place,t) =>
    match usablePlace place t with
    | some p =>
      match peek M p t with
      | (.ok v,u) => (.ok (v,some p),u)
      | (.error _,u) =>
        let (r,w) := M.evalExpr e u
        (r.map fun v => (v,none),w)
    | none =>
      let (r,w) := M.evalExpr e t
      (r.map fun v => (v,none),w)

def evalAttribute (e : Expr X) (name : String) (s : State K) :
    Except (Failure K) (Value K)×State K :=
  if !isObjectAttr name && M.isBlocked name then (.error (blockedError name),s)
  else
    match evalReceiver M e s with
    | (.error err,t) => (.error err,t)
    | (.ok (obj,place),t) => getattrOnValue M obj name place t

end Places

section Calls

variable (M : Machine K X)

/-- The methods of a list that look for an item. -/
def looks (method : String) : Bool := ["count","index","remove"].contains method

def tableRefusal (method : String) (args : List (Value K)) : Option String :=
  if method=="count" then
    if args.length==1 then none else some "count() takes exactly one argument"
  else if args.isEmpty then some (method++"() takes exactly 1 argument") else none

/-- The item looked for, and where; or the text that refuses the arguments. -/
def needle (refusal : Option String) (method : String) (args : List (Value K)) (len : Nat) :
    Except (Failure K) (Value K×Nat×Nat) :=
  match refusal,args with
  | none,x::_ =>
    if method=="index" then (M.sequenceIndexRange args len).map fun w => (x,w) else .ok (x,0,len)
  | text,_ => .error (.typeError (text.getD ""))

/-- What is answered once it is known which items of the window are equal. -/
def answer (h : Heap K) (a : Nat) (method : String) (x : Value K) (start : Nat)
    (equal : List Bool) : Except (Failure K) (MethodOutcome K)×Heap K :=
  if method=="count" then (.ok ⟨.int (.ofNat (equal.count true)),0⟩,h)
  else
    match equal.findIdx? id with
    | some i =>
      if method=="index" then (.ok ⟨.int (.ofNat (start+i)),0⟩,h)
      else (.ok ⟨.none,-(((h.items a)[i]?.map (M.estimateValueSize h)).getD 0 : Nat)⟩,
        h.setBody a (.list ((h.items a).eraseIdx i)))
    | none => (.error (.raised (if method=="index" then M.repr h x++" is not in list"
        else "list.remove(x): x not in list")),h)

/-- The table of methods, where a list looks for an item by `values_equal`. -/
def table (h : Heap K) (obj : Value K) (method : String) (args : List (Value K))
    (kwargs : List (String×Value K)) : Except (Failure K) (MethodOutcome K)×Heap K :=
  match obj,looks method && kwargs.isEmpty with
  | .list a,true =>
    match needle M (tableRefusal method args) method args (h.items a).length with
    | .error e => (.error e,h)
    | .ok (x,start,stop) => answer M h a method x start
        ((((h.items a).take stop).drop start).map fun item => M.valuesEqual h item x)
  | _,_ => M.methods h obj method args kwargs

def dispatchMethod (h : Heap K) (obj : Value K) (method : String) (args : List (Value K))
    (kwargs : List (String×Value K)) :
    Except (Failure K) (MethodOutcome K)×Heap K×Option (Value K) :=
  if obj.isInline then
    let (r,t,new) := M.inlineMethods h obj method args kwargs
    (r,t,some new)
  else
    let (r,t) := table M h obj method args kwargs
    (r,t,none)

def instanceClassmethod (value : Value K) (method : String) : Option (String×String) :=
  match value,method with
  | .dict _,"fromkeys" => some ("dict","fromkeys")
  | .byteArray _,"fromhex" => some ("bytearray","fromhex")
  | .byteArray _,"maketrans" => some ("bytearray","maketrans")
  | _,_ => none

def boundListSort (items args : List (Value K)) (kwargs : List (String×Value K)) (s : State K) :
    Except (Failure K) (List (Value K))×State K :=
  if args.isEmpty then
    M.dsuSort items (kwargs.lookup "key") (((kwargs.lookup "reverse").map (M.isTruthy s.heap)).getD
      false) s
  else (.error (.typeError "sort() takes no positional arguments"),s)

def takeItems (a : Nat) (s : State K) : State K := {s with heap := s.heap.setBody a (.list [])}

def setItems (a : Nat) (items : List (Value K)) (s : State K) : State K :=
  {s with heap := s.heap.setBody a (.list items)}

/-- A captured method whose receiver is held by value. -/
def callSnapshot (value : Value K) (method : String) (args : List (Value K))
    (kwargs : List (String×Value K)) (s : State K) : Except (Failure K) (Value K)×State K :=
  let rest : Except (Failure K) (Value K)×State K :=
    if method=="__iter__" && args.isEmpty && builtinDunderPresent M value "__iter__" then
      M.makeIterator value s
    else
      match instanceClassmethod value method with
      | some (typeName,m) => M.callTypeMethod typeName m args kwargs s
      | none =>
        match value with
        | .string template =>
          if method=="format" || method=="format_map" then
            M.boundStrFormat template method args kwargs s
          else
            let (r,h,_) := dispatchMethod M s.heap value method args kwargs
            (r.map MethodOutcome.value,{s with heap := h})
        | .list a =>
          if method=="sort" then
            match boundListSort M (s.heap.items a) args kwargs (takeItems a s) with
            | (.ok sorted,t) => (.ok .none,setItems a sorted t)
            | (.error e,t) => (.error e,t)
          else
            let (r,h,_) := dispatchMethod M s.heap value method args kwargs
            (r.map MethodOutcome.value,{s with heap := h})
        | _ =>
          let (r,h,_) := dispatchMethod M s.heap value method args kwargs
          (r.map MethodOutcome.value,{s with heap := h})
  match value with
  | .userInstance className fields =>
    (M.callInstanceMethod className fields method args kwargs s).getD rest
  | _ => rest

/-- The outcome of a method, with its bytes charged. -/
def charge (r : Except (Failure K) (MethodOutcome K)) (s : State K) :
    Except (Failure K) (Value K)×State K :=
  match r with
  | .error e => (.error e,s)
  | .ok outcome =>
    match Budget.applyMemDelta outcome.memDelta s with
    | (some _,t) => (.error .limitExceeded,t)
    | (none,t) => (.ok outcome.value,t)

variable [DecidableEq K]

/-- Looks at what a place leads to, without changing it. -/
def inspect {α : Type} (root : String) (steps : List (PlaceStep K)) (f : Heap K → Value K → α)
    (s : State K) : Except (Failure K) α×State K :=
  withNavigateMut M.keys root steps (fun h target => (f h target,h,none)) s

def dispatchAt (root : String) (steps : List (PlaceStep K)) (method : String)
    (args : List (Value K)) (kwargs : List (String×Value K)) (s : State K) :
    Except (Failure K) (Value K)×State K :=
  match withNavigateMut M.keys root steps
      (fun h target => dispatchMethod M h target method args kwargs) s with
  | (.error e,t) => (.error e,t)
  | (.ok r,t) => charge r t

def listAt (_ : Heap K) : Value K → Option Nat
  | .list a => some a
  | _ => none

/-- The list that the place leads to is sorted outside the borrow and put back through the place. -/
def sortAt (root : String) (steps : List (PlaceStep K)) (a : Nat) (args : List (Value K))
    (kwargs : List (String×Value K)) (s : State K) : Except (Failure K) (Value K)×State K :=
  match boundListSort M (s.heap.items a) args kwargs (takeItems a s) with
  | (.error e,t) => (.error e,t)
  | (.ok sorted,t) =>
    match inspect M root steps listAt t with
    | (.error e,u) => (.error e,u)
    | (.ok (some b),u) => (.ok .none,setItems b sorted u)
    | (.ok none,u) => (.ok .none,u)

def textAt (_ : Heap K) : Value K → Option String
  | .string s => some s
  | _ => none

/-- A captured method whose receiver is a place, navigated in the state of the call. -/
def callPlace (root : String) (steps : List (PlaceStep K)) (method : String)
    (args : List (Value K)) (kwargs : List (String×Value K)) (s : State K) :
    Except (Failure K) (Value K)×State K :=
  match inspect M root steps (fun _ _ => ()) s with
  | (.error e,t) => (.error e,t)
  | (.ok _,t) =>
    if method=="format" || method=="format_map" then
      match inspect M root steps textAt t with
      | (.error e,u) => (.error e,u)
      | (.ok (some template),u) => M.boundStrFormat template method args kwargs u
      | (.ok none,u) => dispatchAt M root steps method args kwargs u
    else if method=="sort" then
      match inspect M root steps listAt t with
      | (.error e,u) => (.error e,u)
      | (.ok (some a),u) => sortAt M root steps a args kwargs u
      | (.ok none,u) => dispatchAt M root steps method args kwargs u
    else dispatchAt M root steps method args kwargs t

/-- `call_value_as_function` on a bound method. -/
def callBoundMethod (receiver : BoundMethodReceiver K) (method : String) (args : List (Value K))
    (kwargs : List (String×Value K)) (s : State K) : Except (Failure K) (Value K)×State K :=
  match receiver with
  | .snapshot value => callSnapshot M value method args kwargs s
  | .place root steps => callPlace M root (steps.map placeStep) method args kwargs s

end Calls

open Budget

variable [DecidableEq K]

section Navigation

variable {keys : Keys K}

/-- A step that makes its entry reads a zero there. -/
theorem child_materialised {h : Heap K} {cur : Value K} {st : PlaceStep K}
    (made : materialises keys cur st=true) : child keys h cur st=.ok (.int 0) := by
  cases st with
  | slice lower upper step => nomatch made
  | attr name => nomatch made
  | index key =>
    cases cur with
    | counter map =>
      unfold materialises at made
      unfold child
      dsimp only at made ⊢
      cases hk : keys.valueToKey key with
      | error e =>
        rw [hk] at made
        nomatch made
      | ok k =>
        rw [hk] at made
        dsimp only at made ⊢
        rw [Option.isNone_iff_eq_none.mp made]
        rfl
    | _ => nomatch made

variable (keys) in
theorem child_int (h : Heap K) (i : Int64) (st : PlaceStep K) :
    ∃e, child keys h (.int i) st=.error e := by
  cases st <;> exact ⟨_,rfl⟩

theorem follow_int {h : Heap K} {i : Int64} {path : List (PlaceStep K)} {t : Value K}
    (reached : Route.follow (child keys h) (.int i) path=.ok t) : t=.int i := by
  cases path with
  | nil => exact (Except.ok.inj reached).symm
  | cons st path =>
    obtain ⟨e,he⟩ := child_int keys h i st
    rw [Route.follow_cons_error he] at reached
    nomatch reached

variable {α : Type} (f : Heap K → Value K → α×Heap K×Option (Value K))

theorem navRecurse_cons_error {h : Heap K} {v : Value K} {st : PlaceStep K}
    {path : List (PlaceStep K)} {e : Failure K} (hc : child keys h v st=.error e) :
    navRecurse keys f h v (st::path)=(.error e,h,none) := by
  rw [navRecurse,hc]

variable (keys) in
theorem navRecurse_fst (h : Heap K) (v : Value K) (path : List (PlaceStep K)) :
    (navRecurse keys f h v path).1=
      (Route.follow (child keys h) v path).map fun t => (f h t).1 := by
  induction path generalizing v with
  | nil => rfl
  | cons st path ih =>
    cases hc : child keys h v st with
    | error e =>
      rw [navRecurse_cons_error f hc,Route.follow_cons_error hc]
      rfl
    | ok c =>
      rw [Route.follow_cons hc,←ih c,navRecurse,hc]
      dsimp only
      split <;> rfl

theorem navRecurse_container {h t' : Heap K} {v t : Value K} {path : List (PlaceStep K)} {r : α}
    (reached : Route.follow (child keys h) v path=.ok t) (container : t.isContainer=true)
    (hf : f h t=(r,t',none)) : navRecurse keys f h v path=(.ok r,t',none) := by
  induction path generalizing v with
  | nil =>
    have same : v=t := Except.ok.inj reached
    unfold navRecurse
    rw [same,hf]
  | cons st path ih =>
    obtain ⟨c,hc,rest⟩ := Route.exists_child reached
    have plain : materialises keys v st=false := by
      rw [Bool.eq_false_iff]
      intro made
      have zero : c=.int 0 := Except.ok.inj (hc.symm.trans (child_materialised made))
      rw [zero] at rest
      rw [follow_int rest] at container
      nomatch container
    rw [navRecurse,hc]
    dsimp only
    rw [ih rest,plain]

theorem withNavigateMut_container {s : State K} {root : String} {steps : List (PlaceStep K)}
    {t : Value K} {t' : Heap K} {r : α} (reached : leads keys s root steps=.ok t)
    (container : t.isContainer=true) (hf : f s.heap t=(r,t',none)) :
    withNavigateMut keys root steps f s=(.ok r,{s with heap := t'}) := by
  unfold leads at reached
  unfold withNavigateMut
  cases hv : s.vars root with
  | none =>
    rw [hv] at reached
    nomatch reached
  | some v =>
    rw [hv] at reached
    dsimp only
    rw [navRecurse_container f reached container hf]

theorem withNavigateMut_error {s : State K} {root : String} {steps : List (PlaceStep K)}
    {e : Failure K} (lost : leads keys s root steps=.error e) :
    (withNavigateMut keys root steps f s).1=.error e := by
  unfold leads at lost
  unfold withNavigateMut
  cases hv : s.vars root with
  | none =>
    rw [hv] at lost
    exact congrArg Except.error (Except.error.inj lost)
  | some v =>
    rw [hv] at lost
    dsimp only at lost
    have first := navRecurse_fst keys f s.heap v steps
    rw [lost] at first
    dsimp only
    split <;> exact first

end Navigation

section Calls

variable (M : Machine K X)

/-- A sort of the list itself. -/
def sortObject (a : Nat) (args : List (Value K)) (kwargs : List (String×Value K)) (s : State K) :
    Except (Failure K) (Value K)×State K :=
  match boundListSort M (s.heap.items a) args kwargs (takeItems a s) with
  | (.ok sorted,t) => (.ok .none,setItems a sorted t)
  | (.error e,t) => (.error e,t)

/-- A method called on the object itself; `charged` tells whether the bytes it reports go to the
budget. -/
def onObject (charged : Bool) (obj : Value K) (method : String) (args : List (Value K))
    (kwargs : List (String×Value K)) (s : State K) : Except (Failure K) (Value K)×State K :=
  let plain : Except (Failure K) (Value K)×State K :=
    let (r,h) := table M s.heap obj method args kwargs
    if charged then charge r {s with heap := h} else (r.map MethodOutcome.value,{s with heap := h})
  match obj with
  | .list a => if method=="sort" then sortObject M a args kwargs s else plain
  | _ => plain

def callRefusal (method : String) (args : List (Value K)) : Option String :=
  if args.length==1 || method=="index" && !args.isEmpty then none
  else some (method++"() takes exactly one argument ("++toString args.length++" given)")

def compareAll (x : Value K) : List (Value K) → State K → Except (Failure K) (List Bool)×State K
  | [],s => (.ok [],s)
  | item::items,s =>
    match M.eq item x s with
    | (.error e,t) => (.error e,t)
    | (.ok b,t) => ((compareAll x items t).1.map (b::·),(compareAll x items t).2)

/-- The methods that look for an item, in a call on the list: here `op::eq` compares. Only `remove`
is charged; the journal notes a zero for the others. -/
def listEqMethod (charged : Bool) (a : Nat) (method : String) (args : List (Value K))
    (s : State K) : Except (Failure K) (Value K)×State K :=
  match needle M (callRefusal method args) method args (s.heap.items a).length with
  | .error e => (.error e,s)
  | .ok (x,start,stop) =>
    match compareAll M x (((s.heap.items a).take stop).drop start) s with
    | (.error e,t) => (.error e,t)
    | (.ok equal,t) =>
      match charged && method=="remove",answer M t.heap a method x start equal with
      | true,(r,h) => charge r {t with heap := h}
      | false,(.ok o,h) =>
        (.ok o.value,{t with heap := h,journal := if charged then t.journal++[0] else t.journal})
      | false,(.error e,h) => (.error e,{t with heap := h})

/-- With keywords the call refuses as the table does. -/
def directly (charged : Bool) (obj : Value K) (method : String) (args : List (Value K))
    (kwargs : List (String×Value K)) (s : State K) : Except (Failure K) (Value K)×State K :=
  match obj,looks method && kwargs.isEmpty with
  | .list a,true => listEqMethod M charged a method args s
  | _,_ => onObject M charged obj method args kwargs s

/-- A call of the method on the object itself, a fresh iterator and the class methods included. -/
def callObject (charged : Bool) (obj : Value K) (method : String) (args : List (Value K))
    (kwargs : List (String×Value K)) (s : State K) : Except (Failure K) (Value K)×State K :=
  if method=="__iter__" && args.isEmpty && builtinDunderPresent M obj "__iter__" then
    M.makeIterator obj s
  else
    match instanceClassmethod obj method with
    | some (typeName,m) => M.callTypeMethod typeName m args kwargs s
    | none => directly M charged obj method args kwargs s

/-- Where a method of a list looks for an item, the arguments are as many as both ways take, a
charge of nothing passes, and `op::eq` says of every item in the window what `values_equal` says and
changes nothing. -/
def ComparesAlike (charged : Bool) (obj : Value K) (method : String) (args : List (Value K))
    (kwargs : List (String×Value K)) (s : State K) : Prop :=
  ∀a,obj=.list a → looks method=true → kwargs=[] →
    callRefusal method args=none ∧
    (charged=true → method≠"remove" → s.checkMemory=none) ∧
    ∀x start stop,needle M none method args (s.heap.items a).length=.ok (x,start,stop) →
      ∀item∈((s.heap.items a).take stop).drop start,
        M.eq item x s=(.ok (M.valuesEqual s.heap item x),s)

/-- `__iter__` and the class methods, which are not calls on the container's contents. -/
def isDeferred (obj : Value K) (method : String) (args : List (Value K)) : Bool :=
  (method=="__iter__" && args.isEmpty) || (instanceClassmethod obj method).isSome

/-- The sort of a list leaves its place where it was. -/
def SortStays (root : String) (steps : List (PlaceStep K)) (obj : Value K) (method : String)
    (args : List (Value K)) (kwargs : List (String×Value K)) (s : State K) : Prop :=
  ∀a items u,obj=.list a → method="sort" →
    boundListSort M (s.heap.items a) args kwargs (takeItems a s)=(.ok items,u) →
      leads M.keys u root steps=.ok obj

variable {M} {s : State K} {steps : List (PlaceStep K)} {t : Value K} {root : String}

theorem inspect_container {α : Type} (f : Heap K → Value K → α)
    (reached : leads M.keys s root steps=.ok t) (container : t.isContainer=true) :
    inspect M root steps f s=(.ok (f s.heap t),s) :=
  withNavigateMut_container _ reached container rfl

omit [DecidableEq K] in
theorem container_notInline (container : t.isContainer=true) : t.isInline=false := by
  cases t <;> first | rfl | nomatch container

variable {args : List (Value K)} {kwargs : List (String×Value K)} {method : String}

omit [DecidableEq K] in
theorem onObject_plain {charged : Bool} (container : t.isContainer=true)
    (notSort : (method=="sort")=false) :
    onObject M charged t method args kwargs s=
      if charged then charge (table M s.heap t method args kwargs).1
        {s with heap := (table M s.heap t method args kwargs).2}
      else ((table M s.heap t method args kwargs).1.map MethodOutcome.value,
        {s with heap := (table M s.heap t method args kwargs).2}) := by
  unfold onObject
  cases t with
  | list a =>
    dsimp only
    rw [notSort]
    rfl
  | dict a => rfl
  | set a => rfl
  | byteArray a => rfl
  | _ => nomatch container

theorem dispatchAt_container (reached : leads M.keys s root steps=.ok t)
    (container : t.isContainer=true) (method : String) (args : List (Value K))
    (kwargs : List (String×Value K)) :
    dispatchAt M root steps method args kwargs s=
      charge (table M s.heap t method args kwargs).1
        {s with heap := (table M s.heap t method args kwargs).2} := by
  have run := withNavigateMut_container
    (fun h target => dispatchMethod M h target method args kwargs) reached container
    (show dispatchMethod M s.heap t method args kwargs=
      ((table M s.heap t method args kwargs).1,(table M s.heap t method args kwargs).2,none) by
        unfold dispatchMethod
        rw [container_notInline container]
        rfl)
  unfold dispatchAt
  rw [run]

theorem sortAt_stays {a : Nat} (stays : SortStays M root steps (.list a) "sort" args kwargs s) :
    sortAt M root steps a args kwargs s=sortObject M a args kwargs s := by
  unfold sortAt sortObject
  rcases sorted : boundListSort M (s.heap.items a) args kwargs (takeItems a s) with ⟨r,u⟩
  cases r with
  | error e => rfl
  | ok items =>
    dsimp only
    rw [inspect_container listAt (stays a items u rfl rfl sorted) rfl]
    rfl

/-- A method captured from a place acts on the container that the place leads to in the state of
the call. -/
theorem callPlace_container (reached : leads M.keys s root steps=.ok t)
    (container : t.isContainer=true) (stays : SortStays M root steps t method args kwargs s) :
    callPlace M root steps method args kwargs s=onObject M true t method args kwargs s := by
  have plain := dispatchAt_container reached container method args kwargs
  have notText : textAt s.heap t=none := by cases t <;> first | rfl | nomatch container
  unfold callPlace
  rw [inspect_container (fun _ _ => ()) reached container]
  dsimp only
  by_cases format : (method=="format" || method=="format_map")=true
  · rw [if_pos format,inspect_container textAt reached container,notText]
    dsimp only
    have notSort : (method=="sort")=false := by
      rcases Bool.or_eq_true_iff.mp format with h | h
      · rw [eq_of_beq h]
        decide
      · rw [eq_of_beq h]
        decide
    rw [plain,onObject_plain container notSort]
    rfl
  · rw [if_neg format]
    by_cases sort : (method=="sort")=true
    · rw [if_pos sort,inspect_container listAt reached container]
      cases t with
      | list a =>
        have named : method="sort" := eq_of_beq sort
        subst named
        dsimp only [listAt]
        rw [sortAt_stays stays]
        rfl
      | dict a => exact plain
      | set a => exact plain
      | byteArray a => exact plain
      | _ => nomatch container
    · rw [if_neg sort,plain,onObject_plain container (Bool.eq_false_iff.mpr sort)]
      rfl

theorem callPlace_error {e : Failure K} (lost : leads M.keys s root steps=.error e)
    (method : String) (args : List (Value K)) (kwargs : List (String×Value K)) :
    (callPlace M root steps method args kwargs s).1=.error e := by
  have first : (inspect M root steps (fun _ _ => ()) s).1=.error e :=
    withNavigateMut_error _ lost
  unfold callPlace
  rcases h : inspect M root steps (fun _ _ => ()) s with ⟨r,u⟩
  rw [h] at first
  cases r with
  | ok v => nomatch first
  | error e' => exact congrArg Except.error (Except.error.inj first)

omit [DecidableEq K] in
theorem isDeferred_cases (deferred : isDeferred t method args=false) :
    (method=="__iter__" && args.isEmpty)=false ∧ instanceClassmethod t method=none := by
  obtain ⟨iter,classmethod⟩ := Bool.or_eq_false_iff.mp deferred
  refine ⟨iter,?_⟩
  rcases h : instanceClassmethod t method with _ | p
  · rfl
  · rw [h] at classmethod
    nomatch classmethod

omit [DecidableEq K] in
/-- A method captured by value acts on the container that was captured. -/
theorem callSnapshot_container (container : t.isContainer=true)
    (deferred : isDeferred t method args=false) (kwargs : List (String×Value K)) (s : State K) :
    callSnapshot M t method args kwargs s=onObject M false t method args kwargs s := by
  obtain ⟨iter,noClass⟩ := isDeferred_cases deferred
  unfold callSnapshot onObject
  rw [iter,Bool.false_and,noClass]
  cases t <;> first | rfl | nomatch container

omit [DecidableEq K] in
theorem compareAll_alike {x : Value K} {items : List (Value K)}
    (alike : ∀item∈items,M.eq item x s=(.ok (M.valuesEqual s.heap item x),s)) :
    compareAll M x items s=(.ok (items.map fun item => M.valuesEqual s.heap item x),s) := by
  induction items with
  | nil => rfl
  | cons item items ih =>
    rw [compareAll,alike item List.mem_cons_self]
    dsimp only
    rw [ih fun i hi => alike i (List.mem_cons_of_mem _ hi)]
    rfl

omit [DecidableEq K] in
theorem tableRefusal_none (taken : callRefusal method args=none) :
    tableRefusal method args=none := by
  unfold callRefusal at taken
  unfold tableRefusal
  cases args with
  | nil => simp at taken
  | cons x rest =>
    by_cases count : method="count"
    · simp_all
    · simp [count]

omit [DecidableEq K] in
/-- `count` and `index` leave the heap and charge nothing. -/
theorem answer_quiet {h : Heap K} {a : Nat} {x : Value K} {start : Nat} {equal : List Bool}
    {r : Except (Failure K) (MethodOutcome K)} {h' : Heap K}
    (answered : answer M h a method x start equal=(r,h')) (named : looks method=true)
    (quiet : method≠"remove") : h'=h ∧ ∀o,r=.ok o → o.memDelta=0 := by
  have names : method="count" ∨ method="index" := by simpa [looks,quiet] using named
  unfold answer at answered
  rcases names with rfl | rfl
  · cases answered
    exact ⟨rfl,fun o ho => by cases ho; rfl⟩
  · cases found : equal.findIdx? id with
    | none =>
      rw [found] at answered
      cases answered
      exact ⟨rfl,fun o ho => by cases ho⟩
    | some i =>
      rw [found] at answered
      cases answered
      exact ⟨rfl,fun o ho => by cases ho; rfl⟩

omit [DecidableEq K] in
theorem charge_nothing {o : MethodOutcome K} (delta : o.memDelta=0) (fits : s.checkMemory=none) :
    charge (.ok o) s=(.ok o.value,{s with journal := s.journal++[0]}) := by
  have same : s.trackAllocation 0={s with journal := s.journal++[0]} := by
    unfold Budget.InterpreterState.trackAllocation
    rw [show s.memoryUsedBytes.add 0=s.memoryUsedBytes by
      simp [Budget.Usize.add,saturatingAdd,s.memoryUsedBytes.bounded]]
    rfl
  unfold charge Budget.applyMemDelta
  simp only [delta,if_pos le_rfl,Int.toNat_zero,same]
  rw [show Budget.InterpreterState.checkMemory {s with journal := s.journal++[0]}=none from fits]

omit [DecidableEq K] in
theorem listEqMethod_alike {charged : Bool} {a : Nat}
    (alike : ComparesAlike M charged (.list a) method args [] s) (named : looks method=true) :
    listEqMethod M charged a method args s=onObject M charged (.list a) method args [] s := by
  obtain ⟨taken,budget,same⟩ := alike a rfl named rfl
  have notSort : (method=="sort")=false := by
    by_contra h
    rw [Bool.not_eq_false,beq_iff_eq] at h
    subst h
    revert named
    decide
  unfold listEqMethod onObject table
  dsimp only
  rw [notSort,named,taken,tableRefusal_none taken,List.isEmpty_nil,Bool.and_self]
  dsimp only
  cases needed : needle M none method args (s.heap.items a).length with
  | error e => cases charged <;> rfl
  | ok w =>
    obtain ⟨x,start,stop⟩ := w
    dsimp only
    rw [compareAll_alike (same x start stop needed)]
    dsimp only
    rcases answered : answer M s.heap a method x start
      ((((s.heap.items a).take stop).drop start).map fun item => M.valuesEqual s.heap item x)
      with ⟨r,h⟩
    cases charged with
    | false => cases r <;> rfl
    | true =>
      by_cases removes : method="remove"
      · subst removes
        rfl
      · obtain ⟨rfl,free⟩ := answer_quiet answered named removes
        rw [beq_eq_false_iff_ne.mpr removes]
        cases r with
        | error e => rfl
        | ok o => exact (charge_nothing (free o rfl) (budget rfl removes)).symm

omit [DecidableEq K] in
theorem directly_alike {charged : Bool} (alike : ComparesAlike M charged t method args kwargs s) :
    directly M charged t method args kwargs s=onObject M charged t method args kwargs s := by
  unfold directly
  cases t with
  | list a =>
    cases finds : looks method && kwargs.isEmpty with
    | false => rfl
    | true =>
      obtain ⟨named,empty⟩ := Bool.and_eq_true_iff.mp finds
      rw [List.isEmpty_iff.mp empty] at alike ⊢
      exact listEqMethod_alike alike named
  | _ => rfl

omit [DecidableEq K] in
theorem callObject_plain {charged : Bool} (deferred : isDeferred t method args=false)
    (alike : ComparesAlike M charged t method args kwargs s) :
    callObject M charged t method args kwargs s=onObject M charged t method args kwargs s := by
  obtain ⟨iter,noClass⟩ := isDeferred_cases deferred
  unfold callObject
  rw [iter,Bool.false_and,noClass]
  exact directly_alike alike

omit [DecidableEq K] in
/-- A method captured by value is the method of the container that was captured. -/
theorem callSnapshot_object (container : t.isContainer=true)
    (alike : ComparesAlike M false t method args kwargs s) :
    callSnapshot M t method args kwargs s=callObject M false t method args kwargs s := by
  unfold callSnapshot callObject
  rw [directly_alike alike]
  unfold onObject
  cases t <;> first | rfl | nomatch container

/-- A machine that refuses and changes nothing. -/
def plainMachine : Machine String Unit where
  keys := ⟨fun _ => .error (.typeError "unhashable"),id⟩
  evalExpr _ s := (.ok .none,s)
  isBlocked _ := false
  typeObjectOf v := .classRef v.typeName
  getattrOther v name _ s := (.error (attributeError v name),s)
  otherDunders _ := none
  methods h obj method _ _ := (.error (attributeError obj method),h)
  valuesEqual _ _ _ := false
  eq _ _ s := (.ok false,s)
  sequenceIndexRange _ len := .ok (0,len)
  repr _ v := v.typeName
  estimateValueSize _ _ := 8
  inlineMethods h obj method _ _ := (.error (attributeError obj method),h,obj)
  isTruthy _ _ := false
  dsuSort items _ _ s := (.ok items,s)
  makeIterator v s := (.ok v,s)
  callTypeMethod _ _ _ _ s := (.ok .none,s)
  boundStrFormat template _ _ _ s := (.ok (.string template),s)
  callInstanceMethod _ _ _ _ _ _ := none

end Calls

end InterpretThis.Place
