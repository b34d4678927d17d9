import InterpretThis.ClassTable.Statement

namespace InterpretThis
namespace ClassTable

variable {P O B : Type}

/-- Walk the recorded order of `className`. -/
def State.walk {A : Type} (s : State P O B) (className : String) (f : ClassValue P O → Option A) :
    Option (String×A) :=
  Lineage.find s.classes ClassValue.mro className f

def lookupMethodInMro (s : State P O B) (className method : String) :
    Option (String×FunctionDef P) :=
  s.walk className (·.methods method)

def lookupProperty (s : State P O B) (className attr : String) : Option (PropertyDef P) :=
  (s.walk className (·.properties attr)).map Prod.snd

def lookupStaticMethod (s : State P O B) (className method : String) : Option (FunctionDef P) :=
  (s.walk className (·.staticMethods method)).map Prod.snd

def lookupClassMethod (s : State P O B) (className method : String) : Option (FunctionDef P) :=
  (s.walk className (·.classMethods method)).map Prod.snd

def lookupClassAttr (s : State P O B) (className attr : String) : Option (Value P O) :=
  (s.walk className (·.classAttrs attr)).map Prod.snd

def asObject : Value P O → Option (String×ℕ)
  | .object n address => some (n,address)
  | _ => none

def lookupClassAttrInstance (s : State P O B) (className attr : String) : Option (String×ℕ) :=
  (s.walk className fun c => (c.classAttrs attr).bind asObject).map Prod.snd

/-- What `Class.attr` is. -/
inductive Attribute (P O : Type) where
  | text (t : String)
  | function (f : FunctionDef P)
  | unboundClassMethod (className method : String)
  | value (v : Value P O)
  | property (className name : String)
  /-- `AttributeError`. -/
  | missing

def metaclassAttribute (s : State P O B) (kind attr : String) : Attribute P O :=
  match lookupClassAttr s kind attr with
  | some v => .value v
  | none =>
    match lookupMethodInMro s kind attr with
    | some (_,f) => .function f
    | none => .missing

def qualnameOf (s : State P O B) (className : String) : String :=
  match s.classes className with
  | some c => if c.qualname="" then className else c.qualname
  | none => className

/-- `class_attribute`. -/
def classAttribute (s : State P O B) (className attr : String) : Attribute P O :=
  if attr="__name__" then .text className
  else if attr="__qualname__" then .text (qualnameOf s className)
  else
    match lookupStaticMethod s className attr with
    | some f => .function f
    | none =>
      match lookupClassMethod s className attr with
      | some _ => .unboundClassMethod className attr
      | none =>
        match lookupClassAttr s className attr with
        | some v => .value v
        | none =>
          match s.walk className (·.properties attr) with
          | some (owner,_) => .property owner attr
          | none =>
            match lookupMethodInMro s className attr with
            | some (_,f) => .function f
            | none =>
              match (s.classes className).bind (·.metaclass) with
              | some kind => metaclassAttribute s kind attr
              | none => .missing

inductive SuperError where
  | notRegistered
  | notInMro
  | missing

/-- The classes behind `definingClass` in the order of the receiver's class. -/
def behind (s : State P O B) (definingClass className : String) :
    Except SuperError (List String) :=
  match s.classes className with
  | none => .error .notRegistered
  | some c =>
    match c.mro.idxOf? definingClass with
    | none => .error .notInMro
    | some start => .ok (c.mro.drop (start+1))

/-- The method that `super_method_call` runs; without one the defaults of `object` apply. -/
def superMethod (s : State P O B) (definingClass className method : String) :
    Except SuperError (Option (String×FunctionDef P)) :=
  (behind s definingClass className).map (Lineage.findIn s.classes (·.methods method))

inductive SuperAttribute (P O : Type) where
  | property (p : PropertyDef P)
  | value (v : Value P O)
  /-- A method of that name ends the search. -/
  | shadowed

def superAttributeIn (attr : String) (c : ClassValue P O) : Option (SuperAttribute P O) :=
  match c.properties attr with
  | some p => some (.property p)
  | none =>
    match c.classAttrs attr with
    | some v => some (.value v)
    | none => if (c.methods attr).isSome then some .shadowed else none

/-- `super_attribute`. -/
def superAttribute (s : State P O B) (definingClass className attr : String) :
    Except SuperError (SuperAttribute P O) :=
  match behind s definingClass className with
  | .error e => .error e
  | .ok names =>
    match Lineage.findIn s.classes (superAttributeIn attr) names with
    | some (_,.shadowed) => .error .missing
    | some (_,found) => .ok found
    | none => .error .missing

def bareName (name : String) : String :=
  String.ofList (name.toList.reverse.takeWhile (· ≠ '.')).reverse

def isCollectionsAbc (name : String) : Bool :=
  ["Hashable","Iterable","Iterator","Reversible","Generator","Sized","Container","Callable",
    "Collection","Sequence","MutableSequence","ByteString","Set","MutableSet","Mapping",
    "MutableMapping","MappingView","KeysView","ItemsView","ValuesView"].contains (bareName name)

/-- `value_matches_abc` on an instance of `className`. -/
def instanceMatchesAbc (s : State P O B) (className abc : String) : Bool :=
  let hasDunder dunder := (lookupMethodInMro s className dunder).isSome
  match bareName abc with
  | "Callable" => hasDunder "__call__"
  | "Iterable" => hasDunder "__iter__"
  | "Iterator" => hasDunder "__next__"
  | "Sized" => hasDunder "__len__"
  | "Container" => hasDunder "__contains__"
  | "Hashable" => true
  | _ => false

/-- `check_isinstance` on an instance of `className`. -/
def checkIsinstance (s : State P O B) (className typeName : String) : Bool :=
  if typeName="object" then true
  else if isCollectionsAbc typeName then instanceMatchesAbc s className typeName
  else if typeName="type" then false
  else if className=typeName then true
  else
    match s.classes className with
    | some c => c.mro.any (·==typeName)
    | none => false

/-- `type(x)` of an instance. -/
def typeObjectOf (className : String) : Value P O := .cls className

def State.body (s : State P O B) (f : FunctionDef P) : Option B := s.functionBodies f.key

/-- Everything that a program can see of a class through an instance or an alias of it. -/
structure View (P O B : Type) where
  bases : Option (List String)
  mro : Option (List String)
  method : String → Option (String×FunctionDef P×Option B)
  getter : String → Option (FunctionDef P×Option B)
  setter : String → Option (FunctionDef P×Option B)
  deleter : String → Option (FunctionDef P×Option B)
  staticMethod : String → Option (FunctionDef P×Option B)
  classMethod : String → Option (FunctionDef P×Option B)
  classAttr : String → Option (Value P O)
  descriptor : String → Option (String×ℕ)
  classAttribute : String → Attribute P O
  superMethod : String → String → Except SuperError (Option (String×FunctionDef P×Option B))
  superAttribute : String → String → Except SuperError (SuperAttribute P O)
  isinstance : String → Bool

def State.running (s : State P O B) (f : FunctionDef P) : FunctionDef P×Option B := (f,s.body f)

def view (s : State P O B) (c : String) : View P O B where
  bases := (s.classes c).map (·.bases)
  mro := (s.classes c).map (·.mro)
  method m := (lookupMethodInMro s c m).map fun p => (p.1,s.running p.2)
  getter a := (lookupProperty s c a).map fun p => s.running p.getter
  setter a := (lookupProperty s c a).bind fun p => p.setter.map s.running
  deleter a := (lookupProperty s c a).bind fun p => p.deleter.map s.running
  staticMethod m := (lookupStaticMethod s c m).map s.running
  classMethod m := (lookupClassMethod s c m).map s.running
  classAttr a := lookupClassAttr s c a
  descriptor a := lookupClassAttrInstance s c a
  classAttribute a := ClassTable.classAttribute s c a
  superMethod d m := (ClassTable.superMethod s d c m).map
    (Option.map fun p => (p.1,s.running p.2))
  superAttribute d a := ClassTable.superAttribute s d c a
  isinstance t := checkIsinstance s c t

variable {s s' : State P O B} {e : Event P O B}

/-- What a step of the program does to the tables. -/
inductive Moves (s : State P O B) : Event P O B → State P O B → Prop where
  | stays (e : Event P O B) : Moves s e s
  | opens {name bases metaclass} (kind : Option String) (bs : List String) (qualname : String)
      (hkind : ∀ k,kind=some k →
        (s.classes k).isSome ∨ ∃ c v,s.classes c=some v ∧ v.metaclass=some k) :
      Moves s (.openClass name bases metaclass)
        {s with builds := .new name bs kind qualname::s.builds}
  | defines {name decoration data body b builds b'} (hs : s.builds=b::builds)
      (hb : b.classify name ⟨.member b.name (decoration.rest name),data⟩ decoration=some b') :
      Moves s (.defMethod name decoration data body)
        {(s.cache (.member b.name (decoration.rest name)) body) with builds := b'::builds}
  | binds {name v b builds} (hs : s.builds=b::builds) :
      Moves s (.bindAttr name v)
        {s with builds :=
          {b with classAttrs := Function.update b.classAttrs name (some v)}::builds}
  | closes {b builds mro} (hs : s.builds=b::builds)
      (hm : Classes.buildMro b.name b.bases s.registry=.ok mro) :
      Moves s .closeClass
        (({s with builds := builds} : State P O B).register b.name (b.classValue mro))
  | drops {b builds} (e : Event P O B) (hs : s.builds=b::builds) : Moves s e {s with builds := builds}
  | defs {name data body} : Moves s (.defFunction name data body)
      {(s.cache (.function name s.nextCursor) body) with nextCursor := s.nextCursor+1}
  | creates {name bases attrs bs mro} (hb : typeBases bases=some bs)
      (hm : Classes.buildMro name bs s.registry=.ok mro) :
      Moves s (.typeNew name bases attrs) (s.register name
        {(ClassValue.new name : ClassValue P O) with
          classAttrs := attrTable attrs, bases := bs, mro := mro})
  | makes {name fields defaults made} :
      Moves s (.namedtuple name fields defaults made)
        ((s.cacheMembers name made namedtupleMembers).register name
          (namedtupleClass name fields defaults made))
  | marks {name} (hn : s.classes name=none) : Moves s (.marker name) (s.register name (.new name))
  | assigns {cls attr v c} (hc : s.classes cls=some c) :
      Moves s (.setClassAttr cls attr v)
        (s.register cls {c with classAttrs := Function.update c.classAttrs attr (some v)})

theorem metaclassName_cls {metaclass : Option (Value P O)} {k : String}
    (h : metaclassName metaclass=.ok (some k)) : metaclass=some (.cls k) := by
  unfold metaclassName at h
  split at h <;> cases h
  rfl

theorem inheritedMetaclass_of {bs : List String} {k : String}
    (h : inheritedMetaclass s bs=some k) : ∃ c v,s.classes c=some v ∧ v.metaclass=some k := by
  obtain ⟨c,-,hc⟩ := List.exists_of_findSome?_eq_some h
  obtain ⟨v,hv,hk⟩ := Option.bind_eq_some_iff.mp hc
  exact ⟨c,v,hv,hk⟩

theorem openClass_moves {name : String} {bases : List (BaseExpr P O)}
    {metaclass : Option (Value P O)} (h : step s (.openClass name bases metaclass)=some s') :
    Moves s (.openClass name bases metaclass) s' := by
  simp only [step] at h
  split at h
  next hheld =>
    have hmeta := (Bool.and_eq_true_iff.mp hheld).1
    split at h
    next kind bs hk hb =>
      cases h
      refine .opens _ bs _ fun k hsome => ?_
      cases kind with
      | some k' =>
        have hcls := metaclassName_cls hk
        rw [hcls] at hmeta
        cases hsome
        exact .inl hmeta
      | none => exact .inr (inheritedMetaclass_of hsome)
    next =>
      cases h
      exact .stays _
  next => cases h

theorem closeClass_moves (h : step s .closeClass=some s') : Moves s .closeClass s' := by
  simp only [step] at h
  cases hs : s.builds with
  | nil =>
    rw [hs] at h
    cases h
  | cons b builds =>
    rw [hs] at h
    simp only at h
    cases hm : Classes.buildMro b.name b.bases s.registry with
    | ok mro =>
      rw [hm] at h
      cases h
      exact .closes hs hm
    | error failure =>
      rw [hm] at h
      cases h
      exact .drops _ hs

theorem typeNew_moves {name : String} {bases : List (Value P O)} {attrs : List (String×Value P O)}
    (h : step s (.typeNew name bases attrs)=some s') : Moves s (.typeNew name bases attrs) s' := by
  simp only [step] at h
  split at h
  next =>
    cases hb : typeBases bases with
    | none =>
      rw [hb] at h
      cases h
      exact .stays _
    | some bs =>
      rw [hb] at h
      simp only at h
      cases hm : Classes.buildMro name bs s.registry with
      | ok mro =>
        rw [hm] at h
        cases h
        exact .creates hb hm
      | error failure =>
        rw [hm] at h
        cases h
        exact .stays _
  next => cases h

theorem step_moves (h : step s e=some s') : Moves s e s' := by
  cases e with
  | openClass name bases metaclass => exact openClass_moves h
  | closeClass => exact closeClass_moves h
  | typeNew name bases attrs => exact typeNew_moves h
  | defMethod name decoration data body =>
    cases hs : s.builds with
    | nil => simp only [step,hs] at h; cases h
    | cons b builds =>
      cases hb : b.classify name ⟨.member b.name (decoration.rest name),data⟩ decoration with
      | some b' =>
        simp only [step,hs,hb] at h
        cases h
        exact .defines hs hb
      | none =>
        simp only [step,hs,hb] at h
        cases h
        exact .stays _
  | bindAttr name v =>
    cases hs : s.builds with
    | nil => simp only [step,hs] at h; cases h
    | cons b builds =>
      simp only [step,hs] at h
      split at h
      next =>
        cases h
        exact .binds hs
      next => cases h
  | abandonClass =>
    cases hs : s.builds with
    | nil => simp only [step,hs] at h; cases h
    | cons b builds =>
      simp only [step,hs] at h
      cases h
      exact .drops _ hs
  | defFunction name data body =>
    cases h
    exact .defs
  | namedtuple name fields defaults made =>
    cases h
    exact .makes
  | marker name =>
    cases hn : s.classes name with
    | some v =>
      simp only [step,hn,Option.isSome_some,if_true] at h
      cases h
      exact .stays _
    | none =>
      simp only [step,hn,Option.isSome_none,Bool.false_eq_true,if_false] at h
      cases h
      exact .marks hn
  | setClassAttr cls attr v =>
    simp only [step] at h
    split at h
    next =>
      obtain ⟨c,hc,hregister⟩ := Option.map_eq_some_iff.mp h
      cases hregister
      exact .assigns hc
    next => cases h

end ClassTable
end InterpretThis
