import InterpretThis.State.Memory

namespace InterpretThis.Ast

/-- The node types of the syntax tree. -/
inductive Kind where
  -- statements
  | functionDef
  | asyncFunctionDef
  | classDef
  | return
  | delete
  | assign
  | typeAlias
  | augAssign
  | annAssign
  | for
  | asyncFor
  | while
  | if
  | with
  | asyncWith
  | match
  | raise
  | try
  | tryStar
  | assert
  | import
  | importFrom
  | global
  | nonlocal
  | expr
  | pass
  | break
  | continue
  -- expressions
  | boolOp
  | namedExpr
  | binOp
  | unaryOp
  | lambda
  | ifExp
  | dict
  | set
  | listComp
  | setComp
  | dictComp
  | generatorExp
  | await
  | yield
  | yieldFrom
  | compare
  | call
  | formattedValue
  | joinedStr
  | constant
  | attribute
  | subscript
  | starred
  | name
  | list
  | tuple
  | slice
  -- parts of other nodes
  | arg
  | keyword
  | alias
  | exceptHandler
  | matchCase
  | withItem
  | comprehension
  | typeParam
  -- patterns
  | matchValue
  | matchSingleton
  | matchSequence
  | matchMapping
  | matchClass
  | matchStar
  | matchAs
  | matchOr
  deriving DecidableEq

/-- The place a node takes in its parent. `header` holds what a definition evaluates before its
body (parameters, bases, keywords, decorators, type parameters) and annotations, `target` what
is assigned to or deleted, down to the elements of a tuple or list, `handler` the handlers of a
`try` and `part` the items, cases, patterns, aliases and comprehension clauses. -/
inductive Field where
  | header
  | body
  | orelse
  | finalbody
  | handler
  | target
  | value
  | iter
  | part
  deriving DecidableEq

/-- A syntax tree. `idents` are the identifiers that the node itself spells: the `id` of a name,
the `attr` of an attribute, the names of a definition, parameter, keyword, `global`,
`nonlocal`, handler or type parameter, the name and `as` name of an alias, and what a pattern
captures. An alias names what it binds last; of a dotted path only a first component that is
bound is an identifier. -/
inductive Node where
  | mk (kind : Kind) (field : Field) (idents : List String) (children : List Node)

namespace Node

def kind : Node → Kind
  | mk k _ _ _ => k

def field : Node → Field
  | mk _ f _ _ => f

def idents : Node → List String
  | mk _ _ ids _ => ids

def children : Node → List Node
  | mk _ _ _ cs => cs

end Node

section Effects

/-- What an alias binds. -/
def aliasName (idents : List String) : List String :=
  match idents.getLast? with
  | some n => if n="*" then [] else [n]
  | none => []

/-- The classes of `collections` that their first import defines. -/
def isUserCollection (name : String) : Bool :=
  name=="UserDict"||name=="UserList"||name=="UserString"

/-- The names that executing the node itself writes in the frame it runs in. -/
def bindsHere (kind : Kind) (field : Field) (idents : List String) : List String :=
  match kind with
  | .name => if field=.target then idents else []
  | .functionDef => idents
  | .asyncFunctionDef => idents
  | .classDef => idents
  -- `import_binding` also writes and removes the own name of the class
  | .alias => aliasName idents++idents.dropLast.filter isUserCollection
  | .exceptHandler => idents
  | .matchAs => idents
  | .matchStar => idents
  | .matchMapping => idents
  | _ => []

/-- Children that run in this frame. The body of a definition has a scope of its own, as have
the targets of a comprehension, and the targets of an annotation without a value are not
assigned. -/
def runsHere (kind : Kind) (children : List Node) (child : Node) : Bool :=
  match kind with
  | .functionDef => child.field≠.body
  | .asyncFunctionDef => child.field≠.body
  | .classDef => child.field≠.body
  | .lambda => child.field≠.body
  | .comprehension => child.field≠.target
  | .annAssign => child.field≠.target||children.any (fun c => c.field=.value)
  | _ => true

mutual

/-- The names that executing a node can write in the frame it runs in. -/
def binds : Node → List String
  | .mk kind field idents children =>
    bindsHere kind field idents++bindsIn kind children children

def bindsIn (kind : Kind) (all : List Node) : List Node → List String
  | [] => []
  | c::cs => (if runsHere kind all c then binds c else [])++bindsIn kind all cs

end

def bodyBinds (body : List Node) : List String := body.flatMap binds

end Effects

section Collection

mutual

def collectTargetNames : Node → List String
  | .mk kind _ idents children =>
    match kind with
    | .name => idents
    | .tuple => targetNamesIn children
    | .list => targetNamesIn children
    | .starred => targetNamesIn children
    | _ => []

def targetNamesIn : List Node → List String
  | [] => []
  | c::cs => collectTargetNames c++targetNamesIn cs

end

mutual

/-- Lambdas are not entered, nor the targets of a comprehension. -/
def collectWalrusTargets : Node → List String
  | .mk kind _ _ children =>
    match kind with
    | .lambda => []
    | .name => []
    | .constant => []
    | kind => walrusIn kind children

def walrusIn (kind : Kind) : List Node → List String
  | [] => []
  | c::cs =>
    (if c.field=.target then if kind=.namedExpr then collectTargetNames c else []
      else collectWalrusTargets c)++walrusIn kind cs

end

/-- The statements that `collect_assigned_names_inner` walks into. -/
def walked : Kind → Bool
  | .assign => true
  | .augAssign => true
  | .annAssign => true
  | .delete => true
  | .expr => true
  | .return => true
  | .raise => true
  | .assert => true
  | .for => true
  | .asyncFor => true
  | .while => true
  | .if => true
  | .with => true
  | .asyncWith => true
  | .withItem => true
  | .try => true
  | .exceptHandler => true
  | .import => true
  | .importFrom => true
  | _ => false

mutual

def collectAssigned : Node → List String
  | .mk kind _ idents children =>
    match kind with
    | .functionDef => idents
    | .asyncFunctionDef => idents
    | .classDef => idents
    | .alias => aliasName idents
    | .exceptHandler => idents++assignedIn children
    | kind => if walked kind then assignedIn children else []

def assignedIn : List Node → List String
  | [] => []
  | c::cs => (match c.field with
    | .target => collectTargetNames c
    | .value => collectWalrusTargets c
    | .iter => collectWalrusTargets c
    | .header => []
    | _ => collectAssigned c)++assignedIn cs

end

def collectAssignedNames (body : List Node) : List String := body.flatMap collectAssigned

mutual

/-- The names declared by the `declaration` statements in the blocks that `enters` admits. -/
def collectDeclared (declaration : Kind) (enters : Kind → Bool) : Node → List String
  | .mk kind _ idents children =>
    if kind=declaration then idents
    else if enters kind then declaredIn declaration enters children else []

def declaredIn (declaration : Kind) (enters : Kind → Bool) : List Node → List String
  | [] => []
  | c::cs => (match c.field with
    | .body => collectDeclared declaration enters c
    | .orelse => collectDeclared declaration enters c
    | .finalbody => collectDeclared declaration enters c
    | .handler => collectDeclared declaration enters c
    | _ => [])++declaredIn declaration enters cs

end

/-- The second list that `collect_assigned_names_inner` fills. -/
def collectGlobalNames (body : List Node) : List String := body.flatMap (collectDeclared .global walked)

/-- The blocks of `collect_nonlocal_names_inner`. -/
def nonlocalBlock : Kind → Bool
  | .if => true
  | .for => true
  | .while => true
  | .with => true
  | .try => true
  | .exceptHandler => true
  | _ => false

def collectNonlocalNames (body : List Node) : List String :=
  body.flatMap (collectDeclared .nonlocal nonlocalBlock)

end Collection

section Pass

/-- The nodes whose identifiers the pass rewrites; the default fold leaves the others alone. -/
def rewrites : Kind → Bool
  | .name => true
  | .attribute => true
  | .functionDef => true
  | .asyncFunctionDef => true
  | .classDef => true
  | .global => true
  | .nonlocal => true
  | _ => false

/-- The top of the class stack while a child is folded: only the body of a class has the class
on it, under its original name. -/
def childContext (context : Option String) (kind : Kind) (idents : List String) (child : Node) :
    Option String :=
  if kind=.classDef ∧ child.field=.body then some (stripUnderscores (idents.headD "")) else context

mutual

def foldNode (context : Option String) : Node → Node
  | .mk kind field idents children =>
    .mk kind field (if rewrites kind then idents.map (mangleIdent context) else idents)
      (foldChildren context kind idents children)

def foldChildren (context : Option String) (kind : Kind) (idents : List String) :
    List Node → List Node
  | [] => []
  | c::cs => foldNode (childContext context kind idents c) c::foldChildren context kind idents cs

end

def manglePrivateNames (suite : List Node) : List Node := suite.map (foldNode none)

end Pass

section Occurrences

/-- An identifier of a tree with the node that spells it and the innermost class whose body it
stands in, leading underscores stripped. -/
structure Occurrence where
  context : Option String
  kind : Kind
  ident : String

/-- The spelling that mangling gives a name. -/
def Occurrence.spelling (o : Occurrence) : String :=
  match o.context with
  | some cls => if cls≠"" ∧ isPrivateName o.ident=true then "_"++cls++o.ident else o.ident
  | none => o.ident

mutual

def occurrences (context : Option String) : Node → List Occurrence
  | .mk kind _ idents children =>
    idents.map (fun id => ⟨context,kind,id⟩)++occurrencesIn context kind idents children

def occurrencesIn (context : Option String) (kind : Kind) (idents : List String) :
    List Node → List Occurrence
  | [] => []
  | c::cs =>
    occurrences (childContext context kind idents c) c++occurrencesIn context kind idents cs

end

mutual

def identifiers : Node → List String
  | .mk _ _ idents children => idents++identifiersIn children

def identifiersIn : List Node → List String
  | [] => []
  | c::cs => identifiers c++identifiersIn cs

end

def suiteOccurrences (suite : List Node) : List Occurrence := suite.flatMap (occurrences none)

/-- A private name in the body of a class with a letter in its name. -/
def Occurrence.Mangled (o : Occurrence) : Prop :=
  isPrivateName o.ident=true ∧ ∃cls, o.context=some cls ∧ cls≠""

mutual

/-- The names bound in any scope of a tree, as often as they are. -/
def bindings : Node → List String
  | .mk kind field idents children =>
    (if kind=.arg ∨ kind=.typeParam then idents else bindsHere kind field idents)++
      bindingsIn children

def bindingsIn : List Node → List String
  | [] => []
  | c::cs => bindings c++bindingsIn cs

end

/-- A renaming of all occurrences, after which a use of a name that is bound once, in the module,
still names what the module binds. -/
structure Consistent (suite : List Node) : Prop where
  respelled : identifiersIn (manglePrivateNames suite)=
    (suiteOccurrences suite).map Occurrence.spelling
  resolved : ∀(i : Nat) (o : Occurrence), (suiteOccurrences suite)[i]?=some o → o.kind=.name →
    o.ident∈bodyBinds suite → (bindingsIn suite).count o.ident=1 →
    ∃n∈bodyBinds (manglePrivateNames suite),
      (identifiersIn (manglePrivateNames suite))[i]?=some n

/-- What the pass does to the names, attributes, definitions and declarations of a module, and that
it leaves what is not private alone. -/
structure Renamed (suite : List Node) : Prop where
  spelled : ∀(i : Nat) (o : Occurrence), (suiteOccurrences suite)[i]?=some o →
    rewrites o.kind=true → (identifiersIn (manglePrivateNames suite))[i]?=some o.spelling
  kept : ∀(i : Nat) (o : Occurrence), (suiteOccurrences suite)[i]?=some o → ¬o.Mangled →
    (identifiersIn (manglePrivateNames suite))[i]?=some o.ident
  linked : ∀(i j : Nat) (o p : Occurrence), (suiteOccurrences suite)[i]?=some o →
    (suiteOccurrences suite)[j]?=some p → rewrites o.kind=true → rewrites p.kind=true →
    o.context=p.context → ((identifiersIn (manglePrivateNames suite))[i]?=
      (identifiersIn (manglePrivateNames suite))[j]? ↔ o.ident=p.ident ∨
        o.Mangled ∧ ¬p.Mangled ∧ o.spelling=p.ident ∨ p.Mangled ∧ ¬o.Mangled ∧ p.spelling=o.ident)

end Occurrences

section Renaming

def Occurrence.folded (o : Occurrence) : String :=
  if rewrites o.kind then mangleIdent o.context o.ident else o.ident

theorem mangleIdent_spelling (context : Option String) (kind : Kind) (ident : String) :
    mangleIdent context ident=Occurrence.spelling ⟨context,kind,ident⟩ := by
  cases context with
  | none => rfl
  | some cls =>
    simp only [mangleIdent,Occurrence.spelling]
    by_cases hc : cls=""
    · simp [hc]
    · cases hp : isPrivateName ident <;> simp [hc]

mutual

theorem identifiers_fold (context : Option String) (n : Node) :
    identifiers (foldNode context n)=(occurrences context n).map Occurrence.folded := by
  cases n with
  | mk kind field idents children =>
    have hchildren := identifiersIn_fold context kind idents children
    have hidents : (if rewrites kind then idents.map (mangleIdent context) else idents)=
        idents.map (fun id => Occurrence.folded ⟨context,kind,id⟩) := by
      cases hk : rewrites kind <;> simp [Occurrence.folded,hk]
    simp only [foldNode,identifiers,occurrences,hidents,hchildren,List.map_append,List.map_map]
    rfl

theorem identifiersIn_fold (context : Option String) (kind : Kind) (idents : List String)
    (children : List Node) :
    identifiersIn (foldChildren context kind idents children)=
      (occurrencesIn context kind idents children).map Occurrence.folded := by
  cases children with
  | nil => rfl
  | cons c cs =>
    have hc := identifiers_fold (childContext context kind idents c) c
    have hcs := identifiersIn_fold context kind idents cs
    simp only [foldChildren,identifiersIn,occurrencesIn,hc,hcs,List.map_append]

end

theorem identifiers_mangled (suite : List Node) :
    identifiersIn (manglePrivateNames suite)=(suiteOccurrences suite).map Occurrence.folded := by
  induction suite with
  | nil => rfl
  | cons n suite ih =>
    have hn := identifiers_fold none n
    simp only [manglePrivateNames,suiteOccurrences] at ih ⊢
    simp only [List.map_cons,identifiersIn,List.flatMap_cons,List.map_append,hn,ih]

theorem spelling_of_mangled {o : Occurrence} (h : o.Mangled) :
    ∃cls, o.context=some cls ∧ o.spelling="_"++cls++o.ident := by
  obtain ⟨hp,cls,hcls,hne⟩ := h
  refine ⟨cls,hcls,?_⟩
  simp only [Occurrence.spelling,hcls]
  exact if_pos ⟨hne,hp⟩

theorem spelling_of_not_mangled {o : Occurrence} (h : ¬o.Mangled) : o.spelling=o.ident := by
  rw [Occurrence.spelling]
  cases hctx : o.context with
  | none => rfl
  | some cls => exact if_neg fun hc => h ⟨hc.2,cls,hctx,hc.1⟩

theorem folded_of_rewrites {o : Occurrence} (h : rewrites o.kind=true) : o.folded=o.spelling := by
  rw [Occurrence.folded,if_pos h]
  exact mangleIdent_spelling o.context o.kind o.ident

theorem folded_of_not_mangled {o : Occurrence} (h : ¬o.Mangled) : o.folded=o.ident := by
  rw [Occurrence.folded]
  split
  · exact (mangleIdent_spelling o.context o.kind o.ident).trans (spelling_of_not_mangled h)
  · rfl

/-- In one class two spellings agree for one name, or where a private name meets its own spelling. -/
theorem spelling_eq_iff {o p : Occurrence} (hctx : o.context=p.context) :
    o.spelling=p.spelling ↔ o.ident=p.ident ∨
      o.Mangled ∧ ¬p.Mangled ∧ o.spelling=p.ident ∨
      p.Mangled ∧ ¬o.Mangled ∧ p.spelling=o.ident := by
  have alike (h : o.ident=p.ident) : o.Mangled ↔ p.Mangled := by
    rw [Occurrence.Mangled,Occurrence.Mangled,h,hctx]
  by_cases ho : o.Mangled <;> by_cases hp : p.Mangled
  · obtain ⟨cls,hcls,hso⟩ := spelling_of_mangled ho
    obtain ⟨cls',hcls',hsp⟩ := spelling_of_mangled hp
    rw [← hctx,hcls] at hcls'
    cases hcls'
    have cancel : o.spelling=p.spelling ↔ o.ident=p.ident := by
      rw [hso,hsp]
      exact String.append_right_inj _
    simp [cancel,ho,hp]
  · have differ : o.ident≠p.ident := fun h => hp ((alike h).mp ho)
    simp [spelling_of_not_mangled hp,ho,hp,differ]
  · have differ : o.ident≠p.ident := fun h => ho ((alike h).mpr hp)
    simp [spelling_of_not_mangled ho,ho,hp,differ,eq_comm]
  · simp [spelling_of_not_mangled ho,spelling_of_not_mangled hp,ho,hp]

theorem mangling_consistent (suite : List Node) : Renamed suite := by
  have after (i : Nat) (o : Occurrence) (h : (suiteOccurrences suite)[i]?=some o) :
      (identifiersIn (manglePrivateNames suite))[i]?=some o.folded := by
    rw [identifiers_mangled,List.getElem?_map,h]
    rfl
  constructor
  case spelled =>
    intro i o hi hk
    rw [after i o hi,folded_of_rewrites hk]
  case kept =>
    intro i o hi hm
    rw [after i o hi,folded_of_not_mangled hm]
  case linked =>
    intro i j o p hi hj ho hp hctx
    rw [after i o hi,after j p hj,folded_of_rewrites ho,folded_of_rewrites hp,Option.some.injEq,
      spelling_eq_iff hctx]

/-- `__x = 1; class C: y = __x`. -/
def moduleName : List Node :=
  [.mk .assign .body [] [.mk .name .target ["__x"] [],.mk .constant .value [] []],
    .mk .classDef .body ["C"] [.mk .assign .body [] [.mk .name .target ["y"] [],
      .mk .name .value ["__x"] []]]]

/-- The use in the class no longer names the variable of the module. -/
theorem module_name_lost : ¬∀suite, Consistent suite := by
  intro h
  obtain ⟨n,hn,huse⟩ := (h moduleName).resolved 3 ⟨some "C",.name,"__x"⟩ rfl rfl (by decide)
    (by decide)
  have hspelled : (identifiersIn (manglePrivateNames moduleName))[3]?=some "_C__x" := by decide
  rw [hspelled,Option.some.injEq] at huse
  rw [← huse] at hn
  revert hn
  decide

end Renaming

end InterpretThis.Ast
