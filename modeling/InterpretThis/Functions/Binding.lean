import InterpretThis.Framework.Calling
import Mathlib.Data.List.Forall2
import Mathlib.Init

namespace InterpretThis.Functions

/-- A failure while a function is defined or called. -/
inductive Failure where
  | typeError (m : String)
  | runtime (m : String)

abbrev M (σ : Type) := ExceptT Failure (StateM σ)

section Definition

structure Param where
  name : String
  annotation : Option String

/-- A parameter as it is written. -/
structure ArgWithDefault (E : Type) where
  arg : String
  annotation : Option E
  default : Option E

/-- A parameter list as it is written. -/
structure Arguments (E : Type) where
  posonlyargs : List (ArgWithDefault E)
  args : List (ArgWithDefault E)
  vararg : Option String
  kwonlyargs : List (ArgWithDefault E)
  kwarg : Option String

structure FunctionParams (V : Type) where
  args : List Param
  defaults : List String
  defaultValues : List V
  vararg : Option String
  kwonlyargs : List Param
  kwDefaults : List (Option String)
  kwDefaultValues : List (Option V)
  kwarg : Option String
  posonlyCount : Nat

variable {E V σ : Type}

/-- The sources of the defaults that are there. -/
def unparseDefaults (unparseExpr : E → Except Failure String) :
    List (ArgWithDefault E) → Except Failure (List String)
  | [] => .ok []
  | a::rest =>
    match a.default with
    | some e => do
      let source ← unparseExpr e
      let sources ← unparseDefaults unparseExpr rest
      .ok (source::sources)
    | none => unparseDefaults unparseExpr rest

def unparseKwDefaults (unparseExpr : E → Except Failure String) :
    List (ArgWithDefault E) → Except Failure (List (Option String))
  | [] => .ok []
  | a::rest => do
    let source ← match a.default with
      | some e => (unparseExpr e).map some
      | none => .ok none
    let sources ← unparseKwDefaults unparseExpr rest
    .ok (source::sources)

/-- `nameOf` is the name that an annotation consists of, if it does. -/
def buildFunctionParams (unparseExpr : E → Except Failure String) (nameOf : E → Option String)
    (args : Arguments E) : Except Failure (FunctionParams V) := do
  let defaults ← unparseDefaults unparseExpr (args.posonlyargs++args.args)
  let kwDefaults ← unparseKwDefaults unparseExpr args.kwonlyargs
  .ok {
    args := (args.posonlyargs++args.args).map fun a => ⟨a.arg,a.annotation.bind nameOf⟩
    defaults := defaults
    defaultValues := []
    vararg := args.vararg
    kwonlyargs := args.kwonlyargs.map fun a => ⟨a.arg,none⟩
    kwDefaults := kwDefaults
    kwDefaultValues := []
    kwarg := args.kwarg
    posonlyCount := args.posonlyargs.length }

variable (evalDefaultSource : String → M σ V)

def evalSources : List String → M σ (List V)
  | [] => pure []
  | source::rest => do
    let v ← evalDefaultSource source
    let vs ← evalSources rest
    pure (v::vs)

def evalKwSources : List (Option String) → M σ (List (Option V))
  | [] => pure []
  | source::rest => do
    let v ← match source with
      | some source => some <$> evalDefaultSource source
      | none => pure none
    let vs ← evalKwSources rest
    pure (v::vs)

def evaluateParamDefaults (params : FunctionParams V) : M σ (FunctionParams V) := do
  let values ← if params.defaultValues.isEmpty && !params.defaults.isEmpty
    then evalSources evalDefaultSource params.defaults else pure params.defaultValues
  let kwValues ← if params.kwDefaultValues.isEmpty && !params.kwDefaults.isEmpty
    then evalKwSources evalDefaultSource params.kwDefaults else pure params.kwDefaultValues
  pure {params with defaultValues := values, kwDefaultValues := kwValues}

end Definition

section Call

variable {V σ : Type}

/-- The keyword arguments of a call, in order and all different. -/
structure Kwargs (V : Type) where
  entries : List (String×V)
  distinct : (entries.map Prod.fst).Nodup

def Kwargs.get (kwargs : Kwargs V) (name : String) : Option V := kwargs.entries.lookup name

def Kwargs.containsKey (kwargs : Kwargs V) (name : String) : Bool := (kwargs.get name).isSome

/-- What a parameter is bound to. -/
inductive Bound (V : Type) where
  | value (v : V)
  | tuple (vs : List V)
  | dict (entries : List (String×V))

abbrev Scope (V : Type) := List (String×Bound V)

def Scope.insert (name : String) (b : Bound V) : Scope V → Scope V
  | [] => [(name,b)]
  | e::rest => if e.1=name then (name,b)::rest else e::insert name b rest

def callPrefix (funcName : String) : String := if funcName.isEmpty then "" else funcName++"() "

def quoted (name : String) : String := "'"++name++"'"

def missingPositionalError (funcName : String) (missing : List String) : Failure :=
  let names := match missing with
    | [] => ""
    | [a] => quoted a
    | [a,b] => quoted a++" and "++quoted b
    | many => ", ".intercalate (many.dropLast.map quoted)++", and "++quoted (many.getLastD "")
  let plural := if missing.length=1 then "" else "s"
  .typeError (callPrefix funcName++"missing "++toString missing.length++
    " required positional argument"++plural++": "++names)

variable (evalDefaultSource : String → M σ V) (noneValue : V) (params : FunctionParams V)
variable (funcName : String) (args : List V) (kwargs : Kwargs V)

def checkArity : M σ Unit :=
  if params.vararg.isNone ∧ params.args.length<args.length then
    throw (.typeError (callPrefix funcName++"takes "++toString params.args.length++
      " positional argument"++(if params.args.length=1 then "" else "s")++" but "++
      toString args.length++" "++(if args.length=1 then "was" else "were")++" given"))
  else pure ()

def posonly : Nat := min params.posonlyCount params.args.length

def checkPosonly : M σ Unit :=
  let bad := ((params.args.take (posonly params)).filter fun p => kwargs.containsKey p.name).map
    Param.name
  if 0<posonly params ∧ params.kwarg.isNone ∧ bad≠[] then
    throw (.typeError (callPrefix funcName++
      "got some positional-only arguments passed as keyword arguments: '"++", ".intercalate bad++
      "'"))
  else pure ()

def unwrapOr (m : M σ V) : M σ V := tryCatch m fun _ => pure noneValue

def firstDefault : Nat := params.args.length-params.defaults.length

/-- The default of the `i`-th positional parameter, if it has one. -/
def defaultFor (i : Nat) : M σ (Option V) :=
  if firstDefault params ≤ i then
    match params.defaultValues[i-firstDefault params]? with
    | some v => pure (some v)
    | none =>
      match params.defaults[i-firstDefault params]? with
      | some source => some <$> unwrapOr noneValue (evalDefaultSource source)
      | none => pure none
  else pure none

/-- The loop over the positional parameters; names without a value are collected. -/
def bindPositional : Nat → List Param → Scope V → List String → M σ (Scope V×List String)
  | _,[],scope,missing => pure (scope,missing)
  | i,param::rest,scope,missing =>
    let isPosonly := decide (i<posonly params)
    match args[i]? with
    | some v =>
      if !isPosonly && kwargs.containsKey param.name then
        throw (.typeError ("got multiple values for argument '"++param.name++"'"))
      else bindPositional (i+1) rest (scope.insert param.name (.value v)) missing
    | none =>
      match (kwargs.get param.name).filter fun _ => !isPosonly with
      | some v => bindPositional (i+1) rest (scope.insert param.name (.value v)) missing
      | none => do
        match ← defaultFor evalDefaultSource noneValue params i with
        | some v => bindPositional (i+1) rest (scope.insert param.name (.value v)) missing
        | none => bindPositional (i+1) rest scope (missing++[param.name])

def checkMissing (missing : List String) : M σ Unit :=
  if missing≠[] then throw (missingPositionalError funcName missing) else pure ()

def bindVararg (scope : Scope V) : Scope V :=
  match params.vararg with
  | some name => scope.insert name (.tuple (args.drop params.args.length))
  | none => scope

/-- The loop over the keyword-only parameters. -/
def bindKwonly : Nat → List Param → Scope V → M σ (Scope V)
  | _,[],scope => pure scope
  | i,param::rest,scope =>
    match kwargs.get param.name with
    | some v => bindKwonly (i+1) rest (scope.insert param.name (.value v))
    | none =>
      match params.kwDefaultValues[i]? with
      | some (some v) => bindKwonly (i+1) rest (scope.insert param.name (.value v))
      | _ =>
        match params.kwDefaults[i]? with
        | some (some source) => do
          let v ← unwrapOr noneValue (evalDefaultSource source)
          bindKwonly (i+1) rest (scope.insert param.name (.value v))
        | _ =>
          throw (.typeError ("missing required keyword argument: '"++param.name++"'"))

def named (ps : List Param) (k : String) : Bool := ps.any fun p => p.name==k

def bindKwarg (scope : Scope V) : M σ (Scope V) :=
  match params.kwarg with
  | some name =>
    pure (scope.insert name (.dict (kwargs.entries.filter fun e =>
      !named (params.args.drop (posonly params)++params.kwonlyargs) e.1)))
  | none =>
    match kwargs.entries.find? fun e => !(named params.args e.1 || named params.kwonlyargs e.1) with
    | some e => throw (.typeError ("got an unexpected keyword argument '"++e.1++"'"))
    | none => pure scope

def bindParamsNamed : M σ (Scope V) := do
  checkArity params funcName args
  checkPosonly params funcName kwargs
  let (scope,missing) ←
    bindPositional evalDefaultSource noneValue params args kwargs 0 params.args [] []
  checkMissing funcName missing
  let scope ←
    bindKwonly evalDefaultSource noneValue params kwargs 0 params.kwonlyargs
      (bindVararg params args scope)
  bindKwarg params kwargs scope

end Call

open Calling

section Execution

variable {σ A B : Type}

def exec (m : M σ A) (s : σ) : Except Failure A×σ := m.run.run s

/-- A failure of the kind that a wrong call raises. -/
def Fails (m : M σ A) : Prop := ∃ text,m=throw (.typeError text)

theorem throw_bind (e : Failure) (f : A → M σ B) : ((throw e : M σ A) >>= f)=throw e := rfl

theorem Fails.bind {m : M σ A} (h : Fails m) (f : A → M σ B) : Fails (m >>= f) := by
  obtain ⟨text,rfl⟩ := h
  exact ⟨text,rfl⟩

theorem exec_pure (a : A) (s : σ) : exec (pure a : M σ A) s=(.ok a,s) := rfl

theorem exec_throw (e : Failure) (s : σ) : exec (throw e : M σ A) s=(.error e,s) := rfl

theorem exec_bind (m : M σ A) (f : A → M σ B) (s : σ) :
    exec (m >>= f) s=
      match exec m s with
      | (.ok a,t) => exec (f a) t
      | (.error e,t) => (.error e,t) := by
  change (ExceptT.run (m >>= f)).run s=_
  rw [ExceptT.run_bind]
  change (StateT.run (m.run >>= _) s)=_
  rw [StateT.run_bind]
  unfold exec
  rcases hm : StateT.run m.run s with ⟨r,t⟩
  cases r <;> rfl

theorem exec_bind_ok {m : M σ A} {f : A → M σ B} {s t : σ} {a : A} (h : exec m s=(.ok a,t)) :
    exec (m >>= f) s=exec (f a) t := by
  rw [exec_bind,h]

theorem ok_of_exec_bind {m : M σ A} {f : A → M σ B} {s u : σ} {b : B}
    (h : exec (m >>= f) s=(.ok b,u)) :
    ∃ a t,exec m s=(.ok a,t) ∧ exec (f a) t=(.ok b,u) := by
  rw [exec_bind] at h
  rcases hm : exec m s with ⟨r,t⟩
  rw [hm] at h
  cases r with
  | ok a => exact ⟨a,t,rfl,h⟩
  | error e => cases h

end Execution

section Description

variable {V : Type}

/-- The stored parameters are those of a signature, whose defaults have been evaluated. -/
structure Describes (params : FunctionParams V) (sig : Signature String V) : Prop where
  names : params.args.map Param.name=sig.positional.map Formal.name
  positionOnly : ∀ p ∈ sig.positional.take (posonly params),p.byKeyword=false
  rest : ∀ p ∈ sig.positional.drop (posonly params),p.byKeyword=true
  evaluated : params.defaultValues.length=params.defaults.length
  default : ∀ i p,sig.positional[i]?=some p →
    (if firstDefault params ≤ i then params.defaultValues[i-firstDefault params]? else none)=
      p.default
  star : sig.star=params.vararg.isSome
  kwNames : params.kwonlyargs.map Param.name=sig.keywordOnly.map Formal.name
  kwByKeyword : ∀ p ∈ sig.keywordOnly,p.byKeyword=true
  kwEvaluated : params.kwDefaults.map Option.isSome=params.kwDefaultValues.map Option.isSome
  kwDefault : params.kwDefaultValues=sig.keywordOnly.map Formal.default
  starStar : sig.starStar=params.kwarg.isSome

variable {params : FunctionParams V} {sig : Signature String V}

theorem Describes.length (h : Describes params sig) :
    params.args.length=sig.positional.length := by
  simpa using congrArg List.length h.names

theorem named_append (ps qs : List Param) (k : String) :
    named (ps++qs) k=(named ps k || named qs k) := List.any_append

theorem named_map {ps : List Param} {fs : List (Formal String V)}
    (h : ps.map Param.name=fs.map Formal.name) (k : String) :
    named ps k=fs.any fun p => p.name==k := by
  have hany : (ps.map Param.name).any (· == k)=(fs.map Formal.name).any (· == k) := by rw [h]
  rwa [List.any_map,List.any_map] at hany

theorem any_byKeyword {fs : List (Formal String V)} (h : ∀ p ∈ fs,p.byKeyword=true) (k : String) :
    (fs.any fun p => p.byKeyword && p.name==k)=fs.any fun p => p.name==k := by
  induction fs with
  | nil => rfl
  | cons p fs ih =>
    rw [List.any_cons,List.any_cons,h p (by simp),Bool.true_and,
      ih fun q hq => h q (List.mem_cons_of_mem _ hq)]

theorem Describes.claimed (h : Describes params sig) (k : String) :
    named (params.args.drop (posonly params)++params.kwonlyargs) k=sig.takes k := by
  have hdrop : (params.args.drop (posonly params)).map Param.name=
      (sig.positional.drop (posonly params)).map Formal.name := by
    rw [List.map_drop,List.map_drop,h.names]
  have hnone : ((sig.positional.take (posonly params)).any fun p => p.byKeyword && p.name==k)=
      false := by
    rw [List.any_eq_false]
    intro p hp
    rw [h.positionOnly p hp]
    simp
  unfold Signature.takes Signature.formals
  rw [named_append,named_map hdrop,named_map h.kwNames,List.any_append,any_byKeyword h.kwByKeyword]
  congr 1
  conv_rhs => rw [← List.take_append_drop (posonly params) sig.positional]
  rw [List.any_append,hnone,Bool.false_or,any_byKeyword h.rest]

theorem Describes.named_all (h : Describes params sig) (k : String) :
    (named params.args k || named params.kwonlyargs k)=
      (named (params.args.take (posonly params)) k || sig.takes k) := by
  rw [← h.claimed k,named_append,← Bool.or_assoc,← named_append (params.args.take _),
    List.take_append_drop]

end Description

section Loops

variable {V σ : Type} {params : FunctionParams V} {sig : Signature String V}
variable (evalDefaultSource : String → M σ V) (noneValue : V)

theorem Describes.defaultFor_eq (h : Describes params sig) {i : Nat} {p : Formal String V}
    (hp : sig.positional[i]?=some p) :
    defaultFor evalDefaultSource noneValue params i=pure p.default := by
  have hdefault := h.default i p hp
  unfold defaultFor
  by_cases hi : firstDefault params ≤ i
  · rw [if_pos hi] at hdefault ⊢
    rw [hdefault]
    cases hv : p.default with
    | some v => rfl
    | none =>
      rw [hv,List.getElem?_eq_none_iff,h.evaluated] at hdefault
      rw [List.getElem?_eq_none hdefault]
  · rw [if_neg hi] at hdefault ⊢
    rw [hdefault]

theorem insert_fresh {scope : Scope V} {name : String} (h : name ∉ scope.map Prod.fst)
    (b : Bound V) : scope.insert name b=scope++[(name,b)] := by
  induction scope with
  | nil => rfl
  | cons e scope ih =>
    rw [List.map_cons,List.mem_cons,not_or] at h
    rw [Scope.insert,if_neg (Ne.symm h.1),ih h.2,List.cons_append]

def bindings (given : List (String×V)) (fs : List (Formal String V)) : Scope V :=
  fs.filterMap fun p => (Signature.valueOf given p).map fun v => (p.name,.value v)

def unbound (given : List (String×V)) (fs : List (Formal String V)) : List String :=
  (fs.filter fun p => (Signature.valueOf given p).isNone).map Formal.name

theorem Describes.byKeyword_at (h : Describes params sig) {i : Nat} {p : Formal String V}
    (hp : sig.positional[i]?=some p) : p.byKeyword= !decide (i<posonly params) := by
  by_cases hi : i<posonly params
  · rw [h.positionOnly p (List.mem_of_getElem? (i := i) (by rwa [List.getElem?_take_of_lt hi]))]
    simp [hi]
  · have hmem : (sig.positional.drop (posonly params))[i-posonly params]?=some p := by
      rw [List.getElem?_drop,← hp]
      congr 1
      omega
    rw [h.rest p (List.mem_of_getElem? hmem)]
    simp [hi]

theorem formal_at {sig : Signature String V} {i : Nat} {p : Formal String V}
    (hp : sig.positional[i]?=some p) : sig.formals[i]?=some p := by
  have hi : i<sig.positional.length := (List.getElem?_eq_some_iff.mp hp).1
  unfold Signature.formals
  rwa [List.getElem?_append_left hi]

/-- A keyword that fills a parameter which a position has filled. -/
def Doubled (sig : Signature String V) (args : List V) (kwargs : Kwargs V) : Prop :=
  ∃ e ∈ kwargs.entries,sig.takes e.1=true ∧ e.1 ∈ (sig.positional.map Formal.name).take args.length

variable (args : List V) (kwargs : Kwargs V)

/-- At one parameter, the loop either finds its value or misses it. -/
theorem bindPositional_step (h : Describes params sig) (hd : (sig.formals.map Formal.name).Nodup)
    (hdup : ¬Doubled sig args kwargs) {i : Nat} {p : Formal String V} (param : Param)
    (hp : sig.positional[i]?=some p) (hname : param.name=p.name) (rest : List Param)
    (scope : Scope V) (missing : List String) :
    bindPositional evalDefaultSource noneValue params args kwargs i (param::rest) scope missing=
      match Signature.valueOf (sig.given args kwargs.entries) p with
      | some v =>
        bindPositional evalDefaultSource noneValue params args kwargs (i+1) rest
          (scope.insert p.name (.value v)) missing
      | none =>
        bindPositional evalDefaultSource noneValue params args kwargs (i+1) rest scope
          (missing++[p.name]) := by
  have hi : i<sig.positional.length := (List.getElem?_eq_some_iff.mp hp).1
  have hkey := h.byKeyword_at hp
  have hmem : p ∈ sig.formals := List.mem_of_getElem? (formal_at hp)
  rw [valueOf_given hd args kwargs.entries (formal_at hp),List.getElem?_take_of_lt hi,
    bindPositional,hname]
  cases ha : args[i]? with
  | some v =>
    have hfree : (!decide (i<posonly params) && kwargs.containsKey p.name)=false := by
      rw [← hkey,Bool.and_eq_false_iff,or_iff_not_imp_left,Bool.not_eq_false]
      intro hby
      by_contra hin
      rw [Bool.not_eq_false] at hin
      obtain ⟨w,hw⟩ := Option.isSome_iff_exists.mp hin
      have hlt : i<args.length := (List.getElem?_eq_some_iff.mp ha).1
      refine hdup ⟨(p.name,w),mem_of_lookup hw,(takes_iff hd hmem).trans hby,?_⟩
      refine List.mem_of_getElem? (i := i) ?_
      rw [List.getElem?_take_of_lt hlt,List.getElem?_map,hp]
      rfl
    simp only [hfree,Bool.false_eq_true,if_false,Option.some_or]
  | none =>
    have hget : ((kwargs.get p.name).filter fun _ => !decide (i<posonly params))=
        if p.byKeyword then kwargs.entries.lookup p.name else none := by
      rw [hkey]
      unfold Kwargs.get
      cases kwargs.entries.lookup p.name with
      | none => simp
      | some w => by_cases hlt : i<posonly params <;> simp [hlt]
    simp only [hget,Option.none_or]
    cases hk : if p.byKeyword then kwargs.entries.lookup p.name else none with
    | some v => rfl
    | none =>
      simp only [Option.none_or]
      rw [h.defaultFor_eq evalDefaultSource noneValue hp]
      cases p.default <;> rfl

theorem name_at (h : Describes params sig) {i : Nat} (hi : i<params.args.length)
    (hi' : i<sig.positional.length) : params.args[i].name=sig.positional[i].name := by
  have hat := congrArg (fun l => l[i]?) h.names
  simpa [hi,hi'] using hat

theorem bindPositional_eq (h : Describes params sig) (hd : (sig.formals.map Formal.name).Nodup)
    (hdup : ¬Doubled sig args kwargs) (ps : List Param) (i : Nat) (hps : ps=params.args.drop i)
    (scope : Scope V) (missing : List String)
    (hfresh : ∀ p ∈ sig.positional.drop i,p.name ∉ scope.map Prod.fst) :
    bindPositional evalDefaultSource noneValue params args kwargs i ps scope missing=
      pure (scope++bindings (sig.given args kwargs.entries) (sig.positional.drop i),
        missing++unbound (sig.given args kwargs.entries) (sig.positional.drop i)) := by
  induction ps generalizing i scope missing with
  | nil =>
    have hnil : sig.positional.drop i=[] := by
      rw [List.drop_eq_nil_iff,← h.length,← List.drop_eq_nil_iff]
      exact hps.symm
    rw [hnil]
    simp only [bindings,unbound,List.filterMap_nil,List.filter_nil,List.map_nil,List.append_nil]
    rfl
  | cons param rest ih =>
    have hi : i<params.args.length := by
      by_contra hi
      rw [List.drop_eq_nil_of_le (Nat.not_lt.mp hi)] at hps
      cases hps
    have hi' : i<sig.positional.length := h.length ▸ hi
    rw [List.drop_eq_getElem_cons hi] at hps
    obtain ⟨rfl,hrest⟩ := List.cons_eq_cons.mp hps
    have hp : sig.positional[i]?=some sig.positional[i] := List.getElem?_eq_getElem hi'
    have hname := name_at h hi hi'
    rw [List.drop_eq_getElem_cons hi'] at hfresh ⊢
    have hnd : ((sig.positional.drop i).map Formal.name).Nodup := by
      unfold Signature.formals at hd
      rw [List.map_append] at hd
      exact (List.nodup_append.mp hd).1.sublist ((List.drop_sublist _ _).map _)
    rw [List.drop_eq_getElem_cons hi',List.map_cons,List.nodup_cons] at hnd
    rw [bindPositional_step evalDefaultSource noneValue args kwargs h hd hdup params.args[i] hp hname]
    cases hv : Signature.valueOf (sig.given args kwargs.entries) sig.positional[i] with
    | some v =>
      dsimp only
      rw [insert_fresh (hfresh _ List.mem_cons_self),ih (i+1) hrest]
      · simp only [bindings,unbound,List.filterMap_cons,List.filter_cons,hv,Option.map_some,
          Option.isNone_some,List.append_assoc,List.singleton_append]
        rfl
      · intro q hq
        have hne : q.name≠sig.positional[i].name := fun heq =>
          hnd.1 (heq ▸ List.mem_map_of_mem hq)
        have hold := hfresh q (List.mem_cons_of_mem _ hq)
        rw [List.map_append,List.mem_append]
        rintro (hin | hin)
        · exact hold hin
        · exact hne (by simpa using hin)
    | none =>
      dsimp only
      rw [ih (i+1) hrest _ _ fun q hq => hfresh q (List.mem_cons_of_mem _ hq)]
      simp only [bindings,unbound,List.filterMap_cons,List.filter_cons,hv,Option.map_none,
        Option.isNone_none,if_true,List.map_cons,List.append_assoc,List.singleton_append]

/-- The loop fails once it comes to a parameter that is filled twice. -/
theorem bindPositional_doubled (h : Describes params sig)
    (hd : (sig.formals.map Formal.name).Nodup) {e : String×V} (he : e ∈ kwargs.entries)
    (htake : sig.takes e.1=true) (ps : List Param) (i : Nat) (hps : ps=params.args.drop i)
    (hin : e.1 ∈ ((sig.positional.drop i).map Formal.name).take (args.length-i)) (scope : Scope V)
    (missing : List String) :
    Fails (bindPositional evalDefaultSource noneValue params args kwargs i ps scope missing) := by
  induction ps generalizing i scope missing with
  | nil =>
    have hnil : sig.positional.drop i=[] := by
      rw [List.drop_eq_nil_iff,← h.length,← List.drop_eq_nil_iff]
      exact hps.symm
    rw [hnil] at hin
    simp at hin
  | cons param rest ih =>
    have hi : i<params.args.length := by
      by_contra hi
      rw [List.drop_eq_nil_of_le (Nat.not_lt.mp hi)] at hps
      cases hps
    have hi' : i<sig.positional.length := h.length ▸ hi
    rw [List.drop_eq_getElem_cons hi] at hps
    obtain ⟨rfl,hrest⟩ := List.cons_eq_cons.mp hps
    have hlt : i<args.length := by
      by_contra hlt
      rw [show args.length-i=0 by omega,List.take_zero] at hin
      exact nomatch hin
    rw [List.drop_eq_getElem_cons hi',List.map_cons,
      show args.length-i=args.length-(i+1)+1 by omega,List.take_succ_cons,List.mem_cons] at hin
    have hkey := h.byKeyword_at (List.getElem?_eq_getElem hi')
    rw [bindPositional,List.getElem?_eq_getElem hlt,name_at h hi hi',← hkey]
    dsimp only
    by_cases hboth : (sig.positional[i].byKeyword && kwargs.containsKey sig.positional[i].name)=true
    · rw [if_pos hboth]
      exact ⟨_,rfl⟩
    · rw [if_neg hboth]
      refine ih (i+1) hrest (hin.resolve_left fun heq => hboth ?_) _ _
      have hmem : sig.positional[i] ∈ sig.formals :=
        List.mem_append_left _ (List.getElem_mem hi')
      rw [← takes_iff hd hmem,← heq,htake,Bool.true_and]
      unfold Kwargs.containsKey Kwargs.get
      rw [lookup_of_mem kwargs.distinct he]
      rfl

theorem valueOf_keywordOnly (h : Describes params sig)
    (hd : (sig.formals.map Formal.name).Nodup) {p : Formal String V} (hp : p ∈ sig.keywordOnly) :
    Signature.valueOf (sig.given args kwargs.entries) p=(kwargs.get p.name).or p.default := by
  obtain ⟨j,hj⟩ := List.getElem?_of_mem hp
  have hat : sig.formals[sig.positional.length+j]?=some p := by
    unfold Signature.formals
    rw [List.getElem?_append_right (by omega),← hj]
    congr 1
    omega
  rw [valueOf_given hd args kwargs.entries hat,h.kwByKeyword p hp,if_pos rfl,
    List.getElem?_eq_none (by rw [List.length_take]; omega),Option.none_or]
  rfl

/-- At a keyword-only parameter, the loop finds its value or fails. -/
theorem bindKwonly_step (h : Describes params sig) (hd : (sig.formals.map Formal.name).Nodup)
    {i : Nat} {p : Formal String V} (param : Param) (hp : sig.keywordOnly[i]?=some p)
    (hname : param.name=p.name) (rest : List Param) (scope : Scope V) :
    bindKwonly evalDefaultSource noneValue params kwargs i (param::rest) scope=
      match Signature.valueOf (sig.given args kwargs.entries) p with
      | some v =>
        bindKwonly evalDefaultSource noneValue params kwargs (i+1) rest
          (scope.insert p.name (.value v))
      | none => throw (.typeError ("missing required keyword argument: '"++p.name++"'")) := by
  rw [valueOf_keywordOnly args kwargs h hd (List.mem_of_getElem? hp),bindKwonly,hname]
  cases kwargs.get p.name with
  | some v => rfl
  | none =>
    have hdefault : params.kwDefaultValues[i]?=some p.default := by
      rw [h.kwDefault,List.getElem?_map,hp]
      rfl
    simp only [hdefault,Option.none_or]
    cases hv : p.default with
    | some v => rfl
    | none =>
      have hsome := congrArg (fun l => l[i]?) h.kwEvaluated
      simp only [List.getElem?_map,hdefault,Option.map_some,hv,Option.isSome_none] at hsome
      obtain ⟨source,hsource,hnone⟩ := Option.map_eq_some_iff.mp hsome
      rw [hsource]
      cases source with
      | none => rfl
      | some text => exact nomatch hnone

theorem bindKwonly_eq (h : Describes params sig) (hd : (sig.formals.map Formal.name).Nodup)
    (ps : List Param) (i : Nat) (hps : ps=params.kwonlyargs.drop i) (scope : Scope V)
    (hfresh : ∀ p ∈ sig.keywordOnly.drop i,p.name ∉ scope.map Prod.fst) :
    if ∀ p ∈ sig.keywordOnly.drop i,
        (Signature.valueOf (sig.given args kwargs.entries) p).isSome=true then
      bindKwonly evalDefaultSource noneValue params kwargs i ps scope=
        pure (scope++bindings (sig.given args kwargs.entries) (sig.keywordOnly.drop i))
    else Fails (bindKwonly evalDefaultSource noneValue params kwargs i ps scope) := by
  have hlength : params.kwonlyargs.length=sig.keywordOnly.length := by
    simpa using congrArg List.length h.kwNames
  induction ps generalizing i scope with
  | nil =>
    have hnil : sig.keywordOnly.drop i=[] := by
      rw [List.drop_eq_nil_iff,← hlength,← List.drop_eq_nil_iff]
      exact hps.symm
    rw [hnil,if_pos (by intro p hp; cases hp)]
    simp only [bindings,List.filterMap_nil,List.append_nil]
    rfl
  | cons param rest ih =>
    have hi : i<params.kwonlyargs.length := by
      by_contra hi
      rw [List.drop_eq_nil_of_le (Nat.not_lt.mp hi)] at hps
      cases hps
    have hi' : i<sig.keywordOnly.length := hlength ▸ hi
    rw [List.drop_eq_getElem_cons hi] at hps
    obtain ⟨rfl,hrest⟩ := List.cons_eq_cons.mp hps
    have hp : sig.keywordOnly[i]?=some sig.keywordOnly[i] := List.getElem?_eq_getElem hi'
    have hname : params.kwonlyargs[i].name=sig.keywordOnly[i].name := by
      have hat := congrArg (fun l => l[i]?) h.kwNames
      simpa [hi,hi'] using hat
    have hnd : ((sig.keywordOnly.drop i).map Formal.name).Nodup := by
      unfold Signature.formals at hd
      rw [List.map_append] at hd
      exact (List.nodup_append.mp hd).2.1.sublist ((List.drop_sublist _ _).map _)
    rw [List.drop_eq_getElem_cons hi',List.map_cons,List.nodup_cons] at hnd
    rw [List.drop_eq_getElem_cons hi'] at hfresh ⊢
    rw [bindKwonly_step evalDefaultSource noneValue args kwargs h hd params.kwonlyargs[i] hp hname]
    cases hv : Signature.valueOf (sig.given args kwargs.entries) sig.keywordOnly[i] with
    | none =>
      rw [if_neg fun hall => by simpa [hv] using hall _ List.mem_cons_self]
      exact ⟨_,rfl⟩
    | some v =>
      dsimp only
      have hrest := ih (i+1) hrest (scope.insert sig.keywordOnly[i].name (.value v)) fun q hq => by
        have hne : q.name≠sig.keywordOnly[i].name := fun heq =>
          hnd.1 (heq ▸ List.mem_map_of_mem hq)
        have hold := hfresh q (List.mem_cons_of_mem _ hq)
        rw [insert_fresh (hfresh _ List.mem_cons_self),List.map_append,List.mem_append]
        rintro (hin | hin)
        · exact hold hin
        · exact hne (by simpa using hin)
      simp only [List.forall_mem_cons,hv,Option.isSome_some,true_and]
      split_ifs at hrest ⊢ with hall
      · rw [hrest,insert_fresh (hfresh _ List.mem_cons_self)]
        simp only [bindings,List.filterMap_cons,hv,Option.map_some,List.append_assoc,
          List.singleton_append]
      · exact hrest

end Loops

section Stages

variable {V σ : Type} {params : FunctionParams V} {sig : Signature String V}
variable (funcName : String) (args : List V) (kwargs : Kwargs V)

theorem checkArity_eq (h : Describes params sig) :
    if args.length ≤ sig.positional.length ∨ sig.star=true then
      (checkArity params funcName args : M σ Unit)=pure ()
    else Fails (checkArity params funcName args : M σ Unit) := by
  have hcond : params.vararg.isNone=true ∧ params.args.length<args.length ↔
      ¬(args.length ≤ sig.positional.length ∨ sig.star=true) := by
    rw [h.length,h.star,not_or,Nat.not_le,Bool.not_eq_true,Option.isSome_eq_false_iff]
    exact and_comm
  unfold checkArity
  by_cases hok : args.length ≤ sig.positional.length ∨ sig.star=true
  · rw [if_pos hok,if_neg fun hbad => hcond.mp hbad hok]
  · rw [if_neg hok,if_pos (hcond.mpr hok)]
    exact ⟨_,rfl⟩

/-- A keyword that names a parameter which no keyword can fill. -/
def Misplaced (params : FunctionParams V) (kwargs : Kwargs V) : Prop :=
  ∃ e ∈ kwargs.entries,named (params.args.take (posonly params)) e.1=true

theorem misplaced_iff (params : FunctionParams V) :
    Misplaced params kwargs ↔
      ((params.args.take (posonly params)).filter fun p => kwargs.containsKey p.name).map
        Param.name≠[] := by
  rw [Ne,List.map_eq_nil_iff,List.filter_eq_nil_iff,not_forall]
  constructor
  · rintro ⟨e,he,hnamed⟩
    obtain ⟨p,hp,hname⟩ := List.any_eq_true.mp hnamed
    rw [beq_iff_eq] at hname
    refine ⟨p,fun hall => hall hp ?_⟩
    unfold Kwargs.containsKey Kwargs.get
    rw [hname,lookup_of_mem kwargs.distinct he]
    rfl
  · rintro ⟨p,hp⟩
    rw [Classical.not_imp,not_not] at hp
    obtain ⟨v,hv⟩ := Option.isSome_iff_exists.mp hp.2
    exact ⟨(p.name,v),mem_of_lookup hv,List.any_eq_true.mpr ⟨p,hp.1,by simp⟩⟩

theorem checkPosonly_ok (h : params.kwarg.isSome=true ∨ ¬Misplaced params kwargs) :
    (checkPosonly params funcName kwargs : M σ Unit)=pure () := by
  unfold checkPosonly
  rw [if_neg]
  rintro ⟨-,hnone,hbad⟩
  rcases h with h | h
  · rw [Option.isNone_iff_eq_none] at hnone
    rw [hnone] at h
    exact nomatch h
  · exact h ((misplaced_iff kwargs params).mpr hbad)

theorem checkPosonly_fails (hnone : params.kwarg.isSome=false) (h : Misplaced params kwargs) :
    Fails (checkPosonly params funcName kwargs : M σ Unit) := by
  have hbad := (misplaced_iff kwargs params).mp h
  unfold checkPosonly
  rw [if_pos]
  · exact ⟨_,rfl⟩
  · refine ⟨?_,by simpa using hnone,hbad⟩
    by_contra hzero
    rw [show posonly params=0 by omega,List.take_zero] at hbad
    exact hbad rfl

theorem checkMissing_eq (missing : List String) :
    if missing=[] then (checkMissing funcName missing : M σ Unit)=pure ()
    else Fails (checkMissing funcName missing : M σ Unit) := by
  unfold checkMissing
  by_cases hnil : missing=[]
  · rw [if_pos hnil,if_neg (not_not_intro hnil)]
  · rw [if_neg hnil,if_pos hnil]
    exact ⟨_,rfl⟩

theorem unbound_eq_nil (given : List (String×V)) (fs : List (Formal String V)) :
    unbound given fs=[] ↔ ∀ p ∈ fs,(Signature.valueOf given p).isSome=true := by
  unfold unbound
  rw [List.map_eq_nil_iff,List.filter_eq_nil_iff]
  refine forall_congr' fun p => forall_congr' fun _ => ?_
  cases Signature.valueOf given p <;> simp

/-- A keyword argument that no parameter takes. -/
def Unknown (sig : Signature String V) (kwargs : Kwargs V) : Prop :=
  ∃ e ∈ kwargs.entries,sig.takes e.1=false

instance (sig : Signature String V) (kwargs : Kwargs V) : Decidable (Unknown sig kwargs) :=
  inferInstanceAs (Decidable (∃ e ∈ kwargs.entries,sig.takes e.1=false))

theorem bindKwarg_none (h : Describes params sig) (hnone : params.kwarg=none)
    (hplaced : ¬Misplaced params kwargs) (scope : Scope V) :
    (Unknown sig kwargs → Fails (bindKwarg params kwargs scope : M σ (Scope V))) ∧
      (¬Unknown sig kwargs → (bindKwarg params kwargs scope : M σ (Scope V))=pure scope) := by
  have hclaimed (e : String×V) (he : e ∈ kwargs.entries) :
      (named params.args e.1 || named params.kwonlyargs e.1)=sig.takes e.1 := by
    have hno : named (params.args.take (posonly params)) e.1=false := by
      by_contra hyes
      exact hplaced ⟨e,he,by simpa using hyes⟩
    rw [h.named_all,hno,Bool.false_or]
  unfold bindKwarg
  rw [hnone]
  dsimp only
  cases hfind : kwargs.entries.find? fun e =>
      !(named params.args e.1 || named params.kwonlyargs e.1) with
  | some e =>
    have hno := List.find?_some hfind
    have he := List.mem_of_find?_eq_some hfind
    rw [hclaimed e he,Bool.not_eq_true'] at hno
    exact ⟨fun _ => ⟨_,rfl⟩,fun hall => absurd ⟨e,he,hno⟩ hall⟩
  | none =>
    refine ⟨fun ⟨e,he,hno⟩ => ?_,fun _ => rfl⟩
    have hyes := List.find?_eq_none.mp hfind e he
    rw [hclaimed e he,hno] at hyes
    exact absurd rfl hyes

theorem bindKwarg_some (h : Describes params sig) {name : String} (hsome : params.kwarg=some name)
    (scope : Scope V) (hfresh : name ∉ scope.map Prod.fst) :
    (bindKwarg params kwargs scope : M σ (Scope V))=
      pure (scope++[(name,.dict (kwargs.entries.filter fun e => !sig.takes e.1))]) := by
  unfold bindKwarg
  rw [hsome]
  simp only [h.claimed]
  rw [insert_fresh hfresh]

/-- The call fits as long as no argument is in excess, doubled or unknown. -/
theorem fits_iff (sig : Signature String V) :
    sig.Fits args kwargs.entries ↔
      (args.length ≤ sig.positional.length ∨ sig.star=true) ∧ ¬Doubled sig args kwargs ∧
        (sig.starStar=true ∨ ¬Unknown sig kwargs) := by
  unfold Signature.Fits Doubled Unknown
  rw [keys_zip]
  refine and_congr_right fun _ => ?_
  constructor
  · intro hall
    refine ⟨fun ⟨e,he,htake,hin⟩ => ?_,?_⟩
    · have := hall e he
      rw [if_pos htake] at this
      exact this hin
    · by_cases hstar : sig.starStar=true
      · exact .inl hstar
      · refine .inr fun ⟨e,he,hno⟩ => ?_
        have := hall e he
        rw [hno] at this
        exact hstar this
  · rintro ⟨hdup,hknown⟩ e he
    split_ifs with htake
    · exact fun hin => hdup ⟨e,he,htake,hin⟩
    · exact hknown.resolve_right fun hno => hno ⟨e,he,by simpa using htake⟩

end Stages

section Assembly

variable {V σ : Type} {params : FunctionParams V} {sig : Signature String V}
variable (evalDefaultSource : String → M σ V) (noneValue : V)
variable (funcName : String) (args : List V) (kwargs : Kwargs V)

def declared (params : FunctionParams V) (sig : Signature String V) : List String :=
  sig.formals.map Formal.name++params.vararg.toList++params.kwarg.toList

/-- The scope of an accepted call. -/
def scopeOf (params : FunctionParams V) (sig : Signature String V) (s : Slots String V) :
    Scope V :=
  bindings s.filled sig.positional++params.vararg.toList.map (fun n => (n,.tuple s.star))++
    bindings s.filled sig.keywordOnly++params.kwarg.toList.map fun n => (n,.dict s.extra)

theorem bindings_names (given : List (String×V)) (fs : List (Formal String V)) :
    List.Sublist ((bindings given fs).map Prod.fst) (fs.map Formal.name) := by
  induction fs with
  | nil => exact .slnil
  | cons p fs ih =>
    unfold bindings at ih ⊢
    rw [List.filterMap_cons]
    cases Signature.valueOf given p with
    | none => exact ih.cons _
    | some v => exact ih.cons_cons _

theorem bindVararg_eq (scope : Scope V)
    (hfresh : ∀ n ∈ params.vararg.toList,n ∉ scope.map Prod.fst) :
    bindVararg params args scope=
      scope++params.vararg.toList.map fun n => (n,.tuple (args.drop params.args.length)) := by
  unfold bindVararg
  cases hv : params.vararg with
  | none => simp
  | some name => exact insert_fresh (hfresh name (by simp [hv])) _

/-- Where no name is repeated, the parts of a scope do not meet. -/
theorem parts_disjoint (hnd : (declared params sig).Nodup) (given : List (String×V)) :
    (∀ n ∈ params.vararg.toList,n ∉ (bindings given sig.positional).map Prod.fst) ∧
    (∀ p ∈ sig.keywordOnly,p.name ∉ (bindings given sig.positional).map Prod.fst ∧
      p.name ∉ params.vararg.toList) ∧
    ∀ n ∈ params.kwarg.toList,n ∉ (bindings given sig.positional).map Prod.fst ∧
      n ∉ params.vararg.toList ∧ n ∉ (bindings given sig.keywordOnly).map Prod.fst := by
  unfold declared Signature.formals at hnd
  rw [List.map_append] at hnd
  obtain ⟨hnames,-,hkwarg⟩ := List.nodup_append.mp hnd
  obtain ⟨hformals,-,hvararg⟩ := List.nodup_append.mp hnames
  obtain ⟨-,-,hkwonly⟩ := List.nodup_append.mp hformals
  have hpos := (bindings_names given sig.positional).subset
  have hkw := (bindings_names given sig.keywordOnly).subset
  refine ⟨fun n hn hin => ?_,fun p hp => ⟨fun hin => ?_,fun hin => ?_⟩,
    fun n hn => ⟨fun hin => ?_,fun hin => ?_,fun hin => ?_⟩⟩
  · exact hvararg n (List.mem_append_left _ (hpos hin)) n hn rfl
  · exact hkwonly p.name (hpos hin) p.name (List.mem_map_of_mem hp) rfl
  · exact hvararg p.name (List.mem_append_right _ (List.mem_map_of_mem hp)) p.name hin rfl
  · exact hkwarg n (List.mem_append_left _ (List.mem_append_left _ (hpos hin))) n hn rfl
  · exact hkwarg n (List.mem_append_right _ hin) n hn rfl
  · exact hkwarg n (List.mem_append_left _ (List.mem_append_right _ (hkw hin))) n hn rfl

theorem complete_isSome_iff (given : List (String×V)) (sig : Signature String V) :
    (Signature.complete given sig.formals).isSome=true ↔
      (∀ p ∈ sig.positional,(Signature.valueOf given p).isSome=true) ∧
        ∀ p ∈ sig.keywordOnly,(Signature.valueOf given p).isSome=true := by
  rw [complete_eq,← List.forall_mem_append]
  unfold Signature.formals
  split_ifs with hall
  · exact ⟨fun _ => hall,fun _ => rfl⟩
  · exact ⟨fun h => (by cases h),fun h => absurd h hall⟩

theorem call_none_of_not_fits (h : ¬sig.Fits args kwargs.entries) :
    sig.call args kwargs.entries=none := by
  rw [call_eq sig args kwargs.entries kwargs.distinct,if_neg h]

theorem call_none_of_incomplete
    (h : ¬(Signature.complete (sig.given args kwargs.entries) sig.formals).isSome=true) :
    sig.call args kwargs.entries=none := by
  rw [Option.not_isSome_iff_eq_none] at h
  rw [call_eq sig args kwargs.entries kwargs.distinct,h]
  split_ifs <;> rfl

theorem call_slots (hfits : sig.Fits args kwargs.entries)
    (h : (Signature.complete (sig.given args kwargs.entries) sig.formals).isSome=true) :
    ∃ c,sig.call args kwargs.entries=some c ∧ c.toSlots=
      ⟨sig.given args kwargs.entries,args.drop sig.positional.length,
        kwargs.entries.filter fun e => !sig.takes e.1⟩ := by
  obtain ⟨values,hvalues⟩ := Option.isSome_iff_exists.mp h
  rw [call_eq sig args kwargs.entries kwargs.distinct,if_pos hfits,hvalues]
  exact ⟨_,rfl,rfl⟩

theorem Misplaced.unknown (h : Describes params sig) (hd : (sig.formals.map Formal.name).Nodup)
    (hm : Misplaced params kwargs) : Unknown sig kwargs := by
  obtain ⟨e,he,hnamed⟩ := hm
  have htake : (params.args.take (posonly params)).map Param.name=
      (sig.positional.take (posonly params)).map Formal.name := by
    rw [List.map_take,List.map_take,h.names]
  rw [named_map htake] at hnamed
  obtain ⟨p,hp,hname⟩ := List.any_eq_true.mp hnamed
  rw [beq_iff_eq] at hname
  refine ⟨e,he,?_⟩
  rw [← hname,takes_iff hd (List.mem_append_left _ (List.mem_of_mem_take hp))]
  exact h.positionOnly p hp

/-- The last stages, once the positional parameters have their values. -/
theorem bindKwargs_eq (h : Describes params sig) (hnd : (declared params sig).Nodup)
    (hplaced : params.kwarg.isSome=true ∨ ¬Misplaced params kwargs) :
    if (∀ p ∈ sig.keywordOnly,
          (Signature.valueOf (sig.given args kwargs.entries) p).isSome=true) ∧
        (sig.starStar=true ∨ ¬Unknown sig kwargs) then
      (bindKwonly evalDefaultSource noneValue params kwargs 0 params.kwonlyargs
          (bindVararg params args (bindings (sig.given args kwargs.entries) sig.positional)) >>=
        bindKwarg params kwargs)=
        pure (scopeOf params sig ⟨sig.given args kwargs.entries,args.drop sig.positional.length,
          kwargs.entries.filter fun e => !sig.takes e.1⟩)
    else
      Fails (bindKwonly evalDefaultSource noneValue params kwargs 0 params.kwonlyargs
          (bindVararg params args (bindings (sig.given args kwargs.entries) sig.positional)) >>=
        bindKwarg params kwargs) := by
  have hd : (sig.formals.map Formal.name).Nodup :=
    (List.nodup_append.mp (List.nodup_append.mp hnd).1).1
  have hparts := parts_disjoint hnd (sig.given args kwargs.entries)
  have hscope : ∀ n ∈ params.kwarg.toList,
      n ∉ (bindings (sig.given args kwargs.entries) sig.positional++
        params.vararg.toList.map (fun n => (n,Bound.tuple (args.drop sig.positional.length)))++
          bindings (sig.given args kwargs.entries) sig.keywordOnly).map Prod.fst := by
    intro n hn hin
    obtain ⟨hpos,hvar,hkw⟩ := hparts.2.2 n hn
    simp only [List.map_append,List.map_map,List.mem_append] at hin
    rcases hin with (hin | hin) | hin
    · exact hpos hin
    · exact hvar (by simpa using hin)
    · exact hkw hin
  rw [bindVararg_eq args _ hparts.1,h.length]
  have hkwonly := bindKwonly_eq evalDefaultSource noneValue args kwargs h hd params.kwonlyargs 0
    rfl (bindings (sig.given args kwargs.entries) sig.positional++
      params.vararg.toList.map fun n => (n,Bound.tuple (args.drop sig.positional.length))) (by
    intro p hp hin
    rw [List.drop_zero] at hp
    obtain ⟨hpos,hvar⟩ := hparts.2.1 p hp
    simp only [List.map_append,List.map_map,List.mem_append] at hin
    rcases hin with hin | hin
    · exact hpos hin
    · exact hvar (by simpa using hin))
  rw [List.drop_zero] at hkwonly
  by_cases hkw : ∀ p ∈ sig.keywordOnly,
      (Signature.valueOf (sig.given args kwargs.entries) p).isSome=true
  · rw [if_pos hkw] at hkwonly
    rw [hkwonly,pure_bind]
    cases hkwarg : params.kwarg with
    | some name =>
      have hstar : sig.starStar=true := by rw [h.starStar,hkwarg]; rfl
      rw [if_pos ⟨hkw,.inl hstar⟩,
        bindKwarg_some kwargs h hkwarg _ (hscope name (by simp [hkwarg]))]
      simp [scopeOf,hkwarg]
    | none =>
      have hstar : sig.starStar=false := by rw [h.starStar,hkwarg]; rfl
      have hno : ¬Misplaced params kwargs := hplaced.resolve_left (by simp [hkwarg])
      have hlast := bindKwarg_none (σ := σ) kwargs h hkwarg hno
        (bindings (sig.given args kwargs.entries) sig.positional++
          params.vararg.toList.map (fun n => (n,Bound.tuple (args.drop sig.positional.length)))++
          bindings (sig.given args kwargs.entries) sig.keywordOnly)
      by_cases hknown : Unknown sig kwargs
      · rw [if_neg fun hall => hall.2.elim (by simp [hstar]) fun hno => hno hknown]
        exact hlast.1 hknown
      · rw [if_pos ⟨hkw,.inr hknown⟩,hlast.2 hknown]
        simp [scopeOf,hkwarg]
  · rw [if_neg hkw] at hkwonly
    rw [if_neg fun hall => hkw hall.1]
    exact hkwonly.bind _

/-- A call is bound as the rules say, or fails with a type error. -/
theorem bindParamsNamed_eq (h : Describes params sig) (hnd : (declared params sig).Nodup) :
    match sig.call args kwargs.entries with
    | some c =>
      bindParamsNamed evalDefaultSource noneValue params funcName args kwargs=
        pure (scopeOf params sig c.toSlots)
    | none => Fails (bindParamsNamed evalDefaultSource noneValue params funcName args kwargs) := by
  have hd : (sig.formals.map Formal.name).Nodup :=
    (List.nodup_append.mp (List.nodup_append.mp hnd).1).1
  have harity := checkArity_eq (σ := σ) funcName args h
  have hfits := fits_iff args kwargs sig
  have hcomplete := complete_isSome_iff (sig.given args kwargs.entries) sig
  unfold bindParamsNamed
  by_cases harg : args.length ≤ sig.positional.length ∨ sig.star=true
  swap
  · rw [if_neg harg] at harity
    rw [call_none_of_not_fits args kwargs fun hf => harg (hfits.mp hf).1]
    exact harity.bind _
  rw [if_pos harg] at harity
  by_cases hplaced : params.kwarg.isSome=true ∨ ¬Misplaced params kwargs
  swap
  · obtain ⟨hnone,hmis⟩ := not_or.mp hplaced
    have hstar : sig.starStar=false := by rw [h.starStar]; simpa using hnone
    have hno : ¬sig.Fits args kwargs.entries := fun hf =>
      (hfits.mp hf).2.2.elim (by simp [hstar]) fun hall =>
        hall ((not_not.mp hmis).unknown kwargs h hd)
    rw [call_none_of_not_fits args kwargs hno]
    simp only [harity,pure_bind]
    exact (checkPosonly_fails funcName kwargs (by simpa using hnone) (not_not.mp hmis)).bind _
  simp only [harity,checkPosonly_ok funcName kwargs hplaced,pure_bind]
  by_cases hdup : Doubled sig args kwargs
  · rw [call_none_of_not_fits args kwargs fun hf => (hfits.mp hf).2.1 hdup]
    obtain ⟨e,he,htake,hin⟩ := hdup
    exact (bindPositional_doubled evalDefaultSource noneValue args kwargs h hd he htake params.args
      0 rfl hin [] []).bind _
  rw [bindPositional_eq evalDefaultSource noneValue args kwargs h hd hdup params.args 0 rfl [] []
    fun p _ => List.not_mem_nil]
  simp only [pure_bind,List.drop_zero,List.nil_append]
  have hmissing := checkMissing_eq (σ := σ) funcName
    (unbound (sig.given args kwargs.entries) sig.positional)
  by_cases hpos : ∀ p ∈ sig.positional,
      (Signature.valueOf (sig.given args kwargs.entries) p).isSome=true
  swap
  · rw [if_neg (mt (unbound_eq_nil _ _).mp hpos)] at hmissing
    rw [call_none_of_incomplete args kwargs fun hc => hpos (hcomplete.mp hc).1]
    exact hmissing.bind _
  rw [if_pos ((unbound_eq_nil _ _).mpr hpos)] at hmissing
  simp only [hmissing,pure_bind]
  have hlast := bindKwargs_eq evalDefaultSource noneValue args kwargs h hnd hplaced
  split_ifs at hlast with hok
  · obtain ⟨c,hc,hslots⟩ := call_slots args kwargs (hfits.mpr ⟨harg,hdup,hok.2⟩)
      (hcomplete.mpr ⟨hpos,hok.1⟩)
    rw [hc]
    dsimp only
    rw [hslots]
    exact hlast
  · have hnone : sig.call args kwargs.entries=none := by
      rcases not_and_or.mp hok with hkw | hstar
      · exact call_none_of_incomplete args kwargs fun hc => hkw (hcomplete.mp hc).2
      · exact call_none_of_not_fits args kwargs fun hf => hstar (hfits.mp hf).2.2
    rw [hnone]
    exact hlast

end Assembly

end InterpretThis.Functions
