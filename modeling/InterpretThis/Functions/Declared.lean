import InterpretThis.Functions.Binding

namespace InterpretThis.Functions

open Calling

section Signature

variable {E V σ : Type}

def Arguments.names (args : Arguments E) : List String :=
  (args.posonlyargs++args.args).map ArgWithDefault.arg++
    args.kwonlyargs.map ArgWithDefault.arg++args.vararg.toList++args.kwarg.toList

/-- What the grammar asks of a parameter list: no name twice, and no parameter without a default
after one with a default. -/
def Arguments.Valid (args : Arguments E) : Prop :=
  args.names.Nodup ∧
    (args.posonlyargs++args.args).Pairwise fun a b =>
      a.default.isSome=true → b.default.isSome=true

variable (unparseExpr : E → Except Failure String) (evalDefaultSource : String → M σ V)

/-- A parameter whose own default is evaluated where it stands. -/
def formal (byKeyword : Bool) (a : ArgWithDefault E) : M σ (Formal String V) :=
  match a.default with
  | some e =>
    match unparseExpr e with
    | .ok source => do
      let v ← evalDefaultSource source
      pure ⟨a.arg,byKeyword,some v⟩
    | .error e => throw e
  | none => pure ⟨a.arg,byKeyword,none⟩

def formals : List (Bool×ArgWithDefault E) → M σ (List (Formal String V))
  | [] => pure []
  | a::rest => do
    let p ← formal unparseExpr evalDefaultSource a.1 a.2
    let ps ← formals rest
    pure (p::ps)

def Arguments.positional (args : Arguments E) : List (Bool×ArgWithDefault E) :=
  args.posonlyargs.map (fun a => (false,a))++args.args.map fun a => (true,a)

def Arguments.keywordOnly (args : Arguments E) : List (Bool×ArgWithDefault E) :=
  args.kwonlyargs.map fun a => (true,a)

def signature (args : Arguments E) : M σ (Signature String V) := do
  let positional ← formals unparseExpr evalDefaultSource args.positional
  let keywordOnly ← formals unparseExpr evalDefaultSource args.keywordOnly
  pure ⟨positional,args.vararg.isSome,keywordOnly,args.kwarg.isSome⟩

/-- Evaluated parameters match the ones that are written. -/
structure Match (as : List (Bool×ArgWithDefault E)) (ps : List (Formal String V)) : Prop where
  names : ps.map Formal.name=as.map fun a => a.2.arg
  byKeyword : ps.map Formal.byKeyword=as.map Prod.fst
  defaults : ps.map (fun p => p.default.isSome)=as.map fun a => a.2.default.isSome

theorem Match.nil : Match ([] : List (Bool×ArgWithDefault E)) ([] : List (Formal String V)) :=
  ⟨rfl,rfl,rfl⟩

theorem Match.cons {a : Bool×ArgWithDefault E} {p : Formal String V}
    {as : List (Bool×ArgWithDefault E)} {ps : List (Formal String V)} (h : Match as ps)
    (hname : p.name=a.2.arg) (hkey : p.byKeyword=a.1)
    (hdefault : p.default.isSome=a.2.default.isSome) : Match (a::as) (p::ps) := by
  constructor
  · rw [List.map_cons,List.map_cons,h.names,hname]
  · rw [List.map_cons,List.map_cons,h.byKeyword,hkey]
  · rw [List.map_cons,List.map_cons,h.defaults,hdefault]

/-- Evaluating the sources of all defaults is evaluating every default where it stands. -/
theorem formals_of_sources (as : List (Bool×ArgWithDefault E)) {sources : List String}
    (hu : unparseDefaults unparseExpr (as.map Prod.snd)=.ok sources) {values : List V} {s t : σ}
    (he : exec (evalSources evalDefaultSource sources) s=(.ok values,t)) :
    ∃ ps,exec (formals unparseExpr evalDefaultSource as) s=(.ok ps,t) ∧ Match as ps ∧
      ps.filterMap Formal.default=values ∧ values.length=sources.length := by
  induction as generalizing sources values s with
  | nil =>
    cases hu
    cases he
    exact ⟨[],rfl,.nil,rfl,rfl⟩
  | cons a as ih =>
    rw [List.map_cons,unparseDefaults] at hu
    cases hd : a.2.default with
    | none =>
      rw [hd] at hu
      obtain ⟨ps,hps,hmatch,hvalues,hlen⟩ := ih hu he
      refine ⟨⟨a.2.arg,a.1,none⟩::ps,?_,hmatch.cons rfl rfl (by rw [hd]; rfl),?_,hlen⟩
      · have hformal : exec (formal unparseExpr evalDefaultSource a.1 a.2) s=
            (.ok ⟨a.2.arg,a.1,none⟩,s) := by
          unfold formal
          rw [hd]
          rfl
        rw [formals,exec_bind_ok hformal,exec_bind_ok hps]
        rfl
      · rw [List.filterMap_cons]
        exact hvalues
    | some e =>
      rw [hd] at hu
      simp only [bind,Except.bind] at hu
      cases hsource : unparseExpr e with
      | error f => simp only [hsource] at hu; exact nomatch hu
      | ok source =>
        simp only [hsource] at hu
        cases hrest : unparseDefaults unparseExpr (as.map Prod.snd) with
        | error f => simp only [hrest] at hu; exact nomatch hu
        | ok rest =>
          simp only [hrest] at hu
          cases hu
          obtain ⟨v,u,hv,he⟩ := ok_of_exec_bind he
          obtain ⟨vs,w,hvs,he⟩ := ok_of_exec_bind he
          cases he
          obtain ⟨ps,hps,hmatch,hvalues,hlen⟩ := ih hrest hvs
          refine ⟨⟨a.2.arg,a.1,some v⟩::ps,?_,hmatch.cons rfl rfl (by rw [hd]; rfl),?_,by simp [hlen]⟩
          · have hformal : exec (formal unparseExpr evalDefaultSource a.1 a.2) s=
                (.ok ⟨a.2.arg,a.1,some v⟩,u) := by
              unfold formal
              simp only [hd,hsource]
              rw [exec_bind_ok hv]
              rfl
            rw [formals,exec_bind_ok hformal,exec_bind_ok hps]
            rfl
          · rw [List.filterMap_cons]
            dsimp only
            rw [hvalues]

theorem formals_of_kwSources (as : List (Bool×ArgWithDefault E)) {sources : List (Option String)}
    (hu : unparseKwDefaults unparseExpr (as.map Prod.snd)=.ok sources) {values : List (Option V)}
    {s t : σ} (he : exec (evalKwSources evalDefaultSource sources) s=(.ok values,t)) :
    ∃ ps,exec (formals unparseExpr evalDefaultSource as) s=(.ok ps,t) ∧ Match as ps ∧
      values=ps.map Formal.default ∧ sources.map Option.isSome=values.map Option.isSome := by
  induction as generalizing sources values s with
  | nil =>
    cases hu
    cases he
    exact ⟨[],rfl,.nil,rfl,rfl⟩
  | cons a as ih =>
    rw [List.map_cons,unparseKwDefaults] at hu
    cases hrest : unparseKwDefaults unparseExpr (as.map Prod.snd) with
    | error f =>
      rw [hrest] at hu
      cases hd : a.2.default with
      | none => rw [hd] at hu; exact nomatch hu
      | some e =>
        rw [hd] at hu
        dsimp only at hu
        cases hsource : unparseExpr e <;> (rw [hsource] at hu; exact nomatch hu)
    | ok rest =>
      rw [hrest] at hu
      cases hd : a.2.default with
      | none =>
        rw [hd] at hu
        cases hu
        rw [evalKwSources] at he
        simp only [pure_bind] at he
        obtain ⟨vs,w,hvs,he⟩ := ok_of_exec_bind he
        cases he
        obtain ⟨ps,hps,hmatch,hvalues,hsome⟩ := ih hrest hvs
        refine ⟨⟨a.2.arg,a.1,none⟩::ps,?_,hmatch.cons rfl rfl (by rw [hd]; rfl),?_,?_⟩
        · have hformal : exec (formal unparseExpr evalDefaultSource a.1 a.2) s=
              (.ok ⟨a.2.arg,a.1,none⟩,s) := by
            unfold formal
            rw [hd]
            rfl
          rw [formals,exec_bind_ok hformal,exec_bind_ok hps]
          rfl
        · rw [hvalues]
          rfl
        · rw [List.map_cons,List.map_cons,hsome]
          rfl
      | some e =>
        rw [hd] at hu
        dsimp only at hu
        cases hsource : unparseExpr e with
        | error f => rw [hsource] at hu; exact nomatch hu
        | ok source =>
          rw [hsource] at hu
          cases hu
          obtain ⟨o,u,ho,he⟩ := ok_of_exec_bind he
          obtain ⟨vs,w,hvs,he⟩ := ok_of_exec_bind he
          cases he
          rw [map_eq_pure_bind] at ho
          obtain ⟨v,x,hv,ho⟩ := ok_of_exec_bind ho
          cases ho
          obtain ⟨ps,hps,hmatch,hvalues,hsome⟩ := ih hrest hvs
          refine ⟨⟨a.2.arg,a.1,some v⟩::ps,?_,hmatch.cons rfl rfl (by rw [hd]; rfl),?_,?_⟩
          · have hformal : exec (formal unparseExpr evalDefaultSource a.1 a.2) s=
                (.ok ⟨a.2.arg,a.1,some v⟩,u) := by
              unfold formal
              simp only [hd,hsource]
              rw [exec_bind_ok hv]
              rfl
            rw [formals,exec_bind_ok hformal,exec_bind_ok hps]
            rfl
          · rw [hvalues]
            rfl
          · rw [List.map_cons,List.map_cons,hsome]
            rfl

end Signature

section Alignment

variable {V : Type}

theorem all_some {os : List (Option V)} (h : ∀ o ∈ os,o.isSome=true) :
    os=(os.filterMap id).map some := by
  induction os with
  | nil => rfl
  | cons o os ih =>
    obtain ⟨v,rfl⟩ := Option.isSome_iff_exists.mp (h o List.mem_cons_self)
    have hrest := ih fun b hb => h b (List.mem_cons_of_mem _ hb)
    change some v::os=some v::(os.filterMap id).map some
    rw [← hrest]

/-- Where defaults only stand at the end, the `i`-th is found by counting from there. -/
theorem aligned (os : List (Option V))
    (h : os.Pairwise fun a b => a.isSome=true → b.isSome=true) (i : Nat) (o : Option V)
    (ho : os[i]?=some o) :
    (if os.length-(os.filterMap id).length ≤ i then
      (os.filterMap id)[i-(os.length-(os.filterMap id).length)]? else none)=o := by
  induction os generalizing i with
  | nil => simp at ho
  | cons a os ih =>
    obtain ⟨hfirst,hrest⟩ := List.pairwise_cons.mp h
    cases a with
    | none =>
      have hle := List.length_filterMap_le id os
      have hskip : (none::os).length-(os.filterMap id).length=
          os.length-(os.filterMap id).length+1 := by rw [List.length_cons]; omega
      change (if (none::os).length-(os.filterMap id).length ≤ i then
        (os.filterMap id)[i-((none::os).length-(os.filterMap id).length)]? else none)=o
      rw [hskip]
      cases i with
      | zero =>
        cases ho
        exact if_neg (by omega)
      | succ i =>
        rw [← ih hrest i ho]
        simp only [Nat.add_le_add_iff_right,Nat.add_sub_add_right]
    | some v =>
      have hall := all_some fun b hb => hfirst b hb rfl
      have hlen : os.length=(os.filterMap id).length := by
        have := congrArg List.length hall
        rwa [List.length_map] at this
      have hzero : (some v::os).length-(v::os.filterMap id).length=0 := by
        rw [List.length_cons,List.length_cons,hlen]
        omega
      change (if (some v::os).length-(v::os.filterMap id).length ≤ i then
        (v::os.filterMap id)[i-((some v::os).length-(v::os.filterMap id).length)]? else none)=o
      rw [hzero,if_pos (Nat.zero_le _),Nat.sub_zero]
      have hat : ((v::os.filterMap id).map some)[i]?=some o := by
        rw [List.map_cons,← hall]
        exact ho
      rw [List.getElem?_map] at hat
      obtain ⟨w,hw,rfl⟩ := Option.map_eq_some_iff.mp hat
      exact hw

end Alignment

section Preparation

variable {E V σ : Type}
variable (unparseExpr : E → Except Failure String) (nameOf : E → Option String)
variable (evalDefaultSource : String → M σ V)

theorem evaluateParamDefaults_eq (params : FunctionParams V) (h : params.defaultValues=[])
    (hkw : params.kwDefaultValues=[]) :
    evaluateParamDefaults evalDefaultSource params=(do
      let values ← evalSources evalDefaultSource params.defaults
      let kwValues ← evalKwSources evalDefaultSource params.kwDefaults
      pure {params with defaultValues := values, kwDefaultValues := kwValues}) := by
  unfold evaluateParamDefaults
  rw [h,hkw]
  cases params.defaults <;> cases params.kwDefaults <;> rfl

theorem byKeyword_drop {as : List (Bool×ArgWithDefault E)} {ps : List (Formal String V)}
    (h : Match as ps) {n : Nat} {b : Bool} (hb : ∀ a ∈ as.drop n,a.1=b) :
    ∀ p ∈ ps.drop n,p.byKeyword=b := by
  intro p hp
  have hmem : p.byKeyword ∈ (ps.drop n).map Formal.byKeyword := List.mem_map_of_mem hp
  rw [List.map_drop,h.byKeyword,← List.map_drop] at hmem
  obtain ⟨a,ha,heq⟩ := List.mem_map.mp hmem
  exact heq ▸ hb a ha

theorem byKeyword_take {as : List (Bool×ArgWithDefault E)} {ps : List (Formal String V)}
    (h : Match as ps) {n : Nat} {b : Bool} (hb : ∀ a ∈ as.take n,a.1=b) :
    ∀ p ∈ ps.take n,p.byKeyword=b := by
  intro p hp
  have hmem : p.byKeyword ∈ (ps.take n).map Formal.byKeyword := List.mem_map_of_mem hp
  rw [List.map_take,h.byKeyword,← List.map_take] at hmem
  obtain ⟨a,ha,heq⟩ := List.mem_map.mp hmem
  exact heq ▸ hb a ha

theorem positional_written (args : Arguments E) :
    args.positional.map Prod.snd=args.posonlyargs++args.args := by
  simp [Arguments.positional,Function.comp_def]

theorem keywordOnly_written (args : Arguments E) :
    args.keywordOnly.map Prod.snd=args.kwonlyargs := by
  simp [Arguments.keywordOnly,Function.comp_def]

/-- Preparing a parameter list evaluates the defaults of its signature, and describes it. -/
theorem prepared (args : Arguments E) (hv : args.Valid) {params₀ params : FunctionParams V}
    {s t : σ} (hbuild : buildFunctionParams unparseExpr nameOf args=.ok params₀)
    (heval : exec (evaluateParamDefaults evalDefaultSource params₀) s=(.ok params,t)) :
    ∃ sig,exec (signature unparseExpr evalDefaultSource args) s=(.ok sig,t) ∧
      Describes params sig ∧ (declared params sig)=args.names ∧
      params.vararg=args.vararg ∧ params.kwarg=args.kwarg := by
  unfold buildFunctionParams at hbuild
  cases hsources : unparseDefaults unparseExpr (args.posonlyargs++args.args) with
  | error e => rw [hsources] at hbuild; exact nomatch hbuild
  | ok sources =>
  cases hkw : unparseKwDefaults unparseExpr args.kwonlyargs with
  | error e => rw [hsources,hkw] at hbuild; exact nomatch hbuild
  | ok kwSources =>
  rw [hsources,hkw] at hbuild
  cases hbuild
  rw [evaluateParamDefaults_eq evalDefaultSource _ rfl rfl] at heval
  obtain ⟨values,u,hvalues,heval⟩ := ok_of_exec_bind heval
  obtain ⟨kwValues,w,hkwValues,heval⟩ := ok_of_exec_bind heval
  cases heval
  rw [← positional_written args] at hsources
  rw [← keywordOnly_written args] at hkw
  obtain ⟨ps,hps,hmatch,hdefaults,hlen⟩ :=
    formals_of_sources unparseExpr evalDefaultSource args.positional hsources hvalues
  obtain ⟨ks,hks,hkmatch,hkdefaults,hksome⟩ :=
    formals_of_kwSources unparseExpr evalDefaultSource args.keywordOnly hkw hkwValues
  have hpsLength : ps.length=(args.posonlyargs++args.args).length := by
    have := congrArg List.length hmatch.names
    simpa [Arguments.positional] using this
  have hposonly : min args.posonlyargs.length (args.posonlyargs++args.args).length=
      args.posonlyargs.length := by
    rw [List.length_append]
    omega
  have hnames : ps.map Formal.name=(args.posonlyargs++args.args).map ArgWithDefault.arg := by
    rw [hmatch.names,← positional_written,List.map_map]
    rfl
  have hkwNames : ks.map Formal.name=args.kwonlyargs.map ArgWithDefault.arg := by
    rw [hkmatch.names,← keywordOnly_written,List.map_map]
    rfl
  have haligned : (ps.map Formal.default).Pairwise fun a b => a.isSome=true → b.isSome=true := by
    have hwritten : (ps.map fun p => p.default.isSome).Pairwise fun a b => a=true → b=true := by
      rw [hmatch.defaults,List.pairwise_map]
      have := hv.2
      rw [← positional_written args,List.pairwise_map] at this
      exact this
    rw [List.pairwise_map] at hwritten ⊢
    exact hwritten
  have hfilter : (ps.map Formal.default).filterMap id=values := by
    rw [List.filterMap_map,← hdefaults]
    rfl
  refine ⟨⟨ps,args.vararg.isSome,ks,args.kwarg.isSome⟩,?_,?_,?_,rfl,rfl⟩
  · rw [signature,exec_bind_ok hps,exec_bind_ok hks]
    rfl
  · exact {
      names := by
        rw [hnames,List.map_map]
        rfl
      positionOnly := byKeyword_take hmatch fun a ha => by
        simp only [posonly,List.length_map,hposonly] at ha
        rw [Arguments.positional,List.take_left' (by rw [List.length_map])] at ha
        obtain ⟨b,-,rfl⟩ := List.mem_map.mp ha
        rfl
      rest := byKeyword_drop hmatch fun a ha => by
        simp only [posonly,List.length_map,hposonly] at ha
        rw [Arguments.positional,List.drop_left' (by rw [List.length_map])] at ha
        obtain ⟨b,-,rfl⟩ := List.mem_map.mp ha
        rfl
      evaluated := hlen
      default := fun i p hp => by
        have hat := aligned (ps.map Formal.default) haligned i p.default (by
          rw [List.getElem?_map,hp]
          rfl)
        rw [hfilter,List.length_map,hpsLength] at hat
        simpa only [firstDefault,List.length_map,← hlen] using hat
      star := rfl
      kwNames := by
        rw [hkwNames,List.map_map]
        rfl
      kwByKeyword := fun p hp => by
        have hall : ∀ p ∈ ks.drop 0,p.byKeyword=true := byKeyword_drop hkmatch (fun a ha => by
          obtain ⟨b,-,rfl⟩ := List.mem_map.mp (by simpa [Arguments.keywordOnly] using ha)
          rfl)
        exact hall p (by simpa using hp)
      kwEvaluated := hksome
      kwDefault := hkdefaults
      starStar := rfl }
  · unfold declared Signature.formals Arguments.names
    rw [List.map_append,hnames,hkwNames]

end Preparation

section Result

variable {E V σ : Type}

/-- A scope binds exactly the declared names, as the call has it. -/
structure Binds (args : Arguments E) (c : Call String V) (scope : Scope V) : Prop where
  once : (scope.map Prod.fst).Nodup
  declared : (scope.map Prod.fst).Perm args.names
  values : ∀ e ∈ c.values,scope.lookup e.1=some (.value e.2)
  star : ∀ n ∈ args.vararg,scope.lookup n=some (.tuple c.star)
  extra : ∀ n ∈ args.kwarg,scope.lookup n=some (.dict c.extra)

theorem bindings_append (given : List (String×V)) (ps qs : List (Formal String V)) :
    bindings given (ps++qs)=bindings given ps++bindings given qs := List.filterMap_append

theorem bindings_complete {given : List (String×V)} {ps : List (Formal String V)}
    {values : List (String×V)} (h : Signature.complete given ps=some values) :
    bindings given ps=values.map fun e => (e.1,.value e.2) := by
  rw [complete_eq] at h
  split_ifs at h
  cases h
  unfold bindings
  rw [List.map_filterMap]
  refine List.filterMap_congr fun p _ => ?_
  rw [Option.map_map]
  rfl

theorem complete_of_call {sig : Signature String V} {args : List V} {kwargs : List (String×V)}
    {c : Call String V} (h : sig.call args kwargs=some c) :
    Signature.complete c.filled sig.formals=some c.values := by
  obtain ⟨s,-,h⟩ := Option.bind_eq_some_iff.mp h
  obtain ⟨t,-,h⟩ := Option.bind_eq_some_iff.mp h
  obtain ⟨values,hvalues,rfl⟩ := Option.map_eq_some_iff.mp h
  exact hvalues

theorem scopeOf_binds {args : Arguments E} (hv : args.Valid) {params : FunctionParams V}
    {sig : Signature String V} (hnames : declared params sig=args.names)
    (hvararg : params.vararg=args.vararg) (hkwarg : params.kwarg=args.kwarg) {values : List V}
    {kwargs : List (String×V)} {c : Call String V} (hc : sig.call values kwargs=some c) :
    Binds args c (scopeOf params sig c.toSlots) := by
  have hcomplete := complete_of_call hc
  have hvalues : bindings c.filled sig.positional++bindings c.filled sig.keywordOnly=
      c.values.map fun e => (e.1,.value e.2) := by
    rw [← bindings_append]
    exact bindings_complete hcomplete
  have hperm : (scopeOf params sig c.toSlots).Perm
      (c.values.map (fun e => (e.1,Bound.value e.2))++
        params.vararg.toList.map (fun n => (n,Bound.tuple c.star))++
        params.kwarg.toList.map fun n => (n,Bound.dict c.extra)) := by
    rw [← hvalues]
    unfold scopeOf
    refine List.Perm.append_right _ ?_
    rw [List.append_assoc,List.append_assoc]
    exact List.perm_append_comm.append_left _
  have hkeys : ((scopeOf params sig c.toSlots).map Prod.fst).Perm args.names := by
    refine (hperm.map Prod.fst).trans ?_
    rw [← hnames]
    unfold declared
    rw [List.map_append,List.map_append,List.map_map,List.map_map,List.map_map,
      ← values_names hcomplete]
    simp only [Function.comp_def,List.map_id_fun',id]
    exact .refl _
  have honce : ((scopeOf params sig c.toSlots).map Prod.fst).Nodup := hkeys.nodup_iff.mpr hv.1
  have hlookup (e : String×Bound V) (he : e ∈ c.values.map (fun e => (e.1,Bound.value e.2))++
        params.vararg.toList.map (fun n => (n,Bound.tuple c.star))++
        params.kwarg.toList.map fun n => (n,Bound.dict c.extra)) :
      (scopeOf params sig c.toSlots).lookup e.1=some e.2 :=
    lookup_of_mem honce (hperm.mem_iff.mpr he)
  exact {
    once := honce
    declared := hkeys
    values := fun e he => hlookup (e.1,.value e.2)
      (List.mem_append_left _ (List.mem_append_left _ (List.mem_map.mpr ⟨e,he,rfl⟩)))
    star := fun n hn => hlookup (n,.tuple c.star)
      (List.mem_append_left _ (List.mem_append_right _ (List.mem_map.mpr ⟨n,by
        rw [hvararg]
        exact Option.mem_toList.mpr hn,rfl⟩)))
    extra := fun n hn => hlookup (n,.dict c.extra)
      (List.mem_append_right _ (List.mem_map.mpr ⟨n,by
        rw [hkwarg]
        exact Option.mem_toList.mpr hn,rfl⟩)) }

/-- Every call of a function with evaluated defaults is bound as the rules say: it is accepted when
they accept it, and then every argument and every default is in its place. -/
theorem binding_exact (unparseExpr : E → Except Failure String) (nameOf : E → Option String)
    (evalDefaultSource : String → M σ V) (noneValue : V) (arguments : Arguments E)
    (hv : arguments.Valid) (params₀ params : FunctionParams V) (s t : σ)
    (hbuild : buildFunctionParams unparseExpr nameOf arguments=.ok params₀)
    (heval : exec (evaluateParamDefaults evalDefaultSource params₀) s=(.ok params,t)) :
    ∃ sig,exec (signature unparseExpr evalDefaultSource arguments) s=(.ok sig,t) ∧
      ∀ (funcName : String) (args : List V) (kwargs : Kwargs V) (u : σ),
        match sig.call args kwargs.entries with
        | none =>
          ∃ text,exec (bindParamsNamed evalDefaultSource noneValue params funcName args kwargs) u=
            (.error (.typeError text),u)
        | some c =>
          Conserves sig args kwargs.entries c ∧
          ∃ scope,exec (bindParamsNamed evalDefaultSource noneValue params funcName args kwargs) u=
            (.ok scope,u) ∧ Binds arguments c scope := by
  obtain ⟨sig,hsig,hdesc,hnames,hvararg,hkwarg⟩ :=
    prepared unparseExpr nameOf evalDefaultSource arguments hv hbuild heval
  refine ⟨sig,hsig,fun funcName args kwargs u => ?_⟩
  have hnd : (declared params sig).Nodup := hnames ▸ hv.1
  have hd : (sig.formals.map Formal.name).Nodup :=
    (List.nodup_append.mp (List.nodup_append.mp hnd).1).1
  have hbind := bindParamsNamed_eq evalDefaultSource noneValue funcName args kwargs hdesc hnd
  cases hc : sig.call args kwargs.entries with
  | none =>
    rw [hc] at hbind
    obtain ⟨text,htext⟩ := hbind
    exact ⟨text,by rw [htext,exec_throw]⟩
  | some c =>
    rw [hc] at hbind
    exact ⟨call_conserves hd kwargs.distinct hc,_,by rw [hbind,exec_pure],
      scopeOf_binds hv hnames hvararg hkwarg hc⟩

/-- `def f(a,b=ten,/,c=no,*rest,k,**more)`, with defaults that evaluate to their lengths. -/
def written : Arguments String :=
  ⟨[⟨"a",none,none⟩,⟨"b",none,some "ten"⟩],[⟨"c",none,some "no"⟩],some "rest",[⟨"k",none,none⟩],
    some "more"⟩

def stored : FunctionParams Nat :=
  ⟨[⟨"a",none⟩,⟨"b",none⟩,⟨"c",none⟩],["ten","no"],[3,2],some "rest",[⟨"k",none⟩],[none],[none],
    some "more",2⟩

/-- The call `f(1,k=5,b=6)`: `b` goes to the other keywords and keeps its default. -/
theorem binding_exact_call :
    ∃ scope : Scope Nat,
      exec (bindParamsNamed (fun source => (pure source.length : M Unit Nat)) 0 stored "f" [1]
        ⟨[("k",5),("b",6)],by decide⟩) ()=(.ok scope,()) ∧
      scope.lookup "b"=some (.value 3) ∧ scope.lookup "more"=some (.dict [("b",6)]) := by
  obtain ⟨sig,hsig,hall⟩ := binding_exact (σ := Unit) (fun e => .ok e) (fun _ => none)
    (fun source => pure source.length) 0 written ⟨by decide,by decide⟩ _ stored () () rfl rfl
  cases hsig
  obtain ⟨-,scope,hscope,hbinds⟩ := hall "f" [1] ⟨[("k",5),("b",6)],by decide⟩ ()
  exact ⟨scope,hscope,hbinds.values ("b",3) (by decide),hbinds.extra "more" (by rfl)⟩

end Result

end InterpretThis.Functions
