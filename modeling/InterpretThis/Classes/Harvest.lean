import InterpretThis.Classes.Body
import Mathlib.Tactic.SplitIfs

namespace InterpretThis.ClassBody

section Targets

variable {V E : Type} {x : Machine V E}

def nothing : Names V := fun _ => none

theorem nothing_above (a : Names V) : Names.above nothing a=a := by
  funext n
  exact Option.none_or

mutual

theorem bindClassTarget_above : ∀(t : Target V E) (v : V) (b a : Names V),
    bindClassTarget x t v (b.above a)=(bindClassTarget x t v b).map fun c => c.above a
  | .name n,v,b,a => by
    rw [bindClassTarget,bindClassTarget]
    exact congrArg Except.ok (above_update b a n v).symm
  | .seq ts,v,b,a => by
    rw [bindClassTarget,bindClassTarget]
    cases x.items v with
    | error e => rfl
    | ok vs =>
      simp only
      split_ifs with hlen
      · rfl
      · exact unpackClassTargets_above ts vs b a
  | .starred _,_,_,_ => by
    rw [bindClassTarget,bindClassTarget]
    rfl
  | .other _,_,_,_ => by
    rw [bindClassTarget,bindClassTarget]
    rfl

theorem unpackClassTargets_above : ∀(ts : List (Target V E)) (vs : List V) (b a : Names V),
    unpackClassTargets x ts vs (b.above a)=(unpackClassTargets x ts vs b).map fun c => c.above a
  | [],_,_,_ => by
    rw [unpackClassTargets,unpackClassTargets]
    · rfl
    · exact fun _ _ _ _ h => nomatch h
    · exact fun _ _ _ _ h => nomatch h
  | t::ts,[],_,_ => by
    rw [unpackClassTargets,unpackClassTargets]
    · rfl
    · exact fun _ _ _ _ _ h => nomatch h
    · exact fun _ _ _ _ _ h => nomatch h
  | t::ts,v::vs,b,a => by
    rw [unpackClassTargets,unpackClassTargets,bindClassTarget_above t v b a]
    cases bindClassTarget x t v b with
    | error e => rfl
    | ok c => exact unpackClassTargets_above ts vs c a

end

theorem bindClassTargets_above (v : V) : ∀(ts : List (Target V E)) (b a : Names V),
    bindClassTargets x v ts (b.above a)=(bindClassTargets x v ts b).map fun c => c.above a
  | [],_,_ => rfl
  | t::ts,b,a => by
    rw [bindClassTargets,bindClassTargets,bindClassTarget_above t v b a]
    cases bindClassTarget x t v b with
    | error e => rfl
    | ok c => exact bindClassTargets_above v ts c a

theorem unpackClassTargets_cons (t : Target V E) (ts : List (Target V E)) (v : V) (vs : List V)
    (a : Names V) : unpackClassTargets x (t::ts) (v::vs) a=
      (bindClassTarget x t v a).bind (unpackClassTargets x ts vs) := by
  rw [unpackClassTargets]
  cases bindClassTarget x t v a <;> rfl

theorem bindClassTargets_cons (v : V) (t : Target V E) (ts : List (Target V E)) (a : Names V) :
    bindClassTargets x v (t::ts) a=(bindClassTarget x t v a).bind (bindClassTargets x v ts) := by
  rw [bindClassTargets]
  cases bindClassTarget x t v a <;> rfl

/-- The iteration of the language on what the interpreter can unpack. -/
def Machine.Lawful (x : Machine V E) : Prop :=
  ∀v vs n, x.items v=.ok vs → x.unpack n none v=
    if vs.length≠n then .fail (x.wrongArity vs.length n) else .done vs

mutual

/-- A name that is no method, or as many of such targets as the list, tuple or string has items. -/
def Machine.PlainTarget (x : Machine V E) (methods : Names V) : Target V E → V → Prop
  | .name n,_ => methods n=none
  | .seq ts,v => starIndex ts=none ∧ ∃vs, x.items v=.ok vs ∧ Machine.PlainTargets x methods ts vs
  | .starred _,_ => False
  | .other _,_ => False

def Machine.PlainTargets (x : Machine V E) (methods : Names V) : List (Target V E) → List V → Prop
  | t::ts,v::vs => Machine.PlainTarget x methods t v ∧ Machine.PlainTargets x methods ts vs
  | _,_ => True

end

/-- The end of a binding of targets in the namespace. -/
def Bound (r : Except E (Names V)) (s : Scopes V) (q : Except E Unit×Scopes V) : Prop :=
  q.1=r.map (fun _ => ()) ∧ q.2.methods=s.methods ∧ q.2.outer=s.outer ∧ ∀a, r=.ok a → q.2.own=a

theorem bound_done (s : Scopes V) : Bound (E := E) (.ok s.own) s (.ok (),s) :=
  ⟨rfl,rfl,rfl,fun _ h => Except.ok.inj h⟩

theorem bound_andThen {r : Except E (Names V)} {s : Scopes V} {c : Code V E Unit}
    {rest : Code V E Unit} {f : Names V → Except E (Names V)} (hc : Bound r s (c.runApart s))
    (hf : ∀s', s'.methods=s.methods → s'.outer=s.outer → Bound (f s'.own) s' (rest.runApart s')) :
    Bound (r.bind f) s ((c.andThen fun _ => rest).runApart s) := by
  have hrun := Code.runApart_andThen (fun _ => rest) c s
  change (c.andThen fun _ => rest).runApart s=_ at hrun
  rw [hrun]
  obtain ⟨hres,hmethods,houter,hown⟩ := hc
  rcases hq : c.runApart s with ⟨q,t⟩
  rw [hq] at hres hmethods houter hown
  cases r with
  | error e =>
    have hqe : q=.error e := hres
    rw [hqe]
    exact ⟨rfl,hmethods,houter,fun _ h => nomatch h⟩
  | ok a =>
    have hqe : q=.ok () := hres
    have hta : t.own=a := hown a rfl
    obtain ⟨hres',hmethods',houter',hown'⟩ := hf t hmethods houter
    rw [hqe]
    rw [hta] at hres' hown'
    exact ⟨hres',hmethods'.trans hmethods,houter'.trans houter,hown'⟩

mutual

theorem pyTarget_bound (hx : x.Lawful) : ∀(t : Target V E) (v : V) (s : Scopes V),
    x.PlainTarget s.methods t v → Bound (bindClassTarget x t v s.own) s ((pyTarget x t v).runApart s)
  | .name n,v,s,hp => by
    rw [bindClassTarget,pyTarget]
    rw [Machine.PlainTarget] at hp
    exact ⟨rfl,update_none hp,rfl,fun _ h => Except.ok.inj h⟩
  | .seq ts,v,s,hp => by
    rw [Machine.PlainTarget] at hp
    obtain ⟨hstar,vs,hitems,hts⟩ := hp
    rw [bindClassTarget,pyTarget,hstar,hx v vs ts.length hitems,hitems]
    simp only
    split_ifs with hlen
    · exact ⟨rfl,rfl,rfl,fun _ h => nomatch h⟩
    · exact pyUnpack_bound hx ts vs s hts
  | .starred _,_,_,hp => by
    rw [Machine.PlainTarget] at hp
    exact hp.elim
  | .other _,_,_,hp => by
    rw [Machine.PlainTarget] at hp
    exact hp.elim

theorem pyUnpack_bound (hx : x.Lawful) : ∀(ts : List (Target V E)) (vs : List V) (s : Scopes V),
    x.PlainTargets s.methods ts vs →
      Bound (unpackClassTargets x ts vs s.own) s ((pyUnpack x ts vs).runApart s)
  | [],vs,s,_ => by
    rw [unpackClassTargets,pyUnpack]
    · exact bound_done s
    · exact fun _ _ _ _ h => nomatch h
    · exact fun _ _ _ _ h => nomatch h
  | t::ts,[],s,_ => by
    rw [unpackClassTargets,pyUnpack]
    · exact bound_done s
    · exact fun _ _ _ _ _ h => nomatch h
    · exact fun _ _ _ _ _ h => nomatch h
  | t::ts,v::vs,s,hp => by
    rw [Machine.PlainTargets] at hp
    rw [unpackClassTargets_cons,pyUnpack]
    apply bound_andThen (pyTarget_bound hx t v s hp.1)
    intro s' hm _
    apply pyUnpack_bound hx ts vs s'
    rw [hm]
    exact hp.2

end

theorem pyTargets_bound (hx : x.Lawful) (v : V) : ∀(ts : List (Target V E)) (s : Scopes V),
    (∀t∈ts, x.PlainTarget s.methods t v) →
      Bound (bindClassTargets x v ts s.own) s ((pyTargets x v ts).runApart s)
  | [],s,_ => bound_done s
  | t::ts,s,hp => by
    rw [bindClassTargets_cons,pyTargets]
    apply bound_andThen (pyTarget_bound hx t v s (hp t List.mem_cons_self))
    intro s' hm _
    apply pyTargets_bound hx v ts s'
    intro u hu
    rw [hm]
    exact hp u (List.mem_cons_of_mem t hu)

end Targets

section Harvest

variable {V E : Type} {x : Machine V E}

/-- What a statement binds is what the harvest finds. `bound` are the names that the statement's
targets bind, after its code has led from `own` to `own'`. -/
structure Machine.Kept (x : Machine V E) (saved bound own own' outer : Names V) : Prop where
  /-- The value that a target replaces is not taken for a new one. -/
  rebound : ∀{n v w}, bound n=some v → own'.above outer n=some w → x.differs (some v) w=true →
    x.differs (saved n) w=true → w=v
  /-- A value bound otherwise is new to the class and to the enclosing scope. -/
  found : ∀{n w}, bound n=none → own' n=some w →
    own n=some w ∨ (x.differs (own n) w=true ∧ x.differs (saved n) w=true)
  removed : ∀{n}, bound n=none → own' n=none → own n=none
  /-- A value of the enclosing scope is equal to itself. -/
  stray : ∀{n w}, bound n=none → own' n=none → outer n=some w → x.differs (saved n) w=false

theorem harvest_some {saved vars attrs : Names V} {n : String} {w : V} (h : vars n=some w) :
    harvest x saved vars attrs n=
      if x.differs (attrs n) w&&x.differs (saved n) w then some w else attrs n := by
  unfold harvest
  rw [h]

theorem harvest_none {saved vars attrs : Names V} {n : String} (h : vars n=none) :
    harvest x saved vars attrs n=attrs n := by
  unfold harvest
  rw [h]

theorem above_some {a b : Names V} {n : String} {v : V} (h : a n=some v) : a.above b n=some v := by
  unfold Names.above
  rw [h]
  rfl

theorem above_none {a b : Names V} {n : String} (h : a n=none) : a.above b n=b n := by
  unfold Names.above
  rw [h]
  rfl

theorem harvest_iff {saved bound own own' outer : Names V} :
    harvest x saved (own'.above outer) (bound.above own)=bound.above own' ↔
      x.Kept saved bound own own' outer := by
  constructor
  · intro h
    refine ⟨?_,?_,?_,?_⟩
    · intro n v w hb hw hd hs
      have hn := congrFun h n
      rw [harvest_some hw,above_some hb,above_some hb,hd,hs] at hn
      exact Option.some.inj hn
    · intro n w hb hw
      have hn := congrFun h n
      rw [harvest_some (above_some hw),above_none hb,above_none hb,hw] at hn
      by_cases hfound : (x.differs (own n) w&&x.differs (saved n) w)=true
      · exact Or.inr (Bool.and_eq_true_iff.mp hfound)
      · rw [if_neg hfound] at hn
        exact Or.inl hn
    · intro n hb hw
      have hn := congrFun h n
      rw [above_none hb,hw] at hn
      cases ho : outer n with
      | none =>
        rw [harvest_none ((above_none hw).trans ho),above_none hb] at hn
        exact hn
      | some u =>
        rw [harvest_some ((above_none hw).trans ho),above_none hb] at hn
        split_ifs at hn
        exact hn
    · intro n w hb hw ho
      have hn := congrFun h n
      rw [harvest_some ((above_none hw).trans ho),above_none hb,above_none hb,hw] at hn
      by_cases hfound : (x.differs (own n) w&&x.differs (saved n) w)=true
      · rw [if_pos hfound] at hn
        cases hn
      · rw [if_neg hfound] at hn
        rw [hn] at hfound
        exact Bool.not_eq_true _ ▸ fun hs => hfound (by rw [hs]; rfl)
  · intro h
    funext n
    cases hb : bound n with
    | some v =>
      rw [above_some hb]
      cases hw : own'.above outer n with
      | none => rw [harvest_none hw,above_some hb]
      | some w =>
        rw [harvest_some hw,above_some hb]
        split_ifs with hfound
        · obtain ⟨hd,hs⟩ := Bool.and_eq_true_iff.mp hfound
          rw [h.rebound hb hw hd hs]
        · rfl
    | none =>
      rw [above_none hb]
      cases hw : own' n with
      | some w =>
        rw [harvest_some (above_some hw),above_none hb]
        rcases h.found hb hw with hold | ⟨hd,hs⟩
        · rw [hold]
          split_ifs <;> rfl
        · rw [hd,hs]
          rfl
      | none =>
        have hown : own n=none := h.removed hb hw
        cases ho : outer n with
        | none => rw [harvest_none ((above_none hw).trans ho),above_none hb,hown]
        | some w =>
          rw [harvest_some ((above_none hw).trans ho),above_none hb,hown,h.stray hb hw ho,
            Bool.and_false]
          rfl

theorem harvest_isSome {saved vars attrs : Names V} {n : String} (h : (attrs n).isSome=true) :
    (harvest x saved vars attrs n).isSome=true := by
  cases hv : vars n with
  | none => rw [harvest_none hv,h]
  | some w =>
    rw [harvest_some hv]
    split_ifs
    · rfl
    · exact h

theorem above_above {a b c : Names V} (h : ∀n, (b n).isSome=true → (a n).isSome=true) :
    a.above (b.above c)=a.above c := by
  funext n
  unfold Names.above
  cases ha : a n with
  | some v => rfl
  | none =>
    cases hb : b n with
    | none => rfl
    | some v =>
      have hsome := h n (by rw [hb]; rfl)
      rw [ha] at hsome
      cases hsome

end Harvest

section Statements

variable {V E : Type} (x : Machine V E)

/-- The code of a `def` means the same in one map, its builtin decorator is the builtin, a setter
is for the property of its own name, and a custom decorator may come before or after the
function. -/
def Machine.PlainDef (n : String) (shape : Shape V E) (make : Code V E V) (t : Scopes V) : Prop :=
  match shape.resolve fun p => (x.split t.methods .property p).isSome with
  | .builtin name => make.Separate t ∧ (∀d, name=some d → t.lookup d=none) ∧
    ∀f t', make.runApart t=(.ok f,t') → t'.own n=none
  | .accessor prop _ _ => prop=n ∧ make.Separate t ∧
    ∀f t', make.runApart t=(.ok f,t') → t'.own n=none
  | .custom decorator => (decorate x make decorator).Separate t ∧ t.methods n=none ∧
    (pyDecorate x make [decorator]).runApart t=(decorate x make decorator).runApart t
  | .stack _ => make.Separate t

/-- The statement's code means the same in one map, its targets are ones that the interpreter
binds, and its annotation does nothing. -/
def Machine.PlainStmt : Stmt V E → Scopes V → Prop
  | .assign value targets,t => value.Separate t ∧
    ∀v t', value.runApart t=(.ok v,t') → ∀u∈targets, x.PlainTarget t.methods u v
  | .annAssign n value annotation,t => value.Separate t ∧ t.methods n=none ∧
    ∀v t', value.runApart t=(.ok v,t') →
      annotation.runApart (t'.bind n v)=(.ok (),t'.bind n v)
  | .functionDef n shape make,t => x.PlainDef n shape make t
  | .block c,t => c.Separate t
  | .other _,_ => True

/-- The error of a stack of decorators, which comes after those of the defaults. -/
def Machine.stackError (n : String) : Except E V → E
  | .error e => e
  | .ok _ => x.unsupported n

/-- The other tables have no entry of the name, a decorator binds nothing else, and a stack of
decorators fails anyway. -/
def Machine.DefOk (saved : Names V) (n : String) (shape : Shape V E) (make : Code V E V)
    (t : Scopes V) : Prop :=
  match shape.resolve fun p => (x.split t.methods .property p).isSome with
  | .builtin _ =>
    match make.runApart t with
    | (.error _,t') => t'.outer=saved
    | (.ok f,t') => t'.outer=saved ∧ (∀p, t.methods n=some p → x.kind p=x.kind f) ∧
      x.Kept saved nothing t.own t'.own saved
  | .accessor _ _ _ =>
    match make.runApart t with
    | (.error _,t') => t'.outer=saved
    | (.ok _,t') => t'.outer=saved ∧ x.Kept saved nothing t.own t'.own saved
  | .custom decorator =>
    match (decorate x make decorator).runApart t with
    | (.error _,t') => t'.outer=saved
    | (.ok _,t') => t'.outer=saved ∧ ∀y, y≠n → t'.own y=t.own y
  | .stack decorators =>
    ((pyDecorate x make decorators).runApart t).1=.error (x.stackError n (make.runApart t).1) ∧
      ((pyDecorate x make decorators).runApart t).2.outer=saved

/-- The names that a statement binds are found, and the enclosing scope is as it was. -/
def Machine.StepOk (saved : Names V) (s : Stmt V E) (t : Scopes V) : Prop :=
  match s with
  | .assign value targets =>
    match value.runApart t with
    | (.error _,t') => t'.outer=saved
    | (.ok v,t') =>
      match bindClassTargets x v targets nothing with
      | .error _ => t'.outer=saved
      | .ok bound => t'.outer=saved ∧ x.Kept saved bound t.own t'.own saved
  | .annAssign n value _ =>
    match value.runApart t with
    | (.error _,t') => t'.outer=saved
    | (.ok v,t') => t'.outer=saved ∧
      x.Kept saved (Function.update nothing n (some v)) t.own t'.own saved
  | .functionDef n shape make => x.DefOk saved n shape make t
  | .block c =>
    match c.runApart t with
    | (.error _,t') => t'.outer=saved
    | (.ok (),t') => t'.outer=saved ∧ x.Kept saved nothing t.own t'.own saved
  | .other c => (c.runApart t).1=.ok () ∧ x.split (c.runApart t).2.methods=x.split t.methods ∧
    (c.runApart t).2.outer=saved ∧ (c.runApart t).2.own=harvest x saved t.shared t.own

def Machine.PlainBody : List (Stmt V E) → Scopes V → Prop
  | [],_ => True
  | s::ss,t => x.PlainStmt s t ∧ ∀t', pyStmt x s t=(.ok (),t') → Machine.PlainBody ss t'

/-- Every statement of the body that is reached is in order. -/
def Machine.BodyOk (saved : Names V) : List (Stmt V E) → Scopes V → Prop
  | [],_ => True
  | s::ss,t => x.StepOk saved s t ∧ ∀t', pyStmt x s t=(.ok (),t') → Machine.BodyOk saved ss t'

end Statements

section Steps

variable {V E : Type} {x : Machine V E}

/-- The class under construction is the namespace, and the map shows the two scopes. -/
structure Corresponds (x : Machine V E) (b : Build V) (t : Scopes V) : Prop where
  attrs : b.attrs=t.own
  tables : b.tables=x.split t.methods
  vars : b.attrs.above b.vars=t.shared

/-- Two ends of a statement that agree on everything. -/
def StepAgrees (x : Machine V E) (saved : Names V) (r : Except E (Build V))
    (q : Except E Unit×Scopes V) : Prop :=
  match r,q with
  | .error e,(.error e',t) => e=e' ∧ t.outer=saved
  | .ok b,(.ok (),t) => Corresponds x b t ∧ t.outer=saved
  | _,_ => False

/-- Two ends of a body that agree on the class and on the enclosing scope. -/
def Agrees (x : Machine V E) (saved : Names V) (r : Except E (Build V))
    (q : Except E Unit×Scopes V) : Prop :=
  (r.map (fun b => (b.attrs,b.tables)),saved)=
    (q.1.map (fun _ => (q.2.own,x.split q.2.methods)),q.2.outer)

variable {saved : Names V} {t : Scopes V}

theorem agrees_error {e e' : E} :
    Agrees x saved (.error e) (.error e',t) ↔ e=e' ∧ t.outer=saved := by
  constructor
  · intro h
    obtain ⟨he,ho⟩ := Prod.ext_iff.mp h
    exact ⟨Except.error.inj he,ho.symm⟩
  · rintro ⟨rfl,ho⟩
    exact Prod.ext rfl ho.symm

variable {b : Build V}

theorem agrees_ok :
    Agrees x saved (.ok b : Except E (Build V)) (.ok (),t) ↔
      b.attrs=t.own ∧ b.tables=x.split t.methods ∧ t.outer=saved := by
  constructor
  · intro h
    obtain ⟨he,ho⟩ := Prod.ext_iff.mp h
    obtain ⟨ha,hm⟩ := Prod.ext_iff.mp (Except.ok.inj he)
    exact ⟨ha,hm,ho.symm⟩
  · rintro ⟨ha,hm,ho⟩
    refine Prod.ext ?_ ho.symm
    change Except.ok (b.attrs,b.tables)=Except.ok (t.own,x.split t.methods)
    rw [ha,hm]

theorem agrees_mixed {e : E} :
    ¬Agrees x saved (.ok b) (.error e,t) ∧ ¬Agrees x saved (.error e) (.ok (),t) :=
  ⟨fun h => (nomatch (Prod.ext_iff.mp h).1),fun h => (nomatch (Prod.ext_iff.mp h).1)⟩

/-- Whether one statement is in order decides whether it ends alike, and then in all respects. -/
structure Decides (x : Machine V E) (saved : Names V) (good : Prop) (r : Except E (Build V))
    (q : Except E Unit×Scopes V) : Prop where
  agrees : good → StepAgrees x saved r q
  good : Agrees x saved r q → good

theorem Decides.of_iff {good good' : Prop} {r : Except E (Build V)} {q : Except E Unit×Scopes V}
    (h : good' ↔ good) (hd : Decides x saved good r q) : Decides x saved good' r q :=
  ⟨fun hg => hd.agrees (h.mp hg),fun ha => h.mpr (hd.good ha)⟩

theorem decides_error {e : E} : Decides x saved (t.outer=saved) (.error e) (.error e,t) where
  agrees h := ⟨rfl,h⟩
  good h := (agrees_error.mp h).2

/-- A statement that the interpreter refuses has to be refused. -/
theorem decides_refused {e : E} {q : Except E Unit} :
    Decides x saved (q=.error e ∧ t.outer=saved) (.error e) (q,t) := by
  constructor
  · rintro ⟨rfl,ho⟩
    exact ⟨rfl,ho⟩
  · intro h
    cases q with
    | error e' =>
      obtain ⟨he,ho⟩ := agrees_error.mp h
      exact ⟨congrArg Except.error he.symm,ho⟩
    | ok u => cases congrArg Prod.fst h

/-- A statement that runs to its end: what it binds is found by the harvest or not. -/
theorem decides_harvest {saved vars attrs bound own own' : Names V} {tables : Kind → Names V}
    (hattrs : attrs=bound.above own) (hvars : vars=own'.above t.outer)
    (hown : t.own=bound.above own') :
    Decides x saved (t.outer=saved ∧ tables=x.split t.methods ∧ x.Kept saved bound own own' saved)
      (.ok (Build.harvested x saved ⟨attrs,tables,vars⟩)) (.ok (),t) := by
  have hiff : t.outer=saved → (harvest x saved vars attrs=t.own ↔
      x.Kept saved bound own own' saved) := by
    intro ho
    rw [hattrs,hvars,hown,ho]
    exact harvest_iff
  constructor
  · rintro ⟨ho,htables,hk⟩
    have hfound := (hiff ho).mpr hk
    refine ⟨⟨hfound,htables,?_⟩,ho⟩
    change (harvest x saved vars attrs).above vars=t.shared
    rw [hfound,hvars]
    apply above_above
    intro n hn
    rw [hown]
    unfold Names.above
    rw [Option.isSome_or,hn,Bool.or_true]
  · intro h
    obtain ⟨ha,htables,ho⟩ := agrees_ok.mp h
    exact ⟨ho,htables,(hiff ho).mp ha⟩

theorem decides_found {saved vars attrs bound own own' : Names V} {tables : Kind → Names V}
    (hattrs : attrs=bound.above own) (hvars : vars=own'.above t.outer)
    (hown : t.own=bound.above own') (htables : tables=x.split t.methods) :
    Decides x saved (t.outer=saved ∧ x.Kept saved bound own own' saved)
      (.ok (Build.harvested x saved ⟨attrs,tables,vars⟩)) (.ok (),t) := by
  refine Decides.of_iff ?_ (decides_harvest hattrs hvars hown)
  exact ⟨fun h => ⟨h.1,htables,h.2⟩,fun h => ⟨h.1,h.2.2⟩⟩

theorem assign_decides (hx : x.Lawful) {value : Code V E V} {targets : List (Target V E)}
    (hattrs : b.attrs=t.own) (htables : b.tables=x.split t.methods) (hvars : b.vars=t.shared)
    (hp : x.PlainStmt (.assign value targets) t) :
    Decides x saved (x.StepOk saved (.assign value targets) t)
      (match value.runShared b.vars with
        | (.error e,_) => .error e
        | (.ok v,u) =>
          match bindClassTargets x v targets b.attrs with
          | .error e => .error e
          | .ok attrs => .ok (Build.harvested x saved ⟨attrs,b.tables,u⟩))
      (pyStmt x (.assign value targets) t) := by
  obtain ⟨hsep,htargets⟩ := hp
  obtain ⟨hshared,hmeth⟩ := hsep.runShared_eq
  have hpy : pyStmt x (.assign value targets) t=_ :=
    Code.runApart_andThen (fun v => pyTargets x v targets) value t
  rw [hpy,hvars,hattrs,htables]
  unfold Machine.StepOk
  simp only [hshared]
  rcases hrun : value.runApart t with ⟨r,t'⟩
  rw [hrun] at hmeth
  cases r with
  | error e => exact decides_error
  | ok v =>
    have hplain : ∀u∈targets, x.PlainTarget t'.methods u v := by
      intro u hu
      rw [hmeth]
      exact htargets v t' hrun u hu
    obtain ⟨hres,hm,houter,hown⟩ := pyTargets_bound hx v targets t' hplain
    have habove := fun a => (congrArg (bindClassTargets x v targets) (nothing_above a)).symm.trans
      (bindClassTargets_above v targets nothing a)
    rw [habove t'.own] at hres hown
    simp only [habove t.own]
    rcases hq : (pyTargets x v targets).runApart t' with ⟨q,t''⟩
    rw [hq] at hres hm houter hown
    cases hb : bindClassTargets x v targets nothing with
    | error e =>
      rw [hb] at hres
      have hqe : q=.error e := hres
      have hgood : t'.outer=saved ↔ t''.outer=saved := by rw [houter]
      rw [hqe]
      exact decides_error.of_iff hgood
    | ok bound =>
      rw [hb] at hres hown
      have hqe : q=.ok () := hres
      have hfinal : t''.own=bound.above t'.own := hown _ rfl
      have hvars' : t'.shared=t'.own.above t''.outer := by
        rw [houter]
        rfl
      have htables' : x.split t.methods=x.split t''.methods := by rw [hm.trans hmeth]
      have hgood : t'.outer=saved ∧ x.Kept saved bound t.own t'.own saved ↔
          t''.outer=saved ∧ x.Kept saved bound t.own t'.own saved := by rw [houter]
      rw [hqe]
      exact (decides_found rfl hvars' hfinal htables').of_iff hgood

theorem annAssign_decides {n : String} {value : Code V E V} { annotation : Code V E Unit}
    (hattrs : b.attrs=t.own) (htables : b.tables=x.split t.methods) (hvars : b.vars=t.shared)
    (hp : x.PlainStmt (.annAssign n value annotation) t) :
    Decides x saved (x.StepOk saved (.annAssign n value annotation) t)
      (match value.runShared b.vars with
        | (.error e,_) => .error e
        | (.ok v,u) => .ok (Build.harvested x saved
            ⟨Function.update b.attrs n (some v),b.tables,u⟩))
      (pyStmt x (.annAssign n value annotation) t) := by
  obtain ⟨hsep,hname,hann⟩ := hp
  obtain ⟨hshared,hmeth⟩ := hsep.runShared_eq
  have hpy : pyStmt x (.annAssign n value annotation) t=_ :=
    Code.runApart_andThen (fun v => .bind n v annotation) value t
  rw [hpy,hvars,hattrs,htables]
  unfold Machine.StepOk
  simp only [hshared]
  rcases hrun : value.runApart t with ⟨r,t'⟩
  rw [hrun] at hmeth
  cases r with
  | error e => exact decides_error
  | ok v =>
    have hlast : (Code.bind n v annotation).runApart t'=(.ok (),t'.bind n v) := hann v t' hrun
    simp only [hlast]
    have hbound : ∀a : Names V, Function.update a n (some v)=
        Names.above (Function.update nothing n (some v)) a := by
      intro a
      rw [above_update,nothing_above]
    have hnone : t'.methods n=none := by
      rw [hmeth]
      exact hname
    have htables' : x.split t.methods=x.split (t'.bind n v).methods :=
      congrArg x.split ((update_none hnone).trans hmeth).symm
    exact decides_found (t := t'.bind n v) (hbound t.own) rfl (hbound t'.own) htables'

theorem split_kind {methods : Names V} {n : String} {p : V} (h : methods n=some p) :
    x.split methods (x.kind p) n=some p := by
  unfold Machine.split
  rw [h]
  exact Option.filter_some_pos (decide_eq_true rfl)

theorem split_other {methods : Names V} {n : String} {p : V} {k : Kind} (h : methods n=some p)
    (hk : x.kind p≠k) : x.split methods k n=none := by
  unfold Machine.split
  rw [h]
  exact Option.filter_some_neg (by simpa using hk)

theorem split_some {methods : Names V} {n : String} {p : V} {k : Kind}
    (h : x.split methods k n=some p) : methods n=some p ∧ x.kind p=k := by
  obtain ⟨hm,hk⟩ := Option.filter_eq_some_iff.mp h
  exact ⟨hm,of_decide_eq_true hk⟩

theorem resolve_accessor {isProperty : String → Bool} {shape : Shape V E} {prop : String}
    {deleter : Bool} {decorator : Code V E V}
    (h : shape.resolve isProperty=.accessor prop deleter decorator) : isProperty prop=true := by
  cases shape with
  | builtin name => cases h
  | custom d => cases h
  | stack ds => cases h
  | accessor p d c =>
    change (if isProperty p then Shape.accessor p d c else .custom c)=_ at h
    split_ifs at h with hp
    cases h
    exact hp

/-- An entry is alone in its table and in the others when a former one is of the same table. -/
theorem insertTable_split {methods : Names V} {n : String} {f : V} :
    insertTable (x.split methods) (x.kind f) n f=x.split (Function.update methods n (some f)) ↔
      ∀p, methods n=some p → x.kind p=x.kind f := by
  have hnew : Function.update methods n (some f) n=some f := Function.update_self n (some f) methods
  constructor
  · intro h p hp
    by_contra hk
    have hn := congrFun (congrFun h (x.kind p)) n
    unfold insertTable at hn
    rw [Function.update_of_ne hk,split_kind hp,split_other hnew fun h => hk h.symm] at hn
    cases hn
  · intro h
    funext k y
    unfold insertTable
    by_cases hk : k=x.kind f
    · subst hk
      rw [Function.update_self]
      by_cases hy : y=n
      · subst hy
        rw [Function.update_self,split_kind hnew]
      · rw [Function.update_of_ne hy]
        unfold Machine.split
        rw [Function.update_of_ne hy]
    · rw [Function.update_of_ne hk]
      by_cases hy : y=n
      · subst hy
        rw [split_other hnew fun h => hk h.symm]
        cases hm : methods y with
        | none =>
          unfold Machine.split
          rw [hm]
          rfl
        | some p => exact split_other hm fun hp => hk (hp.symm.trans (h p hm))
      · unfold Machine.split
        rw [Function.update_of_ne hy]

/-- A `def` that the namespace keeps apart from its names. -/
theorem table_decides {n : String} {f : V} {tables : Kind → Names V} {t t' : Scopes V}
    (hown : t'.own n=none) :
    Decides x saved (t'.outer=saved ∧
        tables=x.split (Function.update t'.methods n (some f)) ∧
          x.Kept saved nothing t.own t'.own saved)
      (.ok (Build.harvested x saved ⟨t.own,tables,t'.shared⟩))
      (.ok (),t'.bindMethod n f) := by
  have hbound : (t'.bindMethod n f).own=Names.above nothing t'.own := by
    rw [nothing_above]
    exact update_none hown
  exact decides_harvest (t := t'.bindMethod n f) (nothing_above t.own).symm rfl hbound

/-- A `def` whose decorator is called binds its name like an assignment. -/
theorem custom_decides {n : String} {w : V} {tables : Kind → Names V} {t t' : Scopes V}
    (htables : tables=x.split t'.methods) (hnone : t'.methods n=none) :
    Decides x saved (t'.outer=saved ∧ ∀y, y≠n → t'.own y=t.own y)
      (.ok ⟨Function.update t.own n (some w),tables,t'.shared⟩) (.ok (),t'.bind n w) := by
  have hsame : tables=x.split (t'.bind n w).methods :=
    htables.trans (congrArg x.split (update_none hnone).symm)
  have hiff : Function.update t.own n (some w)=Function.update t'.own n (some w) ↔
      ∀y, y≠n → t'.own y=t.own y := by
    constructor
    · intro h y hy
      have hat := congrFun h y
      rw [Function.update_of_ne hy,Function.update_of_ne hy] at hat
      exact hat.symm
    · intro h
      funext y
      by_cases hy : y=n
      · subst hy
        rw [Function.update_self,Function.update_self]
      · rw [Function.update_of_ne hy,Function.update_of_ne hy,h y hy]
  constructor
  · rintro ⟨houter,hkeep⟩
    have hattr := hiff.mpr hkeep
    refine ⟨⟨hattr,hsame,?_⟩,houter⟩
    change Names.above (Function.update t.own n (some w)) t'.shared=_
    rw [hattr]
    apply above_above
    intro y hy
    by_cases heq : y=n
    · subst heq
      rw [Function.update_self]
      rfl
    · rw [Function.update_of_ne heq]
      exact hy
  · intro h
    obtain ⟨ha,-,houter⟩ := agrees_ok.mp h
    exact ⟨houter,hiff.mp ha⟩

theorem def_decides {n : String} {shape : Shape V E} {make : Code V E V} (hattrs : b.attrs=t.own)
    (htables : b.tables=x.split t.methods) (hvars : b.vars=t.shared)
    (hp : x.PlainDef n shape make t) :
    Decides x saved (x.DefOk saved n shape make t) (evalClassDef x saved n shape make b)
      (pyDef x n shape make t) := by
  unfold Machine.PlainDef at hp
  unfold Machine.DefOk evalClassDef pyDef
  rw [htables,hvars,hattrs]
  generalize hs : shape.resolve (fun p => (x.split t.methods .property p).isSome)=s at hp ⊢
  cases s with
  | builtin name =>
    obtain ⟨hsep,-,hname⟩ := hp
    obtain ⟨hshared,hmeth⟩ := hsep.runShared_eq
    simp only [hshared]
    rcases hrun : make.runApart t with ⟨r,t'⟩
    rw [hrun] at hmeth
    cases r with
    | error e => exact decides_error
    | ok f =>
      refine (table_decides (hname f t' hrun)).of_iff ?_
      rw [hmeth]
      exact and_congr_right fun _ => and_congr_left fun _ => insertTable_split.symm
  | accessor prop deleter decorator =>
    obtain ⟨hprop,hsep,hname⟩ := hp
    obtain ⟨hshared,hmeth⟩ := hsep.runShared_eq
    subst hprop
    obtain ⟨p,hp⟩ := Option.isSome_iff_exists.mp (resolve_accessor hs)
    simp only [hshared,hp]
    rcases hrun : make.runApart t with ⟨r,t'⟩
    rw [hrun] at hmeth
    cases r with
    | error e => exact decides_error
    | ok f =>
      refine (table_decides (hname f t' hrun)).of_iff ?_
      obtain ⟨hm,hkind⟩ := split_some hp
      have hacc : x.kind (x.accessor deleter p f)=.property := x.accessor_kind hkind
      have htable := (insertTable_split (x := x) (n := prop) (f := x.accessor deleter p f)).mpr
        fun q hq => (congrArg x.kind (Option.some.inj (hq.symm.trans hm))).trans
          (hkind.trans hacc.symm)
      rw [hmeth,← htable,hacc]
      exact and_congr_right fun _ => (and_iff_right rfl).symm
  | custom decorator =>
    obtain ⟨hsep,hnone,horder⟩ := hp
    obtain ⟨hshared,hmeth⟩ := hsep.runShared_eq
    simp only [hshared,horder]
    rcases hrun : (decorate x make decorator).runApart t with ⟨r,t'⟩
    rw [hrun] at hmeth
    cases r with
    | error e => exact decides_error
    | ok w => exact custom_decides (congrArg x.split hmeth.symm) ((congrFun hmeth n).trans hnone)
  | stack decorators =>
    obtain ⟨hshared,-⟩ := Code.Separate.runShared_eq hp
    simp only [hshared]
    rcases hq : (pyDecorate x make decorators).runApart t with ⟨q,t'⟩
    have hrefused : ∀e, Decides x saved (q=.error e ∧ t'.outer=saved) (.error e)
        (bindEnd (fun w => Scopes.bind n w) (q,t')) := by
      intro e
      cases q with
      | error e' =>
        refine decides_refused.of_iff (and_congr_left fun _ => ?_)
        exact ⟨fun h => congrArg Except.error (Except.error.inj h),
          fun h => congrArg Except.error (Except.error.inj h)⟩
      | ok w =>
        constructor
        · rintro ⟨h,-⟩
          cases h
        · intro h
          cases congrArg Prod.fst h
    rcases make.runApart t with ⟨r,t''⟩
    cases r with
    | error e => exact hrefused e
    | ok f => exact hrefused (x.unsupported n)

theorem block_decides {c : Code V E Unit} (hattrs : b.attrs=t.own)
    (htables : b.tables=x.split t.methods) (hvars : b.vars=t.shared)
    (hp : x.PlainStmt (.block c) t) :
    Decides x saved (x.StepOk saved (.block c) t)
      (match c.runShared b.vars with
        | (.error e,_) => .error e
        | (.ok (),u) => .ok (Build.harvested x saved ⟨b.attrs,b.tables,u⟩))
      (pyStmt x (.block c) t) := by
  obtain ⟨hshared,hmeth⟩ := Code.Separate.runShared_eq hp
  change Decides x saved _ _ (c.runApart t)
  rw [hvars,hattrs,htables]
  unfold Machine.StepOk
  simp only [hshared]
  rcases hrun : c.runApart t with ⟨r,t'⟩
  rw [hrun] at hmeth
  cases r with
  | error e => exact decides_error
  | ok u =>
    exact decides_found (nothing_above t.own).symm rfl (nothing_above t'.own).symm
      (congrArg x.split hmeth.symm)

theorem other_decides {c : Code V E Unit} (hattrs : b.attrs=t.own)
    (htables : b.tables=x.split t.methods) (hvars : b.vars=t.shared) (ho : t.outer=saved) :
    Decides x saved (x.StepOk saved (.other c) t) (.ok (b.harvested x saved))
      (pyStmt x (.other c) t) := by
  change Decides x saved _ _ (c.runApart t)
  have hharvest : (b.harvested x saved).attrs=harvest x saved t.shared t.own := by
    unfold Build.harvested
    rw [hvars,hattrs]
  unfold Machine.StepOk
  rcases hrun : c.runApart t with ⟨r,t'⟩
  simp only [hrun]
  cases r with
  | error e =>
    constructor
    · rintro ⟨h,-⟩
      cases h
    · intro h
      exact absurd h agrees_mixed.1
  | ok u =>
    constructor
    · rintro ⟨-,hm,houter,hown⟩
      refine ⟨⟨hharvest.trans hown.symm,htables.trans hm.symm,?_⟩,houter⟩
      have hsource : (b.harvested x saved).vars=t.own.above t.outer := hvars
      rw [hharvest,hsource]
      have hfinal : t'.shared=(harvest x saved t.shared t.own).above t.outer := by
        change t'.own.above t'.outer=_
        rw [hown,houter,ho]
      rw [hfinal]
      apply above_above
      intro n hn
      exact harvest_isSome hn
    · intro h
      obtain ⟨ha,hm,houter⟩ := agrees_ok.mp h
      exact ⟨rfl,hm.symm.trans htables,houter,ha.symm.trans hharvest⟩

theorem step_decides (hx : x.Lawful) {s : Stmt V E} (hc : Corresponds x b t) (ho : t.outer=saved)
    (hp : x.PlainStmt s t) :
    Decides x saved (x.StepOk saved s t) (evalClassStmt x saved s b) (pyStmt x s t) := by
  have hvars : b.seeded.vars=t.shared := hc.vars
  cases s with
  | assign value targets => exact assign_decides hx (b := b.seeded) hc.attrs hc.tables hvars hp
  | annAssign n value annotation =>
    exact annAssign_decides (b := b.seeded) hc.attrs hc.tables hvars hp
  | functionDef n shape make => exact def_decides (b := b.seeded) hc.attrs hc.tables hvars hp
  | block c => exact block_decides (b := b.seeded) hc.attrs hc.tables hvars hp
  | other c => exact other_decides (b := b.seeded) hc.attrs hc.tables hvars ho

end Steps

section Bodies

variable {V E : Type} {x : Machine V E} {saved : Names V} {ss : List (Stmt V E)}

theorem evalClassStmts_error {s : Stmt V E} {b : Build V} {e : E}
    (h : evalClassStmt x saved s b=.error e) : evalClassStmts x saved (s::ss) b=.error e := by
  rw [evalClassStmts,h]

theorem evalClassStmts_ok {s : Stmt V E} {b b' : Build V} (h : evalClassStmt x saved s b=.ok b') :
    evalClassStmts x saved (s::ss) b=evalClassStmts x saved ss b' := by
  rw [evalClassStmts,h]

theorem pyStmts_error {s : Stmt V E} {t t' : Scopes V} {e : E} (h : pyStmt x s t=(.error e,t')) :
    pyStmts x (s::ss) t=(.error e,t') := by
  rw [pyStmts,h]

theorem pyStmts_ok {s : Stmt V E} {t t' : Scopes V} (h : pyStmt x s t=(.ok (),t')) :
    pyStmts x (s::ss) t=pyStmts x ss t' := by
  rw [pyStmts,h]

/-- A statement that ends alike leaves the rest of the body to decide. -/
theorem agrees_cons {s : Stmt V E} {b : Build V} {t : Scopes V}
    (h : StepAgrees x saved (evalClassStmt x saved s b) (pyStmt x s t))
    (hrest : ∀b' t', pyStmt x s t=(.ok (),t') → Corresponds x b' t' → t'.outer=saved →
      Agrees x saved (evalClassStmts x saved ss b') (pyStmts x ss t')) :
    Agrees x saved (evalClassStmts x saved (s::ss) b) (pyStmts x (s::ss) t) := by
  rcases hq : pyStmt x s t with ⟨q,t'⟩
  rw [hq] at h
  cases hr : evalClassStmt x saved s b with
  | error e =>
    rw [hr] at h
    cases q with
    | error e' =>
      rw [evalClassStmts_error hr,pyStmts_error hq]
      exact agrees_error.mpr h
    | ok u => exact h.elim
  | ok b' =>
    rw [hr] at h
    cases q with
    | error e' => exact h.elim
    | ok u =>
      obtain ⟨hc,ho⟩ := h
      rw [evalClassStmts_ok hr,pyStmts_ok hq]
      exact hrest b' t' hq hc ho

/-- The statements of a body are in order when they end alike, however far the body goes. -/
theorem agrees_iff (hx : x.Lawful) : ∀{ss : List (Stmt V E)} {b : Build V}
    {t : Scopes V}, Corresponds x b t → t.outer=saved → x.PlainBody ss t →
      ((∀k, Agrees x saved (evalClassStmts x saved (ss.take k) b) (pyStmts x (ss.take k) t)) ↔
        x.BodyOk saved ss t)
  | [],b,t,hc,ho,_ => by
    refine iff_of_true ?_ trivial
    intro k
    rw [List.take_nil]
    exact agrees_ok.mpr ⟨hc.attrs,hc.tables,ho⟩
  | s::ss,b,t,hc,ho,⟨hs,hss⟩ => by
    have hstep := step_decides hx hc ho hs
    constructor
    · intro h
      have hone := h 1
      rw [List.take_succ_cons,List.take_zero] at hone
      have hgood : x.StepOk saved s t := by
        apply hstep.good
        rcases hq : pyStmt x s t with ⟨q,t'⟩
        cases hr : evalClassStmt x saved s b with
        | error e =>
          rw [evalClassStmts_error hr] at hone
          cases q with
          | error e' =>
            rw [pyStmts_error hq] at hone
            exact hone
          | ok u =>
            rw [pyStmts_ok hq] at hone
            exact hone
        | ok b' =>
          rw [evalClassStmts_ok hr] at hone
          cases q with
          | error e' =>
            rw [pyStmts_error hq] at hone
            exact hone
          | ok u =>
            rw [pyStmts_ok hq] at hone
            exact hone
      refine ⟨hgood,?_⟩
      intro t' hq
      have hagree := hstep.agrees hgood
      rw [hq] at hagree
      cases hr : evalClassStmt x saved s b with
      | error e =>
        rw [hr] at hagree
        exact hagree.elim
      | ok b' =>
        rw [hr] at hagree
        obtain ⟨hc',ho'⟩ := hagree
        apply (agrees_iff hx hc' ho' (hss t' hq)).mp
        intro k
        have hk := h (k+1)
        rw [List.take_succ_cons,evalClassStmts_ok hr,pyStmts_ok hq] at hk
        exact hk
    · rintro ⟨hgood,hrest⟩ k
      cases k with
      | zero =>
        rw [List.take_zero]
        exact agrees_ok.mpr ⟨hc.attrs,hc.tables,ho⟩
      | succ k =>
        rw [List.take_succ_cons]
        apply agrees_cons (hstep.agrees hgood)
        intro b' t' hq hc' ho'
        exact (agrees_iff hx hc' ho' (hss t' hq)).mpr (hrest t' hq) k

/-- A class body and each of its beginnings bind what the language reference says, and leave the
enclosing scope as it says, exactly when every statement reached is in order. -/
theorem class_body_exact (hx : x.Lawful) {prepared outer : Names V} {body : List (Stmt V E)}
    (hp : x.PlainBody body ⟨prepared,fun _ => none,outer⟩) :
    (∀k, evalClassBody x prepared (body.take k) outer=
      pyClassBody x prepared (body.take k) outer) ↔
        x.BodyOk outer body ⟨prepared,fun _ => none,outer⟩ := by
  have hstart : Corresponds x ⟨prepared,fun _ _ => none,outer⟩
      (⟨prepared,fun _ => none,outer⟩ : Scopes V) := ⟨rfl,rfl,rfl⟩
  exact agrees_iff hx hstart rfl hp

end Bodies

section Sample

inductive Object where
  | int (n : Int)
  | function (name : String)
  | property (name : String)
deriving DecidableEq

/-- Numbers are equal by value, functions never are. -/
def plainMachine : Machine Object String where
  same
    | .int m,.int n => m=n
    | _,_ => false
  items _ := .error "TypeError"
  wrongArity _ _ := "ValueError"
  unpack _ _ _ := .fail "TypeError"
  kind
    | .property _ => .property
    | _ => .method
  accessor
    | _,.property n,_ => .property (n++" with an accessor")
    | _,_,f => f
  accessor_kind {d p f} h := by
    cases p with
    | property n => rfl
    | int n => cases h
    | function n => cases h
  call f v := .done f
  unsupported _ := "InterpreterError"

theorem plainMachine_lawful : plainMachine.Lawful := by
  intro v vs n h
  cases h

def assigns (n : String) (v : Object) : Stmt Object String := .assign (.done v) [.name n]

def counting : Names Object := fun n => if n="counter" then some (.int 0) else none

/-- `x = 1`, a property `p` with its setter, and a loop that leaves `total`. -/
def accounts : List (Stmt Object String) :=
  [assigns "x" (.int 1),
    .functionDef "p" (.builtin (some "property")) (.done (.property "p")),
    .functionDef "p" (.accessor "p" false (.done (.function "setter"))) (.done (.function "p")),
    .block (.read "x" fun _ => .bind "total" (.int 3) (.done ()))]

theorem counting_stray {n : String} {w : Object} (h : counting n=some w) :
    plainMachine.differs (counting n) w=false := by
  have hn : n="counter" := by
    by_contra hn
    unfold counting at h
    rw [if_neg hn] at h
    cases h
  subst hn
  cases h
  rfl

/-- A statement that binds names of no one is in order. -/
theorem kept_fresh {bound own : Names Object}
    (hb : ∀n v, bound n=some v → own.above counting n=none) :
    plainMachine.Kept counting bound own own counting where
  rebound {n v w} h hw := by
    rw [hb n v h] at hw
    cases hw
  found _ hw := Or.inl hw
  removed _ hn := hn
  stray _ _ ho := counting_stray ho

theorem class_body_exact_counting :
    (fun k => evalClassBody plainMachine (fun _ => none) (accounts.take k) counting)=
      fun k => pyClassBody plainMachine (fun _ => none) (accounts.take k) counting := by
  refine funext ((class_body_exact plainMachine_lawful ?_).mpr ?_)
  · refine ⟨⟨trivial,?_⟩,?_⟩
    · intro v t' _ u hu
      rw [List.mem_singleton.mp hu,Machine.PlainTarget]
    · intro t' h
      cases h
      refine ⟨⟨trivial,?_,?_⟩,?_⟩
      · intro d hd
        cases hd
        rfl
      · intro f t' h
        cases h
        rfl
      · intro t' h
        cases h
        refine ⟨⟨rfl,trivial,?_⟩,?_⟩
        · intro f t' h
          cases h
          rfl
        · intro t' h
          cases h
          exact ⟨⟨rfl,rfl,trivial⟩,fun _ _ => trivial⟩
  · have hfresh : ∀n v, Function.update nothing "x" (some (Object.int 1)) n=some v →
        Names.above nothing counting n=none := by
      intro n v h
      by_cases hn : n="x"
      · subst hn
        rfl
      · rw [Function.update_of_ne hn] at h
        cases h
    refine ⟨⟨rfl,kept_fresh hfresh⟩,?_⟩
    intro t' h
    cases h
    have hnothing : ∀{own : Names Object}, plainMachine.Kept counting nothing own own counting :=
      kept_fresh fun _ _ h => nomatch h
    refine ⟨⟨rfl,?_,hnothing⟩,?_⟩
    · intro p h
      cases h
    intro t' h
    cases h
    refine ⟨⟨rfl,hnothing⟩,?_⟩
    intro t' h
    cases h
    refine ⟨⟨rfl,?_⟩,fun _ _ => trivial⟩
    refine ⟨fun h => (nomatch h),?_,?_,fun _ _ ho => counting_stray ho⟩
    · intro n w _ hw
      by_cases hn : n="total"
      · subst hn
        exact Or.inr ⟨rfl,rfl⟩
      · exact Or.inl ((Function.update_of_ne hn _ _).symm.trans hw)
    · intro n _ hw
      by_cases hn : n="total"
      · subst hn
        rfl
      · exact (Function.update_of_ne hn _ _).symm.trans hw

/-- A body that calls a function, and the function counts its calls in a global. -/
def calls : Stmt Object String :=
  .assign (.readOuter "counter" fun _ => .writeOuter "counter" (some (.int 1)) (.done (.int 7)))
    [.name "y"]

def helping : Names Object := fun n => if n="helper" then some (.function "helper") else counting n

/-- A property and then a method of one name. -/
def twice : List (Stmt Object String) :=
  [.functionDef "p" (.builtin (some "property")) (.done (.property "p")),
    .functionDef "p" (.builtin none) (.done (.function "p"))]

/-- A second assignment is lost, a function of the enclosing scope becomes an attribute, a global
counted up in a call of the body becomes an attribute instead, and a property stays under a method
of its name. -/
theorem class_body_misbinds :
    ((evalClassBody plainMachine (fun _ => none) [assigns "x" (.int 1),assigns "x" (.int 2)]
      counting).1.map fun r => r.1 "x")=.ok (some (.int 1)) ∧
    ((pyClassBody plainMachine (fun _ => none) [assigns "x" (.int 1),assigns "x" (.int 2)]
      counting).1.map fun r => r.1 "x")=.ok (some (.int 2)) ∧
    ((evalClassBody plainMachine (fun _ => none) [assigns "x" (.int 1)] helping).1.map
      fun r => r.1 "helper")=.ok (some (.function "helper")) ∧
    ((pyClassBody plainMachine (fun _ => none) [assigns "x" (.int 1)] helping).1.map
      fun r => r.1 "helper")=.ok none ∧
    (evalClassBody plainMachine (fun _ => none) [calls] counting).2 "counter"=some (.int 0) ∧
    ((evalClassBody plainMachine (fun _ => none) [calls] counting).1.map
      fun r => r.1 "counter")=.ok (some (.int 1)) ∧
    (pyClassBody plainMachine (fun _ => none) [calls] counting).2 "counter"=some (.int 1) ∧
    ((evalClassBody plainMachine (fun _ => none) twice counting).1.map
      fun r => r.2 .property "p")=.ok (some (.property "p")) ∧
    ((pyClassBody plainMachine (fun _ => none) twice counting).1.map
      fun r => r.2 .property "p")=.ok none := by
  refine ⟨?_,?_,?_,?_,?_,?_,?_,?_,?_⟩ <;> rfl

end Sample

end InterpretThis.ClassBody
