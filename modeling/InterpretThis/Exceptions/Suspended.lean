import InterpretThis.Exceptions.With

namespace InterpretThis.Exceptions

/-- How a walk through the body of a suspended `with` ends; a yield tells the statement it is in. -/
inductive TryStep (D V : Type) where
  | yielded (index : Nat) (v : V)
  | completed
  | errored (e : EvalError D V)

/-- The record of a suspended `with` statement. -/
structure WithResume (V : Type) where
  index : Nat
  managers : List V

/-- How a run of the statement ends: it hands a value out, with the record that it has pushed, or it
is over. -/
inductive WithStep (D V : Type) where
  | yielded (v : V) (record : Option (WithResume V))
  | ended (r : Except (EvalError D V) Unit)

section Stepping

variable {D V W : Type}

/-- The statements from one on. What a statement does includes the resume flag. -/
def walk : List (W → Except (EvalError D V) V×W) → Nat → W → TryStep D V×W
  | [],_,w => (.completed,w)
  | s::stmts,i,w =>
    match s w with
    | (.ok _,w) => walk stmts (i+1) w
    | (.error (.signal (.yield v)),w) => (.yielded i v,w)
    | (.error e,w) => (.errored e,w)

/-- `step_with_body`. -/
def stepWithBody (stmts : List (W → Except (EvalError D V) V×W)) (start : Nat) (w : W) :
    TryStep D V×W :=
  walk (stmts.drop start) start w

variable (O : Protocol D V W) (items : List (WithItem D V W))
  (stmts : List (W → Except (EvalError D V) V×W))

/-- What follows the walk through the body. -/
def endBlock (managers : List V) (p : TryStep D V×W) : WithStep D V×W×List (Event D V) :=
  match p with
  | (.yielded i v,w) => (.yielded v (some ⟨i,managers⟩),w,[])
  | (.completed,w) =>
    let (r,w,l) := exitContextManagers O managers none w
    (.ended r,w,l)
  | (.errored e,w) =>
    let (r,w,l) := exitContextManagers O managers (some e) w
    (.ended r,w,l)

/-- `run_with_suspendable_inner`, with the record that it pops: the one it pushed when it was left,
as the records are popped in the reverse order. -/
def runWithSuspendable (resume : Option (WithResume V)) (w : W) :
    WithStep D V×W×List (Event D V) :=
  match resume with
  | some ⟨i,managers⟩ => endBlock O managers (stepWithBody stmts i w)
  | none =>
    match enterAll O items w with
    | (.error (.signal (.yield v)),w,cms) => (.yielded v none,w,cms.map .entered)
    | (.error e,w,cms) => (.ended (.error e),w,cms.map .entered)
    | (.ok (),w,cms) =>
      let (r,w,l) := endBlock O cms (stepWithBody stmts 0 w)
      (r,w,cms.map .entered++l)

/-- The statement from its first run on. The body of the generator is entered again as often as the
list says, each time after what has happened in between. There is no result as long as the statement
is suspended. -/
def withLife : List (W → W) → Option (WithResume V) → W →
    Option (Except (EvalError D V) Unit)×W×List (Event D V)
  | fs,resume,w =>
    match runWithSuspendable O items stmts resume w with
    | (.ended r,w,l) => (some r,w,l)
    | (.yielded _ record,w,l) =>
      match fs with
      | [] => (none,w,l)
      | f::fs =>
        let (r,w,l') := withLife fs record (f w)
        (r,w,l++l')

end Stepping

section Reference

variable {D V W : Type} (O : Protocol D V W) (stmts : List (W → Except (EvalError D V) V×W))

/-- The body alone, which goes on at the statement that has yielded. -/
def bodyLife : List (W → W) → Nat → W → Option (Except (EvalError D V) Unit)×W
  | fs,i,w =>
    match stepWithBody stmts i w with
    | (.completed,w) => (some (.ok ()),w)
    | (.errored e,w) => (some (.error e),w)
    | (.yielded j _,w) =>
      match fs with
      | [] => (none,w)
      | f::fs => bodyLife fs j (f w)

/-- What is left to do before the body: an item, or the assignment for a manager that has been
entered. -/
inductive Todo (D V W : Type) where
  | item (it : WithItem D V W)
  | assign (it : WithItem D V W) (v : V)

/-- The items until one of them does not complete, with the managers that were entered and with what
is left to do. -/
def enterEach : List (Todo D V W) → W → Except (EvalError D V) Unit×W×List V×List (Todo D V W)
  | [],w => (.ok (),w,[],[])
  | .assign it v::todo,w =>
    match it.assign v w with
    | (.error e,w) => (.error e,w,[],.assign it v::todo)
    | (.ok (),w) => enterEach todo w
  | .item it::todo,w =>
    match it.contextExpr w with
    | (.error e,w) => (.error e,w,[],.item it::todo)
    | (.ok cm,w) =>
      match O.resolveProxy cm w with
      | (.error e,w) => (.error e,w,[],.item it::todo)
      | (.ok cm,w) =>
        match O.enter cm w with
        | (.error e,w) => (.error e,w,[],.item it::todo)
        | (.ok v,w) =>
          match it.assign v w with
          | (.error e,w) => (.error e,w,[cm],.assign it v::todo)
          | (.ok (),w) =>
            let (r,w,cms,rest) := enterEach todo w
            (r,w,cm::cms,rest)

/-- How the managers are left at the end. A statement that is still suspended is not left; if the
generator is closed there, with the exception `closed`, that is raised at the yield. -/
def dueExits (closed : Option (ExceptionValue D)) (cms : List V)
    (p : Option (Except (EvalError D V) Unit)×W) :
    Option (Except (EvalError D V) Unit)×W×List (Event D V) :=
  match p,closed with
  | (some r,w),_ => (some (leaveAll O cms.reverse r w).1,(leaveAll O cms.reverse r w).2)
  | (none,w),none => (none,w,[])
  | (none,w),some x => (none,(leaveAll O cms.reverse (.error (.exception x)) w).2)

/-- The meaning of a `with` statement in a generator: what has yielded goes on, and every manager
that was entered is left at the end, the last one first. -/
def lifeSpec (closed : Option (ExceptionValue D)) : List (W → W) → List V → List (Todo D V W) → W →
    Option (Except (EvalError D V) Unit)×W×List (Event D V)
  | fs,entered,todo,w =>
    match enterEach O todo w with
    | (.ok (),w,cms,_) =>
      let (r,w,l) := dueExits O closed (entered++cms) (bodyLife stmts fs 0 w)
      (r,w,cms.map .entered++l)
    | (.error (.signal (.yield _)),w,cms,rest) =>
      match fs with
      | [] =>
        let (r,w,l) := dueExits O closed (entered++cms) (none,w)
        (r,w,cms.map .entered++l)
      | f::fs =>
        let (r,w,l) := lifeSpec closed fs (entered++cms) rest (f w)
        (r,w,cms.map .entered++l)
    | (.error e,w,cms,_) =>
      let (r,w,l) := dueExits O closed (entered++cms) (some (.error e),w)
      (r,w,cms.map .entered++l)

end Reference

section Lives

variable {D V W : Type} (O : Protocol D V W) (items : List (WithItem D V W))
  (stmts : List (W → Except (EvalError D V) V×W))

/-- The header yields only as long as no manager has been entered; it is then evaluated anew. -/
def HeaderCalm : List (W → W) → W → Prop
  | fs,w =>
    match enterAll O items w with
    | (.error (.signal (.yield _)),w,cms) => cms=[] ∧
      match fs with
      | [] => True
      | f::fs => HeaderCalm fs (f w)
    | _ => True

/-- The exits agree, and a generator that is closed while the body is suspended is closed by an
exception in the body. -/
def ExitsOk (closed : Option (ExceptionValue D)) (cms : List V)
    (p : Option (Except (EvalError D V) Unit)×W) : Prop :=
  match p with
  | (some r,w) => ExitsAgree O (isSignal r) cms.reverse (inFlight r) w
  | (none,_) => closed=none ∨ cms=[]

/-- No entry fails once a manager has been entered, and the exits are right. -/
def LifeOk (closed : Option (ExceptionValue D)) : List (W → W) → W → Prop
  | fs,w =>
    match enterAll O items w with
    | (.ok (),w,cms) => ExitsOk O closed cms (bodyLife stmts fs 0 w)
    | (.error (.signal (.yield _)),w,_) =>
      match fs with
      | [] => True
      | f::fs => LifeOk closed fs (f w)
    | (.error _,_,cms) => cms=[]

variable {O items stmts}

/-- The exits after a body that has ended. -/
def exitsOf (O : Protocol D V W) (cms : List V) (p : Option (Except (EvalError D V) Unit)×W) :
    Option (Except (EvalError D V) Unit)×W×List (Event D V) :=
  match p with
  | (some r,w) =>
    let (r,w,l) := exitContextManagers O cms (errorOf r) w
    (some r,w,l)
  | (none,w) => (none,w,[])

theorem withLife_record (fs : List (W → W)) (i : Nat) (cms : List V) (w : W) :
    withLife O items stmts fs (some ⟨i,cms⟩) w=exitsOf O cms (bodyLife stmts fs i w) := by
  induction fs generalizing i w with
  | nil =>
    unfold withLife bodyLife runWithSuspendable
    dsimp only
    rcases stepWithBody stmts i w with ⟨r,w⟩
    cases r <;> rfl
  | cons f fs ih =>
    unfold withLife bodyLife runWithSuspendable
    dsimp only
    rcases stepWithBody stmts i w with ⟨r,w⟩
    cases r with
    | yielded j v => exact ih j (f w)
    | _ => rfl

/-- Once the managers have been entered the statement goes on as if it were resumed at the start of
its body. -/
theorem withLife_entered (fs : List (W → W)) {w w' : W} {cms : List V}
    (h : enterAll O items w=(.ok (),w',cms)) : withLife O items stmts fs none w=
      let p := exitsOf O cms (bodyLife stmts fs 0 w')
      (p.1,p.2.1,cms.map .entered++p.2.2) := by
  have recorded : withLife O items stmts fs (some ⟨0,cms⟩) w'=
      exitsOf O cms (bodyLife stmts fs 0 w') := withLife_record fs 0 cms w'
  rw [← recorded]
  unfold withLife runWithSuspendable
  rw [h]
  dsimp only
  rcases endBlock O cms (stepWithBody stmts 0 w') with ⟨r,w,l⟩
  cases r with
  | ended r => rfl
  | yielded v record =>
    cases fs with
    | nil => rfl
    | cons f fs => simp only [List.append_assoc]

theorem enterAll_eq (items : List (WithItem D V W)) (w : W) : enterAll O items w=
    let p := enterEach O (items.map .item) w
    (p.1,p.2.1,p.2.2.1) := by
  induction items generalizing w with
  | nil => rfl
  | cons it items ih =>
    simp only [List.map_cons]
    unfold enterAll enterEach
    rcases it.contextExpr w with ⟨r,w⟩
    cases r with
    | error e => rfl
    | ok cm =>
      dsimp only
      rcases O.resolveProxy cm w with ⟨r,w⟩
      cases r with
      | error e => rfl
      | ok cm =>
        dsimp only
        rcases O.enter cm w with ⟨r,w⟩
        cases r with
        | error e => rfl
        | ok v =>
          dsimp only
          rcases it.assign v w with ⟨r,w⟩
          cases r with
          | error e => rfl
          | ok u =>
            dsimp only
            rw [ih]

/-- What fails before a manager has been entered is the first item. -/
theorem enterEach_rest {items : List (WithItem D V W)} {w w' : W} {e : EvalError D V}
    {rest : List (Todo D V W)} (h : enterEach O (items.map .item) w=(.error e,w',[],rest)) :
    rest=items.map .item := by
  cases items with
  | nil => cases h
  | cons it items =>
    rw [List.map_cons] at h ⊢
    unfold enterEach at h
    rcases hc : it.contextExpr w with ⟨r,w₁⟩
    rw [hc] at h
    cases r with
    | error e =>
      cases h
      rfl
    | ok cm =>
      dsimp only at h
      rcases hp : O.resolveProxy cm w₁ with ⟨r,w₂⟩
      rw [hp] at h
      cases r with
      | error e =>
        cases h
        rfl
      | ok cm =>
        dsimp only at h
        rcases hn : O.enter cm w₂ with ⟨r,w₃⟩
        rw [hn] at h
        cases r with
        | error e =>
          cases h
          rfl
        | ok v =>
          dsimp only at h
          rcases ha : it.assign v w₃ with ⟨r,w₄⟩
          rw [ha] at h
          cases r with
          | error e => cases h
          | ok u =>
            have hcms : cm::(enterEach O (items.map .item) w₄).2.2.1=[] :=
              congrArg (fun p => p.2.2.1) h
            cases hcms

theorem leaveAll_events_nil {cms : List V} {r : Except (EvalError D V) Unit} {w : W}
    (h : (leaveAll O cms.reverse r w).2.2=[]) : cms=[] := by
  have hlen := congrArg List.length h
  rw [length_leaveAll,List.length_reverse] at hlen
  exact List.length_eq_zero_iff.mp hlen

/-- The statement once its managers have been entered. -/
theorem exitsOf_iff (closed : Option (ExceptionValue D)) (cms : List V)
    (p : Option (Except (EvalError D V) Unit)×W) :
    exitsOf O cms p=dueExits O closed cms p ↔ ExitsOk O closed cms p := by
  obtain ⟨o,w⟩ := p
  cases o with
  | some r =>
    have hexits := exits_after_iff O cms r w
    rw [Prod.ext_iff] at hexits
    simpa [exitsOf,dueExits,ExitsOk,Prod.ext_iff] using hexits
  | none =>
    cases closed with
    | none => exact iff_of_true rfl (.inl rfl)
    | some x =>
      refine ⟨fun h => .inr (leaveAll_events_nil (O := O) (w := w) (r := .error (.exception x)) ?_),
        fun h => ?_⟩
      · exact (congrArg (fun p => p.2.2) h).symm
      · have hcms : cms=[] := h.resolve_left (fun h => (nomatch h))
        subst hcms
        rfl

theorem events_iff {l : List (Event D V)}
    {p q : Option (Except (EvalError D V) Unit)×W×List (Event D V)} :
    (p.1,p.2.1,l++p.2.2)=(q.1,q.2.1,l++q.2.2) ↔ p=q := by
  simp [Prod.ext_iff]

/-- A failing entry: nothing is left. -/
theorem entry_fails_iff (closed : Option (ExceptionValue D)) (cms : List V) (e : EvalError D V)
    (w : W) : (some (.error e),w,cms.map .entered)=
      (let p := dueExits O closed cms (some (.error e),w)
      (p.1,p.2.1,cms.map Event.entered++p.2.2)) ↔ cms=[] := by
  constructor
  · intro h
    have hlen := congrArg (fun p => p.2.2.length) h
    simp only [dueExits,List.length_map,List.length_append,length_leaveAll,
      List.length_reverse] at hlen
    exact List.length_eq_zero_iff.mp (by omega)
  · rintro rfl
    cases closed <;> rfl

section Headers

variable {fs : List (W → W)} {w w' : W} {cms : List V} {closed : Option (ExceptionValue D)}

theorem entered_life_iff (h : enterAll O items w=(.ok (),w',cms)) :
    withLife O items stmts fs none w=lifeSpec O stmts closed fs [] (items.map .item) w ↔
      LifeOk O items stmts closed fs w := by
  rw [withLife_entered fs h]
  unfold lifeSpec LifeOk
  rw [h]
  rw [enterAll_eq] at h
  rcases henter : enterEach O (items.map .item) w with ⟨r,w₁,cms₁,rest⟩
  rw [henter] at h
  cases h
  dsimp only
  rw [List.nil_append,events_iff]
  exact exitsOf_iff closed cms₁ (bodyLife stmts fs 0 w₁)

theorem failed_life_iff {e : EvalError D V} (h : enterAll O items w=(.error e,w',cms))
    (he : ∀v, e≠.signal (.yield v)) :
    withLife O items stmts fs none w=lifeSpec O stmts closed fs [] (items.map .item) w ↔
      LifeOk O items stmts closed fs w := by
  have hfail := entry_fails_iff (O := O) closed cms e w'
  unfold withLife lifeSpec LifeOk runWithSuspendable
  dsimp only
  rw [h]
  rw [enterAll_eq] at h
  rcases henter : enterEach O (items.map .item) w with ⟨r,w₁,cms₁,rest⟩
  rw [henter] at h
  cases h
  cases e with
  | signal sig =>
    cases sig with
    | yield v => exact absurd rfl (he v)
    | _ => exact hfail
  | _ => exact hfail

end Headers

/-- The calls and the outcome of a suspended statement, as long as its header yields only before a
manager has been entered. -/
theorem withLife_iff (closed : Option (ExceptionValue D)) (fs : List (W → W)) (w : W)
    (h : HeaderCalm O items fs w) : withLife O items stmts fs none w=
      lifeSpec O stmts closed fs [] (items.map .item) w ↔ LifeOk O items stmts closed fs w := by
  rcases hen : enterAll O items w with ⟨r,w',cms⟩
  by_cases hyield : ∃v, r=.error (.signal (.yield v))
  · obtain ⟨v,rfl⟩ := hyield
    unfold HeaderCalm at h
    rw [hen] at h
    obtain ⟨hcms,hnext⟩ := h
    obtain rfl : cms=[] := hcms
    unfold withLife lifeSpec LifeOk runWithSuspendable
    dsimp only
    rw [hen]
    rw [enterAll_eq] at hen
    rcases henter : enterEach O (items.map .item) w with ⟨r,w₁,cms₁,rest⟩
    rw [henter] at hen
    cases hen
    have hrest := enterEach_rest henter
    subst hrest
    cases fs with
    | nil => cases closed <;> exact iff_of_true rfl trivial
    | cons f fs => exact (events_iff (l := [])).trans (withLife_iff closed fs (f w₁) hnext)
  · cases r with
    | ok u => exact entered_life_iff hen
    | error e => exact failed_life_iff hen fun v hv => hyield ⟨v,hv ▸ rfl⟩

end Lives

section Claim

variable {D V W : Type}

/-- Context managers that are names; the exit of `"bad"` raises. The world counts the statements of
a generator body that have been run. -/
def namedManagers : Calls Unit String Nat where
  payload := ⟨fun _ => (),fun _ _ => (),fun _ => false,fun _ _ => true,fun _ _ => ()⟩
  none := "None"
  excType t := t
  excValue x := x.typeName
  resolveProxy v w := (.ok v,w)
  callContextMethod cm method _ w :=
    if cm="bad"&&method="__exit__" then (.error (.exception (.leaf "RuntimeError" "" ())),w)
    else (.ok "None",w)
  call_raises cm method args w sig := by
    split <;> exact fun h => (nomatch h)
  driveCoroutine v w := (.ok v,w)
  drive_raises _ _ _ := fun h => (nomatch h)
  isTruthy _ := false
  truth _ _ := false

def opens (name : String) : WithItem Unit String Nat :=
  ⟨fun w => (.ok name,w),fun _ w => (.ok (),w)⟩

def raises : WithItem Unit String Nat :=
  ⟨fun w => (.error (.exception (.leaf "ValueError" "" ())),w),fun _ w => (.ok (),w)⟩

/-- `yield 1`, which takes the value sent when it is run again. -/
def yields (w : Nat) : Except (EvalError Unit String) String×Nat :=
  if w%2=0 then (.error (.signal (.yield "1")),w+1) else (.ok "None",w+1)

/-- `raise ValueError`. -/
def fails (w : Nat) : Except (EvalError Unit String) String×Nat :=
  (.error (.exception (.leaf "ValueError" "" ())),w+1)

end Claim

end InterpretThis.Exceptions
