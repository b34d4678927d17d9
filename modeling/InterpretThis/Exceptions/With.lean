import InterpretThis.Exceptions.Try

namespace InterpretThis.Exceptions

/-- One item of a `with` statement: its context expression and the assignment to its target. -/
structure WithItem (D V W : Type) where
  contextExpr : W → Except (EvalError D V) V×W
  assign : V → W → Except (EvalError D V) Unit×W

/-- The calls that a `with` statement makes. `exit` is a call, so no signal leaves it; `truth` is what
`bool` makes of a value and `isTruthy` what the interpreter's own accessor does. -/
structure Protocol (D V W : Type) where
  payload : Payload D
  none : V
  excType : String → V
  excValue : ExceptionValue D → V
  resolveProxy : V → W → Except (EvalError D V) V×W
  enter : V → W → Except (EvalError D V) V×W
  exit : V → List V → W → Except (EvalError D V) V×W
  exit_raises : ∀cm args w sig, (exit cm args w).1≠.error (.signal sig)
  isTruthy : V → Bool
  truth : V → W → Bool

/-- The calls that have been made. -/
inductive Event (D V : Type) where
  | entered (cm : V)
  | exited (cm : V) (inFlight : Option (EvalError D V))

section With

variable {D V W : Type} (O : Protocol D V W)

/-- The context managers, in order, until one of them fails. The list has those whose `__enter__` has
completed. -/
def enterAll : List (WithItem D V W) → W → Except (EvalError D V) Unit×W×List V
  | [],w => (.ok (),w,[])
  | item::items,w =>
    match item.contextExpr w with
    | (.error e,w) => (.error e,w,[])
    | (.ok cm,w) =>
      match O.resolveProxy cm w with
      | (.error e,w) => (.error e,w,[])
      | (.ok cm,w) =>
        match O.enter cm w with
        | (.error e,w) => (.error e,w,[])
        | (.ok v,w) =>
          match item.assign v w with
          | (.error e,w) => (.error e,w,[cm])
          | (.ok (),w) =>
            let (r,w,cms) := enterAll items w
            (r,w,cm::cms)

/-- The arguments of `__exit__`, and whether the error can be suppressed. -/
def buildExitArgs : Option (EvalError D V) → Bool×List V
  | none => (false,[O.none,O.none,O.none])
  | some (.signal _) => (false,[O.none,O.none,O.none])
  | some (.exception x) => (true,[O.excType x.typeName,O.excValue x,O.none])
  | some (.interpreter e) =>
    let x := interpreterErrorToException O.payload e
    (true,[O.excType x.typeName,O.excValue x,O.none])

/-- The loop of `exit_context_managers` over the managers in reverse order. -/
def exitLoop : List V → Option (EvalError D V) → W →
    Option (EvalError D V)×W×List (Event D V)
  | [],current,w => (current,w,[])
  | cm::cms,current,w =>
    let (suppressible,args) := buildExitArgs O current
    match O.exit cm args w with
    | (.ok v,w) =>
      let (r,w,l) := exitLoop cms (if O.isTruthy v&&suppressible then none else current) w
      (r,w,.exited cm current::l)
    | (.error e,w) =>
      let (r,w,l) := exitLoop cms (some e) w
      (r,w,.exited cm current::l)

/-- A signal goes on whatever the exits do. -/
def exitContextManagers (managers : List V) (bodyErr : Option (EvalError D V)) (w : W) :
    Except (EvalError D V) Unit×W×List (Event D V) :=
  match bodyErr with
  | some (.signal sig) =>
    let (_,w,l) := exitLoop O managers.reverse none w
    (.error (.signal sig),w,l)
  | bodyErr =>
    match exitLoop O managers.reverse bodyErr w with
    | (some e,w,l) => (.error e,w,l)
    | (none,w,l) => (.ok (),w,l)

/-- The error of a result. -/
def errorOf {α : Type} : Except (EvalError D V) α → Option (EvalError D V)
  | .ok _ => none
  | .error e => some e

/-- `eval_with` and `eval_async_with`, which differ in the calls only. -/
def evalWithBy (items : List (WithItem D V W)) (body : W → Except (EvalError D V) V×W) (w : W) :
    Except (EvalError D V) V×W×List (Event D V) :=
  match enterAll O items w with
  | (.error e,w,cms) => (.error e,w,cms.map .entered)
  | (.ok (),w,cms) =>
    let (r,w) := body w
    match exitContextManagers O cms (errorOf r) w with
    | (.error e,w,l) => (.error e,w,cms.map .entered++l)
    | (.ok (),w,l) =>
      (match r with
        | .ok v => .ok v
        | .error _ => .ok O.none,w,cms.map .entered++l)

end With

section Spec

variable {D V W : Type} (O : Protocol D V W)

/-- The exception in flight. -/
def inFlight : Except (EvalError D V) Unit → Option (EvalError D V)
  | .error (.signal _) => none
  | .error e => some e
  | .ok _ => none

/-- How a manager is left: its exception replaces what was propagating, and a true result suppresses
an exception. -/
def leave (cm : V) (r : Except (EvalError D V) Unit) (w : W) : Except (EvalError D V) Unit×W :=
  match O.exit cm (buildExitArgs O (inFlight r)).2 w with
  | (.error e,w) => (.error e,w)
  | (.ok v,w) => (if (inFlight r).isSome&&O.truth v w then .ok () else r,w)

/-- What a manager adds to the block that it surrounds. -/
def around (cm : V) (p : Except (EvalError D V) Unit×W×List (Event D V)) :
    Except (EvalError D V) Unit×W×List (Event D V) :=
  let (r,w) := leave O cm p.1 p.2.1
  (r,w,.entered cm::p.2.2++[.exited cm (inFlight p.1)])

/-- The meaning of a `with` statement: each item is a `with` statement of its own around the rest. -/
def withSpec (body : W → Except (EvalError D V) Unit×W) : List (WithItem D V W) → W →
    Except (EvalError D V) Unit×W×List (Event D V)
  | [],w =>
    let (r,w) := body w
    (r,w,[])
  | item::items,w =>
    match item.contextExpr w with
    | (.error e,w) => (.error e,w,[])
    | (.ok cm,w) =>
      match O.resolveProxy cm w with
      | (.error e,w) => (.error e,w,[])
      | (.ok cm,w) =>
        match O.enter cm w with
        | (.error e,w) => (.error e,w,[])
        | (.ok v,w) =>
          around O cm (match item.assign v w with
            | (.error e,w) => (.error e,w,[])
            | (.ok (),w) => withSpec body items w)

/-- The managers left one after the other. -/
def leaveAll : List V → Except (EvalError D V) Unit → W →
    Except (EvalError D V) Unit×W×List (Event D V)
  | [],r,w => (r,w,[])
  | cm::cms,r,w =>
    let (r',w') := leave O cm r w
    let (r'',w'',l) := leaveAll cms r' w'
    (r'',w'',.exited cm (inFlight r)::l)

theorem leaveAll_concat (cms : List V) (cm : V) (r : Except (EvalError D V) Unit) (w : W) :
    leaveAll O (cms++[cm]) r w=
      let p := leaveAll O cms r w
      ((leave O cm p.1 p.2.1).1,(leave O cm p.1 p.2.1).2,p.2.2++[.exited cm (inFlight p.1)]) := by
  induction cms generalizing r w with
  | nil => rfl
  | cons c cms ih =>
    simp only [List.cons_append,leaveAll,ih]

/-- How the block ends that the managers surround: an entry that fails, or the body. -/
def blockEnd (body : W → Except (EvalError D V) Unit×W) :
    Except (EvalError D V) Unit×W → Except (EvalError D V) Unit×W
  | (.error e,w) => (.error e,w)
  | (.ok (),w) => body w

/-- Every manager that was entered is left once, the last one first. -/
theorem withSpec_eq (body : W → Except (EvalError D V) Unit×W) (items : List (WithItem D V W))
    (w : W) : withSpec O body items w=
      let p := enterAll O items w
      let q := blockEnd body (p.1,p.2.1)
      let t := leaveAll O p.2.2.reverse q.1 q.2
      (t.1,t.2.1,p.2.2.map .entered++t.2.2) := by
  induction items generalizing w with
  | nil => rfl
  | cons item items ih =>
    unfold withSpec enterAll
    rcases item.contextExpr w with ⟨r,w⟩
    cases r with
    | error e => rfl
    | ok cm =>
      dsimp only
      rcases O.resolveProxy cm w with ⟨r,w⟩
      cases r with
      | error e => rfl
      | ok cm =>
        dsimp only
        rcases O.enter cm w with ⟨r,w⟩
        cases r with
        | error e => rfl
        | ok v =>
          dsimp only
          rcases item.assign v w with ⟨r,w⟩
          cases r with
          | error e => rfl
          | ok u =>
            dsimp only
            rw [ih]
            simp only [around,List.reverse_cons,leaveAll_concat,List.map_cons,List.cons_append,
              List.append_assoc]

end Spec

section Agreement

variable {D V W : Type} (O : Protocol D V W)

def Raised (r : Except (EvalError D V) Unit) : Prop := ∀sig, r≠.error (.signal sig)

/-- The result of a block that has this error in flight. -/
def resultOf : Option (EvalError D V) → Except (EvalError D V) Unit
  | none => .ok ()
  | some e => .error e

/-- While no signal is pending an exit may raise, and what it returns has the truth value that the
accessor gives it when that matters. While one is pending no exit raises. -/
def ExitsAgree (pending : Bool) : List V → Option (EvalError D V) → W → Prop
  | [],_,_ => True
  | cm::cms,current,w =>
    match O.exit cm (buildExitArgs O current).2 w with
    | (.error e,w) => pending=false ∧ ExitsAgree pending cms (some e) w
    | (.ok v,w) => (current.isSome=true → O.isTruthy v=O.truth v w) ∧
      ExitsAgree pending cms (if O.isTruthy v&&current.isSome then none else current) w

variable {O}

theorem inFlight_resultOf {current : Option (EvalError D V)} (h : Raised (resultOf current)) :
    inFlight (resultOf current)=current := by
  cases current with
  | none => rfl
  | some e =>
    cases e with
    | signal sig => exact absurd rfl (h sig)
    | _ => rfl

theorem suppressible_eq {current : Option (EvalError D V)} (h : Raised (resultOf current)) :
    (buildExitArgs O current).1=current.isSome := by
  cases current with
  | none => rfl
  | some e =>
    cases e with
    | signal sig => exact absurd rfl (h sig)
    | _ => rfl

theorem raised_of_exit {cm : V} {args : List V} {w w' : W} {e : EvalError D V}
    (h : O.exit cm args w=(.error e,w')) : Raised (resultOf (some e)) := by
  intro sig hs
  have hraise := O.exit_raises cm args w sig
  rw [h] at hraise
  cases hs
  exact hraise rfl

theorem raised_leave {cm : V} {r : Except (EvalError D V) Unit} (hr : Raised r) (w : W) :
    Raised (leave O cm r w).1 := by
  unfold leave
  rcases he : O.exit cm (buildExitArgs O (inFlight r)).2 w with ⟨o,w'⟩
  cases o with
  | error e => exact raised_of_exit he
  | ok v =>
    dsimp only
    split
    · exact fun _ h => (nomatch h)
    · exact hr

theorem raised_leaveAll {cms : List V} {r : Except (EvalError D V) Unit} (hr : Raised r) (w : W) :
    Raised (leaveAll O cms r w).1 := by
  induction cms generalizing r w with
  | nil => exact hr
  | cons cm cms ih => exact ih (raised_leave hr w) _

/-- Exits that start with different errors in flight can be told apart. -/
theorem current_eq_of_leaveAll {cms : List V} {c c' : Option (EvalError D V)} {w w' : W}
    (hc : Raised (resultOf c))
    (h : leaveAll O cms (resultOf c) w=
      (resultOf (exitLoop O cms c' w').1,(exitLoop O cms c' w').2)) : c=c' := by
  cases cms with
  | nil =>
    have hres : resultOf c=resultOf c' := congrArg Prod.fst h
    cases c with
    | none =>
      cases c' with
      | none => rfl
      | some e => cases hres
    | some e =>
      cases c' with
      | none => cases hres
      | some e' =>
        cases hres
        rfl
  | cons cm cms =>
    have hlog : ∀p : Except (EvalError D V) Unit×W×List (Event D V),
        p=leaveAll O (cm::cms) (resultOf c) w → p.2.2.head?=some (.exited cm (inFlight (resultOf c))) := by
      rintro p rfl
      rfl
    have hlog' : (exitLoop O (cm::cms) c' w').2.2.head?=some (.exited cm c') := by
      unfold exitLoop
      dsimp only
      rcases O.exit cm (buildExitArgs O c').2 w' with ⟨o,t⟩
      cases o <;> rfl
    have hhead := hlog _ h.symm
    rw [hlog',inFlight_resultOf hc] at hhead
    cases hhead
    rfl

theorem event_cons_iff {ev : Event D V} {p q : Except (EvalError D V) Unit×W×List (Event D V)} :
    (p.1,p.2.1,ev::p.2.2)=(q.1,q.2.1,ev::q.2.2) ↔ p=q := by
  simp [Prod.ext_iff]

/-- The exits after a body that completes or raises. -/
theorem exits_agree_iff (cms : List V) {current : Option (EvalError D V)}
    (hc : Raised (resultOf current)) (w : W) :
    (resultOf (exitLoop O cms current w).1,(exitLoop O cms current w).2)=
      leaveAll O cms (resultOf current) w ↔ ExitsAgree O false cms current w := by
  induction cms generalizing current w with
  | nil => simp [exitLoop,leaveAll,ExitsAgree]
  | cons cm cms ih =>
    unfold exitLoop leaveAll ExitsAgree leave
    rw [inFlight_resultOf hc]
    dsimp only
    rcases he : O.exit cm (buildExitArgs O current).2 w with ⟨o,w'⟩
    cases o with
    | error e =>
      dsimp only
      rw [eq_self_iff_true,true_and]
      exact event_cons_iff.trans (ih (raised_of_exit he) w')
    | ok v =>
      dsimp only
      rw [suppressible_eq hc]
      have hstep : (if current.isSome&&O.truth v w' then .ok () else resultOf current)=
          resultOf (if O.truth v w'&&current.isSome then none else current) := by
        cases current with
        | none => simp
        | some e => cases O.truth v w' <;> rfl
      have hnext : ∀b : Bool, Raised (resultOf (if b&&current.isSome then none else current)) := by
        intro b
        split
        · exact fun _ h => (nomatch h)
        · exact hc
      rw [hstep]
      have hrest : (resultOf (exitLoop O cms (if O.isTruthy v&&current.isSome then none else current)
            w').1,(exitLoop O cms (if O.isTruthy v&&current.isSome then none else current) w').2)=
          leaveAll O cms (resultOf (if O.truth v w'&&current.isSome then none else current)) w' ↔
          (current.isSome=true → O.isTruthy v=O.truth v w') ∧
            ExitsAgree O false cms (if O.isTruthy v&&current.isSome then none else current) w' := by
        constructor
        · intro h
          have hcur := current_eq_of_leaveAll (hnext _) h.symm
          rw [hcur,ih (hnext _)] at h
          refine ⟨fun hsome => ?_,h⟩
          obtain ⟨e,rfl⟩ := Option.isSome_iff_exists.mp hsome
          cases ht : O.isTruthy v <;> cases ht' : O.truth v w' <;> rw [ht,ht'] at hcur
          · cases hcur
          · cases hcur
        · rintro ⟨hb,h⟩
          have hcur : (if O.truth v w'&&current.isSome then none else current)=
              (if O.isTruthy v&&current.isSome then none else current) := by
            cases current with
            | none => simp
            | some e => rw [hb rfl]
          rw [hcur]
          exact (ih (hnext _) w').mpr h
      exact event_cons_iff.trans hrest

theorem exits_agree_signal_iff (cms : List V) (sig : ControlFlow V) (w : W) :
    (.error (.signal sig),(exitLoop O cms none w).2)=
      leaveAll O cms (.error (.signal sig)) w ↔ ExitsAgree O true cms none w := by
  induction cms generalizing w with
  | nil => simp [exitLoop,leaveAll,ExitsAgree]
  | cons cm cms ih =>
    unfold exitLoop leaveAll ExitsAgree leave
    dsimp only [inFlight]
    rcases he : O.exit cm (buildExitArgs O none).2 w with ⟨o,w'⟩
    cases o with
    | error e =>
      refine ⟨fun h => ?_,fun h => nomatch h.1⟩
      have hres := congrArg Prod.fst h
      exact absurd hres.symm (raised_leaveAll (raised_of_exit he) w' sig)
    | ok v =>
      simp only [buildExitArgs,Bool.and_false,Bool.false_eq_true,if_false,Option.isSome_none,
        Bool.false_and,false_implies,true_and]
      exact event_cons_iff.trans (ih w')

end Agreement

section Statements

variable {D V W : Type}

/-- What `with` and `async with` take from the rest of the interpreter. Calls never end in a
signal. -/
structure Calls (D V W : Type) where
  payload : Payload D
  none : V
  excType : String → V
  excValue : ExceptionValue D → V
  resolveProxy : V → W → Except (EvalError D V) V×W
  callContextMethod : V → String → List V → W → Except (EvalError D V) V×W
  call_raises : ∀cm method args w sig, (callContextMethod cm method args w).1≠.error (.signal sig)
  /-- A coroutine is run to its result, any other value is its own. -/
  driveCoroutine : V → W → Except (EvalError D V) V×W
  drive_raises : ∀v w sig, (driveCoroutine v w).1≠.error (.signal sig)
  isTruthy : V → Bool
  truth : V → W → Bool

variable (C : Calls D V W)

def callAndDrive (cm : V) (method : String) (args : List V) (w : W) :
    Except (EvalError D V) V×W :=
  match C.callContextMethod cm method args w with
  | (.error e,w) => (.error e,w)
  | (.ok v,w) => C.driveCoroutine v w

def withProtocol : Protocol D V W :=
  ⟨C.payload,C.none,C.excType,C.excValue,C.resolveProxy,
    fun cm => C.callContextMethod cm "__enter__" [],fun cm => C.callContextMethod cm "__exit__",
    fun cm => C.call_raises cm "__exit__",C.isTruthy,C.truth⟩

def asyncWithProtocol : Protocol D V W :=
  ⟨C.payload,C.none,C.excType,C.excValue,C.resolveProxy,
    fun cm => callAndDrive C cm "__aenter__" [],fun cm => callAndDrive C cm "__aexit__",
    fun cm args w sig => by
      unfold callAndDrive
      have hcall := C.call_raises cm "__aexit__" args w sig
      rcases hr : C.callContextMethod cm "__aexit__" args w with ⟨r,w'⟩
      rw [hr] at hcall
      cases r with
      | error e => exact hcall
      | ok v => exact C.drive_raises v w' sig,C.isTruthy,C.truth⟩

def evalWith (items : List (WithItem D V W)) (body : W → Except (EvalError D V) V×W) (w : W) :
    Except (EvalError D V) V×W×List (Event D V) :=
  evalWithBy (withProtocol C) items body w

def evalAsyncWith (items : List (WithItem D V W)) (body : W → Except (EvalError D V) V×W) (w : W) :
    Except (EvalError D V) V×W×List (Event D V) :=
  evalWithBy (asyncWithProtocol C) items body w

end Statements

section Exact

variable {D V W : Type}

def isSignal {α : Type} : Except (EvalError D V) α → Bool
  | .error (.signal _) => true
  | _ => false

def forget (r : Except (EvalError D V) V) : Except (EvalError D V) Unit := r.map fun _ => ()

def forgetBody (body : W → Except (EvalError D V) V×W) (w : W) : Except (EvalError D V) Unit×W :=
  (forget (body w).1,(body w).2)

/-- No entry fails once a manager has been entered, and the exits agree. -/
def EntersAndExits (O : Protocol D V W) (items : List (WithItem D V W))
    (body : W → Except (EvalError D V) V×W) (w : W) : Prop :=
  match enterAll O items w with
  | (.error _,_,cms) => cms=[]
  | (.ok (),w,cms) => ExitsAgree O (isSignal (body w).1) cms.reverse
    (inFlight (forget (body w).1)) (body w).2

theorem length_leaveAll (O : Protocol D V W) (cms : List V) (r : Except (EvalError D V) Unit)
    (w : W) : (leaveAll O cms r w).2.2.length=cms.length := by
  induction cms generalizing r w with
  | nil => rfl
  | cons cm cms ih =>
    have hrest := ih (leave O cm r w).1 (leave O cm r w).2
    simpa [leaveAll] using hrest

theorem exitContextManagers_iff (O : Protocol D V W) (cms : List V)
    (current : Option (EvalError D V)) (hc : Raised (resultOf current)) (w : W) :
    exitContextManagers O cms current w=leaveAll O cms.reverse (resultOf current) w ↔
      ExitsAgree O false cms.reverse current w := by
  have hexit : exitContextManagers O cms current w=
      (resultOf (exitLoop O cms.reverse current w).1,(exitLoop O cms.reverse current w).2) := by
    unfold exitContextManagers
    split
    · exact absurd rfl (hc _)
    · rcases exitLoop O cms.reverse current w with ⟨c,w',l⟩
      cases c <;> rfl
  rw [hexit]
  exact exits_agree_iff cms.reverse hc w

/-- The exits after a body with this result. -/
theorem exits_after_iff (O : Protocol D V W) (cms : List V) (r : Except (EvalError D V) Unit)
    (w : W) : exitContextManagers O cms (errorOf r) w=leaveAll O cms.reverse r w ↔
      ExitsAgree O (isSignal r) cms.reverse (inFlight r) w := by
  cases r with
  | ok v => exact exitContextManagers_iff O cms none (fun _ h => (nomatch h)) w
  | error e =>
    cases e with
    | signal sig => exact exits_agree_signal_iff cms.reverse sig w
    | exception x =>
      exact exitContextManagers_iff O cms (some (.exception x)) (fun _ h => (nomatch h)) w
    | interpreter e =>
      exact exitContextManagers_iff O cms (some (.interpreter e)) (fun _ h => (nomatch h)) w

theorem append_events_iff {l : List (Event D V)}
    {p q : Except (EvalError D V) Unit×W×List (Event D V)} :
    (p.1,p.2.1,l++p.2.2)=(q.1,q.2.1,l++q.2.2) ↔ p=q := by
  simp [Prod.ext_iff]

theorem evalWithBy_eq (O : Protocol D V W) (items : List (WithItem D V W))
    (body : W → Except (EvalError D V) V×W) (w : W) {w' : W} {cms : List V}
    (h : enterAll O items w=(.ok (),w',cms)) :
    (forget (evalWithBy O items body w).1,(evalWithBy O items body w).2)=
      let p := exitContextManagers O cms (errorOf (body w').1) (body w').2
      (p.1,p.2.1,cms.map .entered++p.2.2) := by
  unfold evalWithBy
  rw [h]
  dsimp only
  rcases exitContextManagers O cms (errorOf (body w').1) (body w').2 with ⟨r,w'',l⟩
  cases r with
  | error e => rfl
  | ok u => cases (body w').1 <;> rfl

theorem with_iff (O : Protocol D V W) (items : List (WithItem D V W))
    (body : W → Except (EvalError D V) V×W) (w : W) :
    (forget (evalWithBy O items body w).1,(evalWithBy O items body w).2)=
      withSpec O (forgetBody body) items w ↔ EntersAndExits O items body w := by
  rw [withSpec_eq]
  unfold EntersAndExits
  rcases hen : enterAll O items w with ⟨r,w',cms⟩
  cases r with
  | error e =>
    dsimp only [blockEnd]
    unfold evalWithBy
    rw [hen]
    constructor
    · intro h
      have hlen := congrArg (fun p => p.2.2.length) h
      simp only [List.length_map,List.length_append,length_leaveAll,List.length_reverse] at hlen
      exact List.length_eq_zero_iff.mp (by omega)
    · rintro rfl
      rfl
  | ok u =>
    rw [evalWithBy_eq O items body w hen]
    dsimp only [blockEnd,forgetBody]
    rw [append_events_iff]
    rcases body w' with ⟨r,w''⟩
    cases r with
    | ok v => exact exits_after_iff O cms (.ok ()) w''
    | error e =>
      have hexits := exits_after_iff O cms (.error e) w''
      cases e <;> exact hexits

end Exact

end InterpretThis.Exceptions
