import InterpretThis.Exceptions.Try

namespace InterpretThis.Exceptions

section Finally

variable {D V W : Type} (I : Interp D V W)

/-- A part that leaves the active exceptions as it found them. -/
def Balanced (p : Part D V W) : Prop := ∀s, (p s).2.active=s.active

structure Handler.Balances (h : Handler D V W) : Prop where
  type : ∀p, h.type=some p → Balanced p
  body : Balanced h.body

structure TryStmt.Balances (st : TryStmt D V W) : Prop where
  body : Balanced st.body
  handlers : ∀h ∈ st.handlers, h.Balances
  orelse : Balanced st.orelse
  finalbody : ∀p, st.finalbody=some p → Balanced p

/-- The exception that the body hands to the handlers. -/
def TryStmt.raised (st : TryStmt D V W) (s : State D V W) :
    Option (ExceptionValue D×State D V W) :=
  match st.body s with
  | (.error (.exception x),t) => some (x,t)
  | (.error (.interpreter e),t) => some (interpreterErrorToException I.payload e,t)
  | _ => none

abbrev Search (D V W : Type) : Type := ExceptionValue D → State D V W →
  Except (EvalError D V) (Option (Except (EvalError D V) V))×State D V W

/-- How the search for a handler and the handler end. -/
def searchEnd (original : EvalError D V) :
    Except (EvalError D V) (Option (Except (EvalError D V) V))×State D V W →
    Except (EvalError D V) V×State D V W
  | (.error e,t) => (.error e,t)
  | (.ok none,t) => (.error original,t)
  | (.ok (some r),t) => (r,t)

/-- How the last part before `finally` ended, and where. -/
def lastPart (search : Search D V W) (st : TryStmt D V W) (s : State D V W) :
    Except (EvalError D V) V×State D V W :=
  match st.body s with
  | (.ok _,t) => st.orelse t
  | (.error (.signal sig),t) => (.error (.signal sig),t)
  | (.error (.exception x),t) => searchEnd (.exception x) (search x t)
  | (.error (.interpreter e),t) =>
    searchEnd (.interpreter e) (search (interpreterErrorToException I.payload e) t)

/-- Whatever `finally` is, it runs once, after the other parts. -/
def FinallyRuns (search : Search D V W) (st : TryStmt D V W) (s : State D V W) : Prop :=
  ∀f, evalTryWith I search {st with finalbody := some f} s=
    finish (some f) (lastPart I search st s).1 (lastPart I search st s).2

/-- The body is not suspended at a yield. -/
def Unsuspended (st : TryStmt D V W) (s : State D V W) : Prop :=
  ∀v, (st.body s).1≠.error (.signal (.yield v))

theorem not_finally_of_error {e : EvalError D V} {t : State D V W} :
    ¬∀f : Part D V W, (Except.error e,t)=finish (some f) (.error e : Except (EvalError D V) V) t := by
  intro h
  have hbrk := congrArg Prod.fst (h fun s => (.error (.signal .brk),s))
  have hcont := congrArg Prod.fst (h fun s => (.error (.signal .cont),s))
  have := hbrk.symm.trans hcont
  cases this

theorem afterHandlers_iff (original : EvalError D V)
    (r : Except (EvalError D V) (Option (Except (EvalError D V) V))×State D V W) :
    (∀f, afterHandlers (some f) original r=
      finish (some f) (searchEnd original r).1 (searchEnd original r).2) ↔
    ∀e u, r≠(.error e,u) := by
  obtain ⟨r,t⟩ := r
  cases r with
  | error e => exact ⟨fun h => absurd h not_finally_of_error,fun h => absurd rfl (h e t)⟩
  | ok o =>
    refine ⟨fun _ e u h => ?_,fun _ f => ?_⟩
    · cases h
    · cases o <;> rfl

/-- `finally` is skipped exactly when the search for a handler fails. -/
theorem finallyRuns_iff (search : Search D V W) {st : TryStmt D V W} {s : State D V W}
    (hy : Unsuspended st s) : FinallyRuns I search st s ↔
      ∀x t, st.raised I s=some (x,t) → ∀e u, search x t≠(.error e,u) := by
  obtain ⟨body,handlers,orelse,finalbody⟩ := st
  unfold Unsuspended at hy
  unfold FinallyRuns evalTryWith lastPart TryStmt.raised
  dsimp only at hy ⊢
  rcases hb : body s with ⟨r,t⟩
  rw [hb] at hy
  cases r with
  | ok v => simp
  | error e =>
    cases e with
    | signal sig =>
      cases sig with
      | yield v => exact absurd rfl (hy v)
      | _ => simp
    | exception x => simpa using afterHandlers_iff (.exception x) (search x t)
    | interpreter e =>
      simpa using afterHandlers_iff (.interpreter e)
        (search (interpreterErrorToException I.payload e) t)

end Finally

section Stack

variable {D V W : Type} (I : Interp D V W)

@[simp] theorem bindName_active (name : Option String) (v : V) (s : State D V W) :
    (bindName I name v s).2.active=s.active := by
  unfold bindName
  cases name with
  | none => rfl
  | some n =>
    simp only [setVariable]
    split <;> rfl

@[simp] theorem unbindName_active (name : Option String) (s : State D V W) :
    (unbindName I name s).active=s.active := by
  cases name <;> rfl

theorem matchesHandler_active {h : Handler D V W} (hb : h.Balances) (x : ExceptionValue D)
    (s : State D V W) : (matchesHandler I h x s).2.active=s.active := by
  unfold matchesHandler
  cases ht : h.type with
  | none => rfl
  | some p =>
    have hp := hb.type p ht s
    dsimp only
    rcases hr : p s with ⟨r,t⟩
    rw [hr] at hp
    cases r <;> exact hp

theorem runBody_active {body : Part D V W} (hb : Balanced body) (x : ExceptionValue D)
    (s : State D V W) : (runBody body x s).2.active=s.active := by
  show (body _).2.active.tail=s.active
  rw [hb]
  rfl

theorem enterHandler_active {h : Handler D V W} (hb : h.Balances) (x : ExceptionValue D)
    (s : State D V W) : (enterHandler I h x s).2.active=s.active := by
  unfold enterHandler
  dsimp only
  have hn := bindName_active I h.name (I.excValue (caughtIn I x s)) s
  rcases hr : bindName I h.name (I.excValue (caughtIn I x s)) s with ⟨r,t⟩
  rw [hr] at hn
  cases r with
  | error e => exact hn
  | ok u =>
    dsimp only
    rw [unbindName_active,runBody_active hb.body]
    exact hn

theorem tryMatchHandlers_active (x : ExceptionValue D) {hs : List (Handler D V W)}
    (hb : ∀h ∈ hs, h.Balances) (s : State D V W) :
    (tryMatchHandlers I x hs s).2.active=s.active := by
  induction hs generalizing s with
  | nil => rfl
  | cons h hs ih =>
    obtain ⟨hh,hrest⟩ := List.forall_mem_cons.mp hb
    have hm := matchesHandler_active I hh x s
    unfold tryMatchHandlers
    rcases hr : matchesHandler I h x s with ⟨r,t⟩
    rw [hr] at hm
    cases r with
    | error e => exact hm
    | ok b =>
      cases b with
      | false => exact (ih hrest t).trans hm
      | true =>
        have he := enterHandler_active I hh x t
        dsimp only
        rcases hr : enterHandler I h x t with ⟨r,u⟩
        rw [hr] at he
        cases r <;> exact he.trans hm

theorem splitMatched_active {h : Handler D V W} (hb : h.Balances) (xs : List (ExceptionValue D))
    (s : State D V W) : (splitMatched I h xs s).2.active=s.active := by
  induction xs generalizing s with
  | nil => rfl
  | cons x xs ih =>
    have hm := matchesHandler_active I hb x s
    unfold splitMatched
    rcases hr : matchesHandler I h x s with ⟨r,t⟩
    rw [hr] at hm
    cases r with
    | error e => exact hm
    | ok b =>
      have hrest := ih t
      dsimp only
      rcases hr : splitMatched I h xs t with ⟨r,u⟩
      rw [hr] at hrest
      cases r <;> exact hrest.trans hm

theorem enterStarHandler_active {h : Handler D V W} (hb : h.Balances) (x : ExceptionValue D)
    (s : State D V W) : (enterStarHandler I h x s).2.active=s.active := by
  unfold enterStarHandler
  have hn := bindName_active I h.name (I.excValue x) s
  rcases hr : bindName I h.name (I.excValue x) s with ⟨r,t⟩
  rw [hr] at hn
  cases r with
  | error e => exact hn
  | ok u =>
    have hbody := runBody_active hb.body x t
    dsimp only
    rcases hr : runBody h.body x t with ⟨r,u⟩
    rw [hr] at hbody
    cases r with
    | ok v => exact (unbindName_active I h.name u).trans (hbody.trans hn)
    | error e => exact hbody.trans hn

theorem starRounds_active (message : String) {hs : List (Handler D V W)}
    (hb : ∀h ∈ hs, h.Balances) (remaining : List (ExceptionValue D)) (any : Bool) (last : V)
    (s : State D V W) : (starRounds I message hs remaining any last s).2.active=s.active := by
  induction hs generalizing remaining any last s with
  | nil => rfl
  | cons h hs ih =>
    obtain ⟨hh,hrest⟩ := List.forall_mem_cons.mp hb
    have hsplit := splitMatched_active I hh remaining s
    unfold starRounds
    split
    · rfl
    · rcases hr : splitMatched I h remaining s with ⟨r,t⟩
      rw [hr] at hsplit
      cases r with
      | error e => exact hsplit
      | ok p =>
        obtain ⟨matched,unmatched⟩ := p
        dsimp only
        split
        · exact (ih hrest unmatched any last t).trans hsplit
        · have he := enterStarHandler_active I hh
            (.newGroup I.payload "ExceptionGroup" message matched) t
          rcases hr : enterStarHandler I h (.newGroup I.payload "ExceptionGroup" message matched) t
            with ⟨r,u⟩
          rw [hr] at he
          cases r with
          | error e => exact he.trans hsplit
          | ok r =>
            cases r with
            | ok v => exact (ih hrest unmatched true v u).trans (he.trans hsplit)
            | error e => exact he.trans hsplit

theorem finish_active {finalbody : Option (Part D V W)} (hf : ∀p, finalbody=some p → Balanced p)
    (r : Except (EvalError D V) V) (s : State D V W) : (finish finalbody r s).2.active=s.active := by
  cases finalbody with
  | none => rfl
  | some f =>
    have hp := hf f rfl s
    unfold finish
    dsimp only
    rcases hr : f s with ⟨r',t⟩
    rw [hr] at hp
    cases r' <;> exact hp

theorem afterHandlers_active {finalbody : Option (Part D V W)}
    (hf : ∀p, finalbody=some p → Balanced p) (original : EvalError D V)
    (r : Except (EvalError D V) (Option (Except (EvalError D V) V))×State D V W) :
    (afterHandlers finalbody original r).2.active=r.2.active := by
  obtain ⟨r,t⟩ := r
  cases r with
  | error e => rfl
  | ok o => cases o <;> exact finish_active hf _ t

theorem evalTryWith_balanced {search : Search D V W} {st : TryStmt D V W} (hb : st.Balances)
    (hs : ∀x s, (search x s).2.active=s.active) : Balanced (evalTryWith I search st) := by
  intro s
  have hbody := hb.body s
  unfold evalTryWith
  rcases hr : st.body s with ⟨r,t⟩
  rw [hr] at hbody
  cases r with
  | ok v => exact (finish_active hb.finalbody _ _).trans ((hb.orelse t).trans hbody)
  | error e =>
    cases e with
    | signal sig =>
      cases sig with
      | yield v => exact hbody
      | _ => exact (finish_active hb.finalbody _ t).trans hbody
    | exception x =>
      exact (afterHandlers_active hb.finalbody _ _).trans ((hs x t).trans hbody)
    | interpreter e =>
      exact (afterHandlers_active hb.finalbody _ _).trans ((hs _ t).trans hbody)

theorem evalTry_balanced {st : TryStmt D V W} (hb : st.Balances) : Balanced (evalTry I st) :=
  evalTryWith_balanced I hb fun x => tryMatchHandlers_active I x hb.handlers

theorem evalTryStar_balanced {st : TryStmt D V W} (hb : st.Balances) : Balanced (evalTryStar I st) :=
  evalTryWith_balanced I hb fun x =>
    starRounds_active I x.message hb.handlers (members x) false I.none

end Stack

section Names

variable {D V W : Type} (I : Interp D V W)

abbrev Left (D V W : Type) : Type := List (Option String×State D V W)

/-- No name of a handler outlives it. -/
def Unbound (l : Left D V W) : Prop := ∀p ∈ l, ∀n, p.1=some n → p.2.bindings n=none

def leftByTry (x : ExceptionValue D) : List (Handler D V W) → State D V W → Left D V W
  | [],_ => []
  | h::hs,s =>
    match matchesHandler I h x s with
    | (.error _,_) => []
    | (.ok false,s) => leftByTry x hs s
    | (.ok true,s) => [(h.name,(enterHandler I h x s).2)]

/-- The type expressions of the handlers that are looked at have a value, and the name of the one
that matches can be bound. -/
def SearchSucceeds (x : ExceptionValue D) : List (Handler D V W) → State D V W → Prop
  | [],_ => True
  | h::hs,s =>
    match matchesHandler I h x s with
    | (.error _,_) => False
    | (.ok false,s) => SearchSucceeds x hs s
    | (.ok true,s) => ∃u, bindName I h.name (I.excValue (caughtIn I x s)) s=(.ok (),u)

theorem unbindName_bindings (name : Option String) (s : State D V W) {n : String}
    (h : name=some n) : (unbindName I name s).bindings n=none := by
  subst h
  simp [unbindName,deleteVariable]

theorem tryMatchHandlers_ne_error_iff (x : ExceptionValue D) (hs : List (Handler D V W))
    (s : State D V W) :
    (∀e u, tryMatchHandlers I x hs s≠(.error e,u)) ↔ SearchSucceeds I x hs s := by
  induction hs generalizing s with
  | nil => exact ⟨fun _ => trivial,fun _ e u h => by cases h⟩
  | cons h hs ih =>
    unfold tryMatchHandlers SearchSucceeds
    rcases matchesHandler I h x s with ⟨r,t⟩
    cases r with
    | error e => simp
    | ok b =>
      cases b with
      | false => exact ih t
      | true =>
        dsimp only [enterHandler]
        rcases bindName I h.name (I.excValue (caughtIn I x t)) t with ⟨r,u⟩
        cases r <;> simp

theorem unbound_leftByTry {x : ExceptionValue D} {hs : List (Handler D V W)} {s : State D V W}
    (h : SearchSucceeds I x hs s) : Unbound (leftByTry I x hs s) := by
  induction hs generalizing s with
  | nil => exact fun _ hp => (nomatch hp)
  | cons h' hs ih =>
    unfold SearchSucceeds at h
    unfold leftByTry
    rcases hr : matchesHandler I h' x s with ⟨r,t⟩
    rw [hr] at h
    cases r with
    | error e => exact h.elim
    | ok b =>
      cases b with
      | false => exact ih h
      | true =>
        obtain ⟨u,hu⟩ := h
        intro p hp n hn
        rw [List.mem_singleton] at hp
        subst hp
        simp only [enterHandler,hu]
        exact unbindName_bindings I h'.name _ hn

def leftByStar (message : String) : List (Handler D V W) → List (ExceptionValue D) →
    State D V W → Left D V W
  | [],_,_ => []
  | h::hs,remaining,s =>
    if remaining.isEmpty then []
    else match splitMatched I h remaining s with
    | (.error _,_) => []
    | (.ok (matched,unmatched),s) =>
      if matched.isEmpty then leftByStar message hs unmatched s
      else
        let left := enterStarHandler I h (.newGroup I.payload "ExceptionGroup" message matched) s
        (h.name,left.2)::match left with
          | (.ok (.ok _),s) => leftByStar message hs unmatched s
          | _ => []

/-- Besides what `SearchSucceeds` says: a handler whose body fails has no name, or its body has
removed it. -/
def StarSucceeds (message : String) : List (Handler D V W) → List (ExceptionValue D) →
    State D V W → Prop
  | [],_,_ => True
  | h::hs,remaining,s =>
    if remaining.isEmpty then True
    else match splitMatched I h remaining s with
    | (.error _,_) => False
    | (.ok (matched,unmatched),s) =>
      if matched.isEmpty then StarSucceeds message hs unmatched s
      else
        let group := ExceptionValue.newGroup I.payload "ExceptionGroup" message matched
        match bindName I h.name (I.excValue group) s with
        | (.error _,_) => False
        | (.ok (),s) =>
          match runBody h.body group s with
          | (.ok _,s) => StarSucceeds message hs unmatched (unbindName I h.name s)
          | (.error _,s) => ∀n, h.name=some n → s.bindings n=none

theorem unbound_cons {name : Option String} {s : State D V W} {l : Left D V W} :
    Unbound ((name,s)::l) ↔ (∀n, name=some n → s.bindings n=none) ∧ Unbound l := by
  simp [Unbound]

theorem starRounds_succeeds_iff (message : String) (hs : List (Handler D V W))
    (remaining : List (ExceptionValue D)) (any : Bool) (last : V) (s : State D V W) :
    ((∀e u, starRounds I message hs remaining any last s≠(.error e,u)) ∧
      Unbound (leftByStar I message hs remaining s)) ↔ StarSucceeds I message hs remaining s := by
  induction hs generalizing remaining any last s with
  | nil => simp [starRounds,leftByStar,StarSucceeds,Unbound]
  | cons h hs ih =>
    unfold starRounds leftByStar StarSucceeds
    split
    · simp [Unbound]
    · rcases splitMatched I h remaining s with ⟨r,t⟩
      cases r with
      | error e => simp
      | ok p =>
        obtain ⟨matched,unmatched⟩ := p
        dsimp only
        split
        · exact ih unmatched any last t
        · dsimp only [enterStarHandler]
          rcases bindName I h.name
            (I.excValue (.newGroup I.payload "ExceptionGroup" message matched)) t with ⟨r,u⟩
          cases r with
          | error e => simp
          | ok _ =>
            dsimp only
            rcases runBody h.body (.newGroup I.payload "ExceptionGroup" message matched) u with ⟨r,w⟩
            cases r with
            | ok v =>
              dsimp only
              rw [← ih unmatched true v (unbindName I h.name w),unbound_cons]
              have hname : ∀n, h.name=some n → (unbindName I h.name w).bindings n=none :=
                fun n => unbindName_bindings I h.name w
              exact ⟨fun hl => ⟨hl.1,hl.2.2⟩,fun hl => ⟨hl.1,hname,hl.2⟩⟩
            | error e => simp [Unbound]

end Names

section Claim

variable {D V W : Type} (I : Interp D V W)

/-- What `try` promises: `finally` runs once, the active exceptions are those of before, and the
names of the handlers are unbound when these are left. -/
structure Keeps (search : Search D V W) (left : ExceptionValue D → State D V W → Left D V W)
    (st : TryStmt D V W) (s : State D V W) : Prop where
  runs : FinallyRuns I search st s
  active : (evalTryWith I search st s).2.active=s.active
  unbound : ∀x t, st.raised I s=some (x,t) → Unbound (left x t)

/-- A `try` statement of balanced parts keeps its promises exactly when the search for a handler
succeeds; one with `except*` when no failing handler leaves its name behind, besides. -/
theorem finally_runs_iff (st : TryStmt D V W) (s : State D V W) (hy : Unsuspended st s)
    (hb : st.Balances) :
    (Keeps I (fun x => tryMatchHandlers I x st.handlers) (fun x => leftByTry I x st.handlers) st s ↔
      ∀x t, st.raised I s=some (x,t) → SearchSucceeds I x st.handlers t) ∧
    (Keeps I (fun x => tryMatchStarHandlers I x st.handlers)
        (fun x => leftByStar I x.message st.handlers (members x)) st s ↔
      ∀x t, st.raised I s=some (x,t) →
        StarSucceeds I x.message st.handlers (members x) t) := by
  constructor
  · constructor
    · intro hk x t hr
      have hruns := (finallyRuns_iff I _ hy).mp hk.runs x t hr
      exact (tryMatchHandlers_ne_error_iff I x st.handlers t).mp hruns
    · intro h
      refine ⟨?_,evalTry_balanced I hb s,fun x t hr => unbound_leftByTry I (h x t hr)⟩
      refine (finallyRuns_iff I _ hy).mpr fun x t hr => ?_
      exact (tryMatchHandlers_ne_error_iff I x st.handlers t).mpr (h x t hr)
  · constructor
    · intro hk x t hr
      have hruns := (finallyRuns_iff I _ hy).mp hk.runs x t hr
      exact (starRounds_succeeds_iff I x.message st.handlers (members x) false I.none t).mp
        ⟨hruns,hk.unbound x t hr⟩
    · intro h
      have hstar := fun x t hr =>
        (starRounds_succeeds_iff I x.message st.handlers (members x) false I.none t).mpr (h x t hr)
      refine ⟨?_,evalTryStar_balanced I hb s,fun x t hr => (hstar x t hr).2⟩
      exact (finallyRuns_iff I _ hy).mpr fun x t hr => (hstar x t hr).1

/-- An interpreter whose values are names and whose world is a log. -/
def logging : Interp Unit String (List String) where
  payload := ⟨fun _ => (),fun _ _ => (),fun _ => false,fun _ _ => true,fun _ _ => ()⟩
  none := "None"
  excValue x := x.typeName
  typeNames v := [v]
  classes _ := ⟨fun _ => none,fun _ _ h => by cases h⟩
  charge _ _ s := s.world
  release _ s := s.world
  checkMemory _ := none

def blank : State Unit String (List String) := ⟨fun _ => none,[],[]⟩

def logs (entry : String) : Part Unit String (List String) :=
  fun s => (.ok "None",{s with world := s.world++[entry]})

/-- `try: raise ValueError()`, a handler with the given type, `finally:` a log entry. -/
def logsFinally (type : Part Unit String (List String)) : TryStmt Unit String (List String) where
  body s := (.error (.exception (.leaf "ValueError" "" ())),s)
  handlers := [⟨some type,some "e",logs "handler"⟩]
  orelse := logs "else"
  finalbody := some (logs "finally")

theorem logsFinally_balances {type : Part Unit String (List String)} (h : Balanced type) :
    (logsFinally type).Balances where
  body _ := rfl
  handlers := by
    intro h' hm
    rw [logsFinally,List.mem_singleton] at hm
    subst hm
    exact ⟨fun p hp => by cases hp; exact h,fun _ => rfl⟩
  orelse _ := rfl
  finalbody p hp := by
    cases hp
    exact fun _ => rfl

theorem finally_runs_value_error :
    Keeps logging
      (fun x => tryMatchHandlers logging x (logsFinally fun s => (.ok "ValueError",s)).handlers)
      (fun x => leftByTry logging x (logsFinally fun s => (.ok "ValueError",s)).handlers)
      (logsFinally fun s => (.ok "ValueError",s)) blank := by
  refine (finally_runs_iff logging (logsFinally fun s => (.ok "ValueError",s)) blank ?_ ?_).1.mpr ?_
  · intro v hv
    cases hv
  · exact logsFinally_balances fun _ => rfl
  · intro x t hr
    cases hr
    exact ⟨_,rfl⟩

/-- `except Undefined:`. -/
def undefinedType : TryStmt Unit String (List String) :=
  logsFinally fun s => (.error (.interpreter (.nameError "name 'Undefined' is not defined")),s)

/-- The search for a handler raises a `NameError`, and `finally` does not run. -/
theorem finally_skipped :
    ¬Keeps logging (fun x => tryMatchHandlers logging x undefinedType.handlers)
      (fun x => leftByTry logging x undefinedType.handlers) undefinedType blank ∧
    (evalTry logging undefinedType blank).2.world=[] := by
  refine ⟨fun h => ?_,rfl⟩
  have hworld := congrArg (fun r => r.2.world) (h.runs (logs "finally"))
  cases hworld

end Claim

end InterpretThis.Exceptions
