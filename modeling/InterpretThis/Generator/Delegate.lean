import InterpretThis.Generator.Step

namespace InterpretThis.Generator

/-- What a generator delegates to: another generator, or what is left of an iterable. -/
inductive Source (V : Type) where
  | generator (sub : V)
  | iterable (rest : List V)

section Delegation

variable {V X W : Type} (P : Exits V X)

/-- The generator is suspended in `yield from`. The resume flag may be set or not. -/
structure InYieldFrom (st : Status V X) (src : Source V) : Prop where
  started : st.started=true
  finished : st.finished=false
  closed : st.closed=false
  pending : st.cell.pendingThrow=none
  delegate : st.cell.delegatingTo=(match src with
    | .generator sub => some sub
    | .iterable _ => none)
  ret : (match src with
    | .generator _ => True
    | .iterable _ => st.cell.yieldFromReturn=some P.none)
  drains : st.cell.drains=(match src with
    | .iterable (v::rest) => [v::rest]
    | _ => [])

/-- The body goes on at the `yield from` expression, which takes the answer. -/
def continueWith (run : Runner V X W) (st : Status V X) (answer : Except X V) (w : W) :
    Except X V×Status V X×W :=
  let c := {st.cell with resumeAtYield := true, delegatingTo := none, sendValue := P.none}
  match answer with
  | .ok v => settle P st (run {c with yieldFromReturn := some v} w)
  | .error x => settle P st (run {c with pendingThrow := some x} w)

/-- The delegate answers: its item, its end or its exception. -/
def delegateAnswers (run : Runner V X W) (st : Status V X) (r : Except X V×W) :
    Except X V×Status V X×W :=
  match r with
  | (.ok v,w) => (.ok v,st,w)
  | (.error x,w) => continueWith P run st (if P.isStop x then .ok (P.stopValue x) else .error x) w

/-- `yield from` as the language defines it: the driver talks to the delegate, exceptions that a
plain iterable cannot take are raised at the expression, and `close` closes the delegate first. -/
def transparent (run : Runner V X W) (drive : Driver V X W) (st : Status V X) (src : Source V)
    (call : Call V X) (w : W) : Except X V×Status V X×W :=
  match src,call with
  | .generator sub,.close =>
    match drive sub .close w with
    | (.ok _,w') => closeResult P (continueWith P run st (.error P.generatorExit) w')
    | (.error x,w') => closeResult P (continueWith P run st (.error x) w')
  | .generator sub,call => delegateAnswers P run st (drive sub call w)
  | .iterable [],.next | .iterable [],.send _ => continueWith P run st (.ok P.none) w
  | .iterable (v::rest),.next | .iterable (v::rest),.send _ => (.ok v,{st with cell := {st.cell with
      drains := if rest.isEmpty then [] else [rest]}},w)
  | .iterable _,.throw x => continueWith P run {st with cell := {st.cell with drains := []}} (.error x) w
  | .iterable _,.close => closeResult P
      (continueWith P run {st with cell := {st.cell with drains := []}} (.error P.generatorExit) w)

/-- The driver calls that reach `yield from` as they should. -/
def Reaches (drive : Driver V X W) (st : Status V X) (src : Source V) (call : Call V X) (w : W) :
    Prop :=
  match src,call with
  | .generator sub,.close => st.cell.resumeAtYield=true ∧ ∃v, (drive sub .close w).1=.ok v
  | .generator sub,call => ∀x, (drive sub call w).1=.error x → P.isException x=true
  | .iterable rest,.next | .iterable rest,.send _ => rest≠[] ∨ st.cell.resumeAtYield=true
  | .iterable rest,_ => st.cell.resumeAtYield=true ∧ rest=[]

section Bodies

def yieldsAgain : Runner V X W := fun c w => (.yielded P.none,c,w)

/-- A body that raises what is thrown at it, or ends. -/
def passesOn : Runner V X W := fun c w =>
  match c.pendingThrow with
  | some x => (.raised x,c,w)
  | none => (.fellOff,c,w)

def yieldsResumed : Runner V X W := fun c w =>
  (if c.resumeAtYield then .yielded P.none else .fellOff,c,w)

end Bodies

section Steps

variable {P} {st : Status V X}

theorem stepGenerator_enters (run : Runner V X W) (c : Cell V X) (send : V) (w : W)
    (hs : st.started=true) (hf : st.finished=false) (hc : st.closed=false) (hd : c.drains=[]) :
    stepGenerator P run {st with cell := c} send w=
      settle P st (run {c with sendValue := send} w) := by
  obtain ⟨started,finished,closed,cell⟩ := st
  simp only at hs hf hc
  subst hs hf hc
  simp [stepGenerator,drained,dropDrain,hd,settle]

theorem stepGenerator_drains (run : Runner V X W) (c : Cell V X) (send : V) (w : W) {v : V}
    {rest : List V} {ds : List (List V)} (hs : st.started=true) (hf : st.finished=false) (hc : st.closed=false)
    (hd : c.drains=(v::rest)::ds) :
    stepGenerator P run {st with cell := c} send w=(.ok v,{st with cell := {c with
      drains := if rest.isEmpty then ds else rest::ds}},w) := by
  obtain ⟨started,finished,closed,cell⟩ := st
  simp only at hs hf hc
  subst hs hf hc
  simp [stepGenerator,drained,hd]

theorem live_eq {c : Cell V X} (hs : st.started=true) (hf : st.finished=false)
    (hc : st.closed=false) : ({st with cell := c} : Status V X).live=c.resumeAtYield := by
  simp [Status.live,hs,hf,hc]

end Steps

section Cases

variable {P} {st : Status V X} {drive : Driver V X W} {w : W}

theorem forward_transparent_iff {sub : V} (hin : InYieldFrom P st (.generator sub))
    (call : Call V X) : (∀run : Runner V X W, forwardToDelegate P run drive sub st call w=
      delegateAnswers P run st (drive sub call w)) ↔
    ∀x, (drive sub call w).1=.error x → P.isException x=true := by
  unfold forwardToDelegate delegateAnswers
  cases drive sub call w with
  | mk r w' =>
    cases r with
    | ok v => exact iff_of_true (fun _ => rfl) fun x hx => by cases hx
    | error x =>
      simp only [Except.error.injEq,forall_eq']
      cases P.isException x with
      | false =>
        -- the error passes by the generator, which stays suspended
        refine iff_of_false (fun h => ?_) Bool.false_ne_true
        have hout := congrArg Prod.fst (h (yieldsAgain P))
        cases hstop : P.isStop x <;> simp [continueWith,settle,yieldsAgain,hstop] at hout
      | true =>
        refine iff_of_true (fun run => ?_) rfl
        cases P.isStop x with
        | true => exact stepGenerator_enters run _ _ _ hin.started hin.finished hin.closed hin.drains
        | false => exact stepGenerator_enters run _ _ _ hin.started hin.finished hin.closed hin.drains

theorem close_generator_iff {sub : V} (hin : InYieldFrom P st (.generator sub)) :
    (∀run : Runner V X W, dispatchSuspended P run drive st .close w=
      transparent P run drive st (.generator sub) .close w) ↔
    st.cell.resumeAtYield=true ∧ ∃v, (drive sub .close w).1=.ok v := by
  have hdel : st.cell.delegatingTo=some sub := hin.delegate
  have hd : st.cell.drains=[] := hin.drains
  simp only [dispatchSuspended,transparent,hdel]
  cases hsub : drive sub .close w with
  | mk r w' =>
    cases r with
    | error x =>
      -- the exception of the delegate is raised out, and the generator stays suspended
      simp only [reduceCtorEq,exists_false,and_false,iff_false]
      intro h
      have hst := congrArg (fun p => p.2.1.finished) (h (yieldsAgain P))
      simp [continueWith,settle,yieldsAgain,closeResult,Status.markClosed,hin.finished] at hst
    | ok v =>
      simp only [Except.ok.injEq,exists_eq',and_true]
      unfold closeSelf
      rw [live_eq hin.started hin.finished hin.closed]
      cases hr : st.cell.resumeAtYield with
      | false =>
        simp only [Bool.false_eq_true,if_false,iff_false]
        intro h
        have hout := congrArg Prod.fst (h (yieldsAgain P))
        simp [continueWith,settle,yieldsAgain,closeResult] at hout
      | true =>
        simp only [if_true,iff_true]
        intro run
        unfold throwInto
        rw [live_eq hin.started hin.finished hin.closed]
        simp only [if_true]
        exact congrArg (closeResult P)
          (stepGenerator_enters run _ _ _ hin.started hin.finished hin.closed hd)

theorem next_iterable_iff {rest : List V} (hin : InYieldFrom P st (.iterable rest)) :
    (∀run : Runner V X W, stepGenerator P run st P.none w=
      transparent P run drive st (.iterable rest) .next w) ↔
    rest≠[] ∨ st.cell.resumeAtYield=true := by
  have hret : st.cell.yieldFromReturn=some P.none := hin.ret
  have hdel : st.cell.delegatingTo=none := hin.delegate
  cases rest with
  | cons v rest =>
    have hd : st.cell.drains=[v::rest] := hin.drains
    refine ⟨fun _ => .inl (by simp),fun _ run => ?_⟩
    exact stepGenerator_drains run _ _ _ hin.started hin.finished hin.closed hd
  | nil =>
    have hd : st.cell.drains=[] := hin.drains
    have henters : ∀run : Runner V X W, stepGenerator P run st P.none w=
        settle P st (run {st.cell with sendValue := P.none} w) := fun run =>
      stepGenerator_enters run _ _ _ hin.started hin.finished hin.closed hd
    simp only [henters,transparent,continueWith,ne_eq,not_true_eq_false,false_or]
    cases hr : st.cell.resumeAtYield with
    | false =>
      simp only [Bool.false_eq_true,iff_false]
      intro h
      have hout := congrArg Prod.fst (h (yieldsResumed P))
      simp [settle,yieldsResumed] at hout
    | true =>
      simp only [iff_true]
      intro run
      rw [hret,hdel]

theorem throw_iterable_iff {rest : List V} (hin : InYieldFrom P st (.iterable rest)) (x : X) :
    (∀run : Runner V X W, throwInto P run st x w=
      transparent P run drive st (.iterable rest) (.throw x) w) ↔
    st.cell.resumeAtYield=true ∧ rest=[] := by
  have hdel : st.cell.delegatingTo=none := hin.delegate
  have hlive : st.live=st.cell.resumeAtYield := live_eq hin.started hin.finished hin.closed
  simp only [throwInto,hlive,transparent]
  cases hr : st.cell.resumeAtYield with
  | false =>
    simp only [Bool.false_eq_true,if_false,false_and,iff_false]
    intro h
    have hout := congrArg Prod.fst (h (yieldsAgain P))
    simp [continueWith,settle,yieldsAgain] at hout
  | true =>
    simp only [if_true,true_and]
    cases rest with
    | cons v rest =>
      have hd : st.cell.drains=[v::rest] := hin.drains
      simp only [reduceCtorEq,iff_false]
      intro h
      have hstep := stepGenerator_drains (P := P) passesOn
        {st.cell with resumeAtYield := true, pendingThrow := some x} P.none w
        hin.started hin.finished hin.closed hd
      have hout := congrArg Prod.fst (hstep.symm.trans (h passesOn))
      simp [continueWith,settle,passesOn] at hout
    | nil =>
      have hd : st.cell.drains=[] := hin.drains
      simp only [iff_true]
      intro run
      have hstep := stepGenerator_enters (P := P) run
        {st.cell with resumeAtYield := true, pendingThrow := some x} P.none w
        hin.started hin.finished hin.closed hd
      refine hstep.trans ?_
      simp only [continueWith,settle,hdel,hd]

theorem close_iterable_iff {rest : List V} (hin : InYieldFrom P st (.iterable rest)) :
    (∀run : Runner V X W, closeSelf P run st w=
      transparent P run drive st (.iterable rest) .close w) ↔
    st.cell.resumeAtYield=true ∧ rest=[] := by
  have hlive : st.live=st.cell.resumeAtYield := live_eq hin.started hin.finished hin.closed
  have hthrow : (∀run : Runner V X W, throwInto P run st P.generatorExit w=
      transparent P run drive st (.iterable rest) (.throw P.generatorExit) w) ↔ _ :=
    throw_iterable_iff hin P.generatorExit
  simp only [closeSelf,hlive]
  cases hr : st.cell.resumeAtYield with
  | false =>
    simp only [Bool.false_eq_true,if_false,false_and,iff_false]
    intro h
    have hout := congrArg Prod.fst (h (yieldsAgain P))
    simp [transparent,continueWith,settle,yieldsAgain,closeResult] at hout
  | true =>
    simp only [if_true,true_and]
    cases rest with
    | nil =>
      simp only [iff_true]
      intro run
      exact congrArg (closeResult P) (hthrow.mpr ⟨hr,rfl⟩ run)
    | cons v rest =>
      have hd : st.cell.drains=[v::rest] := hin.drains
      simp only [reduceCtorEq,iff_false]
      intro h
      have hstep := stepGenerator_drains (P := P) passesOn
        {st.cell with pendingThrow := some P.generatorExit} P.none w hin.started hin.finished
        hin.closed hd
      have hout := congrArg Prod.fst (h passesOn)
      rw [throwInto,hlive,hr,if_pos rfl,hstep] at hout
      simp [transparent,continueWith,settle,passesOn,closeResult,P.exit_isExit] at hout

end Cases

end Delegation

/-- The exceptions of a small protocol: texts. -/
theorem texts_exit : (("GeneratorExit" : String)=="GeneratorExit")=true := rfl

def texts : Exits Nat String where
  none := 0
  isNone v := v==0
  cannotSend := "TypeError"
  stopIteration v := if v=0 then "StopIteration" else "StopIteration!"
  generatorExit := "GeneratorExit"
  ignoredExit := "RuntimeError"
  isException x := x != "NameError"
  isStop x := x=="StopIteration"||x=="StopIteration!"
  stopValue _ := 0
  isExit x := x=="GeneratorExit"
  exit_isExit := texts_exit

/-- Suspended in a statement, inside `yield from` of an iterable. -/
def draining (rest : List Nat) : Status Nat String :=
  ⟨true,false,false,true,0,none,some 0,none,if rest.isEmpty then [] else [rest]⟩

/-- Suspended in a statement, inside `yield from` of a generator. -/
def delegating (sub : Nat) : Status Nat String :=
  ⟨true,false,false,true,0,none,none,some sub,[]⟩

end InterpretThis.Generator
