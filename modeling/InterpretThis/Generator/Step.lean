import InterpretThis.Generator.Eval
import Mathlib.Data.List.Basic

namespace InterpretThis.Generator

/-- How a run of the body of a generator ends. -/
inductive BodyEnd (V X : Type) where
  | fellOff
  | yielded (v : V)
  | returned (v : V)
  | raised (x : X)

/-- The exceptions of the iteration protocol. -/
structure Exits (V X : Type) where
  none : V
  isNone : V → Bool
  /-- A value sent to a generator that has not started. -/
  cannotSend : X
  stopIteration : V → X
  generatorExit : X
  ignoredExit : X
  /-- `EvalError::Exception`; an error of the interpreter, such as a `NameError`, is none. -/
  isException : X → Bool
  isStop : X → Bool
  stopValue : X → V
  isExit : X → Bool
  exit_isExit : isExit generatorExit=true

/-- The status of a generator and the registers of its yield expressions. -/
structure Status (V X : Type) where
  started : Bool
  finished : Bool
  closed : Bool
  cell : Cell V X

inductive Call (V X : Type) where
  | next
  | send (v : V)
  | throw (x : X)
  | close

section Driver

variable {V X W : Type} (P : Exits V X)

/-- `run` is `run_generator_body`, with what it keeps of the frame in the shared state. -/
def Runner (V X W : Type) : Type := Cell V X → W → BodyEnd V X×Cell V X×W

def Driver (V X W : Type) : Type := V → Call V X → W → Except X V×W

def Status.live (st : Status V X) : Bool :=
  st.started&& !st.finished&& !st.closed&&st.cell.resumeAtYield

def Status.markClosed (st : Status V X) : Status V X :=
  {st with finished := true, closed := true, cell := {st.cell with drains := []}}

/-- The end of a step, once the body has run. -/
def settle (st : Status V X) (r : BodyEnd V X×Cell V X×W) : Except X V×Status V X×W :=
  match r.1 with
  | .fellOff => (.error (P.stopIteration P.none),{st with finished := true, cell := r.2.1},r.2.2)
  | .yielded v => (.ok v,{st with cell := r.2.1},r.2.2)
  | .returned v => (.error (P.stopIteration v),{st with finished := true, cell := r.2.1},r.2.2)
  | .raised x => (.error x,{st with finished := true, cell := r.2.1},r.2.2)

/-- What is left of a taken over iterable is given out without entering the body. -/
def drained (st : Status V X) : Option (V×Status V X) :=
  match st.cell.drains with
  | (v::rest)::ds => some (v,{st with cell := {st.cell with
      drains := if rest.isEmpty then ds else rest::ds}})
  | _ => none

/-- An exhausted drain is popped. -/
def dropDrain (c : Cell V X) : Cell V X :=
  match c.drains with
  | []::ds => {c with drains := ds}
  | _ => c

def stepGenerator (run : Runner V X W) (st : Status V X) (send : V) (w : W) :
    Except X V×Status V X×W :=
  if st.closed||st.finished then (.error (P.stopIteration P.none),st,w)
  else match (if st.started then drained st else none) with
    | some (v,st') => (.ok v,st',w)
    | none =>
      let c := if st.started then dropDrain st.cell else st.cell
      let st' := {st with started := true}
      settle P st' (run {c with sendValue := send} w)

def throwInto (run : Runner V X W) (st : Status V X) (x : X) (w : W) : Except X V×Status V X×W :=
  if st.live then stepGenerator P run {st with cell := {st.cell with pendingThrow := some x}} P.none w
  else (.error x,{st with finished := true, closed := true},w)

/-- `forward_to_delegate`: while the delegate yields, the generator stays where it is. -/
def forwardToDelegate (run : Runner V X W) (drive : Driver V X W) (sub : V) (st : Status V X)
    (call : Call V X) (w : W) : Except X V×Status V X×W :=
  match drive sub call w with
  | (.ok v,w') => (.ok v,st,w')
  | (.error x,w') =>
    if !P.isException x then (.error x,st,w')
    else if P.isStop x then
      stepGenerator P run {st with cell := {st.cell with
        delegatingTo := none, yieldFromReturn := some (P.stopValue x), resumeAtYield := true}}
        P.none w'
    else
      stepGenerator P run {st with cell := {st.cell with
        delegatingTo := none, pendingThrow := some x, resumeAtYield := true}} P.none w'

/-- The result of closing, once `GeneratorExit` has been raised in the body. -/
def closeResult (r : Except X V×Status V X×W) : Except X V×Status V X×W :=
  match r.1 with
  | .error x => if P.isExit x||P.isStop x then (.ok P.none,r.2.1.markClosed,r.2.2)
    else (.error x,r.2.1.markClosed,r.2.2)
  | .ok _ => (.error P.ignoredExit,r.2.1.markClosed,r.2.2)

def closeSelf (run : Runner V X W) (st : Status V X) (w : W) : Except X V×Status V X×W :=
  if st.live then closeResult P (throwInto P run st P.generatorExit w)
  else (.ok P.none,st.markClosed,w)

def dispatchSuspended (run : Runner V X W) (drive : Driver V X W) (st : Status V X)
    (call : Call V X) (w : W) : Except X V×Status V X×W :=
  match call,st.cell.delegatingTo with
  | .close,some sub =>
    match drive sub .close w with
    | (.error x,w') => (.error x,st,w')
    | (.ok _,w') => closeSelf P run {st with cell := {st.cell with delegatingTo := none}} w'
  | .close,none => closeSelf P run st w
  | call,some sub => forwardToDelegate P run drive sub st call w
  | .next,none => stepGenerator P run st P.none w
  | .send v,none =>
    if !st.started&& !P.isNone v then (.error P.cannotSend,st,w) else stepGenerator P run st v w
  | .throw x,none => throwInto P run st x w

end Driver

end InterpretThis.Generator
