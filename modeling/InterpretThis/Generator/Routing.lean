import InterpretThis.Framework.Refinement
import InterpretThis.Generator.Eval
import Mathlib.Data.List.Basic
import Mathlib.Logic.Function.Basic

namespace InterpretThis.Generator

/-- A generator body on the evaluation stack. An eager one is known by the place of its buffer,
counted from the bottom of `yield_stack`. -/
inductive Owner where
  | eager (n : Nat)
  | suspended (id : Nat)
  deriving DecidableEq

def Owner.number : Owner → Option Nat
  | eager n => some n
  | suspended _ => none

def Owner.id : Owner → Option Nat
  | suspended id => some id
  | eager _ => none

/-- The two stacks that yield expressions consult and the registers of the suspended generators.
`bodies` is the evaluation stack itself, which the interpreter does not record. Innermost first. -/
structure Machine (V X : Type) where
  yieldStack : List (List V)
  activeStack : List Nat
  frames : Nat → Cell V X
  bodies : List Owner

/-- What a step does with the values of a yield expression or with the answer to one. -/
inductive Event (V : Type) where
  | silent
  | answered (id : Nat)
  | buffered (n : Nat) (vs : List V)
  | handed (id : Nat) (v : V)
  | outside

/-- The generator that an event belongs to. -/
def Event.owner {V : Type} : Event V → Option Owner
  | silent => none
  | answered id => some (.suspended id)
  | buffered n _ => some (.eager n)
  | handed id _ => some (.suspended id)
  | outside => none

/-- The steps of an evaluation. A yield expression begins, evaluates its operand by further steps,
and delivers. -/
inductive Op (V X : Type) where
  /-- A generator function with the eager fallback is called, or its body ends. -/
  | call
  | leaveCall
  /-- `step_generator` runs the body of a generator with the answer of the driver; a delegate that
  ended forces the resumption. -/
  | resume (id : Nat) (answer : Except X V) (forced : Bool)
  | leave
  /-- A statement of a suspended body completes. -/
  | complete
  | beginYield
  | beginYieldFrom
  /-- A yield delivers its value. A statement sets the resume flag when it suspends, a condition
  does not. -/
  | deliver (v : V) (direct : Bool)
  /-- `yield from` delivers the items of an iterable. -/
  | deliverFrom (items : List V) (ret : V) (direct : Bool)
  /-- `yield from` delivers the first item of a generator that stays suspended. -/
  | deliverDelegate (source : V) (v : V) (direct : Bool)

namespace Machine

variable {V X : Type} (none : V)

def setFrame (m : Machine V X) (id : Nat) (c : Cell V X) : Machine V X :=
  {m with frames := Function.update m.frames id c}

def pop (m : Machine V X) : Machine V X := {m with bodies := m.bodies.tail}

/-- A yield expression looks first whether the innermost suspended generator is resuming. -/
def begin (take : Cell V X → Except X V×Cell V X) (m : Machine V X) : Machine V X×Event V :=
  match m.activeStack with
  | [] => (m,.silent)
  | id::_ =>
    if (m.frames id).resumeAtYield then (m.setFrame id (take (m.frames id)).2,.answered id)
    else (m,.silent)

/-- The body of a generator is left at a yield. -/
def suspend (m : Machine V X) (id : Nat) (direct : Bool) (c : Cell V X → Cell V X) :
    Machine V X :=
  {m with
    activeStack := m.activeStack.tail
    bodies := m.bodies.tail
    frames := Function.update m.frames id
      {c (m.frames id) with resumeAtYield := direct||(m.frames id).resumeAtYield}}

/-- The open buffer comes first, then the innermost suspended generator. -/
def deliver (m : Machine V X) (vs : List V) (direct : Bool) (c : Cell V X → Cell V X) :
    Machine V X×Event V :=
  match m.yieldStack,m.activeStack,vs with
  | b::bs,_,v::vs => ({m with yieldStack := (b++v::vs)::bs},.buffered bs.length (v::vs))
  | _::_,_,[] => (m,.silent)
  | [],id::_,v::_ => (m.suspend id direct c,.handed id v)
  | [],_::_,[] => (m,.silent)
  | [],[],_ => (m,.outside)

/-- The registers after `yield from` has taken over an iterable. -/
def tookOver (items : List V) (ret : V) (c : Cell V X) : Cell V X :=
  {c with
    yieldFromReturn := some ret
    drains := match items with
      | _::v::rest => (v::rest)::c.drains
      | _ => c.drains}

def answer (c : Cell V X) (forced : Bool) : Except X V → Cell V X
  | .ok v => {c with sendValue := v, resumeAtYield := forced||c.resumeAtYield}
  | .error x => {c with pendingThrow := some x, resumeAtYield := forced||c.resumeAtYield}

def step (m : Machine V X) : Op V X → Option (Machine V X×Event V)
  | .call => some ({m with
      yieldStack := []::m.yieldStack, bodies := .eager m.yieldStack.length::m.bodies},.silent)
  | .leaveCall => match m.bodies with
    | .eager _::_ => some ({m.pop with yieldStack := m.yieldStack.tail},.silent)
    | _ => .none
  | .resume id r forced => some ({m.setFrame id (answer (m.frames id) forced r) with
      activeStack := id::m.activeStack, bodies := .suspended id::m.bodies},.silent)
  | .leave => match m.bodies with
    | .suspended _::_ => some ({m.pop with activeStack := m.activeStack.tail},.silent)
    | _ => .none
  | .complete => match m.bodies,m.activeStack with
    | .suspended _::_,id::_ =>
      some (m.setFrame id {m.frames id with resumeAtYield := false},.silent)
    | _,_ => .none
  | .beginYield => some (m.begin (Cell.takeSent none))
  | .beginYieldFrom => some (m.begin (Cell.takeReturn none))
  | .deliver v direct => some (m.deliver [v] direct id)
  | .deliverFrom items ret direct => some (m.deliver items direct (tookOver items ret))
  | .deliverDelegate source v direct =>
    if m.yieldStack.isEmpty then
      some (m.deliver [v] direct fun c => {c with delegatingTo := some source})
    else .none

/-- The event belongs to the body that is being evaluated. -/
def Own (m : Machine V X) (e : Event V) : Prop := ∀o, e.owner=some o → m.bodies.head?=some o

/-- When a yield expression finds its own generator: in an eager body no suspended generator
around it may be resuming, in a suspended body no buffer may be open. -/
def Meets (m : Machine V X) : Op V X → Prop
  | .beginYield | .beginYieldFrom => ∀n, m.bodies.head?=some (.eager n) →
      ∀id, m.activeStack.head?=some id → (m.frames id).resumeAtYield=false
  | .deliver .. | .deliverDelegate .. => ∀id, m.bodies.head?=some (.suspended id) → m.yieldStack=[]
  | .deliverFrom items .. => items≠[] → ∀id,
      m.bodies.head?=some (.suspended id) → m.yieldStack=[]
  | _ => True

/-- The eager bodies, numbered by their buffers, and the suspended ones stand in the order of the
two stacks. -/
structure Tracks (m : Machine V X) : Prop where
  eager : m.bodies.filterMap Owner.number=(List.range m.yieldStack.length).reverse
  suspended : m.bodies.filterMap Owner.id=m.activeStack

variable {m : Machine V X}

theorem Tracks.head_eager (h : m.Tracks) {n : Nat} (hb : m.bodies.head?=some (.eager n)) :
    ∃b bs, m.yieldStack=b::bs ∧ n=bs.length := by
  obtain ⟨rest,hrest⟩ := List.head?_eq_some_iff.mp hb
  have hn := h.eager
  rw [hrest] at hn
  cases hy : m.yieldStack with
  | nil =>
    rw [hy] at hn
    cases hn
  | cons b bs =>
    rw [hy,List.length_cons,List.range_succ,List.reverse_append] at hn
    refine ⟨b,bs,rfl,?_⟩
    exact (List.cons.inj hn).1

theorem Tracks.head_suspended (h : m.Tracks) {id : Nat} (hb : m.bodies.head?=some (.suspended id)) :
    m.activeStack.head?=some id := by
  obtain ⟨rest,hrest⟩ := List.head?_eq_some_iff.mp hb
  rw [← h.suspended,hrest]
  rfl

theorem Tracks.of_nil (h : m.Tracks) (hb : m.bodies=[]) : m.yieldStack=[] ∧ m.activeStack=[] := by
  have he := h.eager
  have hs := h.suspended
  rw [hb] at he hs
  refine ⟨?_,hs.symm⟩
  have := congrArg List.length he
  simpa using this.symm

theorem Tracks.of_stacks {m m' : Machine V X} (h : m.Tracks) (hb : m'.bodies=m.bodies)
    (hy : m'.yieldStack.length=m.yieldStack.length) (ha : m'.activeStack=m.activeStack) :
    m'.Tracks := by
  constructor
  · rw [hb,hy]
    exact h.eager
  · rw [hb,ha]
    exact h.suspended

theorem tracks_begin (h : m.Tracks) (take : Cell V X → Except X V×Cell V X) :
    (m.begin take).1.Tracks := by
  unfold begin
  split
  · exact h
  · split
    · exact h.of_stacks rfl rfl rfl
    · exact h

theorem tracks_pop_suspended {m m' : Machine V X} (h : m.Tracks) {id : Nat} {rest : List Owner}
    (hb : m.bodies=.suspended id::rest) (hb' : m'.bodies=rest) (hy : m'.yieldStack=m.yieldStack)
    (ha : m'.activeStack=m.activeStack.tail) : m'.Tracks := by
  have he := h.eager
  have hs := h.suspended
  rw [hb] at he hs
  constructor
  · rw [hb',hy]
    exact he
  · rw [hb',ha,← hs]
    rfl

theorem tracks_deliver (h : m.Tracks) (vs : List V) (direct : Bool) (c : Cell V X → Cell V X) :
    (m.deliver vs direct c).1.Tracks := by
  unfold deliver
  split
  · rename_i hy
    exact h.of_stacks rfl (by simp [hy]) rfl
  · exact h
  · rename_i id ids v vs hy ha
    -- without a buffer the innermost body is the suspended one that yields
    cases hb : m.bodies with
    | nil =>
      rw [(h.of_nil hb).2] at ha
      cases ha
    | cons o rest =>
      cases o with
      | eager n =>
        obtain ⟨b,bs,hbs,-⟩ := h.head_eager (n := n) (by rw [hb]; rfl)
        rw [hbs] at hy
        cases hy
      | suspended id' =>
        exact tracks_pop_suspended h hb (by simp [suspend,hb]) rfl rfl
  · exact h
  · exact h

theorem tracks_step {m m' : Machine V X} {op : Op V X} {e : Event V} (h : m.Tracks)
    (hs : step none m op=some (m',e)) : m'.Tracks := by
  cases op with
  | call =>
    cases hs
    constructor
    · rw [List.length_cons,List.range_succ,List.reverse_append]
      simp [Owner.number,h.eager]
    · exact h.suspended
  | leaveCall =>
    simp only [step] at hs
    split at hs
    · rename_i n rest hb
      cases hs
      have he := h.eager
      have hsus := h.suspended
      obtain ⟨b,bs,hy,-⟩ := h.head_eager (n := n) (by rw [hb]; rfl)
      rw [hb] at hsus
      rw [hb,hy,List.length_cons,List.range_succ,List.reverse_append] at he
      constructor
      · simp only [pop,hb,hy,List.tail_cons]
        exact (List.cons.inj he).2
      · simp only [pop,hb,List.tail_cons]
        exact hsus
    · cases hs
  | resume id r forced =>
    cases hs
    constructor
    · exact h.eager
    · simpa [Owner.id,setFrame] using h.suspended
  | leave =>
    simp only [step] at hs
    split at hs
    · rename_i id rest hb
      cases hs
      exact tracks_pop_suspended h hb (by simp [pop,hb]) rfl rfl
    · cases hs
  | complete =>
    simp only [step] at hs
    split at hs
    · cases hs
      exact h.of_stacks rfl rfl rfl
    · cases hs
  | beginYield =>
    obtain rfl := congrArg Prod.fst (Option.some.inj hs)
    exact tracks_begin h _
  | beginYieldFrom =>
    obtain rfl := congrArg Prod.fst (Option.some.inj hs)
    exact tracks_begin h _
  | deliver v direct =>
    obtain rfl := congrArg Prod.fst (Option.some.inj hs)
    exact tracks_deliver h _ _ _
  | deliverFrom items ret direct =>
    obtain rfl := congrArg Prod.fst (Option.some.inj hs)
    exact tracks_deliver h _ _ _
  | deliverDelegate source v direct =>
    simp only [step] at hs
    split at hs
    · obtain rfl := congrArg Prod.fst (Option.some.inj hs)
      exact tracks_deliver h _ _ _
    · cases hs

theorem own_silent (m : Machine V X) : m.Own .silent := by
  intro o h
  cases h

theorem own_begin_iff (h : m.Tracks) (take : Cell V X → Except X V×Cell V X) :
    m.Own (m.begin take).2 ↔ ∀n, m.bodies.head?=some (.eager n) →
      ∀id, m.activeStack.head?=some id → (m.frames id).resumeAtYield=false := by
  unfold begin
  cases ha : m.activeStack with
  | nil => exact ⟨fun _ _ _ _ hid => (nomatch hid),fun _ => own_silent m⟩
  | cons id ids =>
    simp only [List.head?_cons,Option.some.injEq,forall_eq']
    cases hr : (m.frames id).resumeAtYield with
    | false => exact ⟨fun _ _ _ => rfl,fun _ => own_silent m⟩
    | true =>
      -- the answer is the one of the innermost suspended generator
      simp only [if_true,Bool.true_eq_false,imp_false]
      constructor
      · intro hown n hb
        rw [hown _ rfl] at hb
        cases hb
      · intro hb o ho
        obtain rfl := Option.some.inj ho
        cases hh : m.bodies with
        | nil =>
          rw [(h.of_nil hh).2] at ha
          cases ha
        | cons o rest =>
          cases o with
          | eager n => exact absurd (by rw [hh]; rfl) (hb n)
          | suspended id' =>
            have : m.activeStack.head?=some id' := h.head_suspended (by rw [hh]; rfl)
            rw [ha] at this
            cases this
            rfl

theorem own_deliver_iff (h : m.Tracks) (vs : List V) (direct : Bool) (c : Cell V X → Cell V X) :
    m.Own (m.deliver vs direct c).2 ↔ (vs≠[] → ∀id, m.bodies.head?=some (.suspended id) →
      m.yieldStack=[]) := by
  unfold deliver
  cases vs with
  | nil =>
    have hown : m.Own (match m.yieldStack,m.activeStack,([] : List V) with
        | b::bs,_,v::vs => ({m with yieldStack := (b++v::vs)::bs},.buffered bs.length (v::vs))
        | _::_,_,[] => (m,.silent)
        | [],id::_,v::_ => (m.suspend id direct c,.handed id v)
        | [],_::_,[] => (m,.silent)
        | [],[],_ => (m,.outside) : Machine V X×Event V).2 := by
      intro o ho
      cases hy : m.yieldStack <;> cases ha : m.activeStack <;> rw [hy,ha] at ho <;> cases ho
    exact ⟨fun _ hne => absurd rfl hne,fun _ => hown⟩
  | cons v vs =>
    cases hy : m.yieldStack with
    | nil =>
      refine ⟨fun _ _ _ _ => rfl,fun _ o ho => ?_⟩
      cases ha : m.activeStack with
      | nil =>
        rw [ha] at ho
        cases ho
      | cons id ids =>
        rw [ha] at ho
        obtain rfl := Option.some.inj ho
        cases hh : m.bodies with
        | nil =>
          rw [(h.of_nil hh).2] at ha
          cases ha
        | cons o rest =>
          cases o with
          | eager n =>
            obtain ⟨b,bs,hbs,-⟩ := h.head_eager (n := n) (by rw [hh]; rfl)
            rw [hbs] at hy
            cases hy
          | suspended id' =>
            have : m.activeStack.head?=some id' := h.head_suspended (by rw [hh]; rfl)
            rw [ha] at this
            cases this
            rfl
    | cons b bs =>
      constructor
      · intro hown _ id hb
        have := hown (.eager bs.length) rfl
        rw [hb] at this
        cases this
      · intro hfree o ho
        obtain rfl := Option.some.inj ho
        cases hh : m.bodies with
        | nil =>
          rw [(h.of_nil hh).1] at hy
          cases hy
        | cons o rest =>
          cases o with
          | eager n =>
            obtain ⟨b',bs',hbs,rfl⟩ := h.head_eager (n := n) (by rw [hh]; rfl)
            rw [hbs] at hy
            cases hy
            rfl
          | suspended id' =>
            have := hfree (by simp) id' (by rw [hh]; rfl)
            cases this

/-- What one step of a tracked evaluation delivers. -/
theorem own_step_iff {m m' : Machine V X} {op : Op V X} {e : Event V} (h : m.Tracks)
    (hs : step none m op=some (m',e)) : m.Own e ↔ m.Meets op := by
  cases op with
  | call =>
    cases hs
    exact ⟨fun _ => trivial,fun _ => own_silent m⟩
  | leaveCall =>
    simp only [step] at hs
    split at hs <;> cases hs
    exact ⟨fun _ => trivial,fun _ => own_silent m⟩
  | resume id r forced =>
    cases hs
    exact ⟨fun _ => trivial,fun _ => own_silent m⟩
  | leave =>
    simp only [step] at hs
    split at hs <;> cases hs
    exact ⟨fun _ => trivial,fun _ => own_silent m⟩
  | complete =>
    simp only [step] at hs
    split at hs <;> cases hs
    exact ⟨fun _ => trivial,fun _ => own_silent m⟩
  | beginYield =>
    obtain rfl := congrArg Prod.snd (Option.some.inj hs)
    exact own_begin_iff h _
  | beginYieldFrom =>
    obtain rfl := congrArg Prod.snd (Option.some.inj hs)
    exact own_begin_iff h _
  | deliver v direct =>
    obtain rfl := congrArg Prod.snd (Option.some.inj hs)
    rw [own_deliver_iff h]
    simp [Meets]
  | deliverFrom items ret direct =>
    obtain rfl := congrArg Prod.snd (Option.some.inj hs)
    exact own_deliver_iff h _ _ _
  | deliverDelegate source v direct =>
    simp only [step] at hs
    split at hs
    · obtain rfl := congrArg Prod.snd (Option.some.inj hs)
      rw [own_deliver_iff h]
      simp [Meets]
    · cases hs

def idle (frames : Nat → Cell V X) : Machine V X := ⟨[],[],frames,[]⟩

theorem tracks_run {m m' : Machine V X} {ops : List (Op V X)} {es : List (Event V)} (h : m.Tracks)
    (hr : Refinement.run (step none) m ops=some (m',es)) : m'.Tracks := by
  induction ops generalizing m es with
  | nil =>
    cases hr
    exact h
  | cons op ops ih =>
    rw [Refinement.run] at hr
    cases hs : step none m op with
    | none =>
      rw [hs] at hr
      cases hr
    | some next =>
      rw [hs] at hr
      obtain ⟨rest,hrest,hpair⟩ := Option.map_eq_some_iff.mp hr
      cases hpair
      exact ih (tracks_step none h hs) hrest

end Machine

open Machine in
/-- Over every nesting of calls and resumptions, a yield expression delivers to its own generator,
or takes the answer of its own generator, exactly when the innermost body is an eager one and no
suspended generator around it is resuming, or it is a suspended one and no buffer is open. -/
theorem yield_routed_iff {V X : Type} (none : V) (frames : Nat → Cell V X) (ops : List (Op V X))
    (m m' : Machine V X) (es : List (Event V)) (op : Op V X) (e : Event V)
    (hrun : Refinement.run (step none) (idle frames) ops=some (m,es))
    (hstep : step none m op=some (m',e)) : m.Own e ↔ m.Meets op := by
  have hidle : (idle frames).Tracks := ⟨rfl,rfl⟩
  exact own_step_iff none (tracks_run none hidle hrun) hstep

def freshCell : Cell Nat String := ⟨false,0,none,none,none,[]⟩

open Machine in
/-- An eager body that a suspended one calls gets its own value after an eager body inside it has
ended; of two suspended bodies, one driven by the other, the inner one hands its value out. -/
theorem yield_routed_nested :
    (∃m m' : Machine Nat String,∃es,Refinement.run (step 0) (idle fun _ => freshCell)
        [.resume 3 (.ok 0) false,.call,.call,.deliver 4 true,.leaveCall]=some (m,es) ∧
      step 0 m (.deliver 7 true)=some (m',.buffered 0 [7]) ∧ m.Own (.buffered 0 [7])) ∧
    ∃m m' : Machine Nat String,∃es,Refinement.run (step 0) (idle fun _ => freshCell)
        [.resume 3 (.ok 0) false,.resume 5 (.ok 0) false]=some (m,es) ∧
      step 0 m (.deliver 7 true)=some (m',.handed 5 7) ∧ m.Own (.handed 5 7) :=
  ⟨⟨_,_,_,rfl,rfl,(yield_routed_iff 0 (fun _ => freshCell)
      [.resume 3 (.ok 0) false,.call,.call,.deliver 4 true,.leaveCall] _ _ _ (.deliver 7 true) _ rfl
      rfl).mpr fun _ h => nomatch h⟩,
    ⟨_,_,_,rfl,rfl,(yield_routed_iff 0 (fun _ => freshCell)
      [.resume 3 (.ok 0) false,.resume 5 (.ok 0) false] _ _ _ (.deliver 7 true) _ rfl
      rfl).mpr fun _ _ => rfl⟩⟩

open Machine in
/-- An eager body that drives a suspended generator gets the value that the generator yields into
its own buffer. -/
theorem yield_into_other_buffer :
    ∃m m' : Machine Nat String, Refinement.run (step 0) (idle fun _ => freshCell)
      [.call,.resume 3 (.ok 0) false,.beginYield]=some (m,[.silent,.silent,.silent]) ∧
    m.bodies.head?=some (.suspended 3) ∧
    step 0 m (.deliver 7 true)=some (m',.buffered 0 [7]) ∧ m'.yieldStack=[[7]] ∧
    ¬m.Own (.buffered 0 [7]) := by
  refine ⟨_,_,rfl,rfl,rfl,rfl,fun h => ?_⟩
  have := h (.eager 0) rfl
  cases this

end InterpretThis.Generator
