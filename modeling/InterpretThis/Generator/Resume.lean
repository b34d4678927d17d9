import InterpretThis.Generator.Course

namespace InterpretThis.Generator

open Resumption

section Relation

variable {W V X A B : Type}

/-- An answer leaves the resume flag set and the records under the names of a suspension alone. -/
structure Keeps (y : Suspension V) (g g' : Regs V X) : Prop where
  fors : ∀target, .forLoop target ∈ y.names →
    g'.loops.forStack.lookup target=g.loops.forStack.lookup target
  whiles : ∀offset, .whileLoop offset ∈ y.names →
    g'.loops.whileResume.lookup offset=g.loops.whileResume.lookup offset
  resume : g.cell.resumeAtYield=true → g'.cell.resumeAtYield=true

/-- A course never ends in a yield. -/
def Settled (r : Except (Signal V X) A) : Prop := ∀v, r≠.error (.yielded v)

theorem settled_ok (a : A) : Settled (.ok a : Except (Signal V X) A) := fun _ h => (nomatch h)

theorem settled_exc (x : X) : Settled (.error (.exc x) : Except (Signal V X) A) :=
  fun _ h => (nomatch h)

theorem settled_error {e : Signal V X} (h : Settled (.error e : Except (Signal V X) A)) :
    Settled (.error e : Except (Signal V X) B) := fun v hv => h v (by cases hv; rfl)

/-- How the end of a course, and a suspension of it, show in a run of the engine, and what is run
when the suspension has been answered. -/
structure Shape (W V X A B : Type) where
  ends : Except (Signal V X) A → Except (Signal V X) B
  yields : Suspension V → Except (Signal V X) B
  rerun : Suspension V → Stepping W V X B

def Shape.whole (c : Stepping W V X A) : Shape W V X A A :=
  ⟨id,fun y => .error (.yielded y.value),fun _ => c⟩

def stepOf : Except (Signal V X) Unit → TryStep V X
  | .ok () => .completed
  | .error s => .errored s

def Shape.walk (body : Nat → Stepping W V X (TryStep V X)) : Shape W V X Unit (TryStep V X) :=
  ⟨fun r => .ok (stepOf r),fun y => .ok (.yielded y.index y.value),fun y => body y.index⟩

/-- A run of the engine does what a course does up to its next suspension, with the same registers
and loop records, and so does every run that follows. The records are empty when it ends. -/
def Resumes (calm : Cell V X → Prop) (sh : Shape W V X A B) :
    Process (Suspension V) (Regs V X×W) (Except (Signal V X) A) →
    Process Empty (Frame V X×W) (Except (Signal V X) B) → Prop
  | .done r s,q => q=.done (sh.ends r) (⟨s.1,.empty⟩,s.2) ∧ Settled r ∧ calm s.1.cell
  | .ask y s k,q => ∃st, q=.done (sh.yields y) (⟨s.1,st⟩,s.2) ∧
      ∀t, Keeps y s.1 t.1 → Resumes calm sh (k t) (sh.rerun y (⟨t.1,st⟩,t.2))
  | .diverge,_ => True

/-- A change of the hand-outs of a course. -/
structure Wrap (W V X : Type) where
  blocked : Suspension V → Bool
  tag : Suspension V → Suspension V
  save : Suspension V → Regs V X → Regs V X
  wake : Suspension V → W → Option W

def Wrap.ask (u : Wrap W V X) (y : Suspension V) (s : Regs V X×W)
    (k : Regs V X×W → Process (Suspension V) (Regs V X×W) (Except (Signal V X) A)) :
    Process (Suspension V) (Regs V X×W) (Except (Signal V X) A) :=
  if u.blocked y then .diverge
  else .ask (u.tag y) (u.save y s.1,s.2) fun t => (u.wake y t.2).elim .diverge fun w => k (t.1,w)

def Wrap.index (i : Nat) : Wrap W V X :=
  ⟨fun _ => false,fun y => {y with index := i},fun _ g => g,fun _ => some⟩

def Wrap.loop (key : LoopKey) (save : Nat → Regs V X → Regs V X) (wake : Nat → W → Option W) :
    Wrap W V X :=
  ⟨fun y => key ∈ y.names,fun y => {y with entered := key::y.entered, names := key::y.names},
    fun y => save y.index,fun y => wake y.index⟩

theorem atIndex_eq (i : Nat) (m : Course W V X A) :
    atIndex i m=m.intercept (Wrap.index i).ask := rfl

theorem inLoop_eq (key : LoopKey) (save : Nat → Regs V X → Regs V X) (wake : Nat → W → Option W)
    (m : Course W V X A) : inLoop key save wake m=m.intercept (Wrap.loop key save wake).ask := by
  unfold inLoop
  congr 1
  funext y s k
  simp [Wrap.ask,Wrap.loop]

variable {calm : Cell V X → Prop} {A' B' : Type} {sh : Shape W V X A B} {sh' : Shape W V X A' B'}
  {f : Except (Signal V X) A → Regs V X×W →
    Process (Suspension V) (Regs V X×W) (Except (Signal V X) A')}
  {q : Process Empty (Frame V X×W) (Except (Signal V X) B)}

/-- The rule for what surrounds a part: the surrounding run passes the suspensions of the part on,
with its own record added, and when it is run again it runs the part again and then goes on. What
it goes on with may depend on the run. -/
theorem Resumes.wrap {J : Type} (u : Wrap W V X) (push : Suspension V → Stacks V → Stacks V)
    {F : J → Except (Signal V X) B → Frame V X×W →
      Process Empty (Frame V X×W) (Except (Signal V X) B')}
    (hyield : ∀(j : J) y g st w, F j (sh.yields y) (⟨g,st⟩,w)=
      .done (sh'.yields (u.tag y)) (⟨u.save y g,push y st⟩,w))
    (hkeeps : ∀y g g', u.blocked y=false → Keeps (u.tag y) (u.save y g) g' → Keeps y g g')
    (hrerun : ∀y g st g' w w', Keeps (u.tag y) (u.save y g) g' → u.wake y w=some w' →
      ∃j', sh'.rerun (u.tag y) (⟨g',push y st⟩,w)=(sh.rerun y (⟨g',st⟩,w')).bind (F j'))
    (hend : ∀j r s, Settled r → calm s.1.cell →
      Resumes calm sh' (f r s) (F j (sh.ends r) (⟨s.1,.empty⟩,s.2)))
    {p : Process (Suspension V) (Regs V X×W) (Except (Signal V X) A)} (h : Resumes calm sh p q)
    (j : J) : Resumes calm sh' ((p.intercept u.ask).bind f) (q.bind (F j)) := by
  induction p generalizing q j with
  | done r s =>
    obtain ⟨rfl,hr,hc⟩ := h
    exact hend j r s hr hc
  | ask y s k ih =>
    obtain ⟨st,rfl,hk⟩ := h
    simp only [Process.intercept,Wrap.ask]
    cases hb : u.blocked y with
    | true => exact trivial
    | false =>
      refine ⟨push y st,hyield j y s.1 st s.2,fun t ht => ?_⟩
      show Resumes calm sh' (((u.wake y t.2).elim .diverge fun w =>
        (k (t.1,w)).intercept u.ask).bind f) _
      cases hw : u.wake y t.2 with
      | none => exact trivial
      | some w =>
        obtain ⟨j',hj'⟩ := hrerun y s.1 st t.1 t.2 w ht hw
        rw [hj']
        exact ih (t.1,w) (hk (t.1,w) (hkeeps y s.1 t.1 hb ht)) j'
  | diverge => exact trivial

/-- The rule without a change of the hand-outs. -/
theorem Resumes.bind (push : Suspension V → Stacks V → Stacks V)
    {F : Except (Signal V X) B → Frame V X×W →
      Process Empty (Frame V X×W) (Except (Signal V X) B')}
    (hyield : ∀y g st w, F (sh.yields y) (⟨g,st⟩,w)=.done (sh'.yields y) (⟨g,push y st⟩,w))
    (hrerun : ∀y st g w, sh'.rerun y (⟨g,push y st⟩,w)=(sh.rerun y (⟨g,st⟩,w)).bind F)
    (hend : ∀r s, Settled r → calm s.1.cell →
      Resumes calm sh' (f r s) (F (sh.ends r) (⟨s.1,.empty⟩,s.2)))
    {p : Process (Suspension V) (Regs V X×W) (Except (Signal V X) A)} (h : Resumes calm sh p q) :
    Resumes calm sh' (p.bind f) (q.bind F) := by
  induction p generalizing q with
  | done r s =>
    obtain ⟨rfl,hr,hc⟩ := h
    exact hend r s hr hc
  | ask y s k ih =>
    obtain ⟨st,rfl,hk⟩ := h
    refine ⟨push y st,hyield y s.1 st s.2,fun t ht => ?_⟩
    rw [hrerun]
    exact ih t (hk t ht)
  | diverge => exact trivial

theorem Resumes.unsuspended (b : Bool)
    {p : Process (Suspension V) (Regs V X×W) (Except (Signal V X) A)} (h : Resumes calm sh p q) :
    Resumes calm sh (p.intercept fun y s k => if b then .diverge else .ask y s k) q := by
  induction p generalizing q with
  | done r s => exact h
  | ask y s k ih =>
    obtain ⟨st,hq,hk⟩ := h
    cases b with
    | true => exact trivial
    | false => exact ⟨st,hq,fun t ht => ih t (hk t ht)⟩
  | diverge => exact trivial

theorem Resumes.leaving {sh : Shape W V X Unit B} (watched : Bool) (key : LoopKey)
    {m : Course W V X Unit} {s : Regs V X×W} (h : Resumes calm sh (m s) q) :
    Resumes calm sh (leaving watched key m s) q := by
  unfold Generator.leaving
  generalize m s=p at h
  induction p generalizing q with
  | done r t =>
    cases r with
    | ok u => exact h
    | error e =>
      simp only [Process.bind_done]
      cases watched&&t.1.recorded key with
      | true => exact trivial
      | false => exact h
  | ask y t k ih =>
    obtain ⟨st,hq,hk⟩ := h
    exact ⟨st,hq,fun u hu => ih u (hk u hu)⟩
  | diverge => exact trivial

end Relation

section Plain

variable {W V X L α β : Type} (E : Effects W V X L)

/-- A computation that only touches the shared state and never yields, whatever stands beside it. -/
def Plainly (c : ∀Y A : Type, Comp Y (A×W) (Signal V X) α) : Prop :=
  ∀w, ∃r w', Settled r ∧ ∀(Y A : Type) (a : A), c Y A (a,w)=.done r (a,w')

theorem plainly_pure (a : α) : Plainly (W := W) (V := V) (X := X) fun _ _ => pure a :=
  fun w => ⟨.ok a,w,settled_ok a,fun _ _ _ => rfl⟩

theorem plainly_throw {s : Signal V X} (h : Settled (.error s : Except (Signal V X) α)) :
    Plainly (W := W) (V := V) (X := X) fun _ _ => (Comp.throw s : Comp _ _ _ α) :=
  fun w => ⟨.error s,w,h,fun _ _ _ => rfl⟩

theorem plainly_liftE (f : W → Except X α×W) : Plainly (V := V) fun _ _ => liftE f := by
  intro w
  refine ⟨(f w).1.mapError .exc,(f w).2,?_,fun _ _ _ => rfl⟩
  cases (f w).1 with
  | ok a => exact settled_ok a
  | error x => exact settled_exc x

theorem plainly_modifyW (f : W → W) : Plainly (V := V) (X := X) fun _ _ => modifyW f :=
  fun w => ⟨.ok (),f w,settled_ok (),fun _ _ _ => rfl⟩

variable {c : ∀Y A : Type, Comp Y (A×W) (Signal V X) α}

theorem Plainly.bind {f : α → ∀Y A : Type, Comp Y (A×W) (Signal V X) β} (hc : Plainly c)
    (hf : ∀a, Plainly (f a)) : Plainly fun Y A => c Y A>>=fun a => f a Y A := by
  intro w
  obtain ⟨r,w',hr,h⟩ := hc w
  cases r with
  | ok a =>
    obtain ⟨r',w'',hr',h'⟩ := hf a w'
    exact ⟨r',w'',hr',fun Y A b => (Comp.bind_of_done (h Y A b)).trans (h' Y A b)⟩
  | error e => exact ⟨.error e,w',settled_error hr,fun Y A b => Comp.bind_of_error (h Y A b)⟩

theorem Plainly.attempt {f : Except (Signal V X) α → ∀Y A : Type, Comp Y (A×W) (Signal V X) β}
    (hc : Plainly c) (hf : ∀r, Settled r → Plainly (f r)) :
    Plainly fun Y A => (c Y A).attempt>>=fun r => f r Y A := by
  intro w
  obtain ⟨r,w',hr,h⟩ := hc w
  obtain ⟨r',w'',hr',h'⟩ := hf r hr w'
  refine ⟨r',w'',hr',fun Y A b => (Comp.attempt_bind _ _ _).trans ?_⟩
  rw [h]
  exact h' Y A b

theorem plainly_ite (b : Bool) {c d : ∀Y A : Type, Comp Y (A×W) (Signal V X) α} (hc : Plainly c)
    (hd : Plainly d) : Plainly fun Y A => if b then c Y A else d Y A := by
  cases b
  · exact hd
  · exact hc

theorem plainly_rebind (target : String) (v : V) (index : Nat) :
    Plainly fun _ _ => rebind E target v index := by
  unfold rebind
  split
  · exact plainly_liftE _
  · exact plainly_pure ()

theorem plainly_pull (source : V) : Plainly fun _ _ => pull E source := by
  refine (plainly_liftE (E.next source)).attempt fun r hr => ?_
  cases r with
  | ok v => exact plainly_pure _
  | error s =>
    cases s with
    | exc x => exact plainly_ite (E.isStop x) (plainly_pure none) (plainly_throw (settled_exc x))
    | _ => exact plainly_throw (settled_error hr)

theorem plainly_itemAt (target : String) (source : V) (current : Option (V×Nat)) :
    Plainly fun _ _ => itemAt E target source current := by
  cases current with
  | some c => exact plainly_pure _
  | none =>
    refine (plainly_pull E source).bind fun o => ?_
    cases o with
    | none => exact plainly_pure none
    | some v => exact (plainly_liftE _).bind fun _ => plainly_pure _

theorem plainly_bindName (name : Option String) (v : V) : Plainly fun _ _ => bindName E name v := by
  cases name with
  | none => exact plainly_pure ()
  | some n => exact plainly_liftE _

theorem plainly_unbindName (name : Option String) : Plainly fun _ _ => unbindName E name := by
  cases name with
  | none => exact plainly_pure ()
  | some n => exact plainly_modifyW _

theorem plainly_exitEach (managers : List V) (pending : Option X) :
    Plainly fun _ _ => exitEach E managers pending := by
  induction managers generalizing pending with
  | nil => exact plainly_pure pending
  | cons cm cms ih =>
    refine (plainly_liftE (E.exitContext cm pending)).attempt fun r hr => ?_
    cases r with
    | ok suppress => exact ih _
    | error s =>
      cases s with
      | exc x => exact ih _
      | _ => exact plainly_throw (settled_error hr)

theorem plainly_raised (pending : Option X) : Plainly (W := W) (V := V) fun _ _ =>
    (match pending with | some x => Comp.throw (.exc x) | none => pure () : Comp _ _ _ Unit) := by
  cases pending with
  | none => exact plainly_pure ()
  | some x => exact plainly_throw (settled_exc x)

theorem plainly_exitContextManagers (managers : List V) {r : Except (Signal V X) Unit}
    (hr : Settled r) : Plainly fun _ _ => exitContextManagers E managers r := by
  cases r with
  | ok u => exact (plainly_exitEach E _ _).bind plainly_raised
  | error s =>
    cases s with
    | exc x => exact (plainly_exitEach E _ _).bind plainly_raised
    | _ => exact (plainly_exitEach E _ _).bind fun _ => plainly_throw hr

end Plain

section Redone

variable {W V X A A' B' L : Type} {calm : Cell V X → Prop}

/-- A part is run again from its start after every answer, with `mark` done to the registers when
it yields, and each run does what the course of the part does next. -/
def Redoes (calm : Cell V X → Prop) (mark : Cell V X → Cell V X)
    (m : Comp Empty (Cell V X×W) (Signal V X) A) :
    Process V (Cell V X×W) (Except (Signal V X) A) →
    Process Empty (Cell V X×W) (Except (Signal V X) A) → Prop
  | .done r s,q => q=.done r s ∧ Settled r ∧ calm s.1
  | .ask v s k,q => ∃c, s.1=mark c ∧ q=.done (.error (.yielded v)) (c,s.2) ∧
      ∀t, (s.1.resumeAtYield=true → t.1.resumeAtYield=true) → Redoes calm mark m (k t) (m t)
  | .diverge,_ => True

/-- The evaluator gives the courses of the parts that the engine runs again. -/
structure Adequate (E : Effects W V X L) (fuel : Nat) (calm : Cell V X → Prop)
    (ev : Evaluator W V X L) : Prop where
  cleared : ∀c : Cell V X, calm {c with resumeAtYield := false}
  stmt : ∀s t, calm t.1 → Redoes calm (fun c => {c with resumeAtYield := true})
    (evalStmt E (suspendedly E) fuel s) (ev.stmt s t) (evalStmt E (suspendedly E) fuel s t)
  test : ∀e t, calm t.1 → Redoes calm id (evalTest E (suspendedly E) e) (ev.test e t)
    (evalTest E (suspendedly E) e t)
  iter : ∀e t, calm t.1 → Redoes calm id (evalExpr E (suspendedly E) e) (ev.iter e t)
    (evalExpr E (suspendedly E) e t)
  items : ∀l t, calm t.1 → Redoes calm id (enterItems E (suspendedly E) l []) (ev.items l t)
    (enterItems E (suspendedly E) l [] t)

theorem ahead_inRegs (key : LoopKey) (m : Comp V (Cell V X×W) (Signal V X) A) :
    ahead key (inRegs m)=m.within (fun v => ⟨v,0,[],[key]⟩) Regs.cell fun g c => {g with cell := c} := by
  funext s
  unfold ahead inRegs Comp.intercept Comp.within
  generalize m (s.1.cell,s.2)=p
  generalize s.1=g
  induction p generalizing g with
  | done r t => rfl
  | ask v t k ih =>
    simp only [Process.within,Process.intercept]
    congr 1
    funext u
    exact ih (u.1.cell,u.2) u.1
  | diverge => rfl

/-- The rule for a part that is run again as a whole, with what surrounds it. -/
theorem Redoes.resumes {mark : Cell V X → Cell V X} {sh : Shape W V X A' B'}
    (tag : V → Suspension V) (P : Loops V → Prop)
    {m : Comp Empty (Cell V X×W) (Signal V X) A}
    {f : Except (Signal V X) A → Regs V X×W →
      Process (Suspension V) (Regs V X×W) (Except (Signal V X) A')}
    {F : Except (Signal V X) A → Frame V X×W →
      Process Empty (Frame V X×W) (Except (Signal V X) B')}
    (hkeep : ∀v (g g' : Regs V X), P g.loops → Keeps (tag v) g g' → P g'.loops)
    (hyield : ∀v g w, F (.error (.yielded v)) (⟨g,.empty⟩,w)=
      .done (sh.yields (tag v)) (⟨{g with cell := mark g.cell},.empty⟩,w))
    (hrerun : ∀v g w, P g.loops →
      sh.rerun (tag v) (⟨g,.empty⟩,w)=(onCell m (⟨g,.empty⟩,w)).bind F)
    (hend : ∀r g w, P g.loops → Settled r → calm g.cell →
      Resumes calm sh (f r (g,w)) (F r (⟨g,.empty⟩,w)))
    {p : Process V (Cell V X×W) (Except (Signal V X) A)}
    {q : Process Empty (Cell V X×W) (Except (Signal V X) A)} (h : Redoes calm mark m p q)
    (g : Regs V X) (hg : P g.loops) :
    Resumes calm sh ((p.within tag Regs.cell (fun g c => {g with cell := c}) g).bind f)
      ((q.within id (fun f : Frame V X => f.regs.cell) (fun f c => {f with regs.cell := c})
        ⟨g,.empty⟩).bind F) := by
  induction p generalizing q g with
  | done r s =>
    obtain ⟨rfl,hr,hc⟩ := h
    exact hend r {g with cell := s.1} s.2 hg hr hc
  | ask v s k ih =>
    obtain ⟨c,hs,rfl,hk⟩ := h
    refine ⟨.empty,?_,fun t ht => ?_⟩
    · rw [hs]
      exact hyield v {g with cell := c} s.2
    · rw [hrerun v t.1 t.2 (hkeep v {g with cell := s.1} t.1 hg ht)]
      exact ih (t.1.cell,t.2) (hk _ ht.resume) t.1 (hkeep v {g with cell := s.1} t.1 hg ht)
  | diverge => exact trivial

end Redone

section Steps

variable {W V X L α : Type} {calm : Cell V X → Prop}

theorem readRegs_bind {β : Type} (f : Regs V X → α) (k : α → Stepping W V X β) (s : Frame V X×W) :
    (readRegs f>>=k) s=k (f s.1.regs) s := rfl

theorem seeRegs_bind {β : Type} (f : Regs V X → α) (k : α → Course W V X β) (s : Regs V X×W) :
    (seeRegs f>>=k) s=k (f s.1) s := rfl

variable {g : Regs V X} {c : ∀Y A : Type, Comp Y (A×W) (Signal V X) α}

theorem Plainly.resumes (hc : Plainly c) {m : Stepping W V X α} (hg : calm g.cell) (w : W) :
    Resumes calm (.whole m) (c (Suspension V) (Regs V X) (g,w))
      (c Empty (Frame V X) (⟨g,.empty⟩,w)) := by
  obtain ⟨r,w',hr,h⟩ := hc w
  rw [h,h]
  exact ⟨rfl,hr,hg⟩

theorem Plainly.bind_resumes (hc : Plainly c) {m : Stepping W V X Unit} {f : α → Course W V X Unit}
    {F : α → Stepping W V X Unit} (hg : calm g.cell) (w : W)
    (h : ∀a w', Resumes calm (.whole m) (f a (g,w')) (F a (⟨g,.empty⟩,w'))) :
    Resumes calm (.whole m) ((c (Suspension V) (Regs V X)>>=f) (g,w))
      ((c Empty (Frame V X)>>=F) (⟨g,.empty⟩,w)) := by
  obtain ⟨r,w',hr,hc⟩ := hc w
  cases r with
  | ok a =>
    rw [Comp.bind_of_done (hc _ _ g),Comp.bind_of_done (hc _ _ (⟨g,.empty⟩ : Frame V X))]
    exact h a w'
  | error e =>
    rw [Comp.bind_of_error (hc _ _ g),Comp.bind_of_error (hc _ _ (⟨g,.empty⟩ : Frame V X))]
    exact ⟨rfl,settled_error hr,hg⟩

/-- A walk follows a course from every statement on. -/
def Follows (calm : Cell V X → Prop) (body : Nat → Stepping W V X (TryStep V X))
    (course : Nat → Course W V X Unit) : Prop :=
  ∀start g w, calm g.cell →
    Resumes calm (.walk body) (course start (g,w)) (body start (⟨g,.empty⟩,w))

variable {E : Effects W V X L} {fuel : Nat} {ev : Evaluator W V X L} (watch : Watch W V X)

theorem direct_resumes (hA : Adequate E fuel calm ev) (s : Stmt L) (hg : calm g.cell) (w : W) :
    Resumes calm (.whole (direct E fuel s)) (directCourse watch ev s (g,w))
      (direct E fuel s (⟨g,.empty⟩,w)) := by
  refine Resumes.unsuspended _ ?_
  have hF : ∀t, direct E fuel s t=(onCell (evalStmt E (suspendedly E) fuel s) t).bind endDirect :=
    fun t => Comp.attempt_bind _ _ _
  rw [hF]
  have hp := Process.bind_done_right (inRegs (ev.stmt s) (g,w))
  rw [← hp]
  refine Redoes.resumes (fun v => ⟨v,0,[],[]⟩) (fun _ => True) (fun _ _ _ _ _ => trivial)
    (fun v g w => rfl) (fun v g w _ => hF _) ?_ (hA.stmt s (g.cell,w) hg) g trivial
  intro r g w _ hr hc
  cases r with
  | ok u => exact ⟨rfl,hr,hc⟩
  | error e =>
    cases e with
    | yielded v => exact absurd rfl (hr v)
    | _ => exact ⟨rfl,hr,hc⟩

theorem keeps_of_saveFor {target : String} {st : ForState V} {y : Suspension V}
    {entered : List LoopKey} {g g' : Regs V X} (hy : .forLoop target ∉ y.names)
    (h : Keeps {y with entered := entered, names := .forLoop target::y.names}
      (g.saveFor target st) g') : Keeps y g g' where
  fors t ht := by
    have hne : t≠target := fun e => hy (e ▸ ht)
    rw [h.fors t (List.mem_cons_of_mem _ ht)]
    exact AList.lookup_insert_ne hne
  whiles o ho := h.whiles o (List.mem_cons_of_mem _ ho)
  resume := h.resume

theorem keeps_of_saveWhile {offset index : Nat} {y : Suspension V} {entered : List LoopKey}
    {g g' : Regs V X} (hy : .whileLoop offset ∉ y.names)
    (h : Keeps {y with entered := entered, names := .whileLoop offset::y.names}
      (g.saveWhile offset index) g') : Keeps y g g' where
  fors t ht := h.fors t (List.mem_cons_of_mem _ ht)
  whiles o ho := by
    have hne : o≠offset := fun e => hy (e ▸ ho)
    rw [h.whiles o (List.mem_cons_of_mem _ ho)]
    exact AList.lookup_insert_ne hne
  resume := h.resume

theorem rebind_of_wake {Y A : Type} {target : String} {v : V} {i : Nat} {w w' : W}
    (h : wakeItem E watch target v i w=some w') (a : A) :
    (rebind E target v i : Comp Y (A×W) (Signal V X) Unit) (a,w)=.done (.ok ()) (a,w') := by
  unfold wakeItem at h
  unfold rebind
  split at h
  · rename_i hi
    rw [if_pos hi]
    split at h
    · rename_i w'' hset
      split at h
      · cases h
      · cases h
        simp [liftE,hset,mapError_ok]
    · cases h
  · rename_i hi
    rw [if_neg hi]
    cases h
    rfl

variable {body : Nat → Stepping W V X (TryStep V X)} {course : Nat → Course W V X Unit}

theorem runFor_of_items {target : String} {iter : Expr L} {items : List V} {pos i : Nat}
    {current : Option V} {f : Frame V X}
    (h : f.regs.loops.forStack.lookup target=some ⟨items,pos,i,none,current⟩) (w : W) :
    runFor E fuel target iter body (f,w)=
      forItems E target items body (items.drop pos) pos i (f,w) := by
  unfold runFor
  rw [readRegs_bind,h]

theorem runFor_of_lazy {target : String} {iter : Expr L} {items : List V} {pos i : Nat} {source : V}
    {current : Option V} {f : Frame V X}
    (h : f.regs.loops.forStack.lookup target=some ⟨items,pos,i,some source,current⟩) (w : W) :
    runFor E fuel target iter body (f,w)=
      forLazy E target source body fuel (current.map fun v => (v,i)) (f,w) := by
  unfold runFor
  rw [readRegs_bind,h]

theorem forItems_resumes (hb : Follows calm body course) (skipped : Bool) (target : String)
    (iter : Expr L) (items vs : List V) {pos index : Nat} {w : W} (hd : items.drop pos=vs)
    (hg : calm g.cell) :
    Resumes calm (.whole (runFor E fuel target iter body))
      (itemsCourse E watch skipped target items course vs pos index (g,w))
      (forItems E target items body vs pos index (⟨g,.empty⟩,w)) := by
  induction vs generalizing pos index g w with
  | nil =>
    unfold itemsCourse
    cases watch.skips&&skipped with
    | true => exact trivial
    | false => exact ⟨rfl,settled_ok (),hg⟩
  | cons v vs ih =>
    refine (plainly_rebind E target v index).bind_resumes hg w fun _ w' => ?_
    rw [Comp.attempt_bind,inLoop_eq]
    refine Resumes.wrap (J := Unit) (F := fun _ => Comp.next _) _ (fun _ st => st)
      (fun _ _ _ _ _ => rfl) ?_ ?_ ?_ (hb index g w' hg) ()
    · intro y g g' hy
      exact keeps_of_saveFor (of_decide_eq_false hy)
    · intro y g st g' w w' hk hw
      have hl : g'.loops.forStack.lookup target=some ⟨items,pos,y.index,none,none⟩ :=
        (hk.fors target List.mem_cons_self).trans (AList.lookup_insert _)
      refine ⟨(),(runFor_of_items hl w).trans ?_⟩
      rw [hd]
      exact Comp.bind_of_done (rebind_of_wake watch hw _)
    · intro _ r s hr hc
      have hnext : items.drop (pos+1)=vs := by
        rw [List.drop_add_one_eq_tail_drop,hd]
        rfl
      have hcont : Resumes calm (.whole (runFor E fuel target iter body))
          (itemsCourse E watch skipped target items course vs (pos+1) 0
            (s.1.advanceFor target (pos+1),s.2))
          (forItems E target items body vs (pos+1) 0
            (⟨s.1.advanceFor target (pos+1),.empty⟩,s.2)) := by
        refine ih hnext ?_
        unfold Regs.advanceFor
        split
        · exact hc
        · exact hc
      cases r with
      | ok u => exact hcont
      | error e =>
        cases e with
        | cont => exact hcont
        | brk => exact ⟨rfl,settled_ok (),hc⟩
        | yielded v => exact absurd rfl (hr v)
        | ret v => exact ⟨rfl,hr,hc⟩
        | exc x => exact ⟨rfl,hr,hc⟩

theorem forLazy_resumes (hb : Follows calm body course) (skipped : Bool) (target : String)
    (iter : Expr L) (source : V) (n : Nat) {N : Nat} {o : Option (V×Nat)} {w : W} (hn : n ≤ N)
    (hN : N ≤ fuel) (hg : calm g.cell) :
    Resumes calm (.whole (runFor E fuel target iter body))
      (lazyCourse E watch skipped target source course n o (g,w))
      (forLazy E target source body N o (⟨g,.empty⟩,w)) := by
  induction n generalizing N o g w with
  | zero => exact trivial
  | succ n ih =>
    obtain ⟨N,rfl⟩ : ∃N', N=N'+1 := ⟨N-1,by omega⟩
    refine (plainly_itemAt E target source o).bind_resumes hg w fun item w' => ?_
    cases item with
    | none =>
      simp only []
      cases watch.skips&&skipped with
      | true => exact trivial
      | false => exact ⟨rfl,settled_ok (),hg⟩
    | some item =>
      obtain ⟨v,index⟩ := item
      simp only []
      rw [Comp.attempt_bind,inLoop_eq]
      -- the run that resumes the loop has all its fuel again
      let F : {M : Nat // n ≤ M ∧ M ≤ fuel} → TryStep V X → Stepping W V X Unit := fun M =>
        afterRound (forLazy E target source body M.1 none) (modifyRegs (Regs.removeFor target))
          fun i => Regs.saveFor target ⟨[],0,i,some source,some v⟩
      refine Resumes.wrap (F := fun M => Comp.next (F M)) _ (fun _ st => st)
        (fun _ _ _ _ _ => rfl) ?_ ?_ ?_ (hb index g w' hg) ⟨N,by omega,by omega⟩
      · intro y g g' hy
        exact keeps_of_saveFor (of_decide_eq_false hy)
      · intro y g st g' w w' hk hw
        have hl : g'.loops.forStack.lookup target=some ⟨[],0,y.index,some source,some v⟩ :=
          (hk.fors target List.mem_cons_self).trans (AList.lookup_insert _)
        obtain ⟨M,hM⟩ : ∃M, fuel=M+1 := ⟨fuel-1,by omega⟩
        have hfuel : forLazy E target source body fuel (some (v,y.index))=
            forLazy E target source body (M+1) (some (v,y.index)) := by rw [hM]
        refine ⟨⟨M,by omega,by omega⟩,(runFor_of_lazy hl w).trans ?_⟩
        cases hw
        exact congrFun hfuel _
      · intro M r s hr hc
        have hcont := ih (o := none) (g := s.1) (w := s.2) M.2.1 M.2.2 hc
        cases r with
        | ok u => exact hcont
        | error e =>
          cases e with
          | cont => exact hcont
          | brk => exact ⟨rfl,settled_ok (),hc⟩
          | yielded v => exact absurd rfl (hr v)
          | ret v => exact ⟨rfl,hr,hc⟩
          | exc x => exact ⟨rfl,hr,hc⟩

theorem whileRounds_resumes (hA : Adequate E fuel calm ev) (hb : Follows calm body course)
    (skipped : Bool) (offset : Nat) (test : Expr L) (n : Nat) {N : Nat} {o : Option Nat} {w : W}
    (hn : n ≤ N) (hN : N ≤ fuel) (hg : calm g.cell) :
    Resumes calm (.whole (runWhile E fuel offset test body))
      (whileCourse watch skipped offset (unsuspended true (inRegs (ev.test test))) course n o
        (g,w))
      (whileRounds offset (onCell (evalTest E (suspendedly E) test)) body N o
        (⟨g,.empty⟩,w)) := by
  induction n generalizing N o g w with
  | zero => exact trivial
  | succ n ih =>
    obtain ⟨N,rfl⟩ : ∃N', N=N'+1 := ⟨N-1,by omega⟩
    let F : {M : Nat // n ≤ M ∧ M ≤ fuel} → TryStep V X → Stepping W V X Unit := fun M =>
      afterRound (whileRounds offset (onCell (evalTest E (suspendedly E) test)) body M.1 none)
        (modifyRegs (Regs.removeWhile offset)) (Regs.saveWhile offset)
    have round : ∀i (g : Regs V X) w, calm g.cell →
        Resumes calm (.whole (runWhile E fuel offset test body))
          (((inLoop (.whileLoop offset) (Regs.saveWhile offset) (fun _ => some)
            (course i)).attempt>>=courseRound (whileCourse watch skipped offset
              (unsuspended true (inRegs (ev.test test))) course n none)
              (changeRegs (Regs.removeWhile offset))) (g,w))
          ((body i>>=F ⟨N,by omega,by omega⟩) (⟨g,.empty⟩,w)) := by
      intro i g w hg
      rw [Comp.attempt_bind,inLoop_eq]
      refine Resumes.wrap (F := fun M => Comp.next (F M)) _ (fun _ st => st)
        (fun _ _ _ _ _ => rfl) ?_ ?_ ?_ (hb i g w hg) ⟨N,by omega,by omega⟩
      · intro y g g' hy
        exact keeps_of_saveWhile (of_decide_eq_false hy)
      · intro y g st g' w w' hk hw
        have hl : g'.loops.whileResume.lookup offset=some y.index :=
          (hk.whiles offset List.mem_cons_self).trans (AList.lookup_insert _)
        obtain ⟨M,hM⟩ : ∃M, fuel=M+1 := ⟨fuel-1,by omega⟩
        have hrun : runWhile E fuel offset test body (⟨g',st⟩,w)=
            whileRounds offset (onCell (evalTest E (suspendedly E) test)) body (M+1)
              (some y.index) (⟨g',st⟩,w) := by
          unfold runWhile
          rw [readRegs_bind,hl,hM]
        refine ⟨⟨M,by omega,by omega⟩,hrun.trans ?_⟩
        cases hw
        rfl
      · intro M r s hr hc
        have hcont := ih (o := none) (g := s.1) (w := s.2) M.2.1 M.2.2 hc
        cases r with
        | ok u => exact hcont
        | error e =>
          cases e with
          | cont => exact hcont
          | brk => exact ⟨rfl,settled_ok (),hc⟩
          | yielded v => exact absurd rfl (hr v)
          | ret v => exact ⟨rfl,hr,hc⟩
          | exc x => exact ⟨rfl,hr,hc⟩
    cases o with
    | some i => exact round i g w hg
    | none =>
      have h := hA.test test (g.cell,w) hg
      unfold whileCourse whileRounds
      simp only [Comp.bind_apply,unsuspended,inRegs,onCell,Comp.intercept,Comp.within]
      generalize ev.test test (g.cell,w)=p at h
      generalize evalTest E (suspendedly E) test (g.cell,w)=q at h
      cases p with
      | done r s =>
        obtain ⟨rfl,hr,hc⟩ := h
        cases r with
        | ok b =>
          cases b with
          | true => exact round 0 {g with cell := s.1} s.2 hc
          | false =>
            simp only [Process.within,Process.intercept,Process.bind_done,Comp.next_ok]
            cases watch.skips&&skipped with
            | true => exact trivial
            | false => exact ⟨rfl,settled_ok (),hc⟩
        | error e => exact ⟨rfl,settled_error hr,hc⟩
      | ask v s k => exact trivial
      | diverge => exact trivial

theorem runFor_resumes (hA : Adequate E fuel calm ev) (hb : Follows calm body course)
    (skipped : Bool) (target : String) (iter : Expr L) {w : W} (hg : calm g.cell) :
    Resumes calm (.whole (runFor E fuel target iter body))
      (forCourse E watch ev fuel skipped target iter course (g,w))
      (runFor E fuel target iter body (⟨g,.empty⟩,w)) := by
  unfold forCourse
  rw [seeRegs_bind]
  cases hl : g.loops.forStack.lookup target with
  | some st =>
    obtain ⟨items,pos,index,source,current⟩ := st
    cases source with
    | some source =>
      rw [runFor_of_lazy hl w]
      cases watch.stale with
      | true => exact trivial
      | false =>
        exact forLazy_resumes watch hb skipped target iter source fuel (Nat.le_refl _)
          (Nat.le_refl _) hg
    | none =>
      rw [runFor_of_items hl w]
      cases watch.stale with
      | true => exact trivial
      | false => exact forItems_resumes watch hb skipped target iter items _ rfl hg
  | none =>
    let F : V → Stepping W V X Unit := fun iterable =>
      if E.isLazy iterable then forLazy E target iterable body fuel none
      else do
        let items ← liftE (E.iter iterable)
        forItems E target items body items 0 0
    have hrun : ∀(g : Regs V X) w, g.loops.forStack.lookup target=none →
        runFor E fuel target iter body (⟨g,.empty⟩,w)=
          (onCell (evalExpr E (suspendedly E) iter) (⟨g,.empty⟩,w)).bind (Comp.next F) := by
      intro g w hl
      unfold runFor
      rw [readRegs_bind,hl]
      rfl
    rw [hrun g w hl]
    simp only []
    rw [ahead_inRegs,Comp.bind_apply]
    refine Redoes.resumes (fun v => ⟨v,0,[],[.forLoop target]⟩)
      (fun l => l.forStack.lookup target=none) ?_ (fun _ _ _ => rfl) (fun _ g w => hrun g w) ?_
      (hA.iter iter (g.cell,w) hg) g hl
    · intro v g g' hg hk
      rw [hk.fors target List.mem_cons_self]
      exact hg
    · intro r g w hg hr hc
      cases r with
      | error e => exact ⟨rfl,settled_error hr,hc⟩
      | ok iterable =>
        simp only [Comp.next_ok,F]
        cases E.isLazy iterable with
        | true =>
          exact forLazy_resumes watch hb skipped target iter iterable fuel (Nat.le_refl _)
            (Nat.le_refl _) hc
        | false =>
          exact (plainly_liftE (E.iter iterable)).bind_resumes hc w fun items w' =>
            forItems_resumes watch hb skipped target iter items items rfl hc

theorem runWhile_resumes (hA : Adequate E fuel calm ev) (hb : Follows calm body course)
    (skipped : Bool) (offset : Nat) (test : Expr L) {w : W} (hg : calm g.cell) :
    Resumes calm (.whole (runWhile E fuel offset test body))
      (runWhileCourse watch ev fuel skipped offset test course (g,w))
      (runWhile E fuel offset test body (⟨g,.empty⟩,w)) := by
  unfold runWhileCourse
  rw [seeRegs_bind]
  have h := whileRounds_resumes watch hA hb skipped offset test fuel
    (o := g.loops.whileResume.lookup offset) (w := w) (Nat.le_refl _) (Nat.le_refl _) hg
  cases watch.stale&&(g.loops.whileResume.lookup offset).isSome with
  | true => exact trivial
  | false => exact h

variable {orelse finalbody : Nat → Stepping W V X (TryStep V X)}
  {elseCourse finalCourse : Nat → Course W V X Unit}

theorem endBranch_resumes (inOrelse : Bool) {test : Expr L}
    {taken : Nat → Stepping W V X (TryStep V X)} {takenCourse : Nat → Course W V X Unit}
    (ht : Follows calm taken takenCourse)
    (hrun : ∀i g st w, runIf E test body orelse
      (⟨g,{st with ifStack := ⟨inOrelse,i⟩::st.ifStack}⟩,w)=
        (taken i>>=endBranch inOrelse) (⟨g,st⟩,w))
    {w : W} (hg : calm g.cell) :
    Resumes calm (.whole (runIf E test body orelse)) (takenCourse 0 (g,w))
      ((taken 0>>=endBranch inOrelse) (⟨g,.empty⟩,w)) := by
  rw [← Process.bind_done_right (takenCourse 0 (g,w)),Comp.bind_apply]
  refine Resumes.bind (fun y st => {st with ifStack := ⟨inOrelse,y.index⟩::st.ifStack})
    (fun _ _ _ _ => rfl) (fun y st g w => hrun y.index g st w) ?_ (ht 0 g w hg)
  intro r s hr hc
  cases r with
  | ok u => exact ⟨rfl,hr,hc⟩
  | error e => exact ⟨rfl,hr,hc⟩

theorem runIf_resumes (hA : Adequate E fuel calm ev) (test : Expr L) (hb : Follows calm body course)
    (ho : Follows calm orelse elseCourse) {w : W} (hg : calm g.cell) :
    Resumes calm (.whole (runIf E test body orelse))
      (ifCourse ev test (course 0) (elseCourse 0) (g,w))
      (runIf E test body orelse (⟨g,.empty⟩,w)) := by
  unfold ifCourse
  rw [Comp.bind_apply]
  refine Redoes.resumes (F := Comp.next fun b => if b then body 0>>=endBranch false
      else orelse 0>>=endBranch true) (fun v => ⟨v,0,[],[]⟩) (fun _ => True)
    (fun _ _ _ _ _ => trivial) (fun _ _ _ => ?_) (fun _ _ _ _ => ?_) ?_
    (hA.test test (g.cell,w) hg) g trivial
  · rfl
  · rfl
  intro r g w _ hr hc
  cases r with
  | error e => exact ⟨rfl,settled_error hr,hc⟩
  | ok b =>
    cases b with
    | true => exact endBranch_resumes false hb (fun _ _ _ _ => rfl) hc
    | false => exact endBranch_resumes true ho (fun _ _ _ _ => rfl) hc

theorem runWith_resumes (hA : Adequate E fuel calm ev) (items : List (Expr L×Option L))
    (hb : Follows calm body course) {w : W} (hg : calm g.cell) :
    Resumes calm (.whole (runWith E items body)) (withCourse E ev items (course 0) (g,w))
      (runWith E items body (⟨g,.empty⟩,w)) := by
  unfold withCourse
  rw [Comp.bind_apply]
  refine Redoes.resumes (F := Comp.next fun managers => body 0>>=endBlock E managers)
    (fun v => ⟨v,0,[],[]⟩) (fun _ => True) (fun _ _ _ _ _ => trivial) (fun _ _ _ => rfl)
    (fun _ _ _ _ => rfl) ?_ (hA.items items (g.cell,w) hg) g trivial
  intro r g w _ hr hc
  cases r with
  | error e => exact ⟨rfl,settled_error hr,hc⟩
  | ok managers =>
    simp only [Comp.next_ok]
    rw [Comp.attempt_bind,Comp.bind_apply]
    refine Resumes.bind (fun y st => {st with withStack := ⟨y.index,managers⟩::st.withStack})
      (fun _ _ _ _ => rfl) (fun _ _ _ _ => rfl) ?_ (hb 0 g w hc)
    intro r s hr hc
    have hexit := (plainly_exitContextManagers E managers hr).resumes
      (m := runWith E items body) hc s.2
    cases r with
    | ok u => exact hexit
    | error e => exact hexit

end Steps

section Try

variable {W V X L : Type} {calm : Cell V X → Prop} {E : Effects W V X L} (watch : Watch W V X)
  {body orelse finalbody : Nat → Stepping W V X (TryStep V X)}
  {course elseCourse finalCourse : Nat → Course W V X Unit}
  {handlers : List (Clause L (Nat → Stepping W V X (TryStep V X)))}

theorem endPhase_resumes {phase : TryPhase} {part : Nat → Stepping W V X (TryStep V X)}
    {next : Except (Signal V X) Unit → Stepping W V X Unit}
    {after : Except (Signal V X) Unit → Course W V X Unit}
    (hrun : ∀i g st w, runTry E body orelse finalbody handlers
      (⟨g,{st with tryStack := ⟨phase,i⟩::st.tryStack}⟩,w)=
        (part i>>=endPhase phase next) (⟨g,st⟩,w))
    (hnext : ∀r s, Settled r → calm s.1.cell →
      Resumes calm (.whole (runTry E body orelse finalbody handlers)) (after r s)
        (next r (⟨s.1,.empty⟩,s.2)))
    {p : Process (Suspension V) (Regs V X×W) (Except (Signal V X) Unit)}
    {q : Process Empty (Frame V X×W) (Except (Signal V X) (TryStep V X))}
    (h : Resumes calm (.walk part) p q) :
    Resumes calm (.whole (runTry E body orelse finalbody handlers)) (p.bind after)
      (q.bind (Comp.next (endPhase phase next))) := by
  refine Resumes.bind (fun y st => {st with tryStack := ⟨phase,y.index⟩::st.tryStack})
    (fun _ _ _ _ => rfl) (fun y st g w => hrun y.index g st w) ?_ h
  intro r s hr hc
  cases r with
  | ok u => exact hnext (.ok u) s hr hc
  | error e => exact hnext (.error e) s hr hc

variable {g : Regs V X}

theorem deliver_resumes {m : Stepping W V X Unit} {r : Except (Signal V X) Unit} (hr : Settled r)
    (hg : calm g.cell) (w : W) :
    Resumes calm (.whole m) (.done r (g,w)) (deliver r (⟨g,.empty⟩,w)) := by
  cases r with
  | ok u => exact ⟨rfl,hr,hg⟩
  | error e => exact ⟨rfl,hr,hg⟩

theorem finish_resumes (hf : Follows calm finalbody finalCourse)
    {pending : Except (Signal V X) Unit} (hp : Settled pending) {w : W} (hg : calm g.cell) :
    Resumes calm (.whole (runTry E body orelse finalbody handlers))
      (finishCourse watch (finalCourse 0) pending (g,w))
      (finish finalbody pending (⟨g,.empty⟩,w)) := by
  have h := hf 0 g w hg
  unfold finishCourse finish
  rw [Comp.bind_apply]
  generalize finalCourse 0 (g,w)=p at h
  generalize finalbody 0 (⟨g,.empty⟩,w)=q at h
  cases p with
  | done r s =>
    obtain ⟨rfl,hr,hc⟩ := h
    cases r with
    | ok u => exact deliver_resumes hp hc s.2
    | error e => exact ⟨rfl,hr,hc⟩
  | ask y s k =>
    obtain ⟨st,rfl,hk⟩ := h
    -- the record of the suspended block says nothing of what is pending
    have lost : Resumes calm (.whole (runTry E body orelse finalbody handlers)) (.ask y s k)
        ((Process.done (.ok (.yielded y.index y.value)) (⟨s.1,st⟩,s.2)).bind
          (Comp.next (endFinally pending))) := by
      refine ⟨{st with tryStack := ⟨.finalbody,y.index⟩::st.tryStack},rfl,fun t ht => ?_⟩
      rw [← Process.bind_done_right (k t)]
      refine endPhase_resumes (fun i g st w => ?_) ?_ (hk t ht)
      · rfl
      intro r s hr hc
      cases r with
      | ok u => exact ⟨rfl,hr,hc⟩
      | error e => exact ⟨rfl,hr,hc⟩
    cases pending with
    | ok u => exact lost
    | error e =>
      simp only []
      cases watch.pending with
      | true => exact trivial
      | false => exact lost
  | diverge => exact trivial

/-- A clause of the engine and its course. -/
structure ClauseFollows (calm : Cell V X → Prop) (c : Clause L (Nat → Stepping W V X (TryStep V X)))
    (d : Clause L (Course W V X Unit)) : Prop where
  type : c.type=d.type
  name : c.name=d.name
  body : ∀g w, calm g.cell → Resumes calm (.walk c.body) (d.body (g,w)) (c.body 0 (⟨g,.empty⟩,w))

theorem runTry_handler (h i : Nat) (g : Regs V X) (st : Stacks V) (w : W) :
    runTry E body orelse finalbody handlers
        (⟨g,{st with tryStack := ⟨.handler h,i⟩::st.tryStack}⟩,w)=
      (match handlers[h]? with
        | some c => c.body i>>=endPhase (.handler h) (leaveHandler E c.name finalbody)
        | none => pure ()) (⟨g,st⟩,w) := rfl

theorem enterOrPropagate_resumes (hf : Follows calm finalbody finalCourse) (x : X)
    {cs : List (Clause L (Nat → Stepping W V X (TryStep V X)))}
    {ds : List (Clause L (Course W V X Unit))} (hcs : List.Forall₂ (ClauseFollows calm) cs ds)
    {h : Nat} (hd : handlers.drop h=cs) {w : W} (hg : calm g.cell) :
    Resumes calm (.whole (runTry E body orelse finalbody handlers))
      (handlersCourse E watch x (finalCourse 0) ds (g,w))
      (enterOrPropagate E x finalbody cs h (⟨g,.empty⟩,w)) := by
  induction hcs generalizing h g w with
  | nil => exact finish_resumes watch hf (settled_exc x) hg
  | @cons c d cs ds hcd _ ih =>
    unfold handlersCourse enterOrPropagate
    rw [hcd.type]
    refine (plainly_liftE (E.matchesHandler d.type x)).bind_resumes hg w fun b w => ?_
    cases b with
    | false =>
      refine ih ?_ hg
      rw [List.drop_add_one_eq_tail_drop,hd]
      rfl
    | true =>
      have hc : handlers[h]?=some c := by
        have := congrArg (·[0]?) hd
        simpa [List.getElem?_drop] using this
      simp only [if_true]
      rw [Comp.bind_apply]
      unfold sameContext
      rw [Comp.bind_apply]
      simp only [readW,Comp.lift_apply,Process.bind_done,Comp.next_ok]
      cases watch.differ (caught E x w) x with
      | true => exact trivial
      | false =>
        rw [hcd.name]
        refine (plainly_bindName E d.name (E.excValue x)).bind_resumes hg w fun _ w => ?_
        refine (plainly_modifyW (E.pushException x)).bind_resumes hg w fun _ w => ?_
        rw [Comp.attempt_bind,Comp.bind_apply]
        refine endPhase_resumes (fun i g st w => ?_) ?_ (hcd.body g w hg)
        · refine (runTry_handler h i g st w).trans ?_
          rw [hc,← hcd.name]
        · intro r s hr hs
          unfold leaveHandler
          refine (plainly_modifyW E.popException).bind_resumes hs s.2 fun _ w => ?_
          refine (plainly_unbindName E d.name).bind_resumes hs w fun _ w => ?_
          rw [Comp.bind_apply]
          have hfin : Resumes calm (.whole (runTry E body orelse finalbody handlers))
              (finishCourse watch (finalCourse 0) r (s.1,w))
              (finish finalbody r (⟨s.1,.empty⟩,w)) := finish_resumes watch hf hr hs
          cases r with
          | ok u => exact hfin
          | error e =>
            cases e with
            | exc y =>
              simp only [raisedContext]
              cases watch.differ (E.setImplicitContext y x) y with
              | true => exact trivial
              | false => exact hfin
            | _ => exact hfin

theorem runTry_resumes (hb : Follows calm body course) (ho : Follows calm orelse elseCourse)
    (hf : Follows calm finalbody finalCourse) {ds : List (Clause L (Course W V X Unit))}
    (hcs : List.Forall₂ (ClauseFollows calm) handlers ds) {w : W} (hg : calm g.cell) :
    Resumes calm (.whole (runTry E body orelse finalbody handlers))
      (tryCourse E watch (course 0) (elseCourse 0) (finalCourse 0) ds (g,w))
      (runTry E body orelse finalbody handlers (⟨g,.empty⟩,w)) := by
  unfold tryCourse
  rw [Comp.attempt_bind]
  refine endPhase_resumes (fun i g st w => ?_) ?_ (hb 0 g w hg)
  · rfl
  intro r s hr hc
  cases r with
  | ok u =>
    simp only [afterBodyCourse,afterBody]
    rw [Comp.attempt_bind]
    refine endPhase_resumes (fun _ _ _ _ => rfl) ?_ (ho 0 s.1 s.2 hc)
    intro r s hr hc
    exact finish_resumes watch hf hr hc
  | error e =>
    cases e with
    | exc x => exact enterOrPropagate_resumes watch hf x hcs rfl hc
    | yielded v => exact absurd rfl (hr v)
    | _ => exact finish_resumes watch hf hr hc

end Try

section Walks

variable {W V X L : Type} {calm : Cell V X → Prop} {E : Effects W V X L} {fuel : Nat}
  {ev : Evaluator W V X L} (watch : Watch W V X)

theorem stepFrom_start (ctx : Ctx) (ss : List (Stmt L)) {start start' i : Nat} (h : start ≤ i)
    (h' : start' ≤ i) : stepFrom E fuel ctx start i ss=stepFrom E fuel ctx start' i ss := by
  induction ss generalizing i with
  | nil => rfl
  | cons s ss ih =>
    have hrest := ih (Nat.le_succ_of_le h) (Nat.le_succ_of_le h')
    simp only [stepFrom,if_neg (Nat.not_lt.mpr h),if_neg (Nat.not_lt.mpr h'),hrest]

/-- A stepper follows the course of its statement. -/
def StepperFollows (E : Effects W V X L) (fuel : Nat) (calm : Cell V X → Prop)
    (ev : Evaluator W V X L) (watch : Watch W V X) (s : Stmt L) : Prop :=
  ∀g w, calm g.cell → Resumes calm (.whole (runStepper E fuel s)) (course E watch ev fuel s (g,w))
    (runStepper E fuel s (⟨g,.empty⟩,w))

/-- Whatever runs the rest of the walk again from a statement that was suspended. -/
theorem stepFrom_resumes (hA : Adequate E fuel calm ev) (ctx : Ctx) (ss : List (Stmt L))
    (hs : ∀s ∈ ss, StepperFollows E fuel calm ev watch s) {n start : Nat}
    {rerun : Nat → Stepping W V X (TryStep V X)}
    (hre : ∀j, n ≤ j → rerun j=stepFrom E fuel ctx j n ss) {g : Regs V X} {w : W}
    (hg : calm g.cell) :
    Resumes calm (.walk rerun) (courseFrom E watch ev fuel ctx start n ss (g,w))
      (stepFrom E fuel ctx start n ss (⟨g,.empty⟩,w)) := by
  induction ss generalizing n start g w with
  | nil => exact ⟨rfl,settled_ok (),hg⟩
  | cons s ss ih =>
    have hrest : ∀j, n+1 ≤ j → rerun j=stepFrom E fuel ctx j (n+1) ss := by
      intro j hj
      rw [hre j (by omega),stepFrom,if_pos (by omega)]
    have hss : ∀s ∈ ss, StepperFollows E fuel calm ev watch s :=
      fun s h => hs s (List.mem_cons_of_mem _ h)
    rw [courseFrom,stepFrom]
    by_cases hi : n<start
    · rw [if_pos hi,if_pos hi]
      exact ih hss hrest hg
    · let step := if delegates ctx s then runStepper E fuel s else direct E fuel s
      let after := afterStmt (clears ctx s) n (stepFrom E fuel ctx start (n+1) ss)
      have hrun : ∀t, rerun n t=(step t).bind after := by
        intro t
        have hstart : stepFrom E fuel ctx n (n+1) ss=stepFrom E fuel ctx start (n+1) ss :=
          stepFrom_start ctx ss (Nat.le_succ n) (by omega)
        rw [hre n (Nat.le_refl n),stepFrom,if_neg (Nat.lt_irrefl n),Comp.attempt_bind,hstart]
      have hone : Resumes calm (.whole step)
          ((if delegates ctx s then course E watch ev fuel s else directCourse watch ev s) (g,w))
          (step (⟨g,.empty⟩,w)) := by
        simp only [step]
        cases delegates ctx s with
        | true => exact hs s List.mem_cons_self g w hg
        | false => exact direct_resumes watch hA s hg w
      rw [if_neg hi,if_neg hi,Comp.attempt_bind,Comp.bind_apply,atIndex_eq]
      refine Resumes.wrap (J := Unit) (F := fun _ => after) _ (fun _ st => st) ?_ ?_ ?_ ?_ hone ()
      · intro _ _ _ _ _
        rfl
      · intro y g g' _ hk
        exact ⟨hk.fors,hk.whiles,hk.resume⟩
      · intro y g st g' w w' _ hw
        cases hw
        exact ⟨(),hrun _⟩
      · intro _ r t hr hc
        cases r with
        | ok u =>
          refine ih hss hrest ?_
          unfold Regs.cleared
          cases clears ctx s with
          | true => exact hA.cleared _
          | false => exact hc
        | error e =>
          cases e with
          | yielded v => exact absurd rfl (hr v)
          | _ => exact ⟨rfl,hr,hc⟩

theorem walk_follows (hA : Adequate E fuel calm ev) (ctx : Ctx) (ss : List (Stmt L))
    (hs : ∀s ∈ ss, StepperFollows E fuel calm ev watch s) :
    Follows calm (fun i => stepFrom E fuel ctx i 0 ss)
      fun i => courseFrom E watch ev fuel ctx i 0 ss :=
  fun _ _ _ hg => stepFrom_resumes watch hA ctx ss hs (fun _ _ => rfl) hg

mutual

theorem runStepper_resumes (hA : Adequate E fuel calm ev) :
    ∀s : Stmt L, StepperFollows E fuel calm ev watch s
  | .simple kind l parts => fun g w hg => direct_resumes watch hA _ hg w
  | .ifStmt test body orelse => fun g w hg =>
    runIf_resumes hA test (walk_follows watch hA .branch body (stmts_resume hA body))
      (walk_follows watch hA .branch orelse (stmts_resume hA orelse)) hg
  | .forStmt (.name id) iter body orelse => fun g w hg =>
    (runFor_resumes watch hA (walk_follows watch hA .forLoop body (stmts_resume hA body))
      _ id iter hg).leaving _ _
  | .forStmt (.other l) iter body orelse => fun g w hg => direct_resumes watch hA _ hg w
  | .whileStmt offset test body orelse => fun g w hg =>
    (runWhile_resumes watch hA (walk_follows watch hA .whileLoop body (stmts_resume hA body))
      _ offset test hg).leaving _ _
  | .tryStmt body handlers orelse finalbody => fun g w hg =>
    runTry_resumes watch (walk_follows watch hA .phase body (stmts_resume hA body))
      (walk_follows watch hA .phase orelse (stmts_resume hA orelse))
      (walk_follows watch hA .phase finalbody (stmts_resume hA finalbody))
      (handlers_resume hA handlers) hg
  | .withStmt items body => fun g w hg =>
    runWith_resumes hA items (walk_follows watch hA .block body (stmts_resume hA body)) hg
  | .blocks searched l bodies => fun g w hg => direct_resumes watch hA _ hg w

theorem stmts_resume (hA : Adequate E fuel calm ev) :
    ∀ss : List (Stmt L), ∀s ∈ ss, StepperFollows E fuel calm ev watch s
  | [] => fun _ h => (nomatch h)
  | s::ss => List.forall_mem_cons.mpr ⟨runStepper_resumes hA s,stmts_resume hA ss⟩

theorem handlers_resume (hA : Adequate E fuel calm ev) : ∀hs : List (Handler L),
    List.Forall₂ (ClauseFollows calm) (clauses E fuel hs) (clauseCourses E watch ev fuel hs)
  | [] => .nil
  | .mk type name body::hs => .cons ⟨rfl,rfl,fun _ _ hg =>
      walk_follows watch hA .phase body (stmts_resume hA body) 0 _ _ hg⟩ (handlers_resume hA hs)

end

end Walks

end InterpretThis.Generator
