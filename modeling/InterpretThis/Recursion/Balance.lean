import InterpretThis.Recursion.Calls

namespace InterpretThis.Recursion

/-- Every entry counts at most the limit of calls. -/
def WithinLimit (limit : Nat) : Event → Prop
  | .entered calls _ => calls≤limit
  | .captured _ => True

/-- All counters and stacks are what they were, but for cells registered with the innermost
scope. -/
def Same {V : Type} (r : Marks V) (w : List Event) (r' : Marks V) : Prop :=
  ∃o, r'={r with frameCellOwners := o} ∧ o.tail=r.frameCellOwners.tail ∧
    o.length=r.frameCellOwners.length ∧
    (.captured r.frameCellOwners.length∉w → o=r.frameCellOwners)

section Registers

variable {V : Type} {r x y : Marks V} {w w' : List Event}

theorem Same.unchanged (r : Marks V) (w : List Event) : Same r w r :=
  ⟨r.frameCellOwners,rfl,rfl,rfl,fun _ => rfl⟩

theorem Same.refl (r : Marks V) : Same r [] r := Same.unchanged r []

theorem Same.trans (h : Same r w x) (h' : Same x w' y) : Same r (w++w') y := by
  obtain ⟨o,rfl,htail,hlength,hkept⟩ := h
  obtain ⟨o',rfl,htail',hlength',hkept'⟩ := h'
  refine ⟨o',rfl,htail'.trans htail,hlength'.trans hlength,?_⟩
  intro hw
  have hfirst : .captured r.frameCellOwners.length∉w := fun hn =>
    hw (List.mem_append_left _ hn)
  have hrest : .captured o.length∉w' := by
    intro hn
    rw [hlength] at hn
    exact hw (List.mem_append_right _ hn)
  rw [hkept' hrest,hkept hfirst]

theorem Same.callDepth (h : Same r w x) : x.callDepth=r.callDepth := by
  obtain ⟨o,rfl,_⟩ := h
  rfl

theorem Same.exact (h : Same r w x) (hw : .captured r.frameCellOwners.length∉w) : x=r := by
  obtain ⟨o,rfl,_,_,hkept⟩ := h
  rw [hkept hw]

theorem Same.pushed (h : Same r w x) (source name : String) :
    Same ((r.pushSource source).pushQualname name) w
      ((x.pushSource source).pushQualname name) := by
  obtain ⟨o,rfl,htail,hlength,hkept⟩ := h
  exact ⟨o,rfl,htail,hlength,hkept⟩

theorem Same.entered (h : Same r w x) (calls gens : Nat) :
    Same r (.entered calls gens::w) x := by
  obtain ⟨o,hx,htail,hlength,hkept⟩ := h
  refine ⟨o,hx,htail,hlength,?_⟩
  intro hw
  exact hkept fun hn => hw (List.mem_cons_of_mem _ hn)

theorem same_invariant (limit : Nat) :
    Invariant (fun r : Marks V => r.callDepth≤limit) Same where
  refl := Same.refl
  trans := Same.trans
  kept hr h := by
    rw [h.callDepth]
    exact hr

theorem leave_scope (h : Same r.enterCall.pushOwners w x) : x.popOwners.exitCall=r := by
  obtain ⟨o,rfl,htail,_⟩ := h
  have howners : o.tail=r.frameCellOwners := htail
  simp [Marks.popOwners,Marks.exitCall,Marks.enterCall,Marks.pushOwners,howners]

theorem leave_body {source name : String}
    (h : Same ((r.enterCall.pushOwners.pushSource source).pushQualname name) w x) :
    x.popOwners.exitCall.popSource.popQualname=r := by
  obtain ⟨o,rfl,htail,_⟩ := h
  have howners : o.tail=r.frameCellOwners := htail
  simp [Marks.popOwners,Marks.exitCall,Marks.enterCall,Marks.pushOwners,Marks.popSource,
    Marks.popQualname,Marks.pushSource,Marks.pushQualname,howners]

theorem leave_trivial {source name : String}
    (h : Same (((r.enterCall.pushSource source).pushQualname name).pushOwners) w x) :
    x.popOwners.popSource.popQualname.exitCall=r := by
  obtain ⟨o,rfl,htail,_⟩ := h
  have howners : o.tail=r.frameCellOwners := htail
  simp [Marks.popOwners,Marks.exitCall,Marks.enterCall,Marks.pushOwners,Marks.popSource,
    Marks.popQualname,Marks.pushSource,Marks.pushQualname,howners]

theorem leave_call (h : Same r.enterCall w x) : Same r w x.exitCall := by
  obtain ⟨o,rfl,htail,hlength,hkept⟩ := h
  exact ⟨o,rfl,htail,hlength,hkept⟩

theorem leave_lambda {source name : String}
    (h : Same ((r.enterCall.pushSource source).pushQualname name) w x) :
    Same r.enterCall w x.popSource.popQualname := by
  obtain ⟨o,rfl,htail,hlength,hkept⟩ := h
  exact ⟨o,rfl,htail,hlength,hkept⟩

theorem leave_generator {source : String} {id : Nat}
    (h : Same ((r.pushSource source).pushGenerator id) w x) :
    Same r w x.popGenerator.popSource := by
  obtain ⟨o,rfl,htail,hlength,hkept⟩ := h
  exact ⟨o,rfl,htail,hlength,hkept⟩

theorem leave_class {name : String} (h : Same (r.pushQualname name) w x) :
    Same r w x.popQualname := by
  obtain ⟨o,rfl,htail,hlength,hkept⟩ := h
  exact ⟨o,rfl,htail,hlength,hkept⟩

theorem leave_expr (h : Same r.enterExpr w x) : Same r w x.exitExpr := by
  obtain ⟨o,rfl,htail,hlength,hkept⟩ := h
  exact ⟨o,rfl,htail,hlength,hkept⟩

theorem capture_same (name : String) (cell : Nat) (r : Marks V) :
    Same r [.captured r.frameCellOwners.length] (r.capture name cell) := by
  refine ⟨_,rfl,?_,?_,fun h => absurd (List.mem_singleton_self _) h⟩
  · cases r.frameCellOwners <;> rfl
  · cases r.frameCellOwners <;> rfl

end Registers

section Arms

variable {L A D V X B C : Type} {p : Program L A D V X} {limit : Nat}
variable {again : Part L A V → Recorded (State V X) Unit Event (Answer D V)} {x : Marks V}

/-- What the parts asked for leave of the counters and stacks. -/
abbrev Balanced (again : Part L A V → Recorded (State V X) Unit Event (Answer D V))
    (limit : Nat) : Prop :=
  Strategy.Meet again (WithinLimit limit) State.marks (fun r => r.callDepth≤limit) Same

abbrev Leaves (again : Part L A V → Recorded (State V X) Unit Event (Answer D V)) (limit : Nat)
    (x : Marks V) (t : Host L A D V X B) (K : List Event → B → Marks V → Prop) : Prop :=
  Strategy.Holds again (WithinLimit limit) State.marks x t K

theorem quietly_leaves {t : Quiet L A D V X B} (hagain : Balanced again limit)
    (hx : x.callDepth≤limit) : Leaves again limit x (quietly t) fun w _ y => Same x w y := by
  have hmarks : ∀(v : X) (s : State V X), (State.setRest v s).marks=s.marks := fun _ _ => rfl
  exact Strategy.within_holds (same_invariant limit) hmarks hagain t x hx

variable {K : List Event → C → Marks V → Prop}

theorem quietly_then {t : Quiet L A D V X B} {k : B → Host L A D V X C}
    (hagain : Balanced again limit) (hx : x.callDepth≤limit)
    (hk : ∀w b y, Same x w y → y.callDepth≤limit →
      Leaves again limit y (k b) fun w' c z => K (w++w') c z) :
    Leaves again limit x (quietly t >>= k) K := by
  apply Strategy.Holds.bind (quietly_leaves hagain hx)
  intro w b y hy
  exact hk w b y hy ((same_invariant limit).kept hx hy)

theorem looks_then {f : X → B} {k : B → Host L A D V X C} (hk : ∀b, Leaves again limit x (k b) K) :
    Leaves again limit x (quietly (Strategy.read f) >>= k) K := by
  rintro s rfl
  exact hk (f s.rest) s rfl

theorem marks_then {f : Marks V → Marks V} {t : Host L A D V X C}
    (ht : Leaves again limit (f x) t K) : Leaves again limit x (onMarks f >>= fun _ => t) K :=
  Strategy.Holds.modify (fun _ => rfl) ht

theorem marks_read {f : Marks V → B} {k : B → Host L A D V X C}
    (hk : Leaves again limit x (k (f x)) K) : Leaves again limit x (readMarks f >>= k) K :=
  Strategy.Holds.read (fun _ => rfl) hk

theorem done {b : B} {K : List Event → B → Marks V → Prop} (h : K [] b x) :
    Leaves again limit x (pure b : Host L A D V X B) K := Strategy.Holds.pure h

theorem framed_leaves (hmax : p.maxRecursionDepth≤limit) {t : Host L A D V X (Answer D V)} {K : List Event → Marks V → Prop}
    (hrefused : K [] x) (hentered : ∀calls gens w y, K w y → K (.entered calls gens::w) y)
    (ht : x.enterCall.callDepth≤limit →
      Leaves again limit x.enterCall t fun w _ y => K w y) :
    Leaves again limit x (framed p t) fun w _ y => K w y := by
  apply marks_read
  split
  · exact done hrefused
  · rename_i hlimit
    have hdepth : x.callDepth+1≤limit := Nat.le_trans (Nat.lt_of_not_le hlimit) hmax
    have hgood : WithinLimit limit
        (.entered (x.callDepth+1) x.activeGeneratorStack.length) := hdepth
    apply marks_then
    apply Strategy.Holds.emit hgood
    apply (ht hdepth).mono
    intro w a s hs
    exact hentered _ _ w _ hs

section Methods

variable (f : FunctionDef L) (self : V)

/-- The stacks of a method's body: its frame for `super()`, if its receiver has one. -/
def opened (p : Program L A D V X) (f : FunctionDef L) (self : V) (r : Marks V) : Marks V :=
  if p.isReceiver self then r.pushMethod ⟨definingClass f,self,f.firstParam⟩ else r

def closed (p : Program L A D V X) (self : V) (r : Marks V) : Marks V :=
  if p.isReceiver self then r.popMethod else r

theorem opened_callDepth (r : Marks V) : (opened p f self r).callDepth=r.callDepth := by
  unfold opened
  split <;> rfl

theorem pushMethodFrame_then {t : Host L A D V X B} {K : List Event → B → Marks V → Prop}
    (ht : Leaves again limit (opened p f self x) t K) :
    Leaves again limit x (pushMethodFrame p f self >>= fun _ => t) K := by
  unfold pushMethodFrame
  unfold opened at ht
  by_cases h : p.isReceiver self=true
  · rw [if_pos h] at ht ⊢
    exact marks_then ht
  · rw [if_neg h] at ht ⊢
    exact ht

theorem popMethodFrame_then {t : Host L A D V X B} {K : List Event → B → Marks V → Prop}
    (ht : Leaves again limit (closed p self x) t K) :
    Leaves again limit x (popMethodFrame p self >>= fun _ => t) K := by
  unfold popMethodFrame
  unfold closed at ht
  by_cases h : p.isReceiver self=true
  · rw [if_pos h] at ht ⊢
    exact marks_then ht
  · rw [if_neg h] at ht ⊢
    exact ht

variable {f self}

theorem leave_method {w : List Event} {r : Marks V}
    (h : Same (opened p f self r.enterCall.pushOwners) w x) :
    (closed p self x).popOwners.exitCall=r := by
  unfold opened at h
  unfold closed
  by_cases hself : p.isReceiver self=true
  · rw [if_pos hself] at h ⊢
    obtain ⟨o,rfl,htail,_⟩ := h
    have howners : o.tail=r.frameCellOwners := htail
    simp [Marks.popOwners,Marks.exitCall,Marks.enterCall,Marks.pushOwners,Marks.popMethod,
      Marks.pushMethod,howners]
  · rw [if_neg hself] at h ⊢
    exact leave_scope h

end Methods

section Calls

variable (hagain : Balanced again limit)
include hagain

theorem callTrivial_leaves (f : FunctionDef L) (args : A)
    (hx : x.enterCall.callDepth≤limit) :
    Leaves again limit x.enterCall (callTrivial p f args) fun _ _ y => y=x := by
  apply looks_then
  intro v
  cases v with
  | some v =>
    apply marks_then
    apply done
    rfl
  | none =>
    apply marks_then
    apply marks_then
    apply marks_then
    refine quietly_then hagain hx ?_
    intro w r y hy _
    apply marks_then
    apply marks_then
    apply marks_then
    apply marks_then
    apply done
    exact leave_trivial hy

theorem callBody_leaves (f : FunctionDef L) (args checkpoint : A) {w : List Event} {y : Marks V}
    (hy : Same x.enterCall.pushOwners w y) (hdepth : y.callDepth≤limit) :
    Leaves again limit y (callBody p f args checkpoint) fun _ _ z => z=x := by
  apply marks_then
  apply marks_then
  apply looks_then
  intro suspends
  have hbody := hy.pushed f.source (locals f)
  cases suspends with
  | true =>
    refine quietly_then hagain hdepth ?_
    intro w' g z hz hdepth'
    refine quietly_then hagain hdepth' ?_
    intro w'' _ u hu _
    apply marks_then
    apply marks_then
    apply marks_then
    apply marks_then
    apply done
    exact leave_body ((hbody.trans hz).trans hu)
  | false =>
    refine quietly_then hagain hdepth ?_
    intro w' r z hz hdepth'
    refine quietly_then hagain hdepth' ?_
    intro w'' _ u hu _
    apply marks_then
    apply marks_then
    apply marks_then
    apply marks_then
    apply done
    exact leave_body ((hbody.trans hz).trans hu)

theorem callFrame_leaves (f : FunctionDef L) (args : A)
    (hx : x.enterCall.callDepth≤limit) :
    Leaves again limit x.enterCall (callFrame p f args) fun _ _ y => y=x := by
  apply marks_then
  refine quietly_then hagain hx ?_
  intro w bound y hy hdepth
  cases bound with
  | error e =>
    apply marks_then
    apply marks_then
    apply done
    exact leave_scope hy
  | ok bound =>
    refine quietly_then hagain hdepth ?_
    intro w' checkpoint z hz hdepth'
    cases checkpoint with
    | error e =>
      apply marks_then
      apply marks_then
      apply done
      exact leave_scope (hy.trans hz)
    | ok checkpoint => exact callBody_leaves hagain f args checkpoint (hy.trans hz) hdepth'

theorem callUserFunction_leaves (hmax : p.maxRecursionDepth≤limit) (f : FunctionDef L) (args : A) :
    Leaves again limit x (callUserFunction p f args) fun _ _ y => y=x := by
  apply framed_leaves hmax rfl fun _ _ _ _ h => h
  intro hx
  apply looks_then
  intro trivial
  cases trivial with
  | true => exact callTrivial_leaves hagain f args hx
  | false => exact callFrame_leaves hagain f args hx

theorem callLambda_leaves (hmax : p.maxRecursionDepth≤limit) (f : LambdaDef L) (args : A) :
    Leaves again limit x (callLambda p f args) fun w _ y => Same x w y := by
  apply framed_leaves hmax (Same.refl x) fun calls gens _ _ h => h.entered calls gens
  intro hx
  refine quietly_then hagain hx ?_
  intro w bound y hy hdepth
  cases bound with
  | error e =>
    apply marks_then
    apply done
    rw [List.append_nil]
    exact leave_call hy
  | ok bound =>
    refine quietly_then hagain hdepth ?_
    intro w' checkpoint z hz hdepth'
    cases checkpoint with
    | error e =>
      apply marks_then
      apply done
      rw [List.append_nil]
      exact leave_call (hy.trans hz)
    | ok checkpoint =>
      apply marks_then
      apply marks_then
      refine quietly_then hagain hdepth' ?_
      intro v r u hu hdepth''
      have hbody := leave_lambda (((hy.trans hz).pushed _ _).trans hu)
      apply marks_then
      apply marks_then
      refine quietly_then hagain hdepth'' ?_
      intro v' _ t ht _
      apply marks_then
      apply done
      have hlast := leave_call (hbody.trans ht)
      simpa only [List.append_nil,List.append_assoc] using hlast

/-- A method call leaves every counter and stack as it was. -/
theorem callMethod_leaves (hmax : p.maxRecursionDepth≤limit) (f : FunctionDef L) (self : V) (args : A) :
    Leaves again limit x (callMethod p f self args) fun _ _ y => y=x := by
  apply framed_leaves hmax rfl fun _ _ _ _ h => h
  intro hx
  apply marks_then
  apply pushMethodFrame_then
  have hopened : (opened p f self x.enterCall.pushOwners).callDepth≤limit := by
    rw [opened_callDepth]
    exact hx
  refine quietly_then hagain hopened ?_
  intro w bound y hy hdepth
  cases bound with
  | error e =>
    apply popMethodFrame_then
    apply marks_then
    apply marks_then
    apply done
    exact leave_method hy
  | ok bound =>
    refine quietly_then hagain hdepth ?_
    intro w' checkpoint z hz hdepth'
    have hscope := hy.trans hz
    cases checkpoint with
    | error e =>
      apply popMethodFrame_then
      apply marks_then
      apply marks_then
      apply done
      exact leave_method hscope
    | ok checkpoint =>
      refine quietly_then hagain hdepth' ?_
      intro v r u hu hdepth''
      have hbody := hscope.trans hu
      refine quietly_then hagain hdepth'' ?_
      intro v' _ t ht _
      apply popMethodFrame_then
      apply marks_then
      apply marks_then
      apply done
      exact leave_method (hbody.trans ht)

theorem stepGenerator_leaves (id : Nat) (sent : V) (hx : x.callDepth≤limit) :
    Leaves again limit x (stepGenerator p id sent) fun w _ y => Same x w y := by
  refine quietly_then hagain hx ?_
  intro w frame y hy hdepth
  cases frame with
  | error answer =>
    apply done
    rw [List.append_nil]
    exact hy
  | ok source =>
    have hgood : WithinLimit limit
        (.entered y.callDepth (y.activeGeneratorStack.length+1)) := hdepth
    apply marks_then
    apply marks_then
    apply marks_read
    apply Strategy.Holds.emit hgood
    refine quietly_then hagain hdepth ?_
    intro w' e z hz hdepth'
    have hbody := (leave_generator hz).entered y.callDepth (y.activeGeneratorStack.length+1)
    apply marks_then
    apply marks_then
    have hpopped : z.popGenerator.popSource.callDepth≤limit := hdepth'
    apply (quietly_leaves hagain hpopped).mono
    intro w'' a s hs
    have hlast := (hy.trans hbody).trans hs
    simpa only [List.append_assoc,List.cons_append] using hlast

theorem evalClassDef_leaves (l : L) (name : String) (hx : x.callDepth≤limit) :
    Leaves again limit x (evalClassDef p l name) fun w _ y => Same x w y := by
  refine quietly_then hagain hx ?_
  intro w r y hy hdepth
  cases r with
  | error e =>
    apply done
    rw [List.append_nil]
    exact hy
  | ok r =>
    apply marks_read
    apply marks_then
    refine quietly_then hagain hdepth ?_
    intro w' r z hz hdepth'
    have hbody := hy.trans (leave_class hz)
    apply marks_then
    cases r with
    | error e =>
      apply done
      rw [List.append_nil]
      exact hbody
    | ok r =>
      have hpopped : z.popQualname.callDepth≤limit := hdepth'
      apply (quietly_leaves hagain hpopped).mono
      intro w'' a s hs
      have hlast := hbody.trans hs
      simpa only [List.append_assoc] using hlast

theorem evalGuarded_leaves (l : L) (hx : x.callDepth≤limit) :
    Leaves again limit x (evalGuarded p l) fun w _ y => Same x w y := by
  apply marks_read
  split
  · exact done (Same.refl x)
  · apply marks_then
    refine quietly_then hagain hx ?_
    intro w a y hy _
    apply marks_then
    apply done
    rw [List.append_nil]
    exact leave_expr hy

omit hagain in
theorem captureCell_leaves (name : String) (cell : Nat) :
    Leaves again limit x (captureCell p name cell) fun w _ y => Same x w y := by
  apply marks_read
  split
  · exact done (Same.refl x)
  · apply Strategy.Holds.emit trivial
    apply marks_then
    apply done
    exact capture_same name cell x

theorem armOf_leaves (hmax : p.maxRecursionDepth≤limit) (q : Part L A V) (hx : x.callDepth≤limit) :
    Leaves again limit x (p.armOf q) fun w _ y => Same x w y := by
  cases q with
  | call f args =>
    apply (callUserFunction_leaves hagain hmax f args).mono
    rintro w a s rfl
    exact Same.unchanged s.marks w
  | lambda f args => exact callLambda_leaves hagain hmax f args
  | method f self args =>
    apply (callMethod_leaves hagain hmax f self args).mono
    rintro w a s rfl
    exact Same.unchanged s.marks w
  | step id sent => exact stepGenerator_leaves hagain id sent hx
  | classBody l name => exact evalClassDef_leaves hagain l name hx
  | guarded l => exact evalGuarded_leaves hagain l hx
  | plain l => exact quietly_leaves hagain hx
  | capture name cell => exact captureCell_leaves name cell

end Calls

end Arms

section Runs

variable {L A D V X : Type} (p : Program L A D V X)

theorem run_balanced {limit : Nat} (hmax : p.maxRecursionDepth≤limit) (fuel : Nat) :
    Balanced (p.run fuel) limit :=
  Evaluator.run_meets (fun _ _ => rfl) (fun _ hagain q _ hx => armOf_leaves hagain hmax q hx) fuel

end Runs

section Frames

variable {L A D V X : Type}

/-- Calls of functions, methods and lambdas. -/
def Part.calls : Part L A V → Bool
  | .call _ _ | .lambda _ _ | .method _ _ _ => true
  | _ => false

/-- Calls that open a scope of capture cells. -/
def Part.scopes : Part L A V → Bool
  | .call _ _ | .method _ _ _ => true
  | _ => false

variable (p : Program L A D V X)

/-- At every entry the calls and generator bodies that are active are at most one more than the
limit. -/
def Bounded (w : List Event) : Prop :=
  ∀calls gens, .entered calls gens∈w → calls+gens≤p.maxRecursionDepth+1

theorem run_succ (fuel : Nat) (q : Part L A V) :
    p.run (fuel+1) q=(p.armOf q).exec (p.run fuel) := rfl

theorem framed_refused {again : Part L A V → Recorded (State V X) Unit Event (Answer D V)}
    {t : Host L A D V X (Answer D V)} {s : State V X}
    (h : p.maxRecursionDepth ≤ s.marks.callDepth) :
    (framed p t).exec again s=(.ok (recursionError p),s,[]) := by
  have hread : (framed p t).exec again s=(if p.maxRecursionDepth ≤ s.marks.callDepth
      then (pure (recursionError p) : Host L A D V X (Answer D V))
      else do
        onMarks Marks.enterCall
        noteEntry (s.marks.callDepth+1) s.marks.activeGeneratorStack.length
        t).exec again s := rfl
  rw [hread,if_pos h]
  rfl

theorem calls_refused (fuel : Nat) {q : Part L A V} (hq : q.calls=true) {s : State V X}
    (h : p.maxRecursionDepth ≤ s.marks.callDepth) :
    p.run (fuel+1) q s=(.ok (recursionError p),s,[]) := by
  rw [run_succ]
  cases q with
  | call f args => exact framed_refused p h
  | lambda f args => exact framed_refused p h
  | method f self args => exact framed_refused p h
  | step id sent => cases hq
  | classBody l name => cases hq
  | guarded l => cases hq
  | plain l => cases hq
  | capture name cell => cases hq

theorem scopes_restored {limit : Nat} (hmax : p.maxRecursionDepth≤limit) {q : Part L A V}
    (hq : q.scopes=true) (x : Marks V) : ∀fuel, (p.run fuel q).Meets (WithinLimit limit)
      (fun s => s.marks=x) fun _ _ s => s.marks=x
  | 0 => fun _ _ => ⟨fun _ hn => absurd hn List.not_mem_nil,fun _ ha => nomatch ha⟩
  | fuel+1 => by
    have hagain := run_balanced p hmax fuel
    rw [run_succ]
    cases q with
    | call f args => exact callUserFunction_leaves hagain hmax f args
    | method f self args => exact callMethod_leaves hagain hmax f self args
    | lambda f args => cases hq
    | step id sent => cases hq
    | classBody l name => cases hq
    | guarded l => cases hq
    | plain l => cases hq
    | capture name cell => cases hq

theorem entries_limited (fuel : Nat) (q : Part L A V) {s : State V X}
    (hs : s.marks.callDepth≤p.maxRecursionDepth) {calls gens : Nat}
    (h : .entered calls gens∈(p.run fuel q).record s) : calls≤p.maxRecursionDepth := by
  have hrun := run_balanced p (Nat.le_refl _) fuel q s.marks hs s rfl
  exact hrun.1 _ h

/-- Where no generator body runs under another, the bound holds of itself. -/
theorem run_bounded (fuel : Nat) (q : Part L A V) {s : State V X}
    (hs : s.marks.callDepth≤p.maxRecursionDepth)
    (single : ∀calls gens, .entered calls gens∈(p.run fuel q).record s → gens≤1) :
    Bounded p ((p.run fuel q).record s) := by
  intro calls gens hn
  have hcalls := entries_limited p fuel q hs hn
  have hgens := single calls gens hn
  omega

theorem run_leaves (fuel : Nat) (q : Part L A V) (s : State V X) {r : Answer D V}
    (hr : (p.run fuel q).result s=.ok r) :
    Same s.marks ((p.run fuel q).record s) ((p.run fuel q).after s).marks := by
  have hlimit : p.maxRecursionDepth≤p.maxRecursionDepth+s.marks.callDepth := Nat.le_add_right _ _
  have hdepth : s.marks.callDepth≤p.maxRecursionDepth+s.marks.callDepth := Nat.le_add_left _ _
  exact (run_balanced p hlimit fuel q s.marks hdepth s rfl).2 r hr

/-- The frames active at once are bounded as far as entries under two or more generator bodies
are, calls at the limit are refused, and all counters and stacks are restored but for cells that a
lambda or a generator body registers with the scope of its caller. -/
theorem frames_exact (fuel : Nat) (q : Part L A V) (s : State V X) :
    (s.marks.callDepth≤p.maxRecursionDepth →
      (Bounded p ((p.run fuel q).record s) ↔
        ∀calls gens, .entered calls gens∈(p.run fuel q).record s → 2≤gens →
          calls+gens≤p.maxRecursionDepth+1)) ∧
    (q.calls=true → p.maxRecursionDepth ≤ s.marks.callDepth →
      p.run (fuel+1) q s=(.ok (recursionError p),s,[])) ∧
    ∀r, (p.run fuel q).result s=.ok r →
      q.scopes=true ∨ .captured s.marks.frameCellOwners.length∉(p.run fuel q).record s →
      ((p.run fuel q).after s).marks=s.marks := by
  refine ⟨?_,?_,?_⟩
  · intro hs
    refine ⟨fun h calls gens hn _ => h calls gens hn,?_⟩
    intro h calls gens hn
    have hcalls := entries_limited p fuel q hs hn
    by_cases hgens : 2≤gens
    · exact h calls gens hn hgens
    · omega
  · exact fun hq hfull => calls_refused p fuel hq hfull
  · rintro r hr (hq | hcells)
    · exact (scopes_restored p (Nat.le_refl _) hq s.marks fuel s rfl).2 r hr
    · exact (run_leaves p fuel q s hr).exact hcells

end Frames

section Relay

/-- Generators of which each drives the next one, down to the first, and a lambda that creates a
closure. -/
def relay : Program Unit Unit Unit Nat Unit where
  maxRecursionDepth := 3
  none := 0
  trivial := fun _ _ _ => false
  direct := fun _ _ => none
  isReceiver := fun _ => false
  bindParams := fun _ => pure (.ok ())
  applyScope := fun _ _ => pure (.ok ())
  suspends := fun _ _ => false
  createGenerator := fun _ => pure 0
  body := fun _ => Strategy.ask (.capture "x" 5)
  restore := fun _ _ => pure ()
  openFrame := fun _ _ => pure (.ok "relay")
  generatorBody
    | 0 => pure (.ok ())
    | id+1 => do
      let _ ← Strategy.ask (.step id 0)
      pure (.ok ())
  closeFrame := fun _ _ => pure (.ok 1)
  openClass := fun _ => pure (.ok ())
  runClass := fun _ => pure (.ok ())
  closeClass := fun _ => pure (.ok 0)
  arm := fun _ => pure (.ok 0)

def moduleLevel : State Nat Unit := ⟨⟨0,0,[],[],[],[],[],[fun _ => none]⟩,()⟩

/-- Six generators are driven at once under a limit of three, without an error, and the closure of
a lambda stays registered with the module. -/
theorem relay_unbounded :
    (relay.run 9 (.step 5 0)).result moduleLevel=.ok (.ok 1) ∧
    ¬Bounded relay ((relay.run 9 (.step 5 0)).record moduleLevel) ∧
    (relay.run 9 (.lambda ⟨(),"f","source"⟩ ())).result moduleLevel=.ok (.ok 0) ∧
    ((relay.run 9 (.lambda ⟨(),"f","source"⟩ ())).after moduleLevel).marks≠moduleLevel.marks := by
  refine ⟨rfl,?_,rfl,?_⟩
  · intro h
    have hentered : .entered 0 6∈(relay.run 9 (.step 5 0)).record moduleLevel := by decide
    have hsix : 0+6≤3+1 := h 0 6 hentered
    omega
  · intro h
    have howners := congrArg (fun r => r.frameCellOwners.map (fun owners => owners "x")) h
    have hcell : [some 5]=[(none : Option Nat)] := howners
    cases hcell

end Relay

end InterpretThis.Recursion
