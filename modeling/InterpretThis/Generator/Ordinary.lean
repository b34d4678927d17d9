import InterpretThis.Generator.Once

namespace InterpretThis.Generator

open Resumption

section Relation

variable {W V X A B : Type}

/-- Until it is given up, a course hands out and ends as an ordinary evaluation does, whatever the
records of its loops are, and no yield waits for its answer at the end. -/
def Shadows : Process (Suspension V) (Regs V X×W) (Except (Signal V X) A) →
    Process V (Cell V X×W) (Except (Signal V X) A) → Prop
  | .done r s,o => o=.done r (s.1.cell,s.2) ∧ Settled r ∧ Calm s.1.cell
  | .ask y s k,o => ∃k', o=.ask y.value (s.1.cell,s.2) k' ∧
      ∀t, (s.1.cell.resumeAtYield=true → t.1.cell.resumeAtYield=true) →
        Shadows (k t) (k' (t.1.cell,t.2))
  | .diverge,_ => True

variable {p : Process (Suspension V) (Regs V X×W) (Except (Signal V X) A)}
  {o : Process V (Cell V X×W) (Except (Signal V X) A)}

theorem Shadows.bind (h : Shadows p o) {f : Except (Signal V X) A → Regs V X×W →
      Process (Suspension V) (Regs V X×W) (Except (Signal V X) B)}
    {f' : Except (Signal V X) A → Cell V X×W → Process V (Cell V X×W) (Except (Signal V X) B)}
    (hf : ∀r s, Settled r → Calm s.1.cell → Shadows (f r s) (f' r (s.1.cell,s.2))) :
    Shadows (p.bind f) (o.bind f') := by
  induction p generalizing o with
  | done r s =>
    obtain ⟨rfl,hr,hc⟩ := h
    exact hf r s hr hc
  | ask y s k ih =>
    obtain ⟨k',rfl,hk⟩ := h
    exact ⟨fun t => (k' t).bind f',rfl,fun t ht => ih t (hk t ht)⟩
  | diverge => exact trivial

/-- Changes of the hand-outs that show neither in the value nor in the registers. -/
theorem Shadows.wrap {u : Wrap W V X} (htag : ∀y, (u.tag y).value=y.value)
    (hsave : ∀y g, (u.save y g).cell=g.cell) (hwake : ∀y w w', u.wake y w=some w' → w'=w)
    (h : Shadows p o) : Shadows (p.intercept u.ask) o := by
  induction p generalizing o with
  | done r s => exact h
  | ask y s k ih =>
    obtain ⟨k',rfl,hk⟩ := h
    simp only [Process.intercept,Wrap.ask]
    cases u.blocked y with
    | true => exact trivial
    | false =>
      refine ⟨k',?_,fun t ht => ?_⟩
      · rw [htag,hsave]
      · show Shadows ((u.wake y t.2).elim .diverge fun w => (k (t.1,w)).intercept u.ask) _
        rw [hsave] at ht
        cases hw : u.wake y t.2 with
        | none => exact trivial
        | some w =>
          rw [hwake y t.2 w hw]
          exact ih (t.1,t.2) (hk t ht)
  | diverge => exact trivial

theorem Shadows.unsuspended (b : Bool) (h : Shadows p o) :
    Shadows (p.intercept fun y s k => if b then .diverge else .ask y s k) o := by
  induction p generalizing o with
  | done r s => exact h
  | ask y s k ih =>
    obtain ⟨k',ho,hk⟩ := h
    cases b with
    | true => exact trivial
    | false => exact ⟨k',ho,fun t ht => ih t (hk t ht)⟩
  | diverge => exact trivial

/-- A course and the ordinary evaluation that it shadows. -/
def Shadowed (m : Course W V X A) (o : Comp V (Cell V X×W) (Signal V X) A) : Prop :=
  ∀s, Calm s.1.cell → Shadows (m s) (o (s.1.cell,s.2))

variable {o : Comp V (Cell V X×W) (Signal V X) A}

theorem Shadowed.bind {m : Course W V X A} (h : Shadowed m o) {f : A → Course W V X B}
    {f' : A → Comp V (Cell V X×W) (Signal V X) B} (hf : ∀a, Shadowed (f a) (f' a)) :
    Shadowed (m>>=f) (o>>=f') := by
  intro s hs
  refine (h s hs).bind fun r t hr ht => ?_
  cases r with
  | ok a => exact hf a t ht
  | error e => exact ⟨rfl,settled_error hr,ht⟩

theorem Shadowed.attempt_bind {m : Course W V X A} (h : Shadowed m o)
    {f : Except (Signal V X) A → Course W V X B}
    {f' : Except (Signal V X) A → Comp V (Cell V X×W) (Signal V X) B}
    (hf : ∀r, Settled r → Shadowed (f r) (f' r)) :
    Shadowed (m.attempt>>=f) (o.attempt>>=f') := by
  intro s hs
  rw [Comp.attempt_bind,Comp.attempt_bind]
  exact (h s hs).bind fun r t hr ht => hf r hr t ht

theorem Plainly.shadowed {c : ∀Y S : Type, Comp Y (S×W) (Signal V X) A} (hc : Plainly c) :
    Shadowed (c (Suspension V) (Regs V X)) (c V (Cell V X)) := by
  intro s hs
  obtain ⟨r,w',hr,h⟩ := hc s.2
  rw [show c (Suspension V) (Regs V X) s=.done r (s.1,w') from h _ _ s.1,h]
  exact ⟨rfl,hr,hs⟩

theorem shadowed_pure (a : A) : Shadowed (pure a : Course W V X A) (pure a) :=
  fun _ hs => ⟨rfl,settled_ok a,hs⟩

theorem shadowed_giveUpIf_bind {b : Bool} {m : Course W V X A} (h : b=false → Shadowed m o) :
    Shadowed (giveUpIf b>>=fun _ => m) o := by
  cases b with
  | true => exact fun _ _ => trivial
  | false => exact h rfl

theorem shadowed_changeRegs_bind {f : Regs V X → Regs V X}
    (hf : ∀g, Calm g.cell → (f g).cell=g.cell) {m : Course W V X A} (h : Shadowed m o) :
    Shadowed (changeRegs f>>=fun _ => m) o := by
  intro s hs
  have hm := h (f s.1,s.2) (by rw [hf s.1 hs]; exact hs)
  rw [hf s.1 hs] at hm
  exact hm

theorem shadowed_leaving (watched : Bool) (key : LoopKey) {m : Course W V X Unit}
    {o : Comp V (Cell V X×W) (Signal V X) Unit} (h : Shadowed m o) :
    Shadowed (leaving watched key m) o := by
  intro s hs
  rw [← Process.bind_done_right (o (s.1.cell,s.2))]
  refine (h s hs).bind fun r t hr ht => ?_
  cases r with
  | ok u => exact ⟨rfl,hr,ht⟩
  | error e =>
    simp only []
    cases watched&&t.1.recorded key with
    | true => exact trivial
    | false => exact ⟨rfl,hr,ht⟩

end Relation

section Parts

variable {W V X L A : Type}

theorem Redoes.shadows {mark : Cell V X → Cell V X} {m : Comp Empty (Cell V X×W) (Signal V X) A}
    {tag : V → Suspension V} (htag : ∀v, (tag v).value=v)
    {p : Process V (Cell V X×W) (Except (Signal V X) A)}
    {q : Process Empty (Cell V X×W) (Except (Signal V X) A)}
    (h : Redoes Calm mark m (p.bind settledEnd) q) (g : Regs V X) :
    Shadows ((p.bind settledEnd).within tag Regs.cell (fun g c => {g with cell := c}) g) p := by
  induction p generalizing q g with
  | done r t =>
    cases r with
    | ok a => exact ⟨rfl,h.2.1,h.2.2⟩
    | error e =>
      cases e with
      | yielded v => exact trivial
      | _ => exact ⟨rfl,h.2.1,h.2.2⟩
  | ask v t k ih =>
    obtain ⟨c,_,_,hk⟩ := h
    refine ⟨k,?_,fun u hu => ?_⟩
    · rw [htag]
    · exact ih (u.1.cell,u.2) (hk _ hu) u.1
  | diverge => exact trivial

theorem shadowed_once {mark : Cell V X → Cell V X} {m : Comp Empty (Cell V X×W) (Signal V X) A}
    {tag : V → Suspension V} (htag : ∀v, (tag v).value=v) {b : Bool}
    {o : Comp V (Cell V X×W) (Signal V X) A}
    (h : ∀t, Calm t.1 → Redoes Calm mark m (onceIf b o t) (m t)) :
    Shadowed ((onceIf b o).within tag Regs.cell fun g c => {g with cell := c}) o := by
  intro t ht
  have hr := h (t.1.cell,t.2) ht
  unfold Comp.within
  unfold onceIf at hr ⊢
  cases b with
  | false =>
    change Redoes Calm mark m ((o _).unasked.bind settledEnd) _ at hr
    change Shadows (((o _).unasked.bind settledEnd).within tag Regs.cell _ t.1) _
    cases hp : o (t.1.cell,t.2) with
    | done r u =>
      rw [hp] at hr
      exact hr.shadows htag t.1
    | _ => exact trivial
  | true => exact hr.shadows htag t.1

variable (E : Effects W V X L) (fuel : Nat) (watch : Watch W V X)

theorem shadowed_directCourse (s : Stmt L) :
    Shadowed (directCourse watch (onceEvaluator E fuel) s) (evalStmt E (answering E) fuel s) :=
  fun t ht => Shadows.unsuspended _
    (shadowed_once (fun _ => rfl) (fun t ht => (adequate_once E fuel).stmt s t ht) t ht)

theorem shadowed_test (e : Expr L) :
    Shadowed (inRegs ((onceEvaluator E fuel).test e)) (evalTest E (answering E) e) :=
  shadowed_once (fun _ => rfl) fun t ht => (adequate_once E fuel).test e t ht

theorem shadowed_iter (key : LoopKey) (e : Expr L) :
    Shadowed (ahead key (inRegs ((onceEvaluator E fuel).iter e))) (evalExpr E (answering E) e) := by
  rw [ahead_inRegs]
  exact shadowed_once (fun _ => rfl) fun t ht => (adequate_once E fuel).iter e t ht

theorem shadowed_items (l : List (Expr L×Option L)) :
    Shadowed (inRegs ((onceEvaluator E fuel).items l)) (enterItems E (answering E) l []) :=
  shadowed_once (fun _ => rfl) fun t ht => (adequate_once E fuel).items l t ht

end Parts

/-- A course is given up wherever the engine departs from ordinary evaluation. -/
structure Watch.Strict {W V X L : Type} (E : Effects W V X L) (watch : Watch W V X) : Prop where
  stale : watch.stale=true
  pending : watch.pending=true
  skips : watch.skips=true
  differ : ∀x y, watch.differ x y=false → x=y
  rebinds : ∀target v w, watch.rebinds target v w=false → (E.setVariable target v w).2=w

section Loops

variable {W V X L : Type} {E : Effects W V X L} {watch : Watch W V X}

/-- The end of one round of a loop in ordinary evaluation. -/
def ordinaryRound {Y S : Type} (next stop : Comp Y S (Signal V X) Unit) :
    Except (Signal V X) Unit → Comp Y S (Signal V X) Unit
  | .ok () => next
  | .error .cont => next
  | .error .brk => stop
  | .error s => Comp.throw s

theorem loopBody_bind {Y A : Type} (m : Comp Y (A×W) (Signal V X) Unit)
    (f : Bool → Comp Y (A×W) (Signal V X) Unit) :
    (loopBody m>>=f)=(m.attempt>>=ordinaryRound (f true) (f false)) := by
  unfold loopBody
  rw [Comp.bind_assoc]
  congr 1
  funext r
  cases r with
  | ok u => rfl
  | error e => cases e <;> rfl

theorem loopItems_cons_bind {Y A : Type} (round : V → Comp Y (A×W) (Signal V X) Bool) (v : V)
    (vs : List V) (f : Bool → Comp Y (A×W) (Signal V X) Unit) :
    (loopItems round (v::vs)>>=f)=
      (round v>>=fun b => if b then loopItems round vs>>=f else f false) := by
  rw [loopItems,Comp.bind_assoc]
  congr 1
  funext b
  cases b <;> rfl

theorem shadowed_round {key : LoopKey} {save : Nat → Regs V X → Regs V X}
    {wake : Nat → W → Option W} (hsave : ∀i g, (save i g).cell=g.cell)
    (hwake : ∀i w w', wake i w=some w' → w'=w) {m next stop : Course W V X Unit}
    {o n st : Comp V (Cell V X×W) (Signal V X) Unit} (hm : Shadowed m o) (hn : Shadowed next n)
    (hst : Shadowed stop st) :
    Shadowed ((inLoop key save wake m).attempt>>=courseRound next stop)
      (o.attempt>>=ordinaryRound n st) := by
  refine Shadowed.attempt_bind ?_ fun r hr => ?_
  · rw [inLoop_eq]
    exact fun s hs => (hm s hs).wrap (fun _ => rfl) (fun y g => hsave y.index g)
      fun y => hwake y.index
  · cases r with
    | ok u => exact hn
    | error e =>
      cases e with
      | cont => exact hn
      | brk => exact hst
      | _ => exact fun s hs => ⟨rfl,hr,hs⟩

variable (hw : watch.Strict E) {body : Nat → Course W V X Unit}
  {o e : Comp V (Cell V X×W) (Signal V X) Unit}

include hw

theorem wakeItem_eq {target : String} {v : V} {i : Nat} {w w' : W}
    (h : wakeItem E watch target v i w=some w') : w'=w := by
  unfold wakeItem at h
  split at h
  · split at h
    · rename_i w'' hset
      split at h
      · cases h
      · rename_i hr
        cases h
        have := hw.rebinds target v w (by simpa using hr)
        rw [hset] at this
        exact this
    · cases h
  · cases h
    rfl

theorem shadowed_exhausted {skipped : Bool} (he : skipped=false → e=pure ()) {f : Regs V X → Regs V X}
    (hf : ∀g, (f g).cell=g.cell) :
    Shadowed (changeRegs f>>=fun _ => giveUpIf (watch.skips&&skipped)) e := by
  refine shadowed_changeRegs_bind (fun g _ => hf g) ?_
  rw [hw.skips,Bool.true_and]
  cases skipped with
  | true => exact fun _ _ => trivial
  | false =>
    rw [he rfl]
    exact shadowed_pure ()

theorem shadowed_items_loop (hb : Shadowed (body 0) o) {skipped : Bool}
    (he : skipped=false → e=pure ()) (target : String) (items vs : List V) (pos : Nat) :
    Shadowed (itemsCourse E watch skipped target items body vs pos 0)
      (loopItems (fun v => assignFor E (.name target) v>>=fun _ => loopBody o) vs>>=fun whole =>
        if whole then e else pure ()) := by
  induction vs generalizing pos with
  | nil => exact shadowed_exhausted hw he fun _ => rfl
  | cons v vs ih =>
    rw [loopItems_cons_bind,Comp.bind_assoc]
    refine (plainly_liftE (E.setVariable target v)).shadowed.bind fun _ => ?_
    rw [loopBody_bind]
    refine shadowed_round ?_ ?_ hb ?_ ?_
    · exact fun _ _ => rfl
    · exact fun _ _ _ h => wakeItem_eq hw h
    · refine shadowed_changeRegs_bind (fun g _ => ?_) (ih (pos+1))
      unfold Regs.advanceFor
      split <;> rfl
    · exact shadowed_changeRegs_bind (fun _ _ => rfl) (shadowed_pure ())

theorem shadowed_lazy_loop (hb : Shadowed (body 0) o) {skipped : Bool}
    (he : skipped=false → e=pure ()) (target : String) (source : V) (fuel : Nat) :
    Shadowed (lazyCourse E watch skipped target source body fuel none)
      (loopLazy E source (fun v => assignFor E (.name target) v>>=fun _ => loopBody o) fuel>>=
        fun whole => if whole then e else pure ()) := by
  induction fuel with
  | zero => exact fun _ _ => trivial
  | succ fuel ih =>
    rw [lazyCourse,loopLazy,itemAt,Comp.bind_assoc,Comp.bind_assoc]
    refine (plainly_pull E source).shadowed.bind fun item => ?_
    cases item with
    | none => exact shadowed_exhausted hw he fun _ => rfl
    | some v =>
      simp only []
      rw [Comp.bind_assoc,Comp.bind_assoc,Comp.bind_assoc]
      refine (plainly_liftE (E.setVariable target v)).shadowed.bind fun _ => ?_
      rw [loopBody_bind]
      refine shadowed_round ?_ ?_ hb ?_ ?_
      · exact fun _ _ => rfl
      · exact fun _ _ _ h => (Option.some.inj h).symm
      · exact ih
      · exact shadowed_changeRegs_bind (fun _ _ => rfl) (shadowed_pure ())

theorem shadowed_while_loop (hb : Shadowed (body 0) o) {skipped : Bool}
    (he : skipped=false → e=pure ()) {test : Course W V X Bool}
    {t : Comp V (Cell V X×W) (Signal V X) Bool} (ht : Shadowed test t) (offset fuel : Nat) :
    Shadowed (whileCourse watch skipped offset (unsuspended true test) body fuel none)
      (loopWhile t (loopBody o) fuel>>=fun whole => if whole then e else pure ()) := by
  induction fuel with
  | zero => exact fun _ _ => trivial
  | succ fuel ih =>
    rw [whileCourse,loopWhile,Comp.bind_assoc]
    refine Shadowed.bind (fun s hs => (ht s hs).unsuspended true) fun go => ?_
    cases go with
    | false => exact shadowed_exhausted hw he fun _ => rfl
    | true =>
      simp only [if_true]
      rw [Comp.bind_assoc,loopBody_bind]
      refine shadowed_round ?_ ?_ hb ?_ ?_
      · exact fun _ _ => rfl
      · exact fun _ _ _ h => (Option.some.inj h).symm
      · exact ih
      · exact shadowed_changeRegs_bind (fun _ _ => rfl) (shadowed_pure ())

theorem shadowed_forCourse (fuel : Nat) (hb : Shadowed (body 0) o) {skipped : Bool}
    (he : skipped=false → e=pure ()) (target : String) (iter : Expr L) :
    Shadowed (forCourse E watch (onceEvaluator E fuel) fuel skipped target iter body)
      (evalExpr E (answering E) iter>>=fun iterable =>
        loopOver E iterable (fun v => assignFor E (.name target) v>>=fun _ => loopBody o) fuel>>=
          fun whole => if whole then e else pure ()) := by
  intro s hs
  unfold forCourse
  rw [seeRegs_bind]
  cases s.1.loops.forStack.lookup target with
  | some st =>
    obtain ⟨items,pos,index,source,current⟩ := st
    cases source with
    | some source =>
      simp only [hw.stale]
      exact trivial
    | none =>
      simp only [hw.stale]
      exact trivial
  | none =>
    refine (shadowed_iter E fuel (.forLoop target) iter).bind (fun iterable => ?_) s hs
    unfold loopOver
    cases E.isLazy iterable with
    | true => exact shadowed_lazy_loop hw hb he target iterable fuel
    | false =>
      simp only [Bool.false_eq_true,if_false]
      rw [Comp.bind_assoc]
      exact (plainly_liftE (E.iter iterable)).shadowed.bind fun items =>
        shadowed_items_loop hw hb he target items items 0

theorem shadowed_runWhileCourse (fuel : Nat) (hb : Shadowed (body 0) o) {skipped : Bool}
    (he : skipped=false → e=pure ()) (offset : Nat) (test : Expr L) :
    Shadowed (runWhileCourse watch (onceEvaluator E fuel) fuel skipped offset test body)
      (loopWhile (evalTest E (answering E) test) (loopBody o) fuel>>=fun whole =>
        if whole then e else pure ()) := by
  intro s hs
  unfold runWhileCourse
  rw [seeRegs_bind]
  cases s.1.loops.whileResume.lookup offset with
  | some i =>
    simp only [hw.stale]
    exact trivial
  | none =>
    simp only [hw.stale]
    exact shadowed_while_loop hw hb he (shadowed_test E fuel test) offset fuel s hs

end Loops

section Try

variable {W V X L : Type} {E : Effects W V X L} {watch : Watch W V X} (hw : watch.Strict E)

include hw in
/-- `finally` when nothing that is pending has to outlast a suspension of it. -/
theorem shadowed_finishCourse {finalbody : Course W V X Unit}
    {o : Comp V (Cell V X×W) (Signal V X) Unit} (hf : Shadowed finalbody o)
    {pending : Except (Signal V X) Unit} (hp : Settled pending) :
    Shadowed (finishCourse watch finalbody pending) (finishTry pending o) := by
  intro s hs
  have h := hf s hs
  unfold finishCourse finishTry
  rw [Comp.bind_apply]
  cases hc : finalbody s with
  | done r t =>
    rw [hc] at h
    obtain ⟨ho,hr,ht⟩ := h
    rw [ho]
    cases r with
    | error e => exact ⟨rfl,hr,ht⟩
    | ok u =>
      cases pending with
      | ok v => exact ⟨rfl,hp,ht⟩
      | error e => exact ⟨rfl,hp,ht⟩
  | ask y t k =>
    rw [hc] at h
    cases pending with
    | error e =>
      simp only [hw.pending]
      exact trivial
    | ok v =>
      obtain ⟨k',ho,hk⟩ := h
      rw [ho]
      refine ⟨_,rfl,fun t ht => ?_⟩
      rw [← Process.bind_done_right (k t)]
      refine (hk t ht).bind fun r u hr hu => ?_
      cases r with
      | ok w => exact ⟨rfl,hr,hu⟩
      | error e => exact ⟨rfl,hr,hu⟩
  | diverge => exact trivial

/-- A handler and its ordinary evaluation. -/
structure ClauseShadowed (c : Clause L (Course W V X Unit)) (type : Option L) (name : Option String)
    (o : Comp V (Cell V X×W) (Signal V X) Unit) : Prop where
  type : c.type=type
  name : c.name=name
  body : Shadowed c.body o

def HandlerShadowed (E : Effects W V X L) (fuel : Nat) (c : Clause L (Course W V X Unit)) :
    Handler L → Prop
  | .mk type name body => ClauseShadowed c type name (evalBody E (answering E) fuel body)

theorem runHandler_bind {Y A : Type} {name : Option String} {x : X}
    {body : Comp Y (A×W) (Signal V X) Unit}
    (f : Except (Signal V X) Unit → Comp Y (A×W) (Signal V X) Unit) {s : A×W}
    (hx : caught E x s.2=x) :
    (runHandler E name x body>>=f) s=(do
      bindName E name (E.excValue x)
      modifyW (E.pushException x)
      let r ← body.attempt
      modifyW E.popException
      unbindName E name
      f (chainContext E x r) : Comp Y (A×W) (Signal V X) Unit) s := by
  unfold runHandler
  simp only [Comp.bind_assoc]
  show (bindName E name (E.excValue (caught E x s.2))>>=_) s=_
  rw [hx]
  rfl

include hw

theorem shadowed_raisedContext_bind {x : X} {r : Except (Signal V X) Unit}
    {m : Course W V X Unit} {o : Except (Signal V X) Unit → Comp V (Cell V X×W) (Signal V X) Unit}
    (h : Shadowed m (o r)) :
    Shadowed (raisedContext E watch x r>>=fun _ => m) (o (chainContext E x r)) := by
  cases r with
  | ok u => exact h
  | error e =>
    cases e with
    | exc y =>
      refine shadowed_giveUpIf_bind fun hb => ?_
      have hy : E.setImplicitContext y x=y := hw.differ _ _ hb
      rw [chainContext,hy]
      exact h
    | _ => exact h

theorem shadowed_handler {c : Clause L (Course W V X Unit)} {type : Option L}
    {name : Option String} {o final : Comp V (Cell V X×W) (Signal V X) Unit}
    {finalbody : Course W V X Unit} (hc : ClauseShadowed c type name o)
    (hf : Shadowed finalbody final) (x : X) :
    Shadowed (do
      sameContext watch (caught E x) x
      bindName E c.name (E.excValue x)
      modifyW (E.pushException x)
      let r ← c.body.attempt
      modifyW E.popException
      unbindName E c.name
      raisedContext E watch x r
      finishCourse watch finalbody r) (runHandler E name x o>>=fun r => finishTry r final) := by
  intro s hs
  rw [hc.name]
  show Shadows ((giveUpIf (watch.differ (caught E x s.2) x)>>=fun _ => _) s) _
  cases hd : watch.differ (caught E x s.2) x with
  | true => exact trivial
  | false =>
    rw [runHandler_bind (s := (s.1.cell,s.2)) _ (hw.differ _ _ hd)]
    refine (plainly_bindName E name (E.excValue x)).shadowed.bind (fun _ => ?_) s hs
    refine (plainly_modifyW (E.pushException x)).shadowed.bind fun _ => ?_
    refine hc.body.attempt_bind fun r hr => ?_
    refine (plainly_modifyW E.popException).shadowed.bind fun _ => ?_
    refine (plainly_unbindName E name).shadowed.bind fun _ => ?_
    exact shadowed_raisedContext_bind hw (o := fun r => finishTry r final)
      (shadowed_finishCourse hw hf hr)

theorem shadowed_handlersCourse (fuel : Nat) {finalbody : Course W V X Unit}
    {final : Comp V (Cell V X×W) (Signal V X) Unit} (hf : Shadowed finalbody final) (x : X)
    (cs : List (Clause L (Course W V X Unit))) (hs : List (Handler L))
    (hcs : List.Forall₂ (HandlerShadowed E fuel) cs hs) :
    Shadowed (handlersCourse E watch x finalbody cs)
      (tryMatchHandlers E (answering E) fuel x hs>>=fun r => finishTry r final) := by
  induction hcs with
  | nil => exact shadowed_finishCourse hw hf (settled_exc x)
  | @cons c h cs hs hc _ ih =>
    obtain ⟨type,name,body⟩ := h
    rw [handlersCourse,tryMatchHandlers,Comp.bind_assoc,hc.type]
    refine (plainly_liftE (E.matchesHandler type x)).shadowed.bind fun matched => ?_
    cases matched with
    | true => exact shadowed_handler hw hc hf x
    | false => exact ih

theorem shadowed_tryCourse (fuel : Nat) {body orelse finalbody : Course W V X Unit}
    {b e f : List (Stmt L)} (hb : Shadowed body (evalBody E (answering E) fuel b))
    (he : Shadowed orelse (evalBody E (answering E) fuel e))
    (hf : Shadowed finalbody (evalBody E (answering E) fuel f))
    {cs : List (Clause L (Course W V X Unit))} {hs : List (Handler L)}
    (hcs : List.Forall₂ (HandlerShadowed E fuel) cs hs) :
    Shadowed (tryCourse E watch body orelse finalbody cs)
      (evalStmt E (answering E) fuel (.tryStmt b hs e f)) := by
  rw [evalStmt]
  refine hb.attempt_bind fun r hr => ?_
  cases r with
  | ok u => exact he.attempt_bind fun r hr => shadowed_finishCourse hw hf hr
  | error s =>
    cases s with
    | exc x => exact shadowed_handlersCourse hw fuel hf x cs hs hcs
    | yielded v => exact absurd rfl (hr v)
    | _ => exact shadowed_finishCourse hw hf hr

end Try

section Walks

variable {W V X L : Type} {E : Effects W V X L} {watch : Watch W V X}

theorem shadowed_cleared_bind {b : Bool} {m : Course W V X Unit}
    {o : Comp V (Cell V X×W) (Signal V X) Unit} (h : Shadowed m o) :
    Shadowed (changeRegs (Regs.cleared b)>>=fun _ => m) o := by
  refine shadowed_changeRegs_bind (fun g hg => ?_) h
  cases b with
  | false => rfl
  | true =>
    show {g.cell with resumeAtYield := false}=g.cell
    rw [← show g.cell.resumeAtYield=false from hg]

theorem shadowed_courseFrom (fuel : Nat) (ctx : Ctx) (ss : List (Stmt L))
    (hs : ∀s ∈ ss, Shadowed (course E watch (onceEvaluator E fuel) fuel s)
      (evalStmt E (answering E) fuel s)) (i : Nat) :
    Shadowed (courseFrom E watch (onceEvaluator E fuel) fuel ctx 0 i ss)
      (evalBody E (answering E) fuel ss) := by
  induction ss generalizing i with
  | nil => exact shadowed_pure ()
  | cons s ss ih =>
    rw [courseFrom,if_neg (Nat.not_lt_zero i),evalBody,atIndex_eq]
    refine Shadowed.bind (fun t ht => Shadows.wrap ?_ ?_ ?_ ?_) fun _ => ?_
    · exact fun _ => rfl
    · exact fun _ _ => rfl
    · exact fun _ _ _ h => (Option.some.inj h).symm
    · cases delegates ctx s with
      | true => exact hs s List.mem_cons_self t ht
      | false => exact shadowed_directCourse E fuel watch s t ht
    · exact shadowed_cleared_bind (ih (fun s h => hs s (List.mem_cons_of_mem _ h)) (i+1))

theorem shadowed_ifCourse (fuel : Nat) (test : Expr L) {body orelse : Course W V X Unit}
    {b e : List (Stmt L)} (hb : Shadowed body (evalBody E (answering E) fuel b))
    (he : Shadowed orelse (evalBody E (answering E) fuel e)) :
    Shadowed (ifCourse (onceEvaluator E fuel) test body orelse)
      (evalStmt E (answering E) fuel (.ifStmt test b e)) := by
  rw [evalStmt]
  refine (shadowed_test E fuel test).bind fun go => ?_
  cases go with
  | true => exact hb
  | false => exact he

theorem shadowed_withCourse (fuel : Nat) (items : List (Expr L×Option L))
    {body : Course W V X Unit} {b : List (Stmt L)}
    (hb : Shadowed body (evalBody E (answering E) fuel b)) :
    Shadowed (withCourse E (onceEvaluator E fuel) items body)
      (evalStmt E (answering E) fuel (.withStmt items b)) := by
  rw [evalStmt]
  refine (shadowed_items E fuel items).bind fun managers => ?_
  exact hb.attempt_bind fun r hr => (plainly_exitContextManagers E managers hr).shadowed

theorem evalBody_of_isEmpty (fuel : Nat) {ss : List (Stmt L)} (h : (!ss.isEmpty)=false) :
    evalBody E (answering E) fuel ss=pure () := by
  cases ss with
  | nil => rfl
  | cons s ss => cases h

mutual

/-- The course of a statement shadows its ordinary evaluation. -/
theorem shadowed_course (hw : watch.Strict E) (fuel : Nat) : ∀s : Stmt L,
    Shadowed (course E watch (onceEvaluator E fuel) fuel s) (evalStmt E (answering E) fuel s)
  | .simple kind l parts => shadowed_directCourse E fuel watch _
  | .ifStmt test body orelse =>
    shadowed_ifCourse fuel test
      (shadowed_courseFrom fuel .branch body (shadowed_stmts hw fuel body) 0)
      (shadowed_courseFrom fuel .branch orelse (shadowed_stmts hw fuel orelse) 0)
  | .forStmt (.name id) iter body orelse => by
    rw [course,evalStmt]
    exact shadowed_leaving _ _ (shadowed_forCourse hw fuel
      (shadowed_courseFrom fuel .forLoop body (shadowed_stmts hw fuel body) 0)
      (evalBody_of_isEmpty fuel) id iter)
  | .forStmt (.other l) iter body orelse => shadowed_directCourse E fuel watch _
  | .whileStmt offset test body orelse => by
    rw [course,evalStmt]
    exact shadowed_leaving _ _ (shadowed_runWhileCourse hw fuel
      (shadowed_courseFrom fuel .whileLoop body (shadowed_stmts hw fuel body) 0)
      (evalBody_of_isEmpty fuel) offset test)
  | .tryStmt body handlers orelse finalbody =>
    shadowed_tryCourse hw fuel
      (shadowed_courseFrom fuel .phase body (shadowed_stmts hw fuel body) 0)
      (shadowed_courseFrom fuel .phase orelse (shadowed_stmts hw fuel orelse) 0)
      (shadowed_courseFrom fuel .phase finalbody (shadowed_stmts hw fuel finalbody) 0)
      (shadowed_clauses hw fuel handlers)
  | .withStmt items body =>
    shadowed_withCourse fuel items
      (shadowed_courseFrom fuel .block body (shadowed_stmts hw fuel body) 0)
  | .blocks searched l bodies => shadowed_directCourse E fuel watch _

theorem shadowed_stmts (hw : watch.Strict E) (fuel : Nat) : ∀ss : List (Stmt L), ∀s ∈ ss,
    Shadowed (course E watch (onceEvaluator E fuel) fuel s) (evalStmt E (answering E) fuel s)
  | [] => fun _ h => (nomatch h)
  | s::ss => List.forall_mem_cons.mpr ⟨shadowed_course hw fuel s,shadowed_stmts hw fuel ss⟩

theorem shadowed_clauses (hw : watch.Strict E) (fuel : Nat) : ∀hs : List (Handler L),
    List.Forall₂ (HandlerShadowed E fuel)
      (clauseCourses E watch (onceEvaluator E fuel) fuel hs) hs
  | [] => .nil
  | .mk type name body::hs => .cons ⟨rfl,rfl,
      shadowed_courseFrom fuel .phase body (shadowed_stmts hw fuel body) 0⟩
      (shadowed_clauses hw fuel hs)

end

end Walks

section Runs

variable {W V X L : Type}

theorem Shadows.play {p : Process (Suspension V) (Regs V X×W) (Except (Signal V X) Unit)}
    {o : Process V (Cell V X×W) (Except (Signal V X) Unit)} (h : Shadows p o)
    (as : List (Answer W V X)) (hp : (p.play (as.map Answer.onRegs)).2≠.lost) :
    o.play (as.map Answer.act)=((p.play (as.map Answer.onRegs)).1.map Suspension.value,
      (p.play (as.map Answer.onRegs)).2.map fun s => (s.1.cell,s.2)) := by
  induction p generalizing o as with
  | done r s =>
    obtain ⟨rfl,_⟩ := h
    rfl
  | ask y s k ih =>
    obtain ⟨k',rfl,hk⟩ := h
    cases as with
    | nil => rfl
    | cons a as =>
      have hrest := ih (a.onRegs s) (hk _ fun h => a.keeps _ h) as hp
      show (y.value::((k' (a.act (s.1.cell,s.2))).play (as.map Answer.act)).1,
        ((k' (a.act (s.1.cell,s.2))).play (as.map Answer.act)).2)=_
      rw [show a.act (s.1.cell,s.2)=((a.onRegs s).1.cell,(a.onRegs s).2) from rfl,hrest]
      rfl
  | diverge => exact absurd rfl hp

/-- The events at which a run departs from ordinary evaluation: a loop goes on from a record that
another one has left, something that is pending is forgotten, the `else` block of a loop is
skipped, an exception has no context, a loop variable that the body has changed is bound again. -/
def Watch.departures [DecidableEq X] [DecidableEq W] (E : Effects W V X L) : Watch W V X where
  leaks := false
  stale := true
  hidden := false
  pending := true
  skips := true
  differ x y := x≠y
  rebinds target v w := (E.setVariable target v w).2≠w

theorem departures_strict [DecidableEq X] [DecidableEq W] (E : Effects W V X L) :
    (Watch.departures E).Strict E where
  stale := rfl
  pending := rfl
  skips := rfl
  differ x y h := by simpa [Watch.departures] using h
  rebinds target v w h := by simpa [Watch.departures] using h

/-- `try: raise 9`, `except: yield 1`, `finally: x = 3`. -/
def yieldsInHandler : List (Stmt TinyOp) :=
  [.tryStmt [.simple .raise (.raise 9) []]
    [.mk none none [.simple .expr .skip [.yield (.node (.const 1) [])]]] []
    [.simple .assign .store [.node (.const 3) []]]]

/-- `try: raise 9`, `finally: yield 2`. -/
def yieldsInFinally : List (Stmt TinyOp) :=
  [.tryStmt [.simple .raise (.raise 9) []] [] [] [.simple .expr .skip [.yield (.node (.const 2) [])]]]

end Runs

end InterpretThis.Generator
