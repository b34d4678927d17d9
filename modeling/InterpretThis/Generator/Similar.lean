import InterpretThis.Generator.Eval

namespace InterpretThis.Generator

open Resumption

section Free

variable {L : Type}

mutual

/-- No yield anywhere, also where the search of the interpreter does not look. -/
def yieldFree : Stmt L → Bool
  | .simple _ _ parts => !containsYieldExprs parts
  | .ifStmt test body orelse => !containsYieldExpr test&&yieldFrees body&&yieldFrees orelse
  | .forStmt _ iter body orelse => !containsYieldExpr iter&&yieldFrees body&&yieldFrees orelse
  | .whileStmt _ test body orelse => !containsYieldExpr test&&yieldFrees body&&yieldFrees orelse
  | .tryStmt body handlers orelse finalbody =>
    yieldFrees body&&yieldFreeHandlers handlers&&yieldFrees orelse&&yieldFrees finalbody
  | .withStmt items body => !containsYieldExprs (items.map Prod.fst)&&yieldFrees body
  | .blocks _ _ bodies => yieldFreeBlocks bodies

def yieldFrees : List (Stmt L) → Bool
  | [] => true
  | s::ss => yieldFree s&&yieldFrees ss

def yieldFreeHandlers : List (Handler L) → Bool
  | [] => true
  | .mk _ _ body::hs => yieldFrees body&&yieldFreeHandlers hs

def yieldFreeBlocks : List (List (Stmt L)) → Bool
  | [] => true
  | b::bs => yieldFrees b&&yieldFreeBlocks bs

end

end Free

section Operations

variable {W V X L : Type}

/-- An operation that raises, as a step of a body. -/
def raising {α : Type} (f : W → Except X α×W) (w : W) : Except (Signal V X) α×W :=
  ((f w).1.mapError .exc,(f w).2)

/-- Every operation of the interpreter, as a step of a body, has the property. -/
structure Effects.Respects (E : Effects W V X L)
    (P : ∀α : Type, (W → Except (Signal V X) α×W) → Prop) : Prop where
  prim : ∀l vs, P V (raising (E.prim l vs))
  act : ∀l vs, P Unit (E.act l vs)
  truthy : ∀v, P Bool (raising (E.truthy v))
  iter : ∀v, P (List V) (raising (E.iter v))
  next : ∀v, P V (raising (E.next v))
  assignTarget : ∀l v, P Unit (raising (E.assignTarget l v))
  setVariable : ∀n v, P Unit (raising (E.setVariable n v))
  deleteVariable : ∀n, P Unit fun w => (.ok (),E.deleteVariable n w)
  matchesHandler : ∀t x, P Bool (raising (E.matchesHandler t x))
  pushException : ∀x, P Unit fun w => (.ok (),E.pushException x w)
  popException : P Unit fun w => (.ok (),E.popException w)
  caught : ∀x, P X fun w => (.ok (caught E x w),w)
  enterContext : ∀v, P V (raising (E.enterContext v))
  exitContext : ∀v x, P Bool (raising (E.exitContext v x))
  choose : ∀l last, P (Choice V X) fun w => (.ok (E.choose l last w).1,(E.choose l last w).2)

theorem Effects.respects_true (E : Effects W V X L) : E.Respects fun _ _ => True :=
  ⟨fun _ _ => trivial,fun _ _ => trivial,fun _ => trivial,fun _ => trivial,fun _ => trivial,
    fun _ _ => trivial,fun _ _ => trivial,fun _ => trivial,fun _ _ => trivial,fun _ => trivial,
    trivial,fun _ => trivial,fun _ => trivial,fun _ _ => trivial,fun _ _ => trivial⟩

end Operations

/-- A congruence between two ways to yield: every lawful step of the shared state is related to
itself, and so are the yield expressions, unless only statements without them are compared. -/
structure Similar {Y Y' A A' W V X : Type} (h : Yielding Y (A×W) V X)
    (h' : Yielding Y' (A'×W) V X) (yields : Bool) extends
    Congruence Y (A×W) Y' (A'×W) (Signal V X) where
  lawful : ∀α : Type, (W → Except (Signal V X) α×W) → Prop
  lift : ∀{α : Type} (f : W → Except (Signal V X) α×W), lawful α f → rel (liftS f) (liftS f)
  yield : yields=true → ∀{m m'}, rel m m' → rel (h.yield m) (h'.yield m')
  yieldFrom : yields=true → ∀{m m'}, rel m m' → rel (h.yieldFrom m) (h'.yieldFrom m')

section Relation

variable {Y Y' A A' W V X L : Type} (E : Effects W V X L) {h : Yielding Y (A×W) V X}
  {h' : Yielding Y' (A'×W) V X} {yields : Bool} (R : Similar h h' yields)

namespace Similar

theorem liftE {α : Type} (f : W → Except X α×W) (hf : R.lawful α (raising f)) :
    R.rel (Generator.liftE f) (Generator.liftE f) :=
  R.lift (raising f) hf

theorem modifyW (f : W → W) (hf : R.lawful Unit fun w => (.ok (),f w)) :
    R.rel (Generator.modifyW f) (Generator.modifyW f) :=
  R.lift (fun w => (.ok (),f w)) hf

theorem readW {α : Type} (f : W → α) (hf : R.lawful α fun w => (.ok (f w),w)) :
    R.rel (Generator.readW f) (Generator.readW f) :=
  R.lift (fun w => (.ok (f w),w)) hf

theorem ite {α : Type} (b : Bool) {m n : Comp Y (A×W) (Signal V X) α}
    {m' n' : Comp Y' (A'×W) (Signal V X) α} (hm : R.rel m m') (hn : R.rel n n') :
    R.rel (if b then m else n) (if b then m' else n') := by
  cases b
  · exact hn
  · exact hm

theorem assignFor (hE : E.Respects R.lawful) (target : Target L) (v : V) :
    R.rel (Generator.assignFor E target v) (Generator.assignFor E target v) := by
  cases target with
  | name id => exact R.liftE _ (hE.setVariable id v)
  | other l => exact R.liftE _ (hE.assignTarget l v)

theorem exitEach (hE : E.Respects R.lawful) (managers : List V) (pending : Option X) :
    R.rel (Generator.exitEach E managers pending) (Generator.exitEach E managers pending) := by
  induction managers generalizing pending with
  | nil => exact R.pure pending
  | cons cm cms ih =>
    refine R.bind (R.attempt (R.liftE _ (hE.exitContext cm pending))) fun r => ?_
    cases r with
    | ok suppress => exact ih _
    | error s =>
      cases s with
      | exc x => exact ih _
      | _ => exact R.throw _

theorem raised (pending : Option X) :
    R.rel (match pending with | some x => Comp.throw (.exc x) | none => Pure.pure ())
      (match pending with | some x => Comp.throw (.exc x) | none => Pure.pure ()) := by
  cases pending with
  | none => exact R.pure ()
  | some x => exact R.throw _

theorem exitContextManagers (hE : E.Respects R.lawful) (managers : List V) (r : Except (Signal V X) Unit) :
    R.rel (Generator.exitContextManagers E managers r)
      (Generator.exitContextManagers E managers r) := by
  cases r with
  | ok u => exact R.bind (R.exitEach E hE _ _) R.raised
  | error s =>
    cases s with
    | exc x => exact R.bind (R.exitEach E hE _ _) R.raised
    | _ => exact R.bind (R.exitEach E hE _ _) fun _ => R.throw _

theorem loopBody {m : Comp Y (A×W) (Signal V X) Unit} {m' : Comp Y' (A'×W) (Signal V X) Unit}
    (hm : R.rel m m') : R.rel (Generator.loopBody m) (Generator.loopBody m') := by
  refine R.bind (R.attempt hm) fun r => ?_
  cases r with
  | ok u => exact R.pure true
  | error s =>
    cases s with
    | cont => exact R.pure true
    | brk => exact R.pure false
    | _ => exact R.throw _

variable {round : V → Comp Y (A×W) (Signal V X) Bool}

theorem loopItems {round' : V → Comp Y' (A'×W) (Signal V X) Bool}
    (hr : ∀v, R.rel (round v) (round' v)) (items : List V) :
    R.rel (Generator.loopItems round items) (Generator.loopItems round' items) := by
  induction items with
  | nil => exact R.pure true
  | cons v vs ih => exact R.bind (hr v) fun b => R.ite b ih (R.pure false)

theorem pull (hE : E.Respects R.lawful) (source : V) : R.rel (Generator.pull E source) (Generator.pull E source) := by
  refine R.bind (R.attempt (R.liftE _ (hE.next source))) fun r => ?_
  cases r with
  | ok v => exact R.pure (some v)
  | error s =>
    cases s with
    | exc x => exact R.ite (E.isStop x) (R.pure none) (R.throw _)
    | _ => exact R.throw _

theorem loopLazy (hE : E.Respects R.lawful) (source : V)
    {round' : V → Comp Y' (A'×W) (Signal V X) Bool} (hr : ∀v, R.rel (round v) (round' v))
    (fuel : Nat) :
    R.rel (Generator.loopLazy E source round fuel) (Generator.loopLazy E source round' fuel) := by
  induction fuel with
  | zero => exact R.diverge
  | succ fuel ih =>
    refine R.bind (R.pull E hE source) fun o => ?_
    cases o with
    | none => exact R.pure true
    | some v => exact R.bind (hr v) fun b => R.ite b ih (R.pure false)

theorem loopOver (hE : E.Respects R.lawful) (iterable : V)
    {round' : V → Comp Y' (A'×W) (Signal V X) Bool} (hr : ∀v, R.rel (round v) (round' v))
    (fuel : Nat) : R.rel (Generator.loopOver E iterable round fuel)
      (Generator.loopOver E iterable round' fuel) :=
  R.ite _ (R.loopLazy E hE iterable hr fuel)
    (R.bind (R.liftE _ (hE.iter iterable)) fun items => R.loopItems hr items)

theorem loopWhile {test body : Comp Y (A×W) (Signal V X) Bool}
    {test' body' : Comp Y' (A'×W) (Signal V X) Bool} (ht : R.rel test test')
    (hb : R.rel body body') (fuel : Nat) :
    R.rel (Generator.loopWhile test body fuel) (Generator.loopWhile test' body' fuel) := by
  induction fuel with
  | zero => exact R.diverge
  | succ fuel ih =>
    refine R.bind ht fun b => R.ite b ?_ (R.pure true)
    exact R.bind hb fun b => R.ite b ih (R.pure false)

theorem runBlocks (hE : E.Respects R.lawful) (l : L) {block : Nat → Comp Y (A×W) (Signal V X) Unit}
    {block' : Nat → Comp Y' (A'×W) (Signal V X) Unit} (hb : ∀i, R.rel (block i) (block' i))
    (fuel : Nat) (last : Option (Except (Signal V X) Unit)) :
    R.rel (Generator.runBlocks E l block fuel last) (Generator.runBlocks E l block' fuel last) := by
  induction fuel generalizing last with
  | zero => exact R.diverge
  | succ fuel ih =>
    refine R.bind (R.lift _ (hE.choose l last)) fun c => ?_
    cases c with
    | block i => exact R.bind (R.attempt (hb i)) fun r => ih (some r)
    | finish r =>
      cases r with
      | ok u => exact R.pure ()
      | error s => exact R.throw s

theorem bindName (hE : E.Respects R.lawful) (name : Option String) (v : V) :
    R.rel (Generator.bindName E name v) (Generator.bindName E name v) := by
  cases name with
  | none => exact R.pure ()
  | some n => exact R.liftE _ (hE.setVariable n v)

theorem unbindName (hE : E.Respects R.lawful) (name : Option String) :
    R.rel (Generator.unbindName E name) (Generator.unbindName E name) := by
  cases name with
  | none => exact R.pure ()
  | some n => exact R.modifyW _ (hE.deleteVariable n)

theorem assignOptional (hE : E.Respects R.lawful) (target : Option L) (v : V) :
    R.rel (Generator.assignOptional E target v) (Generator.assignOptional E target v) := by
  cases target with
  | none => exact R.pure ()
  | some l => exact R.liftE _ (hE.assignTarget l v)

theorem runHandler (hE : E.Respects R.lawful) (name : Option String) (x : X) {m : Comp Y (A×W) (Signal V X) Unit}
    {m' : Comp Y' (A'×W) (Signal V X) Unit} (hm : R.rel m m') :
    R.rel (Generator.runHandler E name x m) (Generator.runHandler E name x m') := by
  refine R.bind (R.readW _ (hE.caught x)) fun x => R.bind (R.bindName E hE name _) fun _ => ?_
  refine R.bind (R.modifyW _ (hE.pushException x)) fun _ => R.bind (R.attempt hm) fun r => ?_
  exact R.bind (R.modifyW _ hE.popException) fun _ => R.bind (R.unbindName E hE name) fun _ =>
    R.pure _

theorem finishTry (pending : Except (Signal V X) Unit) {m : Comp Y (A×W) (Signal V X) Unit}
    {m' : Comp Y' (A'×W) (Signal V X) Unit} (hm : R.rel m m') :
    R.rel (Generator.finishTry pending m) (Generator.finishTry pending m') := by
  refine R.bind hm fun _ => ?_
  cases pending with
  | ok u => exact R.pure ()
  | error s => exact R.throw s

end Similar

/-- Yields are related, or there are none. -/
def Fine (yields free : Bool) : Prop := yields=true ∨ free=true

theorem fine_and {yields a b : Bool} (hf : Fine yields (a&&b)) : Fine yields a ∧ Fine yields b := by
  rcases hf with hy | hf
  · exact ⟨.inl hy,.inl hy⟩
  · obtain ⟨ha,hb⟩ := Bool.and_eq_true_iff.mp hf
    exact ⟨.inr ha,.inr hb⟩

theorem fine_not_or {yields a b : Bool} (hf : Fine yields (!(a||b))) :
    Fine yields (!a) ∧ Fine yields (!b) := by
  rw [Bool.not_or] at hf
  exact fine_and hf

mutual

theorem evalExpr_similar (hE : E.Respects R.lawful) : ∀e : Expr L, Fine yields (!containsYieldExpr e) →
    R.rel (evalExpr E h e) (evalExpr E h' e)
  | .node l args,hf => by
    rw [evalExpr,evalExpr]
    exact R.bind (evalExprs_similar hE args (by rwa [containsYieldExpr] at hf)) fun vs =>
      R.liftE _ (hE.prim l vs)
  | .boolOp isAnd left right,hf => by
    rw [containsYieldExpr] at hf
    obtain ⟨hl,hr⟩ := fine_not_or hf
    rw [evalExpr,evalExpr]
    refine R.bind (evalExpr_similar hE left hl) fun v => R.bind (R.liftE _ (hE.truthy v)) fun b => ?_
    split
    · exact evalExpr_similar hE right hr
    · exact R.pure v
  | .ifExp test body orelse,hf => by
    rw [containsYieldExpr] at hf
    obtain ⟨hf,ho⟩ := fine_not_or hf
    obtain ⟨ht,hb⟩ := fine_not_or hf
    rw [evalExpr,evalExpr]
    refine R.bind (evalExpr_similar hE test ht) fun v => R.bind (R.liftE _ (hE.truthy v)) fun b => ?_
    exact R.ite b (evalExpr_similar hE body hb) (evalExpr_similar hE orelse ho)
  | .yield value,hf => by
    have hy : yields=true := by simpa [Fine,containsYieldExpr] using hf
    rw [evalExpr,evalExpr]
    exact R.yield hy (evalExpr_similar hE value (.inl hy))
  | .yieldFrom source,hf => by
    have hy : yields=true := by simpa [Fine,containsYieldExpr] using hf
    rw [evalExpr,evalExpr]
    exact R.yieldFrom hy (evalExpr_similar hE source (.inl hy))

theorem evalExprs_similar (hE : E.Respects R.lawful) : ∀es : List (Expr L), Fine yields (!containsYieldExprs es) →
    R.rel (evalExprs E h es) (evalExprs E h' es)
  | [],_ => by
    rw [evalExprs,evalExprs]
    exact R.pure []
  | e::es,hf => by
    rw [containsYieldExprs] at hf
    obtain ⟨he,hes⟩ := fine_not_or hf
    rw [evalExprs,evalExprs]
    refine R.bind (evalExpr_similar hE e he) fun v => ?_
    exact R.bind (evalExprs_similar hE es hes) fun vs => R.pure (v::vs)

end

theorem evalTest_similar (hE : E.Respects R.lawful) (test : Expr L) (hf : Fine yields (!containsYieldExpr test)) :
    R.rel (evalTest E h test) (evalTest E h' test) :=
  R.bind (evalExpr_similar E R hE test hf) fun v => R.liftE _ (hE.truthy v)

theorem enterItems_similar (hE : E.Respects R.lawful) (items : List (Expr L×Option L)) (managers : List V)
    (hf : Fine yields (!containsYieldExprs (items.map Prod.fst))) :
    R.rel (enterItems E h items managers) (enterItems E h' items managers) := by
  induction items generalizing managers with
  | nil => exact R.pure managers
  | cons item items ih =>
    rw [List.map_cons,containsYieldExprs] at hf
    obtain ⟨he,hes⟩ := fine_not_or hf
    refine R.bind (evalExpr_similar E R hE item.1 he) fun cm => ?_
    refine R.bind (R.liftE _ (hE.enterContext cm)) fun entered => ?_
    exact R.bind (R.assignOptional E hE item.2 entered) fun _ => ih _ hes

variable (fuel : Nat)

mutual

theorem evalStmt_similar (hE : E.Respects R.lawful) : ∀s : Stmt L, Fine yields (yieldFree s) →
    R.rel (evalStmt E h fuel s) (evalStmt E h' fuel s)
  | .simple kind l parts,hf => by
    rw [yieldFree] at hf
    rw [evalStmt,evalStmt]
    exact R.bind (evalExprs_similar E R hE parts hf) fun vs => R.lift _ (hE.act l vs)
  | .ifStmt test body orelse,hf => by
    rw [yieldFree] at hf
    obtain ⟨hf,ho⟩ := fine_and hf
    obtain ⟨ht,hb⟩ := fine_and hf
    rw [evalStmt,evalStmt]
    refine R.bind (evalTest_similar E R hE test ht) fun b => ?_
    exact R.ite b (evalBody_similar hE body hb) (evalBody_similar hE orelse ho)
  | .forStmt target iter body orelse,hf => by
    rw [yieldFree] at hf
    obtain ⟨hf,ho⟩ := fine_and hf
    obtain ⟨hi,hb⟩ := fine_and hf
    rw [evalStmt,evalStmt]
    refine R.bind (evalExpr_similar E R hE iter hi) fun iterable => ?_
    have round : ∀v, R.rel (do assignFor E target v; loopBody (evalBody E h fuel body))
        (do assignFor E target v; loopBody (evalBody E h' fuel body)) := fun v =>
      R.bind (R.assignFor E hE target v) fun _ => R.loopBody (evalBody_similar hE body hb)
    refine R.bind ?_ fun whole => R.ite whole (evalBody_similar hE orelse ho) (R.pure ())
    exact R.loopOver E hE iterable round fuel
  | .whileStmt offset test body orelse,hf => by
    rw [yieldFree] at hf
    obtain ⟨hf,ho⟩ := fine_and hf
    obtain ⟨ht,hb⟩ := fine_and hf
    rw [evalStmt,evalStmt]
    refine R.bind ?_ fun whole => R.ite whole (evalBody_similar hE orelse ho) (R.pure ())
    exact R.loopWhile (evalTest_similar E R hE test ht) (R.loopBody (evalBody_similar hE body hb)) fuel
  | .tryStmt body handlers orelse finalbody,hf => by
    rw [yieldFree] at hf
    obtain ⟨hf,hfin⟩ := fine_and hf
    obtain ⟨hf,ho⟩ := fine_and hf
    obtain ⟨hb,hh⟩ := fine_and hf
    have last := evalBody_similar hE finalbody hfin
    rw [evalStmt,evalStmt]
    refine R.bind (R.attempt (evalBody_similar hE body hb)) fun r => ?_
    cases r with
    | ok u =>
      exact R.bind (R.attempt (evalBody_similar hE orelse ho)) fun r => R.finishTry r last
    | error s =>
      cases s with
      | yielded v => exact R.throw _
      | exc x =>
        exact R.bind (tryMatchHandlers_similar hE x handlers hh) fun r => R.finishTry r last
      | _ => exact R.finishTry _ last
  | .withStmt items body,hf => by
    rw [yieldFree] at hf
    obtain ⟨hi,hb⟩ := fine_and hf
    rw [evalStmt,evalStmt]
    refine R.bind (enterItems_similar E R hE items [] hi) fun managers => ?_
    exact R.bind (R.attempt (evalBody_similar hE body hb)) fun r => R.exitContextManagers E hE managers r
  | .blocks searched l bodies,hf => by
    rw [yieldFree] at hf
    rw [evalStmt,evalStmt]
    exact R.runBlocks E hE l (evalBlock_similar hE bodies hf) fuel none

theorem evalBody_similar (hE : E.Respects R.lawful) : ∀ss : List (Stmt L), Fine yields (yieldFrees ss) →
    R.rel (evalBody E h fuel ss) (evalBody E h' fuel ss)
  | [],_ => by
    rw [evalBody,evalBody]
    exact R.pure ()
  | s::ss,hf => by
    rw [yieldFrees] at hf
    obtain ⟨hs,hss⟩ := fine_and hf
    rw [evalBody,evalBody]
    exact R.bind (evalStmt_similar hE s hs) fun _ => evalBody_similar hE ss hss

theorem tryMatchHandlers_similar (hE : E.Respects R.lawful) (x : X) : ∀hs : List (Handler L),
    Fine yields (yieldFreeHandlers hs) →
    R.rel (tryMatchHandlers E h fuel x hs) (tryMatchHandlers E h' fuel x hs)
  | [],_ => by
    rw [tryMatchHandlers,tryMatchHandlers]
    exact R.pure _
  | .mk type name body::hs,hf => by
    rw [yieldFreeHandlers] at hf
    obtain ⟨hb,hhs⟩ := fine_and hf
    rw [tryMatchHandlers,tryMatchHandlers]
    refine R.bind (R.liftE _ (hE.matchesHandler type x)) fun b =>
      R.ite b ?_ (tryMatchHandlers_similar hE x hs hhs)
    exact R.runHandler E hE name x (evalBody_similar hE body hb)

theorem evalBlock_similar (hE : E.Respects R.lawful) : ∀bs : List (List (Stmt L)), Fine yields (yieldFreeBlocks bs) →
    ∀i, R.rel (evalBlock E h fuel bs i) (evalBlock E h' fuel bs i)
  | [],_,_ => by
    rw [evalBlock,evalBlock]
    exact R.pure ()
  | b::bs,hf,0 => by
    rw [yieldFreeBlocks] at hf
    rw [evalBlock,evalBlock]
    exact evalBody_similar hE b (fine_and hf).1
  | b::bs,hf,i+1 => by
    rw [yieldFreeBlocks] at hf
    rw [evalBlock,evalBlock]
    exact evalBlock_similar hE bs (fine_and hf).2 i

end

end Relation

end InterpretThis.Generator
