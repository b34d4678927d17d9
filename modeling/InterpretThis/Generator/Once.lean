import InterpretThis.Generator.Runs
import InterpretThis.Generator.Similar

namespace InterpretThis.Generator

open Resumption

section Order

variable {L : Type}

mutual

/-- The evaluation begins with a yield and meets no other one. -/
def yieldsFirstExpr : Expr L → Bool
  | .node _ args => yieldsFirstExprs args
  | .boolOp _ left right => yieldsFirstExpr left&& !containsYieldExpr right
  | .ifExp test body orelse =>
    yieldsFirstExpr test&& !containsYieldExpr body&& !containsYieldExpr orelse
  | .yield value => !containsYieldExpr value
  | .yieldFrom source => !containsYieldExpr source

def yieldsFirstExprs : List (Expr L) → Bool
  | [] => false
  | e::es => yieldsFirstExpr e&& !containsYieldExprs es

end

/-- A simple statement whose only yield is the first thing that it evaluates. -/
def yieldsFirst : Stmt L → Bool
  | .simple _ _ parts => yieldsFirstExprs parts
  | _ => false

end Order

section Evaluation

variable {W V X L A : Type} (E : Effects W V X L)

def settledEnd (r : Except (Signal V X) A) (t : Cell V X×W) :
    Process V (Cell V X×W) (Except (Signal V X) A) :=
  match r with
  | .error (.yielded _) => .diverge
  | r => .done r t

/-- A part that is evaluated once. It is given up when it waits although `b` does not hold, and when
it ends in a yield without having waited. -/
def onceIf (b : Bool) (m : Comp V (Cell V X×W) (Signal V X) A) :
    Comp V (Cell V X×W) (Signal V X) A :=
  fun s => (if b then m s else (m s).unasked).bind settledEnd

/-- Every part of a body is evaluated once, in order. It is given up where it waits at a yield that
does not come first, and the engine evaluates it again. -/
def onceEvaluator (fuel : Nat) : Evaluator W V X L where
  stmt s := onceIf (yieldsFirst s) (evalStmt E (answering E) fuel s)
  test e := onceIf false (evalTest E (answering E) e)
  iter e := onceIf false (evalExpr E (answering E) e)
  items l := onceIf false (enterItems E (answering E) l [])

end Evaluation

section Noiseless

variable {W V X L A B : Type}

/-- A run that ends without having waited; with `asks` it may also wait, and then nothing is said. -/
def Noiselessly (asks : Bool) (p : Process Empty (Cell V X×W) (Except (Signal V X) A))
    (p' : Process V (Cell V X×W) (Except (Signal V X) A)) : Prop :=
  match p' with
  | .done r t => p=.done r t ∧ t.1.resumeAtYield=false
  | .ask .. => asks=true
  | .diverge => True

/-- Two computations that do the same while no answer is waited for, without a yield or up to the
first one. -/
def Noiseless (asks : Bool) (m : Comp Empty (Cell V X×W) (Signal V X) A)
    (m' : Comp V (Cell V X×W) (Signal V X) A) : Prop :=
  ∀t, t.1.resumeAtYield=false → Noiselessly asks (m t) (m' t)

variable {asks : Bool}

theorem Noiselessly.bind {p : Process Empty (Cell V X×W) (Except (Signal V X) A)}
    {p' : Process V (Cell V X×W) (Except (Signal V X) A)} (h : Noiselessly asks p p')
    {f : Except (Signal V X) A → Cell V X×W → Process Empty (Cell V X×W) (Except (Signal V X) B)}
    {f' : Except (Signal V X) A → Cell V X×W → Process V (Cell V X×W) (Except (Signal V X) B)}
    (hf : ∀r t, t.1.resumeAtYield=false → Noiselessly asks (f r t) (f' r t)) :
    Noiselessly asks (p.bind f) (p'.bind f') := by
  cases p' with
  | done r t =>
    obtain ⟨rfl,ht⟩ := h
    exact hf r t ht
  | ask v t k => exact h
  | diverge => exact trivial

variable {m : Comp Empty (Cell V X×W) (Signal V X) A} {m' : Comp V (Cell V X×W) (Signal V X) A}

theorem Noiseless.bind (h : Noiseless asks m m') {f : A → Comp Empty (Cell V X×W) (Signal V X) B}
    {f' : A → Comp V (Cell V X×W) (Signal V X) B} (hf : ∀a, Noiseless asks (f a) (f' a)) :
    Noiseless asks (m>>=f) (m'>>=f') := by
  intro t ht
  refine (h t ht).bind fun r u hu => ?_
  cases r with
  | ok a => exact hf a u hu
  | error e => exact ⟨rfl,hu⟩

theorem Noiseless.attempt (h : Noiseless asks m m') : Noiseless asks m.attempt m'.attempt :=
  fun t ht => (h t ht).bind fun _ _ hu => ⟨rfl,hu⟩

theorem noiseless_modify {f : Cell V X×W → Cell V X×W}
    (hf : ∀t, t.1.resumeAtYield=false → (f t).1.resumeAtYield=false) :
    Noiseless asks (Comp.modify f) (Comp.modify f) := fun t ht => ⟨rfl,hf t ht⟩

/-- Without yields the two ways to yield are the same. -/
def noiseless (E : Effects W V X L) (asks : Bool) :
    Similar (suspendedly E) (answering E) false where
  rel := Noiseless asks
  pure _ := fun _ ht => ⟨rfl,ht⟩
  throw _ := fun _ ht => ⟨rfl,ht⟩
  diverge := fun _ _ => trivial
  bind h hf := h.bind hf
  attempt := Noiseless.attempt
  lawful _ _ := True
  lift _ _ := fun _ ht => ⟨rfl,ht⟩
  yield h := (nomatch h)
  yieldFrom h := (nomatch h)

theorem noiseless_takeOver (E : Effects W V X L) (source : V) :
    Noiseless asks (takeOver E source) (takeOver E source) := by
  let R := noiseless E asks
  unfold takeOver
  refine R.ite (E.isGenerator source) ?_ ?_
  · refine R.bind (R.attempt (R.liftE _ trivial)) fun r => ?_
    cases r with
    | ok v => exact R.bind (noiseless_modify fun _ ht => ht) fun _ => R.pure _
    | error s =>
      cases s with
      | exc x => exact R.ite (E.isStop x) (R.pure _) (R.throw _)
      | _ => exact R.throw _
  · refine R.bind (R.liftE _ trivial) fun items => ?_
    cases items with
    | nil => exact R.pure _
    | cons v rest => exact R.bind (noiseless_modify fun _ ht => ht) fun _ => R.pure _

end Noiseless

section First

variable {W V X L A B : Type}

/-- A run that begins with a yield: when it is run again from its start, with the answer in the
registers, it goes on as if it had waited. -/
def FirstRun (m : Comp Empty (Cell V X×W) (Signal V X) A)
    (p : Process Empty (Cell V X×W) (Except (Signal V X) A))
    (p' : Process V (Cell V X×W) (Except (Signal V X) A)) : Prop :=
  match p' with
  | .done r t => p=.done r t ∧ t.1.resumeAtYield=false
  | .ask v t k => ∃c, t.1={c with resumeAtYield := true} ∧ p=.done (.error (.yielded v)) (c,t.2) ∧
      ∀u, u.1.resumeAtYield=true → Noiselessly false (m u) (k u)
  | .diverge => True

def First (m : Comp Empty (Cell V X×W) (Signal V X) A)
    (m' : Comp V (Cell V X×W) (Signal V X) A) : Prop :=
  ∀t, t.1.resumeAtYield=false → FirstRun m (m t) (m' t)

variable {m : Comp Empty (Cell V X×W) (Signal V X) A}

theorem Noiselessly.first {p : Process Empty (Cell V X×W) (Except (Signal V X) A)}
    {p' : Process V (Cell V X×W) (Except (Signal V X) A)} (h : Noiselessly false p p') :
    FirstRun m p p' := by
  cases p' with
  | done r t => exact h
  | ask v t k => exact Bool.noConfusion h
  | diverge => exact trivial

theorem First.bind {m' : Comp V (Cell V X×W) (Signal V X) A} (h : First m m')
    {f : A → Comp Empty (Cell V X×W) (Signal V X) B} {f' : A → Comp V (Cell V X×W) (Signal V X) B}
    (hf : ∀a, Noiseless false (f a) (f' a)) : First (m>>=f) (m'>>=f') := by
  have hnext : ∀r t, t.1.resumeAtYield=false →
      Noiselessly false (Comp.next f r t) (Comp.next f' r t) := by
    intro r t ht
    cases r with
    | ok a => exact hf a t ht
    | error e => exact ⟨rfl,ht⟩
  intro t ht
  have hm := h t ht
  rw [Comp.bind_apply m' f' t]
  cases hp : m' t with
  | done r u =>
    rw [hp] at hm
    rw [Comp.bind_apply m f t,hm.1]
    exact (hnext r u hm.2).first
  | ask v u k =>
    rw [hp] at hm
    obtain ⟨c,hc,hmt,hk⟩ := hm
    refine ⟨c,hc,Comp.bind_of_error hmt,fun x hx => ?_⟩
    exact (hk x hx).bind hnext
  | diverge => exact trivial

theorem noiselessly_takeAnswer {take : Cell V X → Except X V×Cell V X}
    (htake : ∀c, (take c).2.resumeAtYield=false) (t : Cell V X×W) :
    Noiselessly false (takeAnswer (Y := Empty) take t) (takeAnswer take t) := ⟨rfl,htake t.1⟩

theorem takeSent_clears (none : V) (c : Cell V X) :
    (c.takeSent none).2.resumeAtYield=false := by
  unfold Cell.takeSent
  split <;> rfl

theorem takeReturn_clears (none : V) (c : Cell V X) :
    (c.takeReturn none).2.resumeAtYield=false := by
  unfold Cell.takeReturn
  split <;> rfl

variable (E : Effects W V X L)

theorem first_yield {op : Comp Empty (Cell V X×W) (Signal V X) V}
    {op' : Comp V (Cell V X×W) (Signal V X) V} (h : Noiseless false op op') :
    First ((suspendedly E).yield op) ((answering E).yield op') := by
  intro t ht
  have hop := h t ht
  have hrun : (suspendedly E).yield op t=(op t).bind (Comp.next fun v => Comp.throw (.yielded v)) :=
    if_neg (by rw [ht]; exact Bool.false_ne_true)
  rw [hrun]
  show FirstRun _ _ ((op' t).bind _)
  cases hp : op' t with
  | done r u =>
    rw [hp] at hop
    rw [hop.1]
    cases r with
    | error e => exact ⟨rfl,hop.2⟩
    | ok v =>
      refine ⟨u.1,rfl,rfl,fun x hx => ?_⟩
      have hx' : (suspendedly E).yield op x=takeAnswer (Cell.takeSent E.none) x := if_pos hx
      rw [hx']
      exact noiselessly_takeAnswer (takeSent_clears E.none) x
  | ask v u k =>
    rw [hp] at hop
    exact Bool.noConfusion hop
  | diverge => exact trivial

theorem yieldFrom_fresh (op : Comp Empty (Cell V X×W) (Signal V X) V) {t : Cell V X×W}
    (ht : t.1.resumeAtYield=false) :
    (suspendedly E).yieldFrom op t=((op>>=takeOver E) t).bind (Comp.next fun o =>
      match o with
      | .value v => pure v
      | .handsOut v => Comp.throw (.yielded v)) := by
  have hif : (suspendedly E).yieldFrom op t=(op>>=fun source => takeOver E source>>=fun o =>
      match o with
      | .value v => pure v
      | .handsOut v => Comp.throw (.yielded v)) t :=
    if_neg (by rw [ht]; exact Bool.false_ne_true)
  rw [hif,← Comp.bind_assoc]
  rfl

theorem yieldFrom_answering (op' : Comp V (Cell V X×W) (Signal V X) V) (t : Cell V X×W) :
    (answering E).yieldFrom op' t=((op'>>=takeOver E) t).bind (Comp.next fun o =>
      match o with
      | .value v => pure v
      | .handsOut v => awaitAnswer v (Cell.takeReturn E.none)) :=
  (congrFun (Comp.bind_assoc op' (takeOver E) _).symm t)

/-- Up to the first yield the two ways to yield are the same. -/
def sameUntilAsked : Similar (suspendedly E) (answering E) true where
  toCongruence := (noiseless E true).toCongruence
  lawful _ _ := True
  lift := (noiseless E true).lift
  yield _ {op op'} h := by
    intro t ht
    have hrun : (suspendedly E).yield op t=(op t).bind (Comp.next fun v => Comp.throw (.yielded v)) :=
      if_neg (by rw [ht]; exact Bool.false_ne_true)
    rw [hrun]
    refine (h t ht).bind fun r u hu => ?_
    cases r with
    | error e => exact ⟨rfl,hu⟩
    | ok v => exact rfl
  yieldFrom _ {op op'} h := by
    intro t ht
    rw [yieldFrom_fresh E op ht,yieldFrom_answering E]
    refine (h.bind (noiseless_takeOver E) t ht).bind fun r u hu => ?_
    cases r with
    | error e => exact ⟨rfl,hu⟩
    | ok o =>
      cases o with
      | value v => exact ⟨rfl,hu⟩
      | handsOut v => exact rfl

theorem first_yieldFrom {op : Comp Empty (Cell V X×W) (Signal V X) V}
    {op' : Comp V (Cell V X×W) (Signal V X) V} (h : Noiseless false op op') :
    First ((suspendedly E).yieldFrom op) ((answering E).yieldFrom op') := by
  intro t ht
  have hop := h.bind (noiseless_takeOver E) t ht
  rw [yieldFrom_fresh E op ht,yieldFrom_answering E]
  cases hp : (op'>>=takeOver E) t with
  | done r u =>
    rw [hp] at hop
    rw [hop.1]
    cases r with
    | error e => exact ⟨rfl,hop.2⟩
    | ok o =>
      cases o with
      | value v => exact ⟨rfl,hop.2⟩
      | handsOut v =>
        refine ⟨u.1,rfl,rfl,fun x hx => ?_⟩
        have hx' : (suspendedly E).yieldFrom op x=takeAnswer (Cell.takeReturn E.none) x :=
          if_pos hx
        rw [hx']
        exact noiselessly_takeAnswer (takeReturn_clears E.none) x
  | ask v u k =>
    rw [hp] at hop
    exact Bool.noConfusion hop
  | diverge => exact trivial

theorem noiseless_expr {e : Expr L} (h : containsYieldExpr e=false) :
    Noiseless false (evalExpr E (suspendedly E) e) (evalExpr E (answering E) e) :=
  evalExpr_similar E (noiseless E false) E.respects_true e (.inr (by rw [h]; rfl))

theorem noiseless_exprs {es : List (Expr L)} (h : containsYieldExprs es=false) :
    Noiseless false (evalExprs E (suspendedly E) es) (evalExprs E (answering E) es) :=
  evalExprs_similar E (noiseless E false) E.respects_true es (.inr (by rw [h]; rfl))

mutual

theorem first_expr : ∀e : Expr L, yieldsFirstExpr e=true →
    First (evalExpr E (suspendedly E) e) (evalExpr E (answering E) e)
  | .node l args,h => by
    rw [yieldsFirstExpr] at h
    rw [evalExpr,evalExpr]
    exact (first_exprs args h).bind fun vs => (noiseless E false).liftE _ trivial
  | .boolOp isAnd left right,h => by
    rw [yieldsFirstExpr,Bool.and_eq_true,Bool.not_eq_true'] at h
    rw [evalExpr,evalExpr]
    refine (first_expr left h.1).bind fun v => ?_
    refine (noiseless E false).bind ((noiseless E false).liftE _ trivial) fun b => ?_
    by_cases hb : b=isAnd
    · rw [if_pos hb,if_pos hb]
      exact noiseless_expr E h.2
    · rw [if_neg hb,if_neg hb]
      exact (noiseless E false).pure v
  | .ifExp test body orelse,h => by
    simp only [yieldsFirstExpr,Bool.and_eq_true,Bool.not_eq_true'] at h
    rw [evalExpr,evalExpr]
    refine (first_expr test h.1.1).bind fun v => ?_
    refine (noiseless E false).bind ((noiseless E false).liftE _ trivial) fun b => ?_
    exact (noiseless E false).ite b (noiseless_expr E h.1.2) (noiseless_expr E h.2)
  | .yield value,h => by
    rw [yieldsFirstExpr,Bool.not_eq_true'] at h
    rw [evalExpr,evalExpr]
    exact first_yield E (noiseless_expr E h)
  | .yieldFrom source,h => by
    rw [yieldsFirstExpr,Bool.not_eq_true'] at h
    rw [evalExpr,evalExpr]
    exact first_yieldFrom E (noiseless_expr E h)

theorem first_exprs : ∀es : List (Expr L), yieldsFirstExprs es=true →
    First (evalExprs E (suspendedly E) es) (evalExprs E (answering E) es)
  | [],h => by
    rw [yieldsFirstExprs] at h
    cases h
  | e::es,h => by
    rw [yieldsFirstExprs,Bool.and_eq_true,Bool.not_eq_true'] at h
    rw [evalExprs,evalExprs]
    refine (first_expr e h.1).bind fun v => ?_
    exact (noiseless E false).bind (noiseless_exprs E h.2) fun vs => (noiseless E false).pure _

end

theorem first_stmt (fuel : Nat) {s : Stmt L} (h : yieldsFirst s=true) :
    First (evalStmt E (suspendedly E) fuel s) (evalStmt E (answering E) fuel s) := by
  cases s with
  | simple kind l parts =>
    rw [evalStmt,evalStmt]
    exact (first_exprs E parts h).bind fun vs => (noiseless E false).lift _ trivial
  | _ => cases h

end First

section Adequacy

variable {W V X L A : Type}

/-- No yield waits for its answer. -/
def Calm (c : Cell V X) : Prop := c.resumeAtYield=false

variable {m : Comp Empty (Cell V X×W) (Signal V X) A}
  {p : Process Empty (Cell V X×W) (Except (Signal V X) A)}

theorem redoes_settled {mark : Cell V X → Cell V X} {r : Except (Signal V X) A} {t : Cell V X×W}
    (hp : p=.done r t) (ht : t.1.resumeAtYield=false) : Redoes Calm mark m (settledEnd r t) p := by
  cases r with
  | ok a => exact ⟨hp,settled_ok a,ht⟩
  | error e =>
    cases e with
    | yielded v => exact trivial
    | _ => exact ⟨hp,fun v h => (nomatch h),ht⟩

theorem Noiselessly.redoes {mark : Cell V X → Cell V X}
    {p' : Process V (Cell V X×W) (Except (Signal V X) A)} (h : Noiselessly false p p') :
    Redoes Calm mark m (p'.bind settledEnd) p := by
  cases p' with
  | done r t => exact redoes_settled h.1 h.2
  | ask v t k => exact Bool.noConfusion h
  | diverge => exact trivial

variable {m' : Comp V (Cell V X×W) (Signal V X) A}

theorem Noiseless.redoes {mark : Cell V X → Cell V X} (h : Noiseless true m m') {t : Cell V X×W}
    (ht : Calm t.1) : Redoes Calm mark m (onceIf false m' t) (m t) := by
  have hm := h t ht
  show Redoes Calm mark m ((m' t).unasked.bind settledEnd) (m t)
  cases hp : m' t with
  | done r u =>
    rw [hp] at hm
    exact redoes_settled hm.1 hm.2
  | _ => exact trivial

theorem First.redoes {b : Bool} (h : b=true → First m m') (hn : Noiseless true m m')
    {t : Cell V X×W} (ht : Calm t.1) :
    Redoes Calm (fun c => {c with resumeAtYield := true}) m (onceIf b m' t) (m t) := by
  cases b with
  | false => exact hn.redoes ht
  | true =>
    have hm := h rfl t ht
    show Redoes Calm _ m ((m' t).bind settledEnd) (m t)
    cases hp : m' t with
    | done r u =>
      rw [hp] at hm
      exact redoes_settled hm.1 hm.2
    | ask v u k =>
      rw [hp] at hm
      obtain ⟨c,hc,hmt,hk⟩ := hm
      refine ⟨c,hc,hmt,fun x hx => ?_⟩
      exact (hk x (hx (by rw [hc]))).redoes
    | diverge => exact trivial

theorem adequate_once (E : Effects W V X L) (fuel : Nat) :
    Adequate E fuel Calm (onceEvaluator E fuel) where
  cleared _ := rfl
  stmt s _ ht := First.redoes (first_stmt E fuel)
    (evalStmt_similar E (sameUntilAsked E) fuel E.respects_true s (.inl rfl)) ht
  test e _ ht := Noiseless.redoes (evalTest_similar E (sameUntilAsked E) E.respects_true e (.inl rfl)) ht
  iter e _ ht := Noiseless.redoes (evalExpr_similar E (sameUntilAsked E) E.respects_true e (.inl rfl)) ht
  items l _ ht := Noiseless.redoes (enterItems_similar E (sameUntilAsked E) E.respects_true l [] (.inl rfl)) ht

end Adequacy

section Claim

variable {W V X L : Type}

/-- Every run of a generator body evaluates each statement that it executes once, as long as every
statement in which it waits evaluates its only yield first. -/
theorem statements_run_once (E : Effects W V X L) (fuel : Nat) (body : List (Stmt L))
    (as : List (Answer W V X)) (s : Regs V X×W) (hs : s.1.cell.resumeAtYield=false)
    (hp : ((bodyCourse E .none (onceEvaluator E fuel) fuel body s).play
      (as.map Answer.onRegs)).2≠.lost) :
    RunsAs (runs (runGeneratorBody E fuel body) as 0 (⟨s.1,.empty⟩,s.2))
      ((bodyCourse E .none (onceEvaluator E fuel) fuel body s).play (as.map Answer.onRegs)) :=
  runGeneratorBody_runsAs (adequate_once E fuel) .none body as hs hp

/-- `x = yield 1`, answered with 5. -/
theorem statements_run_once_sent :
    RunsAs (runs (runGeneratorBody tiny 1 [.simple .assign .store [.yield (.node (.const 1) [])]])
        [.send 5] 0 (⟨.fresh,.empty⟩,⟨0,0,[]⟩))
      ((bodyCourse tiny .none (onceEvaluator tiny 1) 1
        [.simple .assign .store [.yield (.node (.const 1) [])]] (.fresh,⟨0,0,[]⟩)).play
        [Answer.onRegs (.send 5)]) :=
  statements_run_once tiny 1 _ [.send 5] (.fresh,⟨0,0,[]⟩) rfl (fun h => (nomatch h))

/-- `x = f() + (yield 1)`: the call is made again when the statement is resumed. -/
def callsFirst : List (Stmt TinyOp) :=
  [.simple .assign .store [.node .add [.node .call [],.yield (.node (.const 1) [])]]]

theorem call_made_again : generatorSuspendable callsFirst=true ∧
    (runs (runGeneratorBody tiny 1 callsFirst) [.send 5] 0 (⟨.fresh,.empty⟩,⟨0,0,[]⟩)).2.map
      (fun t => (t.2.calls,t.2.x))=.ended (.ok ()) (2,5) ∧
    ((evalBody tiny (answering tiny) 1 callsFirst (Regs.fresh.cell,⟨0,0,[]⟩)).play
      [(Answer.send 5).act]).2.map (fun t => (t.2.calls,t.2.x))=.ended (.ok ()) (1,5) :=
  ⟨by decide,rfl,rfl⟩

end Claim

end InterpretThis.Generator
