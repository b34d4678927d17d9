import InterpretThis.Operators.NumericSync

namespace InterpretThis.Numeric

open Operators

section Counting

variable {C M L W : Type} (x : Host C M L W)

/-- The errors by which an evaluator enforces a limit. -/
def Failure.isLimit : Failure → Bool
  | .recursionLimitExceeded _ => true
  | .raised (.interpreter (.limitExceeded _)) => true
  | _ => false

def State.spend (n : Nat) (s : State W) : State W :=
  {s with operationsCount := s.operationsCount+n}

theorem State.spend_add (m n : Nat) (s : State W) : (s.spend m).spend n=s.spend (m+n) := by
  simp only [State.spend,Nat.add_assoc]

theorem State.alike_spend (n : Nat) (s : State W) : s.Alike (s.spend n) := ⟨rfl,rfl,rfl⟩

theorem State.Alike.trans {s t u : State W} (h : s.Alike t) (h' : t.Alike u) : s.Alike u :=
  ⟨h'.bindings.trans h.bindings,h'.decimalPrec.trans h.decimalPrec,h'.world.trans h.world⟩

theorem checkOps_limit {n : Nat} {w : W} {e : Failure} (h : x.checkOps n w=.error e) :
    e.isLimit := by
  unfold Host.checkOps at h
  split at h
  · cases h
    rfl
  · split at h
    · split at h
      · cases h
        rfl
      · cases h
    · cases h

variable {s : State W}

theorem incrementMany_succ_ok {n : Nat} (h : x.checkOps (s.operationsCount+1) s.world=.ok ()) :
    x.incrementMany (n+1) s=x.incrementMany n (s.spend 1) := by
  simp only [Host.incrementMany,Host.incrementOps,h]
  rfl

theorem incrementMany_succ_error {n : Nat} {e : Failure}
    (h : x.checkOps (s.operationsCount+1) s.world=.error e) :
    x.incrementMany (n+1) s=(.error e,s.spend 1) := by
  simp only [Host.incrementMany,Host.incrementOps,h]
  rfl

theorem incrementMany_ok {n : Nat} (h : (x.incrementMany n s).1=.ok ()) :
    x.incrementMany n s=(.ok (),s.spend n) := by
  induction n generalizing s with
  | zero => rfl
  | succ n ih =>
    cases hc : x.checkOps (s.operationsCount+1) s.world with
    | error e =>
      rw [incrementMany_succ_error x hc] at h
      cases h
    | ok u =>
      rw [incrementMany_succ_ok x hc] at h ⊢
      rw [ih h,State.spend_add,Nat.add_comm]

theorem incrementMany_limit {n : Nat} {e : Failure} (h : (x.incrementMany n s).1=.error e) :
    e.isLimit := by
  induction n generalizing s with
  | zero => cases h
  | succ n ih =>
    cases hc : x.checkOps (s.operationsCount+1) s.world with
    | error e' =>
      rw [incrementMany_succ_error x hc] at h
      cases h
      exact checkOps_limit x hc
    | ok u =>
      rw [incrementMany_succ_ok x hc] at h
      exact ih h

theorem incrementMany_after (n : Nat) (s : State W) : ∃k,(x.incrementMany n s).2=s.spend k := by
  induction n generalizing s with
  | zero => exact ⟨0,rfl⟩
  | succ n ih =>
    cases hc : x.checkOps (s.operationsCount+1) s.world with
    | error e => exact ⟨1,by rw [incrementMany_succ_error x hc]⟩
    | ok u =>
      obtain ⟨k,hk⟩ := ih (s.spend 1)
      exact ⟨1+k,by rw [incrementMany_succ_ok x hc,hk,State.spend_add]⟩

theorem incrementMany_add (m n : Nat) (s : State W) : (x.incrementMany (m+n) s).1=
    (match (x.incrementMany m s).1 with
      | .ok _ => (x.incrementMany n (s.spend m)).1
      | .error e => .error e) := by
  induction m generalizing s with
  | zero =>
    rw [Nat.zero_add]
    rfl
  | succ m ih =>
    rw [Nat.succ_add]
    cases hc : x.checkOps (s.operationsCount+1) s.world with
    | error e => rw [incrementMany_succ_error x hc,incrementMany_succ_error x hc]
    | ok u =>
      rw [incrementMany_succ_ok x hc,incrementMany_succ_ok x hc,ih,State.spend_add,
        Nat.add_comm 1 m]

theorem incrementMany_depth (n d : Nat) (s : State W) :
    (x.incrementMany n {s with exprDepth := d}).1=(x.incrementMany n s).1 := by
  induction n generalizing s with
  | zero => rfl
  | succ n ih =>
    cases hc : x.checkOps (s.operationsCount+1) s.world with
    | error e =>
      rw [incrementMany_succ_error x hc,
        incrementMany_succ_error x (s := {s with exprDepth := d}) hc]
    | ok u =>
      rw [incrementMany_succ_ok x hc,incrementMany_succ_ok x (s := {s with exprDepth := d}) hc]
      exact ih (s.spend 1)

theorem incrementMany_passes {n : Nat}
    (h : ∀k, 1≤k → k≤n → x.checkOps (s.operationsCount+k) s.world=.ok ()) :
    (x.incrementMany n s).1=.ok () := by
  induction n generalizing s with
  | zero => rfl
  | succ n ih =>
    rw [incrementMany_succ_ok x (h 1 (Nat.le_refl 1) (by omega))]
    apply ih
    intro k hk hkn
    have := h (1+k) (by omega) (by omega)
    rwa [← Nat.add_assoc] at this

end Counting

section Runs

variable {C M L W : Type} (x : Host C M L W) {A B : Type}

/-- The evaluation counts `n` operations, reads `read` and gives `r`, unless the counting fails. -/
def Host.Runs (m : Eval L M W A) (s : State W) (n : Nat) (r : Except Failure A)
    (read : List (Expr L)) : Prop :=
  match (x.incrementMany n s).1 with
  | .ok _ => m s=(r,s.spend n,read.map .read)
  | .error e => m.result s=.error e

variable {x}

theorem Runs.pure (a : A) (s : State W) : x.Runs (Pure.pure a) s 0 (.ok a) [] := rfl

variable {s : State W}

theorem Runs.bind {m : Eval L M W A} {f : A → Eval L M W B} {a : A} {n k : Nat}
    {r : Except Failure B} {read read' : List (Expr L)} (hm : x.Runs m s n (.ok a) read)
    (hf : x.Runs (f a) (s.spend n) k r read') : x.Runs (m >>= f) s (n+k) r (read++read') := by
  unfold Host.Runs at *
  rw [incrementMany_add]
  cases hn : (x.incrementMany n s).1 with
  | error e =>
    rw [hn] at hm
    have hrun : m s=(.error e,m.after s,m.record s) := by rw [← hm]; rfl
    exact Recorded.result_of (Recorded.bind_error hrun)
  | ok u =>
    rw [hn] at hm
    have hrun := Recorded.bind_ok (f := f) hm
    dsimp only
    cases hk : (x.incrementMany k (s.spend n)).1 with
    | error e =>
      rw [hk] at hf
      exact (Recorded.result_of hrun).trans hf
    | ok u' =>
      rw [hk] at hf
      rw [hrun]
      simp only [Recorded.result,Recorded.after,Recorded.record,hf,State.spend_add,
        List.map_append]

theorem Runs.bind_error {m : Eval L M W A} {f : A → Eval L M W B} {e : Failure} {n : Nat}
    {read : List (Expr L)} (hm : x.Runs m s n (.error e) read) :
    x.Runs (m >>= f) s n (.error e) read := by
  unfold Host.Runs at *
  cases hn : (x.incrementMany n s).1 with
  | error e' =>
    rw [hn] at hm
    have hrun : m s=(.error e',m.after s,m.record s) := by rw [← hm]; rfl
    exact Recorded.result_of (Recorded.bind_error hrun)
  | ok u =>
    rw [hn] at hm
    exact Recorded.bind_error hm

theorem Runs.readLeaf {e : Expr L} {f : State W → Except Failure Value} :
    x.Runs (x.readLeaf e f) s 1 (f (s.spend 1)) [e] := by
  unfold Host.Runs
  cases hc : x.checkOps (s.operationsCount+1) s.world with
  | error e' =>
    rw [incrementMany_succ_error x hc]
    have hrun : x.increment (L := L) (M := M) s=(.error e',s.spend 1,[]) := by
      simp only [Host.increment,Recorded.lift,Host.incrementOps,hc]
      rfl
    exact Recorded.result_of (Recorded.bind_error hrun)
  | ok u =>
    rw [incrementMany_succ_ok x hc]
    have hrun : x.increment (L := L) (M := M) s=(.ok u,s.spend 1,[]) := by
      simp only [Host.increment,Recorded.lift,Host.incrementOps,hc]
      rfl
    exact Recorded.bind_ok hrun

theorem Runs.nested {m : Eval L M W A} {n : Nat} {r : Except Failure A} {read : List (Expr L)}
    (hs : s.exprDepth<x.config.maxRecursionDepth)
    (h : x.Runs m {s with exprDepth := s.exprDepth+1} n r read) :
    x.Runs (x.nested m) s n r read := by
  have hd : ¬x.config.maxRecursionDepth ≤ s.exprDepth := Nat.not_le.mpr hs
  unfold Host.Runs at *
  rw [incrementMany_depth] at h
  cases hn : (x.incrementMany n s).1 with
  | error e =>
    rw [hn] at h
    simp only [Recorded.result,Host.nested,if_neg hd]
    exact h
  | ok u =>
    rw [hn] at h
    simp only [Host.nested,if_neg hd,h]
    rfl

end Runs

section Values

variable {C M L W : Type} {x : Host C M L W}

theorem resolved_number {v : Value} (hv : isNumber v) (s : State W) :
    x.Runs (x.resolved v) s 0 (.ok v) [] := by
  cases v with
  | lazyProxy => cases hv
  | _ => exact Runs.pure _ s

variable [DecidableEq C] [DecidableEq Value]

theorem askSlot_number {slot : String} {v w : Value} (hv : isNumber v) :
    x.askSlot slot v w=pure none := by
  simp only [Machine.askSlot,Machine.instanceSlot,x.instanceClass_number hv]
  rfl

theorem binop_numbers {op : Operator} {l r : Value} (hl : isNumber l) (hr : isNumber r)
    (s : State W) : x.binop op l r s=(x.applyBinop op l r s,s,[]) := by
  have hright : (if x.sameClass l r then pure none
      else x.askSlot (reflectedArithSlot op) r l)=
        (pure none : Recorded (State W) Failure (Call M Value) (Option Value)) := by
    rw [askSlot_number hr,ite_self]
  simp only [Machine.binop,x.early_number hl,askSlot_number hl,hright]
  change Recorded.lift (x.applyKernel op l r) s=_
  simp only [Recorded.lift,Machine.applyKernel,x.namedtupleItems_number hl,
    x.namedtupleItems_number hr,Option.getD_none,ite_self]

theorem compare_numbers {op : CmpOp} {l r : Value} (fuel : Nat) (hl : isNumber l)
    (hr : isNumber r) (s : State W) :
    x.compare (fuel+1) op l r s=(x.compareBuiltin op l r s,s,[]) := by
  have hrest : ∀again, x.compareRest again op l r s=(x.compareBuiltin op l r s,s,[]) := by
    intro again
    simp only [Machine.compareRest,Machine.dataclassOrderCompare,Machine.totalOrderingDerive,
      x.instanceClass_number hl,x.instanceClass_number hr,ite_self,Option.isSome_none,Bool.or_self,
      Bool.and_false,Bool.false_eq_true,if_false]
    rfl
  simp only [Machine.compare,askSlot_number hl,askSlot_number hr]
  exact hrest _

/-- The fast path for two machine integers is the kernel's. -/
theorem binopValues_numbers {op : Operator} {l r : Value} (hl : isNumber l) (hr : isNumber r)
    (s : State W) : x.Runs (x.binopValues op l r) s 0 (x.applyBinop op l r s) [] := by
  have hslow : Recorded.relabel Event.called (x.binop op l r) s=
      (x.applyBinop op l r s,s,([] : List (Event L M))) := by
    simp only [Recorded.relabel,binop_numbers hl hr,List.map_nil]
  let kernel := InterpretThis.applyBinop x.powf (x.rest s.decimalPrec) x.config.maxIntBits op
  have hfast : ∀(f : Int → Int → Int) (a b : Int64), l=.int a → r=.int b →
      kernel (.int a) (.int b)=.ok (fastOp f a b) → x.applyBinop op l r s=.ok (fastOp f a b) := by
    rintro f a b rfl rfl h
    rw [x.applyBinop_eq]
    exact congrArg (Except.mapError Failure.raised) h
  have heq := fun a b : Int64 => (evalBinop_eq x.powf (x.rest s.decimalPrec) x.config.maxIntBits op
    (.int a) (.int b)).symm
  change x.binopValues op l r s=(x.applyBinop op l r s,s,[])
  unfold Host.binopValues
  split
  · rename_i a b
    rw [hfast (·+·) a b rfl rfl (heq a b)]
    rfl
  · rename_i a b
    rw [hfast (·-·) a b rfl rfl (heq a b)]
    rfl
  · rename_i a b
    rw [hfast (·*·) a b rfl rfl (heq a b)]
    rfl
  · exact hslow

theorem compareValues_numbers {op : Comparison} {l r : Value} (hop : op.isMembership=false)
    (hl : isNumber l) (hr : isNumber r) (s : State W) :
    x.Runs (x.compareValues op l r) s 0 (x.compareSync s op l r) [] := by
  cases op with
  | rich op =>
    change Recorded.relabel Event.called (x.compare (x.fuel+1) op l r) s=
      (x.compareBuiltin op l r s,s,[])
    simp only [Recorded.relabel,compare_numbers x.fuel hl hr,List.map_nil]
  | is => exact Runs.pure _ s
  | isNot => exact Runs.pure _ s
  | «in» => cases hop
  | notIn => cases hop

end Values

section Operands

variable {C M L W : Type} {x : Host C M L W}

/-- The policy lets the expression through, if it is a name. -/
def Expr.permitted : Expr L → Bool
  | .name id => !dangerousNames.contains id
  | _ => true

variable {s : State W} {o : NumericSync L}

theorem metered_ok (h : (x.incrementMany o.count s).1=.ok ()) :
    x.metered (M := M) o s=(o.result,s.spend o.count,o.read.map .read) := by
  simp only [Host.metered,incrementMany_ok x h]

theorem metered_error {e : Failure} (h : (x.incrementMany o.count s).1=.error e) :
    x.metered (M := M) o s=(.error e,(x.incrementMany o.count s).2,o.read.map .read) := by
  rcases hrun : x.incrementMany o.count s with ⟨out,t⟩
  rw [hrun] at h
  cases h
  simp only [Host.metered,hrun]

theorem metered_runs : x.Runs (x.metered (M := M) o) s o.count o.result o.read := by
  unfold Host.Runs
  cases hn : (x.incrementMany o.count s).1 with
  | error e => exact congrArg Prod.fst (metered_error hn)
  | ok u => exact metered_ok hn

theorem metered_after (o : NumericSync L) (s : State W) :
    ∃n, (x.metered (M := M) o s).2.1=s.spend n := by
  cases hn : (x.incrementMany o.count s).1 with
  | ok u => exact ⟨o.count,by rw [metered_ok hn]⟩
  | error e =>
    obtain ⟨n,h⟩ := incrementMany_after x o.count s
    exact ⟨n,by rw [metered_error hn,h]⟩

/-- The synchronous outcome at some depth, which no recursion limit cut off, or could have. -/
structure Settled (x : Host C M L W) (s : State W) (e : Expr L) (d : Nat) (o : NumericSync L) :
    Prop where
  outcome : x.evalNumericUnmetered s e d=some o
  uncut : o.result≠.error x.recursionError ∨ d+e.height≤x.config.maxRecursionDepth

theorem Settled.shallow {s t : State W} {e : Expr L} {d : Nat} (h : Settled x s e d o)
    (hst : s.Alike t) : x.evalNumericUnmetered t e 0=some o := by
  obtain heq|⟨hdeep,read,hcut⟩ :=
    evalNumericUnmetered_shallower (x := x) hst e (Nat.zero_le d)
  · exact heq.symm.trans h.outcome
  · have ho : o=⟨.error x.recursionError,1,read⟩ := Option.some.inj (h.outcome.symm.trans hcut)
    obtain hne|hle := h.uncut
    · rw [ho] at hne
      exact absurd rfl hne
    · omega

theorem Settled.unguarded {s : State W} {e : Expr L} {d : Nat} {o : NumericSync L}
    {inner : Option (NumericSync L)} (h : Settled x s e d o) (hh : 1≤e.height)
    (hinner : x.evalNumericUnmetered s e d=x.guarded d inner) : inner=some o := by
  obtain ⟨hd,rfl⟩|⟨-,hi⟩ := guarded_some x (hinner.symm.trans h.outcome)
  · obtain hne|hle := h.uncut
    · exact absurd rfl hne
    · omega
  · exact hi

/-- The expressions that the two evaluators both compute. -/
def Expr.isOperation : Expr L → Bool
  | .binOp _ _ _ => true
  | .compare _ _ _ => true
  | _ => false

theorem syncFirst_operation {e : Expr L} {slow : Eval L M W Value} (he : e.isOperation)
    (h : x.evalNumericUnmetered s e 0=some o) : x.syncFirst e slow s=x.metered o s := by
  have hrun : x.tryEvalNumericExprSync (M := M) e s=
      (some (x.metered o s).1,(x.metered o s).2.1,(x.metered o s).2.2) := by
    unfold Host.tryEvalNumericExprSync
    rw [h]
  cases e with
  | binOp l op r =>
    unfold Host.syncFirst
    dsimp only
    rw [hrun]
  | compare l ops cs =>
    unfold Host.syncFirst
    dsimp only
    rw [hrun]
  | _ => cases he

/-- An operand that the synchronous evaluator took is read alike by the asynchronous one. -/
theorem syncFirst_runs {s t : State W} {e : Expr L} {d : Nat} (h : Settled x s e d o)
    (hst : s.Alike t) (hp : e.permitted) (slow : Eval L M W Value) :
    x.Runs (x.syncFirst e slow) t o.count o.result o.read := by
  have hshallow := h.shallow hst
  cases e with
  | constant c =>
    obtain ⟨-,rfl⟩ := leaf_some (h.unguarded (Nat.le_refl 1) rfl)
    exact Runs.readLeaf
  | name id =>
    obtain ⟨v,hv,hleaf⟩ := Option.bind_eq_some_iff.mp (h.unguarded (Nat.le_refl 1) rfl)
    obtain ⟨-,rfl⟩ := leaf_some hleaf
    have hname : x.evalName id (t.spend 1)=.ok v := by
      have hfree : dangerousNames.contains id=false := (Bool.not_eq_true' _).mp hp
      simp only [Host.evalName,hfree,State.spend,hst.bindings,hv]
      rfl
    have := Runs.readLeaf (x := x) (e := Expr.name id) (f := x.evalName id) (s := t)
    rwa [hname] at this
  | binOp l op r =>
    have := metered_runs (x := x) (M := M) (o := o) (s := t)
    unfold Host.Runs Recorded.result at *
    rwa [syncFirst_operation rfl hshallow]
  | compare l ops cs =>
    have := metered_runs (x := x) (M := M) (o := o) (s := t)
    unfold Host.Runs Recorded.result at *
    rwa [syncFirst_operation rfl hshallow]
  | other l => cases h.unguarded (Nat.le_refl 1) rfl

theorem Runs.operand {A : Type} {m : Eval L M W Value} {k : Value → Eval L M W A} {v : Value}
    {n j : Nat} {r : Except Failure A} {read read' : List (Expr L)} (hm : x.Runs m s n (.ok v) read)
    (hv : isNumber v) (hk : x.Runs (k v) (s.spend n) j r read') :
    x.Runs (m >>= fun v => x.resolved v >>= k) s (n+j) r (read++read') := by
  have hrest := Runs.bind (resolved_number hv (s.spend n)) (f := k) hk
  rw [Nat.zero_add,List.nil_append] at hrest
  exact Runs.bind hm hrest

theorem Settled.child {e c : Expr L} {d : Nat} {o o' : NumericSync L} (h : Settled x s e d o)
    (hc : x.evalNumericUnmetered s c (d+1)=some o') (hheight : c.height+1≤e.height)
    (herror : ∀err, o'.result=.error err → o.result=.error err) : Settled x s c (d+1) o' := by
  refine ⟨hc,?_⟩
  obtain hne|hle := h.uncut
  · exact .inl fun heq => hne (herror _ heq)
  · exact .inr (by omega)

variable [DecidableEq C] [DecidableEq Value]

theorem evalBinop_runs {l r : Expr L} {op : Operator} (h : Settled x s (.binOp l op r) 0 o)
    (hl : l.permitted) (hr : r.permitted) (hs : s.exprDepth<x.config.maxRecursionDepth) :
    ∃n, n≤(Expr.binOp l op r).size ∧ x.Runs (x.evalBinop l op r) s n o.result o.read := by
  have hinner := h.unguarded (Nat.le_add_left 1 _) rfl
  have hdeeper : s.Alike {s with exprDepth := s.exprDepth+1} := ⟨rfl,rfl,rfl⟩
  have hleft : l.height+1≤(Expr.binOp l op r).height := by simp only [Expr.height]; omega
  have hright : r.height+1≤(Expr.binOp l op r).height := by simp only [Expr.height]; omega
  obtain ⟨e,m,read,ha,rfl⟩|⟨a,m,read,ha,hinner⟩ := operand_some hinner
  · have hm : m≤l.size := (evalNumericUnmetered_sound x ha).count
    refine ⟨m,by simp only [Expr.size]; omega,Runs.nested hs ?_⟩
    exact Runs.bind_error (syncFirst_runs (h.child ha hleft fun _ h => h) hdeeper hl _)
  · have hsound := evalNumericUnmetered_sound x ha
    have hm : m≤l.size := hsound.count
    have hrunl := syncFirst_runs (h.child ha hleft (by simp)) hdeeper hl (x.evalExpr l)
    have hfar := hdeeper.trans (State.alike_spend m _)
    obtain ⟨e,n,read',hb,rfl⟩|⟨b,n,read',hb,hinner⟩ := operand_some hinner
    · have hn : n ≤ r.size := (evalNumericUnmetered_sound x hb).count
      have hrunr := syncFirst_runs (h.child hb hright fun _ h => h) hfar hr (x.evalExpr r)
      refine ⟨m+n,by simp only [Expr.size]; omega,Runs.nested hs ?_⟩
      exact Runs.operand hrunl (hsound.number a rfl) (Runs.bind_error hrunr)
    · have hsound' := evalNumericUnmetered_sound x hb
      have hn : n ≤ r.size := hsound'.count
      have hrunr := syncFirst_runs (h.child hb hright (by simp)) hfar hr (x.evalExpr r)
      cases hinner
      refine ⟨m+n,by simp only [Expr.size]; omega,Runs.nested hs ?_⟩
      have htail := @binopValues_numbers C M L W x _ _ op a b (hsound.number a rfl)
        (hsound'.number b rfl) (({s with exprDepth := s.exprDepth+1} : State W).spend m |>.spend n)
      rw [← applyBinop_alike (hfar.trans (State.alike_spend n _))] at htail
      have hrest := Runs.operand hrunr (hsound'.number b rfl) htail
      rw [Nat.add_zero,List.append_nil] at hrest
      exact Runs.operand hrunl (hsound.number a rfl) hrest

/-- A chain stops where the synchronous one does. -/
theorem evalComparators_runs : ∀{cs : List (Expr L)} {ops : List Comparison}
    {left : Value} {count : Nat} {seen : List (Expr L)} {o : NumericSync L} {t : State W},
    s.Alike t → isNumber left → ops.any Comparison.isMembership=false →
    x.evalNumericCompare s cs 1 ops left count seen=some o →
    (o.result≠.error x.recursionError ∨ 1+heights cs≤x.config.maxRecursionDepth) →
    (∀c∈cs, c.permitted) →
    ∃n read, n ≤ sizes cs ∧ o.read=seen++read ∧
      x.Runs (x.evalComparators cs ops left) t n o.result read
  | [],ops,left,count,seen,o,t,hst,hleft,hops,h,huncut,hp => by
    cases h
    exact ⟨0,[],Nat.zero_le _,(List.append_nil _).symm,Runs.pure _ t⟩
  | c::cs,[],left,count,seen,o,t,hst,hleft,hops,h,huncut,hp => by
    cases h
    exact ⟨0,[],Nat.zero_le _,(List.append_nil _).symm,Runs.pure _ t⟩
  | c::cs,op::ops,left,count,seen,o,t,hst,hleft,hops,h,huncut,hp => by
    have hop : op.isMembership=false ∧ ops.any Comparison.isMembership=false := by
      simpa only [List.any_cons,Bool.or_eq_false_iff] using hops
    have hsettled : ∀{o'}, x.evalNumericUnmetered s c 1=some o' →
        (∀err, o'.result=.error err → o.result=.error err) → Settled x s c 1 o' := by
      intro o' hc herror
      refine ⟨hc,huncut.imp (fun hne heq => hne (herror _ heq)) ?_⟩
      simp only [heights]
      omega
    obtain ⟨e,n,read,hc,rfl⟩|⟨right,n,read,hc,h⟩ := operand_some h
    · have hn : n ≤ c.size := (evalNumericUnmetered_sound x hc).count
      have hrun := syncFirst_runs (hsettled hc fun _ h => h) hst (hp c (by simp)) (x.evalExpr c)
      exact ⟨n,read,by simp only [sizes]; omega,rfl,Runs.bind_error hrun⟩
    · have hsound := evalNumericUnmetered_sound x hc
      have hn : n ≤ c.size := hsound.count
      have hright := hsound.number right rfl
      have hrun := syncFirst_runs (hsettled hc (by simp)) hst (hp c (by simp)) (x.evalExpr c)
      have hfar := hst.trans (State.alike_spend n t)
      have hlink := compareValues_numbers (x := x) hop.1 hleft hright (t.spend n)
      rw [← compareSync_alike (s := s) hleft hright] at hlink
      have htail : ∀{j : Nat} {r : Except Failure Value} {read' : List (Expr L)},
          x.Runs (x.compareValues op left right >>= fun b =>
            if b=true then x.evalComparators cs ops right else pure (.bool false))
            (t.spend n) j r read' →
          x.Runs (x.evalComparators (c::cs) (op::ops) left) t (n+j) r (read++read') :=
        fun h => Runs.operand (k := fun v => x.compareValues op left v >>= fun b =>
          if b=true then x.evalComparators cs ops v else pure (.bool false)) hrun hright h
      split at h
      · rename_i htrue
        rw [htrue] at hlink
        obtain ⟨k,read',hk,hread,hrest⟩ := evalComparators_runs hfar hright hop.2 h
          (huncut.imp_right fun hle => by simp only [heights] at hle; omega)
          fun c hc => hp c (List.mem_cons_of_mem _ hc)
        refine ⟨n+(0+k),read++([]++read'),by simp only [sizes]; omega,?_,?_⟩
        · rw [hread,List.append_assoc,List.nil_append]
        · exact htail (Runs.bind hlink hrest)
      · rename_i hfalse
        rw [hfalse] at hlink
        cases h
        refine ⟨n+(0+0),read++([]++[]),by simp only [sizes]; omega,?_,?_⟩
        · rw [List.append_nil,List.append_nil]
        · exact htail (Runs.bind hlink (Runs.pure _ _))
      · rename_i e herror
        rw [herror] at hlink
        cases h
        refine ⟨n+0,read++[],by simp only [sizes]; omega,?_,htail (Runs.bind_error hlink)⟩
        rw [List.append_nil]

theorem evalCompare_runs {l : Expr L} {ops : List Comparison} {cs : List (Expr L)}
    (h : Settled x s (.compare l ops cs) 0 o) (hl : l.permitted) (hcs : ∀c∈cs, c.permitted) :
    ∃n, n≤(Expr.compare l ops cs).size ∧ x.Runs (x.evalCompare l ops cs) s n o.result o.read := by
  have hinner := h.unguarded (Nat.le_add_left 1 _) rfl
  have hheight : l.height+1≤(Expr.compare l ops cs).height := by simp only [Expr.height]; omega
  have hchain : 1+heights cs≤(Expr.compare l ops cs).height := by simp only [Expr.height]; omega
  have hself : s.Alike s := ⟨rfl,rfl,rfl⟩
  split at hinner
  · cases hinner
  · rename_i hops
    obtain ⟨e,m,read,ha,rfl⟩|⟨a,m,read,ha,hinner⟩ := operand_some hinner
    · have hm : m≤l.size := (evalNumericUnmetered_sound x ha).count
      refine ⟨m,by simp only [Expr.size]; omega,?_⟩
      exact Runs.bind_error (syncFirst_runs (h.child ha hheight fun _ h => h) hself hl _)
    · have hsound := evalNumericUnmetered_sound x ha
      have hm : m≤l.size := hsound.count
      have hrun := syncFirst_runs (h.child ha hheight (by simp)) hself hl (x.evalExpr l)
      obtain ⟨n,read',hn,hread,hrest⟩ := evalComparators_runs (State.alike_spend m s)
        (hsound.number a rfl) (Bool.eq_false_iff.mpr hops) hinner
        (h.uncut.imp_right fun hle => by omega) hcs
      rw [List.nil_append] at hread
      refine ⟨m+n,by simp only [Expr.size]; omega,?_⟩
      rw [hread]
      exact Runs.operand hrun (hsound.number a rfl) hrest

end Operands

section Agreement

variable {C M L W : Type} {x : Host C M L W}

/-- The limits leave room for the whole expression. -/
structure Host.Ample (x : Host C M L W) (e : Expr L) (s : State W) : Prop where
  height : e.height≤x.config.maxRecursionDepth
  depth : s.exprDepth<x.config.maxRecursionDepth
  operations : ∀n, 1≤n → n≤e.size → x.checkOps (s.operationsCount+n) s.world=.ok ()

def Unlimited (r : Except Failure Value) : Prop := ∀err, r=.error err → err.isLimit=false

/-- The result with the leaves that were read, and nothing changed but the count. -/
structure Gives (m : Eval L M W Value) (s : State W) (r : Except Failure Value)
    (log : List (Event L M)) : Prop where
  result : m.result s=r
  record : m.record s=log
  after : ∃n, m.after s=s.spend n

variable {s : State W}

theorem Runs.gives {m : Eval L M W Value} {n : Nat} {r : Except Failure Value}
    {read : List (Expr L)} (h : x.Runs m s n r read) (hok : (x.incrementMany n s).1=.ok ()) :
    Gives m s r (read.map .read) := by
  simp only [Host.Runs,hok] at h
  refine ⟨Recorded.result_of h,Recorded.record_of h,n,?_⟩
  rw [Recorded.after,h]

theorem Runs.unlimited {m : Eval L M W Value} {n : Nat} {r : Except Failure Value}
    {read : List (Expr L)} (h : x.Runs m s n r read) (hu : Unlimited (m.result s)) :
    Gives m s r (read.map .read) := by
  cases hn : (x.incrementMany n s).1 with
  | ok u => exact Runs.gives h hn
  | error e =>
    simp only [Host.Runs,hn] at h
    have hlimit := incrementMany_limit x hn
    rw [hu e h] at hlimit
    cases hlimit

theorem nested_unlimited {m : Eval L M W Value} (h : Unlimited ((x.nested m).result s)) :
    s.exprDepth<x.config.maxRecursionDepth := by
  by_contra hd
  have hcut : (x.nested m).result s=.error x.recursionError := by
    simp only [Recorded.result,Host.nested,if_pos (Nat.not_lt.mp hd)]
  have hlimit : x.recursionError.isLimit=false := h _ hcut
  cases hlimit

variable [DecidableEq C] [DecidableEq Value]

def Host.evalAsync (x : Host C M L W) : Expr L → Eval L M W Value
  | .binOp l op r => x.evalBinop l op r
  | .compare l ops cs => x.evalCompare l ops cs
  | e => x.evalExpr e

def Expr.operands : Expr L → List (Expr L)
  | .binOp l _ r => [l,r]
  | .compare l _ cs => l::cs
  | _ => []

theorem evalAsync_runs {e : Expr L} {o : NumericSync L} (he : e.isOperation) (h : Settled x s e 0 o)
    (hp : ∀c∈e.operands, c.permitted)
    (hs : ∀l op r, e=.binOp l op r → s.exprDepth<x.config.maxRecursionDepth) :
    ∃n, n≤e.size ∧ x.Runs (x.evalAsync e) s n o.result o.read := by
  cases e with
  | binOp l op r =>
    have hl : l.permitted := hp l (by simp [Expr.operands])
    have hr : r.permitted := hp r (by simp [Expr.operands])
    exact evalBinop_runs h hl hr (hs l op r rfl)
  | compare l ops cs =>
    have hl : l.permitted := hp l (by simp [Expr.operands])
    exact evalCompare_runs h hl fun c hc => hp c (List.mem_cons_of_mem _ hc)
  | constant c => cases he
  | name id => cases he
  | other l => cases he

/-- Up to the limits that each enforces on its own account, the two evaluators give the same. -/
theorem numeric_evaluators_agree (x : Host C M L W) (e : Expr L) (s : State W)
    (he : e.isOperation) :
    (∀{t log}, x.tryEvalNumericExprSync e s=(none,t,log) → t=s ∧ log=[]) ∧
    ∀{r t log}, x.tryEvalNumericExprSync e s=(some r,t,log) →
      (∃n, t=s.spend n) ∧ ((∀c∈e.operands, c.permitted) →
        (Unlimited r → Unlimited ((x.evalAsync e).result s) → Gives (x.evalAsync e) s r log) ∧
        (x.Ample e s → Gives (x.evalAsync e) s r log)) := by
  cases ho : x.evalNumericUnmetered s e 0 with
  | none =>
    have hnone : x.tryEvalNumericExprSync e s=(none,s,([] : List (Event L M))) := by
      simp only [Host.tryEvalNumericExprSync,ho]
    rw [hnone]
    refine ⟨?_,?_⟩
    · intro t log h
      cases h
      exact ⟨rfl,rfl⟩
    · intro r t log h
      cases h
  | some o =>
    have hsome : x.tryEvalNumericExprSync (M := M) e s=
        (some (x.metered o s).1,(x.metered o s).2.1,(x.metered o s).2.2) := by
      simp only [Host.tryEvalNumericExprSync,ho]
    rw [hsome]
    refine ⟨fun h => (by cases h),?_⟩
    intro r t log h
    cases h
    refine ⟨metered_after o s,fun hp => ⟨?_,?_⟩⟩
    · intro hsync hasync
      have hok : (x.incrementMany o.count s).1=.ok () := by
        cases hn : (x.incrementMany o.count s).1 with
        | ok u => rfl
        | error err =>
          have hlimit := incrementMany_limit x hn
          rw [hsync err (congrArg Prod.fst (metered_error hn))] at hlimit
          cases hlimit
      rw [metered_ok hok] at hsync ⊢
      have hsettled : Settled x s e 0 o := by
        refine ⟨ho,.inl fun heq => ?_⟩
        have hlimit : x.recursionError.isLimit=false := hsync _ heq
        cases hlimit
      obtain ⟨n,-,hruns⟩ := evalAsync_runs he hsettled hp fun l op r h => by
        subst h
        exact nested_unlimited hasync
      exact Runs.unlimited hruns hasync
    · intro hample
      have hok : ∀{n}, n≤e.size → (x.incrementMany n s).1=.ok () := fun hn =>
        incrementMany_passes x fun k hk hkn => hample.operations k hk (Nat.le_trans hkn hn)
      rw [metered_ok (hok (evalNumericUnmetered_sound x ho).count)]
      have hsettled : Settled x s e 0 o := ⟨ho,.inr ((Nat.zero_add _).trans_le hample.height)⟩
      obtain ⟨n,hn,hruns⟩ := evalAsync_runs he hsettled hp fun _ _ _ _ => hample.depth
      exact Runs.gives hruns (hok hn)

end Agreement

section Limits

def compareInts (op : CmpOp) (l r : Value) : Except Failure Bool :=
  match op with
  | .lt => .ok (decide (l.asBigint.getD 0 < r.asBigint.getD 0))
  | _ => .ok (decide (l.asBigint=r.asBigint))

/-- A program of numbers: no classes, no host and no memory to look after. -/
def numbers (config : Config) : Host Empty Unit Empty Unit where
  instanceClass _ := none
  lookup c := nomatch c
  callMethod _ _ _ s := (.ok .none,s)
  notImplemented := .notImplemented
  isTruthy _ := true
  early _ _ _ := none
  namedtupleItems _ _ := none
  applyBinop op l r _ := (InterpretThis.applyBinop (fun _ _ => F64.zero)
    (fun _ l r => .error (unsupported "/" l r)) config.maxIntBits op l r).mapError .raised
  order c := nomatch c
  dataclassFields c := nomatch c
  totalOrdering c := nomatch c
  ownMethod c := nomatch c
  fieldOf _ _ _ := none
  valuesEqual _ _ _ := false
  dispatchLt _ _ _ := .ok false
  compareBuiltin op l r _ := compareInts op l r
  unorderable _ l r := .raised (unsupported "<" l r)
  stackExhausted := .recursionLimitExceeded 0
  config := config
  powf _ _ := F64.zero
  rest _ _ l r := .error (unsupported "/" l r)
  rest_number _ _ h := nomatch h
  applyBinop_eq _ _ _ _ := rfl
  instanceClass_number _ := rfl
  early_number _ := rfl
  namedtupleItems_number _ := rfl
  compareNumbers := compareInts
  compareBuiltin_number _ _ := rfl
  valuesIs _ _ := false
  contains _ _ := pure false
  resolveProxy := pure .none
  overdue _ _ := none
  predefined _ _ := .ok .none
  fuel := 0
  evalOther l := nomatch l

def one : Expr Empty := .constant (.int 1)

def two : Expr Empty := .constant (.int 2)

def atCounts (operationsCount exprDepth : Nat) : State Unit where
  bindings _ := none
  operationsCount := operationsCount
  exprDepth := exprDepth
  decimalPrec := 28
  world := ()

open Classical in
/-- `1+1<2` under a recursion limit of two, `1<2<2` with four operations left, and `1+1` where the
nesting has reached the limit. -/
theorem limits_differ :
    ((numbers ⟨2,100,64⟩).tryEvalNumericExprSync (M := Unit)
        (.compare (.binOp one .add one) [.rich .lt] [two]) (atCounts 0 0)).1=
      some (.error (.recursionLimitExceeded 2)) ∧
    ((numbers ⟨2,100,64⟩).evalCompare (.binOp one .add one) [.rich .lt] [two]).result
      (atCounts 0 0)=.ok (.bool false) ∧
    ((numbers ⟨2,5,64⟩).tryEvalNumericExprSync (M := Unit)
        (.compare one [.rich .lt,.rich .lt] [two,two]) (atCounts 0 0)).1=
      some (.error (numbers ⟨2,5,64⟩).operationsError) ∧
    ((numbers ⟨2,5,64⟩).evalCompare one [.rich .lt,.rich .lt] [two,two]).result (atCounts 0 0)=
      .ok (.bool false) ∧
    ((numbers ⟨2,100,64⟩).tryEvalNumericExprSync (M := Unit) (.binOp one .add one)
      (atCounts 0 2)).1=some (.ok (.int 2)) ∧
    ((numbers ⟨2,100,64⟩).evalBinop one .add one).result (atCounts 0 2)=
      .error (.recursionLimitExceeded 2) :=
  ⟨rfl,rfl,rfl,rfl,rfl,rfl⟩

open Classical in
theorem numeric_evaluators_agree_sum :
    Gives ((numbers ⟨100,90,64⟩).evalAsync (.compare (.binOp one .add one) [.rich .lt] [two]))
      (atCounts 0 0) (.ok (.bool false)) [.read one,.read one,.read two] := by
  have hrun : (numbers ⟨100,90,64⟩).tryEvalNumericExprSync (M := Unit)
      (.compare (.binOp one .add one) [.rich .lt] [two]) (atCounts 0 0)=
        (some (.ok (.bool false)),atCounts 5 0,[.read one,.read one,.read two]) := rfl
  have hp : ∀c∈(Expr.compare (.binOp one .add one) [.rich .lt] [two]).operands, c.permitted := by
    intro c hc
    simp only [Expr.operands,List.mem_cons,List.not_mem_nil,or_false] at hc
    obtain rfl|rfl := hc <;> rfl
  refine (((numeric_evaluators_agree (numbers ⟨100,90,64⟩) _ (atCounts 0 0) rfl).2 hrun).2 hp).2
    ⟨by decide,by decide,?_⟩
  intro n hpos hn
  have hsmall : n≤5 := hn
  have hroom : ¬90≤0+n := by omega
  have hodd : ¬(0+n)%100=0 := by omega
  exact (if_neg hroom).trans (if_neg hodd)

end Limits

end InterpretThis.Numeric
