import InterpretThis.Attribute.Assign

namespace InterpretThis.Attribute

section Traces

variable {K L α β : Type} {s : InterpreterState K}

theorem evaluated_bind_of_ok {m : Eval K L α} {f : α → Eval K L β} {a : α}
    (h : (m s).out=.ok a) :
    ((m>>=f) s).evaluated=(m s).evaluated++(f a (m s).state).evaluated := by
  rw [Eval.bind_of_ok h]
  exact List.filterMap_append

theorem evaluated_bind_of_error {m : Eval K L α} {f : α → Eval K L β} {e : EvalError}
    (h : (m s).out=.error e) : ((m>>=f) s).evaluated=(m s).evaluated := by
  rw [Eval.bind_of_error h]
  rfl

theorem bind_completed {m : Eval K L α} {f : α → Eval K L β} {b : β}
    (h : ((m>>=f) s).out=.ok b) : ∃a, (m s).out=.ok a ∧ (f a (m s).state).out=.ok b ∧
      ((m>>=f) s).evaluated=(m s).evaluated++(f a (m s).state).evaluated := by
  cases hm : (m s).out with
  | error e => rw [Eval.bind_of_error hm] at h; cases h
  | ok a =>
    refine ⟨a,rfl,?_,evaluated_bind_of_ok hm⟩
    rw [Eval.bind_of_ok hm] at h
    exact h

/-- The run evaluated the wanted sub-expressions once and in order, or failed on the way. -/
def Once (want : List L) (r : Run K L α) : Prop :=
  match r.out with
  | .ok _ => r.evaluated=want
  | .error _ => r.evaluated<+:want

theorem once_of_ok {want : List L} {r : Run K L α} {a : α} (h : r.out=.ok a) :
    Once want r ↔ r.evaluated=want := by
  simp [Once,h]

theorem once_of_error {want : List L} {r : Run K L α} {e : EvalError} (h : r.out=.error e) :
    Once want r ↔ r.evaluated<+:want := by
  simp [Once,h]

theorem once_of_evaluated {want : List L} {r : Run K L α} (h : r.evaluated=want) : Once want r := by
  cases hr : r.out with
  | ok a => exact (once_of_ok hr).mpr h
  | error e => exact (once_of_error hr).mpr (h ▸ List.prefix_refl _)

theorem Once.bind {first second : List L} {m : Eval K L α} {f : α → Eval K L β}
    (hm : Once first (m s)) (hf : ∀a, (m s).out=.ok a → Once second (f a (m s).state)) :
    Once (first++second) ((m>>=f) s) := by
  cases h : (m s).out with
  | error e =>
    have hr : ((m>>=f) s).out=.error e := by rw [Eval.bind_of_error h]
    rw [once_of_error hr,evaluated_bind_of_error h]
    exact ((once_of_error h).mp hm).trans (List.prefix_append _ _)
  | ok a =>
    have hfirst := (once_of_ok h).mp hm
    have hsecond := hf a h
    cases hb : (f a (m s).state).out with
    | ok b =>
      have hr : ((m>>=f) s).out=.ok b := by rw [Eval.bind_of_ok h]; exact hb
      rw [once_of_ok hr,evaluated_bind_of_ok h,hfirst,(once_of_ok hb).mp hsecond]
    | error e =>
      have hr : ((m>>=f) s).out=.error e := by rw [Eval.bind_of_ok h]; exact hb
      rw [once_of_error hr,evaluated_bind_of_ok h,hfirst]
      exact List.prefix_append_right_inj _ |>.mpr ((once_of_error hb).mp hsecond)

theorem Once.bind_quiet {want : List L} {m : Eval K L α} {f : α → Eval K L β}
    (hm : (m s).evaluated=[]) (hf : ∀a, (m s).out=.ok a → Once want (f a (m s).state)) :
    Once want ((m>>=f) s) := by
  have h := Once.bind (once_of_evaluated hm) hf
  simpa using h

@[simp] theorem evaluated_lift (f : InterpreterState K → Except EvalError α×InterpreterState K)
    (s : InterpreterState K) : (Eval.lift f s : Run K L α).evaluated=[] := rfl

@[simp] theorem evaluated_check (r : Except EvalError α) (s : InterpreterState K) :
    (Eval.check r s : Run K L α).evaluated=[] := rfl

@[simp] theorem evaluated_throw (kind : ErrorKind) (message : String) (s : InterpreterState K) :
    (Eval.throw kind message s : Run K L α).evaluated=[] := rfl

@[simp] theorem evaluated_get (s : InterpreterState K) :
    (Eval.get s : Run K L _).evaluated=[] := rfl

@[simp] theorem evaluated_modify (f : InterpreterState K → InterpreterState K)
    (s : InterpreterState K) : (Eval.modify f s : Run K L Unit).evaluated=[] := rfl

@[simp] theorem evaluated_pure (a : α) (s : InterpreterState K) :
    ((Pure.pure a : Eval K L α) s).evaluated=[] := rfl

@[simp] theorem evaluated_note_receiver (e : Expr L) (s : InterpreterState K) :
    (Eval.note (.receiver e) s : Run K L Unit).evaluated=[] := rfl

variable (x : Externals K L)

@[simp] theorem evaluated_leaf (l : L) (s : InterpreterState K) : (leaf x l s).evaluated=[l] := rfl

theorem once_leafOpt (l : Option L) (s : InterpreterState K) :
    Once l.toList (leafOpt x l s) := by
  cases l with
  | none => exact once_of_evaluated rfl
  | some l =>
    show Once ([l]++[]) (leafOpt x (some l) s)
    exact Once.bind (once_of_evaluated (evaluated_leaf x l s)) fun a _ => once_of_evaluated rfl

section Navigation

variable [DecidableEq K]

@[simp] theorem evaluated_navigateRoot
    (f : Val K → InterpreterState K → Except EvalError α×Val K×InterpreterState K) (root : String)
    (steps : List (PlaceStep K)) (s : InterpreterState K) :
    (navigateRoot x f root steps s).evaluated=[] := by
  unfold navigateRoot
  split <;> rfl

@[simp] theorem evaluated_peek (p : Option (Place K)) (s : InterpreterState K) :
    (peek x p s).evaluated=[] := by
  unfold peek
  split
  · rfl
  · split
    · rfl
    · split <;> rfl

end Navigation

@[simp] theorem evaluated_evalName (id : String) (s : InterpreterState K) :
    (evalName x id s).evaluated=[] := by
  unfold evalName
  split <;> rfl

/-- A step that evaluates the sub-expressions of the target once, or gives up on them. -/
inductive Placed (want : List L) (s : InterpreterState K) (r : Run K L (Option (Place K))) : Prop
    where
  | found (p : Place K) (out : r.out=.ok (some p)) (evaluated : r.evaluated=want)
  | refused (out : r.out=.ok none) (evaluated : r.evaluated=[]) (state : r.state=s)
  | failed (e : EvalError) (out : r.out=.error e) (evaluated : r.evaluated<+:want)

/-- An accessor was added to a place, its sub-expressions evaluated once. -/
def Grown (want : List L) (r : Run K L (Option (Place K))) : Prop :=
  (∃p, r.out=.ok (some p) ∧ r.evaluated=want) ∨ ∃e, r.out=.error e ∧ r.evaluated<+:want

theorem Grown.bind {first second : List L} {m : Eval K L α} {f : α → Eval K L (Option (Place K))}
    (hm : Once first (m s)) (hf : ∀a t, Grown second (f a t)) :
    Grown (first++second) ((m>>=f) s) := by
  cases h : (m s).out with
  | error e =>
    refine .inr ⟨e,by rw [Eval.bind_of_error h],?_⟩
    rw [evaluated_bind_of_error h]
    exact ((once_of_error h).mp hm).trans (List.prefix_append _ _)
  | ok a =>
    have hfirst := (once_of_ok h).mp hm
    obtain ⟨p,out,ev⟩ | ⟨e,out,ev⟩ := hf a (m s).state
    · refine .inl ⟨p,by rw [Eval.bind_of_ok h]; exact out,?_⟩
      rw [evaluated_bind_of_ok h,hfirst,ev]
    · refine .inr ⟨e,by rw [Eval.bind_of_ok h]; exact out,?_⟩
      rw [evaluated_bind_of_ok h,hfirst]
      exact (List.prefix_append_right_inj _).mpr ev

theorem grown_pure (p : Place K) (s : InterpreterState K) :
    Grown [] ((pure (some p) : Eval K L _) s) := .inl ⟨p,rfl,rfl⟩

theorem Placed.bind {first second : List L} {m : Eval K L (Option (Place K))}
    {g : Option (Place K) → Eval K L (Option (Place K))} (h : Placed first s (m s))
    (hnone : g none=pure none) (hsome : ∀p t, Grown second (g (some p) t)) :
    Placed (first++second) s ((m>>=g) s) := by
  cases h with
  | found p out ev =>
    obtain ⟨q,hq,hev⟩ | ⟨e,hq,hev⟩ := hsome p (m s).state
    · refine .found q (by rw [Eval.bind_of_ok out]; exact hq) ?_
      rw [evaluated_bind_of_ok out,ev,hev]
    · refine .failed e (by rw [Eval.bind_of_ok out]; exact hq) ?_
      rw [evaluated_bind_of_ok out,ev]
      exact (List.prefix_append_right_inj _).mpr hev
  | refused out ev st =>
    refine .refused ?_ ?_ ?_
    · rw [Eval.bind_of_ok out,hnone]; rfl
    · rw [evaluated_bind_of_ok out,ev,hnone]; rfl
    · rw [Eval.bind_of_ok out,hnone]; exact st
  | failed e out ev =>
    refine .failed e (by rw [Eval.bind_of_error out]) ?_
    rw [evaluated_bind_of_error out]
    exact ev.trans (List.prefix_append _ _)

theorem Placed.guard {want : List L} {r : Except EvalError Unit}
    {m : Eval K L (Option (Place K))} (h : Placed want s (m s)) :
    Placed want s ((Eval.check r>>=fun _ => m) s) := by
  cases r with
  | ok u => exact h
  | error e => exact .failed e rfl List.nil_prefix

theorem placed_attr (v : Expr L) (a : String) (s : InterpreterState K)
    (ih : Placed v.indices s (evalPlace x v s)) :
    Placed v.indices s ((do
      let s ← Eval.get
      if namesClass s v then pure none
      else match ← evalPlace x v with
        | none => pure none
        | some p => pure (some (p.push (.attr a))) : Eval K L _) s) := by
  show Placed v.indices s ((if namesClass s v then pure none else _ : Eval K L _) s)
  by_cases hc : namesClass s v=true
  · rw [if_pos hc]
    exact .refused rfl rfl rfl
  · rw [if_neg hc,←List.append_nil v.indices]
    exact Placed.bind ih rfl fun p t => grown_pure _ _

/-- `eval_place` evaluates the index sub-expressions of a place once and in order; without a place
it evaluates none. -/
theorem evalPlace_placed (e : Expr L) (s : InterpreterState K) :
    Placed e.indices s (evalPlace x e s) := by
  induction e generalizing s with
  | name id => exact .found ⟨id,[]⟩ rfl rfl
  | other l => exact .refused rfl rfl rfl
  | subscript v i ih =>
    refine Placed.bind (ih s) rfl fun p t => ?_
    show Grown ([i]++[]) _
    exact Grown.bind (once_of_evaluated rfl) fun key t => grown_pure _ _
  | slice v lower upper step ih =>
    refine Placed.bind (ih s) rfl fun p t => ?_
    show Grown (lower.toList++upper.toList++step.toList) _
    rw [List.append_assoc,←List.append_nil step.toList]
    refine Grown.bind (once_leafOpt x lower t) fun lo t => ?_
    refine Grown.bind (once_leafOpt x upper t) fun up t => ?_
    exact Grown.bind (once_leafOpt x step t) fun st t => grown_pure _ _
  | attr v a ih => exact Placed.guard (placed_attr x v a s (ih s))

end Traces

section Traces

variable {K L α β : Type} {s : InterpreterState K} (x : Externals K L)

/-- The container of a static subscript is read in place. -/
def borrows (id : String) (i : L) (s : InterpreterState K) : Bool :=
  match (x.evalLeaf i s).1 with
  | .ok index => (borrowed id index (x.evalLeaf i s).2).isSome
  | .error _ => false

theorem once_slow (id : String) (i : L) (s : InterpreterState K) :
    Once [i] (evalSubscriptOfName.slow x id i s) := by
  refine Once.bind_quiet rfl fun _ _ => ?_
  refine Once.bind_quiet (evaluated_evalName x id _) fun obj _ => ?_
  show Once ([i]++[]) _
  exact Once.bind (once_of_evaluated rfl) fun index _ => once_of_evaluated rfl

variable {s : InterpreterState K}

theorem once_evalSubscriptOfName {id : String} {i : L}
    (h : x.sliceIsStatic i id=true → borrows x id i s=true) :
    Once [i] (evalSubscriptOfName x id i s) := by
  unfold evalSubscriptOfName
  by_cases hs : x.sliceIsStatic i id=true
  · rw [if_pos hs]
    show Once ([i]++[]) _
    refine Once.bind (once_of_evaluated rfl) fun index hi => ?_
    have hl : (x.evalLeaf i s).1=.ok index := hi
    refine Once.bind_quiet rfl fun t ht => ?_
    obtain rfl : (x.evalLeaf i s).2=t := Except.ok.inj ht
    have hb := h hs
    simp only [borrows,hl,Option.isSome_iff_exists] at hb
    obtain ⟨c,hc⟩ := hb
    simp only [hc]
    exact once_of_evaluated rfl
  · rw [if_neg hs]
    exact once_slow x id i s

theorem evalSubscriptOfName_twice {id : String} {i : L} {r : Val K} (hs : x.sliceIsStatic i id=true)
    (hb : borrows x id i s=false) (h : (evalSubscriptOfName x id i s).out=.ok r) :
    (evalSubscriptOfName x id i s).evaluated=[i,i] := by
  unfold evalSubscriptOfName at h ⊢
  rw [if_pos hs] at h ⊢
  obtain ⟨index,hi,h1,e1⟩ := bind_completed h
  have hl : (x.evalLeaf i s).1=.ok index := hi
  obtain ⟨t,ht,h2,e2⟩ := bind_completed h1
  obtain rfl : (x.evalLeaf i s).2=t := Except.ok.inj ht
  have hc : borrowed id index (x.evalLeaf i s).2=none := by simpa [borrows,hl] using hb
  simp only [hc] at h2 e2
  rw [e1,e2,(once_of_ok h2).mp (once_slow x id i _)]
  rfl

theorem once_bounds (lower upper step : Option L) (obj : Val K) (s : InterpreterState K) :
    Once (Expr.bounds lower upper step) ((do
      let lo ← leafOpt x lower
      let up ← leafOpt x upper
      let st ← leafOpt x step
      Eval.lift (x.applySlice obj lo up st) : Eval K L (Val K)) s) := by
  rw [Expr.bounds,List.append_assoc,←List.append_nil step.toList]
  refine Once.bind (once_leafOpt x lower s) fun lo _ => ?_
  refine Once.bind (once_leafOpt x upper _) fun up _ => ?_
  exact Once.bind (once_leafOpt x step _) fun st _ => once_of_evaluated rfl

theorem once_index (i : L) (obj : Val K) (s : InterpreterState K) :
    Once [i] ((do
      let index ← leaf x i
      Eval.lift (x.getitem none obj index) : Eval K L (Val K)) s) := by
  show Once ([i]++[]) _
  exact Once.bind (once_of_evaluated rfl) fun index _ => once_of_evaluated rfl

section Read

variable [DecidableEq K]

/-- The place of a receiver is found and navigation reaches it. -/
def Reached (v : Expr L) (s : InterpreterState K) : Prop :=
  ∃p obj, (evalPlace x v s).out=.ok (some p) ∧
    (peek x (some p) (evalPlace x v s).state).out=.ok (some obj)

/-- The condition under which reading a chain evaluates each index once. An attribute is read
through the place of its receiver, and when navigation does not reach that place the receiver is
evaluated again. -/
def ReadOnce : Expr L → InterpreterState K → Prop
  | .name _,_ => True
  | .other _,_ => False
  | .subscript (.name id) i,s => x.sliceIsStatic i id=true → borrows x id i s=true
  | .subscript v _,s => ReadOnce v s
  | .slice v _ _ _,s => ReadOnce v s
  | .attr v _,s => v.indices=[] ∨ Reached x v s ∨
      ((evalPlace x v s).out=.ok none ∧ ReadOnce v s)

/-- How an attribute read that completes came to its receiver. -/
theorem evalAttr_completed {v : Expr L} {a : String} {r : Val K}
    (h : (evalExpr x (.attr v a) s).out=.ok r) :
    (Reached x v s ∧ (evalExpr x (.attr v a) s).evaluated=v.indices) ∨
    ((evalPlace x v s).out=.ok none ∧ ∃obj, (evalExpr x v s).out=.ok obj ∧
      (evalExpr x (.attr v a) s).evaluated=(evalExpr x v s).evaluated) ∨
    ∃t obj, (evalExpr x v t).out=.ok obj ∧
      (evalExpr x (.attr v a) s).evaluated=v.indices++(evalExpr x v t).evaluated := by
  obtain ⟨_,_,h1,e1⟩ := bind_completed h
  obtain ⟨_,_,h2,e2⟩ := bind_completed h1
  obtain ⟨o,ho,h3,e3⟩ := bind_completed h2
  obtain ⟨q,hq,h4,e4⟩ := bind_completed h3
  replace ho : (evalPlace x v s).out=.ok o := ho
  have hall : (evalExpr x (.attr v a) s).evaluated=(evalPlace x v s).evaluated++_ :=
    e1.trans (e2.trans (e3.trans (congrArg _ (e4.trans (congrArg (·++_) (evaluated_peek x o _))))))
  cases q with
  | some obj =>
    cases evalPlace_placed x v s with
    | found p out ev =>
      obtain rfl : some p=o := Except.ok.inj (out.symm.trans ho)
      refine .inl ⟨⟨p,obj,out,hq⟩,?_⟩
      rw [hall,ev]
      simp
    | refused out ev st =>
      obtain rfl : none=o := Except.ok.inj (out.symm.trans ho)
      cases hq
    | failed e out ev => rw [ho] at out; cases out
  | none =>
    obtain ⟨obj,hobj,_,e5⟩ := bind_completed h4
    cases evalPlace_placed x v s with
    | found p out ev =>
      refine .inr (.inr ⟨_,obj,hobj,?_⟩)
      rw [hall,ev,e5]
      simp
    | refused out ev st =>
      obtain rfl : none=o := Except.ok.inj (out.symm.trans ho)
      have hst : (peek x none (evalPlace x v s).state : Run K L _).state=s := st
      have hobj' : (evalExpr x v (peek x none (evalPlace x v s).state).state).out=.ok obj := hobj
      have hev : (evalExpr x (.attr v a) s).evaluated=
          (evalExpr x v (peek x none (evalPlace x v s).state).state).evaluated := by
        rw [hall,ev,e5]
        exact (List.append_nil _)
      rw [hst] at hobj' hev
      exact .inr (.inl ⟨out,obj,hobj',hev⟩)
    | failed e out ev => rw [ho] at out; cases out

theorem evalSubscript_eq {v : Expr L} (hv : v.isName=false) (i : L) :
    evalExpr x (.subscript v i)=(do
      Eval.note (.receiver (.subscript v i))
      let obj ← evalExpr x v
      let index ← leaf x i
      Eval.lift (x.getitem none obj index)) := by
  cases v with
  | name id => cases hv
  | _ => rfl

theorem readOnce_subscript {v : Expr L} (hv : v.isName=false) (i : L) (s : InterpreterState K) :
    ReadOnce x (.subscript v i) s ↔ ReadOnce x v s := by
  cases v with
  | name id => cases hv
  | _ => rfl

theorem readOnce_of_no_indices {e : Expr L} (hc : e.isChain=true) (hi : e.indices=[])
    (s : InterpreterState K) : ReadOnce x e s := by
  induction e with
  | name id => trivial
  | other l => cases hc
  | subscript v i ih => simp [Expr.indices] at hi
  | slice v lower upper step ih => exact ih hc (List.append_eq_nil_iff.mp hi).1
  | attr v a ih => exact .inl hi

theorem once_after_place {want : List L} {v : Expr L} {a : String} {o : Option (Place K)}
    (hsome : ∀obj, (peek x o s : Run K L _).out=.ok (some obj) → want=[])
    (hnone : (peek x o s : Run K L _).out=.ok none → Once want (evalExpr x v (peek x o s).state)) :
    Once want ((peek x o>>=fun q => match q with
      | some obj => Eval.lift (x.getattr obj a)
      | none => evalExpr x v>>=fun obj => Eval.lift (x.getattr obj a) : Eval K L (Val K)) s) := by
  refine Once.bind_quiet (evaluated_peek x o s) fun q hq => ?_
  cases q with
  | some obj =>
    rw [hsome obj hq]
    exact once_of_evaluated rfl
  | none =>
    rw [←List.append_nil want]
    exact Once.bind (hnone hq) fun obj _ => once_of_evaluated rfl

/-- Under its condition a read evaluates each index once and in order. -/
theorem once_evalExpr {e : Expr L} (hc : e.isChain=true) (h : ReadOnce x e s) :
    Once e.indices (evalExpr x e s) := by
  induction e generalizing s with
  | name id =>
    refine Once.bind_quiet rfl fun _ _ => ?_
    exact once_of_evaluated (evaluated_evalName x id _)
  | other l => cases hc
  | subscript v i ih =>
    by_cases hv : v.isName=true
    · cases v with
      | name id =>
        refine Once.bind_quiet rfl fun _ _ => ?_
        exact once_evalSubscriptOfName x h
      | _ => cases hv
    · have hv' : v.isName=false := by simpa using hv
      rw [evalSubscript_eq x hv']
      refine Once.bind_quiet rfl fun _ _ => ?_
      exact Once.bind (ih hc ((readOnce_subscript x hv' i s).mp h)) fun obj _ => once_index x i obj _
  | slice v lower upper step ih =>
    refine Once.bind_quiet rfl fun _ _ => ?_
    exact Once.bind (ih hc h) fun obj _ => once_bounds x lower upper step obj _
  | attr v a ih =>
    refine Once.bind_quiet rfl fun _ _ => ?_
    refine Once.bind_quiet rfl fun _ _ => ?_
    show Once v.indices ((evalPlace x v>>=_) s)
    cases evalPlace_placed x v s with
    | found p out ev =>
      rw [←List.append_nil v.indices]
      refine Once.bind (once_of_evaluated ev) fun o ho => ?_
      obtain rfl : some p=o := Except.ok.inj (out.symm.trans ho)
      refine once_after_place x (fun _ _ => rfl) fun hq => ?_
      obtain hi | ⟨p',obj,hp,hobj⟩ | ⟨hn,_⟩ := h
      · rw [←hi]
        exact ih hc (readOnce_of_no_indices x (show v.isChain=true from hc) hi _)
      · obtain rfl : p=p' := Option.some.inj (Except.ok.inj (out.symm.trans hp))
        cases hq.symm.trans hobj
      · cases out.symm.trans hn
    | refused out ev st =>
      refine Once.bind_quiet ev fun o ho => ?_
      obtain rfl : none=o := Except.ok.inj (out.symm.trans ho)
      refine once_after_place x (fun obj hq => by cases hq) fun _ => ?_
      show Once v.indices (evalExpr x v (evalPlace x v s).state)
      rw [st]
      obtain hi | ⟨p',obj,hp,_⟩ | ⟨_,hv⟩ := h
      · exact ih hc (readOnce_of_no_indices x (show v.isChain=true from hc) hi _)
      · cases out.symm.trans hp
      · exact ih hc hv
    | failed e out ev =>
      refine (once_of_error (by rw [Eval.bind_of_error out])).mpr ?_
      rw [evaluated_bind_of_error out]
      exact ev

/-- A read that completes evaluates every index at least once. -/
theorem indices_le_evaluated {e : Expr L} (hc : e.isChain=true) {r : Val K}
    (h : (evalExpr x e s).out=.ok r) : e.indices.length ≤ (evalExpr x e s).evaluated.length := by
  induction e generalizing s r with
  | name id => simp [Expr.indices]
  | other l => cases hc
  | subscript v i ih =>
    by_cases hv : v.isName=true
    · cases v with
      | name id =>
        have h1 : (evalSubscriptOfName x id i s).out=.ok r := h
        show _ ≤ (evalSubscriptOfName x id i s).evaluated.length
        by_cases hb : x.sliceIsStatic i id=true → borrows x id i s=true
        · rw [(once_of_ok h1).mp (once_evalSubscriptOfName x hb)]
          simp [Expr.indices]
        · push Not at hb
          rw [evalSubscriptOfName_twice x hb.1 (by simpa using hb.2) h1]
          simp [Expr.indices]
      | _ => cases hv
    · rw [evalSubscript_eq x (by simpa using hv)] at h ⊢
      obtain ⟨_,_,h1,e1⟩ := bind_completed h
      obtain ⟨obj,hobj,h2,e2⟩ := bind_completed h1
      rw [e1,e2,(once_of_ok h2).mp (once_index x i obj _)]
      have := ih hc hobj
      simp only [Expr.indices,List.length_append]
      omega
  | slice v lower upper step ih =>
    obtain ⟨_,_,h1,e1⟩ := bind_completed h
    obtain ⟨obj,hobj,h2,e2⟩ := bind_completed h1
    have hev : (evalExpr x (.slice v lower upper step) s).evaluated=_ :=
      e1.trans (congrArg _ e2)
    rw [hev,(once_of_ok h2).mp (once_bounds x lower upper step obj _)]
    have := ih hc hobj
    simp only [Expr.indices,List.length_append]
    omega
  | attr v a ih =>
    obtain ⟨_,hev⟩ | ⟨_,obj,hobj,hev⟩ | ⟨t,obj,hobj,hev⟩ := evalAttr_completed x h
    · rw [hev]; exact Nat.le_refl _
    · rw [hev]; exact ih hc hobj
    · rw [hev]
      simp [Expr.indices]

/-- A read that completed and evaluated each index once met the condition. -/
theorem readOnce_of_evaluated {e : Expr L} (hc : e.isChain=true) {r : Val K}
    (h : (evalExpr x e s).out=.ok r) (hev : (evalExpr x e s).evaluated=e.indices) :
    ReadOnce x e s := by
  induction e generalizing s r with
  | name id => trivial
  | other l => cases hc
  | subscript v i ih =>
    by_cases hv : v.isName=true
    · cases v with
      | name id =>
        have h1 : (evalSubscriptOfName x id i s).out=.ok r := h
        have hev1 : (evalSubscriptOfName x id i s).evaluated=[i] := hev
        intro hs
        by_contra hb
        have hb' : borrows x id i s=false := by simpa using hb
        rw [evalSubscriptOfName_twice x hs hb' h1] at hev1
        simp at hev1
      | _ => cases hv
    · have hv' : v.isName=false := by simpa using hv
      rw [evalSubscript_eq x hv'] at h hev
      obtain ⟨_,_,h1,e1⟩ := bind_completed h
      obtain ⟨obj,hobj,h2,e2⟩ := bind_completed h1
      rw [e1,e2,(once_of_ok h2).mp (once_index x i obj _)] at hev
      have hv1 : (evalExpr x v s).evaluated=v.indices := List.append_cancel_right hev
      exact (readOnce_subscript x hv' i s).mpr (ih hc hobj hv1)
  | slice v lower upper step ih =>
    obtain ⟨_,_,h1,e1⟩ := bind_completed h
    obtain ⟨obj,hobj,h2,e2⟩ := bind_completed h1
    have he : (evalExpr x (.slice v lower upper step) s).evaluated=_ :=
      e1.trans (congrArg _ e2)
    rw [he,(once_of_ok h2).mp (once_bounds x lower upper step obj _)] at hev
    exact ih hc hobj (List.append_cancel_right hev)
  | attr v a ih =>
    obtain ⟨hr,_⟩ | ⟨hn,obj,hobj,he⟩ | ⟨t,obj,hobj,he⟩ := evalAttr_completed x h
    · exact .inr (.inl hr)
    · exact .inr (.inr ⟨hn,ih hc hobj (he.symm.trans hev)⟩)
    · left
      have hnil : (evalExpr x v t).evaluated=[] := by
        have : v.indices++(evalExpr x v t).evaluated=v.indices := he.symm.trans hev
        simpa using this
      have := indices_le_evaluated x (show v.isChain=true from hc) hobj
      rw [hnil] at this
      exact List.eq_nil_of_length_eq_zero (Nat.le_zero.mp this)

end Read

end Traces

end InterpretThis.Attribute
