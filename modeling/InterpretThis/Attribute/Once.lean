import InterpretThis.Attribute.Read

namespace InterpretThis.Attribute

section Traces

variable {K L α β : Type} {s : InterpreterState K} (x : Externals K L)

section AugAssign

@[simp] theorem evaluated_applyMemDelta (delta : Int) (s : InterpreterState K) :
    (applyMemDelta x delta s).evaluated=[] := by
  unfold applyMemDelta
  split <;> rfl

theorem once_combine (op : String) (current : Val K) (rhs : L) (s : InterpreterState K) :
    Once [rhs] (combine x op current rhs s) := by
  show Once ([rhs]++[]) _
  exact Once.bind (once_of_evaluated rfl) fun r _ => once_of_evaluated rfl

theorem once_combine_bind (op : String) (current : Val K) (rhs : L) (f : Val K → Store K)
    (s : InterpreterState K) :
    Once [rhs] ((combine x op current rhs>>=fun v => pure (f v) : Eval K L (Store K)) s) := by
  rw [←List.append_nil [rhs]]
  exact Once.bind (once_combine x op current rhs s) fun v _ => once_of_evaluated rfl

variable {s : InterpreterState K}

theorem evalPlace_subscript {v : Expr L} {i : L} {p : Place K}
    (h : (evalPlace x (.subscript v i) s).out=.ok (some p)) :
    ∃p0 key, (evalPlace x v s).out=.ok (some p0) ∧ p=p0.push (stepOf key) := by
  obtain ⟨o,ho,h1,_⟩ := bind_completed h
  cases o with
  | none => cases h1
  | some p0 =>
    obtain ⟨key,_,h2,_⟩ := bind_completed h1
    exact ⟨p0,key,ho,(Option.some.inj (Except.ok.inj h2)).symm⟩

theorem evalPlace_slice {v : Expr L} {lower upper step : Option L} {p : Place K}
    (h : (evalPlace x (.slice v lower upper step) s).out=.ok (some p)) :
    ∃p0 lo up st, (evalPlace x v s).out=.ok (some p0) ∧ p=p0.push (.slice lo up st) := by
  obtain ⟨o,ho,h1,_⟩ := bind_completed h
  cases o with
  | none => cases h1
  | some p0 =>
    obtain ⟨lo,_,h2,_⟩ := bind_completed h1
    obtain ⟨up,_,h3,_⟩ := bind_completed h2
    obtain ⟨st,_,h4,_⟩ := bind_completed h3
    exact ⟨p0,lo,up,st,ho,(Option.some.inj (Except.ok.inj h4)).symm⟩

/-- Without an evaluation the state stays as it was. -/
def Silent (m : Eval K L α) : Prop := ∀s, (m s).evaluated=[] → (m s).state=s

theorem Silent.bind {m : Eval K L α} {f : α → Eval K L β} (hm : Silent m) (hf : ∀a, Silent (f a)) :
    Silent (m>>=f) := by
  intro s h
  cases ho : (m s).out with
  | error e =>
    rw [evaluated_bind_of_error ho] at h
    rw [Eval.bind_of_error ho]
    exact hm s h
  | ok a =>
    rw [evaluated_bind_of_ok ho,List.append_eq_nil_iff] at h
    rw [Eval.bind_of_ok ho]
    exact (hf a _ h.2).trans (hm s h.1)

theorem silent_leaf_bind (l : L) (f : Val K → Eval K L α) : Silent (leaf x l>>=f) := by
  intro s h
  cases ho : (leaf x l s).out with
  | error e => rw [evaluated_bind_of_error ho] at h; cases h
  | ok v => rw [evaluated_bind_of_ok ho] at h; cases h

theorem silent_leafOpt (l : Option L) : Silent (leafOpt x l) := by
  cases l with
  | none => exact fun s _ => rfl
  | some l => exact silent_leaf_bind x l _

theorem silent_pure (a : α) : Silent (pure a : Eval K L α) := fun _ _ => rfl

theorem silent_evalPlace (e : Expr L) : Silent (evalPlace x e) := by
  induction e with
  | name id => exact silent_pure _
  | other l => exact silent_pure _
  | subscript v i ih =>
    refine ih.bind fun o => ?_
    cases o with
    | none => exact silent_pure _
    | some p => exact silent_leaf_bind x i _
  | slice v lower upper step ih =>
    refine ih.bind fun o => ?_
    cases o with
    | none => exact silent_pure _
    | some p =>
      refine (silent_leafOpt x lower).bind fun lo => ?_
      refine (silent_leafOpt x upper).bind fun up => ?_
      exact (silent_leafOpt x step).bind fun st => silent_pure _
  | attr v a ih =>
    refine Silent.bind (fun _ _ => rfl) fun _ => ?_
    refine Silent.bind (fun _ _ => rfl) fun s => ?_
    split
    · exact silent_pure _
    · refine ih.bind fun o => ?_
      cases o with
      | none => exact silent_pure _
      | some p => exact silent_pure _

/-- The places that an augmented assignment goes on with. -/
def Assignable (p : Place K) : Prop :=
  match p.lastSlice with
  | some _ => p.parent.isNavigable=true
  | none => p.isNavigable=true

theorem navigable_of_push {p : Place K} {st : PlaceStep K} (h : (p.push st).isNavigable=true) :
    p.isNavigable=true := by
  simp only [Place.push,Place.isNavigable,List.all_append,Bool.and_eq_true] at h
  exact h.1

theorem Assignable.base {p : Place K} {st : PlaceStep K} (h : Assignable (p.push st)) :
    p.isNavigable=true := by
  unfold Assignable at h
  cases hl : (p.push st).lastSlice with
  | none => exact navigable_of_push (by rw [hl] at h; exact h)
  | some spec =>
    rw [hl] at h
    simpa [Place.push,Place.parent] using h

variable [DecidableEq K]

theorem evaluated_commit (st : Store K) (s : InterpreterState K) : (commit x st s).evaluated=[] := by
  have hwrite : ∀(f : Val K → InterpreterState K → Except EvalError Int×Val K×InterpreterState K)
      (root : String) (steps : List (PlaceStep K)),
      ((navigateRoot x f root steps>>=applyMemDelta x) s).evaluated=[] := by
    intro f root steps
    cases h : (navigateRoot x f root steps s).out with
    | ok delta => rw [evaluated_bind_of_ok h]; simp
    | error e => rw [evaluated_bind_of_error h]; simp
  cases st with
  | classAttr c attr v => rfl
  | functionAttr key attr v => rfl
  | slot p oldSize v => exact hwrite _ _ _
  | slice root steps spec v => exact hwrite _ _ _

theorem silent_pretouch (depth : Nat) (e : Expr L) : Silent (pretouchDefaultdict x depth e) := by
  induction e generalizing depth with
  | name id => exact silent_pure _
  | other l => exact silent_pure _
  | attr v a ih => exact silent_pure _
  | slice v lower upper step ih =>
    unfold pretouchDefaultdict
    split
    · exact silent_pure _
    · exact ih _
  | subscript v i ih =>
    unfold pretouchDefaultdict
    split
    · exact silent_pure _
    · refine (ih _).bind fun _ => ?_
      refine (silent_evalPlace x v).bind fun o => ?_
      cases o with
      | none => exact silent_pure _
      | some p =>
        simp only
        split
        · exact silent_pure _
        · exact silent_leaf_bind x i _

theorem pretouch_subscript_silent {depth : Nat} {v : Expr L} {i : L} (hd : depth ≤ 16)
    (h : (pretouchDefaultdict x depth (.subscript v i) s).out=.ok ())
    (he : (pretouchDefaultdict x depth (.subscript v i) s).evaluated=[]) {p : Place K}
    (hp : (evalPlace x v s).out=.ok (some p)) : p.isNavigable=false := by
  unfold pretouchDefaultdict at h he
  rw [if_neg (by omega)] at h he
  obtain ⟨_,_,h1,e1⟩ := bind_completed h
  rw [e1,List.append_eq_nil_iff] at he
  have hs : (pretouchDefaultdict x (depth+1) v s).state=s := silent_pretouch x _ v s he.1
  rw [hs] at h1 he
  obtain ⟨o,ho,h2,e2⟩ := bind_completed h1
  obtain rfl : some p=o := Except.ok.inj (hp.symm.trans ho)
  by_contra hn
  have hn' : p.isNavigable=true := by simpa using hn
  rw [e2] at he
  simp only [hn',Bool.not_true,Bool.false_eq_true,if_false,List.append_eq_nil_iff] at he h2
  obtain ⟨index,_,_,e3⟩ := bind_completed h2
  rw [e3] at he
  cases he.2.2

theorem once_resolveEnd (op : String) (p : Place K) (rhs : L) (s : InterpreterState K) :
    Once [rhs] (resolveEnd x op p rhs s) := by
  have hthrow : ∀m, Once [rhs] (Eval.throw .runtime m s : Run K L (Store K)) := fun m =>
    (once_of_error rfl).mpr List.nil_prefix
  unfold resolveEnd
  cases p.lastSlice with
  | some spec =>
    simp only [resolveSlice]
    split
    · exact hthrow _
    · refine Once.bind_quiet (evaluated_navigateRoot x _ _ _ s) fun parent _ => ?_
      refine Once.bind_quiet rfl fun t _ => ?_
      refine Once.bind_quiet rfl fun current _ => ?_
      exact once_combine_bind x op current rhs _ _
  | none =>
    simp only [resolveSlot]
    split
    · exact hthrow _
    · refine Once.bind_quiet (evaluated_navigateRoot x _ _ _ s) fun current _ => ?_
      exact once_combine_bind x op current rhs _ _

theorem assignable_of_resolveEnd {op : String} {p : Place K} {rhs : L} {st : Store K}
    (h : (resolveEnd x op p rhs s).out=.ok st) : Assignable p := by
  unfold resolveEnd at h
  unfold Assignable
  cases hl : p.lastSlice with
  | some spec =>
    simp only [hl,resolveSlice] at h
    split at h
    · cases h
    · rename_i hn
      simpa using hn
  | none =>
    simp only [hl,resolveSlot] at h
    split at h
    · cases h
    · rename_i hn
      simpa using hn

theorem resolvePlace_completed {op : String} {t : Expr L} {rhs : L} {st : Store K}
    (h : (resolvePlace x op t rhs s).out=.ok st) :
    (pretouchDefaultdict x 0 t s).out=.ok () ∧
    (∃p, (evalPlace x t (pretouchDefaultdict x 0 t s).state).out=.ok (some p) ∧ Assignable p) ∧
    (resolvePlace x op t rhs s).evaluated=
      (pretouchDefaultdict x 0 t s).evaluated++(t.indices++[rhs]) := by
  obtain ⟨_,hpre,h1,e1⟩ := bind_completed h
  obtain ⟨o,ho,h2,e2⟩ := bind_completed h1
  cases o with
  | none => cases h2
  | some p =>
    have hev : (evalPlace x t (pretouchDefaultdict x 0 t s).state).evaluated=t.indices := by
      cases evalPlace_placed x t (pretouchDefaultdict x 0 t s).state with
      | found p' out ev => exact ev
      | refused out _ _ => cases out.symm.trans ho
      | failed e out _ => cases out.symm.trans ho
    refine ⟨hpre,⟨p,ho,assignable_of_resolveEnd x h2⟩,?_⟩
    have hall : (resolvePlace x op t rhs s).evaluated=_ := e1.trans (congrArg _ e2)
    rw [hall,hev,(once_of_ok h2).mp (once_resolveEnd x op p rhs _)]

variable {s : InterpreterState K}

/-- A pre-touch evaluates nothing of a target that goes through, exactly where the target does not
end in a subscript of a subscript and not in an index. -/
theorem pretouch_evaluated {op : String} {t : Expr L} {rhs : L} {st : Store K}
    (h : (resolvePlace x op t rhs s).out=.ok st) :
    (pretouchDefaultdict x 0 t s).evaluated=[] ↔ match t with
      | .subscript .. => False
      | .slice v _ _ _ => v.isSubscript=false
      | _ => True := by
  obtain ⟨hpre,⟨p,hp,ha⟩,_⟩ := resolvePlace_completed x h
  cases t with
  | name id => exact ⟨fun _ => trivial,fun _ => rfl⟩
  | attr v a => exact ⟨fun _ => trivial,fun _ => rfl⟩
  | other l => exact ⟨fun _ => trivial,fun _ => rfl⟩
  | subscript v i =>
    refine ⟨fun he => ?_,False.elim⟩
    rw [silent_pretouch x 0 _ s he] at hp
    obtain ⟨p0,key,hp0,rfl⟩ := evalPlace_subscript x hp
    have := pretouch_subscript_silent x (Nat.zero_le _) hpre he hp0
    rw [ha.base] at this
    cases this
  | slice v lower upper step =>
    obtain ⟨p0,lo,up,sp,hp0,rfl⟩ := evalPlace_slice x hp
    have hbase := ha.base
    refine ⟨fun he => ?_,fun hv => ?_⟩
    · rw [silent_pretouch x 0 _ s he] at hp0
      cases v with
      | subscript v' i' =>
        obtain ⟨p1,key,hp1,rfl⟩ := evalPlace_subscript x hp0
        have := pretouch_subscript_silent x (show 1 ≤ 16 by omega) hpre he hp1
        rw [navigable_of_push hbase] at this
        cases this
      | slice v' _ _ _ =>
        obtain ⟨p1,lo',up',sp',hp1,rfl⟩ := evalPlace_slice x hp0
        simp [Place.push,Place.isNavigable] at hbase
      | _ => rfl
    · cases v with
      | subscript v' i' => cases hv
      | slice v' _ _ _ => cases hv
      | _ => rfl

/-- The class registry holds the attribute of the class that the receiver evaluates to. -/
def ClassHit (v : Expr L) (attr : String) (s : InterpreterState K) : Prop :=
  ∃base, (baseClass x v s).out=.ok base ∧ (classEntry (baseClass x v s).state base attr).isSome=true

/-- The condition under which an augmented assignment evaluates each index of its target once: the
target has none, it is a slice of a name or of an attribute, or it is found in the class registry
and the receiver is read once. -/
def AugOnce : Expr L → InterpreterState K → Prop
  | .name _,_ => True
  | .other _,_ => True
  | .subscript ..,_ => False
  | .slice v _ _ _,_ => v.isSubscript=false
  | .attr v attr,s => v.indices=[] ∨ ClassHit x v attr s ∧ ReadOnce x v s

theorem baseClass_eq {v : Expr L} (hv : v.isName=false) : baseClass x v=(do
    let obj ← evalExpr x v
    pure obj.className) := by
  cases v with
  | name id => cases hv
  | _ => rfl

theorem evaluated_baseClass_name (id : String) (s : InterpreterState K) :
    (baseClass x (.name id) s).evaluated=[] := rfl

theorem once_baseClass {v : Expr L} (hc : v.isChain=true) (h : ReadOnce x v s) :
    Once v.indices (baseClass x v s) := by
  by_cases hv : v.isName=true
  · cases v with
    | name id => exact once_of_evaluated (evaluated_baseClass_name x id s)
    | _ => cases hv
  · rw [baseClass_eq x (by simpa using hv),←List.append_nil v.indices]
    exact Once.bind (once_evalExpr x hc h) fun r _ => once_of_evaluated rfl

theorem baseClass_completed {v : Expr L} (hv : v.isName=false) {o : Option String}
    (h : (baseClass x v s).out=.ok o) :
    ∃r, (evalExpr x v s).out=.ok r ∧ (baseClass x v s).evaluated=(evalExpr x v s).evaluated := by
  rw [baseClass_eq x hv] at h ⊢
  obtain ⟨r,hr,_,e1⟩ := bind_completed h
  exact ⟨r,hr,e1.trans (List.append_nil _)⟩

/-- What an augmented assignment of an attribute evaluated, where it completed. -/
theorem resolveAttr_completed {op : String} {v : Expr L} {a : String} {rhs : L} {st : Store K}
    (h : (resolveAugAssign x op (.attr v a) rhs s).out=.ok st) :
    (∃base, (baseClass x v s).out=.ok base) ∧
    (ClassHit x v a s ∧ (resolveAugAssign x op (.attr v a) rhs s).evaluated=
        (baseClass x v s).evaluated++[rhs] ∨
      ¬ClassHit x v a s ∧ (resolveAugAssign x op (.attr v a) rhs s).evaluated=
        (baseClass x v s).evaluated++(v.indices++[rhs])) := by
  obtain ⟨base,hb,h1,e1⟩ := bind_completed h
  obtain ⟨t,ht,h2,e2⟩ := bind_completed h1
  obtain rfl : (baseClass x v s).state=t := Except.ok.inj ht
  have hall : (resolveAugAssign x op (.attr v a) rhs s).evaluated=_ := e1.trans (congrArg _ e2)
  refine ⟨⟨base,hb⟩,?_⟩
  rw [hall]
  cases hce : classEntry (baseClass x v s).state base a with
  | some entry =>
    left
    simp only [hce] at h2 ⊢
    refine ⟨⟨base,hb,by rw [hce]; rfl⟩,?_⟩
    rw [(once_of_ok h2).mp (once_combine_bind x op _ rhs _ _)]
    rfl
  | none =>
    right
    simp only [hce] at h2 ⊢
    refine ⟨?_,?_⟩
    · rintro ⟨base',hb',hsome⟩
      obtain rfl : base=base' := Except.ok.inj (hb.symm.trans hb')
      rw [hce] at hsome
      cases hsome
    · cases hf : functionEntry (baseClass x v s).state v a with
      | some entry =>
        simp only [hf] at h2 ⊢
        have hname : v.indices=[] := by
          cases v with
          | name id => rfl
          | _ => cases hf
        rw [(once_of_ok h2).mp (once_combine_bind x op _ rhs _ _),hname]
        rfl
      | none =>
        simp only [hf] at h2 ⊢
        obtain ⟨_,_,he⟩ := resolvePlace_completed x h2
        rw [he]
        rfl

/-- An augmented assignment that completes evaluates each index of its target once, and then the
right-hand side, exactly under the condition. -/
theorem resolveAugAssign_evaluated_iff {op : String} {t : Expr L} {rhs : L} {st : Store K}
    (hc : t.isChain=true) (h : (resolveAugAssign x op t rhs s).out=.ok st) :
    (resolveAugAssign x op t rhs s).evaluated=t.indices++[rhs] ↔ AugOnce x t s := by
  have hplace : (resolvePlace x op t rhs s).out=.ok st →
      ((resolvePlace x op t rhs s).evaluated=t.indices++[rhs] ↔
        (pretouchDefaultdict x 0 t s).evaluated=[]) := by
    intro h'
    rw [(resolvePlace_completed x h').2.2]
    exact List.append_left_eq_self
  cases t with
  | name id => exact (hplace h).trans (pretouch_evaluated x h)
  | other l => exact (hplace h).trans (pretouch_evaluated x h)
  | subscript v i => exact (hplace h).trans (pretouch_evaluated x h)
  | slice v lower upper step => exact (hplace h).trans (pretouch_evaluated x h)
  | attr v a =>
    obtain ⟨⟨base,hb⟩,⟨hhit,he⟩ | ⟨hmiss,he⟩⟩ := resolveAttr_completed x h
    · rw [he]
      constructor
      · intro hev
        have hev' : (baseClass x v s).evaluated=v.indices := List.append_cancel_right hev
        by_cases hv : v.isName=true
        · cases v with
          | name id => exact .inl rfl
          | _ => cases hv
        · obtain ⟨r,hr,her⟩ := baseClass_completed x (by simpa using hv) hb
          exact .inr ⟨hhit,readOnce_of_evaluated x (show v.isChain=true from hc) hr (her.symm.trans hev')⟩
      · intro hcond
        have hread : ReadOnce x v s := by
          obtain hi | ⟨_,hr⟩ := hcond
          · exact readOnce_of_no_indices x (show v.isChain=true from hc) hi s
          · exact hr
        rw [(once_of_ok hb).mp (once_baseClass x (show v.isChain=true from hc) hread)]
        rfl
    · rw [he]
      constructor
      · intro hev
        left
        have hnil : (baseClass x v s).evaluated=[] := List.append_left_eq_self.mp hev
        by_cases hv : v.isName=true
        · cases v with
          | name id => rfl
          | _ => cases hv
        · obtain ⟨r,hr,her⟩ := baseClass_completed x (by simpa using hv) hb
          have := indices_le_evaluated x (show v.isChain=true from hc) hr
          rw [←her,hnil] at this
          exact List.eq_nil_of_length_eq_zero (Nat.le_zero.mp this)
      · intro hcond
        obtain hi | ⟨hhit,_⟩ := hcond
        · have hread := readOnce_of_no_indices x (show v.isChain=true from hc) hi s
          have := (once_of_ok hb).mp (once_baseClass x (show v.isChain=true from hc) hread)
          rw [this,hi]
          exact congrArg (·++[rhs]) hi.symm
        · exact absurd hhit hmiss

theorem once_resolvePlace {op : String} {t : Expr L} {rhs : L}
    (h : pretouchDefaultdict x 0 t=pure ()) :
    Once (t.indices++[rhs]) (resolvePlace x op t rhs s) := by
  unfold resolvePlace
  rw [h]
  refine Once.bind_quiet rfl fun _ _ => ?_
  show Once (t.indices++[rhs]) ((evalPlace x t>>=_) s)
  cases evalPlace_placed x t s with
  | found p out ev =>
    refine Once.bind (once_of_evaluated ev) fun o ho => ?_
    obtain rfl : some p=o := Except.ok.inj (out.symm.trans ho)
    exact once_resolveEnd x op p rhs _
  | refused out ev st =>
    refine Once.bind_quiet ev fun o ho => ?_
    obtain rfl : none=o := Except.ok.inj (out.symm.trans ho)
    exact (once_of_error rfl).mpr List.nil_prefix
  | failed e out ev =>
    refine (once_of_error (by rw [Eval.bind_of_error out])).mpr ?_
    rw [evaluated_bind_of_error out]
    exact ev.trans (List.prefix_append _ _)

/-- Under the condition nothing is evaluated twice, also where the statement fails. -/
theorem once_resolveAugAssign {op : String} {t : Expr L} {rhs : L} (hc : t.isChain=true)
    (h : AugOnce x t s) : Once (t.indices++[rhs]) (resolveAugAssign x op t rhs s) := by
  cases t with
  | name id => exact once_resolvePlace x rfl
  | other l => cases hc
  | subscript v i => exact h.elim
  | slice v lower upper step =>
    refine once_resolvePlace x ?_
    cases v with
    | subscript v' i' => cases h
    | slice v' _ _ _ => cases h
    | _ => rfl
  | attr v a =>
    have hread : ReadOnce x v s := by
      obtain hi | ⟨_,hr⟩ := h
      · exact readOnce_of_no_indices x (show v.isChain=true from hc) hi s
      · exact hr
    refine Once.bind (once_baseClass x (show v.isChain=true from hc) hread) fun base hb => ?_
    refine Once.bind_quiet rfl fun t ht => ?_
    obtain rfl : (baseClass x v s).state=t := Except.ok.inj ht
    cases hce : classEntry (baseClass x v s).state base a with
    | some entry => exact once_combine_bind x op _ rhs _ _
    | none =>
      cases hf : functionEntry (baseClass x v s).state v a with
      | some entry => exact once_combine_bind x op _ rhs _ _
      | none =>
        obtain hi | ⟨⟨base',hb',hsome⟩,_⟩ := h
        · have hrest : Once ((Expr.attr v a).indices++[rhs])
              (resolvePlace x op (.attr v a) rhs (baseClass x v s).state) := once_resolvePlace x rfl
          rw [show (Expr.attr v a).indices=[] from hi] at hrest
          exact hrest
        · obtain rfl : base=base' := Except.ok.inj (hb.symm.trans hb')
          rw [hce] at hsome
          cases hsome

end AugAssign

section Receivers

/-- A step that evaluates no receiver. -/
def Direct (m : Eval K L α) : Prop := ∀s, (m s).receivers=[]

variable {m : Eval K L α} {f : α → Eval K L β}

theorem receivers_bind_of_ok {a : α} (h : (m s).out=.ok a) :
    ((m>>=f) s).receivers=(m s).receivers++(f a (m s).state).receivers := by
  rw [Eval.bind_of_ok h]
  exact List.filterMap_append

theorem receivers_bind_of_error {e : EvalError} (h : (m s).out=.error e) :
    ((m>>=f) s).receivers=(m s).receivers := by
  rw [Eval.bind_of_error h]
  rfl

theorem Direct.bind (hm : Direct m) (hf : ∀a, Direct (f a)) : Direct (m>>=f) := by
  intro s
  cases h : (m s).out with
  | ok a => rw [receivers_bind_of_ok h,hm s,hf a]; rfl
  | error e => rw [receivers_bind_of_error h,hm s]

/-- The receivers that a run evaluated come from the outermost inwards, each once. -/
def Inward (bound : Expr L) (r : Run K L α) : Prop :=
  r.receivers.Pairwise (fun outer inner => inner.depth<outer.depth) ∧
    ∀e ∈ r.receivers, e.depth ≤ bound.depth

theorem Inward.nodup {bound : Expr L} {r : Run K L α} (h : Inward bound r) : r.receivers.Nodup := by
  refine h.1.imp fun hlt heq => ?_
  rw [heq] at hlt
  exact Nat.lt_irrefl _ hlt

theorem Direct.inward (h : Direct m) (bound : Expr L) (s : InterpreterState K) :
    Inward bound (m s) := by
  simp [Inward,h s]

theorem Inward.bind {bound : Expr L} (hm : Inward bound (m s)) (hf : ∀a, Direct (f a)) :
    Inward bound ((m>>=f) s) := by
  cases h : (m s).out with
  | ok a =>
    unfold Inward
    rw [receivers_bind_of_ok h,hf a,List.append_nil]
    exact hm
  | error e =>
    unfold Inward
    rw [receivers_bind_of_error h]
    exact hm

theorem Direct.bind_inward {bound : Expr L} (hm : Direct m) (hf : ∀a t, Inward bound (f a t))
    (s : InterpreterState K) : Inward bound ((m>>=f) s) := by
  cases h : (m s).out with
  | ok a =>
    unfold Inward
    rw [receivers_bind_of_ok h,hm s]
    exact hf a _
  | error e =>
    unfold Inward
    rw [receivers_bind_of_error h,hm s]
    simp

theorem inward_note {e bound : Expr L} (hd : bound.depth<e.depth) (h : Inward bound (m s)) :
    Inward e ((Eval.note (.receiver e)>>=fun _ => m) s) := by
  have hr : ((Eval.note (.receiver e)>>=fun _ => m) s).receivers=e::(m s).receivers := by
    rw [receivers_bind_of_ok rfl]
    rfl
  unfold Inward
  rw [hr]
  refine ⟨List.pairwise_cons.mpr ⟨fun e' he' => ?_,h.1⟩,fun e' he' => ?_⟩
  · exact Nat.lt_of_le_of_lt (h.2 e' he') hd
  · obtain rfl | he' := List.mem_cons.mp he'
    · exact Nat.le_refl _
    · exact Nat.le_of_lt (Nat.lt_of_le_of_lt (h.2 e' he') hd)

theorem inward_note_direct {e : Expr L} (h : Direct m) :
    Inward e ((Eval.note (.receiver e)>>=fun _ => m) s) := by
  have hr : ((Eval.note (.receiver e)>>=fun _ => m) s).receivers=[e] := by
    rw [receivers_bind_of_ok rfl,h]
    rfl
  simp [Inward,hr]

theorem direct_leaf (l : L) : Direct (leaf x l) := fun _ => rfl

theorem direct_leafOpt (l : Option L) : Direct (leafOpt x l) := by
  cases l with
  | none => exact fun _ => rfl
  | some l => exact (direct_leaf x l).bind fun _ _ => rfl

theorem direct_evalPlace (e : Expr L) : Direct (evalPlace x e) := by
  induction e with
  | name id => exact fun _ => rfl
  | other l => exact fun _ => rfl
  | subscript v i ih =>
    refine ih.bind fun o => ?_
    cases o with
    | none => exact fun _ => rfl
    | some p => exact (direct_leaf x i).bind fun _ _ => rfl
  | slice v lower upper step ih =>
    refine ih.bind fun o => ?_
    cases o with
    | none => exact fun _ => rfl
    | some p =>
      refine (direct_leafOpt x lower).bind fun lo => ?_
      refine (direct_leafOpt x upper).bind fun up => ?_
      exact (direct_leafOpt x step).bind fun st _ => rfl
  | attr v a ih =>
    refine Direct.bind (fun _ => rfl) fun _ => ?_
    refine Direct.bind (fun _ => rfl) fun s => ?_
    split
    · exact fun _ => rfl
    · refine ih.bind fun o => ?_
      cases o with
      | none => exact fun _ => rfl
      | some p => exact fun _ => rfl

theorem direct_bounds (lower upper step : Option L) (obj : Val K) : Direct (do
    let lo ← leafOpt x lower
    let up ← leafOpt x upper
    let st ← leafOpt x step
    Eval.lift (x.applySlice obj lo up st) : Eval K L (Val K)) := by
  refine (direct_leafOpt x lower).bind fun lo => ?_
  refine (direct_leafOpt x upper).bind fun up => ?_
  exact (direct_leafOpt x step).bind fun st _ => rfl

theorem direct_index (i : L) (name : Option String) (obj : Val K) : Direct (do
    let index ← leaf x i
    Eval.lift (x.getitem name obj index) : Eval K L (Val K)) :=
  (direct_leaf x i).bind fun _ _ => rfl

theorem direct_evalName (id : String) : Direct (evalName x id) := by
  intro s
  unfold evalName
  split <;> rfl

theorem evalSubscriptOfName_inward (id : String) (i : L) (s : InterpreterState K) :
    Inward (.name id) (evalSubscriptOfName x id i s) := by
  have hslow : ∀t, Inward (.name id) (evalSubscriptOfName.slow x id i t) := fun t =>
    inward_note_direct ((direct_evalName x id).bind fun obj => direct_index x i (some id) obj)
  unfold evalSubscriptOfName
  split
  · refine (direct_leaf x i).bind_inward (fun index t => ?_) s
    refine Direct.bind_inward (fun _ => rfl) (fun u t => ?_) t
    cases borrowed id index u with
    | some c => exact Direct.inward (fun _ => rfl) _ _
    | none => exact hslow t
  · exact hslow s

variable [DecidableEq K]

theorem direct_peek (p : Option (Place K)) : Direct (peek x p) := by
  intro s
  unfold peek
  split
  · rfl
  · split
    · rfl
    · split <;> rfl

/-- Reading a chain evaluates each of its receivers at most once. -/
theorem evalExpr_inward (e : Expr L) (s : InterpreterState K) : Inward e (evalExpr x e s) := by
  induction e generalizing s with
  | name id => exact inward_note_direct (direct_evalName x id)
  | other l => exact (direct_leaf x l).inward _ s
  | subscript v i ih =>
    by_cases hv : v.isName=true
    · cases v with
      | name id =>
        refine inward_note ?_ (evalSubscriptOfName_inward x id i s)
        exact Nat.lt_succ_self 0
      | _ => cases hv
    · rw [evalSubscript_eq x (by simpa using hv)]
      refine inward_note (Nat.lt_succ_self v.depth) ?_
      exact (ih s).bind fun obj => direct_index x i none obj
  | slice v lower upper step ih =>
    refine inward_note (Nat.lt_succ_self v.depth) ?_
    exact (ih s).bind fun obj => direct_bounds x lower upper step obj
  | attr v a ih =>
    refine inward_note (Nat.lt_succ_self v.depth) ?_
    refine Direct.bind_inward (fun _ => rfl) (fun _ t => ?_) s
    refine (direct_evalPlace x v).bind_inward (fun o t => ?_) t
    refine (direct_peek x o).bind_inward (fun q t => ?_) t
    cases q with
    | some obj => exact Direct.inward (fun _ => rfl) _ _
    | none => exact (ih t).bind fun obj _ => rfl

theorem direct_navigateRoot
    (f : Val K → InterpreterState K → Except EvalError α×Val K×InterpreterState K) (root : String)
    (steps : List (PlaceStep K)) : Direct (navigateRoot x f root steps) := by
  intro s
  unfold navigateRoot
  split <;> rfl

omit [DecidableEq K] in
theorem direct_applyMemDelta (delta : Int) : Direct (applyMemDelta x delta) := by
  intro s
  unfold applyMemDelta
  split <;> rfl

theorem direct_pretouch (depth : Nat) (e : Expr L) : Direct (pretouchDefaultdict x depth e) := by
  induction e generalizing depth with
  | name id => exact fun _ => rfl
  | other l => exact fun _ => rfl
  | attr v a ih => exact fun _ => rfl
  | slice v lower upper step ih =>
    unfold pretouchDefaultdict
    split
    · exact fun _ => rfl
    · exact ih _
  | subscript v i ih =>
    unfold pretouchDefaultdict
    split
    · exact fun _ => rfl
    · refine (ih _).bind fun _ => ?_
      refine (direct_evalPlace x v).bind fun o => ?_
      cases o with
      | none => exact fun _ => rfl
      | some p =>
        simp only
        split
        · exact fun _ => rfl
        · refine (direct_leaf x i).bind fun index => ?_
          refine Direct.bind (fun _ => rfl) fun key => ?_
          refine (direct_navigateRoot x _ _ _).bind fun factory => ?_
          cases factory with
          | none => exact fun _ => rfl
          | some factory =>
            refine Direct.bind (fun _ => rfl) fun synth => ?_
            exact (direct_navigateRoot x _ _ _).bind fun delta => direct_applyMemDelta x delta

omit [DecidableEq K] in
theorem direct_combine (op : String) (current : Val K) (rhs : L) (f : Val K → Store K) :
    Direct (combine x op current rhs>>=fun v => pure (f v) : Eval K L (Store K)) :=
  Direct.bind ((direct_leaf x rhs).bind fun _ _ => rfl) fun _ _ => rfl

theorem direct_resolvePlace (op : String) (t : Expr L) (rhs : L) :
    Direct (resolvePlace x op t rhs) := by
  refine (direct_pretouch x 0 t).bind fun _ => ?_
  refine (direct_evalPlace x t).bind fun o => ?_
  cases o with
  | none => exact fun _ => rfl
  | some p =>
    simp only [resolveEnd]
    cases p.lastSlice with
    | some spec =>
      simp only [resolveSlice]
      split
      · exact fun _ => rfl
      · refine (direct_navigateRoot x _ _ _).bind fun parent => ?_
        refine Direct.bind (fun _ => rfl) fun s => ?_
        exact Direct.bind (fun _ => rfl) fun current => direct_combine x op current rhs _
    | none =>
      simp only [resolveSlot]
      split
      · exact fun _ => rfl
      · exact (direct_navigateRoot x _ _ _).bind fun current => direct_combine x op current rhs _

theorem direct_commit (st : Store K) : Direct (commit x st) := by
  cases st with
  | classAttr c attr v => exact fun _ => rfl
  | functionAttr key attr v => exact fun _ => rfl
  | slot p oldSize v =>
    exact (direct_navigateRoot x _ _ _).bind fun delta => direct_applyMemDelta x delta
  | slice root steps spec v =>
    exact (direct_navigateRoot x _ _ _).bind fun delta => direct_applyMemDelta x delta

theorem baseClass_inward (v : Expr L) (s : InterpreterState K) : Inward v (baseClass x v s) := by
  by_cases hv : v.isName=true
  · cases v with
    | name id => exact Direct.inward (fun _ => rfl) _ s
    | _ => cases hv
  · rw [baseClass_eq x (by simpa using hv)]
    exact (evalExpr_inward x v s).bind fun obj _ => rfl

/-- An augmented assignment evaluates each receiver of its target at most once. -/
theorem evalAugAssign_inward (op : String) (t : Expr L) (rhs : L) (s : InterpreterState K) :
    Inward t (evalAugAssign x op t rhs s) := by
  have hresolve : Inward t (resolveAugAssign x op t rhs s) := by
    cases t with
    | attr v a =>
      have hbase := baseClass_inward x v s
      have hrest : Inward v (resolveAugAssign x op (.attr v a) rhs s) := by
        refine hbase.bind fun base => ?_
        refine Direct.bind (fun _ => rfl) fun t => ?_
        cases classEntry t base a with
        | some entry => exact direct_combine x op _ rhs _
        | none =>
          cases functionEntry t v a with
          | some entry => exact direct_combine x op _ rhs _
          | none => exact direct_resolvePlace x op _ rhs
      exact ⟨hrest.1,fun e he => Nat.le_succ_of_le (hrest.2 e he)⟩
    | name id => exact (direct_resolvePlace x op _ rhs).inward _ s
    | other l => exact (direct_resolvePlace x op _ rhs).inward _ s
    | subscript v i => exact (direct_resolvePlace x op _ rhs).inward _ s
    | slice v lower upper step => exact (direct_resolvePlace x op _ rhs).inward _ s
  exact hresolve.bind fun st => direct_commit x st

end Receivers

end Traces

section Result

variable {K L α : Type}

/-- The evaluations of a run are exactly the wanted ones under a condition: no receiver is evaluated
twice, under the condition no wanted sub-expression is either, and a completed run that evaluated
each once met the condition. -/
structure OnceExactly (want : List L) (condition : Prop) (r : Run K L α) : Prop where
  receivers : r.receivers.Nodup
  enough : condition → Once want r
  needed : ∀a, r.out=.ok a → Once want r → condition

variable [DecidableEq K]

theorem evalAugAssign_once (x : Externals K L) (op : String) {t : Expr L} (rhs : L)
    (s : InterpreterState K) (hc : t.isChain=true) :
    OnceExactly (t.indices++[rhs]) (AugOnce x t s) (evalAugAssign x op t rhs s) := by
  refine ⟨(evalAugAssign_inward x op t rhs s).nodup,fun h => ?_,fun a ha h => ?_⟩
  · rw [←List.append_nil (t.indices++[rhs])]
    exact Once.bind (once_resolveAugAssign x hc h) fun st _ =>
      once_of_evaluated (evaluated_commit x st _)
  · have hev := (once_of_ok ha).mp h
    obtain ⟨st,hst,_,e⟩ := bind_completed ha
    have he : (evalAugAssign x op t rhs s).evaluated=_ := e
    rw [he,evaluated_commit,List.append_nil] at hev
    exact (resolveAugAssign_evaluated_iff x hc hst).mp hev

/-- The index sub-expressions of an augmented assignment's target and of an attribute read are
evaluated exactly once, in source order and before the right-hand side, exactly when the pre-touch,
the class probe and the fallback of a failed navigation do not evaluate them again. -/
theorem target_evaluated_once (x : Externals K L) (op : String) (t v : Expr L) (attr : String)
    (rhs : L) (s : InterpreterState K) (ht : t.isChain=true) (hv : v.isChain=true) :
    OnceExactly (t.indices++[rhs]) (AugOnce x t s) (evalAugAssign x op t rhs s) ∧
    OnceExactly v.indices (ReadOnce x (.attr v attr) s) (evalExpr x (.attr v attr) s) := by
  refine ⟨evalAugAssign_once x op rhs s ht,?_⟩
  refine ⟨(evalExpr_inward x _ s).nodup,fun h => ?_,fun a ha h => ?_⟩
  · exact once_evalExpr x (show (Expr.attr v attr).isChain=true from hv) h
  · exact readOnce_of_evaluated x (show (Expr.attr v attr).isChain=true from hv) ha ((once_of_ok ha).mp h)

/-- An interpreter whose sub-expressions are integer literals. -/
def literals : Externals Int Int where
  valueToKey
    | .int i => .ok i
    | _ => .error ⟨.typeError,"unhashable type"⟩
  keyRepr i := toString i
  keySize _ := 0
  valueSize _ := 0
  maxMemoryBytes := 1
  evalLeaf i s := (.ok (.int i),s)
  evalGlobal id := .error ⟨.nameError,s!"name '{id}' is not defined"⟩
  sliceIsStatic _ _ := false
  getitem _ _ _ s := (.ok .none,s)
  getSlice v _ _ _ _ := .ok v
  applySlice v _ _ _ s := (.ok v,s)
  setSlice _ _ _ s := (.ok 0,s)
  getattr _ _ s := (.ok .none,s)
  augBinop _ _ r s := (.ok r,s)
  invokeFactory _ s := (.ok .none,s)
  callMethod _ self _ s := (.ok (.none,self),s)
  iterate _ s := (.ok [],s)
  sharedList _ s := (.list 0,s)

/-- `xs = [10]`. -/
def oneList : InterpreterState Int where
  vars := Function.update (fun _ => none) "xs" (some (.list 0))
  classes _ := none
  functionAttrs _ _ := none
  instances _ := ⟨"",fun _ => none⟩
  lists _ := [.int 10]
  dicts _ _ := none
  memoryUsedBytes := 0
  decimalPrec := 28

/-- `xs[0:1] += 5` and the read of `xs[0].real`. -/
theorem target_evaluated_once_slice :
    OnceExactly ([0,1]++[5]) (AugOnce literals (.slice (.name "xs") (some 0) (some 1) none) oneList)
      (evalAugAssign literals "+=" (.slice (.name "xs") (some 0) (some 1) none) 5 oneList) ∧
    OnceExactly [0] (ReadOnce literals (.attr (.subscript (.name "xs") 0) "real") oneList)
      (evalExpr literals (.attr (.subscript (.name "xs") 0) "real") oneList) :=
  target_evaluated_once literals "+=" (.slice (.name "xs") (some 0) (some 1) none)
    (.subscript (.name "xs") 0) "real" 5 oneList rfl rfl

/-- `xs[0] += 5` evaluates its index once for the pre-touch and once for the place. -/
theorem index_evaluated_twice :
    (evalAugAssign literals "+=" (.subscript (.name "xs") 0) 5 oneList).out=.ok () ∧
    (evalAugAssign literals "+=" (.subscript (.name "xs") 0) 5 oneList).evaluated=[0,0,5] ∧
    ¬Once ([0]++[5]) (evalAugAssign literals "+=" (.subscript (.name "xs") 0) 5 oneList) := by
  have hout : (evalAugAssign literals "+=" (.subscript (.name "xs") 0) 5 oneList).out=.ok () := rfl
  have hev : (evalAugAssign literals "+=" (.subscript (.name "xs") 0) 5 oneList).evaluated=[0,0,5] :=
    rfl
  refine ⟨hout,hev,?_⟩
  rw [once_of_ok hout,hev]
  simp

end Result

end InterpretThis.Attribute
