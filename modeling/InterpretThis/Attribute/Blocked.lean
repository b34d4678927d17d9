import InterpretThis.Attribute.Receiver

namespace InterpretThis.Attribute

variable {K L : Type} [DecidableEq K] (x : Externals K L)

/-- The run ends in an error, and the attribute maps are those of the state it is measured from. -/
structure Refused {α : Type} (base : InterpreterState K) (r : Run K L α) : Prop where
  error : ∃e, r.out=.error e
  maps : r.state.maps=base.maps

/-- The state in which the receiver of an attribute target has been evaluated. -/
def receiverState : Expr L → InterpreterState K → InterpreterState K
  | .name _,s => s
  | r,s => (evalExpr x r s).state

/-- The stores that an instance held by a bare name lets through: those that its class intercepts. -/
def InstanceRefuses (name : String) (i : Nat) (attr : String) (v : Val K)
    (s : InterpreterState K) : Prop :=
  isFrozen s (s.instances i).className=true ∨
  slotAllowed s (s.instances i).className attr=false ∨
  ∀hook, findHook s (s.instances i).className attr=some hook →
    Refused s (runHook x name (.userInstance i) (s.instances i).className attr v hook s)

/-- The same as far as no method of the program decides it: the class keeps the store out, or only a
property without a setter takes it. -/
def SettledByClass (i : Nat) (attr : String) (s : InterpreterState K) : Prop :=
  isFrozen s (s.instances i).className=true ∨
  slotAllowed s (s.instances i).className attr=false ∨
  ∀hook, findHook s (s.instances i).className attr=some hook → hook=.property none

omit [DecidableEq K] in
theorem SettledByClass.refuses {i : Nat} {attr : String} {s : InterpreterState K}
    (h : SettledByClass i attr s) (name : String) (v : Val K) : InstanceRefuses x name i attr v s := by
  rcases h with frozen | slots | plain
  · exact .inl frozen
  · exact .inr (.inl slots)
  · refine .inr (.inr fun hook found => ?_)
    rw [plain hook found]
    exact ⟨⟨_,rfl⟩,rfl⟩

/-- The receivers on which a store to a blocked name is refused. -/
def Refuses (receiver : Expr L) (attr : String) (v : Val K) (s : InterpreterState K) : Prop :=
  match receiver with
  | .name name => match s.vars name with
    | some (.userInstance i) => InstanceRefuses x name i attr v s
    | some (.cls c) => s.classes c=none
    | some (.function _) => False
    | _ => True
  | r => ∀i, (evalExpr x r s).out=.ok (.userInstance i) →
      isFrozen (evalExpr x r s).state ((evalExpr x r s).state.instances i).className=true

section Leaf

variable {attr : String} (hb : attr ∈ blockedAttributes)

include hb

theorem deleteAttribute_refused (r : Expr L) (s : InterpreterState K) :
    Refused s (deleteAttribute x r attr s) := by
  obtain ⟨e,he⟩ := validateAttribute_error_of_mem hb
  simp only [deleteAttribute,he,Eval.check_error_bind]
  exact ⟨⟨e,rfl⟩,rfl⟩

theorem assignThroughPlace_refused (name : String) (v : Val K) (s : InterpreterState K) :
    Refused s (assignThroughPlace x name attr v s) := by
  obtain ⟨e,he,hm⟩ := assignThroughPlace_blocked x name v s hb
  exact ⟨⟨e,he⟩,hm⟩

theorem assignInstance_refused_iff (name : String) (i : Nat) (v : Val K) (s : InterpreterState K) :
    Refused s (assignInstance x name i attr v s) ↔ InstanceRefuses x name i attr v s := by
  cases hf : isFrozen s (s.instances i).className with
  | true =>
    rw [assignInstance_frozen x hf]
    exact ⟨fun _ => .inl hf,fun _ => ⟨⟨_,rfl⟩,rfl⟩⟩
  | false =>
    cases hs : slotAllowed s (s.instances i).className attr with
    | false =>
      have heq : assignInstance x name i attr v s=⟨.error ⟨.attributeError,
          s!"'{(s.instances i).className}' object has no attribute '{attr}'"⟩,s,[]⟩ := by
        simp [assignInstance,hf,hs]
      rw [heq]
      exact ⟨fun _ => .inr (.inl hs),fun _ => ⟨⟨_,rfl⟩,rfl⟩⟩
    | true =>
      rw [assignInstance_unfrozen x name v hf hs]
      cases hh : findHook s (s.instances i).className attr with
      | none =>
        refine ⟨fun _ => .inr (.inr fun hook h => ?_),
          fun _ => assignThroughPlace_refused x hb name v s⟩
        rw [hh] at h
        cases h
      | some hook =>
        constructor
        · intro h
          refine .inr (.inr fun hook' h' => ?_)
          rw [hh] at h'
          cases h'
          exact h
        · intro h
          obtain h | h | h := h
          · rw [hf] at h
            cases h
          · rw [hs] at h
            cases h
          · exact h hook hh

omit hb [DecidableEq K] in
theorem not_refused_of_ok {α : Type} {base : InterpreterState K} {r : Run K L α} {a : α}
    (h : r.out=.ok a) : ¬Refused base r := by
  intro hr
  obtain ⟨e,he⟩ := hr.error
  rw [h] at he
  cases he

theorem assignNamed_refused_iff (name : String) (v : Val K) (s : InterpreterState K) :
    Refused s (assignNamed x name attr v s) ↔ Refuses x (.name name) attr v s := by
  obtain ⟨e,he⟩ := validateAttribute_error_of_mem hb
  have hplace := assignThroughPlace_refused x hb name v s
  simp only [Refuses]
  cases hv : s.vars name with
  | none => simp [assignNamed,hv,hplace]
  | some c =>
    cases c with
    | userInstance i =>
      rw [assignNamed_instance x hv]
      exact assignInstance_refused_iff x hb name i v s
    | cls c =>
      cases hc : s.classes c with
      | none => simp [assignNamed,hv,hc,hplace]
      | some cls =>
        have hok : (assignNamed x name attr v s).out=.ok () := by simp [assignNamed,hv,hc]
        simp [not_refused_of_ok hok,hc]
    | function key =>
      have hok : (assignNamed x name attr v s).out=.ok () := by simp [assignNamed,hv]
      simp [not_refused_of_ok hok]
    | exception typeName fields =>
      have heq : assignNamed x name attr v s=⟨.error e,s,[]⟩ := by
        simp [assignNamed,hv,he]
      rw [heq]
      exact ⟨fun _ => trivial,fun _ => ⟨⟨_,rfl⟩,rfl⟩⟩
    | _ => simp [assignNamed,hv,hplace]

omit hb

omit [DecidableEq K] in
theorem assignComputed_refused_iff (attr : String) (obj v : Val K) (s : InterpreterState K) :
    Refused s (assignComputed obj attr v s : Run K L Unit) ↔
      ∀i, obj=.userInstance i → isFrozen s (s.instances i).className=true := by
  cases obj with
  | userInstance i =>
    cases hf : isFrozen s (s.instances i).className with
    | true =>
      rw [assignComputed_frozen hf]
      refine ⟨fun _ j hj => ?_,fun _ => ⟨⟨_,rfl⟩,rfl⟩⟩
      cases hj
      exact hf
    | false =>
      obtain ⟨t,ht,-⟩ := (assignComputed_stored hf : ∃t : InterpreterState K,
        (assignComputed (.userInstance i) attr v s : Run K L Unit)=⟨.ok (),t,[]⟩ ∧ _)
      have hno : ¬Refused s (assignComputed (.userInstance i) attr v s : Run K L Unit) :=
        not_refused_of_ok (congrArg Run.out ht)
      refine ⟨fun h => absurd h hno,fun h => ?_⟩
      have := h i rfl
      rw [hf] at this
      cases this
  | _ => exact ⟨fun _ _ hi => (nomatch hi),fun _ => ⟨⟨_,rfl⟩,rfl⟩⟩

/-- A store to a blocked name is refused on exactly the receivers of `Refuses`. -/
theorem assignAttribute_refused_iff (hb : attr ∈ blockedAttributes) (r : Expr L) (v : Val K)
    (s : InterpreterState K) :
    Refused (receiverState x r s) (assignAttribute x r attr v s) ↔ Refuses x r attr v s := by
  by_cases hr : r.isName=true
  · cases r with
    | name name => exact assignNamed_refused_iff x hb name v s
    | _ => cases hr
  · have heq : assignAttribute x r attr v s=
        (evalExpr x r>>=fun obj => assignComputed obj attr v) s := by
      cases r with
      | name id => exact absurd rfl hr
      | _ => rfl
    have hst : receiverState x r s=(evalExpr x r s).state := by
      cases r with
      | name id => exact absurd rfl hr
      | _ => rfl
    have hcond : Refuses x r attr v s ↔ ∀i, (evalExpr x r s).out=.ok (.userInstance i) →
        isFrozen (evalExpr x r s).state ((evalExpr x r s).state.instances i).className=true := by
      cases r with
      | name id => exact absurd rfl hr
      | _ => rfl
    rw [heq,hst,hcond]
    cases ho : (evalExpr x r s).out with
    | error e =>
      rw [Eval.bind_of_error ho]
      exact ⟨fun _ _ hi => (nomatch hi),fun _ => ⟨⟨e,rfl⟩,rfl⟩⟩
    | ok obj =>
      rw [Eval.bind_of_ok ho]
      have := assignComputed_refused_iff (L := L) attr obj v (evalExpr x r s).state
      constructor
      · intro h i hi
        cases hi
        exact this.mp ⟨h.error,h.maps⟩ i rfl
      · intro h
        have hr := this.mpr fun i hi => h i (congrArg _ hi)
        exact ⟨hr.error,hr.maps⟩

end Leaf

/-- An attribute store that an assignment comes to, with the state in which it starts. -/
structure Attempt (K L : Type) where
  receiver : Expr L
  attr : String
  value : Val K
  state : InterpreterState K

section Patterns

variable (store : L → Val K → Eval K L Unit)

mutual

/-- The attribute stores of an assignment to a target, in order, up to the first failure. -/
def attempts : Target L → Val K → InterpreterState K → List (Attempt K L)
  | .attr r attr,v,s => [⟨r,attr,v,s⟩]
  | .other _,_,_ => []
  | .unpack elts,v,s =>
    match (x.iterate v s).1 with
    | .error _ => []
    | .ok items =>
      if items.length=elts.length then attemptsEach elts items (x.iterate v s).2 else []
  | .unpackStar head star tail,v,s =>
    match (x.iterate v s).1 with
    | .error _ => []
    | .ok items =>
      if items.length<head.length+tail.length then []
      else
        let first := assignEach x store head items (x.iterate v s).2
        let rest := x.sharedList
          ((items.drop head.length).take (items.length-head.length-tail.length)) first.state
        let middle := assignTarget x store star rest.1 rest.2
        attemptsEach head items (x.iterate v s).2++
          (if first.out=.ok () then attempts star rest.1 rest.2++
            (if middle.out=.ok () then
              attemptsEach tail (items.drop (items.length-tail.length)) middle.state else []) else [])

def attemptsEach : List (Target L) → List (Val K) → InterpreterState K → List (Attempt K L)
  | t::ts,v::vs,s => attempts t v s++
      (if (assignTarget x store t v s).out=.ok () then
        attemptsEach ts vs (assignTarget x store t v s).state else [])
  | _,_,_ => []

end

/-- The run ends as the failed store does. -/
structure EndsWith (a : Attempt K L) (r : Run K L Unit) : Prop where
  out : r.out=(assignAttribute x a.receiver a.attr a.value a.state).out
  state : r.state=(assignAttribute x a.receiver a.attr a.value a.state).state

variable {x}

theorem EndsWith.bind {a : Attempt K L} {m : Eval K L Unit} {f : Unit → Eval K L Unit}
    {s : InterpreterState K} {e : EvalError} (h : EndsWith x a (m s))
    (he : (assignAttribute x a.receiver a.attr a.value a.state).out=.error e) :
    EndsWith x a ((m>>=f) s) := by
  have ho : (m s).out=.error e := h.out.trans he
  rw [Eval.bind_of_error ho]
  exact ⟨he.symm,h.state⟩

omit [DecidableEq K] in
theorem out_bind_ok {α β : Type} {m : Eval K L α} {f : α → Eval K L β} {s : InterpreterState K}
    {v : α} (h : (m s).out=.ok v) : ((m>>=f) s).out=(f v (m s).state).out ∧
      ((m>>=f) s).state=(f v (m s).state).state := by
  rw [Eval.bind_of_ok h]
  exact ⟨rfl,rfl⟩

theorem EndsWith.after {α : Type} {a : Attempt K L} {m : Eval K L α} {f : α → Eval K L Unit}
    {s : InterpreterState K} {v : α} (ho : (m s).out=.ok v)
    (h : EndsWith x a (f v (m s).state)) : EndsWith x a ((m>>=f) s) := by
  obtain ⟨hout,hstate⟩ := out_bind_ok (f := f) ho
  exact ⟨hout.trans h.out,hstate.trans h.state⟩

variable (x)

mutual

/-- A store that fails ends the assignment it belongs to. -/
theorem attempts_end : ∀(t : Target L) (v : Val K) (s : InterpreterState K) {a : Attempt K L}
    {e : EvalError}, a ∈ attempts x store t v s →
    (assignAttribute x a.receiver a.attr a.value a.state).out=.error e →
    EndsWith x a (assignTarget x store t v s)
  | .attr r attr,v,s,a,e,ha,he => by
    simp only [attempts,List.mem_singleton] at ha
    subst ha
    exact ⟨rfl,rfl⟩
  | .other l,v,s,a,e,ha,he => by
    simp only [attempts,List.not_mem_nil] at ha
  | .unpack elts,v,s,a,e,ha,he => by
    simp only [attempts] at ha
    cases hi : (x.iterate v s).1 with
    | error _ =>
      rw [hi] at ha
      cases ha
    | ok items =>
      simp only [hi] at ha
      split at ha
      · rename_i hlen
        rw [assignTarget]
        refine .after (m := Eval.lift (x.iterate v)) hi ?_
        rw [if_neg (by omega),if_neg (by omega)]
        exact attemptsEach_end elts items _ ha he
      · cases ha
  | .unpackStar head star tail,v,s,a,e,ha,he => by
    simp only [attempts] at ha
    cases hi : (x.iterate v s).1 with
    | error _ =>
      rw [hi] at ha
      cases ha
    | ok items =>
      simp only [hi] at ha
      split at ha
      · cases ha
      · rename_i hlen
        rw [assignTarget]
        refine .after (m := Eval.lift (x.iterate v)) hi ?_
        rw [if_neg hlen]
        obtain ha | ha := List.mem_append.mp ha
        · exact .bind (attemptsEach_end head items _ ha he) he
        · split at ha
          · rename_i hfirst
            refine .after hfirst ?_
            refine .after (m := newList x _) rfl ?_
            obtain ha | ha := List.mem_append.mp ha
            · exact .bind (attempts_end star _ _ ha he) he
            · split at ha
              · rename_i hmiddle
                exact .after hmiddle (attemptsEach_end tail _ _ ha he)
              · cases ha
          · cases ha

theorem attemptsEach_end : ∀(ts : List (Target L)) (vs : List (Val K)) (s : InterpreterState K)
    {a : Attempt K L} {e : EvalError}, a ∈ attemptsEach x store ts vs s →
    (assignAttribute x a.receiver a.attr a.value a.state).out=.error e →
    EndsWith x a (assignEach x store ts vs s)
  | [],vs,s,a,e,ha,he => by
    simp only [attemptsEach,List.not_mem_nil] at ha
  | t::ts,[],s,a,e,ha,he => by
    simp only [attemptsEach,List.not_mem_nil] at ha
  | t::ts,v::vs,s,a,e,ha,he => by
    simp only [attemptsEach] at ha
    rw [assignEach]
    obtain ha | ha := List.mem_append.mp ha
    · exact .bind (attempts_end t v s ha he) he
    · split at ha
      · rename_i hfirst
        exact .after hfirst (attemptsEach_end ts vs _ ha he)
      · cases ha

end

end Patterns

/-- What an augmented assignment finds under the name lets no value through: the right-hand side or
the operation fails. -/
def CombineFails (op : String) (current : Val K) (rhs : L) (s : InterpreterState K) : Prop :=
  ∀new, (combine x op current rhs s).out≠.ok new

/-- The place of the target holds no value that can be written. -/
def SlotRefuses (op : String) (p : Place K) (rhs : L) (s : InterpreterState K) : Prop :=
  ∀current, (navigateRoot x readSlot p.root p.steps s : Run K L (Val K)).out=.ok current →
    let t := (navigateRoot x readSlot p.root p.steps s : Run K L (Val K)).state
    ∀new, (combine x op current rhs t).out=.ok new →
      Refused (combine x op current rhs t).state
        (commit x (.slot p (x.valueSize current) new) (combine x op current rhs t).state)

/-- The targets on which an augmented assignment to a blocked name is refused: neither the class
registry nor the function attributes hold the name, and it is not a stored `__class__`. -/
def AugRefuses (op : String) (receiver : Expr L) (attr : String) (rhs : L)
    (s : InterpreterState K) : Prop :=
  ∀base, (baseClass x receiver s).out=.ok base →
    let t := (baseClass x receiver s).state
    match classEntry t base attr with
    | some (_,current) => CombineFails x op current rhs t
    | none => match functionEntry t receiver attr with
      | some (_,current) => CombineFails x op current rhs t
      | none => isObjectAttr attr=true → ∀p, (evalPlace x (.attr receiver attr) t).out=.ok (some p) →
          p.isNavigable=true → SlotRefuses x op p rhs (evalPlace x (.attr receiver attr) t).state

/-- Whatever store is resolved, it is refused. -/
def Stops (m : Eval K L (Store K)) (s : InterpreterState K) : Prop :=
  ∀store, (m s).out=.ok store → Refused (m s).state (commit x store (m s).state)

section Augmented

theorem stops_bind {α : Type} (m : Eval K L α) (f : α → Eval K L (Store K))
    (s : InterpreterState K) :
    Stops x (m>>=f) s ↔ ∀a, (m s).out=.ok a → Stops x (f a) (m s).state := by
  constructor
  · intro h a ha store hst
    have := h store
    rw [Eval.bind_of_ok ha] at this
    exact this hst
  · intro h store hst
    cases ha : (m s).out with
    | error e =>
      rw [Eval.bind_of_error ha] at hst
      cases hst
    | ok a =>
      rw [Eval.bind_of_ok ha] at hst ⊢
      exact h a ha store hst

theorem stops_pure (store : Store K) (s : InterpreterState K) :
    Stops x (pure store : Eval K L (Store K)) s ↔ Refused s (commit x store s) := by
  constructor
  · intro h
    exact h store rfl
  · intro h store' hst
    cases hst
    exact h

theorem stops_error {m : Eval K L (Store K)} {s : InterpreterState K} {e : EvalError}
    (h : (m s).out=.error e) : Stops x m s := by
  intro store hst
  rw [h] at hst
  cases hst

theorem stops_combine {op : String} {current : Val K} {rhs : L} {s : InterpreterState K}
    (f : Val K → Store K) (h : ∀v t, (commit x (f v) t : Run K L Unit).out=.ok ()) :
    Stops x (do let new ← combine x op current rhs; pure (f new)) s ↔
      CombineFails x op current rhs s := by
  rw [stops_bind]
  constructor
  · intro hs new hnew
    exact not_refused_of_ok (h _ _) ((stops_pure x _ _).mp (hs new hnew))
  · intro hs new hnew
    exact absurd hnew (hs new)

theorem stops_resolveSlot (op : String) (p : Place K) (rhs : L) (s : InterpreterState K) :
    Stops x (resolveSlot x op p rhs) s ↔ (p.isNavigable=true → SlotRefuses x op p rhs s) := by
  unfold resolveSlot
  cases hn : p.isNavigable with
  | false => exact ⟨fun _ h => (nomatch h),fun _ => stops_error x rfl⟩
  | true =>
    rw [if_neg (by simp),stops_bind]
    simp only [true_implies,stops_bind,stops_pure]
    rfl

omit [DecidableEq K] in
theorem evalPlace_attr_some {v : Expr L} {attr : String} {s : InterpreterState K} {p : Place K}
    (h : (evalPlace x (.attr v attr) s).out=.ok (some p)) : ∃p0 : Place K, p=p0.push (.attr attr) := by
  rw [evalPlace] at h
  cases hr : (if isObjectAttr attr then .ok () else validateAttribute attr : Except EvalError Unit) with
  | error e =>
    simp only [validateRead,hr,Eval.check_error_bind] at h
    cases h
  | ok u =>
    simp only [validateRead,hr,Eval.check_ok_bind,Eval.get_bind] at h
    split at h
    · cases h
    · cases hp : (evalPlace x v s).out with
      | error e =>
        rw [Eval.bind_of_error hp] at h
        cases h
      | ok q =>
        rw [Eval.bind_of_ok hp] at h
        cases q with
        | none => cases h
        | some p0 =>
          cases h
          exact ⟨p0,rfl⟩

theorem stops_resolvePlace {attr : String} (hb : attr ∈ blockedAttributes) (op : String) (v : Expr L)
    (rhs : L) (s : InterpreterState K) :
    Stops x (resolvePlace x op (.attr v attr) rhs) s ↔ (isObjectAttr attr=true →
      ∀p, (evalPlace x (.attr v attr) s).out=.ok (some p) → p.isNavigable=true →
        SlotRefuses x op p rhs (evalPlace x (.attr v attr) s).state) := by
  have hpre : pretouchDefaultdict x 0 (.attr v attr)=pure () := by simp [pretouchDefaultdict]
  unfold resolvePlace
  rw [hpre,stops_bind]
  simp only [Eval.pure_apply,stops_bind]
  constructor
  · intro h _ p hp hn
    have hs := h () trivial (some p) hp
    obtain ⟨p0,rfl⟩ := evalPlace_attr_some x hp
    simp only [resolveEnd,Place.lastSlice,Place.push,List.getLast?_concat] at hs
    exact (stops_resolveSlot x op _ rhs _).mp hs hn
  · intro h _ _ q hq
    cases q with
    | none => exact stops_error x rfl
    | some p =>
      obtain ⟨p0,rfl⟩ := evalPlace_attr_some x hq
      simp only [resolveEnd,Place.lastSlice,Place.push,List.getLast?_concat]
      refine (stops_resolveSlot x op _ rhs _).mpr (h ?_ _ hq)
      -- every other blocked name fails before its place is resolved
      by_contra ho
      obtain ⟨e,he⟩ := validateAttribute_error_of_mem hb
      rw [evalPlace] at hq
      simp only [validateRead,ho,he] at hq
      cases hq

/-- An augmented assignment to a blocked name is refused on exactly the targets of `AugRefuses`. -/
theorem evalAugAssign_refused_iff {attr : String} (hb : attr ∈ blockedAttributes) (op : String)
    (r : Expr L) (rhs : L) (s : InterpreterState K) :
    Refused (resolveAugAssign x op (.attr r attr) rhs s).state
      (evalAugAssign x op (.attr r attr) rhs s) ↔ AugRefuses x op r attr rhs s := by
  have hstops : Refused (resolveAugAssign x op (.attr r attr) rhs s).state
      (evalAugAssign x op (.attr r attr) rhs s) ↔
      Stops x (resolveAugAssign x op (.attr r attr) rhs) s := by
    unfold evalAugAssign Stops
    cases ho : (resolveAugAssign x op (.attr r attr) rhs s).out with
    | error e =>
      rw [Eval.bind_of_error ho]
      exact ⟨fun _ _ h => (nomatch h),fun _ => ⟨⟨e,rfl⟩,rfl⟩⟩
    | ok store =>
      rw [Eval.bind_of_ok ho]
      constructor
      · intro h store' hst
        cases hst
        exact ⟨h.error,h.maps⟩
      · intro h
        have := h store rfl
        exact ⟨this.error,this.maps⟩
  rw [hstops,resolveAugAssign,stops_bind]
  unfold AugRefuses
  refine forall_congr' fun base => forall_congr' fun hbase => ?_
  show Stops x _ (baseClass x r s).state ↔ _
  rw [stops_bind]
  simp only [Eval.get_apply,Except.ok.injEq,forall_eq']
  cases hc : classEntry (baseClass x r s).state base attr with
  | some entry =>
    exact stops_combine x (.classAttr entry.1 attr) fun _ _ => rfl
  | none =>
    simp only
    cases hf : functionEntry (baseClass x r s).state r attr with
    | some entry => exact stops_combine x (.functionAttr entry.1 attr) fun _ _ => rfl
    | none => exact stops_resolvePlace x hb op r rhs _

end Augmented

/-- A name that the validator rejects is never deleted. A store to it is refused on exactly the
receivers of `Refuses`, wherever in a pattern it stands, and an augmented assignment on exactly the
targets of `AugRefuses`. -/
theorem blocked_refused_iff (attr : String) (hb : attr ∈ blockedAttributes) :
    (∀(r : Expr L) (s : InterpreterState K), Refused s (deleteAttribute x r attr s)) ∧
    (∀(store : L → Val K → Eval K L Unit) (t : Target L) (v : Val K) (s : InterpreterState K)
      (a : Attempt K L), a ∈ attempts x store t v s → a.attr=attr →
      (Refused (receiverState x a.receiver a.state)
        (assignAttribute x a.receiver attr a.value a.state) ↔
          Refuses x a.receiver attr a.value a.state) ∧
      (Refuses x a.receiver attr a.value a.state →
        Refused (receiverState x a.receiver a.state) (assignTarget x store t v s))) ∧
    ∀(op : String) (r : Expr L) (rhs : L) (s : InterpreterState K),
      Refused (resolveAugAssign x op (.attr r attr) rhs s).state
        (evalAugAssign x op (.attr r attr) rhs s) ↔ AugRefuses x op r attr rhs s := by
  refine ⟨deleteAttribute_refused x hb,?_,evalAugAssign_refused_iff x hb⟩
  intro store t v s a ha hattr
  subst hattr
  have hiff := assignAttribute_refused_iff x hb a.receiver a.value a.state
  refine ⟨hiff,fun h => ?_⟩
  have hr := hiff.mpr h
  obtain ⟨e,he⟩ := hr.error
  have hend := attempts_end x store t v s ha he
  exact ⟨⟨e,hend.out.trans he⟩,(congrArg InterpreterState.maps hend.state).trans hr.maps⟩

/-- `o.__dict__ = 1` on an instance of a plain class. -/
theorem blocked_refused_dict :
    Refused (spelledTwice plainClass) (assignTarget holder (fun _ _ => pure ())
      (.attr (.name "o") "__dict__") (.int 1) (spelledTwice plainClass)) := by
  obtain ⟨-,hassign,-⟩ := blocked_refused_iff holder "__dict__" (by decide)
  obtain ⟨-,hrefused⟩ := hassign (fun _ _ => pure ()) (.attr (.name "o") "__dict__") (.int 1)
    (spelledTwice plainClass) ⟨.name "o","__dict__",.int 1,spelledTwice plainClass⟩
    (by simp [attempts]) rfl
  have plain : SettledByClass 0 "__dict__" (spelledTwice plainClass) :=
    .inr (.inr fun hook h => (nomatch h))
  exact hrefused (plain.refuses holder "o" (.int 1))

/-- `C` holds a class of the registry. -/
def boundClass : InterpreterState Int :=
  (spelledTwice plainClass).setVar "C" (.cls "C")

/-- `C.__bases__ = 1` writes the class attribute that the validator rejects. -/
theorem blocked_class_written :
    "__bases__" ∈ blockedAttributes ∧
    (assignAttribute holder (.name "C") "__bases__" (.int 1) boundClass).out=.ok () ∧
    ((assignAttribute holder (.name "C") "__bases__" (.int 1) boundClass).state.classAttr "C"
      "__bases__")=some (.int 1) ∧
    ¬Refused boundClass (assignAttribute holder (.name "C") "__bases__" (.int 1) boundClass) :=
  ⟨by decide,rfl,rfl,not_refused_of_ok (a := ()) rfl⟩

end InterpretThis.Attribute
