import InterpretThis.Attribute.Once

namespace InterpretThis.Attribute

variable {K L : Type} [DecidableEq K] (x : Externals K L)

/-- Two stores have the same result, leave the same fields and call the same user methods. `before`
is what the evaluation of the first receiver left in the record. -/
structure SameOutcome (before : List (Event L)) (r r' : Run K L Unit) : Prop where
  out : r.out=r'.out
  fields : ∀j, (r.state.instances j).fields=(r'.state.instances j).fields
  calls : r.trace=before++r'.trace

/-- The growth of the instance stays within the memory limit. -/
def Fits (s : InterpreterState K) (i : Nat) (attr : String) (v : Val K) : Prop :=
  0 ≤ fieldDelta x s i attr v →
    min (s.memoryUsedBytes+(fieldDelta x s i attr v).toNat) usizeMax ≤ min x.maxMemoryBytes usizeMax

/-- The class has nothing to say about the store, or it is frozen. -/
def Uniform (s : InterpreterState K) (i : Nat) (attr : String) (v : Val K) : Prop :=
  isFrozen s (s.instances i).className=true ∨
    slotAllowed s (s.instances i).className attr=true ∧
      findHook s (s.instances i).className attr=none ∧
      attr ∉ blockedAttributes ∧ Fits x s i attr v

section Stores

variable {i : Nat} {attr : String} {v : Val K} {s : InterpreterState K}

omit [DecidableEq K] in
theorem syncPrec_instances (className attr : String) (v : Val K) (s : InterpreterState K) :
    (syncPrec className attr v s : Run K L Unit).state.instances=s.instances := by
  simp only [syncPrec,Eval.modify_apply]
  split
  · split
    · split <;> rfl
    · rfl
  · rfl

omit [DecidableEq K] in
theorem assignComputed_frozen (h : isFrozen s (s.instances i).className=true) :
    (assignComputed (.userInstance i) attr v s : Run K L Unit)=⟨.error (frozenError attr),s,[]⟩ := by
  simp [assignComputed,h]

omit [DecidableEq K] in
theorem assignComputed_stored (h : isFrozen s (s.instances i).className=false) :
    ∃t : InterpreterState K, (assignComputed (.userInstance i) attr v s : Run K L Unit)=⟨.ok (),t,[]⟩ ∧
      t.instances=(s.setField i attr v).instances := by
  refine ⟨(syncPrec (s.instances i).className attr v (s.setField i attr v) : Run K L Unit).state,?_,
    syncPrec_instances _ _ _ _⟩
  simp [assignComputed,h]
  rfl

variable {name : String}

theorem assignNamed_instance (hn : s.vars name=some (.userInstance i)) :
    assignNamed x name attr v s=assignInstance x name i attr v s := by
  simp [assignNamed,hn]

theorem assignInstance_frozen (h : isFrozen s (s.instances i).className=true) :
    assignInstance x name i attr v s=⟨.error (frozenError attr),s,[]⟩ := by
  simp [assignInstance,h]

theorem assignInstance_slots (name : String) (v : Val K)
    (h : isFrozen s (s.instances i).className=false)
    (hs : slotAllowed s (s.instances i).className attr=false) :
    ∃e, (assignInstance x name i attr v s).out=.error e := by
  simp [assignInstance,h,hs]

theorem assignInstance_unfrozen (name : String) (v : Val K)
    (h : isFrozen s (s.instances i).className=false)
    (hs : slotAllowed s (s.instances i).className attr=true) :
    assignInstance x name i attr v s=match findHook s (s.instances i).className attr with
      | some h => runHook x name (.userInstance i) (s.instances i).className attr v h s
      | none => assignThroughPlace x name attr v s := by
  simp only [assignInstance,Eval.get_bind,h,hs]
  cases findHook s (s.instances i).className attr <;> rfl

omit [DecidableEq K] in
theorem trace_callMethod_bind {β : Type} (method : String) (self : Val K) (args : List (Val K))
    (f : Val K×Val K → Eval K L β) (s : InterpreterState K) :
    ((callMethod x method self args>>=f) s).trace≠[] := by
  cases h : (callMethod x method self args s).out with
  | ok r => rw [Eval.bind_of_ok h]; simp [callMethod]
  | error e => rw [Eval.bind_of_error h]; simp [callMethod]

omit [DecidableEq K] in
theorem runHook_outcome (name attr : String) (v : Val K) (s : InterpreterState K) (hook : Hook)
    (className : String) (obj : Val K) :
    (∃e, (runHook x name obj className attr v hook s).out=.error e) ∨
    (runHook x name obj className attr v hook s).trace≠[] := by
  cases hook with
  | descriptor d m => exact .inr (trace_callMethod_bind x m _ _ _ s)
  | property setter =>
    cases setter with
    | none => exact .inl ⟨_,rfl⟩
    | some setter => exact .inr (trace_callMethod_bind x setter _ _ _ s)
  | setattr m => exact .inr (trace_callMethod_bind x m _ _ _ s)

omit [DecidableEq K] in
theorem evalPlace_attr_name : evalPlace x (.attr (.name name) attr) s=
    ⟨(if isObjectAttr attr then .ok () else validateAttribute attr).map fun _ =>
      if namesClass s (.name name : Expr L) then none else some ⟨name,[.attr attr]⟩,s,[]⟩ := by
  simp only [evalPlace,validateRead]
  cases h : (if isObjectAttr attr then .ok () else validateAttribute attr : Except EvalError Unit) with
  | error e => rfl
  | ok u =>
    by_cases hc : namesClass s (.name name : Expr L)=true
    · simp [hc]; rfl
    · simp [hc]; rfl

theorem navigateRoot_setAttr_blocked (name : String) (v : Val K) (s : InterpreterState K)
    (hb : attr ∈ blockedAttributes) :
    ∃e, (navigateRoot x (setAttr x attr v) name [] s : Run K L Int).out=.error e ∧
      (navigateRoot x (setAttr x attr v) name [] s : Run K L Int).state.maps=s.maps := by
  obtain ⟨e,he⟩ := validateAttribute_error_of_mem hb
  unfold navigateRoot
  cases hv : s.vars name with
  | none => exact ⟨_,rfl,rfl⟩
  | some c => exact ⟨e,by simp [navigate,setAttr,he],by simp [navigate,setAttr,he]; rfl⟩

/-- The place machinery refuses a blocked name, whatever the variable holds. -/
theorem assignThroughPlace_blocked (name : String) (v : Val K) (s : InterpreterState K)
    (hb : attr ∈ blockedAttributes) :
    ∃e, (assignThroughPlace x name attr v s).out=.error e ∧
      (assignThroughPlace x name attr v s).state.maps=s.maps := by
  have hst : (evalPlace x (.attr (.name name) attr) s).state=s := by rw [evalPlace_attr_name]
  unfold assignThroughPlace
  by_cases ho : isObjectAttr attr=true
  · by_cases hc : namesClass s (.name name : Expr L)=true
    · have hp : (evalPlace x (.attr (.name name) attr) s).out=.ok none := by
        rw [evalPlace_attr_name]; simp [ho,hc]; rfl
      rw [Eval.bind_of_ok hp,hst]
      exact ⟨_,rfl,rfl⟩
    · have hp : (evalPlace x (.attr (.name name) attr) s).out=.ok (some ⟨name,[.attr attr]⟩) := by
        rw [evalPlace_attr_name]; simp [ho,hc]; rfl
      obtain ⟨e,he,hm⟩ := navigateRoot_setAttr_blocked x name v s hb
      rw [Eval.bind_of_ok hp,hst]
      simp only [Place.parent,List.dropLast_singleton]
      rw [Eval.bind_of_error he]
      exact ⟨e,rfl,hm⟩
  · obtain ⟨e,he⟩ := validateAttribute_error_of_mem hb
    have hp : (evalPlace x (.attr (.name name) attr) s).out=.error e := by
      rw [evalPlace_attr_name]; simp [ho,he]; rfl
    rw [Eval.bind_of_error hp,hst]
    exact ⟨e,rfl,rfl⟩

omit [DecidableEq K] in
theorem applyMemDelta_spec (delta : Int) (t : InterpreterState K) :
    (applyMemDelta x delta t).trace=[] ∧
    (applyMemDelta x delta t).state.instances=t.instances ∧
    (applyMemDelta x delta t).state.vars=t.vars ∧
    ((applyMemDelta x delta t).out=.ok () ↔ (0 ≤ delta →
      min (t.memoryUsedBytes+delta.toNat) usizeMax ≤ min x.maxMemoryBytes usizeMax)) := by
  unfold applyMemDelta
  split
  · rename_i hd
    refine ⟨rfl,rfl,rfl,?_⟩
    simp only [Eval.modify_bind,checkMemory,hd,true_implies]
    split
    · rename_i hover
      exact ⟨fun h => (nomatch h),fun h => absurd h (Nat.not_le.mpr hover)⟩
    · rename_i hover
      exact ⟨fun _ => Nat.not_lt.mp hover,fun _ => rfl⟩
  · rename_i hd
    exact ⟨rfl,rfl,rfl,fun _ h => absurd h hd,fun _ => rfl⟩

/-- A field that may be written through the place of the name that holds the instance. -/
theorem assignThroughPlace_stored (hn : s.vars name=some (.userInstance i))
    (hb : attr ∉ blockedAttributes) :
    (assignThroughPlace x name attr v s).trace=[] ∧
    (assignThroughPlace x name attr v s).state.instances=(s.setField i attr v).instances ∧
    ((assignThroughPlace x name attr v s).out=.ok () ↔ Fits x s i attr v) := by
  have hok : validateAttribute attr=.ok () := (validateAttribute_ok_iff attr).mpr hb
  have hst : (evalPlace x (.attr (.name name) attr) s).state=s := by rw [evalPlace_attr_name]
  have htr : (evalPlace x (.attr (.name name) attr) s).trace=[] := by rw [evalPlace_attr_name]
  have hp : (evalPlace x (.attr (.name name) attr) s).out=.ok (some ⟨name,[.attr attr]⟩) := by
    rw [evalPlace_attr_name]
    simp [namesClass,hn,hok]
    rfl
  have hnav : (navigateRoot x (setAttr x attr v) name [] s : Run K L Int)=
      ⟨.ok (fieldDelta x s i attr v),(s.setField i attr v).setVar name (.userInstance i),[]⟩ := by
    simp [navigateRoot,hn,navigate,setAttr,hok]
  unfold assignThroughPlace
  rw [Eval.bind_of_ok hp,hst,htr]
  simp only [Place.parent,List.dropLast_singleton,List.nil_append]
  rw [Eval.bind_of_ok (by rw [hnav]),hnav]
  simp only [List.nil_append]
  obtain ⟨htr',hin,hva,hout⟩ := applyMemDelta_spec x (fieldDelta x s i attr v)
    ((s.setField i attr v).setVar name (.userInstance i))
  cases hr : (applyMemDelta x (fieldDelta x s i attr v)
    ((s.setField i attr v).setVar name (.userInstance i))).out with
  | error e =>
    rw [Eval.bind_of_error hr]
    refine ⟨htr',hin,?_⟩
    rw [hr] at hout
    exact hout
  | ok u =>
    rw [Eval.bind_of_ok hr,htr']
    have hv : (applyMemDelta x (fieldDelta x s i attr v)
        ((s.setField i attr v).setVar name (.userInstance i))).state.vars name=
        some (.userInstance i) := by
      rw [hva]
      simp [InterpreterState.setVar]
    simp only [Eval.get_bind,hv]
    refine ⟨rfl,?_,?_⟩
    · rw [syncPrec_instances,hin]
      rfl
    · rw [hr] at hout
      exact ⟨fun _ => hout.mp rfl,fun _ => rfl⟩

/-- A store on a name and the store on a computed receiver agree exactly when the class leaves the
store to the field map. -/
theorem assignInstance_same_iff (hn : s.vars name=some (.userInstance i)) :
    SameOutcome [] (assignComputed (.userInstance i) attr v s : Run K L Unit)
      (assignInstance x name i attr v s) ↔ Uniform x s i attr v := by
  cases hf : isFrozen s (s.instances i).className with
  | true =>
    rw [assignComputed_frozen hf,assignInstance_frozen x hf]
    exact ⟨fun _ => .inl hf,fun _ => ⟨rfl,fun _ => rfl,rfl⟩⟩
  | false =>
    obtain ⟨t,ht,hin⟩ := (assignComputed_stored hf : ∃t : InterpreterState K,
      (assignComputed (.userInstance i) attr v s : Run K L Unit)=⟨.ok (),t,[]⟩ ∧ _)
    have hnf : Uniform x s i attr v ↔ slotAllowed s (s.instances i).className attr=true ∧
        findHook s (s.instances i).className attr=none ∧ attr ∉ blockedAttributes ∧
        Fits x s i attr v := by
      simp [Uniform,hf]
    rw [hnf,ht]
    cases hs : slotAllowed s (s.instances i).className attr with
    | false =>
      obtain ⟨e,he⟩ := assignInstance_slots x name v hf hs
      refine ⟨fun h => ?_,fun h => by cases h.1⟩
      have := h.out
      rw [he] at this
      cases this
    | true =>
      rw [assignInstance_unfrozen x name v hf hs]
      cases hh : findHook s (s.instances i).className attr with
      | some hook =>
        refine ⟨fun h => ?_,fun h => by cases h.2.1⟩
        obtain ⟨e,he⟩ | htr := runHook_outcome x name attr v s hook (s.instances i).className (.userInstance i)
        · have := h.out
          rw [he] at this
          cases this
        · exact absurd h.calls.symm htr
      | none =>
        by_cases hb : attr ∈ blockedAttributes
        · obtain ⟨e,he,_⟩ := assignThroughPlace_blocked x name v s hb
          refine ⟨fun h => ?_,fun h => absurd hb h.2.2.1⟩
          have := h.out
          rw [he] at this
          cases this
        · obtain ⟨htr,hin',hout⟩ := assignThroughPlace_stored x (v := v) hn hb
          constructor
          · intro h
            exact ⟨rfl,rfl,hb,hout.mp h.out.symm⟩
          · intro h
            refine ⟨(hout.mpr h.2.2.2).symm,fun j => ?_,?_⟩
            · rw [hin',hin]
            · simp [htr]

end Stores

/-- Attribute assignment does not depend on the spelling of the receiver exactly when the class of
the instance is frozen, or when it neither refuses nor intercepts the store, the name is not
blocked and the field fits into the memory limit. -/
theorem assignment_same_for_receivers (r : Expr L) (name attr : String) (v : Val K)
    (s : InterpreterState K) (i : Nat) (hr : r.isName=false)
    (ho : (evalExpr x r s).out=.ok (.userInstance i))
    (hn : (evalExpr x r s).state.vars name=some (.userInstance i)) :
    SameOutcome (evalExpr x r s).trace (assignAttribute x r attr v s)
      (assignAttribute x (.name name) attr v (evalExpr x r s).state) ↔
    Uniform x (evalExpr x r s).state i attr v := by
  have heq : assignAttribute x r attr v s=(evalExpr x r>>=fun obj => assignComputed obj attr v) s := by
    cases r with
    | name id => cases hr
    | _ => rfl
  have hnamed : assignAttribute x (.name name) attr v (evalExpr x r s).state=
      assignInstance x name i attr v (evalExpr x r s).state := assignNamed_instance x hn
  rw [heq,hnamed,←assignInstance_same_iff x hn,Eval.bind_of_ok ho]
  constructor
  · intro h
    exact ⟨h.out,h.fields,List.append_cancel_left h.calls⟩
  · intro h
    exact ⟨h.out,h.fields,congrArg _ h.calls⟩

def holder : Externals Int Int :=
  {literals with getitem := fun _ _ _ s => (.ok (.userInstance 0),s)}

/-- `o` holds an instance of `C`, and `xs[0]` is that instance. -/
def spelledTwice (cls : ClassValue Int) : InterpreterState Int where
  vars := Function.update (Function.update (fun _ => none) "xs" (some (.list 0))) "o"
    (some (.userInstance 0))
  classes := Function.update (fun _ => none) "C" (some cls)
  functionAttrs _ _ := none
  instances _ := ⟨"C",fun _ => none⟩
  lists _ := [.userInstance 0]
  dicts _ _ := none
  memoryUsedBytes := 0
  decimalPrec := 28

def plainClass : ClassValue Int where
  frozen := false
  slots := false
  slotNames := []
  dataclassFields := none
  classAttrs _ := none
  properties _ := none
  methods _ := none
  mro := ["C"]

theorem assignment_same_for_plain :
    SameOutcome (evalExpr holder (.subscript (.name "xs") 0) (spelledTwice plainClass)).trace
      (assignAttribute holder (.subscript (.name "xs") 0) "x" (.int 1) (spelledTwice plainClass))
      (assignAttribute holder (.name "o") "x" (.int 1)
        (evalExpr holder (.subscript (.name "xs") 0) (spelledTwice plainClass)).state) :=
  (assignment_same_for_receivers holder (.subscript (.name "xs") 0) "o" "x" (.int 1)
    (spelledTwice plainClass) 0 rfl rfl rfl).mpr
      (.inr ⟨rfl,rfl,by decide,fun _ => by decide⟩)

/-- A class with the read-only property `p`. -/
def readOnlyClass : ClassValue Int :=
  {plainClass with properties := Function.update (fun _ => none) "p" (some ⟨none,none⟩)}

/-- `o.p = 1` is refused, `xs[0].p = 1` writes a field of the same instance. -/
theorem property_bypassed :
    (assignAttribute holder (.name "o") "p" (.int 1) (spelledTwice readOnlyClass)).out=
      .error ⟨.attributeError,"property 'p' of 'C' object has no setter"⟩ ∧
    (assignAttribute holder (.subscript (.name "xs") 0) "p" (.int 1)
      (spelledTwice readOnlyClass)).out=.ok () ∧
    ¬SameOutcome (evalExpr holder (.subscript (.name "xs") 0) (spelledTwice readOnlyClass)).trace
      (assignAttribute holder (.subscript (.name "xs") 0) "p" (.int 1) (spelledTwice readOnlyClass))
      (assignAttribute holder (.name "o") "p" (.int 1)
        (evalExpr holder (.subscript (.name "xs") 0) (spelledTwice readOnlyClass)).state) := by
  refine ⟨rfl,rfl,fun h => ?_⟩
  have := h.out
  cases this

end InterpretThis.Attribute
