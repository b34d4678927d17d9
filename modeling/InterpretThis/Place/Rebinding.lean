import InterpretThis.Place.Captured
import InterpretThis.Budget.Size

namespace InterpretThis.Place

open Budget

variable {K X : Type} [DecidableEq K]

section Capture

variable {M : Machine K X}

theorem peek_ok {p : Place K} {s t : State K} {v : Value K} (seen : peek M p s=(.ok v,t))
    (container : v.isContainer=true) : leads M.keys s p.root p.steps=.ok v ∧ t=s := by
  unfold peek at seen
  unfold leads
  cases hv : s.vars p.root with
  | none =>
    rw [hv] at seen
    nomatch seen
  | some root =>
    rw [hv] at seen
    dsimp only at seen ⊢
    have first := navRecurse_fst M.keys (fun h target => (target,h,(none : Option (Value K))))
      s.heap root p.steps
    have result := congrArg Prod.fst seen
    dsimp only at result
    rw [result] at first
    cases reached : Route.follow (child M.keys s.heap) root p.steps with
    | error e =>
      rw [reached] at first
      nomatch first
    | ok w =>
      rw [reached] at first
      have same : v=w := Except.ok.inj first
      subst same
      rw [navRecurse_container (fun h target => (target,h,(none : Option (Value K)))) reached
        container rfl] at seen
      exact ⟨rfl,(congrArg Prod.snd seen).symm⟩

/-- A place that a container was read from can be navigated, and leads to it. -/
theorem receiver_leads {e : Expr X} {s t : State K} {v : Value K} {p : Place K}
    (receiver : evalReceiver M e s=(.ok (v,some p),t)) (container : v.isContainer=true) :
    p.isNavigable=true ∧ leads M.keys t p.root p.steps=.ok v := by
  unfold evalReceiver at receiver
  rcases hp : evalPlace M e s with ⟨r,u⟩
  rw [hp] at receiver
  cases r with
  | error err => nomatch receiver
  | ok place =>
    dsimp only at receiver
    cases usable : usablePlace place u with
    | none =>
      rw [usable] at receiver
      dsimp only at receiver
      cases hr : (M.evalExpr e u).1 with
      | error err =>
        rw [hr] at receiver
        nomatch receiver
      | ok w =>
        rw [hr] at receiver
        nomatch receiver
    | some q =>
      rw [usable] at receiver
      dsimp only at receiver
      rcases seen : peek M q u with ⟨r,w⟩
      rw [seen] at receiver
      cases r with
      | error err =>
        dsimp only at receiver
        cases hr : (M.evalExpr e w).1 with
        | error err =>
          rw [hr] at receiver
          nomatch receiver
        | ok x =>
          rw [hr] at receiver
          nomatch receiver
      | ok x =>
        cases receiver
        obtain ⟨reached,same⟩ := peek_ok seen container
        have navigable := (Option.filter_eq_some_iff.mp usable).2
        rw [same]
        exact ⟨(Bool.and_eq_true_iff.mp navigable).1,reached⟩

omit [DecidableEq K] in
theorem boundSteps {steps : List (PlaceStep K)} (navigable : steps.all fun s => !s.isSlice) :
    (steps.filterMap boundStep).map placeStep=steps := by
  induction steps with
  | nil => rfl
  | cons st steps ih =>
    rw [List.all_cons,Bool.and_eq_true] at navigable
    cases st with
    | slice lower upper step => nomatch navigable.1
    | index key =>
      rw [List.filterMap_cons_some (show boundStep (.index key)=some (.index key) from rfl),
        List.map_cons,ih navigable.2]
      rfl
    | attr name =>
      rw [List.filterMap_cons_some
          (show boundStep (PlaceStep.attr (K := K) name)=some (.attr name) from rfl),
        List.map_cons,ih navigable.2]
      rfl

/-- The receiver that a captured method keeps. -/
def captured (v : Value K) : Option (Place K) → BoundMethodReceiver K
  | some p => .place p.root (p.steps.filterMap boundStep)
  | none => .snapshot v

/-- A method read off a container keeps the place it was read from, if there is one. -/
theorem evalAttribute_captured {e : Expr X} {name method : String} {s s₁ s₂ : State K}
    {v : Value K} {place : Option (Place K)} {r : BoundMethodReceiver K}
    (receiver : evalReceiver M e s=(.ok (v,place),s₁)) (container : v.isContainer=true)
    (plain : name≠"__class__")
    (got : evalAttribute M e name s=(.ok (.boundMethod r method),s₂)) :
    s₂=s₁ ∧ method=name ∧ r=captured v place := by
  have notObject : isObjectAttr name=false := by simpa [isObjectAttr] using plain
  have tables : ∃d ms,attributeTables v=some (d,ms) := by
    cases v <;> first | exact ⟨_,_,rfl⟩ | nomatch container
  obtain ⟨d,ms,htables⟩ := tables
  have gives : ∀x,dispatchGetattr M ms v name=.ok x → x=boundMethod v name := by
    intro x hx
    unfold dispatchGetattr at hx
    split_ifs at hx
    · exact (Except.ok.inj hx).symm
    · exact (Except.ok.inj hx).symm
  unfold evalAttribute at got
  by_cases blocked : M.isBlocked name=true
  · rw [notObject,blocked] at got
    nomatch got
  · rw [notObject,Bool.eq_false_iff.mpr blocked,receiver] at got
    dsimp only [Bool.not_false,Bool.true_and,Bool.false_eq_true,if_false] at got
    unfold getattrOnValue at got
    rw [notObject,htables,Bool.eq_false_iff.mpr blocked] at got
    dsimp only [Bool.false_eq_true,if_false] at got
    cases hx : dispatchGetattr M ms v name with
    | error err =>
      rw [hx] at got
      nomatch got
    | ok x =>
      rw [hx,gives x hx] at got
      cases place with
      | none =>
        cases got
        exact ⟨rfl,rfl,rfl⟩
      | some p =>
        cases got
        exact ⟨rfl,rfl,rfl⟩

end Capture

section Runs

variable (keys : Keys K)

/-- An inline container may be written anew on the route; everything else stays the same value. -/
def Alike (v w : Value K) : Prop := v.isInline=false → w=v

/-- The root and every slot on the route hold what they held. -/
def KeepsRoute (h h' : Heap K) (steps : List (PlaceStep K)) (v w : Value K) : Prop :=
  Route.Kept (child keys h) (child keys h') Alike steps v w

/-- The operation neither rebinds, deletes or shadows the root nor overwrites a slot on the path. -/
def Spares (root : String) (steps : List (PlaceStep K)) (s : State K) :
    Op (Heap K) (Value K) → Prop
  | .bind name value =>
    name=root → ∃old, s.vars root=some old ∧ KeepsRoute keys s.heap s.heap steps old value
  | .unbind name => name≠root
  | .work change _ =>
    ∀old, s.vars root=some old → KeepsRoute keys s.heap (change s.heap) steps old old
  | .measure _ => True
  | .augment name value _ =>
    name=root → ∃old, s.vars root=some old ∧ KeepsRoute keys s.heap s.heap steps old value
  | .slot name value _ =>
    name=root → ∃old, s.vars root=some old ∧ KeepsRoute keys s.heap s.heap steps old value
  | .putBack name value =>
    name=root → ∃old new, s.vars root=some old ∧ value=some new ∧
      KeepsRoute keys s.heap s.heap steps old new
  | .own _ _ => True
  | .stop _ => True

variable {keys} {root : String} {steps : List (PlaceStep K)}

/-- A step reads the contents of a container, never its size cache. -/
theorem child_bodies {h t : Heap K} (same : t.bodies=h.bodies) : child keys t=child keys h := by
  have body := body_congr same
  have items : t.items=h.items := by
    unfold Heap.items
    rw [body]
  have map : t.map=h.map := by
    unfold Heap.map
    rw [body]
  have fields : t.fields=h.fields := by
    unfold Heap.fields
    rw [body]
  funext cur step
  unfold child
  rw [items,map,fields]

theorem leads_rebound {s t : State K} {old new : Value K} {h : Heap K}
    (before : s.vars root=some old) (after : t.vars root=some new) (heap : t.heap.bodies=h.bodies)
    (kept : KeepsRoute keys s.heap h steps old new) :
    leads keys t root steps=leads keys s root steps := by
  unfold leads
  rw [before,after,child_bodies heap]
  exact kept.follow_eq

theorem leads_congr {s t : State K} (vars : t.vars root=s.vars root)
    (heap : t.heap.bodies=s.heap.bodies) : leads keys t root steps=leads keys s root steps := by
  unfold leads
  rw [vars,child_bodies heap]

theorem put_leads {s t : State K} {name : String} {value : Value K}
    (vars : t.vars=(s.put name (some value)).vars) (heap : t.heap.bodies=s.heap.bodies)
    (spares : name=root → ∃old, s.vars root=some old ∧
      KeepsRoute keys s.heap s.heap steps old value) :
    leads keys t root steps=leads keys s root steps := by
  by_cases same : name=root
  · obtain ⟨old,before,kept⟩ := spares same
    apply leads_rebound before _ heap kept
    rw [vars,same,put_same]
  · apply leads_congr
    · rw [vars,put_other s (some value) (Ne.symm same)]
    · exact heap

variable (keySize : K → Nat)

/-- One operation that spares the path. -/
theorem exec_leads {s : State K} {op : Op (Heap K) (Value K)}
    (spares : Spares keys root steps s op) :
    leads keys (op.exec (estimateValueSize keySize) s).2 root steps=leads keys s root steps := by
  have vars := exec_vars (estimateValueSize keySize) s op
  have heap : (op.exec (estimateValueSize keySize) s).2.heap.bodies=(op.heapAfter s).bodies :=
    exec_heap (fun h v => estimateValueSize_bodies h v) s op
  cases op with
  | bind name value => exact put_leads vars heap spares
  | augment name value oldSize => exact put_leads vars heap spares
  | slot name value delta => exact put_leads vars heap spares
  | unbind name =>
    apply leads_congr
    · rw [vars]
      exact put_other s none (Ne.symm spares)
    · exact heap
  | putBack name value =>
    by_cases same : name=root
    · obtain ⟨old,new,before,put,kept⟩ := spares same
      subst put
      exact put_leads vars heap fun _ => ⟨old,before,kept⟩
    · apply leads_congr
      · rw [vars]
        exact put_other s value (Ne.symm same)
      · exact heap
  | work change delta =>
    cases before : s.vars root with
    | none =>
      unfold leads
      rw [vars]
      dsimp only [Op.varsAfter]
      rw [before]
    | some old =>
      apply leads_rebound before _ heap (spares old before)
      rw [vars]
      exact before
  | measure value => exact leads_congr (by rw [vars]; rfl) heap
  | own name cell => exact leads_congr (by rw [vars]; rfl) heap
  | stop outcome => exact leads_congr (by rw [vars]; rfl) heap

/-- Every operation of the run that is carried out spares the path. -/
def SparesAll (keys : Keys K) (root : String) (steps : List (PlaceStep K)) :
    List (Op (Heap K) (Value K)) → State K → Prop
  | [],_ => True
  | op::ops,s => Spares keys root steps s op ∧
      ((op.exec (estimateValueSize keySize) s).1.2=true →
        SparesAll keys root steps ops (op.exec (estimateValueSize keySize) s).2)

theorem executeBody_leads (ops : List (Op (Heap K) (Value K))) {s : State K}
    (spares : SparesAll keySize keys root steps ops s) :
    leads keys (executeBody (estimateValueSize keySize) ops s).2 root steps=
      leads keys s root steps := by
  induction ops generalizing s with
  | nil => rfl
  | cons op ops ih =>
    obtain ⟨head,tail⟩ := spares
    have step := exec_leads keySize head
    unfold executeBody
    rcases hop : op.exec (estimateValueSize keySize) s with ⟨⟨r,goesOn⟩,t⟩
    rw [hop] at step tail
    cases goesOn with
    | false => exact step
    | true => exact (ih (tail rfl)).trans step

end Runs

section Bound

/-- Lists with one method, over names for keys; an iterator stands as the list it goes over. -/
def appending : Machine String Unit :=
  {plainMachine with
    keys := ⟨fun v => match v with
      | .string s => .ok s
      | other => .error (.typeError ("unhashable type: '"++other.typeName++"'")),id⟩
    evalExpr := fun e s => match e with
      | .name id => match s.vars id with
        | some v => (.ok v,s)
        | none => (.error (.nameNotDefined id),s)
      | _ => (.ok .none,s)
    methods := fun h obj method args _ => match obj,method,args with
      | .list a,"append",[x] => (.ok ⟨.none,8⟩,h.setBody a (.list (h.items a++[x])))
      | other,_,_ => (.error (attributeError other method),h)
    eq := fun _ _ s => (.ok true,s)}

def twoLists : State String where
  heap := [⟨.list [],none⟩,⟨.list [],none⟩]
  vars n := if n="xs" then some (.list 0) else none
  nonlocalCells _ := none
  frameCellOwners := []
  memoryUsedBytes := ⟨24,by decide⟩
  maxMemoryBytes := 1000
  journal := []

end Bound

end InterpretThis.Place
