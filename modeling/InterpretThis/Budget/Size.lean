import InterpretThis.Place.Store
import InterpretThis.Framework.Sharing

namespace InterpretThis.Place

variable {K : Type}

section Sizes

variable (keySize : K → Nat) (shared : Nat → Nat)

mutual

/-- `estimate_value_size` down to the handles of shared containers, which count what `shared`
says. -/
def Value.sizeWith : Value K → Nat
  | .none => 0
  | .bool _ => 1
  | .int _ => 8
  | .bigInt n => bigintBytes n
  | .float _ => 8
  | .string s => stringHeaderBytes+s.utf8ByteSize
  | .tuple items => stringHeaderBytes+items.length*valueSlotBytes+valuesSize items
  | .list a => shared a
  | .dict a => shared a
  | .orderedDict a => shared a
  | .set a => shared a
  | .byteArray a => shared a
  | .userInstance className a => 16+className.utf8ByteSize+shared a
  | .deque items => stringHeaderBytes+items.length*valueSlotBytes+valuesSize items
  | .defaultDict items factory =>
    48+factory.sizeWith+items.length*(indexmapPerEntryBytes+valueSlotBytes)+entriesSize items
  | .counter map => 48+map.length*(indexmapPerEntryBytes+valueSlotBytes)+entriesSize map
  | .classRef name => 8+name.utf8ByteSize
  | .function _ => 64
  | .boundMethod receiver method => 16+method.utf8ByteSize+receiver.sizeWith

def BoundMethodReceiver.sizeWith : BoundMethodReceiver K → Nat
  | .snapshot value => value.sizeWith
  | .place root steps => root.utf8ByteSize+stepsSize steps

def BoundMethodStep.sizeWith : BoundMethodStep K → Nat
  | .index key => 8+key.sizeWith
  | .attr name => 8+name.utf8ByteSize

def valuesSize : List (Value K) → Nat
  | [] => 0
  | v::vs => v.sizeWith+valuesSize vs

def entriesSize : List (K×Value K) → Nat
  | [] => 0
  | (k,v)::es => keySize k+v.sizeWith+entriesSize es

def stepsSize : List (BoundMethodStep K) → Nat
  | [] => 0
  | st::steps => st.sizeWith+stepsSize steps

end

def fieldsSize : List (String×Value K) → Nat
  | [] => 0
  | (name,v)::fields => name.utf8ByteSize+v.sizeWith keySize shared+fieldsSize fields

def Body.sizeWith : Body K → Nat
  | .list items => stringHeaderBytes+items.length*valueSlotBytes+valuesSize keySize shared items
  | .dict map =>
    48+map.length*(indexmapPerEntryBytes+valueSlotBytes)+entriesSize keySize shared map
  | .set items => stringHeaderBytes+items.length*2*(valueSlotBytes+8)+valuesSize keySize shared items
  | .byteArray bytes => stringHeaderBytes+bytes.length
  | .fields fs => fieldsSize keySize shared fs

end Sizes

section Handles

mutual

/-- The handles of shared containers that a value holds itself. -/
def Value.handles : Value K → List Nat
  | .tuple items => valuesHandles items
  | .list a => [a]
  | .dict a => [a]
  | .orderedDict a => [a]
  | .set a => [a]
  | .byteArray a => [a]
  | .userInstance _ a => [a]
  | .deque items => valuesHandles items
  | .defaultDict items factory => factory.handles++entriesHandles items
  | .counter map => entriesHandles map
  | .boundMethod receiver _ => receiver.handles
  | _ => []

def BoundMethodReceiver.handles : BoundMethodReceiver K → List Nat
  | .snapshot value => value.handles
  | .place _ steps => stepsHandles steps

def BoundMethodStep.handles : BoundMethodStep K → List Nat
  | .index key => key.handles
  | .attr _ => []

def valuesHandles : List (Value K) → List Nat
  | [] => []
  | v::vs => v.handles++valuesHandles vs

def entriesHandles : List (K×Value K) → List Nat
  | [] => []
  | (_,v)::es => v.handles++entriesHandles es

def stepsHandles : List (BoundMethodStep K) → List Nat
  | [] => []
  | st::steps => st.handles++stepsHandles steps

end

def fieldsHandles : List (String×Value K) → List Nat
  | [] => []
  | (_,v)::fields => v.handles++fieldsHandles fields

def Body.handles : Body K → List Nat
  | .list items => valuesHandles items
  | .dict map => entriesHandles map
  | .set items => valuesHandles items
  | .byteArray _ => []
  | .fields fs => fieldsHandles fs

end Handles

section Regrouping

variable (keySize : K → Nat) (shared : Nat → Nat)

def Value.ownSize (v : Value K) : Nat := v.sizeWith keySize fun _ => 0

def Body.ownSize (b : Body K) : Nat := b.sizeWith keySize fun _ => 0

mutual

theorem Value.sizeWith_eq (v : Value K) :
    v.sizeWith keySize shared=v.ownSize keySize+(v.handles.map shared).sum := by
  cases v with
  | tuple items =>
    have rest := valuesSize_eq items
    simp only [Value.ownSize,Value.sizeWith,Value.handles] at *
    omega
  | deque items =>
    have rest := valuesSize_eq items
    simp only [Value.ownSize,Value.sizeWith,Value.handles] at *
    omega
  | defaultDict items factory =>
    have rest := entriesSize_eq items
    have head := Value.sizeWith_eq factory
    simp only [Value.ownSize,Value.sizeWith,Value.handles,List.map_append,List.sum_append] at *
    omega
  | counter map =>
    have rest := entriesSize_eq map
    simp only [Value.ownSize,Value.sizeWith,Value.handles] at *
    omega
  | boundMethod receiver method =>
    have rest := BoundMethodReceiver.sizeWith_eq receiver
    simp only [Value.ownSize,Value.sizeWith,Value.handles] at *
    omega
  | _ => simp [Value.ownSize,Value.sizeWith,Value.handles]

theorem BoundMethodReceiver.sizeWith_eq (r : BoundMethodReceiver K) :
    r.sizeWith keySize shared=
      r.sizeWith keySize (fun _ => 0)+(r.handles.map shared).sum := by
  cases r with
  | snapshot value =>
    have rest := Value.sizeWith_eq value
    simp only [Value.ownSize,BoundMethodReceiver.sizeWith,BoundMethodReceiver.handles] at *
    omega
  | place root steps =>
    have rest := stepsSize_eq steps
    simp only [BoundMethodReceiver.sizeWith,BoundMethodReceiver.handles] at *
    omega

theorem BoundMethodStep.sizeWith_eq (st : BoundMethodStep K) :
    st.sizeWith keySize shared=
      st.sizeWith keySize (fun _ => 0)+(st.handles.map shared).sum := by
  cases st with
  | index key =>
    have rest := Value.sizeWith_eq key
    simp only [Value.ownSize,BoundMethodStep.sizeWith,BoundMethodStep.handles] at *
    omega
  | attr name => simp [BoundMethodStep.sizeWith,BoundMethodStep.handles]

theorem valuesSize_eq (vs : List (Value K)) :
    valuesSize keySize shared vs=
      valuesSize keySize (fun _ => 0) vs+((valuesHandles vs).map shared).sum := by
  cases vs with
  | nil => simp [valuesSize,valuesHandles]
  | cons v vs =>
    have head := Value.sizeWith_eq v
    have tail := valuesSize_eq vs
    simp only [Value.ownSize,valuesSize,valuesHandles,List.map_append,List.sum_append] at *
    omega

theorem entriesSize_eq (es : List (K×Value K)) :
    entriesSize keySize shared es=
      entriesSize keySize (fun _ => 0) es+((entriesHandles es).map shared).sum := by
  cases es with
  | nil => simp [entriesSize,entriesHandles]
  | cons e es =>
    have head := Value.sizeWith_eq e.2
    have tail := entriesSize_eq es
    simp only [Value.ownSize,entriesSize,entriesHandles,List.map_append,List.sum_append] at *
    omega

theorem stepsSize_eq (steps : List (BoundMethodStep K)) :
    stepsSize keySize shared steps=
      stepsSize keySize (fun _ => 0) steps+((stepsHandles steps).map shared).sum := by
  cases steps with
  | nil => simp [stepsSize,stepsHandles]
  | cons st steps =>
    have head := BoundMethodStep.sizeWith_eq st
    have tail := stepsSize_eq steps
    simp only [stepsSize,stepsHandles,List.map_append,List.sum_append] at *
    omega

end

theorem fieldsSize_eq (fields : List (String×Value K)) :
    fieldsSize keySize shared fields=
      fieldsSize keySize (fun _ => 0) fields+((fieldsHandles fields).map shared).sum := by
  induction fields with
  | nil => rfl
  | cons f fields ih =>
    have head := Value.sizeWith_eq keySize shared f.2
    simp only [Value.ownSize,fieldsSize,fieldsHandles,List.map_append,List.sum_append] at *
    omega

theorem Body.sizeWith_eq (b : Body K) :
    b.sizeWith keySize shared=b.ownSize keySize+(b.handles.map shared).sum := by
  cases b with
  | list items =>
    have rest := valuesSize_eq keySize shared items
    simp only [Body.ownSize,Body.sizeWith,Body.handles] at *
    omega
  | dict map =>
    have rest := entriesSize_eq keySize shared map
    simp only [Body.ownSize,Body.sizeWith,Body.handles] at *
    omega
  | set items =>
    have rest := valuesSize_eq keySize shared items
    simp only [Body.ownSize,Body.sizeWith,Body.handles] at *
    omega
  | byteArray bytes => simp [Body.ownSize,Body.sizeWith,Body.handles]
  | fields fs =>
    have rest := fieldsSize_eq keySize shared fs
    simp only [Body.ownSize,Body.sizeWith,Body.handles] at *
    omega

end Regrouping

section Estimate

variable (keySize : K → Nat)

/-- A walk holds the lock of what it goes through, but for a set, whose items it copies out. -/
def Body.holdsLock : Body K → Bool
  | .set _ => false
  | _ => true

/-- Lists and dicts cache their size. -/
def cacheOf (h : Heap K) (a : Nat) : Option Nat :=
  match h[a]? with
  | some ⟨.list _,cache⟩ => cache
  | some ⟨.dict _,cache⟩ => cache
  | _ => none

def Object.storeSize (size : Nat) : Object K → Object K
  | ⟨.list items,_⟩ => ⟨.list items,some size⟩
  | ⟨.dict map,_⟩ => ⟨.dict map,some size⟩
  | other => other

def visitAll (visit : Nat → Heap K → Nat×Heap K) : List Nat → Heap K → Nat×Heap K
  | [],h => (0,h)
  | a::as,h =>
    let (size,t) := visit a h
    let (rest,u) := visitAll visit as t
    (size+rest,u)

/-- The size behind a handle. A container that is locked, by the walk or by a method on it, counts
nothing; one with a cached size counts that; any other is walked, and a list or a dict then keeps
the size. -/
def visit : Nat → List Nat → Nat → Heap K → Nat×Heap K
  | 0,_,_,h => (0,h)
  | n+1,locked,a,h =>
    if a ∈ locked then (0,h)
    else
      match cacheOf h a with
      | some size => (size,h)
      | none =>
        let b := h.body a
        let (inner,t) :=
          visitAll (visit n (if b.holdsLock then a::locked else locked)) b.handles h
        (b.ownSize keySize+inner,t.modify a (Object.storeSize (b.ownSize keySize+inner)))

/-- `estimate_value_size` while some containers are locked. Between two locks lies at most one set,
which holds no other set: the fuel is enough. -/
def estimateUnder (locked : List Nat) (h : Heap K) (v : Value K) : Nat×Heap K :=
  let (inner,t) := visitAll (visit keySize (2*h.length+2) locked) v.handles h
  (v.ownSize keySize+inner,t)

def estimateValueSize (h : Heap K) (v : Value K) : Nat×Heap K := estimateUnder keySize [] h v

/-- The size behind a handle as a walk without caches finds it. -/
def sharedSize (body : Nat → Body K) : Nat → List Nat → Nat → Nat
  | 0,_,_ => 0
  | n+1,locked,a =>
    if a ∈ locked then 0
    else (body a).sizeWith keySize
      (sharedSize body n (if (body a).holdsLock then a::locked else locked))

def recount (h : Heap K) (v : Value K) : Nat :=
  v.sizeWith keySize (sharedSize keySize h.body (2*h.length+2) [])

end Estimate

section Kept

variable {keySize : K → Nat}

/-- A heap without its caches. -/
def Heap.bodies (h : Heap K) : List (Body K) := List.map Object.body h

theorem body_of_bodies (h : Heap K) (a : Nat) : h.body a=(h.bodies[a]?).getD (.list []) := by
  unfold Heap.body Heap.bodies
  rw [List.getElem?_map]
  cases h[a]? <;> rfl

theorem body_congr {h t : Heap K} (same : t.bodies=h.bodies) : t.body=h.body := by
  funext a
  rw [body_of_bodies,body_of_bodies,same]

theorem recount_congr {h t : Heap K} (same : t.bodies=h.bodies) :
    recount keySize t=recount keySize h := by
  have len : t.length=h.length := by
    have lengths := congrArg List.length same
    unfold Heap.bodies at lengths
    rwa [List.length_map,List.length_map] at lengths
  funext v
  unfold recount
  rw [body_congr same,len]

theorem storeSize_body (size : Nat) (o : Object K) : (o.storeSize size).body=o.body := by
  obtain ⟨b,cache⟩ := o
  cases b <;> rfl

theorem modify_bodies (h : Heap K) (a size : Nat) :
    Heap.bodies (h.modify a (Object.storeSize size))=h.bodies := by
  apply List.ext_getElem?
  intro i
  unfold Heap.bodies
  rw [List.getElem?_map,List.getElem?_map,List.getElem?_modify]
  cases h[i]? with
  | none => rfl
  | some o =>
    by_cases here : a=i
    · simp [here,storeSize_body]
    · simp [here]

theorem visitAll_bodies {f : Nat → Heap K → Nat×Heap K}
    (kept : ∀a h,(f a h).2.bodies=h.bodies) (as : List Nat) (h : Heap K) :
    (visitAll f as h).2.bodies=h.bodies := by
  induction as generalizing h with
  | nil => rfl
  | cons a as ih => exact (ih (f a h).2).trans (kept a h)

theorem visit_bodies (n : Nat) (locked : List Nat) (a : Nat) (h : Heap K) :
    (visit keySize n locked a h).2.bodies=h.bodies := by
  induction n generalizing locked a h with
  | zero => rfl
  | succ n ih =>
    unfold visit
    by_cases held : a ∈ locked
    · rw [if_pos held]
    · rw [if_neg held]
      cases cacheOf h a with
      | some size => rfl
      | none =>
        exact (modify_bodies _ a _).trans
          (visitAll_bodies (fun c t => ih _ c t) (h.body a).handles h)

theorem estimateUnder_bodies (locked : List Nat) (h : Heap K) (v : Value K) :
    (estimateUnder keySize locked h v).2.bodies=h.bodies :=
  visitAll_bodies (fun a t => visit_bodies _ locked a t) v.handles h

/-- An estimate fills caches, no more. -/
theorem estimateValueSize_bodies (h : Heap K) (v : Value K) :
    (estimateValueSize keySize h v).2.bodies=h.bodies := estimateUnder_bodies [] h v

end Kept

section Graph

variable (keySize : K → Nat)

def contents (h : Heap K) (a : Nat) : List Nat := (h.body a).handles

def ownWeight (h : Heap K) (a : Nat) : Nat := (h.body a).ownSize keySize

def holdsLock (h : Heap K) (a : Nat) : Bool := (h.body a).holdsLock

theorem sharedSize_eq_walk (h : Heap K) (n : Nat) (locked : List Nat) (a : Nat) :
    sharedSize keySize h.body n locked a=
      Sharing.walk (contents h) (ownWeight keySize h) (holdsLock h) n locked a := by
  induction n generalizing locked a with
  | zero => rfl
  | succ n ih =>
    rw [sharedSize,Sharing.walk]
    by_cases free : a ∈ locked
    · rw [if_pos free,if_pos free]
    · rw [if_neg free,if_neg free,Body.sizeWith_eq]
      have same : ∀held,sharedSize keySize h.body n held=
          Sharing.walk (contents h) (ownWeight keySize h) (holdsLock h) n held :=
        fun held => funext fun c => ih held c
      rw [same]
      rfl

theorem contents_outside (h : Heap K) : ∀b ∉ Finset.range h.length,contents h b=[] := by
  intro b outside
  have beyond : h.length ≤ b := Nat.le_of_not_lt fun inside => outside (Finset.mem_range.mpr inside)
  unfold contents Heap.body
  rw [List.getElem?_eq_none_iff.mpr beyond]
  rfl

theorem unlocked_lt (h : Heap K) (locked : List Nat) :
    (Sharing.unlocked (Finset.range h.length) locked).card<2*h.length+2 := by
  have few := Finset.card_filter_le (Finset.range h.length) fun x => x ∉ locked
  rw [Finset.card_range] at few
  unfold Sharing.unlocked
  omega

end Graph

end InterpretThis.Place
