import InterpretThis.Framework.HeapOrder
import InterpretThis.Modules.Bisect

namespace InterpretThis
namespace Heapq

/-- The builtin `<`, the errors of an index and of an empty heap, and `None`. -/
structure Comparing (α E : Type) where
  compareLt : α → α → Except E Bool
  outOfBounds : E
  indexError : E
  nothing : α

variable {α E : Type}

section Sifting

variable (O : Comparing α E)

/-- The loop of `siftdown`. -/
def bubble (startpos : ℕ) (newitem : α) (heap : List α) (pos : ℕ) : Except E Unit×List α :=
  if startpos<pos then
    let parentpos := (pos-1)/2
    match heap[parentpos]? with
    | none => (.error O.outOfBounds,heap)
    | some parent =>
      match O.compareLt newitem parent with
      | .error e => (.error e,heap)
      | .ok true => bubble startpos newitem (heap.set pos parent) parentpos
      | .ok false => (.ok (),heap.set pos newitem)
  else (.ok (),heap.set pos newitem)
termination_by pos

def siftdown (heap : List α) (startpos pos : ℕ) : Except E Unit×List α :=
  match heap[pos]? with
  | none => (.error O.outOfBounds,heap)
  | some newitem => bubble O startpos newitem heap pos

/-- Whether the right child is the one to move: `not heap[child]<heap[right]`. -/
def picksRight (heap : List α) (childpos : ℕ) : Except E Bool :=
  if childpos+1<heap.length then
    match heap[childpos]?,heap[childpos+1]? with
    | some child,some right => (O.compareLt child right).map (!·)
    | _,_ => .error O.outOfBounds
  else .ok false

/-- The loop of `siftup`: the smaller child moves up until the place is a leaf. -/
def sink (heap : List α) (pos : ℕ) : Except E ℕ×List α :=
  if 2*pos+1<heap.length then
    match picksRight O heap (2*pos+1) with
    | .error e => (.error e,heap)
    | .ok right =>
      match heap[2*pos+1+right.toNat]? with
      | none => (.error O.outOfBounds,heap)
      | some child => sink (heap.set pos child) (2*pos+1+right.toNat)
  else (.ok pos,heap)
termination_by heap.length-pos
decreasing_by
  rw [List.length_set]
  omega

def siftup (heap : List α) (pos : ℕ) : Except E Unit×List α :=
  match heap[pos]? with
  | none => (.error O.outOfBounds,heap)
  | some newitem =>
    match sink O heap pos with
    | (.error e,h) => (.error e,h)
    | (.ok leaf,h) => siftdown O (h.set leaf newitem) pos leaf

end Sifting

section Operations

variable (O : Comparing α E)

/-- `for i in (0..i).rev()`. -/
def heapifyBelow : ℕ → List α → Except E Unit×List α
  | 0,heap => (.ok (),heap)
  | i+1,heap =>
    match siftup O heap i with
    | (.error e,h) => (.error e,h)
    | (.ok _,h) => heapifyBelow i h

def heapify (heap : List α) : Except E Unit×List α := heapifyBelow O (heap.length/2) heap

def heappush (heap : List α) (item : α) : Except E Unit×List α :=
  siftdown O (heap++[item]) 0 ((heap++[item]).length-1)

/-- The item at the root goes out, another one takes its place. -/
def replaceRoot (heap : List α) (returned item : α) : Except E α×List α :=
  match siftup O (heap.set 0 item) 0 with
  | (.error e,h) => (.error e,h)
  | (.ok _,h) => (.ok returned,h)

/-- `pop_min`. -/
def popMin (heap : List α) : Except E α×List α :=
  match heap.getLast? with
  | none => (.error O.indexError,heap)
  | some last =>
    match heap.dropLast with
    | [] => (.ok last,[])
    | returned::rest => replaceRoot O (returned::rest) returned last

def heappushpop (heap : List α) (item : α) : Except E α×List α :=
  match heap with
  | [] => (.ok item,[])
  | returned::rest =>
    match O.compareLt returned item with
    | .error e => (.error e,returned::rest)
    | .ok true => replaceRoot O (returned::rest) returned item
    | .ok false => (.ok item,returned::rest)

def heapreplace (heap : List α) (item : α) : Except E α×List α :=
  match heap with
  | [] => (.error O.indexError,[])
  | returned::rest => replaceRoot O (returned::rest) returned item

/-- The operations on a heap. -/
inductive Op (α : Type) where
  | heapify
  | heappush (item : α)
  | heappop
  | heappushpop (item : α)
  | heapreplace (item : α)
  deriving DecidableEq

/-- What an operation returns, and the heap that it leaves. -/
def Op.run : Op α → List α → Except E α×List α
  | .heapify,heap =>
    ((Heapq.heapify O heap).1.map fun _ => O.nothing,(Heapq.heapify O heap).2)
  | .heappush item,heap =>
    ((Heapq.heappush O heap item).1.map fun _ => O.nothing,(Heapq.heappush O heap item).2)
  | .heappop,heap => popMin O heap
  | .heappushpop item,heap => Heapq.heappushpop O heap item
  | .heapreplace item,heap => Heapq.heapreplace O heap item

end Operations

section Merging

variable (compareLt : α → α → Except E Bool)

/-- The comparator of `sort_values`. -/
def ordering (reverse : Bool) (a b : α) : Except E Ordering :=
  let lo := if reverse then b else a
  let hi := if reverse then a else b
  match compareLt lo hi with
  | .error e => .error e
  | .ok true => .ok .lt
  | .ok false =>
    match compareLt hi lo with
    | .error e => .error e
    | .ok true => .ok .gt
    | .ok false => .ok .eq

/-- `sort_values`: `sort_by` with a comparator that keeps its first error. -/
def sortValues (sortBy : List α → Asking α) (reverse : Bool) (values : List α) :
    Except E (List α) :=
  match (sortBy values).run (Asking.capture (ordering compareLt reverse)) none with
  | (_,some e) => .error e
  | (out,none) => .ok out

end Merging

end Heapq

namespace Place
namespace Heapq

open InterpretThis.Heapq

/-- What the functions of the module call. -/
structure Host (K : Type) where
  compareLt : State K → Value K → Value K → Except (Failure K) Bool
  iterateValue : State K → Value K → Except (Failure K) (List (Value K))
  isTruthy : State K → Value K → Bool
  sortBy : List (Value K) → Asking (Value K)
  nExtreme : String → List (Value K) → List (String×Value K) → State K →
    Except (Failure K) (Value K)×State K

variable {K : Type} (H : Host K)

/-- `shared_list`: a new list on the heap. -/
def sharedList {K : Type} (items : List (Value K)) (s : State K) : Value K×State K :=
  (.list s.heap.length,{s with heap := s.heap++[⟨.list items,none⟩]})

/-- The comparisons of a call; the list is locked until it is done. -/
def comparing (s : State K) : Comparing (Value K) (Failure K) where
  compareLt := H.compareLt s
  outOfBounds := .runtime "index out of bounds"
  indexError := .raised "index out of range"
  nothing := .none

/-- `with_heap`. -/
def withHeap (args : List (Value K)) (op : Op (Value K)) (s : State K) :
    Except (Failure K) (Value K)×State K :=
  match args.head? with
  | some (.list a) =>
    let r := op.run (comparing H s) (s.heap.items a)
    (r.1,setItems a r.2 s)
  | other => (.error (.typeError ("heap argument must be a list, not '"++
      (other.elim "nothing" Value.typeName)++"'")),s)

/-- The items of all the iterables, one behind the other. -/
def gather (s : State K) : List (Value K) → Except (Failure K) (List (Value K))
  | [] => .ok []
  | it::its =>
    match H.iterateValue s it with
    | .error e => .error e
    | .ok items => (gather s its).map (items++·)

def merge (args : List (Value K)) (kwargs : List (String×Value K)) (s : State K) :
    Except (Failure K) (Value K)×State K :=
  let reverse := ((kwargs.lookup "reverse").map (H.isTruthy s)).getD false
  match gather H s args with
  | .error e => (.error e,s)
  | .ok merged =>
    match sortValues (H.compareLt s) H.sortBy reverse merged with
    | .error e => (.error e,s)
    | .ok out => (.ok (sharedList out s).1,(sharedList out s).2)

def withItem (func : String) (args : List (Value K)) (op : Value K → Op (Value K)) (s : State K) :
    Except (Failure K) (Value K)×State K :=
  match needArg func args 1 with
  | .error e => (.error e,s)
  | .ok item => withHeap H args (op item) s

/-- `HeapqModule::call`. -/
def call (func : String) (args : List (Value K)) (kwargs : List (String×Value K)) (s : State K) :
    Except (Failure K) (Value K)×State K :=
  match func with
  | "heapify" => withHeap H args .heapify s
  | "heappush" => withItem H func args .heappush s
  | "heappop" => withHeap H args .heappop s
  | "heappushpop" => withItem H func args .heappushpop s
  | "heapreplace" => withItem H func args .heapreplace s
  | "nsmallest" => H.nExtreme func args kwargs s
  | "nlargest" => H.nExtreme func args kwargs s
  | "merge" => merge H args kwargs s
  | _ => (.error (.attributeError ("module 'heapq' has no attribute '"++func++"'")),s)

end Heapq
end Place

namespace Heapq

open HeapOrder

variable {α E : Type}

section Kept

variable (O : Comparing α E)

/-- The items above a place, on the way up to the start. -/
def wayUp (heap : List α) (startpos pos : ℕ) : List α :=
  if startpos<pos then (heap[(pos-1)/2]?).toList++wayUp heap startpos ((pos-1)/2) else []
termination_by pos

/-- On the way up, a comparison raises only while the slot still holds the item. -/
def KeptUp (newitem : α) : α → List α → Prop
  | _,[] => True
  | here,parent::above =>
    match O.compareLt newitem parent with
    | .error _ => here=newitem
    | .ok true => KeptUp newitem parent above
    | .ok false => True

/-- On the way down to a leaf and back up, a comparison raises only while the slot still holds the
item; `above` are the items that have moved up. -/
def KeptDown (heap : List α) (newitem : α) (pos : ℕ) (here : α) (above : List α) : Prop :=
  if 2*pos+1<heap.length then
    match picksRight O heap (2*pos+1) with
    | .error _ => here=newitem
    | .ok right =>
      match heap[2*pos+1+right.toNat]? with
      | none => True
      | some child => KeptDown heap newitem (2*pos+1+right.toNat) child (child::above)
  else KeptUp O newitem newitem above
termination_by heap.length-pos

/-- The sift from a place raises only while the item is in its slot. -/
def SiftKept (heap : List α) (pos : ℕ) : Prop :=
  ∀ newitem,heap[pos]?=some newitem → KeptDown O heap newitem pos newitem []

/-- Every sift that `heapify` makes raises only while its item is in its slot. -/
def SiftsKept : ℕ → List α → Prop
  | 0,_ => True
  | i+1,heap => SiftKept O heap i ∧ ∀ h,siftup O heap i=(.ok (),h) → SiftsKept i h

/-- No comparison of an operation raises after an item has moved. -/
def Op.Kept : Op α → List α → Prop
  | .heapify,heap => SiftsKept O (heap.length/2) heap
  | .heappush item,heap => KeptUp O item item (wayUp (heap++[item]) 0 heap.length)
  | .heappop,heap =>
    ∀ last∈heap.getLast?,heap.dropLast≠[] → SiftKept O (heap.dropLast.set 0 last) 0
  | .heappushpop _,[] => True
  | .heappushpop item,returned::rest =>
    O.compareLt returned item=.ok true → SiftKept O (item::rest) 0
  | .heapreplace _,[] => True
  | .heapreplace item,_::rest => SiftKept O (item::rest) 0

end Kept

section Contents

variable {O : Comparing α E} {heap out : List α} {startpos pos leaf : ℕ} {x here : α}

theorem wayUp_stop (hs : ¬startpos<pos) : wayUp heap startpos pos=[] := by
  rw [wayUp,if_neg hs]

theorem wayUp_step (hs : startpos<pos) : wayUp heap startpos pos=
    (heap[(pos-1)/2]?).toList++wayUp heap startpos ((pos-1)/2) := by
  rw [wayUp,if_pos hs]

theorem wayUp_congr {g h : List α} (hagree : ∀ i,i<pos → g[i]?=h[i]?) :
    wayUp g startpos pos=wayUp h startpos pos := by
  induction pos using Nat.strongRecOn with
  | ind pos ih =>
    by_cases hs : startpos<pos
    · have hhalf : (pos-1)/2<pos := by omega
      rw [wayUp_step hs,wayUp_step hs,hagree _ hhalf,
        ih _ hhalf fun i hi => hagree i (hi.trans hhalf)]
    · rw [wayUp_stop hs,wayUp_stop hs]

theorem bubble_stop (hs : ¬startpos<pos) :
    bubble O startpos x heap pos=(.ok (),heap.set pos x) := by
  rw [bubble,if_neg hs]

theorem bubble_step {parent : α} (hs : startpos<pos) (hget : heap[(pos-1)/2]?=some parent) :
    bubble O startpos x heap pos=
      match O.compareLt x parent with
      | .error e => (.error e,heap)
      | .ok true => bubble O startpos x (heap.set pos parent) ((pos-1)/2)
      | .ok false => (.ok (),heap.set pos x) := by
  rw [bubble,if_pos hs]
  simp only [hget]

/-- The way up loses nothing, and where it raises the item lost is that of the last slot. -/
theorem bubble_contents (hpos : pos<heap.length) (hhere : heap[pos]?=some here) :
    (∀ h,bubble O startpos x heap pos=(.ok (),h) → h.Perm (heap.set pos x)) ∧
    ((∀ e h,bubble O startpos x heap pos=(.error e,h) → h.Perm (heap.set pos x)) ↔
      KeptUp O x here (wayUp heap startpos pos)) := by
  induction pos using Nat.strongRecOn generalizing heap here with
  | ind pos ih =>
    by_cases hs : startpos<pos
    swap
    · rw [bubble_stop hs,wayUp_stop hs]
      refine ⟨fun h heq => ?_,iff_of_true (fun e h heq => ?_) trivial⟩
      · rw [← (Prod.mk.inj heq).2]
      · cases (Prod.mk.inj heq).1
    have hhalf : (pos-1)/2<pos := by omega
    have hget := List.getElem?_eq_getElem (hhalf.trans hpos)
    rw [bubble_step hs hget,wayUp_step hs,hget]
    generalize heap[(pos-1)/2]=parent at hget ⊢
    rw [Option.toList_some,List.singleton_append,KeptUp]
    cases O.compareLt x parent with
    | error e =>
      refine ⟨fun h heq => ?_,?_⟩
      · cases (Prod.mk.inj heq).1
      · constructor
        · intro h
          exact (set_perm_iff hhere).mp (h e heap rfl).symm
        · rintro rfl e h heq
          obtain rfl := (Prod.mk.inj heq).2
          exact ((set_perm_iff hhere).mpr rfl).symm
    | ok less =>
      cases less with
      | false =>
        refine ⟨fun h heq => ?_,iff_of_true (fun e h heq => ?_) trivial⟩
        · rw [← (Prod.mk.inj heq).2]
        · cases (Prod.mk.inj heq).1
      | true =>
        have hslot : (heap.set pos parent)[(pos-1)/2]?=some parent := by
          rw [List.getElem?_set_ne (by omega),hget]
        have hrec := @ih _ hhalf (heap.set pos parent) parent
          (by rw [List.length_set]; omega) hslot
        have hmove : ((heap.set pos parent).set ((pos-1)/2) x).Perm (heap.set pos x) :=
          move_perm hpos hget (by omega)
        have hway : wayUp (heap.set pos parent) startpos ((pos-1)/2)=
            wayUp heap startpos ((pos-1)/2) :=
          wayUp_congr fun i hi => List.getElem?_set_ne (by omega)
        rw [hway] at hrec
        refine ⟨fun h heq => (hrec.1 h heq).trans hmove,?_⟩
        rw [← hrec.2]
        exact ⟨fun h e g heq => (h e g heq).trans hmove.symm,
          fun h e g heq => (h e g heq).trans hmove⟩

theorem siftdown_contents (hx : heap[pos]?=some x) :
    (∀ h,siftdown O heap startpos pos=(.ok (),h) → h.Perm heap) ∧
    ((∀ e h,siftdown O heap startpos pos=(.error e,h) → h.Perm heap) ↔
      KeptUp O x x (wayUp heap startpos pos)) := by
  have hlen := (List.getElem?_eq_some_iff.mp hx).1
  have h := @bubble_contents _ _ O _ startpos _ x _ hlen hx
  have hset : (heap.set pos x).Perm heap := (set_perm_iff hx).mpr rfl
  rw [siftdown,hx]
  refine ⟨fun g heq => (h.1 g heq).trans hset,?_⟩
  rw [← h.2]
  exact ⟨fun h e g heq => (h e g heq).trans hset.symm,fun h e g heq => (h e g heq).trans hset⟩

theorem picksRight_lt {right : Bool} {c : ℕ} (hc : c<heap.length)
    (h : picksRight O heap c=.ok right) : c+right.toNat<heap.length := by
  rw [picksRight] at h
  cases right with
  | false => exact hc
  | true =>
    by_cases hlen : c+1<heap.length
    · exact hlen
    · rw [if_neg hlen] at h
      cases h

theorem picksRight_congr {g h : List α} {c : ℕ} (hlen : g.length=h.length)
    (hagree : ∀ i,c ≤ i → g[i]?=h[i]?) : picksRight O g c=picksRight O h c := by
  rw [picksRight,picksRight,hlen,hagree c (le_refl c),hagree (c+1) (Nat.le_succ c)]

theorem sink_stop (hs : ¬2*pos+1<heap.length) : sink O heap pos=(.ok pos,heap) := by
  rw [sink,if_neg hs]

theorem sink_error {e : E} (hs : 2*pos+1<heap.length)
    (hpick : picksRight O heap (2*pos+1)=.error e) : sink O heap pos=(.error e,heap) := by
  rw [sink,if_pos hs,hpick]

theorem sink_step {right : Bool} {child : α} (hs : 2*pos+1<heap.length)
    (hpick : picksRight O heap (2*pos+1)=.ok right)
    (hget : heap[2*pos+1+right.toNat]?=some child) :
    sink O heap pos=sink O (heap.set pos child) (2*pos+1+right.toNat) := by
  rw [sink,if_pos hs,hpick]
  simp only [hget]

theorem keptDown_congr {above : List α} {g h : List α} (hlen : g.length=h.length)
    (hagree : ∀ i,pos < i → g[i]?=h[i]?) :
    KeptDown O g x pos here above ↔ KeptDown O h x pos here above := by
  induction hm : h.length-pos using Nat.strongRecOn generalizing pos here above with
  | ind m ih =>
    rw [KeptDown,KeptDown,hlen]
    by_cases hs : 2*pos+1<h.length
    · rw [if_pos hs,if_pos hs,picksRight_congr hlen fun i hi => hagree i (by omega)]
      cases hpick : picksRight O h (2*pos+1) with
      | error e => rfl
      | ok right =>
        simp only [hagree (2*pos+1+right.toNat) (by omega)]
        cases h[2*pos+1+right.toNat]? with
        | none => rfl
        | some child => exact ih _ (by omega) (fun i hi => hagree i (by omega)) rfl
    · rw [if_neg hs,if_neg hs]

/-- The rest of `siftup`. -/
def sinkThen (O : Comparing α E) (startpos : ℕ) (x : α) (heap : List α) (pos : ℕ) :
    Except E Unit×List α :=
  match sink O heap pos with
  | (.error e,h) => (.error e,h)
  | (.ok leaf,h) => siftdown O (h.set leaf x) startpos leaf

theorem sinkThen_contents (hpos : pos<heap.length) (hhere : heap[pos]?=some here)
    (hstart : startpos≤pos) :
    (∀ h,sinkThen O startpos x heap pos=(.ok (),h) → h.Perm (heap.set pos x)) ∧
    ((∀ e h,sinkThen O startpos x heap pos=(.error e,h) → h.Perm (heap.set pos x)) ↔
      KeptDown O heap x pos here (wayUp heap startpos pos)) := by
  induction hm : heap.length-pos using Nat.strongRecOn generalizing heap pos here with
  | ind m ih =>
    by_cases hs : 2*pos+1<heap.length
    swap
    · have hslot : (heap.set pos x)[pos]?=some x := List.getElem?_set_self hpos
      have hway : wayUp (heap.set pos x) startpos pos=wayUp heap startpos pos :=
        wayUp_congr fun i hi => List.getElem?_set_ne hi.ne'
      have hdown := @siftdown_contents _ _ O _ startpos _ _ hslot
      rw [hway] at hdown
      rw [sinkThen,sink_stop hs,KeptDown,if_neg hs]
      exact hdown
    cases hpick : picksRight O heap (2*pos+1) with
    | error e =>
      rw [sinkThen,sink_error hs hpick,KeptDown,if_pos hs,hpick]
      refine ⟨fun h heq => ?_,?_⟩
      · cases (Prod.mk.inj heq).1
      · constructor
        · intro h
          exact (set_perm_iff hhere).mp (h e heap rfl).symm
        · rintro rfl e h heq
          obtain rfl := (Prod.mk.inj heq).2
          exact ((set_perm_iff hhere).mpr rfl).symm
    | ok right =>
      have hlt := picksRight_lt hs hpick
      have hget := List.getElem?_eq_getElem hlt
      have hhalf : (2*pos+1+right.toNat-1)/2=pos := by
        have hright := right.toNat_le
        omega
      generalize heap[2*pos+1+right.toNat]=child at hget
      have hslot : (heap.set pos child)[2*pos+1+right.toNat]?=some child := by
        rw [List.getElem?_set_ne (by omega),hget]
      have hrec := @ih _ (by rw [List.length_set]; omega) (heap.set pos child) _ _
        (by rwa [List.length_set]) hslot (by omega) rfl
      have hmove : ((heap.set pos child).set (2*pos+1+right.toNat) x).Perm (heap.set pos x) :=
        move_perm hpos hget (by omega)
      have hway : wayUp (heap.set pos child) startpos (2*pos+1+right.toNat)=
          child::wayUp heap startpos pos := by
        rw [wayUp_step (by omega),hhalf,List.getElem?_set_self hpos,
          wayUp_congr fun i hi => List.getElem?_set_ne hi.ne']
        rfl
      have hkept : KeptDown O heap x pos here (wayUp heap startpos pos) ↔
          KeptDown O heap x (2*pos+1+right.toNat) child (child::wayUp heap startpos pos) := by
        rw [KeptDown,if_pos hs,hpick]
        simp only [hget]
      have hsame : sinkThen O startpos x heap pos=
          sinkThen O startpos x (heap.set pos child) (2*pos+1+right.toNat) := by
        rw [sinkThen,sink_step hs hpick hget]
        rfl
      rw [hway,keptDown_congr List.length_set fun i hi => List.getElem?_set_ne (by omega)] at hrec
      rw [hsame,hkept]
      refine ⟨fun h heq => (hrec.1 h heq).trans hmove,?_⟩
      rw [← hrec.2]
      exact ⟨fun h e g heq => (h e g heq).trans hmove.symm,
        fun h e g heq => (h e g heq).trans hmove⟩

theorem siftup_contents (hpos : pos<heap.length) :
    (∀ h,siftup O heap pos=(.ok (),h) → h.Perm heap) ∧
    ((∀ e h,siftup O heap pos=(.error e,h) → h.Perm heap) ↔ SiftKept O heap pos) := by
  have hget := List.getElem?_eq_getElem hpos
  generalize heap[pos]=newitem at hget
  have hset : (heap.set pos newitem).Perm heap := (set_perm_iff hget).mpr rfl
  have hrest := sinkThen_contents (O := O) (x := newitem) hpos hget (le_refl pos)
  rw [wayUp_stop (lt_irrefl pos)] at hrest
  have hsift : siftup O heap pos=sinkThen O pos newitem heap pos := by
    rw [siftup,hget]
    rfl
  have hkept : SiftKept O heap pos ↔ KeptDown O heap newitem pos newitem [] := by
    constructor
    · exact fun h => h newitem hget
    · intro h y hy
      obtain rfl : newitem=y := Option.some.inj (hget.symm.trans hy)
      exact h
  rw [hsift,hkept]
  refine ⟨fun h heq => (hrest.1 h heq).trans hset,?_⟩
  rw [← hrest.2]
  exact ⟨fun h e g heq => (h e g heq).trans hset.symm,fun h e g heq => (h e g heq).trans hset⟩

end Contents

end Heapq
end InterpretThis
