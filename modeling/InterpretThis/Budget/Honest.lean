import InterpretThis.Budget.Worth
import InterpretThis.Budget.Size

namespace InterpretThis.Place

open Budget

/-- The in-place changes of a container, with positions and keys resolved. A dict loses a key to its
`pop` and `popitem`, or to `del`. -/
inductive Mutation (K : Type) where
  | append (x : Value K)
  | extend (xs : List (Value K))
  | insert (pos : Nat) (x : Value K)
  | pop (pos : Nat)
  | delItem (pos : Nat)
  | setItem (pos : Nat) (x : Value K)
  | reverse
  | clear
  | dictSet (key : K) (v : Value K)
  | setDefault (key : K) (v : Value K)
  | dictPop (key : K)
  | dictDelItem (key : K)
  | add (pos : Nat) (x : Value K)
  | discard (pos : Nat) (arg : Value K)
  | byteExtend (bytes : List UInt8)
  | byteInsert (pos : Nat) (byte : UInt8)
  | byteRemove (pos : Nat)
  | setByte (pos : Nat) (byte : UInt8)
  | setField (name : String) (v : Value K)

/-- What an in-place change comes to: the new contents, the bytes it reports for keys, names and
bytes, and the signed values that it estimates before it locks the container, while the lock is
held, and after it has put the new contents there. -/
structure Effect (K : Type) where
  body : Body K
  fixed : Int
  before : List (Int×Value K)
  during : List (Int×Value K)
  after : List (Int×Value K)

section Apply

variable {K : Type} [DecidableEq K] (keySize : K → Nat)

def gained (vs : List (Value K)) : List (Int×Value K) := vs.map fun v => (1,v)

def lost (vs : List (Value K)) : List (Int×Value K) := vs.map fun v => (-1,v)

def keysSize (map : List (K×Value K)) : Nat := (map.map fun e => keySize e.1).sum

/-- A `BTreeMap` keeps its names in order. -/
def insertField (fs : List (String×Value K)) (name : String) (v : Value K) : List (String×Value K) :=
  fs.takeWhile (fun e => e.1<name)++(name,v)::fs.dropWhile fun e => e.1<name

/-- An operation that fails changes nothing. -/
def Mutation.apply : Mutation K → Body K → Option (Effect K)
  | .append x,.list items => some ⟨.list (items++[x]),0,[],[(1,x)],[]⟩
  | .extend xs,.list items => some ⟨.list (items++xs),0,[],gained xs,[]⟩
  | .insert pos x,.list items =>
    some ⟨.list (items.insertIdx (min pos items.length) x),0,[],[(1,x)],[]⟩
  | .pop pos,.list items =>
    items[pos]?.map fun x => ⟨.list (items.eraseIdx pos),0,[],[(-1,x)],[]⟩
  | .delItem pos,.list items =>
    items[pos]?.map fun x => ⟨.list (items.eraseIdx pos),0,[],[],[(-1,x)]⟩
  | .setItem pos x,.list items =>
    items[pos]?.map fun old => ⟨.list (items.set pos x),0,[],[(-1,old),(1,x)],[]⟩
  | .reverse,.list items => some ⟨.list items.reverse,0,[],[],[]⟩
  | .clear,.list items => some ⟨.list [],0,[],lost items,[]⟩
  | .dictSet key v,.dict map =>
    match map.lookup key with
    | some old => some ⟨.dict (replaceEntry map key v),0,[(1,v)],[(-1,old)],[]⟩
    | none => some ⟨.dict (map++[(key,v)]),keySize key,[(1,v)],[],[]⟩
  | .setDefault key v,.dict map =>
    match map.lookup key with
    | some _ => some ⟨.dict map,0,[],[],[]⟩
    | none => some ⟨.dict (map++[(key,v)]),keySize key,[],[(1,v)],[]⟩
  | .dictPop key,.dict map =>
    (map.lookup key).map fun old =>
      ⟨.dict (map.filter fun e => e.1≠key),-(keySize key : Int),[],[(-1,old)],[]⟩
  | .dictDelItem key,.dict map =>
    (map.lookup key).map fun old =>
      ⟨.dict (map.filter fun e => e.1≠key),-(keySize key : Int),[],[],[(-1,old)]⟩
  | .clear,.dict map => some ⟨.dict [],-(keysSize keySize map : Int),[],lost (map.map (·.2)),[]⟩
  | .add pos x,.set items =>
    some ⟨.set (items.insertIdx (min pos items.length) x),0,[(1,x)],[],[]⟩
  | .discard pos arg,.set items =>
    items[pos]?.map fun _ => ⟨.set (items.eraseIdx pos),0,[(-1,arg)],[],[]⟩
  | .pop pos,.set items =>
    items[pos]?.map fun x => ⟨.set (items.eraseIdx pos),0,[],[(-1,x)],[]⟩
  | .clear,.set items => some ⟨.set [],0,[],lost items,[]⟩
  | .byteExtend bytes,.byteArray old => some ⟨.byteArray (old++bytes),bytes.length,[],[],[]⟩
  | .byteInsert pos byte,.byteArray old =>
    some ⟨.byteArray (old.insertIdx (min pos old.length) byte),1,[],[],[]⟩
  | .byteRemove pos,.byteArray old =>
    old[pos]?.map fun _ => ⟨.byteArray (old.eraseIdx pos),-1,[],[],[]⟩
  | .setByte pos byte,.byteArray old =>
    old[pos]?.map fun _ => ⟨.byteArray (old.set pos byte),0,[],[],[]⟩
  | .reverse,.byteArray old => some ⟨.byteArray old.reverse,0,[],[],[]⟩
  | .clear,.byteArray old => some ⟨.byteArray [],-(old.length : Int),[],[],[]⟩
  | .setField name v,.fields fs =>
    match fs.lookup name with
    | some old => some ⟨.fields (replaceField fs name v),0,[(1,v)],[(-1,old)],[]⟩
    | none => some ⟨.fields (insertField fs name v),name.utf8ByteSize,[(1,v)],[],[]⟩
  | _,_ => none

def estimateEach (locked : List Nat) : List (Int×Value K) → Heap K → Int×Heap K
  | [],h => (0,h)
  | (sign,v)::rest,h =>
    let (size,t) := estimateUnder keySize locked h v
    let (delta,u) := estimateEach locked rest t
    (sign*size+delta,u)

/-- The containers of the route are locked as long as the operation runs, and have lost their caches
by then. -/
def Effect.perform (route : List Nat) (a : Nat) (e : Effect K) (h : Heap K) : Int×Heap K :=
  let h₀ := route.foldl (fun t c => t.setBody c (t.body c)) h
  let (d₁,h₁) := estimateEach keySize route e.before h₀
  let (d₂,h₂) := estimateEach keySize (a::route) e.during h₁
  let (d₃,h₃) := estimateEach keySize route e.after (h₂.setBody a e.body)
  (e.fixed+d₁+d₂+d₃,h₃)

/-- A step of a program as the budget sees it: an operation on names and memory, or an in-place
change of a container through whichever alias, reached over the containers of a route. -/
inductive Step (K : Type) where
  | op (o : Op (Heap K) (Value K))
  | mutate (route : List Nat) (addr : Nat) (m : Mutation K)

/-- The operation that a step comes to in a state. -/
def Step.toOp (s : State K) : Step K → Op (Heap K) (Value K)
  | .op o => o
  | .mutate route a m =>
    match m.apply keySize (s.heap.body a) with
    | some e =>
      .work (fun h => (e.perform keySize route a h).2) (some (e.perform keySize route a s.heap).1)
    | none => .stop (some (.raised "the container has no such operation"))

def runSteps : List (Step K) → State K → Option Budget.Failure×State K
  | [],s => (none,s)
  | step::steps,s =>
    match (step.toOp keySize s).exec (estimateValueSize keySize) s with
    | ((_,true),t) => runSteps steps t
    | ((r,false),t) => (r,t)

end Apply

open Sharing

variable {K : Type} (keySize : K → Nat)

section Live

def ownOf : Option (Value K) → Nat
  | some v => v.ownSize keySize
  | none => 0

/-- The container is reachable from a variable. -/
def Live (names : List String) (s : State K) (a : Nat) : Prop :=
  ∃n ∈ names,∃v,s.vars n=some v ∧ ∃r ∈ v.handles,Reaches (contents s.heap) [] r a

/-- The size of what the variables hold, with every shared container counted once. -/
noncomputable def liveSize (names : List String) (s : State K) : Nat :=
  (names.map fun n => ownOf keySize (s.vars n)).sum+
    total (ownWeight keySize s.heap) (Finset.range s.heap.length) (Live names s)

theorem reached_le_recount (h : Heap K) (v : Value K) :
    v.ownSize keySize+total (ownWeight keySize h) (Finset.range h.length)
        (fun a => ∃r ∈ v.handles,Reaches (contents h) [] r a) ≤ recount keySize h v := by
  have each := total_any_le (w := ownWeight keySize h) (U := Finset.range h.length) v.handles
    (fun r => Reaches (contents h) [] r)
    (walk (contents h) (ownWeight keySize h) (holdsLock h) (2*h.length+2) [])
    fun r _ => total_reached_le_walk (holdsLock h) (contents_outside h) _ _ r (unlocked_lt h [])
  have same : sharedSize keySize h.body (2*h.length+2) []=
      walk (contents h) (ownWeight keySize h) (holdsLock h) (2*h.length+2) [] :=
    funext fun a => sharedSize_eq_walk keySize h (2*h.length+2) [] a
  unfold recount
  rw [Value.sizeWith_eq,same]
  omega

theorem reached_le_worthOf (h : Heap K) (v : Option (Value K)) :
    (ownOf keySize v+total (ownWeight keySize h) (Finset.range h.length)
        (fun a => ∃w,v=some w ∧ ∃r ∈ w.handles,Reaches (contents h) [] r a) : Int) ≤
      worthOf (recount keySize) h v := by
  cases v with
  | none =>
    have nothing : total (ownWeight keySize h) (Finset.range h.length)
        (fun a => ∃w,(none : Option (Value K))=some w ∧
          ∃r ∈ w.handles,Reaches (contents h) [] r a)=0 :=
      total_of_none fun a _ ⟨w,hw,_⟩ => nomatch hw
    rw [nothing]
    rfl
  | some v =>
    have one := reached_le_recount keySize h v
    have same : total (ownWeight keySize h) (Finset.range h.length)
        (fun a => ∃w,some v=some w ∧ ∃r ∈ w.handles,Reaches (contents h) [] r a)=
        total (ownWeight keySize h) (Finset.range h.length)
          (fun a => ∃r ∈ v.handles,Reaches (contents h) [] r a) :=
      total_congr fun a _ =>
        ⟨fun ⟨w,hw,rest⟩ => Option.some.inj hw ▸ rest,fun rest => ⟨v,rfl,rest⟩⟩
    rw [same]
    dsimp only [ownOf,worthOf]
    omega

/-- The live size is at most what the variables count one by one. -/
theorem liveSize_le_worth (names : List String) (s : State K) :
    (liveSize keySize names s : Int) ≤ worth (recount keySize) names s := by
  have shared := total_any_le (w := ownWeight keySize s.heap) (U := Finset.range s.heap.length)
    names (fun n a => ∃v,s.vars n=some v ∧ ∃r ∈ v.handles,Reaches (contents s.heap) [] r a)
    (fun n => total (ownWeight keySize s.heap) (Finset.range s.heap.length)
      fun a => ∃v,s.vars n=some v ∧ ∃r ∈ v.handles,Reaches (contents s.heap) [] r a)
    fun n _ => Nat.le_refl _
  have sums : ∀ns : List String,
      ((ns.map fun n => ownOf keySize (s.vars n)).sum+
        (ns.map fun n => total (ownWeight keySize s.heap) (Finset.range s.heap.length)
          fun a => ∃v,s.vars n=some v ∧
            ∃r ∈ v.handles,Reaches (contents s.heap) [] r a).sum : Int) ≤
        worth (recount keySize) ns s := by
    intro ns
    induction ns with
    | nil => exact le_refl _
    | cons n ns ih =>
      have head := reached_le_worthOf keySize s.heap (s.vars n)
      unfold worth at ih ⊢
      simp only [List.map_cons,List.sum_cons,Nat.cast_add] at ih ⊢
      omega
  have all := sums names
  unfold liveSize Live
  rw [Nat.cast_add]
  omega

end Live

section Charges

/-- What the variables count one by one is charged, and within the limit. -/
def Honest (names : List String) (s : State K) : Prop :=
  worth (recount keySize) names s ≤ s.memoryUsedBytes.bytes ∧
    s.memoryUsedBytes.bytes ≤ s.maxMemoryBytes

/-- The value's estimate is not behind its size by a stale cache. -/
def NotLow (h : Heap K) (v : Value K) : Prop :=
  recount keySize h v ≤ (estimateValueSize keySize h v).1

/-- The value's estimate is not ahead of its size by a stale cache. -/
def NotHigh (h : Heap K) (v : Value K) : Prop :=
  (estimateValueSize keySize h v).1 ≤ recount keySize h v

/-- A name is bound while no stale cache misjudges the value that goes or the one that comes. -/
def ChargedBinding (name : String) (value : Value K) (s : State K) : Prop :=
  match s.vars name with
  | some old =>
    NotHigh keySize s.heap old ∧ NotLow keySize (estimateValueSize keySize s.heap old).2 value
  | none => NotLow keySize s.heap value

/-- The operation charges what it adds to the sizes of the variables: a name is bound, rebound or
deleted while no stale cache misjudges the value that goes or the one that comes, and any other
operation reports at least the growth. -/
def Charged (names : List String) (s : State K) : Op (Heap K) (Value K) → Prop
  | .bind name value => ChargedBinding keySize name value s
  | .unbind name => ∀old,s.vars name=some old → NotHigh keySize s.heap old
  | .work change delta =>
    worth (recount keySize) names {s with heap := change s.heap}-
      worth (recount keySize) names s ≤ delta.getD 0
  | .measure _ => True
  | .augment name value oldSize =>
    worth (recount keySize) names (s.put name (some value))-worth (recount keySize) names s ≤
      (estimateValueSize keySize s.heap value).1-oldSize
  | .slot name value delta =>
    worth (recount keySize) names (s.put name (some value))-
      worth (recount keySize) names s ≤ delta
  | .putBack name value =>
    worth (recount keySize) names (s.put name value)-worth (recount keySize) names s ≤ 0
  | .own _ _ => True
  | .stop _ => True

theorem worth_nonneg (names : List String) (s : State K) :
    0 ≤ worth (recount keySize) names s := by
  have live := liveSize_le_worth keySize names s
  omega

theorem worthOf_le_worth {names : List String} (nodup : names.Nodup) {name : String}
    (inside : name ∈ names) (s : State K) :
    worthOf (recount keySize) s.heap (s.vars name) ≤ worth (recount keySize) names s := by
  have without : worth (recount keySize) names (s.put name none)=_ := worth_put nodup inside s none
  have rest := worth_nonneg keySize names (s.put name none)
  have nothing : worthOf (recount keySize) s.heap none=0 := rfl
  omega

variable {keySize} {names : List String} {s t : State K}

/-- A delta that is no less than the growth is enough. -/
theorem applyMemDelta_honest {delta : Int} {u : State K}
    (memory : u.memoryUsedBytes=s.memoryUsedBytes) (limit : u.maxMemoryBytes=s.maxMemoryBytes)
    (bounded : s.maxMemoryBytes<usizeMax) (honest : Honest keySize names s)
    (growth : worth (recount keySize) names u-worth (recount keySize) names s ≤ delta)
    (done : applyMemDelta delta u=(none,t)) : Honest keySize names t := by
  obtain ⟨covers,within⟩ := honest
  have positive := worth_nonneg keySize names u
  unfold applyMemDelta at done
  split_ifs at done with grows
  · have check := congrArg Prod.fst done
    have state := congrArg Prod.snd done
    dsimp only at check state
    subst state
    unfold InterpreterState.checkMemory at check
    split_ifs at check with excess
    have same : worth (recount keySize) names (u.trackAllocation delta.toNat)=
        worth (recount keySize) names u := worth_congr rfl rfl
    unfold Honest
    rw [same]
    dsimp only [InterpreterState.trackAllocation,Usize.add,saturatingAdd] at excess ⊢
    rw [memory,limit] at *
    omega
  · have state := congrArg Prod.snd done
    dsimp only at state
    subst state
    have same : worth (recount keySize) names (u.releaseAllocation (-delta).toNat)=
        worth (recount keySize) names u := worth_congr rfl rfl
    unfold Honest
    rw [same]
    dsimp only [InterpreterState.releaseAllocation,Usize.sub,saturatingSub]
    rw [memory,limit] at *
    omega

/-- Caches do not count. -/
theorem worth_bodies {u v : State K} (bodies : u.heap.bodies=v.heap.bodies) (vars : u.vars=v.vars) :
    worth (recount keySize) names u=worth (recount keySize) names v :=
  worth_congr (recount_congr bodies) vars

theorem setVariable_honest {name : String} {value : Value K} (bounded : s.maxMemoryBytes<usizeMax)
    (nodup : names.Nodup) (inside : name ∈ names) (honest : Honest keySize names s)
    (charged : ChargedBinding keySize name value s)
    (done : setVariable (estimateValueSize keySize) name value s=(none,t)) :
    Honest keySize names t := by
  obtain ⟨covers,within⟩ := honest
  have after : worth (recount keySize) names (s.put name (some value))=_ :=
    worth_put nodup inside s (some value)
  have part := worthOf_le_worth keySize nodup inside s
  have added : worthOf (recount keySize) s.heap (some value)=recount keySize s.heap value := rfl
  have same : worth (recount keySize) names t=
      worth (recount keySize) names (s.put name (some value)) := by
    apply worth_bodies
    · have heap := setVariable_heap (estimateValueSize keySize) name value s
      rw [done] at heap
      exact (congrArg Heap.bodies heap).trans
        (heapBound_kept estimateValueSize_bodies name value s)
    · have vars := setVariable_vars (estimateValueSize keySize) name value s
      rw [done] at vars
      exact vars
  unfold ChargedBinding NotHigh NotLow at charged
  unfold setVariable at done
  have check := congrArg Prod.fst done
  have state := congrArg Prod.snd done
  dsimp only at check state
  unfold InterpreterState.checkMemory at check
  split_ifs at check with excess
  have limit : t.maxMemoryBytes=s.maxMemoryBytes := by
    have kept := setVariable_limit (estimateValueSize keySize) name value s
    unfold setVariable at kept
    dsimp only at kept
    rwa [state] at kept
  unfold Honest
  rw [same,limit]
  rw [state,limit] at excess
  have memory : ∀m : InterpreterState (Heap K) (Value K),((m.writeThrough name value).put name
      (some value)).memoryUsedBytes=m.memoryUsedBytes := fun m => writeThrough_memory m name value
  cases held : s.vars name with
  | none =>
    rw [held] at after part charged state
    have used := congrArg (fun u => u.memoryUsedBytes.bytes) state
    rw [memory] at used
    have nothing : worthOf (recount keySize) s.heap none=0 := rfl
    dsimp only [InterpreterState.trackAllocation,InterpreterState.measured,Usize.add,saturatingAdd]
      at used charged
    omega
  | some old =>
    rw [held] at after part charged state
    have used := congrArg (fun u => u.memoryUsedBytes.bytes) state
    rw [memory] at used
    have gone : worthOf (recount keySize) s.heap (some old)=recount keySize s.heap old := rfl
    have still : recount keySize (estimateValueSize keySize s.heap old).2 value=
        recount keySize s.heap value :=
      congrFun (recount_congr (estimateValueSize_bodies s.heap old)) value
    dsimp only [InterpreterState.trackAllocation,InterpreterState.releaseAllocation,
      InterpreterState.measured,Usize.add,saturatingAdd,Usize.sub,saturatingSub] at used charged
    omega

theorem deleteVariable_honest {name : String} (nodup : names.Nodup) (inside : name ∈ names)
    (honest : Honest keySize names s)
    (charged : ∀old,s.vars name=some old → NotHigh keySize s.heap old)
    (done : deleteVariable (estimateValueSize keySize) name s=(none,t)) :
    Honest keySize names t := by
  obtain ⟨covers,within⟩ := honest
  have after : worth (recount keySize) names (s.put name none)=_ := worth_put nodup inside s none
  have part := worthOf_le_worth keySize nodup inside s
  have nothing : worthOf (recount keySize) s.heap none=0 := rfl
  unfold deleteVariable at done
  cases held : s.vars name with
  | none =>
    rw [held] at done
    nomatch done
  | some old =>
    rw [held] at done
    have state := congrArg Prod.snd done
    dsimp only at state
    subst state
    have low := charged old held
    unfold NotHigh at low
    rw [held] at after part
    have gone : worthOf (recount keySize) s.heap (some old)=recount keySize s.heap old := rfl
    have same : worth (recount keySize) names
        (((s.put name none).measured (estimateValueSize keySize) old).releaseAllocation
          (estimateValueSize keySize s.heap old).1)=
        worth (recount keySize) names (s.put name none) :=
      worth_bodies (estimateValueSize_bodies s.heap old) rfl
    unfold Honest
    rw [same]
    dsimp only [InterpreterState.releaseAllocation,InterpreterState.measured,InterpreterState.put,
      Usize.sub,saturatingSub] at after ⊢
    omega

theorem worth_measured (v : Value K) :
    worth (recount keySize) names (s.measured (estimateValueSize keySize) v)=
      worth (recount keySize) names s :=
  worth_bodies (estimateValueSize_bodies s.heap v) rfl

theorem augment_honest {name : String} {value : Value K} {oldSize : Int}
    (bounded : s.maxMemoryBytes<usizeMax) (honest : Honest keySize names s)
    (growth : worth (recount keySize) names (s.put name (some value))-
      worth (recount keySize) names s ≤ (estimateValueSize keySize s.heap value).1-oldSize)
    (done : applyMemDelta ((estimateValueSize keySize s.heap value).1-oldSize : Int)
      ((s.measured (estimateValueSize keySize) value).put name (some value))=(none,t)) :
    Honest keySize names t := by
  have same : worth (recount keySize) names
      ((s.measured (estimateValueSize keySize) value).put name (some value))=
      worth (recount keySize) names (s.put name (some value)) :=
    worth_bodies (estimateValueSize_bodies s.heap value) rfl
  have grows : worth (recount keySize) names
      ((s.measured (estimateValueSize keySize) value).put name (some value))-
      worth (recount keySize) names s ≤ (estimateValueSize keySize s.heap value).1-oldSize := by
    rw [same]
    exact growth
  exact applyMemDelta_honest (s := s)
    (u := (s.measured (estimateValueSize keySize) value).put name (some value)) rfl rfl bounded
    honest grows done

/-- One operation that charges what it adds. -/
theorem exec_honest {op : Op (Heap K) (Value K)} {goesOn : Bool} (bounded : s.maxMemoryBytes<usizeMax)
    (nodup : names.Nodup) (inside : ∀n ∈ op.bound,n ∈ names) (honest : Honest keySize names s)
    (charged : Charged keySize names s op)
    (done : op.exec (estimateValueSize keySize) s=((none,goesOn),t)) : Honest keySize names t := by
  cases op with
  | bind name value =>
    rcases hset : setVariable (estimateValueSize keySize) name value s with ⟨r,u⟩
    unfold Op.exec at done
    dsimp only at done
    rw [hset] at done
    cases done
    exact setVariable_honest bounded nodup (inside name List.mem_cons_self) honest charged hset
  | unbind name =>
    rcases hdelete : deleteVariable (estimateValueSize keySize) name s with ⟨r,u⟩
    unfold Op.exec at done
    dsimp only at done
    rw [hdelete] at done
    cases done
    exact deleteVariable_honest nodup (inside name List.mem_cons_self) honest charged hdelete
  | work change delta =>
    cases delta with
    | none =>
      cases done
      obtain ⟨covers,within⟩ := honest
      dsimp only [Charged,Option.getD_none] at charged
      unfold Honest
      dsimp only
      omega
    | some delta =>
      rcases hdelta : applyMemDelta delta {s with heap := change s.heap} with ⟨r,u⟩
      unfold Op.exec at done
      dsimp only at done
      rw [hdelta] at done
      cases done
      exact applyMemDelta_honest (s := s) (u := {s with heap := change s.heap}) rfl rfl bounded honest
        charged hdelta
  | measure value =>
    cases done
    unfold Honest
    rw [worth_measured]
    exact honest
  | augment name value oldSize =>
    rcases hdelta : applyMemDelta ((estimateValueSize keySize s.heap value).1-oldSize : Int)
      ((s.measured (estimateValueSize keySize) value).put name (some value)) with ⟨r,u⟩
    unfold Op.exec at done
    dsimp only at done
    rw [hdelta] at done
    cases done
    exact augment_honest bounded honest charged hdelta
  | slot name value delta =>
    rcases hdelta : applyMemDelta delta (s.put name (some value)) with ⟨r,u⟩
    unfold Op.exec at done
    dsimp only at done
    rw [hdelta] at done
    cases done
    exact applyMemDelta_honest (s := s) (u := s.put name (some value)) rfl rfl bounded honest charged
      hdelta
  | putBack name value =>
    cases done
    obtain ⟨covers,within⟩ := honest
    dsimp only [Charged] at charged
    unfold Honest
    dsimp only [InterpreterState.put] at charged ⊢
    omega
  | own name cell =>
    cases done
    exact honest
  | stop outcome =>
    cases done
    exact honest

end Charges

section Runs

variable [DecidableEq K]

/-- The names that a step binds, puts back or deletes. -/
def Step.names : Step K → List String
  | .op (.bind name _) => [name]
  | .op (.unbind name) => [name]
  | .op (.augment name _ _) => [name]
  | .op (.slot name _ _) => [name]
  | .op (.putBack name _) => [name]
  | _ => []

def namesOf (steps : List (Step K)) : List String := (steps.flatMap Step.names).dedup

/-- Every step of the run that is carried out charges what it adds. -/
def ChargedRun (names : List String) : List (Step K) → State K → Prop
  | [],_ => True
  | step::steps,s => Charged keySize names s (step.toOp keySize s) ∧
      (((step.toOp keySize s).exec (estimateValueSize keySize) s).1.2=true →
        ChargedRun names steps ((step.toOp keySize s).exec (estimateValueSize keySize) s).2)

variable {keySize} {names : List String} {s t : State K}

variable (keySize) in
theorem toOp_bound (step : Step K) (inside : ∀n ∈ step.names,n ∈ names) :
    ∀n ∈ (step.toOp keySize s).bound,n ∈ names := by
  cases step with
  | op o =>
    intro n hn
    apply inside
    cases o <;> first | exact hn | nomatch hn
  | mutate route a m =>
    intro n hn
    unfold Step.toOp at hn
    dsimp only at hn
    split at hn <;> nomatch hn

variable (keySize) in
theorem exec_other (step : Step K) {n : String} (other : n ∉ step.names) :
    ((step.toOp keySize s).exec (estimateValueSize keySize) s).2.vars n=s.vars n := by
  rw [exec_vars]
  cases step with
  | op o =>
    cases o with
    | bind name value => exact put_other s _ fun same => other (same ▸ List.mem_cons_self)
    | unbind name => exact put_other s _ fun same => other (same ▸ List.mem_cons_self)
    | augment name value delta => exact put_other s _ fun same => other (same ▸ List.mem_cons_self)
    | slot name value delta => exact put_other s _ fun same => other (same ▸ List.mem_cons_self)
    | measure value => rfl
    | putBack name value => exact put_other s _ fun same => other (same ▸ List.mem_cons_self)
    | work change delta => rfl
    | own name cell => rfl
    | stop outcome => rfl
  | mutate route a m =>
    unfold Step.toOp
    dsimp only
    split <;> rfl

theorem runSteps_honest (nodup : names.Nodup) (steps : List (Step K))
    (inside : ∀step ∈ steps,∀n ∈ step.names,n ∈ names) (bounded : s.maxMemoryBytes<usizeMax)
    (honest : Honest keySize names s) (charged : ChargedRun keySize names steps s)
    (done : runSteps keySize steps s=(none,t)) : Honest keySize names t := by
  induction steps generalizing s with
  | nil =>
    cases done
    exact honest
  | cons step steps ih =>
    obtain ⟨head,tail⟩ := charged
    have bound := toOp_bound keySize (s := s) step (inside step List.mem_cons_self)
    have limit := exec_limit (estimateValueSize keySize) s (step.toOp keySize s)
    unfold runSteps at done
    rcases hexec : (step.toOp keySize s).exec (estimateValueSize keySize) s with ⟨⟨r,goesOn⟩,u⟩
    rw [hexec] at done tail limit
    cases goesOn with
    | true =>
      have fine := exec_goesOn (estimateValueSize keySize) hexec
      subst fine
      apply ih
      · exact fun o ho => inside o (List.mem_cons_of_mem _ ho)
      · rw [limit]
        exact bounded
      · exact exec_honest bounded nodup bound honest head hexec
      · exact tail rfl
      · exact done
    | false =>
      cases done
      exact exec_honest bounded nodup bound honest head hexec

variable (keySize) in
theorem runSteps_other (steps : List (Step K)) {n : String}
    (other : ∀step ∈ steps,n ∉ step.names) :
    (runSteps keySize steps s).2.vars n=s.vars n := by
  induction steps generalizing s with
  | nil => rfl
  | cons step steps ih =>
    have head := exec_other keySize (s := s) step (other step List.mem_cons_self)
    unfold runSteps
    rcases hexec : (step.toOp keySize s).exec (estimateValueSize keySize) s with ⟨⟨r,goesOn⟩,u⟩
    rw [hexec] at head
    cases goesOn with
    | true => exact (ih fun o ho => other o (List.mem_cons_of_mem _ ho)).trans head
    | false => exact head

theorem mem_namesOf (steps : List (Step K)) :
    ∀step ∈ steps,∀n ∈ step.names,n ∈ namesOf steps := fun step hstep _ hn =>
  List.mem_dedup.mpr (List.mem_flatMap.mpr ⟨step,hstep,hn⟩)

/-- A fresh interpreter, with the containers that a run is going to bind. -/
def freshState (heap : Heap String) (limit : Nat) : State String where
  heap := heap
  vars _ := none
  nonlocalCells _ := none
  frameCellOwners := []
  memoryUsedBytes := ⟨0,Nat.zero_le _⟩
  maxMemoryBytes := limit
  journal := []

def appendRun : List (Step String) :=
  [.op (.bind "a" (.list 0)),.mutate [] 0 (.append (.int 1))]

/-- A list bound to two names keeps its size in its cache until an element is assigned; a bytearray
grows by the bytes it reports. -/
def aliasRun : List (Step String) :=
  [.op (.bind "a" (.list 0)),.op (.bind "b" (.list 0)),.mutate [] 0 (.setItem 0 (.int 2)),
    .op (.unbind "b"),.op (.bind "c" (.byteArray 1)),.mutate [] 1 (.byteExtend [7])]

def aliasStart : State String := freshState [⟨.list [.int 1],none⟩,⟨.byteArray [],none⟩] 1000

example : (runSteps String.utf8ByteSize (aliasRun.take 1) aliasStart).2.heap.head?.bind
    Object.sizeCache=some 112 := rfl

theorem aliasRun_charged : ChargedRun String.utf8ByteSize (namesOf aliasRun) aliasRun aliasStart := by
  have names : namesOf aliasRun=["a","b","c"] := by decide
  rw [names]
  refine ⟨Nat.le_refl 112,fun _ => ⟨Nat.le_refl 112,fun _ => ⟨Int.le_refl 0,fun _ => ⟨?_,fun _ =>
    ⟨Nat.le_refl 24,fun _ => ⟨Int.le_refl 1,fun _ => trivial⟩⟩⟩⟩⟩⟩
  intro old h
  cases h
  exact Nat.le_refl 112

end Runs

end InterpretThis.Place
