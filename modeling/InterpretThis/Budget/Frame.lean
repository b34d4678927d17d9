import InterpretThis.State.Memory

namespace InterpretThis.Budget

/-- A count of bytes. -/
structure Usize where
  bytes : Nat
  bounded : bytes ≤ usizeMax

def Usize.add (u : Usize) (n : Nat) : Usize := ⟨saturatingAdd u.bytes n,Nat.min_le_right _ _⟩

def Usize.sub (u : Usize) (n : Nat) : Usize :=
  ⟨saturatingSub u.bytes n,(Nat.sub_le _ _).trans u.bounded⟩

inductive Failure where
  | limitExceeded
  | nameError (name : String)
  | raised (m : String)
  deriving DecidableEq

/-- The interpreter's variables and its memory budget. Values are handles into a heap. The journal
records the signed amounts that the budget was changed by; nothing reads it. -/
structure InterpreterState (H V : Type) where
  heap : H
  vars : String → Option V
  nonlocalCells : Nat → Option (List (String×V))
  frameCellOwners : List (List (String×Nat))
  memoryUsedBytes : Usize
  maxMemoryBytes : Nat
  journal : List Int

section Variables

variable {H V : Type}

def InterpreterState.checkMemory (s : InterpreterState H V) : Option Failure :=
  if min s.maxMemoryBytes usizeMax<s.memoryUsedBytes.bytes then some .limitExceeded else none

def InterpreterState.trackAllocation (s : InterpreterState H V) (bytes : Nat) :
    InterpreterState H V :=
  {s with memoryUsedBytes := s.memoryUsedBytes.add bytes, journal := s.journal++[(bytes : Int)]}

def InterpreterState.releaseAllocation (s : InterpreterState H V) (bytes : Nat) :
    InterpreterState H V :=
  {s with memoryUsedBytes := s.memoryUsedBytes.sub bytes, journal := s.journal++[-(bytes : Int)]}

def InterpreterState.put (s : InterpreterState H V) (name : String) (v : Option V) :
    InterpreterState H V :=
  {s with vars := fun n => if n=name then v else s.vars n}

/-- The cell that the current frame keeps for a name is written as well. -/
def InterpreterState.writeThrough (s : InterpreterState H V) (name : String) (value : V) :
    InterpreterState H V :=
  match s.frameCellOwners.head?.bind fun owners => owners.lookup name with
  | some id =>
    {s with nonlocalCells := fun i =>
      if i=id then some ((name,value)::((s.nonlocalCells id).getD []).filter fun e => e.1≠name)
      else s.nonlocalCells i}
  | none => s

/-- An estimate leaves sizes in the caches of the containers it walks. -/
def InterpreterState.measured (estimateValueSize : H → V → Nat×H) (s : InterpreterState H V) (v : V) :
    InterpreterState H V :=
  {s with heap := (estimateValueSize s.heap v).2}

variable (estimateValueSize : H → V → Nat×H)

def setVariable (name : String) (value : V) (s : InterpreterState H V) :
    Option Failure×InterpreterState H V :=
  let s₁ := match s.vars name with
    | some old =>
      (s.measured estimateValueSize old).releaseAllocation (estimateValueSize s.heap old).1
    | none => s
  let s₂ :=
    (s₁.measured estimateValueSize value).trackAllocation (estimateValueSize s₁.heap value).1
  let s₃ := (s₂.writeThrough name value).put name (some value)
  (s₃.checkMemory,s₃)

def deleteVariable (name : String) (s : InterpreterState H V) :
    Option Failure×InterpreterState H V :=
  match s.vars name with
  | some old =>
    (none,((s.put name none).measured estimateValueSize old).releaseAllocation
      (estimateValueSize s.heap old).1)
  | none => (some (.nameError name),s)

/-- The delta that an in-place mutation reports. -/
def applyMemDelta (delta : Int) (s : InterpreterState H V) :
    Option Failure×InterpreterState H V :=
  if 0 ≤ delta then ((s.trackAllocation delta.toNat).checkMemory,s.trackAllocation delta.toNat)
  else (none,s.releaseAllocation (-delta).toNat)

/-- What the body of a function does to variables and memory: it binds and deletes names; works on
the heap, with a delta if it reports one; estimates a value; writes an augmented value straight into
its variable, with the size that was estimated before the right hand side ran; changes a value that
lies in its variable, as a method of a deque does; puts a variable back on leaving an inner frame;
registers a cell; or ends. -/
inductive Op (H V : Type) where
  | bind (name : String) (value : V)
  | unbind (name : String)
  | work (change : H → H) (delta : Option Int)
  | measure (value : V)
  | augment (name : String) (value : V) (oldSize : Nat)
  | slot (name : String) (value : V) (delta : Int)
  | putBack (name : String) (value : Option V)
  | own (name : String) (cell : Nat)
  | stop (outcome : Option Failure)

/-- One step, and whether the body goes on. -/
def Op.exec (s : InterpreterState H V) : Op H V → (Option Failure×Bool)×InterpreterState H V
  | .bind name value =>
    let (r,t) := setVariable estimateValueSize name value s
    ((r,r.isNone),t)
  | .unbind name =>
    let (r,t) := deleteVariable estimateValueSize name s
    ((r,r.isNone),t)
  | .work change none => ((none,true),{s with heap := change s.heap})
  | .work change (some delta) =>
    let (r,t) := applyMemDelta delta {s with heap := change s.heap}
    ((r,r.isNone),t)
  | .measure value => ((none,true),s.measured estimateValueSize value)
  | .augment name value oldSize =>
    let (r,t) := applyMemDelta ((estimateValueSize s.heap value).1-oldSize : Int)
      ((s.measured estimateValueSize value).put name (some value))
    ((r,r.isNone),t)
  | .slot name value delta =>
    let (r,t) := applyMemDelta delta (s.put name (some value))
    ((r,r.isNone),t)
  | .putBack name value => ((none,true),s.put name value)
  | .own name cell =>
    ((none,true),{s with frameCellOwners := match s.frameCellOwners with
      | owners::rest => ((name,cell)::owners)::rest
      | [] => []})
  | .stop outcome => ((outcome,false),s)

def executeBody : List (Op H V) → InterpreterState H V → Option Failure×InterpreterState H V
  | [],s => (none,s)
  | op::ops,s =>
    match op.exec estimateValueSize s with
    | ((_,true),t) => executeBody ops t
    | ((r,false),t) => (r,t)

end Variables

section Effects

variable {H V : Type}

@[simp] theorem writeThrough_heap (s : InterpreterState H V) (name : String) (value : V) :
    (s.writeThrough name value).heap=s.heap := by
  unfold InterpreterState.writeThrough
  split <;> rfl

@[simp] theorem writeThrough_vars (s : InterpreterState H V) (name : String) (value : V) :
    (s.writeThrough name value).vars=s.vars := by
  unfold InterpreterState.writeThrough
  split <;> rfl

@[simp] theorem writeThrough_journal (s : InterpreterState H V) (name : String) (value : V) :
    (s.writeThrough name value).journal=s.journal := by
  unfold InterpreterState.writeThrough
  split <;> rfl

@[simp] theorem writeThrough_memory (s : InterpreterState H V) (name : String) (value : V) :
    (s.writeThrough name value).memoryUsedBytes=s.memoryUsedBytes := by
  unfold InterpreterState.writeThrough
  split <;> rfl

@[simp] theorem writeThrough_limit (s : InterpreterState H V) (name : String) (value : V) :
    (s.writeThrough name value).maxMemoryBytes=s.maxMemoryBytes := by
  unfold InterpreterState.writeThrough
  split <;> rfl

/-- What the names are bound to after an operation. -/
def Op.varsAfter (s : InterpreterState H V) : Op H V → String → Option V
  | .bind name value => (s.put name (some value)).vars
  | .unbind name => (s.put name none).vars
  | .augment name value _ => (s.put name (some value)).vars
  | .slot name value _ => (s.put name (some value)).vars
  | .putBack name value => (s.put name value).vars
  | _ => s.vars

/-- The heap after an operation, but for the caches. -/
def Op.heapAfter (s : InterpreterState H V) : Op H V → H
  | .work change _ => change s.heap
  | _ => s.heap

@[simp] theorem put_same (s : InterpreterState H V) (name : String) (v : Option V) :
    (s.put name v).vars name=v := by
  simp [InterpreterState.put]

theorem put_other (s : InterpreterState H V) {name n : String} (v : Option V) (h : n≠name) :
    (s.put name v).vars n=s.vars n := by
  simp [InterpreterState.put,h]

variable (estimateValueSize : H → V → Nat×H)

/-- The heap after the estimates of a binding. -/
def heapBound (name : String) (value : V) (s : InterpreterState H V) : H :=
  match s.vars name with
  | some old => (estimateValueSize (estimateValueSize s.heap old).2 value).2
  | none => (estimateValueSize s.heap value).2

theorem setVariable_vars (name : String) (value : V) (s : InterpreterState H V) :
    (setVariable estimateValueSize name value s).2.vars=(s.put name (some value)).vars := by
  unfold setVariable
  cases h : s.vars name <;>
    simp [InterpreterState.put,InterpreterState.trackAllocation,InterpreterState.releaseAllocation,
      InterpreterState.measured]

theorem setVariable_heap (name : String) (value : V) (s : InterpreterState H V) :
    (setVariable estimateValueSize name value s).2.heap=heapBound estimateValueSize name value s := by
  unfold setVariable heapBound
  cases h : s.vars name <;>
    simp [InterpreterState.put,InterpreterState.trackAllocation,InterpreterState.releaseAllocation,
      InterpreterState.measured]

theorem deleteVariable_vars (name : String) (s : InterpreterState H V) :
    (deleteVariable estimateValueSize name s).2.vars=(s.put name none).vars := by
  unfold deleteVariable
  cases h : s.vars name with
  | some old => rfl
  | none =>
    funext n
    by_cases same : n=name
    · subst same
      simp [h]
    · rw [put_other s none same]

theorem applyMemDelta_vars (delta : Int) (s : InterpreterState H V) :
    (applyMemDelta delta s).2.vars=s.vars := by
  unfold applyMemDelta
  split <;> rfl

theorem applyMemDelta_heap (delta : Int) (s : InterpreterState H V) :
    (applyMemDelta delta s).2.heap=s.heap := by
  unfold applyMemDelta
  split <;> rfl

theorem exec_vars (s : InterpreterState H V) (op : Op H V) :
    (op.exec estimateValueSize s).2.vars=op.varsAfter s := by
  cases op with
  | bind name value => exact setVariable_vars estimateValueSize name value s
  | unbind name => exact deleteVariable_vars estimateValueSize name s
  | work change delta =>
    cases delta with
    | none => rfl
    | some delta => exact applyMemDelta_vars delta _
  | augment name value oldSize => exact applyMemDelta_vars _ _
  | slot name value delta => exact applyMemDelta_vars delta _
  | measure value => rfl
  | putBack name value => rfl
  | own name cell => rfl
  | stop outcome => rfl

section Kept

variable {estimateValueSize} {B : Type} {bodies : H → B}
  (kept : ∀h v,bodies (estimateValueSize h v).2=bodies h)

include kept

theorem heapBound_kept (name : String) (value : V) (s : InterpreterState H V) :
    bodies (heapBound estimateValueSize name value s)=bodies s.heap := by
  unfold heapBound
  cases s.vars name with
  | none => exact kept s.heap value
  | some old => exact (kept _ value).trans (kept s.heap old)

/-- An operation other than work on the heap changes what the estimates change, no more. -/
theorem exec_heap (s : InterpreterState H V) (op : Op H V) :
    bodies (op.exec estimateValueSize s).2.heap=bodies (op.heapAfter s) := by
  cases op with
  | bind name value =>
    exact (congrArg bodies (setVariable_heap estimateValueSize name value s)).trans
      (heapBound_kept kept name value s)
  | unbind name =>
    have removed : bodies (deleteVariable estimateValueSize name s).2.heap=bodies s.heap := by
      unfold deleteVariable
      cases s.vars name with
      | none => rfl
      | some old => exact kept s.heap old
    exact removed
  | work change delta =>
    cases delta with
    | none => rfl
    | some delta => exact congrArg bodies (applyMemDelta_heap delta _)
  | measure value => exact kept s.heap value
  | augment name value oldSize =>
    exact (congrArg bodies (applyMemDelta_heap _ _)).trans (kept s.heap value)
  | slot name value delta => exact congrArg bodies (applyMemDelta_heap delta _)
  | putBack name value => rfl
  | own name cell => rfl
  | stop outcome => rfl

end Kept

theorem setVariable_limit (name : String) (value : V) (s : InterpreterState H V) :
    (setVariable estimateValueSize name value s).2.maxMemoryBytes=s.maxMemoryBytes := by
  unfold setVariable
  cases h : s.vars name <;>
    simp [InterpreterState.put,InterpreterState.trackAllocation,InterpreterState.releaseAllocation,
      InterpreterState.measured]

theorem deleteVariable_limit (name : String) (s : InterpreterState H V) :
    (deleteVariable estimateValueSize name s).2.maxMemoryBytes=s.maxMemoryBytes := by
  unfold deleteVariable
  cases h : s.vars name <;> rfl

theorem applyMemDelta_limit (delta : Int) (s : InterpreterState H V) :
    (applyMemDelta delta s).2.maxMemoryBytes=s.maxMemoryBytes := by
  unfold applyMemDelta
  split <;> rfl

theorem exec_limit (s : InterpreterState H V) (op : Op H V) :
    (op.exec estimateValueSize s).2.maxMemoryBytes=s.maxMemoryBytes := by
  cases op with
  | bind name value => exact setVariable_limit estimateValueSize name value s
  | unbind name => exact deleteVariable_limit estimateValueSize name s
  | work change delta =>
    cases delta with
    | none => rfl
    | some delta => exact applyMemDelta_limit delta _
  | augment name value oldSize => exact applyMemDelta_limit _ _
  | slot name value delta => exact applyMemDelta_limit delta _
  | measure value => rfl
  | putBack name value => rfl
  | own name cell => rfl
  | stop outcome => rfl

/-- A body goes on only after an operation that did not fail. -/
theorem exec_goesOn {s t : InterpreterState H V} {op : Op H V} {r : Option Failure}
    (h : op.exec estimateValueSize s=((r,true),t)) : r=none := by
  have isNone : ∀x : Option Failure×InterpreterState H V,
      ((x.1,x.1.isNone),x.2)=((r,true),t) → r=none := by
    intro x hx
    have first := congrArg (fun y => y.1.1) hx
    have second := congrArg (fun y => y.1.2) hx
    dsimp only at first second
    rw [first] at second
    exact Option.isNone_iff_eq_none.mp second
  cases op with
  | bind name value => exact isNone (setVariable estimateValueSize name value s) h
  | unbind name => exact isNone (deleteVariable estimateValueSize name s) h
  | work change delta =>
    cases delta with
    | none => exact (congrArg (fun y => y.1.1) h).symm
    | some delta => exact isNone (applyMemDelta delta {s with heap := change s.heap}) h
  | measure value => exact (congrArg (fun y => y.1.1) h).symm
  | augment name value oldSize =>
    exact isNone (applyMemDelta ((estimateValueSize s.heap value).1-oldSize : Int)
      ((s.measured estimateValueSize value).put name (some value))) h
  | slot name value delta => exact isNone (applyMemDelta delta (s.put name (some value))) h
  | putBack name value => exact (congrArg (fun y => y.1.1) h).symm
  | own name cell => exact (congrArg (fun y => y.1.1) h).symm
  | stop outcome => nomatch congrArg (fun y => y.1.2) h

end Effects

end InterpretThis.Budget
