import InterpretThis.Ast.Binding
import Mathlib.Logic.Function.Basic

namespace InterpretThis.Eval

open Ast

abbrev Cell (V : Type) := List (String×V)

namespace Cell

variable {V : Type}

def get (c : Cell V) (n : String) : Option V := List.lookup n c

def insert (c : Cell V) (n : String) (v : V) : Cell V := (n,v)::c.filter (fun e => e.1≠ n)

/-- Insert each name of the list that has a value. -/
def insertAll (value : String → Option V) (names : List String) (c : Cell V) : Cell V :=
  names.foldl (fun c n => match value n with
    | some v => c.insert n v
    | none => c) c

end Cell

/-- The bindings of the interpreter state: one flat map of variables for all frames, the cells
of captured names, and for each frame, innermost first, the cells it owns. -/
structure Scope (V : Type) where
  vars : String → Option V
  cells : Nat → Option (Cell V)
  owners : List (String → Option Nat)
  nextCell : Nat
  memory : Nat

/-- What the scope operations read of the configuration and of values: `same` is the `==` of
`Value`. -/
structure Config (V : Type) where
  size : V → Nat
  maxMemory : Nat
  same : V → V → Bool

def unitConfig : Config Nat := ⟨fun _ => 1,1000,fun a b => a==b⟩

/-- A function object, as far as its frames depend on it; `suspends` is `generator_suspendable`
of the body. -/
structure FunctionScope (V : Type) where
  params : List String
  closure : List (String×V)
  cellId : Option Nat
  cellRefreshes : List (String×Nat)
  isModuleLevel : Bool
  isGenerator : Bool
  suspends : Bool
  body : List Node
  closureKeys : (closure.map Prod.fst).Nodup
  refreshKeys : (cellRefreshes.map Prod.fst).Nodup

/-- A lambda object. -/
structure LambdaScope (V : Type) where
  params : List String
  closure : List (String×V)
  cellRefreshes : List (String×Nat)
  isModuleLevel : Bool
  body : Node
  closureKeys : (closure.map Prod.fst).Nodup
  refreshKeys : (cellRefreshes.map Prod.fst).Nodup

namespace FunctionScope

variable {V : Type} (f : FunctionScope V)

def globalNames : List String := collectGlobalNames f.body

def nonlocalNames : List String := collectNonlocalNames f.body

def isSuspended : Bool := f.isGenerator&&f.suspends

def assignedNames : List String :=
  (collectAssignedNames f.body).filter (fun n => n∉f.nonlocalNames ∧ n∉f.globalNames)

end FunctionScope

def LambdaScope.assignedNames {V : Type} (f : LambdaScope V) : List String :=
  collectWalrusTargets f.body

namespace Scope

variable {V : Type} (cfg : Config V)

def empty : Scope V := ⟨fun _ => none,fun _ => none,[],0,0⟩

def owner (σ : Scope V) (n : String) : Option Nat := σ.owners.head?.bind (fun o => o n)

def cellGet (σ : Scope V) (id : Nat) (n : String) : Option V := (σ.cells id).bind (fun c => c.get n)

/-- `entry(id).or_default().insert(n, v)`. -/
def cellInsert (σ : Scope V) (id : Nat) (n : String) (v : V) : Scope V :=
  {σ with cells := Function.update σ.cells id (some (((σ.cells id).getD []).insert n v))}

def put (σ : Scope V) (n : String) (v : Option V) : Scope V :=
  {σ with vars := Function.update σ.vars n v}

/-- The write-through of `set_variable`. -/
def writeThrough (σ : Scope V) (n : String) (v : V) : Scope V :=
  match σ.owner n with
  | some id => σ.cellInsert id n v
  | none => σ

/-- `set_variable`; the flag says that the memory limit still holds. -/
def setVariable (σ : Scope V) (n : String) (v : V) : Scope V×Bool :=
  let freed := σ.memory-(match σ.vars n with
    | some old => cfg.size old
    | none => 0)
  let used := freed+cfg.size v
  ({(σ.writeThrough n v).put n (some v) with memory := used},decide (used ≤ cfg.maxMemory))

def deleteVariable (σ : Scope V) (n : String) : Scope V :=
  match σ.vars n with
  | some old => {σ.put n none with memory := σ.memory-cfg.size old}
  | none => σ

def pushOwners (σ : Scope V) : Scope V := {σ with owners := (fun _ => none)::σ.owners}

def popOwners (σ : Scope V) : Scope V := {σ with owners := σ.owners.tail}

def andThen (r : Scope V×Bool) (next : Scope V → Scope V×Bool) : Scope V×Bool :=
  if r.2 then next r.1 else r

/-- Set each name of the list that `admits` lets through. -/
def setEach (admits : Scope V → String → V → Bool) : List (String×V) → Scope V → Scope V×Bool
  | [],σ => (σ,true)
  | (n,v)::rest,σ =>
    if admits σ n v then andThen (σ.setVariable cfg n v) (setEach admits rest)
    else setEach admits rest σ

/-- Whether a closure entry is laid over the live variables. -/
def overlays (isLocal isGlobal refreshed : String → Bool) (isModuleLevel : Bool) (σ : Scope V)
    (n : String) (v : V) : Bool :=
  !(isLocal n||isGlobal n)&& !refreshed n&& !(isModuleLevel&&(σ.vars n).isSome)&&
    !(match σ.vars n with
      | some live => cfg.same live v
      | none => false)

def applyCellRefreshes (isLocal : String → Bool) : List (String×Nat) → Scope V → Scope V×Bool
  | [],σ => (σ,true)
  | (n,id)::rest,σ =>
    if isLocal n then applyCellRefreshes isLocal rest σ
    else match σ.cellGet id n with
    | some v => andThen (σ.setVariable cfg n v) (applyCellRefreshes isLocal rest)
    | none => applyCellRefreshes isLocal rest σ

/-- Every name of the cell is set, not only those that the function declares. -/
def applyNonlocalCell (isLocal : String → Bool) (cellId : Option Nat) (σ : Scope V) :
    Scope V×Bool :=
  match cellId.bind σ.cells with
  | some cell => setEach cfg (fun _ n _ => !isLocal n) cell σ
  | none => (σ,true)

section Frames

variable (locals : List (String×V))

def isLocal (n : String) : Bool := (List.lookup n locals).isSome

def applyFunctionScope (f : FunctionScope V) (σ : Scope V) : Scope V×Bool :=
  let refreshed n := f.cellRefreshes.any (fun e => e.1==n)
  let isGlobal n := f.globalNames.contains n
  andThen (setEach cfg (overlays cfg (isLocal locals) isGlobal refreshed f.isModuleLevel) f.closure σ)
    fun σ => andThen (applyNonlocalCell cfg (isLocal locals) f.cellId σ)
    fun σ => andThen (applyCellRefreshes cfg (isLocal locals) f.cellRefreshes σ)
    fun σ => setEach cfg (fun _ _ _ => true) locals σ

def applyLambdaScope (f : LambdaScope V) (σ : Scope V) : Scope V×Bool :=
  let refreshed n := f.cellRefreshes.any (fun e => e.1==n)
  andThen (setEach cfg (overlays cfg (isLocal locals) (fun _ => false) refreshed f.isModuleLevel)
    f.closure σ)
    fun σ => andThen (applyCellRefreshes cfg (isLocal locals) f.cellRefreshes σ)
    fun σ => setEach cfg (fun _ _ _ => true) locals σ

/-- The closure names that join the checkpoint. -/
def closureTouched (isModuleLevel : Bool) (closure : List (String×V)) (σ : Scope V) :
    List String :=
  (closure.filter (fun e => !isModuleLevel&& !(match σ.vars e.1 with
    | some live => cfg.same live e.2
    | none => false))).map Prod.fst

/-- The names that the frame of a function puts back on exit. -/
def touched (f : FunctionScope V) (σ : Scope V) : List String :=
  (f.params++closureTouched cfg f.isModuleLevel f.closure σ++f.assignedNames).filter
    (fun n => n∉f.globalNames ∧ n∉f.nonlocalNames)

def lambdaTouched (f : LambdaScope V) (σ : Scope V) : List String :=
  f.params++closureTouched cfg f.isModuleLevel f.closure σ++f.assignedNames

/-- `VariableCheckpoint::restore`, of names captured in `before`. -/
def restore (names : List String) (before σ : Scope V) : Scope V :=
  names.foldl (fun σ n => σ.put n (before.vars n)) σ

def writebackNonlocalCell (f : FunctionScope V) (σ : Scope V) : Scope V :=
  match f.cellId with
  | some id =>
    let cell := (σ.cells id).map (Cell.insertAll σ.vars f.nonlocalNames)
    {σ with cells := Function.update σ.cells id cell}
  | none => σ

/-- The frames that run on the caller's scope. -/
def isTrivial (f : FunctionScope V) : Bool :=
  locals.isEmpty&&f.params.isEmpty&&f.nonlocalNames.isEmpty&&f.assignedNames.isEmpty&&
    f.globalNames.isEmpty&& !f.isGenerator&&(f.closure.isEmpty||f.isModuleLevel)

end Frames

end Scope

open Scope

variable {V : Type} (cfg : Config V)

section Variables

theorem put_vars (σ : Scope V) (n x : String) (v : Option V) :
    (σ.put n v).vars x=if x=n then v else σ.vars x := by
  simp only [put,Function.update_apply]

theorem writeThrough_vars (σ : Scope V) (n : String) (v : V) :
    (σ.writeThrough n v).vars=σ.vars := by
  simp only [writeThrough]
  split <;> rfl

theorem setVariable_vars (σ : Scope V) (n x : String) (v : V) :
    (σ.setVariable cfg n v).1.vars x=if x=n then some v else σ.vars x := by
  have hput := put_vars (σ.writeThrough n v) n x (some v)
  rw [writeThrough_vars] at hput
  exact hput

theorem deleteVariable_vars (σ : Scope V) (n x : String) :
    (σ.deleteVariable cfg n).vars x=if x=n then none else σ.vars x := by
  simp only [deleteVariable]
  cases h : σ.vars n with
  | some old => exact put_vars σ n x none
  | none =>
    by_cases hx : x=n
    · simp [hx,h]
    · simp [hx]

end Variables

section Writes

/-- The writes made up to the one that passes the memory limit. -/
def reached : List (String×V) → Scope V → List (String×V)
  | [],_ => []
  | (n,v)::rest,σ =>
    (n,v)::(if (σ.setVariable cfg n v).2 then reached rest (σ.setVariable cfg n v).1 else [])

/-- Every write of the list is made within the memory limit. -/
def fits : List (String×V) → Scope V → Bool
  | [],_ => true
  | (n,v)::rest,σ => (σ.setVariable cfg n v).2&&fits rest (σ.setVariable cfg n v).1

def setAll (writes : List (String×V)) (σ : Scope V) : Scope V×Bool :=
  setEach cfg (fun _ _ _ => true) writes σ

def laid (writes : List (String×V)) (before : String → Option V) (x : String) : Option V :=
  (writes.reverse.lookup x).or (before x)

theorem laid_cons (n x : String) (v : V) (writes : List (String×V)) (before : String → Option V) :
    laid ((n,v)::writes) before x=laid writes (fun y => if y=n then some v else before y) x := by
  simp only [laid,List.reverse_cons,List.lookup_append,List.lookup_cons,List.lookup_nil,
    Option.or_assoc]
  by_cases hx : x=n
  · simp [hx]
  · simp [hx,beq_eq_false_iff_ne.mpr hx]

theorem setAll_cons (n : String) (v : V) (writes : List (String×V)) (σ : Scope V) :
    setAll cfg ((n,v)::writes) σ=andThen (σ.setVariable cfg n v) (setAll cfg writes) := by
  simp only [setAll,setEach,if_true]
  rfl

theorem setAll_vars (writes : List (String×V)) (σ : Scope V) (x : String) :
    (setAll cfg writes σ).1.vars x=laid (reached cfg writes σ) σ.vars x := by
  induction writes generalizing σ with
  | nil => simp [setAll,setEach,reached,laid]
  | cons w writes ih =>
    obtain ⟨n,v⟩ := w
    have hvars : (fun y => if y=n then some v else σ.vars y)=(σ.setVariable cfg n v).1.vars := by
      funext y
      rw [setVariable_vars]
    rw [setAll_cons,reached,laid_cons,hvars]
    cases hok : (σ.setVariable cfg n v).2 with
    | true =>
      simp only [andThen,hok,if_true]
      exact ih _
    | false => simp [andThen,hok,laid]

theorem setAll_fits (writes : List (String×V)) (σ : Scope V) :
    (setAll cfg writes σ).2=fits cfg writes σ := by
  induction writes generalizing σ with
  | nil => rfl
  | cons w writes ih =>
    obtain ⟨n,v⟩ := w
    rw [setAll_cons,fits,← ih]
    cases hok : (σ.setVariable cfg n v).2 with
    | true => simp [andThen,hok]
    | false => simp [andThen,hok]

theorem andThen_assoc (r : Scope V×Bool) (f g : Scope V → Scope V×Bool) :
    andThen (andThen r f) g=andThen r (fun σ => andThen (f σ) g) := by
  cases h : r.2 with
  | true => simp [andThen,h]
  | false => simp [andThen,h]

theorem setAll_append (a b : List (String×V)) (σ : Scope V) :
    setAll cfg (a++b) σ=andThen (setAll cfg a σ) (setAll cfg b) := by
  induction a generalizing σ with
  | nil => simp [setAll,setEach,andThen]
  | cons w a ih =>
    obtain ⟨n,v⟩ := w
    have hrest : setAll cfg (a++b)=fun τ => andThen (setAll cfg a τ) (setAll cfg b) := funext ih
    rw [List.cons_append,setAll_cons,setAll_cons,hrest,andThen_assoc]

/-- Of names that are set once each, a test of a name's own binding may be made beforehand. -/
theorem setEach_filter {admits : Scope V → String → V → Bool}
    (hadmits : ∀σ τ n v, σ.vars n=τ.vars n → admits σ n v=admits τ n v) (l : List (String×V))
    (hl : (l.map Prod.fst).Nodup) (σ : Scope V) :
    setEach cfg admits l σ=setAll cfg (l.filter (fun e => admits σ e.1 e.2)) σ := by
  induction l generalizing σ with
  | nil => rfl
  | cons w l ih =>
    obtain ⟨n,v⟩ := w
    obtain ⟨hn,hl⟩ := List.nodup_cons.mp hl
    cases ha : admits σ n v with
    | false => simp only [setEach,ha,List.filter_cons,Bool.false_eq_true,if_false,ih hl]
    | true =>
      have hkeep : l.filter (fun e => admits (σ.setVariable cfg n v).1 e.1 e.2)=
          l.filter (fun e => admits σ e.1 e.2) := by
        apply List.filter_congr
        intro e he
        have hne : e.1≠n := by
          rintro rfl
          exact hn (List.mem_map.mpr ⟨e,he,rfl⟩)
        apply hadmits
        rw [setVariable_vars,if_neg hne]
      simp only [setEach,ha,List.filter_cons,if_true,setAll_cons,andThen,ih hl,hkeep]

theorem setEach_fixed (p : String → Bool) (l : List (String×V)) (σ : Scope V) :
    setEach cfg (fun _ n _ => p n) l σ=setAll cfg (l.filter (fun e => p e.1)) σ := by
  induction l generalizing σ with
  | nil => rfl
  | cons w l ih =>
    obtain ⟨n,v⟩ := w
    have hrest : setEach cfg (fun _ n _ => p n) l=setAll cfg (l.filter (fun e => p e.1)) := funext ih
    cases ha : p n with
    | false => simp only [setEach,ha,List.filter_cons,Bool.false_eq_true,if_false,hrest]
    | true => simp only [setEach,ha,List.filter_cons,if_true,setAll_cons,hrest]

end Writes

section Cells

theorem lookup_filter_ne (c : List (String×V)) {n x : String} (hx : x≠n) :
    (c.filter (fun e => e.1≠ n)).lookup x=c.lookup x := by
  induction c with
  | nil => rfl
  | cons e c ih =>
    obtain ⟨m,w⟩ := e
    by_cases hm : m=n
    · have hdrop : ((m,w)::c).filter (fun e => e.1≠ n)=c.filter (fun e => e.1≠ n) := by simp [hm]
      have hxm : x≠m := fun h => hx (h.trans hm)
      rw [hdrop,ih,List.lookup_cons,beq_eq_false_iff_ne.mpr hxm]
    · have hkeep : ((m,w)::c).filter (fun e => e.1≠ n)=(m,w)::c.filter (fun e => e.1≠ n) := by
        simp [hm]
      rw [hkeep,List.lookup_cons,List.lookup_cons,ih]

theorem Cell.get_insert (c : Cell V) (n x : String) (v : V) :
    (c.insert n v).get x=if x=n then some v else c.get x := by
  simp only [Cell.get,Cell.insert,List.lookup_cons]
  by_cases hx : x=n
  · simp [hx]
  · rw [beq_eq_false_iff_ne.mpr hx,if_neg hx]
    exact lookup_filter_ne c hx

theorem cellInsert_get (σ : Scope V) (id k : Nat) (n x : String) (v : V) :
    (σ.cellInsert id n v).cellGet k x=if k=id ∧ x=n then some v else σ.cellGet k x := by
  simp only [cellGet,cellInsert,Function.update_apply]
  by_cases hk : k=id
  · subst hk
    rw [if_pos rfl,Option.bind_some,Cell.get_insert]
    by_cases hx : x=n
    · simp [hx]
    · cases hc : σ.cells k with
      | none => simp [hx,Cell.get]
      | some c => simp [hx]
  · simp [hk]

theorem setVariable_owners (σ : Scope V) (n : String) (v : V) :
    (σ.setVariable cfg n v).1.owners=σ.owners := by
  simp only [setVariable,put,writeThrough]
  split <;> rfl

theorem setVariable_cells (σ : Scope V) (n : String) (v : V) :
    (σ.setVariable cfg n v).1.cells=(σ.writeThrough n v).cells := rfl

theorem setVariable_cellGet (σ : Scope V) {n x : String} (v : V) (k : Nat) (hx : x≠n) :
    (σ.setVariable cfg n v).1.cellGet k x=σ.cellGet k x := by
  have hthrough : (σ.writeThrough n v).cellGet k x=σ.cellGet k x := by
    simp only [writeThrough]
    split
    · rw [cellInsert_get,if_neg (fun h => hx h.2)]
    · rfl
  exact hthrough

theorem setAll_owners (writes : List (String×V)) (σ : Scope V) :
    (setAll cfg writes σ).1.owners=σ.owners := by
  induction writes generalizing σ with
  | nil => rfl
  | cons w writes ih =>
    obtain ⟨n,v⟩ := w
    rw [setAll_cons]
    cases hok : (σ.setVariable cfg n v).2 with
    | true => simp [andThen,hok,ih,setVariable_owners]
    | false => simp [andThen,hok,setVariable_owners]

theorem setAll_nextCell (writes : List (String×V)) (σ : Scope V) :
    (setAll cfg writes σ).1.nextCell=σ.nextCell := by
  induction writes generalizing σ with
  | nil => rfl
  | cons w writes ih =>
    obtain ⟨n,v⟩ := w
    have hfirst : (σ.setVariable cfg n v).1.nextCell=σ.nextCell := by
      simp only [setVariable,put,writeThrough]
      split <;> rfl
    rw [setAll_cons]
    cases hok : (σ.setVariable cfg n v).2 with
    | true => simp [andThen,hok,ih,hfirst]
    | false => simp [andThen,hok,hfirst]

theorem setAll_cellGet (writes : List (String×V)) (σ : Scope V) (k : Nat) {x : String}
    (hx : x∉writes.map Prod.fst) : (setAll cfg writes σ).1.cellGet k x=σ.cellGet k x := by
  induction writes generalizing σ with
  | nil => rfl
  | cons w writes ih =>
    obtain ⟨n,v⟩ := w
    simp only [List.map_cons,List.mem_cons,not_or] at hx
    have hfirst := setVariable_cellGet cfg σ v k hx.1
    rw [setAll_cons]
    cases hok : (σ.setVariable cfg n v).2 with
    | true => simpa [andThen,hok,hfirst] using ih (σ.setVariable cfg n v).1 hx.2
    | false => simpa [andThen,hok] using hfirst

/-- Writes that store in the cells what they hold change none. -/
theorem setAll_cellGet_same (writes : List (String×V)) (σ : Scope V)
    (h : ∀e∈writes, ∀id, σ.owner e.1=some id → σ.cellGet id e.1=some e.2) (k : Nat) (x : String) :
    (setAll cfg writes σ).1.cellGet k x=σ.cellGet k x := by
  induction writes generalizing σ with
  | nil => rfl
  | cons w writes ih =>
    obtain ⟨n,v⟩ := w
    have hfirst : ∀k x, (σ.setVariable cfg n v).1.cellGet k x=σ.cellGet k x := by
      intro k x
      have hthrough : (σ.writeThrough n v).cellGet k x=σ.cellGet k x := by
        simp only [writeThrough]
        split
        · next id hid =>
          rw [cellInsert_get]
          split
          · next hkx => rw [hkx.1,hkx.2,h (n,v) List.mem_cons_self id hid]
          · rfl
        · rfl
      exact hthrough
    rw [setAll_cons]
    cases hok : (σ.setVariable cfg n v).2 with
    | true =>
      have hrest : ∀e∈writes, ∀id, (σ.setVariable cfg n v).1.owner e.1=some id →
          (σ.setVariable cfg n v).1.cellGet id e.1=some e.2 := by
        intro e he id hid
        rw [owner,setVariable_owners] at hid
        rw [hfirst]
        exact h e (List.mem_cons_of_mem _ he) id hid
      simpa [andThen,hok,hfirst] using ih _ hrest
    | false => simpa [andThen,hok] using hfirst k x

theorem setAll_cells_isSome (writes : List (String×V)) (σ : Scope V) {k : Nat}
    (h : (σ.cells k).isSome=true) : ((setAll cfg writes σ).1.cells k).isSome=true := by
  induction writes generalizing σ with
  | nil => exact h
  | cons w writes ih =>
    obtain ⟨n,v⟩ := w
    have hfirst : ((σ.setVariable cfg n v).1.cells k).isSome=true := by
      rw [setVariable_cells]
      simp only [writeThrough]
      split
      · simp only [cellInsert,Function.update_apply]
        split
        · rfl
        · exact h
      · exact h
    rw [setAll_cons]
    cases hok : (σ.setVariable cfg n v).2 with
    | true => simpa [andThen,hok] using ih _ hfirst
    | false => simpa [andThen,hok] using hfirst

theorem setAll_cells (writes : List (String×V)) (σ : Scope V) (hσ : ∀n, σ.owner n=none) :
    (setAll cfg writes σ).1.cells=σ.cells := by
  induction writes generalizing σ with
  | nil => rfl
  | cons w writes ih =>
    obtain ⟨n,v⟩ := w
    have hcells : (σ.setVariable cfg n v).1.cells=σ.cells := by
      rw [setVariable_cells]
      simp only [writeThrough,hσ n]
    rw [setAll_cons]
    cases hok : (σ.setVariable cfg n v).2 with
    | true =>
      have hnext : ∀m, (σ.setVariable cfg n v).1.owner m=none := by
        intro m
        rw [owner,setVariable_owners]
        exact hσ m
      simpa [andThen,hok,hcells] using ih _ hnext
    | false => simpa [andThen,hok] using hcells

end Cells

section Entries

/-- What the refreshed names are set to. -/
def refreshWrites (isLocal : String → Bool) (refreshes : List (String×Nat)) (σ : Scope V) :
    List (String×V) :=
  refreshes.filterMap fun e =>
    if isLocal e.1 then none else (σ.cellGet e.2 e.1).map fun v => (e.1,v)

theorem refreshWrites_congr (isLocal : String → Bool) (refreshes : List (String×Nat))
    {σ τ : Scope V} (h : ∀e∈refreshes, τ.cellGet e.2 e.1=σ.cellGet e.2 e.1) :
    refreshWrites isLocal refreshes τ=refreshWrites isLocal refreshes σ := by
  apply List.filterMap_congr
  intro e he
  rw [h e he]

theorem applyCellRefreshes_eq (isLocal : String → Bool) (refreshes : List (String×Nat))
    (hr : (refreshes.map Prod.fst).Nodup) (σ : Scope V) :
    applyCellRefreshes cfg isLocal refreshes σ=
      setAll cfg (refreshWrites isLocal refreshes σ) σ := by
  induction refreshes generalizing σ with
  | nil => rfl
  | cons e refreshes ih =>
    obtain ⟨n,id⟩ := e
    obtain ⟨hn,hr⟩ := List.nodup_cons.mp hr
    cases hl : isLocal n with
    | true =>
      have hcons : refreshWrites isLocal ((n,id)::refreshes) σ=refreshWrites isLocal refreshes σ := by
        simp [refreshWrites,hl]
      rw [hcons,← ih hr]
      simp only [applyCellRefreshes,hl,if_true]
    | false =>
      cases hv : σ.cellGet id n with
      | none =>
        have hcons : refreshWrites isLocal ((n,id)::refreshes) σ=
            refreshWrites isLocal refreshes σ := by
          simp [refreshWrites,hl,hv]
        rw [hcons,← ih hr]
        simp only [applyCellRefreshes,hl,hv,Bool.false_eq_true,if_false]
      | some v =>
        have hcons : refreshWrites isLocal ((n,id)::refreshes) σ=
            (n,v)::refreshWrites isLocal refreshes σ := by
          simp [refreshWrites,hl,hv]
        have hrest : refreshWrites isLocal refreshes (σ.setVariable cfg n v).1=
            refreshWrites isLocal refreshes σ := by
          apply refreshWrites_congr
          intro e he
          apply setVariable_cellGet
          rintro rfl
          exact hn (List.mem_map.mpr ⟨e,he,rfl⟩)
        rw [hcons,setAll_cons]
        simp only [applyCellRefreshes,hl,hv,andThen,ih hr,hrest,Bool.false_eq_true,if_false]

variable (locals : List (String×V))

/-- The closure entries laid over the variables. -/
def overlayWrites (isGlobal : String → Bool) (refreshes : List (String×Nat)) (isModuleLevel : Bool)
    (closure : List (String×V)) (σ : Scope V) : List (String×V) :=
  closure.filter fun e => overlays cfg (isLocal locals) isGlobal
    (fun n => refreshes.any (fun e => e.1==n)) isModuleLevel σ e.1 e.2

def cellWrites (cellId : Option Nat) (σ : Scope V) : List (String×V) :=
  ((cellId.bind σ.cells).getD []).filter fun e => !isLocal locals e.1

/-- Everything that the entry of a function's frame sets, in order. -/
def entryWrites (f : FunctionScope V) (σ : Scope V) : List (String×V) :=
  overlayWrites cfg locals (fun n => f.globalNames.contains n) f.cellRefreshes f.isModuleLevel
      f.closure σ++
    (cellWrites locals f.cellId σ++(refreshWrites (isLocal locals) f.cellRefreshes σ++locals))

def lambdaWrites (f : LambdaScope V) (σ : Scope V) : List (String×V) :=
  overlayWrites cfg locals (fun _ => false) f.cellRefreshes f.isModuleLevel f.closure σ++
    (refreshWrites (isLocal locals) f.cellRefreshes σ++locals)

theorem overlays_vars (isLocal isGlobal refreshed : String → Bool) (isModuleLevel : Bool)
    (σ τ : Scope V) (n : String) (v : V) (h : σ.vars n=τ.vars n) :
    overlays cfg isLocal isGlobal refreshed isModuleLevel σ n v=
      overlays cfg isLocal isGlobal refreshed isModuleLevel τ n v := by
  simp only [overlays,h]

theorem applyNonlocalCell_eq (cellId : Option Nat) (σ : Scope V) :
    applyNonlocalCell cfg (isLocal locals) cellId σ=setAll cfg (cellWrites locals cellId σ) σ := by
  simp only [applyNonlocalCell,cellWrites]
  cases h : cellId.bind σ.cells with
  | none => rfl
  | some cell => exact setEach_fixed cfg (fun n => !isLocal locals n) cell σ

theorem overlay_eq (isGlobal : String → Bool) (refreshes : List (String×Nat))
    (isModuleLevel : Bool) {closure : List (String×V)} (hc : (closure.map Prod.fst).Nodup)
    (σ : Scope V) :
    setEach cfg (overlays cfg (isLocal locals) isGlobal (fun n => refreshes.any (fun e => e.1==n))
      isModuleLevel) closure σ=
      setAll cfg (overlayWrites cfg locals isGlobal refreshes isModuleLevel closure σ) σ :=
  setEach_filter cfg (overlays_vars cfg _ _ _ _) closure hc σ

theorem andThen_congr {r : Scope V×Bool} {f g : Scope V → Scope V×Bool} (h : f r.1=g r.1) :
    andThen r f=andThen r g := by
  simp only [andThen,h]

/-- The frame on top owns no cell, so the entry reads the cells as they were before it. -/
theorem applyFunctionScope_eq (f : FunctionScope V) (σ : Scope V) (hσ : ∀n, σ.owner n=none) :
    applyFunctionScope cfg locals f σ=setAll cfg (entryWrites cfg locals f σ) σ := by
  have hrefresh : ∀τ : Scope V, τ.cells=σ.cells →
      andThen (applyCellRefreshes cfg (isLocal locals) f.cellRefreshes τ) (setAll cfg locals)=
        setAll cfg (refreshWrites (isLocal locals) f.cellRefreshes σ++locals) τ := by
    intro τ hτ
    rw [applyCellRefreshes_eq cfg _ _ f.refreshKeys,setAll_append]
    have hwrites : refreshWrites (isLocal locals) f.cellRefreshes τ=
        refreshWrites (isLocal locals) f.cellRefreshes σ := by
      apply refreshWrites_congr
      intro e _
      simp only [cellGet,hτ]
    rw [hwrites]
  have hcell : ∀τ : Scope V, τ.cells=σ.cells → (∀n, τ.owner n=none) →
      andThen (applyNonlocalCell cfg (isLocal locals) f.cellId τ) (fun υ =>
        andThen (applyCellRefreshes cfg (isLocal locals) f.cellRefreshes υ) (setAll cfg locals))=
        setAll cfg (cellWrites locals f.cellId σ++
          (refreshWrites (isLocal locals) f.cellRefreshes σ++locals)) τ := by
    intro τ hτ howner
    have hwrites : cellWrites locals f.cellId τ=cellWrites locals f.cellId σ := by
      simp only [cellWrites,hτ]
    rw [applyNonlocalCell_eq,hwrites,setAll_append]
    apply andThen_congr
    exact hrefresh _ ((setAll_cells cfg _ τ howner).trans hτ)
  have hoverlay := overlay_eq cfg locals (fun n => f.globalNames.contains n) f.cellRefreshes
    f.isModuleLevel f.closureKeys σ
  simp only [applyFunctionScope]
  rw [hoverlay,entryWrites,setAll_append]
  apply andThen_congr
  apply hcell
  · exact setAll_cells cfg _ σ hσ
  · intro n
    rw [owner,setAll_owners]
    exact hσ n

theorem applyLambdaScope_eq (f : LambdaScope V) (σ : Scope V) :
    applyLambdaScope cfg locals f σ=setAll cfg (lambdaWrites cfg locals f σ) σ := by
  have hoverlay := overlay_eq cfg locals (fun _ => false) f.cellRefreshes f.isModuleLevel
    f.closureKeys σ
  -- a name that is laid over is not refreshed, so the refreshed cells are still those before
  have hrefresh : refreshWrites (isLocal locals) f.cellRefreshes (setAll cfg
      (overlayWrites cfg locals (fun _ => false) f.cellRefreshes f.isModuleLevel f.closure σ) σ).1=
      refreshWrites (isLocal locals) f.cellRefreshes σ := by
    apply refreshWrites_congr
    intro e he
    apply setAll_cellGet
    intro hin
    obtain ⟨w,hw,hname⟩ := List.mem_map.mp hin
    have hover := (List.mem_filter.mp hw).2
    have hany : f.cellRefreshes.any (fun r => r.1==w.1)=true :=
      List.any_eq_true.mpr ⟨e,he,by simp [hname]⟩
    simp [overlays,hany] at hover
  simp only [applyLambdaScope]
  rw [hoverlay,lambdaWrites,setAll_append]
  apply andThen_congr
  rw [applyCellRefreshes_eq cfg _ _ f.refreshKeys,hrefresh,setAll_append]
  rfl

theorem reached_push (writes : List (String×V)) {σ τ : Scope V} (hv : σ.vars=τ.vars)
    (hm : σ.memory=τ.memory) : reached cfg writes σ=reached cfg writes τ ∧
      fits cfg writes σ=fits cfg writes τ := by
  induction writes generalizing σ τ with
  | nil => exact ⟨rfl,rfl⟩
  | cons w writes ih =>
    obtain ⟨n,v⟩ := w
    have hflag : (σ.setVariable cfg n v).2=(τ.setVariable cfg n v).2 := by
      simp only [setVariable,hv,hm]
    have hmem : (σ.setVariable cfg n v).1.memory=(τ.setVariable cfg n v).1.memory := by
      simp only [setVariable,hv,hm]
    have hvars : (σ.setVariable cfg n v).1.vars=(τ.setVariable cfg n v).1.vars := by
      funext x
      rw [setVariable_vars,setVariable_vars,hv]
    obtain ⟨hr,hf⟩ := ih hvars hmem
    simp only [reached,fits,hflag,hr,hf,and_self]

theorem functionEntry_eq (σ : Scope V) (f : FunctionScope V) :
    (∀x, (applyFunctionScope cfg locals f σ.pushOwners).1.vars x=
      laid (reached cfg (entryWrites cfg locals f σ) σ) σ.vars x) ∧
    (applyFunctionScope cfg locals f σ.pushOwners).2=fits cfg (entryWrites cfg locals f σ) σ := by
  have hwrites : entryWrites cfg locals f σ.pushOwners=entryWrites cfg locals f σ := rfl
  have hvars : σ.pushOwners.vars=σ.vars := rfl
  obtain ⟨hreached,hfits⟩ := reached_push cfg (entryWrites cfg locals f σ) hvars rfl
  rw [applyFunctionScope_eq cfg locals f σ.pushOwners (fun n => rfl),hwrites]
  constructor
  · intro x
    rw [setAll_vars,hreached]
    rfl
  · rw [setAll_fits,hfits]

theorem lambdaEntry_eq (σ : Scope V) (f : LambdaScope V) :
    (∀x, (applyLambdaScope cfg locals f σ).1.vars x=
      laid (reached cfg (lambdaWrites cfg locals f σ) σ) σ.vars x) ∧
    (applyLambdaScope cfg locals f σ).2=fits cfg (lambdaWrites cfg locals f σ) σ := by
  rw [applyLambdaScope_eq]
  exact ⟨setAll_vars cfg _ σ,setAll_fits cfg _ σ⟩

end Entries

section Exits

theorem restore_vars (names : List String) (before σ : Scope V) (x : String) :
    (restore names before σ).vars x=if x∈names then before.vars x else σ.vars x := by
  induction names generalizing σ with
  | nil => simp [restore]
  | cons n names ih =>
    have hstep := ih (σ.put n (before.vars n))
    simp only [restore,List.foldl_cons] at hstep ⊢
    rw [hstep,put_vars]
    by_cases hm : x∈names
    · simp [hm]
    · by_cases hx : x=n
      · simp [hx]
      · simp [hm,hx]

theorem writeback_vars (f : FunctionScope V) (σ : Scope V) :
    (writebackNonlocalCell f σ).vars=σ.vars := by
  simp only [writebackNonlocalCell]
  split <;> rfl

theorem restore_rest (names : List String) (before σ : Scope V) :
    (restore names before σ).cells=σ.cells ∧ (restore names before σ).owners=σ.owners ∧
    (restore names before σ).nextCell=σ.nextCell := by
  induction names generalizing σ with
  | nil => exact ⟨rfl,rfl,rfl⟩
  | cons n names ih => exact ih (σ.put n (before.vars n))

theorem writeback_rest (f : FunctionScope V) (σ : Scope V) :
    (writebackNonlocalCell f σ).owners=σ.owners ∧
    (writebackNonlocalCell f σ).nextCell=σ.nextCell := by
  simp only [writebackNonlocalCell]
  split <;> exact ⟨rfl,rfl⟩

theorem insertAll_get (value : String → Option V) (names : List String) (c : Cell V) (x : String) :
    (c.insertAll value names).get x=if x∈names ∧ (value x).isSome=true then value x else c.get x := by
  induction names generalizing c with
  | nil => simp [Cell.insertAll]
  | cons n names ih =>
    simp only [Cell.insertAll,List.foldl_cons] at ih ⊢
    rw [ih]
    cases hp : value n with
    | none =>
      by_cases hx : x=n
      · simp [hx,hp]
      · simp [hx]
    | some v =>
      simp only [Cell.get_insert]
      by_cases hx : x=n
      · simp [hx,hp]
      · simp [hx]

theorem writeback_cellGet (f : FunctionScope V) (σ : Scope V) (k : Nat) (n : String) :
    (writebackNonlocalCell f σ).cellGet k n=
      if f.cellId=some k ∧ n∈f.nonlocalNames ∧ (σ.vars n).isSome=true ∧ (σ.cells k).isSome=true
      then σ.vars n else σ.cellGet k n := by
  simp only [writebackNonlocalCell]
  cases hid : f.cellId with
  | none => simp
  | some id =>
    by_cases hk : k=id
    · subst hk
      cases hc : σ.cells k with
      | none => simp [cellGet,hc]
      | some c =>
        have hall := insertAll_get σ.vars f.nonlocalNames c n
        simp only [cellGet,Function.update_self,hc,Option.map_some,Option.bind_some,hall]
        simp
    · have hk' : ¬id=k := fun h => hk h.symm
      simp [cellGet,hk,hk']

theorem writeback_cells (f : FunctionScope V) (σ : Scope V) (k : Nat) :
    ((writebackNonlocalCell f σ).cells k).isSome=(σ.cells k).isSome := by
  simp only [writebackNonlocalCell]
  cases f.cellId with
  | none => rfl
  | some id =>
    by_cases hk : k=id
    · simp [hk]
    · simp [hk]

end Exits

end InterpretThis.Eval
