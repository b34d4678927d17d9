import InterpretThis.Framework.Progression
import Mathlib.Data.List.Dedup
import Mathlib.Data.List.Nodup

namespace InterpretThis.Sequence

open Progression

/-- How an operation on a slice fails. An addition that overflows panics, or wraps around in a
release build; a thread that asks for a lock it holds waits without end. -/
inductive Failure where
  | typeError (m : String)
  | valueError (m : String)
  | runtime (m : String)
  | panic
  | deadlock
  deriving DecidableEq

/-- A bound or a step of a slice. An `int` beyond the range of `i64` is a big integer. -/
inductive Bound where
  | none
  | bool (b : Bool)
  | int (n : Int)

def i64Max : Int := 2^63-1

def i64Min : Int := -2^63

def InI64 (n : Int) : Prop := i64Min ≤ n ∧ n ≤ i64Max

instance (n : Int) : Decidable (InI64 n) := inferInstanceAs (Decidable (_ ∧ _))

section Resolve

def indexError : Failure :=
  .typeError "slice indices must be integers or None or have an __index__ method"

/-- `resolve_index` and `resolve_bound`. -/
def resolveBound (val : Option Bound) (default : Int) : Except Failure Int :=
  match val with
  | none => .ok default
  | some .none => .ok default
  | some (.bool b) => .ok (if b then 1 else 0)
  | some (.int n) => if InI64 n then .ok n else .error indexError

/-- The step of all three operations. -/
def resolveStep (step : Option Bound) : Except Failure Int := do
  let stride ← resolveBound step 1
  if stride=0 then .error (.valueError "slice step cannot be zero") else .ok stride

def clampIndex (idx len : Int) : Int :=
  let adjusted := if idx<0 then idx+len else idx
  min (max adjusted 0) len

def clampIndexNeg (idx len : Int) : Int :=
  let adjusted := if idx<0 then idx+len else idx
  min (max adjusted (-1)) (len-1)

def toIndex (i : Int) : Except Failure Nat :=
  if 0 ≤ i then .ok i.toNat else .error (.runtime "slice index overflow (internal invariant)")

def checkedAdd (a b : Int) : Except Failure Int :=
  if InI64 (a+b) then .ok (a+b) else .error .panic

/-- The loop of a positive step. It takes at most as many rounds as there are places. -/
def walkUp (stop step : Int) : Nat → Int → Except Failure (List Nat)
  | 0,_ => .ok []
  | fuel+1,i =>
    if i<stop then do
      let u ← toIndex i
      let next ← checkedAdd i step
      let rest ← walkUp stop step fuel next
      .ok (u::rest)
    else .ok []

/-- The loop of a negative step. -/
def walkDown (stop step : Int) : Nat → Int → Except Failure (List Nat)
  | 0,_ => .ok []
  | fuel+1,i =>
    if stop < i then do
      let u ← toIndex i
      let next ← checkedAdd i step
      let rest ← walkDown stop step fuel next
      .ok (u::rest)
    else .ok []

/-- `extended_indices`, which are also the indices that `slice_sequence` visits. -/
def extendedIndices (len : Int) (lower upper : Option Bound) (stride : Int) :
    Except Failure (List Nat) :=
  if 0<stride then do
    let start ← resolveBound lower 0
    let stop ← resolveBound upper len
    walkUp (clampIndex stop len) stride (clampIndex stop len-clampIndex start len).toNat
      (clampIndex start len)
  else do
    let start ← resolveBound lower (len-1)
    let past ← checkedAdd len 1
    let stop ← resolveBound upper (-past)
    walkDown (clampIndexNeg stop len) stride (clampIndexNeg start len-clampIndexNeg stop len).toNat
      (clampIndexNeg start len)

/-- `i64::try_from` of a length. -/
def lengthI64 {α : Type} (text : String) (items : List α) : Except Failure Int :=
  if (items.length : Int) ≤ i64Max then .ok items.length else .error (.runtime text)

def overflowText : String := "sequence length overflows i64"

def element {α : Type} (items : List α) (u : Nat) : Except Failure α :=
  match items[u]? with
  | some x => .ok x
  | none => .error .panic

end Resolve

section Locks

variable {α : Type}

/-- `lock` of a container that is known by its address. -/
def acquire (held : List Nat) (address : Nat) : Except Failure Unit :=
  if address ∈ held then .error .deadlock else .ok ()

/-- `with_navigate_mut`: the containers on the path stay locked. -/
def navigate : List Nat → List Nat → Except Failure (List Nat)
  | held,[] => .ok held
  | held,address::path => do
    acquire held address
    navigate (address::held) path

/-- A value that is iterated: the container that this locks, and what `iterate_value` gives. -/
structure Operand (α : Type) where
  address : Option Nat
  items : Except Failure (List α)
  returns : items≠.error .deadlock

def Operand.iterate (held : List Nat) (value : Operand α) : Except Failure (List α) :=
  match value.address with
  | none => value.items
  | some address => do
    acquire held address
    value.items

end Locks

section Operations

variable {α : Type}

def sliceSequence (items : List α) (lower upper : Option Bound) (stride : Int) :
    Except Failure (List α) := do
  let len ← lengthI64 overflowText items
  let us ← extendedIndices len lower upper stride
  us.mapM (element items)

/-- The sequences that can be sliced. -/
inductive Seq (α : Type) where
  | list (items : List α)
  | tuple (items : List α)
  | str (s : String)
  | bytes (raw : List UInt8)
  | byteArray (raw : List UInt8)

/-- Bytes are sliced as integers. -/
def sliceBytes (raw : List UInt8) (lower upper : Option Bound) (stride : Int) :
    Except Failure (List UInt8) := do
  let sliced ← sliceSequence (raw.map fun b => b.toNat) lower upper stride
  .ok (sliced.map fun n => UInt8.ofNat (n%256))

def applyValueSlice (obj : Seq α) (lower upper step : Option Bound) : Except Failure (Seq α) := do
  let stride ← resolveStep step
  match obj with
  | .list items => (sliceSequence items lower upper stride).map .list
  | .tuple items => (sliceSequence items lower upper stride).map .tuple
  | .str s => (sliceSequence s.toList lower upper stride).map fun cs => .str (String.ofList cs)
  | .bytes raw => (sliceBytes raw lower upper stride).map .bytes
  | .byteArray raw => (sliceBytes raw lower upper stride).map .byteArray

/-- The bounds of a contiguous slice. -/
def contiguous (len : Int) (lower upper : Option Bound) : Except Failure (Nat×Nat) := do
  let start ← resolveBound lower 0
  let stop ← resolveBound upper len
  let lo ← toIndex (clampIndex start len)
  let hi ← toIndex (max (clampIndex stop len) (clampIndex start len))
  .ok (lo,hi)

/-- `get_slice`, the read of an augmented assignment to a slice of the list at the end of the
path. -/
def getSlice (path : List Nat) (target : Nat) (items : List α) (lower upper step : Option Bound) :
    Except Failure (List α) := do
  let held ← navigate [] path
  let stride ← resolveStep step
  acquire held target
  let len ← lengthI64 overflowText items
  if stride=1 then do
    let (lo,hi) ← contiguous len lower upper
    .ok ((items.take hi).drop lo)
  else do
    let us ← extendedIndices len lower upper stride
    us.mapM (element items)

def assignAll : List α → List (Nat×α) → Except Failure (List α)
  | items,[] => .ok items
  | items,(i,v)::rest => if i < items.length then assignAll (items.set i v) rest else .error .panic

def splice (items : List α) (lo hi : Nat) (new : List α) : List α :=
  items.take lo++new++items.drop hi

/-- The contents after an assignment to a slice of a list or a bytearray; `noun` is what the error
message calls the new contents. -/
def spliced (noun : String) (lock : Except Failure Unit) (items : List α)
    (lower upper step : Option Bound) (new : List α) : Except Failure (List α) := do
  let stride ← resolveStep step
  lock
  let len ← lengthI64 overflowText items
  if stride=1 then do
    let (lo,hi) ← contiguous len lower upper
    .ok (splice items lo hi new)
  else do
    let us ← extendedIndices len lower upper stride
    if us.length≠new.length then
      .error (.valueError ("attempt to assign "++noun++" of size "++toString new.length++
        " to extended slice of size "++toString us.length))
    else assignAll items (us.zip new)

/-- What is stored when the new contents have been found. -/
def commit (items : List α) : Except Failure (List α) → Except Failure Unit×List α
  | .ok items' => (.ok (),items')
  | .error e => (.error e,items)

/-- The value is iterated while the path is locked, and then the target is. -/
def setTarget (noun : String) (path : List Nat) (target : Nat) (items : List α)
    (lower upper step : Option Bound) (value : Operand α) : Except Failure Unit×List α :=
  commit items (do
    let held ← navigate [] path
    let new ← value.iterate held
    spliced noun (acquire held target) items lower upper step new)

def setSlice (path : List Nat) (target : Nat) (items : List α) (lower upper step : Option Bound)
    (value : Operand α) : Except Failure Unit×List α :=
  setTarget "sequence" path target items lower upper step value

def setBytearraySlice (path : List Nat) (target : Nat) (raw : List UInt8)
    (lower upper step : Option Bound) (value : Operand UInt8) : Except Failure Unit×List UInt8 :=
  setTarget "bytes" path target raw lower upper step value

/-- The bounds of `del` with a step of 1: what is no small integer counts as absent. -/
def clampDeleted (len : Int) (val : Option Bound) (default : Nat) : Nat :=
  match val with
  | some (.int i) =>
    if InI64 i then (min (if i<0 then max (len+i) 0 else i) len).toNat else default
  | _ => default

/-- What `strided_indices` takes a bound for. -/
def resolveStrided (val : Option Bound) (default : Int) : Int :=
  match val with
  | some (.int i) => if InI64 i then i else default
  | some (.bool b) => if b then 1 else 0
  | _ => default

/-- The indices to delete, the last one first. -/
def stridedIndices (lower upper : Option Bound) (step len : Int) : Except Failure (List Nat) := do
  let us ← if 0<step then
      walkUp (clampIndex (resolveStrided upper len) len) step
        (clampIndex (resolveStrided upper len) len-clampIndex (resolveStrided lower 0) len).toNat
        (clampIndex (resolveStrided lower 0) len)
    else do
      let past ← checkedAdd len 1
      walkDown (clampIndexNeg (resolveStrided upper (-past)) len) step
        (clampIndexNeg (resolveStrided lower (len-1)) len-
          clampIndexNeg (resolveStrided upper (-past)) len).toNat
        (clampIndexNeg (resolveStrided lower (len-1)) len)
  .ok (us.mergeSort fun a b => decide (b ≤ a)).dedup

def removeAll (items : List α) (us : List Nat) : List α :=
  us.foldl (fun l i => if i<l.length then l.eraseIdx i else l) items

/-- The contents of a list after `del`. -/
def deleted (items : List α) (start stop step : Option Bound) : Except Failure (List α) := do
  let stride ← resolveStep step
  let len ← lengthI64 "list length overflows i64 for slicing" items
  if stride=1 then
    let s := clampDeleted len start 0
    let e := clampDeleted len stop items.length
    .ok (if s<e ∧ s < items.length then splice items s (min e items.length) [] else items)
  else do
    let us ← stridedIndices start stop stride len
    .ok (removeAll items us)

/-- `del a[i:j:k]`, where `a` has to be a name. -/
def deleteSlice (bareName : Bool) (items : List α) (start stop step : Option Bound) :
    Except Failure Unit×List α :=
  commit items (
    if bareName then deleted items start stop step
    else .error (.runtime "slice deletion supported only on bare-name targets"))

/-- A slice object; an absent bound is `None`. -/
structure SliceValue where
  start : Bound
  stop : Bound
  step : Bound

def SliceValue.of (start stop step : Option Bound) : SliceValue :=
  ⟨start.getD .none,stop.getD .none,step.getD .none⟩

/-- `list_del_item` of a slice object, `del a[s]`. -/
def listDelItem (path : List Nat) (target : Nat) (items : List α) (s : SliceValue) :
    Except Failure Unit×List α :=
  commit items (do
    let held ← navigate [] path
    let stride ← resolveStep (some s.step)
    acquire held target
    let us ← stridedIndices (some s.start) (some s.stop) stride (min items.length i64Max)
    .ok (removeAll items us))

/-- `del` of a bytearray's slice is refused once the step is known to be usable. -/
def deleteBytearraySlice (raw : List UInt8) (step : Option Bound) :
    Except Failure Unit×List UInt8 :=
  commit raw (do
    let _ ← resolveStep step
    .error (.typeError "'bytearray' object does not support item deletion"))

end Operations

section Reference

/-- The integer that a bound stands for, if it is not absent. -/
def boundValue : Option Bound → Option Int
  | some (.int n) => some n
  | some (.bool b) => some (if b then 1 else 0)
  | some .none => none
  | none => none

def stepValue (step : Option Bound) : Int := (boundValue step).getD 1

/-- Where Python's `slice.indices` moves a bound, given the least and the greatest it allows. -/
def adjust (len lower upper b : Int) : Int := if b<0 then max (b+len) lower else min b upper

def startIndex (len : Nat) (start : Option Int) (step : Int) : Int :=
  if 0<step then start.elim 0 (adjust len 0 len) else start.elim (len-1) (adjust len (-1) (len-1))

def stopIndex (len : Nat) (stop : Option Int) (step : Int) : Int :=
  if 0<step then stop.elim len (adjust len 0 len) else stop.elim (-1) (adjust len (-1) (len-1))

/-- The positions that `range(*slice(start,stop,step).indices(len))` visits. -/
def positions (len : Nat) (start stop : Option Int) (step : Int) : List Nat :=
  (terms (startIndex len start step) (stopIndex len stop step) step).map Int.toNat

end Reference

section Range

variable {len : Nat} {start stop : Option Int} {step : Int}

theorem adjust_up (len : Nat) (b : Int) : 0 ≤ adjust len 0 len b ∧ adjust len 0 len b ≤ len := by
  unfold adjust
  split_ifs <;> omega

theorem adjust_down (len : Nat) (b : Int) :
    -1 ≤ adjust len (-1) (len-1) b ∧ adjust len (-1) (len-1) b ≤ len-1 := by
  unfold adjust
  split_ifs <;> omega

theorem startIndex_up (len : Nat) (start : Option Int) (hs : 0<step) :
    0 ≤ startIndex len start step ∧ startIndex len start step ≤ len := by
  unfold startIndex
  rw [if_pos hs]
  cases start with
  | none => exact ⟨le_refl _,by simp⟩
  | some b => exact adjust_up len b

theorem stopIndex_up (len : Nat) (stop : Option Int) (hs : 0<step) :
    0 ≤ stopIndex len stop step ∧ stopIndex len stop step ≤ len := by
  unfold stopIndex
  rw [if_pos hs]
  cases stop with
  | none => exact ⟨by simp,le_refl _⟩
  | some b => exact adjust_up len b

theorem startIndex_down (len : Nat) (start : Option Int) (hs : step<0) :
    -1 ≤ startIndex len start step ∧ startIndex len start step ≤ len-1 := by
  unfold startIndex
  rw [if_neg (by omega)]
  cases start with
  | none =>
    rw [Option.elim_none]
    constructor <;> omega
  | some b => exact adjust_down len b

theorem stopIndex_down (len : Nat) (stop : Option Int) (hs : step<0) :
    -1 ≤ stopIndex len stop step ∧ stopIndex len stop step ≤ len-1 := by
  unfold stopIndex
  rw [if_neg (by omega)]
  cases stop with
  | none =>
    rw [Option.elim_none]
    constructor <;> omega
  | some b => exact adjust_down len b

theorem term_bounds (h0 : step≠0) {i : Int}
    (h : i ∈ terms (startIndex len start step) (stopIndex len stop step) step) :
    0 ≤ i ∧ i<len := by
  rcases lt_or_gt_of_ne h0 with hs | hs
  · have hmem := mem_terms_down hs h
    have hstart := startIndex_down len start hs
    have hstop := stopIndex_down len stop hs
    omega
  · have hmem := mem_terms_up hs h
    have hstart := startIndex_up len start hs
    have hstop := stopIndex_up len stop hs
    omega

theorem lt_of_mem_positions (h0 : step≠0) {p : Nat} (h : p ∈ positions len start stop step) :
    p<len := by
  obtain ⟨i,hi,rfl⟩ := List.mem_map.mp h
  have := term_bounds h0 hi
  omega

theorem nodup_positions (h0 : step≠0) : (positions len start stop step).Nodup := by
  unfold positions
  refine List.Nodup.map_on (fun i hi j hj hij => ?_) ?_
  · have hposi := term_bounds h0 hi
    have hposj := term_bounds h0 hj
    omega
  · rcases lt_or_gt_of_ne h0 with hs | hs
    · exact (pairwise_terms_down hs).imp fun h => (ne_of_gt h)
    · exact (pairwise_terms_up hs).imp fun h => (ne_of_lt h)

end Range

section Walk

variable {stop step : Int}

theorem toIndex_ok {i : Int} (h : 0 ≤ i) : toIndex i=.ok i.toNat := if_pos h

theorem checkedAdd_ok {a b : Int} (h : InI64 (a+b)) : checkedAdd a b=.ok (a+b) := if_pos h

theorem checkedAdd_panic {a b : Int} (h : ¬InI64 (a+b)) : checkedAdd a b=.error .panic := if_neg h

/-- The loop of a positive step collects the terms, unless an addition overflows. -/
theorem walkUp_eq (hs : 0<step) (fuel : Nat) (i : Int) (hi : 0 ≤ i) (hf : (stop-i).toNat ≤ fuel) :
    walkUp stop step fuel i=
      if ∀ t ∈ terms i stop step,t+step ≤ i64Max then .ok ((terms i stop step).map Int.toNat)
      else .error .panic := by
  induction fuel generalizing i with
  | zero =>
    rw [terms_up_nil hs (by omega)]
    simp [walkUp]
  | succ fuel ih =>
    by_cases h : i<stop
    · have hrest := ih (i+step) (by omega) (by omega)
      rw [terms_up_cons hs h]
      unfold walkUp
      rw [if_pos h,toIndex_ok hi]
      by_cases hfit : i+step ≤ i64Max
      · have hin : InI64 (i+step) := ⟨by unfold i64Min; omega,hfit⟩
        rw [checkedAdd_ok hin]
        simp only [bind,Except.bind,hrest,List.forall_mem_cons,hfit,true_and]
        split_ifs <;> rfl
      · rw [checkedAdd_panic fun hin => hfit hin.2]
        rw [if_neg fun hall => hfit (hall i (by simp))]
        rfl
    · rw [terms_up_nil hs (by omega)]
      unfold walkUp
      rw [if_neg h]
      simp

theorem walkDown_eq (hs : step<0) (hmin : i64Min ≤ step) (hstop : -1 ≤ stop) (fuel : Nat) (i : Int)
    (hi : i ≤ i64Max) (hf : (i-stop).toNat ≤ fuel) :
    walkDown stop step fuel i=.ok ((terms i stop step).map Int.toNat) := by
  induction fuel generalizing i with
  | zero =>
    rw [terms_down_nil hs (by omega)]
    rfl
  | succ fuel ih =>
    unfold walkDown
    by_cases h : stop < i
    · have hrest := ih (i+step) (by omega) (by omega)
      have hin : InI64 (i+step) := ⟨by omega,by omega⟩
      rw [terms_down_cons hs h,if_pos h,toIndex_ok (by omega),checkedAdd_ok hin]
      simp only [bind,Except.bind,hrest,List.map_cons]
    · rw [terms_down_nil hs (by omega),if_neg h]
      rfl

end Walk

section Clamp

variable {step : Int}

theorem clampIndex_eq (len : Nat) (b : Int) : clampIndex b len=adjust len 0 len b := by
  unfold clampIndex adjust
  dsimp only
  split_ifs <;> omega

theorem clampIndexNeg_eq (len : Nat) (b : Int) : clampIndexNeg b len=adjust len (-1) (len-1) b := by
  unfold clampIndexNeg adjust
  dsimp only
  split_ifs <;> omega

theorem clampIndex_start (hs : 0<step) (len : Nat) (start : Option Int) :
    clampIndex (start.getD 0) len=startIndex len start step := by
  unfold startIndex
  rw [if_pos hs,clampIndex_eq]
  cases start with
  | none => simp [adjust]
  | some b => rfl

theorem clampIndex_stop (hs : 0<step) (len : Nat) (stop : Option Int) :
    clampIndex (stop.getD len) len=stopIndex len stop step := by
  unfold stopIndex
  rw [if_pos hs,clampIndex_eq]
  cases stop with
  | none => simp [adjust]
  | some b => rfl

theorem clampIndexNeg_start (hs : step<0) (len : Nat) (start : Option Int) :
    clampIndexNeg (start.getD (len-1)) len=startIndex len start step := by
  unfold startIndex
  rw [if_neg (by omega),clampIndexNeg_eq]
  cases start with
  | none =>
    simp only [Option.getD,Option.elim,adjust]
    split_ifs <;> omega
  | some b => rfl

theorem clampIndexNeg_stop (hs : step<0) (len : Nat) (stop : Option Int) :
    clampIndexNeg (stop.getD (-(len+1))) len=stopIndex len stop step := by
  unfold stopIndex
  rw [if_neg (by omega),clampIndexNeg_eq]
  cases stop with
  | none =>
    simp only [Option.getD,Option.elim,adjust]
    split_ifs <;> omega
  | some b => rfl

end Clamp

section Conditions

/-- A bound that is not a big integer. -/
def Small : Option Bound → Prop
  | some (.int n) => InI64 n
  | _ => True

instance (b : Option Bound) : Decidable (Small b) :=
  match b with
  | none => isTrue trivial
  | some .none => isTrue trivial
  | some (.bool _) => isTrue trivial
  | some (.int n) => inferInstanceAs (Decidable (InI64 n))

/-- No sum that is formed on the way through the positions leaves the range of `i64`. -/
def NoOverflow (len : Nat) (start stop : Option Int) (step : Int) : Prop :=
  (len : Int) ≤ i64Max ∧ (step<0 → (len : Int)+1 ≤ i64Max) ∧
    ∀ p ∈ positions len start stop step,(p : Int)+step ≤ i64Max

instance (len : Nat) (start stop : Option Int) (step : Int) :
    Decidable (NoOverflow len start stop step) := inferInstanceAs (Decidable (_ ∧ _ ∧ _))

/-- What reading and assigning need of the bounds. -/
def Exact (len : Nat) (lower upper : Option Bound) (step : Int) : Prop :=
  Small lower ∧ Small upper ∧ NoOverflow len (boundValue lower) (boundValue upper) step

instance (len : Nat) (lower upper : Option Bound) (step : Int) :
    Decidable (Exact len lower upper step) := inferInstanceAs (Decidable (_ ∧ _ ∧ _))

end Conditions

section Indices

variable {len : Nat} {step : Int}

theorem resolveBound_small {b : Option Bound} (h : Small b) (d : Int) :
    resolveBound b d=.ok ((boundValue b).getD d) := by
  match b,h with
  | none,_ => rfl
  | some .none,_ => rfl
  | some (.bool b),_ => rfl
  | some (.int n),h => exact if_pos h

theorem resolveBound_big {b : Option Bound} (h : ¬Small b) (d : Int) :
    resolveBound b d=.error indexError := by
  match b,h with
  | none,h => exact absurd trivial h
  | some .none,h => exact absurd trivial h
  | some (.bool b),h => exact absurd trivial h
  | some (.int n),h => exact if_neg h

theorem forall_positions_iff (h0 : step≠0) (start stop : Option Int) :
    (∀ t ∈ terms (startIndex len start step) (stopIndex len stop step) step,t+step ≤ i64Max) ↔
      ∀ p ∈ positions len start stop step,(p : Int)+step ≤ i64Max := by
  unfold positions
  rw [List.forall_mem_map]
  refine forall_congr' fun t => forall_congr' fun ht => ?_
  have hpos := term_bounds h0 ht
  rw [Int.toNat_of_nonneg hpos.1]

theorem walkUp_positions (hs : 0<step) (start stop : Option Int) :
    walkUp (stopIndex len stop step) step
        (stopIndex len stop step-startIndex len start step).toNat (startIndex len start step)=
      if ∀ p ∈ positions len start stop step,(p : Int)+step ≤ i64Max
      then .ok (positions len start stop step) else .error .panic := by
  rw [walkUp_eq hs _ _ (startIndex_up len start hs).1 (le_refl _)]
  exact if_congr (forall_positions_iff (by omega) start stop) rfl rfl

theorem walkDown_positions (hs : step<0) (hmin : i64Min ≤ step) (hlen : (len : Int) ≤ i64Max)
    (start stop : Option Int) :
    walkDown (stopIndex len stop step) step
        (startIndex len start step-stopIndex len stop step).toNat (startIndex len start step)=
      .ok (positions len start stop step) := by
  have hstart := startIndex_down len start hs
  exact walkDown_eq hs hmin (stopIndex_down len stop hs).1 _ _ (by omega) (le_refl _)

theorem forall_positions_down (hs : step<0) (hlen : (len : Int) ≤ i64Max)
    (start stop : Option Int) : ∀ p ∈ positions len start stop step,(p : Int)+step ≤ i64Max := by
  intro p hp
  have := lt_of_mem_positions (by omega) hp
  omega

theorem extendedIndices_ok (h0 : step≠0) (hi : InI64 step) {lower upper : Option Bound}
    (h : Exact len lower upper step) :
    extendedIndices len lower upper step=
      .ok (positions len (boundValue lower) (boundValue upper) step) := by
  obtain ⟨hl,hu,hlen,hpast,hsum⟩ := h
  unfold extendedIndices
  rcases lt_or_gt_of_ne h0 with hs | hs
  · rw [if_neg (by omega),resolveBound_small hl,checkedAdd_ok ⟨by unfold i64Min; omega,hpast hs⟩]
    simp only [bind,Except.bind,resolveBound_small hu]
    rw [clampIndexNeg_start hs,clampIndexNeg_stop hs]
    exact walkDown_positions hs hi.1 hlen _ _
  · rw [if_pos hs,resolveBound_small hl,resolveBound_small hu]
    simp only [bind,Except.bind]
    rw [clampIndex_start hs,clampIndex_stop hs,walkUp_positions hs,if_pos hsum]

/-- Otherwise it is a type error or an overflow. -/
theorem extendedIndices_error (h0 : step≠0) (hlen : (len : Int) ≤ i64Max)
    {lower upper : Option Bound} (h : ¬Exact len lower upper step) :
    ∃ e,extendedIndices len lower upper step=.error e ∧ ∀ m,e≠.valueError m := by
  unfold extendedIndices
  by_cases hl : Small lower
  · rcases lt_or_gt_of_ne h0 with hs | hs
    · rw [if_neg (by omega),resolveBound_small hl]
      by_cases hpast : (len : Int)+1 ≤ i64Max
      · rw [checkedAdd_ok ⟨by unfold i64Min; omega,hpast⟩]
        have hu : ¬Small upper := fun hu =>
          h ⟨hl,hu,hlen,fun _ => hpast,forall_positions_down hs hlen _ _⟩
        exact ⟨indexError,by simp only [bind,Except.bind,resolveBound_big hu],nofun⟩
      · rw [checkedAdd_panic fun hin => hpast hin.2]
        exact ⟨.panic,rfl,nofun⟩
    · rw [if_pos hs,resolveBound_small hl]
      by_cases hu : Small upper
      · have hsum : ¬∀ p ∈ positions len (boundValue lower) (boundValue upper) step,
            (p : Int)+step ≤ i64Max := fun hsum => h ⟨hl,hu,hlen,fun hneg => by omega,hsum⟩
        rw [resolveBound_small hu]
        simp only [bind,Except.bind]
        rw [clampIndex_start hs,clampIndex_stop hs,walkUp_positions hs,if_neg hsum]
        exact ⟨.panic,rfl,nofun⟩
      · rw [resolveBound_big hu]
        exact ⟨indexError,rfl,nofun⟩
  · rw [resolveBound_big hl,resolveBound_big hl]
    refine ⟨indexError,?_,nofun⟩
    split_ifs <;> rfl

end Indices

end InterpretThis.Sequence
