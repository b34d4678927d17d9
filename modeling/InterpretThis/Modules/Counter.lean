import InterpretThis.Framework.IndexMap
import InterpretThis.Framework.Refinement
import InterpretThis.Ranges.Range

namespace InterpretThis.Counters

open IndexMap Tally
open Ranges (InI64)
open Refinement (Meets)

/-- An integer as a count; one that fits is never kept big, and an `IntEnum` member is one too. -/
inductive Count where
  | int (n : Int64)
  | bool (b : Bool)
  | bigInt (n : Int) (big : ¬InI64 n)
  | enumMember (n : Int)
deriving DecidableEq

def Count.toInt : Count → Int
  | int n => n.toInt
  | bool b => if b then 1 else 0
  | bigInt n _ => n
  | enumMember n => n

/-- `value_to_key`, `ValueKey::to_value`, `ValueKey::String` and the comparison of two keys. -/
structure Keying (X K : Type) where
  toKey : X → Option K
  toValue : K → X
  ofName : String → K
  same : K → K → Bool

section Source

variable {N X K : Type} (R : Keying X K)

/-- The entries of a mapping, in the order of insertion. -/
structure Table where
  entries : Entries K Count
  unalike : Unalike R.same entries

def counterInt : Count → Int64
  | .int n => n
  | .bool b => if b then 1 else 0
  | _ => 0

/-- What a Counter is made, updated or subtracted from; `mapping` is one that is neither a dict nor
a Counter. -/
inductive Argument (N : Type) where
  | dict (table : Table R)
  | counter (name : N)
  | mapping (table : Table R)
  | iterable (items : List X)

variable {R} in
def dictOrCounterContents (s : N → Entries K Count) : Argument R N → Option (Entries K Count)
  | .dict table => some table.entries
  | .counter c => some (s c)
  | _ => none

def iterateValue (s : N → Entries K Count) : Argument R N → List X
  | .dict table => table.entries.map fun e => R.toValue e.1
  | .counter c => (s c).map fun e => R.toValue e.1
  | .mapping table => table.entries.map fun e => R.toValue e.1
  | .iterable items => items

/-- The new count of a key after `op` with an amount. -/
def bump (op : Int64 → Int64 → Int64) (m : Entries K Count) (key : K) (amount : Int64) :
    Entries K Count :=
  insert R.same m key (.int (op (((get R.same m key).map counterInt).getD 0) amount))

/-- An item without a key raises: there is no result. -/
def counterApplyInPlace (s : N → Entries K Count) (op : Int64 → Int64 → Int64)
    (other : Option (Argument R N)) (m : Entries K Count) : Option (Entries K Count) :=
  match other with
  | none => some m
  | some other =>
    match dictOrCounterContents s other with
    | some otherMap => some (otherMap.foldl (fun m e => bump R op m e.1 (counterInt e.2)) m)
    | none => ((iterateValue R s other).mapM R.toKey).map fun keys =>
        keys.foldl (fun m key => bump R op m key 1) m

/-- An amount of another representation is skipped. -/
def counterApplyKwargs (op : Int64 → Int64 → Int64) (kwargs : List (String×Count))
    (m : Entries K Count) : Entries K Count :=
  kwargs.foldl (fun m e => match e.2 with
    | .int n => bump R op m (R.ofName e.1) n
    | .bool b => bump R op m (R.ofName e.1) (if b then 1 else 0)
    | _ => m) m

/-- `counts.entry(key).or_insert(Value::Int(0))`, and one more if that is an `i64`. -/
def tallyItem (counts : Entries K Count) (key : K) : Entries K Count :=
  match (get R.same counts key).getD (.int 0) with
  | .int n => insert R.same counts key (.int (n+1))
  | other => insert R.same counts key other

-- Where an item is an instance, `counter_construct_async` counts in its place.
def counted (s : N → Entries K Count) : Option (Argument R N) → Option (Entries K Count)
  | none => some []
  | some arg =>
    match dictOrCounterContents s arg with
    | some map => some (IndexMap.insertAll R.same [] map)
    | none => ((iterateValue R s arg).mapM R.toKey).map fun keys => keys.foldl (tallyItem R) []

def construct (s : N → Entries K Count) (arg : Option (Argument R N))
    (kwargs : List (String×Count)) : Option (Entries K Count) :=
  (counted R s arg).map fun counts =>
    kwargs.foldl (fun counts e => insert R.same counts (R.ofName e.1) e.2) counts

def counterCombineOp (a b : Entries K Count) (op : Int64 → Int64 → Int64) : Entries K Count :=
  let result := a.foldl (fun result e =>
    let r := op (counterInt e.2) (((get R.same b e.1).map counterInt).getD 0)
    if 0 < r then insert R.same result e.1 (.int r) else result) []
  b.foldl (fun result e =>
    if (get R.same a e.1).isSome then result
    else
      let r := op 0 (counterInt e.2)
      if 0 < r then insert R.same result e.1 (.int r) else result) result

def total (m : Entries K Count) : Int64 := m.foldl (fun sum e => sum+counterInt e.2) 0

def elements (m : Entries K Count) : List X :=
  m.flatMap fun e =>
    if 0<counterInt e.2 then List.replicate (counterInt e.2).toInt.toNat (R.toValue e.1) else []

/-- The entries that `most_common` lists for its argument, before `to_value`. -/
def mostCommon (m : Entries K Count) (limit : Option Value) :
    Except EvalError (List (K×Int64)) :=
  let entries := (m.map fun e => (e.1,counterInt e.2)).mergeSort fun a b => b.2≤ a.2
  match limit with
  | some (.int i) => .ok (entries.take (max i.toInt 0).toNat)
  | some (.bool b) => .ok (entries.take (if b then 1 else 0))
  | none | some .none => .ok entries
  | some _ => .error (.interpreter (.typeError "most_common(): n must be an integer or None"))

/-- The operators of Counters. -/
inductive Combination where
  | add
  | sub
  | bitAnd
  | bitOr
deriving DecidableEq

def Combination.op : Combination → Int64 → Int64 → Int64
  | add => fun x y => x+y
  | sub => fun x y => x-y
  | bitAnd => min
  | bitOr => max

/-- An operation on the Counter of a name; an operator in place names its left operand again. -/
inductive Op (N : Type) where
  | construct (c : N) (arg : Option (Argument R N)) (kwargs : List (String×Count))
  | update (c : N) (arg : Option (Argument R N)) (kwargs : List (String×Count))
  | subtract (c : N) (arg : Option (Argument R N)) (kwargs : List (String×Count))
  | setItem (c : N) (x : X) (value : Count)
  | combine (c : N) (op : Combination) (a b : N)

variable [DecidableEq N]

/-- The Counters after an operation; there are none once it has raised. -/
def step (s : N → Entries K Count) : Op R N → Option (N → Entries K Count)
  | .construct c arg kwargs => (construct R s arg kwargs).map (Function.update s c)
  | .update c arg kwargs => (counterApplyInPlace R s (·+·) arg (s c)).map fun m =>
      Function.update s c (counterApplyKwargs R (·+·) kwargs m)
  | .subtract c arg kwargs => (counterApplyInPlace R s (·-·) arg (s c)).map fun m =>
      Function.update s c (counterApplyKwargs R (·-·) kwargs m)
  | .setItem c x value => (R.toKey x).map fun key =>
      Function.update s c (insert R.same (s c) key value)
  | .combine c op a b => some (Function.update s c (counterCombineOp R (s a) (s b) op.op))

def run (s : Option (N → Entries K Count)) (ops : List (Op R N)) : Option (N → Entries K Count) :=
  ops.foldl (fun s o => s.bind fun s => step R s o) s

end Source

section Exact

variable {N X K C : Type} [DecidableEq N] [DecidableEq C] (R : Keying X K) (P : Set K) (cls : K → C)

def view (m : Entries K Count) : List (C×Int) := mapValues Count.toInt (label cls m)

/-- The amounts that an argument gives: a mapping its counts, an iterable one for each item. -/
def given (t : N → List (C×Int)) : Option (Argument R N) → List (C×Int)
  | none => []
  | some (.dict table) => view cls table.entries
  | some (.counter c) => t c
  | some (.mapping table) => view cls table.entries
  | some (.iterable items) => ((items.mapM R.toKey).getD []).map fun k => (cls k,1)

def named (kwargs : List (String×Count)) : List (C×Int) :=
  kwargs.map fun e => (cls (R.ofName e.1),e.2.toInt)

def Combination.exact : Combination → Int → Int → Int
  | add => fun x y => x+y
  | sub => fun x y => x-y
  | bitAnd => min
  | bitOr => max

/-- The Counters over the integers, under the classes of the keys. -/
def exactStep (t : N → List (C×Int)) : Op R N → N → List (C×Int)
  | .construct c arg kwargs => Function.update t c
      ((given R cls t arg++named R cls kwargs).foldl (change 1) [])
  | .update c arg kwargs => Function.update t c
      ((given R cls t arg++named R cls kwargs).foldl (change 1) (t c))
  | .subtract c arg kwargs => Function.update t c
      ((given R cls t arg++named R cls kwargs).foldl (change (-1)) (t c))
  | .setItem c x value => Function.update t c
      ((R.toKey x).elim (t c) fun k => put (cls k) value.toInt (t c))
  | .combine c op a b => Function.update t c (combine op.exact (t a) (t b))

/-- The count, the amount and the new count are in range. -/
def InRange (sign : Int) (m : List (C×Int)) (e : C×Int) : Prop :=
  InI64 (count m e.1) ∧ InI64 e.2 ∧ InI64 (count m e.1+sign*e.2)

instance (sign : Int) (m : List (C×Int)) (e : C×Int) : Decidable (InRange sign m e) :=
  inferInstanceAs (Decidable (_ ∧ _))

/-- A count that is read at all: no enum member. -/
def Count.Read : Count → Prop
  | enumMember _ => False
  | _ => True

/-- Entries under keys of `P`, whose counts are read. -/
def Tame (m : Entries K Count) : Prop := ∀ e∈m,e.1∈P ∧ e.2.Read

/-- The keys are of `P`, and a mapping that is neither a dict nor a Counter counts each of its keys
once. -/
def Gives : Option (Argument R N) → Prop
  | some (.dict table) => Tame P table.entries
  | some (.mapping table) => Tame P table.entries ∧ ∀ e ∈ table.entries,e.2.toInt=1
  | some (.iterable items) => ∃ ks,items.mapM R.toKey=some ks ∧ ∀ k∈ks,k∈P
  | _ => True

def Names (kwargs : List (String×Count)) : Prop := ∀ e∈kwargs,R.ofName e.1∈P ∧ e.2.Read

variable {R} in
/-- Only the items of an iterable are counted one by one. -/
def Tallied : Option (Argument R N) → Prop
  | some (.mapping _) => True
  | some (.iterable _) => True
  | _ => False

/-- The steps that the code gets right: the keys are of `P`, the counts it reads and those it
computes are in range, and keywords of a construction name keys without a count. -/
def Fits (t : N → List (C×Int)) : Op R N → Prop
  | .construct _ arg kwargs => Gives R P arg ∧ Names R P kwargs ∧
      (Tallied arg → Meets (change 1) (InRange 1) [] (given R cls t arg)) ∧
      Meets (change 1) (fun m e => count m e.1=0) ((given R cls t arg).foldl (change 1) [])
        (named R cls kwargs)
  | .update c arg kwargs => Gives R P arg ∧ Names R P kwargs ∧
      Meets (change 1) (InRange 1) (t c) (given R cls t arg++named R cls kwargs)
  | .subtract c arg kwargs => Gives R P arg ∧ Names R P kwargs ∧
      Meets (change (-1)) (InRange (-1)) (t c) (given R cls t arg++named R cls kwargs)
  | .setItem _ x value => value.Read ∧ ∃ k∈P,R.toKey x=some k
  | .combine _ op a b => (∀ e ∈ t a,InI64 e.2 ∧ InI64 (op.exact e.2 (count (t b) e.1))) ∧
      ∀ e ∈ t b,InI64 e.2 ∧ InI64 (op.exact (count (t a) e.1) e.2)

/-- Keys of `P` are compared by their classes and hash as the values they are shown as. -/
structure Plain : Prop where
  classes : Classes R.same P cls
  shown : ∀ k∈P,∃ j∈P,R.toKey (R.toValue k)=some j ∧ cls j=cls k

end Exact

section Agreement

variable {N X K C : Type} [DecidableEq N] [DecidableEq C] {R : Keying X K} {P : Set K} {cls : K → C}
  {m : Entries K Count} {k : K}

theorem counterInt_exact {c : Count} (hc : c.Read) (h : InI64 c.toInt) :
    (counterInt c).toInt=c.toInt := by
  cases c with
  | int n => rfl
  | bool b => cases b <;> rfl
  | bigInt n big => exact absurd h big
  | enumMember n => exact hc.elim

theorem Tame.within (hm : Tame P m) : IndexMap.Within P m := fun e he => (hm e he).1

theorem Tame.insert (hm : Tame P m) (hk : k∈P) {c : Count} (hc : c.Read) :
    Tame P (insert R.same m k c) := by
  intro e he
  refine ⟨hm.within.insert hk c e he,?_⟩
  rcases (mem_insert he).2 with hec|hem
  · exact hec ▸ hc
  · exact (hm e hem).2

omit [DecidableEq C] in
theorem view_eq (cls : K → C) (m : Entries K Count) :
    view cls m=m.map fun e => (cls e.1,e.2.toInt) := by
  rw [view,mapValues,label,List.map_map]
  rfl

theorem view_insert (hR : Plain R P cls) (hm : Tame P m) (hk : k∈P) (c : Count) :
    view cls (insert R.same m k c)=put (cls k) c.toInt (view cls m) := by
  rw [view,label_insert hR.classes hm.within hk,mapValues_put]
  rfl

theorem count_view (hR : Plain R P cls) (hm : Tame P m) (hk : k∈P) :
    count (view cls m) (cls k)=((get R.same m k).map Count.toInt).getD 0 := by
  rw [count,view,find_mapValues,find_label hR.classes hm.within hk]

theorem mem_of_get {c : Count} (h : get R.same m k=some c) : ∃ j,(j,c)∈m := by
  obtain ⟨e,he,rfl⟩ := Option.map_eq_some_iff.mp h
  exact ⟨e.1,List.mem_of_find?_eq_some he⟩

theorem read_exact (hR : Plain R P cls) (hm : Tame P m) (hk : k∈P)
    (h : InI64 (count (view cls m) (cls k))) :
    (((get R.same m k).map counterInt).getD 0).toInt=count (view cls m) (cls k) := by
  rw [count_view hR hm hk] at h ⊢
  cases hget : get R.same m k with
  | none => rfl
  | some c =>
    rw [hget] at h
    obtain ⟨j,hj⟩ := mem_of_get hget
    exact counterInt_exact (hm _ hj).2 h

omit [DecidableEq C] in
theorem mem_view {e : K×Count} (he : e∈m) : (cls e.1,e.2.toInt)∈view cls m := by
  rw [view_eq]
  exact List.mem_map_of_mem (f := fun e : K×Count => (cls e.1,e.2.toInt)) he

/-- What an operator of words does to integers. -/
def Moves (op : Int64 → Int64 → Int64) (sign : Int) : Prop :=
  ∀ a b,(op a b).toInt=Ranges.wrap (a.toInt+sign*b.toInt)

theorem moves_add : Moves (·+·) 1 := by
  intro a b
  rw [Ranges.toInt_add,one_mul]

theorem moves_sub : Moves (·-·) (-1) := by
  intro a b
  rw [Ranges.toInt_sub]
  congr 1
  ring

variable {op : Int64 → Int64 → Int64}

theorem bump_exact (hR : Plain R P cls) {sign : Int} (hop : Moves op sign) (hm : Tame P m)
    (hk : k∈P) {n : Int64} (h : InRange sign (view cls m) (cls k,n.toInt)) :
    Tame P (bump R op m k n) ∧
      view cls (bump R op m k n)=change sign (view cls m) (cls k,n.toInt) := by
  obtain ⟨hread,-,hnew⟩ := h
  refine ⟨hm.insert hk trivial,?_⟩
  rw [bump,view_insert hR hm hk,change]
  congr 1
  show (op _ n).toInt=_
  rw [hop,read_exact hR hm hk hread,Ranges.wrap_of_in hnew]

/-- A loop that is right at each turn is right. -/
theorem loop_exact {U : Type} {pass : Entries K Count → U → Entries K Count} {entry : U → C×Int}
    {sign : Int} {ok : List (C×Int) → C×Int → Prop} (us : List U)
    (hpass : ∀ u∈us,∀ m,Tame P m → ok (view cls m) (entry u) →
      Tame P (pass m u) ∧ view cls (pass m u)=change sign (view cls m) (entry u))
    (hm : Tame P m) (h : Meets (change sign) ok (view cls m) (us.map entry)) :
    Tame P (us.foldl pass m) ∧
      view cls (us.foldl pass m)=(us.map entry).foldl (change sign) (view cls m) := by
  induction us generalizing m with
  | nil => exact ⟨hm,rfl⟩
  | cons u us ih =>
    obtain ⟨hu,hus⟩ := h
    obtain ⟨htame,hview⟩ := hpass u List.mem_cons_self m hm hu
    rw [← hview] at hus
    rw [List.foldl_cons,List.map_cons,List.foldl_cons,← hview]
    exact ih (fun v hv => hpass v (List.mem_cons_of_mem u hv)) htame hus

theorem items_exact (hR : Plain R P cls) {sign : Int} (hop : Moves op sign) {ks : List K}
    (hks : ∀ k∈ks,k∈P) (hm : Tame P m)
    (h : Meets (change sign) (InRange sign) (view cls m) (ks.map fun k => (cls k,1))) :
    Tame P (ks.foldl (fun m k => bump R op m k 1) m) ∧
      view cls (ks.foldl (fun m k => bump R op m k 1) m)=
        (ks.map fun k => (cls k,1)).foldl (change sign) (view cls m) :=
  loop_exact ks (fun k hk _ hm ok => bump_exact hR hop hm (hks k hk) (n := 1) ok) hm h

/-- The keys that a mapping shows are its own again. -/
theorem mapM_shown (hR : Plain R P cls) {es : Entries K Count} (hes : Tame P es) :
    ∃ ks,(es.map fun e => R.toValue e.1).mapM R.toKey=some ks ∧ (∀ k∈ks,k∈P) ∧
      ks.map cls=es.map fun e => cls e.1 := by
  induction es with
  | nil => exact ⟨[],rfl,fun _ h => (by cases h),rfl⟩
  | cons e es ih =>
    obtain ⟨ks,hmap,hks,hcls⟩ := ih fun d hd => hes d (List.mem_cons_of_mem e hd)
    obtain ⟨j,hj,hkey,hsame⟩ := hR.shown e.1 (hes e List.mem_cons_self).1
    refine ⟨j::ks,?_,List.forall_mem_cons.mpr ⟨hj,hks⟩,congrArg₂ List.cons hsame hcls⟩
    rw [List.map_cons,List.mapM_cons,hkey,hmap]
    rfl

variable {s : N → Entries K Count} {t : N → List (C×Int)}

theorem given_keys (hR : Plain R P cls) {arg : Argument R N} (harg : Gives R P (some arg))
    (h : dictOrCounterContents s arg=none) :
    ∃ ks,(iterateValue R s arg).mapM R.toKey=some ks ∧ (∀ k∈ks,k∈P) ∧
      given R cls t (some arg)=ks.map fun k => (cls k,1) := by
  cases arg with
  | dict table => cases h
  | counter c => cases h
  | mapping table =>
    obtain ⟨ks,hmap,hks,hcls⟩ := mapM_shown hR harg.1
    refine ⟨ks,hmap,hks,?_⟩
    have pairs : (ks.map cls).map (fun c => (c,(1 : Int)))=ks.map fun k => (cls k,1) :=
      List.map_map
    rw [← pairs,hcls,List.map_map,given,view_eq]
    exact List.map_congr_left fun e he => Prod.ext rfl (harg.2 e he)
  | iterable items =>
    obtain ⟨ks,hmap,hks⟩ := harg
    refine ⟨ks,hmap,hks,?_⟩
    rw [given,hmap]
    rfl

/-- The Counters of the code are those over the integers. -/
def Exact (P : Set K) (cls : K → C) (s : N → Entries K Count) (t : N → List (C×Int)) : Prop :=
  ∀ c,Tame P (s c) ∧ view cls (s c)=t c ∧ Distinct (t c)

theorem given_entries (hR : Plain R P cls) (hs : Exact P cls s t) {arg : Argument R N}
    (harg : Gives R P (some arg)) {entries : Entries K Count}
    (h : dictOrCounterContents s arg=some entries) :
    Tame P entries ∧ given R cls t (some arg)=view cls entries ∧ Distinct (view cls entries) := by
  cases arg with
  | dict table =>
    cases h
    refine ⟨harg,rfl,?_⟩
    rw [Distinct,view,keys_mapValues]
    exact distinct_label hR.classes harg.within table.unalike
  | counter c =>
    cases h
    obtain ⟨htame,hview,hdistinct⟩ := hs c
    exact ⟨htame,hview.symm,hview ▸ hdistinct⟩
  | mapping table => cases h
  | iterable items => cases h

variable {arg : Option (Argument R N)}

theorem applyInPlace_exact (hR : Plain R P cls) {sign : Int} (hop : Moves op sign)
    (hs : Exact P cls s t) (harg : Gives R P arg) (hm : Tame P m)
    (h : Meets (change sign) (InRange sign) (view cls m) (given R cls t arg)) :
    ∃ m',counterApplyInPlace R s op arg m=some m' ∧ Tame P m' ∧
      view cls m'=(given R cls t arg).foldl (change sign) (view cls m) := by
  cases arg with
  | none => exact ⟨m,rfl,hm,rfl⟩
  | some arg =>
    rw [counterApplyInPlace]
    cases hmap : dictOrCounterContents s arg with
    | none =>
      obtain ⟨ks,hkeys,hks,hgiven⟩ := given_keys (t := t) hR harg hmap
      rw [hgiven] at h ⊢
      exact ⟨_,congrArg (Option.map _) hkeys,items_exact hR hop hks hm h⟩
    | some entries =>
      obtain ⟨htame,hgiven,-⟩ := given_entries hR hs harg hmap
      rw [hgiven,view_eq cls entries] at h ⊢
      refine ⟨_,rfl,loop_exact entries (fun e he m hm ok => ?_) hm h⟩
      have hamount := counterInt_exact (htame e he).2 ok.2.1
      have hbump := bump_exact hR hop hm (htame e he).1 (n := counterInt e.2) (by
        rw [hamount]
        exact ok)
      rwa [hamount] at hbump

theorem applyKwargs_exact (hR : Plain R P cls) {sign : Int} (hop : Moves op sign)
    {kwargs : List (String×Count)} (hkwargs : Names R P kwargs) (hm : Tame P m)
    (h : Meets (change sign) (InRange sign) (view cls m) (named R cls kwargs)) :
    Tame P (counterApplyKwargs R op kwargs m) ∧
      view cls (counterApplyKwargs R op kwargs m)=
        (named R cls kwargs).foldl (change sign) (view cls m) := by
  refine loop_exact kwargs (fun e he m hm ok => ?_) hm h
  obtain ⟨hname,hread⟩ := hkwargs e he
  obtain ⟨name,amount⟩ := e
  cases amount with
  | int n => exact bump_exact hR hop hm hname ok
  | bool b =>
    have hamount : ((if b then 1 else 0 : Int64)).toInt=(Count.bool b).toInt := by cases b <;> rfl
    rw [← hamount] at ok ⊢
    exact bump_exact hR hop hm hname ok
  | bigInt n big => exact absurd ok.2.1 big
  | enumMember n => exact hread.elim

/-- Where every count is an `i64`, counting an item is an update with it. -/
theorem tally_bump (ks : List K) (h : ∀ e∈m,∃ n,e.2=Count.int n) :
    ks.foldl (tallyItem R) m=ks.foldl (fun m k => bump R (·+·) m k 1) m := by
  induction ks generalizing m with
  | nil => rfl
  | cons k ks ih =>
    have hone : tallyItem R m k=bump R (·+·) m k 1 := by
      rw [tallyItem,bump]
      cases hget : get R.same m k with
      | none => rfl
      | some c =>
        obtain ⟨j,hj⟩ := mem_of_get hget
        obtain ⟨n,hn⟩ := h _ hj
        obtain rfl : c=.int n := hn
        rfl
    rw [List.foldl_cons,List.foldl_cons,hone]
    refine ih fun e he => ?_
    rcases (mem_insert he).2 with hnew|hold
    · exact ⟨_,hnew⟩
    · exact h e hold

theorem seed_exact (hR : Plain R P cls) (hm : Tame P m) (hk : k∈P) {c : Count} (hc : c.Read)
    (h : count (view cls m) (cls k)=0) : Tame P (insert R.same m k c) ∧
      view cls (insert R.same m k c)=change 1 (view cls m) (cls k,c.toInt) := by
  refine ⟨hm.insert hk hc,?_⟩
  rw [view_insert hR hm hk,change,h,zero_add,one_mul]

theorem meets_distinct {es m : List (C×Int)} (hd : Distinct es) (h : ∀ e ∈ es,count m e.1=0) :
    Meets (change 1) (fun m e => count m e.1=0) m es := by
  induction es generalizing m with
  | nil => trivial
  | cons e es ih =>
    obtain ⟨hfirst,hrest⟩ := List.nodup_cons.mp hd
    refine ⟨h e (List.mem_cons_self ..),ih hrest fun d hin => ?_⟩
    have hne : e.1≠d.1 := fun heq => hfirst (heq ▸ List.mem_map_of_mem hin)
    rw [count_change,if_neg hne]
    exact h d (List.mem_cons_of_mem _ hin)

theorem counted_exact (hR : Plain R P cls) (hs : Exact P cls s t) (harg : Gives R P arg)
    (h : Tallied arg → Meets (change 1) (InRange 1) [] (given R cls t arg)) :
    ∃ m,counted R s arg=some m ∧ Tame P m ∧
      view cls m=(given R cls t arg).foldl (change 1) [] := by
  have hnil : Tame P ([] : Entries K Count) := fun _ h => (by cases h)
  cases arg with
  | none => exact ⟨[],rfl,hnil,rfl⟩
  | some arg =>
    rw [counted]
    cases hmap : dictOrCounterContents s arg with
    | none =>
      have htallied : Tallied (some arg) := by
        cases arg with
        | dict table => cases hmap
        | counter c => cases hmap
        | mapping table => trivial
        | iterable items => trivial
      obtain ⟨ks,hkeys,hks,hgiven⟩ := given_keys (t := t) hR harg hmap
      have hrange := h htallied
      rw [hgiven] at hrange ⊢
      refine ⟨ks.foldl (tallyItem R) [],congrArg (Option.map _) hkeys,?_⟩
      rw [tally_bump ks fun e he => (by cases he)]
      exact items_exact hR moves_add hks hnil hrange
    | some entries =>
      obtain ⟨htame,hgiven,hdistinct⟩ := given_entries hR hs harg hmap
      have hmeets := meets_distinct (m := []) hdistinct fun e _ => rfl
      rw [hgiven]
      rw [view_eq cls entries] at hmeets ⊢
      exact ⟨_,rfl,loop_exact entries
        (fun e he m hm ok => seed_exact hR hm (htame e he).1 (htame e he).2 ok) hnil hmeets⟩

theorem construct_exact (hR : Plain R P cls) (hs : Exact P cls s t) {kwargs : List (String×Count)}
    {c : N} (h : Fits R P cls t (.construct c arg kwargs)) :
    ∃ m,construct R s arg kwargs=some m ∧ Tame P m ∧
      view cls m=(given R cls t arg++named R cls kwargs).foldl (change 1) [] := by
  obtain ⟨harg,hkwargs,htallied,hnamed⟩ := h
  obtain ⟨m,hm,htame,hview⟩ := counted_exact hR hs harg htallied
  refine ⟨_,congrArg (Option.map _) hm,?_⟩
  rw [List.foldl_append,← hview]
  rw [← hview] at hnamed
  exact loop_exact kwargs
    (fun e he m hm ok => seed_exact hR hm (hkwargs e he).1 (hkwargs e he).2 ok) htame hnamed

theorem combination_exact (op : Combination) {x y : Int64}
    (h : InI64 (op.exact x.toInt y.toInt)) : (op.op x y).toInt=op.exact x.toInt y.toInt := by
  cases op with
  | add => exact (Ranges.toInt_add x y).trans (Ranges.wrap_of_in h)
  | sub => exact (Ranges.toInt_sub x y).trans (Ranges.wrap_of_in h)
  | bitAnd =>
    show (if x≤y then x else y).toInt=min x.toInt y.toInt
    rw [min_def,apply_ite Int64.toInt]
    simp only [Int64.le_iff_toInt_le]
  | bitOr =>
    show (if x≤y then y else x).toInt=max x.toInt y.toInt
    rw [max_def,apply_ite Int64.toInt]
    simp only [Int64.le_iff_toInt_le]

/-- A loop that keeps the positive results. -/
theorem positive_exact (hR : Plain R P cls) {r : K×Count → Int64} {z : C×Int → Int}
    {es : Entries K Count} (hes : Within P es)
    (h : ∀ e∈es,(r e).toInt=z (cls e.1,e.2.toInt)) (hm : Tame P m) :
    Tame P (es.foldl (fun m e => if 0 < r e then insert R.same m e.1 (.int (r e)) else m) m) ∧
    view cls (es.foldl (fun m e => if 0 < r e then insert R.same m e.1 (.int (r e)) else m) m)=
      (view cls es).foldl (fun m e => if decide (0<z e) then put e.1 (z e) m else m)
        (view cls m) := by
  induction es generalizing m with
  | nil => exact ⟨hm,rfl⟩
  | cons e es ih =>
    have he := hes e List.mem_cons_self
    have hz := h e List.mem_cons_self
    have hpos : 0 < r e ↔ 0<z (cls e.1,e.2.toInt) := by
      rw [Int64.lt_iff_toInt_lt,hz]
      rfl
    have hrest := fun m hm => ih (m := m) hes.tail
      (fun d hd => h d (List.mem_cons_of_mem e hd)) hm
    rw [view_eq cls (e::es),List.map_cons,List.foldl_cons,List.foldl_cons,← view_eq]
    by_cases hp : 0 < r e
    · rw [if_pos hp,if_pos (by simpa using hpos.mp hp),← hz]
      obtain ⟨htame,hview⟩ := hrest _ (hm.insert he (c := .int (r e)) trivial)
      rw [view_insert hR hm he] at hview
      exact ⟨htame,hview⟩
    · rw [if_neg hp,if_neg (by simpa using fun hc => hp (hpos.mpr hc))]
      exact hrest m hm

theorem isSome_get (hR : Plain R P cls) (hm : Tame P m) (hk : k∈P) :
    (get R.same m k).isSome=(find (cls k) (view cls m)).isSome := by
  rw [view,find_mapValues,find_label hR.classes hm.within hk,Option.isSome_map]

/-- The two loops of an operator. -/
theorem combine_exact (hR : Plain R P cls) {a b : Entries K Count} (ha : Tame P a) (hb : Tame P b)
    (hda : Distinct (view cls a)) (hdb : Distinct (view cls b)) (op : Combination)
    (hfa : ∀ e ∈ view cls a,InI64 e.2 ∧ InI64 (op.exact e.2 (count (view cls b) e.1)))
    (hfb : ∀ e ∈ view cls b,InI64 e.2 ∧ InI64 (op.exact (count (view cls a) e.1) e.2)) :
    Tame P (counterCombineOp R a b op.op) ∧
      view cls (counterCombineOp R a b op.op)=combine op.exact (view cls a) (view cls b) := by
  have hreads : ∀ c,InI64 (count (view cls b) c) := by
    intro c
    rw [count]
    cases hfind : find c (view cls b) with
    | none => decide
    | some n => exact (hfb (c,n) (mem_of_find hfind)).1
  have hleft : ∀ e∈a,(op.op (counterInt e.2) (((get R.same b e.1).map counterInt).getD 0)).toInt=
      op.exact e.2.toInt (count (view cls b) (cls e.1)) := by
    intro e he
    obtain ⟨hread,hnew⟩ := hfa _ (mem_view he)
    have hamount := counterInt_exact (ha e he).2 hread
    have hother := read_exact hR hb (ha e he).1 (hreads _)
    rw [combination_exact op (by rw [hamount,hother]; exact hnew),hamount,hother]
  have hright : ∀ e∈b.filter fun e => !(get R.same a e.1).isSome,
      (op.op 0 (counterInt e.2)).toInt=op.exact 0 e.2.toInt := by
    intro e he
    obtain ⟨hin,hnew⟩ := List.mem_filter.mp he
    obtain ⟨hread,hnext⟩ := hfb _ (mem_view hin)
    have hzero : count (view cls a) (cls e.1)=0 := by
      rw [isSome_get hR ha (hb e hin).1,Bool.not_eq_true',Option.isSome_eq_false_iff,
        Option.isNone_iff_eq_none] at hnew
      rw [count,hnew]
      rfl
    rw [hzero] at hnext
    have hamount := counterInt_exact (hb e hin).2 hread
    rw [combination_exact op (by rw [hamount]; exact hnext),hamount]
    rfl
  obtain ⟨hfirst,hfirstView⟩ := positive_exact hR
    (z := fun e => op.exact e.2 (count (view cls b) e.1)) ha.within hleft (m := [])
    fun _ h => (by cases h)
  obtain ⟨hsecond,hsecondView⟩ := positive_exact hR (z := fun e => op.exact 0 e.2)
    (fun e he => (hb e (List.mem_filter.mp he).1).1) hright hfirst
  have hloops : counterCombineOp R a b op.op=
      (b.filter fun e => !(get R.same a e.1).isSome).foldl (fun m e =>
        if 0<op.op 0 (counterInt e.2) then insert R.same m e.1 (.int (op.op 0 (counterInt e.2)))
        else m) (a.foldl (fun m e =>
          if 0<op.op (counterInt e.2) (((get R.same b e.1).map counterInt).getD 0) then
            insert R.same m e.1
              (.int (op.op (counterInt e.2) (((get R.same b e.1).map counterInt).getD 0)))
          else m) []) := by
    rw [List.foldl_filter,counterCombineOp]
    refine congrFun (congrFun (congrArg _ (funext fun m => funext fun e => ?_)) _) _
    cases (get R.same a e.1).isSome <;> rfl
  have hkeep : view cls (b.filter fun e => !(get R.same a e.1).isSome)=
      (view cls b).filter fun e => (find e.1 (view cls a)).isNone := by
    rw [view_eq cls b,view_eq cls (b.filter _),List.filter_map]
    refine congrArg _ (List.filter_congr fun e he => ?_)
    rw [isSome_get hR ha (hb e he).1,Option.not_isSome]
    rfl
  rw [hloops]
  refine ⟨hsecond,hsecondView.trans ?_⟩
  rw [hfirstView,hkeep,foldl_put_new _ _ _ _ hda fun e _ => rfl,
    foldl_put_new _ _ _ _ (hdb.sublist (List.filter_sublist.map _)) ?_]
  · rw [combine,List.filter_append,List.filter_map,List.filter_map]
    rfl
  · intro e he
    have hnone := (List.mem_filter.mp he).2
    rw [Option.isNone_iff_eq_none,find_none_iff] at hnone
    rw [find_none_iff]
    intro hin
    refine hnone ?_
    change e.1∈List.map Prod.fst ([]++_) at hin
    rw [List.nil_append,List.map_map] at hin
    exact (List.filter_sublist.map _).subset hin

theorem Exact.update (h : Exact P cls s t) (c : N) {n : List (C×Int)} (hm : Tame P m)
    (hview : view cls m=n) (hd : Distinct n) :
    Exact P cls (Function.update s c m) (Function.update t c n) := by
  intro d
  by_cases hc : d=c
  · subst hc
    simpa using ⟨hm,hview,hd⟩
  · simpa [hc] using h d

/-- `update` and `subtract`. -/
theorem changed_exact (hR : Plain R P cls) {sign : Int} (hop : Moves op sign) (hs : Exact P cls s t)
    (c : N) {kwargs : List (String×Count)} (harg : Gives R P arg) (hkwargs : Names R P kwargs)
    (h : Meets (change sign) (InRange sign) (t c)
      (given R cls t arg++named R cls kwargs)) :
    ∃ m,counterApplyInPlace R s op arg (s c)=some m ∧ Tame P (counterApplyKwargs R op kwargs m) ∧
      view cls (counterApplyKwargs R op kwargs m)=
        (given R cls t arg++named R cls kwargs).foldl (change sign) (t c) := by
  obtain ⟨htame,hview,-⟩ := hs c
  obtain ⟨hgiven,hnamed⟩ := Refinement.meets_append.mp h
  rw [← hview] at hgiven hnamed
  obtain ⟨m,hm,hplaced,hplace⟩ := applyInPlace_exact hR hop hs harg htame hgiven
  rw [← hplace] at hnamed
  obtain ⟨hnames,hresult⟩ := applyKwargs_exact hR hop hkwargs hplaced hnamed
  refine ⟨m,hm,hnames,?_⟩
  rw [hresult,hplace,hview,List.foldl_append]

theorem step_exact (hR : Plain R P cls) (o : Op R N) (h : Exact P cls s t) (ho : Fits R P cls t o) :
    ∃ s',step R s o=some s' ∧ Exact P cls s' (exactStep R cls t o) := by
  cases o with
  | construct c arg kwargs =>
    obtain ⟨m,hm,htame,hview⟩ := construct_exact hR h ho
    exact ⟨_,congrArg (Option.map _) hm,
      h.update c htame hview (distinct_changes _ List.nodup_nil)⟩
  | update c arg kwargs =>
    obtain ⟨m,hm,htame,hview⟩ := changed_exact hR moves_add h c ho.1 ho.2.1 ho.2.2
    exact ⟨_,congrArg (Option.map _) hm,h.update c htame hview (distinct_changes _ (h c).2.2)⟩
  | subtract c arg kwargs =>
    obtain ⟨m,hm,htame,hview⟩ := changed_exact hR moves_sub h c ho.1 ho.2.1 ho.2.2
    exact ⟨_,congrArg (Option.map _) hm,h.update c htame hview (distinct_changes _ (h c).2.2)⟩
  | setItem c x value =>
    obtain ⟨hread,k,hk,hkey⟩ := ho
    obtain ⟨htame,hview,hdistinct⟩ := h c
    refine ⟨_,congrArg (Option.map _) hkey,?_⟩
    rw [exactStep,hkey,Option.elim]
    refine h.update c (htame.insert hk hread) ?_ (distinct_put hdistinct)
    rw [view_insert hR htame hk,hview]
  | combine c op a b =>
    obtain ⟨ha,hviewA,hdistinctA⟩ := h a
    obtain ⟨hb,hviewB,hdistinctB⟩ := h b
    obtain ⟨htame,hview⟩ := combine_exact hR ha hb (by rwa [hviewA]) (by rwa [hviewB]) op
      (by rw [hviewA,hviewB]; exact ho.1) (by rw [hviewA,hviewB]; exact ho.2)
    rw [hviewA,hviewB] at hview
    exact ⟨_,rfl,h.update c htame hview (distinct_combine _ hdistinctA hdistinctB)⟩

theorem run_exact (hR : Plain R P cls) (ops : List (Op R N)) (h : Exact P cls s t)
    (hops : Meets (exactStep R cls) (Fits R P cls) t ops) :
    ∃ s',run R (some s) ops=some s' ∧ Exact P cls s' (ops.foldl (exactStep R cls) t) := by
  refine Refinement.run_simulates (fun s o => s.bind fun s => step R s o) (exactStep R cls)
    (Fits R P cls) (fun s t => ∃ s',s=some s' ∧ Exact P cls s' t) ?_ ops (some s) t ⟨s,rfl,h⟩ hops
  rintro s t o ⟨s',rfl,hs⟩ ho
  exact step_exact hR o hs ho

end Agreement

section Reading

variable {X K C : Type} {R : Keying X K} {P : Set K} {cls : K → C} {m : Entries K Count}

theorem read {e : K×Count} (hm : Tame P m) (h : ∀ e ∈ view cls m,InI64 e.2) (he : e ∈ m) :
    (counterInt e.2).toInt=e.2.toInt :=
  counterInt_exact (hm e he).2 (h _ (mem_view he))

theorem sum_wrap {es : Entries K Count} (hes : Tame P es) (sum : Int64)
    (h : ∀ e ∈ view cls es,InI64 e.2) :
    (es.foldl (fun sum e => sum+counterInt e.2) sum).toInt=
      Ranges.wrap (sum.toInt+Tally.total (view cls es)) := by
  induction es generalizing sum with
  | nil => simp [view_eq,Tally.total,Ranges.wrap_of_in (Ranges.in_toInt sum)]
  | cons e es ih =>
    have hone := read hes h List.mem_cons_self
    have hrest : ∀ d ∈ view cls es,InI64 d.2 := fun d hd => h d (List.mem_cons_of_mem _ hd)
    have htotal : Tally.total (view cls (e::es))=e.2.toInt+Tally.total (view cls es) := by
      simp [Tally.total,view_eq]
    rw [List.foldl_cons,ih (fun d hd => hes d (List.mem_cons_of_mem e hd)) _ hrest,
      Ranges.toInt_add,hone,Ranges.wrap_wrap_add,htotal,add_assoc]

theorem total_exact (hm : Tame P m) (h : ∀ e ∈ view cls m,InI64 e.2)
    (hsum : InI64 (Tally.total (view cls m))) : (total m).toInt=Tally.total (view cls m) := by
  have hwrap := sum_wrap hm 0 h
  rw [show (0 : Int64).toInt=0 from rfl,zero_add,Ranges.wrap_of_in hsum] at hwrap
  exact hwrap

theorem elements_exact (hm : Tame P m) (h : ∀ e ∈ view cls m,InI64 e.2) :
    elements R m=m.flatMap fun e => List.replicate e.2.toInt.toNat (R.toValue e.1) := by
  refine List.flatMap_congr fun e he => ?_
  have hone := read hm h he
  by_cases hp : 0<counterInt e.2
  · rw [if_pos hp,hone]
  · rw [Int64.lt_iff_toInt_lt,hone] at hp
    have hzero : e.2.toInt.toNat=0 := by
      have hle : ¬(0 : Int)<e.2.toInt := hp
      omega
    rw [if_neg (by rw [Int64.lt_iff_toInt_lt,hone]; exact hp)]
    simp only [hzero,List.replicate_zero]

theorem mostCommon_exact (hm : Tame P m) (h : ∀ e ∈ view cls m,InI64 e.2) :
    ∃ items,mostCommon m none=.ok items ∧ StableSorted (fun a b => decide (b.2<a.2))
      (m.map fun e => (e.1,e.2.toInt)) (items.map fun e => (e.1,e.2.toInt)) := by
  refine ⟨_,rfl,?_⟩
  have hread : (m.map fun e => (e.1,e.2.toInt))=
      (m.map fun e => (e.1,counterInt e.2)).map fun e => (e.1,e.2.toInt) := by
    rw [List.map_map]
    exact List.map_congr_left fun e he => Prod.ext rfl (read hm h he).symm
  have hsorted := stableSorted_mergeSort (fun e : K×Int64 => e.2.toInt)
    (m.map fun e => (e.1,counterInt e.2))
  simp only [← Int64.le_iff_toInt_le] at hsorted
  rw [hread]
  exact stableSorted_map (fun a b => rfl) hsorted

end Reading

section Claims

variable {N X K C : Type} [DecidableEq N] [DecidableEq C]

/-- Names as keys, and a list, which is none. -/
def texts : Keying (Option String) String := ⟨id,some,id,fun a b => a==b⟩

theorem texts_plain : Plain texts Set.univ id where
  classes _ _ _ _ := beq_iff_eq
  shown k _ := ⟨k,trivial,rfl,rfl⟩

/-- A Counter of items and a keyword, an item assigned, an update and a difference. -/
def kept : List (Op texts Bool) :=
  [.construct true (some (.iterable [some "a",some "b",some "a"])) [("c",.int (-3))],
    .setItem true (some "b") (.bool true),.update true none [("a",.int 5)],
    .construct false (some (.counter true)) [],.subtract false (some (.iterable [some "a"])) [],
    .combine true .sub true false]

theorem kept_fits : Meets (exactStep texts id) (Fits texts Set.univ id) (fun _ => []) kept := by
  have listed (xs : List String) : Gives texts Set.univ
      (some (.iterable (xs.map some)) : Option (Argument texts Bool)) := by
    refine ⟨xs,?_,fun _ _ => trivial⟩
    induction xs with
    | nil => rfl
    | cons x xs ih => rw [List.map_cons,List.mapM_cons,ih]; rfl
  have names (n : String) (i : Int64) : Names texts Set.univ [(n,.int i)] := by
    intro e he
    rw [List.mem_singleton.mp he]
    exact ⟨trivial,trivial⟩
  have unnamed : Names texts Set.univ [] := fun _ h => (by cases h)
  refine ⟨⟨listed ["a","b","a"],names "c" (-3),fun _ => ?_,?_⟩,⟨trivial,"b",trivial,rfl⟩,
    ⟨trivial,names "a" 5,?_⟩,⟨trivial,unnamed,fun h => h.elim,trivial⟩,
    ⟨listed ["a"],unnamed,?_⟩,?_,trivial⟩
  · exact ⟨by decide,by decide,by decide,trivial⟩
  · exact ⟨by decide,trivial⟩
  · exact ⟨by decide,trivial⟩
  · exact ⟨by decide,trivial⟩
  · exact ⟨by decide,by decide⟩

end Claims

end InterpretThis.Counters
