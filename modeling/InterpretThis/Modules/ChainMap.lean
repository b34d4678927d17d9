import InterpretThis.Framework.IndexMap

namespace InterpretThis.ChainMap

open IndexMap

variable {X K V C : Type}

inductive Raised (K : Type) where
  | keyError (key : K)
  | notInFirst (key : K)
  | popitemEmpty
  | other (kind message : String)

def Raised.kind : Raised K → String
  | .other kind _ => kind
  | _ => "KeyError"

/-- `value_to_key`, `ValueKey::to_value`, the comparison of two keys, and the values Python
hashes. -/
structure Keying (X K : Type) where
  toKey : X → Except (Raised K) K
  toValue : K → X
  same : K → K → Bool
  hashable : X → Bool

/-- The shared dicts, by their address. -/
structure Heap (same : K → K → Bool) (V : Type) where
  dicts : ℕ → Entries K V
  unalike : ∀ a,Unalike same (dicts a)

def orKeyError (k : K) : Option V → Except (Raised K) V
  | some v => .ok v
  | none => .error (.keyError k)

section Reads

variable (R : Keying X K) (heap : Heap R.same V) (maps : List ℕ)

/-- `chainmap_contents`: the maps last to first into one. -/
def contents : Entries K V :=
  maps.reverse.foldl (fun out a => insertAll R.same out (heap.dicts a)) []

/-- The scan of `chainmap_get_item`. -/
def scan (k : K) : Option V := maps.findSome? fun a => get R.same (heap.dicts a) k

def getItem (x : X) : Except (Raised K) V := do
  let k ← R.toKey x
  orKeyError k (scan R heap maps k)

def contains (x : X) : Except (Raised K) Bool := do
  let k ← R.toKey x
  return maps.foldl (fun found a => found || (get R.same (heap.dicts a) k).isSome) false

/-- One step of the loops over keys. The set of those seen holds what the order does. -/
def see (same : K → K → Bool) (seen : List K) (k : K) : List K :=
  if seen.any (same k) then seen else seen++[k]

def keysOf (a : ℕ) : List K := (heap.dicts a).map Prod.fst

/-- `chainmap_iter`, before `to_value`. -/
def order : List K :=
  maps.reverse.foldl (fun seen a => (keysOf R heap a).foldl (see R.same) seen) []

def iter : List X := (order R heap maps).map R.toValue

/-- `chainmap_len`, over the maps first to last. -/
def len : ℕ := (maps.foldl (fun seen a => (keysOf R heap a).foldl (see R.same) seen) []).length

def keys : List X := (contents R heap maps).map fun e => R.toValue e.1

def values : List V := (contents R heap maps).map Prod.snd

def items : List (X×V) := (contents R heap maps).map fun e => (R.toValue e.1,e.2)

def getOr (x : X) (default : V) : Except (Raised K) V := do
  let k ← R.toKey x
  return (get R.same (contents R heap maps) k).getD default

/-- `dict(cm)[x]`. -/
def copyItem (x : X) : Except (Raised K) V := do
  let k ← R.toKey x
  orKeyError k (get R.same (contents R heap maps) k)

/-- `dict.fromkeys`. -/
def fromKeys (same : K → K → Bool) (ks : List K) : Entries K Unit :=
  insertAll same [] (ks.map fun k => (k,()))

end Reads

/-- Keys that are compared by classes and that hash as the values they are shown as. -/
structure Plain (R : Keying X K) (P : Set K) (cls : K → C) : Prop where
  classes : Classes R.same P cls
  shown : ∀ k∈P,∃ j∈P,R.toKey (R.toValue k)=.ok j ∧ cls j=cls k

/-- A value is one of the keys, or no key to Python either. -/
def Fits (R : Keying X K) (P : Set K) (x : X) : Prop :=
  match R.toKey x with
  | .ok k => k∈P
  | .error _ => R.hashable x=false

section Seen

/-- A new key goes last, a known one changes no key. -/
theorem keys_insert (same : K → K → Bool) (m : Entries K V) (k : K) (v : V) :
    (insert same m k v).map Prod.fst=see same (m.map Prod.fst) k := by
  induction m with
  | nil => rfl
  | cons e m ih =>
    rw [IndexMap.insert,see]
    by_cases hk : same k e.1=true
    · rw [if_pos hk,if_pos (by rw [List.map_cons,List.any_cons,hk,Bool.true_or])]
      rfl
    · have rest : ((e::m).map Prod.fst).any (same k)=(m.map Prod.fst).any (same k) := by
        rw [List.map_cons,List.any_cons,Bool.eq_false_iff.mpr hk,Bool.false_or]
      rw [if_neg hk,List.map_cons,ih,see,rest]
      split
      · rfl
      · rfl

theorem keys_insertAll (same : K → K → Bool) (m es : Entries K V) :
    (insertAll same m es).map Prod.fst=(es.map Prod.fst).foldl (see same) (m.map Prod.fst) := by
  induction es generalizing m with
  | nil => rfl
  | cons e es ih =>
    change (insertAll same (insert same m e.1 e.2) es).map Prod.fst=_
    rw [ih,keys_insert]
    rfl

variable {same : K → K → Bool} {P : Set K} {cls : K → C} {seen : List K} {k : K}

/-- Seen keys are of different classes. -/
structure Seen (P : Set K) (cls : K → C) (seen : List K) : Prop where
  within : ∀ k∈seen,k∈P
  nodup : (seen.map cls).Nodup

theorem mem_classes (hc : Classes same P cls) (hs : ∀ j∈seen,j∈P) (hk : k∈P) :
    cls k∈seen.map cls ↔ seen.any (same k)=true := by
  rw [List.mem_map,List.any_eq_true]
  refine exists_congr fun j => and_congr_right fun hj => ?_
  rw [hc k hk j (hs j hj),eq_comm]

theorem Seen.grow (hc : Classes same P cls) (h : Seen P cls seen) (hk : k∈P) :
    Seen P cls (see same seen k) := by
  rw [see]
  by_cases hin : seen.any (same k)=true
  · rw [if_pos hin]
    exact h
  · rw [if_neg hin]
    refine ⟨fun j hj => ?_,?_⟩
    · rcases List.mem_append.mp hj with hj|hj
      · exact h.within j hj
      · rw [List.mem_singleton.mp hj]
        exact hk
    · rw [List.map_append]
      refine h.nodup.append (List.nodup_singleton _) (List.disjoint_singleton.mpr fun known => ?_)
      exact hin ((mem_classes hc h.within hk).mp known)

theorem Seen.all (hc : Classes same P cls) (h : Seen P cls seen) {ks : List K}
    (hks : ∀ k∈ks,k∈P) : Seen P cls (ks.foldl (see same) seen) := by
  induction ks generalizing seen with
  | nil => exact h
  | cons k ks ih =>
    exact ih (h.grow hc (hks k List.mem_cons_self)) fun j hj => hks j (List.mem_cons_of_mem k hj)

theorem mem_see (hc : Classes same P cls) (hs : ∀ j∈seen,j∈P) (hk : k∈P) (c : C) :
    c∈(see same seen k).map cls ↔ c=cls k ∨ c∈seen.map cls := by
  rw [see]
  by_cases hin : seen.any (same k)=true
  · rw [if_pos hin]
    exact ⟨.inr,fun h => h.elim (fun h => h ▸ (mem_classes hc hs hk).mpr hin) id⟩
  · rw [if_neg hin,List.map_append,List.mem_append,List.map_singleton,List.mem_singleton,or_comm]

theorem mem_seen (hc : Classes same P cls) (h : Seen P cls seen) {ks : List K}
    (hks : ∀ k∈ks,k∈P) (c : C) :
    c∈(ks.foldl (see same) seen).map cls ↔ c∈ks.map cls ∨ c∈seen.map cls := by
  induction ks generalizing seen with
  | nil => exact ⟨.inr,fun h => h.elim (fun h => by cases h) id⟩
  | cons k ks ih =>
    have hk : k∈P := hks k List.mem_cons_self
    rw [List.foldl_cons,ih (h.grow hc hk) fun j hj => hks j (List.mem_cons_of_mem k hj),
      mem_see hc h.within hk,List.map_cons,List.mem_cons,or_left_comm,or_assoc]

theorem seen_nil : Seen P cls [] := ⟨fun _ h => (by cases h),List.nodup_nil⟩

/-- The same keys in another order give as many. -/
theorem length_seen (hc : Classes same P cls) {ks js : List K} (hks : ∀ k∈ks,k∈P)
    (h : ∀ k,k∈ks ↔ k∈js) :
    (ks.foldl (see same) []).length=(js.foldl (see same) []).length := by
  have hjs : ∀ k∈js,k∈P := fun k hk => hks k ((h k).mpr hk)
  have forth := seen_nil.all hc hks
  have back := seen_nil.all hc hjs
  have perm := (List.perm_ext_iff_of_nodup forth.nodup back.nodup).mpr fun c => by
    rw [mem_seen hc seen_nil hks,mem_seen hc seen_nil hjs]
    simp only [List.mem_map,h]
  have lengths := perm.length_eq
  rwa [List.length_map,List.length_map] at lengths

end Seen

section Agreement

variable (R : Keying X K) (P : Set K) (heap : Heap R.same V) (maps : List ℕ)

/-- What the several readers of a `ChainMap` say together. -/
structure Agree : Prop where
  member : ∀ x,contains R heap maps x=.ok true ↔ ∃ v,getItem R heap maps x=.ok v
  first : ∀ x k,R.toKey x=.ok k → ∀ v,getItem R heap maps x=.ok v ↔
    (maps.filterMap fun a => get R.same (heap.dicts a) k).head?=some v
  found : ∀ x v,Fits R P x → getItem R heap maps x=.ok v → ∀ d,getOr R heap maps x d=.ok v
  missing : ∀ x,Fits R P x → contains R heap maps x=.ok false →
    ∀ d,getOr R heap maps x d=.ok d
  dict : ∀ x,Fits R P x → copyItem R heap maps x=getItem R heap maps x
  keys : keys R heap maps=iter R heap maps
  values : (values R heap maps).map .ok=(iter R heap maps).map (getItem R heap maps)
  items : (items R heap maps).map (fun e => (e.1,.ok e.2))=
    (iter R heap maps).map fun x => (x,getItem R heap maps x)
  len : len R heap maps=(iter R heap maps).length
  order : iter R heap maps=
    (fromKeys R.same (maps.reverse.flatMap (keysOf R heap))).map fun e => R.toValue e.1
  present : ∀ x,Fits R P x → (contains R heap maps x=.ok true ↔
    ∃ y∈iter R heap maps,∃ j k,R.toKey x=.ok j ∧ R.toKey y=.ok k ∧ R.same j k=true)

/-- All keys held are among those of `P`. -/
def Held : Prop := ∀ a,Within P (heap.dicts a)

variable {R P heap maps} [DecidableEq C] {cls : K → C}

theorem unalike_contents : Unalike R.same (contents R heap maps) := by
  rw [contents,List.foldl_reverse]
  induction maps with
  | nil => exact List.Pairwise.nil
  | cons a maps ih => exact insertAll_holds ih fun e _ _ h => unalike_insert h e.1 e.2

theorem within_contents (hh : Held R P heap) : Within P (contents R heap maps) := by
  rw [contents,List.foldl_reverse]
  induction maps with
  | nil => exact fun _ h => (by cases h)
  | cons a maps ih => exact ih.insertAll (hh a)

theorem get_contents (hP : Plain R P cls) (hh : Held R P heap) {k : K} (hk : k∈P) :
    get R.same (contents R heap maps) k=scan R heap maps k := by
  induction maps with
  | nil => rfl
  | cons a maps ih =>
    have rest : contents R heap (a::maps)=
        insertAll R.same (contents R heap maps) (heap.dicts a) := by
      rw [contents,contents,List.foldl_reverse,List.foldl_reverse]
      rfl
    rw [rest,get_overlay hP.classes (hh a) (heap.unalike a) (within_contents hh) hk,ih,scan,scan,
      List.findSome?_cons]
    cases get R.same (heap.dicts a) k <;> rfl

theorem contains_fold (found : Bool) (maps : List ℕ) (k : K) :
    maps.foldl (fun found a => found || (get R.same (heap.dicts a) k).isSome) found=
      (found || (scan R heap maps k).isSome) := by
  induction maps generalizing found with
  | nil => exact (Bool.or_false found).symm
  | cons a maps ih =>
    rw [List.foldl_cons,ih,scan,scan,List.findSome?_cons,Bool.or_assoc]
    cases get R.same (heap.dicts a) k <;> rfl

theorem contains_of_key {x : X} {k : K} (h : R.toKey x=.ok k) :
    contains R heap maps x=.ok (scan R heap maps k).isSome := by
  have fold : maps.foldl (fun found a => found || (get R.same (heap.dicts a) k).isSome) false=
      (false || (scan R heap maps k).isSome) := contains_fold false maps k
  rw [Bool.false_or] at fold
  rw [contains,h,← fold]
  rfl

theorem getItem_of_key {x : X} {k : K} (h : R.toKey x=.ok k) (v : V) :
    getItem R heap maps x=.ok v ↔ scan R heap maps k=some v := by
  rw [getItem,h]
  change orKeyError k (scan R heap maps k)=_ ↔ _
  cases scan R heap maps k with
  | none => exact ⟨fun h => (by cases h),fun h => (by cases h)⟩
  | some u => exact ⟨fun h => (by cases h; rfl),fun h => (by cases h; rfl)⟩

theorem copyItem_eq {x : X} {k : K} (h : R.toKey x=.ok k)
    (hk : get R.same (contents R heap maps) k=scan R heap maps k) :
    copyItem R heap maps x=getItem R heap maps x := by
  rw [copyItem,getItem,h]
  exact congrArg (orKeyError k) hk

theorem contains_iff (x : X) :
    contains R heap maps x=.ok true ↔ ∃ v,getItem R heap maps x=.ok v := by
  cases h : R.toKey x with
  | error e =>
    have refused : getItem R heap maps x=.error e := by
      rw [getItem,h]
      rfl
    have refuses : contains R heap maps x=.error e := by
      rw [contains,h]
      rfl
    rw [refused,refuses]
    constructor
    · intro h
      cases h
    · rintro ⟨v,h⟩
      cases h
  | ok k =>
    simp only [contains_of_key h,getItem_of_key h,Except.ok.injEq,Option.isSome_iff_exists]

theorem keys_contents (heap : Heap R.same V) (maps : List ℕ) :
    (contents R heap maps).map Prod.fst=order R heap maps := by
  rw [contents,order,List.foldl_reverse,List.foldl_reverse]
  induction maps with
  | nil => rfl
  | cons a maps ih => exact (keys_insertAll R.same _ (heap.dicts a)).trans (by rw [ih]; rfl)

theorem keys_eq_iter (heap : Heap R.same V) (maps : List ℕ) :
    keys R heap maps=iter R heap maps := by
  rw [iter,← keys_contents,List.map_map]
  rfl

theorem order_eq_fromKeys (heap : Heap R.same V) (maps : List ℕ) :
    order R heap maps=
      (fromKeys R.same (maps.reverse.flatMap (keysOf R heap))).map Prod.fst := by
  have own : ∀ ks : List K,(ks.map fun k => (k,())).map Prod.fst=ks := fun ks => by
    rw [List.map_map]
    exact List.map_id ks
  rw [fromKeys,keys_insertAll,own,List.foldl_flatMap,order]
  rfl

omit [DecidableEq C] in
theorem len_eq_iter (hP : Plain R P cls) (hh : Held R P heap) :
    len R heap maps=(iter R heap maps).length := by
  have all (ms : List ℕ) : ∀ k∈ms.flatMap (keysOf R heap),k∈P := by
    intro k hk
    obtain ⟨a,-,hk⟩ := List.mem_flatMap.mp hk
    obtain ⟨e,he,rfl⟩ := List.mem_map.mp hk
    exact hh a e he
  have turned : ∀ k,k∈maps.flatMap (keysOf R heap) ↔ k∈maps.reverse.flatMap (keysOf R heap) :=
    fun k => by simp only [List.mem_flatMap,List.mem_reverse]
  have lengths := length_seen hP.classes (all maps) turned
  rw [List.foldl_flatMap,List.foldl_flatMap] at lengths
  rw [iter,List.length_map]
  exact lengths

/-- A key that the copy shows reads its own value. -/
theorem getItem_shown (hP : Plain R P cls) (hh : Held R P heap) {e : K×V}
    (he : e∈contents R heap maps) : getItem R heap maps (R.toValue e.1)=.ok e.2 := by
  obtain ⟨j,hj,hkey,hsame⟩ := hP.shown e.1 (within_contents hh e he)
  rw [getItem_of_key hkey,← get_contents hP hh hj]
  exact get_of_mem hP.classes (within_contents hh) unalike_contents he hj hsame.symm

theorem read_contents (hP : Plain R P cls) (hh : Held R P heap) {α : Type}
    (f : X → Except (Raised K) V → α) :
    (contents R heap maps).map (fun e => f (R.toValue e.1) (.ok e.2))=
      (iter R heap maps).map fun x => f x (getItem R heap maps x) := by
  rw [← keys_eq_iter,keys,List.map_map]
  exact List.map_congr_left fun e he => by rw [Function.comp,getItem_shown hP hh he]

theorem present_iff (hP : Plain R P cls) (hh : Held R P heap) {x : X} {j : K} (h : R.toKey x=.ok j)
    (hj : j∈P) : contains R heap maps x=.ok true ↔
      ∃ y∈iter R heap maps,∃ i k,R.toKey x=.ok i ∧ R.toKey y=.ok k ∧ R.same i k=true := by
  have held : Within P (contents R heap maps) := within_contents hh
  have known : contains R heap maps x=.ok true ↔ ∃ e∈contents R heap maps,cls j=cls e.1 := by
    rw [contains_of_key h,Except.ok.injEq,← get_contents hP hh hj,IndexMap.get,Option.isSome_map,
      List.find?_isSome]
    exact exists_congr fun e => and_congr_right fun he => hP.classes j hj e.1 (held e he)
  rw [known]
  constructor
  · rintro ⟨e,he,hsame⟩
    obtain ⟨k,hk,hkey,hown⟩ := hP.shown e.1 (held e he)
    refine ⟨R.toValue e.1,?_,j,k,h,hkey,(hP.classes j hj k hk).mpr (hsame.trans hown.symm)⟩
    rw [← keys_eq_iter]
    exact List.mem_map_of_mem he
  · rintro ⟨y,hy,i,k,hi,hkey,hsame⟩
    rw [h] at hi
    cases hi
    rw [← keys_eq_iter] at hy
    obtain ⟨e,he,rfl⟩ := List.mem_map.mp hy
    obtain ⟨l,hl,hlkey,hown⟩ := hP.shown e.1 (held e he)
    rw [hkey] at hlkey
    cases hlkey
    exact ⟨e,he,((hP.classes j hj k hl).mp hsame).trans hown⟩

theorem fits_key {x : X} {k : K} (h : R.toKey x=.ok k) (hx : Fits R P x) : k∈P := by
  rw [Fits,h] at hx
  exact hx

/-- All the readers see one mapping. -/
theorem agree (hP : Plain R P cls) (hh : Held R P heap) (maps : List ℕ) :
    Agree R P heap maps where
  member := contains_iff
  first x k h v := by rw [getItem_of_key h,scan,List.head?_filterMap]
  found x v hx hv d := by
    cases h : R.toKey x with
    | error e =>
      rw [getItem,h] at hv
      cases hv
    | ok k =>
      rw [getOr,h]
      have hk : get R.same (contents R heap maps) k=scan R heap maps k :=
        get_contents hP hh (fits_key h hx)
      rw [(getItem_of_key h v).mp hv] at hk
      exact congrArg (fun o => Except.ok (o.getD d)) hk
  missing x hx hc d := by
    cases h : R.toKey x with
    | error e =>
      rw [contains,h] at hc
      cases hc
    | ok k =>
      rw [contains_of_key h,Except.ok.injEq,Option.isSome_eq_false_iff,Option.isNone_iff_eq_none]
        at hc
      rw [getOr,h]
      have hk : get R.same (contents R heap maps) k=scan R heap maps k :=
        get_contents hP hh (fits_key h hx)
      rw [hc] at hk
      exact congrArg (fun o => Except.ok (o.getD d)) hk
  dict x hx := by
    cases h : R.toKey x with
    | error e =>
      rw [copyItem,getItem,h]
      rfl
    | ok k => exact copyItem_eq h (get_contents hP hh (fits_key h hx))
  keys := keys_eq_iter heap maps
  values := by
    rw [values,List.map_map]
    exact read_contents hP hh fun _ v => v
  items := by
    rw [items,List.map_map]
    exact read_contents hP hh fun x v => (x,v)
  len := len_eq_iter hP hh
  order := by
    rw [iter,order_eq_fromKeys,List.map_map]
    rfl
  present x hx := by
    cases h : R.toKey x with
    | error e =>
      rw [contains,h]
      constructor
      · intro hc
        cases hc
      · rintro ⟨y,-,i,k,hi,-⟩
        cases hi
    | ok k =>
      have iff : contains R heap maps x=.ok true ↔ _ := present_iff hP hh h (fits_key h hx)
      rwa [h] at iff

end Agreement

/-- The `maps` of a `ChainMap`, of which there is always a first. -/
structure Chain where
  first : ℕ
  rest : List ℕ

def Chain.maps (cm : Chain) : List ℕ := cm.first::cm.rest

inductive Outcome (X K V : Type) where
  | done
  | value (v : V)
  | pair (x : X) (v : V)
  | raised (e : Raised K)

/-- What `update` is given: the dicts its reading locks, the entries it reads, the keywords. -/
structure Source (K V : Type) where
  locks : List ℕ
  read : (ℕ → Entries K V) → Except (Raised K) (List (K×V))
  kwargs : List (K×V)

inductive Call (X K V : Type) where
  | setItem (x : X) (v : V)
  | delItem (x : X)
  | pop (x : X) (default : Option V)
  | popitem
  | clear
  | setdefault (x : X) (default : V)
  | update (source : Source K V)

section Calls

variable (R : Keying X K)

/-- `value_to_key(x)?`, and what follows. -/
def keyed (m : Entries K V) (x : X) (f : K → Outcome X K V×Entries K V) :
    Outcome X K V×Entries K V :=
  match R.toKey x with
  | .ok k => f k
  | .error e => (.raised e,m)

/-- `chainmap_del_item`, on the first map. -/
def delItem (m : Entries K V) (k : K) : Outcome X K V×Entries K V :=
  if (get R.same m k).isSome then (.done,shiftRemove R.same m k)
  else (.raised (.notInFirst k),m)

def pop (m : Entries K V) (default : Option V) (k : K) : Outcome X K V×Entries K V :=
  match get R.same m k with
  | some v => (.value v,shiftRemove R.same m k)
  | none =>
    match default with
    | some d => (.value d,m)
    | none => (.raised (.keyError k),m)

def popitem (m : Entries K V) : Outcome X K V×Entries K V :=
  match m.getLast? with
  | some e => (.pair (R.toValue e.1) e.2,m.dropLast)
  | none => (.raised .popitemEmpty,m)

def setdefault (m : Entries K V) (default : V) (k : K) : Outcome X K V×Entries K V :=
  match get R.same m k with
  | some v => (.value v,m)
  | none => (.value default,insert R.same m k default)

def update (m : Entries K V) (read : Except (Raised K) (List (K×V))) (kwargs : List (K×V)) :
    Outcome X K V×Entries K V :=
  match read with
  | .ok es => (.done,insertAll R.same (insertAll R.same m es) kwargs)
  | .error e => (.raised e,m)

/-- A call on the first map, the others being there to be read. -/
def onFirst (dicts : ℕ → Entries K V) (m : Entries K V) :
    Call X K V → Outcome X K V×Entries K V
  | .setItem x v => keyed R m x fun k => (.done,insert R.same m k v)
  | .delItem x => keyed R m x (delItem R m)
  | .pop x default => keyed R m x (pop R m default)
  | .popitem => popitem R m
  | .clear => (.done,[])
  | .setdefault x default => keyed R m x (setdefault R m default)
  | .update source => update R m (source.read dicts) source.kwargs

/-- The value a call takes as a key. -/
def Call.key : Call X K V → Option X
  | .setItem x _ => some x
  | .delItem x => some x
  | .pop x _ => some x
  | .setdefault x _ => some x
  | _ => none

/-- The keys that a call may set. -/
def Call.sets (dicts : ℕ → Entries K V) : Call X K V → Set K
  | .update source =>
    {k | (∃ es,source.read dicts=.ok es ∧ ∃ v,(k,v)∈es) ∨ ∃ v,(k,v)∈source.kwargs}
  | c => {k | ∃ x,c.key=some x ∧ R.toKey x=.ok k}

/-- The keys of a call are among those of `P`. -/
structure Admits (P : Set K) (dicts : ℕ → Entries K V) (c : Call X K V) : Prop where
  key : ∀ x,c.key=some x → Fits R P x
  sets : ∀ k∈c.sets R dicts,k∈P

variable {R} {P : Set K} {m : Entries K V}

theorem keyed_holds {Q : Entries K V → Prop} {x : X} {f : K → Outcome X K V×Entries K V}
    (hm : Q m) (hf : ∀ k,R.toKey x=.ok k → Q (f k).2) : Q (keyed R m x f).2 := by
  rw [keyed]
  cases h : R.toKey x with
  | ok k => exact hf k h
  | error e => exact hm

theorem pop_holds {Q : Entries K V → Prop} (hm : Q m) (sub : ∀ m',List.Sublist m' m → Q m')
    (default : Option V) (k : K) : Q (pop R m default k).2 := by
  unfold pop
  cases get R.same m k with
  | some v => exact sub _ List.eraseP_sublist
  | none =>
    cases default with
    | some d => exact hm
    | none => exact hm

/-- A call only drops entries of the first map and sets keys in it. -/
theorem onFirst_holds {Q : Entries K V → Prop} {dicts : ℕ → Entries K V} {c : Call X K V}
    (hm : Q m) (sub : ∀ m',List.Sublist m' m → Q m')
    (sets : ∀ k∈c.sets R dicts,∀ m' v,Q m' → Q (insert R.same m' k v)) :
    Q (onFirst R dicts m c).2 := by
  cases c with
  | setItem x v => exact keyed_holds hm fun k hk => sets k ⟨x,rfl,hk⟩ m v hm
  | delItem x =>
    refine keyed_holds hm fun k _ => ?_
    rw [delItem]
    split
    · exact sub _ List.eraseP_sublist
    · exact hm
  | pop x default => exact keyed_holds hm fun k _ => pop_holds hm sub default k
  | popitem =>
    rw [onFirst,popitem]
    cases m.getLast? with
    | some e => exact sub _ (List.dropLast_sublist m)
    | none => exact hm
  | clear => exact sub [] (List.nil_sublist m)
  | setdefault x default =>
    refine keyed_holds hm fun k hk => ?_
    rw [setdefault]
    cases get R.same m k with
    | some v => exact hm
    | none => exact sets k ⟨x,rfl,hk⟩ m default hm
  | update source =>
    rw [onFirst]
    unfold update
    cases hread : source.read dicts with
    | error e => exact hm
    | ok es =>
      refine insertAll_holds (insertAll_holds hm fun e he m' => ?_) fun e he m' => ?_
      · exact sets e.1 (.inl ⟨es,hread,e.2,he⟩) m' e.2
      · exact sets e.1 (.inr ⟨e.2,he⟩) m' e.2

theorem unalike_onFirst (hm : Unalike R.same m) (dicts : ℕ → Entries K V) (c : Call X K V) :
    Unalike R.same (onFirst R dicts m c).2 :=
  onFirst_holds hm (fun _ h => hm.sublist h) fun k _ _ v h => unalike_insert h k v

theorem within_onFirst (hm : Within P m) {dicts : ℕ → Entries K V} {c : Call X K V}
    (hc : Admits R P dicts c) : Within P (onFirst R dicts m c).2 :=
  onFirst_holds hm (fun _ h e he => hm e (h.subset he)) fun k hk _ v h => h.insert (hc.sets k hk) v

variable {same : K → K → Bool}

theorem unalike_set (heap : Heap same V) (a : ℕ) (d : Unalike same m) (b : ℕ) :
    Unalike same (Function.update heap.dicts a m b) := by
  by_cases hb : b=a
  · rw [hb,Function.update_self]
    exact d
  · rw [Function.update_of_ne hb]
    exact heap.unalike b

def Heap.set (heap : Heap same V) (a : ℕ) (m : Entries K V) (d : Unalike same m) :
    Heap same V where
  dicts := Function.update heap.dicts a m
  unalike := unalike_set heap a d

theorem Heap.set_other (heap : Heap same V) {a b : ℕ} (d : Unalike same m) (hb : b≠a) :
    (heap.set a m d).dicts b=heap.dicts b := Function.update_of_ne hb ..

theorem Heap.set_same (heap : Heap same V) (a : ℕ) (d : Unalike same m) :
    (heap.set a m d).dicts a=m := Function.update_self ..

theorem Held.set {heap : Heap R.same V} (hh : Held R P heap) (a : ℕ) (d : Unalike R.same m)
    (hm : Within P m) : Held R P (heap.set a m d) := by
  intro b
  by_cases hb : b=a
  · rw [hb,Heap.set_same]
    exact hm
  · rw [Heap.set_other heap d hb]
    exact hh b

end Calls

section Runs

variable (R : Keying X K) (P : Set K) (cm : Chain) (heap : Heap R.same V)

/-- `chainmap_methods` holds the first map while the argument is read. -/
def deadlocks : Call X K V → Bool
  | .update source => decide (cm.first∈source.locks)
  | _ => false

/-- The dicts with the first map as the call leaves it. -/
def after (c : Call X K V) : Heap R.same V :=
  heap.set cm.first (onFirst R heap.dicts (heap.dicts cm.first) c).2
    (unalike_onFirst (heap.unalike cm.first) heap.dicts c)

def call (c : Call X K V) : Option (Outcome X K V×Heap R.same V) :=
  if deadlocks cm c then none
  else some ((onFirst R heap.dicts (heap.dicts cm.first) c).1,after R cm heap c)

/-- A call on the `ChainMap`, or anything done to one of the dicts. -/
inductive Op (R : Keying X K) (V : Type) where
  | chain (c : Call X K V)
  | direct (a : ℕ) (m : Entries K V) (d : Unalike R.same m)

def step (heap : Heap R.same V) : Op R V → Option (Heap R.same V)
  | .chain c => (call R cm heap c).map Prod.snd
  | .direct a m d => some (heap.set a m d)

def run (heap : Heap R.same V) : List (Op R V) → Option (Heap R.same V)
  | [] => some heap
  | op::ops => (step R cm heap op).bind fun heap => run heap ops

/-- The dicts as the direct operations alone would leave them. -/
def directly (heap : Heap R.same V) : List (Op R V) → Heap R.same V
  | [] => heap
  | .chain _::ops => directly heap ops
  | .direct a m d::ops => directly (heap.set a m d) ops

/-- `MutableMapping.setdefault` and `ChainMap.pop`: the value, or the kind of the error, and the
first map. -/
def cpython (m : Entries K V) : Call X K V → Option (Except String V×Entries K V)
  | .setdefault x default =>
    match R.toKey x with
    | .error _ => some (.error "TypeError",m)
    | .ok k =>
      match scan R heap cm.maps k with
      | some v => some (.ok v,m)
      | none => some (.ok default,insert R.same m k default)
  | .pop x default =>
    match R.toKey x with
    | .error _ => some (.error "TypeError",m)
    | .ok k =>
      match get R.same m k with
      | some v => some (.ok v,shiftRemove R.same m k)
      | none => some (default.elim (.error "KeyError") .ok,m)
  | _ => none

def Answers : Outcome X K V → Except String V → Prop
  | .value v,.ok w => v=w
  | .raised e,.error kind => e.kind=kind
  | _,_ => False

/-- The call comes back, only the first map has changed, and the answer is the expected one. -/
def Conforms (c : Call X K V) : Prop :=
  ∃ r,call R cm heap c=some r ∧ (∀ b,b≠cm.first → r.2.dicts b=heap.dicts b) ∧
    ∀ e,cpython R cm heap (heap.dicts cm.first) c=some e →
      Answers r.1 e.1 ∧ r.2.dicts cm.first=e.2

/-- An inherited key is not given a default, and a dict is not updated from itself. -/
def Safe : Call X K V → Prop
  | .setdefault x _ => ∀ k,R.toKey x=.ok k →
    (get R.same (heap.dicts cm.first) k).isSome ∨ scan R heap cm.rest k=none
  | .update source => cm.first ∉ source.locks
  | _ => True

def SafeRun (heap : Heap R.same V) : List (Op R V) → Prop
  | [] => True
  | .chain c::ops =>
    Safe R cm heap c ∧ ∀ next,step R cm heap (.chain c)=some next → SafeRun next ops
  | .direct a m d::ops => SafeRun (heap.set a m d) ops

/-- A run whose keys are all among those of `P`. -/
def KeyedRun (heap : Heap R.same V) : List (Op R V) → Prop
  | [] => True
  | .chain c::ops =>
    Admits R P heap.dicts c ∧ ∀ next,step R cm heap (.chain c)=some next → KeyedRun next ops
  | .direct a m d::ops => Within P m ∧ KeyedRun (heap.set a m d) ops

variable {R P cm heap} [DecidableEq C] {cls : K → C}

theorem after_other (c : Call X K V) {b : ℕ} (hb : b≠cm.first) :
    (after R cm heap c).dicts b=heap.dicts b := Heap.set_other heap _ hb

theorem after_first (c : Call X K V) :
    (after R cm heap c).dicts cm.first=(onFirst R heap.dicts (heap.dicts cm.first) c).2 :=
  Heap.set_same heap cm.first _

variable {c : Call X K V}

theorem conforms_iff : Conforms R cm heap c ↔ deadlocks cm c=false ∧
    ∀ e,cpython R cm heap (heap.dicts cm.first) c=some e →
      Answers (onFirst R heap.dicts (heap.dicts cm.first) c).1 e.1 ∧
        (onFirst R heap.dicts (heap.dicts cm.first) c).2=e.2 := by
  unfold Conforms call
  cases deadlocks cm c with
  | true => simp
  | false =>
    constructor
    · rintro ⟨r,hr,-,hans⟩
      cases hr
      refine ⟨rfl,fun e he => ?_⟩
      obtain ⟨hanswer,hfirst⟩ := hans e he
      rw [after_first] at hfirst
      exact ⟨hanswer,hfirst⟩
    · rintro ⟨-,hans⟩
      refine ⟨_,rfl,fun b hb => after_other c hb,fun e he => ?_⟩
      obtain ⟨hanswer,hfirst⟩ := hans e he
      exact ⟨hanswer,(after_first c).trans hfirst⟩

theorem conforms_unchecked (hc : cpython R cm heap (heap.dicts cm.first) c=none) :
    Conforms R cm heap c ↔ deadlocks cm c=false := by
  rw [conforms_iff,hc]
  exact ⟨And.left,fun h => ⟨h,fun e he => by cases he⟩⟩

/-- `value_to_key` refuses with a `TypeError`. -/
def Refuses (R : Keying X K) : Prop := ∀ x e,R.toKey x=.error e → e.kind="TypeError"

theorem conforms_pop (hR : Refuses R) (x : X) (default : Option V) :
    Conforms R cm heap (.pop x default) := by
  refine conforms_iff.mpr ⟨rfl,fun e he => ?_⟩
  cases hx : R.toKey x with
  | error r =>
    simp only [cpython,hx] at he
    cases he
    simp only [onFirst,keyed,hx]
    exact ⟨hR x r hx,trivial⟩
  | ok k =>
    cases hk : get R.same (heap.dicts cm.first) k with
    | some v =>
      simp only [cpython,hx,hk] at he
      cases he
      simp only [onFirst,keyed,pop,hx,hk]
      exact ⟨rfl,trivial⟩
    | none =>
      simp only [cpython,hx,hk] at he
      cases he
      cases default with
      | some d =>
        simp only [onFirst,keyed,pop,hx,hk]
        exact ⟨rfl,trivial⟩
      | none =>
        simp only [onFirst,keyed,pop,hx,hk]
        exact ⟨rfl,trivial⟩

/-- A default that is written changes the first map. -/
theorem insert_ne (hP : Plain R P cls) {m : Entries K V} (hm : Within P m) {k : K} (hk : k∈P)
    (v : V) (hget : get R.same m k=none) : insert R.same m k v≠m := by
  intro same
  have written := get_insert hP.classes hm hk v hk
  rw [same,hget,if_pos rfl] at written
  cases written

theorem scan_maps (cm : Chain) (k : K) : scan R heap cm.maps k=
    (get R.same (heap.dicts cm.first) k).or (scan R heap cm.rest k) := by
  rw [Chain.maps,scan,scan,List.findSome?_cons]
  cases get R.same (heap.dicts cm.first) k <;> rfl

theorem conforms_setdefault_key (hP : Plain R P cls) (hh : Held R P heap) {x : X} {k : K}
    (hx : R.toKey x=.ok k) (hk : k∈P) (default : V) :
    Conforms R cm heap (.setdefault x default) ↔
      (get R.same (heap.dicts cm.first) k).isSome ∨ scan R heap cm.rest k=none := by
  rw [conforms_iff]
  cases hfirst : get R.same (heap.dicts cm.first) k with
  | some v =>
    refine ⟨fun _ => .inl rfl,fun _ => ⟨rfl,fun e he => ?_⟩⟩
    simp only [cpython,hx,scan_maps,hfirst,Option.some_or] at he
    cases he
    simp only [onFirst,keyed,hx,setdefault,hfirst]
    exact ⟨rfl,trivial⟩
  | none =>
    cases hrest : scan R heap cm.rest k with
    | none =>
      refine ⟨fun _ => .inr rfl,fun _ => ⟨rfl,fun e he => ?_⟩⟩
      simp only [cpython,hx,scan_maps,hfirst,hrest,Option.none_or] at he
      cases he
      simp only [onFirst,keyed,hx,setdefault,hfirst]
      exact ⟨rfl,trivial⟩
    | some v =>
      -- the value is inherited: the code writes the default over it
      constructor
      · intro h
        have inherited : cpython R cm heap (heap.dicts cm.first) (.setdefault x default)=
            some (.ok v,heap.dicts cm.first) := by
          simp only [cpython,hx,scan_maps,hfirst,hrest,Option.none_or]
        have kept := (h.2 _ inherited).2
        simp only [onFirst,keyed,hx,setdefault,hfirst] at kept
        exact absurd kept (insert_ne hP (hh cm.first) hk default hfirst)
      · rintro (h|h) <;> cases h

theorem conforms_setdefault (hR : Refuses R) (hP : Plain R P cls) (hh : Held R P heap) {x : X}
    (hx : Fits R P x) (default : V) : Conforms R cm heap (.setdefault x default) ↔
      Safe R cm heap (.setdefault x default) := by
  cases h : R.toKey x with
  | error r =>
    refine iff_of_true (conforms_iff.mpr ⟨rfl,fun e he => ?_⟩) fun k hk => ?_
    · simp only [cpython,h] at he
      cases he
      simp only [onFirst,keyed,h]
      exact ⟨hR x r h,trivial⟩
    · rw [h] at hk
      cases hk
  | ok k =>
    rw [conforms_setdefault_key hP hh h (fits_key h hx) default]
    refine ⟨fun hsafe j hj => ?_,fun hsafe => hsafe k h⟩
    rw [h] at hj
    cases hj
    exact hsafe

theorem conforms_iff_safe (hR : Refuses R) (hP : Plain R P cls) (hh : Held R P heap)
    (hc : Admits R P heap.dicts c) : Conforms R cm heap c ↔ Safe R cm heap c := by
  cases c with
  | setdefault x default => exact conforms_setdefault hR hP hh (hc.key x rfl) default
  | pop x default => exact iff_of_true (conforms_pop hR x default) trivial
  | update source =>
    rw [conforms_unchecked rfl,deadlocks,decide_eq_false_iff_not]
    rfl
  | setItem x v => exact (conforms_unchecked rfl).trans (iff_of_true rfl trivial)
  | delItem x => exact (conforms_unchecked rfl).trans (iff_of_true rfl trivial)
  | popitem => exact (conforms_unchecked rfl).trans (iff_of_true rfl trivial)
  | clear => exact (conforms_unchecked rfl).trans (iff_of_true rfl trivial)

theorem deadlocks_of_safe (h : Safe R cm heap c) : deadlocks cm c=false := by
  cases c with
  | update source => exact decide_eq_false h
  | setItem x v => rfl
  | delItem x => rfl
  | pop x default => rfl
  | popitem => rfl
  | clear => rfl
  | setdefault x default => rfl

theorem call_of_returns (h : deadlocks cm c=false) :
    call R cm heap c=
      some ((onFirst R heap.dicts (heap.dicts cm.first) c).1,after R cm heap c) := by
  rw [call,if_neg (Bool.eq_false_iff.mp h)]

theorem step_chain {next : Heap R.same V} (h : step R cm heap (.chain c)=some next) :
    next=after R cm heap c := by
  rw [step] at h
  cases hd : deadlocks cm c with
  | true =>
    rw [call,if_pos hd] at h
    cases h
  | false =>
    rw [call_of_returns hd] at h
    cases h
    rfl

theorem SafeRun.returns {ops : List (Op R V)} (h : SafeRun R cm heap ops) :
    (run R cm heap ops).isSome := by
  induction ops generalizing heap with
  | nil => rfl
  | cons op ops ih =>
    cases op with
    | direct a m d => exact ih (show SafeRun R cm (heap.set a m d) ops from h)
    | chain c =>
      obtain ⟨hc,hnext⟩ := h
      have hstep : step R cm heap (.chain c)=_ :=
        congrArg (Option.map Prod.snd) (call_of_returns (deadlocks_of_safe hc))
      rw [run,hstep]
      exact ih (hnext _ hstep)

/-- The later maps only change by what is done to them directly. -/
theorem run_other {ops : List (Op R V)} {heap other last : Heap R.same V}
    (same : ∀ b,b≠cm.first → heap.dicts b=other.dicts b) (h : run R cm heap ops=some last) :
    ∀ b,b≠cm.first → last.dicts b=(directly R other ops).dicts b := by
  induction ops generalizing heap other with
  | nil =>
    cases h
    exact same
  | cons op ops ih =>
    obtain ⟨next,hstep,hrest⟩ := Option.bind_eq_some_iff.mp h
    cases op with
    | chain c =>
      refine ih (fun b hb => ?_) hrest
      rw [step_chain hstep,after_other c hb]
      exact same b hb
    | direct a m d =>
      cases hstep
      refine ih (fun b hb => ?_) hrest
      by_cases hba : b=a
      · rw [hba,Heap.set_same,Heap.set_same]
      · rw [Heap.set_other _ _ hba,Heap.set_other _ _ hba]
        exact same b hb

theorem run_held {ops : List (Op R V)} {heap last : Heap R.same V} (hh : Held R P heap)
    (keyed : KeyedRun R P cm heap ops) (h : run R cm heap ops=some last) : Held R P last := by
  induction ops generalizing heap with
  | nil =>
    cases h
    exact hh
  | cons op ops ih =>
    obtain ⟨next,hstep,hrest⟩ := Option.bind_eq_some_iff.mp h
    cases op with
    | chain c =>
      obtain ⟨hc,hkeyed⟩ := keyed
      refine ih ?_ (hkeyed next hstep) hrest
      rw [step_chain hstep]
      exact hh.set cm.first _ (within_onFirst (hh cm.first) hc)
    | direct a m d =>
      cases hstep
      exact ih (hh.set a d keyed.1) keyed.2 hrest

end Runs

section Inherited

/-- Characters as keys, and a list, which is none. -/
def characters : Keying (Option Char) Char where
  toKey x := x.elim (.error (.other "TypeError" "unhashable type: 'list'")) .ok
  toValue := some
  same a b := a==b
  hashable := Option.isSome

theorem characters_refuses : Refuses characters := by
  intro x e h
  cases x with
  | some c => cases h
  | none =>
    cases h
    rfl

theorem characters_plain : Plain characters Set.univ id where
  classes _ _ _ _ := beq_iff_eq
  shown k _ := ⟨k,trivial,rfl,rfl⟩

theorem characters_fits (x : Option Char) : Fits characters Set.univ x := by
  cases x with
  | none => rfl
  | some c => trivial

def single (a : ℕ) : Entries Char ℕ := if a=1 then [('a',1)] else []

theorem unalike_single (a : ℕ) : Unalike characters.same (single a) := by
  rw [single]
  split
  · exact List.pairwise_singleton _ _
  · exact List.Pairwise.nil

/-- `ChainMap({}, {'a': 1})` is made of these. -/
def inherited : Heap characters.same ℕ := ⟨single,unalike_single⟩

/-- `cm['b'] = 2`, `cm.pop([], 0)`, `d['c'] = 3` on the later map, `cm.setdefault('d', 4)`. -/
def mixed : List (Op characters ℕ) :=
  [.chain (.setItem (some 'b') 2),.chain (.pop none (some 0)),
    .direct 1 [('a',1),('c',3)] (by simp [Unalike,characters]),.chain (.setdefault (some 'd') 4)]

theorem admits_any (dicts : ℕ → Entries Char ℕ) (c : Call (Option Char) Char ℕ) :
    Admits characters Set.univ dicts c := ⟨fun x _ => characters_fits x,fun _ _ => trivial⟩

theorem mixed_safe : SafeRun characters ⟨0,[1]⟩ inherited mixed := by
  refine ⟨trivial,fun next h => ?_⟩
  obtain rfl := step_chain h
  refine ⟨trivial,fun next h => ?_⟩
  obtain rfl := step_chain h
  refine ⟨fun k hk => ?_,fun _ _ => trivial⟩
  cases hk
  exact .inr (by decide)

end Inherited

end InterpretThis.ChainMap
