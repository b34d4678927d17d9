import InterpretThis.Framework.Probe
import Mathlib.Data.List.Basic
import Mathlib.Data.List.Perm.Basic

namespace InterpretThis.Pyset

def minsize : Nat := 8

def linearProbes : Nat := 9

def perturbShift : Nat := 5

/-- A `dummy` is the tombstone `discard` leaves: it stops no probe and can be reused. -/
inductive Slot (α : Type) where
  | empty
  | dummy
  | active (value : α) (hash : Int64)

/-- `fill` counts active and dummy slots, `used` only active ones. -/
structure SetTable (α : Type) where
  slots : List (Slot α)
  mask : Nat
  fill : Nat
  used : Nat

/-- The slots the nested probe loops visit, in order. `usize` wrap-around is absorbed by
the mask, so the position is kept modulo the table size. The number of outer passes is
the bound after which every slot has been visited (`probePath_covers`). -/
def probePath (mask : Nat) (hash : Int64) : List Nat :=
  Probe.path linearProbes perturbShift mask (mask+14)
    (hash.toUInt64.toNat&&&mask) hash.toUInt64.toNat

def occupied {α : Type} (slots : List (Slot α)) (e : Nat) : Bool :=
  match slots[e]? with
  | some .dummy => true
  | some (.active _ _) => true
  | _ => false

def activesOf {α : Type} : List (Slot α) → List (α×Int64)
  | [] => []
  | .active v h::s => (v,h)::activesOf s
  | _::s => activesOf s

namespace SetTable

variable {α : Type} (eq : α → α → Bool)

def withCapacity (size : Nat) : SetTable α := ⟨List.replicate size .empty,size-1,0,0⟩

def len (t : SetTable α) : Nat := t.used

def actives (t : SetTable α) : List (α×Int64) := activesOf t.slots

def iterOrdered (t : SetTable α) : List α := t.actives.map Prod.fst

/-- `None` stands for a probe loop that does not stop; `WF` tables never give it. -/
def insertClean (t : SetTable α) (value : α) (hash : Int64) : Option (SetTable α) :=
  ((probePath t.mask hash).find? (fun e => !occupied t.slots e)).map
    (fun e => {t with slots := t.slots.set e (.active value hash)})

/-- The probe loop shared by `contains` and `discard`: the entry of the first active slot
that matches, `some none` at the first empty slot. -/
def lookup (slots : List (Slot α)) (value : α) (hash : Int64) :
    List Nat → Option (Option Nat)
  | [] => none
  | e::p =>
    match slots[e]? with
    | none => none
    | some .empty => some none
    | some .dummy => lookup slots value hash p
    | some (.active ev eh) =>
      if eh=hash ∧ eq ev value then some (some e) else lookup slots value hash p

/-- Where the probe loop of `add` ends. -/
inductive Landing where
  | present
  | reuse (freeslot : Nat)
  | fresh (entry : Nat)

/-- The probe loop of `add`; `freeslot` is the last dummy met so far. -/
def addLoop (slots : List (Slot α)) (value : α) (hash : Int64) :
    List Nat → Option Nat → Option Landing
  | [],_ => none
  | e::p,freeslot =>
    match slots[e]? with
    | none => none
    | some .empty =>
      match freeslot with
      | some fs => some (.reuse fs)
      | none => some (.fresh e)
    | some .dummy => addLoop slots value hash p (some e)
    | some (.active ev eh) =>
      if eh=hash ∧ eq ev value then some .present else addLoop slots value hash p freeslot

/-- `while newsize <= minused { newsize <<= 1 }`. -/
def growSize (minused : Nat) : Nat → Nat → Nat
  | 0,newsize => newsize
  | n+1,newsize => if newsize ≤ minused then growSize minused n (newsize*2) else newsize

def insertAll (t : SetTable α) (items : List (α×Int64)) : Option (SetTable α) :=
  items.foldlM (fun t p => t.insertClean p.1 p.2) t

def resize (t : SetTable α) (minused : Nat) : Option (SetTable α) :=
  let newsize := growSize minused (minused+1) minsize
  let actives := t.actives
  insertAll ⟨List.replicate newsize .empty,newsize-1,actives.length,actives.length⟩ actives

def minusedFor (used : Nat) : Nat := if used>50000 then used*2 else used*4

def maybeResize (t : SetTable α) : Option (SetTable α) :=
  if t.fill*5<t.mask*3 then some t else t.resize (minusedFor t.used)

def add (t : SetTable α) (value : α) (hash : Int64) : Option (SetTable α) :=
  match addLoop eq t.slots value hash (probePath t.mask hash) none with
  | none => none
  | some .present => some t
  | some (.reuse fs) => some {t with slots := t.slots.set fs (.active value hash),used := t.used+1}
  | some (.fresh e) =>
    maybeResize {t with slots := t.slots.set e (.active value hash),fill := t.fill+1,used := t.used+1}

def contains (t : SetTable α) (value : α) (hash : Int64) : Option Bool :=
  (lookup eq t.slots value hash (probePath t.mask hash)).map Option.isSome

def discard (t : SetTable α) (value : α) (hash : Int64) : Option (Bool×SetTable α) :=
  (lookup eq t.slots value hash (probePath t.mask hash)).map fun
    | none => (false,t)
    | some e => (true,{t with slots := t.slots.set e .dummy,used := t.used-1})

def addAll (t : SetTable α) (items : List (α×Int64)) : Option (SetTable α) :=
  items.foldlM (fun t p => t.add eq p.1 p.2) t

def discardAll (t : SetTable α) (items : List (α×Int64)) : Option (SetTable α) :=
  items.foldlM (fun t p => (t.discard eq p.1 p.2).map Prod.snd) t

def copySlots (mine other : List (Slot α)) : List (Slot α) :=
  List.zipWith (fun m s => match s with | .active v h => .active v h | _ => m) mine other

def mergeInto (t other : SetTable α) : Option (SetTable α) :=
  if t.fill=0 ∧ t.mask=other.mask ∧ other.fill=other.used then
    some ⟨copySlots t.slots other.slots,t.mask,other.fill,other.used⟩
  else if t.fill=0 then
    insertAll {t with fill := other.used,used := other.used} other.actives
  else addAll eq t other.actives

def merge (t other : SetTable α) : Option (SetTable α) :=
  if (t.fill+other.used)*5≥t.mask*3 then
    (t.resize ((t.used+other.used)*2)).bind fun t => mergeInto eq t other
  else mergeInto eq t other

def compactIfSparse (t : SetTable α) : Option (SetTable α) :=
  if t.fill-t.used>t.mask/4 then t.resize (minusedFor t.used) else some t

def popSlots : List (Slot α) → Option (α×List (Slot α))
  | [] => none
  | .active v _::s => some (v,.dummy::s)
  | .empty::s => (popSlots s).map fun r => (r.1,.empty::r.2)
  | .dummy::s => (popSlots s).map fun r => (r.1,.dummy::r.2)

def popFirst (t : SetTable α) : Option α×SetTable α :=
  match popSlots t.slots with
  | none => (none,t)
  | some (v,s) => (some v,{t with slots := s,used := t.used-1})

def copy (a : SetTable α) : Option (SetTable α) := merge eq (withCapacity minsize) a

def union (a b : SetTable α) : Option (SetTable α) := (copy eq a).bind fun r => merge eq r b

/-- Add the entries of `items` that satisfy a membership test of the table `other`. -/
def addWhere (other : SetTable α) (want : Bool) :
    List (α×Int64) → SetTable α → Option (SetTable α)
  | [],r => some r
  | p::items,r => do
    let b ← other.contains eq p.1 p.2
    if b=want then addWhere other want items (← r.add eq p.1 p.2)
    else addWhere other want items r

def intersection (a b : SetTable α) : Option (SetTable α) :=
  if a.used≥b.used then addWhere eq a true b.actives (withCapacity minsize)
  else addWhere eq b true a.actives (withCapacity minsize)

def differenceUpdate (a b : SetTable α) : Option (SetTable α) :=
  (discardAll eq a b.actives).bind compactIfSparse

def difference (a b : SetTable α) : Option (SetTable α) :=
  if a.used>>>2>b.used then (copy eq a).bind fun r => differenceUpdate eq r b
  else addWhere eq b false a.actives (withCapacity minsize)

def toggle (r : SetTable α) (p : α×Int64) : Option (SetTable α) := do
  let (removed,r) ← r.discard eq p.1 p.2
  if removed then some r else r.add eq p.1 p.2

def symmetricDifference (a b : SetTable α) : Option (SetTable α) :=
  (copy eq b).bind fun r => a.actives.foldlM (toggle eq) r

end SetTable

section Incremental

variable {α : Type} (eq : α → α → Bool) (pythonHash : α → Option Int64)

def hashAll : List α → Option (List (α×Int64))
  | [] => some []
  | x::xs => do
    let h ← pythonHash x
    return (x,h)::(← hashAll xs)

/-- The outer `none` is an unhashable item, the inner one a probe loop that does not stop. -/
def tableFromIncremental (items : List α) : Option (Option (SetTable α)) :=
  (hashAll pythonHash items).map fun hashed =>
    SetTable.addAll eq (SetTable.withCapacity minsize) hashed

end Incremental

open InterpretThis.Probe

section Path

theorem probePath_bound (mask : Nat) (hash : Int64) (e : Nat) (he : e∈probePath mask hash) :
    e ≤ mask :=
  path_bound _ _ _ _ _ _ _ Nat.and_le_right he

theorem probePath_covers (mask k : Nat) (hash : Int64) (hk : mask+1=2^k) (e : Nat)
    (he : e ≤ mask) : e∈probePath mask hash := by
  have word := hash.toUInt64.toNat_lt
  apply path_covers linearProbes perturbShift mask k 13 _ _ _ _ hk _ (by omega) Nat.and_le_right he
  unfold perturbShift
  omega

theorem probePath_home (mask : Nat) (hash : Int64) :
    ∃rest,probePath mask hash=(hash.toUInt64.toNat&&&mask)::rest := by
  obtain ⟨w,hw⟩ := window_head linearProbes mask (hash.toUInt64.toNat&&&mask)
  rw [probePath,show mask+14=mask+13+1 from rfl,path,hw]
  exact ⟨_,rfl⟩

end Path

section Slots

variable {α : Type}

def fillOf : List (Slot α) → Nat
  | [] => 0
  | .empty::s => fillOf s
  | _::s => fillOf s+1

@[simp] theorem activesOf_append (a b : List (Slot α)) :
    activesOf (a++b)=activesOf a++activesOf b := by
  induction a with
  | nil => rfl
  | cons s a ih => cases s <;> simp [activesOf,ih]

@[simp] theorem fillOf_append (a b : List (Slot α)) : fillOf (a++b)=fillOf a+fillOf b := by
  induction a with
  | nil => simp [fillOf]
  | cons s a ih => cases s <;> simp [fillOf,ih] <;> omega

@[simp] theorem activesOf_replicate (n : Nat) :
    activesOf (List.replicate n (Slot.empty : Slot α))=[] := by
  induction n with
  | zero => rfl
  | succ n ih => simp [List.replicate_succ,activesOf,ih]

@[simp] theorem fillOf_replicate (n : Nat) :
    fillOf (List.replicate n (Slot.empty : Slot α))=0 := by
  induction n with
  | zero => rfl
  | succ n ih => simp [List.replicate_succ,fillOf,ih]

theorem activesOf_length_le (slots : List (Slot α)) : (activesOf slots).length≤fillOf slots := by
  induction slots with
  | nil => simp [activesOf,fillOf]
  | cons s slots ih => cases s <;> simp [activesOf,fillOf] <;> omega

theorem cut (slots : List (Slot α)) (e : Nat) (s : Slot α) (h : slots[e]?=some s) :
    ∃pre post,slots=pre++s::post ∧ ∀x,slots.set e x=pre++x::post := by
  induction slots generalizing e with
  | nil => simp at h
  | cons a slots ih =>
    cases e with
    | zero =>
      have ha : a=s := by simpa using h
      exact ⟨[],slots,by rw [ha]; rfl,fun x => rfl⟩
    | succ e =>
      obtain ⟨pre,post,hs,hw⟩ := ih e (by simpa using h)
      refine ⟨a::pre,post,by rw [hs]; rfl,fun x => ?_⟩
      rw [List.set_cons_succ,hw x]
      rfl

theorem exists_empty (slots : List (Slot α)) (h : fillOf slots<slots.length) :
    ∃e,e<slots.length ∧ slots[e]?=some .empty := by
  induction slots with
  | nil => simp at h
  | cons s slots ih =>
    cases s with
    | empty => exact ⟨0,by simp,by simp⟩
    | dummy =>
      obtain ⟨e,hl,he⟩ := ih (by simp only [fillOf,List.length_cons] at h; omega)
      exact ⟨e+1,by simpa using hl,by simpa using he⟩
    | active v h' =>
      obtain ⟨e,hl,he⟩ := ih (by simp only [fillOf,List.length_cons] at h; omega)
      exact ⟨e+1,by simpa using hl,by simpa using he⟩

theorem occupied_eq_false (slots : List (Slot α)) (e : Nat) (he : slots[e]?=some .empty) :
    occupied slots e=false := by
  simp [occupied,he]

theorem empty_of_not_occupied (slots : List (Slot α)) (e : Nat) (hl : e<slots.length)
    (he : occupied slots e=false) : slots[e]?=some .empty := by
  have hs := List.getElem?_eq_getElem hl
  rw [occupied,hs] at he
  rw [hs]
  cases h : slots[e] with
  | empty => rfl
  | dummy => simp [h] at he
  | active v x => simp [h] at he

theorem occupied_set (slots : List (Slot α)) (e j : Nat) (x : Slot α) :
    occupied (slots.set e x) j=
      if e=j ∧ e<slots.length then (match x with | .empty => false | _ => true)
      else occupied slots j := by
  unfold occupied
  rw [List.getElem?_set]
  by_cases hj : e=j
  · subst hj
    by_cases hl : e<slots.length
    · cases x <;> simp [hl]
    · simp [hl]
  · simp [hj]

/-- Every active entry lies in the reach of its own probe path. -/
def Placed (mask : Nat) (slots : List (Slot α)) : Prop :=
  ∀j v h,slots[j]?=some (.active v h) → j∈reach (occupied slots) (probePath mask h)

structure Core (mask : Nat) (slots : List (Slot α)) : Prop where
  pow : ∃k,3≤k ∧ mask+1=2^k
  length : slots.length=mask+1
  placed : Placed mask slots

theorem Core.covers {mask : Nat} {slots : List (Slot α)} (c : Core mask slots) (hash : Int64)
    (e : Nat) (he : e<slots.length) : e∈probePath mask hash := by
  obtain ⟨k,_,hk⟩ := c.pow
  exact probePath_covers mask k hash hk e (by rw [c.length] at he; omega)

theorem Core.stop {mask : Nat} {slots : List (Slot α)} (c : Core mask slots)
    (room : fillOf slots<slots.length) (hash : Int64) :
    ∃e rest,probePath mask hash=reach (occupied slots) (probePath mask hash)++e::rest ∧
      slots[e]?=some .empty := by
  obtain ⟨f,hl,hf⟩ := exists_empty slots room
  obtain ⟨e,rest,hs,he⟩ := reach_stop (occupied slots) (probePath mask hash)
    ⟨f,c.covers hash f hl,occupied_eq_false slots f hf⟩
  have mem : e∈probePath mask hash := by rw [hs]; simp
  have bound := probePath_bound mask hash e mem
  exact ⟨e,rest,hs,empty_of_not_occupied slots e (by rw [c.length]; omega) he⟩

theorem Core.mono {mask : Nat} {slots slots' : List (Slot α)} (c : Core mask slots)
    (hl : slots'.length=slots.length)
    (hocc : ∀e,occupied slots e=true → occupied slots' e=true)
    (hact : ∀j v h,slots'[j]?=some (.active v h) →
      slots[j]?=some (.active v h) ∨ j∈reach (occupied slots') (probePath mask h)) :
    Core mask slots' := by
  refine ⟨c.pow,hl.trans c.length,?_⟩
  intro j v h hj
  rcases hact j v h hj with old|new
  · exact reach_mono _ _ hocc _ _ (c.placed j v h old)
  · exact new

/-- Writing an active entry into a slot of its own path's reach. -/
theorem Core.write {mask : Nat} {slots : List (Slot α)} (c : Core mask slots) (e : Nat)
    (v : α) (h : Int64)
    (he : e∈reach (occupied (slots.set e (.active v h))) (probePath mask h)) :
    Core mask (slots.set e (.active v h)) := by
  apply c.mono (by simp)
  · intro j hj
    rw [occupied_set]
    split_ifs
    · rfl
    · exact hj
  · intro j w x hj
    rw [List.getElem?_set] at hj
    by_cases hej : e=j
    · subst hej
      by_cases hl : e<slots.length
      · have hx : v=w ∧ h=x := by simpa [hl] using hj
        right
        rw [hx.2] at he ⊢
        exact he
      · simp [hl] at hj
    · left
      simpa [hej] using hj

theorem Core.erase {mask : Nat} {slots : List (Slot α)} (c : Core mask slots) (e : Nat) :
    Core mask (slots.set e .dummy) := by
  apply c.mono (by simp)
  · intro j hj
    rw [occupied_set]
    split_ifs
    · rfl
    · exact hj
  · intro j w x hj
    left
    rw [List.getElem?_set] at hj
    by_cases hej : e=j
    · subst hej
      by_cases hl : e<slots.length <;> simp [hl] at hj
    · simpa [hej] using hj

end Slots

end InterpretThis.Pyset
