import InterpretThis.Framework.Bisection
import InterpretThis.Sort.InPlace

namespace InterpretThis.Place

/-- What the module functions call: user callables and the builtin `<`. -/
structure Calls (K : Type) where
  callCallable : Value K → List (Value K) → State K → Except (Failure K) (Value K)×State K
  compareLt : State K → Value K → Value K → Except (Failure K) Bool

/-- `need_arg`. -/
def needArg {K : Type} (func : String) (args : List (Value K)) (index : ℕ) :
    Except (Failure K) (Value K) :=
  match args[index]? with
  | some v => .ok v
  | none => .error (.typeError
      (func++"() missing required argument at position "++toString index))

namespace Bisect

open Bisection

section Definitions

variable {K : Type} (C : Calls K)

/-- `opt_bound`. -/
def optBound (arg : Option (Value K)) (default : ℕ) : Except (Failure K) ℕ :=
  match arg with
  | none => .ok default
  | some .none => .ok default
  | some (.int n) =>
    if 0≤n then .ok n.toInt.toNat else .error (.raised "lo must be non-negative")
  | some other => .error (.typeError
      ("'"++other.typeName++"' object cannot be interpreted as an integer"))

/-- The element that a probe compares: the key of an item, or the item. -/
def elemOf (key : Option (Value K)) (item : Value K) (s : State K) :
    Except (Failure K) (Value K)×State K :=
  match key with
  | some f => C.callCallable f [item] s
  | none => (.ok item,s)

/-- One round of the loop: whether `x` belongs to the right of the middle. -/
def probe (right : Bool) (key : Option (Value K)) (x : Value K) (snapshot : List (Value K))
    (mid : ℕ) (s : State K) : Except (Failure K) Bool×State K :=
  match snapshot[mid]? with
  | none => (.error (.runtime "index out of bounds"),s)
  | some item =>
    match elemOf C key item s with
    | (.error e,t) => (.error e,t)
    | (.ok elem,t) =>
      (if right then (C.compareLt t x elem).map (!·) else C.compareLt t elem x,t)

def isRight (func : String) : Bool := func∈["bisect_right","bisect","insort_right","insort"]

def isInsert (func : String) : Bool := func∈["insort_left","insort_right","insort"]

/-- The `key` argument; `None` counts as absent. -/
def keyArg (kwargs : List (String×Value K)) : Option (Value K) :=
  match kwargs.lookup "key" with
  | some .none => none
  | key => key

/-- A `usize` as an `i64`, at most the largest. -/
def asI64 (n : ℕ) : Int64 := if n<2^63 then Int64.ofNat n else Int64.maxValue

/-- The list as it is by then takes the item in; a place behind its end panics. -/
def finish (insert : Bool) (a : ℕ) (x : Value K) (i : ℕ) (t : State K) :
    Except (Failure K) (Value K)×State K :=
  if insert then
    if i≤(t.heap.items a).length then (.ok .none,setItems a ((t.heap.items a).insertIdx i x) t)
    else (.error (.runtime "insertion index out of bounds"),t)
  else (.ok (.int (asI64 i)),t)

/-- `BisectModule::call`. -/
def call (func : String) (args : List (Value K)) (kwargs : List (String×Value K)) (s : State K) :
    Except (Failure K) (Value K)×State K :=
  match args.head? with
  | some (.list a) =>
    match needArg func args 1 with
    | .error e => (.error e,s)
    | .ok x =>
      let snapshot := s.heap.items a
      match optBound args[2]? 0 with
      | .error e => (.error e,s)
      | .ok lo =>
        match optBound args[3]? snapshot.length with
        | .error e => (.error e,s)
        | .ok hi =>
          if snapshot.length<lo then (.error (.raised "lo must be non-negative"),s)
          else
            match search (probe C (isRight func) (keyArg kwargs) x snapshot) lo
                (min hi snapshot.length) s with
            | (.error e,t) => (.error e,t)
            | (.ok i,t) => finish (isInsert func) a x i t
  | other => (.error (.typeError (func++"() argument must be a list, not '"++
      (other.elim "nothing" Value.typeName)++"'")),s)

end Definitions

section Insertion

variable {α : Type} {x : α} {i k : ℕ}

theorem insertIdx_swap {xs : List α} (hle : i≤k) (hlen : k≤xs.length) :
    xs.insertIdx i x=xs.insertIdx k x ↔ ∀ j,i≤j → j<k → xs[j]?=some x := by
  induction xs generalizing i k with
  | nil =>
    obtain rfl : k=0 := Nat.le_zero.mp hlen
    obtain rfl : i=0 := Nat.le_zero.mp hle
    exact iff_of_true rfl fun j _ hj => absurd hj (Nat.not_lt_zero j)
  | cons y ys ih =>
    cases k with
    | zero =>
      obtain rfl : i=0 := Nat.le_zero.mp hle
      exact iff_of_true rfl fun j _ hj => absurd hj (Nat.not_lt_zero j)
    | succ k =>
      have hlen' : k≤ys.length := Nat.le_of_succ_le_succ hlen
      cases i with
      | zero =>
        have hrec := ih (Nat.zero_le k) hlen'
        rw [List.insertIdx_zero] at hrec
        rw [List.insertIdx_zero,List.insertIdx_succ_cons,List.cons.injEq]
        constructor
        · rintro ⟨rfl,h⟩ j - hj
          cases j with
          | zero => rfl
          | succ j => exact hrec.mp h j (Nat.zero_le j) (Nat.lt_of_succ_lt_succ hj)
        · intro h
          have hy : y=x := Option.some.inj (h 0 (Nat.le_refl 0) (Nat.succ_pos k))
          subst hy
          exact ⟨rfl,hrec.mpr fun j _ hj => h (j+1) (Nat.zero_le _) (Nat.succ_lt_succ hj)⟩
      | succ i =>
        have hrec := ih (Nat.le_of_succ_le_succ hle) hlen'
        rw [List.insertIdx_succ_cons,List.insertIdx_succ_cons,List.cons.injEq,hrec]
        constructor
        · rintro ⟨-,h⟩ j hj hj'
          cases j with
          | zero => exact absurd hj (Nat.not_succ_le_zero i)
          | succ j => exact h j (Nat.le_of_succ_le_succ hj) (Nat.lt_of_succ_lt_succ hj')
        · intro h
          refine ⟨rfl,fun j hj hj' => ?_⟩
          exact h (j+1) (Nat.succ_le_succ hj) (Nat.succ_lt_succ hj')

/-- Nothing but copies of the item stands between two places. -/
def Twins (x : α) (xs : List α) (i k : ℕ) : Prop :=
  ∀ j,min i k≤j → j < max i k → xs[j]?=some x

theorem insertIdx_eq_iff {xs : List α} (hi : i≤xs.length) (hk : k≤xs.length) :
    xs.insertIdx i x=xs.insertIdx k x ↔ Twins x xs i k := by
  rw [Twins]
  obtain hle|hle := Nat.le_total i k
  · rw [Nat.min_eq_left hle,Nat.max_eq_right hle]
    exact insertIdx_swap hle hk
  · rw [Nat.min_eq_right hle,Nat.max_eq_left hle,eq_comm]
    exact insertIdx_swap hle hi

/-- An item that no earlier entry must follow and that no later entry must precede. -/
theorem pairwise_insertIdx {R : α → α → Prop} {xs : List α} (h : xs.Pairwise R) (hi : i≤xs.length)
    (hbefore : ∀ j,j < i → ∀ v,xs[j]?=some v → R v x)
    (hafter : ∀ j,i≤j → ∀ v,xs[j]?=some v → R x v) : (xs.insertIdx i x).Pairwise R := by
  induction xs generalizing i with
  | nil =>
    obtain rfl : i=0 := Nat.le_zero.mp hi
    exact List.pairwise_singleton R x
  | cons y ys ih =>
    cases i with
    | zero =>
      rw [List.insertIdx_zero]
      refine List.pairwise_cons.mpr ⟨fun v hv => ?_,h⟩
      obtain ⟨j,hj⟩ := List.mem_iff_getElem?.mp hv
      exact hafter j (Nat.zero_le j) v hj
    | succ i =>
      obtain ⟨hy,hys⟩ := List.pairwise_cons.mp h
      have hk : i≤ys.length := Nat.le_of_succ_le_succ hi
      rw [List.insertIdx_succ_cons]
      refine List.pairwise_cons.mpr ⟨fun v hv => ?_,ih hys hk ?_ ?_⟩
      · obtain rfl|hv := (List.mem_insertIdx hk).mp hv
        · exact hbefore 0 (Nat.succ_pos i) y rfl
        · exact hy v hv
      · exact fun j hj v hv => hbefore (j+1) (Nat.succ_lt_succ hj) v hv
      · exact fun j hj v hv => hafter (j+1) (Nat.succ_le_succ hj) v hv

end Insertion

variable {K : Type}

/-- A call on a live list: the function, the list, the item, and the arguments behind it. -/
structure Query (K : Type) where
  func : String
  addr : ℕ
  x : Value K
  bounds : List (Value K)
  kwargs : List (String×Value K)
  state : State K

namespace Query

variable (q : Query K)

def items : List (Value K) := q.state.heap.items q.addr

def run (C : Calls K) : Except (Failure K) (Value K)×State K :=
  call C q.func (.list q.addr::q.x::q.bounds) q.kwargs q.state

def comparand (keyOf : Value K → Value K) : Value K := if isInsert q.func then keyOf q.x else q.x

/-- The bounds that the call asks for, by position or by name. -/
def Asks (lo hi : ℕ) : Prop :=
  optBound (q.bounds[0]?.or (q.kwargs.lookup "lo")) 0=.ok lo ∧
  optBound (q.bounds[1]?.or (q.kwargs.lookup "hi")) q.items.length=.ok hi ∧
  lo≤hi ∧ hi≤q.items.length

def boundOr (bound : Option (Value K)) (default : ℕ) : ℕ :=
  match optBound bound default with
  | .ok n => n
  | .error _ => default

/-- The window that the source searches: bounds by name are not looked at. -/
def codeLo : ℕ := boundOr q.bounds[0]? 0

def codeHi : ℕ := boundOr q.bounds[1]? q.items.length

def probe (C : Calls K) : ℕ → State K → Except (Failure K) Bool×State K :=
  Bisect.probe C (isRight q.func) (keyArg q.kwargs) q.x q.items

end Query

section Property

variable (C : Calls K) (lt : Value K → Value K → Bool) (keyOf : Value K → Value K) (q : Query K)

/-- An element of key `k` belongs before `c`; ties go by the side. -/
def before (right : Bool) (c k : Value K) : Bool := if right then !lt c k else lt k c

def BeforeAt (j : ℕ) : Prop := ∃ v,q.items[j]?=some v ∧
  before lt (isRight q.func) (q.comparand keyOf) (keyOf v)=true

def Sorted (xs : List (Value K)) : Prop := xs.Pairwise fun a b => lt (keyOf b) (keyOf a)=false

def RightPlace (lo hi i : ℕ) : Prop := IsPartition (BeforeAt lt keyOf q) lo hi i

/-- The call returns the partition point, or puts the item there. -/
def Answers (lo hi : ℕ) : Prop :=
  if isInsert q.func then
    (q.run C).1=.ok .none ∧ ∃ i,RightPlace lt keyOf q lo hi i ∧
      (q.run C).2.heap.items q.addr=q.items.insertIdx i q.x ∧
      (lo=0 → hi=q.items.length → Sorted lt keyOf (q.items.insertIdx i q.x))
  else ∃ i,RightPlace lt keyOf q lo hi i ∧ (q.run C).1=.ok (.int (asI64 i))

/-- The list is sorted by key, the key function only computes keys, and the keys are ordered. -/
structure Lawful : Prop where
  live : q.addr<q.state.heap.length
  short : q.items.length<2^63
  sorted : Sorted lt keyOf q.items
  keyNone : keyArg q.kwargs=none → ∀ v,keyOf v=v
  keyCall : ∀ f,keyArg q.kwargs=some f →
    ∀ v,v∈q.items ∨ isInsert q.func=true ∧ v=q.x → ∀ s,(C.callCallable f [v] s).1=.ok (keyOf v)
  keyKeeps : ∀ f,keyArg q.kwargs=some f → ∀ v,v∈q.items → ∀ s,
    (C.callCallable f [v] s).2.heap.items q.addr=s.heap.items q.addr ∧
    (q.addr<s.heap.length → q.addr<(C.callCallable f [v] s).2.heap.length)
  weak : WeakOrder lt (q.comparand keyOf::q.items.map keyOf)
  compares : ∀ u∈q.comparand keyOf::q.items.map keyOf,
    ∀ v∈q.comparand keyOf::q.items.map keyOf,∀ s,C.compareLt s u v=.ok (lt u v)

/-- A right place exists to which every element points that the search meets on its way there. -/
def Guided (lo hi : ℕ) : Prop := ∃ i k,RightPlace lt keyOf q lo hi i ∧
  (if isInsert q.func then q.codeLo≤k ∧ k≤q.codeHi ∧ Twins q.x q.items i k else k=i) ∧
  Steered (q.probe C) (·<k) q.codeLo q.codeHi q.state

end Property

section Windows

variable {C : Calls K} {lt : Value K → Value K → Bool} {keyOf : Value K → Value K} {q : Query K}
  {lo hi : ℕ}

theorem boundOr_ok {bound keyword : Option (Value K)} {default n : ℕ}
    (h : optBound (bound.or keyword) default=.ok n) :
    optBound bound default=.ok (Query.boundOr bound default) ∧
    (Query.boundOr bound default=n ∨ Query.boundOr bound default=default ∧ keyword≠none) := by
  cases bound with
  | some v =>
    change optBound (some v) default=.ok n at h
    have hor : Query.boundOr (some v) default=n := by
      rw [Query.boundOr,h]
    rw [hor]
    exact ⟨h,.inl rfl⟩
  | none =>
    refine ⟨rfl,?_⟩
    cases keyword with
    | none => exact .inl (Except.ok.inj h)
    | some v => exact .inr ⟨rfl,fun h => nomatch h⟩

theorem codeLo_le (ha : q.Asks lo hi) : q.codeLo≤lo := by
  obtain ⟨hlo,-,-,-⟩ := ha
  obtain heq|⟨heq,-⟩ := (boundOr_ok hlo).2
  · exact Nat.le_of_eq heq
  · change q.codeLo=0 at heq
    omega

theorem le_codeHi (ha : q.Asks lo hi) : hi≤q.codeHi ∧ q.codeHi≤q.items.length := by
  obtain ⟨-,hhi,-,hlen⟩ := ha
  obtain heq|⟨heq,-⟩ := (boundOr_ok hhi).2
  · change q.codeHi=hi at heq
    omega
  · change q.codeHi=q.items.length at heq
    omega

/-- The call is the search of its window and what is done with the place found. -/
theorem run_eq (ha : q.Asks lo hi) : q.run C=
    match search (q.probe C) q.codeLo q.codeHi q.state with
    | (.error e,t) => (.error e,t)
    | (.ok i,t) => finish (isInsert q.func) q.addr q.x i t := by
  have hlo := codeLo_le ha
  have hhi := le_codeHi ha
  obtain ⟨hblo,hbhi,hle,hlen⟩ := ha
  have h2 : optBound (Value.list q.addr::q.x::q.bounds)[2]? 0=.ok q.codeLo := (boundOr_ok hblo).1
  have h3 : optBound (Value.list q.addr::q.x::q.bounds)[3]? q.items.length=.ok q.codeHi :=
    (boundOr_ok hbhi).1
  change (match optBound (Value.list q.addr::q.x::q.bounds)[2]? 0 with
    | .error e => ((.error e,q.state) : Except (Failure K) (Value K)×State K)
    | .ok lo =>
      match optBound (Value.list q.addr::q.x::q.bounds)[3]? q.items.length with
      | .error e => (.error e,q.state)
      | .ok hi =>
        if q.items.length<lo then (.error (.raised "lo must be non-negative"),q.state)
        else
          match search (q.probe C) lo (min hi q.items.length) q.state with
          | (.error e,t) => (.error e,t)
          | (.ok i,t) => finish (isInsert q.func) q.addr q.x i t)=_
  rw [h2,h3]
  change (if q.items.length<q.codeLo then _ else _)=_
  rw [if_neg (by omega),Nat.min_eq_left hhi.2]

end Windows

section Exactness

variable {C : Calls K} {lt : Value K → Value K → Bool} {keyOf : Value K → Value K} {q : Query K}
  {lo hi i : ℕ}

theorem mem_keys {j : ℕ} {v : Value K} (hv : q.items[j]?=some v) :
    keyOf v∈q.comparand keyOf::q.items.map keyOf :=
  List.mem_cons_of_mem _ (List.mem_map_of_mem (List.mem_of_getElem? hv))

/-- In a sorted list the elements before the comparand come first. -/
theorem beforeAt_down (h : Lawful C lt keyOf q) {j k : ℕ} (hjk : j≤k)
    (hk : BeforeAt lt keyOf q k) : BeforeAt lt keyOf q j := by
  obtain ⟨v,hv,hbefore⟩ := hk
  obtain rfl|hlt := Nat.eq_or_lt_of_le hjk
  · exact ⟨v,hv,hbefore⟩
  obtain ⟨hklen,rfl⟩ := List.getElem?_eq_some_iff.mp hv
  have hjlen : j<q.items.length := hlt.trans hklen
  have hu : q.items[j]?=some q.items[j] := List.getElem?_eq_getElem hjlen
  have hsorted := List.pairwise_iff_getElem.mp h.sorted j k hjlen hklen hlt
  have hmem : q.comparand keyOf∈q.comparand keyOf::q.items.map keyOf := List.mem_cons_self
  refine ⟨q.items[j],hu,?_⟩
  cases hright : isRight q.func with
  | false =>
    rw [before,hright,if_neg (by decide)] at hbefore
    rw [before,if_neg (by decide)]
    obtain hkj|hj := h.weak.cotrans _ (mem_keys hv) _ (mem_keys hu) _ hmem hbefore
    · rw [hsorted] at hkj
      cases hkj
    · exact hj
  | true =>
    rw [before,hright,if_pos rfl] at hbefore
    rw [before,if_pos rfl]
    cases hj : lt (q.comparand keyOf) (keyOf q.items[j]) with
    | false => rfl
    | true =>
      obtain hck|hkj := h.weak.cotrans _ hmem _ (mem_keys hv) _ (mem_keys hu) hj
      · rw [hck] at hbefore
        cases hbefore
      · rw [hsorted] at hkj
        cases hkj

theorem exists_rightPlace (h : Lawful C lt keyOf q) (ha : q.Asks lo hi) :
    ∃ i,RightPlace lt keyOf q lo hi i :=
  exists_partition ha.2.2.1 fun _ _ _ hjk _ => beforeAt_down h hjk

theorem elemOf_key (h : Lawful C lt keyOf q) {v : Value K} (hv : v∈q.items) (s : State K) :
    (elemOf C (keyArg q.kwargs) v s).1=.ok (keyOf v) ∧
    (elemOf C (keyArg q.kwargs) v s).2.heap.items q.addr=s.heap.items q.addr ∧
    (q.addr<s.heap.length →
      q.addr<(elemOf C (keyArg q.kwargs) v s).2.heap.length) := by
  cases hkey : keyArg q.kwargs with
  | none => exact ⟨congrArg Except.ok (h.keyNone hkey v).symm,rfl,id⟩
  | some f =>
    have hkeeps := h.keyKeeps f hkey v hv s
    exact ⟨h.keyCall f hkey v (.inl hv) s,hkeeps.1,hkeeps.2⟩

theorem probe_eq (h : Lawful C lt keyOf q) {v : Value K} {j : ℕ} (hv : q.items[j]?=some v)
    (s : State K) : ∃ t,t=(elemOf C (keyArg q.kwargs) v s).2 ∧ q.probe C j s=
      (if isRight q.func then (C.compareLt t q.x (keyOf v)).map (!·)
        else C.compareLt t (keyOf v) q.x,t) := by
  obtain ⟨hkey,-⟩ := elemOf_key h (List.mem_of_getElem? hv) s
  refine ⟨_,rfl,?_⟩
  rw [Query.probe,probe,hv]
  cases helem : elemOf C (keyArg q.kwargs) v s with
  | mk out t =>
    rw [helem] at hkey
    obtain rfl : out=.ok (keyOf v) := hkey
    simp only [helem]

/-- The list stays as it is while it is searched. -/
def Kept (q : Query K) (s : State K) : Prop :=
  s.heap.items q.addr=q.items ∧ q.addr<s.heap.length

theorem probe_kept (h : Lawful C lt keyOf q) (m : ℕ) (s : State K) (hs : Kept q s) :
    Kept q (q.probe C m s).2 := by
  cases hv : q.items[m]? with
  | none =>
    rw [Query.probe,probe,hv]
    exact hs
  | some v =>
    obtain ⟨-,hitems,hlive⟩ := elemOf_key h (List.mem_of_getElem? hv) s
    obtain ⟨t,rfl,heq⟩ := probe_eq h hv s
    rw [heq]
    exact ⟨hitems.trans hs.1,hlive hs.2⟩

theorem search_kept (h : Lawful C lt keyOf q) :
    Kept q (search (q.probe C) q.codeLo q.codeHi q.state).2 :=
  search_keeps (probe_kept h) ⟨rfl,h.live⟩

theorem asI64_inj {m n : ℕ} (hm : m<2^63) (hn : n<2^63) (h : asI64 m=asI64 n) : m=n := by
  rw [asI64,if_pos hm,asI64,if_pos hn] at h
  have hto := congrArg Int64.toInt h
  rw [Int64.toInt_ofNat_of_lt hm,Int64.toInt_ofNat_of_lt hn] at hto
  exact Int.ofNat_inj.mp hto

theorem finish_insert {x : Value K} {a : ℕ} {t : State K} (hins : isInsert q.func=true)
    (hi : i ≤ (t.heap.items a).length) : finish (isInsert q.func) a x i t=
      (.ok .none,setItems a ((t.heap.items a).insertIdx i x) t) := by
  rw [finish,if_pos hins,if_pos hi]

/-- An item put at its right place leaves the list sorted. -/
theorem sorted_insert (h : Lawful C lt keyOf q) (hins : isInsert q.func=true)
    (hplace : RightPlace lt keyOf q 0 q.items.length i) :
    Sorted lt keyOf (q.items.insertIdx i q.x) := by
  have hc : q.comparand keyOf=keyOf q.x := by rw [Query.comparand,if_pos hins]
  have hmem : keyOf q.x∈q.comparand keyOf::q.items.map keyOf := by
    rw [hc]
    exact List.mem_cons_self
  refine pairwise_insertIdx h.sorted hplace.upper ?_ ?_
  · intro j hj v hv
    obtain ⟨u,hu,hbefore⟩ := hplace.below j (Nat.zero_le j) hj
    obtain rfl : u=v := Option.some.inj (hu.symm.trans hv)
    rw [before,hc] at hbefore
    cases hright : isRight q.func with
    | true =>
      rw [hright,if_pos rfl] at hbefore
      simpa using hbefore
    | false =>
      rw [hright,if_neg (by decide)] at hbefore
      exact h.weak.asymm _ (mem_keys hv) _ hmem hbefore
  · intro j hj v hv
    have hlen : j<q.items.length := (List.getElem?_eq_some_iff.mp hv).1
    have hnot := hplace.above j hj hlen
    cases hvc : lt (keyOf v) (keyOf q.x) with
    | false => rfl
    | true =>
      refine absurd ⟨v,hv,?_⟩ hnot
      rw [before,hc]
      cases isRight q.func with
      | false => exact hvc
      | true =>
        have hcv := h.weak.asymm _ (mem_keys hv) _ hmem hvc
        rw [if_pos rfl,hcv]
        rfl

theorem answers_iff (h : Lawful C lt keyOf q) (ha : q.Asks lo hi) :
    Answers C lt keyOf q lo hi ↔ Guided C lt keyOf q lo hi := by
  have hlo := codeLo_le ha
  have hhi := le_codeHi ha
  have hkept := search_kept h
  have hrun := run_eq (C := C) ha
  have hshort := h.short
  have hwindow : q.codeLo≤q.codeHi := by
    have hle := ha.2.2.1
    omega
  cases hs : search (q.probe C) q.codeLo q.codeHi q.state with
  | mk out t =>
    rw [hs] at hrun hkept
    have hfirst : (search (q.probe C) q.codeLo q.codeHi q.state).1=out := by rw [hs]
    rw [Answers,Guided]
    by_cases hins : isInsert q.func=true
    · simp only [if_pos hins]
      constructor
      · rintro ⟨hok,i,hplace,hitems,-⟩
        cases out with
        | error e =>
          rw [hrun] at hok
          cases hok
        | ok r =>
          have hrange := search_range hwindow hfirst
          have hr : r ≤ (t.heap.items q.addr).length := by
            rw [hkept.1]
            omega
          rw [hrun] at hitems
          change (finish (isInsert q.func) q.addr q.x r t).2.heap.items q.addr=_ at hitems
          rw [finish_insert hins hr,setItems_same hkept.2,hkept.1] at hitems
          have hi := hplace.upper
          refine ⟨i,r,hplace,⟨hrange.1,hrange.2,?_⟩,
            (search_iff hrange.1 hrange.2).mp hfirst⟩
          exact (insertIdx_eq_iff (by omega) (by omega)).mp hitems.symm
      · rintro ⟨i,r,hplace,⟨hrlo,hrhi,htwins⟩,hsteered⟩
        have hfound := (search_iff hrlo hrhi).mpr hsteered
        rw [hfirst] at hfound
        subst hfound
        have hr : r ≤ (t.heap.items q.addr).length := by
          rw [hkept.1]
          omega
        have hi := hplace.upper
        change q.run C=finish (isInsert q.func) q.addr q.x r t at hrun
        rw [finish_insert hins hr,hkept.1] at hrun
        rw [hrun]
        refine ⟨rfl,i,hplace,?_,?_⟩
        · rw [setItems_same hkept.2]
          exact ((insertIdx_eq_iff (by omega) (by omega)).mpr htwins).symm
        · rintro rfl rfl
          exact sorted_insert h hins hplace
    · simp only [if_neg hins]
      constructor
      · rintro ⟨i,hplace,hok⟩
        cases out with
        | error e =>
          rw [hrun] at hok
          cases hok
        | ok r =>
          have hrange := search_range hwindow hfirst
          have hi := hplace.upper
          rw [hrun] at hok
          change (finish (isInsert q.func) q.addr q.x r t).1=_ at hok
          rw [finish,if_neg hins] at hok
          have hri : r=i :=
            asI64_inj (by omega) (by omega) (Value.int.inj (Except.ok.inj hok))
          subst hri
          exact ⟨r,r,hplace,rfl,(search_iff hrange.1 hrange.2).mp hfirst⟩
      · rintro ⟨i,r,hplace,rfl,hsteered⟩
        have hl := hplace.lower
        have hu := hplace.upper
        have hfound := (search_iff (by omega) (by omega)).mpr hsteered
        rw [hfirst] at hfound
        subst hfound
        refine ⟨r,hplace,?_⟩
        rw [hrun]
        change (finish (isInsert q.func) q.addr q.x r t).1=_
        rw [finish,if_neg hins]

/-- Without bounds by name, and without a key where an item is inserted, every element points to
the right place. -/
theorem guided_of_plain (h : Lawful C lt keyOf q) (ha : q.Asks lo hi)
    (hlo : q.kwargs.lookup "lo"=none) (hhi : q.kwargs.lookup "hi"=none)
    (hkey : isInsert q.func=true → keyArg q.kwargs=none) : Guided C lt keyOf q lo hi := by
  obtain ⟨i,hplace⟩ := exists_rightPlace h ha
  obtain ⟨hblo,hbhi,hle,hlen⟩ := ha
  have hclo : q.codeLo=lo := (boundOr_ok hblo).2.resolve_right fun hne => hne.2 hlo
  have hchi : q.codeHi=hi := (boundOr_ok hbhi).2.resolve_right fun hne => hne.2 hhi
  have hx : q.comparand keyOf=q.x := by
    rw [Query.comparand]
    split_ifs with hins
    · exact h.keyNone (hkey hins) q.x
    · rfl
  have hl := hplace.lower
  have hu := hplace.upper
  refine ⟨i,i,hplace,?_,?_⟩
  · split_ifs
    · refine ⟨by omega,by omega,fun j hj hj' => ?_⟩
      rw [Nat.min_self] at hj
      rw [Nat.max_self] at hj'
      omega
    · rfl
  · rw [hclo,hchi]
    refine steered_of_answers (I := Kept q) (fun m hml hmh s hs => ?_) ⟨rfl,h.live⟩
    have hmlen : m<q.items.length := by omega
    have hv : q.items[m]?=some q.items[m] := List.getElem?_eq_getElem hmlen
    have hmem : q.x∈q.comparand keyOf::q.items.map keyOf := by
      rw [hx]
      exact List.mem_cons_self
    have hanswer : BeforeAt lt keyOf q m ↔
        before lt (isRight q.func) q.x (keyOf q.items[m])=true := by
      rw [BeforeAt,hx]
      constructor
      · rintro ⟨v,hv',hb⟩
        rwa [← Option.some.inj (hv.symm.trans hv')] at hb
      · exact fun hb => ⟨_,hv,hb⟩
    have hdecide : decide (m < i)=before lt (isRight q.func) q.x (keyOf q.items[m]) := by
      rw [Bool.eq_iff_iff,decide_eq_true_eq,← hanswer]
      exact (hplace.iff hml hmh).symm
    obtain ⟨t,-,hprobe⟩ := probe_eq h hv s
    have hkept := probe_kept h m s hs
    rw [hprobe] at hkept
    refine ⟨t,?_,hkept⟩
    rw [hprobe,hdecide,before]
    split_ifs
    · rw [h.compares _ hmem _ (mem_keys hv)]
      rfl
    · rw [h.compares _ (mem_keys hv) _ hmem]

end Exactness

section Integers

/-- Calls that give their argument back, and the order of the integers. -/
def plainCalls : Calls String where
  callCallable _ args s := (.ok (args.headD .none),s)
  compareLt _ a b := plainSorter.compareLt (holding []) a b

theorem lawful_ints {q : Query String} (hints : ∀ v∈q.x::q.items,∃ n,v=.int n)
    (hlive : q.addr<q.state.heap.length) (hshort : q.items.length<2^63)
    (hsorted : Sorted intLess id q.items) : Lawful plainCalls intLess id q := by
  have hkeys : ∀ v∈q.comparand id::q.items.map id,∃ n,v=.int n := by
    intro v hv
    refine hints v ?_
    rw [List.map_id] at hv
    have hc : q.comparand id=q.x := by
      rw [Query.comparand]
      split_ifs <;> rfl
    rwa [hc] at hv
  refine ⟨hlive,hshort,hsorted,fun _ _ => rfl,fun _ _ _ _ _ => rfl,
    fun _ _ _ _ _ => ⟨rfl,id⟩,⟨?_,?_⟩,?_⟩
  · intro a ha b hb hlt
    obtain ⟨i,rfl⟩ := hkeys a ha
    obtain ⟨j,rfl⟩ := hkeys b hb
    simp only [intLess,decide_eq_true_eq,decide_eq_false_iff_not] at hlt ⊢
    omega
  · intro a ha b hb c hc hlt
    obtain ⟨i,rfl⟩ := hkeys a ha
    obtain ⟨j,rfl⟩ := hkeys b hb
    obtain ⟨k,rfl⟩ := hkeys c hc
    simp only [intLess,decide_eq_true_eq] at hlt ⊢
    omega
  · intro a ha b hb s
    obtain ⟨i,rfl⟩ := hkeys a ha
    obtain ⟨j,rfl⟩ := hkeys b hb
    rfl

/-- The list `[1,3]` and the item 2. -/
def twoInThree (func : String) : Query String := ⟨func,0,.int 2,[],[],holding [.int 1,.int 3]⟩

/-- The list `[1]`, the item 1, and a lower bound by name. -/
def oneFromOne : Query String := ⟨"bisect_left",0,.int 1,[],[("lo",.int 1)],holding [.int 1]⟩

end Integers

end Bisect
end InterpretThis.Place
