import InterpretThis.Place.Captured
import InterpretThis.Sort.Dsu

namespace InterpretThis.Place

variable {K X : Type} [DecidableEq K]

abbrev Sorter (K : Type) := Sort.Machine (Failure K) (Value K) (State K)

section Definitions

variable (M : Machine K X)

/-- The machine whose sort is `dsu_sort`. -/
def Machine.withSort (M : Machine K X) (S : Sorter K) : Machine K X :=
  {M with dsuSort := fun items key reverse s => Sort.dsuSort S items key reverse s}

def listSortTypeError (typeName : String) : Failure K :=
  .attributeError ("'"++typeName++"' object has no attribute 'sort'")

/-- The list at a place, or the name of the type of what else is there. -/
def takenAt (_ : Heap K) (target : Value K) : Except String Nat :=
  match target with
  | .list a => .ok a
  | other => .error other.typeName

/-- The sorted items go to the list that the place leads to by then. -/
def writeBackAt (root : String) (steps : List (PlaceStep K)) (sorted : List (Value K))
    (s : State K) : Except (Failure K) (Value K)×State K :=
  match inspect M root steps listAt s with
  | (.error e,u) => (.error e,u)
  | (.ok (some b),u) => (.ok .none,setItems b sorted u)
  | (.ok none,u) => (.ok .none,u)

def isReverse (kwargs : List (String×Value K)) (s : State K) : Bool :=
  ((kwargs.lookup "reverse").map (M.isTruthy s.heap)).getD false

/-- `e.sort(…)` as the call evaluator intercepts it. -/
def sortIntercept (e : Expr X) (args : List (Value K)) (kwargs : List (String×Value K))
    (s : State K) : Except (Failure K) (Value K)×State K :=
  if args.isEmpty then
    let key := kwargs.lookup "key"
    let reverse := isReverse M kwargs s
    match evalPlace M e s with
    | (.error err,t) => (.error err,t)
    | (.ok place,t) =>
      match usablePlace place t with
      | some p =>
        match inspect M p.root p.steps takenAt t with
        | (.error err,u) => (.error err,u)
        | (.ok (.error typeName),u) => (.error (listSortTypeError typeName),u)
        | (.ok (.ok a),u) =>
          match M.dsuSort (u.heap.items a) key reverse (takeItems a u) with
          | (.error err,w) => (.error err,w)
          | (.ok sorted,w) => writeBackAt M p.root p.steps sorted w
      | none =>
        match M.evalExpr e t with
        | (.error err,u) => (.error err,u)
        | (.ok obj,u) =>
          match obj with
          | .list a =>
            match M.dsuSort (u.heap.items a) key reverse u with
            | (.error err,w) => (.error err,w)
            | (.ok _,w) => (.ok .none,w)
          | other => (.error (listSortTypeError other.typeName),u)
  else (.error (.typeError "sort() takes no positional arguments"),s)

/-- A call of `sort`: on an expression, or of a method that was captured before. -/
inductive CallSite (K X : Type) where
  | direct (e : Expr X)
  | captured (receiver : BoundMethodReceiver K)

def callSort (site : CallSite K X) (args : List (Value K)) (kwargs : List (String×Value K))
    (s : State K) : Except (Failure K) (Value K)×State K :=
  match site with
  | .direct e => sortIntercept M e args kwargs s
  | .captured receiver => callBoundMethod M receiver "sort" args kwargs s

/-- How the sorted items come back: through the place, into the list itself, or not at all. -/
inductive WriteBack (K : Type) where
  | place (root : String) (steps : List (PlaceStep K))
  | handle
  | dropped

/-- A sort of the list at `addr`, found in `state`. Without a request the call is refused for its
positional arguments. -/
structure Sorting (K : Type) where
  addr : Nat
  state : State K
  back : WriteBack K
  request : Option (Option (Value K)×Bool)

namespace Sorting

def items (w : Sorting K) : List (Value K) := w.state.heap.items w.addr

/-- The state that the sort runs in: the list is empty while its items are sorted elsewhere. -/
def start (w : Sorting K) : State K :=
  match w.back with
  | .dropped => w.state
  | _ => takeItems w.addr w.state

def run (w : Sorting K) : Except (Failure K) (List (Value K))×State K :=
  match w.request with
  | some (key,reverse) => M.dsuSort w.items key reverse w.start
  | none => (.error (.typeError "sort() takes no positional arguments"),w.start)

def outcome (w : Sorting K) : Except (Failure K) (Value K)×State K :=
  match w.run M with
  | (.error e,u) => (.error e,u)
  | (.ok sorted,u) =>
    match w.back with
    | .place root steps => writeBackAt M root steps sorted u
    | .handle => (.ok .none,setItems w.addr sorted u)
    | .dropped => (.ok .none,u)

end Sorting

def boundRequest (args : List (Value K)) (kwargs : List (String×Value K)) (s : State K) :
    Option (Option (Value K)×Bool) :=
  if args.isEmpty then some (kwargs.lookup "key",isReverse M kwargs s) else none

/-- The sort that a call site starts. -/
inductive Located (args : List (Value K)) (kwargs : List (String×Value K)) (s : State K) :
    CallSite K X → Sorting K → Prop where
  | place {e : Expr X} {place : Option (Place K)} {p : Place K} {t : State K} {a : Nat}
      (none : args.isEmpty=true) (evaluated : evalPlace M e s=(.ok place,t))
      (usable : usablePlace place t=some p)
      (reached : leads M.keys t p.root p.steps=.ok (.list a)) :
      Located args kwargs s (.direct e)
        ⟨a,t,.place p.root p.steps,some (kwargs.lookup "key",isReverse M kwargs s)⟩
  | other {e : Expr X} {place : Option (Place K)} {t u : State K} {a : Nat}
      (none : args.isEmpty=true) (evaluated : evalPlace M e s=(.ok place,t))
      (unusable : usablePlace place t=Option.none)
      (value : M.evalExpr e t=(.ok (.list a),u)) :
      Located args kwargs s (.direct e)
        ⟨a,u,.dropped,some (kwargs.lookup "key",isReverse M kwargs s)⟩
  | snapshot {a : Nat} :
      Located args kwargs s (.captured (.snapshot (.list a)))
        ⟨a,s,.handle,boundRequest M args kwargs (takeItems a s)⟩
  | captured {root : String} {steps : List (BoundMethodStep K)} {a : Nat}
      (reached : leads M.keys s root (steps.map placeStep)=.ok (.list a)) :
      Located args kwargs s (.captured (.place root steps))
        ⟨a,s,.place root (steps.map placeStep),boundRequest M args kwargs (takeItems a s)⟩

end Definitions

section Sites

variable {M : Machine K X}

theorem sortIntercept_place {e : Expr X} {s t : State K} {place : Option (Place K)}
    {p : Place K} {a : Nat} {args : List (Value K)} (hargs : args.isEmpty=true)
    (evaluated : evalPlace M e s=(.ok place,t)) (usable : usablePlace place t=some p)
    (reached : leads M.keys t p.root p.steps=.ok (.list a)) (kwargs : List (String×Value K)) :
    sortIntercept M e args kwargs s=Sorting.outcome M
      ⟨a,t,.place p.root p.steps,some (kwargs.lookup "key",isReverse M kwargs s)⟩ := by
  unfold sortIntercept
  rw [if_pos hargs,evaluated]
  dsimp only
  rw [usable]
  dsimp only
  rw [inspect_container takenAt reached rfl]
  rfl

theorem sortIntercept_other {e : Expr X} {s t u : State K} {place : Option (Place K)}
    {a : Nat} {args : List (Value K)} (hargs : args.isEmpty=true)
    (evaluated : evalPlace M e s=(.ok place,t)) (unusable : usablePlace place t=none)
    (value : M.evalExpr e t=(.ok (.list a),u)) (kwargs : List (String×Value K)) :
    sortIntercept M e args kwargs s=Sorting.outcome M
      ⟨a,u,.dropped,some (kwargs.lookup "key",isReverse M kwargs s)⟩ := by
  unfold sortIntercept
  rw [if_pos hargs,evaluated]
  dsimp only
  rw [unusable]
  dsimp only
  rw [value]
  rfl

omit [DecidableEq K] in
theorem boundListSort_run (w : Sorting K) {args : List (Value K)}
    {kwargs : List (String×Value K)} (request : w.request=boundRequest M args kwargs w.start) :
    boundListSort M w.items args kwargs w.start=w.run M := by
  unfold boundListSort Sorting.run
  rw [request]
  unfold boundRequest
  split_ifs <;> rfl

theorem callPlace_sort {s : State K} {root : String} {steps : List (PlaceStep K)} {a : Nat}
    (reached : leads M.keys s root steps=.ok (.list a)) (args : List (Value K))
    (kwargs : List (String×Value K)) :
    callPlace M root steps "sort" args kwargs s=Sorting.outcome M
      ⟨a,s,.place root steps,boundRequest M args kwargs (takeItems a s)⟩ := by
  have notFormat : ¬("sort"=="format" || "sort"=="format_map")=true := by decide
  have isSort : ("sort"=="sort")=true := by decide
  have run := boundListSort_run (M := M)
    ⟨a,s,.place root steps,boundRequest M args kwargs (takeItems a s)⟩ rfl
  unfold callPlace
  rw [inspect_container (fun _ _ => ()) reached rfl]
  dsimp only
  rw [if_neg notFormat,if_pos isSort,inspect_container listAt reached rfl]
  dsimp only [listAt]
  unfold sortAt Sorting.outcome
  rw [← run]
  rfl

theorem callSnapshot_sort (a : Nat) (args : List (Value K)) (kwargs : List (String×Value K))
    (s : State K) :
    callSnapshot M (.list a) "sort" args kwargs s=Sorting.outcome M
      ⟨a,s,.handle,boundRequest M args kwargs (takeItems a s)⟩ := by
  have run : boundListSort M (s.heap.items a) args kwargs (takeItems a s)=Sorting.run M
      ⟨a,s,.handle,boundRequest M args kwargs (takeItems a s)⟩ :=
    boundListSort_run (M := M) ⟨a,s,.handle,boundRequest M args kwargs (takeItems a s)⟩ rfl
  rw [callSnapshot_container rfl (by rfl)]
  change sortObject M a args kwargs s=_
  unfold Sorting.outcome sortObject
  rw [run]
  rcases Sorting.run M ⟨a,s,.handle,boundRequest M args kwargs (takeItems a s)⟩ with ⟨r,u⟩
  cases r <;> rfl

theorem callSort_outcome {site : CallSite K X} {args : List (Value K)}
    {kwargs : List (String×Value K)} {s : State K} {w : Sorting K}
    (located : Located M args kwargs s site w) :
    callSort M site args kwargs s=w.outcome M := by
  cases located with
  | place none evaluated usable reached =>
    exact sortIntercept_place none evaluated usable reached kwargs
  | other none evaluated unusable value =>
    exact sortIntercept_other none evaluated unusable value kwargs
  | snapshot => exact callSnapshot_sort _ args kwargs s
  | captured reached => exact callPlace_sort reached args kwargs

end Sites

section Heaps

variable {M : Machine K X} {S : Sorter K}

omit [DecidableEq K] in
theorem setBody_length (h : Heap K) (a : Nat) (b : Body K) : (h.setBody a b).length=h.length :=
  List.length_modify _ _ _

omit [DecidableEq K] in
theorem setItems_same {a : Nat} {s : State K} (live : a<s.heap.length) (items : List (Value K)) :
    (setItems a items s).heap.items a=items := by
  simp [setItems,Heap.setBody,Heap.items,Heap.body,List.getElem?_eq_getElem live]

omit [DecidableEq K] in
theorem setItems_other {a b : Nat} (hne : b≠a) (items : List (Value K)) (s : State K) :
    (setItems b items s).heap.items a=s.heap.items a := by
  simp [setItems,Heap.setBody,Heap.items,Heap.body,hne]

/-- The user's calls give no object of the heap back. -/
structure Grows (S : Sorter K) : Prop where
  applyKey : ∀f v s, s.heap.length ≤ (S.applyKey f v s).2.heap.length
  lt : ∀a b s, s.heap.length ≤ (S.lt a b s).2.heap.length

omit [DecidableEq K] in
theorem Grows.decorate (hg : Grows S) (key : Option (Value K)) :
    ∀(items : List (Value K)) (s : State K),
      s.heap.length ≤ (Sort.decorate S key items s).2.heap.length
  | [],_ => le_refl _
  | item::items,s => by
    have hkey : s.heap.length ≤ (Sort.applyKeyFn S key item s).2.heap.length := by
      unfold Sort.applyKeyFn
      cases key with
      | none => exact le_refl _
      | some f => exact hg.applyKey f item s
    unfold Sort.decorate
    rcases hk : Sort.applyKeyFn S key item s with ⟨r,t⟩
    rw [hk] at hkey
    cases r with
    | error e => exact hkey
    | ok k =>
      have hrest := hg.decorate key items t
      dsimp only
      rcases hr : Sort.decorate S key items t with ⟨r',u⟩
      rw [hr] at hrest
      cases r' <;> exact hkey.trans hrest

omit [DecidableEq K] in
theorem Grows.insertEntry (hg : Grows S) (reverse : Bool) (entry : Value K×Value K) :
    ∀(sorted : List (Value K×Value K)) (s : State K),
      s.heap.length ≤ (Sort.insertEntry S reverse entry sorted s).2.heap.length
  | [],_ => le_refl _
  | existing::rest,s => by
    have hless : s.heap.length ≤ (Sort.goesBefore S reverse entry existing s).2.heap.length := by
      unfold Sort.goesBefore
      cases reverse <;> exact hg.lt _ _ _
    unfold Sort.insertEntry
    rcases hb : Sort.goesBefore S reverse entry existing s with ⟨r,t⟩
    rw [hb] at hless
    cases r with
    | error e => exact hless
    | ok r =>
      cases r with
      | true => exact hless
      | false =>
        have hrest := hg.insertEntry reverse entry rest t
        dsimp only
        rcases hr : Sort.insertEntry S reverse entry rest t with ⟨r',u⟩
        rw [hr] at hrest
        cases r' <;> exact hless.trans hrest

omit [DecidableEq K] in
theorem Grows.insertionPath (hg : Grows S) (reverse : Bool) :
    ∀(entries sorted : List (Value K×Value K)) (s : State K),
      s.heap.length ≤ (Sort.insertionPath S reverse sorted entries s).2.heap.length
  | [],_,_ => le_refl _
  | entry::rest,sorted,s => by
    have hstep := hg.insertEntry reverse entry sorted s
    unfold Sort.insertionPath
    rcases hi : Sort.insertEntry S reverse entry sorted s with ⟨r,t⟩
    rw [hi] at hstep
    cases r with
    | error e => exact hstep
    | ok next => exact hstep.trans (hg.insertionPath reverse rest next t)

omit [DecidableEq K] in
theorem Grows.dsuSort (hg : Grows S) (items : List (Value K)) (key : Option (Value K))
    (reverse : Bool) (s : State K) :
    s.heap.length ≤ (Sort.dsuSort S items key reverse s).2.heap.length := by
  have hd := hg.decorate key items s
  unfold Sort.dsuSort
  rcases hr : Sort.decorate S key items s with ⟨r,t⟩
  rw [hr] at hd
  cases r with
  | error e => exact hd
  | ok decorated =>
    dsimp only
    split_ifs
    · have hi := hg.insertionPath reverse decorated [] t
      rcases hp : Sort.insertionPath S reverse [] decorated t with ⟨r',u⟩
      rw [hp] at hi
      cases r' <;> exact hd.trans hi
    · cases Sort.sortByPath S reverse decorated t <;> exact hd

/-- A navigation that finds a list does nothing else. -/
theorem inspect_list {root : String} {steps : List (PlaceStep K)} {u v : State K} {b : Nat}
    (found : inspect M root steps listAt u=(.ok (some b),v)) :
    leads M.keys u root steps=.ok (.list b) ∧ v=u := by
  cases reached : leads M.keys u root steps with
  | error e =>
    have lost : (inspect M root steps listAt u).1=.error e := withNavigateMut_error _ reached
    rw [found] at lost
    cases lost
  | ok t =>
    have first : (inspect M root steps listAt u).1=.ok (listAt u.heap t) := by
      unfold leads at reached
      unfold inspect withNavigateMut
      cases hv : u.vars root with
      | none => rw [hv] at reached; cases reached
      | some w =>
        rw [hv] at reached
        dsimp only at reached
        have hfst := navRecurse_fst M.keys
          (fun h target => (listAt h target,h,(none : Option (Value K)))) u.heap w steps
        rw [reached] at hfst
        dsimp only
        split <;> exact hfst
    rw [found] at first
    have hlist : listAt u.heap t=some b := (Except.ok.inj first).symm
    have ht : t=.list b := by
      cases t with
      | list a => rw [Option.some.inj hlist]
      | _ => cases hlist
    rw [ht] at reached
    rw [inspect_container listAt reached rfl] at found
    exact ⟨by rw [ht],(congrArg Prod.snd found).symm⟩

end Heaps

section Law

variable (M : Machine K X) (S : Sorter K) (lt : Value K → Value K → Bool)

/-- What every sort promises of its result: the stable order, from both paths, with one call of the
key function for an item. -/
structure SortLaw : Prop where
  sorted : ∀key reverse items s out t, Sort.KeysComparable S lt key items s →
    Sort.dsuSort S items key reverse s=(.ok out,t) →
    out.Perm items ∧ Sort.SortedOf S lt key reverse items s out
  agree : ∀reverse decorated s t u out out', Sort.Comparable S lt (decorated.map Prod.fst) →
    Sort.insertionPath S reverse [] decorated s=(.ok out,t) →
    Sort.sortByPath S reverse decorated u=.ok out' → out=out'
  calls : ∀f reverse items s log, ∃called, called <+: items ∧
    Sort.dsuSort S.logged items (some f) reverse (s,log)=
      ((Sort.dsuSort S items (some f) reverse s).1,
        ((Sort.dsuSort S items (some f) reverse s).2,log++called)) ∧
    (∀out t, Sort.dsuSort S items (some f) reverse s=(.ok out,t) → called=items)

variable {S lt} in
omit [DecidableEq K] in
theorem sortLaw (hs : StableAlgorithm S.sortBy) : SortLaw S lt where
  sorted key reverse items s out t hk hrun := by
    have h := Sort.dsuSort_sorted hs hk hrun
    exact ⟨h.perm,h⟩
  agree reverse decorated s t u out out' hc hi hb := Sort.paths_agree hs hc hi hb
  calls f reverse items s log := by
    refine ⟨Sort.keyCalls S f items s,Sort.keyCalls_initial f items s,
      Sort.dsuSort_logged f reverse items s log,?_⟩
    intro out t hrun
    exact Sort.dsuSort_keyCalls hrun

namespace Sorting

/-- The contents are the sorted items, if the keys of this sort can be compared. -/
def RightlySorted (w : Sorting K) (out : List (Value K)) : Prop :=
  ∀key reverse, w.request=some (key,reverse) → Sort.KeysComparable S lt key w.items w.start →
    Sort.SortedOf S lt key reverse w.items w.start out

/-- What the list may hold when the call has ended: its items sorted, after an error just its
items. -/
def Safe {α : Type} (w : Sorting K) (end_ : Except (Failure K) α×State K) : Prop :=
  match end_ with
  | (.ok _,u) => w.RightlySorted S lt (u.heap.items w.addr)
  | (.error _,u) => (u.heap.items w.addr).Perm w.items

/-- The list of an expression that is no place is given up if nothing else holds it. -/
def Observed (ownedOnce : State K → Nat → Bool) (w : Sorting K) : Prop :=
  w.back=.dropped → ownedOnce w.state w.addr=false

/-- The sort raises nothing and its result goes to the list; besides, only where what the calls of
the sort have left in the list happens to be right. -/
def Undisturbed (w : Sorting K) : Prop :=
  match w.run M with
  | (.error e,u) => w.Safe S lt ((.error e,u) : Except (Failure K) Unit×State K)
  | (.ok _,u) =>
    match w.back with
    | .handle => True
    | .dropped => w.Safe S lt ((.ok (),u) : Except (Failure K) Unit×State K)
    | .place root steps =>
      leads M.keys u root steps=.ok (.list w.addr) ∨ w.Safe S lt (inspect M root steps listAt u)

/-- The sort returns, and its result goes to the list: into the object itself, or through a place
that leads to it still. -/
def Delivered (w : Sorting K) : Prop :=
  ∃sorted u, w.run M=(.ok sorted,u) ∧
    match w.back with
    | .handle => True
    | .dropped => False
    | .place root steps => leads M.keys u root steps=.ok (.list w.addr)

end Sorting

variable {M S lt}

/-- A result that is delivered is all that nothing disturbs needs: no contents are asked for. -/
theorem Sorting.Delivered.undisturbed {w : Sorting K} (delivered : w.Delivered M) :
    w.Undisturbed M S lt := by
  obtain ⟨sorted,u,run,goes⟩ := delivered
  unfold Undisturbed
  rw [run]
  cases hback : w.back with
  | handle => trivial
  | dropped =>
    rw [hback] at goes
    exact goes.elim
  | place root steps =>
    rw [hback] at goes
    exact Or.inl goes

theorem Sorting.run_sorted (hs : StableAlgorithm S.sortBy) {w : Sorting K}
    {sorted : List (Value K)} {u : State K}
    (hrun : w.run (M.withSort S)=(.ok sorted,u)) : w.RightlySorted S lt sorted := by
  intro key reverse hreq hk
  unfold Sorting.run at hrun
  rw [hreq] at hrun
  exact Sort.dsuSort_sorted hs hk hrun

theorem Sorting.run_live (hg : Grows S) {w : Sorting K} (live : w.addr<w.state.heap.length) :
    w.addr<(w.run (M.withSort S)).2.heap.length := by
  have hstart : w.start.heap.length=w.state.heap.length := by
    unfold Sorting.start
    split
    · rfl
    · exact setBody_length _ _ _
  rw [← hstart] at live
  unfold Sorting.run
  cases w.request with
  | none => exact live
  | some r => exact Nat.lt_of_lt_of_le live (hg.dsuSort w.items r.1 r.2 w.start)

/-- The end of a sort is safe exactly when nothing disturbs it. -/
theorem Sorting.safe_iff (hs : StableAlgorithm S.sortBy) (hg : Grows S) {w : Sorting K}
    (live : w.addr<w.state.heap.length) :
    w.Safe S lt (w.outcome (M.withSort S)) ↔ w.Undisturbed (M.withSort S) S lt := by
  have hlive := run_live (M := M) hg live
  unfold outcome Undisturbed
  rcases hrun : w.run (M.withSort S) with ⟨r,u⟩
  rw [hrun] at hlive
  cases r with
  | error e => exact Iff.rfl
  | ok sorted =>
    have hright : w.RightlySorted S lt sorted := run_sorted hs hrun
    have hput : w.RightlySorted S lt ((setItems w.addr sorted u).heap.items w.addr) := by
      rw [setItems_same hlive]
      exact hright
    dsimp only
    cases w.back with
    | dropped => exact Iff.rfl
    | handle => exact ⟨fun _ => trivial,fun _ => hput⟩
    | place root steps =>
      dsimp only
      unfold writeBackAt
      rcases hi : inspect (M.withSort S) root steps listAt u with ⟨r,v⟩
      cases r with
      | error e =>
        constructor
        · intro h
          exact Or.inr h
        · rintro (h | h)
          · rw [inspect_container listAt h rfl] at hi
            cases hi
          · exact h
      | ok found =>
        cases found with
        | none =>
          constructor
          · intro h
            exact Or.inr h
          · rintro (h | h)
            · rw [inspect_container listAt h rfl] at hi
              cases hi
            · exact h
        | some b =>
          obtain ⟨reached,rfl⟩ := inspect_list hi
          by_cases hb : b=w.addr
          · subst hb
            exact ⟨fun _ => Or.inl reached,fun _ => hput⟩
          · have hsame : (setItems b sorted v).heap.items w.addr=v.heap.items w.addr :=
              setItems_other hb sorted v
            constructor
            · intro h
              right
              change w.RightlySorted S lt _ at h
              rw [hsame] at h
              exact h
            · rintro (h | h)
              · rw [reached] at h
                exact absurd (Value.list.inj (Except.ok.inj h)) hb
              · change w.RightlySorted S lt _
                rw [hsame]
                exact h

/-- Sorting gives the stable order by the keys, and a call of `sort` leaves the list it sorts in that
order, or a permutation of it after an error, exactly when nothing disturbs the call. -/
theorem callSort_exact (M : Machine K X) (S : Sorter K) (lt : Value K → Value K → Bool)
    (ownedOnce : State K → Nat → Bool) (hs : StableAlgorithm S.sortBy) (hg : Grows S)
    {site : CallSite K X} {args : List (Value K)} {kwargs : List (String×Value K)} {s : State K}
    {w : Sorting K} (located : Located (M.withSort S) args kwargs s site w)
    (live : w.addr<w.state.heap.length) :
    (SortLaw S lt ∧ (w.Observed ownedOnce →
      w.Safe S lt (callSort (M.withSort S) site args kwargs s))) ↔
      (w.Observed ownedOnce → w.Undisturbed (M.withSort S) S lt) := by
  have hlaw : SortLaw S lt := sortLaw hs
  have hsafe : w.Safe S lt (w.outcome (M.withSort S)) ↔ w.Undisturbed (M.withSort S) S lt :=
    Sorting.safe_iff hs hg live
  rw [callSort_outcome located]
  constructor
  · intro h hobs
    exact hsafe.mp (h.2 hobs)
  · intro h
    exact ⟨hlaw,fun hobs => hsafe.mpr (h hobs)⟩

/-- Integers and texts, each compared with its own kind only. -/
def plainSorter : Sorter String where
  applyKey _ item s := (.ok item,s)
  isInstance _ := false
  lt _ _ s := (.error (.typeError "'<' not supported"),s)
  compareLt _ a b := match a,b with
    | .int i,.int j => .ok (decide (i.toInt<j.toInt))
    | _,_ => .error (.typeError "'<' not supported")
  sortBy := askSort []

/-- `xs` holds the one list of the heap. -/
theorem holding_fits : 24 ≤ usizeMax := by decide

def holding (items : List (Value String)) : State String where
  heap := [⟨.list items,none⟩]
  vars n := if n="xs" then some (.list 0) else none
  nonlocalCells _ := none
  frameCellOwners := []
  memoryUsedBytes := ⟨24,holding_fits⟩
  maxMemoryBytes := 1000
  journal := []

def intLess (a b : Value String) : Bool :=
  match a,b with
  | .int i,.int j => decide (i.toInt<j.toInt)
  | _,_ => false

theorem plainSorter_grows : Grows plainSorter where
  applyKey _ _ _ := le_refl _
  lt _ _ _ := le_refl _

/-- The sort that `xs.sort()` starts. -/
def sortOfXs (items : List (Value String)) : Sorting String :=
  ⟨0,holding items,.place "xs" [],some (none,false)⟩

theorem sortOfXs_located (items : List (Value String)) :
    Located (plainMachine.withSort plainSorter) [] [] (holding items)
      (.direct (.name "xs" : Expr Unit)) (sortOfXs items) :=
  .place (p := ⟨"xs",[]⟩) rfl rfl rfl rfl

/-- `xs = [2,1]`, then `xs.sort()`. -/
theorem callSort_exact_ints :
    (sortOfXs [.int 2,.int 1]).Safe plainSorter intLess
      (callSort (plainMachine.withSort plainSorter) (.direct (.name "xs" : Expr Unit)) [] []
        (holding [.int 2,.int 1])) :=
  ((callSort_exact plainMachine plainSorter intLess (fun _ _ => false) askSort_stable
    plainSorter_grows (sortOfXs_located [.int 2,.int 1]) (by decide)).mpr
      fun _ => Sorting.Delivered.undisturbed ⟨_,_,rfl,rfl⟩).2 fun h => nomatch h

/-- `xs = [1,"a"]`, then `xs.sort()`: after the error the list is empty. -/
theorem failed_sort_empties :
    callSort (plainMachine.withSort plainSorter) (.direct (.name "xs" : Expr Unit)) [] []
        (holding [.int 1,.string "a"])=
      (.error (.typeError "'<' not supported"),takeItems 0 (holding [.int 1,.string "a"])) ∧
    ¬(sortOfXs [.int 1,.string "a"]).Safe plainSorter intLess
      (callSort (plainMachine.withSort plainSorter) (.direct (.name "xs" : Expr Unit)) [] []
        (holding [.int 1,.string "a"])) := by
  have hrun : callSort (plainMachine.withSort plainSorter) (.direct (.name "xs" : Expr Unit)) [] []
      (holding [.int 1,.string "a"])=
        (.error (.typeError "'<' not supported"),takeItems 0 (holding [.int 1,.string "a"])) := rfl
  refine ⟨hrun,?_⟩
  rw [hrun]
  intro h
  have hp : ([] : List (Value String)).Perm [.int 1,.string "a"] := h
  exact absurd hp.length_eq (by decide)

end Law

end InterpretThis.Place
