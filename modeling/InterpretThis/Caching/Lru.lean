import InterpretThis.Framework.Calling
import InterpretThis.Framework.Recency
import Mathlib.Data.List.Sort
import Mathlib.Data.Set.Basic
import Mathlib.Data.String.Basic

namespace InterpretThis
namespace Caching

/-- The arguments of a call. -/
structure Call (V : Type) where
  positional : List V
  keyword : List (String×V)

/-- What the wrapped function does: it returns, raises, or calls the wrapper and goes on with the outcome. -/
inductive Prog (V E : Type) where
  | ret (v : V)
  | raise (e : E)
  | call (c : Call V) (k : Except E V → Prog V E)

/-- A run, given how the calls are answered. -/
def Prog.run {V E S : Type} (answer : Call V → S → Option (Except E V×S)) :
    Prog V E → S → Option (Except E V×S)
  | ret v,s => some (.ok v,s)
  | raise e,s => some (.error e,s)
  | call c k,s => match answer c s with
    | none => none
    | some (r,s) => (k r).run answer s

/-- An entry that was evicted, with the keys it was chosen from and the uses up to then. -/
structure Eviction (K : Type) where
  victim : K
  keys : List K
  uses : List K

/-- `LruCacheData`, and what has been recorded of it: the uses of its keys, latest first, its sizes and its evictions. -/
structure Cache (K V : Type) where
  entries : List (K×V)
  hits : ℕ
  misses : ℕ
  uses : List K
  sizes : List ℕ
  evictions : List (Eviction K)

namespace Cache

-- `same` compares the keys as the map does; an `IndexMap` has one entry at most for a key where this
-- is an equivalence.
variable {K V : Type} (same : K → K → Bool)

def empty : Cache K V := ⟨[],0,0,[],[],[]⟩

def keys (s : Cache K V) : List K := s.entries.map Prod.fst

def find (s : Cache K V) (key : K) : Option V := (s.entries.find? fun e => same key e.1).map Prod.snd

/-- `IndexMap::insert`: the value of a key that is there is replaced in its place. -/
def insert (entries : List (K×V)) (key : K) (v : V) : List (K×V) :=
  if entries.any fun e => same key e.1 then
    entries.map fun e => if same key e.1 then (e.1,v) else e
  else entries++[(key,v)]

/-- `shift_remove` and `insert` of a hit. -/
def touch (s : Cache K V) (key : K) (hit : V) : Cache K V :=
  let entries := insert same (s.entries.eraseP fun e => same key e.1) key hit
  {s with entries := entries, hits := s.hits+1, uses := key::s.uses, sizes := entries.length::s.sizes}

/-- `while cache.len() >= max && max > 0`. -/
def evict (max : ℕ) (uses : List K) : List (K×V) → List (K×V)×List (Eviction K)
  | [] => ([],[])
  | e::es =>
    if max≤(e::es).length ∧ 0 < max then
      let (rest,evictions) := evict max uses es
      (rest,⟨e.1,(e::es).map Prod.fst,uses⟩::evictions)
    else (e::es,[])

/-- The entries that stay when room is made for a new one, and those that go. -/
def room (maxsize : Option ℕ) (s : Cache K V) : List (K×V)×List (Eviction K) :=
  match maxsize with
  | some max => evict max s.uses s.entries
  | none => (s.entries,[])

/-- What happens to the cache once the function has returned. -/
def store (maxsize : Option ℕ) (s : Cache K V) (key : K) (v : V) : Cache K V :=
  let s := {s with entries := (room maxsize s).1, evictions := s.evictions++(room maxsize s).2}
  if maxsize=some 0 then s
  else
    let entries := insert same s.entries key v
    {s with entries := entries, uses := key::s.uses, sizes := entries.length::s.sizes}

end Cache

/-- How values become keys, and how two keys compare. -/
structure Keying (V K : Type) where
  toKey : V → Option K
  ofString : String → K
  same : K → K → Bool

section Calling

variable {V K E : Type} (R : Keying V K) (unhashable : E) (body : Call V → Prog V E)
  (maxsize : Option ℕ)

def sorted (c : Call V) : List (String×V) := c.keyword.mergeSort fun a b => a.1≤b.1

namespace Keying

def valueKeys : List V → Option (List K)
  | [] => some []
  | v::vs => do
    let k ← R.toKey v
    let ks ← valueKeys vs
    return k::ks

def keywordKeys : List (String×V) → Option (List K)
  | [] => some []
  | (name,v)::rest => do
    let k ← R.toKey v
    let ks ← keywordKeys rest
    return R.ofString name::k::ks

/-- The key of a call: its positional arguments, then names and values in turn. -/
def flatKey (c : Call V) : Option (List K) := do
  let ks ← R.valueKeys c.positional
  let kws ← R.keywordKeys (sorted c)
  return ks++kws

/-- Two flat keys are compared key by key. -/
def sameKeys : List K → List K → Bool
  | [],[] => true
  | k::ks,k'::ks' => R.same k k'&&sameKeys ks ks'
  | _,_ => false

end Keying

/-- The function without its cache: its own calls go to itself. -/
def direct : ℕ → Call V → Option (Except E V)
  | 0,_ => none
  | n+1,c => ((body c).run (fun c (_ : Unit) => (direct n c).map fun r => (r,())) ()).map Prod.fst

/-- `call_value_as_function` on an `LruCache`; the fuel bounds the depth of the recursion. -/
def wrapped : ℕ → Call V → Cache (List K) V → Option (Except E V×Cache (List K) V)
  | 0,_,_ => none
  | n+1,c,s => match R.flatKey c with
    | none => some (.error unhashable,s)
    | some key => match s.find R.sameKeys key with
      | some hit => some (.ok hit,s.touch R.sameKeys key hit)
      | none => match (body c).run (wrapped n) {s with misses := s.misses+1} with
        | none => none
        | some (.error e,s) => some (.error e,s)
        | some (.ok v,s) => some (.ok v,s.store R.sameKeys maxsize key v)

/-- Calls from outside, one after the other. -/
def session (n : ℕ) : List (Call V) → Cache (List K) V → Option (List (Except E V)×Cache (List K) V)
  | [],s => some ([],s)
  | c::cs,s => do
    let (r,s) ← wrapped R unhashable body maxsize n c s
    let (rs,s) ← session n cs s
    return (r::rs,s)

end Calling

variable {V K E : Type}

theorem Prog.run_mono {S : Type} {answer answer' : Call V → S → Option (Except E V×S)}
    (h : ∀ c s r,answer c s=some r → answer' c s=some r) (p : Prog V E) (s : S) (r : Except E V×S)
    (hr : p.run answer s=some r) : p.run answer' s=some r := by
  induction p generalizing s with
  | ret v => exact hr
  | raise e => exact hr
  | call c k ih =>
    rw [Prog.run] at hr ⊢
    cases ha : answer c s with
    | none =>
      rw [ha] at hr
      cases hr
    | some a =>
      rw [ha] at hr
      rw [h c s a ha]
      exact ih a.1 a.2 hr

/-- The calls that a program makes, given their answers. -/
def Asks (answer : Call V → Option (Except E V)) : Prog V E → Call V → Prop
  | .ret _,_ => False
  | .raise _,_ => False
  | .call c k,c' => c'=c ∨ ∃ r,answer c=some r ∧ Asks answer (k r) c'

section Direct

variable {body : Call V → Prog V E}

def directAnswer (body : Call V → Prog V E) (n : ℕ) (c : Call V) (_ : Unit) : Option (Except E V×Unit) :=
  (direct body n c).map fun r => (r,())

theorem direct_succ (n : ℕ) (c : Call V) :
    direct body (n+1) c=((body c).run (directAnswer body n) ()).map Prod.fst := rfl

theorem direct_step (n : ℕ) : ∀ (c : Call V) (r : Except E V),direct body n c=some r →
    direct body (n+1) c=some r := by
  induction n with
  | zero => exact fun _ _ h => nomatch h
  | succ n ih =>
    intro c r h
    rw [direct_succ] at h ⊢
    obtain ⟨⟨r',u⟩,hr,rfl⟩ := Option.map_eq_some_iff.mp h
    refine Option.map_eq_some_iff.mpr ⟨(r',u),Prog.run_mono ?_ _ _ _ hr,rfl⟩
    intro c s a ha
    obtain ⟨r,hr,ha⟩ := Option.map_eq_some_iff.mp ha
    exact Option.map_eq_some_iff.mpr ⟨r,ih c r hr,ha⟩

theorem direct_mono {n m : ℕ} (hnm : n ≤ m) {c : Call V} {r : Except E V} (h : direct body n c=some r) :
    direct body m c=some r := by
  induction m,hnm using Nat.le_induction with
  | base => exact h
  | succ m hnm ih => exact direct_step m c r ih

theorem direct_unique {n m : ℕ} {c : Call V} {r r' : Except E V} (h : direct body n c=some r)
    (h' : direct body m c=some r') : r=r' := by
  have h1 := direct_mono (le_max_left n m) h
  have h2 := direct_mono (le_max_right n m) h'
  exact Option.some.inj (h1.symm.trans h2)

end Direct

section Keys

variable {K Q : Type} [DecidableEq Q] {same : K → K → Bool} {f : K → Q}

theorem eraseP_keys {V : Type} {es : List (K×V)} {k : K} (hnd : ((es.map Prod.fst).map f).Nodup)
    (hk : ∀ e∈es,same k e.1=true ↔ f k=f e.1) :
    ((es.eraseP fun e => same k e.1).map Prod.fst).map f=
      ((es.map Prod.fst).map f).filter fun q => q≠f k := by
  induction es with
  | nil => rfl
  | cons e es ih =>
    obtain ⟨hne,hnd⟩ := List.nodup_cons.mp hnd
    by_cases he : same k e.1=true
    · have hf := (hk e List.mem_cons_self).mp he
      rw [List.eraseP_cons,he,cond_true,List.map_cons,List.map_cons,
        List.filter_cons_of_neg (by simp [hf]),List.filter_eq_self.mpr]
      intro q hq
      rw [decide_eq_true_eq,hf]
      rintro rfl
      exact hne hq
    · have hf : f e.1≠f k := fun h => he ((hk e List.mem_cons_self).mpr h.symm)
      rw [List.eraseP_cons,Bool.eq_false_iff.mpr he,cond_false,List.map_cons,List.map_cons,
        List.map_cons,List.map_cons,List.filter_cons_of_pos (by simp [hf]),
        ih hnd fun e he => hk e (List.mem_cons_of_mem _ he)]

theorem insert_new {V : Type} {es : List (K×V)} {k : K} (h : ∀ e∈es,same k e.1≠true) (v : V) :
    Cache.insert same es k v=es++[(k,v)] := by
  refine if_neg fun hany => ?_
  obtain ⟨e,he,hk⟩ := List.any_eq_true.mp hany
  exact h e he hk

theorem mem_of_find {V : Type} {s : Cache K V} {key : K} {hit : V} (h : s.find same key=some hit) :
    ∃ e∈s.entries,same key e.1=true ∧ e.2=hit := by
  obtain ⟨e,he,rfl⟩ := Option.map_eq_some_iff.mp h
  have hsame := List.find?_some he
  exact ⟨e,List.mem_of_find?_eq_some he,hsame,rfl⟩

theorem absent_of_find {V : Type} {s : Cache K V} {key : K} (h : s.find same key=none) :
    ∀ e∈s.entries,same key e.1≠true :=
  List.find?_eq_none.mp (Option.map_eq_none_iff.mp h)

end Keys

section Cached

variable {Q : Type} [DecidableEq Q] (R : Keying V K) (body : Call V → Prog V E) (maxsize : Option ℕ)
  (G : Set (Call V)) (f : List K → Q)

/-- Two keys of calls in `G` are found for each other exactly when `f` puts them in one class. -/
def Classes : Prop := ∀ k k',(∃ c∈G,R.flatKey c=some k) → (∃ c∈G,R.flatKey c=some k') →
  (R.sameKeys k k'=true ↔ f k=f k')

/-- What holds of the cache whenever no call is under way: results of the function, in the order of their last use, within the bound. -/
structure Sound (s : Cache (List K) V) : Prop where
  entries : ∀ e∈s.entries,∃ c∈G,R.flatKey c=some e.1 ∧ ∃ n,direct body n c=some (.ok e.2)
  used : ∀ k∈s.uses,∃ c∈G,R.flatKey c=some k
  ordered : Recency.Ordered (s.uses.map f) (s.keys.map f)
  bounded : ∀ max,maxsize=some max → s.entries.length ≤ max ∧ ∀ size∈s.sizes,size ≤ max
  evicted : ∀ e∈s.evictions,Recency.LeastRecent R.sameKeys e.uses e.keys e.victim

theorem Sound.empty : Sound R body maxsize G f Cache.empty where
  entries := fun _ h => nomatch h
  used := fun _ h => nomatch h
  ordered := Recency.Ordered.empty _
  bounded := fun _ _ => ⟨Nat.zero_le _,fun _ h => nomatch h⟩
  evicted := fun _ h => nomatch h

variable {R body maxsize G f} {s : Cache (List K) V}

theorem Sound.keyed (h : Sound R body maxsize G f s) {e : List K×V} (he : e∈s.entries) :
    ∃ c∈G,R.flatKey c=some e.1 := by
  obtain ⟨c,hc,hkey,-⟩ := h.entries e he
  exact ⟨c,hc,hkey⟩

/-- A use of a key keeps the order, whether it was there or not. -/
theorem Sound.touch (hf : Classes R G f) (h : Sound R body maxsize G f s) {c : Call V} {key : List K}
    {hit : V} (hc : c∈G) (hkey : R.flatKey c=some key) {n : ℕ}
    (hd : direct body n c=some (.ok hit)) (hfind : s.find R.sameKeys key=some hit) :
    Sound R body maxsize G f (s.touch R.sameKeys key hit) ∧
      ∀ k∈(s.touch R.sameKeys key hit).keys,k∈s.keys ∨ k=key := by
  have hclass (e : List K×V) (he : e∈s.entries) : R.sameKeys key e.1=true ↔ f key=f e.1 :=
    hf key e.1 ⟨c,hc,hkey⟩ (h.keyed he)
  have hkeys := eraseP_keys h.ordered.nodup hclass
  have habsent : ∀ e∈s.entries.eraseP fun e => R.sameKeys key e.1,R.sameKeys key e.1≠true := by
    intro e he hsame
    have hmem : f e.1∈((s.entries.eraseP fun e => R.sameKeys key e.1).map Prod.fst).map f :=
      List.mem_map_of_mem (List.mem_map_of_mem he)
    rw [hkeys,List.mem_filter,decide_eq_true_eq] at hmem
    exact hmem.2 ((hclass e (List.mem_of_mem_eraseP he)).mp hsame).symm
  have hins := insert_new habsent hit
  obtain ⟨e,he,hsame,-⟩ := mem_of_find hfind
  have hlen : (s.touch R.sameKeys key hit).entries.length ≤ s.entries.length := by
    have hshort : (s.entries.eraseP fun e => R.sameKeys key e.1).length=s.entries.length-1 :=
      List.length_eraseP_of_mem he hsame
    have hpos := List.length_pos_of_mem he
    simp only [Cache.touch,hins,List.length_append,List.length_singleton]
    omega
  refine ⟨⟨?_,?_,?_,?_,h.evicted⟩,?_⟩
  · intro e he
    simp only [Cache.touch,hins,List.mem_append,List.mem_singleton] at he
    cases he with
    | inl he => exact h.entries e (List.mem_of_mem_eraseP he)
    | inr he =>
      rw [he]
      exact ⟨c,hc,hkey,n,hd⟩
  · intro k hk
    cases hk with
    | head => exact ⟨c,hc,hkey⟩
    | tail _ hk => exact h.used k hk
  · have hall : (s.touch R.sameKeys key hit).keys.map f=
        (s.keys.map f).filter (fun q => q≠f key)++[f key] := by
      simp only [Cache.touch,Cache.keys,hins,List.map_append,hkeys,List.map_singleton]
    rw [hall]
    exact h.ordered.touch (f key)
  · intro max hmax
    obtain ⟨hb,hs⟩ := h.bounded max hmax
    refine ⟨le_trans hlen hb,fun size hsize => ?_⟩
    cases hsize with
    | head => exact le_trans hlen hb
    | tail _ hsize => exact hs size hsize
  · intro k hk
    simp only [Cache.keys,Cache.touch,hins,List.map_append,List.mem_append,List.map_singleton,
      List.mem_singleton] at hk
    refine hk.imp_left fun hk => ?_
    obtain ⟨e,he,rfl⟩ := List.mem_map.mp hk
    exact List.mem_map_of_mem (List.mem_of_mem_eraseP he)

theorem evict_spec (hf : Classes R G f) (max : ℕ) {uses : List (List K)}
    (hu : ∀ k∈uses,∃ c∈G,R.flatKey c=some k) (entries : List (List K×V))
    (he : ∀ e∈entries,∃ c∈G,R.flatKey c=some e.1)
    (ho : Recency.Ordered (uses.map f) ((entries.map Prod.fst).map f)) :
    (∀ e∈(Cache.evict max uses entries).1,e∈entries) ∧
    Recency.Ordered (uses.map f) (((Cache.evict max uses entries).1.map Prod.fst).map f) ∧
    (0 < max → (Cache.evict max uses entries).1.length < max) ∧
    (Cache.evict max uses entries).1.length≤entries.length ∧
    ∀ e∈(Cache.evict max uses entries).2,Recency.LeastRecent R.sameKeys e.uses e.keys e.victim := by
  induction entries with
  | nil => exact ⟨fun _ h => h,ho,fun h => h,Nat.le_refl _,fun _ h => nomatch h⟩
  | cons e es ih =>
    rw [Cache.evict]
    by_cases hc : max≤(e::es).length ∧ 0 < max
    · rw [if_pos hc]
      obtain ⟨h1,h2,h3,h4,h5⟩ := ih (fun e hes => he e (List.mem_cons_of_mem _ hes)) ho.tail
      refine ⟨fun x hx => List.mem_cons_of_mem _ (h1 x hx),h2,h3,Nat.le_succ_of_le h4,fun x hx => ?_⟩
      cases hx with
      | head =>
        have same : ∀ k∈(e::es).map Prod.fst,∀ u∈uses,R.sameKeys k u=true ↔ f k=f u := by
          intro k hk u hu'
          obtain ⟨x,hx,rfl⟩ := List.mem_map.mp hk
          exact hf _ _ (he x hx) (hu u hu')
        exact Recency.Ordered.head ho same
      | tail _ hx => exact h5 x hx
    · rw [if_neg hc]
      refine ⟨fun _ h => h,ho,fun hpos => ?_,Nat.le_refl _,fun _ h => nomatch h⟩
      by_contra hge
      exact hc ⟨not_lt.mp hge,hpos⟩

theorem room_spec (hf : Classes R G f) (h : Sound R body maxsize G f s) :
    (∀ e∈(s.room maxsize).1,e∈s.entries) ∧
    Recency.Ordered (s.uses.map f) (((s.room maxsize).1.map Prod.fst).map f) ∧
    (∀ max,maxsize=some max → (s.room maxsize).1.length ≤ max ∧ (0 < max → (s.room maxsize).1.length < max)) ∧
    ∀ e∈(s.room maxsize).2,Recency.LeastRecent R.sameKeys e.uses e.keys e.victim := by
  cases hmax : maxsize with
  | none => exact ⟨fun _ h => h,h.ordered,(fun _ h => nomatch h),(fun _ h => nomatch h)⟩
  | some max =>
    obtain ⟨h1,h2,h3,h4,h5⟩ := evict_spec hf max h.used s.entries (fun _ he => h.keyed he) h.ordered
    refine ⟨h1,h2,fun max' hmax' => ?_,h5⟩
    cases hmax'
    exact ⟨le_trans h4 (h.bounded max hmax).1,h3⟩

/-- A new result is stored as the latest used. -/
theorem Sound.store (hf : Classes R G f) (h : Sound R body maxsize G f s) {c : Call V} {key : List K}
    {v : V} {n : ℕ} (hc : c∈G) (hkey : R.flatKey c=some key)
    (hnew : ∀ e∈s.entries,R.sameKeys key e.1≠true) (hv : direct body n c=some (.ok v)) :
    Sound R body maxsize G f (s.store R.sameKeys maxsize key v) ∧
      ∀ k∈(s.store R.sameKeys maxsize key v).keys,k∈s.keys ∨ k=key := by
  obtain ⟨hsub,hord,hlen,hev⟩ := room_spec hf h
  generalize hroom : s.room maxsize=room at hsub hord hlen hev
  obtain ⟨entries,evictions⟩ := room
  have hkeys : ∀ k∈entries.map Prod.fst,k∈s.keys := by
    intro k hk
    obtain ⟨e,he,rfl⟩ := List.mem_map.mp hk
    exact List.mem_map.mpr ⟨e,hsub e he,rfl⟩
  have hevicted : ∀ e∈s.evictions++evictions,Recency.LeastRecent R.sameKeys e.uses e.keys e.victim := by
    intro e he
    rw [List.mem_append] at he
    exact he.elim (h.evicted e) (hev e)
  have hstore : s.store R.sameKeys maxsize key v=if maxsize=some 0 then
      {s with entries := entries, evictions := s.evictions++evictions}
      else {s with entries := Cache.insert R.sameKeys entries key v, evictions := s.evictions++evictions,
                   uses := key::s.uses,
                   sizes := (Cache.insert R.sameKeys entries key v).length::s.sizes} := by
    rw [Cache.store,hroom]
  rw [hstore]
  by_cases hzero : maxsize=some 0
  · rw [if_pos hzero]
    refine ⟨⟨fun e he => h.entries e (hsub e he),h.used,hord,fun max hmax => ?_,hevicted⟩,
      fun k hk => .inl (hkeys k hk)⟩
    exact ⟨(hlen max hmax).1,(h.bounded max hmax).2⟩
  · rw [if_neg hzero]
    have hins := insert_new (fun e he => hnew e (hsub e he)) v
    have hfilter : ((entries.map Prod.fst).map f).filter (fun q => q≠f key)=
        (entries.map Prod.fst).map f := by
      rw [List.filter_eq_self]
      intro q hq
      rw [decide_eq_true_eq]
      rintro rfl
      obtain ⟨k,hk,hfk⟩ := List.mem_map.mp hq
      obtain ⟨e,he,rfl⟩ := List.mem_map.mp hk
      exact hnew e (hsub e he) ((hf _ _ ⟨c,hc,hkey⟩ (h.keyed (hsub e he))).mpr hfk.symm)
    have hbound : ∀ max,maxsize=some max → (entries++[(key,v)]).length ≤ max := by
      intro max hmax
      have hpos : 0 < max := by
        by_contra hno
        exact hzero (by rw [hmax,Nat.eq_zero_of_not_pos hno])
      rw [List.length_append,List.length_singleton]
      exact (hlen max hmax).2 hpos
    rw [hins]
    refine ⟨⟨?_,?_,?_,?_,hevicted⟩,?_⟩
    · intro e he
      rw [List.mem_append,List.mem_singleton] at he
      cases he with
      | inl he => exact h.entries e (hsub e he)
      | inr he =>
        rw [he]
        exact ⟨c,hc,hkey,n,hv⟩
    · intro k hk
      cases hk with
      | head => exact ⟨c,hc,hkey⟩
      | tail _ hk => exact h.used k hk
    · have htouch := hord.touch (f key)
      rw [hfilter] at htouch
      rw [Cache.keys,List.map_append,List.map_append]
      exact htouch
    · intro max hmax
      refine ⟨hbound max hmax,fun size hsize => ?_⟩
      cases hsize with
      | head => exact hbound max hmax
      | tail _ hsize => exact (h.bounded max hmax).2 size hsize
    · intro k hk
      rw [Cache.keys,List.map_append,List.mem_append,List.map_singleton,List.mem_singleton] at hk
      exact hk.imp_left (hkeys k)

theorem Sound.miss (h : Sound R body maxsize G f s) :
    Sound R body maxsize G f {s with misses := s.misses+1} :=
  ⟨h.entries,h.used,h.ordered,h.bounded,h.evicted⟩

/-- The keys that a run adds are those of calls that end within a depth. -/
def News (R : Keying V K) (body : Call V → Prog V E) (G : Set (Call V)) (n : ℕ)
    (s s' : Cache (List K) V) : Prop :=
  ∀ k∈s'.keys,k∈s.keys ∨ ∃ c∈G,R.flatKey c=some k ∧ direct body n c≠none

theorem News.refl (n : ℕ) (s : Cache (List K) V) : News R body G n s s := fun _ hk => .inl hk

theorem News.trans {n : ℕ} {s s' s'' : Cache (List K) V} (h : News R body G n s s')
    (h' : News R body G n s' s'') : News R body G n s s'' := by
  intro k hk
  cases h' k hk with
  | inl hk => exact h k hk
  | inr hc => exact .inr hc

theorem News.step {n : ℕ} {s s' : Cache (List K) V} (h : News R body G n s s') :
    News R body G (n+1) s s' := by
  intro k hk
  refine (h k hk).imp_right ?_
  rintro ⟨c,hc,hkey,hd⟩
  refine ⟨c,hc,hkey,?_⟩
  obtain ⟨r,hr⟩ := Option.ne_none_iff_exists'.mp hd
  rw [direct_step n c r hr]
  exact Option.some_ne_none r

variable (R body G f)

/-- Calls with hashable arguments that are closed under the calls they lead to, and on which the function does the same whenever their keys are found for each other. -/
structure Consistent : Prop where
  hashable : ∀ c∈G,R.flatKey c≠none
  classes : Classes R G f
  agree : ∀ c∈G,∀ c'∈G,∀ k k',R.flatKey c=some k → R.flatKey c'=some k' → f k=f k' →
    ∀ n,direct body n c=direct body n c'
  closed : ∀ n,∀ c∈G,∀ c',Asks (direct body n) (body c) c' → c'∈G

variable {R body G f} (unhashable : E)

/-- A body runs over the cache as it runs without, if the calls it makes do. -/
theorem run_exact {n m : ℕ}
    (ih : ∀ c∈G,∀ r,direct body n c=some r → ∀ s,Sound R body maxsize G f s →
      ∃ s',wrapped R unhashable body maxsize m c s=some (r,s') ∧
        Sound R body maxsize G f s' ∧ News R body G n s s')
    (p : Prog V E) (hp : ∀ c,Asks (direct body n) p c → c∈G) {r : Except E V}
    (hr : p.run (directAnswer body n) ()=some (r,())) (hs : Sound R body maxsize G f s) :
    ∃ s',p.run (wrapped R unhashable body maxsize m) s=some (r,s') ∧
      Sound R body maxsize G f s' ∧ News R body G n s s' := by
  induction p generalizing s with
  | ret v =>
    cases hr
    exact ⟨s,rfl,hs,News.refl n s⟩
  | raise e =>
    cases hr
    exact ⟨s,rfl,hs,News.refl n s⟩
  | call c k ihk =>
    rw [Prog.run] at hr
    cases hd : direct body n c with
    | none =>
      rw [directAnswer,hd] at hr
      cases hr
    | some a =>
      rw [directAnswer,hd] at hr
      obtain ⟨s1,hw,hs1,hn1⟩ := ih c (hp c (.inl rfl)) a hd s hs
      obtain ⟨s2,hr2,hs2,hn2⟩ := ihk a (fun c' hc' => hp c' (.inr ⟨a,hd,hc'⟩)) hr hs1
      refine ⟨s2,?_,hs2,hn1.trans hn2⟩
      rw [Prog.run,hw]
      exact hr2

/-- What the function returns, the wrapper returns. The induction is on the depth of the function's own run; a call that ends first at this depth leads to no call with its key. -/
theorem wrapped_exact (hG : Consistent R body G f) (n : ℕ) :
    ∀ c∈G,∀ r,direct body n c=some r → ∀ m,n ≤ m → ∀ s,Sound R body maxsize G f s →
      ∃ s',wrapped R unhashable body maxsize m c s=some (r,s') ∧
        Sound R body maxsize G f s' ∧ News R body G n s s' := by
  induction n with
  | zero => exact fun _ _ _ h => nomatch h
  | succ n ih =>
    intro c hc r hr m hm s hs
    cases hearlier : direct body n c with
    | some r' =>
      have hsame : r'=r := direct_unique hearlier hr
      obtain ⟨s',hw,hs',hn⟩ := ih c hc r' hearlier m (Nat.le_of_succ_le hm) s hs
      exact ⟨s',hsame ▸ hw,hs',hn.step⟩
    | none =>
      obtain ⟨m,rfl⟩ : ∃ m',m=m'+1 := ⟨m-1,by omega⟩
      obtain ⟨key,hkey⟩ := Option.ne_none_iff_exists'.mp (hG.hashable c hc)
      have hown : ∃ c∈G,R.flatKey c=some key ∧ direct body (n+1) c≠none :=
        ⟨c,hc,hkey,by rw [hr]; exact Option.some_ne_none r⟩
      cases hfind : s.find R.sameKeys key with
      | some hit =>
        obtain ⟨e,he,hmatch,rfl⟩ := mem_of_find hfind
        obtain ⟨c',hc',hkey',n',hd⟩ := hs.entries e he
        have hclass := (hG.classes _ _ ⟨c,hc,hkey⟩ ⟨c',hc',hkey'⟩).mp hmatch
        rw [← hG.agree c hc c' hc' _ _ hkey hkey' hclass n'] at hd
        have hsame : r=.ok e.2 := direct_unique hr hd
        obtain ⟨htouch,hkeys⟩ := hs.touch hG.classes hc hkey hd hfind
        refine ⟨s.touch R.sameKeys key e.2,?_,htouch,fun k hk => ?_⟩
        · rw [wrapped,hkey]
          simp only [hfind,hsame]
        · refine (hkeys k hk).imp_right ?_
          rintro rfl
          exact hown
      | none =>
        have hrun : (body c).run (directAnswer body n) ()=some (r,()) := by
          rw [direct_succ] at hr
          obtain ⟨⟨r',u⟩,hr',rfl⟩ := Option.map_eq_some_iff.mp hr
          exact hr'
        obtain ⟨s1,hw,hs1,hn1⟩ := run_exact unhashable
          (fun c hc r hr s hs => ih c hc r hr m (Nat.le_of_succ_le_succ hm) s hs) (body c)
          (hG.closed n c hc) hrun hs.miss
        have hnew : ∀ e∈s1.entries,R.sameKeys key e.1≠true := by
          intro e he hmatch
          rcases hn1 e.1 (List.mem_map_of_mem he) with hold|⟨c',hc',hkey',hd⟩
          · obtain ⟨e',he',hsame⟩ := List.mem_map.mp hold
            exact absent_of_find hfind e' he' (hsame ▸ hmatch)
          · have hclass := (hG.classes _ _ ⟨c,hc,hkey⟩ ⟨c',hc',hkey'⟩).mp hmatch
            rw [← hG.agree c hc c' hc' _ _ hkey hkey' hclass n,hearlier] at hd
            exact hd rfl
        cases r with
        | error e =>
          refine ⟨s1,?_,hs1,hn1.step⟩
          rw [wrapped,hkey]
          simp only [hfind,hw]
        | ok v =>
          obtain ⟨hs2,hkeys⟩ := hs1.store hG.classes hc hkey hnew hr
          refine ⟨s1.store R.sameKeys maxsize key v,?_,hs2,?_⟩
          · rw [wrapped,hkey]
            simp only [hfind,hw]
          · intro k hk
            cases hkeys k hk with
            | inl hk => exact hn1.step k hk
            | inr hk =>
              rw [hk]
              exact .inr hown

end Cached

section Roles

variable (Equal : V → V → Prop)

/-- Equal positional arguments in their places, and equal keyword arguments under the same names. -/
def SameRoles (c c' : Call V) : Prop :=
  List.Forall₂ Equal c.positional c'.positional ∧
  List.Forall₂ (fun a b => a.1=b.1 ∧ Equal a.2 b.2) (sorted c) (sorted c')

def Call.values (c : Call V) : List V := c.positional++c.keyword.map Prod.snd

/-- The keys that the calls of `G` are made of. -/
def Keying.Occurs (R : Keying V K) (G : Set (Call V)) (k : K) : Prop :=
  ∃ c∈G,(∃ v∈c.values,R.toKey v=some k) ∨ ∃ name∈c.keyword.map Prod.fst,R.ofString name=k

/-- Calls with hashable arguments, closed under the calls they lead to, whose keys are compared by an equivalence: calls of the same key have as many positional arguments, the same keys come from equal arguments, and the function does the same on equal arguments. -/
structure Plain (R : Keying V K) (body : Call V → Prog V E) (G : Set (Call V)) : Prop where
  hashable : ∀ c∈G,R.flatKey c≠none
  self : ∀ k,R.Occurs G k → R.same k k=true
  turn : ∀ j k,R.Occurs G j → R.Occurs G k → R.same j k=true → R.same k j=true
  chain : ∀ i j k,R.Occurs G i → R.Occurs G j → R.Occurs G k → R.same i j=true → R.same j k=true →
    R.same i k=true
  widths : ∀ c∈G,∀ c'∈G,∀ k k',R.flatKey c=some k → R.flatKey c'=some k' → R.sameKeys k k'=true →
    c.positional.length=c'.positional.length
  faithful : ∀ c∈G,∀ c'∈G,∀ v∈c.values,∀ w∈c'.values,∀ k k',R.toKey v=some k → R.toKey w=some k' →
    R.same k k'=true → Equal v w
  names : ∀ s t,R.same (R.ofString s) (R.ofString t)=true → s=t
  function : ∀ c∈G,∀ c'∈G,SameRoles Equal c c' → ∀ n,direct body n c=direct body n c'
  closed : ∀ n,∀ c∈G,∀ c',Asks (direct body n) (body c) c' → c'∈G

variable {Equal} {R : Keying V K} {ks : List K}

theorem valueKeys_cons {v : V} {vs : List V} (h : R.valueKeys (v::vs)=some ks) :
    ∃ k ks',R.toKey v=some k ∧ R.valueKeys vs=some ks' ∧ ks=k::ks' := by
  rw [Keying.valueKeys] at h
  obtain ⟨k,hk,h⟩ := Option.bind_eq_some_iff.mp h
  obtain ⟨ks',hks,h⟩ := Option.bind_eq_some_iff.mp h
  cases h
  exact ⟨k,ks',hk,hks,rfl⟩

theorem keywordKeys_cons {p : String×V} {ps : List (String×V)} (h : R.keywordKeys (p::ps)=some ks) :
    ∃ k ks',R.toKey p.2=some k ∧ R.keywordKeys ps=some ks' ∧ ks=R.ofString p.1::k::ks' := by
  rw [Keying.keywordKeys] at h
  obtain ⟨k,hk,h⟩ := Option.bind_eq_some_iff.mp h
  obtain ⟨ks',hks,h⟩ := Option.bind_eq_some_iff.mp h
  cases h
  exact ⟨k,ks',hk,hks,rfl⟩

theorem length_valueKeys {vs : List V} (h : R.valueKeys vs=some ks) : ks.length=vs.length := by
  induction vs generalizing ks with
  | nil =>
    cases h
    rfl
  | cons v vs ih =>
    obtain ⟨k,ks',-,hks,rfl⟩ := valueKeys_cons h
    rw [List.length_cons,List.length_cons,ih hks]

theorem mem_valueKeys {vs : List V} (h : R.valueKeys vs=some ks) :
    ∀ k∈ks,∃ v∈vs,R.toKey v=some k := by
  induction vs generalizing ks with
  | nil =>
    cases h
    exact fun _ hk => nomatch hk
  | cons v vs ih =>
    obtain ⟨k,ks',hv,hks,rfl⟩ := valueKeys_cons h
    intro j hj
    cases hj with
    | head => exact ⟨v,List.mem_cons_self,hv⟩
    | tail _ hj =>
      obtain ⟨w,hw,hwj⟩ := ih hks j hj
      exact ⟨w,List.mem_cons_of_mem _ hw,hwj⟩

theorem mem_keywordKeys {ps : List (String×V)} (h : R.keywordKeys ps=some ks) :
    ∀ k∈ks,∃ p∈ps,R.toKey p.2=some k ∨ R.ofString p.1=k := by
  induction ps generalizing ks with
  | nil =>
    cases h
    exact fun _ hk => nomatch hk
  | cons p ps ih =>
    obtain ⟨k,ks',hp,hks,rfl⟩ := keywordKeys_cons h
    intro j hj
    rw [List.mem_cons,List.mem_cons] at hj
    obtain rfl|rfl|hj := hj
    · exact ⟨p,List.mem_cons_self,.inr rfl⟩
    · exact ⟨p,List.mem_cons_self,.inl hp⟩
    · obtain ⟨q,hq,hqj⟩ := ih hks j hj
      exact ⟨q,List.mem_cons_of_mem _ hq,hqj⟩

theorem flatKey_split {c : Call V} (h : R.flatKey c=some ks) :
    ∃ as bs,R.valueKeys c.positional=some as ∧ R.keywordKeys (sorted c)=some bs ∧ ks=as++bs := by
  rw [Keying.flatKey] at h
  obtain ⟨as,has,h⟩ := Option.bind_eq_some_iff.mp h
  obtain ⟨bs,hbs,h⟩ := Option.bind_eq_some_iff.mp h
  cases h
  exact ⟨as,bs,has,hbs,rfl⟩

theorem mem_sorted {c : Call V} {p : String×V} (hp : p∈sorted c) :
    p.2∈c.values ∧ p.1∈c.keyword.map Prod.fst := by
  rw [sorted,List.mem_mergeSort] at hp
  exact ⟨List.mem_append_right _ (List.mem_map_of_mem hp),List.mem_map_of_mem hp⟩

theorem occurs {G : Set (Call V)} {c : Call V} (hc : c∈G) (h : R.flatKey c=some ks) :
    ∀ k∈ks,R.Occurs G k := by
  obtain ⟨as,bs,has,hbs,rfl⟩ := flatKey_split h
  intro k hk
  rw [List.mem_append] at hk
  cases hk with
  | inl hk =>
    obtain ⟨v,hv,hvk⟩ := mem_valueKeys has k hk
    exact ⟨c,hc,.inl ⟨v,List.mem_append_left _ hv,hvk⟩⟩
  | inr hk =>
    obtain ⟨p,hp,hpk⟩ := mem_keywordKeys hbs k hk
    exact ⟨c,hc,hpk.imp (fun h => ⟨p.2,(mem_sorted hp).1,h⟩) fun h => ⟨p.1,(mem_sorted hp).2,h⟩⟩

theorem sameKeys_iff {ks js : List K} :
    R.sameKeys ks js=true ↔ List.Forall₂ (fun k j => R.same k j=true) ks js := by
  induction ks generalizing js with
  | nil => cases js <;> simp [Keying.sameKeys]
  | cons k ks ih =>
    cases js with
    | nil => simp [Keying.sameKeys]
    | cons j js => rw [Keying.sameKeys,Bool.and_eq_true,ih,List.forall₂_cons]

theorem valueKeys_alike {vs ws : List V} {ks js : List K} (hv : R.valueKeys vs=some ks)
    (hw : R.valueKeys ws=some js) (hsame : List.Forall₂ (fun k j => R.same k j=true) ks js)
    (h : ∀ v∈vs,∀ w∈ws,∀ k k',R.toKey v=some k → R.toKey w=some k' → R.same k k'=true → Equal v w) :
    List.Forall₂ Equal vs ws := by
  induction vs generalizing ws ks js with
  | nil =>
    cases hv
    cases hsame
    cases ws with
    | nil => exact .nil
    | cons w ws =>
      obtain ⟨k,ks',-,-,hks⟩ := valueKeys_cons hw
      cases hks
  | cons v vs ih =>
    obtain ⟨k,ks',hk,hks,rfl⟩ := valueKeys_cons hv
    cases ws with
    | nil =>
      cases hw
      cases hsame
    | cons w ws =>
      obtain ⟨j,js',hj,hjs,rfl⟩ := valueKeys_cons hw
      obtain ⟨hkj,hrest⟩ := List.forall₂_cons.mp hsame
      refine .cons (h v List.mem_cons_self w List.mem_cons_self k j hk hj hkj) ?_
      exact ih hks hjs hrest fun x hx y hy =>
        h x (List.mem_cons_of_mem _ hx) y (List.mem_cons_of_mem _ hy)

theorem keywordKeys_alike (hstr : ∀ s t,R.same (R.ofString s) (R.ofString t)=true → s=t)
    {ps qs : List (String×V)} {ks js : List K} (hp : R.keywordKeys ps=some ks)
    (hq : R.keywordKeys qs=some js) (hsame : List.Forall₂ (fun k j => R.same k j=true) ks js)
    (h : ∀ p∈ps,∀ q∈qs,∀ k k',R.toKey p.2=some k → R.toKey q.2=some k' → R.same k k'=true →
      Equal p.2 q.2) : List.Forall₂ (fun a b => a.1=b.1 ∧ Equal a.2 b.2) ps qs := by
  induction ps generalizing qs ks js with
  | nil =>
    cases hp
    cases hsame
    cases qs with
    | nil => exact .nil
    | cons q qs =>
      obtain ⟨k,ks',-,-,hks⟩ := keywordKeys_cons hq
      cases hks
  | cons p ps ih =>
    obtain ⟨k,ks',hk,hks,rfl⟩ := keywordKeys_cons hp
    cases qs with
    | nil =>
      cases hq
      cases hsame
    | cons q qs =>
      obtain ⟨j,js',hj,hjs,rfl⟩ := keywordKeys_cons hq
      obtain ⟨hname,hrest⟩ := List.forall₂_cons.mp hsame
      obtain ⟨hkj,hrest⟩ := List.forall₂_cons.mp hrest
      refine .cons ⟨hstr _ _ hname,h p List.mem_cons_self q List.mem_cons_self k j hk hj hkj⟩ ?_
      exact ih hks hjs hrest fun x hx y hy =>
        h x (List.mem_cons_of_mem _ hx) y (List.mem_cons_of_mem _ hy)

variable {body : Call V → Prog V E} {G : Set (Call V)}

/-- Two calls share an entry only if their arguments are equal in the same roles. -/
theorem Plain.sameRoles (hG : Plain Equal R body G) {c c' : Call V} (hc : c∈G) (hc' : c'∈G)
    {k k' : List K} (hk : R.flatKey c=some k) (hk' : R.flatKey c'=some k')
    (h : R.sameKeys k k'=true) : SameRoles Equal c c' := by
  have hwidth := hG.widths c hc c' hc' k k' hk hk' h
  obtain ⟨as,bs,has,hbs,rfl⟩ := flatKey_split hk
  obtain ⟨as',bs',has',hbs',rfl⟩ := flatKey_split hk'
  have hlen : as.length=as'.length := by
    rw [length_valueKeys has,length_valueKeys has',hwidth]
  rw [sameKeys_iff] at h
  have hfirst := List.forall₂_take_append _ _ _ h
  have hlast := List.forall₂_drop_append _ _ _ h
  rw [List.take_left' hlen] at hfirst
  rw [List.drop_left' hlen] at hlast
  constructor
  · exact valueKeys_alike has has' hfirst fun v hv w hw =>
      hG.faithful c hc c' hc' v (List.mem_append_left _ hv) w (List.mem_append_left _ hw)
  · exact keywordKeys_alike hG.names hbs hbs' hlast fun p hp q hq =>
      hG.faithful c hc c' hc' p.2 (mem_sorted hp).1 q.2 (mem_sorted hq).1

theorem sameKeys_self (h : ∀ k∈ks,R.same k k=true) : R.sameKeys ks ks=true :=
  sameKeys_iff.mpr (List.forall₂_same.mpr h)

theorem Plain.turns (hG : Plain Equal R body G) {ks js : List K} (hk : ∀ k∈ks,R.Occurs G k)
    (hj : ∀ j∈js,R.Occurs G j) (h : R.sameKeys ks js=true) : R.sameKeys js ks=true := by
  rw [sameKeys_iff] at h ⊢
  induction h with
  | nil => exact .nil
  | cons hkj _ ih =>
    refine .cons (hG.turn _ _ (hk _ List.mem_cons_self) (hj _ List.mem_cons_self) hkj) (ih ?_ ?_)
    · exact fun k h => hk k (List.mem_cons_of_mem _ h)
    · exact fun j h => hj j (List.mem_cons_of_mem _ h)

theorem Plain.chains (hG : Plain Equal R body G) {is ks js : List K} (hi : ∀ i∈is,R.Occurs G i)
    (hj : ∀ j∈js,R.Occurs G j) (hk : ∀ k∈ks,R.Occurs G k) (h : R.sameKeys is js=true)
    (h' : R.sameKeys js ks=true) : R.sameKeys is ks=true := by
  rw [sameKeys_iff] at h h' ⊢
  induction h generalizing ks with
  | nil =>
    cases h'
    exact .nil
  | cons hij _ ih =>
    cases h' with
    | cons hjk h' =>
      refine .cons (hG.chain _ _ _ (hi _ List.mem_cons_self) (hj _ List.mem_cons_self)
        (hk _ List.mem_cons_self) hij hjk) (ih ?_ ?_ ?_ h')
      · exact fun k h => hi k (List.mem_cons_of_mem _ h)
      · exact fun k h => hj k (List.mem_cons_of_mem _ h)
      · exact fun k h => hk k (List.mem_cons_of_mem _ h)

/-- The flat keys that a flat key is found for. -/
def Keying.classOf (R : Keying V K) (G : Set (Call V)) (k : List K) : Set (List K) :=
  {j | (∃ c∈G,R.flatKey c=some j) ∧ R.sameKeys k j=true}

theorem Plain.classes (hG : Plain Equal R body G) : Classes R G (R.classOf G) := by
  rintro k k' ⟨c,hc,hck⟩ ⟨c',hc',hck'⟩
  have hk := occurs hc hck
  have hk' := occurs hc' hck'
  constructor
  · intro h
    ext j
    constructor
    · rintro ⟨⟨d,hd,hdj⟩,hj⟩
      exact ⟨⟨d,hd,hdj⟩,hG.chains hk' hk (occurs hd hdj) (hG.turns hk hk' h) hj⟩
    · rintro ⟨⟨d,hd,hdj⟩,hj⟩
      exact ⟨⟨d,hd,hdj⟩,hG.chains hk hk' (occurs hd hdj) h hj⟩
  · intro h
    have hself : k'∈R.classOf G k' :=
      ⟨⟨c',hc',hck'⟩,sameKeys_self fun j hj => hG.self j (hk' j hj)⟩
    rw [← h] at hself
    exact hself.2

theorem Plain.consistent (hG : Plain Equal R body G) : Consistent R body G (R.classOf G) where
  hashable := hG.hashable
  classes := hG.classes
  agree := fun c hc c' hc' k k' hk hk' h => hG.function c hc c' hc'
    (hG.sameRoles hc hc' hk hk' ((hG.classes k k' ⟨c,hc,hk⟩ ⟨c',hc',hk'⟩).mpr h))
  closed := hG.closed

theorem session_exact {Q : Type} [DecidableEq Q] {f : List K → Q} (hG : Consistent R body G f)
    (unhashable : E) (maxsize : Option ℕ) (cs : List (Call V×Except E V)) (n : ℕ)
    (hcs : ∀ p∈cs,p.1∈G ∧ direct body n p.1=some p.2) : ∀ s,Sound R body maxsize G f s →
      ∃ s',session R unhashable body maxsize n (cs.map Prod.fst) s=some (cs.map Prod.snd,s') ∧
        Sound R body maxsize G f s' := by
  induction cs with
  | nil => exact fun s hs => ⟨s,rfl,hs⟩
  | cons p cs ih =>
    intro s hs
    obtain ⟨hp,hd⟩ := hcs p List.mem_cons_self
    obtain ⟨s1,hw,hs1,-⟩ := wrapped_exact unhashable hG n p.1 hp p.2 hd n (Nat.le_refl n) s hs
    obtain ⟨s2,hrest,hs2⟩ := ih (fun q hq => hcs q (List.mem_cons_of_mem _ hq)) s1 hs1
    refine ⟨s2,?_,hs2⟩
    rw [List.map_cons,List.map_cons,session,hw]
    simp only [bind,Option.bind,hrest]
    rfl

end Roles

theorem common_depth {body : Call V → Prog V E} {G : Set (Call V)} (cs : List (Call V×Except E V))
    (hcs : ∀ p∈cs,p.1∈G ∧ ∃ n,direct body n p.1=some p.2) :
    ∃ n,∀ p∈cs,p.1∈G ∧ direct body n p.1=some p.2 := by
  induction cs with
  | nil => exact ⟨0,fun _ h => nomatch h⟩
  | cons p cs ih =>
    obtain ⟨n,hn⟩ := ih fun q hq => hcs q (List.mem_cons_of_mem _ hq)
    obtain ⟨hp,m,hm⟩ := hcs p List.mem_cons_self
    refine ⟨max n m,fun q hq => ?_⟩
    cases hq with
    | head => exact ⟨hp,direct_mono (le_max_right n m) hm⟩
    | tail _ hq => exact ⟨(hn q hq).1,direct_mono (le_max_left n m) (hn q hq).2⟩

/-- The wrapper is transparent and bounded, evicts what was least recently used, and shares an entry only between equal calls. -/
theorem lru_transparent (Equal : V → V → Prop) (R : Keying V K) (body : Call V → Prog V E)
    (G : Set (Call V)) (hG : Plain Equal R body G) (unhashable : E) (maxsize : Option ℕ)
    (cs : List (Call V×Except E V)) (hcs : ∀ p∈cs,p.1∈G ∧ ∃ n,direct body n p.1=some p.2) :
    (∃ n s,session R unhashable body maxsize n (cs.map Prod.fst) Cache.empty=
        some (cs.map Prod.snd,s) ∧
      (∀ max,maxsize=some max → s.entries.length ≤ max ∧ ∀ size∈s.sizes,size ≤ max) ∧
      ∀ e∈s.evictions,Recency.LeastRecent R.sameKeys e.uses e.keys e.victim) ∧
    ∀ c∈G,∀ c'∈G,∀ k k',R.flatKey c=some k → R.flatKey c'=some k' → R.sameKeys k k'=true →
      SameRoles Equal c c' := by
  classical
  obtain ⟨n,hn⟩ := common_depth cs hcs
  obtain ⟨s,hs,hsound⟩ := session_exact hG.consistent unhashable maxsize cs n hn Cache.empty
    (Sound.empty R body maxsize G _)
  exact ⟨⟨n,s,hs,hsound.bounded,hsound.evicted⟩,fun c hc c' hc' k k' hk hk' h =>
    hG.sameRoles hc hc' hk hk' h⟩

section Examples

/-- A function that calls itself: one more than what it returns for `0`. -/
def above (c : Call (ℕ⊕String)) : Prog (ℕ⊕String) Unit :=
  if c.positional=[.inl 0] then .ret (.inl 0)
  else .call ⟨[.inl 0],[]⟩ fun
    | .ok (.inl n) => .ret (.inl (n+1))
    | _ => .raise ()

/-- Values that are their own keys. -/
def ownKeys : Keying (ℕ⊕String) (ℕ⊕String) := ⟨some,.inr,fun a b => decide (a=b)⟩

theorem ownKeys_same {a b : ℕ⊕String} : ownKeys.same a b=true ↔ a=b := decide_eq_true_iff

theorem flatKey_positional (vs : List (ℕ⊕String)) : ownKeys.flatKey ⟨vs,[]⟩=some vs := by
  have hkeys : ownKeys.valueKeys vs=some vs := by
    induction vs with
    | nil => rfl
    | cons v vs ih => rw [Keying.valueKeys,ih]; rfl
  rw [Keying.flatKey,hkeys,sorted,List.mergeSort_nil]
  show some (vs++[])=some vs
  rw [List.append_nil]

def aboveCalls : Set (Call (ℕ⊕String)) := {⟨[.inl 0],[]⟩,⟨[.inl 1],[]⟩}

theorem above_plain : Plain Eq ownKeys above aboveCalls where
  hashable := by
    rintro c (rfl|rfl) <;> (rw [flatKey_positional]; exact Option.some_ne_none _)
  self _ _ := ownKeys_same.mpr rfl
  turn _ _ _ _ h := ownKeys_same.mpr (ownKeys_same.mp h).symm
  chain _ _ _ _ _ _ h h' := ownKeys_same.mpr ((ownKeys_same.mp h).trans (ownKeys_same.mp h'))
  widths := by rintro c (rfl|rfl) c' (rfl|rfl) k k' hk hk' h <;> rfl
  faithful _ _ _ _ _ _ _ _ _ _ hk hk' h :=
    (Option.some.inj hk).trans ((ownKeys_same.mp h).trans (Option.some.inj hk').symm)
  names _ _ h := Sum.inr.inj (ownKeys_same.mp h)
  function := by
    rintro c (rfl|rfl) c' (rfl|rfl) h n
    · rfl
    · cases h.1 with
      | cons h0 _ => cases h0
    · cases h.1 with
      | cons h0 _ => cases h0
    · rfl
  closed := by
    rintro n c (rfl|rfl) c' h
    · exact h.elim
    · rcases h with rfl|⟨r,hr,h⟩
      · exact .inl rfl
      · cases r with
        | error e => exact h.elim
        | ok v => cases v <;> exact h.elim

/-- `f(1)`, which calls `f(0)` and evicts it, and `f(0)` again. -/
theorem above_transparent :
    (∃ n s,session ownKeys () above (some 1) n [⟨[.inl 1],[]⟩,⟨[.inl 0],[]⟩] Cache.empty=
        some ([.ok (.inl 1),.ok (.inl 0)],s) ∧
      (∀ max,some 1=some max → s.entries.length ≤ max ∧ ∀ size∈s.sizes,size ≤ max) ∧
      ∀ e∈s.evictions,Recency.LeastRecent ownKeys.sameKeys e.uses e.keys e.victim) ∧
    ∀ c∈aboveCalls,∀ c'∈aboveCalls,∀ k k',ownKeys.flatKey c=some k → ownKeys.flatKey c'=some k' →
      ownKeys.sameKeys k k'=true → SameRoles Eq c c' :=
  lru_transparent Eq ownKeys above aboveCalls above_plain () (some 1)
    [(⟨[.inl 1],[]⟩,.ok (.inl 1)),(⟨[.inl 0],[]⟩,.ok (.inl 0))] (by
      intro p hp
      cases hp with
      | head => exact ⟨.inr rfl,2,rfl⟩
      | tail _ hp =>
        cases hp with
        | head => exact ⟨.inl rfl,1,rfl⟩
        | tail _ hp => cases hp)

def width (c : Call (ℕ⊕String)) : Prog (ℕ⊕String) Unit := .ret (.inl c.positional.length)

/-- `f("b", 2)` and `f(b=2)` flatten to one key, so the second returns what the first did. -/
theorem keyword_confused :
    (session ownKeys () width none 1 [⟨[.inr "b",.inl 2],[]⟩,⟨[],[("b",.inl 2)]⟩]
      Cache.empty).map Prod.fst=some [.ok (.inl 2),.ok (.inl 2)] ∧
    direct width 1 ⟨[],[("b",.inl 2)]⟩=some (.ok (.inl 0)) := by
  have hkey : ownKeys.flatKey (⟨[.inr "b",.inl 2],[]⟩ : Call (ℕ⊕String))=
      some [.inr "b",.inl 2] := flatKey_positional _
  have hkey' : ownKeys.flatKey (⟨[],[("b",.inl 2)]⟩ : Call (ℕ⊕String))=
      some [.inr "b",.inl 2] := by
    rw [Keying.flatKey,sorted,List.mergeSort_singleton]
    rfl
  refine ⟨?_,rfl⟩
  simp only [session,wrapped,hkey,hkey']
  rfl

end Examples

end Caching
end InterpretThis
