import InterpretThis.Modules.HeapqExact

namespace InterpretThis
namespace Heapq

section Stability

variable {α : Type} {lt klt : α → α → Bool} {xs out : List α} {a b : α}

theorem pair_or (ha : a∈xs) (hb : b∈xs) (hne : a≠b) : [a,b].Sublist xs ∨ [b,a].Sublist xs := by
  induction xs with
  | nil => cases ha
  | cons x xs ih =>
    rcases List.mem_cons.mp ha with rfl | ha'
    · refine .inl (List.Sublist.cons_cons a (List.singleton_sublist.mpr ?_))
      exact (List.mem_cons.mp hb).resolve_left (Ne.symm hne)
    · rcases List.mem_cons.mp hb with rfl | hb'
      · exact .inr (List.Sublist.cons_cons b (List.singleton_sublist.mpr ha'))
      · exact (ih ha' hb').imp (List.Sublist.cons x) (List.Sublist.cons x)

theorem StableSorted.tie (hw : WeakOrder lt xs) (h : StableSorted lt xs out) (ha : a∈xs)
    (htie : tied lt a b=true) : [a,b].Sublist out ↔ [a,b].Sublist xs := by
  have hpair : [a,b].filter (tied lt a)=[a,b] := by
    rw [List.filter_cons_of_pos (hw.tied_self ha),List.filter_cons_of_pos htie,List.filter_nil]
  have hkept := h.kept a ha
  constructor
  · intro hs
    have hf := hs.filter (tied lt a)
    rw [hpair,hkept] at hf
    exact hf.trans List.filter_sublist
  · intro hs
    have hf := hs.filter (tied lt a)
    rw [hpair,← hkept] at hf
    exact hf.trans List.filter_sublist

theorem ordered_pair (h : StableSorted lt xs out) (hs : [a,b].Sublist out) : lt b a=false :=
  List.pairwise_iff_forall_sublist.mp h.ordered hs

/-- A list that is the stable sort for two orders: where one turns a pair, so does the other. -/
theorem turned (hw : WeakOrder lt xs) (hk : WeakOrder klt xs) (h : StableSorted lt xs out)
    (hkey : StableSorted klt xs out) (hs : [a,b].Sublist xs) (hlt : lt b a=true) :
    klt b a=true := by
  have ha : a∈xs := hs.subset List.mem_cons_self
  have hb : b∈xs := hs.subset (List.mem_cons_of_mem _ List.mem_cons_self)
  cases hba : klt b a with
  | true => rfl
  | false =>
    have hno : ¬[a,b].Sublist out := by
      intro hout
      rw [ordered_pair h hout] at hlt
      cases hlt
    cases hab : klt a b with
    | false => exact absurd ((StableSorted.tie hk hkey ha (tied_iff.mpr ⟨hab,hba⟩)).mpr hs) hno
    | true =>
      have hne : a≠b := by
        rintro rfl
        rw [hw.irrefl ha] at hlt
        cases hlt
      rcases pair_or (h.perm.mem_iff.mpr ha) (h.perm.mem_iff.mpr hb) hne with hout | hout
      · exact absurd hout hno
      · rw [ordered_pair hkey hout] at hab
        cases hab

/-- A stable sort for one order is one for another if and only if they turn the same pairs. -/
theorem stable_agree (hw : WeakOrder lt xs) (hk : WeakOrder klt xs) (h : StableSorted lt xs out) :
    StableSorted klt xs out ↔ xs.Pairwise fun a b => lt b a=klt b a := by
  constructor
  · intro hkey
    refine List.pairwise_iff_forall_sublist.mpr fun {a b} hs => ?_
    rw [Bool.eq_iff_iff]
    exact ⟨turned hw hk h hkey hs,turned hk hw hkey h hs⟩
  intro hagree
  have hpair : ∀ {a b},[a,b].Sublist xs → lt b a=klt b a :=
    fun hs => List.pairwise_iff_forall_sublist.mp hagree hs
  refine ⟨h.perm,List.pairwise_iff_forall_sublist.mpr fun {a b} hs => ?_,fun c hc => ?_⟩
  · have ha : a∈xs := h.perm.mem_iff.mp (hs.subset List.mem_cons_self)
    have hb : b∈xs := h.perm.mem_iff.mp
      (hs.subset (List.mem_cons_of_mem _ List.mem_cons_self))
    have hlt := ordered_pair h hs
    cases hba : klt b a with
    | false => rfl
    | true =>
      have hne : a≠b := by
        rintro rfl
        rw [hk.irrefl ha] at hba
        cases hba
      have hno : ¬[a,b].Sublist xs := by
        intro hxs
        rw [hpair hxs,hba] at hlt
        cases hlt
      rcases pair_or ha hb hne with hxs | hxs
      · exact absurd hxs hno
      · have hab : lt a b=false := (hpair hxs).trans (hk.asymm b hb a ha hba)
        exact absurd ((StableSorted.tie hw h ha (tied_iff.mpr ⟨hab,hlt⟩)).mp hs) hno
  · have hmem : ∀ {y},y∈xs.filter (tied klt c) → y∈xs ∧ tied klt c y=true :=
      fun hy => List.mem_filter.mp hy
    refine ordered_unique (hw.sub fun y hy => h.perm.mem_iff.mp (List.mem_of_mem_filter hy))
      (h.perm.filter _) (h.ordered.sublist List.filter_sublist) ?_ fun a ha => ?_
    · refine List.pairwise_iff_forall_sublist.mpr fun {a b} hs => ?_
      obtain ⟨ha,hca⟩ := hmem (hs.subset List.mem_cons_self)
      obtain ⟨hb,hcb⟩ := hmem (hs.subset (List.mem_cons_of_mem _ List.mem_cons_self))
      exact (hpair (hs.trans List.filter_sublist)).trans (hk.tied_trans hc hb ha hcb hca)
    · have ha : a∈xs := h.perm.mem_iff.mp (List.mem_of_mem_filter ha)
      rw [List.filter_comm,h.kept a ha,List.filter_comm]

end Stability

section Merging

variable {α E : Type} {xs : List α}

/-- The order of a merge: by key, the other way round for `reverse`. -/
def mergeLt (lt : α → α → Bool) (keyOf : α → α) (reverse : Bool) (a b : α) : Bool :=
  if reverse then lt (keyOf b) (keyOf a) else lt (keyOf a) (keyOf b)

theorem mergeLt_weak {lt : α → α → Bool} {keyOf : α → α} (h : WeakOrder lt (xs.map keyOf))
    (reverse : Bool) : WeakOrder (mergeLt lt keyOf reverse) xs := by
  have hkey : ∀ a∈xs,keyOf a∈xs.map keyOf := fun a ha => List.mem_map_of_mem ha
  cases reverse with
  | false => exact ⟨fun a ha b hb => h.asymm _ (hkey a ha) _ (hkey b hb),
      fun a ha b hb c hc => h.cotrans _ (hkey a ha) _ (hkey b hb) _ (hkey c hc)⟩
  | true => exact ⟨fun a ha b hb => h.flip.asymm _ (hkey a ha) _ (hkey b hb),
      fun a ha b hb c hc => h.flip.cotrans _ (hkey a ha) _ (hkey b hb) _ (hkey c hc)⟩

theorem ordering_compareBy {compareLt : α → α → Except E Bool} {lt : α → α → Bool}
    (hanswers : ∀ a∈xs,∀ b∈xs,compareLt a b=.ok (lt a b)) (reverse : Bool) {a b : α}
    (ha : a∈xs) (hb : b∈xs) :
    ordering compareLt reverse a b=.ok (compareBy (mergeLt lt id reverse) a b) := by
  rw [ordering,compareBy,mergeLt,mergeLt]
  cases reverse with
  | false =>
    simp only [Bool.false_eq_true,if_false,id,hanswers a ha b hb,hanswers b hb a ha]
    cases lt a b <;> cases lt b a <;> rfl
  | true =>
    simp only [if_true,id,hanswers a ha b hb,hanswers b hb a ha]
    cases lt b a <;> cases lt a b <;> rfl

theorem run_total {cmp : α → α → Except E Ordering} {answers : α → α → Ordering}
    (h : ∀ a∈xs,∀ b∈xs,cmp a b=.ok (answers a b)) {tree : Asking α} (hw : tree.Within xs) :
    tree.run (Asking.capture cmp) none=(tree.answer answers,none) := by
  induction tree with
  | done out => rfl
  | ask a b next ih =>
    obtain ⟨ha,hb,hnext⟩ := hw
    rw [Asking.run,Asking.answer,← ih (answers a b) (hnext _)]
    simp only [Asking.capture,h a ha b hb]

theorem sortValues_stable {compareLt : α → α → Except E Bool} {lt : α → α → Bool}
    {sortBy : List α → Asking α} (hsort : StableAlgorithm sortBy) (hw : WeakOrder lt xs)
    (hanswers : ∀ a∈xs,∀ b∈xs,compareLt a b=.ok (lt a b)) (reverse : Bool) :
    ∃ out,sortValues compareLt sortBy reverse xs=.ok out ∧
      StableSorted (mergeLt lt id reverse) xs out := by
  refine ⟨_,?_,hsort.sorts xs _ (mergeLt_weak (by rwa [List.map_id]) reverse)⟩
  rw [sortValues,run_total (fun a ha b hb => ordering_compareBy hanswers reverse ha hb)
    (hsort.within xs)]

end Merging

end Heapq

namespace Place
namespace Heapq

open InterpretThis.Heapq
open HeapOrder

variable {K : Type}

section Calls

def opName : Op (Value K) → String
  | .heapify => "heapify"
  | .heappush _ => "heappush"
  | .heappop => "heappop"
  | .heappushpop _ => "heappushpop"
  | .heapreplace _ => "heapreplace"

/-- A call of an operation on the list at an address. -/
structure OpCall (K : Type) where
  op : Op (Value K)
  addr : ℕ
  kwargs : List (String×Value K)
  state : State K

namespace OpCall

variable (H : Host K) (c : OpCall K)

def items : List (Value K) := c.state.heap.items c.addr

def run : Except (Failure K) (Value K)×State K :=
  call H (opName c.op) (.list c.addr::c.op.items) c.kwargs c.state

def outcome : Except (Failure K) (Value K)×List (Value K) :=
  ((c.run H).1,(c.run H).2.heap.items c.addr)

theorem outcome_eq {c : OpCall K} (live : c.addr<c.state.heap.length) :
    c.outcome H=c.op.run (comparing H c.state) c.items := by
  have hrun : c.run H=((c.op.run (comparing H c.state) c.items).1,
      setItems c.addr (c.op.run (comparing H c.state) c.items).2 c.state) := by
    obtain ⟨op,addr,kwargs,state⟩ := c
    cases op <;> rfl
  rw [outcome,hrun]
  exact Prod.ext rfl (setItems_same live _)

end OpCall

/-- A call of `merge`. -/
structure MergeCall (K : Type) where
  args : List (Value K)
  kwargs : List (String×Value K)
  state : State K

namespace MergeCall

variable (H : Host K) (lt : Value K → Value K → Bool) (keyOf : Value K → Value K)
  (q : MergeCall K) (inputs : List (List (Value K)))

def reverse : Bool := ((q.kwargs.lookup "reverse").map (H.isTruthy q.state)).getD false

/-- The arguments give the inputs, whose items and keys are compared by one strict weak order; without
a key argument the items are their keys. -/
structure Lawful : Prop where
  reads : List.Forall₂ (fun arg items => H.iterateValue q.state arg=.ok items) q.args inputs
  sorts : StableAlgorithm H.sortBy
  orders : Orders (comparing H q.state) lt inputs.flatten
  keys : WeakOrder lt (inputs.flatten.map keyOf)
  plain : Bisect.keyArg q.kwargs=none → keyOf=id

/-- Inputs in order by their keys are merged in order, ties in the order of the inputs. -/
def Merges : Prop :=
  (∀ input∈inputs,input.Pairwise fun a b => mergeLt lt keyOf (q.reverse H) b a=false) →
    ∃ addr t,call H "merge" q.args q.kwargs q.state=(.ok (.list addr),t) ∧
      StableSorted (mergeLt lt keyOf (q.reverse H)) inputs.flatten (t.heap.items addr)

/-- Items and keys ask for the same exchanges: an item goes before one that comes earlier in the
inputs by itself where it does so by its key. -/
def KeysAgree : Prop :=
  (∀ input∈inputs,input.Pairwise fun a b => mergeLt lt keyOf (q.reverse H) b a=false) →
    inputs.flatten.Pairwise fun a b =>
      mergeLt lt id (q.reverse H) b a=mergeLt lt keyOf (q.reverse H) b a

variable {H lt keyOf q inputs}

theorem gather_inputs {s : State K} {args : List (Value K)}
    (h : List.Forall₂ (fun arg items => H.iterateValue s arg=.ok items) args inputs) :
    gather H s args=.ok inputs.flatten := by
  induction h with
  | nil => rfl
  | cons hread _ ih =>
    rw [gather,hread]
    simp only [ih]
    rfl

theorem sharedList_items (items : List (Value K)) (s : State K) :
    (sharedList items s).2.heap.items s.heap.length=items := by
  simp [sharedList,Heap.items,Heap.body]

theorem merge_run (h : q.Lawful H lt keyOf inputs) :
    ∃ out,call H "merge" q.args q.kwargs q.state=
        (.ok (.list q.state.heap.length),(sharedList out q.state).2) ∧
      StableSorted (mergeLt lt id (q.reverse H)) inputs.flatten out := by
  obtain ⟨out,hsort,hstable⟩ := sortValues_stable h.sorts h.orders.weak h.orders.answers
    (q.reverse H)
  refine ⟨out,?_,hstable⟩
  have hcall : call H "merge" q.args q.kwargs q.state=merge H q.args q.kwargs q.state := rfl
  rw [hcall,merge,gather_inputs h.reads]
  have hreverse : ((q.kwargs.lookup "reverse").map (H.isTruthy q.state)).getD false=q.reverse H :=
    rfl
  have hvalues : sortValues (H.compareLt q.state) H.sortBy (q.reverse H) inputs.flatten=.ok out :=
    hsort
  simp only [hreverse,hvalues]
  rfl

theorem merges_iff (h : q.Lawful H lt keyOf inputs) :
    q.Merges H lt keyOf inputs ↔ q.KeysAgree H lt keyOf inputs := by
  obtain ⟨out,hrun,hstable⟩ := merge_run h
  have hweak : WeakOrder (mergeLt lt id (q.reverse H)) inputs.flatten :=
    mergeLt_weak (by rw [List.map_id]; exact h.orders.weak) _
  have hagree := stable_agree hweak (mergeLt_weak h.keys (q.reverse H)) hstable
  refine imp_congr_right fun _ => ?_
  rw [← hagree,hrun]
  constructor
  · rintro ⟨addr,t,heq,hs⟩
    obtain ⟨hok,rfl⟩ := Prod.mk.inj heq
    obtain rfl := Value.list.inj (Except.ok.inj hok)
    rwa [sharedList_items] at hs
  · intro hs
    refine ⟨_,_,rfl,?_⟩
    rwa [sharedList_items]

theorem keysAgree_plain (h : q.Lawful H lt keyOf inputs) (hplain : Bisect.keyArg q.kwargs=none) :
    q.KeysAgree H lt keyOf inputs := by
  intro _
  rw [h.plain hplain]
  exact List.pairwise_of_forall fun _ _ => rfl

end MergeCall

/-- An operation keeps its heap and loses nothing if and only if no comparison raises after it has
moved an item, popping gives the items in order, and a merge goes by the keys if and only if they
ask for the exchanges of the items; without a key it is the stable merge. -/
theorem heapq_exact {H : Host K} {c : OpCall K} (live : c.addr<c.state.heap.length)
    {lt : Value K → Value K → Bool} {keyOf : Value K → Value K} {q : MergeCall K}
    {inputs : List (List (Value K))} (h : q.Lawful H lt keyOf inputs) :
    (Meets (comparing H c.state) c.op c.items (c.outcome H) ↔
      c.op.Kept (comparing H c.state) c.items) ∧
    (∀ lt,Orders (comparing H c.state) lt c.items → HeapOrder.Heap lt c.items 0 →
      ∃ out,drain (comparing H c.state) c.items.length c.items=(.ok out,[]) ∧
        out.Perm c.items ∧ out.Pairwise fun a b => lt b a=false) ∧
    (q.Merges H lt keyOf inputs ↔ q.KeysAgree H lt keyOf inputs) ∧
    (Bisect.keyArg q.kwargs=none → q.Merges H lt keyOf inputs) := by
  refine ⟨?_,fun lt ho hheap => drain_sorted rfl ho hheap,MergeCall.merges_iff h,fun hplain => ?_⟩
  · rw [OpCall.outcome_eq H live]
    exact meets_iff c.op c.items
  · exact (MergeCall.merges_iff h).mpr (MergeCall.keysAgree_plain h hplain)

end Calls

section Integers

/-- A host that compares integers and iterates over lists. -/
def plainHost : Host String where
  compareLt := plainSorter.compareLt
  iterateValue s v := match v with
    | .list a => .ok (s.heap.items a)
    | other => .error (.typeError ("'"++other.typeName++"' object is not iterable"))
  isTruthy _ v := match v with
    | .bool b => b
    | _ => false
  sortBy := askSort []
  nExtreme _ _ _ s := (.ok .none,s)

def negated : Value String → Value String
  | .int i => .int (-i)
  | v => v

theorem intLess_weak {xs : List (Value String)} (hints : ∀ v∈xs,∃ n,v=.int n) :
    WeakOrder intLess xs := by
  constructor
  · intro a ha b hb hlt
    obtain ⟨i,rfl⟩ := hints a ha
    obtain ⟨j,rfl⟩ := hints b hb
    simp only [intLess,decide_eq_true_eq,decide_eq_false_iff_not] at hlt ⊢
    omega
  · intro a ha b hb c hc hlt
    obtain ⟨i,rfl⟩ := hints a ha
    obtain ⟨j,rfl⟩ := hints b hb
    obtain ⟨k,rfl⟩ := hints c hc
    simp only [intLess,decide_eq_true_eq] at hlt ⊢
    omega

theorem orders_ints {s : State String} {xs : List (Value String)} (hints : ∀ v∈xs,∃ n,v=.int n) :
    Orders (comparing plainHost s) intLess xs where
  weak := intLess_weak hints
  answers a ha b hb := by
    obtain ⟨i,rfl⟩ := hints a ha
    obtain ⟨j,rfl⟩ := hints b hb
    rfl

/-- `heapq.merge(xs,ys,…)`. -/
def mergeOf (xs ys : List (Value String)) (kwargs : List (String×Value String)) :
    MergeCall String :=
  ⟨[.list 0,.list 1],kwargs,{holding xs with heap := [⟨.list xs,none⟩,⟨.list ys,none⟩]}⟩

theorem mergeOf_lawful {xs ys : List (Value String)} {keyOf : Value String → Value String}
    {kwargs : List (String×Value String)} (hints : ∀ v∈xs++ys,∃ n,v=.int n)
    (hkey : ∀ i,∃ j,keyOf (.int i)=.int j) (hplain : Bisect.keyArg kwargs=none → keyOf=id) :
    (mergeOf xs ys kwargs).Lawful plainHost intLess keyOf [xs,ys] := by
  have hall : ∀ v∈[xs,ys].flatten,∃ n,v=.int n := fun v hv => hints v (by simpa using hv)
  refine ⟨.cons rfl (.cons rfl .nil),askSort_stable,orders_ints hall,intLess_weak ?_,hplain⟩
  intro v hv
  obtain ⟨u,hu,rfl⟩ := List.mem_map.mp hv
  obtain ⟨n,rfl⟩ := hall u hu
  exact hkey n

def ints (ns : List Int64) : List (Value String) := ns.map .int

theorem mem_ints {ns : List Int64} : ∀ v∈ints ns,∃ n,v=.int n := by
  intro v hv
  obtain ⟨n,-,rfl⟩ := List.mem_map.mp hv
  exact ⟨n,rfl⟩

/-- `heapq.heappush(["a",5,6],3)`. -/
def pushThree : OpCall String :=
  ⟨.heappush (.int 3),0,[],holding [.string "a",.int 5,.int 6]⟩

/-- Popping the heap `[1,3,2,7]`, where 7 sinks to a leaf, and the merge of `[1,3]` and `[2,3]`. -/
theorem heapq_exact_sift :
    Meets (comparing plainHost (holding (ints [1,3,2,7]))) .heappop (ints [1,3,2,7])
      ((⟨.heappop,0,[],holding (ints [1,3,2,7])⟩ : OpCall String).outcome plainHost) ∧
    (mergeOf (ints [1,3]) (ints [2,3]) []).Merges plainHost intLess id [ints [1,3],ints [2,3]] := by
  obtain ⟨hmeets,-,-,hmerges⟩ := heapq_exact (H := plainHost)
    (c := ⟨.heappop,0,[],holding (ints [1,3,2,7])⟩) (by decide)
    (@mergeOf_lawful (ints [1,3]) (ints [2,3]) id [] (@mem_ints [1,3,2,3])
      (fun i => ⟨i,rfl⟩) fun _ => rfl)
  refine ⟨hmeets.mpr fun last hlast _ newitem hnew => ?_,hmerges rfl⟩
  obtain rfl := Option.some.inj hlast
  obtain rfl := Option.some.inj hnew
  -- 7 goes down to the place of 2, the smaller child, and stays there
  rw [KeptDown,if_pos (by decide)]
  change KeptDown (comparing plainHost _) _ (Value.int 7) 2 (.int 2) [.int 2]
  rw [KeptDown,if_neg (by decide)]
  trivial

/-- The item pushed is lost when it is compared with the root, and the key of a merge is not looked
at. -/
theorem held_item_lost :
    (¬∀ (K : Type) (H : Host K) (c : OpCall K),c.addr<c.state.heap.length →
      Meets (comparing H c.state) c.op c.items (c.outcome H)) ∧
    ¬∀ (K : Type) (H : Host K) (lt : Value K → Value K → Bool) (keyOf : Value K → Value K)
      (q : MergeCall K) (inputs : List (List (Value K))),q.Lawful H lt keyOf inputs →
        q.Merges H lt keyOf inputs := by
  constructor
  · intro h
    have hmeets := h String plainHost pushThree (by decide)
    rw [OpCall.outcome_eq plainHost (by decide)] at hmeets
    have hkept := (meets_iff _ _).mp hmeets
    have hway : wayUp [.string "a",.int 5,.int 6,.int 3] 0 3=
        [Value.int (K := String) 5,.string "a"] := by
      rw [wayUp_step (by decide),wayUp_step (by decide),wayUp_stop (by decide)]
      rfl
    have hitem : KeptUp (comparing plainHost pushThree.state) (.int 3) (.int 3)
        [.int 5,.string "a"] := hway ▸ hkept
    have hfive : Value.int (K := String) 5=.int 3 := hitem
    exact absurd (Value.int.inj hfive) (by decide)
  · intro h
    have hlawful := @mergeOf_lawful (ints [2,1]) [] negated [("key",.function "neg")]
      (@mem_ints [2,1]) (fun i => ⟨-i,rfl⟩) fun hnone => by cases hnone
    have hmerges := (MergeCall.merges_iff hlawful).mp (h _ _ _ _ _ _ hlawful)
    have hpairs := hmerges fun input hinput => by
      rcases List.mem_cons.mp hinput with rfl | hinput
      · exact List.pairwise_cons.mpr ⟨fun v hv => by
          obtain rfl := List.mem_singleton.mp hv
          decide,List.pairwise_singleton _ _⟩
      · obtain rfl := List.mem_singleton.mp hinput
        exact .nil
    have hone := (List.pairwise_cons.mp hpairs).1 (.int 1) List.mem_cons_self
    exact absurd hone (by decide)

end Integers

end Heapq
end Place
end InterpretThis
