import InterpretThis.Modules.Heapq

namespace InterpretThis
namespace Heapq

open HeapOrder

variable {α E : Type}

section Sifts

/-- The comparisons answer by a strict weak order, and none of them raises. -/
structure Orders (O : Comparing α E) (lt : α → α → Bool) (all : List α) : Prop where
  weak : WeakOrder lt all
  answers : ∀ a∈all,∀ b∈all,O.compareLt a b=.ok (lt a b)

variable {O : Comparing α E} {lt : α → α → Bool} {heap all : List α} {startpos pos : ℕ} {x : α}

theorem mem_set {v : α} (hall : ∀ y∈heap,y∈all) (hv : v∈all) : ∀ y∈heap.set pos v,y∈all := by
  intro y hy
  rcases List.mem_or_eq_of_mem_set hy with hy | rfl
  · exact hall y hy
  · exact hv

/-- The way up of an item under which the children of its slot are in order. -/
theorem bubble_ordered (ho : Orders O lt all) (hall : ∀ y∈heap,y∈all) (hx : x∈all)
    (hpos : pos<heap.length) (hsub : Subtree startpos pos) (hole : Hole lt heap startpos pos)
    (hunder : Under lt heap x pos) :
    ∃ h,bubble O startpos x heap pos=(.ok (),h) ∧ Heap lt h startpos := by
  induction pos using Nat.strongRecOn generalizing heap with
  | ind pos ih =>
    by_cases hs : startpos<pos
    swap
    · refine ⟨_,bubble_stop hs,hole.fill hunder fun k a hk hchild _ => ?_⟩
      have hlt := hchild.lt
      have hle := hsub.le
      omega
    have hhalf : (pos-1)/2<pos := by omega
    have hchild := isChild_half (p := pos) (by omega)
    have hget := List.getElem?_eq_getElem (hhalf.trans hpos)
    have hup := hsub.half hs
    generalize heap[(pos-1)/2]=parent at hget
    have hparent : parent∈all := hall _ (List.mem_of_getElem? hget)
    rw [bubble_step hs hget,ho.answers x hx parent hparent]
    cases hless : lt x parent with
    | false =>
      refine ⟨_,rfl,hole.fill hunder fun k a _ hk ha => ?_⟩
      obtain rfl := hchild.unique hk
      obtain rfl : parent=a := Option.some.inj (hget.symm.trans ha)
      exact hless
    | true =>
      obtain ⟨hnext,hbelow⟩ := hole.ascend ho.weak hall hx hunder hup.le hchild hget hless
      exact ih _ hhalf (mem_set hall hparent) (by rw [List.length_set]; omega) hup hnext hbelow

/-- The child that moves is the lesser one. -/
theorem picksRight_ordered (ho : Orders O lt all) (hall : ∀ y∈heap,y∈all)
    (hs : 2*pos+1<heap.length) : ∃ right v,picksRight O heap (2*pos+1)=.ok right ∧
      heap[2*pos+1+right.toNat]?=some v ∧
      ∀ d b,IsChild pos d → d≠2*pos+1+right.toNat → heap[d]?=some b → lt b v=false := by
  have hleft := List.getElem?_eq_getElem hs
  generalize heap[2*pos+1]=left at hleft
  rw [picksRight]
  by_cases hlen : 2*pos+1+1<heap.length
  · have hright := List.getElem?_eq_getElem hlen
    generalize heap[2*pos+1+1]=right at hright
    have hl : left∈all := hall _ (List.mem_of_getElem? hleft)
    have hr : right∈all := hall _ (List.mem_of_getElem? hright)
    rw [if_pos hlen,hleft,hright]
    simp only [ho.answers left hl right hr]
    cases hless : lt left right with
    | true =>
      refine ⟨false,left,rfl,hleft,fun d b hd hne hb => ?_⟩
      obtain rfl : d=2*pos+1+1 := hd.resolve_left hne
      obtain rfl : right=b := Option.some.inj (hright.symm.trans hb)
      exact ho.weak.asymm left hl right hr hless
    | false =>
      refine ⟨true,right,rfl,hright,fun d b hd hne hb => ?_⟩
      obtain rfl : d=2*pos+1 := hd.resolve_right hne
      obtain rfl : left=b := Option.some.inj (hleft.symm.trans hb)
      exact hless
  · rw [if_neg hlen]
    refine ⟨false,left,rfl,hleft,fun d b hd hne hb => ?_⟩
    obtain rfl : d=2*pos+1+1 := hd.resolve_left hne
    exact absurd (List.getElem?_eq_some_iff.mp hb).1 hlen

theorem sinkThen_ordered (ho : Orders O lt all) (hall : ∀ y∈heap,y∈all) (hx : x∈all)
    (hpos : pos<heap.length) (hsub : Subtree startpos pos) (hole : Hole lt heap startpos pos) :
    ∃ h,sinkThen O startpos x heap pos=(.ok (),h) ∧ Heap lt h startpos := by
  induction hm : heap.length-pos using Nat.strongRecOn generalizing heap pos with
  | ind m ih =>
    by_cases hs : 2*pos+1<heap.length
    · obtain ⟨right,v,hpick,hget,hleast⟩ := picksRight_ordered ho hall hs
      have hlt := picksRight_lt hs hpick
      have hchild : IsChild pos (2*pos+1+right.toNat) := by
        cases right
        · exact .inl rfl
        · exact .inr rfl
      obtain ⟨h,hrun,hheap⟩ := ih _ (by rw [List.length_set]; omega)
        (mem_set hall (hall v (List.mem_of_getElem? hget))) (by rwa [List.length_set])
        (hsub.child hchild) (hole.descend hsub.le hchild hget hleast) rfl
      refine ⟨h,?_,hheap⟩
      rw [sinkThen,sink_step hs hpick hget]
      exact hrun
    · have hslot : (heap.set pos x)[pos]?=some x := List.getElem?_set_self hpos
      have hleaf : ∀ c b,IsChild pos c → (heap.set pos x)[c]?=some b → False := by
        intro c b hc hb
        have hlen := (List.getElem?_eq_some_iff.mp hb).1
        rw [List.length_set] at hlen
        rcases hc with hc | hc <;> omega
      have hhole : Hole lt (heap.set pos x) startpos pos := by
        constructor
        · intro k c a b hk hc hkp hcp ha hb
          rw [List.getElem?_set_ne (Ne.symm hkp)] at ha
          rw [List.getElem?_set_ne (Ne.symm hcp)] at hb
          exact hole.edges k c a b hk hc hkp hcp ha hb
        · intro k c a b _ _ hc _ hb
          exact (hleaf c b hc hb).elim
      rw [sinkThen,sink_stop hs]
      simp only [siftdown,hslot]
      exact bubble_ordered ho (mem_set hall hx) hx (by rwa [List.length_set]) hsub hhole
        fun c b hc hb => (hleaf c b hc hb).elim

theorem siftup_ordered (ho : Orders O lt all) (hall : ∀ y∈heap,y∈all) (hpos : pos<heap.length)
    (hheap : Heap lt heap (pos+1)) :
    ∃ h,siftup O heap pos=(.ok (),h) ∧ Heap lt h pos ∧ h.Perm heap := by
  have hget := List.getElem?_eq_getElem hpos
  generalize heap[pos]=newitem at hget
  obtain ⟨h,hrun,hh⟩ := sinkThen_ordered ho hall (hall newitem (List.mem_of_getElem? hget)) hpos
    .root hheap.open
  have hsift : siftup O heap pos=(.ok (),h) := by
    rw [siftup,hget]
    exact hrun
  exact ⟨h,hsift,hh,(siftup_contents hpos).1 h hsift⟩

end Sifts

section Operations

variable (O : Comparing α E)

/-- The items that come with an operation. -/
def Op.items : Op α → List α
  | .heappush item => [item]
  | .heappushpop item => [item]
  | .heapreplace item => [item]
  | _ => []

/-- What an operation returns and leaves: a minimum, and the heap but for the items exchanged. -/
def Done (lt : α → α → Bool) : Op α → List α → Except E α → List α → Prop
  | .heapify,heap,r,out => r=.ok O.nothing ∧ out.Perm heap
  | .heappush item,heap,r,out => r=.ok O.nothing ∧ out.Perm (item::heap)
  | .heappop,[],r,out => r=.error O.indexError ∧ out=[]
  | .heappop,m::rest,r,out =>
    ∃ v,r=.ok v ∧ (v::out).Perm (m::rest) ∧ ∀ y∈m::rest,lt y v=false
  | .heappushpop item,heap,r,out =>
    ∃ v,r=.ok v ∧ (v::out).Perm (item::heap) ∧ ∀ y∈item::heap,lt y v=false
  | .heapreplace _,[],r,out => r=.error O.indexError ∧ out=[]
  | .heapreplace item,m::rest,r,out =>
    ∃ v,r=.ok v ∧ (v::out).Perm (item::m::rest) ∧ v∈m::rest ∧ ∀ y∈m::rest,lt y v=false

/-- What an operation that raises leaves: all but the item on its way out. -/
def Spared : Op α → List α → List α → Prop
  | .heapify,heap,out => out.Perm heap
  | .heappush item,heap,out => out.Perm (item::heap)
  | .heappop,heap,out => out.Perm heap.tail
  | .heappushpop _,[],out => out=[]
  | .heappushpop item,m::rest,out =>
    match O.compareLt m item with
    | .ok true => out.Perm (item::rest)
    | _ => out.Perm (m::rest)
  | .heapreplace _,[],out => out=[]
  | .heapreplace item,_::rest,out => out.Perm (item::rest)

/-- An operation keeps the heap and loses nothing, even where a comparison raises. -/
structure Meets (op : Op α) (heap : List α) (result : Except E α×List α) : Prop where
  ordered : ∀ lt,Orders O lt (op.items++heap) → op=.heapify ∨ Heap lt heap 0 →
    Heap lt result.2 0 ∧ Done O lt op heap result.1 result.2
  spared : ∀ e,result.1=.error e → Spared O op heap result.2

variable {O} {lt : α → α → Bool} {heap rest all : List α} {m x item last : α}

theorem popMin_more : popMin O (m::rest++[last])=replaceRoot O (m::rest) m last := by
  rw [popMin,List.getLast?_concat,List.dropLast_concat]

theorem replaceRoot_ok {h : List α} (hsift : siftup O (item::rest) 0=(.ok (),h)) :
    replaceRoot O (m::rest) x item=(.ok x,h) := by
  rw [replaceRoot,List.set_cons_zero,hsift]

theorem replaceRoot_error {h : List α} {e : E} (hsift : siftup O (item::rest) 0=(.error e,h)) :
    replaceRoot O (m::rest) x item=(.error e,h) := by
  rw [replaceRoot,List.set_cons_zero,hsift]

theorem replaceRoot_spared :
    (∀ e,(replaceRoot O (m::rest) x item).1=.error e →
      (replaceRoot O (m::rest) x item).2.Perm (item::rest)) ↔ SiftKept O (item::rest) 0 := by
  rw [← (@siftup_contents _ _ O (item::rest) 0 (Nat.succ_pos _)).2]
  cases hsift : siftup O (item::rest) 0 with
  | mk r h =>
    cases r with
    | error e =>
      rw [replaceRoot_error hsift]
      constructor
      · intro hkept e' h' heq
        rw [← (Prod.mk.inj heq).2]
        exact hkept e rfl
      · exact fun hkept e' _ => hkept e h rfl
    | ok u =>
      rw [replaceRoot_ok hsift]
      refine iff_of_true (fun e heq => ?_) fun e h' heq => ?_
      · cases heq
      · cases (Prod.mk.inj heq).1

theorem heapify_contents {i : ℕ} (hi : i≤heap.length) :
    (∀ h,heapifyBelow O i heap=(.ok (),h) → h.Perm heap) ∧
    ((∀ e h,heapifyBelow O i heap=(.error e,h) → h.Perm heap) ↔ SiftsKept O i heap) := by
  induction i generalizing heap with
  | zero =>
    refine ⟨fun h heq => ?_,iff_of_true (fun e h heq => ?_) trivial⟩
    · rw [← (Prod.mk.inj heq).2]
    · cases (Prod.mk.inj heq).1
  | succ i ih =>
    obtain ⟨hok,herror⟩ := @siftup_contents _ _ O heap i hi
    rw [heapifyBelow,SiftsKept,← herror]
    cases hsift : siftup O heap i with
    | mk r g =>
      cases r with
      | error e =>
        refine ⟨fun h heq => ?_,?_⟩
        · cases (Prod.mk.inj heq).1
        · refine (and_iff_left fun h heq => ?_).symm
          cases (Prod.mk.inj heq).1
      | ok u =>
        have hperm := hok g hsift
        obtain ⟨hrest,hkept⟩ := @ih g (by rw [hperm.length_eq]; omega)
        refine ⟨fun h heq => (hrest h heq).trans hperm,?_⟩
        constructor
        · intro h
          refine ⟨fun e h heq => ?_,fun k heq => ?_⟩
          · cases (Prod.mk.inj heq).1
          · obtain rfl := (Prod.mk.inj heq).2
            exact hkept.mp fun e k hk => (h e k hk).trans hperm.symm
        · rintro ⟨-,h⟩ e k hk
          exact (hkept.mpr (h g rfl) e k hk).trans hperm

theorem map_error {γ δ : Type} {f : γ → δ} {r : Except E γ} {e : E} :
    r.map f=.error e ↔ r=.error e := by
  cases r with
  | error d =>
    constructor
    · intro h
      obtain rfl : d=e := Except.error.inj h
      rfl
    · intro h
      obtain rfl : d=e := Except.error.inj h
      rfl
  | ok v =>
    refine iff_of_false (fun h => ?_) fun h => ?_
    · cases h
    · cases h

/-- An operation loses nothing when it raises if and only if it raises before it moves an item. -/
theorem spared_iff (op : Op α) (heap : List α) :
    (∀ e,(op.run O heap).1=.error e → Spared O op heap (op.run O heap).2) ↔ op.Kept O heap := by
  cases op with
  | heapify =>
    have h := (@heapify_contents _ _ O heap (heap.length/2) (by omega)).2
    rw [Op.Kept,← h]
    constructor
    · intro hs e g heq
      have hrun := hs e (map_error.mpr (congrArg Prod.fst heq))
      rwa [Spared,Op.run,heapify,heq] at hrun
    · intro hs e heq
      exact hs e _ (Prod.ext (map_error.mp heq) rfl)
  | heappush item =>
    have hlast : (heap++[item])[heap.length]?=some item := by simp
    have h := (@siftdown_contents _ _ O _ 0 _ _ hlast).2
    have hpos : (heap++[item]).length-1=heap.length := by simp
    have hperm : (heap++[item]).Perm (item::heap) := List.perm_append_singleton item heap
    rw [Op.Kept,← h]
    constructor
    · intro hs e g heq
      have hpush : heappush O heap item=(.error e,g) := by rw [heappush,hpos,heq]
      have hrun := hs e (map_error.mpr (congrArg Prod.fst hpush))
      rw [Spared,Op.run,hpush] at hrun
      exact hrun.trans hperm.symm
    · intro hs e heq
      have hpush : heappush O heap item=siftdown O (heap++[item]) 0 heap.length := by
        rw [heappush,hpos]
      have hsift := hs e _ (Prod.ext (hpush ▸ map_error.mp heq) rfl)
      rw [Spared,Op.run,hpush]
      exact hsift.trans hperm
  | heappop =>
    rcases List.eq_nil_or_concat' heap with rfl | ⟨init,last,rfl⟩
    · refine iff_of_true (fun e _ => List.Perm.refl []) fun last hlast => ?_
      cases hlast
    · rw [Op.Kept,List.getLast?_concat,List.dropLast_concat]
      cases init with
      | nil =>
        refine iff_of_true (fun e h => ?_) fun last _ h => absurd rfl h
        cases h
      | cons m rest =>
        have hperm : (rest++[last]).Perm (last::rest) := List.perm_append_singleton last rest
        have hsame : (∀ l∈some last,m::rest≠[] → SiftKept O ((m::rest).set 0 l) 0) ↔
            SiftKept O (last::rest) 0 := by
          constructor
          · exact fun h => h last rfl (List.cons_ne_nil _ _)
          · rintro h l hl -
            obtain rfl := Option.some.inj hl
            exact h
        rw [hsame,← replaceRoot_spared (m := m) (x := m),Op.run,popMin_more]
        exact ⟨fun h e he => (h e he).trans hperm,fun h e he => (h e he).trans hperm.symm⟩
  | heappushpop item =>
    cases heap with
    | nil =>
      refine iff_of_true (fun e h => ?_) trivial
      cases h
    | cons m rest =>
      rw [Op.Kept,Op.run,heappushpop]
      simp only [Spared]
      cases O.compareLt m item with
      | error e =>
        refine iff_of_true (fun _ _ => List.Perm.refl _) fun h => ?_
        cases h
      | ok less =>
        cases less with
        | false =>
          refine iff_of_true (fun _ _ => List.Perm.refl _) fun h => ?_
          cases h
        | true =>
          rw [← replaceRoot_spared (m := m) (x := m)]
          exact ⟨fun h _ => h,fun h => h rfl⟩
  | heapreplace item =>
    cases heap with
    | nil => exact iff_of_true (fun _ _ => rfl) trivial
    | cons m rest => exact replaceRoot_spared

theorem replaceRoot_ordered (ho : Orders O lt all) (hall : ∀ y∈item::rest,y∈all)
    (hheap : Heap lt (m::rest) 0) :
    ∃ h,replaceRoot O (m::rest) x item=(.ok x,h) ∧ Heap lt h 0 ∧ h.Perm (item::rest) := by
  have hbelow : Heap lt (item::rest) 1 := by
    intro k c a b hk hc ha hb
    have hlt := hc.lt
    obtain ⟨k,rfl⟩ : ∃ j,k=j+1 := ⟨k-1,by omega⟩
    obtain ⟨c,rfl⟩ : ∃ j,c=j+1 := ⟨c-1,by omega⟩
    exact hheap (k+1) (c+1) a b (Nat.zero_le _) hc ha hb
  obtain ⟨h,hrun,hh,hperm⟩ := siftup_ordered ho hall (Nat.succ_pos _) hbelow
  exact ⟨h,replaceRoot_ok hrun,hh,hperm⟩

theorem heapify_ordered (ho : Orders O lt all) {i : ℕ} (hall : ∀ y∈heap,y∈all)
    (hi : i≤heap.length) (hheap : Heap lt heap i) :
    ∃ h,heapifyBelow O i heap=(.ok (),h) ∧ Heap lt h 0 ∧ h.Perm heap := by
  induction i generalizing heap with
  | zero => exact ⟨heap,rfl,hheap,List.Perm.refl _⟩
  | succ i ih =>
    obtain ⟨g,hrun,hg,hperm⟩ := siftup_ordered ho hall hi hheap
    obtain ⟨h,hrest,hh,hrestPerm⟩ := ih (fun y hy => hall y (hperm.mem_iff.mp hy))
      (by rw [hperm.length_eq]; omega) hg
    refine ⟨h,?_,hh,hrestPerm.trans hperm⟩
    rw [heapifyBelow,hrun]
    exact hrest

theorem heappush_ordered (ho : Orders O lt (item::heap)) (hheap : Heap lt heap 0) :
    ∃ h,heappush O heap item=(.ok (),h) ∧ Heap lt h 0 ∧ h.Perm (item::heap) := by
  have hlast : (heap++[item])[heap.length]?=some item := by simp
  have hpos : (heap++[item]).length-1=heap.length := by simp
  have hperm : (heap++[item]).Perm (item::heap) := List.perm_append_singleton item heap
  have hunder : Under lt (heap++[item]) item heap.length := by
    intro c b hc hb
    have hlen := (List.getElem?_eq_some_iff.mp hb).1
    have hlt := hc.lt
    rw [List.length_append,List.length_singleton] at hlen
    omega
  obtain ⟨h,hrun,hh⟩ := bubble_ordered ho (fun y hy => hperm.mem_iff.mp hy) List.mem_cons_self
    (by simp) (Subtree.ofZero _) (hheap.push item) hunder
  have hdown : siftdown O (heap++[item]) 0 heap.length=(.ok (),h) := by
    rw [siftdown,hlast]
    exact hrun
  refine ⟨h,?_,hh,((siftdown_contents hlast).1 h hdown).trans hperm⟩
  rw [heappush,hpos,hdown]

theorem Heap.init {ys : List α} (h : Heap lt (heap++ys) 0) : Heap lt heap 0 := by
  intro k c a b hk hc ha hb
  refine h k c a b hk hc ?_ ?_
  · rw [List.getElem?_append_left (List.getElem?_eq_some_iff.mp ha).1,ha]
  · rw [List.getElem?_append_left (List.getElem?_eq_some_iff.mp hb).1,hb]

theorem popMin_ordered (ho : Orders O lt (m::rest)) (hheap : Heap lt (m::rest) 0) :
    ∃ h,popMin O (m::rest)=(.ok m,h) ∧ Heap lt h 0 ∧ (m::h).Perm (m::rest) := by
  rcases List.eq_nil_or_concat' rest with rfl | ⟨init,last,rfl⟩
  · refine ⟨[],rfl,fun k c a b _ _ ha => ?_,List.Perm.refl _⟩
    cases ha
  · have hperm : (init++[last]).Perm (last::init) := List.perm_append_singleton last init
    have hall : ∀ y∈last::init,y∈m::(init++[last]) := fun y hy =>
      List.mem_cons_of_mem _ (hperm.mem_iff.mpr hy)
    obtain ⟨h,hrun,hh,hrest⟩ := replaceRoot_ordered (x := m) ho hall
      (@Heap.init _ _ (m::init) [last] hheap)
    refine ⟨h,?_,hh,(hrest.trans hperm.symm).cons m⟩
    rw [← List.cons_append,popMin_more,hrun]

theorem Orders.sub (ho : Orders O lt all) {ys : List α} (hys : ∀ y∈ys,y∈all) : Orders O lt ys where
  weak := ho.weak.sub hys
  answers a ha b hb := ho.answers a (hys a ha) b (hys b hb)

theorem heap_leaves (lt : α → α → Bool) (heap : List α) : Heap lt heap (heap.length/2) := by
  intro k c a b hk hc _ hb
  have hlen := (List.getElem?_eq_some_iff.mp hb).1
  rcases hc with hc | hc <;> omega

theorem heappushpop_ordered (ho : Orders O lt (item::heap)) (hheap : Heap lt heap 0) :
    ∃ v h,heappushpop O heap item=(.ok v,h) ∧ Heap lt h 0 ∧ (v::h).Perm (item::heap) ∧
      ∀ y∈item::heap,lt y v=false := by
  cases heap with
  | nil =>
    refine ⟨item,[],rfl,hheap,List.Perm.refl _,fun y hy => ?_⟩
    obtain rfl := List.mem_singleton.mp hy
    exact ho.weak.irrefl List.mem_cons_self
  | cons m rest =>
    have hm : m∈item::m::rest := List.mem_cons_of_mem _ List.mem_cons_self
    have hi : item∈item::m::rest := List.mem_cons_self
    have hleast := hheap.root_least (ho.weak.sub fun y hy => List.mem_cons_of_mem _ hy) rfl
    rw [heappushpop]
    cases hless : lt m item with
    | true =>
      obtain ⟨h,hrun,hh,hperm⟩ := @replaceRoot_ordered _ _ _ _ _ _ _ m item ho
        (fun y hy => (List.mem_cons.mp hy).elim (fun he => he ▸ hi) fun hy =>
          List.mem_cons_of_mem _ (List.mem_cons_of_mem _ hy)) hheap
      refine ⟨m,h,?_,hh,(hperm.cons m).trans (List.Perm.swap item m rest),?_⟩
      · simp only [ho.answers m hm item hi,hless]
        exact hrun
      · exact List.forall_mem_cons.mpr ⟨ho.weak.asymm m hm item hi hless,hleast⟩
    | false =>
      refine ⟨item,m::rest,?_,hheap,List.Perm.refl _,?_⟩
      · simp only [ho.answers m hm item hi,hless]
      · refine List.forall_mem_cons.mpr ⟨ho.weak.irrefl hi,fun y hy => ?_⟩
        cases hlt : lt y item with
        | false => rfl
        | true =>
          rcases ho.weak.cotrans y (List.mem_cons_of_mem _ hy) m hm item hi hlt with hbad | hbad
          · rw [hleast y hy] at hbad
            cases hbad
          · rw [hless] at hbad
            cases hbad

/-- With comparisons by a strict weak order, every operation does what it is to do. -/
theorem run_ordered (op : Op α) (ho : Orders O lt (op.items++heap))
    (hheap : op=.heapify ∨ Heap lt heap 0) :
    Heap lt (op.run O heap).2 0 ∧ Done O lt op heap (op.run O heap).1 (op.run O heap).2 := by
  cases op with
  | heapify =>
    have ho : Orders O lt heap := ho
    obtain ⟨h,hrun,hh,hperm⟩ := heapify_ordered ho (fun y hy => hy) (by omega)
      (heap_leaves lt heap)
    have hall : heapify O heap=(.ok (),h) := hrun
    rw [Op.run,hall]
    exact ⟨hh,rfl,hperm⟩
  | heappush item =>
    have ho : Orders O lt (item::heap) := ho
    have hheap := hheap.resolve_left (fun h => by cases h)
    obtain ⟨h,hrun,hh,hperm⟩ := heappush_ordered ho hheap
    rw [Op.run,hrun]
    exact ⟨hh,rfl,hperm⟩
  | heappop =>
    have hheap := hheap.resolve_left (fun h => by cases h)
    cases heap with
    | nil => exact ⟨hheap,rfl,rfl⟩
    | cons m rest =>
      obtain ⟨h,hrun,hh,hperm⟩ := popMin_ordered ho hheap
      rw [Op.run,hrun]
      exact ⟨hh,m,rfl,hperm,hheap.root_least ho.weak rfl⟩
  | heappushpop item =>
    have ho : Orders O lt (item::heap) := ho
    have hheap := hheap.resolve_left (fun h => by cases h)
    obtain ⟨v,h,hrun,hh,hperm,hleast⟩ := heappushpop_ordered ho hheap
    rw [Op.run,hrun]
    exact ⟨hh,v,rfl,hperm,hleast⟩
  | heapreplace item =>
    have ho : Orders O lt (item::heap) := ho
    have hheap := hheap.resolve_left (fun h => by cases h)
    cases heap with
    | nil => exact ⟨hheap,rfl,rfl⟩
    | cons m rest =>
      have hweak := ho.weak.sub fun y (hy : y∈m::rest) => List.mem_cons_of_mem _ hy
      obtain ⟨h,hrun,hh,hperm⟩ := @replaceRoot_ordered _ _ _ _ _ _ _ m item ho
        (fun y hy => (List.mem_cons.mp hy).elim (fun he => he ▸ List.mem_cons_self) fun hy =>
          List.mem_cons_of_mem _ (List.mem_cons_of_mem _ hy)) hheap
      have hreplace : heapreplace O (m::rest) item=(.ok m,h) := hrun
      rw [Op.run,hreplace]
      exact ⟨hh,m,rfl,(hperm.cons m).trans (List.Perm.swap item m rest),List.mem_cons_self,
        hheap.root_least hweak rfl⟩

theorem meets_iff (op : Op α) (heap : List α) : Meets O op heap (op.run O heap) ↔ op.Kept O heap := by
  rw [← spared_iff]
  exact ⟨Meets.spared,fun h => ⟨fun _ ho hheap => run_ordered op ho hheap,h⟩⟩

/-- `heappop`, a number of times. -/
def drain (O : Comparing α E) : ℕ → List α → Except E (List α)×List α
  | 0,heap => (.ok [],heap)
  | n+1,heap =>
    match popMin O heap with
    | (.error e,h) => (.error e,h)
    | (.ok v,h) => ((drain O n h).1.map (v::·),(drain O n h).2)

/-- Popping everything gives the items in order. -/
theorem drain_sorted {n : ℕ} (hn : heap.length=n) (ho : Orders O lt heap)
    (hheap : Heap lt heap 0) :
    ∃ out,drain O n heap=(.ok out,[]) ∧ out.Perm heap ∧ out.Pairwise fun a b => lt b a=false := by
  induction n generalizing heap with
  | zero =>
    obtain rfl := List.length_eq_zero_iff.mp hn
    exact ⟨[],rfl,List.Perm.refl _,List.Pairwise.nil⟩
  | succ n ih =>
    cases heap with
    | nil => cases hn
    | cons m rest =>
      obtain ⟨h,hrun,hh,hperm⟩ := popMin_ordered ho hheap
      have hlen : h.length=n := Nat.succ.inj (hperm.length_eq.trans hn)
      have hsub : ∀ y∈h,y∈m::rest := fun y hy => hperm.mem_iff.mp (List.mem_cons_of_mem _ hy)
      obtain ⟨out,hdrain,hout,hsorted⟩ := ih hlen (ho.sub hsub) hh
      have hleast := hheap.root_least ho.weak rfl
      refine ⟨m::out,?_,(hout.cons m).trans hperm,List.pairwise_cons.mpr ⟨fun y hy => ?_,hsorted⟩⟩
      · rw [drain,hrun]
        simp only [hdrain]
        rfl
      · exact hleast y (hsub y (hout.mem_iff.mp hy))

end Operations

end Heapq
end InterpretThis
