import InterpretThis.Framework.StableSort

namespace InterpretThis.Sort

/-- What a sort calls: the key function, the two ways to ask `a<b`, and `sort_by`. -/
structure Machine (E V σ : Type) where
  applyKey : V → V → σ → Except E V×σ
  isInstance : V → Bool
  lt : V → V → σ → Except E Bool×σ
  compareLt : σ → V → V → Except E Bool
  sortBy : List (V×V) → Asking (V×V)

variable {E V σ : Type}

section Definitions

variable (M : Machine E V σ)

def applyKeyFn (key : Option V) (item : V) (s : σ) : Except E V×σ :=
  match key with
  | some f => M.applyKey f item s
  | none => (.ok item,s)

/-- Every item with its key. -/
def decorate (key : Option V) : List V → σ → Except E (List (V×V))×σ
  | [],s => (.ok [],s)
  | item::items,s =>
    match applyKeyFn M key item s with
    | (.error e,t) => (.error e,t)
    | (.ok k,t) =>
      match decorate key items t with
      | (.error e,u) => (.error e,u)
      | (.ok rest,u) => (.ok ((k,item)::rest),u)

def goesBefore (reverse : Bool) (entry existing : V×V) (s : σ) : Except E Bool×σ :=
  if reverse then M.lt existing.1 entry.1 s else M.lt entry.1 existing.1 s

def insertEntry (reverse : Bool) (entry : V×V) : List (V×V) → σ → Except E (List (V×V))×σ
  | [],s => (.ok [entry],s)
  | existing::rest,s =>
    match goesBefore M reverse entry existing s with
    | (.error e,t) => (.error e,t)
    | (.ok true,t) => (.ok (entry::existing::rest),t)
    | (.ok false,t) =>
      match insertEntry reverse entry rest t with
      | (.error e,u) => (.error e,u)
      | (.ok out,u) => (.ok (existing::out),u)

/-- The path for keys that are instances. -/
def insertionPath (reverse : Bool) : List (V×V) → List (V×V) → σ → Except E (List (V×V))×σ
  | sorted,[],s => (.ok sorted,s)
  | sorted,entry::rest,s =>
    match insertEntry M reverse entry sorted s with
    | (.error e,t) => (.error e,t)
    | (.ok next,t) => insertionPath reverse next rest t

def reverseOrdering : Ordering → Ordering
  | .lt => .gt
  | .eq => .eq
  | .gt => .lt

def comparison (reverse : Bool) (s : σ) (a b : V×V) : Except E Ordering :=
  match M.compareLt s a.1 b.1 with
  | .error e => .error e
  | .ok true => .ok (if reverse then reverseOrdering .lt else .lt)
  | .ok false =>
    match M.compareLt s b.1 a.1 with
    | .error e => .error e
    | .ok true => .ok (if reverse then reverseOrdering .gt else .gt)
    | .ok false => .ok (if reverse then reverseOrdering .eq else .eq)

/-- The path through `sort_by`, whose comparator keeps the first error. -/
def sortByPath (reverse : Bool) (decorated : List (V×V)) (s : σ) : Except E (List (V×V)) :=
  match (M.sortBy decorated).run (Asking.capture (comparison M reverse s)) none with
  | (_,some e) => .error e
  | (out,none) => .ok out

/-- Decorate, sort, undecorate. -/
def dsuSort (items : List V) (key : Option V) (reverse : Bool) (s : σ) : Except E (List V)×σ :=
  match decorate M key items s with
  | (.error e,t) => (.error e,t)
  | (.ok decorated,t) =>
    if decorated.any fun d => M.isInstance d.1 then
      match insertionPath M reverse [] decorated t with
      | (.error e,u) => (.error e,u)
      | (.ok out,u) => (.ok (out.map Prod.snd),u)
    else
      match sortByPath M reverse decorated t with
      | .error e => (.error e,t)
      | .ok out => (.ok (out.map Prod.snd),t)

end Definitions

section Law

variable {M : Machine E V σ}

/-- The order of the decorated entries: by key, the other way round for `reverse`. -/
def entryLt (lt : V → V → Bool) (reverse : Bool) (a b : V×V) : Bool :=
  if reverse then lt b.1 a.1 else lt a.1 b.1

/-- Both ways to compare the keys answer by one strict weak order, whenever they answer. -/
structure Comparable (M : Machine E V σ) (lt : V → V → Bool) (keys : List V) : Prop where
  weak : WeakOrder lt keys
  slot : ∀a∈keys, ∀b∈keys, ∀s r t, M.lt a b s=(.ok r,t) → r=lt a b
  builtin : ∀a∈keys, ∀b∈keys, ∀s r, M.compareLt s a b=.ok r → r=lt a b

variable {lt : V → V → Bool} {decorated : List (V×V)}

theorem entryLt_weak (h : WeakOrder lt (decorated.map Prod.fst)) (reverse : Bool) :
    WeakOrder (entryLt lt reverse) decorated := by
  have key : ∀a∈decorated, a.1∈decorated.map Prod.fst :=
    fun a ha => List.mem_map.mpr ⟨a,ha,rfl⟩
  constructor
  · intro a ha b hb hlt
    unfold entryLt at hlt ⊢
    cases reverse with
    | true => exact h.asymm _ (key b hb) _ (key a ha) hlt
    | false => exact h.asymm _ (key a ha) _ (key b hb) hlt
  · intro a ha b hb c hc hlt
    unfold entryLt at hlt ⊢
    cases reverse with
    | true => exact (h.cotrans _ (key c hc) _ (key b hb) _ (key a ha) hlt).symm
    | false => exact h.cotrans _ (key a ha) _ (key b hb) _ (key c hc) hlt

/-- `reverse` turns the answer round, which is the answer of the order turned round. -/
theorem comparison_pure (h : Comparable M lt (decorated.map Prod.fst)) (reverse : Bool) (s : σ)
    {a b : V×V} (ha : a∈decorated) (hb : b∈decorated) {o : Ordering}
    (ho : comparison M reverse s a b=.ok o) : o=compareBy (entryLt lt reverse) a b := by
  have ka : a.1∈decorated.map Prod.fst := List.mem_map.mpr ⟨a,ha,rfl⟩
  have kb : b.1∈decorated.map Prod.fst := List.mem_map.mpr ⟨b,hb,rfl⟩
  unfold comparison at ho
  cases hab : M.compareLt s a.1 b.1 with
  | error e => rw [hab] at ho; cases ho
  | ok r =>
    have hr := h.builtin _ ka _ kb s r hab
    rw [hab] at ho
    cases r with
    | true =>
      have hba := h.weak.asymm _ ka _ kb hr.symm
      cases ho
      unfold compareBy entryLt
      cases reverse <;> simp [← hr,hba,reverseOrdering]
    | false =>
      dsimp only at ho
      cases hba : M.compareLt s b.1 a.1 with
      | error e => rw [hba] at ho; cases ho
      | ok r' =>
        have hr' := h.builtin _ kb _ ka s r' hba
        rw [hba] at ho
        cases r' with
        | true =>
          cases ho
          unfold compareBy entryLt
          cases reverse <;> simp [← hr,← hr',reverseOrdering]
        | false =>
          cases ho
          unfold compareBy entryLt
          cases reverse <;> simp [← hr,← hr',reverseOrdering]

variable {reverse : Bool}

theorem sortByPath_stable (hs : StableAlgorithm M.sortBy)
    (h : Comparable M lt (decorated.map Prod.fst)) {s : σ} {out : List (V×V)}
    (hrun : sortByPath M reverse decorated s=.ok out) :
    StableSorted (entryLt lt reverse) decorated out := by
  unfold sortByPath at hrun
  have hclean := Asking.run_clean
    (fun a ha b hb o ho => comparison_pure h reverse s ha hb ho) (hs.within decorated)
  rcases hr : (M.sortBy decorated).run (Asking.capture (comparison M reverse s)) none with ⟨l,e⟩
  rw [hr] at hrun hclean
  cases e with
  | some e => cases hrun
  | none =>
    have hl : out=l := (Except.ok.inj hrun).symm
    have hanswer : l=_ := hclean rfl
    rw [hl,hanswer]
    exact hs.sorts decorated _ (entryLt_weak h.weak reverse)

theorem goesBefore_pure (h : Comparable M lt (decorated.map Prod.fst)) {entry existing : V×V}
    (he : entry∈decorated) (hx : existing∈decorated) {s t : σ} {r : Bool}
    (hg : goesBefore M reverse entry existing s=(.ok r,t)) :
    r=entryLt lt reverse entry existing := by
  have ke : entry.1∈decorated.map Prod.fst := List.mem_map.mpr ⟨entry,he,rfl⟩
  have kx : existing.1∈decorated.map Prod.fst := List.mem_map.mpr ⟨existing,hx,rfl⟩
  unfold goesBefore at hg
  unfold entryLt
  cases reverse with
  | true => exact h.slot _ kx _ ke s r t hg
  | false => exact h.slot _ ke _ kx s r t hg

theorem insertEntry_stable {pre : List (V×V)} {entry : V×V}
    (h : Comparable M lt ((pre++[entry]).map Prod.fst)) :
    ∀(after before : List (V×V)) {s t : σ} {out : List (V×V)},
      StableSorted (entryLt lt reverse) pre (before++after) →
      (∀x∈before, entryLt lt reverse entry x=false) →
      insertEntry M reverse entry after s=(.ok out,t) →
      StableSorted (entryLt lt reverse) (pre++[entry]) (before++out)
  | [],before,s,t,out,hp,hb,hrun => by
    have ho : out=[entry] := (Except.ok.inj (Prod.mk.inj hrun).1).symm
    rw [ho]
    exact hp.insert (entryLt_weak h.weak reverse) hb (by simp)
  | x::after,before,s,t,out,hp,hb,hrun => by
    have he : entry∈pre++[entry] := by simp
    have hx : x∈pre++[entry] := List.mem_append_left _ (hp.perm.mem_iff.mp (by simp))
    unfold insertEntry at hrun
    rcases hg : goesBefore M reverse entry x s with ⟨r,u⟩
    rw [hg] at hrun
    cases r with
    | error e => cases hrun
    | ok r =>
      have hr := goesBefore_pure h he hx hg
      cases r with
      | true =>
        have ho : out=entry::x::after := (Except.ok.inj (Prod.mk.inj hrun).1).symm
        rw [ho]
        apply hp.insert (entryLt_weak h.weak reverse) hb
        intro y hy
        have hxy : x=y := by simpa using hy
        rw [← hxy,← hr]
      | false =>
        dsimp only at hrun
        rcases hi : insertEntry M reverse entry after u with ⟨r',w⟩
        rw [hi] at hrun
        cases r' with
        | error e => cases hrun
        | ok rest =>
          have ho : out=x::rest := (Except.ok.inj (Prod.mk.inj hrun).1).symm
          have hrest : StableSorted (entryLt lt reverse) (pre++[entry]) ((before++[x])++rest) := by
            apply insertEntry_stable h after (before++[x]) (by simpa using hp) ?_ hi
            intro y hy
            rcases List.mem_append.mp hy with hm | hm
            · exact hb y hm
            · rw [List.mem_singleton.mp hm,← hr]
          rw [ho]
          simpa using hrest

theorem insertionPath_stable :
    ∀(rest pre sorted : List (V×V)) {s t : σ} {out : List (V×V)},
      Comparable M lt ((pre++rest).map Prod.fst) → StableSorted (entryLt lt reverse) pre sorted →
      insertionPath M reverse sorted rest s=(.ok out,t) →
      StableSorted (entryLt lt reverse) (pre++rest) out
  | [],pre,sorted,s,t,out,_,hp,hrun => by
    have ho : out=sorted := (Except.ok.inj (Prod.mk.inj hrun).1).symm
    simpa [ho] using hp
  | entry::rest,pre,sorted,s,t,out,h,hp,hrun => by
    have hsub : ∀a∈(pre++[entry]).map Prod.fst, a∈(pre++entry::rest).map Prod.fst := by
      intro a ha
      simp only [List.map_append,List.map_cons,List.mem_append,List.mem_cons] at ha ⊢
      tauto
    have h' : Comparable M lt ((pre++[entry]).map Prod.fst) := {
      weak := h.weak.sub hsub
      slot := fun a ha b hb => h.slot a (hsub a ha) b (hsub b hb)
      builtin := fun a ha b hb => h.builtin a (hsub a ha) b (hsub b hb) }
    unfold insertionPath at hrun
    rcases hi : insertEntry M reverse entry sorted s with ⟨r,u⟩
    rw [hi] at hrun
    cases r with
    | error e => cases hrun
    | ok next =>
      have hnext : StableSorted (entryLt lt reverse) (pre++[entry]) next := by
        simpa using insertEntry_stable h' sorted [] hp (by simp) hi
      have hfinal := insertionPath_stable rest (pre++[entry]) next (by simpa using h) hnext hrun
      simpa using hfinal

theorem paths_agree (hs : StableAlgorithm M.sortBy) (h : Comparable M lt (decorated.map Prod.fst))
    {s t u : σ} {out out' : List (V×V)} (hi : insertionPath M reverse [] decorated s=(.ok out,t))
    (hb : sortByPath M reverse decorated u=.ok out') : out=out' := by
  have hleft : StableSorted (entryLt lt reverse) decorated out :=
    insertionPath_stable decorated [] [] h stableSorted_nil hi
  have hright := sortByPath_stable hs h hb
  exact hleft.unique (entryLt_weak h.weak reverse) hright

theorem decorate_items {key : Option V} : ∀(items : List V) {s t : σ} {decorated : List (V×V)},
    decorate M key items s=(.ok decorated,t) → decorated.map Prod.snd=items
  | [],s,t,decorated,h => by
    have hd : decorated=[] := (Except.ok.inj (Prod.mk.inj h).1).symm
    rw [hd]
    rfl
  | item::items,s,t,decorated,h => by
    unfold decorate at h
    rcases hk : applyKeyFn M key item s with ⟨r,u⟩
    rw [hk] at h
    cases r with
    | error e => cases h
    | ok k =>
      dsimp only at h
      rcases hr : decorate M key items u with ⟨r',w⟩
      rw [hr] at h
      cases r' with
      | error e => cases h
      | ok rest =>
        have hd : decorated=(k,item)::rest := (Except.ok.inj (Prod.mk.inj h).1).symm
        rw [hd,List.map_cons,decorate_items items hr]

/-- `out` is the stable sort of the items by the keys that the key function gives them. -/
def SortedOf (M : Machine E V σ) (lt : V → V → Bool) (key : Option V) (reverse : Bool)
    (items : List V) (s : σ) (out : List V) : Prop :=
  ∃decorated t sorted, decorate M key items s=(.ok decorated,t) ∧
    StableSorted (entryLt lt reverse) decorated sorted ∧ out=sorted.map Prod.snd

theorem SortedOf.perm {key : Option V} {items out : List V} {s : σ}
    (h : SortedOf M lt key reverse items s out) : out.Perm items := by
  obtain ⟨decorated,t,sorted,hd,hs,rfl⟩ := h
  rw [← decorate_items items hd]
  exact hs.perm.map Prod.snd

/-- The keys that a sort computes can be compared. -/
def KeysComparable (M : Machine E V σ) (lt : V → V → Bool) (key : Option V) (items : List V)
    (s : σ) : Prop :=
  ∀decorated t, decorate M key items s=(.ok decorated,t) → Comparable M lt (decorated.map Prod.fst)

theorem dsuSort_sorted (hs : StableAlgorithm M.sortBy) {key : Option V} {items out : List V}
    {s t : σ} (h : KeysComparable M lt key items s)
    (hrun : dsuSort M items key reverse s=(.ok out,t)) :
    SortedOf M lt key reverse items s out := by
  unfold dsuSort at hrun
  rcases hd : decorate M key items s with ⟨r,u⟩
  rw [hd] at hrun
  cases r with
  | error e => cases hrun
  | ok decorated =>
    have hc := h decorated u hd
    dsimp only at hrun
    split_ifs at hrun with hany
    · rcases hi : insertionPath M reverse [] decorated u with ⟨r',w⟩
      rw [hi] at hrun
      cases r' with
      | error e => cases hrun
      | ok sorted =>
        have ho : out=sorted.map Prod.snd := (Except.ok.inj (Prod.mk.inj hrun).1).symm
        exact ⟨decorated,u,sorted,hd,insertionPath_stable decorated [] [] hc stableSorted_nil hi,ho⟩
    · cases hb : sortByPath M reverse decorated u with
      | error e => rw [hb] at hrun; cases hrun
      | ok sorted =>
        rw [hb] at hrun
        have ho : out=sorted.map Prod.snd := (Except.ok.inj (Prod.mk.inj hrun).1).symm
        exact ⟨decorated,u,sorted,hd,sortByPath_stable hs hc hb,ho⟩

end Law

section Calls

/-- The machine with a record of the items that the key function was called on. -/
def Machine.logged (M : Machine E V σ) : Machine E V (σ×List V) where
  applyKey f item s := ((M.applyKey f item s.1).1,((M.applyKey f item s.1).2,s.2++[item]))
  isInstance := M.isInstance
  lt a b s := ((M.lt a b s.1).1,((M.lt a b s.1).2,s.2))
  compareLt s := M.compareLt s.1
  sortBy := M.sortBy

variable {M : Machine E V σ}

/-- The items that the key function is called on before it fails, if it does. -/
def keyCalls (M : Machine E V σ) (f : V) : List V → σ → List V
  | [],_ => []
  | item::items,s =>
    match M.applyKey f item s with
    | (.error _,_) => [item]
    | (.ok _,t) => item::keyCalls M f items t

theorem keyCalls_initial (f : V) : ∀(items : List V) (s : σ), keyCalls M f items s <+: items
  | [],s => List.prefix_refl []
  | item::items,s => by
    unfold keyCalls
    rcases M.applyKey f item s with ⟨r,t⟩
    cases r with
    | error e => exact ⟨items,rfl⟩
    | ok k => exact (List.prefix_cons_inj item).mpr (keyCalls_initial f items t)

theorem decorate_logged (f : V) : ∀(items : List V) (s : σ) (log : List V),
    decorate M.logged (some f) items (s,log)=((decorate M (some f) items s).1,
      ((decorate M (some f) items s).2,log++keyCalls M f items s))
  | [],s,log => by simp [decorate,keyCalls]
  | item::items,s,log => by
    have hl : applyKeyFn M.logged (some f) item (s,log)=((M.applyKey f item s).1,
      ((M.applyKey f item s).2,log++[item])) := rfl
    unfold decorate keyCalls
    rw [hl]
    have hp : applyKeyFn M (some f) item s=M.applyKey f item s := rfl
    rw [hp]
    rcases M.applyKey f item s with ⟨r,t⟩
    cases r with
    | error e => rfl
    | ok k =>
      dsimp only
      rw [decorate_logged f items t (log++[item])]
      rcases decorate M (some f) items t with ⟨r',u⟩
      cases r' <;> simp

theorem keyCalls_all (f : V) : ∀(items : List V) {s t : σ} {decorated : List (V×V)},
    decorate M (some f) items s=(.ok decorated,t) → keyCalls M f items s=items
  | [],_,_,_,_ => rfl
  | item::items,s,t,decorated,h => by
    unfold decorate at h
    unfold keyCalls
    have hp : applyKeyFn M (some f) item s=M.applyKey f item s := rfl
    rw [hp] at h
    rcases ha : M.applyKey f item s with ⟨r,u⟩
    rw [ha] at h
    cases r with
    | error e => cases h
    | ok k =>
      dsimp only at h ⊢
      rcases hr : decorate M (some f) items u with ⟨r',w⟩
      rw [hr] at h
      cases r' with
      | error e => cases h
      | ok rest => rw [keyCalls_all f items hr]

theorem insertEntry_logged (reverse : Bool) (entry : V×V) :
    ∀(sorted : List (V×V)) (s : σ) (log : List V),
      insertEntry M.logged reverse entry sorted (s,log)=((insertEntry M reverse entry sorted s).1,
        ((insertEntry M reverse entry sorted s).2,log))
  | [],s,log => rfl
  | existing::rest,s,log => by
    have hg : goesBefore M.logged reverse entry existing (s,log)=
        ((goesBefore M reverse entry existing s).1,((goesBefore M reverse entry existing s).2,log)) := by
      unfold goesBefore
      cases reverse <;> rfl
    unfold insertEntry
    rw [hg]
    rcases goesBefore M reverse entry existing s with ⟨r,t⟩
    cases r with
    | error e => rfl
    | ok r =>
      cases r with
      | true => rfl
      | false =>
        dsimp only
        rw [insertEntry_logged reverse entry rest t log]
        rcases insertEntry M reverse entry rest t with ⟨r',u⟩
        cases r' <;> rfl

theorem insertionPath_logged (reverse : Bool) :
    ∀(entries sorted : List (V×V)) (s : σ) (log : List V),
      insertionPath M.logged reverse sorted entries (s,log)=
        ((insertionPath M reverse sorted entries s).1,
          ((insertionPath M reverse sorted entries s).2,log))
  | [],sorted,s,log => rfl
  | entry::rest,sorted,s,log => by
    unfold insertionPath
    rw [insertEntry_logged reverse entry sorted s log]
    rcases insertEntry M reverse entry sorted s with ⟨r,t⟩
    cases r with
    | error e => rfl
    | ok next => exact insertionPath_logged reverse rest next t log

theorem dsuSort_logged (f : V) (reverse : Bool) (items : List V) (s : σ) (log : List V) :
    dsuSort M.logged items (some f) reverse (s,log)=((dsuSort M items (some f) reverse s).1,
      ((dsuSort M items (some f) reverse s).2,log++keyCalls M f items s)) := by
  unfold dsuSort
  rw [decorate_logged f items s log]
  rcases decorate M (some f) items s with ⟨r,t⟩
  cases r with
  | error e => rfl
  | ok decorated =>
    have hi : M.logged.isInstance=M.isInstance := rfl
    have hb : sortByPath M.logged reverse decorated (t,log++keyCalls M f items s)=
      sortByPath M reverse decorated t := rfl
    dsimp only
    rw [hi]
    split_ifs
    · rw [insertionPath_logged reverse decorated [] t]
      rcases insertionPath M reverse [] decorated t with ⟨r',u⟩
      cases r' <;> rfl
    · rw [hb]
      cases sortByPath M reverse decorated t <;> rfl

theorem dsuSort_keyCalls {f : V} {reverse : Bool} {items out : List V} {s t : σ}
    (hrun : dsuSort M items (some f) reverse s=(.ok out,t)) : keyCalls M f items s=items := by
  unfold dsuSort at hrun
  rcases hd : decorate M (some f) items s with ⟨r,u⟩
  rw [hd] at hrun
  cases r with
  | error e => cases hrun
  | ok decorated => exact keyCalls_all f items hd

end Calls

end InterpretThis.Sort
