import InterpretThis.Heap.Storage
import Mathlib.Data.List.Basic

namespace InterpretThis.Heap

variable {R A : Type}

section Reading

mutual

/-- A stored value shows what a reference stands for: a handle is the object of its address, and
inline contents show, slot by slot, those of the object. -/
def reads (H : Nat → Object A) : Val A → Ref A → Prop
  | .atom a,v => v=.atom a
  | .shared k i,v => v=.ref i ∧ (H i).kind=k ∧ k.isShared=true
  | .inline k slots,v => ∃i, v=.ref i ∧ (H i).kind=k ∧ k.isShared=false ∧ readsAll H slots (H i).slots

def readsAll (H : Nat → Object A) : List (Val A) → List (Ref A) → Prop
  | [],[] => True
  | c::cs,v::vs => reads H c v ∧ readsAll H cs vs
  | _,_ => False

end

theorem readsAll_getElem {H : Nat → Object A} {cs : List (Val A)} {vs : List (Ref A)}
    (h : readsAll H cs vs) (i : Nat) : Option.Rel (reads H) cs[i]? vs[i]? := by
  induction cs generalizing vs i with
  | nil =>
    cases vs with
    | nil => exact .none
    | cons v vs => exact h.elim
  | cons c cs ih =>
    cases vs with
    | nil => exact h.elim
    | cons v vs =>
      cases i with
      | zero => exact .some h.1
      | succ i => exact ih h.2 i

theorem readsAll_of_getElem {H : Nat → Object A} {cs : List (Val A)} {vs : List (Ref A)}
    (h : ∀i : Nat, Option.Rel (reads H) cs[i]? vs[i]?) : readsAll H cs vs := by
  induction cs generalizing vs with
  | nil =>
    cases vs with
    | nil => trivial
    | cons v vs => nomatch h 0
  | cons c cs ih =>
    cases vs with
    | nil => nomatch h 0
    | cons v vs =>
      have hhead := h 0
      have htail : ∀i : Nat, Option.Rel (reads H) cs[i]? vs[i]? := fun i => h (i+1)
      cases hhead with
      | some hr => exact ⟨hr,ih htail⟩

theorem rel_bind {X X' Y Y' : Type} {P : X → X' → Prop} {Q : Y → Y' → Prop} {o : Option X}
    {o' : Option X'} {f : X → Option Y} {g : X' → Option Y'} (h : Option.Rel P o o')
    (hfg : ∀x y, P x y → Option.Rel Q (f x) (g y)) : Option.Rel Q (o.bind f) (o'.bind g) := by
  cases h with
  | none => exact .none
  | some hr => exact hfg _ _ hr

theorem rel_map {X X' Y Y' : Type} {P : X → X' → Prop} {Q : Y → Y' → Prop} {o : Option X}
    {o' : Option X'} {f : X → Y} {g : X' → Y'} (h : Option.Rel P o o')
    (hfg : ∀x y, P x y → Q (f x) (g y)) : Option.Rel Q (o.map f) (o'.map g) := by
  cases h with
  | none => exact .none
  | some hr => exact .some (hfg _ _ hr)

/-- One slot is replaced and the others stay. -/
theorem modify_reads {H H' : Nat → Object A} {cs : List (Val A)} {vs : List (Ref A)}
    (hall : readsAll H cs vs) {j : Nat} {f : Val A → Val A}
    (hj : ∀c v, vs[j]?=some v → reads H c v → reads H' (f c) v)
    (hother : ∀l c v, l≠j → vs[l]?=some v → reads H c v → reads H' c v) :
    readsAll H' (cs.modify j f) vs := by
  apply readsAll_of_getElem
  intro l
  have hslot := readsAll_getElem hall l
  have hother' := hother l
  rw [List.getElem?_modify]
  generalize cs[l]?=o at hslot ⊢
  generalize hv : vs[l]?=o' at hslot hother' ⊢
  cases hslot with
  | none => exact .none
  | @some c v hcv =>
    by_cases hl : j=l
    · subst hl
      simp only [if_true]
      exact .some (hj c v hv hcv)
    · simp only [hl,if_false]
      exact .some (hother' c v (fun h => hl h.symm) rfl hcv)

mutual

/-- Changing an object is not noticed by a value that holds it at most as a handle. -/
theorem reads_update {H : Nat → Object A} {t : Nat} {ob : Object A} :
    ∀(c : Val A) (v : Ref A), reads H c v →
      (v.Contains H t → ob.kind=(H t).kind ∧ (H t).kind.isShared=true) →
      reads (Function.update H t ob) c v
  | .atom a,v,hr,_ => hr
  | .shared k i,v,hr,ht => by
    obtain ⟨rfl,hk,hs⟩ := hr
    refine ⟨rfl,?_,hs⟩
    by_cases hi : i=t
    · subst hi
      rw [Function.update_self,(ht ⟨[],rfl⟩).1,hk]
    · rw [Function.update_of_ne hi,hk]
  | .inline k slots,v,hr,ht => by
    obtain ⟨i,rfl,hk,hs,hall⟩ := hr
    have hi : i≠t := by
      rintro rfl
      have hshared := (ht ⟨[],rfl⟩).2
      rw [hk,hs] at hshared
      exact Bool.false_ne_true hshared
    refine ⟨i,rfl,?_,hs,?_⟩
    · rw [Function.update_of_ne hi,hk]
    · rw [Function.update_of_ne hi]
      refine readsAll_update slots (H i).slots hall ?_
      rintro v hv ⟨path,hpath⟩
      obtain ⟨j,hj⟩ := List.mem_iff_getElem?.mp hv
      refine ht ⟨j::path,?_⟩
      simp [Ref.inlineWalk,hk,hs,hj,hpath]

theorem readsAll_update {H : Nat → Object A} {t : Nat} {ob : Object A} :
    ∀(cs : List (Val A)) (vs : List (Ref A)), readsAll H cs vs →
      (∀v∈vs, v.Contains H t → ob.kind=(H t).kind ∧ (H t).kind.isShared=true) →
      readsAll (Function.update H t ob) cs vs
  | [],[],_,_ => trivial
  | c::cs,v::vs,hr,ht =>
    ⟨reads_update c v hr.1 (ht v List.mem_cons_self),
      readsAll_update cs vs hr.2 (fun w hw => ht w (List.mem_cons_of_mem v hw))⟩
  | [],_::_,hr,_ => hr.elim
  | _::_,[],hr,_ => hr.elim

end

end Reading

section Agreement

def Ref.Below (n : Nat) : Ref A → Prop
  | .atom _ => True
  | .ref i => i<n

/-- The store shows the world: every variable and every shared object does. -/
structure Agrees (σ : Store R A) (α : World R A) : Prop where
  next : σ.next=α.next
  vars : ∀r, Option.Rel (reads α.heap) (σ.vars r) (α.vars r)
  heap : ∀i, (α.heap i).kind.isShared=true → readsAll α.heap (σ.heap i) (α.heap i).slots
  below : ∀r v, α.vars r=some v → v.Below α.next
  slots : ∀i, ∀v∈(α.heap i).slots, v.Below α.next

theorem agrees_empty : Agrees (Store.empty : Store R A) World.empty := by
  refine ⟨rfl,fun r => .none,fun i hi => ?_,fun r v h => ?_,fun i v h => ?_⟩
  · exact absurd hi Bool.false_ne_true
  · simp [World.empty] at h
  · simp [World.empty] at h

variable {σ : Store R A} {α : World R A}

theorem slots_agree (h : Agrees σ α) {c : Val A} {v : Ref A} (hr : reads α.heap c v) :
    readsAll α.heap (c.slots σ.heap) (v.slots α.heap) := by
  cases c with
  | atom a =>
    obtain rfl : v=.atom a := hr
    trivial
  | shared k i =>
    obtain ⟨rfl,hk,hs⟩ := hr
    exact h.heap i (hk ▸ hs)
  | inline k s =>
    obtain ⟨i,rfl,-,-,hall⟩ := hr
    exact hall

theorem walk_agrees (h : Agrees σ α) (path : List Nat) {c : Val A} {v : Ref A}
    (hr : reads α.heap c v) : Option.Rel (reads α.heap) (c.walk σ.heap path) (v.walk α.heap path) := by
  induction path generalizing c v with
  | nil => exact .some hr
  | cons i path ih =>
    have hslot := readsAll_getElem (slots_agree h hr) i
    exact rel_bind hslot fun c v hchild => ih hchild

theorem read_agrees (h : Agrees σ α) (p : Place R) :
    Option.Rel (reads α.heap) (σ.read p) (α.read p) := by
  exact rel_bind (h.vars p.root) fun c v hr => walk_agrees h p.path hr

theorem operand_agrees (h : Agrees σ α) (o : Operand R A) :
    Option.Rel (reads α.heap) (o.eval .atom σ.read) (o.eval .atom α.read) := by
  cases o with
  | atom a => exact .some rfl
  | place p => exact read_agrees h p

theorem source_agrees (h : Agrees σ α) {cs : List (Val A)} {vs : List (Ref A)}
    (hs : readsAll α.heap cs vs) (s : Source R A) :
    Option.Rel (reads α.heap) (s.eval .atom σ.read cs) (s.eval .atom α.read vs) := by
  cases s with
  | keep i => exact readsAll_getElem hs i
  | value o => exact operand_agrees h o

theorem assemble_agrees {Y : Type} {H : Nat → Object A} {f : Y → Option (Val A)}
    {g : Y → Option (Ref A)} (hfg : ∀y, Option.Rel (reads H) (f y) (g y)) (ys : List Y) :
    Option.Rel (readsAll H) (assemble f ys) (assemble g ys) := by
  induction ys with
  | nil => exact .some trivial
  | cons y ys ih =>
    apply rel_bind (hfg y)
    intro c v hr
    exact rel_map ih fun cs vs hrs => ⟨hr,hrs⟩

theorem assemble_mem {X Y : Type} {f : Y → Option X} {ys : List Y} {xs : List X}
    (h : assemble f ys=some xs) {x : X} (hx : x∈xs) : ∃y∈ys, f y=some x := by
  induction ys generalizing xs with
  | nil =>
    simp only [assemble,Option.some.injEq] at h
    subst h
    exact absurd hx List.not_mem_nil
  | cons y ys ih =>
    simp only [assemble,Option.bind_eq_some_iff,Option.map_eq_some_iff] at h
    obtain ⟨w,hw,rest,hrest,rfl⟩ := h
    rcases List.mem_cons.mp hx with rfl | hin
    · exact ⟨y,List.mem_cons_self,hw⟩
    · obtain ⟨z,hz,hfz⟩ := ih hrest hin
      exact ⟨z,List.mem_cons_of_mem y hz,hfz⟩

theorem navigates_agrees (h : Agrees σ α) (path : List Nat) {c : Val A} {v : Ref A}
    (hr : reads α.heap c v) : c.navigates σ.heap path=v.navigates α.heap path := by
  induction path generalizing c v with
  | nil => rfl
  | cons i path ih =>
    have hkind : c.isNavigable=v.isNavigable α.heap := by
      cases c with
      | atom a =>
        obtain rfl : v=.atom a := hr
        rfl
      | shared k j =>
        obtain ⟨rfl,hk,-⟩ := hr
        simp only [Val.isNavigable,Ref.isNavigable,hk]
      | inline k s =>
        obtain ⟨j,rfl,hk,-,-⟩ := hr
        simp only [Val.isNavigable,Ref.isNavigable,hk]
    have hslot := readsAll_getElem (slots_agree h hr) i
    simp only [Val.navigates,Ref.navigates,hkind]
    generalize (c.slots σ.heap)[i]?=o at hslot ⊢
    generalize (v.slots α.heap)[i]?=o' at hslot ⊢
    cases hslot with
    | none => rfl
    | some hchild => simp only [ih hchild]

/-- Navigation ends in the same slot on both sides. -/
theorem locate_agrees (h : Agrees σ α) (path : List Nat) (base : Base R) (inner : List Nat)
    {c : Val A} {v : Ref A} (hr : reads α.heap c v) :
    c.locate σ.heap base inner path=v.locate α.heap base inner path := by
  induction path generalizing c v base inner with
  | nil => rfl
  | cons i path ih =>
    have hslot := readsAll_getElem (slots_agree h hr) i
    simp only [Val.locate,Ref.locate]
    generalize (c.slots σ.heap)[i]?=o at hslot ⊢
    generalize (v.slots α.heap)[i]?=o' at hslot ⊢
    cases hslot with
    | none => rfl
    | some hchild =>
      cases c with
      | atom a =>
        obtain rfl : v=.atom a := hr
        exact ih _ _ hchild
      | shared k j =>
        obtain ⟨rfl,hk,hs⟩ := hr
        simp only [hk,hs,if_true]
        exact ih _ _ hchild
      | inline k s =>
        obtain ⟨j,rfl,hk,hs,-⟩ := hr
        simp only [hk,hs,Bool.false_eq_true,if_false]
        exact ih _ _ hchild

theorem slot_agrees (h : Agrees σ α) (p : Place R) : σ.slot p=α.slot p := by
  have hroot := h.vars p.root
  simp only [Store.slot,World.slot]
  generalize σ.vars p.root=o at hroot ⊢
  generalize α.vars p.root=o' at hroot ⊢
  cases hroot with
  | none => rfl
  | some hr => exact locate_agrees h p.path _ _ hr

theorem places_agree (h : Agrees σ α) (p : Place R) : σ.navigates p=α.navigates p := by
  have hroot := h.vars p.root
  simp only [Store.navigates,World.navigates]
  generalize σ.vars p.root=o at hroot ⊢
  generalize α.vars p.root=o' at hroot ⊢
  cases hroot with
  | none => rfl
  | some hr => exact navigates_agrees h p.path hr

end Agreement

section Fresh

variable {α : World R A}

theorem walk_below {n : Nat} (hslots : ∀i, ∀v∈(α.heap i).slots, v.Below n) (path : List Nat)
    {v w : Ref A} (hv : v.Below n) (h : v.walk α.heap path=some w) : w.Below n := by
  induction path generalizing v with
  | nil =>
    obtain rfl : v=w := Option.some.inj h
    exact hv
  | cons i path ih =>
    simp only [Ref.walk,Option.bind_eq_some_iff] at h
    obtain ⟨c,hc,hrest⟩ := h
    cases v with
    | atom a => simp [Ref.slots] at hc
    | ref j => exact ih (hslots j c (List.mem_of_getElem? hc)) hrest

theorem inlineWalk_walk {H : Nat → Object A} (path : List Nat) {v w : Ref A}
    (h : v.inlineWalk H path=some w) : v.walk H path=some w := by
  induction path generalizing v with
  | nil => exact h
  | cons i path ih =>
    cases v with
    | atom a => simp [Ref.inlineWalk] at h
    | ref j =>
      simp only [Ref.inlineWalk] at h
      split at h
      · exact absurd h (by simp)
      · simp only [Option.bind_eq_some_iff] at h
        obtain ⟨c,hc,hrest⟩ := h
        simp only [Ref.walk,Ref.slots,hc,Option.bind_some]
        exact ih hrest

theorem below_not_contains (hslots : ∀i, ∀v∈(α.heap i).slots, v.Below α.next) {v : Ref A}
    (hv : v.Below α.next) : ¬v.Contains α.heap α.next := by
  rintro ⟨path,h⟩
  have hbelow : Ref.Below α.next (.ref α.next : Ref A) :=
    walk_below hslots path hv (inlineWalk_walk path h)
  exact Nat.lt_irrefl _ hbelow

end Fresh

section Slots

variable {α : World R A}

theorem inlineWalk_append {H : Nat → Object A} (a b : List Nat) (v : Ref A) :
    v.inlineWalk H (a++b)=(v.inlineWalk H a).bind fun w => w.inlineWalk H b := by
  induction a generalizing v with
  | nil => rfl
  | cons i a ih =>
    cases v with
    | atom x => rfl
    | ref j =>
      simp only [List.cons_append,Ref.inlineWalk]
      split
      · rfl
      · rw [Option.bind_assoc]
        congr 1
        funext c
        exact ih c

/-- What lies at the positions of a variable or of a shared object. -/
def Holds (α : World R A) (w : Ref A) : Base R×List Nat → Prop
  | (.root r,inner) => ∃v, α.vars r=some v ∧ v.inlineWalk α.heap inner=some w
  | (.object i,inner) => (α.heap i).kind.isShared=true ∧ ∃j path v, inner=j::path ∧
      (α.heap i).slots[j]?=some v ∧ v.inlineWalk α.heap path=some w

theorem occurs_iff_holds (t : Nat) (b : Base R×List Nat) : α.Occurs t b ↔ Holds α (.ref t) b := by
  obtain ⟨base,inner⟩ := b
  cases base with
  | root r => exact Iff.rfl
  | object i => exact Iff.rfl

theorem holds_append {v w : Ref A} {base : Base R} {inner : List Nat} (more : List Nat)
    (h : Holds α v (base,inner)) (hw : v.inlineWalk α.heap more=some w) :
    Holds α w (base,inner++more) := by
  cases base with
  | root r =>
    obtain ⟨u,hu,hwalk⟩ := h
    refine ⟨u,hu,?_⟩
    rw [inlineWalk_append,hwalk,Option.bind_some,hw]
  | object i =>
    obtain ⟨hs,j,path,u,rfl,hu,hwalk⟩ := h
    refine ⟨hs,j,path++more,u,rfl,hu,?_⟩
    rw [inlineWalk_append,hwalk,Option.bind_some,hw]

theorem locate_holds (path : List Nat) {base : Base R} {inner : List Nat} {v w : Ref A}
    (h : Holds α v (base,inner)) (hw : v.walk α.heap path=some w) :
    Holds α w (v.locate α.heap base inner path) := by
  induction path generalizing v base inner with
  | nil =>
    obtain rfl : v=w := Option.some.inj hw
    exact h
  | cons i path ih =>
    simp only [Ref.walk,Option.bind_eq_some_iff] at hw
    obtain ⟨c,hc,hrest⟩ := hw
    simp only [Ref.locate,hc]
    cases v with
    | atom a => simp [Ref.slots] at hc
    | ref j =>
      simp only [Ref.slots] at hc
      cases hs : (α.heap j).kind.isShared with
      | true =>
        have hchild : Holds α c (.object j,[i]) := ⟨hs,i,[],c,rfl,hc,rfl⟩
        simpa [hs] using ih hchild hrest
      | false =>
        have hstep : (Ref.ref j).inlineWalk α.heap [i]=some c := by
          simp [Ref.inlineWalk,hs,hc]
        simpa [hs] using ih (holds_append [i] h hstep) hrest

theorem slot_occurs {p : Place R} {t : Nat} (h : α.read p=some (.ref t)) :
    α.Occurs t (α.slot p) := by
  rw [occurs_iff_holds]
  simp only [World.read,Option.bind_eq_some_iff] at h
  obtain ⟨v,hv,hw⟩ := h
  have hroot : Holds α v (.root p.root,[]) := ⟨v,hv,rfl⟩
  simp only [World.slot,hv]
  exact locate_holds p.path hroot hw

theorem slots_not_contain {t : Nat} {b : Base R×List Nat} (hb : α.Occurs t b)
    (hu : ∀b', α.Occurs t b' → b'=b) (hs : (α.heap t).kind.isShared=false) {v : Ref A}
    (hv : v∈(α.heap t).slots) : ¬v.Contains α.heap t := by
  rintro ⟨path,hpath⟩
  obtain ⟨base,inner⟩ := b
  obtain ⟨j,hj⟩ := List.mem_iff_getElem?.mp hv
  have hloop : (Ref.ref t).inlineWalk α.heap (j::path)=some (.ref t) := by
    simp [Ref.inlineWalk,hs,hj,hpath]
  have hagain := holds_append (j::path) ((occurs_iff_holds t _).mp hb) hloop
  have heq := hu _ ((occurs_iff_holds t _).mpr hagain)
  have hlength := congrArg (fun b : Base R×List Nat => b.2.length) heq
  simp at hlength

/-- Replacing the one copy of an object inside a value makes the value show the new object. -/
theorem replace_reads {H : Nat → Object A} {t : Nat} {new : List (Val A)} {slots : List (Ref A)}
    (hs : (H t).kind.isShared=false)
    (hnew : readsAll (Function.update H t ⟨(H t).kind,slots⟩) new slots) (path : List Nat)
    {c : Val A} {v : Ref A} (hr : reads H c v) (hpath : v.inlineWalk H path=some (.ref t))
    (hu : ∀path', v.inlineWalk H path'=some (.ref t) → path'=path) :
    reads (Function.update H t ⟨(H t).kind,slots⟩) (c.replaceAt (.inline (H t).kind new) path) v := by
  induction path generalizing c v with
  | nil =>
    obtain rfl : v=.ref t := Option.some.inj hpath
    simp only [Val.replaceAt]
    exact ⟨t,rfl,by simp,hs,by simpa using hnew⟩
  | cons j path ih =>
    cases v with
    | atom a => simp [Ref.inlineWalk] at hpath
    | ref i =>
      have hi : i≠t := by
        rintro rfl
        exact absurd (hu [] rfl) (List.cons_ne_nil j path).symm
      cases his : (H i).kind.isShared with
      | true => simp [Ref.inlineWalk,his] at hpath
      | false =>
        simp only [Ref.inlineWalk,his,Bool.false_eq_true,if_false,Option.bind_eq_some_iff] at hpath
        obtain ⟨w,hw,hrest⟩ := hpath
        have hinner : ∀(l : Nat) (u : Ref A) (q : List Nat), (H i).slots[l]?=some u →
            u.inlineWalk H q=some (.ref t) → l=j ∧ q=path := by
          intro l u q hl hq
          have hwalk : (Ref.ref i).inlineWalk H (l::q)=some (.ref t) := by
            simp [Ref.inlineWalk,his,hl,hq]
          simpa using hu (l::q) hwalk
        cases c with
        | atom a => exact absurd hr (by simp [reads])
        | shared k addr =>
          obtain ⟨heq,hk,hshared⟩ := hr
          obtain rfl : i=addr := Ref.ref.inj heq
          rw [← hk,his] at hshared
          exact absurd hshared Bool.false_ne_true
        | inline k s =>
          obtain ⟨i',heq,hk,hks,hall⟩ := hr
          obtain rfl : i=i' := Ref.ref.inj heq
          refine ⟨i,rfl,by rw [Function.update_of_ne hi,hk],hks,?_⟩
          rw [Function.update_of_ne hi]
          apply modify_reads hall
          · intro d u hd hchild
            obtain rfl : w=u := Option.some.inj (hw.symm.trans hd)
            exact ih hchild hrest fun q hq => (hinner j w q hw hq).2
          · intro l d u hl hd hchild
            refine reads_update d u hchild ?_
            rintro ⟨q,hq⟩
            exact absurd (hinner l u q hd hq).1 hl

end Slots

section Steps

variable {σ : Store R A} {α : World R A}

mutual

/-- A reference is shown by one stored value only. -/
theorem reads_unique {H : Nat → Object A} :
    ∀(c d : Val A) (v : Ref A), reads H c v → reads H d v → c=d
  | .atom a,.atom b,v,hc,hd => by
    obtain rfl : v=.atom a := hc
    obtain rfl : a=b := Ref.atom.inj hd
    rfl
  | .shared k i,.shared l j,v,hc,hd => by
    obtain ⟨rfl,rfl,-⟩ := hc
    obtain ⟨heq,rfl,-⟩ := hd
    obtain rfl : i=j := Ref.ref.inj heq
    rfl
  | .inline k s,.inline l t,v,hc,hd => by
    obtain ⟨i,rfl,rfl,-,hs⟩ := hc
    obtain ⟨j,heq,rfl,-,ht⟩ := hd
    obtain rfl : i=j := Ref.ref.inj heq
    rw [readsAll_unique s t _ hs ht]
  | .shared k i,.inline l t,v,hc,hd => by
    obtain ⟨rfl,rfl,hs⟩ := hc
    obtain ⟨j,heq,hk,ht,-⟩ := hd
    obtain rfl : i=j := Ref.ref.inj heq
    rw [← hk,hs] at ht
    exact absurd ht.symm Bool.false_ne_true
  | .inline k s,.shared l j,v,hc,hd => by
    obtain ⟨rfl,rfl,hs⟩ := hd
    obtain ⟨i,heq,hk,ht,-⟩ := hc
    obtain rfl : j=i := Ref.ref.inj heq
    rw [← hk,hs] at ht
    exact absurd ht.symm Bool.false_ne_true
  | .atom a,.shared l j,v,hc,hd => by
    obtain rfl : v=.atom a := hc
    exact nomatch hd.1
  | .atom a,.inline l t,v,hc,hd => by
    obtain rfl : v=.atom a := hc
    obtain ⟨j,heq,-⟩ := hd
    cases heq
  | .shared k i,.atom b,v,hc,hd => by
    obtain rfl : v=.atom b := hd
    exact nomatch hc.1
  | .inline k s,.atom b,v,hc,hd => by
    obtain rfl : v=.atom b := hd
    obtain ⟨j,heq,-⟩ := hc
    cases heq

theorem readsAll_unique {H : Nat → Object A} :
    ∀(cs ds : List (Val A)) (vs : List (Ref A)), readsAll H cs vs → readsAll H ds vs → cs=ds
  | [],[],_,_,_ => rfl
  | c::cs,d::ds,v::vs,hc,hd => by
    rw [reads_unique c d v hc.1 hd.1,readsAll_unique cs ds vs hc.2 hd.2]
  | [],_::_,[],_,hd => hd.elim
  | [],_::_,_::_,hc,_ => hc.elim
  | _::_,[],[],hc,_ => hc.elim
  | _::_,[],_::_,_,hd => hd.elim
  | _::_,_::_,[],hc,_ => hc.elim

end

/-- The value lies at the positions of a variable or of shared storage. -/
def Store.Shows (σ : Store R A) (c : Val A) : Base R×List Nat → Prop
  | (.root r,inner) => ∃u, σ.vars r=some u ∧ u.walk σ.heap inner=some c
  | (.object i,inner) => ∃j path u, inner=j::path ∧ (σ.heap i)[j]?=some u ∧
      u.walk σ.heap path=some c

theorem walk_append {heap : Nat → List (Val A)} (a b : List Nat) (c : Val A) :
    c.walk heap (a++b)=(c.walk heap a).bind fun d => d.walk heap b := by
  induction a generalizing c with
  | nil => rfl
  | cons i a ih =>
    simp only [List.cons_append,Val.walk,Option.bind_assoc]
    congr 1
    funext d
    exact ih d

theorem shows_append {c d : Val A} {base : Base R} {inner : List Nat} (more : List Nat)
    (h : σ.Shows c (base,inner)) (hd : c.walk σ.heap more=some d) :
    σ.Shows d (base,inner++more) := by
  cases base with
  | root r =>
    obtain ⟨u,hu,hwalk⟩ := h
    refine ⟨u,hu,?_⟩
    rw [walk_append,hwalk,Option.bind_some,hd]
  | object i =>
    obtain ⟨j,path,u,rfl,hu,hwalk⟩ := h
    refine ⟨j,path++more,u,rfl,hu,?_⟩
    rw [walk_append,hwalk,Option.bind_some,hd]

theorem locate_shows (path : List Nat) {base : Base R} {inner : List Nat} {c d : Val A}
    (h : σ.Shows c (base,inner)) (hd : c.walk σ.heap path=some d) :
    σ.Shows d (c.locate σ.heap base inner path) := by
  induction path generalizing c base inner with
  | nil =>
    obtain rfl : c=d := Option.some.inj hd
    exact h
  | cons i path ih =>
    simp only [Val.walk,Option.bind_eq_some_iff] at hd
    obtain ⟨child,hchild,hrest⟩ := hd
    have hone : c.walk σ.heap [i]=some child := by
      simp only [Val.walk,hchild,Option.bind_some]
    cases c with
    | atom a => simp [Val.slots] at hchild
    | shared k addr =>
      simp only [Val.locate,hchild]
      exact ih ⟨i,[],child,rfl,hchild,rfl⟩ hrest
    | inline k s =>
      simp only [Val.locate,hchild]
      exact ih (shows_append [i] h hone) hrest

theorem slot_shows {p : Place R} {c : Val A} (h : σ.read p=some c) : σ.Shows c (σ.slot p) := by
  simp only [Store.read,Option.bind_eq_some_iff] at h
  obtain ⟨u,hu,hwalk⟩ := h
  have hroot : σ.Shows u (.root p.root,[]) := ⟨u,hu,rfl⟩
  simp only [Store.slot,hu]
  exact locate_shows p.path hroot hwalk

theorem modify_same {X : Type} {l : List X} {j : Nat} {x : X} {f : X → X} (h : l[j]?=some x)
    (hf : f x=x) : l.modify j f=l := by
  apply List.ext_getElem?
  intro i
  rw [List.getElem?_modify]
  by_cases hij : j=i
  · subst hij
    rw [h]
    simp [hf]
  · simp [hij]

theorem replaceAt_same {heap : Nat → List (Val A)} (path : List Nat) {c d : Val A}
    (h : c.walk heap path=some d) : c.replaceAt d path=c := by
  induction path generalizing c with
  | nil => exact (Option.some.inj h).symm
  | cons i path ih =>
    cases c with
    | atom a => rfl
    | shared k addr => rfl
    | inline k s =>
      simp only [Val.walk,Val.slots,Option.bind_eq_some_iff] at h
      obtain ⟨child,hchild,hrest⟩ := h
      simp only [Val.replaceAt]
      rw [modify_same hchild (ih hrest)]

/-- Writing what is there changes nothing. -/
theorem write_same [DecidableEq R] {p : Place R} {c : Val A} (h : σ.read p=some c) :
    σ.write c (σ.slot p)=σ := by
  have hshows := slot_shows h
  generalize σ.slot p=b at hshows ⊢
  obtain ⟨base,inner⟩ := b
  cases base with
  | root r =>
    obtain ⟨u,hu,hwalk⟩ := hshows
    simp only [Store.write,Store.put,hu,Option.map_some,replaceAt_same inner hwalk]
    rw [← hu,Function.update_eq_self]
  | object i =>
    obtain ⟨j,path,u,rfl,hu,hwalk⟩ := hshows
    have hslots : (σ.heap i).modify j (fun v => v.replaceAt c path)=σ.heap i :=
      modify_same hu (replaceAt_same path hwalk)
    simp only [Store.write,Store.setSlots,hslots,Function.update_eq_self]

theorem put_agrees [DecidableEq R] (h : Agrees σ α) (r : R) {c : Option (Val A)} {v : Option (Ref A)}
    (hr : Option.Rel (reads α.heap) c v) (hb : ∀w, v=some w → w.Below α.next) :
    Agrees (σ.put r c) (α.put r v) := by
  refine ⟨h.next,fun x => ?_,h.heap,fun x w hw => ?_,h.slots⟩
  · by_cases hx : x=r
    · subst hx
      simpa [Store.put,World.put] using hr
    · simpa [Store.put,World.put,hx] using h.vars x
  · by_cases hx : x=r
    · subst hx
      exact hb w (by simpa [World.put] using hw)
    · exact h.below x w (by simpa [World.put,hx] using hw)

theorem Ref.Below.mono {m n : Nat} (hmn : m≤ n) {v : Ref A} (h : v.Below m) : v.Below n := by
  cases v with
  | atom a => trivial
  | ref i => exact Nat.lt_of_lt_of_le h hmn

def Store.alloc (σ : Store R A) (kind : Kind) (cs : List (Val A)) : Store R A :=
  {if kind.isShared then σ.setSlots σ.next cs else σ with next := σ.next+1}

def World.alloc (α : World R A) (kind : Kind) (vs : List (Ref A)) : World R A :=
  {α.setObject α.next ⟨kind,vs⟩ with next := α.next+1}

theorem alloc_agrees (h : Agrees σ α) (kind : Kind) {cs : List (Val A)} {vs : List (Ref A)}
    (hr : readsAll α.heap cs vs) (hb : ∀v∈vs, v.Below α.next) :
    Agrees (σ.alloc kind cs) (α.alloc kind vs) ∧ reads (α.alloc kind vs).heap
      (if kind.isShared then .shared kind σ.next else .inline kind cs) (.ref α.next) := by
  -- nothing that existed before holds the new object
  have hfresh : ∀v : Ref A, v.Below α.next → v.Contains α.heap α.next →
      kind=(α.heap α.next).kind ∧ (α.heap α.next).kind.isShared=true :=
    fun v hv hc => absurd hc (below_not_contains h.slots hv)
  have hall : readsAll (Function.update α.heap α.next ⟨kind,vs⟩) cs vs :=
    readsAll_update cs vs hr fun v hv => hfresh v (hb v hv)
  refine ⟨⟨?_,fun r => ?_,fun i hi => ?_,fun r v hv => ?_,fun i v hv => ?_⟩,?_⟩
  · simp only [Store.alloc,World.alloc,h.next]
  · have hvars : (σ.alloc kind cs).vars r=σ.vars r := by
      simp only [Store.alloc]
      split <;> rfl
    rw [hvars]
    have hold := h.vars r
    have hbelow := h.below r
    simp only [World.alloc,World.setObject]
    generalize σ.vars r=o at hold ⊢
    generalize α.vars r=o' at hold hbelow ⊢
    cases hold with
    | none => exact .none
    | @some c v hcv => exact .some (reads_update c v hcv (hfresh v (hbelow v rfl)))
  · by_cases hin : i=α.next
    · subst hin
      have hk : kind.isShared=true := by simpa [World.alloc,World.setObject] using hi
      simpa [World.alloc,World.setObject,Store.alloc,Store.setSlots,hk,h.next] using hall
    · have hi' : (α.heap i).kind.isShared=true := by
        simpa [World.alloc,World.setObject,hin] using hi
      have hheap : (σ.alloc kind cs).heap i=σ.heap i := by
        simp only [Store.alloc]
        split
        · simp [Store.setSlots,h.next,hin]
        · rfl
      rw [hheap]
      simp only [World.alloc,World.setObject,Function.update_of_ne hin]
      exact readsAll_update _ _ (h.heap i hi') fun v hv => hfresh v (h.slots i v hv)
  · exact (h.below r v hv).mono (Nat.le_succ _)
  · by_cases hin : i=α.next
    · subst hin
      have hv' : v∈vs := by simpa [World.alloc,World.setObject] using hv
      exact (hb v hv').mono (Nat.le_succ _)
    · have hv' : v∈(α.heap i).slots := by simpa [World.alloc,World.setObject,hin] using hv
      exact (h.slots i v hv').mono (Nat.le_succ _)
  · cases hk : kind.isShared with
    | true =>
      refine ⟨by rw [h.next],?_,hk⟩
      rw [h.next]
      simp [World.alloc,World.setObject]
    | false =>
      refine ⟨α.next,rfl,by simp [World.alloc,World.setObject],hk,?_⟩
      simpa [World.alloc,World.setObject] using hall

/-- A mutation of a shared object in its storage. -/
theorem setShared_agrees (h : Agrees σ α) {t : Nat} (hs : (α.heap t).kind.isShared=true)
    {cs : List (Val A)} {vs : List (Ref A)} (hr : readsAll α.heap cs vs)
    (hb : ∀v∈vs, v.Below α.next) :
    Agrees (σ.setSlots t cs) (α.setObject t ⟨(α.heap t).kind,vs⟩) := by
  refine ⟨h.next,fun r => ?_,fun i hi => ?_,h.below,fun i v hv => ?_⟩
  · have hold := h.vars r
    simp only [Store.setSlots,World.setObject]
    generalize σ.vars r=o at hold ⊢
    generalize α.vars r=o' at hold ⊢
    cases hold with
    | none => exact .none
    | @some c v hcv => exact .some (reads_update c v hcv fun _ => ⟨rfl,hs⟩)
  · by_cases hit : i=t
    · subst hit
      have hnew : readsAll (Function.update α.heap i ⟨(α.heap i).kind,vs⟩) cs vs :=
        readsAll_update cs vs hr fun _ _ _ => ⟨rfl,hs⟩
      simpa [Store.setSlots,World.setObject] using hnew
    · have hi' : (α.heap i).kind.isShared=true := by simpa [World.setObject,hit] using hi
      simp only [Store.setSlots,World.setObject,Function.update_of_ne hit]
      exact readsAll_update _ _ (h.heap i hi') fun _ _ _ => ⟨rfl,hs⟩
  · by_cases hit : i=t
    · subst hit
      exact hb v (by simpa [World.setObject] using hv)
    · exact h.slots i v (by simpa [World.setObject,hit] using hv)

theorem write_next [DecidableEq R] (σ : Store R A) (new : Val A) (b : Base R×List Nat) :
    (σ.write new b).next=σ.next := by
  obtain ⟨base,inner⟩ := b
  cases base with
  | root r => rfl
  | object i => cases inner <;> rfl

section Inline

variable [DecidableEq R] {t : Nat} {b : Base R×List Nat} {cs : List (Val A)} {vs : List (Ref A)}

/-- A variable holds the only copy exactly if it is the base of the slot. -/
theorem write_vars_read (h : Agrees σ α) (hs : (α.heap t).kind.isShared=false)
    (hb : α.Occurs t b) (hu : ∀b', α.Occurs t b' → b'=b)
    (hnew : readsAll (Function.update α.heap t ⟨(α.heap t).kind,vs⟩) cs vs) (r : R) :
    Option.Rel (reads (Function.update α.heap t ⟨(α.heap t).kind,vs⟩))
      ((σ.write (.inline (α.heap t).kind cs) b).vars r) (α.vars r) := by
  have hold := h.vars r
  by_cases hroot : ∃inner, b=(.root r,inner)
  · obtain ⟨inner,rfl⟩ := hroot
    obtain ⟨v,hv,hwalk⟩ := hb
    have honly : ∀path, v.inlineWalk α.heap path=some (.ref t) → path=inner := by
      intro path hpath
      have heq := hu (.root r,path) ⟨v,hv,hpath⟩
      exact congrArg Prod.snd heq
    simp only [Store.write,Store.put,Function.update_self]
    rw [hv] at hold ⊢
    generalize σ.vars r=o at hold ⊢
    cases hold with
    | some hcv => exact .some (replace_reads hs hnew inner hcv hwalk honly)
  · have hvars : (σ.write (.inline (α.heap t).kind cs) b).vars r=σ.vars r := by
      obtain ⟨base,inner⟩ := b
      cases base with
      | root q =>
        have hrq : r≠q := by
          rintro rfl
          exact hroot ⟨inner,rfl⟩
        simp [Store.write,Store.put,hrq]
      | object i => cases inner <;> rfl
    rw [hvars]
    generalize σ.vars r=o at hold ⊢
    generalize hv : α.vars r=o' at hold ⊢
    cases hold with
    | none => exact .none
    | @some c v hcv =>
      refine .some (reads_update c v hcv ?_)
      rintro ⟨path,hpath⟩
      exact absurd ⟨path,(hu (.root r,path) ⟨v,hv,hpath⟩).symm⟩ hroot

/-- So does a shared object. -/
theorem write_heap_read (h : Agrees σ α) (hs : (α.heap t).kind.isShared=false)
    (hb : α.Occurs t b) (hu : ∀b', α.Occurs t b' → b'=b)
    (hnew : readsAll (Function.update α.heap t ⟨(α.heap t).kind,vs⟩) cs vs) {i : Nat}
    (hi : (α.heap i).kind.isShared=true) :
    readsAll (Function.update α.heap t ⟨(α.heap t).kind,vs⟩)
      ((σ.write (.inline (α.heap t).kind cs) b).heap i) (α.heap i).slots := by
  by_cases hobject : ∃j inner, b=(.object i,j::inner)
  · obtain ⟨j,inner,rfl⟩ := hobject
    obtain ⟨-,j',path,w,heq,hw,hwalk⟩ := hb
    obtain ⟨rfl,rfl⟩ := List.cons.inj heq
    have honly : ∀(l : Nat) (u : Ref A) (q : List Nat), (α.heap i).slots[l]?=some u →
        u.inlineWalk α.heap q=some (.ref t) → l=j ∧ q=inner := by
      intro l u q hl hq
      have heq := hu (.object i,l::q) ⟨hi,l,q,u,rfl,hl,hq⟩
      simpa using heq
    simp only [Store.write,Store.setSlots,Function.update_self]
    apply modify_reads (h.heap i hi)
    · intro c v hv hcv
      obtain rfl : w=v := Option.some.inj (hw.symm.trans hv)
      exact replace_reads hs hnew inner hcv hwalk fun q hq => (honly j w q hw hq).2
    · intro l c v hl hv hcv
      refine reads_update c v hcv ?_
      rintro ⟨q,hq⟩
      exact absurd (honly l v q hv hq).1 hl
  · have hheap : (σ.write (.inline (α.heap t).kind cs) b).heap i=σ.heap i := by
      obtain ⟨base,inner⟩ := b
      cases base with
      | root q => rfl
      | object k =>
        cases inner with
        | nil => rfl
        | cons j inner =>
          have hik : i≠k := by
            rintro rfl
            exact hobject ⟨j,inner,rfl⟩
          simp [Store.write,Store.setSlots,hik]
    rw [hheap]
    refine readsAll_update _ _ (h.heap i hi) ?_
    rintro v hv ⟨path,hpath⟩
    obtain ⟨j,hj⟩ := List.mem_iff_getElem?.mp hv
    exact absurd ⟨j,path,(hu (.object i,j::path) ⟨hi,j,path,v,rfl,hj,hpath⟩).symm⟩ hobject

theorem setInline_agrees (h : Agrees σ α) (hs : (α.heap t).kind.isShared=false)
    (hb : α.Occurs t b) (hu : ∀b', α.Occurs t b' → b'=b) (hr : readsAll α.heap cs vs)
    (hfree : ∀v∈vs, ¬v.Contains α.heap t) (hbelow : ∀v∈vs, v.Below α.next) :
    Agrees (σ.write (.inline (α.heap t).kind cs) b) (α.setObject t ⟨(α.heap t).kind,vs⟩) := by
  have hnew : readsAll (Function.update α.heap t ⟨(α.heap t).kind,vs⟩) cs vs :=
    readsAll_update cs vs hr fun v hv hc => absurd hc (hfree v hv)
  refine ⟨(write_next σ _ b).trans h.next,write_vars_read h hs hb hu hnew,fun i hi => ?_,h.below,
    fun i v hv => ?_⟩
  · by_cases hit : i=t
    · subst hit
      have hshared : (α.heap i).kind.isShared=true := by simpa [World.setObject] using hi
      exact absurd (hs.symm.trans hshared) Bool.false_ne_true
    · have hi' : (α.heap i).kind.isShared=true := by simpa [World.setObject,hit] using hi
      have hheap := write_heap_read h hs hb hu hnew hi'
      simpa [World.setObject,hit] using hheap
  · by_cases hit : i=t
    · subst hit
      exact hbelow v (by simpa [World.setObject] using hv)
    · exact h.slots i v (by simpa [World.setObject,hit] using hv)

end Inline

end Steps

section Runs

variable {σ : Store R A} {α : World R A}

/-- The mutations that the interpreter carries out on the object itself: in the storage of a
shared one, `list.sort` and `list.remove` only at a place and no augmented assignment that builds
its result anew; of one stored inline only at a place that navigation reaches, if that slot is the
only one in which the object lies and it is not put into itself. -/
def OnObject (α : World R A) (p : Place R) (computed : Bool) (manner : Manner)
    (recipe : List (Source R A)) : Prop :=
  ∀t, α.read p=some (.ref t) → (α.heap t).kind.isMutable=true →
    if (α.heap t).kind.isShared then
      manner=.inPlace ∨ (manner=.takesOut ∧ computed=false ∧ α.navigates p=true)
    else computed=false ∧ α.navigates p=true ∧ (∀b, α.Occurs t b → b=α.slot p) ∧
      ∀o, .value o∈recipe → ∀v, o.eval .atom α.read=some v → ¬v.Contains α.heap t

/-- A step that the interpreter takes as reference semantics does: a mutation of the object itself,
a call of a bound method whose place still holds the receiver, a method that leaves its first
parameter and the place of the receiver alone. -/
def Faithful (α : World R A) : Op R A → Prop
  | .mutate p computed manner recipe => OnObject α p computed manner recipe
  | .call r p manner recipe => α.methods r=α.read p ∧ OnObject α p false manner recipe
  | .giveBack p o => ∀v, o.eval .atom α.read=some v → α.read p=some v
  | _ => True

theorem isMutable_of_isShared {k : Kind} (h : k.isShared=true) : k.isMutable=true := by
  cases k <;> first | rfl | exact absurd h Bool.false_ne_true

theorem read_below (h : Agrees σ α) {p : Place R} {v : Ref A} (hv : α.read p=some v) :
    v.Below α.next := by
  simp only [World.read,Option.bind_eq_some_iff] at hv
  obtain ⟨w,hw,hwalk⟩ := hv
  exact walk_below h.slots p.path (h.below p.root w hw) hwalk

theorem operand_below (h : Agrees σ α) {o : Operand R A} {v : Ref A}
    (hv : o.eval .atom α.read=some v) : v.Below α.next := by
  cases o with
  | atom a =>
    obtain rfl : Ref.atom a=v := Option.some.inj hv
    trivial
  | place p => exact read_below h hv

theorem source_below (h : Agrees σ α) {t : Nat} {s : Source R A} {v : Ref A}
    (hv : s.eval .atom α.read (α.heap t).slots=some v) : v.Below α.next := by
  cases s with
  | keep i => exact h.slots t v (List.mem_of_getElem? hv)
  | value o => exact operand_below h hv

variable [DecidableEq R]

theorem bind_agrees (h : Agrees σ α) (r : R) (o : Operand R A) :
    Agrees (σ.step (.bind r o)) (α.step (.bind r o)) := by
  have hvalue := operand_agrees h o
  simp only [Store.step,World.step]
  generalize o.eval .atom σ.read=c at hvalue ⊢
  generalize hv : o.eval .atom α.read=v at hvalue ⊢
  cases hvalue with
  | none => exact h
  | some hr =>
    apply put_agrees h r (.some hr)
    intro w hw
    obtain rfl := Option.some.inj hw
    exact operand_below h hv

theorem build_agrees (h : Agrees σ α) (r : R) (kind : Kind) (os : List (Operand R A)) :
    Agrees (σ.step (.build r kind os)) (α.step (.build r kind os)) := by
  have hslots := assemble_agrees (operand_agrees h) os
  simp only [Store.step,World.step]
  generalize assemble (fun o : Operand R A => o.eval .atom σ.read) os=c at hslots ⊢
  generalize hv : assemble (fun o : Operand R A => o.eval .atom α.read) os=v at hslots ⊢
  cases hslots with
  | none => exact h
  | @some cs vs hr =>
    have hbelow : ∀v∈vs, v.Below α.next := by
      intro v hin
      obtain ⟨o,-,ho⟩ := assemble_mem hv hin
      exact operand_below h ho
    obtain ⟨halloc,hvalue⟩ := alloc_agrees h kind hr hbelow
    have hput := put_agrees halloc r (.some hvalue) fun w hw => by
      obtain rfl := Option.some.inj hw
      exact Nat.lt_succ_self _
    cases hk : kind.isShared with
    | true => simpa [hk,Store.alloc,World.alloc,Store.put,World.put] using hput
    | false => simpa [hk,Store.alloc,World.alloc,Store.put,World.put] using hput

theorem perform_agrees (h : Agrees σ α) (p : Place R) (computed : Bool) (manner : Manner)
    (recipe : List (Source R A)) (hf : OnObject α p computed manner recipe) :
    Agrees (σ.perform p computed manner recipe) (α.perform (α.read p) recipe) := by
  have htarget := read_agrees h p
  simp only [Store.perform,World.perform]
  generalize σ.read p=o at htarget ⊢
  generalize hread : α.read p=o' at htarget ⊢
  cases htarget with
  | none => exact h
  | @some c v hr =>
    have hnew := assemble_agrees (source_agrees h (slots_agree h hr)) recipe
    cases v with
    | atom a =>
      cases c with
      | atom b =>
        simp only
        split <;> exact h
      | shared k i => exact absurd hr (by simp [reads])
      | inline k s => exact absurd hr (by simp [reads])
    | ref t =>
      simp only [Ref.slots] at hnew ⊢
      generalize assemble (fun s : Source R A => s.eval .atom σ.read (c.slots σ.heap)) recipe=cs
        at hnew ⊢
      generalize hvs : assemble (fun s : Source R A => s.eval .atom α.read (α.heap t).slots) recipe=vs
        at hnew ⊢
      cases hnew with
      | none => exact h
      | @some cs vs hall =>
        have hbelow : ∀v∈vs, v.Below α.next := by
          intro v hin
          obtain ⟨s,-,hs⟩ := assemble_mem hvs hin
          exact source_below h hs
        simp only [places_agree h]
        cases c with
        | atom a => exact absurd hr (by simp [reads])
        | shared k i =>
          obtain ⟨heq,hk,hs⟩ := hr
          obtain rfl : t=i := Ref.ref.inj heq
          have hmutable := isMutable_of_isShared hs
          have hmanner := hf t hread (hk ▸ hmutable)
          rw [hk] at hmanner
          simp only [hs,if_true] at hmanner
          have hset := setShared_agrees h (hk ▸ hs) hall hbelow
          rw [if_pos (hk ▸ hmutable)]
          rcases hmanner with rfl | ⟨rfl,rfl,hnav⟩
          · exact hset
          · simp only [Store.mutate,hnav]
            exact hset
        | inline k s =>
          obtain ⟨i,heq,hk,hs,-⟩ := hr
          obtain rfl : t=i := Ref.ref.inj heq
          subst hk
          cases hm : (α.heap t).kind.isMutable with
          | false => simpa [Store.mutate,hm] using h
          | true =>
            have hplace := hf t hread hm
            rw [hs,if_neg Bool.false_ne_true] at hplace
            obtain ⟨rfl,hnav,honly,hfree⟩ := hplace
            have hoccurs := slot_occurs hread
            have hnone : ∀v∈vs, ¬v.Contains α.heap t := by
              intro v hin
              obtain ⟨s,hsin,hsv⟩ := assemble_mem hvs hin
              cases s with
              | keep j =>
                exact slots_not_contain hoccurs honly hs (List.mem_of_getElem? hsv)
              | value o => exact hfree o hsin v hsv
            have hset := setInline_agrees h hs hoccurs honly hall hnone hbelow
            simpa [Store.mutate,hm,hnav,slot_agrees h] using hset

theorem giveBack_agrees (h : Agrees σ α) (p : Place R) (o : Operand R A)
    (hf : Faithful α (.giveBack p o)) : Agrees (σ.step (.giveBack p o)) α := by
  have hvalue := operand_agrees h o
  have hread := read_agrees h p
  simp only [Store.step]
  generalize o.eval .atom σ.read=c at hvalue ⊢
  generalize hv : o.eval .atom α.read=v at hvalue
  cases hvalue with
  | none => exact h
  | @some c v hr =>
    simp only
    split
    · rw [hf v hv] at hread
      generalize hslot : σ.read p=c' at hread
      cases hread with
      | @some c' _ hr' =>
        rw [reads_unique c c' v hr hr',write_same hslot]
        exact h
    · exact h

theorem step_agrees (h : Agrees σ α) (op : Op R A) (hf : Faithful α op) :
    Agrees (σ.step op) (α.step op) := by
  cases op with
  | bind r o => exact bind_agrees h r o
  | build r kind os => exact build_agrees h r kind os
  | unbind r => exact put_agrees h r .none fun w hw => nomatch hw
  | mutate p computed manner recipe => exact perform_agrees h p computed manner recipe hf
  | method r p => exact ⟨h.next,h.vars,h.heap,h.below,h.slots⟩
  | call r p manner recipe =>
    simp only [World.step,hf.1]
    exact perform_agrees h p false manner recipe hf.2
  | giveBack p o => exact giveBack_agrees h p o hf

/-- `l = []; m = l; m.append(1); push = l.append; push(2); o = C(l)`, a method call on `o` and
`l.remove(1)`. -/
def listRun : List (Op String Nat) :=
  [.build "l" .list [],.bind "m" (.place ⟨"l",[]⟩),
    .mutate ⟨"m",[]⟩ false .inPlace [.value (.atom 1)],
    .method "push" ⟨"l",[]⟩,.call "push" ⟨"l",[]⟩ .inPlace [.keep 0,.value (.atom 2)],
    .build "o" .userInstance [.place ⟨"l",[]⟩],.bind "self" (.place ⟨"o",[]⟩),
    .giveBack ⟨"o",[]⟩ (.place ⟨"self",[]⟩),.mutate ⟨"o",[0]⟩ false .takesOut [.keep 1]]

/-- `d = deque(); e = d; e.append(1)`. -/
def dequeRun : List (Op String Nat) :=
  [.build "d" .deque [],.bind "e" (.place ⟨"d",[]⟩),
    .mutate ⟨"e",[]⟩ false .inPlace [.value (.atom 1)]]

/-- `l = [1]; f().remove(1)`, where `f` returns `l`. -/
def removeRun : List (Op String Nat) :=
  [.build "l" .list [.atom 1],.bind "t" (.place ⟨"l",[]⟩),
    .mutate ⟨"t",[]⟩ true .takesOut []]

end Runs

end InterpretThis.Heap
