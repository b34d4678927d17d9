import InterpretThis.Framework.Refinement
import InterpretThis.Pyset.Contents

namespace InterpretThis.Pyset

open Refinement

/-- The four set operators of the source. -/
inductive Operator where
  | union
  | intersection
  | difference
  | symmetricDifference

def Operator.table {α : Type} (eq : α → α → Bool) :
    Operator → SetTable α → SetTable α → Option (SetTable α)
  | .union => SetTable.union eq
  | .intersection => SetTable.intersection eq
  | .difference => SetTable.difference eq
  | .symmetricDifference => SetTable.symmetricDifference eq

def Operator.set {β : Type} : Operator → Set β → Set β → Set β
  | .union,A,B => A∪B
  | .intersection,A,B => A∩B
  | .difference,A,B => A \ B
  | .symmetricDifference,A,B => symmDiff A B

/-- One call on a bank of tables; the first index is the table that changes. -/
inductive Op (α : Type) where
  | new (dst : Nat)
  | add (dst : Nat) (v : α)
  | discard (dst : Nat) (v : α)
  | popFirst (dst : Nat)
  | merge (dst src : Nat)
  | copy (dst src : Nat)
  | differenceUpdate (dst src : Nat)
  | operator (f : Operator) (dst a b : Nat)

inductive Reply (α : Type) where
  | done
  | removed (b : Bool)
  | popped (v : Option α)

abbrev Bank (α : Type) := Nat → SetTable α

section Calls

variable {α : Type} (eq : α → α → Bool) (hash : α → Int64)

def writeBack (T : Bank α) (dst : Nat) (t : Option (SetTable α)) : Option (Bank α×Reply α) :=
  t.map fun t => (Function.update T dst t,.done)

/-- Every operation passes the value's own hash, as the callers of the table do. -/
def step (T : Bank α) : Op α → Option (Bank α×Reply α)
  | .new dst => writeBack T dst (some (SetTable.withCapacity minsize))
  | .add dst v => writeBack T dst ((T dst).add eq v (hash v))
  | .discard dst v => ((T dst).discard eq v (hash v)).map fun p =>
      (Function.update T dst p.2,.removed p.1)
  | .popFirst dst => some (Function.update T dst (T dst).popFirst.2,.popped (T dst).popFirst.1)
  | .merge dst src => writeBack T dst ((T dst).merge eq (T src))
  | .copy dst src => writeBack T dst (SetTable.copy eq (T src))
  | .differenceUpdate dst src => writeBack T dst ((T dst).differenceUpdate eq (T src))
  | .operator f dst a b => writeBack T dst (f.table eq (T a) (T b))

def start : Bank α := fun _ => SetTable.withCapacity minsize

end Calls

namespace HashEq

variable {α : Type} (H : HashEq α)

/-- The same calls on mathematical sets. Which element `pop_first` takes is not fixed by
the set, so the abstract step removes the class of the value that was returned. -/
def AbsStep (S : Nat → Set H.Class) : Op α → Reply α → (Nat → Set H.Class) → Prop
  | .new dst,.done,S' => S'=Function.update S dst ∅
  | .add dst v,.done,S' => S'=Function.update S dst (insert (H.cls v) (S dst))
  | .discard dst v,.removed b,S' =>
      S'=Function.update S dst (S dst \ {H.cls v}) ∧ (b=true ↔ H.cls v∈S dst)
  | .popFirst dst,.popped none,S' => S dst=∅ ∧ S'=S
  | .popFirst dst,.popped (some v),S' =>
      H.cls v∈S dst ∧ S'=Function.update S dst (S dst \ {H.cls v})
  | .merge dst src,.done,S' => S'=Function.update S dst (S dst∪S src)
  | .copy dst src,.done,S' => S'=Function.update S dst (S src)
  | .differenceUpdate dst src,.done,S' => S'=Function.update S dst (S dst \ S src)
  | .operator f dst a b,.done,S' => S'=Function.update S dst (f.set (S a) (S b))
  | _,_,_ => False

/-- A table that stands for a set of classes. -/
structure Rep (t : SetTable α) (A : Set H.Class) : Prop where
  wf : t.WF
  good : H.Good t.actives
  classes : H.classes t.actives=A

theorem rep_empty : H.Rep (SetTable.withCapacity minsize) ∅ := by
  have he : (SetTable.withCapacity minsize : SetTable α).actives=[] := by
    simp [SetTable.actives,SetTable.withCapacity]
  refine ⟨SetTable.wf_withCapacity,?_,?_⟩
  · rw [he]
    exact H.good_nil
  · rw [he]
    exact H.classes_nil

section Operations

variable {t u : SetTable α} {A B : Set H.Class}

theorem rep_add (r : H.Rep t A) (v : α) :
    ∃t',t.add H.eq v (H.hash v)=some t' ∧ H.Rep t' (insert (H.cls v) A) := by
  obtain ⟨t',ht,w,ha⟩ := SetTable.add_spec H.eq r.wf v (H.hash v)
  have h := H.addTo_spec _ _ (v,H.hash v) r.good rfl ha
  exact ⟨t',ht,w,h.1,by rw [h.2,r.classes]⟩

theorem rep_discard (r : H.Rep t A) (v : α) :
    ∃b t',t.discard H.eq v (H.hash v)=some (b,t') ∧ H.Rep t' (A \ {H.cls v}) ∧
      (b=true ↔ H.cls v∈A) := by
  obtain ⟨b,t',ht,w,hd⟩ := SetTable.discard_spec H.eq r.wf v (H.hash v)
  have h := H.discardFrom_spec _ _ (v,H.hash v) b r.good rfl hd
  rw [r.classes] at h
  exact ⟨b,t',ht,⟨w,h.1,h.2.1⟩,h.2.2⟩

theorem rep_popFirst (r : H.Rep t A) :
    (t.popFirst=(none,t) ∧ A=∅) ∨
      ∃v t',t.popFirst=(some v,t') ∧ H.cls v∈A ∧ H.Rep t' (A \ {H.cls v}) := by
  cases SetTable.popFirst_spec r.wf with
  | inl he =>
    left
    refine ⟨he.1,?_⟩
    rw [← r.classes,he.2]
    exact H.classes_nil
  | inr hp =>
    right
    obtain ⟨v,h,t',hpop,w,ha⟩ := hp
    have parts := r.good
    rw [ha,good_cons] at parts
    have hA := r.classes
    rw [ha,classes_cons] at hA
    refine ⟨v,t',hpop,?_,w,parts.2.2,?_⟩
    · rw [← hA]
      exact Set.mem_insert _ _
    · rw [← hA,Set.insert_sdiff_of_mem _ (Set.mem_singleton _),
        Set.sdiff_singleton_eq_self parts.2.1]

theorem rep_merge (r : H.Rep t A) (s : H.Rep u B) :
    ∃t',t.merge H.eq u=some t' ∧ H.Rep t' (A∪B) := by
  obtain ⟨t',ht,w,hm⟩ := SetTable.merge_spec H.eq r.wf s.wf
  have h := H.mergeTo_spec _ _ _ r.good s.good hm
  exact ⟨t',ht,w,h.1,by rw [h.2,r.classes,s.classes]⟩

theorem rep_copy (r : H.Rep t A) : ∃t',SetTable.copy H.eq t=some t' ∧ H.Rep t' A := by
  obtain ⟨t',ht,h⟩ := H.rep_merge H.rep_empty r
  rw [Set.empty_union] at h
  exact ⟨t',ht,h⟩

theorem rep_differenceUpdate (r : H.Rep t A) (s : H.Rep u B) :
    ∃t',t.differenceUpdate H.eq u=some t' ∧ H.Rep t' (A \ B) := by
  obtain ⟨t₁,h₁,w₁,hd⟩ := SetTable.discardAll_spec H.eq u.actives r.wf
  have h := H.discardsFrom_spec _ _ _ r.good s.good.hashed hd
  obtain ⟨t₂,h₂,w₂,hp⟩ := SetTable.compactIfSparse_spec w₁
  refine ⟨t₂,?_,w₂,H.good_perm _ _ hp.symm h.1,?_⟩
  · rw [SetTable.differenceUpdate,h₁]
    exact h₂
  · rw [H.classes_perm _ _ hp,h.2,r.classes,s.classes]

theorem rep_addWhere (r : H.Rep t A) (s : H.Rep u B) (want : Bool) :
    ∃t',SetTable.addWhere H.eq u want t.actives (SetTable.withCapacity minsize)=some t' ∧
      H.Rep t' {c | c∈A ∧ (c∈B ↔ want=true)} := by
  obtain ⟨t',ht,w,ha⟩ := SetTable.addWhere_spec H.eq want t.actives s.wf H.rep_empty.wf
  have hf := H.filter_spec u.actives t.actives want s.good r.good
  have h := H.addsTo_spec _ _ _ H.rep_empty.good hf.1.hashed ha
  refine ⟨t',ht,w,h.1,?_⟩
  rw [h.2,hf.2,H.rep_empty.classes,Set.empty_union,r.classes,s.classes]

theorem rep_intersection (r : H.Rep t A) (s : H.Rep u B) :
    ∃t',SetTable.intersection H.eq t u=some t' ∧ H.Rep t' (A∩B) := by
  unfold SetTable.intersection
  split_ifs
  · obtain ⟨t',ht,h⟩ := H.rep_addWhere s r true
    have hs : {c | c∈B ∧ (c∈A ↔ true=true)}=A∩B := by ext c; simp [and_comm]
    rw [hs] at h
    exact ⟨t',ht,h⟩
  · obtain ⟨t',ht,h⟩ := H.rep_addWhere r s true
    have hs : {c | c∈A ∧ (c∈B ↔ true=true)}=A∩B := by ext c; simp
    rw [hs] at h
    exact ⟨t',ht,h⟩

theorem rep_difference (r : H.Rep t A) (s : H.Rep u B) :
    ∃t',SetTable.difference H.eq t u=some t' ∧ H.Rep t' (A \ B) := by
  unfold SetTable.difference
  split_ifs
  · obtain ⟨t₁,h₁,r₁⟩ := H.rep_copy r
    obtain ⟨t₂,h₂,r₂⟩ := H.rep_differenceUpdate r₁ s
    exact ⟨t₂,by rw [h₁]; exact h₂,r₂⟩
  · obtain ⟨t',ht,h⟩ := H.rep_addWhere r s false
    have hs : {c | c∈A ∧ (c∈B ↔ false=true)}=A \ B := by ext c; simp
    rw [hs] at h
    exact ⟨t',ht,h⟩

theorem rep_symmetricDifference (r : H.Rep t A) (s : H.Rep u B) :
    ∃t',SetTable.symmetricDifference H.eq t u=some t' ∧ H.Rep t' (symmDiff A B) := by
  obtain ⟨t₁,h₁,r₁⟩ := H.rep_copy s
  obtain ⟨t₂,h₂,w,ht⟩ := SetTable.toggleAll_spec H.eq t.actives r₁.wf
  have h := H.togglesTo_spec _ _ _ r₁.good r.good ht
  refine ⟨t₂,?_,w,h.1,?_⟩
  · rw [SetTable.symmetricDifference,h₁]
    exact h₂
  · rw [h.2,r₁.classes,r.classes,symmDiff_comm]

theorem rep_operator (f : Operator) (r : H.Rep t A) (s : H.Rep u B) :
    ∃t',f.table H.eq t u=some t' ∧ H.Rep t' (f.set A B) := by
  cases f with
  | union =>
    obtain ⟨t₁,h₁,r₁⟩ := H.rep_copy r
    obtain ⟨t₂,h₂,r₂⟩ := H.rep_merge r₁ s
    refine ⟨t₂,?_,r₂⟩
    change (SetTable.copy H.eq t).bind _=_
    rw [h₁]
    exact h₂
  | intersection => exact H.rep_intersection r s
  | difference => exact H.rep_difference r s
  | symmetricDifference => exact H.rep_symmetricDifference r s

theorem rep_contains (r : H.Rep t A) (v : α) :
    ∃b,t.contains H.eq v (H.hash v)=some b ∧ (b=true ↔ H.cls v∈A) := by
  refine ⟨_,SetTable.contains_eq H.eq r.wf v (H.hash v),?_⟩
  rw [H.any_hit t.actives r.good.hashed v,r.classes]

theorem iterOrdered_cls (t : SetTable α) :
    t.iterOrdered.map H.cls=t.actives.map fun p => H.cls p.1 := by
  rw [SetTable.iterOrdered,List.map_map]
  rfl

theorem rep_listed (r : H.Rep t A) :
    (t.iterOrdered.map H.cls).Nodup ∧ ∀c,c∈t.iterOrdered.map H.cls ↔ c∈A := by
  rw [iterOrdered_cls]
  refine ⟨r.good.nodup,?_⟩
  intro c
  rw [← r.classes]
  simp [HashEq.classes]

theorem rep_len (r : H.Rep t A) : A.Finite ∧ t.len=A.ncard := by
  classical
  have listed := H.rep_listed r
  have hA : A=((t.iterOrdered.map H.cls).toFinset : Set H.Class) := by
    ext c
    rw [List.coe_toFinset]
    exact (listed.2 c).symm
  refine ⟨by rw [hA]; exact Finset.finite_toSet _,?_⟩
  rw [hA,Set.ncard_coe_finset,List.toFinset_card_of_nodup listed.1,SetTable.len,r.wf.used]
  simp [SetTable.iterOrdered]

end Operations

def BankRep (T : Bank α) (S : Nat → Set H.Class) : Prop := ∀r,H.Rep (T r) (S r)

theorem bankRep_update (T : Bank α) (S : Nat → Set H.Class) (dst : Nat) (t : SetTable α)
    (A : Set H.Class) (h : H.BankRep T S) (ht : H.Rep t A) :
    H.BankRep (Function.update T dst t) (Function.update S dst A) := by
  intro r
  by_cases hr : r=dst
  · rw [hr,Function.update_self,Function.update_self]
    exact ht
  · rw [Function.update_of_ne hr,Function.update_of_ne hr]
    exact h r

/-- One call on the tables simulates the same call on the sets. -/
theorem step_refines (T : Bank α) (S : Nat → Set H.Class) (o : Op α) (h : H.BankRep T S) :
    ∃T' r S',step H.eq H.hash T o=some (T',r) ∧ H.AbsStep S o r S' ∧ H.BankRep T' S' := by
  -- the operations that only write a table back share this shape
  have back : ∀dst (t : Option (SetTable α)) A,(∃t',t=some t' ∧ H.Rep t' A) →
      ∃T',writeBack T dst t=some (T',.done) ∧ H.BankRep T' (Function.update S dst A) := by
    intro dst t A ht
    obtain ⟨t',he,hr⟩ := ht
    exact ⟨_,by rw [he]; rfl,H.bankRep_update T S dst t' A h hr⟩
  cases o with
  | new dst =>
    obtain ⟨T',hs,hb⟩ := back dst _ _ ⟨_,rfl,H.rep_empty⟩
    exact ⟨T',.done,_,hs,rfl,hb⟩
  | add dst v =>
    obtain ⟨T',hs,hb⟩ := back dst _ _ (H.rep_add (h dst) v)
    exact ⟨T',.done,_,hs,rfl,hb⟩
  | merge dst src =>
    obtain ⟨T',hs,hb⟩ := back dst _ _ (H.rep_merge (h dst) (h src))
    exact ⟨T',.done,_,hs,rfl,hb⟩
  | copy dst src =>
    obtain ⟨T',hs,hb⟩ := back dst _ _ (H.rep_copy (h src))
    exact ⟨T',.done,_,hs,rfl,hb⟩
  | differenceUpdate dst src =>
    obtain ⟨T',hs,hb⟩ := back dst _ _ (H.rep_differenceUpdate (h dst) (h src))
    exact ⟨T',.done,_,hs,rfl,hb⟩
  | operator f dst a b =>
    obtain ⟨T',hs,hb⟩ := back dst _ _ (H.rep_operator f (h a) (h b))
    exact ⟨T',.done,_,hs,rfl,hb⟩
  | discard dst v =>
    obtain ⟨b,t',ht,hr,hb⟩ := H.rep_discard (h dst) v
    refine ⟨_,.removed b,_,?_,⟨rfl,hb⟩,H.bankRep_update T S dst t' _ h hr⟩
    rw [step,ht]
    rfl
  | popFirst dst =>
    cases H.rep_popFirst (h dst) with
    | inl he =>
      refine ⟨T,.popped none,S,?_,⟨he.2,rfl⟩,h⟩
      rw [step,he.1,Function.update_eq_self]
    | inr hp =>
      obtain ⟨v,t',hpop,hin,hr⟩ := hp
      refine ⟨_,.popped (some v),_,?_,⟨hin,rfl⟩,H.bankRep_update T S dst t' _ h hr⟩
      rw [step,hpop]

theorem start_rep : H.BankRep (start : Bank α) (fun _ => ∅) := fun _ => H.rep_empty

/-- Whole runs: every sequence of calls returns, its replies are those of the same calls on
sets, and every table then reads back exactly its set. -/
theorem tables_refine_sets (ops : List (Op α)) :
    ∃T replies S,run (step H.eq H.hash) start ops=some (T,replies) ∧
      AbsRun H.AbsStep (fun _ => ∅) ops replies S ∧
      ∀r,(∀v,∃b,(T r).contains H.eq v (H.hash v)=some b ∧ (b=true ↔ H.cls v∈S r)) ∧
        ((T r).iterOrdered.map H.cls).Nodup ∧ (∀c,c∈(T r).iterOrdered.map H.cls ↔ c∈S r) ∧
        (S r).Finite ∧ (T r).len=(S r).ncard := by
  obtain ⟨T,replies,S,hrun,habs,hrep⟩ :=
    run_refines (step H.eq H.hash) H.AbsStep H.BankRep H.step_refines ops start _ H.start_rep
  refine ⟨T,replies,S,hrun,habs,?_⟩
  intro r
  have listed := H.rep_listed (hrep r)
  have len := H.rep_len (hrep r)
  exact ⟨H.rep_contains (hrep r),listed.1,listed.2,len.1,len.2⟩

/-- Numbers spelled as integers or as floats, which are equal all the same; the hashes of numbers
that are eight apart collide. -/
def spelled : HashEq (Nat×Bool) where
  eq a b := a.1==b.1
  hash a := Int64.ofNat (a.1%8)
  equiv := ⟨fun _ => beq_self_eq_true _,fun h => beq_iff_eq.mpr (beq_iff_eq.mp h).symm,
    fun h k => beq_iff_eq.mpr ((beq_iff_eq.mp h).trans (beq_iff_eq.mp k))⟩
  agrees a b h := by
    rw [beq_iff_eq] at h
    rw [h]

/-- A collision, a duplicate, a tombstone that is taken again, a resize and a difference. -/
def collidingRun : List (Op (Nat×Bool)) :=
  [.add 0 (1,false),.add 0 (9,false),.add 0 (1,true),.add 0 (17,false),.discard 0 (9,true),
    .add 0 (25,false),.add 0 (2,false),.add 0 (3,false),.add 1 (17,true),.operator .difference 2 0 1]

theorem tables_refine_sets_colliding :
    ∃T replies S,run (step spelled.eq spelled.hash) start collidingRun=some (T,replies) ∧
      AbsRun spelled.AbsStep (fun _ => ∅) collidingRun replies S ∧
      (T 2).iterOrdered=[(1,false),(2,false),(3,false),(25,false)] ∧ (S 2).ncard=4 ∧
      spelled.cls (1,true)∈S 2 ∧ spelled.cls (9,false)∉S 0 := by
  obtain ⟨T,replies,S,ran,refined,holds⟩ := tables_refine_sets spelled collidingRun
  have bank : (run (step spelled.eq spelled.hash) start collidingRun).map (fun p =>
      ((p.1 2).iterOrdered,(p.1 2).len,(p.1 2).contains spelled.eq (1,true) (spelled.hash (1,true)),
        (p.1 0).contains spelled.eq (9,false) (spelled.hash (9,false))))=
      some ([(1,false),(2,false),(3,false),(25,false)],4,some true,some false) := rfl
  rw [ran] at bank
  obtain ⟨order,rest⟩ := Prod.mk.inj (Option.some.inj bank)
  obtain ⟨len,rest⟩ := Prod.mk.inj rest
  obtain ⟨kept,gone⟩ := Prod.mk.inj rest
  obtain ⟨b,found,member⟩ := (holds 2).1 (1,true)
  obtain ⟨c,lost,absent⟩ := (holds 0).1 (9,false)
  rw [kept] at found
  rw [gone] at lost
  refine ⟨T,replies,S,ran,refined,order,(holds 2).2.2.2.2.symm.trans len,
    member.mp (Option.some.inj found).symm,fun h => ?_⟩
  rw [← absent,← Option.some.inj lost] at h
  cases h

def elements (t : SetTable α) : Set H.Class := {c | c∈t.iterOrdered.map H.cls}

/-- Every operator on every pair of reachable tables gives the operator on their element
sets, listed without repeats, and writes only its own result. -/
theorem operators_exact (ops : List (Op α)) :
    ∃T replies,run (step H.eq H.hash) start ops=some (T,replies) ∧
      ∀(f : Operator) (a b : Nat),
        (∃u,f.table H.eq (T a) (T b)=some u ∧
          H.elements u=f.set (H.elements (T a)) (H.elements (T b)) ∧
          (u.iterOrdered.map H.cls).Nodup ∧
          ∀dst,∃T',step H.eq H.hash T (.operator f dst a b)=some (T',.done) ∧ T' dst=u ∧
            ∀r,r≠dst → T' r=T r) := by
  obtain ⟨T,replies,S,hrun,_,hrep⟩ :=
    run_refines (step H.eq H.hash) H.AbsStep H.BankRep H.step_refines ops start _ H.start_rep
  have elems : ∀t A,H.Rep t A → H.elements t=A := by
    intro t A ht
    ext c
    exact (H.rep_listed ht).2 c
  refine ⟨T,replies,hrun,?_⟩
  intro f a b
  obtain ⟨u,hu,ru⟩ := H.rep_operator f (hrep a) (hrep b)
  refine ⟨u,hu,?_,(H.rep_listed ru).1,?_⟩
  · rw [elems _ _ ru,elems _ _ (hrep a),elems _ _ (hrep b)]
  · intro dst
    refine ⟨Function.update T dst u,?_,Function.update_self _ _ _,?_⟩
    · rw [step,hu]
      rfl
    · intro r hr
      exact Function.update_of_ne hr _ _

theorem operators_exact_colliding :
    ∃T replies,run (step spelled.eq spelled.hash) start collidingRun=some (T,replies) ∧
      ∃u,(T 0).symmetricDifference spelled.eq (T 1)=some u ∧
        spelled.elements u=symmDiff (spelled.elements (T 0)) (spelled.elements (T 1)) ∧
        (u.iterOrdered.map spelled.cls).Nodup := by
  obtain ⟨T,replies,ran,each⟩ := operators_exact spelled collidingRun
  obtain ⟨u,made,elements,nodup,-⟩ := each .symmetricDifference 0 1
  exact ⟨T,replies,ran,u,made,elements,nodup⟩

end HashEq

namespace SetTable

variable {α : Type}

/-- A property of contents that every table operation keeps, whatever the equality does.
`ok` is what the callers promise of an added entry. -/
structure Stable (eq : α → α → Bool) (ok : α×Int64 → Prop) (P : List (α×Int64) → Prop) :
    Prop where
  nil : P []
  sound : ∀l,P l → ∀p∈l,ok p
  perm : ∀l r,l.Perm r → P l → P r
  cut : ∀x l,P (x::l) → P l
  add : ∀p l,ok p → l.any (hit eq p.1 p.2)=false → P l → P (p::l)

namespace Stable

variable {eq : α → α → Bool} {ok : α×Int64 → Prop} {P : List (α×Int64) → Prop}

theorem addTo (s : Stable eq ok P) (l r : List (α×Int64)) (p : α×Int64) (h : AddTo eq l p r)
    (hp : ok p) (hl : P l) : P r := by
  cases h with
  | inl same => rw [same.2]; exact hl
  | inr more => exact s.perm _ _ more.2.symm (s.add p l hp more.1 hl)

theorem addsTo (s : Stable eq ok P) (l items r : List (α×Int64)) (h : AddsTo eq l items r)
    (hi : ∀p∈items,ok p) (hl : P l) : P r := by
  induction h with
  | nil l => exact hl
  | cons l m r items p ha _ ih =>
    have one := s.addTo l m p ha (hi p (by simp)) hl
    exact ih (fun q hq => hi q (by simp [hq])) one

theorem mergeTo (s : Stable eq ok P) (l items r : List (α×Int64)) (h : MergeTo eq l items r)
    (hi : P items) (hl : P l) : P r := by
  cases h with
  | inl hc => exact s.perm _ _ hc.2.symm hi
  | inr ha =>
    obtain ⟨m,hm,ha⟩ := ha
    exact s.addsTo m items r ha (s.sound items hi) (s.perm _ _ hm.symm hl)

theorem discardFrom (s : Stable eq ok P) (l r : List (α×Int64)) (p : α×Int64) (b : Bool)
    (h : DiscardFrom eq l p b r) (hl : P l) : P r := by
  cases h with
  | inl same => rw [same.2.2]; exact hl
  | inr less =>
    obtain ⟨_,pre,x,post,_,he,hr⟩ := less
    rw [hr]
    apply s.cut x
    rw [he] at hl
    exact s.perm _ _ List.perm_middle hl

theorem discardsFrom (s : Stable eq ok P) (l items r : List (α×Int64))
    (h : DiscardsFrom eq l items r) (hl : P l) : P r := by
  induction h with
  | nil l => exact hl
  | cons l m r items p b hd _ ih => exact ih (s.discardFrom l m p b hd hl)

theorem togglesTo (s : Stable eq ok P) (l items r : List (α×Int64)) (h : TogglesTo eq l items r)
    (hi : ∀p∈items,ok p) (hl : P l) : P r := by
  induction h with
  | nil l => exact hl
  | cut l m r items p hd _ ih =>
    exact ih (fun q hq => hi q (by simp [hq])) (s.discardFrom l m p true hd hl)
  | put l m n r items p hd ha _ ih =>
    have one := s.discardFrom l m p false hd hl
    exact ih (fun q hq => hi q (by simp [hq])) (s.addTo m n p ha (hi p (by simp)) one)

end Stable

/-- A well-formed table whose contents have the property. -/
structure Holds (P : List (α×Int64) → Prop) (t : SetTable α) : Prop where
  wf : t.WF
  contents : P t.actives

section Operations

variable {eq : α → α → Bool} {ok : α×Int64 → Prop} {P : List (α×Int64) → Prop} {t u : SetTable α}

theorem holds_empty (s : Stable eq ok P) : Holds P (withCapacity minsize) := by
  refine ⟨wf_withCapacity,?_⟩
  have he : (withCapacity minsize : SetTable α).actives=[] := by simp [actives,withCapacity]
  rw [he]
  exact s.nil

theorem holds_add (s : Stable eq ok P) (h : Holds P t) (v : α) (x : Int64) (hv : ok (v,x)) :
    ∃t',t.add eq v x=some t' ∧ Holds P t' := by
  obtain ⟨t',ht,w,ha⟩ := add_spec eq h.wf v x
  exact ⟨t',ht,w,s.addTo _ _ _ ha hv h.contents⟩

theorem holds_addAll (s : Stable eq ok P) (h : Holds P t) (items : List (α×Int64))
    (hi : ∀p∈items,ok p) : ∃t',t.addAll eq items=some t' ∧ Holds P t' := by
  obtain ⟨t',ht,w,ha⟩ := addAll_spec eq items h.wf
  exact ⟨t',ht,w,s.addsTo _ _ _ ha hi h.contents⟩

theorem holds_discard (s : Stable eq ok P) (h : Holds P t) (v : α) (x : Int64) :
    ∃b t',t.discard eq v x=some (b,t') ∧ Holds P t' ∧ DiscardFrom eq t.actives (v,x) b t'.actives := by
  obtain ⟨b,t',ht,w,hd⟩ := discard_spec eq h.wf v x
  exact ⟨b,t',ht,⟨w,s.discardFrom _ _ _ _ hd h.contents⟩,hd⟩

theorem holds_popFirst (s : Stable eq ok P) (h : Holds P t) : Holds P t.popFirst.2 := by
  cases popFirst_spec h.wf with
  | inl he =>
    rw [he.1]
    exact h
  | inr hp =>
    obtain ⟨v,x,t',hpop,w,ha⟩ := hp
    rw [hpop]
    refine ⟨w,s.cut (v,x) _ ?_⟩
    rw [← ha]
    exact h.contents

theorem holds_merge (s : Stable eq ok P) (h : Holds P t) (hu : Holds P u) :
    ∃t',t.merge eq u=some t' ∧ Holds P t' := by
  obtain ⟨t',ht,w,hm⟩ := merge_spec eq h.wf hu.wf
  exact ⟨t',ht,w,s.mergeTo _ _ _ hm hu.contents h.contents⟩

theorem holds_copy (s : Stable eq ok P) (h : Holds P t) :
    ∃t',copy eq t=some t' ∧ Holds P t' := holds_merge s (holds_empty s) h

theorem holds_differenceUpdate (s : Stable eq ok P) (h : Holds P t) (u : SetTable α) :
    ∃t',t.differenceUpdate eq u=some t' ∧ Holds P t' := by
  obtain ⟨t₁,h₁,w₁,hd⟩ := discardAll_spec eq u.actives h.wf
  obtain ⟨t₂,h₂,w₂,hp⟩ := compactIfSparse_spec w₁
  refine ⟨t₂,?_,w₂,s.perm _ _ hp.symm (s.discardsFrom _ _ _ hd h.contents)⟩
  rw [differenceUpdate,h₁]
  exact h₂

theorem holds_addWhere (s : Stable eq ok P) (h : Holds P t) (hu : Holds P u) (want : Bool) :
    ∃t',addWhere eq u want t.actives (withCapacity minsize)=some t' ∧ Holds P t' := by
  obtain ⟨t',ht,w,ha⟩ := addWhere_spec eq want t.actives hu.wf (holds_empty s).wf
  refine ⟨t',ht,w,s.addsTo _ _ _ ha ?_ (holds_empty s).contents⟩
  intro p hp
  exact s.sound _ h.contents p (List.mem_of_mem_filter hp)

theorem holds_operator (s : Stable eq ok P) (f : Operator) (h : Holds P t) (hu : Holds P u) :
    ∃t',f.table eq t u=some t' ∧ Holds P t' := by
  cases f with
  | union =>
    obtain ⟨t₁,h₁,r₁⟩ := holds_copy s h
    obtain ⟨t₂,h₂,r₂⟩ := holds_merge s r₁ hu
    refine ⟨t₂,?_,r₂⟩
    change (copy eq t).bind _=_
    rw [h₁]
    exact h₂
  | intersection =>
    change ∃t',intersection eq t u=some t' ∧ _
    unfold intersection
    split_ifs
    · exact holds_addWhere s hu h true
    · exact holds_addWhere s h hu true
  | difference =>
    change ∃t',difference eq t u=some t' ∧ _
    unfold difference
    split_ifs
    · obtain ⟨t₁,h₁,r₁⟩ := holds_copy s h
      obtain ⟨t₂,h₂,r₂⟩ := holds_differenceUpdate s r₁ u
      exact ⟨t₂,by rw [h₁]; exact h₂,r₂⟩
    · exact holds_addWhere s h hu false
  | symmetricDifference =>
    obtain ⟨t₁,h₁,r₁⟩ := holds_copy s hu
    obtain ⟨t₂,h₂,w,ht⟩ := toggleAll_spec eq t.actives r₁.wf
    refine ⟨t₂,?_,w,s.togglesTo _ _ _ ht (s.sound _ h.contents) r₁.contents⟩
    change (copy eq u).bind _=_
    rw [h₁]
    exact h₂

end Operations

section Runs

variable {eq : α → α → Bool} {hash : α → Int64} {P : List (α×Int64) → Prop}

theorem step_holds (s : Stable eq (fun p => p.2=hash p.1) P) (T : Bank α) (o : Op α)
    (h : ∀r,Holds P (T r)) :
    ∃T' r,step eq hash T o=some (T',r) ∧ ∀r,Holds P (T' r) := by
  have upd : ∀dst t,Holds P t → ∀r,Holds P (Function.update T dst t r) := by
    intro dst t ht r
    by_cases hr : r=dst
    · rw [hr,Function.update_self]
      exact ht
    · rw [Function.update_of_ne hr]
      exact h r
  have back : ∀dst (t : Option (SetTable α)),(∃t',t=some t' ∧ Holds P t') →
      ∃T' r,writeBack T dst t=some (T',r) ∧ ∀r,Holds P (T' r) := by
    intro dst t ht
    obtain ⟨t',he,hr⟩ := ht
    exact ⟨_,_,by rw [he]; rfl,upd dst t' hr⟩
  cases o with
  | new dst => exact back dst _ ⟨_,rfl,holds_empty s⟩
  | add dst v => exact back dst _ (holds_add s (h dst) v (hash v) rfl)
  | merge dst src => exact back dst _ (holds_merge s (h dst) (h src))
  | copy dst src => exact back dst _ (holds_copy s (h src))
  | differenceUpdate dst src => exact back dst _ (holds_differenceUpdate s (h dst) (T src))
  | operator f dst a b => exact back dst _ (holds_operator s f (h a) (h b))
  | discard dst v =>
    obtain ⟨b,t',ht,hr,_⟩ := holds_discard s (h dst) v (hash v)
    refine ⟨_,.removed b,?_,upd dst t' hr⟩
    rw [step,ht]
    rfl
  | popFirst dst => exact ⟨_,_,rfl,upd dst _ (holds_popFirst s (h dst))⟩

theorem run_holds (s : Stable eq (fun p => p.2=hash p.1) P) (ops : List (Op α)) :
    ∃T replies,Refinement.run (step eq hash) start ops=some (T,replies) ∧ ∀r,Holds P (T r) := by
  obtain ⟨T,replies,_,hrun,_,hT⟩ := Refinement.run_refines (A := Unit) (step eq hash)
    (fun _ _ _ _ => True) (fun T _ => ∀r,Holds P (T r))
    (fun T _ o h => by
      obtain ⟨T',r,hs,hT⟩ := step_holds s T o h
      exact ⟨T',r,(),hs,trivial,hT⟩)
    ops start () (fun _ => holds_empty s)
  exact ⟨T,replies,hrun,hT⟩

end Runs

end SetTable

end InterpretThis.Pyset
