import InterpretThis.Pyset.Machine

namespace InterpretThis.Pyset

open InterpretThis.Probe

variable {α : Type}

def home (mask : Nat) (hash : Int64) : Nat := hash.toUInt64.toNat&&&mask

/-- No two entries under one hash are equal, in either direction. -/
def Apart (eq : α → α → Bool) (l : List (α×Int64)) : Prop :=
  l.Pairwise fun p q => ¬(p.2=q.2 ∧ (eq p.1 q.1=true ∨ eq q.1 p.1=true))

namespace Apart

variable {eq : α → α → Bool}

theorem perm (l r : List (α×Int64)) (h : l.Perm r) (a : Apart eq l) : Apart eq r := by
  have sym : ∀{p q : α×Int64},¬(p.2=q.2 ∧ (eq p.1 q.1=true ∨ eq q.1 p.1=true)) →
      ¬(q.2=p.2 ∧ (eq q.1 p.1=true ∨ eq p.1 q.1=true)) := by
    intro p q hn hc
    exact hn ⟨hc.1.symm,hc.2.symm⟩
  exact (h.pairwise_iff sym).mp a

end Apart

namespace SetTable

variable (eq : α → α → Bool)

theorem addsTo_subperm (l items r : List (α×Int64)) (h : AddsTo eq l items r) :
    r.Subperm (items++l) := by
  induction h with
  | nil l => exact List.Subperm.refl l
  | cons l m r items p ha _ ih =>
    cases ha with
    | inl same =>
      rw [same.2] at ih
      exact ih.trans (List.sublist_cons_self p _).subperm
    | inr more =>
      have hm : (items++m).Perm (p::items++l) :=
        (List.Perm.append_left items more.2).trans List.perm_middle
      exact ih.trans hm.subperm

theorem addsTo_perm (l items r : List (α×Int64)) (a : Apart eq (items++l))
    (h : AddsTo eq l items r) : r.Perm (items++l) := by
  induction h with
  | nil l => exact List.Perm.refl l
  | cons l m r items p ha _ ih =>
    have fresh : l.any (hit eq p.1 p.2)=false := by
      rw [List.any_eq_false]
      intro q hq hh
      have hit : q.2=p.2 ∧ eq q.1 p.1=true := by simpa [SetTable.hit] using hh
      have far := (List.pairwise_cons.mp a).1 q (by simp [hq])
      exact far ⟨hit.1.symm,.inr hit.2⟩
    cases ha with
    | inl same => rw [same.1] at fresh; cases fresh
    | inr more =>
      have hm : (items++m).Perm (p::items++l) :=
        (List.Perm.append_left items more.2).trans List.perm_middle
      exact (ih (a.perm _ _ hm.symm)).trans hm

end SetTable

section Home

/-- Every active slot is the home of its own hash. -/
def AtHome (mask : Nat) (slots : List (Slot α)) : Prop :=
  ∀(i : Nat) v h,slots[i]?=some (Slot.active v h) → home mask h=i

theorem atHome_sorted (mask : Nat) (slots : List (Slot α)) (off : Nat)
    (h : ∀(i : Nat) v x,slots[i]?=some (Slot.active v x) → home mask x=off+i) :
    (activesOf slots).Pairwise (fun p q => home mask p.2<home mask q.2) := by
  induction slots generalizing off with
  | nil => exact List.Pairwise.nil
  | cons s slots ih =>
    have tail := ih (off+1) (fun i v x hi => by
      have := h (i+1) v x (by simpa using hi)
      omega)
    cases s with
    | empty => exact tail
    | dummy => exact tail
    | active v x =>
      apply List.Pairwise.cons _ tail
      intro q hq
      obtain ⟨i,hi⟩ := (SetTable.mem_actives slots q.1 q.2).mp hq
      have here := h 0 v x (by simp)
      have there := h (i+1) q.1 q.2 (by simpa using hi)
      change home mask x<home mask q.2
      omega

theorem atHome_eq (mask : Nat) (s t : List (Slot α)) (hs : AtHome mask s) (ht : AtHome mask t)
    (hp : (activesOf s).Perm (activesOf t)) : activesOf s=activesOf t := by
  have ss := atHome_sorted mask s 0 (fun i v x hi => by rw [hs i v x hi,Nat.zero_add])
  have st := atHome_sorted mask t 0 (fun i v x hi => by rw [ht i v x hi,Nat.zero_add])
  refine List.Perm.eq_of_pairwise ?_ ss st hp
  intro a b _ _ hab hba
  omega

theorem atHome_replicate (mask n : Nat) :
    AtHome mask (List.replicate n (Slot.empty : Slot α)) := by
  intro i v h hi
  have hr := List.mem_of_getElem? hi
  simp at hr

theorem atHome_set (mask : Nat) (slots : List (Slot α)) (v : α) (h : Int64)
    (hs : AtHome mask slots) : AtHome mask (slots.set (home mask h) (.active v h)) := by
  intro i w x hi
  rw [List.getElem?_set] at hi
  by_cases he : home mask h=i
  · rw [if_pos he] at hi
    split_ifs at hi
    cases hi
    exact he
  · rw [if_neg he] at hi
    exact hs i w x hi

/-- Homes of a list of entries, pairwise different. -/
def Spread (mask : Nat) (l : List (α×Int64)) : Prop :=
  l.Pairwise fun p q => home mask p.2≠home mask q.2

theorem Spread.perm (mask : Nat) (l r : List (α×Int64)) (h : l.Perm r) (a : Spread mask l) :
    Spread mask r :=
  (h.pairwise_iff (fun hn => hn.symm)).mp a

theorem no_dummy (slots : List (Slot α)) (i : Nat) (hf : fillOf slots=(activesOf slots).length) :
    slots[i]?≠some Slot.dummy := by
  induction slots generalizing i with
  | nil => simp
  | cons a slots ih =>
    have hle := activesOf_length_le slots
    cases a with
    | dummy => simp only [fillOf,activesOf] at hf; omega
    | empty =>
      cases i with
      | zero => simp
      | succ i => simpa using ih i (by simpa [fillOf,activesOf] using hf)
    | active v x =>
      cases i with
      | zero => simp
      | succ i => simpa using ih i (by simpa [fillOf,activesOf] using hf)

theorem home_empty {mask : Nat} {slots : List (Slot α)} (c : Core mask slots)
    (hs : AtHome mask slots) (clean : fillOf slots=(activesOf slots).length) (h : Int64)
    (far : ∀p∈activesOf slots,home mask h≠home mask p.2) :
    slots[home mask h]?=some .empty := by
  have bound : home mask h<slots.length := by
    have : home mask h ≤ mask := Nat.and_le_right
    rw [c.length]
    omega
  cases hg : slots[home mask h]? with
  | none =>
    rw [List.getElem?_eq_getElem bound] at hg
    cases hg
  | some s =>
    cases s with
    | empty => rfl
    | dummy => exact absurd hg (no_dummy slots _ clean)
    | active v x =>
      have mem := (SetTable.mem_actives slots v x).mpr ⟨_,hg⟩
      exact absurd (hs _ v x hg).symm (far (v,x) mem)

theorem home_stop (mask : Nat) (slots : List (Slot α)) (h : Int64)
    (he : slots[home mask h]?=some .empty) :
    ∃rest,probePath mask h=reach (occupied slots) (probePath mask h)++home mask h::rest := by
  obtain ⟨rest,hp⟩ := probePath_home mask h
  have free := occupied_eq_false slots _ he
  refine ⟨rest,?_⟩
  have stop : ¬occupied slots (h.toUInt64.toNat&&&mask)=true := by
    change ¬occupied slots (home mask h)=true
    rw [free]
    exact Bool.false_ne_true
  have none : reach (occupied slots) (probePath mask h)=[] := by
    rw [hp]
    exact List.takeWhile_cons_of_neg stop
  rw [none,hp]
  rfl

end Home

namespace SetTable

theorem insertAll_home (items : List (α×Int64)) {t t' : SetTable α} (c : Core t.mask t.slots)
    (room : fillOf t.slots+items.length<t.slots.length) (hs : AtHome t.mask t.slots)
    (clean : fillOf t.slots=t.actives.length) (far : Spread t.mask (items++t.actives))
    (ht : t.insertAll items=some t') : AtHome t'.mask t'.slots := by
  induction items generalizing t with
  | nil => cases ht; exact hs
  | cons p items ih =>
    rw [List.length_cons] at room
    have apart : ∀q∈activesOf t.slots,home t.mask p.2≠home t.mask q.2 := by
      intro q hq
      exact (List.pairwise_cons.mp far).1 q (List.mem_append_right items hq)
    have he := home_empty c hs clean p.2 apart
    obtain ⟨rest,stop⟩ := home_stop t.mask t.slots p.2 he
    have h₁ := insertClean_at p.2 _ rest stop he p.1
    obtain ⟨t₁,h₁',hm,_,_,c₁,hn,hp⟩ := insertClean_spec c (by omega) p.1 p.2
    have same := Option.some.inj (h₁.symm.trans h₁')
    have hl : t₁.slots.length=t.slots.length := by rw [c₁.length,c.length,hm]
    rw [insertAll,List.foldlM_cons,h₁'] at ht
    have more : (items++t₁.actives).Perm (p::items++t.actives) :=
      (List.Perm.append_left items hp).trans List.perm_middle
    apply ih c₁ (by rw [hn,hl]; omega) _ _ _ ht
    · rw [← same]
      exact atHome_set t.mask t.slots p.1 p.2 hs
    · rw [hn,hp.length_eq,clean]
      rfl
    · rw [hm]
      exact Spread.perm _ _ _ more.symm far

theorem resize_home (t t' : SetTable α) (minused : Nat) (hm : t.actives.length*2 ≤ minused)
    (far : Spread t'.mask t.actives) (ht : t.resize minused=some t') :
    AtHome t'.mask t'.slots := by
  obtain ⟨k,hk,hg,hlt⟩ := newsize_spec minused
  have core := core_replicate (α := α) k hk
  rw [resize,hg] at ht
  obtain ⟨t₁,h₁,hmask,_⟩ := insertAll_spec t.actives
    (t := ⟨List.replicate (2^k) .empty,2^k-1,t.actives.length,t.actives.length⟩)
    core (by simp; omega)
  have same := Option.some.inj (h₁.symm.trans ht)
  rw [same] at hmask
  rw [hmask] at far
  apply insertAll_home t.actives core (by simp; omega) _ _ _ ht
  · exact atHome_replicate _ _
  · simp [actives]
  · simpa [actives] using far

/-- An addition to a table without dummies that meets no equal entry. -/
theorem add_fresh (eq : α → α → Bool) {t : SetTable α} (w : WF t) (clean : t.fill=t.used)
    (v : α) (h : Int64) (fresh : t.actives.any (hit eq v h)=false) :
    ∃e rest,probePath t.mask h=reach (occupied t.slots) (probePath t.mask h)++e::rest ∧
      t.slots[e]?=some .empty ∧
      t.add eq v h=maybeResize
        {t with slots := t.slots.set e (.active v h),fill := t.fill+1,used := t.used+1} := by
  obtain ⟨e,rest,hs,he⟩ := w.core.stop w.room h
  have loop := addLoop_prefix eq t.slots v h (reach (occupied t.slots) (probePath t.mask h))
    rest e none (reach_occ _ _) he
  have nodummy : lastDummy t.slots (reach (occupied t.slots) (probePath t.mask h)) none=none := by
    cases hd : lastDummy t.slots (reach (occupied t.slots) (probePath t.mask h)) none with
    | none => rfl
    | some f =>
      obtain hfs|⟨_,hsf⟩ := lastDummy_spec _ _ _ _ hd
      · cases hfs
      · have hfill : fillOf t.slots=(activesOf t.slots).length := by
          rw [← w.fill,clean,w.used]
          rfl
        exact absurd hsf (no_dummy t.slots f hfill)
  have none : (activesOf t.slots).any (hit eq v h)=false := fresh
  rw [← hs,any_reach eq w.core v h,none,nodummy] at loop
  refine ⟨e,rest,hs,he,?_⟩
  unfold add
  rw [loop]
  rfl

end SetTable

section Replay

variable (eq : α → α → Bool)

/-- What a replay of pairwise unequal entries keeps: no dummies, and every entry at home
if the table has the size in question. -/
structure Replayed (mask : Nat) (t : SetTable α) : Prop where
  wf : t.WF
  clean : t.fill=t.used
  atHome : t.mask=mask → AtHome mask t.slots

theorem replay_add (mask : Nat) {t : SetTable α} (r : Replayed mask t) (v : α) (h : Int64)
    (fresh : t.actives.any (SetTable.hit eq v h)=false) (far : Spread mask ((v,h)::t.actives)) :
    ∃t',t.add eq v h=some t' ∧ Replayed mask t' ∧ t'.actives.Perm ((v,h)::t.actives) := by
  obtain ⟨e,rest,stop,he,hadd⟩ := SetTable.add_fresh eq r.wf r.clean v h fresh
  obtain ⟨t',ht,w,ha⟩ := SetTable.add_spec eq r.wf v h
  have hp : t'.actives.Perm ((v,h)::t.actives) := by
    cases ha with
    | inl same =>
      have bad := same.1
      rw [show t.actives.any (SetTable.hit eq v h)=false from fresh] at bad
      cases bad
    | inr more => exact more.2
  have hm := hadd.symm.trans ht
  unfold SetTable.maybeResize at hm
  split_ifs at hm with load
  · -- no resize: the entry went to its home, which was free
    have hc := Option.some.inj hm
    have maskEq : t.mask=t'.mask := by rw [← hc]
    refine ⟨t',ht,⟨w,?_,?_⟩,hp⟩
    · rw [← hc]
      change t.fill+1=t.used+1
      rw [r.clean]
    · intro hM
      have hM' : t.mask=mask := maskEq.trans hM
      have home := r.atHome hM'
      have hf : fillOf t.slots=(activesOf t.slots).length := by
        rw [← r.wf.fill,r.clean,r.wf.used]
        rfl
      have core := r.wf.core
      rw [hM'] at core stop
      have free := home_empty core home hf h (List.pairwise_cons.mp far).1
      obtain ⟨rest',stop'⟩ := home_stop mask t.slots h free
      have same := List.append_cancel_left (stop.symm.trans stop')
      have heq : e=InterpretThis.Pyset.home mask h := (List.cons.inj same).1
      rw [← hc,heq]
      exact atHome_set mask t.slots v h home
  · have hused : t.used+1=(activesOf (t.slots.set e (.active v h))).length := by
      obtain ⟨pre,post,hc,hw⟩ := cut t.slots e .empty he
      rw [r.wf.used,SetTable.actives,hw,hc]
      simp [activesOf]
      omega
    have enough : (activesOf (t.slots.set e (.active v h))).length*2≤SetTable.minusedFor (t.used+1) := by
      rw [← hused]
      exact SetTable.minusedFor_ge _
    obtain ⟨t₁,h₁,_,hp₁,_,hclean⟩ := SetTable.resize_spec
      {t with slots := t.slots.set e (.active v h),fill := t.fill+1,used := t.used+1} _ enough
    have same := Option.some.inj (h₁.symm.trans hm)
    rw [same] at hclean hp₁
    refine ⟨t',ht,⟨w,hclean,?_⟩,hp⟩
    intro hM
    have far' : Spread t'.mask (activesOf (t.slots.set e (.active v h))) := by
      rw [hM]
      exact Spread.perm _ _ _ (hp.symm.trans hp₁) far
    rw [← hM]
    exact SetTable.resize_home
      {t with slots := t.slots.set e (.active v h),fill := t.fill+1,used := t.used+1}
      t' _ enough far' hm

theorem replay_addAll (mask : Nat) (items : List (α×Int64)) {t : SetTable α} (r : Replayed mask t)
    (a : Apart eq (items++t.actives)) (far : Spread mask (items++t.actives)) :
    ∃t',t.addAll eq items=some t' ∧ Replayed mask t' ∧ t'.actives.Perm (items++t.actives) := by
  induction items generalizing t with
  | nil => exact ⟨t,rfl,r,List.Perm.refl _⟩
  | cons p items ih =>
    have fresh : t.actives.any (SetTable.hit eq p.1 p.2)=false := by
      rw [List.any_eq_false]
      intro q hq hh
      have hit : q.2=p.2 ∧ eq q.1 p.1=true := by simpa [SetTable.hit] using hh
      exact (List.pairwise_cons.mp a).1 q (by simp [hq]) ⟨hit.1.symm,.inr hit.2⟩
    have front : (p::t.actives).Sublist (p::items++t.actives) :=
      (List.sublist_append_right items t.actives).cons_cons p
    obtain ⟨t₁,h₁,r₁,p₁⟩ := replay_add eq mask r p.1 p.2 fresh (List.Pairwise.sublist front far)
    have more : (items++t₁.actives).Perm (p::items++t.actives) :=
      (List.Perm.append_left items p₁).trans List.perm_middle
    obtain ⟨t₂,h₂,r₂,p₂⟩ := ih r₁ (a.perm _ _ more.symm) (far.perm _ _ _ more.symm)
    refine ⟨t₂,?_,r₂,p₂.trans more⟩
    rw [SetTable.addAll,List.foldlM_cons,h₁]
    exact h₂

end Replay

section Rebuild

variable (eq : α → α → Bool) (hash : α → Int64)

theorem stable_hashed :
    SetTable.Stable eq (fun p => p.2=hash p.1) (fun l => ∀p∈l,p.2=hash p.1) where
  nil := by simp
  sound := fun l h => h
  perm := fun l r hp h p hm => h p (hp.mem_iff.mpr hm)
  cut := fun x l h p hm => h p (by simp [hm])
  add := by
    intro p l hp _ h q hq
    rw [List.mem_cons] at hq
    cases hq with
    | inl he => rw [he]; exact hp
    | inr ht => exact h q ht

theorem stable_apart (sym : ∀a b,hash a=hash b → eq a b=true → eq b a=true) :
    SetTable.Stable eq (fun p => p.2=hash p.1)
      (fun l => (∀p∈l,p.2=hash p.1) ∧ Apart eq l) where
  nil := ⟨by simp,List.Pairwise.nil⟩
  sound := fun l h => h.1
  perm := fun l r hp h => ⟨(stable_hashed eq hash).perm l r hp h.1,h.2.perm _ _ hp⟩
  cut := fun x l h => ⟨(stable_hashed eq hash).cut x l h.1,(List.pairwise_cons.mp h.2).2⟩
  add := by
    intro p l hp fresh h
    refine ⟨(stable_hashed eq hash).add p l hp fresh h.1,List.Pairwise.cons ?_ h.2⟩
    intro q hq clash
    rw [List.any_eq_false] at fresh
    have hh : hash p.1=hash q.1 := by rw [← hp,← h.1 q hq]; exact clash.1
    have back : eq q.1 p.1=true := by
      cases clash.2 with
      | inl hpq => exact sym _ _ hh hpq
      | inr hqp => exact hqp
    exact fresh q hq (by simp [SetTable.hit,clash.1,back])

theorem hashAll_actives (l : List (α×Int64)) (h : ∀p∈l,p.2=hash p.1) :
    hashAll (fun v => some (hash v)) (l.map Prod.fst)=some l := by
  induction l with
  | nil => rfl
  | cons p l ih =>
    have tail := ih (fun q hq => h q (by simp [hq]))
    rw [List.map_cons,hashAll,tail]
    simp [← h p (by simp)]

/-- Rebuilding any reachable table from its own listing returns, and lists nothing that the
table does not. Where equality is symmetric on equal hashes it lists the same elements, and
in the same order if the size is the same and every element sat in its home slot. -/
theorem rebuild_relists (ops : List (Op α)) :
    ∃T replies,Refinement.run (step eq hash) start ops=some (T,replies) ∧
      ∀r,∃u,tableFromIncremental eq (fun v => some (hash v)) (T r).iterOrdered=some (some u) ∧
        u.iterOrdered.Subperm (T r).iterOrdered ∧
        ((∀a b,hash a=hash b → eq a b=true → eq b a=true) →
          u.iterOrdered.Perm (T r).iterOrdered ∧
          (u.mask=(T r).mask → AtHome (T r).mask (T r).slots →
            u.iterOrdered=(T r).iterOrdered)) := by
  obtain ⟨T,replies,hrun,hT⟩ := SetTable.run_holds (stable_hashed eq hash) ops
  refine ⟨T,replies,hrun,?_⟩
  intro r
  obtain ⟨u,hu,_,hadds⟩ := SetTable.addAll_spec eq (T r).actives SetTable.wf_withCapacity
  have empty : (SetTable.withCapacity minsize : SetTable α).actives=[] := by
    simp [SetTable.actives,SetTable.withCapacity]
  rw [empty] at hadds
  refine ⟨u,?_,?_,?_⟩
  · rw [tableFromIncremental,SetTable.iterOrdered,hashAll_actives hash _ (hT r).contents,
      Option.map_some,hu]
  · have sub := SetTable.addsTo_subperm eq _ _ _ hadds
    rw [List.append_nil] at sub
    obtain ⟨m,hm,hs⟩ := sub
    exact ⟨m.map Prod.fst,hm.map _,hs.map _⟩
  · intro sym
    obtain ⟨T₂,replies₂,hrun₂,hT₂⟩ := SetTable.run_holds (stable_apart eq hash sym) ops
    have same : T₂=T := congrArg Prod.fst (Option.some.inj (hrun₂.symm.trans hrun))
    have apart : Apart eq (T r).actives := by
      rw [← same]
      exact (hT₂ r).contents.2
    have perm : u.actives.Perm (T r).actives := by
      have := SetTable.addsTo_perm eq _ _ _ (by rw [List.append_nil]; exact apart) hadds
      rwa [List.append_nil] at this
    refine ⟨perm.map Prod.fst,?_⟩
    intro hmask hhome
    have sorted := atHome_sorted _ _ 0 (fun i v x hi => by rw [hhome i v x hi,Nat.zero_add])
    have far : Spread (T r).mask ((T r).actives++[]) := by
      rw [List.append_nil]
      exact sorted.imp (fun hlt => Nat.ne_of_lt hlt)
    have begin : Replayed (T r).mask (SetTable.withCapacity minsize : SetTable α) :=
      ⟨SetTable.wf_withCapacity,rfl,fun _ => atHome_replicate _ _⟩
    obtain ⟨u',hu',ru,_⟩ := replay_addAll eq (T r).mask (T r).actives begin
      (by rw [empty,List.append_nil]; exact apart) (by rw [empty]; exact far)
    have equ : u'=u := Option.some.inj (hu'.symm.trans hu)
    rw [equ] at ru
    have listed := atHome_eq (T r).mask u.slots (T r).slots (ru.atHome hmask) hhome perm
    rw [SetTable.iterOrdered,SetTable.iterOrdered,SetTable.actives,listed]
    rfl

/-- The integers 7 and 15 share their home slot in a table of size 8. The one added second
comes first in the listing, so a replay swaps them. -/
theorem rebuild_reorders :
    ¬∀(ops : List (Op Int64)) (T : Bank Int64) (replies : List (Reply Int64)),
      Refinement.run (step (fun a b => a==b) id) start ops=some (T,replies) →
        ∀r,∃u,tableFromIncremental (fun a b => a==b) some (T r).iterOrdered=some (some u) ∧
          u.iterOrdered=(T r).iterOrdered := by
  intro claim
  have run : ∃T replies,Refinement.run (step (fun a b : Int64 => a==b) id) start
      [.add 0 7,.add 0 15]=some (T,replies) ∧ (T 0).iterOrdered=[15,7] := by
    exact ⟨_,_,rfl,by decide⟩
  obtain ⟨T,replies,hrun,hlist⟩ := run
  obtain ⟨u,hu,he⟩ := claim _ T replies hrun 0
  rw [hlist] at hu he
  have back : (tableFromIncremental (fun a b : Int64 => a==b) some [15,7]).map
      (Option.map SetTable.iterOrdered)=some (some [7,15]) := by decide
  rw [hu] at back
  have swapped : u.iterOrdered=[7,15] := by simpa using back
  rw [he] at swapped
  exact absurd swapped (by decide)

end Rebuild

end InterpretThis.Pyset
