import InterpretThis.Pyset.Operations
import Mathlib.Data.Set.Card

namespace InterpretThis.Pyset

open InterpretThis.Probe

namespace SetTable

variable {α : Type} (eq : α → α → Bool)

/-- The contents after adding `items` one by one. -/
inductive AddsTo : List (α×Int64) → List (α×Int64) → List (α×Int64) → Prop
  | nil (l : List (α×Int64)) : AddsTo l [] l
  | cons (l m r items : List (α×Int64)) (p : α×Int64) :
      AddTo eq l p m → AddsTo m items r → AddsTo l (p::items) r

inductive DiscardsFrom : List (α×Int64) → List (α×Int64) → List (α×Int64) → Prop
  | nil (l : List (α×Int64)) : DiscardsFrom l [] l
  | cons (l m r items : List (α×Int64)) (p : α×Int64) (b : Bool) :
      DiscardFrom eq l p b m → DiscardsFrom m items r → DiscardsFrom l (p::items) r

/-- The contents after discarding each item or else adding it. -/
inductive TogglesTo : List (α×Int64) → List (α×Int64) → List (α×Int64) → Prop
  | nil (l : List (α×Int64)) : TogglesTo l [] l
  | cut (l m r items : List (α×Int64)) (p : α×Int64) :
      DiscardFrom eq l p true m → TogglesTo m items r → TogglesTo l (p::items) r
  | put (l m n r items : List (α×Int64)) (p : α×Int64) :
      DiscardFrom eq l p false m → AddTo eq m p n → TogglesTo n items r →
        TogglesTo l (p::items) r

theorem addAll_spec (items : List (α×Int64)) {t : SetTable α} (w : WF t) :
    ∃t',t.addAll eq items=some t' ∧ WF t' ∧ AddsTo eq t.actives items t'.actives := by
  induction items generalizing t with
  | nil => exact ⟨t,rfl,w,.nil _⟩
  | cons p items ih =>
    obtain ⟨t₁,h₁,w₁,a₁⟩ := add_spec eq w p.1 p.2
    obtain ⟨t₂,h₂,w₂,a₂⟩ := ih w₁
    refine ⟨t₂,?_,w₂,.cons _ _ _ _ _ a₁ a₂⟩
    rw [addAll,List.foldlM_cons,h₁]
    exact h₂

theorem discardAll_spec (items : List (α×Int64)) {t : SetTable α} (w : WF t) :
    ∃t',t.discardAll eq items=some t' ∧ WF t' ∧ DiscardsFrom eq t.actives items t'.actives := by
  induction items generalizing t with
  | nil => exact ⟨t,rfl,w,.nil _⟩
  | cons p items ih =>
    obtain ⟨b,t₁,h₁,w₁,a₁⟩ := discard_spec eq w p.1 p.2
    obtain ⟨t₂,h₂,w₂,a₂⟩ := ih w₁
    refine ⟨t₂,?_,w₂,.cons _ _ _ _ _ b a₁ a₂⟩
    rw [discardAll,List.foldlM_cons,h₁]
    exact h₂

theorem toggleAll_spec (items : List (α×Int64)) {t : SetTable α} (w : WF t) :
    ∃t',items.foldlM (toggle eq) t=some t' ∧ WF t' ∧ TogglesTo eq t.actives items t'.actives := by
  induction items generalizing t with
  | nil => exact ⟨t,rfl,w,.nil _⟩
  | cons p items ih =>
    obtain ⟨b,t₁,h₁,w₁,a₁⟩ := discard_spec eq w p.1 p.2
    cases b with
    | true =>
      obtain ⟨t₂,h₂,w₂,a₂⟩ := ih w₁
      refine ⟨t₂,?_,w₂,.cut _ _ _ _ _ a₁ a₂⟩
      rw [List.foldlM_cons,toggle,h₁]
      exact h₂
    | false =>
      obtain ⟨t₂,h₂,w₂,a₂⟩ := add_spec eq w₁ p.1 p.2
      obtain ⟨t₃,h₃,w₃,a₃⟩ := ih w₂
      refine ⟨t₃,?_,w₃,.put _ _ _ _ _ _ a₁ a₂ a₃⟩
      rw [List.foldlM_cons,toggle,h₁]
      change ((t₁.add eq p.1 p.2).bind _)=_
      rw [h₂]
      exact h₃

theorem addWhere_spec (want : Bool) (items : List (α×Int64)) {other r : SetTable α}
    (wo : WF other) (w : WF r) :
    ∃r',addWhere eq other want items r=some r' ∧ WF r' ∧
      AddsTo eq r.actives
        (items.filter fun p => other.actives.any (hit eq p.1 p.2)==want) r'.actives := by
  induction items generalizing r with
  | nil => exact ⟨r,rfl,w,.nil _⟩
  | cons p items ih =>
    rw [addWhere,contains_eq eq wo]
    by_cases hw : other.actives.any (hit eq p.1 p.2)=want
    · obtain ⟨r₁,h₁,w₁,a₁⟩ := add_spec eq w p.1 p.2
      obtain ⟨r₂,h₂,w₂,a₂⟩ := ih w₁
      refine ⟨r₂,?_,w₂,?_⟩
      · change (if other.actives.any (hit eq p.1 p.2)=want then _ else _)=_
        rw [if_pos hw,h₁]
        exact h₂
      · rw [List.filter_cons_of_pos (by simpa using hw)]
        exact .cons _ _ _ _ _ a₁ a₂
    · obtain ⟨r₁,h₁,w₁,a₁⟩ := ih w
      refine ⟨r₁,?_,w₁,?_⟩
      · change (if other.actives.any (hit eq p.1 p.2)=want then _ else _)=_
        rw [if_neg hw]
        exact h₁
      · rw [List.filter_cons_of_neg (by simpa using hw)]
        exact a₁

/-- What a merge does to the contents: a plain copy into an empty table, else additions. -/
def MergeTo (l items r : List (α×Int64)) : Prop :=
  (l=[] ∧ r.Perm items) ∨ ∃m : List (α×Int64),m.Perm l ∧ AddsTo eq m items r

theorem activesOf_of_fill_zero (slots : List (Slot α)) (h : fillOf slots=0) :
    activesOf slots=[] := by
  have hl := activesOf_length_le slots
  exact List.length_eq_zero_iff.mp (by omega)

/-- Copying into empty slots a table without dummies reproduces its slots. -/
theorem copySlots_eq (mine other : List (Slot α)) (hl : mine.length=other.length)
    (hm : fillOf mine=0) (ho : fillOf other=(activesOf other).length) :
    copySlots mine other=other := by
  induction mine generalizing other with
  | nil =>
    have hn : other=[] := List.length_eq_zero_iff.mp hl.symm
    rw [hn]
    rfl
  | cons a mine ih =>
    cases other with
    | nil => simp at hl
    | cons b other =>
      cases a with
      | dummy => simp [fillOf] at hm
      | active v h => simp [fillOf] at hm
      | empty =>
        have hle := activesOf_length_le other
        have tail : fillOf other=(activesOf other).length → copySlots mine other=other :=
          ih other (by simpa using hl) (by simpa [fillOf] using hm)
        cases b with
        | dummy => simp only [fillOf,activesOf] at ho; omega
        | empty =>
          have := tail (by simpa [fillOf,activesOf] using ho)
          unfold copySlots at this ⊢
          rw [List.zipWith_cons_cons,this]
        | active v h =>
          have := tail (by simpa [fillOf,activesOf] using ho)
          unfold copySlots at this ⊢
          rw [List.zipWith_cons_cons,this]

theorem mergeInto_spec {t other : SetTable α} (w : WF t) (wo : WF other)
    (room : (t.fill+other.used)*5<t.mask*3) :
    ∃t',mergeInto eq t other=some t' ∧ WF t' ∧ MergeTo eq t.actives other.actives t'.actives := by
  unfold mergeInto
  split_ifs with hcopy hclean
  · obtain ⟨hz,hm,hd⟩ := hcopy
    have he : fillOf t.slots=0 := w.fill.symm.trans hz
    have hs : copySlots t.slots other.slots=other.slots := by
      apply copySlots_eq _ _ _ he
      · rw [← wo.fill,hd,wo.used]
        rfl
      · rw [w.core.length,wo.core.length,hm]
    refine ⟨other,?_,wo,.inl ⟨activesOf_of_fill_zero _ he,List.Perm.refl _⟩⟩
    rw [hs,hm]
  · have he : fillOf t.slots=0 := w.fill.symm.trans hclean
    have ha := activesOf_of_fill_zero _ he
    have hl := w.core.length
    have hu := wo.used
    obtain ⟨t',ht,hm,hf,hu',hc,hn,hp⟩ := insertAll_spec other.actives
      (t := {t with fill := other.used,used := other.used}) w.core
      (by change fillOf t.slots+_<t.slots.length; omega)
    refine ⟨t',ht,⟨hc,?_,?_,?_⟩,.inl ⟨ha,?_⟩⟩
    · rw [hu',hp.length_eq,List.length_append]
      change other.used=_+(activesOf t.slots).length
      rw [ha,wo.used]
      rfl
    · rw [hf,hn]
      change other.used=fillOf t.slots+_
      rw [he,wo.used,Nat.zero_add]
    · rw [hf,hm]
      change other.used*5<t.mask*3
      omega
    · have : t'.actives.Perm (other.actives++activesOf t.slots) := hp
      rwa [ha,List.append_nil] at this
  · obtain ⟨t',ht,w',ha⟩ := addAll_spec eq other.actives w
    exact ⟨t',ht,w',.inr ⟨t.actives,List.Perm.refl _,ha⟩⟩

theorem merge_spec {t other : SetTable α} (w : WF t) (wo : WF other) :
    ∃t',t.merge eq other=some t' ∧ WF t' ∧ MergeTo eq t.actives other.actives t'.actives := by
  unfold merge
  split_ifs with hl
  · obtain ⟨t₁,h₁,w₁,p₁,hm,hf⟩ := resize_spec t ((t.used+other.used)*2)
      (by rw [w.used]; omega)
    obtain ⟨k,hk,hp⟩ := w₁.core.pow
    have h8 : 2^3≤2^k := Nat.pow_le_pow_right (by omega) hk
    have hu : t₁.used=t.used := by rw [w₁.used,w.used,p₁.length_eq]
    obtain ⟨t₂,h₂,w₂,m₂⟩ := mergeInto_spec eq w₁ wo (by rw [hf,hu]; omega)
    refine ⟨t₂,by rw [h₁]; exact h₂,w₂,?_⟩
    rcases m₂ with ⟨he,hp'⟩|⟨m,hm',ha⟩
    · left
      rw [he] at p₁
      exact ⟨p₁.symm.eq_nil,hp'⟩
    · exact .inr ⟨m,hm'.trans p₁,ha⟩
  · exact mergeInto_spec eq w wo (by omega)

theorem compactIfSparse_spec {t : SetTable α} (w : WF t) :
    ∃t',t.compactIfSparse=some t' ∧ WF t' ∧ t'.actives.Perm t.actives := by
  unfold compactIfSparse
  split_ifs
  · obtain ⟨t',ht,w',hp,_,_⟩ := resize_spec t (minusedFor t.used)
      (by rw [← w.used]; exact minusedFor_ge t.used)
    exact ⟨t',ht,w',hp⟩
  · exact ⟨t,rfl,w,List.Perm.refl _⟩

theorem popSlots_spec (slots : List (Slot α)) :
    (popSlots slots=none ∧ activesOf slots=[]) ∨
      ∃pre v h post,slots=pre++.active v h::post ∧ activesOf pre=[] ∧
        popSlots slots=some (v,pre++.dummy::post) := by
  induction slots with
  | nil => exact .inl ⟨rfl,rfl⟩
  | cons s slots ih =>
    cases s with
    | active v h => exact .inr ⟨[],v,h,slots,rfl,rfl,rfl⟩
    | empty =>
      rcases ih with ⟨hn,ha⟩|⟨pre,v,h,post,hs,ha,hp⟩
      · exact .inl ⟨by rw [popSlots,hn]; rfl,ha⟩
      · exact .inr ⟨.empty::pre,v,h,post,by rw [hs]; rfl,ha,by rw [popSlots,hp]; rfl⟩
    | dummy =>
      rcases ih with ⟨hn,ha⟩|⟨pre,v,h,post,hs,ha,hp⟩
      · exact .inl ⟨by rw [popSlots,hn]; rfl,ha⟩
      · exact .inr ⟨.dummy::pre,v,h,post,by rw [hs]; rfl,ha,by rw [popSlots,hp]; rfl⟩

theorem popFirst_spec {t : SetTable α} (w : WF t) :
    (t.popFirst=(none,t) ∧ t.actives=[]) ∨
      ∃v h t',t.popFirst=(some v,t') ∧ WF t' ∧ t.actives=(v,h)::t'.actives := by
  unfold popFirst
  rcases popSlots_spec t.slots with ⟨hn,ha⟩|⟨pre,v,h,post,hs,ha,hp⟩
  · exact .inl ⟨by rw [hn],ha⟩
  · right
    have he : t.slots[pre.length]?=some (.active v h) := by rw [hs]; simp
    have hset : t.slots.set pre.length .dummy=pre++.dummy::post := by rw [hs]; simp
    obtain ⟨w',_⟩ := tombstone w pre.length v h he
    rw [hset] at w'
    refine ⟨v,h,_,by rw [hp],w',?_⟩
    rw [actives,actives,hs]
    simp [activesOf,ha]

end SetTable

/-- An equality that is an equivalence and implies equal hashes. -/
structure HashEq (α : Type) where
  eq : α → α → Bool
  hash : α → Int64
  equiv : Equivalence (fun a b => eq a b=true)
  agrees : ∀a b,eq a b=true → hash a=hash b

namespace HashEq

variable {α : Type} (H : HashEq α)

def setoid : Setoid α := ⟨fun a b => H.eq a b=true,H.equiv⟩

def Class : Type := Quotient H.setoid

def cls (a : α) : H.Class := Quotient.mk H.setoid a

theorem cls_eq (a b : α) : H.cls a=H.cls b ↔ H.eq a b=true := by
  constructor
  · intro h
    exact Quotient.exact (s := H.setoid) h
  · intro h
    exact Quotient.sound (s := H.setoid) h

def classes (l : List (α×Int64)) : Set H.Class := {c | ∃p∈l,H.cls p.1=c}

/-- Entries stored under their own hash, no two of them equal. -/
structure Good (l : List (α×Int64)) : Prop where
  hashed : ∀p∈l,p.2=H.hash p.1
  nodup : (l.map fun p => H.cls p.1).Nodup

theorem classes_perm (l r : List (α×Int64)) (h : l.Perm r) : H.classes l=H.classes r := by
  ext c
  constructor
  · intro hc
    obtain ⟨p,hp,he⟩ := hc
    exact ⟨p,h.mem_iff.mp hp,he⟩
  · intro hc
    obtain ⟨p,hp,he⟩ := hc
    exact ⟨p,h.mem_iff.mpr hp,he⟩

theorem good_perm (l r : List (α×Int64)) (h : l.Perm r) (g : H.Good l) : H.Good r := by
  refine ⟨fun p hp => g.hashed p (h.mem_iff.mpr hp),?_⟩
  have hm := h.map fun p => H.cls p.1
  exact hm.nodup_iff.mp g.nodup

theorem good_nil : H.Good [] := ⟨by simp,by simp⟩

theorem classes_nil : H.classes []=∅ := by
  ext c
  simp [classes]

theorem classes_cons (p : α×Int64) (l : List (α×Int64)) :
    H.classes (p::l)=insert (H.cls p.1) (H.classes l) := by
  ext c
  simp [classes,eq_comm]

theorem good_cons (p : α×Int64) (l : List (α×Int64)) :
    H.Good (p::l) ↔ p.2=H.hash p.1 ∧ H.cls p.1∉H.classes l ∧ H.Good l := by
  have mem : H.cls p.1∈l.map (fun q => H.cls q.1) ↔ H.cls p.1∈H.classes l := by
    simp [classes]
  constructor
  · intro g
    have hn := g.nodup
    rw [List.map_cons,List.nodup_cons,mem] at hn
    exact ⟨g.hashed p (by simp),hn.1,⟨fun q hq => g.hashed q (by simp [hq]),hn.2⟩⟩
  · intro h
    obtain ⟨hp,hm,g⟩ := h
    refine ⟨?_,?_⟩
    · intro q hq
      rw [List.mem_cons] at hq
      cases hq with
      | inl he => rw [he]; exact hp
      | inr ht => exact g.hashed q ht
    · rw [List.map_cons,List.nodup_cons,mem]
      exact ⟨hm,g.nodup⟩

theorem any_hit (l : List (α×Int64)) (hl : ∀p∈l,p.2=H.hash p.1) (v : α) :
    l.any (SetTable.hit H.eq v (H.hash v))=true ↔ H.cls v∈H.classes l := by
  rw [List.any_eq_true]
  constructor
  · intro h
    obtain ⟨p,hp,hh⟩ := h
    have hit : p.2=H.hash v ∧ H.eq p.1 v=true := by simpa [SetTable.hit] using hh
    exact ⟨p,hp,(H.cls_eq _ _).mpr hit.2⟩
  · intro h
    obtain ⟨p,hp,he⟩ := h
    have heq := (H.cls_eq _ _).mp he
    have hash : p.2=H.hash v := (hl p hp).trans (H.agrees _ _ heq)
    exact ⟨p,hp,by simp [SetTable.hit,hash,heq]⟩

theorem any_hit_false (l : List (α×Int64)) (hl : ∀p∈l,p.2=H.hash p.1) (v : α) :
    l.any (SetTable.hit H.eq v (H.hash v))=false ↔ H.cls v∉H.classes l := by
  rw [← H.any_hit l hl v,Bool.not_eq_true]

open SetTable

theorem addTo_spec (l r : List (α×Int64)) (p : α×Int64) (g : H.Good l) (hp : p.2=H.hash p.1)
    (h : AddTo H.eq l p r) : H.Good r ∧ H.classes r=insert (H.cls p.1) (H.classes l) := by
  unfold AddTo at h
  rw [hp,H.any_hit l g.hashed,H.any_hit_false l g.hashed] at h
  cases h with
  | inl hin =>
    rw [hin.2]
    exact ⟨g,(Set.insert_eq_of_mem hin.1).symm⟩
  | inr hout =>
    have gc : H.Good (p::l) := (H.good_cons p l).mpr ⟨hp,hout.1,g⟩
    exact ⟨H.good_perm _ _ hout.2.symm gc,by rw [H.classes_perm _ _ hout.2,classes_cons]⟩

theorem addsTo_spec (l items r : List (α×Int64)) (g : H.Good l)
    (hi : ∀p∈items,p.2=H.hash p.1) (h : AddsTo H.eq l items r) :
    H.Good r ∧ H.classes r=H.classes l∪H.classes items := by
  induction h with
  | nil l => exact ⟨g,by rw [classes_nil,Set.union_empty]⟩
  | cons l m r items p ha _ ih =>
    have one := H.addTo_spec l m p g (hi p (by simp)) ha
    have rest := ih one.1 (fun q hq => hi q (by simp [hq]))
    refine ⟨rest.1,?_⟩
    rw [rest.2,one.2,classes_cons,Set.insert_union,Set.union_insert]

theorem mergeTo_spec (l items r : List (α×Int64)) (g : H.Good l) (gi : H.Good items)
    (h : MergeTo H.eq l items r) :
    H.Good r ∧ H.classes r=H.classes l∪H.classes items := by
  cases h with
  | inl hc =>
    refine ⟨H.good_perm _ _ hc.2.symm gi,?_⟩
    rw [hc.1,classes_nil,Set.empty_union]
    exact H.classes_perm _ _ hc.2
  | inr ha =>
    obtain ⟨m,hm,ha⟩ := ha
    have all := H.addsTo_spec m items r (H.good_perm _ _ hm.symm g) gi.hashed ha
    rw [H.classes_perm _ _ hm] at all
    exact all

theorem discardFrom_spec (l r : List (α×Int64)) (p : α×Int64) (b : Bool) (g : H.Good l)
    (hp : p.2=H.hash p.1) (h : DiscardFrom H.eq l p b r) :
    H.Good r ∧ H.classes r=H.classes l \ {H.cls p.1} ∧ (b=true ↔ H.cls p.1∈H.classes l) := by
  unfold DiscardFrom at h
  rw [hp,H.any_hit_false l g.hashed] at h
  cases h with
  | inl hout =>
    obtain ⟨hb,hn,hr⟩ := hout
    rw [hr,hb]
    exact ⟨g,(Set.sdiff_singleton_eq_self hn).symm,by simp [hn]⟩
  | inr hin =>
    obtain ⟨hb,pre,x,post,hx,hl,hr⟩ := hin
    have middle : l.Perm (x::(pre++post)) := by rw [hl]; exact List.perm_middle
    have parts := (H.good_cons _ _).mp (H.good_perm _ _ middle g)
    have heq : H.cls x.1=H.cls p.1 := by
      have hit : x.2=H.hash p.1 ∧ H.eq x.1 p.1=true := by simpa [SetTable.hit] using hx
      exact (H.cls_eq _ _).mpr hit.2
    have hcl : H.classes l=insert (H.cls p.1) (H.classes (pre++post)) := by
      rw [H.classes_perm _ _ middle,classes_cons,heq]
    have hnot := parts.2.1
    rw [heq] at hnot
    rw [hr]
    refine ⟨parts.2.2,?_,?_⟩
    · rw [hcl,Set.insert_sdiff_of_mem _ (Set.mem_singleton _),Set.sdiff_singleton_eq_self hnot]
    · rw [hb,hcl]
      simp

theorem discardsFrom_spec (l items r : List (α×Int64)) (g : H.Good l)
    (hi : ∀p∈items,p.2=H.hash p.1) (h : DiscardsFrom H.eq l items r) :
    H.Good r ∧ H.classes r=H.classes l \ H.classes items := by
  induction h with
  | nil l => exact ⟨g,by rw [classes_nil,Set.sdiff_empty]⟩
  | cons l m r items p b hd _ ih =>
    have one := H.discardFrom_spec l m p b g (hi p (by simp)) hd
    have rest := ih one.1 (fun q hq => hi q (by simp [hq]))
    refine ⟨rest.1,?_⟩
    rw [rest.2,one.2.1,classes_cons,Set.sdiff_sdiff,Set.singleton_union]

/-- Toggling a list without repeats flips exactly its classes. -/
theorem togglesTo_spec (l items r : List (α×Int64)) (g : H.Good l) (gi : H.Good items)
    (h : TogglesTo H.eq l items r) :
    H.Good r ∧ H.classes r=symmDiff (H.classes l) (H.classes items) := by
  induction h with
  | nil l => exact ⟨g,by rw [classes_nil,← Set.bot_eq_empty,symmDiff_bot]⟩
  | cut l m r items p hd _ ih =>
    have parts := (H.good_cons p items).mp gi
    have one := H.discardFrom_spec l m p true g parts.1 hd
    have rest := ih one.1 parts.2.2
    have hin : H.cls p.1∈H.classes l := one.2.2.mp rfl
    have hout := parts.2.1
    refine ⟨rest.1,?_⟩
    rw [rest.2,one.2.1,classes_cons]
    ext c
    by_cases hc : c=H.cls p.1
    · simp [Set.mem_symmDiff,hc,hin,hout]
    · simp [Set.mem_symmDiff,hc]
  | put l m n r items p hd ha _ ih =>
    have parts := (H.good_cons p items).mp gi
    have one := H.discardFrom_spec l m p false g parts.1 hd
    have two := H.addTo_spec m n p one.1 parts.1 ha
    have rest := ih two.1 parts.2.2
    have hin : H.cls p.1∉H.classes l := fun hc => Bool.false_ne_true (one.2.2.mpr hc)
    have hout := parts.2.1
    refine ⟨rest.1,?_⟩
    rw [rest.2,two.2,one.2.1,classes_cons]
    ext c
    by_cases hc : c=H.cls p.1
    · simp [Set.mem_symmDiff,hc,hin,hout]
    · simp [Set.mem_symmDiff,hc]

/-- Filtering by a membership test keeps the entries whose class is, or is not, in the set. -/
theorem filter_spec (l items : List (α×Int64)) (want : Bool) (g : H.Good l) (gi : H.Good items) :
    H.Good (items.filter fun p => l.any (hit H.eq p.1 p.2)==want) ∧
      H.classes (items.filter fun p => l.any (hit H.eq p.1 p.2)==want)=
        {c | c∈H.classes items ∧ (c∈H.classes l ↔ want=true)} := by
  have test : ∀p∈items,((l.any (hit H.eq p.1 p.2)==want)=true ↔
      (H.cls p.1∈H.classes l ↔ want=true)) := by
    intro p hp
    rw [gi.hashed p hp,← H.any_hit l g.hashed p.1]
    cases want <;> simp
  refine ⟨⟨fun p hp => gi.hashed p (List.mem_of_mem_filter hp),?_⟩,?_⟩
  · exact gi.nodup.sublist (List.filter_sublist.map _)
  · ext c
    constructor
    · intro hc
      obtain ⟨p,hp,he⟩ := hc
      rw [List.mem_filter] at hp
      rw [← he]
      exact ⟨⟨p,hp.1,rfl⟩,(test p hp.1).mp hp.2⟩
    · intro hc
      obtain ⟨⟨p,hp,he⟩,hw⟩ := hc
      rw [← he] at hw
      exact ⟨p,List.mem_filter.mpr ⟨hp,(test p hp).mpr hw⟩,he⟩

end HashEq

end InterpretThis.Pyset
