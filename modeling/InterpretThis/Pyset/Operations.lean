import InterpretThis.Pyset.Table

namespace InterpretThis.Pyset

open InterpretThis.Probe

namespace SetTable

variable {α : Type}

/-- What every table the operations build satisfies: a power-of-two size, exact counters,
a load below three fifths and every entry within the reach of its probe path. -/
structure WF (t : SetTable α) : Prop where
  core : Core t.mask t.slots
  used : t.used=t.actives.length
  fill : t.fill=fillOf t.slots
  load : t.fill*5<t.mask*3

variable {t : SetTable α}

theorem WF.room (w : WF t) : fillOf t.slots<t.slots.length := by
  have h := w.load
  rw [w.fill] at h
  rw [w.core.length]
  omega

theorem wf_withCapacity : WF (withCapacity minsize : SetTable α) := by
  refine ⟨⟨⟨3,le_refl 3,rfl⟩,rfl,?_⟩,?_,?_,by simp [withCapacity,minsize]⟩
  · intro j v h hj
    have hr := List.mem_of_getElem? hj
    simp [withCapacity] at hr
  · simp [withCapacity,actives]
  · simp [withCapacity]

section Walks

variable (eq : α → α → Bool)

/-- The match test of the probe loops at one entry. -/
def matchAt (slots : List (Slot α)) (v : α) (h : Int64) (e : Nat) : Bool :=
  match slots[e]? with
  | some (.active ev eh) => decide (eh=h ∧ eq ev v)
  | _ => false

theorem matchAt_iff (slots : List (Slot α)) (v : α) (h : Int64) (e : Nat) :
    matchAt eq slots v h e=true ↔ ∃ev,slots[e]?=some (.active ev h) ∧ eq ev v=true := by
  unfold matchAt
  cases hs : slots[e]? with
  | none => simp
  | some s =>
    cases s with
    | empty => simp
    | dummy => simp
    | active ev eh =>
      simp only [decide_eq_true_eq,Option.some.injEq,Slot.active.injEq]
      constructor
      · rintro ⟨rfl,hv⟩; exact ⟨ev,⟨rfl,rfl⟩,hv⟩
      · rintro ⟨_,⟨rfl,rfl⟩,hv⟩; exact ⟨rfl,hv⟩

theorem lookup_prefix (slots : List (Slot α)) (v : α) (h : Int64) (q rest : List Nat) (e : Nat)
    (hq : ∀x∈q,occupied slots x=true) (he : slots[e]?=some .empty) :
    lookup eq slots v h (q++e::rest)=some (q.find? (matchAt eq slots v h)) := by
  induction q with
  | nil => simp [lookup,he]
  | cons a q ih =>
    have ha := hq a (by simp)
    have tail := ih (fun x hx => hq x (by simp [hx]))
    rw [List.cons_append,lookup,List.find?_cons]
    cases hs : slots[a]? with
    | none => simp [occupied,hs] at ha
    | some s =>
      cases s with
      | empty => simp [occupied,hs] at ha
      | dummy => simpa [matchAt,hs] using tail
      | active ev eh =>
        by_cases hm : eh=h ∧ eq ev v=true
        · simp [matchAt,hs,hm]
        · simpa [matchAt,hs,hm] using tail

/-- The reusable slot an `add` remembers: the last dummy of the prefix. -/
def lastDummy (slots : List (Slot α)) : List Nat → Option Nat → Option Nat
  | [],fs => fs
  | e::q,fs =>
    match slots[e]? with
    | some .dummy => lastDummy slots q (some e)
    | _ => lastDummy slots q fs

theorem lastDummy_spec (slots : List (Slot α)) (q : List Nat) (fs : Option Nat) (e : Nat)
    (h : lastDummy slots q fs=some e) : fs=some e ∨ (e∈q ∧ slots[e]?=some .dummy) := by
  induction q generalizing fs with
  | nil => exact .inl h
  | cons a q ih =>
    unfold lastDummy at h
    split at h
    · rename_i hd
      rcases ih _ h with hfs|⟨hm,hs⟩
      · cases hfs; exact .inr ⟨by simp,hd⟩
      · exact .inr ⟨by simp [hm],hs⟩
    · rcases ih _ h with hfs|⟨hm,hs⟩
      · exact .inl hfs
      · exact .inr ⟨by simp [hm],hs⟩

theorem addLoop_prefix (slots : List (Slot α)) (v : α) (h : Int64) (q rest : List Nat) (e : Nat)
    (fs : Option Nat) (hq : ∀x∈q,occupied slots x=true) (he : slots[e]?=some .empty) :
    addLoop eq slots v h (q++e::rest) fs=
      if q.any (matchAt eq slots v h) then some .present
      else match lastDummy slots q fs with
        | some f => some (.reuse f)
        | none => some (.fresh e) := by
  induction q generalizing fs with
  | nil => cases fs <;> simp [addLoop,he,lastDummy]
  | cons a q ih =>
    have ha := hq a (by simp)
    have tail := fun fs => ih fs (fun x hx => hq x (by simp [hx]))
    rw [List.cons_append,List.any_cons]
    simp only [addLoop]
    cases hs : slots[a]? with
    | none => simp [occupied,hs] at ha
    | some s =>
      cases s with
      | empty => simp [occupied,hs] at ha
      | dummy => simpa [matchAt,hs,lastDummy] using tail (some a)
      | active ev eh =>
        by_cases hm : eh=h ∧ eq ev v=true
        · simp [matchAt,hs,hm]
        · simpa [matchAt,hs,hm,lastDummy] using tail fs

end Walks

theorem mem_actives (slots : List (Slot α)) (v : α) (h : Int64) :
    (v,h)∈activesOf slots ↔ ∃e : Nat,slots[e]?=some (Slot.active v h) := by
  rw [← List.mem_iff_getElem?]
  induction slots with
  | nil => simp [activesOf]
  | cons s slots ih =>
    cases s with
    | empty => simp [activesOf,ih]
    | dummy => simp [activesOf,ih]
    | active w x => simp [activesOf,ih,Prod.ext_iff]

/-- The entry test `(p.2 = hash) && eq(p.0, value)` on the contents of a table. -/
def hit (eq : α → α → Bool) (v : α) (h : Int64) (p : α×Int64) : Bool :=
  decide (p.2=h ∧ eq p.1 v=true)

theorem any_reach (eq : α → α → Bool) {mask : Nat} {slots : List (Slot α)} (c : Core mask slots)
    (v : α) (h : Int64) :
    (reach (occupied slots) (probePath mask h)).any (matchAt eq slots v h)=
      (activesOf slots).any (hit eq v h) := by
  rw [Bool.eq_iff_iff,List.any_eq_true,List.any_eq_true]
  constructor
  · rintro ⟨e,_,hm⟩
    obtain ⟨ev,hs,hv⟩ := (matchAt_iff eq slots v h e).mp hm
    exact ⟨(ev,h),(mem_actives slots ev h).mpr ⟨e,hs⟩,by simp [hit,hv]⟩
  · rintro ⟨⟨ev,eh⟩,hp,hh⟩
    obtain ⟨e,hs⟩ := (mem_actives slots ev eh).mp hp
    have hit' : eh=h ∧ eq ev v=true := by simpa [hit] using hh
    refine ⟨e,?_,(matchAt_iff eq slots v h e).mpr ⟨ev,by rw [hs,hit'.1],hit'.2⟩⟩
    rw [← hit'.1]
    exact c.placed e ev eh hs

theorem lookup_path (eq : α → α → Bool) {mask : Nat} {slots : List (Slot α)} (c : Core mask slots)
    (room : fillOf slots<slots.length) (v : α) (h : Int64) :
    lookup eq slots v h (probePath mask h)=
      some ((reach (occupied slots) (probePath mask h)).find? (matchAt eq slots v h)) := by
  obtain ⟨e,rest,hs,he⟩ := c.stop room h
  have look := lookup_prefix eq slots v h (reach (occupied slots) (probePath mask h)) rest e
    (reach_occ _ _) he
  rwa [← hs] at look

theorem contains_eq (eq : α → α → Bool) (w : WF t) (v : α) (h : Int64) :
    t.contains eq v h=some (t.actives.any (hit eq v h)) := by
  rw [contains,lookup_path eq w.core w.room v h]
  simp only [Option.map_some,Option.some.injEq]
  rw [actives,← any_reach eq w.core v h,Bool.eq_iff_iff,List.find?_isSome,List.any_eq_true]

section Writes

theorem find_free {mask : Nat} {slots : List (Slot α)} (h : Int64) (e : Nat) (rest : List Nat)
    (hs : probePath mask h=reach (occupied slots) (probePath mask h)++e::rest)
    (he : slots[e]?=some .empty) : (probePath mask h).find? (fun e => !occupied slots e)=some e := by
  rw [hs,List.find?_append,List.find?_eq_none.mpr]
  · simp [occupied_eq_false slots e he]
  · intro x hx
    simp [reach_occ _ _ x hx]

theorem insertClean_at (h : Int64) (e : Nat) (rest : List Nat)
    (hs : probePath t.mask h=reach (occupied t.slots) (probePath t.mask h)++e::rest)
    (he : t.slots[e]?=some .empty) (v : α) :
    t.insertClean v h=some {t with slots := t.slots.set e (.active v h)} := by
  rw [insertClean,find_free h e rest hs he]
  rfl

theorem insertClean_spec (c : Core t.mask t.slots) (room : fillOf t.slots<t.slots.length) (v : α)
    (h : Int64) :
    ∃t',t.insertClean v h=some t' ∧ t'.mask=t.mask ∧ t'.fill=t.fill ∧ t'.used=t.used ∧
      Core t'.mask t'.slots ∧ fillOf t'.slots=fillOf t.slots+1 ∧
      t'.actives.Perm ((v,h)::t.actives) := by
  obtain ⟨e,rest,hs,he⟩ := c.stop room h
  obtain ⟨pre,post,hc,hw⟩ := cut t.slots e .empty he
  have hl : e<t.slots.length := by
    by_contra hn
    rw [List.getElem?_eq_none (by omega)] at he
    cases he
  refine ⟨_,insertClean_at h e rest hs he v,rfl,rfl,rfl,?_,?_,?_⟩
  · apply c.write
    refine reach_fill (occupied t.slots) _ ?_ _ rest e hs ?_
    · intro j hj
      rw [occupied_set]
      split_ifs
      · rfl
      · exact hj
    · rw [occupied_set,if_pos ⟨rfl,hl⟩]
  · change fillOf (t.slots.set e _)=_
    rw [hw,hc]
    simp only [fillOf_append,fillOf]
    omega
  · change (activesOf (t.slots.set e _)).Perm (_::activesOf t.slots)
    rw [hw,hc]
    simp only [activesOf_append,activesOf]
    exact List.perm_middle

theorem insertAll_spec (items : List (α×Int64)) (c : Core t.mask t.slots)
    (room : fillOf t.slots+items.length<t.slots.length) :
    ∃t',t.insertAll items=some t' ∧ t'.mask=t.mask ∧ t'.fill=t.fill ∧ t'.used=t.used ∧
      Core t'.mask t'.slots ∧ fillOf t'.slots=fillOf t.slots+items.length ∧
      t'.actives.Perm (items++t.actives) := by
  induction items generalizing t with
  | nil => exact ⟨t,rfl,rfl,rfl,rfl,c,rfl,List.Perm.refl _⟩
  | cons p items ih =>
    rw [List.length_cons] at room
    obtain ⟨t₁,h₁,hm₁,hf₁,hu₁,c₁,hn₁,hp₁⟩ := insertClean_spec c (by omega) p.1 p.2
    have hl : t₁.slots.length=t.slots.length := by rw [c₁.length,c.length,hm₁]
    obtain ⟨t₂,h₂,hm₂,hf₂,hu₂,c₂,hn₂,hp₂⟩ := ih c₁ (by rw [hn₁,hl]; omega)
    refine ⟨t₂,?_,hm₂.trans hm₁,hf₂.trans hf₁,hu₂.trans hu₁,c₂,?_,?_⟩
    · rw [insertAll,List.foldlM_cons,h₁]
      exact h₂
    · rw [hn₂,hn₁,List.length_cons]
      omega
    · exact hp₂.trans ((List.Perm.append_left items hp₁).trans List.perm_middle)

theorem growSize_spec (minused fuel size : Nat) (hs : ∃k,3≤k ∧ size=2^k)
    (hf : minused<size*2^fuel) :
    ∃k,3≤k ∧ growSize minused fuel size=2^k ∧ minused<2^k := by
  induction fuel generalizing size with
  | zero =>
    obtain ⟨k,hk,he⟩ := hs
    exact ⟨k,hk,he,by rw [← he]; simpa using hf⟩
  | succ n ih =>
    obtain ⟨k,hk,he⟩ := hs
    unfold growSize
    split_ifs with hle
    · apply ih (size*2) ⟨k+1,by omega,by rw [he,pow_succ]⟩
      rw [pow_succ] at hf
      calc minused<size*(2^n*2) := hf
        _=size*2*2^n := by ring
    · exact ⟨k,hk,he,by omega⟩

theorem newsize_spec (minused : Nat) :
    ∃k,3≤k ∧ growSize minused (minused+1) minsize=2^k ∧ minused<2^k := by
  apply growSize_spec minused (minused+1) minsize ⟨3,le_refl 3,rfl⟩
  have h := Nat.lt_two_pow_self (n := minused+1)
  rw [show minsize=8 from rfl]
  omega

theorem core_replicate (k : Nat) (hk : 3≤k) :
    Core (2^k-1) (List.replicate (2^k) (Slot.empty : Slot α)) := by
  have hp : 0<2^k := by positivity
  refine ⟨⟨k,hk,by omega⟩,by simp; omega,?_⟩
  intro j v h hj
  have hr := List.mem_of_getElem? hj
  simp at hr

/-- A resize to at least twice the contents gives a well-formed table with no dummies. -/
theorem resize_spec (t : SetTable α) (minused : Nat) (hm : t.actives.length*2 ≤ minused) :
    ∃t',t.resize minused=some t' ∧ WF t' ∧ t'.actives.Perm t.actives ∧
      minused≤t'.mask ∧ t'.fill=t'.used := by
  obtain ⟨k,hk,hg,hlt⟩ := newsize_spec minused
  have h8 : 2^3≤2^k := Nat.pow_le_pow_right (by omega) hk
  obtain ⟨t',ht,hmask,hfill,hused,hc,hn,hp⟩ := insertAll_spec t.actives
    (t := ⟨List.replicate (2^k) .empty,2^k-1,t.actives.length,t.actives.length⟩)
    (core_replicate k hk) (by simp; omega)
  refine ⟨t',?_,⟨hc,?_,?_,?_⟩,?_,?_,?_⟩
  · rw [resize,hg]
    exact ht
  · rw [hused,hp.length_eq,List.length_append]
    simp [actives]
  · rw [hfill,hn]
    simp
  · rw [hfill,hmask]
    change t.actives.length*5<(2^k-1)*3
    omega
  · simpa [actives] using hp
  · rw [hmask]
    change _≤2^k-1
    omega
  · rw [hfill,hused]

theorem minusedFor_ge (used : Nat) : used*2 ≤ minusedFor used := by
  unfold minusedFor
  split_ifs <;> omega

theorem maybeResize_spec (c : Core t.mask t.slots) (hu : t.used=t.actives.length)
    (hf : t.fill=fillOf t.slots) :
    ∃t',t.maybeResize=some t' ∧ WF t' ∧ t'.actives.Perm t.actives := by
  unfold maybeResize
  split_ifs with hl
  · exact ⟨t,rfl,⟨c,hu,hf,hl⟩,List.Perm.refl _⟩
  · obtain ⟨t',ht,w,hp,_,_⟩ := resize_spec t (minusedFor t.used)
      (by rw [← hu]; exact minusedFor_ge t.used)
    exact ⟨t',ht,w,hp⟩

/-- What an addition does to the contents: nothing on a match, else one more entry. -/
def AddTo (eq : α → α → Bool) (l : List (α×Int64)) (p : α×Int64) (r : List (α×Int64)) : Prop :=
  (l.any (hit eq p.1 p.2)=true ∧ r=l) ∨ (l.any (hit eq p.1 p.2)=false ∧ r.Perm (p::l))

theorem add_spec (eq : α → α → Bool) (w : WF t) (v : α) (h : Int64) :
    ∃t',t.add eq v h=some t' ∧ WF t' ∧ AddTo eq t.actives (v,h) t'.actives := by
  obtain ⟨e,rest,hs,he⟩ := w.core.stop w.room h
  have loop := addLoop_prefix eq t.slots v h (reach (occupied t.slots) (probePath t.mask h))
    rest e none (reach_occ _ _) he
  rw [← hs,any_reach eq w.core v h] at loop
  unfold add
  rw [loop]
  cases found : (activesOf t.slots).any (hit eq v h) with
  | true => exact ⟨t,rfl,w,.inl ⟨found,rfl⟩⟩
  | false =>
    rw [if_neg (by simp)]
    cases hd : lastDummy t.slots (reach (occupied t.slots) (probePath t.mask h)) none with
    | some f =>
      -- reuse of a tombstone: the fill is unchanged and so is every other probe chain
      obtain hfs|⟨hf,hsf⟩ := lastDummy_spec _ _ _ _ hd
      · cases hfs
      obtain ⟨pre,post,hc,hw⟩ := cut t.slots f .dummy hsf
      refine ⟨_,rfl,⟨?_,?_,?_,w.load⟩,.inr ⟨found,?_⟩⟩
      · apply w.core.write
        apply reach_mono (occupied t.slots) _ _ _ _ hf
        intro j hj
        rw [occupied_set]
        split_ifs
        · rfl
        · exact hj
      · change t.used+1=(activesOf (t.slots.set f _)).length
        rw [w.used,actives,hw,hc]
        simp [activesOf]
        omega
      · change t.fill=fillOf (t.slots.set f _)
        rw [w.fill,hw,hc]
        simp [fillOf]
      · change (activesOf (t.slots.set f _)).Perm (_::activesOf t.slots)
        rw [hw,hc]
        simp only [activesOf_append,activesOf]
        exact List.perm_middle
    | none =>
      obtain ⟨t₁,h₁,hm,_,_,hc,hn,hp⟩ := insertClean_spec w.core w.room v h
      have same : t₁.slots=t.slots.set e (.active v h) := by
        rw [insertClean_at h e rest hs he v] at h₁
        cases h₁
        rfl
      obtain ⟨t',ht,w',hp'⟩ := maybeResize_spec
        (t := {t with slots := t.slots.set e (.active v h),fill := t.fill+1,used := t.used+1})
        (by rw [← same]; rw [hm] at hc; exact hc)
        (by change t.used+1=(activesOf (t.slots.set e _)).length
            rw [← same,w.used]
            exact hp.length_eq.symm)
        (by change t.fill+1=fillOf (t.slots.set e _)
            rw [← same,hn,w.fill])
      refine ⟨t',ht,w',.inr ⟨found,hp'.trans ?_⟩⟩
      change (activesOf (t.slots.set e _)).Perm _
      rw [← same]
      exact hp

/-- What a removal does: nothing without a match, else one matching entry is cut out. -/
def DiscardFrom (eq : α → α → Bool) (l : List (α×Int64)) (p : α×Int64) (b : Bool)
    (r : List (α×Int64)) : Prop :=
  (b=false ∧ l.any (hit eq p.1 p.2)=false ∧ r=l) ∨
    (b=true ∧ ∃pre x post,hit eq p.1 p.2 x=true ∧ l=pre++x::post ∧ r=pre++post)

theorem tombstone (w : WF t) (e : Nat) (v : α) (h : Int64) (he : t.slots[e]?=some (.active v h)) :
    WF {t with slots := t.slots.set e .dummy,used := t.used-1} ∧
      ∃pre post,t.actives=pre++(v,h)::post ∧ activesOf (t.slots.set e .dummy)=pre++post := by
  obtain ⟨pre,post,hc,hw⟩ := cut t.slots e _ he
  refine ⟨⟨w.core.erase e,?_,?_,w.load⟩,activesOf pre,activesOf post,?_,?_⟩
  · change t.used-1=(activesOf (t.slots.set e _)).length
    rw [w.used,actives,hw,hc]
    simp [activesOf]
  · change t.fill=fillOf (t.slots.set e _)
    rw [w.fill,hw,hc]
    simp [fillOf]
  · rw [actives,hc]
    simp [activesOf]
  · rw [hw]
    simp [activesOf]

theorem discard_spec (eq : α → α → Bool) (w : WF t) (v : α) (h : Int64) :
    ∃b t',t.discard eq v h=some (b,t') ∧ WF t' ∧
      DiscardFrom eq t.actives (v,h) b t'.actives := by
  unfold discard
  rw [lookup_path eq w.core w.room v h]
  cases hf : (reach (occupied t.slots) (probePath t.mask h)).find? (matchAt eq t.slots v h) with
  | none =>
    refine ⟨false,t,rfl,w,.inl ⟨rfl,?_,rfl⟩⟩
    rw [actives,← any_reach eq w.core v h,List.any_eq_false]
    exact List.find?_eq_none.mp hf
  | some f =>
    obtain ⟨ev,hev,heq⟩ := (matchAt_iff eq t.slots v h f).mp (List.find?_some hf)
    obtain ⟨w',pre,post,hl,hr⟩ := tombstone w f ev h hev
    exact ⟨true,_,rfl,w',.inr ⟨rfl,pre,(ev,h),post,by simp [hit,heq],hl,hr⟩⟩

end Writes

end SetTable

end InterpretThis.Pyset
