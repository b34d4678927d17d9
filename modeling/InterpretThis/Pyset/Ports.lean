import InterpretThis.Pyset.Rebuild

namespace InterpretThis.Pyhash

open InterpretThis.Pyset

/-- The other port of the set table: indices and hashes in two vectors, no dummies. -/
structure SetTable where
  slots : List (Option Nat)
  hashes : List Int64
  mask : Nat
  fill : Nat
  used : Nat

def taken (slots : List (Option Nat)) (e : Nat) : Bool :=
  match slots[e]? with
  | some (some _) => true
  | _ => false

/-- The occupied slots in order, with their hashes. -/
def entriesOf : List (Option Nat) → List Int64 → List (Nat×Int64)
  | some e::s,h::hs => (e,h)::entriesOf s hs
  | none::s,_::hs => entriesOf s hs
  | _,_ => []

namespace SetTable

def new (size : Nat) : SetTable :=
  ⟨List.replicate size none,List.replicate size 0,size-1,0,0⟩

def place (t : SetTable) (elem : Nat) (hash : Int64) (i : Nat) : SetTable :=
  {t with slots := t.slots.set i (some elem),hashes := t.hashes.set i hash}

/-- The first free entry on the probe path; the two probe loops of this port look for nothing
else. -/
def free (t : SetTable) (hash : Int64) : Option Nat :=
  (probePath t.mask hash).find? (fun e => !taken t.slots e)

def insertClean (t : SetTable) (elem : Nat) (hash : Int64) : Option SetTable :=
  (t.free hash).map (t.place elem hash)

/-- `set_add_entry` for elements that are known to be distinct. -/
def add (t : SetTable) (elem : Nat) (hash : Int64) : Option SetTable :=
  (t.free hash).map fun i => {t.place elem hash i with fill := t.fill+1,used := t.used+1}

def insertAll (t : SetTable) (items : List (Nat×Int64)) : Option SetTable :=
  items.foldlM (fun t p => t.insertClean p.1 p.2) t

/-- The rebuild keeps `fill` and `used`. -/
def maybeResize (t : SetTable) : Option SetTable :=
  if t.fill*5<t.mask*3 then some t
  else
    let newsize := Pyset.SetTable.growSize (Pyset.SetTable.minusedFor t.used)
      (Pyset.SetTable.minusedFor t.used+1) minsize
    insertAll {t with slots := List.replicate newsize none,hashes := List.replicate newsize 0,
                      mask := newsize-1} (entriesOf t.slots t.hashes)

def addAll (t : SetTable) (items : List (Nat×Int64)) : Option SetTable :=
  items.foldlM (fun t p => (t.add p.1 p.2).bind maybeResize) t

end SetTable

/-- The inner `none` is a probe loop that does not stop. -/
def cpythonSetOrderIndices {α : Type} (pythonHash : α → Option Int64) (items : List α) :
    Option (Option (List Nat)) :=
  (hashAll pythonHash items).map fun hashed =>
    ((SetTable.new minsize).addAll (hashed.zipIdx.map fun p => (p.2,p.1.2))).map
      fun t => t.slots.filterMap id

section Rendering

variable {α : Type} (item : Nat → α)

def view : Option Nat → Int64 → Slot α
  | none,_ => .empty
  | some e,h => .active (item e) h

namespace SetTable

/-- The table of the first port that holds the items in place of their indices. -/
def render (t : SetTable) : Pyset.SetTable α :=
  ⟨List.zipWith (view item) t.slots t.hashes,t.mask,t.fill,t.used⟩

def Paired (t : SetTable) : Prop := t.slots.length=t.hashes.length

variable {t : SetTable}

theorem paired_place (hp : Paired t) (elem : Nat) (hash : Int64) (i : Nat) :
    Paired (t.place elem hash i) := by
  unfold Paired place
  rw [List.length_set,List.length_set]
  exact hp

theorem occupied_render (hp : Paired t) (e : Nat) :
    occupied (t.render item).slots e=taken t.slots e := by
  unfold occupied taken render
  rw [List.getElem?_zipWith]
  by_cases hl : e<t.slots.length
  · have hh : e<t.hashes.length := by rw [← hp]; exact hl
    rw [List.getElem?_eq_getElem hl,List.getElem?_eq_getElem hh]
    cases t.slots[e] <;> rfl
  · rw [List.getElem?_eq_none (by omega)]

theorem find_render (hp : Paired t) (hash : Int64) :
    (probePath t.mask hash).find? (fun e => !occupied (t.render item).slots e)=t.free hash := by
  unfold free
  congr 1
  funext e
  rw [occupied_render item hp]

theorem zipWith_set (slots : List (Option Nat)) (hashes : List Int64) (i elem : Nat)
    (hash : Int64) :
    List.zipWith (view item) (slots.set i (some elem)) (hashes.set i hash)=
      (List.zipWith (view item) slots hashes).set i (.active (item elem) hash) := by
  induction slots generalizing hashes i with
  | nil => rfl
  | cons s slots ih =>
    cases hashes with
    | nil => cases i <;> rfl
    | cons h hashes =>
      cases i with
      | zero => rfl
      | succ i =>
        have tail := ih hashes i
        simp only [List.set_cons_succ,List.zipWith_cons_cons,tail]

theorem entries_render (slots : List (Option Nat)) (hashes : List Int64) :
    activesOf (List.zipWith (view item) slots hashes)=
      (entriesOf slots hashes).map fun p => (item p.1,p.2) := by
  induction slots generalizing hashes with
  | nil => rfl
  | cons s slots ih =>
    cases hashes with
    | nil => cases s <;> rfl
    | cons h hashes =>
      have tail := ih hashes
      cases s with
      | none => exact tail
      | some e =>
        rw [List.zipWith_cons_cons,view,activesOf,tail]
        rfl

theorem insertClean_render (hp : Paired t) (elem : Nat) (hash : Int64) :
    (t.render item).insertClean (item elem) hash=(t.insertClean elem hash).map (render item) := by
  have path : (probePath (t.render item).mask hash).find?
      (fun e => !occupied (t.render item).slots e)=t.free hash := find_render item hp hash
  rw [Pyset.SetTable.insertClean,path,insertClean]
  cases t.free hash with
  | none => rfl
  | some i =>
    change some _=some _
    unfold render place
    rw [zipWith_set]

theorem insertClean_keeps {t t' : SetTable} (hp : Paired t) (elem : Nat) (hash : Int64)
    (ht : t.insertClean elem hash=some t') : Paired t' ∧ t'.fill=t.fill ∧ t'.used=t.used := by
  rw [insertClean] at ht
  obtain ⟨i,_,hi⟩ := Option.map_eq_some_iff.mp ht
  rw [← hi]
  exact ⟨paired_place hp elem hash i,rfl,rfl⟩

theorem insertAll_render (items : List (Nat×Int64)) (hp : Paired t) :
    (t.render item).insertAll (items.map fun p => (item p.1,p.2))=
      (t.insertAll items).map (render item) ∧
    ∀t',t.insertAll items=some t' → Paired t' ∧ t'.fill=t.fill ∧ t'.used=t.used := by
  induction items generalizing t with
  | nil => exact ⟨rfl,fun t' ht => by cases ht; exact ⟨hp,rfl,rfl⟩⟩
  | cons p items ih =>
    have head := insertClean_render item hp p.1 p.2
    rw [List.map_cons,Pyset.SetTable.insertAll,insertAll,List.foldlM_cons,List.foldlM_cons,head]
    cases hc : t.insertClean p.1 p.2 with
    | none => exact ⟨rfl,fun t' ht => by cases ht⟩
    | some t₁ =>
      obtain ⟨hp₁,hf₁,hu₁⟩ := insertClean_keeps hp p.1 p.2 hc
      obtain ⟨hsame,hkeeps⟩ := ih hp₁
      refine ⟨hsame,fun t' ht => ?_⟩
      obtain ⟨hp',hf',hu'⟩ := hkeeps t' ht
      exact ⟨hp',hf'.trans hf₁,hu'.trans hu₁⟩

theorem render_blank (size fill used : Nat) :
    render item ⟨List.replicate size none,List.replicate size 0,size-1,fill,used⟩=
      ⟨List.replicate size .empty,size-1,fill,used⟩ := by
  rw [render,List.zipWith_replicate,Nat.min_self]
  rfl

theorem maybeResize_render (hp : Paired t) (hf : t.fill=(t.render item).actives.length)
    (hu : t.used=(t.render item).actives.length) :
    (t.render item).maybeResize=t.maybeResize.map (render item) ∧
    ∀t',t.maybeResize=some t' → Paired t' ∧ t'.fill=t'.used := by
  rw [Pyset.SetTable.maybeResize,maybeResize]
  change (if t.fill*5<t.mask*3 then _ else _)=_ ∧ _
  split_ifs
  · exact ⟨rfl,fun t' ht => by cases ht; exact ⟨hp,hf.trans hu.symm⟩⟩
  · have hcount : (t.render item).actives=(entriesOf t.slots t.hashes).map fun p => (item p.1,p.2) :=
      entries_render item t.slots t.hashes
    let size := Pyset.SetTable.growSize (Pyset.SetTable.minusedFor t.used)
      (Pyset.SetTable.minusedFor t.used+1) minsize
    have blank : Paired ⟨List.replicate size none,List.replicate size 0,size-1,t.fill,t.used⟩ := by
      rw [Paired,List.length_replicate,List.length_replicate]
    obtain ⟨hsame,hkeeps⟩ := insertAll_render item (entriesOf t.slots t.hashes) blank
    refine ⟨?_,fun t' ht => ?_⟩
    · rw [← hsame,render_blank,← hcount]
      exact congrArg₂ (fun f u => Pyset.SetTable.insertAll ⟨_,_,f,u⟩ (t.render item).actives)
        hf.symm hu.symm
    · obtain ⟨hp',hf',hu'⟩ := hkeeps t' ht
      exact ⟨hp',hf'.trans ((hf.trans hu.symm).trans hu'.symm)⟩

variable {item}

theorem add_render (eq : α → α → Bool) (hp : Paired t) (w : (t.render item).WF)
    (clean : t.fill=t.used) (elem : Nat) (hash : Int64)
    (fresh : (t.render item).actives.any (Pyset.SetTable.hit eq (item elem) hash)=false) :
    (t.render item).add eq (item elem) hash=
      ((t.add elem hash).bind maybeResize).map (render item) ∧
    ∀t',(t.add elem hash).bind maybeResize=some t' → Paired t' ∧ t'.fill=t'.used := by
  obtain ⟨e,rest,hs,he,hadd⟩ := Pyset.SetTable.add_fresh eq w clean (item elem) hash fresh
  have found : t.free hash=some e := by
    rw [← find_render item hp hash]
    exact Pyset.SetTable.find_free hash e rest hs he
  obtain ⟨t₁,h₁,_,_,_,_,_,hperm⟩ :=
    Pyset.SetTable.insertClean_spec w.core w.room (item elem) hash
  rw [Pyset.SetTable.insertClean_at hash e rest hs he] at h₁
  have hsame := Option.some.inj h₁
  let u : SetTable := {t.place elem hash e with fill := t.fill+1,used := t.used+1}
  have hu : u.render item={t.render item with
      slots := (t.render item).slots.set e (.active (item elem) hash),
      fill := t.fill+1,used := t.used+1} := by
    change (⟨List.zipWith (view item) (t.slots.set e _) (t.hashes.set e _),_,_,_⟩ :
      Pyset.SetTable α)=_
    rw [zipWith_set]
    rfl
  have count : (u.render item).actives.length=t.used+1 := by
    rw [hu]
    change (activesOf ((t.render item).slots.set e (.active (item elem) hash))).length=_
    have hlen := hperm.length_eq
    rw [← hsame,List.length_cons,← w.used] at hlen
    exact hlen
  obtain ⟨hresize,hkeeps⟩ := maybeResize_render item (t := u) (paired_place hp elem hash e)
    (by rw [count]; exact congrArg (·+1) clean) (by rw [count])
  rw [hadd,add,found]
  refine ⟨?_,hkeeps⟩
  exact (congrArg Pyset.SetTable.maybeResize hu.symm).trans hresize

variable (item) in
/-- The ports run in lockstep on entries that meet no equal ones. -/
theorem addAll_render (eq : α → α → Bool) (items : List (Nat×Int64)) (hp : Paired t)
    (w : (t.render item).WF) (clean : t.fill=t.used)
    (apart : ∀q∈(t.render item).actives,∀p∈items,eq q.1 (item p.1)=false)
    (distinct : items.Pairwise fun p q => eq (item p.1) (item q.1)=false) :
    ∃t',t.addAll items=some t' ∧ Paired t' ∧
      (t.render item).addAll eq (items.map fun p => (item p.1,p.2))=some (t'.render item) := by
  induction items generalizing t with
  | nil => exact ⟨t,rfl,hp,rfl⟩
  | cons p items ih =>
    have fresh : (t.render item).actives.any (Pyset.SetTable.hit eq (item p.1) p.2)=false := by
      rw [List.any_eq_false]
      intro q hq hh
      have hit : q.2=p.2 ∧ eq q.1 (item p.1)=true := by simpa [Pyset.SetTable.hit] using hh
      have far := apart q hq p (by simp)
      rw [hit.2] at far
      cases far
    obtain ⟨hsame,hkeeps⟩ := add_render eq hp w clean p.1 p.2 fresh
    obtain ⟨u,hu,wu,hadd⟩ := Pyset.SetTable.add_spec eq w (item p.1) p.2
    rw [hsame] at hu
    obtain ⟨t₁,h₁,hr⟩ := Option.map_eq_some_iff.mp hu
    obtain ⟨hp₁,hc₁⟩ := hkeeps t₁ h₁
    rw [← hr] at wu hadd
    have hcons := List.pairwise_cons.mp distinct
    have apart₁ : ∀q∈(t₁.render item).actives,∀r∈items,eq q.1 (item r.1)=false := by
      intro q hq r hr
      cases hadd with
      | inl same => rw [fresh] at same; cases same.1
      | inr more =>
        have hmem := more.2.mem_iff.mp hq
        rw [List.mem_cons] at hmem
        cases hmem with
        | inl heq => rw [heq]; exact hcons.1 r hr
        | inr hold => exact apart q hold r (by simp [hr])
    obtain ⟨t',ht,hp',hall⟩ := ih hp₁ wu hc₁ apart₁ hcons.2
    refine ⟨t',?_,hp',?_⟩
    · rw [addAll,List.foldlM_cons,h₁]
      exact ht
    · rw [List.map_cons,Pyset.SetTable.addAll,List.foldlM_cons,hsame,h₁]
      exact hall

variable (item) in
theorem elements_render (hp : Paired t) :
    (t.render item).iterOrdered=(t.slots.filterMap id).map item := by
  obtain ⟨slots,hashes,mask,fill,used⟩ := t
  change (activesOf (List.zipWith (view item) slots hashes)).map Prod.fst=_
  have hl : slots.length=hashes.length := hp
  clear hp
  induction slots generalizing hashes with
  | nil => rfl
  | cons s slots ih =>
    cases hashes with
    | nil => cases hl
    | cons h hashes =>
      have tail := ih hashes (Nat.succ.inj hl)
      cases s with
      | none => exact tail
      | some e => exact congrArg (item e::·) tail

theorem render_new : (new minsize).render item=Pyset.SetTable.withCapacity minsize :=
  render_blank item minsize 0 0

end SetTable

end Rendering

section Agreement

variable {α : Type} (pythonHash : α → Option Int64)

theorem hashAll_items (items : List α) (hashable : ∀x∈items,(pythonHash x).isSome=true) :
    ∃hashed,hashAll pythonHash items=some hashed ∧ hashed.map Prod.fst=items := by
  induction items with
  | nil => exact ⟨[],rfl,rfl⟩
  | cons x items ih =>
    obtain ⟨h,hx⟩ := Option.isSome_iff_exists.mp (hashable x (by simp))
    obtain ⟨hashed,hall,hmap⟩ := ih (fun y hy => hashable y (by simp [hy]))
    exact ⟨(x,h)::hashed,by rw [hashAll,hx,hall]; rfl,by rw [List.map_cons,hmap]⟩

/-- The positions with the hashes: what the other port inserts. -/
def numbered (hashed : List (α×Int64)) : List (Nat×Int64) := hashed.zipIdx.map fun p => (p.2,p.1.2)

theorem numbered_items (hashed : List (α×Int64)) (d : α) :
    (numbered hashed).map (fun p => ((hashed.map Prod.fst).getD p.1 d,p.2))=hashed := by
  apply List.ext_getElem?
  intro i
  rw [numbered,List.map_map,List.getElem?_map,List.getElem?_zipIdx]
  cases hi : hashed[i]? with
  | none => rfl
  | some p => simp [hi]

theorem numbered_increasing (hashed : List (α×Int64)) :
    (numbered hashed).Pairwise fun p q => p.1<q.1 ∧ q.1<hashed.length := by
  rw [List.pairwise_iff_getElem]
  intro i j hi hj hlt
  simp only [numbered,List.length_map,List.length_zipIdx] at hi hj
  simp only [numbered,List.getElem_map,List.getElem_zipIdx]
  omega

open SetTable in
theorem elements_bounded (hashed : List (α×Int64)) {t : SetTable}
    (ht : (new minsize).addAll (numbered hashed)=some t) :
    ∀e∈t.slots.filterMap id,e<hashed.length := by
  have wf : ((new minsize).render (id : Nat → Nat)).WF := by
    rw [render_new]
    exact Pyset.SetTable.wf_withCapacity
  have none : ((new minsize).render (id : Nat → Nat)).actives=[] := by
    rw [render_new]
    simp [Pyset.SetTable.actives,Pyset.SetTable.withCapacity]
  obtain ⟨t',ht',hp,hall⟩ := addAll_render id (fun _ _ => false) (numbered hashed)
    (t := new minsize) (by simp [Paired,new]) wf rfl (fun _ _ _ _ => rfl)
    (List.pairwise_of_forall fun _ _ => rfl)
  obtain ⟨u,hu,_,hadds⟩ :=
    Pyset.SetTable.addAll_spec (fun _ _ => false) ((numbered hashed).map fun p => (id p.1,p.2)) wf
  rw [hall] at hu
  have hsame : t=t' := Option.some.inj (ht.symm.trans ht')
  rw [← Option.some.inj hu,none,← hsame] at hadds
  have hsub := (Pyset.SetTable.addsTo_subperm _ _ _ _ hadds).subset
  intro e he
  have hrender := elements_render (id : Nat → Nat) (t := t) (by rw [hsame]; exact hp)
  rw [List.map_id] at hrender
  rw [← hrender] at he
  obtain ⟨p,hp,hpe⟩ := List.mem_map.mp he
  have hin := hsub hp
  rw [List.append_nil,List.mem_map] at hin
  obtain ⟨q,hq,hqp⟩ := hin
  obtain ⟨i,hi,hget⟩ := List.mem_iff_getElem.mp hq
  have hlen : i<hashed.length := by simpa [numbered] using hi
  rw [← hpe,← hqp,← hget]
  simpa [numbered] using hlen

open SetTable in
/-- The order of the one port, read back as items, is the order of the other. -/
theorem set_ports_agree (eq : α → α → Bool) (items : List α)
    (distinct : items.Pairwise fun a b => eq a b=false)
    (hashable : ∀x∈items,(pythonHash x).isSome=true) :
    ∃order t,cpythonSetOrderIndices pythonHash items=some (some order) ∧
      tableFromIncremental eq pythonHash items=some (some t) ∧
      order.map (items[·]?)=t.iterOrdered.map some := by
  cases hitems : items with
  | nil => exact ⟨[],Pyset.SetTable.withCapacity minsize,rfl,rfl,rfl⟩
  | cons d rest =>
    rw [← hitems]
    obtain ⟨hashed,hall,hmap⟩ := hashAll_items pythonHash items hashable
    have hlen : hashed.length=items.length := by rw [← hmap,List.length_map]
    let item : Nat → α := fun e => items.getD e d
    have wf : ((new minsize).render item).WF := by
      rw [render_new]
      exact Pyset.SetTable.wf_withCapacity
    have none : ((new minsize).render item).actives=[] := by
      rw [render_new]
      simp [Pyset.SetTable.actives,Pyset.SetTable.withCapacity]
    have apart : (numbered hashed).Pairwise fun p q => eq (item p.1) (item q.1)=false := by
      apply (numbered_increasing hashed).imp
      intro p q h
      have hq : q.1 < items.length := by omega
      have hp : p.1 < items.length := by omega
      change eq (items.getD p.1 d) (items.getD q.1 d)=false
      rw [List.getD_eq_getElem _ _ hp,List.getD_eq_getElem _ _ hq]
      exact List.pairwise_iff_getElem.mp distinct _ _ hp hq h.1
    obtain ⟨t,ht,hp,hrun⟩ := addAll_render item eq (numbered hashed) (t := new minsize)
      (by simp [Paired,new]) wf rfl (by rw [none]; intro _ h; cases h) apart
    have hnum : (numbered hashed).map (fun p => (item p.1,p.2))=hashed := by
      have h := numbered_items hashed d
      rwa [hmap] at h
    rw [hnum,render_new] at hrun
    refine ⟨t.slots.filterMap id,t.render item,?_,?_,?_⟩
    · rw [cpythonSetOrderIndices,hall]
      change some (((new minsize).addAll (numbered hashed)).map _)=_
      rw [ht]
      rfl
    · rw [tableFromIncremental,hall]
      exact congrArg some hrun
    · rw [elements_render item hp,List.map_map]
      apply List.map_congr_left
      intro e he
      have hb := elements_bounded hashed ht e he
      change items[e]?=some (items.getD e d)
      rw [List.getD_eq_getElem _ _ (by omega),List.getElem?_eq_getElem (by omega)]

/-- Ten numbers under their own hashes: one resize on the way. -/
theorem set_ports_agree_ten :
    ∃order t,cpythonSetOrderIndices (fun n : Nat => some (Int64.ofNat (8*n))) (List.range 10)=
        some (some order) ∧
      tableFromIncremental (· == ·) (fun n : Nat => some (Int64.ofNat (8*n))) (List.range 10)=
        some (some t) ∧
      order.map ((List.range 10)[·]?)=t.iterOrdered.map some :=
  set_ports_agree _ (· == ·) (List.range 10) (by decide) (fun _ _ => rfl)

end Agreement

end InterpretThis.Pyhash
