import InterpretThis.Pyset.Machine

namespace InterpretThis.Pyset

open Refinement

/-- The table while every element has a python hash, else the elements in insertion order. -/
inductive SetBody (α : Type) where
  | table (t : SetTable α)
  | fallback (items : List α)

namespace SetBody

variable {α : Type}

def empty : SetBody α := .table (SetTable.withCapacity minsize)

def iterOrdered : SetBody α → List α
  | table t => t.iterOrdered
  | fallback items => items

def len : SetBody α → Nat
  | table t => t.len
  | fallback items => items.length

/-- `set.pop`. -/
def popFirst : SetBody α → Option α×SetBody α
  | table t => (t.popFirst.1,table t.popFirst.2)
  | fallback [] => (none,fallback [])
  | fallback (x::items) => (some x,fallback items)

def compactIfSparse : SetBody α → Option (SetBody α)
  | table t => t.compactIfSparse.map table
  | fallback items => some (fallback items)

variable (eq : α → α → Bool) (pythonHash : α → Option Int64)

def fromItems (items : List α) : Option (SetBody α) :=
  match tableFromIncremental eq pythonHash items with
  | some t => t.map table
  | none => some (fallback items)

/-- The double build of a constant literal. As in `tableFromIncremental`, the outer `none` is
an unhashable item. -/
def constantLiteralTable (items : List α) : Option (Option (SetTable α)) :=
  (tableFromIncremental eq pythonHash items).bind fun
    | none => some none
    | some fs1 => (tableFromIncremental eq pythonHash fs1.iterOrdered).map fun konst =>
        konst.bind (SetTable.copy eq)

def fromConstantLiteral (items : List α) : Option (SetBody α) :=
  match constantLiteralTable eq pythonHash items with
  | some t => t.map table
  | none => some (fallback items)

def contains (value : α) : SetBody α → Option Bool
  | table t => match pythonHash value with
    | some h => t.contains eq value h
    | none => some false
  | fallback items => some (items.any (fun x => eq x value))

/-- Whether the value was added; a value without a python hash turns a table into the
fallback. -/
def addValue (value : α) : SetBody α → Option (Bool×SetBody α)
  | table t => match pythonHash value with
    | some h => (t.add eq value h).map fun t' => (decide (t.used<t'.used),table t')
    | none =>
      if t.iterOrdered.any (fun x => eq x value) then some (false,table t)
      else some (true,fallback (t.iterOrdered++[value]))
  | fallback items =>
    if items.any (fun x => eq x value) then some (false,fallback items)
    else some (true,fallback (items++[value]))

def discardValue (value : α) : SetBody α → Option (Bool×SetBody α)
  | table t => match pythonHash value with
    | some h => (t.discard eq value h).map fun r => (r.1,table r.2)
    | none => some (false,table t)
  | fallback items => match items.findIdx? (fun x => eq x value) with
    | some i => some (true,fallback (items.eraseIdx i))
    | none => some (false,fallback items)

def copied : SetBody α → Option (SetBody α)
  | table t => (SetTable.copy eq t).map table
  | fallback items => some (fallback items)

def addValues (items : List α) (b : SetBody α) : Option (SetBody α) :=
  items.foldlM (fun b v => (addValue eq pythonHash v b).map Prod.snd) b

def discardValues (items : List α) (b : SetBody α) : Option (SetBody α) :=
  items.foldlM (fun b v => (discardValue eq pythonHash v b).map Prod.snd) b

def mergeFrom : SetBody α → SetBody α → Option (SetBody α)
  | table a,table b => (a.merge eq b).map table
  | self,other => addValues eq pythonHash other.iterOrdered self

def differenceFrom : SetBody α → SetBody α → Option (SetBody α)
  | table a,table b => (a.differenceUpdate eq b).map table
  | self,other => (discardValues eq pythonHash other.iterOrdered self).bind compactIfSparse

def unionWith : SetBody α → SetBody α → Option (SetBody α)
  | table a,table b => (a.union eq b).map table
  | self,other => (copied eq self).bind fun r => mergeFrom eq pythonHash r other

/-- Add the items that the body `large` contains. -/
def addContained (large : SetBody α) : List α → SetBody α → Option (SetBody α)
  | [],r => some r
  | v::items,r => do
    if ← contains eq pythonHash v large then
      addContained large items (← addValue eq pythonHash v r).2
    else addContained large items r

def intersectionWith : SetBody α → SetBody α → Option (SetBody α)
  | table a,table b => (a.intersection eq b).map table
  | self,other =>
    if self.len≥other.len then addContained eq pythonHash self other.iterOrdered empty
    else addContained eq pythonHash other self.iterOrdered empty

def differenceWith : SetBody α → SetBody α → Option (SetBody α)
  | table a,table b => (a.difference eq b).map table
  | self,other => (copied eq self).bind fun r => differenceFrom eq pythonHash r other

def toggleValue (r : SetBody α) (v : α) : Option (SetBody α) := do
  let (removed,r) ← discardValue eq pythonHash v r
  if removed then some r else (addValue eq pythonHash v r).map Prod.snd

def symmetricDifferenceWith : SetBody α → SetBody α → Option (SetBody α)
  | table a,table b => (a.symmetricDifference eq b).map table
  | self,other => (copied eq other).bind fun r => self.iterOrdered.foldlM (toggleValue eq pythonHash) r

end SetBody

/-- One call on a bank of bodies. -/
inductive BodyOp (α : Type) where
  | fromItems (dst : Nat) (items : List α)
  | fromConstantLiteral (dst : Nat) (items : List α)
  | add (dst : Nat) (v : α)
  | discard (dst : Nat) (v : α)
  | popFirst (dst : Nat)
  | clear (dst : Nat)
  | clone (dst src : Nat)
  | copied (dst src : Nat)
  | mergeFrom (dst src : Nat)
  | differenceFrom (dst src : Nat)
  | operator (f : Operator) (dst a b : Nat)

def Operator.body {α : Type} (eq : α → α → Bool) (pythonHash : α → Option Int64) :
    Operator → SetBody α → SetBody α → Option (SetBody α)
  | .union => SetBody.unionWith eq pythonHash
  | .intersection => SetBody.intersectionWith eq pythonHash
  | .difference => SetBody.differenceWith eq pythonHash
  | .symmetricDifference => SetBody.symmetricDifferenceWith eq pythonHash

namespace SetBody

variable {α : Type} (eq : α → α → Bool) (pythonHash : α → Option Int64)

abbrev Bank (α : Type) := Nat → SetBody α

def start : Bank α := fun _ => empty

def writeBack (T : Bank α) (dst : Nat) (b : Option (SetBody α)) : Option (Bank α×Reply α) :=
  b.map fun b => (Function.update T dst b,.done)

def writeReply (T : Bank α) (dst : Nat) (r : Option (Bool×SetBody α)) : Option (Bank α×Reply α) :=
  r.map fun r => (Function.update T dst r.2,.removed r.1)

def step (T : Bank α) : BodyOp α → Option (Bank α×Reply α)
  | .fromItems dst items => writeBack T dst (fromItems eq pythonHash items)
  | .fromConstantLiteral dst items => writeBack T dst (fromConstantLiteral eq pythonHash items)
  | .add dst v => writeReply T dst (addValue eq pythonHash v (T dst))
  | .discard dst v => writeReply T dst (discardValue eq pythonHash v (T dst))
  | .popFirst dst => some (Function.update T dst (T dst).popFirst.2,.popped (T dst).popFirst.1)
  | .clear dst => writeBack T dst (some empty)
  | .clone dst src => writeBack T dst (some (T src))
  | .copied dst src => writeBack T dst (copied eq (T src))
  | .mergeFrom dst src => writeBack T dst (mergeFrom eq pythonHash (T dst) (T src))
  | .differenceFrom dst src => writeBack T dst (differenceFrom eq pythonHash (T dst) (T src))
  | .operator f dst a b => writeBack T dst (f.body eq pythonHash (T a) (T b))

section Invariant

/-- The contents of a table whose entries carry their python hash. -/
def Hashed (pythonHash : α → Option Int64) (l : List (α×Int64)) : Prop :=
  ∀p∈l, pythonHash p.1=some p.2

/-- A table body is well formed and holds every element under its python hash. -/
def Sound (pythonHash : α → Option Int64) : SetBody α → Prop
  | table t => SetTable.Holds (Hashed pythonHash) t
  | fallback _ => True

theorem hashed_stable :
    SetTable.Stable eq (fun p => pythonHash p.1=some p.2) (Hashed pythonHash) where
  nil := by
    intro p hp
    cases hp
  sound l hl := hl
  perm l r hp hl p hr := hl p (hp.mem_iff.mpr hr)
  cut x l hl p hp := hl p (List.mem_cons_of_mem x hp)
  add p l hp _ hl q hq := by
    cases hq with
    | head => exact hp
    | tail _ hq => exact hl q hq

theorem sound_empty : Sound pythonHash (empty : SetBody α) :=
  SetTable.holds_empty (hashed_stable (fun _ _ => true) pythonHash)

theorem sound_map (r : Option (SetTable α)) (h : ∃t, r=some t ∧ SetTable.Holds (Hashed pythonHash) t) :
    ∃b, r.map table=some b ∧ Sound pythonHash b := by
  obtain ⟨t,ht,hs⟩ := h
  exact ⟨table t,by rw [ht]; rfl,hs⟩

theorem hashAll_hashed (items : List α) (hashed : List (α×Int64))
    (h : hashAll pythonHash items=some hashed) : Hashed pythonHash hashed := by
  induction items generalizing hashed with
  | nil =>
    cases h
    intro p hp
    cases hp
  | cons x items ih =>
    rw [hashAll] at h
    cases hx : pythonHash x with
    | none => simp [hx] at h
    | some k =>
      cases hr : hashAll pythonHash items with
      | none => simp [hx,hr] at h
      | some rest =>
        simp only [hx,hr,Option.bind_eq_bind,Option.bind_some,Option.pure_def,
          Option.some.injEq] at h
        rw [← h]
        intro p hp
        cases hp with
        | head => exact hx
        | tail _ hp => exact ih rest hr p hp

theorem tableFromIncremental_spec (items : List α) :
    tableFromIncremental eq pythonHash items=none ∨
      ∃t, tableFromIncremental eq pythonHash items=some (some t) ∧
        SetTable.Holds (Hashed pythonHash) t := by
  unfold tableFromIncremental
  cases h : hashAll pythonHash items with
  | none => exact .inl rfl
  | some hashed =>
    obtain ⟨t,ht,hs⟩ := SetTable.holds_addAll (hashed_stable eq pythonHash)
      (SetTable.holds_empty (hashed_stable eq pythonHash)) hashed
      (hashAll_hashed pythonHash items hashed h)
    exact .inr ⟨t,by rw [Option.map_some,ht],hs⟩

theorem sound_fromItems (items : List α) :
    ∃b, fromItems eq pythonHash items=some b ∧ Sound pythonHash b := by
  unfold fromItems
  cases tableFromIncremental_spec eq pythonHash items with
  | inl h =>
    rw [h]
    exact ⟨fallback items,rfl,trivial⟩
  | inr h =>
    obtain ⟨t,ht,hs⟩ := h
    rw [ht]
    exact ⟨table t,rfl,hs⟩

theorem constantLiteralTable_spec (items : List α) :
    constantLiteralTable eq pythonHash items=none ∨
      ∃t, constantLiteralTable eq pythonHash items=some (some t) ∧
        SetTable.Holds (Hashed pythonHash) t := by
  unfold constantLiteralTable
  cases tableFromIncremental_spec eq pythonHash items with
  | inl h => exact .inl (by simp only [h,Option.bind_none])
  | inr h =>
    obtain ⟨fs1,h₁,_⟩ := h
    cases tableFromIncremental_spec eq pythonHash fs1.iterOrdered with
    | inl h => exact .inl (by simp only [h₁,h,Option.bind_some,Option.map_none])
    | inr h =>
      obtain ⟨konst,h₂,hs⟩ := h
      obtain ⟨t,ht,hc⟩ := SetTable.holds_copy (hashed_stable eq pythonHash) hs
      exact .inr ⟨t,by simp only [h₁,h₂,ht,Option.bind_some,Option.map_some],hc⟩

theorem sound_fromConstantLiteral (items : List α) :
    ∃b, fromConstantLiteral eq pythonHash items=some b ∧ Sound pythonHash b := by
  unfold fromConstantLiteral
  cases constantLiteralTable_spec eq pythonHash items with
  | inl h =>
    rw [h]
    exact ⟨fallback items,rfl,trivial⟩
  | inr h =>
    obtain ⟨t,ht,hs⟩ := h
    rw [ht]
    exact ⟨table t,rfl,hs⟩

variable {b c : SetBody α}

theorem sound_addValue (hb : Sound pythonHash b) (v : α) :
    ∃r b', addValue eq pythonHash v b=some (r,b') ∧ Sound pythonHash b' := by
  cases b with
  | table t =>
    cases hv : pythonHash v with
    | some h =>
      obtain ⟨t',ht,hs⟩ := SetTable.holds_add (hashed_stable eq pythonHash) hb v h hv
      exact ⟨decide (t.used<t'.used),table t',by simp only [addValue,hv,ht,Option.map_some],hs⟩
    | none =>
      simp only [addValue,hv]
      split
      · exact ⟨_,_,rfl,hb⟩
      · exact ⟨_,_,rfl,trivial⟩
  | fallback items =>
    simp only [addValue]
    split
    · exact ⟨_,_,rfl,trivial⟩
    · exact ⟨_,_,rfl,trivial⟩

theorem sound_discardValue (hb : Sound pythonHash b) (v : α) :
    ∃r b', discardValue eq pythonHash v b=some (r,b') ∧ Sound pythonHash b' := by
  cases b with
  | table t =>
    cases hv : pythonHash v with
    | some h =>
      obtain ⟨r,t',ht,hs,_⟩ := SetTable.holds_discard (hashed_stable eq pythonHash) hb v h
      exact ⟨r,table t',by simp only [discardValue,hv,ht,Option.map_some],hs⟩
    | none => exact ⟨false,table t,by simp only [discardValue,hv],hb⟩
  | fallback items =>
    simp only [discardValue]
    split
    · exact ⟨_,_,rfl,trivial⟩
    · exact ⟨_,_,rfl,trivial⟩

theorem sound_foldlM (f : SetBody α → α → Option (SetBody α))
    (hf : ∀b v, Sound pythonHash b → ∃b', f b v=some b' ∧ Sound pythonHash b')
    (items : List α) (hb : Sound pythonHash b) :
    ∃b', items.foldlM f b=some b' ∧ Sound pythonHash b' := by
  induction items generalizing b with
  | nil => exact ⟨b,rfl,hb⟩
  | cons v items ih =>
    obtain ⟨b₁,h₁,s₁⟩ := hf b v hb
    obtain ⟨b₂,h₂,s₂⟩ := ih s₁
    refine ⟨b₂,?_,s₂⟩
    rw [List.foldlM_cons,h₁]
    exact h₂

theorem sound_snd (r : Option (Bool×SetBody α))
    (h : ∃x b', r=some (x,b') ∧ Sound pythonHash b') :
    ∃b', r.map Prod.snd=some b' ∧ Sound pythonHash b' := by
  obtain ⟨x,b',hr,hs⟩ := h
  exact ⟨b',by rw [hr]; rfl,hs⟩

theorem sound_bind (r : Option (SetBody α)) (f : SetBody α → Option (SetBody α))
    (h : ∃b, r=some b ∧ Sound pythonHash b)
    (hf : ∀b, Sound pythonHash b → ∃b', f b=some b' ∧ Sound pythonHash b') :
    ∃b', r.bind f=some b' ∧ Sound pythonHash b' := by
  obtain ⟨b₁,h₁,s₁⟩ := h
  rw [h₁]
  exact hf b₁ s₁

theorem sound_addValues (items : List α) (hb : Sound pythonHash b) :
    ∃b', addValues eq pythonHash items b=some b' ∧ Sound pythonHash b' :=
  sound_foldlM pythonHash _ (fun _ v h => sound_snd pythonHash _ (sound_addValue eq pythonHash h v)) items hb

theorem sound_discardValues (items : List α) (hb : Sound pythonHash b) :
    ∃b', discardValues eq pythonHash items b=some b' ∧ Sound pythonHash b' :=
  sound_foldlM pythonHash _ (fun _ v h => sound_snd pythonHash _ (sound_discardValue eq pythonHash h v)) items hb

theorem sound_compactIfSparse (b : SetBody α) (hb : Sound pythonHash b) :
    ∃b', compactIfSparse b=some b' ∧ Sound pythonHash b' := by
  cases b with
  | table t =>
    obtain ⟨t',ht,w,hp⟩ := SetTable.compactIfSparse_spec hb.wf
    refine sound_map pythonHash _ ⟨t',ht,w,?_⟩
    exact (hashed_stable (fun _ _ => true) pythonHash).perm _ _ hp.symm hb.contents
  | fallback items => exact ⟨_,rfl,trivial⟩

theorem sound_copied (hb : Sound pythonHash b) :
    ∃b', copied eq b=some b' ∧ Sound pythonHash b' := by
  cases b with
  | table t => exact sound_map pythonHash _ (SetTable.holds_copy (hashed_stable eq pythonHash) hb)
  | fallback items => exact ⟨_,rfl,trivial⟩

theorem sound_mergeFrom (c : SetBody α) (hb : Sound pythonHash b) (hc : Sound pythonHash c) :
    ∃b', mergeFrom eq pythonHash b c=some b' ∧ Sound pythonHash b' := by
  cases b with
  | table t =>
    cases c with
    | table u => exact sound_map pythonHash _ (SetTable.holds_merge (hashed_stable eq pythonHash) hb hc)
    | fallback ys => exact sound_addValues eq pythonHash ys hb
  | fallback xs => exact sound_addValues eq pythonHash c.iterOrdered hb

theorem sound_differenceFrom (c : SetBody α) (hb : Sound pythonHash b) :
    ∃b', differenceFrom eq pythonHash b c=some b' ∧ Sound pythonHash b' := by
  have mixed : ∀items, ∃b', (discardValues eq pythonHash items b).bind compactIfSparse=some b' ∧
      Sound pythonHash b' := by
    intro items
    exact sound_bind pythonHash _ _ (sound_discardValues eq pythonHash items hb)
      (sound_compactIfSparse pythonHash)
  cases b with
  | table t =>
    cases c with
    | table u =>
      exact sound_map pythonHash _
        (SetTable.holds_differenceUpdate (hashed_stable eq pythonHash) hb u)
    | fallback ys => exact mixed ys
  | fallback xs => exact mixed c.iterOrdered

/-- What a lookup finds: on a table only entries stored under the value's own hash. -/
def found (v : α) : SetBody α → Bool
  | table t => t.actives.any (fun p => decide (pythonHash v=some p.2)&&eq p.1 v)
  | fallback items => items.any (fun x => eq x v)

theorem found_table (t : SetTable α) (v : α) (h : Int64) (hv : pythonHash v=some h) :
    found eq pythonHash v (table t)=t.actives.any (SetTable.hit eq v h) := by
  refine congrArg t.actives.any (funext fun p => ?_)
  by_cases hp : p.2=h
  · simp [SetTable.hit,hv,hp]
  · simp [SetTable.hit,hv,hp,Ne.symm hp]

theorem found_unhashed (t : SetTable α) (v : α) (hv : pythonHash v=none) :
    found eq pythonHash v (table t)=false := by
  simp [found,hv]

theorem contains_found (hb : Sound pythonHash b) (v : α) :
    contains eq pythonHash v b=some (found eq pythonHash v b) := by
  cases b with
  | table t =>
    cases hv : pythonHash v with
    | some h =>
      rw [found_table eq pythonHash t v h hv]
      simp only [contains,hv,SetTable.contains_eq eq hb.wf]
    | none =>
      rw [found_unhashed eq pythonHash t v hv]
      simp only [contains,hv]
  | fallback items => rfl

theorem sound_addContained (large : SetBody α) (hl : Sound pythonHash large) (items : List α)
    (hb : Sound pythonHash b) :
    ∃b', addContained eq pythonHash large items b=some b' ∧ Sound pythonHash b' := by
  induction items generalizing b with
  | nil => exact ⟨b,rfl,hb⟩
  | cons v items ih =>
    have hc := contains_found eq pythonHash hl v
    obtain ⟨r,b₁,h₁,s₁⟩ := sound_addValue eq pythonHash hb v
    rw [addContained,hc]
    simp only [Option.bind_eq_bind,Option.bind_some,h₁]
    split
    · exact ih s₁
    · exact ih hb

theorem sound_toggleValue (b : SetBody α) (v : α) (hb : Sound pythonHash b) :
    ∃b', toggleValue eq pythonHash b v=some b' ∧ Sound pythonHash b' := by
  obtain ⟨r,b₁,h₁,s₁⟩ := sound_discardValue eq pythonHash hb v
  rw [toggleValue,h₁]
  cases r with
  | true => exact ⟨b₁,rfl,s₁⟩
  | false => exact sound_snd pythonHash _ (sound_addValue eq pythonHash s₁ v)

/-- The mixed cases of the operators, with at least one fallback operand. -/
theorem sound_mixed (f : Operator) (b c : SetBody α) (hb : Sound pythonHash b)
    (hc : Sound pythonHash c) (h : ¬∃t u, b=table t ∧ c=table u) :
    ∃b', f.body eq pythonHash b c=some b' ∧ Sound pythonHash b' := by
  have union : ∃b', ((copied eq b).bind fun r => mergeFrom eq pythonHash r c)=some b' ∧
      Sound pythonHash b' :=
    sound_bind pythonHash _ _ (sound_copied eq pythonHash hb)
      (fun r hr => sound_mergeFrom eq pythonHash c hr hc)
  have difference : ∃b', ((copied eq b).bind fun r => differenceFrom eq pythonHash r c)=some b' ∧
      Sound pythonHash b' :=
    sound_bind pythonHash _ _ (sound_copied eq pythonHash hb)
      (fun r hr => sound_differenceFrom eq pythonHash c hr)
  have symm : ∃b', ((copied eq c).bind fun r =>
      b.iterOrdered.foldlM (toggleValue eq pythonHash) r)=some b' ∧ Sound pythonHash b' :=
    sound_bind pythonHash _ _ (sound_copied eq pythonHash hc)
      (fun r hr => sound_foldlM pythonHash _ (sound_toggleValue eq pythonHash) _ hr)
  have inter : ∃b', (if b.len≥c.len then addContained eq pythonHash b c.iterOrdered empty
      else addContained eq pythonHash c b.iterOrdered empty)=some b' ∧ Sound pythonHash b' := by
    split
    · exact sound_addContained eq pythonHash b hb _ (sound_empty pythonHash)
    · exact sound_addContained eq pythonHash c hc _ (sound_empty pythonHash)
  cases b with
  | table t =>
    cases c with
    | table u => exact absurd ⟨t,u,rfl,rfl⟩ h
    | fallback ys =>
      cases f with
      | union => exact union
      | intersection => exact inter
      | difference => exact difference
      | symmetricDifference => exact symm
  | fallback xs =>
    cases f with
    | union => exact union
    | intersection => exact inter
    | difference => exact difference
    | symmetricDifference => exact symm

theorem sound_operator (f : Operator) (b c : SetBody α) (hb : Sound pythonHash b)
    (hc : Sound pythonHash c) : ∃b', f.body eq pythonHash b c=some b' ∧ Sound pythonHash b' := by
  by_cases h : ∃t u, b=table t ∧ c=table u
  · obtain ⟨t,u,rfl,rfl⟩ := h
    have ht := sound_map pythonHash _ (SetTable.holds_operator (hashed_stable eq pythonHash) f hb hc)
    cases f with
    | union => exact ht
    | intersection => exact ht
    | difference => exact ht
    | symmetricDifference => exact ht
  · exact sound_mixed eq pythonHash f b c hb hc h

theorem sound_popFirst (hb : Sound pythonHash b) : Sound pythonHash b.popFirst.2 := by
  cases b with
  | table t => exact SetTable.holds_popFirst (hashed_stable (fun _ _ => true) pythonHash) hb
  | fallback items => cases items <;> exact trivial

theorem step_sound (T : Bank α) (o : BodyOp α) (h : ∀r, Sound pythonHash (T r)) :
    ∃T' reply, step eq pythonHash T o=some (T',reply) ∧ ∀r, Sound pythonHash (T' r) := by
  have upd : ∀dst b, Sound pythonHash b → ∀r, Sound pythonHash (Function.update T dst b r) := by
    intro dst b hb r
    by_cases hr : r=dst
    · rw [hr,Function.update_self]
      exact hb
    · rw [Function.update_of_ne hr]
      exact h r
  have back : ∀dst (b : Option (SetBody α)), (∃b', b=some b' ∧ Sound pythonHash b') →
      ∃T' reply, writeBack T dst b=some (T',reply) ∧ ∀r, Sound pythonHash (T' r) := by
    intro dst b ⟨b',he,hs⟩
    exact ⟨_,_,by rw [he]; rfl,upd dst b' hs⟩
  have reply : ∀dst (b : Option (Bool×SetBody α)),
      (∃r b', b=some (r,b') ∧ Sound pythonHash b') →
      ∃T' reply, writeReply T dst b=some (T',reply) ∧ ∀r, Sound pythonHash (T' r) := by
    intro dst b ⟨r,b',he,hs⟩
    exact ⟨_,_,by rw [he]; rfl,upd dst b' hs⟩
  cases o with
  | fromItems dst items => exact back dst _ (sound_fromItems eq pythonHash items)
  | fromConstantLiteral dst items => exact back dst _ (sound_fromConstantLiteral eq pythonHash items)
  | add dst v => exact reply dst _ (sound_addValue eq pythonHash (h dst) v)
  | discard dst v => exact reply dst _ (sound_discardValue eq pythonHash (h dst) v)
  | popFirst dst => exact ⟨_,_,rfl,upd dst _ (sound_popFirst pythonHash (h dst))⟩
  | clear dst => exact back dst _ ⟨_,rfl,sound_empty pythonHash⟩
  | clone dst src => exact back dst _ ⟨_,rfl,h src⟩
  | copied dst src => exact back dst _ (sound_copied eq pythonHash (h src))
  | mergeFrom dst src => exact back dst _ (sound_mergeFrom eq pythonHash (T src) (h dst) (h src))
  | differenceFrom dst src => exact back dst _ (sound_differenceFrom eq pythonHash (T src) (h dst))
  | operator f dst a b => exact back dst _ (sound_operator eq pythonHash f (T a) (T b) (h a) (h b))

theorem run_sound (ops : List (BodyOp α)) :
    ∃T replies, run (step eq pythonHash) start ops=some (T,replies) ∧
      ∀r, Sound pythonHash (T r) := by
  obtain ⟨T,replies,_,hrun,_,hT⟩ := run_refines (A := Unit) (step eq pythonHash)
    (fun _ _ _ _ => True) (fun T _ => ∀r, Sound pythonHash (T r))
    (fun T _ o h => by
      obtain ⟨T',r,hs,hT⟩ := step_sound eq pythonHash T o h
      exact ⟨T',r,(),hs,trivial,hT⟩)
    ops start () (fun _ => sound_empty pythonHash)
  exact ⟨T,replies,hrun,hT⟩

end Invariant

section Membership

def isFallback : SetBody α → Bool
  | table _ => false
  | fallback _ => true

/-- Membership, insertion and removal of `v` all go by equality with the listed elements. -/
structure Membership (b : SetBody α) (v : α) : Prop where
  contains : ∃r, contains eq pythonHash v b=some r ∧ (r=true ↔ ∃x∈b.iterOrdered, eq x v=true)
  add : ∃r b', addValue eq pythonHash v b=some (r,b') ∧
    (r=false ↔ SetBody.contains eq pythonHash v b=some true)
  discard : SetBody.contains eq pythonHash v b=some true → ∃b' pre x post,
    discardValue eq pythonHash v b=some (true,b') ∧ eq x v=true ∧
      b.iterOrdered=pre++x::post ∧ b'.iterOrdered=pre++post
  absent : SetBody.contains eq pythonHash v b=some false → ∃b',
    discardValue eq pythonHash v b=some (false,b') ∧ b'.iterOrdered=b.iterOrdered

/-- An element equal to `v`, if there is one, has the python hash of `v`. -/
def Visible (b : SetBody α) (v : α) : Prop :=
  (∃x∈b.iterOrdered, eq x v=true) → ∃y∈b.iterOrdered, eq y v=true ∧ pythonHash y=pythonHash v

variable {b : SetBody α} {t : SetTable α} {v : α}

theorem found_iff (hb : Sound pythonHash (table t)) :
    found eq pythonHash v (table t)=true ↔
      ∃y∈t.iterOrdered, eq y v=true ∧ pythonHash y=pythonHash v := by
  rw [found,List.any_eq_true]
  constructor
  · intro ⟨p,hp,h⟩
    rw [Bool.and_eq_true,decide_eq_true_eq] at h
    refine ⟨p.1,List.mem_map_of_mem hp,h.2,?_⟩
    rw [hb.contents p hp,h.1]
  · intro ⟨y,hy,heq,hh⟩
    obtain ⟨p,hp,rfl⟩ := List.mem_map.mp hy
    refine ⟨p,hp,?_⟩
    rw [Bool.and_eq_true,decide_eq_true_eq,← hh]
    exact ⟨hb.contents p hp,heq⟩

theorem add_found (hb : Sound pythonHash (table t)) (h : Int64) (hv : pythonHash v=some h) :
    ∃r b', addValue eq pythonHash v (table t)=some (r,b') ∧
      (r=false ↔ found eq pythonHash v (table t)=true) := by
  obtain ⟨t',ht,w,ha⟩ := SetTable.add_spec eq hb.wf v h
  refine ⟨decide (t.used<t'.used),table t',by simp only [addValue,hv,ht,Option.map_some],?_⟩
  rw [found_table eq pythonHash t v h hv,decide_eq_false_iff_not,hb.wf.used,w.used]
  cases ha with
  | inl same =>
    rw [same.2]
    exact ⟨fun _ => same.1,fun _ => lt_irrefl _⟩
  | inr more =>
    rw [more.2.length_eq,more.1,List.length_cons]
    simp

theorem discard_found (hb : Sound pythonHash (table t)) :
    ∃b', discardValue eq pythonHash v (table t)=some (found eq pythonHash v (table t),b') ∧
      (found eq pythonHash v (table t)=true → ∃pre x post, eq x v=true ∧
        t.iterOrdered=pre++x::post ∧ b'.iterOrdered=pre++post) ∧
      (found eq pythonHash v (table t)=false → b'.iterOrdered=t.iterOrdered) := by
  cases hv : pythonHash v with
  | none =>
    rw [found_unhashed eq pythonHash t v hv]
    refine ⟨table t,by simp only [discardValue,hv],?_,fun _ => rfl⟩
    intro h
    cases h
  | some h =>
    rw [found_table eq pythonHash t v h hv]
    obtain ⟨r,t',ht,_,hd⟩ := SetTable.discard_spec eq hb.wf v h
    have hreturn : discardValue eq pythonHash v (table t)=some (r,table t') := by
      simp only [discardValue,hv,ht,Option.map_some]
    refine ⟨table t',?_⟩
    cases hd with
    | inl no =>
      obtain ⟨rfl,hf,hl⟩ := no
      rw [hf]
      refine ⟨hreturn,fun h => (by cases h),fun _ => ?_⟩
      rw [iterOrdered,SetTable.iterOrdered,hl,SetTable.iterOrdered]
    | inr yes =>
      obtain ⟨rfl,pre,x,post,hx,hl,hr⟩ := yes
      have hf : t.actives.any (SetTable.hit eq v h)=true :=
        List.any_eq_true.mpr ⟨x,by rw [hl]; simp,hx⟩
      rw [hf]
      refine ⟨hreturn,fun _ => ?_,fun h => (by cases h)⟩
      have hit := of_decide_eq_true hx
      refine ⟨pre.map Prod.fst,x.1,post.map Prod.fst,hit.2,?_,?_⟩
      · rw [SetTable.iterOrdered,hl,List.map_append,List.map_cons]
      · rw [iterOrdered,SetTable.iterOrdered,hr,List.map_append]

theorem eraseIdx_found (items : List α) (p : α → Bool) (i : Nat) (h : items.findIdx? p=some i) :
    ∃pre x post, p x=true ∧ items=pre++x::post ∧ items.eraseIdx i=pre++post := by
  obtain ⟨hi,hp,_⟩ := List.findIdx?_eq_some_iff_getElem.mp h
  refine ⟨items.take i,items[i],items.drop (i+1),hp,?_,List.eraseIdx_eq_take_drop_succ items i⟩
  rw [List.cons_getElem_drop_succ,List.take_append_drop]

theorem membership_fallback (items : List α) (v : α) :
    Membership eq pythonHash (fallback items) v := by
  have hany : items.any (fun x => eq x v)=true ↔ ∃x∈items, eq x v=true := List.any_eq_true
  constructor
  · exact ⟨_,rfl,hany⟩
  · simp only [addValue,SetBody.contains]
    cases hf : items.any (fun x => eq x v) with
    | true => exact ⟨false,_,rfl,by simp⟩
    | false => exact ⟨true,_,rfl,by simp⟩
  · intro hc
    have hf : items.any (fun x => eq x v)=true := Option.some.inj hc
    cases hi : items.findIdx? (fun x => eq x v) with
    | none =>
      have hnone := List.findIdx?_eq_none_iff.mp hi
      obtain ⟨x,hx,he⟩ := hany.mp hf
      rw [hnone x hx] at he
      cases he
    | some i =>
      obtain ⟨pre,x,post,hx,hl,hr⟩ := eraseIdx_found items _ i hi
      refine ⟨fallback (items.eraseIdx i),pre,x,post,?_,hx,hl,hr⟩
      simp only [discardValue,hi]
  · intro hc
    have hf : items.any (fun x => eq x v)=false := Option.some.inj hc
    have hi : items.findIdx? (fun x => eq x v)=none := by
      rw [List.findIdx?_eq_none_iff]
      intro x hx
      exact Bool.eq_false_iff.mpr (List.any_eq_false.mp hf x hx)
    refine ⟨fallback items,?_,rfl⟩
    simp only [discardValue,hi]

theorem membership_table (hb : Sound pythonHash (table t)) :
    Membership eq pythonHash (table t) v ↔ Visible eq pythonHash (table t) v := by
  have hcontains := contains_found eq pythonHash hb v
  constructor
  · intro hm hex
    obtain ⟨r,hr,hiff⟩ := hm.contains
    rw [hcontains] at hr
    exact (found_iff eq pythonHash hb).mp ((Option.some.inj hr).trans (hiff.mpr hex))
  · intro hv
    have hiff : found eq pythonHash v (table t)=true ↔ ∃x∈t.iterOrdered, eq x v=true := by
      rw [found_iff eq pythonHash hb]
      exact ⟨fun ⟨y,hy,he,_⟩ => ⟨y,hy,he⟩,hv⟩
    obtain ⟨b',hd,hcut,hkeep⟩ := discard_found eq pythonHash (v := v) hb
    constructor
    · exact ⟨_,hcontains,hiff⟩
    · rw [hcontains,Option.some.injEq]
      cases hh : pythonHash v with
      | some h => exact add_found eq pythonHash hb h hh
      | none =>
        -- A value without a hash is never found, so no element may equal it.
        have hf := found_unhashed eq pythonHash t v hh
        have hnone : t.iterOrdered.any (fun x => eq x v)=false := by
          rw [Bool.eq_false_iff]
          intro hany
          rw [hiff.mpr (List.any_eq_true.mp hany)] at hf
          cases hf
        refine ⟨true,fallback (t.iterOrdered++[v]),?_,by simp [hf]⟩
        simp only [addValue,hh,hnone]
        rfl
    · rw [hcontains,Option.some.injEq]
      intro hf
      obtain ⟨pre,x,post,hx,hl,hr⟩ := hcut hf
      rw [hf] at hd
      exact ⟨b',pre,x,post,hd,hx,hl,hr⟩
    · rw [hcontains,Option.some.injEq]
      intro hf
      have hsame := hkeep hf
      rw [hf] at hd
      exact ⟨b',hd,hsame⟩

theorem membership_iff (hb : Sound pythonHash b) :
    Membership eq pythonHash b v ↔ b.isFallback=true ∨ Visible eq pythonHash b v := by
  cases b with
  | table t => simp [isFallback,membership_table eq pythonHash hb]
  | fallback items => exact ⟨fun _ => .inl rfl,fun _ => membership_fallback eq pythonHash items v⟩

end Membership

end SetBody

end InterpretThis.Pyset
