import InterpretThis.Pyset.Machine

namespace InterpretThis.Pyset

open InterpretThis.Probe

namespace SetTable

variable {α : Type} (eq : α → α → Bool)

section Visits

variable (slots : List (Slot α)) (value : α) (hash : Int64)

/-- What `contains` and `discard` do at one entry. An inner `none` is an index out of bounds. -/
def lookupVisit (_ : Unit) (e : Nat) : Unit⊕Option (Option Nat) :=
  match slots[e]? with
  | none => .inr none
  | some .empty => .inr (some none)
  | some .dummy => .inl ()
  | some (.active ev eh) => if eh=hash ∧ eq ev value then .inr (some (some e)) else .inl ()

/-- What `add` does at one entry; it remembers the last dummy. -/
def addVisit (freeslot : Option Nat) (e : Nat) : Option Nat⊕Option Landing :=
  match slots[e]? with
  | none => .inr none
  | some .empty =>
    match freeslot with
    | some fs => .inr (some (.reuse fs))
    | none => .inr (some (.fresh e))
  | some .dummy => .inl (some e)
  | some (.active ev eh) => if eh=hash ∧ eq ev value then .inr (some .present) else .inl freeslot

/-- What `insert_clean` does at one entry. -/
def cleanVisit (_ : Unit) (e : Nat) : Unit⊕Nat :=
  if occupied slots e then .inl () else .inr e

theorem lookup_scan (p : List Nat) :
    lookup eq slots value hash p=(scan (lookupVisit eq slots value hash) p ()).bind id := by
  induction p with
  | nil => rfl
  | cons e p ih =>
    rw [lookup,scan,lookupVisit]
    cases slots[e]? with
    | none => rfl
    | some s =>
      cases s with
      | empty => rfl
      | dummy => exact ih
      | active ev eh =>
        by_cases hm : eh=hash ∧ eq ev value=true
        · simp only [hm]; rfl
        · simp only [hm,if_false]; exact ih

theorem addLoop_scan (p : List Nat) (fs : Option Nat) :
    addLoop eq slots value hash p fs=(scan (addVisit eq slots value hash) p fs).bind id := by
  induction p generalizing fs with
  | nil => rfl
  | cons e p ih =>
    simp only [addLoop,scan,addVisit]
    cases slots[e]? with
    | none => rfl
    | some s =>
      cases s with
      | empty => cases fs <;> rfl
      | dummy => exact ih (some e)
      | active ev eh =>
        by_cases hm : eh=hash ∧ eq ev value=true
        · simp only [hm]; rfl
        · simp only [hm,if_false]; exact ih fs

theorem find_scan (p : List Nat) :
    p.find? (fun e => !occupied slots e)=scan (cleanVisit slots) p () := by
  induction p with
  | nil => rfl
  | cons e p ih =>
    rw [List.find?_cons,scan,cleanVisit]
    cases occupied slots e with
    | true => exact ih
    | false => rfl

end Visits

/-- The probe loop of an operation, from the home slot of a hash. -/
abbrev Loop {σ ρ : Type} (mask : Nat) (hash : Int64) (visit : σ → Nat → σ⊕ρ) : σ → ρ → Prop :=
  Ends linearProbes perturbShift mask visit
    (.home linearProbes mask (hash.toUInt64.toNat&&&mask) hash.toUInt64.toNat)

variable {t : SetTable α}

theorem lookup_ends (w : WF t) (v : α) (h : Int64) :
    ∃found,lookup eq t.slots v h (probePath t.mask h)=some found ∧
      Loop t.mask h (lookupVisit eq t.slots v h) () (some found) := by
  obtain ⟨e,rest,hp,he⟩ := w.core.stop w.room h
  have occ := Probe.reach_occ (occupied t.slots) (probePath t.mask h)
  have hl := lookup_prefix eq t.slots v h _ rest e occ he
  rw [← hp] at hl
  refine ⟨_,hl,?_⟩
  rw [lookup_scan] at hl
  obtain ⟨r,hr,hi⟩ := Option.bind_eq_some_iff.mp hl
  have hs : r=some _ := hi
  rw [hs] at hr
  exact scan_path_ends _ _ _ _ _ _ _ _ hr

theorem addLoop_ends (w : WF t) (v : α) (h : Int64) :
    ∃landing,addLoop eq t.slots v h (probePath t.mask h) none=some landing ∧
      Loop t.mask h (addVisit eq t.slots v h) none (some landing) := by
  obtain ⟨e,rest,hp,he⟩ := w.core.stop w.room h
  have occ := Probe.reach_occ (occupied t.slots) (probePath t.mask h)
  have hl := addLoop_prefix eq t.slots v h _ rest e none occ he
  rw [← hp] at hl
  have hsome : ∃landing,addLoop eq t.slots v h (probePath t.mask h) none=some landing := by
    rw [hl]
    split_ifs
    · exact ⟨_,rfl⟩
    · split <;> exact ⟨_,rfl⟩
  obtain ⟨landing,hland⟩ := hsome
  refine ⟨landing,hland,?_⟩
  rw [addLoop_scan] at hland
  obtain ⟨r,hr,hi⟩ := Option.bind_eq_some_iff.mp hland
  have hs : r=some landing := hi
  rw [hs] at hr
  exact scan_path_ends _ _ _ _ _ _ _ _ hr

theorem clean_ends (w : WF t) (h : Int64) :
    ∃e,t.slots[e]?=some .empty ∧ Loop t.mask h (cleanVisit t.slots) () e := by
  obtain ⟨e,rest,hp,he⟩ := w.core.stop w.room h
  refine ⟨e,he,scan_path_ends _ _ _ (t.mask+14) _ _ _ _ ?_⟩
  change scan (cleanVisit t.slots) (probePath t.mask h) ()=some e
  rw [← find_scan,find_free h e rest hp he]

/-- The tables that the operations build from the empty one, under any hashes. -/
inductive Reachable : SetTable α → Prop
  | empty : Reachable (withCapacity minsize)
  | add {t t' : SetTable α} (r : Reachable t) (v : α) (h : Int64) (e : t.add eq v h=some t') :
      Reachable t'
  | discard {t t' : SetTable α} (r : Reachable t) (v : α) (h : Int64) (b : Bool)
      (e : t.discard eq v h=some (b,t')) : Reachable t'
  | popFirst {t : SetTable α} (r : Reachable t) : Reachable t.popFirst.2
  | merge {t u t' : SetTable α} (r : Reachable t) (s : Reachable u) (e : t.merge eq u=some t') :
      Reachable t'
  | differenceUpdate {t u t' : SetTable α} (r : Reachable t) (s : Reachable u)
      (e : t.differenceUpdate eq u=some t') : Reachable t'
  | copy {t t' : SetTable α} (r : Reachable t) (e : t.copy eq=some t') : Reachable t'
  | operator {t u t' : SetTable α} (f : Operator) (r : Reachable t) (s : Reachable u)
      (e : f.table eq t u=some t') : Reachable t'

theorem stable_any : Stable eq (fun _ => True) (fun _ => True) :=
  ⟨trivial,fun _ _ _ _ => trivial,fun _ _ _ _ => trivial,fun _ _ _ => trivial,
    fun _ _ _ _ _ => trivial⟩

variable {eq}

theorem Reachable.holds (r : Reachable eq t) : Holds (fun _ => True) t := by
  have same : ∀{o : Option (SetTable α)} {t'},o=some t' →
      (∃t'',o=some t'' ∧ Holds (fun _ => True) t'') → Holds (fun _ => True) t' := by
    intro o t' e h
    obtain ⟨t'',ht,hh⟩ := h
    rw [e] at ht
    rwa [Option.some.inj ht]
  induction r with
  | empty => exact holds_empty (stable_any eq)
  | add _ v h e ih => exact same e (holds_add (stable_any eq) ih v h trivial)
  | discard _ v h b e ih =>
    obtain ⟨b',t'',hd,hh,_⟩ := holds_discard (stable_any eq) ih v h
    rw [e] at hd
    have ht := Option.some.inj hd
    rwa [(Prod.mk.inj ht).2]
  | popFirst _ ih => exact holds_popFirst (stable_any eq) ih
  | merge _ _ e ih iu => exact same e (holds_merge (stable_any eq) ih iu)
  | differenceUpdate _ _ e ih _ => exact same e (holds_differenceUpdate (stable_any eq) ih _)
  | copy _ e ih => exact same e (holds_copy (stable_any eq) ih)
  | operator f _ _ e ih iu => exact same e (holds_operator (stable_any eq) f ih iu)

/-- A reachable table keeps free slots, so every probe loop on it stops, and so do the loops inside
the operations on it. -/
theorem probe_loops_stop (r : Reachable eq t) :
    5*t.fill<3*t.mask ∧
    (∀(v : α) (h : Int64),
      (∃landing,Loop t.mask h (addVisit eq t.slots v h) none (some landing)) ∧
      (∃found,Loop t.mask h (lookupVisit eq t.slots v h) () (some found)) ∧
      (∃e,t.slots[e]?=some .empty ∧ Loop t.mask h (cleanVisit t.slots) () e) ∧
      (t.add eq v h).isSome ∧ (t.contains eq v h).isSome ∧ (t.discard eq v h).isSome) ∧
    (∀u,Reachable eq u → (t.merge eq u).isSome ∧ (t.differenceUpdate eq u).isSome ∧
      ∀f : Operator,(f.table eq t u).isSome) ∧ (t.copy eq).isSome := by
  have ht := r.holds
  have some_of : ∀{o : Option (SetTable α)},(∃t',o=some t' ∧ Holds (fun _ => True) t') →
      o.isSome=true := by
    intro o h
    obtain ⟨t',he,_⟩ := h
    rw [he]
    rfl
  refine ⟨?_,?_,?_,some_of (holds_copy (stable_any eq) ht)⟩
  · have load := ht.wf.load
    omega
  · intro v h
    obtain ⟨landing,_,hl⟩ := addLoop_ends eq ht.wf v h
    obtain ⟨found,hf,he⟩ := lookup_ends eq ht.wf v h
    refine ⟨⟨landing,hl⟩,⟨found,he⟩,clean_ends ht.wf h,?_,?_,?_⟩
    · exact some_of (holds_add (stable_any eq) ht v h trivial)
    · rw [contains,hf]
      rfl
    · rw [discard,hf]
      rfl
  · intro u hu
    refine ⟨some_of (holds_merge (stable_any eq) ht hu.holds),
      some_of (holds_differenceUpdate (stable_any eq) ht u),fun f => ?_⟩
    exact some_of (holds_operator (stable_any eq) f ht hu.holds)

theorem Reachable.addAll (r : Reachable eq t) (items : List (α×Int64)) {t' : SetTable α}
    (h : t.addAll eq items=some t') : Reachable eq t' := by
  induction items generalizing t with
  | nil =>
    cases h
    exact r
  | cons p items ih =>
    obtain ⟨u,hu,rest⟩ := Option.bind_eq_some_iff.mp h
    exact ih (.add r p.1 p.2 hu) rest

def crowded : SetTable Nat :=
  ((withCapacity minsize).addAll (· == ·) [(1,1),(9,1),(17,1)]).getD (withCapacity minsize)

def thinned : SetTable Nat := ((crowded.discard (· == ·) 9 1).map Prod.snd).getD crowded

def regrown : SetTable Nat := (thinned.addAll (· == ·) [(25,1),(2,2),(3,3)]).getD thinned

/-- Numbers that collide, one of which is discarded; the numbers after it make the table resize. -/
theorem probe_loops_stop_resized :
    thinned.fill=3 ∧ thinned.used=2 ∧ regrown.mask=31 ∧ 5*regrown.fill<3*regrown.mask ∧
      ∀h,(regrown.contains (· == ·) 9 h).isSome := by
  have r : Reachable (· == ·) regrown :=
    .addAll (.discard (.addAll .empty [(1,1),(9,1),(17,1)] rfl) 9 1 true rfl)
      [(25,1),(2,2),(3,3)] rfl
  have stops := probe_loops_stop r
  exact ⟨rfl,rfl,rfl,stops.1,fun h => (stops.2.1 9 h).2.2.2.2.1⟩

end SetTable

end InterpretThis.Pyset
