import InterpretThis.Sequence.Slice

namespace InterpretThis.Sequence

open Progression

section Reading

variable {α : Type}

def pick (items : List α) (ps : List Nat) : List α := ps.filterMap fun p => items[p]?

def Seq.length : Seq α → Nat
  | .list items => items.length
  | .tuple items => items.length
  | .str s => s.toList.length
  | .bytes raw => raw.length
  | .byteArray raw => raw.length

def Seq.pick : Seq α → List Nat → Seq α
  | .list items,ps => .list (Sequence.pick items ps)
  | .tuple items,ps => .tuple (Sequence.pick items ps)
  | .str s,ps => .str (String.ofList (Sequence.pick s.toList ps))
  | .bytes raw,ps => .bytes (Sequence.pick raw ps)
  | .byteArray raw,ps => .byteArray (Sequence.pick raw ps)

theorem mapM_element (items : List α) (ps : List Nat) (h : ∀ p ∈ ps,p < items.length) :
    ps.mapM (element items)=.ok (pick items ps) := by
  induction ps with
  | nil => rfl
  | cons p ps ih =>
    have hp : p < items.length := h p (by simp)
    have hrest := ih fun q hq => h q (by simp [hq])
    have hget : element items p=.ok items[p] := by
      unfold element
      rw [List.getElem?_eq_getElem hp]
    rw [List.mapM_cons,hget]
    simp only [bind,Except.bind,hrest,pick,List.filterMap_cons,List.getElem?_eq_getElem hp]
    rfl

theorem pick_map {β : Type} (f : α → β) (items : List α) (ps : List Nat) :
    pick (items.map f) ps=(pick items ps).map f := by
  unfold pick
  rw [List.map_filterMap]
  refine List.filterMap_congr fun p _ => ?_
  simp

theorem resolveStep_ok {step : Option Bound} (h0 : stepValue step≠0) (hi : InI64 (stepValue step)) :
    resolveStep step=.ok (stepValue step) := by
  have hsmall : resolveBound step 1=.ok (stepValue step) := by
    match step,hi with
    | none,_ => rfl
    | some .none,_ => rfl
    | some (.bool b),_ => rfl
    | some (.int n),hi => exact if_pos hi
  unfold resolveStep
  rw [hsmall]
  exact if_neg h0

theorem lengthI64_ok {text : String} {items : List α} (h : (items.length : Int) ≤ i64Max) :
    lengthI64 text items=.ok (items.length : Int) := if_pos h

theorem lengthI64_error {text : String} {items : List α} (h : ¬(items.length : Int) ≤ i64Max) :
    lengthI64 text items=.error (.runtime text) := if_neg h

theorem acquire_ok {held : List Nat} {address : Nat} (h : address ∉ held) :
    acquire held address=.ok () := if_neg h

theorem acquire_deadlock {held : List Nat} {address : Nat} (h : address ∈ held) :
    acquire held address=.error .deadlock := if_pos h

/-- A path can be locked when it meets no container twice. -/
theorem navigate_eq : ∀ path held : List Nat,
    navigate held path=
      if path.Nodup ∧ ∀ address ∈ path,address ∉ held then .ok (path.reverse++held)
      else .error .deadlock
  | [],held => by
    rw [if_pos ⟨List.nodup_nil,fun _ h => nomatch h⟩]
    rfl
  | address::path,held => by
    unfold navigate
    by_cases hfree : address ∈ held
    · rw [acquire_deadlock hfree,if_neg fun h => h.2 address List.mem_cons_self hfree]
      rfl
    · rw [acquire_ok hfree]
      simp only [bind,Except.bind]
      rw [navigate_eq path (address::held),List.reverse_cons,List.append_assoc]
      refine if_congr ?_ rfl rfl
      rw [List.nodup_cons]
      constructor
      · rintro ⟨hnd,hnew⟩
        refine ⟨⟨fun h => hnew address h List.mem_cons_self,hnd⟩,?_⟩
        intro a ha
        rcases List.mem_cons.mp ha with rfl | ha
        · exact hfree
        · exact fun h => hnew a ha (List.mem_cons_of_mem address h)
      · rintro ⟨⟨hout,hnd⟩,hnew⟩
        refine ⟨hnd,?_⟩
        intro a ha h
        rcases List.mem_cons.mp h with rfl | h
        · exact hout ha
        · exact hnew a (List.mem_cons_of_mem address ha) h

theorem navigate_ok {path : List Nat} (h : path.Nodup) : navigate [] path=.ok path.reverse := by
  rw [navigate_eq,if_pos ⟨h,fun _ _ h => nomatch h⟩,List.append_nil]

theorem navigate_deadlock {path : List Nat} (h : ¬path.Nodup) :
    navigate [] path=.error .deadlock := by
  rw [navigate_eq,if_neg fun h' => h h'.1]

variable {step : Int}

theorem sliceSequence_ok (h0 : step≠0) (hi : InI64 step) (items : List α)
    {lower upper : Option Bound} (h : Exact items.length lower upper step) :
    sliceSequence items lower upper step=
      .ok (pick items (positions items.length (boundValue lower) (boundValue upper) step)) := by
  unfold sliceSequence
  rw [lengthI64_ok h.2.2.1]
  simp only [bind,Except.bind,extendedIndices_ok h0 hi h]
  exact mapM_element _ _ fun p hp => lt_of_mem_positions h0 hp

theorem sliceSequence_error (h0 : step≠0) (items : List α) {lower upper : Option Bound}
    (h : ¬Exact items.length lower upper step) :
    ∃ e,sliceSequence items lower upper step=.error e := by
  unfold sliceSequence
  by_cases hlen : (items.length : Int) ≤ i64Max
  · obtain ⟨e,he,-⟩ := extendedIndices_error h0 hlen h
    exact ⟨e,by rw [lengthI64_ok hlen]; simp only [bind,Except.bind,he]⟩
  · rw [lengthI64_error hlen]
    exact ⟨_,rfl⟩

theorem sliceBytes_eq (raw : List UInt8) (lower upper : Option Bound) (ps : List Nat)
    (h : sliceSequence (raw.map fun b => b.toNat) lower upper step=
      .ok (pick (raw.map fun b => b.toNat) ps)) :
    sliceBytes raw lower upper step=.ok (pick raw ps) := by
  unfold sliceBytes
  rw [h]
  simp only [bind,Except.bind,pick_map,List.map_map]
  congr 1
  refine (List.map_congr_left fun b _ => ?_).trans (List.map_id _)
  simp only [Function.comp,id]
  rw [Nat.mod_eq_of_lt b.toNat_lt]
  exact UInt8.ofNat_toNat

theorem sliceBytes_ok (h0 : step≠0) (hi : InI64 step) (raw : List UInt8)
    {lower upper : Option Bound} (h : Exact raw.length lower upper step) :
    sliceBytes raw lower upper step=
      .ok (pick raw (positions raw.length (boundValue lower) (boundValue upper) step)) := by
  have hmap := sliceSequence_ok h0 hi (raw.map fun b => b.toNat) (by rwa [List.length_map])
  rw [List.length_map] at hmap
  exact sliceBytes_eq raw lower upper _ hmap

theorem sliceBytes_error (h0 : step≠0) (raw : List UInt8) {lower upper : Option Bound}
    (h : ¬Exact raw.length lower upper step) : ∃ e,sliceBytes raw lower upper step=.error e := by
  obtain ⟨e,he⟩ := sliceSequence_error h0 (raw.map fun b => b.toNat) (by rwa [List.length_map])
  exact ⟨e,by unfold sliceBytes; rw [he]; rfl⟩

end Reading

section Kinds

variable {α : Type} {step : Option Bound} {lower upper : Option Bound}

theorem applyValueSlice_ok (h0 : stepValue step≠0) (hi : InI64 (stepValue step)) (obj : Seq α)
    (h : Exact obj.length lower upper (stepValue step)) :
    applyValueSlice obj lower upper step=
      .ok (obj.pick (positions obj.length (boundValue lower) (boundValue upper)
        (stepValue step))) := by
  unfold applyValueSlice
  rw [resolveStep_ok h0 hi]
  simp only [bind,Except.bind]
  cases obj with
  | list items =>
    simp only [sliceSequence_ok h0 hi items h]
    rfl
  | tuple items =>
    simp only [sliceSequence_ok h0 hi items h]
    rfl
  | str s =>
    simp only [sliceSequence_ok h0 hi s.toList h]
    rfl
  | bytes raw =>
    simp only [sliceBytes_ok h0 hi raw h]
    rfl
  | byteArray raw =>
    simp only [sliceBytes_ok h0 hi raw h]
    rfl

theorem applyValueSlice_error (h0 : stepValue step≠0) (hi : InI64 (stepValue step)) (obj : Seq α)
    (h : ¬Exact obj.length lower upper (stepValue step)) :
    ∃ e,applyValueSlice obj lower upper step=.error e := by
  unfold applyValueSlice
  rw [resolveStep_ok h0 hi]
  simp only [bind,Except.bind]
  cases obj with
  | list items =>
    obtain ⟨e,he⟩ := sliceSequence_error h0 items h
    exact ⟨e,by simp only [he]; rfl⟩
  | tuple items =>
    obtain ⟨e,he⟩ := sliceSequence_error h0 items h
    exact ⟨e,by simp only [he]; rfl⟩
  | str s =>
    obtain ⟨e,he⟩ := sliceSequence_error h0 s.toList h
    exact ⟨e,by simp only [he]; rfl⟩
  | bytes raw =>
    obtain ⟨e,he⟩ := sliceBytes_error h0 raw h
    exact ⟨e,by simp only [he]; rfl⟩
  | byteArray raw =>
    obtain ⟨e,he⟩ := sliceBytes_error h0 raw h
    exact ⟨e,by simp only [he]; rfl⟩

end Kinds

section Contiguous

variable {α : Type} {lower upper : Option Bound}

/-- Where a slice of step 1 begins and ends; the end is never before the beginning. -/
def span (len : Nat) (start stop : Option Int) : Nat×Nat :=
  ((startIndex len start 1).toNat,
    (max (stopIndex len stop 1) (startIndex len start 1)).toNat)

theorem span_bounds (len : Nat) (start stop : Option Int) :
    (span len start stop).1 ≤ (span len start stop).2 ∧ (span len start stop).2 ≤ len := by
  have hstart := startIndex_up len start Int.one_pos
  have hstop := stopIndex_up len stop Int.one_pos
  unfold span
  constructor <;> dsimp only <;> omega

theorem terms_one (a b : Int) :
    terms a b 1=(List.range (b-a).toNat).map fun k : Nat => a+k := by
  unfold terms count
  rw [if_pos (by omega)]
  simp

theorem positions_one (len : Nat) (start stop : Option Int) :
    positions len start stop 1=
      List.range' (span len start stop).1
        ((span len start stop).2-(span len start stop).1) := by
  have hstart := startIndex_up len start Int.one_pos
  have hcount : (stopIndex len stop 1-startIndex len start 1).toNat=
      (span len start stop).2-(span len start stop).1 := by
    unfold span
    dsimp only
    omega
  unfold positions
  rw [terms_one,hcount,List.range'_eq_map_range,List.map_map]
  refine List.map_congr_left fun k _ => ?_
  simp only [Function.comp,span]
  omega

theorem forall_positions_one {len : Nat} (hlen : (len : Int) ≤ i64Max) (start stop : Option Int) :
    ∀ p ∈ positions len start stop 1,(p : Int)+1 ≤ i64Max := by
  intro p hp
  have := lt_of_mem_positions (by omega) hp
  omega

theorem contiguous_ok (len : Nat) (hl : Small lower) (hu : Small upper) :
    contiguous len lower upper=.ok (span len (boundValue lower) (boundValue upper)) := by
  have hstart := startIndex_up len (boundValue lower) Int.one_pos
  unfold contiguous
  rw [resolveBound_small hl,resolveBound_small hu]
  simp only [bind,Except.bind]
  rw [clampIndex_start Int.one_pos,clampIndex_stop Int.one_pos,
    toIndex_ok hstart.1,toIndex_ok (by omega)]
  rfl

theorem contiguous_error (len : Nat) (h : ¬(Small lower ∧ Small upper)) :
    contiguous len lower upper=.error indexError := by
  unfold contiguous
  by_cases hl : Small lower
  · rw [resolveBound_small hl,resolveBound_big fun hu => h ⟨hl,hu⟩]
    rfl
  · rw [resolveBound_big hl]
    rfl

theorem pick_range' (items : List α) (lo n : Nat) (h : lo+n ≤ items.length) :
    pick items (List.range' lo n)=(items.drop lo).take n := by
  induction n generalizing lo with
  | zero => simp [pick]
  | succ n ih =>
    have hlt : lo < items.length := by omega
    have hrest := ih (lo+1) (by omega)
    rw [List.range'_succ,List.drop_eq_getElem_cons hlt,List.take_succ_cons,← hrest]
    simp only [pick,List.filterMap_cons,List.getElem?_eq_getElem hlt]

variable {step : Option Bound}

theorem exact_one {len : Nat} (hlen : (len : Int) ≤ i64Max) :
    Exact len lower upper 1 ↔ Small lower ∧ Small upper :=
  ⟨fun h => ⟨h.1,h.2.1⟩,
    fun h => ⟨h.1,h.2,hlen,fun hneg => absurd hneg (by omega),forall_positions_one hlen _ _⟩⟩

/-- The containers on the way to the target are different ones, and none of them is the target. -/
def Apart (path : List Nat) (target : Nat) : Prop := path.Nodup ∧ target ∉ path

instance (path : List Nat) (target : Nat) : Decidable (Apart path target) :=
  inferInstanceAs (Decidable (_ ∧ _))

variable {path : List Nat} {target : Nat}

theorem acquire_target (h : target ∉ path) : acquire path.reverse target=.ok () :=
  acquire_ok fun hm => h (List.mem_reverse.mp hm)

theorem acquire_target_deadlock (h : target ∈ path) :
    acquire path.reverse target=.error .deadlock :=
  acquire_deadlock (List.mem_reverse.mpr h)

theorem getSlice_ok (h0 : stepValue step≠0) (hi : InI64 (stepValue step)) (items : List α)
    (hfree : Apart path target) (h : Exact items.length lower upper (stepValue step)) :
    getSlice path target items lower upper step=
      .ok (pick items (positions items.length (boundValue lower) (boundValue upper)
        (stepValue step))) := by
  unfold getSlice
  rw [navigate_ok hfree.1,resolveStep_ok h0 hi,lengthI64_ok h.2.2.1]
  simp only [bind,Except.bind,acquire_target hfree.2]
  by_cases h1 : stepValue step=1
  · have hspan := span_bounds items.length (boundValue lower) (boundValue upper)
    rw [if_pos h1,contiguous_ok items.length h.1 h.2.1,h1,positions_one,pick_range' _ _ _ (by omega)]
    simp only [List.drop_take]
  · rw [if_neg h1,extendedIndices_ok h0 hi h]
    exact mapM_element _ _ fun p hp => lt_of_mem_positions h0 hp

theorem getSlice_deadlock (h0 : stepValue step≠0) (hi : InI64 (stepValue step)) (items : List α)
    (h : ¬Apart path target) : getSlice path target items lower upper step=.error .deadlock := by
  unfold getSlice
  by_cases hpath : path.Nodup
  · have hm : target ∈ path := by
      by_contra hm
      exact h ⟨hpath,hm⟩
    rw [navigate_ok hpath,resolveStep_ok h0 hi]
    simp only [bind,Except.bind,acquire_target_deadlock hm]
  · rw [navigate_deadlock hpath]
    rfl

theorem getSlice_error (h0 : stepValue step≠0) (hi : InI64 (stepValue step)) (items : List α)
    (hfree : Apart path target) (h : ¬Exact items.length lower upper (stepValue step)) :
    ∃ e,getSlice path target items lower upper step=.error e := by
  unfold getSlice
  rw [navigate_ok hfree.1,resolveStep_ok h0 hi]
  simp only [bind,Except.bind,acquire_target hfree.2]
  by_cases hlen : (items.length : Int) ≤ i64Max
  · rw [lengthI64_ok hlen]
    simp only [bind,Except.bind]
    by_cases h1 : stepValue step=1
    · rw [h1,exact_one hlen] at h
      rw [if_pos h1,contiguous_error items.length h]
      exact ⟨_,rfl⟩
    · obtain ⟨e,he,-⟩ := extendedIndices_error h0 hlen h
      exact ⟨e,by rw [if_neg h1,he]⟩
  · rw [lengthI64_error hlen]
    exact ⟨_,rfl⟩

end Contiguous

section Assigning

variable {α : Type}

/-- The contents once the `k`-th position holds the `k`-th new element. -/
def assignAt (items : List α) (ps : List Nat) (new : List α) : List α :=
  items.mapIdx fun i x => ((ps.zip new).lookup i).getD x

/-- What Python's slice assignment makes of the contents, if it does not refuse it. -/
def assigned (items new : List α) (start stop : Option Int) (step : Int) : Option (List α) :=
  if step=1 then
    let (lo,hi) := span items.length start stop
    some (items.take lo++new++items.drop hi)
  else
    let ps := positions items.length start stop step
    if ps.length=new.length then some (assignAt items ps new) else none

/-- The outcome of an assignment agrees with Python's: a refusal is a ValueError that changes
nothing. -/
def Assigns (items : List α) (out : Except Failure Unit×List α) : Option (List α) → Prop
  | some items' => out=(.ok (),items')
  | none => ∃ m,out=(.error (.valueError m),items)

theorem assignAt_of_zip_nil {ps : List Nat} {new : List α} (h : ps.zip new=[]) (items : List α) :
    assignAt items ps new=items := by
  unfold assignAt
  rw [h]
  apply List.ext_getElem?
  intro i
  rw [List.getElem?_mapIdx]
  simp

theorem assignAt_cons {p : Nat} {ps : List Nat} (hp : p ∉ ps) (v : α) (new items : List α) :
    assignAt items (p::ps) (v::new)=assignAt (items.set p v) ps new := by
  unfold assignAt
  apply List.ext_getElem?
  intro i
  rw [List.getElem?_mapIdx,List.getElem?_mapIdx,List.getElem?_set,List.zip_cons_cons,
    List.lookup_cons]
  by_cases hi : i=p
  · subst hi
    have hnone : (ps.zip new).lookup i=none := by
      rw [List.lookup_eq_none_iff]
      intro q hq
      have hne : i≠q.1 := fun heq => hp (heq ▸ (List.of_mem_zip hq).1)
      simpa using hne
    rw [hnone]
    by_cases hlt : i < items.length
    · simp [hlt]
    · simp [hlt]
  · rw [if_neg (Ne.symm hi),beq_false_of_ne hi]

theorem assignAll_eq (items new : List α) (ps : List Nat) (hnd : ps.Nodup)
    (hlt : ∀ p ∈ ps,p < items.length) :
    assignAll items (ps.zip new)=.ok (assignAt items ps new) := by
  induction ps generalizing items new with
  | nil =>
    rw [assignAt_of_zip_nil rfl]
    rfl
  | cons p ps ih =>
    cases new with
    | nil =>
      rw [assignAt_of_zip_nil rfl]
      rfl
    | cons v new =>
      obtain ⟨hp,hnd⟩ := List.nodup_cons.mp hnd
      have hrest := ih (items.set p v) new hnd fun q hq => by
        rw [List.length_set]
        exact hlt q (by simp [hq])
      rw [List.zip_cons_cons,assignAll,if_pos (hlt p (by simp)),hrest,assignAt_cons hp]

variable {step : Option Bound} {lower upper : Option Bound}

theorem spliced_ok (noun : String) (h0 : stepValue step≠0) (hi : InI64 (stepValue step))
    (items new : List α) (h : Exact items.length lower upper (stepValue step)) :
    Assigns items (commit items (spliced noun (.ok ()) items lower upper step new))
      (assigned items new (boundValue lower) (boundValue upper) (stepValue step)) := by
  unfold spliced assigned
  rw [resolveStep_ok h0 hi,lengthI64_ok h.2.2.1]
  simp only [bind,Except.bind]
  by_cases h1 : stepValue step=1
  · rw [if_pos h1,if_pos h1,contiguous_ok items.length h.1 h.2.1]
    rfl
  · rw [if_neg h1,if_neg h1,extendedIndices_ok h0 hi h]
    dsimp only
    by_cases hlen : (positions items.length (boundValue lower) (boundValue upper)
        (stepValue step)).length=new.length
    · rw [if_pos hlen,if_neg (not_not_intro hlen),assignAll_eq items new _ (nodup_positions h0)
        fun p hp => lt_of_mem_positions h0 hp]
      rfl
    · rw [if_neg hlen,if_pos hlen]
      exact ⟨_,rfl⟩

theorem spliced_error (noun : String) (h0 : stepValue step≠0) (hi : InI64 (stepValue step))
    (items new : List α) (h : ¬Exact items.length lower upper (stepValue step)) :
    ∃ e,spliced noun (.ok ()) items lower upper step new=.error e ∧ ∀ m,e≠.valueError m := by
  unfold spliced
  rw [resolveStep_ok h0 hi]
  by_cases hlen : (items.length : Int) ≤ i64Max
  · rw [lengthI64_ok hlen]
    simp only [bind,Except.bind]
    by_cases h1 : stepValue step=1
    · rw [h1,exact_one hlen] at h
      rw [if_pos h1,contiguous_error items.length h]
      exact ⟨_,rfl,nofun⟩
    · obtain ⟨e,he,hne⟩ := extendedIndices_error h0 hlen h
      exact ⟨e,by rw [if_neg h1,he],hne⟩
  · rw [lengthI64_error hlen]
    exact ⟨_,rfl,nofun⟩

theorem not_assigns_error {items : List α} {e : Failure} (h : ∀ m,e≠.valueError m)
    (expected : Option (List α)) : ¬Assigns items (.error e,items) expected := by
  cases expected with
  | none =>
    rintro ⟨m,hm⟩
    exact h m (by simpa using hm)
  | some items' =>
    intro hout
    exact nomatch congrArg Prod.fst hout

theorem assigns_iff (noun : String) (h0 : stepValue step≠0) (hi : InI64 (stepValue step))
    (items new : List α) :
    Assigns items (commit items (spliced noun (.ok ()) items lower upper step new))
        (assigned items new (boundValue lower) (boundValue upper) (stepValue step)) ↔
      Exact items.length lower upper (stepValue step) := by
  refine ⟨fun hout => ?_,spliced_ok noun h0 hi items new⟩
  by_contra h
  obtain ⟨e,he,hne⟩ := spliced_error noun h0 hi items new h
  rw [he] at hout
  exact not_assigns_error hne _ hout

/-- The outcome of an assignment of a value: the error of its iteration, which changes nothing, or
Python's assignment of what it gives. -/
def Replaces (items : List α) (out : Except Failure Unit×List α) (value : Operand α)
    (start stop : Option Int) (step : Int) : Prop :=
  match value.items with
  | .error e => out=(.error e,items)
  | .ok new => Assigns items out (assigned items new start stop step)

/-- The value is none of the containers on the way, and if it can be iterated the target is apart
and the bounds are exact. -/
def Replaceable (path : List Nat) (target : Nat) (len : Nat) (value : Operand α)
    (lower upper : Option Bound) (step : Int) : Prop :=
  path.Nodup ∧ (∀ address,value.address=some address → address ∉ path) ∧
    ∀ new,value.items=.ok new → target ∉ path ∧ Exact len lower upper step

theorem iterate_ok {path : List Nat} {value : Operand α}
    (h : ∀ address,value.address=some address → address ∉ path) :
    value.iterate path.reverse=value.items := by
  unfold Operand.iterate
  cases ha : value.address with
  | none => rfl
  | some address =>
    simp only [acquire_target (h address ha)]
    rfl

theorem iterate_deadlock {path : List Nat} {value : Operand α} {address : Nat}
    (ha : value.address=some address) (h : address ∈ path) :
    value.iterate path.reverse=.error .deadlock := by
  unfold Operand.iterate
  rw [ha]
  simp only [acquire_target_deadlock h]
  rfl

theorem deadlock_ne (m : String) : Failure.deadlock≠.valueError m := by
  intro h
  cases h

theorem not_replaces_deadlock {items : List α} {value : Operand α} {start stop : Option Int}
    {s : Int} : ¬Replaces items (.error .deadlock,items) value start stop s := by
  unfold Replaces
  cases hv : value.items with
  | error e =>
    intro h
    have he : Except.error Failure.deadlock=Except.error e := (Prod.ext_iff.mp h).1
    have hd : Failure.deadlock=e := Except.error.inj he
    exact value.returns (hd ▸ hv)
  | ok new => exact not_assigns_error deadlock_ne _

/-- An assignment to a slice agrees with Python's exactly when it asks for no lock twice and its
bounds are exact. -/
theorem setTarget_iff (noun : String) (h0 : stepValue step≠0) (hi : InI64 (stepValue step))
    (path : List Nat) (target : Nat) (items : List α) (value : Operand α) :
    Replaces items (setTarget noun path target items lower upper step value) value
        (boundValue lower) (boundValue upper) (stepValue step) ↔
      Replaceable path target items.length value lower upper (stepValue step) := by
  unfold setTarget Replaceable
  by_cases hpath : path.Nodup
  · rw [navigate_ok hpath]
    simp only [bind,Except.bind]
    by_cases haddress : ∀ address,value.address=some address → address ∉ path
    · rw [iterate_ok haddress,and_iff_right hpath,and_iff_right haddress]
      unfold Replaces
      cases hv : value.items with
      | error e => exact iff_of_true rfl fun _ h => nomatch h
      | ok new =>
        simp only [Except.ok.injEq,forall_eq']
        by_cases htarget : target ∈ path
        · have hlock : spliced noun (.error .deadlock) items lower upper step new=
              .error .deadlock := by
            unfold spliced
            rw [resolveStep_ok h0 hi]
            rfl
          rw [acquire_target_deadlock htarget,hlock]
          refine iff_of_false ?_ fun h => h.1 htarget
          exact not_assigns_error deadlock_ne _
        · rw [acquire_target htarget,and_iff_right htarget]
          exact assigns_iff noun h0 hi items new
    · obtain ⟨address,h⟩ := not_forall.mp haddress
      obtain ⟨ha,hm⟩ := Classical.not_imp.mp h
      rw [iterate_deadlock ha (not_not.mp hm)]
      exact iff_of_false not_replaces_deadlock fun h => haddress h.2.1
  · rw [navigate_deadlock hpath]
    exact iff_of_false not_replaces_deadlock fun h => hpath h.1

end Assigning

end InterpretThis.Sequence
