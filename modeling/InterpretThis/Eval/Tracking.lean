import InterpretThis.Eval.Reference

namespace InterpretThis.Eval

open Ast Scope

variable {V : Type}

section Views

/-- The variables as the frame below sees them once the frames above it have returned. -/
def through : List (Frame V) → (String → Option V) → String → Option V
  | [],v,n => v n
  | fr::above,v,n => through above (fun m => if m∈fr.names then fr.before m else v m) n

/-- A frame above has the name in its checkpoint. -/
def Hidden (above : List (Frame V)) (n : String) : Prop := ∃fr∈above, n∈fr.names

/-- A frame above writes the name back to the cell when it returns. -/
def Pending (above : List (Frame V)) (n : String) (id : Nat) : Prop := ∃fr∈above, fr.Writes n id

/-- A frame above will write the name back, and from there on down it is hidden. -/
inductive Blocked (n : String) (id : Nat) : List (Frame V) → Prop
  | here (fr : Frame V) (rest : List (Frame V)) (hw : fr.Writes n id) (hh : Hidden (fr::rest) n) :
      Blocked n id (fr::rest)
  | later (fr : Frame V) (rest : List (Frame V)) (h : Blocked n id rest) : Blocked n id (fr::rest)

/-- The frames above the one that owns the cells at a depth of `frame_cell_owners`. -/
inductive Level : List (Frame V) → Nat → List (Frame V) → Prop
  | here (fr : Frame V) (rest : List (Frame V)) (hf : fr.isFunction=true) : Level (fr::rest) 0 []
  | function (fr : Frame V) (rest : List (Frame V)) (k : Nat) (above : List (Frame V))
      (hf : fr.isFunction=true) (h : Level rest k above) : Level (fr::rest) (k+1) (fr::above)
  | block (fr : Frame V) (rest : List (Frame V)) (k : Nat) (above : List (Frame V))
      (hf : fr.isFunction=false) (h : Level rest k above) : Level (fr::rest) k (fr::above)

theorem through_congr (above : List (Frame V)) {v w : String → Option V} {n : String}
    (h : ¬Hidden above n → v n=w n) : through above v n=through above w n := by
  induction above generalizing v w with
  | nil => exact h (fun ⟨_,hfr,_⟩ => absurd hfr List.not_mem_nil)
  | cons fr above ih =>
    apply ih
    intro hrest
    by_cases hn : n∈fr.names
    · simp [hn]
    · simp only [hn,if_false]
      apply h
      rintro ⟨g,hg,hng⟩
      rcases List.mem_cons.mp hg with rfl | hin
      · exact hn hng
      · exact hrest ⟨g,hin,hng⟩

theorem through_clear {above : List (Frame V)} {v : String → Option V} {n : String}
    (h : ¬Hidden above n) : through above v n=v n := by
  induction above generalizing v with
  | nil => rfl
  | cons fr above ih =>
    have hfr : n∉fr.names := fun hn => h ⟨fr,List.mem_cons_self,hn⟩
    have hrest : ¬Hidden above n := fun ⟨g,hg,hn⟩ => h ⟨g,List.mem_cons_of_mem fr hg,hn⟩
    rw [through,ih hrest,if_neg hfr]

theorem level_zero_pending {frames above : List (Frame V)} (h : Level frames 0 above) {n : String}
    {id : Nat} : ¬Pending above n id := by
  generalize hk : 0=k at h
  induction h with
  | here fr rest hf => exact fun ⟨_,hfr,_⟩ => absurd hfr List.not_mem_nil
  | function fr rest k above hf h ih => omega
  | block fr rest k above hf h ih =>
    rintro ⟨g,hg,hw⟩
    rcases List.mem_cons.mp hg with rfl | hin
    · cases g with
      | block names before => exact hw
      | function f names before => exact absurd hf (by simp [Frame.isFunction])
      | module => exact hw
    · exact ih hk ⟨g,hin,hw⟩

theorem blocked_pending {n : String} {id : Nat} {above : List (Frame V)} (h : Blocked n id above) :
    Pending above n id := by
  induction h with
  | here fr rest hw hh => exact ⟨fr,List.mem_cons_self,hw⟩
  | later fr rest h ih =>
    obtain ⟨g,hg,hw⟩ := ih
    exact ⟨g,List.mem_cons_of_mem fr hg,hw⟩

end Views

section Invariant

/-- The cell shows the variable of its frame, or a running function will write it back. -/
structure Shown (σ : Scope V) (above : List (Frame V)) (n : String) (id : Nat) : Prop where
  unblocked : ¬Blocked n id above
  value : σ.cellGet id n=through above σ.vars n ∨
    (Pending above n id ∧ (through above σ.vars n).isSome=true)

/-- Each cell belongs to one frame, and the closures made in a frame refer to the cells that it
owns. -/
structure Registry (M : Machine V) : Prop where
  fresh : ∀k n id, M.scope.ownerAt k n=some id → id<M.scope.nextCell ∧ (M.scope.cells id).isSome=true
  distinct : ∀k l n m id, M.scope.ownerAt k n=some id → M.scope.ownerAt l m=some id → k=l
  captured : ∀k, ∀refs∈(M.captured[k]?).getD [], ∀n id, refs n=some id → M.scope.ownerAt k n=some id

/-- A frame owns a cell for the name; the frames above it come first. -/
def Owned (M : Machine V) (k : Nat) (above : List (Frame V)) (n : String) (id : Nat) : Prop :=
  Level M.frames k above ∧ M.scope.ownerAt k n=some id

/-- The invariant of the cells. -/
structure Tracks (M : Machine V) : Prop extends Registry M where
  shown : ∀k above n id, Owned M k above n id → Shown M.scope above n id

theorem owner_eq (σ : Scope V) (n : String) : σ.owner n=σ.ownerAt 0 n := by
  simp only [owner,ownerAt,List.head?_eq_getElem?]

theorem tracks_start : Tracks (Machine.start : Machine V) := by
  have hnone : ∀k n, (Machine.start : Machine V).scope.ownerAt k n=none := by
    intro k n
    cases k with
    | zero => rfl
    | succ k => simp [Machine.start,ownerAt,pushOwners,Scope.empty]
  refine ⟨⟨fun k n id h => ?_,fun k l n m id h => ?_,fun k refs hr => ?_⟩,fun k above n id h => ?_⟩
  · exact absurd h (by simp [hnone])
  · exact absurd h (by simp [hnone])
  · cases k with
    | zero => simp [Machine.start] at hr
    | succ k => simp [Machine.start] at hr
  · exact absurd h.2 (by simp [hnone])

theorem Registry.of_scope {M : Machine V} {τ : Scope V} (hr : Registry M)
    (ho : τ.owners=M.scope.owners) (hn : τ.nextCell=M.scope.nextCell)
    (hc : ∀id, (M.scope.cells id).isSome=true → (τ.cells id).isSome=true) :
    Registry {M with scope := τ} := by
  have howner : ∀k n, τ.ownerAt k n=M.scope.ownerAt k n := fun k n => by simp only [ownerAt,ho]
  refine ⟨fun k n id h => ?_,fun k l n m id h h' => ?_,fun k refs hin n id h => ?_⟩
  · obtain ⟨hlt,hcell⟩ := hr.fresh k n id ((howner k n).symm.trans h)
    exact ⟨hn ▸ hlt,hc id hcell⟩
  · exact hr.distinct k l n m id ((howner k n).symm.trans h) ((howner l m).symm.trans h')
  · exact (howner k n).trans (hr.captured k refs hin n id h)

theorem Shown.of_eq {σ τ : Scope V} {above : List (Frame V)} {n : String} {id : Nat}
    (h : Shown σ above n id) (hc : τ.cellGet id n=σ.cellGet id n)
    (hv : through above τ.vars n=through above σ.vars n) : Shown τ above n id := by
  refine ⟨h.unblocked,?_⟩
  rw [hc,hv]
  exact h.value

theorem Shown.of_top {σ : Scope V} {frames above : List (Frame V)} {n : String} {id : Nat}
    (hl : Level frames 0 above) (h : σ.cellGet id n=through above σ.vars n) : Shown σ above n id :=
  ⟨fun hb => level_zero_pending hl (blocked_pending hb),.inl h⟩

theorem Shown.top {σ : Scope V} {frames above : List (Frame V)} {n : String} {id : Nat}
    (h : Shown σ above n id) (hl : Level frames 0 above) :
    σ.cellGet id n=through above σ.vars n :=
  h.value.resolve_right fun hp => level_zero_pending hl hp.1

end Invariant

section Stores

/-- What every way of storing a variable does. -/
structure Stores (σ : Scope V) (x : String) (v : V) (τ : Scope V) : Prop where
  vars : ∀n, τ.vars n=if n=x then some v else σ.vars n
  cells : τ.cells=(σ.writeThrough x v).cells
  owners : τ.owners=σ.owners
  nextCell : τ.nextCell=σ.nextCell

theorem writeThrough_owners (σ : Scope V) (x : String) (v : V) :
    (σ.writeThrough x v).owners=σ.owners ∧ (σ.writeThrough x v).nextCell=σ.nextCell := by
  simp only [writeThrough]
  split <;> exact ⟨rfl,rfl⟩

theorem setVariable_stores (cfg : Config V) (σ : Scope V) (x : String) (v : V) :
    Stores σ x v (σ.setVariable cfg x v).1 := by
  obtain ⟨howners,hnext⟩ := writeThrough_owners σ x v
  exact ⟨fun n => setVariable_vars cfg σ x n v,rfl,howners,hnext⟩

theorem mirror_stores (σ : Scope V) (x : String) (v : V) : Stores σ x v (σ.mirror x v) := by
  obtain ⟨howners,hnext⟩ := writeThrough_owners σ x v
  refine ⟨fun n => ?_,rfl,howners,hnext⟩
  rw [mirror,put_vars,writeThrough_vars]

theorem writeThrough_cellGet (σ : Scope V) (x n : String) (v : V) (id : Nat) :
    (σ.writeThrough x v).cellGet id n=if σ.owner x=some id ∧ n=x then some v else σ.cellGet id n := by
  simp only [writeThrough]
  cases h : σ.owner x with
  | none => simp
  | some k =>
    simp only [cellInsert_get,Option.some.injEq]
    by_cases hk : id=k
    · simp [hk]
    · have hk' : ¬k=id := fun h => hk h.symm
      simp [hk,hk']

theorem writeThrough_cells (σ : Scope V) (x : String) (v : V) {id : Nat}
    (h : (σ.cells id).isSome=true) : ((σ.writeThrough x v).cells id).isSome=true := by
  simp only [writeThrough]
  split
  · simp only [cellInsert,Function.update_apply]
    split
    · rfl
    · exact h
  · exact h

/-- The variable belongs to the frame on top, or is hidden from every frame that owns a cell for
it, but for those that a running function writes back to. -/
def MayStore (M : Machine V) (x : String) : Prop :=
  ∀k above id, Owned M k above x id →
    (k=0 ∧ ¬Hidden above x) ∨ (k≠0 ∧ (Hidden above x ∨ Pending above x id))

/-- Storing a variable keeps the invariant, also where its own cell on top did not show it. -/
theorem store_tracks {M : Machine V} {x : String} {v : V} {τ : Scope V} (hr : Registry M)
    (hs : ∀k above n id, Owned M k above n id → ¬(k=0 ∧ n=x) → Shown M.scope above n id)
    (hm : MayStore M x) (ht : Stores M.scope x v τ) : Tracks {M with scope := τ} := by
  have howner : ∀k n, τ.ownerAt k n=M.scope.ownerAt k n := fun k n => by
    simp only [ownerAt,ht.owners]
  have hget : ∀id n, τ.cellGet id n=
      if M.scope.owner x=some id ∧ n=x then some v else M.scope.cellGet id n := by
    intro id n
    rw [← writeThrough_cellGet]
    simp only [cellGet,ht.cells]
  have hreg : Registry {M with scope := τ} := by
    apply hr.of_scope ht.owners ht.nextCell
    intro id hcell
    rw [ht.cells]
    exact writeThrough_cells _ _ _ hcell
  refine ⟨hreg,fun k above n id h => ?_⟩
  have howned : Owned M k above n id := ⟨h.1,(howner k n).symm.trans h.2⟩
  by_cases hn : n=x
  · subst hn
    rcases hm k above id howned with ⟨rfl,hclear⟩ | ⟨hk,hcase⟩
    · -- the frame on top sees the new value, and so does its cell
      apply Shown.of_top h.1
      rw [through_clear hclear]
      simp [hget,ht.vars,owner_eq,howned.2]
    · have hold := hs k above n id howned (fun h => hk h.1)
      have hother : M.scope.owner n≠some id := by
        intro hown
        rw [owner_eq] at hown
        exact hk (hr.distinct k 0 n n id howned.2 hown)
      have hcell : τ.cellGet id n=M.scope.cellGet id n := by simp [hget,hother]
      by_cases hh : Hidden above n
      · have hview : through above τ.vars n=through above M.scope.vars n :=
          through_congr above fun hclear => absurd hh hclear
        exact hold.of_eq hcell hview
      · have hp : Pending above n id := hcase.resolve_left hh
        refine ⟨hold.unblocked,.inr ⟨hp,?_⟩⟩
        rw [through_clear hh]
        simp [ht.vars]
  · have hold := hs k above n id howned (fun h => hn h.2)
    have hview : through above τ.vars n=through above M.scope.vars n :=
      through_congr above fun _ => by rw [ht.vars,if_neg hn]
    have hcell : τ.cellGet id n=M.scope.cellGet id n := by simp [hget,hn]
    exact hold.of_eq hcell hview

/-- Deleting a name that every frame with a cell for it has hidden. -/
theorem delete_tracks (cfg : Config V) {M : Machine V} {x : String} (h : Tracks M)
    (hh : ∀k above id, Owned M k above x id → Hidden above x) :
    Tracks {M with scope := M.scope.deleteVariable cfg x} := by
  have hparts : (M.scope.deleteVariable cfg x).owners=M.scope.owners ∧
      (M.scope.deleteVariable cfg x).cells=M.scope.cells ∧
      (M.scope.deleteVariable cfg x).nextCell=M.scope.nextCell := by
    simp only [deleteVariable]
    split <;> exact ⟨rfl,rfl,rfl⟩
  obtain ⟨howners,hcells,hnext⟩ := hparts
  have howner : ∀k n, (M.scope.deleteVariable cfg x).ownerAt k n=M.scope.ownerAt k n :=
    fun k n => by simp only [ownerAt,howners]
  have hget : ∀id n, (M.scope.deleteVariable cfg x).cellGet id n=M.scope.cellGet id n :=
    fun id n => by simp only [cellGet,hcells]
  have hreg : Registry {M with scope := M.scope.deleteVariable cfg x} := by
    apply h.toRegistry.of_scope howners hnext
    intro id hcell
    rw [hcells]
    exact hcell
  refine ⟨hreg,fun k above n id ho => ?_⟩
  have howned : Owned M k above n id := ⟨ho.1,(howner k n).symm.trans ho.2⟩
  have hold := h.shown k above n id howned
  have hview : through above (M.scope.deleteVariable cfg x).vars n=through above M.scope.vars n := by
    apply through_congr
    intro hclear
    rw [deleteVariable_vars]
    have hn : n≠x := by
      rintro rfl
      exact hclear (hh k above id howned)
    rw [if_neg hn]
  exact hold.of_eq (hget id n) hview

end Stores

section Captures

theorem own_ownerAt (σ : Scope V) (n m : String) (id k : Nat) :
    (σ.own n id).ownerAt k m=if k=0 ∧ m=n ∧ σ.owners≠[] then some id else σ.ownerAt k m := by
  simp only [own,ownerAt]
  cases ho : σ.owners with
  | nil => simp [ho]
  | cons o rest =>
    cases k with
    | zero =>
      by_cases hm : m=n
      · simp [hm]
      · simp [hm]
    | succ k => simp

theorem own_rest (σ : Scope V) (n : String) (id : Nat) :
    (σ.own n id).vars=σ.vars ∧ (σ.own n id).cells=σ.cells ∧ (σ.own n id).nextCell=σ.nextCell := by
  simp only [own]
  split <;> exact ⟨rfl,rfl,rfl⟩

theorem addCell_vars (σ : Scope V) (n : String) (v : V) : (σ.addCell n v).vars=σ.vars := by
  have hrest := (own_rest (σ.cellInsert σ.nextCell n v) n σ.nextCell).1
  exact hrest

theorem addCell_ownerAt (σ : Scope V) (n m : String) (v : V) (k : Nat) :
    (σ.addCell n v).ownerAt k m=
      if k=0 ∧ m=n ∧ σ.owners≠[] then some σ.nextCell else σ.ownerAt k m :=
  own_ownerAt (σ.cellInsert σ.nextCell n v) n m σ.nextCell k

theorem addCell_cells (σ : Scope V) (n : String) (v : V) :
    (σ.addCell n v).cells=(σ.cellInsert σ.nextCell n v).cells :=
  (own_rest (σ.cellInsert σ.nextCell n v) n σ.nextCell).2.1

theorem addCell_cellGet (σ : Scope V) (n m : String) (v : V) (id : Nat) :
    (σ.addCell n v).cellGet id m=
      if id=σ.nextCell ∧ m=n then some v else σ.cellGet id m := by
  rw [← cellInsert_get]
  simp only [cellGet,addCell_cells]

variable {M : Machine V}

theorem addCell_owned {n m : String} {v : V} {k id : Nat} {above : List (Frame V)} (hr : Registry M)
    (h : Owned {M with scope := M.scope.addCell n v} k above m id) :
    (k=0 ∧ m=n ∧ id=M.scope.nextCell) ∨ (Owned M k above m id ∧ id<M.scope.nextCell) := by
  obtain ⟨hl,ho⟩ := h
  simp only [addCell_ownerAt] at ho
  split at ho
  · next hnew => exact .inl ⟨hnew.1,hnew.2.1,(Option.some.inj ho).symm⟩
  · exact .inr ⟨⟨hl,ho⟩,(hr.fresh k m id ho).1⟩

theorem addCell_registry {n : String} {v : V} (hr : Registry M) (hn : M.scope.owner n=none) :
    Registry {M with scope := M.scope.addCell n v} := by
  have hcases : ∀k m id, (M.scope.addCell n v).ownerAt k m=some id →
      (k=0 ∧ id=M.scope.nextCell) ∨ (M.scope.ownerAt k m=some id ∧ id<M.scope.nextCell) := by
    intro k m id h
    rw [addCell_ownerAt] at h
    split at h
    · next hnew => exact .inl ⟨hnew.1,(Option.some.inj h).symm⟩
    · exact .inr ⟨h,(hr.fresh k m id h).1⟩
  have hcell : ∀id, id=M.scope.nextCell ∨ (M.scope.cells id).isSome=true →
      ((M.scope.addCell n v).cells id).isSome=true := by
    intro id h
    rw [addCell_cells]
    simp only [cellInsert,Function.update_apply]
    split
    · rfl
    · next hne => exact h.resolve_left hne
  refine ⟨fun k m id h => ?_,fun k l m m' id h h' => ?_,fun k refs hin m id h => ?_⟩
  · rcases hcases k m id h with ⟨-,rfl⟩ | ⟨hold,hlt⟩
    · exact ⟨Nat.lt_succ_self _,hcell _ (.inl rfl)⟩
    · exact ⟨Nat.lt_succ_of_lt hlt,hcell id (.inr (hr.fresh k m id hold).2)⟩
  · rcases hcases k m id h with ⟨hk,heq⟩ | ⟨hold,hlt⟩
    · rcases hcases l m' id h' with ⟨hl,-⟩ | ⟨-,hlt⟩
      · rw [hk,hl]
      · omega
    · rcases hcases l m' id h' with ⟨-,heq⟩ | ⟨hold',-⟩
      · omega
      · exact hr.distinct k l m m' id hold hold'
  · have hold := hr.captured k refs hin m id h
    simp only [addCell_ownerAt]
    rw [if_neg ?_,hold]
    rintro ⟨rfl,rfl,-⟩
    rw [owner_eq,hold] at hn
    exact absurd hn (by simp)

theorem addCell_shown {n : String} {v : V} (h : Tracks M) :
    ∀k above m id, Owned {M with scope := M.scope.addCell n v} k above m id → ¬(k=0 ∧ m=n) →
      Shown (M.scope.addCell n v) above m id := by
  intro k above m id ho hne
  rcases addCell_owned h.toRegistry ho with ⟨hk,hm,-⟩ | ⟨hold,hlt⟩
  · exact absurd ⟨hk,hm⟩ hne
  · apply (h.shown k above m id hold).of_eq
    · rw [addCell_cellGet,if_neg]
      rintro ⟨rfl,-⟩
      exact Nat.lt_irrefl _ hlt
    · rw [addCell_vars]

/-- The variable is not hidden from the frame on top, by a lambda or comprehension that runs
in it. -/
def TopSees (M : Machine V) (n : String) : Prop := ∀above, Level M.frames 0 above → ¬Hidden above n

theorem ensureCaptureCell_tracks {n : String} (h : Tracks M)
    (hs : M.scope.vars n≠none → M.scope.owner n=none → TopSees M n) :
    Tracks {M with scope := M.scope.ensureCaptureCell n} := by
  simp only [ensureCaptureCell]
  split
  · next v howners hv hn =>
    refine ⟨addCell_registry h.toRegistry hn,fun k above m id ho => ?_⟩
    by_cases hnew : k=0 ∧ m=n
    · obtain ⟨rfl,rfl⟩ := hnew
      have hid : id=M.scope.nextCell := by
        rcases addCell_owned h.toRegistry ho with ⟨-,-,hid⟩ | ⟨hold,-⟩
        · exact hid
        · rw [owner_eq,hold.2] at hn
          exact absurd hn (by simp)
      apply Shown.of_top ho.1
      have hclear := hs (by simp [hv]) hn above ho.1
      rw [through_clear hclear]
      simp [addCell_cellGet,hid,addCell_vars,hv]
    · exact addCell_shown h k above m id ho hnew
  · exact h

theorem ensureCaptureCell_keeps (σ : Scope V) (n m : String) :
    (σ.ensureCaptureCell n).vars=σ.vars ∧
    ((σ.ensureCaptureCell n).owner m=none → σ.owner m=none) := by
  simp only [ensureCaptureCell]
  split
  · next v howners hv hn =>
    refine ⟨addCell_vars σ n v,fun h => ?_⟩
    rw [owner_eq,addCell_ownerAt] at h
    rw [owner_eq]
    split at h
    · exact absurd h (by simp)
    · exact h
  · exact ⟨rfl,id⟩

theorem ensureCaptureCells_tracks (free : List String) (h : Tracks M)
    (hs : ∀n∈free, M.scope.vars n≠none → M.scope.owner n=none → TopSees M n) :
    Tracks {M with scope := M.scope.ensureCaptureCells free} := by
  induction free generalizing M with
  | nil => exact h
  | cons n free ih =>
    have hone := ensureCaptureCell_tracks h (hs n List.mem_cons_self)
    apply ih hone
    intro m hm hv hn above hl
    obtain ⟨hvars,howner⟩ := ensureCaptureCell_keeps M.scope n m
    have hvars' : M.scope.vars m≠none := by rw [← hvars]; exact hv
    exact hs m (List.mem_cons_of_mem n hm) hvars' (howner hn) above hl

theorem ownEach_ownerAt (names : List String) (σ : Scope V) (m : String) (id k : Nat) :
    (names.foldl (fun τ n => τ.own n id) σ).ownerAt k m=
      if k=0 ∧ m∈names ∧ σ.owners≠[] then some id else σ.ownerAt k m := by
  induction names generalizing σ with
  | nil => simp
  | cons n names ih =>
    have howners : (σ.own n id).owners≠[] ↔ σ.owners≠[] := by
      simp only [own]
      split
      · next o rest ho => simp [ho]
      · next ho => simp [ho]
    rw [List.foldl_cons,ih,own_ownerAt]
    simp only [howners,List.mem_cons]
    by_cases hk : k=0
    · by_cases ho : σ.owners=[]
      · simp [ho]
      · by_cases hm : m∈names
        · simp [hk,ho,hm]
        · simp [hk,ho,hm]
    · simp [hk]

theorem ownEach_rest (names : List String) (σ : Scope V) (id : Nat) :
    (names.foldl (fun τ n => τ.own n id) σ).vars=σ.vars ∧
    (names.foldl (fun τ n => τ.own n id) σ).cells=σ.cells := by
  induction names generalizing σ with
  | nil => exact ⟨rfl,rfl⟩
  | cons n names ih =>
    obtain ⟨hvars,hcells,-⟩ := own_rest σ n id
    obtain ⟨ihv,ihc⟩ := ih (σ.own n id)
    exact ⟨ihv.trans hvars,ihc.trans hcells⟩

theorem seedCell_cellGet (σ : Scope V) (id k : Nat) (names : List String) (m : String) :
    (σ.seedCell id names).cellGet k m=
      if k=id ∧ m∈names ∧ σ.cellGet id m=none then σ.vars m else σ.cellGet k m := by
  by_cases hk : k=id
  · subst hk
    have hget : Cell.get ((σ.cells k).getD []) m=σ.cellGet k m := by
      simp only [cellGet]
      cases σ.cells k with
      | none => rfl
      | some c => rfl
    have hall := insertAll_get (fun n => if (σ.cellGet k n).isSome then none else σ.vars n) names
      ((σ.cells k).getD []) m
    have hseed : (σ.seedCell k names).cellGet k m=Cell.get (Cell.insertAll
        (fun n => if (σ.cellGet k n).isSome then none else σ.vars n) names ((σ.cells k).getD [])) m := by
      simp only [cellGet,seedCell,Function.update_self,Option.bind_some]
    rw [hseed,hall,hget]
    by_cases hm : m∈names
    · cases hc : σ.cellGet k m with
      | none =>
        cases hv : σ.vars m with
        | none => simp
        | some v => simp [hm]
      | some w => simp
    · simp [hm]
  · simp [cellGet,seedCell,hk]

variable {names : List String}

/-- What `resolve_closure_cells` leaves behind. -/
theorem resolve_scope (σ : Scope V) (hne : names≠[]) :
    (σ.resolveClosureCells names).vars=σ.vars ∧
    (∀k m, (σ.resolveClosureCells names).ownerAt k m=
      if k=0 ∧ m∈names ∧ σ.owners≠[] then some (σ.nonlocalCell names) else σ.ownerAt k m) ∧
    (∀k m, (σ.resolveClosureCells names).cellGet k m=
      if k=σ.nonlocalCell names ∧ m∈names ∧ σ.cellGet (σ.nonlocalCell names) m=none then σ.vars m
      else σ.cellGet k m) ∧
    (∀k, k=σ.nonlocalCell names ∨ (σ.cells k).isSome=true →
      ((σ.resolveClosureCells names).cells k).isSome=true) := by
  have hempty : names.isEmpty=false := by simpa using hne
  obtain ⟨hvars,hcells⟩ := ownEach_rest names (σ.seedCell (σ.nonlocalCell names) names)
    (σ.nonlocalCell names)
  have howner := ownEach_ownerAt names (σ.seedCell (σ.nonlocalCell names) names)
  simp only [resolveClosureCells,hempty,Bool.false_eq_true,if_false]
  refine ⟨hvars,fun k m => ?_,fun k m => ?_,fun k hk => ?_⟩
  · exact howner m (σ.nonlocalCell names) k
  · rw [← seedCell_cellGet]
    simp only [cellGet,hcells]
  · rw [hcells]
    simp only [seedCell,Function.update_apply]
    split
    · rfl
    · next hne => exact hk.resolve_left hne

theorem nonlocalCell_cases (hr : Registry M) (hne : names≠[]) :
    (∃n∈names, M.scope.ownerAt 0 n=some (M.scope.nonlocalCell names)) ∧
      (M.scope.resolveClosureCells names).nextCell=M.scope.nextCell ∨
    M.scope.nonlocalCell names=M.scope.nextCell ∧
      (M.scope.resolveClosureCells names).nextCell=M.scope.nextCell+1 := by
  have hempty : names.isEmpty=false := by simpa using hne
  simp only [resolveClosureCells,hempty,Bool.false_eq_true,if_false,nonlocalCell]
  cases h : names.findSome? M.scope.owner with
  | none => exact .inr ⟨rfl,rfl⟩
  | some id =>
    obtain ⟨n,hn,ho⟩ := List.exists_of_findSome?_eq_some h
    rw [owner_eq] at ho
    exact .inl ⟨⟨n,hn,ho⟩,rfl⟩

/-- No name of the def is moved to another cell than the one it has. -/
def MayResolve (M : Machine V) (names : List String) : Prop :=
  ∀n∈names, TopSees M n ∧ (M.scope.owner n=some (M.scope.nonlocalCell names) ∨
    (M.scope.owner n=none ∧ M.scope.cellGet (M.scope.nonlocalCell names) n=none))

theorem resolve_registry (hne : names≠[]) (hr : Registry M) (hm : MayResolve M names) :
    Registry {M with scope := M.scope.resolveClosureCells names} := by
  obtain ⟨-,howner,-,hcell⟩ := resolve_scope M.scope hne
  have hcases : ∀k m id, (M.scope.resolveClosureCells names).ownerAt k m=some id →
      (k=0 ∧ id=M.scope.nonlocalCell names) ∨ M.scope.ownerAt k m=some id := by
    intro k m id h
    rw [howner] at h
    split at h
    · next hnew => exact .inl ⟨hnew.1,(Option.some.inj h).symm⟩
    · exact .inr h
  -- an old owner of the cell is the frame on top
  have htop : ∀k m, M.scope.ownerAt k m=some (M.scope.nonlocalCell names) → k=0 := by
    intro k m h
    rcases nonlocalCell_cases hr hne with ⟨⟨n,-,hn⟩,-⟩ | ⟨hid,-⟩
    · exact hr.distinct k 0 m n _ h hn
    · have hlt := (hr.fresh k m _ h).1
      omega
  have hnext : M.scope.nonlocalCell names<(M.scope.resolveClosureCells names).nextCell ∧
      M.scope.nextCell≤ (M.scope.resolveClosureCells names).nextCell := by
    rcases nonlocalCell_cases hr hne with ⟨⟨n,-,hn⟩,heq⟩ | ⟨hid,heq⟩
    · have hlt := (hr.fresh 0 n _ hn).1
      omega
    · omega
  refine ⟨fun k m id h => ?_,fun k l m m' id h h' => ?_,fun k refs hin m id h => ?_⟩
  · rcases hcases k m id h with ⟨-,rfl⟩ | hold
    · exact ⟨hnext.1,hcell _ (.inl rfl)⟩
    · obtain ⟨hlt,hsome⟩ := hr.fresh k m id hold
      exact ⟨Nat.lt_of_lt_of_le hlt hnext.2,hcell id (.inr hsome)⟩
  · rcases hcases k m id h with ⟨hk,heq⟩ | hold
    · rcases hcases l m' id h' with ⟨hl,-⟩ | hold'
      · rw [hk,hl]
      · rw [hk,htop l m' (heq ▸ hold')]
    · rcases hcases l m' id h' with ⟨hl,heq⟩ | hold'
      · rw [hl,htop k m (heq ▸ hold)]
      · exact hr.distinct k l m m' id hold hold'
  · have hold := hr.captured k refs hin m id h
    simp only [howner]
    split
    · next hnew =>
      obtain ⟨rfl,hmem,-⟩ := hnew
      rcases (hm m hmem).2 with hown | ⟨hown,-⟩
      · rw [← hown,owner_eq,hold]
      · rw [owner_eq,hold] at hown
        exact absurd hown (by simp)
    · exact hold

theorem resolve_tracks (h : Tracks M) (hm : MayResolve M names) :
    Tracks {M with scope := M.scope.resolveClosureCells names} := by
  by_cases hne : names=[]
  · subst hne
    exact h
  obtain ⟨hvars,howner,hget,-⟩ := resolve_scope M.scope hne
  refine ⟨resolve_registry hne h.toRegistry hm,fun k above m id ho => ?_⟩
  have hlevel : Level M.frames k above := ho.1
  have hown := ho.2
  simp only [howner] at hown
  split at hown
  · next hnew =>
    obtain ⟨rfl,hmem,-⟩ := hnew
    obtain rfl := Option.some.inj hown
    obtain ⟨hsees,hcase⟩ := hm m hmem
    have hclear := hsees above hlevel
    apply Shown.of_top hlevel
    rw [hvars,through_clear hclear,hget]
    rcases hcase with hown | ⟨-,hnone⟩
    · have hshown := (h.shown 0 above m _ ⟨hlevel,by rw [← owner_eq]; exact hown⟩).top hlevel
      rw [through_clear hclear] at hshown
      split
      · rfl
      · exact hshown
    · rw [if_pos ⟨rfl,hmem,hnone⟩]
  · next hnew =>
    have hold := h.shown k above m id ⟨hlevel,hown⟩
    apply hold.of_eq
    · rw [hget,if_neg]
      rintro ⟨rfl,hmem,-⟩
      -- the cell is new, or belongs to the frame on top
      rcases nonlocalCell_cases h.toRegistry hne with ⟨⟨n,-,hn⟩,-⟩ | ⟨hid,-⟩
      · have hk := h.distinct k 0 m n _ hown hn
        have howners : M.scope.owners≠[] := by
          intro hnil
          simp [ownerAt,hnil] at hn
        exact hnew ⟨hk,hmem,howners⟩
      · have hlt := (h.fresh k m _ hown).1
        omega
    · rw [hvars]

/-- Binding the name of a nested function that refers to itself. -/
def MayDefine (M : Machine V) (n : String) (selfRecursive : Bool) : Prop :=
  MayStore M n ∧ (selfRecursive=true → M.scope.owner n=none → TopSees M n)

theorem selfCell_tracks (cfg : Config V) (none : V) {n : String} {v : V} (h : Tracks M)
    (hm : MayDefine M n true) :
    Tracks {M with scope := ((M.scope.selfCell none n).setVariable cfg n v).1} := by
  cases hown : M.scope.owner n with
  | none =>
    have hself : M.scope.selfCell none n=M.scope.addCell n none := by simp only [selfCell,hown]
    rw [hself]
    have hreg : Registry {M with scope := M.scope.addCell n none} :=
      addCell_registry h.toRegistry hown
    apply store_tracks hreg (addCell_shown h) ?_ (setVariable_stores cfg _ n v)
    intro k above id ho
    rcases addCell_owned h.toRegistry ho with ⟨rfl,-,-⟩ | ⟨hold,-⟩
    · exact .inl ⟨rfl,hm.2 rfl hown above ho.1⟩
    · exact hm.1 k above id hold
  | some id =>
    have hself : M.scope.selfCell none n=
        if (M.scope.cellGet id n).isSome then M.scope else M.scope.cellInsert id n none := by
      simp only [selfCell,hown]
    have hget : ∀k m, ¬(k=id ∧ m=n) → (M.scope.selfCell none n).cellGet k m=M.scope.cellGet k m := by
      intro k m hne
      rw [hself]
      split
      · rfl
      · rw [cellInsert_get,if_neg hne]
    have hrest : (M.scope.selfCell none n).owners=M.scope.owners ∧
        (M.scope.selfCell none n).nextCell=M.scope.nextCell ∧
        (M.scope.selfCell none n).vars=M.scope.vars := by
      rw [hself]
      split <;> exact ⟨rfl,rfl,rfl⟩
    have hcells : ∀k, (M.scope.cells k).isSome=true →
        ((M.scope.selfCell none n).cells k).isSome=true := by
      intro k hk
      rw [hself]
      split
      · exact hk
      · simp only [cellInsert,Function.update_apply]
        split
        · rfl
        · exact hk
    have howner : ∀k m, (M.scope.selfCell none n).ownerAt k m=M.scope.ownerAt k m :=
      fun k m => by simp only [ownerAt,hrest.1]
    have hreg : Registry {M with scope := M.scope.selfCell none n} :=
      h.toRegistry.of_scope hrest.1 hrest.2.1 hcells
    apply store_tracks hreg ?_ ?_ (setVariable_stores cfg _ n v)
    · intro k above m id' ho hne
      have hold : Owned M k above m id' := ⟨ho.1,(howner k m).symm.trans ho.2⟩
      apply (h.shown k above m id' hold).of_eq
      · apply hget
        rintro ⟨rfl,rfl⟩
        rw [owner_eq] at hown
        exact hne ⟨h.distinct k 0 m m id' hold.2 hown,rfl⟩
      · simp only [hrest.2.2]
    · intro k above id' ho
      exact hm.1 k above id' ⟨ho.1,(howner k n).symm.trans ho.2⟩

end Captures

section Frames

variable {M : Machine V}

theorem pushOwners_ownerAt {σ τ : Scope V} (h : τ.owners=(fun _ => none)::σ.owners) (k : Nat)
    (n : String) : τ.ownerAt 0 n=none ∧ τ.ownerAt (k+1) n=σ.ownerAt k n := by
  simp [ownerAt,h]

variable {names : List String}

/-- A frame with cells of its own is entered. -/
theorem push_tracks {τ : Scope V} {f : FunctionScope V} (h : Tracks M) (hc : τ.cells=M.scope.cells)
    (hn : τ.nextCell=M.scope.nextCell) (ho : τ.owners=(fun _ => none)::M.scope.owners)
    (hv : ∀k above n id, Owned M k above n id → ¬Hidden above n → n∉names →
      τ.vars n=M.scope.vars n)
    (hw : ∀k above n id, Owned M k above n id → f.cellId=some id → n∈f.nonlocalNames →
      n∉names ∧ ¬Hidden above n) :
    Tracks ⟨τ,.function f names M.scope::M.frames,[]::M.captured⟩ := by
  have howner : ∀k n id, τ.ownerAt k n=some id → ∃l, k=l+1 ∧ M.scope.ownerAt l n=some id := by
    intro k n id hk
    cases k with
    | zero =>
      rw [(pushOwners_ownerAt ho 0 n).1] at hk
      exact absurd hk (by simp)
    | succ l => exact ⟨l,rfl,(pushOwners_ownerAt ho l n).2 ▸ hk⟩
  refine ⟨⟨fun k n id hk => ?_,fun k l n m id hk hl => ?_,fun k refs hin n id hr => ?_⟩,
    fun k above n id hown => ?_⟩
  · obtain ⟨l,-,hl⟩ := howner k n id hk
    simp only [hc,hn]
    exact h.fresh l n id hl
  · obtain ⟨k',rfl,hk'⟩ := howner k n id hk
    obtain ⟨l',rfl,hl'⟩ := howner l m id hl
    rw [h.distinct k' l' n m id hk' hl']
  · cases k with
    | zero => simp at hin
    | succ k =>
      have hold := h.captured k refs (by simpa using hin) n id hr
      exact (pushOwners_ownerAt ho k n).2.trans hold
  · obtain ⟨hl,hk⟩ := hown
    obtain ⟨l,rfl,hold⟩ := howner k n id hk
    cases hl with
    | block _ _ _ above hf hl => exact absurd hf (by simp [Frame.isFunction])
    | function _ _ _ above hf hl =>
      have howned : Owned M l above n id := ⟨hl,hold⟩
      have hshown := h.shown l above n id howned
      have hview : through (.function f names M.scope::above) τ.vars n=
          through above M.scope.vars n := by
        rw [through]
        apply through_congr
        intro hclear
        by_cases hin : n∈names
        · simp [Frame.names,Frame.before,hin]
        · simp [Frame.names,hin,hv l above n id howned hclear hin]
      have hcell : τ.cellGet id n=M.scope.cellGet id n := by simp only [cellGet,hc]
      refine ⟨fun hb => ?_,?_⟩
      · cases hb with
        | here _ _ hwrites hh =>
          obtain ⟨hnames,hclear⟩ := hw l above n id howned hwrites.1 hwrites.2
          obtain ⟨g,hg,hng⟩ := hh
          rcases List.mem_cons.mp hg with rfl | hin
          · exact hnames hng
          · exact hclear ⟨g,hin,hng⟩
        | later _ _ hb => exact hshown.unblocked hb
      · simp only [hview,hcell]
        rcases hshown.value with heq | ⟨⟨g,hg,hwrites⟩,hsome⟩
        · exact .inl heq
        · exact .inr ⟨⟨g,List.mem_cons_of_mem _ hg,hwrites⟩,hsome⟩

/-- A block without cells of its own is entered. -/
theorem push_block_tracks {τ : Scope V} (h : Tracks M)
    (hg : ∀id n, τ.cellGet id n=M.scope.cellGet id n)
    (hc : ∀id, (M.scope.cells id).isSome=true → (τ.cells id).isSome=true)
    (hn : τ.nextCell=M.scope.nextCell) (ho : τ.owners=M.scope.owners)
    (hv : ∀k above n id, Owned M k above n id → ¬Hidden above n → n∉names →
      τ.vars n=M.scope.vars n) :
    Tracks ⟨τ,.block names M.scope::M.frames,M.captured⟩ := by
  have howner : ∀k n, τ.ownerAt k n=M.scope.ownerAt k n := fun k n => by simp only [ownerAt,ho]
  have hreg := h.toRegistry.of_scope ho hn hc
  refine ⟨⟨hreg.fresh,hreg.distinct,hreg.captured⟩,fun k above n id hown => ?_⟩
  obtain ⟨hl,hk⟩ := hown
  cases hl with
  | here _ _ hf => exact absurd hf (by simp [Frame.isFunction])
  | function _ _ _ above hf hl => exact absurd hf (by simp [Frame.isFunction])
  | block _ _ _ above hf hl =>
    have howned : Owned M k above n id := ⟨hl,(howner k n).symm.trans hk⟩
    have hshown := h.shown k above n id howned
    have hview : through (.block names M.scope::above) τ.vars n=through above M.scope.vars n := by
      rw [through]
      apply through_congr
      intro hclear
      by_cases hin : n∈names
      · simp [Frame.names,Frame.before,hin]
      · simp [Frame.names,hin,hv k above n id howned hclear hin]
    refine ⟨fun hb => ?_,?_⟩
    · cases hb with
      | here _ _ hwrites hh => exact hwrites
      | later _ _ hb => exact hshown.unblocked hb
    · simp only [hview,hg]
      rcases hshown.value with heq | ⟨⟨g,hgin,hwrites⟩,hsome⟩
      · exact .inl heq
      · exact .inr ⟨⟨g,List.mem_cons_of_mem _ hgin,hwrites⟩,hsome⟩

/-- The write-back of a function that returns brings the cells it owes up to date. -/
theorem leave_function_tracks {f : FunctionScope V} {before : Scope V} {rest : List (Frame V)}
    (h : Tracks M) (hfr : M.frames=.function f names before::rest) :
    Tracks ⟨(restore names before (writebackNonlocalCell f M.scope)).popOwners,rest,M.captured.tail⟩ := by
  obtain ⟨hcells,howners,hnext⟩ := restore_rest names before (writebackNonlocalCell f M.scope)
  obtain ⟨hbowners,hbnext⟩ := writeback_rest f M.scope
  have howner : ∀k n, (restore names before (writebackNonlocalCell f M.scope)).popOwners.ownerAt k n=
      M.scope.ownerAt (k+1) n := by
    intro k n
    simp only [ownerAt,popOwners,howners,hbowners,List.getElem?_tail]
  have hget : ∀id n, (restore names before (writebackNonlocalCell f M.scope)).popOwners.cellGet id n=
      (writebackNonlocalCell f M.scope).cellGet id n := by
    intro id n
    simp only [cellGet,popOwners,hcells]
  have hvars : (restore names before (writebackNonlocalCell f M.scope)).popOwners.vars=
      fun m => if m∈names then before.vars m else M.scope.vars m := by
    funext m
    have hrestore := restore_vars names before (writebackNonlocalCell f M.scope) m
    rw [writeback_vars] at hrestore
    exact hrestore
  refine ⟨⟨fun k n id hk => ?_,fun k l n m id hk hl => ?_,fun k refs hin n id hr => ?_⟩,
    fun k above n id hown => ?_⟩
  · obtain ⟨hlt,hsome⟩ := h.fresh (k+1) n id ((howner k n).symm.trans hk)
    refine ⟨?_,?_⟩
    · simp only [popOwners,hnext,hbnext]
      exact hlt
    · simp only [popOwners,hcells,writeback_cells]
      exact hsome
  · have heq := h.distinct (k+1) (l+1) n m id ((howner k n).symm.trans hk) ((howner l m).symm.trans hl)
    omega
  · have hin' : refs∈(M.captured[k+1]?).getD [] := by simpa [List.getElem?_tail] using hin
    exact (howner k n).trans (h.captured (k+1) refs hin' n id hr)
  · obtain ⟨hl,hk⟩ := hown
    have hold : M.scope.ownerAt (k+1) n=some id := (howner k n).symm.trans hk
    have hlevel : Level M.frames (k+1) (.function f names before::above) :=
      hfr ▸ .function _ _ k above rfl hl
    have hshown := h.shown (k+1) _ n id ⟨hlevel,hold⟩
    have hview : through above (restore names before (writebackNonlocalCell f M.scope)).popOwners.vars n=
        through (.function f names before::above) M.scope.vars n := by
      rw [hvars]
      rfl
    refine ⟨fun hb => hshown.unblocked (.later _ _ hb),?_⟩
    rw [hview,hget,writeback_cellGet]
    by_cases hwrites : (Frame.function f names before).Writes n id
    · have hclear : ¬Hidden (.function f names before::above) n :=
        fun hh => hshown.unblocked (.here _ _ hwrites hh)
      rw [through_clear hclear]
      have hcell := (h.fresh (k+1) n id hold).2
      have hvalue := hshown.value
      rw [through_clear hclear] at hvalue
      cases hv : M.scope.vars n with
      | some v => exact .inl (by simp [hwrites.1,hwrites.2,hcell])
      | none =>
        rw [hv] at hvalue
        have heq := hvalue.resolve_right (fun hp => absurd hp.2 (by simp))
        exact .inl (by simpa using heq)
    · rw [if_neg (fun hc => hwrites ⟨hc.1,hc.2.1⟩)]
      rcases hshown.value with heq | ⟨⟨g,hg,hgw⟩,hsome⟩
      · exact .inl heq
      · rcases List.mem_cons.mp hg with rfl | hin
        · exact absurd hgw hwrites
        · exact .inr ⟨⟨g,hin,hgw⟩,hsome⟩

theorem leave_block_tracks {before : Scope V} {rest : List (Frame V)} (h : Tracks M)
    (hfr : M.frames=.block names before::rest) :
    Tracks {M with scope := restore names before M.scope, frames := rest} := by
  obtain ⟨hcells,howners,hnext⟩ := restore_rest names before M.scope
  have howner : ∀k n, (restore names before M.scope).ownerAt k n=M.scope.ownerAt k n :=
    fun k n => by simp only [ownerAt,howners]
  have hvars : (restore names before M.scope).vars=
      fun m => if m∈names then before.vars m else M.scope.vars m :=
    funext (restore_vars names before M.scope)
  have hreg := h.toRegistry.of_scope howners hnext fun id hid => by rw [hcells]; exact hid
  refine ⟨⟨hreg.fresh,hreg.distinct,hreg.captured⟩,fun k above n id hown => ?_⟩
  obtain ⟨hl,hk⟩ := hown
  have hlevel : Level M.frames k (.block names before::above) := hfr ▸ .block _ _ k above rfl hl
  have hshown := h.shown k _ n id ⟨hlevel,(howner k n).symm.trans hk⟩
  have hview : through above (restore names before M.scope).vars n=
      through (.block names before::above) M.scope.vars n := by
    rw [hvars]
    rfl
  have hcell : (restore names before M.scope).cellGet id n=M.scope.cellGet id n := by
    simp only [cellGet,hcells]
  refine ⟨fun hb => hshown.unblocked (.later _ _ hb),?_⟩
  simp only [hview,hcell]
  rcases hshown.value with heq | ⟨⟨g,hg,hgw⟩,hsome⟩
  · exact .inl heq
  · rcases List.mem_cons.mp hg with rfl | hin
    · exact hgw.elim
    · exact .inr ⟨⟨g,hin,hgw⟩,hsome⟩

theorem leave_tracks (h : Tracks M) : Tracks M.leave := by
  simp only [Machine.leave]
  split
  · next f names before rest hfr => exact leave_function_tracks h hfr
  · next names before rest hfr => exact leave_block_tracks h hfr
  · exact h

end Frames

section Calls

variable (cfg : Config V) {M : Machine V}

/-- The entry of a frame leaves alone, outside its checkpoint, the variables that some frame
sees and has a cell for, and such a variable that the function declares `nonlocal` is not
hidden between the two frames. -/
def MayEnter (M : Machine V) (f : FunctionScope V) (locals : List (String×V)) : Prop :=
  ∀k above n id, Owned M k above n id →
    (isTrivial locals f=false → ¬Hidden above n → n∉touched cfg f M.scope →
      laid (reached cfg (entryWrites cfg locals f M.scope) M.scope) M.scope.vars n=
        M.scope.vars n) ∧
    (f.cellId=some id → n∈f.nonlocalNames → ¬Hidden above n)

/-- A lambda's entry writes through to the cells of the frame that calls it: it must store what
they hold, and leave the variables alone as above. -/
def MayEnterLambda (M : Machine V) (f : LambdaScope V) (locals : List (String×V)) : Prop :=
  (∀e∈lambdaWrites cfg locals f M.scope, ∀id, M.scope.owner e.1=some id →
    M.scope.cellGet id e.1=some e.2) ∧
  ∀k above n id, Owned M k above n id → ¬Hidden above n → n∉lambdaTouched cfg f M.scope →
    laid (reached cfg (lambdaWrites cfg locals f M.scope) M.scope) M.scope.vars n=M.scope.vars n

theorem touched_not_nonlocal (f : FunctionScope V) (σ : Scope V) {n : String}
    (hn : n∈f.nonlocalNames) : n∉touched cfg f σ := by
  intro h
  have hfilter := (List.mem_filter.mp h).2
  simp [hn] at hfilter

theorem functionEntry_rest (f : FunctionScope V) (locals : List (String×V)) (σ : Scope V) :
    (applyFunctionScope cfg locals f σ.pushOwners).1.cells=σ.cells ∧
    (applyFunctionScope cfg locals f σ.pushOwners).1.nextCell=σ.nextCell ∧
    (applyFunctionScope cfg locals f σ.pushOwners).1.owners=(fun _ => none)::σ.owners := by
  have hnone : ∀n, σ.pushOwners.owner n=none := fun n => rfl
  rw [applyFunctionScope_eq cfg locals f _ hnone]
  exact ⟨setAll_cells cfg _ _ hnone,setAll_nextCell cfg _ _,setAll_owners cfg _ _⟩

theorem enter_tracks {f : FunctionScope V} {locals : List (String×V)} (h : Tracks M)
    (hm : MayEnter cfg M f locals) : Tracks (M.enter cfg f locals) := by
  obtain ⟨hvars,-⟩ := functionEntry_eq cfg locals M.scope f
  obtain ⟨hcells,hnext,howners⟩ := functionEntry_rest cfg f locals M.scope
  simp only [Machine.enter]
  cases ht : isTrivial locals f with
  | true =>
    simp only [if_true]
    have hpush : M.scope.pushOwners.cells=M.scope.cells := rfl
    apply push_tracks h hpush rfl rfl
    · intro k above n id ho hclear hout
      rfl
    · intro k above n id ho hid hn
      exact ⟨List.not_mem_nil,(hm k above n id ho).2 hid hn⟩
  | false =>
    simp only [Bool.false_eq_true,if_false]
    split
    · apply push_tracks h hcells hnext howners
      · intro k above n id ho hclear hout
        rw [hvars]
        exact (hm k above n id ho).1 ht hclear hout
      · intro k above n id ho hid hn
        exact ⟨touched_not_nonlocal cfg f M.scope hn,(hm k above n id ho).2 hid hn⟩
    · obtain ⟨hrcells,hrowners,hrnext⟩ := restore_rest (touched cfg f M.scope) M.scope
        (applyFunctionScope cfg locals f M.scope.pushOwners).1
      have hscope : (restore (touched cfg f M.scope) M.scope
          (applyFunctionScope cfg locals f M.scope.pushOwners).1).popOwners.owners=M.scope.owners := by
        simp only [popOwners,hrowners,howners,List.tail_cons]
      have hreg := h.toRegistry.of_scope hscope (hrnext.trans hnext) fun id hid => by
        simp only [popOwners,hrcells,hcells]
        exact hid
      refine ⟨hreg,fun k above n id ho => ?_⟩
      have howned : Owned M k above n id := ⟨ho.1,by simpa only [ownerAt,hscope] using ho.2⟩
      apply (h.shown k above n id howned).of_eq
      · simp only [cellGet,popOwners,hrcells,hcells]
      · apply through_congr
        intro hclear
        have hrestore := restore_vars (touched cfg f M.scope) M.scope
          (applyFunctionScope cfg locals f M.scope.pushOwners).1 n
        refine hrestore.trans ?_
        by_cases hin : n∈touched cfg f M.scope
        · rw [if_pos hin]
        · rw [if_neg hin,hvars]
          exact (hm k above n id howned).1 ht hclear hin

theorem enterLambda_tracks {f : LambdaScope V} {locals : List (String×V)} (h : Tracks M)
    (hm : MayEnterLambda cfg M f locals) : Tracks (M.enterLambda cfg f locals) := by
  obtain ⟨hvars,-⟩ := lambdaEntry_eq cfg locals M.scope f
  have hget : ∀id n, (applyLambdaScope cfg locals f M.scope).1.cellGet id n=M.scope.cellGet id n := by
    intro id n
    rw [applyLambdaScope_eq]
    exact setAll_cellGet_same cfg _ _ hm.1 id n
  have hcells : ∀id, (M.scope.cells id).isSome=true →
      ((applyLambdaScope cfg locals f M.scope).1.cells id).isSome=true := by
    intro id hid
    rw [applyLambdaScope_eq]
    exact setAll_cells_isSome cfg _ _ hid
  have hnext : (applyLambdaScope cfg locals f M.scope).1.nextCell=M.scope.nextCell := by
    rw [applyLambdaScope_eq]
    exact setAll_nextCell cfg _ _
  have howners : (applyLambdaScope cfg locals f M.scope).1.owners=M.scope.owners := by
    rw [applyLambdaScope_eq]
    exact setAll_owners cfg _ _
  simp only [Machine.enterLambda]
  split
  · apply push_block_tracks h hget hcells hnext howners
    intro k above n id ho hclear hout
    rw [hvars]
    exact hm.2 k above n id ho hclear hout
  · obtain ⟨hrcells,hrowners,hrnext⟩ := restore_rest (lambdaTouched cfg f M.scope) M.scope
      (applyLambdaScope cfg locals f M.scope).1
    have hreg := h.toRegistry.of_scope (hrowners.trans howners) (hrnext.trans hnext)
      fun id hid => by rw [hrcells]; exact hcells id hid
    refine ⟨hreg,fun k above n id ho => ?_⟩
    have howned : Owned M k above n id :=
      ⟨ho.1,by simpa only [ownerAt,hrowners,howners] using ho.2⟩
    apply (h.shown k above n id howned).of_eq
    · rw [← hget]
      simp only [cellGet,hrcells]
    · apply through_congr
      intro hclear
      rw [restore_vars]
      by_cases hin : n∈lambdaTouched cfg f M.scope
      · rw [if_pos hin]
      · rw [if_neg hin,hvars]
        exact hm.2 k above n id howned hclear hin

end Calls

section Runs

variable (cfg : Config V) (none : V)

/-- The steps after which the cells still show the variables they stand for. -/
def Admissible (M : Machine V) : Step V → Prop
  | .assign n _ => MayStore M n
  | .mirror n _ => MayStore M n
  | .delete n => ∀k above id, Owned M k above n id → Hidden above n
  | .capture free => ∀n∈free, M.scope.vars n≠Option.none → M.scope.owner n=Option.none → TopSees M n
  | .resolve nonlocals => MayResolve M nonlocals
  | .close _ => True
  | .define n _ selfRecursive => MayDefine M n selfRecursive
  | .enter f locals => MayEnter cfg M f locals
  | .enterLambda f locals => MayEnterLambda cfg M f locals
  | .enterBlock _ => True
  | .leave => True

theorem close_tracks {M : Machine V} (names : List String) (h : Tracks M) :
    Tracks (M.step cfg none (.close names)) := by
  simp only [Machine.step]
  split
  · next top rest hcap =>
    refine ⟨⟨h.fresh,h.distinct,fun k refs hin n id hr => ?_⟩,h.shown⟩
    cases k with
    | zero =>
      rcases List.mem_cons.mp hin with rfl | hold
      · simp only at hr
        split at hr
        · exact (owner_eq M.scope n).symm.trans hr
        · exact absurd hr (by simp)
      · exact h.captured 0 refs (by simpa [hcap] using hold) n id hr
    | succ k => exact h.captured (k+1) refs (by simpa [hcap] using hin) n id hr
  · exact h

theorem step_tracks (M : Machine V) (s : Step V) (h : Tracks M) (hs : Admissible cfg M s) :
    Tracks (M.step cfg none s) := by
  cases s with
  | assign n v =>
    exact store_tracks h.toRegistry (fun k above m id ho _ => h.shown k above m id ho) hs
      (setVariable_stores cfg _ n v)
  | mirror n v =>
    exact store_tracks h.toRegistry (fun k above m id ho _ => h.shown k above m id ho) hs
      (mirror_stores _ n v)
  | delete n => exact delete_tracks cfg h hs
  | capture free => exact ensureCaptureCells_tracks free h hs
  | resolve nonlocals => exact resolve_tracks h hs
  | close names => exact close_tracks cfg none names h
  | define n v selfRecursive =>
    cases selfRecursive with
    | true => exact selfCell_tracks cfg none h hs
    | false =>
      exact store_tracks h.toRegistry (fun k above m id ho _ => h.shown k above m id ho) hs.1
        (setVariable_stores cfg _ n v)
  | enter f locals => exact enter_tracks cfg h hs
  | enterLambda f locals => exact enterLambda_tracks cfg h hs
  | enterBlock names =>
    exact push_block_tracks h (fun _ _ => rfl) (fun _ hid => hid) rfl rfl fun _ _ _ _ _ _ _ => rfl
  | leave => exact leave_tracks h

/-- `n = 1; get = lambda: n; n = 2`. -/
def assignRun : List (Step Nat) :=
  [.assign "n" 1,.capture ["n"],.close ["n"],.assign "n" 2]

theorem level_module {k : Nat} {above : List (Frame V)} (h : Level [Frame.module] k above) :
    k=0 ∧ above=[] := by
  cases h with
  | here => exact ⟨rfl,rfl⟩
  | function _ _ _ _ _ h => nomatch h
  | block _ _ _ _ hf => exact absurd hf (by simp [Frame.isFunction])

theorem module_clear {M : Machine V} (hM : M.frames=[.module]) {k : Nat} {above : List (Frame V)}
    (h : Level M.frames k above) (n : String) : k=0 ∧ ¬Hidden above n := by
  rw [hM] at h
  obtain ⟨hk,rfl⟩ := level_module h
  exact ⟨hk,fun ⟨_,hfr,_⟩ => absurd hfr List.not_mem_nil⟩

/-- `lambda n: 0`. -/
def shadowLambda : LambdaScope Nat where
  params := ["n"]
  closure := [("n",1)]
  cellRefreshes := []
  isModuleLevel := true
  body := .mk .constant .value [] []
  closureKeys := by decide
  refreshKeys := List.nodup_nil

/-- `n = 1; get = lambda: n; (lambda n: 0)(5)`. -/
def lambdaRun : List (Step Nat) :=
  [.assign "n" 1,.capture ["n"],.close ["n"],.enterLambda shadowLambda [("n",5)],.leave]

end Runs

end InterpretThis.Eval
