import InterpretThis.Ranges.Exact
import InterpretThis.Sequence.Slice

namespace InterpretThis.Ranges

open Progression
open Sequence (Bound Failure resolveBound resolveStep boundValue stepValue Small startIndex stopIndex
  positions)

section Source

variable (start stop step : Int64)

/-- `i64::checked_add`. -/
def checkedAdd (a b : Int64) : Option Int64 :=
  if InI64 (a.toInt+b.toInt) then some (a+b) else none

theorem checkedAdd_toInt {a b next : Int64} (h : checkedAdd a b=some next) :
    next.toInt=a.toInt+b.toInt := by
  rw [checkedAdd] at h
  split_ifs at h with hin
  rw [← Option.some.inj h,toInt_add,wrap_of_in hin]

/-- The items of the range path of `eval_for`, from `i` on. -/
def forItems (i : Int64) : List Int64 :=
  if 0<step ∧ i < stop ∨ step<0 ∧ stop < i then
    match h : checkedAdd i step with
    | none => [i]
    | some next => i::forItems next
  else []
termination_by count i.toInt stop.toInt step.toInt
decreasing_by
  rename_i hgo
  have hcons := count_cons ((ahead_toInt stop step i).mp hgo)
  rw [checkedAdd_toInt h]
  omega

/-- A loop of `value_to_iterable`; the fuel bounds its passes. -/
def unpackWalk (before : Int64 → Bool) : ℕ → Int64 → Option (List Int64)
  | 0,_ => none
  | fuel+1,i => if before i then (unpackWalk before fuel (i+step)).map (i::·) else some []

/-- `value_to_iterable` of a range. -/
def valueToIterable (fuel : ℕ) : Option (List Int64) :=
  match compare step 0 with
  | .gt => unpackWalk step (fun i => decide (i < stop)) fuel start
  | .lt => unpackWalk step (fun i => decide (stop < i)) fuel start
  | .eq => some []

/-- `clamp_slice_index`. -/
def clampSliceIndex (idx len : Int64) : Int64 :=
  let adjusted := if idx<0 then idx+len else idx
  min (max adjusted 0) len

/-- `clamp_slice_index_neg`. -/
def clampSliceIndexNeg (idx len : Int64) : Int64 :=
  let adjusted := if idx<0 then idx+len else idx
  min (max adjusted (-1)) (len-1)

/-- A bound of a slice; `resolve` takes the integers within `i64` only. -/
def resolve (bound : Option Bound) (default : Int64) : Except Failure Int64 :=
  (resolveBound bound default.toInt).map Int64.ofInt

/-- The range arm of `apply_value_slice`. -/
def sliceRange (lower upper stepExpr : Option Bound) : Except Failure (Int64×Int64×Int64) := do
  let raw ← resolveStep stepExpr
  let stride := Int64.ofInt raw
  if (2 : Int)^63 ≤ rangeLength start stop step then .error (.runtime "range length overflow")
  else
    let len := Int64.ofNat (rangeLength start stop step)
    if 0<stride then
      let low ← resolve lower 0
      let high ← resolve upper len
      .ok (start+clampSliceIndex low len*step,start+clampSliceIndex high len*step,step*stride)
    else
      let low ← resolve lower (len-1)
      let high ← resolve upper (-(len+1))
      .ok (start+clampSliceIndexNeg low len*step,start+clampSliceIndexNeg high len*step,step*stride)

end Source

section Loops

variable {start stop step : Int64}

theorem forItems_stop {i : Int64} (h : ¬Ahead i.toInt stop.toInt step.toInt) :
    forItems stop step i=[] := by
  rw [forItems,if_neg fun hgo => h ((ahead_toInt stop step i).mp hgo)]

theorem forItems_last {i : Int64} (h : Ahead i.toInt stop.toInt step.toInt)
    (hadd : checkedAdd i step=none) : forItems stop step i=[i] := by
  rw [forItems,if_pos ((ahead_toInt stop step i).mpr h)]
  split
  · rfl
  · rename_i next hnext
    rw [hadd] at hnext
    cases hnext

theorem forItems_step {i next : Int64} (h : Ahead i.toInt stop.toInt step.toInt)
    (hadd : checkedAdd i step=some next) : forItems stop step i=i::forItems stop step next := by
  rw [forItems,if_pos ((ahead_toInt stop step i).mpr h)]
  split
  · rename_i hnone
    rw [hadd] at hnone
    cases hnone
  · rename_i other hother
    rw [hadd] at hother
    rw [Option.some.inj hother]

def walked (start stop step : Int) : List Int := if step=0 then [] else terms start stop step

theorem walked_nil_iff {start stop step : Int} :
    walked start stop step=[] ↔ ¬Ahead start stop step := by
  rw [walked]
  by_cases h0 : step=0
  · rw [if_pos h0]
    refine iff_of_true rfl ?_
    rw [Ahead]
    omega
  · rw [if_neg h0]
    constructor
    · intro hnil hgo
      rw [terms_cons hgo] at hnil
      cases hnil
    · exact terms_nil h0

theorem walked_cons {start stop step : Int} (h : Ahead start stop step) :
    walked start stop step=start::walked (start+step) stop step := by
  have h0 : step≠0 := by
    rw [Ahead] at h
    omega
  rw [walked,walked,if_neg h0,if_neg h0,terms_cons h]

/-- The `for` loop visits the terms: where its addition overflows there is none left. -/
theorem forItems_walked (i : Int64) :
    (forItems stop step i).map Int64.toInt=walked i.toInt stop.toInt step.toInt := by
  induction hn : count i.toInt stop.toInt step.toInt using Nat.strongRecOn generalizing i with
  | ind n ih =>
    by_cases hgo : Ahead i.toInt stop.toInt step.toInt
    · have hcons := count_cons hgo
      rw [walked_cons hgo]
      cases hadd : checkedAdd i step with
      | none =>
        have hover : ¬Ahead (i.toInt+step.toInt) stop.toInt step.toInt := by
          rw [checkedAdd] at hadd
          split_ifs at hadd with hin
          have hstop := in_toInt stop
          have hi := in_toInt i
          rw [InI64] at hin hstop hi
          rw [Ahead]
          omega
        rw [forItems_last hgo hadd,walked_nil_iff.mpr hover]
        rfl
      | some next =>
        have hnext := checkedAdd_toInt hadd
        rw [forItems_step hgo hadd,List.map_cons,ih _ (by rw [hnext]; omega) next rfl,hnext]
    · rw [forItems_stop hgo,walked_nil_iff.mpr hgo]
      rfl

theorem unpackWalk_eq {before : Int64 → Bool}
    (hbefore : ∀ i,before i=true ↔ (0<step ∧ i < stop ∨ step<0 ∧ stop < i)) (fuel : ℕ) (i : Int64) :
    unpackWalk step before fuel i=rangeWalk stop step fuel i := by
  induction fuel generalizing i with
  | zero => rfl
  | succ fuel ih =>
    rw [unpackWalk,rangeWalk,ih]
    exact if_congr (hbefore i) rfl rfl

/-- Unpacking walks as listing does. -/
theorem valueToIterable_eq (h0 : step≠0) (fuel : ℕ) :
    valueToIterable start stop step fuel=rangeWalk stop step fuel start := by
  have hne : step.toInt≠0 := fun h => h0 (Int64.toInt_inj.mp h)
  rw [valueToIterable]
  rcases lt_or_gt_of_ne hne with hneg | hpos
  · have hlt : step<0 := Int64.lt_iff_toInt_lt.mpr hneg
    have hcmp : compare step 0=.lt := if_pos hlt
    rw [hcmp]
    refine unpackWalk_eq (fun i => ?_) fuel start
    rw [decide_eq_true_eq,ahead_toInt,Ahead,Int64.lt_iff_toInt_lt]
    omega
  · have hlt : 0<step := Int64.lt_iff_toInt_lt.mpr hpos
    have hnlt : ¬step<0 := fun h => by
      have hcontra := Int64.lt_iff_toInt_lt.mp h
      rw [Int64.toInt_zero] at hcontra
      omega
    have hcmp : compare step 0=.gt := (if_neg hnlt).trans (if_neg h0)
    rw [hcmp]
    refine unpackWalk_eq (fun i => ?_) fuel start
    rw [decide_eq_true_eq,ahead_toInt,Ahead,Int64.lt_iff_toInt_lt]
    omega

theorem mapM_words {f : ℕ → Except EvalError Value} {g : ℕ → Int} {ks : List ℕ}
    (h : ∀ k∈ks,∃ w : Int64,f k=.ok (.int w) ∧ w.toInt=g k) :
    ∃ xs : List Int64,ks.mapM f=.ok (xs.map Value.int) ∧ xs.map Int64.toInt=ks.map g := by
  induction ks with
  | nil => exact ⟨[],rfl,rfl⟩
  | cons k ks ih =>
    obtain ⟨w,hw,hval⟩ := h k List.mem_cons_self
    obtain ⟨xs,hxs,hmap⟩ := ih fun j hj => h j (List.mem_cons_of_mem k hj)
    refine ⟨w::xs,?_,?_⟩
    · rw [List.mapM_cons,hw,hxs]
      rfl
    · rw [List.map_cons,List.map_cons,hval,hmap]

theorem mapM_length {β γ ε : Type} {f : β → Except ε γ} {xs : List β} {ys : List γ}
    (h : xs.mapM f=.ok ys) : ys.length=xs.length := by
  induction xs generalizing ys with
  | nil => cases h; rfl
  | cons x xs ih =>
    rw [List.mapM_cons] at h
    cases hx : f x with
    | error e =>
      rw [hx] at h
      cases h
    | ok y =>
      rw [hx] at h
      cases hr : xs.mapM f with
      | error e =>
        rw [hr] at h
        cases h
      | ok zs =>
        rw [hr] at h
        cases h
        rw [List.length_cons,List.length_cons,ih hr]

/-- The `for` loop, unpacking and indexing all give the terms. -/
structure Walks (start stop step : Int64) : Prop where
  visited : (forItems stop step start).map Int64.toInt=terms start.toInt stop.toInt step.toInt
  unpacked : ∃ fuel xs,valueToIterable start stop step fuel=some xs ∧
    xs.map Int64.toInt=terms start.toInt stop.toInt step.toInt
  indexed : ∃ xs : List Int64,(List.range (rangeLength start stop step)).mapM
      (fun k => rangeGetItem start stop step (.int (Int64.ofNat k)))=.ok (xs.map Value.int) ∧
    xs.map Int64.toInt=terms start.toInt stop.toInt step.toInt

/-- The length is computed without a wrap, and the step after the last term stays in `i64`. -/
def WalkFits (start stop step : Int) : Prop :=
  LengthFits start stop step ∧ (Ahead start stop step → InI64 (start+count start stop step*step))

theorem walks_iff (h0 : step≠0) :
    Walks start stop step ↔ WalkFits start.toInt stop.toInt step.toInt := by
  have hne : step.toInt≠0 := fun h => h0 (Int64.toInt_inj.mp h)
  constructor
  · intro h
    constructor
    · obtain ⟨xs,hxs,hmap⟩ := h.indexed
      have hlen := mapM_length hxs
      have hcount := congrArg List.length hmap
      rw [List.length_map,length_terms] at hcount
      rw [List.length_map,List.length_range,hcount] at hlen
      exact (length_iff start stop step h0).mp hlen.symm
    · intro hgo
      obtain ⟨fuel,xs,hxs,hmap⟩ := h.unpacked
      rw [valueToIterable_eq h0] at hxs
      have hpos := (ahead_iff hne).mp hgo
      exact (rangeWalk_last stop step hne fuel start xs hxs hmap).resolve_left (by omega)
  · rintro ⟨hl,hlast⟩
    have hend : count start.toInt stop.toInt step.toInt=0 ∨
        InI64 (start.toInt+count start.toInt stop.toInt step.toInt*step.toInt) := by
      by_cases hgo : Ahead start.toInt stop.toInt step.toInt
      · exact .inr (hlast hgo)
      · exact .inl (count_nil hne hgo)
    obtain ⟨xs,hxs,hmap⟩ := rangeWalk_terms stop step hne _ start rfl hend
    refine ⟨?_,⟨_,xs,(valueToIterable_eq h0 _).trans hxs,hmap⟩,?_⟩
    · rw [forItems_walked,walked,if_neg hne]
    · rw [(length_iff start stop step h0).mpr hl]
      refine mapM_words fun k hk => ?_
      have hcount := count_in hne hl
      have hlt := List.mem_range.mp hk
      have hword : (Int64.ofNat k).toInt=k := Int64.toInt_ofNat_of_lt (by omega)
      obtain ⟨w,hw,hval⟩ := @rangeGetItem_exact _ stop _ h0 hl
        (.int (Int64.ofNat k)) _ rfl (by omega) (by omega)
      refine ⟨w,hw,?_⟩
      rw [hval,place,hword,if_neg (by omega)]
      rfl

end Loops

section Words

variable {len : ℕ} {stride : Int} {lower upper stepExpr : Option Bound}

theorem toInt_min (a b : Int64) : (min a b).toInt=min a.toInt b.toInt := by
  have hdef : min a b=if a≤b then a else b := rfl
  rw [hdef]
  by_cases h : a≤b
  · rw [if_pos h,min_eq_left (Int64.le_iff_toInt_le.mp h)]
  · rw [if_neg h]
    have hlt : ¬a.toInt≤b.toInt := fun hle => h (Int64.le_iff_toInt_le.mpr hle)
    omega

theorem toInt_max (a b : Int64) : (max a b).toInt=max a.toInt b.toInt := by
  have hdef : max a b=if a≤b then b else a := rfl
  rw [hdef]
  by_cases h : a≤b
  · rw [if_pos h,max_eq_right (Int64.le_iff_toInt_le.mp h)]
  · rw [if_neg h]
    have hlt : ¬a.toInt≤b.toInt := fun hle => h (Int64.le_iff_toInt_le.mpr hle)
    omega

theorem adjusted_toInt {idx word : Int64} (hlen : 0≤word.toInt) :
    (if idx<0 then idx+word else idx).toInt=
      if idx.toInt<0 then idx.toInt+word.toInt else idx.toInt := by
  have hidx := in_toInt idx
  have hword := in_toInt word
  rw [InI64] at hidx hword
  by_cases h : idx<0
  · have hneg : idx.toInt<0 := Int64.lt_iff_toInt_lt.mp h
    rw [if_pos h,if_pos hneg,toInt_add,wrap_of_in ⟨by omega,by omega⟩]
  · have hneg : ¬idx.toInt<0 := fun hlt => h (Int64.lt_iff_toInt_lt.mpr hlt)
    rw [if_neg h,if_neg hneg]

theorem clampSliceIndex_toInt {idx word : Int64} (hlen : 0≤word.toInt) :
    (clampSliceIndex idx word).toInt=Sequence.clampIndex idx.toInt word.toInt := by
  rw [clampSliceIndex,Sequence.clampIndex,toInt_min,toInt_max,adjusted_toInt hlen]
  rfl

theorem clampSliceIndexNeg_toInt {idx word : Int64} (hlen : 0≤word.toInt) :
    (clampSliceIndexNeg idx word).toInt=Sequence.clampIndexNeg idx.toInt word.toInt := by
  have hword := in_toInt word
  rw [InI64] at hword
  have hone : (1 : Int64).toInt=1 := rfl
  have hminus : (-1 : Int64).toInt=-1 := rfl
  have hlast : (word-1).toInt=word.toInt-1 := by
    rw [toInt_sub,hone,wrap_of_in ⟨by omega,by omega⟩]
  rw [clampSliceIndexNeg,Sequence.clampIndexNeg,toInt_min,toInt_max,adjusted_toInt hlen,hlast,
    hminus]

theorem toInt_ofInt {n : Int} (h : InI64 n) : (Int64.ofInt n).toInt=n := by
  rw [Int64.toInt_ofInt]
  exact (bmod_wrap n).trans (wrap_of_in h)

theorem small_in {bound : Option Bound} (h : Small bound) {default : Int} (hd : InI64 default) :
    InI64 ((boundValue bound).getD default) := by
  match bound,h with
  | none,_ => exact hd
  | some .none,_ => exact hd
  | some (.bool false),_ => exact (by decide : InI64 0)
  | some (.bool true),_ => exact (by decide : InI64 1)
  | some (.int n),h =>
    have hlow : -2^63≤ n := h.1
    have hhigh : n≤2^63-1 := h.2
    exact (⟨hlow,by omega⟩ : InI64 n)

theorem resolve_small {bound : Option Bound} (h : Small bound) (default : Int64) :
    ∃ w,resolve bound default=.ok w ∧ w.toInt=(boundValue bound).getD default.toInt := by
  refine ⟨_,?_,toInt_ofInt (small_in h (in_toInt default))⟩
  rw [resolve,Sequence.resolveBound_small h]
  rfl

theorem resolve_big {bound : Option Bound} (h : ¬Small bound) (default : Int64) :
    resolve bound default=.error Sequence.indexError := by
  rw [resolve,Sequence.resolveBound_big h]
  rfl

theorem rangeLength_lt (start stop step : Int64) : rangeLength start stop step<2^63 := by
  rw [rangeLength]
  have h := in_toInt (if 0<step then max ((stop-start+step-1)/step) 0
    else if step<0 then max ((start-stop-step-1)/(-step)) 0 else 0)
  rw [InI64] at h
  omega

def edge (start step i : Int) : Int := wrap (start+i*step)

theorem edge_toInt (start step i : Int64) :
    (start+i*step).toInt=edge start.toInt step.toInt i.toInt := by
  rw [edge,toInt_add,toInt_mul,add_comm,wrap_wrap_add,add_comm]

theorem resolveStep_small (hs : Small stepExpr) (h0 : stepValue stepExpr≠0) :
    resolveStep stepExpr=.ok (stepValue stepExpr) := by
  rw [resolveStep,Sequence.resolveBound_small hs]
  exact if_neg h0

section Given

variable {start stop step : Int64}

theorem length_toInt : (Int64.ofNat (rangeLength start stop step)).toInt=rangeLength start stop step :=
  Int64.toInt_ofNat_of_lt (rangeLength_lt start stop step)

theorem length_toInt_nonneg : 0≤(Int64.ofNat (rangeLength start stop step)).toInt := by
  rw [length_toInt]
  exact Int.natCast_nonneg _

theorem last_toInt : (Int64.ofNat (rangeLength start stop step)-1).toInt=
    rangeLength start stop step-1 := by
  have hone : (1 : Int64).toInt=1 := rfl
  have hlt := rangeLength_lt start stop step
  rw [toInt_sub,hone,length_toInt,wrap_of_in ⟨by omega,by omega⟩]

theorem past_toInt : (-(Int64.ofNat (rangeLength start stop step)+1)).toInt=
    -(rangeLength start stop step+1) := by
  have hone : (1 : Int64).toInt=1 := rfl
  have hlt := rangeLength_lt start stop step
  rw [toInt_neg,toInt_add,hone,length_toInt,wrap,wrap]
  omega

/-- The range that a slice with small bounds gives, in words. -/
theorem sliceRange_words (hl : Small lower) (hu : Small upper) (hs : Small stepExpr)
    (h0 : stepValue stepExpr≠0) :
    ∃ s e t,sliceRange start stop step lower upper stepExpr=.ok (s,e,t) ∧
      s.toInt=edge start.toInt step.toInt
        (startIndex (rangeLength start stop step) (boundValue lower) (stepValue stepExpr)) ∧
      e.toInt=edge start.toInt step.toInt
        (stopIndex (rangeLength start stop step) (boundValue upper) (stepValue stepExpr)) ∧
      t.toInt=wrap (step.toInt*stepValue stepExpr) := by
  have hstride : (Int64.ofInt (stepValue stepExpr)).toInt=stepValue stepExpr :=
    toInt_ofInt (small_in hs (by decide))
  have hmul : (step*Int64.ofInt (stepValue stepExpr)).toInt=wrap (step.toInt*stepValue stepExpr) := by
    rw [toInt_mul,hstride]
  have hpos : 0<Int64.ofInt (stepValue stepExpr) ↔ 0<stepValue stepExpr := by
    rw [Int64.lt_iff_toInt_lt,hstride,Int64.toInt_zero]
  have hshort : ¬(2 : Int)^63 ≤ rangeLength start stop step := by
    have hlt := rangeLength_lt start stop step
    omega
  rw [sliceRange,resolveStep_small hs h0]
  by_cases hup : 0<stepValue stepExpr
  · obtain ⟨low,hlow,hlowVal⟩ := resolve_small hl 0
    obtain ⟨high,hhigh,hhighVal⟩ := resolve_small hu (Int64.ofNat (rangeLength start stop step))
    simp only [bind,Except.bind,if_neg hshort,if_pos (hpos.mpr hup),hlow,hhigh]
    refine ⟨_,_,_,rfl,?_,?_,hmul⟩
    · rw [edge_toInt,clampSliceIndex_toInt length_toInt_nonneg,hlowVal,length_toInt,
        Int64.toInt_zero,Sequence.clampIndex_start hup]
    · rw [edge_toInt,clampSliceIndex_toInt length_toInt_nonneg,hhighVal,length_toInt,
        Sequence.clampIndex_stop hup]
  · have hdown : stepValue stepExpr<0 := by omega
    obtain ⟨low,hlow,hlowVal⟩ := resolve_small hl (Int64.ofNat (rangeLength start stop step)-1)
    obtain ⟨high,hhigh,hhighVal⟩ :=
      resolve_small hu (-(Int64.ofNat (rangeLength start stop step)+1))
    simp only [bind,Except.bind,if_neg hshort,if_neg fun h => hup (hpos.mp h),hlow,hhigh]
    refine ⟨_,_,_,rfl,?_,?_,hmul⟩
    · rw [edge_toInt,clampSliceIndexNeg_toInt length_toInt_nonneg,hlowVal,length_toInt,last_toInt,
        Sequence.clampIndexNeg_start hdown]
    · rw [edge_toInt,clampSliceIndexNeg_toInt length_toInt_nonneg,hhighVal,length_toInt,past_toInt,
        Sequence.clampIndexNeg_stop hdown]

end Given

end Words

section Selected

variable {start stop step stride : Int} {lower upper : Option Int} {n : ℕ}

def sliced (start stop step : Int) (lower upper : Option Int) (stride : Int) : List Int :=
  (positions (count start stop step) lower upper stride).map fun p : ℕ => start+(p : Int)*step

theorem sliced_terms (hs : stride≠0) : sliced start stop step lower upper stride=
    (terms (startIndex (count start stop step) lower stride)
      (stopIndex (count start stop step) upper stride) stride).map fun p => start+p*step := by
  rw [sliced,positions,List.map_map]
  refine List.map_congr_left fun i hi => ?_
  have hpos := (Sequence.term_bounds hs hi).1
  rw [Function.comp,Int.toNat_of_nonneg hpos]

theorem positions_cons {p : ℕ} {rest : List ℕ} (hs : stride≠0)
    (h : positions n lower upper stride=p::rest) :
    startIndex n lower stride=p ∧ Ahead (p : Int) (stopIndex n upper stride) stride ∧
      rest=(terms (p+stride) (stopIndex n upper stride) stride).map Int.toNat := by
  by_cases hgo : Ahead (startIndex n lower stride) (stopIndex n upper stride) stride
  · have hfirst : startIndex n lower stride∈
        terms (startIndex n lower stride) (stopIndex n upper stride) stride := by
      rw [terms_cons hgo]
      exact List.mem_cons_self
    have hnonneg := (Sequence.term_bounds hs hfirst).1
    rw [positions,terms_cons hgo,List.map_cons] at h
    obtain ⟨rfl,rfl⟩ := List.cons_eq_cons.mp h
    rw [Int.toNat_of_nonneg hnonneg]
    exact ⟨rfl,hgo,rfl⟩
  · rw [positions,terms_nil hs hgo] at h
    cases h

theorem second_position {p q : ℕ} {rest : List ℕ} (hs : stride≠0)
    (h : positions n lower upper stride=p::q::rest) : (q : Int)=p+stride := by
  obtain ⟨hfirst,hgo,hrest⟩ := positions_cons hs h
  by_cases hnext : Ahead ((p : Int)+stride) (stopIndex n upper stride) stride
  · have hmem : (p : Int)+stride∈
        terms (startIndex n lower stride) (stopIndex n upper stride) stride := by
      rw [hfirst,terms_cons hgo,terms_cons hnext]
      exact List.mem_cons_of_mem _ List.mem_cons_self
    have hnonneg := (Sequence.term_bounds hs hmem).1
    rw [terms_cons hnext,List.map_cons] at hrest
    rw [(List.cons_eq_cons.mp hrest).1,Int.toNat_of_nonneg hnonneg]
  · rw [terms_nil hs hnext] at hrest
    cases hrest

theorem walked_single {s e t x : Int} :
    walked s e t=[x] ↔ s=x ∧ Ahead s e t ∧ ¬Ahead (s+t) e t := by
  by_cases hgo : Ahead s e t
  · rw [walked_cons hgo,List.cons_eq_cons,walked_nil_iff]
    exact ⟨fun h => ⟨h.1,hgo,h.2⟩,fun h => ⟨h.1,h.2.2⟩⟩
  · rw [walked_nil_iff.mpr hgo]
    refine iff_of_false (fun h => ?_) fun h => hgo h.2.1
    cases h

theorem span_lt (h0 : step≠0) (hl : LengthFits start stop step) (hn : 2 ≤ count start stop step) :
    (count start stop step : Int)*|step|<2^63 := by
  rw [LengthFits,extent] at hl
  rw [count] at hn ⊢
  by_cases hs : 0<step
  · rw [if_pos hs] at hn hl ⊢
    rw [if_neg (by omega),InI64] at hl
    have hdiv := Int.ediv_mul_le (stop-start+step-1) (b := step) (by omega)
    rw [abs_of_pos hs,Int.toNat_of_nonneg (by omega)]
    omega
  · rw [if_neg hs] at hn hl ⊢
    have hdiv := Int.ediv_mul_le (start-stop-step-1) (b := -step) (by omega)
    rw [abs_of_neg (by omega),Int.toNat_of_nonneg (by omega)]
    by_cases hmin : step=-2^63
    · rw [if_pos hmin] at hl
      rw [hmin,neg_neg] at hn
      omega
    · rw [if_neg hmin,InI64] at hl
      omega

theorem near_stop (h0 : step≠0) (hl : LengthFits start stop step) (hs : stride≠0) {p : ℕ}
    (hp : p<count start stop step) (hn : 2 ≤ count start stop step) :
    |start+stopIndex (count start stop step) upper stride*step-(start+p*step)|<2^63 := by
  have hspan := span_lt h0 hl hn
  have hgap : |stopIndex (count start stop step) upper stride-p| ≤ count start stop step := by
    rw [abs_le]
    rcases lt_or_gt_of_ne hs with hneg | hpos
    · have hb := Sequence.stopIndex_down (count start stop step) upper hneg
      omega
    · have hb := Sequence.stopIndex_up (count start stop step) upper hpos
      omega
  have hdiff : start+stopIndex (count start stop step) upper stride*step-(start+p*step)=
      (stopIndex (count start stop step) upper stride-p)*step := by ring
  rw [hdiff,abs_mul]
  exact lt_of_le_of_lt (mul_le_mul_of_nonneg_right hgap (abs_nonneg step)) hspan

theorem wrapped_stop {s v t : Int} (hs : InI64 s) (hv : ¬InI64 v) (hgo : Ahead s v t)
    (hnear : |v-s|<2^63) : ¬Ahead s (wrap v) t := by
  have habs := abs_lt.mp hnear
  rw [InI64] at hs hv
  rw [Ahead] at hgo ⊢
  rw [wrap]
  omega

end Selected

section Exact

variable (start stop step : Int64) (lower upper stepExpr : Option Bound)

/-- The sliced range, walked, gives what slicing the listed range gives. -/
def SliceRight : Prop :=
  ∃ s e t,sliceRange start stop step lower upper stepExpr=.ok (s,e,t) ∧
    (forItems e t s).map Int64.toInt=sliced start.toInt stop.toInt step.toInt (boundValue lower)
      (boundValue upper) (stepValue stepExpr)

def firstWord : Int := edge start.toInt step.toInt
  (startIndex (rangeLength start stop step) (boundValue lower) (stepValue stepExpr))

def stopWord : Int := edge start.toInt step.toInt
  (stopIndex (rangeLength start stop step) (boundValue upper) (stepValue stepExpr))

def stepWord : Int := wrap (step.toInt*stepValue stepExpr)

/-- What the words of a slice need: for two items and more that they are exact, else that they come
out with as many items. -/
def WordsFit : Prop :=
  match positions (count start.toInt stop.toInt step.toInt) (boundValue lower) (boundValue upper)
      (stepValue stepExpr) with
  | [] => ¬Ahead (firstWord start stop step lower stepExpr) (stopWord start stop step upper stepExpr)
      (stepWord step stepExpr)
  | [_] => LengthFits start.toInt stop.toInt step.toInt ∧
      Ahead (firstWord start stop step lower stepExpr) (stopWord start stop step upper stepExpr)
        (stepWord step stepExpr) ∧
      ¬Ahead (firstWord start stop step lower stepExpr+stepWord step stepExpr)
        (stopWord start stop step upper stepExpr) (stepWord step stepExpr)
  | _::_::_ => LengthFits start.toInt stop.toInt step.toInt ∧
      InI64 (step.toInt*stepValue stepExpr) ∧
      InI64 (start.toInt+stopIndex (count start.toInt stop.toInt step.toInt) (boundValue upper)
        (stepValue stepExpr)*step.toInt)

/-- The bounds and the step are within `i64`, and the words fit. -/
def SliceFits : Prop :=
  Small lower ∧ Small upper ∧ Small stepExpr ∧ WordsFit start stop step lower upper stepExpr

variable {start stop step lower upper stepExpr}

theorem sliceRight_words (hl : Small lower) (hu : Small upper) (hs : Small stepExpr)
    (h0 : stepValue stepExpr≠0) : SliceRight start stop step lower upper stepExpr ↔
      walked (firstWord start stop step lower stepExpr) (stopWord start stop step upper stepExpr)
        (stepWord step stepExpr)=
      sliced start.toInt stop.toInt step.toInt (boundValue lower) (boundValue upper)
        (stepValue stepExpr) := by
  obtain ⟨s,e,t,hrun,hs,he,ht⟩ := @sliceRange_words _ _ _ start stop step
    hl hu hs h0
  have hwalk : (forItems e t s).map Int64.toInt=walked (firstWord start stop step lower stepExpr)
      (stopWord start stop step upper stepExpr) (stepWord step stepExpr) := by
    rw [forItems_walked,hs,he,ht]
    rfl
  rw [← hwalk]
  constructor
  · rintro ⟨s',e',t',hrun',h⟩
    rw [hrun] at hrun'
    obtain ⟨rfl,hpair⟩ := Prod.mk.inj (Except.ok.inj hrun')
    obtain ⟨rfl,rfl⟩ := Prod.mk.inj hpair
    exact h
  · exact fun h => ⟨s,e,t,hrun,h⟩

theorem lengthFits_of_sliced (h0 : step≠0) {p : ℕ} {rest : List ℕ} (hstride : stepValue stepExpr≠0)
    (hp : positions (count start.toInt stop.toInt step.toInt) (boundValue lower) (boundValue upper)
      (stepValue stepExpr)=p::rest)
    (hgo : Ahead (firstWord start stop step lower stepExpr)
      (stopWord start stop step upper stepExpr) (stepWord step stepExpr)) :
    LengthFits start.toInt stop.toInt step.toInt := by
  have hlt := Sequence.lt_of_mem_positions hstride (hp ▸ List.mem_cons_self)
  rcases length_or_zero start stop step h0 (by omega) with hlen | hzero
  · exact (length_iff start stop step h0).mp hlen
  · have hsame : startIndex 0 (boundValue lower) (stepValue stepExpr)=
        stopIndex 0 (boundValue upper) (stepValue stepExpr) := by
      rcases lt_or_gt_of_ne hstride with hneg | hpos
      · have ha := Sequence.startIndex_down 0 (boundValue lower) hneg
        have hb := Sequence.stopIndex_down 0 (boundValue upper) hneg
        omega
      · have ha := Sequence.startIndex_up 0 (boundValue lower) hpos
        have hb := Sequence.stopIndex_up 0 (boundValue upper) hpos
        omega
    rw [firstWord,stopWord,hzero,hsame,Ahead] at hgo
    omega

theorem words_iff (h0 : step≠0) (hstride : stepValue stepExpr≠0) :
    walked (firstWord start stop step lower stepExpr) (stopWord start stop step upper stepExpr)
        (stepWord step stepExpr)=
      sliced start.toInt stop.toInt step.toInt (boundValue lower) (boundValue upper)
        (stepValue stepExpr) ↔ WordsFit start stop step lower upper stepExpr := by
  have hne : step.toInt≠0 := fun h => h0 (Int64.toInt_inj.mp h)
  rw [WordsFit]
  cases hp : positions (count start.toInt stop.toInt step.toInt) (boundValue lower)
      (boundValue upper) (stepValue stepExpr) with
  | nil =>
    rw [sliced,hp,List.map_nil,walked_nil_iff]
  | cons p rest =>
    obtain ⟨hfirst,hgo,hrest⟩ := positions_cons hstride hp
    have hlt := Sequence.lt_of_mem_positions hstride (hp ▸ List.mem_cons_self)
    -- with the right length the first word is the first item
    have hword : LengthFits start.toInt stop.toInt step.toInt →
        firstWord start stop step lower stepExpr=start.toInt+p*step.toInt := by
      intro hl
      rw [firstWord,(length_iff start stop step h0).mpr hl,hfirst,edge,
        wrap_of_in (index_in hne hlt)]
    cases rest with
    | nil =>
      rw [sliced,hp,List.map_singleton,walked_single]
      constructor
      · rintro ⟨-,hahead,hover⟩
        exact ⟨lengthFits_of_sliced h0 hstride hp hahead,hahead,hover⟩
      · rintro ⟨hl,hahead,hover⟩
        exact ⟨hword hl,hahead,hover⟩
    | cons q rest =>
      have hq : (q : Int)=p+stepValue stepExpr := second_position hstride hp
      have hqlt := Sequence.lt_of_mem_positions hstride
        (hp ▸ List.mem_cons_of_mem p List.mem_cons_self)
      have hstop : LengthFits start.toInt stop.toInt step.toInt →
          stopWord start stop step upper stepExpr=wrap (start.toInt+
            stopIndex (count start.toInt stop.toInt step.toInt) (boundValue upper)
              (stepValue stepExpr)*step.toInt) := by
        intro hl
        rw [stopWord,(length_iff start stop step h0).mpr hl,edge]
      constructor
      · intro h
        rw [sliced,hp,List.map_cons,List.map_cons] at h
        have hahead : Ahead (firstWord start stop step lower stepExpr)
            (stopWord start stop step upper stepExpr) (stepWord step stepExpr) := by
          by_contra hno
          rw [walked_nil_iff.mpr hno] at h
          cases h
        have hl := lengthFits_of_sliced h0 hstride hp hahead
        rw [walked_cons hahead,hword hl] at h
        have htail := (List.cons_eq_cons.mp h).2
        have hnext : start.toInt+p*step.toInt+stepWord step stepExpr=start.toInt+q*step.toInt := by
          by_cases hagain : Ahead (start.toInt+p*step.toInt+stepWord step stepExpr)
              (stopWord start stop step upper stepExpr) (stepWord step stepExpr)
          · rw [walked_cons hagain] at htail
            exact (List.cons_eq_cons.mp htail).1
          · rw [walked_nil_iff.mpr hagain] at htail
            cases htail
        have hexact : stepWord step stepExpr=step.toInt*stepValue stepExpr := by
          rw [hq] at hnext
          linarith
        refine ⟨hl,?_,?_⟩
        · rw [← hexact]
          exact in_wrap _
        · by_contra hv
          rw [hword hl,hstop hl,hexact] at hahead
          exact wrapped_stop (index_in hne hlt) hv ((ahead_scale hne).mpr hgo)
            (near_stop hne hl hstride hlt (by omega)) hahead
      · rintro ⟨hl,hstep,hv⟩
        have hexact : stepWord step stepExpr=step.toInt*stepValue stepExpr := wrap_of_in hstep
        rw [hword hl,hstop hl,wrap_of_in hv,hexact,walked,if_neg (mul_ne_zero hne hstride),
          terms_scale hne hstride,sliced_terms hstride,hfirst]

/-- A bound or a step beyond `i64` is refused. -/
theorem sliceRange_big (h : ¬(Small lower ∧ Small upper ∧ Small stepExpr))
    (h0 : stepValue stepExpr≠0) :
    sliceRange start stop step lower upper stepExpr=.error Sequence.indexError := by
  have hshort : ¬(2 : Int)^63 ≤ rangeLength start stop step := by
    have hlt := rangeLength_lt start stop step
    omega
  by_cases hs : Small stepExpr
  · rw [sliceRange,resolveStep_small hs h0]
    simp only [bind,Except.bind]
    rw [if_neg hshort]
    by_cases hl : Small lower
    · have hu : ¬Small upper := fun hu => h ⟨hl,hu,hs⟩
      split_ifs
      · obtain ⟨low,hlow,-⟩ := resolve_small hl 0
        simp only [hlow,resolve_big hu]
      · obtain ⟨low,hlow,-⟩ := resolve_small hl (Int64.ofNat (rangeLength start stop step)-1)
        simp only [hlow,resolve_big hu]
    · split_ifs
      · simp only [resolve_big hl]
      · simp only [resolve_big hl]
  · have hstep : resolveStep stepExpr=.error Sequence.indexError := by
      rw [resolveStep,Sequence.resolveBound_big hs]
      rfl
    rw [sliceRange,hstep]
    rfl

theorem sliceRight_iff (h0 : step≠0) (hstride : stepValue stepExpr≠0) :
    SliceRight start stop step lower upper stepExpr ↔
      SliceFits start stop step lower upper stepExpr := by
  by_cases h : Small lower ∧ Small upper ∧ Small stepExpr
  · obtain ⟨hl,hu,hs⟩ := h
    rw [sliceRight_words hl hu hs hstride,words_iff h0 hstride,SliceFits]
    exact ⟨fun hw => ⟨hl,hu,hs,hw⟩,fun hw => hw.2.2.2⟩
  · refine iff_of_false ?_ fun hw => h ⟨hw.1,hw.2.1,hw.2.2.1⟩
    rintro ⟨s,e,t,hrun,-⟩
    rw [sliceRange_big h hstride] at hrun
    cases hrun

theorem sliceRight_of_exact (h0 : step≠0) (hstride : stepValue stepExpr≠0) (hl : Small lower)
    (hu : Small upper) (hs : Small stepExpr)
    (hlen : LengthFits start.toInt stop.toInt step.toInt)
    (hfirst : InI64 (start.toInt+startIndex (count start.toInt stop.toInt step.toInt)
      (boundValue lower) (stepValue stepExpr)*step.toInt))
    (hstop : InI64 (start.toInt+stopIndex (count start.toInt stop.toInt step.toInt)
      (boundValue upper) (stepValue stepExpr)*step.toInt))
    (hstep : InI64 (step.toInt*stepValue stepExpr)) :
    SliceRight start stop step lower upper stepExpr := by
  have hne : step.toInt≠0 := fun h => h0 (Int64.toInt_inj.mp h)
  rw [sliceRight_words hl hu hs hstride,firstWord,stopWord,stepWord,
    (length_iff start stop step h0).mpr hlen,edge,edge,wrap_of_in hfirst,wrap_of_in hstop,
    wrap_of_in hstep,walked,if_neg (mul_ne_zero hne hstride),terms_scale hne hstride,
    sliced_terms hstride]

end Exact

section Result

variable (start stop step : Int64) (lower upper stepExpr : Option Bound)

/-- The walks of a range see its terms if and only if the length is computed without a wrap and the
step after the last term stays in `i64`; a slice is right if and only if its words fit, as when they
are computed without a wrap. -/
theorem range_walks_exact (h0 : step≠0) (hstride : stepValue stepExpr≠0) :
    (Walks start stop step ↔ WalkFits start.toInt stop.toInt step.toInt) ∧
    (SliceRight start stop step lower upper stepExpr ↔
      SliceFits start stop step lower upper stepExpr) ∧
    (Small lower → Small upper → Small stepExpr →
      LengthFits start.toInt stop.toInt step.toInt →
      InI64 (start.toInt+startIndex (count start.toInt stop.toInt step.toInt) (boundValue lower)
        (stepValue stepExpr)*step.toInt) →
      InI64 (start.toInt+stopIndex (count start.toInt stop.toInt step.toInt) (boundValue upper)
        (stepValue stepExpr)*step.toInt) →
      InI64 (step.toInt*stepValue stepExpr) → SliceRight start stop step lower upper stepExpr) :=
  ⟨walks_iff h0,sliceRight_iff h0 hstride,sliceRight_of_exact h0 hstride⟩

/-- `range(10,0,-3)[::-2]`. -/
theorem range_walks_exact_countdown : Walks 10 0 (-3) ∧
    SliceRight 10 0 (-3) none none (some (.int (-2))) := by
  obtain ⟨hwalks,hslice,-⟩ := range_walks_exact 10 0 (-3) none none (some (.int (-2))) (by decide)
    (by decide)
  refine ⟨hwalks.mpr ⟨by decide,fun _ => by decide⟩,hslice.mpr ⟨trivial,trivial,by decide,?_⟩⟩
  exact ⟨by decide,by decide,by decide⟩

/-- After the one item of `range(2**63-2,2**63-1,5)` the addition wraps, and its full slice is
empty. -/
theorem step_past_end_wraps : ¬Walks (Int64.maxValue-1) Int64.maxValue 5 ∧
    ¬SliceRight (Int64.maxValue-1) Int64.maxValue 5 none none none := by
  constructor
  · intro h
    have hfits := ((walks_iff (by decide)).mp h).2 (by decide)
    revert hfits
    decide
  · intro h
    have hfits := ((sliceRight_iff (by decide) (by decide)).mp h).2.2.2
    have hahead := hfits.2.1
    revert hahead
    decide

end Result

end InterpretThis.Ranges
