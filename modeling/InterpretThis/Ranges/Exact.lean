import InterpretThis.Ranges.Range

namespace InterpretThis.Ranges

open Progression

section Counting

theorem ceil_div {n d : Int} (hd : 0<d) : (n+d-1)/d=n/d+(if n%d≠0 then 1 else 0) := by
  have hdm := Int.emod_add_mul_ediv n d
  have hnonneg := Int.emod_nonneg n hd.ne'
  have hlt := Int.emod_lt_of_pos n hd
  by_cases h0 : n%d=0
  · rw [if_neg (by simp only [h0,ne_eq,not_true_eq_false,not_false_eq_true])]
    refine ((Int.ediv_emod_unique hd (r := d-1)).mpr ⟨?_,by omega,by omega⟩).1
    rw [add_zero]
    omega
  · rw [if_pos h0]
    refine ((Int.ediv_emod_unique hd (r := n%d-1)).mpr ⟨?_,by omega,by omega⟩).1
    rw [mul_add,mul_one]
    omega

theorem ceil_tdiv {n d : Int} (hn : 0≤ n) (hd : 0<d) :
    n.tdiv d+(if n.tmod d≠0 then 1 else 0)=(n+d-1)/d := by
  rw [ceil_div hd,Int.tdiv_eq_ediv_of_nonneg hn,Int.tmod_eq_emod_of_nonneg hn]

theorem ceil_tdiv_neg {n d : Int} (hn : 0≤ n) (hd : 0<d) :
    (-n).tdiv (-d)+(if (-n).tmod (-d)≠0 then 1 else 0)=(n+d-1)/d := by
  rw [← ceil_tdiv hn hd,Int.neg_tdiv,Int.tdiv_neg,neg_neg,Int.neg_tmod,Int.tmod_neg]
  simp only [ne_eq,neg_eq_zero]

theorem ceil_nonneg {n d : Int} (hn : 0≤ n) (hd : 0<d) : 0≤(n+d-1)/d :=
  Int.ediv_nonneg (by omega) hd.le

theorem rangeCount_eq (start stop step : Int64) (h0 : step≠0) :
    rangeCount start stop step=(count start.toInt stop.toInt step.toInt : Int) := by
  have hne : step.toInt≠0 := fun h => h0 (Int64.toInt_inj.mp h)
  by_cases hahead : Ahead start.toInt stop.toInt step.toInt
  · have hcond : 0<step.toInt ∧ 0<stop.toInt-start.toInt ∨ step.toInt<0 ∧ stop.toInt-start.toInt<0 := by
      rw [Ahead] at hahead
      omega
    rw [rangeCount]
    simp only [if_pos hcond]
    cases hcond with
    | inl h =>
      rw [ceil_tdiv h.2.le h.1,count,if_pos h.1,Int.toNat_of_nonneg (ceil_nonneg h.2.le h.1)]
    | inr h =>
      have hnum : start.toInt-stop.toInt-step.toInt-1=start.toInt-stop.toInt+ -step.toInt-1 := by ring
      have hcount : count start.toInt stop.toInt step.toInt=
          ((start.toInt-stop.toInt+ -step.toInt-1)/(-step.toInt)).toNat := by
        rw [count,if_neg (by omega),hnum]
      have hway : 0 ≤ start.toInt-stop.toInt := by omega
      have hdown : 0< -step.toInt := by omega
      have hquot := ceil_tdiv_neg hway hdown
      rw [neg_neg,neg_sub] at hquot
      rw [hcount,hquot,Int.toNat_of_nonneg (ceil_nonneg hway hdown)]
  · have hcond : ¬(0<step.toInt ∧ 0<stop.toInt-start.toInt ∨ step.toInt<0 ∧ stop.toInt-start.toInt<0) := by
      rw [Ahead] at hahead
      omega
    rw [rangeCount]
    simp only [if_neg hcond]
    rw [count_nil hne hahead]
    rfl

end Counting

section Walking

variable (stop step : Int64)

theorem ahead_toInt (i : Int64) :
    (0<step ∧ i < stop ∨ step<0 ∧ stop < i) ↔ Ahead i.toInt stop.toInt step.toInt := by
  simp only [Ahead,Int64.lt_iff_toInt_lt,Int64.toInt_zero]

/-- The loop collects the terms if the addition after the last one does not wrap. -/
theorem rangeWalk_terms (h0 : step.toInt≠0) (n : ℕ) (i : Int64)
    (hn : count i.toInt stop.toInt step.toInt=n) (hlast : n=0 ∨ InI64 (i.toInt+n*step.toInt)) :
    ∃ xs,rangeWalk stop step (n+1) i=some xs ∧ xs.map Int64.toInt=terms i.toInt stop.toInt step.toInt := by
  induction n generalizing i with
  | zero =>
    have hstop : ¬Ahead i.toInt stop.toInt step.toInt := by
      rw [ahead_iff h0]
      omega
    refine ⟨[],?_,(terms_nil h0 hstop).symm⟩
    rw [rangeWalk,if_neg (fun h => hstop ((ahead_toInt stop step i).mp h))]
  | succ n ih =>
    have hgo : Ahead i.toInt stop.toInt step.toInt := by
      rw [ahead_iff h0]
      omega
    have hend : InI64 (i.toInt+(n+1 : ℕ)*step.toInt) := hlast.resolve_left (by omega)
    have hin : InI64 (i.toInt+step.toInt) := by
      have hi := in_toInt i
      have hprod : ((n+1 : ℕ) : Int)*step.toInt=n*step.toInt+step.toInt := by push_cast; ring
      have hsign := mul_nonneg (Int.natCast_nonneg n) (abs_nonneg step.toInt)
      rw [InI64] at hi hend ⊢
      rw [hprod] at hend
      by_cases hs : 0<step.toInt
      · rw [abs_of_pos hs] at hsign
        omega
      · rw [abs_of_nonpos (by omega),mul_neg] at hsign
        omega
    have hnext : (i+step).toInt=i.toInt+step.toInt := by rw [toInt_add,wrap_of_in hin]
    have hcount : count (i+step).toInt stop.toInt step.toInt=n := by
      have hcons := count_cons hgo
      rw [hnext]
      omega
    have hrest : InI64 ((i+step).toInt+n*step.toInt) := by
      have hsum : i.toInt+step.toInt+n*step.toInt=i.toInt+(n+1 : ℕ)*step.toInt := by push_cast; ring
      rw [hnext,hsum]
      exact hend
    obtain ⟨xs,hxs,hmap⟩ := ih (i+step) hcount (.inr hrest)
    refine ⟨i::xs,?_,?_⟩
    · rw [rangeWalk,if_pos ((ahead_toInt stop step i).mpr hgo),hxs]
      rfl
    · rw [List.map_cons,hmap,terms_cons hgo,hnext]

/-- A loop that ends with the terms has not wrapped after the last one. -/
theorem rangeWalk_last (h0 : step.toInt≠0) (fuel : ℕ) (i : Int64) (xs : List Int64)
    (hxs : rangeWalk stop step fuel i=some xs)
    (hmap : xs.map Int64.toInt=terms i.toInt stop.toInt step.toInt) :
    count i.toInt stop.toInt step.toInt=0 ∨
      InI64 (i.toInt+count i.toInt stop.toInt step.toInt*step.toInt) := by
  induction fuel generalizing i xs with
  | zero => cases hxs
  | succ fuel ih =>
    by_cases hgo : Ahead i.toInt stop.toInt step.toInt
    · rw [rangeWalk,if_pos ((ahead_toInt stop step i).mpr hgo)] at hxs
      cases hr : rangeWalk stop step fuel (i+step) with
      | none =>
        rw [hr] at hxs
        cases hxs
      | some ys =>
        rw [hr] at hxs
        cases hxs
        rw [terms_cons hgo,List.map_cons,List.cons.injEq] at hmap
        -- a wrapped successor is ahead of the bound again, so the list would be too long
        have hin : InI64 (i.toInt+step.toInt) := by
          by_contra hout
          have hi := in_toInt i
          have hs := in_toInt step
          have hb := in_toInt stop
          have hwrap : (i+step).toInt=wrap (i.toInt+step.toInt) := toInt_add i step
          have hagain : Ahead (i+step).toInt stop.toInt step.toInt := by
            rw [hwrap,wrap,Ahead]
            rw [Ahead] at hgo
            rw [InI64] at hi hs hb hout
            omega
          have hover : ¬Ahead (i.toInt+step.toInt) stop.toInt step.toInt := by
            rw [Ahead]
            rw [Ahead] at hgo
            rw [InI64] at hi hs hb hout
            omega
          have hnil : ys.map Int64.toInt=[] := hmap.2.trans (terms_nil h0 hover)
          cases fuel with
          | zero => cases hr
          | succ fuel =>
            rw [rangeWalk,if_pos ((ahead_toInt stop step _).mpr hagain)] at hr
            cases hz : rangeWalk stop step fuel (i+step+step) with
            | none =>
              rw [hz] at hr
              cases hr
            | some zs =>
              rw [hz] at hr
              cases hr
              cases hnil
        have hnext : (i+step).toInt=i.toInt+step.toInt := by rw [toInt_add,wrap_of_in hin]
        have hrec := ih (i+step) ys hr (by rw [hnext]; exact hmap.2)
        rw [hnext] at hrec
        right
        rw [count_cons hgo]
        cases hrec with
        | inl hzero =>
          rw [hzero,Nat.zero_add,Nat.cast_one,one_mul]
          exact hin
        | inr hlast =>
          have hsum : i.toInt+((count (i.toInt+step.toInt) stop.toInt step.toInt+1 : ℕ) : Int)*step.toInt=
              i.toInt+step.toInt+count (i.toInt+step.toInt) stop.toInt step.toInt*step.toInt := by
            push_cast
            ring
          rw [hsum]
          exact hlast
    · exact .inl (count_nil h0 hgo)

end Walking

section Searching

/-- The integer that an item of the search counts as. -/
def countsAs : Value → Option Int
  | .int n => some n.toInt
  | .bool b => some (boolInt b)
  | .float f => if f.isFinite=true ∧ f.toRat.den=1 then some f.toRat.num else none
  | _ => none

theorem toRat_whole {f : F64} (hd : f.toRat.den=1) : f.toRat=(f.toRat.num : Rat) := by
  conv_lhs => rw [← Rat.num_div_den f.toRat]
  rw [hd,Nat.cast_one,div_one]

/-- The conversion to `i64` and back tells the integers in range from the others, `2^63` apart. -/
theorem searched_float (f : F64) (hf : f.isFinite=true) (hd : f.toRat.den=1) :
    (InI64 f.toRat.num ∧ searched (.float f)=some (Int64.ofInt f.toRat.num)) ∨
    (f.toRat.num=2^63 ∧ searched (.float f)=some Int64.maxValue) ∨
    (¬InI64 f.toRat.num ∧ searched (.float f)=none) := by
  have hwhole := toRat_whole hd
  have hreach : searched (.float f)=if (F64.ofInt (floatAsI64 f)).eq f=false then none
      else some (Int64.ofInt (floatAsI64 f)) := by
    rw [searched,if_neg (by simp only [hf,hd]; decide)]
  have hclamp : floatAsI64 f=max (-2^63) (min f.toRat.num (2^63-1)) := by
    rw [floatAsI64,hd,Nat.cast_one,Int.tdiv_one]
  have hback (c : Int) : (F64.ofInt c).eq f=true ↔ (F64.ofInt c).key=f.key := by
    rw [F64.eq_comm,F64.eq_ofInt c f hf]
  by_cases hin : InI64 f.toRat.num
  · have hsame : floatAsI64 f=f.toRat.num := by
      rw [hclamp]
      rw [InI64] at hin
      omega
    have heq := (hback f.toRat.num).mpr (F64.ofInt_exact f.toRat.num f hf hwhole.symm)
    exact .inl ⟨hin,by rw [hreach,hsame,if_neg (by rw [heq]; decide)]⟩
  · by_cases hbig : 0≤f.toRat.num
    · have hmax : floatAsI64 f=2^63-1 := by
        rw [hclamp]
        rw [InI64] at hin
        omega
      by_cases heq : (F64.ofInt (2^63-1)).eq f=true
      · have hround : F64.ofInt (2^63-1)=F64.ofInt (2^63) := by decide
        have hexact : (F64.ofInt (2^63)).toRat=((2^63 : Int) : Rat) := by
          set_option maxRecDepth 20000 in with_unfolding_all decide
        have hkey := (hback _).mp heq
        rw [hround,← F64.toRat_eq,hexact,hwhole] at hkey
        have hnum : f.toRat.num=2^63 := by exact_mod_cast hkey.symm
        exact .inr (.inl ⟨hnum,by rw [hreach,hmax,if_neg (by rw [heq]; decide)]; rfl⟩)
      · exact .inr (.inr ⟨hin,by rw [hreach,hmax,if_pos (Bool.not_eq_true _ ▸ heq)]⟩)
    · have hmin : floatAsI64 f= -2^63 := by
        rw [hclamp]
        rw [InI64] at hin
        omega
      have hne : ¬(F64.ofInt (-2^63)).eq f=true := by
        intro heq
        have hexact : (F64.ofInt (-2^63)).toRat=((-2^63 : Int) : Rat) := by
          set_option maxRecDepth 20000 in with_unfolding_all decide
        have hkey := (hback _).mp heq
        rw [← F64.toRat_eq,hexact,hwhole] at hkey
        have hnum : -2^63=f.toRat.num := by exact_mod_cast hkey
        rw [InI64] at hin
        omega
      exact .inr (.inr ⟨hin,by rw [hreach,hmin,if_pos (Bool.not_eq_true _ ▸ hne)]⟩)

/-- What is searched for is what the item counts as, but for the float `2^63`. -/
theorem searched_spec (v : Value) :
    (∃ val,searched v=some val ∧
      (countsAs v=some val.toInt ∨ countsAs v=some (2^63) ∧ val=Int64.maxValue)) ∨
    (searched v=none ∧ ∀ n,countsAs v=some n → ¬InI64 n) := by
  cases v with
  | int n => exact .inl ⟨n,rfl,.inl rfl⟩
  | bool b => exact .inl ⟨boolI64 b,rfl,.inl (by rw [countsAs,boolI64_toInt])⟩
  | float f =>
    by_cases hfd : f.isFinite=true ∧ f.toRat.den=1
    · have hcounts : countsAs (.float f)=some f.toRat.num := by rw [countsAs,if_pos hfd]
      rw [hcounts]
      rcases searched_float f hfd.1 hfd.2 with ⟨hin,hs⟩|⟨hnum,hs⟩|⟨hout,hs⟩
      · refine .inl ⟨_,hs,.inl ?_⟩
        rw [Int64.toInt_ofInt_of_le (by exact hin.1) (by exact hin.2)]
      · exact .inl ⟨_,hs,.inr ⟨by rw [hnum],rfl⟩⟩
      · refine .inr ⟨hs,fun n hn => ?_⟩
        cases hn
        exact hout
    · have hcounts : countsAs (.float f)=none := by rw [countsAs,if_neg hfd]
      have hnone : searched (.float f)=none := by
        rw [searched,if_pos]
        by_cases hf : f.isFinite=true
        · exact .inr fun h => hfd ⟨hf,h⟩
        · exact .inl (Bool.not_eq_true _ ▸ hf)
      refine .inr ⟨hnone,fun n hn => ?_⟩
      rw [hcounts] at hn
      cases hn
  | _ => exact .inr ⟨rfl,by intro n hn; cases hn⟩

variable {start stop step : Int64}

theorem terms_in {n : Int} (h0 : step.toInt≠0) (h : n ∈ terms start.toInt stop.toInt step.toInt) :
    InI64 n := by
  have h1 := in_toInt start
  have h2 := in_toInt stop
  have hmem := ((mem_terms_iff h0 n).mp h).1
  rw [InI64] at *
  split_ifs at hmem <;> omega

theorem offset_in (hl : LengthFits start.toInt stop.toInt step.toInt) {val : Int64}
    (hb : if 0<step.toInt then start.toInt ≤ val.toInt ∧ val.toInt<stop.toInt
      else val.toInt ≤ start.toInt ∧ stop.toInt<val.toInt) :
    InI64 (val.toInt-start.toInt) ∧ val.toInt-start.toInt≠-2^63 := by
  have h3 := in_toInt step
  rw [LengthFits,extent] at hl
  simp only [InI64] at *
  split_ifs at hl hb <;> omega

theorem rangeContains_word (h0 : step.toInt≠0) (hl : LengthFits start.toInt stop.toInt step.toInt)
    (v : Value) (val : Int64) (hs : searched v=some val) :
    rangeContains start stop step v=some (decide (val.toInt ∈ terms start.toInt stop.toInt step.toInt)) := by
  have hne : step≠0 := fun h => h0 (by rw [h]; rfl)
  have hbounds : (if 0<step then start≤val ∧ val<stop else val ≤ start ∧ stop<val) ↔
      if 0<step.toInt then start.toInt ≤ val.toInt ∧ val.toInt<stop.toInt
        else val.toInt ≤ start.toInt ∧ stop.toInt<val.toInt := by
    simp only [Int64.lt_iff_toInt_lt,Int64.le_iff_toInt_le,Int64.toInt_zero]
  rw [rangeContains,hs]
  simp only [if_neg hne]
  by_cases hb : if 0<step.toInt then start.toInt ≤ val.toInt ∧ val.toInt<stop.toInt
      else val.toInt ≤ start.toInt ∧ stop.toInt<val.toInt
  · obtain ⟨hin,hmin⟩ := offset_in hl hb
    have hsub : (val-start).toInt=val.toInt-start.toInt := by rw [toInt_sub,wrap_of_in hin]
    have hcalm : ¬(val-start=Int64.minValue ∧ step=-1) := by
      rintro ⟨h,-⟩
      apply hmin
      rw [← hsub,h]
      rfl
    have hrem : (val-start)%step=0 ↔ step.toInt∣val.toInt-start.toInt := by
      rw [← Int64.toInt_inj,toInt_mod,hsub,Int64.toInt_zero,Int.dvd_iff_tmod_eq_zero]
    rw [if_pos (hbounds.mpr hb),if_neg hcalm]
    simp only [hrem,mem_terms_iff h0,hb,true_and]
  · rw [if_neg (fun h => hb (hbounds.mp h))]
    simp only [mem_terms_iff h0,hb,false_and,decide_false]

/-- The float `2^63` is taken for the largest `i64`, which a range that starts there and descends holds. -/
def FloatEdge (start stop step : Int) : Prop := start=2^63-1 ∧ step<0 ∧ stop<start

instance (start stop step : Int) : Decidable (FloatEdge start stop step) :=
  inferInstanceAs (Decidable (_ ∧ _))

theorem rangeContains_exact (h0 : step.toInt≠0) (hl : LengthFits start.toInt stop.toInt step.toInt)
    (hedge : ¬FloatEdge start.toInt stop.toInt step.toInt) (v : Value) :
    rangeContains start stop step v=
      some (decide (∃ n ∈ terms start.toInt stop.toInt step.toInt,countsAs v=some n)) := by
  rcases searched_spec v with ⟨val,hs,hval⟩|⟨hs,hout⟩
  · rw [rangeContains_word h0 hl v val hs]
    cases hval with
    | inl hsame =>
      simp only [hsame,Option.some.injEq,exists_eq_right']
    | inr hbig =>
      have hleft : val.toInt ∉ terms start.toInt stop.toInt step.toInt := by
        intro hmem
        have hb := ((mem_terms_iff h0 _).mp hmem).1
        have hmax : val.toInt=2^63-1 := by rw [hbig.2]; rfl
        have h1 := in_toInt start
        have h2 := in_toInt stop
        rw [FloatEdge] at hedge
        rw [InI64] at h1 h2
        split_ifs at hb <;> omega
      have hright : ¬∃ n ∈ terms start.toInt stop.toInt step.toInt,countsAs v=some n := by
        rintro ⟨n,hn,hc⟩
        rw [hbig.1] at hc
        cases hc
        have hin := terms_in h0 hn
        rw [InI64] at hin
        omega
      simp only [hleft,hright]
  · have hright : ¬∃ n ∈ terms start.toInt stop.toInt step.toInt,countsAs v=some n := by
      rintro ⟨n,hn,hc⟩
      exact hout n hc (terms_in h0 hn)
    simp only [rangeContains,hs,hright,decide_false]

/-- The float that is taken for the largest `i64`. -/
theorem rangeContains_edge (h : FloatEdge start.toInt stop.toInt step.toInt) :
    rangeContains start stop step (.float (F64.ofInt (2^63)))=some true := by
  obtain ⟨h1,h2,h3⟩ := h
  have hs : searched (.float (F64.ofInt (2^63)))=some Int64.maxValue := by
    set_option maxRecDepth 20000 in with_unfolding_all decide
  have hstart : start=Int64.maxValue := Int64.toInt_inj.mp (by rw [h1]; rfl)
  have hneg : ¬0<step := fun hp => by
    have hlt : 0<step.toInt := Int64.lt_iff_toInt_lt.mp hp
    omega
  have hne : ¬step=0 := fun hz => by
    rw [hz,Int64.toInt_zero] at h2
    omega
  have hbound : Int64.maxValue ≤ start ∧ stop<Int64.maxValue := by
    rw [hstart] at h3 ⊢
    exact ⟨Int64.le_refl _,Int64.lt_iff_toInt_lt.mpr h3⟩
  have hzero : Int64.maxValue-start=0 := by rw [hstart]; decide
  rw [rangeContains,hs]
  simp only [if_neg hne,if_neg hneg,if_pos hbound,hzero]
  rw [if_neg (fun hc => absurd hc.1 (by decide))]
  have hrem : (0 : Int64)%step=0 := by
    rw [← Int64.toInt_inj,toInt_mod,Int64.toInt_zero,Int.zero_tmod]
  rw [decide_eq_true hrem]

end Searching

section Indexing

variable {start stop step : Int64}

theorem quotient_le {n d : Int} (hd : 0<d) : ((n/d).toNat : Int) ≤ max n 0 := by
  by_cases hn : 0≤ n
  · have hself := Int.ediv_le_self d hn
    omega
  · have hneg : n/d<0 := Int.ediv_neg_of_neg_of_pos (by omega) hd
    omega

theorem count_in (h0 : step.toInt≠0) (hl : LengthFits start.toInt stop.toInt step.toInt) :
    (count start.toInt stop.toInt step.toInt : Int)<2^63 := by
  have h3 := in_toInt step
  rw [InI64] at h3
  rw [LengthFits,extent] at hl
  by_cases hs : 0<step.toInt
  · rw [if_neg (by omega),if_pos hs,InI64] at hl
    have hquot := quotient_le (n := stop.toInt-start.toInt+step.toInt-1) hs
    rw [count,if_pos hs]
    omega
  · have hquot := quotient_le (n := start.toInt-stop.toInt-step.toInt-1) (show 0< -step.toInt by omega)
    rw [count,if_neg hs]
    by_cases hmin : step.toInt=-2^63
    · rw [if_pos hmin,if_neg hs] at hl
      rw [hmin,neg_neg]
      omega
    · rw [if_neg hmin,if_neg hs,InI64] at hl
      omega

theorem index_in (hs : step.toInt≠0) {k : ℕ} (hk : k<count start.toInt stop.toInt step.toInt) :
    InI64 (start.toInt+k*step.toInt) :=
  terms_in hs (List.mem_map.mpr ⟨k,List.mem_range.mpr hk,rfl⟩)

theorem item_toInt (hs : step.toInt≠0) {k : ℕ} (hk : k<count start.toInt stop.toInt step.toInt)
    (hsmall : k<2^63) : (start+Int64.ofNat k*step).toInt=start.toInt+k*step.toInt := by
  have hword : (Int64.ofNat k).toInt=k := Int64.toInt_ofNat_of_lt hsmall
  rw [toInt_add,toInt_mul,hword,add_comm,wrap_wrap_add,add_comm,wrap_of_in (index_in hs hk)]

def place (len raw : Int) : ℕ := (if raw<0 then raw+len else raw).toNat

theorem rangeGetItem_exact (h0 : step≠0) (hl : LengthFits start.toInt stop.toInt step.toInt)
    {index : Value} {raw : Int64} (hraw : intIndex index "range"=.ok raw)
    (hlow : -(count start.toInt stop.toInt step.toInt : Int)≤ raw.toInt)
    (hhigh : raw.toInt<count start.toInt stop.toInt step.toInt) :
    ∃ w,rangeGetItem start stop step index=.ok (.int w) ∧
      w.toInt=start.toInt+place (count start.toInt stop.toInt step.toInt) raw.toInt*step.toInt := by
  have hne : step.toInt≠0 := fun h => h0 (Int64.toInt_inj.mp h)
  have hlen := (length_iff start stop step h0).mpr hl
  have hcount := count_in hne hl
  have hword : (Int64.ofNat (count start.toInt stop.toInt step.toInt)).toInt=
      count start.toInt stop.toInt step.toInt := Int64.toInt_ofNat_of_lt (by omega)
  have hplace : place (count start.toInt stop.toInt step.toInt) raw.toInt<
      count start.toInt stop.toInt step.toInt := by
    rw [place]
    split_ifs <;> omega
  have hadjusted : (if raw<0 then Int64.ofNat (count start.toInt stop.toInt step.toInt)+raw else raw).toInt=
      place (count start.toInt stop.toInt step.toInt) raw.toInt := by
    rw [place]
    by_cases hneg : raw.toInt<0
    · rw [if_pos (Int64.lt_iff_toInt_lt.mpr hneg),if_pos hneg,toInt_add,hword,
        wrap_of_in ⟨by omega,by omega⟩]
      omega
    · rw [if_neg (fun h => hneg (Int64.lt_iff_toInt_lt.mp h)),if_neg hneg]
      omega
  have hnorm : normalizeSeqIndex raw (rangeLength start stop step) "range object"=
      .ok (place (count start.toInt stop.toInt step.toInt) raw.toInt) := by
    rw [normalizeSeqIndex,hlen,if_neg (by omega)]
    simp only [Int64.lt_iff_toInt_lt,Int64.le_iff_toInt_le,Int64.toInt_zero] at hadjusted ⊢
    rw [hadjusted,hword,if_neg (by omega),Int.toNat_natCast]
  refine ⟨_,?_,item_toInt hne hplace (by omega)⟩
  rw [rangeGetItem]
  simp only [hraw,hnorm,bind,Except.bind]
  rw [if_neg (by omega)]
  rfl

theorem isTruthy_exact (h0 : step≠0) :
    isTruthy start stop step=decide (0<count start.toInt stop.toInt step.toInt) := by
  have hne : step.toInt≠0 := fun h => h0 (Int64.toInt_inj.mp h)
  have hahead : Ahead start.toInt stop.toInt step.toInt ↔ _ := ahead_iff hne
  rw [isTruthy]
  by_cases hs : 0<step
  · have hpos : 0<step.toInt := Int64.lt_iff_toInt_lt.mp hs
    rw [if_pos hs,decide_eq_decide,← hahead,Ahead,Int64.lt_iff_toInt_lt]
    omega
  · have hneg : ¬0<step.toInt := fun h => hs (Int64.lt_iff_toInt_lt.mpr h)
    rw [if_neg hs,decide_eq_decide,← hahead,Ahead,Int64.lt_iff_toInt_lt]
    omega

end Indexing

/-- A range that all five functions take for the same arithmetic progression. -/
structure Progresses (start stop step : Int64) : Prop where
  length : rangeLength start stop step=count start.toInt stop.toInt step.toInt
  iter : (count start.toInt stop.toInt step.toInt : Int) ≤ maxCollectionSize →
    ∃ fuel xs,rangeIter start stop step fuel=some (.ok xs) ∧
      xs.map Int64.toInt=terms start.toInt stop.toInt step.toInt
  getItem : ∀ (index : Value) (raw : Int64),intIndex index "range"=.ok raw →
    -(count start.toInt stop.toInt step.toInt : Int)≤ raw.toInt →
    raw.toInt<count start.toInt stop.toInt step.toInt →
    ∃ w,rangeGetItem start stop step index=.ok (.int w) ∧
      w.toInt=start.toInt+place (count start.toInt stop.toInt step.toInt) raw.toInt*step.toInt
  contains : ∀ v,rangeContains start stop step v=
    some (decide (∃ n ∈ terms start.toInt stop.toInt step.toInt,countsAs v=some n))
  truthy : isTruthy start stop step=decide (0<count start.toInt stop.toInt step.toInt)

/-- The length is computed without a wrap, the step after the last term of a range short enough to list stays in `i64`, and the range does not descend from the largest `i64`. -/
def Regular (start stop step : Int) : Prop :=
  LengthFits start stop step ∧
  ((count start stop step : Int) ≤ maxCollectionSize → Ahead start stop step →
    InI64 (start+count start stop step*step)) ∧
  ¬FloatEdge start stop step

theorem progresses_iff (start stop step : Int64) (h0 : step≠0) :
    Progresses start stop step ↔ Regular start.toInt stop.toInt step.toInt := by
  have hne : step.toInt≠0 := fun h => h0 (Int64.toInt_inj.mp h)
  have hahead : Ahead start.toInt stop.toInt step.toInt ↔ _ := ahead_iff hne
  have hcount := rangeCount_eq start stop step h0
  constructor
  · intro h
    refine ⟨(length_iff start stop step h0).mp h.length,?_,?_⟩
    · intro hmax hgo
      obtain ⟨fuel,xs,hxs,hmap⟩ := h.iter hmax
      rw [rangeIter] at hxs
      simp only [hcount,if_neg (not_lt.mpr hmax)] at hxs
      cases hw : rangeWalk stop step fuel start with
      | none =>
        rw [hw] at hxs
        cases hxs
      | some ys =>
        rw [hw] at hxs
        cases hxs
        have hpos := hahead.mp hgo
        exact (rangeWalk_last stop step hne fuel start xs hw hmap).resolve_left (by omega)
    · intro hedge
      have htrue := rangeContains_edge hedge
      rw [h.contains] at htrue
      have hmem := of_decide_eq_true (Option.some.inj htrue)
      obtain ⟨n,hn,hc⟩ := hmem
      have hbig : countsAs (.float (F64.ofInt (2^63)))=some (2^63) := by
        set_option maxRecDepth 20000 in with_unfolding_all decide
      rw [hbig] at hc
      cases hc
      have hin := terms_in hne hn
      rw [InI64] at hin
      omega
  · rintro ⟨hl,hlast,hedge⟩
    constructor
    · exact (length_iff start stop step h0).mpr hl
    · intro hmax
      have hend : count start.toInt stop.toInt step.toInt=0 ∨
          InI64 (start.toInt+count start.toInt stop.toInt step.toInt*step.toInt) := by
        by_cases hgo : Ahead start.toInt stop.toInt step.toInt
        · exact .inr (hlast hmax hgo)
        · exact .inl (count_nil hne hgo)
      obtain ⟨xs,hxs,hmap⟩ := rangeWalk_terms stop step hne _ start rfl hend
      refine ⟨count start.toInt stop.toInt step.toInt+1,xs,?_,hmap⟩
      rw [rangeIter]
      simp only [hcount,if_neg (not_lt.mpr hmax)]
      rw [hxs]
      rfl
    · exact fun index raw hraw hlow hhigh => rangeGetItem_exact h0 hl hraw hlow hhigh
    · exact rangeContains_exact hne hl hedge
    · exact isTruthy_exact h0

/-- `range(10,0,-3)`. -/
theorem countdown_progresses : Progresses 10 0 (-3) :=
  (progresses_iff 10 0 (-3) (by decide)).mpr ⟨by decide,fun _ _ => by decide,by decide⟩

/-- The distance wraps to `-1` and the range that holds almost every `i64` has length zero. -/
theorem widest_empty : ¬Progresses Int64.minValue Int64.maxValue 1 := by
  intro h
  have hlen := h.length
  revert hlen
  decide

end InterpretThis.Ranges
