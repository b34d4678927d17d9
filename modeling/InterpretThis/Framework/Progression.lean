import Mathlib.Data.List.Range
import Mathlib.Tactic.Linarith
import Mathlib.Tactic.Ring

namespace InterpretThis.Progression

/-- The number of terms from `start` on that lie before `stop`. -/
def count (start stop step : Int) : Nat :=
  if 0<step then ((stop-start+step-1)/step).toNat else ((start-stop-step-1)/(-step)).toNat

/-- The terms of an arithmetic progression before `stop`. -/
def terms (start stop step : Int) : List Int :=
  (List.range (count start stop step)).map fun k : Nat => start+(k : Int)*step

@[simp] theorem length_terms (start stop step : Int) :
    (terms start stop step).length=count start stop step := by
  simp [terms]

section Up

variable {start stop step : Int}

theorem count_up_nil (hs : 0<step) (h : stop ≤ start) : count start stop step=0 := by
  unfold count
  rw [if_pos hs]
  have hlt : (stop-start+step-1)/step<1 := Int.ediv_lt_of_lt_mul hs (by omega)
  omega

theorem count_up_cons (hs : 0<step) (h : start<stop) :
    count start stop step=count (start+step) stop step+1 := by
  unfold count
  rw [if_pos hs,if_pos hs]
  have hstep : (stop-start+step-1)/step=(stop-(start+step)+step-1)/step+1 := by
    rw [← Int.add_mul_ediv_right _ 1 hs.ne']
    congr 1
    ring
  have hnonneg : 0 ≤ (stop-(start+step)+step-1)/step := Int.ediv_nonneg (by omega) hs.le
  omega

theorem terms_of_count (n : Nat) (h : count start stop step=n+1)
    (h' : count (start+step) stop step=n) :
    terms start stop step=start::terms (start+step) stop step := by
  unfold terms
  rw [h,h',List.range_succ_eq_map]
  simp only [List.map_cons,List.map_map]
  congr 1
  · simp
  · refine List.map_congr_left fun k _ => ?_
    simp only [Function.comp,Nat.succ_eq_add_one]
    push_cast
    ring

theorem terms_up_nil (hs : 0<step) (h : stop ≤ start) : terms start stop step=[] := by
  unfold terms
  rw [count_up_nil hs h]
  rfl

theorem terms_up_cons (hs : 0<step) (h : start<stop) :
    terms start stop step=start::terms (start+step) stop step :=
  terms_of_count _ (count_up_cons hs h) rfl

theorem mem_terms_up (hs : 0<step) {i : Int} (h : i ∈ terms start stop step) :
    start ≤ i ∧ i<stop := by
  obtain ⟨k,hk,rfl⟩ := List.mem_map.mp h
  rw [List.mem_range] at hk
  unfold count at hk
  rw [if_pos hs] at hk
  have hnat : (0 : Int) ≤ k := Int.natCast_nonneg k
  have hle : (k : Int)+1 ≤ (stop-start+step-1)/step := by omega
  have hmul := (Int.le_ediv_iff_mul_le hs).mp hle
  have hprod : 0 ≤ (k : Int)*step := mul_nonneg hnat hs.le
  constructor
  · omega
  · nlinarith

end Up

section Down

variable {start stop step : Int}

theorem count_neg (hs : step<0) : count start stop step=count (-start) (-stop) (-step) := by
  unfold count
  rw [if_neg (by omega),if_pos (by omega)]
  congr 2
  ring

theorem terms_neg (hs : step<0) :
    terms start stop step=(terms (-start) (-stop) (-step)).map fun i => -i := by
  unfold terms
  rw [count_neg hs,List.map_map]
  refine List.map_congr_left fun k _ => ?_
  simp only [Function.comp]
  ring

theorem terms_down_nil (hs : step<0) (h : start ≤ stop) : terms start stop step=[] := by
  rw [terms_neg hs,terms_up_nil (by omega) (by omega)]
  rfl

theorem terms_down_cons (hs : step<0) (h : stop<start) :
    terms start stop step=start::terms (start+step) stop step := by
  rw [terms_neg hs,terms_up_cons (by omega) (by omega),terms_neg hs]
  simp only [List.map_cons,neg_neg,neg_add]

theorem mem_terms_down (hs : step<0) {i : Int} (h : i ∈ terms start stop step) :
    stop < i ∧ i ≤ start := by
  rw [terms_neg hs] at h
  obtain ⟨j,hj,rfl⟩ := List.mem_map.mp h
  have := mem_terms_up (by omega) hj
  omega

end Down

theorem pairwise_terms_up {start stop step : Int} (hs : 0<step) :
    (terms start stop step).Pairwise (· < ·) := by
  unfold terms
  rw [List.pairwise_map]
  refine List.pairwise_lt_range.imp fun {a b} hab => ?_
  have : ((a : Int)+1)*step ≤ b*step := mul_le_mul_of_nonneg_right (by omega) hs.le
  nlinarith

theorem pairwise_terms_down {start stop step : Int} (hs : step<0) :
    (terms start stop step).Pairwise (· > ·) := by
  rw [terms_neg hs,List.pairwise_map]
  refine (pairwise_terms_up (by omega)).imp fun {a b} hab => ?_
  omega

section Either

variable {start stop step : Int}

/-- The terms have not come to `stop` yet. -/
def Ahead (start stop step : Int) : Prop := 0<step ∧ start<stop ∨ step<0 ∧ stop<start

instance : Decidable (Ahead start stop step) := inferInstanceAs (Decidable (_ ∨ _))

theorem count_nil (h0 : step≠0) (h : ¬Ahead start stop step) : count start stop step=0 := by
  rw [Ahead] at h
  by_cases hs : 0<step
  · exact count_up_nil hs (by omega)
  · rw [count_neg (by omega),count_up_nil (by omega) (by omega)]

theorem count_cons (h : Ahead start stop step) :
    count start stop step=count (start+step) stop step+1 := by
  cases h with
  | inl h => exact count_up_cons h.1 h.2
  | inr h =>
    rw [count_neg h.1,count_up_cons (by omega) (by omega),count_neg h.1,neg_add]

theorem ahead_iff (h0 : step≠0) : Ahead start stop step ↔ 0<count start stop step := by
  constructor
  · intro h
    rw [count_cons h]
    exact Nat.succ_pos _
  · intro h
    by_contra hn
    rw [count_nil h0 hn] at h
    exact Nat.lt_irrefl 0 h

theorem terms_nil (h0 : step≠0) (h : ¬Ahead start stop step) : terms start stop step=[] := by
  rw [terms,count_nil h0 h]
  rfl

theorem terms_cons (h : Ahead start stop step) :
    terms start stop step=start::terms (start+step) stop step :=
  terms_of_count _ (count_cons h) rfl

theorem mem_terms_up_iff (hs : 0<step) (i : Int) :
    i ∈ terms start stop step ↔ (start ≤ i ∧ i<stop) ∧ step∣i-start := by
  constructor
  · intro h
    refine ⟨mem_terms_up hs h,?_⟩
    obtain ⟨k,-,rfl⟩ := List.mem_map.mp h
    exact ⟨k,by ring⟩
  · rintro ⟨⟨hle,hlt⟩,⟨k,hk⟩⟩
    have hnonneg : 0 ≤ k := by
      by_contra hneg
      have hprod : step*k<0 := mul_neg_of_pos_of_neg hs (by omega)
      omega
    have hcount : k+1 ≤ (stop-start+step-1)/step := by
      rw [Int.le_ediv_iff_mul_le hs,add_mul,one_mul,mul_comm k]
      omega
    refine List.mem_map.mpr ⟨k.toNat,?_,?_⟩
    · rw [List.mem_range,count,if_pos hs]
      omega
    · rw [Int.toNat_of_nonneg hnonneg,mul_comm,← hk]
      omega

theorem mem_terms_iff (h0 : step≠0) (i : Int) :
    i ∈ terms start stop step ↔
      (if 0<step then start ≤ i ∧ i<stop else i ≤ start ∧ stop < i) ∧ step∣i-start := by
  by_cases hs : 0<step
  · rw [if_pos hs,mem_terms_up_iff hs]
  · have hneg : step<0 := by omega
    have hmem : i ∈ terms start stop step ↔ -i ∈ terms (-start) (-stop) (-step) := by
      rw [terms_neg hneg,List.mem_map]
      constructor
      · rintro ⟨j,hj,rfl⟩
        rwa [neg_neg]
      · exact fun h => ⟨-i,h,neg_neg i⟩
    rw [hmem,mem_terms_up_iff (by omega),if_neg hs,Int.neg_dvd,← Int.dvd_neg]
    have hdiff : -(-i- -start)=i-start := by ring
    rw [hdiff]
    constructor
    · rintro ⟨⟨h1,h2⟩,hd⟩
      exact ⟨⟨by omega,by omega⟩,hd⟩
    · rintro ⟨⟨h1,h2⟩,hd⟩
      exact ⟨⟨by omega,by omega⟩,hd⟩

theorem ahead_scale {c d t b e : Int} (hd : d≠0) :
    Ahead (c+b*d) (c+e*d) (d*t) ↔ Ahead b e t := by
  rw [Ahead,Ahead]
  rcases lt_or_gt_of_ne hd with hneg | hpos
  · have hlt : ∀ x y : Int,c+x*d<c+y*d ↔ y<x := fun x y => by
      rw [add_lt_add_iff_left,mul_lt_mul_right_of_neg hneg]
    have hup : 0<d*t ↔ t<0 := by
      rw [mul_pos_iff]
      omega
    have hdown : d*t<0 ↔ 0<t := by
      rw [mul_neg_iff]
      omega
    rw [hlt,hlt,hup,hdown,or_comm]
  · have hlt : ∀ x y : Int,c+x*d<c+y*d ↔ x<y := fun x y => by
      rw [add_lt_add_iff_left,mul_lt_mul_iff_left₀ hpos]
    have hup : 0<d*t ↔ 0<t := mul_pos_iff_of_pos_left hpos
    have hdown : d*t<0 ↔ t<0 := by
      rw [mul_neg_iff]
      omega
    rw [hlt,hlt,hup,hdown]

theorem terms_scale {c d t e : Int} (hd : d≠0) (ht : t≠0) (b : Int) :
    terms (c+b*d) (c+e*d) (d*t)=(terms b e t).map fun p => c+p*d := by
  induction hn : count b e t generalizing b with
  | zero =>
    have hb : ¬Ahead b e t := fun h => by
      have hpos := (ahead_iff ht).mp h
      omega
    rw [terms_nil ht hb,terms_nil (mul_ne_zero hd ht) fun h => hb ((ahead_scale hd).mp h)]
    rfl
  | succ n ih =>
    have hb : Ahead b e t := (ahead_iff ht).mpr (by omega)
    have hcons := count_cons hb
    have hnext : c+b*d+d*t=c+(b+t)*d := by ring
    rw [terms_cons hb,terms_cons ((ahead_scale hd).mpr hb),hnext,ih (b+t) (by omega)]
    rfl

end Either

end InterpretThis.Progression
