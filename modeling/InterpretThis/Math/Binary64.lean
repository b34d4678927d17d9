import Mathlib.Data.Rat.Cast.Order
import Mathlib.Algebra.Order.Ring.Rat
import Mathlib.Order.Monotone.Basic
import Mathlib.Data.Nat.Log
import Mathlib.Tactic.Ring
import Mathlib.Tactic.Linarith
import Mathlib.Tactic.Positivity
import Mathlib.Tactic.FieldSimp
import Mathlib.Data.Int.ConditionallyCompleteOrder

namespace InterpretThis

/-- An IEEE 754 binary64 value, as its bit pattern. -/
@[ext] structure F64 where
  bits : UInt64
  deriving DecidableEq

namespace F64

def mag (f : F64) : Nat := f.bits.toNat%2^63

def isNegative (f : F64) : Bool := decide (2^63≤f.bits.toNat)

def infMag : Nat := 2047*2^52

def isNan (f : F64) : Bool := decide (infMag<f.mag)

def isInfinite (f : F64) : Bool := decide (f.mag=infMag)

def isFinite (f : F64) : Bool := decide (f.mag < infMag)

def key (f : F64) : Int := if f.isNegative then -(f.mag : Int) else f.mag

/-- `a == b` on `f64`. -/
def eq (a b : F64) : Bool := !a.isNan&&!b.isNan&&decide (a.key=b.key)

/-- `a < b` on `f64`. -/
def lt (a b : F64) : Bool := !a.isNan&&!b.isNan&&decide (a.key<b.key)

def grid : Nat := 2^1074

/-- The magnitude in units of `2^-1074`. -/
def units (m : Nat) : Nat := if m<2^52 then m else (2^52+m%2^52)*2^(m/2^52-1)

def sign (f : F64) : Int := if f.isNegative then -1 else 1

def toRat (f : F64) : Rat := (f.sign : Rat)*(units f.mag : Rat)/grid

def ofMag (negative : Bool) (m : Nat) : F64 := ⟨UInt64.ofNat (if negative then 2^63+m else m)⟩

/-- Drop the `s` low bits of `n`, rounding to nearest, ties to even. -/
def shiftRound (n s : Nat) : Nat :=
  n/2^s+(if 2^(s-1)<n%2^s ∨ (n%2^s=2^(s-1) ∧ n/2^s%2=1) then 1 else 0)

/-- The magnitude pattern nearest to a natural number. A mantissa that rounds up to `2^53`
carries into the exponent field. -/
def roundMag (n : Nat) : Nat :=
  if n=0 then 0
  else if Nat.log 2 n≤52 then (Nat.log 2 n+1023)*2^52+(n*2^(52-Nat.log 2 n)-2^52)
  else (Nat.log 2 n+1023)*2^52+(shiftRound n (Nat.log 2 n-52)-2^52)

/-- `n as f64` and `BigInt::to_f64`: round to nearest, overflow to infinity. -/
def ofInt (n : Int) : F64 := ofMag (decide (n<0)) (min (roundMag n.natAbs) infMag)

def zero : F64 := ⟨0⟩

def one : F64 := ⟨0x3FF0000000000000⟩

section Order

theorem key_natAbs (f : F64) : f.key.natAbs=f.mag := by
  unfold key
  split_ifs <;> simp

theorem units_step (m : Nat) : units m<units (m+1) := by
  unfold units
  by_cases low : m+1<2^52
  · rw [if_pos (by omega),if_pos low]
    omega
  · rw [if_neg low]
    by_cases edge : m<2^52
    · have hm : m+1=2^52 := by omega
      rw [if_pos edge,hm]
      norm_num
      omega
    · rw [if_neg edge]
      have hd := Nat.div_add_mod m (2^52)
      have hr := Nat.mod_lt m (show 0<2^52 by positivity)
      by_cases carry : m%2^52+1<2^52
      · have hdiv : (m+1)/2^52=m/2^52 := by omega
        have hmod : (m+1)%2^52=m%2^52+1 := by omega
        rw [hdiv,hmod]
        apply Nat.mul_lt_mul_of_pos_right _ (by positivity)
        omega
      · have hdiv : (m+1)/2^52=m/2^52+1 := by omega
        have hmod : (m+1)%2^52=0 := by omega
        have hexp : m/2^52+1-1=(m/2^52-1)+1 := by omega
        have hp : 0<2^(m/2^52-1) := by positivity
        rw [hdiv,hmod,hexp,pow_succ 2 (m/2^52-1)]
        calc (2^52+m%2^52)*2^(m/2^52-1)
            <(2^52*2)*2^(m/2^52-1) := Nat.mul_lt_mul_of_pos_right (by omega) hp
          _=(2^52+0)*(2^(m/2^52-1)*2) := by ring

theorem units_strictMono : StrictMono units := strictMono_nat_of_lt_succ units_step

theorem units_zero : units 0=0 := rfl

theorem toRat_eq_units (f : F64) : f.toRat=((f.key.sign*units f.key.natAbs : Int) : Rat)/grid := by
  rw [key_natAbs]
  have hs : (f.sign : Rat)*(units f.mag : Rat)=((f.key.sign*units f.mag : Int) : Rat) := by
    unfold sign key
    by_cases hm : f.mag=0
    · simp [hm,units_zero]
    · have hp : 0<(f.mag : Int) := by omega
      split_ifs
      · rw [Int.sign_neg,Int.sign_eq_one_of_pos hp]
        push_cast
        ring
      · rw [Int.sign_eq_one_of_pos hp]
        push_cast
        ring
  unfold toRat
  rw [hs]

def scaled (k : Int) : Int := k.sign*units k.natAbs

theorem scaled_strictMono : StrictMono scaled := by
  intro a b hab
  unfold scaled
  have pos : ∀n : Nat,0 < n → 0<units n := by
    intro n hn
    have := units_strictMono hn
    omega
  rcases lt_trichotomy a 0 with ha|ha|ha
  · have ua := pos a.natAbs (by omega)
    rw [Int.sign_eq_neg_one_of_neg ha]
    rcases lt_trichotomy b 0 with hb|hb|hb
    · have mono := units_strictMono (show b.natAbs<a.natAbs by omega)
      rw [Int.sign_eq_neg_one_of_neg hb]
      omega
    · rw [hb]
      simp
      omega
    · have ub := pos b.natAbs (by omega)
      rw [Int.sign_eq_one_of_pos hb]
      omega
  · have hb : 0<b := by omega
    have ub := pos b.natAbs (by omega)
    rw [ha,Int.sign_zero,Int.sign_eq_one_of_pos hb]
    omega
  · have mono := units_strictMono (show a.natAbs<b.natAbs by omega)
    rw [Int.sign_eq_one_of_pos ha,Int.sign_eq_one_of_pos (by omega)]
    omega

theorem toRat_scaled (f : F64) : f.toRat=(scaled f.key : Rat)/grid := toRat_eq_units f

theorem grid_pos : 0<grid := by
  unfold grid
  exact Nat.two_pow_pos _

theorem grid_cast_pos : (0 : Rat)<grid := Nat.cast_pos.mpr grid_pos

theorem grid_def : grid=2^1074 := by rw [grid]

theorem pow_grid (e : Nat) : 2^(e+1074)=2^e*grid := pow_add 2 e 1074

theorem toRat_lt (a b : F64) : a.toRat<b.toRat ↔ a.key<b.key := by
  rw [toRat_scaled,toRat_scaled,div_lt_div_iff_of_pos_right grid_cast_pos,Int.cast_lt]
  exact scaled_strictMono.lt_iff_lt

theorem toRat_eq (a b : F64) : a.toRat=b.toRat ↔ a.key=b.key := by
  rw [toRat_scaled,toRat_scaled,div_left_inj' (ne_of_gt grid_cast_pos),Int.cast_inj]
  exact scaled_strictMono.injective.eq_iff

theorem scaled_zero : scaled 0=0 := by simp [scaled]

theorem toRat_neg (f : F64) : f.toRat<0 ↔ f.key<0 := by
  rw [toRat_scaled,div_lt_iff₀ grid_cast_pos,zero_mul,Int.cast_lt_zero]
  nth_rewrite 1 [← scaled_zero]
  exact scaled_strictMono.lt_iff_lt

theorem toRat_zero (f : F64) (h : f.mag=0) : f.toRat=0 := by
  rw [toRat,h,units_zero,Nat.cast_zero,mul_zero,zero_div]

theorem isNan_of_finite (f : F64) (h : f.isFinite=true) : f.isNan=false := by
  simp only [isFinite,isNan,decide_eq_true_eq,decide_eq_false_iff_not] at *
  omega

theorem eq_iff (a b : F64) (ha : a.isFinite=true) (hb : b.isFinite=true) :
    a.eq b=true ↔ a.toRat=b.toRat := by
  rw [toRat_eq,eq,isNan_of_finite a ha,isNan_of_finite b hb]
  simp

theorem lt_iff (a b : F64) (ha : a.isFinite=true) (hb : b.isFinite=true) :
    a.lt b=true ↔ a.toRat<b.toRat := by
  rw [toRat_lt,lt,isNan_of_finite a ha,isNan_of_finite b hb]
  simp

end Order

section Rounding

private theorem exp_sum (l : Nat) (h : l≤52) : 52-l+(l+1022)=1074 := by omega

/-- The pattern below a natural number that is not too small: exact up to one unit of the
last place, and the next pattern lies above. -/
theorem round_bracket (n : Nat) (hn : n≠0) :
    ∃low,units low≤n*grid ∧ n*grid<units (low+1) ∧
      (roundMag n=low ∨ (roundMag n=low+1 ∧ units low<n*grid)) := by
  have hlow := Nat.pow_log_le_self 2 hn
  have hhigh := Nat.lt_pow_succ_log_self (b := 2) (by omega) n
  -- a pattern with exponent field `e+1` and 53-bit mantissa `q` has `q*2^e` units
  have value : ∀e q : Nat,2^52≤q → q<2^53 → units ((e+1)*2^52+(q-2^52))=q*2^e := by
    intro e q h₁ h₂
    have hd : ((e+1)*2^52+(q-2^52))/2^52=e+1 := by omega
    have hm : ((e+1)*2^52+(q-2^52))%2^52=q-2^52 := by omega
    unfold units
    rw [if_neg (by omega),hd,hm,Nat.add_sub_cancel,show 2^52+(q-2^52)=q by omega]
  have next : ∀e q : Nat,2^52≤q → q<2^53 → units ((e+1)*2^52+(q-2^52)+1)=(q+1)*2^e := by
    intro e q h₁ h₂
    by_cases top : q+1<2^53
    · have hi : (e+1)*2^52+(q-2^52)+1=(e+1)*2^52+(q+1-2^52) := by omega
      rw [hi]
      exact value e (q+1) (by omega) top
    · have := value (e+1) (2^52) (le_refl _) (by norm_num)
      have hq : q+1=2^53 := by omega
      have hi : (e+1)*2^52+(q-2^52)+1=(e+1+1)*2^52+(2^52-2^52) := by omega
      rw [hi,this,hq,pow_succ 2 e]
      ring
  unfold roundMag
  rw [if_neg hn]
  by_cases small : Nat.log 2 n≤52
  · have hq₁ : 2^52≤n*2^(52-Nat.log 2 n) := by
      calc 2^52=2^Nat.log 2 n*2^(52-Nat.log 2 n) := by rw [← pow_add]; congr 1; omega
        _≤n*2^(52-Nat.log 2 n) := Nat.mul_le_mul_right _ hlow
    have hq₂ : n*2^(52-Nat.log 2 n)<2^53 := by
      calc n*2^(52-Nat.log 2 n)<2^(Nat.log 2 n+1)*2^(52-Nat.log 2 n) :=
            Nat.mul_lt_mul_of_pos_right hhigh (by positivity)
        _=2^53 := by rw [← pow_add]; congr 1; omega
    have hexp : Nat.log 2 n+1023=(Nat.log 2 n+1022)+1 := by omega
    have hval : n*2^(52-Nat.log 2 n)*2^(Nat.log 2 n+1022)=n*grid := by
      have he : 52-Nat.log 2 n+(Nat.log 2 n+1022)=1074 := exp_sum _ small
      have hp : 2^(52-Nat.log 2 n)*2^(Nat.log 2 n+1022)=grid := by
        rw [← pow_add,he]
        exact grid_def.symm
      rw [Nat.mul_assoc,hp]
    refine ⟨(Nat.log 2 n+1023)*2^52+(n*2^(52-Nat.log 2 n)-2^52),?_,?_,.inl ?_⟩
    · rw [hexp,value _ _ hq₁ hq₂,hval]
    · rw [hexp,next _ _ hq₁ hq₂,← hval]
      apply Nat.mul_lt_mul_of_pos_right (by omega) (by positivity)
    · rw [if_pos small]
  · have hs : Nat.log 2 n=52+(Nat.log 2 n-52) := by omega
    obtain ⟨s,hs'⟩ : ∃s,s=Nat.log 2 n-52 := ⟨_,rfl⟩
    rw [← hs'] at hs
    have hd := Nat.div_add_mod n (2^s)
    have hr := Nat.mod_lt n (show 0<2^s by positivity)
    have hq₁ : 2^52≤n/2^s := by
      rw [Nat.le_div_iff_mul_le (by positivity),← pow_add,← hs]
      exact hlow
    have hq₂ : n/2^s<2^53 := by
      rw [Nat.div_lt_iff_lt_mul (by positivity),← pow_add]
      calc n<2^(Nat.log 2 n+1) := hhigh
        _=2^(53+s) := by congr 1; omega
    have hexp : Nat.log 2 n+1023=(s+1074)+1 := by omega
    have hlowval : n/2^s*2^(s+1074)=2^s*(n/2^s)*grid := by rw [pow_grid]; ring
    have hhighval : (n/2^s+1)*2^(s+1074)=(2^s*(n/2^s)+2^s)*grid := by rw [pow_grid]; ring
    refine ⟨(Nat.log 2 n+1023)*2^52+(n/2^s-2^52),?_,?_,?_⟩
    · rw [hexp,value _ _ hq₁ hq₂,hlowval]
      exact Nat.mul_le_mul_right _ (by omega)
    · rw [hexp,next _ _ hq₁ hq₂,hhighval]
      exact Nat.mul_lt_mul_of_pos_right (by omega) grid_pos
    · rw [if_neg small,← hs']
      unfold shiftRound
      split_ifs with up
      · right
        refine ⟨by omega,?_⟩
        have half : 0<2^(s-1) := by positivity
        rw [hexp,value _ _ hq₁ hq₂,hlowval]
        exact Nat.mul_lt_mul_of_pos_right (by omega) grid_pos
      · left
        omega

theorem roundMag_ge (n m : Nat) (h : units m≤n*grid) : m ≤ roundMag n := by
  by_cases hn : n=0
  · rw [hn,Nat.zero_mul] at h
    have : ¬0 < m := fun hm => by have := units_strictMono hm; rw [units_zero] at this; omega
    omega
  · obtain ⟨low,_,hhigh,hr⟩ := round_bracket n hn
    have : m<low+1 := units_strictMono.lt_iff_lt.mp (lt_of_le_of_lt h hhigh)
    rcases hr with hr|⟨hr,_⟩ <;> omega

theorem roundMag_le (n m : Nat) (h : n*grid≤units m) : roundMag n≤ m := by
  by_cases hn : n=0
  · rw [hn]
    simp [roundMag]
  · obtain ⟨low,hlow,_,hr⟩ := round_bracket n hn
    rcases hr with hr|⟨hr,hlt⟩
    · rw [hr]
      exact units_strictMono.le_iff_le.mp (hlow.trans h)
    · have : low < m := units_strictMono.lt_iff_lt.mp (lt_of_lt_of_le hlt h)
      omega

section Conversion

theorem infMag_lt : infMag<2^63 := by decide

theorem ofMag_bits (negative : Bool) (m : Nat) (hm : m<2^63) :
    (ofMag negative m).bits.toNat=if negative then 2^63+m else m := by
  cases negative
  · simp only [ofMag,Bool.false_eq_true,if_false,UInt64.toNat_ofNat']
    omega
  · simp only [ofMag,if_true,UInt64.toNat_ofNat']
    omega

theorem ofMag_key (negative : Bool) (m : Nat) (hm : m<2^63) :
    (ofMag negative m).key=if negative then -(m : Int) else m := by
  have hb := ofMag_bits negative m hm
  cases negative
  · have hmag : (ofMag false m).mag=m := by
      rw [mag,hb]
      simp only [Bool.false_eq_true,if_false]
      omega
    have hneg : (ofMag false m).isNegative=false := by
      simp only [isNegative,hb,Bool.false_eq_true,if_false,decide_eq_false_iff_not]
      omega
    rw [key,hneg,hmag]
  · have hmag : (ofMag true m).mag=m := by
      rw [mag,hb]
      simp only [if_true]
      omega
    have hneg : (ofMag true m).isNegative=true := by
      simp only [isNegative,hb,if_true,decide_eq_true_eq]
      omega
    rw [key,hneg,hmag]

theorem ofInt_key (n : Int) :
    (ofInt n).key=n.sign*(min (roundMag n.natAbs) infMag : Nat) := by
  have hm : min (roundMag n.natAbs) infMag<2^63 := lt_of_le_of_lt (Nat.min_le_right _ _) infMag_lt
  rw [ofInt,ofMag_key _ _ hm]
  rcases lt_trichotomy n 0 with h|h|h
  · rw [Int.sign_eq_neg_one_of_neg h]
    simp [h]
  · rw [h]
    simp [roundMag]
  · rw [Int.sign_eq_one_of_pos h]
    simp [not_lt.mpr h.le]

theorem ofInt_isNan (n : Int) : (ofInt n).isNan=false := by
  have hk := ofInt_key n
  have ha := key_natAbs (ofInt n)
  have hle : (ofInt n).mag≤ infMag := by
    rw [← ha,hk,Int.natAbs_mul]
    have hs : n.sign.natAbs≤1 := by
      rcases lt_trichotomy n 0 with h|h|h
      · rw [Int.sign_eq_neg_one_of_neg h]; decide
      · rw [h]; decide
      · rw [Int.sign_eq_one_of_pos h]; decide
    calc n.sign.natAbs*(min (roundMag n.natAbs) infMag : Nat)
        ≤1*infMag := Nat.mul_le_mul hs (Nat.min_le_right _ _)
      _=infMag := Nat.one_mul _
  simp only [isNan,decide_eq_false_iff_not]
  omega

theorem scaled_neg (k : Int) : scaled (-k)=-scaled k := by
  unfold scaled
  rw [Int.sign_neg,Int.natAbs_neg]
  ring

/-- An integer at most an exact float value is not rounded above it. -/
theorem ofInt_key_le (n k : Int) (hk : k.natAbs < infMag) (h : n*grid ≤ scaled k) :
    (ofInt n).key≤k := by
  have hg : (0 : Int)<grid := by exact_mod_cast grid_pos
  rw [ofInt_key]
  rcases lt_trichotomy n 0 with hn|hn|hn
  · rw [Int.sign_eq_neg_one_of_neg hn]
    by_cases hpos : 0≤k
    · omega
    · have hneg : k<0 := by omega
      have hs : scaled k=-(units k.natAbs : Int) := by
        rw [scaled,Int.sign_eq_neg_one_of_neg hneg]
        ring
      have hu : (units k.natAbs : Int)≤((n.natAbs*grid : Nat) : Int) := by
        push_cast
        rw [hs] at h
        have ha : |n|=-n := abs_of_neg hn
        rw [ha]
        linarith
      have hround := roundMag_ge n.natAbs k.natAbs (by exact_mod_cast hu)
      omega
  · rw [hn]
    rw [hn,Int.zero_mul,← scaled_zero,scaled_strictMono.le_iff_le] at h
    simpa using h
  · rw [Int.sign_eq_one_of_pos hn]
    have hprod : 0 < n*grid := Int.mul_pos hn hg
    have hpos : 0<k := by
      rw [← scaled_strictMono.lt_iff_lt,scaled_zero]
      omega
    have hs : scaled k=(units k.natAbs : Int) := by
      rw [scaled,Int.sign_eq_one_of_pos hpos]
      ring
    have hu : ((n.natAbs*grid : Nat) : Int)≤(units k.natAbs : Int) := by
      push_cast
      rw [abs_of_pos hn,← hs]
      exact h
    have hround := roundMag_le n.natAbs k.natAbs (by exact_mod_cast hu)
    omega

theorem ofInt_key_neg (n : Int) : (ofInt (-n)).key=-(ofInt n).key := by
  rw [ofInt_key,ofInt_key,Int.sign_neg,Int.natAbs_neg]
  ring

theorem ofInt_key_ge (n k : Int) (hk : k.natAbs < infMag) (h : scaled k≤ n*grid) :
    k≤(ofInt n).key := by
  have flip := ofInt_key_le (-n) (-k) (by rwa [Int.natAbs_neg]) (by
    rw [scaled_neg,Int.neg_mul]
    omega)
  rw [ofInt_key_neg] at flip
  omega

section Compare

variable (n : Int) (f : F64) (hf : f.isFinite=true)

include hf

theorem key_bound : f.key.natAbs < infMag := by
  rw [key_natAbs]
  simpa [isFinite] using hf

omit hf in
theorem le_toRat : (n : Rat)≤f.toRat ↔ n*grid ≤ scaled f.key := by
  rw [toRat_scaled,le_div_iff₀ grid_cast_pos]
  exact_mod_cast Iff.rfl

omit hf in
theorem toRat_le : f.toRat≤(n : Rat) ↔ scaled f.key≤ n*grid := by
  rw [toRat_scaled,div_le_iff₀ grid_cast_pos]
  exact_mod_cast Iff.rfl

theorem ofInt_le (h : (n : Rat)≤f.toRat) : (ofInt n).key≤f.key :=
  ofInt_key_le n f.key (key_bound f hf) ((le_toRat n f).mp h)

theorem ofInt_ge (h : f.toRat≤(n : Rat)) : f.key≤(ofInt n).key :=
  ofInt_key_ge n f.key (key_bound f hf) ((toRat_le n f).mp h)

theorem ofInt_exact (h : (n : Rat)=f.toRat) : (ofInt n).key=f.key :=
  le_antisymm (ofInt_le n f hf h.le) (ofInt_ge n f hf h.ge)

theorem eq_ofInt : f.eq (ofInt n)=true ↔ (ofInt n).key=f.key := by
  rw [eq,isNan_of_finite f hf,ofInt_isNan]
  simp [eq_comm]

theorem ofInt_lt : (ofInt n).lt f=true ↔ (n : Rat)<f.toRat ∧ (ofInt n).key≠f.key := by
  have hcmp : (ofInt n).lt f=true ↔ (ofInt n).key<f.key := by
    rw [lt,isNan_of_finite f hf,ofInt_isNan]
    simp
  rw [hcmp]
  constructor
  · intro h
    refine ⟨?_,by omega⟩
    by_contra hn
    have := ofInt_ge n f hf (not_lt.mp hn)
    omega
  · intro h
    have := ofInt_le n f hf h.1.le
    omega

theorem lt_ofInt : f.lt (ofInt n)=true ↔ f.toRat<(n : Rat) ∧ (ofInt n).key≠f.key := by
  have hcmp : f.lt (ofInt n)=true ↔ f.key<(ofInt n).key := by
    rw [lt,isNan_of_finite f hf,ofInt_isNan]
    simp
  rw [hcmp]
  constructor
  · intro h
    refine ⟨?_,by omega⟩
    by_contra hn
    have := ofInt_le n f hf (not_lt.mp hn)
    omega
  · intro h
    have := ofInt_ge n f hf h.1.le
    omega

end Compare

end Conversion

end Rounding

end F64

end InterpretThis
