import InterpretThis.Math.Binary64
import InterpretThis.Math.Mersenne

namespace InterpretThis.Pyhash

open Mersenne

/-- `_PyHASH_INF`. -/
def hashInf : Int := 314159

/-- The reserved `-1` is folded to `-2`. -/
def finalizeHash (h : Int) : Int64 := Int64.ofInt (if h=-1 then -2 else h)

/-- The one formula behind every numeric hash: the residue of the magnitude with the sign. -/
def numericHash (q : Rat) : Int64 :=
  let x : Int := if (q.den : ZMod modulus)=0 then hashInf else (absResidue q).val
  finalizeHash (if q<0 then -x else x)

section Integers

def hashInteger (n : Int) : Int64 :=
  let x : Int := ((n.natAbs%modulus : Nat) : Int)
  finalizeHash (if n<0 then -x else x)

def hashI64 (n : Int64) : Int64 := hashInteger n.toInt

def hashBigint (n : Int) : Int64 := hashInteger n

theorem hashInteger_eq (n : Int) : hashInteger n=numericHash n := by
  have one : ((1 : Nat) : ZMod modulus)≠0 := by
    rw [Nat.cast_one]
    exact one_ne_zero
  have habs : |(n : Rat)|=((n.natAbs : Nat) : Rat)/(1 : Nat) := by
    rw [Nat.cast_one,div_one,Nat.cast_natAbs]
    norm_cast
  obtain ⟨hd,hr⟩ := absResidue_eq n n.natAbs 1 one habs
  have hval : (n.natAbs%modulus : Nat)=(absResidue (n : Rat)).val := by
    rw [hr,mod_eq_val,Nat.cast_one,div_one]
  unfold hashInteger numericHash
  rw [if_neg hd,hval]
  have hs : ((n : Rat)<0) ↔ n<0 := by exact_mod_cast Iff.rfl
  simp only [hs]

end Integers

section Doubles

/-- `frexp` of the magnitude: a mantissa in `[1/2,1)` held as a 53-bit fixed-point fraction,
and the exponent. A subnormal is first scaled up by `2^64`. -/
def frexp (f : F64) : Nat×Int :=
  if f.mag=0 then (0,0)
  else if f.mag/2^52=0 then
    let top := Nat.log 2 f.mag
    let up := (top+13)*2^52+(f.mag*2^(52-top)-2^52)
    (2^52+up%2^52,((up/2^52 : Nat) : Int)-1022-64)
  else (2^52+f.mag%2^52,((f.mag/2^52 : Nat) : Int)-1022)

/-- `while m != 0.0`: 28 bits of the mantissa at a time. Every operation on the mantissa is
exact in `f64`, and it has drained after two passes. -/
def hashLoop : Nat → Nat → Nat → Int → Nat×Int
  | 0,_,x,e => (x,e)
  | n+1,m,x,e =>
    if m=0 then (x,e)
    else
      let x := rotate 28 x+m*2^28/2^53
      hashLoop n (m*2^28%2^53) (if modulus≤x then x-modulus else x) (e-28)

def exponentMod (e : Int) : Nat := if 0≤e then (e%61).toNat else 60-((-1-e)%61).toNat

/-- `_Py_HashDouble`. -/
def hashDouble (f : F64) : Int64 :=
  if f.isFinite=false then
    if f.isInfinite then Int64.ofInt (if 0<f.key then hashInf else -hashInf)
    else 0
  else
    let (m,e) := frexp f
    let (x,e) := hashLoop 2 m 0 e
    let x := rotate (exponentMod e) x
    finalizeHash (if f.isNegative then -(x : Int) else x)

theorem exponentMod_eq (e : Int) : (exponentMod e : Int)=e%61 := by
  unfold exponentMod
  split_ifs <;> omega

theorem two_zpow_mod (e : Int) : (2 : ZMod modulus)^(exponentMod e)=(2 : ZMod modulus)^e := by
  have h := Int.emod_add_mul_ediv e 61
  have h61 : (2 : ZMod modulus)^(61 : Int)=1 := by exact_mod_cast two_pow_61
  rw [← zpow_natCast,exponentMod_eq,← h,zpow_add₀ two_ne_zero,zpow_mul,h61,one_zpow,mul_one]
  congr 1
  omega

/-- One pass moves 28 bits from the mantissa into the accumulator and keeps the residue of
`(x+m/2^53)*2^e`. -/
theorem hashLoop_spec (n m x : Nat) (e : Int) (hx : x < modulus) (hm : m<2^53) :
    ∃x' e' rest,hashLoop n m x e=(x',e') ∧ x' < modulus ∧
      rest=m*2^(28*n)%2^53 ∧
      ((x' : ZMod modulus)+rest*2^(-53 : Int))*2^e'=((x : ZMod modulus)+m*2^(-53 : Int))*2^e := by
  induction n generalizing m x e with
  | zero =>
    refine ⟨x,e,m,rfl,hx,?_,rfl⟩
    rw [Nat.mul_zero,pow_zero,Nat.mul_one,Nat.mod_eq_of_lt hm]
  | succ n ih =>
    unfold hashLoop
    split_ifs with h0
    · refine ⟨x,e,0,rfl,hx,?_,?_⟩
      · rw [h0,Nat.zero_mul,Nat.zero_mod]
      · rw [h0]
    · have hx' : x<2^61 := lt_of_lt_of_le hx (by decide)
      have hrot := rotate_lt 28 x (by omega) hx
      have hy : m*2^28/2^53<2^28 := by
        rw [Nat.div_lt_iff_lt_mul (by positivity)]
        omega
      have big : 2^28 < modulus := by decide
      obtain ⟨z,hz⟩ : ∃z,z=rotate 28 x+m*2^28/2^53 := ⟨_,rfl⟩
      have hred : (if modulus≤z then z-modulus else z) < modulus := by
        split_ifs <;> omega
      have hcast : ((if modulus≤z then z-modulus else z : Nat) : ZMod modulus)=z := by
        split_ifs with hle
        · rw [Nat.cast_sub hle,ZMod.natCast_self,sub_zero]
        · rfl
      have hmod : m*2^28%2^53<2^53 := Nat.mod_lt _ (by positivity)
      obtain ⟨x',e',rest,hl,hlt,hrest,hinv⟩ := ih (m*2^28%2^53) (if modulus≤z then z-modulus else z)
        (e-28) hred hmod
      refine ⟨x',e',rest,?_,hlt,?_,?_⟩
      · rw [← hl,hz]
      · rw [hrest,Nat.mod_mul_mod,Nat.mul_assoc,← pow_add]
        congr 3
        omega
      · rw [hinv,hcast,hz]
        have hdm := Nat.div_add_mod (m*2^28) (2^53)
        have hsum : ((2 : ZMod modulus)^53*((m*2^28/2^53 : Nat) : ZMod modulus)
            +((m*2^28%2^53 : Nat) : ZMod modulus))=m*2^28 := by
          exact_mod_cast congrArg (Nat.cast (R := ZMod modulus)) hdm
        have h53 : (2 : ZMod modulus)^53*(2 : ZMod modulus)^(-53 : Int)=1 := by
          rw [← zpow_natCast,← zpow_add₀ two_ne_zero]
          norm_num
        have h28 : (2 : ZMod modulus)^28*(2 : ZMod modulus)^(e-28)=2^e := by
          rw [← zpow_natCast,← zpow_add₀ two_ne_zero]
          congr 1
          omega
        rw [Nat.cast_add,rotate_cast 28 x (by omega) hx',← h28]
        have key : ((m*2^28/2^53 : Nat) : ZMod modulus)+((m*2^28%2^53 : Nat) : ZMod modulus)*2^(-53 : Int)
            =m*2^28*2^(-53 : Int) := by
          calc _=((m*2^28/2^53 : Nat) : ZMod modulus)*((2 : ZMod modulus)^53*2^(-53 : Int))
              +((m*2^28%2^53 : Nat) : ZMod modulus)*2^(-53 : Int) := by rw [h53,mul_one]
            _=((2 : ZMod modulus)^53*((m*2^28/2^53 : Nat) : ZMod modulus)
              +((m*2^28%2^53 : Nat) : ZMod modulus))*2^(-53 : Int) := by ring
            _=_ := by rw [hsum]
        rw [add_assoc,key]
        ring

/-- The 53-bit mantissa and the exponent stand for the number of units. -/
theorem frexp_spec (f : F64) :
    (frexp f).1<2^53 ∧
      ((frexp f).1 : ZMod modulus)*2^((frexp f).2+1021)=(F64.units f.mag : ZMod modulus) := by
  unfold frexp F64.units
  by_cases h0 : f.mag=0
  · rw [if_pos h0,h0]
    simp
  · rw [if_neg h0]
    by_cases hsub : f.mag/2^52=0
    · rw [if_pos hsub]
      have hlt : f.mag<2^52 := by omega
      have hlow := Nat.pow_log_le_self 2 h0
      have hhigh := Nat.lt_pow_succ_log_self (b := 2) (by omega) f.mag
      have htop : Nat.log 2 f.mag<52 := Nat.log_lt_of_lt_pow h0 hlt
      have hq₁ : 2^52≤f.mag*2^(52-Nat.log 2 f.mag) := by
        calc 2^52=2^Nat.log 2 f.mag*2^(52-Nat.log 2 f.mag) := by rw [← pow_add]; congr 1; omega
          _≤f.mag*2^(52-Nat.log 2 f.mag) := Nat.mul_le_mul_right _ hlow
      have hq₂ : f.mag*2^(52-Nat.log 2 f.mag)<2^53 := by
        calc f.mag*2^(52-Nat.log 2 f.mag)
            <2^(Nat.log 2 f.mag+1)*2^(52-Nat.log 2 f.mag) :=
              Nat.mul_lt_mul_of_pos_right hhigh (by positivity)
          _=2^53 := by rw [← pow_add]; congr 1; omega
      obtain ⟨q,hq⟩ : ∃q,q=f.mag*2^(52-Nat.log 2 f.mag) := ⟨_,rfl⟩
      rw [← hq] at hq₁ hq₂
      dsimp only
      rw [← hq]
      have hmod : ((Nat.log 2 f.mag+13)*2^52+(q-2^52))%2^52=q-2^52 := by omega
      have hdiv : ((Nat.log 2 f.mag+13)*2^52+(q-2^52))/2^52=Nat.log 2 f.mag+13 := by omega
      rw [hmod,hdiv,if_pos hlt]
      refine ⟨by omega,?_⟩
      have hexp : ((Nat.log 2 f.mag+13 : Nat) : Int)-1022-64+1021=-((52-Nat.log 2 f.mag : Nat) : Int) := by
        omega
      rw [show 2^52+(q-2^52)=q by omega,hexp,hq,zpow_neg,zpow_natCast]
      push_cast
      rw [mul_assoc,mul_inv_cancel₀ (pow_ne_zero _ two_ne_zero),mul_one]
    · rw [if_neg hsub,if_neg (by omega)]
      refine ⟨by dsimp only; omega,?_⟩
      have hexp : ((f.mag/2^52 : Nat) : Int)-1022+1021=((f.mag/2^52-1 : Nat) : Int) := by omega
      dsimp only
      rw [hexp,zpow_natCast,Nat.cast_mul,Nat.cast_pow,Nat.cast_ofNat]

theorem toRat_abs (f : F64) : |f.toRat|=((F64.units f.mag : Nat) : Rat)/(F64.grid : Nat) := by
  have hs : |(f.sign : Rat)|=1 := by
    unfold F64.sign
    split_ifs <;> norm_num
  rw [F64.toRat,abs_div,abs_mul,hs,one_mul,abs_of_nonneg (Nat.cast_nonneg _),
    abs_of_nonneg (Nat.cast_nonneg _)]

theorem grid_cast : ((F64.grid : Nat) : ZMod modulus)=2^(1074 : Int) := by
  rw [F64.grid_def,Nat.cast_pow,Nat.cast_ofNat]
  exact (zpow_natCast _ _).symm

/-- The accumulator, realigned by the exponent, is the residue of the magnitude. -/
theorem double_residue (f : F64) :
    (f.toRat.den : ZMod modulus)≠0 ∧
      rotate (exponentMod (hashLoop 2 (frexp f).1 0 (frexp f).2).2)
        (hashLoop 2 (frexp f).1 0 (frexp f).2).1=(absResidue f.toRat).val := by
  obtain ⟨hm,hval⟩ := frexp_spec f
  have hpos := modulus_pos
  obtain ⟨x,e,rest,hl,hx,hrest,hinv⟩ := hashLoop_spec 2 (frexp f).1 0 (frexp f).2 hpos hm
  have hrest0 : rest=0 := by
    rw [hrest,show 28*2=53+3 from rfl,pow_add,← Nat.mul_assoc,Nat.mul_right_comm,Nat.mul_mod_left]
  have hgrid : ((F64.grid : Nat) : ZMod modulus)≠0 := by
    rw [grid_cast]
    exact zpow_ne_zero _ two_ne_zero
  obtain ⟨hd,hr⟩ := absResidue_eq f.toRat _ _ hgrid (toRat_abs f)
  have hbound : exponentMod e≤61 := by
    have := exponentMod_eq e
    omega
  have hlt := rotate_lt (exponentMod e) x hbound hx
  have hres : ((rotate (exponentMod e) x : Nat) : ZMod modulus)=absResidue f.toRat := by
    rw [rotate_cast _ _ hbound (lt_of_lt_of_le hx (by decide)),two_zpow_mod,hr,← hval,grid_cast]
    rw [hrest0,Nat.cast_zero,zero_mul,add_zero,zero_add] at hinv
    rw [hinv,mul_assoc,← zpow_add₀ two_ne_zero,div_eq_mul_inv,← zpow_neg,mul_assoc,
      ← zpow_add₀ two_ne_zero]
    congr 2
    ring
  refine ⟨hd,?_⟩
  rw [hl,← hres,val_of_lt _ hlt]

theorem hashDouble_eq (f : F64) (hf : f.isFinite=true) : hashDouble f=numericHash f.toRat := by
  obtain ⟨hd,hxval⟩ := double_residue f
  have hnf : ¬f.isFinite=false := by rw [hf]; decide
  unfold hashDouble numericHash
  rw [if_neg hnf,if_neg hd]
  dsimp only
  rw [hxval]
  -- the sign bit of a zero has no effect, its residue is zero
  by_cases hz : f.mag=0
  · have hkey := F64.toRat_zero f hz
    have h0 : (absResidue f.toRat).val=0 := by rw [hkey]; simp [absResidue]
    rw [h0,hkey]
    simp
  · have hk : f.toRat<0 ↔ f.isNegative=true := by
      rw [F64.toRat_neg,F64.key]
      split_ifs with hn
      · simp [hn]
        omega
      · simp [hn]
    simp only [hk]

end Doubles

section Rationals

def mulmod (a b m : Nat) : Nat := a*b%m

/-- The loop of `powmod`; an exponent is a 64-bit word. -/
def powmodLoop (m : Nat) : Nat → Nat → Nat → Nat → Nat
  | 0,_,_,result => result
  | n+1,base,exp,result =>
    if exp=0 then result
    else powmodLoop m n (mulmod base base m) (exp/2)
      (if exp%2=1 then mulmod result base m else result)

def powmod (base exp m : Nat) : Nat := powmodLoop m 64 (base%m) exp 1

def rationalHash (nAbsMod dMod : Nat) (negative : Bool) : Int64 :=
  let hashAbs : Int :=
    if dMod=0 then hashInf
    else (mulmod nAbsMod (powmod dMod (modulus-2) modulus) modulus : Nat)
  finalizeHash (if negative then -hashAbs else hashAbs)

def bigintAbsMod (n : Int) : Nat := n.natAbs%modulus

/-- `u64::try_from(n).unwrap_or(0)`. -/
def wordOrZero (n : Int64) : Nat := n.toInt.toNat

/-- `mantissa * 10^(-scale)`, as `as_bigint_and_exponent` splits it. -/
structure BigDecimal where
  mantissa : Int
  scale : Int64
  deriving DecidableEq

/-- The negation of a scale is taken on `i64` and wraps at its least value. -/
def decimalHash (d : BigDecimal) : Int64 :=
  let mMod := bigintAbsMod d.mantissa
  let (n,dm) :=
    if 0≤d.scale.toInt then (mMod,powmod 10 (wordOrZero d.scale) modulus)
    else (mulmod mMod (powmod 10 (wordOrZero (-d.scale)) modulus) modulus,1)
  rationalHash n dm (decide (d.mantissa<0))

def fractionHash (q : Rat) : Int64 :=
  rationalHash (bigintAbsMod q.num) (bigintAbsMod q.den) (decide (q.num<0))

def BigDecimal.toRat (d : BigDecimal) : Rat := d.mantissa*(10 : Rat)^(-d.scale.toInt)

theorem powmodLoop_spec (n base exp result : Nat) (he : exp<2^n) :
    (powmodLoop modulus n base exp result : ZMod modulus)=result*(base : ZMod modulus)^exp := by
  induction n generalizing base exp result with
  | zero =>
    have h0 : exp=0 := by omega
    rw [powmodLoop,h0,pow_zero,mul_one]
  | succ n ih =>
    unfold powmodLoop
    split_ifs with h0 hodd
    · rw [h0,pow_zero,mul_one]
    · have hexp : exp=2*(exp/2)+1 := by omega
      rw [ih _ _ _ (by omega)]
      unfold mulmod
      rw [ZMod.natCast_mod,ZMod.natCast_mod,Nat.cast_mul,Nat.cast_mul]
      nth_rewrite 2 [hexp]
      rw [pow_succ,pow_mul,pow_two]
      ring
    · have hexp : exp=2*(exp/2) := by omega
      rw [ih _ _ _ (by omega)]
      unfold mulmod
      rw [ZMod.natCast_mod,Nat.cast_mul]
      nth_rewrite 2 [hexp]
      rw [pow_mul,pow_two]

theorem powmodLoop_lt (n base exp result : Nat) (hr : result < modulus) :
    powmodLoop modulus n base exp result < modulus := by
  induction n generalizing base exp result with
  | zero => exact hr
  | succ n ih =>
    unfold powmodLoop
    split_ifs
    · exact hr
    · exact ih _ _ _ (Nat.mod_lt _ modulus_pos)
    · exact ih _ _ _ hr

theorem powmod_cast (base exp : Nat) (he : exp<2^64) :
    (powmod base exp modulus : ZMod modulus)=(base : ZMod modulus)^exp := by
  rw [powmod,powmodLoop_spec 64 _ _ _ he,Nat.cast_one,one_mul,ZMod.natCast_mod]

theorem inverse_pow (d : ZMod modulus) (hd : d≠0) : d^(modulus-2)=d⁻¹ := by
  have hf : d^(modulus-1)=1 := ZMod.pow_card_sub_one_eq_one hd
  have hp : modulus-1=modulus-2+1 := by decide
  rw [hp,pow_succ] at hf
  exact eq_inv_of_mul_eq_one_left hf

/-- `rational_hash` of any fraction for a value is the hash of the value. -/
theorem rationalHash_eq (q : Rat) (a b : Nat) (negative : Bool) (hb : b < modulus) (hq : |q|=0 ∨ (negative=true ↔ q<0))
    (unit : (b : ZMod modulus)=0 ↔ (q.den : ZMod modulus)=0)
    (res : (b : ZMod modulus)≠0 → absResidue q=(a : ZMod modulus)/b) :
    rationalHash a b negative=numericHash q := by
  have hb0 : b=0 ↔ (q.den : ZMod modulus)=0 := by
    rw [← unit,ZMod.natCast_eq_zero_iff]
    constructor
    · intro h
      rw [h]
      exact Nat.dvd_zero _
    · intro h
      exact Nat.eq_zero_of_dvd_of_lt h hb
  have hsign : ∀x : Int,(q=0 → x=0) →
      (if negative=true then -x else x)=(if q<0 then -x else x) := by
    intro x hx
    rcases hq with hz|hs
    · have h0 : q=0 := abs_eq_zero.mp hz
      rw [hx h0]
      simp
    · simp only [hs]
  unfold rationalHash numericHash
  by_cases hd : b=0
  · rw [if_pos hd,if_pos (hb0.mp hd)]
    dsimp only
    rw [hsign]
    intro h0
    have hden := hb0.mp hd
    rw [h0] at hden
    simp at hden
  · have hbz : (b : ZMod modulus)≠0 := by
      intro h
      exact hd (hb0.mpr (unit.mp h))
    have hqz : ¬(q.den : ZMod modulus)=0 := fun h => hd (hb0.mpr h)
    have hval : mulmod a (powmod b (modulus-2) modulus) modulus=(absResidue q).val := by
      rw [mulmod,mod_eq_val,Nat.cast_mul,powmod_cast b _ (by decide),inverse_pow _ hbz,res hbz,
        div_eq_mul_inv]
    rw [if_neg hd,if_neg hqz,hval]
    dsimp only
    rw [hsign]
    intro h0
    rw [h0]
    simp [absResidue]

theorem bigintAbsMod_lt (n : Int) : bigintAbsMod n < modulus := Nat.mod_lt _ modulus_pos

theorem fractionHash_eq (q : Rat) : fractionHash q=numericHash q := by
  have hden : (bigintAbsMod q.den : ZMod modulus)=(q.den : ZMod modulus) := by
    rw [bigintAbsMod,ZMod.natCast_mod,Int.natAbs_natCast]
  apply rationalHash_eq q _ _ _ (bigintAbsMod_lt _)
  · right
    rw [decide_eq_true_eq,Rat.num_neg]
  · rw [hden]
  · intro _
    rw [hden,bigintAbsMod,ZMod.natCast_mod,absResidue]

theorem toInt_neg_scale (s : Int64) (hs : s≠Int64.minValue) : (-s).toInt=-s.toInt := by
  have hlow := s.le_toInt
  have hhigh := s.toInt_lt
  have hne : s.toInt≠-2^63 := by
    intro h
    exact hs (Int64.toInt_inj.mp (h.trans (by decide)))
  rw [Int64.toInt_neg]
  exact Int.bmod_eq_of_le (by omega) (by omega)

/-- Every scale but the least `i64` is negated exactly. -/
theorem decimalHash_eq (d : BigDecimal) (hs : d.scale≠Int64.minValue) :
    decimalHash d=numericHash d.toRat := by
  have hneg : |d.toRat|=0 ∨ (decide (d.mantissa<0)=true ↔ d.toRat<0) := by
    right
    have hp : (0 : Rat)<(10 : Rat)^(-d.scale.toInt) := by positivity
    rw [decide_eq_true_eq,BigDecimal.toRat,mul_neg_iff]
    constructor
    · intro h
      exact .inr ⟨by exact_mod_cast h,hp⟩
    · intro h
      rcases h with h|h
      · exact absurd h.2 (not_lt.mpr hp.le)
      · exact_mod_cast h.1
  have hten : ((10 : Nat) : ZMod modulus)≠0 := by exact_mod_cast ten_ne_zero
  have habs : |d.toRat|=(d.mantissa.natAbs : Rat)*(10 : Rat)^(-d.scale.toInt) := by
    rw [BigDecimal.toRat,abs_mul,abs_of_pos (show (0 : Rat)<(10 : Rat)^(-d.scale.toInt) by positivity),
      Nat.cast_natAbs]
    norm_cast
  have hm : (bigintAbsMod d.mantissa : ZMod modulus)=(d.mantissa.natAbs : ZMod modulus) := by
    rw [bigintAbsMod,ZMod.natCast_mod]
  unfold decimalHash
  by_cases hpos : 0≤d.scale.toInt
  · simp only [if_pos hpos]
    have hw : (wordOrZero d.scale : Int)=d.scale.toInt := Int.toNat_of_nonneg hpos
    have hlt : wordOrZero d.scale<2^64 := by
      have := d.scale.toInt_lt
      omega
    have hpow : (powmod 10 (wordOrZero d.scale) modulus : ZMod modulus)=
        ((10^wordOrZero d.scale : Nat) : ZMod modulus) := by
      rw [powmod_cast _ _ hlt,Nat.cast_pow]
    have hunit : ((10^wordOrZero d.scale : Nat) : ZMod modulus)≠0 := by
      rw [Nat.cast_pow]
      exact pow_ne_zero _ hten
    have hfrac : |d.toRat|=((d.mantissa.natAbs : Nat) : Rat)/((10^wordOrZero d.scale : Nat) : Rat) := by
      rw [habs,← hw,zpow_neg,zpow_natCast,div_eq_mul_inv]
      push_cast
      ring
    obtain ⟨hd,hr⟩ := absResidue_eq d.toRat _ _ hunit hfrac
    apply rationalHash_eq d.toRat _ _ _ _ hneg
    · rw [hpow]
      exact ⟨fun h => absurd h hunit,fun h => absurd h hd⟩
    · intro _
      rw [hpow,hm,hr]
    · rw [powmod]
      exact powmodLoop_lt _ _ _ _ (by decide)
  · simp only [if_neg hpos]
    have hn : (-d.scale).toInt=-d.scale.toInt := toInt_neg_scale d.scale hs
    have hw : (wordOrZero (-d.scale) : Int)=-d.scale.toInt := by
      rw [wordOrZero,hn]
      exact Int.toNat_of_nonneg (by omega)
    have hlt : wordOrZero (-d.scale)<2^64 := by
      have := (-d.scale).toInt_lt
      rw [hn] at this
      omega
    have hfrac : |d.toRat|=((d.mantissa.natAbs*10^wordOrZero (-d.scale) : Nat) : Rat)/((1 : Nat) : Rat) := by
      rw [habs,← hw,zpow_natCast]
      push_cast
      ring
    have hone : ((1 : Nat) : ZMod modulus)≠0 := by
      rw [Nat.cast_one]
      exact one_ne_zero
    obtain ⟨hd,hr⟩ := absResidue_eq d.toRat _ _ hone hfrac
    apply rationalHash_eq d.toRat _ _ _ (by decide) hneg
    · exact ⟨fun h => absurd h hone,fun h => absurd h hd⟩
    · intro _
      rw [hr,mulmod,ZMod.natCast_mod,Nat.cast_mul,Nat.cast_mul,hm,powmod_cast _ _ hlt,Nat.cast_pow]

end Rationals

end InterpretThis.Pyhash
