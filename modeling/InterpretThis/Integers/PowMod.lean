import InterpretThis.Framework.Bezout
import InterpretThis.Framework.Squaring
import InterpretThis.Ranges.Range
import InterpretThis.Value.Arith
import InterpretThis.Value.ArithExact
import Mathlib.Data.ZMod.Basic

namespace InterpretThis
namespace PowMod

/-- Why a call gives no value. -/
inductive Stop where
  | raised (e : EvalError)
  | panic
  /-- The exact result does not fit the wide integer that the source computes it in. -/
  | overflow
  deriving DecidableEq

def valueError (message : String) : Stop := .raised (.exception "ValueError" message)

/-- `i64::rem_euclid`; the remainder of `i64::MIN` by `-1` panics. -/
def remEuclid (a m : Int64) : Except Stop Int64 :=
  if a=Int64.minValue ∧ m=-1 then .error .panic
  else
    let r := a%m
    .ok (if r<0 then r+(if m<0 then -m else m) else r)

/-- The values of `i128`. -/
def Wide (n : ℤ) : Prop := -2^127 ≤ n ∧ n<2^127

instance (n : ℤ) : Decidable (Wide n) := inferInstanceAs (Decidable (_ ∧ _))

/-- A product of `u128` values. -/
def mulWide (x y : ℕ) : Except Stop ℕ := if x*y<2^128 then .ok (x*y) else .error .overflow

/-- The loop of `mod_inverse` on `i128`: the last `old_r` and `old_s`. -/
def euclid (oldR r oldS s : ℤ) : Except Stop (ℤ×ℤ) :=
  if r=0 then .ok (oldR,oldS)
  else
    let q := oldR.tdiv r
    if Wide (q*r) ∧ Wide (oldR-q*r) ∧ Wide (q*s) ∧ Wide (oldS-q*s) then
      euclid r (oldR-q*r) s (oldS-q*s)
    else .error .overflow
termination_by r.natAbs
decreasing_by
  rename_i hr _
  have hpos := Int.natAbs_pos.mpr hr
  rw [mul_comm,← Int.tmod_def,Int.natAbs_tmod]
  exact Nat.mod_lt _ hpos

/-- `mod_inverse`; `none` without an inverse. -/
def modInverse (a m : Int64) : Except Stop (Option Int64) := do
  let modulus : ℤ := m.toInt.natAbs
  let (oldR,oldS) ← euclid (a.toInt%modulus) modulus 1 0
  if oldR≠1 then .ok none else .ok (fitsI64 (oldS%modulus))

def asInt (v : Value) : Except Stop Int64 :=
  match v.asBigint.bind fitsI64 with
  | some n => .ok n
  | none => .error (.raised (.interpreter (.typeError
    "pow() 3rd argument not allowed unless all arguments are integers")))

def mulMod (m : ℕ) (x y : ℕ) : Except Stop ℕ := (mulWide x y).map (·%m)

/-- The result of the loop as an `i64`, on the side of the modulus. -/
def finish (m : Int64) (result : ℕ) : Except Stop Value :=
  match fitsI64 result with
  | none => .error (.raised (.interpreter (.runtime "pow() result out of i64 range")))
  | some signed => .ok (.int (if m<0 ∧ signed≠0 then signed+m else signed))

/-- `pow_three_arg`. -/
def powThreeArg (base exp modulus : Value) : Except Stop Value := do
  let baseI ← asInt base
  let expI ← asInt exp
  let modI ← asInt modulus
  if modI=0 then .error (valueError "pow() 3rd argument cannot be 0")
  else do
    let effectiveBase ←
      if expI<0 then do
        let reduced ← remEuclid baseI modI
        match ← modInverse reduced modI with
        | some inv => .ok inv
        | none => .error (valueError "base is not invertible for the given modulus")
      else .ok baseI
    let b ← remEuclid effectiveBase modI
    let result ← Squaring.loop (mulMod modI.toInt.natAbs) 1 b.toInt.natAbs expI.toInt.natAbs
    finish modI result

open Ranges

/-- The representative of a residue that Python gives: between zero and the modulus, on its side. -/
def Canonical (m r : ℤ) : Prop := (0 < m → 0 ≤ r ∧ r < m) ∧ (m<0 → m < r ∧ r ≤ 0)

/-- What `pow(b, e, m)` is to be. -/
def Correct (b e m : ℤ) (out : Except Stop Value) : Prop :=
  if m=0 then ∃ message,out=.error (valueError message)
  else if 0 ≤ e then
    ∃ r : Int64,out=.ok (.int r) ∧ r.toInt≡b^e.toNat [ZMOD m] ∧ Canonical m r.toInt
  else if Int.gcd b m=1 then
    ∃ (r : Int64) (c : ℤ),out=.ok (.int r) ∧ c*b≡1 [ZMOD m] ∧ r.toInt≡c^e.natAbs [ZMOD m] ∧
      Canonical m r.toInt
  else ∃ message,out=.error (valueError message)

section Remainder

theorem tmod_emod (a m : ℤ) : a.tmod m+(if a.tmod m<0 then |m| else 0)=a%m := by
  rcases eq_or_ne m 0 with rfl | hm
  · simp only [Int.tmod_zero,abs_zero,ite_self,add_zero,Int.emod_zero]
  have hlow := Int.emod_nonneg a hm
  have hhigh := Int.emod_lt_abs a hm
  have heq := Int.tmod_eq_emod (a := a) (b := m)
  have habs := Int.abs_eq_natAbs m
  by_cases hsign : 0 ≤ a ∨ m∣a
  · rw [if_pos hsign,Nat.cast_zero,sub_zero] at heq
    rw [heq,if_neg (by omega),add_zero]
  · rw [if_neg hsign,← habs] at heq
    rw [heq,if_pos (by omega)]
    omega

theorem abs_tmod_lt (a : ℤ) {m : ℤ} (hm : m≠0) : |a.tmod m| < |m| := by
  rw [Int.abs_eq_natAbs,Int.abs_eq_natAbs,Int.natAbs_tmod]
  exact_mod_cast Nat.mod_lt _ (Int.natAbs_pos.mpr hm)

theorem remEuclid_ok {a m : Int64} (h : ¬(a=Int64.minValue ∧ m=-1)) (hm : m≠0) :
    ∃ r,remEuclid a m=.ok r ∧ r.toInt=a.toInt%m.toInt := by
  have hm0 : m.toInt≠0 := fun heq => hm (Int64.toInt_inj.mp heq)
  refine ⟨_,if_neg h,?_⟩
  rw [← tmod_emod]
  have hr : (a%m).toInt=a.toInt.tmod m.toInt := toInt_mod a m
  have hsize := abs_tmod_lt a.toInt hm0
  have hrange := in_toInt m
  by_cases hneg : a%m<0
  · have hneg' : a.toInt.tmod m.toInt<0 := by
      rw [← hr]
      exact Int64.lt_iff_toInt_lt.mp hneg
    rw [abs_of_neg hneg'] at hsize
    rw [if_pos hneg,if_pos hneg',toInt_add,hr]
    by_cases hm' : m<0
    · have hmneg : m.toInt<0 := Int64.lt_iff_toInt_lt.mp hm'
      rw [abs_of_neg hmneg] at hsize ⊢
      rw [if_pos hm',toInt_neg,add_comm,wrap_wrap_add,add_comm,wrap_of_in]
      unfold InI64 at hrange ⊢
      omega
    · have hmpos : 0 ≤ m.toInt := not_lt.mp fun h => hm' (Int64.lt_iff_toInt_lt.mpr h)
      rw [abs_of_nonneg hmpos] at hsize ⊢
      rw [if_neg hm',wrap_of_in]
      unfold InI64 at hrange ⊢
      omega
  · have hneg' : ¬a.toInt.tmod m.toInt<0 := by
      rw [← hr]
      exact fun h => hneg (Int64.lt_iff_toInt_lt.mpr h)
    rw [if_neg hneg,if_neg hneg',add_zero,hr]

end Remainder

section Inverse

variable {a m oldR r oldS s : ℤ}

/-- The loop ends without leaving `i128`, with the greatest common divisor and its cofactor. -/
theorem euclid_ok (h : Bezout.Rows a m oldR r oldS s) (hm : m ≤ 2^63) (hold : oldR ≤ 2^63)
    (hr : r ≤ 2^63) :
    ∃ oldR' oldS' s',euclid oldR r oldS s=.ok (oldR',oldS') ∧ Bezout.Rows a m oldR' 0 oldS' s' := by
  induction hn : r.natAbs using Nat.strongRecOn generalizing oldR r oldS s with
  | _ n ih =>
    rw [euclid]
    by_cases hzero : r=0
    · rw [if_pos hzero]
      rw [hzero] at h
      exact ⟨oldR,oldS,s,rfl,h⟩
    have hpos : 0 < r := lt_of_le_of_ne h.nonneg (Ne.symm hzero)
    have hnext := h.step hpos
    have hq : 0 ≤ oldR/r := Int.ediv_nonneg h.old_nonneg h.nonneg
    have hprod : oldR/r*r ≤ oldR := Int.ediv_mul_le oldR hpos.ne'
    have hprod' : 0 ≤ oldR/r*r := mul_nonneg hq h.nonneg
    have hcof := (hnext.bounds_new hpos)
    have habs := Bezout.abs_sub_mul h.sign hq
    have hbound : |oldR/r*s| ≤ m := by
      rw [abs_mul,abs_of_nonneg hq]
      have hnonneg := abs_nonneg oldS
      omega
    rw [abs_le] at hbound hcof
    have hwide : Wide (oldR/r*r) ∧ Wide (oldR-oldR/r*r) ∧ Wide (oldR/r*s) ∧
        Wide (oldS-oldR/r*s) := by
      unfold Wide
      omega
    have hsmall : oldR-oldR/r*r < r := by
      have hmod := Int.emod_lt_of_pos oldR hpos
      rw [Int.emod_def,mul_comm] at hmod
      exact hmod
    rw [if_neg hzero,Int.tdiv_eq_ediv_of_nonneg h.old_nonneg]
    simp only [if_pos hwide]
    refine ih _ ?_ hnext hr (by omega) rfl
    have hnonneg := hnext.nonneg
    omega

theorem modInverse_ok {a m : Int64} (hm : m≠0) : ∃ o,modInverse a m=.ok o ∧
    (o=none ↔ Int.gcd a.toInt m.toInt≠1) ∧
      ∀ inv,o=some inv → 0 ≤ inv.toInt ∧ inv.toInt*a.toInt≡1 [ZMOD m.toInt] := by
  have hm0 : m.toInt≠0 := fun heq => hm (Int64.toInt_inj.mp heq)
  have hpos : (0 : ℤ) < m.toInt.natAbs := by omega
  have hrange := in_toInt m
  unfold InI64 at hrange
  have hsmall := Int.emod_lt_of_pos a.toInt hpos
  have hstart := Bezout.start (Int.emod_nonneg a.toInt hpos.ne') hpos.le
  obtain ⟨oldR,oldS,s,hrun,hrows⟩ := euclid_ok hstart (by omega) (by omega) (by omega)
  obtain ⟨hgcd,hcof⟩ := hrows.last
  have hsame : Int.gcd (a.toInt%m.toInt.natAbs) m.toInt.natAbs=Int.gcd a.toInt m.toInt := by
    rw [Int.emod_def,Int.gcd_sub_mul_left_left,Int.gcd_eq_natAbs_gcd_natAbs,Int.natAbs_natCast,
      ← Int.gcd_eq_natAbs_gcd_natAbs]
  rw [hsame] at hgcd hcof
  have hresult : modInverse a m=
      if oldR≠1 then .ok none else .ok (fitsI64 (oldS%m.toInt.natAbs)) := by
    simp only [modInverse,hrun]
    rfl
  by_cases hone : oldR=1
  · have hgcd1 : Int.gcd a.toInt m.toInt=1 := by exact_mod_cast hgcd.symm.trans hone
    have hlow := Int.emod_nonneg oldS hpos.ne'
    have hhigh := Int.emod_lt_of_pos oldS hpos
    refine ⟨_,hresult.trans (if_neg (not_not.mpr hone)),?_,fun inv hinv => ?_⟩
    · refine iff_of_false (fun hnone => ?_) (not_not.mpr hgcd1)
      have hout := (fitsI64_none _).mp hnone
      omega
    · have hval := PyInt.fitsI64_value _ _ hinv
      have hmod : inv.toInt*a.toInt≡1 [ZMOD m.toInt.natAbs] := by
        rw [hval]
        calc
          oldS%m.toInt.natAbs*a.toInt≡oldS*(a.toInt%m.toInt.natAbs) [ZMOD m.toInt.natAbs] :=
            (Int.mod_modEq _ _).mul (Int.mod_modEq _ _).symm
          _≡1 [ZMOD m.toInt.natAbs] := by
            rw [hgcd1,Nat.cast_one] at hcof
            exact hcof
      exact ⟨hval ▸ hlow,Int.modEq_iff_dvd.mpr (Int.natAbs_dvd.mp hmod.dvd)⟩
  · have hgcd1 : Int.gcd a.toInt m.toInt≠1 := fun h => hone (by rw [hgcd,h,Nat.cast_one])
    exact ⟨none,hresult.trans (if_pos hone),iff_of_true rfl hgcd1,fun inv hinv => nomatch hinv⟩

end Inverse

section Loop

theorem mulMod_sound {m : ℕ} (hm : 0 < m) (hle : m ≤ 2^63) (x y : ℕ) (hx : x ≤ 2^63) (hy : y ≤ 2^63) :
    ∃ z,Squaring.Sound (mulMod m) (· ≤ 2^63) (· < m) (Nat.cast : ℕ → ZMod m) x y z := by
  have hprod : x*y ≤ 2^63*2^63 := Nat.mul_le_mul hx hy
  have hfits : x*y<2^128 := lt_of_le_of_lt hprod (by decide)
  have hlt : x*y%m < m := Nat.mod_lt _ hm
  refine ⟨x*y%m,?_,le_trans hlt.le hle,hlt,?_⟩
  · simp only [mulMod,mulWide,if_pos hfits,Except.map]
  · rw [ZMod.natCast_mod,Nat.cast_mul]

theorem loop_ok {m b e : ℕ} (hm : 0 < m) (hle : m ≤ 2^63) (hb : b < m) :
    ∃ z,Squaring.loop (mulMod m) 1 b e=.ok z ∧ (z : ℤ)≡b^e [ZMOD m] ∧
      (if e=0 then z=1 else z < m) := by
  obtain ⟨z,hz,himage,hred⟩ := Squaring.loop_sound (e := e) (mulMod_sound hm hle)
    (by decide : 1 ≤ 2^63) (by omega : b ≤ 2^63)
  refine ⟨z,hz,?_,?_⟩
  · rw [Nat.cast_one,one_mul,← Nat.cast_pow] at himage
    have hmod := (ZMod.natCast_eq_natCast_iff _ _ _).mp himage
    exact_mod_cast hmod
  · by_cases he : e=0
    · rw [if_pos he]
      rw [he,Squaring.loop,if_pos rfl] at hz
      exact (Except.ok.inj hz).symm
    · rw [if_neg he]
      exact hred he

end Loop

section Finish

variable {m : Int64} {result : ℕ}

theorem finish_eq (h : result<2^63) : ∃ signed : Int64,signed.toInt=result ∧
    finish m result=.ok (.int (if m<0 ∧ signed≠0 then signed+m else signed)) := by
  have hfits : fitsI64 result≠none := fun hnone => by
    have hout := (fitsI64_none _).mp hnone
    omega
  obtain ⟨signed,hsigned⟩ := Option.ne_none_iff_exists'.mp hfits
  refine ⟨signed,PyInt.fitsI64_value _ _ hsigned,?_⟩
  simp only [finish,hsigned]

theorem finish_ok (hm : m≠0) (h : result < m.toInt.natAbs) :
    ∃ r : Int64,finish m result=.ok (.int r) ∧ r.toInt≡result [ZMOD m.toInt] ∧
      Canonical m.toInt r.toInt := by
  have hrange := in_toInt m
  unfold InI64 at hrange
  obtain ⟨signed,hval,hfinish⟩ := finish_eq (m := m) (show result<2^63 by omega)
  refine ⟨_,hfinish,?_⟩
  by_cases hneg : m<0
  · have hneg' : m.toInt<0 := Int64.lt_iff_toInt_lt.mp hneg
    by_cases hzero : signed=0
    · rw [if_neg (fun hc => hc.2 hzero),hval]
      have hresult : (result : ℤ)=0 := by
        rw [← hval,hzero]
        rfl
      refine ⟨rfl,fun hpos => ?_,fun _ => ?_⟩ <;> omega
    · have hresult : (result : ℤ)≠0 := fun heq => hzero (Int64.toInt_inj.mp (hval.trans heq))
      rw [if_pos ⟨hneg,hzero⟩,toInt_add,hval,wrap_of_in (by unfold InI64; omega)]
      refine ⟨?_,fun hpos => ?_,fun _ => ?_⟩
      · exact Int.modEq_iff_dvd.mpr ⟨-1,by ring⟩
      · omega
      · omega
  · have hpos : 0 ≤ m.toInt := not_lt.mp fun hlt => hneg (Int64.lt_iff_toInt_lt.mpr hlt)
    rw [if_neg (fun hc => hneg hc.1),hval]
    refine ⟨rfl,fun _ => ?_,fun hlt => ?_⟩ <;> omega

end Finish

section Power

variable {m b : Int64} {e : ℕ}

/-- What follows the choice of the base. -/
def power (m b : Int64) (e : ℕ) : Except Stop Value := do
  let reduced ← remEuclid b m
  let result ← Squaring.loop (mulMod m.toInt.natAbs) 1 reduced.toInt.natAbs e
  finish m result

theorem power_eq (hm : m≠0) (hsafe : ¬(b=Int64.minValue ∧ m=-1)) : ∃ z : ℕ,
    power m b e=finish m z ∧ (z : ℤ)≡b.toInt^e [ZMOD m.toInt] ∧
      (if e=0 then z=1 else z < m.toInt.natAbs) := by
  have hm0 : m.toInt≠0 := fun heq => hm (Int64.toInt_inj.mp heq)
  have hrange := in_toInt m
  unfold InI64 at hrange
  obtain ⟨reduced,hreduced,hval⟩ := remEuclid_ok hsafe hm
  have hlow : 0 ≤ reduced.toInt := hval ▸ Int.emod_nonneg _ hm0
  have hhigh : reduced.toInt < |m.toInt| := hval ▸ Int.emod_lt_abs _ hm0
  rw [Int.abs_eq_natAbs] at hhigh
  obtain ⟨z,hz,hmod,hred⟩ := loop_ok (e := e) (show 0 < m.toInt.natAbs by omega)
    (show m.toInt.natAbs ≤ 2^63 by omega) (show reduced.toInt.natAbs < m.toInt.natAbs by omega)
  refine ⟨z,?_,?_,hred⟩
  · simp only [power,hreduced,bind,Except.bind,hz]
  · rw [Int.natAbs_of_nonneg hlow,hval] at hmod
    have hmod' : (z : ℤ)≡(b.toInt%m.toInt)^e [ZMOD m.toInt] :=
      Int.modEq_iff_dvd.mpr (Int.natAbs_dvd.mp hmod.dvd)
    exact hmod'.trans ((Int.mod_modEq _ _).pow e)

theorem power_ok (hm : m≠0) (hsafe : ¬(b=Int64.minValue ∧ m=-1)) (hend : ¬(m=1 ∧ e=0)) :
    ∃ r : Int64,power m b e=.ok (.int r) ∧ r.toInt≡b.toInt^e [ZMOD m.toInt] ∧
      Canonical m.toInt r.toInt := by
  have hm0 : m.toInt≠0 := fun heq => hm (Int64.toInt_inj.mp heq)
  obtain ⟨z,hz,hmod,hred⟩ := power_eq (e := e) hm hsafe
  rw [hz]
  have hlarge (h : z < m.toInt.natAbs) : ∃ r : Int64,finish m z=.ok (.int r) ∧
      r.toInt≡b.toInt^e [ZMOD m.toInt] ∧ Canonical m.toInt r.toInt := by
    obtain ⟨r,hr,hsame,hcan⟩ := finish_ok hm h
    exact ⟨r,hr,hsame.trans hmod,hcan⟩
  by_cases he : e=0
  · rw [if_pos he] at hred
    by_cases hone : m=-1
    · -- the loop leaves one, which the negative modulus turns into zero
      rw [hred,hone]
      refine ⟨0,rfl,?_,fun hpos => absurd hpos (by decide),fun _ => by decide⟩
      exact (Int.modEq_iff_dvd.mpr ((Int.neg_dvd (a := 1)).mpr (one_dvd _)))
    · have hne : m.toInt≠1 := fun h => hend ⟨Int64.toInt_inj.mp h,he⟩
      have hne' : m.toInt≠-1 := fun h => hone (Int64.toInt_inj.mp h)
      exact hlarge (by omega)
  · rw [if_neg he] at hred
    exact hlarge hred

theorem zeroth_power : power 1 b 0=.ok (.int 1) := by
  obtain ⟨z,hz,-,hone⟩ := power_eq (m := 1) (b := b) (e := 0) (by decide)
    (fun h => absurd h.2 (by decide))
  rw [if_pos rfl] at hone
  rw [hz,hone]
  rfl

end Power

section Call

variable {base exp modulus : Value} {b e m : Int64}

theorem powThreeArg_nonneg (hb : asInt base=.ok b) (he : asInt exp=.ok e)
    (hm : asInt modulus=.ok m) (hm0 : m≠0) (hpos : 0 ≤ e.toInt) :
    powThreeArg base exp modulus=power m b e.toInt.natAbs := by
  have hneg : ¬e<0 := fun h => by
    have hlt := Int64.lt_iff_toInt_lt.mp h
    have hzero : (0 : Int64).toInt=0 := rfl
    omega
  simp only [powThreeArg,hb,he,hm,bind,Except.bind,if_neg hm0,if_neg hneg]
  rfl

theorem powThreeArg_neg (hb : asInt base=.ok b) (he : asInt exp=.ok e)
    (hm : asInt modulus=.ok m) (hm0 : m≠0) (hneg : e.toInt<0) :
    powThreeArg base exp modulus=(do
      let reduced ← remEuclid b m
      match ← modInverse reduced m with
      | some inv => power m inv e.toInt.natAbs
      | none => .error (valueError "base is not invertible for the given modulus")) := by
  have hneg' : e<0 := Int64.lt_iff_toInt_lt.mpr hneg
  simp only [powThreeArg,hb,he,hm,bind,Except.bind,if_neg hm0,if_pos hneg']
  cases remEuclid b m with
  | error stop => rfl
  | ok reduced =>
    cases hinv : modInverse reduced m with
    | error stop => simp only [hinv]
    | ok o => cases o <;> simp only [hinv] <;> rfl

theorem asInt_ok {v : Value} (h : v.asBigint=some b.toInt) : asInt v=.ok b := by
  simp only [asInt,h,Option.bind_some,fitsI64_toInt]

theorem powThreeArg_zero (hb : asInt base=.ok b) (he : asInt exp=.ok e)
    (hm : asInt modulus=.ok 0) :
    powThreeArg base exp modulus=.error (valueError "pow() 3rd argument cannot be 0") := by
  simp only [powThreeArg,hb,he,hm]
  rfl

theorem powThreeArg_inverse (hb : asInt base=.ok b) (he : asInt exp=.ok e)
    (hm : asInt modulus=.ok m) (hm0 : m≠0) (hneg : e.toInt<0)
    (hsafe : ¬(b=Int64.minValue ∧ m=-1)) :
    Correct b.toInt e.toInt m.toInt (powThreeArg base exp modulus) := by
  have hm0' : m.toInt≠0 := fun heq => hm0 (Int64.toInt_inj.mp heq)
  obtain ⟨reduced,hreduced,hval⟩ := remEuclid_ok hsafe hm0
  obtain ⟨o,ho,hnone,hsome⟩ := modInverse_ok (a := reduced) hm0
  have hgcd : Int.gcd reduced.toInt m.toInt=Int.gcd b.toInt m.toInt := by
    rw [hval,Int.emod_def,Int.gcd_sub_mul_left_left]
  rw [hgcd] at hnone
  rw [Correct,if_neg hm0',if_neg (by omega),powThreeArg_neg hb he hm hm0 hneg]
  simp only [hreduced,ho,bind,Except.bind]
  cases o with
  | none =>
    rw [if_neg (hnone.mp rfl)]
    exact ⟨_,rfl⟩
  | some inv =>
    have hone : Int.gcd b.toInt m.toInt=1 := by
      by_contra h
      cases hnone.mpr h
    obtain ⟨hlow,hinv⟩ := hsome inv rfl
    have hinvsafe : ¬(inv=Int64.minValue ∧ m=-1) := fun h => by
      rw [h.1] at hlow
      exact absurd hlow (by decide)
    have hexp : ¬(m=1 ∧ e.toInt.natAbs=0) := fun h => by omega
    obtain ⟨r,hr,hmod,hcan⟩ := power_ok hm0 hinvsafe hexp
    rw [if_pos hone]
    refine ⟨r,inv.toInt,hr,?_,hmod,hcan⟩
    rw [hval] at hinv
    exact ((Int.mod_modEq _ _).symm.mul_left _).trans hinv

theorem powThreeArg_exact (hb : base.asBigint=some b.toInt) (he : exp.asBigint=some e.toInt)
    (hm : modulus.asBigint=some m.toInt) :
    Correct b.toInt e.toInt m.toInt (powThreeArg base exp modulus) ↔
      ¬(m=1 ∧ e=0) ∧ ¬(b=Int64.minValue ∧ m=-1) := by
  have hb := asInt_ok hb
  have he := asInt_ok he
  have hm := asInt_ok hm
  constructor
  · intro h
    constructor
    · rintro ⟨rfl,rfl⟩
      rw [powThreeArg_nonneg hb he hm (by decide) (by decide)] at h
      change Correct b.toInt 0 1 (power 1 b 0) at h
      rw [zeroth_power] at h
      obtain ⟨r,hr,-,hcan⟩ := h
      cases hr
      exact absurd (hcan.1 (by decide)).2 (by decide)
    · rintro ⟨rfl,rfl⟩
      have hpanic : powThreeArg base exp modulus=.error .panic := by
        by_cases hneg : e.toInt<0
        · rw [powThreeArg_neg hb he hm (by decide) hneg]
          rfl
        · rw [powThreeArg_nonneg hb he hm (by decide) (by omega)]
          rfl
      rw [hpanic,Correct,if_neg (by decide)] at h
      by_cases hneg : 0 ≤ e.toInt
      · rw [if_pos hneg] at h
        obtain ⟨r,hr,-⟩ := h
        cases hr
      · rw [if_neg hneg,if_pos (by decide)] at h
        obtain ⟨r,c,hr,-⟩ := h
        cases hr
  · rintro ⟨hend,hsafe⟩
    by_cases hm0 : m=0
    · rw [hm0] at hm ⊢
      rw [Correct,if_pos (show (0 : Int64).toInt=0 from rfl)]
      exact ⟨_,powThreeArg_zero hb he hm⟩
    by_cases hneg : e.toInt<0
    · exact powThreeArg_inverse hb he hm hm0 hneg hsafe
    have hm0' : m.toInt≠0 := fun heq => hm0 (Int64.toInt_inj.mp heq)
    have hexp : ¬(m=1 ∧ e.toInt.natAbs=0) := fun h => by
      refine hend ⟨h.1,Int64.toInt_inj.mp ?_⟩
      exact Int.natAbs_eq_zero.mp h.2
    have hcast : e.toInt.natAbs=e.toInt.toNat := by omega
    obtain ⟨r,hr,hmod,hcan⟩ := power_ok hm0 hsafe hexp
    rw [Correct,if_neg hm0',if_pos (by omega),powThreeArg_nonneg hb he hm hm0 (by omega)]
    exact ⟨r,hr,hcast ▸ hmod,hcan⟩

/-- The inverse of 3 modulo 7. -/
theorem powThreeArg_exact_inverse : Correct 3 (-1) 7 (powThreeArg (.int 3) (.int (-1)) (.int 7)) :=
  (powThreeArg_exact (b := 3) (e := -1) (m := 7) rfl rfl rfl).mpr ⟨by decide,by decide⟩

/-- `pow(5, 0, 1)` is 1, not 0. -/
theorem zeroth_power_mod_one : ¬∀ (base exp modulus : Value) (b e m : Int64),
    base.asBigint=some b.toInt → exp.asBigint=some e.toInt → modulus.asBigint=some m.toInt →
      Correct b.toInt e.toInt m.toInt (powThreeArg base exp modulus) := by
  intro h
  have hone := h (.int 5) (.int 0) (.int 1) 5 0 1 rfl rfl rfl
  obtain ⟨r,hr,-,hcan⟩ := hone
  rw [powThreeArg_nonneg (b := 5) (e := 0) (m := 1) rfl rfl rfl (by decide) (by decide)] at hr
  change power 1 5 0=_ at hr
  rw [zeroth_power] at hr
  cases hr
  exact absurd (hcan.1 (by decide)).2 (by decide)

end Call

end PowMod
end InterpretThis
