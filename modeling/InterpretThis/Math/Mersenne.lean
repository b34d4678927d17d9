import Mathlib.NumberTheory.LucasLehmer
import Mathlib.Data.ZMod.Basic
import Mathlib.FieldTheory.Finite.Basic
import Mathlib.Data.Rat.Lemmas
import Mathlib.Tactic.FieldSimp

namespace InterpretThis.Mersenne

/-- The Mersenne prime `2^61-1`. -/
def modulus : Nat := 2^61-1

theorem modulus_prime : modulus.Prime := by
  have h : (mersenne 61).Prime := lucas_lehmer_sufficiency 61 (by norm_num) (by norm_num)
  exact h

instance : Fact modulus.Prime := ⟨modulus_prime⟩

instance : NeZero modulus := ⟨modulus_prime.ne_zero⟩

theorem modulus_pos : 0 < modulus := modulus_prime.pos

theorem two_pow_61 : (2 : ZMod modulus)^61=1 := by
  have h : ((2^61-1 : Nat) : ZMod modulus)=0 := ZMod.natCast_self modulus
  rw [Nat.cast_sub (Nat.one_le_two_pow)] at h
  push_cast at h
  exact sub_eq_zero.mp h

theorem two_ne_zero : (2 : ZMod modulus)≠0 := by
  intro h
  have := two_pow_61
  rw [h] at this
  norm_num at this

theorem ten_ne_zero : (10 : ZMod modulus)≠0 := by
  have h : ((10 : Nat) : ZMod modulus)≠0 := by
    rw [Ne,ZMod.natCast_eq_zero_iff]
    intro hd
    have := Nat.le_of_dvd (by norm_num) hd
    have hm : modulus=2305843009213693951 := rfl
    omega
  exact_mod_cast h

theorem val_of_lt (x : Nat) (h : x < modulus) : (x : ZMod modulus).val=x := ZMod.val_cast_of_lt h

theorem mod_eq_val (x : Nat) : x%modulus=(x : ZMod modulus).val := (ZMod.val_natCast modulus x).symm

section Rotation

def rotate (k x : Nat) : Nat := ((x<<<k)%2^64&&&modulus)|||(x>>>(61-k))

theorem rotate_eq (k x : Nat) (hk : k≤61) (hx : x<2^61) :
    rotate k x=x%2^(61-k)*2^k+x/2^(61-k) := by
  have hp : 2^(61-k)*2^k=2^61 := by rw [← pow_add]; congr 1; omega
  have hdiv : x/2^(61-k)<2^k := by
    rw [Nat.div_lt_iff_lt_mul (by positivity),Nat.mul_comm,hp]
    exact hx
  have low : (x<<<k)%2^64&&&modulus=x%2^(61-k)*2^k := by
    have hm : modulus=2^61-1 := rfl
    rw [hm,Nat.and_two_pow_sub_one_eq_mod,Nat.mod_mod_of_dvd _ (by norm_num),Nat.shiftLeft_eq,← hp,
      Nat.mul_mod_mul_right]
  rw [rotate,low,Nat.shiftRight_eq_div_pow,Nat.mul_comm _ (2^k),← Nat.two_pow_add_eq_or_of_lt hdiv]

theorem swap_lt (A B r q : Nat) (hr : r<A) (hq : q<B) (h : A*q+r+1<A*B) : r*B+q+1<A*B := by
  obtain ⟨d,hd⟩ := Nat.exists_eq_add_of_lt hr
  obtain ⟨e,he⟩ := Nat.exists_eq_add_of_lt hq
  have some : 0<d ∨ 0<e := by
    by_contra hn
    have hd0 : d=0 := by omega
    have he0 : e=0 := by omega
    rw [hd0] at hd
    rw [he0] at he
    rw [hd,he] at h
    ring_nf at h
    omega
  rw [hd,he]
  rcases some with hpos|hpos
  · nlinarith
  · nlinarith

theorem rotate_lt (k x : Nat) (hk : k≤61) (hx : x < modulus) : rotate k x < modulus := by
  have hx' : x<2^61 := lt_of_lt_of_le hx (by decide)
  have hp : 2^(61-k)*2^k=2^61 := by rw [← pow_add]; congr 1; omega
  have hm : modulus=2^61-1 := rfl
  have hd := Nat.div_add_mod x (2^(61-k))
  have hdiv : x/2^(61-k)<2^k := by
    rw [Nat.div_lt_iff_lt_mul (by positivity),Nat.mul_comm,hp]
    exact hx'
  have swapped := swap_lt (2^(61-k)) (2^k) (x%2^(61-k)) (x/2^(61-k))
    (Nat.mod_lt _ (by positivity)) hdiv (by rw [hd,hp]; omega)
  rw [rotate_eq k x hk hx']
  rw [hp] at swapped
  omega

theorem rotate_cast (k x : Nat) (hk : k≤61) (hx : x<2^61) :
    (rotate k x : ZMod modulus)=x*2^k := by
  have hd := Nat.div_add_mod x (2^(61-k))
  have hp : (2 : ZMod modulus)^(61-k)*2^k=1 := by
    rw [← pow_add,show 61-k+k=61 by omega,two_pow_61]
  rw [rotate_eq k x hk hx]
  nth_rewrite 3 [← hd]
  push_cast
  calc (x%2^(61-k) : Nat)*2^k+((x/2^(61-k) : Nat) : ZMod modulus)
      =(x%2^(61-k) : Nat)*2^k+((2 : ZMod modulus)^(61-k)*2^k)*(x/2^(61-k) : Nat) := by
        rw [hp,one_mul]
    _=_ := by ring

end Rotation

section Residue

def absResidue (q : Rat) : ZMod modulus := (q.num.natAbs : ZMod modulus)/(q.den : ZMod modulus)

theorem absResidue_eq (q : Rat) (a b : Nat) (hb : (b : ZMod modulus)≠0) (hq : |q|=(a : Rat)/b) :
    (q.den : ZMod modulus)≠0 ∧ absResidue q=(a : ZMod modulus)/b := by
  have hb0 : b≠0 := fun h => hb (by rw [h]; exact Nat.cast_zero)
  have hbq : (b : Rat)≠0 := Nat.cast_ne_zero.mpr hb0
  have hdq : (q.den : Rat)≠0 := Nat.cast_ne_zero.mpr q.den_nz
  have habs : |q|=(q.num.natAbs : Rat)/q.den := by
    rw [Rat.abs_def,Rat.divInt_eq_div,Int.cast_natCast,Int.cast_natCast]
  have cross : q.num.natAbs*b=a*q.den := by
    have h : (q.num.natAbs : Rat)/q.den=(a : Rat)/b := habs.symm.trans hq
    rw [div_eq_div_iff hdq hbq] at h
    exact_mod_cast h
  have crossZ : (q.num.natAbs : ZMod modulus)*b=a*q.den := by exact_mod_cast congrArg Nat.cast cross
  have hd : (q.den : ZMod modulus)≠0 := by
    intro h0
    have hdvd : q.den∣b := by
      have hcop : Nat.Coprime q.den q.num.natAbs := q.reduced.symm
      exact hcop.dvd_of_dvd_mul_left ⟨a,by rw [cross,Nat.mul_comm]⟩
    rw [ZMod.natCast_eq_zero_iff] at h0
    exact hb ((ZMod.natCast_eq_zero_iff b modulus).mpr (h0.trans hdvd))
  exact ⟨hd,by rw [absResidue,div_eq_div_iff hd hb,crossZ]⟩

end Residue

end InterpretThis.Mersenne
