import InterpretThis.Framework.Register
import Mathlib.Data.Nat.Size
import Mathlib.Tactic.Ring

namespace InterpretThis.Random

open Register

def N : Nat := 624

def M : Nat := 397

def MATRIX_A : UInt32 := 0x9908b0df

def UPPER_MASK : UInt32 := 0x80000000

def LOWER_MASK : UInt32 := 0x7fffffff

structure MtState where
  mt : Vector UInt32 N
  mti : Nat

section Source

def word (mt : Vector UInt32 N) (i : Nat) : UInt32 := mt[i]?.getD 0

/-- The pass of a loop of `genrand_uint32`: the place, the one after it and the far one. -/
def twist (mt : Vector UInt32 N) (kk near far : Nat) : Vector UInt32 N :=
  let y := (word mt kk&&&UPPER_MASK)|||(word mt near&&&LOWER_MASK)
  let mag01 := if y&&&1=1 then MATRIX_A else 0
  mt.set! kk (word mt far^^^(y>>>1)^^^mag01)

/-- The three loops that make the next block, in place. -/
def regenerate (mt : Vector UInt32 N) : Vector UInt32 N :=
  let mt := (List.range (N-M)).foldl (fun mt kk => twist mt kk (kk+1) (kk+M)) mt
  let mt := (List.range' (N-M) (M-1)).foldl (fun mt kk => twist mt kk (kk+1) (kk+M-N)) mt
  twist mt (N-1) 0 (M-1)

def temper (y : UInt32) : UInt32 :=
  let y := y^^^(y>>>11)
  let y := y^^^((y<<<7)&&&0x9d2c5680)
  let y := y^^^((y<<<15)&&&0xefc60000)
  y^^^(y>>>18)

def genrandUint32 (s : MtState) : UInt32×MtState :=
  let s := if N≤ s.mti then ⟨regenerate s.mt,0⟩ else s
  (temper (word s.mt s.mti),⟨s.mt,s.mti+1⟩)

variable {σ : Type} (next : σ → UInt32×σ)

/-- The words from number `i` on, of which there are `left`. -/
def wordLoop : Nat → Nat → Nat → Nat → σ → Nat×σ
  | 0,_,_,result,s => (result,s)
  | left+1,i,remaining,result,s =>
    let (r,s) := next s
    let r := if remaining<32 then r.toNat>>>(32-remaining) else r.toNat
    wordLoop left (i+1) (remaining-32) (result|||(r<<<(32*i))) s

def getrandbits (k : Nat) (s : σ) : Nat×σ :=
  if k=0 then (0,s)
  else if k≤ 32 then
    let (r,s) := next s
    (r.toNat>>>(32-k),s)
  else wordLoop next ((k-1)/32+1) 0 k 0 s

end Source

section Spec

def timesA (x : UInt32) : UInt32 := if x&&&1=1 then (x>>>1)^^^MATRIX_A else x>>>1

/-- `x[k+624] = x[k+397] xor (upper bit of x[k], lower 31 bits of x[k+1]) A`. -/
def mt19937 : Taps UInt32 where
  n := 624
  m := 397
  one_lt := by decide
  m_lt := by decide
  combine x near far := far^^^timesA ((x&&&0x80000000)|||(near&&&0x7fffffff))

/-- The outputs of a source of words, in order. -/
def draws {σ : Type} (next : σ → UInt32×σ) : Nat → σ → List UInt32×σ
  | 0,s => ([],s)
  | n+1,s =>
    let (r,s) := next s
    let (rs,s) := draws next n s
    (r::rs,s)

/-- The number of `k` bits made of words, the least significant first and the last one shifted down
to the bits that remain. -/
def fromWords : List UInt32 → Nat → Nat
  | [],_ => 0
  | [w],k => w.toNat>>>(32-k)
  | w::ws,k => w.toNat+2^32*fromWords ws (k-32)

end Spec

section Block

variable (mt : Vector UInt32 N)

theorem word_set (kk i : Nat) (v : UInt32) (h : kk<N) :
    word (mt.set! kk v) i=Function.update (word mt) kk v i := by
  by_cases hi : i=kk
  · subst hi
    rw [Function.update_self,word,Vector.getElem?_set!_self_of_lt h]
    rfl
  · rw [Function.update_of_ne hi,word,word,Vector.getElem?_set!_ne fun he => hi he.symm]

theorem xor_timesA (far y : UInt32) :
    far^^^(y>>>1)^^^(if y&&&1=1 then MATRIX_A else 0)=far^^^timesA y := by
  unfold timesA
  split_ifs
  · rw [UInt32.xor_assoc]
  · rw [UInt32.xor_zero]

theorem word_twist {kk near far : Nat} (h : kk<N) (hnear : near=(kk+1)%N) (hfar : far=(kk+M)%N) :
    word (twist mt kk near far)=renew mt19937 (word mt) kk := by
  subst hnear hfar
  funext i
  rw [twist,word_set _ _ _ _ h,xor_timesA]
  rfl

theorem word_loop {near far : Nat → Nat} (is : List Nat)
    (h : ∀ kk∈is,kk<N ∧ near kk=(kk+1)%N ∧ far kk=(kk+M)%N) :
    word (is.foldl (fun mt kk => twist mt kk (near kk) (far kk)) mt)=
      is.foldl (renew mt19937) (word mt) := by
  induction is generalizing mt with
  | nil => rfl
  | cons kk is ih =>
    obtain ⟨hlt,hnear,hfar⟩ := h kk (List.mem_cons_self ..)
    rw [List.foldl_cons,List.foldl_cons,ih _ fun i hi => h i (List.mem_cons_of_mem _ hi),
      word_twist mt hlt hnear hfar]

theorem word_regenerate : word (regenerate mt)=(List.range N).foldl (renew mt19937) (word mt) := by
  have hplaces : List.range N=List.range (N-M)++List.range' (N-M) (M-1)++[N-1] := by
    have hjoin : List.range' 0 (N-M)++List.range' (N-M) (M-1)=List.range' 0 (N-1) :=
      List.range'_append_1
    have hlast : List.range' 0 N=List.range' 0 (N-1)++[N-1] := List.range'_1_concat
    rw [List.range_eq_range',List.range_eq_range',hjoin,hlast]
  have hfirst : ∀ kk∈List.range (N-M),kk<N ∧ kk+1=(kk+1)%N ∧ kk+M=(kk+M)%N := by
    intro kk hkk
    have hlt := List.mem_range.mp hkk
    unfold N M at *
    omega
  have hsecond : ∀ kk∈List.range' (N-M) (M-1),kk<N ∧ kk+1=(kk+1)%N ∧ kk+M-N=(kk+M)%N := by
    intro kk hkk
    have hlt := List.mem_range'_1.mp hkk
    unfold N M at *
    omega
  rw [regenerate,hplaces,List.foldl_append,List.foldl_append,List.foldl_cons,List.foldl_nil,
    word_twist _ (by decide) (by decide) (by decide),word_loop _ _ hsecond,word_loop _ _ hfirst]

end Block

section Draws

/-- After `k` draws: a block of terms of which the number of those used up tells how far it is. -/
def Drawn (start : Nat → UInt32) (k : Nat) (s : MtState) : Prop :=
  ∃ b,(∀ i,i<N → word s.mt i=term mt19937 start (b+i)) ∧ b+s.mti=N+k ∧ s.mti≤ N

/-- A draw outputs the next term, tempered. -/
theorem Drawn.step {start : Nat → UInt32} {k : Nat} {s : MtState} (h : Drawn start k s) :
    (genrandUint32 s).1=temper (term mt19937 start (N+k)) ∧
      Drawn start (k+1) (genrandUint32 s).2 := by
  obtain ⟨b,hblock,hsum,hle⟩ := h
  by_cases hfull : N≤ s.mti
  · have hnew : ∀ i,i<N → word (regenerate s.mt) i=term mt19937 start (b+N+i) := by
      rw [word_regenerate]
      exact pass_block mt19937 (by decide) hblock
    have hrun : genrandUint32 s=(temper (word (regenerate s.mt) 0),⟨regenerate s.mt,1⟩) := by
      rw [genrandUint32,if_pos hfull]
    rw [hrun]
    refine ⟨?_,b+N,hnew,?_,?_⟩
    · rw [hnew 0 (by decide),show b+N+0=N+k by omega]
    · change b+N+1=N+(k+1)
      omega
    · exact (by decide : 1≤ N)
  · have hrun : genrandUint32 s=(temper (word s.mt s.mti),⟨s.mt,s.mti+1⟩) := by
      rw [genrandUint32,if_neg hfull]
    rw [hrun]
    refine ⟨?_,b,hblock,?_,?_⟩
    · rw [hblock s.mti (by omega),hsum]
    · change b+(s.mti+1)=N+(k+1)
      omega
    · change s.mti+1≤ N
      omega

theorem draws_terms {start : Nat → UInt32} (n : Nat) {k : Nat} {s : MtState}
    (h : Drawn start k s) : (draws genrandUint32 n s).1=
      (List.range' k n).map fun i => temper (term mt19937 start (N+i)) := by
  induction n generalizing k s with
  | zero => rfl
  | succ n ih =>
    obtain ⟨hout,hnext⟩ := h.step
    rw [List.range'_succ,List.map_cons,← ih hnext,← hout]
    rfl

theorem draws_fresh (mt : Vector UInt32 N) (n : Nat) : (draws genrandUint32 n ⟨mt,N⟩).1=
    (List.range n).map fun k => temper (term mt19937 (word mt) (N+k)) := by
  have hstart : Drawn (word mt) 0 ⟨mt,N⟩ := by
    refine ⟨0,fun i hi => ?_,Nat.zero_add N,Nat.le_refl N⟩
    rw [Nat.zero_add,term_start mt19937 hi]
  rw [draws_terms n hstart,List.range_eq_range']

end Draws

section Bits

variable {σ : Type} {next : σ → UInt32×σ}

theorem draws_length (n : Nat) (s : σ) : (draws next n s).1.length=n := by
  induction n generalizing s with
  | zero => rfl
  | succ n ih => exact congrArg Nat.succ (ih _)

theorem fromWords_cons {w : UInt32} {ws : List UInt32} (k : Nat) (h : ws≠[]) :
    fromWords (w::ws) k=w.toNat+2^32*fromWords ws (k-32) := by
  cases ws with
  | nil => exact absurd rfl h
  | cons v vs => rfl

theorem or_shift {result r i : Nat} (h : result<2^(32*i)) :
    result|||(r<<<(32*i))=result+2^(32*i)*r := by
  rw [Nat.or_comm,← Nat.shiftLeft_add_eq_or_of_lt h,Nat.shiftLeft_eq]
  ring

theorem wordLoop_step {left i remaining result : Nat} {s t : σ} {r : UInt32} (h : next s=(r,t)) :
    wordLoop next (left+1) i remaining result s=wordLoop next left (i+1) (remaining-32)
      (result|||((if remaining<32 then r.toNat>>>(32-remaining) else r.toNat)<<<(32*i))) t := by
  simp only [wordLoop,h]

theorem draws_step {n : Nat} {s t : σ} {r : UInt32} (h : next s=(r,t)) :
    draws next (n+1) s=(r::(draws next n t).1,(draws next n t).2) := by
  simp only [draws,h]

theorem wordLoop_eq (left : Nat) {i remaining result : Nat} {s : σ}
    (hleft : left=(remaining+31)/32) (hresult : result<2^(32*i)) :
    wordLoop next left i remaining result s=
      (result+2^(32*i)*fromWords (draws next left s).1 remaining,(draws next left s).2) := by
  induction left generalizing i remaining result s with
  | zero => rfl
  | succ left ih =>
    rcases h : next s with ⟨r,t⟩
    have hr := r.toNat_lt
    have hcut : (if remaining<32 then r.toNat>>>(32-remaining) else r.toNat)≤ r.toNat := by
      split_ifs
      · exact Nat.shiftRight_le _ _
      · exact Nat.le_refl _
    rw [wordLoop_step h,draws_step h]
    generalize hword : (if remaining<32 then r.toNat>>>(32-remaining) else r.toNat)=w at hcut
    have hpow : 2^(32*(i+1))=2^(32*i)*2^32 := by ring
    have hnext : result+2^(32*i)*w<2^(32*(i+1)) := by
      have hw : w+1≤ 2^32 := by omega
      have hmul := Nat.mul_le_mul_left (2^(32*i)) hw
      rw [hpow]
      rw [Nat.mul_succ] at hmul
      omega
    rw [or_shift hresult,ih (by omega) hnext,Prod.mk.injEq]
    refine ⟨?_,rfl⟩
    cases left with
    | zero =>
      have hlast : fromWords [r] remaining=w := by
        rw [← hword,fromWords]
        split_ifs with hsmall
        · rfl
        · rw [show 32-remaining=0 by omega,Nat.shiftRight_zero]
      rw [draws,hlast,fromWords,Nat.mul_zero,Nat.add_zero]
    | succ left =>
      have hmore : (draws next (left+1) t).1≠[] := by
        intro hnil
        have hlen := @draws_length _ next (left+1) t
        rw [hnil] at hlen
        cases hlen
      rw [if_neg (by omega)] at hword
      rw [fromWords_cons _ hmore,hword,hpow]
      ring

theorem fromWords_lt {ws : List UInt32} {k : Nat} (h : ws.length=(k+31)/32) :
    fromWords ws k<2^k := by
  induction ws generalizing k with
  | nil => exact Nat.two_pow_pos k
  | cons w ws ih =>
    have hw := w.toNat_lt
    cases ws with
    | nil =>
      change 1=_ at h
      rw [fromWords,Nat.shiftRight_eq_div_pow,Nat.div_lt_iff_lt_mul (Nat.two_pow_pos _),
        ← Nat.pow_add,
        show k+(32-k)=32 by omega]
      exact hw
    | cons v vs =>
      rw [List.length_cons] at h
      have hrest := ih (by omega : (v::vs).length=(k-32+31)/32)
      have hpow : 2^k=2^32*2^(k-32) := by
        rw [← Nat.pow_add]
        congr 1
        have hlen : (v::vs).length=vs.length+1 := rfl
        omega
      have hmul := Nat.mul_le_mul_left (2^32) (show fromWords (v::vs) (k-32)+1≤ 2^(k-32) by omega)
      rw [fromWords_cons _ (List.cons_ne_nil v vs),hpow]
      rw [Nat.mul_succ] at hmul
      omega

theorem getrandbits_words (k : Nat) (s : σ) : getrandbits next k s=
    (fromWords (draws next ((k+31)/32) s).1 k,(draws next ((k+31)/32) s).2) := by
  rw [getrandbits]
  split_ifs with h0 h32
  · rw [h0]
    rfl
  · rw [show (k+31)/32=1 by omega]
    rfl
  · rw [wordLoop_eq _ (by omega) (by rw [Nat.mul_zero]; exact Nat.one_pos),
      show (k-1)/32+1=(k+31)/32 by omega,Nat.mul_zero,Nat.pow_zero,Nat.one_mul,Nat.zero_add]

end Bits

/-- The outputs from a used up state are the tempered terms of the recurrence, and any number of
bits is made of the outputs that follow. -/
theorem twister_exact (mt : Vector UInt32 N) :
    (∀ n,(draws genrandUint32 n ⟨mt,N⟩).1=
      (List.range n).map fun k => temper (term mt19937 (word mt) (N+k))) ∧
    ∀ (s : MtState) (k : Nat),
      getrandbits genrandUint32 k s=
        (fromWords (draws genrandUint32 ((k+31)/32) s).1 k,
          (draws genrandUint32 ((k+31)/32) s).2) ∧
      (getrandbits genrandUint32 k s).1<2^k := by
  refine ⟨draws_fresh mt,fun s k => ⟨getrandbits_words k s,?_⟩⟩
  rw [getrandbits_words]
  exact fromWords_lt (draws_length _ _)

end InterpretThis.Random
