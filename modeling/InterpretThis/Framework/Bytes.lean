import Mathlib.Data.Nat.Bitwise
import Mathlib.Data.Nat.ModEq
import Mathlib.Data.Nat.Size
import Mathlib.Tactic.Ring

namespace InterpretThis
namespace Bytes

/-- The low `k` bytes of a number, most significant first. -/
def bigEndian : ℕ → ℕ → List UInt8
  | 0,_ => []
  | k+1,n => UInt8.ofNat (n/256^k)::bigEndian k n

/-- The number that a byte string spells, most significant byte first. -/
def number : List UInt8 → ℕ
  | [] => 0
  | b::bs => b.toNat*256^bs.length+number bs

@[simp] theorem length_bigEndian (k n : ℕ) : (bigEndian k n).length=k := by
  induction k with
  | zero => rfl
  | succ k ih => simp only [bigEndian,List.length_cons,ih]

theorem number_lt (bs : List UInt8) : number bs<256^bs.length := by
  induction bs with
  | nil => simp [number]
  | cons b bs ih =>
    have hb : b.toNat≤255 := Nat.le_of_lt_succ b.toNat_lt
    have hm : b.toNat*256^bs.length≤255*256^bs.length := Nat.mul_le_mul_right _ hb
    simp only [number,List.length_cons,pow_succ]
    omega

theorem number_bigEndian (k n : ℕ) : number (bigEndian k n)=n%256^k := by
  induction k with
  | zero => simp [bigEndian,number,Nat.mod_one]
  | succ k ih =>
    have hb : (UInt8.ofNat (n/256^k)).toNat=n/256^k%256 := UInt8.toNat_ofNat'
    simp only [bigEndian,number,length_bigEndian,ih,hb]
    rw [pow_succ,Nat.mod_mul]
    ring

theorem pow_pos (k : ℕ) : 0<256^k := Nat.pow_pos (by decide)

theorem bigEndian_add (k m r : ℕ) : bigEndian k (m*256^k+r)=bigEndian k r := by
  induction k generalizing m with
  | zero => rfl
  | succ k ih =>
    have hsplit : m*256^(k+1)+r=m*256*256^k+r := by ring
    have hdiv : (m*256*256^k+r)/256^k=m*256+r/256^k := by
      rw [Nat.add_comm,Nat.add_mul_div_right _ _ (pow_pos _),Nat.add_comm]
    have hhead : UInt8.ofNat (m*256+r/256^k)=UInt8.ofNat (r/256^k) := by
      apply UInt8.toNat_inj.mp
      rw [UInt8.toNat_ofNat',UInt8.toNat_ofNat']
      omega
    simp only [bigEndian]
    rw [hsplit,hdiv,hhead,ih]

theorem bigEndian_number (bs : List UInt8) : bigEndian bs.length (number bs)=bs := by
  induction bs with
  | nil => rfl
  | cons b bs ih =>
    have hdiv : (b.toNat*256^bs.length+number bs)/256^bs.length=b.toNat := by
      rw [Nat.add_comm,Nat.add_mul_div_right _ _ (pow_pos _),
        Nat.div_eq_of_lt (number_lt bs),Nat.zero_add]
    simp only [List.length_cons,bigEndian,number]
    rw [hdiv,UInt8.ofNat_toNat,bigEndian_add,ih]

/-- The `k` bytes of an integer in two's complement. -/
def ofInt (k : ℕ) (n : ℤ) : List UInt8 := bigEndian k (BitVec.ofInt (8*k) n).toNat

def toInt (bs : List UInt8) : ℤ := (BitVec.ofNat (8*bs.length) (number bs)).toInt

theorem pow_bits (k : ℕ) : 256^k=2^(8*k) := by
  rw [pow_mul]
  rfl

@[simp] theorem length_ofInt (k : ℕ) (n : ℤ) : (ofInt k n).length=k := length_bigEndian _ _

theorem number_ofInt (k : ℕ) (n : ℤ) : number (ofInt k n)=(BitVec.ofInt (8*k) n).toNat := by
  unfold ofInt
  rw [number_bigEndian,pow_bits]
  exact Nat.mod_eq_of_lt (BitVec.isLt _)

theorem toInt_ofInt (k : ℕ) (n : ℤ) (hk : 0<k) (hl : -2^(8*k-1)≤n) (hu : n<2^(8*k-1)) :
    toInt (ofInt k n)=n := by
  unfold toInt
  rw [length_ofInt,number_ofInt,BitVec.ofNat_toNat,BitVec.setWidth_eq]
  exact BitVec.toInt_ofInt_eq_self (by omega) hl hu

theorem ofInt_toInt (bs : List UInt8) : ofInt bs.length (toInt bs)=bs := by
  unfold ofInt toInt
  rw [BitVec.ofInt_toInt,BitVec.toNat_ofNat,Nat.mod_eq_of_lt (pow_bits _ ▸ number_lt bs),
    bigEndian_number]

theorem toInt_bounds (bs : List UInt8) :
    -2^(8*bs.length-1)≤toInt bs ∧ toInt bs<2^(8*bs.length-1) :=
  ⟨BitVec.le_toInt _,BitVec.toInt_lt⟩

theorem number_ofInt_nat (k : ℕ) (n : ℤ) (h0 : 0≤n) (hu : n<2^(8*k)) :
    (number (ofInt k n) : ℤ)=n := by
  rw [number_ofInt,BitVec.toNat_ofInt]
  have hm : n%((2^(8*k) : ℕ) : ℤ)=n := Int.emod_eq_of_lt h0 (by exact_mod_cast hu)
  rw [hm]
  exact Int.toNat_of_nonneg h0

theorem ofInt_number (bs : List UInt8) : ofInt bs.length (number bs)=bs := by
  unfold ofInt
  rw [BitVec.ofInt_natCast,BitVec.toNat_ofNat,Nat.mod_eq_of_lt (pow_bits _ ▸ number_lt bs),
    bigEndian_number]

def minimal (n : ℕ) : List UInt8 := bigEndian (max 1 ((n.size+7)/8)) n

theorem length_minimal_le {n k : ℕ} (hk : 0<k) (hn : n<256^k) : (minimal n).length≤ k := by
  have hsize : n.size≤8*k := Nat.size_le.mpr (pow_bits k ▸ hn)
  rw [minimal,length_bigEndian]
  omega

theorem lt_minimal (n : ℕ) : n<256^(max 1 ((n.size+7)/8)) := by
  rw [pow_bits]
  exact Nat.size_le.mp (by omega)

theorem replicate_append_bigEndian {n k : ℕ} (hn : n<256^k) (m : ℕ) :
    List.replicate m 0++bigEndian k n=bigEndian (m+k) n := by
  induction m with
  | zero => simp
  | succ m ih =>
    have hpow : 256^k≤256^(m+k) := Nat.pow_le_pow_right (by decide) (by omega)
    have hdiv : n/256^(m+k)=0 := Nat.div_eq_of_lt (by omega)
    rw [List.replicate_succ,List.cons_append,ih,Nat.succ_add]
    simp only [bigEndian,hdiv]
    rfl

theorem replicate_append_minimal {n k : ℕ} (hk : 0<k) (hn : n<256^k) :
    List.replicate (k-(minimal n).length) 0++minimal n=bigEndian k n := by
  have hle := length_minimal_le hk hn
  rw [minimal,replicate_append_bigEndian (lt_minimal n)]
  rw [minimal,length_bigEndian] at hle
  rw [length_bigEndian,Nat.sub_add_cancel hle]

def highBit (bs : List UInt8) : Bool := bs.head?.any (fun b => b&&&0x80≠0)

theorem and_high (b : UInt8) : b&&&0x80≠0 ↔ 128≤b.toNat := by
  have hall : ∀ n : Fin 256,(UInt8.ofNat n &&& 0x80≠0 ↔ 128≤(n : ℕ)) := by
    set_option maxRecDepth 20000 in decide
  have hb := hall ⟨b.toNat,b.toNat_lt⟩
  rwa [UInt8.ofNat_toNat] at hb

theorem highBit_iff (bs : List UInt8) : highBit bs=true ↔ 256^bs.length≤2*number bs := by
  cases bs with
  | nil => simp [highBit,number]
  | cons b bs =>
    have hr := number_lt bs
    have hhead : highBit (b::bs)=true ↔ 128≤b.toNat := by
      rw [← and_high]
      simp [highBit]
    rw [hhead,List.length_cons,number,pow_succ]
    constructor
    · intro hb
      have hm : 128*256^bs.length≤b.toNat*256^bs.length := Nat.mul_le_mul_right _ hb
      omega
    · intro hle
      by_contra hb
      have hm : b.toNat*256^bs.length≤127*256^bs.length := Nat.mul_le_mul_right _ (by omega)
      omega

end Bytes

namespace Bits

/-- The low `k` bits of a number, most significant first. -/
def low : ℕ → ℕ → List Bool
  | 0,_ => []
  | k+1,n => n.testBit k::low k n

/-- The bits of numbers of `k` bits, one after another. -/
def spelled (k : ℕ) (ns : List ℕ) : List Bool := ns.flatMap (low k)

@[simp] theorem length_low (k n : ℕ) : (low k n).length=k := by
  induction k with
  | zero => rfl
  | succ k ih => rw [low,List.length_cons,ih]

theorem low_congr {k m n : ℕ} (h : ∀ i<k,m.testBit i=n.testBit i) : low k m=low k n := by
  induction k with
  | zero => rfl
  | succ k ih =>
    have hrest := ih fun i hi => h i (Nat.lt_succ_of_lt hi)
    rw [low,low,h k (Nat.lt_succ_self k),hrest]

theorem low_inj {k m n : ℕ} (h : low k m=low k n) : ∀ i<k,m.testBit i=n.testBit i := by
  induction k with
  | zero => exact fun i hi => absurd hi (Nat.not_lt_zero i)
  | succ k ih =>
    obtain ⟨htop,hrest⟩ := List.cons.inj h
    intro i hi
    obtain hi | rfl := Nat.lt_succ_iff_lt_or_eq.mp hi
    · exact ih hrest i hi
    · exact htop

theorem low_add (j k n : ℕ) : low (j+k) n=low j (n>>>k)++low k n := by
  induction j with
  | zero => rw [Nat.zero_add,low,List.nil_append]
  | succ j ih =>
    have hbit : (n>>>k).testBit j=n.testBit (j+k) := by rw [Nat.testBit_shiftRight,Nat.add_comm]
    have hcount : j+1+k=(j+k)+1 := by omega
    rw [hcount,low,low,hbit,ih,List.cons_append]

theorem low_shift_or (j k n v : ℕ) (hv : v<2^k) :
    low (j+k) ((n<<<k)|||v)=low j n++low k v := by
  rw [low_add]
  congr 1
  · apply low_congr
    intro i _
    have hhigh : v.testBit (k+i)=false :=
      Nat.testBit_lt_two_pow (hv.trans_le (Nat.pow_le_pow_right (by decide) (by omega)))
    simp [Nat.testBit_shiftRight,Nat.testBit_or,Nat.testBit_shiftLeft,hhigh]
  · apply low_congr
    intro i hi
    simp [Nat.testBit_or,Nat.testBit_shiftLeft,hi]

theorem low_mod (j k n : ℕ) (hk : k≤j) : low k (n%2^j)=low k n := by
  apply low_congr
  intro i hi
  have hij : i<j := by omega
  simp [Nat.testBit_mod_two_pow,hij]

theorem low_cancel {k m n : ℕ} (hm : m<2^k) (hn : n<2^k) (h : low k m=low k n) : m=n := by
  apply Nat.eq_of_testBit_eq
  intro i
  by_cases hi : i<k
  · exact low_inj h i hi
  · have hpow : 2^k≤2^i := Nat.pow_le_pow_right (by decide) (by omega)
    rw [Nat.testBit_lt_two_pow (hm.trans_le hpow),Nat.testBit_lt_two_pow (hn.trans_le hpow)]

@[simp] theorem spelled_nil (k : ℕ) : spelled k []=[] := rfl

@[simp] theorem spelled_cons (k n : ℕ) (ns : List ℕ) :
    spelled k (n::ns)=low k n++spelled k ns := rfl

theorem spelled_append (k : ℕ) (ms ns : List ℕ) :
    spelled k (ms++ns)=spelled k ms++spelled k ns := List.flatMap_append

@[simp] theorem length_spelled (k : ℕ) (ns : List ℕ) : (spelled k ns).length=k*ns.length := by
  induction ns with
  | nil => rfl
  | cons n ns ih => rw [spelled_cons,List.length_append,length_low,ih,List.length_cons,Nat.mul_succ,
      Nat.add_comm]

theorem spelled_cancel {k : ℕ} {ms ns : List ℕ} (hm : ∀ m∈ms,m<2^k) (hn : ∀ n∈ns,n<2^k)
    (hl : ms.length=ns.length) (h : spelled k ms=spelled k ns) : ms=ns := by
  induction ms generalizing ns with
  | nil => exact (List.length_eq_zero_iff.mp hl.symm).symm
  | cons m ms ih =>
    cases ns with
    | nil => cases hl
    | cons n ns =>
      have hsame : (low k m).length=(low k n).length := by rw [length_low,length_low]
      obtain ⟨hhead,htail⟩ := List.append_inj h hsame
      have hmn := low_cancel (hm m List.mem_cons_self) (hn n List.mem_cons_self) hhead
      have hrest := ih (fun x hx => hm x (List.mem_cons_of_mem _ hx))
        (fun x hx => hn x (List.mem_cons_of_mem _ hx)) (Nat.succ.inj hl) htail
      rw [hmn,hrest]

theorem spelled_cancel_tail {k : ℕ} {ms ns : List ℕ} {us vs : List Bool} (hm : ∀ m∈ms,m<2^k)
    (hn : ∀ n∈ns,n<2^k) (hu : us.length<k) (hv : vs.length<k)
    (h : spelled k ms++us=spelled k ns++vs) : ms=ns ∧ us=vs := by
  have hlen : k*ms.length+us.length=k*ns.length+vs.length := by
    have hall := congrArg List.length h
    rwa [List.length_append,List.length_append,length_spelled,length_spelled] at hall
  have hdiv : ∀ a b : ℕ,b<k → (k*a+b)/k=a := by
    intro a b hb
    rw [Nat.mul_add_div (by omega),Nat.div_eq_of_lt hb,Nat.add_zero]
  have hcount : ms.length=ns.length := by
    rw [← hdiv ms.length us.length hu,hlen,hdiv _ _ hv]
  have hsame : (spelled k ms).length=(spelled k ns).length := by
    rw [length_spelled,length_spelled,hcount]
  obtain ⟨hhead,htail⟩ := List.append_inj h hsame
  exact ⟨spelled_cancel hm hn hcount hhead,htail⟩

end Bits
end InterpretThis
