import InterpretThis.Value.Key
import InterpretThis.Value.Meaning
import InterpretThis.Value.Tower

namespace InterpretThis

open Pyhash Mersenne

/-- What `hash()` reads of a registered class. -/
structure HashClass where
  mro : List String
  methods : List String
  classAttrs : List (String×Value)
  isDataclass : Bool

section Slots

/-- `finalize_hash`. -/
def finalizeI64 (h : Int64) : Int64 := if h=-1 then -2 else h

def noneHashSlot : Int64 := 0

/-- `int_hash_impl`. -/
def intHashImpl (n : Int64) : Int64 :=
  let abs : Int := ((n.toInt.natAbs%modulus : Nat) : Int)
  Int64.ofInt (if n.toInt<0 then -abs else abs)

def boolHashSlot (b : Bool) : Int64 := finalizeI64 (intHashImpl (boolI64 b))

def bigintHashSlot (n : Int) : Int64 :=
  let rem : Int := ((n.natAbs%modulus : Nat) : Int)
  let rem := if n<0 then -rem else rem
  finalizeI64 ((fitsI64 rem).getD 0)

/-- The second `frexp`: a subnormal is scaled up by `2^54`. -/
def frexpSlot (f : F64) : Nat×Int :=
  if f.mag=0 then (0,0)
  else if f.mag/2^52=0 then
    let top := Nat.log 2 f.mag
    let up := (top+3)*2^52+(f.mag*2^(52-top)-2^52)
    (2^52+up%2^52,((up/2^52 : Nat) : Int)-1022-54)
  else (2^52+f.mag%2^52,((f.mag/2^52 : Nat) : Int)-1022)

/-- `float_hash_impl`: the hash before `-1` is folded. -/
def floatHashImpl (f : F64) : Int64 :=
  if f.isFinite=false then
    if f.isInfinite then Int64.ofInt (if 0<f.key then hashInf else -hashInf)
    else 0
  else
    let (m,e) := frexpSlot f
    let (x,e) := hashLoop 2 m 0 e
    let x := rotate (exponentMod e) x
    Int64.ofInt (if f.key<0 then -(x : Int) else x)

def floatHashSlot (f : F64) : Int64 := finalizeI64 (floatHashImpl f)

def complexHashSlot (re im : F64) : Int64 :=
  finalizeI64 (floatHashImpl re+1000003*floatHashImpl im)

variable (sip : List UInt8 → UInt64) (finish : List Datum → UInt64)

def fallbackHashSlot (v : Value) : Except InterpreterError Int64 :=
  match pythonHash sip v with
  | some h => .ok h
  | none => (valueToKey finish v).map fun k =>
    finalizeI64 (finish (keyFeed finish k)).toInt64

/-- The `hash_slot` of the value's type; `none` marks an unhashable type. -/
def hashSlot (v : Value) : Option (Except InterpreterError Int64) :=
  match v with
  | .none => some (.ok noneHashSlot)
  | .bool b => some (.ok (boolHashSlot b))
  | .int n => some (.ok (finalizeI64 (intHashImpl n)))
  | .bigInt n => some (.ok (bigintHashSlot n))
  | .float f => some (.ok (floatHashSlot f))
  | .complex re im => some (.ok (complexHashSlot re im))
  | .decimal d => some (.ok (decimalHash d.digits))
  | .fraction q => some (.ok (fractionHash q))
  | .byteArray _ => none
  | .list _ _ => none
  | .dict _ _ => none
  | .orderedDict _ _ => none
  | .set _ => none
  | .deque _ _ => none
  | _ => some (fallbackHashSlot sip finish v)

variable (classes : List (String×HashClass))

def definesDunder (className dunder : String) : Bool :=
  match classes.lookup className with
  | none => false
  | some c => c.mro.any fun anc => match classes.lookup anc with
    | none => false
    | some c => c.methods.contains dunder

/-- The first class of the MRO that says anything about `__hash__` decides. -/
def hashIsNone (className : String) : Bool :=
  match classes.lookup className with
  | none => false
  | some c =>
    let verdict := c.mro.findSome? fun anc => match classes.lookup anc with
      | none => none
      | some c =>
        if c.methods.contains "__hash__" then some false
        else match c.classAttrs.lookup "__hash__" with
          | some .none => some true
          | _ => none
    verdict==some true

def unhashable (name : String) : InterpreterError := .typeError ("unhashable type: '"++name++"'")

def slotHash (v : Value) : Except InterpreterError Int64 :=
  match hashSlot sip finish v with
  | some r => r
  | none => .error (unhashable v.typeObjectName)

def instanceHash (className : String) (addr : Addr) (v : Value) : Except InterpreterError Int64 :=
  let hasHash := definesDunder classes className "__hash__"
  let dataclassDefault := (match classes.lookup className with
    | none => false
    | some c => c.isDataclass)&&!hasHash
  if hashIsNone classes className||dataclassDefault||
      (definesDunder classes className "__eq__"&&!hasHash) then .error (unhashable className)
  else if hasHash then slotHash sip finish v
  else .ok (finalizeI64 (addrHash addr))

/-- `dispatch_hash`. -/
def dispatchHash : Value → Except InterpreterError Int64
  | .enumMember _ _ value .int => dispatchHash value
  | .enumMember _ _ value .intFlag => dispatchHash value
  | .enumMember _ _ value .str => dispatchHash value
  | .instanceValue className addr fields =>
    instanceHash sip finish classes className addr (.instanceValue className addr fields)
  | v => slotHash sip finish v

end Slots

section Floats

theorem frexpSlot_eq (f : F64) : frexpSlot f=frexp f := by
  unfold frexpSlot frexp
  split_ifs with h0 hsub
  · rfl
  · have hlt : f.mag<2^52 := by omega
    have hlow := Nat.pow_log_le_self 2 h0
    have hhigh := Nat.lt_pow_succ_log_self (b := 2) (by omega) f.mag
    have htop : Nat.log 2 f.mag<52 := Nat.log_lt_of_lt_pow h0 hlt
    have hq₂ : f.mag*2^(52-Nat.log 2 f.mag)<2^53 := by
      calc f.mag*2^(52-Nat.log 2 f.mag)
          <2^(Nat.log 2 f.mag+1)*2^(52-Nat.log 2 f.mag) :=
            Nat.mul_lt_mul_of_pos_right hhigh (by positivity)
        _=2^53 := by rw [← pow_add]; congr 1; omega
    obtain ⟨q,hq⟩ : ∃q,q=f.mag*2^(52-Nat.log 2 f.mag) := ⟨_,rfl⟩
    dsimp only
    rw [← hq] at hq₂ ⊢
    ext
    · dsimp only
      omega
    · dsimp only
      omega
  · rfl

/-- The signed residue that a finite float hashes to before `-1` is folded. -/
def signedResidue (q : Rat) : Int :=
  if q<0 then -((absResidue q).val : Int) else (absResidue q).val

theorem signedResidue_bound (q : Rat) : (signedResidue q).natAbs<2^61 := by
  have hv := ZMod.val_lt (absResidue q)
  have hm : modulus<2^61 := by decide
  unfold signedResidue
  split_ifs <;> omega

theorem floatHashImpl_finite (f : F64) (hf : f.isFinite=true) :
    floatHashImpl f=Int64.ofInt (signedResidue f.toRat) := by
  obtain ⟨-,hxval⟩ := double_residue f
  have hnf : ¬f.isFinite=false := by rw [hf]; decide
  unfold floatHashImpl
  rw [if_neg hnf,frexpSlot_eq]
  dsimp only
  rw [hxval,signedResidue]
  simp only [F64.toRat_neg]

theorem finalizeI64_ofInt (h : Int) (hb : h.natAbs<2^61) :
    finalizeI64 (Int64.ofInt h)=finalizeHash h := by
  have hiff : Int64.ofInt h=-1 ↔ h=-1 := by
    rw [← Int64.toInt_inj,Int64.toInt_ofInt_of_le (by omega) (by omega)]
    exact Iff.rfl
  unfold finalizeI64 finalizeHash
  simp only [hiff]
  split_ifs <;> rfl
 
theorem floatHashSlot_eq (f : F64) : floatHashSlot f=hashDouble f := by
  cases hf : f.isFinite with
  | true =>
    rw [floatHashSlot,floatHashImpl_finite f hf,finalizeI64_ofInt _ (signedResidue_bound _),
      hashDouble_eq f hf,numericHash,if_neg (double_residue f).1,signedResidue]
  | false =>
    unfold floatHashSlot floatHashImpl hashDouble
    rw [if_pos hf,if_pos hf]
    split
    · split <;> decide
    · decide

end Floats

section Complex

theorem finalizeI64_eq (x y : Int64) :
    finalizeI64 x=finalizeI64 y ↔ x=y ∨ (x=-1 ∧ y=-2) ∨ (x=-2 ∧ y=-1) := by
  have hne : (-1 : Int64)≠-2 := by decide
  unfold finalizeI64
  split_ifs with hx hy hy
  · rw [hx,hy]
    simp
  · rw [hx]
    simp only [hne,true_and,false_and,or_false]
    exact ⟨fun h => .inr h.symm,fun h => h.elim (fun h => absurd h.symm hy) Eq.symm⟩
  · rw [hy]
    simp only [hne,and_true,and_false,false_or]
    exact ⟨.inr,fun h => h.elim (fun h => absurd h hx) id⟩
  · simp [hx,hy]

theorem imaginary_unit (i : Int64) : 1000003*i=0 ↔ i=0 := by
  have hinv : (16109806864799210091 : Int64)*1000003=1 := by decide
  constructor
  · intro h
    have hm := congrArg (fun x => (16109806864799210091 : Int64)*x) h
    simp only [Int64.mul_zero] at hm
    rw [← Int64.mul_assoc,hinv,Int64.one_mul] at hm
    exact hm
  · intro h
    rw [h,Int64.mul_zero]

/-- Folding the parts and folding only the sum agree unless a folded part counts. -/
theorem fold_parts (r i : Int64) :
    finalizeI64 (r+1000003*i)=finalizeI64 (finalizeI64 r+1000003*finalizeI64 i) ↔
      ¬(i=-1 ∨ (r=-1 ∧ i≠0)) := by
  rw [finalizeI64_eq]
  by_cases hi : i=-1
  · have hi' : finalizeI64 i=-2 := by rw [hi]; rfl
    rw [hi',hi]
    by_cases hr : r=-1
    · have hr' : finalizeI64 r=-2 := by rw [hr]; rfl
      rw [hr',hr]
      decide
    · have hr' : finalizeI64 r=r := if_neg hr
      rw [hr']
      have hne : ¬(r+1000003*(-1 : Int64)=r+1000003*(-2) ∨
          (r+1000003*(-1 : Int64)=-1 ∧ r+1000003*(-2 : Int64)=-2) ∨
          (r+1000003*(-1 : Int64)=-2 ∧ r+1000003*(-2 : Int64)=-1)) := by grind
      exact ⟨fun h => absurd h hne,fun h => absurd (.inl rfl) h⟩
  · have hi' : finalizeI64 i=i := if_neg hi
    rw [hi']
    by_cases hr : r=-1
    · have hr' : finalizeI64 r=-2 := by rw [hr]; rfl
      rw [hr',hr]
      have hsum : ((-1)+1000003*i=(-2)+1000003*i ∨
          ((-1)+1000003*i=-1 ∧ (-2)+1000003*i=-2) ∨
          ((-1)+1000003*i=-2 ∧ (-2)+1000003*i=-1)) ↔ 1000003*i=0 := by grind
      rw [hsum,imaginary_unit]
      simp [hi]
    · have hr' : finalizeI64 r=r := if_neg hr
      rw [hr']
      simp [hi,hr]

theorem hashComplex_fold (re im : F64) :
    hashComplex re im=finalizeI64 (hashDouble re+1000003*hashDouble im) := by
  obtain ⟨r,hr⟩ : ∃r, r=hashDouble re := ⟨_,rfl⟩
  obtain ⟨i,hi⟩ : ∃i, i=hashDouble im := ⟨_,rfl⟩
  have hcast : (r.toUInt64+1000003*i.toUInt64).toInt64=r+1000003*i := by
    rfl
  have hmax : r.toUInt64+1000003*i.toUInt64=18446744073709551615 ↔ r+1000003*i=-1 := by
    rw [← hcast]
    constructor
    · intro h
      rw [h]
      rfl
    · intro h
      exact congrArg Int64.toUInt64 h
  unfold hashComplex finalizeI64
  rw [← hr,← hi]
  dsimp only
  simp only [hmax]
  split_ifs with h
  · have hu := hmax.mpr h
    rw [hu]
    rfl
  · exact hcast

/-- A negative float whose magnitude leaves the residue 1: it hashes to the reserved `-1`. -/
def NegativeUnit (f : F64) : Prop :=
  f.isFinite=true ∧ f.toRat<0 ∧ absResidue f.toRat=1

/-- A float that hashes to zero. -/
def Vanishes (f : F64) : Prop :=
  f.isNan=true ∨ (f.isFinite=true ∧ absResidue f.toRat=0)

theorem ofInt_residue (q : Rat) (n : Int) (hn : n.natAbs<2^61) :
    Int64.ofInt (signedResidue q)=Int64.ofInt n ↔ signedResidue q=n := by
  have hb := signedResidue_bound q
  rw [← Int64.toInt_inj,Int64.toInt_ofInt_of_le (by omega) (by omega),
    Int64.toInt_ofInt_of_le (by omega) (by omega)]

theorem floatHashImpl_reserved (f : F64) : floatHashImpl f=-1 ↔ NegativeUnit f := by
  cases hf : f.isFinite with
  | true =>
    have hone : absResidue f.toRat=1 ↔ (absResidue f.toRat).val=1 := by
      rw [← ZMod.val_injective modulus |>.eq_iff,ZMod.val_one]
    have hread := ofInt_residue f.toRat (-1) (by decide)
    rw [floatHashImpl_finite f hf,NegativeUnit,hone]
    refine hread.trans ?_
    unfold signedResidue
    split_ifs with hneg
    · simp only [hf,hneg,true_and]
      omega
    · simp only [hneg,false_and,and_false]
  | false =>
    have hnot : ¬NegativeUnit f := by
      intro h
      rw [h.1] at hf
      cases hf
    simp only [hnot,iff_false]
    unfold floatHashImpl
    rw [if_pos hf]
    split
    · split <;> decide
    · decide

theorem floatHashImpl_zero (f : F64) : floatHashImpl f=0 ↔ Vanishes f := by
  cases hf : f.isFinite with
  | true =>
    have hnan := F64.isNan_of_finite f hf
    have hzero : absResidue f.toRat=0 ↔ (absResidue f.toRat).val=0 := (ZMod.val_eq_zero _).symm
    have hread := ofInt_residue f.toRat 0 (by decide)
    rw [floatHashImpl_finite f hf,Vanishes,hzero,hnan,hf]
    refine hread.trans ?_
    unfold signedResidue
    simp only [Bool.false_eq_true,false_or,true_and]
    split_ifs <;> omega
  | false =>
    unfold floatHashImpl Vanishes
    rw [if_pos hf,hf]
    cases hi : f.isInfinite with
    | true =>
      have hnan : f.isNan=false := by
        simp only [F64.isInfinite,decide_eq_true_eq] at hi
        simp only [F64.isNan,hi,decide_eq_false_iff_not]
        omega
      rw [hnan]
      simp only [if_true,Bool.false_eq_true,false_and,or_self,iff_false]
      split <;> decide
    | false =>
      have hnan : f.isNan=true := by
        simp only [F64.isInfinite,F64.isFinite,decide_eq_false_iff_not] at hi hf
        simp only [F64.isNan,decide_eq_true_eq]
        omega
      simp [hnan]

theorem complexHashSlot_eq (re im : F64) :
    complexHashSlot re im=hashComplex re im ↔
      ¬(NegativeUnit im ∨ (NegativeUnit re ∧ ¬Vanishes im)) := by
  rw [complexHashSlot,hashComplex_fold,← floatHashSlot_eq,← floatHashSlot_eq,floatHashSlot,
    floatHashSlot,fold_parts,floatHashImpl_reserved,floatHashImpl_reserved,Ne,floatHashImpl_zero]

end Complex

section Integers

theorem intHashImpl_eq (n : Int64) : finalizeI64 (intHashImpl n)=hashI64 n := by
  have hm : modulus<2^61 := by decide
  have hlt := Nat.mod_lt n.toInt.natAbs modulus_pos
  rw [intHashImpl,hashI64,hashInteger]
  exact finalizeI64_ofInt _ (by split_ifs <;> omega)

theorem bigintHashSlot_eq (n : Int) : bigintHashSlot n=hashBigint n := by
  have hm : modulus<2^61 := by decide
  have hlt := Nat.mod_lt n.natAbs modulus_pos
  have hmin : Int64.minValue.toInt=-2^63 := by decide
  have hmax : Int64.maxValue.toInt=2^63-1 := by decide
  unfold bigintHashSlot hashBigint hashInteger fitsI64
  dsimp only
  rw [if_pos (by rw [hmin,hmax]; split_ifs <;> omega),Option.getD_some]
  exact finalizeI64_ofInt _ (by split_ifs <;> omega)

theorem boolHashSlot_eq (b : Bool) : boolHashSlot b=boolI64 b := by cases b <;> decide

end Integers

/-- Where the two hashes part: `None`, and a complex number with a part that hashes to the
reserved `-1`, unless it is the real part and the imaginary part hashes to zero. -/
def HashesApart (v : Value) : Prop :=
  v=.none ∨ ∃re im, v=.complex re im ∧ (NegativeUnit im ∨ (NegativeUnit re ∧ ¬Vanishes im))

section Agreement

variable (sip : List UInt8 → UInt64) (finish : List Datum → UInt64)
  (classes : List (String×HashClass)) (v : Value) (h : Int64)

theorem dispatchHash_builtin (hv : pythonHash sip v=some h) :
    dispatchHash sip finish classes v=slotHash sip finish v := by
  cases v with
  | enumMember c m value kind => cases kind <;> cases hv
  | instanceValue c addr fields => cases hv
  | _ => rfl

/-- The slots with code of their own, and those that ask the shared hash. -/
theorem hashSlot_cases (hv : pythonHash sip v=some h) :
    v=.none ∨ (∃re im, v=.complex re im) ∨ hashSlot sip finish v=some (.ok h) := by
  have hfall : fallbackHashSlot sip finish v=.ok h := by rw [fallbackHashSlot,hv]
  cases v with
  | none => exact .inl rfl
  | complex re im => exact .inr (.inl ⟨re,im,rfl⟩)
  | bool b =>
    cases hv
    exact .inr (.inr (by rw [hashSlot,boolHashSlot_eq]))
  | int n =>
    cases hv
    exact .inr (.inr (by rw [hashSlot,intHashImpl_eq]))
  | bigInt n =>
    cases hv
    exact .inr (.inr (by rw [hashSlot,bigintHashSlot_eq]))
  | float f =>
    cases hv
    exact .inr (.inr (by rw [hashSlot,floatHashSlot_eq]))
  | decimal d =>
    cases hv
    exact .inr (.inr rfl)
  | fraction q =>
    cases hv
    exact .inr (.inr rfl)
  | byteArray b => cases hv
  | list addr items => cases hv
  | dict addr entries => cases hv
  | orderedDict addr entries => cases hv
  | set items => cases hv
  | deque items maxlen => cases hv
  | _ => exact .inr (.inr (congrArg some hfall))

/-- `hash()` returns what sets and tuples use, for exactly the values not set apart above. -/
theorem hashes_agree (hv : pythonHash sip v=some h) :
    dispatchHash sip finish classes v=.ok h ↔ ¬HashesApart v := by
  rw [dispatchHash_builtin sip finish classes v h hv,slotHash]
  by_cases hn : v=.none
  · have happart : HashesApart v := .inl hn
    have hne : ¬(.ok noneHashSlot : Except InterpreterError Int64)=.ok noneHash := by
      rw [Except.ok.injEq]
      decide
    rw [hn] at hv
    cases hv
    simp only [hn] at happart ⊢
    rw [hashSlot]
    exact ⟨fun he => absurd he hne,fun ha => absurd happart ha⟩
  by_cases hc : ∃re im, v=.complex re im
  · obtain ⟨re,im,hc⟩ := hc
    have happart : HashesApart v ↔ NegativeUnit im ∨ (NegativeUnit re ∧ ¬Vanishes im) := by
      constructor
      · rintro (hn'|⟨re',im',hc',hu⟩)
        · exact absurd hn' hn
        · rw [hc] at hc'
          cases hc'
          exact hu
      · intro hu
        exact .inr ⟨re,im,hc,hu⟩
    rw [happart,← complexHashSlot_eq]
    rw [hc] at hv ⊢
    rw [pythonHash] at hv
    cases hv
    rw [hashSlot,Except.ok.injEq]
  · have hother : ¬HashesApart v := by
      rintro (hn'|⟨re,im,hc',-⟩)
      · exact hn hn'
      · exact hc ⟨re,im,hc'⟩
    have hs := ((hashSlot_cases sip finish v h hv).resolve_left hn).resolve_left hc
    rw [hs]
    simp only [hother,not_false_eq_true]

end Agreement

/-- The theorem at `hash((None,))`, whose element alone would be set apart. -/
theorem hashes_agree_tuple :
    pythonHash (fun _ => 0) (.tuple [.none])=some (hashTuple [noneHash]) ∧
      dispatchHash (fun _ => 0) (fun _ => 0) [] (.tuple [.none])=.ok (hashTuple [noneHash]) :=
  ⟨rfl,(hashes_agree _ _ _ (.tuple [.none]) _ rfl).mpr (by rintro (h|⟨_,_,h,_⟩) <;> cases h)⟩

/-- `hash(None)` is 0, and `None` is filed under another hash. -/
theorem none_hashes_apart :
    ¬∀(sip : List UInt8 → UInt64) (finish : List Datum → UInt64)
      (classes : List (String×HashClass)) (v : Value) (h : Int64),
      pythonHash sip v=some h → dispatchHash sip finish classes v=.ok h := by
  intro hall
  have hn := hall (fun _ => 0) (fun _ => 0) [] .none noneHash rfl
  revert hn
  simp only [dispatchHash,slotHash,hashSlot,Except.ok.injEq]
  decide

def Value.exactly (v : Value) : Option Rat := v.number.bind Number.exact

/-- The residue of the magnitude with the sign, `-1` folded to `-2`. -/
def expectedHash (q : Rat) : Int :=
  let h : Int := q.num.sign*(((q.num.natAbs : ZMod modulus)*(q.den : ZMod modulus)⁻¹).val : Nat)
  if h=-1 then -2 else h

section Formula

variable (q : Rat)

theorem signedResidue_sign :
    signedResidue q=q.num.sign*(((q.num.natAbs : ZMod modulus)*(q.den : ZMod modulus)⁻¹).val : Nat) := by
  rw [← div_eq_mul_inv,← absResidue,signedResidue]
  by_cases hneg : q.num<0
  · rw [if_pos (Rat.num_neg.mp hneg),Int.sign_eq_neg_one_of_neg hneg]
    omega
  · rw [if_neg (fun h => hneg (Rat.num_neg.mpr h))]
    by_cases hzero : q.num=0
    · rw [absResidue,hzero,Int.natAbs_zero,Nat.cast_zero,zero_div,ZMod.val_zero]
      decide
    · rw [Int.sign_eq_one_of_pos (by omega)]
      omega

theorem finalizeHash_toInt (h : Int) (hb : h.natAbs<2^61) :
    (finalizeHash h).toInt=if h=-1 then -2 else h := by
  rw [finalizeHash]
  exact Int64.toInt_ofInt_of_le (by split_ifs <;> omega) (by split_ifs <;> omega)

theorem numericHash_unit (hd : (q.den : ZMod modulus)≠0) : (numericHash q).toInt=expectedHash q := by
  have hres : numericHash q=finalizeHash (signedResidue q) := by
    rw [numericHash,if_neg hd,signedResidue]
  rw [hres,finalizeHash_toInt _ (signedResidue_bound q),signedResidue_sign,expectedHash]

theorem numericHash_infinite (hd : (q.den : ZMod modulus)=0) :
    (numericHash q).toInt=q.num.sign*314159 := by
  have hzero : q.num≠0 := by
    intro h
    have hden : q.den=1 := by rw [Rat.zero_of_num_zero h]; rfl
    rw [hden,Nat.cast_one] at hd
    exact one_ne_zero hd
  have hinf : hashInf=314159 := rfl
  rw [numericHash,if_pos hd,finalizeHash_toInt _ (by split_ifs <;> omega)]
  by_cases hneg : q.num<0
  · simp only [if_pos (Rat.num_neg.mp hneg),Int.sign_eq_neg_one_of_neg hneg]
    omega
  · simp only [if_neg (fun h => hneg (Rat.num_neg.mpr h)),Int.sign_eq_one_of_pos (show 0<q.num by omega)]
    omega

end Formula

variable (sip : List UInt8 → UInt64) (finish : List Datum → UInt64)

/-- Every slot of the tower computes the one hash of the number. -/
theorem hashSlot_exactly {v : Value} {q : Rat} (hq : v.exactly=some q)
    (hscale : ∀ d,v=.decimal d → d.digits.scale≠Int64.minValue) :
    hashSlot sip finish v=some (.ok (numericHash q)) := by
  cases v with
  | bool b =>
    cases hq
    rw [hashSlot,boolHashSlot,intHashImpl_eq,hashI64,boolI64_toInt,hashInteger_eq]
  | int n =>
    cases hq
    rw [hashSlot,intHashImpl_eq,hashI64,hashInteger_eq]
  | bigInt n =>
    cases hq
    rw [hashSlot,bigintHashSlot_eq,hashBigint,hashInteger_eq]
  | float f =>
    simp only [Value.exactly,Value.number,Option.bind_some,Number.exact] at hq
    split at hq
    case isTrue hf =>
      cases hq
      rw [hashSlot,floatHashSlot_eq,hashDouble_eq f hf]
    case isFalse => cases hq
  | complex re im => cases hq
  | decimal d =>
    simp only [Value.exactly,Value.number,Option.bind_some,Number.exact] at hq
    split at hq
    case isTrue => cases hq
    case isFalse =>
      cases hq
      rw [hashSlot,decimalHash_eq d.digits (hscale d rfl)]
  | fraction q =>
    cases hq
    rw [hashSlot,fractionHash_eq]
  | _ => cases hq

/-- One number, one hash, whatever stands for it; a denominator that the modulus divides has the hash of infinity. -/
theorem numeric_slots (v : Value) (q : Rat) (hq : v.exactly=some q)
    (hscale : ∀ d,v=.decimal d → d.digits.scale≠Int64.minValue) :
    ∃ h,hashSlot sip finish v=some (.ok h) ∧
      h.toInt=if (q.den : ZMod modulus)=0 then q.num.sign*314159 else expectedHash q := by
  refine ⟨numericHash q,hashSlot_exactly sip finish hq hscale,?_⟩
  by_cases hd : (q.den : ZMod modulus)=0
  · rw [if_pos hd,numericHash_infinite q hd]
  · rw [if_neg hd,numericHash_unit q hd]

theorem numeric_slots_half :
    ∃ h,hashSlot (fun _ => 0) (fun _ => 0) (.fraction (-5/2))=some (.ok h) ∧
      h.toInt=if ((-5/2 : Rat).den : ZMod modulus)=0 then (-5/2 : Rat).num.sign*314159
        else expectedHash (-5/2) :=
  numeric_slots (fun _ => 0) (fun _ => 0) (.fraction (-5/2)) (-5/2) rfl fun _ h => nomatch h

/-- The modulus as a denominator: a hash is returned although no residue is its inverse. -/
theorem no_inverse :
    (hashSlot (fun _ => 0) (fun _ => 0) (.fraction (mkRat 1 (2^61-1)))=some (.ok 314159)) ∧
      ((mkRat 1 (2^61-1)).den : ZMod modulus)=0 ∧
      ∀ x : ZMod modulus,x*((mkRat 1 (2^61-1)).den : ZMod modulus)≠1 := by
  have hden : (mkRat 1 (2^61-1)).den=modulus := by decide
  have hzero : ((mkRat 1 (2^61-1)).den : ZMod modulus)=0 := by rw [hden,ZMod.natCast_self]
  refine ⟨?_,hzero,fun x => ?_⟩
  · have hh : numericHash (mkRat 1 (2^61-1))=314159 := by
      have hsign : (mkRat 1 (2^61-1)).num.sign=1 := by decide
      rw [← Int64.toInt_inj,numericHash_infinite _ hzero,hsign]
      rfl
    rw [hashSlot,fractionHash_eq,hh]
  · rw [hzero,mul_zero]
    exact zero_ne_one

end InterpretThis
