import InterpretThis.Framework.Matching
import InterpretThis.Value.Key
import InterpretThis.Value.Meaning

namespace InterpretThis

open Pyhash

section Boxes

/-- The identity of a value that `value_to_key` boxes. -/
inductive BoxKind where
  | member (className memberName : String)
  | function (addr : Addr)
  | lambda (addr : Addr)
  | named (name : String)

def boxKind : Value → Option BoxKind
  | .enumMember className memberName _ .plain => some (.member className memberName)
  | .enumMember className memberName _ .flag => some (.member className memberName)
  | .function addr _ => some (.function addr)
  | .lambda addr _ => some (.lambda addr)
  | v => (typeLikeName v).map .named

namespace BoxKind

def hash (finish : List Datum → UInt64) : BoxKind → Int64
  | member className memberName => memberHash finish className memberName
  | function addr => addrHash addr
  | lambda addr => addrHash addr
  | named name => nameHash finish name

def equal : BoxKind → BoxKind → Bool
  | member c m,member c' m' => c==c'&&m==m'
  | function i,function j => i==j
  | lambda i,lambda j => i==j
  | named n,named n' => nameEq n n'
  | _,_ => false

end BoxKind

theorem boxedEq_kind (n : Nat) (a b : Value) (x y : BoxKind) (ha : boxKind a=some x)
    (hb : boxKind b=some y) : boxedEq (valuesEqual (n+1)) a b=x.equal y := by
  cases a <;> first | (cases ha; done) | skip
  case enumMember c m v k =>
    cases k <;> first | (cases ha; done) | skip
    all_goals
      cases ha
      cases b <;> first | (cases hb; done) | (cases hb; rfl) | skip
      case enumMember c' m' v' k' => cases k' <;> first | (cases hb; done) | (cases hb; rfl)
  all_goals
    cases ha
    cases b <;> first | (cases hb; done) | (cases hb; rfl) | skip
    case enumMember c' m' v' k' => cases k' <;> first | (cases hb; done) | (cases hb; rfl)

end Boxes

section Leaves

/-- What a key other than a tuple or a frozenset is compared and hashed by. -/
inductive Leaf where
  | none
  | ellipsis
  | int (n : Int)
  | float (bits : UInt64)
  | complex (re im : UInt64)
  | string (s : String)
  | date (d : NaiveDate)
  | time (t : NaiveTime)
  | naive (dt : NaiveDateTime)
  | aware (dt : NaiveDateTime)
  | timeDelta (micros : Int64)
  | decimal (q : Rat)
  | fraction (q : Rat)
  | box (b : BoxKind)

-- With `split`, the two float zeros are read as floats; they differ by their bits.
variable (split : Bool)

def floatLeaf (bits : UInt64) : Leaf :=
  if split=true ∧ F64.mag ⟨bits⟩=0 then .float bits
  else match floatKeyI64 bits with
    | some i => .int i.toInt
    | none => .float bits

def leaf : ValueKey → Option Leaf
  | .none => some .none
  | .ellipsis => some .ellipsis
  | .bool b => some (.int (boolInt b))
  | .int i => some (.int i.toInt)
  | .bigInt n => some (.int n)
  | .float bits => some (floatLeaf split bits)
  | .complex re im => some (.complex re im)
  | .string s => some (.string s)
  | .tuple _ => none
  | .frozenset _ => none
  | .instanceKey _ v => (boxKind v).map .box
  | .date d => some (.date d)
  | .time t => some (.time t)
  | .dateTime dt tz => match tz with
    | none => some (.naive dt)
    | some o => some (.aware (dt.minusSeconds o.toInt))
  | .timeDelta m => some (.timeDelta m)
  | .decimal d => some (.decimal d.toRat)
  | .fraction q => some (.fraction q)

theorem floatKeyI64_spec (bits : UInt64) (i : Int64) (h : floatKeyI64 bits=some i) :
    (F64.ofInt i.toInt).eq ⟨bits⟩=true := by
  unfold floatKeyI64 at h
  simp only at h
  split at h
  · split at h
    · cases h
      assumption
    · cases h
  · cases h

theorem F64.eq_of_key_ne (f g : F64) (h : f.key=g.key) (h0 : f.mag≠0) : f=g := by
  have hf := f.bits.toNat_lt
  have hg := g.bits.toNat_lt
  have hbits : f.bits.toNat=g.bits.toNat := by
    unfold F64.key F64.isNegative at h
    unfold F64.mag at h h0
    by_cases hn : 2^63≤f.bits.toNat
    · by_cases hn' : 2^63≤g.bits.toNat
      · simp only [hn,hn',decide_true,if_true] at h
        omega
      · simp only [hn,hn',decide_true,decide_false,if_true] at h
        split at h
        · contradiction
        · omega
    · by_cases hn' : 2^63≤g.bits.toNat
      · simp only [hn,hn',decide_true,decide_false,if_true] at h
        split at h
        · contradiction
        · omega
      · simp only [hn,hn',decide_false] at h
        split at h
        · contradiction
        · omega
  cases f
  cases g
  exact congrArg F64.mk (UInt64.toNat_inj.mp hbits)

theorem floatKeyI64_inj (bits bits' : UInt64) (i : Int64) (h : floatKeyI64 bits=some i)
    (h' : floatKeyI64 bits'=some i) (hz : (F64.mag ⟨bits⟩=0 → F64.mag ⟨bits'⟩=0 → bits=bits')) :
    bits=bits' := by
  have hk := (F64.eq_key _ _ (floatKeyI64_spec bits i h)).2.2
  have hk' := (F64.eq_key _ _ (floatKeyI64_spec bits' i h')).2.2
  have hkey := hk.symm.trans hk'
  by_cases h0 : F64.mag ⟨bits⟩=0
  · exact hz h0 ((F64.mag_of_key _ _ hkey).symm.trans h0)
  · exact congrArg F64.bits (F64.eq_of_key_ne _ _ hkey h0)

theorem floatKeyI64_zero (bits : UInt64) (i : Int64) (h : floatKeyI64 bits=some i)
    (h0 : F64.mag ⟨bits⟩=0) : i=0 := by
  have hq := F64.toRat_zero ⟨bits⟩ h0
  unfold floatKeyI64 at h
  simp only [hq] at h
  split at h
  · split at h
    · cases h
      decide
    · cases h
  · cases h

theorem floatLeaf_cases (bits : UInt64) :
    (∃i, floatKeyI64 bits=some i ∧ floatLeaf split bits=.int i.toInt ∧
      (split=true → F64.mag ⟨bits⟩≠0)) ∨
    ((∀i, floatKeyI64 bits=some i → split=true ∧ i.toInt=0) ∧
      floatLeaf split bits=.float bits) := by
  by_cases hs : split=true ∧ F64.mag ⟨bits⟩=0
  · refine .inr ⟨?_,if_pos hs⟩
    intro i hi
    rw [floatKeyI64_zero bits i hi hs.2]
    exact ⟨hs.1,rfl⟩
  · cases h : floatKeyI64 bits with
    | some i =>
      refine .inl ⟨i,rfl,?_,fun hsplit h0 => hs ⟨hsplit,h0⟩⟩
      rw [floatLeaf,if_neg hs,h]
    | none =>
      refine .inr ⟨fun i hi => (by cases hi),?_⟩
      rw [floatLeaf,if_neg hs,h]

theorem floatLeaf_int (bits : UInt64) (n : Int) (hi : split=true → n≠0) :
    (∃i, floatKeyI64 bits=some i ∧ i.toInt=n) ↔ floatLeaf split bits=.int n := by
  obtain ⟨i,hk,hl,_⟩|⟨hk,hl⟩ := floatLeaf_cases split bits
  · rw [hk,hl,Leaf.int.injEq]
    simp
  · rw [hl]
    constructor
    · intro ⟨i,h,hn⟩
      obtain ⟨hs,h0⟩ := hk i h
      exact absurd (hn.symm.trans h0) (hi hs)
    · intro h
      cases h

theorem box_equal_iff (x y : BoxKind)
    (hn : ∀n n', x=.named n → y=.named n' → nameEq n n'=true → n=n') :
    x.equal y=true ↔ x=y := by
  by_cases hb : ∃n n', x=.named n ∧ y=.named n'
  · obtain ⟨n,n',rfl,rfl⟩ := hb
    constructor
    · intro h
      rw [hn n n' rfl rfl h]
    · intro h
      cases h
      exact Bool.or_eq_true_iff.mpr (.inl (beq_self_eq_true n))
  · cases x <;> cases y <;> first
      | (exact absurd ⟨_,_,rfl,rfl⟩ hb)
      | (simp [BoxKind.equal])

section Numeric

variable (veq : Value → Value → Bool) (flip : Bool)

def intLike : ValueKey → Option Int
  | .bool b => some (boolInt b)
  | .int i => some i.toInt
  | .bigInt n => some n
  | _ => none

theorem boolInt_inj (x y : Bool) : x=y ↔ boolInt x=boolInt y := by cases x <;> cases y <;> decide

theorem int64_eq_bool (i : Int64) (b : Bool) : i=boolI64 b ↔ i.toInt=boolInt b := by
  rw [← boolI64_toInt b]
  exact Int64.toInt_inj.symm

theorem beq_some_iff (o : Option Int64) (j : Int64) :
    (o==some j)=true ↔ ∃i, o=some i ∧ i.toInt=j.toInt := by
  rw [beq_iff_eq]
  constructor
  · intro h
    exact ⟨j,h,rfl⟩
  · intro ⟨i,hi,hj⟩
    rw [hi,Int64.toInt_inj.mp hj]

theorem keyEqDir_int (a b : ValueKey) (n m : Int) (ha : intLike a=some n)
    (hb : intLike b=some m) : keyEqDir veq flip a b=true ↔ n=m := by
  cases a <;> first | (cases ha; done) | skip
  all_goals cases b <;> first | (cases hb; done) | skip
  all_goals
    cases ha
    cases hb
    rw [keyEqDir]
  all_goals rw [beq_iff_eq]
  all_goals first
    | exact Iff.rfl
    | exact eq_comm
    | exact boolInt_inj _ _
    | exact Int64.toInt_inj.symm
    | exact int64_eq_bool _ _
    | exact (int64_eq_bool _ _).trans eq_comm

theorem keyEqDir_int_float (a : ValueKey) (n : Int) (bits : UInt64) (ha : intLike a=some n) :
    keyEqDir veq flip a (.float bits)=true ↔ ∃i, floatKeyI64 bits=some i ∧ i.toInt=n := by
  cases a <;> first | (cases ha; done) | skip
  all_goals
    cases ha
    rw [keyEqDir]
  · rw [beq_some_iff,boolI64_toInt]
  · rw [beq_some_iff]
  · cases floatKeyI64 bits with
    | none => simp
    | some i =>
      simp only [beq_iff_eq,Option.some.injEq,exists_eq_left']
      exact eq_comm

theorem keyEqDir_float_int (b : ValueKey) (n : Int) (bits : UInt64) (hb : intLike b=some n) :
    keyEqDir veq flip (.float bits) b=true ↔ ∃i, floatKeyI64 bits=some i ∧ i.toInt=n := by
  cases b <;> first | (cases hb; done) | skip
  all_goals
    cases hb
    rw [keyEqDir]
  · rw [beq_some_iff,boolI64_toInt]
  · rw [beq_some_iff]
  · cases floatKeyI64 bits with
    | none => simp
    | some i =>
      simp only [beq_iff_eq,Option.some.injEq,exists_eq_left']
      exact eq_comm

end Numeric

section Comparison

variable (m : Nat) (flip : Bool) (a b : ValueKey) (x y : Leaf)

/-- The kinds of leaf that no arm compares across. -/
def leafKind : Leaf → Nat
  | .none => 0
  | .ellipsis => 1
  | .int _ => 2
  | .float _ => 2
  | .complex _ _ => 3
  | .string _ => 4
  | .date _ => 5
  | .time _ => 6
  | .naive _ => 7
  | .aware _ => 7
  | .timeDelta _ => 8
  | .decimal _ => 9
  | .fraction _ => 10
  | .box _ => 11

theorem leafKind_float (bits : UInt64) : leafKind (floatLeaf split bits)=2 := by
  obtain ⟨i,_,h,_⟩|⟨_,h⟩ := floatLeaf_cases split bits
  · rw [h]
    rfl
  · rw [h]
    rfl

def keyKind : ValueKey → Nat
  | .none => 0
  | .ellipsis => 1
  | .bool _ => 2
  | .int _ => 2
  | .bigInt _ => 2
  | .float _ => 2
  | .complex _ _ => 3
  | .string _ => 4
  | .date _ => 5
  | .time _ => 6
  | .dateTime _ _ => 7
  | .timeDelta _ => 8
  | .decimal _ => 9
  | .fraction _ => 10
  | .instanceKey _ _ => 11
  | .tuple _ => 12
  | .frozenset _ => 13

theorem leaf_kind (ha : leaf split a=some x) : leafKind x=keyKind a := by
  cases a <;> first | (cases ha; done) | (cases ha; rfl) | skip
  case float bits =>
    cases ha
    exact leafKind_float split bits
  case instanceKey h v =>
    obtain ⟨k,_,hk⟩ := Option.map_eq_some_iff.mp ha
    rw [← hk]
    rfl
  case dateTime dt tz => cases tz <;> (cases ha; rfl)

theorem keyEqDir_foreign (veq : Value → Value → Bool) (h : keyKind a≠keyKind b) :
    keyEqDir veq flip a b=false := by
  cases a <;> cases b <;> first | (exact absurd rfl h) | rfl

theorem keyEqDir_float_leaf (veq : Value → Value → Bool) (bits : UInt64)
    (hb : leaf split b=some y) (hi : split=true → intLike b≠some 0)
    (hz : split=false → ∀bits', b=.float bits' → F64.mag ⟨bits⟩=0 → F64.mag ⟨bits'⟩=0 →
      bits=bits')
    (hk : keyKind b=2) : keyEqDir veq flip (.float bits) b=true ↔ floatLeaf split bits=y := by
  have one : ∀n, intLike b=some n → y=.int n →
      (keyEqDir veq flip (.float bits) b=true ↔ floatLeaf split bits=y) := by
    intro n hn hy
    rw [keyEqDir_float_int veq flip b n bits hn,hy,floatLeaf_int split bits n]
    intro hs h0
    rw [h0] at hn
    exact hi hs hn
  cases b <;> first | (cases hk; done) | (cases hb; exact one _ rfl rfl) | skip
  case float bits' =>
    cases hb
    change (bits==bits')=true ↔ _
    rw [beq_iff_eq]
    constructor
    · intro h
      rw [h]
    · intro h
      obtain ⟨i,hi,hl,hm⟩|⟨_,hl⟩ := floatLeaf_cases split bits
      · obtain ⟨j,hj,hl',_⟩|⟨_,hl'⟩ := floatLeaf_cases split bits'
        · rw [hl,hl',Leaf.int.injEq] at h
          have hij : j=i := Int64.toInt_inj.mp h.symm
          rw [hij] at hj
          refine floatKeyI64_inj bits bits' i hi hj ?_
          intro h0 h0'
          cases hs : split with
          | true => exact absurd h0 (hm hs)
          | false => exact hz hs bits' rfl h0 h0'
        · rw [hl,hl'] at h
          cases h
      · obtain ⟨j,_,hl',_⟩|⟨_,hl'⟩ := floatLeaf_cases split bits'
        · rw [hl,hl'] at h
          cases h
        · rw [hl,hl'] at h
          exact Leaf.float.inj h

theorem keyEqDir_int_leaf (veq : Value → Value → Bool) (n : Int) (ha : intLike a=some n)
    (hi : split=true → n≠0) (hb : leaf split b=some y) (hk : keyKind b=2) :
    keyEqDir veq flip a b=true ↔ .int n=y := by
  cases b <;> first | (cases hk; done) | skip
  case float bits =>
    cases hb
    rw [keyEqDir_int_float veq flip a n bits ha,floatLeaf_int split bits n hi]
    exact eq_comm
  all_goals
    cases hb
    rw [keyEqDir_int veq flip a _ n _ ha rfl,Leaf.int.injEq]

theorem keyEqDir_leaf (ha : leaf split a=some x) (hb : leaf split b=some y)
    (hi : split=true → intLike a≠some 0 ∧ intLike b≠some 0)
    (hz : split=false → ∀bits bits', a=.float bits → b=.float bits' → F64.mag ⟨bits⟩=0 →
      F64.mag ⟨bits'⟩=0 → bits=bits')
    (hn : ∀n n', x=.box (.named n) → y=.box (.named n') →
      nameEq n n'=true ∨ nameEq n' n=true → n=n') :
    keyEqDir (valuesEqual (m+1)) flip a b=true ↔ x=y := by
  have int : ∀n, intLike a=some n → split=true → n≠0 := by
    intro n ha hs h0
    rw [h0] at ha
    exact (hi hs).1 ha
  by_cases hk : keyKind a=keyKind b
  · cases a with
    | none =>
      cases b <;> first | (cases hk; done) | skip
      cases ha
      cases hb
      exact ⟨fun _ => rfl,fun _ => rfl⟩
    | ellipsis =>
      cases b <;> first | (cases hk; done) | skip
      cases ha
      cases hb
      exact ⟨fun _ => rfl,fun _ => rfl⟩
    | bool c =>
      cases ha
      exact keyEqDir_int_leaf split flip _ b y _ _ rfl (int _ rfl) hb hk.symm
    | int i =>
      cases ha
      exact keyEqDir_int_leaf split flip _ b y _ _ rfl (int _ rfl) hb hk.symm
    | bigInt i =>
      cases ha
      exact keyEqDir_int_leaf split flip _ b y _ _ rfl (int _ rfl) hb hk.symm
    | float bits =>
      cases ha
      exact keyEqDir_float_leaf split flip b y _ bits hb (fun hs => (hi hs).2)
        (fun hs bits' => hz hs bits bits' rfl) hk.symm
    | complex re im =>
      cases b <;> first | (cases hk; done) | skip
      cases ha
      cases hb
      change (_==_&&_==_)=true ↔ _
      rw [Bool.and_eq_true,beq_iff_eq,beq_iff_eq,Leaf.complex.injEq]
    | string s =>
      cases b <;> first | (cases hk; done) | skip
      cases ha
      cases hb
      change (_==_)=true ↔ _
      rw [beq_iff_eq,Leaf.string.injEq]
    | tuple ks => cases ha
    | frozenset ks => cases ha
    | instanceKey h v =>
      cases b <;> first | (cases hk; done) | skip
      rename_i h' v'
      obtain ⟨p,hp,rfl⟩ := Option.map_eq_some_iff.mp ha
      obtain ⟨q,hq,rfl⟩ := Option.map_eq_some_iff.mp hb
      change (if flip=true then boxedEq _ v' v else boxedEq _ v v')=true ↔ _
      rw [boxedEq_kind m v v' p q hp hq,boxedEq_kind m v' v q p hq hp,Leaf.box.injEq]
      cases flip with
      | true =>
        refine (box_equal_iff q p ?_).trans eq_comm
        rintro n n' rfl rfl hname
        exact (hn n' n rfl rfl (.inr hname)).symm
      | false =>
        refine box_equal_iff p q ?_
        rintro n n' rfl rfl hname
        exact hn n n' rfl rfl (.inl hname)
    | date d =>
      cases b <;> first | (cases hk; done) | skip
      cases ha
      cases hb
      change (_==_)=true ↔ _
      rw [beq_iff_eq,Leaf.date.injEq]
    | time t =>
      cases b <;> first | (cases hk; done) | skip
      cases ha
      cases hb
      change (_==_)=true ↔ _
      rw [beq_iff_eq,Leaf.time.injEq]
    | dateTime dt tz =>
      cases b <;> first | (cases hk; done) | skip
      rename_i dt' tz'
      cases tz with
      | none =>
        cases tz' with
        | none =>
          cases ha
          cases hb
          change (_==_)=true ↔ _
          rw [beq_iff_eq,Leaf.naive.injEq]
        | some o =>
          cases ha
          cases hb
          exact ⟨fun h => (by cases h),fun h => (by cases h)⟩
      | some o =>
        cases tz' with
        | none =>
          cases ha
          cases hb
          exact ⟨fun h => (by cases h),fun h => (by cases h)⟩
        | some o' =>
          cases ha
          cases hb
          change (_==_)=true ↔ _
          rw [beq_iff_eq,Leaf.aware.injEq]
    | timeDelta t =>
      cases b <;> first | (cases hk; done) | skip
      cases ha
      cases hb
      change (_==_)=true ↔ _
      rw [beq_iff_eq,Leaf.timeDelta.injEq]
    | decimal d =>
      cases b <;> first | (cases hk; done) | skip
      cases ha
      cases hb
      change decide _=true ↔ _
      rw [decide_eq_true_eq,Leaf.decimal.injEq]
    | fraction q =>
      cases b <;> first | (cases hk; done) | skip
      cases ha
      cases hb
      change decide _=true ↔ _
      rw [decide_eq_true_eq,Leaf.fraction.injEq]
  · rw [keyEqDir_foreign flip a b _ hk]
    constructor
    · intro h
      cases h
    · intro h
      rw [← leaf_kind split a x ha,← leaf_kind split b y hb,h] at hk
      exact absurd rfl hk

end Comparison

end Leaves

section Normalized

theorem trailingZeros_spec (fuel n : Nat) (hn : n≠0) (hf : n≤fuel) :
    10^trailingZeros fuel n∣n ∧ ¬10∣n/10^trailingZeros fuel n := by
  induction fuel generalizing n with
  | zero => omega
  | succ fuel ih =>
    rw [trailingZeros]
    by_cases h : n≠0 ∧ n%10=0
    · rw [if_pos h]
      obtain ⟨hd,hn'⟩ := ih (n/10) (by omega) (by omega)
      have h10 : 10*(n/10)=n := by omega
      constructor
      · rw [pow_succ']
        nth_rewrite 2 [← h10]
        exact Nat.mul_dvd_mul_left 10 hd
      · rw [pow_succ',← Nat.div_div_eq_div_mul]
        exact hn'
    · rw [if_neg h]
      constructor
      · exact one_dvd n
      · rw [pow_zero,Nat.div_one]
        omega

/-- A nonzero decimal as digits without trailing zeros and a power of ten. -/
theorem normalized_spec (d : BigDecimal) (h : d.mantissa≠0) :
    ∃(m : Int) (e : Int), ¬10∣m ∧ d.toRat=m*(10 : Rat)^e ∧
      normalized d=⟨m,Int64.ofInt (-e)⟩ := by
  let t := trailingZeros d.mantissa.natAbs d.mantissa.natAbs
  have hspec := trailingZeros_spec d.mantissa.natAbs d.mantissa.natAbs (by omega) (le_refl _)
  have hdvd : (10 : Int)^t∣d.mantissa := by
    have hc : ((10^t : Nat) : Int)∣d.mantissa := Int.natCast_dvd.mpr hspec.1
    simpa using hc
  have hm : d.mantissa=10^t*(d.mantissa/10^t) := (Int.mul_ediv_cancel' hdvd).symm
  refine ⟨d.mantissa/10^t,t-d.scale.toInt,?_,?_,?_⟩
  · intro hc
    refine hspec.2 ?_
    have hnat := Int.natAbs_dvd_natAbs.mpr hc
    have hpow : ((10 : Int)^t).natAbs=10^t := by
      rw [Int.natAbs_pow]
      rfl
    rw [Int.natAbs_ediv_of_dvd hdvd,hpow] at hnat
    exact hnat
  · rw [BigDecimal.toRat,zpow_sub₀ (by norm_num : (10 : Rat)≠0),zpow_natCast,zpow_neg]
    nth_rewrite 1 [hm]
    push_cast
    field_simp
  · unfold normalized
    rw [if_neg h]
    have hs : d.scale-Int64.ofNat t=Int64.ofInt (-(t-d.scale.toInt)) := by
      rw [neg_sub,Int64.ofInt_sub,Int64.ofInt_toInt,Int64.ofInt_eq_ofNat]
    exact congrArg (BigDecimal.mk _) hs

theorem exponent_le (m m' e e' : Int) (h10 : ¬10∣m') (h : (m : Rat)*10^e=m'*10^e') : e≤e' := by
  by_contra hlt
  obtain ⟨k,hk⟩ : ∃k : Nat, e=e'+(k+1 : Nat) := ⟨(e-e'-1).toNat,by omega⟩
  have hne : (10 : Rat)^e'≠0 := zpow_ne_zero _ (by norm_num)
  rw [hk,zpow_add₀ (by norm_num : (10 : Rat)≠0),zpow_natCast,mul_comm ((10 : Rat)^e'),← mul_assoc] at h
  have hm : (m : Rat)*10^(k+1)=m' := mul_right_cancel₀ hne h
  have hint : m*10^(k+1)=m' := by exact_mod_cast hm
  refine h10 ⟨m*10^k,?_⟩
  rw [← hint,pow_succ]
  ring

theorem toRat_eq_zero (d : BigDecimal) : d.toRat=0 ↔ d.mantissa=0 := by
  have hne : (10 : Rat)^(-d.scale.toInt)≠0 := zpow_ne_zero _ (by norm_num)
  rw [BigDecimal.toRat,mul_eq_zero,or_iff_left hne,Int.cast_eq_zero]

theorem normalized_eq (d d' : BigDecimal) (h : d.toRat=d'.toRat) : normalized d=normalized d' := by
  by_cases h0 : d.mantissa=0
  · have h0' : d'.mantissa=0 := (toRat_eq_zero d').mp (h.symm.trans ((toRat_eq_zero d).mpr h0))
    rw [normalized,normalized,if_pos h0,if_pos h0']
  · have h0' : d'.mantissa≠0 := fun hd =>
      h0 ((toRat_eq_zero d).mp (h.trans ((toRat_eq_zero d').mpr hd)))
    obtain ⟨m,e,hm,hq,hn⟩ := normalized_spec d h0
    obtain ⟨m',e',hm',hq',hn'⟩ := normalized_spec d' h0'
    have heq : (m : Rat)*10^e=m'*10^e' := by rw [← hq,← hq',h]
    have he : e=e' := le_antisymm (exponent_le m m' e e' hm' heq) (exponent_le m' m e' e hm heq.symm)
    have hne : (10 : Rat)^e'≠0 := zpow_ne_zero _ (by norm_num)
    rw [he] at heq
    have hmm : m=m' := by exact_mod_cast mul_right_cancel₀ hne heq
    rw [hn,hn',he,hmm]

end Normalized

section Feed

variable (finish : List Datum → UInt64) (split : Bool)

def intFeed (n : Int) : List Datum :=
  match fitsI64 n with
  | some i => [.u8 1,.i64 i]
  | none => [.u8 1,.bigInt n]

theorem fitsI64_toInt (i : Int64) : fitsI64 i.toInt=some i := by
  have hlo := Int64.minValue_le_toInt i
  have hhi := Int64.toInt_le i
  rw [fitsI64,if_pos ⟨by simpa using hlo,by simpa using hhi⟩,Int64.ofInt_toInt]

theorem intFeed_int64 (i : Int64) : intFeed i.toInt=[.u8 1,.i64 i] := by
  rw [intFeed,fitsI64_toInt]

def numericFeed : Leaf → List Datum
  | .int n => intFeed n
  | .float bits => keyFeed finish (.float bits)
  | _ => []

theorem feed_numeric (a : ValueKey) (x : Leaf) (ha : leaf split a=some x) (hk : keyKind a=2) :
    keyFeed finish a=numericFeed finish x := by
  cases a <;> first | (cases hk; done) | skip
  case bool b =>
    cases ha
    rw [keyFeed,numericFeed,← boolI64_toInt,intFeed_int64]
  case int i =>
    cases ha
    rw [keyFeed,numericFeed,intFeed_int64]
  case bigInt n =>
    cases ha
    cases h : fitsI64 n with
    | some i => simp only [keyFeed,numericFeed,intFeed,h]
    | none => simp only [keyFeed,numericFeed,intFeed,h]
  case float bits =>
    cases ha
    obtain ⟨i,hi,hl,_⟩|⟨_,hl⟩ := floatLeaf_cases split bits
    · rw [hl,keyFeed,numericFeed,hi,intFeed_int64]
    · rw [hl,numericFeed]

/-- A boxed value carries the hash of its identity. -/
def Boxed (k : ValueKey) : Prop :=
  ∀h v, k=.instanceKey h v → ∃b, boxKind v=some b ∧ h=b.hash finish

theorem feed_leaf (a b : ValueKey) (x : Leaf) (ha : leaf split a=some x) (hb : leaf split b=some x)
    (hba : Boxed finish a) (hbb : Boxed finish b) : keyFeed finish a=keyFeed finish b := by
  have hk : keyKind a=keyKind b := by
    rw [← leaf_kind split a x ha,← leaf_kind split b x hb]
  by_cases h2 : keyKind a=2
  · rw [feed_numeric finish split a x ha h2,feed_numeric finish split b x hb (hk ▸ h2)]
  · cases a <;> cases b <;> first | (cases hk; done) | (cases ha; done) | (exact absurd rfl h2) | skip
    case instanceKey h v h' v' =>
      obtain ⟨p,hp,rfl⟩ := hba h v rfl
      obtain ⟨q,hq,rfl⟩ := hbb h' v' rfl
      simp only [leaf,hp,hq,Option.map_some] at ha hb
      cases ha
      cases hb
      rfl
    case dateTime dt tz dt' tz' =>
      cases tz with
      | none =>
        cases ha
        cases tz' <;> cases hb
        rfl
      | some o =>
        cases ha
        cases tz' with
        | none => cases hb
        | some o' =>
          have he : dt'.minusSeconds o'.toInt=dt.minusSeconds o.toInt := by
            simpa [leaf] using hb
          rw [keyFeed,keyFeed,he]
    case decimal d d' =>
      cases ha
      have hq : d'.toRat=d.toRat := by simpa [leaf] using hb
      rw [keyFeed,keyFeed,normalized_eq d' d hq]
    all_goals
      cases ha
      cases hb
      rfl

end Feed

end InterpretThis
