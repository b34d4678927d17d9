import InterpretThis.Value.KeyContract

namespace InterpretThis

/-- The numbers that share dict slots: bool, int, big int and finite float. -/
inductive Numeral where
  | bool (b : Bool)
  | int (i : Int64)
  | bigInt (n : Int)
  | float (f : F64) (finite : f.isFinite=true)

namespace Numeral

def toValue : Numeral → Value
  | bool b => .bool b
  | int i => .int i
  | bigInt n => .bigInt n
  | float f _ => .float f

def exact : Numeral → Rat
  | bool b => boolInt b
  | int i => i.toInt
  | bigInt n => n
  | float f _ => f.toRat

/-- The key `value_to_key` builds. -/
def key : Numeral → ValueKey
  | bool b => .bool b
  | int i => .int i
  | bigInt n => .bigInt n
  | float f _ => floatToKey f

theorem valueToKey_key (finish : List Datum → UInt64) (a : Numeral) :
    valueToKey finish a.toValue=.ok a.key := by cases a <;> rfl

theorem key_cases (a : Numeral) :
    (∃n : Int, intLike a.key=some n ∧ a.exact=n) ∨
    (∃f hf, a=.float f hf) := by
  cases a with
  | bool b => exact .inl ⟨boolInt b,rfl,rfl⟩
  | int i => exact .inl ⟨i.toInt,rfl,rfl⟩
  | bigInt n => exact .inl ⟨n,rfl,rfl⟩
  | float f hf => exact .inr ⟨f,hf,rfl⟩

end Numeral

section Truncation

theorem ofInt_max_key : (F64.ofInt Int64.maxValue.toInt).key=(F64.ofInt (2^63)).key := by decide

theorem toRat_pow63 : (F64.ofInt (2^63)).toRat=((2^63 : Int) : Rat) := by
  have hbits : F64.ofInt (2^63)=⟨0x43E0000000000000⟩ := by decide
  have hmag : F64.mag ⟨0x43E0000000000000⟩=1086*2^52 := by decide
  have hsign : F64.sign ⟨0x43E0000000000000⟩=1 := by decide
  have hexp : 1086*2^52/2^52-1=11+1074 := by decide
  have hlow : 2^52+1086*2^52%2^52=2^52 := by decide
  have hunits : F64.units (1086*2^52)=2^63*F64.grid := by
    rw [F64.units,if_neg (by decide),hexp,hlow,F64.pow_grid,← Nat.mul_assoc]
    congr 1
  rw [hbits,F64.toRat,hmag,hsign,hunits,Nat.cast_mul,Int.cast_one,one_mul,
    mul_div_cancel_right₀ _ F64.grid_cast_pos.ne']
  norm_num

theorem toRat_min : (F64.ofInt (-2^63)).toRat=((-2^63 : Int) : Rat) := by
  have hneg : (F64.ofInt (-2^63)).toRat=-(F64.ofInt (2^63)).toRat := by
    rw [F64.toRat_scaled,F64.toRat_scaled,F64.ofInt_key_neg,F64.scaled_neg,Int.cast_neg,neg_div]
  rw [hneg,toRat_pow63,Int.cast_neg]

theorem saturateI64_cases (n : Int) :
    (n< -2^63 ∧ saturateI64 n=Int64.minValue) ∨ (2^63≤ n ∧ saturateI64 n=Int64.maxValue) ∨
      (-2^63≤ n ∧ n<2^63 ∧ (saturateI64 n).toInt=n) := by
  have hmin : Int64.minValue.toInt=-2^63 := by decide
  have hmax : Int64.maxValue.toInt=2^63-1 := by decide
  unfold saturateI64
  rw [hmin,hmax]
  split_ifs with hlow hhigh
  · exact .inl ⟨hlow,rfl⟩
  · exact .inr (.inl ⟨by omega,rfl⟩)
  · refine .inr (.inr ⟨by omega,by omega,?_⟩)
    exact Int64.toInt_ofInt_of_le (by omega) (by omega)

/-- The cast of a finite float to `i64` and back returns the float exactly where the float is
an `i64`, and at `2^63`, which saturates to the largest `i64` and rounds up again. -/
theorem floatKeyI64_iff (f : F64) (hf : f.isFinite=true) (i : Int64) :
    floatKeyI64 f.bits=some i ↔
      f.toRat=i.toInt ∨ (f.toRat=((2^63 : Int) : Rat) ∧ i=Int64.maxValue) := by
  have hback : ∀n : Int, (F64.ofInt n).eq f=true ↔ (F64.ofInt n).key=f.key := by
    intro n
    rw [F64.eq_comm,F64.eq_ofInt n f hf]
  have hlow := i.le_toInt
  have hhigh := i.toInt_lt
  have hmax : Int64.maxValue.toInt=2^63-1 := by decide
  have hmin : Int64.minValue.toInt=-2^63 := by decide
  unfold floatKeyI64
  by_cases hden : f.toRat.den=1
  · obtain ⟨n,hn⟩ : ∃n : Int, f.toRat=n := ⟨f.toRat.num,(Rat.coe_int_num_of_den_eq_one hden).symm⟩
    simp only [hf,hn,Rat.den_intCast,Rat.num_intCast,and_self,if_true,hback,Int.cast_inj]
    obtain ⟨hout,hs⟩|⟨hout,hs⟩|⟨hge,hlt,hs⟩ := saturateI64_cases n
    · -- the least `i64` converts exactly, so it never returns to the float
      have hkey : ¬(F64.ofInt Int64.minValue.toInt).key=f.key := by
        rw [hmin,← F64.toRat_eq,toRat_min,hn,Int.cast_inj]
        omega
      rw [hs,if_neg hkey]
      constructor
      · intro h
        cases h
      · intro h
        omega
    · have hkey : (F64.ofInt Int64.maxValue.toInt).key=f.key ↔ n=2^63 := by
        rw [ofInt_max_key,← F64.toRat_eq,toRat_pow63,hn,Int.cast_inj]
        exact eq_comm
      rw [hs]
      simp only [hkey]
      by_cases htop : n=2^63
      · rw [if_pos htop,Option.some.injEq]
        constructor
        · intro h
          exact .inr ⟨htop,h.symm⟩
        · intro h
          obtain h|h := h
          · omega
          · exact h.2.symm
      · rw [if_neg htop]
        constructor
        · intro h
          cases h
        · intro h
          omega
    · have hexact : (F64.ofInt n).key=f.key := F64.ofInt_exact n f hf hn.symm
      rw [hs,if_pos hexact,Option.some.injEq,← Int64.toInt_inj,hs]
      omega
  · have hnot : ¬(f.isFinite=true ∧ f.toRat.den=1) := fun h => hden h.2
    have hint : ∀n : Int, ¬f.toRat=n := by
      intro n h
      exact hden (by rw [h,Rat.den_intCast])
    simp only [hnot,if_false,hint,false_and,or_self]
    exact ⟨fun h => (by cases h),False.elim⟩

end Truncation

section Slots

variable (finish : List Datum → UInt64) (hasher : List Datum → UInt64)

/-- An index map files two keys in one slot: equal hashes and equal keys. -/
def OneSlot (k l : ValueKey) : Prop :=
  hasher (keyFeed finish k)=hasher (keyFeed finish l) ∧ keyEquals k l=true

/-- Two numbers have equal keys, and one slot of a dict, exactly when they are equal. -/
structure KeysUnified (a b : Numeral) : Prop where
  equal : ∀k l, valueToKey finish a.toValue=.ok k → valueToKey finish b.toValue=.ok l →
    (keyEquals k l=true ↔ a.exact=b.exact)
  slot : ∀k l, valueToKey finish a.toValue=.ok k → valueToKey finish b.toValue=.ok l →
    (OneSlot finish hasher k l ↔ a.exact=b.exact)

/-- A float past the `i64` range that equals the integer, or `2^63` against the largest `i64`. -/
def Strays (f : F64) (n : Int) : Prop :=
  (f.toRat=n ∧ fitsI64 n=none) ∨ (f.toRat=((2^63 : Int) : Rat) ∧ n=2^63-1)

/-- The pairs the key comparison gets wrong. -/
def Misfiled (a b : Numeral) : Prop :=
  (∃f hf g hg, a=.float f hf ∧ b=.float g hg ∧ f.mag=0 ∧ g.mag=0 ∧ f.bits≠g.bits) ∨
  (∃f hf n, a=.float f hf ∧ intLike b.key=some n ∧ Strays f n) ∨
  (∃g hg n, intLike a.key=some n ∧ b=.float g hg ∧ Strays g n)

theorem fitsI64_none (n : Int) : fitsI64 n=none ↔ n< -2^63 ∨ 2^63≤ n := by
  have hmin : Int64.minValue.toInt=-2^63 := by decide
  have hmax : Int64.maxValue.toInt=2^63-1 := by decide
  unfold fitsI64
  rw [hmin,hmax]
  split_ifs with h
  · simp only [false_iff]
    omega
  · simp only [true_iff]
    omega

theorem fitsI64_some (n : Int) (h : ¬fitsI64 n=none) : ∃i : Int64, i.toInt=n := by
  rw [fitsI64_none] at h
  exact ⟨Int64.ofInt n,Int64.toInt_ofInt_of_le (by omega) (by omega)⟩

/-- A float key meets an integer key exactly where the numbers are equal, unless it strays. -/
theorem float_meets_int (f : F64) (hf : f.isFinite=true) (n : Int) :
    ((∃i, floatKeyI64 f.bits=some i ∧ i.toInt=n) ↔ f.toRat=n) ↔ ¬Strays f n := by
  have hmax : Int64.maxValue.toInt=2^63-1 := by decide
  simp only [floatKeyI64_iff f hf]
  constructor
  · intro h hs
    obtain ⟨hn,hout⟩|⟨htop,hn⟩ := hs
    · obtain ⟨i,-,hi⟩ := h.mpr hn
      rw [← hi,fitsI64_toInt] at hout
      cases hout
    · have hbad := h.mp ⟨Int64.maxValue,.inr ⟨htop,rfl⟩,hmax.trans hn.symm⟩
      rw [htop,Int.cast_inj] at hbad
      omega
  · intro hs
    constructor
    · intro ⟨i,hi,hn⟩
      obtain hi|⟨htop,hi⟩ := hi
      · rw [hi,hn]
      · exact absurd (.inr ⟨htop,by rw [← hn,hi,hmax]⟩) hs
    · intro hn
      have hfits : ¬fitsI64 n=none := fun hout => hs (.inl ⟨hn,hout⟩)
      obtain ⟨i,hi⟩ := fitsI64_some n hfits
      exact ⟨i,.inl (by rw [hn,hi]),hi⟩

theorem float_meets_float (f g : F64) :
    ((f.bits==g.bits)=true ↔ f.toRat=g.toRat) ↔ ¬(f.mag=0 ∧ g.mag=0 ∧ f.bits≠g.bits) := by
  rw [beq_iff_eq,F64.toRat_eq]
  constructor
  · intro h ⟨hf,hg,hne⟩
    refine hne (h.mpr ?_)
    have hkf := F64.key_natAbs f
    have hkg := F64.key_natAbs g
    omega
  · intro h
    constructor
    · intro hb
      cases f
      cases g
      cases hb
      rfl
    · intro hk
      by_cases h0 : f.mag=0
      · by_contra hne
        exact h ⟨h0,(F64.mag_of_key f g hk).symm.trans h0,hne⟩
      · exact congrArg F64.bits (F64.eq_of_key_ne f g hk h0)

theorem keyEquals_float (f g : F64) :
    keyEquals (floatToKey f) (floatToKey g)=(f.bits==g.bits) := by
  rw [keyEquals,keyEq,floatToKey,floatToKey,keyEqDir]

theorem int_not_float (a : Numeral) (n : Int) (ha : intLike a.key=some n) (f : F64)
    (hf : f.isFinite=true) : a≠.float f hf := by
  intro h
  rw [h] at ha
  cases ha

theorem keyEquals_exact (a b : Numeral) :
    (keyEquals a.key b.key=true ↔ a.exact=b.exact) ↔ ¬Misfiled a b := by
  obtain ⟨n,hn,hx⟩|⟨f,hf,hx⟩ := a.key_cases
  · obtain ⟨m,hm,hy⟩|⟨g,hg,hy⟩ := b.key_cases
    · have hnot : ¬Misfiled a b := by
        rintro (⟨f,hf,g,hg,h,-⟩|⟨f,hf,k,h,-⟩|⟨g,hg,k,-,h,-⟩)
        · exact int_not_float a n hn f hf h
        · exact int_not_float a n hn f hf h
        · exact int_not_float b m hm g hg h
      rw [keyEquals,keyEq,keyEqDir_int _ _ _ _ n m hn hm,hx,hy,Int.cast_inj]
      simp only [hnot,not_false_eq_true]
    · have hmis : Misfiled a b ↔ Strays g n := by
        constructor
        · rintro (⟨f,hf,g',hg',h,-⟩|⟨f,hf,k,h,-⟩|⟨g',hg',k,hk,h,hs⟩)
          · exact absurd h (int_not_float a n hn f hf)
          · exact absurd h (int_not_float a n hn f hf)
          · rw [hy] at h
            cases h
            rw [hn] at hk
            cases hk
            exact hs
        · intro hs
          exact .inr (.inr ⟨g,hg,n,hn,hy,hs⟩)
      rw [hmis,← float_meets_int g hg n,keyEquals,keyEq,hx,hy,Numeral.key,floatToKey,
        keyEqDir_int_float _ _ _ n _ hn,Numeral.exact]
      rw [eq_comm (a := (n : Rat))]
  · obtain ⟨m,hm,hy⟩|⟨g,hg,hy⟩ := b.key_cases
    · have hmis : Misfiled a b ↔ Strays f m := by
        constructor
        · rintro (⟨f',hf',g',hg',-,h,-⟩|⟨f',hf',k,h,hk,hs⟩|⟨g',hg',k,-,h,-⟩)
          · exact absurd h (int_not_float b m hm g' hg')
          · rw [hx] at h
            cases h
            rw [hm] at hk
            cases hk
            exact hs
          · exact absurd h (int_not_float b m hm g' hg')
        · intro hs
          exact .inr (.inl ⟨f,hf,m,hx,hm,hs⟩)
      rw [hmis,← float_meets_int f hf m,keyEquals,keyEq,hx,hy,Numeral.key,floatToKey,
        keyEqDir_float_int _ _ _ m _ hm,Numeral.exact]
    · have hmis : Misfiled a b ↔ f.mag=0 ∧ g.mag=0 ∧ f.bits≠g.bits := by
        constructor
        · rintro (⟨f',hf',g',hg',h,h',hz⟩|⟨f',hf',k,-,hk,-⟩|⟨g',hg',k,hk,-⟩)
          · rw [hx] at h
            rw [hy] at h'
            cases h
            cases h'
            exact hz
          · exact absurd hy (int_not_float b k hk g hg)
          · exact absurd hx (int_not_float a k hk f hf)
        · intro hz
          exact .inl ⟨f,hf,g,hg,hx,hy,hz⟩
      rw [hmis,← float_meets_float,hx,hy,Numeral.key,Numeral.key,keyEquals_float,Numeral.exact,
        Numeral.exact]

theorem feed_int (k : ValueKey) (n : Int) (h : intLike k=some n) : keyFeed finish k=intFeed n := by
  have hleaf : leaf false k=some (.int n) ∧ keyKind k=2 := by
    cases k <;> first | (cases h; done) | skip
    all_goals
      cases h
      exact ⟨rfl,rfl⟩
  exact feed_numeric finish false k (.int n) hleaf.1 hleaf.2

theorem feed_float (f : F64) (i : Int64) (h : floatKeyI64 f.bits=some i) :
    keyFeed finish (floatToKey f)=intFeed i.toInt := by
  rw [floatToKey,keyFeed,h,intFeed_int64]

theorem equal_feeds (a b : Numeral) (h : keyEquals a.key b.key=true) :
    keyFeed finish a.key=keyFeed finish b.key := by
  obtain ⟨n,hn,-⟩|⟨f,hf,hx⟩ := a.key_cases
  · rw [feed_int finish _ n hn]
    obtain ⟨m,hm,-⟩|⟨g,hg,hy⟩ := b.key_cases
    · rw [keyEquals,keyEq,keyEqDir_int _ _ _ _ n m hn hm] at h
      rw [feed_int finish _ m hm,h]
    · rw [hy,Numeral.key,floatToKey,keyEquals,keyEq,keyEqDir_int_float _ _ _ n _ hn] at h
      obtain ⟨i,hi,hin⟩ := h
      rw [hy,Numeral.key,feed_float finish g i hi,hin]
  · obtain ⟨m,hm,-⟩|⟨g,hg,hy⟩ := b.key_cases
    · rw [hx,Numeral.key,floatToKey,keyEquals,keyEq,keyEqDir_float_int _ _ _ m _ hm] at h
      obtain ⟨i,hi,him⟩ := h
      rw [feed_int finish _ m hm,hx,Numeral.key,feed_float finish f i hi,him]
    · rw [hx,hy,Numeral.key,Numeral.key,keyEquals_float,beq_iff_eq] at h
      rw [hx,hy,Numeral.key,Numeral.key,floatToKey,floatToKey,h]

/-- The key contract of numbers holds for exactly the pairs that are not misfiled. -/
theorem numeric_keys_unified (a b : Numeral) :
    KeysUnified finish hasher a b ↔ ¬Misfiled a b := by
  rw [← keyEquals_exact]
  constructor
  · intro h
    exact h.equal _ _ (a.valueToKey_key finish) (b.valueToKey_key finish)
  · intro h
    constructor
    · intro k l hk hl
      rw [a.valueToKey_key] at hk
      rw [b.valueToKey_key] at hl
      cases hk
      cases hl
      exact h
    · intro k l hk hl
      rw [a.valueToKey_key] at hk
      rw [b.valueToKey_key] at hl
      cases hk
      cases hl
      rw [← h,OneSlot]
      constructor
      · intro hs
        exact hs.2
      · intro he
        exact ⟨congrArg hasher (equal_feeds finish a b he),he⟩

/-- `0.0` and `-0.0` are equal numbers with two keys. -/
theorem zeros_take_two_slots :
    ¬∀(finish hasher : List Datum → UInt64) (a b : Numeral), KeysUnified finish hasher a b := by
  intro h
  have hz := (h (fun _ => 0) (fun _ => 0) (.float ⟨0⟩ (by decide))
    (.float ⟨9223372036854775808⟩ (by decide))).equal _ _ rfl rfl
  have heq : (Numeral.float ⟨0⟩ (by decide)).exact=
      (Numeral.float ⟨9223372036854775808⟩ (by decide)).exact := by
    rw [Numeral.exact,Numeral.exact,F64.toRat_eq]
    decide
  have hkey := hz.mpr heq
  revert hkey
  decide

end Slots

end InterpretThis
