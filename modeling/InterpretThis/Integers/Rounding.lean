import InterpretThis.Math.HalfEven
import InterpretThis.Value.ArithExact
import InterpretThis.Value.NumericKey

namespace InterpretThis.Rounding

open HalfEven

def u32Max : ℕ := 2^32-1

/-- An i64 step whose overflow is `none`. -/
def checked (n : ℤ) : Option ℤ := if -2^63 ≤ n ∧ n<2^63 then some n else none

/-- `u32::try_from(-n).unwrap_or(u32::MAX)`. -/
def absExp (n : Int64) : Option ℕ :=
  (checkedNeg n).map fun m => (toU32 m.toInt).getD u32Max

/-- The quotient one further from zero. -/
def away (i q : ℤ) : ℤ := if i<0 then q-1 else q+1

def roundInt (i : Int64) (ndigits : Option Int64) : Option Value :=
  match ndigits with
  | none => some (.int i)
  | some n =>
    if 0 ≤ n.toInt then some (.int i)
    else do
      let e ← absExp n
      if 18<e then some (.int 0)
      else
        let factor ← checked (10^e)
        let q ← checked (i.toInt.tdiv factor)
        let product ← checked (q*factor)
        let r ← checked (i.toInt-product)
        let size ← checked |r|
        let twice ← checked (size*2)
        let rounded ←
          if twice=factor then if q.tmod 2=0 then some q else checked (away i.toInt q)
          else if factor<twice then checked (away i.toInt q)
          else some q
        (fitsI64 (rounded*factor)).map .int

/-- The rounded quotient of `round_bigint`. -/
def bankers (b factor : ℤ) : ℤ :=
  let q := b.tdiv factor
  let r := b-q*factor
  let twice := |r| * 2
  if twice=factor then if q.tmod 2=0 then q else away b q
  else if factor<twice then away b q
  else q

def roundBigint (b : ℤ) (ndigits : Option Int64) : Option ℤ :=
  match ndigits with
  | none => some b
  | some n => if 0 ≤ n.toInt then some b else (absExp n).map fun e => bankers b (10^e)*10^e

def roundRatioBankers (r : ℚ) : ℤ :=
  let floor := r.num/r.den
  let twice := r.num%r.den*2
  if twice<r.den then floor
  else if (r.den : ℤ)<twice then floor+1
  else if floor%2=0 then floor
  else floor+1

def roundFraction (fr : ℚ) (ndigits : Option Int64) : Option Value :=
  match ndigits with
  | none => some (intFromBigint (roundRatioBankers fr))
  | some n =>
    if 0 ≤ n.toInt then
      let pow : ℚ := 10^((toU32 n.toInt).getD u32Max)
      some (.fraction (roundRatioBankers (fr*pow)/pow))
    else (absExp n).map fun e =>
      .fraction (roundRatioBankers (fr/10^e)*10^e)

section Quotients

theorem even_of_tmod {q : ℤ} (h : q.tmod 2=0) : Even q := even_iff_two_dvd.mpr
  (Int.dvd_of_tmod_eq_zero h)

theorem away_even {q : ℤ} (i : ℤ) (h : q.tmod 2≠0) : Even (away i q) := by
  have odd : Odd q := Int.not_even_iff_odd.mp fun he =>
    h (Int.tmod_eq_zero_of_dvd (even_iff_two_dvd.mp he))
  rw [away]
  split
  · exact odd.sub_odd odd_one
  · exact odd.add_odd odd_one

/-- The remainder of a truncated division has the sign of the number. -/
theorem away_rest (b : ℤ) {f : ℤ} (hf : 0<f) :
    |b-away b (b.tdiv f)*f|=f-|b.tmod f| := by
  have hsplit := Int.tdiv_mul_add_tmod b f
  rw [away]
  split
  case isTrue hneg =>
    have hlow := Int.lt_tmod_of_pos b hf
    have hsign := Int.tmod_nonneg f (by omega : 0 ≤ -b)
    rw [Int.neg_tmod] at hsign
    have rest : b-(b.tdiv f-1)*f=b.tmod f+f := by linarith
    rw [rest,abs_of_nonpos (by omega : b.tmod f ≤ 0),abs_of_pos (by omega)]
    ring
  case isFalse hpos =>
    have hhigh := Int.tmod_lt_of_pos b hf
    have hsign := Int.tmod_nonneg f (not_lt.mp hpos)
    have rest : b-(b.tdiv f+1)*f=b.tmod f-f := by linarith
    rw [rest,abs_of_nonneg hsign,abs_of_neg (by omega)]
    ring

theorem bankers_close (b : ℤ) {f : ℤ} (hf : 0<f) :
    2*|b-bankers b f*f| ≤ f ∧ (2*|b-bankers b f*f|=f → Even (bankers b f)) := by
  have hr : b-b.tdiv f*f=b.tmod f := by rw [Int.tmod_def,mul_comm]
  have hrest := away_rest b hf
  simp only [bankers,hr]
  split_ifs with htie heven hover
  · rw [hr]
    exact ⟨by omega,fun _ => even_of_tmod heven⟩
  · rw [hrest]
    exact ⟨by omega,fun _ => away_even b heven⟩
  · rw [hrest]
    exact ⟨by omega,fun h => absurd (by omega) htie⟩
  · rw [hr]
    exact ⟨by omega,fun h => absurd (by omega) htie⟩

theorem bankers_nearest (b : ℤ) {f : ℤ} (hf : 0<f) :
    Nearest b f ((bankers b f*f : ℤ) : ℚ) := by
  obtain ⟨close,tie⟩ := bankers_close b hf
  push_cast
  refine nearest_of_close (by exact_mod_cast hf) (by exact_mod_cast close) fun h => tie ?_
  exact_mod_cast h

theorem roundRatioBankers_close (r : ℚ) :
    2*|r.num-roundRatioBankers r*r.den| ≤ r.den ∧
      (2*|r.num-roundRatioBankers r*r.den|=r.den → Even (roundRatioBankers r)) := by
  have hd : (0 : ℤ)<r.den := by exact_mod_cast r.pos
  have hsplit := Int.mul_ediv_add_emod r.num r.den
  have hlow := Int.emod_nonneg r.num hd.ne'
  have hhigh := Int.emod_lt_of_pos r.num hd
  have stay : |r.num-r.num/r.den*r.den|=r.num%r.den := by
    rw [← abs_of_nonneg hlow]
    congr 1
    linarith
  have up : |r.num-(r.num/r.den+1)*r.den|=r.den-r.num%r.den := by
    rw [← abs_of_pos (by omega : 0<r.den-r.num%r.den),abs_sub_comm]
    congr 1
    linarith
  simp only [roundRatioBankers]
  split_ifs with hlt hgt heven
  · rw [stay]
    exact ⟨by omega,fun h => absurd h (by omega)⟩
  · rw [up]
    exact ⟨by omega,fun h => absurd h (by omega)⟩
  · rw [stay]
    exact ⟨by omega,fun _ => Int.even_iff.mpr heven⟩
  · rw [up]
    exact ⟨by omega,fun _ => Int.even_add_one.mpr fun h => heven (Int.even_iff.mp h)⟩

theorem roundRatioBankers_nearest (r : ℚ) : Nearest r 1 (roundRatioBankers r) := by
  obtain ⟨close,tie⟩ := roundRatioBankers_close r
  have hd : (0 : ℚ)<r.den := by exact_mod_cast r.pos
  have whole : Nearest r.num r.den (roundRatioBankers r*r.den) := by
    refine nearest_of_close hd (by exact_mod_cast close) fun h => tie ?_
    exact_mod_cast h
  have scaled := whole.scale (inv_pos.mpr hd)
  rw [mul_inv_cancel₀ hd.ne',mul_inv_cancel_right₀ hd.ne',← div_eq_mul_inv,Rat.num_div_den]
    at scaled
  exact scaled

end Quotients

/-- What a rounding to `ndigits` places rounds to multiples of. -/
def step : Option Int64 → ℚ
  | none => 1
  | some n => 10^(-n.toInt)

section Places

variable {n : Int64}

theorem step_nonneg (h : 0 ≤ n.toInt) : step (some n)=((10 : ℚ)^n.toInt.toNat)⁻¹ := by
  have cast : n.toInt=(n.toInt.toNat : ℤ) := (Int.toNat_of_nonneg h).symm
  rw [step,cast,zpow_neg,zpow_natCast,Int.toNat_natCast]

theorem step_neg (h : n.toInt<0) : step (some n)=(10 : ℚ)^(-n.toInt).toNat := by
  have cast : -n.toInt=((-n.toInt).toNat : ℤ) := (Int.toNat_of_nonneg (by omega)).symm
  rw [step,cast,zpow_natCast,Int.toNat_natCast]

theorem step_pos (nd : Option Int64) : 0<step nd := by
  cases nd with
  | none => exact one_pos
  | some n => exact zpow_pos (by norm_num) _

theorem absExp_min : absExp Int64.minValue=none := by decide

theorem fitsI64_of {z : ℤ} (hlow : -2^63 ≤ z) (hhigh : z<2^63) :
    ∃i : Int64,fitsI64 z=some i ∧ i.toInt=z := by
  cases h : fitsI64 z with
  | none =>
    have out := (fitsI64_none z).mp h
    omega
  | some i => exact ⟨i,rfl,PyInt.fitsI64_value z i h⟩

theorem absExp_neg (h : n.toInt<0) (hmin : n≠Int64.minValue) :
    absExp n=some ((toU32 (-n.toInt)).getD u32Max) := by
  have low := Int64.minValue_le_toInt n
  have hval : Int64.minValue.toInt= -2^63 := by decide
  have hne : n.toInt≠ -2^63 := fun he => hmin (Int64.toInt_inj.mp (he.trans hval.symm))
  obtain ⟨m,hm,hmn⟩ := fitsI64_of (z := -n.toInt) (by omega) (by omega)
  rw [absExp,checkedNeg,hm,Option.map_some,hmn]

theorem toU32_small {z : ℤ} (h0 : 0 ≤ z) (h : z.natAbs ≤ 1000000) :
    (toU32 z).getD u32Max=z.toNat := by
  rw [toU32,if_pos ⟨h0,by omega⟩,Option.getD_some]

theorem nearest_multiple {s : ℚ} (hs : 0<s) (k : ℤ) : Nearest (k*s) s (k*s) := by
  have zero : |(k : ℚ)*s-k*s|=0 := by rw [sub_self,abs_zero]
  refine nearest_of_close hs (by rw [zero]; linarith) fun h => ?_
  rw [zero] at h
  linarith

/-- An integer needs no rounding to places after the point. -/
theorem nearest_integer (b : ℤ) (h : 0 ≤ n.toInt) : Nearest b (step (some n)) b := by
  have whole := nearest_multiple (step_pos (some n)) (b*10^n.toInt.toNat)
  have cancel : ((b*10^n.toInt.toNat : ℤ) : ℚ)*step (some n)=b := by
    rw [step_nonneg h]
    push_cast
    exact mul_inv_cancel_right₀ (by positivity) _
  rw [cancel] at whole
  exact whole

end Places

/-- The power of ten is an integer that `**` computes: the exponent is at most a million, the cap that
`**` has besides the limit of bits, and the power fits in that limit. -/
def WithinLimit (maxBits : ℕ) : Option Int64 → Prop
  | none => True
  | some n => n.toInt.natAbs ≤ 1000000 ∧ bits (10^n.toInt.natAbs) ≤ maxBits

section Exact

variable {maxBits : ℕ} {n : Int64}

theorem exponent_within (h : WithinLimit maxBits (some n)) (hneg : n.toInt<0) :
    absExp n=some (-n.toInt).toNat := by
  have hsmall : (-n.toInt).natAbs ≤ 1000000 := by
    rw [Int.natAbs_neg]
    exact h.1
  have hmin : n≠Int64.minValue := by
    rintro rfl
    exact absurd h.1 (by decide)
  rw [absExp_neg hneg hmin,toU32_small (by omega) hsmall]

theorem roundBigint_nearest (b : ℤ) {nd : Option Int64} (h : WithinLimit maxBits nd) :
    ∃y : ℤ,roundBigint b nd=some y ∧ Nearest b (step nd) y := by
  cases nd with
  | none =>
    have whole := nearest_multiple one_pos b
    rw [mul_one] at whole
    exact ⟨b,rfl,whole⟩
  | some n =>
    by_cases hn : 0 ≤ n.toInt
    · exact ⟨b,by rw [roundBigint,if_pos hn],nearest_integer b hn⟩
    · have hneg := not_le.mp hn
      refine ⟨bankers b (10^(-n.toInt).toNat)*10^(-n.toInt).toNat,?_,?_⟩
      · rw [roundBigint,if_neg hn,exponent_within h hneg,Option.map_some]
      · have near := bankers_nearest b (f := 10^(-n.toInt).toNat) (by positivity)
        rw [step_neg hneg]
        exact_mod_cast near

/-- The type of a rounded fraction. -/
def fractionValue (nd : Option Int64) (y : ℚ) : Value :=
  match nd with
  | none => intFromBigint y.num
  | some _ => .fraction y

theorem roundFraction_nearest (q : ℚ) {nd : Option Int64} (h : WithinLimit maxBits nd) :
    ∃y : ℚ,roundFraction q nd=some (fractionValue nd y) ∧ Nearest q (step nd) y := by
  cases nd with
  | none =>
    refine ⟨roundRatioBankers q,?_,roundRatioBankers_nearest q⟩
    rw [roundFraction,fractionValue,Rat.num_intCast]
  | some n =>
    by_cases hn : 0 ≤ n.toInt
    · have hpow : (0 : ℚ)<10^n.toInt.toNat := by positivity
      refine ⟨roundRatioBankers (q*10^n.toInt.toNat)/10^n.toInt.toNat,?_,?_⟩
      · rw [roundFraction,if_pos hn,toU32_small hn h.1]
        rfl
      · have near := (roundRatioBankers_nearest (q*10^n.toInt.toNat)).scale (inv_pos.mpr hpow)
        rw [mul_inv_cancel_right₀ hpow.ne',one_mul,← step_nonneg hn] at near
        rw [div_eq_mul_inv,← step_nonneg hn]
        exact near
    · have hneg := not_le.mp hn
      have hpow : (0 : ℚ)<10^(-n.toInt).toNat := by positivity
      refine ⟨roundRatioBankers (q/10^(-n.toInt).toNat)*10^(-n.toInt).toNat,?_,?_⟩
      · rw [roundFraction,if_neg hn,exponent_within h hneg]
        rfl
      · have near := (roundRatioBankers_nearest (q/10^(-n.toInt).toNat)).scale hpow
        rw [div_mul_cancel₀ _ hpow.ne',one_mul] at near
        rw [step_neg hneg]
        exact near

end Exact

section Machine

variable {i n : Int64} {f : ℤ}

theorem checked_of {z : ℤ} (hlow : -2^63 ≤ z) (hhigh : z<2^63) : checked z=some z := by
  rw [checked,if_pos ⟨hlow,hhigh⟩]

theorem machine_bounds (i : Int64) : -2^63 ≤ i.toInt ∧ i.toInt<2^63 := by
  have hlow := Int64.minValue_le_toInt i
  have hhigh := Int64.toInt_le i
  have hmin : Int64.minValue.toInt= -2^63 := by decide
  have hmax : Int64.maxValue.toInt=2^63-1 := by decide
  omega

theorem quotient_bounds (i : Int64) (hf : 10 ≤ f) :
    -2^62 ≤ i.toInt.tdiv f ∧ i.toInt.tdiv f ≤ 2^62 := by
  have hi := machine_bounds i
  have habs := Int.natAbs_tdiv i.toInt f
  have hle : i.toInt.natAbs.div f.natAbs ≤ i.toInt.natAbs/10 :=
    Nat.div_le_div_left (by omega) (by decide)
  rw [← habs] at hle
  omega

/-- The product of the quotient and the factor lies between zero and the number. -/
theorem product_bounds (i : Int64) (hf : 0<f) (h18 : f ≤ 10^18) :
    -2^63 ≤ i.toInt.tdiv f*f ∧ i.toInt.tdiv f*f<2^63 ∧ |i.toInt.tmod f|<f := by
  have hi := machine_bounds i
  have hsplit := Int.tdiv_mul_add_tmod i.toInt f
  have hlow := Int.lt_tmod_of_pos i.toInt hf
  have hhigh := Int.tmod_lt_of_pos i.toInt hf
  refine ⟨?_,?_,abs_lt.mpr ⟨hlow,hhigh⟩⟩
  · by_cases h : 0 ≤ i.toInt
    · omega
    · have hsign := Int.tmod_nonneg f (by omega : 0 ≤ -i.toInt)
      rw [Int.neg_tmod] at hsign
      omega
  · by_cases h : 0 ≤ i.toInt
    · have hsign := Int.tmod_nonneg f h
      omega
    · omega

theorem away_bounds {q : ℤ} (j : ℤ) (hlow : -2^62 ≤ q) (hhigh : q ≤ 2^62) :
    checked (away j q)=some (away j q) := by
  rw [away]
  split
  · exact checked_of (by omega) (by omega)
  · exact checked_of (by omega) (by omega)

/-- No step of the machine path overflows but the last. -/
theorem roundInt_small (hneg : n.toInt<0) (hsmall : -18 ≤ n.toInt) : roundInt i (some n)=
    (fitsI64 (bankers i.toInt (10^(-n.toInt).toNat)*10^(-n.toInt).toNat)).map .int := by
  have hexp : absExp n=some (-n.toInt).toNat :=
    exponent_within (⟨by omega,le_rfl⟩ : WithinLimit (bits (10^n.toInt.natAbs)) (some n)) hneg
  have he : ¬18<(-n.toInt).toNat := by omega
  have h10 : (10 : ℤ)^1 ≤ 10^(-n.toInt).toNat := pow_le_pow_right₀ (by decide) (by omega)
  have h18 : (10 : ℤ)^(-n.toInt).toNat ≤ 10^18 := pow_le_pow_right₀ (by decide) (by omega)
  rw [roundInt,if_neg (not_le.mpr hneg),hexp]
  simp only [Option.bind_eq_bind,Option.bind_some,if_neg he]
  generalize (10 : ℤ)^(-n.toInt).toNat=f at h10 h18
  have hf : 0<f := by omega
  obtain ⟨qlow,qhigh⟩ := quotient_bounds i h10
  obtain ⟨plow,phigh,hrest⟩ := product_bounds i hf h18
  have hr : i.toInt-i.toInt.tdiv f*f=i.toInt.tmod f := by rw [Int.tmod_def,mul_comm]
  have hnonneg := abs_nonneg (i.toInt.tmod f)
  obtain ⟨rlow,rhigh⟩ := abs_lt.mp hrest
  rw [checked_of (z := f) (by omega) (by omega),Option.bind_some,
    checked_of (z := i.toInt.tdiv f) (by omega) (by omega),Option.bind_some,
    checked_of (z := i.toInt.tdiv f*f) plow phigh,Option.bind_some,hr,
    checked_of (z := i.toInt.tmod f) (by omega) (by omega),Option.bind_some,
    checked_of (z := |i.toInt.tmod f|) (by omega) (by omega),Option.bind_some,
    checked_of (z := |i.toInt.tmod f| * 2) (by omega) (by omega),Option.bind_some,
    away_bounds i.toInt qlow qhigh]
  simp only [bankers,hr]
  split_ifs <;> rfl

theorem roundInt_large (hsmall : n.toInt < -18) (hmin : n≠Int64.minValue) :
    roundInt i (some n)=some (.int 0) := by
  have hexp := absExp_neg (by omega) hmin
  have hbig : 18<(toU32 (-n.toInt)).getD u32Max := by
    rw [toU32]
    split
    · rw [Option.getD_some]
      omega
    · rw [Option.getD_none,u32Max]
      decide
  rw [roundInt,if_neg (by omega),hexp]
  simp only [Option.bind_eq_bind,Option.bind_some,if_pos hbig]

theorem roundInt_min : roundInt i (some Int64.minValue)=none := by
  rw [roundInt,if_neg (by decide),absExp_min]
  rfl

/-- The number is on the near side of the midpoint above the last multiple of `f` that an i64
holds. -/
def RoundsInto (i f : ℤ) : Prop :=
  2*|i|<(2*(2^63/f)+1)*f ∨ 2*|i|=(2*(2^63/f)+1)*f ∧ Even (2^63/f)

theorem roundsInto_iff (i : ℤ) (hf : 0<f) : |bankers i f| ≤ 2^63/f ↔ RoundsInto i f := by
  obtain ⟨close,tie⟩ := bankers_close i hf
  rw [RoundsInto]
  generalize bankers i f=k at close tie
  generalize 2^63/f=q
  have hkf : |k*f|=|k| * f := by rw [abs_mul,abs_of_pos hf]
  have upper : |i| ≤ |i-k*f|+|k*f| := by
    have h := abs_add_le (i-k*f) (k*f)
    rwa [sub_add_cancel] at h
  have lower : |k*f| ≤ |i-k*f|+|i| := by
    have h := abs_sub i (i-k*f)
    rw [sub_sub_cancel] at h
    linarith
  rw [hkf] at upper lower
  constructor
  · intro hk
    have hmul : |k| * f ≤ q*f := mul_le_mul_of_nonneg_right hk hf.le
    have hle : 2*|i| ≤ (2*q+1)*f := by linarith
    rcases hle.lt_or_eq with hlt | heq
    · exact Or.inl hlt
    · right
      refine ⟨heq,?_⟩
      have hq : |k|=q := mul_right_cancel₀ hf.ne' (by linarith)
      rw [← hq,even_abs]
      exact tie (by linarith)
  · intro h
    by_contra hk
    have hmul : (q+1)*f ≤ |k| * f := mul_le_mul_of_nonneg_right (by omega) hf.le
    rcases h with hlt | ⟨heq,heven⟩
    · linarith
    · have hq : |k|=q+1 := mul_right_cancel₀ hf.ne' (by linarith)
      have hodd : Even (q+1) := by
        rw [← hq,even_abs]
        exact tie (by linarith)
      exact Int.even_add_one.mp hodd heven

/-- No multiple of a power of ten is the least i64. -/
theorem fits_iff {e : ℕ} (he : 0<e) (k : ℤ) :
    (-2^63 ≤ k*10^e ∧ k*10^e<2^63) ↔ |k| ≤ 2^63/10^e := by
  have hf : (0 : ℤ)<10^e := by positivity
  have hdvd : (10 : ℤ) ∣ k*10^e := (dvd_pow_self 10 he.ne').mul_left k
  rw [Int.le_ediv_iff_mul_le hf]
  have hkf : |k*10^e|=|k| * 10^e := by rw [abs_mul,abs_of_pos hf]
  rw [← hkf,abs_le]
  constructor
  · intro h
    exact ⟨h.1,h.2.le⟩
  · intro h
    refine ⟨h.1,h.2.lt_of_ne fun heq => ?_⟩
    rw [heq] at hdvd
    exact absurd hdvd (by decide)

end Machine

/-- An i64, a big integer or a fraction. -/
inductive Number where
  | machine (i : Int64)
  | big (b : ℤ)
  | fraction (q : ℚ)

/-- The promised result on every path. -/
def Meets (maxBits : ℕ) : Number → Option Int64 → Prop
  | .machine i,nd => ∃v,roundInt i nd=some v ∧ (WithinLimit maxBits nd →
      ∃y : ℤ,Nearest i.toInt (step nd) y ∧ v=intFromBigint y ∧ roundBigint i.toInt nd=some y ∧
        roundFraction i.toInt nd=some (fractionValue nd y))
  | .big b,nd => WithinLimit maxBits nd → ∃y : ℤ,Nearest b (step nd) y ∧
      roundBigint b nd=some y ∧ roundFraction b nd=some (fractionValue nd y)
  | .fraction q,nd => WithinLimit maxBits nd → ∃y,Nearest q (step nd) y ∧
      roundFraction q nd=some (fractionValue nd y)

/-- Machine integers whose rounding has a factor above 10^18 or leaves the i64 range go wrong. -/
def Safe (maxBits : ℕ) : Number → Option Int64 → Prop
  | .machine i,some n => 0 ≤ n.toInt ∨ n≠Int64.minValue ∧
      (n.toInt < -18 ∧ ¬WithinLimit maxBits (some n) ∨ RoundsInto i.toInt (10^(-n.toInt).toNat))
  | _,_ => True

section Claim

variable {maxBits : ℕ} {nd : Option Int64}

/-- The big-integer path and the fraction path agree. -/
theorem paths_agree (b : ℤ) (h : WithinLimit maxBits nd) : ∃y : ℤ,Nearest b (step nd) y ∧
    roundBigint b nd=some y ∧ roundFraction b nd=some (fractionValue nd y) := by
  obtain ⟨y,hy,near⟩ := roundBigint_nearest b h
  obtain ⟨z,hz,near'⟩ := roundFraction_nearest (b : ℚ) h
  rw [near'.unique (step_pos nd) near] at hz
  exact ⟨y,near,hy,hz⟩

theorem bigint_fits {z : ℤ} {j : Int64} (h : fitsI64 z=some j) :
    intFromBigint z=.int j := by
  rw [intFromBigint,h]

theorem fits_self (i : Int64) : fitsI64 i.toInt=some i := by
  obtain ⟨hlow,hhigh⟩ := machine_bounds i
  obtain ⟨j,hj,heq⟩ := fitsI64_of hlow hhigh
  rw [hj,Int64.toInt_inj.mp heq]

theorem intFromBigint_zero {y : ℤ} (h : Value.int 0=intFromBigint y) : y=0 := by
  cases hf : fitsI64 y with
  | none =>
    rw [intFromBigint,hf] at h
    cases h
  | some j =>
    rw [bigint_fits hf] at h
    cases h
    exact (PyInt.fitsI64_value y 0 hf).symm

/-- A machine integer that is not rounded. -/
theorem meets_unrounded (i : Int64) (hrun : roundInt i nd=some (.int i))
    (hbig : roundBigint i.toInt nd=some i.toInt) : Meets maxBits (.machine i) nd := by
  refine ⟨.int i,hrun,fun h => ?_⟩
  obtain ⟨y,near,hy,hfraction⟩ := paths_agree i.toInt h
  rw [hbig] at hy
  cases hy
  exact ⟨i.toInt,near,(bigint_fits (fits_self i)).symm,hbig,hfraction⟩

variable {i n : Int64}

/-- What the other paths return within the limit. -/
theorem bigint_within (h : WithinLimit maxBits (some n)) (hneg : n.toInt<0) (b : ℤ) :
    roundBigint b (some n)=some (bankers b (10^(-n.toInt).toNat)*10^(-n.toInt).toNat) := by
  rw [roundBigint,if_neg (not_le.mpr hneg),exponent_within h hneg]
  rfl

theorem meets_small (hneg : n.toInt<0) (hsmall : -18 ≤ n.toInt) :
    Meets maxBits (.machine i) (some n) ↔ RoundsInto i.toInt (10^(-n.toInt).toNat) := by
  have hf : (0 : ℤ)<10^(-n.toInt).toNat := by positivity
  rw [← roundsInto_iff _ hf,← fits_iff (by omega),Meets,roundInt_small hneg hsmall]
  constructor
  · rintro ⟨v,hv,-⟩
    by_contra hout
    have none := (fitsI64_none
      (bankers i.toInt (10^(-n.toInt).toNat)*10^(-n.toInt).toNat)).mpr (by omega)
    rw [none] at hv
    cases hv
  · rintro ⟨hlow,hhigh⟩
    obtain ⟨j,hj,-⟩ := fitsI64_of hlow hhigh
    refine ⟨.int j,by rw [hj]; rfl,fun h => ?_⟩
    obtain ⟨y,near,hy,hfraction⟩ := paths_agree i.toInt h
    rw [bigint_within h hneg] at hy
    cases hy
    exact ⟨_,near,(bigint_fits hj).symm,bigint_within h hneg _,hfraction⟩

theorem meets_large (hlarge : n.toInt < -18) (hmin : n≠Int64.minValue) :
    Meets maxBits (.machine i) (some n) ↔
      ¬WithinLimit maxBits (some n) ∨ RoundsInto i.toInt (10^(-n.toInt).toNat) := by
  have hf : (0 : ℤ)<10^(-n.toInt).toNat := by positivity
  have h19 : (10 : ℤ)^19 ≤ 10^(-n.toInt).toNat := pow_le_pow_right₀ (by decide) (by omega)
  have hquot : (2 : ℤ)^63/10^(-n.toInt).toNat=0 :=
    Int.ediv_eq_zero_of_lt (by decide) (lt_of_lt_of_le (by decide) h19)
  rw [← roundsInto_iff _ hf,hquot,abs_nonpos_iff,Meets,roundInt_large hlarge hmin]
  constructor
  · rintro ⟨v,hv,hmeets⟩
    by_cases h : WithinLimit maxBits (some n)
    · right
      obtain ⟨y,near,hval,hy,-⟩ := hmeets h
      cases hv
      rw [bigint_within h (by omega),intFromBigint_zero hval] at hy
      exact (mul_eq_zero.mp (Option.some.inj hy)).resolve_right hf.ne'
    · exact Or.inl h
  · intro hor
    refine ⟨.int 0,rfl,fun h => ?_⟩
    obtain ⟨y,near,hy,hfraction⟩ := paths_agree i.toInt h
    rw [bigint_within h (by omega),hor.resolve_left (not_not_intro h),zero_mul] at hy
    cases hy
    refine ⟨0,near,rfl,?_,hfraction⟩
    rw [bigint_within h (by omega),hor.resolve_left (not_not_intro h),zero_mul]

theorem not_meets_min : ¬Meets maxBits (.machine i) (some Int64.minValue) := by
  rintro ⟨v,hv,-⟩
  rw [roundInt_min] at hv
  cases hv

end Claim

/-- Rounding is exact and agrees on all paths exactly where the machine path is safe. -/
theorem round_exact_iff (maxBits : ℕ) (x : Number) (nd : Option Int64) :
    Meets maxBits x nd ↔ Safe maxBits x nd := by
  cases x with
  | big b => exact iff_of_true (fun h => paths_agree b h) trivial
  | fraction q =>
    refine iff_of_true (fun h => ?_) trivial
    obtain ⟨y,hy,near⟩ := roundFraction_nearest q h
    exact ⟨y,near,hy⟩
  | machine i =>
    cases nd with
    | none => exact iff_of_true (meets_unrounded i rfl rfl) trivial
    | some n =>
      by_cases hn : 0 ≤ n.toInt
      · refine iff_of_true (meets_unrounded i ?_ ?_) (Or.inl hn)
        · rw [roundInt,if_pos hn]
        · rw [roundBigint,if_pos hn]
      rw [Safe,or_iff_right hn]
      by_cases hmin : n=Int64.minValue
      · rw [hmin]
        exact iff_of_false not_meets_min fun h => h.1 rfl
      rw [and_iff_right hmin]
      by_cases hlarge : n.toInt < -18
      · rw [meets_large hlarge hmin,and_iff_right hlarge]
      · rw [meets_small (by omega) (by omega),or_iff_right fun h => hlarge h.1]

/-- `round(9223372036854775807,-1)` leaves the i64 range in its last product. -/
theorem round_overflows :
    ¬ ∀ (x : Number) (nd : Option Int64),Meets 1048576 x nd := by
  intro h
  obtain ⟨v,hv,-⟩ := h (.machine Int64.maxValue) (some (-1))
  have none : roundInt Int64.maxValue (some (-1))=none := by decide
  rw [none] at hv
  cases hv

end InterpretThis.Rounding
