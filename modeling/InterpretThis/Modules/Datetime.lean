import InterpretThis.Integers.Rounding

namespace InterpretThis.Datetime

open Rounding

/-- The values of the module's arithmetic: days, and microseconds since the year 1. `leap` is a time
of day whose second 59 has a million microseconds or more. -/
inductive Val where
  | date (days : ℤ)
  | dateTime (wall : ℤ) (tzOffsetSecs : Option Int32)
  | leap (wall : ℤ) (tzOffsetSecs : Option Int32)
  | timeDelta (us : ℤ)
  | int (n : ℤ)
  | bigInt (n : ℤ)

inductive Op where
  | add | sub | mul | floorDiv | mod | div

/-- How an operation ends: a step that leaves i64 has `overflow`. -/
inductive Outcome where
  | ok (v : Val)
  | typeError (message : String)
  | valueError (message : String)
  | overflowError
  | overflow

def micros : ℤ := 86400000000

/-- `NaiveTime::from_hms_micro_opt`, and the datetime of a day at that time. -/
def dateTimeAt (days : ℤ) (hour minute second microsecond : ℕ) (tz : Option Int32) : Outcome :=
  let wall : ℤ := days*micros+(((hour*60+minute)*60+second)*1000000+microsecond : ℕ)
  if 24 ≤ hour ∨ 60 ≤ minute ∨ 60 ≤ second then .valueError "time component out of range"
  else if microsecond<1000000 then .ok (.dateTime wall tz)
  else if second=59 ∧ microsecond<2000000 then .ok (.leap wall tz)
  else .valueError "time component out of range"

/-- What the constructor accepts is plain or a leap second. -/
theorem dateTimeAt_cases {days : ℤ} {hour minute second microsecond : ℕ} {tz : Option Int32}
    {v : Val} (h : dateTimeAt days hour minute second microsecond tz=.ok v) :
    ∃ wall,v=.dateTime wall tz ∨ v=.leap wall tz ∧ second=59 := by
  rw [dateTimeAt] at h
  split_ifs at h with _ _ hleap
  · exact ⟨_,.inl (Outcome.ok.inj h).symm⟩
  · exact ⟨_,.inr ⟨(Outcome.ok.inj h).symm,hleap.1⟩⟩

def daysBeforeYear (y : ℤ) : ℤ := 365*(y-1)+(y-1)/4-(y-1)/100+(y-1)/400

/-- The days of the years 1 to 9999. -/
def lastDay : ℤ := daysBeforeYear 10000

/-- chrono's range of days, which covers the years 1 to 9999, and its sums and differences with leap
seconds. -/
structure Chrono where
  low : ℤ
  high : ℤ
  early : low ≤ 0
  late : lastDay ≤ high
  leapArith : Op → Val → Val → Option Outcome

variable (chrono : Chrono)

/-- `checked_add_signed` of a date. -/
def addDays (days shift : ℤ) : Option Outcome :=
  if chrono.low ≤ days+shift ∧ days+shift<chrono.high then some (.ok (.date (days+shift)))
  else none

/-- `checked_add_signed` of a datetime. -/
def addMicros (wall us : ℤ) (tz : Option Int32) : Option Outcome :=
  if chrono.low*micros ≤ wall+us ∧ wall+us<chrono.high*micros then
    some (.ok (.dateTime (wall+us) tz))
  else none

/-- Truncated steps of i64, with the quotient moved down where the signs differ. -/
def tdFloordiv (a b : ℤ) : Option ℤ := do
  let q ← checked (a.tdiv b)
  let r := a.tmod b
  if r≠0 ∧ ¬(r<0 ↔ b<0) then checked (q-1) else some q

def tdDivideAndRound (a b : ℤ) : Option ℤ := do
  let q ← tdFloordiv a b
  let product ← checked (q*b)
  let r ← checked (a-product)
  let r2 ← checked (r*2)
  let greaterThanHalf := if 0<b then b<r2 else r2<b
  if greaterThanHalf ∨ r2=b ∧ q.tmod 2≠0 then checked (q+1) else some q

def tdMod (a b : ℤ) : Option ℤ := do
  let q ← tdFloordiv a b
  let product ← checked (q*b)
  checked (a-product)

/-- A machine result that a step may have failed to reach. -/
def stepped (result : Option ℤ) (val : ℤ → Val) : Option Outcome :=
  match result with
  | some z => some (.ok (val z))
  | none => some .overflow

/-- The arms whose operands are no floats. -/
def tryArith : Op → Val → Val → Option Outcome
  | .add,.date d,.timeDelta us | .add,.timeDelta us,.date d => addDays chrono d (us/micros)
  | .sub,.date d,.timeDelta us => addDays chrono d (-(us/micros))
  | .sub,.date a,.date b => (checked ((a-b)*micros)).map fun us => .ok (.timeDelta us)
  | .add,.dateTime w tz,.timeDelta us | .add,.timeDelta us,.dateTime w tz =>
    addMicros chrono w us tz
  | .sub,.dateTime w tz,.timeDelta us => addMicros chrono w (-us) tz
  | .sub,.dateTime a tzA,.dateTime b tzB =>
    if tzA.isSome≠tzB.isSome then
      some (.typeError "can't subtract offset-naive and offset-aware datetimes")
    else (checked (a-b)).map fun us => .ok (.timeDelta us)
  | op,.leap w tz,r => chrono.leapArith op (.leap w tz) r
  | op,l,.leap w tz => chrono.leapArith op l (.leap w tz)
  | .add,.timeDelta a,.timeDelta b => (checked (a+b)).map fun us => .ok (.timeDelta us)
  | .sub,.timeDelta a,.timeDelta b => (checked (a-b)).map fun us => .ok (.timeDelta us)
  | .mul,.timeDelta a,.int n | .mul,.int n,.timeDelta a =>
    (checked (a*n)).map fun us => .ok (.timeDelta us)
  | .floorDiv,.timeDelta a,.int n => if n≠0 then stepped (checked (a.tdiv n)) .timeDelta else none
  | .floorDiv,.timeDelta a,.timeDelta b => if b≠0 then stepped (tdFloordiv a b) .int else none
  | .mod,.timeDelta a,.timeDelta b => if b≠0 then stepped (tdMod a b) .timeDelta else none
  | .div,.timeDelta a,.int n =>
    if n≠0 then stepped (tdDivideAndRound a n) .timeDelta else none
  | _,_,_ => none

section Arms

variable (w us a b d n : ℤ) (tz tzA tzB : Option Int32)

theorem add_dateTimeDelta :
    tryArith chrono .add (.dateTime w tz) (.timeDelta us)=addMicros chrono w us tz := rfl

theorem sub_dateTimeDelta :
    tryArith chrono .sub (.dateTime w tz) (.timeDelta us)=addMicros chrono w (-us) tz := rfl

theorem sub_dateTimes : tryArith chrono .sub (.dateTime a tzA) (.dateTime b tzB)=
    if tzA.isSome≠tzB.isSome then
      some (.typeError "can't subtract offset-naive and offset-aware datetimes")
    else (checked (a-b)).map fun us => .ok (.timeDelta us) := rfl

theorem add_dateDelta :
    tryArith chrono .add (.date d) (.timeDelta us)=addDays chrono d (us/micros) := rfl

theorem add_deltaDate :
    tryArith chrono .add (.timeDelta us) (.date d)=addDays chrono d (us/micros) := rfl

theorem add_deltaDateTime :
    tryArith chrono .add (.timeDelta us) (.dateTime w tz)=addMicros chrono w us tz := rfl

theorem sub_dateDelta :
    tryArith chrono .sub (.date d) (.timeDelta us)=addDays chrono d (-(us/micros)) := rfl

theorem sub_dates : tryArith chrono .sub (.date a) (.date b)=
    (checked ((a-b)*micros)).map fun us => .ok (.timeDelta us) := rfl

theorem mul_deltaInt : tryArith chrono .mul (.timeDelta a) (.int n)=
    (checked (a*n)).map fun us => .ok (.timeDelta us) := rfl

theorem mul_intDelta : tryArith chrono .mul (.int n) (.timeDelta a)=
    (checked (a*n)).map fun us => .ok (.timeDelta us) := rfl

theorem floorDiv_deltaInt : tryArith chrono .floorDiv (.timeDelta a) (.int n)=
    if n≠0 then stepped (checked (a.tdiv n)) .timeDelta else none := rfl

theorem floorDiv_deltas : tryArith chrono .floorDiv (.timeDelta a) (.timeDelta b)=
    if b≠0 then stepped (tdFloordiv a b) .int else none := rfl

theorem mod_deltas : tryArith chrono .mod (.timeDelta a) (.timeDelta b)=
    if b≠0 then stepped (tdMod a b) .timeDelta else none := rfl

theorem div_deltaInt : tryArith chrono .div (.timeDelta a) (.int n)=
    if n≠0 then stepped (tdDivideAndRound a n) .timeDelta else none := rfl

end Arms

def Val.typeName : Val → String
  | .date _ => "date"
  | .dateTime _ _ => "datetime"
  | .leap _ _ => "datetime"
  | .timeDelta _ => "timedelta"
  | .int _ => "int"
  | .bigInt _ => "int"

def Op.sym : Op → String
  | .add => "+"
  | .sub => "-"
  | .mul => "*"
  | .floorDiv => "//"
  | .mod => "%"
  | .div => "/"

/-- The dispatcher: what no arm answers is unsupported. -/
def binop (op : Op) (l r : Val) : Outcome :=
  (tryArith chrono op l r).getD (.typeError
    ("unsupported operand type(s) for "++op.sym++": '"++l.typeName++"' and '"++r.typeName++"'"))

section Floor

variable {a b : ℤ}

/-- A number that is an i64. -/
def Fits (z : ℤ) : Prop := -2^63 ≤ z ∧ z<2^63

instance (z : ℤ) : Decidable (Fits z) := inferInstanceAs (Decidable (_ ∧ _))

theorem checked_fits {z : ℤ} (h : Fits z) : checked z=some z := if_pos h

theorem checked_out {z : ℤ} (h : ¬Fits z) : checked z=none := if_neg h

/-- The one division that overflows. -/
def Wraps (a b : ℤ) : Prop := a= -2^63 ∧ b= -1

theorem fmod_bounds (a : ℤ) (hb : b≠0) :
    0 ≤ a.fmod b ∧ a.fmod b<b ∨ b<a.fmod b ∧ a.fmod b ≤ 0 := by
  rcases lt_or_gt_of_ne hb with hneg | hpos
  · right
    have hlow := Int.fmod_nonneg_of_pos (-a) (by omega : 0 < -b)
    have hhigh := Int.fmod_lt_of_pos (-a) (by omega : 0 < -b)
    rw [Int.neg_fmod_neg] at hlow hhigh
    omega
  · exact Or.inl ⟨Int.fmod_nonneg_of_pos a hpos,Int.fmod_lt_of_pos a hpos⟩

/-- A remainder with the sign of the divisor belongs to the floored quotient. -/
theorem fdiv_unique {q r : ℤ} (hb : b≠0) (h : q*b+r=a) (hr : 0 ≤ r ∧ r<b ∨ b<r ∧ r ≤ 0) :
    a.fdiv b=q := by
  have hsplit := Int.fdiv_mul_add_fmod a b
  have hmod := fmod_bounds a hb
  have hdvd : b ∣ r-a.fmod b := ⟨a.fdiv b-q,by linarith⟩
  have hzero := Int.eq_zero_of_dvd_of_natAbs_lt_natAbs hdvd (by omega)
  exact mul_right_cancel₀ hb (by linarith)

theorem tmod_bounds (a : ℤ) (hb : b≠0) :
    (a.tmod b).natAbs<b.natAbs ∧ (0 ≤ a → 0 ≤ a.tmod b) ∧ (a ≤ 0 → a.tmod b ≤ 0) := by
  refine ⟨?_,fun h => Int.tmod_nonneg b h,fun h => ?_⟩
  · rw [Int.natAbs_tmod]
    exact Nat.mod_lt _ (Int.natAbs_pos.mpr hb)
  · have hneg := Int.tmod_nonneg b (by omega : 0 ≤ -a)
    rw [Int.neg_tmod] at hneg
    omega

theorem tdiv_small (ha : Fits a) (hb : 2 ≤ b.natAbs) : -2^62 ≤ a.tdiv b ∧ a.tdiv b ≤ 2^62 := by
  have habs := Int.natAbs_tdiv a b
  have hle : a.natAbs.div b.natAbs ≤ a.natAbs/2 := Nat.div_le_div_left hb (by decide)
  rw [← habs] at hle
  rw [Fits] at ha
  omega

theorem tdiv_fits (ha : Fits a) (hb : b≠0) (h : ¬Wraps a b) : Fits (a.tdiv b) := by
  by_cases hbig : 2 ≤ b.natAbs
  · have hsmall := tdiv_small ha hbig
    rw [Fits]
    omega
  · rw [Fits] at ha ⊢
    rw [Wraps] at h
    obtain rfl | rfl : b=1 ∨ b= -1 := by omega
    · rw [Int.tdiv_one]
      exact ha
    · rw [Int.tdiv_neg,Int.tdiv_one]
      omega

theorem tdiv_wraps (h : Wraps a b) : checked (a.tdiv b)=none := by
  rw [h.1,h.2]
  decide

/-- The floored quotient is the truncated one, moved down where the signs differ. -/
theorem fdiv_eq_moved (a : ℤ) (hb : b≠0) :
    a.fdiv b=if a.tmod b≠0 ∧ ¬(a.tmod b<0 ↔ b<0) then a.tdiv b-1 else a.tdiv b := by
  have hsplit := Int.tdiv_mul_add_tmod a b
  obtain ⟨hlt,-,-⟩ := tmod_bounds a hb
  split_ifs with hdown
  · exact fdiv_unique hb (r := a.tmod b+b) (by linarith) (by omega)
  · exact fdiv_unique hb hsplit (by omega)

theorem tdFloordiv_eq (ha : Fits a) (hb : b≠0) (h : ¬Wraps a b) :
    tdFloordiv a b=some (a.fdiv b) := by
  obtain ⟨hlt,-,-⟩ := tmod_bounds a hb
  rw [tdFloordiv,checked_fits (tdiv_fits ha hb h),fdiv_eq_moved a hb]
  simp only [Option.bind_eq_bind,Option.bind_some]
  split_ifs with hdown
  · have hsmall := tdiv_small ha (b := b) (by omega)
    rw [checked_fits ⟨by omega,by omega⟩]
  · rfl

theorem tdFloordiv_wraps (h : Wraps a b) : tdFloordiv a b=none := by
  rw [tdFloordiv,tdiv_wraps h]
  rfl

theorem fmod_fits (a : ℤ) (hb : b≠0) (fits : Fits b) : Fits (a.fmod b) := by
  have hmod := fmod_bounds a hb
  rw [Fits] at fits ⊢
  omega

/-- The product of the quotient and the divisor. -/
theorem fdiv_product (a b : ℤ) : a.fdiv b*b=a-a.fmod b := by
  have hsplit := Int.fdiv_mul_add_fmod a b
  linarith

/-- The remainder is reached unless the division or the product overflows. -/
theorem tdMod_eq (ha : Fits a) (hb : b≠0) (fits : Fits b) (h : ¬Wraps a b) :
    tdMod a b=if Fits (a-a.fmod b) then some (a.fmod b) else none := by
  rw [tdMod,tdFloordiv_eq ha hb h]
  simp only [Option.bind_eq_bind,Option.bind_some,fdiv_product]
  split_ifs with hproduct
  · rw [checked_fits hproduct,Option.bind_some,sub_sub_cancel,checked_fits (fmod_fits a hb fits)]
  · rw [checked_out hproduct]
    rfl

theorem tdMod_wraps (h : Wraps a b) : tdMod a b=none := by
  rw [tdMod,tdFloordiv_wraps h]
  rfl

/-- The quotient that `_divide_and_round` returns. -/
def rounded (a b : ℤ) : ℤ :=
  if |b|<2*|a.fmod b| ∨ 2*|a.fmod b|=|b| ∧ (a.fdiv b).tmod 2≠0 then a.fdiv b+1 else a.fdiv b

theorem half_iff (a : ℤ) (hb : b≠0) :
    ((if 0<b then b<a.fmod b*2 else a.fmod b*2<b) ↔ |b|<2*|a.fmod b|) ∧
      (a.fmod b*2=b ↔ 2*|a.fmod b|=|b|) := by
  rcases fmod_bounds a hb with h | h
  · rw [if_pos (by omega),abs_of_pos (by omega : 0<b),abs_of_nonneg h.1]
    omega
  · rw [if_neg (by omega),abs_of_neg (by omega : b<0),abs_of_nonpos h.2]
    omega

theorem tdDivideAndRound_eq (ha : Fits a) (hb : b≠0) (fits : Fits b) (h : ¬Wraps a b) :
    tdDivideAndRound a b=
      if Fits (a-a.fmod b) ∧ Fits (a.fmod b*2) then some (rounded a b) else none := by
  have hmod := fmod_bounds a hb
  rw [tdDivideAndRound,tdFloordiv_eq ha hb h]
  simp only [Option.bind_eq_bind,Option.bind_some,fdiv_product]
  by_cases hproduct : Fits (a-a.fmod b)
  swap
  · rw [checked_out hproduct,if_neg fun hand => hproduct hand.1]
    rfl
  rw [checked_fits hproduct,Option.bind_some,sub_sub_cancel,checked_fits (fmod_fits a hb fits),
    Option.bind_some]
  by_cases hdouble : Fits (a.fmod b*2)
  swap
  · rw [checked_out hdouble,if_neg fun hand => hdouble hand.2]
    rfl
  obtain ⟨hgreater,htie⟩ := half_iff a hb
  rw [checked_fits hdouble,Option.bind_some,
    if_pos (⟨hproduct,hdouble⟩ : Fits (a-a.fmod b) ∧ Fits (a.fmod b*2)),rounded]
  simp only [hgreater,htie]
  by_cases hup : |b|<2*|a.fmod b| ∨ 2*|a.fmod b|=|b| ∧ (a.fdiv b).tmod 2≠0
  · rw [if_pos hup,if_pos hup]
    have hbig : 2 ≤ b.natAbs := by
      rcases abs_cases b with hc | hc <;> rcases abs_cases (a.fmod b) with hd | hd <;> omega
    have hsmall := tdiv_small ha hbig
    have hmoved := fdiv_eq_moved a hb
    refine checked_fits ?_
    rw [Fits]
    split_ifs at hmoved <;> omega
  · rw [if_neg hup,if_neg hup]

theorem tdDivideAndRound_wraps (h : Wraps a b) : tdDivideAndRound a b=none := by
  rw [tdDivideAndRound,tdFloordiv_wraps h]
  rfl

/-- A quotient is rounded half to even if the rest is at most half the divisor. -/
theorem nearest_ratio {k : ℤ} (hb : b≠0) (close : 2*|a-k*b| ≤ |b|)
    (tie : 2*|a-k*b|=|b| → Even k) : HalfEven.Nearest ((a : ℚ)/b) 1 k := by
  have rne : (b : ℚ)≠0 := by exact_mod_cast hb
  have rb : (0 : ℚ) < |(b : ℚ)| := abs_pos.mpr rne
  have dist : 2*|(a : ℚ)/b-k*1|=2*|(a : ℚ)-k*b|/|(b : ℚ)| := by
    rw [mul_div_assoc,← abs_div,sub_div,mul_div_cancel_right₀ _ rne,mul_one]
  have near : HalfEven.Nearest ((a : ℚ)/b) 1 (k*1) := by
    refine HalfEven.nearest_of_close one_pos ?_ fun h => tie ?_
    · rw [dist,div_le_one rb]
      exact_mod_cast close
    · rw [dist,div_eq_one_iff_eq rb.ne'] at h
      exact_mod_cast h
  rwa [mul_one] at near

theorem rounded_nearest (a : ℤ) (hb : b≠0) : HalfEven.Nearest ((a : ℚ)/b) 1 (rounded a b) := by
  have stay : |a-a.fdiv b*b|=|a.fmod b| := by
    rw [fdiv_product,sub_sub_cancel]
  have up : |a-(a.fdiv b+1)*b|=|b|-|a.fmod b| := by
    have rest : a-(a.fdiv b+1)*b=a.fmod b-b := by
      rw [add_mul,fdiv_product]
      ring
    rw [rest]
    rcases fmod_bounds a hb with h | h
    · rw [abs_of_neg (by omega),abs_of_pos (by omega : 0<b),abs_of_nonneg h.1]
      ring
    · rw [abs_of_pos (by omega),abs_of_neg (by omega : b<0),abs_of_nonpos h.2]
      ring
  rw [rounded]
  split_ifs with hup
  · refine nearest_ratio hb (by rw [up]; omega) fun htie => ?_
    rw [up] at htie
    exact away_even 0 (hup.resolve_left (by omega)).2
  · rw [not_or,not_and_not_right] at hup
    refine nearest_ratio hb (by rw [stay]; omega) fun htie => ?_
    rw [stay] at htie
    exact even_of_tmod (hup.2 htie)

end Floor

/-- The i64 components of a timedelta. -/
structure Parts where
  days : Int64
  seconds : Int64
  microseconds : Int64
  milliseconds : Int64
  minutes : Int64
  hours : Int64
  weeks : Int64

/-- The components in the order they are added, each in microseconds. -/
def Parts.scaled (p : Parts) : List ℤ :=
  [p.days.toInt*micros,p.weeks.toInt*(7*micros),p.hours.toInt*3600000000,
    p.minutes.toInt*60000000,p.seconds.toInt*1000000,p.milliseconds.toInt*1000,
    p.microseconds.toInt]

def Parts.total (p : Parts) : ℤ := p.scaled.sum

/-- Checked products and sums. -/
def compose : List ℤ → ℤ → Option ℤ
  | [],sum => some sum
  | product::products,sum => do
    let product ← checked product
    let sum ← checked (sum+product)
    compose products sum

/-- The constructor of timedeltas. -/
def timedelta (p : Parts) : Outcome :=
  match compose p.scaled 0 with
  | some us => .ok (.timeDelta us)
  | none => .valueError "timedelta overflow"

/-- The products and the partial sums are i64. -/
def Stays : List ℤ → ℤ → Prop
  | [],_ => True
  | product::products,sum => Fits product ∧ Fits (sum+product) ∧ Stays products (sum+product)

/-- A date of the years 1 to 9999. -/
structure Date where
  days : ℤ
  early : 0 ≤ days
  late : days<lastDay

/-- A datetime of the years 1 to 9999, naive or with a fixed offset; the constructor lets leap
seconds through. -/
structure DateTime where
  wall : ℤ
  tz : Option Int32
  leap : Bool
  early : 0 ≤ wall
  late : leap=false → wall<lastDay*micros

namespace DateTime

def offset (a : DateTime) : ℤ :=
  match a.tz with
  | some secs => secs.toInt*1000000
  | none => 0

/-- The instant in microseconds. -/
def instant (a : DateTime) : ℤ := a.wall-a.offset

def val (a : DateTime) : Val := if a.leap then .leap a.wall a.tz else .dateTime a.wall a.tz

theorem val_plain {a : DateTime} (h : a.leap=false) : a.val=.dateTime a.wall a.tz := by
  rw [val,h]
  rfl

end DateTime

/-- A timedelta of at most 999999999 days, or an overflow error. -/
def timeDeltaOf (us : ℤ) : Outcome :=
  if -999999999*micros ≤ us ∧ us<1000000000*micros then .ok (.timeDelta us) else .overflowError

def dateTimeOf (wall : ℤ) (tz : Option Int32) : Outcome :=
  if 0 ≤ wall ∧ wall<lastDay*micros then .ok (.dateTime wall tz) else .overflowError

def dateOf (days : ℤ) : Outcome :=
  if 0 ≤ days ∧ days<lastDay then .ok (.date days) else .overflowError

/-- An integer operand. -/
def intVal (n : ℤ) : Val := if Fits n then .int n else .bigInt n

def Outcome.bind (r : Outcome) (f : Val → Outcome) : Outcome :=
  match r with
  | .ok v => f v
  | r => r

/-- The laws of the arithmetic. -/
inductive Law where
  | difference (a b : DateTime) (alike : a.tz.isSome=b.tz.isSome)
  | addBack (a b : DateTime) (alike : a.tz.isSome=b.tz.isSome)
  | roundTrip (a : DateTime) (d : Int64)
  | moveBack (a : DateTime) (d : Int64)
  | days (a b : Date)
  | shiftDate (a : Date) (d : Int64)
  | shiftDateBack (a : Date) (d : Int64)
  | sum (d e : Int64)
  | minus (d e : Int64)
  | product (d : Int64) (n : ℤ)
  | floorInt (d : Int64) (n : ℤ) (hn : n≠0)
  | floorDelta (d e : Int64) (he : e.toInt≠0)
  | remainder (d e : Int64) (he : e.toInt≠0)
  | quotient (d : Int64) (n : ℤ) (hn : n≠0)
  | construct (parts : Parts)

/-- No operand is a leap second. -/
def Law.Plain : Law → Prop
  | .difference a b _ => a.leap=false ∧ b.leap=false
  | .addBack a b _ => a.leap=false ∧ b.leap=false
  | .roundTrip a _ => a.leap=false
  | .moveBack a _ => a.leap=false
  | _ => True

/-- The code obeys a law. -/
def Meets : Law → Prop
  | .difference a b _ => binop chrono .sub a.val b.val=timeDeltaOf (a.instant-b.instant)
  | .addBack a b _ => (binop chrono .sub a.val b.val).bind (binop chrono .add b.val)=
      dateTimeOf (a.instant+b.offset) b.tz
  | .roundTrip a d =>
    binop chrono .add a.val (.timeDelta d.toInt)=dateTimeOf (a.wall+d.toInt) a.tz ∧
      binop chrono .add (.timeDelta d.toInt) a.val=dateTimeOf (a.wall+d.toInt) a.tz ∧
      ∀ v,binop chrono .add a.val (.timeDelta d.toInt)=.ok v →
        binop chrono .sub v (.timeDelta d.toInt)=.ok a.val
  | .moveBack a d =>
    binop chrono .sub a.val (.timeDelta d.toInt)=dateTimeOf (a.wall-d.toInt) a.tz
  | .days a b =>
    binop chrono .sub (.date a.days) (.date b.days)=timeDeltaOf ((a.days-b.days)*micros)
  | .shiftDate a d =>
    binop chrono .add (.date a.days) (.timeDelta d.toInt)=dateOf (a.days+d.toInt.fdiv micros) ∧
      binop chrono .add (.timeDelta d.toInt) (.date a.days)=dateOf (a.days+d.toInt.fdiv micros)
  | .shiftDateBack a d =>
    binop chrono .sub (.date a.days) (.timeDelta d.toInt)=dateOf (a.days-d.toInt.fdiv micros)
  | .sum d e =>
    binop chrono .add (.timeDelta d.toInt) (.timeDelta e.toInt)=timeDeltaOf (d.toInt+e.toInt)
  | .minus d e =>
    binop chrono .sub (.timeDelta d.toInt) (.timeDelta e.toInt)=timeDeltaOf (d.toInt-e.toInt)
  | .product d n => binop chrono .mul (.timeDelta d.toInt) (intVal n)=timeDeltaOf (d.toInt*n) ∧
      binop chrono .mul (intVal n) (.timeDelta d.toInt)=timeDeltaOf (d.toInt*n)
  | .floorInt d n _ =>
    binop chrono .floorDiv (.timeDelta d.toInt) (intVal n)=timeDeltaOf (d.toInt.fdiv n)
  | .floorDelta d e _ =>
    binop chrono .floorDiv (.timeDelta d.toInt) (.timeDelta e.toInt)=
      .ok (.int (d.toInt.fdiv e.toInt))
  | .remainder d e _ =>
    binop chrono .mod (.timeDelta d.toInt) (.timeDelta e.toInt)=
      timeDeltaOf (d.toInt-d.toInt.fdiv e.toInt*e.toInt)
  | .quotient d n _ => ∃k : ℤ,HalfEven.Nearest ((d.toInt : ℚ)/n) 1 k ∧
      binop chrono .div (.timeDelta d.toInt) (intVal n)=timeDeltaOf k
  | .construct parts => timedelta parts=timeDeltaOf parts.total

/-- Where it does: equal offsets, years 1 to 9999, machine operands, and no step out of i64. -/
def Exact : Law → Prop
  | .difference a b _ => a.offset=b.offset
  | .addBack a b _ => a.offset=b.offset
  | .roundTrip a d => 0 ≤ a.wall+d.toInt ∧ a.wall+d.toInt<lastDay*micros
  | .moveBack a d => 0 ≤ a.wall-d.toInt ∧ a.wall-d.toInt<lastDay*micros
  | .days _ _ => True
  | .shiftDate a d => 0 ≤ a.days+d.toInt.fdiv micros ∧ a.days+d.toInt.fdiv micros<lastDay
  | .shiftDateBack a d => 0 ≤ a.days-d.toInt.fdiv micros ∧ a.days-d.toInt.fdiv micros<lastDay
  | .sum d e => Fits (d.toInt+e.toInt)
  | .minus d e => Fits (d.toInt-e.toInt)
  | .product d n => Fits n ∧ Fits (d.toInt*n)
  | .floorInt d n _ => Fits n ∧ ¬Wraps d.toInt n ∧ (n ∣ d.toInt ∨ (0 ≤ d.toInt ↔ 0<n))
  | .floorDelta d e _ => ¬Wraps d.toInt e.toInt
  | .remainder d e _ => ¬Wraps d.toInt e.toInt ∧ Fits (d.toInt-d.toInt.fmod e.toInt)
  | .quotient d n _ => Fits n ∧ ¬Wraps d.toInt n ∧ Fits (d.toInt-d.toInt.fmod n) ∧
      Fits (d.toInt.fmod n*2)
  | .construct parts => Stays parts.scaled 0

section Laws

variable {chrono} {d e : Int64} {a b : DateTime} {date : Date}

theorem lastDay_eq : lastDay=3652059 := by decide

theorem timeDeltaOf_small {z : ℤ} (h : -2^63 ≤ z ∧ z ≤ 2^63) : timeDeltaOf z=.ok (.timeDelta z) := by
  rw [timeDeltaOf,micros,if_pos (by omega)]

theorem fits_int64 (d : Int64) : Fits d.toInt := machine_bounds d

theorem offset_bounds (a : DateTime) :
    -2147483648*1000000 ≤ a.offset ∧ a.offset<2147483648*1000000 := by
  rw [DateTime.offset]
  split
  case h_1 secs _ =>
    have hlow := Int32.minValue_le_toInt secs
    have hhigh := Int32.toInt_le secs
    have hmin : Int32.minValue.toInt= -2147483648 := by decide
    have hmax : Int32.maxValue.toInt=2147483647 := by decide
    omega
  case h_2 => omega

/-- The code subtracts wall clocks. -/
theorem sub_datetimes (plain : a.leap=false ∧ b.leap=false) (h : a.tz.isSome=b.tz.isSome) :
    binop chrono .sub a.val b.val=.ok (.timeDelta (a.wall-b.wall)) := by
  have ha := a.late plain.1
  have hb := b.late plain.2
  have ha0 := a.early
  have hb0 := b.early
  rw [lastDay_eq,micros] at ha hb
  rw [binop,DateTime.val_plain plain.1,DateTime.val_plain plain.2,sub_dateTimes,
    if_neg (not_not.mpr h),checked_fits ⟨by omega,by omega⟩]
  rfl

variable (chrono) in
/-- A sum within the years is returned. -/
theorem addMicros_in {wall us : ℤ} (tz : Option Int32) (h : 0 ≤ wall+us ∧ wall+us<lastDay*micros) :
    addMicros chrono wall us tz=some (.ok (.dateTime (wall+us) tz)) := by
  have hlow := chrono.early
  have hhigh := chrono.late
  rw [micros] at h
  rw [addMicros,micros,if_pos (by omega)]

/-- A datetime beyond the years is returned, or refused as unsupported. -/
theorem shifted_iff {wall us : ℤ} {tz : Option Int32} {message : String} :
    (addMicros chrono wall us tz).getD (.typeError message)=dateTimeOf (wall+us) tz ↔
      0 ≤ wall+us ∧ wall+us<lastDay*micros := by
  constructor
  · intro h
    rw [dateTimeOf] at h
    split_ifs at h with hrange
    · exact hrange
    · rw [addMicros] at h
      split_ifs at h <;> cases h
  · intro h
    rw [addMicros_in chrono tz h,dateTimeOf,if_pos h]
    rfl

theorem shiftedDate_iff {days shift : ℤ} {message : String} :
    (addDays chrono days shift).getD (.typeError message)=dateOf (days+shift) ↔
      0 ≤ days+shift ∧ days+shift<lastDay := by
  have hlow := chrono.early
  have hhigh := chrono.late
  constructor
  · intro h
    rw [dateOf] at h
    split_ifs at h with hrange
    · exact hrange
    · rw [addDays] at h
      split_ifs at h <;> cases h
  · intro h
    rw [addDays,if_pos (by omega),dateOf,if_pos h]
    rfl

theorem meets_difference (plain : a.leap=false ∧ b.leap=false) (alike : a.tz.isSome=b.tz.isSome) :
    Meets chrono (.difference a b alike) ↔ Exact (.difference a b alike) := by
  have ha := a.late plain.1
  have hb := b.late plain.2
  have ha0 := a.early
  have hb0 := b.early
  have hoa := offset_bounds a
  have hob := offset_bounds b
  rw [lastDay_eq,micros] at ha hb
  rw [Meets,Exact,sub_datetimes plain alike,
    timeDeltaOf_small (by rw [DateTime.instant,DateTime.instant]; omega)]
  rw [Outcome.ok.injEq,Val.timeDelta.injEq,DateTime.instant,DateTime.instant]
  omega

theorem meets_addBack (plain : a.leap=false ∧ b.leap=false) (alike : a.tz.isSome=b.tz.isSome) :
    Meets chrono (.addBack a b alike) ↔ Exact (.addBack a b alike) := by
  have early := a.early
  have late := a.late plain.1
  have hback : b.wall+(a.wall-b.wall)=a.wall := by ring
  have hadd := addMicros_in chrono b.tz (by rw [hback]; exact ⟨early,late⟩)
  rw [hback] at hadd
  rw [Meets,Exact,sub_datetimes plain alike,Outcome.bind,DateTime.val_plain plain.2,binop,
    add_dateTimeDelta,hadd,Option.getD_some,dateTimeOf]
  constructor
  · intro h
    split_ifs at h
    rw [Outcome.ok.injEq,Val.dateTime.injEq,DateTime.instant] at h
    omega
  · intro h
    have hsame : a.instant+b.offset=a.wall := by rw [DateTime.instant]; omega
    rw [hsame,if_pos ⟨early,late⟩]

theorem meets_roundTrip (plain : a.leap=false) :
    Meets chrono (.roundTrip a d) ↔ Exact (.roundTrip a d) := by
  rw [Meets,Exact,DateTime.val_plain plain,binop,binop,add_dateTimeDelta,add_deltaDateTime,
    shifted_iff,shifted_iff]
  refine ⟨And.left,fun h => ⟨h,h,fun v hv => ?_⟩⟩
  rw [addMicros_in chrono a.tz h,Option.getD_some,Outcome.ok.injEq] at hv
  have back : a.wall+d.toInt+ -d.toInt=a.wall := add_neg_cancel_right ..
  rw [← hv,binop,sub_dateTimeDelta,
    addMicros_in chrono a.tz (by rw [back]; exact ⟨a.early,a.late plain⟩),back]
  rfl

theorem meets_moveBack (plain : a.leap=false) :
    Meets chrono (.moveBack a d) ↔ Exact (.moveBack a d) := by
  rw [Meets,Exact,DateTime.val_plain plain,binop,sub_dateTimeDelta,sub_eq_add_neg,shifted_iff]

theorem meets_days {day : Date} : Meets chrono (.days date day) ↔ Exact (.days date day) := by
  have ha := date.late
  have hb := day.late
  have ha0 := date.early
  have hb0 := day.early
  rw [lastDay_eq] at ha hb
  have fits : Fits ((date.days-day.days)*micros) := by rw [Fits,micros]; omega
  rw [Meets,binop,sub_dates,checked_fits fits,timeDeltaOf_small ⟨fits.1,fits.2.le⟩]
  exact iff_of_true rfl trivial

theorem days_fdiv (d : Int64) : d.toInt/micros=d.toInt.fdiv micros :=
  (Int.fdiv_eq_ediv_of_nonneg _ (by decide)).symm

theorem meets_shiftDate : Meets chrono (.shiftDate date d) ↔ Exact (.shiftDate date d) := by
  rw [Meets,Exact,binop,binop,add_dateDelta,add_deltaDate,days_fdiv,shiftedDate_iff,
    shiftedDate_iff,and_self]

theorem meets_shiftDateBack :
    Meets chrono (.shiftDateBack date d) ↔ Exact (.shiftDateBack date d) := by
  rw [Meets,Exact,binop,sub_dateDelta,days_fdiv,sub_eq_add_neg,shiftedDate_iff]

/-- A timedelta within i64 is returned, and one beyond is refused as unsupported. -/
theorem machine_iff {z : ℤ} {message : String} :
    ((checked z).map fun us => Outcome.ok (.timeDelta us)).getD (.typeError message)=timeDeltaOf z ↔
      Fits z := by
  by_cases h : Fits z
  · rw [checked_fits h,timeDeltaOf_small ⟨h.1,h.2.le⟩]
    exact iff_of_true rfl h
  · rw [checked_out h,timeDeltaOf]
    refine iff_of_false (fun heq => ?_) h
    split_ifs at heq <;> cases heq

theorem meets_product {n : ℤ} : Meets chrono (.product d n) ↔ Exact (.product d n) := by
  rw [Meets,Exact,intVal]
  by_cases hfits : Fits n
  · rw [if_pos hfits,binop,binop,mul_deltaInt,mul_intDelta,machine_iff,machine_iff,and_self,
      and_iff_right hfits]
  · rw [if_neg hfits]
    refine iff_of_false (fun h => ?_) fun h => hfits h.1
    have refused := h.1
    rw [timeDeltaOf] at refused
    split_ifs at refused <;> cases refused

theorem compose_stays {products : List ℤ} {sum : ℤ} (h : Stays products sum) :
    compose products sum=some (sum+products.sum) := by
  induction products generalizing sum with
  | nil => exact congrArg some (add_zero sum).symm
  | cons product products ih =>
    obtain ⟨hproduct,hsum,hrest⟩ := h
    rw [compose,checked_fits hproduct,Option.bind_eq_bind,Option.bind_some,checked_fits hsum,
      Option.bind_some,ih hrest,List.sum_cons,add_assoc]

theorem compose_leaves {products : List ℤ} {sum : ℤ} (h : ¬Stays products sum) :
    compose products sum=none := by
  induction products generalizing sum with
  | nil => exact absurd trivial h
  | cons product products ih =>
    rw [compose,Option.bind_eq_bind]
    by_cases hproduct : Fits product
    swap
    · rw [checked_out hproduct]
      rfl
    rw [checked_fits hproduct,Option.bind_some]
    by_cases hsum : Fits (sum+product)
    swap
    · rw [checked_out hsum]
      rfl
    rw [checked_fits hsum,Option.bind_some]
    exact ih fun hrest => h ⟨hproduct,hsum,hrest⟩

theorem stays_fits {products : List ℤ} {sum : ℤ} (hsum : Fits sum) (h : Stays products sum) :
    Fits (sum+products.sum) := by
  induction products generalizing sum with
  | nil => rwa [List.sum_nil,add_zero]
  | cons product products ih =>
    rw [List.sum_cons,← add_assoc]
    exact ih h.2.1 h.2.2

theorem meets_construct {parts : Parts} :
    Meets chrono (.construct parts) ↔ Exact (.construct parts) := by
  rw [Meets,Exact,timedelta]
  by_cases h : Stays parts.scaled 0
  · have fits := stays_fits (by decide) h
    rw [zero_add] at fits
    rw [compose_stays h,zero_add,Parts.total,timeDeltaOf_small ⟨fits.1,fits.2.le⟩]
    exact iff_of_true rfl h
  · rw [compose_leaves h]
    refine iff_of_false (fun heq => ?_) h
    rw [timeDeltaOf] at heq
    split_ifs at heq

theorem tdiv_eq_fdiv_iff (x : ℤ) {n : ℤ} (hn : n≠0) :
    x.tdiv n=x.fdiv n ↔ n ∣ x ∨ (0 ≤ x ↔ 0<n) := by
  obtain ⟨-,hpos,hneg⟩ := tmod_bounds x hn
  rw [fdiv_eq_moved x hn,Int.dvd_iff_tmod_eq_zero]
  split_ifs with hdown
  · refine iff_of_false (by omega) ?_
    rintro (h | h)
    · exact hdown.1 h
    · omega
  · refine iff_of_true rfl ?_
    by_cases hzero : x.tmod n=0
    · exact Or.inl hzero
    · right
      omega

theorem fdiv_range {x n : ℤ} (hx : Fits x) (hn : n≠0) :
    -2^63 ≤ x.fdiv n ∧ x.fdiv n ≤ 2^63 := by
  by_cases h : Wraps x n
  · rw [h.1,h.2]
    decide
  have fits := tdiv_fits hx hn h
  have hmoved := fdiv_eq_moved x hn
  obtain ⟨hlt,-,-⟩ := tmod_bounds x hn
  rw [Fits] at fits
  split_ifs at hmoved with hdown
  · have hsmall := tdiv_small hx (b := n) (by omega)
    omega
  · omega

theorem fmod_range (x : ℤ) {n : ℤ} (hn : n≠0) (fits : Fits n) :
    timeDeltaOf (x.fmod n)=.ok (.timeDelta (x.fmod n)) := by
  have hfits := fmod_fits x hn fits
  rw [Fits] at hfits
  exact timeDeltaOf_small ⟨hfits.1,hfits.2.le⟩

theorem meets_floorInt {n : ℤ} (hn : n≠0) :
    Meets chrono (.floorInt d n hn) ↔ Exact (.floorInt d n hn) := by
  have hd := fits_int64 d
  rw [Meets,Exact,timeDeltaOf_small (fdiv_range hd hn),intVal]
  by_cases hfits : Fits n
  swap
  · rw [if_neg hfits]
    exact iff_of_false (by intro h; cases h) fun h => hfits h.1
  rw [if_pos hfits,and_iff_right hfits,binop,floorDiv_deltaInt,if_pos hn]
  by_cases hwraps : Wraps d.toInt n
  · rw [tdiv_wraps hwraps]
    exact iff_of_false (by intro h; cases h) fun h => h.1 hwraps
  · rw [checked_fits (tdiv_fits hd hn hwraps),and_iff_right hwraps,← tdiv_eq_fdiv_iff _ hn,
      stepped,Option.getD_some,Outcome.ok.injEq,Val.timeDelta.injEq]

theorem meets_floorDelta (he : e.toInt≠0) :
    Meets chrono (.floorDelta d e he) ↔ Exact (.floorDelta d e he) := by
  have hd := fits_int64 d
  rw [Meets,Exact,binop,floorDiv_deltas,if_pos he]
  by_cases hwraps : Wraps d.toInt e.toInt
  · rw [tdFloordiv_wraps hwraps]
    exact iff_of_false (by intro h; cases h) fun h => h hwraps
  · rw [tdFloordiv_eq hd he hwraps]
    exact iff_of_true rfl hwraps

theorem meets_remainder (he : e.toInt≠0) :
    Meets chrono (.remainder d e he) ↔ Exact (.remainder d e he) := by
  have hd := fits_int64 d
  have hefits := fits_int64 e
  rw [Meets,Exact,fdiv_product,sub_sub_cancel,fmod_range _ he hefits,binop,mod_deltas,if_pos he]
  by_cases hwraps : Wraps d.toInt e.toInt
  · rw [tdMod_wraps hwraps]
    exact iff_of_false (by intro h; cases h) fun h => h.1 hwraps
  · rw [tdMod_eq hd he hefits hwraps,and_iff_right hwraps]
    split_ifs with hproduct
    · exact iff_of_true rfl hproduct
    · exact iff_of_false (by intro h; cases h) hproduct

theorem rounded_range {x n : ℤ} (hx : Fits x) (hn : n≠0) :
    -2^63 ≤ rounded x n ∧ rounded x n ≤ 2^63+1 := by
  have hrange := fdiv_range hx hn
  rw [rounded]
  split_ifs <;> omega

theorem meets_quotient {n : ℤ} (hn : n≠0) :
    Meets chrono (.quotient d n hn) ↔ Exact (.quotient d n hn) := by
  have hd := fits_int64 d
  have near := rounded_nearest d.toInt hn
  have hrange := rounded_range hd hn
  have hvalue : timeDeltaOf (rounded d.toInt n)=.ok (.timeDelta (rounded d.toInt n)) := by
    rw [timeDeltaOf,micros,if_pos (by omega)]
  have meets : Meets chrono (.quotient d n hn) ↔
      binop chrono .div (.timeDelta d.toInt) (intVal n)=.ok (.timeDelta (rounded d.toInt n)) := by
    rw [← hvalue]
    constructor
    · rintro ⟨k,hk,hrun⟩
      have hsame : (k : ℚ)=(rounded d.toInt n : ℤ) := hk.unique one_pos near
      rwa [Int.cast_injective hsame] at hrun
    · intro hrun
      exact ⟨rounded d.toInt n,near,hrun⟩
  rw [meets,Exact,intVal]
  by_cases hfits : Fits n
  swap
  · rw [if_neg hfits]
    exact iff_of_false (by intro h; cases h) fun h => hfits h.1
  rw [if_pos hfits,and_iff_right hfits,binop,div_deltaInt,if_pos hn]
  by_cases hwraps : Wraps d.toInt n
  · rw [tdDivideAndRound_wraps hwraps]
    exact iff_of_false (by intro h; cases h) fun h => h.1 hwraps
  · rw [tdDivideAndRound_eq hd hn hfits hwraps,and_iff_right hwraps]
    split_ifs with hsteps
    · exact iff_of_true rfl hsteps
    · exact iff_of_false (by intro h; cases h) hsteps

end Laws

/-- Each law holds of the code exactly where it is exact. -/
theorem arith_exact_iff (chrono : Chrono) (law : Law) (plain : law.Plain) :
    Meets chrono law ↔ Exact law := by
  cases law with
  | difference a b alike => exact meets_difference plain alike
  | addBack a b alike => exact meets_addBack plain alike
  | roundTrip a d => exact meets_roundTrip plain
  | moveBack a d => exact meets_moveBack plain
  | days a b => exact meets_days
  | shiftDate a d => exact meets_shiftDate
  | shiftDateBack a d => exact meets_shiftDateBack
  | sum d e => exact machine_iff
  | minus d e => exact machine_iff
  | product d n => exact meets_product
  | floorInt d n hn => exact meets_floorInt hn
  | floorDelta d e he => exact meets_floorDelta he
  | remainder d e he => exact meets_remainder he
  | quotient d n hn => exact meets_quotient hn
  | construct parts => exact meets_construct

theorem chrono_early : daysBeforeYear (-262143) ≤ 0 := by decide

theorem chrono_late : lastDay ≤ daysBeforeYear 262143 := by decide

def chronoYears : Chrono where
  low := daysBeforeYear (-262143)
  high := daysBeforeYear 262143
  early := chrono_early
  late := chrono_late
  leapArith _ _ _ := none

/-- Two aware datetimes an hour apart in offset, at the same time of day. -/
def aware (secs : Int32) : DateTime :=
  ⟨daysBeforeYear 2020*micros,some secs,false,by decide,fun _ => by decide⟩

theorem arith_exact_aware :
    Meets chronoYears (.difference (aware 3600) (aware 3600) rfl) ∧
      ¬Meets chronoYears (.difference (aware 3600) (aware 0) rfl) ∧
      ¬Meets chronoYears (.moveBack ⟨0,none,false,by decide,fun _ => by decide⟩ 1) :=
  ⟨(arith_exact_iff chronoYears (.difference (aware 3600) (aware 3600) rfl) ⟨rfl,rfl⟩).mpr rfl,
    fun h => absurd
      ((arith_exact_iff chronoYears (.difference (aware 3600) (aware 0) rfl) ⟨rfl,rfl⟩).mp h)
      (show ¬(aware 3600).offset=(aware 0).offset by decide),
    fun h => absurd ((arith_exact_iff chronoYears
      (.moveBack ⟨0,none,false,by decide,fun _ => by decide⟩ 1) rfl).mp h).1 (by decide)⟩

/-- `timedelta(microseconds=-1)//2` truncates to zero. -/
theorem arith_truncates : ¬ ∀ law : Law,Meets chronoYears law := by
  intro h
  have hfloor := h (.floorInt (-1) 2 two_ne_zero)
  rw [Meets,timeDeltaOf_small (by decide)] at hfloor
  injection hfloor with hval
  injection hval with hus
  exact absurd hus (by decide)

end InterpretThis.Datetime
