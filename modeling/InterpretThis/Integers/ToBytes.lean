import InterpretThis.Framework.Bytes
import InterpretThis.Value.Arith
import InterpretThis.Value.ArithExact
import Mathlib.Tactic.Zify

namespace InterpretThis

namespace Value

/-- `is_truthy`. -/
def isTruthy : Value → Bool
  | none => false
  | notImplemented => false
  | bool b => b
  | int i => i≠0
  | bigInt i => i≠0
  | float f => f.mag≠0
  | complex re im => re.mag≠0||im.mag≠0
  | string s => !s.isEmpty
  | bytes b => !b.isEmpty
  | byteArray b => !b.isEmpty
  | memoryView inner => inner.isTruthy
  | list _ items => !items.isEmpty
  | tuple items => !items.isEmpty
  | dict _ entries => !entries.isEmpty
  | orderedDict _ entries => !entries.isEmpty
  | set items => !items.isEmpty
  | frozenset items => !items.isEmpty
  | timeDelta micros => micros≠0
  | enumMember _ _ value _ => value.isTruthy
  | decimal d => d.kind.isSpecial||d.digits.mantissa≠0
  | fraction q => q.num≠0
  | deque items _ => !items.isEmpty
  | _ => true

end Value

namespace ByteString

abbrev Kwargs := List (String×Value)

def typeError (message : String) : EvalError := .interpreter (.typeError message)

def valueError (message : String) : EvalError := .interpreter (.valueError message)

/-- `parse_byteorder`: whether the order is little-endian. -/
def parseByteorder (positional : Option Value) (kwargs : Kwargs) : Except EvalError Bool :=
  match positional.or (kwargs.lookup "byteorder") with
  | none => .ok false
  | some (.string s) =>
    if s="big" then .ok false
    else if s="little" then .ok true
    else .error (valueError "byteorder must be either 'little' or 'big'")
  | some other => .error (typeError ("byteorder must be str, not "++other.typeName))

def isSigned (kwargs : Kwargs) : Bool := (kwargs.lookup "signed").any Value.isTruthy

def notInteger (v : Value) : EvalError :=
  typeError ("'"++v.typeName++"' object cannot be interpreted as an integer")

def byteOf : Value → Except EvalError UInt8
  | .int n =>
    if 0≤n ∧ n≤255 then .ok (UInt8.ofNat n.toInt.toNat)
    else .error (valueError "bytes must be in range(0, 256)")
  | .bool b => .ok (if b then 1 else 0)
  | other => .error (notInteger other)

/-- The bytes that `from_bytes` reads. -/
def source : Option Value → Except EvalError (List UInt8)
  | none => .error (typeError "from_bytes() missing required argument 'bytes' (pos 1)")
  | some (.bytes b) => .ok b
  | some (.list _ items) => items.mapM byteOf
  | some (.tuple items) => items.mapM byteOf
  | some other => .error (typeError ("cannot convert '"++other.typeName++"' object to bytes"))

def ordered (little : Bool) (b : List UInt8) : List UInt8 := if little then b.reverse else b

/-- `8*length` on `usize`. -/
def bitCount (length : ℕ) : ℕ := 8*length%2^64

def decodeInt (signed : Bool) (be : List UInt8) : ℤ :=
  if signed && Bytes.highBit be then Bytes.number be-2^bitCount be.length else Bytes.number be

/-- `int_from_bytes`. -/
def intFromBytes (args : List Value) (kwargs : Kwargs) : Except EvalError Value := do
  let src ← source args[0]?
  let little ← parseByteorder args[1]? kwargs
  return intFromBigint (decodeInt (isSigned kwargs) (ordered little src))

/-- The `length` argument; an `i64` that is not negative fits `usize`. -/
def lengthArg (args : List Value) (kwargs : Kwargs) : Except EvalError ℕ :=
  match args[0]?.or (kwargs.lookup "length") with
  | none => .ok 1
  | some (.int n) =>
    if 0≤n then .ok n.toInt.toNat
    else .error (valueError "length argument must be non-negative")
  | some other => .error (notInteger other)

def tooBig : EvalError := overflowError "int too big to convert"

/-- The window of representable integers; `bits - 1` wraps on `usize`. -/
def window (signed : Bool) (length : ℕ) : ℤ×ℤ :=
  if signed then
    let half : ℤ := 2^((bitCount length+(2^64-1))%2^64)
    (-half,half)
  else (0,2^bitCount length)

/-- The magnitude of an integer, padded with zeros in front to `length` bytes. -/
def padded (length : ℕ) (image : ℤ) : List UInt8 :=
  let mag := Bytes.minimal image.natAbs
  List.replicate (length-mag.length) 0++mag

/-- `int_to_bytes` on parsed arguments. -/
def encodeInt (value : ℤ) (length : ℕ) (little signed : Bool) : Except EvalError (List UInt8) :=
  if value<0 ∧ signed=false then
    .error (overflowError "can't convert negative int to unsigned")
  else if length=0 then if value=0 then .ok [] else .error tooBig
  else
    let (lo,hi) := window signed length
    if value<lo ∨ hi≤ value then .error tooBig
    else
      let image := if value<0 then 2^bitCount length+value else value
      .ok (ordered little (padded length image))

/-- `int_to_bytes`. -/
def intToBytes (value : ℤ) (args : List Value) (kwargs : Kwargs) : Except EvalError Value := do
  let length ← lengthArg args kwargs
  let little ← parseByteorder args[1]? kwargs
  return .bytes (← encodeInt value length little (isSigned kwargs))

/-- `int_methods` at `to_bytes`. -/
def toBytesMethod (obj : Value) (args : List Value) (kwargs : Kwargs) : Except EvalError Value :=
  match obj with
  | .int i => intToBytes i.toInt args kwargs
  | .bigInt b => intToBytes b args kwargs
  | .bool b => intToBytes (if b then 1 else 0) args kwargs
  | _ => .error (typeError "internal: method table expected int")

section Arguments

variable {args : List Value} {kwargs : Kwargs} {length : ℕ}

theorem intToBytes_ok {little : Bool} (value : ℤ) (hl : lengthArg args kwargs=.ok length)
    (ho : parseByteorder args[1]? kwargs=.ok little) :
    intToBytes value args kwargs=
      (encodeInt value length little (isSigned kwargs)).map Value.bytes := by
  rw [intToBytes,hl,ho]
  change (do
    let b ← encodeInt value length little (isSigned kwargs)
    return Value.bytes b)=_
  cases encodeInt value length little (isSigned kwargs) with
  | error e => rfl
  | ok b => rfl

theorem intFromBytes_ok {little : Bool} {b : List UInt8} {rest : List Value}
    (ho : parseByteorder rest[0]? kwargs=.ok little) :
    intFromBytes (.bytes b::rest) kwargs=
      .ok (intFromBigint (decodeInt (isSigned kwargs) (ordered little b))) := by
  rw [intFromBytes]
  change (do
    let little ← parseByteorder rest[0]? kwargs
    return intFromBigint (decodeInt (isSigned kwargs) (ordered little b)))=_
  rw [ho]
  rfl

end Arguments

section Orders

@[simp] theorem ordered_ordered (little : Bool) (b : List UInt8) :
    ordered little (ordered little b)=b := by
  cases little <;> simp [ordered]

@[simp] theorem length_ordered (little : Bool) (b : List UInt8) :
    (ordered little b).length=b.length := by
  cases little <;> simp [ordered]

end Orders

open Bytes

/-- The integers that `length` bytes can hold. -/
def InWindow (signed : Bool) (length : ℕ) (n : ℤ) : Prop :=
  if signed then -256^length≤2*n ∧ 2*n<256^length else 0≤n ∧ n<256^length

/-- The exponent of the bounds that the source tests against. -/
def codeBits (signed : Bool) (length : ℕ) : ℕ :=
  if signed then (bitCount length+(2^64-1))%2^64 else bitCount length

/-- The range test of the source. -/
def CodeFits (signed : Bool) (length : ℕ) (n : ℤ) : Prop :=
  (if signed then -2^codeBits signed length else 0)≤n ∧ n<2^codeBits signed length

section Windows

variable {signed : Bool} {length : ℕ} {n : ℤ}

theorem bitCount_of_lt (h : 8*length<2^64) : bitCount length=8*length := Nat.mod_eq_of_lt h

theorem bitCount_le (length : ℕ) : bitCount length≤8*length := Nat.mod_le _ _

theorem codeBits_lt (h : 0<length) : codeBits true length<8*length := by
  rw [codeBits,if_pos rfl,bitCount]
  omega

theorem codeBits_of_lt (h : 8*length<2^64) (hl : 0<length) :
    codeBits true length=8*length-1 := by
  rw [codeBits,if_pos rfl,bitCount_of_lt h]
  omega

theorem pow_bytes (length : ℕ) : (256 : ℤ)^length=2^(8*length) := by
  rw [pow_mul]
  rfl

theorem pow_half (h : 0<length) : (256 : ℤ)^length=2*2^(8*length-1) := by
  rw [pow_bytes,← pow_succ',Nat.sub_add_cancel (by omega)]

theorem pow_codeBits_le (h : 0<length) : 2*(2 : ℤ)^codeBits true length≤256^length := by
  have hlt := codeBits_lt h
  have hpow : (2 : ℤ)^codeBits true length≤2^(8*length-1) :=
    pow_le_pow_right₀ (by decide) (by omega)
  rw [pow_half h]
  omega

theorem pow_bitCount_le (length : ℕ) : (2 : ℤ)^bitCount length≤256^length := by
  rw [pow_bytes]
  exact pow_le_pow_right₀ (by decide) (bitCount_le length)

theorem codeFits_inWindow (h : 0<length) (hfits : CodeFits signed length n) :
    InWindow signed length n := by
  obtain ⟨hlo,hhi⟩ := hfits
  cases signed with
  | true =>
    have hpow := pow_codeBits_le h
    simp only [if_true] at hlo
    simp only [InWindow,if_true]
    omega
  | false =>
    have hpow := pow_bitCount_le length
    have hcode : codeBits false length=bitCount length := rfl
    rw [hcode] at hhi
    simp only [Bool.false_eq_true,if_false] at hlo
    simp only [InWindow,Bool.false_eq_true,if_false]
    omega

theorem inWindow_codeFits (h8 : 8*length<2^64) (h : 0<length) (hw : InWindow signed length n) :
    CodeFits signed length n := by
  cases signed with
  | true =>
    simp only [InWindow,if_true,pow_half h] at hw
    simp only [CodeFits,if_true,codeBits_of_lt h8 h]
    omega
  | false =>
    have hcode : codeBits false length=8*length := bitCount_of_lt h8
    simp only [InWindow,Bool.false_eq_true,if_false,pow_bytes] at hw
    simp only [CodeFits,Bool.false_eq_true,if_false,hcode]
    exact hw

end Windows

section Encoding

variable {signed little : Bool} {length : ℕ} {n : ℤ} {b : List UInt8}

theorem padded_eq (h : 0<length) (hn : n.natAbs<256^length) :
    padded length n=bigEndian length n.natAbs := replicate_append_minimal h hn

theorem padded_natCast {m : ℕ} (h : 0<length) (hm : m<256^length) :
    padded length m=bigEndian length m := by
  rw [padded_eq h (by rwa [Int.natAbs_natCast]),Int.natAbs_natCast]

theorem window_eq (signed : Bool) (length : ℕ) :
    window signed length=
      (if signed then -2^codeBits signed length else 0,2^codeBits signed length) := by
  cases signed with
  | true => simp only [window,codeBits,if_true]
  | false => simp only [window,codeBits,Bool.false_eq_true,if_false]

theorem encodeInt_fits (h : 0<length) (hfits : CodeFits signed length n) :
    encodeInt n length little signed=
      .ok (ordered little (padded length (if n<0 then 2^bitCount length+n else n))) := by
  obtain ⟨hlo,hhi⟩ := hfits
  have hneg : ¬(n<0 ∧ signed=false) := by
    rintro ⟨hn,rfl⟩
    simp only [Bool.false_eq_true,if_false] at hlo
    omega
  have hrange : ¬(n<(if signed then -2^codeBits signed length else 0) ∨
      2^codeBits signed length≤ n) := by omega
  rw [encodeInt,if_neg hneg,if_neg (by omega),window_eq]
  exact if_neg hrange

theorem encodeInt_unfit (h : 0<length) (hfits : ¬CodeFits signed length n) :
    ¬encodeInt n length little signed=.ok b := by
  intro hb
  rw [encodeInt] at hb
  by_cases hneg : n<0 ∧ signed=false
  · rw [if_pos hneg] at hb
    cases hb
  · have hrange : n<(if signed then -2^codeBits signed length else 0) ∨
        2^codeBits signed length≤ n := by
      by_contra hin
      exact hfits ⟨by omega,by omega⟩
    rw [if_neg hneg,if_neg (by omega),window_eq] at hb
    change (if n<_ ∨ _≤ n then _ else _)=_ at hb
    rw [if_pos hrange] at hb
    cases hb

theorem encodeInt_ok_iff (h : 0<length) :
    (∃ b,encodeInt n length little signed=.ok b) ↔ CodeFits signed length n :=
  ⟨fun ⟨_,hb⟩ => not_not.mp fun hfits => encodeInt_unfit h hfits hb,
    fun hfits => ⟨_,encodeInt_fits h hfits⟩⟩

theorem encodeInt_nonneg (h : 0<length) (h0 : 0≤n) (hn : n<256^length)
    (hb : encodeInt n length little signed=.ok b) :
    ordered little b=bigEndian length n.natAbs := by
  have hfits := (encodeInt_ok_iff h).mp ⟨b,hb⟩
  rw [encodeInt_fits h hfits,if_neg (by omega)] at hb
  cases hb
  rw [ordered_ordered]
  exact padded_eq h (by zify; rw [abs_of_nonneg h0]; exact hn)

end Encoding

section Decoding

variable {signed little : Bool} {length : ℕ} {n : ℤ} {be : List UInt8}

theorem decodeInt_low (h : signed=true → 2*number be<256^be.length) :
    decodeInt signed be=number be := by
  have hlow : (signed && highBit be)=false := by
    cases signed with
    | false => rfl
    | true =>
      have hbit := h rfl
      rw [Bool.true_and,Bool.eq_false_iff]
      exact fun hhigh => absurd ((highBit_iff be).mp hhigh) (by omega)
  rw [decodeInt,hlow]
  rfl

theorem decodeInt_high (h : 256^be.length≤2*number be) :
    decodeInt true be=number be-2^bitCount be.length := by
  rw [decodeInt,(highBit_iff be).mpr h]
  rfl

theorem decodeInt_bigEndian {m : ℕ} (hm : m<256^length) (h : signed=true → 2*m<256^length) :
    decodeInt signed (bigEndian length m)=m := by
  have hnumber : number (bigEndian length m)=m := by
    rw [number_bigEndian,Nat.mod_eq_of_lt hm]
  rw [decodeInt_low,hnumber]
  rw [hnumber,length_bigEndian]
  exact h

theorem decodeInt_image (h8 : 8*length<2^64) (hn : n<0) (hw : -256^length≤2*n) :
    decodeInt true (bigEndian length (256^length+n).natAbs)=n := by
  have hbits : (2 : ℤ)^bitCount length=256^length := by
    rw [bitCount_of_lt h8,pow_bytes]
  have hpos : (0 : ℤ)<256^length := by positivity
  have habs : ((256^length+n).natAbs : ℤ)=256^length+n := by omega
  have hlt : (256^length+n).natAbs<256^length := by
    zify
    rw [abs_of_nonneg (by omega)]
    omega
  have hnumber : number (bigEndian length (256^length+n).natAbs)=(256^length+n).natAbs := by
    rw [number_bigEndian,Nat.mod_eq_of_lt hlt]
  rw [decodeInt_high,hnumber,length_bigEndian,habs,hbits]
  · omega
  · rw [hnumber,length_bigEndian]
    zify
    rw [abs_of_nonneg (by omega)]
    omega

theorem decodeInt_wrapped (h8 : 2^64≤8*be.length) :
    0≤decodeInt signed be ∧ decodeInt signed be≤number be := by
  by_cases hhigh : signed=true ∧ 256^be.length≤2*number be
  · obtain ⟨rfl,hhigh⟩ := hhigh
    have hcast : (256 : ℤ)^be.length≤2*number be := by exact_mod_cast hhigh
    have hpow : (2 : ℤ)^bitCount be.length≤2^(8*be.length-1) := by
      have hmod : bitCount be.length<2^64 := Nat.mod_lt _ (by decide)
      exact pow_le_pow_right₀ (by decide) (by omega)
    have hpos : (0 : ℤ)<2^bitCount be.length := by positivity
    have hhalf : (256 : ℤ)^be.length=2*2^(8*be.length-1) := pow_half (by omega)
    rw [decodeInt_high hhigh]
    omega
  · rw [decodeInt_low fun hs => not_le.mp fun hle => hhigh ⟨hs,hle⟩]
    exact ⟨Int.natCast_nonneg _,le_refl _⟩

end Decoding

section Inverse

variable (signed little : Bool) (length : ℕ)

/-- Writing `n` succeeds exactly within the window, has the length asked for, and reads back. -/
def Encodes (n : ℤ) : Prop :=
  ((∃ b,encodeInt n length little signed=.ok b) ↔ InWindow signed length n) ∧
  ∀ b,encodeInt n length little signed=.ok b →
    b.length=length ∧ decodeInt signed (ordered little b)=n

/-- The count of bits wraps on `usize`, and the integer is not one that the wrapped test keeps. -/
def Wraps (n : ℤ) : Prop :=
  2^64≤8*length ∧ InWindow signed length n ∧ ¬(0≤n ∧ n<2^codeBits signed length)

variable {signed little : Bool} {length : ℕ}

theorem inWindow_zero (signed : Bool) (n : ℤ) : InWindow signed 0 n ↔ n=0 := by
  cases signed <;> simp [InWindow] <;> omega

theorem encodes_zero (n : ℤ) : Encodes signed little 0 n := by
  have hok : ∀ b,encodeInt n 0 little signed=.ok b ↔ n=0 ∧ b=[] := by
    intro b
    rw [encodeInt]
    constructor
    · intro h
      by_cases hneg : n<0 ∧ signed=false
      · rw [if_pos hneg] at h
        cases h
      · rw [if_neg hneg,if_pos rfl] at h
        by_cases hzero : n=0
        · rw [if_pos hzero] at h
          cases h
          exact ⟨hzero,rfl⟩
        · rw [if_neg hzero] at h
          cases h
    · rintro ⟨rfl,rfl⟩
      rfl
  refine ⟨?_,?_⟩
  · rw [inWindow_zero]
    constructor
    · rintro ⟨b,hb⟩
      exact ((hok b).mp hb).1
    · rintro rfl
      exact ⟨[],(hok []).mpr ⟨rfl,rfl⟩⟩
  · intro b hb
    obtain ⟨rfl,rfl⟩ := (hok b).mp hb
    cases signed <;> cases little <;> exact ⟨rfl,rfl⟩

theorem encodes_nonneg {n : ℤ} {b : List UInt8} (h : 0<length) (h0 : 0≤n)
    (hw : InWindow signed length n) (hb : encodeInt n length little signed=.ok b) :
    b.length=length ∧ decodeInt signed (ordered little b)=n := by
  have hlt : n<256^length := by
    cases signed <;> simp only [InWindow,if_true,Bool.false_eq_true,if_false] at hw <;> omega
  have hbytes := encodeInt_nonneg h h0 hlt hb
  have hlen : b.length=length := by
    rw [← length_ordered little b,hbytes,length_bigEndian]
  refine ⟨hlen,?_⟩
  rw [hbytes,decodeInt_bigEndian,Int.natAbs_of_nonneg h0]
  · zify
    rwa [abs_of_nonneg h0]
  · rintro rfl
    simp only [InWindow,if_true] at hw
    zify
    rw [abs_of_nonneg h0]
    exact hw.2

/-- What it gives for a negative integer without wrapping. -/
theorem encodes_neg {n : ℤ} {b : List UInt8} (h8 : 8*length<2^64) (h : 0<length) (hn : n<0)
    (hb : encodeInt n length little signed=.ok b) :
    b.length=length ∧ decodeInt signed (ordered little b)=n := by
  have hfits := (encodeInt_ok_iff h).mp ⟨b,hb⟩
  have hw := codeFits_inWindow h hfits
  cases signed with
  | false =>
    simp only [InWindow,Bool.false_eq_true,if_false] at hw
    omega
  | true =>
    simp only [InWindow,if_true] at hw
    have hbits : (2 : ℤ)^bitCount length=256^length := by
      rw [bitCount_of_lt h8,pow_bytes]
    have hlt : (256^length+n).natAbs<256^length := by
      zify
      rw [abs_of_nonneg (by omega)]
      omega
    rw [encodeInt_fits h hfits,if_pos hn,hbits,padded_eq h hlt] at hb
    cases hb
    rw [ordered_ordered,length_ordered,length_bigEndian]
    exact ⟨rfl,decodeInt_image h8 hn hw.1⟩

/-- The wrapped image of a negative integer reads back as a natural number. -/
theorem wrapped_image {n : ℤ} (h8 : 2^64≤8*length) (hn : n<0)
    (hfits : CodeFits true length n) :
    0≤decodeInt true (padded length (2^bitCount length+n)) := by
  have h : 0<length := by omega
  obtain ⟨hlo,hhi⟩ := hfits
  rw [if_pos rfl] at hlo
  have hhalf := pow_codeBits_le h
  have hbits : 2*(2 : ℤ)^bitCount length≤256^length := by
    have hlt : bitCount length<2^64 := Nat.mod_lt _ (by decide)
    have hpow : (2 : ℤ)^bitCount length≤2^(8*length-1) :=
      pow_le_pow_right₀ (by decide) (by omega)
    rw [pow_half h]
    omega
  have hpos : (0 : ℤ)<2^bitCount length := by positivity
  have hsmall : 2*(2^bitCount length+n).natAbs<256^length := by
    zify
    obtain ⟨he,-⟩|⟨he,-⟩ := abs_cases (2^bitCount length+n)
    · rw [he]
      omega
    · rw [he]
      omega
  rw [padded_eq h (by omega),decodeInt_bigEndian (by omega) fun _ => hsmall]
  exact Int.natCast_nonneg _

theorem encodes_iff (n : ℤ) : Encodes signed little length n ↔ ¬Wraps signed length n := by
  rcases Nat.eq_zero_or_pos length with rfl|h
  · exact iff_of_true (encodes_zero n) fun hw => absurd hw.1 (by decide)
  constructor
  · rintro ⟨hiff,hback⟩ ⟨h8,hw,hout⟩
    obtain ⟨b,hb⟩ := hiff.mpr hw
    have hfits := (encodeInt_ok_iff h).mp ⟨b,hb⟩
    have hn : n<0 := not_le.mp fun h0 => hout ⟨h0,hfits.2⟩
    cases signed with
    | false =>
      have hlo := hfits.1
      rw [if_neg (by decide)] at hlo
      omega
    | true =>
      have hread := (hback b hb).2
      rw [encodeInt_fits h hfits,if_pos hn] at hb
      cases hb
      rw [ordered_ordered] at hread
      have hpos := wrapped_image h8 hn hfits
      omega
  · intro hnot
    refine ⟨?_,?_⟩
    · rw [encodeInt_ok_iff h]
      refine ⟨codeFits_inWindow h,fun hw => ?_⟩
      by_cases h8 : 8*length<2^64
      · exact inWindow_codeFits h8 h hw
      · obtain ⟨h0,hhi⟩ := not_not.mp fun hout => hnot ⟨by omega,hw,hout⟩
        have hpos : (0 : ℤ)<2^codeBits signed length := by positivity
        refine ⟨?_,hhi⟩
        cases signed <;> simp only [if_true,Bool.false_eq_true,if_false] <;> omega
    · intro b hb
      have hw := codeFits_inWindow h ((encodeInt_ok_iff h).mp ⟨b,hb⟩)
      by_cases h0 : 0≤n
      · exact encodes_nonneg h h0 hw hb
      · refine encodes_neg (not_le.mp fun h8 => ?_) h (by omega) hb
        exact hnot ⟨h8,hw,fun hin => h0 hin.1⟩

variable (signed little)

/-- What is read from `d` is written as `d`. -/
def Restores (d : List UInt8) : Prop :=
  encodeInt (decodeInt signed (ordered little d)) d.length little signed=.ok d

/-- The count of bits does not wrap, or the number is one that the wrapped test keeps. -/
def Kept (d : List UInt8) : Prop :=
  8*d.length<2^64 ∨ number (ordered little d)<2^codeBits signed d.length

variable {signed little}

theorem restores_of_number {d : List UInt8} (h : 0<d.length)
    (hdec : decodeInt signed (ordered little d)=number (ordered little d))
    (hfits : CodeFits signed d.length (number (ordered little d))) : Restores signed little d := by
  have hlt := number_lt (ordered little d)
  have hbytes := bigEndian_number (ordered little d)
  rw [length_ordered] at hlt hbytes
  rw [Restores,hdec,encodeInt_fits h hfits,if_neg (by omega),padded_natCast h hlt,
    hbytes,ordered_ordered]

/-- Without wrapping the image of what was read is what was read. -/
theorem restores_of_lt {d : List UInt8} (h8 : 8*d.length<2^64) : Restores signed little d := by
  have hlt := number_lt (ordered little d)
  rw [length_ordered] at hlt
  have hlt' : (number (ordered little d) : ℤ)<256^d.length := by exact_mod_cast hlt
  rcases Nat.eq_zero_or_pos d.length with h|h
  · rw [List.length_eq_zero_iff] at h
    subst h
    cases signed <;> cases little <;> rfl
  cases signed with
  | false =>
    refine restores_of_number h (decodeInt_low fun h => Bool.noConfusion h) ?_
    refine inWindow_codeFits h8 h ?_
    simp only [InWindow,Bool.false_eq_true,if_false]
    exact ⟨Int.natCast_nonneg _,hlt'⟩
  | true =>
    by_cases hlow : 2*number (ordered little d)<256^d.length
    · refine restores_of_number h (decodeInt_low fun _ => by rwa [length_ordered]) ?_
      refine inWindow_codeFits h8 h ?_
      simp only [InWindow,if_true]
      exact ⟨by have hpos : (0 : ℤ)<256^d.length := by positivity
                omega,by exact_mod_cast hlow⟩
    · have hhigh : (256 : ℤ)^d.length≤2*number (ordered little d) := by
        exact_mod_cast not_lt.mp hlow
      have hbits : (2 : ℤ)^bitCount d.length=256^d.length := by rw [bitCount_of_lt h8,pow_bytes]
      have hdec : decodeInt true (ordered little d)=number (ordered little d)-256^d.length := by
        rw [decodeInt_high (by rw [length_ordered]; omega),length_ordered,hbits]
      have hw : InWindow true d.length (number (ordered little d)-256^d.length) := by
        simp only [InWindow,if_true]
        omega
      have himage : (256 : ℤ)^d.length+(number (ordered little d)-256^d.length)=
          number (ordered little d) := by omega
      have hbytes := bigEndian_number (ordered little d)
      rw [length_ordered] at hbytes
      rw [Restores,hdec,encodeInt_fits h (inWindow_codeFits h8 h hw),if_pos (by omega),hbits,
        himage,padded_natCast h hlt,hbytes,ordered_ordered]

theorem restores_iff (d : List UInt8) : Restores signed little d ↔ Kept signed little d := by
  have hlt := number_lt (ordered little d)
  rw [length_ordered] at hlt
  have hlt' : (number (ordered little d) : ℤ)<256^d.length := by exact_mod_cast hlt
  constructor
  · intro hres
    rw [Kept,or_iff_not_imp_left]
    intro h8
    have h : 0<d.length := by omega
    have hfits := (encodeInt_ok_iff h).mp ⟨d,hres⟩
    have hread : 0≤decodeInt signed (ordered little d) ∧
        decodeInt signed (ordered little d)≤number (ordered little d) :=
      decodeInt_wrapped (by rw [length_ordered]; omega)
    have hbytes := encodeInt_nonneg h hread.1 (by omega) hres
    have hnumber : number (ordered little d)=(decodeInt signed (ordered little d)).natAbs := by
      conv_lhs => rw [hbytes]
      rw [number_bigEndian,Nat.mod_eq_of_lt]
      omega
    have hhi := hfits.2
    have hcast : (number (ordered little d) : ℤ)<2^codeBits signed d.length := by omega
    exact_mod_cast hcast
  · rintro (h8|hkept)
    · exact restores_of_lt h8
    · by_cases h8 : 8*d.length<2^64
      · exact restores_of_lt h8
      have h : 0<d.length := by omega
      have hcast : (number (ordered little d) : ℤ)<2^codeBits signed d.length := by
        exact_mod_cast hkept
      have hpos : (0 : ℤ)<2^codeBits signed d.length := by positivity
      refine restores_of_number h (decodeInt_low ?_) ⟨?_,hcast⟩
      · rintro rfl
        have hhalf := pow_codeBits_le h
        rw [length_ordered]
        zify
        omega
      · cases signed <;> simp only [if_true,Bool.false_eq_true,if_false] <;> omega

end Inverse

section Methods

/-- The receivers that `to_bytes` takes, with their integer. -/
def receiver : Value → Option ℤ
  | .int i => some i.toInt
  | .bigInt b => some b
  | .bool b => some (if b then 1 else 0)
  | _ => none

theorem toBytesMethod_receiver {obj : Value} {n : ℤ} (h : receiver obj=some n)
    (args : List Value) (kwargs : Kwargs) :
    toBytesMethod obj args kwargs=intToBytes n args kwargs := by
  cases obj <;> cases h <;> rfl

theorem receiver_intFromBigint (n : ℤ) : receiver (intFromBigint n)=some n := by
  rw [intFromBigint]
  cases h : fitsI64 n with
  | none => rfl
  | some i => exact congrArg some (PyInt.fitsI64_value n i h)

variable (args rest : List Value) (kwargs kwargs' : Kwargs) (length : ℕ)

/-- `to_bytes` of an integer object succeeds exactly within the window, the bytes are as many
as asked for, and `from_bytes` with the same order and signedness gives the integer back. -/
def ToFrom (obj : Value) (n : ℤ) : Prop :=
  ((∃ v,toBytesMethod obj args kwargs=.ok v) ↔ InWindow (isSigned kwargs) length n) ∧
  ∀ v,toBytesMethod obj args kwargs=.ok v → ∃ b,v=.bytes b ∧ b.length=length ∧
    intFromBytes (.bytes b::rest) kwargs'=.ok (intFromBigint n)

/-- `from_bytes` of a byte string gives an integer that `to_bytes` makes into that byte string. -/
def FromTo (d : List UInt8) : Prop :=
  ∃ v,intFromBytes (.bytes d::rest) kwargs'=.ok v ∧ toBytesMethod v args kwargs=.ok (.bytes d)

variable {args rest kwargs kwargs' length} {little : Bool}

theorem intFromBigint_inj {n m : ℤ} (h : intFromBigint n=intFromBigint m) : n=m := by
  have hn := receiver_intFromBigint n
  rw [h,receiver_intFromBigint] at hn
  exact (Option.some.inj hn).symm

theorem toFrom_iff {obj : Value} {n : ℤ} (hobj : receiver obj=some n)
    (hl : lengthArg args kwargs=.ok length) (ho : parseByteorder args[1]? kwargs=.ok little)
    (ho' : parseByteorder rest[0]? kwargs'=.ok little) (hs : isSigned kwargs'=isSigned kwargs) :
    ToFrom args rest kwargs kwargs' length obj n ↔ Encodes (isSigned kwargs) little length n := by
  have hto : ∀ v,toBytesMethod obj args kwargs=.ok v ↔
      ∃ b,encodeInt n length little (isSigned kwargs)=.ok b ∧ v=.bytes b := by
    intro v
    rw [toBytesMethod_receiver hobj,intToBytes_ok n hl ho]
    cases encodeInt n length little (isSigned kwargs) with
    | error e => exact ⟨fun h => (nomatch h),fun ⟨_,h,_⟩ => (nomatch h)⟩
    | ok b =>
      constructor
      · intro h
        exact ⟨b,rfl,(Except.ok.inj h).symm⟩
      · rintro ⟨_,h,rfl⟩
        rw [Except.ok.inj h]
        rfl
  have hfrom : ∀ b,intFromBytes (.bytes b::rest) kwargs'=.ok (intFromBigint n) ↔
      decodeInt (isSigned kwargs) (ordered little b)=n := by
    intro b
    rw [intFromBytes_ok ho',hs]
    exact ⟨fun h => intFromBigint_inj (Except.ok.inj h),fun h => by rw [h]⟩
  have hex : (∃ v,toBytesMethod obj args kwargs=.ok v) ↔
      ∃ b,encodeInt n length little (isSigned kwargs)=.ok b :=
    ⟨fun ⟨v,hv⟩ => ((hto v).mp hv).imp fun _ h => h.1,
      fun ⟨b,hb⟩ => ⟨.bytes b,(hto _).mpr ⟨b,hb,rfl⟩⟩⟩
  rw [ToFrom,Encodes,hex]
  refine and_congr_right fun _ => ⟨?_,?_⟩
  · intro h b hb
    obtain ⟨_,hv,hlen,hback⟩ := h (.bytes b) ((hto _).mpr ⟨b,hb,rfl⟩)
    cases hv
    exact ⟨hlen,(hfrom b).mp hback⟩
  · intro h v hv
    obtain ⟨b,hb,rfl⟩ := (hto v).mp hv
    exact ⟨b,rfl,(h b hb).1,(hfrom b).mpr (h b hb).2⟩

theorem fromTo_iff {d : List UInt8} (hd : d.length=length)
    (hl : lengthArg args kwargs=.ok length) (ho : parseByteorder args[1]? kwargs=.ok little)
    (ho' : parseByteorder rest[0]? kwargs'=.ok little) (hs : isSigned kwargs'=isSigned kwargs) :
    FromTo args rest kwargs kwargs' d ↔ Restores (isSigned kwargs) little d := by
  subst hd
  have hto : toBytesMethod (intFromBigint (decodeInt (isSigned kwargs) (ordered little d)))
      args kwargs=(encodeInt (decodeInt (isSigned kwargs) (ordered little d)) d.length little
        (isSigned kwargs)).map Value.bytes := by
    rw [toBytesMethod_receiver (receiver_intFromBigint _),intToBytes_ok _ hl ho]
  rw [FromTo,intFromBytes_ok ho',hs]
  constructor
  · rintro ⟨v,hv,hback⟩
    cases hv
    rw [hto] at hback
    rw [Restores]
    cases henc : encodeInt (decodeInt (isSigned kwargs) (ordered little d)) d.length little
        (isSigned kwargs) with
    | error e =>
      rw [henc] at hback
      cases hback
    | ok b =>
      rw [henc] at hback
      cases hback
      rfl
  · intro h
    refine ⟨_,rfl,?_⟩
    rw [hto,show encodeInt _ _ _ _=_ from h]
    rfl

/-- `to_bytes` and `from_bytes` undo each other exactly where the count of bits does not wrap or
the wrapped range test still holds. -/
theorem bytes_inverse (hl : lengthArg args kwargs=.ok length)
    (ho : parseByteorder args[1]? kwargs=.ok little)
    (ho' : parseByteorder rest[0]? kwargs'=.ok little) (hs : isSigned kwargs'=isSigned kwargs) :
    (∀ obj n,receiver obj=some n → (ToFrom args rest kwargs kwargs' length obj n ↔
      ¬Wraps (isSigned kwargs) length n)) ∧
    ∀ d,d.length=length →
      (FromTo args rest kwargs kwargs' d ↔ Kept (isSigned kwargs) little d) :=
  ⟨fun _ n hobj => (toFrom_iff hobj hl ho ho' hs).trans (encodes_iff n),
    fun d hd => (fromTo_iff hd hl ho ho' hs).trans (restores_iff d)⟩

/-- -2 in three little-endian bytes. -/
theorem bytes_inverse_three :
    toBytesMethod (.int (-2)) [.int 3,.string "little"] [("signed",.bool true)]=
      .ok (.bytes [0xFE,0xFF,0xFF]) ∧
    ToFrom [.int 3,.string "little"] [.string "little"] [("signed",.bool true)]
      [("signed",.bool true)] 3 (.int (-2)) (-2) :=
  ⟨rfl,((bytes_inverse rfl rfl rfl rfl).1 (.int (-2)) (-2) rfl).mpr
    fun h => absurd h.1 (by decide)⟩

/-- With 2^61 bytes the count of bits is 0, and not even 1 fits. -/
theorem one_too_big : ¬ToFrom [.int (2^61)] [] [] [] (2^61) (.int 1) 1 := by
  intro h
  have hl : lengthArg [.int (2^61)] []=.ok (2^61) := by set_option maxRecDepth 20000 in decide
  have hw : InWindow false (2^61) 1 := by
    simp only [InWindow,Bool.false_eq_true,if_false]
    exact ⟨by decide,one_lt_pow₀ (by decide) (by decide)⟩
  have hbits : codeBits false (2^61)=0 := by decide
  refine (encodes_iff 1).mp ((toFrom_iff rfl hl rfl rfl rfl).mp h) ⟨by decide,hw,fun hin => ?_⟩
  have hlt := hin.2
  change (1 : ℤ)<2^codeBits false (2^61) at hlt
  rw [hbits] at hlt
  exact absurd hlt (by decide)

end Methods

end ByteString
end InterpretThis
