import InterpretThis.Math.Binary64

namespace InterpretThis

/-- An IEEE 754 binary32 value, as its bit pattern. -/
@[ext] structure F32 where
  bits : UInt32
  deriving DecidableEq

namespace F32

def mag (w : F32) : Nat := w.bits.toNat%2^31

def isNegative (w : F32) : Bool := decide (2^31≤w.bits.toNat)

def infMag : Nat := 255*2^23

def isNan (w : F32) : Bool := decide (infMag<w.mag)

def ofMag (negative : Bool) (m : Nat) : F32 := ⟨UInt32.ofNat (if negative then 2^31+m else m)⟩

def quiet (m bit : Nat) : Nat := if m/2^bit%2=0 then m+2^bit else m

/-- The magnitude of the binary64 value equal to a binary32 one. -/
def widenMag (m : Nat) : Nat :=
  if infMag < m then quiet ((m-infMag)*2^29+F64.infMag) 51
  else if m=infMag then F64.infMag
  else if 2^23 ≤ m then (m+896*2^23)*2^29
  else if m=0 then 0
  else (Nat.log 2 m+874)*2^52+(m*2^(52-Nat.log 2 m)-2^52)

/-- `f64::from(f32)`. -/
def widen (w : F32) : F64 := F64.ofMag w.isNegative (widenMag w.mag)

/-- The magnitude of the binary32 value nearest to a binary64 one. -/
def narrowMag (m : Nat) : Nat :=
  if F64.infMag < m then quiet ((m-F64.infMag)/2^29+infMag) 22
  else if 897*2^52 ≤ m then min (F64.shiftRound m 29-896*2^23) infMag
  else if 2^52 ≤ m then F64.shiftRound (2^52+m%2^52) (926-m/2^52)
  else 0

/-- `f64 as f32`: round to nearest, overflow to infinity. -/
def narrow (f : F64) : F32 := ofMag f.isNegative (narrowMag f.mag)

end F32
end InterpretThis
