import InterpretThis.Value.Tower

namespace InterpretThis

open Pyhash

namespace Pyhash

def noneHash : Int64 := 0xFCA86420

def xxprime1 : UInt64 := 11400714785074694791

def xxprime2 : UInt64 := 14029467366897019727

def xxprime5 : UInt64 := 2870177450012600261

def xxrotate (x : UInt64) : UInt64 := (x<<<(31 : UInt64))|||(x>>>(33 : UInt64))

/-- One lane of `hash_tuple`. -/
def tupleLane (acc : UInt64) (lane : Int64) : UInt64 :=
  xxrotate (acc+lane.toUInt64*xxprime2)*xxprime1

def hashTuple (elementHashes : List Int64) : Int64 :=
  let acc := elementHashes.foldl tupleLane xxprime5+
    (UInt64.ofNat elementHashes.length^^^(xxprime5^^^(3527539 : UInt64)))
  if acc.toInt64=-1 then 1546275796 else acc.toInt64

def hashComplex (re im : F64) : Int64 :=
  let combined := (hashDouble re).toUInt64+1000003*(hashDouble im).toUInt64
  if combined=18446744073709551615 then (combined-1).toInt64 else combined.toInt64

def shuffleBits (h : UInt64) : UInt64 := ((h^^^(89869747 : UInt64))^^^(h<<<(16 : UInt64)))*3644798167

def frozensetFold (elementHashes : List Int64) : UInt64 :=
  elementHashes.foldl (fun acc h => acc^^^shuffleBits h.toUInt64) 0

def hashFrozenset (elementHashes : List Int64) : Int64 :=
  let h := frozensetFold elementHashes^^^((UInt64.ofNat elementHashes.length+1)*1927868237)
  let h := h^^^((h>>>(11 : UInt64))^^^(h>>>(25 : UInt64)))
  let h := h*69069+907133923
  if h=18446744073709551615 then 590923713 else h.toInt64

def dateState (d : NaiveDate) : List UInt8 :=
  let year := (d.year%65536).toNat
  [UInt8.ofNat (year/256),UInt8.ofNat year,UInt8.ofNat d.month,UInt8.ofNat d.day]

def timeState (t : NaiveTime) : List UInt8 :=
  let us := t.nanos/1000
  [UInt8.ofNat (t.secs/3600),UInt8.ofNat (t.secs/60%60),UInt8.ofNat (t.secs%60),
    UInt8.ofNat (us>>>16),UInt8.ofNat (us>>>8),UInt8.ofNat us]

def datetimeState (dt : NaiveDateTime) : List UInt8 := dateState dt.date++timeState dt.time

def timedeltaHash (micros : Int64) : Int64 :=
  let secsTotal := micros.toInt/1000000
  hashTuple [hashInteger (secsTotal/86400),hashInteger (secsTotal%86400),
    hashInteger (micros.toInt%1000000)]

/-- The narrowest of Latin-1, UCS-2 and UCS-4, little-endian, that holds every character. -/
def strHashBuffer (s : String) : List UInt8 :=
  let codes := s.toList.map Char.toNat
  let top := codes.foldl max 0
  if top<0x100 then codes.map UInt8.ofNat
  else if top<0x10000 then codes.flatMap fun c => [UInt8.ofNat c,UInt8.ofNat (c>>>8)]
  else codes.flatMap fun c =>
    [UInt8.ofNat c,UInt8.ofNat (c>>>8),UInt8.ofNat (c>>>16),UInt8.ofNat (c>>>24)]

variable (sip : List UInt8 → UInt64)

/-- `sip` is SipHash-1-3 with a zero key. -/
def hashBytes (buf : List UInt8) : Int64 :=
  if buf=[] then 0
  else if (sip buf).toInt64=-1 then -2 else (sip buf).toInt64

mutual

/-- `python_hash`; `none` for a value whose hash is not reproduced. -/
def pythonHash : Value → Option Int64
  | .none => some noneHash
  | .bool b => some (boolI64 b)
  | .int n => some (hashI64 n)
  | .bigInt n => some (hashBigint n)
  | .float f => some (hashDouble f)
  | .complex re im => some (hashComplex re im)
  | .decimal d => some (decimalHash d.digits)
  | .fraction q => some (fractionHash q)
  | .date d => some (hashBytes sip (dateState d))
  | .time t => some (hashBytes sip (timeState t))
  | .dateTime dt Option.none => some (hashBytes sip (datetimeState dt))
  | .timeDelta micros => some (timedeltaHash micros)
  | .string s => some (hashBytes sip (strHashBuffer s))
  | .bytes b => some (hashBytes sip b)
  | .tuple items => (pythonHashAll items).map hashTuple
  | .frozenset items => (pythonHashAll items).map hashFrozenset
  | _ => none

def pythonHashAll : List Value → Option (List Int64)
  | [] => some []
  | x::xs => do
    let h ← pythonHash x
    return h::(← pythonHashAll xs)

end

theorem pythonHash_tuple (items : List Value) :
    pythonHash sip (.tuple items)=(pythonHashAll sip items).map hashTuple := by
  rw [pythonHash]

theorem pythonHash_frozenset (items : List Value) :
    pythonHash sip (.frozenset items)=(pythonHashAll sip items).map hashFrozenset := by
  rw [pythonHash]

end Pyhash

end InterpretThis
