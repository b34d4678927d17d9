import InterpretThis.Value.Data

namespace InterpretThis

open Pyhash

section Names

/-- `char::is_whitespace`. -/
def isWhitespace (c : Char) : Bool :=
  let n := c.toNat
  (decide (9≤ n ∧ n≤13))||n==32||n==0x85||n==0xA0||n==0x1680||
    (decide (0x2000≤ n ∧ n≤0x200A))||n==0x2028||n==0x2029||n==0x202F||n==0x205F||n==0x3000

def trim (s : List Char) : List Char :=
  ((s.dropWhile isWhitespace).reverse.dropWhile isWhitespace).reverse

/-- Split at the commas outside any bracket; `cur` is the current piece, reversed. -/
def splitTop : List Char → Nat → List Char → List (List Char)
  | [],_,cur => [trim cur.reverse]
  | c::s,depth,cur =>
    if c = '[' then splitTop s (depth+1) (c::cur)
    else if c = ']' then splitTop s (depth-1) (c::cur)
    else if c = ',' ∧ depth=0 then trim cur.reverse::splitTop s depth []
    else splitTop s depth (c::cur)

def unionPrefix : List Char := "typing.Union[".toList

def unionMembers (s : String) : Option (List (List Char)) :=
  if unionPrefix.isPrefixOf s.toList then
    let rest := s.toList.drop unionPrefix.length
    if rest.getLast?=some ']' then some (splitTop rest.dropLast 0 []) else none
  else none

def unionTypeEq (a b : String) : Bool :=
  match unionMembers a,unionMembers b with
  | some x,some y => x.length==y.length&&x.all (fun m => y.contains m)&&y.all (fun m => x.contains m)
  | _,_ => false

def nameEq (a b : String) : Bool := a==b||unionTypeEq a b

end Names

section Keys

/-- `f as i64`, which saturates. -/
def saturateI64 (n : Int) : Int64 :=
  if n<Int64.minValue.toInt then Int64.minValue
  else if Int64.maxValue.toInt < n then Int64.maxValue
  else Int64.ofInt n

def floatKeyI64 (bits : UInt64) : Option Int64 :=
  let f : F64 := ⟨bits⟩
  if f.isFinite ∧ f.toRat.den=1 then
    let i := saturateI64 f.toRat.num
    if (F64.ofInt i.toInt).eq f then some i else none
  else none

def boolI64 (b : Bool) : Int64 := if b then 1 else 0

def boolInt (b : Bool) : Int := if b then 1 else 0

/-- Aware datetimes are compared by instant, naive ones by the clock. -/
def dateTimeEq (a : NaiveDateTime) (ta : Option Int32) (b : NaiveDateTime) (tb : Option Int32) :
    Bool :=
  match ta,tb with
  | none,none => a==b
  | some oa,some ob => a.minusSeconds oa.toInt==b.minusSeconds ob.toInt
  | _,_ => false

/-- Instance keys compare by identity; the other boxed values by the shared comparator. -/
def boxedEq (veq : Value → Value → Bool) (a b : Value) : Bool :=
  match a,b with
  | .instanceValue _ i _,.instanceValue _ j _ => i==j
  | .function i _,.function j _ => i==j
  | .lambda i _,.lambda j _ => i==j
  | _,_ => veq a b

variable (veq : Value → Value → Bool)

-- `slice::contains` compares with the element of the slice on the left, so the search of
-- the frozenset arm turns the operands round. `flip` says that `b` is the left operand.
mutual

def keyEqDir (flip : Bool) : ValueKey → ValueKey → Bool
  | .none,b => match b with
    | .none => true
    | _ => false
  | .ellipsis,b => match b with
    | .ellipsis => true
    | _ => false
  | .bool x,b => match b with
    | .bool y => x==y
    | .int i => i==boolI64 x
    | .bigInt i => i==boolInt x
    | .float bits => floatKeyI64 bits==some (boolI64 x)
    | _ => false
  | .int x,b => match b with
    | .bool y => x==boolI64 y
    | .int y => x==y
    | .bigInt y => y==x.toInt
    | .float bits => floatKeyI64 bits==some x
    | _ => false
  | .bigInt x,b => match b with
    | .bool y => x==boolInt y
    | .int y => x==y.toInt
    | .bigInt y => x==y
    | .float bits => match floatKeyI64 bits with
      | some i => x==i.toInt
      | none => false
    | _ => false
  | .float bits,b => match b with
    | .bool y => floatKeyI64 bits==some (boolI64 y)
    | .int y => floatKeyI64 bits==some y
    | .bigInt y => match floatKeyI64 bits with
      | some i => y==i.toInt
      | none => false
    | .float bits' => bits==bits'
    | _ => false
  | .complex re im,b => match b with
    | .complex re' im' => re==re'&&im==im'
    | _ => false
  | .string s,b => match b with
    | .string s' => s==s'
    | _ => false
  | .tuple xs,b => match b with
    | .tuple ys => keyZip flip xs ys
    | _ => false
  | .frozenset xs,b => match b with
    | .frozenset ys => xs.length==ys.length&&
        (if flip then ys.all (fun y => keySome xs y) else keyAll xs ys)
    | _ => false
  | .instanceKey _ x,b => match b with
    | .instanceKey _ y => if flip then boxedEq veq y x else boxedEq veq x y
    | _ => false
  | .date d,b => match b with
    | .date d' => d==d'
    | _ => false
  | .time t,b => match b with
    | .time t' => t==t'
    | _ => false
  | .dateTime dt tz,b => match b with
    | .dateTime dt' tz' => dateTimeEq dt tz dt' tz'
    | _ => false
  | .timeDelta m,b => match b with
    | .timeDelta m' => m==m'
    | _ => false
  | .decimal d,b => match b with
    | .decimal d' => decide (d.toRat=d'.toRat)
    | _ => false
  | .fraction q,b => match b with
    | .fraction q' => decide (q=q')
    | _ => false
termination_by structural x => x

/-- `Vec == Vec`. -/
def keyZip (flip : Bool) : List ValueKey → List ValueKey → Bool
  | [],[] => true
  | x::xs,y::ys => keyEqDir flip x y&&keyZip flip xs ys
  | _,_ => false

/-- Every key of the first list is found in the second. -/
def keyAll : List ValueKey → List ValueKey → Bool
  | [],_ => true
  | x::xs,ys => ys.any (fun y => keyEqDir true x y)&&keyAll xs ys

/-- The key is found in the list, which is on the left of each comparison. -/
def keySome : List ValueKey → ValueKey → Bool
  | [],_ => false
  | x::xs,y => keyEqDir false x y||keySome xs y

end

/-- `impl PartialEq for ValueKey`. -/
def keyEq (a b : ValueKey) : Bool := keyEqDir veq false a b

/-- `IndexMap::get`, for a map whose equal keys hash alike. -/
def dictGet (entries : List (ValueKey×Value)) (k : ValueKey) : Option Value :=
  (entries.find? (fun e => keyEq veq k e.1)).map Prod.snd

end Keys

section Comparator

def zipAll (eq : Value → Value → Bool) (a b : List Value) : Bool :=
  a.length==b.length&&(a.zip b).all (fun p => eq p.1 p.2)

def allIn (eq : Value → Value → Bool) (a b : List Value) : Bool :=
  a.length==b.length&&a.all (fun x => b.any (fun y => eq x y))

/-- Unordered comparison of two dicts; the keys are looked up in the second. -/
def dictAll (veq eq : Value → Value → Bool) (a b : List (ValueKey×Value)) : Bool :=
  a.length==b.length&&a.all (fun e => match dictGet veq b e.1 with
    | some v => eq e.2 v
    | none => false)

def dictZip (veq eq : Value → Value → Bool) (a b : List (ValueKey×Value)) : Bool :=
  a.length==b.length&&(a.zip b).all (fun p => keyEq veq p.1.1 p.2.1&&eq p.1.2 p.2.2)

def fieldsAll (eq : Value → Value → Bool) (a b : List (String×Value)) : Bool :=
  a.length==b.length&&a.all (fun e => match b.lookup e.1 with
    | some v => eq e.2 v
    | none => false)

def typeLikeName : Value → Option String
  | .exceptionType n => some n
  | .type n => some n
  | .classRef n => some n
  | .builtinName n => some n
  | _ => none

def bytesEq (a b : Value) : Option Bool := do
  let x ← a.bytesView
  let y ← b.bytesView
  return x==y

/-- The value of an `int` or `str` enumeration member. -/
def enumValue : Value → Option Value
  | .enumMember _ _ v .int => some v
  | .enumMember _ _ v .str => some v
  | _ => none

/-- The arms of `values_equal` after those for numbers, strings, bytes and containers. -/
def restEqual (eq : Value → Value → Bool) (a b : Value) : Bool :=
  match a,b with
  | .enumMember c m _ _,.enumMember c' m' _ _ => c==c'&&m==m'
  | _,_ =>
    match enumValue a,enumValue b with
    | some v,_ => eq v b
    | none,some v => eq a v
    | none,none =>
      match a,b with
      | .instanceValue c i f,.instanceValue c' i' f' => c==c'&&(i==i'||fieldsAll eq f f')
      | .date d,.date d' => d==d'
      | .time t,.time t' => t==t'
      | .timeDelta m,.timeDelta m' => m==m'
      | .dateTime dt tz,.dateTime dt' tz' => dateTimeEq dt tz dt' tz'
      | .timeZone o,.timeZone o' => o==o'
      | _,_ => match typeLikeName a,typeLikeName b with
        | some n,some n' => nameEq n n'
        | _,_ => false

/-- One level of `values_equal`; `eq` is the comparator one level deeper. -/
def valuesEqualStep (eq : Value → Value → Bool) (a b : Value) : Bool :=
  match a,b with
  | .none,.none => true
  | .ellipsis,.ellipsis => true
  | .notImplemented,.notImplemented => true
  | .bool x,.bool y => x==y
  | .int x,.int y => x==y
  | .float x,.float y => x.eq y
  | .string x,.string y => x==y
  | .bytes x,.bytes y => x==y
  | .byteArray x,.byteArray y => x==y
  | .byteArray x,.bytes y => x==y
  | .bytes x,.byteArray y => y==x
  | .bool x,.int i => i==boolI64 x
  | .int i,.bool x => i==boolI64 x
  | .bool x,.float f => f.eq (if x then F64.one else F64.zero)
  | .float f,.bool x => f.eq (if x then F64.one else F64.zero)
  | .int i,.float f => f.eq (F64.ofInt i.toInt)
  | .float f,.int i => f.eq (F64.ofInt i.toInt)
  | .function i _,.function j _ => i==j
  | .lambda i _,.lambda j _ => i==j
  | .list i x,.list j y => i==j||zipAll eq x y
  | .deque x _,.deque y _ => zipAll eq x y
  | .tuple x,.tuple y => zipAll eq x y
  | .orderedDict i x,.orderedDict j y => i==j||dictZip eq eq x y
  | .dict i x,.dict j y => i==j||dictAll eq eq x y
  | .dict i x,.orderedDict j y => i==j||dictAll eq eq x y
  | .orderedDict i x,.dict j y => i==j||dictAll eq eq x y
  | .set x,.set y => allIn eq x y
  | .set x,.frozenset y => allIn eq x y
  | .frozenset x,.set y => allIn eq x y
  | .frozenset x,.frozenset y => allIn eq x y
  | _,_ => restEqual eq a b

/-- `values_equal` with `fuel` levels left before the recursion limit. -/
def valuesEqual : Nat → Value → Value → Bool
  | 0 => fun _ _ => false
  | n+1 => valuesEqualStep (valuesEqual n)

end Comparator

section Slots

def boolEq (a : Bool) (rhs : Value) : Option Bool :=
  match rhs with
  | .bool b => some (a==b)
  | .int i => some (i==boolI64 a)
  | .bigInt i => some (i==boolInt a)
  | .float f => some (f.eq (if a then F64.one else F64.zero))
  | _ => none

/-- The int slot goes through `BigInt::to_f64` against a float. -/
def intEq (a : Int) (rhs : Value) : Option Bool :=
  match rhs with
  | .int b => some (a==b.toInt)
  | .bigInt b => some (a==b)
  | .bool b => some (a==boolInt b)
  | .float f => some (f.eq (F64.ofInt a))
  | _ => none

/-- No arm for a big int: the reflected int slot answers. -/
def floatEq (a : F64) (rhs : Value) : Option Bool :=
  match rhs with
  | .float b => some (a.eq b)
  | .bool b => some (a.eq (if b then F64.one else F64.zero))
  | .int i => some (a.eq (F64.ofInt i.toInt))
  | _ => none

def valueToComplex : Value → Option (F64×F64)
  | .complex re im => some (re,im)
  | .float f => some (f,F64.zero)
  | .int i => some (F64.ofInt i.toInt,F64.zero)
  | .bool b => some (if b then F64.one else F64.zero,F64.zero)
  | .bigInt i => some (F64.ofInt i,F64.zero)
  | _ => none

def complexEq (lhs rhs : Value) : Option Bool :=
  match valueToComplex lhs,valueToComplex rhs with
  | some (ar,ai),some (br,bi) => some (ar.eq br&&ai.eq bi)
  | _,_ => some false

def decimalToBigdecimal : Value → Option Rat
  | .decimal d => some d.digits.toRat
  | .int i => some i.toInt
  | .bigInt i => some i
  | .bool b => some (boolInt b)
  | _ => none

def fractionToBigrational : Value → Option Rat
  | .fraction q => some q
  | .int i => some i.toInt
  | .bigInt i => some i
  | .bool b => some (boolInt b)
  | _ => none

/-- `integer_decode`: mantissa and exponent of the magnitude. -/
def integerDecode (f : F64) : Nat×Int :=
  let exponent : Nat := f.mag/2^52
  (if exponent=0 then f.mag%2^52*2 else f.mag%2^52+2^52,((exponent : Nat) : Int)-1075)

def floatToBigrational (f : F64) : Option Rat :=
  if f.isFinite then
    let (mantissa,exp) := integerDecode f
    let numer : Int := mantissa*f.sign
    some (if 0≤exp then (numer : Rat)*2^exp.toNat else (numer : Rat)/2^(-exp).toNat)
  else none

/-- `u32::try_from(n).ok()`. -/
def wordOfScale (n : Int64) : Option Nat :=
  if 0≤ n.toInt ∧ n.toInt≤4294967295 then some n.toInt.toNat else none

/-- `None` for a scale whose power of ten is not materialised. -/
def decimalToBigrational (d : PyDecimal) : Option Rat :=
  if 0≤d.digits.scale.toInt then
    (wordOfScale d.digits.scale).map fun e => (d.digits.mantissa : Rat)/10^e
  else (wordOfScale (-d.digits.scale)).map fun e => (d.digits.mantissa : Rat)*10^e

def exactRational : Value → Option Rat
  | .float f => floatToBigrational f
  | .decimal d => decimalToBigrational d
  | v => fractionToBigrational v

def decimalOperandKind : Value → DecimalKind
  | .decimal d => d.kind
  | _ => .normal

def isFloatOrFraction : Value → Bool
  | .float _ => true
  | .fraction _ => true
  | _ => false

def isFloatOrDecimal : Value → Bool
  | .float _ => true
  | .decimal _ => true
  | _ => false

def decimalEq (d : PyDecimal) (rhs : Value) : Option Bool :=
  let kb := decimalOperandKind rhs
  if d.kind.isSpecial||kb.isSpecial then
    if d.kind.isNan||kb.isNan then some false
    else some ((d.kind==.posInf&&kb==.posInf)||(d.kind==.negInf&&kb==.negInf))
  else if isFloatOrFraction rhs then do
    let x ← decimalToBigrational d
    let y ← exactRational rhs
    return decide (x=y)
  else do
    let y ← decimalToBigdecimal rhs
    return decide (d.digits.toRat=y)

def fractionEq (q : Rat) (rhs : Value) : Option Bool :=
  if isFloatOrDecimal rhs then
    match exactRational rhs with
    | some b => some (decide (q=b))
    | none => some false
  else do
    let b ← fractionToBigrational rhs
    return decide (q=b)

def dictEq (veq rec : Value → Value → Bool) (lhs rhs : Value) : Option Bool := do
  let (i,x) ← lhs.asDict
  let (j,y) ← rhs.asDict
  return i==j||dictAll veq rec x y

/-- The `eq_slot` of the left operand's type; `none` is `NotImplemented`. `rec` and `veq` are
`recurse_eq` and `values_equal` one level deeper. -/
def eqSlot (rec veq : Value → Value → Bool) (lhs rhs : Value) : Option Bool :=
  match lhs with
  | .none => some (match rhs with
    | .none => true
    | _ => false)
  | .bool a => boolEq a rhs
  | .int a => intEq a.toInt rhs
  | .bigInt a => intEq a rhs
  | .float a => floatEq a rhs
  | .complex _ _ => complexEq lhs rhs
  | .string a => match rhs with
    | .string b => some (a==b)
    | _ => none
  | .bytes _ => bytesEq lhs rhs
  | .byteArray _ => bytesEq lhs rhs
  | .memoryView _ => bytesEq lhs rhs
  | .list i a => match rhs with
    | .list j b => some (i==j||zipAll rec a b)
    | _ => none
  | .tuple a => match rhs with
    | .tuple b => some (zipAll rec a b)
    | _ => none
  | .dict _ _ => dictEq veq rec lhs rhs
  | .orderedDict i a => match rhs with
    | .orderedDict j b => some (i==j||dictZip veq rec a b)
    | _ => dictEq veq rec lhs rhs
  | .set a => rhs.setItems.map (allIn rec a)
  | .frozenset a => rhs.setItems.map (allIn rec a)
  | .decimal d => decimalEq d rhs
  | .fraction q => fractionEq q rhs
  | .deque a _ => match rhs with
    | .deque b _ => some (zipAll veq a b)
    | _ => none
  | _ => some (veq lhs rhs)

/-- `recurse_eq` with `fuel` levels left before the recursion limit. -/
def recurseEqN : Nat → Value → Value → Bool
  | 0 => fun _ _ => false
  | n+1 => fun lhs rhs =>
    match eqSlot (recurseEqN n) (valuesEqual n) lhs rhs with
    | some r => r
    | none =>
      match eqSlot (recurseEqN n) (valuesEqual n) rhs lhs with
      | some r => r
      | none => false

def eqRecursionLimit : Nat := 1000

/-- `recurse_eq` as a top-level comparison. -/
def recurseEq (lhs rhs : Value) : Bool := recurseEqN eqRecursionLimit lhs rhs

end Slots

/-- What one `hash` call writes to a hasher. -/
inductive Datum where
  | u8 (n : UInt8)
  | i64 (i : Int64)
  | u64 (w : UInt64)
  | usize (n : Nat)
  | bigInt (n : Int)
  | str (s : String)
  | date (d : NaiveDate)
  | time (t : NaiveTime)
  | dateTime (dt : NaiveDateTime)
  deriving DecidableEq

section Decimals

/-- The number of trailing decimal zeros. -/
def trailingZeros : Nat → Nat → Nat
  | 0,_ => 0
  | fuel+1,n => if n≠0 ∧ n%10=0 then trailingZeros fuel (n/10)+1 else 0

/-- `BigDecimal::normalized`. -/
def normalized (d : BigDecimal) : BigDecimal :=
  if d.mantissa=0 then ⟨0,0⟩
  else
    let count := trailingZeros d.mantissa.natAbs d.mantissa.natAbs
    ⟨d.mantissa/10^count,d.scale-Int64.ofNat count⟩

/-- The digits of `with_scale(0)`, which truncates. -/
def withScaleZero (d : BigDecimal) : Int :=
  if d.scale.toInt≤0 then d.mantissa*10^(-d.scale.toInt).toNat
  else d.mantissa.tdiv (10^d.scale.toInt.toNat)

end Decimals

section Construction

/-- `f + 0.0`, which only clears the sign of a zero. -/
def addZero (f : F64) : F64 := if f.mag=0 then F64.zero else f

def fitsI64 (n : Int) : Option Int64 :=
  if Int64.minValue.toInt≤ n ∧ n≤Int64.maxValue.toInt then some (Int64.ofInt n) else none

def bigintToKey (n : Int) : ValueKey :=
  match fitsI64 n with
  | some i => .int i
  | none => .bigInt n

def floatToKey (f : F64) : ValueKey := .float f.bits

-- `finish` is what a fresh `DefaultHasher` returns after the given writes.
variable (finish : List Datum → UInt64)

def addrHash (addr : Addr) : Int64 := Int64.ofNat addr

def memberHash (className memberName : String) : Int64 :=
  (finish [.str className,.str memberName]).toInt64

def nameHash (name : String) : Int64 := (finish [.str name]).toInt64

mutual

def valueToKey : Value → Except InterpreterError ValueKey
  | .none => .ok .none
  | .ellipsis => .ok .ellipsis
  | .bool b => .ok (.bool b)
  | .int i => .ok (.int i)
  | .bigInt i => .ok (.bigInt i)
  | .float f => .ok (floatToKey f)
  | .complex re im =>
    if im.eq F64.zero then .ok (floatToKey re)
    else .ok (.complex (addZero re).bits (addZero im).bits)
  | .string s => .ok (.string s)
  | .tuple items => (valuesToKeys items).map .tuple
  | .frozenset items => (valuesToKeys items).map .frozenset
  | .date d => .ok (.date d)
  | .time t => .ok (.time t)
  | .timeDelta m => .ok (.timeDelta m)
  | .dateTime dt tz => .ok (.dateTime dt tz)
  | .decimal d =>
    if (normalized d.digits).scale.toInt≤0 then .ok (bigintToKey (withScaleZero d.digits))
    else .ok (.decimal d.digits)
  | .fraction q => if q.den=1 then .ok (bigintToKey q.num) else .ok (.fraction q)
  | .enumMember className memberName value kind =>
    match kind with
    | .int => valueToKey value
    | .intFlag => valueToKey value
    | .str => valueToKey value
    | .plain => .ok (.instanceKey (memberHash finish className memberName)
        (.enumMember className memberName value kind))
    | .flag => .ok (.instanceKey (memberHash finish className memberName)
        (.enumMember className memberName value kind))
  | .function addr f => .ok (.instanceKey (addrHash addr) (.function addr f))
  | .lambda addr l => .ok (.instanceKey (addrHash addr) (.lambda addr l))
  | .classRef name => .ok (.instanceKey (nameHash finish name) (.classRef name))
  | .type name => .ok (.instanceKey (nameHash finish name) (.type name))
  | .exceptionType name => .ok (.instanceKey (nameHash finish name) (.exceptionType name))
  | .builtinName name => .ok (.instanceKey (nameHash finish name) (.builtinName name))
  | v => .error (.typeError ("unhashable type: '"++v.typeName++"'"))

def valuesToKeys : List Value → Except InterpreterError (List ValueKey)
  | [] => .ok []
  | v::vs => do
    let k ← valueToKey v
    let ks ← valuesToKeys vs
    return k::ks

end

end Construction

section Feed

variable (finish : List Datum → UInt64)

mutual

/-- `impl Hash for ValueKey`: the writes in order. -/
def keyFeed : ValueKey → List Datum
  | .none => [.u8 0]
  | .ellipsis => [.u8 7]
  | .bool b => [.u8 1,.i64 (boolI64 b)]
  | .int i => [.u8 1,.i64 i]
  | .bigInt n => match fitsI64 n with
    | some i => [.u8 1,.i64 i]
    | none => [.u8 1,.bigInt n]
  | .float bits => match floatKeyI64 bits with
    | some i => [.u8 1,.i64 i]
    | none => [.u8 2,.u64 bits]
  | .complex re im => [.u8 6,.u64 re,.u64 im]
  | .string s => [.u8 3,.str s]
  | .tuple items => .u8 4::.usize items.length::feedAll items
  | .frozenset items => [.u8 8,.u64 (feedXor 0 items)]
  | .instanceKey h _ => [.u8 5,.i64 h]
  | .date d => [.u8 9,.date d]
  | .time t => [.u8 10,.time t]
  | .timeDelta m => [.u8 12,.i64 m]
  | .decimal d => [.u8 13,.bigInt (normalized d).mantissa,.i64 (normalized d).scale]
  | .fraction q => [.u8 14,.bigInt q.num,.bigInt q.den]
  | .dateTime dt tz => match tz with
    | none => [.u8 11,.u8 0,.dateTime dt]
    | some o => [.u8 11,.u8 1,.dateTime (dt.minusSeconds o.toInt)]

def feedAll : List ValueKey → List Datum
  | [] => []
  | k::ks => keyFeed k++feedAll ks

/-- The XOR of the elements' own hashes. -/
def feedXor (acc : UInt64) : List ValueKey → UInt64
  | [] => acc
  | k::ks => feedXor (acc^^^finish (keyFeed k)) ks

end

end Feed

end InterpretThis
