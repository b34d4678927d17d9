import InterpretThis.Math.Binary32
import InterpretThis.Struct.Layout

namespace InterpretThis
namespace Struct

open Bytes

/-- A value as the module tells values apart: `O` everything that it only tests for truth. -/
inductive Value (O : Type) where
  | int (n : ℤ)
  | bool (b : Bool)
  | float (f : F64)
  | bytes (bs : List UInt8)
  | bytearray (bs : List UInt8)
  | other (o : O)

variable {O : Type}

/-- `try_truthy_sync`, true where it has no answer. -/
def truthy (truthyOther : O → Bool) : Value O → Bool
  | .int n => decide (n≠0)
  | .bool b => b
  | .float f => !f.eq F64.zero
  | .bytes bs | .bytearray bs => !bs.isEmpty
  | .other o => truthyOther o

def asI128 : Value O → Except Failure ℤ
  | .int n =>
    if -2^127≤n ∧ n<2^127 then .ok n else .error (.structError "argument out of range")
  | .bool b => .ok b.toInt
  | _ => .error (.structError "required argument is not an integer")

/-- A float, or an integer of 64 bits. -/
def asF64 : Value O → Except Failure F64
  | .float f => .ok f
  | .int n =>
    if -2^63≤n ∧ n<2^63 then .ok (F64.ofInt n)
    else .error (.structError "required argument is not a float")
  | .bool b => .ok (F64.ofInt b.toInt)
  | _ => .error (.structError "required argument is not a float")

def rangeErr (code : Code) : Failure :=
  .structError (match code with
    | .b => "byte format requires -128 <= number <= 127"
    | .B => "ubyte format requires 0 <= number <= 255"
    | .h => "short format requires -32768 <= number <= 32767"
    | .H => "ushort format requires 0 <= number <= 65535"
    | _ => "argument out of range")

/-- A signed integer of `k` bytes; `code` names it in the error. -/
def packSigned (k : ℕ) (code : Code) (v : Value O) : Except Failure (List UInt8) := do
  let n ← asI128 v
  if -2^(8*k-1)≤n ∧ n<2^(8*k-1) then .ok (ofInt k n) else .error (rangeErr code)

def packUnsigned (k : ℕ) (code : Code) (v : Value O) : Except Failure (List UInt8) := do
  let n ← asI128 v
  if 0≤n ∧ n<2^(8*k) then .ok (ofInt k n) else .error (rangeErr code)

/-- The bytes of one element, most significant first. -/
def packItem (truthyOther : O → Bool) (mode : Mode) (code : Code) (v : Value O) :
    Except Failure (List UInt8) :=
  match code with
  | .c =>
    match v with
    | .bytes [b] => .ok [b]
    | _ => .error (.structError "char format requires a bytes object of length 1")
  | .bool => .ok [if truthy truthyOther v then 1 else 0]
  | .b => packSigned 1 .b v
  | .B => packUnsigned 1 .B v
  | .h => packSigned 2 .h v
  | .H => packUnsigned 2 .H v
  | .i => packSigned 4 .i v
  | .I => packUnsigned 4 .I v
  | .l => if mode=.native then packSigned 8 .q v else packSigned 4 .l v
  | .L => if mode=.native then packUnsigned 8 .Q v else packUnsigned 4 .L v
  | .q => packSigned 8 .q v
  | .Q => packUnsigned 8 .Q v
  | .f => (asF64 v).map fun f => bigEndian 4 (F32.narrow f).bits.toNat
  | .d => (asF64 v).map fun f => bigEndian 8 f.bits.toNat
  | .x | .s => .error .panic

def order (mode : Mode) (bytes : List UInt8) : List UInt8 :=
  if mode=.big then bytes else bytes.reverse

/-- The output with more bytes at its end; no vector grows past `isize::MAX`. -/
def extend (out bytes : List UInt8) : Except Failure (List UInt8) :=
  if out.length+bytes.length<2^63 then .ok (out++bytes) else .error .panic

def packItems (truthyOther : O → Bool) (mode : Mode) (code : Code) :
    ℕ → List (Value O) → List UInt8 → Except Failure (List UInt8×List (Value O))
  | 0,values,out => .ok (out,values)
  | _+1,[],_ => .error .panic
  | n+1,v::values,out => do
    let bytes ← packItem truthyOther mode code v
    let out ← extend out (order mode bytes)
    packItems truthyOther mode code n values out

/-- `Vec::resize` with zeros. -/
def resize (count : ℕ) (bytes : List UInt8) : List UInt8 :=
  bytes.take count++List.replicate (count-bytes.length) 0

def bytesArg : Value O → Except Failure (List UInt8)
  | .bytes bs | .bytearray bs => .ok bs
  | _ => .error (.structError "argument for 's' must be a bytes object")

def packField (truthyOther : O → Bool) (mode : Mode) (f : Field) (values : List (Value O))
    (out : List UInt8) : Except Failure (List UInt8×List (Value O)) := do
  let out ← extend out (List.replicate (alignTo out.length (f.code.align mode)-out.length) 0)
  match f.code with
  | .x => do
    let out ← extend out (List.replicate f.count 0)
    return (out,values)
  | .s =>
    match values with
    | [] => .error .panic
    | v::values => do
      let bytes ← bytesArg v
      let out ← extend out (resize f.count bytes)
      return (out,values)
  | code => packItems truthyOther mode code f.count values out

def packFields (truthyOther : O → Bool) (mode : Mode) :
    List Field → List (Value O) → List UInt8 → Except Failure (List UInt8)
  | [],_,out => .ok out
  | f::fields,values,out => do
    let (out,values) ← packField truthyOther mode f values out
    packFields truthyOther mode fields values out

/-- `struct.pack`. -/
def pack (truthyOther : O → Bool) (fmt : Text) (values : List (Value O)) :
    Except Failure (List UInt8) := do
  let (mode,fields) ← parseFormat fmt
  if values.length≠valueCount fields then
    .error (.structError ("pack expected "++toString (valueCount fields)
      ++" items for packing (got "++toString values.length++")"))
  else packFields truthyOther mode fields values []

/-- The value of one element, from its bytes, most significant first. -/
def unpackItem (code : Code) (bytes : List UInt8) : Value O :=
  match code with
  | .bool => .bool (decide (number bytes≠0))
  | .b | .h | .i | .q => .int (toInt bytes)
  | .B | .H | .I | .Q => .int (number bytes)
  | .l => .int (toInt bytes)
  | .L => .int (number bytes)
  | .f => .float (F32.widen ⟨UInt32.ofNat (number bytes)⟩)
  | .d => .float ⟨UInt64.ofNat (number bytes)⟩
  | .c | .x | .s => .bytes bytes

/-- The slice `buf[pos..stop]`, out of which an index panics. -/
def slice (buf : List UInt8) (pos stop : ℕ) : Except Failure (List UInt8) :=
  if pos ≤ stop ∧ stop≤buf.length then .ok ((buf.drop pos).take (stop-pos)) else .error .panic

/-- `n` bytes at `pos`, most significant first. -/
def take (mode : Mode) (buf : List UInt8) (pos n : ℕ) : Except Failure (List UInt8) := do
  if buf.length<wrap (pos+n) then
    .error (.structError "unpack requires a buffer of the declared size")
  else
    let bytes ← slice buf pos (wrap (pos+n))
    return order mode bytes

def unpackItems (mode : Mode) (code : Code) (buf : List UInt8) :
    ℕ → ℕ → Except Failure (List (Value O)×ℕ)
  | 0,pos => .ok ([],pos)
  | n+1,pos => do
    let bytes ← take mode buf pos (code.size mode)
    let (values,pos) ← unpackItems mode code buf n (wrap (pos+code.size mode))
    return (unpackItem code bytes::values,pos)

def unpackField (mode : Mode) (buf : List UInt8) (f : Field) (pos : ℕ) :
    Except Failure (List (Value O)×ℕ) :=
  match f.code with
  | .x => .ok ([],wrap (pos+f.count))
  | .s => do
    let bytes ← slice buf pos (wrap (pos+f.count))
    return ([.bytes bytes],wrap (pos+f.count))
  | code => unpackItems mode code buf f.count pos

def unpackFields (mode : Mode) (buf : List UInt8) :
    List Field → ℕ → Except Failure (List (Value O))
  | [],_ => .ok []
  | f::fields,pos => do
    let (values,pos) ← unpackField mode buf f (alignTo pos (f.code.align mode))
    let rest ← unpackFields mode buf fields pos
    return values++rest

/-- `struct.unpack`. -/
def unpack (fmt : Text) (buf : List UInt8) : Except Failure (List (Value O)) := do
  let (mode,fields) ← parseFormat fmt
  if buf.length≠layoutSize mode fields then
    .error (.structError ("unpack requires a buffer of "++toString (layoutSize mode fields)
      ++" bytes"))
  else unpackFields mode buf fields 0

variable (truthyOther : O → Bool) (mode : Mode)

/-- The integer that a packed value stands for. -/
def Value.toInteger : Value O → ℤ
  | .int n => n
  | .bool b => b.toInt
  | _ => 0

/-- The double that a packed value stands for. -/
def Value.toDouble : Value O → F64
  | .float f => f
  | .int n => F64.ofInt n
  | .bool b => F64.ofInt b.toInt
  | _ => F64.zero

/-- The value that is stored when `v` is packed. -/
def stored (code : Code) (v : Value O) : Value O :=
  match code with
  | .c | .x | .s => v
  | .bool => .bool (truthy truthyOther v)
  | .f => .float (F32.widen (F32.narrow v.toDouble))
  | .d => .float v.toDouble
  | _ => .int v.toInteger

def zeroed (code : Code) (bytes : List UInt8) : List UInt8 :=
  if code=.bool then [if number bytes≠0 then 1 else 0] else bytes

/-- What packing makes of an element that was unpacked: as `zeroed`, and a NaN in single precision comes back quiet. -/
def settled (code : Code) (bytes : List UInt8) : List UInt8 :=
  if code=.f then
    bigEndian 4 (F32.narrow (F32.widen ⟨UInt32.ofNat (number bytes)⟩)).bits.toNat
  else zeroed code bytes

def Code.isItem (code : Code) : Prop := code≠.x ∧ code≠.s

section Numbers

theorem asI128_toInteger (v : Value O) (n : ℤ) (h : asI128 v=.ok n) : v.toInteger=n := by
  unfold asI128 at h
  cases v with
  | int m =>
    dsimp only at h
    split_ifs at h
    cases h
    rfl
  | bool b =>
    cases h
    rfl
  | float | bytes | bytearray | other => cases h

theorem asF64_toDouble (v : Value O) (f : F64) (h : asF64 v=.ok f) : v.toDouble=f := by
  unfold asF64 at h
  cases v with
  | int m =>
    dsimp only at h
    split_ifs at h
    cases h
    rfl
  | bool | float =>
    cases h
    rfl
  | bytes | bytearray | other => cases h

theorem packSigned_ok (k : ℕ) (hk : 0<k) (code : Code) (v : Value O) (bytes : List UInt8)
    (h : packSigned k code v=.ok bytes) : bytes.length=k ∧ toInt bytes=v.toInteger := by
  unfold packSigned at h
  cases hn : asI128 v with
  | error e =>
    rw [hn] at h
    cases h
  | ok n =>
    rw [hn] at h
    change (if -2^(8*k-1)≤n ∧ n<2^(8*k-1) then Except.ok (ofInt k n)
      else Except.error (rangeErr code))=_ at h
    split_ifs at h with hr
    cases h
    exact ⟨length_ofInt k n,(toInt_ofInt k n hk hr.1 hr.2).trans (asI128_toInteger v n hn).symm⟩

theorem packUnsigned_ok (k : ℕ) (code : Code) (v : Value O) (bytes : List UInt8)
    (h : packUnsigned k code v=.ok bytes) : bytes.length=k ∧ (number bytes : ℤ)=v.toInteger := by
  unfold packUnsigned at h
  cases hn : asI128 v with
  | error e =>
    rw [hn] at h
    cases h
  | ok n =>
    rw [hn] at h
    change (if 0≤n ∧ n<2^(8*k) then Except.ok (ofInt k n)
      else Except.error (rangeErr code))=_ at h
    split_ifs at h with hr
    cases h
    exact ⟨length_ofInt k n,
      (number_ofInt_nat k n hr.1 hr.2).trans (asI128_toInteger v n hn).symm⟩

theorem packSigned_unpacked (code : Code) (bytes : List UInt8) (h0 : 0<bytes.length)
    (h8 : bytes.length≤8) :
    packSigned bytes.length code (.int (toInt bytes) : Value O)=.ok bytes := by
  obtain ⟨hl,hu⟩ := toInt_bounds bytes
  have hp : (2 : ℤ)^(8*bytes.length-1)≤2^127 := pow_le_pow_right₀ (by decide) (by omega)
  have hrange : -2^127≤toInt bytes ∧ toInt bytes<2^127 := ⟨by linarith,by linarith⟩
  have hn : asI128 (.int (toInt bytes) : Value O)=.ok (toInt bytes) := by
    unfold asI128
    dsimp only
    rw [if_pos hrange]
  unfold packSigned
  rw [hn]
  exact (if_pos ⟨hl,hu⟩).trans (congrArg _ (ofInt_toInt bytes))

theorem packUnsigned_unpacked (code : Code) (bytes : List UInt8) (h8 : bytes.length≤8) :
    packUnsigned bytes.length code (.int (number bytes) : Value O)=.ok bytes := by
  have hlt : number bytes<2^(8*bytes.length) := pow_bits _ ▸ number_lt bytes
  have hz : (number bytes : ℤ)<2^(8*bytes.length) := by exact_mod_cast hlt
  have hp : (2 : ℤ)^(8*bytes.length)≤2^64 := pow_le_pow_right₀ (by decide) (by omega)
  have hpos : (0 : ℤ)≤number bytes := Int.natCast_nonneg _
  have hbig : (2 : ℤ)^64≤2^127 := by norm_num
  have hrange : -2^127≤(number bytes : ℤ) ∧ (number bytes : ℤ)<2^127 :=
    ⟨by linarith,by linarith⟩
  have hn : asI128 (.int (number bytes) : Value O)=.ok (number bytes : ℤ) := by
    unfold asI128
    dsimp only
    rw [if_pos hrange]
  unfold packUnsigned
  rw [hn]
  exact (if_pos ⟨hpos,hz⟩).trans (congrArg _ (ofInt_number bytes))

theorem word64 (n : ℕ) (h : n<2^64) : number (bigEndian 8 n)=n := by
  rw [number_bigEndian]
  exact Nat.mod_eq_of_lt h

theorem word32 (n : ℕ) (h : n<2^32) : number (bigEndian 4 n)=n := by
  rw [number_bigEndian]
  exact Nat.mod_eq_of_lt h

end Numbers

/-- What is packed is as long as its code says, and is unpacked as the value stored. -/
theorem packItem_ok (code : Code) (hc : code.isItem) (v : Value O) (bytes : List UInt8)
    (h : packItem truthyOther mode code v=.ok bytes) :
    bytes.length=code.size mode ∧ unpackItem code bytes=stored truthyOther code v := by
  have signed (k : ℕ) (hk : 0<k) (code : Code) (hp : packSigned k code v=.ok bytes) :
      bytes.length=k ∧ (.int (toInt bytes) : Value O)=.int v.toInteger := by
    obtain ⟨hl,hv⟩ := packSigned_ok k hk code v bytes hp
    exact ⟨hl,congrArg _ hv⟩
  have unsigned (k : ℕ) (code : Code) (hp : packUnsigned k code v=.ok bytes) :
      bytes.length=k ∧ (.int (number bytes) : Value O)=.int v.toInteger := by
    obtain ⟨hl,hv⟩ := packUnsigned_ok k code v bytes hp
    exact ⟨hl,congrArg _ hv⟩
  cases code with
  | x => exact absurd rfl hc.1
  | s => exact absurd rfl hc.2
  | c =>
    unfold packItem at h
    cases v with
    | bytes bs =>
      match bs with
      | [] => cases h
      | [b] =>
        cases h
        exact ⟨rfl,rfl⟩
      | _::_::_ => cases h
    | int | bool | float | bytearray | other => cases h
  | bool =>
    cases h
    refine ⟨rfl,?_⟩
    unfold unpackItem stored
    cases truthy truthyOther v <;> rfl
  | b => exact signed 1 (by decide) _ h
  | B => exact unsigned 1 _ h
  | h => exact signed 2 (by decide) _ h
  | H => exact unsigned 2 _ h
  | i => exact signed 4 (by decide) _ h
  | I => exact unsigned 4 _ h
  | q => exact signed 8 (by decide) _ h
  | Q => exact unsigned 8 _ h
  | l =>
    simp only [packItem] at h
    unfold Code.size
    split_ifs at h ⊢
    · exact signed 8 (by decide) _ h
    · exact signed 4 (by decide) _ h
  | L =>
    simp only [packItem] at h
    unfold Code.size
    split_ifs at h ⊢
    · exact unsigned 8 _ h
    · exact unsigned 4 _ h
  | f =>
    simp only [packItem] at h
    cases hf : asF64 v with
    | error e =>
      rw [hf] at h
      cases h
    | ok f =>
      rw [hf] at h
      cases h
      refine ⟨length_bigEndian _ _,?_⟩
      simp only [unpackItem,stored,asF64_toDouble v f hf,word32 _ (F32.narrow f).bits.toNat_lt,
        UInt32.ofNat_toNat]
  | d =>
    simp only [packItem] at h
    cases hf : asF64 v with
    | error e =>
      rw [hf] at h
      cases h
    | ok f =>
      rw [hf] at h
      cases h
      refine ⟨length_bigEndian _ _,?_⟩
      simp only [unpackItem,stored,asF64_toDouble v f hf,word64 _ f.bits.toNat_lt,
        UInt64.ofNat_toNat]

/-- What is unpacked can be packed, and gives the bytes settled. -/
theorem packItem_unpackItem (code : Code) (hc : code.isItem) (bytes : List UInt8)
    (hl : bytes.length=code.size mode) :
    packItem truthyOther mode code (unpackItem code bytes)=.ok (settled code bytes) := by
  have signed (k : ℕ) (code : Code) (hk : bytes.length=k) (h0 : 0<k) (h8 : k≤8) :
      packSigned k code (.int (toInt bytes) : Value O)=.ok bytes := by
    subst hk
    exact packSigned_unpacked code bytes h0 h8
  have unsigned (k : ℕ) (code : Code) (hk : bytes.length=k) (h8 : k≤8) :
      packUnsigned k code (.int (number bytes) : Value O)=.ok bytes := by
    subst hk
    exact packUnsigned_unpacked code bytes h8
  cases code with
  | x => exact absurd rfl hc.1
  | s => exact absurd rfl hc.2
  | c =>
    obtain ⟨b,rfl⟩ := List.length_eq_one_iff.mp hl
    rfl
  | bool =>
    simp only [packItem,unpackItem,settled,zeroed,truthy]
    by_cases h : number bytes=0
    · simp [h]
    · simp [h]
  | b => exact signed 1 .b hl (by decide) (by decide)
  | h => exact signed 2 .h hl (by decide) (by decide)
  | i => exact signed 4 .i hl (by decide) (by decide)
  | q => exact signed 8 .q hl (by decide) (by decide)
  | B => exact unsigned 1 .B hl (by decide)
  | H => exact unsigned 2 .H hl (by decide)
  | I => exact unsigned 4 .I hl (by decide)
  | Q => exact unsigned 8 .Q hl (by decide)
  | l =>
    by_cases hm : mode=.native
    · have hk : bytes.length=8 := hl.trans (if_pos hm)
      exact (if_pos hm).trans (signed 8 .q hk (by decide) (by decide))
    · have hk : bytes.length=4 := hl.trans (if_neg hm)
      exact (if_neg hm).trans (signed 4 .l hk (by decide) (by decide))
  | L =>
    by_cases hm : mode=.native
    · have hk : bytes.length=8 := hl.trans (if_pos hm)
      exact (if_pos hm).trans (unsigned 8 .Q hk (by decide))
    · have hk : bytes.length=4 := hl.trans (if_neg hm)
      exact (if_neg hm).trans (unsigned 4 .L hk (by decide))
  | f => rfl
  | d =>
    have hlt : number bytes<2^64 := by
      have h := number_lt bytes
      rw [hl] at h
      exact h
    have hw : (UInt64.ofNat (number bytes)).toNat=number bytes := by
      rw [UInt64.toNat_ofNat']
      exact Nat.mod_eq_of_lt hlt
    have hb := bigEndian_number bytes
    rw [hl] at hb
    change Except.ok (bigEndian 8 (UInt64.ofNat (number bytes)).toNat)=Except.ok bytes
    rw [hw]
    exact congrArg _ hb

end Struct
end InterpretThis
