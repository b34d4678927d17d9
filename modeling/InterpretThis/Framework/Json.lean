import InterpretThis.Math.Binary64
import Mathlib.Data.Nat.Digits.Defs

namespace InterpretThis

/-- A JSON document. -/
inductive Json where
  | null
  | bool (b : Bool)
  | int (i : Int)
  | float (f : F64)
  | str (s : String)
  | arr (items : List Json)
  | obj (fields : List (String×Json))

namespace Json

/-- JSON has no infinities and no NaN: they are written as `null`. -/
def ofFloat (f : F64) : Json := if f.isFinite then float f else null

/-- A float may also be written as an integer. -/
def asFloat : Json → Except String F64
  | float f => .ok f
  | int i => .ok (F64.ofInt i)
  | _ => .error "invalid type, expected f64"

def asBool : Json → Except String Bool
  | bool b => .ok b
  | _ => .error "invalid type, expected a boolean"

def asString : Json → Except String String
  | str s => .ok s
  | _ => .error "invalid type, expected a string"

/-- An integer of a machine type with the given bounds. -/
def asInt (lo hi : Int) : Json → Except String Int
  | int i => if lo≤ i ∧ i≤hi then .ok i else .error "invalid value, integer out of range"
  | _ => .error "invalid type, expected an integer"

def readAll {α : Type} (read : Json → Except String α) : List Json → Except String (List α)
  | [] => .ok []
  | j::js => do
    let x ← read j
    let xs ← readAll read js
    return x::xs

def asArray {α : Type} (read : Json → Except String α) : Json → Except String (List α)
  | arr items => readAll read items
  | _ => .error "invalid type, expected a sequence"

/-- The value of a field, with what structural recursion needs to know of it. -/
def getField (name : String) : (fields : List (String×Json)) →
    Except String {j : Json // sizeOf j<sizeOf fields}
  | [] => .error ("missing field `"++name++"`")
  | (k,j)::fields =>
    if k=name then .ok ⟨j,by simp; omega⟩
    else (getField name fields).map fun j => ⟨j.1,by have := j.2; simp; omega⟩

section Laws

theorem asFloat_ofFloat (f : F64) (h : f.isFinite=true) : asFloat (ofFloat f)=.ok f := by
  simp [ofFloat,h,asFloat]

theorem asFloat_nonfinite (f : F64) (h : f.isFinite=false) : ∃e, asFloat (ofFloat f)=.error e := by
  simp [ofFloat,h,asFloat]

theorem asInt_int (lo hi i : Int) (hl : lo≤ i) (hh : i≤hi) : asInt lo hi (int i)=.ok i :=
  if_pos ⟨hl,hh⟩

theorem readAll_map {α β : Type} (read : Json → Except String α) (write : β → Json) (f : β → α)
    (xs : List β) (h : ∀x∈xs, read (write x)=.ok (f x)) :
    readAll read (xs.map write)=.ok (xs.map f) := by
  induction xs with
  | nil => rfl
  | cons x xs ih =>
    rw [List.map_cons,readAll,h x (by simp),ih (fun y hy => h y (by simp [hy]))]
    rfl

end Laws

section BigIntegers

def ofBigInt (n : Int) : Json :=
  arr [int n.sign,arr ((Nat.digits (2^32) n.natAbs).map (fun d : Nat => int d))]

def asBigInt : Json → Except String Int
  | arr [sign,digits] => do
    let s ← asInt (-1) 1 sign
    let ds ← asArray (asInt 0 (2^32-1)) digits
    return s*(Nat.ofDigits (2^32) (ds.map Int.toNat) : Nat)
  | _ => .error "invalid type, expected a big integer"

theorem asBigInt_ofBigInt (n : Int) : asBigInt (ofBigInt n)=.ok n := by
  have hs : asInt (-1) 1 (int n.sign)=.ok n.sign := by
    have hcases := Int.sign_trichotomy n
    apply asInt_int
    · omega
    · omega
  have hd : asArray (asInt 0 (2^32-1)) (arr ((Nat.digits (2^32) n.natAbs).map (fun d : Nat => int d)))=
      .ok ((Nat.digits (2^32) n.natAbs).map (fun d : Nat => (d : Int))) := by
    refine readAll_map _ _ _ _ ?_
    intro d hd
    have hlt := Nat.digits_lt_base (by norm_num : 1<2^32) hd
    apply asInt_int
    · omega
    · omega
  have hback : ((Nat.digits (2^32) n.natAbs).map (fun d : Nat => (d : Int))).map Int.toNat=
      Nat.digits (2^32) n.natAbs := by
    have hid : Int.toNat∘(fun d : Nat => (d : Int))=id := funext Int.toNat_natCast
    rw [List.map_map,hid,List.map_id]
  rw [ofBigInt,asBigInt,hs,hd]
  change Except.ok _=_
  rw [hback,Nat.ofDigits_digits,Int.sign_mul_natAbs]

end BigIntegers

end Json

end InterpretThis
