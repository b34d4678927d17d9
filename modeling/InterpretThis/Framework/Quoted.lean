import Mathlib.Data.Nat.Notation
import Mathlib.Algebra.Order.Ring.Nat
import Mathlib.Data.List.GetD
import Mathlib.Tactic.Ring

namespace InterpretThis.Quoted

def hexChars : List Char := "0123456789abcdef".toList

/-- The last `w` hexadecimal digits of a number. -/
def hexDigits : ℕ → ℕ → List Char
  | 0,_ => []
  | w+1,n => hexDigits w (n/16)++[hexChars.getD (n%16) '0']

def hexDigitValue (c : Char) : Option ℕ :=
  if 48 ≤ c.toNat ∧ c.toNat ≤ 57 then some (c.toNat-48)
  else if 97 ≤ c.toNat ∧ c.toNat ≤ 102 then some (c.toNat-87)
  else if 65 ≤ c.toNat ∧ c.toNat ≤ 70 then some (c.toNat-55)
  else none

/-- Exactly `w` digits, above the value read so far. -/
def readHex : ℕ → ℕ → List Char → Option (ℕ×List Char)
  | 0,m,t => some (m,t)
  | _+1,_,[] => none
  | w+1,m,c::t => (hexDigitValue c).bind fun d => readHex w (16*m+d) t

section Hex

theorem hexDigitValue_getD {d : ℕ} (h : d<16) : hexDigitValue (hexChars.getD d '0')=some d := by
  have all : ∀ e : Fin 16,hexDigitValue (hexChars.getD e '0')=some e.val := by decide
  exact all ⟨d,h⟩

theorem hexDigits_mem {w n : ℕ} {c : Char} (h : c∈hexDigits w n) : c∈hexChars := by
  induction w generalizing n with
  | zero => cases h
  | succ w ih =>
    rcases List.mem_append.mp h with h | h
    · exact ih h
    · have hlt : n%16<hexChars.length := Nat.mod_lt n (by decide)
      rw [List.getD_eq_getElem _ _ hlt] at h
      rw [List.mem_singleton.mp h]
      exact List.getElem_mem hlt

theorem readHex_digits (w v m n : ℕ) (t : List Char) (h : n<16^w) :
    readHex (w+v) m (hexDigits w n++t)=readHex v (16^w*m+n) t := by
  induction w generalizing v n t with
  | zero =>
    have hn : n=0 := by omega
    rw [hexDigits,hn,Nat.zero_add,pow_zero,one_mul]
    rfl
  | succ w ih =>
    have hdiv : n/16<16^w := by
      rw [Nat.div_lt_iff_lt_mul (by decide),← pow_succ]
      exact h
    have hsplit := Nat.div_add_mod n 16
    have hval : 16*(16^w*m+n/16)+n%16=16^(w+1)*m+n := by
      calc 16*(16^w*m+n/16)+n%16=16^(w+1)*m+(16*(n/16)+n%16) := by ring
        _=16^(w+1)*m+n := by rw [hsplit]
    rw [hexDigits,List.append_assoc,Nat.add_assoc w 1 v,Nat.add_comm 1 v,ih (v+1) _ _ hdiv,
      List.singleton_append,readHex,hexDigitValue_getD (Nat.mod_lt n (by decide)),
      Option.bind_some,hval]

end Hex

variable {α : Type}

/-- The elements up to the first quote, and what follows it. -/
def readBody (quote : Char) (next : List Char → Option (α×List Char)) :
    ℕ → List Char → Option (List α×List Char)
  | 0,_ => none
  | _+1,[] => none
  | n+1,c::t =>
    if c=quote then some ([],t)
    else (next (c::t)).bind fun p => (readBody quote next n p.2).map fun q => (p.1::q.1,q.2)

/-- A code whose words are read back one by one and never begin with the quote. -/
structure Code (quote : Char) (next : List Char → Option (α×List Char)) (code : α → List Char) :
    Prop where
  starts : ∀ a,∃c t,code a=c::t ∧ c≠quote
  reads : ∀ a t,next (code a++t)=some (a,t)

section Body

variable {quote : Char} {next : List Char → Option (α×List Char)} {code : α → List Char}

theorem Code.length_le (h : Code quote next code) (xs : List α) :
    xs.length ≤ (xs.flatMap code).length := by
  induction xs with
  | nil => exact Nat.le_refl 0
  | cons x xs ih =>
    obtain ⟨c,t,hc,-⟩ := h.starts x
    rw [List.flatMap_cons,hc,List.length_append,List.length_cons,List.length_cons]
    omega

/-- The closing quote is the first one read as a quote. -/
theorem Code.readBody_eq (h : Code quote next code) (xs : List α) (t : List Char) {n : ℕ}
    (hn : xs.length<n) : readBody quote next n (xs.flatMap code++quote::t)=some (xs,t) := by
  induction xs generalizing n with
  | nil =>
    cases n with
    | zero => exact absurd hn (Nat.not_lt_zero _)
    | succ n => exact if_pos rfl
  | cons x xs ih =>
    cases n with
    | zero => exact absurd hn (Nat.not_lt_zero _)
    | succ n =>
      obtain ⟨c,u,hc,hne⟩ := h.starts x
      have step := h.reads x (xs.flatMap code++quote::t)
      rw [List.flatMap_cons,List.append_assoc]
      rw [hc,List.cons_append] at step ⊢
      rw [readBody,if_neg hne,step,Option.bind_some,ih (Nat.lt_of_succ_lt_succ hn)]
      rfl

end Body

end InterpretThis.Quoted
