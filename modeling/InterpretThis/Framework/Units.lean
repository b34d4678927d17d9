import InterpretThis.Framework.Bytes
import Mathlib.Data.List.Basic
import Mathlib.Data.List.Flatten
import Mathlib.Tactic.SplitIfs

namespace InterpretThis

inductive ByteOrder where
  | little
  | big
  deriving DecidableEq

namespace Bytes

/-- The `k` bytes of a number in the given order. -/
def ofNumber (order : ByteOrder) (k n : ℕ) : List UInt8 :=
  match order with
  | .little => (bigEndian k n).reverse
  | .big => bigEndian k n

def toNumber (order : ByteOrder) (bytes : List UInt8) : ℕ :=
  match order with
  | .little => number bytes.reverse
  | .big => number bytes

@[simp] theorem length_ofNumber (order : ByteOrder) (k n : ℕ) : (ofNumber order k n).length=k := by
  cases order <;> simp [ofNumber]

theorem toNumber_ofNumber (order : ByteOrder) (k n : ℕ) (hn : n<256^k) :
    toNumber order (ofNumber order k n)=n := by
  cases order with
  | little =>
    simp only [toNumber,ofNumber,List.reverse_reverse,number_bigEndian]
    exact Nat.mod_eq_of_lt hn
  | big =>
    simp only [toNumber,ofNumber,number_bigEndian]
    exact Nat.mod_eq_of_lt hn

theorem ofNumber_toNumber (order : ByteOrder) (bytes : List UInt8) :
    ofNumber order bytes.length (toNumber order bytes)=bytes := by
  cases order with
  | little =>
    have h := bigEndian_number bytes.reverse
    rw [List.length_reverse] at h
    simp only [toNumber,ofNumber,h,List.reverse_reverse]
  | big => exact bigEndian_number bytes

theorem toNumber_lt (order : ByteOrder) (bytes : List UInt8) :
    toNumber order bytes<256^bytes.length := by
  cases order with
  | little =>
    have h := number_lt bytes.reverse
    rw [List.length_reverse] at h
    exact h
  | big => exact number_lt bytes

end Bytes

namespace Units

variable {α : Type}

/-- The first `n` blocks of `k` elements. -/
def blocks (k : ℕ) : ℕ → List α → List (List α)
  | 0,_ => []
  | n+1,xs => xs.take k::blocks k n (xs.drop k)

/-- The whole blocks of `k` elements; what is left at the end is dropped. -/
def chunksExact (k : ℕ) (xs : List α) : List (List α) := blocks k (xs.length/k) xs

theorem flatten_blocks (k n : ℕ) (xs : List α) : (blocks k n xs).flatten=xs.take (k*n) := by
  induction n generalizing xs with
  | zero => rfl
  | succ n ih =>
    have hsplit : k*(n+1)=k+k*n := by rw [Nat.mul_succ,Nat.add_comm]
    rw [blocks,List.flatten_cons,ih,hsplit,List.take_add]

theorem length_of_mem_blocks (k n : ℕ) (xs : List α) (hn : k*n≤xs.length) :
    ∀ block∈blocks k n xs,block.length=k := by
  induction n generalizing xs with
  | zero => exact fun _ h => nomatch h
  | succ n ih =>
    have hsplit : k*(n+1)=k*n+k := Nat.mul_succ k n
    intro block hb
    rw [blocks,List.mem_cons] at hb
    obtain rfl | hb := hb
    · rw [List.length_take]
      omega
    · refine ih (xs.drop k) ?_ block hb
      rw [List.length_drop]
      omega

theorem blocks_flatten (k : ℕ) (pieces : List (List α)) (hp : ∀ block∈pieces,block.length=k) :
    blocks k pieces.length pieces.flatten=pieces := by
  induction pieces with
  | nil => rfl
  | cons piece pieces ih =>
    have hk : piece.length=k := hp piece List.mem_cons_self
    have hrest := ih fun block hb => hp block (List.mem_cons_of_mem _ hb)
    rw [List.length_cons,blocks,List.flatten_cons,List.take_left' hk,List.drop_left' hk,hrest]

theorem length_flatten_of_uniform (k : ℕ) (pieces : List (List α))
    (hp : ∀ block∈pieces,block.length=k) : pieces.flatten.length=k*pieces.length := by
  induction pieces with
  | nil => rfl
  | cons piece pieces ih =>
    have hk : piece.length=k := hp piece List.mem_cons_self
    have hrest := ih fun block hb => hp block (List.mem_cons_of_mem _ hb)
    rw [List.flatten_cons,List.length_append,hk,hrest,List.length_cons,Nat.mul_succ,Nat.add_comm]

theorem length_of_mem_chunksExact (k : ℕ) (xs : List α) :
    ∀ block∈chunksExact k xs,block.length=k :=
  length_of_mem_blocks k _ xs (Nat.mul_div_le _ _)

theorem chunksExact_flatten (k : ℕ) (hk : 0<k) (pieces : List (List α))
    (hp : ∀ block∈pieces,block.length=k) : chunksExact k pieces.flatten=pieces := by
  unfold chunksExact
  rw [length_flatten_of_uniform k pieces hp,Nat.mul_div_cancel_left _ hk]
  exact blocks_flatten k pieces hp

theorem flatten_chunksExact (k : ℕ) (xs : List α) (hx : k∣xs.length) :
    (chunksExact k xs).flatten=xs := by
  unfold chunksExact
  rw [flatten_blocks,Nat.mul_div_cancel' hx,List.take_length]

def read (order : ByteOrder) (k : ℕ) (bytes : List UInt8) : List ℕ :=
  (chunksExact k bytes).map (Bytes.toNumber order)

def write (order : ByteOrder) (k : ℕ) (units : List ℕ) : List UInt8 :=
  units.flatMap (Bytes.ofNumber order k)

theorem read_write (order : ByteOrder) (k : ℕ) (hk : 0<k) (units : List ℕ)
    (hu : ∀ u∈units,u<256^k) : read order k (write order k units)=units := by
  have hpieces : ∀ block∈units.map (Bytes.ofNumber order k),block.length=k := by
    intro block hb
    obtain ⟨u,_,rfl⟩ := List.mem_map.mp hb
    exact Bytes.length_ofNumber order k u
  have hround : ∀ u∈units,Bytes.toNumber order (Bytes.ofNumber order k u)=u :=
    fun u h => Bytes.toNumber_ofNumber order k u (hu u h)
  unfold read write
  rw [List.flatMap_def,chunksExact_flatten k hk _ hpieces,List.map_map]
  exact (List.map_congr_left hround).trans (List.map_id units)

theorem write_read (order : ByteOrder) (k : ℕ) (bytes : List UInt8) (hb : k∣bytes.length) :
    write order k (read order k bytes)=bytes := by
  have hround : ∀ block∈chunksExact k bytes,
      Bytes.ofNumber order k (Bytes.toNumber order block)=block := by
    intro block h
    have hlen := length_of_mem_chunksExact k bytes block h
    have hblock := Bytes.ofNumber_toNumber order block
    rw [hlen] at hblock
    exact hblock
  unfold read write
  rw [List.flatMap_def,List.map_map]
  have hsame := (List.map_congr_left hround).trans (List.map_id (chunksExact k bytes))
  exact (congrArg List.flatten hsame).trans (flatten_chunksExact k bytes hb)

theorem length_write (order : ByteOrder) (k : ℕ) (units : List ℕ) :
    (write order k units).length=k*units.length := by
  have hp : ∀ block∈units.map (Bytes.ofNumber order k),block.length=k := by
    intro block hb
    obtain ⟨u,_,rfl⟩ := List.mem_map.mp hb
    exact Bytes.length_ofNumber order k u
  unfold write
  rw [List.flatMap_def,length_flatten_of_uniform k _ hp,List.length_map]

theorem read_lt (order : ByteOrder) (k : ℕ) (bytes : List UInt8) :
    ∀ u∈read order k bytes,u<256^k := by
  intro u hu
  obtain ⟨block,hb,rfl⟩ := List.mem_map.mp hu
  have h := Bytes.toNumber_lt order block
  rw [length_of_mem_chunksExact k bytes block hb] at h
  exact h

end Units

abbrev SymbolReader (α β ε : Type) := List β → Except ε (α×List β)

namespace SymbolReader

variable {α β ε : Type}

/-- Read symbols up to the end of the input or up to a fault, with what is left there. -/
def scan (read : SymbolReader α β ε) : ℕ → List β → List α×Option (List β×ε)
  | _,[] => ([],none)
  | 0,_::_ => ([],none)
  | fuel+1,b::bs =>
    match read (b::bs) with
    | .error e => ([],some (b::bs,e))
    | .ok (a,rest) => ((a::(scan read fuel rest).1),(scan read fuel rest).2)

/-- The symbols of an input that is read to its end. -/
def readAll (read : SymbolReader α β ε) (input : List β) : Option (List α) :=
  match scan read input.length input with
  | (symbols,none) => some symbols
  | (_,some _) => none

/-- The reader takes exactly what the writer puts. -/
structure Inverts (read : SymbolReader α β ε) (put : α → List β) : Prop where
  put_ne_nil : ∀ a,put a≠[]
  read_put : ∀ a rest,read (put a++rest)=.ok (a,rest)
  put_read : ∀ input a rest,read input=.ok (a,rest) → input=put a++rest

variable {read : SymbolReader α β ε} {put : α → List β}

theorem scan_nil (fuel : ℕ) : scan read fuel []=([],none) := by
  cases fuel <;> rfl

theorem Inverts.scan_put (h : Inverts read put) (a : α) (fuel : ℕ) (rest : List β) :
    scan read (fuel+1) (put a++rest)=
      ((a::(scan read fuel rest).1),(scan read fuel rest).2) := by
  have hr := h.read_put a rest
  cases hp : put a with
  | nil => exact absurd hp (h.put_ne_nil a)
  | cons b bs =>
    rw [hp,List.cons_append] at hr
    rw [List.cons_append]
    simp only [scan,hr]

theorem Inverts.scan_flatMap (h : Inverts read put) (symbols : List α) :
    ∀ fuel,symbols.length≤fuel → scan read fuel (symbols.flatMap put)=(symbols,none) := by
  induction symbols with
  | nil => exact fun fuel _ => scan_nil fuel
  | cons a symbols ih =>
    intro fuel hf
    cases fuel with
    | zero => exact absurd hf (Nat.not_succ_le_zero _)
    | succ fuel =>
      have hrest := ih fuel (Nat.le_of_succ_le_succ hf)
      rw [List.flatMap_cons,h.scan_put,hrest]

theorem Inverts.length_le (h : Inverts read put) (symbols : List α) :
    symbols.length≤(symbols.flatMap put).length := by
  induction symbols with
  | nil => exact Nat.zero_le _
  | cons a symbols ih =>
    have hp : 0<(put a).length := List.length_pos_iff.mpr (h.put_ne_nil a)
    rw [List.flatMap_cons,List.length_append,List.length_cons]
    omega

theorem Inverts.readAll_flatMap (h : Inverts read put) (symbols : List α) :
    readAll read (symbols.flatMap put)=some symbols := by
  unfold readAll
  rw [h.scan_flatMap symbols _ (h.length_le symbols)]

theorem Inverts.flatMap_scan (h : Inverts read put) :
    ∀ (fuel : ℕ) (input : List β) (symbols : List α),input.length≤fuel →
      scan read fuel input=(symbols,none) → input=symbols.flatMap put := by
  intro fuel
  induction fuel with
  | zero =>
    intro input symbols hf hs
    have hi : input=[] := List.length_eq_zero_iff.mp (Nat.le_zero.mp hf)
    subst hi
    rw [scan_nil,Prod.mk.injEq] at hs
    rw [← hs.1,List.flatMap_nil]
  | succ fuel ih =>
    intro input symbols hf hs
    cases input with
    | nil =>
      rw [scan_nil,Prod.mk.injEq] at hs
      rw [← hs.1,List.flatMap_nil]
    | cons b bs =>
      cases hr : read (b::bs) with
      | error e => simp [scan,hr] at hs
      | ok step =>
        obtain ⟨a,rest⟩ := step
        simp only [scan,hr,Prod.mk.injEq] at hs
        have hinput := h.put_read _ a rest hr
        have hp : 0<(put a).length := List.length_pos_iff.mpr (h.put_ne_nil a)
        have hlen := congrArg List.length hinput
        rw [List.length_append] at hlen
        have hrest := ih rest (scan read fuel rest).1 (by omega) (Prod.ext rfl hs.2)
        rw [← hs.1,List.flatMap_cons,← hrest]
        exact hinput

theorem Inverts.readAll_eq_some_iff (h : Inverts read put) (input : List β) (symbols : List α) :
    readAll read input=some symbols ↔ input=symbols.flatMap put := by
  constructor
  · intro hr
    unfold readAll at hr
    split at hr
    next found hs =>
      rw [← Option.some.inj hr]
      exact h.flatMap_scan _ input found (Nat.le_refl _) hs
    next => cases hr
  · intro hi
    rw [hi]
    exact h.readAll_flatMap symbols

end SymbolReader
end InterpretThis
