import InterpretThis.Framework.Bytes
import InterpretThis.Codecs.Encode
import Mathlib.Tactic.IntervalCases

namespace InterpretThis
namespace Base32

open Bits
open Codecs (Text asBytes Failure decodeAround readUtf8)

/-- `B32_ALPHABET`. -/
def alphabet : List UInt8 :=
  "ABCDEFGHIJKLMNOPQRSTUVWXYZ234567".toList.map fun c => UInt8.ofNat c.toNat

def padding : UInt8 := 61

/-- `slice::chunks`: the last chunk may be short. -/
def chunks (k : ℕ) (input : List UInt8) : List (List UInt8) :=
  Units.blocks k ((input.length+k-1)/k) input

/-- The (up to) 40 bits of a chunk. -/
def packed (chunk : List UInt8) : ℕ :=
  let buf := (chunk++List.replicate (5-chunk.length) 0).map UInt8.toNat
  (buf.getD 0 0<<<32)|||(buf.getD 1 0<<<24)|||(buf.getD 2 0<<<16)|||(buf.getD 3 0<<<8)|||
    buf.getD 4 0

/-- The output characters that carry data. -/
def outChars : ℕ → ℕ
  | 1 => 2
  | 2 => 4
  | 3 => 5
  | 4 => 7
  | _ => 8

def encodeChunk (chunk : List UInt8) : List UInt8 :=
  (List.range 8).map fun i =>
    if i<outChars chunk.length then alphabet.getD ((packed chunk>>>(35-i*5))&&&0x1f) 0 else padding

def b32encode (input : List UInt8) : List UInt8 := (chunks 5 input).flatMap encodeChunk

structure Decoder where
  out : List UInt8
  bits : ℕ
  nbits : ℕ

def digitError : Failure := .valueError "Non-base32 digit found".toList

def decodeStep (s : Decoder) (c : UInt8) : Except Failure Decoder :=
  match alphabet.idxOf? c with
  | none => .error digitError
  | some val =>
    let bits := ((s.bits<<<5)%2^64)|||val
    let nbits := s.nbits+5
    if 8≤nbits then .ok ⟨s.out++[UInt8.ofNat (bits>>>(nbits-8))],bits,nbits-8⟩
    else .ok ⟨s.out,bits,nbits⟩

def b32decode (input : List UInt8) : Except Failure (List UInt8) :=
  match (input.filter (·≠padding)).foldlM decodeStep ⟨[],0,0⟩ with
  | .ok s => .ok s.out
  | .error e => .error e

/-- `String::from_utf8_lossy`. -/
def fromUtf8Lossy (b : List UInt8) : Text :=
  decodeAround [Char.ofNat 0xFFFD] [Char.ofNat 0xFFFD] (b.length+1) b

inductive Argument where
  | bytes (b : List UInt8)
  | str (s : Text)
  | other (typeName : Text)

def argBytes (func : Text) : List Argument → Except Failure (List UInt8)
  | [] => .error (.typeError (func++"() missing required argument".toList))
  | .bytes b::_ => .ok b
  | .str s::_ => .ok (asBytes s)
  | .other typeName::_ => .error (.typeError
      (func++"() requires bytes or str (got '".toList++typeName++"')".toList))

/-- The base32 functions of `call`. -/
inductive Function where
  | b32encode
  | b32decode

def Function.name : Function → Text
  | .b32encode => "b32encode".toList
  | .b32decode => "b32decode".toList

def call (func : Function) (args : List Argument) : Except Failure (List UInt8) :=
  match argBytes func.name args with
  | .error e => .error e
  | .ok input =>
    match func with
    | .b32encode => .ok (b32encode input)
    | .b32decode => b32decode (asBytes (fromUtf8Lossy input))

section Alphabet

def letter (n : ℕ) : UInt8 := alphabet.getD n 0

def digit (c : UInt8) : ℕ := alphabet.idxOf c

theorem length_alphabet : alphabet.length=32 := by decide

theorem digit_letter : ∀ n<32,alphabet.idxOf? (letter n)=some n := by decide

theorem digit_of_letter : ∀ n<32,digit (letter n)=n := by decide

theorem letter_mem : ∀ n<32,letter n∈alphabet := by decide

theorem padding_not_letter : padding∉alphabet := by decide

theorem alphabet_ascii : ∀ c∈alphabet,c<0x80 := by
  set_option maxRecDepth 20000 in decide

theorem digit_lt {c : UInt8} (hc : c∈alphabet) : digit c<32 :=
  length_alphabet ▸ List.idxOf_lt_length_iff.mpr hc

theorem letter_digit {c : UInt8} (hc : c∈alphabet) : letter (digit c)=c := by
  have hlt : alphabet.idxOf c<alphabet.length := List.idxOf_lt_length_iff.mpr hc
  rw [letter,digit,List.getD_eq_getElem _ _ hlt,List.getElem_idxOf]

theorem map_letter_digit {letters : List UInt8} (hl : ∀ c∈letters,c∈alphabet) :
    (letters.map digit).map letter=letters := by
  rw [List.map_map]
  exact (List.map_congr_left fun c hc => letter_digit (hl c hc)).trans (List.map_id letters)

end Alphabet

section Encoder

def digitsOfChunk (chunk : List UInt8) : List ℕ :=
  (List.range (outChars chunk.length)).map fun i => (packed chunk>>>(35-i*5))&&&0x1f

theorem and_digit (n : ℕ) : n&&&0x1f=n%2^5 := Nat.and_two_pow_sub_one_eq_mod n 5

theorem digitsOfChunk_lt (chunk : List UInt8) : ∀ n∈digitsOfChunk chunk,n<32 := by
  intro n hn
  obtain ⟨i,_,rfl⟩ := List.mem_map.mp hn
  rw [and_digit]
  exact Nat.mod_lt _ (by decide)

/-- The digits from the top of 40 bits are their first bits. -/
theorem spelled_digits (n k : ℕ) (hk : k≤8) :
    spelled 5 ((List.range k).map fun i => (n>>>(35-i*5))&&&0x1f)=(low 40 n).take (5*k) := by
  have hcut : low 40 n=low (5*k) (n>>>(40-5*k))++low (40-5*k) n := by
    rw [← low_add]
    congr 1
    omega
  rw [hcut,List.take_left' (length_low _ _)]
  clear hcut
  induction k with
  | zero => rfl
  | succ k ih =>
    have hshift : n>>>(40-5*(k+1))>>>5=n>>>(40-5*k) := by
      rw [← Nat.shiftRight_add]
      congr 1
      omega
    have hlast : 35-k*5=40-5*(k+1) := by omega
    have hsplit : 5*(k+1)=5*k+5 := by omega
    rw [List.range_succ,List.map_append,spelled_append,ih (by omega),hsplit,low_add,← hsplit,hshift,
      List.map_singleton,spelled_cons,spelled_nil,List.append_nil,and_digit,
      low_mod 5 5 _ (by decide),
      hlast]

theorem low_packed (a b c d e : ℕ) (hb : b<2^8) (hc : c<2^8) (hd : d<2^8) (he : e<2^8) :
    low 40 ((a<<<32)|||(b<<<24)|||(c<<<16)|||(d<<<8)|||e)=spelled 8 [a,b,c,d,e] := by
  have hnest : (a<<<32)|||(b<<<24)|||(c<<<16)|||(d<<<8)|||e=
      ((((a<<<8|||b)<<<8|||c)<<<8|||d)<<<8)|||e := by
    simp only [Nat.shiftLeft_or_distrib,← Nat.shiftLeft_add]
  rw [hnest,low_shift_or 32 8 _ _ he,low_shift_or 24 8 _ _ hd,low_shift_or 16 8 _ _ hc,
    low_shift_or 8 8 _ _ hb]
  simp [List.append_assoc]

theorem byte_lt (b : UInt8) : b.toNat<2^8 := b.toNat_lt

theorem low_packed_chunk (chunk : List UInt8) (h0 : 0<chunk.length) (h5 : chunk.length≤5) :
    low 40 (packed chunk)=
      spelled 8 (chunk.map UInt8.toNat)++List.replicate (40-8*chunk.length) false := by
  match chunk,h0,h5 with
  | [a],_,_ => exact low_packed a.toNat 0 0 0 0 (by decide) (by decide) (by decide) (by decide)
  | [a,b],_,_ =>
    exact low_packed a.toNat b.toNat 0 0 0 (byte_lt b) (by decide) (by decide) (by decide)
  | [a,b,c],_,_ =>
    exact low_packed a.toNat b.toNat c.toNat 0 0 (byte_lt b) (byte_lt c) (by decide) (by decide)
  | [a,b,c,d],_,_ =>
    exact low_packed a.toNat b.toNat c.toNat d.toNat 0 (byte_lt b) (byte_lt c) (byte_lt d)
      (by decide)
  | [a,b,c,d,e],_,_ =>
    exact low_packed a.toNat b.toNat c.toNat d.toNat e.toNat (byte_lt b) (byte_lt c) (byte_lt d)
      (byte_lt e)

/-- What the digits of a text are to the bytes it encodes. -/
structure Encodes (input : List UInt8) (ns : List ℕ) (pad : ℕ) : Prop where
  digits : ∀ n∈ns,n<32
  bits : ∃ z<5,spelled 5 ns=spelled 8 (input.map UInt8.toNat)++List.replicate z false
  pads : pad∈[0,1,3,4,6]
  length : ns.length+pad=8*((input.length+4)/5)
  text : b32encode input=ns.map letter++List.replicate pad padding

theorem encodeChunk_eq (chunk : List UInt8) :
    encodeChunk chunk=(digitsOfChunk chunk).map letter++
      List.replicate (8-outChars chunk.length) padding := by
  have hout : outChars chunk.length=2 ∨ outChars chunk.length=4 ∨ outChars chunk.length=5 ∨
      outChars chunk.length=7 ∨ outChars chunk.length=8 := by
    unfold outChars
    split <;> simp
  obtain h | h | h | h | h := hout <;>
    simp [encodeChunk,digitsOfChunk,h,List.range_succ,letter,List.replicate]

theorem outChars_bits {n : ℕ} (h0 : 0<n) (h5 : n≤5) :
    8*n≤5*outChars n ∧ 5*outChars n<8*n+5 ∧ outChars n≤8 ∧ 8-outChars n∈[0,1,3,4,6] := by
  interval_cases n <;> simp [outChars]

theorem spelled_chunk (chunk : List UInt8) (h0 : 0<chunk.length) (h5 : chunk.length≤5) :
    spelled 5 (digitsOfChunk chunk)=spelled 8 (chunk.map UInt8.toNat)++
      List.replicate (5*outChars chunk.length-8*chunk.length) false := by
  obtain ⟨hle,_,h8,_⟩ := outChars_bits h0 h5
  have hlen : (spelled 8 (chunk.map UInt8.toNat)).length=8*chunk.length := by
    rw [length_spelled,List.length_map]
  have hpad : 5*outChars chunk.length-8*chunk.length≤40-8*chunk.length := by omega
  rw [digitsOfChunk,spelled_digits _ _ h8,low_packed_chunk chunk h0 h5,List.take_append,hlen,
    List.take_of_length_le (hlen.trans_le hle),List.take_replicate,Nat.min_eq_left hpad]

theorem chunks_cons (chunk rest : List UInt8) (h : chunk.length=5) :
    chunks 5 (chunk++rest)=chunk::chunks 5 rest := by
  have hcount : ((chunk++rest).length+5-1)/5=(rest.length+5-1)/5+1 := by
    rw [List.length_append,h]
    omega
  rw [chunks,hcount,Units.blocks,List.take_left' h,List.drop_left' h,chunks]

theorem chunks_single (chunk : List UInt8) (h0 : 0<chunk.length) (h5 : chunk.length≤5) :
    chunks 5 chunk=[chunk] := by
  have hcount : (chunk.length+5-1)/5=0+1 := by omega
  rw [chunks,hcount,Units.blocks,Units.blocks,List.take_of_length_le h5]

theorem encodes_nil : Encodes [] [] 0 where
  digits := fun n hn => nomatch hn
  bits := ⟨0,by decide,rfl⟩
  pads := by decide
  length := rfl
  text := rfl

theorem encodes_last (chunk : List UInt8) (h0 : 0<chunk.length) (h5 : chunk.length≤5) :
    Encodes chunk (digitsOfChunk chunk) (8-outChars chunk.length) where
  digits := digitsOfChunk_lt chunk
  bits := by
    obtain ⟨hle,hlt,_,_⟩ := outChars_bits h0 h5
    exact ⟨_,by omega,spelled_chunk chunk h0 h5⟩
  pads := (outChars_bits h0 h5).2.2.2
  length := by
    have h8 := (outChars_bits h0 h5).2.2.1
    rw [digitsOfChunk,List.length_map,List.length_range]
    omega
  text := by
    rw [b32encode,chunks_single chunk h0 h5,List.flatMap_singleton,encodeChunk_eq]

/-- A whole chunk in front. -/
theorem Encodes.cons {chunk rest : List UInt8} {ns : List ℕ} {pad : ℕ} (h : Encodes rest ns pad)
    (h5 : chunk.length=5) : Encodes (chunk++rest) (digitsOfChunk chunk++ns) pad where
  digits := by
    intro n hn
    obtain hn | hn := List.mem_append.mp hn
    · exact digitsOfChunk_lt chunk n hn
    · exact h.digits n hn
  bits := by
    obtain ⟨z,hz,hbits⟩ := h.bits
    have hfirst := spelled_chunk chunk (by omega) (by omega)
    simp only [h5,outChars,Nat.sub_self,List.replicate_zero,List.append_nil] at hfirst
    refine ⟨z,hz,?_⟩
    rw [spelled_append,hfirst,hbits,List.map_append,spelled_append,List.append_assoc]
  pads := h.pads
  length := by
    have hlen := h.length
    have hdigits : (digitsOfChunk chunk).length=8 := by simp [digitsOfChunk,h5,outChars]
    rw [List.length_append,List.length_append,hdigits,h5]
    omega
  text := by
    have hchunk := encodeChunk_eq chunk
    simp only [h5,outChars,Nat.sub_self,List.replicate_zero,List.append_nil] at hchunk
    have hrest := h.text
    rw [b32encode] at hrest
    rw [b32encode,chunks_cons chunk rest h5,List.flatMap_cons,hchunk,hrest,List.map_append,
      List.append_assoc]

theorem exists_encodes (input : List UInt8) : ∃ ns pad,Encodes input ns pad := by
  induction hn : input.length using Nat.strongRecOn generalizing input with
  | _ n ih =>
    obtain h0 | h0 := Nat.eq_zero_or_pos input.length
    · rw [List.length_eq_zero_iff.mp h0]
      exact ⟨[],0,encodes_nil⟩
    · by_cases h5 : input.length≤5
      · exact ⟨_,_,encodes_last input h0 h5⟩
      · have htake : (input.take 5).length=5 := by
          rw [List.length_take]
          omega
        obtain ⟨ns,pad,hrest⟩ := ih (input.drop 5).length (by rw [List.length_drop]; omega)
          (input.drop 5) rfl
        have hall := hrest.cons htake
        rw [List.take_append_drop] at hall
        exact ⟨_,_,hall⟩

end Encoder

section Decoding

def Decoder.held (s : Decoder) : List Bool :=
  spelled 8 (s.out.map UInt8.toNat)++low s.nbits s.bits

theorem decodeStep_letter (s : Decoder) (n : ℕ) (hs : s.nbits<8) (hn : n<32) :
    ∃ s',decodeStep s (letter n)=.ok s' ∧ s'.nbits<8 ∧ s'.held=s.held++low 5 n := by
  have hshift : low (s.nbits+5) (((s.bits<<<5)%2^64)|||n)=low s.nbits s.bits++low 5 n := by
    rw [← low_shift_or s.nbits 5 s.bits n hn]
    apply low_congr
    intro i hi
    have h64 : i<64 := by omega
    rw [Nat.testBit_or,Nat.testBit_or,Nat.testBit_mod_two_pow]
    simp only [h64,decide_true,Bool.true_and]
  simp only [decodeStep,digit_letter n hn]
  by_cases h8 : 8 ≤ s.nbits+5
  · rw [if_pos h8]
    refine ⟨_,rfl,by simp only; omega,?_⟩
    have hsplit : s.nbits+5=8+(s.nbits+5-8) := by omega
    have hbyte : ∀ m : ℕ,low 8 (UInt8.ofNat m).toNat=low 8 m := by
      intro m
      rw [UInt8.toNat_ofNat']
      exact low_mod 8 8 m (le_refl 8)
    rw [hsplit,low_add] at hshift
    simp only [Decoder.held,List.map_append,List.map_singleton,spelled_append,spelled_cons,
      spelled_nil,List.append_nil,hbyte,List.append_assoc]
    rw [hshift]
  · rw [if_neg h8]
    refine ⟨_,rfl,by simp only; omega,?_⟩
    simp only [Decoder.held,List.append_assoc]
    rw [hshift]

theorem decode_letters (ns : List ℕ) (hn : ∀ n∈ns,n<32) (s : Decoder) (hs : s.nbits<8) :
    ∃ s',(ns.map letter).foldlM decodeStep s=.ok s' ∧ s'.nbits<8 ∧
      s'.held=s.held++spelled 5 ns := by
  induction ns generalizing s with
  | nil => exact ⟨s,rfl,hs,by rw [spelled_nil,List.append_nil]⟩
  | cons n ns ih =>
    obtain ⟨s₁,hstep,hs₁,hheld₁⟩ := decodeStep_letter s n hs (hn n List.mem_cons_self)
    obtain ⟨s₂,hrun,hs₂,hheld₂⟩ := ih (fun x hx => hn x (List.mem_cons_of_mem _ hx)) s₁ hs₁
    refine ⟨s₂,?_,hs₂,?_⟩
    · rw [List.map_cons,List.foldlM_cons,hstep]
      exact hrun
    · rw [hheld₂,hheld₁,spelled_cons,List.append_assoc]

theorem decode_foreign (cs : List UInt8) (s : Decoder) (hc : ∃ c∈cs,c∉alphabet) :
    cs.foldlM decodeStep s=.error digitError := by
  induction cs generalizing s with
  | nil =>
    obtain ⟨c,hc,_⟩ := hc
    cases hc
  | cons c cs ih =>
    rw [List.foldlM_cons]
    by_cases hmem : c∈alphabet
    · have hrest : ∃ d∈cs,d∉alphabet := by
        obtain ⟨d,hd,hout⟩ := hc
        obtain rfl | hd := List.mem_cons.mp hd
        · exact absurd hmem hout
        · exact ⟨d,hd,hout⟩
      cases hstep : decodeStep s c with
      | error e =>
        unfold decodeStep at hstep
        split at hstep
        · cases hstep
          rfl
        · dsimp only at hstep
          split_ifs at hstep
      | ok s' => exact ih s' hrest
    · have hnone : alphabet.idxOf? c=none := List.idxOf?_eq_none_iff.mpr hmem
      simp only [decodeStep,hnone]
      rfl

/-- Some byte is neither a letter nor padding. -/
def Foreign (t : List UInt8) : Prop := ∃ c∈t,c≠padding ∧ c∉alphabet

theorem b32decode_foreign {t : List UInt8} (h : Foreign t) : b32decode t=.error digitError := by
  obtain ⟨c,hc,hpad,hmem⟩ := h
  have hkept : c∈t.filter (·≠padding) := List.mem_filter.mpr ⟨hc,decide_eq_true hpad⟩
  rw [b32decode,decode_foreign _ _ ⟨c,hkept,hmem⟩]

theorem b32decode_ok {t : List UInt8} (h : ¬Foreign t) :
    ∃ s : Decoder,b32decode t=.ok s.out ∧ s.nbits<8 ∧
      s.held=spelled 5 ((t.filter (·≠padding)).map digit) := by
  have hletters : ∀ c∈t.filter (·≠padding),c∈alphabet := by
    intro c hc
    obtain ⟨hc,hpad⟩ := List.mem_filter.mp hc
    by_contra hmem
    exact h ⟨c,hc,of_decide_eq_true hpad,hmem⟩
  have hdigits : ∀ n∈(t.filter (·≠padding)).map digit,n<32 := by
    intro n hn
    obtain ⟨c,hc,rfl⟩ := List.mem_map.mp hn
    exact digit_lt (hletters c hc)
  obtain ⟨s,hrun,hs,hheld⟩ := decode_letters _ hdigits ⟨[],0,0⟩ (by decide)
  rw [map_letter_digit hletters] at hrun
  exact ⟨s,by rw [b32decode,hrun],hs,hheld⟩

end Decoding

section Lossy

theorem putUtf8_ascii {c : Char} (h : ∀ b∈Codecs.putUtf8 c,b<0x80) : c.toNat<0x80 := by
  by_contra hc
  have hlead : ∀ n : ℕ,0x80≤n → n<256 → ¬UInt8.ofNat n<0x80 := by
    intro n hn h256 hlt
    have hnat := UInt8.lt_iff_toNat_lt.mp hlt
    rw [Codecs.toNat_byte n h256] at hnat
    exact absurd hnat (Nat.not_lt.mpr hn)
  have hbounds := Codecs.toNat_bounds c
  unfold Codecs.putUtf8 at h
  simp only [if_neg hc] at h
  split_ifs at h
  · exact hlead _ (by omega) (by omega) (h _ List.mem_cons_self)
  · exact hlead _ (by omega) (by omega) (h _ List.mem_cons_self)
  · exact hlead _ (by omega) (by omega) (h _ List.mem_cons_self)

theorem asBytes_ascii (t : List UInt8) (h : ∀ c∈t,c<0x80) :
    asBytes (t.map Codecs.charOfByte)=t := by
  induction t with
  | nil => rfl
  | cons b t ih =>
    have hb : b.toNat<0x80 := UInt8.lt_iff_toNat_lt.mp (h b List.mem_cons_self)
    have hchar : (Codecs.charOfByte b).toNat=b.toNat :=
      Codecs.toNat_ofNat b.toNat (Or.inl (by omega))
    have hput : Codecs.putUtf8 (Codecs.charOfByte b)=[b] := by
      simp only [Codecs.putUtf8,hchar,if_pos hb,UInt8.ofNat_toNat]
    have hrest := ih fun c hc => h c (List.mem_cons_of_mem _ hc)
    rw [asBytes] at hrest
    rw [asBytes,List.map_cons,List.flatMap_cons,hput,hrest,List.singleton_append]

theorem fromUtf8Lossy_cases (t : List UInt8) :
    t=asBytes (fromUtf8Lossy t) ∨ Char.ofNat 0xFFFD∈fromUtf8Lossy t := by
  rw [fromUtf8Lossy,decodeAround]
  match hscan : SymbolReader.scan readUtf8 t.length t with
  | (s,none) =>
    have hall : Codecs.fromUtf8 t=some s := by rw [Codecs.fromUtf8,SymbolReader.readAll,hscan]
    exact Or.inl ((Codecs.fromUtf8_eq_some_iff t s).mp hall)
  | (s,some (_,none)) => exact Or.inr (List.mem_append_right _ List.mem_cons_self)
  | (s,some (bad,some len)) =>
    exact Or.inr (List.mem_append_left _ (List.mem_append_right _ List.mem_cons_self))

theorem lossy_ascii (t : List UInt8) (h : ∀ c∈asBytes (fromUtf8Lossy t),c<0x80) :
    asBytes (fromUtf8Lossy t)=t := by
  obtain heq | hbad := fromUtf8Lossy_cases t
  · exact heq.symm
  · have hput : ∀ b∈Codecs.putUtf8 (Char.ofNat 0xFFFD),b<0x80 :=
      fun b hb => h b (List.mem_flatMap.mpr ⟨_,hbad,hb⟩)
    exact absurd (putUtf8_ascii hput) (by decide)

theorem lossy_of_ascii (t : List UInt8) (h : ∀ c∈t,c<0x80) : asBytes (fromUtf8Lossy t)=t := by
  have hread : Codecs.fromUtf8 t=some (t.map Codecs.charOfByte) :=
    (Codecs.fromUtf8_eq_some_iff _ _).mpr (asBytes_ascii t h).symm
  have hscan : SymbolReader.scan readUtf8 t.length t=(t.map Codecs.charOfByte,none) := by
    rw [Codecs.fromUtf8,SymbolReader.readAll] at hread
    split at hread
    · rename_i symbols hs
      rw [hs,Option.some.inj hread]
    · cases hread
  have hlossy : fromUtf8Lossy t=t.map Codecs.charOfByte := by
    rw [fromUtf8Lossy,decodeAround,hscan]
  rw [hlossy,asBytes_ascii t h]

theorem ascii_of_not_foreign {t : List UInt8} (h : ¬Foreign t) : ∀ c∈t,c<0x80 := by
  intro c hc
  by_cases hpad : c=padding
  · subst hpad
    decide
  · by_contra hlarge
    exact h ⟨c,hc,hpad,fun hmem => hlarge (alphabet_ascii c hmem)⟩

theorem foreign_lossy (t : List UInt8) : Foreign (asBytes (fromUtf8Lossy t)) ↔ Foreign t := by
  constructor
  · intro h
    by_contra hn
    rw [lossy_of_ascii t (ascii_of_not_foreign hn)] at h
    exact hn h
  · intro h
    by_contra hn
    rw [lossy_ascii t (ascii_of_not_foreign hn)] at hn
    exact hn h

theorem call_decode_foreign {t : List UInt8} (h : Foreign t) :
    call .b32decode [.bytes t]=.error digitError := b32decode_foreign ((foreign_lossy t).mpr h)

theorem call_decode {t : List UInt8} (h : ¬Foreign t) :
    call .b32decode [.bytes t]=b32decode t := by
  show b32decode (asBytes (fromUtf8Lossy t))=b32decode t
  rw [lossy_of_ascii t (ascii_of_not_foreign h)]

end Lossy

section Exact

/-- Letters of the alphabet, then padding up to a multiple of eight characters. -/
structure Written (letters : List UInt8) (pad : ℕ) (t : List UInt8) : Prop where
  text : t=letters++List.replicate pad padding
  letters : ∀ c∈letters,c∈alphabet
  pads : pad∈[0,1,3,4,6]
  whole : 8∣t.length

def WellFormed (t : List UInt8) : Prop := ∃ letters pad,Written letters pad t

/-- The bits after the last whole byte are zero. -/
def UnusedZero (letters : List UInt8) : Prop :=
  ∀ b∈(spelled 5 (letters.map digit)).drop (8*(5*letters.length/8)),b=false

/-- `b32decode` undoes `b32encode` on these bytes. -/
structure RoundTrips (d : List UInt8) : Prop where
  returns : ∃ e,call .b32encode [.bytes d]=.ok e ∧ e.length=8*((d.length+4)/5) ∧
    call .b32decode [.bytes e]=.ok d

/-- `b32decode` accepts this text as it should. -/
structure Accepts (t : List UInt8) : Prop where
  accepts : (∃ out,call .b32decode [.bytes t]=.ok out) ↔ WellFormed t
  reencodes : ∀ letters pad out,Written letters pad t → UnusedZero letters →
    call .b32decode [.bytes t]=.ok out → call .b32encode [.bytes out]=.ok t

variable {letters : List UInt8} {pad : ℕ} {d t out : List UInt8}

theorem Written.filter (h : Written letters pad t) : t.filter (·≠padding)=letters := by
  have hkeep : letters.filter (·≠padding)=letters := by
    apply List.filter_eq_self.mpr
    intro c hc
    exact decide_eq_true fun heq => padding_not_letter (heq ▸ h.letters c hc)
  have hdrop : (List.replicate pad padding).filter (·≠padding)=[] := by
    apply List.filter_eq_nil_iff.mpr
    intro c hc
    simp [List.eq_of_mem_replicate hc]
  rw [h.text,List.filter_append,hkeep,hdrop,List.append_nil]

theorem Written.not_foreign (h : Written letters pad t) : ¬Foreign t := by
  rintro ⟨c,hc,hpad,hmem⟩
  rw [h.text] at hc
  obtain hc | hc := List.mem_append.mp hc
  · exact hmem (h.letters c hc)
  · exact hpad (List.eq_of_mem_replicate hc)

theorem Encodes.written {ns : List ℕ} (h : Encodes d ns pad) :
    Written (ns.map letter) pad (b32encode d) where
  text := h.text
  letters := by
    intro c hc
    obtain ⟨n,hn,rfl⟩ := List.mem_map.mp hc
    exact letter_mem n (h.digits n hn)
  pads := h.pads
  whole := by
    rw [h.text,List.length_append,List.length_map,List.length_replicate,h.length]
    exact Nat.dvd_mul_right _ _

theorem byte_bounds (bs : List UInt8) : ∀ n∈bs.map UInt8.toNat,n<2^8 := by
  intro n hn
  obtain ⟨b,_,rfl⟩ := List.mem_map.mp hn
  exact byte_lt b

theorem map_toNat_cancel {as bs : List UInt8} (h : as.map UInt8.toNat=bs.map UInt8.toNat) : as=bs :=
  List.map_injective_iff.mpr (fun _ _ => UInt8.toNat_inj.mp) h

theorem digits_of_letters {ns : List ℕ} (hn : ∀ n∈ns,n<32) : (ns.map letter).map digit=ns := by
  rw [List.map_map]
  exact (List.map_congr_left fun n h => digit_of_letter n (hn n h)).trans (List.map_id ns)

theorem roundTrips (d : List UInt8) : RoundTrips d := by
  obtain ⟨ns,pad,henc⟩ := exists_encodes d
  have hw := henc.written
  obtain ⟨z,hz,hbits⟩ := henc.bits
  obtain ⟨s,hdecode,hs,hheld⟩ := b32decode_ok hw.not_foreign
  rw [hw.filter,digits_of_letters henc.digits,hbits] at hheld
  have hsame := spelled_cancel_tail (byte_bounds s.out) (byte_bounds d)
    (by rw [length_low]; exact hs) (by rw [List.length_replicate]; omega) hheld
  refine ⟨_,rfl,?_,?_⟩
  · rw [henc.text,List.length_append,List.length_map,List.length_replicate,henc.length]
  · rw [call_decode hw.not_foreign,hdecode,map_toNat_cancel hsame.1]

theorem Written.unused (h : Written letters pad t) : 5*letters.length%8<5 := by
  have hlen : t.length=letters.length+pad := by
    rw [h.text,List.length_append,List.length_replicate]
  have hwhole := h.whole
  have hpads := h.pads
  rw [hlen] at hwhole
  simp only [List.mem_cons,List.not_mem_nil,or_false] at hpads
  obtain rfl | rfl | rfl | rfl | rfl := hpads <;> omega

theorem Written.reencode (h : Written letters pad t) (hz : UnusedZero letters)
    (hd : b32decode t=.ok out) : b32encode out=t := by
  obtain ⟨s,hrun,hs,hheld⟩ := b32decode_ok h.not_foreign
  rw [h.filter] at hheld
  rw [hrun] at hd
  obtain rfl := Except.ok.inj hd
  have hbits : 8*s.out.length+s.nbits=5*letters.length := by
    have hall := congrArg List.length hheld
    rwa [Decoder.held,List.length_append,length_low,length_spelled,length_spelled,List.length_map,
      List.length_map] at hall
  have hout : 8*(5*letters.length/8)=8*s.out.length := by omega
  have hzero : low s.nbits s.bits=List.replicate s.nbits false := by
    have hlen : (spelled 8 (s.out.map UInt8.toNat)).length=8*s.out.length := by
      rw [length_spelled,List.length_map]
    apply List.eq_replicate_iff.mpr
    refine ⟨length_low _ _,fun b hb => hz b ?_⟩
    rw [hout,← hheld,Decoder.held,List.drop_left' hlen]
    exact hb
  obtain ⟨ns,pad',henc⟩ := exists_encodes s.out
  obtain ⟨z,hz5,hspell⟩ := henc.bits
  have hcount : 5*ns.length=8*s.out.length+z := by
    have hall := congrArg List.length hspell
    rwa [List.length_append,length_spelled,length_spelled,List.length_map,List.length_replicate]
      at hall
  have hunused := h.unused
  have hsame : s.nbits=z := by omega
  have hdigits : ns=letters.map digit := by
    apply spelled_cancel (k := 5) henc.digits
    · intro n hn
      obtain ⟨c,hc,rfl⟩ := List.mem_map.mp hn
      exact digit_lt (h.letters c hc)
    · rw [List.length_map]
      omega
    · rw [hspell,← hheld,Decoder.held,hzero,hsame]
  have hpad : pad'=pad := by
    have hlen : t.length=letters.length+pad := by
      rw [h.text,List.length_append,List.length_replicate]
    have hwhole := h.whole
    have hlen' := henc.length
    have hns : ns.length=letters.length := by rw [hdigits,List.length_map]
    have hsmall : ∀ p∈[0,1,3,4,6],p<8 := by decide
    have hp := hsmall _ h.pads
    have hp' := hsmall _ henc.pads
    omega
  rw [henc.text,hdigits,map_letter_digit h.letters,hpad,← h.text]

theorem accepts_iff (t : List UInt8) :
    (∃ out,call .b32decode [.bytes t]=.ok out) ↔ ¬Foreign t := by
  constructor
  · rintro ⟨out,hout⟩ hf
    rw [call_decode_foreign hf] at hout
    cases hout
  · intro hn
    obtain ⟨s,hrun,_,_⟩ := b32decode_ok hn
    exact ⟨s.out,(call_decode hn).trans hrun⟩

/-- A text stands for its bytes, and arguments after the first are not looked at. -/
theorem call_first (func : Function) (s : Text) (b : List UInt8) (args : List Argument) :
    call func (.str s::args)=call func [.bytes (asBytes s)] ∧
      call func (.bytes b::args)=call func [.bytes b] :=
  ⟨rfl,rfl⟩

theorem base32_exact (d t : List UInt8) :
    RoundTrips d ∧ Accepts t ↔ WellFormed t ∨ Foreign t := by
  constructor
  · rintro ⟨_,h⟩
    by_cases hf : Foreign t
    · exact Or.inr hf
    · exact Or.inl (h.accepts.mp ((accepts_iff t).mpr hf))
  · intro h
    refine ⟨roundTrips d,?_,?_⟩
    · rw [accepts_iff]
      constructor
      · exact fun hn => h.resolve_right hn
      · rintro ⟨letters,pad,hw⟩
        exact hw.not_foreign
    · intro letters pad out hw hz hout
      rw [call_decode hw.not_foreign] at hout
      exact congrArg Except.ok (hw.reencode hz hout)

/-- A lone letter is not a whole group, and decodes to nothing. -/
theorem lone_letter_accepted : call .b32decode [.bytes [65]]=.ok [] ∧ ¬Accepts [65] := by
  have hcall : call .b32decode [.bytes [65]]=.ok [] := by decide
  refine ⟨hcall,fun h => ?_⟩
  obtain ⟨letters,pad,hw⟩ := h.accepts.mp ⟨[],hcall⟩
  exact absurd hw.whole (by decide)

end Exact

end Base32
end InterpretThis
