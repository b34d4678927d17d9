import InterpretThis.Codecs.Encode
import InterpretThis.Format.Prescribed
import Mathlib.Tactic.IntervalCases

namespace InterpretThis
namespace Codecs

section Tables

def spellings : List String :=
  ["utf-8","utf_8","u8","ascii","us-ascii","latin-1","latin1","iso-8859-1","iso8859-1","utf-16",
    "utf16","utf-16-le","utf-16le","utf_16_le","utf-16-be","utf-16be","utf_16_be","utf-32","utf32",
    "utf-32-le","utf-32le","utf_32_le","utf-32-be","utf-32be","utf_32_be","unicode-escape",
    "unicode_escape"]

theorem not_named (name : Text) (table : List String) (hn : ∀ s∈spellings,s.toList≠name)
    (ht : table⊆spellings) : named name table=false := by
  rw [named,List.any_eq_false]
  intro s hs
  simpa using hn s (ht hs)

theorem decodeCodec_eq (name : Text) : decodeCodec name=encodeCodec name := by
  by_cases hknown : ∃ s∈spellings,s.toList=name
  · obtain ⟨s,hs,rfl⟩ := hknown
    have hall : ∀ s∈spellings,decodeCodec s.toList=encodeCodec s.toList := by decide
    exact hall s hs
  · have hn : ∀ s∈spellings,s.toList≠name := fun s hs he => hknown ⟨s,hs,he⟩
    unfold decodeCodec encodeCodec
    simp (disch := decide) only [not_named name _ hn,Bool.false_eq_true,if_false]

end Tables

section Narrow

def byteOfChar (c : Char) : UInt8 := UInt8.ofNat c.toNat

theorem charOfByte_byteOfChar (c : Char) (h : c.toNat<256) : charOfByte (byteOfChar c)=c := by
  unfold charOfByte byteOfChar
  rw [toNat_byte _ h,Char.ofNat_toNat]

theorem byteOfChar_charOfByte (b : UInt8) : byteOfChar (charOfByte b)=b := by
  have hb : b.toNat<256 := b.toNat_lt
  unfold charOfByte byteOfChar
  rw [toNat_ofNat _ (by unfold Nat.isValidChar; omega),UInt8.ofNat_toNat]

theorem toNat_charOfByte (b : UInt8) : (charOfByte b).toNat=b.toNat := by
  have hb : b.toNat<256 := b.toNat_lt
  exact toNat_ofNat _ (by unfold Nat.isValidChar; omega)

/-- The narrow codecs in strict mode: every character fits, and each is one byte. -/
theorem encodeNarrow_strict (max : ℕ) (codec : Text) (s : Text) (b : List UInt8) :
    encodeNarrow max codec "strict".toList s=.ok b ↔
      (∀ c∈s,c.toNat ≤ max) ∧ b=s.map byteOfChar := by
  induction s generalizing b with
  | nil =>
    constructor
    · intro h
      exact ⟨List.forall_mem_nil _,(Except.ok.inj h).symm⟩
    · intro h
      rw [h.2]
      rfl
  | cons c s ih =>
    by_cases hc : c.toNat ≤ max
    · cases hrest : encodeNarrow max codec "strict".toList s with
      | error e =>
        have hno := fun hs : ∀ c∈s,c.toNat ≤ max => (hrest ▸ (ih _).mpr ⟨hs,rfl⟩ :
          (Except.error e : Except Failure (List UInt8))=.ok _)
        constructor
        · intro h
          simp only [encodeNarrow,if_pos hc,hrest] at h
          cases h
        · intro h
          exact nomatch hno fun d hd => h.1 d (List.mem_cons_of_mem _ hd)
      | ok rest =>
        obtain ⟨hs,hmap⟩ := (ih rest).mp hrest
        have hwhole : encodeNarrow max codec "strict".toList (c::s)=
            .ok (byteOfChar c::s.map byteOfChar) := by
          simp only [encodeNarrow,if_pos hc,hrest,hmap]
          rfl
        rw [hwhole]
        constructor
        · intro h
          exact ⟨List.forall_mem_cons.mpr ⟨hc,hs⟩,(Except.ok.inj h).symm⟩
        · intro h
          rw [h.2,List.map_cons]
    · constructor
      · intro h
        simp only [encodeNarrow,if_neg hc] at h
        cases h
      · intro h
        exact absurd (h.1 c List.mem_cons_self) hc

theorem asBytes_ascii (s : Text) (hs : ∀ c∈s,c.toNat<128) : asBytes s=s.map byteOfChar := by
  induction s with
  | nil => rfl
  | cons c s ih =>
    have hc : putUtf8 c=[byteOfChar c] := by
      simp only [putUtf8,if_pos (hs c List.mem_cons_self)]
      rfl
    have hrest := ih fun d hd => hs d (List.mem_cons_of_mem _ hd)
    rw [asBytes,List.flatMap_cons,hc,List.map_cons,← hrest]
    rfl

theorem decodeAscii_of_ascii (s : Text) (errors : Text) (hs : ∀ c∈s,c.toNat<128) :
    decodeAsciiWithErrors (s.map byteOfChar) errors=.ok s := by
  have hall : (s.map byteOfChar).all (·<128)=true := by
    rw [List.all_map,List.all_eq_true]
    intro c hc
    have hlt := hs c hc
    simp only [Function.comp,decide_eq_true_eq,UInt8.lt_iff_toNat_lt,byteOfChar,
      toNat_byte _ (show c.toNat<256 by omega)]
    exact hlt
  have hread : fromUtf8 (s.map byteOfChar)=some s :=
    (fromUtf8_eq_some_iff _ _).mpr (asBytes_ascii s hs).symm
  unfold decodeAsciiWithErrors
  rw [if_pos hall,hread]
  rfl

end Narrow

section Wide

theorem scanUtf8_asBytes (s : Text) :
    SymbolReader.scan readUtf8 (asBytes s).length (asBytes s)=(s,none) :=
  utf8_inverts.scan_flatMap s _ (utf8_inverts.length_le s)

theorem decodeUtf8_asBytes (s : Text) :
    decodeUtf8WithErrors (asBytes s) "strict".toList=.ok s := by
  unfold decodeUtf8WithErrors
  rw [if_neg (by decide),if_neg (by decide),scanUtf8_asBytes]

theorem map_units (units : List UInt16) :
    (units.map UInt16.toNat).map UInt16.ofNat=units := by
  rw [List.map_map]
  refine (List.map_congr_left fun u _ => ?_).trans (List.map_id units)
  exact UInt16.ofNat_toNat

theorem readUtf16_write (order : ByteOrder) (s : Text) :
    fromUtf16 ((Units.read order 2 (writeUtf16 order s)).map UInt16.ofNat)=some s := by
  have hu : ∀ u∈(encodeUtf16 s).map UInt16.toNat,u<256^2 := by
    intro u hu
    obtain ⟨v,_,rfl⟩ := List.mem_map.mp hu
    exact v.toNat_lt
  unfold writeUtf16
  rw [Units.read_write order 2 (by decide) _ hu,map_units]
  exact (fromUtf16_eq_some_iff _ _).mpr rfl

theorem fromUtf32_toNat (s : Text) : fromUtf32 (s.map Char.toNat)=.ok s := by
  induction s with
  | nil => rfl
  | cons c s ih =>
    simp only [List.map_cons,fromUtf32,fromU32_toNat,ih]
    rfl

theorem readUtf32_write (order : ByteOrder) (s : Text) :
    fromUtf32 (Units.read order 4 (writeUtf32 order s))=.ok s := by
  have hu : ∀ u∈s.map Char.toNat,u<256^4 := by
    intro u hu
    obtain ⟨c,_,rfl⟩ := List.mem_map.mp hu
    have := toNat_bounds c
    omega
  unfold writeUtf32
  rw [Units.read_write order 4 (by decide) _ hu,fromUtf32_toNat]

theorem decodeUtf16_write (order : Option ByteOrder) (o : ByteOrder) (s : Text) (b : List UInt8)
    (h : splitUtf16 order b=(o,writeUtf16 o s)) : decodeUtf16 order b=.ok s := by
  simp only [decodeUtf16,h,readUtf16_write]

theorem decodeUtf32_write (order : Option ByteOrder) (o : ByteOrder) (s : Text) (b : List UInt8)
    (h : splitUtf32 order b=(o,writeUtf32 o s)) : decodeUtf32 order b=.ok s := by
  simp only [decodeUtf32,h,readUtf32_write]

end Wide

section Escapes

theorem hexStep_digitChar (n d : ℕ) (hd : d<16) (hn : n*16+d<2^32) :
    hexStep (some n) (Nat.digitChar d)=some (n*16+d) := by
  have hdigit : hexDigit (Nat.digitChar d)=some d := by
    interval_cases d <;> decide
  simp only [hexStep,hdigit,if_pos hn]

theorem fold_toDigits (m : ℕ) (hm : m<2^32) :
    (Nat.toDigits 16 m).foldl hexStep (some 0)=some m := by
  induction m using Nat.strong_induction_on with
  | _ m ih =>
    by_cases hsmall : m<16
    · have hstep := hexStep_digitChar 0 m hsmall (by omega)
      rw [Nat.toDigits_of_lt_base hsmall,List.foldl_cons,List.foldl_nil,hstep]
      exact congrArg some (by omega)
    · have hrest := ih (m/16) (by omega) (by omega)
      have hstep := hexStep_digitChar (m/16) (m%16) (by omega) (by omega)
      rw [Nat.toDigits_of_base_le (by decide) (by omega),List.foldl_append,hrest,List.foldl_cons,
        List.foldl_nil,hstep]
      exact congrArg some (by omega)

theorem fold_zeros (k : ℕ) : (List.replicate k '0').foldl hexStep (some 0)=some 0 := by
  induction k with
  | zero => rfl
  | succ k ih =>
    have hstep : hexStep (some 0) '0'=some 0 := by decide
    rw [List.replicate_succ,List.foldl_cons,hstep,ih]

theorem hexLower_chars (k m : ℕ) :
    ∀ c∈hexLower k m,∃ d,d<16 ∧ c=Nat.digitChar d := by
  intro c hc
  rw [hexLower,List.mem_append] at hc
  obtain hc | hc := hc
  · exact ⟨0,by decide,List.eq_of_mem_replicate hc⟩
  · exact Format.toDigits_chars 16 m (by decide) c hc

theorem length_hexLower (k m : ℕ) (hk : 0<k) (hm : m<16^k) : (hexLower k m).length=k := by
  have hle := (Nat.length_toDigits_le_iff (by decide) hk).mpr hm
  rw [hexLower,List.length_append,List.length_replicate]
  omega

theorem hexLower_ascii (k m : ℕ) : ∀ c∈hexLower k m,c.toNat<128 := by
  intro c hc
  obtain ⟨d,hd,rfl⟩ := hexLower_chars k m c hc
  interval_cases d <;> decide

theorem fromStrRadix_hexLower (k m : ℕ) (hk : 0<k) (hm : m<16^k) (hw : m<2^32) :
    fromStrRadix (hexLower k m)=some m := by
  have hfold : (hexLower k m).foldl hexStep (some 0)=some m := by
    rw [hexLower,List.foldl_append,fold_zeros,fold_toDigits m hw]
  have hlen := length_hexLower k m hk hm
  have hchars := hexLower_chars k m
  cases hd : hexLower k m with
  | nil =>
    rw [hd] at hlen
    exact absurd hlen (by simp; omega)
  | cons c digits =>
    have hsign : c≠ '+' := by
      obtain ⟨d,hlt,rfl⟩ := hchars c (by rw [hd]; exact List.mem_cons_self)
      interval_cases d <;> decide
    rw [hd] at hfold
    rw [fromStrRadix.eq_def]
    split
    next he => cases he
    next he => exact absurd (List.cons.inj he).1 hsign
    next he => exact absurd (List.cons.inj he).1 hsign
    next => exact hfold

theorem readHex_hexLower (k : ℕ) (c : Char) (rest : List UInt8) (hk : 0<k)
    (hc : c.toNat<16^k) :
    readHex k (asBytes (hexLower k c.toNat)++rest)=([c],rest) := by
  have hw : c.toNat<2^32 := by
    have := toNat_bounds c
    omega
  have hlen : (asBytes (hexLower k c.toNat)).length=k := by
    rw [asBytes_ascii _ (hexLower_ascii k _),List.length_map,length_hexLower k _ hk hc]
  have hread : fromUtf8 (asBytes (hexLower k c.toNat))=some (hexLower k c.toNat) :=
    (fromUtf8_eq_some_iff _ _).mpr rfl
  unfold readHex
  rw [List.take_left' hlen,List.drop_left' hlen,hread,Option.getD_some,
    fromStrRadix_hexLower k _ hk hc hw]
  simp only [fromU32_toNat,Option.toList_some]

theorem asBytes_append (s t : Text) : asBytes (s++t)=asBytes s++asBytes t :=
  List.flatMap_append

@[simp] theorem unicodeEscapeDecode_nil (fuel : ℕ) : unicodeEscapeDecode fuel []=[] := by
  cases fuel <;> rfl

theorem unicodeEscapeDecode_plain (fuel : ℕ) (b : UInt8) (rest : List UInt8) (hb : b≠0x5C) :
    unicodeEscapeDecode (fuel+1) (b::rest)=charOfByte b::unicodeEscapeDecode fuel rest := by
  cases rest with
  | nil => simp [unicodeEscapeDecode]
  | cons c rest => simp only [unicodeEscapeDecode,if_pos hb]

theorem unicodeEscapeDecode_escape (fuel : ℕ) (c : UInt8) (rest : List UInt8) :
    unicodeEscapeDecode (fuel+1) (0x5C::c::rest)=
      (readEscape c rest).1++unicodeEscapeDecode fuel (readEscape c rest).2 := by
  simp [unicodeEscapeDecode]

theorem unicodeEscapeDecode_hex (fuel : ℕ) (c : Char) (rest : List UInt8) :
    unicodeEscapeDecode (fuel+1) (asBytes (hexEscape c.toNat)++rest)=
      c::unicodeEscapeDecode fuel rest := by
  have hbounds := toNat_bounds c
  unfold hexEscape
  split_ifs with hbyte hword
  · have hread := readHex_hexLower 2 c rest (by decide) (by omega)
    have hescape : readEscape 0x78 (asBytes (hexLower 2 c.toNat)++rest)=([c],rest) := hread
    change unicodeEscapeDecode (fuel+1) (0x5C::0x78::(asBytes (hexLower 2 c.toNat)++rest))=_
    rw [unicodeEscapeDecode_escape,hescape]
    rfl
  · have hread := readHex_hexLower 4 c rest (by decide) (by omega)
    have hescape : readEscape 0x75 (asBytes (hexLower 4 c.toNat)++rest)=([c],rest) := hread
    change unicodeEscapeDecode (fuel+1) (0x5C::0x75::(asBytes (hexLower 4 c.toNat)++rest))=_
    rw [unicodeEscapeDecode_escape,hescape]
    rfl
  · have hread := readHex_hexLower 8 c rest (by decide) (by omega)
    have hescape : readEscape 0x55 (asBytes (hexLower 8 c.toNat)++rest)=([c],rest) := hread
    change unicodeEscapeDecode (fuel+1) (0x5C::0x55::(asBytes (hexLower 8 c.toNat)++rest))=_
    rw [unicodeEscapeDecode_escape,hescape]
    rfl

/-- One turn of the decoding loop undoes the escape of one character. -/
theorem unicodeEscapeDecode_char (fuel : ℕ) (c : Char) (rest : List UInt8) :
    unicodeEscapeDecode (fuel+1) (asBytes (unicodeEscapeChar c)++rest)=
      c::unicodeEscapeDecode fuel rest := by
  unfold unicodeEscapeChar
  split
  · exact unicodeEscapeDecode_escape fuel 0x5C rest
  · exact unicodeEscapeDecode_escape fuel 0x6E rest
  · exact unicodeEscapeDecode_escape fuel 0x72 rest
  · exact unicodeEscapeDecode_escape fuel 0x74 rest
  next hslash _ _ _ =>
    split_ifs with hprint
    · have hlow : 32 ≤ c.toNat := hprint.1
      have hhigh : c.toNat≤126 := hprint.2
      have hbytes : asBytes [c]=[byteOfChar c] :=
        asBytes_ascii [c] fun d hd => by rw [List.mem_singleton.mp hd]; omega
      have hb : byteOfChar c≠0x5C := by
        intro he
        have hn := congrArg charOfByte he
        rw [charOfByte_byteOfChar c (by omega)] at hn
        exact hslash hn
      rw [hbytes,List.singleton_append,unicodeEscapeDecode_plain fuel _ rest hb,
        charOfByte_byteOfChar c (by omega)]
    · exact unicodeEscapeDecode_hex fuel c rest

theorem asBytes_ne_nil (s : Text) (hs : s≠[]) : 0<(asBytes s).length := by
  have hle := utf8_inverts.length_le s
  have hpos := List.length_pos_iff.mpr hs
  exact Nat.lt_of_lt_of_le hpos hle

theorem unicodeEscapeChar_ne_nil (c : Char) : unicodeEscapeChar c≠[] := by
  unfold unicodeEscapeChar hexEscape
  split <;> try exact List.cons_ne_nil _ _
  split_ifs <;> exact List.cons_ne_nil _ _

theorem unicodeEscapeDecode_encode (s : Text) :
    ∀ fuel,s.length≤fuel → unicodeEscapeDecode fuel (unicodeEscapeEncode s)=s := by
  induction s with
  | nil => exact fun fuel _ => unicodeEscapeDecode_nil fuel
  | cons c s ih =>
    intro fuel hf
    cases fuel with
    | zero => exact absurd hf (Nat.not_succ_le_zero _)
    | succ fuel =>
      have hrest := ih fuel (Nat.le_of_succ_le_succ hf)
      unfold unicodeEscapeEncode at hrest ⊢
      rw [List.flatMap_cons,asBytes_append,unicodeEscapeDecode_char,hrest]

theorem length_unicodeEscapeEncode (s : Text) : s.length≤(unicodeEscapeEncode s).length := by
  induction s with
  | nil => exact Nat.zero_le _
  | cons c s ih =>
    have hc := asBytes_ne_nil _ (unicodeEscapeChar_ne_nil c)
    unfold unicodeEscapeEncode at ih ⊢
    rw [List.flatMap_cons,asBytes_append,List.length_append,List.length_cons]
    omega

end Escapes

end Codecs
end InterpretThis
