import InterpretThis.Codecs.RoundTrip

namespace InterpretThis
namespace Codecs

/-- Every surrogate stands in a pair, the high one first. -/
inductive Paired : List UInt16 → Prop where
  | nil : Paired []
  | scalar {u : UInt16} {units : List UInt16} : u.toNat<0xD800 ∨ 0xDFFF<u.toNat → Paired units →
      Paired (u::units)
  | pair {u v : UInt16} {units : List UInt16} : 0xD800≤u.toNat ∧ u.toNat<0xDC00 →
      0xDC00≤v.toNat ∧ v.toNat<0xE000 → Paired units → Paired (u::v::units)

def units16 (order : Option ByteOrder) (b : List UInt8) : List UInt16 :=
  (Units.read (splitUtf16 order b).1 2 (splitUtf16 order b).2).map UInt16.ofNat

def units32 (order : Option ByteOrder) (b : List UInt8) : List ℕ :=
  Units.read (splitUtf32 order b).1 4 (splitUtf32 order b).2

/-- A byte string that ends within a code unit, all of whose whole units are in order. -/
def Truncated (name : Text) (b : List UInt8) : Prop :=
  match encodeCodec (lower name) with
  | some (.utf16 order) => ¬2∣(splitUtf16 order b).2.length ∧ Paired (units16 order b)
  | some (.utf32 order) =>
    ¬4∣(splitUtf32 order b).2.length ∧ ∀ u∈units32 order b,u.isValidChar
  | _ => False

/-- The byte string is what the name makes of the text; a native form may have either mark. -/
def Encodes (name : Text) (s : Text) (b : List UInt8) : Prop :=
  match encodeCodec (lower name) with
  | some (.utf16 none) => b=writeUtf16 .little s ∨ b=[0xFF,0xFE]++writeUtf16 .little s ∨
      b=[0xFE,0xFF]++writeUtf16 .big s
  | some (.utf32 none) => b=writeUtf32 .little s ∨ b=[0xFF,0xFE,0x00,0x00]++writeUtf32 .little s ∨
      b=[0x00,0x00,0xFE,0xFF]++writeUtf32 .big s
  | _ => encode s [.str name] []=.ok b

section Accepted

theorem paired_encodeUtf16 (s : Text) : Paired (encodeUtf16 s) := by
  induction s with
  | nil => exact .nil
  | cons c s ih =>
    have hbounds := toNat_bounds c
    rw [encodeUtf16,List.flatMap_cons,putUtf16]
    by_cases hsmall : c.toNat<0x10000
    · have hu := toNat_unit c.toNat hsmall
      rw [if_pos hsmall]
      exact .scalar (by omega) ih
    · have hu := toNat_unit (0xD800+(c.toNat-0x10000)/1024) (by omega)
      have hv := toNat_unit (0xDC00+(c.toNat-0x10000)%1024) (by omega)
      rw [if_neg hsmall]
      exact .pair (by omega) (by omega) ih

theorem Paired.encoded {units : List UInt16} (h : Paired units) :
    ∃ s,units=encodeUtf16 s := by
  induction h with
  | nil => exact ⟨[],rfl⟩
  | @scalar u units hu _ ih =>
    obtain ⟨s,hs⟩ := ih
    have hread : readUtf16 (u::units)=.ok (Char.ofNat u.toNat,units) := by
      simp only [readUtf16,if_pos hu]
    exact ⟨Char.ofNat u.toNat::s,(put_readUtf16 _ _ _ hread).trans (by rw [hs]; rfl)⟩
  | @pair u v units hu hv _ ih =>
    obtain ⟨s,hs⟩ := ih
    have hread : readUtf16 (u::v::units)=
        .ok (Char.ofNat ((u.toNat-0xD800)*1024+(v.toNat-0xDC00)+0x10000),units) := by
      rw [readUtf16,if_neg (by omega),if_neg (by omega),if_neg (by omega)]
    exact ⟨_::s,(put_readUtf16 _ _ _ hread).trans (by rw [hs]; rfl)⟩

theorem fromUtf32_eq_ok_iff (units : List ℕ) (s : Text) :
    fromUtf32 units=.ok s ↔ units=s.map Char.toNat := by
  constructor
  · intro h
    induction units generalizing s with
    | nil =>
      rw [← Except.ok.inj h]
      rfl
    | cons u units ih =>
      cases hu : fromU32 u with
      | none => simp [fromUtf32,hu] at h
      | some c =>
        cases hrest : fromUtf32 units with
        | error e =>
          simp only [fromUtf32,hu,hrest] at h
          cases h
        | ok rest =>
          simp only [fromUtf32,hu,hrest] at h
          rw [← Except.ok.inj h,List.map_cons,← ih rest hrest,← fromU32_eq_some u c hu]
  · intro h
    rw [h,fromUtf32_toNat]

theorem valid_iff (units : List ℕ) :
    (∀ u∈units,u.isValidChar) ↔ ∃ s : Text,units=s.map Char.toNat := by
  constructor
  · intro h
    refine ⟨units.map Char.ofNat,?_⟩
    rw [List.map_map]
    exact ((List.map_congr_left fun u hu => toNat_ofNat u (h u hu)).trans (List.map_id units)).symm
  · rintro ⟨s,rfl⟩ u hu
    obtain ⟨c,_,rfl⟩ := List.mem_map.mp hu
    exact toNat_valid c

theorem decodeUtf16_units (order : Option ByteOrder) (b : List UInt8) : decodeUtf16 order b=
    match fromUtf16 (units16 order b) with
    | some s => .ok s
    | none => .error (.valueError "invalid utf-16 data".toList) := rfl

theorem decodeUtf16_eq_ok_iff (order : Option ByteOrder) (b : List UInt8) (s : Text) :
    decodeUtf16 order b=.ok s ↔ units16 order b=encodeUtf16 s := by
  rw [← fromUtf16_eq_some_iff,decodeUtf16_units]
  cases fromUtf16 (units16 order b) <;> simp

theorem decodeUtf32_eq_ok_iff (order : Option ByteOrder) (b : List UInt8) (s : Text) :
    decodeUtf32 order b=.ok s ↔ units32 order b=s.map Char.toNat :=
  fromUtf32_eq_ok_iff (units32 order b) s

end Accepted

section Whole

theorem body_utf16 (order : Option ByteOrder) (b : List UInt8) (s : Text)
    (hs : units16 order b=encodeUtf16 s) (hw : 2∣(splitUtf16 order b).2.length) :
    (splitUtf16 order b).2=writeUtf16 (splitUtf16 order b).1 s := by
  have hunits : ∀ u∈Units.read (splitUtf16 order b).1 2 (splitUtf16 order b).2,
      (UInt16.toNat∘UInt16.ofNat) u=id u :=
    fun u hu => toNat_unit u (Units.read_lt _ 2 _ u hu)
  have hread := (List.map_congr_left hunits).trans (List.map_id _)
  rw [← List.map_map,← units16,hs] at hread
  rw [writeUtf16,hread]
  exact (Units.write_read _ 2 _ hw).symm

theorem body_utf32 (order : Option ByteOrder) (b : List UInt8) (s : Text)
    (hs : units32 order b=s.map Char.toNat) (hw : 4∣(splitUtf32 order b).2.length) :
    (splitUtf32 order b).2=writeUtf32 (splitUtf32 order b).1 s := by
  rw [writeUtf32,← hs]
  exact (Units.write_read _ 4 _ hw).symm

theorem splitUtf16_none (b : List UInt8) :
    (∃ rest,b=[0xFF,0xFE]++rest ∧ splitUtf16 none b=(.little,rest)) ∨
      (∃ rest,b=[0xFE,0xFF]++rest ∧ splitUtf16 none b=(.big,rest)) ∨
      splitUtf16 none b=(.little,b) := by
  rw [splitUtf16.eq_def]
  simp only
  split
  next rest => exact Or.inl ⟨rest,rfl,rfl⟩
  next rest => exact Or.inr (Or.inl ⟨rest,rfl,rfl⟩)
  next => exact Or.inr (Or.inr rfl)

theorem splitUtf32_none (b : List UInt8) :
    (∃ rest,b=[0xFF,0xFE,0x00,0x00]++rest ∧ splitUtf32 none b=(.little,rest)) ∨
      (∃ rest,b=[0x00,0x00,0xFE,0xFF]++rest ∧ splitUtf32 none b=(.big,rest)) ∨
      splitUtf32 none b=(.little,b) := by
  rw [splitUtf32.eq_def]
  simp only
  split
  next rest => exact Or.inl ⟨rest,rfl,rfl⟩
  next rest => exact Or.inr (Or.inl ⟨rest,rfl,rfl⟩)
  next => exact Or.inr (Or.inr rfl)

theorem dvd_body_utf16 (order : Option ByteOrder) (b : List UInt8) :
    2∣(splitUtf16 order b).2.length ↔ 2∣b.length := by
  cases order with
  | some order => exact Iff.rfl
  | none =>
    obtain ⟨rest,rfl,h⟩ | ⟨rest,rfl,h⟩ | h := splitUtf16_none b <;> rw [h]
    all_goals
      simp only [List.length_append,List.length_cons,List.length_nil]
      omega

theorem dvd_body_utf32 (order : Option ByteOrder) (b : List UInt8) :
    4∣(splitUtf32 order b).2.length ↔ 4∣b.length := by
  cases order with
  | some order => exact Iff.rfl
  | none =>
    obtain ⟨rest,rfl,h⟩ | ⟨rest,rfl,h⟩ | h := splitUtf32_none b <;> rw [h]
    all_goals
      simp only [List.length_append,List.length_cons,List.length_nil]
      omega

theorem dvd_writeUtf16 (order : ByteOrder) (s : Text) : 2∣(writeUtf16 order s).length := by
  rw [writeUtf16,Units.length_write]
  exact Nat.dvd_mul_right _ _

theorem dvd_writeUtf32 (order : ByteOrder) (s : Text) : 4∣(writeUtf32 order s).length := by
  rw [writeUtf32,Units.length_write]
  exact Nat.dvd_mul_right _ _

end Whole

section Codec

/-- What `encode` does in strict mode, once the codec is known. -/
def encodeAs (codec : Codec) (s : Text) : Except Failure (List UInt8) :=
  match codec with
  | .utf8 => .ok (asBytes s)
  | .ascii => encodeNarrow 0x7f "ascii".toList "strict".toList s
  | .latin1 => encodeNarrow 0xff "latin-1".toList "strict".toList s
  | .utf16 none => .ok ([0xFF,0xFE]++writeUtf16 .little s)
  | .utf16 (some order) => .ok (writeUtf16 order s)
  | .utf32 none => .ok ([0xFF,0xFE,0x00,0x00]++writeUtf32 .little s)
  | .utf32 (some order) => .ok (writeUtf32 order s)
  | .unicodeEscape => .ok (unicodeEscapeEncode s)

def decodeAs (codec : Codec) (b : List UInt8) : Except Failure Text :=
  match codec with
  | .utf8 => decodeUtf8WithErrors b "strict".toList
  | .ascii => decodeAsciiWithErrors b "strict".toList
  | .latin1 => .ok (b.map charOfByte)
  | .utf16 order => decodeUtf16 order b
  | .utf32 order => decodeUtf32 order b
  | .unicodeEscape => .ok (unicodeEscapeDecode b.length b)

theorem encode_name (s name : Text) : encode s [.str name] []=
    match encodeCodec (lower name) with
    | some codec => encodeAs codec s
    | none => .error (unknownEncoding (lower name)) := by
  have hbound : bindMethodParams "encode".toList [Argument.str name] []
      ["encoding".toList,"errors".toList]=.ok [some (Argument.str name),none] := rfl
  have henc : textOr "utf-8".toList "encode() argument must be str" (some (Argument.str name))=
      .ok name := rfl
  rw [encode,hbound]
  simp only [bind,Except.bind,List.getElem?_cons_zero,Option.join_some,henc]
  cases encodeCodec (lower name) with
  | none => rfl
  | some codec =>
    cases codec with
    | utf16 order => cases order <;> rfl
    | utf32 order => cases order <;> rfl
    | _ => rfl

theorem decode_name (b : List UInt8) (name : Text) : decode b [.str name] []=
    match encodeCodec (lower name) with
    | some codec => decodeAs codec b
    | none => .error (unknownEncoding (lower name)) := by
  rw [← decodeCodec_eq]
  have henc : argumentOr "utf-8".toList "encoding" 0 "encoding" [.str name] []=.ok name := rfl
  have herr : argumentOr "strict".toList "errors" 1 "errors" [.str name] []=
      .ok "strict".toList := rfl
  rw [decode,List.find?_nil]
  simp only [henc,herr,bind,Except.bind]
  cases decodeCodec (lower name) with
  | none => rfl
  | some codec => cases codec <;> rfl

theorem decodeAs_encodeAs (codec : Codec) (s : Text) (b : List UInt8)
    (h : encodeAs codec s=.ok b) : decodeAs codec b=.ok s := by
  cases codec with
  | utf8 =>
    rw [← Except.ok.inj h]
    exact decodeUtf8_asBytes s
  | ascii =>
    obtain ⟨hfit,rfl⟩ := (encodeNarrow_strict _ _ s b).mp h
    exact decodeAscii_of_ascii s _ fun c hc => Nat.lt_succ_of_le (hfit c hc)
  | latin1 =>
    obtain ⟨hfit,rfl⟩ := (encodeNarrow_strict _ _ s b).mp h
    refine congrArg Except.ok ?_
    rw [List.map_map]
    exact (List.map_congr_left fun c hc =>
      charOfByte_byteOfChar c (Nat.lt_succ_of_le (hfit c hc))).trans (List.map_id s)
  | utf16 order =>
    cases order with
    | none =>
      rw [← Except.ok.inj h]
      exact decodeUtf16_write none .little s ([0xFF,0xFE]++writeUtf16 .little s) rfl
    | some order =>
      rw [← Except.ok.inj h]
      exact decodeUtf16_write (some order) order s _ rfl
  | utf32 order =>
    cases order with
    | none =>
      rw [← Except.ok.inj h]
      exact decodeUtf32_write none .little s ([0xFF,0xFE,0x00,0x00]++writeUtf32 .little s) rfl
    | some order =>
      rw [← Except.ok.inj h]
      exact decodeUtf32_write (some order) order s _ rfl
  | unicodeEscape =>
    rw [← Except.ok.inj h]
    exact congrArg Except.ok (unicodeEscapeDecode_encode s _ (length_unicodeEscapeEncode s))

/-- The narrow and the byte-wise codecs accept nothing but encodings. -/
theorem encodeAs_decodeAs (codec : Codec) (hcodec : codec∈[Codec.utf8,.ascii,.latin1])
    (b : List UInt8) (s : Text) (h : decodeAs codec b=.ok s) : encodeAs codec s=.ok b := by
  have hround : (b.map charOfByte).map byteOfChar=b := by
    rw [List.map_map]
    exact (List.map_congr_left fun c _ => byteOfChar_charOfByte c).trans (List.map_id b)
  simp only [List.mem_cons,List.not_mem_nil,or_false] at hcodec
  obtain rfl | rfl | rfl := hcodec
  · have hread : fromUtf8 b=some s := by
      change decodeUtf8WithErrors b "strict".toList=.ok s at h
      unfold decodeUtf8WithErrors at h
      rw [if_neg (by decide),if_neg (by decide)] at h
      unfold fromUtf8 SymbolReader.readAll
      split at h
      next hs =>
        rw [hs]
        exact congrArg some (Except.ok.inj h)
      next => cases h
    exact congrArg Except.ok ((fromUtf8_eq_some_iff b s).mp hread).symm
  · by_cases hall : b.all (·<128)=true
    · have hlow : ∀ c∈b,c.toNat<128 := fun c hc => by
        have := List.all_eq_true.mp hall c hc
        exact UInt8.lt_iff_toNat_lt.mp (of_decide_eq_true this)
      have hchars : ∀ c∈b.map charOfByte,c.toNat<128 := by
        intro c hc
        obtain ⟨byte,hb,rfl⟩ := List.mem_map.mp hc
        rw [toNat_charOfByte]
        exact hlow byte hb
      have hdecode := decodeAscii_of_ascii (b.map charOfByte) "strict".toList hchars
      rw [hround] at hdecode
      have hs := Except.ok.inj (hdecode.symm.trans h)
      rw [← hs]
      refine (encodeNarrow_strict _ _ _ _).mpr ⟨?_,hround.symm⟩
      exact fun c hc => Nat.le_of_lt_succ (hchars c hc)
    · change decodeAsciiWithErrors b "strict".toList=.ok s at h
      unfold decodeAsciiWithErrors at h
      rw [if_neg hall,if_neg (by decide),if_neg (by decide),if_pos rfl] at h
      cases h
  · rw [← Except.ok.inj h]
    refine (encodeNarrow_strict _ _ _ _).mpr ⟨?_,hround.symm⟩
    intro c hc
    obtain ⟨byte,_,rfl⟩ := List.mem_map.mp hc
    rw [toNat_charOfByte]
    exact Nat.le_of_lt_succ byte.toNat_lt

end Codec

section Statement

theorem encodes_iff_whole16 (name : Text) (order : Option ByteOrder)
    (hname : encodeCodec (lower name)=some (.utf16 order)) (b : List UInt8) (s : Text)
    (hs : units16 order b=encodeUtf16 s) :
    Encodes name s b ↔ 2∣(splitUtf16 order b).2.length := by
  rw [dvd_body_utf16]
  constructor
  · intro he
    simp only [Encodes,hname] at he
    cases order with
    | none =>
      have hlittle := dvd_writeUtf16 .little s
      have hbig := dvd_writeUtf16 .big s
      obtain rfl | rfl | rfl := he
      · exact hlittle
      · simp only [List.length_append,List.length_cons,List.length_nil]
        omega
      · simp only [List.length_append,List.length_cons,List.length_nil]
        omega
    | some order =>
      simp only [encode_name,hname] at he
      rw [← Except.ok.inj he]
      exact dvd_writeUtf16 order s
  · intro hw
    have hbody := body_utf16 order b s hs ((dvd_body_utf16 order b).mpr hw)
    cases order with
    | none =>
      simp only [Encodes,hname]
      obtain ⟨rest,hb,h⟩ | ⟨rest,hb,h⟩ | h := splitUtf16_none b <;> rw [h] at hbody
      · exact Or.inr (Or.inl (hb.trans (congrArg _ hbody)))
      · exact Or.inr (Or.inr (hb.trans (congrArg _ hbody)))
      · exact Or.inl hbody
    | some order =>
      simp only [Encodes,hname,encode_name]
      exact congrArg Except.ok hbody.symm

theorem encodes_iff_whole32 (name : Text) (order : Option ByteOrder)
    (hname : encodeCodec (lower name)=some (.utf32 order)) (b : List UInt8) (s : Text)
    (hs : units32 order b=s.map Char.toNat) :
    Encodes name s b ↔ 4∣(splitUtf32 order b).2.length := by
  rw [dvd_body_utf32]
  constructor
  · intro he
    simp only [Encodes,hname] at he
    cases order with
    | none =>
      have hlittle := dvd_writeUtf32 .little s
      have hbig := dvd_writeUtf32 .big s
      obtain rfl | rfl | rfl := he
      · exact hlittle
      · simp only [List.length_append,List.length_cons,List.length_nil]
        omega
      · simp only [List.length_append,List.length_cons,List.length_nil]
        omega
    | some order =>
      simp only [encode_name,hname] at he
      rw [← Except.ok.inj he]
      exact dvd_writeUtf32 order s
  · intro hw
    have hbody := body_utf32 order b s hs ((dvd_body_utf32 order b).mpr hw)
    cases order with
    | none =>
      simp only [Encodes,hname]
      obtain ⟨rest,hb,h⟩ | ⟨rest,hb,h⟩ | h := splitUtf32_none b <;> rw [h] at hbody
      · exact Or.inr (Or.inl (hb.trans (congrArg _ hbody)))
      · exact Or.inr (Or.inr (hb.trans (congrArg _ hbody)))
      · exact Or.inl hbody
    | some order =>
      simp only [Encodes,hname,encode_name]
      exact congrArg Except.ok hbody.symm

/-- Accepted byte strings are encodings unless they end within a code unit. -/
theorem accepted_iff (name : Text) (hname : encodeCodec (lower name)≠some .unicodeEscape)
    (b : List UInt8) :
    (∀ s,decode b [.str name] []=.ok s → Encodes name s b) ↔ ¬Truncated name b := by
  cases hcodec : encodeCodec (lower name) with
  | none => simp [decode_name,Truncated,hcodec]
  | some codec =>
    cases codec with
    | utf16 order =>
      simp only [decode_name,hcodec,decodeAs,decodeUtf16_eq_ok_iff,Truncated]
      constructor
      · rintro h ⟨hw,hpaired⟩
        obtain ⟨s,hs⟩ := hpaired.encoded
        exact hw ((encodes_iff_whole16 name order hcodec b s hs).mp (h s hs))
      · intro h s hs
        refine (encodes_iff_whole16 name order hcodec b s hs).mpr (not_not.mp fun hw => h ⟨hw,?_⟩)
        rw [hs]
        exact paired_encodeUtf16 s
    | utf32 order =>
      simp only [decode_name,hcodec,decodeAs,decodeUtf32_eq_ok_iff,Truncated]
      constructor
      · rintro h ⟨hw,hvalid⟩
        obtain ⟨s,hs⟩ := (valid_iff _).mp hvalid
        exact hw ((encodes_iff_whole32 name order hcodec b s hs).mp (h s hs))
      · intro h s hs
        exact (encodes_iff_whole32 name order hcodec b s hs).mpr
          (not_not.mp fun hw => h ⟨hw,(valid_iff _).mpr ⟨s,hs⟩⟩)
    | unicodeEscape => exact absurd hcodec hname
    | utf8 | ascii | latin1 =>
      simp only [decode_name,hcodec,Truncated,Encodes,encode_name,not_false_eq_true,iff_true]
      exact fun s hs => encodeAs_decodeAs _ (by decide) b s hs

theorem decode_encode (s name : Text) (b : List UInt8) (h : encode s [.str name] []=.ok b) :
    decode b [.str name] []=.ok s := by
  rw [encode_name] at h
  rw [decode_name]
  cases hcodec : encodeCodec (lower name) with
  | none =>
    rw [hcodec] at h
    cases h
  | some codec =>
    rw [hcodec] at h
    exact decodeAs_encodeAs codec s b h

/-- Every codec reads back what it writes, and what a codec other than the escapes accepts is an
encoding exactly where the byte string does not end within a code unit. -/
theorem text_codecs (name : Text) (b : List UInt8) :
    (∀ s,encode s [.str name] []=.ok b → decode b [.str name] []=.ok s) ∧
    (encodeCodec (lower name)≠some .unicodeEscape →
      ((∀ s,decode b [.str name] []=.ok s → Encodes name s b) ↔ ¬Truncated name b)) :=
  ⟨fun s h => decode_encode s name b h,fun hname => accepted_iff name hname b⟩

theorem text_codecs_marked : decode [0xFE,0xFF,0x00,0x41] [.str "UTF-16".toList] []=.ok ['A'] ∧
    Encodes "UTF-16".toList ['A'] [0xFE,0xFF,0x00,0x41] := by
  have hdecode : decode [0xFE,0xFF,0x00,0x41] [.str "UTF-16".toList] []=.ok ['A'] := by
    decide
  have hwhole : ¬Truncated "UTF-16".toList [0xFE,0xFF,0x00,0x41] := by
    have hcodec : encodeCodec (lower "UTF-16".toList)=some (.utf16 none) := by decide
    simp only [Truncated,hcodec]
    exact fun h => h.1 (by decide)
  exact ⟨hdecode,((text_codecs "UTF-16".toList _).2 (by decide)).mpr hwhole ['A'] hdecode⟩

/-- Half a code unit at the end is dropped without a word. -/
theorem half_unit_dropped : ¬((∀ (s name : Text) (b : List UInt8),encode s [.str name] []=.ok b →
      decode b [.str name] []=.ok s) ∧
    ∀ (name : Text) (b : List UInt8),encodeCodec (lower name)≠some .unicodeEscape →
      ∀ s,decode b [.str name] []=.ok s → Encodes name s b) := by
  rintro ⟨_,h⟩
  have hdecode : decode [0x41,0x00,0x42] [.str "utf-16-le".toList] []=.ok ['A'] := by
    decide
  have hcodec : encodeCodec (lower "utf-16-le".toList)=some (.utf16 (some .little)) := by
    decide
  have he := h "utf-16-le".toList _ (by decide) ['A'] hdecode
  simp only [Encodes,hcodec] at he
  exact absurd he (by decide)

end Statement

end Codecs
end InterpretThis
