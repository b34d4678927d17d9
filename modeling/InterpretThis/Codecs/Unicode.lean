import InterpretThis.Framework.Units

namespace InterpretThis
namespace Codecs

abbrev Text := List Char

/-- `char::from_u32`. -/
def fromU32 (n : ℕ) : Option Char := if n.isValidChar then some (Char.ofNat n) else none

def isContinuation (b : UInt8) : Bool := 0x80≤b && b≤0xBF

/-- The second bytes that a three-byte sequence may have after its first. -/
def secondOfThree (a b : UInt8) : Bool :=
  (a==0xE0 && 0xA0≤b && b≤0xBF) || (0xE1≤a && a≤0xEC && 0x80≤b && b≤0xBF) ||
    (a==0xED && 0x80≤b && b≤0x9F) || (0xEE≤a && a≤0xEF && 0x80≤b && b≤0xBF)

def secondOfFour (a b : UInt8) : Bool :=
  (a==0xF0 && 0x90≤b && b≤0xBF) || (0xF1≤a && a≤0xF3 && 0x80≤b && b≤0xBF) ||
    (a==0xF4 && 0x80≤b && b≤0x8F)

/-- `utf8_char_width`. -/
def charWidth (a : UInt8) : ℕ :=
  if a<0x80 then 1
  else if 0xC2≤a ∧ a≤0xDF then 2
  else if 0xE0≤a ∧ a≤0xEF then 3
  else if 0xF0≤a ∧ a≤0xF4 then 4
  else 0

/-- One character of `str::from_utf8`; a fault is `error_len`. -/
def readUtf8 : SymbolReader Char UInt8 (Option ℕ)
  | [] => .error none
  | a::rest =>
    match charWidth a with
    | 1 => .ok (Char.ofNat a.toNat,rest)
    | 2 =>
      match rest with
      | [] => .error none
      | b::rest =>
        if isContinuation b then
          .ok (Char.ofNat ((a.toNat-0xC0)*64+(b.toNat-0x80)),rest)
        else .error (some 1)
    | 3 =>
      match rest with
      | [] => .error none
      | b::rest =>
        if secondOfThree a b then
          match rest with
          | [] => .error none
          | c::rest =>
            if isContinuation c then
              .ok (Char.ofNat ((a.toNat-0xE0)*4096+(b.toNat-0x80)*64+(c.toNat-0x80)),rest)
            else .error (some 2)
        else .error (some 1)
    | 4 =>
      match rest with
      | [] => .error none
      | b::rest =>
        if secondOfFour a b then
          match rest with
          | [] => .error none
          | c::rest =>
            if isContinuation c then
              match rest with
              | [] => .error none
              | d::rest =>
                if isContinuation d then
                  .ok (Char.ofNat ((a.toNat-0xF0)*262144+(b.toNat-0x80)*4096+
                    (c.toNat-0x80)*64+(d.toNat-0x80)),rest)
                else .error (some 3)
            else .error (some 2)
        else .error (some 1)
    | _ => .error (some 1)

/-- The bytes of a character in a `str`. -/
def putUtf8 (c : Char) : List UInt8 :=
  let n := c.toNat
  if n<0x80 then [UInt8.ofNat n]
  else if n<0x800 then [UInt8.ofNat (0xC0+n/64),UInt8.ofNat (0x80+n%64)]
  else if n<0x10000 then
    [UInt8.ofNat (0xE0+n/4096),UInt8.ofNat (0x80+n/64%64),UInt8.ofNat (0x80+n%64)]
  else
    [UInt8.ofNat (0xF0+n/262144),UInt8.ofNat (0x80+n/4096%64),UInt8.ofNat (0x80+n/64%64),
      UInt8.ofNat (0x80+n%64)]

/-- One character of `char::decode_utf16`. -/
def readUtf16 : SymbolReader Char UInt16 Unit
  | [] => .error ()
  | u::rest =>
    if u.toNat<0xD800 ∨ 0xDFFF<u.toNat then .ok (Char.ofNat u.toNat,rest)
    else if 0xDC00≤u.toNat then .error ()
    else
      match rest with
      | [] => .error ()
      | v::rest =>
        if v.toNat<0xDC00 ∨ 0xDFFF<v.toNat then .error ()
        else .ok (Char.ofNat ((u.toNat-0xD800)*1024+(v.toNat-0xDC00)+0x10000),rest)

/-- `char::encode_utf16`. -/
def putUtf16 (c : Char) : List UInt16 :=
  let n := c.toNat
  if n<0x10000 then [UInt16.ofNat n]
  else [UInt16.ofNat (0xD800+(n-0x10000)/1024),UInt16.ofNat (0xDC00+(n-0x10000)%1024)]

def encodeUtf16 (s : Text) : List UInt16 := s.flatMap putUtf16

/-- `String::from_utf16`. -/
def fromUtf16 (units : List UInt16) : Option Text := SymbolReader.readAll readUtf16 units

/-- `str::from_utf8`. -/
def fromUtf8 (b : List UInt8) : Option Text := SymbolReader.readAll readUtf8 b

def asBytes (s : Text) : List UInt8 := s.flatMap putUtf8

section Chars

theorem toNat_valid (c : Char) : c.toNat.isValidChar := c.valid

theorem toNat_ofNat (n : ℕ) (hn : n.isValidChar) : (Char.ofNat n).toNat=n := by
  unfold Char.ofNat
  rw [dif_pos hn]
  rfl

theorem toNat_bounds (c : Char) :
    c.toNat<0xD800 ∨ (0xDFFF<c.toNat ∧ c.toNat<0x110000) := toNat_valid c

theorem fromU32_toNat (c : Char) : fromU32 c.toNat=some c := by
  unfold fromU32
  rw [if_pos (toNat_valid c),Char.ofNat_toNat]

theorem fromU32_eq_some (n : ℕ) (c : Char) (h : fromU32 n=some c) : n=c.toNat := by
  unfold fromU32 at h
  split_ifs at h with hn
  rw [← Option.some.inj h,toNat_ofNat n hn]

end Chars

section Utf16

theorem toNat_unit (n : ℕ) (hn : n<0x10000) : (UInt16.ofNat n).toNat=n := by
  rw [UInt16.toNat_ofNat']
  exact Nat.mod_eq_of_lt hn

theorem readUtf16_put (c : Char) (rest : List UInt16) :
    readUtf16 (putUtf16 c++rest)=.ok (c,rest) := by
  have hbounds := toNat_bounds c
  by_cases hsmall : c.toNat<0x10000
  · have hunit : c.toNat<0xD800 ∨ 0xDFFF<c.toNat := by omega
    simp only [putUtf16,if_pos hsmall,List.cons_append,List.nil_append,readUtf16,
      toNat_unit _ hsmall,if_pos hunit,Char.ofNat_toNat]
  · have hu := toNat_unit (0xD800+(c.toNat-0x10000)/1024) (by omega)
    have hv := toNat_unit (0xDC00+(c.toNat-0x10000)%1024) (by omega)
    have hhigh : ¬(0xD800+(c.toNat-0x10000)/1024<0xD800 ∨
        0xDFFF<0xD800+(c.toNat-0x10000)/1024) := by omega
    have hlead : ¬0xDC00≤0xD800+(c.toNat-0x10000)/1024 := by omega
    have hlow : ¬(0xDC00+(c.toNat-0x10000)%1024<0xDC00 ∨
        0xDFFF<0xDC00+(c.toNat-0x10000)%1024) := by omega
    have hvalue : (0xD800+(c.toNat-0x10000)/1024-0xD800)*1024+
        (0xDC00+(c.toNat-0x10000)%1024-0xDC00)+0x10000=c.toNat := by omega
    simp only [putUtf16,if_neg hsmall,List.cons_append,List.nil_append,readUtf16,hu,hv,if_neg hhigh,
      if_neg hlead,if_neg hlow,hvalue,Char.ofNat_toNat]

theorem put_readUtf16 (units : List UInt16) (c : Char) (rest : List UInt16)
    (h : readUtf16 units=.ok (c,rest)) : units=putUtf16 c++rest := by
  cases units with
  | nil => cases h
  | cons u units =>
    have hbound : u.toNat<0x10000 := u.toNat_lt
    simp only [readUtf16] at h
    split_ifs at h with hunit hlead
    · obtain ⟨rfl,rfl⟩ := Prod.mk.inj (Except.ok.inj h)
      have hn : (Char.ofNat u.toNat).toNat=u.toNat :=
        toNat_ofNat u.toNat (by unfold Nat.isValidChar; omega)
      simp only [putUtf16,hn,if_pos hbound,UInt16.ofNat_toNat,List.cons_append,List.nil_append]
    · cases units with
      | nil => cases h
      | cons v units =>
        simp only at h
        split_ifs at h with hlow
        obtain ⟨rfl,rfl⟩ := Prod.mk.inj (Except.ok.inj h)
        have hn := toNat_ofNat ((u.toNat-0xD800)*1024+(v.toNat-0xDC00)+0x10000)
          (by unfold Nat.isValidChar; omega)
        have hlarge : ¬(u.toNat-0xD800)*1024+(v.toNat-0xDC00)+0x10000<0x10000 := by omega
        have hfirst : 0xD800+((u.toNat-0xD800)*1024+(v.toNat-0xDC00)+0x10000-0x10000)/1024=
            u.toNat := by omega
        have hsecond : 0xDC00+((u.toNat-0xD800)*1024+(v.toNat-0xDC00)+0x10000-0x10000)%1024=
            v.toNat := by omega
        simp only [putUtf16,hn,if_neg hlarge,hfirst,hsecond,UInt16.ofNat_toNat,List.cons_append,
          List.nil_append]

theorem utf16_inverts : SymbolReader.Inverts readUtf16 putUtf16 where
  put_ne_nil c := by
    unfold putUtf16
    simp only
    split_ifs <;> exact List.cons_ne_nil _ _
  read_put := readUtf16_put
  put_read := put_readUtf16

end Utf16

section Utf8

theorem toNat_byte (n : ℕ) (hn : n<256) : (UInt8.ofNat n).toNat=n := by
  rw [UInt8.toNat_ofNat']
  exact Nat.mod_eq_of_lt hn

@[simp] theorem isContinuation_iff (b : UInt8) :
    isContinuation b=true ↔ 0x80≤b.toNat ∧ b.toNat≤0xBF := by
  simp [isContinuation,UInt8.le_iff_toNat_le]

theorem secondOfThree_iff (a b : UInt8) :
    secondOfThree a b=true ↔ (a.toNat=0xE0 ∧ 0xA0≤b.toNat ∧ b.toNat≤0xBF) ∨
      (0xE1≤a.toNat ∧ a.toNat≤0xEC ∧ 0x80≤b.toNat ∧ b.toNat≤0xBF) ∨
      (a.toNat=0xED ∧ 0x80≤b.toNat ∧ b.toNat≤0x9F) ∨
      (0xEE≤a.toNat ∧ a.toNat≤0xEF ∧ 0x80≤b.toNat ∧ b.toNat≤0xBF) := by
  simp [secondOfThree,UInt8.le_iff_toNat_le,← UInt8.toNat_inj,and_assoc,or_assoc]

theorem secondOfFour_iff (a b : UInt8) :
    secondOfFour a b=true ↔ (a.toNat=0xF0 ∧ 0x90≤b.toNat ∧ b.toNat≤0xBF) ∨
      (0xF1≤a.toNat ∧ a.toNat≤0xF3 ∧ 0x80≤b.toNat ∧ b.toNat≤0xBF) ∨
      (a.toNat=0xF4 ∧ 0x80≤b.toNat ∧ b.toNat≤0x8F) := by
  simp [secondOfFour,UInt8.le_iff_toNat_le,← UInt8.toNat_inj,and_assoc,or_assoc]

theorem charWidth_eq (a : UInt8) : charWidth a=
    if a.toNat<0x80 then 1 else if 0xC2≤a.toNat ∧ a.toNat≤0xDF then 2
    else if 0xE0≤a.toNat ∧ a.toNat≤0xEF then 3
    else if 0xF0≤a.toNat ∧ a.toNat≤0xF4 then 4 else 0 := rfl

theorem charWidth_one (a : UInt8) (h : a.toNat<0x80) : charWidth a=1 := by
  rw [charWidth_eq,if_pos h]

theorem charWidth_two (a : UInt8) (h : 0xC2≤a.toNat ∧ a.toNat≤0xDF) : charWidth a=2 := by
  rw [charWidth_eq,if_neg (by omega),if_pos h]

theorem charWidth_three (a : UInt8) (h : 0xE0≤a.toNat ∧ a.toNat≤0xEF) : charWidth a=3 := by
  rw [charWidth_eq,if_neg (by omega),if_neg (by omega),if_pos h]

theorem charWidth_four (a : UInt8) (h : 0xF0≤a.toNat ∧ a.toNat≤0xF4) : charWidth a=4 := by
  rw [charWidth_eq,if_neg (by omega),if_neg (by omega),if_neg (by omega),if_pos h]

theorem readUtf8_put (c : Char) (rest : List UInt8) : readUtf8 (putUtf8 c++rest)=.ok (c,rest) := by
  have hbounds := toNat_bounds c
  by_cases h1 : c.toNat<0x80
  · have ha := toNat_byte c.toNat (by omega)
    have hw := charWidth_one (UInt8.ofNat c.toNat) (by omega)
    simp only [putUtf8,if_pos h1,List.cons_append,List.nil_append,readUtf8,hw,ha,Char.ofNat_toNat]
  · by_cases h2 : c.toNat<0x800
    · have ha := toNat_byte (0xC0+c.toNat/64) (by omega)
      have hb := toNat_byte (0x80+c.toNat%64) (by omega)
      have hw := charWidth_two (UInt8.ofNat (0xC0+c.toNat/64)) (by omega)
      have hcont := (isContinuation_iff (UInt8.ofNat (0x80+c.toNat%64))).mpr (by omega)
      have hvalue : (0xC0+c.toNat/64-0xC0)*64+(0x80+c.toNat%64-0x80)=c.toNat := by omega
      simp only [putUtf8,if_neg h1,if_pos h2,List.cons_append,List.nil_append,readUtf8,hw,hcont,
        if_true,ha,hb,hvalue,Char.ofNat_toNat]
    · by_cases h3 : c.toNat<0x10000
      · have ha := toNat_byte (0xE0+c.toNat/4096) (by omega)
        have hb := toNat_byte (0x80+c.toNat/64%64) (by omega)
        have hc := toNat_byte (0x80+c.toNat%64) (by omega)
        have hw := charWidth_three (UInt8.ofNat (0xE0+c.toNat/4096)) (by omega)
        have hsecond := (secondOfThree_iff (UInt8.ofNat (0xE0+c.toNat/4096))
          (UInt8.ofNat (0x80+c.toNat/64%64))).mpr (by omega)
        have hcont := (isContinuation_iff (UInt8.ofNat (0x80+c.toNat%64))).mpr (by omega)
        have hvalue : (0xE0+c.toNat/4096-0xE0)*4096+(0x80+c.toNat/64%64-0x80)*64+
            (0x80+c.toNat%64-0x80)=c.toNat := by omega
        simp only [putUtf8,if_neg h1,if_neg h2,if_pos h3,List.cons_append,List.nil_append,readUtf8,
          hw,hsecond,hcont,if_true,ha,hb,hc,hvalue,Char.ofNat_toNat]
      · have ha := toNat_byte (0xF0+c.toNat/262144) (by omega)
        have hb := toNat_byte (0x80+c.toNat/4096%64) (by omega)
        have hc := toNat_byte (0x80+c.toNat/64%64) (by omega)
        have hd := toNat_byte (0x80+c.toNat%64) (by omega)
        have hw := charWidth_four (UInt8.ofNat (0xF0+c.toNat/262144)) (by omega)
        have hsecond := (secondOfFour_iff (UInt8.ofNat (0xF0+c.toNat/262144))
          (UInt8.ofNat (0x80+c.toNat/4096%64))).mpr (by omega)
        have hcontC := (isContinuation_iff (UInt8.ofNat (0x80+c.toNat/64%64))).mpr (by omega)
        have hcontD := (isContinuation_iff (UInt8.ofNat (0x80+c.toNat%64))).mpr (by omega)
        have hvalue : (0xF0+c.toNat/262144-0xF0)*262144+(0x80+c.toNat/4096%64-0x80)*4096+
            (0x80+c.toNat/64%64-0x80)*64+(0x80+c.toNat%64-0x80)=c.toNat := by omega
        simp only [putUtf8,if_neg h1,if_neg h2,if_neg h3,List.cons_append,List.nil_append,readUtf8,
          hw,hsecond,hcontC,hcontD,if_true,ha,hb,hc,hd,hvalue,Char.ofNat_toNat]

theorem charWidth_cases (a : UInt8) :
    (charWidth a=1 ∧ a.toNat<0x80) ∨ (charWidth a=2 ∧ 0xC2≤a.toNat ∧ a.toNat≤0xDF) ∨
      (charWidth a=3 ∧ 0xE0≤a.toNat ∧ a.toNat≤0xEF) ∨
      (charWidth a=4 ∧ 0xF0≤a.toNat ∧ a.toNat≤0xF4) ∨ charWidth a=0 := by
  rw [charWidth_eq]
  split_ifs with h1 h2 h3 h4 <;> simp_all

theorem put_readUtf8 (input : List UInt8) (c : Char) (rest : List UInt8)
    (h : readUtf8 input=.ok (c,rest)) : input=putUtf8 c++rest := by
  cases input with
  | nil => cases h
  | cons a input =>
    unfold readUtf8 at h
    obtain ⟨hw,ha⟩ | ⟨hw,ha⟩ | ⟨hw,ha⟩ | ⟨hw,ha⟩ | hw := charWidth_cases a
    · simp only [hw] at h
      obtain ⟨rfl,rfl⟩ := Prod.mk.inj (Except.ok.inj h)
      have hn := toNat_ofNat a.toNat (by unfold Nat.isValidChar; omega)
      simp only [putUtf8,hn,if_pos ha,UInt8.ofNat_toNat,List.cons_append,List.nil_append]
    · simp only [hw] at h
      split at h
      · cases h
      next b tail =>
        split_ifs at h with hb
        obtain ⟨rfl,rfl⟩ := Prod.mk.inj (Except.ok.inj h)
        rw [isContinuation_iff] at hb
        generalize hm : (a.toNat-0xC0)*64+(b.toNat-0x80)=m
        have hn := toNat_ofNat m (by unfold Nat.isValidChar; omega)
        have hfirst : 0xC0+m/64=a.toNat := by omega
        have hsecond : 0x80+m%64=b.toNat := by omega
        have h1 : ¬m<0x80 := by omega
        have h2 : m<0x800 := by omega
        simp only [putUtf8,hn,if_neg h1,if_pos h2,hfirst,hsecond,UInt8.ofNat_toNat,
          List.cons_append,List.nil_append]
    · simp only [hw] at h
      split at h
      · cases h
      next b tail =>
        split_ifs at h with hb
        split at h
        · cases h
        next d tail =>
          split_ifs at h with hd
          obtain ⟨rfl,rfl⟩ := Prod.mk.inj (Except.ok.inj h)
          rw [secondOfThree_iff] at hb
          rw [isContinuation_iff] at hd
          generalize hm : (a.toNat-0xE0)*4096+(b.toNat-0x80)*64+(d.toNat-0x80)=m
          have hn := toNat_ofNat m (by unfold Nat.isValidChar; omega)
          have hfirst : 0xE0+m/4096=a.toNat := by omega
          have hsecond : 0x80+m/64%64=b.toNat := by omega
          have hthird : 0x80+m%64=d.toNat := by omega
          have h2 : ¬m<0x800 := by omega
          have h1 : ¬m<0x80 := by omega
          have h3 : m<0x10000 := by omega
          simp only [putUtf8,hn,if_neg h1,if_neg h2,if_pos h3,hfirst,hsecond,hthird,
            UInt8.ofNat_toNat,List.cons_append,List.nil_append]
    · simp only [hw] at h
      split at h
      · cases h
      next b tail =>
        split_ifs at h with hb
        split at h
        · cases h
        next d tail =>
          split_ifs at h with hd
          split at h
          · cases h
          next e tail =>
            split_ifs at h with he
            obtain ⟨rfl,rfl⟩ := Prod.mk.inj (Except.ok.inj h)
            rw [secondOfFour_iff] at hb
            rw [isContinuation_iff] at hd he
            generalize hm : (a.toNat-0xF0)*262144+(b.toNat-0x80)*4096+(d.toNat-0x80)*64+
              (e.toNat-0x80)=m
            have hn := toNat_ofNat m (by unfold Nat.isValidChar; omega)
            have hfirst : 0xF0+m/262144=a.toNat := by omega
            have hsecond : 0x80+m/4096%64=b.toNat := by omega
            have hthird : 0x80+m/64%64=d.toNat := by omega
            have hfourth : 0x80+m%64=e.toNat := by omega
            have h3 : ¬m<0x10000 := by omega
            have h2 : ¬m<0x800 := by omega
            have h1 : ¬m<0x80 := by omega
            simp only [putUtf8,hn,if_neg h1,if_neg h2,if_neg h3,hfirst,hsecond,hthird,hfourth,
              UInt8.ofNat_toNat,List.cons_append,List.nil_append]
    · simp [hw] at h

theorem utf8_inverts : SymbolReader.Inverts readUtf8 putUtf8 where
  put_ne_nil c := by
    unfold putUtf8
    simp only
    split_ifs <;> exact List.cons_ne_nil _ _
  read_put := readUtf8_put
  put_read := put_readUtf8

theorem fromUtf8_eq_some_iff (b : List UInt8) (s : Text) : fromUtf8 b=some s ↔ b=asBytes s :=
  utf8_inverts.readAll_eq_some_iff b s

theorem fromUtf16_eq_some_iff (units : List UInt16) (s : Text) :
    fromUtf16 units=some s ↔ units=encodeUtf16 s :=
  utf16_inverts.readAll_eq_some_iff units s

end Utf8

end Codecs
end InterpretThis
