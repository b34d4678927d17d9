import InterpretThis.Struct.RoundTrip

namespace InterpretThis
namespace Struct

open Bytes

variable {O : Type} (truthyOther : O → Bool) (mode : Mode)

section Calm

theorem packItem_calm (code : Code) (hc : code.isItem) (v : Value O) :
    packItem truthyOther mode code v≠.error .panic := by
  have integer (r : ℤ → Except Failure (List UInt8)) (hr : ∀ n,r n≠.error .panic) :
      (asI128 v).bind r≠.error .panic := by
    cases v with
    | int n =>
      unfold asI128
      dsimp only
      by_cases h : -2^127≤n ∧ n<2^127
      · rw [if_pos h]
        exact hr n
      · rw [if_neg h]
        intro h; cases h
    | bool b => exact hr b.toInt
    | float | bytes | bytearray | other => intro h; cases h
  have signed (k : ℕ) (code : Code) : packSigned k code v≠.error .panic := by
    apply integer
    intro n
    split_ifs
    · intro h; cases h
    · intro h; cases h
  have unsigned (k : ℕ) (code : Code) : packUnsigned k code v≠.error .panic := by
    apply integer
    intro n
    split_ifs
    · intro h; cases h
    · intro h; cases h
  have double (r : F64 → List UInt8) : (asF64 v).map r≠.error .panic := by
    cases v with
    | int n =>
      unfold asF64
      dsimp only
      by_cases h : -2^63≤n ∧ n<2^63
      · rw [if_pos h]
        intro h; cases h
      · rw [if_neg h]
        intro h; cases h
    | float | bool | bytes | bytearray | other => intro h; cases h
  cases code with
  | x => exact absurd rfl hc.1
  | s => exact absurd rfl hc.2
  | c =>
    unfold packItem
    dsimp only
    split
    · intro h; cases h
    · intro h; cases h
  | bool => intro h; cases h
  | b | h | i | q => exact signed _ _
  | B | H | I | Q => exact unsigned _ _
  | l =>
    unfold packItem
    dsimp only
    split_ifs
    · exact signed _ _
    · exact signed _ _
  | L =>
    unfold packItem
    dsimp only
    split_ifs
    · exact unsigned _ _
    · exact unsigned _ _
  | f | d => exact double _

theorem packItems_calm (code : Code) (hc : code.isItem) (n : ℕ) (values : List (Value O))
    (out : List UInt8) (hn : n≤values.length) (hl : out.length+n*code.size mode<2^63) :
    packItems truthyOther mode code n values out≠.error .panic := by
  induction n generalizing values out with
  | zero => intro h; cases h
  | succ n ih =>
    have hmul : (n+1)*code.size mode=n*code.size mode+code.size mode := Nat.succ_mul _ _
    cases values with
    | nil => exact absurd hn (Nat.not_succ_le_zero n)
    | cons v values =>
      rw [packItems]
      cases hi : packItem truthyOther mode code v with
      | error e =>
        intro h
        cases h
        exact packItem_calm truthyOther mode code hc v hi
      | ok bytes =>
        have hlen := (packItem_ok truthyOther mode code hc v bytes hi).1
        have hext := extend_fits out (order mode bytes) (by rw [length_order,hlen]; omega)
        simp only [bind,Except.bind,hext]
        apply ih values _ (Nat.le_of_succ_le_succ hn)
        rw [List.length_append,length_order,hlen]
        omega

theorem packField_calm (f : Field) (values : List (Value O)) (out : List UInt8)
    (hn : f.values≤values.length) (hl : f.start mode out.length+f.width mode<2^63) :
    packField truthyOther mode f values out≠.error .panic := by
  have hle := le_start mode f out.length
  have halign := (alignTo_short mode f out.length (by omega)).1
  generalize hbase : out++List.replicate (f.start mode out.length-out.length) 0=base
  have hbl : base.length=f.start mode out.length := by
    rw [← hbase,List.length_append,List.length_replicate]
    omega
  have hext : extend out (List.replicate (alignTo out.length (f.code.align mode)-out.length) 0)=
      .ok base := by
    rw [halign,← hbase]
    apply extend_fits
    rw [List.length_replicate]
    omega
  have hone (hc : f.code.size mode=1) : f.width mode=f.count := by
    unfold Field.width
    rw [hc,Nat.mul_one]
  unfold packField
  rw [hext]
  simp only [bind,Except.bind]
  cases hcode : f.code with
  | x =>
    have hw := hone (by rw [hcode]; rfl)
    have hdone := extend_fits base (List.replicate f.count 0)
      (by rw [hbl,List.length_replicate]; omega)
    simp only [hdone]
    intro h; cases h
  | s =>
    have hw := hone (by rw [hcode]; rfl)
    have hv : f.values=1 := by
      unfold Field.values
      rw [hcode]
    cases values with
    | nil =>
      rw [hv] at hn
      exact absurd hn (Nat.not_succ_le_zero 0)
    | cons v values =>
      cases v with
      | bytes bs | bytearray bs =>
        have hdone := extend_fits base (resize f.count bs) (by rw [hbl,length_resize]; omega)
        simp only [bytesArg,hdone]
        intro h; cases h
      | int | bool | float | other => intro h; cases h
  | _ =>
    have hv : f.values=f.count := by
      unfold Field.values
      rw [hcode]
    have hitem : f.code.isItem := by
      rw [hcode]
      exact ⟨fun h => (by cases h),fun h => (by cases h)⟩
    have h := packItems_calm truthyOther mode f.code hitem f.count values base (hv ▸ hn)
      (by rw [hbl]; exact hl)
    rw [hcode] at h
    exact h

theorem packFields_calm (fields : List Field) (values : List (Value O)) (out : List UInt8)
    (hn : (fields.map Field.values).sum≤values.length)
    (hl : endFrom mode out.length fields<2^63) :
    packFields truthyOther mode fields values out≠.error .panic := by
  induction fields generalizing values out with
  | nil => intro h; cases h
  | cons f fields ih =>
    rw [List.map_cons,List.sum_cons] at hn
    have hb := bounds mode f fields out.length _ hl
    have hle := le_start mode f out.length
    rw [packFields]
    cases hf : packField truthyOther mode f values out with
    | error e =>
      intro h
      cases h
      exact packField_calm truthyOther mode f values out (by omega) hb hf
    | ok r =>
      obtain ⟨vs,more,hv,hlen,-,hout,-,-⟩ :=
        packField_ok truthyOther mode f values r.2 out r.1 (by omega) hf
      apply ih
      · rw [hv,List.length_append,hlen] at hn
        omega
      · rw [hout]
        exact hl

end Calm

section Singles

/-- The words in single precision that a buffer holds, most significant byte first. -/
def singlesFrom (buf : List UInt8) : ℕ → ℕ → List (List UInt8)
  | 0,_ => []
  | n+1,pos => order mode ((buf.drop pos).take 4)::singlesFrom buf n (pos+4)

def singles (buf : List UInt8) : List Field → ℕ → List (List UInt8)
  | [],_ => []
  | f::fields,pos =>
    (if f.code=.f then singlesFrom mode buf f.count (f.start mode pos) else [])++
      singles buf fields (f.start mode pos+f.width mode)

theorem order_inj (a b : List UInt8) : order mode a=order mode b ↔ a=b := by
  constructor
  · intro h
    rw [← order_order mode a,h,order_order]
  · exact congrArg _

theorem append_eq_iff {a b c d : List UInt8} (h : a.length=c.length) :
    a++b=c++d ↔ a=c ∧ b=d :=
  ⟨fun he => List.append_inj he h,fun he => by rw [he.1,he.2]⟩

theorem normalItems_agree (buf : List UInt8) (n pos : ℕ) (hl : pos+n*4≤buf.length) :
    normalItems mode settled .f buf n pos=normalItems mode zeroed .f buf n pos ↔
      ∀ w∈singlesFrom mode buf n pos,settled .f w=w := by
  induction n generalizing pos with
  | zero => simp [normalItems,singlesFrom]
  | succ n ih =>
    have hchunk : (order mode ((buf.drop pos).take 4)).length=4 := by
      rw [length_order]
      exact length_chunk buf pos 4 (by omega)
    have hs := settled_sizing mode .f _ hchunk
    have hz := zeroed_sizing mode .f _ hchunk
    have hsize : Code.size mode .f=4 := rfl
    have hlen : (order mode (settled .f (order mode ((buf.drop pos).take 4)))).length=
        (order mode (zeroed .f (order mode ((buf.drop pos).take 4)))).length := by
      rw [length_order,length_order,hs,hz]
    have hplain : zeroed .f (order mode ((buf.drop pos).take 4))=
        order mode ((buf.drop pos).take 4) := rfl
    simp only [normalItems,hsize,singlesFrom,List.forall_mem_cons]
    rw [append_eq_iff hlen,order_inj,hplain,ih (pos+4) (by omega)]

/-- The two normal forms of a buffer agree when its single words survive the conversions. -/
theorem normalFields_agree (buf : List UInt8) (fields : List Field) (pos : ℕ)
    (hl : endFrom mode pos fields≤buf.length) :
    normalFields mode settled buf fields pos=normalFields mode zeroed buf fields pos ↔
      ∀ w∈singles mode buf fields pos,settled .f w=w := by
  induction fields generalizing pos with
  | nil => simp [normalFields,singles]
  | cons f fields ih =>
    have hb : f.start mode pos+f.width mode≤buf.length := (le_endFrom mode fields _).trans hl
    have hs := length_normalField mode (settled_sizing mode) buf f (f.start mode pos) hb
    have hz := length_normalField mode (zeroed_sizing mode) buf f (f.start mode pos) hb
    have hfield : normalField mode settled buf f (f.start mode pos)=
        normalField mode zeroed buf f (f.start mode pos) ↔
        ∀ w∈(if f.code=.f then singlesFrom mode buf f.count (f.start mode pos) else []),
          settled .f w=w := by
      by_cases hc : f.code=.f
      · rw [if_pos hc]
        unfold Field.width at hb
        rw [hc] at hb
        unfold normalField
        rw [hc]
        exact normalItems_agree mode buf f.count _ hb
      · rw [if_neg hc]
        have same : normalField mode settled buf f (f.start mode pos)=
            normalField mode zeroed buf f (f.start mode pos) := by
          have items (n p : ℕ) : normalItems mode settled f.code buf n p=
              normalItems mode zeroed f.code buf n p := by
            induction n generalizing p with
            | zero => rfl
            | succ n ih =>
              rw [normalItems,normalItems,ih]
              unfold settled
              rw [if_neg hc]
          unfold normalField
          cases hcode : f.code with
          | x | s => rfl
          | _ =>
            rw [hcode] at items
            exact items _ _
        simp [same]
    simp only [normalFields,singles,List.forall_mem_append]
    rw [List.append_cancel_left_eq,append_eq_iff (hs.trans hz.symm),hfield,
      ih _ hl]

end Singles

/-- A host string, which never has more than `isize::MAX` bytes. -/
structure Source where
  text : Text
  fits : text.length<2^63

/-- What the module promises for a format whose fields are written so. -/
structure Exact (fmt : Text) (written : List Field) : Prop where
  /-- A size is the exact one. -/
  sizes : ∀ n,calcsize fmt=.ok n → n=endFrom mode 0 written
  /-- What is packed has that size and is unpacked as what was stored. -/
  packs : ∀ (values : List (Value O)) bytes,pack truthyOther fmt values=.ok bytes →
    calcsize fmt=.ok bytes.length ∧
      unpack fmt bytes=.ok (storedFields truthyOther written values)
  /-- A buffer of that size is unpacked, and packed again it is the buffer settled. -/
  unpacks : ∀ buf : List UInt8,calcsize fmt=.ok buf.length →
    ∃ values : List (Value O),unpack fmt buf=.ok values ∧
      values.length=(written.map Field.values).sum ∧
      pack truthyOther fmt values=.ok (normalFields mode settled buf written 0)
  /-- No index is out of range. -/
  calm : (∀ values : List (Value O),pack truthyOther fmt values≠.error .panic) ∧
    ∀ buf : List UInt8,(unpack fmt buf : Except Failure (List (Value O)))≠.error .panic

section Format

variable {fmt : Text} {mode} {written : List Field} (hw : writtenFormat fmt=.ok (mode,written))

include hw

theorem parsed_written : parseFormat fmt=.ok (mode,written.map wrapField) := by
  rw [parseFormat_wrap,hw]
  rfl

theorem calcsize_total : ∃ n,calcsize fmt=.ok n ∧ n<2^63 := by
  refine ⟨_,congrArg (· >>= _) (parsed_written hw),?_⟩
  split_ifs with h
  · exact h
  · decide

variable (hend : endFrom mode 0 written<2^63)

include hend

theorem parsed_exact : parseFormat fmt=.ok (mode,written) ∧
    layoutSize mode written=endFrom mode 0 written := by
  have h64 : endFrom mode 0 written<2^64 := by omega
  refine ⟨?_,layoutFrom_exact mode written 0 h64⟩
  rw [parsed_written hw,wrapField_exact mode written 0 h64]

theorem calcsize_exact : calcsize fmt=.ok (endFrom mode 0 written) := by
  obtain ⟨hp,hl⟩ := parsed_exact hw hend
  unfold calcsize
  rw [hp]
  simp only [bind,Except.bind,hl]
  exact congrArg Except.ok (if_pos hend)

theorem unpack_exact (buf : List UInt8) (hb : buf.length=endFrom mode 0 written) :
    (unpack fmt buf : Except Failure (List (Value O)))=unpackFields mode buf written 0 := by
  obtain ⟨hp,hl⟩ := parsed_exact hw hend
  unfold unpack
  rw [hp]
  simp only [bind,Except.bind]
  rw [if_neg (by rw [hl]; exact not_not.mpr hb)]

theorem pack_exact (hfmt : fmt.length<2^63) (values : List (Value O))
    (hv : values.length=(written.map Field.values).sum) :
    pack truthyOther fmt values=packFields truthyOther mode written values [] := by
  obtain ⟨hp,-⟩ := parsed_exact hw hend
  have hlen := length_writtenFormat fmt mode written hw
  have hcount := valueCount_exact mode written (by omega)
  unfold pack
  rw [hp]
  simp only [bind,Except.bind]
  rw [if_neg (by rw [hcount]; exact not_not.mpr hv)]

theorem pack_refused (hfmt : fmt.length<2^63) (values : List (Value O))
    (hv : values.length≠(written.map Field.values).sum) :
    ∃ message,pack truthyOther fmt values=.error (.structError message) := by
  obtain ⟨hp,-⟩ := parsed_exact hw hend
  have hlen := length_writtenFormat fmt mode written hw
  have hcount := valueCount_exact mode written (by omega)
  unfold pack
  rw [hp]
  simp only [bind,Except.bind]
  rw [if_pos (by rw [hcount]; exact hv)]
  exact ⟨_,rfl⟩

theorem unpack_refused (buf : List UInt8) (hb : buf.length≠endFrom mode 0 written) :
    ∃ message,(unpack fmt buf : Except Failure (List (Value O)))=.error (.structError message) := by
  obtain ⟨hp,hl⟩ := parsed_exact hw hend
  unfold unpack
  rw [hp]
  simp only [bind,Except.bind]
  rw [if_pos (by rw [hl]; exact hb)]
  exact ⟨_,rfl⟩

theorem exact_of_fits (hfmt : fmt.length<2^63) : Exact truthyOther mode fmt written where
  sizes := by
    intro n hn
    rw [calcsize_exact hw hend] at hn
    cases hn
    rfl
  packs := by
    intro values bytes hp
    by_cases hv : values.length=(written.map Field.values).sum
    · rw [pack_exact truthyOther hw hend hfmt values hv] at hp
      obtain ⟨more,-,hlen,h63,hread⟩ :=
        packFields_ok truthyOther mode written values [] bytes (by decide) hp
      have hb : bytes.length=endFrom mode 0 written := hlen
      refine ⟨by rw [calcsize_exact hw hend,hb],?_⟩
      rw [unpack_exact hw hend bytes hb]
      have h := hread [] (by rw [List.append_nil]; omega)
      rw [List.append_nil] at h
      exact h
    · obtain ⟨message,he⟩ := pack_refused truthyOther hw hend hfmt values hv
      rw [he] at hp
      cases hp
  unpacks := by
    intro buf hc
    rw [calcsize_exact hw hend] at hc
    have hb : buf.length=endFrom mode 0 written := (Except.ok.inj hc).symm
    obtain ⟨values,hread,hn,hpack⟩ :=
      unpackFields_total truthyOther mode buf written 0 hb.ge (by omega)
    refine ⟨values,(unpack_exact hw hend buf hb).trans hread,hn,?_⟩
    exact (pack_exact truthyOther hw hend hfmt values hn).trans (hpack [] rfl)
  calm := by
    constructor
    · intro values
      by_cases hv : values.length=(written.map Field.values).sum
      · rw [pack_exact truthyOther hw hend hfmt values hv]
        exact packFields_calm truthyOther mode written values [] hv.ge hend
      · obtain ⟨message,he⟩ := pack_refused truthyOther hw hend hfmt values hv
        rw [he]
        intro h; cases h
    · intro buf
      by_cases hb : buf.length=endFrom mode 0 written
      · obtain ⟨values,hread,-,-⟩ :=
          unpackFields_total truthyOther mode buf written 0 hb.ge (by omega)
        rw [unpack_exact hw hend buf hb,hread]
        intro h; cases h
      · obtain ⟨message,he⟩ := unpack_refused (O := O) hw hend buf hb
        rw [he]
        intro h; cases h

end Format

/-- The module keeps its promise exactly for the formats whose size fits an `i64`, and a buffer comes back with zeroed padding and ones for its truth values exactly when its single words survive the conversion. -/
theorem struct_exact {mode : Mode} (fmt : Source) (written : List Field)
    (h : writtenFormat fmt.text=.ok (mode,written)) :
    (Exact truthyOther mode fmt.text written ↔ endFrom mode 0 written<2^63) ∧
      ∀ buf : List UInt8,buf.length=endFrom mode 0 written →
        (normalFields mode settled buf written 0=normalFields mode zeroed buf written 0 ↔
          ∀ w∈singles mode buf written 0,settled .f w=w) := by
  refine ⟨⟨?_,fun hend => exact_of_fits truthyOther h hend fmt.fits⟩,?_⟩
  · intro hexact
    obtain ⟨n,hn,hlt⟩ := calcsize_total h
    rw [← hexact.sizes n hn]
    exact hlt
  · intro buf hb
    exact normalFields_agree mode buf written 0 hb.ge

section Samples

/-- `>hx?2sf`. -/
def sampleFormat : Source := ⟨['>','h','x','?','2','s','f'],by decide⟩

theorem sample_exact : Exact (fun _ : Unit => true) .big sampleFormat.text
    [⟨.h,1⟩,⟨.x,1⟩,⟨.bool,1⟩,⟨.s,2⟩,⟨.f,1⟩] :=
  (struct_exact _ sampleFormat _ rfl).1.mpr (by decide)

/-- `18446744073709551617x`. -/
def wrappedPad : Text :=
  ['1','8','4','4','6','7','4','4','0','7','3','7','0','9','5','5','1','6','1','7','x']

/-- `18446744073709551615s1s`. -/
def wrappedStrings : Text :=
  ['1','8','4','4','6','7','4','4','0','7','3','7','0','9','5','5','1','6','1','5','s','1','s']

def signaling : List UInt8 := [0x7f,0x80,0,1]

/-- Counts wrap around instead of being refused, a wrapped layout makes `unpack` index outside of its buffer, and a signaling NaN is not packed as it was. -/
theorem counts_wrap :
    writtenFormat wrappedPad=.ok (.native,[⟨.x,2^64+1⟩]) ∧ calcsize wrappedPad=.ok 1 ∧
      pack (fun _ : Unit => true) wrappedPad []=.ok [0] ∧
      calcsize wrappedStrings=.ok 0 ∧
      (unpack wrappedStrings [] : Except Failure (List (Value Unit)))=.error .panic ∧
      normalFields .big settled signaling [⟨.f,1⟩] 0≠
        normalFields .big zeroed signaling [⟨.f,1⟩] 0 := by
  refine ⟨by decide,by decide,?_,by decide,?_,by decide⟩
  · rfl
  · rfl

end Samples

end Struct
end InterpretThis
