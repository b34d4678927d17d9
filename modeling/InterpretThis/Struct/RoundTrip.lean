import InterpretThis.Struct.Packing

namespace InterpretThis
namespace Struct

open Bytes

variable {O : Type} (truthyOther : O → Bool) (mode : Mode)

section Chunks

@[simp] theorem order_order (bytes : List UInt8) : order mode (order mode bytes)=bytes := by
  unfold order
  split_ifs
  · rfl
  · exact List.reverse_reverse bytes

@[simp] theorem length_order (bytes : List UInt8) : (order mode bytes).length=bytes.length := by
  unfold order
  split_ifs
  · rfl
  · exact List.length_reverse

theorem slice_exact (buf : List UInt8) (pos n : ℕ) (hl : pos+n≤buf.length) :
    slice buf pos (pos+n)=.ok ((buf.drop pos).take n) := by
  unfold slice
  rw [if_pos ⟨Nat.le_add_right _ _,hl⟩,Nat.add_sub_cancel_left]

theorem slice_middle (pre chunk tail : List UInt8) :
    slice (pre++(chunk++tail)) pre.length (pre.length+chunk.length)=.ok chunk := by
  rw [slice_exact _ _ _ (by simp)]
  simp

theorem take_exact (buf : List UInt8) (pos n : ℕ) (hl : pos+n≤buf.length) (hb : buf.length<2^64) :
    take mode buf pos n=.ok (order mode ((buf.drop pos).take n)) := by
  unfold take
  rw [wrap_self _ (by omega),if_neg (by omega),slice_exact buf pos n hl]
  rfl

theorem extend_ok (out bytes out' : List UInt8) (h : extend out bytes=.ok out') :
    out'=out++bytes ∧ out'.length<2^63 := by
  unfold extend at h
  split_ifs at h with hl
  cases h
  exact ⟨rfl,by rw [List.length_append]; exact hl⟩

theorem extend_fits (out bytes : List UInt8) (h : out.length+bytes.length<2^63) :
    extend out bytes=.ok (out++bytes) := if_pos h

@[simp] theorem length_resize (count : ℕ) (bytes : List UInt8) :
    (resize count bytes).length=count := by
  unfold resize
  rw [List.length_append,List.length_take,List.length_replicate]
  omega

end Chunks

section Packed

/-- Packed elements stand behind the output so far, and are unpacked from there. -/
theorem packItems_ok (code : Code) (hc : code.isItem) (n : ℕ) (values rest : List (Value O))
    (out out' : List UInt8) (ho : out.length<2^63)
    (h : packItems truthyOther mode code n values out=.ok (out',rest)) :
    ∃ vs more,values=vs++rest ∧ vs.length=n ∧ out'=out++more ∧
      out'.length=out.length+n*code.size mode ∧ out'.length<2^63 ∧
      ∀ tail : List UInt8,(out'++tail).length<2^64 →
        unpackItems mode code (out'++tail) n out.length=
          .ok (vs.map (stored truthyOther code),out'.length) := by
  induction n generalizing values out with
  | zero =>
    cases h
    exact ⟨[],[],rfl,rfl,(List.append_nil _).symm,by omega,ho,fun _ _ => rfl⟩
  | succ n ih =>
    cases values with
    | nil => cases h
    | cons v values =>
      rw [packItems] at h
      cases hi : packItem truthyOther mode code v with
      | error e =>
        rw [hi] at h
        cases h
      | ok bytes =>
        cases he : extend out (order mode bytes) with
        | error e =>
          rw [hi] at h
          simp only [bind,Except.bind,he] at h
          cases h
        | ok next =>
          rw [hi] at h
          simp only [bind,Except.bind,he] at h
          obtain ⟨hlen,hstored⟩ := packItem_ok truthyOther mode code hc v bytes hi
          obtain ⟨hnext,hfits⟩ := extend_ok _ _ _ he
          obtain ⟨vs,more,hv,hn,hout,hl,hl63,hread⟩ := ih values next hfits h
          have hnl : next.length=out.length+code.size mode := by
            rw [hnext,List.length_append,length_order,hlen]
          refine ⟨v::vs,order mode bytes++more,by rw [hv]; rfl,by rw [List.length_cons,hn],?_,?_,
            hl63,?_⟩
          · rw [hout,hnext,List.append_assoc]
          · rw [hl,hnl]
            ring
          · intro tail htail
            have hchunk : out'++tail=out++(order mode bytes++(more++tail)) := by
              rw [hout,hnext]
              simp only [List.append_assoc]
            have hbound : out.length+code.size mode≤(out'++tail).length := by
              rw [hchunk]
              simp only [List.length_append,length_order]
              omega
            have hdrop : ((out'++tail).drop out.length).take (code.size mode)=order mode bytes := by
              rw [hchunk,List.drop_left,← hlen,← length_order mode bytes,List.take_left]
            rw [unpackItems,take_exact mode _ _ _ hbound htail,hdrop,order_order,
              wrap_self _ (by omega)]
            have hrest := hread tail htail
            rw [hnl] at hrest
            simp only [bind,Except.bind,hrest,hstored]
            rfl

/-- The bytes of a bytes-like value. -/
def Value.rawBytes : Value O → List UInt8
  | .bytes bs | .bytearray bs => bs
  | _ => []

/-- The values that a field's values are stored as. -/
def storedField (f : Field) (values : List (Value O)) : List (Value O) :=
  match f.code with
  | .x => []
  | .s => values.map fun v => .bytes (resize f.count v.rawBytes)
  | code => values.map (stored truthyOther code)

def storedFields : List Field → List (Value O) → List (Value O)
  | [],_ => []
  | f::fields,values =>
    storedField truthyOther f (values.take f.values)++storedFields fields (values.drop f.values)

theorem alignTo_short (f : Field) (offset : ℕ) (h : offset<2^63) :
    alignTo offset (f.code.align mode)=f.start mode offset ∧ f.start mode offset<offset+8 := by
  have ha : f.code.align mode≤8 := by
    cases f.code <;> cases mode <;> decide
  have hs : f.start mode offset<offset+8 := by
    unfold Field.start alignUp
    split_ifs with h1
    · have hd := Nat.div_mul_le_self (offset+f.code.align mode-1) (f.code.align mode)
      omega
    · omega
  exact ⟨alignTo_exact _ _ (show f.start mode offset<2^64 by omega),hs⟩

theorem bytesArg_ok (v : Value O) (bs : List UInt8) (h : bytesArg v=.ok bs) : v.rawBytes=bs := by
  cases v with
  | bytes | bytearray =>
    cases h
    rfl
  | int | bool | float | other => cases h

theorem packField_ok (f : Field) (values rest : List (Value O)) (out out' : List UInt8)
    (ho : out.length<2^63) (h : packField truthyOther mode f values out=.ok (out',rest)) :
    ∃ vs more,values=vs++rest ∧ vs.length=f.values ∧ out'=out++more ∧
      out'.length=f.start mode out.length+f.width mode ∧ out'.length<2^63 ∧
      ∀ tail : List UInt8,(out'++tail).length<2^64 →
        unpackField mode (out'++tail) f (alignTo out.length (f.code.align mode))=
          .ok (storedField truthyOther f vs,out'.length) := by
  obtain ⟨halign,hstart⟩ := alignTo_short mode f out.length ho
  have hle := le_start mode f out.length
  unfold packField at h
  rw [halign] at h
  cases hp : extend out (List.replicate (f.start mode out.length-out.length) 0) with
  | error e =>
    rw [hp] at h
    cases h
  | ok base =>
    rw [hp] at h
    simp only [bind,Except.bind] at h
    obtain ⟨hbase,hbase63⟩ := extend_ok _ _ _ hp
    have hbl : base.length=f.start mode out.length := by
      rw [hbase,List.length_append,List.length_replicate]
      omega
    rw [halign,← hbl]
    have items (hc : f.code.isItem)
        (hi : packItems truthyOther mode f.code f.count values base=.ok (out',rest))
        (hv : f.values=f.count) (hs : ∀ vs : List (Value O),storedField truthyOther f vs=
          vs.map (stored truthyOther f.code))
        (hu : ∀ buf pos,unpackField mode buf f pos=
          (unpackItems mode f.code buf f.count pos : Except Failure (List (Value O)×ℕ))) :
        ∃ vs more,values=vs++rest ∧ vs.length=f.values ∧ out'=out++more ∧
          out'.length=base.length+f.width mode ∧ out'.length<2^63 ∧
          ∀ tail : List UInt8,(out'++tail).length<2^64 →
            unpackField mode (out'++tail) f base.length=
              .ok (storedField truthyOther f vs,out'.length) := by
      obtain ⟨vs,more,hvs,hn,hout,hl,hl63,hread⟩ :=
        packItems_ok truthyOther mode f.code hc f.count values rest base out' hbase63 hi
      refine ⟨vs,List.replicate (f.start mode out.length-out.length) 0++more,hvs,hn.trans hv.symm,
        by rw [hout,hbase,List.append_assoc],hl,hl63,?_⟩
      intro tail htail
      rw [hu,hs]
      exact hread tail htail
    cases hcode : f.code with
    | x =>
      simp only [hcode] at h
      cases he : extend base (List.replicate f.count 0) with
      | error e =>
        rw [he] at h
        cases h
      | ok done =>
        rw [he] at h
        cases h
        obtain ⟨hdone,hdone63⟩ := extend_ok _ _ _ he
        have hlen : out'.length=base.length+f.width mode := by
          rw [hdone,List.length_append,List.length_replicate]
          unfold Field.width Code.size
          rw [hcode]
          simp
        refine ⟨[],_,rfl,by unfold Field.values; rw [hcode]; rfl,
          by rw [hdone,hbase,List.append_assoc],hlen,hdone63,?_⟩
        intro tail htail
        have hw : f.width mode=f.count := by
          unfold Field.width Code.size
          rw [hcode]
          simp
        unfold unpackField storedField
        rw [hcode]
        dsimp only
        rw [wrap_self _ (by omega),hlen,hw]
    | s =>
      simp only [hcode] at h
      have hw : f.width mode=f.count := by
        unfold Field.width Code.size
        rw [hcode]
        simp
      cases values with
      | nil => cases h
      | cons v values =>
        dsimp only at h
        cases hb : bytesArg v with
        | error e =>
          rw [hb] at h
          cases h
        | ok bytes =>
          rw [hb] at h
          dsimp only at h
          cases he : extend base (resize f.count bytes) with
          | error e =>
            rw [he] at h
            cases h
          | ok done =>
            rw [he] at h
            cases h
            obtain ⟨hdone,hdone63⟩ := extend_ok _ _ _ he
            have hlen : out'.length=base.length+f.width mode := by
              rw [hdone,List.length_append,length_resize,hw]
            refine ⟨[v],_,rfl,by unfold Field.values; rw [hcode]; rfl,
              by rw [hdone,hbase,List.append_assoc],hlen,hdone63,?_⟩
            intro tail htail
            have hchunk : slice (out'++tail) base.length (base.length+f.count)=
                .ok (resize f.count bytes) := by
              have hm := slice_middle base (resize f.count bytes) tail
              rw [length_resize,← List.append_assoc,← hdone] at hm
              exact hm
            unfold unpackField storedField
            rw [hcode]
            dsimp only
            rw [wrap_self _ (by omega),hchunk,hlen,hw]
            simp only [bind,Except.bind,List.map_cons,List.map_nil]
            rw [bytesArg_ok v bytes hb]
            rfl
    | _ =>
      apply items
      · rw [hcode]
        exact ⟨(fun h => nomatch h),fun h => nomatch h⟩
      · simp only [hcode] at h ⊢
        exact h
      · unfold Field.values
        rw [hcode]
      · intro vs
        unfold storedField
        rw [hcode]
      · intro buf pos
        unfold unpackField
        rw [hcode]

theorem packFields_ok (fields : List Field) (values : List (Value O)) (out out' : List UInt8)
    (ho : out.length<2^63) (h : packFields truthyOther mode fields values out=.ok out') :
    ∃ more,out'=out++more ∧ out'.length=endFrom mode out.length fields ∧ out'.length<2^63 ∧
      ∀ tail : List UInt8,(out'++tail).length<2^64 →
        unpackFields mode (out'++tail) fields out.length=
          .ok (storedFields truthyOther fields values) := by
  induction fields generalizing values out with
  | nil =>
    cases h
    exact ⟨[],(List.append_nil _).symm,rfl,ho,fun _ _ => rfl⟩
  | cons f fields ih =>
    rw [packFields] at h
    cases hf : packField truthyOther mode f values out with
    | error e =>
      rw [hf] at h
      cases h
    | ok r =>
      rw [hf] at h
      simp only [bind,Except.bind] at h
      obtain ⟨vs,more,hvs,hn,hnext,hlen,hfits,hread⟩ :=
        packField_ok truthyOther mode f values r.2 out r.1 ho hf
      obtain ⟨more',hout,hend,hl63,hrest⟩ := ih r.2 r.1 hfits h
      refine ⟨more++more',by rw [hout,hnext,List.append_assoc],?_,hl63,?_⟩
      · rw [hend,hlen]
        rfl
      · intro tail htail
        have hsplit : out'++tail=r.1++(more'++tail) := by rw [hout,List.append_assoc]
        have htake : values.take f.values=vs := by rw [hvs,← hn,List.take_left]
        have hdrop : values.drop f.values=r.2 := by rw [hvs,← hn,List.drop_left]
        have hfirst := hread (more'++tail) (by rw [← hsplit]; exact htail)
        rw [← hsplit] at hfirst
        rw [unpackFields,hfirst]
        simp only [bind,Except.bind,hrest tail htail,storedFields,htake,hdrop]
        rfl

end Packed

section Normal

/-- The elements in a buffer, each under `norm`. -/
def normalItems (norm : Code → List UInt8 → List UInt8) (code : Code) (buf : List UInt8) :
    ℕ → ℕ → List UInt8
  | 0,_ => []
  | n+1,pos =>
    order mode (norm code (order mode ((buf.drop pos).take (code.size mode))))++
      normalItems norm code buf n (pos+code.size mode)

def normalField (norm : Code → List UInt8 → List UInt8) (buf : List UInt8) (f : Field) (pos : ℕ) :
    List UInt8 :=
  match f.code with
  | .x => List.replicate f.count 0
  | .s => (buf.drop pos).take f.count
  | code => normalItems mode norm code buf f.count pos

/-- A buffer with zeros for its padding and its elements under `norm`. -/
def normalFields (norm : Code → List UInt8 → List UInt8) (buf : List UInt8) :
    List Field → ℕ → List UInt8
  | [],_ => []
  | f::fields,pos =>
    List.replicate (f.start mode pos-pos) 0++(normalField mode norm buf f (f.start mode pos)++
      normalFields norm buf fields (f.start mode pos+f.width mode))

/-- A normal form that keeps the size of an element. -/
def Sizing (norm : Code → List UInt8 → List UInt8) : Prop :=
  ∀ code bytes,bytes.length=code.size mode → (norm code bytes).length=code.size mode

theorem zeroed_sizing : Sizing mode zeroed := by
  intro code bytes hl
  unfold zeroed
  split_ifs with hc
  · rw [hc]
    rfl
  · rw [hc]
    rfl
  · exact hl

theorem settled_sizing : Sizing mode settled := by
  intro code bytes hl
  unfold settled
  split_ifs with hc
  · rw [hc]
    exact length_bigEndian _ _
  · exact zeroed_sizing mode code bytes hl

variable {norm : Code → List UInt8 → List UInt8}

theorem length_chunk (buf : List UInt8) (pos n : ℕ) (hl : pos+n≤buf.length) :
    ((buf.drop pos).take n).length=n := by
  rw [List.length_take,List.length_drop]
  omega

theorem length_normalItems (hs : Sizing mode norm) (code : Code) (buf : List UInt8) (n pos : ℕ)
    (hl : pos+n*code.size mode≤buf.length) :
    (normalItems mode norm code buf n pos).length=n*code.size mode := by
  induction n generalizing pos with
  | zero => simp [normalItems]
  | succ n ih =>
    have hmul : (n+1)*code.size mode=n*code.size mode+code.size mode := Nat.succ_mul _ _
    have hchunk := hs code (order mode ((buf.drop pos).take (code.size mode))) (by
      rw [length_order]
      exact length_chunk buf pos _ (by omega))
    rw [normalItems,List.length_append,length_order,hchunk,ih (pos+code.size mode) (by omega),hmul]
    omega

theorem length_normalField (hs : Sizing mode norm) (buf : List UInt8) (f : Field) (pos : ℕ)
    (hl : pos+f.width mode≤buf.length) : (normalField mode norm buf f pos).length=f.width mode := by
  have hw (hc : f.code.size mode=1) : f.width mode=f.count := by
    unfold Field.width
    rw [hc,Nat.mul_one]
  unfold normalField
  cases hcode : f.code with
  | x =>
    rw [hw (by rw [hcode]; rfl)]
    exact List.length_replicate
  | s =>
    have h1 := hw (by rw [hcode]; rfl)
    rw [h1] at hl ⊢
    exact length_chunk buf pos _ hl
  | _ =>
    have h := length_normalItems mode hs f.code buf f.count pos hl
    rw [hcode] at h
    unfold Field.width
    rw [hcode]
    exact h

end Normal

section Unpacked

theorem unpackItems_total (code : Code) (hc : code.isItem) (buf : List UInt8) (n pos : ℕ)
    (hl : pos+n*code.size mode≤buf.length) (hb : buf.length<2^63) :
    ∃ vs : List (Value O),
      unpackItems mode code buf n pos=.ok (vs,pos+n*code.size mode) ∧ vs.length=n ∧
        ∀ (out : List UInt8) (rest : List (Value O)),out.length+n*code.size mode<2^63 →
          packItems truthyOther mode code n (vs++rest) out=
            .ok (out++normalItems mode settled code buf n pos,rest) := by
  induction n generalizing pos with
  | zero =>
    refine ⟨[],?_,rfl,fun out rest _ => ?_⟩
    · simp [unpackItems]
    · simp [packItems,normalItems]
  | succ n ih =>
    have hmul : (n+1)*code.size mode=n*code.size mode+code.size mode := Nat.succ_mul _ _
    obtain ⟨vs,hread,hn,hpack⟩ := ih (pos+code.size mode) (by omega)
    generalize hchunk : (buf.drop pos).take (code.size mode)=chunk
    have hlen : chunk.length=code.size mode := by
      rw [← hchunk]
      exact length_chunk buf pos _ (by omega)
    have htake := take_exact mode buf pos (code.size mode) (by omega) (by omega)
    rw [hchunk] at htake
    refine ⟨unpackItem code (order mode chunk)::vs,?_,by rw [List.length_cons,hn],?_⟩
    · rw [unpackItems,htake,wrap_self _ (by omega)]
      simp only [bind,Except.bind,hread]
      rw [hmul,Nat.add_right_comm,Nat.add_assoc]
      rfl
    · intro out rest ho
      have hitem := packItem_unpackItem truthyOther mode code hc (order mode chunk)
        (by rw [length_order,hlen])
      have hsize := settled_sizing mode code (order mode chunk) (by rw [length_order,hlen])
      have hext := extend_fits out (order mode (settled code (order mode chunk)))
        (by rw [length_order,hsize]; omega)
      have hrest := hpack (out++order mode (settled code (order mode chunk))) rest (by
        rw [List.length_append,length_order,hsize]
        omega)
      rw [List.cons_append,packItems,hitem]
      simp only [bind,Except.bind,hext]
      rw [hrest,normalItems,hchunk,List.append_assoc]

theorem unpackField_total (buf : List UInt8) (f : Field) (pos : ℕ)
    (hl : f.start mode pos+f.width mode≤buf.length) (hb : buf.length<2^63) :
    ∃ vs : List (Value O),
      unpackField mode buf f (f.start mode pos)=.ok (vs,f.start mode pos+f.width mode) ∧
        vs.length=f.values ∧ ∀ (out : List UInt8) (rest : List (Value O)),out.length=pos →
          packField truthyOther mode f (vs++rest) out=
            .ok (out++(List.replicate (f.start mode pos-pos) 0++
              normalField mode settled buf f (f.start mode pos)),rest) := by
  have hle := le_start mode f pos
  have base (out : List UInt8) (ho : out.length=pos) :
      extend out (List.replicate (alignTo out.length (f.code.align mode)-out.length) 0)=
          .ok (out++List.replicate (f.start mode pos-pos) 0) ∧
        (out++List.replicate (f.start mode pos-pos) (0 : UInt8)).length=f.start mode pos := by
    have halign := (alignTo_short mode f pos (by omega)).1
    rw [ho,halign,List.length_append,List.length_replicate,ho]
    refine ⟨extend_fits _ _ ?_,by omega⟩
    rw [List.length_replicate]
    omega
  have hone (hc : f.code.size mode=1) : f.width mode=f.count := by
    unfold Field.width
    rw [hc,Nat.mul_one]
  have items (hc : f.code.isItem) (hv : f.values=f.count)
      (hu : ∀ pos,unpackField mode buf f pos=
        (unpackItems mode f.code buf f.count pos : Except Failure (List (Value O)×ℕ)))
      (hn : ∀ pos,normalField mode settled buf f pos=
        normalItems mode settled f.code buf f.count pos)
      (hp : ∀ (out next : List UInt8) (values : List (Value O)),
        extend out (List.replicate (alignTo out.length (f.code.align mode)-out.length) 0)=.ok next →
          packField truthyOther mode f values out=
            packItems truthyOther mode f.code f.count values next) :
      ∃ vs : List (Value O),
        unpackField mode buf f (f.start mode pos)=.ok (vs,f.start mode pos+f.width mode) ∧
          vs.length=f.values ∧ ∀ (out : List UInt8) (rest : List (Value O)),out.length=pos →
            packField truthyOther mode f (vs++rest) out=
              .ok (out++(List.replicate (f.start mode pos-pos) 0++
                normalField mode settled buf f (f.start mode pos)),rest) := by
    obtain ⟨vs,hread,hlen,hpack⟩ :=
      unpackItems_total truthyOther mode f.code hc buf f.count (f.start mode pos) hl hb
    refine ⟨vs,(hu _).trans hread,hlen.trans hv.symm,?_⟩
    intro out rest ho
    obtain ⟨hb1,hb2⟩ := base out ho
    rw [hp out _ _ hb1,hpack _ rest (by rw [hb2]; exact lt_of_le_of_lt hl hb),hn,
      List.append_assoc]
  cases hcode : f.code with
  | x =>
    have hw := hone (by rw [hcode]; rfl)
    rw [hw] at hl
    refine ⟨[],?_,by unfold Field.values; rw [hcode]; rfl,?_⟩
    · unfold unpackField
      rw [hcode,hw]
      dsimp only
      rw [wrap_self _ (by omega)]
    · intro out rest ho
      obtain ⟨hb1,hb2⟩ := base out ho
      have hext := extend_fits (out++List.replicate (f.start mode pos-pos) 0)
        (List.replicate f.count 0) (by rw [hb2,List.length_replicate]; omega)
      unfold packField normalField
      rw [hb1]
      simp only [bind,Except.bind,hcode,hext]
      rw [List.append_assoc]
      rfl
  | s =>
    have hw := hone (by rw [hcode]; rfl)
    rw [hw] at hl
    have hslice := slice_exact buf (f.start mode pos) f.count hl
    have hlen := length_chunk buf (f.start mode pos) f.count hl
    refine ⟨[.bytes ((buf.drop (f.start mode pos)).take f.count)],?_,
      by unfold Field.values; rw [hcode]; rfl,?_⟩
    · unfold unpackField
      rw [hcode,hw]
      dsimp only
      rw [wrap_self _ (by omega),hslice]
      rfl
    · intro out rest ho
      obtain ⟨hb1,hb2⟩ := base out ho
      have hresize : resize f.count ((buf.drop (f.start mode pos)).take f.count)=
          (buf.drop (f.start mode pos)).take f.count := by
        unfold resize
        rw [hlen,Nat.sub_self,List.replicate_zero,List.append_nil,List.take_of_length_le hlen.le]
      have hext := extend_fits (out++List.replicate (f.start mode pos-pos) 0)
        ((buf.drop (f.start mode pos)).take f.count) (by rw [hb2,hlen]; omega)
      unfold packField normalField
      rw [hb1]
      simp only [bind,Except.bind,hcode,List.cons_append,bytesArg,hresize,hext]
      rw [List.append_assoc]
      rfl
  | _ =>
    apply items
    · rw [hcode]
      exact ⟨(fun h => nomatch h),fun h => nomatch h⟩
    · unfold Field.values
      rw [hcode]
    · intro pos
      unfold unpackField
      rw [hcode]
    · intro pos
      unfold normalField
      rw [hcode]
    · intro out next values hnext
      unfold packField
      rw [hnext]
      simp only [bind,Except.bind,hcode]

theorem unpackFields_total (buf : List UInt8) (fields : List Field) (pos : ℕ)
    (hl : endFrom mode pos fields≤buf.length) (hb : buf.length<2^63) :
    ∃ vs : List (Value O),
      unpackFields mode buf fields pos=.ok vs ∧ vs.length=(fields.map Field.values).sum ∧
        ∀ out : List UInt8,out.length=pos → packFields truthyOther mode fields vs out=
          .ok (out++normalFields mode settled buf fields pos) := by
  induction fields generalizing pos with
  | nil => exact ⟨[],rfl,rfl,fun out _ => congrArg _ (List.append_nil out).symm⟩
  | cons f fields ih =>
    have hend : f.start mode pos+f.width mode≤buf.length := (le_endFrom mode fields _).trans hl
    have hle := le_start mode f pos
    have halign := (alignTo_short mode f pos (by omega)).1
    obtain ⟨vs,hread,hn,hpack⟩ := unpackField_total truthyOther mode buf f pos hend hb
    obtain ⟨rest,hreadRest,hnRest,hpackRest⟩ := ih _ hl
    refine ⟨vs++rest,?_,?_,?_⟩
    · rw [unpackFields,halign,hread]
      simp only [bind,Except.bind,hreadRest]
      rfl
    · rw [List.length_append,hn,hnRest,List.map_cons,List.sum_cons]
    · intro out ho
      have hfield := length_normalField mode (settled_sizing mode) buf f (f.start mode pos) hend
      rw [packFields,hpack out rest ho]
      simp only [bind,Except.bind]
      rw [hpackRest _ (by
        rw [List.length_append,List.length_append,List.length_replicate,hfield]
        omega),normalFields]
      simp only [List.append_assoc]

end Unpacked

end Struct
end InterpretThis
