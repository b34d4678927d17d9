import InterpretThis.Format.Integer

namespace InterpretThis
namespace Format

open Grouping

namespace IntSpec

variable (s : IntSpec) (n : ℤ)

/-- The digits, grouped where grouping is asked for. -/
def fine : Text :=
  match s.grouping with
  | none => s.digits n
  | some sep => separate sep.char s.type.groupSize (s.digits n)

/-- A hex digit that is also an exponent letter. -/
def HasLetter : Prop := 'e'∈s.digits n ∨ 'E'∈s.digits n

instance : Decidable (s.HasLetter n) := inferInstanceAs (Decidable (_ ∨ _))

/-- Grouping is asked for, a hex digit reads as an exponent, and a separator stands in the text. -/
def Misgroups : Prop :=
  s.grouping.isSome ∧ s.HasLetter n ∧
    (4<(s.digits n).length ∨ (s.ZeroFills ∧ (s.head n).length+4<s.minWidth))

instance : Decidable (s.Misgroups n) := inferInstanceAs (Decidable (_ ∧ _ ∧ _))

theorem letter_mem (hl : s.HasLetter n) : ∃ c∈s.digits n,c∈['.','e','E'] := by
  obtain h | h := hl
  · exact ⟨'e',h,by decide⟩
  · exact ⟨'E',h,by decide⟩

theorem letter_groupSize (hl : s.HasLetter n) : s.type.groupSize=4 := by
  obtain ⟨c,hc,he⟩ := s.letter_mem n hl
  have ht := s.type.digits_letters n.natAbs c hc he
  simp only [List.mem_cons,List.not_mem_nil,or_false] at ht
  obtain h | h := ht
  · rw [h]; rfl
  · rw [h]; rfl

theorem plain_digits (hl : ¬s.HasLetter n) (c : Char) (hc : c∈s.digits n) :
    c∉['.','e','E'] := by
  intro he
  simp only [List.mem_cons,List.not_mem_nil,or_false] at he
  obtain rfl | rfl | rfl := he
  · exact absurd (s.digits_isHex n _ hc) (by decide)
  · exact hl (Or.inl hc)
  · exact hl (Or.inr hc)

theorem separator_plain (sep : Separator) : sep.char∉['.','e','E'] := by
  cases sep <;> decide

theorem digits_ascii (c : Char) (hc : c∈s.digits n) : c.toNat<128 :=
  (s.type.digits_chars n.natAbs c hc).2

theorem shown_fine (h : ¬s.HasLetter n ∨ (s.digits n).length≤4) : s.shown n=s.fine n := by
  unfold shown fine
  cases s.grouping with
  | none => rfl
  | some sep =>
    by_cases hl : s.HasLetter n
    · have hs := s.letter_groupSize n hl
      have hd : (s.digits n).length ≤ s.type.groupSize := by
        rw [hs]
        exact h.resolve_left fun hn => hn hl
      simp only
      rw [cutGrouped_short _ _ _ hd,separate_short _ _ _ hd]
    · exact cutGrouped_plain _ _ _ (s.plain_digits n hl)

theorem zeroFilled_separate (sep : Separator) (avail : ℕ) (ds : Text) :
    zeroFilled '0' sep.char s.type.groupSize avail ds=
      separate sep.char s.type.groupSize
        (List.replicate (fewestDigits s.type.groupSize avail ds.length-ds.length) '0'++ds) :=
  (separate_eq_grouped _ _ _ s.type.groupSize_pos).symm

theorem zeroFilled_wide (sep : Separator) (avail : ℕ) (ds : Text)
    (hw : avail≤ds.length+(ds.length-1)/s.type.groupSize) :
    zeroFilled '0' sep.char s.type.groupSize avail ds=separate sep.char s.type.groupSize ds := by
  rw [zeroFilled_separate,fewestDigits_wide _ _ _ hw,Nat.sub_self]
  rfl

theorem length_zeroFilled (sep : Separator) (avail : ℕ) (ds : Text) :
    avail≤(zeroFilled '0' sep.char s.type.groupSize avail ds).length := by
  have hl := fewestDigits_least s.type.groupSize avail ds.length
  have hf : (List.replicate (fewestDigits s.type.groupSize avail ds.length-ds.length) '0'
      ++ds).length=fewestDigits s.type.groupSize avail ds.length := by
    rw [List.length_append,List.length_replicate]
    omega
  rw [zeroFilled_separate,length_separate _ _ _ s.type.groupSize_pos,hf]
  exact fewestDigits_reaches _ _ _

theorem padAndGroupZero_separate (sep : Separator) (avail : ℕ) (ds : Text)
    (ha : ∀ c∈ds,c.toNat<128) :
    padAndGroupZero ds avail s.type.groupSize sep.char=
      separate sep.char s.type.groupSize
        (List.replicate (fewestDigits s.type.groupSize avail (max ds.length 1)-ds.length) '0'
          ++ds) := by
  simp only [padAndGroupZero,bytesAsChars_ascii ds ha,growDigits_fewest]

theorem body_unfilled (hz : ¬s.ZeroFills) : s.body n=s.fine n := by
  have hw : s.digitWidth n=0 := by simp only [digitWidth,if_neg hz]
  unfold body fine
  cases s.grouping with
  | none => simp only [hw,Nat.zero_sub,List.replicate_zero,List.nil_append]
  | some sep =>
    simp only [hw]
    exact s.zeroFilled_wide sep 0 _ (Nat.zero_le _)

theorem body_filled (hz : s.ZeroFills) (sep : Separator) (hg : s.grouping=some sep) :
    s.body n=zeroFilled '0' sep.char s.type.groupSize (s.minWidth-(s.head n).length) (s.digits n) := by
  simp only [body,hg,digitWidth,if_pos hz]

theorem prescribed_filled (hz : s.ZeroFills) (sep : Separator) (hg : s.grouping=some sep) :
    s.prescribed n=s.head n++zeroFilled '0' sep.char s.type.groupSize
      (s.minWidth-(s.head n).length) (s.digits n) := by
  have hl := s.length_zeroFilled sep (s.minWidth-(s.head n).length) (s.digits n)
  have h0 : s.minWidth-(s.head n++s.body n).length=0 := by
    rw [s.body_filled n hz sep hg,List.length_append]
    omega
  rw [prescribed,h0,padded_zero,s.body_filled n hz sep hg]

section Agreement

theorem agrees_unfilled (hz : ¬(s.ZeroFills ∧ s.grouping.isSome)) (hs : s.shown n=s.fine n) :
    s.parsed.pad true (s.head n++s.shown n)=s.prescribed n := by
  rw [s.pad_shown n _ (s.shows_shown n) hz]
  by_cases hf : s.ZeroFills
  · have hg : s.grouping=none := by
      cases hg : s.grouping with
      | none => rfl
      | some sep => exact absurd ⟨hf,by rw [hg]; rfl⟩ hz
    have hd : s.shown n=s.digits n := by simp only [shown,hg]
    have hb : s.body n=
        List.replicate (s.minWidth-(s.head n).length-(s.digits n).length) '0'++s.digits n := by
      simp only [body,hg,digitWidth,if_pos hf]
    have h0 : s.minWidth-(s.head n++s.body n).length=0 := by
      rw [hb,List.length_append,List.length_append,List.length_replicate]
      omega
    rw [prescribed,h0,padded_zero,hd,hb]
    simp only [padded,hf.2,hf.1,List.length_append,Nat.sub_sub,List.append_assoc]
  · rw [prescribed,s.body_unfilled n hf,hs]

theorem splitTail_shown (hl : ¬s.HasLetter n) (sep : Separator) (hg : s.grouping=some sep) :
    splitTail (s.shown n)=(s.shown n,[]) := by
  apply splitTail_plain
  intro c hc
  simp only [shown,hg] at hc
  obtain rfl | hc := cutGrouped_mem _ _ _ c hc
  · exact separator_plain sep
  · exact s.plain_digits n hl c hc

theorem agrees_filled (hz : s.ZeroFills) (sep : Separator) (hg : s.grouping=some sep)
    (hl : ¬s.HasLetter n) :
    s.parsed.pad true (s.head n++s.shown n)=s.prescribed n := by
  have hf := s.shown_fine n (Or.inl hl)
  have hs : s.fine n=separate sep.char s.type.groupSize (s.digits n) := by simp only [fine,hg]
  have hn := length_separate sep.char s.type.groupSize (s.digits n) s.type.groupSize_pos
  rw [s.prescribed_filled n hz sep hg]
  by_cases hw : s.minWidth≤(s.head n++s.shown n).length
  · rw [s.pad_wide n _ hw]
    have hd : s.minWidth-(s.head n).length≤
        (s.digits n).length+((s.digits n).length-1)/s.type.groupSize := by
      rw [hf,hs,List.length_append,hn] at hw
      exact Nat.sub_le_iff_le_add'.mpr hw
    rw [s.zeroFilled_wide sep _ _ hd,hf,hs]
  · have hb : (s.shown n).filter (fun c => c≠sep.char)=s.digits n := by
      simp only [shown,hg]
      exact cutGrouped_bare _ _ _ (s.separator_apart n sep)
    have hp := List.length_pos_iff.mpr (s.type.digits_ne_nil n.natAbs)
    have hm : max (s.digits n).length 1=(s.digits n).length := Nat.max_eq_left hp
    rw [s.pad_regrouped n _ (s.shows_shown n) hz sep hg (Nat.lt_of_not_le hw),
      s.splitTail_shown n hl sep hg,hb,s.padAndGroupZero_separate sep _ _ (s.digits_ascii n),
      zeroFilled_separate,hm]
    simp

/-- A run within one group is filled up without separators, whatever its letters are. -/
theorem agrees_short (hz : s.ZeroFills) (sep : Separator) (hg : s.grouping=some sep)
    (hl : s.HasLetter n) (hd : (s.digits n).length≤4) (hw : s.minWidth≤(s.head n).length+4) :
    s.parsed.pad true (s.head n++s.shown n)=s.prescribed n := by
  have hk := s.letter_groupSize n hl
  have hs : s.shown n=s.digits n := by
    simp only [shown,hg]
    exact cutGrouped_short _ _ _ (by rw [hk]; exact hd)
  rw [s.prescribed_filled n hz sep hg,zeroFilled_separate,hs]
  by_cases hn : s.minWidth≤(s.head n++s.digits n).length
  · have hle : s.minWidth-(s.head n).length≤(s.digits n).length := by
      rw [List.length_append] at hn
      omega
    rw [s.pad_wide n _ hn,
      fewestDigits_wide _ _ _ (le_trans hle (Nat.le_add_right _ _)),Nat.sub_self,
      List.replicate_zero,List.nil_append,separate_short _ _ _ (by rw [hk]; exact hd)]
  · have ha := splitTail_append (s.digits n)
    have hsum := congrArg List.length ha
    rw [List.length_append] at hn hsum
    have hX : s.Shows n (s.digits n) := s.shows_digits n
    have hb : (splitTail (s.digits n)).1.filter (fun c => c≠sep.char)=(splitTail (s.digits n)).1 := by
      rw [List.filter_eq_self]
      intro c hc
      have hne : c≠sep.char := fun h =>
        s.separator_apart n sep (h ▸ (splitTail_mem (s.digits n) c).1 hc)
      simpa using hne
    have h1 : (splitTail (s.digits n)).1.length≤
        s.minWidth-((s.head n).length+(splitTail (s.digits n)).2.length) := by omega
    have hpos := List.length_pos_iff.mpr (s.type.digits_ne_nil n.natAbs)
    rw [s.pad_regrouped n _ hX hz sep hg (by rw [List.length_append]; omega),hb,
      s.padAndGroupZero_separate sep _ _ fun c hc =>
        s.digits_ascii n c ((splitTail_mem (s.digits n) c).1 hc),
      fewestDigits_group _ _ _ (by rw [hk]; omega) (by omega),
      fewestDigits_group _ (s.minWidth-(s.head n).length) _ (by rw [hk]; omega) (by omega),
      separate_short _ _ _ (by rw [hk,List.length_append,List.length_replicate]; omega),
      separate_short _ _ _ (by rw [hk,List.length_append,List.length_replicate]; omega)]
    have he : s.minWidth-((s.head n).length+(splitTail (s.digits n)).2.length)-
        (splitTail (s.digits n)).1.length=s.minWidth-(s.head n).length-(s.digits n).length := by
      omega
    rw [he,List.append_assoc,List.append_assoc,ha]

theorem agrees (h : ¬s.Misgroups n) :
    s.parsed.pad true (s.head n++s.shown n)=s.prescribed n := by
  cases hg : s.grouping with
  | none =>
    have hs : s.shown n=s.fine n := by simp only [shown,fine,hg]
    exact s.agrees_unfilled n (by simp [hg]) hs
  | some sep =>
    have hd : ¬s.HasLetter n ∨ (s.digits n).length≤4 := by
      by_contra hc
      rw [not_or,not_not,Nat.not_le] at hc
      exact h ⟨by rw [hg]; rfl,hc.1,Or.inl hc.2⟩
    by_cases hz : s.ZeroFills
    · by_cases hl : s.HasLetter n
      · have hw : s.minWidth≤(s.head n).length+4 := by
          by_contra hc
          exact h ⟨by rw [hg]; rfl,hl,Or.inr ⟨hz,Nat.lt_of_not_le hc⟩⟩
        exact s.agrees_short n hz sep hg hl (hd.resolve_left fun hn => hn hl) hw
      · exact s.agrees_filled n hz sep hg hl
    · exact s.agrees_unfilled n (fun hc => hz hc.1) (s.shown_fine n hd)

end Agreement

section Difference

theorem head_apart (sep : Separator) : sep.char∉s.head n := by
  have h1 : sep.char∉s.signText n := by
    obtain h | ⟨c,hc,h⟩ := s.signText_cases n
    · simp [h]
    · rw [h,List.mem_singleton]
      rintro rfl
      cases sep <;> exact absurd hc (by decide)
  have h2 : sep.char∉s.radixText := by
    obtain h | ⟨c,hc,h⟩ := s.radixText_cases
    · simp [h]
    · rw [h]
      cases sep <;> simp only [List.mem_cons,List.not_mem_nil,or_false] at hc ⊢ <;>
        rintro (h0 | h0) <;> simp [Separator.char,← h0] at hc h0
  rw [head,List.mem_append]
  exact fun h => h.elim h1 h2

theorem marked_ne (sep : Separator) (Y Z : Text) (hY : Y.reverse[4]?=some sep.char)
    (hZ : Z.reverse[4]?≠some sep.char) : s.head n++Y≠s.head n++Z := by
  intro h
  exact hZ (List.append_cancel_left h ▸ hY)

theorem fine_marked (sep : Separator) (hg : s.grouping=some sep) (hl : s.HasLetter n)
    (hd : 4<(s.digits n).length) : (s.fine n).reverse[4]?=some sep.char := by
  have hk := s.letter_groupSize n hl
  have hm := separate_mark sep.char s.type.groupSize (s.digits n) s.type.groupSize_pos
    (by rw [hk]; exact hd)
  simp only [fine,hg]
  rwa [hk] at hm ⊢

theorem shown_unmarked (sep : Separator) (hg : s.grouping=some sep) (hl : s.HasLetter n) :
    (s.shown n).reverse[4]?≠some sep.char := by
  obtain ⟨c,hc,he⟩ := s.letter_mem n hl
  have hu := cutGrouped_unmarked sep.char s.type.groupSize (s.digits n) s.type.groupSize_pos
    (s.separator_apart n sep) c hc he
  simp only [shown,hg]
  rwa [s.letter_groupSize n hl] at hu ⊢

/-- Zero filling is regrouped from the wrong end of the letter. -/
theorem filled_unmarked (sep : Separator) (hg : s.grouping=some sep) (hl : s.HasLetter n)
    (hz : s.ZeroFills) :
    ∃ Z,s.parsed.pad true (s.head n++s.shown n)=s.head n++Z ∧ Z.reverse[4]?≠some sep.char := by
  by_cases hw : s.minWidth≤(s.head n++s.shown n).length
  · exact ⟨s.shown n,s.pad_wide n _ hw,s.shown_unmarked n sep hg hl⟩
  · obtain ⟨c,hc,he⟩ := s.letter_mem n hl
    have hk := s.letter_groupSize n hl
    have hmem (d : Char) (hd : d∈s.shown n) : d=sep.char ∨ d∈s.digits n := by
      simp only [shown,hg] at hd
      exact cutGrouped_mem _ _ _ d hd
    have hcs : c∈s.shown n := by
      have hb := cutGrouped_bare sep.char s.type.groupSize (s.digits n) (s.separator_apart n sep)
      have hf : c∈(cutGrouped sep.char s.type.groupSize (s.digits n)).filter
          (fun c => c≠sep.char) := by
        rw [hb]
        exact hc
      simp only [shown,hg]
      exact List.mem_of_mem_filter hf
    have hbare (d : Char) (hd : d∈(splitTail (s.shown n)).1.filter fun c => c≠sep.char) :
        d∈s.digits n := by
      rw [List.mem_filter] at hd
      have hn : d≠sep.char := by simpa using hd.2
      exact (hmem d ((splitTail_mem _ d).1 hd.1)).resolve_left hn
    have htail : sep.char∉(splitTail (s.shown n)).2 := by
      intro hm
      simp only [shown,hg,cutGrouped_tail _ _ _ (separator_plain sep)] at hm
      exact s.separator_apart n sep ((splitTail_mem _ _).2 hm)
    have hu (k : ℕ) : (separate sep.char s.type.groupSize (List.replicate k '0'++
        (splitTail (s.shown n)).1.filter fun c => c≠sep.char)++
        (splitTail (s.shown n)).2).reverse[s.type.groupSize]?≠some sep.char := by
      apply separate_unmarked _ _ _ _ s.type.groupSize_pos (splitTail_snd _ c hcs he) _ htail
      intro hm
      rw [List.mem_append,List.mem_replicate] at hm
      obtain hm | hm := hm
      · cases sep <;> exact absurd hm.2 (by decide)
      · exact s.separator_apart n sep (hbare _ hm)
    refine ⟨_,by rw [s.pad_regrouped n _ (s.shows_shown n) hz sep hg (Nat.lt_of_not_le hw),
      List.append_assoc],?_⟩
    rw [s.padAndGroupZero_separate sep _ _ fun d hd => s.digits_ascii n d (hbare d hd)]
    rw [hk] at hu ⊢
    exact hu _

theorem filled_marked (sep : Separator) (hl : s.HasLetter n)
    (h : 4<(s.digits n).length ∨ (s.head n).length+4<s.minWidth) :
    (zeroFilled '0' sep.char s.type.groupSize (s.minWidth-(s.head n).length)
      (s.digits n)).reverse[4]?=some sep.char := by
  have hk := s.letter_groupSize n hl
  have hle := fewestDigits_least s.type.groupSize (s.minWidth-(s.head n).length)
    (s.digits n).length
  have hlong : 4<fewestDigits s.type.groupSize (s.minWidth-(s.head n).length)
      (s.digits n).length := by
    obtain h | h := h
    · omega
    · rw [hk]
      exact fewestDigits_past 4 _ _ (by omega) (by omega)
  have hm := separate_mark sep.char s.type.groupSize
    (List.replicate (fewestDigits s.type.groupSize (s.minWidth-(s.head n).length)
      (s.digits n).length-(s.digits n).length) '0'++s.digits n) s.type.groupSize_pos
    (by rw [List.length_append,List.length_replicate]; omega)
  rw [zeroFilled_separate]
  rw [hk] at hm ⊢
  exact hm

theorem differs_filled (hz : s.ZeroFills) (sep : Separator) (hg : s.grouping=some sep)
    (hl : s.HasLetter n) (h : 4<(s.digits n).length ∨ (s.head n).length+4<s.minWidth) :
    s.parsed.pad true (s.head n++s.shown n)≠s.prescribed n := by
  obtain ⟨Z,hZ,hn⟩ := s.filled_unmarked n sep hg hl hz
  rw [hZ,s.prescribed_filled n hz sep hg]
  exact (s.marked_ne n sep _ _ (s.filled_marked n sep hl h) hn).symm

section Padding

variable (sep : Char) (a b : ℕ) (head Y Z : Text)

theorem padded_count (hf : s.fillChar≠sep) (hh : sep∉head) (k : ℕ) :
    (s.padded k head Y).count sep=Y.count sep := by
  have h0 : head.count sep=0 := List.count_eq_zero.mpr hh
  have hr (m : ℕ) : (List.replicate m s.fillChar).count sep=0 := by
    rw [List.count_eq_zero,List.mem_replicate]
    exact fun hm => hf hm.2.symm
  unfold padded
  cases s.alignment <;> simp only [List.count_append,hr,h0,Nat.zero_add,Nat.add_zero]

theorem padded_inj (h : s.padded a head Y=s.padded a head Z) : Y=Z := by
  unfold padded at h
  cases ha : s.alignment with
  | left =>
    simp only [ha] at h
    exact List.append_cancel_left (List.append_cancel_right h)
  | right =>
    simp only [ha] at h
    exact List.append_cancel_left (List.append_cancel_left h)
  | center =>
    simp only [ha] at h
    exact List.append_cancel_left (List.append_cancel_left (List.append_cancel_right h))
  | inside =>
    simp only [ha] at h
    exact List.append_cancel_left h

theorem head_ne (hh : sep∉head) (hY : Y.head?≠some sep) : (head++Y).head?≠some sep := by
  cases head with
  | nil => exact hY
  | cons c cs =>
    intro h
    cases h
    exact hh (by simp)

theorem last_ne (hh : sep∉head) (hY : Y.reverse.head?≠some sep) (hn : Y≠[]) :
    (head++Y).reverse.head?≠some sep := by
  rw [List.reverse_append,List.head?_append_of_ne_nil _ (by simpa using hn)]
  exact hY

theorem append_replicate_cancel {xs ys : Text} (hx : xs.reverse.head?≠some sep)
    (hy : ys.reverse.head?≠some sep)
    (h : xs++List.replicate a sep=ys++List.replicate b sep) : xs=ys := by
  have hr := congrArg List.reverse h
  rw [List.reverse_append,List.reverse_append,List.reverse_replicate,List.reverse_replicate] at hr
  have hc := replicate_cancel hx hy hr
  exact List.reverse_injective hc

/-- Where the fill is the separator, it can be stripped from both ends. -/
theorem padded_strip (hf : s.fillChar=sep) (hh : sep∉head) (hY : Y.head?≠some sep)
    (hZ : Z.head?≠some sep) (hY' : Y.reverse.head?≠some sep) (hZ' : Z.reverse.head?≠some sep)
    (hYn : Y≠[]) (hZn : Z≠[]) (h : s.padded a head Y=s.padded b head Z) : Y=Z := by
  have h1 := head_ne sep head Y hh hY
  have h2 := head_ne sep head Z hh hZ
  have h3 := last_ne sep head Y hh hY' hYn
  have h4 := last_ne sep head Z hh hZ' hZn
  unfold padded at h
  rw [hf] at h
  cases ha : s.alignment with
  | left =>
    simp only [ha] at h
    exact List.append_cancel_left (append_replicate_cancel sep a b h3 h4 h)
  | right =>
    simp only [ha] at h
    exact List.append_cancel_left (replicate_cancel h1 h2 h)
  | center =>
    simp only [ha,List.append_assoc] at h
    have front (X : Text) (m : ℕ) (hX : (head++X).head?≠some sep) (hn : X≠[]) :
        (head++(X++List.replicate m sep)).head?≠some sep := by
      rw [← List.append_assoc,List.head?_append_of_ne_nil _ (by simp [hn])]
      exact hX
    have hc := replicate_cancel (front Y _ h1 hYn) (front Z _ h2 hZn) h
    rw [← List.append_assoc,← List.append_assoc] at hc
    exact List.append_cancel_left (append_replicate_cancel sep _ _ h3 h4 hc)
  | inside =>
    simp only [ha,List.append_assoc] at h
    exact replicate_cancel hY hZ (List.append_cancel_left h)

end Padding

theorem length_bare (sep : Char) (Y : Text) :
    Y.length=(Y.filter fun c => c≠sep).length+Y.count sep := by
  have h := List.length_eq_countP_add_countP (fun c => decide (c≠sep)) (l := Y)
  rw [h,List.countP_eq_length_filter]
  congr 1
  rw [List.count]
  congr 1
  funext c
  simp only [ne_eq,decide_not,Bool.not_eq_true',decide_eq_false_iff_not,not_not]
  exact (beq_eq_decide c sep).symm

theorem digit_head (sep : Separator) : (s.digits n).head?≠some sep.char := by
  intro h
  exact s.separator_apart n sep (List.mem_of_head? h)

theorem differs_unfilled (hz : ¬s.ZeroFills) (sep : Separator) (hg : s.grouping=some sep)
    (hl : s.HasLetter n) (hd : 4<(s.digits n).length) :
    s.parsed.pad true (s.head n++s.shown n)≠s.prescribed n := by
  rw [s.pad_shown n _ (s.shows_shown n) fun hc => hz hc.1,prescribed,s.body_unfilled n hz]
  have hm := s.fine_marked n sep hg hl hd
  have hu := s.shown_unmarked n sep hg hl
  have hbS : (s.shown n).filter (fun c => c≠sep.char)=s.digits n := by
    simp only [shown,hg]
    exact cutGrouped_bare _ _ _ (s.separator_apart n sep)
  have hbF : (s.fine n).filter (fun c => c≠sep.char)=s.digits n := by
    simp only [fine,hg]
    exact separate_bare _ _ _ (s.separator_apart n sep)
  have hne : s.shown n≠s.fine n := fun h => hu (h ▸ hm)
  have hnS : s.shown n≠[] := by
    intro h
    rw [h] at hbS
    exact s.type.digits_ne_nil n.natAbs hbS.symm
  have hnF : s.fine n≠[] := by
    intro h
    rw [h] at hbF
    exact s.type.digits_ne_nil n.natAbs hbF.symm
  intro h
  apply hne
  by_cases hf : s.fillChar=sep.char
  · have hhS : (s.shown n).head?≠some sep.char := by
      rw [(s.shows_shown n).head]
      exact s.digit_head n sep
    have hhF : (s.fine n).head?≠some sep.char := by
      simp only [fine,hg,separate_head]
      exact s.digit_head n sep
    have hlS : (s.shown n).reverse.head?≠some sep.char := by
      simp only [shown,hg]
      exact cutGrouped_last _ _ _ s.type.groupSize_pos (s.separator_apart n sep)
    have hlF : (s.fine n).reverse.head?≠some sep.char := by
      simp only [fine,hg]
      rw [List.head?_eq_getElem?,separate_last _ _ _ s.type.groupSize_pos 0 s.type.groupSize_pos]
      intro hx
      exact s.separator_apart n sep (List.mem_reverse.mp (List.mem_of_getElem? hx))
    exact s.padded_strip sep.char _ _ _ _ _ hf (s.head_apart n sep) hhS hhF hlS hlF hnS hnF h
  · have hc := congrArg (List.count sep.char) h
    rw [s.padded_count sep.char _ _ hf (s.head_apart n sep),
      s.padded_count sep.char _ _ hf (s.head_apart n sep)] at hc
    have hlen : (s.shown n).length=(s.fine n).length := by
      rw [length_bare sep.char (s.shown n),length_bare sep.char (s.fine n),hbS,hbF,hc]
    rw [List.length_append,List.length_append,hlen] at h
    exact s.padded_inj _ _ _ _ h

theorem differs (h : s.Misgroups n) :
    s.parsed.pad true (s.head n++s.shown n)≠s.prescribed n := by
  obtain ⟨hg,hl,hd⟩ := h
  obtain ⟨sep,hg⟩ := Option.isSome_iff_exists.mp hg
  by_cases hz : s.ZeroFills
  · exact s.differs_filled n hz sep hg hl (hd.imp id And.right)
  · exact s.differs_unfilled n hz sep hg hl (hd.resolve_right fun hc => hz hc.1)

end Difference

section ReadBack

theorem readDigits_zeros (b k : ℕ) (ds : Text) :
    readDigits b (List.replicate k '0'++ds)=readDigits b ds := by
  have hz : hexValue '0'=0 := by decide
  unfold readDigits
  rw [List.foldl_append]
  congr 1
  induction k with
  | zero => rfl
  | succ k ih =>
    rw [List.replicate_succ,List.foldl_cons,hz]
    exact ih

/-- Without its separators the body reads back as the magnitude. -/
theorem readDigits_body :
    readDigits s.type.radix ((s.body n).filter s.isNotSeparator)=n.natAbs := by
  unfold body
  cases hg : s.grouping with
  | none =>
    have hf : (fun c => s.isNotSeparator c)=fun _ => true := by
      funext c
      simp [isNotSeparator,hg]
    simp only [hf,List.filter_true]
    rw [readDigits_zeros]
    exact s.type.readDigits_digits n.natAbs
  | some sep =>
    have hf : (fun c => s.isNotSeparator c)=fun c => decide (c≠sep.char) := by
      funext c
      simp [isNotSeparator,hg,eq_comm]
    simp only [hf]
    rw [zeroFilled_separate,separate_bare,readDigits_zeros]
    · exact s.type.readDigits_digits n.natAbs
    · rw [List.mem_append,List.mem_replicate]
      rintro (hm | hm)
      · cases sep <;> exact absurd hm.2 (by decide)
      · exact s.separator_apart n sep hm

theorem prescribed_parts : ∃ l m r,s.prescribed n=
    List.replicate l s.fillChar++s.head n++List.replicate m s.fillChar++s.body n++
      List.replicate r s.fillChar := by
  unfold prescribed padded
  cases s.alignment with
  | left => exact ⟨0,0,_,by simp only [List.replicate_zero,List.nil_append,List.append_nil]; rfl⟩
  | right => exact ⟨_,0,0,by simp only [List.replicate_zero,List.append_nil,← List.append_assoc]; rfl⟩
  | center => exact ⟨_,0,_,by simp only [List.replicate_zero,List.append_nil,← List.append_assoc]; rfl⟩
  | inside => exact ⟨0,_,0,by simp only [List.replicate_zero,List.append_nil,List.nil_append]; rfl⟩

end ReadBack

end IntSpec

section Exactness

variable {F D O : Type} (R : Renderer F D O)

/-- The text is the prescribed one unless a hex digit that reads as an exponent meets a separator;
the prescribed text reads back as the integer. -/
theorem integer_format_exact (s : IntSpec) (n : ℤ) :
    (R.applyFormatSpec (.int n) s.text=.ok (s.prescribed n) ↔ ¬s.Misgroups n) ∧
    (∃ l m r,s.prescribed n=List.replicate l s.fillChar++s.head n++List.replicate m s.fillChar++
      s.body n++List.replicate r s.fillChar) ∧
    readDigits s.type.radix ((s.body n).filter s.isNotSeparator)=n.natAbs := by
  refine ⟨?_,s.prescribed_parts n,s.readDigits_body n⟩
  rw [applyFormatSpec_text]
  constructor
  · intro h hm
    exact s.differs n hm (Except.ok.inj h)
  · intro h
    rw [s.agrees n h]

/-- `format(0xe0000, '_x')`. -/
def letterSpec : IntSpec where
  fill := none
  align := none
  sign := none
  alternate := false
  zero := false
  width := []
  grouping := some .underscore
  type := .hex
  fill_align := by decide
  width_digits := List.all_iff_forall_prop.mp (by decide)
  width_zero := by decide
  width_le := by decide
  comma_type := by decide
  underscore_type := by decide

theorem letter_ungrouped : letterSpec.prescribed 0xe0000=['e','_','0','0','0','0'] ∧
    ∀ R : Renderer Unit Unit Unit,
      R.applyFormatSpec (.int 0xe0000) letterSpec.text=.ok ['e','0','0','0','0'] ∧
      R.applyFormatSpec (.int 0xe0000) letterSpec.text≠.ok (letterSpec.prescribed 0xe0000) := by
  have h2 : letterSpec.prescribed 0xe0000=['e','_','0','0','0','0'] := by
    rw [IntSpec.prescribed,letterSpec.body_unfilled _ (by decide)]
    rfl
  refine ⟨h2,fun R => ?_⟩
  have h1 : R.applyFormatSpec (.int 0xe0000) letterSpec.text=.ok ['e','0','0','0','0'] := by
    rw [applyFormatSpec_text]
    rfl
  refine ⟨h1,?_⟩
  rw [h1,h2]
  exact fun h => absurd (Except.ok.inj h) (by decide)

end Exactness

end Format
end InterpretThis
