import Mathlib.Data.List.Basic
import Mathlib.Data.List.TakeWhile
import Mathlib.Tactic.Common

namespace InterpretThis.Words

variable {α : Type} (ws : α → Bool)

/-- The first words of a list, at most `n`, and then what is left from its next word on. -/
def fields : Nat → List α → List (List α)
  | 0,s => if (s.dropWhile ws).isEmpty then [] else [s.dropWhile ws]
  | n+1,s =>
    if (s.dropWhile ws).isEmpty then []
    else (s.dropWhile ws).takeWhile (!ws ·)::fields n ((s.dropWhile ws).dropWhile (!ws ·))

def rfields (n : Nat) (s : List α) : List (List α) :=
  ((fields ws n s.reverse).map List.reverse).reverse

def words (s : List α) : List (List α) := fields ws s.length s

/-- Words between blanks. -/
inductive Worded : List (List α) → List α → Prop where
  | blank {s : List α} (h : ∀ c ∈ s,ws c=true) : Worded [] s
  | word {a w b : List α} {ps : List (List α)} (ha : ∀ c ∈ a,ws c=true) (hw : w≠[])
      (hclean : ∀ c ∈ w,ws c=false) (hb : ∀ c ∈ b.head?,ws c=true) (hrest : Worded ps b) :
      Worded (w::ps) (a++w++b)

section Scanning

variable {ws} {a b s w : List α} {p q ps : List (List α)} {n : Nat}

theorem dropWhile_blank (h : ∀ c ∈ a,ws c=true) (hb : ∀ c ∈ b.head?,ws c=false) :
    (a++b).dropWhile ws=b := by
  rw [List.dropWhile_append_of_pos h]
  cases b with
  | nil => rfl
  | cons c b => rw [List.dropWhile_cons_of_neg (by simp [hb c rfl])]

theorem blank_iff : s.dropWhile ws=[] ↔ ∀ c ∈ s,ws c=true := List.dropWhile_eq_nil_iff

theorem span_word (hclean : ∀ c ∈ w,ws c=false) (hb : ∀ c ∈ b.head?,ws c=true) :
    (w++b).takeWhile (!ws ·)=w ∧ (w++b).dropWhile (!ws ·)=b := by
  have hw : ∀ c ∈ w,(!ws c)=true := fun c hc => by rw [hclean c hc]; rfl
  rw [List.takeWhile_append_of_pos hw,List.dropWhile_append_of_pos hw]
  cases b with
  | nil => simp
  | cons c b =>
    rw [List.takeWhile_cons_of_neg (by simp [hb c rfl]),
      List.dropWhile_cons_of_neg (by simp [hb c rfl]),List.append_nil]
    exact ⟨rfl,rfl⟩

theorem head_word {b : List α} (hw : w≠[]) (hclean : ∀ c ∈ w,ws c=false) :
    ∀ c ∈ (w++b).head?,ws c=false := by
  cases w with
  | nil => exact absurd rfl hw
  | cons d w =>
    intro c hc
    cases Option.some.inj hc
    exact hclean d (List.mem_cons_self ..)

theorem fields_blank (h : ∀ c ∈ s,ws c=true) : fields ws n s=[] := by
  have hdrop := blank_iff.mpr h
  cases n <;> rw [fields,hdrop] <;> rfl

theorem fields_word (ha : ∀ c ∈ a,ws c=true) (hw : w≠[]) (hclean : ∀ c ∈ w,ws c=false)
    (hb : ∀ c ∈ b.head?,ws c=true) : fields ws (n+1) (a++w++b)=w::fields ws n b := by
  have hdrop : (a++(w++b)).dropWhile ws=w++b := dropWhile_blank ha (head_word hw hclean)
  obtain ⟨htake,hskip⟩ := span_word hclean hb
  rw [fields,List.append_assoc,hdrop,htake,hskip]
  cases w with
  | nil => exact absurd rfl hw
  | cons c w => rfl

theorem Worded.fields (h : Worded ws ps s) (hn : ps.length ≤ n) : fields ws n s=ps := by
  induction h generalizing n with
  | blank h => exact fields_blank h
  | word ha hw hclean hb _ ih =>
    cases n with
    | zero => cases hn
    | succ n => rw [fields_word ha hw hclean hb,ih (Nat.le_of_succ_le_succ hn)]

theorem Worded.length_le (h : Worded ws ps s) : ps.length ≤ s.length := by
  induction h with
  | blank => exact Nat.zero_le _
  | word _ hw _ _ _ ih =>
    have hpos := List.length_pos_iff.mpr hw
    simp only [List.length_cons,List.length_append]
    omega

theorem Worded.words_eq (h : Worded ws ps s) : words ws s=ps := h.fields h.length_le

theorem worded_fields (hn : s.length ≤ n) : Worded ws (fields ws n s) s := by
  induction n generalizing s with
  | zero =>
    have hnil := List.length_eq_zero_iff.mp (Nat.le_zero.mp hn)
    subst hnil
    exact .blank (by simp)
  | succ n ih =>
    have hs := List.takeWhile_append_dropWhile (p := ws) (l := s)
    have hblank : ∀ c ∈ s.takeWhile ws,ws c=true := fun c hc => List.mem_takeWhile_imp hc
    cases hdrop : s.dropWhile ws with
    | nil =>
      rw [fields_blank (blank_iff.mp hdrop)]
      exact .blank (blank_iff.mp hdrop)
    | cons c r =>
      have hc : ws c=false := by
        have hnot := List.head?_dropWhile_not ws s
        rw [hdrop] at hnot
        simpa using hnot
      have hr := List.takeWhile_append_dropWhile (p := (!ws ·)) (l := c::r)
      have hw : (c::r).takeWhile (!ws ·)≠[] := by simp [hc]
      have hclean : ∀ d ∈ (c::r).takeWhile (!ws ·),ws d=false := fun d hd => by
        simpa using List.mem_takeWhile_imp hd
      have hb : ∀ d ∈ ((c::r).dropWhile (!ws ·)).head?,ws d=true := by
        intro d hd
        have hnot := List.head?_dropWhile_not (!ws ·) (c::r)
        rw [Option.mem_def.mp hd] at hnot
        simpa using hnot
      rw [hdrop,← hr,← List.append_assoc] at hs
      rw [← hs,fields_word hblank hw hclean hb]
      refine .word hblank hw hclean hb (ih ?_)
      have hlen := congrArg List.length hs
      have hpos := List.length_pos_iff.mpr hw
      simp only [List.length_append] at hlen
      omega

theorem worded_words (ws : α → Bool) (s : List α) : Worded ws (words ws s) s :=
  worded_fields (Nat.le_refl _)

/-- What is left after the words is the last part. -/
theorem fields_rest (h : Worded ws p a) (ha : ∀ c ∈ a.getLast?,ws c=true) (hb : b≠[])
    (hhead : ∀ c ∈ b.head?,ws c=false) : fields ws p.length (a++b)=p++[b] := by
  induction h with
  | blank h =>
    rw [List.length_nil,fields,dropWhile_blank h hhead]
    cases b with
    | nil => exact absurd rfl hb
    | cons c b => rfl
  | @word a w b₀ ps hblank hw hclean hb₀ _ ih =>
    have hne : b₀≠[] := by
      rintro rfl
      obtain ⟨c,hc⟩ := List.getLast?_isSome.mpr hw |> Option.isSome_iff_exists.mp
      have hlast := ha c (by simp [hc])
      rw [hclean c (List.mem_of_getLast? hc)] at hlast
      cases hlast
    have hnext : ∀ c ∈ (b₀++b).head?,ws c=true := by
      rw [List.head?_append_of_ne_nil _ hne]
      exact hb₀
    have hlast : ∀ c ∈ b₀.getLast?,ws c=true := by
      rw [List.getLast?_append_of_ne_nil _ hne] at ha
      exact ha
    rw [List.length_cons,List.append_assoc,fields_word hblank hw hclean hnext,ih hlast]
    rfl

theorem Worded.append_blank (h : Worded ws p s) {t : List α} (ht : ∀ c ∈ t,ws c=true) :
    Worded ws p (s++t) := by
  induction h with
  | blank h =>
    refine .blank fun c hc => ?_
    cases List.mem_append.mp hc with
    | inl hc => exact h c hc
    | inr hc => exact ht c hc
  | @word a w b ps ha hw hclean hb _ ih =>
    rw [List.append_assoc]
    refine .word ha hw hclean (fun c hc => ?_) ih
    cases b with
    | nil => exact ht c (List.mem_of_head? hc)
    | cons d b => exact hb c hc

theorem Worded.snoc (h : Worded ws p s) (hlast : ∀ c ∈ s.getLast?,ws c=true) (hw : w≠[])
    (hclean : ∀ c ∈ w,ws c=false) (ha : ∀ c ∈ a,ws c=true) : Worded ws (p++[w]) (s++w++a) := by
  induction h with
  | blank h => exact .word h hw hclean (fun c hc => ha c (List.mem_of_head? hc)) (.blank ha)
  | @word a₀ w₀ b₀ ps hblank hw₀ hclean₀ hb₀ _ ih =>
    have hne : b₀≠[] := by
      rintro rfl
      obtain ⟨c,hc⟩ := List.getLast?_isSome.mpr hw₀ |> Option.isSome_iff_exists.mp
      have htrue := hlast c (by simp [hc])
      rw [hclean₀ c (List.mem_of_getLast? hc)] at htrue
      cases htrue
    rw [List.getLast?_append_of_ne_nil _ hne] at hlast
    have hrest := ih hlast
    rw [List.append_assoc] at hrest
    rw [List.cons_append,List.append_assoc,List.append_assoc _ b₀]
    refine .word hblank hw₀ hclean₀ (fun c hc => ?_) hrest
    rw [List.head?_append_of_ne_nil _ hne] at hc
    exact hb₀ c hc

theorem Worded.reverse (h : Worded ws p s) :
    Worded ws (p.map List.reverse).reverse s.reverse := by
  induction h with
  | blank h => exact .blank fun c hc => h c (List.mem_reverse.mp hc)
  | @word a w b ps ha hw hclean hb _ ih =>
    rw [List.reverse_append,List.reverse_append,List.map_cons,List.reverse_cons,
      ← List.append_assoc]
    refine ih.snoc ?_ (by simpa using hw) (fun c hc => hclean c (List.mem_reverse.mp hc))
      fun c hc => ha c (List.mem_reverse.mp hc)
    rw [List.getLast?_reverse]
    exact hb

theorem Worded.mem_word (h : Worded ws ps s) (hw : w ∈ ps) : w≠[] ∧ ∀ c ∈ w,ws c=false := by
  induction h with
  | blank => cases hw
  | word _ hne hclean _ _ ih =>
    cases hw with
    | head => exact ⟨hne,hclean⟩
    | tail _ hw => exact ih hw

/-- The elements of the words are those that are not blank. -/
theorem Worded.mem_iff (h : Worded ws ps s) (c : α) :
    (∃ w ∈ ps,c ∈ w) ↔ c ∈ s ∧ ws c=false := by
  induction h with
  | blank h =>
    constructor
    · rintro ⟨w,hw,-⟩
      cases hw
    · rintro ⟨hc,hfalse⟩
      rw [h c hc] at hfalse
      cases hfalse
  | @word a w b ps ha _ hclean _ _ ih =>
    have hblank : c ∈ a → ¬ws c=false := fun hc hfalse => by
      rw [ha c hc] at hfalse
      cases hfalse
    simp only [List.mem_cons,exists_eq_or_imp,List.mem_append]
    rw [ih]
    constructor
    · rintro (hc | ⟨hc,hfalse⟩)
      · exact ⟨.inl (.inr hc),hclean c hc⟩
      · exact ⟨.inr hc,hfalse⟩
    · rintro ⟨(hc | hc) | hc,hfalse⟩
      · exact absurd hfalse (hblank hc)
      · exact .inl hc
      · exact .inr ⟨hc,hfalse⟩

/-- The words from one on begin a new part of the list. -/
theorem Worded.split (h : Worded ws (p++q) s) (hq : q≠[]) :
    ∃ a b,s=a++b ∧ Worded ws p a ∧ Worded ws q b ∧ (∀ c ∈ a.getLast?,ws c=true) ∧
      ∃ t,b=q.headI++t := by
  induction p generalizing s with
  | nil =>
    cases h with
    | blank => exact absurd rfl hq
    | @word a w b ps ha hw hclean hb hrest =>
      refine ⟨a,w++b,List.append_assoc .. ,.blank ha,?_,?_,b,rfl⟩
      · exact .word (a := []) (by simp) hw hclean hb hrest
      · exact fun c hc => ha c (List.mem_of_getLast? hc)
  | cons w₀ p ih =>
    cases h with
    | @word a _ b _ ha hw hclean hb hrest =>
      obtain ⟨b₁,b₂,rfl,h₁,h₂,hlast,t,ht⟩ := ih hrest
      have hne : b₁≠[] := by
        rintro rfl
        subst ht
        cases q with
        | nil => exact hq rfl
        | cons w₁ q =>
          obtain ⟨hw₁,hclean₁⟩ := h₂.mem_word (List.mem_cons_self ..)
          obtain ⟨c,r,rfl⟩ := List.exists_cons_of_ne_nil hw₁
          have hhead := hb c rfl
          rw [hclean₁ c (List.mem_cons_self ..)] at hhead
          cases hhead
      refine ⟨a++w₀++b₁,b₂,(List.append_assoc ..).symm,?_,h₂,?_,t,ht⟩
      · refine .word ha hw hclean (fun c hc => hb c ?_) h₁
        rw [List.head?_append_of_ne_nil _ hne]
        exact hc
      · rw [List.getLast?_append_of_ne_nil _ hne]
        exact hlast

theorem Worded.rfields (h : Worded ws p s) (hn : p.length ≤ n) : rfields ws n s=p := by
  rw [Words.rfields,h.reverse.fields (by simpa using hn)]
  simp

theorem rfields_rest (hp : Worded ws p a) (hne : p≠[]) (hlast : ∀ c ∈ a.getLast?,ws c=true)
    (hq : Worded ws q b) :
    rfields ws q.length (a++b)=(a.reverse.dropWhile ws).reverse::q := by
  have ha := List.takeWhile_append_dropWhile (p := ws) (l := a.reverse)
  have hblank : ∀ c ∈ a.reverse.takeWhile ws,ws c=true := fun c hc => List.mem_takeWhile_imp hc
  have hfront : a.reverse.dropWhile ws≠[] := by
    intro hnil
    have hall := blank_iff.mp hnil
    have hno := (Worded.blank (s := a) fun c hc => hall c (List.mem_reverse.mpr hc)).words_eq
    exact hne (hp.words_eq.symm.trans hno)
  have hhead : ∀ c ∈ (a.reverse.dropWhile ws).head?,ws c=false := by
    intro c hc
    have hnot := List.head?_dropWhile_not ws a.reverse
    rw [Option.mem_def.mp hc] at hnot
    simpa using hnot
  have hgap : a.reverse.takeWhile ws≠[] := by
    intro hnil
    rw [hnil,List.nil_append] at ha
    rw [ha,List.head?_reverse] at hhead
    rw [ha] at hfront
    obtain ⟨c,hc⟩ := Option.isSome_iff_exists.mp
      (List.getLast?_isSome.mpr (by simpa using hfront))
    have htrue := hlast c hc
    rw [hhead c hc] at htrue
    cases htrue
  have hrest := fields_rest (hq.reverse.append_blank hblank) (fun c hc => ?_) hfront hhead
  · rw [rfields,List.reverse_append]
    rw [List.append_assoc,ha,List.length_reverse,List.length_map] at hrest
    rw [hrest]
    simp
  · rw [List.getLast?_append_of_ne_nil _ hgap] at hc
    exact hblank c (List.mem_of_getLast? hc)

end Scanning

section Narrower

variable (ws : α → Bool) (extra : α → Bool)

/-- No word that is split off has an element of `extra`, and what is left does not begin with
one. -/
def Plain (n : Nat) (s : List α) : Prop :=
  (∀ w ∈ (words ws s).take n,∀ c ∈ w,extra c=false) ∧
    ∀ w ∈ (words ws s)[n]?,∀ c ∈ w.head?,extra c=false

variable {ws extra} {s : List α} {n : Nat}

theorem words_word {a w b : List α} (ha : ∀ c ∈ a,ws c=true) (hw : w≠[])
    (hclean : ∀ c ∈ w,ws c=false) (hb : ∀ c ∈ b.head?,ws c=true) :
    words ws (a++w++b)=w::words ws b :=
  (Worded.word ha hw hclean hb (worded_words ws b)).words_eq

theorem head_clean {w : List α} {ps : List (List α)} (h : fields ws (n+1) s=w::ps) :
    ∀ c ∈ w,ws c=false := by
  rw [fields] at h
  split at h
  · cases h
  · intro c hc
    rw [← (List.cons.inj h).1] at hc
    simpa using List.mem_takeWhile_imp hc

/-- With no cut left, only the first element of the rest is looked at. -/
theorem rest_eq_iff {c : α} {r : List α} (hc : ws c=false) :
    fields (fun c => ws c || extra c) 0 (c::r)=fields ws 0 (c::r) ↔ extra c=false := by
  have hnarrow : (c::r).dropWhile ws=c::r := List.dropWhile_cons_of_neg (by simp [hc])
  rw [fields,fields,hnarrow]
  cases hx : extra c with
  | false =>
    have hkeep : (c::r).dropWhile (fun c => ws c || extra c)=c::r :=
      List.dropWhile_cons_of_neg (by simp [hc,hx])
    rw [hkeep]
    simp
  | true =>
    have hskip : (c::r).dropWhile (fun c => ws c || extra c)=
        r.dropWhile fun c => ws c || extra c := List.dropWhile_cons_of_pos (by simp [hx])
    refine iff_of_false (fun heq => ?_) (by simp)
    rw [hskip] at heq
    have hlen := (List.dropWhile_sublist (l := r) fun c => ws c || extra c).length_le
    split at heq
    · cases heq
    · have hshort := congrArg List.length (List.cons.inj heq).1
      rw [List.length_cons] at hshort
      omega

/-- More elements that count as blanks change the parts unless they stand in the rest only. -/
theorem fields_eq_iff (hextra : ∀ c,extra c=true → ws c=false) :
    fields (fun c => ws c || extra c) n s=fields ws n s ↔ Plain ws extra n s := by
  generalize hps : words ws s=ps
  have h := worded_words ws s
  rw [hps] at h
  have hwide : ∀ {c},ws c=true → (ws c || extra c)=true := fun hc => by rw [hc]; rfl
  induction h generalizing n with
  | blank h =>
    rw [fields_blank h,fields_blank fun c hc => hwide (h c hc),Plain,hps]
    simp
  | @word a w b ps ha hw hclean hb hrest ih =>
    have hwords := words_word ha hw hclean hb
    cases n with
    | zero =>
      obtain ⟨c,r,rfl⟩ := List.exists_cons_of_ne_nil hw
      have hc := hclean c (List.mem_cons_self ..)
      have hnarrow : fields ws 0 (a++(c::r)++b)=fields ws 0 (c::(r++b)) := by
        rw [fields,fields,List.append_assoc,List.dropWhile_append_of_pos ha]
        rfl
      have hskip : fields (fun c => ws c || extra c) 0 (a++(c::r)++b)=
          fields (fun c => ws c || extra c) 0 (c::(r++b)) := by
        rw [fields,fields,List.append_assoc,
          List.dropWhile_append_of_pos fun d hd => hwide (ha d hd)]
        rfl
      rw [hnarrow,hskip,rest_eq_iff hc,Plain,hwords]
      simp
    | succ n =>
      have hplain : Plain ws extra (n+1) (a++w++b) ↔
          (∀ c ∈ w,extra c=false) ∧ Plain ws extra n b := by
        rw [Plain,Plain,hwords]
        simp [and_assoc]
      rw [hplain,fields_word ha hw hclean hb]
      by_cases hx : ∀ c ∈ w,extra c=false
      · have hclean' : ∀ c ∈ w,(ws c || extra c)=false := fun c hc => by
          rw [hclean c hc,hx c hc]
          rfl
        have hih := ih (n := n) hrest.words_eq
        rw [fields_word (fun c hc => hwide (ha c hc)) hw hclean' fun c hc => hwide (hb c hc)]
        simp only [List.cons.injEq,true_and]
        exact hih.trans (and_iff_right hx).symm
      · refine iff_of_false (fun heq => hx fun c hc => ?_) fun hboth => hx hboth.1
        have hnot := head_clean heq c hc
        simp only [Bool.or_eq_false_iff] at hnot
        exact hnot.2

theorem words_eq_iff (hextra : ∀ c,extra c=true → ws c=false) :
    words (fun c => ws c || extra c) s=words ws s ↔ ∀ c ∈ s,extra c=false := by
  have hworded := worded_words ws s
  have hlen := hworded.length_le
  rw [words,words,fields_eq_iff hextra,Plain,List.take_of_length_le hlen,
    List.getElem?_eq_none hlen]
  constructor
  · rintro ⟨hplain,-⟩ c hc
    cases hx : extra c with
    | false => rfl
    | true =>
      obtain ⟨w,hw,hin⟩ := (hworded.mem_iff c).mpr ⟨hc,hextra c hx⟩
      rw [← hx]
      exact hplain w hw c hin
  · intro hplain
    refine ⟨fun w hw c hc => hplain c ((hworded.mem_iff c).mp ⟨w,hw,hc⟩).1,?_⟩
    simp

theorem whole_iff : fields ws 0 s=[s] ↔ ∃ c ∈ s.head?,ws c=false := by
  cases s with
  | nil => simp [fields]
  | cons c s =>
    rw [fields]
    cases hc : ws c with
    | false => simp [hc]
    | true =>
      rw [List.dropWhile_cons_of_pos hc]
      refine iff_of_false (fun heq => ?_) (by simp [hc])
      have hlen := (List.dropWhile_sublist (l := s) ws).length_le
      split at heq
      · cases heq
      · have hshort := congrArg List.length (List.cons.inj heq).1
        rw [List.length_cons] at hshort
        omega

theorem rfields_eq_iff {ws' : α → Bool} {ps : List (List α)} :
    rfields ws' n s=(ps.map List.reverse).reverse ↔ fields ws' n s.reverse=ps := by
  rw [rfields,List.reverse_inj]
  exact (List.map_injective_iff.mpr List.reverse_injective).eq_iff

end Narrower

end InterpretThis.Words
