import InterpretThis.Framework.Filling
import InterpretThis.Value.Key

namespace InterpretThis.Textwrap

open Words Filling

section Source

/-- The loop that cuts an over-long word: the pieces cut off, and the remainder. -/
def chop (width : Nat) (chars : List Char) : List (List Char)×List Char :=
  if chars.length ≤ width ∨ width=0 then ([],chars)
  else
    let rest := chop width (chars.drop width)
    (chars.take width::rest.1,rest.2)
termination_by chars.length
decreasing_by
  rename_i h
  rw [List.length_drop]
  omega

structure Wrapper where
  lines : List (List Char)
  current : List Char

def wrapWord (width : Nat) (s : Wrapper) (word : List Char) : Wrapper :=
  if s.current≠[] ∧ s.current.length+1+word.length ≤ width then
    ⟨s.lines,s.current++ ' '::word⟩
  else
    let lines := if s.current≠[] then s.lines++[s.current] else s.lines
    if word.length ≤ width then ⟨lines,word⟩
    else ⟨lines++(chop width word).1,(chop width word).2⟩

def wrap (text : List Char) (width : Nat) : List (List Char) :=
  if width=0 then [text]
  else
    let s := (words isWhitespace text).foldl (wrapWord width) ⟨[],[]⟩
    if s.current≠[] then s.lines++[s.current] else s.lines

/-- `join(" ")`. -/
def collapse (ws : List (List Char)) : List Char := [' '].intercalate ws

/-- The loop of `shorten`; one space between each of the words. -/
def keep (width phLen : Nat) : List (List Char) → List (List Char) → List (List Char)
  | kept,[] => kept
  | kept,word::ws =>
    let joinedLen := ((kept++[word]).map List.length).sum+kept.length
    if joinedLen+phLen ≤ width then keep width phLen (kept++[word]) ws else kept

/-- `trim_start`. -/
def trimStart (s : List Char) : List Char := s.dropWhile isWhitespace

def shorten (text : List Char) (width : Nat) (placeholder : List Char) : List Char :=
  let ws := words isWhitespace text
  let collapsed := collapse ws
  if collapsed.length ≤ width then collapsed
  else
    let kept := keep width placeholder.length [] ws
    if kept=[] then trimStart placeholder else collapse kept++placeholder

/-- `str::split_inclusive` at a newline. -/
def splitInclusive : List Char → List (List Char)
  | [] => []
  | c::s =>
    if c= '\n' then [c]::splitInclusive s
    else
      match splitInclusive s with
      | [] => [[c]]
      | l::ls => (c::l)::ls

def stripEnd (line : List Char) : List Char :=
  if line.getLast?=some '\n' then
    if line.dropLast.getLast?=some '\r' then line.dropLast.dropLast else line.dropLast
  else line

/-- `str::lines`. -/
def lines (s : List Char) : List (List Char) := (splitInclusive s).map stripEnd

def isBlank (line : List Char) : Bool := (trim line).isEmpty

def leadingCount (line : List Char) : Nat :=
  (line.takeWhile fun c => isWhitespace c && c≠ '\n').length

def finish (s out : List Char) : List Char :=
  if s.getLast?=some '\n' ∧ out.getLast?≠some '\n' then out++['\n'] else out

def dedent (s : List Char) : List Char :=
  let nonEmpty := (lines s).filter fun l => !isBlank l
  if nonEmpty=[] then s
  else
    let common := (nonEmpty.map leadingCount).min?.getD 0
    finish s (['\n'].intercalate ((lines s).map fun l => if isBlank l then l else l.drop common))

end Source

section Wrapping

variable {text w : List Char} {width : Nat} {s : Wrapper} {done : List (List Char)}

/-- The lines of a text are rows of the pieces of its words. -/
structure Wrapped (text : List Char) (width : Nat) (out : List (List Char)) : Prop where
  bounds : ∀ l ∈ out,1 ≤ l.length ∧ l.length ≤ width
  lossless : ∀ sep : List Char,sep≠[] → (∀ c ∈ sep,isWhitespace c=true) →
    words isWhitespace (sep.intercalate out)=(words isWhitespace text).flatMap (cut width)
  greedy : ∃ rows,Filled ' ' width (words isWhitespace text) rows ∧ rows.map (line ' ')=out

theorem chop_cut (width : Nat) (chars : List Char) :
    (chop width chars).1++[(chop width chars).2]=cut width chars := by
  induction chars using chop.induct width with
  | case1 chars h => rw [chop,cut,if_pos h,if_pos h,List.nil_append]
  | case2 chars h ih =>
    rw [chop,cut,if_neg h,if_neg h,List.cons_append]
    exact congrArg (chars.take width::·) ih

/-- The loop's state after these words. -/
def Holds (width : Nat) (done : List (List Char)) (s : Wrapper) : Prop :=
  (done=[] ∧ s=⟨[],[]⟩) ∨ ∃ rows row,Filled ' ' width done (rows++[row]) ∧
    s.lines=rows.map (line ' ') ∧ s.current=line ' ' row

theorem holds_own {rows : List (List (Piece Char))} {ls : List (List Char)} (hw : 0<width)
    (h : w≠[]) (hfill : Filled ' ' width done (rows++(pieces width w).map fun p => [p]))
    (hls : ls=rows.map (line ' ')) :
    Holds width done ⟨ls++(chop width w).1,(chop width w).2⟩ := by
  have htexts : ((pieces width w).map fun p => [p]).map (line ' ')=cut width w := by
    rw [List.map_map,← pieces_text width w]
    exact List.map_congr_left fun p _ => line_singleton p
  have hne : ((pieces width w).map fun p => [p])≠[] := by
    intro hnil
    rw [hnil] at htexts
    exact cut_ne_nil htexts.symm
  obtain ⟨init,last,hsingles⟩ := (List.eq_nil_or_concat _).resolve_left hne
  rw [hsingles,List.concat_eq_append] at hfill htexts
  rw [List.map_append,List.map_singleton,← chop_cut] at htexts
  obtain ⟨hinit,hlast⟩ := List.append_inj' htexts rfl
  refine .inr ⟨rows++init,last,?_,?_,?_⟩
  · rw [List.append_assoc]
    exact hfill
  · rw [List.map_append,hinit,hls]
  · exact (List.cons.inj hlast).1.symm

theorem chop_short (h : w.length ≤ width) : chop width w=([],w) := by
  rw [chop,if_pos (.inl h)]

theorem wrapWord_holds (hw : 0<width) (h : w≠[]) (hs : Holds width done s) :
    Holds width (done++[w]) (wrapWord width s w) := by
  have hown : ∀ ls : List (List Char),
      (if w.length ≤ width then (⟨ls,w⟩ : Wrapper) else ⟨ls++(chop width w).1,(chop width w).2⟩)=
        ⟨ls++(chop width w).1,(chop width w).2⟩ := by
    intro ls
    split
    · next hshort => rw [chop_short hshort,List.append_nil]
    · rfl
  cases hs with
  | inl hs =>
    obtain ⟨rfl,rfl⟩ := hs
    simp only [wrapWord,ne_eq,not_true_eq_false,false_and,if_false,hown]
    exact @holds_own _ _ _ [] _ hw h (filled_first hw h) rfl
  | inr hs =>
    obtain ⟨rows,row,hfill,hlines,hcurrent⟩ := hs
    have hne : s.current≠[] := by
      rw [hcurrent]
      exact List.length_pos_iff.mp (hfill.bound row (by simp)).1
    by_cases hfit : s.current.length+1+w.length ≤ width
    · have hrow : row≠[] := hfill.kept row (by simp)
      rw [wrapWord,if_pos ⟨hne,hfit⟩]
      rw [hcurrent] at hfit
      exact .inr ⟨rows,_,hfill.fit hfit,hlines,by rw [hcurrent,line_snoc hrow]⟩
    · simp only [wrapWord,hfit,and_false,if_false,if_pos hne,hown]
      rw [hcurrent] at hfit
      have hnext := hfill.next hw h (by omega)
      refine holds_own hw h hnext ?_
      rw [List.map_append,List.map_singleton,hlines,hcurrent]

theorem foldl_holds (hw : 0<width) (ws : List (List Char)) (hws : ∀ w ∈ ws,w≠[])
    (hs : Holds width done s) : Holds width (done++ws) (ws.foldl (wrapWord width) s) := by
  induction ws generalizing done s with
  | nil =>
    rw [List.append_nil]
    exact hs
  | cons w ws ih =>
    have hstep := wrapWord_holds hw (hws w List.mem_cons_self) hs
    have hrun := ih (fun x hx => hws x (List.mem_cons_of_mem _ hx)) hstep
    rw [List.append_assoc,List.singleton_append] at hrun
    exact hrun

theorem wrap_wrapped (text : List Char) (hw : 0<width) : Wrapped text width (wrap text width) := by
  have hword : ∀ w ∈ words isWhitespace text,w≠[] ∧ ∀ c ∈ w,isWhitespace c=false :=
    fun w hmem => (worded_words isWhitespace text).mem_word hmem
  have hrun := foldl_holds hw (words isWhitespace text) (fun w hmem => (hword w hmem).1)
    (.inl ⟨rfl,rfl⟩ : Holds width [] ⟨[],[]⟩)
  rw [List.nil_append] at hrun
  have hrows : ∃ rows,Filled ' ' width (words isWhitespace text) rows ∧
      rows.map (line ' ')=wrap text width := by
    rw [wrap,if_neg (by omega)]
    cases hrun with
    | inl hrun =>
      obtain ⟨hnil,-⟩ := hrun
      rw [hnil]
      exact ⟨[],filled_nil ' ' width,rfl⟩
    | inr hrun =>
      obtain ⟨rows,row,hfill,hlines,hcurrent⟩ := hrun
      have hne : ((words isWhitespace text).foldl (wrapWord width) ⟨[],[]⟩).current≠[] := by
        rw [hcurrent]
        exact List.length_pos_iff.mp (hfill.bound row (by simp)).1
      refine ⟨_,hfill,?_⟩
      simp only [if_pos hne]
      rw [hlines,hcurrent,List.map_append,List.map_singleton]
  obtain ⟨rows,hfill,hout⟩ := hrows
  refine ⟨?_,?_,rows,hfill,hout⟩
  · rw [← hout]
    intro l hl
    obtain ⟨row,hrow,rfl⟩ := List.mem_map.mp hl
    exact hfill.bound row hrow
  · intro sep hne hsep
    rw [← hout]
    exact hfill.lossless hw (by decide) hword hne hsep

end Wrapping

section Shortening

variable {text placeholder : List Char} {width : Nat}

def abridged (ws : List (List Char)) (placeholder : List Char) (n : Nat) : List Char :=
  if n=0 then trimStart placeholder else collapse (ws.take n)++placeholder

/-- The collapsed text, or as many of its words as fit with the placeholder. -/
structure Shortened (text : List Char) (width : Nat) (placeholder out : List Char) : Prop where
  whole : (collapse (words isWhitespace text)).length ≤ width →
    out=collapse (words isWhitespace text)
  longest : width<(collapse (words isWhitespace text)).length →
    ∃ n ≤ (words isWhitespace text).length,out=abridged (words isWhitespace text) placeholder n ∧
      ∀ m,n < m → m ≤ (words isWhitespace text).length →
        width<(abridged (words isWhitespace text) placeholder m).length
  bound : out.length ≤ width

/-- The text fits, its first word fits with the placeholder, or the placeholder fits alone. -/
def Roomy (text : List Char) (width : Nat) (placeholder : List Char) : Prop :=
  (collapse (words isWhitespace text)).length ≤ width ∨
    (∃ w ∈ (words isWhitespace text).head?,w.length+placeholder.length ≤ width) ∨
    (trimStart placeholder).length ≤ width

theorem length_join (sep : Char) (ws : List (List Char)) :
    ([sep].intercalate ws).length=(ws.map fun w => w.length+1).sum-1 := by
  induction ws with
  | nil => rfl
  | cons w ws ih =>
    cases ws with
    | nil => simp
    | cons v ws =>
      have hjoin := Occurrence.join_cons [sep] w (List.cons_ne_nil v ws)
      rw [List.map_cons,List.sum_cons] at ih
      rw [hjoin,List.length_append,List.length_append,ih,List.length_singleton]
      simp only [List.map_cons,List.sum_cons]
      omega

theorem length_collapse (ws : List (List Char)) :
    (collapse ws).length=(ws.map fun w => w.length+1).sum-1 := length_join ' ' ws

theorem length_collapse_snoc (kept : List (List Char)) (word : List Char) :
    (collapse (kept++[word])).length=((kept++[word]).map List.length).sum+kept.length := by
  rw [length_collapse]
  induction kept with
  | nil => simp
  | cons w kept ih =>
    simp only [List.cons_append,List.map_cons,List.sum_cons,List.length_cons] at ih ⊢
    have hpos : 0<((kept++[word]).map fun w => w.length+1).sum := by
      rw [List.map_append,List.sum_append,List.map_singleton,List.sum_singleton]
      omega
    omega

theorem collapse_mono (ws : List (List Char)) {m n : Nat} (h : m ≤ n) :
    (collapse (ws.take m)).length ≤ (collapse (ws.take n)).length := by
  have hsplit : ws.take n=ws.take m++(ws.drop m).take (n-m) := by
    rw [← List.take_add]
    congr 1
    omega
  rw [length_collapse,length_collapse,hsplit,List.map_append,List.sum_append]
  omega

/-- The loop stops before the first word that does not fit. -/
theorem keep_spec (width phLen : Nat) (kept ws : List (List Char)) :
    ∃ n ≤ ws.length,keep width phLen kept ws=kept++ws.take n ∧
      (0<n → (collapse (kept++ws.take n)).length+phLen ≤ width) ∧
      (n<ws.length → width<(collapse (kept++ws.take (n+1))).length+phLen) := by
  induction ws generalizing kept with
  | nil => exact ⟨0,le_refl 0,by simp [keep],fun h => absurd h (by simp),
    fun h => absurd h (by simp)⟩
  | cons word ws ih =>
    by_cases hfit : ((kept++[word]).map List.length).sum+kept.length+phLen ≤ width
    · obtain ⟨n,hn,hkeep,hfits,hstop⟩ := ih (kept++[word])
      have happend : ∀ k,kept++(word::ws).take (k+1)=kept++[word]++ws.take k := by
        intro k
        rw [List.take_succ_cons,List.append_assoc,List.singleton_append]
      refine ⟨n+1,Nat.succ_le_succ hn,?_,fun _ => ?_,fun h => ?_⟩
      · rw [keep,if_pos hfit,hkeep,happend]
      · rw [happend]
        obtain rfl | hpos := Nat.eq_zero_or_pos n
        · rw [List.take_zero,List.append_nil,length_collapse_snoc]
          exact hfit
        · exact hfits hpos
      · rw [happend]
        exact hstop (Nat.lt_of_succ_lt_succ h)
    · refine ⟨0,Nat.zero_le _,?_,fun h => absurd h (by simp),fun _ => ?_⟩
      · rw [keep,if_neg hfit,List.take_zero,List.append_nil]
      · rw [Nat.zero_add,List.take_succ_cons,List.take_zero,length_collapse_snoc]
        exact Nat.lt_of_not_le hfit

/-- What `shorten` makes of a text that does not fit. -/
theorem shorten_long (h : width<(collapse (words isWhitespace text)).length) :
    ∃ n<(words isWhitespace text).length,
      shorten text width placeholder=abridged (words isWhitespace text) placeholder n ∧
      (0<n → (abridged (words isWhitespace text) placeholder n).length ≤ width) ∧
      ∀ m,n < m → width<(abridged (words isWhitespace text) placeholder m).length := by
  generalize hws : words isWhitespace text=ws at h
  obtain ⟨n,hn,hkeep,hfits,hstop⟩ := keep_spec width placeholder.length [] ws
  rw [List.nil_append] at hkeep hfits hstop
  have hlt : n<ws.length := by
    refine lt_of_le_of_ne hn fun heq => ?_
    subst heq
    rw [List.take_length] at hfits
    obtain hzero | hpos := Nat.eq_zero_or_pos ws.length
    · rw [List.length_eq_zero_iff.mp hzero] at h
      exact absurd h (Nat.not_lt_zero _)
    · have hall := hfits hpos
      omega
  have hnil : ws.take n=[] ↔ n=0 := by
    rw [List.take_eq_nil_iff]
    refine ⟨fun h0 => h0.resolve_right fun hnil => ?_,.inl⟩
    rw [hnil] at hlt
    exact absurd hlt (Nat.not_lt_zero _)
  refine ⟨n,hlt,?_,fun hpos => ?_,fun m hm => ?_⟩
  · rw [shorten,hws]
    simp only [if_neg (Nat.not_le.mpr h),hkeep,hnil,abridged]
  · rw [abridged,if_neg (by omega),List.length_append]
    exact hfits hpos
  · have hmono := collapse_mono ws (show n+1 ≤ m from hm)
    have hfirst := hstop hlt
    rw [abridged,if_neg (by omega),List.length_append]
    omega

theorem shortened_iff (text : List Char) (width : Nat) (placeholder : List Char) :
    Shortened text width placeholder (shorten text width placeholder) ↔
      Roomy text width placeholder := by
  by_cases hwhole : (collapse (words isWhitespace text)).length ≤ width
  · have hout : shorten text width placeholder=collapse (words isWhitespace text) := by
      rw [shorten]
      exact if_pos hwhole
    refine ⟨fun _ => .inl hwhole,fun _ => ⟨fun _ => hout,fun h => absurd hwhole (by omega),?_⟩⟩
    rw [hout]
    exact hwhole
  · obtain ⟨n,hn,hout,hfits,hstop⟩ := @shorten_long text placeholder width
      (Nat.lt_of_not_le hwhole)
    -- one word alone with the placeholder
    have hone : ∀ w ∈ (words isWhitespace text).head?,
        (abridged (words isWhitespace text) placeholder 1).length=w.length+placeholder.length := by
      intro w hw
      obtain ⟨ws,hws⟩ := List.head?_eq_some_iff.mp hw
      rw [hws]
      simp [abridged,collapse]
    constructor
    · intro h
      by_contra hno
      simp only [Roomy,not_or] at hno
      obtain ⟨-,hfirst,halone⟩ := hno
      obtain rfl | hpos := Nat.eq_zero_or_pos n
      · have hb := h.bound
        rw [hout] at hb
        exact halone hb
      · have hmem : ∃ w,(words isWhitespace text).head?=some w :=
          Option.isSome_iff_exists.mp (List.isSome_head?.mpr fun hnil => by
            rw [hnil] at hn
            exact absurd hn (Nat.not_lt_zero _))
        obtain ⟨w,hw⟩ := hmem
        have hle := hfits hpos
        have hmono := collapse_mono (words isWhitespace text) (show 1 ≤ n from hpos)
        have hlen := hone w hw
        rw [abridged,if_neg (by omega),List.length_append] at hle hlen
        exact hfirst ⟨w,hw,by omega⟩
    · intro h
      refine ⟨fun h0 => absurd h0 hwhole,fun _ => ⟨n,hn.le,hout,fun m hm _ => hstop m hm⟩,?_⟩
      rw [hout]
      obtain rfl | hpos := Nat.eq_zero_or_pos n
      · obtain h | ⟨w,hw,hle⟩ | h := h
        · exact absurd h hwhole
        · have hlong := hstop 1 (by decide)
          rw [hone w hw] at hlong
          omega
        · exact h
      · exact hfits hpos

end Shortening

section Dedenting

variable {s out l p : List Char}

def leading (l : List Char) : List Char := l.takeWhile isWhitespace

def nonBlank (s : List Char) : List (List Char) := (lines s).filter fun l => !isBlank l

/-- The longest blank text that all these lines begin with. -/
structure Margin (ls : List (List Char)) (p : List Char) : Prop where
  blank : ∀ c ∈ p,isWhitespace c=true
  common : ∀ l ∈ ls,p<+:l
  longest : ∀ q : List Char,(∀ c ∈ q,isWhitespace c=true) → (∀ l ∈ ls,q<+:l) → q<+:p

def without (s : List Char) (k : Nat) : List Char :=
  ['\n'].intercalate ((lines s).map fun l => if isBlank l then l else l.drop k)

/-- The lines without their common margin, with or without a newline after the last. The lines are
those of `str::lines`, so a carriage return before a newline counts as no part of its line. -/
def Dedented (s out : List Char) : Prop :=
  if nonBlank s=[] then out=s
  else ∃ p,Margin (nonBlank s) p ∧ ∃ tail,(tail=[] ∨ tail=['\n']) ∧ out=without s p.length++tail

/-- Some line's indentation begins all the others. -/
def Aligned (s : List Char) : Prop :=
  nonBlank s=[] ∨ ∃ l ∈ nonBlank s,∀ m ∈ nonBlank s,leading l<+:m

theorem splitInclusive_newline (s : List Char) : ∀ l ∈ splitInclusive s,
    ∃ body tail,l=body++tail ∧ '\n'∉body ∧ (tail=[] ∨ tail=['\n']) := by
  induction s with
  | nil => exact fun _ hl => nomatch hl
  | cons c s ih =>
    intro l hl
    rw [splitInclusive] at hl
    by_cases hc : c= '\n'
    · rw [if_pos hc,List.mem_cons] at hl
      obtain rfl | hl := hl
      · exact ⟨[],[c],rfl,by simp,.inr (by rw [hc])⟩
      · exact ih l hl
    · rw [if_neg hc] at hl
      have hcons : ∀ {body tail : List Char},'\n'∉body → (tail=[] ∨ tail=['\n']) →
          ∃ body' tail',c::(body++tail)=body'++tail' ∧ '\n'∉body' ∧ (tail'=[] ∨ tail'=['\n']) :=
        fun {body tail} hbody htail =>
          ⟨c::body,tail,rfl,by simp [hbody,Ne.symm hc],htail⟩
      cases hs : splitInclusive s with
      | nil =>
        rw [hs,List.mem_singleton] at hl
        rw [hl]
        exact @hcons [] [] (by simp) (.inl rfl)
      | cons k ks =>
        rw [hs] at hl
        rw [hs] at ih
        cases List.mem_cons.mp hl with
        | inl hl =>
          obtain ⟨body,tail,hk,hbody,htail⟩ := ih k List.mem_cons_self
          rw [hl,hk]
          exact hcons hbody htail
        | inr hl => exact ih l (List.mem_cons_of_mem _ hl)

theorem lines_newline (s : List Char) : ∀ l ∈ lines s,'\n'∉l := by
  intro l hl
  obtain ⟨piece,hpiece,rfl⟩ := List.mem_map.mp hl
  obtain ⟨body,tail,rfl,hbody,htail⟩ := splitInclusive_newline s piece hpiece
  have hdrop : '\n'∉body.dropLast := fun h => hbody (List.dropLast_subset _ h)
  obtain rfl | rfl := htail
  · have hlast : body.getLast?≠some '\n' := fun h => hbody (List.mem_of_getLast? h)
    rw [List.append_nil,stripEnd,if_neg hlast]
    exact hbody
  · rw [stripEnd,List.getLast?_concat,if_pos rfl,List.dropLast_concat]
    split
    · exact hdrop
    · exact hbody

theorem leadingCount_eq (hl : '\n'∉l) : leadingCount l=(leading l).length := by
  rw [leadingCount,leading]
  congr 1
  induction l with
  | nil => rfl
  | cons c l ih =>
    have hc : c≠ '\n' := fun h => hl (h ▸ List.mem_cons_self)
    have hrest := ih fun h => hl (List.mem_cons_of_mem _ h)
    simp only [List.takeWhile_cons,hc,ne_eq,not_false_eq_true,decide_true,Bool.and_true]
    rw [hrest]

theorem prefix_leading (hp : ∀ c ∈ p,isWhitespace c=true) : p<+:leading l ↔ p<+:l := by
  constructor
  · exact fun h => h.trans (List.takeWhile_prefix _)
  · rintro ⟨rest,rfl⟩
    rw [leading,List.takeWhile_append_of_pos hp]
    exact List.prefix_append _ _

theorem leading_blank (l : List Char) : ∀ c ∈ leading l,isWhitespace c=true :=
  fun _ hc => List.mem_takeWhile_imp hc

theorem common_spec (h : nonBlank s≠[]) :
    ∃ l ∈ nonBlank s,((nonBlank s).map leadingCount).min?.getD 0=(leading l).length ∧
      ∀ m ∈ nonBlank s,(leading l).length ≤ (leading m).length := by
  have hcount : ∀ m ∈ nonBlank s,leadingCount m=(leading m).length :=
    fun m hm => leadingCount_eq (lines_newline s m (List.mem_filter.mp hm).1)
  cases hmin : ((nonBlank s).map leadingCount).min? with
  | none =>
    rw [List.min?_eq_none_iff,List.map_eq_nil_iff] at hmin
    exact absurd hmin h
  | some k =>
    obtain ⟨hmem,hle⟩ := List.min?_eq_some_iff.mp hmin
    obtain ⟨l,hl,rfl⟩ := List.mem_map.mp hmem
    refine ⟨l,hl,hcount l hl,fun m hm => ?_⟩
    rw [← hcount l hl,← hcount m hm]
    exact hle _ (List.mem_map_of_mem hm)

theorem finish_tail (s out : List Char) :
    ∃ tail,(tail=[] ∨ tail=['\n']) ∧ finish s out=out++tail := by
  rw [finish]
  split
  · exact ⟨['\n'],.inr rfl,rfl⟩
  · exact ⟨[],.inl rfl,(List.append_nil _).symm⟩

/-- Each line that is not blank loses as much. -/
theorem length_without {j k : Nat} (hjk : k ≤ j) (hs : ∀ l ∈ nonBlank s,j ≤ l.length)
    (hne : nonBlank s≠[]) :
    (without s k).length=(without s j).length+(j-k)*(nonBlank s).length := by
  have hsum : ∀ ls : List (List Char),(∀ l ∈ ls.filter fun l => !isBlank l,j ≤ l.length) →
      ((ls.map fun l => if isBlank l then l else l.drop k).map fun w => w.length+1).sum=
        ((ls.map fun l => if isBlank l then l else l.drop j).map fun w => w.length+1).sum+
          (j-k)*(ls.filter fun l => !isBlank l).length := by
    intro ls hls
    induction ls with
    | nil => simp
    | cons l ls ih =>
      have hrest := ih fun m hm => hls m <| by
        rw [List.filter_cons]
        split
        · exact List.mem_cons_of_mem _ hm
        · exact hm
      simp only [List.map_cons,List.sum_cons,hrest]
      by_cases hb : isBlank l=true
      · rw [if_pos hb,if_pos hb,List.filter_cons_of_neg (by simp [hb])]
        omega
      · have hlen := hls l (by
          rw [List.filter_cons_of_pos (by simp [hb])]
          exact List.mem_cons_self)
        rw [if_neg hb,if_neg hb,List.filter_cons_of_pos (by simp [hb]),List.length_cons,
          Nat.mul_succ,
          List.length_drop,List.length_drop]
        omega
  have hpos : 0<((lines s).map fun l => if isBlank l then l else l.drop j).length := by
    rw [List.length_map]
    refine List.length_pos_iff.mpr fun hnil => hne ?_
    rw [nonBlank,hnil]
    rfl
  have hfirst : 0<(((lines s).map fun l => if isBlank l then l else l.drop j).map
      fun w => w.length+1).sum := by
    cases hmap : (lines s).map fun l => if isBlank l then l else l.drop j with
    | nil =>
      rw [hmap] at hpos
      exact absurd hpos (Nat.not_lt_zero _)
    | cons w ws =>
      rw [List.map_cons,List.sum_cons]
      omega
  have hall := hsum (lines s) hs
  rw [without,without,length_join,length_join,hall,nonBlank]
  omega

theorem dedent_eq (h : nonBlank s≠[]) {k : Nat}
    (hk : ((nonBlank s).map leadingCount).min?.getD 0=k) : dedent s=finish s (without s k) := by
  rw [dedent]
  show (if nonBlank s=[] then s
    else finish s (without s (((nonBlank s).map leadingCount).min?.getD 0)))=_
  rw [if_neg h,hk]

theorem margin_of_aligned {ls : List (List Char)} (hl : l ∈ ls) (h : ∀ m ∈ ls,leading l<+:m) :
    Margin ls (leading l) where
  blank := leading_blank l
  common := h
  longest := fun _ hq hall => (prefix_leading hq).mpr (hall l hl)

theorem dedented_iff (s : List Char) : Dedented s (dedent s) ↔ Aligned s := by
  by_cases hnil : nonBlank s=[]
  · have hout : dedent s=s := by
      rw [dedent]
      exact if_pos hnil
    rw [Dedented,if_pos hnil]
    exact ⟨fun _ => .inl hnil,fun _ => hout⟩
  rw [Dedented,if_neg hnil]
  obtain ⟨l,hl,hk,hmin⟩ := common_spec hnil
  obtain ⟨tail₁,htail₁,hfinish⟩ := finish_tail s (without s (leading l).length)
  rw [dedent_eq hnil hk,hfinish]
  constructor
  · rintro ⟨p,hp,tail₂,htail₂,hout⟩
    refine .inr ⟨l,hl,?_⟩
    have hpre := (prefix_leading hp.blank).mpr (hp.common l hl)
    have hlong : ∀ m ∈ nonBlank s,(leading l).length ≤ m.length := fun m hm =>
      (hmin m hm).trans (List.takeWhile_prefix _).length_le
    have hcount := length_without hpre.length_le hlong hnil
    have htotal := congrArg List.length hout
    rw [List.length_append,List.length_append,hcount] at htotal
    have hone : ∀ {t : List Char},(t=[] ∨ t=['\n']) → t.length ≤ 1 := by
      rintro t (rfl | rfl) <;> simp
    have hle₁ := hone htail₁
    have hcut : ((leading l).length-p.length)*(nonBlank s).length ≤ 1 := by omega
    have hsame : leading l=p := by
      by_cases hsingle : (nonBlank s).length=1
      · -- the only line's indentation is itself common
        obtain ⟨m,hm⟩ := List.length_eq_one_iff.mp hsingle
        have hall : ∀ k ∈ nonBlank s,leading l<+:k := by
          intro k hk
          rw [hm,List.mem_singleton] at hk hl
          rw [hk,hl]
          exact List.takeWhile_prefix _
        exact (hp.longest _ (leading_blank l) hall).eq_of_length_le hpre.length_le
      · have hpos : 0<(nonBlank s).length := List.length_pos_iff.mpr hnil
        have hzero : (leading l).length-p.length=0 := by
          by_contra hne
          have hmul := Nat.mul_le_mul (Nat.pos_of_ne_zero hne)
            (show 2 ≤ (nonBlank s).length by omega)
          omega
        exact (hpre.eq_of_length_le (by omega)).symm
    rw [hsame]
    exact hp.common
  · intro h
    obtain ⟨l',hl',hall⟩ := h.resolve_left hnil
    have hle : leading l'<+:leading l := (prefix_leading (leading_blank l')).mpr (hall l hl)
    have hsame : leading l'=leading l := hle.eq_of_length_le (hmin l' hl')
    refine ⟨leading l,margin_of_aligned hl fun m hm => ?_,tail₁,htail₁,rfl⟩
    rw [← hsame]
    exact hall m hm

end Dedenting

section Exact

/-- `wrap`, `shorten` and `dedent` do what their names say with this text. -/
structure Kept (text : List Char) (width : Nat) (placeholder : List Char) : Prop where
  wrapped : Wrapped text width (wrap text width)
  shortened : Shortened text width placeholder (shorten text width placeholder)
  dedented : Dedented text (dedent text)

theorem textwrap_exact (text : List Char) (width : Nat) (placeholder : List Char)
    (hw : 1 ≤ width) :
    Kept text width placeholder ↔ Roomy text width placeholder ∧ Aligned text := by
  constructor
  · intro h
    exact ⟨(shortened_iff text width placeholder).mp h.shortened,(dedented_iff text).mp h.dedented⟩
  · rintro ⟨hroomy,haligned⟩
    exact ⟨wrap_wrapped text hw,(shortened_iff text width placeholder).mpr hroomy,
      (dedented_iff text).mpr haligned⟩

theorem textwrap_exact_nested :
    Kept "  one\n    two".toList 8 " [...]".toList := by
  refine (textwrap_exact _ _ _ (by decide)).mpr ⟨.inl ?_,.inr ?_⟩
  · decide
  · exact ⟨"  one".toList,by decide,by decide⟩

/-- A tab and two spaces have nothing in common, and a placeholder may be too wide. -/
theorem margins_mixed :
    (dedent "\ta\n  b".toList="a\n b".toList ∧
      ¬Dedented "\ta\n  b".toList (dedent "\ta\n  b".toList)) ∧
      shorten "hello world".toList 3 " [...]".toList="[...]".toList ∧
      ¬Kept "hello world".toList 3 " [...]".toList := by
  refine ⟨⟨by decide,fun h => ?_⟩,by decide,fun h => ?_⟩
  · have haligned := (dedented_iff _).mp h
    have hno : ¬(nonBlank "\ta\n  b".toList=[] ∨ ∃ l ∈ nonBlank "\ta\n  b".toList,
        ∀ m ∈ nonBlank "\ta\n  b".toList,leading l<+:m) := by decide
    exact hno haligned
  · have hbound := h.shortened.bound
    exact absurd hbound (by decide)

end Exact

end InterpretThis.Textwrap
