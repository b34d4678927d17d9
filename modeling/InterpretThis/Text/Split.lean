import InterpretThis.Framework.Occurrence
import InterpretThis.Framework.Words
import InterpretThis.Value.Key

namespace InterpretThis.Text

open Occurrence Words

section Source

def toIndex (i : Int64) : Except EvalError Nat :=
  if i<0 then .error (.interpreter (.runtime "index overflow or negative"))
  else .ok i.toInt.toNat

/-- `str::splitn`: at most `n` parts. -/
def splitn (n : Nat) (sep s : List Char) : List (List Char) :=
  match n with
  | 0 => []
  | n+1 => splits sep n s

/-- `str::rsplitn`: at most `n` parts, from the right. -/
def rsplitn (n : Nat) (sep s : List Char) : List (List Char) :=
  match n with
  | 0 => []
  | n+1 => rsplits sep n s

/-- `str::split`. -/
def splitAll (sep s : List Char) : List (List Char) := splits sep s.length s

/-- The loop of `split_whitespace_max`. -/
def scanWords (maxsplit : Int) (done : Nat) (rest : List Char) : List (List Char) :=
  if rest=[] then []
  else if 0 ≤ maxsplit ∧ maxsplit ≤ done then [rest]
  else
    match h : rest.findIdx? isWhitespace with
    | some i =>
      rest.take i::scanWords maxsplit (done+1) ((rest.drop i).dropWhile isWhitespace)
    | none => [rest]
termination_by rest.length
decreasing_by
  obtain ⟨hi,hws,-⟩ := List.findIdx?_eq_some_iff_getElem.mp h
  rw [List.drop_eq_getElem_cons hi,List.dropWhile_cons_of_pos hws]
  have hle := (List.dropWhile_sublist (l := rest.drop (i+1)) isWhitespace).length_le
  rw [List.length_drop] at hle
  omega

def splitWhitespaceMax (s : List Char) (maxsplit : Int64) : List (List Char) :=
  if maxsplit=0 then [s] else scanWords maxsplit.toInt 0 (s.dropWhile isWhitespace)

def locate (s : List Char) (searchFrom : Nat) (w : List Char) : Nat :=
  ((first w (s.drop searchFrom)).map (searchFrom+·)).getD searchFrom

def rsplitWhitespaceMax (s : List Char) (maxsplit : Int64) : List (List Char) :=
  let ws := words isWhitespace s
  if maxsplit<0 then ws
  else if maxsplit=0 then [s]
  else if ws=[] then []
  else
    let n := ws.length
    let keep := min maxsplit.toInt.toNat n
    if n ≤ keep then ws
    else
      let searchFrom := (ws.take (n-keep)).foldl (fun place w => locate s place w+w.length) 0
      let remEnd := locate s searchFrom (ws[n-keep]?.getD [])
      ((s.take remEnd).reverse.dropWhile isWhitespace).reverse::ws.drop (n-keep)

def split (s : List Char) (sep : Option Value) (maxsplit : Int64) :
    Except EvalError (List (List Char)) :=
  match sep with
  | none | some .none => .ok (splitWhitespaceMax s maxsplit)
  | some (.string sep) =>
    if sep.toList=[] then .error (.interpreter (.valueError "empty separator"))
    else if maxsplit<0 then .ok (splitAll sep.toList s)
    else
      match toIndex (maxsplit+1) with
      | .error e => .error e
      | .ok n => .ok (splitn n sep.toList s)
  | some other => .error (.interpreter (.typeError s!"must be str or None, not {other.typeName}"))

def rsplit (s : List Char) (sep : Option Value) (maxsplit : Int64) :
    Except EvalError (List (List Char)) :=
  match sep with
  | none | some .none => .ok (rsplitWhitespaceMax s maxsplit)
  | some (.string sep) =>
    if sep.toList=[] then .error (.interpreter (.valueError "empty separator"))
    else if maxsplit<0 then .ok (splitAll sep.toList s)
    else
      match toIndex (maxsplit+1) with
      | .error e => .error e
      | .ok n => .ok (rsplitn n sep.toList s).reverse
  | some other => .error (.interpreter (.typeError s!"must be str or None, not {other.typeName}"))

/-- `str.join` of strings. -/
def join (s : List Char) (items : List (List Char)) : List Char := s.intercalate items

def isBreak (c : Char) : Bool :=
  c.toNat ∈ [0x0a,0x0d,0x0b,0x0c,0x1c,0x1d,0x1e,0x85,0x2028,0x2029]

/-- The lines from a place on; `line` is the line so far. -/
def splitLinesFrom (keepends : Bool) : List Char → List Char → List (List Char)
  | [],line => if line=[] then [] else [line]
  | c::chars,line =>
    if isBreak c then
      if c= '\r' ∧ chars.head?=some '\n' then
        (if keepends then line++[c,'\n'] else line)::splitLinesFrom keepends chars.tail []
      else (if keepends then line++[c] else line)::splitLinesFrom keepends chars []
    else splitLinesFrom keepends chars (line++[c])
termination_by chars => chars.length

def splitLines (s : List Char) (keepends : Bool) : List (List Char) := splitLinesFrom keepends s []

end Source

section Python

/-- The information separators: blanks in Python, but not for `char::is_whitespace`. -/
def isSeparator (c : Char) : Bool := 0x1c ≤ c.toNat && c.toNat ≤ 0x1f

def isSpace (c : Char) : Bool := isWhitespace c || isSeparator c

def pythonSplit (s : List Char) (n : Int) : List (List Char) :=
  if n<0 then words isSpace s else fields isSpace n.toNat s

def pythonRsplit (s : List Char) (n : Int) : List (List Char) :=
  if n<0 then words isSpace s else rfields isSpace n.toNat s

theorem separator_not_whitespace (c : Char) (h : isSeparator c=true) : isWhitespace c=false := by
  simp only [isSeparator,Bool.and_eq_true,decide_eq_true_eq] at h
  simp only [isWhitespace,Bool.or_eq_false_iff,decide_eq_false_iff_not,beq_eq_false_iff_ne]
  omega

end Python

section Blanks

variable {s : List Char} {ps : List (List Char)} {m : Int}

theorem findIdx_word {w b : List Char} (hclean : ∀ c ∈ w,isWhitespace c=false)
    (hb : ∀ c ∈ b.head?,isWhitespace c=true) :
    (w++b).findIdx? isWhitespace=if b=[] then none else some w.length := by
  have hw : w.findIdx? isWhitespace=none := List.findIdx?_eq_none_iff.mpr hclean
  rw [List.findIdx?_append,hw]
  cases b with
  | nil => rfl
  | cons c b => simp [List.findIdx?_cons,hb c rfl]

/-- The loop finds the words, up to the limit. -/
theorem scanWords_worded (h : Worded isWhitespace ps s) (done : Nat) :
    (m<0 → scanWords m done (s.dropWhile isWhitespace)=ps) ∧
      ∀ k : Nat,m=done+k →
        scanWords m done (s.dropWhile isWhitespace)=fields isWhitespace k s := by
  induction h generalizing done with
  | blank h =>
    rw [blank_iff.mpr h,scanWords,if_pos rfl]
    exact ⟨fun _ => rfl,fun k _ => (fields_blank h).symm⟩
  | @word a w b ps ha hw hclean hb hrest ih =>
    have hdrop : (a++w++b).dropWhile isWhitespace=w++b := by
      rw [List.append_assoc]
      exact dropWhile_blank ha (head_word hw hclean)
    have hne : w++b≠[] := by simp [hw]
    have hfields : ∀ k,fields isWhitespace (k+1) (a++w++b)=w::fields isWhitespace k b :=
      fun k => fields_word ha hw hclean hb
    have hpass : ¬(0 ≤ m ∧ m ≤ done) → scanWords m done (w++b)=
        w::scanWords m (done+1) (b.dropWhile isWhitespace) := by
      intro hgo
      rw [scanWords,if_neg hne,if_neg hgo]
      have hfind := findIdx_word hclean hb
      cases b with
      | nil =>
        rw [if_pos rfl] at hfind
        split
        · rename_i i hi
          rw [hfind] at hi
          cases hi
        · rw [List.append_nil]
          simp [scanWords]
      | cons c b =>
        rw [if_neg (by simp)] at hfind
        split
        · rename_i i hi
          rw [hfind] at hi
          cases hi
          rw [List.take_left,List.drop_left]
        · rename_i hi
          rw [hfind] at hi
          cases hi
    rw [hdrop]
    constructor
    · intro hm
      rw [hpass (by omega),(ih (done+1)).1 hm]
    · intro k hk
      cases k with
      | zero =>
        rw [scanWords,if_neg hne,if_pos (by omega),fields,hdrop]
        cases hwb : w++b with
        | nil => exact absurd hwb hne
        | cons c r => rfl
      | succ k => rw [hpass (by omega),hfields,(ih (done+1)).2 k (by omega)]

theorem negative_iff (n : Int64) : n<0 ↔ n.toInt<0 := Int64.lt_iff_toInt_lt

theorem zero_iff (n : Int64) : n=0 ↔ n.toInt=0 := by
  rw [← Int64.toInt_inj]
  rfl

theorem splitWhitespaceMax_unlimited {n : Int64} (hn : n<0) :
    splitWhitespaceMax s n=words isWhitespace s := by
  have hneg := (negative_iff n).mp hn
  have hne : n≠0 := fun h0 => by
    have hz := (zero_iff n).mp h0
    omega
  rw [splitWhitespaceMax,if_neg hne]
  exact (scanWords_worded (worded_words isWhitespace s) 0).1 hneg

theorem splitWhitespaceMax_limited {n : Int64} (hn : ¬n<0) (h0 : n≠0) :
    splitWhitespaceMax s n=fields isWhitespace n.toInt.toNat s := by
  rw [negative_iff] at hn
  rw [splitWhitespaceMax,if_neg h0]
  refine (scanWords_worded (worded_words isWhitespace s) 0).2 n.toInt.toNat ?_
  omega

theorem locate_word {s pre a w b : List Char} (hs : s=pre++(a++w++b))
    (ha : ∀ c ∈ a,isWhitespace c=true) (hw : w≠[]) (hclean : ∀ c ∈ w,isWhitespace c=false) :
    locate s pre.length w=pre.length+a.length := by
  have hfirst : first w (a++w++b)=some a.length := by
    refine first_some.mpr ⟨at_append,fun j hj hat => ?_⟩
    obtain ⟨a',b',heq,rfl⟩ := at_iff.mp hat
    obtain ⟨c,w,rfl⟩ := List.exists_cons_of_ne_nil hw
    have hc : (a++(c::w)++b)[a'.length]?=some c := by
      rw [heq]
      simp
    rw [List.append_assoc,List.getElem?_append_left hj] at hc
    have htrue := ha c (List.mem_of_getElem? hc)
    rw [hclean c (List.mem_cons_self ..)] at htrue
    cases htrue
  rw [locate,hs,List.drop_left,hfirst]
  rfl

/-- The loop over the words comes to a place after the last of them. -/
theorem locate_words {a : List Char} (h : Worded isWhitespace ps a) (pre c : List Char)
    (hs : s=pre++a++c) :
    ∃ e ≤ a.length,
      ps.foldl (fun place w => locate s place w+w.length) pre.length=pre.length+e ∧
      ∀ d ∈ a.drop e,isWhitespace d=true := by
  induction h generalizing pre with
  | blank h => exact ⟨0,Nat.zero_le _,rfl,h⟩
  | @word a w b ps ha hw hclean hb hrest ih =>
    have hword : locate s pre.length w=pre.length+a.length := by
      refine locate_word (b := b++c) ?_ ha hw hclean
      rw [hs]
      simp
    obtain ⟨e,hle,hloop,hblank⟩ := ih (pre++(a++w)) (by rw [hs]; simp)
    refine ⟨(a++w).length+e,?_,?_,?_⟩
    · rw [@List.length_append _ (a++w) b]
      omega
    · rw [List.foldl_cons,hword]
      rw [List.length_append,List.length_append] at hloop
      rw [Nat.add_assoc,hloop,List.length_append]
      omega
    · rw [List.drop_length_add_append]
      exact hblank

theorem remainder_words {p q : List (List Char)} (h : Worded isWhitespace (p++q) s) (hp : p≠[])
    (hq : q≠[]) :
    ((s.take (locate s (p.foldl (fun place w => locate s place w+w.length) 0)
      q.headI)).reverse.dropWhile
      isWhitespace).reverse::q=rfields isWhitespace q.length s := by
  obtain ⟨a,b,hs,ha,hb,hend,t,ht⟩ := h.split hq
  obtain ⟨e,hle,hloop,hblank⟩ := locate_words ha [] b hs
  rw [List.length_nil,Nat.zero_add] at hloop
  have hmem : q.headI ∈ q := by
    cases q with
    | nil => exact absurd rfl hq
    | cons w q => exact List.mem_cons_self ..
  obtain ⟨hne,hclean⟩ := hb.mem_word hmem
  have hword : s=a.take e++(a.drop e++q.headI++t) := by
    rw [hs,ht,List.append_assoc (a.drop e),← List.append_assoc (a.take e),List.take_append_drop]
  have hplace := locate_word hword hblank hne hclean
  rw [List.length_take_of_le hle,List.length_drop,Nat.add_sub_cancel' hle] at hplace
  rw [hloop,hplace,hs,List.take_left]
  exact (rfields_rest ha hp hend hb).symm

theorem rsplitWhitespaceMax_limited {n : Int64} (hn : ¬n<0) (h0 : n≠0) :
    rsplitWhitespaceMax s n=rfields isWhitespace n.toInt.toNat s := by
  have hworded := worded_words isWhitespace s
  rw [rsplitWhitespaceMax]
  simp only [hn,h0,if_false]
  generalize words isWhitespace s=ws at hworded
  by_cases hnone : ws=[]
  · rw [if_pos hnone]
    rw [hnone] at hworded
    exact (hworded.rfields (Nat.zero_le _)).symm
  · rw [if_neg hnone]
    by_cases hfew : ws.length ≤ n.toInt.toNat
    · rw [if_pos (by omega),hworded.rfields hfew]
    · have hpos : 0<n.toInt := by
        rw [negative_iff] at hn
        have hne := mt (zero_iff n).mpr h0
        omega
      have hmin : min n.toInt.toNat ws.length=n.toInt.toNat := by omega
      rw [if_neg (by omega),hmin]
      generalize hk : ws.length-n.toInt.toNat=k
      have hlast : (ws.drop k).length=n.toInt.toNat := by
        rw [List.length_drop]
        omega
      have hq : ws.drop k≠[] := List.ne_nil_of_length_pos (by omega)
      have hp : ws.take k≠[] := by
        refine List.ne_nil_of_length_pos ?_
        rw [List.length_take]
        omega
      have htarget : ws[k]?.getD []=(ws.drop k).headI := by
        rw [← List.head?_drop]
        cases ws.drop k with
        | nil => rfl
        | cons w q => rfl
      rw [← List.take_append_drop k ws] at hworded
      rw [htarget,remainder_words hworded hp hq,hlast]

theorem rsplitWhitespaceMax_unlimited {n : Int64} (hn : n<0) :
    rsplitWhitespaceMax s n=words isWhitespace s := by
  rw [rsplitWhitespaceMax]
  simp only [hn,if_true]

/-- Python's parts, from the left. -/
def SplitPlain (s : List Char) (n : Int64) : Prop :=
  if n<0 then ∀ c ∈ s,isSeparator c=false
  else if n=0 then ∃ c ∈ s.head?,isSpace c=false
  else Plain isWhitespace isSeparator n.toInt.toNat s

/-- Python's parts, from the right. -/
def RsplitPlain (s : List Char) (n : Int64) : Prop :=
  if n<0 then ∀ c ∈ s,isSeparator c=false
  else if n=0 then ∃ c ∈ s.getLast?,isSpace c=false
  else Plain isWhitespace isSeparator n.toInt.toNat s.reverse

theorem splitWhitespaceMax_iff (n : Int64) :
    splitWhitespaceMax s n=pythonSplit s n.toInt ↔ SplitPlain s n := by
  rw [pythonSplit,SplitPlain]
  by_cases hn : n<0
  · rw [if_pos ((negative_iff n).mp hn),if_pos hn,splitWhitespaceMax_unlimited hn,eq_comm]
    exact words_eq_iff separator_not_whitespace
  · rw [if_neg (mt (negative_iff n).mpr hn),if_neg hn]
    by_cases h0 : n=0
    · rw [if_pos h0,splitWhitespaceMax,if_pos h0,(zero_iff n).mp h0,eq_comm]
      exact whole_iff
    · rw [if_neg h0,splitWhitespaceMax_limited hn h0,eq_comm]
      exact fields_eq_iff separator_not_whitespace

theorem rsplitWhitespaceMax_iff (n : Int64) :
    rsplitWhitespaceMax s n=pythonRsplit s n.toInt ↔ RsplitPlain s n := by
  rw [pythonRsplit,RsplitPlain]
  by_cases hn : n<0
  · rw [if_pos ((negative_iff n).mp hn),if_pos hn,rsplitWhitespaceMax_unlimited hn,eq_comm]
    exact words_eq_iff separator_not_whitespace
  · rw [if_neg (mt (negative_iff n).mpr hn),if_neg hn]
    by_cases h0 : n=0
    · have hwhole : rsplitWhitespaceMax s n=[s] := by
        show (if n<0 then _ else if n=0 then [s] else _)=[s]
        rw [if_neg hn,if_pos h0]
      have hrev : [s]=([s.reverse].map List.reverse).reverse := by simp
      rw [if_pos h0,hwhole,(zero_iff n).mp h0,eq_comm,hrev,rfields_eq_iff,← List.head?_reverse]
      exact whole_iff
    · rw [if_neg h0,rsplitWhitespaceMax_limited hn h0,eq_comm]
      exact rfields_eq_iff.trans (fields_eq_iff separator_not_whitespace)

end Blanks

section Separators

variable {s : List Char} {sep : String} {n : Int64}

def limit (n : Int64) : Option Nat := if n<0 then none else some n.toInt.toNat

/-- The parts rejoin to the text, are not too many, and lie between the first separators. -/
def LeftParts (sep s : List Char) (n : Int64) (r : Except EvalError (List (List Char))) : Prop :=
  ∃ parts,r=.ok parts ∧ join sep parts=s ∧ (0 ≤ n.toInt → (parts.length : Int) ≤ n.toInt+1) ∧
    Leftmost sep (limit n) s parts

def RightParts (sep s : List Char) (n : Int64) (r : Except EvalError (List (List Char))) : Prop :=
  ∃ parts,r=.ok parts ∧ join sep parts=s ∧ (0 ≤ n.toInt → (parts.length : Int) ≤ n.toInt+1) ∧
    Rightmost sep (limit n) s parts

theorem toIndex_max : toIndex (Int64.maxValue+1)=
    .error (.interpreter (.runtime "index overflow or negative")) := by decide

theorem toIndex_succ (hn : ¬n<0) (hmax : n≠Int64.maxValue) :
    toIndex (n+1)=.ok (n.toInt.toNat+1) := by
  have hlt := n.toInt_lt
  have hne : n.toInt≠2^63-1 := fun h => hmax (Int64.toInt_inj.mp h)
  rw [negative_iff] at hn
  have hsum : (n+1).toInt=n.toInt+1 := by
    rw [Int64.toInt_add]
    have hone : (1 : Int64).toInt=1 := rfl
    rw [hone,Int.bmod_eq_of_le] <;> omega
  rw [toIndex,if_neg (by rw [negative_iff]; omega),hsum]
  congr 1
  omega

theorem split_limited (hsep : sep.toList≠[]) (hn : ¬n<0) (hmax : n≠Int64.maxValue) :
    split s (some (.string sep)) n=.ok (splits sep.toList n.toInt.toNat s) ∧
      rsplit s (some (.string sep)) n=.ok (rsplits sep.toList n.toInt.toNat s).reverse := by
  constructor
  · simp only [split,hsep,hn,if_false,toIndex_succ hn hmax,splitn]
  · simp only [rsplit,hsep,hn,if_false,toIndex_succ hn hmax,rsplitn]

theorem split_unlimited (hsep : sep.toList≠[]) (hn : n<0) :
    split s (some (.string sep)) n=.ok (splitAll sep.toList s) ∧
      rsplit s (some (.string sep)) n=.ok (splitAll sep.toList s) := by
  constructor
  · simp only [split,hsep,hn,if_false,if_true]
  · simp only [rsplit,hsep,hn,if_false,if_true]

theorem split_max (hsep : sep.toList≠[]) :
    (∀ parts,split s (some (.string sep)) Int64.maxValue≠.ok parts) ∧
      ∀ parts,rsplit s (some (.string sep)) Int64.maxValue≠.ok parts := by
  have hn : ¬Int64.maxValue<0 := by decide
  simp only [split,rsplit,hsep,hn,if_false,toIndex_max]
  simp

theorem splitAll_leftmost (hsep : sep.toList≠[]) :
    Leftmost sep.toList none s (splitAll sep.toList s) :=
  (splits_leftmost sep.toList s.length s).unlimited sep.toList hsep (Nat.le_refl _)

theorem split_iff (hsep : sep.toList≠[]) :
    LeftParts sep.toList s n (split s (some (.string sep)) n) ↔ n≠Int64.maxValue := by
  constructor
  · rintro ⟨parts,hok,-⟩ rfl
    exact (split_max hsep).1 parts hok
  · intro hmax
    by_cases hn : n<0
    · have hleft := splitAll_leftmost (s := s) hsep
      refine ⟨_,(split_unlimited hsep hn).1,hleft.join,fun h0 => ?_,?_⟩
      · rw [negative_iff] at hn
        omega
      · rw [limit,if_pos hn]
        exact hleft
    · have hleft := splits_leftmost sep.toList n.toInt.toNat s
      have hlen := hleft.length_le
      refine ⟨_,(split_limited hsep hn hmax).1,hleft.join,fun h0 => by omega,?_⟩
      rw [limit,if_neg hn]
      exact hleft

/-- Without a limit the right parts are those between the first separators. -/
theorem rsplit_iff (hsep : sep.toList≠[]) :
    RightParts sep.toList s n (rsplit s (some (.string sep)) n) ↔ n≠Int64.maxValue ∧
      (n<0 → ∃ parts,Leftmost sep.toList none s parts ∧ Rightmost sep.toList none s parts) := by
  have hleft := splitAll_leftmost (s := s) hsep
  constructor
  · rintro ⟨parts,hok,-,-,hright⟩
    refine ⟨?_,fun hn => ⟨parts,?_,?_⟩⟩
    · rintro rfl
      exact (split_max hsep).2 parts hok
    · rw [(split_unlimited hsep hn).2] at hok
      cases hok
      exact hleft
    · rw [limit,if_pos hn] at hright
      exact hright
  · rintro ⟨hmax,hboth⟩
    by_cases hn : n<0
    · obtain ⟨parts,hfirst,hright⟩ := hboth hn
      have hparts := hleft.unique hfirst
      refine ⟨_,(split_unlimited hsep hn).2,hleft.join,fun h0 => ?_,?_⟩
      · rw [negative_iff] at hn
        omega
      · rw [limit,if_pos hn,hparts]
        exact hright
    · have hright := rsplits_rightmost sep.toList n.toInt.toNat s
      have hlen := hright.length_le
      refine ⟨_,(split_limited hsep hn hmax).2,hright.join,fun h0 => by omega,?_⟩
      rw [limit,if_neg hn]
      exact hright

end Separators

section Lines

/-- The end of a line before `rest`. -/
def EndOfLine (eol rest : List Char) : Prop :=
  eol=['\r','\n'] ∨ ∃ c,eol=[c] ∧ isBreak c=true ∧ ¬(c= '\r' ∧ rest.head?=some '\n')

/-- A text as its lines: each ends in one boundary, but the last may have none. -/
inductive Lined : List (List Char) → List Char → Prop where
  | nil : Lined [] []
  | last {line : List Char} (hne : line≠[]) (hline : ∀ c ∈ line,isBreak c=false) : Lined [line] line
  | line {body eol rest : List Char} {parts : List (List Char)}
      (hbody : ∀ c ∈ body,isBreak c=false) (heol : EndOfLine eol rest) (hrest : Lined parts rest) :
      Lined ((body++eol)::parts) (body++eol++rest)

theorem Lined.flatten {parts : List (List Char)} {s : List Char} (h : Lined parts s) :
    parts.flatten=s := by
  induction h with
  | nil => rfl
  | last => simp
  | line _ _ _ ih => rw [List.flatten_cons,ih]

theorem splitLinesFrom_lined (chars line : List Char) (hline : ∀ c ∈ line,isBreak c=false) :
    Lined (splitLinesFrom true chars line) (line++chars) := by
  induction chars,line using splitLinesFrom.induct with
  | case1 =>
    rw [splitLinesFrom,if_pos rfl]
    exact .nil
  | case2 line hne =>
    rw [splitLinesFrom,if_neg hne,List.append_nil]
    exact .last hne hline
  | case3 c chars line hbreak hpair ih =>
    obtain ⟨rfl,hnext⟩ := hpair
    cases chars with
    | nil => cases hnext
    | cons d chars =>
      cases Option.some.inj hnext
      have hrest := ih (by simp)
      rw [splitLinesFrom,if_pos hbreak,if_pos ⟨rfl,hnext⟩]
      have hwhole : line++ '\r':: '\n'::chars=line++['\r','\n']++chars := by simp
      rw [hwhole]
      exact .line hline (.inl rfl) hrest
  | case4 c chars line hbreak hpair ih =>
    have hrest := ih (by simp)
    rw [splitLinesFrom,if_pos hbreak,if_neg hpair]
    have hwhole : line++c::chars=line++[c]++chars := by simp
    rw [hwhole]
    exact .line hline (.inr ⟨c,rfl,hbreak,hpair⟩) hrest
  | case5 c chars line hbreak ih =>
    rw [splitLinesFrom,if_neg hbreak]
    have hwhole : line++c::chars=line++[c]++chars := by simp
    rw [hwhole]
    refine ih fun d hd => ?_
    obtain hd | hd := List.mem_append.mp hd
    · exact hline d hd
    · rw [List.mem_singleton.mp hd]
      simpa using hbreak

end Lines

section Laws

/-- Splitting and joining, for every text, separator and limit. -/
theorem splits_exact (s : List Char) (n : Int64) :
    (∀ sep : String,sep.toList≠[] →
      (LeftParts sep.toList s n (split s (some (.string sep)) n) ↔ n≠Int64.maxValue) ∧
      (RightParts sep.toList s n (rsplit s (some (.string sep)) n) ↔ n≠Int64.maxValue ∧
        (n<0 → ∃ parts,
          Leftmost sep.toList none s parts ∧ Rightmost sep.toList none s parts))) ∧
    (split s none n=.ok (pythonSplit s n.toInt) ↔ SplitPlain s n) ∧
    (rsplit s none n=.ok (pythonRsplit s n.toInt) ↔ RsplitPlain s n) ∧
    (n<0 → split s none n=rsplit s none n) ∧
    Lined (splitLines s true) s ∧ (splitLines s true).flatten=s := by
  have hlines : Lined (splitLines s true) s := splitLinesFrom_lined s [] (by simp)
  refine ⟨fun sep hsep => ⟨split_iff hsep,rsplit_iff hsep⟩,?_,?_,fun hn => ?_,hlines,hlines.flatten⟩
  · rw [split,Except.ok.injEq]
    exact splitWhitespaceMax_iff n
  · rw [rsplit,Except.ok.injEq]
    exact rsplitWhitespaceMax_iff n
  · rw [split,rsplit,splitWhitespaceMax_unlimited hn,rsplitWhitespaceMax_unlimited hn]

theorem splits_exact_comma :
    LeftParts ",".toList "a,b,c".toList 1 (split "a,b,c".toList (some (.string ",")) 1) :=
  ((splits_exact "a,b,c".toList 1).1 "," (by decide)).1.mpr (by decide)

/-- Without a limit `rsplit` cuts at the first separators, and with limit zero `split` keeps the
blanks before the text. -/
theorem splits_differ :
    ¬RightParts "aa".toList "aaa".toList (-1) (rsplit "aaa".toList (some (.string "aa")) (-1)) ∧
      split " a".toList none 0≠.ok (pythonSplit " a".toList 0) := by
  constructor
  · rintro ⟨parts,hok,-,-,hright⟩
    have hparts : parts=[[],['a']] := by
      have hcode : rsplit "aaa".toList (some (.string "aa")) (-1)=.ok [[],['a']] := by decide
      rw [hcode] at hok
      exact (Except.ok.inj hok).symm
    rw [hparts] at hright
    generalize hs : "aaa".toList=s at hright
    generalize hps : [[],['a']]=ps at hright
    cases hright with
    | whole => cases hps
    | @cut _ a b parts _ hlast _ =>
      have hat : At "aa".toList (a++"aa".toList++b) 1 := by
        rw [← hs]
        decide
      have hb : b=['a'] := by
        have hlast := congrArg List.getLast? hps
        simpa using hlast.symm
      have hlen := congrArg List.length hs
      rw [hb] at hlen
      simp only [List.length_append] at hlen
      refine hlast 1 ?_ hat
      have hshort : "aa".toList.length=2 := rfl
      have hlong : "aaa".toList.length=3 := rfl
      have hone : ['a'].length=1 := rfl
      omega
  · decide

end Laws

end InterpretThis.Text
