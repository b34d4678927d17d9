import InterpretThis.Framework.Refinement
import InterpretThis.Value.Data
import Mathlib.Data.List.TakeWhile
import Mathlib.Tactic.Common

namespace InterpretThis.Text

/-- A stream: its characters and the place of its cursor. -/
structure StringIo where
  buf : List Char
  pos : Nat
deriving DecidableEq

inductive Reply where
  | none
  | size (n : Int)
  | text (s : List Char)
  | lines (ls : List (List Char))
deriving DecidableEq

/-- An operation on a stream with its arguments; `print` writes to the stream as a file, or where
the standard output is redirected to it. -/
inductive StreamOp where
  | write (s : String)
  | print (redirected : Bool) (s : String)
  | writelines (items : List Value)
  | getvalue
  | read (size : Option Value)
  | readline (size : Option Value)
  | readlines
  | seek (target : Value) (whence : Option Value)
  | tell
  | truncate (size : Option Value)

section Source

/-- A size that is not negative. -/
def optSize : Option Value → Option Nat
  | some (.int n) => if 0≤n then some n.toInt.toNat else none
  | _ => none

/-- The loop that overwrites from a place on and then extends. -/
def overwrite : Nat → List Char → List Char → List Char
  | _,[],chars => chars
  | place,c::incoming,chars =>
    overwrite (place+1) incoming (if place<chars.length then chars.set place c else chars++[c])

def writeString (g : StringIo) (s : List Char) : Nat×StringIo :=
  let start := min g.pos g.buf.length
  (s.length,⟨overwrite start s g.buf,start+s.length⟩)

/-- `append_print` under a redirection to the stream. -/
def appendPrint (g : StringIo) (text : List Char) : StringIo :=
  let insertAt := min g.pos g.buf.length
  if g.buf.length ≤ insertAt then ⟨g.buf++text,insertAt+text.length⟩
  else ⟨overwrite insertAt text g.buf,insertAt+text.length⟩

def writelinesError : EvalError :=
  .interpreter (.typeError "writelines() argument must be an iterable of str")

/-- The loop of `writelines`: the characters are stored when it ends, the cursor at once. -/
def writelinesLoop (buf : List Char) :
    List Value → List Char → Nat → Except EvalError Reply×StringIo
  | [],chars,pos => (.ok .none,⟨chars,pos⟩)
  | .string s::items,chars,pos =>
    writelinesLoop buf items (overwrite pos s.toList chars) (pos+s.toList.length)
  | _::_,_,pos => (.error writelinesError,⟨buf,pos⟩)

/-- The end of the line that begins at a place, `rest` being what stands there. -/
def scanLine : List Char → Nat → Nat
  | [],stop => stop
  | c::rest,stop => if c= '\n' then stop+1 else scanLine rest (stop+1)

def sliceChars (chars : List Char) (start stop : Nat) : List Char := (chars.take stop).drop start

/-- The loop of `readlines`. -/
def readlinesFrom (chars : List Char) (i lineStart : Nat) : List (List Char) :=
  if h : i<chars.length then
    if chars.get ⟨i,h⟩= '\n' then
      sliceChars chars lineStart (i+1)::readlinesFrom chars (i+1) (i+1)
    else readlinesFrom chars (i+1) lineStart
  else if lineStart<chars.length then [chars.drop lineStart] else []
termination_by chars.length-i

def dispatch (g : StringIo) : StreamOp → Except EvalError Reply×StringIo
  | .write s =>
    let r := writeString g s.toList
    (.ok (.size r.1),r.2)
  | .print false s => (.ok .none,(writeString g s.toList).2)
  | .print true s => (.ok .none,appendPrint g s.toList)
  | .writelines items => writelinesLoop g.buf items g.buf g.pos
  | .getvalue => (.ok (.text g.buf),g)
  | .read size =>
    let start := min g.pos g.buf.length
    let stop := ((optSize size).map fun n => min (start+n) g.buf.length).getD g.buf.length
    (.ok (.text (sliceChars g.buf start stop)),{ g with pos := stop })
  | .readline size =>
    let start := min g.pos g.buf.length
    let lineEnd := scanLine (g.buf.drop start) start
    let stop := ((optSize size).map fun n => min lineEnd (start+n)).getD lineEnd
    (.ok (.text (sliceChars g.buf start stop)),{ g with pos := stop })
  | .readlines =>
    let start := min g.pos g.buf.length
    (.ok (.lines (readlinesFrom g.buf start start)),{ g with pos := g.buf.length })
  | .seek target _ =>
    match target with
    | .int n =>
      if 0≤n then (.ok (.size n.toInt),{ g with pos := n.toInt.toNat })
      else (.error (.interpreter (.valueError "negative seek position")),g)
    | _ => (.error (.interpreter (.valueError "negative seek position")),g)
  | .tell => (.ok (.size g.pos),g)
  | .truncate size =>
    let n := min ((optSize size).getD g.pos) g.buf.length
    (.ok (.size n),{ g with buf := g.buf.take n })

end Source

section Abstract

/-- An integer argument. -/
def integerOf : Value → Option Int
  | .int n => some n.toInt
  | .bool b => some (if b then 1 else 0)
  | .bigInt n => some n
  | _ => none

/-- The text with another one written over it from a place on, padded with NUL up to there. -/
def written (buf : List Char) (place : Nat) (s : List Char) : List Char :=
  if s=[] then buf
  else
    let padded := buf++List.replicate (place-buf.length) (Char.ofNat 0)
    padded.take place++s++padded.drop (place+s.length)

def put (g : StringIo) (s : List Char) : StringIo := ⟨written g.buf g.pos s,g.pos+s.length⟩

/-- The line at the cursor, with its end. -/
def lineAt (g : StringIo) : List Char :=
  let rest := g.buf.drop g.pos
  rest.takeWhile (· ≠ '\n')++(rest.dropWhile (· ≠ '\n')).take 1

/-- What is left of a text within an optional size that may be negative. -/
def sized (size : Option Int) (s : List Char) : List Char :=
  match size with
  | none => s
  | some n => if n<0 then s else s.take n.toNat

/-- The lines up to the end, each read at the cursor. -/
def linesOf (g : StringIo) : Nat → List (List Char)
  | 0 => []
  | fuel+1 =>
    if lineAt g=[] then []
    else lineAt g::linesOf { g with pos := g.pos+(lineAt g).length } fuel

/-- The items of `writelines` are written one after another. -/
def putAll (g : StringIo) : List Value → Except String Reply×StringIo
  | [] => (.ok .none,g)
  | .string s::items => putAll (put g s.toList) items
  | _::_ => (.error "TypeError",g)

/-- The arguments of a size: absent and `None` give no bound. -/
def sizeOf? : Option Value → Option (Option Int)
  | none | some .none => some none
  | some v => (integerOf v).map some

/-- A text buffer with a cursor; an error is the name of its exception. -/
def model (g : StringIo) : StreamOp → Except String Reply×StringIo
  | .write s => (.ok (.size s.toList.length),put g s.toList)
  | .print _ s => (.ok .none,put g s.toList)
  | .writelines items => putAll g items
  | .getvalue => (.ok (.text g.buf),g)
  | .read size =>
    match sizeOf? size with
    | none => (.error "TypeError",g)
    | some n =>
      let s := sized n (g.buf.drop g.pos)
      (.ok (.text s),{ g with pos := g.pos+s.length })
  | .readline size =>
    match sizeOf? size with
    | none => (.error "TypeError",g)
    | some n =>
      let s := sized n (lineAt g)
      (.ok (.text s),{ g with pos := g.pos+s.length })
  | .readlines =>
    let ls := linesOf g g.buf.length
    (.ok (.lines ls),{ g with pos := g.pos+ls.flatten.length })
  | .seek target whence =>
    match integerOf target,(whence.map integerOf).getD (some 0) with
    | some n,some 0 =>
      if n<0 then (.error "ValueError",g) else (.ok (.size n),{ g with pos := n.toNat })
    | some 0,some 1 => (.ok (.size g.pos),g)
    | some 0,some 2 => (.ok (.size g.buf.length),{ g with pos := g.buf.length })
    | some _,some w => (.error (if w=1 ∨ w=2 then "OSError" else "ValueError"),g)
    | _,_ => (.error "TypeError",g)
  | .tell => (.ok (.size g.pos),g)
  | .truncate size =>
    match sizeOf? size with
    | none => (.error "TypeError",g)
    | some n =>
      let n := n.getD g.pos
      if n<0 then (.error "ValueError",g)
      else (.ok (.size n),{ g with buf := g.buf.take n.toNat })

def errorType : EvalError → String
  | .interpreter (.typeError _) => "TypeError"
  | .interpreter (.valueError _) => "ValueError"
  | .interpreter _ => "RuntimeError"
  | .exception name _ => name

def seen (r : Except EvalError Reply×StringIo) : Except String Reply×StringIo :=
  (r.1.mapError errorType,r.2)

/-- A size that the code reads as it is meant: a big one is beyond the end. -/
def PlainSize (len : Nat) : Option Value → Prop
  | none | some .none | some (.int _) => True
  | some (.bigInt n) => n<0 ∨ len ≤ n
  | _ => False

/-- The strings before the first item that is none. -/
def leading : List Value → List String
  | .string s::items => s::leading items
  | _ => []

/-- The operations that the code gets right: those that move the cursor find it in the buffer. -/
def Handled (g : StringIo) : StreamOp → Prop
  | .write _ | .print _ _ | .readlines => g.pos ≤ g.buf.length
  | .writelines items => g.pos ≤ g.buf.length ∧ (leading items).length=items.length ∨
      ∀ s ∈ leading items,s.toList=[]
  | .getvalue | .tell => True
  | .read size | .readline size => g.pos ≤ g.buf.length ∧ PlainSize g.buf.length size
  | .seek target whence => (match target with
      | .int _ => True
      | .bigInt n => n<0
      | _ => False) ∧ (whence.map integerOf).getD (some 0)=some 0
  | .truncate size => match size with
      | none | some .none => g.pos ≤ g.buf.length
      | some (.int n) => 0 ≤ n.toInt ∧ n.toInt ≤ g.buf.length
      | _ => False

end Abstract

section Writing

variable {buf chars s : List Char} {place : Nat}

theorem overwrite_eq (h : place ≤ chars.length) :
    overwrite place s chars=chars.take place++s++chars.drop (place+s.length) := by
  induction s generalizing place chars with
  | nil => simp [overwrite]
  | cons c s ih =>
    rw [overwrite]
    by_cases hlt : place<chars.length
    · rw [if_pos hlt,ih (by rw [List.length_set]; omega),List.take_set,
        List.drop_set_of_lt (by omega),List.take_succ_eq_append_getElem hlt,
        List.set_append_right _ _ (by rw [List.length_take_of_le h])]
      rw [List.length_take_of_le h,Nat.sub_self,List.set_cons_zero,List.length_cons]
      have hsum : place+1+s.length=place+(s.length+1) := by omega
      rw [hsum]
      simp
    · have heq : place=chars.length := by omega
      rw [if_neg hlt,ih (by rw [List.length_append,heq]; exact Nat.le_refl _)]
      have hlen : (chars++[c]).length=place+1 := by rw [List.length_append,heq]; rfl
      rw [List.take_of_length_le (by omega),List.drop_of_length_le (by omega),
        List.take_of_length_le (by omega),List.drop_of_length_le (by omega)]
      simp

theorem written_eq (h : place ≤ buf.length) :
    written buf place s=buf.take place++s++buf.drop (place+s.length) := by
  rw [written]
  by_cases hs : s=[]
  · rw [if_pos hs,hs]
    simp
  · rw [if_neg hs,Nat.sub_eq_zero_of_le h,List.replicate_zero]
    simp

theorem overwrite_written (h : place ≤ buf.length) :
    overwrite place s buf=written buf place s := by
  rw [overwrite_eq h,written_eq h]

theorem length_written (h : place ≤ buf.length) :
    place+s.length ≤ (written buf place s).length := by
  rw [written_eq h]
  simp only [List.length_append,List.length_take,List.length_drop]
  omega

variable {g : StringIo}

theorem writeString_put (h : g.pos ≤ g.buf.length) :
    writeString g s=(s.length,put g s) := by
  rw [writeString,put,Nat.min_eq_left h,overwrite_written h]

theorem appendPrint_put (h : g.pos ≤ g.buf.length) : appendPrint g s=put g s := by
  rw [appendPrint,Nat.min_eq_left h,put]
  by_cases hend : g.buf.length ≤ g.pos
  · have heq : g.pos=g.buf.length := by omega
    simp only [hend,if_true]
    rw [written_eq h,heq]
    simp
  · simp only [hend,if_false]
    rw [overwrite_written h]

theorem writelinesLoop_all (items : List Value) (h : place ≤ chars.length)
    (hall : (leading items).length=items.length) :
    seen (writelinesLoop buf items chars place)=putAll ⟨chars,place⟩ items := by
  induction items generalizing chars place with
  | nil => rfl
  | cons v items ih =>
    cases v with
    | string s =>
      rw [writelinesLoop,putAll,put,overwrite_written h]
      refine ih (length_written h) ?_
      simpa [leading] using hall
    | _ => cases hall

theorem writelinesLoop_empty (items : List Value) (hall : ∀ s ∈ leading items,s.toList=[]) :
    seen (writelinesLoop buf items buf place)=putAll ⟨buf,place⟩ items := by
  induction items with
  | nil => rfl
  | cons v items ih =>
    cases v with
    | string s =>
      have hs : s.toList=[] := hall s (List.mem_cons_self ..)
      rw [writelinesLoop,putAll,put,hs]
      exact ih fun t ht => hall t (List.mem_cons_of_mem _ ht)
    | _ => rfl

end Writing

section Reading

variable {g : StringIo} {rest mid : List Char}

theorem scanLine_eq (rest : List Char) (stop : Nat) :
    scanLine rest stop=
      stop+(rest.takeWhile (· ≠ '\n')++(rest.dropWhile (· ≠ '\n')).take 1).length := by
  induction rest generalizing stop with
  | nil => rfl
  | cons c rest ih =>
    rw [scanLine]
    by_cases hc : c= '\n'
    · simp [hc]
    · rw [if_neg hc,ih,List.takeWhile_cons_of_pos (by simpa using hc),
        List.dropWhile_cons_of_pos (by simpa using hc)]
      simp only [List.cons_append,List.length_cons]
      omega

theorem lineAt_isPrefix (g : StringIo) : lineAt g <+: g.buf.drop g.pos := by
  have hsplit := List.takeWhile_append_dropWhile (p := (· ≠ '\n')) (l := g.buf.drop g.pos)
  refine ⟨((g.buf.drop g.pos).dropWhile (· ≠ '\n')).drop 1,?_⟩
  rw [lineAt]
  simp only [List.append_assoc,List.take_append_drop]
  exact hsplit

theorem sliceChars_take (n : Nat) : sliceChars g.buf g.pos (g.pos+n)=(g.buf.drop g.pos).take n := by
  rw [sliceChars,List.drop_take]
  congr 1
  omega

theorem lineAt_word (hmid : ∀ c ∈ mid,c≠ '\n') (h : g.buf.drop g.pos=mid++ '\n'::rest) :
    lineAt g=mid++['\n'] := by
  have hpos : ∀ c ∈ mid,decide (c≠ '\n')=true := fun c hc => by simpa using hmid c hc
  rw [lineAt,h]
  simp only [List.takeWhile_append_of_pos hpos,List.dropWhile_append_of_pos hpos]
  simp

theorem lineAt_last (hmid : ∀ c ∈ g.buf.drop g.pos,c≠ '\n') : lineAt g=g.buf.drop g.pos := by
  have hpos : ∀ c ∈ g.buf.drop g.pos,decide (c≠ '\n')=true := fun c hc => by simpa using hmid c hc
  rw [lineAt]
  simp only [List.takeWhile_eq_self_iff.mpr hpos,List.dropWhile_eq_nil_iff.mpr hpos]
  simp

theorem linesOf_end {chars : List Char} {place : Nat} (h : chars.length ≤ place) (fuel : Nat) :
    linesOf ⟨chars,place⟩ fuel=[] := by
  cases fuel with
  | zero => rfl
  | succ fuel =>
    have hnil : lineAt ⟨chars,place⟩=[] := by
      rw [lineAt,List.drop_of_length_le h]
      rfl
    rw [linesOf,if_pos hnil]

/-- The loop finds the lines that reading one after another does; `mid` is what it has seen of the
line so far. -/
theorem readlinesFrom_lines (chars : List Char) (i lineStart fuel : Nat) (hle : lineStart ≤ i)
    (hi : i ≤ chars.length) (hfuel : chars.length-lineStart ≤ fuel)
    (hmid : ∀ c ∈ sliceChars chars lineStart i,c≠ '\n') :
    readlinesFrom chars i lineStart=linesOf ⟨chars,lineStart⟩ fuel := by
  induction i,lineStart using readlinesFrom.induct chars generalizing fuel with
  | case1 i lineStart hlt hc ih =>
    have hsplit : chars.drop lineStart=sliceChars chars lineStart i++ '\n'::chars.drop (i+1) := by
      have hat : chars[i]= '\n' := hc
      rw [sliceChars,← hat,← List.drop_eq_getElem_cons hlt]
      have hjoin := List.take_append_drop (i-lineStart) (chars.drop lineStart)
      rw [List.drop_drop,Nat.add_sub_cancel' hle] at hjoin
      rw [List.drop_take,hjoin]
    have hline := lineAt_word (g := ⟨chars,lineStart⟩) hmid hsplit
    have hnext : sliceChars chars lineStart (i+1)=sliceChars chars lineStart i++['\n'] := by
      have hat : chars[i]= '\n' := hc
      rw [sliceChars,sliceChars,List.take_succ_eq_append_getElem hlt,hat,List.drop_append_of_le_length]
      rw [List.length_take_of_le hi]
      exact hle
    have hlen : (sliceChars chars lineStart i++['\n']).length=i+1-lineStart := by
      simp only [sliceChars,List.length_append,List.length_drop,List.length_take,List.length_singleton]
      omega
    obtain ⟨fuel,rfl⟩ : ∃ n,fuel=n+1 := ⟨fuel-1,by omega⟩
    have hsum : lineStart+(sliceChars chars lineStart i++['\n']).length=i+1 := by omega
    rw [readlinesFrom,dif_pos hlt,if_pos hc,hnext,linesOf,hline,if_neg (by simp)]
    simp only [hsum]
    rw [ih fuel (Nat.le_refl _) hlt (by omega) (by simp [sliceChars])]
  | case2 i lineStart hlt hc ih =>
    rw [readlinesFrom,dif_pos hlt,if_neg hc]
    refine ih fuel (by omega) hlt hfuel fun c hin => ?_
    rw [sliceChars,List.take_succ_eq_append_getElem hlt,List.drop_append_of_le_length
      (by rw [List.length_take_of_le hi]; exact hle)] at hin
    obtain hin | hin := List.mem_append.mp hin
    · exact hmid c hin
    · rw [List.mem_singleton.mp hin]
      exact hc
  | case3 i lineStart hlt hlast =>
    have hend : i=chars.length := by omega
    subst hend
    rw [sliceChars,List.take_length] at hmid
    have hline := lineAt_last (g := ⟨chars,lineStart⟩) hmid
    obtain ⟨fuel,rfl⟩ : ∃ n,fuel=n+1 := ⟨fuel-1,by omega⟩
    rw [readlinesFrom,dif_neg hlt,if_pos hlast,linesOf,hline,
      if_neg (by simp; omega),linesOf_end (by simp; omega)]
  | case4 i lineStart hlt hlast =>
    rw [readlinesFrom,dif_neg hlt,if_neg hlast,linesOf_end (by omega)]

theorem flatten_linesOf (chars : List Char) (fuel place : Nat) (hle : place ≤ chars.length)
    (hfuel : chars.length-place ≤ fuel) :
    place+(linesOf ⟨chars,place⟩ fuel).flatten.length=chars.length := by
  induction fuel generalizing place with
  | zero =>
    rw [linesOf]
    show place+0=chars.length
    omega
  | succ fuel ih =>
    have hpre : (lineAt ⟨chars,place⟩).length ≤ chars.length-place := by
      have hlen := (lineAt_isPrefix ⟨chars,place⟩).length_le
      rw [List.length_drop] at hlen
      exact hlen
    rw [linesOf]
    by_cases hnil : lineAt ⟨chars,place⟩=[]
    · have hsplit := List.takeWhile_append_dropWhile (p := (· ≠ '\n')) (l := chars.drop place)
      have hparts := hnil
      rw [lineAt] at hparts
      obtain ⟨hbefore,hafter⟩ := List.append_eq_nil_iff.mp hparts
      rw [List.take_eq_nil_iff] at hafter
      have hempty : chars.drop place=[] := by
        rw [← hsplit,hbefore]
        cases hafter with
        | inl h => cases h
        | inr h => rw [h]; rfl
      have hlen := congrArg List.length hempty
      rw [List.length_drop] at hlen
      rw [if_pos hnil]
      show place+0=chars.length
      simp only [List.length_nil] at hlen
      omega
    · have hpos := List.length_pos_iff.mpr hnil
      have hrest := ih (place+(lineAt ⟨chars,place⟩).length) (by omega) (by omega)
      rw [if_neg hnil,List.flatten_cons,List.length_append,← Nat.add_assoc]
      exact hrest

theorem sized_some {len : Nat} {size : Option Value} (h : PlainSize len size) :
    ∃ n,sizeOf? size=some n ∧ ∀ s : List Char,s.length ≤ len →
      sized n s=s.take ((optSize size).getD s.length) := by
  match size,h with
  | none,_ => exact ⟨none,rfl,fun s _ => by simp [sized,optSize]⟩
  | some .none,_ => exact ⟨none,rfl,fun s _ => by simp [sized,optSize]⟩
  | some (.int n),_ =>
    refine ⟨some n.toInt,rfl,fun s _ => ?_⟩
    rw [sized,optSize]
    by_cases hn : 0 ≤ n
    · have hn' : 0 ≤ n.toInt := Int64.le_iff_toInt_le.mp hn
      rw [if_neg (by omega),if_pos hn]
      rfl
    · have hn' : ¬0 ≤ n.toInt := fun h0 => hn (Int64.le_iff_toInt_le.mpr h0)
      rw [if_pos (by omega),if_neg hn]
      simp
  | some (.bigInt n),h =>
    refine ⟨some n,rfl,fun s hs => ?_⟩
    have hall : s.take ((optSize (some (.bigInt n))).getD s.length)=s := by simp [optSize]
    rw [hall,sized]
    cases h with
    | inl hneg => rw [if_pos hneg]
    | inr hbig => rw [if_neg (by omega),List.take_of_length_le (by omega)]

theorem read_exact {size : Option Value} (hpos : g.pos ≤ g.buf.length)
    (hsize : PlainSize g.buf.length size) :
    seen (dispatch g (.read size))=model g (.read size) := by
  obtain ⟨n,hn,hsized⟩ := sized_some hsize
  have hdrop : (g.buf.drop g.pos).length=g.buf.length-g.pos := List.length_drop ..
  have hstop : ((optSize size).map fun n => min (g.pos+n) g.buf.length).getD g.buf.length=
      g.pos+min ((optSize size).getD (g.buf.drop g.pos).length) (g.buf.drop g.pos).length := by
    rw [hdrop]
    cases optSize size <;> simp only [Option.map_some,Option.map_none,Option.getD_some,
      Option.getD_none] <;> omega
  have hs := hsized (g.buf.drop g.pos) (by omega)
  have htake : (g.buf.drop g.pos).take (min ((optSize size).getD (g.buf.drop g.pos).length)
      (g.buf.drop g.pos).length)=
      (g.buf.drop g.pos).take ((optSize size).getD (g.buf.drop g.pos).length) :=
    List.take_eq_take_iff.mpr (by omega)
  rw [dispatch,model,hn]
  simp only [Nat.min_eq_left hpos,hstop,sliceChars_take,htake,hs,seen,List.length_take]
  rfl

theorem readline_exact {size : Option Value} (hpos : g.pos ≤ g.buf.length)
    (hsize : PlainSize g.buf.length size) :
    seen (dispatch g (.readline size))=model g (.readline size) := by
  obtain ⟨n,hn,hsized⟩ := sized_some hsize
  have hpre := lineAt_isPrefix g
  have hlen := hpre.length_le
  rw [List.length_drop] at hlen
  have hscan : scanLine (g.buf.drop g.pos) g.pos=g.pos+(lineAt g).length := scanLine_eq _ _
  have hstop : ((optSize size).map fun n => min (g.pos+(lineAt g).length) (g.pos+n)).getD
      (g.pos+(lineAt g).length)=
      g.pos+min ((optSize size).getD (lineAt g).length) (lineAt g).length := by
    cases optSize size <;> simp only [Option.map_some,Option.map_none,Option.getD_some,
      Option.getD_none] <;> omega
  have htake : (g.buf.drop g.pos).take (min ((optSize size).getD (lineAt g).length)
      (lineAt g).length)=(lineAt g).take ((optSize size).getD (lineAt g).length) := by
    obtain ⟨after,hafter⟩ := hpre
    rw [← hafter,List.take_append_of_le_length (by omega)]
    exact List.take_eq_take_iff.mpr (by omega)
  have hs := hsized (lineAt g) (by omega)
  rw [dispatch,model,hn]
  simp only [Nat.min_eq_left hpos,hscan,hstop,sliceChars_take,htake,hs,seen,List.length_take]
  rfl

theorem readlines_exact (hpos : g.pos ≤ g.buf.length) :
    seen (dispatch g .readlines)=model g .readlines := by
  have hlines := readlinesFrom_lines g.buf g.pos g.pos g.buf.length (Nat.le_refl _) hpos
    (by omega) (by simp [sliceChars])
  have hend := flatten_linesOf g.buf g.buf.length g.pos hpos (by omega)
  rw [dispatch,model]
  simp only [Nat.min_eq_left hpos,hlines,seen]
  have hpair : (⟨g.buf,g.pos⟩ : StringIo)=g := rfl
  rw [hpair] at hend ⊢
  rw [hend]
  rfl

end Reading

section Running

/-- A step of a stream with the replies so far. -/
def codeStep (st : StringIo×List (Except String Reply)) (o : StreamOp) :
    StringIo×List (Except String Reply) :=
  let r := seen (dispatch st.1 o)
  (r.2,st.2++[r.1])

def modelStep (st : StringIo×List (Except String Reply)) (o : StreamOp) :
    StringIo×List (Except String Reply) :=
  let r := model st.1 o
  (r.2,st.2++[r.1])

theorem seek_exact {g : StringIo} {target : Value} {whence : Option Value}
    (h : Handled g (.seek target whence)) :
    seen (dispatch g (.seek target whence))=model g (.seek target whence) := by
  obtain ⟨htarget,hwhence⟩ := h
  match target,htarget with
  | .int n,_ =>
    rw [dispatch,model,hwhence]
    simp only [integerOf]
    by_cases hn : 0 ≤ n
    · have hn' : 0 ≤ n.toInt := Int64.le_iff_toInt_le.mp hn
      rw [if_pos hn,if_neg (by omega)]
      rfl
    · have hn' : ¬0 ≤ n.toInt := fun h0 => hn (Int64.le_iff_toInt_le.mpr h0)
      rw [if_neg hn,if_pos (by omega)]
      rfl
  | .bigInt n,hneg =>
    have hneg : n<0 := hneg
    rw [model,hwhence]
    simp only [dispatch,integerOf]
    rw [if_pos hneg]
    rfl

theorem truncate_exact {g : StringIo} {size : Option Value} (h : Handled g (.truncate size)) :
    seen (dispatch g (.truncate size))=model g (.truncate size) := by
  have hcut : ∀ n : Nat,n ≤ g.buf.length → min n g.buf.length=n := fun n hn => Nat.min_eq_left hn
  match size,h with
  | none,h =>
    rw [dispatch,model]
    simp only [optSize,sizeOf?,Option.getD_none,hcut g.pos h]
    rw [if_neg (by omega)]
    rfl
  | some .none,h =>
    rw [dispatch,model]
    simp only [optSize,sizeOf?,Option.getD_none,hcut g.pos h]
    rw [if_neg (by omega)]
    rfl
  | some (.int n),h =>
    have hn : 0 ≤ n := Int64.le_iff_toInt_le.mpr h.1
    have hlen : n.toInt.toNat ≤ g.buf.length := by
      have hle := h.2
      omega
    have hsize : ((n.toInt.toNat : Nat) : Int)=n.toInt := Int.toNat_of_nonneg h.1
    have hnot : ¬n.toInt<0 := by
      have hle := h.1
      omega
    rw [dispatch,model]
    simp only [optSize,sizeOf?,integerOf,Option.map_some,Option.getD_some,hn,if_true,hcut _ hlen,
      hnot,if_false,hsize]
    rfl

theorem step_exact {g : StringIo} {o : StreamOp} (h : Handled g o) :
    seen (dispatch g o)=model g o := by
  cases o with
  | write s =>
    rw [dispatch,model,writeString_put h]
    rfl
  | print redirected s =>
    cases redirected with
    | false =>
      rw [dispatch,model,writeString_put h]
      rfl
    | true =>
      rw [dispatch,model,appendPrint_put h]
      rfl
  | writelines items =>
    rw [dispatch,model]
    cases h with
    | inl h => exact writelinesLoop_all items h.1 h.2
    | inr h => exact writelinesLoop_empty items h
  | getvalue => rfl
  | read size => exact read_exact h.1 h.2
  | readline size => exact readline_exact h.1 h.2
  | readlines => exact readlines_exact h
  | seek target whence => exact seek_exact h
  | tell => rfl
  | truncate size => exact truncate_exact h

theorem print_write (g : StringIo) (redirected : Bool) (s : String) :
    (dispatch g (.print redirected s)).2=(dispatch g (.write s)).2 := by
  cases redirected with
  | false => rfl
  | true =>
    show appendPrint g s.toList=(writeString g s.toList).2
    rw [appendPrint,writeString]
    by_cases hend : g.buf.length ≤ min g.pos g.buf.length
    · have heq : min g.pos g.buf.length=g.buf.length := by omega
      simp only [heq,overwrite_eq (Nat.le_refl _)]
      simp
    · simp only [hend,if_false]

/-- Runs of operations that move the cursor inside the buffer are those of a text with a cursor. -/
theorem streams_exact (g : StringIo) (ops : List StreamOp)
    (h : Refinement.Meets modelStep (fun st o => Handled st.1 o) (g,[]) ops) :
    ops.foldl codeStep (g,[])=ops.foldl modelStep (g,[]) ∧
      ∀ (g : StringIo) (redirected : Bool) (s : String),
        (dispatch g (.print redirected s)).2=(dispatch g (.write s)).2 := by
  refine ⟨?_,print_write⟩
  refine Refinement.run_simulates codeStep modelStep (fun st o => Handled st.1 o) (·=·)
    ?_ ops _ _ rfl h
  rintro st _ o rfl ho
  rw [codeStep,modelStep,step_exact ho]

theorem streams_exact_lines :
    [StreamOp.write "ab\nc",.seek (.int 1) none,.print true "x",.readlines].foldl codeStep
      (⟨[],0⟩,[])=
      (⟨"ax\nc".toList,4⟩,[.ok (.size 4),.ok (.size 1),.ok .none,
        .ok (.lines ["\n".toList,"c".toList])]) := by
  have h := (streams_exact ⟨[],0⟩
    [.write "ab\nc",.seek (.int 1) none,.print true "x",.readlines] ?_).1
  · rw [h]
    decide
  · refine ⟨?_,⟨trivial,rfl⟩,?_,?_,trivial⟩
    · show 0 ≤ 0
      decide
    · show 1 ≤ 4
      decide
    · show 2 ≤ 4
      decide

/-- Beyond the end a text is written without a gap. -/
theorem write_beyond_end :
    ([StreamOp.seek (.int 2) none,.write "a"].foldl codeStep (⟨[],0⟩,[])).1=⟨['a'],1⟩ ∧
      ([StreamOp.seek (.int 2) none,.write "a"].foldl modelStep (⟨[],0⟩,[])).1=
        ⟨[Char.ofNat 0,Char.ofNat 0,'a'],3⟩ := by decide

end Running

end InterpretThis.Text
