import InterpretThis.Framework.Occurrence
import InterpretThis.Integers.ParseInt

namespace InterpretThis.Text

open Occurrence

section Source

def utf8Len (s : List Char) : Nat := (s.map Char.utf8Size).sum

/-- `str::char_indices` of what stands from byte `b` on. -/
def charIndices (b : Nat) : List Char → List (Nat×Char)
  | [] => []
  | c::s => (b,c)::charIndices (b+c.utf8Size) s

def charToByte (s : List Char) (charIdx : Nat) : Nat :=
  (((charIndices 0 s)[charIdx]?).map Prod.fst).getD (utf8Len s)

/-- What stands from a byte on, unless that is inside a character. -/
def dropBytes : Nat → List Char → Option (List Char)
  | 0,s => some s
  | _+1,[] => none
  | n+1,c::s => if c.utf8Size ≤ n+1 then dropBytes (n+1-c.utf8Size) s else none

def takeBytes : Nat → List Char → Option (List Char)
  | 0,_ => some []
  | _+1,[] => none
  | n+1,c::s => if c.utf8Size ≤ n+1 then (takeBytes (n+1-c.utf8Size) s).map (c::·) else none

/-- `&s[bs..be]`, which panics inside a character. -/
def byteSlice (s : List Char) (bs be : Nat) : Option (List Char) :=
  if bs ≤ be then (dropBytes bs s).bind (takeBytes (be-bs)) else none

def inBytes (pick : List Char → List Char → Option Nat) (sub window : List Char) : Option Nat :=
  (pick sub window).map fun i => utf8Len (window.take i)

/-- `str::find` and `str::rfind`. -/
def strFind : List Char → List Char → Option Nat := inBytes first

def strRfind : List Char → List Char → Option Nat := inBytes last

/-- `str::matches`, from a place on: the places of the disjoint matches. -/
def strMatches (sub window : List Char) (i : Nat) : List Nat :=
  if i ≤ window.length then
    match first sub (window.drop i) with
    | none => []
    | some d => (i+d)::strMatches sub window (i+d+max 1 sub.length)
  else []
termination_by window.length+1-i

inductive Failure where
  | raised (e : EvalError)
  | panic
deriving DecidableEq

def optIndexArg : Option Value → Except Failure (Option Int64)
  | none | some .none => .ok none
  | some v =>
    match ParseInt.valueToI64 v with
    | .ok i => .ok (some i)
    | .error e => .error (.raised e)

def typeError (message : String) : Failure := .raised (.interpreter (.typeError message))

def parseSearchArgs (method : String) (args : List Value) :
    Except Failure (List Char×Option Int64×Option Int64) :=
  if args=[] ∨ 3<args.length then .error (typeError (method++"() takes at least 1 argument"))
  else
    match args.head? with
    | some (.string sub) =>
      match optIndexArg args[1]? with
      | .error e => .error e
      | .ok start =>
        match optIndexArg args[2]? with
        | .error e => .error e
        | .ok stop => .ok (sub.toList,start,stop)
    | _ => .error (typeError (method++"() argument must be str"))

/-- An index counted from the end when it is negative, inside the text. -/
def clampIndex (charLen i : Int) : Int :=
  let i := if i<0 then i+charLen else i
  max 0 (min i charLen)

def resolveWindow (s : List Char) (start stop : Option Int64) : Nat×Nat×Nat :=
  let charLen : Int := s.length
  let lo := clampIndex charLen ((start.map Int64.toInt).getD 0)
  let hi := max (clampIndex charLen ((stop.map Int64.toInt).getD charLen)) lo
  (lo.toNat,charToByte s lo.toNat,charToByte s hi.toNat)

/-- The body that `find`, `rfind`, `index` and `rindex` share. -/
def found (search : List Char → List Char → Option Nat) (method : String) (s : List Char)
    (args : List Value) : Except Failure (Option Int) :=
  match parseSearchArgs method args with
  | .error e => .error e
  | .ok (sub,start,stop) =>
    let (startChar,bs,be) := resolveWindow s start stop
    match byteSlice s bs be with
    | none => .error .panic
    | some window =>
      match search sub window with
      | none => .ok none
      | some pos =>
        match byteSlice s bs (bs+pos) with
        | none => .error .panic
        | some before => .ok (some (startChar+before.length))

def find (s : List Char) (args : List Value) : Except Failure Int :=
  (found strFind "find" s args).map fun i => i.getD (-1)

def rfind (s : List Char) (args : List Value) : Except Failure Int :=
  (found strRfind "rfind" s args).map fun i => i.getD (-1)

def notFound : Failure := .raised (.exception "ValueError" "substring not found")

def index (s : List Char) (args : List Value) : Except Failure Int :=
  match found strFind "index" s args with
  | .error e => .error e
  | .ok none => .error notFound
  | .ok (some i) => .ok i

def rindex (s : List Char) (args : List Value) : Except Failure Int :=
  match found strRfind "rindex" s args with
  | .error e => .error e
  | .ok none => .error notFound
  | .ok (some i) => .ok i

def count (s : List Char) (args : List Value) : Except Failure Int :=
  match parseSearchArgs "count" args with
  | .error e => .error e
  | .ok (sub,start,stop) =>
    let (_,bs,be) := resolveWindow s start stop
    match byteSlice s bs be with
    | none => .error .panic
    | some window => .ok (strMatches sub window 0).length

def affixTest (isStart : Bool) (window affix : List Char) : Bool :=
  if isStart then affix.isPrefixOf window else affix.isSuffixOf window

/-- The loop over a tuple of affixes. -/
def anyAffix (method : String) (isStart : Bool) (window : List Char) :
    List Value → Except Failure Bool
  | [] => .ok false
  | .string p::items =>
    if affixTest isStart window p.toList then .ok true else anyAffix method isStart window items
  | _::_ => .error (typeError ("tuple for "++method++"() must only contain str"))

def stringAffix (s : List Char) (method : String) (args : List Value) (isStart : Bool) :
    Except Failure Bool :=
  if args=[] ∨ 3<args.length then .error (typeError (method++"() takes at least 1 argument"))
  else
    match optIndexArg args[1]? with
    | .error e => .error e
    | .ok start =>
      match optIndexArg args[2]? with
      | .error e => .error e
      | .ok stop =>
        let (_,bs,be) := resolveWindow s start stop
        match byteSlice s bs be with
        | none => .error .panic
        | some window =>
          match args.head? with
          | some (.string p) => .ok (affixTest isStart window p.toList)
          | some (.tuple items) => anyAffix method isStart window items
          | _ => .error (typeError (method++"() first arg must be str or a tuple of str"))

def startswith (s : List Char) (args : List Value) : Except Failure Bool :=
  stringAffix s "startswith" args true

def endswith (s : List Char) (args : List Value) : Except Failure Bool :=
  stringAffix s "endswith" args false

end Source

section Bytes

variable {s : List Char}

theorem utf8Len_append (a b : List Char) : utf8Len (a++b)=utf8Len a+utf8Len b := by
  simp [utf8Len]

theorem utf8Len_cons (c : Char) (s : List Char) : utf8Len (c::s)=c.utf8Size+utf8Len s := by
  simp [utf8Len]

theorem charIndices_get (b i : Nat) :
    ((charIndices b s)[i]?).map Prod.fst=
      if i<s.length then some (b+utf8Len (s.take i)) else none := by
  induction s generalizing b i with
  | nil => rfl
  | cons c s ih =>
    cases i with
    | zero => simp [charIndices,utf8Len]
    | succ i =>
      rw [charIndices,List.getElem?_cons_succ,ih,List.take_succ_cons,utf8Len_cons]
      simp only [List.length_cons,Nat.add_lt_add_iff_right,Nat.add_assoc]

theorem charToByte_eq (s : List Char) (i : Nat) : charToByte s i=utf8Len (s.take i) := by
  rw [charToByte,charIndices_get]
  by_cases hi : i<s.length
  · rw [if_pos hi]
    simp
  · rw [if_neg hi,List.take_of_length_le (by omega)]
    rfl

theorem dropBytes_len (a b : List Char) : dropBytes (utf8Len a) (a++b)=some b := by
  induction a with
  | nil =>
    show dropBytes 0 b=some b
    cases b <;> rfl
  | cons c a ih =>
    have hpos := c.utf8Size_pos
    obtain ⟨n,hn⟩ : ∃ n,utf8Len (c::a)=n+1 := ⟨utf8Len (c::a)-1,by rw [utf8Len_cons]; omega⟩
    rw [hn,List.cons_append,dropBytes]
    rw [utf8Len_cons] at hn
    have hrest : n+1-c.utf8Size=utf8Len a := by omega
    rw [if_pos (by omega),hrest,ih]

theorem takeBytes_len (a b : List Char) : takeBytes (utf8Len a) (a++b)=some a := by
  induction a with
  | nil =>
    show takeBytes 0 b=some []
    cases b <;> rfl
  | cons c a ih =>
    have hpos := c.utf8Size_pos
    obtain ⟨n,hn⟩ : ∃ n,utf8Len (c::a)=n+1 := ⟨utf8Len (c::a)-1,by rw [utf8Len_cons]; omega⟩
    rw [hn,List.cons_append,takeBytes]
    rw [utf8Len_cons] at hn
    have hrest : n+1-c.utf8Size=utf8Len a := by omega
    rw [if_pos (by omega),hrest,ih]
    rfl

theorem byteSlice_chars (a w b : List Char) :
    byteSlice (a++w++b) (utf8Len a) (utf8Len (a++w))=some w := by
  have hlen := utf8Len_append a w
  rw [byteSlice,if_pos (by omega),List.append_assoc,dropBytes_len]
  have hrest : utf8Len (a++w)-utf8Len a=utf8Len w := by omega
  rw [hrest]
  exact takeBytes_len w b

end Bytes

section Windows

variable (s sub : List Char) (start stop : Option Int64)

/-- The window of Python: an end past the text is its length, a start past it stays. -/
def lower : Int :=
  let i := (start.map Int64.toInt).getD 0
  max 0 (if i<0 then i+s.length else i)

def upper : Int :=
  let i := (stop.map Int64.toInt).getD s.length
  max 0 (min s.length (if i<0 then i+s.length else i))

/-- An occurrence that lies in the window. -/
def Within (i : Nat) : Prop :=
  lower s start ≤ i ∧ (i : Int)+sub.length ≤ upper s stop ∧ At sub s i

/-- The windows that Python searches. -/
def Valid : Prop := lower s start ≤ upper s stop

theorem clampIndex_range (n i : Int) (hn : 0 ≤ n) : 0 ≤ clampIndex n i ∧ clampIndex n i ≤ n := by
  rw [clampIndex]
  omega

/-- A window as the code takes it out of the text. -/
theorem window_slice : ∃ a w b,s=a++w++b ∧
    resolveWindow s start stop=(a.length,utf8Len a,utf8Len (a++w)) ∧
    (Valid s start stop → (a.length : Int)=lower s start ∧ ((a++w).length : Int)=upper s stop) ∧
    (¬Valid s start stop → w=[]) := by
  have hn : (0 : Int) ≤ s.length := Int.natCast_nonneg _
  have hlo := clampIndex_range s.length ((start.map Int64.toInt).getD 0) hn
  have hhi := clampIndex_range s.length ((stop.map Int64.toInt).getD s.length) hn
  have hlower : clampIndex s.length ((start.map Int64.toInt).getD 0)=
      min (lower s start) s.length := by
    rw [clampIndex,lower]
    omega
  have hupper : clampIndex s.length ((stop.map Int64.toInt).getD s.length)=upper s stop := by
    rw [clampIndex,upper]
    omega
  have hwindow : resolveWindow s start stop=
      ((min (lower s start) s.length).toNat,
        charToByte s (min (lower s start) s.length).toNat,
        charToByte s (max (upper s stop) (min (lower s start) s.length)).toNat) := by
    rw [resolveWindow]
    simp only [hlower,hupper]
  rw [hlower] at hlo
  rw [hupper] at hhi
  obtain ⟨lo,hlo'⟩ := Int.eq_ofNat_of_zero_le hlo.1
  obtain ⟨hi,hhi'⟩ : ∃ hi : Nat,max (upper s stop) (min (lower s start) s.length)=hi :=
    Int.eq_ofNat_of_zero_le (by omega)
  rw [hhi',hlo',Int.toNat_natCast,Int.toNat_natCast,charToByte_eq,charToByte_eq] at hwindow
  have hjoin : s.take lo++(s.take hi).drop lo=s.take hi := by
    have htake : (s.take hi).take lo=s.take lo := by
      rw [List.take_take]
      congr 1
      omega
    rw [← htake,List.take_append_drop]
  have hlen : (s.take lo).length=lo := List.length_take_of_le (by omega)
  have hlen' : (s.take hi).length=hi := List.length_take_of_le (by omega)
  refine ⟨s.take lo,(s.take hi).drop lo,s.drop hi,?_,?_,fun hvalid => ?_,fun hvalid => ?_⟩
  · rw [hjoin,List.take_append_drop]
  · rw [hjoin,hlen,hwindow]
  · rw [Valid] at hvalid
    rw [hjoin,hlen,hlen']
    omega
  · rw [Valid] at hvalid
    refine List.drop_eq_nil_of_le ?_
    rw [hlen']
    omega

/-- The places of a needle in the window are its places in the text that lie within. -/
theorem within_iff {a w b : List Char} (hs : s=a++w++b) (hvalid : Valid s start stop)
    (ha : (a.length : Int)=lower s start) (hw : ((a++w).length : Int)=upper s stop) (i : Nat) :
    Within s sub start stop (a.length+i) ↔ At sub w i := by
  rw [List.length_append] at hw
  rw [Within,← ha,← hw]
  constructor
  · rintro ⟨-,hfits,hle,hat⟩
    refine ⟨by push_cast at hfits; omega,?_⟩
    rw [hs,List.append_assoc,List.drop_length_add_append] at hat
    rw [List.drop_append_of_le_length (by push_cast at hfits; omega)] at hat
    refine List.prefix_of_prefix_length_le hat (List.prefix_append _ _) ?_
    rw [List.length_drop]
    push_cast at hfits
    omega
  · rintro ⟨hle,hat⟩
    have hlen := hat.length_le
    rw [List.length_drop] at hlen
    refine ⟨by push_cast; omega,by push_cast; omega,?_,?_⟩
    · rw [hs,List.length_append,List.length_append]
      omega
    · rw [hs,List.append_assoc,List.drop_length_add_append,List.drop_append_of_le_length hle]
      exact hat.trans (List.prefix_append _ _)

theorem not_within (hvalid : ¬Valid s start stop) (i : Nat) : ¬Within s sub start stop i := by
  rintro ⟨hlo,hhi,-⟩
  rw [Valid] at hvalid
  omega

end Windows

section Laws

variable {s : List Char} {sub : String} {start stop : Option Int64}

/-- A bound as an argument; an absent one reads as `None`. -/
def bound : Option Int64 → Value
  | none => .none
  | some i => .int i

def searchArgs (sub : String) (start stop : Option Int64) : List Value :=
  [.string sub,bound start,bound stop]

theorem optIndexArg_bound (i : Option Int64) : optIndexArg (some (bound i))=.ok i := by
  cases i <;> rfl

theorem parseSearchArgs_searchArgs (method : String) :
    parseSearchArgs method (searchArgs sub start stop)=.ok (sub.toList,start,stop) := by
  simp [parseSearchArgs,searchArgs,optIndexArg_bound]

/-- A bound that is left out stands for `None`, in every method. -/
theorem omitted_bounds (search : List Char → List Char → Option Nat) (s : List Char)
    (method : String) (isStart : Bool) (sub : String) (start : Option Int64) :
    ∀pair∈[([Value.string sub],searchArgs sub none none),
        ([Value.string sub,bound start],searchArgs sub start none)],
      found search method s pair.1=found search method s pair.2 ∧
      count s pair.1=count s pair.2 ∧
      stringAffix s method pair.1 isStart=stringAffix s method pair.2 isStart := by
  intro pair hpair
  rcases List.mem_pair.mp hpair with rfl | rfl <;> exact ⟨rfl,rfl,rfl⟩

variable {pick : List Char → List Char → Option Nat}

/-- What `found` gives is the place in the window, from where the window begins. -/
theorem found_parsed {args : List Value} {needle a w b : List Char} {method : String}
    (hargs : parseSearchArgs method args=.ok (needle,start,stop)) (hs : s=a++w++b)
    (hwin : resolveWindow s start stop=(a.length,utf8Len a,utf8Len (a++w)))
    (hpick : ∀ i,pick needle w=some i → i ≤ w.length) :
    found (inBytes pick) method s args=
      .ok ((pick needle w).map fun i => ((a.length+i : Nat) : Int)) := by
  rw [found,hargs]
  simp only [hwin]
  rw [hs,byteSlice_chars]
  simp only [inBytes]
  cases hfound : pick needle w with
  | none => rfl
  | some i =>
    have hcut : a++w++b=a++w.take i++(w.drop i++b) := by
      rw [List.append_assoc a,List.append_assoc a,← List.append_assoc (w.take i),
        List.take_append_drop]
    have hslice := byteSlice_chars a (w.take i) (w.drop i++b)
    rw [← hcut,utf8Len_append] at hslice
    simp only [Option.map_some,hslice,List.length_take_of_le (hpick i hfound)]
    push_cast
    rfl

theorem found_window {a w b : List Char} (hs : s=a++w++b)
    (hwin : resolveWindow s start stop=(a.length,utf8Len a,utf8Len (a++w)))
    (hpick : ∀ i,pick sub.toList w=some i → i ≤ w.length) (method : String) :
    found (inBytes pick) method s (searchArgs sub start stop)=
      .ok ((pick sub.toList w).map fun i => ((a.length+i : Nat) : Int)) :=
  found_parsed (parseSearchArgs_searchArgs method) hs hwin hpick

/-- The best place of a needle in the window by an order, or `-1`. -/
def Best (R : Nat → Nat → Prop) (s sub : List Char) (start stop : Option Int64)
    (r : Except Failure Int) : Prop :=
  (∃ n : Nat,r=.ok n ∧ Within s sub start stop n ∧ ∀ m,R m n → ¬Within s sub start stop m) ∨
    r=.ok (-1) ∧ ∀ n,¬Within s sub start stop n

theorem best_iff {R : Nat → Nat → Prop} (hshift : ∀ k m n,R (k+m) (k+n) ↔ R m n)
    (hsome : ∀ w i,pick sub.toList w=some i ↔
      At sub.toList w i ∧ ∀ j,R j i → ¬At sub.toList w j)
    (hnone : ∀ w,pick sub.toList w=none ↔ ∀ i,¬At sub.toList w i) (method : String) :
    Best R s sub.toList start stop
        ((found (inBytes pick) method s (searchArgs sub start stop)).map fun i => i.getD (-1)) ↔
      Valid s start stop ∨ sub.toList≠[] := by
  obtain ⟨a,w,b,hs,hwin,hgood,hbad⟩ := window_slice s start stop
  rw [found_window hs hwin fun i hi => ((hsome w i).mp hi).1.1]
  by_cases hvalid : Valid s start stop
  · obtain ⟨ha,hw⟩ := hgood hvalid
    have hwithin := within_iff s sub.toList start stop hs hvalid ha hw
    have hplace : ∀ n,Within s sub.toList start stop n → ∃ i,n=a.length+i := fun n hn =>
      ⟨n-a.length,by have hlow := hn.1; omega⟩
    refine iff_of_true ?_ (.inl hvalid)
    cases hfound : pick sub.toList w with
    | none =>
      refine .inr ⟨rfl,fun n hn => ?_⟩
      obtain ⟨i,rfl⟩ := hplace n hn
      exact (hnone w).mp hfound i ((hwithin i).mp hn)
    | some i =>
      obtain ⟨hat,hbest⟩ := (hsome w i).mp hfound
      refine .inl ⟨a.length+i,rfl,(hwithin i).mpr hat,fun m hm hin => ?_⟩
      obtain ⟨j,rfl⟩ := hplace m hin
      exact hbest j ((hshift _ _ _).mp hm) ((hwithin j).mp hin)
  · have hno := not_within s sub.toList start stop hvalid
    rw [hbad hvalid]
    cases hfound : pick sub.toList [] with
    | none =>
      refine iff_of_true (.inr ⟨rfl,hno⟩) (.inr fun hsub => ?_)
      exact (hnone []).mp hfound 0 (at_nil.mpr ⟨hsub,rfl⟩)
    | some i =>
      have hsub := (at_nil.mp ((hsome [] i).mp hfound).1).1
      refine iff_of_false ?_ (by simp [hvalid,hsub])
      rintro (⟨n,-,hin,-⟩ | ⟨hneg,-⟩)
      · exact hno n hin
      · have hval := Except.ok.inj hneg
        simp only [Option.map_some,Option.getD_some] at hval
        omega

theorem find_iff : Best (·<·) s sub.toList start stop (find s (searchArgs sub start stop)) ↔
    Valid s start stop ∨ sub.toList≠[] :=
  best_iff (fun k m n => by omega) (fun _ _ => first_some) (fun _ => first_none) "find"

theorem rfind_iff : Best (fun m n => n < m) s sub.toList start stop
      (rfind s (searchArgs sub start stop)) ↔ Valid s start stop ∨ sub.toList≠[] :=
  best_iff (fun k m n => by omega) (fun _ _ => last_some) (fun _ => last_none) "rfind"

/-- The answer of `index` for one of `find`. -/
def Raises (r r' : Except Failure Int) : Prop :=
  r=.ok (-1) ∧ r'=.error notFound ∨ ∃ i≠-1,r=.ok i ∧ r'=.ok i

theorem raises_found (hpick : ∀ w i,pick sub.toList w=some i → i ≤ w.length)
    (method method' : String) :
    Raises
      ((found (inBytes pick) method s (searchArgs sub start stop)).map fun i => i.getD (-1))
      (match found (inBytes pick) method' s (searchArgs sub start stop) with
        | .error e => .error e
        | .ok none => .error notFound
        | .ok (some i) => .ok i) := by
  obtain ⟨a,w,b,hs,hwin,-,-⟩ := window_slice s start stop
  rw [found_window hs hwin (hpick w),found_window hs hwin (hpick w)]
  cases pick sub.toList w with
  | none => exact .inl ⟨rfl,rfl⟩
  | some i =>
    refine .inr ⟨((a.length+i : Nat) : Int),?_,rfl,rfl⟩
    omega

/-- Places chosen one after another, each the first at least `step` after the one before. -/
inductive Picks (P : Nat → Prop) (step : Nat) : Nat → List Nat → Prop where
  | none {i : Nat} (h : ∀ j,i ≤ j → ¬P j) : Picks P step i []
  | pick {i j : Nat} {js : List Nat} (hle : i ≤ j) (hat : P j)
      (hfirst : ∀ k,i ≤ k → k<j → ¬P k) (hrest : Picks P step (j+step) js) :
      Picks P step i (j::js)

theorem at_drop {sub w : List Char} {i d : Nat} (hi : i ≤ w.length) :
    At sub (w.drop i) d ↔ At sub w (i+d) := by
  rw [At,At,List.length_drop,List.drop_drop]
  refine and_congr ?_ Iff.rfl
  omega

theorem strMatches_picks (sub w : List Char) (i : Nat) :
    Picks (At sub w) (max 1 sub.length) i (strMatches sub w i) := by
  induction i using strMatches.induct sub w with
  | case1 i hi hnone =>
    rw [strMatches,if_pos hi,hnone]
    refine .none fun j hj hat => first_none.mp hnone (j-i) ?_
    rw [at_drop hi,Nat.add_sub_cancel' hj]
    exact hat
  | case2 i hi d hsome ih =>
    obtain ⟨hat,hbefore⟩ := first_some.mp hsome
    rw [at_drop hi] at hat
    rw [strMatches,if_pos hi,hsome]
    refine .pick (by omega) hat (fun k hk hlt hin => ?_) ih
    refine hbefore (k-i) (by omega) ?_
    rw [at_drop hi,Nat.add_sub_cancel' hk]
    exact hin
  | case3 i hi =>
    rw [strMatches,if_neg hi]
    exact .none fun j hj hat => hi (Nat.le_trans hj hat.1)

theorem Picks.shift {P Q : Nat → Prop} {step k i : Nat} {js : List Nat} (h : Picks P step i js)
    (hpq : ∀ j,Q (k+j) ↔ P j) : Picks Q step (k+i) (js.map (k+·)) := by
  induction h with
  | none h =>
    refine .none fun j hj hin => ?_
    obtain ⟨d,rfl⟩ := Nat.exists_eq_add_of_le (Nat.le_trans (Nat.le_add_right k _) hj)
    exact h d (by omega) ((hpq d).mp hin)
  | pick hle hat hfirst _ ih =>
    simp only [List.map_cons]
    refine .pick (by omega) ((hpq _).mpr hat) (fun m hm hlt hin => ?_) ?_
    · obtain ⟨d,rfl⟩ := Nat.exists_eq_add_of_le (Nat.le_trans (Nat.le_add_right k _) hm)
      exact hfirst d (by omega) (by omega) ((hpq d).mp hin)
    · rw [Nat.add_assoc]
      exact ih

theorem Picks.earlier {P : Nat → Prop} {step i : Nat} {js : List Nat} (h : Picks P step i js)
    (hnone : ∀ j < i,¬P j) : Picks P step 0 js := by
  cases h with
  | none h => exact .none fun j _ => if hj : j < i then hnone j hj else h j (by omega)
  | pick hle hat hfirst hrest =>
    exact .pick (Nat.zero_le _) hat
      (fun k _ hlt => if hk : k < i then hnone k hk else hfirst k (by omega) hlt) hrest

/-- The number of disjoint occurrences in the window, chosen from the left. -/
def Counts (s sub : List Char) (start stop : Option Int64) (r : Except Failure Int) : Prop :=
  ∃ js,Picks (Within s sub start stop) (max 1 sub.length) 0 js ∧ r=.ok js.length

theorem count_iff : Counts s sub.toList start stop (count s (searchArgs sub start stop)) ↔
    Valid s start stop ∨ sub.toList≠[] := by
  obtain ⟨a,w,b,hs,hwin,hgood,hbad⟩ := window_slice s start stop
  have hcount : count s (searchArgs sub start stop)=.ok (strMatches sub.toList w 0).length := by
    rw [count,parseSearchArgs_searchArgs]
    simp only [hwin]
    rw [hs,byteSlice_chars]
  rw [hcount]
  by_cases hvalid : Valid s start stop
  · obtain ⟨ha,hw⟩ := hgood hvalid
    have hwithin := within_iff s sub.toList start stop hs hvalid ha hw
    have hpicks := (strMatches_picks sub.toList w 0).shift hwithin
    refine iff_of_true ⟨_,hpicks.earlier fun j hj hin => ?_,by rw [List.length_map]⟩ (.inl hvalid)
    have hlow := hin.1
    omega
  · have hno := not_within s sub.toList start stop hvalid
    have hempty : ∀ js,Picks (Within s sub.toList start stop) (max 1 sub.toList.length) 0 js →
        js=[] := by
      intro js hjs
      cases hjs with
      | none => rfl
      | pick _ hat => exact absurd hat (hno _)
    rw [hbad hvalid]
    by_cases hsub : sub.toList=[]
    · refine iff_of_false ?_ (by simp [hvalid,hsub])
      rintro ⟨js,hjs,hlen⟩
      have hone : strMatches [] [] 0=[0] := by simp [strMatches,first]
      rw [hempty js hjs,hsub,hone] at hlen
      cases hlen
    · refine iff_of_true ⟨[],.none fun j _ => hno j,?_⟩ (.inr hsub)
      have hfirst : first sub.toList ([].drop 0)=none :=
        first_none.mpr fun i hat => hsub (at_nil.mp hat).1
      rw [strMatches,if_pos (Nat.zero_le _),hfirst]

theorem stringAffix_window {a w b : List Char} (hs : s=a++w++b)
    (hwin : resolveWindow s start stop=(a.length,utf8Len a,utf8Len (a++w))) (method : String)
    (isStart : Bool) :
    stringAffix s method (searchArgs sub start stop) isStart=
      .ok (affixTest isStart w sub.toList) := by
  have hstart : optIndexArg (searchArgs sub start stop)[1]?=.ok start := optIndexArg_bound start
  have hstop : optIndexArg (searchArgs sub start stop)[2]?=.ok stop := optIndexArg_bound stop
  have hmany : ¬(searchArgs sub start stop=[] ∨ 3<(searchArgs sub start stop).length) := by
    simp [searchArgs]
  rw [stringAffix,if_neg hmany]
  simp only [hstart,hstop,hwin]
  rw [hs,byteSlice_chars]
  rfl

/-- The text has the affix where the window begins. -/
def Starts (s sub : List Char) (start stop : Option Int64) (r : Except Failure Bool) : Prop :=
  ∃ answer,r=.ok answer ∧ (answer=true ↔ ∃ n : Nat,n=lower s start ∧ Within s sub start stop n)

/-- The text has the affix where the window ends. -/
def Finishes (s sub : List Char) (start stop : Option Int64) (r : Except Failure Bool) : Prop :=
  ∃ answer,r=.ok answer ∧
    (answer=true ↔ ∃ n : Nat,(n : Int)+sub.length=upper s stop ∧ Within s sub start stop n)

theorem affix_iff {isStart : Bool} {edge : Nat → Prop} {method : String}
    (hedge : ∀ {a w b : List Char},s=a++w++b → Valid s start stop →
      (a.length : Int)=lower s start → ((a++w).length : Int)=upper s stop →
      (affixTest isStart w sub.toList=true ↔
        ∃ n : Nat,edge n ∧ Within s sub.toList start stop n)) :
    (∃ answer,stringAffix s method (searchArgs sub start stop) isStart=.ok answer ∧
      (answer=true ↔ ∃ n : Nat,edge n ∧ Within s sub.toList start stop n)) ↔
      Valid s start stop ∨ sub.toList≠[] := by
  obtain ⟨a,w,b,hs,hwin,hgood,hbad⟩ := window_slice s start stop
  rw [stringAffix_window hs hwin]
  by_cases hvalid : Valid s start stop
  · obtain ⟨ha,hw⟩ := hgood hvalid
    exact iff_of_true ⟨_,rfl,hedge hs hvalid ha hw⟩ (.inl hvalid)
  · have hno : ¬∃ n : Nat,edge n ∧ Within s sub.toList start stop n := fun ⟨n,_,hin⟩ =>
      not_within s sub.toList start stop hvalid n hin
    have hempty : affixTest isStart [] sub.toList=true ↔ sub.toList=[] := by
      cases isStart <;> simp [affixTest]
    rw [hbad hvalid]
    constructor
    · rintro ⟨answer,hok,hlaw⟩
      cases Except.ok.inj hok
      refine .inr fun hsub => hno (hlaw.mp (hempty.mpr hsub))
    · rintro (hv | hsub)
      · exact absurd hv hvalid
      · refine ⟨_,rfl,iff_of_false (fun htrue => hsub (hempty.mp htrue)) hno⟩

theorem startswith_iff : Starts s sub.toList start stop (startswith s (searchArgs sub start stop)) ↔
    Valid s start stop ∨ sub.toList≠[] := by
  refine affix_iff fun {a w b} hs hvalid ha hw => ?_
  have hwithin := within_iff s sub.toList start stop hs hvalid ha hw 0
  rw [at_zero] at hwithin
  rw [affixTest,if_pos rfl,List.isPrefixOf_iff_prefix,← hwithin]
  constructor
  · exact fun hin => ⟨a.length+0,by rw [← ha]; rfl,hin⟩
  · rintro ⟨n,hn,hin⟩
    obtain rfl : n=a.length := by omega
    exact hin

theorem endswith_iff : Finishes s sub.toList start stop (endswith s (searchArgs sub start stop)) ↔
    Valid s start stop ∨ sub.toList≠[] := by
  refine affix_iff fun {a w b} hs hvalid ha hw => ?_
  have hwithin := within_iff s sub.toList start stop hs hvalid ha hw
  rw [List.length_append] at hw
  rw [affixTest,if_neg (by simp),List.isSuffixOf_iff_suffix]
  constructor
  · rintro ⟨before,rfl⟩
    refine ⟨a.length+before.length,?_,?_⟩
    · rw [← hw,List.length_append]
      push_cast
      omega
    · rw [hwithin]
      have hat := @at_append Char sub.toList before []
      rw [List.append_nil] at hat
      exact hat
  · rintro ⟨n,hn,hin⟩
    have hlow := hin.1
    obtain ⟨i,rfl⟩ : ∃ i,n=a.length+i := ⟨n-a.length,by omega⟩
    obtain ⟨before,after,rfl,rfl⟩ := at_iff.mp ((hwithin i).mp hin)
    have hafter : after=[] := by
      refine List.length_eq_zero_iff.mp ?_
      rw [← hw] at hn
      simp only [List.length_append] at hn
      push_cast at hn
      omega
    rw [hafter,List.append_nil]
    exact List.suffix_append _ _

/-- The search methods agree with the places of the needle in the window, unless the needle is empty
and the window is not valid. -/
theorem search_exact (s : List Char) (sub : String) (start stop : Option Int64) :
    (Best (·<·) s sub.toList start stop (find s (searchArgs sub start stop)) ↔
      Valid s start stop ∨ sub.toList≠[]) ∧
    (Best (fun m n => n < m) s sub.toList start stop (rfind s (searchArgs sub start stop)) ↔
      Valid s start stop ∨ sub.toList≠[]) ∧
    Raises (find s (searchArgs sub start stop)) (index s (searchArgs sub start stop)) ∧
    Raises (rfind s (searchArgs sub start stop)) (rindex s (searchArgs sub start stop)) ∧
    (Counts s sub.toList start stop (count s (searchArgs sub start stop)) ↔
      Valid s start stop ∨ sub.toList≠[]) ∧
    (Starts s sub.toList start stop (startswith s (searchArgs sub start stop)) ↔
      Valid s start stop ∨ sub.toList≠[]) ∧
    (Finishes s sub.toList start stop (endswith s (searchArgs sub start stop)) ↔
      Valid s start stop ∨ sub.toList≠[]) :=
  ⟨find_iff,rfind_iff,raises_found (fun _ _ hi => (first_some.mp hi).1.1) "find" "index",
    raises_found (fun _ _ hi => (last_some.mp hi).1.1) "rfind" "rindex",count_iff,startswith_iff,
    endswith_iff⟩

/-- An empty needle is found past the end of the text. -/
theorem empty_needle_found :
    find "a".toList (searchArgs "" (some 2) none)=.ok 1 ∧
      ∀ n,¬Within "a".toList [] (some 2) none n := by
  refine ⟨by decide,not_within "a".toList [] (some 2) none ?_⟩
  rw [Valid]
  decide

end Laws

end InterpretThis.Text
