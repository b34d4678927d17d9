import InterpretThis.Modules.Twister
import InterpretThis.Ranges.Slices

namespace InterpretThis.Random

open Ranges (walked)
open Progression

/-- Why a selection has no result: its words ran out while it rejected them, or it read a place
that is not there. -/
inductive Halt where
  | rejecting
  | outOfBounds
deriving DecidableEq

/-- A selection over a source of words in a state. -/
abbrev Selecting (σ A : Type) : Type := σ → Except Halt (A×σ)

section Source

variable {σ V : Type} (next : σ → UInt32×σ) (fuel : Nat)

/-- The rejection loop of `randbelow`. -/
def reject : Nat → Int → Nat → Selecting σ Int
  | 0,_,_,_ => .error .rejecting
  | fuel+1,n,k,s =>
    let (r,s) := getrandbits next k s
    if (r : Int)<n then .ok (r,s) else reject fuel n k s

/-- The number of bits is cast to `u32`. -/
def randbelow (n : Int) : Selecting σ Int := fun s =>
  if n≤ 0 then .ok (0,s) else reject next fuel n (bits n%2^32) s

def asBigint : Value → Option Int
  | .int i => some i.toInt
  | .bigInt i => some i
  | .bool b => some (if b then 1 else 0)
  | _ => none

def typeError (message : String) : EvalError := .interpreter (.typeError message)

def valueError (message : String) : EvalError := .interpreter (.valueError message)

def randint (args : List Value) : Selecting σ (Except EvalError Value) := fun s =>
  match args[0]?.bind asBigint,args[1]?.bind asBigint with
  | some a,some b =>
    if b<a then .ok (.error (valueError "empty range for randint()"),s)
    else match randbelow next fuel (b-a+1) s with
      | .error h => .error h
      | .ok (r,s) => .ok (.ok (intFromBigint (a+r)),s)
  | _,_ => .ok (.error (typeError "randint() requires two integers"),s)

/-- The bounds and the step of `randrange`. -/
def rangeArgs (start : Int) (args : List Value) : Int×Int×Int :=
  match args[1]?.bind asBigint,args[2]?.bind asBigint with
  | some stop,step => (start,stop,step.getD 1)
  | none,_ => (0,start,1)

def width (lo hi step : Int) : Int :=
  if 0<step then (hi-lo+step-1).tdiv step else (hi-lo+step+1).tdiv step

def randrange (args : List Value) : Selecting σ (Except EvalError Value) := fun s =>
  match args[0]?.bind asBigint with
  | none => .ok (.error (typeError "randrange() requires integer arguments"),s)
  | some start =>
    let (lo,hi,step) := rangeArgs start args
    if step=0 then .ok (.error (valueError "randrange() arg 3 must not be zero"),s)
    else if width lo hi step≤ 0 then .ok (.error (valueError "empty range for randrange()"),s)
    else match randbelow next fuel (width lo hi step) s with
      | .error h => .error h
      | .ok (r,s) => .ok (.ok (intFromBigint (lo+step*r)),s)

/-- `<[T]>::swap`. -/
def swap (items : List V) (i j : Nat) : Except Halt (List V) :=
  match items[i]?,items[j]? with
  | some a,some b => .ok ((items.set i b).set j a)
  | _,_ => .error .outOfBounds

/-- The passes of `shuffle` from place `i` down to place 1. -/
def shuffleFrom : Nat → List V → Selecting σ (List V)
  | 0,items,s => .ok (items,s)
  | i+1,items,s =>
    match randbelow next fuel (i+2) s with
    | .error h => .error h
    | .ok (j,s) =>
      match swap items (i+1) j.toNat with
      | .error h => .error h
      | .ok items => shuffleFrom i items s

/-- The list that `shuffle` leaves. -/
def shuffle (items : List V) : Selecting σ (List V) := shuffleFrom next fuel (items.length-1) items

/-- The passes of `sample` over a pool of which the first `live` places are not chosen. -/
def samplePool : Nat → Nat → List V → Selecting σ (List V)
  | 0,_,_,s => .ok ([],s)
  | left+1,live,pool,s =>
    match randbelow next fuel live s with
    | .error h => .error h
    | .ok (j,s) =>
      match pool[j.toNat]?,pool[live-1]? with
      | some v,some last =>
        match samplePool left (live-1) (pool.set j.toNat last) s with
        | .error h => .error h
        | .ok (vs,s) => .ok (v::vs,s)
      | _,_ => .error .outOfBounds

/-- A position that has not been selected. -/
def freshPosition (n : Nat) (selected : List Nat) : Nat → Selecting σ Nat
  | 0,_ => .error .rejecting
  | tries+1,s =>
    match randbelow next fuel n s with
    | .error h => .error h
    | .ok (j,s) =>
      if selected.contains j.toNat then freshPosition n selected tries s else .ok (j.toNat,s)

/-- The passes of `sample` with the set of the positions selected. -/
def sampleSelected (population : List V) : Nat → List Nat → Selecting σ (List V)
  | 0,_,s => .ok ([],s)
  | left+1,selected,s =>
    match freshPosition next fuel population.length selected fuel s with
    | .error h => .error h
    | .ok (j,s) =>
      match population[j]? with
      | none => .error .outOfBounds
      | some v =>
        match sampleSelected population left (j::selected) s with
        | .error h => .error h
        | .ok (vs,s) => .ok (v::vs,s)

/-- `sample` of a population; `extra` is the power of four that its heuristic computes in floats. -/
def sample (extra : Nat → Nat) (population : List V) (k : Nat) :
    Selecting σ (Except EvalError (List V)) := fun s =>
  if population.length<k then
    .ok (.error (valueError "Sample larger than population or is negative"),s)
  else
    let setsize := 21+(if 5<k then extra k else 0)
    let r := if population.length≤ setsize then
        samplePool next fuel k population.length population s
      else sampleSelected next fuel population k [] s
    match r with
    | .error h => .error h
    | .ok (vs,s) => .ok (.ok vs,s)

end Source

/-- The selection ends with a result of `P`, or its words run out. -/
def Ends {σ A : Type} (P : A → Prop) : Except Halt (A×σ) → Prop
  | .ok (a,_) => P a
  | .error h => h=.rejecting

theorem Ends.imp {σ A : Type} {P Q : A → Prop} {r : Except Halt (A×σ)} (h : Ends P r)
    (hpq : ∀ a,P a → Q a) : Ends Q r := by
  cases r with
  | error e => exact h
  | ok p => exact hpq p.1 h

section Draws

variable {σ : Type} (next : σ → UInt32×σ) (fuel : Nat)

theorem reject_ends (fuel : Nat) (n : Int) (k : Nat) (s : σ) :
    Ends (fun r => 0 ≤ r ∧ r<n) (reject next fuel n k s) := by
  induction fuel generalizing s with
  | zero => rfl
  | succ fuel ih =>
    rw [reject]
    by_cases hlt : ((getrandbits next k s).1 : Int)<n
    · simp only [hlt,if_true]
      exact ⟨Int.natCast_nonneg _,hlt⟩
    · simp only [hlt,if_false]
      exact ih _

theorem randbelow_ends {n : Int} (hn : 0<n) (s : σ) :
    Ends (fun r => 0 ≤ r ∧ r<n) (randbelow next fuel n s) := by
  rw [randbelow,if_neg (by omega)]
  exact reject_ends next fuel n _ s

theorem randbelow_cases {n : Int} (hn : 0<n) (s : σ) :
    randbelow next fuel n s=.error .rejecting ∨
    ∃ (j : Nat) (t : σ),(j : Int)<n ∧ randbelow next fuel n s=.ok ((j : Int),t) := by
  have hends := randbelow_ends next fuel hn s
  cases hdraw : randbelow next fuel n s with
  | error h =>
    rw [hdraw] at hends
    exact .inl (congrArg _ hends)
  | ok p =>
    obtain ⟨r,t⟩ := p
    rw [hdraw] at hends
    obtain ⟨hlow,hlt⟩ := hends
    refine .inr ⟨r.toNat,t,by omega,?_⟩
    rw [Int.toNat_of_nonneg hlow]

theorem randint_ends {x y : Value} {a b : Int} (hx : asBigint x=some a) (hy : asBigint y=some b)
    (s : σ) :
    Ends (fun r => if b<a then ∃ m,r=.error (valueError m)
      else ∃ c,a ≤ c ∧ c ≤ b ∧ r=.ok (intFromBigint c)) (randint next fuel [x,y] s) := by
  simp only [randint,List.getElem?_cons_zero,List.getElem?_cons_succ,Option.bind_some,hx,hy]
  by_cases hlt : b<a
  · simp only [hlt,if_true]
    exact ⟨_,rfl⟩
  · simp only [hlt,if_false]
    obtain hdraw | ⟨j,t,hj,hdraw⟩ := randbelow_cases next fuel (n := b-a+1) (by omega) s
    · rw [hdraw]
      rfl
    · rw [hdraw]
      exact ⟨a+j,by omega,by omega,rfl⟩

theorem width_toNat (lo hi : Int) {step : Int} (h0 : step≠0) :
    (width lo hi step).toNat=count lo hi step := by
  have hdiv : ∀ x d : Int,0<d → (x.tdiv d).toNat=(x/d).toNat := by
    intro x d hd
    by_cases hx : 0 ≤ x
    · rw [Int.tdiv_eq_ediv_of_nonneg hx]
    · have hneg : x/d<0 := Int.ediv_neg_of_neg_of_pos (by omega) hd
      have hnonneg : 0 ≤ (-x).tdiv d := Int.tdiv_nonneg (by omega) hd.le
      rw [Int.neg_tdiv] at hnonneg
      omega
  rw [width,count]
  by_cases hs : 0<step
  · rw [if_pos hs,if_pos hs,hdiv _ _ hs]
  · rw [if_neg hs,if_neg hs,← Int.neg_tdiv_neg,hdiv _ _ (by omega)]
    congr 2
    ring

/-- The range that integer arguments ask for. -/
def rangeOf : List Value → Option (List Int)
  | [x] => (asBigint x).map fun stop => walked 0 stop 1
  | [x,y] => (asBigint x).bind fun start => (asBigint y).map fun stop => walked start stop 1
  | [x,y,z] => (asBigint x).bind fun start => (asBigint y).bind fun stop =>
      (asBigint z).map fun step => walked start stop step
  | _ => none

theorem randrange_walked {args : List Value} {start lo hi step : Int}
    (hstart : args[0]?.bind asBigint=some start) (hargs : rangeArgs start args=(lo,hi,step))
    (s : σ) :
    Ends (fun r => if walked lo hi step=[] then ∃ m,r=.error (valueError m)
      else ∃ x ∈ walked lo hi step,r=.ok (intFromBigint x)) (randrange next fuel args s) := by
  simp only [randrange,hstart,hargs]
  by_cases h0 : step=0
  · simp only [walked,h0,if_true]
    exact ⟨_,rfl⟩
  · have hwidth := width_toNat lo hi h0
    have hlength := length_terms lo hi step
    simp only [walked,h0,if_false]
    by_cases hle : width lo hi step ≤ 0
    · have hnil : terms lo hi step=[] := List.eq_nil_of_length_eq_zero (by omega)
      simp only [hle,hnil,if_true]
      exact ⟨_,rfl⟩
    · have hne : terms lo hi step≠[] := List.ne_nil_of_length_pos (by omega)
      simp only [hle,hne,if_false]
      obtain hdraw | ⟨j,t,hj,hdraw⟩ := randbelow_cases next fuel (by omega : 0<width lo hi step) s
      · rw [hdraw]
        rfl
      · rw [hdraw]
        refine ⟨lo+j*step,?_,?_⟩
        · exact List.mem_map.mpr ⟨j,List.mem_range.mpr (by omega),rfl⟩
        · rw [mul_comm]

theorem randrange_ends {args : List Value} {range : List Int} (h : rangeOf args=some range)
    (s : σ) :
    Ends (fun r => if range=[] then ∃ m,r=.error (valueError m)
      else ∃ x ∈ range,r=.ok (intFromBigint x)) (randrange next fuel args s) := by
  match args,h with
  | [x],h =>
    obtain ⟨stop,hx,rfl⟩ := Option.map_eq_some_iff.mp h
    exact @randrange_walked σ next fuel [x] stop _ _ _ hx rfl s
  | [x,y],h =>
    obtain ⟨start,hx,h⟩ := Option.bind_eq_some_iff.mp h
    obtain ⟨stop,hy,rfl⟩ := Option.map_eq_some_iff.mp h
    refine @randrange_walked σ next fuel [x,y] start _ _ _ hx ?_ s
    simp [rangeArgs,hy]
  | [x,y,z],h =>
    obtain ⟨start,hx,h⟩ := Option.bind_eq_some_iff.mp h
    obtain ⟨stop,hy,h⟩ := Option.bind_eq_some_iff.mp h
    obtain ⟨step,hz,rfl⟩ := Option.map_eq_some_iff.mp h
    refine @randrange_walked σ next fuel [x,y,z] start _ _ _ hx ?_ s
    simp [rangeArgs,hy,hz]

variable {V : Type}

theorem swap_perm {items : List V} {i j : Nat} (hi : i < items.length) (hj : j < items.length) :
    ∃ swapped,swap items i j=.ok swapped ∧ swapped.Perm items := by
  refine ⟨(items.set i items[j]).set j items[i],?_,List.set_set_perm hi hj⟩
  simp [swap,hi,hj]

theorem shuffleFrom_ends (i : Nat) (items : List V) (hi : i=0 ∨ i < items.length) (s : σ) :
    Ends (List.Perm · items) (shuffleFrom next fuel i items s) := by
  induction i generalizing items s with
  | zero => exact List.Perm.refl _
  | succ i ih =>
    rw [shuffleFrom]
    obtain hdraw | ⟨j,t,hj,hdraw⟩ := randbelow_cases next fuel (n := i+2) (by omega) s
    · rw [hdraw]
      rfl
    · have hplaces : i+1 < items.length := by omega
      obtain ⟨swapped,hswap,hperm⟩ := swap_perm hplaces (j := j) (by omega)
      rw [hdraw]
      simp only [Int.toNat_natCast,hswap]
      have hlen := hperm.length_eq
      exact (ih swapped (by omega) t).imp fun vs hvs => hvs.trans hperm

theorem overwrite_perm {pool : List V} {j last : Nat} {v w : V} (hv : pool[j]?=some v)
    (hw : pool[last]?=some w) (hj : j ≤ last) :
    (v::(pool.set j w).take last).Perm (pool.take (last+1)) := by
  obtain ⟨hlast,rfl⟩ := List.getElem?_eq_some_iff.mp hw
  obtain ⟨hlt,rfl⟩ := List.getElem?_eq_some_iff.mp hv
  rw [List.take_succ_eq_append_getElem hlast,List.take_set]
  obtain rfl | hne : j=last ∨ j<last := by omega
  · rw [List.set_eq_of_length_le (by simp)]
    exact (List.perm_append_singleton _ _).symm
  · have hin : j<(pool.take last).length := by
      rw [List.length_take]
      omega
    have hchosen : pool[j]=(pool.take last)[j] := by simp
    rw [hchosen]
    calc (pool.take last)[j]::(pool.take last).set j pool[last]
      _ |>.Perm ((pool.take last)[j]::pool[last]::(pool.take last).eraseIdx j) :=
        (List.set_perm_cons_eraseIdx hin _).cons _
      _ |>.Perm (pool[last]::(pool.take last)[j]::(pool.take last).eraseIdx j) := .swap _ _ _
      _ |>.Perm (pool[last]::pool.take last) := (List.getElem_cons_eraseIdx_perm hin).cons _
      _ |>.Perm (pool.take last++[pool[last]]) := (List.perm_append_singleton _ _).symm

/-- The pool's values chosen are, with the rest, its live part. -/
theorem samplePool_ends (left live : Nat) (pool : List V) (hleft : left ≤ live)
    (hlive : live ≤ pool.length) (s : σ) :
    Ends (fun vs => vs.length=left ∧ ∃ rest,(vs++rest).Perm (pool.take live))
      (samplePool next fuel left live pool s) := by
  induction left generalizing live pool s with
  | zero => exact ⟨rfl,_,List.Perm.refl _⟩
  | succ left ih =>
    obtain ⟨live,rfl⟩ : ∃ last,live=last+1 := ⟨live-1,by omega⟩
    rw [samplePool]
    obtain hdraw | ⟨j,t,hj,hdraw⟩ := randbelow_cases next fuel (n := (live+1 : Nat)) (by omega) s
    · rw [hdraw]
      rfl
    · have hv := List.getElem?_eq_getElem (l := pool) (i := j) (by omega)
      have hw := List.getElem?_eq_getElem (l := pool) (i := live) (by omega)
      rw [hdraw]
      simp only [Int.toNat_natCast,Nat.add_sub_cancel,hv,hw]
      have hrest := ih live (pool.set j (pool[live])) (by omega)
        (by rw [List.length_set]; omega) t
      cases hrun : samplePool next fuel left live (pool.set j (pool[live])) t with
      | error h =>
        rw [hrun] at hrest
        exact hrest
      | ok p =>
        rw [hrun] at hrest
        obtain ⟨hlen,rest,hperm⟩ := hrest
        refine ⟨by simp [hlen],rest,?_⟩
        exact (hperm.cons _).trans (overwrite_perm hv hw (by omega))

/-- The passes over a pool do not look at its values. -/
theorem samplePool_map {P : Type} (f : P → V) (left live : Nat) (pool : List P) (s : σ) :
    samplePool next fuel left live (pool.map f) s=
      (samplePool next fuel left live pool s).map fun r => (r.1.map f,r.2) := by
  induction left generalizing live pool s with
  | zero => rfl
  | succ left ih =>
    rw [samplePool,samplePool]
    cases randbelow next fuel live s with
    | error h => rfl
    | ok p =>
      obtain ⟨j,t⟩ := p
      simp only [List.getElem?_map]
      cases pool[j.toNat]? with
      | none => rfl
      | some v =>
        cases pool[live-1]? with
        | none => rfl
        | some w =>
          simp only [Option.map_some,← List.map_set,ih]
          cases samplePool next fuel left (live-1) (pool.set j.toNat w) t with
          | error h => rfl
          | ok p => rfl

/-- Values at as many distinct positions of a population. -/
def Chosen (population : List V) (k : Nat) (vs : List V) : Prop :=
  ∃ positions : List (Fin population.length),
    positions.Nodup ∧ positions.length=k ∧ vs=positions.map population.get

theorem samplePool_drawn (population : List V) {k : Nat} (hk : k≤population.length) (s : σ) :
    Ends (Chosen population k) (samplePool next fuel k population.length population s) := by
  have hpositions := samplePool_ends next fuel k population.length
    (List.finRange population.length) hk (by simp) s
  have hmap := samplePool_map next fuel population.get k population.length
    (List.finRange population.length) s
  rw [List.map_get_finRange] at hmap
  rw [hmap]
  cases hrun : samplePool next fuel k population.length (List.finRange population.length) s with
  | error h =>
    rw [hrun] at hpositions
    exact hpositions
  | ok p =>
    rw [hrun] at hpositions
    obtain ⟨hlen,rest,hperm⟩ := hpositions
    refine ⟨p.1,?_,hlen,rfl⟩
    have hnodup := hperm.nodup_iff.mpr ((List.take_sublist _ _).nodup (List.nodup_finRange _))
    exact hnodup.of_append_left

theorem freshPosition_ends {n : Nat} (hn : 0<n) (selected : List Nat) (tries : Nat) (s : σ) :
    Ends (fun j => j<n ∧ j ∉ selected) (freshPosition next fuel n selected tries s) := by
  induction tries generalizing s with
  | zero => rfl
  | succ tries ih =>
    rw [freshPosition]
    obtain hdraw | ⟨j,t,hj,hdraw⟩ := randbelow_cases next fuel (n := n) (by omega) s
    · rw [hdraw]
      rfl
    · rw [hdraw]
      simp only [Int.toNat_natCast]
      by_cases hin : j ∈ selected
      · simp only [List.contains_iff_mem,hin,if_true]
        exact ih t
      · simp only [List.contains_iff_mem,hin,if_false]
        exact ⟨by omega,hin⟩

theorem sampleSelected_ends (population : List V) (hn : population≠[]) (left : Nat)
    (selected : List Nat) (s : σ) :
    Ends (fun vs => ∃ positions : List (Fin population.length),positions.Nodup ∧
        positions.length=left ∧ (∀ p ∈ positions,p.val ∉ selected) ∧
        vs=positions.map population.get)
      (sampleSelected next fuel population left selected s) := by
  induction left generalizing selected s with
  | zero => exact ⟨[],List.nodup_nil,rfl,by simp,rfl⟩
  | succ left ih =>
    have hfresh := freshPosition_ends next fuel (List.length_pos_iff.mpr hn) selected fuel s
    rw [sampleSelected]
    cases hdraw : freshPosition next fuel population.length selected fuel s with
    | error h =>
      rw [hdraw] at hfresh
      exact hfresh
    | ok p =>
      obtain ⟨j,t⟩ := p
      rw [hdraw] at hfresh
      obtain ⟨hj,hnew⟩ := hfresh
      simp only [List.getElem?_eq_getElem hj]
      have hrest := ih (j::selected) t
      cases hrun : sampleSelected next fuel population left (j::selected) t with
      | error h =>
        rw [hrun] at hrest
        exact hrest
      | ok p =>
        rw [hrun] at hrest
        obtain ⟨positions,hnodup,hlen,hfree,hvs⟩ := hrest
        refine ⟨⟨j,hj⟩::positions,?_,by simp [hlen],?_,by simp [hvs]⟩
        · refine List.nodup_cons.mpr ⟨fun hmem => ?_,hnodup⟩
          exact hfree _ hmem (List.mem_cons_self ..)
        · intro p hp
          cases hp with
          | head => exact hnew
          | tail _ hp => exact fun hin => hfree p hp (List.mem_cons_of_mem _ hin)

theorem chosen_ends (population : List V) (setsize k : Nat) (hk : k ≤ population.length) (s : σ) :
    Ends (Chosen population k)
      (if population.length ≤ setsize then samplePool next fuel k population.length population s
        else sampleSelected next fuel population k [] s) := by
  by_cases hsize : population.length ≤ setsize
  · rw [if_pos hsize]
    exact samplePool_drawn next fuel population hk s
  · rw [if_neg hsize]
    have hn : population≠[] := List.ne_nil_of_length_pos (by omega)
    have hends := sampleSelected_ends next fuel population hn k [] s
    exact hends.imp fun vs ⟨positions,hnodup,hlen,_,hvs⟩ => ⟨positions,hnodup,hlen,hvs⟩

theorem sample_ends (extra : Nat → Nat) (population : List V) (k : Nat) (s : σ) :
    Ends (fun r => if population.length<k then ∃ m,r=.error (valueError m)
      else ∃ vs,Chosen population k vs ∧ r=.ok vs) (sample next fuel extra population k s) := by
  rw [sample]
  by_cases hlt : population.length<k
  · simp only [hlt,if_true]
    exact ⟨_,rfl⟩
  · have hchosen := chosen_ends next fuel population (21+(if 5<k then extra k else 0)) k
      (by omega) s
    simp only [hlt,if_false]
    split
    · rename_i h hrun
      rw [hrun] at hchosen
      exact hchosen
    · rename_i vs t hrun
      rw [hrun] at hchosen
      exact ⟨vs,hchosen,rfl⟩

/-- Every selection is well formed, over any source of words: it never reads outside its list, and
only its rejection loops can keep it from ending. -/
structure WellFormed (s : σ) : Prop where
  randbelow : ∀ n,0<n → Ends (fun r => 0 ≤ r ∧ r<n) (randbelow next fuel n s)
  randint : ∀ x y a b,asBigint x=some a → asBigint y=some b →
    Ends (fun r => if b<a then ∃ m,r=.error (valueError m)
      else ∃ c,a ≤ c ∧ c ≤ b ∧ r=.ok (intFromBigint c)) (randint next fuel [x,y] s)
  randrange : ∀ args range,rangeOf args=some range →
    Ends (fun r => if range=[] then ∃ m,r=.error (valueError m)
      else ∃ x ∈ range,r=.ok (intFromBigint x)) (randrange next fuel args s)
  shuffle : ∀ items : List Value,Ends (List.Perm · items) (shuffle next fuel items s)
  sample : ∀ (extra : Nat → Nat) (population : List Value) (k : Nat),
    Ends (fun r => if population.length<k then ∃ m,r=.error (valueError m)
      else ∃ vs,Chosen population k vs ∧ r=.ok vs) (sample next fuel extra population k s)

theorem selections_wellFormed (s : σ) : WellFormed next fuel s where
  randbelow := fun _ hn => randbelow_ends next fuel hn s
  randint := fun _ _ _ _ hx hy => randint_ends next fuel hx hy s
  randrange := fun _ _ h => randrange_ends next fuel h s
  shuffle := fun items => shuffleFrom_ends next fuel _ items (by omega) s
  sample := fun extra population k => sample_ends next fuel extra population k s

end Draws

end InterpretThis.Random
