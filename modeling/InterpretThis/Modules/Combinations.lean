import InterpretThis.Framework.Enumeration
import Mathlib.Data.Nat.Choose.Basic
import Mathlib.Data.Sym.Card
import Mathlib.Algebra.GroupWithZero.Nat

namespace InterpretThis
namespace Itertools

open Enumeration

variable {V : Type}

/-- The tuple of the items at the given positions; a position behind the items panics. -/
def tupleAt (items : List V) (indices : List ℕ) : Option (List V) := indices.mapM (items[·]?)

section Combinations

/-- `for j in j..`, `m` times: each entry becomes one more than the entry before it. -/
def refill : List ℕ → ℕ → ℕ → List ℕ
  | indices,_,0 => indices
  | indices,j,m+1 => refill (indices.set j (indices.getD (j-1) 0+1)) (j+1) m

/-- The scan of `combinations` from the right, with `i` entries still to look at. -/
def advanceCombination (n r : ℕ) : ℕ → List ℕ → Option (List ℕ)
  | 0,_ => none
  | i+1,indices =>
    if indices.getD i 0≠i+n-r then
      some (refill (indices.set i (indices.getD i 0+1)) (i+1) (r-(i+1)))
    else advanceCombination n r i indices

/-- `combinations`; `none` when the loop runs longer than the fuel. -/
def combinations (fuel : ℕ) (items : List V) (r : ℕ) : Option (List (List V)) :=
  let n := items.length
  if n < r then some []
  else if r=0 then some [[]]
  else collect (advanceCombination n r r) (tupleAt items) fuel (List.range r)

/-- The scan of `combinations_with_replacement`. -/
def advanceReplacement (n : ℕ) : ℕ → List ℕ → Option (List ℕ)
  | 0,_ => none
  | i+1,indices =>
    if indices.getD i 0≠n-1 then
      let v := indices.getD i 0+1
      some (indices.take i++(indices.drop i).map fun _ => v)
    else advanceReplacement n i indices

/-- `combinations_with_replacement`. -/
def combinationsWithReplacement (fuel : ℕ) (items : List V) (r : ℕ) : Option (List (List V)) :=
  let n := items.length
  if n=0 then if r=0 then some [[]] else some []
  else collect (advanceReplacement n r) (tupleAt items) fuel (List.replicate r 0)

end Combinations

section Permutations

def swap (indices : List ℕ) (i j : ℕ) : List ℕ :=
  (indices.set i (indices.getD j 0)).set j (indices.getD i 0)

/-- The `for i in (0..r).rev()` of `permutations`: a cycle that is used up rotates its entry to the
end and starts again, the first that is not swaps. -/
def advancePermutation (n : ℕ) : ℕ → List ℕ×List ℕ → Option (List ℕ×List ℕ)
  | 0,_ => none
  | i+1,(indices,cycles) =>
    let c := cycles.getD i 0-1
    if c=0 then
      advancePermutation n i (indices.eraseIdx i++[indices.getD i 0],cycles.set i (n-i))
    else some (swap indices i (indices.length-c),cycles.set i c)

/-- `permutations`. -/
def permutations (fuel : ℕ) (items : List V) (r : ℕ) : Option (List (List V)) :=
  let n := items.length
  if n < r then some []
  else if r=0 then some [[]]
  else collect (advancePermutation n r) (fun s => tupleAt items (s.1.take r)) fuel
    (List.range n,(List.range' (n-r+1) r).reverse)

end Permutations

section Products

/-- One round of `cartesian_product`. -/
def extend (result : List (List V)) (pool : List V) : List (List V) :=
  result.flatMap fun combo => pool.map fun item => combo++[item]

/-- `cartesian_product`. -/
def cartesianProduct (pools : List (List V)) : List (List V) :=
  if pools.isEmpty then [[]]
  else if pools.any List.isEmpty then []
  else pools.foldl extend [[]]

end Products

section Statement

def tupleFrom (pools : List (List V)) (indices : List ℕ) : Option (List V) :=
  (pools.zip indices).mapM fun s => s.1[s.2]?

/-- A result lists the tuples of exactly the valid positions, in lexicographic order and each
once. -/
structure Enumerates (row : List ℕ → Option (List V)) (valid : List ℕ → Prop) (count : ℕ)
    (result : List (List V)) : Prop where
  rows : ∃ positions : List (List ℕ),positions.mapM row=some result ∧
    positions.Pairwise (List.Lex (·<·)) ∧ ∀ idx,idx∈positions ↔ valid idx
  length : result.length=count

end Statement

section Rows

variable {items : List V} {indices : List ℕ}

theorem tupleAt_some (h : ∀ i∈indices,i < items.length) : ∃ row,tupleAt items indices=some row := by
  obtain ⟨row,hrow,-⟩ := @mapM_some _ _ (fun i => items[i]?) indices fun i hi =>
    ⟨items.get ⟨i,h i hi⟩,List.getElem?_eq_getElem (h i hi)⟩
  exact ⟨row,hrow⟩

theorem getD_append_cons (p : List ℕ) (a : ℕ) (t : List ℕ) : (p++a::t).getD p.length 0=a := by
  simp [List.getD_eq_getElem?_getD]

theorem getD_append_right (p t : List ℕ) (m : ℕ) : (p++t).getD (p.length+m) 0=t.getD m 0 := by
  rw [List.getD_eq_getElem?_getD,List.getD_eq_getElem?_getD,
    List.getElem?_append_right (Nat.le_add_right _ _),Nat.add_sub_cancel_left]

theorem set_append_cons (p : List ℕ) (a b : ℕ) (t : List ℕ) :
    (p++a::t).set p.length b=p++b::t := by
  simp

theorem getD_range' {a m i : ℕ} (h : i < m) : (List.range' a m).getD i 0=a+i := by
  simp [List.getD_eq_getElem?_getD,h]

theorem getD_replicate {a m i : ℕ} (h : i < m) : (List.replicate m a).getD i 0=a := by
  simp [List.getD_eq_getElem?_getD,h]

end Rows

section Combinations

variable {n r : ℕ}

/-- The entries of a combination: above the one before, with room for those behind. -/
def above (n r : ℕ) : Bounds where
  lo p := p.getLast?.elim 0 (·+1)
  hi p := n-r+p.length+1

theorem above_lo (p : List ℕ) (a : ℕ) : (above n r).lo (p++[a])=a+1 := by
  simp [above]

theorem above_open (r : ℕ) : Open (above n r) r [] := by
  intro q hq _
  rw [List.nil_append]
  induction q using List.reverseRecOn with
  | nil => exact Nat.succ_pos _
  | append_singleton q a _ =>
    obtain ⟨-,hlast⟩ := follows_append.mp hq
    have ha : a<n-r+q.length+1 := hlast.2.1
    rw [above_lo]
    simp only [above,List.length_append,List.length_singleton]
    omega

theorem above_least (e : ℕ) (p : List ℕ) (a : ℕ) :
    least (above n r) e (p++[a])=List.range' (a+1) e := by
  induction e generalizing p a with
  | zero => rfl
  | succ e ih => rw [least,above_lo,ih,List.range'_succ]

theorem above_least_nil (r : ℕ) (d : ℕ) : least (above n r) d []=List.range d := by
  cases d with
  | zero => rfl
  | succ d =>
    have hlo : (above n r).lo []=0 := rfl
    rw [least,hlo,above_least,List.range_eq_range',List.range'_succ]

theorem above_greatest (e : ℕ) (p : List ℕ) :
    greatest (above n r) e p=List.range' (n-r+p.length) e := by
  induction e generalizing p with
  | zero => rfl
  | succ e ih =>
    have hhi : (above n r).hi p-1=n-r+p.length := rfl
    rw [greatest,hhi,ih,List.range'_succ,List.length_append,List.length_singleton]
    rfl

theorem scan_combination (hr : r≤ n) (p : List ℕ) (m : ℕ) {e : ℕ} (hm : m≤e) :
    advanceCombination n r (p.length+m) (p++List.range' (n-r+p.length) e)=
      advanceCombination n r p.length (p++List.range' (n-r+p.length) e) := by
  induction m with
  | zero => rfl
  | succ m ih =>
    have hentry : (p++List.range' (n-r+p.length) e).getD (p.length+m) 0=p.length+m+n-r := by
      rw [getD_append_right,getD_range' (by omega)]
      omega
    rw [Nat.add_succ,advanceCombination,hentry,if_neg (not_not.mpr rfl)]
    exact ih (by omega)

theorem refill_range (q : List ℕ) (b : ℕ) (t : List ℕ) :
    refill (q++b::t) (q.length+1) t.length=q++b::List.range' (b+1) t.length := by
  induction t generalizing q b with
  | nil => rfl
  | cons x t ih =>
    have hset : (q++b::x::t).set (q.length+1) ((q++b::x::t).getD (q.length+1-1) 0+1)=
        q++[b]++(b+1)::t := by
      rw [Nat.add_sub_cancel,getD_append_cons]
      simp
    have hlen : q.length+1+1=(q++[b]).length+1 := by simp
    rw [List.length_cons,refill,hset,hlen,ih,List.range'_succ]
    simp

theorem step_combination (hr : r≤ n) {q : List ℕ} {a e : ℕ} (hlen : q.length+1+e=r)
    (ha : a+1<(above n r).hi q) :
    advanceCombination n r r (q++a::greatest (above n r) e (q++[a]))=
      some (q++(a+1)::least (above n r) e (q++[a+1])) := by
  have hentry : a≠q.length+n-r := by
    simp only [above] at ha
    omega
  have hsplit : q++a::greatest (above n r) e (q++[a])=
      q++[a]++List.range' (n-r+(q++[a]).length) e := by
    rw [above_greatest]
    simp
  have hrest : r-(q.length+1)=(List.range' (n-r+(q++[a]).length) e).length := by
    rw [List.length_range']
    omega
  have hindex : r=(q++[a]).length+e := by
    rw [List.length_append,List.length_singleton]
    omega
  have hscan := scan_combination hr (q++[a]) e (le_refl e)
  rw [← hindex] at hscan
  rw [hsplit,hscan,List.length_append,List.length_singleton,advanceCombination,List.append_assoc,List.singleton_append,
    getD_append_cons,if_pos hentry,set_append_cons]
  rw [List.length_append,List.length_singleton] at hrest
  rw [hrest,refill_range,above_least,List.length_range']

theorem last_combination (hr : r≤ n) :
    advanceCombination n r r (greatest (above n r) r [])=none := by
  have hscan := scan_combination hr [] r (le_refl r)
  rw [List.length_nil,Nat.zero_add,List.nil_append] at hscan
  rw [above_greatest,List.length_nil,hscan]
  rfl

theorem length_increasing {t : List ℕ} {lo : ℕ} (ht : t.Pairwise (·<·)) (hlo : ∀ x∈t,lo≤x)
    (hhi : ∀ x∈t,x<n) : t.length≤ n-lo := by
  induction t generalizing lo with
  | nil => exact Nat.zero_le _
  | cons a t ih =>
    obtain ⟨ha,ht⟩ := List.pairwise_cons.mp ht
    have hrec := @ih (a+1) ht ha fun x hx => hhi x (List.mem_cons_of_mem _ hx)
    have hla := hlo a List.mem_cons_self
    have hna := hhi a List.mem_cons_self
    rw [List.length_cons]
    omega

theorem above_follows (hr : r≤ n) {p q : List ℕ} (hlen : p.length+q.length=r) :
    Follows (above n r) p q ↔
      q.Pairwise (·<·) ∧ (∀ x∈q,x<n) ∧ ∀ x∈q,(above n r).lo p≤x := by
  induction q generalizing p with
  | nil => simp [Follows]
  | cons a t ih =>
    rw [List.length_cons] at hlen
    have hrec := ih (p := p++[a]) (by rw [List.length_append,List.length_singleton]; omega)
    rw [Follows,hrec,above_lo,List.pairwise_cons]
    simp only [List.forall_mem_cons]
    have hhi : (above n r).hi p=n-r+p.length+1 := rfl
    rw [hhi]
    constructor
    · rintro ⟨hla,hha,ht,hbound,hmin⟩
      refine ⟨⟨hmin,ht⟩,⟨by omega,hbound⟩,hla,fun x hx => ?_⟩
      have hax := hmin x hx
      omega
    · rintro ⟨⟨hmin,ht⟩,⟨hna,hbound⟩,hla,-⟩
      have hgap := @length_increasing _ _ (a+1) ht hmin hbound
      exact ⟨hla,by omega,ht,hbound,hmin⟩

theorem sum_choose (n d m a : ℕ) (hm : m=n-a+1-(d+1)) :
    ((List.range' a m).map fun b => (n-(b+1)).choose d).sum=(n-a).choose (d+1) := by
  induction m generalizing a with
  | zero =>
    rw [Nat.choose_eq_zero_of_lt (by omega)]
    rfl
  | succ m ih =>
    obtain ⟨k,hk⟩ : ∃ k,n-a=k+1 := ⟨n-a-1,by omega⟩
    have hrest := ih (a+1) (by omega)
    have hka : n-(a+1)=k := by omega
    rw [List.range'_succ,List.map_cons,List.sum_cons,hrest,hka,hk,Nat.choose_succ_succ]

theorem above_count (hr : r≤ n) {d : ℕ} {p : List ℕ} (hlen : p.length+d=r) :
    (paths (above n r) d p).length=(n-(above n r).lo p).choose d := by
  induction d generalizing p with
  | zero => rw [Nat.choose_zero_right]; rfl
  | succ d ih =>
    have hhi : (above n r).hi p=n-r+p.length+1 := rfl
    have hone : ∀ a,((paths (above n r) d (p++[a])).map (a::·)).length=
        (n-(a+1)).choose d := by
      intro a
      rw [List.length_map,ih (by rw [List.length_append,List.length_singleton]; omega),above_lo]
    rw [paths,List.length_flatMap]
    simp only [hone]
    exact sum_choose n d _ _ (by rw [hhi]; omega)

/-- `combinations` lists the strictly increasing tuples of positions. -/
theorem combinations_enumerates (items : List V) (r : ℕ) :
    ∃ result,Ends (fun fuel => combinations fuel items r) result ∧
      Enumerates (tupleAt items)
        (fun idx => idx.length=r ∧ idx.Pairwise (·<·) ∧ ∀ i∈idx,i < items.length)
        (items.length.choose r) result := by
  by_cases hr : r ≤ items.length
  swap
  · refine ⟨[],⟨0,fun fuel _ => ?_⟩,⟨[],rfl,List.Pairwise.nil,fun idx => ?_⟩,?_⟩
    · change combinations fuel items r=_
      rw [combinations,if_pos (by omega)]
    · refine iff_of_false List.not_mem_nil ?_
      rintro ⟨hlen,hinc,hbound⟩
      have hgap := @length_increasing _ _ 0 hinc (fun _ _ => Nat.zero_le _) hbound
      omega
    · rw [Nat.choose_eq_zero_of_lt (by omega)]
      rfl
  have hvalid : ∀ idx,idx∈paths (above items.length r) r [] ↔
      idx.length=r ∧ idx.Pairwise (·<·) ∧ ∀ i∈idx,i < items.length := by
    intro idx
    rw [mem_paths]
    refine and_congr_right fun hlen => ?_
    rw [above_follows hr (by rw [hlen]; exact Nat.zero_add r)]
    exact ⟨fun h => ⟨h.1,h.2.1⟩,fun h => ⟨h.1,h.2,fun _ _ => Nat.zero_le _⟩⟩
  obtain ⟨result,⟨bound,hends⟩,hrows,hlen⟩ := @collect_paths _ _ _ _ _ _ id (above_open r)
    (fun q a e _ hlen _ ha => step_combination hr hlen ha) (last_combination hr)
    (fun q hq => tupleAt_some ((hvalid q).mp hq).2.2)
  refine ⟨result,⟨bound,fun fuel hfuel => ?_⟩,⟨_,hrows,paths_lex _ _,hvalid⟩,?_⟩
  · change combinations fuel items r=_
    rw [combinations,if_neg (by omega)]
    by_cases hr0 : r=0
    · subst hr0
      rw [if_pos rfl]
      exact hrows
    · rw [if_neg hr0,← above_least_nil r r]
      exact hends fuel hfuel
  · rw [hlen,above_count hr (Nat.zero_add r)]
    rfl

end Combinations

section Replacement

variable {n r : ℕ}

/-- The entries of a combination with replacement: no less than the one before. -/
def onwards (n : ℕ) : Bounds where
  lo p := p.getLast?.getD 0
  hi _ := n

theorem onwards_lo (p : List ℕ) (a : ℕ) : (onwards n).lo (p++[a])=a := by
  simp [onwards]

theorem onwards_open (hn : 0<n) (r : ℕ) : Open (onwards n) r [] := by
  intro q hq _
  rw [List.nil_append]
  induction q using List.reverseRecOn with
  | nil => exact hn
  | append_singleton q a _ =>
    obtain ⟨-,hlast⟩ := follows_append.mp hq
    rw [onwards_lo]
    exact hlast.2.1

theorem onwards_least (e : ℕ) (p : List ℕ) :
    least (onwards n) e p=List.replicate e ((onwards n).lo p) := by
  induction e generalizing p with
  | zero => rfl
  | succ e ih => rw [least,ih,onwards_lo,List.replicate_succ]

theorem onwards_greatest (e : ℕ) (p : List ℕ) :
    greatest (onwards n) e p=List.replicate e (n-1) := by
  induction e generalizing p with
  | zero => rfl
  | succ e ih => rw [greatest,ih,List.replicate_succ]; rfl

theorem scan_replacement (p : List ℕ) (m : ℕ) {e : ℕ} (hm : m≤e) :
    advanceReplacement n (p.length+m) (p++List.replicate e (n-1))=
      advanceReplacement n p.length (p++List.replicate e (n-1)) := by
  induction m with
  | zero => rfl
  | succ m ih =>
    have hentry : (p++List.replicate e (n-1)).getD (p.length+m) 0=n-1 := by
      rw [getD_append_right,getD_replicate (by omega)]
    rw [Nat.add_succ,advanceReplacement,hentry,if_neg (not_not.mpr rfl)]
    exact ih (by omega)

theorem step_replacement {q : List ℕ} {a e : ℕ} (hlen : q.length+1+e=r) (ha : a+1<n) :
    advanceReplacement n r (q++a::greatest (onwards n) e (q++[a]))=
      some (q++(a+1)::least (onwards n) e (q++[a+1])) := by
  have hentry : a≠n-1 := by omega
  have hsplit : q++a::greatest (onwards n) e (q++[a])=q++[a]++List.replicate e (n-1) := by
    rw [onwards_greatest]
    simp
  have hindex : r=(q++[a]).length+e := by
    rw [List.length_append,List.length_singleton]
    omega
  have hscan := scan_replacement (n := n) (q++[a]) e (le_refl e)
  rw [← hindex] at hscan
  rw [hsplit,hscan,List.length_append,List.length_singleton,advanceReplacement,
    List.append_assoc,List.singleton_append,getD_append_cons,if_pos hentry,onwards_least,
    onwards_lo,List.take_left' rfl,List.drop_left' rfl]
  simp

theorem last_replacement : advanceReplacement n r (greatest (onwards n) r [])=none := by
  have hscan := scan_replacement (n := n) [] r (le_refl r)
  rw [List.length_nil,Nat.zero_add,List.nil_append] at hscan
  rw [onwards_greatest,hscan]
  rfl

theorem onwards_follows {p q : List ℕ} : Follows (onwards n) p q ↔
    q.Pairwise (·≤·) ∧ (∀ x∈q,x<n) ∧ ∀ x∈q,(onwards n).lo p≤x := by
  induction q generalizing p with
  | nil => simp [Follows]
  | cons a t ih =>
    have hhi : (onwards n).hi p=n := rfl
    rw [Follows,ih,onwards_lo,List.pairwise_cons,hhi]
    simp only [List.forall_mem_cons]
    constructor
    · rintro ⟨hla,hha,ht,hbound,hmin⟩
      exact ⟨⟨hmin,ht⟩,⟨hha,hbound⟩,hla,fun x hx => le_trans hla (hmin x hx)⟩
    · rintro ⟨⟨hmin,ht⟩,⟨hna,hbound⟩,hla,-⟩
      exact ⟨hla,hna,ht,hbound,hmin⟩

theorem sum_multichoose (n d m a : ℕ) (hm : m=n-a) :
    ((List.range' a m).map fun b => (n-b).multichoose d).sum=(n-a).multichoose (d+1) := by
  induction m generalizing a with
  | zero =>
    rw [← hm]
    exact (Nat.multichoose_zero_succ d).symm
  | succ m ih =>
    have hrest := ih (a+1) (by omega)
    have hna : n-(a+1)=m := by omega
    rw [List.range'_succ,List.map_cons,List.sum_cons,hrest,← hm,hna,
      Nat.multichoose_succ_succ,Nat.add_comm]

theorem onwards_count (d : ℕ) (p : List ℕ) :
    (paths (onwards n) d p).length=(n-(onwards n).lo p).multichoose d := by
  induction d generalizing p with
  | zero => rw [Nat.multichoose_zero_right]; rfl
  | succ d ih =>
    have hone : ∀ a,((paths (onwards n) d (p++[a])).map (a::·)).length=
        (n-a).multichoose d := by
      intro a
      rw [List.length_map,ih,onwards_lo]
    rw [paths,List.length_flatMap]
    simp only [hone]
    exact sum_multichoose n d _ _ rfl

/-- `combinations_with_replacement` lists the nondecreasing tuples of positions. -/
theorem replacements_enumerate (items : List V) (r : ℕ) :
    ∃ result,Ends (fun fuel => combinationsWithReplacement fuel items r) result ∧
      Enumerates (tupleAt items)
        (fun idx => idx.length=r ∧ idx.Pairwise (·≤·) ∧ ∀ i∈idx,i < items.length)
        ((items.length+r-1).choose r) result := by
  rcases Nat.eq_zero_or_pos items.length with hn | hn
  · cases r with
    | zero =>
      refine ⟨[[]],⟨0,fun fuel _ => ?_⟩,⟨[[]],rfl,List.pairwise_singleton _ _,fun idx => ?_⟩,?_⟩
      · change combinationsWithReplacement fuel items 0=_
        rw [combinationsWithReplacement,if_pos hn,if_pos rfl]
      · rw [List.mem_singleton,List.length_eq_zero_iff]
        constructor
        · rintro rfl
          simp
        · exact And.left
      · rw [Nat.choose_zero_right]
        rfl
    | succ r =>
      refine ⟨[],⟨0,fun fuel _ => ?_⟩,⟨[],rfl,List.Pairwise.nil,fun idx => ?_⟩,?_⟩
      · change combinationsWithReplacement fuel items (r+1)=_
        rw [combinationsWithReplacement,if_pos hn,if_neg (Nat.succ_ne_zero r)]
      · refine iff_of_false List.not_mem_nil ?_
        rintro ⟨hlen,-,hbound⟩
        cases idx with
        | nil => cases hlen
        | cons i t =>
          have hi := hbound i List.mem_cons_self
          omega
      · rw [Nat.choose_eq_zero_of_lt (by omega)]
        rfl
  have hvalid : ∀ idx,idx∈paths (onwards items.length) r [] ↔
      idx.length=r ∧ idx.Pairwise (·≤·) ∧ ∀ i∈idx,i < items.length := by
    intro idx
    rw [mem_paths]
    refine and_congr_right fun _ => ?_
    rw [onwards_follows]
    exact ⟨fun h => ⟨h.1,h.2.1⟩,fun h => ⟨h.1,h.2,fun _ _ => Nat.zero_le _⟩⟩
  obtain ⟨result,⟨bound,hends⟩,hrows,hlen⟩ := @collect_paths _ _ _ _ _ _ id (onwards_open hn r)
    (fun q a e _ hlen _ ha => step_replacement hlen ha) last_replacement
    (fun q hq => tupleAt_some ((hvalid q).mp hq).2.2)
  refine ⟨result,⟨bound,fun fuel hfuel => ?_⟩,⟨_,hrows,paths_lex _ _,hvalid⟩,?_⟩
  · change combinationsWithReplacement fuel items r=_
    rw [combinationsWithReplacement,if_neg (by omega)]
    have hstart : least (onwards items.length) r []=List.replicate r 0 := onwards_least r []
    rw [← hstart]
    exact hends fuel hfuel
  · rw [hlen,onwards_count,← Nat.multichoose_eq]
    rfl

end Replacement

end Itertools
end InterpretThis
