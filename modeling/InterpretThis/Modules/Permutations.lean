import InterpretThis.Modules.Combinations
import Mathlib.Data.List.GetD
import Mathlib.Data.Nat.Factorial.Basic

namespace InterpretThis
namespace Itertools

open Enumeration

section Ranks

/-- The items that the ranks choose, each among those left. -/
def pick : List ℕ → List ℕ → List ℕ
  | _,[] => []
  | T,k::ks => T.getD k 0::pick (T.eraseIdx k) ks

/-- The items chosen by the ranks, and those left behind them. -/
def arrange : List ℕ → List ℕ → List ℕ
  | T,[] => T
  | T,k::ks => T.getD k 0::arrange (T.eraseIdx k) ks

/-- The items left by the ranks. -/
def leftOver : List ℕ → List ℕ → List ℕ
  | T,[] => T
  | T,k::ks => leftOver (T.eraseIdx k) ks

/-- The cycles of the ranks: how many choices each entry still has. -/
def remaining : ℕ → List ℕ → List ℕ
  | _,[] => []
  | m,k::ks => (m-k)::remaining (m-1) ks

/-- The ranks of a permutation: each below the number of items left. -/
def shrinking (n : ℕ) : Bounds where
  lo _ := 0
  hi p := n-p.length

variable {n r : ℕ} {T p q ks : List ℕ}

theorem arrange_append : arrange T (p++q)=pick T p++arrange (leftOver T p) q := by
  induction p generalizing T with
  | nil => rfl
  | cons k p ih => rw [List.cons_append,arrange,ih,pick,leftOver,List.cons_append]

theorem length_pick : (pick T ks).length=ks.length := by
  induction ks generalizing T with
  | nil => rfl
  | cons k ks ih => rw [pick,List.length_cons,ih,List.length_cons]

theorem take_arrange : (arrange T ks).take ks.length=pick T ks := by
  have h := arrange_append (T := T) (p := ks) (q := [])
  rw [List.append_nil] at h
  rw [h,List.take_left' length_pick]

theorem shrinking_step {T : List ℕ} {k : ℕ} (hT : T.length=n-p.length) (hk : k<n-p.length) :
    (T.eraseIdx k).length=n-(p++[k]).length := by
  rw [List.length_eraseIdx_of_lt (by omega),List.length_append,List.length_singleton,hT]
  omega

theorem length_leftOver (hT : T.length=n-p.length) (hq : Follows (shrinking n) p q) :
    (leftOver T q).length=n-(p++q).length := by
  induction q generalizing T p with
  | nil => rw [leftOver,hT,List.append_nil]
  | cons k q ih =>
    obtain ⟨-,hk,hq⟩ := hq
    rw [leftOver,ih (shrinking_step hT hk) hq,List.append_cons p k q]

theorem arrange_zeros {m : ℕ} (hm : m≤T.length) : arrange T (List.replicate m 0)=T := by
  induction m generalizing T with
  | zero => rfl
  | succ m ih =>
    cases T with
    | nil => exact absurd hm (Nat.not_succ_le_zero _)
    | cons a T =>
      rw [List.replicate_succ,arrange,List.eraseIdx_zero,List.tail_cons,
        ih (Nat.le_of_succ_le_succ hm)]
      rfl

theorem remaining_append : remaining n (p++q)=remaining n p++remaining (n-p.length) q := by
  induction p generalizing n with
  | nil => rfl
  | cons k p ih =>
    rw [List.cons_append,remaining,ih,remaining,List.cons_append,List.length_cons]
    congr 3
    omega

theorem length_remaining : (remaining n ks).length=ks.length := by
  induction ks generalizing n with
  | nil => rfl
  | cons k ks ih => rw [remaining,List.length_cons,ih,List.length_cons]

theorem remaining_zeros (hr : r≤ n) :
    remaining n (List.replicate r 0)=(List.range' (n-r+1) r).reverse := by
  induction r generalizing n with
  | zero => rfl
  | succ r ih =>
    rw [List.replicate_succ,remaining,ih (by omega),List.range'_concat,List.reverse_append,
      List.reverse_singleton,List.singleton_append]
    congr 2
    · omega
    · congr 1
      omega

/-- The array and the cycles of `permutations` for some ranks. -/
def stateOf (n : ℕ) (ks : List ℕ) : List ℕ×List ℕ := (arrange (List.range n) ks,remaining n ks)

theorem stateOf_level {k m : ℕ} (hp : Follows (shrinking n) [] p) (hk : k<n-p.length)
    (hm : p.length+1+m≤n) : stateOf n (p++k::List.replicate m 0)=
      (pick (List.range n) p++(leftOver (List.range n) p).getD k 0::
        (leftOver (List.range n) p).eraseIdx k,
      remaining n p++(n-p.length-k)::remaining (n-p.length-1) (List.replicate m 0)) := by
  have hlen : (leftOver (List.range n) p).length=n-p.length :=
    length_leftOver (p := []) List.length_range hp
  have hroom : m≤((leftOver (List.range n) p).eraseIdx k).length := by
    rw [List.length_eraseIdx_of_lt (by omega)]
    omega
  rw [stateOf,arrange_append,arrange,arrange_zeros hroom,remaining_append,remaining]

section At

variable {P Y : List ℕ} {i : ℕ}

theorem getD_at (hP : P.length=i) (x : ℕ) : (P++x::Y).getD i 0=x := by
  rw [← hP,getD_append_cons]

theorem set_at (hP : P.length=i) (x y : ℕ) : (P++x::Y).set i y=P++y::Y := by
  rw [← hP,set_append_cons]

theorem eraseIdx_at (hP : P.length=i) (x : ℕ) : (P++x::Y).eraseIdx i=P++Y := by
  rw [← hP,List.eraseIdx_append_of_length_le (le_refl _),Nat.sub_self,List.eraseIdx_zero,
    List.tail_cons]

theorem swap_at (hP : P.length=i) (x a : ℕ) :
    swap (P++x::Y) i (i+1+a)=P++Y.getD a 0::Y.set a x := by
  have hget : (P++x::Y).getD (i+1+a) 0=Y.getD a 0 := by
    have h := getD_append_right (P++[x]) Y a
    rwa [List.append_assoc,List.singleton_append,List.length_append,List.length_singleton,hP] at h
  rw [swap,getD_at hP,hget,set_at hP,List.set_append_right _ _ (by omega)]
  have hoff : i+1+a-P.length=a+1 := by omega
  rw [hoff,List.set_cons_succ]

end At

theorem rotate_last {R : List ℕ} {k : ℕ} (hR : R.length=k+1) :
    R.eraseIdx k++[R.getD k 0]=R.getD 0 0::R.eraseIdx 0 := by
  obtain ⟨init,x,rfl⟩ : ∃ init x,R=init++[x] :=
    ⟨R.dropLast,R.getLast (by rintro rfl; cases hR),(List.dropLast_append_getLast _).symm⟩
  have hk : init.length=k := by simpa using hR
  rw [eraseIdx_at hk,getD_at hk,List.append_nil]
  cases init <;> rfl

theorem choose_next {R : List ℕ} {a : ℕ} (ha : a+1<R.length) :
    (R.eraseIdx a).getD a 0=R.getD (a+1) 0 ∧
    (R.eraseIdx a).set a (R.getD a 0)=R.eraseIdx (a+1) := by
  induction a generalizing R with
  | zero =>
    match R,ha with
    | x::y::R,_ => exact ⟨rfl,rfl⟩
  | succ a ih =>
    match R,ha with
    | x::R,ha =>
      obtain ⟨hget,hset⟩ := ih (R := R) (Nat.lt_of_succ_lt_succ ha)
      exact ⟨hget,congrArg (x::·) hset⟩

theorem peel_permutation {m : ℕ} (hp : Follows (shrinking n) [] p) (hm : p.length+1+m≤n) :
    advancePermutation n (p.length+1) (stateOf n (p++(n-p.length-1)::List.replicate m 0))=
      advancePermutation n p.length (stateOf n (p++0::List.replicate m 0)) := by
  have hlen : (leftOver (List.range n) p).length=n-p.length-1+1 := by
    have h := length_leftOver (p := []) (T := List.range n) List.length_range hp
    rw [List.nil_append] at h
    omega
  have hP : (pick (List.range n) p).length=p.length := length_pick
  have hC : (remaining n p).length=p.length := length_remaining
  have hused : n-p.length-(n-p.length-1)-1=0 := by omega
  rw [stateOf_level hp (by omega) hm,stateOf_level hp (by omega) hm,advancePermutation]
  simp only [getD_at hC,hused,if_pos]
  rw [eraseIdx_at hP,getD_at hP,set_at hC,List.append_assoc,rotate_last hlen,Nat.sub_zero]

theorem scan_permutation {e : ℕ} (hp : Follows (shrinking n) [] p) (he : p.length+e≤n) :
    advancePermutation n (p.length+e) (stateOf n (p++greatest (shrinking n) e p))=
      advancePermutation n p.length (stateOf n (p++List.replicate e 0)) := by
  induction e generalizing p with
  | zero => rfl
  | succ e ih =>
    have hhi : (shrinking n).hi p-1=n-p.length-1 := rfl
    have hstep : Follows (shrinking n) [] (p++[n-p.length-1]) := by
      refine follows_append.mpr ⟨hp,Nat.zero_le _,?_,trivial⟩
      change n-p.length-1<n-p.length
      omega
    have hlen : (p++[n-p.length-1]).length=p.length+1 := by simp
    have hrec := ih hstep (by omega)
    rw [hlen,← List.append_cons,← List.append_cons] at hrec
    rw [greatest,hhi,← Nat.add_assoc,Nat.add_right_comm,hrec,
      peel_permutation hp (by omega),List.replicate_succ]

theorem shrinking_least (e : ℕ) (p : List ℕ) : least (shrinking n) e p=List.replicate e 0 := by
  induction e generalizing p with
  | zero => rfl
  | succ e ih => rw [least,ih,List.replicate_succ]; rfl

theorem step_permutation (hr : r≤ n) {a e : ℕ} (hq : Follows (shrinking n) [] q)
    (hlen : q.length+1+e=r) (ha : a+1<n-q.length) :
    advancePermutation n r (stateOf n (q++a::greatest (shrinking n) e (q++[a])))=
      some (stateOf n (q++(a+1)::least (shrinking n) e (q++[a+1]))) := by
  have hqa : Follows (shrinking n) [] (q++[a]) := by
    refine follows_append.mpr ⟨hq,Nat.zero_le _,?_,trivial⟩
    change a<n-q.length
    omega
  have hla : (q++[a]).length=q.length+1 := by simp
  have hscan := scan_permutation (e := e) hqa (by omega)
  have hlen' : (leftOver (List.range n) q).length=n-q.length := by
    have h := length_leftOver (p := []) (T := List.range n) List.length_range hq
    rwa [List.nil_append] at h
  have hP : (pick (List.range n) q).length=q.length := length_pick
  have hC : (remaining n q).length=q.length := length_remaining
  obtain ⟨hget,hset⟩ := choose_next (R := leftOver (List.range n) q) (a := a) (by omega)
  have hleft : n-q.length-a-1≠0 := by omega
  have htotal : (pick (List.range n) q++(leftOver (List.range n) q).getD a 0::
      (leftOver (List.range n) q).eraseIdx a).length=n := by
    rw [List.length_append,List.length_cons,List.length_eraseIdx_of_lt (by omega),hP,hlen']
    omega
  have hindex : n-(n-q.length-a-1)=q.length+1+a := by omega
  have hcycle : n-q.length-a-1=n-q.length-(a+1) := by omega
  rw [hla,hlen,← List.append_cons,← List.append_cons] at hscan
  rw [hscan,shrinking_least,stateOf_level hq (by omega) (by omega),
    stateOf_level hq (by omega) (by omega),advancePermutation]
  simp only [getD_at hC,if_neg hleft,htotal,hindex]
  rw [swap_at hP,hget,hset,set_at hC,hcycle]

theorem last_permutation (hr : r≤ n) :
    advancePermutation n r (stateOf n (greatest (shrinking n) r []))=none := by
  have hscan := scan_permutation (n := n) (p := []) (e := r) trivial (by simpa using hr)
  rw [List.length_nil,Nat.zero_add,List.nil_append] at hscan
  rw [hscan]
  rfl

theorem shrinking_open (hr : r≤ n) : Open (shrinking n) r [] := by
  intro q _ hlen
  rw [List.nil_append]
  change 0<n-q.length
  omega

end Ranks

section Picks

variable {n : ℕ} {T p : List ℕ}

theorem getD_mem {k : ℕ} (hk : k<T.length) : T.getD k 0∈T := by
  rw [List.getD_eq_getElem _ _ hk]
  exact List.getElem_mem hk

theorem eraseIdx_rank {k : ℕ} (hT : T.Nodup) (hk : k<T.length) :
    T.eraseIdx k=T.erase (T.getD k 0) := by
  rw [List.getD_eq_getElem _ _ hk]
  exact (List.erase_eq_eraseIdx_of_idxOf (hT.idxOf_getElem k hk)).symm

/-- The ranks choose the lists of distinct items. -/
theorem mem_pick (hT : T.Nodup) (hlen : T.length=n-p.length) (idx : List ℕ) :
    (∃ ks,Follows (shrinking n) p ks ∧ pick T ks=idx) ↔ idx.Nodup ∧ ∀ x∈idx,x∈T := by
  induction idx generalizing T p with
  | nil =>
    refine iff_of_true ⟨[],trivial,rfl⟩ ⟨List.nodup_nil,?_⟩
    exact fun x hx => absurd hx List.not_mem_nil
  | cons x t ih =>
    constructor
    · rintro ⟨ks,hks,hpick⟩
      cases ks with
      | nil => cases hpick
      | cons k ks =>
        obtain ⟨-,hk,hks⟩ := hks
        have hk : k<n-p.length := hk
        obtain ⟨rfl,ht⟩ := List.cons_eq_cons.mp hpick
        have hrank := eraseIdx_rank hT (hlen ▸ hk)
        obtain ⟨hnodup,hmem⟩ := (ih (hT.eraseIdx k) (shrinking_step hlen hk)).mp ⟨ks,hks,ht⟩
        refine ⟨List.nodup_cons.mpr ⟨fun hx => ?_,hnodup⟩,List.forall_mem_cons.mpr
          ⟨getD_mem (hlen ▸ hk),fun y hy => List.mem_of_mem_eraseIdx (hmem y hy)⟩⟩
        have herase := hmem _ hx
        rw [hrank] at herase
        exact hT.not_mem_erase herase
    · rintro ⟨hnodup,hmem⟩
      obtain ⟨hxt,hnodup⟩ := List.nodup_cons.mp hnodup
      obtain ⟨hx,hmem⟩ := List.forall_mem_cons.mp hmem
      obtain ⟨k,hk,hget⟩ := List.mem_iff_getElem.mp hx
      have hgetD : T.getD k 0=x := (List.getD_eq_getElem _ _ hk).trans hget
      have hrank := eraseIdx_rank hT hk
      rw [hgetD] at hrank
      have hrest : ∀ y∈t,y∈T.eraseIdx k := by
        intro y hy
        rw [hrank,hT.mem_erase_iff]
        exact ⟨fun hyx => hxt (hyx ▸ hy),hmem y hy⟩
      have hk' : k<n-p.length := hlen ▸ hk
      obtain ⟨ks,hks,ht⟩ := (ih (hT.eraseIdx k) (shrinking_step hlen hk')).mpr ⟨hnodup,hrest⟩
      refine ⟨k::ks,⟨Nat.zero_le _,hk',hks⟩,?_⟩
      rw [pick,hgetD,ht]

theorem pick_lex (hT : T.Pairwise (·<·)) (hlen : T.length=n-p.length) {ks ls : List ℕ}
    (hls : Follows (shrinking n) p ls) (h : List.Lex (·<·) ks ls) :
    List.Lex (·<·) (pick T ks) (pick T ls) := by
  induction h generalizing T p with
  | nil => exact List.Lex.nil
  | cons h ih =>
    obtain ⟨-,hl,hls⟩ := hls
    exact List.Lex.cons (ih (hT.eraseIdx _) (shrinking_step hlen hl) hls)
  | @rel k ks l ls hkl =>
    obtain ⟨-,hl,-⟩ := hls
    have hl : l<T.length := hlen ▸ hl
    refine List.Lex.rel ?_
    rw [List.getD_eq_getElem _ _ hl,List.getD_eq_getElem _ _ (hkl.trans hl)]
    exact List.pairwise_iff_getElem.mp hT k l _ hl hkl

theorem shrinking_count (d : ℕ) (p : List ℕ) :
    (paths (shrinking n) d p).length=(n-p.length).descFactorial d := by
  induction d generalizing p with
  | zero => rfl
  | succ d ih =>
    have hone : ∀ a,((paths (shrinking n) d (p++[a])).map (a::·)).length=
        (n-p.length-1).descFactorial d := by
      intro a
      rw [List.length_map,ih,List.length_append,List.length_singleton]
      congr 1
    have hspan : (shrinking n).hi p-(shrinking n).lo p=n-p.length := rfl
    rw [paths,List.length_flatMap]
    simp only [hone,hspan]
    rw [List.map_const',List.sum_replicate,List.length_range',smul_eq_mul]
    cases n-p.length with
    | zero => rw [Nat.zero_mul,Nat.zero_descFactorial_succ]
    | succ m => rw [Nat.succ_descFactorial_succ]; rfl

end Picks

section Permutations

variable {V : Type}

/-- `permutations` lists the tuples of distinct positions. -/
theorem permutations_enumerate (items : List V) (r : ℕ) :
    ∃ result,Ends (fun fuel => permutations fuel items r) result ∧
      Enumerates (tupleAt items)
        (fun idx => idx.length=r ∧ idx.Nodup ∧ ∀ i∈idx,i < items.length)
        (if r ≤ items.length then items.length.factorial/(items.length-r).factorial else 0)
        result := by
  by_cases hr : r ≤ items.length
  swap
  · refine ⟨[],⟨0,fun fuel _ => ?_⟩,⟨[],rfl,List.Pairwise.nil,fun idx => ?_⟩,?_⟩
    · change permutations fuel items r=_
      rw [permutations,if_pos (by omega)]
    · refine iff_of_false List.not_mem_nil ?_
      rintro ⟨hlen,hnodup,hbound⟩
      have hsub : idx⊆List.range items.length := fun i hi => List.mem_range.mpr (hbound i hi)
      have hgap := (hnodup.subperm hsub).length_le
      rw [List.length_range] at hgap
      omega
    · rw [if_neg hr]
      rfl
  have hvalid : ∀ idx,idx∈(paths (shrinking items.length) r []).map
        (pick (List.range items.length)) ↔
      idx.length=r ∧ idx.Nodup ∧ ∀ i∈idx,i < items.length := by
    intro idx
    have hpick := mem_pick (p := []) (List.nodup_range (n := items.length))
      List.length_range idx
    simp only [List.mem_range] at hpick
    rw [← hpick,List.mem_map]
    constructor
    · rintro ⟨ks,hks,rfl⟩
      obtain ⟨hlen,hks⟩ := mem_paths.mp hks
      exact ⟨length_pick.trans hlen,ks,hks,rfl⟩
    · rintro ⟨hlen,ks,hks,rfl⟩
      exact ⟨ks,mem_paths.mpr ⟨length_pick.symm.trans hlen,hks⟩,rfl⟩
  have hrow : ∀ ks∈paths (shrinking items.length) r [],
      tupleAt items ((stateOf items.length ks).1.take r)=
        tupleAt items (pick (List.range items.length) ks) := by
    intro ks hks
    obtain ⟨hlen,-⟩ := mem_paths.mp hks
    rw [stateOf,← hlen,take_arrange]
  obtain ⟨result,⟨bound,hends⟩,hrows,hlen⟩ := @collect_paths _ _ _ _ _
    (fun s => tupleAt items (s.1.take r)) (stateOf items.length) (shrinking_open hr)
    (fun q a e hq hlen _ ha => step_permutation hr hq hlen ha) (last_permutation hr)
    (fun ks hks => by
      rw [hrow ks hks]
      exact tupleAt_some ((hvalid _).mp (List.mem_map_of_mem hks)).2.2)
  have hpicked : ((paths (shrinking items.length) r []).map (pick (List.range items.length))).mapM
      (tupleAt items)=some result := by
    rw [List.mapM_map,← hrows]
    exact mapM_congr fun ks hks => (hrow ks hks).symm
  have hlex : ((paths (shrinking items.length) r []).map
      (pick (List.range items.length))).Pairwise (List.Lex (·<·)) := by
    rw [List.pairwise_map]
    refine (paths_lex r []).imp_of_mem fun _ hls h => ?_
    exact pick_lex (p := []) List.pairwise_lt_range List.length_range (mem_paths.mp hls).2 h
  refine ⟨result,⟨bound,fun fuel hfuel => ?_⟩,⟨_,hpicked,hlex,hvalid⟩,?_⟩
  · change permutations fuel items r=_
    rw [permutations,if_neg (by omega)]
    by_cases hr0 : r=0
    · subst hr0
      rw [if_pos rfl]
      exact hpicked
    · have hstart : stateOf items.length (least (shrinking items.length) r [])=
          (List.range items.length,(List.range' (items.length-r+1) r).reverse) := by
        rw [shrinking_least,stateOf,arrange_zeros (by rwa [List.length_range]),remaining_zeros hr]
      rw [if_neg hr0,← hstart]
      exact hends fuel hfuel
  · rw [hlen,shrinking_count,if_pos hr,← Nat.descFactorial_eq_div hr]
    rfl

end Permutations

variable {V : Type}

section Products

/-- The tuples of a product, the last pool fastest. -/
def grid : List (List V) → List (List V)
  | [] => [[]]
  | pool::pools => pool.flatMap fun item => (grid pools).map (item::·)

/-- The entries for a product: a position in each pool. -/
def inPools (pools : List (List V)) : Bounds where
  lo _ := 0
  hi p := (pools.getD p.length []).length

theorem foldl_extend (pools : List (List V)) (acc : List (List V)) :
    pools.foldl extend acc=acc.flatMap fun combo => (grid pools).map (combo++·) := by
  induction pools generalizing acc with
  | nil => simp [grid]
  | cons pool pools ih =>
    rw [List.foldl_cons,ih,extend,List.flatMap_assoc]
    congr 1
    funext combo
    rw [List.flatMap_map,grid,List.map_flatMap]
    congr 1
    funext item
    rw [List.map_map]
    congr 1
    funext t
    exact (List.append_cons combo item t).symm

theorem grid_empty {pools : List (List V)} (h : []∈pools) : grid pools=[] := by
  induction pools with
  | nil => exact absurd h List.not_mem_nil
  | cons pool pools ih =>
    rw [grid]
    rcases List.mem_cons.mp h with rfl | h
    · rfl
    · rw [ih h]
      simp

theorem cartesianProduct_grid (pools : List (List V)) : cartesianProduct pools=grid pools := by
  have hfold : pools.foldl extend [[]]=grid pools := by
    rw [foldl_extend,List.flatMap_singleton]
    exact List.map_id _
  rw [cartesianProduct]
  split_ifs with hnil hany
  · rw [List.isEmpty_iff.mp hnil]
    rfl
  · obtain ⟨pool,hpool,hempty⟩ := List.any_eq_true.mp hany
    rw [List.isEmpty_iff.mp hempty] at hpool
    exact (grid_empty hpool).symm
  · exact hfold

theorem length_grid (pools : List (List V)) : (grid pools).length=(pools.map List.length).prod := by
  induction pools with
  | nil => rfl
  | cons pool pools ih => simp [grid,List.length_flatMap,ih]

theorem inPools_follows {pools rest : List (List V)} {p : List ℕ}
    (hrest : pools.drop p.length=rest) (idx : List ℕ) :
    idx.length=rest.length ∧ Follows (inPools pools) p idx ↔
      List.Forall₂ (fun i pool => i<pool.length) idx rest := by
  induction idx generalizing p rest with
  | nil =>
    cases rest with
    | nil => exact iff_of_true ⟨rfl,trivial⟩ List.Forall₂.nil
    | cons pool rest =>
      refine iff_of_false (fun h => ?_) fun h => ?_
      · cases h.1
      · cases h
  | cons i idx ih =>
    cases rest with
    | nil =>
      refine iff_of_false (fun h => ?_) fun h => ?_
      · cases h.1
      · cases h
    | cons pool rest =>
      have hpool : pools.getD p.length []=pool := by
        rw [List.getD_eq_getElem?_getD,← List.head?_drop,hrest]
        rfl
      have htail : pools.drop (p++[i]).length=rest := by
        rw [List.length_append,List.length_singleton,← List.drop_drop,hrest]
        rfl
      have hhi : (inPools pools).hi p=pool.length := congrArg List.length hpool
      rw [List.forall₂_cons,← ih htail,Follows,hhi,List.length_cons,List.length_cons,
        Nat.succ_inj]
      constructor
      · rintro ⟨hlen,-,hi,hfollows⟩
        exact ⟨hi,hlen,hfollows⟩
      · rintro ⟨hi,hlen,hfollows⟩
        exact ⟨hlen,Nat.zero_le _,hi,hfollows⟩

theorem mapM_append {α β : Type} {f : α → Option β} {xs ys : List α} {us vs : List β}
    (hx : xs.mapM f=some us) (hy : ys.mapM f=some vs) : (xs++ys).mapM f=some (us++vs) := by
  rw [List.mapM_append,hx,hy]
  rfl

theorem block_rows {pool : List V} {row : ℕ → List (List ℕ)} {tuple : List ℕ → Option (List V)}
    {tuples : V → List (List V)}
    (hrow : ∀ i item,pool[i]?=some item → (row i).mapM tuple=some (tuples item)) (m : ℕ) :
    ((List.range' m (pool.length-m)).flatMap row).mapM tuple=
      some ((pool.drop m).flatMap tuples) := by
  induction hk : pool.length-m generalizing m with
  | zero =>
    rw [List.drop_eq_nil_of_le (by omega)]
    rfl
  | succ k ih =>
    have hm : m<pool.length := by omega
    have hhead := hrow m _ (List.getElem?_eq_getElem hm)
    have htail := ih (m+1) (by omega)
    rw [List.range'_succ,List.flatMap_cons,List.drop_eq_getElem_cons hm,List.flatMap_cons]
    exact mapM_append hhead htail

theorem mapM_each {α β γ : Type} {f : α → Option β} {g : β → γ} {xs : List α} {ys : List β}
    (h : xs.mapM f=some ys) : xs.mapM (fun x => (f x).map g)=some (ys.map g) := by
  induction xs generalizing ys with
  | nil =>
    obtain rfl : []=ys := Option.some.inj h
    rfl
  | cons x xs ih =>
    rw [List.mapM_cons] at h
    obtain ⟨y,hy,h⟩ := Option.bind_eq_some_iff.mp h
    obtain ⟨zs,hzs,h⟩ := Option.bind_eq_some_iff.mp h
    obtain rfl : y::zs=ys := Option.some.inj h
    rw [List.mapM_cons,hy,ih hzs]
    rfl

theorem product_rows {pools rest : List (List V)} {p : List ℕ}
    (hrest : pools.drop p.length=rest) :
    (paths (inPools pools) rest.length p).mapM (tupleFrom rest)=some (grid rest) := by
  induction rest generalizing p with
  | nil => rfl
  | cons pool rest ih =>
    have hpool : pools.getD p.length []=pool := by
      rw [List.getD_eq_getElem?_getD,← List.head?_drop,hrest]
      rfl
    have hhi : (inPools pools).hi p-(inPools pools).lo p=pool.length-0 :=
      congrArg List.length hpool
    have hlo : (inPools pools).lo p=0 := rfl
    rw [List.length_cons,paths,hhi,hlo,grid]
    refine block_rows (fun i item hitem => ?_) 0
    have htail : pools.drop (p++[i]).length=rest := by
      rw [List.length_append,List.length_singleton,← List.drop_drop,hrest]
      rfl
    have hcons : (fun t => tupleFrom (pool::rest) (i::t))=
        fun t => (tupleFrom rest t).map (item::·) := by
      funext t
      rw [tupleFrom,List.zip_cons_cons,List.mapM_cons,hitem]
      exact (Option.map_eq_bind).symm
    rw [List.mapM_map]
    change (paths (inPools pools) rest.length (p++[i])).mapM
      (fun t => tupleFrom (pool::rest) (i::t))=some _
    rw [hcons]
    exact mapM_each (ih htail)

theorem product_enumerates (pools : List (List V)) :
    Enumerates (tupleFrom pools)
      (fun idx => List.Forall₂ (fun i pool => i<pool.length) idx pools)
      (pools.map List.length).prod (cartesianProduct pools) := by
  rw [cartesianProduct_grid]
  refine ⟨⟨_,product_rows (p := []) rfl,paths_lex _ _,fun idx => ?_⟩,length_grid pools⟩
  rw [mem_paths]
  exact inPools_follows (p := []) rfl idx

end Products

section Exact

/-- The combinatoric functions end, and list the tuples of exactly their positions in order. -/
theorem combinatorics_exact (items : List V) (r : ℕ) (pools : List (List V)) :
    (∃ result,Ends (fun fuel => combinations fuel items r) result ∧
      Enumerates (tupleAt items)
        (fun idx => idx.length=r ∧ idx.Pairwise (·<·) ∧ ∀ i∈idx,i < items.length)
        (items.length.choose r) result) ∧
    (∃ result,Ends (fun fuel => combinationsWithReplacement fuel items r) result ∧
      Enumerates (tupleAt items)
        (fun idx => idx.length=r ∧ idx.Pairwise (·≤·) ∧ ∀ i∈idx,i < items.length)
        ((items.length+r-1).choose r) result) ∧
    (∃ result,Ends (fun fuel => permutations fuel items r) result ∧
      Enumerates (tupleAt items)
        (fun idx => idx.length=r ∧ idx.Nodup ∧ ∀ i∈idx,i < items.length)
        (if r ≤ items.length then items.length.factorial/(items.length-r).factorial else 0)
        result) ∧
    Enumerates (tupleFrom pools)
      (fun idx => List.Forall₂ (fun i pool => i<pool.length) idx pools)
      (pools.map List.length).prod (cartesianProduct pools) :=
  ⟨combinations_enumerates items r,replacements_enumerate items r,
    permutations_enumerate items r,product_enumerates pools⟩

example : permutations 4 [7,8,9] 2=none := by decide

example : permutations 6 [7,8,9] 2=some [[7,8],[7,9],[8,7],[8,9],[9,7],[9,8]] := by decide

end Exact

end Itertools
end InterpretThis
