import InterpretThis.Framework.StableSort
import Mathlib.Data.List.Nodup
import Mathlib.Order.Basic
import Mathlib.Order.Lattice
import Mathlib.Algebra.Ring.Int.Defs

namespace InterpretThis.Tally

section Maps

variable {K V W : Type} [DecidableEq K]

def find (k : K) : List (K×V) → Option V
  | [] => none
  | e::es => if e.1=k then some e.2 else find k es

/-- A key keeps its place when it is set; a new one goes last. -/
def put (k : K) (v : V) : List (K×V) → List (K×V)
  | [] => [(k,v)]
  | e::es => if e.1=k then (k,v)::es else e::put k v es

def Distinct (m : List (K×V)) : Prop := (m.map Prod.fst).Nodup

def mapValues (g : V → W) (m : List (K×V)) : List (K×W) := m.map fun e => (e.1,g e.2)

variable {k : K} {v : V} {m : List (K×V)} (g : V → W)

@[simp] theorem mapValues_nil : mapValues g ([] : List (K×V))=[] := rfl

@[simp] theorem keys_mapValues : (mapValues g m).map Prod.fst=m.map Prod.fst := by
  simp [mapValues]

theorem find_mapValues (m : List (K×V)) : find k (mapValues g m)=(find k m).map g := by
  induction m with
  | nil => rfl
  | cons e es ih =>
    rw [mapValues,List.map_cons,find,find]
    by_cases hk : e.1=k
    · rw [if_pos hk,if_pos hk]
      rfl
    · rw [if_neg hk,if_neg hk]
      exact ih

theorem mapValues_put (m : List (K×V)) : mapValues g (put k v m)=put k (g v) (mapValues g m) := by
  induction m with
  | nil => rfl
  | cons e es ih =>
    rw [put,mapValues,mapValues,List.map_cons,put]
    by_cases hk : e.1=k
    · rw [if_pos hk,if_pos hk]
      rfl
    · rw [if_neg hk,if_neg hk,List.map_cons]
      exact congrArg _ ih

theorem find_put (j : K) : find j (put k v m)=if k=j then some v else find j m := by
  induction m with
  | nil => rfl
  | cons e es ih =>
    rw [put]
    by_cases hk : e.1=k
    · rw [if_pos hk,find,find]
      by_cases hj : k=j
      · rw [if_pos hj,if_pos hj]
      · rw [if_neg hj,if_neg hj,if_neg (hk ▸ hj)]
    · rw [if_neg hk,find,find,ih]
      by_cases hj : k=j
      · rw [if_pos hj,if_neg (hj ▸ hk),if_pos hj]
      · rw [if_neg hj,if_neg hj]

theorem find_none_iff : find k m=none ↔ k ∉ m.map Prod.fst := by
  induction m with
  | nil => simp [find]
  | cons e es ih =>
    rw [find]
    by_cases hk : e.1=k
    · simp [hk]
    · rw [if_neg hk,ih]
      simp [Ne.symm hk]

theorem mem_of_find {v : V} (h : find k m=some v) : (k,v) ∈ m := by
  induction m with
  | nil => cases h
  | cons e es ih =>
    rw [find] at h
    by_cases hk : e.1=k
    · rw [if_pos hk] at h
      cases h
      cases hk
      exact List.mem_cons_self ..
    · rw [if_neg hk] at h
      exact List.mem_cons_of_mem _ (ih h)

theorem find_of_mem {e : K×V} (hd : Distinct m) (he : e∈m) : find e.1 m=some e.2 := by
  induction m with
  | nil => cases he
  | cons d m ih =>
    obtain ⟨hfresh,htail⟩ := List.nodup_cons.mp hd
    rw [find]
    rcases List.mem_cons.mp he with rfl|he
    · rw [if_pos rfl]
    · have other : d.1≠e.1 := fun h => hfresh (h ▸ List.mem_map_of_mem he)
      rw [if_neg other,ih htail he]

theorem put_new (h : find k m=none) : put k v m=m++[(k,v)] := by
  induction m with
  | nil => rfl
  | cons e es ih =>
    rw [find] at h
    rw [put]
    by_cases hk : e.1=k
    · rw [if_pos hk] at h
      cases h
    · rw [if_neg hk] at h ⊢
      rw [ih h]
      rfl

theorem keys_put : (put k v m).map Prod.fst=
    if k ∈ m.map Prod.fst then m.map Prod.fst else m.map Prod.fst++[k] := by
  induction m with
  | nil => rfl
  | cons e es ih =>
    rw [put]
    by_cases hk : e.1=k
    · simp [hk]
    · rw [if_neg hk,List.map_cons,ih]
      by_cases hin : k ∈ es.map Prod.fst
      · simp [hin]
      · simp [hin,Ne.symm hk]

theorem distinct_put (h : Distinct m) : Distinct (put k v m) := by
  rw [Distinct,keys_put]
  by_cases hin : k ∈ m.map Prod.fst
  · rw [if_pos hin]
    exact h
  · rw [if_neg hin]
    exact h.append (List.nodup_singleton k) (by simpa using hin)

/-- Entries that are put one after another under keys not used yet. -/
theorem foldl_put_new {U : Type} (p : K×U → Bool) (f : K×U → V) :
    ∀ (es : List (K×U)) (m : List (K×V)),Distinct es → (∀ e ∈ es,find e.1 m=none) →
      es.foldl (fun m e => if p e then put e.1 (f e) m else m) m=
        m++(es.filter p).map fun e => (e.1,f e)
  | [],m,_,_ => by simp
  | e::es,m,hd,hnew => by
    obtain ⟨hfirst,hrest⟩ := List.nodup_cons.mp hd
    have hold : ∀ d ∈ es,find d.1 m=none := fun d hin => hnew d (List.mem_cons_of_mem _ hin)
    rw [List.foldl_cons]
    by_cases hp : p e=true
    · have hput := put_new (v := f e) (hnew e (List.mem_cons_self ..))
      rw [if_pos hp,hput,foldl_put_new p f es _ hrest ?_,List.filter_cons_of_pos hp]
      · simp
      · intro d hin
        have hkeys := find_none_iff.mp (hold d hin)
        refine find_none_iff.mpr fun hmem => ?_
        rw [List.map_append,List.mem_append] at hmem
        obtain hmem | hmem := hmem
        · exact hkeys hmem
        · have heq : d.1=e.1 := by simpa using hmem
          exact hfirst (heq ▸ List.mem_map_of_mem hin)
    · rw [if_neg hp,foldl_put_new p f es m hrest hold,List.filter_cons_of_neg hp]

end Maps

section Counts

variable {K : Type} [DecidableEq K]

def count (m : List (K×Int)) (k : K) : Int := (find k m).getD 0

def change (sign : Int) (m : List (K×Int)) (e : K×Int) : List (K×Int) :=
  put e.1 (count m e.1+sign*e.2) m

theorem count_change {sign : Int} {m : List (K×Int)} {e : K×Int} (k : K) :
    count (change sign m e) k=if e.1=k then count m e.1+sign*e.2 else count m k := by
  rw [count,change,find_put]
  by_cases hk : e.1=k
  · rw [if_pos hk,if_pos hk]
    rfl
  · rw [if_neg hk,if_neg hk]
    rfl

theorem distinct_changes {sign : Int} (es : List (K×Int)) {m : List (K×Int)} (h : Distinct m) :
    Distinct (es.foldl (change sign) m) := by
  induction es generalizing m with
  | nil => exact h
  | cons e es ih => exact ih (distinct_put h)

/-- The positive results for the keys of either multiset, those of the first one first. -/
def combine (f : Int → Int → Int) (a b : List (K×Int)) : List (K×Int) :=
  ((a.map fun e => (e.1,f e.2 (count b e.1)))++
    ((b.filter fun e => (find e.1 a).isNone).map fun e => (e.1,f 0 e.2))).filter (0 < ·.2)

def total (m : List (K×Int)) : Int := (m.map Prod.snd).sum

def elements (m : List (K×Int)) : List K := m.flatMap fun e => List.replicate e.2.toNat e.1

theorem distinct_combine (f : Int → Int → Int) {a b : List (K×Int)} (ha : Distinct a)
    (hb : Distinct b) : Distinct (combine f a b) := by
  have hkeys : Distinct ((a.map fun e => (e.1,f e.2 (count b e.1)))++
      ((b.filter fun e => (find e.1 a).isNone).map fun e => (e.1,f 0 e.2))) := by
    rw [Distinct,List.map_append,List.map_map,List.map_map]
    refine List.Nodup.append ha ?_ ?_
    · exact hb.sublist (List.filter_sublist.map _)
    · intro k hka hkb
      obtain ⟨e,he,rfl⟩ := List.mem_map.mp hkb
      have hnone := (List.mem_filter.mp he).2
      rw [Option.isNone_iff_eq_none,find_none_iff] at hnone
      exact hnone hka
  exact hkeys.sublist (List.filter_sublist.map _)

end Counts

section Ranking

variable {α β : Type} [LinearOrder β] (key : α → β)

theorem descending_trans (a b c : α) (hab : decide (key b ≤ key a)=true)
    (hbc : decide (key c ≤ key b)=true) : decide (key c ≤ key a)=true := by
  simp only [decide_eq_true_eq] at hab hbc ⊢
  exact hbc.trans hab

theorem descending_total (a b : α) : (decide (key b ≤ key a) || decide (key a ≤ key b))=true := by
  simp only [Bool.or_eq_true,decide_eq_true_eq]
  exact le_total _ _

theorem tied_key (a b : α) :
    tied (fun a b => decide (key b<key a)) a b=decide (key a=key b) := by
  rw [Bool.eq_iff_iff,tied_iff]
  simp only [decide_eq_false_iff_not,not_lt,decide_eq_true_eq]
  exact ⟨fun h => le_antisymm h.1 h.2,fun h => ⟨h.le,h.ge⟩⟩

/-- Sorting by a key, greatest first, is stable. -/
theorem stableSorted_mergeSort (xs : List α) :
    StableSorted (fun a b => decide (key b<key a)) xs
      (xs.mergeSort fun a b => decide (key b ≤ key a)) where
  perm := List.mergeSort_perm _ _
  ordered := by
    have hsorted := List.pairwise_mergeSort (descending_trans key) (descending_total key) xs
    exact hsorted.imp fun {a b} hab => by simpa using hab
  kept := by
    intro a _
    have hp := List.mergeSort_perm xs fun a b => decide (key b ≤ key a)
    have hties : (xs.filter (tied (fun a b => decide (key b<key a)) a)).Pairwise
        fun b c => decide (key c ≤ key b)=true := by
      refine List.pairwise_of_forall_mem_list fun b hb c hc => ?_
      have hkb := (List.mem_filter.mp hb).2
      have hkc := (List.mem_filter.mp hc).2
      rw [tied_key,decide_eq_true_eq] at hkb hkc
      simp [← hkb,← hkc]
    have hsub := List.sublist_mergeSort (descending_trans key) (descending_total key) hties
      List.filter_sublist
    have hkept := hsub.filter (tied (fun a b => decide (key b<key a)) a)
    rw [List.filter_filter] at hkept
    simp only [Bool.and_self] at hkept
    exact (hkept.eq_of_length (hp.filter _).length_eq.symm).symm

theorem stableSorted_map {γ : Type} {lt : α → α → Bool} {lt' : γ → γ → Bool} {g : α → γ}
    (hg : ∀ a b,lt' (g a) (g b)=lt a b) {xs out : List α} (h : StableSorted lt xs out) :
    StableSorted lt' (xs.map g) (out.map g) where
  perm := h.perm.map g
  ordered := by
    rw [List.pairwise_map]
    exact h.ordered.imp fun {a b} hab => by rw [hg,hab]
  kept := by
    intro c hc
    obtain ⟨a,ha,rfl⟩ := List.mem_map.mp hc
    have htied : tied lt' (g a)∘g=tied lt a := by
      funext b
      rw [Function.comp,tied,tied,hg,hg]
    rw [List.filter_map,List.filter_map,htied,h.kept a ha]

end Ranking

end InterpretThis.Tally
