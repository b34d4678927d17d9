import InterpretThis.Framework.Tally
import Mathlib.Data.Set.Basic

namespace InterpretThis.IndexMap

open Tally

variable {K V C : Type}

/-- A map in the order of insertion, whose keys are compared by a test. It has one entry at most for
a key where the test is an equivalence. -/
abbrev Entries (K V : Type) := List (K×V)

section Maps

variable (same : K → K → Bool)

def get (m : Entries K V) (k : K) : Option V := (m.find? fun e => same k e.1).map Prod.snd

/-- A known key stays and takes the new value; a new one goes last. -/
def insert : Entries K V → K → V → Entries K V
  | [],k,v => [(k,v)]
  | e::m,k,v => if same k e.1 then (e.1,v)::m else e::insert m k v

def shiftRemove (m : Entries K V) (k : K) : Entries K V := m.eraseP fun e => same k e.1

def insertAll (m : Entries K V) (es : List (K×V)) : Entries K V :=
  es.foldl (fun m e => insert same m e.1 e.2) m

/-- No key is found under another one. -/
def Unalike (m : Entries K V) : Prop := m.Pairwise fun e f => same f.1 e.1=false

/-- On the keys of `P` the test compares classes. -/
def Classes (P : Set K) (cls : K → C) : Prop := ∀ a∈P,∀ b∈P,same a b=true ↔ cls a=cls b

end Maps

/-- The keys of a map are among those of `P`. -/
def Within (P : Set K) (m : Entries K V) : Prop := ∀ e∈m,e.1∈P

/-- The map with classes for keys. -/
def label (cls : K → C) (m : Entries K V) : List (C×V) := m.map fun e => (cls e.1,e.2)

section Keys

variable {same : K → K → Bool} {m : Entries K V} {k : K} {v : V} {P : Set K}

theorem mem_insert {e : K×V} (h : e∈insert same m k v) :
    (e.1=k ∨ ∃ u,(e.1,u)∈m) ∧ (e.2=v ∨ e∈m) := by
  induction m with
  | nil =>
    rw [List.mem_singleton.mp h]
    exact ⟨.inl rfl,.inl rfl⟩
  | cons d m ih =>
    have older (hm : e∈m) : (e.1=k ∨ ∃ u,(e.1,u)∈d::m) ∧ (e.2=v ∨ e∈d::m) :=
      ⟨.inr ⟨e.2,List.mem_cons_of_mem d hm⟩,.inr (List.mem_cons_of_mem d hm)⟩
    rw [insert] at h
    split at h
    · rcases List.mem_cons.mp h with rfl|h
      · exact ⟨.inr ⟨d.2,List.mem_cons_self⟩,.inl rfl⟩
      · exact older h
    · rcases List.mem_cons.mp h with rfl|h
      · exact ⟨.inr ⟨e.2,List.mem_cons_self⟩,.inr List.mem_cons_self⟩
      · exact (ih h).imp (.imp_right fun hu => hu.imp fun _ => List.mem_cons_of_mem d)
          (.imp_right (List.mem_cons_of_mem d))

theorem unalike_insert (h : Unalike same m) (k : K) (v : V) :
    Unalike same (insert same m k v) := by
  induction m with
  | nil => exact List.pairwise_singleton _ _
  | cons e m ih =>
    obtain ⟨hhead,htail⟩ := List.pairwise_cons.mp h
    rw [insert]
    by_cases hk : same k e.1=true
    · rw [if_pos hk]
      exact List.pairwise_cons.mpr ⟨hhead,htail⟩
    · rw [if_neg hk]
      refine List.pairwise_cons.mpr ⟨fun f hf => ?_,ih htail⟩
      rcases (mem_insert hf).1 with hfk|⟨u,hu⟩
      · rw [hfk]
        exact Bool.eq_false_iff.mpr hk
      · exact hhead (f.1,u) hu

/-- What holds of a map and is kept by each insertion holds once all are made. -/
theorem insertAll_holds {Q : Entries K V → Prop} {es : List (K×V)} (hm : Q m)
    (hes : ∀ e∈es,∀ m',Q m' → Q (insert same m' e.1 e.2)) : Q (insertAll same m es) := by
  induction es generalizing m with
  | nil => exact hm
  | cons e es ih =>
    exact ih (hes e List.mem_cons_self m hm) fun f hf => hes f (List.mem_cons_of_mem e hf)

theorem Within.tail {e : K×V} (h : Within P (e::m)) : Within P m :=
  fun f hf => h f (List.mem_cons_of_mem e hf)

theorem Within.insert (h : Within P m) (hk : k∈P) (v : V) : Within P (insert same m k v) := by
  intro e he
  rcases (mem_insert he).1 with hek|⟨u,hu⟩
  · exact hek ▸ hk
  · exact h (e.1,u) hu

theorem Within.insertAll {es : List (K×V)} (h : Within P m) (hes : Within P es) :
    Within P (insertAll same m es) :=
  insertAll_holds h fun e he _ h => h.insert (hes e he) e.2

end Keys

section Labels

variable [DecidableEq C] {same : K → K → Bool} {P : Set K} {cls : K → C} {m : Entries K V} {k : K}

theorem find_label (hc : Classes same P cls) (hm : Within P m) (hk : k∈P) :
    find (cls k) (label cls m)=get same m k := by
  induction m with
  | nil => rfl
  | cons e m ih =>
    have iff := hc k hk e.1 (hm e List.mem_cons_self)
    rw [label,List.map_cons,find,get,List.find?_cons]
    cases h : same k e.1 with
    | true => exact if_pos (iff.mp h).symm
    | false =>
      rw [h] at iff
      exact (if_neg fun same => Bool.false_ne_true (iff.mpr same.symm)).trans (ih hm.tail)

theorem label_insert (hc : Classes same P cls) (hm : Within P m) (hk : k∈P) (v : V) :
    label cls (insert same m k v)=put (cls k) v (label cls m) := by
  induction m with
  | nil => rfl
  | cons e m ih =>
    have iff := hc k hk e.1 (hm e List.mem_cons_self)
    rw [insert,label,label,List.map_cons,put]
    cases h : same k e.1 with
    | true =>
      have equal := (iff.mp h).symm
      rw [if_pos rfl,if_pos equal,List.map_cons,equal]
    | false =>
      rw [h] at iff
      rw [if_neg Bool.false_ne_true,if_neg fun same => Bool.false_ne_true (iff.mpr same.symm)]
      exact congrArg _ (ih hm.tail)

theorem distinct_label (hc : Classes same P cls) (hm : Within P m) (hu : Unalike same m) :
    Distinct (label cls m) := by
  rw [Distinct,label,List.map_map]
  refine List.pairwise_map.mpr (hu.imp_of_mem fun {e f} he hf h same => ?_)
  have equal := (hc f.1 (hm f hf) e.1 (hm e he)).mpr same.symm
  rw [h] at equal
  exact Bool.false_ne_true equal

theorem get_insert (hc : Classes same P cls) (hm : Within P m) (hk : k∈P) (v : V) {j : K}
    (hj : j∈P) :
    get same (insert same m k v) j=if cls k=cls j then some v else get same m j := by
  rw [← find_label hc (hm.insert hk v) hj,label_insert hc hm hk,find_put,find_label hc hm hj]

theorem get_none_iff (hc : Classes same P cls) (hm : Within P m) (hk : k∈P) :
    get same m k=none ↔ cls k ∉ m.map fun e => cls e.1 := by
  rw [← find_label hc hm hk,find_none_iff,label,List.map_map]
  rfl

/-- The entries of one map over another: its values come first. -/
theorem get_overlay (hc : Classes same P cls) (hm : Within P m) (hu : Unalike same m)
    {out : Entries K V} (ho : Within P out) {j : K} (hj : j∈P) :
    get same (insertAll same out m) j=(get same m j).or (get same out j) := by
  induction m generalizing out with
  | nil => rfl
  | cons e m ih =>
    have he : e.1∈P := hm e List.mem_cons_self
    have inserted : Within P (insert same out e.1 e.2) := ho.insert he e.2
    have step := ih hm.tail (List.pairwise_cons.mp hu).2 inserted
    have own : get same (e::m) j=if cls e.1=cls j then some e.2 else get same m j := by
      rw [← find_label hc hm hj,← find_label hc hm.tail hj]
      rfl
    rw [get_insert hc ho he e.2 hj] at step
    change get same (insertAll same (insert same out e.1 e.2) m) j=_
    rw [step,own]
    by_cases hej : cls e.1=cls j
    · have absent : get same m j=none := by
        rw [get_none_iff hc hm.tail hj,← hej]
        have fresh := (List.nodup_cons.mp (distinct_label hc hm hu)).1
        rwa [List.map_map] at fresh
      rw [if_pos hej,if_pos hej,absent]
      rfl
    · rw [if_neg hej,if_neg hej]

theorem get_of_mem (hc : Classes same P cls) (hm : Within P m) (hu : Unalike same m) {e : K×V}
    (he : e∈m) {j : K} (hj : j∈P) (h : cls e.1=cls j) : get same m j=some e.2 := by
  rw [← find_label hc hm hj,← h]
  exact find_of_mem (distinct_label hc hm hu) (List.mem_map_of_mem (f := fun e => (cls e.1,e.2)) he)

end Labels

end InterpretThis.IndexMap
