import Mathlib.Data.List.Nodup

namespace InterpretThis.Recency

variable {K : Type} [DecidableEq K]

def age (uses : List K) (k : K) : ℕ := uses.idxOf k

/-- Distinct keys that have all been used, listed by their last use, the earliest first. -/
structure Ordered (uses keys : List K) : Prop where
  nodup : keys.Nodup
  used : ∀ k∈keys,k∈uses
  sorted : keys.Pairwise fun a b => age uses b<age uses a

/-- A key among others that no other was last used before, when `same` tells keys apart. -/
def LeastRecent {A : Type} (same : A → A → Bool) (uses keys : List A) (k : A) : Prop :=
  k∈keys ∧ ∀ k'∈keys,uses.findIdx (same k')≤uses.findIdx (same k)

theorem age_head (uses : List K) (k : K) : age (k::uses) k=0 := List.idxOf_cons_self

theorem age_cons {uses : List K} {k k' : K} (h : k'≠k) : age (k::uses) k'=age uses k'+1 := by
  rw [age,age,List.idxOf_cons_ne _ (Ne.symm h)]

namespace Ordered

variable {uses keys : List K} {k : K}

theorem empty (uses : List K) : Ordered uses [] where
  nodup := List.nodup_nil
  used := fun _ h => nomatch h
  sorted := List.Pairwise.nil

theorem tail (h : Ordered uses (k::keys)) : Ordered uses keys where
  nodup := (List.nodup_cons.mp h.nodup).2
  used := fun k' hk => h.used k' (List.mem_cons_of_mem _ hk)
  sorted := (List.pairwise_cons.mp h.sorted).2

/-- The first key is the least recent one; `f` gives the classes of `same`. -/
theorem head {A : Type} {same : A → A → Bool} {f : A → K} {uses keys : List A} {k : A}
    (h : Ordered (uses.map f) ((k::keys).map f))
    (hsame : ∀ a∈k::keys,∀ u∈uses,same a u=true ↔ f a=f u) : LeastRecent same uses (k::keys) k := by
  have hage (a : A) (ha : a∈k::keys) : uses.findIdx (same a)=age (uses.map f) (f a) := by
    rw [age,List.idxOf,List.findIdx_map]
    have hall := hsame a ha
    clear h hsame
    induction uses with
    | nil => rfl
    | cons u uses ih =>
      rw [List.findIdx_cons,List.findIdx_cons,ih fun u hu => hall u (List.mem_cons_of_mem _ hu)]
      have hu : same a u=(f u==f a) := by
        rw [Bool.eq_iff_iff,hall u List.mem_cons_self,beq_iff_eq,eq_comm]
      rw [hu]
      rfl
  refine ⟨List.mem_cons_self,fun k' hk => ?_⟩
  rw [hage k' hk,hage k List.mem_cons_self]
  cases hk with
  | head => exact Nat.le_refl _
  | tail _ hk =>
    exact Nat.le_of_lt ((List.pairwise_cons.mp h.sorted).1 (f k') (List.mem_map_of_mem hk))

/-- A use moves its key to the end, or puts it there. -/
theorem touch (h : Ordered uses keys) (k : K) :
    Ordered (k::uses) (keys.filter (fun k' => k'≠k)++[k]) := by
  have hother (k' : K) (hk : k'∈keys.filter fun k' => k'≠k) : k'∈keys ∧ k'≠k := by
    rw [List.mem_filter,decide_eq_true_eq] at hk
    exact hk
  constructor
  · rw [List.nodup_append]
    refine ⟨h.nodup.filter _,List.nodup_singleton k,fun a ha b hb => ?_⟩
    rw [List.mem_singleton] at hb
    rw [hb]
    exact (hother a ha).2
  · intro k' hk
    rw [List.mem_append,List.mem_singleton] at hk
    cases hk with
    | inl hk => exact List.mem_cons_of_mem _ (h.used k' (hother k' hk).1)
    | inr hk =>
      rw [hk]
      exact List.mem_cons_self
  · rw [List.pairwise_append]
    refine ⟨?_,List.pairwise_singleton _ _,fun a ha b hb => ?_⟩
    · refine (h.sorted.filter _).imp_of_mem fun {a b} ha hb hab => ?_
      rw [age_cons (hother a ha).2,age_cons (hother b hb).2]
      exact Nat.succ_lt_succ hab
    · rw [List.mem_singleton] at hb
      rw [hb,age_head,age_cons (hother a ha).2]
      exact Nat.succ_pos _

end Ordered

end InterpretThis.Recency
