import Mathlib.Data.Nat.Notation
import Mathlib.Tactic.ByContra

namespace InterpretThis
namespace Bisection

variable {E S : Type}

def middle (lo hi : ℕ) : ℕ := lo+(hi-lo)/2

theorem middle_bounds {lo hi : ℕ} (h : lo<hi) : lo≤ middle lo hi ∧ middle lo hi<hi := by
  simp only [middle]
  omega

/-- Halve a window until it is empty; a probe of its middle says whether to go right. -/
def search (probe : ℕ → S → Except E Bool×S) (lo hi : ℕ) (s : S) : Except E ℕ×S :=
  if h : lo<hi then
    match probe (middle lo hi) s with
    | (.error e,t) => (.error e,t)
    | (.ok true,t) => search probe (middle lo hi+1) hi t
    | (.ok false,t) => search probe lo (middle lo hi) t
  else (.ok lo,s)
termination_by hi-lo
decreasing_by
  · have hm := middle_bounds h
    omega
  · have hm := middle_bounds h
    omega

/-- Every probe that the search meets answers as the target does. -/
inductive Steered (probe : ℕ → S → Except E Bool×S) (target : ℕ → Prop) : ℕ → ℕ → S → Prop where
  | done {lo hi : ℕ} {s : S} (h : ¬lo<hi) : Steered probe target lo hi s
  | right {lo hi : ℕ} {s t : S} (h : lo<hi) (answer : probe (middle lo hi) s=(.ok true,t))
      (goal : target (middle lo hi)) (rest : Steered probe target (middle lo hi+1) hi t) :
      Steered probe target lo hi s
  | left {lo hi : ℕ} {s t : S} (h : lo<hi) (answer : probe (middle lo hi) s=(.ok false,t))
      (goal : ¬target (middle lo hi)) (rest : Steered probe target lo (middle lo hi) t) :
      Steered probe target lo hi s

section Windows

variable {probe : ℕ → S → Except E Bool×S} {lo hi i : ℕ} {s t : S}

theorem search_done (h : ¬lo<hi) : search probe lo hi s=(.ok lo,s) := by
  rw [search,dif_neg h]

theorem search_error {e : E} (h : lo<hi) (hp : probe (middle lo hi) s=(.error e,t)) :
    search probe lo hi s=(.error e,t) := by
  rw [search,dif_pos h,hp]

theorem search_right (h : lo<hi) (hp : probe (middle lo hi) s=(.ok true,t)) :
    search probe lo hi s=search probe (middle lo hi+1) hi t := by
  rw [search,dif_pos h,hp]

theorem search_left (h : lo<hi) (hp : probe (middle lo hi) s=(.ok false,t)) :
    search probe lo hi s=search probe lo (middle lo hi) t := by
  rw [search,dif_pos h,hp]

theorem search_cases (probe : ℕ → S → Except E Bool×S) (lo hi : ℕ) (s : S) :
    (¬lo<hi ∧ search probe lo hi s=(.ok lo,s)) ∨
    ∃ t,lo<hi ∧ ((∃ e,probe (middle lo hi) s=(.error e,t) ∧ search probe lo hi s=(.error e,t)) ∨
      (probe (middle lo hi) s=(.ok true,t) ∧
        search probe lo hi s=search probe (middle lo hi+1) hi t) ∨
      probe (middle lo hi) s=(.ok false,t) ∧
        search probe lo hi s=search probe lo (middle lo hi) t) := by
  by_cases h : lo<hi
  · right
    cases hp : probe (middle lo hi) s with
    | mk answer t =>
      refine ⟨t,h,?_⟩
      cases answer with
      | error e => exact .inl ⟨e,rfl,search_error h hp⟩
      | ok b =>
        cases b with
        | true => exact .inr (.inl ⟨rfl,search_right h hp⟩)
        | false => exact .inr (.inr ⟨rfl,search_left h hp⟩)
  · exact .inl ⟨h,search_done h⟩

theorem search_range (hle : lo≤hi) (h : (search probe lo hi s).1=.ok i) : lo ≤ i ∧ i≤hi := by
  induction hn : hi-lo using Nat.strongRecOn generalizing lo hi s with
  | _ n ih =>
    obtain ⟨-,hs⟩|⟨t,hlt,⟨e,-,hs⟩|⟨-,hs⟩|⟨-,hs⟩⟩ := search_cases probe lo hi s
    · rw [hs] at h
      cases h
      exact ⟨Nat.le_refl _,hle⟩
    · rw [hs] at h
      cases h
    · have hm := middle_bounds hlt
      rw [hs] at h
      have hrec := ih (hi-(middle lo hi+1)) (by omega) (by omega) h rfl
      exact ⟨by omega,hrec.2⟩
    · have hm := middle_bounds hlt
      rw [hs] at h
      have hrec := ih (middle lo hi-lo) (by omega) hm.1 h rfl
      exact ⟨hrec.1,by omega⟩

/-- A search ends at a point exactly if each probe on the way there points to it. -/
theorem search_iff (hlo : lo ≤ i) (hhi : i≤hi) :
    (search probe lo hi s).1=.ok i ↔ Steered probe (· < i) lo hi s := by
  induction hn : hi-lo using Nat.strongRecOn generalizing lo hi s with
  | _ n ih =>
    constructor
    · intro h
      obtain ⟨hempty,-⟩|⟨t,hlt,⟨e,-,hs⟩|⟨hp,hs⟩|⟨hp,hs⟩⟩ := search_cases probe lo hi s
      · exact .done hempty
      · rw [hs] at h
        cases h
      · have hm := middle_bounds hlt
        rw [hs] at h
        have hrange := search_range (by omega) h
        exact .right hlt hp (by omega) ((ih _ (by omega) hrange.1 hhi rfl).mp h)
      · have hm := middle_bounds hlt
        rw [hs] at h
        have hrange := search_range hm.1 h
        exact .left hlt hp (by omega) ((ih _ (by omega) hlo hrange.2 rfl).mp h)
    · intro h
      cases h with
      | done hempty =>
        have hi : i=lo := by omega
        rw [search_done hempty,hi]
      | right hlt hp hgoal hrest =>
        have hm := middle_bounds hlt
        rw [search_right hlt hp]
        exact (ih _ (by omega) hgoal hhi rfl).mpr hrest
      | left hlt hp hgoal hrest =>
        have hm := middle_bounds hlt
        rw [search_left hlt hp]
        exact (ih _ (by omega) hlo (by omega) rfl).mpr hrest

theorem search_keeps {I : S → Prop} (hprobe : ∀ m s,I s → I (probe m s).2) (h : I s) :
    I (search probe lo hi s).2 := by
  induction hn : hi-lo using Nat.strongRecOn generalizing lo hi s with
  | _ n ih =>
    have hstep := hprobe (middle lo hi) s h
    obtain ⟨-,hs⟩|⟨t,hlt,⟨e,hp,hs⟩|⟨hp,hs⟩|⟨hp,hs⟩⟩ := search_cases probe lo hi s
    · rw [hs]
      exact h
    · rw [hs]
      rwa [hp] at hstep
    · have hm := middle_bounds hlt
      rw [hs]
      rw [hp] at hstep
      exact ih (hi-(middle lo hi+1)) (by omega) hstep rfl
    · have hm := middle_bounds hlt
      rw [hs]
      rw [hp] at hstep
      exact ih (middle lo hi-lo) (by omega) hstep rfl

theorem steered_of_answers {I : S → Prop} {target : ℕ → Prop} [DecidablePred target]
    (hprobe : ∀ m,lo ≤ m → m<hi → ∀ s,I s →
      ∃ t,probe m s=(.ok (decide (target m)),t) ∧ I t) (h : I s) :
    Steered probe target lo hi s := by
  induction hn : hi-lo using Nat.strongRecOn generalizing lo hi s with
  | _ n ih =>
    by_cases hlt : lo<hi
    · have hm := middle_bounds hlt
      obtain ⟨t,hp,ht⟩ := hprobe _ hm.1 hm.2 s h
      by_cases hgoal : target (middle lo hi)
      · rw [decide_eq_true hgoal] at hp
        refine .right hlt hp hgoal (ih _ (by omega) (fun m hl hh => ?_) ht rfl)
        exact hprobe m (by omega) hh
      · rw [decide_eq_false hgoal] at hp
        refine .left hlt hp hgoal (ih _ (by omega) (fun m hl hh => ?_) ht rfl)
        exact hprobe m hl (by omega)
    · exact .done hlt

end Windows

section Partition

/-- The point of a window where a property stops to hold. -/
structure IsPartition (p : ℕ → Prop) (lo hi i : ℕ) : Prop where
  lower : lo ≤ i
  upper : i≤hi
  below : ∀ j,lo≤j → j < i → p j
  above : ∀ j,i≤j → j<hi → ¬p j

variable {p : ℕ → Prop} {lo hi i i' : ℕ}

theorem IsPartition.iff (h : IsPartition p lo hi i) {j : ℕ} (hl : lo≤j) (hh : j<hi) :
    p j ↔ j < i := by
  by_cases hj : j < i
  · exact iff_of_true (h.below j hl hj) hj
  · exact iff_of_false (h.above j (by omega) hh) hj

theorem exists_partition (hle : lo≤hi) (hdown : ∀ j k,lo≤j → j≤k → k<hi → p k → p j) :
    ∃ i,IsPartition p lo hi i := by
  induction hn : hi-lo generalizing lo with
  | zero => exact ⟨lo,Nat.le_refl _,hle,fun j _ _ => by omega,fun j _ _ => by omega⟩
  | succ n ih =>
    by_cases hp : p lo
    · obtain ⟨i,hi'⟩ := @ih (lo+1) (by omega)
        (fun j k hj hjk hk => hdown j k (by omega) hjk hk) (by omega)
      refine ⟨i,by have hl := hi'.lower
                   omega,hi'.upper,fun j hj hji => ?_,hi'.above⟩
      obtain rfl|hlt := Nat.eq_or_lt_of_le hj
      · exact hp
      · exact hi'.below j hlt hji
    · exact ⟨lo,Nat.le_refl _,hle,fun j _ _ => by omega,
        fun j hj hjh hpj => hp (hdown lo j (Nat.le_refl _) hj hjh hpj)⟩

end Partition

end Bisection
end InterpretThis
