import Mathlib.Algebra.BigOperators.Group.Finset.Basic
import Mathlib.Algebra.Order.BigOperators.Group.Finset
import Mathlib.Data.Finset.Card
import Mathlib.Tactic.Linarith

namespace InterpretThis.Sharing

open Finset

variable {α : Type} [DecidableEq α] (children : α → List α) (w : α → Nat)

/-- A path to `x` that avoids the locked nodes. -/
inductive Reaches (locked : List α) (a : α) : α → Prop where
  | refl (free : a ∉ locked) : Reaches locked a a
  | step {x y : α} (path : Reaches locked a x) (edge : y ∈ children x) (free : y ∉ locked) :
      Reaches locked a y

/-- The weight of the tree that unfolds a graph: a node that `holds` its lock is locked while its
children are walked, and a locked node is passed over. -/
def walk (holds : α → Bool) : Nat → List α → α → Nat
  | 0,_,_ => 0
  | n+1,locked,a =>
    if a ∈ locked then 0
    else w a+((children a).map (walk holds n (if holds a then a::locked else locked))).sum

variable {children w} {locked : List α} {a x : α}

/-- A walk that locks less passes over less. -/
theorem walk_le_of_fewer (holds : α → Bool) {fewer : List α} (n : Nat) (a : α)
    (sub : fewer ⊆ locked) :
    walk children w (fun _ => true) n locked a ≤ walk children w holds n fewer a := by
  induction n generalizing locked fewer a with
  | zero => exact Nat.le_refl _
  | succ n ih =>
    unfold walk
    by_cases free : a ∈ locked
    · rw [if_pos free]
      exact Nat.zero_le _
    · rw [if_neg free,if_neg fun h => free (sub h),if_pos rfl]
      apply Nat.add_le_add_left
      apply List.sum_le_sum
      intro c _
      apply ih
      split
      · exact List.cons_subset_cons a sub
      · exact fun x hx => List.mem_cons_of_mem a (sub hx)

theorem Reaches.free (h : Reaches children locked a x) : a ∉ locked := by
  induction h with
  | refl free => exact free
  | step path edge free ih => exact ih

theorem Reaches.first (h : Reaches children locked a x) :
    x=a ∨ ∃c ∈ children a,Reaches children (a::locked) c x := by
  induction h with
  | refl free => exact .inl rfl
  | @step x y path edge free ih =>
    by_cases back : y=a
    · exact .inl back
    · have avoids : y ∉ a::locked := by
        intro h
        rcases List.mem_cons.mp h with h | h
        · exact back h
        · exact free h
      rcases ih with rfl | ⟨c,hc,path'⟩
      · exact .inr ⟨y,edge,.refl avoids⟩
      · exact .inr ⟨c,hc,.step path' edge avoids⟩

variable {U : Finset α}

def unlocked (U : Finset α) (locked : List α) : Finset α := U.filter fun x => x ∉ locked

theorem unlocked_cons_lt (inside : a ∈ U) (free : a ∉ locked) :
    (unlocked U (a::locked)).card<(unlocked U locked).card := by
  apply Finset.card_lt_card
  constructor
  · intro x hx
    obtain ⟨hU,hx⟩ := Finset.mem_filter.mp hx
    exact Finset.mem_filter.mpr ⟨hU,fun h => hx (List.mem_cons_of_mem a h)⟩
  · intro sub
    have back := sub (Finset.mem_filter.mpr ⟨inside,free⟩)
    exact (Finset.mem_filter.mp back).2 List.mem_cons_self

section Covers

open Classical in
noncomputable def share (w : α → Nat) (p : α → Prop) (x : α) : Nat := if p x then w x else 0

omit [DecidableEq α] in
theorem share_of {p : α → Prop} (h : p x) : share w p x=w x := if_pos h

omit [DecidableEq α] in
theorem share_not {p : α → Prop} (h : ¬p x) : share w p x=0 := if_neg h

noncomputable def total (w : α → Nat) (U : Finset α) (p : α → Prop) : Nat := ∑x ∈ U,share w p x

omit [DecidableEq α] in
theorem total_mono {p q : α → Prop} (h : ∀x ∈ U,p x → q x) : total w U p ≤ total w U q := by
  apply Finset.sum_le_sum
  intro x hx
  by_cases hp : p x
  · rw [share_of hp,share_of (h x hx hp)]
  · rw [share_not hp]
    exact Nat.zero_le _

omit [DecidableEq α] in
theorem total_of_none {p : α → Prop} (h : ∀x ∈ U,¬p x) : total w U p=0 :=
  Finset.sum_eq_zero fun x hx => share_not (h x hx)

omit [DecidableEq α] in
variable (w U) in
theorem total_or_le (p q : α → Prop) :
    total w U (fun x => p x ∨ q x) ≤ total w U p+total w U q := by
  unfold total
  rw [←Finset.sum_add_distrib]
  apply Finset.sum_le_sum
  intro x _
  by_cases hp : p x
  · rw [share_of (p := fun x => p x ∨ q x) (.inl hp),share_of hp]
    exact Nat.le_add_right _ _
  · by_cases hq : q x
    · rw [share_of (p := fun x => p x ∨ q x) (.inr hq),share_of hq]
      exact Nat.le_add_left _ _
    · rw [share_not (p := fun x => p x ∨ q x) (not_or.mpr ⟨hp,hq⟩)]
      exact Nat.zero_le _

omit [DecidableEq α] in
theorem total_congr {p q : α → Prop} (h : ∀x ∈ U,p x ↔ q x) : total w U p=total w U q :=
  Nat.le_antisymm (total_mono fun x hx => (h x hx).mp) (total_mono fun x hx => (h x hx).mpr)

omit [DecidableEq α] in
theorem le_total {p : α → Prop} (inside : a ∈ U) (h : p a) : w a ≤ total w U p := by
  calc w a=share w p a := (share_of h).symm
    _ ≤ total w U p := Finset.single_le_sum (fun x _ => Nat.zero_le (share w p x)) inside

omit [DecidableEq α] in
variable (w U) in
theorem total_eq_le (a : α) : total w U (fun x => x=a) ≤ w a := by
  by_cases inside : a ∈ U
  · unfold total
    rw [Finset.sum_eq_single_of_mem a inside fun x _ other =>
      share_not (p := fun x => x=a) other,share_of (p := fun x => x=a) rfl]
  · rw [total_of_none (p := fun x => x=a) fun x hx same => inside (same ▸ hx)]
    exact Nat.zero_le _

omit [DecidableEq α] in
theorem total_any_le {ι : Type} (cs : List ι) (p : ι → α → Prop) (bound : ι → Nat)
    (each : ∀c ∈ cs,total w U (p c) ≤ bound c) :
    total w U (fun x => ∃c ∈ cs,p c x) ≤ (cs.map bound).sum := by
  induction cs with
  | nil =>
    rw [total_of_none (p := fun x => ∃c ∈ ([] : List ι),p c x) fun x _ ⟨c,hc,_⟩ => nomatch hc]
    exact Nat.zero_le _
  | cons c cs ih =>
    rw [List.map_cons,List.sum_cons]
    have split : total w U (fun x => ∃d ∈ c::cs,p d x) ≤
        total w U (fun x => p c x ∨ ∃d ∈ cs,p d x) := by
      apply total_mono
      rintro x _ ⟨d,hd,hx⟩
      rcases List.mem_cons.mp hd with rfl | hd
      · exact .inl hx
      · exact .inr ⟨d,hd,hx⟩
    have both := total_or_le w U (p c) (fun x => ∃d ∈ cs,p d x)
    have head := each c List.mem_cons_self
    have tail := ih fun d hd => each d (List.mem_cons_of_mem c hd)
    omega

theorem total_reached_le_locked (outside : ∀b ∉ U,children b=[]) (n : Nat) (locked : List α) (a : α)
    (fuel : (unlocked U locked).card<n) :
    total w U (Reaches children locked a) ≤ walk children w (fun _ => true) n locked a := by
  induction n generalizing locked a with
  | zero => exact absurd fuel (Nat.not_lt_zero _)
  | succ n ih =>
    by_cases free : a ∈ locked
    · rw [total_of_none fun x _ h => h.free free]
      exact Nat.zero_le _
    · rw [walk,if_neg free,if_pos rfl]
      have first : total w U (Reaches children locked a) ≤ total w U
          (fun x => x=a ∨ ∃c ∈ children a,Reaches children (a::locked) c x) :=
        total_mono fun x _ h => h.first
      have both := total_or_le w U (fun x => x=a)
        (fun x => ∃c ∈ children a,Reaches children (a::locked) c x)
      have self := total_eq_le w U a
      have rest : total w U (fun x => ∃c ∈ children a,Reaches children (a::locked) c x) ≤
          ((children a).map (walk children w (fun _ => true) n (a::locked))).sum := by
        apply total_any_le
        intro c hc
        by_cases inside : a ∈ U
        · have less := unlocked_cons_lt inside free
          exact ih (a::locked) c (by omega)
        · rw [outside a inside] at hc
          nomatch hc
      omega

/-- Every node that is reached is counted by the walk, shared ones at least once. -/
theorem total_reached_le_walk (holds : α → Bool) (outside : ∀b ∉ U,children b=[]) (n : Nat)
    (locked : List α) (a : α) (fuel : (unlocked U locked).card<n) :
    total w U (Reaches children locked a) ≤ walk children w holds n locked a :=
  (total_reached_le_locked outside n locked a fuel).trans
    (walk_le_of_fewer holds n a (List.Subset.refl locked))

end Covers

end InterpretThis.Sharing
