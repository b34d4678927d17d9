import Mathlib.Data.List.Forall2
import Mathlib.Data.List.Perm.Basic

namespace InterpretThis.Matching

variable {α β : Type} (R : α → β → Prop)

/-- Where every element of one list has a partner in another of the same length, and no two
have a partner in common, the partners are the other list in some order. -/
theorem exists_perm (xs : List α) (ys : List β) (hl : xs.length=ys.length)
    (hex : ∀x∈xs, ∃y∈ys, R x y) (hd : xs.Pairwise (fun x x' => ∀y∈ys, ¬(R x y ∧ R x' y))) :
    ∃zs, zs.Perm ys ∧ List.Forall₂ R xs zs := by
  induction xs generalizing ys with
  | nil =>
    have hy : ys=[] := List.length_eq_zero_iff.mp hl.symm
    exact ⟨[],by rw [hy],.nil⟩
  | cons x xs ih =>
    obtain ⟨y,hy,hxy⟩ := hex x (by simp)
    obtain ⟨pre,post,rfl⟩ := List.append_of_mem hy
    have hperm : (pre++y::post).Perm (y::(pre++post)) := List.perm_middle
    have hlen : xs.length=(pre++post).length := by
      have := hperm.length_eq
      simp only [List.length_cons] at this hl
      omega
    obtain ⟨hx,htail⟩ := List.pairwise_cons.mp hd
    -- No later element can use `y` again.
    have hrest : ∀x'∈xs, ∃y'∈pre++post, R x' y' := by
      intro x' hx'
      obtain ⟨y',hy',hr⟩ := hex x' (by simp [hx'])
      have hcase := hperm.mem_iff.mp hy'
      rw [List.mem_cons] at hcase
      cases hcase with
      | inl he =>
        rw [he] at hr
        exact absurd ⟨hxy,hr⟩ (hx x' hx' y hy)
      | inr hm => exact ⟨y',hm,hr⟩
    have hsub : ∀y'∈pre++post, y'∈pre++y::post := by
      intro y' hy'
      exact hperm.mem_iff.mpr (by simp [List.mem_append.mp hy'])
    obtain ⟨zs,hz,hf⟩ := ih (pre++post) hlen hrest
      (htail.imp (fun h y' hy' => h y' (hsub y' hy')))
    exact ⟨y::zs,(hz.cons y).trans hperm.symm,.cons hxy hf⟩

variable {R} {S : α → β → Prop}

theorem forall₂_imp_mem {xs : List α} {ys : List β} (h : List.Forall₂ R xs ys)
    (himp : ∀x∈xs, ∀y∈ys, R x y → S x y) : List.Forall₂ S xs ys := by
  induction h with
  | nil => exact .nil
  | cons hr _ ih =>
    refine .cons (himp _ (by simp) _ (by simp) hr) (ih ?_)
    intro x hx y hy
    exact himp x (by simp [hx]) y (by simp [hy])

theorem forall₂_mem_right {xs : List α} {ys : List β} (h : List.Forall₂ R xs ys) :
    ∀y∈ys, ∃x∈xs, R x y := by
  induction h with
  | nil =>
    intro y hy
    cases hy
  | cons hr _ ih =>
    intro y hy
    cases hy with
    | head => exact ⟨_,by simp,hr⟩
    | tail _ hy =>
      obtain ⟨x,hx,hxy⟩ := ih y hy
      exact ⟨x,by simp [hx],hxy⟩

theorem map_eq_of_forall₂ {γ : Type} {f : α → γ} {g : β → γ} {xs : List α} {ys : List β}
    (h : List.Forall₂ (fun x y => f x=g y) xs ys) : xs.map f=ys.map g := by
  induction h with
  | nil => rfl
  | cons hr _ ih => rw [List.map_cons,List.map_cons,hr,ih]

end InterpretThis.Matching
