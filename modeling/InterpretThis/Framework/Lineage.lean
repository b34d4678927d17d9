import Mathlib.Data.List.Basic
import Mathlib.Logic.Function.Basic

namespace InterpretThis
namespace Lineage

variable {K C A : Type}

/-- The first answer along an order of keys, with the key that gave it. -/
def findIn (store : K → Option C) (f : C → Option A) : List K → Option (K×A)
  | [] => none
  | k::ks =>
    match (store k).bind f with
    | some a => some (k,a)
    | none => findIn store f ks

def find (store : K → Option C) (order : C → List K) (k : K) (f : C → Option A) : Option (K×A) :=
  (store k).bind fun c => findIn store f (order c)

/-- Two stores hold the same at `k` and along what it has recorded there. -/
def Alike (order : C → List K) (store store' : K → Option C) (k : K) : Prop :=
  store' k=store k ∧ ∀ c,store k=some c → ∀ a∈order c,store' a=store a

variable {order : C → List K} {store store' : K → Option C} {k : K} {f : C → Option A}

theorem findIn_congr {ks : List K} (h : ∀ a∈ks,store' a=store a) :
    findIn store' f ks=findIn store f ks := by
  induction ks with
  | nil => rfl
  | cons a ks ih =>
    have ha := h a List.mem_cons_self
    have hrest := ih fun b hb => h b (List.mem_cons_of_mem _ hb)
    simp only [findIn,ha,hrest]

theorem Alike.find_eq (h : Alike order store store' k) :
    find store' order k f=find store order k f := by
  unfold find
  rw [h.1]
  cases hc : store k with
  | none => rfl
  | some c => exact findIn_congr (h.2 c hc)

theorem Alike.refl : Alike order store store k := ⟨rfl,fun _ _ _ _ => rfl⟩

theorem Alike.trans {store'' : K → Option C} (h : Alike order store store' k)
    (h' : Alike order store' store'' k) : Alike order store store'' k := by
  refine ⟨h'.1.trans h.1,fun c hc a ha => ?_⟩
  have hlater := h'.2 c (h.1.trans hc) a ha
  exact hlater.trans (h.2 c hc a ha)

variable [DecidableEq K]

theorem Alike.update {n : K} (c : Option C) (hk : k≠n)
    (hn : ∀ c,store k=some c → n∉order c) :
    Alike order store (Function.update store n c) k := by
  refine ⟨Function.update_of_ne hk _ _,fun d hd a ha => ?_⟩
  have hne : a≠n := fun h => hn d hd (h ▸ ha)
  exact Function.update_of_ne hne _ _

theorem mem_of_findIn {ks : List K} {p : K×A} (h : findIn store f ks=some p) :
    p.1∈ks ∧ (store p.1).bind f=some p.2 := by
  induction ks with
  | nil => cases h
  | cons a ks ih =>
    cases ha : (store a).bind f with
    | some b =>
      simp only [findIn,ha] at h
      rw [← Option.some.inj h]
      exact ⟨List.mem_cons_self,ha⟩
    | none =>
      simp only [findIn,ha] at h
      exact ⟨List.mem_cons_of_mem _ (ih h).1,(ih h).2⟩

end Lineage
end InterpretThis
