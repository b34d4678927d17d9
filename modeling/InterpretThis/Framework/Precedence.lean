import Mathlib.Data.List.Nodup
import Mathlib.Order.WellFoundedSet

namespace InterpretThis

section Precedence

variable {α : Type}

/-- `a` stands somewhere before `b`. -/
def Before (s : List α) (a b : α) : Prop := [a,b].Sublist s

/-- Some chain puts `a` before `b`. -/
def Ordered (chains : List (List α)) (a b : α) : Prop := ∃s∈chains, Before s a b

def Cyclic (chains : List (List α)) : Prop := ∃a, Relation.TransGen (Ordered chains) a a

theorem before_head {s : List α} {a b : α} (hb : b∈s) : Before (a::s) a b := by
  apply List.Sublist.cons_cons
  exact List.singleton_sublist.mpr hb

theorem Ordered.mono {chains chains' : List (List α)}
    (h : ∀s∈chains, ∃t∈chains', s.Sublist t) {a b : α} (ho : Ordered chains a b) :
    Ordered chains' a b := by
  obtain ⟨s,hs,hb⟩ := ho
  obtain ⟨t,ht,hst⟩ := h s hs
  exact ⟨t,ht,List.Sublist.trans hb hst⟩

theorem Cyclic.mono {chains chains' : List (List α)}
    (h : ∀s∈chains, ∃t∈chains', s.Sublist t) (hc : Cyclic chains) : Cyclic chains' := by
  obtain ⟨a,ha⟩ := hc
  exact ⟨a,Relation.TransGen.mono (fun _ _ ho => Ordered.mono h ho) a a ha⟩

theorem before_index [DecidableEq α] {out : List α} (hn : out.Nodup) {a b : α}
    (h : Before out a b) : out.idxOf a<out.idxOf b := by
  have hp : out.Pairwise (fun a b => out.idxOf a<out.idxOf b) := by
    rw [List.pairwise_iff_getElem]
    intro i j hi hj hij
    rw [hn.idxOf_getElem i hi,hn.idxOf_getElem j hj]
    exact hij
  exact List.pairwise_iff_forall_sublist.mp hp h

theorem acyclic_of_extension [DecidableEq α] {chains : List (List α)} {out : List α}
    (hn : out.Nodup) (hs : ∀s∈chains, s.Sublist out) : ¬Cyclic chains := by
  have step : ∀a b, Ordered chains a b → out.idxOf a<out.idxOf b := by
    intro a b ho
    obtain ⟨s,hm,hb⟩ := ho
    exact before_index hn (List.Sublist.trans hb (hs s hm))
  have run : ∀a b, Relation.TransGen (Ordered chains) a b → out.idxOf a<out.idxOf b := by
    intro a b h
    induction h with
    | single ho => exact step _ _ ho
    | tail _ ho ih => exact ih.trans (step _ _ ho)
  intro hc
  obtain ⟨a,ha⟩ := hc
  exact lt_irrefl _ (run a a ha)

theorem exists_least {chains : List (List α)} (h : ¬Cyclic chains) {xs : List α} (hx : xs≠[]) :
    ∃a∈xs, ∀b∈xs, ¬Ordered chains b a := by
  have hirr : Std.Irrefl (Relation.TransGen (Ordered chains)) := ⟨fun a ha => h ⟨a,ha⟩⟩
  have hord : IsStrictOrder α (Relation.TransGen (Ordered chains)) := {}
  have hwf := (List.finite_toSet xs).wellFoundedOn (r := Relation.TransGen (Ordered chains))
  obtain ⟨x,hxm⟩ := List.exists_mem_of_ne_nil xs hx
  have hmin := hwf.has_min Set.univ ⟨⟨x,hxm⟩,trivial⟩
  obtain ⟨⟨a,ha⟩,_,hleast⟩ := hmin
  refine ⟨a,ha,?_⟩
  intro b hb ho
  exact hleast ⟨b,hb⟩ trivial (Relation.TransGen.single ho)

end Precedence

end InterpretThis
