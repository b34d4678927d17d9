import Mathlib.Logic.Basic

namespace InterpretThis.Route

variable {V S E : Type}

/-- Where a path leads. -/
def follow (child : V → S → Except E V) : V → List S → Except E V
  | v,[] => .ok v
  | v,st::path => (child v st).bind fun c => follow child c path

@[simp] theorem follow_nil (child : V → S → Except E V) (v : V) : follow child v []=.ok v := rfl

theorem follow_cons {child : V → S → Except E V} {v c : V} {st : S} {path : List S}
    (h : child v st=.ok c) : follow child v (st::path)=follow child c path := by
  rw [follow,h]
  rfl

theorem follow_cons_error {child : V → S → Except E V} {v : V} {st : S} {path : List S} {e : E}
    (h : child v st=.error e) : follow child v (st::path)=.error e := by
  rw [follow,h]
  rfl

theorem exists_child {child : V → S → Except E V} {v t : V} {st : S} {path : List S}
    (h : follow child v (st::path)=.ok t) :
    ∃c, child v st=.ok c ∧ follow child c path=.ok t := by
  cases hc : child v st with
  | error e =>
    rw [follow_cons_error hc] at h
    nomatch h
  | ok c =>
    rw [follow_cons hc] at h
    exact ⟨c,rfl,h⟩

/-- The route from `v` in one store and the route from `w` in another pass values that are alike,
and end in the same value. -/
def Kept (child child' : V → S → Except E V) (alike : V → V → Prop) : List S → V → V → Prop
  | [],v,w => w=v
  | st::path,v,w => alike v w ∧
      ∃c d, child v st=.ok c ∧ child' w st=.ok d ∧ Kept child child' alike path c d

theorem Kept.follow_eq {child child' : V → S → Except E V} {alike : V → V → Prop}
    {path : List S} {v w : V} (h : Kept child child' alike path v w) :
    follow child' w path=follow child v path := by
  induction path generalizing v w with
  | nil =>
    unfold Kept at h
    rw [h]
    rfl
  | cons st path ih =>
    obtain ⟨_,c,d,hc,hd,rest⟩ := h
    rw [follow_cons hc,follow_cons hd]
    exact ih rest

end InterpretThis.Route
