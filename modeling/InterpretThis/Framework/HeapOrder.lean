import InterpretThis.Framework.StableSort
import Mathlib.Data.Nat.Basic
import Mathlib.Order.Basic

namespace InterpretThis
namespace HeapOrder

section Trees

def IsChild (k c : ℕ) : Prop := c=2*k+1 ∨ c=2*k+2

theorem IsChild.lt {k c : ℕ} (h : IsChild k c) : k<c := by
  rcases h with h | h <;> omega

theorem IsChild.unique {k l c : ℕ} (hk : IsChild k c) (hl : IsChild l c) : k=l := by
  rcases hk with hk | hk <;> rcases hl with hl | hl <;> omega

theorem isChild_half {p : ℕ} (h : 0<p) : IsChild ((p-1)/2) p := by
  unfold IsChild
  omega

/-- The places in the tree below a root. -/
inductive Subtree (root : ℕ) : ℕ → Prop where
  | root : Subtree root root
  | child {k c : ℕ} (above : Subtree root k) (step : IsChild k c) : Subtree root c

variable {root p : ℕ}

theorem Subtree.le (h : Subtree root p) : root≤p := by
  induction h with
  | root => exact le_refl _
  | child _ step ih => exact ih.trans step.lt.le

theorem Subtree.half (h : Subtree root p) (hp : root<p) : Subtree root ((p-1)/2) := by
  cases h with
  | root => exact absurd hp (lt_irrefl _)
  | child above step =>
    rw [← step.unique (isChild_half (by omega))]
    exact above

theorem Subtree.ofZero (p : ℕ) : Subtree 0 p := by
  induction p using Nat.strongRecOn with
  | ind p ih =>
    rcases Nat.eq_zero_or_pos p with rfl | hp
    · exact .root
    · exact .child (ih _ (isChild_half hp).lt) (isChild_half hp)

end Trees

section Contents

variable {α : Type} {xs : List α} {p c : ℕ} {x v : α}

theorem set_perm_iff (hp : xs[p]?=some v) : (xs.set p x).Perm xs ↔ v=x := by
  obtain ⟨hlen,hget⟩ := List.getElem?_eq_some_iff.mp hp
  constructor
  · intro h
    have hset := List.set_perm_cons_eraseIdx hlen x
    have hself := List.getElem_cons_eraseIdx_perm hlen
    have hcons := hset.symm.trans (h.trans hself.symm)
    rw [hget] at hcons
    have hone : [x].Perm [v] := (List.perm_append_right_iff (xs.eraseIdx p)).mp hcons
    exact (List.cons_eq_cons.mp (List.perm_singleton.mp hone)).1.symm
  · rintro rfl
    rw [← hget,List.set_getElem_self]

theorem move_perm (hp : p<xs.length) (hc : xs[c]?=some v) (hne : p≠c) :
    ((xs.set p v).set c x).Perm (xs.set p x) := by
  obtain ⟨hlen,hget⟩ := List.getElem?_eq_some_iff.mp hc
  have hswap := @List.set_set_perm _ (xs.set p x) p c
    (by rwa [List.length_set]) (by rwa [List.length_set])
  rwa [List.getElem_set_ne hne,List.getElem_set_self,List.set_set,hget] at hswap

theorem set_self {w : α} (h : (xs.set p v)[p]?=some w) : w=v := by
  rw [List.getElem?_set_self'] at h
  obtain ⟨_,-,hw⟩ := Option.map_eq_some_iff.mp h
  exact hw.symm

end Contents

section Order

variable {α : Type} (lt : α → α → Bool)

/-- From a place on, no child is less than its parent. -/
def Heap (xs : List α) (start : ℕ) : Prop :=
  ∀ k c a b,start≤k → IsChild k c → xs[k]?=some a → xs[c]?=some b → lt b a=false

/-- A heap but for one slot, across which the order holds. -/
structure Hole (xs : List α) (start hole : ℕ) : Prop where
  edges : ∀ k c a b,start≤k → IsChild k c → k≠hole → c≠hole → xs[k]?=some a → xs[c]?=some b →
    lt b a=false
  bridge : ∀ k c a b,start≤k → IsChild k hole → IsChild hole c → xs[k]?=some a →
    xs[c]?=some b → lt b a=false

/-- No child of a slot is less than an item. -/
def Under (xs : List α) (x : α) (hole : ℕ) : Prop :=
  ∀ c b,IsChild hole c → xs[c]?=some b → lt b x=false

variable {lt} {xs all : List α} {start p q c : ℕ} {x v w : α}

theorem Heap.open (h : Heap lt xs (start+1)) : Hole lt xs start start where
  edges k c a b hk hc hne _ := h k c a b (by omega) hc
  bridge k c a b hk hs _ := absurd hs.lt (by omega)

theorem Heap.push (h : Heap lt xs 0) (x : α) : Hole lt (xs++[x]) 0 xs.length where
  edges k c a b hk hc hkl hcl ha hb := by
    have hlen : c<xs.length := by
      have hin := (List.getElem?_eq_some_iff.mp hb).1
      rw [List.length_append,List.length_singleton] at hin
      omega
    rw [List.getElem?_append_left hlen] at hb
    rw [List.getElem?_append_left (hc.lt.trans hlen)] at ha
    exact h k c a b hk hc ha hb
  bridge k c a b _ _ hc _ hb := by
    have hin := (List.getElem?_eq_some_iff.mp hb).1
    have hlt := hc.lt
    rw [List.length_append,List.length_singleton] at hin
    omega

/-- The lesser child moves up, and leaves the hole. -/
theorem Hole.descend (h : Hole lt xs start p) (hs : start≤p) (hc : IsChild p c)
    (hv : xs[c]?=some v) (hleast : ∀ d b,IsChild p d → d≠c → xs[d]?=some b → lt b v=false) :
    Hole lt (xs.set p v) start c := by
  constructor
  · intro k d a b hk hd hkc hdc ha hb
    by_cases hkp : k=p
    · subst hkp
      rw [List.getElem?_set_ne hd.lt.ne] at hb
      rw [set_self ha]
      exact hleast d b hd hdc hb
    · rw [List.getElem?_set_ne (Ne.symm hkp)] at ha
      by_cases hdp : d=p
      · subst hdp
        rw [set_self hb]
        exact h.bridge k c a v hk hd hc ha hv
      · rw [List.getElem?_set_ne (Ne.symm hdp)] at hb
        exact h.edges k d a b hk hd hkp hdp ha hb
  · intro k d a b hk hkc hd ha hb
    obtain rfl := hc.unique hkc
    have hpd := hc.lt.trans hd.lt
    rw [set_self ha]
    rw [List.getElem?_set_ne hpd.ne] at hb
    exact h.edges c d v b (by have hlt := hc.lt; omega) hd hc.lt.ne' hpd.ne' hv hb

/-- The greater parent moves down, and leaves the hole. -/
theorem Hole.ascend (hw : WeakOrder lt all) (hall : ∀ y∈xs,y∈all) (hx : x∈all)
    (h : Hole lt xs start p) (hunder : Under lt xs x p) (hq : start≤q) (hp : IsChild q p)
    (hv : xs[q]?=some v) (hless : lt x v=true) :
    Hole lt (xs.set p v) start q ∧ Under lt (xs.set p v) x q := by
  have hmem : ∀ {i : ℕ} {y : α},xs[i]?=some y → y∈all := fun hy =>
    hall _ (List.mem_of_getElem? hy)
  refine ⟨⟨?_,?_⟩,?_⟩
  · intro k d a b hk hd hkq hdq ha hb
    by_cases hkp : k=p
    · subst hkp
      rw [List.getElem?_set_ne hd.lt.ne] at hb
      rw [set_self ha]
      exact h.bridge q d v b hq hp hd hv hb
    · rw [List.getElem?_set_ne (Ne.symm hkp)] at ha
      by_cases hdp : d=p
      · subst hdp
        exact absurd (hd.unique hp) hkq
      · rw [List.getElem?_set_ne (Ne.symm hdp)] at hb
        exact h.edges k d a b hk hd hkp hdp ha hb
  · intro k d a b hk hkq hd ha hb
    have hkp := hkq.lt.trans hp.lt
    rw [List.getElem?_set_ne hkp.ne'] at ha
    have hva := h.edges k q a v hk hkq hkp.ne hp.lt.ne ha hv
    by_cases hdp : d=p
    · subst hdp
      rw [set_self hb]
      exact hva
    · rw [List.getElem?_set_ne (Ne.symm hdp)] at hb
      have hbv := h.edges q d v b hq hd hp.lt.ne hdp hv hb
      cases hlt : lt b a with
      | false => rfl
      | true =>
        rcases hw.cotrans b (hmem hb) v (hmem hv) a (hmem ha) hlt with hlt | hlt
        · rw [hbv] at hlt
          cases hlt
        · rw [hva] at hlt
          cases hlt
  · intro d b hd hb
    by_cases hdp : d=p
    · subst hdp
      rw [set_self hb]
      exact hw.asymm x hx v (hmem hv) hless
    · rw [List.getElem?_set_ne (Ne.symm hdp)] at hb
      have hbv := h.edges q d v b hq hd hp.lt.ne hdp hv hb
      cases hlt : lt b x with
      | false => rfl
      | true =>
        rcases hw.cotrans b (hmem hb) v (hmem hv) x hx hlt with hbad | hbad
        · rw [hbv] at hbad
          cases hbad
        · rw [hw.asymm x hx v (hmem hv) hless] at hbad
          cases hbad

theorem Hole.fill (h : Hole lt xs start p) (hunder : Under lt xs x p)
    (hover : ∀ k a,start≤k → IsChild k p → xs[k]?=some a → lt x a=false) :
    Heap lt (xs.set p x) start := by
  intro k d a b hk hd ha hb
  by_cases hkp : k=p
  · subst hkp
    rw [List.getElem?_set_ne hd.lt.ne] at hb
    rw [set_self ha]
    exact hunder d b hd hb
  · rw [List.getElem?_set_ne (Ne.symm hkp)] at ha
    by_cases hdp : d=p
    · subst hdp
      rw [set_self hb]
      exact hover k a hk hd ha
    · rw [List.getElem?_set_ne (Ne.symm hdp)] at hb
      exact h.edges k d a b hk hd hkp hdp ha hb

/-- The root of a heap is a minimum. -/
theorem Heap.root_least (hw : WeakOrder lt xs) (h : Heap lt xs 0) (hx : xs[0]?=some x) :
    ∀ y∈xs,lt y x=false := by
  have hplace : ∀ (i : ℕ) (y : α),xs[i]?=some y → lt y x=false := by
    intro i
    induction i using Nat.strongRecOn with
    | ind i ih =>
      intro y hy
      rcases Nat.eq_zero_or_pos i with rfl | hi
      · obtain rfl : x=y := Option.some.inj (hx.symm.trans hy)
        exact hw.irrefl (List.mem_of_getElem? hx)
      · have hchild := isChild_half hi
        have hlen := hchild.lt.trans (List.getElem?_eq_some_iff.mp hy).1
        have hparent := List.getElem?_eq_getElem hlen
        have hyp := h _ i _ y (Nat.zero_le _) hchild hparent hy
        have hpx := ih _ hchild.lt _ hparent
        cases hlt : lt y x with
        | false => rfl
        | true =>
          rcases hw.cotrans y (List.mem_of_getElem? hy) _ (List.mem_of_getElem? hparent) x
              (List.mem_of_getElem? hx) hlt with hbad | hbad
          · rw [hyp] at hbad
            cases hbad
          · rw [hpx] at hbad
            cases hbad
  intro y hy
  obtain ⟨i,hi⟩ := List.mem_iff_getElem?.mp hy
  exact hplace i y hi

end Order

end HeapOrder
end InterpretThis
