import Mathlib.Data.Nat.Find
import Mathlib.Tactic.SplitIfs

namespace InterpretThis
namespace Grouping

variable {α : Type*}

/-- The digits after the first: a separator stands before each one from which a multiple of `k` digits is left. -/
def separateRest (sep : α) (k : ℕ) : List α → List α
  | [] => []
  | d::ds => if (ds.length+1)%k=0 then sep::d::separateRest sep k ds else d::separateRest sep k ds

/-- A digit run grouped in one pass from its left end. -/
def separate (sep : α) (k : ℕ) : List α → List α
  | [] => []
  | d::ds => d::separateRest sep k ds

/-- A digit run cut into groups of `k` from its right end. -/
def grouped (sep : α) (k : ℕ) (ds : List α) : List α :=
  if k=0 ∨ ds.length≤k then ds
  else grouped sep k (ds.take (ds.length-k))++sep::ds.drop (ds.length-k)
termination_by ds.length
decreasing_by
  rename_i h
  simp only [not_or,not_le] at h
  simp only [List.length_take]
  omega

section Groups

variable (sep : α) (k : ℕ)

theorem separateRest_short (ds : List α) (hs : ds.length<k) : separateRest sep k ds=ds := by
  induction ds with
  | nil => rfl
  | cons d ds ih =>
    simp only [List.length_cons] at hs
    have hm : (ds.length+1)%k≠0 := by
      rw [Nat.mod_eq_of_lt hs]
      omega
    simp only [separateRest,if_neg hm]
    rw [ih (by omega)]

theorem separateRest_group (ds : List α) (hk : 0<k) (hs : ds.length=k) :
    separateRest sep k ds=sep::ds := by
  cases ds with
  | nil =>
    simp only [List.length_nil] at hs
    omega
  | cons d ds =>
    simp only [List.length_cons] at hs
    have hm : (ds.length+1)%k=0 := by rw [hs,Nat.mod_self]
    simp only [separateRest,if_pos hm]
    rw [separateRest_short sep k ds (by omega)]

theorem separateRest_append (xs ys : List α) (hk : 0<k) (hs : ys.length=k) :
    separateRest sep k (xs++ys)=separateRest sep k xs++sep::ys := by
  induction xs with
  | nil => exact separateRest_group sep k ys hk hs
  | cons x xs ih =>
    have hm : ((xs++ys).length+1)%k=(xs.length+1)%k := by
      rw [List.length_append,hs,show xs.length+k+1=(xs.length+1)+k from by omega,
        Nat.add_mod_right]
    simp only [List.cons_append,separateRest,hm]
    split_ifs
    · rw [ih]; simp
    · rw [ih]; simp

theorem separate_short (ds : List α) (hs : ds.length≤k) : separate sep k ds=ds := by
  cases ds with
  | nil => rfl
  | cons d ds =>
    simp only [List.length_cons] at hs
    simp only [separate]
    rw [separateRest_short sep k ds (by omega)]

theorem separate_append (xs ys : List α) (hk : 0<k) (hx : xs≠[]) (hs : ys.length=k) :
    separate sep k (xs++ys)=separate sep k xs++sep::ys := by
  cases xs with
  | nil => exact absurd rfl hx
  | cons x xs =>
    simp only [List.cons_append,separate]
    rw [separateRest_append sep k xs ys hk hs]

theorem separate_long (ds : List α) (hk : 0<k) (hs : k<ds.length) :
    separate sep k ds=
      separate sep k (ds.take (ds.length-k))++sep::ds.drop (ds.length-k) := by
  have hd : ds=ds.take (ds.length-k)++ds.drop (ds.length-k) :=
    (List.take_append_drop _ ds).symm
  have hx : ds.take (ds.length-k)≠[] := by
    intro h
    have hl := congrArg List.length h
    simp only [List.length_take,List.length_nil] at hl
    omega
  have hy : (ds.drop (ds.length-k)).length=k := by
    rw [List.length_drop]
    omega
  have ha := separate_append sep k _ _ hk hx hy
  rwa [← hd] at ha

theorem separate_eq_grouped (ds : List α) (hk : 0<k) : separate sep k ds=grouped sep k ds := by
  induction hn : ds.length using Nat.strong_induction_on generalizing ds with
  | _ n ih =>
    rw [grouped]
    split_ifs with h
    · exact separate_short sep k ds (by omega)
    · have hl : k<ds.length := by omega
      have ht : (ds.take (ds.length-k)).length<n := by
        rw [List.length_take]
        omega
      rw [separate_long sep k ds hk hl,ih _ ht _ rfl]

theorem length_separate (ds : List α) (hk : 0<k) :
    (separate sep k ds).length=ds.length+(ds.length-1)/k := by
  induction hn : ds.length using Nat.strong_induction_on generalizing ds with
  | _ n ih =>
    by_cases hs : ds.length≤k
    · have hz : (n-1)/k=0 := Nat.div_eq_of_lt (by omega)
      rw [separate_short sep k ds hs,hn,hz]
      rfl
    · have ht : (ds.take (ds.length-k)).length=n-k := by
        rw [List.length_take]
        omega
      have hq : (n-1)/k=(n-k-1)/k+1 := by
        rw [show n-1=(n-k-1)+k from by omega,Nat.add_div_right _ hk]
      rw [separate_long sep k ds hk (by omega),List.length_append,ih (n-k) (by omega) _ ht,hq,
        List.length_cons,List.length_drop]
      omega

theorem mem_separateRest (ds : List α) {c : α} (hc : c∈separateRest sep k ds) : c=sep ∨ c∈ds := by
  induction ds with
  | nil => cases hc
  | cons d ds ih =>
    simp only [separateRest] at hc
    split_ifs at hc
    · simp only [List.mem_cons] at hc ⊢
      obtain hc | hc | hc := hc
      · exact Or.inl hc
      · exact Or.inr (Or.inl hc)
      · exact (ih hc).imp id Or.inr
    · simp only [List.mem_cons] at hc ⊢
      obtain hc | hc := hc
      · exact Or.inr (Or.inl hc)
      · exact (ih hc).imp id Or.inr

theorem mem_separate (ds : List α) {c : α} (hc : c∈separate sep k ds) : c=sep ∨ c∈ds := by
  cases ds with
  | nil => cases hc
  | cons d ds =>
    simp only [separate,List.mem_cons] at hc ⊢
    obtain hc | hc := hc
    · exact Or.inr (Or.inl hc)
    · exact (mem_separateRest sep k ds hc).imp id Or.inr

theorem separateRest_bare [DecidableEq α] (ds : List α) (hs : sep∉ds) :
    (separateRest sep k ds).filter (fun c => c≠sep)=ds := by
  induction ds with
  | nil => rfl
  | cons d ds ih =>
    simp only [List.mem_cons,not_or] at hs
    have hd : d≠sep := fun h => hs.1 h.symm
    have ht := ih hs.2
    simp only [separateRest]
    split_ifs
    · simpa [hd] using ht
    · simpa [hd] using ht

theorem separate_bare [DecidableEq α] (ds : List α) (hs : sep∉ds) :
    (separate sep k ds).filter (fun c => c≠sep)=ds := by
  cases ds with
  | nil => rfl
  | cons d ds =>
    simp only [List.mem_cons,not_or] at hs
    have hd : d≠sep := fun h => hs.1 h.symm
    have ht := separateRest_bare sep k ds hs.2
    simp only [separate]
    simpa [hd] using ht

theorem separate_ne_nil (ds : List α) (hd : ds≠[]) : separate sep k ds≠[] := by
  cases ds with
  | nil => exact absurd rfl hd
  | cons d ds => simp [separate]

theorem separate_head (ds : List α) : (separate sep k ds).head?=ds.head? := by
  cases ds with
  | nil => rfl
  | cons d ds => rfl

theorem separate_last (ds : List α) (hk : 0<k) (j : ℕ) (hj : j<k) :
    (separate sep k ds).reverse[j]?=ds.reverse[j]? := by
  by_cases hs : ds.length≤k
  · rw [separate_short sep k ds hs]
  · have hd : (ds.drop (ds.length-k)).length=k := by
      rw [List.length_drop]
      omega
    have hr : ds.reverse=(ds.drop (ds.length-k)).reverse++(ds.take (ds.length-k)).reverse := by
      rw [← List.reverse_append,List.take_append_drop]
    rw [separate_long sep k ds hk (by omega),hr,List.reverse_append,List.reverse_cons,
      List.append_assoc,List.getElem?_append_left (by rw [List.length_reverse,hd]; exact hj),
      List.getElem?_append_left (by rw [List.length_reverse,hd]; exact hj)]

theorem separate_mark (ds : List α) (hk : 0<k) (hs : k<ds.length) :
    (separate sep k ds).reverse[k]?=some sep := by
  have hd : (ds.drop (ds.length-k)).reverse.length=k := by
    rw [List.length_reverse,List.length_drop]
    omega
  rw [separate_long sep k ds hk hs,List.reverse_append,List.reverse_cons,List.append_assoc,
    List.getElem?_append_right (by omega),hd]
  simp

theorem separate_unmarked (ds tail : List α) (hk : 0<k) (ht : tail≠[])
    (hd : sep∉ds) (hs : sep∉tail) : (separate sep k ds++tail).reverse[k]?≠some sep := by
  have hl : 0<tail.length := List.length_pos_iff.mpr ht
  intro h
  rw [List.reverse_append] at h
  by_cases hj : k<tail.length
  · rw [List.getElem?_append_left (by simpa using hj)] at h
    exact hs (List.mem_reverse.mp (List.mem_of_getElem? h))
  · rw [List.getElem?_append_right (by simpa using hj),List.length_reverse,
      separate_last sep k ds hk _ (by omega)] at h
    exact hd (List.mem_reverse.mp (List.mem_of_getElem? h))

end Groups

section Filling

/-- The search for the fewest digits whose grouped run is `avail` wide, one more digit at a time. -/
def growDigits (k avail : ℕ) : ℕ → ℕ → ℕ
  | 0,d => d
  | fuel+1,d => if d+(d-1)/k<avail then growDigits k avail fuel (d+1) else d

def Reaches (k avail least d : ℕ) : Prop :=
  least≤d ∧ avail≤d+(d-1)/k

instance (k avail least d : ℕ) : Decidable (Reaches k avail least d) :=
  inferInstanceAs (Decidable (_ ∧ _))

theorem reaches_exists (k avail least : ℕ) : ∃ d,Reaches k avail least d :=
  ⟨least+avail,Nat.le_add_right _ _,le_trans (Nat.le_add_left avail least) (Nat.le_add_right _ _)⟩

/-- The fewest digits, at least `least` of them, whose grouped run is `avail` wide. -/
def fewestDigits (k avail least : ℕ) : ℕ :=
  Nat.find (reaches_exists k avail least)

theorem growDigits_spec (k avail fuel d : ℕ) (hf : avail≤d+fuel) :
    Reaches k avail d (growDigits k avail fuel d) ∧
      ∀ e,Reaches k avail d e → growDigits k avail fuel d≤e := by
  induction fuel generalizing d with
  | zero =>
    simp only [growDigits]
    have hr : Reaches k avail d d := ⟨le_refl d,le_trans hf (Nat.le_add_right _ _)⟩
    exact ⟨hr,fun e he => he.1⟩
  | succ fuel ih =>
    simp only [growDigits]
    split_ifs with hw
    · obtain ⟨hr,hm⟩ := ih (d+1) (by omega)
      refine ⟨⟨by have := hr.1; omega,hr.2⟩,?_⟩
      intro e he
      apply hm e
      have hne : e≠d := by
        intro h
        have h2 := he.2
        rw [h] at h2
        omega
      exact ⟨by have := he.1; omega,he.2⟩
    · exact ⟨⟨le_refl d,by omega⟩,fun e he => he.1⟩

theorem growDigits_fewest (k avail d : ℕ) : growDigits k avail avail d=fewestDigits k avail d := by
  obtain ⟨hr,hm⟩ := growDigits_spec k avail avail d (by omega)
  apply le_antisymm
  · exact hm _ (Nat.find_spec (reaches_exists k avail d))
  · exact Nat.find_min' (reaches_exists k avail d) hr

theorem fewestDigits_least (k avail least : ℕ) : least≤fewestDigits k avail least :=
  (Nat.find_spec (reaches_exists k avail least)).1

theorem fewestDigits_reaches (k avail least : ℕ) :
    avail≤fewestDigits k avail least+(fewestDigits k avail least-1)/k :=
  (Nat.find_spec (reaches_exists k avail least)).2

theorem fewestDigits_wide (k avail least : ℕ) (hw : avail≤least+(least-1)/k) :
    fewestDigits k avail least=least := by
  apply le_antisymm
  · exact Nat.find_min' (reaches_exists k avail least) ⟨le_refl least,hw⟩
  · exact fewestDigits_least k avail least

theorem fewestDigits_group (k avail least : ℕ) (hk : avail≤k) (hl : least≤avail) :
    fewestDigits k avail least=avail := by
  apply le_antisymm
  · exact Nat.find_min' (reaches_exists k avail least) ⟨hl,Nat.le_add_right _ _⟩
  · have hr := fewestDigits_reaches k avail least
    by_contra h
    have hz : (fewestDigits k avail least-1)/k=0 := Nat.div_eq_of_lt (by omega)
    omega

theorem fewestDigits_past (k avail least : ℕ) (hk : 0<k) (ha : k<avail) :
    k<fewestDigits k avail least := by
  have hr := fewestDigits_reaches k avail least
  by_contra h
  have hz : (fewestDigits k avail least-1)/k=0 := Nat.div_eq_of_lt (by omega)
  omega

def zeroFilled (zero sep : α) (k avail : ℕ) (ds : List α) : List α :=
  grouped sep k (List.replicate (fewestDigits k avail ds.length-ds.length) zero++ds)

end Filling

end Grouping
end InterpretThis
