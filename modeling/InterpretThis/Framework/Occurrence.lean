import Mathlib.Data.List.Basic
import Mathlib.Tactic.Common

namespace InterpretThis.Occurrence

section Places

variable {α : Type} {sub s a b : List α} {i : Nat}

/-- `sub` stands at place `i` of `s`. -/
def At (sub s : List α) (i : Nat) : Prop := i ≤ s.length ∧ sub <+: s.drop i

instance [DecidableEq α] : Decidable (At sub s i) := inferInstanceAs (Decidable (_ ∧ _))

theorem at_nil : At sub [] i ↔ sub=[] ∧ i=0 := by
  simp only [At,List.length_nil,Nat.le_zero,List.drop_nil,List.prefix_nil]
  exact and_comm

theorem at_zero : At sub s 0 ↔ sub <+: s := by
  simp [At]

theorem at_succ {c : α} : At sub (c::s) (i+1) ↔ At sub s i := by
  simp [At]

theorem at_iff : At sub s i ↔ ∃ a b,s=a++sub++b ∧ a.length=i := by
  constructor
  · rintro ⟨hle,b,hb⟩
    refine ⟨s.take i,b,?_,List.length_take_of_le hle⟩
    rw [List.append_assoc,hb,List.take_append_drop]
  · rintro ⟨a,b,rfl,rfl⟩
    refine ⟨by simp,b,?_⟩
    rw [List.append_assoc,List.drop_left]

theorem at_append : At sub (a++sub++b) a.length := at_iff.mpr ⟨a,b,rfl,rfl⟩

theorem take_at (h : At sub s i) : s.take i++sub++s.drop (i+sub.length)=s := by
  obtain ⟨a,b,rfl,rfl⟩ := at_iff.mp h
  simp

end Places

section Search

variable {α : Type} [DecidableEq α]

/-- The first place where `sub` stands. -/
def first (sub : List α) : List α → Option Nat
  | [] => if sub=[] then some 0 else none
  | c::s => if sub <+: c::s then some 0 else (first sub s).map (·+1)

/-- The last place where `sub` stands. -/
def last (sub : List α) : List α → Option Nat
  | [] => if sub=[] then some 0 else none
  | c::s =>
    match last sub s with
    | some i => some (i+1)
    | none => if sub <+: c::s then some 0 else none

variable {sub s : List α} {i : Nat}

theorem first_some : first sub s=some i ↔ At sub s i ∧ ∀ j < i,¬At sub s j := by
  induction s generalizing i with
  | nil =>
    rw [first,at_nil]
    by_cases hsub : sub=[]
    · simp only [hsub,if_true,Option.some.injEq,true_and]
      constructor
      · rintro rfl
        exact ⟨rfl,fun j hj => absurd hj (Nat.not_lt_zero j)⟩
      · exact fun h => h.1.symm
    · simp [hsub]
  | cons c s ih =>
    rw [first]
    by_cases hhere : sub <+: c::s
    · rw [if_pos hhere]
      constructor
      · intro h
        cases h
        exact ⟨at_zero.mpr hhere,fun j hj => absurd hj (Nat.not_lt_zero j)⟩
      · rintro ⟨-,hfirst⟩
        cases i with
        | zero => rfl
        | succ i => exact absurd (at_zero.mpr hhere) (hfirst 0 (Nat.succ_pos i))
    · rw [if_neg hhere]
      cases i with
      | zero =>
        rw [at_zero]
        simp [hhere]
      | succ i =>
        simp only [Option.map_eq_some_iff,Nat.add_right_cancel_iff,exists_eq_right]
        rw [ih,at_succ]
        refine and_congr_right fun _ => ⟨fun h j hj => ?_,fun h j hj => ?_⟩
        · cases j with
          | zero => rwa [at_zero]
          | succ j =>
            rw [at_succ]
            exact h j (by omega)
        · have hnot := h (j+1) (by omega)
          rwa [at_succ] at hnot

theorem first_none : first sub s=none ↔ ∀ i,¬At sub s i := by
  induction s with
  | nil =>
    rw [first]
    by_cases hsub : sub=[]
    · simp [hsub,at_nil]
    · simp [hsub,at_nil]
  | cons c s ih =>
    rw [first]
    by_cases hhere : sub <+: c::s
    · rw [if_pos hhere]
      simp only [reduceCtorEq,false_iff]
      exact fun h => h 0 (at_zero.mpr hhere)
    · rw [if_neg hhere,Option.map_eq_none_iff,ih]
      refine ⟨fun h i => ?_,fun h i hi => h (i+1) (at_succ.mpr hi)⟩
      cases i with
      | zero => rwa [at_zero]
      | succ i =>
        rw [at_succ]
        exact h i

theorem last_none : last sub s=none ↔ ∀ i,¬At sub s i := by
  induction s with
  | nil =>
    rw [last]
    by_cases hsub : sub=[]
    · simp [hsub,at_nil]
    · simp [hsub,at_nil]
  | cons c s ih =>
    rw [last]
    cases hlast : last sub s with
    | some j =>
      simp only [reduceCtorEq,false_iff]
      intro h
      have hnone := ih.mpr fun i hi => h (i+1) (at_succ.mpr hi)
      rw [hlast] at hnone
      cases hnone
    | none =>
      have hrest := ih.mp hlast
      by_cases hhere : sub <+: c::s
      · simp only [hhere,if_true,reduceCtorEq,false_iff]
        exact fun h => h 0 (at_zero.mpr hhere)
      · simp only [hhere,if_false,true_iff]
        intro i
        cases i with
        | zero => rwa [at_zero]
        | succ i =>
          rw [at_succ]
          exact hrest i

theorem last_some : last sub s=some i ↔ At sub s i ∧ ∀ j,i<j → ¬At sub s j := by
  induction s generalizing i with
  | nil =>
    rw [last,at_nil]
    by_cases hsub : sub=[]
    · simp only [hsub,if_true,Option.some.injEq,true_and]
      constructor
      · rintro rfl
        refine ⟨rfl,fun j hj hat => ?_⟩
        rw [at_nil] at hat
        omega
      · exact fun h => h.1.symm
    · simp [hsub]
  | cons c s ih =>
    rw [last]
    have hshift : (∀ j,i<j → ¬At sub (c::s) j) ↔ ∀ j,i ≤ j → ¬At sub s j := by
      refine ⟨fun h j hj hat => h (j+1) (by omega) (at_succ.mpr hat),fun h j hj hat => ?_⟩
      cases j with
      | zero => omega
      | succ j => exact h j (by omega) (at_succ.mp hat)
    rw [hshift]
    cases hlast : last sub s with
    | some k =>
      obtain ⟨hat,hafter⟩ := ih.mp hlast
      simp only [Option.some.injEq]
      constructor
      · rintro rfl
        exact ⟨at_succ.mpr hat,fun j hj => hafter j hj⟩
      · rintro ⟨hi,hnone⟩
        cases i with
        | zero => exact absurd hat (hnone k (Nat.zero_le k))
        | succ i =>
          rw [at_succ] at hi
          have hle : ¬i<k := fun hlt => hnone k hlt hat
          have hge : ¬k < i := fun hlt => hafter i hlt hi
          omega
    | none =>
      have hrest := last_none.mp hlast
      by_cases hhere : sub <+: c::s
      · simp only [hhere,if_true,Option.some.injEq]
        constructor
        · rintro rfl
          exact ⟨at_zero.mpr hhere,fun j _ => hrest j⟩
        · rintro ⟨hi,-⟩
          cases i with
          | zero => rfl
          | succ i => exact absurd (at_succ.mp hi) (hrest i)
      · simp only [hhere,if_false,reduceCtorEq,false_iff]
        rintro ⟨hi,-⟩
        cases i with
        | zero => exact hhere (at_zero.mp hi)
        | succ i => exact hrest i (at_succ.mp hi)

end Search

section Cuts

variable {α : Type}

/-- The parts of a list cut at the first separators, at most `limit` of them. -/
inductive Leftmost (sep : List α) : Option Nat → List α → List (List α) → Prop where
  | whole {limit : Option Nat} {s : List α} (h : limit=some 0 ∨ ∀ i,¬At sep s i) :
      Leftmost sep limit s [s]
  | cut {limit : Option Nat} {a b : List α} {parts : List (List α)} (hlimit : limit≠some 0)
      (hfirst : ∀ j < a.length,¬At sep (a++sep++b) j)
      (hrest : Leftmost sep (limit.map (·-1)) b parts) : Leftmost sep limit (a++sep++b) (a::parts)

/-- The parts of a list cut at the last separators, at most `limit` of them. -/
inductive Rightmost (sep : List α) : Option Nat → List α → List (List α) → Prop where
  | whole {limit : Option Nat} {s : List α} (h : limit=some 0 ∨ ∀ i,¬At sep s i) :
      Rightmost sep limit s [s]
  | cut {limit : Option Nat} {a b : List α} {parts : List (List α)} (hlimit : limit≠some 0)
      (hlast : ∀ j,a.length<j → ¬At sep (a++sep++b) j)
      (hrest : Rightmost sep (limit.map (·-1)) a parts) :
      Rightmost sep limit (a++sep++b) (parts++[b])

variable {sep s : List α} {limit : Option Nat} {parts : List (List α)}

theorem Leftmost.ne_nil (h : Leftmost sep limit s parts) : parts≠[] := by
  cases h with
  | whole => simp
  | cut => simp

theorem Rightmost.ne_nil (h : Rightmost sep limit s parts) : parts≠[] := by
  cases h with
  | whole => simp
  | cut => simp

theorem join_cons (sep a : List α) {parts : List (List α)} (h : parts≠[]) :
    sep.intercalate (a::parts)=a++sep++sep.intercalate parts := by
  cases parts with
  | nil => exact absurd rfl h
  | cons b parts => simp [List.intercalate]

theorem join_snoc (sep b : List α) {parts : List (List α)} (h : parts≠[]) :
    sep.intercalate (parts++[b])=sep.intercalate parts++sep++b := by
  induction parts with
  | nil => exact absurd rfl h
  | cons a parts ih =>
    cases parts with
    | nil => simp [List.intercalate]
    | cons c parts =>
      rw [List.cons_append,join_cons sep a (by simp),ih (by simp),join_cons sep a (by simp)]
      simp only [List.append_assoc]

theorem Leftmost.join (h : Leftmost sep limit s parts) : sep.intercalate parts=s := by
  induction h with
  | whole => simp [List.intercalate]
  | cut _ _ hrest ih => rw [join_cons sep _ hrest.ne_nil,ih]

theorem Rightmost.join (h : Rightmost sep limit s parts) : sep.intercalate parts=s := by
  induction h with
  | whole => simp [List.intercalate]
  | cut _ _ hrest ih => rw [join_snoc sep _ hrest.ne_nil,ih]

theorem Leftmost.length_le {n : Nat} (h : Leftmost sep (some n) s parts) : parts.length ≤ n+1 := by
  generalize hlimit : some n=limit at h
  induction h generalizing n with
  | whole => simp
  | cut hne _ _ ih =>
    subst hlimit
    have hpos : n≠0 := fun h0 => hne (congrArg some h0)
    have hrest := ih (n := n-1) rfl
    rw [List.length_cons]
    omega

theorem Rightmost.length_le {n : Nat} (h : Rightmost sep (some n) s parts) :
    parts.length ≤ n+1 := by
  generalize hlimit : some n=limit at h
  induction h generalizing n with
  | whole => simp
  | cut hne _ _ ih =>
    subst hlimit
    have hpos : n≠0 := fun h0 => hne (congrArg some h0)
    have hrest := ih (n := n-1) rfl
    rw [List.length_append,List.length_singleton]
    omega

/-- The first separators are the same ones for every cut at them. -/
theorem Leftmost.unique {parts' : List (List α)} (h : Leftmost sep limit s parts)
    (h' : Leftmost sep limit s parts') : parts=parts' := by
  induction h generalizing parts' with
  | whole hnone =>
    cases h' with
    | whole => rfl
    | cut hlimit =>
      cases hnone with
      | inl h0 => exact absurd h0 hlimit
      | inr hnone => exact absurd at_append (hnone _)
  | @cut limit a b parts hlimit hfirst _ ih =>
    generalize hs : a++sep++b=s at h'
    cases h' with
    | whole hnone =>
      subst hs
      cases hnone with
      | inl h0 => exact absurd h0 hlimit
      | inr hnone => exact absurd at_append (hnone _)
    | @cut _ a' b' parts' _ hfirst' hrest' =>
      have hlow : ¬a.length<a'.length := fun hlt => by
        refine hfirst' _ hlt ?_
        rw [← hs]
        exact at_append
      have hhigh : ¬a'.length<a.length := fun hlt => by
        refine hfirst _ hlt ?_
        rw [hs]
        exact at_append
      rw [List.append_assoc,List.append_assoc] at hs
      obtain ⟨ha,htail⟩ := List.append_inj hs (by omega)
      rw [ha,ih ((List.append_cancel_left htail) ▸ hrest')]

end Cuts

section Splitting

variable {α : Type} [DecidableEq α] (sep : List α)

/-- The parts between the first separators, at most `n` of them. -/
def splits : Nat → List α → List (List α)
  | 0,s => [s]
  | n+1,s =>
    match first sep s with
    | none => [s]
    | some i => s.take i::splits n (s.drop (i+sep.length))

/-- The parts between the last separators, at most `n` of them, from the right. -/
def rsplits : Nat → List α → List (List α)
  | 0,s => [s]
  | n+1,s =>
    match last sep s with
    | none => [s]
    | some i => s.drop (i+sep.length)::rsplits n (s.take i)

theorem splits_leftmost (n : Nat) (s : List α) : Leftmost sep (some n) s (splits sep n s) := by
  induction n generalizing s with
  | zero => exact .whole (.inl rfl)
  | succ n ih =>
    rw [splits]
    cases hfirst : first sep s with
    | none => exact .whole (.inr (first_none.mp hfirst))
    | some i =>
      obtain ⟨hat,hbefore⟩ := first_some.mp hfirst
      have hs := take_at hat
      have hlen : (s.take i).length=i := List.length_take_of_le hat.1
      have hcut := @Leftmost.cut α sep (some (n+1)) (s.take i) (s.drop (i+sep.length)) _ (by simp)
        (by rw [hs,hlen]; exact hbefore) (ih _)
      rw [hs] at hcut
      exact hcut

theorem rsplits_rightmost (n : Nat) (s : List α) :
    Rightmost sep (some n) s (rsplits sep n s).reverse := by
  induction n generalizing s with
  | zero => exact .whole (.inl rfl)
  | succ n ih =>
    rw [rsplits]
    cases hlast : last sep s with
    | none => exact .whole (.inr (last_none.mp hlast))
    | some i =>
      obtain ⟨hat,hafter⟩ := last_some.mp hlast
      have hs := take_at hat
      have hlen : (s.take i).length=i := List.length_take_of_le hat.1
      have hcut := @Rightmost.cut α sep (some (n+1)) (s.take i) (s.drop (i+sep.length)) _ (by simp)
        (by rw [hs,hlen]; exact hafter) (ih _)
      rw [hs] at hcut
      rw [List.reverse_cons]
      exact hcut

theorem Leftmost.unlimited {n : Nat} {s : List α} {parts : List (List α)} (hsep : sep≠[])
    (h : Leftmost sep (some n) s parts) (hn : s.length ≤ n) : Leftmost sep none s parts := by
  generalize hlimit : some n=limit at h
  induction h generalizing n with
  | whole hnone =>
    subst hlimit
    refine .whole (.inr ?_)
    cases hnone with
    | inr hnone => exact hnone
    | inl h0 =>
      cases h0
      have hnil := List.length_eq_zero_iff.mp (Nat.le_zero.mp hn)
      subst hnil
      intro i hat
      exact hsep (at_nil.mp hat).1
  | cut hne hfirst _ ih =>
    subst hlimit
    have hpos := List.length_pos_iff.mpr hsep
    simp only [List.length_append] at hn
    exact .cut (by simp) hfirst (ih (n := n-1) (by omega) rfl)

end Splitting

end InterpretThis.Occurrence
