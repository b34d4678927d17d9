import Mathlib.Data.List.Basic
import Mathlib.Data.List.Induction
import Mathlib.Data.Nat.Digits.Defs
import Mathlib.Tactic.IntervalCases
import Mathlib.Tactic.Ring

namespace InterpretThis
namespace Numeral

/-- The value of an ASCII digit or letter as a digit. -/
def digitValue (c : Char) : Option ℕ :=
  let n := c.toNat
  if 48≤n ∧ n≤57 then some (n-48)
  else if 97≤n ∧ n≤122 then some (n-87)
  else if 65≤n ∧ n≤90 then some (n-55)
  else none

def IsDigit (radix : ℕ) (c : Char) : Prop := ∃ d,digitValue c=some d ∧ d < radix

def value (radix : ℕ) (s : List Char) : ℕ :=
  s.foldl (fun n c => ((digitValue c).map (radix*n+·)).getD n) 0

/-- Characters with a property, with single underscores between them. -/
inductive Grouped (p : Char → Prop) : List Char → Prop where
  | single {c : Char} (hc : p c) : Grouped p [c]
  | cons {c : Char} {s : List Char} (hc : p c) (hs : Grouped p s) : Grouped p (c::s)
  | gap {c : Char} {s : List Char} (hc : p c) (hs : Grouped p s) : Grouped p (c:: '_'::s)

def strip (s : List Char) : List Char := s.filter (· ≠ '_')

section Separation

variable {p q : Char → Prop} {s : List Char}

theorem Grouped.ne_nil (h : Grouped p s) : s≠[] := by
  cases h <;> exact List.cons_ne_nil _ _

theorem Grouped.head (h : Grouped p s) : ∃ c s',s=c::s' ∧ p c := by
  cases h with
  | single hc => exact ⟨_,_,rfl,hc⟩
  | cons hc _ => exact ⟨_,_,rfl,hc⟩
  | gap hc _ => exact ⟨_,_,rfl,hc⟩

theorem Grouped.last (h : Grouped p s) : ∃ s' c,s=s'++[c] ∧ p c := by
  induction h with
  | single hc => exact ⟨[],_,rfl,hc⟩
  | @cons c _ _ _ ih =>
    obtain ⟨s',d,rfl,hd⟩ := ih
    exact ⟨c::s',d,rfl,hd⟩
  | @gap c _ _ _ ih =>
    obtain ⟨s',d,rfl,hd⟩ := ih
    exact ⟨c:: '_'::s',d,rfl,hd⟩

theorem Grouped.second {c d : Char} (h : Grouped p (c::d::s)) : d = '_' ∨ p d := by
  cases h with
  | cons _ hs =>
    obtain ⟨_,_,he,hd⟩ := hs.head
    cases he
    exact .inr hd
  | gap => exact .inl rfl

theorem Grouped.mono (h : Grouped p s) (hpq : ∀ c,p c → q c) : Grouped q s := by
  induction h with
  | single hc => exact .single (hpq _ hc)
  | cons hc _ ih => exact .cons (hpq _ hc) ih
  | gap hc _ ih => exact .gap (hpq _ hc) ih

theorem Grouped.strip_mem (h : Grouped p s) : ∀ c∈strip s,p c := by
  induction h with
  | @single a ha =>
    intro c hc
    obtain rfl := List.mem_singleton.mp (List.mem_of_mem_filter hc)
    exact ha
  | @cons a s ha _ ih =>
    intro c hc
    obtain rfl|hmem := List.mem_cons.mp (List.mem_of_mem_filter hc)
    · exact ha
    · exact ih c (List.mem_filter.mpr ⟨hmem,(List.mem_filter.mp hc).2⟩)
  | @gap a s ha _ ih =>
    intro c hc
    obtain ⟨hmem,hne⟩ := List.mem_filter.mp hc
    obtain rfl|hmem := List.mem_cons.mp hmem
    · exact ha
    · obtain rfl|hmem := List.mem_cons.mp hmem
      · exact absurd hne (by decide)
      · exact ih c (List.mem_filter.mpr ⟨hmem,hne⟩)

theorem Grouped.of_strip (h : Grouped (· ≠ '_') s) (hs : ∀ c∈strip s,p c) : Grouped p s := by
  induction h with
  | single hc =>
    exact .single (hs _ (List.mem_filter.mpr ⟨List.mem_cons_self,by simpa using hc⟩))
  | @cons c s hc _ ih =>
    refine .cons (hs c (List.mem_filter.mpr ⟨List.mem_cons_self,by simpa using hc⟩)) (ih ?_)
    intro d hd
    obtain ⟨hmem,hne⟩ := List.mem_filter.mp hd
    exact hs d (List.mem_filter.mpr ⟨List.mem_cons_of_mem _ hmem,hne⟩)
  | @gap c s hc _ ih =>
    refine .gap (hs c (List.mem_filter.mpr ⟨List.mem_cons_self,by simpa using hc⟩)) (ih ?_)
    intro d hd
    obtain ⟨hmem,hne⟩ := List.mem_filter.mp hd
    exact hs d (List.mem_filter.mpr
      ⟨List.mem_cons_of_mem _ (List.mem_cons_of_mem _ hmem),hne⟩)

theorem Grouped.strip_ne_nil (h : Grouped (· ≠ '_') s) : strip s≠[] := by
  obtain ⟨c,s',rfl,hc⟩ := h.head
  simp [strip,hc]

end Separation

section Values

variable {radix : ℕ} {s : List Char}

theorem isDigit_ne (c : Char) (hc : IsDigit radix c) : c ≠ '_' := by
  rintro rfl
  obtain ⟨d,hd,-⟩ := hc
  cases hd

theorem isDigit_unsigned (c : Char) (hc : IsDigit radix c) : c ≠ '+' ∧ c ≠ '-' := by
  obtain ⟨d,hd,-⟩ := hc
  constructor
  · rintro rfl
    cases hd
  · rintro rfl
    cases hd

theorem value_append (s : List Char) (c : Char) :
    value radix (s++[c])=((digitValue c).map (radix*value radix s+·)).getD (value radix s) := by
  rw [value,List.foldl_append]
  rfl

theorem value_strip (s : List Char) : value radix (strip s)=value radix s := by
  induction s using List.reverseRecOn with
  | nil => rfl
  | append_singleton s c ih =>
    by_cases hc : c = '_'
    · subst hc
      rw [value_append,strip,List.filter_append]
      change value radix (strip s++[])=value radix s
      rw [List.append_nil,ih]
    · have hone : strip (s++[c])=strip s++[c] := by
        rw [strip,List.filter_append]
        simp [strip,hc]
      rw [hone,value_append,value_append,ih]

theorem digitValue_digitChar {d : ℕ} (hd : d<16) : digitValue (Nat.digitChar d)=some d := by
  interval_cases d <;> rfl

theorem toDigits_isDigit (hr : 1 < radix) (h16 : radix≤16) (m : ℕ) :
    ∀ c∈Nat.toDigits radix m,IsDigit radix c := by
  induction m using Nat.strongRecOn with
  | _ m ih =>
    intro c hc
    have hdigit : ∀ d,d < radix → IsDigit radix (Nat.digitChar d) := by
      exact fun d hd => ⟨d,digitValue_digitChar (by omega),hd⟩
    by_cases hm : m < radix
    · rw [Nat.toDigits_of_lt_base hm,List.mem_singleton] at hc
      subst hc
      exact hdigit m hm
    · rw [Nat.toDigits_of_base_le hr (by omega),List.mem_append,List.mem_singleton] at hc
      obtain hc|rfl := hc
      · exact ih (m/radix) (Nat.div_lt_self (by omega) hr) c hc
      · exact hdigit _ (Nat.mod_lt _ (by omega))

theorem value_toDigits (hr : 1 < radix) (h16 : radix≤16) (m : ℕ) :
    value radix (Nat.toDigits radix m)=m := by
  induction m using Nat.strongRecOn with
  | _ m ih =>
    by_cases hm : m < radix
    · have hval : digitValue (Nat.digitChar m)=some m := digitValue_digitChar (by omega)
      rw [Nat.toDigits_of_lt_base hm]
      change ((digitValue (Nat.digitChar m)).map (radix*0+·)).getD 0=m
      rw [hval]
      exact Nat.zero_add m
    · have hmod : m%radix < radix := Nat.mod_lt _ (by omega)
      have hval := digitValue_digitChar (d := m%radix) (by omega)
      rw [Nat.toDigits_of_base_le hr (by omega),value_append,
        ih (m/radix) (Nat.div_lt_self (by omega) hr),hval]
      exact Nat.div_add_mod m radix

theorem grouped_of_forall {p : Char → Prop} (hne : s≠[]) (h : ∀ c∈s,p c) : Grouped p s := by
  induction s with
  | nil => exact absurd rfl hne
  | cons c s ih =>
    have hc := h c List.mem_cons_self
    by_cases hs : s=[]
    · subst hs
      exact .single hc
    · exact .cons hc (ih hs fun d hd => h d (List.mem_cons_of_mem _ hd))

theorem grouped_toDigits (hr : 1 < radix) (h16 : radix≤16) (m : ℕ) :
    Grouped (IsDigit radix) (Nat.toDigits radix m) :=
  grouped_of_forall Nat.toDigits_ne_nil (toDigits_isDigit hr h16 m)

end Values

end Numeral
end InterpretThis
