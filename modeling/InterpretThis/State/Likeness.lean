import InterpretThis.Pyset.Rebuild
import InterpretThis.State.Wire
import InterpretThis.Value.Agreement

namespace InterpretThis

open Pyhash Pyset

section Domain

mutual

/-- The keys of plain data. -/
def dataKey : ValueKey → Bool
  | .none => true
  | .bool _ => true
  | .int _ => true
  | .bigInt _ => true
  | .float _ => true
  | .string _ => true
  | .tuple items => dataKeys items
  | .frozenset items => dataKeys items
  | _ => false

def dataKeys : List ValueKey → Bool
  | [] => true
  | k::ks => dataKey k&&dataKeys ks

end

mutual

/-- Hashable plain data. -/
def frozen : Value → Bool
  | .none => true
  | .bool _ => true
  | .int _ => true
  | .bigInt _ => true
  | .float _ => true
  | .string _ => true
  | .bytes _ => true
  | .tuple items => frozenAll items
  | .frozenset items => frozenAll items
  | _ => false

def frozenAll : List Value → Bool
  | [] => true
  | v::vs => frozen v&&frozenAll vs

end

mutual

/-- A float that JSON cannot express, outside the keys of dicts, which hold bits. -/
def nonFinite : Value → Bool
  | .float f => !f.isFinite
  | .list _ items => anyNonFinite items
  | .tuple items => anyNonFinite items
  | .dict _ entries => entryNonFinite entries
  | .set items => anyNonFinite items
  | .frozenset items => anyNonFinite items
  | _ => false

def anyNonFinite : List Value → Bool
  | [] => false
  | v::vs => nonFinite v||anyNonFinite vs

def entryNonFinite : List (ValueKey×Value) → Bool
  | [] => false
  | (_,v)::es => nonFinite v||entryNonFinite es

end

variable (ext : Externals)

/-- Two members of one set. -/
def Distinct (x y : Value) : Prop :=
  ¬(pythonHash ext.sip x=pythonHash ext.sip y ∧ (recurseEq x y=true ∨ recurseEq y x=true))

mutual

/-- Plain data as the interpreter stores it: no key of a dict is the same as an earlier one, and
the members of a set are distinct. -/
def Stored : Value → Prop
  | .none => True
  | .bool _ => True
  | .int _ => True
  | .bigInt _ => True
  | .float _ => True
  | .string _ => True
  | .bytes _ => True
  | .list _ items => StoredAll items
  | .tuple items => StoredAll items
  | .dict _ entries =>
    StoredEntries entries ∧ entries.Pairwise (fun e e' => sameKey ext e'.1 e.1=false)
  | .set items => StoredAll items ∧ frozenAll items=true ∧ items.Pairwise (Distinct ext)
  | .frozenset items => StoredAll items ∧ frozenAll items=true ∧ items.Pairwise (Distinct ext)
  | _ => False

def StoredAll : List Value → Prop
  | [] => True
  | v::vs => Stored v ∧ StoredAll vs

def StoredEntries : List (ValueKey×Value) → Prop
  | [] => True
  | (k,v)::es => dataKey k=true ∧ Stored v ∧ StoredEntries es

end

end Domain

section Likeness

mutual

/-- Structural identity of plain data: floats by bits up to NaN, dicts entry by entry in order,
sets by their members in any order. Which object stores a list or dict does not matter. -/
def Alike : Value → Value → Prop
  | .float f,w => match w with
    | .float g => f=g ∨ (f.isNan=true ∧ g.isNan=true)
    | _ => False
  | .list _ xs,w => match w with
    | .list _ ys => AlikeAll xs ys
    | _ => False
  | .tuple xs,w => match w with
    | .tuple ys => AlikeAll xs ys
    | _ => False
  | .dict _ xs,w => match w with
    | .dict _ ys => AlikeEntries xs ys
    | _ => False
  | .set xs,w => match w with
    | .set ys => ∃zs, AlikeAll xs zs ∧ zs.Perm ys
    | _ => False
  | .frozenset xs,w => match w with
    | .frozenset ys => ∃zs, AlikeAll xs zs ∧ zs.Perm ys
    | _ => False
  | v,w => v=w

def AlikeAll : List Value → List Value → Prop
  | [],ys => ys=[]
  | x::xs,ys => match ys with
    | y::ys => Alike x y ∧ AlikeAll xs ys
    | [] => False

def AlikeEntries : List (ValueKey×Value) → List (ValueKey×Value) → Prop
  | [],ys => ys=[]
  | (k,x)::xs,ys => match ys with
    | (l,y)::ys => k=l ∧ Alike x y ∧ AlikeEntries xs ys
    | [] => False

end

theorem alikeAll_iff (xs ys : List Value) : AlikeAll xs ys ↔ List.Forall₂ Alike xs ys := by
  induction xs generalizing ys with
  | nil => simp [AlikeAll]
  | cons x xs ih =>
    cases ys with
    | nil => simp [AlikeAll]
    | cons y ys => simp [AlikeAll,ih]

end Likeness

section Congruence

/-- A member of a set beside what it is restored to. -/
structure Restored (v w : Value) : Prop where
  frozen : frozen v=true
  finite : nonFinite v=false
  alike : Alike v w

def isScalar : Value → Bool
  | .none => true
  | .bool _ => true
  | .int _ => true
  | .bigInt _ => true
  | .float _ => true
  | .string _ => true
  | .bytes _ => true
  | _ => false

/-- What a restored member can be. -/
inductive Member : Value → Value → Prop
  | scalar (v : Value) (h : isScalar v=true) : Member v v
  | tuple {xs ys : List Value} (h : List.Forall₂ Restored xs ys) : Member (.tuple xs) (.tuple ys)
  | frozenset {xs zs ys : List Value} (h : List.Forall₂ Restored xs zs) (hp : zs.Perm ys) :
      Member (.frozenset xs) (.frozenset ys)

theorem restoredAll {xs ys : List Value} (hf : frozenAll xs=true) (hn : anyNonFinite xs=false)
    (h : AlikeAll xs ys) : List.Forall₂ Restored xs ys := by
  rw [alikeAll_iff] at h
  induction h with
  | nil => exact .nil
  | cons hr _ ih =>
    simp only [frozenAll,Bool.and_eq_true] at hf
    simp only [anyNonFinite,Bool.or_eq_false_iff] at hn
    exact .cons ⟨hf.1,hn.1,hr⟩ (ih hf.2 hn.2)

theorem Restored.member {v w : Value} (h : Restored v w) : Member v w := by
  obtain ⟨hf,hn,ha⟩ := h
  cases v with
  | float f =>
    cases w with
    | float g =>
      simp only [nonFinite,Bool.not_eq_false'] at hn
      have hnan := F64.isNan_of_finite f hn
      have heq : f=g := ha.resolve_right (fun hc => by simp [hnan] at hc)
      rw [← heq]
      exact .scalar _ rfl
    | _ => exact ha.elim
  | tuple xs =>
    cases w with
    | tuple ys => exact .tuple (restoredAll hf hn ha)
    | _ => exact ha.elim
  | frozenset xs =>
    cases w with
    | frozenset ys =>
      obtain ⟨zs,hz,hp⟩ := ha
      exact .frozenset (restoredAll hf hn hz) hp
    | _ => exact ha.elim
  | none => exact ha ▸ .scalar _ rfl
  | bool b => exact ha ▸ .scalar _ rfl
  | int i => exact ha ▸ .scalar _ rfl
  | bigInt i => exact ha ▸ .scalar _ rfl
  | string s => exact ha ▸ .scalar _ rfl
  | bytes b => exact ha ▸ .scalar _ rfl
  | _ => exact absurd hf (by simp [InterpretThis.frozen])

end Congruence

section Comparisons

variable (sip : List UInt8 → UInt64)

theorem all_of_hashable (xs : List Value) (h : ∀x∈xs, pythonHash sip x≠none) :
    pythonHashAll sip xs≠none := by
  induction xs with
  | nil => simp [pythonHashAll]
  | cons x xs ih =>
    obtain ⟨k,hk⟩ := Option.ne_none_iff_exists'.mp (h x List.mem_cons_self)
    obtain ⟨ks,hks⟩ := Option.ne_none_iff_exists'.mp
      (ih (fun y hy => h y (List.mem_cons_of_mem x hy)))
    simp [pythonHashAll,hk,hks]

theorem pythonHash_perm {xs ys : List Value} (h : xs.Perm ys) :
    pythonHash sip (.frozenset xs)=pythonHash sip (.frozenset ys) := by
  have hside : ∀{xs ys : List Value}, xs.Perm ys → pythonHashAll sip xs≠none →
      pythonHashAll sip ys≠none := fun hp hx => all_of_hashable sip _
    (fun y hy => hashable_of_all sip _ hx y (hp.mem_iff.mpr hy))
  by_cases hx : pythonHashAll sip xs=none
  · have hy : pythonHashAll sip ys=none := by
      by_contra hy
      exact hside h.symm hy hx
    simp only [pythonHash,hx,hy]
  · exact pythonHash_frozenset_perm sip xs ys h hx (hside h hx)

mutual

theorem Restored.hash {v w : Value} (h : Restored v w) : pythonHash sip v=pythonHash sip w := by
  cases hm : h.member with
  | scalar => rfl
  | tuple hr =>
    have hall := restored_hashes hr
    simp only [pythonHash,pythonHashAll_congr sip _ _ hall]
  | frozenset hr hp =>
    have hall := restored_hashes hr
    rw [← pythonHash_perm sip hp]
    simp only [pythonHash,pythonHashAll_congr sip _ _ hall]
termination_by sizeOf v

theorem restored_hashes {xs ys : List Value} (h : List.Forall₂ Restored xs ys) :
    xs.map (pythonHash sip)=ys.map (pythonHash sip) := by
  cases h with
  | nil => rfl
  | cons hr ht => rw [List.map_cons,List.map_cons,hr.hash,restored_hashes ht]
termination_by sizeOf xs

end

/-- Comparisons of restored members go as before. -/
def Agree (eq : Value → Value → Bool) : Prop :=
  ∀a a' b b', Restored a a' → Restored b b' → eq a b=eq a' b'

variable {eq : Value → Value → Bool}

theorem zipAll_restored (heq : Agree eq) {xs xs' ys ys' : List Value}
    (hx : List.Forall₂ Restored xs xs') (hy : List.Forall₂ Restored ys ys') :
    zipAll eq xs ys=zipAll eq xs' ys' := by
  have hpairs : (xs.zip ys).all (fun p => eq p.1 p.2)=(xs'.zip ys').all (fun p => eq p.1 p.2) := by
    induction hx generalizing ys ys' with
    | nil => rfl
    | cons hr _ ih =>
      cases hy with
      | nil => rfl
      | cons hs ht => simp only [List.zip_cons_cons,List.all_cons,heq _ _ _ _ hr hs,ih ht]
  simp only [zipAll,hx.length_eq,hy.length_eq,hpairs]

theorem allIn_restored (heq : Agree eq) {xs zs xs' ys us ys' : List Value}
    (hx : List.Forall₂ Restored xs zs) (hxp : zs.Perm xs') (hy : List.Forall₂ Restored ys us)
    (hyp : us.Perm ys') : allIn eq xs ys=allIn eq xs' ys' := by
  have hany : ∀x z, Restored x z → ys.any (fun y => eq x y)=ys'.any (fun y => eq z y) := by
    intro x z hr
    rw [← hyp.any_eq]
    clear hyp
    induction hy with
    | nil => rfl
    | cons hs _ ih => simp only [List.any_cons,heq _ _ _ _ hr hs,ih]
  have hall : xs.all (fun x => ys.any (fun y => eq x y))=xs'.all (fun z => ys'.any (fun y => eq z y)) := by
    rw [← hxp.all_eq]
    clear hxp
    induction hx with
    | nil => rfl
    | cons hr _ ih => simp only [List.all_cons,hany _ _ hr,ih]
  simp only [allIn,hall,hx.length_eq,hy.length_eq,hxp.length_eq,hyp.length_eq]

theorem scalar_container (n : Nat) (v : Value) (h : isScalar v=true) (xs : List Value) :
    recurseEqN (n+1) v (.tuple xs)=false ∧ recurseEqN (n+1) (.tuple xs) v=false ∧
    recurseEqN (n+1) v (.frozenset xs)=false ∧ recurseEqN (n+1) (.frozenset xs) v=false := by
  cases v <;> first | exact ⟨rfl,rfl,rfl,rfl⟩ | cases h

theorem recurse_restored (n : Nat) : Agree (recurseEqN n) := by
  induction n with
  | zero => exact fun _ _ _ _ _ _ => rfl
  | succ n ih =>
    intro a a' b b' ha hb
    cases ha.member with
    | scalar _ hs =>
      have hside := scalar_container n a hs
      cases hb.member with
      | scalar => rfl
      | tuple => rw [(hside _).1,(hside _).1]
      | frozenset => rw [(hside _).2.2.1,(hside _).2.2.1]
    | tuple hr =>
      cases hb.member with
      | scalar _ hs =>
        have hside := scalar_container n b hs
        rw [(hside _).2.1,(hside _).2.1]
      | tuple ht => simp only [recurseEqN,eqSlot,zipAll_restored ih hr ht]
      | frozenset => rfl
    | frozenset hr hp =>
      cases hb.member with
      | scalar _ hs =>
        have hside := scalar_container n b hs
        rw [(hside _).2.2.2,(hside _).2.2.2]
      | tuple => rfl
      | frozenset ht hq =>
        simp only [recurseEqN,eqSlot,Value.setItems,Option.map_some,allIn_restored ih hr hp ht hq]

theorem Distinct.restored {ext : Externals} {xs ys : List Value} (h : List.Forall₂ Restored xs ys)
    (hd : xs.Pairwise (Distinct ext)) : ys.Pairwise (Distinct ext) := by
  induction h with
  | nil => exact .nil
  | cons hr ht ih =>
    obtain ⟨hx,hxs⟩ := List.pairwise_cons.mp hd
    refine List.pairwise_cons.mpr ⟨fun y hy => ?_,ih hxs⟩
    obtain ⟨x,hmem,hxy⟩ := Matching.forall₂_mem_right ht y hy
    have hne := hx x hmem
    simp only [Distinct,recurseEq] at hne ⊢
    rw [← hr.hash,← hxy.hash,← recurse_restored _ _ _ _ _ hr hxy,← recurse_restored _ _ _ _ _ hxy hr]
    exact hne

end Comparisons

end InterpretThis
