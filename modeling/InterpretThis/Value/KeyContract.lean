import InterpretThis.Value.Leaf
import Mathlib.Data.Set.Basic

namespace InterpretThis

open Pyhash

section Parts

mutual

/-- The keys inside a key that are neither tuples nor frozensets. -/
def atoms : ValueKey → List ValueKey
  | .tuple ks => atomsAll ks
  | .frozenset ks => atomsAll ks
  | k => [k]

def atomsAll : List ValueKey → List ValueKey
  | [] => []
  | k::ks => atoms k++atomsAll ks

end

mutual

/-- The element lists of the frozensets inside a key. -/
def frozensets : ValueKey → List (List ValueKey)
  | .tuple ks => frozensetsAll ks
  | .frozenset ks => ks::frozensetsAll ks
  | _ => []

def frozensetsAll : List ValueKey → List (List ValueKey)
  | [] => []
  | k::ks => frozensets k++frozensetsAll ks

end

mutual

def depth : ValueKey → Nat
  | .tuple ks => depthAll ks+1
  | .frozenset ks => depthAll ks+1
  | _ => 0

def depthAll : List ValueKey → Nat
  | [] => 0
  | k::ks => max (depth k) (depthAll ks)

end

variable {x a : ValueKey} {ks g : List ValueKey}

theorem atomsAll_mem (hx : x∈ks) (ha : a∈atoms x) : a∈atomsAll ks := by
  induction ks with
  | nil => cases hx
  | cons k ks ih =>
    rw [atomsAll,List.mem_append]
    cases hx with
    | head => exact .inl ha
    | tail _ hx => exact .inr (ih hx)

theorem atomsAll_iff : a∈atomsAll ks ↔ ∃x∈ks, a∈atoms x := by
  constructor
  · intro h
    induction ks with
    | nil => cases h
    | cons k ks ih =>
      rw [atomsAll,List.mem_append] at h
      cases h with
      | inl h => exact ⟨k,by simp,h⟩
      | inr h =>
        obtain ⟨x,hx,ha⟩ := ih h
        exact ⟨x,by simp [hx],ha⟩
  · intro ⟨x,hx,ha⟩
    exact atomsAll_mem hx ha

theorem atomsAll_perm {zs ys : List ValueKey} (hp : zs.Perm ys) (a : ValueKey) :
    a∈atomsAll zs ↔ a∈atomsAll ys := by
  rw [atomsAll_iff,atomsAll_iff]
  simp only [hp.mem_iff]

theorem frozensetsAll_mem (hx : x∈ks) (hg : g∈frozensets x) : g∈frozensetsAll ks := by
  induction ks with
  | nil => cases hx
  | cons k ks ih =>
    rw [frozensetsAll,List.mem_append]
    cases hx with
    | head => exact .inl hg
    | tail _ hx => exact .inr (ih hx)

theorem depthAll_mem (hx : x∈ks) : depth x≤depthAll ks := by
  induction ks with
  | nil => cases hx
  | cons k ks ih =>
    rw [depthAll]
    cases hx with
    | head => exact le_max_left _ _
    | tail _ hx => exact (ih hx).trans (le_max_right _ _)

theorem key_shape (k : ValueKey) :
    atoms k=[k] ∧ keyKind k<12 ∨ (∃xs, k=.tuple xs) ∨ ∃xs, k=.frozenset xs := by
  cases k <;> first
    | exact .inr (.inl ⟨_,rfl⟩)
    | exact .inr (.inr ⟨_,rfl⟩)
    | exact .inl ⟨by simp [atoms],by simp [keyKind]⟩

end Parts

section Produced

variable (finish : List Datum → UInt64)

/-- The keys that `value_to_key` builds. -/
def Produced (k : ValueKey) : Prop := ∃v, valueToKey finish v=.ok k

theorem boxed_bigint (n : Int) : ∀a∈atoms (bigintToKey n), Boxed finish a := by
  unfold bigintToKey
  cases fitsI64 n with
  | some i =>
    intro a ha h v hv
    rw [List.mem_singleton.mp ha] at hv
    cases hv
  | none =>
    intro a ha h v hv
    rw [List.mem_singleton.mp ha] at hv
    cases hv

theorem boxed_single (k : ValueKey) (hk : atoms k=[k]) (hb : Boxed finish k) :
    ∀a∈atoms k, Boxed finish a := by
  intro a ha
  rw [hk] at ha
  rw [List.mem_singleton.mp ha]
  exact hb

theorem boxed_instance (h : Int64) (v : Value) (b : BoxKind) (hv : boxKind v=some b)
    (hh : h=b.hash finish) : ∀a∈atoms (.instanceKey h v), Boxed finish a := by
  refine boxed_single finish _ rfl ?_
  intro h' v' he
  cases he
  exact ⟨b,hv,hh⟩

theorem map_ok {α β ε : Type} {f : α → β} {r : Except ε α} {y : β} (h : r.map f=.ok y) :
    ∃x, r=.ok x ∧ y=f x := by
  cases r with
  | error e => cases h
  | ok x =>
    cases h
    exact ⟨x,rfl,rfl⟩

theorem boxed_plain (k : ValueKey) (hk : keyKind k≠11) : Boxed finish k := by
  intro h v hv
  rw [hv] at hk
  exact absurd rfl hk

mutual

theorem produced_boxed (v : Value) (k : ValueKey) (h : valueToKey finish v=.ok k) :
    ∀a∈atoms k, Boxed finish a := by
  cases v
  case tuple vs =>
    obtain ⟨ks,hs,rfl⟩ := map_ok (by simpa only [valueToKey] using h)
    rw [atoms]
    exact produced_boxed_all vs ks hs
  case frozenset vs =>
    obtain ⟨ks,hs,rfl⟩ := map_ok (by simpa only [valueToKey] using h)
    rw [atoms]
    exact produced_boxed_all vs ks hs
  case enumMember c m v kind =>
    cases kind with
    | int => exact produced_boxed v k (by simpa only [valueToKey] using h)
    | intFlag => exact produced_boxed v k (by simpa only [valueToKey] using h)
    | str => exact produced_boxed v k (by simpa only [valueToKey] using h)
    | plain =>
      simp only [valueToKey,Except.ok.injEq] at h
      rw [← h]
      exact boxed_instance finish _ _ (.member c m) rfl rfl
    | flag =>
      simp only [valueToKey,Except.ok.injEq] at h
      rw [← h]
      exact boxed_instance finish _ _ (.member c m) rfl rfl
  case complex re im =>
    simp only [valueToKey] at h
    split at h
    · cases h
      exact boxed_single finish _ rfl (boxed_plain finish _ (by simp [keyKind,floatToKey]))
    · cases h
      exact boxed_single finish _ rfl (boxed_plain finish _ (by simp [keyKind]))
  case decimal d =>
    simp only [valueToKey] at h
    split at h
    · cases h
      exact boxed_bigint finish _
    · cases h
      exact boxed_single finish _ rfl (boxed_plain finish _ (by simp [keyKind]))
  case fraction q =>
    simp only [valueToKey] at h
    split at h
    · cases h
      exact boxed_bigint finish _
    · cases h
      exact boxed_single finish _ rfl (boxed_plain finish _ (by simp [keyKind]))
  all_goals
    simp only [valueToKey] at h
    cases h
  all_goals first
    | exact boxed_instance finish _ _ _ rfl rfl
    | exact boxed_single finish _ rfl (boxed_plain finish _ (by simp [keyKind,floatToKey]))

theorem produced_boxed_all : ∀(vs : List Value) (ks : List ValueKey),
    valuesToKeys finish vs=.ok ks → ∀a∈atomsAll ks, Boxed finish a
  | [],ks,h => by
    simp only [valuesToKeys,Except.ok.injEq] at h
    rw [← h]
    intro a ha
    cases ha
  | v::vs,ks,h => by
    rw [valuesToKeys] at h
    cases hv : valueToKey finish v with
    | error e => simp [hv,bind,Except.bind] at h
    | ok k =>
      cases hs : valuesToKeys finish vs with
      | error e => simp [hv,hs,bind,Except.bind] at h
      | ok ks' =>
        simp only [hv,hs,bind,Except.bind,pure,Except.pure,Except.ok.injEq] at h
        rw [← h]
        intro a ha
        rw [atomsAll,List.mem_append] at ha
        cases ha with
        | inl ha => exact produced_boxed v k hv a ha
        | inr ha => exact produced_boxed_all vs ks' hs a ha

end

end Produced

section Same

variable (split : Bool)

/-- One level of sameness: equal leaves, equal tuples, frozensets with equal elements in
some order. -/
inductive SameStep (R : ValueKey → ValueKey → Prop) : ValueKey → ValueKey → Prop
  | leaf {a b : ValueKey} {x : Leaf} (ha : leaf split a=some x) (hb : leaf split b=some x) :
      SameStep R a b
  | tuple {xs ys : List ValueKey} (h : List.Forall₂ R xs ys) : SameStep R (.tuple xs) (.tuple ys)
  | frozenset {xs zs ys : List ValueKey} (h : List.Forall₂ R xs zs) (hp : zs.Perm ys) :
      SameStep R (.frozenset xs) (.frozenset ys)

def Same : Nat → ValueKey → ValueKey → Prop
  | 0 => fun _ _ => False
  | n+1 => SameStep split (Same n)

variable {split} {R : ValueKey → ValueKey → Prop}

theorem SameStep.symm (hs : ∀a b, R a b → R b a) {a b : ValueKey} (h : SameStep split R a b) :
    SameStep split R b a := by
  cases h with
  | leaf ha hb => exact .leaf hb ha
  | tuple h => exact .tuple (h.flip.imp (fun a b h => hs b a h))
  | frozenset h hp =>
    obtain ⟨ws,hw,hperm⟩ := List.perm_comp_forall₂ hp.symm (h.flip.imp (fun a b h => hs b a h))
    exact .frozenset hw hperm

theorem forall₂_trans (ht : ∀a b c, R a b → R b c → R a c) {xs ys zs : List ValueKey}
    (h : List.Forall₂ R xs ys) (h' : List.Forall₂ R ys zs) : List.Forall₂ R xs zs := by
  induction h generalizing zs with
  | nil => exact h'
  | cons hr _ ih =>
    cases h' with
    | cons hr' h' => exact .cons (ht _ _ _ hr hr') (ih h')

theorem SameStep.trans (ht : ∀a b c, R a b → R b c → R a c) {a b c : ValueKey}
    (h : SameStep split R a b) (h' : SameStep split R b c) : SameStep split R a c := by
  cases h with
  | leaf ha hb =>
    cases h' with
    | leaf hb' hc =>
      have he := Option.some.inj (hb.symm.trans hb')
      rw [← he] at hc
      exact .leaf ha hc
    | tuple _ => cases hb
    | frozenset _ _ => cases hb
  | tuple h =>
    cases h' with
    | leaf hb _ => cases hb
    | tuple h' => exact .tuple (forall₂_trans ht h h')
  | frozenset h hp =>
    cases h' with
    | leaf hb _ => cases hb
    | frozenset h' hp' =>
      obtain ⟨ws,hw,hperm⟩ := List.perm_comp_forall₂ hp h'
      exact .frozenset (forall₂_trans ht h hw) (hperm.trans hp')

theorem Same.symm (n : Nat) (a b : ValueKey) (h : Same split n a b) : Same split n b a := by
  induction n generalizing a b with
  | zero => exact h
  | succ n ih => exact SameStep.symm ih h

theorem Same.trans (n : Nat) (a b c : ValueKey) (h : Same split n a b) (h' : Same split n b c) :
    Same split n a c := by
  induction n generalizing a b c with
  | zero => cases h
  | succ n ih => exact SameStep.trans ih h h'

section Feed

variable (finish : List Datum → UInt64)

theorem feedAll_congr {xs ys : List ValueKey}
    (h : List.Forall₂ (fun x y => keyFeed finish x=keyFeed finish y) xs ys) :
    feedAll finish xs=feedAll finish ys := by
  induction h with
  | nil => rfl
  | cons hr _ ih => rw [feedAll,feedAll,hr,ih]

theorem feedXor_foldl (ks : List ValueKey) (acc : UInt64) :
    feedXor finish acc ks=(ks.map (fun k => finish (keyFeed finish k))).foldl (·^^^·) acc := by
  induction ks generalizing acc with
  | nil => rw [feedXor,List.map_nil,List.foldl_nil]
  | cons k ks ih => rw [feedXor,ih,List.map_cons,List.foldl_cons]

theorem feedXor_congr {xs zs ys : List ValueKey}
    (h : List.Forall₂ (fun x y => keyFeed finish x=keyFeed finish y) xs zs) (hp : zs.Perm ys) :
    feedXor finish 0 xs=feedXor finish 0 ys := by
  have hmap : xs.map (fun k => finish (keyFeed finish k))=zs.map (fun k => finish (keyFeed finish k)) :=
    Matching.map_eq_of_forall₂ (h.imp (fun _ _ he => congrArg finish he))
  have hperm := hp.map (fun k => finish (keyFeed finish k))
  rw [feedXor_foldl,feedXor_foldl,hmap]
  refine hperm.foldl_eq' ?_ 0
  intro x _ y _ z
  rw [UInt64.xor_assoc,UInt64.xor_assoc,UInt64.xor_comm y x]

theorem same_feed (n : Nat) (a b : ValueKey) (h : Same split n a b)
    (ha : ∀x∈atoms a, Boxed finish x) (hb : ∀x∈atoms b, Boxed finish x) :
    keyFeed finish a=keyFeed finish b := by
  induction n generalizing a b with
  | zero => cases h
  | succ n ih =>
    -- The elements' feeds, for either kind of container.
    have elements : ∀xs ys, List.Forall₂ (Same split n) xs ys →
        (∀x∈atomsAll xs, Boxed finish x) → (∀y∈atomsAll ys, Boxed finish y) →
        List.Forall₂ (fun x y => keyFeed finish x=keyFeed finish y) xs ys := by
      intro xs ys hr hx hy
      refine Matching.forall₂_imp_mem hr ?_
      intro x hmx y hmy hs
      exact ih x y hs (fun _ h => hx _ (atomsAll_mem hmx h)) (fun _ h => hy _ (atomsAll_mem hmy h))
    cases h with
    | leaf hx hy =>
      refine feed_leaf finish split a b _ hx hy ?_ ?_
      · obtain ⟨hs,_⟩|⟨xs,rfl⟩|⟨xs,rfl⟩ := key_shape a
        · exact ha a (by rw [hs]; exact List.mem_singleton.mpr rfl)
        · cases hx
        · cases hx
      · obtain ⟨hs,_⟩|⟨xs,rfl⟩|⟨xs,rfl⟩ := key_shape b
        · exact hb b (by rw [hs]; exact List.mem_singleton.mpr rfl)
        · cases hy
        · cases hy
    | tuple hr =>
      rw [atoms] at ha hb
      rw [keyFeed,keyFeed,hr.length_eq,feedAll_congr finish (elements _ _ hr ha hb)]
    | frozenset hr hp =>
      rw [atoms] at ha hb
      have hz : ∀y∈atomsAll _, Boxed finish y := fun y hy => hb y ((atomsAll_perm hp y).mp hy)
      rw [keyFeed,keyFeed,feedXor_congr finish (elements _ _ hr ha hz) hp]

end Feed

end Same

section Containers

variable (veq : Value → Value → Bool)

theorem keyZip_iff (flip : Bool) (xs ys : List ValueKey) :
    keyZip veq flip xs ys=true ↔ List.Forall₂ (fun x y => keyEqDir veq flip x y=true) xs ys := by
  induction xs generalizing ys with
  | nil =>
    cases ys with
    | nil => simp [keyZip]
    | cons y ys => simp [keyZip]
  | cons x xs ih =>
    cases ys with
    | nil => simp [keyZip]
    | cons y ys => rw [keyZip,Bool.and_eq_true,ih,List.forall₂_cons]

theorem keyAll_iff (xs ys : List ValueKey) :
    keyAll veq xs ys=true ↔ ∀x∈xs, ∃y∈ys, keyEqDir veq true x y=true := by
  induction xs with
  | nil => simp [keyAll]
  | cons x xs ih =>
    rw [keyAll,Bool.and_eq_true,ih,List.any_eq_true,List.forall_mem_cons]

theorem keySome_iff (xs : List ValueKey) (y : ValueKey) :
    keySome veq xs y=true ↔ ∃x∈xs, keyEqDir veq false x y=true := by
  induction xs with
  | nil => simp [keySome]
  | cons x xs ih => rw [keySome,Bool.or_eq_true,ih,List.exists_mem_cons_iff]

theorem keyEqDir_tuple (flip : Bool) (xs ys : List ValueKey) :
    keyEqDir veq flip (.tuple xs) (.tuple ys)=true ↔
      List.Forall₂ (fun x y => keyEqDir veq flip x y=true) xs ys := by
  rw [keyEqDir,keyZip_iff]

theorem keyEqDir_frozenset (xs ys : List ValueKey) :
    keyEqDir veq false (.frozenset xs) (.frozenset ys)=true ↔
      xs.length=ys.length ∧ ∀x∈xs, ∃y∈ys, keyEqDir veq true x y=true := by
  rw [keyEqDir]
  simp [keyAll_iff]

theorem keyEqDir_frozenset_flip (xs ys : List ValueKey) :
    keyEqDir veq true (.frozenset xs) (.frozenset ys)=true ↔
      xs.length=ys.length ∧ ∀y∈ys, ∃x∈xs, keyEqDir veq false x y=true := by
  rw [keyEqDir]
  simp [keySome_iff]

end Containers

section Comparison

variable (m : Nat) (A : Set ValueKey)

/-- The key is built from atoms of `A`, and no frozenset in it lists two equal keys. -/
structure Within (k : ValueKey) : Prop where
  atom : ∀a∈atoms k, a∈A
  distinct : ∀g∈frozensets k, g.Pairwise (fun x y => keyEq (valuesEqual (m+1)) x y=false)

variable {m A} {xs : List ValueKey}

theorem Within.tuple {x : ValueKey} (h : Within m A (.tuple xs)) (hx : x∈xs) : Within m A x := by
  constructor
  · intro a ha
    exact h.atom a (by rw [atoms]; exact atomsAll_mem hx ha)
  · intro g hg
    exact h.distinct g (by rw [frozensets]; exact frozensetsAll_mem hx hg)

theorem Within.frozenset {x : ValueKey} (h : Within m A (.frozenset xs)) (hx : x∈xs) :
    Within m A x := by
  constructor
  · intro a ha
    exact h.atom a (by rw [atoms]; exact atomsAll_mem hx ha)
  · intro g hg
    refine h.distinct g ?_
    rw [frozensets]
    exact List.mem_cons_of_mem _ (frozensetsAll_mem hx hg)

theorem Within.pairwise (h : Within m A (.frozenset xs)) :
    xs.Pairwise (fun x y => keyEq (valuesEqual (m+1)) x y=false) :=
  h.distinct xs (by rw [frozensets]; exact List.mem_cons_self)

theorem depth_tuple {n : Nat} {x : ValueKey} (h : depth (.tuple xs)<n+1) (hx : x∈xs) :
    depth x<n := by
  have hd := depthAll_mem hx
  rw [depth] at h
  omega

theorem depth_frozenset {n : Nat} {x : ValueKey} (h : depth (.frozenset xs)<n+1) (hx : x∈xs) :
    depth x<n := by
  have hd := depthAll_mem hx
  rw [depth] at h
  omega

/-- On atoms of `A` equality is equality of leaves. -/
structure Readable (split : Bool) (m : Nat) (A : Set ValueKey) : Prop where
  read : ∀a∈A, ∃x, leaf split a=some x
  iff : ∀a∈A, ∀b∈A, ∀flip x y, leaf split a=some x → leaf split b=some y →
    (keyEqDir (valuesEqual (m+1)) flip a b=true ↔ x=y)

variable {split : Bool} (hA : Readable split m A)

include hA

theorem keyEqDir_leaf_same {R : ValueKey → ValueKey → Prop} {a b : ValueKey} (flip : Bool)
    (ha : a∈A) (hb : b∈A) :
    keyEqDir (valuesEqual (m+1)) flip a b=true ↔ SameStep split R a b := by
  obtain ⟨x,hx⟩ := hA.read a ha
  obtain ⟨y,hy⟩ := hA.read b hb
  rw [hA.iff a ha b hb flip x y hx hy]
  constructor
  · intro he
    rw [he] at hx
    exact .leaf hx hy
  · intro h
    cases h with
    | leaf hx' hy' => exact Option.some.inj (hx.symm.trans (hx'.trans (hy'.symm.trans hy)))
    | tuple _ => cases hx
    | frozenset _ _ => cases hx

/-- The comparison is sameness on keys no deeper than `n`. -/
def Compares (split : Bool) (m : Nat) (A : Set ValueKey) (n : Nat) : Prop :=
  ∀a b, depth a<n → depth b<n → Within m A a → Within m A b → ∀flip,
    (keyEqDir (valuesEqual (m+1)) flip a b=true ↔ Same split n a b)

omit hA in
theorem distinct_same {n : Nat} (ih : Compares split m A n) (hd : ∀x∈xs, depth x<n)
    (hx : Within m A (.frozenset xs)) : xs.Pairwise (fun x x' => ¬Same split n x x') := by
  refine List.Pairwise.imp_of_mem ?_ hx.pairwise
  intro x x' hm hm' hne hs
  have he := (ih x x' (hd x hm) (hd x' hm') (hx.frozenset hm) (hx.frozenset hm') false).mpr hs
  rw [keyEq,he] at hne
  cases hne

omit hA in
theorem sameStep_frozenset {n : Nat} {xs ys : List ValueKey}
    (h : SameStep split (Same split n) (.frozenset xs) (.frozenset ys)) :
    xs.length=ys.length ∧ (∀x∈xs, ∃y∈ys, Same split n x y) ∧ ∀y∈ys, ∃x∈xs, Same split n x y := by
  cases h with
  | leaf hx _ => cases hx
  | frozenset h hp =>
    refine ⟨h.length_eq.trans hp.length_eq,?_,?_⟩
    · intro x hx
      obtain ⟨z,hz,hs⟩ := Matching.forall₂_mem_right h.flip x hx
      exact ⟨z,hp.mem_iff.mp hz,hs⟩
    · intro y hy
      exact Matching.forall₂_mem_right h y (hp.mem_iff.mpr hy)

omit hA in
/-- Either half of the search finds the whole matching when no frozenset has equal elements. -/
theorem frozenset_compares {n : Nat} (ih : Compares split m A n) {xs ys : List ValueKey}
    (hdx : ∀x∈xs, depth x<n) (hdy : ∀y∈ys, depth y<n) (hx : Within m A (.frozenset xs))
    (hy : Within m A (.frozenset ys)) (flip : Bool) :
    keyEqDir (valuesEqual (m+1)) flip (.frozenset xs) (.frozenset ys)=true ↔
      SameStep split (Same split n) (.frozenset xs) (.frozenset ys) := by
  have elements : ∀x∈xs, ∀y∈ys, ∀f, (keyEqDir (valuesEqual (m+1)) f x y=true ↔ Same split n x y) := by
    intro x hmx y hmy f
    exact ih x y (hdx x hmx) (hdy y hmy) (hx.frozenset hmx) (hy.frozenset hmy) f
  cases flip with
  | false =>
    rw [keyEqDir_frozenset]
    constructor
    · intro ⟨hl,hex⟩
      have hsame : ∀x∈xs, ∃y∈ys, Same split n x y := by
        intro x hmx
        obtain ⟨y,hmy,he⟩ := hex x hmx
        exact ⟨y,hmy,(elements x hmx y hmy true).mp he⟩
      obtain ⟨zs,hp,hr⟩ := Matching.exists_perm (Same split n) xs ys hl hsame
        ((distinct_same ih hdx hx).imp (fun hne y _ h =>
          hne (Same.trans n _ _ _ h.1 (Same.symm n _ _ h.2))))
      exact .frozenset hr hp
    · intro h
      obtain ⟨hl,hex,_⟩ := sameStep_frozenset h
      refine ⟨hl,?_⟩
      intro x hmx
      obtain ⟨y,hmy,hs⟩ := hex x hmx
      exact ⟨y,hmy,(elements x hmx y hmy true).mpr hs⟩
  | true =>
    rw [keyEqDir_frozenset_flip]
    constructor
    · intro ⟨hl,hex⟩
      have hsame : ∀y∈ys, ∃x∈xs, Same split n x y := by
        intro y hmy
        obtain ⟨x,hmx,he⟩ := hex y hmy
        exact ⟨x,hmx,(elements x hmx y hmy false).mp he⟩
      obtain ⟨zs,hp,hr⟩ := Matching.exists_perm (fun y x => Same split n x y) ys xs hl.symm hsame
        ((distinct_same ih hdy hy).imp (fun hne x _ h =>
          hne (Same.trans n _ _ _ (Same.symm n _ _ h.1) h.2)))
      obtain ⟨ws,hw,hperm⟩ := List.perm_comp_forall₂ hp.symm hr.flip
      exact .frozenset hw hperm
    · intro h
      obtain ⟨hl,_,hex⟩ := sameStep_frozenset h
      refine ⟨hl,?_⟩
      intro y hmy
      obtain ⟨x,hmx,hs⟩ := hex y hmy
      exact ⟨x,hmx,(elements x hmx y hmy false).mpr hs⟩

omit hA in
theorem tuple_compares {n : Nat} (ih : Compares split m A n) {xs ys : List ValueKey}
    (hdx : ∀x∈xs, depth x<n) (hdy : ∀y∈ys, depth y<n) (hx : Within m A (.tuple xs))
    (hy : Within m A (.tuple ys)) (flip : Bool) :
    keyEqDir (valuesEqual (m+1)) flip (.tuple xs) (.tuple ys)=true ↔
      SameStep split (Same split n) (.tuple xs) (.tuple ys) := by
  rw [keyEqDir_tuple]
  constructor
  · intro h
    refine .tuple (Matching.forall₂_imp_mem h ?_)
    intro x hmx y hmy he
    exact (ih x y (hdx x hmx) (hdy y hmy) (hx.tuple hmx) (hy.tuple hmy) flip).mp he
  · intro h
    cases h with
    | leaf hx _ => cases hx
    | tuple h =>
      refine Matching.forall₂_imp_mem h ?_
      intro x hmx y hmy hs
      exact (ih x y (hdx x hmx) (hdy y hmy) (hx.tuple hmx) (hy.tuple hmy) flip).mpr hs

omit hA in
theorem SameStep.kind {R : ValueKey → ValueKey → Prop} {a b : ValueKey}
    (h : SameStep split R a b) : keyKind a=keyKind b := by
  cases h with
  | leaf ha hb => rw [← leaf_kind split a _ ha,← leaf_kind split b _ hb]
  | tuple _ => rfl
  | frozenset _ _ => rfl

theorem compares (n : Nat) : Compares split m A n := by
  induction n with
  | zero =>
    intro a b hda
    omega
  | succ n ih =>
    intro a b hda hdb ha hb flip
    change _ ↔ SameStep split (Same split n) a b
    by_cases hk : keyKind a=keyKind b
    · obtain ⟨hs,ha12⟩|⟨xs,rfl⟩|⟨xs,rfl⟩ := key_shape a
      · obtain ⟨hs',_⟩|⟨ys,rfl⟩|⟨ys,rfl⟩ := key_shape b
        · refine keyEqDir_leaf_same hA flip (ha.atom a ?_) (hb.atom b ?_)
          · rw [hs]
            exact List.mem_singleton.mpr rfl
          · rw [hs']
            exact List.mem_singleton.mpr rfl
        · rw [hk] at ha12
          exact absurd ha12 (by simp [keyKind])
        · rw [hk] at ha12
          exact absurd ha12 (by simp [keyKind])
      · cases b <;> first | (cases hk; done) | skip
        exact tuple_compares ih (fun _ => depth_tuple hda) (fun _ => depth_tuple hdb) ha hb flip
      · cases b <;> first | (cases hk; done) | skip
        exact frozenset_compares ih (fun _ => depth_frozenset hda) (fun _ => depth_frozenset hdb)
          ha hb flip
    · rw [keyEqDir_foreign flip a b _ hk]
      constructor
      · intro h
        cases h
      · intro h
        exact absurd h.kind hk

end Comparison

section Contract

/-- `==` on keys. -/
def keyEquals (a b : ValueKey) : Bool := keyEq (valuesEqual eqRecursionLimit) a b

/-- What a map asks of its keys. -/
structure KeyContract (finish : List Datum → UInt64) (S : Set ValueKey) : Prop where
  refl : ∀a∈S, keyEquals a a=true
  symm : ∀a∈S, ∀b∈S, keyEquals a b=true → keyEquals b a=true
  trans : ∀a∈S, ∀b∈S, ∀c∈S, keyEquals a b=true → keyEquals b c=true → keyEquals a c=true
  feed : ∀a∈S, ∀b∈S, keyEquals a b=true → keyFeed finish a=keyFeed finish b

/-- No integer zero beside float zeros of both signs, no two spellings of one type, no
frozenset that lists a key twice. -/
structure Separated (S : Set ValueKey) : Prop where
  zeros : (∀k∈S, ∀a∈atoms k, intLike a≠some 0) ∨
    ∀k∈S, ∀k'∈S, ∀bits bits', .float bits∈atoms k → .float bits'∈atoms k' →
      F64.mag ⟨bits⟩=0 → F64.mag ⟨bits'⟩=0 → bits=bits'
  names : ∀k∈S, ∀k'∈S, ∀h v h' v' n n', .instanceKey h v∈atoms k → .instanceKey h' v'∈atoms k' →
    typeLikeName v=some n → typeLikeName v'=some n' → nameEq n n'=true → n=n'
  distinct : ∀k∈S, ∀g∈frozensets k, g.Pairwise (fun x y => keyEquals x y=false)

mutual

theorem atoms_atom (k a : ValueKey) (h : a∈atoms k) : atoms a=[a] ∧ keyKind a<12 := by
  cases k
  case tuple ks =>
    rw [atoms] at h
    exact atomsAll_atom ks a h
  case frozenset ks =>
    rw [atoms] at h
    exact atomsAll_atom ks a h
  all_goals
    have he := List.mem_singleton.mp h
    rw [he]
    exact ⟨rfl,by simp [keyKind]⟩

theorem atomsAll_atom (ks : List ValueKey) (a : ValueKey) (h : a∈atomsAll ks) :
    atoms a=[a] ∧ keyKind a<12 := by
  cases ks with
  | nil => cases h
  | cons k ks =>
    rw [atomsAll,List.mem_append] at h
    cases h with
    | inl h => exact atoms_atom k a h
    | inr h => exact atomsAll_atom ks a h

end

variable {finish : List Datum → UInt64}

theorem leaf_some (split : Bool) (a : ValueKey) (hk : keyKind a<12) (hb : Boxed finish a) :
    ∃x, leaf split a=some x := by
  cases a
  case tuple ks => exact absurd hk (by simp [keyKind])
  case frozenset ks => exact absurd hk (by simp [keyKind])
  case instanceKey h v =>
    obtain ⟨b,hv,_⟩ := hb h v rfl
    exact ⟨.box b,by rw [leaf,hv,Option.map_some]⟩
  case dateTime dt tz => cases tz <;> exact ⟨_,rfl⟩
  all_goals exact ⟨_,rfl⟩

theorem leaf_named (split : Bool) (a : ValueKey) (n : String)
    (h : leaf split a=some (.box (.named n))) :
    ∃w v, a=.instanceKey w v ∧ typeLikeName v=some n := by
  cases a
  case instanceKey w v =>
    obtain ⟨b,hb,he⟩ := Option.map_eq_some_iff.mp h
    cases he
    refine ⟨w,v,rfl,?_⟩
    cases v <;> first | (cases hb; done) | (cases hb; rfl) | skip
    case enumMember c m v kind => cases kind <;> cases hb
  case float bits =>
    obtain ⟨i,_,hl,_⟩|⟨_,hl⟩ := floatLeaf_cases split bits
    · cases hl.symm.trans (Option.some.inj h)
    · cases hl.symm.trans (Option.some.inj h)
  case dateTime dt tz => cases tz <;> cases h
  all_goals cases h

theorem keyEqDir_refl (n : Nat) (a : ValueKey) (hd : depth a<n)
    (hb : ∀x∈atoms a, Boxed finish x) (flip : Bool) :
    keyEqDir (valuesEqual eqRecursionLimit) flip a a=true := by
  induction n generalizing a flip with
  | zero => omega
  | succ n ih =>
    obtain ⟨hs,hk⟩|⟨xs,rfl⟩|⟨xs,rfl⟩ := key_shape a
    · rw [hs] at hb
      obtain ⟨x,hx⟩ := leaf_some false a hk (hb a (List.mem_singleton.mpr rfl))
      refine (keyEqDir_leaf false 999 flip a a x x hx hx ?_ ?_ ?_).mpr rfl
      · intro h
        cases h
      · intro _ bits bits' he he' _ _
        exact ValueKey.float.inj (he.symm.trans he')
      · intro n n' he he' _
        exact BoxKind.named.inj (Leaf.box.inj (he.symm.trans he'))
    · rw [atoms] at hb
      rw [keyEqDir_tuple,List.forall₂_same]
      intro x hx
      exact ih x (depth_tuple hd hx) (fun y hy => hb y (atomsAll_mem hx hy)) flip
    · rw [atoms] at hb
      have one : ∀x∈xs, ∀f, keyEqDir (valuesEqual eqRecursionLimit) f x x=true := by
        intro x hx f
        exact ih x (depth_frozenset hd hx) (fun y hy => hb y (atomsAll_mem hx hy)) f
      cases flip with
      | true => exact (keyEqDir_frozenset_flip _ xs xs).mpr ⟨rfl,fun x hx => ⟨x,hx,one x hx false⟩⟩
      | false => exact (keyEqDir_frozenset _ xs xs).mpr ⟨rfl,fun x hx => ⟨x,hx,one x hx true⟩⟩

theorem keyEquals_refl (k : ValueKey) (hk : Produced finish k) : keyEquals k k=true := by
  obtain ⟨v,hv⟩ := hk
  exact keyEqDir_refl (depth k+1) k (Nat.lt_succ_self _) (produced_boxed finish v k hv) false

def atomsOf (S : Set ValueKey) : Set ValueKey := {a | ∃k∈S, a∈atoms k}

theorem separated_readable (S : Set ValueKey) (hp : ∀k∈S, Produced finish k) (hs : Separated S) :
    ∃split, Readable split 999 (atomsOf S) := by
  have boxed : ∀a∈atomsOf S, Boxed finish a := by
    intro a ⟨k,hk,ha⟩
    obtain ⟨v,hv⟩ := hp k hk
    exact produced_boxed finish v k hv a ha
  have read : ∀split, ∀a∈atomsOf S, ∃x, leaf split a=some x := by
    intro split a ha
    obtain ⟨k,hk,hak⟩ := id ha
    exact leaf_some split a (atoms_atom k a hak).2 (boxed a ha)
  have names : ∀split, ∀a∈atomsOf S, ∀b∈atomsOf S, ∀n n', leaf split a=some (.box (.named n)) →
      leaf split b=some (.box (.named n')) → nameEq n n'=true → n=n' := by
    intro split a ⟨k,hk,ha⟩ b ⟨k',hk',hb⟩ n n' hla hlb hname
    obtain ⟨h,v,rfl,hv⟩ := leaf_named split a n hla
    obtain ⟨h',v',rfl,hv'⟩ := leaf_named split b n' hlb
    exact hs.names k hk k' hk' h v h' v' n n' ha hb hv hv' hname
  have both : ∀split, ∀a∈atomsOf S, ∀b∈atomsOf S, ∀x y, leaf split a=some x → leaf split b=some y →
      ∀n n', x=.box (.named n) → y=.box (.named n') → nameEq n n'=true ∨ nameEq n' n=true →
      n=n' := by
    intro split a ha b hb x y hx hy n n' hxn hyn hor
    rw [hxn] at hx
    rw [hyn] at hy
    cases hor with
    | inl h => exact names split a ha b hb n n' hx hy h
    | inr h => exact (names split b hb a ha n' n hy hx h).symm
  cases hs.zeros with
  | inl hz =>
    refine ⟨true,read true,?_⟩
    intro a ha b hb flip x y hx hy
    refine keyEqDir_leaf true 999 flip a b x y hx hy ?_ ?_ (both true a ha b hb x y hx hy)
    · intro _
      obtain ⟨k,hk,hak⟩ := ha
      obtain ⟨k',hk',hbk⟩ := hb
      exact ⟨hz k hk a hak,hz k' hk' b hbk⟩
    · intro h
      cases h
  | inr hz =>
    refine ⟨false,read false,?_⟩
    intro a ha b hb flip x y hx hy
    refine keyEqDir_leaf false 999 flip a b x y hx hy ?_ ?_ (both false a ha b hb x y hx hy)
    · intro h
      cases h
    · intro _ bits bits' hea heb
      obtain ⟨k,hk,hak⟩ := ha
      obtain ⟨k',hk',hbk⟩ := hb
      rw [hea] at hak
      rw [heb] at hbk
      exact hz k hk k' hk' bits bits' hak hbk

/-- Keys drawn from a separated pool meet the contract of a map. -/
theorem separated_key_contract (finish : List Datum → UInt64) (S : Set ValueKey)
    (hp : ∀k∈S, Produced finish k) (hs : Separated S) : KeyContract finish S := by
  obtain ⟨split,hA⟩ := separated_readable S hp hs
  have within : ∀k∈S, Within 999 (atomsOf S) k := by
    intro k hk
    exact ⟨fun a ha => ⟨k,hk,ha⟩,hs.distinct k hk⟩
  have same : ∀n, ∀a∈S, ∀b∈S, depth a<n → depth b<n → (keyEquals a b=true ↔ Same split n a b) := by
    intro n a ha b hb hda hdb
    exact compares hA n a b hda hdb (within a ha) (within b hb) false
  constructor
  · intro a ha
    exact keyEquals_refl a (hp a ha)
  · intro a ha b hb h
    let n := depth a+depth b+1
    have hn : depth a<n ∧ depth b<n := by omega
    exact (same n b hb a ha hn.2 hn.1).mpr (Same.symm n a b ((same n a ha b hb hn.1 hn.2).mp h))
  · intro a ha b hb c hc hab hbc
    let n := depth a+depth b+depth c+1
    have hn : depth a<n ∧ depth b<n ∧ depth c<n := by omega
    exact (same n a ha c hc hn.1 hn.2.2).mpr (Same.trans n a b c
      ((same n a ha b hb hn.1 hn.2.1).mp hab) ((same n b hb c hc hn.2.1 hn.2.2).mp hbc))
  · intro a ha b hb h
    let n := depth a+depth b+1
    have hn : depth a<n ∧ depth b<n := by omega
    obtain ⟨v,hv⟩ := hp a ha
    obtain ⟨w,hw⟩ := hp b hb
    exact same_feed finish n a b ((same n a ha b hb hn.1 hn.2).mp h) (produced_boxed finish v a hv)
      (produced_boxed finish w b hw)

def onesAndLetters : Set ValueKey :=
  {k | k=.frozenset [.int 1,.string "a"] ∨ k=.frozenset [.string "a",.bool true]}

theorem frozensets_of_ones : keyEquals (.frozenset [.string "a",.bool true])
    (.frozenset [.int 1,.string "a"])=true := by
  refine (separated_key_contract (fun _ => 0) onesAndLetters ?_ ?_).symm
    (.frozenset [.int 1,.string "a"]) (.inl rfl) (.frozenset [.string "a",.bool true]) (.inr rfl)
    (by decide)
  · intro k hk
    cases hk with
    | inl h =>
      rw [h]
      exact ⟨.frozenset [.int 1,.string "a"],rfl⟩
    | inr h =>
      rw [h]
      exact ⟨.frozenset [.string "a",.bool true],rfl⟩
  · have atom : ∀k∈onesAndLetters, ∀a∈atoms k, a=.int 1 ∨ a=.string "a" ∨ a=.bool true := by
      intro k hk a ha
      cases hk with
      | inl h =>
        rw [h] at ha
        simp [atoms,atomsAll] at ha
        cases ha with
        | inl h => exact .inl h
        | inr h => exact .inr (.inl h)
      | inr h =>
        rw [h] at ha
        simp [atoms,atomsAll] at ha
        exact .inr ha
    constructor
    · refine .inl ?_
      intro k hk a ha
      obtain h|h|h := atom k hk a ha <;> rw [h] <;> decide
    · intro k hk _ _ h v _ _ _ _ ha
      obtain h|h|h := atom k hk _ ha <;> cases h
    · intro k hk g hg
      cases hk with
      | inl h =>
        rw [h] at hg
        simp [frozensets,frozensetsAll] at hg
        rw [hg]
        simp [keyEquals,keyEq,keyEqDir]
      | inr h =>
        rw [h] at hg
        simp [frozensets,frozensetsAll] at hg
        rw [hg]
        simp [keyEquals,keyEq,keyEqDir]

theorem floatKeyI64_of_zero (bits : UInt64) (h : F64.mag ⟨bits⟩=0) : floatKeyI64 bits=some 0 := by
  have hfin : F64.isFinite ⟨bits⟩=true := by
    unfold F64.isFinite
    rw [h]
    decide
  have hq := F64.toRat_zero ⟨bits⟩ h
  have hkey : (F64.ofInt 0).eq ⟨bits⟩=true := by
    refine F64.eq_of_key _ _ (F64.ofInt_isNan 0) (F64.isNan_of_finite _ hfin) ?_
    exact F64.ofInt_exact 0 ⟨bits⟩ hfin (by rw [hq]; rfl)
  unfold floatKeyI64
  simp only [hq,hfin]
  exact if_pos hkey

/-- `0.0`, `0` and `-0.0` are keys, and only the outer two differ. -/
theorem zeros_break_contract : ¬∃finish, KeyContract finish {k | Produced finish k} := by
  intro ⟨finish,h⟩
  have hpos : Produced finish (.float 0) := ⟨.float F64.zero,rfl⟩
  have hint : Produced finish (.int 0) := ⟨.int 0,rfl⟩
  have hneg : Produced finish (.float 9223372036854775808) :=
    ⟨.float ⟨9223372036854775808⟩,rfl⟩
  have hz : floatKeyI64 0=some 0 := floatKeyI64_of_zero 0 (by decide)
  have hz' : floatKeyI64 9223372036854775808=some 0 := floatKeyI64_of_zero _ (by decide)
  have habsurd := h.trans _ hpos _ hint _ hneg
    (by simp [keyEquals,keyEq,keyEqDir,hz]) (by simp [keyEquals,keyEq,keyEqDir,hz'])
  revert habsurd
  decide

end Contract

end InterpretThis
