import InterpretThis.Framework.Matching
import InterpretThis.Value.Meaning

namespace InterpretThis

open Pyhash

variable (sip : List UInt8 → UInt64)

/-- Hashable values that are equal only to themselves. -/
def isAtom : Value → Bool
  | .none => true
  | .string _ => true
  | .bytes _ => true
  | .date _ => true
  | .time _ => true
  | .dateTime _ none => true
  | .timeDelta _ => true
  | _ => false

/-- How two hashable values can be equal with one level of the comparison unfolded. -/
inductive Matches (n : Nat) : Value → Value → Prop
  | same (a : Value) (ha : isAtom a=true) : Matches n a a
  | number (a b : Value) (x y : Number) (ha : a.number=some x) (hb : b.number=some y)
      (h : x.equal y=true) : Matches n a b
  | tuple (xs ys : List Value) (h : zipAll (recurseEqN n) xs ys=true) :
      Matches n (.tuple xs) (.tuple ys)
  | frozenset (xs ys : List Value) (h : allIn (recurseEqN n) xs ys=true) :
      Matches n (.frozenset xs) (.frozenset ys)

/-- The kinds of hashable value that no slot compares across. -/
def hashKind : Value → Nat
  | .none => 0
  | .bool _ => 1
  | .int _ => 1
  | .bigInt _ => 1
  | .float _ => 1
  | .complex _ _ => 1
  | .decimal _ => 1
  | .fraction _ => 1
  | .string _ => 2
  | .bytes _ => 3
  | .date _ => 4
  | .time _ => 5
  | .dateTime _ _ => 6
  | .timeDelta _ => 7
  | .tuple _ => 8
  | .frozenset _ => 9
  | _ => 10

def isTemporal : Value → Bool
  | .date _ => true
  | .time _ => true
  | .dateTime _ _ => true
  | .timeDelta _ => true
  | _ => false

theorem valuesEqual_foreign (n : Nat) (a b : Value) (ha : isTemporal a=true)
    (hb : hashKind b≠10) (hne : hashKind a≠hashKind b) : valuesEqual n a b=false := by
  cases n with
  | zero => rfl
  | succ n =>
    cases a <;> first | (cases ha; done) | skip
    all_goals cases b <;> first | rfl | (exact absurd rfl hne) | (exact absurd rfl hb)

theorem decimalEq_foreign (d : PyDecimal) (b : Value) (hk : decimalOperandKind b=.normal)
    (hf : isFloatOrFraction b=false) (hd : decimalToBigdecimal b=none) :
    decimalEq d b≠some true := by
  cases hs : d.kind.isSpecial with
  | true =>
    rw [decimalEq_special d b hs hk]
    decide
  | false =>
    unfold decimalEq
    rw [hk,hs,hf,hd]
    intro h
    cases h

theorem eqSlot_foreign (n : Nat) (a b : Value) (ha : hashKind a≠10) (hb : hashKind b≠10)
    (hne : hashKind a≠hashKind b) : eqSlot (recurseEqN n) (valuesEqual n) a b≠some true := by
  have temporal : isTemporal a=true → some (valuesEqual n a b)≠some true := by
    intro hk
    rw [valuesEqual_foreign n a b hk hb hne]
    decide
  cases a <;> first | (exact absurd rfl ha) | (exact temporal rfl) | skip
  all_goals cases b <;> first
    | (exact absurd rfl hne)
    | (exact absurd rfl hb)
    | (exact decimalEq_foreign _ _ rfl rfl rfl)
    | (intro h; cases h)

theorem recurseEqN_kind (n : Nat) (a b : Value) (ha : hashKind a≠10) (hb : hashKind b≠10)
    (h : recurseEqN (n+1) a b=true) : hashKind a=hashKind b := by
  by_contra hne
  have h1 := eqSlot_foreign n a b ha hb hne
  have h2 := eqSlot_foreign n b a hb ha (Ne.symm hne)
  simp only [recurseEqN] at h
  split at h
  · subst h
    exact h1 (by assumption)
  · split at h
    · subst h
      exact h2 (by assumption)
    · cases h

theorem hashKind_of_hash (a : Value) (h : pythonHash sip a≠none) : hashKind a≠10 := by
  cases a <;> first | (exact absurd rfl h) | (intro hk; cases hk)

theorem recurseEqN_inv (n : Nat) (a b : Value) (ha : pythonHash sip a≠none)
    (hb : pythonHash sip b≠none) (h : recurseEqN (n+1) a b=true) : Matches n a b := by
  have hkind := recurseEqN_kind n a b (hashKind_of_hash sip a ha) (hashKind_of_hash sip b hb) h
  have num : ∀x y, a.number=some x → b.number=some y → Matches n a b := fun x y hx hy =>
    .number a b x y hx hy ((recurseEqN_number n a b x y hx hy).symm.trans h)
  have temporal : eqSlot (recurseEqN n) (valuesEqual n) a b=some (valuesEqual n a b) →
      ∃m, valuesEqual (m+1) a b=true := by
    intro hs
    have hv := (recurseEqN_of_some hs).symm.trans h
    cases n with
    | zero => cases hv
    | succ m => exact ⟨m,hv⟩
  cases a with
  | none => cases b <;> first | (cases hkind; done) | exact .same _ rfl
  | bool x => cases b <;> first | (cases hkind; done) | exact num _ _ rfl rfl
  | int i => cases b <;> first | (cases hkind; done) | exact num _ _ rfl rfl
  | bigInt i => cases b <;> first | (cases hkind; done) | exact num _ _ rfl rfl
  | float f => cases b <;> first | (cases hkind; done) | exact num _ _ rfl rfl
  | complex re im => cases b <;> first | (cases hkind; done) | exact num _ _ rfl rfl
  | decimal d => cases b <;> first | (cases hkind; done) | exact num _ _ rfl rfl
  | fraction q => cases b <;> first | (cases hkind; done) | exact num _ _ rfl rfl
  | string s =>
    cases b with
    | string s' =>
      have he : (s==s')=true := h
      rw [eq_of_beq he]
      exact .same _ rfl
    | _ => cases hkind
  | bytes s =>
    cases b with
    | bytes s' =>
      have he : (s==s')=true := h
      rw [eq_of_beq he]
      exact .same _ rfl
    | _ => cases hkind
  | date d =>
    cases b with
    | date d' =>
      obtain ⟨m,hv⟩ := temporal rfl
      have he : (d==d')=true := hv
      rw [eq_of_beq he]
      exact .same _ rfl
    | _ => cases hkind
  | time t =>
    cases b with
    | time t' =>
      obtain ⟨m,hv⟩ := temporal rfl
      have he : (t==t')=true := hv
      rw [eq_of_beq he]
      exact .same _ rfl
    | _ => cases hkind
  | timeDelta t =>
    cases b with
    | timeDelta t' =>
      obtain ⟨m,hv⟩ := temporal rfl
      have he : (t==t')=true := hv
      rw [eq_of_beq he]
      exact .same _ rfl
    | _ => cases hkind
  | dateTime dt tz =>
    cases b with
    | dateTime dt' tz' =>
      cases tz with
      | some o => exact absurd rfl ha
      | none =>
        cases tz' with
        | some o => exact absurd rfl hb
        | none =>
          obtain ⟨m,hv⟩ := temporal rfl
          have he : (dt==dt')=true := hv
          rw [eq_of_beq he]
          exact .same _ rfl
    | _ => cases hkind
  | tuple xs =>
    cases b with
    | tuple ys => exact .tuple xs ys h
    | _ => cases hkind
  | frozenset xs =>
    cases b with
    | frozenset ys => exact .frozenset xs ys h
    | _ => cases hkind
  | _ => exact absurd rfl ha

section Conditions

/-- `P` holds of the pairs that an elementwise comparison comes to. -/
def zipReached (P : Value → Value → Prop) (eq : Value → Value → Bool) :
    List Value → List Value → Prop
  | x::xs,y::ys => P x y ∧ (eq x y=true → zipReached P eq xs ys)
  | _,_ => True

def anyReached (P : Value → Value → Prop) (eq : Value → Value → Bool) (x : Value) :
    List Value → Prop
  | [] => True
  | y::ys => P x y ∧ (eq x y=false → anyReached P eq x ys)

/-- `P` holds of the pairs that are tried while the elements of one set are looked up in another. -/
def allReached (P : Value → Value → Prop) (eq : Value → Value → Bool) :
    List Value → List Value → Prop
  | [],_ => True
  | x::xs,ys => anyReached P eq x ys ∧ (ys.any (eq x)=true → allReached P eq xs ys)

/-- `R` holds of every pair of numbers, and `F` of every pair of frozensets, that the comparison of
two values comes to within `n` levels. -/
def Reached (R : Number → Number → Prop) (F : Nat → List Value → List Value → Prop) :
    Nat → Value → Value → Prop
  | 0,_,_ => True
  | n+1,a,b => match a with
    | .tuple xs => match b with
      | .tuple ys => xs.length=ys.length → zipReached (Reached R F n) (recurseEqN n) xs ys
      | _ => True
    | .frozenset xs => match b with
      | .frozenset ys => xs.length=ys.length →
        allReached (Reached R F n) (recurseEqN n) xs ys ∧ F n xs ys
      | _ => True
    | a => ∀x y, a.number=some x → b.number=some y → R x y

/-- No two numbers of one value are told apart where `a` is compared with `b`. -/
def Coherent (n : Nat) (a b : Value) : Prop :=
  Reached (fun x y => ¬x.Clash y) (fun _ _ _ => True) n a b

/-- Two elements that a set may hold side by side. -/
def Apart (n : Nat) (x y : Value) : Prop := Coherent n x y ∧ Coherent n y x ∧
  ¬(pythonHash sip x=pythonHash sip y ∧ recurseEq x y=true ∧ recurseEq y x=true)

/-- In equal sets no two elements are equal to a common one, unless they are apart. -/
def FindsApart (n : Nat) (xs ys : List Value) : Prop := allIn (recurseEqN n) xs ys=true →
  xs.Pairwise fun x x' => (∃y∈ys, recurseEqN n x y=true ∧ recurseEqN n x' y=true) → Apart sip n x x'

/-- No int is read as a float of another value where `a` is compared with `b`, and the frozensets
compared list their elements apart. -/
def Sound (n : Nat) (a b : Value) : Prop := Reached Number.Clean (FindsApart sip) n a b

end Conditions

section Lists

variable {P : Value → Value → Prop} {eq : Value → Value → Bool}
  {R : Number → Number → Prop} {F : Nat → List Value → List Value → Prop}

theorem reached_number {n : Nat} {a b : Value} {x y : Number} (h : Reached R F (n+1) a b)
    (ha : a.number=some x) (hb : b.number=some y) : R x y := by
  cases a <;> first | (cases ha; done) | exact h x y ha hb

theorem zipReached_forall₂ {xs ys : List Value} (h : List.Forall₂ (fun x y => eq x y=true) xs ys)
    (hp : zipReached P eq xs ys) : List.Forall₂ (fun x y => eq x y=true ∧ P x y) xs ys := by
  induction h with
  | nil => exact .nil
  | cons hq _ ih => exact .cons ⟨hq,hp.1⟩ (ih (hp.2 hq))

theorem anyReached_finds {x : Value} {ys : List Value} (h : anyReached P eq x ys)
    (hex : ∃y∈ys, P x y → eq x y=true) : ∃y∈ys, eq x y=true ∧ P x y := by
  induction ys with
  | nil =>
    obtain ⟨_,hy,_⟩ := hex
    cases hy
  | cons z ys ih =>
    cases hz : eq x z with
    | true => exact ⟨z,by simp,hz,h.1⟩
    | false =>
      obtain ⟨y,hy,himp⟩ := hex
      cases hy with
      | head => exact absurd (himp h.1) (by rw [hz]; decide)
      | tail _ hy =>
        obtain ⟨w,hw,hf⟩ := ih (h.2 hz) ⟨y,hy,himp⟩
        exact ⟨w,by simp [hw],hf⟩

/-- Where every element has an equal one, at least if `P` holds of the two, each finds one of which
`P` holds. -/
theorem allReached_finds {xs ys : List Value} (h : allReached P eq xs ys)
    (hex : ∀x∈xs, ∃y∈ys, P x y → eq x y=true) : ∀x∈xs, ∃y∈ys, eq x y=true ∧ P x y := by
  induction xs with
  | nil =>
    intro x hx
    cases hx
  | cons z xs ih =>
    intro x hx
    have hz := anyReached_finds h.1 (hex z (by simp))
    cases hx with
    | head => exact hz
    | tail _ hx =>
      obtain ⟨y,hy,he,-⟩ := hz
      exact ih (h.2 (List.any_eq_true.mpr ⟨y,hy,he⟩)) (fun x hx => hex x (by simp [hx])) x hx

end Lists

section Fuel

theorem zipAll_cons (eq : Value → Value → Bool) (x y : Value) (xs ys : List Value) :
    zipAll eq (x::xs) (y::ys)=true ↔ eq x y=true ∧ zipAll eq xs ys=true := by
  simp only [zipAll,List.length_cons,List.zip_cons_cons,List.all_cons,Bool.and_eq_true,beq_iff_eq,
    Nat.add_right_cancel_iff]
  constructor
  · intro ⟨hl,h,ht⟩
    exact ⟨h,hl,ht⟩
  · intro ⟨h,hl,ht⟩
    exact ⟨hl,h,ht⟩

/-- `zipAll` as a pointwise relation. -/
theorem zipAll_forall₂ (eq : Value → Value → Bool) (xs ys : List Value) :
    zipAll eq xs ys=true ↔ List.Forall₂ (fun x y => eq x y=true) xs ys := by
  induction xs generalizing ys with
  | nil =>
    cases ys with
    | nil => exact ⟨fun _ => .nil,fun _ => rfl⟩
    | cons y ys =>
      constructor
      · intro h
        cases h
      · intro h
        cases h
  | cons x xs ih =>
    cases ys with
    | nil =>
      constructor
      · intro h
        cases h
      · intro h
        cases h
    | cons y ys => rw [zipAll_cons,ih,List.forall₂_cons]

theorem allIn_iff (eq : Value → Value → Bool) (xs ys : List Value) :
    allIn eq xs ys=true ↔ xs.length=ys.length ∧ ∀x∈xs, ∃y∈ys, eq x y=true := by
  simp [allIn]

theorem pythonHashAll_iff (xs : List Value) (hs : List Int64) :
    pythonHashAll sip xs=some hs ↔ xs.map (pythonHash sip)=hs.map some := by
  induction xs generalizing hs with
  | nil =>
    rw [pythonHashAll]
    cases hs <;> simp
  | cons x xs ih =>
    rw [pythonHashAll]
    cases hx : pythonHash sip x with
    | none => cases hs <;> simp [hx]
    | some h =>
      cases ht : pythonHashAll sip xs with
      | none =>
        cases hs with
        | nil => simp
        | cons k hs =>
          have hne : ¬xs.map (pythonHash sip)=hs.map some := by
            rw [← ih,ht]
            simp
          simp [hx,hne]
      | some ks =>
        have he := (ih ks).mp ht
        cases hs with
        | nil => simp
        | cons k hs =>
          simp only [Option.bind_eq_bind,Option.bind_some,List.map_cons,hx,he]
          constructor
          · intro h
            cases h
            rfl
          · intro h
            have ⟨h1,h2⟩ := List.cons.inj h
            have h3 := (List.map_injective_iff.mpr (Option.some_injective _)) h2
            rw [Option.some_inj.mp h1,h3]
            rfl

theorem hashable_of_all (xs : List Value) (h : pythonHashAll sip xs≠none) :
    ∀x∈xs, pythonHash sip x≠none := by
  obtain ⟨hs,he⟩ := Option.ne_none_iff_exists'.mp h
  rw [pythonHashAll_iff] at he
  intro x hx hn
  have hmem : none∈xs.map (pythonHash sip) := List.mem_map.mpr ⟨x,hx,hn⟩
  rw [he] at hmem
  obtain ⟨_,_,hc⟩ := List.mem_map.mp hmem
  cases hc

theorem atom_refl (n : Nat) (a : Value) (ha : isAtom a=true) : recurseEqN (n+2) a a=true := by
  cases a with
  | none => rfl
  | string s => exact beq_self_eq_true s
  | bytes s => exact beq_self_eq_true s
  | date d => exact beq_self_eq_true d
  | time t => exact beq_self_eq_true t
  | timeDelta t => exact beq_self_eq_true t
  | dateTime dt tz =>
    cases tz with
    | none => exact beq_self_eq_true dt
    | some o => cases ha
  | _ => cases ha

/-- More levels never make two equal hashable values unequal. -/
theorem recurseEqN_mono (n : Nat) (a b : Value) (ha : pythonHash sip a≠none)
    (hb : pythonHash sip b≠none) (h : recurseEqN n a b=true) : recurseEqN (n+1) a b=true := by
  induction n generalizing a b with
  | zero => cases h
  | succ n ih =>
    cases recurseEqN_inv sip n a b ha hb h with
    | same _ hat => exact atom_refl n a hat
    | number _ _ x y hx hy he => exact (recurseEqN_number (n+1) a b x y hx hy).trans he
    | tuple xs ys hz =>
      have hxs := hashable_of_all sip xs (fun hn => ha (by rw [pythonHash_tuple,hn]; rfl))
      have hys := hashable_of_all sip ys (fun hn => hb (by rw [pythonHash_tuple,hn]; rfl))
      change zipAll (recurseEqN (n+1)) xs ys=true
      rw [zipAll_forall₂] at hz ⊢
      exact Matching.forall₂_imp_mem hz (fun x hx y hy hxy => ih x y (hxs x hx) (hys y hy) hxy)
    | frozenset xs ys hz =>
      have hxs := hashable_of_all sip xs fun hn => ha (by rw [pythonHash_frozenset,hn]; rfl)
      have hys := hashable_of_all sip ys fun hn => hb (by rw [pythonHash_frozenset,hn]; rfl)
      change allIn (recurseEqN (n+1)) xs ys=true
      rw [allIn_iff] at hz ⊢
      refine ⟨hz.1,?_⟩
      intro x hx
      obtain ⟨y,hy,hxy⟩ := hz.2 x hx
      exact ⟨y,hy,ih x y (hxs x hx) (hys y hy) hxy⟩

theorem recurseEqN_le (n m : Nat) (hnm : n≤ m) (a b : Value) (ha : pythonHash sip a≠none)
    (hb : pythonHash sip b≠none) (h : recurseEqN n a b=true) : recurseEqN m a b=true := by
  induction hnm with
  | refl => exact h
  | step _ ih => exact recurseEqN_mono sip _ a b ha hb ih

end Fuel

section Agreement

/-- Equal values have one hash, with `n` levels of comparison. -/
def HashAgrees (n : Nat) : Prop := ∀a b, pythonHash sip a≠none → pythonHash sip b≠none →
  recurseEqN n a b=true → Sound sip n a b → pythonHash sip a=pythonHash sip b

/-- Two values equal to a third are equal, with `n` levels of comparison. -/
def EqualByCommon (n : Nat) : Prop := ∀a b c, pythonHash sip a≠none → pythonHash sip b≠none →
  pythonHash sip c≠none → recurseEqN n a c=true → recurseEqN n b c=true → Sound sip n a c →
  Sound sip n b c → Coherent n a b → recurseEqN n a b=true

/-- An element and one that it finds in the other set. -/
def Finds (n : Nat) (x y : Value) : Prop := recurseEqN n x y=true ∧ Sound sip n x y

section Frozensets

variable {n : Nat} {xs ys : List Value} (hn : n≤eqRecursionLimit) (H : HashAgrees sip n)
  (E : EqualByCommon sip n) (hxs : ∀x∈xs, pythonHash sip x≠none)
  (hys : ∀y∈ys, pythonHash sip y≠none)

include hn H E hxs hys

theorem no_common (hp : xs.Pairwise fun x x' =>
      (∃y∈ys, recurseEqN n x y=true ∧ recurseEqN n x' y=true) → Apart sip n x x') :
    xs.Pairwise (fun x x' => ∀y∈ys, ¬(Finds sip n x y ∧ Finds sip n x' y)) := by
  refine hp.imp_of_mem ?_
  intro x x' hx hx' happ y hy ⟨⟨h,hs⟩,h',hs'⟩
  obtain ⟨hcoh,hcoh',hne⟩ := happ ⟨y,hy,h,h'⟩
  have hash := H x y (hxs x hx) (hys y hy) h hs
  have hash' := H x' y (hxs x' hx') (hys y hy) h' hs'
  have he := E x x' y (hxs x hx) (hxs x' hx') (hys y hy) h h' hs hs' hcoh
  have he' := E x' x y (hxs x' hx') (hxs x hx) (hys y hy) h' h hs' hs hcoh'
  exact hne ⟨hash.trans hash'.symm,
    recurseEqN_le sip n _ hn x x' (hxs x hx) (hxs x' hx') he,
    recurseEqN_le sip n _ hn x' x (hxs x' hx') (hxs x hx) he'⟩

theorem frozenset_matching (hs : Sound sip (n+1) (.frozenset xs) (.frozenset ys))
    (h : allIn (recurseEqN n) xs ys=true) : ∃zs, zs.Perm ys ∧ List.Forall₂ (Finds sip n) xs zs := by
  have hall := (allIn_iff _ _ _).mp h
  obtain ⟨hreach,happ⟩ := hs hall.1
  have hex := allReached_finds hreach fun x hx =>
    (hall.2 x hx).imp fun _ hy => ⟨hy.1,fun _ => hy.2⟩
  exact Matching.exists_perm _ xs ys hall.1 hex (no_common sip hn H E hxs hys (happ h))

end Frozensets

theorem pythonHashAll_congr (xs ys : List Value)
    (h : xs.map (pythonHash sip)=ys.map (pythonHash sip)) :
    pythonHashAll sip xs=pythonHashAll sip ys := by
  cases hx : pythonHashAll sip xs with
  | some hs =>
    rw [pythonHashAll_iff,h,← pythonHashAll_iff] at hx
    exact hx.symm
  | none =>
    cases hy : pythonHashAll sip ys with
    | none => rfl
    | some hs =>
      rw [pythonHashAll_iff,← h,← pythonHashAll_iff,hx] at hy
      cases hy

theorem hashFrozenset_perm (hs ks : List Int64) (h : hs.Perm ks) :
    hashFrozenset hs=hashFrozenset ks := by
  have hfold : frozensetFold hs=frozensetFold ks := by
    have comm : RightCommutative (fun (acc : UInt64) (h : Int64) => acc^^^shuffleBits h.toUInt64) :=
      ⟨fun a b c => by rw [UInt64.xor_assoc,UInt64.xor_comm (shuffleBits _),← UInt64.xor_assoc]⟩
    exact h.foldl_eq 0
  unfold hashFrozenset
  rw [hfold,h.length_eq]

theorem pythonHash_frozenset_perm (xs ys : List Value) (h : xs.Perm ys)
    (hx : pythonHashAll sip xs≠none) (hy : pythonHashAll sip ys≠none) :
    pythonHash sip (.frozenset xs)=pythonHash sip (.frozenset ys) := by
  obtain ⟨hs,hs'⟩ := Option.ne_none_iff_exists'.mp hx
  obtain ⟨ks,ks'⟩ := Option.ne_none_iff_exists'.mp hy
  rw [pythonHash_frozenset,pythonHash_frozenset,hs',ks']
  rw [pythonHashAll_iff] at hs' ks'
  have hp : (hs.map some).Perm (ks.map some) := by
    rw [← hs',← ks']
    exact h.map _
  have hp' := hp.filterMap id
  rw [List.filterMap_map,List.filterMap_map] at hp'
  have hq : hs.Perm ks := by simpa using hp'
  exact congrArg some (hashFrozenset_perm hs ks hq)

theorem hashAll_of_tuple {xs : List Value} (h : pythonHash sip (.tuple xs)≠none) :
    pythonHashAll sip xs≠none := fun hn => h (by rw [pythonHash_tuple,hn]; rfl)

theorem hashAll_of_frozenset {xs : List Value} (h : pythonHash sip (.frozenset xs)≠none) :
    pythonHashAll sip xs≠none := fun hn => h (by rw [pythonHash_frozenset,hn]; rfl)

theorem pythonHash_number (a : Value) (x : Number) (ha : a.number=some x) :
    pythonHash sip a=some x.hash := by
  cases a with
  | bool b =>
    cases ha
    cases b <;> rfl
  | int i =>
    cases ha
    rfl
  | bigInt i =>
    cases ha
    rfl
  | float f =>
    cases ha
    rfl
  | complex re im =>
    cases ha
    rfl
  | decimal d =>
    cases ha
    rfl
  | fraction q =>
    cases ha
    rfl
  | _ => cases ha

theorem tuple_common {n : Nat} (E : EqualByCommon sip n) {xs ys zs : List Value}
    (h : List.Forall₂ (Finds sip n) xs zs) (h' : List.Forall₂ (Finds sip n) ys zs)
    (hxs : ∀x∈xs, pythonHash sip x≠none) (hys : ∀y∈ys, pythonHash sip y≠none)
    (hzs : ∀z∈zs, pythonHash sip z≠none) (coh : zipReached (Coherent n) (recurseEqN n) xs ys) :
    List.Forall₂ (fun x y => recurseEqN n x y=true) xs ys := by
  induction h generalizing ys with
  | nil =>
    cases h'
    exact .nil
  | cons hxz _ ih =>
    cases h' with
    | cons hyz h' =>
      have heq := E _ _ _ (hxs _ (by simp)) (hys _ (by simp)) (hzs _ (by simp)) hxz.1 hyz.1 hxz.2
        hyz.2 coh.1
      refine .cons heq (ih h' ?_ ?_ ?_ (coh.2 heq))
      · exact fun x hx => hxs x (by simp [hx])
      · exact fun y hy => hys y (by simp [hy])
      · exact fun z hz => hzs z (by simp [hz])

theorem tuple_finds {n : Nat} {xs ys : List Value}
    (hs : Sound sip (n+1) (.tuple xs) (.tuple ys)) (h : zipAll (recurseEqN n) xs ys=true) :
    List.Forall₂ (Finds sip n) xs ys := by
  rw [zipAll_forall₂] at h
  exact zipReached_forall₂ h (hs h.length_eq)

section Step

variable (n : Nat) (hn : n≤eqRecursionLimit) (H : HashAgrees sip n) (E : EqualByCommon sip n)

include hn H E

theorem hashAgrees_succ : HashAgrees sip (n+1) := by
  intro a b ha hb h hs
  cases recurseEqN_inv sip n a b ha hb h with
  | same _ _ => rfl
  | number _ _ x y hx hy he =>
    rw [pythonHash_number sip a x hx,pythonHash_number sip b y hy,
      Number.equal_hash_number x y he (reached_number hs hx hy)]
  | tuple xs ys hz =>
    have hxs := hashable_of_all sip xs (hashAll_of_tuple sip ha)
    have hys := hashable_of_all sip ys (hashAll_of_tuple sip hb)
    have hmap := Matching.map_eq_of_forall₂ (Matching.forall₂_imp_mem (tuple_finds sip hs hz)
      (fun x hx y hy hxy => H x y (hxs x hx) (hys y hy) hxy.1 hxy.2))
    rw [pythonHash_tuple,pythonHash_tuple,pythonHashAll_congr sip xs ys hmap]
  | frozenset xs ys hz =>
    have hxs := hashable_of_all sip xs (hashAll_of_frozenset sip ha)
    have hys := hashable_of_all sip ys (hashAll_of_frozenset sip hb)
    obtain ⟨zs,hperm,hzs⟩ := frozenset_matching sip hn H E hxs hys hs hz
    have hmap := Matching.map_eq_of_forall₂ (Matching.forall₂_imp_mem hzs (fun x hx z hz' hxz =>
      H x z (hxs x hx) (hys z (hperm.mem_iff.mp hz')) hxz.1 hxz.2))
    have hall := pythonHashAll_congr sip xs zs hmap
    have hne : pythonHashAll sip zs≠none := by
      rw [← hall]
      exact hashAll_of_frozenset sip ha
    rw [← pythonHash_frozenset_perm sip zs ys hperm hne (hashAll_of_frozenset sip hb),
      pythonHash_frozenset,pythonHash_frozenset,hall]

theorem equalByCommon_succ : EqualByCommon sip (n+1) := by
  intro a b c ha hb hc hac hbc sac sbc coh
  cases recurseEqN_inv sip n a c ha hc hac with
  | same _ hat =>
    have hab : b=a := by
      cases recurseEqN_inv sip n b a hb ha hbc with
      | same _ _ => rfl
      | number _ _ x y hx hy _ => cases a <;> first | (cases hat; done) | cases hy
      | tuple xs ys _ => cases hat
      | frozenset xs ys _ => cases hat
    rw [hab]
    exact hac
  | number _ _ x z hx hz he =>
    cases recurseEqN_inv sip n b c hb hc hbc with
    | same _ hat => exact hac
    | number _ _ y z' hy hz' he' =>
      cases hz.symm.trans hz'
      rw [recurseEqN_number n a b x y hx hy]
      exact Number.equal_of_common x y z he he' (reached_number sac hx hz)
        (reached_number sbc hy hz) (reached_number coh hx hy)
    | tuple ys zs _ => cases hz
    | frozenset ys zs _ => cases hz
  | tuple xs zs h =>
    cases recurseEqN_inv sip n b _ hb hc hbc with
    | same _ hat => cases hat
    | number _ _ y z' hy hz' _ => cases hz'
    | tuple ys _ h' =>
      change zipAll (recurseEqN n) xs ys=true
      have hxs := hashable_of_all sip xs (hashAll_of_tuple sip ha)
      have hys := hashable_of_all sip ys (hashAll_of_tuple sip hb)
      have hzs := hashable_of_all sip zs (hashAll_of_tuple sip hc)
      have hx := tuple_finds sip sac h
      have hy := tuple_finds sip sbc h'
      rw [zipAll_forall₂]
      exact tuple_common sip E hx hy hxs hys hzs (coh (hx.length_eq.trans hy.length_eq.symm))
  | frozenset xs zs h =>
    cases recurseEqN_inv sip n b _ hb hc hbc with
    | same _ hat => cases hat
    | number _ _ y z' hy hz' _ => cases hz'
    | frozenset ys _ h' =>
      have hxs := hashable_of_all sip xs (hashAll_of_frozenset sip ha)
      have hys := hashable_of_all sip ys (hashAll_of_frozenset sip hb)
      have hzs := hashable_of_all sip zs (hashAll_of_frozenset sip hc)
      obtain ⟨ws,hperm,hws⟩ := frozenset_matching sip hn H E hys hzs sbc h'
      rw [allIn_iff] at h h'
      have hlen := h.1.trans h'.1.symm
      have hx := allReached_finds (sac h.1).1 fun x hx =>
        (h.2 x hx).imp fun _ hz => ⟨hz.1,fun _ => hz.2⟩
      change allIn (recurseEqN n) xs ys=true
      rw [allIn_iff]
      refine ⟨hlen,fun x hmem => ?_⟩
      have hfinds := allReached_finds (coh hlen).1 fun x hmem => by
        obtain ⟨z,hz,hxz,sxz⟩ := hx x hmem
        obtain ⟨y,hy,hyz,syz⟩ := Matching.forall₂_mem_right hws z (hperm.mem_iff.mpr hz)
        exact ⟨y,hy,E x y z (hxs x hmem) (hys y hy) (hzs z hz) hxz hyz sxz syz⟩
      obtain ⟨y,hy,he,-⟩ := hfinds x hmem
      exact ⟨y,hy,he⟩

end Step

theorem agreement (n : Nat) (hn : n≤eqRecursionLimit) : HashAgrees sip n ∧ EqualByCommon sip n := by
  induction n with
  | zero =>
    constructor
    · intro a b _ _ h
      cases h
    · intro a b c _ _ _ h
      cases h
  | succ n ih =>
    have ⟨H,E⟩ := ih (by omega)
    exact ⟨hashAgrees_succ sip n (by omega) H E,equalByCommon_succ sip n (by omega) H E⟩

/-- Equal values hash alike where the comparison misreads no int on its way, and where the
frozensets of `a` that it comes to hold their elements apart. -/
theorem equal_values_hash (a b : Value) (h k : Int64) (ha : pythonHash sip a=some h)
    (hb : pythonHash sip b=some k) (hs : Sound sip eqRecursionLimit a b)
    (he : recurseEq a b=true) : h=k := by
  have hne : ∀v x, pythonHash sip v=some x → pythonHash sip v≠none := fun v x hv => by
    rw [hv]
    exact Option.some_ne_none x
  have hh := (agreement sip eqRecursionLimit (le_refl _)).1 a b (hne a h ha) (hne b k hb) he hs
  rw [ha,hb] at hh
  exact Option.some_inj.mp hh

/-- `frozenset({1, None})` and `frozenset({None, True})`. -/
theorem equal_values_hash_frozenset :
    ∃h k, pythonHash (fun _ => 0) (.frozenset [.int 1,.none])=some h ∧
      pythonHash (fun _ => 0) (.frozenset [.none,.bool true])=some k ∧ h=k := by
  refine ⟨_,_,rfl,rfl,?_⟩
  refine equal_values_hash (fun _ => 0) (.frozenset [.int 1,.none]) (.frozenset [.none,.bool true])
    _ _ rfl rfl (fun _ => ⟨⟨⟨?_,fun _ => ⟨?_,fun _ => trivial⟩⟩,fun _ => ⟨⟨?_,fun _ => ⟨?_,
      fun _ => trivial⟩⟩,fun _ => trivial⟩⟩,fun _ => List.pairwise_pair.mpr ?_⟩) (by decide)
  · intro _ _ _ h
    cases h
  · intro _ _ hx hy
    cases hx
    cases hy
    exact ⟨trivial,trivial⟩
  · intro _ _ h
    cases h
  · intro _ _ h
    cases h
  · rintro ⟨y,hy,h⟩
    simp only [List.mem_cons,List.not_mem_nil,or_false] at hy
    obtain rfl|rfl := hy
    · exact absurd h.1 (by decide)
    · exact absurd h.2 (by decide)

/-- The int `2^53+1` equals the float `2^53`, whose hash is `2^53`. -/
theorem equal_values_differ : ¬∃sip, ∀a b h k, pythonHash sip a=some h → pythonHash sip b=some k →
    recurseEq a b=true → h=k := by
  intro ⟨sip,h⟩
  have hi : hashI64 9007199254740993=9007199254740993 := by decide
  have hf : hashDouble ⟨0x4340000000000000⟩=9007199254740992 := by decide
  have he := h (.int 9007199254740993) (.float ⟨0x4340000000000000⟩) _ _ (congrArg some hi)
    (congrArg some hf) (by decide)
  exact absurd he (by decide)

end Agreement

end InterpretThis
