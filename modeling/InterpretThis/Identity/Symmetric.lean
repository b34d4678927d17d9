import InterpretThis.Framework.Calling
import InterpretThis.Identity.Values
import Mathlib.Data.List.Perm.Subperm

namespace InterpretThis
namespace Identity

section Parts

variable {α K : Type} {eq : α → α → Bool}

/-- A comparison of two lists in step comes to `x` and `y`. -/
inductive ZipComes (eq : α → α → Bool) : List α → List α → α → α → Prop where
  | head {x y : α} {xs ys : List α} : ZipComes eq (x::xs) (y::ys) x y
  | tail {u v x y : α} {xs ys : List α} (h : eq u v=true) (ht : ZipComes eq xs ys x y) :
    ZipComes eq (u::xs) (v::ys) x y

theorem zipAll_cons {x y : α} {xs ys : List α} :
    zipAll eq (x::xs) (y::ys)=(eq x y&&zipAll eq xs ys) := by
  simp only [zipAll,List.length_cons,List.zip_cons_cons,List.all_cons]
  rw [Bool.and_left_comm,show (xs.length+1==ys.length+1)=(xs.length==ys.length) from by simp]

theorem zipAll_symm {xs ys : List α}
    (h : xs.length=ys.length → ∀ x y,ZipComes eq xs ys x y → eq x y=eq y x) :
    zipAll eq xs ys=zipAll eq ys xs := by
  induction xs generalizing ys with
  | nil => cases ys <;> rfl
  | cons x xs ih =>
    cases ys with
    | nil => rfl
    | cons y ys =>
      by_cases hl : xs.length=ys.length
      · have hcomes := h (congrArg (·+1) hl)
        rw [zipAll_cons,zipAll_cons,← hcomes x y .head]
        cases hxy : eq x y with
        | false => rfl
        | true => rw [ih fun _ u v huv => hcomes u v (.tail hxy huv)]
      · have hlen {us vs : List α} (hne : us.length≠vs.length) : zipAll eq us vs=false := by
          rw [zipAll,beq_false_of_ne hne,Bool.false_and]
        rw [hlen (by simpa using hl),hlen (by simpa using fun he => hl he.symm)]

variable [DecidableEq K]

/-- A comparison of keyed values in step comes to `x` and `y`. -/
inductive KeyZipComes (eq : α → α → Bool) : List (K×α) → List (K×α) → α → α → Prop where
  | head {k : K} {x y : α} {xs ys : List (K×α)} : KeyZipComes eq ((k,x)::xs) ((k,y)::ys) x y
  | tail {k : K} {u v x y : α} {xs ys : List (K×α)} (h : eq u v=true)
    (ht : KeyZipComes eq xs ys x y) : KeyZipComes eq ((k,u)::xs) ((k,v)::ys) x y

/-- A comparison that looks up the keys of one list in another comes to `x` and `y`. -/
inductive KeyComes (eq : α → α → Bool) (ys : List (K×α)) : List (K×α) → α → α → Prop where
  | head {k : K} {x y : α} {xs : List (K×α)} (hy : ys.lookup k=some y) : KeyComes eq ys ((k,x)::xs) x y
  | tail {k : K} {u v x y : α} {xs : List (K×α)} (hv : ys.lookup k=some v) (h : eq u v=true)
    (ht : KeyComes eq ys xs x y) : KeyComes eq ys ((k,u)::xs) x y

theorem keyedZip_eq (xs ys : List (K×α)) :
    keyedZip eq xs ys=zipAll (fun p q : K×α => p.1==q.1&&eq p.2 q.2) xs ys := rfl

variable {xs ys : List (K×α)}

theorem keyedZip_symm (h : xs.length=ys.length → ∀ x y,KeyZipComes eq xs ys x y → eq x y=eq y x) :
    keyedZip eq xs ys=keyedZip eq ys xs := by
  rw [keyedZip_eq,keyedZip_eq]
  refine zipAll_symm fun hl p q hpq => ?_
  by_cases hk : p.1=q.1
  · have hcomes : KeyZipComes eq xs ys p.2 q.2 := by
      clear h hl
      induction hpq with
      | @head x y xs ys =>
        obtain ⟨k,x⟩ := x
        obtain ⟨l,y⟩ := y
        obtain rfl : k=l := hk
        exact .head
      | @tail u v x y xs ys huv _ ih =>
        rw [Bool.and_eq_true,beq_iff_eq] at huv
        obtain ⟨k,u⟩ := u
        obtain ⟨l,v⟩ := v
        obtain rfl : k=l := huv.1
        exact .tail huv.2 (ih hk)
    rw [h hl _ _ hcomes,hk]
  · rw [beq_false_of_ne hk,beq_false_of_ne (Ne.symm hk)]
    rfl

/-- Keys that are all found, with values that are equal the other way round, are walked through. -/
theorem keyedAll_walk (hex : ∀ p∈xs,∃ y,ys.lookup p.1=some y ∧ eq y p.2=true)
    (h : ∀ x y,KeyComes eq ys xs x y → eq x y=eq y x) :
    ∀ p∈xs,∃ y,ys.lookup p.1=some y ∧ eq p.2 y=true := by
  induction xs with
  | nil =>
    intro p hp
    cases hp
  | cons q xs ih =>
    obtain ⟨y,hy,hyq⟩ := hex q List.mem_cons_self
    have hqy : eq q.2 y=true := (h q.2 y (.head hy)).trans hyq
    intro p hp
    cases hp with
    | head => exact ⟨y,hy,hqy⟩
    | tail _ hp =>
      exact ih (fun p hp => hex p (List.mem_cons_of_mem _ hp))
        (fun u v huv => h u v (.tail hy hqy huv)) p hp

theorem keyComes_of_all (hall : ∀ p∈xs,∃ y,ys.lookup p.1=some y ∧ eq p.2 y=true) {p : K×α}
    (hp : p∈xs) {y : α} (hy : ys.lookup p.1=some y) : KeyComes eq ys xs p.2 y := by
  induction xs with
  | nil => cases hp
  | cons q xs ih =>
    cases hp with
    | head => exact .head hy
    | tail _ hp =>
      obtain ⟨v,hv,he⟩ := hall q List.mem_cons_self
      exact .tail hv he (ih (fun p hp => hall p (List.mem_cons_of_mem _ hp)) hp)

theorem keyedAll_iff : keyedAll eq xs ys=true ↔
    xs.length=ys.length ∧ ∀ p∈xs,∃ y,ys.lookup p.1=some y ∧ eq p.2 y=true := by
  rw [keyedAll,Bool.and_eq_true,beq_iff_eq,List.all_eq_true]
  refine and_congr_right fun _ => forall₂_congr fun p _ => ?_
  cases hl : ys.lookup p.1 with
  | none => simp
  | some y => simp

/-- Distinct keys of the one list that all stand in the other of the same length are its keys. -/
theorem keyedAll_back (hx : (xs.map Prod.fst).Nodup) (hy : (ys.map Prod.fst).Nodup)
    (hall : keyedAll eq xs ys=true) : ∀ q∈ys,∃ x,xs.lookup q.1=some x ∧ eq x q.2=true := by
  obtain ⟨hlen,hfind⟩ := keyedAll_iff.mp hall
  have hsub : xs.map Prod.fst ⊆ ys.map Prod.fst := by
    intro k hk
    obtain ⟨p,hp,rfl⟩ := List.mem_map.mp hk
    obtain ⟨y,hy',-⟩ := hfind p hp
    exact List.mem_map.mpr ⟨_,Calling.mem_of_lookup hy',rfl⟩
  have hperm : (xs.map Prod.fst).Perm (ys.map Prod.fst) := by
    apply (List.subperm_of_subset hx hsub).perm_of_length_le
    rw [List.length_map,List.length_map,hlen]
  intro q hq
  have hk : q.1∈xs.map Prod.fst := hperm.mem_iff.mpr (List.mem_map.mpr ⟨q,hq,rfl⟩)
  obtain ⟨p,hp,hpk⟩ := List.mem_map.mp hk
  have hp' : (q.1,p.2)∈xs := hpk ▸ hp
  obtain ⟨y,hy',he⟩ := hfind (q.1,p.2) hp'
  have hsame : y=q.2 := Option.some.inj (hy'.symm.trans (Calling.lookup_of_mem hy hq))
  exact ⟨p.2,Calling.lookup_of_mem hx hp',hsame ▸ he⟩

theorem keyedAll_symm (hx : (xs.map Prod.fst).Nodup) (hy : (ys.map Prod.fst).Nodup)
    (h : xs.length=ys.length → ∀ x y,KeyComes eq ys xs x y → eq x y=eq y x) :
    keyedAll eq xs ys=keyedAll eq ys xs := by
  rw [Bool.eq_iff_iff]
  constructor
  · intro hall
    obtain ⟨hlen,hfind⟩ := keyedAll_iff.mp hall
    refine keyedAll_iff.mpr ⟨hlen.symm,fun q hq => ?_⟩
    obtain ⟨x,hl,he⟩ := keyedAll_back hx hy hall q hq
    have hmem : (q.1,q.2)∈ys := hq
    have hfound := Calling.lookup_of_mem hy hmem
    have hcomes := keyComes_of_all (p := (q.1,x)) hfind (Calling.mem_of_lookup hl) hfound
    exact ⟨x,hl,(h hlen x q.2 hcomes).symm.trans he⟩
  · intro hall
    have hlen := (keyedAll_iff.mp hall).1.symm
    exact keyedAll_iff.mpr ⟨hlen,keyedAll_walk (keyedAll_back hy hx hall) (h hlen)⟩

end Parts

variable {P K : Type} [DecidableEq K] (trim : List Char → List Char) (S : Storage P K)

section Way

variable (eq : Val P → Val P → Bool)

/-- The comparison of `a` with `b` comes to that of `x` with `y`, which `eq` makes. Sets are not
walked in step. -/
inductive Compares : Val P → Val P → Val P → Val P → Prop where
  | sequence {j k : SequenceKind} {i i' : ℕ} {x y : Val P} (hk : j=.list ↔ k=.list) (hne : i≠i')
    (hl : (S.items i).length=(S.items i').length) (h : ZipComes eq (S.items i) (S.items i') x y) :
    Compares (.sequence j i) (.sequence k i') x y
  | deque {xs ys : List (Val P)} {n n' : Option ℕ} {x y : Val P} (hl : xs.length=ys.length)
    (h : ZipComes eq xs ys x y) : Compares (.deque xs n) (.deque ys n') x y
  | tuple {xs ys : List (Val P)} {x y : Val P} (hl : xs.length=ys.length)
    (h : ZipComes eq xs ys x y) : Compares (.tuple xs) (.tuple ys) x y
  | ordered {i i' : ℕ} {x y : Val P} (hne : i≠i')
    (hl : (S.entries i).length=(S.entries i').length)
    (h : KeyZipComes eq (S.entries i) (S.entries i') x y) :
    Compares (.mapping .orderedDict i) (.mapping .orderedDict i') x y
  | mapping {j k : MappingKind} {i i' : ℕ} {x y : Val P} (hk : j=.dict ∨ k=.dict) (hne : i≠i')
    (hl : (S.entries i).length=(S.entries i').length)
    (h : KeyComes eq (S.entries i') (S.entries i) x y) :
    Compares (.mapping j i) (.mapping k i') x y
  | field {c : String} {i i' : ℕ} {x y : Val P} (hne : i≠i')
    (hl : (S.fields i).length=(S.fields i').length)
    (h : KeyComes eq (S.fields i') (S.fields i) x y) :
    Compares (.instanceOf c i) (.instanceOf c i') x y
  | start {a b c d e f : Val P} : Compares (.slice a b c) (.slice d e f) a d
  | stop {a b c d e f : Val P} (h : eq a d=true) : Compares (.slice a b c) (.slice d e f) b e
  | step {a b c d e f : Val P} (h : eq a d=true) (h' : eq b e=true) :
    Compares (.slice a b c) (.slice d e f) c f
  | memberLeft {c m : String} {value right : Val P} {kind : EnumKind}
    (hk : comparesByValue kind=true) (hr : ¬∃ d n v k,right=.enumMember d n v k) :
    Compares (.enumMember c m value kind) right value right
  | memberRight {c m : String} {value left : Val P} {kind : EnumKind}
    (hk : comparesByValue kind=true) (hl : ¬∃ d n v k,left=.enumMember d n v k) :
    Compares left (.enumMember c m value kind) left value

/-- The walks through two values answer the same both ways round. -/
structure Turns (a b : Val P) : Prop where
  sequence : ∀ j i k i',(j=.list ↔ k=.list) → i≠i' → a=.sequence j i → b=.sequence k i' →
    zipAll eq (S.items i) (S.items i')=zipAll eq (S.items i') (S.items i)
  deque : ∀ xs n ys n',a=.deque xs n → b=.deque ys n' → zipAll eq xs ys=zipAll eq ys xs
  tuple : ∀ xs ys,a=.tuple xs → b=.tuple ys → zipAll eq xs ys=zipAll eq ys xs
  ordered : ∀ i i',i≠i' → a=.mapping .orderedDict i → b=.mapping .orderedDict i' →
    keyedZip eq (S.entries i) (S.entries i')=keyedZip eq (S.entries i') (S.entries i)
  mapping : ∀ j i k i',(j=.dict ∨ k=.dict) → i≠i' → a=.mapping j i → b=.mapping k i' →
    keyedAll eq (S.entries i) (S.entries i')=keyedAll eq (S.entries i') (S.entries i)
  setlike : ∀ j i k i',a=.setlike j i → b=.setlike k i' →
    allIn eq (S.elements i) (S.elements i')=allIn eq (S.elements i') (S.elements i)
  field : ∀ c i i',i≠i' → a=.instanceOf c i → b=.instanceOf c i' →
    keyedAll eq (S.fields i) (S.fields i')=keyedAll eq (S.fields i') (S.fields i)
  slice : ∀ u v w x y z,a=.slice u v w → b=.slice x y z →
    (eq u x&&eq v y&&eq w z)=(eq x u&&eq y v&&eq z w)

end Way

/-- The comparison of `a` with `b` at a depth comes to that of `x` with `y` at another. -/
inductive Meets : ℕ → Val P → Val P → ℕ → Val P → Val P → Prop where
  | here {depth : ℕ} {a b : Val P} : Meets depth a b depth a b
  | next {depth depth' : ℕ} {a b c d x y : Val P}
    (h : Compares S (valuesEqual trim S depth) a b c d) (hm : Meets depth c d depth' x y) :
    Meets (depth+1) a b depth' x y

/-- Two sets of one size that the comparison comes to contain each other or neither the other. -/
def Balanced (depth : ℕ) (a b : Val P) : Prop :=
  ∀ depth' j i k i',Meets trim S depth a b (depth'+1) (.setlike j i) (.setlike k i') →
    allIn (valuesEqual trim S depth') (S.elements i) (S.elements i')=
      allIn (valuesEqual trim S depth') (S.elements i') (S.elements i)

variable {trim S}

theorem Turns.symm {eq : Val P → Val P → Bool} {a b : Val P} (t : Turns S eq a b) : Turns S eq b a where
  sequence j i k i' hk hne hb ha := (t.sequence k i' j i hk.symm hne.symm ha hb).symm
  deque xs n ys n' hb ha := (t.deque ys n' xs n ha hb).symm
  tuple xs ys hb ha := (t.tuple ys xs ha hb).symm
  ordered i i' hne hb ha := (t.ordered i' i hne.symm ha hb).symm
  mapping j i k i' hk hne hb ha := (t.mapping k i' j i hk.symm hne.symm ha hb).symm
  setlike j i k i' hb ha := (t.setlike k i' j i ha hb).symm
  field c i i' hne hb ha := (t.field c i' i hne.symm ha hb).symm
  slice u v w x y z hb ha := (t.slice x y z u v w ha hb).symm

theorem turns {eq : Val P → Val P → Bool} {a b : Val P}
    (h : ∀ x y,Compares S eq a b x y → eq x y=eq y x)
    (hset : ∀ j i k i',a=.setlike j i → b=.setlike k i' →
      allIn eq (S.elements i) (S.elements i')=allIn eq (S.elements i') (S.elements i)) :
    Turns S eq a b where
  sequence j i k i' hk hne ha hb := by
    subst ha hb
    exact zipAll_symm fun hl x y hxy => h x y (.sequence hk hne hl hxy)
  deque xs n ys n' ha hb := by
    subst ha hb
    exact zipAll_symm fun hl x y hxy => h x y (.deque hl hxy)
  tuple xs ys ha hb := by
    subst ha hb
    exact zipAll_symm fun hl x y hxy => h x y (.tuple hl hxy)
  ordered i i' hne ha hb := by
    subst ha hb
    exact keyedZip_symm fun hl x y hxy => h x y (.ordered hne hl hxy)
  mapping j i k i' hk hne ha hb := by
    subst ha hb
    exact keyedAll_symm (S.distinctKeys i) (S.distinctKeys i') fun hl x y hxy =>
      h x y (.mapping hk hne hl hxy)
  setlike := hset
  field c i i' hne ha hb := by
    subst ha hb
    exact keyedAll_symm (S.distinctNames i) (S.distinctNames i') fun hl x y hxy =>
      h x y (.field hne hl hxy)
  slice u v w x y z ha hb := by
    subst ha hb
    rw [← h _ _ .start]
    cases hu : eq u x with
    | false => rfl
    | true =>
      rw [← h _ _ (.stop hu)]
      cases hv : eq v y with
      | false => rfl
      | true => rw [← h _ _ (.step hu hv)]

section Plain

variable {eq : Val P → Val P → Bool} {a b : Val P}

theorem unionTypeEq_symm (x y : String) : unionTypeEq trim x y=unionTypeEq trim y x := by
  rw [unionTypeEq,unionTypeEq]
  cases unionMembers trim x with
  | none => cases unionMembers trim y <;> rfl
  | some xs =>
    cases unionMembers trim y with
    | none => rfl
    | some ys =>
      show (xs.length==ys.length&&_&&_)=(ys.length==xs.length&&_&&_)
      rw [Bool.and_assoc,Bool.and_assoc,Bool.and_comm (xs.all _),BEq.comm]

theorem dateTimesEqual_turn {x y : Int} {tx ty : Option Int} (h : dateTimesEqual x tx y ty=true) :
    dateTimesEqual y ty x tx=true := by
  cases tx with
  | none =>
    cases ty with
    | none => exact BEq.symm h
    | some oy => cases h
  | some ox =>
    cases ty with
    | none => cases h
    | some oy => exact BEq.symm h

theorem rangesEqual_turn {sa pa ta sb pb tb : Int64} (h : rangesEqual sa pa ta sb pb tb=true) :
    rangesEqual sb pb tb sa pa ta=true := by
  simp only [rangesEqual,Bool.and_eq_true,Bool.or_eq_true,beq_iff_eq] at h ⊢
  obtain ⟨hl,h0⟩ := h
  rw [← hl]
  refine ⟨rfl,?_⟩
  cases h0 with
  | inl h0 => exact .inl h0
  | inr h0 => exact .inr ⟨h0.1.symm,h0.2.imp_right Eq.symm⟩

theorem or_turn {p p' q q' : Bool} (hp : p=true → p'=true) (hq : q=true → q'=true)
    (h : (p||q)=true) : (p'||q')=true := by
  rw [Bool.or_eq_true] at h ⊢
  exact h.imp hp hq

theorem and_turn {p p' q q' : Bool} (hp : p=true → p'=true) (hq : q=true → q'=true)
    (h : (p&&q)=true) : (p'&&q')=true := by
  rw [Bool.and_eq_true] at h ⊢
  exact h.imp hp hq

theorem or_walk {i j : ℕ} {p p' : Bool} (h : i≠j → p=p') (hab : (i==j||p)=true) :
    (j==i||p')=true := by
  by_cases hij : i=j
  · rw [hij,beq_self_eq_true,Bool.true_or]
  · rw [beq_false_of_ne hij,Bool.false_or] at hab
    rw [← h hij,hab,Bool.or_true]

/-- What one level finds equal, it finds equal the other way round. -/
theorem plainEqual_turn (t : Turns S eq a b) (hab : plainEqual trim S eq a b=true) :
    plainEqual trim S eq b a=true := by
  rw [plainEqual.eq_def] at hab
  split at hab
  · exact BEq.symm hab
  · exact BEq.symm hab
  · exact BEq.symm hab
  · exact (F64.eq_comm _ _).trans hab
  · exact BEq.symm hab
  · exact BEq.symm hab
  · exact or_turn BEq.symm BEq.symm hab
  · exact hab
  · exact hab
  · exact hab
  · exact hab
  · exact hab
  · exact hab
  · exact hab
  · exact hab
  · exact BEq.symm hab
  · exact BEq.symm hab
  · exact or_walk (fun hne => t.sequence _ _ _ _ Iff.rfl hne rfl rfl) hab
  · exact or_walk (fun hne => t.sequence _ _ _ _ (by simp) hne rfl rfl) hab
  · exact (t.deque _ _ _ _ rfl rfl).symm.trans hab
  · exact (t.tuple _ _ rfl rfl).symm.trans hab
  · exact or_walk (fun hne => t.ordered _ _ hne rfl rfl) hab
  · next j i k i' hne =>
      have hturn (hk : j=.dict ∨ k=.dict) :=
        or_walk (fun hne => t.mapping j i k i' hk hne rfl rfl) hab
      cases j with
      | dict => cases k <;> exact hturn (.inl rfl)
      | orderedDict =>
        cases k with
        | dict => exact hturn (.inr rfl)
        | orderedDict => exact absurd rfl (hne rfl)
  · exact (t.setlike _ _ _ _ rfl rfl).symm.trans hab
  · next c i d i' =>
      rw [Bool.and_eq_true,beq_iff_eq] at hab
      obtain ⟨rfl,hab⟩ := hab
      show (c==c&&(i'==i||_))=true
      rw [beq_self_eq_true,Bool.true_and]
      exact or_walk (fun hne => t.field _ _ _ hne rfl rfl) hab
  · exact BEq.symm hab
  · exact (t.slice _ _ _ _ _ _ rfl rfl).symm.trans hab
  · exact or_turn BEq.symm (unionTypeEq_symm _ _).symm.trans hab
  · exact and_turn BEq.symm BEq.symm hab
  · exact dateTimesEqual_turn hab
  · exact rangesEqual_turn hab
  · cases hab

theorem plainEqual_symm (t : Turns S eq a b) :
    plainEqual trim S eq a b=plainEqual trim S eq b a := by
  rw [Bool.eq_iff_iff]
  exact ⟨plainEqual_turn t,plainEqual_turn t.symm⟩

/-- The arms for members of an enumeration are turned as a whole. -/
theorem equalStep_symm (h : ∀ x y,Compares S eq a b x y → eq x y=eq y x)
    (hset : ∀ j i k i',a=.setlike j i → b=.setlike k i' →
      allIn eq (S.elements i) (S.elements i')=allIn eq (S.elements i') (S.elements i)) :
    equalStep trim S eq a b=equalStep trim S eq b a := by
  by_cases ha : ∃ c m value kind,a=.enumMember c m value kind
  · obtain ⟨c,m,value,kind,rfl⟩ := ha
    by_cases hb : ∃ c m value kind,b=.enumMember c m value kind
    · obtain ⟨d,n,value',kind',rfl⟩ := hb
      show (c==d&&m==n)=(d==c&&n==m)
      rw [BEq.comm (a := c),BEq.comm (a := m)]
    · have hleft : equalStep trim S eq (.enumMember c m value kind) b=(comparesByValue kind&&eq value b) := by
        cases b with
        | enumMember d n value' kind' => exact absurd ⟨d,n,value',kind',rfl⟩ hb
        | _ => rfl
      have hright : equalStep trim S eq b (.enumMember c m value kind)=(comparesByValue kind&&eq b value) := by
        cases b with
        | enumMember d n value' kind' => exact absurd ⟨d,n,value',kind',rfl⟩ hb
        | _ => rfl
      rw [hleft,hright]
      cases hk : comparesByValue kind with
      | false => rfl
      | true => rw [h value b (.memberLeft hk hb)]
  · by_cases hb : ∃ c m value kind,b=.enumMember c m value kind
    · obtain ⟨d,n,value,kind,rfl⟩ := hb
      have hleft : equalStep trim S eq a (.enumMember d n value kind)=(comparesByValue kind&&eq a value) := by
        cases a with
        | enumMember c m value' kind' => exact absurd ⟨c,m,value',kind',rfl⟩ ha
        | _ => rfl
      have hright : equalStep trim S eq (.enumMember d n value kind) a=(comparesByValue kind&&eq value a) := by
        cases a with
        | enumMember c m value' kind' => exact absurd ⟨c,m,value',kind',rfl⟩ ha
        | _ => rfl
      rw [hleft,hright]
      cases hk : comparesByValue kind with
      | false => rfl
      | true => rw [h a value (.memberRight hk ha)]
    · have hplain (x y : Val P) (hx : ¬∃ c m value kind,x=.enumMember c m value kind)
          (hy : ¬∃ c m value kind,y=.enumMember c m value kind) :
          equalStep trim S eq x y=plainEqual trim S eq x y := by
        rw [equalStep.eq_def]
        split
        · exact absurd ⟨_,_,_,_,rfl⟩ hx
        · exact absurd ⟨_,_,_,_,rfl⟩ hx
        · exact absurd ⟨_,_,_,_,rfl⟩ hy
        · rfl
      rw [hplain a b ha hb,hplain b a hb ha,plainEqual_symm (turns h hset)]

end Plain

variable (trim S)

/-- Every comparison on the way answers the same both ways round. -/
def SymmetricThroughout (depth : ℕ) (a b : Val P) : Prop :=
  ∀ depth' x y,Meets trim S depth a b depth' x y →
    valuesEqual trim S depth' x y=valuesEqual trim S depth' y x

theorem valuesEqual_symm (depth : ℕ) : ∀ a b : Val P,Balanced trim S depth a b →
    valuesEqual trim S depth a b=valuesEqual trim S depth b a := by
  induction depth with
  | zero => exact fun _ _ _ => rfl
  | succ depth ih =>
    intro a b hb
    apply equalStep_symm
    · exact fun x y hxy => ih x y fun depth' j i k i' hm => hb depth' j i k i' (.next hxy hm)
    · rintro j i k i' rfl rfl
      exact hb depth j i k i' .here

theorem Meets.trans {d d' d'' : ℕ} {a b x y z w : Val P} (h : Meets trim S d a b d' x y)
    (h' : Meets trim S d' x y d'' z w) : Meets trim S d a b d'' z w := by
  induction h with
  | here => exact h'
  | next hc hm ih => exact .next hc (ih h')

theorem symmetricThroughout_iff (depth : ℕ) (a b : Val P) :
    SymmetricThroughout trim S depth a b ↔ Balanced trim S depth a b := by
  constructor
  · intro h depth' j i k i' hm
    exact h _ _ _ hm
  · intro hb depth' x y hm
    exact valuesEqual_symm trim S depth' x y fun d j i k i' hm' => hb d j i k i' (hm.trans trim S hm')

theorem valuesIs_plain {a b : Val P} (ha : isReference a=false) (hb : isReference b=false) :
    valuesIs trim S a b=match numericIsKind a,numericIsKind b with
      | some j,some k => if j≠k then false else valuesEqual trim S eqRecursionLimit a b
      | _,_ => valuesEqual trim S eqRecursionLimit a b := by
  rw [valuesIs.eq_def]
  split
  case h_8 => rw [ha,hb]; rfl
  all_goals cases ha

theorem valuesIs_turn {a b : Val P} (h : isReference a=true ∨ isReference b=true ∨
      valuesEqual trim S eqRecursionLimit a b=valuesEqual trim S eqRecursionLimit b a)
    (hab : valuesIs trim S a b=true) : valuesIs trim S b a=true := by
  by_cases hplain : isReference a=false ∧ isReference b=false
  · obtain ⟨ha,hb⟩ := hplain
    have heq : valuesEqual trim S eqRecursionLimit a b=valuesEqual trim S eqRecursionLimit b a := by
      rcases h with h|h|h
      · rw [ha] at h
        cases h
      · rw [hb] at h
        cases h
      · exact h
    rw [valuesIs_plain trim S ha hb] at hab
    rw [valuesIs_plain trim S hb ha,← heq]
    cases hj : numericIsKind a with
    | none =>
      rw [hj] at hab
      cases numericIsKind b <;> exact hab
    | some j =>
      cases hk : numericIsKind b with
      | none =>
        rw [hj,hk] at hab
        exact hab
      | some k =>
        rw [hj,hk] at hab
        by_cases hjk : j=k
        · subst hjk
          exact hab
        · simp only [ne_eq,hjk,not_false_eq_true,if_true] at hab
          cases hab
  · rw [valuesIs.eq_def] at hab
    split at hab
    · exact BEq.symm hab
    · exact BEq.symm hab
    · exact and_turn BEq.symm BEq.symm hab
    · exact and_turn BEq.symm BEq.symm hab
    · exact and_turn BEq.symm BEq.symm hab
    · exact BEq.symm hab
    · exact BEq.symm hab
    · have href : (isReference a||isReference b)=true := by
        rw [Bool.or_eq_true]
        by_contra hno
        rw [not_or,Bool.not_eq_true,Bool.not_eq_true] at hno
        exact hplain hno
      rw [href] at hab
      cases hab

theorem valuesIs_symm (a b : Val P)
    (h : isReference a=true ∨ isReference b=true ∨ Balanced trim S eqRecursionLimit a b) :
    valuesIs trim S a b=valuesIs trim S b a := by
  have h' := h.imp_right (Or.imp_right (valuesEqual_symm trim S eqRecursionLimit a b))
  rw [Bool.eq_iff_iff]
  exact ⟨valuesIs_turn trim S h',
    valuesIs_turn trim S (h'.elim (fun ha => .inr (.inl ha)) (Or.imp_right (.inr ·.symm)))⟩

/-- A storage without contents. -/
def blank : Storage Int String where
  bytes _ := []
  items _ := []
  entries _ := []
  elements _ := []
  fields _ := []
  distinctKeys _ := List.nodup_nil
  distinctNames _ := List.nodup_nil

end Identity
end InterpretThis
