import InterpretThis.Value.Agreement

namespace InterpretThis

section Domain

mutual

/-- No value is boxed anywhere in the key. -/
def boxFree : ValueKey → Bool
  | .tuple items => boxFreeAll items
  | .frozenset items => boxFreeAll items
  | .instanceKey _ _ => false
  | _ => true

def boxFreeAll : List ValueKey → Bool
  | [] => true
  | k::ks => boxFree k&&boxFreeAll ks

end

def isLeaf : Value → Bool
  | .none => true
  | .bool _ => true
  | .int _ => true
  | .bigInt _ => true
  | .float _ => true
  | .complex _ _ => true
  | .decimal _ => true
  | .fraction _ => true
  | .string _ => true
  | .bytes _ => true
  | .date _ => true
  | .time _ => true
  | .dateTime _ _ => true
  | .timeDelta _ => true
  | .timeZone _ => true
  | _ => false

/-- Builtin data with at most `n` levels. The keys made by `value_to_key` from such data box
no value. -/
inductive Data : Nat → Value → Prop
  | leaf {n : Nat} {v : Value} (h : isLeaf v=true) : Data (n+1) v
  | list {n : Nat} (i : Addr) {xs : List Value} (h : ∀x∈xs, Data n x) : Data (n+1) (.list i xs)
  | tuple {n : Nat} {xs : List Value} (h : ∀x∈xs, Data n x) : Data (n+1) (.tuple xs)
  | dict {n : Nat} (i : Addr) {xs : List (ValueKey×Value)} (hk : ∀e∈xs, boxFree e.1=true)
      (h : ∀e∈xs, Data n e.2) : Data (n+1) (.dict i xs)
  | set {n : Nat} {xs : List Value} (h : ∀x∈xs, Data n x) : Data (n+1) (.set xs)
  | frozenset {n : Nat} {xs : List Value} (h : ∀x∈xs, Data n x) : Data (n+1) (.frozenset xs)
  | deque {n : Nat} {xs : List Value} (maxlen : Option Nat) (h : ∀x∈xs, Data n x) :
      Data (n+1) (.deque xs maxlen)

end Domain

section Keys

variable (veq veq' : Value → Value → Bool)

mutual

theorem keyEqDir_boxFree (flip : Bool) (k l : ValueKey) (hk : boxFree k=true) :
    keyEqDir veq flip k l=keyEqDir veq' flip k l := by
  cases k with
  | tuple xs =>
    cases l with
    | tuple ys => exact keyZip_boxFree flip xs ys hk
    | _ => rfl
  | frozenset xs =>
    cases l with
    | frozenset ys =>
      have hall := keyAll_boxFree xs ys hk
      have hsome : ∀y, keySome veq xs y=keySome veq' xs y := fun y => keySome_boxFree xs y hk
      simp only [keyEqDir,hall,hsome]
    | _ => rfl
  | instanceKey h v => cases hk
  | _ => rfl

theorem keyZip_boxFree (flip : Bool) (xs ys : List ValueKey) (hx : boxFreeAll xs=true) :
    keyZip veq flip xs ys=keyZip veq' flip xs ys := by
  cases xs with
  | nil => cases ys <;> rfl
  | cons x xs =>
    cases ys with
    | nil => rfl
    | cons y ys =>
      obtain ⟨hx,hxs⟩ := Bool.and_eq_true_iff.mp hx
      rw [keyZip,keyZip,keyEqDir_boxFree flip x y hx,keyZip_boxFree flip xs ys hxs]

theorem keyAll_boxFree (xs ys : List ValueKey) (hx : boxFreeAll xs=true) :
    keyAll veq xs ys=keyAll veq' xs ys := by
  cases xs with
  | nil => rfl
  | cons x xs =>
    obtain ⟨hx,hxs⟩ := Bool.and_eq_true_iff.mp hx
    have hany : ∀y, keyEqDir veq true x y=keyEqDir veq' true x y :=
      fun y => keyEqDir_boxFree true x y hx
    rw [keyAll,keyAll,keyAll_boxFree xs ys hxs]
    simp only [hany]

theorem keySome_boxFree (xs : List ValueKey) (y : ValueKey) (hx : boxFreeAll xs=true) :
    keySome veq xs y=keySome veq' xs y := by
  cases xs with
  | nil => rfl
  | cons x xs =>
    obtain ⟨hx,hxs⟩ := Bool.and_eq_true_iff.mp hx
    rw [keySome,keySome,keyEqDir_boxFree false x y hx,keySome_boxFree xs y hxs]

end

theorem dictGet_boxFree (entries : List (ValueKey×Value)) (k : ValueKey) (hk : boxFree k=true) :
    dictGet veq entries k=dictGet veq' entries k := by
  have h : ∀e : ValueKey×Value, keyEq veq k e.1=keyEq veq' k e.1 :=
    fun e => keyEqDir_boxFree veq veq' false k e.1 hk
  simp only [dictGet,h]

end Keys

section Levels

/-- Equality of leaves that are no numbers. -/
def atomEq : Value → Value → Bool
  | .none,.none => true
  | .string a,.string b => a==b
  | .bytes a,.bytes b => a==b
  | .date a,.date b => a==b
  | .time a,.time b => a==b
  | .dateTime a ta,.dateTime b tb => dateTimeEq a ta b tb
  | .timeDelta a,.timeDelta b => a==b
  | .timeZone a,.timeZone b => a==b
  | _,_ => false

/-- The numbers that `values_equal` has arms for. -/
def isNarrow : Value → Bool
  | .bool _ => true
  | .int _ => true
  | .float _ => true
  | _ => false

/-- Two numbers, equal under the slots of their types. -/
def NumbersEqual (a b : Value) : Prop :=
  ∃x y, a.number=some x ∧ b.number=some y ∧ x.equal y=true

def NarrowEqual (a b : Value) : Prop :=
  isNarrow a=true ∧ isNarrow b=true ∧ NumbersEqual a b

def lookupKey (entries : List (ValueKey×Value)) (k : ValueKey) : Option Value :=
  dictGet (fun _ _ => false) entries k

/-- One level of equality of builtin data: `num` on numbers, `inner` on the elements of a deque
and `R` on those of the other containers. A list or a dict is equal to itself unread. -/
inductive Level (num inner R : Value → Value → Prop) : Value → Value → Prop
  | atom {a b : Value} (h : atomEq a b=true) : Level num inner R a b
  | number {a b : Value} (h : num a b) : Level num inner R a b
  | sameList (i : Addr) (xs ys : List Value) : Level num inner R (.list i xs) (.list i ys)
  | list (i j : Addr) {xs ys : List Value} (h : List.Forall₂ R xs ys) :
      Level num inner R (.list i xs) (.list j ys)
  | tuple {xs ys : List Value} (h : List.Forall₂ R xs ys) : Level num inner R (.tuple xs) (.tuple ys)
  | sameDict (i : Addr) (xs ys : List (ValueKey×Value)) :
      Level num inner R (.dict i xs) (.dict i ys)
  | dict (i j : Addr) {xs ys : List (ValueKey×Value)} (hl : xs.length=ys.length)
      (hk : ∀e∈xs, lookupKey ys e.1≠none) (h : ∀e∈xs, ∀v, lookupKey ys e.1=some v → R e.2 v) :
      Level num inner R (.dict i xs) (.dict j ys)
  | set {a b : Value} {xs ys : List Value} (ha : a.setItems=some xs) (hb : b.setItems=some ys)
      (partner : Value → Value) (hl : xs.length=ys.length) (hp : ∀x∈xs, partner x∈ys)
      (h : ∀x∈xs, R x (partner x)) : Level num inner R a b
  | deque {xs ys : List Value} (m k : Option Nat) (h : List.Forall₂ inner xs ys) :
      Level num inner R (.deque xs m) (.deque ys k)

/-- Equal as data, where no number of a kind that `values_equal` has no arm for is met. -/
inductive Clear : Value → Value → Prop
  | level {a b : Value} (h : Level NarrowEqual Clear Clear a b) : Clear a b

/-- Equal as data. The elements of two deques meet under the narrower relation. -/
inductive Equal : Value → Value → Prop
  | level {a b : Value} (h : Level NumbersEqual Clear Equal a b) : Equal a b

end Levels

section Kinds

/-- The kinds of data that neither table compares across. -/
def dataKind : Value → Nat
  | .none => 0
  | .bool _ => 1
  | .int _ => 1
  | .bigInt _ => 1
  | .float _ => 1
  | .complex _ _ => 1
  | .decimal _ => 1
  | .fraction _ => 1
  | .string _ => 2
  | .bytes _ => 3
  | .date _ => 4
  | .time _ => 5
  | .dateTime _ _ => 6
  | .timeDelta _ => 7
  | .timeZone _ => 8
  | .list _ _ => 9
  | .tuple _ => 10
  | .dict _ _ => 11
  | .set _ => 12
  | .frozenset _ => 12
  | .deque _ _ => 13
  | _ => 14

theorem Data.kind {n : Nat} {a : Value} (h : Data n a) : dataKind a≠14 := by
  cases h with
  | leaf hl => cases a <;> first | (cases hl; done) | (intro hk; cases hk)
  | _ =>
    intro hk
    cases hk

theorem values_kind (n : Nat) (a b : Value) (ha : dataKind a≠14) (hb : dataKind b≠14)
    (h : valuesEqual (n+1) a b=true) : dataKind a=dataKind b := by
  cases a <;> first | (exact absurd rfl ha) | skip
  all_goals cases b <;> first | rfl | (exact absurd rfl hb) | cases h

theorem slot_kind (n : Nat) (a b : Value) (ha : dataKind a≠14) (hb : dataKind b≠14)
    (h : eqSlot (recurseEqN n) (valuesEqual n) a b=some true) : dataKind a=dataKind b := by
  have temporal : valuesEqual n a b=true → dataKind a=dataKind b := by
    intro hv
    cases n with
    | zero => cases hv
    | succ n => exact values_kind n a b ha hb hv
  cases a <;> first | (exact absurd rfl ha) | (exact temporal (Option.some.inj h)) | skip
  all_goals cases b <;> first
    | rfl
    | (exact absurd rfl hb)
    | (exact absurd h (decimalEq_foreign _ _ rfl rfl rfl))
    | cases h

theorem recurse_kind (n : Nat) (a b : Value) (ha : dataKind a≠14) (hb : dataKind b≠14)
    (h : recurseEqN (n+1) a b=true) : dataKind a=dataKind b := by
  simp only [recurseEqN] at h
  split at h
  · subst h
    exact slot_kind n a b ha hb (by assumption)
  · split at h
    · subst h
      exact (slot_kind n b a hb ha (by assumption)).symm
    · cases h

theorem atomEq_kind (a b : Value) (h : atomEq a b=true) : dataKind a=dataKind b := by
  cases a <;> first | cases h | (cases b <;> first | rfl | cases h)

theorem number_kind (a : Value) (x : Number) (h : a.number=some x) : dataKind a=1 := by
  cases a <;> first | rfl | cases h

theorem setItems_kind (a : Value) (xs : List Value) (h : a.setItems=some xs) : dataKind a=12 := by
  cases a <;> first | rfl | cases h

end Kinds

section Unfolding

variable {num inner R : Value → Value → Prop}

/-- Numbers alone are compared by `num`. -/
def OnNumbers (num : Value → Value → Prop) : Prop :=
  ∀a b, num a b → dataKind a=1 ∧ dataKind b=1

theorem numbersEqual_onNumbers : OnNumbers NumbersEqual := by
  rintro a b ⟨x,y,ha,hb,-⟩
  exact ⟨number_kind a x ha,number_kind b y hb⟩

theorem narrowEqual_onNumbers : OnNumbers NarrowEqual :=
  fun a b h => numbersEqual_onNumbers a b h.2.2

theorem Level.kind (hnum : OnNumbers num) {a b : Value} (h : Level num inner R a b) :
    dataKind a=dataKind b := by
  cases h with
  | atom h => exact atomEq_kind a b h
  | number h => exact (hnum a b h).1.trans (hnum a b h).2.symm
  | set ha hb => exact (setItems_kind a _ ha).trans (setItems_kind b _ hb).symm
  | _ => rfl

variable (hnum : OnNumbers num)

include hnum

theorem level_list (i j : Addr) (xs ys : List Value) :
    Level num inner R (.list i xs) (.list j ys) ↔ i=j ∨ List.Forall₂ R xs ys := by
  constructor
  · intro h
    cases h with
    | atom h => cases h
    | number h => cases (hnum _ _ h).1
    | set ha => cases ha
    | sameList => exact .inl rfl
    | list _ _ h => exact .inr h
  · rintro (rfl|h)
    · exact .sameList i xs ys
    · exact .list i j h

theorem level_tuple (xs ys : List Value) :
    Level num inner R (.tuple xs) (.tuple ys) ↔ List.Forall₂ R xs ys := by
  constructor
  · intro h
    cases h with
    | atom h => cases h
    | number h => cases (hnum _ _ h).1
    | set ha => cases ha
    | tuple h => exact h
  · exact .tuple

theorem level_deque (m k : Option Nat) (xs ys : List Value) :
    Level num inner R (.deque xs m) (.deque ys k) ↔ List.Forall₂ inner xs ys := by
  constructor
  · intro h
    cases h with
    | atom h => cases h
    | number h => cases (hnum _ _ h).1
    | set ha => cases ha
    | deque _ _ h => exact h
  · exact .deque m k

theorem level_set {a b : Value} {xs ys : List Value} (ha : a.setItems=some xs)
    (hb : b.setItems=some ys) :
    Level num inner R a b ↔ xs.length=ys.length ∧ ∀x∈xs, ∃y∈ys, R x y := by
  have hkind : dataKind a=12 := setItems_kind a xs ha
  constructor
  · intro h
    cases h with
    | atom h => cases a <;> first | (cases ha; done) | cases h
    | number h =>
      rw [(hnum _ _ h).1] at hkind
      cases hkind
    | set ha' hb' partner hl hp h =>
      cases ha.symm.trans ha'
      cases hb.symm.trans hb'
      exact ⟨hl,fun x hx => ⟨partner x,hp x hx,h x hx⟩⟩
    | _ => cases ha
  · rintro ⟨hl,h⟩
    choose! partner hp using h
    exact .set ha hb partner hl (fun x hx => (hp x hx).1) (fun x hx => (hp x hx).2)

theorem level_dict (i j : Addr) (xs ys : List (ValueKey×Value)) :
    Level num inner R (.dict i xs) (.dict j ys) ↔ i=j ∨
      xs.length=ys.length ∧ ∀e∈xs, ∃v, lookupKey ys e.1=some v ∧ R e.2 v := by
  constructor
  · intro h
    cases h with
    | atom h => cases h
    | number h => cases (hnum _ _ h).1
    | set ha => cases ha
    | sameDict => exact .inl rfl
    | dict _ _ hl hsome h =>
      refine .inr ⟨hl,?_⟩
      intro e he
      obtain ⟨v,hv⟩ := Option.ne_none_iff_exists'.mp (hsome e he)
      exact ⟨v,hv,h e he v hv⟩
  · rintro (rfl|⟨hl,h⟩)
    · exact .sameDict i xs ys
    · refine .dict i j hl ?_ ?_
      · intro e he hn
        obtain ⟨v,hv,-⟩ := h e he
        rw [hn] at hv
        cases hv
      · intro e he v hv
        obtain ⟨w,hw,hr⟩ := h e he
        cases hv.symm.trans hw
        exact hr

omit hnum in
theorem level_number (a b : Value) (ha : dataKind a=1) : Level num inner R a b ↔ num a b := by
  constructor
  · intro h
    cases h with
    | number h => exact h
    | atom h => cases a <;> first | (cases ha; done) | cases h
    | set hs =>
      rw [setItems_kind a _ hs] at ha
      cases ha
    | _ => cases ha
  · exact .number

theorem level_atom (a b : Value) (ha : isLeaf a=true) (hne : dataKind a≠1) :
    Level num inner R a b ↔ atomEq a b=true := by
  constructor
  · intro h
    cases h with
    | atom h => exact h
    | number h => exact absurd (hnum a b h).1 hne
    | set hs => cases a <;> first | (cases ha; done) | cases hs
    | _ => cases ha
  · exact .atom

end Unfolding

section Tables

/-- Between narrow numbers the two tables have the same arms. -/
theorem values_narrow (n : Nat) (a b : Value) (x y : Number) (ha : isNarrow a=true)
    (hb : isNarrow b=true) (hx : a.number=some x) (hy : b.number=some y) :
    valuesEqual (n+1) a b=x.equal y := by
  cases a with
  | bool p =>
    cases hx
    cases b with
    | bool q =>
      cases hy
      exact (boolInt_eq p q).trans (beq_eq_decide _ _)
    | int j =>
      cases hy
      change (j==boolI64 p)=decide (boolInt p=j.toInt)
      rw [int64_beq,boolI64_toInt]
      exact decide_eq_decide.mpr Eq.comm
    | float g =>
      cases hy
      change g.eq _=g.eq (F64.ofInt (boolInt p))
      rw [ofInt_boolInt]
    | _ => cases hb
  | int i =>
    cases hx
    cases b with
    | bool q =>
      cases hy
      change (i==boolI64 q)=decide (i.toInt=boolInt q)
      rw [int64_beq,boolI64_toInt]
    | int j =>
      cases hy
      exact int64_beq i j
    | float g =>
      cases hy
      rfl
    | _ => cases hb
  | float f =>
    cases hx
    cases b with
    | bool q =>
      cases hy
      change f.eq _=f.eq (F64.ofInt (boolInt q))
      rw [ofInt_boolInt]
    | int j =>
      cases hy
      rfl
    | float g =>
      cases hy
      rfl
    | _ => cases hb
  | _ => cases ha

theorem values_wide (n : Nat) (a b : Value) (ha : dataKind a=1) (hb : dataKind b=1)
    (h : valuesEqual (n+1) a b=true) : isNarrow a=true ∧ isNarrow b=true := by
  cases a <;> first | (cases ha; done) | skip
  all_goals cases b <;> first | (cases hb; done) | exact ⟨rfl,rfl⟩ | cases h

theorem kind_number (a : Value) (h : dataKind a=1) : ∃x, a.number=some x := by
  cases a <;> first | exact ⟨_,rfl⟩ | cases h

/-- What one level of either table does on data: `eq` compares the elements, `deq` those of
deques and `veq` the values boxed in keys. -/
structure Table (step eq deq veq : Value → Value → Bool) (num : Value → Value → Prop) : Prop where
  onNumbers : OnNumbers num
  kind : ∀a b, dataKind a≠14 → dataKind b≠14 → step a b=true → dataKind a=dataKind b
  number : ∀a b, dataKind a=1 → dataKind b=1 → (step a b=true ↔ num a b)
  atom : ∀a b, isLeaf a=true → dataKind a≠1 → dataKind a=dataKind b → step a b=atomEq a b
  list : ∀i j xs ys, step (.list i xs) (.list j ys)=(i==j||zipAll eq xs ys)
  tuple : ∀xs ys, step (.tuple xs) (.tuple ys)=zipAll eq xs ys
  dict : ∀i j xs ys, step (.dict i xs) (.dict j ys)=(i==j||dictAll veq eq xs ys)
  set : ∀a b xs ys, a.setItems=some xs → b.setItems=some ys → step a b=allIn eq xs ys
  deque : ∀xs ys m k, step (.deque xs m) (.deque ys k)=zipAll deq xs ys

theorem values_table (n : Nat) :
    Table (valuesEqual (n+1)) (valuesEqual n) (valuesEqual n) (valuesEqual n) NarrowEqual where
  onNumbers := narrowEqual_onNumbers
  kind := values_kind n
  number := by
    intro a b ha hb
    constructor
    · intro h
      obtain ⟨x,hx⟩ := kind_number a ha
      obtain ⟨y,hy⟩ := kind_number b hb
      obtain ⟨hna,hnb⟩ := values_wide n a b ha hb h
      rw [values_narrow n a b x y hna hnb hx hy] at h
      exact ⟨hna,hnb,x,y,hx,hy,h⟩
    · rintro ⟨hna,hnb,x,y,hx,hy,h⟩
      rw [values_narrow n a b x y hna hnb hx hy]
      exact h
  atom := by
    intro a b hl hne hkind
    cases a <;> first | (cases hl; done) | (exact absurd rfl hne) | skip
    all_goals cases b <;> first | rfl | cases hkind
  list _ _ _ _ := rfl
  tuple _ _ := rfl
  dict _ _ _ _ := rfl
  set := by
    intro a b xs ys ha hb
    cases a <;> cases ha <;> cases b <;> cases hb <;> rfl
  deque _ _ _ _ := rfl

/-- A temporal leaf takes a second level. -/
theorem recurse_table (n : Nat) :
    Table (recurseEqN (n+2)) (recurseEqN (n+1)) (valuesEqual (n+1)) (valuesEqual (n+1))
      NumbersEqual where
  onNumbers := numbersEqual_onNumbers
  kind := recurse_kind (n+1)
  number := by
    intro a b ha hb
    obtain ⟨x,hx⟩ := kind_number a ha
    obtain ⟨y,hy⟩ := kind_number b hb
    rw [recurseEqN_number (n+1) a b x y hx hy]
    constructor
    · intro h
      exact ⟨x,y,hx,hy,h⟩
    · rintro ⟨x',y',hx',hy',h⟩
      cases hx.symm.trans hx'
      cases hy.symm.trans hy'
      exact h
  atom := by
    intro a b hl hne hkind
    cases a <;> first | (cases hl; done) | (exact absurd rfl hne) | skip
    all_goals cases b <;> first | rfl | cases hkind
  list _ _ _ _ := rfl
  tuple _ _ := rfl
  dict _ _ _ _ := rfl
  set := by
    intro a b xs ys ha hb
    cases a <;> cases ha <;> cases b <;> cases hb <;> rfl
  deque _ _ _ _ := rfl

variable {step eq deq veq : Value → Value → Bool} {num : Value → Value → Prop}

theorem dictAll_iff (xs ys : List (ValueKey×Value)) (hk : ∀e∈xs, boxFree e.1=true) :
    dictAll veq eq xs ys=true ↔ xs.length=ys.length ∧
      ∀e∈xs, ∃v, lookupKey ys e.1=some v ∧ eq e.2 v=true := by
  rw [dictAll,Bool.and_eq_true_iff,beq_iff_eq,List.all_eq_true]
  refine and_congr_right' (forall₂_congr fun e he => ?_)
  rw [dictGet_boxFree veq (fun _ _ => false) ys e.1 (hk e he)]
  change _ ↔ ∃v, dictGet (fun _ _ => false) ys e.1=some v ∧ _
  cases dictGet (fun _ _ => false) ys e.1 with
  | none => simp
  | some v => simp

/-- One level of a table on data. -/
theorem Table.level (T : Table step eq deq veq num) {m m' : Nat} {a b : Value} (ha : Data m a)
    (hb : Data m' b) :
    step a b=true ↔ Level num (fun x y => deq x y=true) (fun x y => eq x y=true) a b := by
  have hnum := T.onNumbers
  by_cases hkind : dataKind a=dataKind b
  swap
  · exact ⟨fun h => absurd (T.kind a b ha.kind hb.kind h) hkind,fun h => absurd (h.kind hnum) hkind⟩
  by_cases h1 : dataKind a=1
  · rw [level_number a b h1]
    exact T.number a b h1 (hkind ▸ h1)
  cases ha with
  | list i hxs =>
    cases b with
    | list j ys => rw [T.list,level_list hnum,Bool.or_eq_true_iff,beq_iff_eq,zipAll_forall₂]
    | _ => cases hkind
  | tuple hxs =>
    cases b with
    | tuple ys => rw [T.tuple,level_tuple hnum,zipAll_forall₂]
    | _ => cases hkind
  | dict i hk hxs =>
    cases b with
    | dict j ys =>
      rw [T.dict,level_dict hnum,Bool.or_eq_true_iff,beq_iff_eq,dictAll_iff _ ys hk]
    | _ => cases hkind
  | deque k hxs =>
    cases b with
    | deque ys k' => rw [T.deque,level_deque hnum,zipAll_forall₂]
    | _ => cases hkind
  | leaf hl => rw [level_atom hnum a b hl h1,T.atom a b hl h1 hkind]
  | _ =>
    obtain ⟨ys,hys⟩ : ∃ys, b.setItems=some ys := by
      cases b <;> first | exact ⟨_,rfl⟩ | cases hkind
    rw [T.set _ b _ ys rfl hys,level_set hnum rfl hys,allIn_iff]

end Tables

section Relations

variable {num num' inner inner' R R' : Value → Value → Prop}

theorem lookupKey_mem (ys : List (ValueKey×Value)) (k : ValueKey) (v : Value)
    (h : lookupKey ys k=some v) : ∃e∈ys, e.2=v := by
  rw [lookupKey,dictGet,Option.map_eq_some_iff] at h
  obtain ⟨e,he,hv⟩ := h
  exact ⟨e,List.mem_of_find?_eq_some he,hv⟩

theorem Data.set_items {n : Nat} {a : Value} {xs : List Value} (h : Data (n+1) a)
    (hx : a.setItems=some xs) : ∀x∈xs, Data n x := by
  cases h with
  | set h =>
    cases hx
    exact h
  | frozenset h =>
    cases hx
    exact h
  | leaf hl => cases a <;> first | (cases hl; done) | cases hx
  | _ => cases hx

theorem Data.list_items {n : Nat} {i : Addr} {xs : List Value} (h : Data (n+1) (.list i xs)) :
    ∀x∈xs, Data n x := by
  cases h with
  | leaf hl => cases hl
  | list _ h => exact h

theorem Data.tuple_items {n : Nat} {xs : List Value} (h : Data (n+1) (.tuple xs)) :
    ∀x∈xs, Data n x := by
  cases h with
  | leaf hl => cases hl
  | tuple h => exact h

theorem Data.dict_items {n : Nat} {i : Addr} {xs : List (ValueKey×Value)}
    (h : Data (n+1) (.dict i xs)) : ∀e∈xs, Data n e.2 := by
  cases h with
  | leaf hl => cases hl
  | dict _ _ h => exact h

theorem Data.deque_items {n : Nat} {k : Option Nat} {xs : List Value}
    (h : Data (n+1) (.deque xs k)) : ∀x∈xs, Data n x := by
  cases h with
  | leaf hl => cases hl
  | deque _ h => exact h

theorem Data.lookup {n : Nat} {i : Addr} {ys : List (ValueKey×Value)} {k : ValueKey} {v : Value}
    (h : Data (n+1) (.dict i ys)) (hv : lookupKey ys k=some v) : Data n v := by
  obtain ⟨e,he,rfl⟩ := lookupKey_mem _ _ _ hv
  exact h.dict_items e he

/-- A level reads only the children, which lie one level deeper. -/
theorem Level.imp {n m : Nat} {a b : Value} (ha : Data (n+1) a) (hb : Data (m+1) b)
    (hnum : ∀a b, num a b → num' a b)
    (hinner : ∀x y, Data n x → Data m y → inner x y → inner' x y)
    (hR : ∀x y, Data n x → Data m y → R x y → R' x y) (h : Level num inner R a b) :
    Level num' inner' R' a b := by
  cases h with
  | atom h => exact .atom h
  | number h => exact .number (hnum a b h)
  | sameList i xs ys => exact .sameList i xs ys
  | sameDict i xs ys => exact .sameDict i xs ys
  | list i j h =>
    refine .list i j (Matching.forall₂_imp_mem h ?_)
    intro x hx y hy
    exact hR x y (ha.list_items x hx) (hb.list_items y hy)
  | tuple h =>
    refine .tuple (Matching.forall₂_imp_mem h ?_)
    intro x hx y hy
    exact hR x y (ha.tuple_items x hx) (hb.tuple_items y hy)
  | dict i j hl hk h =>
    refine .dict i j hl hk ?_
    intro e he v hv
    exact hR e.2 v (ha.dict_items e he) (hb.lookup hv) (h e he v hv)
  | set hsa hsb partner hl hp h =>
    refine .set hsa hsb partner hl hp ?_
    intro x hx
    exact hR x _ (ha.set_items hsa x hx) (hb.set_items hsb _ (hp x hx)) (h x hx)
  | deque j k h =>
    refine .deque j k (Matching.forall₂_imp_mem h ?_)
    intro x hx y hy
    exact hinner x y (ha.deque_items x hx) (hb.deque_items y hy)

theorem clear_iff (a b : Value) : Clear a b ↔ Level NarrowEqual Clear Clear a b :=
  ⟨fun ⟨h⟩ => h,.level⟩

theorem equal_iff (a b : Value) : Equal a b ↔ Level NumbersEqual Clear Equal a b :=
  ⟨fun ⟨h⟩ => h,.level⟩

theorem values_clear (m n : Nat) (hn : m≤ n) (a b : Value) (ha : Data m a) (hb : Data m b) :
    valuesEqual n a b=true ↔ Clear a b := by
  induction m generalizing n a b with
  | zero => cases ha
  | succ m ih =>
    obtain ⟨n,rfl⟩ := Nat.exists_eq_succ_of_ne_zero (by omega : n≠0)
    have hin : ∀x y, Data m x → Data m y → (valuesEqual n x y=true ↔ Clear x y) :=
      fun x y hx hy => ih n (by omega) x y hx hy
    rw [(values_table n).level ha hb,clear_iff]
    constructor
    · exact Level.imp ha hb (fun _ _ h => h) (fun x y hx hy => (hin x y hx hy).mp)
        (fun x y hx hy => (hin x y hx hy).mp)
    · exact Level.imp ha hb (fun _ _ h => h) (fun x y hx hy => (hin x y hx hy).mpr)
        (fun x y hx hy => (hin x y hx hy).mpr)

theorem recurse_equal (m n : Nat) (hn : m< n) (a b : Value) (ha : Data m a) (hb : Data m b) :
    recurseEqN n a b=true ↔ Equal a b := by
  induction m generalizing n a b with
  | zero => cases ha
  | succ m ih =>
    obtain ⟨n,rfl⟩ : ∃k, n=k+2 := ⟨n-2,by omega⟩
    have hin : ∀x y, Data m x → Data m y → (recurseEqN (n+1) x y=true ↔ Equal x y) :=
      fun x y hx hy => ih (n+1) (by omega) x y hx hy
    have hdeq : ∀x y, Data m x → Data m y → (valuesEqual (n+1) x y=true ↔ Clear x y) :=
      fun x y hx hy => values_clear m (n+1) (by omega) x y hx hy
    rw [(recurse_table n).level ha hb,equal_iff]
    constructor
    · exact Level.imp ha hb (fun _ _ h => h) (fun x y hx hy => (hdeq x y hx hy).mp)
        (fun x y hx hy => (hin x y hx hy).mp)
    · exact Level.imp ha hb (fun _ _ h => h) (fun x y hx hy => (hdeq x y hx hy).mpr)
        (fun x y hx hy => (hin x y hx hy).mpr)

theorem clear_equal (m : Nat) (a b : Value) (ha : Data m a) (hb : Data m b) (h : Clear a b) :
    Equal a b := by
  induction m generalizing a b with
  | zero => cases ha
  | succ m ih =>
    rw [clear_iff] at h
    exact .level (h.imp ha hb (fun _ _ hn => hn.2.2) (fun _ _ _ _ hc => hc) ih)

end Relations

section Blindness

/-- Equal data that `values_equal` is blind to: two equal numbers, one of them a big int, a
complex, a `Decimal` or a `Fraction`; or equal containers, not one object, with such a pair in
the same place. In a set it is an element all of whose equals it meets so. -/
inductive Blind : Value → Value → Prop
  | number {a b : Value} (h : NumbersEqual a b) (hw : isNarrow a=false ∨ isNarrow b=false) :
      Blind a b
  | list {i j : Addr} {xs ys : List Value} (x y : Value) (hij : i≠j) (h : List.Forall₂ Equal xs ys)
      (hm : (x,y)∈xs.zip ys) (hb : Blind x y) : Blind (.list i xs) (.list j ys)
  | tuple {xs ys : List Value} (x y : Value) (h : List.Forall₂ Equal xs ys) (hm : (x,y)∈xs.zip ys)
      (hb : Blind x y) : Blind (.tuple xs) (.tuple ys)
  | dict {i j : Addr} {xs ys : List (ValueKey×Value)} (e : ValueKey×Value) (v : Value) (hij : i≠j)
      (hl : xs.length=ys.length) (h : ∀e∈xs, ∃v, lookupKey ys e.1=some v ∧ Equal e.2 v)
      (hm : e∈xs) (hv : lookupKey ys e.1=some v) (hb : Blind e.2 v) :
      Blind (.dict i xs) (.dict j ys)
  | set {a b : Value} {xs ys : List Value} (x : Value) (ha : a.setItems=some xs)
      (hb : b.setItems=some ys) (hl : xs.length=ys.length) (h : ∀x∈xs, ∃y∈ys, Equal x y)
      (hm : x∈xs) (hall : ∀y∈ys, Equal x y → Blind x y) : Blind a b

theorem Blind.equal {a b : Value} (h : Blind a b) : Equal a b := by
  rw [equal_iff]
  cases h with
  | number h => exact .number h
  | list x y hij h => exact .list _ _ h
  | tuple x y h => exact .tuple h
  | dict e v hij hl h => exact (level_dict numbersEqual_onNumbers _ _ _ _).mpr (.inr ⟨hl,h⟩)
  | set x ha hb hl h => exact (level_set numbersEqual_onNumbers ha hb).mpr ⟨hl,h⟩

theorem Blind.not_clear (m : Nat) (a b : Value) (ha : Data m a) (hb : Data m b) (h : Blind a b) :
    ¬Clear a b := by
  have hnum := narrowEqual_onNumbers
  induction m generalizing a b with
  | zero => cases ha
  | succ m ih =>
    rw [clear_iff]
    cases h with
    | number h hw =>
      rw [level_number a b (numbersEqual_onNumbers a b h).1]
      rintro ⟨hna,hnb,-⟩
      rw [hna,hnb] at hw
      simp at hw
    | list x y hij h hm hblind =>
      rw [level_list hnum]
      rintro (hsame|hc)
      · exact hij hsame
      · exact ih x y (ha.list_items x (List.of_mem_zip hm).1) (hb.list_items y (List.of_mem_zip hm).2)
          hblind (List.forall₂_zip hc hm)
    | tuple x y h hm hblind =>
      rw [level_tuple hnum]
      intro hc
      exact ih x y (ha.tuple_items x (List.of_mem_zip hm).1)
        (hb.tuple_items y (List.of_mem_zip hm).2) hblind (List.forall₂_zip hc hm)
    | dict e v hij hl h hm hv hblind =>
      rw [level_dict hnum]
      rintro (hsame|⟨-,hc⟩)
      · exact hij hsame
      · obtain ⟨w,hw,hcw⟩ := hc e hm
        cases hv.symm.trans hw
        exact ih _ _ (ha.dict_items e hm) (hb.lookup hv) hblind hcw
    | set x hsa hsb hl h hm hall =>
      rw [level_set hnum hsa hsb]
      rintro ⟨-,hc⟩
      obtain ⟨y,hy,hcy⟩ := hc x hm
      have hdx := ha.set_items hsa x hm
      have hdy := hb.set_items hsb y hy
      exact ih x y hdx hdy (hall y hy (clear_equal m x y hdx hdy hcy)) hcy

theorem exists_apart {R S : Value → Value → Prop} {xs ys : List Value} (h : List.Forall₂ R xs ys)
    (hs : ¬List.Forall₂ S xs ys) : ∃x y, (x,y)∈xs.zip ys ∧ R x y ∧ ¬S x y := by
  by_contra hno
  refine hs (List.forall₂_iff_zip.mpr ⟨h.length_eq,?_⟩)
  intro x y hm
  by_contra hsxy
  exact hno ⟨x,y,hm,List.forall₂_zip h hm,hsxy⟩

/-- Equal data that is not clear has a blind spot. -/
theorem blind_of_equal (m : Nat) (a b : Value) (ha : Data m a) (hb : Data m b) (he : Equal a b)
    (hc : ¬Clear a b) : Blind a b := by
  have hnum := narrowEqual_onNumbers
  induction m generalizing a b with
  | zero => cases ha
  | succ m ih =>
    rw [clear_iff] at hc
    rw [equal_iff] at he
    cases he with
    | atom h => exact absurd (.atom h) hc
    | number h =>
      refine .number h ?_
      by_contra hno
      rw [not_or,Bool.not_eq_false,Bool.not_eq_false] at hno
      exact hc (.number ⟨hno.1,hno.2,h⟩)
    | sameList i xs ys => exact absurd (.sameList i xs ys) hc
    | sameDict i xs ys => exact absurd (.sameDict i xs ys) hc
    | list i j h =>
      rw [level_list hnum,not_or] at hc
      obtain ⟨x,y,hm,hxy,hclear⟩ := exists_apart h hc.2
      exact .list x y hc.1 h hm (ih x y (ha.list_items x (List.of_mem_zip hm).1)
        (hb.list_items y (List.of_mem_zip hm).2) hxy hclear)
    | tuple h =>
      rw [level_tuple hnum] at hc
      obtain ⟨x,y,hm,hxy,hclear⟩ := exists_apart h hc
      exact .tuple x y h hm (ih x y (ha.tuple_items x (List.of_mem_zip hm).1)
        (hb.tuple_items y (List.of_mem_zip hm).2) hxy hclear)
    | @dict i j xs ys hl hk h =>
      rw [level_dict hnum,not_or,not_and] at hc
      obtain ⟨hij,hc⟩ := hc
      have hsome : ∀e∈xs, ∃v, lookupKey ys e.1=some v ∧ Equal e.2 v := by
        intro e hm
        obtain ⟨v,hv⟩ := Option.ne_none_iff_exists'.mp (hk e hm)
        exact ⟨v,hv,h e hm v hv⟩
      obtain ⟨e,hclear⟩ := not_forall.mp (hc hl)
      obtain ⟨hm,hclear⟩ := Classical.not_imp.mp hclear
      obtain ⟨v,hv,hev⟩ := hsome e hm
      have hnot : ¬Clear e.2 v := fun hcv => hclear ⟨v,hv,hcv⟩
      exact .dict e v hij hl hsome hm hv (ih _ _ (ha.dict_items e hm) (hb.lookup hv) hev hnot)
    | set hsa hsb partner hl hp h =>
      rw [level_set hnum hsa hsb,not_and] at hc
      obtain ⟨x,hclear⟩ := not_forall.mp (hc hl)
      obtain ⟨hm,hclear⟩ := Classical.not_imp.mp hclear
      refine .set x hsa hsb hl (fun x hx => ⟨partner x,hp x hx,h x hx⟩) hm ?_
      intro y hy hxy
      have hnot : ¬Clear x y := fun hcy => hclear ⟨y,hy,hcy⟩
      exact ih x y (ha.set_items hsa x hm) (hb.set_items hsb y hy) hxy hnot
    | deque j k h => exact absurd (.deque j k h) hc

/-- The two equality tables agree on builtin data below the recursion limit exactly where there
is no blind spot. -/
theorem equality_tables_agree (n : Nat) (hn : n<eqRecursionLimit) (a b : Value) (ha : Data n a)
    (hb : Data n b) : valuesEqual eqRecursionLimit a b=recurseEq a b ↔ ¬Blind a b := by
  have hv := values_clear n eqRecursionLimit (by omega) a b ha hb
  have hr : recurseEq a b=true ↔ Equal a b := recurse_equal n eqRecursionLimit hn a b ha hb
  constructor
  · intro h hblind
    exact hblind.not_clear n a b ha hb (hv.mp (h.trans (hr.mpr hblind.equal)))
  · intro h
    rw [Bool.eq_iff_iff,hv,hr]
    constructor
    · exact clear_equal n a b ha hb
    · intro he
      by_contra hc
      exact h (blind_of_equal n a b ha hb he hc)

def wideList (i : Addr) : Value := .list i [.bigInt (2^70)]

theorem wideList_data (i : Addr) : Data 2 (wideList i) := by
  refine .list i ?_
  intro x hx
  rw [List.mem_singleton.mp hx]
  exact .leaf rfl

theorem equality_tables_agree_wide :
    Blind (wideList 0) (wideList 1) ∧
      valuesEqual eqRecursionLimit (wideList 0) (wideList 1)≠recurseEq (wideList 0) (wideList 1) := by
  have hnum : NumbersEqual (.bigInt (2^70)) (.bigInt (2^70)) := ⟨_,_,rfl,rfl,by decide⟩
  have hblind : Blind (wideList 0) (wideList 1) :=
    .list _ _ (by decide) (.cons (.level (.number hnum)) .nil) (by simp) (.number hnum (.inl rfl))
  refine ⟨hblind,?_⟩
  intro h
  exact (equality_tables_agree 2 (by decide) _ _ (wideList_data 0) (wideList_data 1)).mp h hblind

/-- `[2**70] == [2**70]`, and `values_equal` says they differ. -/
theorem wide_lists_disagree :
    ¬∀n a b, n<eqRecursionLimit → Data n a → Data n b →
      valuesEqual eqRecursionLimit a b=recurseEq a b := by
  intro h
  have hagree := h 2 (wideList 0) (wideList 1) (by decide) (wideList_data 0) (wideList_data 1)
  revert hagree
  decide

end Blindness

end InterpretThis
