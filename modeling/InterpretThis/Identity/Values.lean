import InterpretThis.Math.Binary64
import InterpretThis.Ranges.Range

namespace InterpretThis
namespace Identity

inductive Singleton where
  | none
  | notImplemented
  | ellipsis
  deriving DecidableEq

inductive SequenceKind where
  | list
  | array (typecode : Char)
  deriving DecidableEq

inductive MappingKind where
  | dict
  | orderedDict
  deriving DecidableEq

inductive SetKind where
  | set
  | frozenset
  deriving DecidableEq

/-- The variants that are told apart by the handle or the id of their state alone. -/
inductive HandleKind where
  | function
  | lambda
  | lruCache
  | generator
  | lazy
  | builtinIter
  deriving DecidableEq

/-- The variants that carry a type-like name. -/
inductive NameKind where
  | exceptionType
  | type
  | classRef
  | builtinName
  deriving DecidableEq

inductive TemporalKind where
  | date
  | time
  | timeDelta
  | timeZone
  deriving DecidableEq

/-- The variants that no arm of either comparison names, but for the kinds of number. -/
inductive OtherKind where
  | bigInt
  | complex
  | decimal
  | fraction
  | memoryView
  | stringIO
  | dictView
  | coroutine
  | exception
  | exceptionMethod
  | lazyProxy
  | moduleObject
  | partialObject
  | operatorGetter
  | singleDispatch
  | moduleFunction
  | hashDigest
  | defaultDict
  | chainMap
  | template
  | reMatch
  | super
  | superClass
  | property
  | counter
  | boundMethod
  | builtinTypeMethod
  | toolName
  | unboundClassMethod
  deriving DecidableEq

/-- A value. Storage behind an `Arc` is named by its address; `P` is the payload of the variants that are not looked into. -/
inductive Val (P : Type) where
  | singleton (s : Singleton)
  | bool (b : Bool)
  | int (i : Int64)
  | float (f : F64)
  | string (s : String)
  | bytes (b : List UInt8)
  | byteArray (addr : ℕ)
  | sequence (kind : SequenceKind) (addr : ℕ)
  | tuple (items : List (Val P))
  | mapping (kind : MappingKind) (addr : ℕ)
  | setlike (kind : SetKind) (addr : ℕ)
  | handle (kind : HandleKind) (addr : ℕ)
  | range (start stop step : Int64)
  | slice (start stop step : Val P)
  | name (kind : NameKind) (text : String)
  | instanceOf (className : String) (fields : ℕ)
  | temporal (kind : TemporalKind) (ticks : Int)
  | dateTime (ticks : Int) (tzOffsetSecs : Option Int)
  | deque (items : List (Val P)) (maxlen : Option ℕ)
  | enumMember (className memberName : String) (value : Val P) (kind : EnumKind)
  | rePattern (source : String)
  | other (kind : OtherKind) (payload : P)

/-- What the handles lead to. The keys of a mapping and the fields of an instance are distinct. -/
structure Storage (P K : Type) where
  bytes : ℕ → List UInt8
  items : ℕ → List (Val P)
  entries : ℕ → List (K×Val P)
  elements : ℕ → List (Val P)
  fields : ℕ → List (String×Val P)
  distinctKeys : ∀ i,((entries i).map Prod.fst).Nodup
  distinctNames : ∀ i,((fields i).map Prod.fst).Nodup

section Unions

/-- The arguments of a union at bracket depth zero, the text since the last comma held in reverse. -/
def splitMembers : List Char → ℕ → List Char → List (List Char)
  | [],_,held => [held.reverse]
  | c::cs,depth,held =>
    if c= '[' then splitMembers cs (depth+1) (c::held)
    else if c= ']' then splitMembers cs (depth-1) (c::held)
    else if c= ',' ∧ depth=0 then held.reverse::splitMembers cs depth []
    else splitMembers cs depth (c::held)

-- `trim` drops the white space at both ends.
variable (trim : List Char → List Char)

def unionMembers (s : String) : Option (List (List Char)) :=
  let opening := "typing.Union[".toList
  if opening <+: s.toList then
    let rest := s.toList.drop opening.length
    if rest.getLast?=some ']' then some ((splitMembers rest.dropLast 0 []).map trim) else none
  else none

def unionTypeEq (a b : String) : Bool :=
  match unionMembers trim a,unionMembers trim b with
  | some as,some bs => as.length==bs.length&&as.all (fun x => bs.contains x)&&bs.all fun x => as.contains x
  | _,_ => false

end Unions

section Walks

variable {α K : Type}

def zipAll (eq : α → α → Bool) (xs ys : List α) : Bool :=
  xs.length==ys.length&&(xs.zip ys).all fun p => eq p.1 p.2

def allIn (eq : α → α → Bool) (xs ys : List α) : Bool :=
  xs.length==ys.length&&xs.all fun x => ys.any fun y => eq x y

def keyedAll [DecidableEq K] (eq : α → α → Bool) (xs ys : List (K×α)) : Bool :=
  xs.length==ys.length&&xs.all fun p => match ys.lookup p.1 with
    | some y => eq p.2 y
    | none => false

def keyedZip [DecidableEq K] (eq : α → α → Bool) (xs ys : List (K×α)) : Bool :=
  xs.length==ys.length&&(xs.zip ys).all fun p => p.1.1==p.2.1&&eq p.1.2 p.2.2

end Walks

section Equality

variable {P K : Type} [DecidableEq K] (trim : List Char → List Char) (S : Storage P K)

/-- `EQ_RECURSION_LIMIT`. -/
def eqRecursionLimit : ℕ := 1000

/-- The enumerations whose members compare with plain values through their own. -/
def comparesByValue : EnumKind → Bool
  | .int | .str => true
  | _ => false

def dateTimesEqual (a : Int) (ta : Option Int) (b : Int) (tb : Option Int) : Bool :=
  match ta,tb with
  | none,none => a==b
  | some oa,some ob => a-oa*1000000==b-ob*1000000
  | _,_ => false

def rangesEqual (sa pa ta sb pb tb : Int64) : Bool :=
  let la := Ranges.rangeLength sa pa ta
  la==Ranges.rangeLength sb pb tb&&(la==0||(sa==sb&&(la==1||ta==tb)))

/-- The arms for two values none of which is a member of an enumeration. -/
def plainEqual (eq : Val P → Val P → Bool) (left right : Val P) : Bool :=
  match left,right with
  | .singleton a,.singleton b => a==b
  | .bool a,.bool b => a==b
  | .int a,.int b => a==b
  | .float a,.float b => a.eq b
  | .string a,.string b => a==b
  | .bytes a,.bytes b => a==b
  | .byteArray a,.byteArray b => a==b||S.bytes a==S.bytes b
  | .byteArray a,.bytes b => S.bytes a==b
  | .bytes b,.byteArray a => S.bytes a==b
  | .bool b,.int i => i==boolI64 b
  | .int i,.bool b => i==boolI64 b
  | .bool b,.float f => f.eq (if b then F64.one else F64.zero)
  | .float f,.bool b => f.eq (if b then F64.one else F64.zero)
  | .int i,.float f => f.eq (F64.ofInt i.toInt)
  | .float f,.int i => f.eq (F64.ofInt i.toInt)
  | .handle .function a,.handle .function b => a==b
  | .handle .lambda a,.handle .lambda b => a==b
  | .sequence .list a,.sequence .list b => a==b||zipAll eq (S.items a) (S.items b)
  | .sequence (.array _) a,.sequence (.array _) b => a==b||zipAll eq (S.items a) (S.items b)
  | .deque a _,.deque b _ => zipAll eq a b
  | .tuple a,.tuple b => zipAll eq a b
  | .mapping .orderedDict a,.mapping .orderedDict b =>
    a==b||keyedZip eq (S.entries a) (S.entries b)
  | .mapping _ a,.mapping _ b => a==b||keyedAll eq (S.entries a) (S.entries b)
  | .setlike _ a,.setlike _ b => allIn eq (S.elements a) (S.elements b)
  | .instanceOf c a,.instanceOf d b =>
    c==d&&(a==b||keyedAll eq (S.fields a) (S.fields b))
  | .rePattern a,.rePattern b => a==b
  | .slice a b c,.slice d e f => eq a d&&eq b e&&eq c f
  | .name _ a,.name _ b => a==b||unionTypeEq trim a b
  | .temporal j a,.temporal k b => j==k&&a==b
  | .dateTime a ta,.dateTime b tb => dateTimesEqual a ta b tb
  | .range sa pa ta,.range sb pb tb => rangesEqual sa pa ta sb pb tb
  | _,_ => false

/-- One level of `values_equal`; `eq` is the comparison one level deeper. -/
def equalStep (eq : Val P → Val P → Bool) (left right : Val P) : Bool :=
  match left,right with
  | .enumMember c m _ _,.enumMember d n _ _ => c==d&&m==n
  | .enumMember _ _ value kind,right => comparesByValue kind&&eq value right
  | left,.enumMember _ _ value kind => comparesByValue kind&&eq left value
  | left,right => plainEqual trim S eq left right

/-- `values_equal` with the levels that are left before the limit. -/
def valuesEqual : ℕ → Val P → Val P → Bool
  | 0 => fun _ _ => false
  | depth+1 => equalStep trim S (valuesEqual depth)

/-- The reference types. -/
def isReference : Val P → Bool
  | .sequence _ _ | .instanceOf _ _ | .handle _ _ | .setlike _ _ | .mapping _ _ | .byteArray _ => true
  | _ => false

def numericIsKind : Val P → Option ℕ
  | .bool _ => some 0
  | .int _ | .other .bigInt _ => some 1
  | .float _ => some 2
  | .other .complex _ => some 3
  | _ => none

/-- `values_is`. -/
def valuesIs (left right : Val P) : Bool :=
  match left,right with
  | .sequence .list a,.sequence .list b => a==b
  | .instanceOf _ a,.instanceOf _ b => a==b
  | .handle j a,.handle k b => j==k&&a==b
  | .setlike j a,.setlike k b => j==k&&a==b
  | .mapping j a,.mapping k b => j==k&&a==b
  | .byteArray a,.byteArray b => a==b
  | .sequence (.array _) a,.sequence (.array _) b => a==b
  | _,_ =>
    if isReference left||isReference right then false
    else
      match numericIsKind left,numericIsKind right with
      | some a,some b => if a≠b then false else valuesEqual trim S eqRecursionLimit left right
      | _,_ => valuesEqual trim S eqRecursionLimit left right

end Equality

variable {P K : Type} [DecidableEq K] (trim : List Char → List Char) (S : Storage P K)

section Parts

variable {α : Type} {eq : α → α → Bool}

theorem zipAll_self {xs : List α} : zipAll eq xs xs=true ↔ ∀ x∈xs,eq x x=true := by
  rw [zipAll,Bool.and_eq_true,List.all_eq_true]
  constructor
  · intro h x hx
    obtain ⟨i,hi,rfl⟩ := List.getElem_of_mem hx
    have hmem : (xs[i],xs[i])∈xs.zip xs := by
      rw [List.mem_iff_getElem]
      exact ⟨i,by rw [List.length_zip]; omega,by rw [List.getElem_zip]⟩
    exact h.2 _ hmem
  · intro h
    refine ⟨beq_self_eq_true _,fun p hp => ?_⟩
    obtain ⟨i,hi,rfl⟩ := List.getElem_of_mem hp
    rw [List.getElem_zip]
    exact h _ (List.getElem_mem _)

theorem zipAll_left {xs ys : List α} (h : zipAll eq xs ys=true) : ∀ x∈xs,∃ y,eq x y=true := by
  rw [zipAll,Bool.and_eq_true,List.all_eq_true,beq_iff_eq] at h
  intro x hx
  obtain ⟨i,hi,rfl⟩ := List.getElem_of_mem hx
  have hj : i<ys.length := h.1 ▸ hi
  have hmem : (xs[i],ys[i])∈xs.zip ys := by
    rw [List.mem_iff_getElem]
    exact ⟨i,by rw [List.length_zip]; omega,by rw [List.getElem_zip]⟩
  exact ⟨_,h.2 _ hmem⟩

theorem allIn_left {xs ys : List α} (h : allIn eq xs ys=true) : ∀ x∈xs,∃ y,eq x y=true := by
  rw [allIn,Bool.and_eq_true,List.all_eq_true] at h
  intro x hx
  obtain ⟨y,-,hy⟩ := List.any_eq_true.mp (h.2 x hx)
  exact ⟨y,hy⟩

theorem allIn_self {xs : List α} (h : ∀ x∈xs,eq x x=true) : allIn eq xs xs=true := by
  rw [allIn,Bool.and_eq_true,List.all_eq_true]
  exact ⟨beq_self_eq_true _,fun x hx => List.any_eq_true.mpr ⟨x,hx,h x hx⟩⟩

theorem eq_nan {f g : F64} (h : f.eq g=true) : f.isNan=false := by
  rw [F64.eq,Bool.and_eq_true,Bool.and_eq_true] at h
  exact (Bool.not_eq_true' _).mp h.1.1

theorem eq_self {f : F64} (h : f.isNan=false) : f.eq f=true := by
  rw [F64.eq,h]
  simp only [Bool.not_false,Bool.and_self,decide_true]

end Parts

/-- What one level of the comparison asks of a value to find it equal to itself. -/
def selfEqualStep (sub : Val P → Prop) : Val P → Prop
  | .float f => f.isNan=false
  | .handle kind _ => kind=.function ∨ kind=.lambda
  | .tuple items | .deque items _ => ∀ x∈items,sub x
  | .slice start stop step => sub start ∧ sub stop ∧ sub step
  | .setlike _ i => ∀ x∈S.elements i,sub x
  | .other _ _ => False
  | _ => True

/-- The values within the depth of the comparison whose leaves are no NaN and of no kind that the comparison leaves out. -/
def SelfEqual : ℕ → Val P → Prop
  | 0 => fun _ => False
  | depth+1 => selfEqualStep S (SelfEqual depth)

variable {trim S}

theorem selfEqualStep_mono {sub sub' : Val P → Prop} (h : ∀ x,sub x → sub' x) (v : Val P)
    (hv : selfEqualStep S sub v) : selfEqualStep S sub' v := by
  cases v with
  | tuple items => exact fun x hx => h x (hv x hx)
  | deque items maxlen => exact fun x hx => h x (hv x hx)
  | slice start stop step => exact ⟨h _ hv.1,h _ hv.2.1,h _ hv.2.2⟩
  | setlike kind i => exact fun x hx => h x (hv x hx)
  | _ => exact hv

theorem SelfEqual.succ (depth : ℕ) : ∀ v : Val P,SelfEqual S depth v → SelfEqual S (depth+1) v := by
  induction depth with
  | zero => exact fun _ h => h.elim
  | succ depth ih => exact fun v h => selfEqualStep_mono ih v h

/-- A plain value that is equal to anything is equal to itself. -/
theorem plainEqual_left {eq : Val P → Val P → Bool} {sub : Val P → Prop}
    (h : ∀ x y,eq x y=true → sub x) (a b : Val P) (hab : plainEqual trim S eq a b=true) :
    selfEqualStep S sub a := by
  cases a with
  | float f => cases b <;> first | exact eq_nan hab | cases hab
  | handle kind i =>
    cases b with
    | handle kind' j =>
      cases kind with
      | function => exact .inl rfl
      | lambda => exact .inr rfl
      | _ => cases kind' <;> cases hab
    | _ => cases kind <;> cases hab
  | tuple items =>
    cases b with
    | tuple items' =>
      intro x hx
      obtain ⟨y,hy⟩ := zipAll_left hab x hx
      exact h x y hy
    | _ => cases hab
  | deque items maxlen =>
    cases b with
    | deque items' maxlen' =>
      intro x hx
      obtain ⟨y,hy⟩ := zipAll_left hab x hx
      exact h x y hy
    | _ => cases hab
  | slice start stop step =>
    cases b with
    | slice d e f =>
      rw [plainEqual,Bool.and_eq_true,Bool.and_eq_true] at hab
      exact ⟨h _ _ hab.1.1,h _ _ hab.1.2,h _ _ hab.2⟩
    | _ => cases hab
  | setlike kind i =>
    cases b with
    | setlike kind' j =>
      intro x hx
      obtain ⟨y,hy⟩ := allIn_left hab x hx
      exact h x y hy
    | _ => cases hab
  | other kind payload => cases b <;> cases hab
  | _ => trivial

theorem equal_left (depth : ℕ) : ∀ a b : Val P,valuesEqual trim S depth a b=true → SelfEqual S depth a := by
  induction depth with
  | zero => exact fun _ _ h => nomatch h
  | succ depth ih =>
    intro a b h
    rw [valuesEqual,equalStep.eq_def] at h
    split at h
    · trivial
    · trivial
    · rw [Bool.and_eq_true] at h
      exact SelfEqual.succ depth _ (ih _ _ h.2)
    · exact plainEqual_left ih a b h

theorem plainEqual_self {eq : Val P → Val P → Bool} {sub : Val P → Prop}
    (h : ∀ x,sub x → eq x x=true) (a : Val P) (hm : ∀ c m value kind,a≠.enumMember c m value kind)
    (ha : selfEqualStep S sub a) : plainEqual trim S eq a a=true := by
  cases a with
  | singleton s => exact beq_self_eq_true s
  | bool b => exact beq_self_eq_true b
  | int i => exact beq_self_eq_true i
  | float f => exact eq_self ha
  | string s => exact beq_self_eq_true s
  | bytes b => exact beq_self_eq_true b
  | byteArray i => rw [plainEqual,beq_self_eq_true,Bool.true_or]
  | sequence kind i => cases kind <;> rw [plainEqual,beq_self_eq_true,Bool.true_or]
  | tuple items => exact zipAll_self.mpr fun x hx => h x (ha x hx)
  | mapping kind i => cases kind <;> simp only [plainEqual,beq_self_eq_true,Bool.true_or]
  | setlike kind i => exact allIn_self fun x hx => h x (ha x hx)
  | handle kind i =>
    cases ha with
    | inl hk =>
      rw [hk]
      exact beq_self_eq_true i
    | inr hk =>
      rw [hk]
      exact beq_self_eq_true i
  | range start stop step =>
    simp only [plainEqual,rangesEqual,beq_self_eq_true,Bool.or_true,Bool.and_self]
  | slice start stop step =>
    rw [plainEqual,h _ ha.1,h _ ha.2.1,h _ ha.2.2]
    rfl
  | name kind text => rw [plainEqual,beq_self_eq_true,Bool.true_or]
  | instanceOf c i => simp only [plainEqual,beq_self_eq_true,Bool.true_or,Bool.and_self]
  | temporal kind ticks => simp only [plainEqual,beq_self_eq_true,Bool.and_self]
  | dateTime ticks tz => cases tz <;> exact beq_self_eq_true _
  | deque items maxlen => exact zipAll_self.mpr fun x hx => h x (ha x hx)
  | enumMember c m value kind => exact absurd rfl (hm c m value kind)
  | rePattern source => exact beq_self_eq_true source
  | other kind payload => exact ha.elim

theorem equal_self (depth : ℕ) : ∀ a : Val P,SelfEqual S depth a → valuesEqual trim S depth a a=true := by
  induction depth with
  | zero => exact fun _ h => h.elim
  | succ depth ih =>
    intro a ha
    by_cases hm : ∃ c m value kind,a=.enumMember c m value kind
    · obtain ⟨c,m,value,kind,rfl⟩ := hm
      simp only [valuesEqual,equalStep,beq_self_eq_true,Bool.and_self]
    · have hplain : ∀ c m value kind,a≠.enumMember c m value kind := fun c m value kind h =>
        hm ⟨c,m,value,kind,h⟩
      have hself : plainEqual trim S (valuesEqual trim S depth) a a=true :=
        plainEqual_self ih a hplain ha
      rw [valuesEqual,equalStep.eq_def]
      split
      · exact absurd rfl (hplain _ _ _ _)
      · exact absurd rfl (hplain _ _ _ _)
      · exact absurd rfl (hplain _ _ _ _)
      · exact hself

variable (trim S)

/-- The values that `is` finds identical to their own clones. -/
def Identical (v : Val P) : Prop := isReference v=true ∨ SelfEqual S eqRecursionLimit v

theorem valuesIs_self (v : Val P) : valuesIs trim S v v=true ↔ Identical S v := by
  have hself : valuesEqual trim S eqRecursionLimit v v=true ↔ SelfEqual S eqRecursionLimit v :=
    ⟨equal_left eqRecursionLimit v v,equal_self eqRecursionLimit v⟩
  by_cases href : isReference v=true
  · have htrue : valuesIs trim S v v=true := by
      cases v with
      | sequence kind i => cases kind <;> exact beq_self_eq_true i
      | instanceOf c i => exact beq_self_eq_true i
      | handle kind i => simp only [valuesIs,beq_self_eq_true,Bool.and_self]
      | setlike kind i => simp only [valuesIs,beq_self_eq_true,Bool.and_self]
      | mapping kind i => simp only [valuesIs,beq_self_eq_true,Bool.and_self]
      | byteArray i => exact beq_self_eq_true i
      | _ => cases href
    exact ⟨fun _ => .inl href,fun _ => htrue⟩
  · have hfall : valuesIs trim S v v=valuesEqual trim S eqRecursionLimit v v := by
      cases v with
      | sequence kind i => exact absurd rfl href
      | instanceOf c i => exact absurd rfl href
      | handle kind i => exact absurd rfl href
      | setlike kind i => exact absurd rfl href
      | mapping kind i => exact absurd rfl href
      | byteArray i => exact absurd rfl href
      | other kind payload => cases kind <;> rfl
      | _ => rfl
    rw [hfall,hself,Identical]
    exact ⟨.inr,fun h => h.resolve_left href⟩

end Identity
end InterpretThis
