import Mathlib.Data.List.Basic

namespace InterpretThis.Exceptions

/-- The hard-coded exception tree: the names that have the same immediate base. -/
def builtinParents : List (List String×String) :=
  [(["ZeroDivisionError","OverflowError","FloatingPointError"],"ArithmeticError"),
   (["KeyError","IndexError"],"LookupError"),
   (["FileNotFoundError","PermissionError","TimeoutError","IOError","BlockingIOError",
     "ChildProcessError","FileExistsError","InterruptedError","IsADirectoryError",
     "NotADirectoryError","ProcessLookupError","ConnectionError"],"OSError"),
   (["BrokenPipeError","ConnectionAbortedError","ConnectionRefusedError",
     "ConnectionResetError"],"ConnectionError"),
   (["ModuleNotFoundError"],"ImportError"),
   (["ImportError"],"Exception"),
   (["IndentationError","TabError"],"SyntaxError"),
   (["SyntaxError"],"Exception"),
   (["UnicodeDecodeError","UnicodeEncodeError","UnicodeTranslateError"],"UnicodeError"),
   (["UnicodeError"],"ValueError"),
   (["statistics.StatisticsError","json.decoder.JSONDecodeError"],"ValueError"),
   (["re.error"],"Exception"),
   (["NotImplementedError","RecursionError"],"RuntimeError"),
   (["AssertionError","AttributeError","NameError","TypeError","ValueError","RuntimeError",
     "OSError","LookupError","ArithmeticError","StopIteration","ExceptionGroup"],"Exception"),
   (["BaseExceptionGroup"],"BaseException"),
   (["Exception"],"BaseException")]

def builtinExceptionParent (name : String) : Option String :=
  (builtinParents.find? fun g => name ∈ g.1).map Prod.snd

/-- The walk up the tree: `fuel` names are looked at. -/
def climbs (parent : String) : Nat → String → Bool
  | 0,_ => false
  | fuel+1,cur =>
    if cur=parent then true
    else match builtinExceptionParent cur with
      | some p => climbs parent fuel p
      | none => false

def builtinExceptionIssubclass (excName parent : String) : Bool := climbs parent 16 excName

/-- The registered classes: each has an MRO that starts with the class itself. -/
structure Registry where
  mro : String → Option (List String)
  own : ∀c m, mro c=some m → c ∈ m

namespace Registry

variable (reg : Registry)

def registered (name : String) : Bool := (reg.mro name).isSome

def matchesUserException (excName handlerName : String) : Bool :=
  match reg.mro excName with
  | none => false
  | some m => m.any fun base => base=handlerName||builtinExceptionIssubclass base handlerName

/-- `except T`. -/
def matchesExceptionType (excName typeName : String) : Bool :=
  if typeName="Exception"||typeName="BaseException" then true
  else if excName=typeName then true
  else if builtinExceptionIssubclass excName typeName then true
  else reg.matchesUserException excName typeName

end Registry

def bareName (name : String) : List Char :=
  (name.toList.reverse.takeWhile fun c => c≠ '.').reverse

def collectionsAbcs : List String :=
  ["Hashable","Iterable","Iterator","Reversible","Generator","Sized","Container","Callable",
   "Collection","Sequence","MutableSequence","ByteString","Set","MutableSet","Mapping",
   "MutableMapping","MappingView","KeysView","ItemsView","ValuesView"]

def isCollectionsAbc (name : String) : Bool := collectionsAbcs.any fun a => bareName name=a.toList

/-- `value_matches_abc` of an exception: it has none of the methods and is registered nowhere, but
it is hashable. -/
def valueMatchesAbc (abc : String) : Option Bool :=
  if isCollectionsAbc abc then some (bareName abc="Hashable".toList) else none

/-- `isinstance(e, T)` of an exception, the type name of which as a value is `Exception`. -/
def Registry.checkIsinstance (reg : Registry) (excName typeName : String) : Bool :=
  if typeName="object" then true
  else match valueMatchesAbc typeName with
    | some matched => matched
    | none =>
      if typeName="type" then false
      else typeName="Exception"||
        ((match reg.mro excName with
          | some m => m.contains typeName
          | none => false)||builtinExceptionIssubclass excName typeName)

/-- `case T():` with an exception as the subject. The class of the exception plays no part. -/
def subjectIsInstanceOf (typeName : String) : Bool := typeName="object"||typeName="Exception"

/-- The test of `split` and `subgroup` on a leaf. -/
def leafMatches (excName typeName : String) : Bool :=
  excName=typeName||builtinExceptionIssubclass excName typeName

section Reference

/-- Python's immediate bases of the builtin exceptions. `IOError` is a class of its own here. -/
def builtinBases : List (List String×List String) :=
  [(["Exception","GeneratorExit","KeyboardInterrupt","SystemExit","BaseExceptionGroup"],
     ["BaseException"]),
   (["ExceptionGroup"],["BaseExceptionGroup","Exception"]),
   (["ArithmeticError","AssertionError","AttributeError","BufferError","EOFError","ImportError",
     "LookupError","MemoryError","NameError","OSError","ReferenceError","RuntimeError",
     "StopAsyncIteration","StopIteration","SyntaxError","SystemError","TypeError","ValueError",
     "re.error","struct.error"],["Exception"]),
   (["FloatingPointError","OverflowError","ZeroDivisionError","DecimalException"],
     ["ArithmeticError"]),
   (["FrozenInstanceError"],["AttributeError"]),
   (["InvalidOperation","Clamped","Inexact","Rounded","Subnormal"],["DecimalException"]),
   (["DivisionByZero"],["DecimalException","ZeroDivisionError"]),
   (["Overflow"],["Inexact","Rounded"]),
   (["Underflow"],["Inexact","Rounded","Subnormal"]),
   (["FloatOperation"],["DecimalException","TypeError"]),
   (["ModuleNotFoundError"],["ImportError"]),
   (["IndexError","KeyError"],["LookupError"]),
   (["UnboundLocalError"],["NameError"]),
   (["IOError","BlockingIOError","ChildProcessError","ConnectionError","FileExistsError",
     "FileNotFoundError","InterruptedError","IsADirectoryError","NotADirectoryError",
     "PermissionError","ProcessLookupError","TimeoutError"],["OSError"]),
   (["BrokenPipeError","ConnectionAbortedError","ConnectionRefusedError",
     "ConnectionResetError"],["ConnectionError"]),
   (["NotImplementedError","RecursionError"],["RuntimeError"]),
   (["IndentationError"],["SyntaxError"]),
   (["TabError"],["IndentationError"]),
   (["UnicodeError","statistics.StatisticsError","json.decoder.JSONDecodeError"],["ValueError"]),
   (["UnicodeDecodeError","UnicodeEncodeError","UnicodeTranslateError"],["UnicodeError"])]

def basesOf (name : String) : List String :=
  ((builtinBases.find? fun g => name ∈ g.1).map Prod.snd).getD []

/-- A class and its ancestors, up to `depth` bases away. -/
def ancestors : Nat → String → List String
  | 0,name => [name]
  | depth+1,name => name::(basesOf name).flatMap (ancestors depth)

def builtinMro (name : String) : List String := ancestors 6 name

theorem self_mem_builtinMro (name : String) : name ∈ builtinMro name := List.mem_cons_self

namespace Registry

variable (reg : Registry)

def mroOf (excName : String) : List String := (reg.mro excName).getD [excName]

def fullMro (excName : String) : List String :=
  (reg.mroOf excName).flatMap fun b => if reg.registered b then [b] else builtinMro b

def isSubclass (excName typeName : String) : Bool := decide (typeName ∈ reg.fullMro excName)

end Registry

end Reference

section Agreement

theorem builtinMro_of_parent : ∀g ∈ builtinParents, ∀n ∈ g.1, builtinMro g.2 ⊆ builtinMro n := by
  decide

theorem mem_builtinMro_of_climbs {parent : String} {fuel : Nat} {cur : String}
    (h : climbs parent fuel cur=true) : parent ∈ builtinMro cur := by
  induction fuel generalizing cur with
  | zero => cases h
  | succ fuel ih =>
    unfold climbs at h
    split at h
    · rename_i he
      rw [he]
      exact self_mem_builtinMro parent
    · cases hp : builtinExceptionParent cur with
      | none =>
        rw [hp] at h
        cases h
      | some p =>
        rw [hp] at h
        obtain ⟨g,hg,rfl⟩ := Option.map_eq_some_iff.mp hp
        have hmem : cur ∈ g.1 := by simpa using List.find?_some hg
        exact builtinMro_of_parent g (List.mem_of_find?_eq_some hg) cur hmem (ih h)

theorem issubclass_self (name : String) : builtinExceptionIssubclass name name=true := by
  simp [builtinExceptionIssubclass,climbs]

variable {reg : Registry} {excName typeName : String}

theorem self_mem_mroOf : excName ∈ reg.mroOf excName := by
  unfold Registry.mroOf
  cases h : reg.mro excName with
  | none => exact List.mem_singleton_self excName
  | some m => exact reg.own excName m h

theorem isSubclass_of_mem (h : typeName ∈ reg.mroOf excName) :
    reg.isSubclass excName typeName=true := by
  refine decide_eq_true (List.mem_flatMap.mpr ⟨typeName,h,?_⟩)
  split
  · exact List.mem_singleton_self typeName
  · exact self_mem_builtinMro typeName

theorem isSubclass_of_issubclass {base : String} (hm : base ∈ reg.mroOf excName)
    (hr : reg.registered base=false) (h : builtinExceptionIssubclass base typeName=true) :
    reg.isSubclass excName typeName=true := by
  refine decide_eq_true (List.mem_flatMap.mpr ⟨base,hm,?_⟩)
  rw [hr]
  exact mem_builtinMro_of_climbs h

/-- What `except T` looks at, apart from its two shortcuts. -/
theorem matchesExceptionType_iff (h₁ : typeName≠"Exception") (h₂ : typeName≠"BaseException") :
    reg.matchesExceptionType excName typeName=true ↔
      ∃base ∈ reg.mroOf excName, builtinExceptionIssubclass base typeName=true := by
  unfold Registry.matchesExceptionType Registry.matchesUserException Registry.mroOf
  have hself : ∀base, (base=typeName ∨ builtinExceptionIssubclass base typeName=true) ↔
      builtinExceptionIssubclass base typeName=true := by
    intro base
    refine ⟨?_,Or.inr⟩
    rintro (rfl | h)
    · exact issubclass_self base
    · exact h
  cases hm : reg.mro excName with
  | none =>
    have := hself excName
    simp [h₁,h₂,this]
  | some m =>
    have hown := reg.own excName m hm
    have := hself excName
    simp only [h₁,h₂,decide_false,Bool.or_self,Bool.false_eq_true,if_false,Option.getD_some]
    split_ifs with he hs
    · exact ⟨fun _ => ⟨excName,hown,(hself excName).mp (.inl he)⟩,fun _ => rfl⟩
    · exact ⟨fun _ => ⟨excName,hown,hs⟩,fun _ => rfl⟩
    · simp [hself]

theorem eq_of_climbs {parent : String} (hp : ∀g ∈ builtinParents, g.2≠parent) {fuel : Nat}
    {cur : String} (h : climbs parent fuel cur=true) : cur=parent := by
  induction fuel generalizing cur with
  | zero => cases h
  | succ fuel ih =>
    unfold climbs at h
    split at h
    · assumption
    · cases hc : builtinExceptionParent cur with
      | none =>
        rw [hc] at h
        cases h
      | some p =>
        rw [hc] at h
        obtain ⟨g,hg,rfl⟩ := Option.map_eq_some_iff.mp hc
        exact absurd (ih h) (hp g (List.mem_of_find?_eq_some hg))

theorem leafMatches_eq : leafMatches excName typeName=builtinExceptionIssubclass excName typeName := by
  unfold leafMatches
  by_cases h : excName=typeName
  · subst h
    simp [issubclass_self]
  · simp [h]

/-- No class on the MRO has the name of a builtin exception that the tree puts under `T`. -/
def Unshadowed (reg : Registry) (excName typeName : String) : Prop :=
  ∀base ∈ reg.mroOf excName, reg.registered base=true →
    builtinExceptionIssubclass base typeName=false

theorem issubclass_false_of_unshadowed (hs : reg.isSubclass excName typeName=false)
    (hu : Unshadowed reg excName typeName) {base : String} (hb : base ∈ reg.mroOf excName) :
    builtinExceptionIssubclass base typeName=false := by
  cases hr : reg.registered base with
  | true => exact hu base hb hr
  | false =>
    rw [Bool.eq_false_iff]
    intro h
    have := isSubclass_of_issubclass hb hr h
    rw [hs] at this
    cases this

theorem checkIsinstance_false (ho : typeName≠"object") (he : typeName≠"Exception")
    (hh : bareName typeName≠"Hashable".toList) (hs : reg.isSubclass excName typeName=false)
    (hi : builtinExceptionIssubclass excName typeName=false) :
    reg.checkIsinstance excName typeName=false := by
  have hmem : typeName ∉ reg.mroOf excName := fun h => by
    rw [isSubclass_of_mem h] at hs
    cases hs
  unfold Registry.checkIsinstance valueMatchesAbc
  rw [if_neg ho]
  cases isCollectionsAbc typeName with
  | true => exact decide_eq_false hh
  | false =>
    unfold Registry.mroOf at hmem
    cases hm : reg.mro excName with
    | none => simp [he,hi]
    | some m =>
      rw [hm] at hmem
      simpa [he,hi] using fun _ => hmem

/-- All four tests give the answer of the subclass relation. -/
def TestsAgree (reg : Registry) (excName typeName : String) : Prop :=
  reg.matchesExceptionType excName typeName=reg.isSubclass excName typeName ∧
  reg.checkIsinstance excName typeName=reg.isSubclass excName typeName ∧
  subjectIsInstanceOf typeName=reg.isSubclass excName typeName ∧
  leafMatches excName typeName=reg.isSubclass excName typeName

theorem testsAgree_exception : TestsAgree reg excName "Exception" ↔
    builtinExceptionIssubclass excName "Exception"=true ∧
      reg.isSubclass excName "Exception"=true := by
  have hm : reg.matchesExceptionType excName "Exception"=true := by
    simp [Registry.matchesExceptionType]
  have hc : reg.checkIsinstance excName "Exception"=true := by
    simp [Registry.checkIsinstance,show valueMatchesAbc "Exception"=none from by decide]
  have hsub : subjectIsInstanceOf "Exception"=true := by decide
  unfold TestsAgree
  rw [hm,hc,hsub,leafMatches_eq]
  constructor
  · rintro ⟨h,_,_,hl⟩
    exact ⟨hl.trans h.symm,h.symm⟩
  · rintro ⟨hl,h⟩
    exact ⟨h.symm,h.symm,h.symm,hl.trans h.symm⟩

theorem testsAgree_object : TestsAgree reg excName "object" ↔ excName="object" := by
  constructor
  · rintro ⟨_,_,hsub,hl⟩
    have ht : subjectIsInstanceOf "object"=true := by decide
    rw [← hsub,ht,leafMatches_eq] at hl
    exact eq_of_climbs (by decide) hl
  · rintro rfl
    have hs : reg.isSubclass "object" "object"=true := isSubclass_of_mem self_mem_mroOf
    unfold TestsAgree
    rw [hs,leafMatches_eq,issubclass_self]
    simp [Registry.matchesExceptionType,Registry.checkIsinstance,subjectIsInstanceOf]

/-- Any other class: the class pattern fails, so the others have to. -/
theorem testsAgree_other (ho : typeName≠"object") (he : typeName≠"Exception") :
    TestsAgree reg excName typeName ↔ typeName≠"BaseException" ∧
      bareName typeName≠"Hashable".toList ∧ reg.isSubclass excName typeName=false ∧
      Unshadowed reg excName typeName := by
  have hsub : subjectIsInstanceOf typeName=false := by simp [subjectIsInstanceOf,ho,he]
  constructor
  · rintro ⟨hm,hc,hs,_⟩
    rw [hsub] at hs
    rw [← hs] at hm hc
    have hb : typeName≠"BaseException" := by
      rintro rfl
      simp [Registry.matchesExceptionType] at hm
    refine ⟨hb,?_,hs.symm,?_⟩
    · intro hh
      have habc : isCollectionsAbc typeName=true :=
        List.any_eq_true.mpr ⟨"Hashable",by decide,decide_eq_true hh⟩
      simp [Registry.checkIsinstance,valueMatchesAbc,ho,habc,hh] at hc
    · intro base hmem _
      rw [Bool.eq_false_iff]
      intro hi
      rw [(matchesExceptionType_iff he hb).mpr ⟨base,hmem,hi⟩] at hm
      cases hm
  · rintro ⟨hb,hh,hs,hu⟩
    have hi : ∀base ∈ reg.mroOf excName, builtinExceptionIssubclass base typeName=false :=
      fun base => issubclass_false_of_unshadowed hs hu
    unfold TestsAgree
    rw [hs]
    refine ⟨?_,?_,hsub,?_⟩
    · rw [Bool.eq_false_iff]
      intro h
      obtain ⟨base,hmem,hbase⟩ := (matchesExceptionType_iff he hb).mp h
      rw [hi base hmem] at hbase
      cases hbase
    · exact checkIsinstance_false ho he hh hs (hi excName self_mem_mroOf)
    · rw [leafMatches_eq]
      exact hi excName self_mem_mroOf

/-- When all tests on exceptions give the answer of the subclass relation. -/
theorem type_tests_agree_iff (reg : Registry) (excName typeName : String) :
    TestsAgree reg excName typeName ↔
      typeName="Exception" ∧ builtinExceptionIssubclass excName "Exception"=true ∧
        reg.isSubclass excName "Exception"=true ∨
      typeName="object" ∧ excName="object" ∨
      typeName ∉ ["Exception","object","BaseException"] ∧
        bareName typeName≠"Hashable".toList ∧ reg.isSubclass excName typeName=false ∧
        Unshadowed reg excName typeName := by
  by_cases he : typeName="Exception"
  · subst he
    simp [testsAgree_exception]
  · by_cases ho : typeName="object"
    · subst ho
      simp [testsAgree_object]
    · rw [testsAgree_other ho he]
      simp [he,ho]

/-- `class MyError(ValueError)`. -/
def oneClass : Registry where
  mro c := if c="MyError" then some ["MyError","ValueError"] else none
  own c m h := by
    split at h
    · rename_i hc
      cases h
      simp [hc]
    · cases h

/-- An instance of a subclass of `ValueError` is caught as one, but the class pattern does not match
and `split` does not select it; a `GeneratorExit` is caught as an `Exception`. -/
theorem tests_disagree : oneClass.isSubclass "MyError" "ValueError"=true ∧
    oneClass.matchesExceptionType "MyError" "ValueError"=true ∧
    oneClass.checkIsinstance "MyError" "ValueError"=true ∧
    subjectIsInstanceOf "ValueError"=false ∧ leafMatches "MyError" "ValueError"=false ∧
    oneClass.isSubclass "GeneratorExit" "Exception"=false ∧
    oneClass.matchesExceptionType "GeneratorExit" "Exception"=true ∧
    oneClass.checkIsinstance "GeneratorExit" "Exception"=true := by
  decide

end Agreement

end InterpretThis.Exceptions
