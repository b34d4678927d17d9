import InterpretThis.Names.Refusal

namespace InterpretThis.Names

/-- The values that names resolve to by themselves, and all the others. -/
inductive Value (O : Type) where
  | toolName (name : String)
  | notImplemented
  | ellipsis
  | builtinName (name : String)
  | exceptionType (name : String)
  | module (name : String)
  | object (o : O)
deriving DecidableEq

/-- The builtins a bare name resolves to. -/
def builtinFunctions : List String :=
  ["print","len","range","str","int","float","complex","bool","type","isinstance","issubclass",
    "super","hasattr","getattr","setattr","delattr","vars","callable","abs","round","min","max",
    "sum","all","any","sorted","enumerate","zip","reversed","chr","ord","list","tuple","dict","set",
    "frozenset","iter","next","filter","map","repr","ascii","slice","memoryview","hash","id",
    "input","pow","divmod","format","object","bin","oct","hex","bytes","bytearray","__import__",
    "dir","property"]

/-- The names that host tools cannot take over. -/
def builtinNames : List String :=
  ["print","len","range","str","int","float","complex","bool","type","isinstance","issubclass",
    "super","hasattr","callable","abs","round","min","max","sum","all","any","sorted","enumerate",
    "zip","reversed","chr","ord","list","tuple","dict","set","iter","next","filter","map","repr",
    "hash","id","input","object","__import__","dir"]

def isBuiltinName (name : String) : Bool := builtinNames.contains name

/-- The names `try_builtin` has an arm for. -/
def calledBuiltins : List String :=
  ["print","len","range","str","int","float","complex","bool","type","__apply_wraps__",
    "__gen_contextmanager__","memoryview","slice","object","isinstance","super","issubclass",
    "getattr","vars","setattr","delattr","hasattr","callable","abs","round","min","max","sum","all",
    "any","sorted","enumerate","zip","reversed","chr","ord","list","tuple","dict","set","frozenset",
    "iter","bytes","bytearray","next","filter","map","repr","ascii","hash","dir","__import__","pow",
    "format","bin","oct","hex","divmod","id","input"]

def isExceptionTypeName (name : String) : Bool :=
  ["Exception","ValueError","TypeError","KeyError","IndexError","AttributeError","RuntimeError",
    "StopIteration","ZeroDivisionError","OverflowError","AssertionError","NotImplementedError",
    "FileNotFoundError","IOError","OSError","NameError","ArithmeticError","LookupError",
    "RecursionError","ExceptionGroup","BaseExceptionGroup","GeneratorExit","StopAsyncIteration",
    "KeyboardInterrupt","SystemExit","UnicodeError","UnicodeDecodeError","UnicodeEncodeError",
    "FloatingPointError","BufferError","ReferenceError","MemoryError","PermissionError",
    "NotADirectoryError","IsADirectoryError","FileExistsError","InterruptedError",
    "ConnectionError","ConnectionAbortedError","ConnectionRefusedError","ConnectionResetError",
    "ProcessLookupError","TimeoutError","BlockingIOError","ChildProcessError","BrokenPipeError",
    "IndentationError","TabError","SyntaxError","SystemError","EOFError","ModuleNotFoundError",
    "ImportError","UnboundLocalError","BaseException"].contains name

def isAutoImported (name : String) : Bool := ["json","re","datetime"].contains name

/-- The object of a name that is neither a variable nor a tool. -/
def predefined {O : Type} (name : String) : Option (Value O) :=
  if name="NotImplemented" then some .notImplemented
  else if name="Ellipsis" then some .ellipsis
  else if builtinFunctions.contains name then some (.builtinName name)
  else if isExceptionTypeName name then some (.exceptionType name)
  else if isAutoImported name then some (.module name)
  else none

def notDefined {E : Type} (name : String) : Failure E :=
  .nameError ("name '"++name++"' is not defined")

section Lookup

variable {O W E : Type} (tools : String → Bool)

def evalName (name : String) (s : ModuleState (Value O) W) : Except (Failure E) (Value O) := do
  validateName .access name
  match s.vars name with
  | some v => .ok v
  | none =>
    if tools name then .ok (.toolName name)
    else match predefined name with
      | some v => .ok v
      | none => .error (notDefined name)

/-- The object a call by name runs: a tool, a builtin, a variable, an exception type. -/
def callee (name : String) (s : ModuleState (Value O) W) : Except (Failure E) (Value O) :=
  if !isBuiltinName name&&tools name then .ok (.toolName name)
  else if calledBuiltins.contains name then .ok (.builtinName name)
  else match s.vars name with
    | some v => .ok v
    | none =>
      if isExceptionTypeName name then .ok (.exceptionType name) else .error (notDefined name)

/-- `name(args)`: the arguments are evaluated before the name is resolved. -/
def evalCallee (args : ModuleState (Value O) W → Except (Failure E) Unit×ModuleState (Value O) W)
    (name : String) (s : ModuleState (Value O) W) :
    Except (Failure E) (Value O)×ModuleState (Value O) W :=
  match args s with
  | (.error e,s') => (.error e,s')
  | (.ok _,s') => (callee tools name s',s')

def called (s : ModuleState (Value O) W) (name : String) : Option (Value O) :=
  (s.vars name).or (if isExceptionTypeName name then some (.exceptionType name) else none)

def denoted (s : ModuleState (Value O) W) (name : String) : Option (Value O) :=
  (s.vars name).or (predefined name)

/-- No variable hides a tool or a builtin of that name, and the arguments leave any other name with
the object it denoted before them. -/
def Undivided (name : String) (s s' : ModuleState (Value O) W) : Prop :=
  if !isBuiltinName name&&tools name then
    s.vars name=none ∨ s.vars name=some (.toolName name)
  else if calledBuiltins.contains name then
    (s.vars name=none ∧ tools name=false) ∨ s.vars name=some (.builtinName name)
  else called s' name=denoted s name

theorem builtinNames_called : ∀n∈builtinNames, calledBuiltins.contains n=true := by
  decide

theorem predefined_called : ∀n∈calledBuiltins,
    builtinFunctions.contains n=true ∨ predefined (O := O) n=none := by
  have h : ∀n∈calledBuiltins, builtinFunctions.contains n=true ∨
      (n≠"NotImplemented" ∧ n≠"Ellipsis" ∧ isExceptionTypeName n=false ∧
        isAutoImported n=false) := by decide
  intro n hn
  rcases h n hn with hb | ⟨h₁,h₂,h₃,h₄⟩
  · exact Or.inl hb
  · by_cases hb : builtinFunctions.contains n=true
    · exact Or.inl hb
    · right
      unfold predefined
      rw [if_neg h₁,if_neg h₂,if_neg hb,h₃,h₄]
      rfl

theorem predefined_builtin {n : String} (h : builtinFunctions.contains n=true) :
    predefined (O := O) n=some (.builtinName n) := by
  have hnames : "NotImplemented"∉builtinFunctions ∧ "Ellipsis"∉builtinFunctions := by decide
  have hmem : n∈builtinFunctions := List.contains_iff_mem.mp h
  have h₁ : n≠"NotImplemented" := fun he => hnames.1 (he ▸ hmem)
  have h₂ : n≠"Ellipsis" := fun he => hnames.2 (he ▸ hmem)
  unfold predefined
  rw [if_neg h₁,if_neg h₂,if_pos h]

variable {tools} {s : ModuleState (Value O) W}

theorem evalName_bound {name : String} {v w : Value O} (h : evalName (E := E) tools name s=.ok v)
    (hw : s.vars name=some w) : w=v := by
  unfold evalName at h
  rw [hw] at h
  cases hv : validateName (E := E) .access name with
  | error e =>
    rw [hv] at h
    cases h
  | ok u =>
    rw [hv] at h
    exact Except.ok.inj h

theorem evalName_free {name : String} {v : Value O} (h : evalName (E := E) tools name s=.ok v)
    (hw : s.vars name=none) :
    (tools name=true ∧ v=.toolName name) ∨ (tools name=false ∧ predefined name=some v) := by
  unfold evalName at h
  rw [hw] at h
  cases hv : validateName (E := E) .access name with
  | error e =>
    rw [hv] at h
    cases h
  | ok u =>
    rw [hv] at h
    change (if tools name then Except.ok (Value.toolName name)
      else match predefined name with
        | some v => .ok v
        | none => .error (notDefined name))=Except.ok v at h
    cases ht : tools name with
    | true =>
      rw [ht,if_pos rfl] at h
      exact Or.inl ⟨rfl,(Except.ok.inj h).symm⟩
    | false =>
      rw [ht] at h
      cases hp : predefined (O := O) name with
      | none =>
        rw [hp] at h
        cases h
      | some w =>
        rw [hp] at h
        exact Or.inr ⟨rfl,congrArg some (Except.ok.inj h)⟩

theorem callee_builtin {name : String} {v : Value O} (h : evalName (E := E) tools name s=.ok v)
    (hbuiltin : calledBuiltins.contains name=true) :
    (Except.ok (.builtinName name)=(Except.ok v : Except (Failure E) (Value O))) ↔
      (s.vars name=none ∧ tools name=false) ∨ s.vars name=some (.builtinName name) := by
  constructor
  · intro he
    have hv : v=.builtinName name := (Except.ok.inj he).symm
    cases hw : s.vars name with
    | none =>
      rcases evalName_free h hw with ⟨-,hv'⟩ | ⟨hf,-⟩
      · rw [hv] at hv'
        cases hv'
      · exact Or.inl ⟨rfl,hf⟩
    | some w =>
      right
      rw [evalName_bound h hw,hv]
  · rintro (⟨hw,hf⟩ | hw)
    · rcases evalName_free h hw with ⟨ht,-⟩ | ⟨-,hp⟩
      · rw [hf] at ht
        cases ht
      · rcases predefined_called (O := O) name (List.contains_iff_mem.mp hbuiltin) with hb | hn
        · have hv := (predefined_builtin hb).symm.trans hp
          rw [Option.some.inj hv]
        · rw [hn] at hp
          cases hp
    · rw [evalName_bound h hw]

theorem evalName_denoted {name : String} {v : Value O} (h : evalName (E := E) tools name s=.ok v)
    (hfree : tools name=false) : denoted s name=some v := by
  unfold denoted
  cases hw : s.vars name with
  | some w =>
    rw [evalName_bound h hw]
    rfl
  | none =>
    rcases evalName_free h hw with ⟨ht,-⟩ | ⟨-,hp⟩
    · rw [hfree] at ht
      cases ht
    · exact hp

theorem callee_iff {name : String} {s s' : ModuleState (Value O) W} {v : Value O}
    (h : evalName (E := E) tools name s=.ok v) :
    callee (E := E) tools name s'=.ok v ↔ Undivided tools name s s' := by
  unfold callee Undivided
  by_cases htool : (!isBuiltinName name&&tools name)=true
  · rw [if_pos htool,if_pos htool]
    have ht : tools name=true := by
      cases ht : tools name with
      | true => rfl
      | false => simp [ht] at htool
    constructor
    · intro he
      have hv : v=.toolName name := (Except.ok.inj he).symm
      cases hw : s.vars name with
      | none => exact Or.inl rfl
      | some w =>
        right
        rw [evalName_bound h hw,hv]
    · rintro (hw | hw)
      · rcases evalName_free h hw with ⟨-,hv⟩ | ⟨hf,-⟩
        · rw [hv]
        · rw [ht] at hf
          cases hf
      · rw [evalName_bound h hw]
  · rw [if_neg htool,if_neg htool]
    by_cases hbuiltin : calledBuiltins.contains name=true
    · rw [if_pos hbuiltin,if_pos hbuiltin]
      exact callee_builtin h hbuiltin
    · rw [if_neg hbuiltin,if_neg hbuiltin]
      have hfree : tools name=false := by
        cases ht : tools name with
        | false => rfl
        | true =>
          cases hb : isBuiltinName name with
          | false => exact absurd (by simp [ht,hb]) htool
          | true => exact absurd (builtinNames_called name (List.contains_iff_mem.mp hb)) hbuiltin
      rw [evalName_denoted h hfree]
      unfold called
      cases hw : s'.vars name with
      | some w =>
        constructor
        · intro he
          exact congrArg some (Except.ok.inj he)
        · intro he
          exact congrArg Except.ok (Option.some.inj he)
      | none =>
        cases hexc : isExceptionTypeName name with
        | true =>
          constructor
          · intro he
            exact congrArg some (Except.ok.inj he)
          · intro he
            exact congrArg Except.ok (Option.some.inj he)
        | false =>
          constructor
          · intro he
            cases he
          · intro he
            cases he

end Lookup

/-- A construct that would bind a guarded name is refused exactly when its own check refuses the
first name it binds, and a call runs the object the name reads as exactly when no variable hides a
tool or a builtin and the arguments do not rebind the name. -/
theorem guard_exact {P W E O : Type} (x : Externals P (Value O) W E) (tools : String → Bool) :
    (∀(b : Binder P (Value O) W E) (s : ModuleState (Value O) W) (g : String),
      Guarded tools g → g∈(b.runWith x unchecked).record s →
        (((b.run x tools).Refused s ∧
          (x.Quiet → b.Quiet → ((b.run x tools).after s).vars=s.vars)) ↔
            ∃n, b.names.head?=some n ∧ b.refuses tools n=true)) ∧
      (∀(name : String)
        (args : ModuleState (Value O) W → Except (Failure E) Unit×ModuleState (Value O) W)
        (s s' : ModuleState (Value O) W) (v : Value O),
        evalName (E := E) tools name s=.ok v → args s=(.ok (),s') →
          (evalCallee tools args name s=(.ok v,s') ↔ Undivided tools name s s')) := by
  constructor
  · intro b s g _ hg
    have hrefused := b.refused_iff tools hg
    constructor
    · rintro ⟨h,-⟩
      exact hrefused.mp h
    · intro h
      have hr := hrefused.mpr h
      exact ⟨hr,fun hx hb => b.keeps hx hb s hr.2⟩
  · intro name args s s' v hv hargs
    have hrun : evalCallee (E := E) tools args name s=(callee tools name s',s') := by
      unfold evalCallee
      rw [hargs]
    have hcallee : callee (E := E) tools name s'=.ok v ↔ Undivided tools name s s' := callee_iff hv
    rw [hrun,← hcallee]
    constructor
    · intro h
      exact congrArg Prod.fst h
    · intro h
      rw [h]

/-- Integers, with no user code behind them. -/
def plainModule : Externals Unit (Value Int) Unit Unit where
  valueSize _ := 8
  maxMemory := 1024
  iter _ s := (.error (.typeError "object is not iterable"),s)
  assignPlace _ _ s := (.ok (),s)
  sharedList vs := .object vs.length
  comprehensionItems _ := none
  module name := .module name
  abstractBase name := .exceptionType name
  classObject name := .exceptionType name
  moduleMember _ name := .ok (.builtinName name)
  classRegistered _ _ := true
  ensureRegistered _ s := (.ok (),s)

def freshModule : ModuleState (Value Int) Unit := ⟨fun _ => none,0,()⟩

def noTools : String → Bool := fun _ => false

def noArgs (s : ModuleState (Value Int) Unit) :
    Except (Failure Unit) Unit×ModuleState (Value Int) Unit := (.ok (),s)

theorem guard_exact_len :
    (((Binder.namedExpr "len" (.object 5)).run plainModule noTools).Refused freshModule ∧
      (plainModule.Quiet → True → (((Binder.namedExpr "len" (.object 5)).run plainModule
        noTools).after freshModule).vars=freshModule.vars) ↔
      ∃n, (Binder.namedExpr (P := Unit) (W := Unit) (E := Unit) "len"
        (Value.object (5 : Int))).names.head?=some n ∧
          (Binder.namedExpr (P := Unit) (W := Unit) (E := Unit) "len"
            (Value.object (5 : Int))).refuses noTools n=true) ∧
      (evalCallee noTools noArgs "len" freshModule=(.ok (.builtinName "len"),freshModule) ↔
        Undivided noTools "len" freshModule freshModule) :=
  ⟨(guard_exact plainModule noTools).1 (.namedExpr "len" (.object 5)) freshModule "len"
      (Or.inl (by decide)) (by decide),
    (guard_exact plainModule noTools).2 "len" noArgs freshModule freshModule (.builtinName "len")
      rfl rfl⟩

/-- A walrus on `len` binds the name: reading `len` gives the integer, calling it runs the builtin. -/
theorem namedExpr_shadows :
    (¬∀(b : Binder Unit (Value Int) Unit Unit) (s : ModuleState (Value Int) Unit) (g : String),
      Guarded noTools g → g∈(b.runWith plainModule unchecked).record s →
        (b.run plainModule noTools).Refused s) ∧
      ¬∀(name : String) (s : ModuleState (Value Int) Unit) (v : Value Int),
        evalName (E := Unit) noTools name s=.ok v →
          evalCallee noTools noArgs name s=(.ok v,s) := by
  constructor
  · intro h
    have hrefused := h (.namedExpr "len" (.object 5)) freshModule "len" (Or.inl (by decide))
      (by decide)
    have hwritten : ((Binder.namedExpr "len" (.object 5)).run plainModule noTools).record
        freshModule=["len"] := by decide
    rw [hrefused.2] at hwritten
    cases hwritten
  · intro h
    have hcall := h "len" (insertVariable "len" (.object 5) freshModule) (.object 5) rfl
    have hbuiltin : (evalCallee noTools noArgs "len"
        (insertVariable "len" (.object 5) freshModule)).1=.ok (.builtinName "len") := rfl
    rw [hcall] at hbuiltin
    cases hbuiltin

end InterpretThis.Names
