import InterpretThis.State.Memory

namespace InterpretThis

namespace FunctionDef

def name : FunctionDef → String
  | mk name _ _ _ _ _ _ => name

def source : FunctionDef → String
  | mk _ _ source _ _ _ _ => source

end FunctionDef

namespace LambdaDef

def lambdaId : LambdaDef → String
  | mk lambdaId _ _ _ => lambdaId

def source : LambdaDef → String
  | mk _ source _ _ => source

end LambdaDef

structure PropertyDef where
  getter : FunctionDef
  setter : Option FunctionDef
  deleter : Option FunctionDef

structure DataclassField where
  name : String
  default : Option Value
  defaultFactory : Option Value

/-- The parts of a class that hold values or callables. -/
structure ClassValue where
  name : String
  methods : List (String×FunctionDef)
  classAttrs : List (String×Value)
  properties : List (String×PropertyDef)
  staticMethods : List (String×FunctionDef)
  classMethods : List (String×FunctionDef)
  dataclassFields : Option (List DataclassField)

/-- A map keyed by strings, as its entries in iteration order. -/
def mapInsert {β : Type} (k : String) (v : β) : List (String×β) → List (String×β)
  | [] => [(k,v)]
  | (k',v')::m => if k'=k then (k,v)::m else (k',v')::mapInsert k v m

-- `vars` are the `variables` of the source, a word that is taken here.
structure InterpreterState where
  vars : List (String×Value)
  classes : List (String×ClassValue)
  functionBodies : List (String×List Stmt)
  lambdaBodies : List (String×Expr)
  memoryUsedBytes : Nat
  maxMemoryBytes : Nat
  nextCursorId : Nat

/-- The payload of an exported blob. -/
structure SerializedState where
  vars : List (String×Value)
  classes : List (String×ClassValue)

/-- The iteration order of a hash map collected from a sequence of entries. -/
structure HashOrder where
  collect : List (String×Value) → List (String×Value)
  perm : ∀l, (collect l).Perm l

def stateFormatVersion : Nat := 16

def versionPrefixSize : Nat := 4

def maxImportSize : Nat := 16*1024*1024

def dangerousNames : List String :=
  ["eval","exec","compile","__import__","globals","locals","dir","open","file","os","sys",
    "subprocess","shutil"]

def isNameAllowed (name : String) : Bool := !dangerousNames.contains name

/-- A little-endian `u32`. -/
def u32FromLe (b : List UInt8) : Nat := b.foldr (fun x acc => x.toNat+256*acc) 0

section Validation

variable (suiteParse : String → Except String (List Stmt))

/-- The first statement must be a plain function definition with the expected names. -/
def restoredFunction (name : String) (func : FunctionDef) :
    Except InterpreterError (String×List Stmt) :=
  match parse suiteParse func.source with
  | .error e => .error (.runtime ("failed to re-parse function '"++name++"': "++e.display))
  | .ok [] => .error (.security ("imported function '"++name++
      "' source contains 0 statements (expected 1)"))
  | .ok [.functionDef declared _ _ body] =>
    if declared≠name then .error (.security ("imported function source declares '"++declared++
      "' but key is '"++name++"'"))
    else if func.name≠name then .error (.security ("imported function '"++name++
      "' carries a mismatched inner name '"++func.name++"'"))
    else .ok (name,body)
  | .ok [_] => .error (.security ("imported function '"++name++
      "' source is not a function definition"))
  | .ok (s::t::rest) => .error (.security ("imported function '"++name++
      "' source contains "++toString (s::t::rest).length++" statements (expected 1)"))

/-- Functions held directly by a variable; other values are passed over. -/
def restoredBodies : List (String×Value) → Except InterpreterError (List (String×List Stmt))
  | [] => .ok []
  | (name,.function _ func)::vars => do
    let body ← restoredFunction suiteParse name func
    let bodies ← restoredBodies vars
    return body::bodies
  | _::vars => restoredBodies vars

def restoredMethod (method : FunctionDef) : Except InterpreterError (String×List Stmt) :=
  match parse suiteParse method.source with
  | .error e => .error (.runtime ("failed to re-parse method '"++method.name++"': "++e.display))
  | .ok (.functionDef _ _ _ body::_) => .ok (method.name,body)
  | .ok _ => .error (.security ("imported method '"++method.name++
      "' source is not a function definition"))

def restoredMethods : List (String×FunctionDef) → Except InterpreterError (List (String×List Stmt))
  | [] => .ok []
  | (_,method)::ms => do
    let body ← restoredMethod suiteParse method
    let bodies ← restoredMethods ms
    return body::bodies

def restoredMethodBodies :
    List (String×ClassValue) → Except InterpreterError (List (String×List Stmt))
  | [] => .ok []
  | (_,cls)::cs => do
    let own ← restoredMethods suiteParse cls.methods
    let rest ← restoredMethodBodies cs
    return own++rest

def restoredLambda (l : LambdaDef) : Except InterpreterError (String×Expr) :=
  match parse suiteParse l.source with
  | .error e => .error (.runtime ("failed to re-parse lambda '"++l.lambdaId++"': "++e.display))
  | .ok (.expr (.lambda _ _ body)::_) => .ok (l.lambdaId,body)
  | .ok (.expr _::_) => .error (.security ("imported lambda '"++l.lambdaId++
      "' source does not parse as a lambda"))
  | .ok _ => .error (.security ("imported lambda '"++l.lambdaId++
      "' source is not an expression statement"))

end Validation

section Import

variable (decode : List UInt8 → Except String SerializedState)
  (suiteParse : String → Except String (List Stmt)) (order : HashOrder)

/-- What `import_state` has computed when it starts to write. -/
structure Plan where
  vars : List (String×Value)
  classes : List (String×ClassValue)
  bodies : List (String×List Stmt)

def dangerousName (vars : List (String×Value)) : Option String :=
  (vars.map Prod.fst).find? (fun k => !isNameAllowed k)

/-- Every check that precedes the first write. -/
def validate (data : List UInt8) : Except InterpreterError Plan :=
  if maxImportSize<data.length then
    .error (.limitExceeded ("serialized state ("++toString data.length++
      " bytes) exceeds import limit ("++toString maxImportSize++" bytes)"))
  else if data.length<versionPrefixSize then
    .error (.stateFormatSuperseded 0 stateFormatVersion)
  else if u32FromLe (data.take versionPrefixSize)≠stateFormatVersion then
    .error (.stateFormatSuperseded (u32FromLe (data.take versionPrefixSize)) stateFormatVersion)
  else
    match decode (data.drop versionPrefixSize) with
    | .error e => .error (.runtime ("failed to deserialize state: "++e))
    | .ok serialized =>
      match dangerousName serialized.vars with
      | some key => .error (.security ("imported state contains dangerous variable name '"++key++"'"))
      | none => do
        let bodies ← restoredBodies suiteParse serialized.vars
        let methods ← restoredMethodBodies suiteParse serialized.classes
        return ⟨serialized.vars,serialized.classes,bodies++methods⟩

def insertAll {β : Type} (m : List (String×β)) (entries : List (String×β)) : List (String×β) :=
  entries.foldl (fun m e => mapInsert e.1 e.2 m) m

/-- Variables, classes and function bodies of the blob; no lambda body is left. -/
def commit (plan : Plan) (s : InterpreterState) : InterpreterState :=
  {s with
    vars := order.collect plan.vars
    classes := plan.classes
    functionBodies := insertAll [] plan.bodies
    lambdaBodies := []}

/-- The re-parse of the restored lambdas, which writes each body as it goes. -/
def restoreLambdas : List (String×Value) → InterpreterState →
    Except InterpreterError Unit×InterpreterState
  | [],s => (.ok (),s)
  | (_,.lambda _ l)::vars,s =>
    match restoredLambda suiteParse l with
    | .error e => (.error e,s)
    | .ok (key,body) => restoreLambdas vars {s with lambdaBodies := mapInsert key body s.lambdaBodies}
  | _::vars,s => restoreLambdas vars s

def totalSize (vars : List (String×Value)) : Nat :=
  vars.foldl (fun acc e => saturatingAdd acc (estimateValueSize e.2)) 0

theorem totalSize_eq (vars : List (String×Value)) :
    totalSize vars=min (vars.map (fun e => estimateValueSize e.2)).sum usizeMax := by
  have step : ∀acc, vars.foldl (fun acc e => saturatingAdd acc (estimateValueSize e.2))
      (min acc usizeMax)=min (acc+(vars.map (fun e => estimateValueSize e.2)).sum) usizeMax := by
    induction vars with
    | nil =>
      intro acc
      simp
    | cons e vars ih =>
      intro acc
      have hs : saturatingAdd (min acc usizeMax) (estimateValueSize e.2)=
          min (acc+estimateValueSize e.2) usizeMax := by
        unfold saturatingAdd
        omega
      rw [List.foldl_cons,hs,ih,List.map_cons,List.sum_cons,Nat.add_assoc]
  have h := step 0
  rw [Nat.zero_min,Nat.zero_add] at h
  exact h

def checkMemory (s : InterpreterState) : Except InterpreterError Unit :=
  if min s.maxMemoryBytes usizeMax<s.memoryUsedBytes then
    .error (.limitExceeded ("memory usage ("++toString s.memoryUsedBytes++
      " bytes) exceeds limit ("++toString s.maxMemoryBytes++" bytes)"))
  else .ok ()

/-- The part of `import_state` from the first write on. -/
def restore (plan : Plan) (s : InterpreterState) : Except InterpreterError Unit×InterpreterState :=
  let committed := commit order plan s
  match restoreLambdas suiteParse committed.vars committed with
  | (.error e,s') => (.error e,s')
  | (.ok (),s') =>
    let counted := {s' with memoryUsedBytes := totalSize s'.vars}
    (checkMemory counted,counted)

def importState (s : InterpreterState) (data : List UInt8) :
    Except InterpreterError Unit×InterpreterState :=
  match validate decode suiteParse data with
  | .error e => (.error e,s)
  | .ok plan => restore suiteParse order plan s

end Import

section Spec

/-- Two states agree on what `import_state` writes. -/
structure SameState (s s' : InterpreterState) : Prop where
  vars : ∀k, s.vars.lookup k=s'.vars.lookup k
  classes : ∀k, s.classes.lookup k=s'.classes.lookup k
  functionBodies : ∀k, s.functionBodies.lookup k=s'.functionBodies.lookup k
  lambdaBodies : ∀k, s.lambdaBodies.lookup k=s'.lambdaBodies.lookup k
  memory : s.memoryUsedBytes=s'.memoryUsedBytes

theorem SameState.refl (s : InterpreterState) : SameState s s :=
  ⟨fun _ => rfl,fun _ => rfl,fun _ => rfl,fun _ => rfl,rfl⟩

variable (decode : List UInt8 → Except String SerializedState)
  (suiteParse : String → Except String (List Stmt)) (order : HashOrder)

/-- A failed import leaves the interpreter untouched. -/
def AtomicOnFailure (s : InterpreterState) (data : List UInt8) : Prop :=
  ∀e, (importState decode suiteParse order s data).1=.error e →
    SameState s (importState decode suiteParse order s data).2

/-- The bodies of the lambdas before the first one that does not re-parse. -/
def parsedLambdas : List (String×Value) → List (String×Expr)
  | [] => []
  | (_,.lambda _ l)::vars =>
    match restoredLambda suiteParse l with
    | .error _ => []
    | .ok r => r::parsedLambdas vars
  | _::vars => parsedLambdas vars

/-- Every lambda bound to a variable re-parses as a lambda. -/
def LambdasParse (vars : List (String×Value)) : Prop :=
  ∀e∈vars, ∀addr l, e.2=.lambda addr l → ∃r, restoredLambda suiteParse l=.ok r

def Fits (vars : List (String×Value)) (maxMemoryBytes : Nat) : Prop :=
  totalSize vars ≤ min maxMemoryBytes usizeMax

/-- The state already holds what the blob would write before it fails. -/
structure AlreadyRestored (plan : Plan) (s : InterpreterState) : Prop where
  vars : ∀k, s.vars.lookup k=(order.collect plan.vars).lookup k
  classes : ∀k, s.classes.lookup k=plan.classes.lookup k
  functionBodies : ∀k, s.functionBodies.lookup k=(insertAll [] plan.bodies).lookup k
  lambdaBodies : ∀k, s.lambdaBodies.lookup k=
    (insertAll [] (parsedLambdas suiteParse (order.collect plan.vars))).lookup k
  memory : LambdasParse suiteParse plan.vars → s.memoryUsedBytes=totalSize plan.vars

/-- The blob is rejected before the first write, or everything that is checked after it
passes, or the write changes nothing. -/
def Spared (s : InterpreterState) (data : List UInt8) : Prop :=
  ∀plan, validate decode suiteParse data=.ok plan →
    (LambdasParse suiteParse plan.vars ∧ Fits plan.vars s.maxMemoryBytes) ∨
      AlreadyRestored suiteParse order plan s

end Spec

section Lambdas

variable (suiteParse : String → Except String (List Stmt))

theorem lambdasParse_cons (e : String×Value) (vars : List (String×Value)) :
    LambdasParse suiteParse (e::vars) ↔
      (∀addr l, e.2=.lambda addr l → ∃r, restoredLambda suiteParse l=.ok r) ∧
        LambdasParse suiteParse vars := by
  unfold LambdasParse
  rw [List.forall_mem_cons]

theorem lambdasParse_perm {vars vars' : List (String×Value)} (h : vars.Perm vars') :
    LambdasParse suiteParse vars ↔ LambdasParse suiteParse vars' := by
  unfold LambdasParse
  simp only [h.mem_iff]

/-- The loop writes the bodies it parsed and fails at the first lambda that does not parse. -/
theorem restoreLambdas_spec (vars : List (String×Value)) (s : InterpreterState) :
    ∃r, restoreLambdas suiteParse vars s=
        (r,{s with lambdaBodies := insertAll s.lambdaBodies (parsedLambdas suiteParse vars)}) ∧
      (r=.ok () ↔ LambdasParse suiteParse vars) := by
  induction vars generalizing s with
  | nil => exact ⟨.ok (),rfl,fun _ e he => (by cases he),fun _ => rfl⟩
  | cons e vars ih =>
    obtain ⟨name,v⟩ := e
    by_cases hv : ∃addr l, v=.lambda addr l
    · obtain ⟨addr,l,rfl⟩ := hv
      cases hl : restoredLambda suiteParse l with
      | error err =>
        refine ⟨.error err,?_,?_⟩
        · simp only [restoreLambdas,parsedLambdas,hl,insertAll,List.foldl_nil]
        · rw [lambdasParse_cons]
          constructor
          · intro h
            cases h
          · intro h
            obtain ⟨r,hr⟩ := h.1 addr l rfl
            rw [hl] at hr
            cases hr
      | ok body =>
        obtain ⟨r,hr,hiff⟩ := ih {s with lambdaBodies := mapInsert body.1 body.2 s.lambdaBodies}
        refine ⟨r,?_,?_⟩
        · simp only [restoreLambdas,parsedLambdas,hl]
          exact hr
        · rw [hiff,lambdasParse_cons]
          refine ⟨fun h => ⟨?_,h⟩,fun h => h.2⟩
          intro addr' l' he
          cases he
          exact ⟨body,hl⟩
    · obtain ⟨r,hr,hiff⟩ := ih s
      have hskip : restoreLambdas suiteParse ((name,v)::vars) s=restoreLambdas suiteParse vars s := by
        cases v <;> first | rfl | exact absurd ⟨_,_,rfl⟩ hv
      have hparsed : parsedLambdas suiteParse ((name,v)::vars)=parsedLambdas suiteParse vars := by
        cases v <;> first | rfl | exact absurd ⟨_,_,rfl⟩ hv
      refine ⟨r,?_,?_⟩
      · rw [hskip,hparsed]
        exact hr
      · rw [hiff,lambdasParse_cons]
        refine ⟨fun h => ⟨?_,h⟩,fun h => h.2⟩
        intro addr l he
        exact absurd ⟨addr,l,he⟩ hv

end Lambdas

section Memory

theorem totalSize_perm {vars vars' : List (String×Value)} (h : vars.Perm vars') :
    totalSize vars=totalSize vars' := by
  rw [totalSize_eq,totalSize_eq,(h.map _).sum_eq]

end Memory

section Atomicity

variable (decode : List UInt8 → Except String SerializedState)
  (suiteParse : String → Except String (List Stmt)) (order : HashOrder)

/-- What `restore` leaves behind, and when it fails. -/
theorem restore_spec (plan : Plan) (s : InterpreterState) :
    ∃r s', restore suiteParse order plan s=(r,s') ∧
      s'.vars=order.collect plan.vars ∧ s'.classes=plan.classes ∧
      s'.functionBodies=insertAll [] plan.bodies ∧
      s'.lambdaBodies=insertAll [] (parsedLambdas suiteParse (order.collect plan.vars)) ∧
      (LambdasParse suiteParse plan.vars → s'.memoryUsedBytes=totalSize plan.vars) ∧
      (¬LambdasParse suiteParse plan.vars → s'.memoryUsedBytes=s.memoryUsedBytes) ∧
      (r=.ok () ↔ LambdasParse suiteParse plan.vars ∧ Fits plan.vars s.maxMemoryBytes) := by
  obtain ⟨r,hr,hiff⟩ := restoreLambdas_spec suiteParse (commit order plan s).vars (commit order plan s)
  have hperm := order.perm plan.vars
  have hparse := lambdasParse_perm suiteParse hperm
  have hsize := totalSize_perm hperm
  unfold restore
  simp only [hr]
  cases r with
  | error e =>
    have hno : ¬LambdasParse suiteParse plan.vars := by
      intro h
      cases hiff.mpr (hparse.mpr h)
    exact ⟨.error e,_,rfl,rfl,rfl,rfl,rfl,fun h => absurd h hno,fun _ => rfl,
      fun h => (by cases h),fun h => absurd h.1 hno⟩
  | ok u =>
    have hyes : LambdasParse suiteParse plan.vars := hparse.mp (hiff.mp rfl)
    refine ⟨_,_,rfl,rfl,rfl,rfl,rfl,fun _ => hsize,fun h => absurd hyes h,?_⟩
    unfold checkMemory Fits
    rw [← hsize]
    split
    · rename_i hgt
      exact ⟨fun h => (by cases h),fun h => absurd h.2 (not_le.mpr hgt)⟩
    · rename_i hle
      exact ⟨fun _ => ⟨hyes,not_lt.mp hle⟩,fun _ => rfl⟩

/-- An import is atomic on failure exactly when the blob is rejected before the first write,
passes the checks made after it, or writes what is already there. -/
theorem import_atomic_iff (s : InterpreterState) (data : List UInt8) :
    AtomicOnFailure decode suiteParse order s data ↔ Spared decode suiteParse order s data := by
  unfold AtomicOnFailure Spared importState
  cases hv : validate decode suiteParse data with
  | error err =>
    constructor
    · intro _ plan hp
      cases hp
    · intro _ e _
      exact SameState.refl s
  | ok plan =>
    obtain ⟨r,s',hr,hvars,hclasses,hbodies,hlambdas,hmem,hkeep,hok⟩ :=
      restore_spec suiteParse order plan s
    simp only [hr]
    constructor
    · intro h plan' hp
      cases hp
      cases hres : r with
      | ok u => exact .inl (hok.mp hres)
      | error e =>
        have same := h e hres
        refine .inr ⟨?_,?_,?_,?_,?_⟩
        · intro k
          rw [same.vars k,hvars]
        · intro k
          rw [same.classes k,hclasses]
        · intro k
          rw [same.functionBodies k,hbodies]
        · intro k
          rw [same.lambdaBodies k,hlambdas]
        · intro hl
          rw [same.memory,hmem hl]
    · intro h e he
      cases h plan rfl with
      | inl hfine =>
        rw [hok.mpr hfine] at he
        cases he
      | inr already =>
        refine ⟨?_,?_,?_,?_,?_⟩
        · intro k
          rw [already.vars k,hvars]
        · intro k
          rw [already.classes k,hclasses]
        · intro k
          rw [already.functionBodies k,hbodies]
        · intro k
          rw [already.lambdaBodies k,hlambdas]
        · by_cases hl : LambdasParse suiteParse plan.vars
          · rw [already.memory hl,hmem hl]
          · rw [hkeep hl]

def unordered : HashOrder := ⟨id,fun l => List.Perm.refl l⟩

def unclosedParse (code : String) : Except String (List Stmt) :=
  if code="(" then .error "unexpected EOF" else .ok []

/-- The decoded form of a blob with one lambda, whose source is malformed. -/
def brokenLambda (_ : List UInt8) : Except String SerializedState :=
  .ok ⟨[("f",.lambda 0 (.mk "__lambda_0" "(" [] []))],[]⟩

def holdingX : InterpreterState := ⟨[("x",.int 1)],[],[],[],8,1024,0⟩

/-- A blob whose lambda does not re-parse replaces the variables and then fails. -/
theorem broken_lambda_clears_variables :
    ¬AtomicOnFailure brokenLambda unclosedParse unordered holdingX [16,0,0,0] := by
  intro h
  have hsame := h (.runtime "failed to re-parse lambda '__lambda_0': SyntaxError: unexpected EOF") rfl
  have hx := hsame.vars "x"
  change some (Value.int 1)=none at hx
  cases hx

end Atomicity

end InterpretThis
