import InterpretThis.Value.Data

namespace InterpretThis

def valueSlotBytes : Nat := 80

def stringHeaderBytes : Nat := 24

def indexmapPerEntryBytes : Nat := 16

def bigintBytes (n : Int) : Nat := 16+(n.natAbs.size/8+8)

mutual

def estimateValueSize : Value → Nat
  | .none => 0
  | .notImplemented => 0
  | .ellipsis => 0
  | .bool _ => 1
  | .int _ => 8
  | .float _ => 8
  | .complex _ _ => 16
  | .bigInt n => bigintBytes n
  | .string s => stringHeaderBytes+s.utf8ByteSize
  | .bytes b => stringHeaderBytes+b.length
  | .byteArray b => stringHeaderBytes+b.length
  | .memoryView inner => 16+estimateValueSize inner
  | .list _ items => stringHeaderBytes+items.length*valueSlotBytes+estimateValues items
  | .tuple items => stringHeaderBytes+items.length*valueSlotBytes+estimateValues items
  | .set items => stringHeaderBytes+items.length*2*(valueSlotBytes+8)+estimateValues items
  | .frozenset items => stringHeaderBytes+items.length*2*(valueSlotBytes+8)+estimateValues items
  | .dict _ entries =>
    48+entries.length*(indexmapPerEntryBytes+valueSlotBytes)+estimateEntries entries
  | .orderedDict _ entries =>
    48+entries.length*(indexmapPerEntryBytes+valueSlotBytes)+estimateEntries entries
  | .function _ _ => 64
  | .lambda _ _ => 64
  | .lazyProxy => 64
  | .type n => 8+n.utf8ByteSize
  | .classRef n => 8+n.utf8ByteSize
  | .exceptionType n => 16+n.utf8ByteSize
  | .builtinName n => 16+n.utf8ByteSize
  | .instanceValue className _ fields => 16+className.utf8ByteSize+estimateFields fields
  | .date _ => 16
  | .dateTime _ _ => 24
  | .time _ => 12
  | .timeDelta _ => 8
  | .timeZone _ => 8
  | .enumMember className memberName value _ =>
    32+className.utf8ByteSize+memberName.utf8ByteSize+estimateValueSize value
  | .decimal _ => 48
  | .fraction _ => 48
  | .deque items _ => stringHeaderBytes+items.length*valueSlotBytes+estimateValues items

def estimateValues : List Value → Nat
  | [] => 0
  | v::vs => estimateValueSize v+estimateValues vs

def estimateEntries : List (ValueKey×Value) → Nat
  | [] => 0
  | (k,v)::es => estimateKeySize k+estimateValueSize v+estimateEntries es

def estimateFields : List (String×Value) → Nat
  | [] => 0
  | (k,v)::fs => k.utf8ByteSize+estimateValueSize v+estimateFields fs

def estimateKeySize : ValueKey → Nat
  | .none => 0
  | .ellipsis => 0
  | .bool _ => 1
  | .int _ => 8
  | .float _ => 8
  | .complex _ _ => 16
  | .bigInt n => bigintBytes n
  | .string s => s.utf8ByteSize
  | .tuple items => 24+estimateKeys items
  | .frozenset items => 24+estimateKeys items
  | .instanceKey _ value => 8+estimateValueSize value
  | .date _ => 8
  | .time _ => 8
  | .timeDelta _ => 8
  | .dateTime _ _ => 16
  | .decimal _ => 48
  | .fraction _ => 48

def estimateKeys : List ValueKey → Nat
  | [] => 0
  | k::ks => estimateKeySize k+estimateKeys ks

end

/-- `usize::MAX` on the supported targets. -/
def usizeMax : Nat := 2^64-1

def saturatingAdd (a b : Nat) : Nat := min (a+b) usizeMax

def saturatingSub (a b : Nat) : Nat := a-b

section Trees

/-- Expressions, with the node kinds that the modelled passes tell apart. -/
inductive Expr where
  | name (id : String)
  | attribute (value : Expr) (attr : String)
  | lambda (params : List String) (defaults : List Expr) (body : Expr)
  | other (kind : String) (children : List Expr)

/-- `exprs` holds the defaults, annotations and decorators of a definition, the bases,
keywords and decorators of a class, and the expressions of any other statement. -/
inductive Stmt where
  | functionDef (name : String) (params : List String) (exprs : List Expr) (body : List Stmt)
  | asyncFunctionDef (name : String) (params : List String) (exprs : List Expr) (body : List Stmt)
  | classDef (name : String) (exprs : List Expr) (body : List Stmt)
  | global (names : List String)
  | nonlocal (names : List String)
  | expr (value : Expr)
  | other (kind : String) (exprs : List Expr) (blocks : List Stmt)

end Trees

section Mangling

def isPrivateName (ident : String) : Bool :=
  ['_', '_'].isPrefixOf ident.toList&&!(['_', '_'].isPrefixOf ident.toList.reverse)

/-- `trim_start_matches('_')`. -/
def stripUnderscores (name : String) : String :=
  String.ofList (name.toList.dropWhile (fun c => c == '_'))

/-- The spelling of an identifier in the innermost class context; `none` is module scope. -/
def mangleIdent (context : Option String) (ident : String) : String :=
  match context with
  | none => ident
  | some cls => if cls=""||!isPrivateName ident then ident else "_"++cls++ident

mutual

def mangleExpr (context : Option String) : Expr → Expr
  | .name id => .name (mangleIdent context id)
  | .attribute value attr => .attribute (mangleExpr context value) (mangleIdent context attr)
  | .lambda params defaults body =>
    .lambda params (mangleExprs context defaults) (mangleExpr context body)
  | .other kind children => .other kind (mangleExprs context children)

def mangleExprs (context : Option String) : List Expr → List Expr
  | [] => []
  | e::es => mangleExpr context e::mangleExprs context es

end

mutual

-- A class's own name and header mangle in the enclosing context, its body under its name.
def mangleStmt (context : Option String) : Stmt → Stmt
  | .functionDef name params exprs body => .functionDef (mangleIdent context name) params
      (mangleExprs context exprs) (mangleStmts context body)
  | .asyncFunctionDef name params exprs body => .asyncFunctionDef (mangleIdent context name) params
      (mangleExprs context exprs) (mangleStmts context body)
  | .classDef name exprs body => .classDef (mangleIdent context name) (mangleExprs context exprs)
      (mangleStmts (some (stripUnderscores name)) body)
  | .global names => .global (names.map (mangleIdent context))
  | .nonlocal names => .nonlocal (names.map (mangleIdent context))
  | .expr value => .expr (mangleExpr context value)
  | .other kind exprs blocks => .other kind (mangleExprs context exprs) (mangleStmts context blocks)

def mangleStmts (context : Option String) : List Stmt → List Stmt
  | [] => []
  | s::ss => mangleStmt context s::mangleStmts context ss

end

def manglePrivateNames (suite : List Stmt) : List Stmt := mangleStmts none suite

end Mangling

section Parsing

def InterpreterError.display : InterpreterError → String
  | .syntaxError m => "SyntaxError: "++m
  | .security m => "SecurityError: "++m
  | .runtime m => "RuntimeError: "++m
  | .limitExceeded m => "LimitExceeded: "++m
  | .typeError m => "TypeError: "++m
  | .valueError m => "ValueError: "++m
  | .stateFormatSuperseded found expected =>
    "interpreter state format superseded: found version "++toString found++", expected "++
      toString expected++"; host must restart from initial step"

-- The grammar itself is the parser crate's; its errors carry the message of a syntax error.
variable (suiteParse : String → Except String (List Stmt))

def parse (code : String) : Except InterpreterError (List Stmt) :=
  match suiteParse code with
  | .error msg => .error (.syntaxError msg)
  | .ok suite => .ok (manglePrivateNames suite)

end Parsing

end InterpretThis
