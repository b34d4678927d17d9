import Mathlib.Data.List.Basic
import Mathlib.Order.MinMax
import Mathlib.Tactic.SplitIfs

namespace InterpretThis.Lexical

/-- How a string literal is read: its quote, whether three of them delimit it, and the prefix. -/
structure Literal where
  quote : Char
  triple : Bool
  format : Bool
  raw : Bool

/-- An open bracket token: one that waits for its closer, or the brace of a replacement field,
opened in the text or in a format specifier of the literal. -/
inductive Frame where
  | bracket (closer : Char)
  | field (lit : Literal) (inSpec : Bool)

/-- What the reader is in the middle of. -/
inductive Mode where
  -- code, right after the characters of one word
  | code (word : List Char)
  -- after a backslash in code
  | continued
  | comment
  -- after the first quote of a literal, or the second
  | opening (lit : Literal) (second : Bool)
  -- the text of a literal, after `run` quotes that may be closing ones
  | text (lit : Literal) (run : Nat)
  | escape (lit : Literal) (inSpec : Bool)
  -- after `\N` and inside `\N{...}`
  | named (lit : Literal)
  | name (lit : Literal)
  -- before the second of two braces that stand for one
  | doubled (lit : Literal)
  | spec (lit : Literal)
  -- no token follows
  | failed

def isOpener (c : Char) : Bool := c == '(' || c == '[' || c == '{'

def isCloser (c : Char) : Bool := c == ')' || c == ']' || c == '}'

def closerOf (c : Char) : Char :=
  if c = '(' then ')' else if c = '[' then ']' else '}'

def isQuote (c : Char) : Bool := c == '\'' || c == '"'

def isWordChar (c : Char) : Bool := c.isAlphanum||c == '_' || decide (128 ≤ c.toNat)

/-- The literal that a quote opens right after `word`. -/
def literalAfter (word : List Char) (quote : Char) : Literal :=
  let letters := word.map Char.toLower
  ⟨quote,false,letters==['f']||letters==['f','r']||letters==['r','f'],letters.contains 'r'⟩

def resume (lit : Literal) (inSpec : Bool) : Mode := if inSpec then .spec lit else .text lit 0

def closeBracket (stack : List Frame) (c : Char) : List Frame×Mode :=
  match stack with
  | .bracket closer::rest => if c=closer then (rest,.code []) else (stack,.failed)
  | .field lit inSpec::rest => if c = '}' then (rest,resume lit inSpec) else (stack,.failed)
  | [] => (stack,.failed)

/-- A colon directly in a replacement field starts its format specifier. -/
def colon (stack : List Frame) : Mode :=
  match stack with
  | .field lit _::_ => .spec lit
  | _ => .code []

def codeStep (stack : List Frame) (word : List Char) (c : Char) : List Frame×Mode :=
  if isQuote c then (stack,.opening (literalAfter word c) false)
  else if isOpener c then (.bracket (closerOf c)::stack,.code [])
  else if isCloser c then closeBracket stack c
  else if c = '#' then (stack,.comment)
  else if c = '\\' then (stack,.continued)
  else if c = ':' then (stack,colon stack)
  else (stack,.code (if isWordChar c then word++[c] else []))

def textStep (stack : List Frame) (lit : Literal) (run : Nat) (c : Char) (next : Option Char) :
    List Frame×Mode :=
  if c=lit.quote then
    if !lit.triple||run==2 then (stack,.code []) else (stack,.text lit (run+1))
  else if c = '\\' then (stack,.escape lit false)
  else if c = '\n' && !lit.triple then (stack,.failed)
  else if lit.format && c = '{' then
    if next=some '{' then (stack,.doubled lit) else (.field lit false::stack,.code [])
  else if lit.format && c = '}' then
    if next=some '}' then (stack,.doubled lit) else (stack,.failed)
  else (stack,.text lit 0)

def specStep (stack : List Frame) (lit : Literal) (c : Char) : List Frame×Mode :=
  if c = '{' then (.field lit true::stack,.code [])
  else if c = '}' then closeBracket stack c
  else if (c=lit.quote || c = '\n') && !lit.triple then (stack,.failed)
  else if c = '\\' then (stack,.escape lit true)
  else (stack,.spec lit)

/-- One character, with line ends already translated. A backslash does not hide the brace of a
replacement field. -/
def modeStep (stack : List Frame) (mode : Mode) (c : Char) (next : Option Char) :
    List Frame×Mode :=
  match mode with
  | .code word => codeStep stack word c
  | .continued => (stack,if c = '\n' then .code [] else .failed)
  | .comment => (stack,if c = '\n' then .code [] else .comment)
  | .opening lit false => if c=lit.quote then (stack,.opening lit true) else textStep stack lit 0 c next
  | .opening lit true =>
    if c=lit.quote then (stack,.text {lit with triple := true} 0) else codeStep stack [] c
  | .text lit run => textStep stack lit run c next
  | .escape lit true => if c = '{' || c = '}' then specStep stack lit c else (stack,.spec lit)
  | .escape lit false =>
    if lit.format && (c = '{' || c = '}') then textStep stack lit 0 c next
    else if lit.format&& !lit.raw && c = 'N' then (stack,.named lit)
    else (stack,.text lit 0)
  | .named lit => if c = '{' then (stack,.name lit) else textStep stack lit 0 c next
  | .name lit =>
    if c = '}' then (stack,.text lit 0)
    else if c=lit.quote || c = '\n' || c = '{' then textStep stack lit 0 c next
    else (stack,.name lit)
  | .doubled lit => (stack,.text lit 0)
  | .spec lit => specStep stack lit c
  | .failed => (stack,.failed)

/-- The lexical state; `cr` says that the last character was a carriage return. -/
structure Reader where
  stack : List Frame
  mode : Mode
  cr : Bool

def start : Reader := ⟨[],.code [],false⟩

namespace Reader

/-- The text is no Python from here on. -/
def fails (r : Reader) : Bool :=
  match r.mode with
  | .failed => true
  | _ => false

/-- Code is read here. -/
def codes (r : Reader) : Prop := ∃word, r.mode=.code word

/-- A carriage return ends a line, alone or with the line feed after it. -/
def step (r : Reader) (c : Char) (next : Option Char) : Reader :=
  if r.cr && c = '\n' then {r with cr := false}
  else
    let (stack,mode) := modeStep r.stack r.mode (if c = '\r' then '\n' else c) next
    ⟨stack,mode,c == '\r'⟩

/-- The most brackets open at once from here on. -/
def deepest (r : Reader) : List Char → Nat
  | [] => r.stack.length
  | c::cs => max r.stack.length ((r.step c cs.head?).deepest cs)

/-- The state after some text, when `next` follows it. -/
def readAll (r : Reader) (next : Option Char) : List Char → Reader
  | [] => r
  | c::cs => (r.step c (cs.head?.or next)).readAll next cs

end Reader

/-- The nesting depth of the bracket tokens of a source text. -/
def nestingDepth (code : String) : Nat := start.deepest code.toList

end InterpretThis.Lexical

namespace InterpretThis

open Lexical

/-- The locals of `bracket_depth_exceeds`. -/
structure Scan where
  depth : Nat
  inString : Option Char
  escaped : Bool
  inComment : Bool

namespace Scan

def start : Scan := ⟨0,none,false,false⟩

def reads (s : Scan) : Bool := !s.inComment&&s.inString.isNone

/-- The loop body, the early return apart. -/
def step (s : Scan) (ch : Char) : Scan :=
  if s.inComment then if ch = '\n' then {s with inComment := false} else s
  else match s.inString with
  | some quote =>
    if s.escaped then {s with escaped := false}
    else if ch = '\\' then {s with escaped := true}
    else if ch=quote then {s with inString := none}
    else s
  | none =>
    if ch = '\'' || ch = '"' then {s with inString := some ch}
    else if ch = '#' then {s with inComment := true}
    else if ch = '(' || ch = '[' || ch = '{' then {s with depth := s.depth+1}
    else if ch = ')' || ch = ']' || ch = '}' then {s with depth := s.depth-1}
    else s

/-- The loop; it returns at the first opening bracket past the limit. -/
def exceeds (limit : Nat) (s : Scan) : List Char → Bool
  | [] => false
  | ch::rest =>
    if s.depth<(s.step ch).depth ∧ limit<(s.step ch).depth then true
    else (s.step ch).exceeds limit rest

def scanAll (s : Scan) : List Char → Scan
  | [] => s
  | ch::rest => (s.step ch).scanAll rest

end Scan

def bracketDepthExceeds (code : String) (limit : Nat) : Bool := Scan.start.exceeds limit code.toList

section Heights

theorem closeBracket_height (stack : List Frame) (c : Char) :
    (closeBracket stack c).1=stack ∨ (closeBracket stack c).1.length+1=stack.length := by
  cases stack with
  | nil => exact .inl rfl
  | cons f rest =>
    cases f with
    | bracket closer =>
      by_cases h : c=closer
      · exact .inr (by simp [closeBracket,h])
      · exact .inl (by simp [closeBracket,h])
    | field lit inSpec =>
      by_cases h : c = '}'
      · exact .inr (by simp [closeBracket,h])
      · exact .inl (by simp [closeBracket,h])

/-- What one character can do to the open brackets. -/
inductive Move (c : Char) (before : List Frame) (after : List Frame×Mode) : Prop
  | stay (h : after.1.length=before.length)
  | push (hc : isOpener c=true) (h : after.1.length=before.length+1) (hm : after.2=.code [])
  | pop (hc : isCloser c=true) (h : after.1.length+1=before.length)

theorem move_close (stack : List Frame) (c : Char) (hc : isCloser c=true) :
    Move c stack (closeBracket stack c) := by
  obtain h|h := closeBracket_height stack c
  · exact .stay (by rw [h])
  · exact .pop hc h

theorem move_code (stack : List Frame) (word : List Char) (c : Char) :
    Move c stack (codeStep stack word c) := by
  simp only [codeStep]
  split_ifs with hquote hopen hclose
  · exact .stay rfl
  · exact .push hopen rfl rfl
  · exact move_close stack c hclose
  all_goals exact .stay rfl

theorem move_text (stack : List Frame) (lit : Literal) (run : Nat) (c : Char)
    (next : Option Char) : Move c stack (textStep stack lit run c next) := by
  simp only [textStep]
  split_ifs with hquote hend hescape hline hopen hdouble
  -- the sixth case opens a replacement field
  · exact .stay rfl
  · exact .stay rfl
  · exact .stay rfl
  · exact .stay rfl
  · exact .stay rfl
  · have hc : c = '{' := by simpa using (Bool.and_eq_true_iff.mp hopen).2
    exact .push (by rw [hc]; rfl) rfl rfl
  all_goals exact .stay rfl

theorem move_spec (stack : List Frame) (lit : Literal) (c : Char) :
    Move c stack (specStep stack lit c) := by
  simp only [specStep]
  split_ifs with hopen hclose
  · exact .push (by rw [hopen]; rfl) rfl rfl
  · exact move_close stack c (by rw [hclose]; rfl)
  all_goals exact .stay rfl

theorem move_mode (stack : List Frame) (mode : Mode) (c : Char) (next : Option Char) :
    Move c stack (modeStep stack mode c next) := by
  cases mode with
  | code word => exact move_code stack word c
  | text lit run => exact move_text stack lit run c next
  | spec lit => exact move_spec stack lit c
  | opening lit second =>
    cases second with
    | false =>
      simp only [modeStep]
      split_ifs
      · exact .stay rfl
      · exact move_text stack lit 0 c next
    | true =>
      simp only [modeStep]
      split_ifs
      · exact .stay rfl
      · exact move_code stack [] c
  | escape lit inSpec =>
    cases inSpec with
    | false =>
      simp only [modeStep]
      split_ifs
      · exact move_text stack lit 0 c next
      all_goals exact .stay rfl
    | true =>
      simp only [modeStep]
      split_ifs
      · exact move_spec stack lit c
      · exact .stay rfl
  | named lit =>
    simp only [modeStep]
    split_ifs
    · exact .stay rfl
    · exact move_text stack lit 0 c next
  | name lit =>
    simp only [modeStep]
    split_ifs
    · exact .stay rfl
    · exact move_text stack lit 0 c next
    · exact .stay rfl
  | _ => exact .stay rfl

theorem move_step (r : Reader) (c : Char) (next : Option Char) :
    Move c r.stack ((r.step c next).stack,(r.step c next).mode) := by
  simp only [Reader.step]
  split_ifs with hcr hret
  · exact .stay rfl
  · have h := move_mode r.stack r.mode '\n' next
    cases h with
    | stay h => exact .stay h
    | push hc => cases hc
    | pop hc => cases hc
  · exact move_mode r.stack r.mode c next

end Heights

section Soundness

/-- The scanner skips a bracket that opens, or counts as closed one that does not close. -/
def Misread (s : Scan) (r : Reader) (c : Char) (next : Option Char) : Prop :=
  (s.reads=false ∧ r.stack.length<(r.step c next).stack.length) ∨
  (s.reads=true ∧ isCloser c=true ∧ ¬(r.step c next).stack.length < r.stack.length)

/-- No step of the scan misreads a bracket, as far as the text is Python. -/
def InStep (s : Scan) (r : Reader) : List Char → Prop
  | [] => True
  | c::cs => (r.step c cs.head?).fails=true ∨
    ¬Misread s r c cs.head? ∧ InStep (s.step c) (r.step c cs.head?) cs

instance (s : Scan) (r : Reader) (c : Char) (next : Option Char) : Decidable (Misread s r c next) :=
  inferInstanceAs (Decidable (_ ∨ _))

instance inStepDecidable : ∀(cs : List Char) (s : Scan) (r : Reader), Decidable (InStep s r cs)
  | [],_,_ => isTrue trivial
  | c::cs,s,r =>
    have := inStepDecidable cs (s.step c) (r.step c cs.head?)
    inferInstanceAs (Decidable (_ ∨ _))

namespace Scan

theorem step_skips (s : Scan) (c : Char) (h : s.reads=false) : (s.step c).depth=s.depth := by
  simp only [reads] at h
  simp only [step]
  cases hc : s.inComment with
  | true =>
    simp only [if_true]
    split_ifs <;> rfl
  | false =>
    cases hs : s.inString with
    | none => simp [hc,hs] at h
    | some quote =>
      simp only [Bool.false_eq_true,if_false]
      split_ifs <;> rfl

theorem step_opener (s : Scan) (c : Char) (h : s.reads=true) (hc : isOpener c=true) :
    (s.step c).depth=s.depth+1 := by
  simp only [reads,Bool.and_eq_true,Bool.not_eq_true',Option.isNone_iff_eq_none] at h
  simp only [isOpener,Bool.or_eq_true,beq_iff_eq] at hc
  obtain (rfl|rfl)|rfl := hc <;> simp [step,h.1,h.2]

theorem step_closer (s : Scan) (c : Char) (h : s.reads=true) (hc : isCloser c=true) :
    (s.step c).depth=s.depth-1 := by
  simp only [reads,Bool.and_eq_true,Bool.not_eq_true',Option.isNone_iff_eq_none] at h
  simp only [isCloser,Bool.or_eq_true,beq_iff_eq] at hc
  obtain (rfl|rfl)|rfl := hc <;> simp [step,h.1,h.2]

theorem step_rises (s : Scan) (c : Char) (h : ¬(s.reads=true ∧ isCloser c=true)) :
    s.depth≤(s.step c).depth := by
  cases hr : s.reads with
  | false => exact (s.step_skips c hr).ge
  | true =>
    have hclose : isCloser c=false := by simpa [hr] using h
    simp only [reads,Bool.and_eq_true,Bool.not_eq_true',Option.isNone_iff_eq_none] at hr
    simp only [isCloser,Bool.or_eq_false_iff,beq_eq_false_iff_ne,ne_eq] at hclose
    simp only [step,hr.1,hr.2,Bool.false_eq_true,if_false]
    split_ifs <;> simp_all

end Scan

/-- The step of the simulation: brackets open for Python stay at most those the scan counts. -/
theorem step_covers (s : Scan) (r : Reader) (c : Char) (next : Option Char)
    (hread : ¬Misread s r c next) (h : r.stack.length ≤ s.depth) :
    (r.step c next).stack.length≤(s.step c).depth := by
  simp only [Misread,not_or,not_and,not_not] at hread
  obtain ⟨hopen,hclose⟩ := hread
  cases move_step r c next with
  | stay hl =>
    dsimp only at hl
    have hkept : ¬(s.reads=true ∧ isCloser c=true) := by
      rintro ⟨hr,hc⟩
      have hlt := hclose hr hc
      omega
    have hrise := s.step_rises c hkept
    omega
  | push hc hl hm =>
    dsimp only at hl
    have hr : s.reads=true := by
      by_contra hr
      exact hopen (by simpa using hr) (by omega)
    have hd := s.step_opener c hr hc
    omega
  | pop hc hl =>
    dsimp only at hl
    cases hr : s.reads with
    | true =>
      have hd := s.step_closer c hr hc
      omega
    | false =>
      have hd := s.step_skips c hr
      omega

/-- The step at which the text stops being Python opens no bracket. -/
theorem fails_stack {r : Reader} {c : Char} {next : Option Char} (h : (r.step c next).fails=true) :
    (r.step c next).stack.length≤r.stack.length := by
  cases move_step r c next with
  | stay hl => exact hl.le
  | push _ _ hm =>
    dsimp only at hm
    rw [Reader.fails,hm] at h
    cases h
  | pop _ hl => exact Nat.le_of_succ_le hl.le

theorem fails_step {r : Reader} (h : r.fails=true) (c : Char) (next : Option Char) :
    (r.step c next).fails=true ∧ (r.step c next).stack=r.stack := by
  obtain ⟨stack,mode,cr⟩ := r
  cases mode <;> first | (cases h; done) | skip
  simp only [Reader.step]
  split_ifs <;> exact ⟨rfl,rfl⟩

/-- No bracket opens once the text is no Python. -/
theorem deepest_failed (cs : List Char) (r : Reader) (h : r.fails=true) :
    r.deepest cs=r.stack.length := by
  induction cs generalizing r with
  | nil => rfl
  | cons c cs ih =>
    obtain ⟨hf,hs⟩ := fails_step h c cs.head?
    rw [Reader.deepest,ih _ hf,hs,max_self]

theorem deepest_covered (limit : Nat) (cs : List Char) (s : Scan) (r : Reader)
    (hstep : InStep s r cs) (hlimit : s.depth≤limit) (h : r.stack.length ≤ s.depth)
    (hno : s.exceeds limit cs=false) : r.deepest cs≤limit := by
  induction cs generalizing s r with
  | nil => exact h.trans hlimit
  | cons c cs ih =>
    simp only [Scan.exceeds] at hno
    split_ifs at hno with hover
    rw [Reader.deepest]
    refine max_le (h.trans hlimit) ?_
    obtain hfail|⟨hread,hrest⟩ := hstep
    · rw [deepest_failed cs _ hfail]
      exact (fails_stack hfail).trans (h.trans hlimit)
    · have hnext : (s.step c).depth≤limit := by omega
      exact ih (s.step c) (r.step c cs.head?) hrest hnext (step_covers s r c _ hread h) hno

end Soundness

section Exploits

namespace Scan

/-- The scan leaves a string only at a quote, and never in the middle of brackets. -/
def Quoted (s : Scan) : Prop := ∀q, s.inString=some q → isQuote q=true

theorem quoted_step (s : Scan) (c : Char) (h : s.Quoted) : (s.step c).Quoted := by
  intro q hq
  simp only [step] at hq
  cases hc : s.inComment with
  | true =>
    simp only [hc,if_true] at hq
    split_ifs at hq <;> exact h q hq
  | false =>
    cases hs : s.inString with
    | some quote =>
      simp only [hc,hs,Bool.false_eq_true,if_false] at hq
      split_ifs at hq <;> first | exact h q (hs.trans hq) | exact h q hq
    | none =>
      simp only [hc,hs,Bool.false_eq_true,if_false] at hq
      split_ifs at hq with hquote
      · cases hq
        simpa [isQuote] using hquote
      all_goals rw [hs] at hq; cases hq

theorem quoted_scanAll (cs : List Char) (s : Scan) (h : s.Quoted) : (s.scanAll cs).Quoted := by
  induction cs generalizing s with
  | nil => exact h
  | cons c cs ih => exact ih (s.step c) (quoted_step s c h)

theorem reads_paren (s : Scan) (h : s.Quoted) (hr : s.reads=false) : (s.step '(').reads=false := by
  simp only [reads] at hr ⊢
  simp only [step]
  cases hc : s.inComment with
  | true => simp [hc]
  | false =>
    cases hs : s.inString with
    | none => simp [hc,hs] at hr
    | some quote =>
      have hq : isQuote quote=true := h quote hs
      have hne : '('≠quote := by
        rintro rfl
        cases hq
      cases he : s.escaped <;> simp [hs,hne]

theorem exceeds_skipped (limit k : Nat) (s : Scan) (h : s.Quoted) (hr : s.reads=false) :
    s.exceeds limit (List.replicate k '(')=false := by
  induction k generalizing s with
  | zero => rfl
  | succ k ih =>
    have hd := s.step_skips '(' hr
    simp only [List.replicate_succ,exceeds,hd]
    rw [if_neg (by omega)]
    exact ih _ (quoted_step s '(' h) (s.reads_paren h hr)

theorem exceeds_append (limit : Nat) (p q : List Char) (s : Scan) (hp : s.exceeds limit p=false)
    (hq : (s.scanAll p).exceeds limit q=false) : s.exceeds limit (p++q)=false := by
  induction p generalizing s with
  | nil => exact hq
  | cons c p ih =>
    simp only [exceeds] at hp
    split_ifs at hp with hover
    simp only [List.cons_append,exceeds]
    rw [if_neg hover]
    exact ih (s.step c) hp hq

end Scan

theorem codes_paren (r : Reader) (next : Option Char) (h : r.codes) :
    (r.step '(' next).stack.length=r.stack.length+1 ∧ Reader.codes (r.step '(' next) := by
  obtain ⟨word,hw⟩ := h
  simp [Reader.step,hw,modeStep,codeStep,isQuote,isOpener,Reader.codes]

theorem deepest_parens (k : Nat) (r : Reader) (h : r.codes) :
    r.stack.length+k ≤ r.deepest (List.replicate k '(') := by
  induction k generalizing r with
  | zero => exact le_rfl
  | succ k ih =>
    obtain ⟨hl,hc⟩ := codes_paren r (List.replicate k '(').head? h
    have hlater := ih _ hc
    simp only [List.replicate_succ,Reader.deepest]
    exact le_max_of_le_right (by omega)

theorem deepest_append (p q : List Char) (r : Reader) :
    (r.readAll q.head? p).deepest q ≤ r.deepest (p++q) := by
  induction p generalizing r with
  | nil => exact le_rfl
  | cons c p ih =>
    have hnext : (p++q).head?=p.head?.or q.head? := List.head?_append
    simp only [List.cons_append,Reader.deepest,hnext]
    exact le_max_of_le_right (ih _)

end Exploits

section Claim

/-- A scan that misreads no bracket finds every nesting past the limit; and where the scan
skips code at the end of a text, some continuation goes past the limit unseen. -/
theorem nesting_guard_in_step (code : String) (limit : Nat) :
    (InStep Scan.start Lexical.start code.toList → bracketDepthExceeds code limit=false →
      nestingDepth code≤limit) ∧
    (bracketDepthExceeds code limit=false → (Scan.start.scanAll code.toList).reads=false →
      Reader.codes (Lexical.start.readAll (some '(') code.toList) →
      ∃rest, bracketDepthExceeds (String.ofList (code.toList++rest)) limit=false ∧
        limit<nestingDepth (String.ofList (code.toList++rest))) := by
  refine ⟨?_,?_⟩
  · intro hstep hno
    exact deepest_covered limit code.toList _ _ hstep (Nat.zero_le _) (Nat.zero_le _) hno
  · intro hno hskip hcode
    have hquoted : (Scan.start.scanAll code.toList).Quoted := by
      apply Scan.quoted_scanAll
      intro q hq
      cases hq
    refine ⟨List.replicate (limit+1) '(',?_,?_⟩
    · simp only [bracketDepthExceeds,String.toList_ofList]
      exact Scan.exceeds_append limit code.toList _ _ hno
        (Scan.exceeds_skipped limit _ _ hquoted hskip)
    · have hdeep := deepest_parens (limit+1) _ hcode
      have happend := deepest_append code.toList (List.replicate (limit+1) '(') Lexical.start
      simp only [nestingDepth,String.toList_ofList]
      simp only [List.replicate_succ,List.head?_cons] at happend hdeep ⊢
      omega

/-- Code with a call, a comment and a string with brackets in them; a bracket that closes nothing;
and the start of a replacement field. -/
theorem nesting_guard_in_step_fields :
    nestingDepth "f(x[0], ')') # ]"≤2 ∧ nestingDepth "print(1))"≤1 ∧
      ∃rest, bracketDepthExceeds (String.ofList ("f\"\x7b".toList++rest)) 200=false ∧
        200<nestingDepth (String.ofList ("f\"\x7b".toList++rest)) :=
  ⟨(nesting_guard_in_step "f(x[0], ')') # ]" 2).1 (by decide) (by decide),
    (nesting_guard_in_step "print(1))" 1).1 (by decide) (by decide),
    (nesting_guard_in_step "f\"\x7b" 200).2 (by decide) (by decide) ⟨[],by rfl⟩⟩

/-- `f"{((1))}"` hides its brackets from a scan whose limit is 2. -/
theorem replacement_field_hidden :
    ¬∀code limit, bracketDepthExceeds code limit=false → nestingDepth code≤limit := by
  intro h
  have hdeep := h "f\"\x7b((1))\x7d\"" 2 (by decide)
  revert hdeep
  decide

end Claim

end InterpretThis
