import Mathlib.Algebra.BigOperators.Group.List.Basic
import Mathlib.Data.List.Rotate
import Mathlib.Algebra.Order.Ring.Int

namespace InterpretThis.Deque

inductive Raised where
  | indexError (message : String)
  | valueError (message : String)
  | typeError (message : String)
  | attributeError (message : String)

inductive Reply (α : Type) where
  | none
  | item (a : α)
  | count (n : ℕ)
  | deque (items : List α) (maxlen : Option ℕ)
  | raised (e : Raised)

/-- A `MethodOutcome`, with the items the method leaves. -/
structure Outcome (α : Type) where
  items : List α
  reply : Reply α
  memDelta : Int

/-- A method with its arguments read. -/
inductive Method (α : Type) where
  | append (a : α)
  | appendleft (a : α)
  | pop
  | popleft
  | extend (xs : List α)
  | extendleft (xs : List α)
  | rotate (n : Int)
  | clear
  | copy
  | index (a : α)
  | count (a : α)
  | insert (i : Int) (a : α)
  | remove (a : α)
  | reverse

/-- What the methods ask of a value; `asInt` gives the number of an `Int` or a `Bool`. -/
structure Values (α : Type) where
  none : α
  asInt : α → Option Int64
  typeName : α → String
  iterate : α → Except Raised (List α)
  equal : α → α → Bool
  repr : α → String

section Arguments

variable {α : Type} (V : Values α)

def arg1 (method : String) : List α → Except Raised α
  | [] => .error (.typeError (method++"() takes exactly 1 argument"))
  | a::_ => .ok a

def rotateArg : List α → Except Raised Int64
  | [] => .ok 1
  | a::_ =>
    match V.asInt a with
    | some n => .ok n
    | none => .error (.typeError ("rotate() expected an integer (got '"++V.typeName a++"')"))

def insertArgs (args : List α) : Except Raised (Int64×α) :=
  match args.head?.bind V.asInt with
  | some i => .ok (i,args.tail.head?.getD V.none)
  | none => .error (.typeError "insert() argument 1 must be an integer")

def readMethod (name : String) (args : List α) : Except Raised (Method α) :=
  match name with
  | "append" => do return .append (← arg1 name args)
  | "appendleft" => do return .appendleft (← arg1 name args)
  | "pop" => .ok .pop
  | "popleft" => .ok .popleft
  | "extend" => do return .extend (← V.iterate (← arg1 name args))
  | "extendleft" => do return .extendleft (← V.iterate (← arg1 name args))
  | "rotate" => do return .rotate (← rotateArg V args).toInt
  | "clear" => .ok .clear
  | "copy" => .ok .copy
  | "index" => do return .index (← arg1 name args)
  | "count" => do return .count (← arg1 name args)
  | "insert" => do
    let (i,a) ← insertArgs V args
    return .insert i.toInt a
  | "remove" => do return .remove (← arg1 name args)
  | "reverse" => .ok .reverse
  | _ => .error (.attributeError ("'deque' object has no attribute '"++name++"'"))

end Arguments

section Calls

variable {α : Type} (size : α → ℕ) (equal : α → α → Bool) (repr : α → String) (maxlen : Option ℕ)

/-- Pops from the front down to the bound. -/
def popDown (cap : ℕ) : List α → Int → List α×Int
  | [],delta => ([],delta)
  | a::as,delta => if cap<as.length+1 then popDown cap as (delta-size a) else (a::as,delta)

def enforce (items : List α) (delta : Int) : List α×Int :=
  match maxlen with
  | some cap => popDown size cap items delta
  | none => (items,delta)

/-- `push_back` under the bound. -/
def push (p : List α×Int) (a : α) : List α×Int := enforce size maxlen (p.1++[a]) (p.2+size a)

/-- `push_front` under the bound, which pops at the back. -/
def pushLeft (p : List α×Int) (a : α) : List α×Int :=
  let q := enforce size maxlen (a::p.1).reverse (p.2+size a)
  (q.1.reverse,q.2)

def pushed (p : List α×Int) : Outcome α := ⟨p.1,.none,p.2⟩

def raise (items : List α) (e : Raised) : Outcome α := ⟨items,.raised e,0⟩

def pop (items : List α) : Outcome α :=
  match items.getLast? with
  | some a => ⟨items.dropLast,.item a,-size a⟩
  | none => raise items (.indexError "pop from an empty deque")

def popleft : List α → Outcome α
  | a::as => ⟨as,.item a,-size a⟩
  | [] => raise [] (.indexError "pop from an empty deque")

def rotateRight (shift : ℕ) (items : List α) : List α := items.rotate (items.length-shift)

def rotate (n : Int) (items : List α) : List α :=
  if items.isEmpty then items else rotateRight (n%items.length).toNat items

def total (items : List α) : ℕ := (items.map size).sum

def insertAt (len : ℕ) (raw : Int) : ℕ :=
  let idx := max (-(len : Int)) (min raw len)
  (if idx<0 then max (idx+len) 0 else min idx len).toNat

def insert (items : List α) (raw : Int) (a : α) : Outcome α :=
  if maxlen.any fun m => m ≤ items.length then
    raise items (.indexError "deque already at its maximum size")
  else ⟨items.insertIdx (insertAt items.length raw) a,.none,size a⟩

def index (items : List α) (a : α) : Outcome α :=
  match items.findIdx? fun b => equal b a with
  | some i => ⟨items,.count i,0⟩
  | none => raise items (.valueError (repr a++" is not in deque"))

def remove (items : List α) (a : α) : Outcome α :=
  match items.findIdx? fun b => equal b a with
  | some i => ⟨items.eraseIdx i,.none,-((items[i]?.map size).getD 0 : ℕ)⟩
  | none => raise items (.valueError "deque.remove(x): x not in deque")

def dispatchDequeMethod (items : List α) : Method α → Outcome α
  | .append a => pushed (push size maxlen (items,0) a)
  | .appendleft a => pushed (pushLeft size maxlen (items,0) a)
  | .pop => pop size items
  | .popleft => popleft size items
  | .extend xs => pushed (xs.foldl (push size maxlen) (items,0))
  | .extendleft xs => pushed (xs.foldl (pushLeft size maxlen) (items,0))
  | .rotate n => ⟨rotate n items,.none,0⟩
  | .clear => ⟨[],.none,-total size items⟩
  | .copy => ⟨items,.deque items maxlen,0⟩
  | .index a => index equal repr items a
  | .count a => ⟨items,.count (items.countP fun b => equal b a),0⟩
  | .insert i a => insert size maxlen items i a
  | .remove a => remove size equal items a
  | .reverse => ⟨items.reverse,.none,0⟩

end Calls

section Runs

variable {α : Type} (V : Values α) (maxlen : Option ℕ)

/-- A call, with the sizes of values while it runs: a container whose lock the call holds counts 0. -/
structure Call (α : Type) where
  size : α → ℕ
  method : String
  args : List α
  kwargs : List (String×α)

def perform (items : List α) (c : Call α) : Outcome α :=
  match c.kwargs with
  | (name,_)::_ => raise items
    (.typeError (c.method++"() got an unexpected keyword argument '"++name++"'"))
  | [] =>
    match readMethod V c.method c.args with
    | .error e => raise items e
    | .ok m => dispatchDequeMethod c.size V.equal V.repr maxlen items m

/-- The items after a list of calls, and the sum of what the calls report of the memory. -/
def run (items : List α) (calls : List (Call α)) : List α×Int :=
  calls.foldl (fun p c => ((perform V maxlen p.1 c).items,p.2+(perform V maxlen p.1 c).memDelta))
    (items,0)

/-- The changes of the total size, each in the sizes of its own call. -/
def changes : List α → List (Call α) → Int
  | _,[] => 0
  | items,c::calls => (total c.size (perform V maxlen items c).items-total c.size items)+
    changes (perform V maxlen items c).items calls

end Runs

section Invariants

variable {α : Type} {size : α → ℕ} {maxlen : Option ℕ}

/-- No more items than the bound. -/
def Bounded (maxlen : Option ℕ) (items : List α) : Prop :=
  ∀ cap,maxlen=some cap → items.length ≤ cap

/-- A report that is the change of the total size, from `base` on. -/
def Honest (size : α → ℕ) (base : Int) (p : List α×Int) : Prop := p.2=total size p.1-base

theorem total_append (size : α → ℕ) (as bs : List α) :
    total size (as++bs)=total size as+total size bs := by
  rw [total,List.map_append,List.sum_append]
  rfl

theorem total_perm {as bs : List α} (h : as.Perm bs) : total size as=total size bs :=
  (h.map size).sum_eq

/-- The bound is kept by dropping the oldest items. -/
theorem popDown_eq (cap : ℕ) (items : List α) (delta : Int) :
    popDown size cap items delta=(items.drop (items.length-cap),
      delta-total size (items.take (items.length-cap))) := by
  induction items generalizing delta with
  | nil => simp [popDown,total]
  | cons a as ih =>
    rw [popDown]
    split
    case isTrue h =>
      have hsub : as.length+1-cap=(as.length-cap)+1 := by omega
      rw [ih,List.length_cons,hsub,List.drop_succ_cons,List.take_succ_cons]
      refine Prod.ext rfl ?_
      simp only [total,List.map_cons,List.sum_cons]
      push_cast
      omega
    case isFalse h =>
      have hsub : as.length+1-cap=0 := by omega
      rw [List.length_cons,hsub,List.drop_zero,List.take_zero]
      simp [total]

theorem enforce_bounded (size : α → ℕ) (maxlen : Option ℕ) (items : List α) (delta : Int) :
    Bounded maxlen (enforce size maxlen items delta).1 := by
  intro cap hcap
  subst hcap
  change (popDown size cap items delta).1.length ≤ cap
  rw [popDown_eq,List.length_drop]
  omega

variable {items : List α}

theorem enforce_honest (maxlen : Option ℕ) {base : Int} {delta : Int}
    (h : Honest size base (items,delta)) : Honest size base (enforce size maxlen items delta) := by
  cases maxlen with
  | none => exact h
  | some cap =>
    change Honest size base (popDown size cap items delta)
    have split := total_append size (items.take (items.length-cap))
      (items.drop (items.length-cap))
    rw [List.take_append_drop] at split
    rw [popDown_eq]
    rw [Honest] at h ⊢
    simp only at h ⊢
    omega

theorem push_keeps {base : Int} {p : List α×Int} (a : α) (h : Honest size base p) :
    Bounded maxlen (push size maxlen p a).1 ∧ Honest size base (push size maxlen p a) := by
  refine ⟨enforce_bounded _ _ _ _,enforce_honest _ ?_⟩
  rw [Honest] at h ⊢
  simp only [total_append]
  simp only [total,List.map_cons,List.map_nil,List.sum_cons,List.sum_nil] at h ⊢
  omega

theorem pushLeft_eq (size : α → ℕ) (maxlen : Option ℕ) (items : List α) (delta : Int) (a : α) :
    pushLeft size maxlen (items,delta) a=
      let q := push size maxlen (items.reverse,delta) a
      (q.1.reverse,q.2) := by
  rw [pushLeft,push,List.reverse_cons]

theorem honest_reverse {base : Int} {p : List α×Int} :
    Honest size base (p.1.reverse,p.2) ↔ Honest size base p := by
  rw [Honest,total_perm (List.reverse_perm p.1),Honest]

theorem pushLeft_keeps {base : Int} {p : List α×Int} (a : α) (h : Honest size base p) :
    Bounded maxlen (pushLeft size maxlen p a).1 ∧ Honest size base (pushLeft size maxlen p a) := by
  obtain ⟨bounded,honest⟩ := (push_keeps a (honest_reverse.mpr h) : Bounded maxlen _ ∧ _)
  rw [pushLeft_eq]
  refine ⟨fun cap hcap => ?_,honest_reverse.mpr honest⟩
  rw [List.length_reverse]
  exact bounded cap hcap

theorem foldl_keeps {base : Int} {f : List α×Int → α → List α×Int}
    (hf : ∀ p a,Honest size base p → Bounded maxlen (f p a).1 ∧ Honest size base (f p a))
    (xs : List α) {p : List α×Int} (hb : Bounded maxlen p.1) (h : Honest size base p) :
    Bounded maxlen (xs.foldl f p).1 ∧ Honest size base (xs.foldl f p) := by
  induction xs generalizing p with
  | nil => exact ⟨hb,h⟩
  | cons a xs ih => exact ih (hf p a h).1 (hf p a h).2

/-- A call that is reported honestly and keeps the bound. -/
structure Keeps (size : α → ℕ) (maxlen : Option ℕ) (items : List α) (r : Outcome α) : Prop where
  bounded : Bounded maxlen r.items
  honest : r.memDelta=total size r.items-total size items

theorem keeps_pushed {p : List α×Int} (h : Bounded maxlen p.1 ∧ Honest size (total size items) p) :
    Keeps size maxlen items (pushed p) := ⟨h.1,h.2⟩

theorem keeps_same (hb : Bounded maxlen items) (reply : Reply α) :
    Keeps size maxlen items ⟨items,reply,0⟩ := ⟨hb,(sub_self _).symm⟩

theorem keeps_perm {items later : List α} (hb : Bounded maxlen items) (hp : later.Perm items)
    (reply : Reply α) : Keeps size maxlen items ⟨later,reply,0⟩ where
  bounded cap hcap := by
    rw [hp.length_eq]
    exact hb cap hcap
  honest := by
    rw [total_perm hp]
    exact (sub_self _).symm

theorem keeps_shorter (hb : Bounded maxlen items) {a : α} {rest : List α}
    (hp : items.Perm (a::rest)) (reply : Reply α) :
    Keeps size maxlen items ⟨rest,reply,-size a⟩ where
  bounded cap hcap := by
    have hlen := hp.length_eq
    have hcap := hb cap hcap
    rw [List.length_cons] at hlen
    change rest.length ≤ cap
    omega
  honest := by
    rw [total_perm hp]
    change (-size a : Int)=total size rest-total size (a::rest)
    rw [total,total,List.map_cons,List.sum_cons]
    omega

theorem honest_zero (items : List α) : Honest size (total size items) (items,0) :=
  (sub_self _).symm

theorem keeps_insert (hb : Bounded maxlen items) (i : Int) (a : α) :
    Keeps size maxlen items (insert size maxlen items i a) := by
  rw [insert]
  split
  · exact keeps_same hb _
  case isFalse hroom =>
    have hi : insertAt items.length i ≤ items.length := by
      unfold insertAt
      dsimp only
      split <;> omega
    have hperm := List.perm_insertIdx a items hi
    refine ⟨fun cap hcap => ?_,?_⟩
    · rw [hcap] at hroom
      have hlen := hperm.length_eq
      simp only [Option.any_some,decide_eq_true_eq] at hroom
      rw [List.length_cons] at hlen
      change (items.insertIdx _ a).length ≤ cap
      omega
    · change (size a : Int)=total size (items.insertIdx _ a)-total size items
      rw [total_perm hperm,total,total,List.map_cons,List.sum_cons]
      omega

theorem keeps_remove (hb : Bounded maxlen items) (equal : α → α → Bool) (a : α) :
    Keeps size maxlen items (remove size equal items a) := by
  rw [remove]
  cases hi : items.findIdx? fun b => equal b a with
  | none => exact keeps_same hb _
  | some i =>
    have hlt : i < items.length := (List.findIdx?_eq_some_iff_findIdx_eq.mp hi).1
    have hget : items[i]?=some items[i] := List.getElem?_eq_getElem hlt
    change Keeps size maxlen items ⟨items.eraseIdx i,.none,_⟩
    rw [hget]
    exact keeps_shorter hb (List.getElem_cons_eraseIdx_perm hlt).symm .none

theorem dispatch_keeps (size : α → ℕ) (equal : α → α → Bool) (repr : α → String)
    (hb : Bounded maxlen items) (m : Method α) :
    Keeps size maxlen items (dispatchDequeMethod size equal repr maxlen items m) := by
  cases m with
  | append a => exact keeps_pushed (push_keeps a (honest_zero items))
  | appendleft a => exact keeps_pushed (pushLeft_keeps a (honest_zero items))
  | extend xs =>
    exact keeps_pushed (foldl_keeps (fun _ a => push_keeps a) xs hb (honest_zero items))
  | extendleft xs =>
    exact keeps_pushed (foldl_keeps (fun _ a => pushLeft_keeps a) xs hb (honest_zero items))
  | pop =>
    change Keeps size maxlen items (pop size items)
    rw [pop]
    cases hl : items.getLast? with
    | none => exact keeps_same hb _
    | some a =>
      refine keeps_shorter hb ?_ (.item a)
      have hsplit := List.dropLast_append_getLast? a hl
      have hperm := List.perm_append_singleton a items.dropLast
      rw [hsplit] at hperm
      exact hperm
  | popleft =>
    cases items with
    | nil => exact keeps_same hb _
    | cons a rest => exact keeps_shorter hb (List.Perm.refl _) (.item a)
  | rotate n =>
    refine keeps_perm hb ?_ .none
    rw [rotate]
    split
    · exact List.Perm.refl items
    · exact List.rotate_perm items _
  | clear =>
    refine ⟨fun cap _ => Nat.zero_le cap,?_⟩
    change (-total size items : Int)=(0 : ℕ)-total size items
    omega
  | copy => exact keeps_same hb _
  | index a =>
    change Keeps size maxlen items (index equal repr items a)
    rw [index]
    split <;> exact keeps_same hb _
  | count a => exact keeps_same hb _
  | insert i a => exact keeps_insert hb i a
  | remove a => exact keeps_remove hb equal a
  | reverse => exact keeps_perm hb (List.reverse_perm items) .none

theorem perform_keeps (V : Values α) (hb : Bounded maxlen items) (c : Call α) :
    Keeps c.size maxlen items (perform V maxlen items c) := by
  rw [perform]
  split
  · exact keeps_same hb _
  · split
    · exact keeps_same hb _
    · exact dispatch_keeps c.size V.equal V.repr hb _

theorem run_changes (V : Values α) (hb : Bounded maxlen items) (calls : List (Call α))
    (delta : Int) :
    let p := calls.foldl (fun p c => ((perform V maxlen p.1 c).items,
      p.2+(perform V maxlen p.1 c).memDelta)) (items,delta)
    Bounded maxlen p.1 ∧ p.2=delta+changes V maxlen items calls := by
  induction calls generalizing items delta with
  | nil => exact ⟨hb,(add_zero delta).symm⟩
  | cons c calls ih =>
    have step := perform_keeps V hb c
    obtain ⟨bounded,hsum⟩ := ih step.bounded (delta+(perform V maxlen items c).memDelta)
    refine ⟨bounded,?_⟩
    rw [List.foldl_cons,hsum,changes,step.honest,add_assoc]

theorem changes_same (V : Values α) (items : List α) {calls : List (Call α)} {size : α → ℕ}
    (h : ∀ c∈calls,c.size=size) (delta : Int) :
    changes V maxlen items calls=total size (calls.foldl (fun p c =>
      ((perform V maxlen p.1 c).items,p.2+(perform V maxlen p.1 c).memDelta)) (items,delta)).1-
      total size items := by
  induction calls generalizing items delta with
  | nil => exact (sub_self _).symm
  | cons c calls ih =>
    rw [changes,List.foldl_cons,ih _ (fun d hd => h d (List.mem_cons_of_mem _ hd))
      (delta+(perform V maxlen items c).memDelta),h c List.mem_cons_self]
    exact sub_add_sub_cancel' _ _ _

/-- Numbers, none of which can be iterated over. -/
def numbers : Values ℕ where
  none := 0
  asInt n := some (.ofNat n)
  typeName _ := "int"
  iterate _ := .error (.typeError "'int' object is not iterable")
  equal a b := a==b
  repr n := toString n

/-- The calls on a full deque: a rotation, an item pushed out, a refused one, and `clear`. -/
def fourCalls : List (Call ℕ) :=
  [⟨id,"rotate",[1],[]⟩,⟨id,"append",[9],[]⟩,⟨id,"extend",[3],[]⟩,⟨fun _ => 0,"clear",[],[]⟩]

end Invariants

section Contents

variable {α : Type}

theorem extendleft_eq (size : α → ℕ) (maxlen : Option ℕ) (xs items : List α) (delta : Int) :
    xs.foldl (pushLeft size maxlen) (items,delta)=
      let q := xs.foldl (push size maxlen) (items.reverse,delta)
      (q.1.reverse,q.2) := by
  induction xs generalizing items delta with
  | nil => simp
  | cons a xs ih => simp only [List.foldl_cons,pushLeft_eq,ih,List.reverse_reverse]

theorem extend_eq (size : α → ℕ) (cap : ℕ) (xs : List α) {items : List α} (delta : Int)
    (hb : items.length ≤ cap) : (xs.foldl (push size (some cap)) (items,delta)).1=
      (items++xs).drop ((items++xs).length-cap) := by
  induction xs generalizing items delta with
  | nil =>
    rw [List.append_nil,Nat.sub_eq_zero_of_le hb]
    rfl
  | cons a xs ih =>
    have hpush : (push size (some cap) (items,delta) a).1=
        (items++[a]).drop ((items++[a]).length-cap) := by
      rw [push,enforce,popDown_eq]
    have hlen : ((items++[a]).drop ((items++[a]).length-cap)).length ≤ cap := by
      rw [List.length_drop]
      omega
    rw [List.foldl_cons,← Prod.mk.eta (p := push size (some cap) (items,delta) a),hpush,ih _ hlen,
      ← List.drop_append_of_le_length (Nat.sub_le _ _),List.drop_drop,List.append_assoc]
    congr 1
    simp only [List.length_append,List.length_drop,List.length_cons,List.length_nil]
    omega

/-- Extending leaves the items of the end it extends, as many as the bound allows. -/
theorem extend_last (size : α → ℕ) (equal : α → α → Bool) (repr : α → String) (cap : ℕ)
    (items xs : List α) (hb : items.length ≤ cap) :
    (dispatchDequeMethod size equal repr (some cap) items (.extend xs)).items=
      (items++xs).drop ((items++xs).length-cap) ∧
    (dispatchDequeMethod size equal repr (some cap) items (.extendleft xs)).items=
      (xs.reverse++items).take cap := by
  refine ⟨extend_eq size cap xs 0 hb,?_⟩
  change (xs.foldl (pushLeft size (some cap)) (items,0)).1=_
  rw [extendleft_eq]
  change (xs.foldl (push size (some cap)) (items.reverse,0)).1.reverse=_
  rw [extend_eq size cap xs 0 (by rwa [List.length_reverse]),List.reverse_drop,List.reverse_append,
    List.reverse_reverse,List.take_eq_take_iff]
  simp only [List.length_append,List.length_reverse]
  omega

theorem extend_last_three : (dispatchDequeMethod (fun n : ℕ => n) (· == ·) toString (some 2) [1]
    (.extend [2,3])).items=[2,3] := (extend_last _ _ _ 2 [1] [2,3] (by decide)).1

theorem rotate_eq {items : List α} (h : 0 < items.length) {n : Int} {k : ℕ}
    (hk : (k : Int)%items.length=(-n)%items.length) : rotate n items=items.rotate k := by
  have hn := Int.emod_nonneg n (show (items.length : Int)≠0 by omega)
  have hn' := Int.emod_lt_of_pos n (show (0 : Int) < items.length by omega)
  have hdef := Int.emod_def n items.length
  have hshift : ((items.length-(n%items.length).toNat : ℕ) : Int)=
      -n+items.length*(n/items.length+1) := by
    rw [mul_add]
    omega
  rw [rotate,if_neg (by rw [List.isEmpty_iff_length_eq_zero]; omega),rotateRight,
    ← List.rotate_mod,← List.rotate_mod items k]
  congr 1
  apply Int.ofNat_inj.mp
  rw [Int.natCast_emod,Int.natCast_emod,hk,hshift,Int.add_mul_emod_self_left]

theorem rotate_add (items : List α) (n m : Int) :
    rotate m (rotate n items)=rotate (n+m) items := by
  rcases Nat.eq_zero_or_pos items.length with hzero | hpos
  · rw [List.length_eq_zero_iff.mp hzero]
    rfl
  · -- turns to the left, and so natural numbers
    have left (r : Int) : ∃ k : ℕ,(k : Int)=(-r)%items.length :=
      Int.eq_ofNat_of_zero_le (Int.emod_nonneg (-r) (by omega)) |>.imp fun _ => Eq.symm
    obtain ⟨i,hi⟩ := left n
    obtain ⟨j,hj⟩ := left m
    have hlen := List.length_rotate items i
    rw [rotate_eq hpos (by rw [hi,Int.emod_emod]),rotate_eq (by omega)
      (by rw [hlen,hj,Int.emod_emod]),List.rotate_rotate,rotate_eq hpos]
    rw [Nat.cast_add,hi,hj,← Int.add_emod,neg_add]

theorem perform_rotate {V : Values α} {a : α} {n : Int64} (ha : V.asInt a=some n)
    (size : α → ℕ) (maxlen : Option ℕ) (items : List α) :
    perform V maxlen items ⟨size,"rotate",[a],[]⟩=⟨rotate n.toInt items,.none,0⟩ := by
  simp only [perform,readMethod,rotateArg,ha]
  rfl

/-- Rotations add up as long as the sum has 64 bits: left and right ones, and full turns, cancel.
What is no number of 64 bits is refused. -/
theorem rotate_rotate (V : Values α) (size : α → ℕ) (maxlen : Option ℕ) (items : List α) (a b c : α) :
    (∀ n m k : Int64,V.asInt a=some n → V.asInt b=some m → V.asInt c=some k →
      k.toInt=n.toInt+m.toInt →
      (perform V maxlen (perform V maxlen items ⟨size,"rotate",[a],[]⟩).items
        ⟨size,"rotate",[b],[]⟩).items=(perform V maxlen items ⟨size,"rotate",[c],[]⟩).items) ∧
    (V.asInt a=none → perform V maxlen items ⟨size,"rotate",[a],[]⟩=
      raise items (.typeError ("rotate() expected an integer (got '"++V.typeName a++"')"))) := by
  refine ⟨fun n m k ha hb hc hsum => ?_,fun ha => ?_⟩
  · rw [perform_rotate ha,perform_rotate hb,perform_rotate hc,hsum]
    exact rotate_add items n.toInt m.toInt
  · simp only [perform,readMethod,rotateArg,ha]
    rfl

theorem rotate_rotate_back : (perform numbers none [1,2,3] ⟨id,"rotate",[5],[]⟩).items=[2,3,1] ∧
    (perform numbers none (perform numbers none [1,2,3] ⟨id,"rotate",[1],[]⟩).items
      ⟨id,"rotate",[4],[]⟩).items=(perform numbers none [1,2,3] ⟨id,"rotate",[5],[]⟩).items :=
  ⟨rfl,(rotate_rotate numbers id none [1,2,3] 1 4 5).1 1 4 5 rfl rfl rfl rfl⟩

end Contents

end InterpretThis.Deque
