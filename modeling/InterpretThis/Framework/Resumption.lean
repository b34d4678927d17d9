import Mathlib.Init

namespace InterpretThis.Resumption

/-- A process over a state: it ends, or hands out a value and waits until the state holds the
answer, or it needs more fuel than it has. -/
inductive Process (Y S A : Type) where
  | done (a : A) (s : S)
  | ask (y : Y) (s : S) (k : S → Process Y S A)
  | diverge

namespace Process

variable {Y S A B C : Type}

def bind (p : Process Y S A) (f : A → S → Process Y S B) : Process Y S B :=
  match p with
  | done a s => f a s
  | ask y s k => ask y s fun t => (k t).bind f
  | diverge => diverge

@[simp] theorem bind_done (a : A) (s : S) (f : A → S → Process Y S B) :
    (done a s).bind f=f a s := rfl

@[simp] theorem bind_ask (y : Y) (s : S) (k : S → Process Y S A) (f : A → S → Process Y S B) :
    (ask y s k).bind f=ask y s fun t => (k t).bind f := rfl

@[simp] theorem bind_diverge (f : A → S → Process Y S B) :
    (diverge : Process Y S A).bind f=diverge := rfl

theorem bind_assoc (p : Process Y S A) (f : A → S → Process Y S B) (g : B → S → Process Y S C) :
    (p.bind f).bind g=p.bind fun a s => (f a s).bind g := by
  induction p with
  | done a s => rfl
  | ask y s k ih => exact congrArg (ask y s) (funext ih)
  | diverge => rfl

theorem bind_done_right (p : Process Y S A) : p.bind done=p := by
  induction p with
  | done a s => rfl
  | ask y s k ih => exact congrArg (ask y s) (funext ih)
  | diverge => rfl

/-- What a process hands out, and how it ends, when `answer` writes every answer. -/
def driven (answer : S → S) : Process Y S A → List Y×Option (A×S)
  | done a s => ([],some (a,s))
  | ask y s k => (y::((k (answer s)).driven answer).1,((k (answer s)).driven answer).2)
  | diverge => ([],none)

theorem driven_bind_done {answer : S → S} {p : Process Y S A} {f : A → S → Process Y S B}
    {a : A} {s : S} (h : (p.driven answer).2=some (a,s)) :
    (p.bind f).driven answer=((p.driven answer).1++((f a s).driven answer).1,
      ((f a s).driven answer).2) := by
  induction p with
  | done a' s' =>
    cases h
    simp [driven]
  | ask y s' k ih =>
    have hk : ((k (answer s')).driven answer).2=some (a,s) := h
    simp [driven,ih (answer s') hk]
  | diverge => cases h

theorem driven_bind_diverge {answer : S → S} {p : Process Y S A} {f : A → S → Process Y S B}
    (h : (p.driven answer).2=none) :
    (p.bind f).driven answer=((p.driven answer).1,none) := by
  induction p with
  | done a' s' => cases h
  | ask y s' k ih =>
    have hk : ((k (answer s')).driven answer).2=none := h
    simp [driven,ih (answer s') hk]
  | diverge => rfl

/-- Every hand-out goes through `f`, which may change it, what happens before the process goes on,
or end the process. -/
def intercept (f : Y → S → (S → Process Y S A) → Process Y S A) : Process Y S A → Process Y S A
  | done a s => done a s
  | ask y s k => f y s fun t => (k t).intercept f
  | diverge => diverge

/-- A process that is given up where it would hand something out. -/
def unasked : Process Y S A → Process Y S A
  | ask .. => diverge
  | p => p

/-- A process over a part of a larger state. -/
def within {Y' B W : Type} (tag : Y → Y') (get : B → S) (set : B → S → B) :
    Process Y (S×W) A → B → Process Y' (B×W) A
  | done a s,b => done a (set b s.1,s.2)
  | ask y s k,b => ask (tag y) (set b s.1,s.2) fun t => (k (get t.1,t.2)).within tag get set t.1
  | diverge,_ => diverge

end Process

/-- Where a process stands after the answers it was given. -/
inductive Outcome (S A : Type) where
  | ended (a : A) (s : S)
  | waiting (s : S)
  | lost

def Outcome.map {S T A : Type} (f : S → T) : Outcome S A → Outcome T A
  | ended a s => ended a (f s)
  | waiting s => waiting (f s)
  | lost => lost

def Outcome.state {S A : Type} : Outcome S A → Option S
  | ended _ s => some s
  | waiting s => some s
  | lost => none

theorem Outcome.ne_lost {S A : Type} {o : Outcome S A} (h : o.state.isSome=true) : o≠.lost := by
  rintro rfl
  cases h

/-- What a process hands out when it is given these answers, and where it then stands. -/
def Process.play {Y S A : Type} : Process Y S A → List (S → S) → List Y×Outcome S A
  | done a s,_ => ([],.ended a s)
  | ask y s _,[] => ([y],.waiting s)
  | ask y s k,f::fs => (y::((k (f s)).play fs).1,((k (f s)).play fs).2)
  | diverge,_ => ([],.lost)

def Comp (Y S E A : Type) : Type := S → Process Y S (Except E A)

namespace Comp

variable {Y S E A B C : Type}

def pure (a : A) : Comp Y S E A := fun s => .done (.ok a) s

def throw (e : E) : Comp Y S E A := fun s => .done (.error e) s

def next (f : A → Comp Y S E B) : Except E A → S → Process Y S (Except E B)
  | .ok a,s => f a s
  | .error e,s => .done (.error e) s

def bind (m : Comp Y S E A) (f : A → Comp Y S E B) : Comp Y S E B := fun s => (m s).bind (next f)

instance : Monad (Comp Y S E) where
  pure := pure
  bind := bind

def attempt (m : Comp Y S E A) : Comp Y S E (Except E A) := fun s =>
  (m s).bind fun r t => .done (.ok r) t

def lift (f : S → Except E A×S) : Comp Y S E A := fun s => .done (f s).1 (f s).2

def modify (f : S → S) : Comp Y S E Unit := fun s => .done (.ok ()) (f s)

def intercept (f : Y → S → (S → Process Y S (Except E A)) → Process Y S (Except E A))
    (m : Comp Y S E A) : Comp Y S E A := fun s => (m s).intercept f

def within {Y' B W : Type} (tag : Y → Y') (get : B → S) (set : B → S → B)
    (m : Comp Y (S×W) E A) : Comp Y' (B×W) E A := fun s => (m (get s.1,s.2)).within tag get set s.1

def ask (y : S → Y) (f : S → S) : Comp Y S E Unit := fun s =>
  .ask (y s) (f s) fun t => .done (.ok ()) t

def diverge : Comp Y S E A := fun _ => .diverge

theorem bind_apply (m : Comp Y S E A) (f : A → Comp Y S E B) (s : S) :
    (m>>=f) s=(m s).bind (next f) := rfl

@[simp] theorem pure_apply (a : A) (s : S) : (Pure.pure a : Comp Y S E A) s=.done (.ok a) s := rfl

@[simp] theorem throw_apply (e : E) (s : S) : (throw e : Comp Y S E A) s=.done (.error e) s := rfl

@[simp] theorem lift_apply (f : S → Except E A×S) (s : S) :
    (lift f : Comp Y S E A) s=.done (f s).1 (f s).2 := rfl

@[simp] theorem modify_apply (f : S → S) (s : S) :
    (modify f : Comp Y S E Unit) s=.done (.ok ()) (f s) := rfl

@[simp] theorem diverge_apply (s : S) : (diverge : Comp Y S E A) s=.diverge := rfl

@[simp] theorem next_ok (f : A → Comp Y S E B) (a : A) (s : S) : next f (.ok a) s=f a s := rfl

@[simp] theorem next_error (f : A → Comp Y S E B) (e : E) (s : S) :
    next f (.error e) s=.done (.error e) s := rfl

@[simp] theorem pure_bind (a : A) (f : A → Comp Y S E B) : (Pure.pure a>>=f)=f a := rfl

@[simp] theorem throw_bind (e : E) (f : A → Comp Y S E B) : (throw e>>=f)=throw e := rfl

@[simp] theorem modify_bind (g : S → S) (f : Unit → Comp Y S E B) (s : S) :
    (modify g>>=f) s=f () (g s) := rfl

theorem bind_of_done {m : Comp Y S E A} {f : A → Comp Y S E B} {s t : S} {a : A}
    (h : m s=.done (.ok a) t) : (m>>=f) s=f a t := by
  rw [bind_apply,h]
  rfl

theorem bind_of_error {m : Comp Y S E A} {f : A → Comp Y S E B} {s t : S} {e : E}
    (h : m s=.done (.error e) t) : (m>>=f) s=.done (.error e) t := by
  rw [bind_apply,h]
  rfl

theorem attempt_bind (m : Comp Y S E A) (f : Except E A → Comp Y S E B) (s : S) :
    (m.attempt>>=f) s=(m s).bind f := by
  rw [bind_apply,attempt,Process.bind_assoc]
  rfl

theorem bind_assoc (m : Comp Y S E A) (f : A → Comp Y S E B) (g : B → Comp Y S E C) :
    (m>>=f>>=g)=(m>>=fun a => f a>>=g) := by
  funext s
  simp only [bind_apply,Process.bind_assoc]
  congr 1
  funext r t
  cases r <;> rfl

end Comp

/-- A relation between computations over two states that every combinator keeps. -/
structure Congruence (Y S Y' S' E : Type) where
  rel : {A : Type} → Comp Y S E A → Comp Y' S' E A → Prop
  pure : ∀{A : Type} (a : A), rel (Pure.pure a) (Pure.pure a)
  throw : ∀{A : Type} (e : E), rel (Comp.throw e : Comp Y S E A) (Comp.throw e)
  diverge : ∀{A : Type}, rel (Comp.diverge : Comp Y S E A) Comp.diverge
  bind : ∀{A B : Type} {m : Comp Y S E A} {m' : Comp Y' S' E A} {f : A → Comp Y S E B}
    {f' : A → Comp Y' S' E B}, rel m m' → (∀a, rel (f a) (f' a)) → rel (m>>=f) (m'>>=f')
  attempt : ∀{A : Type} {m : Comp Y S E A} {m' : Comp Y' S' E A}, rel m m' →
    rel m.attempt m'.attempt

end InterpretThis.Resumption
