import InterpretThis.Framework.Recorded

namespace InterpretThis

/-- What host code does between the evaluations it asks for: it changes the state, notes what it
did, and goes on with the answer of each evaluation. -/
inductive Strategy (P R S N A : Type) where
  | done (a : A)
  | act (f : S → S) (k : S → Strategy P R S N A)
  | note (n : N) (t : Strategy P R S N A)
  | evaluate (p : P) (k : R → Strategy P R S N A)

namespace Strategy

variable {P R S W N A B : Type}

def bind (f : A → Strategy P R S N B) : Strategy P R S N A → Strategy P R S N B
  | done a => f a
  | act g k => act g fun s => (k s).bind f
  | note n t => note n (t.bind f)
  | evaluate p k => evaluate p fun r => (k r).bind f

instance : Monad (Strategy P R S N) where
  pure := done
  bind t f := t.bind f

def modify (f : S → S) : Strategy P R S N Unit := act f fun _ => done ()

def read (f : S → A) : Strategy P R S N A := act id fun s => done (f s)

def emit (n : N) : Strategy P R S N Unit := note n (done ())

def step (f : S → A×S) : Strategy P R S N A := act (fun s => (f s).2) fun s => done (f s).1

def ask (p : P) : Strategy P R S N R := evaluate p done

/-- Host code that sees one part of the state only, and notes nothing. -/
def within (get : S → W) (set : W → S → S) : Strategy P R W Empty A → Strategy P R S N A
  | done a => done a
  | act f k => act (fun s => set (f (get s)) s) fun s => (k (get s)).within get set
  | note n _ => nomatch n
  | evaluate p k => evaluate p fun r => (k r).within get set

/-- A run of host code, given how the parts are evaluated. Running out of fuel ends it. -/
def exec (again : P → Recorded S Unit N R) : Strategy P R S N A → Recorded S Unit N A
  | done a => pure a
  | act f k => fun s => (k s).exec again (f s)
  | note n t => fun s => ((t.exec again s).1,(t.exec again s).2.1,n::(t.exec again s).2.2)
  | evaluate p k => again p >>= fun r => (k r).exec again

/-- Every change and every note of the host code is one that `T` allows. -/
def Respects (T : S → List N → S → Prop) : Strategy P R S N A → Prop
  | done _ => True
  | act f k => (∀s, T s [] (f s)) ∧ ∀s, (k s).Respects T
  | note n t => (∀s, T s [n] s) ∧ t.Respects T
  | evaluate _ k => ∀r, (k r).Respects T

end Strategy

/-- An evaluator: what the evaluation of a part does first, which may already answer it, and the
host code that follows. -/
structure Evaluator (P R S N : Type) where
  enter : P → S → Option R×S×List N
  arm : P → Strategy P R S N R

def Evaluator.run {P R S N : Type} (x : Evaluator P R S N) : Nat → P → Recorded S Unit N R
  | 0,_ => Recorded.throw ()
  | fuel+1,p => fun s =>
    match x.enter p s with
    | (some r,s',w) => (.ok r,s',w)
    | (none,s',w) =>
      let q := (x.arm p).exec (x.run fuel) s'
      (q.1,q.2.1,w++q.2.2)

/-- A relation between a state, the notes made and the state reached that runs compose. -/
structure Composes {S N : Type} (T : S → List N → S → Prop) : Prop where
  refl : ∀s, T s [] s
  trans : ∀{s s' s'' w w'}, T s w s' → T s' w' s'' → T s (w++w') s''

namespace Recorded

variable {S E N A B : Type} {T : S → List N → S → Prop}

def Moves (T : S → List N → S → Prop) (m : Recorded S E N A) : Prop :=
  ∀s, T s (m.record s) (m.after s)

theorem Moves.pure (hT : Composes T) (a : A) : Moves T (Pure.pure a : Recorded S E N A) := hT.refl

theorem Moves.throw (hT : Composes T) (e : E) : Moves T (Recorded.throw e : Recorded S E N A) :=
  hT.refl

theorem Moves.bind (hT : Composes T) {m : Recorded S E N A} {f : A → Recorded S E N B}
    (hm : Moves T m) (hf : ∀a, Moves T (f a)) : Moves T (m >>= f) := by
  intro s
  rcases h : m s with ⟨r,s',w⟩
  have hfirst : T s w s' := by
    have hs := hm s
    unfold record after at hs
    rw [h] at hs
    exact hs
  cases r with
  | error e =>
    have hrun := bind_error (f := f) h
    unfold record after
    rw [hrun]
    exact hfirst
  | ok a =>
    have hrun := bind_ok (f := f) h
    unfold record after
    rw [hrun]
    exact hT.trans hfirst (hf a s')

end Recorded

namespace Strategy

variable {P R S W N A B : Type} {T : S → List N → S → Prop}

theorem Respects.bind {f : A → Strategy P R S N B} (hf : ∀a, (f a).Respects T) :
    ∀{t : Strategy P R S N A}, t.Respects T → (t.bind f).Respects T
  | done a,_ => hf a
  | act _ _,⟨hg,hk⟩ => ⟨hg,fun s => Respects.bind hf (hk s)⟩
  | note _ _,⟨hn,ht⟩ => ⟨hn,Respects.bind hf ht⟩
  | evaluate _ _,hk => fun r => Respects.bind hf (hk r)

theorem Respects.pure (a : A) : (Pure.pure a : Strategy P R S N A).Respects T := trivial

theorem Respects.followed {u : Strategy P R S N Unit} {t : Strategy P R S N A}
    (hu : u.Respects T) (ht : t.Respects T) : (u >>= fun _ => t).Respects T :=
  Respects.bind (fun _ => ht) hu

theorem Respects.modify {f : S → S} (h : ∀s, T s [] (f s)) :
    (modify f : Strategy P R S N Unit).Respects T := ⟨h,fun _ => trivial⟩

theorem Respects.read (hT : Composes T) (f : S → A) :
    (read f : Strategy P R S N A).Respects T := ⟨hT.refl,fun _ => trivial⟩

theorem Respects.emit {n : N} (h : ∀s, T s [n] s) :
    (emit n : Strategy P R S N Unit).Respects T := ⟨h,trivial⟩

theorem Respects.ask (p : P) : (ask p : Strategy P R S N R).Respects T := fun _ => trivial

theorem Respects.within {get : S → W} {set : W → S → S} (h : ∀w s, T s [] (set w s)) :
    ∀t : Strategy P R W Empty A, (t.within get set).Respects T
  | done _ => trivial
  | act _ k => ⟨fun _ => h _ _,fun s => Respects.within h (k (get s))⟩
  | note n _ => nomatch n
  | evaluate _ k => fun r => Respects.within h (k r)

theorem exec_moves (hT : Composes T) {again : P → Recorded S Unit N R}
    (hagain : ∀p, (again p).Moves T) :
    ∀{t : Strategy P R S N A}, t.Respects T → (t.exec again).Moves T
  | done a,_ => Recorded.Moves.pure hT a
  | act f k,⟨hf,hk⟩ => by
    intro s
    have hrest := exec_moves hT hagain (hk s) (f s)
    exact hT.trans (hf s) hrest
  | note n t,⟨hn,ht⟩ => by
    intro s
    have hrest := exec_moves hT hagain ht s
    exact hT.trans (hn s) hrest
  | evaluate p k,hk =>
    Recorded.Moves.bind hT (hagain p) fun r => exec_moves hT hagain (hk r)

end Strategy

/-- What every entry and every arm respects holds of whole runs. -/
theorem Evaluator.run_moves {P R S N : Type} {x : Evaluator P R S N} {T : S → List N → S → Prop}
    (hT : Composes T) (henter : ∀p s, T s (x.enter p s).2.2 (x.enter p s).2.1)
    (harm : ∀p, (x.arm p).Respects T) : ∀fuel p, (x.run fuel p).Moves T
  | 0,_ => Recorded.Moves.throw hT ()
  | fuel+1,p => by
    intro s
    have ih : ((x.arm p).exec (x.run fuel)).Moves T :=
      Strategy.exec_moves hT (x.run_moves hT henter harm fuel) (harm p)
    have hfirst := henter p s
    rcases h : x.enter p s with ⟨o,s',w⟩
    rw [h] at hfirst
    cases o with
    | some r =>
      have hrun : x.run (fuel+1) p s=(.ok r,s',w) := by
        rw [Evaluator.run]
        simp only [h]
      rw [Recorded.record_of hrun]
      unfold Recorded.after
      rw [hrun]
      exact hfirst
    | none =>
      have hrun : x.run (fuel+1) p s=(((x.arm p).exec (x.run fuel)).result s',
          ((x.arm p).exec (x.run fuel)).after s',w++((x.arm p).exec (x.run fuel)).record s') := by
        rw [Evaluator.run]
        simp only [h]
        rfl
      rw [Recorded.record_of hrun]
      unfold Recorded.after
      rw [hrun]
      exact hT.trans hfirst (ih s')

/-- From every state in `P` the run makes good notes only and, when it ends, `Q` relates its notes,
its answer and its state. -/
def Recorded.Meets {S N A : Type} (G : N → Prop) (P : S → Prop) (m : Recorded S Unit N A)
    (Q : List N → A → S → Prop) : Prop :=
  ∀s, P s → (∀n∈m.record s, G n) ∧ ∀a, m.result s=.ok a → Q (m.record s) a (m.after s)

namespace Recorded

variable {S N A B : Type} {G : N → Prop} {P : S → Prop}

theorem Meets.mono {m : Recorded S Unit N A} {Q R : List N → A → S → Prop} (h : Meets G P m Q)
    (hQ : ∀w a s, Q w a s → R w a s) : Meets G P m R := by
  intro s hs
  obtain ⟨hgood,hend⟩ := h s hs
  exact ⟨hgood,fun a ha => hQ _ _ _ (hend a ha)⟩

theorem Meets.bind {m : Recorded S Unit N A} {f : A → Recorded S Unit N B}
    {Q : List N → A → S → Prop} {R : List N → B → S → Prop} (hm : Meets G P m Q)
    (hf : ∀w a, Meets G (Q w a) (f a) fun w' b s => R (w++w') b s) : Meets G P (m >>= f) R := by
  intro s hs
  obtain ⟨hgood,hend⟩ := hm s hs
  rcases h : m s with ⟨r,s',w⟩
  rw [record_of h] at hgood
  have hafter : m.after s=s' := by
    unfold after
    rw [h]
  cases r with
  | error e =>
    have hrun := bind_error (f := f) h
    rw [record_of hrun,result_of hrun]
    exact ⟨hgood,fun _ ha => nomatch ha⟩
  | ok a =>
    have hrun := bind_ok (f := f) h
    have hq := hend a (result_of h)
    rw [record_of h,hafter] at hq
    obtain ⟨hgood',hend'⟩ := hf w a s' hq
    have hlast : (m >>= f).after s=(f a).after s' := by
      unfold after
      rw [hrun]
      rfl
    rw [record_of hrun,result_of hrun,hlast]
    refine ⟨?_,hend'⟩
    intro n hn
    rcases List.mem_append.mp hn with hn | hn
    · exact hgood n hn
    · exact hgood' n hn

end Recorded

namespace Strategy

variable {P R S W N A B : Type}

theorem exec_note (again : P → Recorded S Unit N R) {n : N} {t : Strategy P R S N A} {s s' : S}
    {r : Except Unit A} {w : List N} (h : t.exec again s=(r,s',w)) :
    (note n t).exec again s=(r,s',n::w) := by
  change ((t.exec again s).1,(t.exec again s).2.1,n::(t.exec again s).2.2)=_
  rw [h]

theorem exec_bind (again : P → Recorded S Unit N R) (f : A → Strategy P R S N B) :
    ∀t : Strategy P R S N A, (t.bind f).exec again=t.exec again >>= fun a => (f a).exec again
  | done _ => rfl
  | act _ k => by
    funext s
    exact congrFun (exec_bind again f (k s)) _
  | note n t => by
    have ih := exec_bind again f t
    funext s
    have hrun := congrFun ih s
    rcases h : t.exec again s with ⟨r,s',w⟩
    have hnote := exec_note again (n := n) h
    cases r with
    | error e =>
      rw [Recorded.bind_error h] at hrun
      rw [Recorded.bind_error hnote]
      exact exec_note again hrun
    | ok a =>
      rw [Recorded.bind_ok h] at hrun
      rw [Recorded.bind_ok hnote]
      exact exec_note again hrun
  | evaluate p k => by
    rw [Strategy.bind,exec,exec,Recorded.bind_assoc]
    congr 1
    funext r
    exact exec_bind again f (k r)

end Strategy

section Views

variable {P R S W N A B X : Type} {G : N → Prop} {view : S → X}

/-- A run of host code from the states with a given view. -/
def Strategy.Holds (again : P → Recorded S Unit N R) (G : N → Prop) (view : S → X) (x : X)
    (t : Strategy P R S N A) (K : List N → A → X → Prop) : Prop :=
  (t.exec again).Meets G (fun s => view s=x) fun w a s => K w a (view s)

variable {again : P → Recorded S Unit N R} {x : X}

namespace Strategy

variable {K : List N → A → X → Prop}

theorem Holds.pure {a : A} (h : K [] a x) :
    Holds again G view x (Pure.pure a : Strategy P R S N A) K := by
  rintro s rfl
  refine ⟨fun n hn => absurd hn List.not_mem_nil,?_⟩
  intro b hb
  cases hb
  exact h

theorem Holds.bind {t : Strategy P R S N A} {f : A → Strategy P R S N B}
    {K' : List N → B → X → Prop} (ht : Holds again G view x t K)
    (hf : ∀w a y, K w a y → Holds again G view y (f a) fun w' b z => K' (w++w') b z) :
    Holds again G view x (t >>= f) K' := by
  unfold Holds
  have hexec : (t >>= f).exec again=t.exec again >>= fun a => (f a).exec again :=
    exec_bind again f t
  rw [hexec]
  apply Recorded.Meets.bind ht
  intro w a s hs
  exact hf w a (view s) hs s rfl

theorem Holds.modify {f : S → S} {g : X → X} {t : Strategy P R S N A}
    (hfg : ∀s, view (f s)=g (view s)) (ht : Holds again G view (g x) t K) :
    Holds again G view x (Strategy.modify f >>= fun _ => t) K := by
  rintro s rfl
  exact ht (f s) (hfg s)

theorem Holds.read {f : S → B} {g : X → B} {k : B → Strategy P R S N A} (hfg : ∀s, f s=g (view s))
    (ht : Holds again G view x (k (g x)) K) : Holds again G view x (Strategy.read f >>= k) K := by
  rintro s rfl
  have hrun : (Strategy.read f >>= k).exec again s=(k (f s)).exec again s := rfl
  unfold Recorded.record Recorded.result Recorded.after
  rw [hrun,hfg]
  exact ht s rfl

theorem Holds.emit {n : N} {t : Strategy P R S N A} (hn : G n)
    (ht : Holds again G view x t fun w a y => K (n::w) a y) :
    Holds again G view x (Strategy.emit n >>= fun _ => t) K := by
  rintro s rfl
  obtain ⟨hgood,hend⟩ := ht s rfl
  refine ⟨?_,hend⟩
  intro m hm
  rcases List.mem_cons.mp hm with rfl | hm
  · exact hn
  · exact hgood m hm

end Strategy

/-- A relation of views, with the notes made, that runs compose, on the views that it preserves. -/
structure Invariant {X N : Type} (I : X → Prop) (T : X → List N → X → Prop) : Prop where
  refl : ∀x, T x [] x
  trans : ∀{x y z w w'}, T x w y → T y w' z → T x (w++w') z
  kept : ∀{x y w}, I x → T x w y → I y

namespace Strategy

variable {I : X → Prop} {T : X → List N → X → Prop}

/-- What every part that host code asks for meets. -/
def Meet (again : P → Recorded S Unit N R) (G : N → Prop) (view : S → X) (I : X → Prop)
    (T : X → List N → X → Prop) : Prop :=
  ∀p x, I x → (again p).Meets G (fun s => view s=x) fun w _ s => T x w (view s)

/-- Host code that cannot change the view meets what the parts it asks for meet. -/
theorem within_holds (hI : Invariant I T) {get : S → W} {set : W → S → S}
    (hset : ∀w s, view (set w s)=view s) (hagain : Meet again G view I T) :
    ∀(t : Strategy P R W Empty A) (x : X), I x →
      Holds again G view x (t.within get set) fun w _ y => T x w y
  | done a,x,_ => Holds.pure (hI.refl x)
  | act f k,x,hx => by
    rintro s rfl
    exact within_holds hI hset hagain (k (get s)) (view s) hx _ (hset _ s)
  | note n _,_,_ => nomatch n
  | evaluate p k,x,hx => by
    have hask : Holds again G view x (Strategy.ask p) fun w _ y => T x w y := by
      have hp := hagain p x hx
      unfold Holds Strategy.ask
      have hexec : (evaluate p done : Strategy P R S N R).exec again=
          again p >>= fun r => (done r : Strategy P R S N R).exec again := rfl
      rw [hexec]
      apply Recorded.Meets.bind hp
      intro w r s hs
      refine ⟨fun n hn => absurd hn List.not_mem_nil,?_⟩
      intro b _
      change T x (w++[]) (view s)
      rw [List.append_nil]
      exact hs
    have hrest : Holds again G view x (Strategy.ask p >>= fun r => (k r).within get set)
        fun w _ y => T x w y := by
      apply Holds.bind hask
      intro w r y hy
      have ih : Holds again G view y ((k r).within get set) fun w _ z => T y w z :=
        within_holds hI hset hagain (k r) y (hI.kept hx hy)
      exact ih.mono fun w' _ _ h => hI.trans hy h
    exact hrest

end Strategy

theorem Evaluator.run_meets {v : Evaluator P R S N} {I : X → Prop} {T : X → List N → X → Prop}
    (henter : ∀p s, v.enter p s=(none,s,[]))
    (harm : ∀again, Strategy.Meet again G view I T → ∀p x, I x →
      Strategy.Holds again G view x (v.arm p) fun w _ y => T x w y) :
    ∀fuel, Strategy.Meet (v.run fuel) G view I T
  | 0 => fun _ _ _ _ _ => ⟨fun _ hn => absurd hn List.not_mem_nil,fun _ ha => nomatch ha⟩
  | fuel+1 => by
    intro p x hx
    have ih := harm (v.run fuel) (Evaluator.run_meets henter harm fuel) p x hx
    have hrun : v.run (fuel+1) p=(v.arm p).exec (v.run fuel) := by
      funext s
      rw [Evaluator.run]
      simp only [henter]
      rfl
    rw [hrun]
    exact ih

end Views

end InterpretThis
