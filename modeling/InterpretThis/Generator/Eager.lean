import InterpretThis.Generator.Eval
import InterpretThis.Generator.Similar

namespace InterpretThis.Generator

open Resumption

/-- The shared state, with the open buffers apart, innermost first. -/
structure World (U V : Type) where
  yieldStack : List (List V)
  rest : U

def World.push {U V : Type} (vs : List V) (w : World U V) : World U V :=
  match w.yieldStack with
  | b::bs => ⟨(b++vs)::bs,w.rest⟩
  | [] => w

def World.openBuffer {U V : Type} (w : World U V) : World U V := ⟨[]::w.yieldStack,w.rest⟩

def World.collected {U V : Type} (w : World U V) : List V := w.yieldStack.headD []

section Registers

variable {V X : Type}

/-- The innermost suspended generator waits for the value that it was sent. -/
def resuming (active : Option (Cell V X)) : Bool :=
  match active with
  | some c => c.resumeAtYield
  | none => false

/-- The answer that is taken out of the registers of the suspended generator. -/
def takeAnswered (f : Cell V X → Except X V×Cell V X) (none : V) (active : Option (Cell V X)) :
    Except X V×Option (Cell V X) :=
  match active with
  | some c => ((f c).1,some (f c).2)
  | .none => (.ok none,active)

end Registers

section Handlers

variable {U V X L Y A : Type} (E : Effects (World U V) V X L)

/-- `drain_generator_with_return`. -/
def drainGenerator (source : V) :
    Nat → List V → Comp Y (A×World U V) (Signal V X) (List V×V)
  | 0,_ => Comp.diverge
  | fuel+1,out => do
    match ← (liftE (E.next source)).attempt with
    | .ok v => drainGenerator source fuel (out++[v])
    | .error (.exc x) => if E.isStop x then pure (out,E.stopValue x) else Comp.throw (.exc x)
    | .error s => Comp.throw s

/-- All items of an iterable and the value of `yield from`. -/
def allItems (fuel : Nat) (source : V) : Comp Y (A×World U V) (Signal V X) (List V×V) :=
  if E.isGenerator source then drainGenerator E source fuel []
  else do
    let items ← liftE (E.iter source)
    pure (items,E.none)

/-- The yield expressions while a buffer is open. -/
def eagerly (fuel : Nat) : Yielding Empty (Option (Cell V X)×World U V) V X where
  yield op := fun s =>
    if resuming s.1 then
      .done ((takeAnswered (Cell.takeSent E.none) E.none s.1).1.mapError .exc)
        ((takeAnswered (Cell.takeSent E.none) E.none s.1).2,s.2)
    else (do
      let v ← op
      modifyW (World.push [v])
      pure E.none : Comp Empty (Option (Cell V X)×World U V) (Signal V X) V) s
  yieldFrom op := fun s =>
    if resuming s.1 then
      .done ((takeAnswered (Cell.takeReturn E.none) E.none s.1).1.mapError .exc)
        ((takeAnswered (Cell.takeReturn E.none) E.none s.1).2,s.2)
    else (do
      let source ← op
      let items ← allItems E fuel source
      modifyW (World.push items.1)
      pure items.2 : Comp Empty (Option (Cell V X)×World U V) (Signal V X) V) s

/-- Hand out every item in turn. -/
def askEach : List V → Comp V (A×World U V) (Signal V X) Unit
  | [] => pure ()
  | v::vs => do
    Comp.ask (fun _ => v) id
    askEach vs

/-- Repeated `next` calls give these items, and then raise. -/
def HandsOut (source : V) (x : X) (w' : World U V) : List V → World U V → Prop
  | [],w => E.next source w=(.error x,w')
  | v::vs,w => ∃w₁, E.next source w=(.ok v,w₁) ∧ HandsOut source x w' vs w₁

end Handlers

/-- A step in which no generator hands an item out does not see the buffers; `handed` is how many
items were handed out. -/
def Transparent {U V R : Type} (handed : U → Nat) (f : World U V → R×World U V) : Prop :=
  ∀u, (f ⟨[],u⟩).2.yieldStack=[] ∧ handed u ≤ handed (f ⟨[],u⟩).2.rest ∧
    (handed (f ⟨[],u⟩).2.rest=handed u → ∀bs, f ⟨bs,u⟩=((f ⟨[],u⟩).1,⟨bs,(f ⟨[],u⟩).2.rest⟩))

theorem transparent_still {U V R : Type} {handed : U → Nat} {f : World U V → R×World U V} (r : R)
    (hf : ∀w, f w=(r,w)) : Transparent handed f := by
  intro u
  rw [hf]
  exact ⟨rfl,Nat.le_refl _,fun _ bs => hf ⟨bs,u⟩⟩

/-- What an open buffer does to the operations of the interpreter. Suspended generators hand items
out as long as no buffer is open; once one is, a generator that is stepped runs to its end and
leaves its items in the buffer, apart from those left of an iterable that it has taken over with
`yield from`. -/
structure Buffering {U V X L : Type} (E : Effects (World U V) V X L) where
  /-- How many items suspended generators have handed out. -/
  handed : U → Nat
  /-- How many items are left of the iterable that the generator has taken over. -/
  drains : V → U → Nat
  respects : E.Respects fun _ => Transparent handed
  hands : ∀{source u v w}, E.isGenerator source=true → E.next source ⟨[],u⟩=(.ok v,w) →
    handed u+1 ≤ handed w.rest
  drained : ∀{source u k}, E.isGenerator source=true → drains source u=k+1 →
    ∃v u', (∀bs, E.next source ⟨bs,u⟩=(.ok v,⟨bs,u'⟩)) ∧ drains source u'=k
  buffered : ∀{source u vs x w b bs}, E.isGenerator source=true → drains source u=0 →
    HandsOut E source x w vs ⟨[],u⟩ → handed w.rest=handed u+vs.length →
      E.next source ⟨b::bs,u⟩=(.error x,⟨(b++vs)::bs,w.rest⟩)

section Lazy

variable {U V X L : Type} {E : Effects (World U V) V X L} (B : Buffering E)

/-- The items of a delegation that may be in the buffer in their order: all of them, if the
generator has taken nothing over before, or if it hands nothing else out and ends normally. -/
def inOrder (k n : Nat) (stops : Bool) : Nat := if k=0 ∨ (n=k ∧ stops=true) then n else 0

variable (E) in
/-- Lazy delegation to a generator that has handed out `n` items. The state counts the items of
delegations whose order a buffer keeps. -/
def delegate (source : V) (k : Nat) : Nat → Nat → Comp V (Nat×World U V) (Signal V X) V
  | 0,_ => Comp.diverge
  | fuel+1,n => do
    match ← (liftE (E.next source)).attempt with
    | .ok v =>
      Comp.ask (fun _ => v) id
      delegate source k fuel (n+1)
    | .error (.exc x) =>
      Comp.modify fun s => (s.1+inOrder k n (E.isStop x),s.2)
      if E.isStop x then pure (E.stopValue x) else Comp.throw (.exc x)
    | .error s => Comp.throw s

/-- The yield expressions of a body that runs only as far as it is asked, by plain `next` calls. -/
def lazily (fuel : Nat) : Yielding V (Nat×World U V) V X where
  yield op := do
    let v ← op
    Comp.ask (fun _ => v) id
    pure E.none
  yieldFrom op := do
    let source ← op
    if E.isGenerator source then do
      let k ← readW fun w => B.drains source w.rest
      delegate E source k fuel 0
    else do
      let items ← liftE (E.iter source)
      askEach items
      pure E.none

end Lazy

section Agreement

variable {U V X L α β : Type} {E : Effects (World U V) V X L} (B : Buffering E)

/-- No suspended generator around the buffers waits for its answer. -/
def Quiet (active : Option (Cell V X)) : Prop := ∀c, active=some c → c.resumeAtYield=false

theorem resuming_of_quiet {active : Option (Cell V X)} (hq : Quiet active) :
    resuming active=false := by
  cases active with
  | none => rfl
  | some c => exact hq c rfl

/-- The lazy run counts no more items than generators hand out, and if it counts them all the
buffer gets what it hands out, and the outcome and the rest of the state are the same. -/
def Agrees (m : Comp Empty (Option (Cell V X)×World U V) (Signal V X) α)
    (m' : Comp V (Nat×World U V) (Signal V X) α) : Prop :=
  ∀(active : Option (Cell V X)) (u : U) (d : Nat) (vs : List V) (r : Except (Signal V X) α)
    (d' : Nat) (w : World U V), Quiet active →
    (m' (d,⟨[],u⟩)).driven id=(vs,some (r,(d',w))) →
      w.yieldStack=[] ∧ d'+B.handed u ≤ d+B.handed w.rest ∧
        (d'+B.handed u=d+B.handed w.rest →
          ∀b bs, m (active,⟨b::bs,u⟩)=.done r (active,⟨(b++vs)::bs,w.rest⟩))

variable {B}

theorem agrees_lift (f : World U V → Except (Signal V X) α×World U V)
    (hf : Transparent B.handed f) : Agrees B (liftS f) (liftS f) := by
  intro active u d vs r d' w _ h
  obtain ⟨hstack,hmono,hsame⟩ := hf u
  have hrun : (([] : List V),some ((f ⟨[],u⟩).1,(d,(f ⟨[],u⟩).2)))=(vs,some (r,(d',w))) := h
  cases hrun
  refine ⟨hstack,by omega,?_⟩
  intro heq b bs
  have hbuffer := hsame (by omega) (b::bs)
  change Process.done (f ⟨b::bs,u⟩).1 (active,(f ⟨b::bs,u⟩).2)=_
  rw [hbuffer,List.append_nil]

/-- A step that touches neither state. -/
theorem agrees_still (r : Except (Signal V X) α)
    (m : Comp Empty (Option (Cell V X)×World U V) (Signal V X) α)
    (m' : Comp V (Nat×World U V) (Signal V X) α) (hm : ∀s, m s=.done r s)
    (hm' : ∀s, m' s=.done r s) : Agrees B m m' := by
  intro active u d vs r' d' w _ h
  rw [hm'] at h
  cases h
  refine ⟨rfl,Nat.le_refl _,?_⟩
  intro _ b bs
  rw [hm,List.append_nil]

variable {m' : Comp V (Nat×World U V) (Signal V X) α}

theorem Agrees.bind {m : Comp Empty (Option (Cell V X)×World U V) (Signal V X) α}
    {f : α → Comp Empty (Option (Cell V X)×World U V) (Signal V X) β}
    {f' : α → Comp V (Nat×World U V) (Signal V X) β} (hm : Agrees B m m')
    (hf : ∀a, Agrees B (f a) (f' a)) : Agrees B (m>>=f) (m'>>=f') := by
  intro active u d vs r d' w hq h
  rw [Comp.bind_apply] at h
  cases hend : ((m' (d,⟨[],u⟩)).driven id).2 with
  | none =>
    rw [Process.driven_bind_diverge hend] at h
    cases h
  | some last =>
    obtain ⟨r₁,d₁,w₁⟩ := last
    obtain ⟨hstack,hmono,hsame⟩ := hm active u d _ r₁ d₁ w₁ hq (Prod.ext rfl hend)
    have hw₁ : w₁=⟨[],w₁.rest⟩ := by rw [← hstack]
    rw [Process.driven_bind_done hend] at h
    cases r₁ with
    | error e =>
      simp only [Comp.next_error,Process.driven,List.append_nil,Prod.mk.injEq,
        Option.some.injEq] at h
      obtain ⟨rfl,rfl,rfl,rfl⟩ := h
      refine ⟨hstack,hmono,?_⟩
      intro heq b bs
      rw [Comp.bind_apply,hsame heq b bs]
      rfl
    | ok a =>
      obtain ⟨hvs,hlast⟩ := Prod.ext_iff.mp h
      rw [hw₁] at hlast hvs
      obtain ⟨hstack',hmono',hsame'⟩ := hf a active w₁.rest d₁ _ r d' w hq (Prod.ext rfl hlast)
      refine ⟨hstack',by omega,?_⟩
      intro heq b bs
      have hrest := hsame' (by omega) (b++((m' (d,⟨[],u⟩)).driven id).1) bs
      have hsplit : ((m' (d,⟨[],u⟩)).driven id).1++
          ((f' a (d₁,⟨[],w₁.rest⟩)).driven id).1=vs := hvs
      rw [List.append_assoc,hsplit] at hrest
      rw [Comp.bind_apply,hsame (by omega) b bs]
      exact hrest

theorem Agrees.attempt {m : Comp Empty (Option (Cell V X)×World U V) (Signal V X) α}
    (hm : Agrees B m m') : Agrees B m.attempt m'.attempt := by
  intro active u d vs r d' w hq h
  cases hend : ((m' (d,⟨[],u⟩)).driven id).2 with
  | none =>
    rw [Comp.attempt,Process.driven_bind_diverge hend] at h
    cases h
  | some last =>
    obtain ⟨r₁,d₁,w₁⟩ := last
    obtain ⟨hstack,hmono,hsame⟩ := hm active u d _ r₁ d₁ w₁ hq (Prod.ext rfl hend)
    rw [Comp.attempt,Process.driven_bind_done hend] at h
    simp only [Process.driven,List.append_nil,Prod.mk.injEq,Option.some.injEq] at h
    obtain ⟨rfl,rfl,rfl,rfl⟩ := h
    refine ⟨hstack,hmono,?_⟩
    intro heq b bs
    rw [Comp.attempt,hsame heq b bs]
    rfl

theorem Agrees.of_quiet {m n : Comp Empty (Option (Cell V X)×World U V) (Signal V X) α}
    (hm : Agrees B m m') (heq : ∀active w, Quiet active → n (active,w)=m (active,w)) :
    Agrees B n m' := by
  intro active u d vs r d' w hq h
  obtain ⟨hstack,hmono,hsame⟩ := hm active u d vs r d' w hq h
  refine ⟨hstack,hmono,?_⟩
  intro hd b bs
  rw [heq _ _ hq]
  exact hsame hd b bs

/-- What is pushed at once is handed out one by one. -/
theorem agrees_askEach (items : List V) (v : V) :
    Agrees B (do modifyW (World.push items); pure v)
      (do askEach items; pure v : Comp V (Nat×World U V) (Signal V X) V) := by
  have hdriven : ∀d (w : World U V),
      ((askEach items>>=fun _ => pure v : Comp V (Nat×World U V) (Signal V X) V)
        (d,w)).driven id=(items,some (.ok v,(d,w))) := by
    intro d w
    induction items with
    | nil => rfl
    | cons a items ih =>
      have hstep : ((askEach (a::items)>>=fun _ => pure v : Comp V (Nat×World U V) (Signal V X) V)
          (d,w)).driven id=(a::(((askEach items>>=fun _ => pure v :
            Comp V (Nat×World U V) (Signal V X) V) (d,w)).driven id).1,(((askEach items>>=fun _ =>
            pure v : Comp V (Nat×World U V) (Signal V X) V) (d,w)).driven id).2) := rfl
      rw [hstep,ih]
  intro active u d vs r d' w _ h
  rw [hdriven] at h
  cases h
  exact ⟨rfl,Nat.le_refl _,fun _ _ _ => rfl⟩

variable {source : V}

theorem delegate_ok {k fuel n d : Nat} {w w₁ : World U V} {v : V} (h : E.next source w=(.ok v,w₁)) :
    (delegate E source k (fuel+1) n (d,w)).driven id=
      (v::((delegate E source k fuel (n+1) (d,w₁)).driven id).1,
        ((delegate E source k fuel (n+1) (d,w₁)).driven id).2) := by
  rw [delegate,Comp.bind_apply]
  simp only [Comp.attempt,liftE,Comp.lift_apply,h,mapError_ok,Process.bind_done,Comp.next_ok]
  rfl

/-- How a delegation or a drain ends. -/
def lastOf (x : X) (a : α) : Except (Signal V X) α := if E.isStop x then .ok a else .error (.exc x)

theorem delegate_error {k fuel n d : Nat} {w w₁ : World U V} {x : X}
    (h : E.next source w=(.error x,w₁)) :
    delegate E source k (fuel+1) n (d,w)=
      .done (lastOf (E := E) x (E.stopValue x)) (d+inOrder k n (E.isStop x),w₁) := by
  rw [delegate,Comp.bind_apply]
  simp only [Comp.attempt,liftE,Comp.lift_apply,h,mapError_error,Process.bind_done,Comp.next_ok,
    Comp.modify_bind]
  unfold lastOf
  cases E.isStop x <;> rfl

/-- A delegation that ends has handed out what the generator hands out. -/
theorem delegate_handsOut {k : Nat} : ∀{fuel n d : Nat} {w : World U V} {vs : List V}
    {r : Except (Signal V X) V} {d' : Nat} {w' : World U V},
    (delegate E source k fuel n (d,w)).driven id=(vs,some (r,(d',w'))) →
      vs.length<fuel ∧ ∃x, HandsOut E source x w' vs w ∧ r=lastOf (E := E) x (E.stopValue x) ∧
        d'=d+inOrder k (n+vs.length) (E.isStop x)
  | 0,_,_,_,_,_,_,_,h => by cases h
  | fuel+1,n,d,w,vs,r,d',w',h => by
    rcases hnext : E.next source w with ⟨q,w₁⟩
    cases q with
    | error x =>
      rw [delegate_error hnext] at h
      cases h
      exact ⟨Nat.succ_pos fuel,x,hnext,rfl,rfl⟩
    | ok v =>
      rw [delegate_ok hnext] at h
      obtain ⟨hvs,hlast⟩ := Prod.ext_iff.mp h
      have hvs' : v::((delegate E source k fuel (n+1) (d,w₁)).driven id).1=vs := hvs
      obtain ⟨hlt,x,hhands,hr,hd⟩ := delegate_handsOut (Prod.ext rfl hlast)
      rw [← hvs']
      refine ⟨Nat.succ_lt_succ hlt,x,⟨w₁,hnext,hhands⟩,hr,?_⟩
      rw [hd,List.length_cons,Nat.add_assoc n,Nat.add_comm 1]

theorem handsOut_mono {x : X} {w' : World U V} (hg : E.isGenerator source=true) :
    ∀{vs : List V} {u : U}, HandsOut E source x w' vs ⟨[],u⟩ →
      w'.yieldStack=[] ∧ B.handed u+vs.length ≤ B.handed w'.rest
  | [],u,h => by
    obtain ⟨hstack,hmono,-⟩ := B.respects.next source u
    have hrun : E.next source ⟨[],u⟩=(.error x,w') := h
    unfold raising at hstack hmono
    rw [hrun] at hstack hmono
    exact ⟨hstack,hmono⟩
  | v::vs,u,⟨w₁,hnext,h⟩ => by
    obtain ⟨hstack,-,-⟩ := B.respects.next source u
    unfold raising at hstack
    rw [hnext] at hstack
    have hw₁ : w₁=⟨[],w₁.rest⟩ := by rw [← show w₁.yieldStack=[] from hstack]
    have hhands := B.hands hg hnext
    rw [hw₁] at h
    obtain ⟨hend,hle⟩ := handsOut_mono hg h
    refine ⟨hend,?_⟩
    rw [List.length_cons]
    omega

theorem drainGenerator_ok {A : Type} {fuel : Nat} {out : List V} {a : A} {w w₁ : World U V} {v : V}
    (h : E.next source w=(.ok v,w₁)) :
    (drainGenerator E source (fuel+1) out (a,w) :
      Process Empty (A×World U V) (Except (Signal V X) (List V×V)))=
        drainGenerator E source fuel (out++[v]) (a,w₁) := by
  rw [drainGenerator,Comp.bind_apply]
  simp only [Comp.attempt,liftE,Comp.lift_apply,h,mapError_ok,Process.bind_done,Comp.next_ok]

theorem drainGenerator_error {A : Type} {fuel : Nat} {out : List V} {a : A} {w w₁ : World U V}
    {x : X} (h : E.next source w=(.error x,w₁)) :
    (drainGenerator E source (fuel+1) out (a,w) :
      Process Empty (A×World U V) (Except (Signal V X) (List V×V)))=
        .done (lastOf (E := E) x (out,E.stopValue x)) (a,w₁) := by
  rw [drainGenerator,Comp.bind_apply]
  simp only [Comp.attempt,liftE,Comp.lift_apply,h,mapError_error,Process.bind_done,Comp.next_ok]
  unfold lastOf
  cases E.isStop x <;> rfl

/-- Draining with an open buffer: what is left of an iterable comes back, everything else is in
the buffer already. -/
theorem drainGenerator_run {A : Type} {x : X} {w : World U V} {b : List V} (bs : List (List V))
    (hg : E.isGenerator source=true) (a : A) :
    ∀(fuel : Nat) (out : List V) {k : Nat} {vs : List V} {u : U}, B.drains source u=k →
      HandsOut E source x w vs ⟨[],u⟩ → B.handed w.rest=B.handed u+vs.length → vs.length<fuel →
        (drainGenerator E source fuel out (a,⟨b::bs,u⟩) :
          Process Empty (A×World U V) (Except (Signal V X) (List V×V)))=
          .done (lastOf (E := E) x (out++vs.take k,E.stopValue x))
            (a,⟨(b++vs.drop k)::bs,w.rest⟩)
  | fuel+1,out,0,vs,u,hk,hhands,hcount,_ => by
    rw [drainGenerator_error (B.buffered hg hk hhands hcount),List.take_zero,List.append_nil,
      List.drop_zero]
  | fuel+1,out,k+1,vs,u,hk,hhands,hcount,hfuel => by
    obtain ⟨v,u',hnext,hk'⟩ := B.drained hg hk
    cases vs with
    | nil =>
      have hrun : E.next source ⟨[],u⟩=(.error x,w) := hhands
      rw [hnext []] at hrun
      cases hrun
    | cons v' vs =>
      obtain ⟨w₁,hnext',hrest⟩ := hhands
      rw [hnext []] at hnext'
      cases hnext'
      have hstep : B.handed u+1 ≤ B.handed u' := B.hands hg (hnext [])
      obtain ⟨-,hle⟩ := handsOut_mono (B := B) hg hrest
      rw [List.length_cons] at hcount hfuel
      have hlater := drainGenerator_run (b := b) bs hg a fuel (out++[v]) hk' hrest (by omega)
        (by omega)
      rw [drainGenerator_ok (hnext (b::bs)),hlater,List.take_succ_cons,List.drop_succ_cons,
        List.append_assoc]
      rfl

theorem agrees_delegate (hg : E.isGenerator source=true) (fuel : Nat) :
    Agrees B (do
      let items ← drainGenerator E source fuel []
      modifyW (World.push items.1)
      pure items.2) (do
      let k ← readW fun w => B.drains source w.rest
      delegate E source k fuel 0) := by
  intro active u d vs r d' w _ h
  have hrun : (delegate E source (B.drains source u) fuel 0 (d,⟨[],u⟩)).driven id=
      (vs,some (r,(d',w))) := h
  obtain ⟨hlt,x,hhands,hr,hd⟩ := delegate_handsOut hrun
  obtain ⟨hstack,hle⟩ := handsOut_mono (B := B) hg hhands
  rw [Nat.zero_add] at hd
  have hcount : inOrder (B.drains source u) vs.length (E.isStop x) ≤ vs.length := by
    unfold inOrder
    split
    · exact Nat.le_refl _
    · exact Nat.zero_le _
  refine ⟨hstack,by omega,?_⟩
  intro heq b bs
  have hall : inOrder (B.drains source u) vs.length (E.isStop x)=vs.length := by omega
  have hdrain := drainGenerator_run (B := B) (b := b) bs hg active fuel [] rfl hhands (by omega)
    hlt
  rw [Comp.bind_apply,hdrain,hr]
  rw [List.nil_append]
  unfold inOrder at hall
  unfold lastOf
  by_cases hstop : E.isStop x=true
  · rw [if_pos hstop,if_pos hstop]
    change Process.done (Except.ok (E.stopValue x)) (active,(⟨((b++vs.drop (B.drains source u))++
      vs.take (B.drains source u))::bs,w.rest⟩ : World U V))=_
    have hsame : vs.drop (B.drains source u)++vs.take (B.drains source u)=vs := by
      by_cases hk : B.drains source u=0
      · rw [hk,List.drop_zero,List.take_zero,List.append_nil]
      · have hlen : vs.length ≤ B.drains source u := by
          split at hall <;> rename_i hcase
          · exact hcase.elim (fun h => absurd h hk) fun h => Nat.le_of_eq h.1
          · omega
        rw [List.drop_eq_nil_of_le hlen,List.take_of_length_le hlen,List.nil_append]
    rw [List.append_assoc,hsame]
  · rw [if_neg hstop,if_neg hstop]
    have hsame : vs.drop (B.drains source u)=vs := by
      by_cases hk : B.drains source u=0
      · rw [hk,List.drop_zero]
      · have hlen : vs.length=0 := by
          split at hall <;> rename_i hcase
          · exact hcase.elim (fun h => absurd h hk) fun h => absurd h.2 hstop
          · exact hall.symm
        rw [List.eq_nil_of_length_eq_zero hlen,List.drop_nil]
    rw [hsame]
    rfl

variable (B)

/-- The eager buffer against the lazy run. -/
def agreement (fuel : Nat) : Similar (eagerly E fuel) (lazily B fuel) true where
  rel := Agrees B
  pure a := agrees_still (.ok a) _ _ (fun _ => rfl) fun _ => rfl
  throw e := agrees_still (.error e) _ _ (fun _ => rfl) fun _ => rfl
  diverge := fun _ _ _ _ _ _ _ _ h => by cases h
  bind := Agrees.bind
  attempt := Agrees.attempt
  lawful _ := Transparent B.handed
  lift f hf := agrees_lift f hf
  yield _ _ _ hm := by
    refine Agrees.of_quiet (Agrees.bind hm fun v => agrees_askEach [v] E.none) ?_
    intro active w hq
    show (if _ then _ else _)=_
    rw [resuming_of_quiet hq]
    rfl
  yieldFrom _ m m' hm := by
    have hbody : Agrees B (m>>=fun source => do
        let items ← allItems E fuel source
        modifyW (World.push items.1)
        pure items.2) ((lazily B fuel).yieldFrom m') := by
      refine Agrees.bind hm fun source => ?_
      cases hg : E.isGenerator source with
      | true =>
        simp only [allItems,hg,if_true]
        exact agrees_delegate hg fuel
      | false =>
        simp only [allItems,hg,Bool.false_eq_true,if_false,Comp.bind_assoc,Comp.pure_bind]
        refine Agrees.bind (agrees_lift (raising (E.iter source)) (B.respects.iter source)) ?_
        exact fun items => agrees_askEach items E.none
    refine Agrees.of_quiet hbody ?_
    intro active w hq
    show (if _ then _ else _)=_
    rw [resuming_of_quiet hq]
    rfl

end Agreement

/-- The buffered generator. -/
structure LazyBuffer (V : Type) where
  items : List V
  cursor : Nat

/-- What a call of a generator function gives back. -/
inductive Called (V X : Type) where
  | suspended
  | buffered (l : LazyBuffer V)
  | raised (s : Signal V X)

/-- How an iteration ends: `StopIteration` with its value, or what the body raised. -/
inductive Ending (V X : Type) where
  | stop (v : V)
  | raised (s : Signal V X)

/-- What is seen of a generator: what the call raised, or the values and the end of the iteration. -/
inductive Seen (V X : Type) where
  | atCall (s : Signal V X)
  | iterated (values : List V) (ending : Ending V X)

section Calls

variable {U V X L : Type} (E : Effects (World U V) V X L) (fuel : Nat)

/-- `call_user_function_inner` on a generator function; `none` when the body needs more fuel. -/
def callGenerator (body : List (Stmt L)) (active : Option (Cell V X)) (w : World U V) :
    Option (Called V X) :=
  if generatorSuspendable body then some .suspended
  else match evalBody E (eagerly E fuel) fuel body (active,w.openBuffer) with
    | .done (.ok ()) s => some (.buffered ⟨s.2.collected,0⟩)
    | .done (.error (.ret _)) s => some (.buffered ⟨s.2.collected,0⟩)
    | .done (.error s) _ => some (.raised s)
    | .ask y _ _ => nomatch y
    | .diverge => none

/-- `dispatch_lazy` on `__next__`: the item, or `none` for a bare `StopIteration`. -/
def LazyBuffer.next (l : LazyBuffer V) : Option V×LazyBuffer V :=
  match l.items[l.cursor]? with
  | some v => (some v,{l with cursor := l.cursor+1})
  | none => (none,l)

/-- The values of repeated `next` calls, up to a number of calls. -/
def LazyBuffer.iterate : Nat → LazyBuffer V → List V
  | 0,_ => []
  | n+1,l => match l.next with
    | (some v,l') => v::l'.iterate n
    | (none,_) => []

/-- Call and iterate: a buffer ends in a bare `StopIteration`. -/
def seenEager (body : List (Stmt L)) (active : Option (Cell V X)) (w : World U V) :
    Option (Seen V X) :=
  match callGenerator E fuel body active w with
  | some (.buffered l) => some (.iterated (l.iterate (l.items.length+1)) (.stop E.none))
  | some (.raised s) => some (.atCall s)
  | _ => none

/-- The end of an iteration of a body that ran to its end. -/
def endOf (none : V) : Except (Signal V X) Unit → Ending V X
  | .ok () => .stop none
  | .error (.ret v) => .stop v
  | .error s => .raised s

variable {E} in
/-- The body run as far as it is asked by plain `next` calls while no buffer is open, with the
values it hands out, its outcome and the number of items whose order a buffer keeps. -/
def lazyRun (B : Buffering E) (body : List (Stmt L)) (u : U) :
    List V×Option (Except (Signal V X) Unit×Nat×World U V) :=
  (evalBody E (lazily B fuel) fuel body (0,⟨[],u⟩)).driven id

theorem iterate_drop (items : List V) (n cursor : Nat) (h : items.length<n+cursor) :
    LazyBuffer.iterate n ⟨items,cursor⟩=items.drop cursor := by
  induction n generalizing cursor with
  | zero =>
    rw [List.drop_eq_nil_of_le (by omega)]
    rfl
  | succ n ih =>
    by_cases hc : cursor < items.length
    · have hget : items[cursor]?=some items[cursor] := List.getElem?_eq_getElem hc
      rw [LazyBuffer.iterate,LazyBuffer.next]
      simp only [hget]
      rw [ih (cursor+1) (by omega),List.drop_eq_getElem_cons hc]
    · have hget : items[cursor]?=none := List.getElem?_eq_none (by omega)
      rw [LazyBuffer.iterate,LazyBuffer.next]
      simp only [hget]
      rw [List.drop_eq_nil_of_le (by omega)]

theorem iterate_all (items : List V) :
    LazyBuffer.iterate (items.length+1) ⟨items,0⟩=items :=
  iterate_drop items _ 0 (by omega)

/-- What the call gives back when the body has left these items in its buffer. -/
def calledWith (items : List V) : Except (Signal V X) Unit → Called V X
  | .ok () => .buffered ⟨items,0⟩
  | .error (.ret _) => .buffered ⟨items,0⟩
  | .error s => .raised s

variable {E fuel} in
theorem callGenerator_of_done {body : List (Stmt L)} {active active' : Option (Cell V X)}
    {bs : List (List V)} {u u' : U} {r : Except (Signal V X) Unit} {items : List V}
    (hreject : generatorSuspendable body=false)
    (h : evalBody E (eagerly E fuel) fuel body (active,⟨[]::bs,u⟩)=
      .done r (active',⟨items::bs,u'⟩)) :
    callGenerator E fuel body active ⟨bs,u⟩=some (calledWith items r) := by
  unfold callGenerator World.openBuffer
  simp only [hreject,Bool.false_eq_true,if_false,h]
  cases r with
  | ok v => rfl
  | error s => cases s <;> rfl

end Calls

section Sample

/-- What a suspended generator has left to hand out, and how much it has handed out. -/
structure Countdown where
  left : Nat
  handed : Nat

/-- The items of a countdown. -/
def Countdown.items : Nat → List Nat
  | 0 => []
  | n+1 => (n+1)::Countdown.items n

/-- One step of the countdown: with an open buffer it runs to its end. -/
def Countdown.next (w : World Countdown Nat) : Except String Nat×World Countdown Nat :=
  match w.yieldStack,w.rest.left with
  | [],0 => (.error "StopIteration",w)
  | [],n+1 => (.ok (n+1),⟨[],⟨n,w.rest.handed+1⟩⟩)
  | b::bs,n => (.error "StopIteration",⟨(b++Countdown.items n)::bs,⟨0,w.rest.handed+n⟩⟩)

/-- A small interpreter: labels are the numbers they evaluate to, the statement `1` raises, the
statement `2` returns its value, the value 9 is a countdown and every other value iterates as
itself and its predecessor. -/
def sample : Effects (World Countdown Nat) Nat String Nat where
  none := 0
  prim l _ w := (.ok l,w)
  act l vs w := (if l=1 then .error (.exc "ValueError") else
    if l=2 then .error (.ret (vs.headD 0)) else .ok (),w)
  truthy v w := (.ok (v≠0),w)
  isLazy _ := false
  isGenerator v := v==9
  iter v w := (.ok [v,v-1],w)
  next v w := if v=9 then Countdown.next w else (.error "StopIteration",w)
  isStop x := x=="StopIteration"
  stopValue _ := 0
  assignTarget _ _ w := (.ok (),w)
  setVariable _ _ w := (.ok (),w)
  deleteVariable _ w := w
  matchesHandler _ _ w := (.ok true,w)
  excValue _ := 0
  pushException _ w := w
  popException w := w
  activeException _ := none
  setImplicitContext x _ := x
  enterContext v w := (.ok v,w)
  exitContext _ _ w := (.ok false,w)
  choose _ _ w := (.finish (.ok ()),w)

/-- The countdown leaves its items in the buffer. -/
theorem countdown_buffered {x : String} {w : World Countdown Nat} : ∀{vs : List Nat} {n h : Nat},
    HandsOut sample 9 x w vs ⟨[],⟨n,h⟩⟩ →
      x="StopIteration" ∧ vs=Countdown.items n ∧ w=⟨[],⟨0,h+n⟩⟩
  | [],0,h,hout => by
    cases hout
    exact ⟨rfl,rfl,rfl⟩
  | [],n+1,h,hout => by cases hout
  | v::vs,0,h,⟨w₁,hnext,_⟩ => by cases hnext
  | v::vs,n+1,h,⟨w₁,hnext,hout⟩ => by
    cases hnext
    obtain ⟨hx,rfl,rfl⟩ := countdown_buffered hout
    refine ⟨hx,rfl,?_⟩
    rw [Nat.add_assoc,Nat.add_comm 1]

theorem countdown_next : Transparent Countdown.handed (raising (sample.next 9) :
    World Countdown Nat → Except (Signal Nat String) Nat×World Countdown Nat) := by
  intro ⟨left,handed⟩
  cases left with
  | zero =>
    refine ⟨rfl,Nat.le_refl _,?_⟩
    intro _ bs
    cases bs with
    | nil => rfl
    | cons b bs =>
      change (Except.error _,(⟨(b++[])::bs,⟨0,handed+0⟩⟩ : World Countdown Nat))=_
      rw [List.append_nil]
      rfl
  | succ n =>
    refine ⟨rfl,Nat.le_succ handed,?_⟩
    intro h
    exact absurd h (Nat.succ_ne_self handed)

def sampleBuffering : Buffering sample where
  handed u := u.handed
  drains _ _ := 0
  respects :=
    { prim := fun _ _ => transparent_still _ fun _ => rfl
      act := fun _ _ => transparent_still _ fun _ => rfl
      truthy := fun _ => transparent_still _ fun _ => rfl
      iter := fun _ => transparent_still _ fun _ => rfl
      next := fun v => by
        by_cases hv : v=9
        · subst hv
          exact countdown_next
        · have hnext : ∀w, sample.next v w=(.error "StopIteration",w) := fun w => if_neg hv
          refine transparent_still (.error (.exc "StopIteration")) fun w => ?_
          rw [raising,hnext]
          rfl
      assignTarget := fun _ _ => transparent_still _ fun _ => rfl
      setVariable := fun _ _ => transparent_still _ fun _ => rfl
      deleteVariable := fun _ => transparent_still _ fun _ => rfl
      matchesHandler := fun _ _ => transparent_still _ fun _ => rfl
      pushException := fun _ => transparent_still _ fun _ => rfl
      popException := transparent_still _ fun _ => rfl
      caught := fun x => transparent_still (.ok x) fun _ => rfl
      enterContext := fun _ => transparent_still _ fun _ => rfl
      exitContext := fun _ _ => transparent_still _ fun _ => rfl
      choose := fun _ _ => transparent_still (.ok (.finish (.ok ()))) fun _ => rfl }
  hands {source u v w} hg h := by
    have hs : source=9 := by simpa [sample] using hg
    subst hs
    obtain ⟨left,handed⟩ := u
    cases left with
    | zero => cases h
    | succ n =>
      cases h
      exact Nat.le_refl _
  drained _ h := nomatch h
  buffered {source u vs x w b bs} hg _ hout _ := by
    have hs : source=9 := by simpa [sample] using hg
    subst hs
    obtain ⟨rfl,rfl,rfl⟩ := countdown_buffered hout
    rfl

/-- `for a, b in pairs: yield 7` has a target that no record can name. -/
def unpackingLoop : Stmt Nat :=
  .forStmt (.other 0) (.node 5 []) [.simple .expr 0 [.yield (.node 7 [])]] []

end Sample

end InterpretThis.Generator
