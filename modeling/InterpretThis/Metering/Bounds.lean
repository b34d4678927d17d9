import InterpretThis.Metering.Operations

namespace InterpretThis.Metering

open Exceptions Strategy

section Counter

variable {L D V X : Type} {p : Program L D V X}

theorem incrementOps_count (s : Meter X) :
    (incrementOps p s).2.operationsCount=s.operationsCount+1 := by
  unfold incrementOps
  simp only
  split_ifs <;> rfl

theorem incrementOps_spent {s : Meter X} (h : p.config.maxOperations ≤ s.operationsCount) :
    incrementOps p s=
      (some (operationsError p),{s with operationsCount := s.operationsCount+1}) := by
  have hnext : p.config.maxOperations ≤ s.operationsCount+1 := Nat.le_succ_of_le h
  exact if_pos hnext

theorem incrementMany_count : ∀(k : Nat) (s : Meter X),
    s.operationsCount≤(incrementMany p k s).2.operationsCount ∧
      (0<k → s.operationsCount<(incrementMany p k s).2.operationsCount)
  | 0,s => ⟨Nat.le_refl _,fun h => absurd h (Nat.lt_irrefl 0)⟩
  | k+1,s => by
    have hone := incrementOps_count (p := p) s
    have hlt : s.operationsCount<(incrementMany p (k+1) s).2.operationsCount := by
      rcases h : incrementOps p s with ⟨o,t⟩
      rw [h] at hone
      cases o with
      | some e =>
        have hrun : incrementMany p (k+1) s=(some e,t) := by
          rw [incrementMany,h]
        rw [hrun]
        simp only at hone ⊢
        omega
      | none =>
        have hrun : incrementMany p (k+1) s=incrementMany p k t := by
          rw [incrementMany,h]
        have ih := (incrementMany_count k t).1
        rw [hrun]
        simp only at hone
        omega
    exact ⟨Nat.le_of_lt hlt,fun _ => hlt⟩

theorem operations_pos (n : Node L) (s : Store X) : 0<operations p n s := by
  cases n with
  | other l => exact Nat.succ_pos _
  | whileStmt offset test body orelse => exact Nat.one_pos
  | tryStmt body handlers orelse finalbody => exact Nat.one_pos

theorem incrementMany_spent {k : Nat} {s : Meter X} (hk : 0<k)
    (h : p.config.maxOperations ≤ s.operationsCount) : incrementMany p k s=
      (some (operationsError p),{s with operationsCount := s.operationsCount+1}) := by
  obtain ⟨j,rfl⟩ : ∃j, k=j+1 := ⟨k-1,by omega⟩
  rw [incrementMany,incrementOps_spent h]

theorem enter_spent {n : Node L} {s : Meter X} (h : p.config.maxOperations ≤ s.operationsCount) :
    enter p (.eval n) s=(some (.error (.interpreter (operationsError p))),
      {s with operationsCount := s.operationsCount+1},[.evaluated s.operationsCount true]) := by
  rw [enter,incrementMany_spent (operations_pos n s.store) h]

end Counter

section Relation

variable {X : Type}

/-- Of two evaluations the later one finds the higher count. -/
def Event.Rises : Event → Event → Prop
  | .evaluated m _,.evaluated n _ => m<n
  | _,_ => True

/-- What a run does to the counter, and the events it leaves. -/
structure Metered (c : Config) (s : Meter X) (w : List Event) (t : Meter X) : Prop where
  count : s.operationsCount≤t.operationsCount
  found : ∀{n b}, .evaluated n b∈w → s.operationsCount≤n ∧ n<t.operationsCount
  rising : w.Pairwise Event.Rises
  refused : ∀{n b}, .evaluated n b∈w → c.maxOperations≤n → b=true
  passes : ∀{before n}, .pass false before n∈w → n ≤ c.maxWhileIterations

variable {c : Config}

theorem metered_silent {s t : Meter X} (h : t.operationsCount=s.operationsCount) :
    Metered c s [] t where
  count := Nat.le_of_eq h.symm
  found hm := absurd hm List.not_mem_nil
  rising := List.Pairwise.nil
  refused hm := absurd hm List.not_mem_nil
  passes hm := absurd hm List.not_mem_nil

theorem metered_pass {stepped : Bool} {before n : Nat}
    (h : stepped=false → n ≤ c.maxWhileIterations) (s : Meter X) :
    Metered c s [.pass stepped before n] s where
  count := Nat.le_refl _
  found hm := nomatch List.mem_singleton.mp hm
  rising := List.pairwise_singleton _ _
  refused hm := nomatch List.mem_singleton.mp hm
  passes hm := by
    have heq := List.mem_singleton.mp hm
    cases heq
    exact h rfl

theorem metered_composes (c : Config) : Composes (Metered (X := X) c) where
  refl s := metered_silent rfl
  trans {s s' s'' w w'} h h' := by
    refine ⟨Nat.le_trans h.count h'.count,?_,?_,?_,?_⟩
    · intro n b hm
      rcases List.mem_append.mp hm with hm | hm
      · obtain ⟨hle,hlt⟩ := h.found hm
        exact ⟨hle,Nat.lt_of_lt_of_le hlt h'.count⟩
      · obtain ⟨hle,hlt⟩ := h'.found hm
        exact ⟨Nat.le_trans h.count hle,hlt⟩
    · refine List.pairwise_append.mpr ⟨h.rising,h'.rising,?_⟩
      intro a ha b hb
      cases a with
      | pass stepped before n => trivial
      | evaluated m x =>
        cases b with
        | pass stepped before n => trivial
        | evaluated n y =>
          have hm := (h.found ha).2
          have hn := (h'.found hb).1
          exact Nat.lt_of_lt_of_le hm hn
    · intro n b hm
      rcases List.mem_append.mp hm with hm | hm
      · exact h.refused hm
      · exact h'.refused hm
    · intro before n hm
      rcases List.mem_append.mp hm with hm | hm
      · exact h.passes hm
      · exact h'.passes hm

end Relation

section Arms

variable {L D V X A : Type} {p : Program L D V X}

theorem enter_metered (q : Part L) (s : Meter X) :
    Metered p.config s (enter p q s).2.2 (enter p q s).2.1 := by
  cases q with
  | step l => exact metered_silent rfl
  | stepWhile w => exact metered_silent rfl
  | rounds w resumed before n => exact metered_silent rfl
  | eval n =>
    have hpos := operations_pos (p := p) n s.store
    have hlt := (incrementMany_count (p := p) (operations p n s.store) s).2 hpos
    rcases h : incrementMany p (operations p n s.store) s with ⟨o,t⟩
    rw [h] at hlt
    have hentered : ∃b, (enter p (.eval n) s).2=(t,[.evaluated s.operationsCount b]) ∧
        (p.config.maxOperations ≤ s.operationsCount → b=true) := by
      cases o with
      | some e =>
        refine ⟨true,?_,fun _ => rfl⟩
        rw [enter,h]
      | none =>
        refine ⟨false,?_,?_⟩
        · rw [enter,h]
        · intro hspent
          rw [incrementMany_spent hpos hspent] at h
          cases h
    obtain ⟨b,heq,hb⟩ := hentered
    rw [heq]
    refine ⟨Nat.le_of_lt hlt,?_,List.pairwise_singleton _ _,?_,?_⟩
    · intro m x hm
      cases List.mem_singleton.mp hm
      exact ⟨Nat.le_refl _,hlt⟩
    · intro m x hm hspent
      cases List.mem_singleton.mp hm
      exact hb hspent
    · intro before m hm
      cases List.mem_singleton.mp hm

theorem setTrips_count (offset n : Nat) (s : Meter X) :
    (s.setTrips offset n).operationsCount=s.operationsCount := by
  unfold Meter.setTrips
  split <;> rfl

theorem quietly_respects (t : Quiet L D V X A) : (quietly t).Respects (Metered p.config) := by
  apply Respects.within
  intro w s
  exact metered_silent rfl

theorem onStore_respects (f : Store X → Store X) :
    (onStore f : Host L D V X Unit).Respects (Metered p.config) := by
  apply Respects.modify
  intro s
  exact metered_silent rfl

theorem setTrips_respects (offset n : Nat) :
    (modify (Meter.setTrips offset n) : Host L D V X Unit).Respects (Metered p.config) := by
  apply Respects.modify
  intro s
  exact metered_silent (setTrips_count offset n s)

theorem leave_respects (offset n : Nat) (a : A) :
    (modify (Meter.setTrips offset n) >>= fun _ => pure a : Host L D V X A).Respects
      (Metered p.config) :=
  (setTrips_respects offset n).followed (Respects.pure a)

theorem read_respects (f : Meter X → A) :
    (read f : Host L D V X A).Respects (Metered p.config) :=
  Respects.read (metered_composes _) f

theorem evalBody_respects : ∀(ns : List (Node L)) (v : V),
    (evalBody ns v : Host L D V X (Answer D V)).Respects (Metered p.config)
  | [],_ => trivial
  | n::ns,v => by
    intro r
    cases r with
    | error e => trivial
    | ok u => exact evalBody_respects ns u

theorem evalTest_respects (stepped : Bool) (test : L) :
    (evalTest p stepped test).Respects (Metered p.config) := by
  intro r
  cases r with
  | error e => trivial
  | ok v => exact quietly_respects _

theorem passBody_respects : ∀(ns : List (Node L)) (v : V),
    (passBody ns v : Host L D V X (PassEnd D V)).Respects (Metered p.config)
  | [],_ => trivial
  | n::ns,v => by
    intro r
    cases r with
    | ok u => exact passBody_respects ns u
    | error e =>
      cases e with
      | interpreter e => trivial
      | exception x => trivial
      | signal sig => cases sig <;> trivial

/-- The passes of `eval_while` stay within the limit. -/
theorem whilePasses_respects (w : Loop L) (orelse : List (Node L)) (before : Nat) :
    ∀(left n : Nat) (v : V), n+left=p.config.maxWhileIterations →
      (whilePasses p w orelse before left n v).Respects (Metered p.config)
  | 0,n,v,_ => leave_respects _ _ _
  | left+1,n,v,hleft => by
    refine Respects.bind ?_ (evalTest_respects _ w.test)
    intro r
    cases r with
    | error e => exact leave_respects _ _ _
    | ok b =>
      cases b with
      | false => exact (setTrips_respects _ _).followed (evalBody_respects orelse v)
      | true =>
        have hpass : n+1≤p.config.maxWhileIterations := by omega
        have hmetered : ∀s : Meter X, Metered p.config s [.pass false before (n+1)] s :=
          metered_pass fun _ => hpass
        have hnote := Respects.emit (P := Part L) (R := Answer D V) hmetered
        refine hnote.followed ?_
        refine Respects.bind ?_ (passBody_respects w.body v)
        intro e
        cases e with
        | next u => exact whilePasses_respects w orelse before left (n+1) u (by omega)
        | broke u => exact leave_respects _ _ _
        | failed e => exact leave_respects _ _ _

theorem markYield_respects (nested : Bool) :
    (markYield nested : Host L D V X Unit).Respects (Metered p.config) := by
  cases nested with
  | true => trivial
  | false => exact onStore_respects _

theorem stepStatements_respects (w : Loop L) (before n : Nat) : ∀(ns : List (Node L)) (i : Nat),
    (stepStatements p w before n ns i).Respects (Metered p.config)
  | [],_ => Respects.ask _
  | s::ss,i => by
    intro r
    cases r with
    | ok u =>
      exact (onStore_respects _).followed (stepStatements_respects w before n ss (i+1))
    | error e =>
      cases e with
      | interpreter e => exact leave_respects _ _ _
      | exception x => exact leave_respects _ _ _
      | signal sig =>
        cases sig with
        | cont => exact Respects.ask _
        | ret v => exact leave_respects _ _ _
        | brk =>
          exact (onStore_respects _).followed (leave_respects _ _ _)
        | yield v =>
          refine (markYield_respects _).followed ?_
          exact (onStore_respects _).followed (leave_respects _ _ _)

theorem stepRound_respects (w : Loop L) (before n : Nat) (resumed : Option Nat) :
    (stepRound p w before n resumed).Respects (Metered p.config) := by
  cases resumed with
  | some i => exact stepStatements_respects w before n _ i
  | none =>
    refine Respects.bind ?_ (evalTest_respects _ w.test)
    intro r
    cases r with
    | error e => exact leave_respects _ _ _
    | ok b =>
      cases b with
      | false =>
        exact (onStore_respects _).followed (leave_respects _ _ _)
      | true =>
        have hmetered : ∀s : Meter X, Metered p.config s [.pass true before (n+1)] s :=
          metered_pass fun h => nomatch h
        have hnote := Respects.emit (P := Part L) (R := Answer D V) hmetered
        exact hnote.followed (stepStatements_respects w before (n+1) w.body 0)

theorem bindName_respects (name : Option String) (exc : ExceptionValue D) :
    (bindName p name exc).Respects (Metered p.config) := by
  cases name with
  | none => trivial
  | some n => exact ⟨fun _ => metered_silent rfl,fun _ => trivial⟩

theorem unbindName_respects (name : Option String) :
    (unbindName p name).Respects (Metered p.config) := by
  cases name with
  | none => trivial
  | some n => exact onStore_respects _

theorem enterHandler_respects (name : Option String) (body : List (Node L))
    (exc : ExceptionValue D) : (enterHandler p name body exc).Respects (Metered p.config) := by
  refine Respects.bind ?_ (read_respects _)
  intro caught
  refine Respects.bind ?_ (bindName_respects name caught)
  intro r
  cases r with
  | error e => trivial
  | ok u =>
    refine (onStore_respects _).followed ?_
    refine Respects.bind ?_ (evalBody_respects body p.none)
    intro a
    refine (onStore_respects _).followed ?_
    exact (unbindName_respects name).followed (Respects.pure _)

theorem tryMatchHandlers_respects (exc : ExceptionValue D) :
    ∀hs : List (Option L×Option String×List (Node L)),
      (tryMatchHandlers p exc hs).Respects (Metered p.config)
  | [] => trivial
  | (type,name,body)::hs => by
    refine Respects.bind ?_ (quietly_respects _)
    intro r
    cases r with
    | error e => trivial
    | ok b =>
      cases b with
      | false => exact tryMatchHandlers_respects exc hs
      | true =>
        refine Respects.bind ?_ (enterHandler_respects name body exc)
        intro a
        cases a <;> trivial

theorem finish_respects (finalbody : List (Node L)) (pending : Answer D V) :
    (finish p finalbody pending).Respects (Metered p.config) := by
  unfold finish
  split_ifs
  · trivial
  · refine Respects.bind ?_ (evalBody_respects finalbody p.none)
    intro r
    cases r <;> trivial

theorem handle_respects (handlers : List (Option L×Option String×List (Node L)))
    (finalbody : List (Node L)) (original : EvalError D V) (exc : ExceptionValue D) :
    (handle p handlers finalbody original exc).Respects (Metered p.config) := by
  refine Respects.bind ?_ (tryMatchHandlers_respects exc handlers)
  intro r
  cases r with
  | error e => trivial
  | ok o =>
    cases o with
    | none => exact finish_respects finalbody _
    | some a => exact finish_respects finalbody a

theorem evalTry_respects (body : List (Node L))
    (handlers : List (Option L×Option String×List (Node L))) (orelse finalbody : List (Node L)) :
    (evalTry p body handlers orelse finalbody).Respects (Metered p.config) := by
  refine Respects.bind ?_ (evalBody_respects body p.none)
  intro r
  cases r with
  | ok v =>
    refine Respects.bind ?_ (evalBody_respects orelse p.none)
    intro a
    exact finish_respects finalbody a
  | error e =>
    cases e with
    | interpreter e => exact handle_respects handlers finalbody _ _
    | exception x => exact handle_respects handlers finalbody _ x
    | signal sig =>
      cases sig with
      | yield v => trivial
      | brk => exact finish_respects finalbody _
      | cont => exact finish_respects finalbody _
      | ret v => exact finish_respects finalbody _

theorem armOf_respects (q : Part L) : (p.armOf q).Respects (Metered p.config) := by
  cases q with
  | step l => exact quietly_respects _
  | stepWhile w =>
    refine Respects.bind ?_ (read_respects _)
    intro resumed
    exact Respects.bind (fun _ => Respects.ask _) (read_respects _)
  | rounds w resumed before n => exact stepRound_respects w before n resumed
  | eval n =>
    cases n with
    | other l => exact quietly_respects _
    | whileStmt offset test body orelse =>
      refine Respects.bind ?_ (read_respects _)
      intro before
      exact whilePasses_respects _ orelse before _ 0 p.none (Nat.zero_add _)
    | tryStmt body handlers orelse finalbody => exact evalTry_respects body handlers orelse finalbody

theorem run_metered (p : Program L D V X) (fuel : Nat) (q : Part L) (s : Meter X) :
    Metered p.config s ((p.run fuel q).record s) ((p.run fuel q).after s) :=
  Evaluator.run_moves (metered_composes p.config) enter_metered armOf_respects fuel q s

end Arms

section Budgets

variable {L D V X : Type}

/-- Once an evaluation has found the count at its limit, it and all later ones are refused. -/
def Spends (c : Config) (w : List Event) : Prop :=
  ∀earlier n b later, w=earlier++.evaluated n b::later → c.maxOperations≤n →
    ∀m x, .evaluated m x∈.evaluated n b::later → x=true

def BoundedPasses (c : Config) (w : List Event) : Prop :=
  ∀stepped before n, .pass stepped before n∈w → before+n ≤ c.maxWhileIterations

/-- The passes of the loops that a generator steps, or runs again after a yield, are bounded. -/
def BoundedWhenStepped (c : Config) (w : List Event) : Prop :=
  ∀stepped before n, .pass stepped before n∈w → stepped=true ∨ before≠0 →
    before+n ≤ c.maxWhileIterations

theorem Metered.spends {c : Config} {s t : Meter X} {w : List Event} (h : Metered c s w t) :
    Spends c w := by
  intro earlier n b later hw hn m x hm
  have hmem : .evaluated m x∈w := by
    rw [hw]
    exact List.mem_append_right earlier hm
  have hle : n ≤ m := by
    rcases List.mem_cons.mp hm with heq | hlater
    · cases heq
      exact Nat.le_refl _
    · have hrising := h.rising
      rw [hw] at hrising
      have htail := (List.pairwise_append.mp hrising).2.1
      have hlt : Event.Rises (.evaluated n b) (.evaluated m x) := List.rel_of_pairwise_cons htail hlater
      exact Nat.le_of_lt hlt
  exact h.refused hmem (Nat.le_trans hn hle)

/-- `eval_while` runs every loop from start to end, and no generator steps one. -/
def Uninterrupted (w : List Event) : Prop :=
  ∀stepped before n, .pass stepped before n∈w → stepped=false ∧ before=0

/-- Loops that no yield leaves stay within their limit, whatever the rest of the program does. -/
theorem Metered.bounded {c : Config} {s t : Meter X} {w : List Event} (h : Metered c s w t)
    (hw : Uninterrupted w) : BoundedPasses c w := by
  intro stepped before n hm
  obtain ⟨rfl,rfl⟩ := hw stepped before n hm
  have hn := h.passes hm
  omega

theorem Metered.bounded_iff {c : Config} {s t : Meter X} {w : List Event} (h : Metered c s w t) :
    BoundedPasses c w ↔ BoundedWhenStepped c w := by
  constructor
  · intro hb stepped before n hm _
    exact hb stepped before n hm
  · intro hb stepped before n hm
    by_cases hs : stepped=true ∨ before≠0
    · exact hb stepped before n hm hs
    · have hplain : stepped=false ∧ before=0 := by
        simpa using hs
      obtain ⟨rfl,rfl⟩ := hplain
      have hn := h.passes hm
      rw [Nat.zero_add]
      exact hn

/-- A spent budget refuses every evaluation, and all of them from there on in every run; the passes
of all loops stay within their limit exactly when those of the loops that generators step do. -/
theorem budgets_exact (p : Program L D V X) (fuel : Nat) (q : Part L) (s : Meter X) :
    (∀n t, p.config.maxOperations≤t.operationsCount → p.run (fuel+1) (.eval n) t=
      (.ok (.error (.interpreter (operationsError p))),
        {t with operationsCount := t.operationsCount+1},[.evaluated t.operationsCount true])) ∧
    s.operationsCount≤((p.run fuel q).after s).operationsCount ∧
    Spends p.config ((p.run fuel q).record s) ∧
    (BoundedPasses p.config ((p.run fuel q).record s) ↔
      BoundedWhenStepped p.config ((p.run fuel q).record s)) := by
  have hrun := run_metered p fuel q s
  refine ⟨?_,hrun.count,hrun.spends,hrun.bounded_iff⟩
  intro n t ht
  have hrefused : (p.evaluator.enter (.eval n) t)=_ := enter_spent ht
  unfold Program.run Evaluator.run
  simp only [hrefused]

end Budgets

section Endless

inductive Label where
  | drive
  | true
  | yield

def endlessLoop : Loop Label := ⟨0,.true,[.other .yield]⟩

/-- A program that steps a generator with an endless loop two times. -/
def endless : Program Label Unit Bool Unit where
  config := ⟨1000,1⟩
  payload := ⟨fun _ => (),fun _ _ => (),fun _ => false,fun _ _ => false,fun d _ => d⟩
  none := false
  arm
    | .drive => do
      let _ ← Strategy.ask (.stepWhile endlessLoop)
      Strategy.ask (.stepWhile endlessLoop)
    | .true => pure (.ok true)
    | .yield => Strategy.read fun s =>
      if (s.activeFrame.map Frame.resumeAtYield).getD false then .ok false
      else .error (.signal (.yield true))
  extra _ _ := 0
  overdue _ _ := none
  yields
    | .yield => true
    | _ => false
  stepped _ := false
  step _ := pure (.ok false)
  truthy _ v := pure (.ok v)
  matchesHandler _ _ := pure (.ok false)
  activeException _ := none
  pushException _ s := s
  popException s := s
  setVariable _ _ s := (.ok (),s)
  deleteVariable _ s := s

def suspended : Meter Unit := ⟨0,fun _ _ => 0,⟨[0],fun _ => some ⟨[],false⟩,()⟩⟩

/-- The second pass of a loop with a limit of one begins, and no limit error is raised. -/
theorem endless_passes : ¬BoundedPasses endless.config
      ((endless.run 20 (.eval (.other .drive))).record suspended) ∧
    (endless.run 20 (.eval (.other .drive))).result suspended=
      .ok (.error (.signal (.yield true))) := by
  constructor
  · intro h
    have hpass := h true 1 1 (by decide)
    exact absurd hpass (by decide)
  · rfl

end Endless

end InterpretThis.Metering
