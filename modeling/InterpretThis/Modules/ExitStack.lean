import InterpretThis.Framework.Refinement
import Mathlib.Data.List.Count

namespace InterpretThis.ExitStack

open Refinement

/-- One `close` or `__exit__`: the cleanups it has still to run, and the one that is running. -/
structure Unwind where
  pending : List ℕ
  suppressed : Bool
  running : Option ℕ

/-- The cleanups are numbered in the order of `enter_context` and `callback`. -/
structure Stack where
  registered : List ℕ
  active : List Unwind
  started : List ℕ
  lost : List ℕ
  next : ℕ

/-- What happens next; a cleanup may itself register others, or unwind what it registered. -/
inductive Act where
  | register
  | unwind
  | start
  | returned (truthy : Bool)
  | raised
  | finish

inductive Reply where
  | quiet
  | raised
  | suppressed (answer : Bool)

def Stack.calls (s : Stack) : Bool := s.active.head?.all (·.running.isSome)

/-- A cleanup that raises ends its unwinding; the value of a `callback` is dropped. -/
def step (manager : ℕ → Bool) (s : Stack) : Act → Option (Stack×Reply)
  | .register =>
    if s.calls then
      some ({s with registered := s.registered++[s.next], next := s.next+1},.quiet)
    else none
  | .unwind =>
    if s.calls then
      some ({s with registered := [], active := ⟨s.registered.reverse,false,none⟩::s.active},
        .quiet)
    else none
  | .start =>
    match s.active with
    | ⟨t::ts,suppressed,none⟩::us =>
      some ({s with active := ⟨ts,suppressed,some t⟩::us, started := s.started++[t]},.quiet)
    | _ => none
  | .returned truthy =>
    match s.active with
    | ⟨ts,suppressed,some t⟩::us =>
      some ({s with active := ⟨ts,suppressed || manager t && truthy,none⟩::us},.quiet)
    | _ => none
  | .raised =>
    match s.active with
    | ⟨ts,_,some _⟩::us => some ({s with active := us, lost := s.lost++ts},.raised)
    | _ => none
  | .finish =>
    match s.active with
    | ⟨[],suppressed,none⟩::us => some ({s with active := us},.suppressed suppressed)
    | _ => none

def empty : Stack := ⟨[],[],[],[],0⟩

def Stack.pending (s : Stack) : List ℕ := s.active.flatMap Unwind.pending

structure Sound (s : Stack) (replies : List Reply) : Prop where
  once : ∀ t,s.registered.count t+s.pending.count t+s.started.count t+s.lost.count t=
    if t<s.next then 1 else 0
  ascending : s.registered.Pairwise (· < ·)
  descending : ∀ u∈s.active,u.pending.Pairwise (· > ·)
  lost : .raised∈replies ∨ s.lost=[]

theorem step_sound {manager : ℕ → Bool} {s s' : Stack} {replies : List Reply} {act : Act}
    {r : Reply} (hs : Sound s replies) (h : step manager s act=some (s',r)) :
    Sound s' (replies++[r]) := by
  obtain ⟨registered,active,started,lost,next⟩ := s
  obtain ⟨once,ascending,descending,hlost⟩ := hs
  have kept : .raised∈replies++[r] ∨ lost=[] := hlost.imp (List.mem_append_left [r]) id
  have once : ∀ t,registered.count t+(active.flatMap Unwind.pending).count t+started.count t+
      lost.count t=if t<next then 1 else 0 := once
  cases act with
  | register =>
    rw [step] at h
    split at h
    · cases h
      refine ⟨fun t => ?_,?_,descending,kept⟩
      · have ht := once t
        simp only [Stack.pending,List.count_append,List.count_singleton,beq_iff_eq]
        split_ifs at ht ⊢ <;> omega
      · refine List.pairwise_append.mpr ⟨ascending,List.pairwise_singleton _ _,?_⟩
        intro t ht n hn
        rw [List.mem_singleton.mp hn]
        have hpos : 0<registered.count t := List.count_pos_iff.mpr ht
        have hin := once t
        split_ifs at hin with hlt
        · exact hlt
        · omega
    · cases h
  | unwind =>
    rw [step] at h
    split at h
    · cases h
      refine ⟨fun t => ?_,List.Pairwise.nil,?_,kept⟩
      · have ht := once t
        simp only [Stack.pending,List.flatMap_cons,List.count_append,List.count_reverse,
          List.count_nil]
        omega
      · intro u hu
        rcases List.mem_cons.mp hu with rfl | hu
        · exact List.pairwise_reverse.mpr ascending
        · exact descending u hu
    · cases h
  | start =>
    cases active with
    | nil => cases h
    | cons u us =>
      obtain ⟨_ | ⟨t,ts⟩,suppressed,_ | _⟩ := u <;> cases h
      refine ⟨fun a => ?_,ascending,?_,kept⟩
      · have ha := once a
        simp only [Stack.pending,List.flatMap_cons,List.count_append,List.count_cons,
          List.count_nil] at ha ⊢
        omega
      · rw [List.forall_mem_cons] at descending ⊢
        exact ⟨(List.pairwise_cons.mp descending.1).2,descending.2⟩
  | returned truthy =>
    cases active with
    | nil => cases h
    | cons u us =>
      obtain ⟨ts,suppressed,_ | _⟩ := u <;> cases h
      rw [List.forall_mem_cons] at descending
      exact ⟨once,ascending,List.forall_mem_cons.mpr descending,kept⟩
  | raised =>
    cases active with
    | nil => cases h
    | cons u us =>
      obtain ⟨ts,suppressed,_ | _⟩ := u <;> cases h
      rw [List.forall_mem_cons] at descending
      refine ⟨fun a => ?_,ascending,descending.2,Or.inl (by simp)⟩
      have ha := once a
      simp only [Stack.pending,List.flatMap_cons,List.count_append] at ha ⊢
      omega
  | finish =>
    cases active with
    | nil => cases h
    | cons u us =>
      obtain ⟨_ | ⟨t,ts⟩,suppressed,_ | _⟩ := u <;> cases h
      rw [List.forall_mem_cons] at descending
      exact ⟨once,ascending,descending.2,kept⟩

/-- In every run, nested ones included: no cleanup starts twice, each is somewhere, an unwinding
starts the youngest first, and none is lost unless one raised. -/
theorem exitStack_run (manager : ℕ → Bool) (acts : List Act) (s : Stack) (replies : List Reply)
    (h : run (step manager) empty acts=some (s,replies)) :
    s.started.Nodup ∧
    (∀ t,t<s.next ↔ t∈s.registered ∨ t∈s.pending ∨ t∈s.started ∨ t∈s.lost) ∧
    (∀ u∈s.active,u.pending.Pairwise (· > ·)) ∧ (.raised∉replies → s.lost=[]) := by
  have start : Sound empty [] :=
    ⟨fun t => rfl,List.Pairwise.nil,fun _ hu => absurd hu List.not_mem_nil,Or.inr rfl⟩
  have hs : Sound s replies := run_records Sound (fun _ _ _ _ _ => step_sound) acts start h
  refine ⟨List.nodup_iff_count.mpr fun t => ?_,fun t => ?_,hs.descending,
    fun h => hs.lost.resolve_left h⟩
  · have hin := hs.once t
    split_ifs at hin <;> omega
  · have hin := hs.once t
    rw [← List.count_pos_iff,← List.count_pos_iff,← List.count_pos_iff,← List.count_pos_iff]
    split_ifs at hin <;> omega

/-- The youngest cleanup registers two others and unwinds them; the first of these raises. -/
def nestedActs : List Act :=
  [.register,.register,.unwind,.start,.register,.register,.unwind,.start,.raised,.returned true,
    .start,.returned false,.finish]

theorem exitStack_run_nested : ∃ s replies,
    run (step fun _ => true) empty nestedActs=some (s,replies) ∧ s.started=[1,3,0] ∧ s.lost=[2] ∧
    s.started.Nodup ∧ .raised∈replies :=
  have laws := exitStack_run (fun _ => true) nestedActs _ _ rfl
  ⟨_,_,rfl,rfl,rfl,laws.1,by_contra fun quiet => absurd (laws.2.2.2 quiet) (by decide)⟩

end InterpretThis.ExitStack
