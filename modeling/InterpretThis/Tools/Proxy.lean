import InterpretThis.Framework.Refinement
import Mathlib.Data.List.Basic

namespace InterpretThis.Tools

open Refinement

/-- What a handler answers; a `ToolError` has its message only. -/
abbrev Answer (V : Type) := Except String V

inductive Phase (V : Type) where
  | queued
  | running
  | finished (r : Answer V)

/-- A spawned call: what its task holds, and the fields and the mutex of its `LazyProxy`. -/
structure Job (A V : Type) where
  toolKwargs : A
  noBudget : Bool
  phase : Phase V
  handle : Bool
  resolved : Option (Answer V)
  locked : Bool

/-- The permits of the semaphore that are left, and the calls spawned so far. -/
structure Pool (A V : Type) where
  available : ℕ
  jobs : List (Job A V)

/-- A task gets its permit or ends; somebody asks the proxy, gets the answer or goes away. -/
inductive Kind (V : Type) where
  | acquire
  | finish (r : Answer V)
  | resolve
  | join
  | abandon

inductive Act (A V : Type) where
  | spawn (toolKwargs : A) (noBudget : Bool)
  | on (i : ℕ) (kind : Kind V)

inductive Reply (A V : Type) where
  | silent
  | called (i : ℕ) (toolKwargs : A)
  | returned (i : ℕ) (r : Answer V)
  | abandoned (i : ℕ)

variable {A V : Type}

def timedOut : Answer V := .error "tool timed out (no remaining execution budget)"

def consumed : Answer V := .error "LazyProxy handle already consumed"

/-- `call_handler`: without a budget the handler is not called. -/
def callHandler (noBudget : Bool) (r : Answer V) : Answer V := if noBudget then timedOut else r

def spawned (toolKwargs : A) (noBudget : Bool) : Job A V :=
  ⟨toolKwargs,noBudget,.queued,true,none,false⟩

def acquire (i available : ℕ) (job : Job A V) : Option (ℕ×Job A V×Reply A V) :=
  match job.phase,available with
  | .queued,n+1 =>
    some (n,{job with phase := .running},if job.noBudget then .silent else .called i job.toolKwargs)
  | _,_ => none

/-- `LazyProxy::resolve` up to the point where it waits for the task. -/
def resolve (i available : ℕ) (job : Job A V) : Option (ℕ×Job A V×Reply A V) :=
  if job.locked then none
  else match job.resolved with
    | some r => some (available,job,.returned i r)
    | none =>
      if job.handle then some (available,{job with handle := false, locked := true},.silent)
      else some (available,job,.returned i consumed)

def finish (available : ℕ) (job : Job A V) (r : Answer V) : Option (ℕ×Job A V×Reply A V) :=
  match job.phase with
  | .running =>
    some (available+1,{job with phase := .finished (callHandler job.noBudget r)},.silent)
  | _ => none

/-- The rest of `LazyProxy::resolve`, when the task has ended. -/
def join (i available : ℕ) (job : Job A V) : Option (ℕ×Job A V×Reply A V) :=
  match job.phase,job.locked with
  | .finished r,true =>
    some (available,{job with resolved := some r, locked := false},.returned i r)
  | _,_ => none

/-- The waiting future is dropped, and the lock with it. -/
def abandon (i available : ℕ) (job : Job A V) : Option (ℕ×Job A V×Reply A V) :=
  if job.locked then some (available,{job with locked := false},.abandoned i) else none

def jobStep (i available : ℕ) (job : Job A V) : Kind V → Option (ℕ×Job A V×Reply A V)
  | .acquire => acquire i available job
  | .finish r => finish available job r
  | .resolve => resolve i available job
  | .join => join i available job
  | .abandon => abandon i available job

def step (pool : Pool A V) : Act A V → Option (Pool A V×Reply A V)
  | .spawn toolKwargs noBudget =>
    some ({pool with jobs := pool.jobs++[spawned toolKwargs noBudget]},.silent)
  | .on i kind =>
    pool.jobs[i]?.bind fun job => (jobStep i pool.available job kind).map fun p =>
      (⟨p.1,pool.jobs.set i p.2.1⟩,p.2.2)

def start (permits : ℕ) : Pool A V := ⟨permits,[]⟩

section Invariant

def Job.isRunning (job : Job A V) : Bool :=
  match job.phase with
  | .running => true
  | _ => false

def Job.isQueued (job : Job A V) : Bool :=
  match job.phase with
  | .queued => true
  | _ => false

def Pool.inFlight (pool : Pool A V) : ℕ := pool.jobs.countP Job.isRunning

def callOf (i : ℕ) : Reply A V → Option A
  | .called j toolKwargs => if j=i then some toolKwargs else none
  | _ => none

def returnOf (i : ℕ) : Reply A V → Option (Answer V)
  | .returned j r => if j=i then some r else none
  | _ => none

/-- The calls of a handler, and the answers its proxy has given, in order. -/
def calls (i : ℕ) (log : List (Reply A V)) : List A := log.filterMap (callOf i)

def answers (i : ℕ) (log : List (Reply A V)) : List (Answer V) := log.filterMap (returnOf i)

def Job.due (job : Job A V) : List A :=
  if job.isQueued || job.noBudget then [] else [job.toolKwargs]

/-- What the proxy answers from now on, once that is settled. -/
def Job.settled (job : Job A V) : Option (Answer V) :=
  match job.resolved with
  | some r => some r
  | none => if job.handle || job.locked then none else some consumed

structure Job.Sound (i : ℕ) (job : Job A V) (log : List (Reply A V)) : Prop where
  calls : calls i log=job.due
  answers : ∀ r∈answers i log,job.settled=some r
  resolved : ∀ r,job.resolved=some r → job.phase=.finished r ∧ job.locked=false
  awaited : job.locked=true → job.handle=false
  lost : job.resolved=none → job.handle=false → job.locked=false → .abandoned i∈log

structure Sound (permits : ℕ) (pool : Pool A V) (log : List (Reply A V)) : Prop where
  permits : pool.available+pool.inFlight=permits
  jobs : ∀ (i : ℕ) (job : Job A V),pool.jobs[i]?=some job → job.Sound i log
  fresh : ∀ i,pool.jobs[i]?=none → calls i log=[] ∧ answers i log=[]

/-- Everything a step of one call can do. -/
inductive Moves (i available : ℕ) (job : Job A V) : ℕ×Job A V×Reply A V → Prop where
  | acquire (n : ℕ) (hp : job.phase=.queued) (ha : available=n+1) :
    Moves i available job (n,{job with phase := .running},
      if job.noBudget then .silent else .called i job.toolKwargs)
  | finish (r : Answer V) (hp : job.phase=.running) :
    Moves i available job (available+1,{job with phase := .finished r},.silent)
  | cached (r : Answer V) (hl : job.locked=false) (hr : job.resolved=some r) :
    Moves i available job (available,job,.returned i r)
  | wait (hl : job.locked=false) (hr : job.resolved=none) (hh : job.handle=true) :
    Moves i available job (available,{job with handle := false, locked := true},.silent)
  | consumed (hl : job.locked=false) (hr : job.resolved=none) (hh : job.handle=false) :
    Moves i available job (available,job,.returned i consumed)
  | join (r : Answer V) (hp : job.phase=.finished r) (hl : job.locked=true) :
    Moves i available job
      (available,{job with resolved := some r, locked := false},.returned i r)
  | abandon (hl : job.locked=true) :
    Moves i available job (available,{job with locked := false},.abandoned i)

variable {job : Job A V} {p : ℕ×Job A V×Reply A V} {i available : ℕ}

theorem moves_resolve (h : resolve i available job=some p) : Moves i available job p := by
  obtain ⟨toolKwargs,noBudget,phase,handle,resolved,locked⟩ := job
  cases locked with
  | true => cases h
  | false =>
    cases resolved with
    | some r =>
      cases h
      exact .cached r rfl rfl
    | none =>
      cases handle with
      | true =>
        cases h
        exact .wait rfl rfl rfl
      | false =>
        cases h
        exact .consumed rfl rfl rfl

theorem moves {kind : Kind V} (h : jobStep i available job kind=some p) :
    Moves i available job p := by
  cases kind with
  | acquire =>
    simp only [jobStep,acquire] at h
    split at h
    next hp => cases h; exact .acquire _ hp rfl
    next => cases h
  | finish r =>
    simp only [jobStep,finish] at h
    split at h
    next hp => cases h; exact .finish _ hp
    next => cases h
  | resolve => exact moves_resolve h
  | join =>
    simp only [jobStep,join] at h
    split at h
    next hp hl => cases h; exact .join _ hp hl
    next => cases h
  | abandon =>
    simp only [jobStep,abandon] at h
    split at h
    next hl => cases h; exact .abandon hl
    next => cases h

/-- A step of one call moves a permit between the semaphore and the task, or none. -/
theorem Moves.permits (h : Moves i available job p) :
    p.1+(if p.2.1.isRunning then 1 else 0)=available+(if job.isRunning then 1 else 0) := by
  cases h with
  | acquire n hp ha => simp [Job.isRunning,hp,ha]
  | finish r hp => simp [Job.isRunning,hp]
  | cached | wait | consumed | join | abandon => rfl

theorem calls_append (i : ℕ) (log : List (Reply A V)) (r : Reply A V) :
    calls i (log++[r])=calls i log++(callOf i r).toList := by
  rw [calls,List.filterMap_append]
  cases h : callOf i r <;> simp [calls,h]

theorem answers_append (i : ℕ) (log : List (Reply A V)) (r : Reply A V) :
    answers i (log++[r])=answers i log++(returnOf i r).toList := by
  rw [answers,List.filterMap_append]
  cases h : returnOf i r <;> simp [answers,h]

/-- The replies to a step of one call are about that call. -/
theorem Moves.other (h : Moves i available job p) {j : ℕ} (hj : i≠j) :
    callOf j p.2.2=none ∧ returnOf j p.2.2=none := by
  cases h with
  | acquire n hp ha => cases job.noBudget <;> simp [callOf,returnOf,hj]
  | cached | consumed | join => simp [callOf,returnOf,hj]
  | finish | wait | abandon => exact ⟨rfl,rfl⟩

variable {log : List (Reply A V)}

/-- The proxy of a call that is waited for has not answered yet. -/
theorem Job.Sound.awaits {i : ℕ} (hs : job.Sound i log) (hl : job.locked=true) :
    job.settled=none := by
  cases hr : job.resolved with
  | some b => exact Bool.noConfusion ((hs.resolved b hr).2.symm.trans hl)
  | none =>
    rw [Job.settled,hr,hl,Bool.or_true]
    rfl

theorem Job.Sound.unasked {i : ℕ} (hs : job.Sound i log) (h : job.settled=none) (a : Answer V) :
    a∉Tools.answers i log := fun ha => by
  cases (hs.answers a ha).symm.trans h

theorem Moves.sound (h : Moves i available job p) (hs : job.Sound i log) :
    p.2.1.Sound i (log++[p.2.2]) := by
  have kept : job.resolved=none → job.handle=false → job.locked=false →
      .abandoned i∈log++[p.2.2] := fun h h' h'' => List.mem_append_left _ (hs.lost h h' h'')
  have quiet {r} (hr : callOf i r=none) : calls i (log++[r])=job.due := by
    rw [calls_append,hr,hs.calls]
    exact List.append_nil _
  have silent {r a} (hr : returnOf i r=none) (ha : a∈answers i (log++[r])) : a∈answers i log := by
    rw [answers_append,hr] at ha
    simpa using ha
  have told {r a} (ha : a∈answers i (log++[.returned i r])) : a∈answers i log ∨ a=r := by
    rw [answers_append] at ha
    simpa [returnOf] using ha
  cases h with
  | acquire n hp ha =>
    refine ⟨?_,fun r hr => hs.answers r (silent ?_ hr),fun r hr => ?_,hs.awaited,kept⟩
    · rw [calls_append,hs.calls]
      cases hb : job.noBudget <;> simp [Job.due,Job.isQueued,callOf,hp,hb]
    · split <;> rfl
    · cases (hs.resolved r hr).1.symm.trans hp
  | finish r hp =>
    refine ⟨?_,fun r hr => hs.answers r (silent rfl hr),fun r hr => ?_,hs.awaited,kept⟩
    · rw [quiet rfl]
      simp [Job.due,Job.isQueued,hp]
    · cases (hs.resolved r hr).1.symm.trans hp
  | cached r hl hr =>
    refine ⟨quiet rfl,fun a ha => ?_,hs.resolved,hs.awaited,kept⟩
    rcases told ha with ha | rfl
    · exact hs.answers a ha
    · rw [Job.settled,hr]
  | wait hl hr hh =>
    have unsettled : job.settled=none := by rw [Job.settled,hr,hh]; rfl
    refine ⟨quiet rfl,fun a ha => ?_,fun r hs => ?_,fun _ => rfl,fun _ _ h => Bool.noConfusion h⟩
    · exact absurd (silent rfl ha) (hs.unasked unsettled a)
    · cases hr.symm.trans hs
  | consumed hl hr hh =>
    refine ⟨quiet rfl,fun a ha => ?_,hs.resolved,hs.awaited,kept⟩
    rcases told ha with ha | rfl
    · exact hs.answers a ha
    · rw [Job.settled,hr,hh,hl]
      rfl
  | join r hp hl =>
    refine ⟨quiet rfl,fun a ha => ?_,fun a ha => ?_,fun h => Bool.noConfusion h,fun h => by cases h⟩
    · rcases told ha with ha | rfl
      · exact absurd ha (hs.unasked (hs.awaits hl) a)
      · rfl
    · cases ha
      exact ⟨hp,rfl⟩
  | abandon hl =>
    refine ⟨quiet rfl,fun a ha => ?_,fun r hr => ⟨(hs.resolved r hr).1,rfl⟩,
      fun h => Bool.noConfusion h,fun _ _ _ => List.mem_append_right log List.mem_cons_self⟩
    exact absurd (silent rfl ha) (hs.unasked (hs.awaits hl) a)

theorem Job.Sound.other {i : ℕ} {r : Reply A V} (hs : job.Sound i log)
    (h : callOf i r=none ∧ returnOf i r=none) : job.Sound i (log++[r]) where
  calls := by rw [calls_append,h.1,hs.calls]; exact List.append_nil _
  answers a ha := by
    rw [answers_append,h.2] at ha
    exact hs.answers a (by simpa using ha)
  resolved := hs.resolved
  awaited := hs.awaited
  lost hr hh hl := List.mem_append_left [r] (hs.lost hr hh hl)

theorem sound_spawned (i : ℕ) (toolKwargs : A) (noBudget : Bool)
    (h : calls i log=[] ∧ answers i log=[]) : (spawned toolKwargs noBudget).Sound i log where
  calls := h.1
  answers a ha := by rw [h.2] at ha; cases ha
  resolved r hr := by cases hr
  awaited hl := by cases hl
  lost _ hh _ := by cases hh

theorem sound_spawn {permits : ℕ} {pool : Pool A V} (hs : Sound permits pool log) (toolKwargs : A)
    (noBudget : Bool) :
    Sound permits {pool with jobs := pool.jobs++[spawned toolKwargs noBudget]}
      (log++[.silent]) where
  permits := by
    rw [Pool.inFlight,List.countP_append]
    exact hs.permits
  jobs i job hj := by
    rw [List.getElem?_append] at hj
    split at hj
    · exact (hs.jobs i job hj).other ⟨rfl,rfl⟩
    case isFalse hi =>
      have hfresh := hs.fresh i (List.getElem?_eq_none (Nat.le_of_not_lt hi))
      rw [List.getElem?_singleton] at hj
      split at hj
      · cases hj
        exact (sound_spawned i toolKwargs noBudget hfresh).other ⟨rfl,rfl⟩
      · cases hj
  fresh i hi := by
    rw [calls_append,answers_append]
    have hnone : pool.jobs[i]?=none := by
      rw [List.getElem?_eq_none_iff,List.length_append] at hi
      exact List.getElem?_eq_none (by omega)
    simpa [callOf,returnOf] using hs.fresh i hnone

theorem countP_set_of {α : Type} (p : α → Bool) {l : List α} {i : ℕ} {a b : α}
    (h : l[i]?=some a) : (l.set i b).countP p+(if p a then 1 else 0)=
      l.countP p+(if p b then 1 else 0) := by
  obtain ⟨hi,rfl⟩ := List.getElem?_eq_some_iff.mp h
  have hle : (if p l[i] then 1 else 0) ≤ l.countP p := by
    split
    case isTrue hp => exact List.countP_pos_iff.mpr ⟨_,List.getElem_mem hi,hp⟩
    case isFalse => exact Nat.zero_le _
  rw [List.countP_set hi]
  omega

theorem sound_on {permits i : ℕ} {pool : Pool A V} (hs : Sound permits pool log)
    (hj : pool.jobs[i]?=some job) (hm : Moves i pool.available job p) :
    Sound permits ⟨p.1,pool.jobs.set i p.2.1⟩ (log++[p.2.2]) := by
  have hi := (List.getElem?_eq_some_iff.mp hj).1
  refine ⟨?_,?_,?_⟩
  · have hpermits := hs.permits
    have hmoved := hm.permits
    have hcount := countP_set_of Job.isRunning (b := p.2.1) hj
    rw [Pool.inFlight] at hpermits ⊢
    change p.1+(pool.jobs.set i p.2.1).countP Job.isRunning=permits
    omega
  · intro j other hother
    rw [List.getElem?_set] at hother
    by_cases hij : i=j
    · rw [if_pos hij,if_pos hi] at hother
      cases hother
      subst hij
      exact hm.sound (hs.jobs i job hj)
    · rw [if_neg hij] at hother
      exact (hs.jobs j other hother).other (hm.other hij)
  · intro j hnone
    rw [List.getElem?_eq_none_iff,List.length_set] at hnone
    have hij : i≠j := by omega
    rw [calls_append,answers_append,(hm.other hij).1,(hm.other hij).2]
    simpa using hs.fresh j (List.getElem?_eq_none hnone)

theorem step_sound {permits : ℕ} {pool next : Pool A V} {act : Act A V} {r : Reply A V}
    (hs : Sound permits pool log) (h : step pool act=some (next,r)) :
    Sound permits next (log++[r]) := by
  cases act with
  | spawn toolKwargs noBudget =>
    cases h
    exact sound_spawn hs toolKwargs noBudget
  | on i kind =>
    obtain ⟨job,hj,hstep⟩ := Option.bind_eq_some_iff.mp h
    obtain ⟨p,hp,he⟩ := Option.map_eq_some_iff.mp hstep
    cases he
    exact sound_on hs hj (moves hp)

theorem run_sound {permits : ℕ} {acts : List (Act A V)} {pool : Pool A V}
    (h : run step (start permits) acts=some (pool,log)) : Sound permits pool log := by
  have hs : Sound permits (start permits : Pool A V) [] :=
    ⟨rfl,fun _ _ hj => (by cases hj),fun _ _ => ⟨rfl,rfl⟩⟩
  exact run_records (Sound permits) (fun _ _ _ _ _ => step_sound) acts hs h

theorem answer_of_settled {i : ℕ} {r : Answer V} (hs : job.Sound i log) (h : job.settled=some r) :
    job.phase=.finished r ∨ r=consumed ∧ .abandoned i∈log := by
  obtain ⟨toolKwargs,noBudget,phase,handle,resolved,locked⟩ := job
  cases resolved with
  | some b =>
    cases h
    exact Or.inl (hs.resolved _ rfl).1
  | none =>
    cases handle with
    | true => cases h
    | false =>
      cases locked with
      | true => cases h
      | false =>
        cases h
        exact Or.inr ⟨rfl,hs.lost rfl rfl rfl⟩

end Invariant

/-- Whatever the order of the steps: no more handlers run than there are permits, each is called
at most once and with its own arguments, and a proxy always gives the same answer, that of its
task, unless a wait for it was dropped. -/
theorem proxies_agree (permits : ℕ) (acts : List (Act A V)) (pool : Pool A V)
    (log : List (Reply A V)) (h : run step (start permits) acts=some (pool,log)) :
    pool.inFlight ≤ permits ∧ ∀ (i : ℕ) (job : Job A V),pool.jobs[i]?=some job →
      calls i log=job.due ∧ (∀ r∈answers i log,∀ s∈answers i log,r=s) ∧
      ∀ r∈answers i log,job.phase=.finished r ∨ r=consumed ∧ .abandoned i∈log := by
  have hs := run_sound h
  refine ⟨by have := hs.permits; omega,fun i job hj => ?_⟩
  have hjob := hs.jobs i job hj
  refine ⟨hjob.calls,fun r hr s hs => ?_,fun r hr => ?_⟩
  · have same := (hjob.answers r hr).symm.trans (hjob.answers s hs)
    exact Option.some.inj same
  · exact answer_of_settled hjob (hjob.answers r hr)

/-- Two calls under one permit: both are waited for, one fails, the other is asked for twice. -/
def twoCalls : List (Act ℕ ℕ) :=
  [.spawn 5 false,.spawn 6 false,.on 1 .resolve,.on 0 .resolve,.on 0 .acquire,
    .on 0 (.finish (.ok 7)),.on 1 .acquire,.on 0 .join,.on 1 (.finish (.error "refused")),
    .on 1 .join,.on 0 .resolve]

theorem proxies_agree_two : ∃ pool log,run step (start 1) twoCalls=some (pool,log) ∧
    answers 0 log=[.ok 7,.ok 7] ∧ answers 1 log=[.error "refused"] ∧ calls 0 log=[5] ∧
    calls 1 log=[6] ∧ pool.inFlight ≤ 1 :=
  ⟨_,_,rfl,rfl,rfl,rfl,rfl,(proxies_agree 1 twoCalls _ _ rfl).1⟩

section Progress

/-- A task that gets its permit or ends, whatever its handler answers. -/
inductive IsTask : Act A V → Prop where
  | acquire (i : ℕ) : IsTask (.on i .acquire)
  | finish (i : ℕ) (r : Answer V) : IsTask (.on i (.finish r))

/-- The steps that the tasks still have to make. -/
def Pool.work (pool : Pool A V) : ℕ := 2*pool.jobs.countP Job.isQueued+pool.inFlight

def Enabled (pool : Pool A V) (act : Act A V) : Prop := (step pool act).isSome

theorem enabled_on {pool : Pool A V} {i : ℕ} {job : Job A V} {kind : Kind V}
    (hj : pool.jobs[i]?=some job) (h : (jobStep i pool.available job kind).isSome) :
    Enabled pool (.on i kind) := by
  rw [Enabled,step,hj,Option.bind_some,Option.isSome_map]
  exact h

theorem enabled_finish {pool : Pool A V} (h : 0<pool.inFlight) :
    ∃ i,∀ r,Enabled pool (.on i (.finish r)) := by
  obtain ⟨job,hmem,hrun⟩ := List.countP_pos_iff.mp h
  obtain ⟨i,hi⟩ := List.mem_iff_getElem?.mp hmem
  refine ⟨i,fun r => enabled_on hi ?_⟩
  rw [Job.isRunning] at hrun
  split at hrun
  next hp => simp [jobStep,finish,hp]
  next => cases hrun

/-- Whoever waits for a proxy is not stuck. -/
theorem waiting_moves {permits i : ℕ} {pool : Pool A V} {log : List (Reply A V)} {job : Job A V}
    (hs : Sound permits pool log) (hp : 0<permits) (hj : pool.jobs[i]?=some job)
    (hl : job.locked=true) :
    Enabled pool (.on i .join) ∨ ∃ act : Act A V,IsTask act ∧ Enabled pool act := by
  cases hphase : job.phase with
  | finished r =>
    left
    refine enabled_on hj ?_
    simp [jobStep,join,hphase,hl]
  | running =>
    have hpos : 0<pool.inFlight :=
      List.countP_pos_iff.mpr ⟨job,List.mem_of_getElem? hj,by rw [Job.isRunning,hphase]⟩
    obtain ⟨j,hfinish⟩ := enabled_finish hpos
    exact Or.inr ⟨_,.finish j timedOut,hfinish timedOut⟩
  | queued =>
    right
    cases ha : pool.available with
    | zero =>
      have hpermits := hs.permits
      obtain ⟨j,hfinish⟩ := enabled_finish (show 0<pool.inFlight by omega)
      exact ⟨_,.finish j timedOut,hfinish timedOut⟩
    | succ n =>
      refine ⟨_,.acquire i,enabled_on hj ?_⟩
      simp [jobStep,acquire,hphase,ha]

def Job.work (job : Job A V) : ℕ :=
  2*(if job.isQueued then 1 else 0)+(if job.isRunning then 1 else 0)

theorem jobStep_work {i available : ℕ} {job : Job A V} {kind : Kind V}
    {p : ℕ×Job A V×Reply A V} (ht : IsTask (.on i kind : Act A V))
    (h : jobStep i available job kind=some p) : job.work=p.2.1.work+1 := by
  cases ht with
  | acquire =>
    simp only [jobStep,acquire] at h
    split at h
    next hp => cases h; simp [Job.work,Job.isQueued,Job.isRunning,hp]
    next => cases h
  | finish r =>
    simp only [jobStep,finish] at h
    split at h
    next hp => cases h; simp [Job.work,Job.isQueued,Job.isRunning,hp]
    next => cases h

theorem step_work {pool next : Pool A V} {act : Act A V} {r : Reply A V} (ht : IsTask act)
    (h : step pool act=some (next,r)) : pool.work=next.work+1 := by
  obtain ⟨i,kind,rfl⟩ : ∃ i kind,act=.on i kind := by
    cases ht with
    | acquire i => exact ⟨i,_,rfl⟩
    | finish i r => exact ⟨i,_,rfl⟩
  obtain ⟨job,hj,hstep⟩ := Option.bind_eq_some_iff.mp h
  obtain ⟨p,hp,he⟩ := Option.map_eq_some_iff.mp hstep
  cases he
  have hqueued := countP_set_of Job.isQueued (b := p.2.1) hj
  have hrunning := countP_set_of Job.isRunning (b := p.2.1) hj
  have hwork := jobStep_work ht hp
  rw [Job.work,Job.work] at hwork
  rw [Pool.work,Pool.work,Pool.inFlight,Pool.inFlight]
  change _=2*(pool.jobs.set i p.2.1).countP Job.isQueued+
    (pool.jobs.set i p.2.1).countP Job.isRunning+1
  omega

theorem tasks_work {tasks : List (Act A V)} (ht : ∀ act∈tasks,IsTask act) {pool next : Pool A V}
    {replies : List (Reply A V)} (h : run step pool tasks=some (next,replies)) :
    tasks.length+next.work=pool.work := by
  induction tasks generalizing pool replies with
  | nil =>
    cases h
    exact Nat.zero_add _
  | cons act tasks ih =>
    rw [run] at h
    cases hstep : step pool act with
    | none =>
      rw [hstep] at h
      cases h
    | some p =>
      rw [hstep] at h
      obtain ⟨q,hq,he⟩ := Option.map_eq_some_iff.mp h
      cases he
      have hfirst := step_work (ht act List.mem_cons_self) hstep
      have hrest := ih (fun a ha => ht a (List.mem_cons_of_mem act ha)) hq
      rw [List.length_cons]
      omega

/-- With at least one permit a wait for a proxy never blocks for good: the tasks make only
finitely many steps, and while they can make none the waiting proxy has its answer. -/
theorem waits_end (permits : ℕ) (hp : 0<permits) (acts : List (Act A V)) (pool : Pool A V)
    (log : List (Reply A V)) (h : run step (start permits) acts=some (pool,log)) :
    (∀ (i : ℕ) (job : Job A V),pool.jobs[i]?=some job → job.locked=true →
      Enabled pool (.on i .join) ∨ ∃ act : Act A V,IsTask act ∧ Enabled pool act) ∧
    ∀ tasks next replies,(∀ act∈tasks,IsTask act) →
      run step pool tasks=some (next,replies) → tasks.length ≤ 2*pool.jobs.length := by
  refine ⟨fun i job hj hl => waiting_moves (run_sound h) hp hj hl,?_⟩
  intro tasks next replies ht hrun
  have hwork := tasks_work ht hrun
  have hdisjoint : pool.jobs.countP Job.isQueued+pool.jobs.countP Job.isRunning ≤
      pool.jobs.length := by
    rw [List.length_eq_countP_add_countP Job.isQueued]
    refine Nat.add_le_add_left (List.countP_mono_left fun job _ hrun => ?_) _
    rw [Job.isRunning] at hrun
    rw [Job.isQueued]
    cases hphase : job.phase <;> simp_all
  simp only [Pool.work,Pool.inFlight] at hwork
  omega

/-- The second call waits while the first one has the permit. -/
theorem waits_end_two : ∃ pool log,run step (start 1) (twoCalls.take 5)=some (pool,log) ∧
    step pool (.on 1 .acquire)=none ∧
    (Enabled pool (.on 1 .join) ∨ ∃ act : Act ℕ ℕ,IsTask act ∧ Enabled pool act) :=
  ⟨_,_,rfl,rfl,(waits_end 1 (by decide) (twoCalls.take 5) _ _ rfl).1 1 _ rfl rfl⟩

end Progress

end InterpretThis.Tools
