import InterpretThis.Eval.Entry
import Mathlib.Logic.Relation
import Mathlib.Logic.Nontrivial.Basic

namespace InterpretThis.Eval

open Ast Scope

variable {V : Type} (cfg : Config V)

section Calls

/-- What a body does to the bindings, one step at a time: it writes names that one of its
statements binds or that a receiver is written back to, moves cells, or calls functions, which
leave the variables alone but for the names in `escapes`, those that the callees declare `global`
or `nonlocal`. -/
inductive BodyStep (names escapes : List String) : Scope V → Scope V → Prop
  | bind (σ : Scope V) (n : String) (v : V) (hn : n∈names) :
      BodyStep names escapes σ (σ.setVariable cfg n v).1
  | augment (σ : Scope V) (n : String) (v : V) (hn : n∈names) :
      BodyStep names escapes σ (σ.put n (some v))
  | delete (σ : Scope V) (n : String) (hn : n∈names) :
      BodyStep names escapes σ (σ.deleteVariable cfg n)
  | capture (σ σ' : Scope V) (h : σ'.vars=σ.vars) : BodyStep names escapes σ σ'
  | call (σ σ' : Scope V) (h : ∀x, x∉escapes → σ'.vars x=σ.vars x) : BodyStep names escapes σ σ'

def BodyRun (names escapes : List String) : Scope V → Scope V → Prop :=
  Relation.ReflTransGen (BodyStep cfg names escapes)

/-- `call_user_function`: the scopes it can leave behind. `receivers` are the variables over which
the body, after a method, comparison, setter or `super` call on the instance there, writes another
value back (`def m(self): self = 5`). -/
inductive FunctionCall (f : FunctionScope V) (locals : List (String×V))
    (receivers escapes : List String) (σ : Scope V) : Scope V → Prop
  -- the recursion limit, or arguments that do not bind
  | refused : FunctionCall f locals receivers escapes σ σ
  | trivial {τ : Scope V} (h : isTrivial locals f=true)
      (hrun : BodyRun cfg (bodyBinds f.body++receivers) escapes σ.pushOwners τ) :
      FunctionCall f locals receivers escapes σ τ.popOwners
  | unscoped {τ : Scope V} (h : isTrivial locals f=false)
      (hscope : applyFunctionScope cfg locals f σ.pushOwners=(τ,false)) :
      FunctionCall f locals receivers escapes σ (restore (touched cfg f σ) σ τ).popOwners
  | suspended {τ : Scope V} (h : isTrivial locals f=false)
      (hscope : applyFunctionScope cfg locals f σ.pushOwners=(τ,true)) :
      FunctionCall f locals receivers escapes σ
        (restore (touched cfg f σ) σ (writebackNonlocalCell f τ)).popOwners
  | ran {τ υ : Scope V} (h : isTrivial locals f=false) (hg : f.isSuspended=false)
      (hscope : applyFunctionScope cfg locals f σ.pushOwners=(τ,true))
      (hrun : BodyRun cfg (bodyBinds f.body++receivers) escapes τ υ) :
      FunctionCall f locals receivers escapes σ
        (restore (touched cfg f σ) σ (writebackNonlocalCell f υ)).popOwners

/-- `call_lambda`: no frame of owned cells is pushed. -/
inductive LambdaCall (f : LambdaScope V) (locals : List (String×V))
    (receivers escapes : List String) (σ : Scope V) : Scope V → Prop
  | refused : LambdaCall f locals receivers escapes σ σ
  | unscoped {τ : Scope V} (hscope : applyLambdaScope cfg locals f σ=(τ,false)) :
      LambdaCall f locals receivers escapes σ (restore (lambdaTouched cfg f σ) σ τ)
  | ran {τ υ : Scope V} (hscope : applyLambdaScope cfg locals f σ=(τ,true))
      (hrun : BodyRun cfg (binds f.body++receivers) escapes τ υ) :
      LambdaCall f locals receivers escapes σ (restore (lambdaTouched cfg f σ) σ υ)

/-- The names a call may change: what the body declares `global`, what it declares `nonlocal`
if the frame on top owns its cell, and what the functions it calls may change. -/
def Exempt (f : FunctionScope V) (escapes : List String) (σ : Scope V) (x : String) : Prop :=
  x∈f.globalNames ∨ (x∈f.nonlocalNames ∧ ∃id, f.cellId=some id ∧ σ.owner x=some id) ∨ x∈escapes

/-- Every name that a call of the function writes is put back on exit: a trivial frame writes
none, and of any other frame neither the entry, as far as the memory limit lets it come, nor
then the body writes a name outside the checkpoint. -/
def Contained (f : FunctionScope V) (locals : List (String×V)) (receivers escapes : List String)
    (σ : Scope V) : Prop :=
  ∀x, ¬Exempt f escapes σ x → if isTrivial locals f then x∉bodyBinds f.body++receivers
    else x∉touched cfg f σ →
      laid (reached cfg (entryWrites cfg locals f σ) σ) σ.vars x=σ.vars x ∧
      (fits cfg (entryWrites cfg locals f σ) σ=true → f.isSuspended=false →
        x∉bodyBinds f.body++receivers)

def LambdaContained (f : LambdaScope V) (locals : List (String×V)) (receivers escapes : List String)
    (σ : Scope V) : Prop :=
  ∀x, x∉escapes → x∉lambdaTouched cfg f σ →
    laid (reached cfg (lambdaWrites cfg locals f σ) σ) σ.vars x=σ.vars x ∧
    (fits cfg (lambdaWrites cfg locals f σ) σ=true → x∉binds f.body++receivers)

end Calls

section Frames

theorem step_keeps {names escapes : List String} {σ τ : Scope V} {x : String}
    (h : BodyStep cfg names escapes σ τ) (hx : x∉names) (he : x∉escapes) : τ.vars x=σ.vars x := by
  have hne : ∀n∈names, x≠n := fun n hn heq => hx (heq ▸ hn)
  cases h with
  | bind n v hn => rw [setVariable_vars,if_neg (hne n hn)]
  | augment n v hn => rw [put_vars,if_neg (hne n hn)]
  | delete n hn => rw [deleteVariable_vars,if_neg (hne n hn)]
  | capture _ h => rw [h]
  | call _ h => exact h x he

theorem run_keeps {names escapes : List String} {σ τ : Scope V} {x : String}
    (h : BodyRun cfg names escapes σ τ) (hx : x∉names) (he : x∉escapes) : τ.vars x=σ.vars x := by
  induction h with
  | refl => rfl
  | tail _ hstep ih => exact (step_keeps cfg hstep hx he).trans ih

theorem run_changes [Nontrivial V] {names : List String} (escapes : List String) (σ : Scope V)
    {x : String} (hx : x∈names) (before : Option V) :
    ∃τ, BodyRun cfg names escapes σ τ ∧ τ.vars x≠before := by
  obtain ⟨v,w,hvw⟩ := exists_pair_ne V
  have hset : ∀u, BodyRun cfg names escapes σ (σ.setVariable cfg x u).1 :=
    fun u => .single (.bind σ x u hx)
  by_cases hv : before=some v
  · refine ⟨_,hset w,?_⟩
    rw [setVariable_vars,if_pos rfl,hv]
    simpa using hvw.symm
  · refine ⟨_,hset v,?_⟩
    rw [setVariable_vars,if_pos rfl]
    exact fun h => hv h.symm

end Frames

section Isolation

variable (receivers escapes : List String) (σ : Scope V) (locals : List (String×V))

theorem exit_vars (names : List String) (before σ : Scope V) {x : String} (hx : x∉names) :
    (restore names before σ).vars x=σ.vars x := by
  rw [restore_vars,if_neg hx]

theorem exit_restored (names : List String) (before σ : Scope V) {x : String} (hx : x∈names) :
    (restore names before σ).vars x=before.vars x := by
  rw [restore_vars,if_pos hx]

theorem exit_written (f : FunctionScope V) (names : List String) (before σ : Scope V) {x : String}
    (hx : x∉names) : (restore names before (writebackNonlocalCell f σ)).vars x=σ.vars x := by
  rw [exit_vars names before _ hx,writeback_vars]

theorem isolated_of_contained (f : FunctionScope V) (h : Contained cfg f locals receivers escapes σ)
    {σ' : Scope V} (hcall : FunctionCall cfg f locals receivers escapes σ σ') {x : String}
    (hx : ¬Exempt f escapes σ x) : σ'.vars x=σ.vars x := by
  have hescape : x∉escapes := fun he => hx (.inr (.inr he))
  have hcontained := h x hx
  obtain ⟨hvars,hflag⟩ := functionEntry_eq cfg locals σ f
  cases hcall with
  | refused => rfl
  | trivial ht hrun =>
    rw [if_pos ht] at hcontained
    have hbody := run_keeps cfg hrun hcontained hescape
    exact hbody
  | unscoped ht hscope =>
    rw [ht,if_neg Bool.false_ne_true,← hvars,← hflag,hscope] at hcontained
    by_cases hin : x∈touched cfg f σ
    · exact exit_restored _ σ _ hin
    · exact (exit_vars _ σ _ hin).trans (hcontained hin).1
  | suspended ht hscope =>
    rw [ht,if_neg Bool.false_ne_true,← hvars,← hflag,hscope] at hcontained
    by_cases hin : x∈touched cfg f σ
    · exact exit_restored _ σ _ hin
    · exact (exit_written f _ σ _ hin).trans (hcontained hin).1
  | ran ht hg hscope hrun =>
    rw [ht,if_neg Bool.false_ne_true,← hvars,← hflag,hscope] at hcontained
    by_cases hin : x∈touched cfg f σ
    · exact exit_restored _ σ _ hin
    · have hbody := run_keeps cfg hrun ((hcontained hin).2 rfl hg) hescape
      exact ((exit_written f _ σ _ hin).trans hbody).trans (hcontained hin).1

theorem contained_of_isolated [Nontrivial V] (f : FunctionScope V)
    (h : ∀σ', FunctionCall cfg f locals receivers escapes σ σ' → ∀x, ¬Exempt f escapes σ x →
      σ'.vars x=σ.vars x) : Contained cfg f locals receivers escapes σ := by
  intro x hx
  obtain ⟨hvars,hflag⟩ := functionEntry_eq cfg locals σ f
  rw [← hvars,← hflag]
  cases ht : isTrivial locals f with
  | true =>
    rw [if_pos rfl]
    intro hb
    obtain ⟨τ,hrun,hne⟩ := run_changes cfg escapes σ.pushOwners hb (σ.vars x)
    exact hne (h _ (.trivial ht hrun) x hx)
  | false =>
    rw [if_neg Bool.false_ne_true]
    intro hout
    cases hscope : applyFunctionScope cfg locals f σ.pushOwners with
    | mk τ ok =>
      cases ok with
      | false =>
        have hleft := h _ (.unscoped ht hscope) x hx
        have hexit := exit_vars _ σ τ hout
        exact ⟨hexit.symm.trans hleft,fun hok => absurd hok Bool.false_ne_true⟩
      | true =>
        have hleft := h _ (.suspended ht hscope) x hx
        have hexit := exit_written f _ σ τ hout
        refine ⟨hexit.symm.trans hleft,fun _ hg hb => ?_⟩
        obtain ⟨υ,hrun,hne⟩ := run_changes cfg escapes τ hb (σ.vars x)
        have hran := h _ (.ran ht hg hscope hrun) x hx
        have hexit := exit_written f _ σ υ hout
        exact hne (hexit.symm.trans hran)

theorem lambdaIsolated_of_contained (f : LambdaScope V)
    (h : LambdaContained cfg f locals receivers escapes σ) {σ' : Scope V}
    (hcall : LambdaCall cfg f locals receivers escapes σ σ') {x : String} (hx : x∉escapes) :
    σ'.vars x=σ.vars x := by
  have hcontained := h x hx
  obtain ⟨hvars,hflag⟩ := lambdaEntry_eq cfg locals σ f
  cases hcall with
  | refused => rfl
  | unscoped hscope =>
    rw [← hvars,← hflag,hscope] at hcontained
    by_cases hin : x∈lambdaTouched cfg f σ
    · exact exit_restored _ σ _ hin
    · exact (exit_vars _ σ _ hin).trans (hcontained hin).1
  | ran hscope hrun =>
    rw [← hvars,← hflag,hscope] at hcontained
    by_cases hin : x∈lambdaTouched cfg f σ
    · exact exit_restored _ σ _ hin
    · have hbody := run_keeps cfg hrun ((hcontained hin).2 rfl) hx
      exact ((exit_vars _ σ _ hin).trans hbody).trans (hcontained hin).1

theorem contained_of_lambdaIsolated [Nontrivial V] (f : LambdaScope V)
    (h : ∀σ', LambdaCall cfg f locals receivers escapes σ σ' → ∀x, x∉escapes → σ'.vars x=σ.vars x) :
    LambdaContained cfg f locals receivers escapes σ := by
  intro x hx hout
  obtain ⟨hvars,hflag⟩ := lambdaEntry_eq cfg locals σ f
  rw [← hvars,← hflag]
  cases hscope : applyLambdaScope cfg locals f σ with
  | mk τ ok =>
    cases ok with
    | false =>
      have hleft := h _ (.unscoped hscope) x hx
      exact ⟨(exit_vars _ σ τ hout).symm.trans hleft,fun hok => absurd hok Bool.false_ne_true⟩
    | true =>
      have hleft := h _ (.ran hscope .refl) x hx
      refine ⟨(exit_vars _ σ τ hout).symm.trans hleft,fun _ hb => ?_⟩
      obtain ⟨υ,hrun,hne⟩ := run_changes cfg escapes τ hb (σ.vars x)
      have hran := h _ (.ran hscope hrun) x hx
      exact hne ((exit_vars _ σ υ hout).symm.trans hran)

/-- A call leaves the bindings of its caller alone exactly where everything it writes is put
back: names that only `match` patterns, `except*` or uncollected walruses bind are not. -/
theorem calls_isolated [Nontrivial V] (f : FunctionScope V) (g : LambdaScope V) :
    ((∀σ', FunctionCall cfg f locals receivers escapes σ σ' → ∀x, ¬Exempt f escapes σ x →
      σ'.vars x=σ.vars x) ↔ Contained cfg f locals receivers escapes σ) ∧
    ((∀σ', LambdaCall cfg g locals receivers escapes σ σ' → ∀x, x∉escapes → σ'.vars x=σ.vars x) ↔
      LambdaContained cfg g locals receivers escapes σ) := by
  refine ⟨⟨?_,?_⟩,⟨?_,?_⟩⟩
  · exact contained_of_isolated cfg receivers escapes σ locals f
  · intro h σ' hcall x hx
    exact isolated_of_contained cfg receivers escapes σ locals f h hcall hx
  · exact contained_of_lambdaIsolated cfg receivers escapes σ locals g
  · intro h σ' hcall x hx
    exact lambdaIsolated_of_contained cfg receivers escapes σ locals g h hcall hx

/-- A caller's frame where `y` is 1. -/
def callerScope : Scope Nat := Scope.empty.put "y" (some 1)

/-- `def f(a): b = a`. -/
def plainAssign : FunctionScope Nat where
  params := ["a"]
  closure := []
  cellId := none
  cellRefreshes := []
  isModuleLevel := true
  isGenerator := false
  suspends := false
  body := [.mk .assign .body [] [.mk .name .target ["b"] [],.mk .name .value ["a"] []]]
  closureKeys := by decide
  refreshKeys := List.nodup_nil

/-- `lambda a: a`. -/
def identityLambda : LambdaScope Nat where
  params := ["a"]
  closure := []
  cellRefreshes := []
  isModuleLevel := true
  body := .mk .name .value ["a"] []
  closureKeys := by decide
  refreshKeys := List.nodup_nil

theorem calls_isolated_plain :
    (∀σ', FunctionCall unitConfig plainAssign [("a",2)] ["a"] [] callerScope σ' →
      ∀x, ¬Exempt plainAssign [] callerScope x → σ'.vars x=callerScope.vars x) ∧
    (∀σ', LambdaCall unitConfig identityLambda [("a",2)] ["a"] [] callerScope σ' →
      ∀x, x∉([] : List String) → σ'.vars x=callerScope.vars x) := by
  obtain ⟨hfun,hlambda⟩ := calls_isolated unitConfig ["a"] [] callerScope [("a",2)]
    plainAssign identityLambda
  refine ⟨hfun.mpr ?_,hlambda.mpr ?_⟩
  · intro x _
    have htrivial : isTrivial [("a",2)] plainAssign=false := by decide
    have htouched : touched unitConfig plainAssign callerScope=["a","b"] := by decide
    have hbinds : bodyBinds plainAssign.body++["a"]=["b","a"] := by decide
    have hreached : reached unitConfig (entryWrites unitConfig [("a",2)] plainAssign callerScope)
        callerScope=[("a",2)] := by decide
    rw [htrivial,if_neg Bool.false_ne_true,htouched,hbinds,hreached]
    intro hx
    simp only [List.mem_cons,List.not_mem_nil,or_false,not_or] at hx ⊢
    refine ⟨?_,fun _ _ => ⟨hx.2,hx.1⟩⟩
    simp [laid,List.lookup_cons,beq_eq_false_iff_ne.mpr hx.1]
  · intro x _
    have htouched : lambdaTouched unitConfig identityLambda callerScope=["a"] := by decide
    have hbinds : binds identityLambda.body++["a"]=["a"] := by decide
    have hreached : reached unitConfig (lambdaWrites unitConfig [("a",2)] identityLambda callerScope)
        callerScope=[("a",2)] := by decide
    rw [htouched,hbinds,hreached]
    intro hx
    simp only [List.mem_cons,List.not_mem_nil,or_false] at hx ⊢
    refine ⟨?_,fun _ => hx⟩
    simp [laid,List.lookup_cons,beq_eq_false_iff_ne.mpr hx]

/-- `def f(a): match a: case y: pass`. -/
def matchCapture : FunctionScope Nat where
  params := ["a"]
  closure := []
  cellId := none
  cellRefreshes := []
  isModuleLevel := true
  isGenerator := false
  suspends := false
  body := [.mk .match .body [] [.mk .name .value ["a"] [],
    .mk .matchCase .part [] [.mk .matchAs .part ["y"] [],.mk .pass .body [] []]]]
  closureKeys := by decide
  refreshKeys := List.nodup_nil

/-- A call of it rebinds the `y` of the caller. -/
theorem match_capture_leaks :
    ∃σ', FunctionCall unitConfig matchCapture [("a",2)] [] [] callerScope σ' ∧
      ¬Exempt matchCapture [] callerScope "y" ∧ callerScope.vars "y"=some 1 ∧
      σ'.vars "y"=some 2 := by
  have hout : "y"∉touched unitConfig matchCapture callerScope := by decide
  have hbinds : "y"∈bodyBinds matchCapture.body++[] := by decide
  have htrivial : isTrivial [("a",2)] matchCapture=false := by decide
  obtain ⟨τ,hscope⟩ : ∃τ, applyFunctionScope unitConfig [("a",2)] matchCapture
      callerScope.pushOwners=(τ,true) := ⟨_,Prod.ext rfl (by decide)⟩
  have hrun : BodyRun unitConfig (bodyBinds matchCapture.body++[]) [] τ
      (τ.setVariable unitConfig "y" 2).1 := .single (.bind τ "y" 2 hbinds)
  refine ⟨_,.ran htrivial rfl hscope hrun,?_,rfl,?_⟩
  · rintro (h | ⟨h,-⟩ | h)
    · exact absurd h (by decide)
    · exact absurd h (by decide)
    · exact absurd h List.not_mem_nil
  · have hset := setVariable_vars unitConfig τ "y" "y" 2
    have hexit := exit_written matchCapture _ callerScope (τ.setVariable unitConfig "y" 2).1 hout
    exact hexit.trans hset

end Isolation

end InterpretThis.Eval
