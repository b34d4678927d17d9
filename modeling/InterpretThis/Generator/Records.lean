import InterpretThis.Generator.Runs
import Mathlib.Data.List.Perm.Basic

namespace InterpretThis.Generator

open Resumption

section Again

variable {W V X L A : Type}

/-- A part that is run again from its start after every answer. -/
def again (mark : Cell V X → Cell V X) (m : Comp Empty (Cell V X×W) (Signal V X) A) :
    Nat → Comp V (Cell V X×W) (Signal V X) A
  | 0 => Comp.diverge
  | fuel+1 => fun s =>
    match m s with
    | .done (.error (.yielded v)) t => .ask v (mark t.1,t.2) (again mark m fuel)
    | .done r t => .done r t
    | .diverge => .diverge

/-- Every part of a body as the engine evaluates it. -/
def againEvaluator (E : Effects W V X L) (fuel : Nat) : Evaluator W V X L where
  stmt s := again (fun c => {c with resumeAtYield := true}) (evalStmt E (suspendedly E) fuel s) fuel
  test e := again id (evalTest E (suspendedly E) e) fuel
  iter e := again id (evalExpr E (suspendedly E) e) fuel
  items l := again id (enterItems E (suspendedly E) l []) fuel

theorem redoes_again (mark : Cell V X → Cell V X) (m : Comp Empty (Cell V X×W) (Signal V X) A)
    (fuel : Nat) (t : Cell V X×W) : Redoes (fun _ => True) mark m (again mark m fuel t) (m t) := by
  induction fuel generalizing t with
  | zero => exact trivial
  | succ fuel ih =>
    unfold again
    cases hm : m t with
    | done r u =>
      cases r with
      | ok a => exact ⟨rfl,settled_ok a,trivial⟩
      | error e =>
        cases e with
        | yielded v => exact ⟨u.1,rfl,rfl,fun x _ => ih x⟩
        | _ => exact ⟨rfl,fun v h => (nomatch h),trivial⟩
    | ask y u k => exact y.elim
    | diverge => exact trivial

theorem adequate_again (E : Effects W V X L) (fuel : Nat) :
    Adequate E fuel (fun _ => True) (againEvaluator E fuel) where
  cleared _ := trivial
  stmt _ _ _ := redoes_again _ _ _ _
  test _ _ _ := redoes_again _ _ _ _
  iter _ _ _ := redoes_again _ _ _ _
  items _ _ _ := redoes_again _ _ _ _

end Again

section Keys

variable {V X : Type}

theorem Regs.keys_nodup (g : Regs V X) : g.keys.Nodup := by
  refine List.Nodup.append ?_ ?_ ?_
  · exact g.loops.forStack.keys_nodup.map fun _ _ h => LoopKey.forLoop.inj h
  · exact g.loops.whileResume.keys_nodup.map fun _ _ h => LoopKey.whileLoop.inj h
  · intro key hf hw
    obtain ⟨_,_,rfl⟩ := List.mem_map.mp hf
    obtain ⟨_,_,h⟩ := List.mem_map.mp hw
    cases h

theorem Regs.mem_keys (g : Regs V X) (key : LoopKey) : key ∈ g.keys ↔ g.recorded key=true := by
  cases key with
  | forLoop target => simp [Regs.keys,Regs.recorded,AList.lookup_isSome,AList.mem_keys]
  | whileLoop offset => simp [Regs.keys,Regs.recorded,AList.lookup_isSome,AList.mem_keys]

theorem Regs.keys_of_added {g g' : Regs V X} {key : LoopKey}
    (h : ∀k, g'.recorded k=true ↔ k=key ∨ g.recorded k=true) :
    g'.keys.Perm (key::g.keys.erase key) := by
  have hn := g.keys_nodup
  have hcons : (key::g.keys.erase key).Nodup := List.nodup_cons.mpr ⟨hn.not_mem_erase,hn.erase _⟩
  refine (List.perm_ext_iff_of_nodup g'.keys_nodup hcons).mpr fun k => ?_
  rw [Regs.mem_keys,h,List.mem_cons,hn.mem_erase_iff,Regs.mem_keys]
  tauto

theorem Regs.keys_of_removed {g g' : Regs V X} {key : LoopKey}
    (h : ∀k, g'.recorded k=true ↔ k≠key ∧ g.recorded k=true) :
    g'.keys.Perm (g.keys.erase key) := by
  have hn := g.keys_nodup
  refine (List.perm_ext_iff_of_nodup g'.keys_nodup (hn.erase _)).mpr fun k => ?_
  rw [Regs.mem_keys,h,hn.mem_erase_iff,Regs.mem_keys]

theorem Regs.keys_saveFor (target : String) (st : ForState V) (g : Regs V X) :
    (g.saveFor target st).keys.Perm (.forLoop target::g.keys.erase (.forLoop target)) := by
  refine Regs.keys_of_added fun k => ?_
  cases k with
  | forLoop t => simp [Regs.recorded,Regs.saveFor,AList.lookup_isSome,AList.mem_insert]
  | whileLoop o => simp [Regs.recorded,Regs.saveFor]

theorem Regs.keys_saveWhile (offset index : Nat) (g : Regs V X) :
    (g.saveWhile offset index).keys.Perm
      (.whileLoop offset::g.keys.erase (.whileLoop offset)) := by
  refine Regs.keys_of_added fun k => ?_
  cases k with
  | forLoop t => simp [Regs.recorded,Regs.saveWhile]
  | whileLoop o => simp [Regs.recorded,Regs.saveWhile,AList.lookup_isSome,AList.mem_insert]

theorem Regs.keys_removeFor (target : String) (g : Regs V X) :
    (g.removeFor target).keys.Perm (g.keys.erase (.forLoop target)) := by
  refine Regs.keys_of_removed fun k => ?_
  cases k with
  | forLoop t => simp [Regs.recorded,Regs.removeFor,AList.lookup_isSome,AList.mem_erase]
  | whileLoop o => simp [Regs.recorded,Regs.removeFor]

theorem Regs.keys_removeWhile (offset : Nat) (g : Regs V X) :
    (g.removeWhile offset).keys.Perm (g.keys.erase (.whileLoop offset)) := by
  refine Regs.keys_of_removed fun k => ?_
  cases k with
  | forLoop t => simp [Regs.recorded,Regs.removeWhile]
  | whileLoop o => simp [Regs.recorded,Regs.removeWhile,AList.lookup_isSome,AList.mem_erase]

theorem Regs.keys_advanceFor (target : String) (pos : Nat) (g : Regs V X) :
    (g.advanceFor target pos).keys.Perm g.keys := by
  unfold Regs.advanceFor
  cases h : g.loops.forStack.lookup target with
  | none => exact .refl _
  | some st =>
    have hm : .forLoop target ∈ g.keys := (g.mem_keys _).mpr (by simp [Regs.recorded,h])
    exact (Regs.keys_saveFor _ _ _).trans (List.perm_cons_erase hm).symm

theorem Regs.erase_of_not_recorded {g : Regs V X} {key : LoopKey} (h : g.recorded key=false) :
    g.keys.erase key=g.keys :=
  List.erase_of_not_mem fun hm => by rw [(g.mem_keys key).mp hm] at h; cases h

end Keys

section Balance

variable {W V X A B : Type}

/-- At every suspension of a course the loops with a record are those that it has entered and those
of `K`, which stand around it; the ones around it may have changed when it goes on, but none has the
name of one inside. `Q` holds of the end, of the loops that have a record then and of `K`. -/
def Balanced (Q : Except (Signal V X) A → List LoopKey → List LoopKey → Prop) :
    Process (Suspension V) (Regs V X×W) (Except (Signal V X) A) → List LoopKey → Prop
  | .done r s,K => Q r s.1.keys K
  | .ask y s k,K => y.entered ⊆ y.names ∧ s.1.keys.Perm (y.entered++K) ∧
      ∀K' t, (∀key ∈ y.names, key ∉ K') → t.1.keys.Perm (y.entered++K') → Balanced Q (k t) K'
  | .diverge,_ => True

/-- The records are as they were. -/
def evenly (_ : Except (Signal V X) A) (keys K : List LoopKey) : Prop := keys.Perm K

/-- A loop that is left by an exception or a return may have left its record. -/
def loosely (key : LoopKey) : Except (Signal V X) A → List LoopKey → List LoopKey → Prop
  | .ok _,keys,K => keys.Perm K
  | .error _,keys,K => (keys.erase key).Perm K

def Balances (m : Course W V X A) : Prop :=
  ∀s K, s.1.keys.Perm K → Balanced evenly (m s) K

variable {Q : Except (Signal V X) A → List LoopKey → List LoopKey → Prop}
  {Q' : Except (Signal V X) B → List LoopKey → List LoopKey → Prop}
  {K : List LoopKey} {p : Process (Suspension V) (Regs V X×W) (Except (Signal V X) A)}
  {f : Except (Signal V X) A → Regs V X×W →
    Process (Suspension V) (Regs V X×W) (Except (Signal V X) B)}

theorem Balanced.bind (h : Balanced Q p K) (hf : ∀r s K, Q r s.1.keys K → Balanced Q' (f r s) K) :
    Balanced Q' (p.bind f) K := by
  induction p generalizing K with
  | done r s => exact hf r s K h
  | ask y s k ih => exact ⟨h.1,h.2.1,fun K' t hd ht => ih t (h.2.2 K' t hd ht)⟩
  | diverge => exact trivial

/-- The rule for a loop: the body balances the records around it, the loop's own among them once it
has one. -/
theorem Balanced.inLoop {key : LoopKey} {save : Nat → Regs V X → Regs V X}
    {wake : Nat → W → Option W} (hsave : ∀i g, (save i g).keys.Perm (key::g.keys.erase key))
    (hf : ∀r s K, (s.1.keys.erase key).Perm K → Balanced Q' (f r s) K) {K₀ K : List LoopKey}
    (h : Balanced evenly p K₀) (hK : (K₀.erase key).Perm K) :
    Balanced Q' ((p.intercept (Wrap.loop key save wake).ask).bind f) K := by
  induction p generalizing K₀ K with
  | done r s => exact hf r s K ((h.erase key).trans hK)
  | ask y s k ih =>
    simp only [Process.intercept,Wrap.ask,Wrap.loop,decide_eq_true_eq]
    by_cases hy : key ∈ y.names
    · rw [if_pos hy]
      exact trivial
    · rw [if_neg hy]
      obtain ⟨hsub,hkeys,hk⟩ := h
      have hentered : key ∉ y.entered := fun hm => hy (hsub hm)
      refine ⟨List.cons_subset_cons _ hsub,?_,fun K' t hd ht => ?_⟩
      · have herase : (s.1.keys.erase key).Perm (y.entered++K) := by
          refine (hkeys.erase key).trans ?_
          rw [List.erase_append_right _ hentered]
          exact hK.append_left _
        exact (hsave y.index s.1).trans (herase.cons key)
      · show Balanced Q' (((wake y.index t.2).elim .diverge fun w =>
          (k (t.1,w)).intercept (Wrap.loop key save wake).ask).bind f) K'
        cases wake y.index t.2 with
        | none => exact trivial
        | some w =>
          have ht' : t.1.keys.Perm (y.entered++key::K') := ht.trans List.perm_middle.symm
          have hd' : ∀k ∈ y.names, k ∉ key::K' := by
            intro k hk hm
            rcases List.mem_cons.mp hm with rfl | hm
            · exact hy hk
            · exact hd k (List.mem_cons_of_mem _ hk) hm
          exact ih (t.1,w) (hk (key::K') (t.1,w) hd' ht') (by rw [List.erase_cons_head])
  | diverge => exact trivial

theorem Balanced.relabel (b : Bool) {tag : Suspension V → Suspension V}
    (htag : ∀y, (tag y).entered=y.entered ∧ y.names ⊆ (tag y).names) (h : Balanced Q p K) :
    Balanced Q (p.intercept fun y s k => if b then .diverge else .ask (tag y) s k) K := by
  induction p generalizing K with
  | done r s => exact h
  | ask y s k ih =>
    cases b with
    | true => exact trivial
    | false =>
      obtain ⟨he,hn⟩ := htag y
      obtain ⟨hsub,hkeys,hk⟩ := h
      have hsub' : (tag y).entered ⊆ (tag y).names := by
        rw [he]
        exact fun _ hm => hn (hsub hm)
      refine ⟨hsub',by rw [he]; exact hkeys,fun K' t hd ht => ?_⟩
      rw [he] at ht
      exact ih t (hk K' t (fun key hm => hd key (hn hm)) ht)
  | diverge => exact trivial

theorem Plainly.bind_balanced {c : ∀Y S : Type, Comp Y (S×W) (Signal V X) A} (hc : Plainly c)
    {f : A → Course W V X B} {g : Regs V X} (w : W) (herror : ∀e, Q' (.error e) g.keys K)
    (hf : ∀a w', Balanced Q' (f a (g,w')) K) :
    Balanced Q' ((c (Suspension V) (Regs V X)>>=f) (g,w)) K := by
  obtain ⟨r,w',_,h⟩ := hc w
  cases r with
  | ok a =>
    rw [Comp.bind_of_done (h _ _ g)]
    exact hf a w'
  | error e =>
    rw [Comp.bind_of_error (h _ _ g)]
    exact herror e

theorem Plainly.balances {c : ∀Y S : Type, Comp Y (S×W) (Signal V X) A} (hc : Plainly c) :
    Balances (c (Suspension V) (Regs V X)) := by
  intro s K hs
  obtain ⟨r,w',_,h⟩ := hc s.2
  rw [show c (Suspension V) (Regs V X) s=.done r (s.1,w') from h _ _ s.1]
  exact hs

theorem balances_pure (a : A) : Balances (pure a : Course W V X A) := fun _ _ hs => hs

theorem balances_throw (e : Signal V X) : Balances (Comp.throw e : Course W V X A) :=
  fun _ _ hs => hs

theorem balances_giveUpIf (b : Bool) : Balances (giveUpIf b : Course W V X Unit) := by
  cases b with
  | true => exact fun _ _ _ => trivial
  | false => exact balances_pure ()

theorem balances_changeRegs {f : Regs V X → Regs V X} (hf : ∀g, (f g).keys.Perm g.keys) :
    Balances (changeRegs f : Course W V X Unit) := fun s _ hs => (hf s.1).trans hs

theorem Balances.bind {m : Course W V X A} (h : Balances m) {f : A → Course W V X B}
    (hf : ∀a, Balances (f a)) : Balances (m>>=f) := by
  intro s K hs
  refine (h s K hs).bind fun r t K ht => ?_
  cases r with
  | ok a => exact hf a t K ht
  | error e => exact ht

theorem Balances.attempt_bind {m : Course W V X A} (h : Balances m)
    {f : Except (Signal V X) A → Course W V X B} (hf : ∀r, Balances (f r)) :
    Balances (m.attempt>>=f) := by
  intro s K hs
  rw [Comp.attempt_bind]
  exact (h s K hs).bind fun r t K ht => hf r t K ht

theorem Balances.relabel (b : Bool) (tag : Suspension V → Suspension V)
    (htag : ∀y, (tag y).entered=y.entered ∧ y.names ⊆ (tag y).names) {m : Course W V X A}
    (h : Balances m) :
    Balances (m.intercept fun y s k => if b then .diverge else .ask (tag y) s k) :=
  fun s K hs => (h s K hs).relabel b htag

theorem balances_inRegs (m : Comp V (Cell V X×W) (Signal V X) A) : Balances (inRegs m) := by
  intro s K hs
  unfold inRegs Comp.within
  generalize m (s.1.cell,s.2)=p
  generalize s.1=g at hs
  induction p generalizing g K with
  | done r t => exact hs
  | ask v t k ih => exact ⟨List.nil_subset _,hs,fun K' u _ hu => ih (u.1.cell,u.2) K' u.1 hu⟩
  | diverge => exact trivial

theorem balances_atIndex (i : Nat) {m : Course W V X A} (h : Balances m) :
    Balances (atIndex i m) :=
  h.relabel false (fun y => {y with index := i}) fun _ => ⟨rfl,fun _ hm => hm⟩

theorem ahead_balanced (key : LoopKey) (m : Comp V (Cell V X×W) (Signal V X) A) {s : Regs V X×W}
    (hs : s.1.keys.Perm K) (hK : key ∉ K) :
    Balanced (fun _ keys K => keys.Perm K ∧ key ∉ K) (ahead key (inRegs m) s) K := by
  rw [ahead_inRegs]
  unfold Comp.within
  generalize m (s.1.cell,s.2)=p
  generalize s.1=g at hs
  induction p generalizing g K with
  | done r t => exact ⟨hs,hK⟩
  | ask v t k ih =>
    refine ⟨List.nil_subset _,hs,fun K' u hd hu => ?_⟩
    exact ih (u.1.cell,u.2) (hd key List.mem_cons_self) u.1 hu
  | diverge => exact trivial

theorem balances_unsuspended (b : Bool) {m : Course W V X A} (h : Balances m) :
    Balances (unsuspended b m) := h.relabel b id fun _ => ⟨rfl,fun _ hm => hm⟩

theorem balances_leaving {key : LoopKey} {m : Course W V X Unit}
    (h : ∀s K, s.1.keys.Perm K → Balanced (loosely key) (m s) K) :
    Balances (leaving true key m) := by
  intro s K hs
  refine (h s K hs).bind fun r t K ht => ?_
  cases r with
  | ok u => exact ht
  | error e =>
    simp only [Bool.true_and]
    cases hr : t.1.recorded key with
    | true => exact trivial
    | false =>
      have hkeys : (t.1.keys.erase key).Perm K := ht
      rwa [Regs.erase_of_not_recorded hr] at hkeys

theorem balances_finishCourse (watch : Watch W V X) {finalbody : Course W V X Unit}
    (h : Balances finalbody) (pending : Except (Signal V X) Unit) :
    Balances (finishCourse watch finalbody pending) := by
  intro s K hs
  have hb := h s K hs
  unfold finishCourse
  cases hp : finalbody s with
  | done r t =>
    rw [hp] at hb
    cases r with
    | ok u => exact hb
    | error e => exact hb
  | ask y t k =>
    rw [hp] at hb
    cases pending with
    | ok u => exact hb
    | error e =>
      simp only []
      cases watch.pending with
      | true => exact trivial
      | false => exact hb
  | diverge => exact trivial

end Balance

section Loops

variable {W V X L : Type} (E : Effects W V X L) (watch : Watch W V X)
  {body : Nat → Course W V X Unit}

variable {K : List LoopKey} {s : Regs V X×W}

theorem loose_round {key : LoopKey} {next stop : Course W V X Unit} {r : Except (Signal V X) Unit}
    (hs : (s.1.keys.erase key).Perm K) (hnext : Balanced (loosely key) (next s) K)
    (hstop : Balanced (loosely key) (stop s) K) :
    Balanced (loosely key) (courseRound next stop r s) K := by
  cases r with
  | ok u => exact hnext
  | error e =>
    cases e with
    | cont => exact hnext
    | brk => exact hstop
    | _ => exact hs

theorem loose_items (hb : ∀i, Balances (body i)) (skipped : Bool) (target : String)
    (items vs : List V) {pos index : Nat} (hs : (s.1.keys.erase (.forLoop target)).Perm K) :
    Balanced (loosely (.forLoop target))
      (itemsCourse E watch skipped target items body vs pos index s) K := by
  induction vs generalizing pos index s K with
  | nil =>
    unfold itemsCourse
    cases watch.skips&&skipped with
    | true => exact trivial
    | false => exact (Regs.keys_removeFor target s.1).trans hs
  | cons v vs ih =>
    refine (plainly_rebind E target v index).bind_balanced s.2 (fun _ => hs) fun _ w => ?_
    rw [Comp.attempt_bind,inLoop_eq]
    refine Balanced.inLoop (fun i g => Regs.keys_saveFor target _ g) (fun r t K ht => ?_)
      (hb index (s.1,w) s.1.keys (.refl _)) hs
    refine loose_round ht ?_ ((Regs.keys_removeFor target t.1).trans ht)
    exact ih (((Regs.keys_advanceFor target (pos+1) t.1).erase _).trans ht)

theorem loose_lazy (hb : ∀i, Balances (body i)) (skipped : Bool) (target : String) (source : V)
    (fuel : Nat) {o : Option (V×Nat)} (hs : (s.1.keys.erase (.forLoop target)).Perm K) :
    Balanced (loosely (.forLoop target))
      (lazyCourse E watch skipped target source body fuel o s) K := by
  induction fuel generalizing o s K with
  | zero => exact trivial
  | succ fuel ih =>
    refine (plainly_itemAt E target source o).bind_balanced s.2 (fun _ => hs) fun item w => ?_
    cases item with
    | none =>
      simp only []
      cases watch.skips&&skipped with
      | true => exact trivial
      | false => exact (Regs.keys_removeFor target s.1).trans hs
    | some item =>
      simp only []
      rw [Comp.attempt_bind,inLoop_eq]
      refine Balanced.inLoop (fun i g => Regs.keys_saveFor target _ g) (fun r t K ht => ?_)
        (hb item.2 (s.1,w) s.1.keys (.refl _)) hs
      exact loose_round ht (ih ht) ((Regs.keys_removeFor target t.1).trans ht)

theorem loose_while (hb : ∀i, Balances (body i)) {test : Course W V X Bool} (ht : Balances test)
    (skipped : Bool) (offset fuel : Nat) {o : Option Nat}
    (hs : (s.1.keys.erase (.whileLoop offset)).Perm K) :
    Balanced (loosely (.whileLoop offset))
      (whileCourse watch skipped offset (unsuspended true test) body fuel o s) K := by
  induction fuel generalizing o s K with
  | zero => exact trivial
  | succ fuel ih =>
    have round : ∀i (s : Regs V X×W), (s.1.keys.erase (.whileLoop offset)).Perm K →
        Balanced (loosely (.whileLoop offset))
          (((inLoop (.whileLoop offset) (Regs.saveWhile offset) (fun _ => some)
            (body i)).attempt>>=courseRound
              (whileCourse watch skipped offset (unsuspended true test) body fuel none)
              (changeRegs (Regs.removeWhile offset))) s) K := by
      intro i s hs
      rw [Comp.attempt_bind,inLoop_eq]
      refine Balanced.inLoop (fun j g => Regs.keys_saveWhile offset j g) (fun r t K ht => ?_)
        (hb i s s.1.keys (.refl _)) hs
      exact loose_round ht (ih ht) ((Regs.keys_removeWhile offset t.1).trans ht)
    cases o with
    | some i => exact round i s hs
    | none =>
      have htest := ht s s.1.keys (.refl _)
      unfold whileCourse
      simp only [Comp.bind_apply,unsuspended,Comp.intercept]
      cases hp : test s with
      | done r t =>
        rw [hp] at htest
        have hkeys : (t.1.keys.erase (.whileLoop offset)).Perm K := (htest.erase _).trans hs
        cases r with
        | error e => exact hkeys
        | ok go =>
          cases go with
          | true => exact round 0 t hkeys
          | false =>
            simp only [Process.intercept,Process.bind_done,Comp.next_ok]
            cases watch.skips&&skipped with
            | true => exact trivial
            | false => exact (Regs.keys_removeWhile offset t.1).trans hkeys
      | ask y t k => exact trivial
      | diverge => exact trivial

variable {watch} (hstale : watch.stale=true) (ev : Evaluator W V X L) (fuel : Nat)

include hstale

theorem loose_for (hb : ∀i, Balances (body i)) (skipped : Bool) (target : String) (iter : Expr L)
    (hs : s.1.keys.Perm K) :
    Balanced (loosely (.forLoop target))
      (forCourse E watch ev fuel skipped target iter body s) K := by
  unfold forCourse
  rw [seeRegs_bind]
  cases hl : s.1.loops.forStack.lookup target with
  | some st =>
    obtain ⟨items,pos,index,source,current⟩ := st
    cases source with
    | some source =>
      simp only [hstale]
      exact trivial
    | none =>
      simp only [hstale]
      exact trivial
  | none =>
    have hkey : .forLoop target ∉ s.1.keys := by
      rw [Regs.mem_keys]
      simp [Regs.recorded,hl]
    simp only []
    rw [Comp.bind_apply]
    refine (ahead_balanced (.forLoop target) (ev.iter iter) hs
      (fun hm => hkey (hs.symm.subset hm))).bind fun r t K ht => ?_
    have hloose : (t.1.keys.erase (.forLoop target)).Perm K := by
      rw [List.erase_of_not_mem fun hm => ht.2 (ht.1.subset hm)]
      exact ht.1
    cases r with
    | error e => exact hloose
    | ok iterable =>
      simp only [Comp.next_ok]
      cases E.isLazy iterable with
      | true => exact loose_lazy E watch hb skipped target iterable fuel hloose
      | false =>
        exact (plainly_liftE (E.iter iterable)).bind_balanced t.2 (fun _ => hloose) fun items w =>
          loose_items E watch hb skipped target items items hloose

theorem loose_runWhile (hb : ∀i, Balances (body i)) (skipped : Bool) (offset : Nat) (test : Expr L)
    (hs : s.1.keys.Perm K) :
    Balanced (loosely (.whileLoop offset))
      (runWhileCourse watch ev fuel skipped offset test body s) K := by
  unfold runWhileCourse
  rw [seeRegs_bind]
  cases hl : s.1.loops.whileResume.lookup offset with
  | some i =>
    simp only [hstale]
    exact trivial
  | none =>
    simp only [hstale]
    refine loose_while watch hb (balances_inRegs (ev.test test)) skipped offset fuel ?_
    rw [Regs.erase_of_not_recorded (by simp [Regs.recorded,hl])]
    exact hs

end Loops

section Courses

variable {W V X L : Type} (E : Effects W V X L) (watch : Watch W V X) (ev : Evaluator W V X L)
  (fuel : Nat)

theorem balances_directCourse (s : Stmt L) : Balances (directCourse watch ev s) :=
  balances_unsuspended _ (balances_inRegs _)

theorem balances_handlersCourse (x : X) {finalbody : Course W V X Unit} (hf : Balances finalbody)
    {handlers : List (Clause L (Course W V X Unit))} (hc : ∀c ∈ handlers, Balances c.body) :
    Balances (handlersCourse E watch x finalbody handlers) := by
  induction handlers with
  | nil => exact balances_finishCourse watch hf _
  | cons c cs ih =>
    have hcs := ih fun c hm => hc c (List.mem_cons_of_mem _ hm)
    refine (plainly_liftE (E.matchesHandler c.type x)).balances.bind fun b => ?_
    cases b with
    | false => exact hcs
    | true =>
      refine Balances.bind ?_ fun _ => ?_
      · intro s K hs
        exact balances_giveUpIf (watch.differ (caught E x s.2) x) s K hs
      refine (plainly_bindName E c.name (E.excValue x)).balances.bind fun _ => ?_
      refine (plainly_modifyW (E.pushException x)).balances.bind fun _ => ?_
      refine (hc c List.mem_cons_self).attempt_bind fun r => ?_
      refine (plainly_modifyW E.popException).balances.bind fun _ => ?_
      refine (plainly_unbindName E c.name).balances.bind fun _ => ?_
      refine Balances.bind ?_ fun _ => balances_finishCourse watch hf r
      unfold raisedContext
      split
      · exact balances_giveUpIf _
      · exact balances_pure ()

theorem balances_tryCourse {body orelse finalbody : Course W V X Unit} (hb : Balances body)
    (ho : Balances orelse) (hf : Balances finalbody)
    {handlers : List (Clause L (Course W V X Unit))} (hc : ∀c ∈ handlers, Balances c.body) :
    Balances (tryCourse E watch body orelse finalbody handlers) := by
  refine hb.attempt_bind fun r => ?_
  cases r with
  | ok u => exact ho.attempt_bind fun r => balances_finishCourse watch hf r
  | error e =>
    cases e with
    | exc x => exact balances_handlersCourse E watch x hf hc
    | _ => exact balances_finishCourse watch hf _

theorem balances_exitContextManagers (managers : List V) (r : Except (Signal V X) Unit) :
    Balances (exitContextManagers E managers r : Course W V X Unit) := by
  cases r with
  | ok u => exact (plainly_exitContextManagers E managers (settled_ok u)).balances
  | error e =>
    cases e with
    | exc x => exact (plainly_exitContextManagers E managers (settled_exc x)).balances
    | _ => exact (plainly_exitEach E _ _).balances.bind fun _ => balances_throw _

theorem balances_withCourse (items : List (Expr L×Option L)) {body : Course W V X Unit}
    (hb : Balances body) : Balances (withCourse E ev items body) := by
  refine (balances_inRegs (ev.items items)).bind fun managers => ?_
  exact hb.attempt_bind fun r => balances_exitContextManagers E managers r

theorem balances_ifCourse (test : Expr L) {body orelse : Course W V X Unit} (hb : Balances body)
    (ho : Balances orelse) : Balances (ifCourse ev test body orelse) := by
  refine (balances_inRegs (ev.test test)).bind fun b => ?_
  cases b with
  | true => exact hb
  | false => exact ho

theorem balances_courseFrom (ctx : Ctx) {ss : List (Stmt L)}
    (hs : ∀s ∈ ss, Balances (course E watch ev fuel s)) (start i : Nat) :
    Balances (courseFrom E watch ev fuel ctx start i ss) := by
  induction ss generalizing i with
  | nil => exact balances_pure ()
  | cons s ss ih =>
    have hrest := ih (fun s hm => hs s (List.mem_cons_of_mem _ hm)) (i+1)
    rw [courseFrom]
    by_cases hi : i<start
    · rw [if_pos hi]
      exact hrest
    · rw [if_neg hi]
      refine (balances_atIndex i ?_).bind fun _ => ?_
      · cases delegates ctx s with
        | true => exact hs s List.mem_cons_self
        | false => exact balances_directCourse watch ev s
      · refine (balances_changeRegs fun g => ?_).bind fun _ => hrest
        unfold Regs.cleared
        cases clears ctx s <;> exact .refl _

variable {watch}

mutual

theorem balances_course (hleaks : watch.leaks=true) (hstale : watch.stale=true) :
    ∀s : Stmt L, Balances (course E watch ev fuel s)
  | .simple kind l parts => balances_directCourse watch ev _
  | .ifStmt test body orelse =>
    balances_ifCourse ev test
      (balances_courseFrom E watch ev fuel .branch (balances_courses hleaks hstale body) 0 0)
      (balances_courseFrom E watch ev fuel .branch (balances_courses hleaks hstale orelse) 0 0)
  | .forStmt (.name id) iter body orelse => by
    rw [course,hleaks]
    exact balances_leaving fun s K hs => loose_for E hstale ev fuel
      (fun i => balances_courseFrom E watch ev fuel .forLoop (balances_courses hleaks hstale body) i 0)
      _ id iter hs
  | .forStmt (.other l) iter body orelse => balances_directCourse watch ev _
  | .whileStmt offset test body orelse => by
    rw [course,hleaks]
    exact balances_leaving fun s K hs => loose_runWhile hstale ev fuel
      (fun i =>
        balances_courseFrom E watch ev fuel .whileLoop (balances_courses hleaks hstale body) i 0)
      _ offset test hs
  | .tryStmt body handlers orelse finalbody =>
    balances_tryCourse E watch
      (balances_courseFrom E watch ev fuel .phase (balances_courses hleaks hstale body) 0 0)
      (balances_courseFrom E watch ev fuel .phase (balances_courses hleaks hstale orelse) 0 0)
      (balances_courseFrom E watch ev fuel .phase (balances_courses hleaks hstale finalbody) 0 0)
      (balances_clauses hleaks hstale handlers)
  | .withStmt items body =>
    balances_withCourse E ev items
      (balances_courseFrom E watch ev fuel .block (balances_courses hleaks hstale body) 0 0)
  | .blocks searched l bodies => balances_directCourse watch ev _

theorem balances_courses (hleaks : watch.leaks=true) (hstale : watch.stale=true) :
    ∀ss : List (Stmt L), ∀s ∈ ss, Balances (course E watch ev fuel s)
  | [] => fun _ h => (nomatch h)
  | s::ss => List.forall_mem_cons.mpr
      ⟨balances_course hleaks hstale s,balances_courses hleaks hstale ss⟩

theorem balances_clauses (hleaks : watch.leaks=true) (hstale : watch.stale=true) :
    ∀hs : List (Handler L), ∀c ∈ clauseCourses E watch ev fuel hs, Balances c.body
  | [] => fun _ h => (nomatch h)
  | .mk type name body::hs => List.forall_mem_cons.mpr
      ⟨balances_courseFrom E watch ev fuel .phase (balances_courses hleaks hstale body) 0 0,
        balances_clauses hleaks hstale hs⟩

end

end Courses

section Claim

variable {W V X L : Type}

/-- Where a balanced course stands, its loop records are those of the loops that it is in. -/
theorem Balanced.play {p : Process (Suspension V) (Regs V X×W) (Except (Signal V X) Unit)}
    (h : Balanced evenly p []) (as : List (Answer W V X)) :
    (∀s, (p.play (as.map Answer.onRegs)).2=.waiting s →
      ∃y, (p.play (as.map Answer.onRegs)).1.getLast?=some y ∧ s.1.keys.Perm y.entered) ∧
    ∀r s, (p.play (as.map Answer.onRegs)).2=.ended r s → s.1.keys=[] := by
  induction p generalizing as with
  | done r t =>
    refine ⟨fun s hs => (nomatch hs),fun r' s hs => ?_⟩
    cases hs
    exact h.eq_nil
  | ask y t k ih =>
    obtain ⟨_,hkeys,hk⟩ := h
    rw [List.append_nil] at hkeys
    cases as with
    | nil =>
      refine ⟨fun s hs => ?_,fun r s hs => (nomatch hs)⟩
      cases hs
      exact ⟨y,rfl,hkeys⟩
    | cons a as =>
      have hnext : Balanced evenly (k (a.onRegs t)) [] :=
        hk [] (a.onRegs t) (fun _ _ hm => (nomatch hm)) (by rw [List.append_nil]; exact hkeys)
      obtain ⟨hwait,hend⟩ := ih (a.onRegs t) hnext as
      refine ⟨fun s hs => ?_,hend⟩
      obtain ⟨z,hz,hperm⟩ := hwait s hs
      refine ⟨z,?_,hperm⟩
      show (y::((k (a.onRegs t)).play (as.map Answer.onRegs)).1).getLast?=some z
      rw [List.getLast?_cons,hz]
      rfl
  | diverge => exact ⟨fun s hs => (nomatch hs),fun r s hs => (nomatch hs)⟩

def Watch.loops : Watch W V X := {Watch.none with leaks := true, stale := true, hidden := true}

/-- As long as no loop is left by an exception or a return while it has a record, none is entered
or waits under a name that has another one, no `while` test is suspended and no loop that is
not stepped: the loop records are those of the loops that are suspended, each goes on
at its own item and statement, and each loop that is entered starts at its first item. -/
theorem records_of_suspended_loops (E : Effects W V X L) (fuel : Nat) (body : List (Stmt L))
    (as : List (Answer W V X)) (s : Regs V X×W) (hs : s.1.keys=[])
    (hp : ((bodyCourse E .loops (againEvaluator E fuel) fuel body s).play
      (as.map Answer.onRegs)).2≠.lost) :
    RunsAs (runs (runGeneratorBody E fuel body) as 0 (⟨s.1,.empty⟩,s.2))
      ((bodyCourse E .loops (againEvaluator E fuel) fuel body s).play (as.map Answer.onRegs)) ∧
    (∀t, (runs (runGeneratorBody E fuel body) as 0 (⟨s.1,.empty⟩,s.2)).2=.waiting t →
      ∃y, ((bodyCourse E .loops (againEvaluator E fuel) fuel body s).play
        (as.map Answer.onRegs)).1.getLast?=some y ∧ t.1.regs.keys.Perm y.entered) ∧
    ∀r t, (runs (runGeneratorBody E fuel body) as 0 (⟨s.1,.empty⟩,s.2)).2=.ended r t →
      t.1.regs.keys=[] := by
  have hruns := runGeneratorBody_runsAs (adequate_again E fuel) .loops body as trivial hp
  have hbal : Balanced evenly (bodyCourse E .loops (againEvaluator E fuel) fuel body s) [] :=
    balances_courseFrom E .loops (againEvaluator E fuel) fuel .top
      (balances_courses E (againEvaluator E fuel) fuel rfl rfl body) 0 0 s [] (by rw [hs])
  obtain ⟨hwait,hend⟩ := hbal.play as
  refine ⟨hruns,fun t ht => ?_,fun r t ht => ?_⟩
  · refine hwait (t.1.regs,t.2) ?_
    rw [← hruns.2,ht]
    rfl
  · refine hend r (t.1.regs,t.2) ?_
    rw [← hruns.2,ht]
    rfl

/-- `for x in [1, 2]: yield x`. -/
def yieldsItems : List (Stmt TinyOp) :=
  [.forStmt (.name "x") (.node (.const 1) []) [.simple .expr .skip [.yield (.node .name [])]] []]

theorem records_of_suspended_loops_items :
    (runs (runGeneratorBody tiny 3 yieldsItems) [.send 0] 0 (⟨.fresh,.empty⟩,⟨0,0,[]⟩)).1=[1,2] ∧
    ∀t, (runs (runGeneratorBody tiny 3 yieldsItems) [.send 0] 0
      (⟨.fresh,.empty⟩,⟨0,0,[]⟩)).2=.waiting t →
      ∃y, ((bodyCourse tiny .loops (againEvaluator tiny 3) 3 yieldsItems (.fresh,⟨0,0,[]⟩)).play
        [Answer.onRegs (.send 0)]).1.getLast?=some y ∧ t.1.regs.keys.Perm y.entered :=
  ⟨by decide,(records_of_suspended_loops tiny 3 yieldsItems [.send 0] (.fresh,⟨0,0,[]⟩) rfl
    (Outcome.ne_lost (by rfl))).2.1⟩

/-- A loop over `x` that raises after its first yield, in a `try` whose handler passes, then a
yield, then another loop over `x`. -/
def leavesRecord : List (Stmt TinyOp) :=
  [.tryStmt [.forStmt (.name "x") (.node (.const 1) [])
      [.simple .expr .skip [.yield (.node .name [])],.simple .raise (.raise 9) []] []]
    [.mk none none [.simple .other .skip []]] [] [],
   .simple .expr .skip [.yield (.node (.const 7) [])],
   .forStmt (.name "x") (.node (.const 10) [])
     [.simple .expr .skip [.yield (.node .name [])]] []]

/-- No loop is suspended at the second yield, but there is a record, and the second loop starts at
an item of the first. -/
theorem record_outlives_loop : generatorSuspendable leavesRecord=true ∧
    (runs (runGeneratorBody tiny 3 leavesRecord) [.send 0] 0 (⟨.fresh,.empty⟩,⟨0,0,[]⟩)).1=[1,7] ∧
    (runs (runGeneratorBody tiny 3 leavesRecord) [.send 0] 0
      (⟨.fresh,.empty⟩,⟨0,0,[]⟩)).2.state.map (fun t => t.1.regs.keys)=some [.forLoop "x"] ∧
    (runs (runGeneratorBody tiny 3 leavesRecord) [.send 0,.send 0] 0
      (⟨.fresh,.empty⟩,⟨0,0,[]⟩)).1=[1,7,1] ∧
    ((evalBody tiny (answering tiny) 3 leavesRecord (Regs.fresh.cell,⟨0,0,[]⟩)).play
      [(Answer.send 0).act,(Answer.send 0).act]).1=[1,7,10] := by
  decide +kernel

end Claim

end InterpretThis.Generator
