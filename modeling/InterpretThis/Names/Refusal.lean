import InterpretThis.Names.Guard

namespace InterpretThis.Names

open Recorded

section Constructs

variable {P V W E : Type} {x : Externals P V W E}
  {check : String → Except (Failure E) Unit}

theorem follows_checked {n : String} {set : Binding V W E Unit}
    (hset : ∀s, ∃rest, set.record s=n::rest) :
    Follows check (Recorded.ofExcept (check n) >>= fun _ => set)
      (Recorded.ofExcept (unchecked n) >>= fun _ => set) := by
  intro s
  obtain ⟨rest,hrest⟩ := hset s
  have hopen : (Recorded.ofExcept (unchecked n) >>= fun _ => set : Binding V W E Unit).record s=
      n::rest := hrest
  rw [hopen]
  constructor
  · intro e he
    rw [he]
    exact ⟨rfl,rfl⟩
  · intro hc
    rw [hc]
    exact ⟨rest,hrest⟩

theorem bindName_follows (n : String) (v : V) :
    Follows check (bindName x check n v) (bindName x unchecked n v) :=
  follows_checked fun _ => ⟨[],rfl⟩

theorem insertName_follows (n : String) (v : V) :
    Follows check (insertName (W := W) check n v) (insertName unchecked n v) :=
  follows_checked fun _ => ⟨[],rfl⟩

theorem bindName_writes (n : String) (v : V) : (bindName x unchecked n v).Writes [n] :=
  fun _ => ⟨List.prefix_refl _,fun _ _ => rfl⟩

theorem insertName_writes (n : String) (v : V) :
    (insertName (W := W) (E := E) unchecked n v).Writes [n] :=
  fun _ => ⟨List.prefix_refl _,fun _ _ => rfl⟩

theorem spread_length {elts : List (Target P)} {items vs : List V}
    (h : spread x elts items=.ok vs) : vs.length=elts.length := by
  unfold spread at h
  cases hstar : elts.findIdx? isStarred with
  | none =>
    simp only [hstar] at h
    split_ifs at h with hfew hmany
    have he : items=vs := Except.ok.inj h
    rw [← he]
    omega
  | some star =>
    have hlt : star<elts.length := (List.findIdx?_eq_some_iff_getElem.mp hstar).1
    simp only [hstar] at h
    split_ifs at h with htwo hfew
    have he := Except.ok.inj h
    rw [← he]
    simp only [List.length_append,List.length_take,List.length_drop,List.length_singleton]
    omega

mutual

theorem assignTarget_follows : ∀(t : Target P) (v : V),
    Follows check (assignTarget x check t v) (assignTarget x unchecked t v)
  | .name id,v => bindName_follows id v
  | .sequence elts,v => by
    have hiter : Follows check (lift (x.iter v)) (lift (x.iter v)) := Follows.quiet fun _ => rfl
    apply hiter.bind
    intro items
    have hspread : Follows check (Recorded.ofExcept (spread x elts items) : Binding V W E (List V))
        (Recorded.ofExcept (spread x elts items)) := Follows.quiet fun s => ofExcept_record _ s
    apply hspread.bind
    intro vs
    exact assignEach_follows elts vs
  | .place _,_ => Follows.quiet fun _ => rfl
  | .starred _,_ => Follows.quiet fun _ => rfl
  | .unsupported,_ => Follows.quiet fun _ => rfl

theorem assignEach_follows : ∀(ts : List (Target P)) (vs : List V),
    Follows check (assignEach x check ts vs) (assignEach x unchecked ts vs)
  | [],_ => Follows.quiet fun _ => rfl
  | .starred inner::ts,v::vs =>
    (assignTarget_follows inner v).bind fun _ => assignEach_follows ts vs
  | .name id::ts,v::vs =>
    (assignTarget_follows (.name id) v).bind fun _ => assignEach_follows ts vs
  | .sequence elts::ts,v::vs =>
    (assignTarget_follows (.sequence elts) v).bind fun _ => assignEach_follows ts vs
  | .place p::ts,v::vs =>
    (assignTarget_follows (.place p) v).bind fun _ => assignEach_follows ts vs
  | .unsupported::ts,v::vs =>
    (assignTarget_follows .unsupported v).bind fun _ => assignEach_follows ts vs
  | .starred _::_,[] => Follows.quiet fun _ => rfl
  | .name _::_,[] => Follows.quiet fun _ => rfl
  | .sequence _::_,[] => Follows.quiet fun _ => rfl
  | .place _::_,[] => Follows.quiet fun _ => rfl
  | .unsupported::_,[] => Follows.quiet fun _ => rfl

end

mutual

theorem assignTarget_writes : ∀(t : Target P) (v : V),
    (assignTarget x unchecked t v).Writes t.names
  | .name id,v => bindName_writes id v
  | .sequence elts,v => by
    have hiter : (lift (x.iter v) : Binding V W E (List V)).Writes [] := Writes.silent fun _ => rfl
    apply hiter.bind
    intro items
    have hspread : (Recorded.ofExcept (spread x elts items) : Binding V W E (List V)).Writes [] :=
      Writes.silent fun s => ofExcept_record _ s
    apply hspread.bind_of
    intro s vs hvs
    have hfit : spread x elts items=.ok vs := by
      cases hr : spread x elts items with
      | error e =>
        rw [hr] at hvs
        cases hvs
      | ok us =>
        rw [hr] at hvs
        exact congrArg _ (Except.ok.inj hvs)
    apply assignEach_writes elts vs
    exact spread_length hfit
  | .place _,_ => Writes.silent fun _ => rfl
  | .starred _,_ => Writes.failing (fun _ => rfl) fun _ _ h => nomatch h
  | .unsupported,_ => Writes.silent fun _ => rfl

theorem assignEach_writes : ∀(ts : List (Target P)) (vs : List V), vs.length=ts.length →
    (assignEach x unchecked ts vs).Writes (Target.namesEach ts)
  | [],_,_ => Writes.silent fun _ => rfl
  | .starred inner::ts,v::vs,h =>
    (assignTarget_writes inner v).bind fun _ => assignEach_writes ts vs (Nat.succ.inj h)
  | .name id::ts,v::vs,h =>
    (assignTarget_writes (.name id) v).bind fun _ => assignEach_writes ts vs (Nat.succ.inj h)
  | .sequence elts::ts,v::vs,h =>
    (assignTarget_writes (.sequence elts) v).bind fun _ => assignEach_writes ts vs (Nat.succ.inj h)
  | .place p::ts,v::vs,h =>
    (assignTarget_writes (.place p) v).bind fun _ => assignEach_writes ts vs (Nat.succ.inj h)
  | .unsupported::ts,v::vs,h =>
    (assignTarget_writes .unsupported v).bind fun _ => assignEach_writes ts vs (Nat.succ.inj h)
  | .starred _::_,[],h => nomatch h
  | .name _::_,[],h => nomatch h
  | .sequence _::_,[],h => nomatch h
  | .place _::_,[],h => nomatch h
  | .unsupported::_,[],h => nomatch h

end

theorem assignTargets_follows (v : V) : ∀(ts : List (Target P)),
    Follows check (assignTargets x check v ts) (assignTargets x unchecked v ts)
  | [] => Follows.quiet fun _ => rfl
  | t::ts => (assignTarget_follows t v).bind fun _ => assignTargets_follows v ts

theorem assignTargets_writes (v : V) : ∀(ts : List (Target P)),
    (assignTargets x unchecked v ts).Writes (Target.namesEach ts)
  | [] => Writes.silent fun _ => rfl
  | t::ts => (assignTarget_writes t v).bind fun _ => assignTargets_writes v ts

mutual

theorem setComprehensionTarget_follows : ∀(t : Target P) (v : V),
    Follows check (setComprehensionTarget x check t v) (setComprehensionTarget x unchecked t v)
  | .name id,v => insertName_follows id v
  | .sequence elts,v => by
    rw [setComprehensionTarget,setComprehensionTarget]
    cases x.comprehensionItems v with
    | none => exact Follows.quiet fun _ => rfl
    | some items =>
      dsimp only
      split_ifs with hlen
      · exact Follows.quiet fun _ => rfl
      · exact setComprehensionEach_follows elts items
  | .place _,_ => Follows.quiet fun _ => rfl
  | .starred _,_ => Follows.quiet fun _ => rfl
  | .unsupported,_ => Follows.quiet fun _ => rfl

theorem setComprehensionEach_follows : ∀(ts : List (Target P)) (vs : List V),
    Follows check (setComprehensionEach x check ts vs) (setComprehensionEach x unchecked ts vs)
  | [],_ => Follows.quiet fun _ => rfl
  | t::ts,v::vs =>
    (setComprehensionTarget_follows t v).bind fun _ => setComprehensionEach_follows ts vs
  | _::_,[] => Follows.quiet fun _ => rfl

end

mutual

theorem setComprehensionTarget_writes : ∀(t : Target P) (v : V),
    (setComprehensionTarget x unchecked t v).Writes t.names
  | .name id,v => insertName_writes id v
  | .sequence elts,v => by
    rw [setComprehensionTarget]
    cases x.comprehensionItems v with
    | none => exact Writes.failing (fun _ => rfl) fun _ _ h => nomatch h
    | some items =>
      dsimp only
      split_ifs with hlen
      · exact Writes.failing (fun _ => rfl) fun _ _ h => nomatch h
      · exact setComprehensionEach_writes elts items (not_not.mp hlen).symm
  | .place _,_ => Writes.silent fun _ => rfl
  | .starred _,_ => Writes.failing (fun _ => rfl) fun _ _ h => nomatch h
  | .unsupported,_ => Writes.silent fun _ => rfl

theorem setComprehensionEach_writes : ∀(ts : List (Target P)) (vs : List V),
    vs.length=ts.length → (setComprehensionEach x unchecked ts vs).Writes (Target.namesEach ts)
  | [],_,_ => Writes.silent fun _ => rfl
  | t::ts,v::vs,h =>
    (setComprehensionTarget_writes t v).bind fun _ =>
      setComprehensionEach_writes ts vs (Nat.succ.inj h)
  | _::_,[],h => nomatch h

end

theorem importModule_follows (a : Alias) :
    Follows check (importModule x check a) (importModule x unchecked a) := by
  unfold importModule
  split_ifs
  · exact bindName_follows _ _
  · exact Follows.quiet fun _ => rfl
  · exact bindName_follows _ _

theorem importModule_writes (a : Alias) : (importModule x unchecked a).Writes [a.moduleName] := by
  unfold importModule
  split_ifs
  · exact bindName_writes _ _
  · exact Writes.failing (fun _ => rfl) fun _ _ h => nomatch h
  · exact bindName_writes _ _

theorem evalImport_follows : ∀as : List Alias,
    Follows check (evalImport x check as) (evalImport x unchecked as)
  | [] => Follows.quiet fun _ => rfl
  | a::as => (importModule_follows a).bind fun _ => evalImport_follows as

theorem evalImport_writes : ∀as : List Alias,
    (evalImport x unchecked as).Writes (as.map Alias.moduleName)
  | [] => Writes.silent fun _ => rfl
  | a::as => (importModule_writes a).bind fun _ => evalImport_writes as

theorem importUserCollection_follows (name bind : String) :
    Follows check (importUserCollection x check name bind)
      (importUserCollection x unchecked name bind) := by
  apply Follows.bind
  · exact Follows.quiet fun _ => rfl
  · intro newly
    apply Follows.bind
    · exact Follows.quiet fun _ => rfl
    · intro _
      apply Follows.bind
      · exact bindName_follows _ _
      · intro _
        split_ifs
        · exact Follows.quiet fun _ => rfl
        · exact Follows.quiet fun _ => rfl

theorem importUserCollection_writes (name bind : String) :
    (importUserCollection x unchecked name bind).Writes [bind] := by
  have hlast : ∀newly : Bool, (if newly ∧ bind≠name then
      Recorded.lift fun s => (.ok (),{s with vars := Function.update s.vars name none})
    else pure () : Binding V W E Unit).Writes [] := by
    intro newly
    split_ifs
    · exact Writes.silent fun _ => rfl
    · exact Writes.silent fun _ => rfl
  have hnewly : (Recorded.lift fun s => (.ok (!x.classRegistered name s.world),s) :
      Binding V W E Bool).Writes [] := Writes.silent fun _ => rfl
  have hensure : (Recorded.lift (x.ensureRegistered name) : Binding V W E Unit).Writes [] := Writes.silent fun _ => rfl
  apply hnewly.bind
  intro newly
  apply hensure.bind
  intro _
  exact (bindName_writes bind (x.classObject name)).bind fun _ => hlast newly

theorem importMember_follows (module : String) (a : Alias) :
    Follows check (importMember x check module a) (importMember x unchecked module a) := by
  unfold importMember
  split_ifs
  · exact Follows.quiet fun _ => rfl
  · exact bindName_follows _ _
  · exact Follows.quiet fun _ => rfl
  · exact importUserCollection_follows _ _
  · apply Follows.bind
    · exact Follows.quiet fun s => ofExcept_record _ s
    · intro v
      exact bindName_follows _ _

theorem importMember_writes (module : String) (a : Alias) :
    (importMember x unchecked module a).Writes [a.bind] := by
  unfold importMember
  split_ifs
  · exact Writes.failing (fun _ => rfl) fun _ _ h => nomatch h
  · exact bindName_writes _ _
  · exact Writes.failing (fun _ => rfl) fun _ _ h => nomatch h
  · exact importUserCollection_writes _ _
  · have hmember : (Recorded.ofExcept (x.moduleMember module a.name) : Binding V W E V).Writes [] :=
      Writes.silent fun s => ofExcept_record _ s
    exact hmember.bind fun v => bindName_writes _ _

theorem importMembers_follows (module : String) : ∀as : List Alias,
    Follows check (importMembers x check module as) (importMembers x unchecked module as)
  | [] => Follows.quiet fun _ => rfl
  | a::as => (importMember_follows module a).bind fun _ => importMembers_follows module as

theorem importMembers_writes (module : String) : ∀as : List Alias,
    (importMembers x unchecked module as).Writes (as.map Alias.bind)
  | [] => Writes.silent fun _ => rfl
  | a::as => (importMember_writes module a).bind fun _ => importMembers_writes module as

theorem bindCaptures_follows : ∀bs : List (String×V),
    Follows check (bindCaptures x check bs) (bindCaptures x unchecked bs)
  | [] => Follows.quiet fun _ => rfl
  | b::bs => (bindName_follows b.1 b.2).bind fun _ => bindCaptures_follows bs

theorem bindCaptures_writes : ∀bs : List (String×V),
    (bindCaptures x unchecked bs).Writes (bs.map Prod.fst)
  | [] => Writes.silent fun _ => rfl
  | b::bs => (bindName_writes b.1 b.2).bind fun _ => bindCaptures_writes bs

theorem augAssignName_follows (name : String)
    (combine : V → ModuleState V W → Except (Failure E) V×ModuleState V W) :
    Follows check (augAssignName x check name combine)
      (augAssignName x unchecked name combine) := by
  apply Follows.bind
  · exact Follows.quiet fun _ => rfl
  · intro current
    apply Follows.bind
    · exact Follows.quiet fun _ => rfl
    · intro new
      apply Follows.bind
      · exact Follows.quiet fun _ => rfl
      · intro _
        exact follows_checked fun _ => ⟨[],rfl⟩

theorem augAssignName_writes (name : String)
    (combine : V → ModuleState V W → Except (Failure E) V×ModuleState V W) :
    (augAssignName x unchecked name combine).Writes [name] := by
  apply Writes.after
  · exact fun _ => rfl
  · intro current
    apply Writes.after
    · exact fun _ => rfl
    · intro new
      apply Writes.after
      · exact fun _ => rfl
      · intro _ s
        exact ⟨List.prefix_refl _,fun _ _ => rfl⟩

end Constructs

section Refusal

variable {P V W E : Type} {x : Externals P V W E}

/-- Whether a construct refuses is decided at the first name it would bind. -/
def DecidedFirst (check : String → Except (Failure E) Unit) (m m₀ : Binding V W E Unit) : Prop :=
  ∀s n rest, m₀.record s=n::rest → (m.Refused s ↔ ∃e, check n=.error e)

variable {check : String → Except (Failure E) Unit}

theorem decidedFirst_of_follows {m m₀ : Binding V W E Unit} (h : Follows check m m₀) :
    DecidedFirst check m m₀ := by
  intro s n rest hw
  have hs := h s
  rw [hw] at hs
  obtain ⟨herr,hok⟩ := hs
  constructor
  · rintro ⟨-,hnone⟩
    cases hc : check n with
    | error e => exact ⟨e,rfl⟩
    | ok u =>
      obtain ⟨rest',hsome⟩ := hok hc
      rw [hnone] at hsome
      cases hsome
  · rintro ⟨e,he⟩
    obtain ⟨hr,hnone⟩ := herr e he
    exact ⟨⟨e,hr⟩,hnone⟩

/-- A `def` and a `class` look at their name before they evaluate anything. -/
theorem decidedFirst_of_early {name : String} {body : Binding V W E Unit}
    (hbody : ∀s, body.record s=[] ∨ ∃rest, body.record s=name::rest) :
    DecidedFirst check (Recorded.ofExcept (check name) >>= fun _ => body)
      (Recorded.ofExcept (unchecked name) >>= fun _ => body) := by
  intro s n rest hw
  have hopen : body.record s=n::rest := hw
  have hn : n=name := by
    rcases hbody s with h | ⟨rest',h⟩
    · rw [hopen] at h
      cases h
    · rw [hopen] at h
      exact (List.cons.inj h).1
  subst hn
  cases hc : check n with
  | error e =>
    constructor
    · intro _
      exact ⟨e,rfl⟩
    · intro _
      exact ⟨⟨e,rfl⟩,rfl⟩
  | ok u =>
    constructor
    · rintro ⟨-,hnone⟩
      have hsame : (Recorded.ofExcept (.ok u) >>= fun _ => body : Binding V W E Unit).record s=
        body.record s := rfl
      rw [hsame,hopen] at hnone
      cases hnone
    · rintro ⟨e,he⟩
      cases he

theorem functionBody_written (name : String)
    (build : ModuleState V W → Except (Failure E) V×ModuleState V W) (s : ModuleState V W) :
    let body : Binding V W E Unit := do
      let v ← Recorded.lift build
      setVariable x name v
    body.record s=[] ∨ ∃rest, body.record s=name::rest := by
  intro body
  rcases hb : build s with ⟨r,s'⟩
  have hlift : (lift build : Binding V W E V) s=(r,s',[]) := by rw [lift,hb]
  cases r with
  | error e => exact Or.inl (record_of (bind_error hlift))
  | ok v => exact Or.inr ⟨[],record_of (bind_ok hlift)⟩

theorem classBody_written (name : String)
    (build : ModuleState V W → Except (Failure E) V×ModuleState V W)
    (finish : ModuleState V W → Except (Failure E) (Option V)×ModuleState V W)
    (s : ModuleState V W) :
    let body : Binding V W E Unit := do
      let v ← Recorded.lift build
      setVariable x name v
      match ← Recorded.lift finish with
      | none => pure ()
      | some w => setVariable x name w
    body.record s=[] ∨ ∃rest, body.record s=name::rest := by
  intro body
  rcases hb : build s with ⟨r,s'⟩
  have hlift : (lift build : Binding V W E V) s=(r,s',[]) := by rw [lift,hb]
  cases r with
  | error e => exact Or.inl (record_of (bind_error hlift))
  | ok v =>
    right
    rcases hset : setVariable x name v s' with ⟨r₁,s₁,w⟩
    have hw : w=[name] := (record_of hset).symm
    subst hw
    have hrun := record_of (bind_ok (f := fun v => do
      setVariable x name v
      match ← Recorded.lift finish with
      | none => pure ()
      | some w => setVariable x name w) hlift)
    cases r₁ with
    | error e => exact ⟨[],hrun.trans (record_of (bind_error hset))⟩
    | ok u => exact ⟨_,hrun.trans (record_of (bind_ok hset))⟩

theorem Binder.decidedFirst (b : Binder P V W E) (check : String → Except (Failure E) Unit) :
    DecidedFirst check (b.runWith x check) (b.runWith x unchecked) := by
  cases b with
  | assign targets v => exact decidedFirst_of_follows (assignTargets_follows v targets)
  | annAssign target v => exact decidedFirst_of_follows (assignTarget_follows target v)
  | augAssign name combine => exact decidedFirst_of_follows (augAssignName_follows name combine)
  | forTarget target item => exact decidedFirst_of_follows (assignTarget_follows target item)
  | withTarget target entered =>
    exact decidedFirst_of_follows (assignTarget_follows target entered)
  | namedExpr name v => exact decidedFirst_of_follows (bindName_follows name v)
  | functionDef name build => exact decidedFirst_of_early (functionBody_written name build)
  | classDef name build finish =>
    exact decidedFirst_of_early (classBody_written name build finish)
  | importModules aliases => exact decidedFirst_of_follows (evalImport_follows aliases)
  | importFrom relative module aliases =>
    apply decidedFirst_of_follows
    change Follows check (evalImportFrom x check relative module aliases)
      (evalImportFrom x unchecked relative module aliases)
    unfold evalImportFrom
    split_ifs
    · exact Follows.quiet fun _ => rfl
    · exact Follows.quiet fun _ => rfl
    · exact importMembers_follows module aliases
  | exceptAs name exc => exact decidedFirst_of_follows (bindName_follows name exc)
  | matchCaptures bindings => exact decidedFirst_of_follows (bindCaptures_follows bindings)
  | comprehensionTarget target item =>
    exact decidedFirst_of_follows (setComprehensionTarget_follows target item)

theorem head_of_writes {m : Binding V W E Unit} {ns : List String} (h : m.Writes ns)
    {s : ModuleState V W} {n : String} {rest : List String} (hw : m.record s=n::rest) :
    ns.head?=some n := by
  obtain ⟨t,ht⟩ := (h s).1
  rw [← ht,hw]
  rfl

theorem Binder.head_names (b : Binder P V W E) {s : ModuleState V W} {n : String}
    {rest : List String} (hw : (b.runWith x unchecked).record s=n::rest) :
    b.names.head?=some n := by
  cases b with
  | assign targets v => exact head_of_writes (assignTargets_writes v targets) hw
  | annAssign target v => exact head_of_writes (assignTarget_writes target v) hw
  | augAssign name combine => exact head_of_writes (augAssignName_writes name combine) hw
  | forTarget target item => exact head_of_writes (assignTarget_writes target item) hw
  | withTarget target entered => exact head_of_writes (assignTarget_writes target entered) hw
  | namedExpr name v => exact head_of_writes (bindName_writes name v) hw
  | functionDef name build =>
    rcases functionBody_written (x := x) name build s with h | ⟨rest',h⟩
    · exact nomatch h.symm.trans hw
    · exact congrArg some (List.cons.inj (h.symm.trans hw)).1
  | classDef name build finish =>
    rcases classBody_written (x := x) name build finish s with h | ⟨rest',h⟩
    · exact nomatch h.symm.trans hw
    · exact congrArg some (List.cons.inj (h.symm.trans hw)).1
  | importModules aliases => exact head_of_writes (evalImport_writes aliases) hw
  | importFrom relative module aliases =>
    have hrun : (evalImportFrom x unchecked relative module aliases).Writes
        (aliases.map Alias.bind) := by
      unfold evalImportFrom
      split_ifs
      · exact Writes.failing (fun _ => rfl) fun _ _ h => nomatch h
      · exact Writes.failing (fun _ => rfl) fun _ _ h => nomatch h
      · exact importMembers_writes module aliases
    exact head_of_writes hrun hw
  | exceptAs name exc => exact head_of_writes (bindName_writes name exc) hw
  | matchCaptures bindings => exact head_of_writes (bindCaptures_writes bindings) hw
  | comprehensionTarget target item =>
    exact head_of_writes (setComprehensionTarget_writes target item) hw

theorem Binder.refused_iff (tools : String → Bool) (b : Binder P V W E) {s : ModuleState V W}
    {g : String} (hg : g∈(b.runWith x unchecked).record s) :
    (b.run x tools).Refused s ↔ ∃n, b.names.head?=some n ∧ b.refuses tools n=true := by
  cases hw : (b.runWith x unchecked).record s with
  | nil =>
    rw [hw] at hg
    cases hg
  | cons n rest =>
    have hhead := b.head_names hw
    have hfirst := b.decidedFirst (b.check tools) s n rest hw
    rw [Binder.run,hfirst,b.check_error]
    constructor
    · intro h
      exact ⟨n,hhead,h⟩
    · rintro ⟨m,hm,h⟩
      rw [hhead] at hm
      rw [Option.some.inj hm]
      exact h

end Refusal

/-- The user's code behind the construct leaves the map of variables alone. -/
structure Externals.Quiet {P V W E : Type} (x : Externals P V W E) : Prop where
  iter : ∀v s, (x.iter v s).2.vars=s.vars
  assignPlace : ∀p v s, (x.assignPlace p v s).2.vars=s.vars
  ensureRegistered : ∀name s, (x.ensureRegistered name s).2.vars=s.vars

def Binder.Quiet {P V W E : Type} : Binder P V W E → Prop
  | .augAssign _ combine => ∀v s, (combine v s).2.vars=s.vars
  | .functionDef _ build => ∀s, (build s).2.vars=s.vars
  | .classDef _ build finish => (∀s, (build s).2.vars=s.vars) ∧ ∀s, (finish s).2.vars=s.vars
  | _ => True

section Quiet

variable {P V W E : Type} {x : Externals P V W E}
  {check : String → Except (Failure E) Unit}

theorem bindName_keeps (n : String) (v : V) : (bindName x check n v).Keeps ModuleState.vars := by
  apply Keeps.bind
  · exact Keeps.ofExcept _
  · intro _
    exact Keeps.writing fun _ h => nomatch h

theorem insertName_keeps (n : String) (v : V) : (insertName (W := W) check n v).Keeps ModuleState.vars := by
  apply Keeps.bind
  · exact Keeps.ofExcept _
  · intro _
    exact Keeps.writing fun _ h => nomatch h

mutual

theorem assignTarget_keeps (hx : x.Quiet) : ∀(t : Target P) (v : V),
    (assignTarget x check t v).Keeps ModuleState.vars
  | .name id,v => bindName_keeps id v
  | .sequence elts,v => by
    have hiter : (lift (x.iter v) : Binding V W E (List V)).Keeps ModuleState.vars := Keeps.lift (hx.iter v)
    apply hiter.bind
    intro items
    have hspread : (Recorded.ofExcept (spread x elts items) : Binding V W E (List V)).Keeps ModuleState.vars := Keeps.ofExcept _
    apply hspread.bind
    intro vs
    exact assignEach_keeps hx elts vs
  | .place p,v => Keeps.lift (hx.assignPlace p v)
  | .starred _,_ => Keeps.throw _
  | .unsupported,_ => Keeps.throw _

theorem assignEach_keeps (hx : x.Quiet) : ∀(ts : List (Target P)) (vs : List V),
    (assignEach x check ts vs).Keeps ModuleState.vars
  | [],_ => Keeps.pure ()
  | .starred inner::ts,v::vs =>
    (assignTarget_keeps hx inner v).bind fun _ => assignEach_keeps hx ts vs
  | .name id::ts,v::vs =>
    (assignTarget_keeps hx (.name id) v).bind fun _ => assignEach_keeps hx ts vs
  | .sequence elts::ts,v::vs =>
    (assignTarget_keeps hx (.sequence elts) v).bind fun _ => assignEach_keeps hx ts vs
  | .place p::ts,v::vs =>
    (assignTarget_keeps hx (.place p) v).bind fun _ => assignEach_keeps hx ts vs
  | .unsupported::ts,v::vs =>
    (assignTarget_keeps hx .unsupported v).bind fun _ => assignEach_keeps hx ts vs
  | .starred _::_,[] => Keeps.pure ()
  | .name _::_,[] => Keeps.pure ()
  | .sequence _::_,[] => Keeps.pure ()
  | .place _::_,[] => Keeps.pure ()
  | .unsupported::_,[] => Keeps.pure ()

end

theorem assignTargets_keeps (hx : x.Quiet) (v : V) : ∀(ts : List (Target P)),
    (assignTargets x check v ts).Keeps ModuleState.vars
  | [] => Keeps.pure ()
  | t::ts => (assignTarget_keeps hx t v).bind fun _ => assignTargets_keeps hx v ts

mutual

theorem setComprehensionTarget_keeps : ∀(t : Target P) (v : V),
    (setComprehensionTarget x check t v).Keeps ModuleState.vars
  | .name id,v => insertName_keeps id v
  | .sequence elts,v => by
    rw [setComprehensionTarget]
    cases x.comprehensionItems v with
    | none => exact Keeps.throw _
    | some items =>
      dsimp only
      split_ifs with hlen
      · exact Keeps.throw _
      · exact setComprehensionEach_keeps elts items
  | .place _,_ => Keeps.throw _
  | .starred _,_ => Keeps.throw _
  | .unsupported,_ => Keeps.throw _

theorem setComprehensionEach_keeps : ∀(ts : List (Target P)) (vs : List V),
    (setComprehensionEach x check ts vs).Keeps ModuleState.vars
  | [],_ => Keeps.pure ()
  | t::ts,v::vs =>
    (setComprehensionTarget_keeps t v).bind fun _ => setComprehensionEach_keeps ts vs
  | _::_,[] => Keeps.pure ()

end

theorem importModule_keeps (a : Alias) : (importModule x check a).Keeps ModuleState.vars := by
  unfold importModule
  split_ifs
  · exact bindName_keeps _ _
  · exact Keeps.throw _
  · exact bindName_keeps _ _

theorem evalImport_keeps : ∀as : List Alias, (evalImport x check as).Keeps ModuleState.vars
  | [] => Keeps.pure ()
  | a::as => (importModule_keeps a).bind fun _ => evalImport_keeps as

/-- The plain name that a first import under an alias takes back goes after the alias is bound. -/
theorem importUserCollection_keeps (hx : x.Quiet) (name bind : String) :
    (importUserCollection x check name bind).Keeps ModuleState.vars := by
  apply Keeps.bind
  · exact Keeps.lift fun _ => rfl
  · intro newly
    apply Keeps.bind
    · exact Keeps.lift (hx.ensureRegistered name)
    · intro _ s hw
      cases hc : check bind with
      | error e =>
        have hstop : bindName x check bind (x.classObject name) s=(.error e,s,[]) := by
          unfold bindName
          rw [hc]
          rfl
        have hrun := bind_error (f := fun _ => if newly ∧ bind≠name then
            Recorded.lift fun s => (.ok (),{s with vars := Function.update s.vars name none})
          else pure ()) hstop
        unfold Recorded.after
        rw [hrun]
      | ok u =>
        exfalso
        have hstep : ∃r s', bindName x check bind (x.classObject name) s=(r,s',[bind]) := by
          unfold bindName
          rw [hc]
          exact ⟨_,_,rfl⟩
        obtain ⟨r,s',hstep⟩ := hstep
        cases r with
        | error e => exact nomatch (record_of (bind_error hstep)).symm.trans hw
        | ok u => exact nomatch (record_of (bind_ok hstep)).symm.trans hw

theorem importMember_keeps (hx : x.Quiet) (module : String) (a : Alias) :
    (importMember x check module a).Keeps ModuleState.vars := by
  unfold importMember
  split_ifs
  · exact Keeps.throw _
  · exact bindName_keeps _ _
  · exact Keeps.throw _
  · exact importUserCollection_keeps hx _ _
  · exact (Keeps.ofExcept _).bind fun v => bindName_keeps _ _

theorem importMembers_keeps (hx : x.Quiet) (module : String) : ∀as : List Alias,
    (importMembers x check module as).Keeps ModuleState.vars
  | [] => Keeps.pure ()
  | a::as => (importMember_keeps hx module a).bind fun _ => importMembers_keeps hx module as

theorem bindCaptures_keeps : ∀bs : List (String×V), (bindCaptures x check bs).Keeps ModuleState.vars
  | [] => Keeps.pure ()
  | b::bs => (bindName_keeps b.1 b.2).bind fun _ => bindCaptures_keeps bs

/-- A construct that binds no name leaves the map as the user's code left it. -/
theorem Binder.keeps (hx : x.Quiet) (b : Binder P V W E) (hb : b.Quiet) :
    (b.runWith x check).Keeps ModuleState.vars := by
  cases b with
  | assign targets v => exact assignTargets_keeps hx v targets
  | annAssign target v => exact assignTarget_keeps hx target v
  | augAssign name combine =>
    refine Keeps.bind (fun _ _ => rfl) fun current => ?_
    refine Keeps.bind (Keeps.lift (hb current)) fun new => ?_
    refine Keeps.bind (fun _ _ => rfl) fun _ => ?_
    exact Keeps.bind (Keeps.ofExcept _) fun _ => Keeps.writing fun _ h => nomatch h
  | forTarget target item => exact assignTarget_keeps hx target item
  | withTarget target entered => exact assignTarget_keeps hx target entered
  | namedExpr name v => exact bindName_keeps name v
  | functionDef name build =>
    refine Keeps.bind (Keeps.ofExcept _) fun _ => ?_
    exact Keeps.bind (Keeps.lift hb) fun v => Keeps.writing fun _ h => nomatch h
  | classDef name build finish =>
    refine Keeps.bind (Keeps.ofExcept _) fun _ => ?_
    refine Keeps.bind (Keeps.lift hb.1) fun v => ?_
    refine Keeps.bind (Keeps.writing fun _ h => nomatch h) fun _ => ?_
    refine Keeps.bind (Keeps.lift hb.2) fun w => ?_
    cases w with
    | none => exact Keeps.pure ()
    | some w => exact Keeps.writing fun _ h => nomatch h
  | importModules aliases => exact evalImport_keeps aliases
  | importFrom relative module aliases =>
    change (evalImportFrom x check relative module aliases).Keeps ModuleState.vars
    unfold evalImportFrom
    split_ifs
    · exact Keeps.throw _
    · exact Keeps.throw _
    · exact importMembers_keeps hx module aliases
  | exceptAs name exc => exact bindName_keeps name exc
  | matchCaptures bindings => exact bindCaptures_keeps bindings
  | comprehensionTarget target item => exact setComprehensionTarget_keeps target item

end Quiet

end InterpretThis.Names
