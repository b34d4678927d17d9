import InterpretThis.ClassTable.Owned

namespace InterpretThis
namespace ClassTable

variable {P O B : Type} {s s' : State P O B} {e : Event P O B} {c : String}

/-- Bodies that no step may overwrite: those of recorded classes and of plain functions. -/
def State.Settled (s : State P O B) : BodyKey → Prop
  | .member cls _ => (s.classes cls).isSome
  | .function _ cursor => cursor<s.nextCursor

/-- What survives a step, apart from the attributes that it assigns. -/
structure Keeps (s s' : State P O B) : Prop where
  bodies : ∀ key,s.Settled key → s'.functionBodies key=s.functionBodies key
  recorded : ∀ n,(s.classes n).isSome → (s'.classes n).isSome
  cursor : s.nextCursor ≤ s'.nextCursor

theorem Keeps.refl : Keeps s s := ⟨fun _ _ => rfl,fun _ h => h,le_refl _⟩

theorem Keeps.settled (h : Keeps s s') {key : BodyKey} (hk : s.Settled key) : s'.Settled key := by
  cases key with
  | member cls rest => exact h.recorded cls hk
  | function name cursor => exact lt_of_lt_of_le hk h.cursor

theorem Keeps.trans {t : State P O B} (h : Keeps s s') (h' : Keeps s' t) : Keeps s t where
  bodies key hk := (h'.bodies key (h.settled hk)).trans (h.bodies key hk)
  recorded n hn := h'.recorded n (h.recorded n hn)
  cursor := le_trans h.cursor h'.cursor

theorem keeps_register {n : String} {v : ClassValue P O} : Keeps s (s.register n v) :=
  ⟨fun _ _ => rfl,fun _ h => isSome_register h,le_refl _⟩

theorem cache_of_ne {key k : BodyKey} {body : B} (h : k≠key) :
    (s.cache key body).functionBodies k=s.functionBodies k :=
  Function.update_of_ne h ..

/-- Caching bodies of a class that is not recorded keeps the rest. -/
theorem keeps_cacheMembers {name : String} {made : String → P×B} (hn : s.classes name=none)
    (ms : List String) : Keeps s (s.cacheMembers name made ms) := by
  induction ms generalizing s with
  | nil => exact .refl
  | cons m ms ih =>
    have hcached : Keeps s (s.cache (.member name m) (made m).2) := by
      refine ⟨fun key hk => cache_of_ne fun heq => ?_,fun _ h => h,le_refl _⟩
      subst heq
      simp only [State.Settled,hn,Option.isSome_none,Bool.false_eq_true] at hk
    exact hcached.trans (ih hn)

theorem moves_keeps (hf : Fresh s e) (h : Moves s e s') : Keeps s s' := by
  cases h with
  | stays => exact .refl
  | opens => exact ⟨fun _ _ => rfl,fun _ h => h,le_refl _⟩
  | @defines name decoration data body b builds b' hs hb =>
    refine ⟨fun key hk => cache_of_ne fun heq => ?_,fun _ h => h,le_refl _⟩
    have hnone := hf.defines b.name (by simp only [definesIn,hs,List.head?_cons,Option.map_some])
    subst heq
    simp only [State.Settled,hnone,Option.isSome_none,Bool.false_eq_true] at hk
  | binds => exact ⟨fun _ _ => rfl,fun _ h => h,le_refl _⟩
  | closes hs hm => exact ⟨fun _ _ => rfl,fun _ h => isSome_register h,le_refl _⟩
  | drops => exact ⟨fun _ _ => rfl,fun _ h => h,le_refl _⟩
  | defs =>
    refine ⟨fun key hk => cache_of_ne fun heq => ?_,fun _ h => h,Nat.le_succ _⟩
    subst heq
    exact lt_irrefl _ hk
  | creates => exact keeps_register
  | @makes name fields defaults made =>
    have hn := (hf.records name rfl).unrecorded
    exact (keeps_cacheMembers hn namedtupleMembers).trans keeps_register
  | marks => exact keeps_register
  | assigns => exact keeps_register

def State.mroOf (s : State P O B) (n : String) : List String :=
  (s.classes n).elim [] (·.mro)

/-- The class, what it inherits from, and the same of its metaclass. -/
def lineage (s : State P O B) (c : String) : List String :=
  c::s.mroOf c++
    match (s.classes c).bind (·.metaclass) with
    | some k => k::s.mroOf k
    | none => []

/-- The class whose attribute the step assigns. -/
def Event.assigned : Event P O B → Option String
  | .setClassAttr cls _ _ => some cls
  | _ => none

/-- Nothing along the order of `n` has changed. -/
abbrev Same (s s' : State P O B) (n : String) : Prop :=
  Lineage.Alike ClassValue.mro s.classes s'.classes n

theorem Free.same {n k : String} {v : ClassValue P O} (hn : Free s n) (hk : (s.classes k).isSome) :
    Same s (s.register n v) k := by
  refine Lineage.Alike.update _ (fun heq => ?_) fun w hw => hn.unlinked k w hw
  rw [heq,hn.unrecorded] at hk
  cases hk

theorem moves_same {n : String} (hf : Fresh s e) (h : Moves s e s') (hn : (s.classes n).isSome)
    (ha : ∀ cls,e.assigned=some cls → cls≠n ∧ cls∉s.mroOf n) : Same s s' n := by
  cases h with
  | stays => exact .refl
  | opens => exact .refl
  | defines => exact .refl
  | binds => exact .refl
  | closes hs hm => exact (hf.close hs hm).same hn
  | drops => exact .refl
  | defs => exact .refl
  | creates hb hm => exact (hf.create hb hm).same hn
  | @makes name fields defaults made =>
    have hfree : Same s (s.register name (namedtupleClass name fields defaults made)) n :=
      (hf.records name rfl).same hn
    unfold Same State.register at hfree ⊢
    rw [cacheMembers_classes]
    exact hfree
  | marks hm => exact (hf.mark hm).same hn
  | @assigns cls attr v d hd =>
    obtain ⟨hne,hout⟩ := ha cls rfl
    refine Lineage.Alike.update _ hne.symm fun w hw => ?_
    simpa only [State.mroOf,hw,Option.elim_some] using hout

/-- The class and its metaclass are as they were. -/
structure Unchanged (s s' : State P O B) (c : String) : Prop where
  own : Same s s' c
  kind : ∀ k,(s.classes c).bind (·.metaclass)=some k → Same s s' k

theorem Unchanged.refl : Unchanged s s c := ⟨.refl,fun _ _ => .refl⟩

theorem Unchanged.trans {t : State P O B} (h : Unchanged s s' c) (h' : Unchanged s' t c) :
    Unchanged s t c := by
  refine ⟨h.own.trans h'.own,fun k hk => ?_⟩
  have hkind := h'.kind k (by rwa [h.own.1])
  exact (h.kind k hk).trans hkind

theorem Same.mroOf {n : String} (h : Same s s' n) : s'.mroOf n=s.mroOf n := by
  rw [State.mroOf,h.1]
  rfl

theorem Unchanged.lineage (h : Unchanged s s' c) : lineage s' c=lineage s c := by
  unfold ClassTable.lineage
  rw [Same.mroOf h.own,h.own.1]
  cases hk : (s.classes c).bind (·.metaclass) with
  | none => rfl
  | some k => simp only [Same.mroOf (h.kind k hk)]

theorem mem_lineage_kind {k n : String} (hk : (s.classes c).bind (·.metaclass)=some k)
    (hn : n=k ∨ n∈s.mroOf k) : n∈lineage s c := by
  refine List.mem_append_right _ ?_
  rw [hk]
  exact List.mem_cons.mpr hn

theorem moves_unchanged (hi : Inv s) (hf : Fresh s e) (h : Moves s e s')
    (hc : (s.classes c).isSome) (ha : ∀ cls,e.assigned=some cls → cls∉lineage s c) :
    Unchanged s s' c where
  own := by
    refine moves_same hf h hc fun cls hcls => ?_
    have hout := ha cls hcls
    refine ⟨fun heq => hout ?_,fun hmem => hout ?_⟩
    · exact List.mem_append_left _ (heq ▸ List.mem_cons_self)
    · exact List.mem_append_left _ (List.mem_cons_of_mem _ hmem)
  kind k hk := by
    obtain ⟨v,hv,hkind⟩ := Option.bind_eq_some_iff.mp hk
    refine moves_same hf h (hi.kinds c v k hv hkind) fun cls hcls => ?_
    have hout := ha cls hcls
    exact ⟨fun heq => hout (mem_lineage_kind hk (.inl heq)),
      fun hmem => hout (mem_lineage_kind hk (.inr hmem))⟩

section View

variable {f : ClassValue P O → Option (FunctionDef P)}

theorem Same.walk {A : Type} {n : String} (h : Same s s' n) (g : ClassValue P O → Option A) :
    s'.walk n g=s.walk n g :=
  h.find_eq

theorem running_eq (hi : Inv s) (hk : Keeps s s') {n : String} {v : ClassValue P O}
    {g : FunctionDef P} (hv : s.classes n=some v) (hg : v.Has g) : s'.running g=s.running g := by
  obtain ⟨rest,hkey⟩ := hi.owned n v hv g hg
  have hsettled : s.Settled g.key := by
    rw [hkey,State.Settled,hv]
    rfl
  simp only [State.running,State.body,hk.bodies g.key hsettled]

theorem found_in {A : Type} {g : ClassValue P O → Option A} {n : String} {p : String×A}
    (h : s.walk n g=some p) : ∃ v,s.classes p.1=some v ∧ g v=some p.2 := by
  obtain ⟨w,-,hfind⟩ := Option.bind_eq_some_iff.mp h
  exact Option.bind_eq_some_iff.mp (Lineage.mem_of_findIn hfind).2

theorem method_view {n m : String} (hi : Inv s) (hk : Keeps s s') (h : Same s s' n) :
    (lookupMethodInMro s' n m).map (fun p => (p.1,s'.running p.2))=
      (lookupMethodInMro s n m).map fun p => (p.1,s.running p.2) := by
  unfold lookupMethodInMro
  rw [h.walk]
  cases hp : s.walk n (·.methods m) with
  | none => rfl
  | some p =>
    obtain ⟨v,hv,hg⟩ := found_in hp
    simp only [Option.map_some,running_eq hi hk hv ⟨m,.inl hg⟩]

theorem static_view {n m : String} (hi : Inv s) (hk : Keeps s s') (h : Same s s' n) :
    (lookupStaticMethod s' n m).map s'.running=(lookupStaticMethod s n m).map s.running := by
  unfold lookupStaticMethod
  rw [h.walk]
  cases hp : s.walk n (·.staticMethods m) with
  | none => rfl
  | some p =>
    obtain ⟨v,hv,hg⟩ := found_in hp
    simp only [Option.map_some,running_eq hi hk hv ⟨m,.inr (.inr (.inl hg))⟩]

theorem classMethod_view {n m : String} (hi : Inv s) (hk : Keeps s s') (h : Same s s' n) :
    (lookupClassMethod s' n m).map s'.running=(lookupClassMethod s n m).map s.running := by
  unfold lookupClassMethod
  rw [h.walk]
  cases hp : s.walk n (·.classMethods m) with
  | none => rfl
  | some p =>
    obtain ⟨v,hv,hg⟩ := found_in hp
    simp only [Option.map_some,running_eq hi hk hv ⟨m,.inr (.inr (.inr hg))⟩]

theorem property_view {A : Type} {n a : String} (h : Same s s' n)
    (F : State P O B → PropertyDef P → Option A)
    (hF : ∀ m v p,s.classes m=some v → v.properties a=some p → F s' p=F s p) :
    (lookupProperty s' n a).bind (F s')=(lookupProperty s n a).bind (F s) := by
  unfold lookupProperty
  rw [h.walk]
  cases hp : s.walk n (·.properties a) with
  | none => rfl
  | some p =>
    obtain ⟨v,hv,hg⟩ := found_in hp
    exact hF p.1 v p.2 hv hg

theorem metaclassAttribute_same {k a : String} (h : Same s s' k) :
    metaclassAttribute s' k a=metaclassAttribute s k a := by
  unfold metaclassAttribute lookupClassAttr lookupMethodInMro
  rw [h.walk,h.walk]

theorem classAttribute_same {a : String} (h : Unchanged s s' c) :
    classAttribute s' c a=classAttribute s c a := by
  have hname : qualnameOf s' c=qualnameOf s c := by
    unfold qualnameOf
    rw [h.own.1]
  unfold classAttribute lookupStaticMethod lookupClassMethod lookupClassAttr lookupMethodInMro
  rw [hname,h.own.walk,h.own.walk,h.own.walk,h.own.walk,h.own.walk,h.own.1]
  cases hk : (s.classes c).bind (·.metaclass) with
  | none => rfl
  | some k => simp only [metaclassAttribute_same (h.kind k hk)]

theorem behind_along {d : String} {names : List String} (h : behind s d c=.ok names) :
    ∃ v,s.classes c=some v ∧ ∀ n∈names,n∈v.mro := by
  unfold behind at h
  cases hv : s.classes c with
  | none =>
    rw [hv] at h
    cases h
  | some v =>
    refine ⟨v,rfl,?_⟩
    rw [hv] at h
    simp only at h
    split at h <;> cases h
    exact fun n hn => List.mem_of_mem_drop hn

theorem Same.behind {d : String} (h : Same s s' c) : behind s' d c=behind s d c := by
  unfold ClassTable.behind
  rw [h.1]

theorem Same.findIn {A : Type} {g : ClassValue P O → Option A} {v : ClassValue P O}
    {names : List String} (h : Same s s' c) (hv : s.classes c=some v) (hn : ∀ n∈names,n∈v.mro) :
    Lineage.findIn s'.classes g names=Lineage.findIn s.classes g names :=
  Lineage.findIn_congr fun n hmem => h.2 v hv n (hn n hmem)

theorem superMethod_view {d m : String} (hi : Inv s) (hk : Keeps s s') (h : Same s s' c) :
    (superMethod s' d c m).map (Option.map fun p => (p.1,s'.running p.2))=
      (superMethod s d c m).map (Option.map fun p => (p.1,s.running p.2)) := by
  unfold superMethod
  rw [h.behind]
  cases hb : behind s d c with
  | error failure => rfl
  | ok names =>
    obtain ⟨v,hv,hn⟩ := behind_along hb
    simp only [Except.map,h.findIn hv hn]
    cases hp : Lineage.findIn s.classes (·.methods m) names with
    | none => rfl
    | some p =>
      have hmem := (Lineage.mem_of_findIn hp).2
      obtain ⟨w,hw,hg⟩ := Option.bind_eq_some_iff.mp hmem
      simp only [Option.map_some,running_eq hi hk hw ⟨m,.inl hg⟩]

theorem superAttribute_same {d a : String} (h : Same s s' c) :
    superAttribute s' d c a=superAttribute s d c a := by
  unfold superAttribute
  rw [h.behind]
  cases hb : behind s d c with
  | error failure => rfl
  | ok names =>
    obtain ⟨v,hv,hn⟩ := behind_along hb
    simp only [h.findIn hv hn]

theorem checkIsinstance_same {t : String} (h : Same s s' c) :
    checkIsinstance s' c t=checkIsinstance s c t := by
  unfold checkIsinstance instanceMatchesAbc lookupMethodInMro
  simp only [h.walk,h.1]

theorem view_unchanged (hi : Inv s) (hk : Keeps s s') (h : Unchanged s s' c) :
    view s' c=view s c := by
  have hproperty {A : Type} (a : String) (F : State P O B → PropertyDef P → Option A)
      (hF : ∀ m v p,s.classes m=some v → v.properties a=some p → F s' p=F s p) :=
    property_view h.own F hF
  have hrun {m v} {p : PropertyDef P} {a : String} {f : FunctionDef P}
      (hv : s.classes m=some v) (hp : v.properties a=some p) (hf : p.Has f) :
      s'.running f=s.running f :=
    running_eq hi hk hv ⟨a,.inr (.inl ⟨p,hp,hf⟩)⟩
  unfold view
  congr 1
  · rw [h.own.1]
  · rw [h.own.1]
  · exact funext fun m => method_view hi hk h.own
  · funext a
    have hget := hproperty a (fun s p => some (s.running p.getter)) fun m v p hv hp => by
      rw [hrun hv hp (.inl rfl)]
    rw [Option.map_eq_bind,Option.map_eq_bind]
    exact hget
  · funext a
    refine hproperty a (fun s p => p.setter.map s.running) fun m v p hv hp => ?_
    cases hset : p.setter with
    | none => rfl
    | some f => simp only [Option.map_some,hrun hv hp (.inr (.inl hset))]
  · funext a
    refine hproperty a (fun s p => p.deleter.map s.running) fun m v p hv hp => ?_
    cases hdel : p.deleter with
    | none => rfl
    | some f => simp only [Option.map_some,hrun hv hp (.inr (.inr hdel))]
  · exact funext fun m => static_view hi hk h.own
  · exact funext fun m => classMethod_view hi hk h.own
  · funext a
    unfold lookupClassAttr
    rw [h.own.walk]
  · funext a
    unfold lookupClassAttrInstance
    rw [h.own.walk]
  · exact funext fun a => classAttribute_same h
  · exact funext fun d => funext fun m => superMethod_view hi hk h.own
  · exact funext fun d => funext fun a => superAttribute_same h.own
  · exact funext fun t => checkIsinstance_same h.own

end View

variable {s₁ s₂ : State P O B}

/-- The classes that the steps record, by name. -/
def created (s : State P O B) : List (Event P O B) → List String
  | [] => []
  | e::es =>
    match step s e with
    | some s' => (recordedBy s e).toList++created s' es
    | none => []

/-- The class `c` of `s₁` has nothing to do with the classes that were recorded since. -/
structure Independent (s₁ s₂ : State P O B) (later : List String) (c : String) : Prop where
  seen : view s₂ c=view s₁ c
  bodies : ∀ key,s₁.Settled key → s₂.functionBodies key=s₁.functionBodies key
  reached : ∀ (A : Type) (g : ClassValue P O → Option A) p,s₂.walk c g=some p → p.1∉later
  typed : ∀ d∈later,(typeObjectOf d : Value P O)≠typeObjectOf c
  isinstance : ∀ d∈later,checkIsinstance s₂ c d=false
  derived : ∀ d∈later,checkIsinstance s₂ d c=true ↔ c∈s₂.mroOf d

/-- No step assigns an attribute of `c`, of what it inherits from or of its metaclass. -/
def Unassigned (s : State P O B) (es : List (Event P O B)) (c : String) : Prop :=
  ∀ e∈es,∀ cls,e.assigned=some cls → cls∉lineage s c

/-- A name that is no part of the order of `c`. -/
structure Apart (s : State P O B) (c d : String) : Prop where
  ne : d≠c
  unlinked : d∉s.mroOf c
  plain : ¬reserved d

theorem Free.apart {d : String} (h : Free s d) (hc : (s.classes c).isSome) : Apart s c d := by
  obtain ⟨v,hv⟩ := Option.isSome_iff_exists.mp hc
  refine ⟨fun heq => ?_,?_,h.plain⟩
  · have hnone := h.unrecorded
    rw [heq,hv] at hnone
    cases hnone
  · simpa only [State.mroOf,hv,Option.elim_some] using h.unlinked c v hv

/-- A run that keeps names apart leaves a class alone and creates only classes apart from it. -/
theorem run_apart {es : List (Event P O B)} (hi : Inv s₁) (hf : FreshRun s₁ es)
    (hc : (s₁.classes c).isSome) (ha : Unassigned s₁ es c) (h : run s₁ es=some s₂) :
    Keeps s₁ s₂ ∧ Unchanged s₁ s₂ c ∧ ∀ d∈created s₁ es,Apart s₁ c d := by
  induction es generalizing s₁ with
  | nil =>
    cases h
    exact ⟨.refl,.refl,fun d hd => nomatch hd⟩
  | cons e es ih =>
    obtain ⟨m,hm,hrest⟩ := Option.bind_eq_some_iff.mp h
    have hmoves := step_moves hm
    have hkeep := moves_keeps hf.1 hmoves
    have hsame := moves_unchanged hi hf.1 hmoves hc (ha e List.mem_cons_self)
    have hlater : Unassigned m es c := fun e' he' cls hcls => by
      rw [hsame.lineage]
      exact ha e' (List.mem_cons_of_mem e he') cls hcls
    obtain ⟨hkeep',hsame',hapart⟩ := ih (inv_moves hi hf.1 hmoves) (hf.2 m hm)
      (hkeep.recorded c hc) hlater hrest
    refine ⟨hkeep.trans hkeep',hsame.trans hsame',fun d hd => ?_⟩
    simp only [created,hm,List.mem_append,Option.mem_toList] at hd
    rcases hd with hnew | hold
    · exact (hf.1.records d hnew).apart hc
    · obtain ⟨hne,hout,hplain⟩ := hapart d hold
      exact ⟨hne,Same.mroOf hsame.own ▸ hout,hplain⟩

theorem checkIsinstance_iff {d t : String} (hne : d≠t) (hp : ¬reserved t) :
    checkIsinstance s d t=true ↔ t∈s.mroOf d := by
  obtain ⟨hobject,htype,habc⟩ : t≠"object" ∧ t≠"type" ∧ isCollectionsAbc t≠true :=
    ⟨fun h => hp (.inl h),fun h => hp (.inr (.inl h)),fun h => hp (.inr (.inr h))⟩
  unfold checkIsinstance State.mroOf
  rw [if_neg hobject,if_neg habc,if_neg htype,if_neg hne]
  cases s.classes d with
  | none => simp only [Bool.false_eq_true,Option.elim_none,List.not_mem_nil]
  | some v => simp only [List.any_eq_true,beq_iff_eq,exists_eq_right,Option.elim_some]

theorem walk_along {A : Type} {g : ClassValue P O → Option A} {p : String×A}
    (h : s.walk c g=some p) : p.1∈s.mroOf c := by
  obtain ⟨w,hw,hfind⟩ := Option.bind_eq_some_iff.mp h
  rw [State.mroOf,hw]
  exact (Lineage.mem_of_findIn hfind).1

/-- A class keeps what it shows and what it runs, and stays apart from later classes, as long as
these come under names of their own. -/
theorem classes_distinct {es₁ es₂ : List (Event P O B)} (h₁ : run initial es₁=some s₁)
    (hf₁ : FreshRun initial es₁) (hc : (s₁.classes c).isSome) (h₂ : run s₁ es₂=some s₂)
    (hf₂ : FreshRun s₁ es₂) (ha : Unassigned s₁ es₂ c) :
    Independent s₁ s₂ (created s₁ es₂) c := by
  have hi := inv_run inv_initial hf₁ h₁
  obtain ⟨hkeep,hsame,hapart⟩ := run_apart hi hf₂ hc ha h₂
  have hmro : s₂.mroOf c=s₁.mroOf c := Same.mroOf hsame.own
  refine ⟨view_unchanged hi hkeep hsame,hkeep.bodies,fun A g p hp hd => ?_,fun d hd heq => ?_,
    fun d hd => ?_,fun d hd => ?_⟩
  · exact (hapart p.1 hd).unlinked (hmro ▸ walk_along hp)
  · exact (hapart d hd).ne (Value.cls.inj heq)
  · have hd := hapart d hd
    have hiff := checkIsinstance_iff (s := s₂) hd.ne.symm hd.plain
    rw [hmro] at hiff
    exact Bool.eq_false_iff.mpr fun h => hd.unlinked (hiff.mp h)
  · exact checkIsinstance_iff (hapart d hd).ne (hi.plain c hc)

section Samples

/-- `class name: def f(self): return body`. -/
def statement (name : String) (body : ℕ) : List (Event Unit Unit ℕ) :=
  [.openClass name [] none,.defMethod "f" .plain () body,.closeClass]

def sampleBuild (name : String) : Build Unit Unit :=
  {(Build.new name [] none name : Build Unit Unit) with
    methods := Function.update (fun _ => none) "f" (some ⟨.member name "f",()⟩)}

def State.stated (s : State Unit Unit ℕ) (name : String) (body : ℕ) : State Unit Unit ℕ :=
  (s.cache (.member name "f") body).register name ((sampleBuild name).classValue [name])

variable {t : State Unit Unit ℕ}

theorem run_statement (hs : t.builds=[]) (name : String) (body : ℕ) :
    run t (statement name body)=some (t.stated name body) := by
  obtain ⟨classes,bodies,cursor,builds⟩ := t
  cases hs
  have hmro (r : Classes.Registry) : Classes.buildMro name [] r=.ok [name] :=
    Classes.mergeLoop_done _ _ _ rfl
  have hopen : step (⟨classes,bodies,cursor,[]⟩ : State Unit Unit ℕ) (.openClass name [] none)=
      some ⟨classes,bodies,cursor,[.new name [] none name]⟩ := rfl
  have hdef : step (⟨classes,bodies,cursor,[.new name [] none name]⟩ : State Unit Unit ℕ)
      (.defMethod "f" .plain () body)=some ⟨classes,
        Function.update bodies (.member name "f") (some body),cursor,[sampleBuild name]⟩ := rfl
  simp only [statement,run,hopen,hdef,Option.bind_some]
  simp only [step,sampleBuild,Build.new,hmro,Option.bind_some]
  rfl

theorem free_register {n k : String} {v : ClassValue Unit Unit} (h : Free t n) (hne : n≠k)
    (hout : n∉v.mro) : Free (t.register k v) n := by
  refine ⟨by rw [register_of_ne hne,h.unrecorded],fun c w hw => ?_,h.plain⟩
  by_cases hc : c=k
  · rw [hc,register_self] at hw
    exact Option.some.inj hw ▸ hout
  · rw [register_of_ne hc] at hw
    exact h.unlinked c w hw

theorem free_initial {n : String} (h : seeded.lookup n=none) (hp : ¬reserved n) :
    Free (initial : State Unit Unit ℕ) n := by
  have hnone : (initial : State Unit Unit ℕ).classes n=none := by
    simp only [ClassTable.initial,h,Option.map_none]
  refine ⟨hnone,fun c v hv hmem => ?_,hp⟩
  obtain ⟨fields,hf,hseeded⟩ := Option.map_eq_some_iff.mp hv
  rw [← hseeded] at hmem
  have heq : n=c := List.mem_singleton.mp hmem
  rw [heq,hv] at hnone
  cases hnone

theorem statement_fresh {name : String} (hs : t.builds=[]) (h : Free t name) (body : ℕ) :
    FreshRun t (statement name body) := by
  obtain ⟨classes,bodies,cursor,builds⟩ := t
  cases hs
  refine ⟨⟨fun n hn => (nomatch hn),fun n hn => nomatch hn⟩,fun s₁ h₁ => ?_⟩
  cases h₁
  refine ⟨⟨fun n hn => (nomatch hn),fun n hn => ?_⟩,fun s₂ h₂ => ?_⟩
  · cases hn
    exact h.unrecorded
  cases h₂
  refine ⟨⟨fun n hn => ?_,fun n hn => nomatch hn⟩,fun s₃ _ => trivial⟩
  obtain ⟨mro,-,rfl⟩ := Option.map_eq_some_iff.mp hn
  exact ⟨h.unrecorded,h.unlinked,h.plain⟩

theorem statement_unassigned {name : String} {body : ℕ} : Unassigned t (statement name body) c := by
  intro e he cls hcls
  simp only [statement,List.mem_cons,List.not_mem_nil,or_false] at he
  rcases he with rfl | rfl | rfl <;> cases hcls

def afterA : State Unit Unit ℕ := initial.stated "A" 1

theorem classes_distinct_two :
    Independent afterA (afterA.stated "B" 2) (created afterA (statement "B" 2)) "A" := by
  have hA : Free (initial : State Unit Unit ℕ) "A" := free_initial rfl (by decide)
  have hB : Free afterA "B" := by
    refine free_register ?_ (by decide) (by decide)
    exact ⟨rfl,(free_initial rfl (by decide)).unlinked,by decide⟩
  exact classes_distinct (run_statement rfl "A" 1) (statement_fresh rfl hA 1) rfl
    (run_statement rfl "B" 2) (statement_fresh rfl hB 2) statement_unassigned

/-- A second class of the name takes the first one's place: an instance of the first class runs the
second one's method. -/
theorem second_class_replaces : ¬∀ (es₁ es₂ : List (Event Unit Unit ℕ)) s₁ s₂ c,
    run initial es₁=some s₁ → (s₁.classes c).isSome → run s₁ es₂=some s₂ →
      Unassigned s₁ es₂ c → Independent s₁ s₂ (created s₁ es₂) c := by
  intro h
  have hA := h _ _ afterA (afterA.stated "A" 2) "A" (run_statement rfl "A" 1) rfl
    (run_statement rfl "A" 2) statement_unassigned
  have hbody := hA.bodies (.member "A" "f") rfl
  cases hbody

end Samples

end ClassTable
end InterpretThis
