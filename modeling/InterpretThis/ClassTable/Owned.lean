import InterpretThis.ClassTable.Lookup

namespace InterpretThis
namespace ClassTable

variable {P O B : Type} {s s' : State P O B} {e : Event P O B}

def PropertyDef.Has (p : PropertyDef P) (f : FunctionDef P) : Prop :=
  f=p.getter ∨ p.setter=some f ∨ p.deleter=some f

/-- The functions in the tables of a class. -/
def ClassValue.Has (v : ClassValue P O) (f : FunctionDef P) : Prop :=
  ∃ n,v.methods n=some f ∨ (∃ p,v.properties n=some p ∧ p.Has f) ∨
    v.staticMethods n=some f ∨ v.classMethods n=some f

/-- Every function of a class has its body under the name of the class. -/
def ClassValue.Owned (name : String) (v : ClassValue P O) : Prop :=
  ∀ f,v.Has f → ∃ rest,f.key=.member name rest

def Build.Owned (b : Build P O) : Prop := (b.classValue []).Owned b.name

theorem Build.new_owned (name : String) (bases : List String) (metaclass : Option String)
    (qualname : String) : (Build.new name bases metaclass qualname : Build P O).Owned := by
  rintro f ⟨n,h | ⟨p,h,-⟩ | h | h⟩ <;> cases h

theorem update_some {A : Type} {t : String → Option A} {n m : String} {a b : A}
    (h : Function.update t n (some a) m=some b) : b=a ∨ t m=some b := by
  by_cases hm : m=n
  · rw [hm,Function.update_self] at h
    exact .inl (Option.some.inj h).symm
  · rw [Function.update_of_ne hm] at h
    exact .inr h

section Classify

variable {b b' : Build P O} {name : String} {f g : FunctionDef P} {decoration : Decoration}

theorem Build.classify_keeps (h : b.classify name f decoration=some b') :
    b'.name=b.name ∧ b'.metaclass=b.metaclass := by
  cases decoration with
  | setter p =>
    obtain ⟨prop,-,hb⟩ := Option.map_eq_some_iff.mp h
    rw [← hb]
    exact ⟨rfl,rfl⟩
  | deleter p =>
    obtain ⟨prop,-,hb⟩ := Option.map_eq_some_iff.mp h
    rw [← hb]
    exact ⟨rfl,rfl⟩
  | plain => cases h; exact ⟨rfl,rfl⟩
  | property cached => cases h; exact ⟨rfl,rfl⟩
  | staticMethod => cases h; exact ⟨rfl,rfl⟩
  | classMethod => cases h; exact ⟨rfl,rfl⟩
  | custom => cases h; exact ⟨rfl,rfl⟩

theorem has_of_property {v : ClassValue P O} {k : String} {new : PropertyDef P}
    (hnew : ∀ g,new.Has g → g=f ∨ v.Has g)
    (hg : ({v with properties := Function.update v.properties k (some new)} : ClassValue P O).Has g) :
    g=f ∨ v.Has g := by
  obtain ⟨n,h | ⟨p,hp,h⟩ | h⟩ := hg
  · exact .inr ⟨n,.inl h⟩
  · rcases update_some hp with rfl | hold
    · exact hnew g h
    · exact .inr ⟨n,.inr (.inl ⟨p,hold,h⟩)⟩
  · exact .inr ⟨n,.inr (.inr h)⟩

/-- A definition adds its own function at most. -/
theorem Build.classify_has (h : b.classify name f decoration=some b')
    (hg : (b'.classValue []).Has g) : g=f ∨ (b.classValue []).Has g := by
  cases decoration with
  | plain =>
    cases h
    obtain ⟨n,hn | hn⟩ := hg
    · exact (update_some hn).imp id fun hold => ⟨n,.inl hold⟩
    · exact .inr ⟨n,.inr hn⟩
  | staticMethod =>
    cases h
    obtain ⟨n,hn | hn | hn | hn⟩ := hg
    · exact .inr ⟨n,.inl hn⟩
    · exact .inr ⟨n,.inr (.inl hn)⟩
    · exact (update_some hn).imp id fun hold => ⟨n,.inr (.inr (.inl hold))⟩
    · exact .inr ⟨n,.inr (.inr (.inr hn))⟩
  | classMethod =>
    cases h
    obtain ⟨n,hn | hn | hn | hn⟩ := hg
    · exact .inr ⟨n,.inl hn⟩
    · exact .inr ⟨n,.inr (.inl hn)⟩
    · exact .inr ⟨n,.inr (.inr (.inl hn))⟩
    · exact (update_some hn).imp id fun hold => ⟨n,.inr (.inr (.inr hold))⟩
  | property cached =>
    cases h
    refine has_of_property ?_ hg
    rintro g (hget | hset | hdel)
    · exact .inl hget
    · cases hset
    · cases hdel
  | setter p =>
    obtain ⟨prop,hprop,hb⟩ := Option.map_eq_some_iff.mp h
    rw [← hb] at hg
    refine has_of_property ?_ hg
    rintro g (hget | hset | hdel)
    · exact .inr ⟨p,.inr (.inl ⟨prop,hprop,.inl hget⟩)⟩
    · exact .inl (Option.some.inj hset).symm
    · exact .inr ⟨p,.inr (.inl ⟨prop,hprop,.inr (.inr hdel)⟩)⟩
  | deleter p =>
    obtain ⟨prop,hprop,hb⟩ := Option.map_eq_some_iff.mp h
    rw [← hb] at hg
    refine has_of_property ?_ hg
    rintro g (hget | hset | hdel)
    · exact .inr ⟨p,.inr (.inl ⟨prop,hprop,.inl hget⟩)⟩
    · exact .inr ⟨p,.inr (.inl ⟨prop,hprop,.inr (.inl hset)⟩)⟩
    · exact .inl (Option.some.inj hdel).symm
  | custom =>
    cases h
    exact .inr hg

theorem Build.Owned.classify {rest : String} (hb : b.Owned) (hf : f.key=.member b.name rest)
    (h : b.classify name f decoration=some b') : b'.Owned := by
  intro g hg
  rw [(Build.classify_keeps h).1]
  rcases Build.classify_has h hg with rfl | hold
  · exact ⟨rest,hf⟩
  · exact hb g hold

end Classify

/-- Names that the interpreter reads as something else than a recorded class. -/
def reserved (name : String) : Prop := name="object" ∨ name="type" ∨ isCollectionsAbc name=true

instance (name : String) : Decidable (reserved name) :=
  inferInstanceAs (Decidable (_ ∨ _ ∨ _))

/-- What holds of the tables in every run that keeps names apart. -/
structure Inv (s : State P O B) : Prop where
  owned : ∀ c v,s.classes c=some v → v.Owned c
  kinds : ∀ c v k,s.classes c=some v → v.metaclass=some k → (s.classes k).isSome
  plain : ∀ c,(s.classes c).isSome → ¬reserved c
  buildOwned : ∀ b∈s.builds,b.Owned
  buildKinds : ∀ b∈s.builds,∀ k,b.metaclass=some k → (s.classes k).isSome

/-- The name that the step records a class under. -/
def recordedBy (s : State P O B) : Event P O B → Option String
  | .closeClass => s.builds.head?.bind fun b =>
    (Classes.buildMro b.name b.bases s.registry).toOption.map fun _ => b.name
  | .typeNew name bases _ => (typeBases bases).bind fun bs =>
    (Classes.buildMro name bs s.registry).toOption.map fun _ => name
  | .namedtuple name .. => some name
  | .marker name => if (s.classes name).isSome then none else some name
  | _ => none

/-- The class under whose name the step caches a body. -/
def definesIn (s : State P O B) : Event P O B → Option String
  | .defMethod .. => s.builds.head?.map (·.name)
  | .namedtuple name .. => some name
  | _ => none

/-- No class has the name, none has it among its ancestors and it means nothing else. -/
structure Free (s : State P O B) (name : String) : Prop where
  unrecorded : s.classes name=none
  unlinked : ∀ c v,s.classes c=some v → name∉v.mro
  plain : ¬reserved name

/-- The step uses no name of an earlier class. -/
structure Fresh (s : State P O B) (e : Event P O B) : Prop where
  records : ∀ n,recordedBy s e=some n → Free s n
  defines : ∀ n,definesIn s e=some n → s.classes n=none

def FreshRun (s : State P O B) : List (Event P O B) → Prop
  | [] => True
  | e::es => Fresh s e ∧ ∀ s',step s e=some s' → FreshRun s' es

theorem Fresh.close {b : Build P O} {builds : List (Build P O)} {mro : List String}
    (h : Fresh s .closeClass) (hs : s.builds=b::builds)
    (hm : Classes.buildMro b.name b.bases s.registry=.ok mro) : Free s b.name := by
  refine h.records b.name ?_
  simp only [recordedBy,hs,hm,List.head?_cons,Option.bind_some]
  rfl

theorem Fresh.create {name : String} {bases : List (Value P O)} {bs mro : List String}
    {attrs : List (String×Value P O)} (h : Fresh s (.typeNew name bases attrs))
    (hb : typeBases bases=some bs) (hm : Classes.buildMro name bs s.registry=.ok mro) :
    Free s name := by
  refine h.records name ?_
  simp only [recordedBy,hb,hm,Option.bind_some]
  rfl

theorem Fresh.mark {name : String} (h : Fresh s (.marker name)) (hn : s.classes name=none) :
    Free s name := by
  refine h.records name ?_
  simp only [recordedBy,hn,Option.isSome_none,Bool.false_eq_true,if_false]

theorem register_self {n : String} {c : ClassValue P O} : (s.register n c).classes n=some c :=
  Function.update_self ..

theorem register_of_ne {n k : String} {c : ClassValue P O} (h : k≠n) :
    (s.register n c).classes k=s.classes k :=
  Function.update_of_ne h ..

theorem isSome_register {n k : String} {c : ClassValue P O} (h : (s.classes k).isSome) :
    ((s.register n c).classes k).isSome := by
  by_cases hk : k=n
  · rw [hk,register_self]
    rfl
  · rwa [register_of_ne hk]

/-- Recording a class of the running name keeps the tables in order. -/
theorem Inv.register {n : String} {c : ClassValue P O} (hi : Inv s) (ho : c.Owned n)
    (hk : ∀ k,c.metaclass=some k → (s.classes k).isSome) (hp : ¬reserved n) :
    Inv (s.register n c) where
  owned m v hv := by
    by_cases hm : m=n
    · subst hm
      rw [register_self] at hv
      exact Option.some.inj hv ▸ ho
    · rw [register_of_ne hm] at hv
      exact hi.owned m v hv
  kinds m v k hv hkind := by
    refine isSome_register ?_
    by_cases hm : m=n
    · subst hm
      rw [register_self] at hv
      exact hk k (Option.some.inj hv ▸ hkind)
    · rw [register_of_ne hm] at hv
      exact hi.kinds m v k hv hkind
  plain m hm := by
    by_cases heq : m=n
    · exact heq ▸ hp
    · rw [register_of_ne heq] at hm
      exact hi.plain m hm
  buildOwned := hi.buildOwned
  buildKinds b hb k hkind := isSome_register (hi.buildKinds b hb k hkind)

theorem Inv.rebuild {builds : List (Build P O)} (hi : Inv s)
    (ho : ∀ b∈builds,b.Owned ∧ ∀ k,b.metaclass=some k → (s.classes k).isSome) :
    Inv {s with builds := builds} where
  owned := hi.owned
  kinds := hi.kinds
  plain := hi.plain
  buildOwned b hb := (ho b hb).1
  buildKinds b hb := (ho b hb).2

theorem Inv.cache {key : BodyKey} {body : B} (hi : Inv s) : Inv (s.cache key body) :=
  ⟨hi.owned,hi.kinds,hi.plain,hi.buildOwned,hi.buildKinds⟩

theorem Inv.cacheMembers {name : String} {made : String → P×B} (ms : List String) (hi : Inv s) :
    Inv (s.cacheMembers name made ms) := by
  induction ms generalizing s with
  | nil => exact hi
  | cons m ms ih => exact ih hi.cache

theorem cacheMembers_classes (name : String) (made : String → P×B) (ms : List String)
    (s : State P O B) : (s.cacheMembers name made ms).classes=s.classes := by
  induction ms generalizing s with
  | nil => rfl
  | cons m ms ih => exact ih _

theorem namedtupleClass_owned (name : String) (fields : List String) (defaults : O)
    (made : String → P×B) : (namedtupleClass name fields defaults made).Owned name := by
  rintro f ⟨n,h | ⟨p,h,-⟩ | h | h⟩
  · obtain ⟨-,hf⟩ := Option.ite_none_right_eq_some.mp h
    exact ⟨n,by rw [← Option.some.inj hf]⟩
  · cases h
  · obtain ⟨-,hf⟩ := Option.ite_none_right_eq_some.mp h
    exact ⟨n,by rw [← Option.some.inj hf]⟩
  · cases h

theorem new_owned (name : String) : (ClassValue.new name : ClassValue P O).Owned name := by
  rintro f ⟨n,h | ⟨p,h,-⟩ | h | h⟩ <;> cases h

theorem Inv.building (hi : Inv s) {b : Build P O} (hb : b∈s.builds) :
    b.Owned ∧ ∀ k,b.metaclass=some k → (s.classes k).isSome :=
  ⟨hi.buildOwned b hb,hi.buildKinds b hb⟩

theorem inv_moves (hi : Inv s) (hf : Fresh s e) (h : Moves s e s') : Inv s' := by
  cases h with
  | stays => exact hi
  | opens kind bs qualname hkind =>
    refine hi.rebuild fun b hb => ?_
    rcases List.mem_cons.mp hb with rfl | hold
    · refine ⟨Build.new_owned _ bs kind qualname,fun k hk => ?_⟩
      rcases hkind k hk with hs | ⟨c,v,hv,hm⟩
      · exact hs
      · exact hi.kinds c v k hv hm
    · exact hi.building hold
  | @defines name decoration data body b builds b' hs hb =>
    have hrun := hi.building (hs ▸ List.mem_cons_self)
    obtain ⟨hname,hmeta⟩ := Build.classify_keeps hb
    refine hi.cache.rebuild fun c hc => ?_
    rcases List.mem_cons.mp hc with rfl | hold
    · exact ⟨hrun.1.classify rfl hb,hmeta ▸ hrun.2⟩
    · exact hi.building (hs ▸ List.mem_cons_of_mem b hold)
  | @binds name v b builds hs =>
    have hrun := hi.building (hs ▸ List.mem_cons_self)
    refine hi.rebuild fun c hc => ?_
    rcases List.mem_cons.mp hc with rfl | hold
    · exact hrun
    · exact hi.building (hs ▸ List.mem_cons_of_mem b hold)
  | @closes b builds mro hs hm =>
    have hrun := hi.building (hs ▸ List.mem_cons_self)
    have hrest : Inv {s with builds := builds} := hi.rebuild fun c hc =>
      hi.building (hs ▸ List.mem_cons_of_mem b hc)
    exact hrest.register hrun.1 hrun.2 (hf.close hs hm).plain
  | @drops b builds _ hs =>
    exact hi.rebuild fun c hc => hi.building (hs ▸ List.mem_cons_of_mem b hc)
  | defs => exact ⟨hi.owned,hi.kinds,hi.plain,hi.buildOwned,hi.buildKinds⟩
  | creates hb hm =>
    refine hi.register ?_ (fun k hk => nomatch hk) (hf.create hb hm).plain
    rintro f ⟨n,h | ⟨p,h,-⟩ | h | h⟩ <;> cases h
  | @makes name fields defaults made =>
    exact (hi.cacheMembers namedtupleMembers).register (namedtupleClass_owned name fields defaults made)
      (fun k hk => nomatch hk) (hf.records name rfl).plain
  | @marks name hn =>
    exact hi.register (new_owned name) (fun k hk => nomatch hk) (hf.mark hn).plain
  | @assigns cls attr v c hc =>
    have hsome : (s.classes cls).isSome := hc ▸ rfl
    exact hi.register (hi.owned cls c hc) (hi.kinds cls c · hc) (hi.plain cls hsome)

theorem inv_initial : Inv (initial : State P O B) where
  owned c v hv := by
    obtain ⟨fields,-,rfl⟩ := Option.map_eq_some_iff.mp hv
    rintro f ⟨n,h | ⟨p,h,-⟩ | h | h⟩ <;> cases h
  kinds c v k hv hk := by
    obtain ⟨fields,-,rfl⟩ := Option.map_eq_some_iff.mp hv
    cases hk
  plain c hc := by
    obtain ⟨v,hv⟩ := Option.isSome_iff_exists.mp hc
    obtain ⟨fields,hf,-⟩ := Option.map_eq_some_iff.mp hv
    obtain ⟨before,rest,hseeded,-⟩ := List.lookup_eq_some_iff.mp hf
    have hmem : (c,fields)∈seeded := hseeded ▸ List.mem_append_right _ List.mem_cons_self
    have hnames : ∀ p∈seeded,¬reserved p.1 := by decide
    exact hnames _ hmem
  buildOwned b hb := nomatch hb
  buildKinds b hb := nomatch hb

theorem inv_run {es : List (Event P O B)} (hi : Inv s) (hf : FreshRun s es)
    (h : run s es=some s') : Inv s' := by
  induction es generalizing s with
  | nil =>
    cases h
    exact hi
  | cons e es ih =>
    obtain ⟨m,hm,hrest⟩ := Option.bind_eq_some_iff.mp h
    exact ih (inv_moves hi hf.1 (step_moves hm)) (hf.2 m hm) hrest

end ClassTable
end InterpretThis
