import Mathlib.Data.List.Nodup
import Mathlib.Data.List.Perm.Basic

namespace InterpretThis.Calling

/-- A parameter of a callable: whether a keyword can fill it, and its default. -/
structure Formal (K V : Type) where
  name : K
  byKeyword : Bool
  default : Option V

/-- What a callable takes; `star` and `starStar` say whether it collects the other arguments. -/
structure Signature (K V : Type) where
  positional : List (Formal K V)
  star : Bool
  keywordOnly : List (Formal K V)
  starStar : Bool

/-- The arguments placed so far. -/
structure Slots (K V : Type) where
  filled : List (K×V)
  star : List V
  extra : List (K×V)

/-- An accepted call: the value of every parameter, and where the arguments went. -/
structure Call (K V : Type) extends Slots K V where
  values : List (K×V)

variable {K V : Type}

section Rules

variable [DecidableEq K]

namespace Signature

def formals (sig : Signature K V) : List (Formal K V) := sig.positional++sig.keywordOnly

def takes (sig : Signature K V) (k : K) : Bool := sig.formals.any fun p => p.byKeyword && p.name==k

/-- The argument in position `i` fills the parameter there or is collected. -/
def position (sig : Signature K V) (i : Nat) (v : V) (s : Slots K V) : Option (Slots K V) :=
  match sig.positional[i]? with
  | some p => some {s with filled := s.filled++[(p.name,v)]}
  | none => if sig.star then some {s with star := s.star++[v]} else none

def positions (sig : Signature K V) : Nat → List V → Slots K V → Option (Slots K V)
  | _,[],s => some s
  | i,v::vs,s => (sig.position i v s).bind (sig.positions (i+1) vs)

/-- A keyword fills its parameter, once, or is collected. -/
def keyword (sig : Signature K V) (e : K×V) (s : Slots K V) : Option (Slots K V) :=
  if sig.takes e.1 then
    if e.1 ∈ s.filled.map Prod.fst then none else some {s with filled := s.filled++[e]}
  else if sig.starStar then some {s with extra := s.extra++[e]} else none

def keywords (sig : Signature K V) : List (K×V) → Slots K V → Option (Slots K V)
  | [],s => some s
  | e::es,s => (sig.keyword e s).bind (sig.keywords es)

def valueOf (filled : List (K×V)) (p : Formal K V) : Option V := (filled.lookup p.name).or p.default

def complete (filled : List (K×V)) : List (Formal K V) → Option (List (K×V))
  | [] => some []
  | p::ps => (valueOf filled p).bind fun v => (complete filled ps).map fun rest => (p.name,v)::rest

/-- The slots are filled by position, then by keyword, and the rest by the defaults. -/
def call (sig : Signature K V) (args : List V) (kwargs : List (K×V)) : Option (Call K V) :=
  (sig.positions 0 args ⟨[],[],[]⟩).bind fun s => (sig.keywords kwargs s).bind fun s =>
    (complete s.filled sig.formals).map fun values => ⟨s,values⟩

end Signature

end Rules

section Conservation

def Slots.held (s : Slots K V) : List V := s.filled.map Prod.snd++s.star++s.extra.map Prod.snd

theorem held_fill (s : Slots K V) (k : K) (v : V) :
    ({s with filled := s.filled++[(k,v)]} : Slots K V).held.Perm (v::s.held) := by
  simp only [Slots.held,List.map_append,List.map_cons,List.map_nil,List.append_assoc]
  exact List.perm_middle

theorem held_collect (s : Slots K V) (v : V) :
    ({s with star := s.star++[v]} : Slots K V).held.Perm (v::s.held) := by
  unfold Slots.held
  rw [← List.append_assoc,List.append_assoc _ [v]]
  exact List.perm_middle

theorem held_extra (s : Slots K V) (k : K) (v : V) :
    ({s with extra := s.extra++[(k,v)]} : Slots K V).held.Perm (v::s.held) := by
  simp only [Slots.held,List.map_append,List.map_cons,List.map_nil,← List.append_assoc]
  exact List.perm_append_singleton v _

variable [DecidableEq K] {sig : Signature K V} {s t : Slots K V}

theorem held_position {i : Nat} {v : V} (h : sig.position i v s=some t) :
    t.held.Perm (v::s.held) := by
  unfold Signature.position at h
  cases hp : sig.positional[i]? with
  | some p =>
    rw [hp] at h
    cases h
    exact held_fill s p.name v
  | none =>
    simp only [hp] at h
    split_ifs at h
    cases h
    exact held_collect s v

theorem held_keyword {e : K×V} (h : sig.keyword e s=some t) : t.held.Perm (e.2::s.held) := by
  unfold Signature.keyword at h
  split_ifs at h
  · cases h
    exact held_fill s e.1 e.2
  · cases h
    exact held_extra s e.1 e.2

theorem held_positions {vs : List V} {i : Nat} (h : sig.positions i vs s=some t) :
    t.held.Perm (vs++s.held) := by
  induction vs generalizing i s with
  | nil =>
    cases h
    exact .refl _
  | cons v vs ih =>
    obtain ⟨u,hu,ht⟩ := Option.bind_eq_some_iff.mp h
    have hstep := held_position hu
    exact (ih ht).trans ((hstep.append_left vs).trans List.perm_middle)

theorem held_keywords {es : List (K×V)} (h : sig.keywords es s=some t) :
    t.held.Perm (es.map Prod.snd++s.held) := by
  induction es generalizing s with
  | nil =>
    cases h
    exact .refl _
  | cons e es ih =>
    obtain ⟨u,hu,ht⟩ := Option.bind_eq_some_iff.mp h
    exact (ih ht).trans (((held_keyword hu).append_left _).trans List.perm_middle)

end Conservation

section Places

variable [DecidableEq K] {sig : Signature K V} {s t : Slots K V}

/-- The arguments by position fill the parameters in order; what remains is collected. -/
theorem positions_eq (sig : Signature K V) (vs : List V) (i : Nat) (s : Slots K V)
    (hs : i ≤ sig.positional.length ∨ sig.star=true) :
    sig.positions i vs s=
      if i+vs.length ≤ sig.positional.length ∨ sig.star=true then
        some ⟨s.filled++((sig.positional.drop i).map Formal.name).zip vs,
          s.star++vs.drop (sig.positional.length-i),s.extra⟩
      else none := by
  induction vs generalizing i s with
  | nil =>
    rw [if_pos (by simpa using hs)]
    simp [Signature.positions]
  | cons v vs ih =>
    have hcond : i+1+vs.length ≤ sig.positional.length ∨ sig.star=true ↔
        i+(v::vs).length ≤ sig.positional.length ∨ sig.star=true := by
      rw [List.length_cons,Nat.add_right_comm,Nat.add_assoc]
    simp only [Signature.positions,Signature.position]
    by_cases hi : i<sig.positional.length
    · rw [List.getElem?_eq_getElem hi]
      simp only [Option.bind_some,ih (i+1) _ (.inl hi),hcond,List.drop_eq_getElem_cons hi,
        List.map_cons,List.zip_cons_cons,List.append_assoc,List.singleton_append]
      have hdrop : sig.positional.length-i=sig.positional.length-(i+1)+1 := by omega
      rw [hdrop,List.drop_succ_cons]
    · have hnil : sig.positional.drop i=[] := List.drop_eq_nil_of_le (by omega)
      have hnil' : sig.positional.drop (i+1)=[] := List.drop_eq_nil_of_le (by omega)
      rw [List.getElem?_eq_none (by omega)]
      by_cases hstar : sig.star=true
      · have hzero : sig.positional.length-i=0 := by omega
        have hzero' : sig.positional.length-(i+1)=0 := by omega
        simp only [hstar,if_true,Option.bind_some,ih (i+1) _ (.inr hstar),or_true,hnil,hnil',hzero,
          hzero',List.drop_zero,List.map_nil,List.zip_nil_left,List.append_assoc,
          List.singleton_append]
      · have hno : ¬(i+(v::vs).length ≤ sig.positional.length ∨ sig.star=true) := by
          rw [List.length_cons]
          rintro (hle | h)
          · omega
          · exact hstar h
        rw [if_neg hno]
        simp only [hstar]
        rfl

/-- Keywords that are all different are accepted independently of each other. -/
theorem keywords_eq (sig : Signature K V) (es : List (K×V)) (hes : (es.map Prod.fst).Nodup)
    (s : Slots K V) :
    sig.keywords es s=
      if ∀ e ∈ es,if sig.takes e.1 then e.1 ∉ s.filled.map Prod.fst else sig.starStar=true then
        some ⟨s.filled++es.filter (fun e => sig.takes e.1),s.star,
          s.extra++es.filter fun e => !sig.takes e.1⟩
      else none := by
  induction es generalizing s with
  | nil => simp [Signature.keywords]
  | cons e es ih =>
    obtain ⟨hfresh,hes⟩ := List.nodup_cons.mp hes
    simp only [Signature.keywords,Signature.keyword,List.forall_mem_cons]
    by_cases ht : sig.takes e.1=true
    · simp only [ht,if_true,Bool.not_true,List.filter_cons]
      by_cases hin : e.1 ∈ s.filled.map Prod.fst
      · rw [if_pos hin,if_neg fun h => h.1 hin]
        rfl
      · rw [if_neg hin]
        simp only [Option.bind_some,ih hes,hin,not_false_eq_true,true_and]
        have hsame : (∀ e' ∈ es,if sig.takes e'.1 then
              e'.1 ∉ (s.filled++[e]).map Prod.fst else sig.starStar=true) ↔
            ∀ e' ∈ es,if sig.takes e'.1 then e'.1 ∉ s.filled.map Prod.fst
              else sig.starStar=true := by
          refine forall_congr' fun e' => forall_congr' fun he' => ?_
          have hne : e'.1≠e.1 := fun heq => hfresh (heq ▸ List.mem_map_of_mem he')
          split_ifs
          · simp [hne]
          · rfl
        simp only [hsame,List.append_assoc,List.singleton_append]
        rfl
    · have hf : sig.takes e.1=false := by simpa using ht
      simp only [hf,Bool.not_false,List.filter_cons,Bool.false_eq_true,if_false,if_true]
      by_cases hstar : sig.starStar=true
      · simp only [hstar,if_true,Option.bind_some,ih hes,true_and,List.append_assoc,
          List.singleton_append]
      · simp only [hstar]
        rfl

end Places

section Lookup

theorem keys_zip (names : List K) (vs : List V) :
    (names.zip vs).map Prod.fst=names.take vs.length := by
  induction names generalizing vs with
  | nil => simp
  | cons n names ih =>
    cases vs with
    | nil => rfl
    | cons v vs => rw [List.zip_cons_cons,List.map_cons,ih,List.length_cons,List.take_succ_cons]

variable [DecidableEq K]

theorem lookup_zip {names : List K} (hnd : names.Nodup) (vs : List V) {i : Nat} {k : K}
    (hk : names[i]?=some k) : (names.zip vs).lookup k=vs[i]? := by
  induction names generalizing vs i with
  | nil => simp at hk
  | cons n names ih =>
    obtain ⟨hn,hnd⟩ := List.nodup_cons.mp hnd
    cases vs with
    | nil => simp
    | cons v vs =>
      rw [List.zip_cons_cons,List.lookup_cons]
      cases i with
      | zero =>
        cases hk
        simp
      | succ i =>
        rw [List.getElem?_cons_succ] at hk ⊢
        have hne : k≠n := fun heq => hn (heq ▸ List.mem_of_getElem? hk)
        rw [beq_false_of_ne hne]
        exact ih hnd vs hk

theorem lookup_zip_none {names : List K} {k : K} (hk : k ∉ names) (vs : List V) :
    (names.zip vs).lookup k=none := by
  rw [List.lookup_eq_none_iff]
  intro e he
  have hne : k≠e.1 := fun heq => hk (heq ▸ (List.of_mem_zip he).1)
  simpa using hne

theorem lookup_filter (f : K → Bool) (es : List (K×V)) (k : K) :
    (es.filter fun e => f e.1).lookup k=if f k then es.lookup k else none := by
  induction es with
  | nil => simp
  | cons e es ih =>
    rw [List.filter_cons]
    by_cases hk : k=e.1
    · subst hk
      by_cases hf : f e.1=true
      · rw [if_pos hf,if_pos hf,List.lookup_cons,List.lookup_cons,beq_self_eq_true]
      · rw [if_neg hf,ih,if_neg hf,if_neg hf]
    · have hb : (k==e.1)=false := beq_false_of_ne hk
      by_cases hf : f e.1=true
      · rw [if_pos hf,List.lookup_cons,List.lookup_cons,hb]
        exact ih
      · rw [if_neg hf,ih,List.lookup_cons,hb]

theorem lookup_append (es es' : List (K×V)) (k : K) :
    (es++es').lookup k=(es.lookup k).or (es'.lookup k) := by
  induction es with
  | nil => simp
  | cons e es ih =>
    rw [List.cons_append,List.lookup_cons,List.lookup_cons]
    cases k==e.1 with
    | true => rfl
    | false => exact ih

theorem lookup_of_mem {es : List (K×V)} (hnd : (es.map Prod.fst).Nodup) {e : K×V} (he : e ∈ es) :
    es.lookup e.1=some e.2 := by
  induction es with
  | nil => exact nomatch he
  | cons e' es ih =>
    obtain ⟨hn,hnd⟩ := List.nodup_cons.mp hnd
    rw [List.lookup_cons]
    rcases List.mem_cons.mp he with rfl | he
    · simp
    · have hne : e.1≠e'.1 := fun heq => hn (heq ▸ List.mem_map_of_mem he)
      rw [beq_false_of_ne hne]
      exact ih hnd he

theorem mem_of_lookup {es : List (K×V)} {k : K} {v : V} (h : es.lookup k=some v) :
    (k,v) ∈ es := by
  induction es with
  | nil => simp at h
  | cons e es ih =>
    rw [List.lookup_cons] at h
    by_cases hk : k=e.1
    · subst hk
      rw [beq_self_eq_true] at h
      cases h
      exact List.mem_cons_self
    · rw [beq_false_of_ne hk] at h
      exact List.mem_cons_of_mem _ (ih h)

end Lookup

section Values

variable [DecidableEq K] {sig : Signature K V}

def Signature.given (sig : Signature K V) (args : List V) (kwargs : List (K×V)) : List (K×V) :=
  (sig.positional.map Formal.name).zip args++kwargs.filter fun e => sig.takes e.1

/-- What the arguments may not do: fill a parameter twice, or be left over. -/
def Signature.Fits (sig : Signature K V) (args : List V) (kwargs : List (K×V)) : Prop :=
  (args.length ≤ sig.positional.length ∨ sig.star=true) ∧
    ∀ e ∈ kwargs,if sig.takes e.1 then e.1 ∉ ((sig.positional.map Formal.name).zip args).map Prod.fst
      else sig.starStar=true

instance (sig : Signature K V) (args : List V) (kwargs : List (K×V)) :
    Decidable (sig.Fits args kwargs) := inferInstanceAs (Decidable (_ ∧ _))

theorem complete_eq (filled : List (K×V)) (ps : List (Formal K V)) :
    Signature.complete filled ps=
      if ∀ p ∈ ps,(Signature.valueOf filled p).isSome then
        some (ps.filterMap fun p => (Signature.valueOf filled p).map fun v => (p.name,v))
      else none := by
  induction ps with
  | nil => simp [Signature.complete]
  | cons p ps ih =>
    rw [Signature.complete,ih]
    cases hv : Signature.valueOf filled p with
    | none => simp [hv]
    | some v =>
      simp only [Option.bind_some,List.forall_mem_cons,hv,Option.isSome_some,true_and,
        List.filterMap_cons,Option.map_some]
      split_ifs <;> rfl

theorem call_eq (sig : Signature K V) (args : List V) (kwargs : List (K×V))
    (hk : (kwargs.map Prod.fst).Nodup) :
    sig.call args kwargs=
      if sig.Fits args kwargs then
        (Signature.complete (sig.given args kwargs) sig.formals).map fun values =>
          ⟨⟨sig.given args kwargs,args.drop sig.positional.length,
            kwargs.filter fun e => !sig.takes e.1⟩,values⟩
      else none := by
  unfold Signature.call Signature.Fits
  rw [positions_eq sig args 0 _ (.inl (Nat.zero_le _)),Nat.zero_add]
  by_cases hpos : args.length ≤ sig.positional.length ∨ sig.star=true
  · rw [if_pos hpos,Option.bind_some,keywords_eq sig kwargs hk]
    simp only [List.drop_zero,List.nil_append,Nat.sub_zero,hpos,true_and]
    split_ifs <;> rfl
  · simp only [hpos,false_and,if_false]
    rfl

theorem takes_iff (hd : (sig.formals.map Formal.name).Nodup) {p : Formal K V}
    (hp : p ∈ sig.formals) : sig.takes p.name=p.byKeyword := by
  unfold Signature.takes
  rw [Bool.eq_iff_iff,List.any_eq_true]
  constructor
  · rintro ⟨q,hq,hqp⟩
    rw [Bool.and_eq_true,beq_iff_eq] at hqp
    have hsame : q=p := List.inj_on_of_nodup_map hd hq hp hqp.2
    exact hsame ▸ hqp.1
  · intro hkey
    exact ⟨p,hp,by simp [hkey]⟩

theorem valueOf_given (hd : (sig.formals.map Formal.name).Nodup) (args : List V)
    (kwargs : List (K×V)) {i : Nat} {p : Formal K V} (hp : sig.formals[i]?=some p) :
    Signature.valueOf (sig.given args kwargs) p=
      ((args.take sig.positional.length)[i]?).or
        ((if p.byKeyword then kwargs.lookup p.name else none).or p.default) := by
  have hmem : p ∈ sig.formals := List.mem_of_getElem? hp
  unfold Signature.valueOf Signature.given
  rw [lookup_append,lookup_filter,takes_iff hd hmem,Option.or_assoc]
  congr 1
  unfold Signature.formals at hd hp
  rw [List.map_append] at hd
  obtain ⟨hpos,-,hdisj⟩ := List.nodup_append.mp hd
  by_cases hi : i<sig.positional.length
  · rw [List.getElem?_append_left hi] at hp
    rw [lookup_zip hpos args (i := i) (by rw [List.getElem?_map,hp]; rfl),List.getElem?_take_of_lt hi]
  · rw [List.getElem?_append_right (by omega)] at hp
    have hname : p.name ∈ sig.keywordOnly.map Formal.name :=
      List.mem_map_of_mem (List.mem_of_getElem? hp)
    rw [lookup_zip_none (fun hin => hdisj _ hin _ hname rfl),
      List.getElem?_eq_none (by rw [List.length_take]; omega)]

end Values

section Exactness

variable [DecidableEq K]

/-- Every argument of an accepted call is in one place, and every parameter has one value. -/
structure Conserves (sig : Signature K V) (args : List V) (kwargs : List (K×V)) (c : Call K V) :
    Prop where
  declared : c.values.map Prod.fst=sig.formals.map Formal.name
  held : c.held.Perm (args++kwargs.map Prod.snd)
  byPosition : ∀ (i : Nat) (p : Formal K V) (v : V),sig.positional[i]?=some p → args[i]?=some v → (p.name,v) ∈ c.filled
  collected : c.star=args.drop sig.positional.length
  byKeyword : ∀ e ∈ kwargs,sig.takes e.1=true → e ∈ c.filled
  extra : c.extra=kwargs.filter fun e => !sig.takes e.1
  once : (c.filled.map Prod.fst).Nodup
  bound : ∀ e ∈ c.filled,e ∈ c.values
  unsupplied : ∀ p ∈ sig.formals,p.name ∉ c.filled.map Prod.fst →
    ∃ v,p.default=some v ∧ (p.name,v) ∈ c.values

theorem held_call {sig : Signature K V} {args : List V} {kwargs : List (K×V)} {c : Call K V}
    (h : sig.call args kwargs=some c) : c.held.Perm (args++kwargs.map Prod.snd) := by
  obtain ⟨s,hs,h⟩ := Option.bind_eq_some_iff.mp h
  obtain ⟨t,ht,h⟩ := Option.bind_eq_some_iff.mp h
  obtain ⟨values,-,rfl⟩ := Option.map_eq_some_iff.mp h
  have hpos := held_positions hs
  have hkey := held_keywords ht
  have hempty : s.held.Perm args := by simpa [Slots.held] using hpos
  exact hkey.trans ((hempty.append_left _).trans List.perm_append_comm)

theorem given_nodup {sig : Signature K V} {args : List V} {kwargs : List (K×V)}
    (hd : (sig.formals.map Formal.name).Nodup) (hk : (kwargs.map Prod.fst).Nodup)
    (hf : sig.Fits args kwargs) : ((sig.given args kwargs).map Prod.fst).Nodup := by
  unfold Signature.given
  rw [List.map_append,List.nodup_append]
  refine ⟨?_,hk.sublist (List.filter_sublist.map _),?_⟩
  · unfold Signature.formals at hd
    rw [List.map_append] at hd
    rw [keys_zip]
    exact (List.nodup_append.mp hd).1.sublist (List.take_sublist _ _)
  · rintro k hk k' hk' rfl
    obtain ⟨e,he,rfl⟩ := List.mem_map.mp hk'
    obtain ⟨he,htake⟩ := List.mem_filter.mp he
    have := hf.2 e he
    rw [if_pos htake] at this
    exact this hk

theorem given_formal {sig : Signature K V} {args : List V} {kwargs : List (K×V)} {e : K×V}
    (he : e ∈ sig.given args kwargs) : ∃ p ∈ sig.formals,p.name=e.1 := by
  unfold Signature.given at he
  rcases List.mem_append.mp he with he | he
  · obtain ⟨p,hp,hname⟩ := List.mem_map.mp (List.of_mem_zip he).1
    exact ⟨p,List.mem_append_left _ hp,hname⟩
  · have htake := (List.mem_filter.mp he).2
    unfold Signature.takes at htake
    obtain ⟨p,hp,hname⟩ := List.any_eq_true.mp htake
    rw [Bool.and_eq_true,beq_iff_eq] at hname
    exact ⟨p,hp,hname.2⟩

theorem mem_values {filled : List (K×V)} {ps : List (Formal K V)} {values : List (K×V)}
    (h : Signature.complete filled ps=some values) {p : Formal K V} (hp : p ∈ ps) :
    ∃ v,Signature.valueOf filled p=some v ∧ (p.name,v) ∈ values := by
  rw [complete_eq] at h
  split_ifs at h with hall
  cases h
  obtain ⟨v,hv⟩ := Option.isSome_iff_exists.mp (hall p hp)
  exact ⟨v,hv,List.mem_filterMap.mpr ⟨p,hp,by rw [hv]; rfl⟩⟩

theorem values_names {filled : List (K×V)} {ps : List (Formal K V)} {values : List (K×V)}
    (h : Signature.complete filled ps=some values) : values.map Prod.fst=ps.map Formal.name := by
  induction ps generalizing values with
  | nil =>
    cases h
    rfl
  | cons p ps ih =>
    obtain ⟨v,-,h⟩ := Option.bind_eq_some_iff.mp h
    obtain ⟨rest,hrest,rfl⟩ := Option.map_eq_some_iff.mp h
    rw [List.map_cons,List.map_cons,ih hrest]

theorem call_conserves {sig : Signature K V} {args : List V} {kwargs : List (K×V)} {c : Call K V}
    (hd : (sig.formals.map Formal.name).Nodup) (hk : (kwargs.map Prod.fst).Nodup)
    (h : sig.call args kwargs=some c) : Conserves sig args kwargs c := by
  have hheld := held_call h
  rw [call_eq sig args kwargs hk] at h
  split_ifs at h with hf
  obtain ⟨values,hvalues,rfl⟩ := Option.map_eq_some_iff.mp h
  have honce := given_nodup hd hk hf
  exact {
    declared := values_names hvalues
    held := hheld
    byPosition := fun i p v hp hv => by
      refine List.mem_append_left _ (List.mem_of_getElem? (i := i) ?_)
      rw [List.getElem?_zip_eq_some]
      exact ⟨by rw [List.getElem?_map,hp]; rfl,hv⟩
    collected := rfl
    byKeyword := fun e he htake =>
      List.mem_append_right _ (List.mem_filter.mpr ⟨he,htake⟩)
    extra := rfl
    once := honce
    bound := fun e he => by
      obtain ⟨p,hp,hname⟩ := given_formal he
      obtain ⟨v,hv,hmem⟩ := mem_values hvalues hp
      unfold Signature.valueOf at hv
      rw [hname,lookup_of_mem honce he] at hv
      cases hv
      rwa [hname] at hmem
    unsupplied := fun p hp hno => by
      obtain ⟨v,hv,hmem⟩ := mem_values hvalues hp
      have hnone : (sig.given args kwargs).lookup p.name=none := by
        rw [List.lookup_eq_none_iff]
        intro e he
        have hne : p.name≠e.1 := fun heq => hno (heq ▸ List.mem_map_of_mem he)
        simpa using hne
      unfold Signature.valueOf at hv
      rw [hnone,Option.none_or] at hv
      exact ⟨v,hv,hmem⟩ }

end Exactness

end InterpretThis.Calling
