import InterpretThis.Framework.Precedence
import InterpretThis.Functions.Binding
import Mathlib.Algebra.GroupWithZero.Nat

namespace InterpretThis.Classes

open InterpretThis.Functions (Failure)

/-- What the linearisation reads of a recorded class. -/
structure ClassValue where
  bases : List String
  mro : List String

abbrev Registry := String → Option ClassValue

/-- The recorded order of a base; a base that is no recorded class stands alone. -/
def baseMro (registry : Registry) (b : String) : List String :=
  match registry b with
  | some cls => cls.mro
  | none => [b]

def sequences (registry : Registry) (bases : List String) : List (List String) :=
  bases.map (baseMro registry)++[bases]

/-- The first head that no sequence has in its tail. -/
def goodHead (seqs : List (List String)) : Option String :=
  (seqs.filterMap List.head?).find? fun head =>
    seqs.all fun seq => !(seq.drop 1).any (· == head)

def strip (head : String) (seq : List String) : List String :=
  if seq.head?=some head then seq.drop 1 else seq

def inconsistent (className : String) : Failure :=
  .typeError ("Cannot create a consistent method resolution\norder (MRO) for bases of class '"++
    className++"'")

def rest (head : String) (seqs : List (List String)) : List (List String) :=
  (seqs.map (strip head)).filter fun seq => !seq.isEmpty

def size (seqs : List (List String)) : Nat := (seqs.map List.length).sum

theorem strip_length (head : String) (seq : List String) :
    (strip head seq).length ≤ seq.length := by
  unfold strip
  split_ifs <;> simp

theorem size_filter (seqs : List (List String)) :
    size (seqs.filter fun seq => !seq.isEmpty) ≤ size seqs := by
  induction seqs with
  | nil => simp
  | cons seq seqs ih =>
    cases seq with
    | nil => simpa [size] using ih
    | cons a t => simpa [size] using ih

theorem size_strip (head : String) (seqs : List (List String)) :
    size (seqs.map (strip head)) ≤ size seqs := by
  induction seqs with
  | nil => simp
  | cons seq seqs ih =>
    have h := strip_length head seq
    simp only [size,List.map_cons,List.sum_cons] at ih ⊢
    omega

variable {head : String}

theorem size_strip_lt {seqs : List (List String)} (h : head∈seqs.filterMap List.head?) :
    size (seqs.map (strip head))<size seqs := by
  induction seqs with
  | nil => simp at h
  | cons seq seqs ih =>
    have hle := size_strip head seqs
    have hstrip := strip_length head seq
    simp only [size,List.map_cons,List.sum_cons] at ih hle ⊢
    by_cases hh : seq.head?=some head
    · have hlt : (strip head seq).length<seq.length := by
        cases seq with
        | nil => simp at hh
        | cons a t => simp [strip,hh]
      omega
    · have hm : head∈seqs.filterMap List.head? := by
        simp only [List.mem_filterMap,List.mem_cons] at h ⊢
        obtain ⟨s,hs,he⟩ := h
        rcases hs with rfl | hs
        · exact absurd he hh
        · exact ⟨s,hs,he⟩
      have hlt := ih hm
      omega

theorem goodHead_mem {seqs : List (List String)} (h : goodHead seqs=some head) :
    head∈seqs.filterMap List.head? :=
  List.mem_of_find?_eq_some h

theorem rest_lt {seqs : List (List String)} (h : goodHead seqs=some head) :
    size (rest head seqs)<size seqs :=
  Nat.lt_of_le_of_lt (size_filter _) (size_strip_lt (goodHead_mem h))

def mergeLoop (className : String) (seqs : List (List String)) (result : List String) :
    Except Failure (List String) :=
  if seqs.all List.isEmpty then .ok result
  else match h : goodHead seqs with
    | none => .error (inconsistent className)
    | some head => mergeLoop className (rest head seqs) (result++[head])
termination_by size seqs
decreasing_by exact rest_lt h

def buildMro (className : String) (bases : List String) (registry : Registry) :
    Except Failure (List String) :=
  mergeLoop className (sequences registry bases) [className]

section Merge

theorem mergeLoop_done (className : String) (seqs : List (List String)) (result : List String)
    (h : seqs.all List.isEmpty=true) : mergeLoop className seqs result=.ok result := by
  rw [mergeLoop,if_pos h]

theorem mergeLoop_stuck (className : String) {seqs : List (List String)} (result : List String)
    (h : ¬seqs.all List.isEmpty=true) (hg : goodHead seqs=none) :
    mergeLoop className seqs result=.error (inconsistent className) := by
  rw [mergeLoop,if_neg h]
  split
  · rfl
  · next head hg' => rw [hg] at hg'; cases hg'

theorem mergeLoop_step (className : String) {seqs : List (List String)} (result : List String)
    (hg : goodHead seqs=some head) :
    mergeLoop className seqs result=mergeLoop className (rest head seqs) (result++[head]) := by
  have hall : ¬seqs.all List.isEmpty=true := by
    intro hall
    obtain ⟨s,hs,he⟩ := List.mem_filterMap.mp (goodHead_mem hg)
    have hempty := List.isEmpty_iff.mp (List.all_eq_true.mp hall s hs)
    rw [hempty] at he
    cases he
  rw [mergeLoop,if_neg hall]
  split
  · next hg' => rw [hg] at hg'; cases hg'
  · next head' hg' =>
    rw [hg] at hg'
    cases hg'
    rfl

theorem strip_sublist (head : String) (seq : List String) : (strip head seq).Sublist seq := by
  unfold strip
  split_ifs
  · exact List.drop_sublist 1 seq
  · exact List.Sublist.refl seq

theorem mem_rest {seqs : List (List String)} {s : List String} (h : s∈rest head seqs) :
    ∃t∈seqs, s=strip head t := by
  obtain ⟨t,ht,he⟩ := List.mem_map.mp (List.mem_of_mem_filter h)
  exact ⟨t,ht,he.symm⟩

theorem rest_keeps {seqs : List (List String)} {out : List String}
    (h : ∀s∈rest head seqs, s.Sublist out) {s : List String} (hs : s∈seqs) :
    (strip head s).Sublist out := by
  by_cases he : strip head s=[]
  · rw [he]
    exact List.nil_sublist out
  · apply h
    apply List.mem_filter.mpr
    exact ⟨List.mem_map.mpr ⟨s,hs,rfl⟩,by simpa using he⟩

theorem goodHead_free {seqs : List (List String)} (h : goodHead seqs=some head) {s : List String}
    (hs : s∈seqs) : head∉s.drop 1 := by
  have hgood := List.find?_some h
  have hall := List.all_eq_true.mp hgood s hs
  intro hm
  simp only [Bool.not_eq_true',List.any_eq_false,beq_iff_eq] at hall
  exact hall head hm rfl

theorem goodHead_head {seqs : List (List String)} (h : goodHead seqs=some head) :
    ∃s∈seqs, s.head?=some head := by
  obtain ⟨s,hs,he⟩ := List.mem_filterMap.mp (goodHead_mem h)
  exact ⟨s,hs,he⟩

/-- `out` lists every entry of the sequences once and keeps each sequence in order. -/
structure Extends (seqs : List (List String)) (out : List String) : Prop where
  once : out.Nodup
  keeps : ∀s∈seqs, s.Sublist out
  only : ∀a∈out, ∃s∈seqs, a∈s

theorem Extends.cons {seqs : List (List String)} {out : List String} (hg : goodHead seqs=some head)
    (hx : Extends (rest head seqs) out) : Extends seqs (head::out) := by
  constructor
  · apply List.nodup_cons.mpr
    refine ⟨?_,hx.once⟩
    intro hm
    obtain ⟨s',hs',ha⟩ := hx.only head hm
    obtain ⟨s,hs,rfl⟩ := mem_rest hs'
    have hfree := goodHead_free hg hs
    unfold strip at ha
    split_ifs at ha with hh
    · exact hfree ha
    · cases s with
      | nil => simp at ha
      | cons x t =>
        rcases List.mem_cons.mp ha with rfl | ht
        · exact hh rfl
        · exact hfree (by simpa using ht)
  · intro s hs
    have hk := rest_keeps hx.keeps hs
    unfold strip at hk
    split_ifs at hk with hh
    · cases s with
      | nil => simp at hh
      | cons x t =>
        have hx : x=head := by simpa using hh
        subst hx
        exact List.Sublist.cons_cons x (by simpa using hk)
    · exact List.Sublist.cons head hk
  · intro a ha
    rcases List.mem_cons.mp ha with rfl | hm
    · obtain ⟨s,hs,he⟩ := goodHead_head hg
      exact ⟨s,hs,List.mem_of_mem_head? (by simp [he])⟩
    · obtain ⟨s',hs',hm'⟩ := hx.only a hm
      obtain ⟨s,hs,rfl⟩ := mem_rest hs'
      exact ⟨s,hs,(strip_sublist head s).subset hm'⟩

theorem mergeLoop_ok {className : String} {seqs : List (List String)} {result m : List String}
    (h : mergeLoop className seqs result=.ok m) : ∃out, m=result++out ∧ Extends seqs out := by
  induction seqs, result using mergeLoop.induct with
  | case1 seqs result hall =>
    rw [mergeLoop_done className seqs result hall] at h
    refine ⟨[],by simpa using (Except.ok.inj h).symm,List.nodup_nil,?_,by simp⟩
    intro s hs
    have he : s=[] := List.isEmpty_iff.mp (List.all_eq_true.mp hall s hs)
    rw [he]
  | case2 seqs result hall hg =>
    rw [mergeLoop_stuck className result hall hg] at h
    cases h
  | case3 seqs result hall head hg ih =>
    rw [mergeLoop_step className result hg] at h
    obtain ⟨out,hm,hx⟩ := ih h
    exact ⟨head::out,by simp [hm],hx.cons hg⟩

/-- A round without a good head: every head stands behind another one. -/
theorem cyclic_of_stuck {seqs : List (List String)} (hall : ¬seqs.all List.isEmpty=true)
    (hg : goodHead seqs=none) : Cyclic seqs := by
  have hne : seqs.filterMap List.head?≠[] := by
    intro he
    apply hall
    apply List.all_eq_true.mpr
    intro s hs
    have hh := List.filterMap_eq_nil_iff.mp he s hs
    simpa using hh
  by_contra hc
  obtain ⟨a,ha,hleast⟩ := exists_least hc hne
  have hbad := List.find?_eq_none.mp hg a ha
  have hex : ∃s∈seqs, a∈s.drop 1 := by
    simpa using hbad
  obtain ⟨s,hs,hd⟩ := hex
  cases s with
  | nil => simp at hd
  | cons b t =>
    apply hleast b
    · exact List.mem_filterMap.mpr ⟨b::t,hs,rfl⟩
    · exact ⟨b::t,hs,before_head (by simpa using hd)⟩

theorem mergeLoop_error {className : String} {seqs : List (List String)} {result : List String}
    {e : Failure} (h : mergeLoop className seqs result=.error e) :
    e=inconsistent className ∧ Cyclic seqs := by
  induction seqs, result using mergeLoop.induct with
  | case1 seqs result hall =>
    rw [mergeLoop_done className seqs result hall] at h
    cases h
  | case2 seqs result hall hg =>
    rw [mergeLoop_stuck className result hall hg] at h
    cases h
    exact ⟨rfl,cyclic_of_stuck hall hg⟩
  | case3 seqs result hall head hg ih =>
    rw [mergeLoop_step className result hg] at h
    obtain ⟨he,hc⟩ := ih h
    refine ⟨he,hc.mono ?_⟩
    intro s hs
    obtain ⟨t,ht,rfl⟩ := mem_rest hs
    exact ⟨t,ht,strip_sublist head t⟩

end Merge

section Law

/-- The base classes and, through the recorded classes, theirs. -/
inductive Ancestor (registry : Registry) (bases : List String) : String → Prop where
  | base {b : String} (hb : b∈bases) : Ancestor registry bases b
  | inherit {c a : String} {cls : ClassValue} (hc : Ancestor registry bases c)
      (hr : registry c=some cls) (ha : a∈cls.bases) : Ancestor registry bases a

/-- `m` is a linearisation of the class. -/
structure Linearisation (registry : Registry) (className : String) (bases m : List String) :
    Prop where
  starts : m.head?=some className
  once : m.Nodup
  lists : ∀a, a∈m ↔ a=className ∨ Ancestor registry bases a
  inOrder : bases.Sublist m
  monotone : ∀b∈bases, (baseMro registry b).Sublist m

/-- Every recorded order is a linearisation. -/
def Recorded (registry : Registry) : Prop :=
  ∀name cls, registry name=some cls → Linearisation registry name cls.bases cls.mro

/-- The class before everything else, the bases as listed, the order of each base. -/
def constraints (registry : Registry) (className : String) (bases : List String) :
    List (List String) :=
  (sequences registry bases).map (className :: ·)

def MroLaw (registry : Registry) (className : String) (bases : List String) : Prop :=
  match buildMro className bases registry with
  | .ok m => Linearisation registry className bases m ∧ ¬Cyclic (constraints registry className bases)
  | .error e => e=inconsistent className ∧ Cyclic (constraints registry className bases)

variable {registry : Registry} {className : String} {bases : List String}

theorem Ancestor.through {b : String} {cls : ClassValue} (hb : Ancestor registry bases b)
    (hr : registry b=some cls) {a : String} (ha : Ancestor registry cls.bases a) :
    Ancestor registry bases a := by
  induction ha with
  | base hm => exact .inherit hb hr hm
  | inherit _ hc hm ih => exact .inherit ih hc hm

theorem baseMro_ancestor (hrec : Recorded registry) {b : String} (hb : b∈bases) {a : String}
    (ha : a∈baseMro registry b) : Ancestor registry bases a := by
  unfold baseMro at ha
  cases hr : registry b with
  | none =>
    rw [hr] at ha
    have he : a=b := by simpa using ha
    rw [he]
    exact .base hb
  | some cls =>
    rw [hr] at ha
    rcases ((hrec b cls hr).lists a).mp ha with rfl | hanc
    · exact .base hb
    · exact (Ancestor.base hb).through hr hanc

theorem ancestor_baseMro (hrec : Recorded registry) {a : String}
    (ha : Ancestor registry bases a) : ∃b∈bases, a∈baseMro registry b := by
  induction ha with
  | @base b hb =>
    refine ⟨b,hb,?_⟩
    unfold baseMro
    cases hr : registry b with
    | none => exact List.mem_singleton_self b
    | some cls => exact ((hrec b cls hr).lists b).mpr (Or.inl rfl)
  | @inherit c a cls _ hc ha ih =>
    obtain ⟨b,hb,hm⟩ := ih
    refine ⟨b,hb,?_⟩
    unfold baseMro at hm ⊢
    cases hr : registry b with
    | none =>
      rw [hr] at hm
      have he : c=b := by simpa using hm
      rw [he,hr] at hc
      cases hc
    | some clsB =>
      rw [hr] at hm
      have hlin := hrec b clsB hr
      apply (hlin.lists a).mpr
      right
      rcases (hlin.lists c).mp hm with rfl | hanc
      · rw [hr] at hc
        cases hc
        exact .base ha
      · exact .inherit hanc hc ha

theorem mem_sequences {s : List String} :
    s∈sequences registry bases ↔ (∃b∈bases, s=baseMro registry b) ∨ s=bases := by
  simp only [sequences,List.mem_append,List.mem_map,List.mem_singleton]
  constructor
  · rintro (⟨b,hb,rfl⟩ | h)
    · exact Or.inl ⟨b,hb,rfl⟩
    · exact Or.inr h
  · rintro (⟨b,hb,rfl⟩ | h)
    · exact Or.inl ⟨b,hb,rfl⟩
    · exact Or.inr h

theorem extends_lists (hrec : Recorded registry) {out : List String}
    (hx : Extends (sequences registry bases) out) (a : String) :
    a∈out ↔ Ancestor registry bases a := by
  constructor
  · intro hm
    obtain ⟨s,hs,ha⟩ := hx.only a hm
    rcases mem_sequences.mp hs with ⟨b,hb,rfl⟩ | rfl
    · exact baseMro_ancestor hrec hb ha
    · exact .base ha
  · intro hanc
    obtain ⟨b,hb,hm⟩ := ancestor_baseMro hrec hanc
    exact (hx.keeps _ (mem_sequences.mpr (Or.inl ⟨b,hb,rfl⟩))).subset hm

theorem linearisation_of_extends (hrec : Recorded registry) {out : List String}
    (hx : Extends (sequences registry bases) out) (hnew : ¬Ancestor registry bases className) :
    Linearisation registry className bases (className::out) ∧
      ¬Cyclic (constraints registry className bases) := by
  have hfresh : className∉out := fun hm => hnew ((extends_lists hrec hx className).mp hm)
  have honce : (className::out).Nodup := List.nodup_cons.mpr ⟨hfresh,hx.once⟩
  constructor
  · constructor
    · rfl
    · exact honce
    · intro a
      rw [List.mem_cons,extends_lists hrec hx]
    · exact List.Sublist.cons className (hx.keeps bases (mem_sequences.mpr (Or.inr rfl)))
    · intro b hb
      exact List.Sublist.cons className (hx.keeps _ (mem_sequences.mpr (Or.inl ⟨b,hb,rfl⟩)))
  · apply acyclic_of_extension honce
    intro s hs
    obtain ⟨t,ht,rfl⟩ := List.mem_map.mp hs
    exact List.Sublist.cons_cons className (hx.keeps t ht)

theorem constraints_cyclic (h : Cyclic (sequences registry bases)) :
    Cyclic (constraints registry className bases) := by
  apply h.mono
  intro s hs
  exact ⟨className::s,List.mem_map.mpr ⟨s,hs,rfl⟩,List.sublist_cons_self className s⟩

/-- The order of a class statement is the C3 linearisation exactly when the class does not take
over the name of one of its own ancestors, or the orders of its bases conflict anyway. -/
theorem buildMro_linearises (registry : Registry) (className : String) (bases : List String)
    (hrec : Recorded registry) :
    MroLaw registry className bases ↔
      ¬Ancestor registry bases className ∨ Cyclic (sequences registry bases) := by
  unfold MroLaw
  cases hm : buildMro className bases registry with
  | error e =>
    obtain ⟨he,hc⟩ := mergeLoop_error hm
    constructor
    · intro _
      exact Or.inr hc
    · intro _
      exact ⟨he,constraints_cyclic hc⟩
  | ok m =>
    obtain ⟨out,rfl,hx⟩ := mergeLoop_ok hm
    constructor
    · intro hlaw
      left
      intro hanc
      have hin : className∈out := (extends_lists hrec hx className).mpr hanc
      exact (List.nodup_cons.mp hlaw.1.once).1 hin
    · rintro (hnew | hc)
      · exact linearisation_of_extends hrec hx hnew
      · exact absurd hc (acyclic_of_extension hx.once hx.keeps)

/-- `class O: pass`, `class A(O): pass` and `class B(O): pass`. -/
def diamond : Registry := fun name =>
  if name="O" then some ⟨[],["O"]⟩
  else if name="A" ∨ name="B" then some ⟨["O"],[name,"O"]⟩
  else none

theorem diamond_ancestor {a : String} (h : Ancestor diamond bases a) : a∈bases ∨ a="O" := by
  induction h with
  | base hb => exact .inl hb
  | inherit _ hr ha _ =>
    unfold diamond at hr
    split_ifs at hr with ho hab
    · cases hr
      cases ha
    · cases hr
      exact .inr (List.mem_singleton.mp ha)

theorem diamond_recorded : Recorded diamond := by
  intro name cls h
  unfold diamond at h
  split_ifs at h with ho hab
  · cases h
    subst ho
    refine ⟨rfl,List.nodup_singleton _,fun a => ?_,List.nil_sublist _,fun _ hb => nomatch hb⟩
    have alone : ¬Ancestor diamond [] a := by
      intro h
      induction h with
      | base hb => cases hb
      | inherit _ _ _ ih => exact ih
    simp [alone]
  · cases h
    refine ⟨rfl,by simp [ho],fun a => ?_,List.sublist_cons_self _ _,fun b hb => ?_⟩
    · have above : Ancestor diamond ["O"] a ↔ a="O" :=
        ⟨fun h => (diamond_ancestor h).elim List.mem_singleton.mp id,
          fun h => .base (List.mem_singleton.mpr h)⟩
      simp [above]
    · rw [List.mem_singleton.mp hb]
      exact List.sublist_cons_self _ _

/-- `class D(A,B): pass`. -/
theorem buildMro_linearises_diamond :
    buildMro "D" ["A","B"] diamond=.ok ["D","A","B","O"] ∧ MroLaw diamond "D" ["A","B"] := by
  constructor
  · have seqs : sequences diamond ["A","B"]=[["A","O"],["B","O"],["A","B"]] := by decide
    rw [buildMro,seqs,mergeLoop_step "D" _ (show goodHead _=some "A" by decide),
      mergeLoop_step "D" _ (show goodHead _=some "B" by decide),
      mergeLoop_step "D" _ (show goodHead _=some "O" by decide)]
    exact mergeLoop_done "D" _ _ rfl
  · apply (buildMro_linearises diamond "D" ["A","B"] diamond_recorded).mpr
    left
    intro h
    exact absurd (diamond_ancestor h) (by decide)

/-- `class A: pass`. -/
def oneClass : Registry := fun name => if name="A" then some ⟨[],["A"]⟩ else none

/-- `class A(A): pass` lists `A` twice. -/
theorem buildMro_renews : ¬MroLaw oneClass "A" ["A"] := by
  have hseqs : sequences oneClass ["A"]=[["A"],["A"]] := by decide
  have hg : goodHead [["A"],["A"]]=some "A" := by decide
  have hrest : rest "A" [["A"],["A"]]=[] := by decide
  have hm : buildMro "A" ["A"] oneClass=.ok ["A","A"] := by
    rw [buildMro,hseqs,mergeLoop_step _ _ hg,hrest]
    exact mergeLoop_done "A" [] ["A","A"] rfl
  intro h
  unfold MroLaw at h
  rw [hm] at h
  exact absurd h.1.once (by decide)

end Law

end InterpretThis.Classes
