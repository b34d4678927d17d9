import Mathlib.Data.List.Perm.Basic
import Mathlib.Data.List.Pairwise

namespace InterpretThis

section Order

variable {α : Type}

/-- `lt` is a strict weak order on the entries of a list. -/
structure WeakOrder (lt : α → α → Bool) (xs : List α) : Prop where
  asymm : ∀a∈xs, ∀b∈xs, lt a b=true → lt b a=false
  cotrans : ∀a∈xs, ∀b∈xs, ∀c∈xs, lt a c=true → lt a b=true ∨ lt b c=true

def tied (lt : α → α → Bool) (a b : α) : Bool := !lt a b && !lt b a

/-- `out` is the stable sort of `xs`. -/
structure StableSorted (lt : α → α → Bool) (xs out : List α) : Prop where
  perm : out.Perm xs
  ordered : out.Pairwise fun a b => lt b a=false
  kept : ∀a∈xs, out.filter (tied lt a)=xs.filter (tied lt a)

variable {lt : α → α → Bool} {xs : List α}

theorem WeakOrder.sub (h : WeakOrder lt xs) {ys : List α} (hs : ∀a∈ys, a∈xs) :
    WeakOrder lt ys where
  asymm a ha b hb := h.asymm a (hs a ha) b (hs b hb)
  cotrans a ha b hb c hc := h.cotrans a (hs a ha) b (hs b hb) c (hs c hc)

theorem WeakOrder.flip (h : WeakOrder lt xs) : WeakOrder (fun a b => lt b a) xs where
  asymm a ha b hb := h.asymm b hb a ha
  cotrans a ha b hb c hc hlt := (h.cotrans c hc b hb a ha hlt).symm

theorem WeakOrder.irrefl (h : WeakOrder lt xs) {a : α} (ha : a∈xs) : lt a a=false := by
  cases hl : lt a a with
  | false => rfl
  | true =>
    have hf := h.asymm a ha a ha hl
    rw [hl] at hf
    exact hf

theorem tied_iff {a b : α} : tied lt a b=true ↔ lt a b=false ∧ lt b a=false := by
  simp [tied]

theorem WeakOrder.tied_self (h : WeakOrder lt xs) {a : α} (ha : a∈xs) : tied lt a a=true :=
  tied_iff.mpr ⟨h.irrefl ha,h.irrefl ha⟩

theorem WeakOrder.tied_trans (h : WeakOrder lt xs) {a b c : α} (ha : a∈xs) (hb : b∈xs)
    (hc : c∈xs) (hab : tied lt a b=true) (hac : tied lt a c=true) : lt b c=false := by
  obtain ⟨hab,hba⟩ := tied_iff.mp hab
  obtain ⟨hac,hca⟩ := tied_iff.mp hac
  cases hbc : lt b c with
  | false => rfl
  | true =>
    rcases h.cotrans b hb a ha c hc hbc with hlt | hlt
    · rw [hba] at hlt; cases hlt
    · rw [hac] at hlt; cases hlt

theorem stableSorted_nil : StableSorted lt [] [] where
  perm := List.Perm.refl []
  ordered := List.Pairwise.nil
  kept a ha := by cases ha

/-- Two lists in order that agree on every class of tied entries are the same. -/
theorem ordered_unique : ∀{out out' : List α}, WeakOrder lt out → out.Perm out' →
    out.Pairwise (fun a b => lt b a=false) → out'.Pairwise (fun a b => lt b a=false) →
    (∀a∈out, out.filter (tied lt a)=out'.filter (tied lt a)) → out=out'
  | [],out',_,hp,_,_,_ => (List.nil_perm.mp hp).symm
  | x::o,[],_,hp,_,_,_ => absurd hp.symm (List.nil_perm.not.mpr (by simp))
  | x::o,y::o',hw,hp,ho,ho',hk => by
    have hy : y∈x::o := hp.mem_iff.mpr List.mem_cons_self
    have hx' : x∈y::o' := hp.mem_iff.mp List.mem_cons_self
    have hx : x∈x::o := List.mem_cons_self
    have hyx : lt y x=false := by
      rcases List.mem_cons.mp hy with rfl | hm
      · exact hw.irrefl hx
      · exact (List.pairwise_cons.mp ho).1 y hm
    have hxy : lt x y=false := by
      rcases List.mem_cons.mp hx' with rfl | hm
      · exact hw.irrefl hx
      · exact (List.pairwise_cons.mp ho').1 x hm
    have htie : tied lt x y=true := tied_iff.mpr ⟨hxy,hyx⟩
    have hfirst := hk x hx
    rw [List.filter_cons_of_pos (hw.tied_self hx),List.filter_cons_of_pos htie] at hfirst
    have heq : x=y := (List.cons.inj hfirst).1
    subst heq
    have htail : o=o' := by
      apply ordered_unique (hw.sub fun a ha => List.mem_cons_of_mem x ha)
        (List.perm_cons x |>.mp hp) (List.pairwise_cons.mp ho).2 (List.pairwise_cons.mp ho').2
      intro a ha
      have hf := hk a (List.mem_cons_of_mem x ha)
      cases ht : tied lt a x with
      | true =>
        rw [List.filter_cons_of_pos ht,List.filter_cons_of_pos ht] at hf
        exact (List.cons.inj hf).2
      | false =>
        rwa [List.filter_cons_of_neg (by simp [ht]),List.filter_cons_of_neg (by simp [ht])] at hf
    rw [htail]

theorem StableSorted.unique {out out' : List α} (hw : WeakOrder lt xs)
    (h : StableSorted lt xs out) (h' : StableSorted lt xs out') : out=out' := by
  apply ordered_unique (hw.sub fun a ha => h.perm.mem_iff.mp ha) (h.perm.trans h'.perm.symm)
    h.ordered h'.ordered
  intro a ha
  have hx := h.perm.mem_iff.mp ha
  rw [h.kept a hx,h'.kept a hx]

/-- An entry goes before the first one that it is less than. -/
theorem StableSorted.insert {before after : List α} {entry : α}
    (hw : WeakOrder lt (xs++[entry])) (h : StableSorted lt xs (before++after))
    (hbefore : ∀x∈before, lt entry x=false) (hafter : ∀x∈after.head?, lt entry x=true) :
    StableSorted lt (xs++[entry]) (before++entry::after) := by
  have hmem : ∀y∈before++after, y∈xs++[entry] :=
    fun y hy => List.mem_append_left _ (h.perm.mem_iff.mp hy)
  have hentry : entry∈xs++[entry] := by simp
  obtain ⟨hob,hoa,hba⟩ := List.pairwise_append.mp h.ordered
  have hless : ∀y∈after, lt entry y=true := by
    intro y hy
    cases after with
    | nil => cases hy
    | cons x rest =>
      have hx : lt entry x=true := hafter x rfl
      rcases List.mem_cons.mp hy with rfl | hm
      · exact hx
      · have hyx : lt y x=false := (List.pairwise_cons.mp hoa).1 y hm
        rcases hw.cotrans entry hentry y (hmem y (List.mem_append_right _ hy)) x
            (hmem x (by simp)) hx with hlt | hlt
        · exact hlt
        · rw [hyx] at hlt; cases hlt
  constructor
  · have hmid : (before++entry::after).Perm (entry::(before++after)) := List.perm_middle
    exact (hmid.trans (h.perm.cons entry)).trans (List.perm_append_singleton entry xs).symm
  · apply List.pairwise_append.mpr
    refine ⟨hob,List.pairwise_cons.mpr ⟨?_,hoa⟩,?_⟩
    · intro y hy
      exact hw.asymm entry hentry y (hmem y (List.mem_append_right _ hy)) (hless y hy)
    · intro x hx y hy
      rcases List.mem_cons.mp hy with rfl | hm
      · exact hbefore x hx
      · exact hba x hx y hm
  · intro a ha
    have hold : (before++after).filter (tied lt a)=xs.filter (tied lt a) := by
      rcases List.mem_append.mp ha with hx | he
      · exact h.kept a hx
      · have hae : a=entry := by simpa using he
        subst hae
        by_cases hex : ∃b∈xs, tied lt a b=true
        · obtain ⟨b,hb,htab⟩ := hex
          have hb' : b∈xs++[a] := List.mem_append_left _ hb
          have hsame : ∀c∈xs++[a], tied lt a c=tied lt b c := by
            intro c hc
            have htba : tied lt b a=true := by
              obtain ⟨h1,h2⟩ := tied_iff.mp htab
              exact tied_iff.mpr ⟨h2,h1⟩
            rw [Bool.eq_iff_iff]
            constructor
            · intro htc
              exact tied_iff.mpr ⟨hw.tied_trans hentry hb' hc htab htc,
                hw.tied_trans hentry hc hb' htc htab⟩
            · intro htc
              exact tied_iff.mpr ⟨hw.tied_trans hb' hentry hc htba htc,
                hw.tied_trans hb' hc hentry htc htba⟩
          rw [List.filter_congr (fun c hc => hsame c (hmem c hc)),h.kept b hb]
          exact (List.filter_congr fun c hc => hsame c (List.mem_append_left _ hc)).symm
        · have hnone : ∀c∈xs, ¬tied lt a c=true := fun c hc ht => hex ⟨c,hc,ht⟩
          rw [List.filter_eq_nil_iff.mpr hnone,List.filter_eq_nil_iff]
          intro c hc
          exact hnone c (h.perm.mem_iff.mp hc)
    rw [List.filter_append,List.filter_append,← hold,List.filter_append,List.filter_cons]
    cases ht : tied lt a entry with
    | false => simp [ht]
    | true =>
      have hnone : after.filter (tied lt a)=[] := by
        rw [List.filter_eq_nil_iff]
        intro y hy hty
        have hy' := hmem y (List.mem_append_right _ hy)
        have hfalse := hw.tied_trans ha hentry hy' ht hty
        rw [hless y hy] at hfalse
        cases hfalse
      simp [ht,hnone]

end Order

section Algorithms

/-- A sorting algorithm on one list, as the comparisons that it asks for. -/
inductive Asking (α : Type) where
  | done (out : List α)
  | ask (a b : α) (next : Ordering → Asking α)

namespace Asking

variable {α E S : Type}

def answer (cmp : α → α → Ordering) : Asking α → List α
  | done out => out
  | ask a b next => (next (cmp a b)).answer cmp

/-- The algorithm with a comparator that has a state. -/
def run (cmp : α → α → S → Ordering×S) : Asking α → S → List α×S
  | done out,s => (out,s)
  | ask a b next,s =>
    let (o,t) := cmp a b s
    (next o).run cmp t

/-- Only entries of the list are compared. -/
def Within (xs : List α) : Asking α → Prop
  | done _ => True
  | ask a b next => a∈xs ∧ b∈xs ∧ ∀o, (next o).Within xs

/-- A comparator that keeps its first error and answers `Equal` from then on. -/
def capture (cmp : α → α → Except E Ordering) (a b : α) : Option E → Ordering×Option E
  | some e => (.eq,some e)
  | none =>
    match cmp a b with
    | .ok o => (o,none)
    | .error e => (.eq,some e)

theorem run_captured (cmp : α → α → Except E Ordering) (e : E) (tree : Asking α) :
    (tree.run (capture cmp) (some e)).2=some e := by
  induction tree with
  | done out => rfl
  | ask a b next ih => exact ih .eq

theorem run_clean {cmp : α → α → Except E Ordering} {pure : α → α → Ordering} {xs : List α}
    (hc : ∀a∈xs, ∀b∈xs, ∀o, cmp a b=.ok o → o=pure a b) {tree : Asking α}
    (hw : tree.Within xs) (hn : (tree.run (capture cmp) none).2=none) :
    (tree.run (capture cmp) none).1=tree.answer pure := by
  induction tree with
  | done out => rfl
  | ask a b next ih =>
    obtain ⟨ha,hb,hnext⟩ := hw
    cases hab : cmp a b with
    | error e =>
      have hrun : (ask a b next).run (capture cmp) none=(next .eq).run (capture cmp) (some e) := by
        simp only [run,capture,hab]
      rw [hrun,run_captured] at hn
      cases hn
    | ok o =>
      have hrun : (ask a b next).run (capture cmp) none=(next o).run (capture cmp) none := by
        simp only [run,capture,hab]
      have ho := hc a ha b hb o hab
      rw [hrun] at hn ⊢
      rw [ih o (hnext o) hn,answer,← ho]

end Asking

variable {α : Type}

/-- The comparator that asks `a<b` and, if not, `b<a`. -/
def compareBy (lt : α → α → Bool) (a b : α) : Ordering :=
  if lt a b then .lt else if lt b a then .gt else .eq

/-- A stable sort for every consistent comparator. -/
structure StableAlgorithm (sort : List α → Asking α) : Prop where
  within : ∀xs, (sort xs).Within xs
  sorts : ∀xs lt, WeakOrder lt xs → StableSorted lt xs ((sort xs).answer (compareBy lt))

end Algorithms

section Insertion

variable {α : Type}

def askInsert (entry : α) (before : List α) (next : List α → Asking α) : List α → Asking α
  | [] => next (before++[entry])
  | x::after => .ask entry x fun o =>
    if o=.lt then next (before++entry::x::after) else askInsert entry (before++[x]) next after

def askSort (sorted : List α) : List α → Asking α
  | [] => .done sorted
  | x::xs => askInsert x [] (fun s => askSort s xs) sorted

theorem askInsert_answer {lt : α → α → Bool} {xs : List α} {entry : α}
    {next : List α → Asking α} (hw : WeakOrder lt (xs++[entry])) :
    ∀(after before : List α), StableSorted lt xs (before++after) →
      (∀x∈before, lt entry x=false) →
      ∃out, StableSorted lt (xs++[entry]) out ∧
        (askInsert entry before next after).answer (compareBy lt)=(next out).answer (compareBy lt)
  | [],before,h,hb => ⟨before++[entry],h.insert hw hb (by simp),rfl⟩
  | x::after,before,h,hb => by
    rw [askInsert,Asking.answer]
    cases hx : lt entry x with
    | true =>
      have ho : compareBy lt entry x=.lt := if_pos hx
      refine ⟨before++entry::x::after,h.insert hw hb ?_,?_⟩
      · intro y hy
        have he : x=y := by simpa using hy
        rw [← he]
        exact hx
      · rw [ho,if_pos rfl]
    | false =>
      have ho : compareBy lt entry x≠.lt := by
        unfold compareBy
        rw [hx]
        split_ifs <;> simp_all
      rw [if_neg ho]
      apply askInsert_answer hw after (before++[x])
      · simpa using h
      · intro y hy
        rcases List.mem_append.mp hy with hm | hm
        · exact hb y hm
        · have he : y=x := by simpa using hm
          rw [he]
          exact hx

theorem askSort_answer {lt : α → α → Bool} :
    ∀(xs pre sorted : List α), WeakOrder lt (pre++xs) → StableSorted lt pre sorted →
      StableSorted lt (pre++xs) ((askSort sorted xs).answer (compareBy lt))
  | [],pre,sorted,_,h => by simpa [askSort,Asking.answer] using h
  | x::xs,pre,sorted,hw,h => by
    have hw' : WeakOrder lt (pre++[x]) := hw.sub fun a ha => by
      rcases List.mem_append.mp ha with hm | hm
      · exact List.mem_append_left _ hm
      · exact List.mem_append_right _ (by simpa using Or.inl (List.mem_singleton.mp hm))
    have hinsert : ∃out, StableSorted lt (pre++[x]) out ∧
        (askInsert x [] (fun s => askSort s xs) sorted).answer (compareBy lt)=
          (askSort out xs).answer (compareBy lt) := askInsert_answer hw' sorted [] h (by simp)
    obtain ⟨out,hout,heq⟩ := hinsert
    rw [askSort,heq]
    have hrun := askSort_answer xs (pre++[x]) out (by simpa using hw) hout
    simpa using hrun

theorem askInsert_within {all : List α} {entry : α} (he : entry∈all)
    {next : List α → Asking α} (hn : ∀s, (∀a∈s, a∈all) → (next s).Within all) :
    ∀(after before : List α), (∀a∈before++after, a∈all) →
      (askInsert entry before next after).Within all
  | [],before,h => by
    apply hn
    intro a ha
    rcases List.mem_append.mp ha with hm | hm
    · exact h a (by simpa using hm)
    · rw [List.mem_singleton.mp hm]
      exact he
  | x::after,before,h => by
    refine ⟨he,h x (by simp),?_⟩
    intro o
    dsimp only
    split_ifs
    · apply hn
      intro a ha
      rcases List.mem_append.mp ha with hm | hm
      · exact h a (List.mem_append_left _ hm)
      · rcases List.mem_cons.mp hm with rfl | hr
        · exact he
        · exact h a (List.mem_append_right _ hr)
    · exact askInsert_within he hn after (before++[x]) (by simpa using h)

theorem askSort_within {all : List α} :
    ∀(xs sorted : List α), (∀a∈xs, a∈all) → (∀a∈sorted, a∈all) → (askSort sorted xs).Within all
  | [],_,_,_ => trivial
  | x::xs,sorted,hx,hs => by
    apply askInsert_within (hx x List.mem_cons_self) ?_ sorted [] (by simpa using hs)
    intro s hm
    exact askSort_within xs s (fun a ha => hx a (List.mem_cons_of_mem x ha)) hm

theorem askSort_stable : StableAlgorithm (askSort ([] : List α)) where
  within xs := askSort_within xs [] (fun _ ha => ha) (by simp)
  sorts xs _ hw := askSort_answer xs [] [] hw stableSorted_nil

end Insertion

end InterpretThis
