import Mathlib.Data.List.Basic
import Mathlib.Data.List.Chain
import Mathlib.Data.List.Flatten
import Mathlib.Data.List.Range
import Mathlib.Order.Basic

namespace InterpretThis
namespace Enumeration

section Runs

variable {σ β : Type}

/-- Emit a row for the state and go on to the next one, until there is none. -/
def collect (next : σ → Option σ) (emit : σ → Option β) : ℕ → σ → Option (List β)
  | 0,_ => none
  | fuel+1,s => do
    let row ← emit s
    match next s with
    | none => return [row]
    | some t => return row::(← collect next emit fuel t)

/-- A loop that ends, with what it gives. -/
def Ends (f : ℕ → Option β) (result : β) : Prop := ∃ bound,∀ fuel,bound≤fuel → f fuel=some result

variable {next : σ → Option σ} {emit : σ → Option β}

/-- A run through the states of a chain emits their rows. -/
theorem collect_chain {states : List σ} (hchain : states.IsChain (next ·=some ·))
    (hlast : ∀ s∈states.getLast?,next s=none) {s : σ} (hs : states.head?=some s) {fuel : ℕ}
    (hfuel : states.length≤fuel) : collect next emit fuel s=states.mapM emit := by
  induction states generalizing s fuel with
  | nil => cases hs
  | cons a rest ih =>
    obtain rfl : a=s := Option.some.inj hs
    cases fuel with
    | zero => exact absurd hfuel (Nat.not_succ_le_zero _)
    | succ fuel =>
      rw [collect,List.mapM_cons]
      cases rest with
      | nil =>
        have hnone : next a=none := hlast a rfl
        rw [hnone]
        rfl
      | cons b rest =>
        obtain ⟨hab,hrest⟩ := List.isChain_cons_cons.mp hchain
        have hrec := ih hrest (by rwa [List.getLast?_cons_cons] at hlast) rfl
          (Nat.le_of_succ_le_succ hfuel)
        rw [hab,← hrec]

end Runs

section Trees

/-- Bounds for the entry that may follow a prefix. -/
structure Bounds where
  lo : List ℕ → ℕ
  hi : List ℕ → ℕ

variable (B : Bounds)

/-- The continuations of a prefix by a number of entries, the last entry fastest. -/
def paths : ℕ → List ℕ → List (List ℕ)
  | 0,_ => [[]]
  | d+1,p => (List.range' (B.lo p) (B.hi p-B.lo p)).flatMap fun a =>
      (paths d (p++[a])).map (a::·)

def least : ℕ → List ℕ → List ℕ
  | 0,_ => []
  | d+1,p => B.lo p::least d (p++[B.lo p])

def greatest : ℕ → List ℕ → List ℕ
  | 0,_ => []
  | d+1,p => (B.hi p-1)::greatest d (p++[B.hi p-1])

/-- Every entry keeps the bounds that the entries before it set. -/
def Follows : List ℕ → List ℕ → Prop
  | _,[] => True
  | p,a::q => B.lo p≤a ∧ a<B.hi p ∧ Follows (p++[a]) q

/-- No continuation shorter than the depth is stuck. -/
def Open (d : ℕ) (p : List ℕ) : Prop :=
  ∀ q,Follows B p q → q.length<d → B.lo (p++q)<B.hi (p++q)

variable {B} {d : ℕ} {p q : List ℕ}

theorem Open.here (h : Open B (d+1) p) : B.lo p<B.hi p := by
  have hnil := h [] trivial (Nat.succ_pos d)
  rwa [List.append_nil] at hnil

theorem Open.step (h : Open B (d+1) p) {a : ℕ} (hl : B.lo p≤a) (hh : a<B.hi p) :
    Open B d (p++[a]) := by
  intro q hq hlen
  have hcons := h (a::q) ⟨hl,hh,hq⟩ (Nat.succ_lt_succ hlen)
  rwa [List.append_cons] at hcons

theorem mem_paths : q∈paths B d p ↔ q.length=d ∧ Follows B p q := by
  induction d generalizing p q with
  | zero =>
    rw [paths,List.mem_singleton,List.length_eq_zero_iff]
    constructor
    · rintro rfl
      exact ⟨rfl,trivial⟩
    · exact And.left
  | succ d ih =>
    rw [paths,List.mem_flatMap]
    constructor
    · rintro ⟨a,ha,hq⟩
      obtain ⟨t,ht,rfl⟩ := List.mem_map.mp hq
      obtain ⟨hlen,hfollows⟩ := ih.mp ht
      rw [List.mem_range'_1] at ha
      exact ⟨congrArg Nat.succ hlen,ha.1,by omega,hfollows⟩
    · rintro ⟨hlen,hfollows⟩
      cases q with
      | nil => cases hlen
      | cons a t =>
        obtain ⟨hl,hh,ht⟩ := hfollows
        refine ⟨a,List.mem_range'_1.mpr ⟨hl,by omega⟩,List.mem_map.mpr ⟨t,?_,rfl⟩⟩
        exact ih.mpr ⟨Nat.succ.inj hlen,ht⟩

theorem paths_lex (d : ℕ) (p : List ℕ) : (paths B d p).Pairwise (List.Lex (·<·)) := by
  induction d generalizing p with
  | zero => exact List.pairwise_singleton _ _
  | succ d ih =>
    rw [paths,List.pairwise_flatMap]
    constructor
    · intro a _
      exact (ih (p++[a])).map _ fun _ _ h => List.Lex.cons h
    · refine (List.pairwise_lt_range' (s := B.lo p) (n := B.hi p-B.lo p)).imp ?_
      intro a b hab x hx y hy
      obtain ⟨t,-,rfl⟩ := List.mem_map.mp hx
      obtain ⟨u,-,rfl⟩ := List.mem_map.mp hy
      exact List.Lex.rel hab

/-- The run of the blocks from one entry on: where it starts and ends, and that each path leads to
the one behind it. -/
theorem blocks_chain {R : List ℕ → List ℕ → Prop} {f l : ℕ → List ℕ} {block : ℕ → List (List ℕ)}
    {a m : ℕ} (hfirst : ∀ b,a≤b → b<a+(m+1) → (block b).head?=some (f b))
    (hlast : ∀ b,a≤b → b<a+(m+1) → (block b).getLast?=some (l b))
    (hblock : ∀ b,a≤b → b<a+(m+1) → (block b).IsChain R)
    (hnext : ∀ b,a≤b → b+1<a+(m+1) → R (l b) (f (b+1))) :
    ((List.range' a (m+1)).flatMap block).head?=some (f a) ∧
    ((List.range' a (m+1)).flatMap block).getLast?=some (l (a+m)) ∧
    ((List.range' a (m+1)).flatMap block).IsChain R := by
  induction m generalizing a with
  | zero =>
    have hone : (List.range' a 1).flatMap block=block a := by simp
    rw [hone]
    exact ⟨hfirst a (Nat.le_refl a) (by omega),hlast a (Nat.le_refl a) (by omega),
      hblock a (Nat.le_refl a) (by omega)⟩
  | succ m ih =>
    obtain ⟨hh,hl,hc⟩ := ih (a := a+1) (fun b hb hb' => hfirst b (by omega) (by omega))
      (fun b hb hb' => hlast b (by omega) (by omega))
      (fun b hb hb' => hblock b (by omega) (by omega))
      (fun b hb hb' => hnext b (by omega) (by omega))
    have hsplit : (List.range' a (m+1+1)).flatMap block=
        block a++(List.range' (a+1) (m+1)).flatMap block := by
      rw [List.range'_succ,List.flatMap_cons]
    have hne : block a≠[] := by
      intro hnil
      have hhead := hfirst a (Nat.le_refl a) (by omega)
      rw [hnil] at hhead
      cases hhead
    have hne' : (List.range' (a+1) (m+1)).flatMap block≠[] := by
      intro hnil
      rw [hnil] at hh
      cases hh
    rw [hsplit]
    refine ⟨?_,?_,List.isChain_append.mpr ⟨hblock a (Nat.le_refl a) (by omega),hc,?_⟩⟩
    · rw [List.head?_append_of_ne_nil _ hne]
      exact hfirst a (Nat.le_refl a) (by omega)
    · rw [List.getLast?_append_of_ne_nil _ hne',hl]
      congr 2
      omega
    · intro x hx y hy
      rw [hlast a (Nat.le_refl a) (by omega)] at hx
      rw [hh] at hy
      obtain rfl : l a=x := Option.some.inj hx
      obtain rfl : f (a+1)=y := Option.some.inj hy
      exact hnext a (Nat.le_refl a) (by omega)

/-- Where each greatest continuation of an entry leads to the least one of the entry behind it, the
paths form a chain from the least to the greatest. -/
theorem paths_chain {R : List ℕ → List ℕ → Prop} (hopen : Open B d p)
    (hstep : ∀ q a e,Follows B p q → q.length+1+e=d → B.lo (p++q)≤a → a+1<B.hi (p++q) →
      R (p++q++a::greatest B e (p++q++[a])) (p++q++(a+1)::least B e (p++q++[a+1]))) :
    ((paths B d p).map (p++·)).head?=some (p++least B d p) ∧
    ((paths B d p).map (p++·)).getLast?=some (p++greatest B d p) ∧
    ((paths B d p).map (p++·)).IsChain R := by
  induction d generalizing p with
  | zero =>
    rw [paths]
    exact ⟨rfl,rfl,List.isChain_singleton _⟩
  | succ d ih =>
    have hhere := hopen.here
    obtain ⟨m,hm⟩ : ∃ m,B.hi p-B.lo p=m+1 := ⟨B.hi p-B.lo p-1,by omega⟩
    have hmap : (paths B (d+1) p).map (p++·)=(List.range' (B.lo p) (m+1)).flatMap fun a =>
        (paths B d (p++[a])).map ((p++[a])++·) := by
      rw [paths,hm,List.map_flatMap]
      congr 1
      funext a
      rw [List.map_map]
      congr 1
      funext t
      exact List.append_cons p a t
    have hrec : ∀ b,B.lo p≤b → b<B.lo p+(m+1) →
        ((paths B d (p++[b])).map ((p++[b])++·)).head?=some (p++[b]++least B d (p++[b])) ∧
        ((paths B d (p++[b])).map ((p++[b])++·)).getLast?=
          some (p++[b]++greatest B d (p++[b])) ∧
        ((paths B d (p++[b])).map ((p++[b])++·)).IsChain R := by
      intro b hb hb'
      refine ih (hopen.step hb (by omega)) fun q a e hq hlen hla hha => ?_
      have hcons := hstep (b::q) a e ⟨hb,by omega,hq⟩ (by rw [List.length_cons]; omega)
      rw [List.append_cons p b q] at hcons
      exact hcons hla hha
    have hall := blocks_chain (R := R) (f := fun b => p++[b]++least B d (p++[b]))
      (l := fun b => p++[b]++greatest B d (p++[b])) (fun b hb hb' => (hrec b hb hb').1)
      (fun b hb hb' => (hrec b hb hb').2.1) (fun b hb hb' => (hrec b hb hb').2.2) ?_
    · rw [hmap,least,greatest]
      have hmax : B.lo p+m=B.hi p-1 := by omega
      rw [hmax] at hall
      rw [List.append_cons p (B.lo p),List.append_cons p (B.hi p-1)]
      exact hall
    · intro b hb hb'
      have hone := hstep [] b d trivial (by rw [List.length_nil]; omega)
      simp only [List.append_nil] at hone
      have hstep := hone hb (by omega)
      rw [List.append_cons p b,List.append_cons p (b+1)] at hstep
      exact hstep

theorem follows_append {t : List ℕ} :
    Follows B p (q++t) ↔ Follows B p q ∧ Follows B (p++q) t := by
  induction q generalizing p with
  | nil => rw [List.nil_append,List.append_nil,Follows,true_and]
  | cons a q ih =>
    rw [List.cons_append,Follows,Follows,ih,List.append_cons p a q]
    tauto

theorem mapM_some {α β : Type} {f : α → Option β} {xs : List α} (h : ∀ x∈xs,∃ y,f x=some y) :
    ∃ ys,xs.mapM f=some ys ∧ ys.length=xs.length := by
  induction xs with
  | nil => exact ⟨[],rfl,rfl⟩
  | cons x xs ih =>
    obtain ⟨y,hy⟩ := h x List.mem_cons_self
    obtain ⟨ys,hys,hlen⟩ := ih fun z hz => h z (List.mem_cons_of_mem _ hz)
    refine ⟨y::ys,?_,congrArg Nat.succ hlen⟩
    rw [List.mapM_cons,hy,hys]
    rfl

theorem mapM_congr {α β : Type} {f g : α → Option β} {xs : List α} (h : ∀ x∈xs,f x=g x) :
    xs.mapM f=xs.mapM g := by
  induction xs with
  | nil => rfl
  | cons x xs ih =>
    rw [List.mapM_cons,List.mapM_cons,h x List.mem_cons_self,
      ih fun y hy => h y (List.mem_cons_of_mem _ hy)]

/-- A run whose steps go along the paths emits a row for each path, and ends. -/
theorem collect_paths {σ β : Type} {next : σ → Option σ} {emit : σ → Option β}
    {st : List ℕ → σ} (hopen : Open B d [])
    (hstep : ∀ q a e,Follows B [] q → q.length+1+e=d → B.lo q≤a → a+1<B.hi q →
      next (st (q++a::greatest B e (q++[a])))=some (st (q++(a+1)::least B e (q++[a+1]))))
    (hlast : next (st (greatest B d []))=none)
    (hrow : ∀ q,q∈paths B d [] → ∃ y,emit (st q)=some y) :
    ∃ result,Ends (fun fuel => collect next emit fuel (st (least B d []))) result ∧
      (paths B d []).mapM (fun q => emit (st q))=some result ∧
      result.length=(paths B d []).length := by
  obtain ⟨result,hrows,hlen⟩ := mapM_some hrow
  refine ⟨result,⟨(paths B d []).length,fun fuel hfuel => ?_⟩,hrows,hlen⟩
  obtain ⟨hh,hl,hc⟩ := paths_chain (R := fun x y => next (st x)=some (st y)) hopen hstep
  have hid : (paths B d []).map ([]++·)=paths B d [] := List.map_id _
  rw [hid] at hh hl hc
  have hchain : ((paths B d []).map st).IsChain (next ·=some ·) := by
    rw [List.isChain_map]
    exact hc
  have hend : ∀ s∈((paths B d []).map st).getLast?,next s=none := by
    intro s hs
    rw [List.getLast?_map,hl] at hs
    obtain rfl := Option.some.inj hs
    exact hlast
  have hhead : ((paths B d []).map st).head?=some (st (least B d [])) := by
    rw [List.head?_map,hh]
    rfl
  change collect next emit fuel _=_
  rw [collect_chain hchain hend hhead (by rwa [List.length_map]),List.mapM_map]
  exact hrows

end Trees

end Enumeration
end InterpretThis
