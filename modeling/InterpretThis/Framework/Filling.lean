import InterpretThis.Framework.Occurrence
import InterpretThis.Framework.Words
import Mathlib.Data.List.Chain

namespace InterpretThis.Filling

variable {α : Type}

/-- A word cut after every `width` elements. -/
def cut (width : Nat) (w : List α) : List (List α) :=
  if w.length ≤ width ∨ width=0 then [w] else w.take width::cut width (w.drop width)
termination_by w.length
decreasing_by
  rename_i h
  rw [List.length_drop]
  omega

/-- A piece of a word, and what it takes beside the line before it. -/
structure Piece (α : Type) where
  text : List α
  need : Nat

/-- A whole word takes a blank and itself; what is cut off a word follows on at once. -/
def pieces (width : Nat) (w : List α) : List (Piece α) :=
  match cut width w with
  | [] => []
  | p::ps => ⟨p,1+w.length⟩::ps.map fun q => ⟨q,q.length⟩

def line (blank : α) (row : List (Piece α)) : List α := [blank].intercalate (row.map Piece.text)

/-- Rows of pieces with every word in its place, each broken off where what comes next does not
fit. -/
structure Filled (blank : α) (width : Nat) (words : List (List α)) (rows : List (List (Piece α))) :
    Prop where
  pieces : rows.flatten=words.flatMap (pieces width)
  kept : ∀ row ∈ rows,row≠[]
  bound : ∀ row ∈ rows,0<(line blank row).length ∧ (line blank row).length ≤ width
  full : rows.IsChain fun row next => ∀ p ∈ next.head?,width<(line blank row).length+p.need

section Cutting

variable {width : Nat} {w : List α}

theorem cut_short (h : w.length ≤ width) : cut width w=[w] := by
  rw [cut,if_pos (.inl h)]

theorem cut_ne_nil : cut width w≠[] := by
  rw [cut]
  split <;> simp

theorem flatten_cut (width : Nat) (w : List α) : (cut width w).flatten=w := by
  induction w using cut.induct width with
  | case1 w h => rw [cut,if_pos h,List.flatten_singleton]
  | case2 w h ih => rw [cut,if_neg h,List.flatten_cons,ih,List.take_append_drop]

theorem mem_cut (hw : 0<width) (h : w≠[]) : ∀ p ∈ cut width w,p≠[] ∧ p.length ≤ width := by
  induction w using cut.induct width with
  | case1 w hshort =>
    intro p hp
    rw [cut,if_pos hshort,List.mem_singleton] at hp
    subst hp
    exact ⟨h,by omega⟩
  | case2 w hlong ih =>
    intro p hp
    rw [cut,if_neg hlong,List.mem_cons] at hp
    cases hp with
    | inl hp =>
      subst hp
      constructor
      · intro hnil
        have hlen := congrArg List.length hnil
        rw [List.length_take,List.length_nil] at hlen
        omega
      · exact List.length_take_le _ _
    | inr hp =>
      refine ih (fun hnil => ?_) p hp
      have hlen := congrArg List.length hnil
      rw [List.length_drop,List.length_nil] at hlen
      omega

theorem cut_full (width : Nat) (w : List α) :
    (cut width w).IsChain fun p _ => p.length=width := by
  induction w using cut.induct width with
  | case1 w h =>
    rw [cut,if_pos h]
    exact .singleton _
  | case2 w h ih =>
    rw [cut,if_neg h]
    refine List.isChain_cons.mpr ⟨fun _ _ => ?_,ih⟩
    rw [List.length_take]
    omega

theorem pieces_text (width : Nat) (w : List α) : (pieces width w).map Piece.text=cut width w := by
  unfold pieces
  match hc : cut width w with
  | [] => rfl
  | p::ps =>
    rw [List.map_cons,List.map_map]
    exact congrArg (p::·) (List.map_id ps)

theorem pieces_short (h : w.length ≤ width) : pieces width w=[⟨w,1+w.length⟩] := by
  rw [pieces,cut_short h]
  rfl

theorem mem_pieces (hw : 0<width) (h : w≠[]) {p : Piece α} (hp : p ∈ pieces width w) :
    0<p.text.length ∧ p.text.length ≤ width := by
  have hmem : p.text ∈ cut width w := by
    rw [← pieces_text]
    exact List.mem_map_of_mem hp
  obtain ⟨hne,hle⟩ := mem_cut hw h _ hmem
  exact ⟨List.length_pos_iff.mpr hne,hle⟩

end Cutting

section Filling

variable {blank : α} {width : Nat} {w : List α} {ws : List (List α)} {rows : List (List (Piece α))}
  {row : List (Piece α)}

@[simp] theorem line_singleton (p : Piece α) : line blank [p]=p.text := by
  simp [line]

theorem line_snoc (h : row≠[]) (p : Piece α) :
    line blank (row++[p])=line blank row++blank::p.text := by
  have hne : row.map Piece.text≠[] := by simpa using h
  rw [line,line,List.map_append,List.map_singleton,Occurrence.join_snoc _ _ hne,List.append_assoc,
    List.singleton_append]

/-- The pieces of one word, each on a line of its own. -/
theorem singles_chain (hw : 0<width) (h : w≠[]) :
    ((pieces width w).map fun p => [p]).IsChain
      fun row next => ∀ p ∈ next.head?,width<(line blank row).length+p.need := by
  have hfull := cut_full width w
  have hsize := mem_cut hw h
  unfold pieces
  match hc : cut width w with
  | [] => exact absurd hc cut_ne_nil
  | p::ps =>
    rw [hc] at hfull hsize
    clear hc
    rw [List.map_cons]
    generalize 1+w.length=n
    induction ps generalizing p n with
    | nil => exact .singleton _
    | cons q ps ih =>
      obtain ⟨hp,hrest⟩ := List.isChain_cons_cons.mp hfull
      rw [List.map_cons,List.map_cons]
      refine List.isChain_cons_cons.mpr
        ⟨fun x hx => ?_,ih q (fun x hx => hsize x (List.mem_cons_of_mem _ hx)) hrest q.length⟩
      · obtain rfl := Option.some.inj hx
        have hq := List.length_pos_iff.mpr (hsize q (by simp)).1
        rw [line_singleton,hp]
        exact Nat.lt_add_of_pos_right hq

theorem singles_bound (hw : 0<width) (h : w≠[]) :
    ∀ row ∈ (pieces width w).map fun p => [p],
      row≠[] ∧ 0<(line blank row).length ∧ (line blank row).length ≤ width := by
  intro row hrow
  obtain ⟨p,hp,rfl⟩ := List.mem_map.mp hrow
  rw [line_singleton]
  exact ⟨List.cons_ne_nil _ _,mem_pieces hw h hp⟩

theorem flatten_singles (ps : List (Piece α)) : (ps.map fun p => [p]).flatten=ps := by
  induction ps with
  | nil => rfl
  | cons p ps ih => rw [List.map_cons,List.flatten_cons,ih,List.singleton_append]

theorem filled_nil (blank : α) (width : Nat) : Filled blank width [] [] where
  pieces := rfl
  kept := fun _ hrow => nomatch hrow
  bound := fun _ hrow => nomatch hrow
  full := .nil

theorem filled_first (hw : 0<width) (h : w≠[]) :
    Filled blank width [w] ((pieces width w).map fun p => [p]) where
  pieces := by rw [flatten_singles,List.flatMap_singleton]
  kept := fun row hrow => (@singles_bound _ blank _ _ hw h row hrow).1
  bound := fun row hrow => (singles_bound hw h row hrow).2
  full := singles_chain hw h

/-- A word that fits goes on the last line. -/
theorem Filled.fit (h : Filled blank width ws (rows++[row]))
    (hfit : (line blank row).length+1+w.length ≤ width) :
    Filled blank width (ws++[w]) (rows++[row++[⟨w,1+w.length⟩]]) := by
  have hrow : row≠[] := h.kept row (by simp)
  have hline := @line_snoc _ blank _ hrow ⟨w,1+w.length⟩
  have hhead : (row++[(⟨w,1+w.length⟩ : Piece α)]).head?=row.head? := by
    rw [List.head?_append_of_ne_nil _ hrow]
  refine ⟨?_,?_,?_,?_⟩
  · have hpieces := h.pieces
    rw [List.flatten_append,List.flatten_singleton] at hpieces
    rw [List.flatten_append,List.flatten_singleton,← List.append_assoc,hpieces,List.flatMap_append,
      List.flatMap_singleton,pieces_short (by omega)]
  · intro r hr
    cases List.mem_append.mp hr with
    | inl hr => exact h.kept r (List.mem_append_left _ hr)
    | inr hr =>
      rw [List.mem_singleton.mp hr]
      simp
  · intro r hr
    cases List.mem_append.mp hr with
    | inl hr => exact h.bound r (List.mem_append_left _ hr)
    | inr hr =>
      rw [List.mem_singleton.mp hr,hline,List.length_append,List.length_cons]
      dsimp only
      omega
  · obtain ⟨hbefore,hlast,hnext⟩ := List.isChain_append.mp h.full
    refine List.isChain_append.mpr ⟨hbefore,.singleton _,fun r hr s hs => ?_⟩
    obtain rfl := Option.some.inj hs
    rw [hhead]
    exact hnext r hr row rfl

/-- A word that does not fit starts a line of its own. -/
theorem Filled.next (h : Filled blank width ws (rows++[row])) (hw : 0<width) (hne : w≠[])
    (hlong : width<(line blank row).length+(1+w.length)) :
    Filled blank width (ws++[w]) (rows++[row]++(Filling.pieces width w).map fun p => [p]) := by
  have hsingles := @singles_bound _ blank _ _ hw hne
  refine ⟨?_,?_,?_,?_⟩
  · rw [List.flatten_append,h.pieces,flatten_singles,List.flatMap_append,List.flatMap_singleton]
  · intro r hr
    cases List.mem_append.mp hr with
    | inl hr => exact h.kept r hr
    | inr hr => exact (hsingles r hr).1
  · intro r hr
    cases List.mem_append.mp hr with
    | inl hr => exact h.bound r hr
    | inr hr => exact (hsingles r hr).2
  · refine List.isChain_append.mpr ⟨h.full,singles_chain hw hne,fun r hr s hs p hp => ?_⟩
    rw [List.getLast?_concat] at hr
    obtain rfl := Option.some.inj hr
    have hneed : p.need=1+w.length := by
      unfold Filling.pieces at hs
      match hc : cut width w with
      | [] => exact absurd hc cut_ne_nil
      | q::qs =>
        rw [hc] at hs
        obtain rfl := Option.some.inj hs
        obtain rfl := Option.some.inj hp
        rfl
    rw [hneed]
    exact hlong

end Filling

section Reading

open Words

variable {sp : α → Bool} {blank : α} {width : Nat} {ws : List (List α)}
  {rows : List (List (Piece α))}

theorem worded_blank {ps : List (List α)} {a s : List α} (ha : ∀ c ∈ a,sp c=true)
    (h : Worded sp ps s) : Worded sp ps (a++s) := by
  have hmore : ∀ {b : List α},(∀ c ∈ b,sp c=true) → ∀ c ∈ a++b,sp c=true := by
    intro b hb c hc
    cases List.mem_append.mp hc with
    | inl hc => exact ha c hc
    | inr hc => exact hb c hc
  cases h with
  | blank hs => exact .blank (hmore hs)
  | word hb hw hclean hnext hrest =>
    rw [← List.append_assoc,← List.append_assoc]
    exact .word (hmore hb) hw hclean hnext hrest

theorem worded_append {p q : List (List α)} {a b sep : List α} (ha : Worded sp p a)
    (hb : Worded sp q b) (hne : sep≠[]) (hsep : ∀ c ∈ sep,sp c=true) :
    Worded sp (p++q) (a++sep++b) := by
  induction ha with
  | blank hs =>
    rw [List.nil_append,List.append_assoc]
    exact worded_blank hs (worded_blank hsep hb)
  | @word a₀ w b₀ ps hblank hw hclean hnext _ ih =>
    rw [List.cons_append,List.append_assoc (a₀++w),List.append_assoc (a₀++w)]
    refine .word hblank hw hclean (fun c hc => ?_) ih
    cases b₀ with
    | nil =>
      rw [List.nil_append,List.head?_append_of_ne_nil _ hne] at hc
      exact hsep c (List.mem_of_head? hc)
    | cons d b₀ => exact hnext c hc

theorem worded_single {w : List α} (hw : w≠[]) (hclean : ∀ c ∈ w,sp c=false) :
    Worded sp [w] w := by
  have h : Worded sp [w] ([]++w++[]) :=
    .word (fun _ hc => nomatch hc) hw hclean (fun _ hc => nomatch hc)
      (.blank fun _ hc => nomatch hc)
  rwa [List.nil_append,List.append_nil] at h

theorem worded_join {β : Type} {sep : List α} (hne : sep≠[]) (hsep : ∀ c ∈ sep,sp c=true)
    (f : β → List (List α)) (g : β → List α) (xs : List β)
    (h : ∀ x ∈ xs,Worded sp (f x) (g x)) :
    Worded sp (xs.flatMap f) (sep.intercalate (xs.map g)) := by
  induction xs with
  | nil => exact .blank fun _ hc => nomatch hc
  | cons x xs ih =>
    have hx := h x List.mem_cons_self
    have hrest := ih fun y hy => h y (List.mem_cons_of_mem _ hy)
    cases xs with
    | nil => simpa using hx
    | cons y xs =>
      rw [List.map_cons,Occurrence.join_cons _ _ (by simp)]
      exact worded_append hx hrest hne hsep

/-- The words of the rows, joined with any blanks, are the pieces of the words. -/
theorem Filled.lossless (h : Filled blank width ws rows) (hw : 0<width) (hblank : sp blank=true)
    (hws : ∀ w ∈ ws,w≠[] ∧ ∀ c ∈ w,sp c=false) {sep : List α} (hne : sep≠[])
    (hsep : ∀ c ∈ sep,sp c=true) :
    words sp (sep.intercalate (rows.map (line blank)))=ws.flatMap (cut width) := by
  have htexts : rows.flatten.map Piece.text=ws.flatMap (cut width) := by
    rw [h.pieces,List.map_flatMap]
    congr 1
    funext w
    exact pieces_text width w
  have hclean : ∀ t ∈ ws.flatMap (cut width),t≠[] ∧ ∀ c ∈ t,sp c=false := by
    intro t ht
    obtain ⟨w,hmem,ht⟩ := List.mem_flatMap.mp ht
    obtain ⟨hwne,hwclean⟩ := hws w hmem
    refine ⟨(mem_cut hw hwne t ht).1,fun c hc => hwclean c ?_⟩
    rw [← flatten_cut width w]
    exact List.mem_flatten.mpr ⟨t,ht,hc⟩
  have hrow : ∀ row ∈ rows,Worded sp (row.map Piece.text) (line blank row) := by
    intro row hmem
    have hparts := @worded_join _ sp _ [blank] (by simp) (by simpa using hblank)
      (fun p : Piece α => [p.text]) Piece.text row fun p hp => by
        have ht : p.text ∈ ws.flatMap (cut width) := by
          rw [← htexts]
          exact List.mem_map_of_mem (List.mem_flatten.mpr ⟨row,hmem,hp⟩)
        exact worded_single (hclean _ ht).1 (hclean _ ht).2
    rwa [← List.map_eq_flatMap] at hparts
  have hall := (worded_join hne hsep (fun row => row.map Piece.text)
    (line blank) rows hrow).words_eq
  rw [hall,← htexts,List.map_flatten,List.flatMap_def]

end Reading

end InterpretThis.Filling
