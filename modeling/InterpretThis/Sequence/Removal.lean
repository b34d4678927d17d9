import InterpretThis.Sequence.Exact

namespace InterpretThis.Sequence

open Progression

section Keeping

variable {α : Type}

/-- The elements at the other positions, where the first one has position `k`. -/
def kept : Nat → List α → List Nat → List α
  | _,[],_ => []
  | k,x::xs,ps => if k ∈ ps then kept (k+1) xs ps else x::kept (k+1) xs ps

theorem kept_append (k : Nat) (xs ys : List α) (ps : List Nat) :
    kept k (xs++ys) ps=kept k xs ps++kept (k+xs.length) ys ps := by
  induction xs generalizing k with
  | nil => simp [kept]
  | cons x xs ih =>
    have hk : k+1+xs.length=k+(x::xs).length := by simp only [List.length_cons]; omega
    simp only [List.cons_append,kept,ih,hk]
    split_ifs <;> rfl

theorem kept_congr {ps qs : List Nat} (k : Nat) (xs : List α)
    (h : ∀ i,k ≤ i → i<k+xs.length → (i ∈ ps ↔ i ∈ qs)) : kept k xs ps=kept k xs qs := by
  induction xs generalizing k with
  | nil => rfl
  | cons x xs ih =>
    rw [List.length_cons] at h
    have hrest := ih (k+1) fun i hi hlt => h i (by omega) (by omega)
    simp only [kept,hrest,h k (le_refl _) (by omega)]

theorem kept_none {ps : List Nat} (k : Nat) (xs : List α)
    (h : ∀ i,k ≤ i → i<k+xs.length → i ∉ ps) : kept k xs ps=xs := by
  induction xs generalizing k with
  | nil => rfl
  | cons x xs ih =>
    rw [List.length_cons] at h
    have hrest := ih (k+1) fun i hi hlt => h i (by omega) (by omega)
    rw [kept,if_neg (h k (le_refl _) (by omega)),hrest]

theorem kept_all {ps : List Nat} (k : Nat) (xs : List α)
    (h : ∀ i,k ≤ i → i<k+xs.length → i ∈ ps) : kept k xs ps=[] := by
  induction xs generalizing k with
  | nil => rfl
  | cons x xs ih =>
    rw [List.length_cons] at h
    have hrest := ih (k+1) fun i hi hlt => h i (by omega) (by omega)
    rw [kept,if_pos (h k (le_refl _) (by omega)),hrest]

/-- Removing the greatest position first leaves the others where they were. -/
theorem kept_eraseIdx {p : Nat} {ps : List Nat} (hps : ∀ q ∈ ps,q<p) (items : List α)
    (hp : p < items.length) : kept 0 (items.eraseIdx p) ps=kept 0 items (p::ps) := by
  have hsplit : items=items.take p++items[p]::items.drop (p+1) := by
    rw [← List.drop_eq_getElem_cons hp,List.take_append_drop]
  have hlen : (items.take p).length=p := by rw [List.length_take]; omega
  have hfront : kept 0 (items.take p) (p::ps)=kept 0 (items.take p) ps := by
    refine kept_congr 0 _ fun i _ hi => ?_
    rw [List.mem_cons]
    exact ⟨fun h => h.resolve_left (by omega),.inr⟩
  have hback (qs : List Nat) (hqs : ∀ q ∈ qs,q ≤ p) (k : Nat) (hk : p<k) :
      kept k (items.drop (p+1)) qs=items.drop (p+1) :=
    kept_none k _ fun i hi _ hmem => by
      have := hqs i hmem
      omega
  calc kept 0 (items.eraseIdx p) ps
      = kept 0 (items.take p) ps++kept p (items.drop (p+1)) ps := by
        rw [List.eraseIdx_eq_take_drop_succ,kept_append,hlen,Nat.zero_add]
    _ = kept 0 (items.take p) (p::ps)++kept (p+1) (items.drop (p+1)) (p::ps) := by
        rw [hfront,hback (p::ps) (by
          intro q hq
          rcases List.mem_cons.mp hq with rfl | hq
          · exact le_refl _
          · exact (hps q hq).le) (p+1) (by omega)]
        rw [kept_none p _ fun i hi _ hmem => by
          have := hps i hmem
          omega]
    _ = kept 0 items (p::ps) := by
        conv_rhs => rw [hsplit,kept_append,hlen,Nat.zero_add,kept,if_pos (by simp)]

theorem foldl_eraseIdx (ps : List Nat) (hps : ps.Pairwise (· > ·)) (items : List α)
    (hlt : ∀ p ∈ ps,p < items.length) :
    ps.foldl (fun l i => if i<l.length then l.eraseIdx i else l) items=kept 0 items ps := by
  induction ps generalizing items with
  | nil => exact (kept_none 0 items fun i _ _ => by simp).symm
  | cons p ps ih =>
    obtain ⟨hp,hps⟩ := List.pairwise_cons.mp hps
    have hlast : p < items.length := hlt p (by simp)
    have hrest := ih hps (items.eraseIdx p) fun q hq => by
      have := hp q hq
      rw [List.length_eraseIdx_of_lt hlast]
      omega
    rw [List.foldl_cons,if_pos hlast,hrest,kept_eraseIdx hp items hlast]

theorem splice_nil (items : List α) (s e : Nat) (hse : s ≤ e) (he : e ≤ items.length) :
    splice items s e []=kept 0 items (List.range' s (e-s)) := by
  have hsplit : items=items.take s++((items.drop s).take (e-s)++items.drop e) := by
    have hdrop : items.drop e=(items.drop s).drop (e-s) := by
      rw [List.drop_drop]
      congr 1
      omega
    rw [hdrop,List.take_append_drop,List.take_append_drop]
  have hlen : (items.take s).length=s := by rw [List.length_take]; omega
  have hmid : ((items.drop s).take (e-s)).length=e-s := by
    rw [List.length_take,List.length_drop]
    omega
  conv_rhs => rw [hsplit,kept_append,kept_append,hlen,hmid]
  rw [kept_none 0 (items.take s),kept_all,kept_none _ (items.drop e)]
  · unfold splice
    simp
  · intro i hi _
    rw [List.mem_range'_1]
    omega
  · intro i hi hlt
    rw [List.mem_range'_1]
    omega
  · intro i _ hlt
    rw [List.mem_range'_1]
    omega

theorem length_kept_descending (ps : List Nat) (hps : ps.Pairwise (· > ·)) (items : List α)
    (hlt : ∀ p ∈ ps,p < items.length) : (kept 0 items ps).length+ps.length=items.length := by
  induction ps generalizing items with
  | nil => rw [kept_none 0 items fun i _ _ => by simp,List.length_nil,Nat.add_zero]
  | cons p ps ih =>
    obtain ⟨hp,hps⟩ := List.pairwise_cons.mp hps
    have hlast : p < items.length := hlt p (by simp)
    have hlen := List.length_eraseIdx_of_lt hlast
    have hrest := ih hps (items.eraseIdx p) fun q hq => by
      have := hp q hq
      omega
    rw [← kept_eraseIdx hp items hlast,List.length_cons]
    omega

/-- The order in which `del` removes positions. -/
def descending (ps : List Nat) : List Nat := (ps.mergeSort fun a b => decide (b ≤ a)).dedup

theorem descending_perm {ps : List Nat} (hnd : ps.Nodup) : (descending ps).Perm ps := by
  have hperm := List.mergeSort_perm ps fun a b => decide (b ≤ a)
  unfold descending
  rw [(hperm.nodup_iff.mpr hnd).dedup]
  exact hperm

theorem pairwise_descending (ps : List Nat) : (descending ps).Pairwise (· > ·) := by
  have hsorted : (ps.mergeSort fun a b => decide (b ≤ a)).Pairwise fun a b => decide (b ≤ a) :=
    List.pairwise_mergeSort (fun a b c hab hbc => by simp only [decide_eq_true_eq] at *; omega)
      (fun a b => by simp only [Bool.or_eq_true,decide_eq_true_eq]; omega) ps
  have hle := hsorted.sublist (List.dedup_sublist _)
  refine (hle.and (List.nodup_dedup _)).imp fun {a b} h => ?_
  have := of_decide_eq_true h.1
  have := h.2
  omega

theorem kept_descending {ps : List Nat} (hnd : ps.Nodup) (items : List α) :
    kept 0 items (descending ps)=kept 0 items ps :=
  kept_congr 0 items fun i _ _ => (descending_perm hnd).mem_iff

theorem length_kept {ps : List Nat} (hnd : ps.Nodup) (items : List α)
    (hlt : ∀ p ∈ ps,p < items.length) : (kept 0 items ps).length+ps.length=items.length := by
  have hperm := descending_perm hnd
  rw [← kept_descending hnd,← hperm.length_eq]
  exact length_kept_descending _ (pairwise_descending ps) items fun p hp =>
    hlt p (hperm.mem_iff.mp hp)

end Keeping

section Deleting

variable {α : Type} {lower upper step : Option Bound}

/-- What `del` takes a bound for: a big integer counts as absent, and with a step of 1 so does a
`bool`. -/
def seen (step : Int) : Option Bound → Option Int
  | some (.int n) => if InI64 n then some n else none
  | some (.bool b) => if step=1 then none else some (if b then 1 else 0)
  | _ => none

/-- What a strided `del` takes a bound for: a big integer counts as absent. -/
def strided : Option Bound → Option Int
  | some (.int n) => if InI64 n then some n else none
  | some (.bool b) => some (if b then 1 else 0)
  | _ => none

variable {s : Int}

theorem seen_of_ne_one (h1 : s≠1) (b : Option Bound) : seen s b=strided b := by
  match b with
  | none => rfl
  | some .none => rfl
  | some (.bool b) => exact if_neg h1
  | some (.int n) => rfl

theorem resolveStrided_eq (b : Option Bound) (d : Int) :
    resolveStrided b d=(strided b).getD d := by
  match b with
  | none => rfl
  | some .none => rfl
  | some (.bool b) => rfl
  | some (.int n) =>
    unfold strided resolveStrided
    dsimp only
    split_ifs <;> rfl

theorem stridedIndices_eq (h0 : s≠0) (hi : InI64 s) (len : Nat) (hlen : (len : Int) ≤ i64Max) :
    stridedIndices lower upper s len=
      if (s<0 → (len : Int)+1 ≤ i64Max) ∧
          ∀ p ∈ positions len (strided lower) (strided upper) s,(p : Int)+s ≤ i64Max
      then .ok (descending (positions len (strided lower) (strided upper) s))
      else .error .panic := by
  unfold stridedIndices
  simp only [resolveStrided_eq]
  rcases lt_or_gt_of_ne h0 with hs | hs
  · rw [if_neg (show ¬0<s by omega)]
    by_cases hpast : (len : Int)+1 ≤ i64Max
    · rw [checkedAdd_ok ⟨by unfold i64Min; omega,hpast⟩,
        if_pos ⟨fun _ => hpast,forall_positions_down hs hlen _ _⟩]
      simp only [bind,Except.bind]
      rw [clampIndexNeg_start hs,clampIndexNeg_stop hs,walkDown_positions hs hi.1 hlen]
      rfl
    · rw [checkedAdd_panic fun hin => hpast hin.2,if_neg fun h => hpast (h.1 hs)]
      rfl
  · rw [if_pos hs,clampIndex_start hs,clampIndex_stop hs,walkUp_positions hs]
    by_cases hsum : ∀ p ∈ positions len (strided lower) (strided upper) s,(p : Int)+s ≤ i64Max
    · rw [if_pos hsum,if_pos ⟨fun hneg => by omega,hsum⟩]
      rfl
    · rw [if_neg hsum,if_neg fun h => hsum h.2]
      rfl

theorem clampDeleted_start (len : Nat) (b : Option Bound) :
    clampDeleted len b 0=(startIndex len (seen 1 b) 1).toNat := by
  match b with
  | none => rfl
  | some .none => rfl
  | some (.bool b) => rfl
  | some (.int n) =>
    unfold clampDeleted seen
    dsimp only
    by_cases hn : InI64 n
    · rw [if_pos hn,if_pos hn]
      simp only [startIndex,Option.elim,adjust]
      split_ifs <;> omega
    · rw [if_neg hn,if_neg hn]
      rfl

theorem clampDeleted_stop (len : Nat) (b : Option Bound) :
    clampDeleted len b len=(stopIndex len (seen 1 b) 1).toNat := by
  match b with
  | none => rfl
  | some .none => rfl
  | some (.bool b) => rfl
  | some (.int n) =>
    unfold clampDeleted seen
    dsimp only
    by_cases hn : InI64 n
    · rw [if_pos hn,if_pos hn]
      simp only [stopIndex,Option.elim,adjust]
      split_ifs <;> omega
    · rw [if_neg hn,if_neg hn]
      rfl

/-- A strided `del` removes the positions of its bounds, unless an addition overflows. -/
theorem stridedDeleted_eq (lower upper : Option Bound) (h0 : s≠0) (hi : InI64 s) (items : List α)
    (hlen : (items.length : Int) ≤ i64Max) :
    (stridedIndices lower upper s items.length >>= fun us => .ok (removeAll items us))=
      if NoOverflow items.length (strided lower) (strided upper) s
      then .ok (kept 0 items (positions items.length (strided lower) (strided upper) s))
      else .error .panic := by
  rw [stridedIndices_eq h0 hi items.length hlen]
  have hnd : (positions items.length (strided lower) (strided upper) s).Nodup :=
    nodup_positions h0
  by_cases hno : NoOverflow items.length (strided lower) (strided upper) s
  · rw [if_pos hno,if_pos hno.2]
    simp only [bind,Except.bind]
    unfold removeAll
    rw [foldl_eraseIdx _ (pairwise_descending _) items fun p hp =>
      lt_of_mem_positions h0 ((descending_perm hnd).mem_iff.mp hp),kept_descending hnd]
  · rw [if_neg hno,if_neg fun h => hno ⟨hlen,h⟩]
    rfl

/-- `del` removes the positions of the bounds it sees, unless an addition overflows. -/
theorem deleted_eq (h0 : stepValue step≠0) (hi : InI64 (stepValue step)) (items : List α)
    (hlen : (items.length : Int) ≤ i64Max) :
    deleted items lower upper step=
      if NoOverflow items.length (seen (stepValue step) lower) (seen (stepValue step) upper)
          (stepValue step)
      then .ok (kept 0 items (positions items.length (seen (stepValue step) lower)
        (seen (stepValue step) upper) (stepValue step)))
      else .error .panic := by
  unfold deleted
  rw [resolveStep_ok h0 hi,lengthI64_ok hlen]
  simp only [bind,Except.bind]
  by_cases h1 : stepValue step=1
  · rw [if_pos h1,h1,clampDeleted_start,clampDeleted_stop]
    have hno : NoOverflow items.length (seen 1 lower) (seen 1 upper) 1 :=
      ⟨hlen,fun hneg => absurd hneg (by omega),forall_positions_one hlen _ _⟩
    have hspan := span_bounds items.length (seen 1 lower) (seen 1 upper)
    have hstop := stopIndex_up items.length (seen 1 upper) Int.one_pos
    rw [if_pos hno,positions_one,← splice_nil items _ _ hspan.1 hspan.2]
    congr 1
    unfold span at hspan ⊢
    dsimp only at hspan ⊢
    by_cases hlt : (startIndex items.length (seen 1 lower) 1).toNat<
        (stopIndex items.length (seen 1 upper) 1).toNat
    · rw [if_pos ⟨hlt,by omega⟩]
      congr 1
      omega
    · rw [if_neg fun h => hlt h.1]
      have hempty : (max (stopIndex items.length (seen 1 upper) 1)
          (startIndex items.length (seen 1 lower) 1)).toNat=
          (startIndex items.length (seen 1 lower) 1).toNat := by omega
      unfold splice
      rw [hempty,List.append_nil,List.take_append_drop]
  · rw [if_neg h1,seen_of_ne_one h1,seen_of_ne_one h1]
    exact stridedDeleted_eq lower upper h0 hi items hlen

theorem positions_congr {len : Nat} {start start' stop stop' : Option Int}
    (hstart : startIndex len start s=startIndex len start' s)
    (hstop : stopIndex len stop s=stopIndex len stop' s) :
    positions len start stop s=positions len start' stop' s := by
  unfold positions
  rw [hstart,hstop]

theorem positions_nil {len : Nat} {start stop : Option Int} (h0 : s≠0)
    (h : if 0<s then stopIndex len stop s ≤ startIndex len start s
      else startIndex len start s ≤ stopIndex len stop s) : positions len start stop s=[] := by
  unfold positions
  split_ifs at h with hs
  · rw [terms_up_nil hs h]
    rfl
  · rw [terms_down_nil (by omega) h]
    rfl

/-- A big integer stands for an absent start or leaves nothing. -/
theorem start_big {len : Nat} {n s : Int} (h0 : s≠0) (hlen : (len : Int) ≤ i64Max)
    (hn : ¬InI64 n) :
    startIndex len (some n) s=startIndex len none s ∨
      ∀ stop,positions len (some n) stop s=[] := by
  have hout : n < i64Min ∨ i64Max<n := by
    unfold InI64 at hn
    omega
  unfold i64Min i64Max at hout
  unfold i64Max at hlen
  rcases lt_or_gt_of_ne h0 with hs | hs
  · rcases hout with hout | hout
    · refine .inr fun stop => positions_nil h0 ?_
      have hstop := stopIndex_down len stop hs
      rw [if_neg (by omega)]
      simp only [startIndex,Option.elim,adjust,if_neg (show ¬0<s by omega)]
      split_ifs <;> omega
    · left
      simp only [startIndex,Option.elim,adjust,if_neg (show ¬0<s by omega)]
      split_ifs <;> omega
  · rcases hout with hout | hout
    · left
      simp only [startIndex,Option.elim,adjust,if_pos hs]
      split_ifs <;> omega
    · refine .inr fun stop => positions_nil h0 ?_
      have hstop := stopIndex_up len stop hs
      rw [if_pos hs]
      simp only [startIndex,Option.elim,adjust,if_pos hs]
      split_ifs <;> omega

theorem stop_big {len : Nat} {n s : Int} (h0 : s≠0) (hlen : (len : Int) ≤ i64Max)
    (hn : ¬InI64 n) :
    stopIndex len (some n) s=stopIndex len none s ∨
      ∀ start,positions len start (some n) s=[] := by
  have hout : n < i64Min ∨ i64Max<n := by
    unfold InI64 at hn
    omega
  unfold i64Min i64Max at hout
  unfold i64Max at hlen
  rcases lt_or_gt_of_ne h0 with hs | hs
  · rcases hout with hout | hout
    · left
      simp only [stopIndex,Option.elim,adjust,if_neg (show ¬0<s by omega)]
      split_ifs <;> omega
    · refine .inr fun start => positions_nil h0 ?_
      have hstart := startIndex_down len start hs
      rw [if_neg (by omega)]
      simp only [stopIndex,Option.elim,adjust,if_neg (show ¬0<s by omega)]
      split_ifs <;> omega
  · rcases hout with hout | hout
    · refine .inr fun start => positions_nil h0 ?_
      have hstart := startIndex_up len start hs
      rw [if_pos hs]
      simp only [stopIndex,Option.elim,adjust,if_pos hs]
      split_ifs <;> omega
    · left
      simp only [stopIndex,Option.elim,adjust,if_pos hs]
      split_ifs <;> omega

theorem strided_cases (b : Option Bound) :
    strided b=boundValue b ∨ strided b=none ∧ ∃ n,boundValue b=some n ∧ ¬InI64 n := by
  match b with
  | none => exact .inl rfl
  | some .none => exact .inl rfl
  | some (.bool b) => exact .inl rfl
  | some (.int n) =>
    by_cases hn : InI64 n
    · exact .inl (if_pos hn)
    · exact .inr ⟨if_neg hn,n,rfl,hn⟩

theorem start_strided {len : Nat} (h0 : s≠0) (hlen : (len : Int) ≤ i64Max) (b : Option Bound) :
    startIndex len (boundValue b) s=startIndex len (strided b) s ∨
      ∀ stop,positions len (boundValue b) stop s=[] := by
  rcases strided_cases b with heq | ⟨hnone,n,hval,hn⟩
  · exact .inl (by rw [heq])
  · rw [hnone,hval]
    exact start_big h0 hlen hn

theorem stop_strided {len : Nat} (h0 : s≠0) (hlen : (len : Int) ≤ i64Max) (b : Option Bound) :
    stopIndex len (boundValue b) s=stopIndex len (strided b) s ∨
      ∀ start,positions len start (boundValue b) s=[] := by
  rcases strided_cases b with heq | ⟨hnone,n,hval,hn⟩
  · exact .inl (by rw [heq])
  · rw [hnone,hval]
    exact stop_big h0 hlen hn

/-- Ignoring a big bound never makes up for another one. -/
theorem positions_strided_of_length {len : Nat} (h0 : s≠0) (hlen : (len : Int) ≤ i64Max)
    (h : (positions len (boundValue lower) (boundValue upper) s).length=
      (positions len (strided lower) (strided upper) s).length) :
    positions len (boundValue lower) (boundValue upper) s=
      positions len (strided lower) (strided upper) s := by
  have hnil : positions len (boundValue lower) (boundValue upper) s=[] →
      positions len (boundValue lower) (boundValue upper) s=
        positions len (strided lower) (strided upper) s := by
    intro hempty
    rw [hempty,List.length_nil] at h
    rw [hempty,List.eq_nil_of_length_eq_zero h.symm]
  rcases start_strided h0 hlen lower with hstart | hempty
  · rcases stop_strided h0 hlen upper with hstop | hempty
    · exact positions_congr hstart hstop
    · exact hnil (hempty _)
  · exact hnil (hempty _)

theorem start_seen_one (len : Nat) (b : Option Bound) :
    startIndex len (seen 1 b) 1 ≤ startIndex len (boundValue b) 1 := by
  have hstart := startIndex_up len (boundValue b) Int.one_pos
  match b with
  | none => exact le_refl _
  | some .none => exact le_refl _
  | some (.bool b) => exact hstart.1
  | some (.int n) =>
    by_cases hn : InI64 n
    · rw [show seen 1 (some (.int n))=some n from if_pos hn]
      exact le_refl _
    · rw [show seen 1 (some (.int n))=none from if_neg hn]
      exact hstart.1

theorem stop_seen_one (len : Nat) (b : Option Bound) :
    stopIndex len (boundValue b) 1 ≤ stopIndex len (seen 1 b) 1 := by
  have hstop := stopIndex_up len (boundValue b) Int.one_pos
  match b with
  | none => exact le_refl _
  | some .none => exact le_refl _
  | some (.bool b) => exact hstop.2
  | some (.int n) =>
    by_cases hn : InI64 n
    · rw [show seen 1 (some (.int n))=some n from if_pos hn]
      exact le_refl _
    · rw [show seen 1 (some (.int n))=none from if_neg hn]
      exact hstop.2

/-- Ignoring a bound never makes up for another one: the positions are the same once there are as
many. -/
theorem positions_eq_of_length {len : Nat} (h0 : s≠0) (hlen : (len : Int) ≤ i64Max)
    (h : (positions len (boundValue lower) (boundValue upper) s).length=
      (positions len (seen s lower) (seen s upper) s).length) :
    positions len (boundValue lower) (boundValue upper) s=
      positions len (seen s lower) (seen s upper) s := by
  by_cases h1 : s=1
  · subst h1
    have hstart := start_seen_one len lower
    have hstop := stop_seen_one len upper
    have hlow := startIndex_up len (seen 1 lower) Int.one_pos
    rw [positions_one,positions_one] at h ⊢
    rw [List.length_range',List.length_range'] at h
    rw [h]
    by_cases hnil : (span len (seen 1 lower) (seen 1 upper)).2-
        (span len (seen 1 lower) (seen 1 upper)).1=0
    · rw [hnil]
      rfl
    · congr 1
      unfold span at *
      dsimp only at *
      omega
  · rw [seen_of_ne_one h1,seen_of_ne_one h1] at h ⊢
    exact positions_strided_of_length h0 hlen h

/-- What deleting needs of the bounds: those that it ignores are not missed. -/
def Removes (len : Nat) (start stop start' stop' : Option Int) (s : Int) : Prop :=
  NoOverflow len start' stop' s ∧ positions len start stop s=positions len start' stop' s

instance (len : Nat) (start stop start' stop' : Option Int) (s : Int) :
    Decidable (Removes len start stop start' stop' s) := inferInstanceAs (Decidable (_ ∧ _))

/-- A `del` of what it sees is one of all positions when it sees as many. -/
theorem removed_iff {start stop start' stop' : Option Int} (h0 : s≠0) (items : List α)
    (heq : (positions items.length start stop s).length=
        (positions items.length start' stop' s).length →
      positions items.length start stop s=positions items.length start' stop' s) :
    commit items (if NoOverflow items.length start' stop' s
        then .ok (kept 0 items (positions items.length start' stop' s)) else .error .panic)=
          (.ok (),kept 0 items (positions items.length start stop s)) ↔
      Removes items.length start stop start' stop' s := by
  by_cases hno : NoOverflow items.length start' stop' s
  · rw [if_pos hno]
    constructor
    · intro hout
      have hkept := congrArg (fun out => out.2.length) hout
      have hgone (start stop : Option Int) :=
        length_kept (nodup_positions h0) items fun p (hp : p ∈ positions items.length start stop s)
          => lt_of_mem_positions h0 hp
      have hseen := hgone start' stop'
      have htrue := hgone start stop
      dsimp only [commit] at hkept
      exact ⟨hno,heq (by omega)⟩
    · rintro ⟨-,heq⟩
      rw [heq]
      rfl
  · rw [if_neg hno]
    exact ⟨fun hout => (nomatch congrArg Prod.fst hout),fun h => absurd h.1 hno⟩

theorem deleteSlice_iff (h0 : stepValue step≠0) (hi : InI64 (stepValue step)) (bareName : Bool)
    (items : List α) :
    deleteSlice bareName items lower upper step=
        (.ok (),kept 0 items (positions items.length (boundValue lower) (boundValue upper)
          (stepValue step))) ↔
      bareName=true ∧ Removes items.length (boundValue lower) (boundValue upper)
        (seen (stepValue step) lower) (seen (stepValue step) upper) (stepValue step) := by
  unfold deleteSlice
  cases bareName with
  | false =>
    constructor
    · intro hout
      cases congrArg Prod.fst hout
    · intro h
      cases h.1
  | true =>
    rw [if_pos rfl,and_iff_right rfl]
    by_cases hlen : (items.length : Int) ≤ i64Max
    · rw [deleted_eq h0 hi items hlen]
      exact removed_iff h0 items (positions_eq_of_length h0 hlen)
    · have herr : deleted items lower upper step=
          .error (.runtime "list length overflows i64 for slicing") := by
        unfold deleted
        rw [resolveStep_ok h0 hi,lengthI64_error hlen]
        rfl
      rw [herr]
      refine ⟨fun hout => ?_,fun h => absurd h.1.1 hlen⟩
      cases congrArg Prod.fst hout

theorem strided_getD (b : Option Bound) : strided (some (b.getD .none))=strided b := by
  cases b <;> rfl

theorem listDelItem_iff (h0 : stepValue step≠0) (hi : InI64 (stepValue step)) (path : List Nat)
    (target : Nat) (items : List α) (hlen : (items.length : Int) ≤ i64Max) :
    listDelItem path target items (.of lower upper step)=
        (.ok (),kept 0 items (positions items.length (boundValue lower) (boundValue upper)
          (stepValue step))) ↔
      Apart path target ∧ Removes items.length (boundValue lower) (boundValue upper)
        (strided lower) (strided upper) (stepValue step) := by
  have hstep : stepValue (some (step.getD .none))=stepValue step := by cases step <;> rfl
  have hresolve : resolveStep (some (step.getD .none))=.ok (stepValue step) := by
    rw [← hstep] at h0 hi ⊢
    exact resolveStep_ok h0 hi
  unfold listDelItem SliceValue.of
  by_cases hpath : path.Nodup
  · rw [navigate_ok hpath]
    simp only [bind,Except.bind,hresolve]
    by_cases htarget : target ∈ path
    · rw [acquire_target_deadlock htarget]
      exact ⟨fun hout => (nomatch congrArg Prod.fst hout),fun h => absurd htarget h.1.2⟩
    · rw [acquire_target htarget,min_eq_left hlen]
      have hapart : Apart path target := ⟨hpath,htarget⟩
      have hdeleted := stridedDeleted_eq (some (lower.getD .none)) (some (upper.getD .none)) h0 hi
        items hlen
      rw [strided_getD,strided_getD] at hdeleted
      rw [and_iff_right hapart]
      refine Iff.trans ?_ (removed_iff h0 items (positions_strided_of_length h0 hlen))
      rw [← hdeleted]
      exact Iff.rfl
  · rw [navigate_deadlock hpath]
    exact ⟨fun hout => (nomatch congrArg Prod.fst hout),fun h => absurd h.1.1 hpath⟩

end Deleting

section Slices

variable {α : Type}

/-- A list of three elements. -/
def three : Operand Nat := ⟨some 3,.ok [10,20,30],by decide⟩

end Slices

end InterpretThis.Sequence
