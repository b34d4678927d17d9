import Mathlib.Data.Nat.Bitwise
import Mathlib.Tactic.Ring
import Mathlib.Tactic.Linarith

namespace InterpretThis.Probe

/-- The unmasked step of the linear congruential generator `x ↦ 5x+1`. -/
def lcg (x : Nat) : Nat := 5*x+1

theorem lcg_iter (n x : Nat) : 4*lcg^[n] x+1=5^n*(4*x+1) := by
  induction n with
  | zero => simp
  | succ n ih =>
    rw [Function.iterate_succ_apply',pow_succ]
    change 4*(5*lcg^[n] x+1)+1=_
    linarith

theorem five_pow_two_pow (k : Nat) : ∃u,5^2^k=1+2^(k+2)*(2*u+1) := by
  induction k with
  | zero => exact ⟨0,by norm_num⟩
  | succ k ih =>
    obtain ⟨u,hu⟩ := ih
    refine ⟨u+2^k*(2*u+1)^2,?_⟩
    rw [pow_succ 2 k,pow_mul,hu]
    ring

theorem lcg_jump (k x : Nat) : ∃u,lcg^[2^k] x=x+2^k*(2*u+1) := by
  obtain ⟨u,hu⟩ := five_pow_two_pow k
  have h := lcg_iter (2^k) x
  rw [hu] at h
  refine ⟨u+2*x*(2*u+1),?_⟩
  have e : 2^(k+2)=4*2^k := by rw [pow_add]; ring
  rw [e] at h
  nlinarith

private theorem toggle (m r y : Nat) (hr : r<2*m) (hy : y<2*m)
    (same : r%m=y%m) (ne : r≠y) : (r+m)%(2*m)=y := by
  have hm : 0 < m := by omega
  have dr := Nat.div_add_mod r m
  have dy := Nat.div_add_mod y m
  have qr : r/m<2 := (Nat.div_lt_iff_lt_mul hm).mpr hr
  have qy : y/m<2 := (Nat.div_lt_iff_lt_mul hm).mpr hy
  have cr := Nat.le_one_iff_eq_zero_or_eq_one.mp (Nat.lt_succ_iff.mp qr)
  have cy := Nat.le_one_iff_eq_zero_or_eq_one.mp (Nat.lt_succ_iff.mp qy)
  rcases cr with cr|cr <;> rcases cy with cy|cy <;> rw [cr] at dr <;> rw [cy] at dy
  · omega
  · rw [Nat.mod_eq_of_lt (by omega)]; omega
  · rw [show r+m=y+2*m by omega,Nat.add_mod_right,Nat.mod_eq_of_lt hy]
  · omega

theorem lcg_covers (k x y : Nat) (hy : y<2^k) : ∃n,n<2^k ∧ lcg^[n] x%2^k=y := by
  induction k generalizing y with
  | zero => exact ⟨0,by simp,by omega⟩
  | succ k ih =>
    obtain ⟨n,hn,hv⟩ := ih (y%2^k) (Nat.mod_lt _ (by positivity))
    have hp : 2^(k+1)=2*2^k := by rw [pow_succ]; ring
    have hz := Nat.mod_lt (lcg^[n] x) (show 0<2^(k+1) by positivity)
    by_cases same : lcg^[n] x%2^(k+1)=y
    · exact ⟨n,by omega,same⟩
    · obtain ⟨u,hu⟩ := lcg_jump k (lcg^[n] x)
      have low : lcg^[n] x%2^(k+1)%2^k=y%2^k := by
        rw [Nat.mod_mod_of_dvd _ ⟨2,by rw [hp]; ring⟩,hv]
      have move : lcg^[n] x+2^k*(2*u+1)=lcg^[n] x+2^k+2^(k+1)*u := by rw [hp]; ring
      refine ⟨2^k+n,by omega,?_⟩
      rw [Function.iterate_add_apply,hu,move,Nat.add_mul_mod_self_left,← Nat.mod_add_mod]
      rw [hp] at same low hy hz ⊢
      exact toggle _ _ _ hz hy low same

def window (run mask i : Nat) : List Nat :=
  if i+run ≤ mask then List.range' i (run+1) else [i]

/-- The slots met by `fuel` outer passes from position `i` with perturbation `p`.
The perturbation is shifted first and then added to the generator's next value. -/
def path (run shift mask : Nat) : Nat → Nat → Nat → List Nat
  | 0,_,_ => []
  | n+1,i,p => window run mask i++
      path run shift mask n ((i*5+1+(p>>>shift))&&&mask) (p>>>shift)

theorem window_head (run mask i : Nat) : ∃w,window run mask i=i::w := by
  unfold window
  split_ifs
  · exact ⟨List.range' (i+1) run,by rw [List.range'_succ]⟩
  · exact ⟨[],rfl⟩

theorem window_bound (run mask i e : Nat) (hi : i ≤ mask) (he : e∈window run mask i) :
    e ≤ mask := by
  unfold window at he
  split_ifs at he with h
  · rw [List.mem_range'_1] at he; omega
  · rw [List.mem_singleton] at he; omega

theorem path_bound (run shift mask n i p e : Nat) (hi : i ≤ mask)
    (he : e∈path run shift mask n i p) : e ≤ mask := by
  induction n generalizing i p with
  | zero => simp [path] at he
  | succ n ih =>
    rw [path,List.mem_append] at he
    rcases he with he|he
    · exact window_bound run mask i e hi he
    · exact ih _ _ Nat.and_le_right he

theorem land_mask (k mask x : Nat) (hk : mask+1=2^k) : x&&&mask=x%2^k := by
  rw [← Nat.and_two_pow_sub_one_eq_mod,← hk]
  rfl

/-- Once the perturbation has drained, pass `j` starts at the `j`-th iterate. -/
theorem path_zero_mem (run shift mask k n i j : Nat) (hk : mask+1=2^k) (hj : j<n)
    (hi : i<2^k) : lcg^[j] i%2^k∈path run shift mask n i 0 := by
  induction n generalizing i j with
  | zero => omega
  | succ n ih =>
    rw [path,List.mem_append]
    cases j with
    | zero =>
      obtain ⟨w,hw⟩ := window_head run mask i
      left
      rw [hw,Function.iterate_zero_apply,Nat.mod_eq_of_lt hi]
      exact List.mem_cons_self
    | succ j =>
      right
      rw [Nat.zero_shiftRight,Nat.add_zero,land_mask k mask _ hk]
      have next : lcg^[j+1] i%2^k=lcg^[j] ((i*5+1)%2^k)%2^k := by
        have shifted : ∀m x,lcg^[m] (x%2^k)%2^k=lcg^[m] x%2^k := by
          intro m x
          induction m with
          | zero => simp
          | succ m im =>
            rw [Function.iterate_succ_apply',Function.iterate_succ_apply']
            change (5*_+1)%_=(5*_+1)%_
            rw [Nat.add_mod,Nat.mul_mod,im,← Nat.mul_mod,← Nat.add_mod]
        rw [shifted,Function.iterate_succ_apply,Nat.mul_comm i 5]
        rfl
      rw [next]
      exact ih _ _ (by omega) (Nat.mod_lt _ (by positivity))

theorem path_covers (run shift mask k m n i p e : Nat) (hk : mask+1=2^k)
    (hp : p<2^(shift*m)) (hn : m+2^k≤n) (hi : i ≤ mask) (he : e ≤ mask) :
    e∈path run shift mask n i p := by
  induction m generalizing n i p with
  | zero =>
    have hp0 : p=0 := by simpa using hp
    obtain ⟨j,hj,hv⟩ := lcg_covers k i e (by omega)
    rw [hp0,← hv]
    exact path_zero_mem run shift mask k n i j hk (by omega) (by omega)
  | succ m ih =>
    cases n with
    | zero => omega
    | succ n =>
      rw [path,List.mem_append]
      right
      apply ih n _ _ _ (by omega) Nat.and_le_right
      rw [Nat.shiftRight_eq_div_pow]
      apply (Nat.div_lt_iff_lt_mul (by positivity)).mpr
      rwa [← pow_add,← Nat.mul_succ]

def reach (occ : Nat → Bool) (p : List Nat) : List Nat := p.takeWhile occ

theorem reach_occ (occ : Nat → Bool) (p : List Nat) (e : Nat) (he : e∈reach occ p) :
    occ e=true := by
  induction p with
  | nil => simp [reach] at he
  | cons a p ih =>
    unfold reach at he ih
    by_cases h : occ a=true
    · rw [List.takeWhile_cons_of_pos h,List.mem_cons] at he
      rcases he with rfl|he
      · exact h
      · exact ih he
    · rw [List.takeWhile_cons_of_neg h] at he
      simp at he

theorem reach_mono (occ occ' : Nat → Bool) (h : ∀e,occ e=true → occ' e=true)
    (p : List Nat) (e : Nat) (he : e∈reach occ p) : e∈reach occ' p := by
  induction p with
  | nil => simp [reach] at he
  | cons a p ih =>
    unfold reach at he ih ⊢
    by_cases ha : occ a=true
    · rw [List.takeWhile_cons_of_pos ha,List.mem_cons] at he
      rw [List.takeWhile_cons_of_pos (h a ha),List.mem_cons]
      exact he.imp_right ih
    · rw [List.takeWhile_cons_of_neg ha] at he
      simp at he

theorem reach_stop (occ : Nat → Bool) (p : List Nat) (hf : ∃e∈p,occ e=false) :
    ∃e rest,p=reach occ p++e::rest ∧ occ e=false := by
  induction p with
  | nil => simp at hf
  | cons a p ih =>
    unfold reach at ih ⊢
    cases ha : occ a with
    | false => exact ⟨a,p,by rw [List.takeWhile_cons_of_neg (by simp [ha])]; rfl,ha⟩
    | true =>
      obtain ⟨e,hm,he⟩ := hf
      rw [List.mem_cons] at hm
      rcases hm with rfl|hm
      · rw [ha] at he; cases he
      · obtain ⟨d,rest,hs,hd⟩ := ih ⟨e,hm,he⟩
        refine ⟨d,rest,?_,hd⟩
        rw [List.takeWhile_cons_of_pos ha,List.cons_append,← hs]

theorem reach_fill (occ occ' : Nat → Bool) (h : ∀e,occ e=true → occ' e=true)
    (p rest : List Nat) (e : Nat) (hs : p=reach occ p++e::rest) (he : occ' e=true) :
    e∈reach occ' p := by
  have all : ∀q : List Nat,(∀x∈q,occ' x=true) → e∈reach occ' (q++e::rest) := by
    intro q hq
    induction q with
    | nil => simp [reach,he]
    | cons a q ih =>
      unfold reach at ih ⊢
      rw [List.cons_append,List.takeWhile_cons_of_pos (hq a (by simp)),List.mem_cons]
      exact .inr (ih (fun x hx => hq x (by simp [hx])))
  rw [hs]
  exact all _ (fun x hx => h x (reach_occ occ p x hx))

/-- One entry at a time: a pass started at `i`, the loop is at `entry`, and `left` more entries
of the pass follow. -/
structure Cursor where
  i : Nat
  perturb : Nat
  entry : Nat
  left : Nat

namespace Cursor

variable (run shift mask : Nat)

def home (i perturb : Nat) : Cursor := ⟨i,perturb,i,if i+run ≤ mask then run else 0⟩

def next (c : Cursor) : Cursor :=
  if c.left=0 then home run mask ((c.i*5+1+(c.perturb>>>shift))&&&mask) (c.perturb>>>shift)
  else {c with entry := c.entry+1,left := c.left-1}

end Cursor

/-- A probe loop without a bound: it looks at the entry under the cursor, and stops with a result
or goes to the next entry with what it remembers. -/
inductive Ends {σ ρ : Type} (run shift mask : Nat) (visit : σ → Nat → σ⊕ρ) :
    Cursor → σ → ρ → Prop
  | stop {c : Cursor} {s : σ} {r : ρ} (h : visit s c.entry=.inr r) : Ends run shift mask visit c s r
  | next {c : Cursor} {s s' : σ} {r : ρ} (h : visit s c.entry=.inl s')
      (t : Ends run shift mask visit (c.next run shift mask) s' r) : Ends run shift mask visit c s r

/-- The same loop along a list of entries. -/
def scan {σ ρ : Type} (visit : σ → Nat → σ⊕ρ) : List Nat → σ → Option ρ
  | [],_ => none
  | e::p,s =>
    match visit s e with
    | .inl s' => scan visit p s'
    | .inr r => some r

section Scanning

variable {σ ρ : Type} {visit : σ → Nat → σ⊕ρ}

theorem scan_run_ends (run shift mask i p q e : Nat) (s : σ) (r : ρ) (rest : List Nat)
    (after : ∀ s,scan visit rest s=some r → Ends run shift mask visit
      (.home run mask ((i*5+1+(p>>>shift))&&&mask) (p>>>shift)) s r)
    (h : scan visit (List.range' e (q+1)++rest) s=some r) :
    Ends run shift mask visit ⟨i,p,e,q⟩ s r := by
  induction q generalizing e s with
  | zero =>
    have hs : scan visit (e::rest) s=some r := h
    rw [scan] at hs
    cases hv : visit s e with
    | inr x =>
      rw [hv] at hs
      have hx : x=r := by simpa using hs
      exact .stop (hv.trans (by rw [hx]))
    | inl s' =>
      rw [hv] at hs
      exact .next hv (after s' hs)
  | succ q ih =>
    rw [List.range'_succ,List.cons_append,scan] at h
    cases hv : visit s e with
    | inr x =>
      rw [hv] at h
      have hx : x=r := by simpa using h
      exact .stop (hv.trans (by rw [hx]))
    | inl s' =>
      rw [hv] at h
      exact .next hv (ih (e+1) s' h)

/-- A scan of the first passes that stops is a loop that stops. -/
theorem scan_path_ends (run shift mask n i p : Nat) (s : σ) (r : ρ)
    (h : scan visit (path run shift mask n i p) s=some r) :
    Ends run shift mask visit (.home run mask i p) s r := by
  induction n generalizing i p s with
  | zero => simp [path,scan] at h
  | succ n ih =>
    rw [path] at h
    unfold window at h
    unfold Cursor.home
    split_ifs at h ⊢
    · exact scan_run_ends run shift mask i p run i s r _ (fun s' hs => ih _ _ s' hs) h
    · exact scan_run_ends run shift mask i p 0 i s r _ (fun s' hs => ih _ _ s' hs) h

end Scanning

end InterpretThis.Probe
