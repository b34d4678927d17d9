import InterpretThis.Operators.Numeric
import InterpretThis.Value.ArithExact

namespace InterpretThis.Numeric

open Operators

section Outcomes

variable {C M L W : Type} (x : Host C M L W)

mutual

/-- The longest way down to a leaf, the expression itself counted. -/
def Expr.height : Expr L → Nat
  | .constant _ => 1
  | .name _ => 1
  | .binOp l _ r => max (Expr.height l) (Expr.height r)+1
  | .compare l _ cs => max (Expr.height l) (heights cs)+1
  | .other _ => 1

def heights : List (Expr L) → Nat
  | [] => 0
  | c::cs => max (Expr.height c) (heights cs)

end

mutual

/-- The leaves and the operators. -/
def Expr.size : Expr L → Nat
  | .constant _ => 1
  | .name _ => 1
  | .binOp l _ r => Expr.size l+Expr.size r+1
  | .compare l _ cs => Expr.size l+sizes cs
  | .other _ => 1

def sizes : List (Expr L) → Nat
  | [] => 0
  | c::cs => Expr.size c+1+sizes cs

end

theorem Expr.size_pos : ∀e : Expr L, 1≤e.size
  | .constant _ => Nat.le_refl 1
  | .name _ => Nat.le_refl 1
  | .binOp _ _ _ => Nat.le_add_left 1 _
  | .compare l _ _ => Nat.le_trans (size_pos l) (Nat.le_add_right _ _)
  | .other _ => Nat.le_refl 1

theorem operand_some {seen : List (Expr L)} {o : Option (NumericSync L)} {o' : NumericSync L}
    {k : Value → Nat → List (Expr L) → Option (NumericSync L)} (h : operand seen o k=some o') :
    (∃e n read, o=some ⟨.error e,n,read⟩ ∧ o'=⟨.error e,n,seen++read⟩) ∨
      ∃v n read, o=some ⟨.ok v,n,read⟩ ∧ k v n (seen++read)=some o' := by
  match o,h with
  | some ⟨.error e,n,read⟩,h => exact .inl ⟨e,n,read,rfl,(Option.some.inj h).symm⟩
  | some ⟨.ok v,n,read⟩,h => exact .inr ⟨v,n,read,rfl,h⟩

theorem leaf_some {e : Expr L} {v : Value} {o : NumericSync L} (h : leaf e v=some o) :
    isNumber v ∧ o=⟨.ok v,1,[e]⟩ := by
  unfold leaf at h
  split at h
  · rename_i hv
    refine ⟨?_,(Option.some.inj h).symm⟩
    cases v <;> first | exact hv | rfl
  · cases h

theorem guarded_some {d : Nat} {o : Option (NumericSync L)} {o' : NumericSync L}
    (h : x.guarded d o=some o') :
    (x.config.maxRecursionDepth≤d ∧ o'=⟨.error x.recursionError,1,[]⟩) ∨
      (d<x.config.maxRecursionDepth ∧ o=some o') := by
  unfold Host.guarded at h
  split at h
  · rename_i hd
    exact .inl ⟨hd,(Option.some.inj h).symm⟩
  · rename_i hd
    exact .inr ⟨Nat.lt_of_not_le hd,h⟩

end Outcomes

section Numbers

/-- Whatever comes out is a number. -/
def Numbers (r : Except EvalError Value) : Prop := ∀v, r=.ok v → isNumber v

theorem Numbers.error (e : EvalError) : Numbers (.error e) := by
  intro v h
  cases h

theorem Numbers.ok {v : Value} (hv : isNumber v) : Numbers (.ok v) := by
  intro w h
  cases h
  exact hv

theorem Numbers.bind {A : Type} {m : Except EvalError A} {f : A → Except EvalError Value}
    (h : ∀a, Numbers (f a)) : Numbers (m >>= f) := by
  cases m with
  | error e => exact Numbers.error e
  | ok a => exact h a

theorem Numbers.ite {c : Prop} [Decidable c] {r r' : Except EvalError Value} (h : Numbers r)
    (h' : Numbers r') : Numbers (if c then r else r') := by
  split
  · exact h
  · exact h'

theorem intFromBigint_number (n : Int) : isNumber (intFromBigint n) := by
  unfold intFromBigint
  split <;> rfl

theorem Numbers.limited (n : Int) (maxBits : Nat) : Numbers (intFromBigintLimited n maxBits) :=
  .ite (.error _) (.ok (intFromBigint_number n))

theorem Numbers.promoted (f : Int → Int → Int) (l r : Value) :
    Numbers (do
      let a ← toBigint l
      let b ← toBigint r
      return intFromBigint (f a b)) :=
  .bind fun _ => .bind fun _ => .ok (intFromBigint_number _)

theorem intOp_numbers (exact : Int → Int → Int) (l r : Value) : Numbers (intOp exact l r) := by
  unfold intOp
  dsimp only
  split
  · split
    · exact .ok rfl
    · exact .promoted exact _ _
  · exact .promoted exact _ _

theorem divideInts_numbers (fast : Int64 → Int64 → Int64) (floor : Int → Int → Int)
    (message : String) (l r : Value) : Numbers (divideInts fast floor message l r) := by
  have hpromoted : ∀l r, Numbers (do
      let a ← toBigint l
      let b ← toBigint r
      if b=0 then .error (zeroDivisionError message)
      else return intFromBigint (floor a b)) := fun _ _ =>
    .bind fun _ => .bind fun _ => .ite (.error _) (.ok (intFromBigint_number _))
  unfold divideInts
  dsimp only
  split
  · exact .ite (.error _) (.ite (.ok rfl) (hpromoted _ _))
  · exact hpromoted _ _

theorem powInts_numbers (powf : Int → Int → F64) (maxIntBits : Nat) (l r : Value) :
    Numbers (powInts powf maxIntBits l r) := by
  unfold powInts
  split
  · split
    · refine .ite (.ite (.error _) (.ok rfl)) (.ite (.ok rfl) ?_)
      split
      · exact .ite (.error _) (.ite (.error _) (.limited _ _))
      · exact .error _
    · exact .error _
  · exact .error _

theorem shift_numbers (op : String) (f : Int → Nat → Except EvalError Value)
    (hf : ∀a n, Numbers (f a n)) (l r : Value) :
    Numbers (do
      requireIntOperands op l r
      let a ← toBigint l
      let b ← toBigint r
      if b<0 then .error (.interpreter (.valueError "negative shift count"))
      else
        let some shift := toU32 b | .error (overflowError "shift count too large")
        f a shift) := by
  refine .bind fun _ => .bind fun a => .bind fun b => .ite (.error _) ?_
  split
  · exact hf a _
  · exact .error _

theorem bitInts_numbers (op : String) (onBool : Bool → Bool → Bool)
    (onWord : Int64 → Int64 → Int64) (onInt : Int → Int → Int) (l r : Value) :
    Numbers (bitInts op onBool onWord onInt l r) := by
  unfold bitInts
  split
  · exact .ok rfl
  · exact .ok rfl
  · exact .bind fun _ => .promoted onInt _ _

theorem applyBinop_numbers {powf : Int → Int → F64}
    {rest : Operator → Value → Value → Except EvalError Value} {maxIntBits : Nat} {op : Operator}
    {l r : Value} (h : Numbers (rest op l r)) :
    Numbers (InterpretThis.applyBinop powf rest maxIntBits op l r) := by
  unfold InterpretThis.applyBinop
  refine .ite ?_ h
  cases op with
  | add => exact intOp_numbers _ l r
  | sub => exact intOp_numbers _ l r
  | mult => exact intOp_numbers _ l r
  | floorDiv => exact divideInts_numbers _ _ _ l r
  | mod => exact divideInts_numbers _ _ _ l r
  | pow => exact powInts_numbers powf maxIntBits l r
  | lShift => exact shift_numbers "<<" _ (fun _ _ => .ite (.error _) (.limited _ _)) l r
  | rShift => exact shift_numbers ">>" _ (fun _ _ => .limited _ _) l r
  | bitOr => exact bitInts_numbers _ _ _ _ l r
  | bitXor => exact bitInts_numbers _ _ _ _ l r
  | bitAnd => exact bitInts_numbers _ _ _ _ l r
  | div => exact h
  | matMult => exact h

variable {C M L W : Type} (x : Host C M L W)

theorem applyBinop_number {op : Operator} {l r v : Value} {s : State W} (hl : isNumber l)
    (hr : isNumber r) (h : x.applyBinop op l r s=.ok v) : isNumber v := by
  rw [x.applyBinop_eq] at h
  cases hk : InterpretThis.applyBinop x.powf (x.rest s.decimalPrec) x.config.maxIntBits op l r with
  | error e =>
    rw [hk] at h
    cases h
  | ok w =>
    rw [hk] at h
    cases h
    exact applyBinop_numbers (fun u hu => x.rest_number hl hr hu) v hk

end Numbers

section Walk

variable {C M L W : Type} (x : Host C M L W)

/-- An outcome within the size of its expression; its value is a number. -/
structure Sound (o : NumericSync L) (n : Nat) : Prop where
  number : ∀v, o.result=.ok v → isNumber v
  count : o.count≤n

theorem Sound.failed {e : Failure} {count n : Nat} {read : List (Expr L)} (h : count≤n) :
    Sound ⟨.error e,count,read⟩ n := by
  refine ⟨?_,h⟩
  intro v hv
  cases hv

theorem Sound.leaf {e : Expr L} {v : Value} {o : NumericSync L} (h : leaf e v=some o) :
    Sound o 1 := by
  obtain ⟨hv,rfl⟩ := leaf_some h
  refine ⟨?_,Nat.le_refl 1⟩
  intro w hw
  cases hw
  exact hv

theorem Sound.guarded {d n : Nat} {o : Option (NumericSync L)} {o' : NumericSync L} (hn : 1≤n)
    (h : x.guarded d o=some o') (ho : o=some o' → Sound o' n) : Sound o' n := by
  obtain ⟨-,rfl⟩|⟨-,h⟩ := guarded_some x h
  · exact .failed hn
  · exact ho h

mutual

theorem evalNumericUnmetered_sound {s : State W} : ∀{e : Expr L} {d : Nat} {o : NumericSync L},
    x.evalNumericUnmetered s e d=some o → Sound o e.size
  | .constant c,d,o,h => Sound.guarded x (Nat.le_refl 1) h .leaf
  | .name id,d,o,h => by
    refine Sound.guarded x (Nat.le_refl 1) h fun h => ?_
    obtain ⟨v,-,hv⟩ := Option.bind_eq_some_iff.mp h
    exact .leaf hv
  | .binOp l op r,d,o,h => by
    refine Sound.guarded x (Nat.le_add_left 1 _) h fun h => ?_
    obtain ⟨e,m,read,hl,rfl⟩|⟨a,m,read,hl,h⟩ := operand_some h
    · have := (evalNumericUnmetered_sound hl).count
      exact .failed (by simp only [Expr.size] at *; omega)
    · have hleft := evalNumericUnmetered_sound hl
      have hm : m≤l.size := hleft.count
      obtain ⟨e,n,read',hr,rfl⟩|⟨b,n,read',hr,h⟩ := operand_some h
      · have hn : n ≤ r.size := (evalNumericUnmetered_sound hr).count
        exact .failed (by simp only [Expr.size]; omega)
      · have hright := evalNumericUnmetered_sound hr
        have hn : n ≤ r.size := hright.count
        cases h
        refine ⟨?_,by simp only [Expr.size]; omega⟩
        intro v hv
        exact applyBinop_number x (hleft.number a rfl) (hright.number b rfl) hv
  | .compare l ops cs,d,o,h => by
    have hsize := Expr.size_pos l
    refine Sound.guarded x (by simp only [Expr.size]; omega) h fun h => ?_
    split at h
    · cases h
    · obtain ⟨e,m,read,hl,rfl⟩|⟨a,m,read,hl,h⟩ := operand_some h
      · have hm : m≤l.size := (evalNumericUnmetered_sound hl).count
        exact .failed (by simp only [Expr.size]; omega)
      · have hm : m≤l.size := (evalNumericUnmetered_sound hl).count
        obtain ⟨hnumber,hcount⟩ := evalNumericCompare_sound h
        exact ⟨hnumber,by simp only [Expr.size]; omega⟩
  | .other l,d,o,h => Sound.guarded x (Nat.le_refl 1) h (by simp)

theorem evalNumericCompare_sound {s : State W} : ∀{cs : List (Expr L)} {d : Nat}
    {ops : List Comparison} {left : Value} {count : Nat} {seen : List (Expr L)}
    {o : NumericSync L}, x.evalNumericCompare s cs d ops left count seen=some o →
      Sound o (count+sizes cs)
  | [],d,ops,left,count,seen,o,h => by
    cases h
    exact ⟨fun v hv => by cases hv; rfl,Nat.le_add_right _ _⟩
  | c::cs,d,[],left,count,seen,o,h => by
    cases h
    exact ⟨fun v hv => by cases hv; rfl,Nat.le_add_right _ _⟩
  | c::cs,d,op::ops,left,count,seen,o,h => by
    obtain ⟨e,n,read,hc,rfl⟩|⟨right,n,read,hc,h⟩ := operand_some h
    · have hn : n ≤ c.size := (evalNumericUnmetered_sound hc).count
      exact .failed (by simp only [sizes]; omega)
    · have hn : n ≤ c.size := (evalNumericUnmetered_sound hc).count
      split at h
      · obtain ⟨hnumber,hcount⟩ := evalNumericCompare_sound h
        exact ⟨hnumber,by simp only [sizes]; omega⟩
      · cases h
        exact ⟨fun v hv => by cases hv; rfl,by simp only [sizes]; omega⟩
      · cases h
        exact .failed (by simp only [sizes]; omega)

end

/-- The states that the evaluators tell apart only by their counters. -/
structure State.Alike (s t : State W) : Prop where
  bindings : t.bindings=s.bindings
  decimalPrec : t.decimalPrec=s.decimalPrec
  world : t.world=s.world

/-- The same outcome, or the first was cut off by the recursion limit. -/
def Host.Cut (deep : Prop) (o o' : Option (NumericSync L)) : Prop :=
  o=o' ∨ (deep ∧ ∃read, o=some ⟨.error x.recursionError,1,read⟩)

variable {x}

theorem Cut.mono {p q : Prop} {o o' : Option (NumericSync L)} (hpq : p → q) (h : x.Cut p o o') :
    x.Cut q o o' := h.imp_right fun ⟨hp,hread⟩ => ⟨hpq hp,hread⟩

theorem Cut.guarded {d d' : Nat} {p : Prop} {o o' : Option (NumericSync L)} (hd : d'≤d)
    (hp : x.config.maxRecursionDepth≤d → p) (h : x.Cut p o o') :
    x.Cut p (x.guarded d o) (x.guarded d' o') := by
  by_cases hdeep : x.config.maxRecursionDepth≤d
  · right
    exact ⟨hp hdeep,[],if_pos hdeep⟩
  · have hshallow : ¬x.config.maxRecursionDepth≤d' := fun h => hdeep (Nat.le_trans h hd)
    simp only [Host.guarded,if_neg hdeep,if_neg hshallow]
    exact h

theorem Cut.operand {p : Prop} {o o' : Option (NumericSync L)} {seen : List (Expr L)}
    {k k' : Value → Nat → List (Expr L) → Option (NumericSync L)} (h : x.Cut p o o')
    (hk : ∀v n read, o=some ⟨.ok v,n,read⟩ → x.Cut p (k v n (seen++read)) (k' v n (seen++read))) :
    x.Cut p (operand seen o k) (operand seen o' k') := by
  obtain rfl|⟨hp,read,rfl⟩ := h
  · match o,hk with
    | none,_ => exact .inl rfl
    | some ⟨.error e,n,read⟩,_ => exact .inl rfl
    | some ⟨.ok v,n,read⟩,hk => exact hk v n read rfl
  · exact .inr ⟨hp,seen++read,rfl⟩

theorem applyBinop_alike {s t : State W} (h : s.Alike t) (op : Operator) (l r : Value) :
    x.applyBinop op l r s=x.applyBinop op l r t := by
  rw [x.applyBinop_eq,x.applyBinop_eq,h.decimalPrec]

theorem compareSync_alike {s t : State W} {op : Comparison} {l r : Value} (hl : isNumber l)
    (hr : isNumber r) : x.compareSync s op l r=x.compareSync t op l r := by
  cases op with
  | rich op => exact (x.compareBuiltin_number hl hr).trans (x.compareBuiltin_number hl hr).symm
  | _ => rfl

mutual

/-- The evaluation from a smaller depth and under other counters. -/
theorem evalNumericUnmetered_shallower {s t : State W} (hst : s.Alike t) :
    ∀(e : Expr L) {d d' : Nat}, d'≤d → x.Cut (x.config.maxRecursionDepth<d+e.height)
      (x.evalNumericUnmetered s e d) (x.evalNumericUnmetered t e d')
  | .constant c,d,d',hd => Cut.guarded hd Nat.lt_succ_of_le (.inl rfl)
  | .name id,d,d',hd => by
    refine Cut.guarded hd Nat.lt_succ_of_le (.inl ?_)
    rw [hst.bindings]
  | .binOp l op r,d,d',hd => by
    refine Cut.guarded hd (by simp only [Expr.height]; omega) ?_
    refine Cut.operand (Cut.mono ?_ (evalNumericUnmetered_shallower hst l (by omega))) ?_
    · simp only [Expr.height]
      omega
    · intro a m read ha
      refine Cut.operand (Cut.mono ?_ (evalNumericUnmetered_shallower hst r (by omega))) ?_
      · simp only [Expr.height]
        omega
      · intro b n read' hb
        exact .inl (by rw [applyBinop_alike hst])
  | .compare l ops cs,d,d',hd => by
    refine Cut.guarded hd (by simp only [Expr.height]; omega) ?_
    split
    · exact .inl rfl
    · refine Cut.operand (Cut.mono ?_ (evalNumericUnmetered_shallower hst l (by omega))) ?_
      · simp only [Expr.height]
        omega
      · intro a m read ha
        refine Cut.mono ?_ (evalNumericCompare_shallower hst cs (by omega)
          ((evalNumericUnmetered_sound x ha).number a rfl))
        simp only [Expr.height]
        omega
  | .other l,d,d',hd => Cut.guarded hd Nat.lt_succ_of_le (.inl rfl)

theorem evalNumericCompare_shallower {s t : State W} (hst : s.Alike t) :
    ∀(cs : List (Expr L)) {d d' : Nat} {ops : List Comparison} {left : Value} {count : Nat}
      {seen : List (Expr L)}, d'≤d → isNumber left → x.Cut (x.config.maxRecursionDepth<d+heights cs)
      (x.evalNumericCompare s cs d ops left count seen)
      (x.evalNumericCompare t cs d' ops left count seen)
  | [],d,d',ops,left,count,seen,hd,hleft => .inl rfl
  | c::cs,d,d',[],left,count,seen,hd,hleft => .inl rfl
  | c::cs,d,d',op::ops,left,count,seen,hd,hleft => by
    refine Cut.operand (Cut.mono ?_ (evalNumericUnmetered_shallower hst c hd)) ?_
    · simp only [heights]
      omega
    · intro right n read hc
      have hright := (evalNumericUnmetered_sound x hc).number right rfl
      rw [compareSync_alike (s := s) (t := t) hleft hright]
      split
      · refine Cut.mono ?_ (evalNumericCompare_shallower hst cs hd hright)
        simp only [heights]
        omega
      · exact .inl rfl
      · exact .inl rfl

end

end Walk

end InterpretThis.Numeric
