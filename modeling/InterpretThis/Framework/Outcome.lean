namespace InterpretThis

namespace Except.Tracks

variable {ε ε' α β γ δ : Type} {bad : ε' → ε → Prop} {rel : β → α → Prop} {sel : δ → γ → Prop}

end Except.Tracks

/-- From every state the computation ends in a good answer or in an expected fault. -/
def Yields {σ ε α : Type} (good : α → Prop) (fault : ε → Prop) (x : StateT σ (Except ε) α) : Prop :=
  ∀ s,match x s with
    | .ok (a,_) => good a
    | .error e => fault e

namespace Yields

variable {σ ε α β : Type} {good : α → Prop} {fine : β → Prop} {fault : ε → Prop}

theorem pure {a : α} (h : good a) : Yields good fault (Pure.pure a : StateT σ (Except ε) α) :=
  fun _ => h

theorem throw {e : ε} (h : fault e) :
    Yields good fault (MonadExcept.throw e : StateT σ (Except ε) α) := fun _ => h

theorem bind {x : StateT σ (Except ε) α} {f : α → StateT σ (Except ε) β}
    (hx : Yields good fault x) (hf : ∀ a,good a → Yields fine fault (f a)) :
    Yields fine fault (x >>= f) := by
  intro s
  have hs := hx s
  change match (x s).bind fun r => f r.1 r.2 with
    | .ok (b,_) => fine b
    | .error e => fault e
  cases hr : x s with
  | error e =>
    rw [hr] at hs
    exact hs
  | ok r =>
    rw [hr] at hs
    exact hf r.1 hs r.2

end Yields
end InterpretThis
