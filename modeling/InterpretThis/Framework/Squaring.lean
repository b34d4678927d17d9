import Mathlib.Algebra.Group.Basic

namespace InterpretThis
namespace Squaring

variable {E A M : Type} [Monoid M]

/-- Square and multiply with a product that may fail. -/
def loop (mul : A → A → Except E A) (result b : A) (e : ℕ) : Except E A :=
  if e=0 then .ok result
  else do
    let result ← if e%2=1 then mul result b else .ok result
    let b ← mul b b
    loop mul result b (e/2)
termination_by e
decreasing_by omega

variable {mul : A → A → Except E A} {P Q : A → Prop} {image : A → M}

/-- What a product does on the values that the loop meets. -/
structure Sound (mul : A → A → Except E A) (P Q : A → Prop) (image : A → M) (x y z : A) : Prop where
  eq : mul x y=.ok z
  keeps : P z
  reduced : Q z
  image : image z=image x*image y

theorem pow_half {x : M} {e : ℕ} (h : e%2=0) : (x*x)^(e/2)=x^e := by
  have hsplit : 2*(e/2)=e := by omega
  rw [← pow_two,← pow_mul,hsplit]

theorem mul_pow_half {x : M} {e : ℕ} (h : e%2=1) : x*(x*x)^(e/2)=x^e := by
  have hsplit : 2*(e/2)+1=e := by omega
  rw [← pow_two,← pow_mul,← pow_succ',hsplit]

/-- A sound product raises to the power: the image of the result is the power of the images, and a
result of at least one product is reduced. -/
theorem loop_sound (hmul : ∀ x y,P x → P y → ∃ z,Sound mul P Q image x y z) {result b : A} {e : ℕ}
    (hr : P result) (hb : P b) :
    ∃ z,loop mul result b e=.ok z ∧ image z=image result*image b^e ∧ (e≠0 → Q z) := by
  induction e using Nat.strongRecOn generalizing result b with
  | _ e ih =>
    rw [loop]
    by_cases he : e=0
    · refine ⟨result,if_pos he,?_,fun hne => absurd he hne⟩
      rw [he,pow_zero,mul_one]
    rw [if_neg he]
    obtain ⟨square,hsquare⟩ := hmul b b hb hb
    have hhalf : e/2<e := by omega
    by_cases hodd : e%2=1
    · obtain ⟨next,hnext⟩ := hmul result b hr hb
      obtain ⟨z,hz,hpow,hred⟩ := ih (e/2) hhalf hnext.keeps hsquare.keeps
      refine ⟨z,?_,?_,fun _ => ?_⟩
      · rw [if_pos hodd,hnext.eq]
        change (do let b ← mul b b; loop mul next b (e/2))=_
        rw [hsquare.eq]
        exact hz
      · rw [hpow,hnext.image,hsquare.image,mul_assoc,mul_pow_half hodd]
      · by_cases hend : e/2=0
        · rw [hend,loop,if_pos rfl] at hz
          cases hz
          exact hnext.reduced
        · exact hred hend
    · obtain ⟨z,hz,hpow,hred⟩ := ih (e/2) hhalf hr hsquare.keeps
      have hne : e/2≠0 := by omega
      refine ⟨z,?_,?_,fun _ => hred hne⟩
      · rw [if_neg hodd]
        change (do let b ← mul b b; loop mul result b (e/2))=_
        rw [hsquare.eq]
        exact hz
      · rw [hpow,hsquare.image,pow_half (by omega)]

end Squaring
end InterpretThis
