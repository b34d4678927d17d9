import InterpretThis.Pyset.Body
import InterpretThis.Value.Hash
import InterpretThis.Value.Key

namespace InterpretThis

open Pyset Pyhash Refinement

section Sets

variable (sip : List UInt8 → UInt64)

/-- One call on the sets of a program: elements are compared by `recurse_eq` and stored by
`python_hash`. -/
def setStep (T : SetBody.Bank Value) (o : BodyOp Value) : Option (SetBody.Bank Value×Reply Value) :=
  SetBody.step recurseEq (pythonHash sip) T o

/-- In every run of set calls, membership of a value in a set is equality with an element
exactly when the set is a fallback, or an element equal to the value has its python hash. -/
theorem set_membership (ops : List (BodyOp Value)) :
    ∃T replies, run (setStep sip) SetBody.start ops=some (T,replies) ∧
      ∀r v, SetBody.Membership recurseEq (pythonHash sip) (T r) v ↔
        (T r).isFallback=true ∨ SetBody.Visible recurseEq (pythonHash sip) (T r) v := by
  obtain ⟨T,replies,hrun,hT⟩ := SetBody.run_sound recurseEq (pythonHash sip) ops
  refine ⟨T,replies,hrun,?_⟩
  intro r v
  exact SetBody.membership_iff recurseEq (pythonHash sip) (hT r)

end Sets

/-- The member `HIGH = 1` of an `IntEnum`, hashable but without a python hash. -/
def highMember : Value := .enumMember "P" "HIGH" (.int 1) .int

theorem highMember_equal : recurseEq (.int 1) highMember=true := by decide

theorem set_of_one (sip : List UInt8 → UInt64) :
    ∃t, SetBody.fromItems recurseEq (pythonHash sip) [.int 1]=some (.table t) ∧
      t.iterOrdered=[.int 1] := ⟨_,rfl,rfl⟩

/-- `P.HIGH in {1}` is false although `1 == P.HIGH`. -/
theorem set_misses_member : ¬∃sip finish, ∀ops T replies,
    run (setStep sip) SetBody.start ops=some (T,replies) →
      ∀r v, (∃k, valueToKey finish v=.ok k) →
        SetBody.Membership recurseEq (pythonHash sip) (T r) v := by
  intro ⟨sip,finish,h⟩
  obtain ⟨t,ht,hitems⟩ := set_of_one sip
  have hrun : run (setStep sip) SetBody.start [.fromItems 0 [.int 1]]=
      some (Function.update SetBody.start 0 (.table t),[.done]) := by
    simp only [run,setStep,SetBody.step,ht,SetBody.writeBack,Option.map_some]
  have hm := h _ _ _ hrun 0 highMember ⟨.int 1,rfl⟩
  rw [Function.update_self] at hm
  obtain ⟨r,hr,hiff⟩ := hm.contains
  -- Without a python hash the table answers that the member is absent.
  have hfalse : r=false := (Option.some.inj hr).symm
  have htrue : r=true := by
    refine hiff.mpr ⟨.int 1,?_,highMember_equal⟩
    rw [SetBody.iterOrdered,hitems]
    exact List.mem_singleton.mpr rfl
  rw [hfalse] at htrue
  cases htrue

end InterpretThis
