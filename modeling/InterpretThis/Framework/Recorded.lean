namespace InterpretThis

def Recorded (S E R α : Type) : Type := S → Except E α×S×List R

namespace Recorded

variable {S E R X α β : Type}

def result (m : Recorded S E R α) (s : S) : Except E α := (m s).1

def after (m : Recorded S E R α) (s : S) : S := (m s).2.1

def record (m : Recorded S E R α) (s : S) : List R := (m s).2.2

instance : Monad (Recorded S E R) where
  pure a := fun s => (.ok a,s,[])
  bind m f := fun s =>
    match m s with
    | (.error e,s',w) => (.error e,s',w)
    | (.ok a,s',w) => ((f a s').1,(f a s').2.1,w++(f a s').2.2)

def throw (e : E) : Recorded S E R α := fun s => (.error e,s,[])

def lift (f : S → Except E α×S) : Recorded S E R α := fun s => ((f s).1,(f s).2,[])

def relabel (f : R → X) (m : Recorded S E R α) : Recorded S E X α :=
  fun s => ((m s).1,(m s).2.1,(m s).2.2.map f)

def ofExcept : Except E α → Recorded S E R α
  | .ok a => pure a
  | .error e => throw e

variable {m : Recorded S E R α} {f : α → Recorded S E R β}

theorem bind_error {s s' : S} {e : E} {w : List R} (h : m s=(.error e,s',w)) :
    (m >>= f) s=(.error e,s',w) := by
  change (match m s with
    | (.error e,s',w) => (Except.error e,s',w)
    | (.ok a,s',w) => ((f a s').1,(f a s').2.1,w++(f a s').2.2))=_
  rw [h]

theorem bind_ok {s s' : S} {a : α} {w : List R} (h : m s=(.ok a,s',w)) :
    (m >>= f) s=((f a).result s',(f a).after s',w++(f a).record s') := by
  change (match m s with
    | (.error e,s',w) => (Except.error e,s',w)
    | (.ok a,s',w) => ((f a s').1,(f a s').2.1,w++(f a s').2.2))=_
  rw [h]
  rfl

theorem record_of {s s' : S} {r : Except E α} {w : List R} (h : m s=(r,s',w)) : m.record s=w := by
  rw [record,h]

theorem result_of {s s' : S} {r : Except E α} {w : List R} (h : m s=(r,s',w)) : m.result s=r := by
  rw [result,h]

theorem bind_assoc {γ : Type} (m : Recorded S E R α) (f : α → Recorded S E R β)
    (g : β → Recorded S E R γ) : (m >>= f) >>= g=m >>= fun a => f a >>= g := by
  funext s
  rcases hm : m s with ⟨r,s',w⟩
  cases r with
  | error e => rw [bind_error (bind_error hm),bind_error hm]
  | ok a =>
    rw [bind_ok hm]
    rcases hf : f a s' with ⟨r',s'',w'⟩
    have hrun : (m >>= f) s=(r',s'',w++w') := by
      rw [bind_ok hm,result_of hf,record_of hf]
      unfold after
      rw [hf]
    cases r' with
    | error e =>
      rw [bind_error hrun]
      unfold result after record
      rw [bind_error hf]
    | ok b =>
      rw [bind_ok hrun]
      unfold result after record
      rw [bind_ok hf]
      unfold result after record
      rw [List.append_assoc]

theorem record_bind_cons {s : S} {n : R} {rest : List R} (h : m.record s=n::rest) :
    ∃rest', (m >>= f).record s=n::rest' := by
  rcases hm : m s with ⟨r,s',w⟩
  have hw : w=n::rest := (record_of hm).symm.trans h
  cases r with
  | error e => exact ⟨rest,(record_of (bind_error hm)).trans hw⟩
  | ok a =>
    have hrun := record_of (bind_ok (f := f) hm)
    rw [hw] at hrun
    exact ⟨rest++(f a).record s',hrun⟩

/-- `m` does what `m₀` does up to the first entry of its record, and makes that entry only if the
check lets it through. -/
def Follows (check : R → Except E Unit) (m m₀ : Recorded S E R α) : Prop :=
  ∀s, match m₀.record s with
    | [] => m s=m₀ s
    | n::_ => (∀e, check n=.error e → m.result s=.error e ∧ m.record s=[]) ∧
      (check n=.ok () → ∃rest, m.record s=n::rest)

variable {check : R → Except E Unit}

theorem Follows.quiet (h : ∀s, m.record s=[]) : Follows check m m := by
  intro s
  rw [h s]

theorem Follows.bind {m m₀ : Recorded S E R α} {f f₀ : α → Recorded S E R β}
    (hm : Follows check m m₀) (hf : ∀a, Follows check (f a) (f₀ a)) :
    Follows check (m >>= f) (m₀ >>= f₀) := by
  intro s
  have hs := hm s
  rcases h₀ : m₀ s with ⟨r₀,s₀,w₀⟩
  have hw₀ : m₀.record s=w₀ := record_of h₀
  rw [hw₀] at hs
  cases w₀ with
  | nil =>
    have heq : m s=(r₀,s₀,[]) := hs.trans h₀
    cases r₀ with
    | error e =>
      have hrecord : (m₀ >>= f₀).record s=[] := record_of (bind_error h₀)
      rw [hrecord]
      exact (bind_error heq).trans (bind_error h₀).symm
    | ok a =>
      have hnext := hf a s₀
      have hrecord : (m₀ >>= f₀).record s=(f₀ a).record s₀ :=
        record_of (bind_ok h₀)
      rw [hrecord]
      have hrun := bind_ok (f := f) heq
      cases hn : (f₀ a).record s₀ with
      | nil =>
        rw [hn] at hnext
        have hsame : f a s₀=f₀ a s₀ := hnext
        have hrun₀ := bind_ok (f := f₀) h₀
        refine hrun.trans (Eq.trans ?_ hrun₀.symm)
        unfold result after record
        rw [hsame]
      | cons n rest =>
        rw [hn] at hnext
        obtain ⟨herr,hok⟩ := hnext
        constructor
        · intro e he
          obtain ⟨hr,hw⟩ := herr e he
          exact ⟨(result_of hrun).trans hr,(record_of hrun).trans hw⟩
        · intro hc
          obtain ⟨rest',hw⟩ := hok hc
          exact ⟨rest',(record_of hrun).trans hw⟩
  | cons n rest =>
    obtain ⟨herr,hok⟩ := hs
    have hrecord : ∃rest', (m₀ >>= f₀).record s=n::rest' := record_bind_cons (record_of h₀)
    obtain ⟨rest',hrecord⟩ := hrecord
    rw [hrecord]
    rcases h : m s with ⟨r,s',w⟩
    have hr : m.result s=r := result_of h
    have hw : m.record s=w := record_of h
    constructor
    · intro e he
      obtain ⟨hr',hw'⟩ := herr e he
      have herror : m s=(.error e,s',[]) := by rw [h,← hr,hr',← hw,hw']
      have hrun := bind_error (f := f) herror
      exact ⟨result_of hrun,record_of hrun⟩
    · intro hc
      obtain ⟨rest₁,hw'⟩ := hok hc
      have hwn : w=n::rest₁ := hw.symm.trans hw'
      cases r with
      | error e =>
        have hrun := bind_error (f := f) h
        exact ⟨rest₁,(record_of hrun).trans hwn⟩
      | ok a =>
        have hrun := bind_ok (f := f) h
        refine ⟨rest₁++(f a).record s',?_⟩
        have hlog : (m >>= f).record s=w++(f a).record s' := record_of hrun
        rw [hlog,hwn]
        rfl

theorem ofExcept_record (r : Except E α) (s : S) :
    (ofExcept r).record s=([] : List R) := by
  cases r <;> rfl

/-- The record is the given one, up to where an error stops it. -/
def Writes (m : Recorded S E R α) (ns : List R) : Prop :=
  ∀s, m.record s <+: ns ∧ ∀a, m.result s=.ok a → m.record s=ns

theorem Writes.silent (h : ∀s, m.record s=[]) : m.Writes [] := by
  intro s
  rw [h s]
  exact ⟨List.nil_prefix,fun _ _ => rfl⟩

theorem Writes.failing {ns : List R} (h : ∀s, m.record s=[]) (hr : ∀s a, m.result s≠.ok a) :
    m.Writes ns := by
  intro s
  rw [h s]
  exact ⟨List.nil_prefix,fun a ha => absurd ha (hr s a)⟩

theorem Writes.bind_of {ns ms : List R} (hm : m.Writes ns)
    (hf : ∀s a, m.result s=.ok a → (f a).Writes ms) : (m >>= f).Writes (ns++ms) := by
  intro s
  obtain ⟨hpre,hfull⟩ := hm s
  rcases h : m s with ⟨r,s',w⟩
  have hw : m.record s=w := record_of h
  have hr : m.result s=r := result_of h
  cases r with
  | error e =>
    have hrun := bind_error (f := f) h
    have hrecord : (m >>= f).record s=w := record_of hrun
    have hresult : (m >>= f).result s=.error e := result_of hrun
    rw [hrecord,hresult,← hw]
    exact ⟨hpre.trans (List.prefix_append _ _),fun a ha => nomatch ha⟩
  | ok a =>
    have hrun := bind_ok (f := f) h
    have hrecord : (m >>= f).record s=w++(f a).record s' := record_of hrun
    have hresult : (m >>= f).result s=(f a).result s' := result_of hrun
    have hns : w=ns := hw.symm.trans (hfull a hr)
    obtain ⟨hnext,hlast⟩ := hf s a hr s'
    rw [hrecord,hresult,hns]
    refine ⟨(List.prefix_append_right_inj ns).mpr hnext,?_⟩
    intro b hb
    rw [hlast b hb]

theorem Writes.bind {ns ms : List R} (hm : m.Writes ns) (hf : ∀a, (f a).Writes ms) :
    (m >>= f).Writes (ns++ms) :=
  hm.bind_of fun _ a _ => hf a

theorem Writes.after {ns : List R} (hm : ∀s, m.record s=[]) (hf : ∀a, (f a).Writes ns) :
    (m >>= f).Writes ns :=
  (Writes.silent hm).bind hf

/-- A computation that makes no entry leaves this part of the state as it is. -/
def Keeps (m : Recorded S E R α) (view : S → X) : Prop :=
  ∀s, m.record s=[] → view (m.after s)=view s

variable {view : S → X}

theorem Keeps.bind (hm : m.Keeps view) (hf : ∀a, (f a).Keeps view) : (m >>= f).Keeps view := by
  intro s hw
  rcases h : m s with ⟨r,s',w⟩
  cases r with
  | error e =>
    have hrun := bind_error (f := f) h
    have hnone : m.record s=[] := (record_of h).trans ((record_of hrun).symm.trans hw)
    have hkept := hm s hnone
    unfold after at hkept ⊢
    rw [hrun]
    rw [h] at hkept
    exact hkept
  | ok a =>
    have hrun := bind_ok (f := f) h
    obtain ⟨hnone,hnext⟩ := List.append_eq_nil_iff.mp ((record_of hrun).symm.trans hw)
    have hkept := hm s ((record_of h).trans hnone)
    have hrest := hf a s' hnext
    unfold after at hkept hrest ⊢
    rw [hrun]
    rw [h] at hkept
    exact hrest.trans hkept

theorem Keeps.lift {f : S → Except E α×S} (hf : ∀s, view (f s).2=view s) :
    (Recorded.lift f : Recorded S E R α).Keeps view := fun s _ => hf s

theorem Keeps.throw (e : E) : (Recorded.throw e : Recorded S E R α).Keeps view := fun _ _ => rfl

theorem Keeps.pure (a : α) : (Pure.pure a : Recorded S E R α).Keeps view := fun _ _ => rfl

theorem Keeps.ofExcept (r : Except E α) :
    (Recorded.ofExcept r : Recorded S E R α).Keeps view := by
  cases r with
  | ok a => exact Keeps.pure a
  | error e => exact Keeps.throw e

theorem Keeps.writing (h : ∀s, m.record s≠[]) : m.Keeps view :=
  fun s hw => absurd hw (h s)

end Recorded

end InterpretThis
