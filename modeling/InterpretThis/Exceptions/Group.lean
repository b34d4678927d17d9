import InterpretThis.Exceptions.Finally

namespace InterpretThis.Exceptions

section Lists

variable {α β : Type} {f : α → List β} {p : α → Bool} {q : β → Bool}

theorem length_flatMap_filter_le {xs : List α}
    (h : ∀x ∈ xs, p x=true → ∀y ∈ f x, q y=true) :
    ((xs.filter p).flatMap f).length ≤ ((xs.flatMap f).filter q).length := by
  induction xs with
  | nil => simp
  | cons x xs ih =>
    obtain ⟨hx,hxs⟩ := List.forall_mem_cons.mp h
    have hrest := ih hxs
    cases hp : p x with
    | true =>
      have hq : (f x).filter q=f x := List.filter_eq_self.mpr (hx hp)
      simp only [List.filter_cons,hp,if_true,List.flatMap_cons,List.filter_append,hq,
        List.length_append]
      omega
    | false =>
      simp only [List.filter_cons,hp,Bool.false_eq_true,if_false,List.flatMap_cons,
        List.filter_append,List.length_append]
      omega

/-- Choosing lists as a whole and choosing their elements is the same only if no list is divided. -/
theorem flatMap_filter_eq_iff {xs : List α} :
    (xs.filter p).flatMap f=(xs.flatMap f).filter q ↔ ∀x ∈ xs, ∀y ∈ f x, q y=p x := by
  induction xs with
  | nil => simp
  | cons x xs ih =>
    rw [List.forall_mem_cons,← ih,List.flatMap_cons,List.filter_append]
    cases hp : p x with
    | true =>
      rw [List.filter_cons,hp,if_pos rfl,List.flatMap_cons]
      constructor
      · intro h
        have hq : ∀y ∈ f x, q y=true := by
          intro y hy
          have hmem : y ∈ (f x).filter q++(xs.flatMap f).filter q :=
            h ▸ List.mem_append_left _ hy
          rw [← List.filter_append] at hmem
          exact (List.mem_filter.mp hmem).2
        rw [List.filter_eq_self.mpr hq] at h
        exact ⟨hq,List.append_cancel_left h⟩
      · rintro ⟨hq,h⟩
        rw [List.filter_eq_self.mpr hq,h]
    | false =>
      rw [List.filter_cons,hp,if_neg Bool.false_ne_true]
      constructor
      · intro h
        have hq : ∀x' ∈ xs, p x'=true → ∀y ∈ f x', q y=true := by
          intro x' hx' hp' y hy
          have hmem : y ∈ (xs.filter p).flatMap f :=
            List.mem_flatMap.mpr ⟨x',List.mem_filter.mpr ⟨hx',hp'⟩,hy⟩
          rw [h,← List.filter_append] at hmem
          exact (List.mem_filter.mp hmem).2
        -- Nothing of the list that is left out can be chosen: the rest is long enough already.
        have hle := length_flatMap_filter_le hq
        have hlen := congrArg List.length h
        rw [List.length_append] at hlen
        have hnil : (f x).filter q=[] := List.length_eq_zero_iff.mp (by omega)
        rw [hnil,List.nil_append] at h
        refine ⟨fun y hy => ?_,h⟩
        simpa using List.filter_eq_nil_iff.mp hnil y hy
      · rintro ⟨hq,h⟩
        have hnil : (f x).filter q=[] := List.filter_eq_nil_iff.mpr fun y hy => by simp [hq y hy]
        rw [hnil,h,List.nil_append]

end Lists

section Leaves

variable {D : Type}

mutual

/-- `flatten`. -/
def leaves : ExceptionValue D → List (ExceptionValue D)
  | .leaf t m d => [.leaf t m d]
  | .group _ _ _ xs => leavesOf xs

def leavesOf : List (ExceptionValue D) → List (ExceptionValue D)
  | [] => []
  | x::xs => leaves x++leavesOf xs

end

theorem leavesOf_eq (xs : List (ExceptionValue D)) : leavesOf xs=xs.flatMap leaves := by
  induction xs with
  | nil => rfl
  | cons x xs ih => rw [leavesOf,ih,List.flatMap_cons]

theorem leavesOf_members (x : ExceptionValue D) : leavesOf (members x)=leaves x := by
  cases x with
  | leaf t m d => rfl
  | group t m d xs => simp [members,leaves]

mutual

theorem leaves_of_mem_leaves : ∀{x l : ExceptionValue D}, l ∈ leaves x → leaves l=[l]
  | .leaf t m d,l,h => by
    rw [leaves,List.mem_singleton] at h
    rw [h,leaves]
  | .group t m d xs,l,h => leaves_of_mem_leavesOf (show l ∈ leavesOf xs by simpa [leaves] using h)

theorem leaves_of_mem_leavesOf : ∀{xs : List (ExceptionValue D)} {l : ExceptionValue D},
    l ∈ leavesOf xs → leaves l=[l]
  | [],l,h => by simp [leavesOf] at h
  | x::xs,l,h => by
    rw [leavesOf,List.mem_append] at h
    rcases h with h | h
    · exact leaves_of_mem_leaves h
    · exact leaves_of_mem_leavesOf h

end

theorem leavesOf_eq_self {xs : List (ExceptionValue D)} (h : ∀l ∈ xs, leaves l=[l]) :
    leavesOf xs=xs := by
  induction xs with
  | nil => rfl
  | cons x xs ih =>
    obtain ⟨hx,hxs⟩ := List.forall_mem_cons.mp h
    rw [leavesOf,hx,ih hxs,List.singleton_append]

end Leaves

section Split

variable {D : Type} (P : Payload D)

/-- The test of `split` and `subgroup`, whose argument stands for these type names. -/
def matchesType (names : List String) (leaf : ExceptionValue D) : Bool :=
  names.any (leafMatches leaf.typeName)

def partOf (exc : ExceptionValue D) (xs : List (ExceptionValue D)) : Option (ExceptionValue D) :=
  if xs.isEmpty then none else some (.newGroup P exc.typeName exc.message xs)

def subgroup (names : List String) (exc : ExceptionValue D) : Option (ExceptionValue D) :=
  partOf P exc ((leavesOf (members exc)).filter (matchesType names))

def split (names : List String) (exc : ExceptionValue D) :
    Option (ExceptionValue D)×Option (ExceptionValue D) :=
  (subgroup P names exc,
    partOf P exc ((leavesOf (members exc)).filter fun l => !matchesType names l))

def partLeaves (x : Option (ExceptionValue D)) : List (ExceptionValue D) :=
  (x.map leaves).getD []

theorem partLeaves_partOf (exc : ExceptionValue D) {xs : List (ExceptionValue D)}
    (h : ∀l ∈ xs, leaves l=[l]) : partLeaves (partOf P exc xs)=xs := by
  unfold partOf partLeaves
  cases xs with
  | nil => rfl
  | cons x xs => exact leavesOf_eq_self h

theorem partLeaves_split (names : List String) (exc : ExceptionValue D) :
    partLeaves (split P names exc).1=(leaves exc).filter (matchesType names) ∧
    partLeaves (split P names exc).2=(leaves exc).filter fun l => !matchesType names l := by
  have hleaf : ∀p : ExceptionValue D → Bool, ∀l ∈ (leavesOf (members exc)).filter p,
      leaves l=[l] := fun p l hl => leaves_of_mem_leavesOf (List.mem_filter.mp hl).1
  unfold split subgroup
  rw [partLeaves_partOf P exc (hleaf _),partLeaves_partOf P exc (hleaf _),leavesOf_members]
  exact ⟨rfl,rfl⟩

/-- The two parts have the leaves of the group, each once, and the first one has the instances. -/
structure SplitExact (reg : Registry) (names : List String) (exc : ExceptionValue D) : Prop where
  all : (partLeaves (split P names exc).1++partLeaves (split P names exc).2).Perm (leaves exc)
  first : partLeaves (split P names exc).1=
    (leaves exc).filter fun l => names.any (reg.isSubclass l.typeName)

theorem filter_eq_filter_iff {α : Type} {p q : α → Bool} {xs : List α} :
    xs.filter p=xs.filter q ↔ ∀x ∈ xs, p x=q x := by
  refine ⟨fun h x hx => ?_,fun h => List.filter_congr h⟩
  rw [Bool.eq_iff_iff]
  constructor
  · intro hp
    exact (List.mem_filter.mp (h ▸ List.mem_filter.mpr ⟨hx,hp⟩)).2
  · intro hq
    exact (List.mem_filter.mp (h.symm ▸ List.mem_filter.mpr ⟨hx,hq⟩)).2

theorem splitExact_iff (reg : Registry) (names : List String) (exc : ExceptionValue D) :
    SplitExact P reg names exc ↔ ∀l ∈ leaves exc,
      names.any (builtinExceptionIssubclass l.typeName)=
        names.any (reg.isSubclass l.typeName) := by
  obtain ⟨h₁,h₂⟩ := partLeaves_split P names exc
  have hall : (partLeaves (split P names exc).1++partLeaves (split P names exc).2).Perm
      (leaves exc) := by
    rw [h₁,h₂]
    exact List.filter_append_perm _ _
  have hm : ∀l : ExceptionValue D, matchesType names l=
      names.any (builtinExceptionIssubclass l.typeName) := by
    intro l
    unfold matchesType
    congr 1
    funext n
    exact leafMatches_eq
  constructor
  · intro h
    have hf := h.first
    rw [h₁] at hf
    intro l hl
    rw [← hm l]
    exact filter_eq_filter_iff.mp hf l hl
  · intro h
    refine ⟨hall,?_⟩
    rw [h₁]
    refine filter_eq_filter_iff.mpr fun l hl => ?_
    rw [hm l]
    exact h l hl

end Split

section Star

variable {D V W : Type} (I : Interp D V W)

abbrev Result (D V : Type) : Type := Except (EvalError D V) (Option (Except (EvalError D V) V))

/-- What happens to a group: handler after handler gets exceptions, until all have been tried or one
of them raises. -/
inductive History (D V : Type) where
  | next (got : List (ExceptionValue D)) (rest : History D V)
  | failed (got : List (ExceptionValue D)) (raised : EvalError D V) (outcome : Result D V)
  | ended (outcome : Result D V)

def History.outcome : History D V → Result D V
  | next _ rest => rest.outcome
  | failed _ _ o => o
  | ended o => o

/-- The history of the handlers of `except*`: the leaves that each is given. A handler whose name
cannot be bound is given nothing. -/
def history (message : String) : List (Handler D V W) → List (ExceptionValue D) → Bool → V →
    State D V W → History D V
  | [],remaining,anyMatched,last,_ => .ended (.ok (starEnd I message remaining anyMatched last))
  | h::hs,remaining,anyMatched,last,s =>
    if remaining.isEmpty then .ended (.ok (starEnd I message remaining anyMatched last))
    else match splitMatched I h remaining s with
    | (.error e,_) => .failed [] e (.error e)
    | (.ok (matched,unmatched),s) =>
      if matched.isEmpty then .next [] (history message hs unmatched anyMatched last s)
      else match enterStarHandler I h (.newGroup I.payload "ExceptionGroup" message matched) s with
      | (.error e,_) => .failed [] e (.error e)
      | (.ok (.ok v),s) => .next (leavesOf matched) (history message hs unmatched true v s)
      | (.ok (.error e),_) => .failed (leavesOf matched) e (.ok (some (.error e)))

def errorLeaves : EvalError D V → List (ExceptionValue D)
  | .exception x => leaves x
  | _ => []

def outcomeLeaves : Result D V → List (ExceptionValue D)
  | .error e => errorLeaves e
  | .ok (some (.error e)) => errorLeaves e
  | _ => []

variable (m : Handler D V W → ExceptionValue D → Bool)

/-- Each leaf goes to the first handler that matches it or is re-raised; when a handler raises, what
is left propagates along with what was raised. -/
def Delivered : List (Handler D V W) → List (ExceptionValue D) → History D V → Prop
  | hs,ls,.ended o => outcomeLeaves o=ls ∧ (hs=[] ∨ ls=[])
  | h::hs,ls,.next got rest =>
    got=ls.filter (m h) ∧ Delivered hs (ls.filter fun l => !m h l) rest
  | h::_,ls,.failed got raised outcome =>
    got=ls.filter (m h) ∧
      (outcomeLeaves outcome).Perm (errorLeaves raised++ls.filter fun l => !m h l)
  | [],_,_ => False

/-- No handler that is tried divides a nested group, and when one raises nothing is left. -/
def Undivided (message : String) : List (Handler D V W) → List (ExceptionValue D) → State D V W → Prop
  | [],_,_ => True
  | h::hs,remaining,s =>
    if remaining.isEmpty then True
    else
      let matched := remaining.filter (m h)
      let unmatched := remaining.filter fun x => !m h x
      (∀x ∈ remaining, ∀l ∈ leaves x, m h l=m h x) ∧
      if matched.isEmpty then Undivided message hs unmatched s
      else match enterStarHandler I h (.newGroup I.payload "ExceptionGroup" message matched) s with
      | (.error _,_) => leavesOf remaining=[]
      | (.ok (.ok _),s) => Undivided message hs unmatched s
      | (.ok (.error _),_) => leavesOf unmatched=[]

variable {m}

theorem splitMatched_eq {h : Handler D V W}
    (hm : ∀x s, matchesHandler I h x s=(.ok (m h x),s)) (xs : List (ExceptionValue D))
    (s : State D V W) :
    splitMatched I h xs s=(.ok (xs.filter (m h),xs.filter fun x => !m h x),s) := by
  induction xs with
  | nil => rfl
  | cons x xs ih =>
    rw [splitMatched,hm]
    dsimp only
    rw [ih]
    cases hx : m h x <;> simp [hx]

theorem leavesOf_reraise (message : String) (remaining : List (ExceptionValue D)) :
    leaves (reraise I message remaining)=leavesOf remaining := by
  unfold reraise
  split
  · simp [leaves,leavesOf]
  · simp [ExceptionValue.newGroup,leaves]

theorem outcomeLeaves_starEnd (message : String) (remaining : List (ExceptionValue D)) (any : Bool)
    (last : V) : outcomeLeaves (.ok (starEnd I message remaining any last))=leavesOf remaining := by
  unfold starEnd
  cases remaining with
  | nil => cases any <;> rfl
  | cons x xs => exact leavesOf_reraise I message (x::xs)

theorem leavesOf_filter_iff {p : ExceptionValue D → Bool} {xs : List (ExceptionValue D)} :
    leavesOf (xs.filter p)=(leavesOf xs).filter p ↔ ∀x ∈ xs, ∀l ∈ leaves x, p l=p x := by
  rw [leavesOf_eq,leavesOf_eq]
  exact flatMap_filter_eq_iff

theorem leavesOf_filter_not {p : ExceptionValue D → Bool} {xs : List (ExceptionValue D)}
    (h : ∀x ∈ xs, ∀l ∈ leaves x, p l=p x) :
    leavesOf (xs.filter fun x => !p x)=(leavesOf xs).filter fun l => !p l :=
  leavesOf_filter_iff.mpr fun x hx l hl => congrArg (!·) (h x hx l hl)

theorem perm_append_left_iff {α : Type} {a b : List α} : a.Perm (a++b) ↔ b=[] := by
  constructor
  · intro h
    have hlen := h.length_eq
    rw [List.length_append] at hlen
    exact List.length_eq_zero_iff.mp (by omega)
  · rintro rfl
    rw [List.append_nil]

/-- The leaves of a group are delivered exactly when no nested group is divided. -/
theorem delivered_iff (message : String) {hs : List (Handler D V W)}
    (hm : ∀h ∈ hs, ∀x s, matchesHandler I h x s=(.ok (m h x),s))
    (remaining : List (ExceptionValue D)) (any : Bool) (last : V) (s : State D V W) :
    Delivered m hs (leavesOf remaining) (history I message hs remaining any last s) ↔
      Undivided I m message hs remaining s := by
  induction hs generalizing remaining any last s with
  | nil => simp [Delivered,history,Undivided,outcomeLeaves_starEnd]
  | cons h hs ih =>
    obtain ⟨hh,hrest⟩ := List.forall_mem_cons.mp hm
    unfold history Undivided
    split
    · rename_i he
      rw [List.isEmpty_iff] at he
      subst he
      simp [Delivered,outcomeLeaves_starEnd,leavesOf]
    · rw [splitMatched_eq I hh]
      dsimp only
      split
      · rename_i he
        rw [List.isEmpty_iff] at he
        rw [Delivered,← leavesOf_filter_iff,he,leavesOf]
        refine and_congr_right fun hf => ?_
        have hun : ∀x ∈ remaining, ∀l ∈ leaves x, m h l=m h x :=
          leavesOf_filter_iff.mp (by rw [he,leavesOf,hf])
        rw [← leavesOf_filter_not hun]
        exact ih hrest _ any last s
      · rcases enterStarHandler I h _ s with ⟨r,t⟩
        cases r with
        | error e =>
          dsimp only
          rw [Delivered,outcomeLeaves,perm_append_left_iff]
          constructor
          · rintro ⟨hyes,hno⟩
            have hnil : leavesOf remaining=[] := by
              refine List.eq_nil_iff_forall_not_mem.mpr fun l hl => ?_
              cases hml : m h l with
              | true =>
                have : l ∈ (leavesOf remaining).filter (m h) := List.mem_filter.mpr ⟨hl,hml⟩
                rw [← hyes] at this
                cases this
              | false =>
                have : l ∈ (leavesOf remaining).filter fun l => !m h l :=
                  List.mem_filter.mpr ⟨hl,by simp [hml]⟩
                rw [hno] at this
                cases this
            refine ⟨fun x hx l hl => ?_,hnil⟩
            rw [leavesOf_eq] at hnil
            have hmem : l ∈ remaining.flatMap leaves := List.mem_flatMap.mpr ⟨x,hx,hl⟩
            rw [hnil] at hmem
            cases hmem
          · rintro ⟨_,hnil⟩
            rw [hnil]
            exact ⟨rfl,rfl⟩
        | ok r =>
          cases r with
          | ok v =>
            dsimp only
            rw [Delivered,leavesOf_filter_iff]
            refine and_congr_right fun hun => ?_
            rw [← leavesOf_filter_not hun]
            exact ih hrest _ true v t
          | error e =>
            dsimp only
            rw [Delivered,outcomeLeaves,perm_append_left_iff,leavesOf_filter_iff]
            refine and_congr_right fun hun => ?_
            rw [leavesOf_filter_not hun]

/-- The history ends as the handlers do. -/
theorem outcome_history (message : String) (hs : List (Handler D V W))
    (remaining : List (ExceptionValue D)) (any : Bool) (last : V) (s : State D V W) :
    (history I message hs remaining any last s).outcome=
      (starRounds I message hs remaining any last s).1 := by
  induction hs generalizing remaining any last s with
  | nil => rfl
  | cons h hs ih =>
    unfold history starRounds
    split
    · rfl
    · rcases splitMatched I h remaining s with ⟨r,t⟩
      cases r with
      | error e => rfl
      | ok p =>
        dsimp only
        split
        · exact ih _ any last t
        · rcases enterStarHandler I h _ t with ⟨r,u⟩
          cases r with
          | error e => rfl
          | ok r =>
            cases r with
            | ok v => exact ih _ true v u
            | error e => rfl

end Star

section Claim

variable {D V W : Type} (I : Interp D V W)

def starHistory (exc : ExceptionValue D) (hs : List (Handler D V W)) (s : State D V W) :
    History D V :=
  history I exc.message hs (members exc) false I.none s

/-- For handlers whose types are fixed: the leaves of a group are delivered by `except*`, as the
outcome of which the history ends, exactly when no nested group is divided and nothing is left when
a handler raises; and `split` is exact when the tree knows the classes of the leaves. -/
theorem groups_conserved_iff (exc : ExceptionValue D) (hs : List (Handler D V W))
    (m : Handler D V W → ExceptionValue D → Bool)
    (hm : ∀h ∈ hs, ∀x s, matchesHandler I h x s=(.ok (m h x),s)) (s : State D V W)
    (reg : Registry) (names : List String) :
    (starHistory I exc hs s).outcome=(tryMatchStarHandlers I exc hs s).1 ∧
    (Delivered m hs (leaves exc) (starHistory I exc hs s) ↔
      Undivided I m exc.message hs (members exc) s) ∧
    (SplitExact I.payload reg names exc ↔ ∀l ∈ leaves exc,
      names.any (builtinExceptionIssubclass l.typeName)=
        names.any (reg.isSubclass l.typeName)) := by
  refine ⟨outcome_history I _ hs _ false I.none s,?_,splitExact_iff I.payload reg names exc⟩
  rw [← leavesOf_members]
  exact delivered_iff I exc.message hm (members exc) false I.none s

/-- `except* T:` with the given body. -/
def catches (name : String) (body : Part Unit String (List String)) :
    Handler Unit String (List String) :=
  ⟨some fun s => (.ok name,s),none,body⟩

def matchesBlank (h : Handler Unit String (List String)) (x : ExceptionValue Unit) : Bool :=
  match (matchesHandler logging h x blank).1 with
  | .ok b => b
  | .error _ => false

def valueError : ExceptionValue Unit := .leaf "ValueError" "" ()

def keyError : ExceptionValue Unit := .leaf "KeyError" "" ()

def pair : ExceptionValue Unit := .group "ExceptionGroup" "" () [valueError,keyError]

/-- `except* ValueError` and `except* KeyError` share the pair. -/
theorem groups_conserved_pair :
    Delivered matchesBlank [catches "ValueError" (logs "1"),catches "KeyError" (logs "2")]
      (leaves pair)
      (starHistory logging pair [catches "ValueError" (logs "1"),catches "KeyError" (logs "2")]
        blank) := by
  refine (groups_conserved_iff logging pair
    [catches "ValueError" (logs "1"),catches "KeyError" (logs "2")] matchesBlank ?_ blank
    (logging.classes []) []).2.1.mpr ?_
  · intro h hh x s
    simp only [List.mem_cons,List.not_mem_nil,or_false] at hh
    rcases hh with rfl | rfl <;> rfl
  · refine ⟨?_,?_,trivial⟩
    · decide
    · decide

def raisesRuntime : Part Unit String (List String) :=
  fun s => (.error (.exception (.leaf "RuntimeError" "" ())),s)

/-- A leaf inside a nested group is not handed to the handler that matches it, and what is left is
lost when a handler raises. -/
theorem leaves_lost :
    ¬Delivered matchesBlank [catches "ValueError" (logs "1")] [valueError]
      (starHistory logging (.group "ExceptionGroup" "" () [.group "ExceptionGroup" "" () [valueError]])
        [catches "ValueError" (logs "1")] blank) ∧
    ((outcomeLeaves (starHistory logging pair [catches "ValueError" raisesRuntime]
      blank).outcome).map ExceptionValue.typeName=["RuntimeError"] ∧
    ¬Delivered matchesBlank [catches "ValueError" raisesRuntime] (leaves pair)
      (starHistory logging pair [catches "ValueError" raisesRuntime] blank)) := by
  refine ⟨fun h => ?_,rfl,fun h => ?_⟩
  · have hgot : []=[valueError] := h.1
    cases hgot
  · have hlen := h.2.length_eq
    cases hlen

end Claim

end InterpretThis.Exceptions
