import InterpretThis.State.Wire
import InterpretThis.State.RoundTrip

namespace InterpretThis

open Json

section Sizes

theorem estimateValues_perm {xs ys : List Value} (h : xs.Perm ys) :
    estimateValues xs=estimateValues ys := by
  induction h with
  | nil => rfl
  | cons x _ ih => rw [estimateValues,estimateValues,ih]
  | swap x y l =>
    simp only [estimateValues]
    omega
  | trans _ _ ih ih' => exact ih.trans ih'

mutual

/-- A value that is alike takes as much memory. -/
theorem estimate_alike (v w : Value) (h : Alike v w) : estimateValueSize v=estimateValueSize w := by
  cases v with
  | float f =>
    cases w with
    | float g => rfl
    | _ => exact h.elim
  | list i xs =>
    cases w with
    | list j ys =>
      obtain ⟨hlen,hsize⟩ := estimates_alike xs ys h
      simp only [estimateValueSize,hlen,hsize]
    | _ => exact h.elim
  | tuple xs =>
    cases w with
    | tuple ys =>
      obtain ⟨hlen,hsize⟩ := estimates_alike xs ys h
      simp only [estimateValueSize,hlen,hsize]
    | _ => exact h.elim
  | dict i xs =>
    cases w with
    | dict j ys =>
      obtain ⟨hlen,hsize⟩ := estimateEntries_alike xs ys h
      simp only [estimateValueSize,hlen,hsize]
    | _ => exact h.elim
  | set xs =>
    cases w with
    | set ys =>
      obtain ⟨zs,halike,hp⟩ := h
      obtain ⟨hlen,hsize⟩ := estimates_alike xs zs halike
      simp only [estimateValueSize,hlen,hsize,hp.length_eq,estimateValues_perm hp]
    | _ => exact h.elim
  | frozenset xs =>
    cases w with
    | frozenset ys =>
      obtain ⟨zs,halike,hp⟩ := h
      obtain ⟨hlen,hsize⟩ := estimates_alike xs zs halike
      simp only [estimateValueSize,hlen,hsize,hp.length_eq,estimateValues_perm hp]
    | _ => exact h.elim
  | _ => exact h ▸ rfl

theorem estimates_alike (xs ys : List Value) (h : AlikeAll xs ys) :
    xs.length=ys.length ∧ estimateValues xs=estimateValues ys := by
  cases xs with
  | nil =>
    rw [h]
    exact ⟨rfl,rfl⟩
  | cons x xs =>
    cases ys with
    | nil => exact h.elim
    | cons y ys =>
      have hone := estimate_alike x y h.1
      obtain ⟨hlen,hsize⟩ := estimates_alike xs ys h.2
      exact ⟨by simp [hlen],by simp only [estimateValues,hone,hsize]⟩

theorem estimateEntries_alike (xs ys : List (ValueKey×Value)) (h : AlikeEntries xs ys) :
    xs.length=ys.length ∧ estimateEntries xs=estimateEntries ys := by
  cases xs with
  | nil =>
    rw [h]
    exact ⟨rfl,rfl⟩
  | cons x xs =>
    obtain ⟨k,v⟩ := x
    cases ys with
    | nil => exact h.elim
    | cons y ys =>
      obtain ⟨l,w⟩ := y
      obtain ⟨hkey,hvalue,hrest⟩ := h
      have hone := estimate_alike v w hvalue
      obtain ⟨hlen,hsize⟩ := estimateEntries_alike xs ys hrest
      exact ⟨by simp [hlen],by simp only [estimateEntries,hkey,hone,hsize]⟩

end

end Sizes

section Maps

theorem mapInsert_fresh {β : Type} (k : String) (v : β) (m : List (String×β))
    (h : k∉m.map Prod.fst) : mapInsert k v m=m++[(k,v)] := by
  induction m with
  | nil => rfl
  | cons e m ih =>
    simp only [List.map_cons,List.mem_cons,not_or] at h
    have hne : ¬e.1=k := fun he => h.1 he.symm
    simp only [mapInsert,hne,if_false,ih h.2,List.cons_append]

theorem insertAll_nodup {β : Type} (entries : List (String×β)) (h : (entries.map Prod.fst).Nodup) :
    insertAll [] entries=entries := by
  have hfold : ∀(acc rest : List (String×β)), ((acc++rest).map Prod.fst).Nodup →
      insertAll acc rest=acc++rest := by
    intro acc rest hn
    induction rest generalizing acc with
    | nil => simp [insertAll]
    | cons e rest ih =>
      have hfresh : e.1∉acc.map Prod.fst := by
        rw [List.map_append,List.map_cons] at hn
        intro hin
        exact (List.disjoint_of_nodup_append hn) hin List.mem_cons_self
      have hnext := ih (acc++[e]) (by simpa using hn)
      simp only [insertAll,List.foldl_cons] at hnext ⊢
      rw [mapInsert_fresh e.1 e.2 acc hfresh]
      simpa using hnext
  exact hfold [] entries h

theorem lookup_of_mem {β : Type} {m : List (String×β)} (h : (m.map Prod.fst).Nodup) {n : String}
    {v : β} (hm : (n,v)∈m) : m.lookup n=some v := by
  induction m with
  | nil => cases hm
  | cons e m ih =>
    obtain ⟨k,w⟩ := e
    obtain ⟨hk,hrest⟩ := List.nodup_cons.mp h
    rcases List.mem_cons.mp hm with heq | hin
    · obtain ⟨rfl,rfl⟩ := Prod.mk.inj heq
      simp
    · have hne : n≠k := by
        rintro rfl
        exact hk (List.mem_map.mpr ⟨(n,v),hin,rfl⟩)
      rw [List.lookup_cons,beq_eq_false_iff_ne.mpr hne]
      exact ih hrest hin

theorem forall₂_mem_left {α β : Type} {R : α → β → Prop} {xs : List α} {ys : List β}
    (h : List.Forall₂ R xs ys) : ∀x∈xs, ∃y∈ys, R x y := by
  have hflip : List.Forall₂ (fun y x => R x y) ys xs := h.flip
  exact Matching.forall₂_mem_right hflip

end Maps

section Fields

variable (ext : Externals)

/-- Named values beside what they are restored to. -/
def AlikeFields (es fs : List (String×Value)) : Prop :=
  List.Forall₂ (fun e f => e.1=f.1 ∧ Alike e.2 f.2) es fs

theorem AlikeFields.keys {es fs : List (String×Value)} (h : AlikeFields es fs) :
    es.map Prod.fst=fs.map Prod.fst := by
  apply Matching.map_eq_of_forall₂
  exact h.imp (fun _ _ hr => hr.1)

theorem AlikeFields.sizes {es fs : List (String×Value)} (h : AlikeFields es fs) :
    es.map (fun e => estimateValueSize e.2)=fs.map (fun e => estimateValueSize e.2) := by
  apply Matching.map_eq_of_forall₂
  exact h.imp (fun e f hr => estimate_alike e.2 f.2 hr.2)

/-- Reading named values keeps their names. -/
theorem fields_keys (es : List (String×Value)) (fs : List (String×Value))
    (h : fieldsOfJson ext (fieldsJson ext es)=.ok fs) : es.map Prod.fst=fs.map Prod.fst := by
  induction es generalizing fs with
  | nil =>
    simp only [fieldsJson,fieldsOfJson] at h
    cases h
    rfl
  | cons e es ih =>
    simp only [fieldsJson,fieldsOfJson] at h
    cases hv : valueOfJson ext (valueJson ext e.2) with
    | error err =>
      rw [hv] at h
      cases h
    | ok w =>
      cases hr : fieldsOfJson ext (fieldsJson ext es) with
      | error err =>
        rw [hv,hr] at h
        cases h
      | ok rest =>
        rw [hv,hr] at h
        cases h
        rw [List.map_cons,List.map_cons,ih rest hr]

theorem fields_restore (es : List (String×Value)) (hs : ∀e∈es, Stored ext e.2)
    (hf : ∀e∈es, nonFinite e.2=false) :
    ∃fs, fieldsOfJson ext (fieldsJson ext es)=.ok fs ∧ AlikeFields es fs := by
  induction es with
  | nil => exact ⟨[],by simp only [fieldsJson,fieldsOfJson],.nil⟩
  | cons e es ih =>
    obtain ⟨w,hw,halike⟩ := value_restores ext e.2 (hs e List.mem_cons_self) (hf e List.mem_cons_self)
    obtain ⟨fs,hfs,hrest⟩ := ih (fun e' he => hs e' (List.mem_cons_of_mem e he))
      (fun e' he => hf e' (List.mem_cons_of_mem e he))
    refine ⟨(e.1,w)::fs,?_,.cons ⟨rfl,halike⟩ hrest⟩
    simp only [fieldsJson,fieldsOfJson,hw,hfs]
    rfl

/-- One named value that is lost makes all of them undecodable. -/
theorem fields_lost (es : List (String×Value)) (fs : List (String×Value))
    (h : fieldsOfJson ext (fieldsJson ext es)=.ok fs) : ∀e∈es, nonFinite e.2=false := by
  induction es generalizing fs with
  | nil => exact fun e he => absurd he List.not_mem_nil
  | cons e es ih =>
    simp only [fieldsJson,fieldsOfJson] at h
    cases hv : valueOfJson ext (valueJson ext e.2) with
    | error err =>
      rw [hv] at h
      cases h
    | ok w =>
      cases hr : fieldsOfJson ext (fieldsJson ext es) with
      | error err =>
        rw [hv,hr] at h
        cases h
      | ok rest =>
        intro e' he'
        rcases List.mem_cons.mp he' with rfl | hin
        · by_contra hlost
          obtain ⟨err,herr⟩ := value_lost ext e'.2 (by simpa using hlost)
          rw [hv] at herr
          cases herr
        · exact ih rest hr e' hin

end Fields

section Decoding

variable (codec : JsonCodec) (ext : Externals)

theorem stateOfJson_stateJson (s : SerializedState) :
    stateOfJson ext (stateJson ext s)=
      (fieldsOfJson ext (fieldsJson ext s.vars)).bind fun vars =>
        (asMap (classOfJson ext) (ofMap (classJson ext) s.classes)).map fun classes =>
          ⟨insertAll [] vars,classes⟩ := by
  simp only [stateJson,stateOfJson,field,getField,if_true,Except.bind,mapOfJson]
  cases fieldsOfJson ext (fieldsJson ext s.vars) with
  | error e => rfl
  | ok vars =>
    cases hc : asMap (classOfJson ext) (ofMap (classJson ext) s.classes) with
    | error e => simp [Except.map,hc]; rfl
    | ok classes => simp [Except.map,hc]; rfl

theorem u32_roundTrip : u32FromLe (u32ToLe stateFormatVersion)=stateFormatVersion := by decide

variable (suiteParse : String → Except String (List Stmt))

/-- A blob with the version prefix and an admissible size is judged by its document. -/
theorem validate_blob (decode : List UInt8 → Except String SerializedState) (body : List UInt8)
    (hsize : (u32ToLe stateFormatVersion++body).length ≤ maxImportSize) :
    validate decode suiteParse (u32ToLe stateFormatVersion++body)=
      match decode body with
      | .error e => .error (.runtime ("failed to deserialize state: "++e))
      | .ok serialized =>
        match dangerousName serialized.vars with
        | some key =>
          .error (.security ("imported state contains dangerous variable name '"++key++"'"))
        | none => do
          let bodies ← restoredBodies suiteParse serialized.vars
          let methods ← restoredMethodBodies suiteParse serialized.classes
          return ⟨serialized.vars,serialized.classes,bodies++methods⟩ := by
  have hlength : (u32ToLe stateFormatVersion).length=versionPrefixSize := rfl
  have htake : (u32ToLe stateFormatVersion++body).take versionPrefixSize=
      u32ToLe stateFormatVersion := by
    rw [← hlength,List.take_left]
  have hdrop : (u32ToLe stateFormatVersion++body).drop versionPrefixSize=body := by
    rw [← hlength,List.drop_left]
  have hshort : ¬(u32ToLe stateFormatVersion++body).length<versionPrefixSize := by
    rw [List.length_append,hlength]
    omega
  simp only [validate,htake,hdrop,u32_roundTrip,if_neg (Nat.not_lt.mpr hsize),if_neg hshort,ne_eq,
    not_true_eq_false,if_false] <;> rfl

end Decoding

section Import

variable (codec : JsonCodec) (ext : Externals) (suiteParse : String → Except String (List Stmt))
  (order : HashOrder)

def isCallable : Value → Bool
  | .function _ _ => true
  | .lambda _ _ => true
  | _ => false

theorem alike_plain {v w : Value} (hs : Stored ext v) (h : Alike v w) : isCallable w=false := by
  cases v with
  | float f => cases w <;> first | rfl | exact h.elim
  | list i xs => cases w <;> first | rfl | exact h.elim
  | tuple xs => cases w <;> first | rfl | exact h.elim
  | dict i xs => cases w <;> first | rfl | exact h.elim
  | set xs => cases w <;> first | rfl | exact h.elim
  | frozenset xs => cases w <;> first | rfl | exact h.elim
  | none => exact h ▸ rfl
  | bool b => exact h ▸ rfl
  | int i => exact h ▸ rfl
  | bigInt i => exact h ▸ rfl
  | string s => exact h ▸ rfl
  | bytes b => exact h ▸ rfl
  | _ => exact hs.elim

theorem restoredBodies_plain (vars : List (String×Value)) (h : ∀e∈vars, isCallable e.2=false) :
    restoredBodies suiteParse vars=.ok [] := by
  induction vars with
  | nil => rfl
  | cons e vars ih =>
    obtain ⟨n,v⟩ := e
    have hv := h (n,v) List.mem_cons_self
    have hrest := ih (fun e' he => h e' (List.mem_cons_of_mem _ he))
    cases v <;> first | exact hrest | cases hv

theorem restoreLambdas_plain (vars : List (String×Value)) (s : InterpreterState)
    (h : ∀e∈vars, isCallable e.2=false) : restoreLambdas suiteParse vars s=(.ok (),s) := by
  induction vars with
  | nil => rfl
  | cons e vars ih =>
    obtain ⟨n,v⟩ := e
    have hv := h (n,v) List.mem_cons_self
    have hrest := ih (fun e' he => h e' (List.mem_cons_of_mem _ he))
    cases v <;> first | exact hrest | cases hv

/-- The state that an import of plain data leaves behind. -/
def importedState (vars : List (String×Value)) (classes : List (String×ClassValue))
    (bodies : List (String×List Stmt)) (s : InterpreterState) : InterpreterState :=
  {commit order ⟨vars,classes,bodies⟩ s with memoryUsedBytes := totalSize (order.collect vars)}

theorem import_plain {body : List UInt8} {vars : List (String×Value)}
    {classes : List (String×ClassValue)} {bodies : List (String×List Stmt)} (s : InterpreterState)
    (decode : List UInt8 → Except String SerializedState)
    (hsize : (u32ToLe stateFormatVersion++body).length ≤ maxImportSize)
    (hdecode : decode body=.ok ⟨vars,classes⟩) (hnames : dangerousName vars=none)
    (hplain : ∀e∈vars, isCallable e.2=false)
    (hmethods : restoredMethodBodies suiteParse classes=.ok bodies) :
    importState decode suiteParse order s (u32ToLe stateFormatVersion++body)=
      (checkMemory (importedState order vars classes bodies s),
        importedState order vars classes bodies s) := by
  have hvalid : validate decode suiteParse (u32ToLe stateFormatVersion++body)=
      .ok ⟨vars,classes,bodies⟩ := by
    rw [validate_blob suiteParse decode body hsize,hdecode]
    simp only [hnames,restoredBodies_plain suiteParse vars hplain,hmethods]
    rfl
  have hcollected : ∀e∈order.collect vars, isCallable e.2=false :=
    fun e he => hplain e ((order.perm vars).mem_iff.mp he)
  have hlambdas := restoreLambdas_plain suiteParse (commit order ⟨vars,classes,bodies⟩ s).vars
    (commit order ⟨vars,classes,bodies⟩ s) hcollected
  simp only [importState,hvalid,restore,hlambdas]
  rfl

end Import

section Portability

variable (codec : JsonCodec) (ext : Externals) (suiteParse : String → Except String (List Stmt))
  (order : HashOrder)

def isPublic (name : String) : Bool := !isInternal name&&isNameAllowed name

/-- The registered classes are read back, and their methods parse again. -/
def ClassesReturn (classes : List (String×ClassValue)) : Prop :=
  ∃cs bodies, asMap (classOfJson ext) (ofMap (classJson ext) classes)=.ok cs ∧
    restoredMethodBodies suiteParse cs=.ok bodies

/-- What a state needs to survive an export and import. -/
structure Portable (s : InterpreterState) : Prop where
  accepted : codec.Accepts (stateJson ext (exported s))
  finite : ∀e∈(exported s).vars, nonFinite e.2=false
  allowed : ∀e∈(exported s).vars, isNameAllowed e.1=true
  classes : ClassesReturn ext suiteParse (exported s).classes
  memory : totalSize (exported s).vars≤ min s.maxMemoryBytes usizeMax

/-- The import succeeds and binds every public variable to a value that is alike. -/
def Survives (s : InterpreterState) (blob : List UInt8) : Prop :=
  (importState (decodeState codec ext) suiteParse order (.fresh s.maxMemoryBytes) blob).1=.ok () ∧
  ∀n v, (n,v)∈s.vars → isPublic n=true → ∃w, Alike v w ∧
    List.lookup n (importState (decodeState codec ext) suiteParse order (.fresh s.maxMemoryBytes)
      blob).2.vars=some w

variable {ext} {s : InterpreterState}

theorem exported_perm (s : InterpreterState) : (exported s).vars.Perm
    (s.vars.filter fun e => !isInternal e.1&& !isLazyProxy e.2) :=
  List.mergeSort_perm _ _

theorem exported_nodup (hkeys : (s.vars.map Prod.fst).Nodup) :
    ((exported s).vars.map Prod.fst).Nodup := by
  have hperm := (exported_perm s).map Prod.fst
  rw [hperm.nodup_iff]
  exact hkeys.sublist (List.filter_sublist.map _)

theorem exported_mem {n : String} {v : Value} (hm : (n,v)∈s.vars) (hn : isPublic n=true)
    (hv : Stored ext v) : (n,v)∈(exported s).vars := by
  rw [(exported_perm s).mem_iff,List.mem_filter]
  have hinternal : isInternal n=false := by
    simpa using (Bool.and_eq_true_iff.mp hn).1
  have hproxy : isLazyProxy v=false := by
    cases v <;> first | rfl | exact hv.elim
  exact ⟨hm,by simp [hinternal,hproxy]⟩

theorem exported_stored (hdata : ∀e∈s.vars, isPublic e.1=true → Stored ext e.2)
    {e : String×Value} (he : e∈(exported s).vars) (hn : isNameAllowed e.1=true) :
    Stored ext e.2 := by
  rw [(exported_perm s).mem_iff,List.mem_filter] at he
  have hinternal : isInternal e.1=false := by
    simpa using (Bool.and_eq_true_iff.mp he.2).1
  exact hdata e he.1 (by simp [isPublic,hinternal,hn])

theorem dangerousName_none {vars : List (String×Value)} :
    dangerousName vars=none ↔ ∀n∈vars.map Prod.fst, isNameAllowed n=true := by
  simp [dangerousName,List.find?_eq_none]

theorem collect_sizes {es fs : List (String×Value)} (h : AlikeFields es fs) :
    totalSize (order.collect fs)=totalSize es := by
  have hperm := ((order.perm fs).map (fun e => estimateValueSize e.2)).sum_eq
  rw [totalSize_eq,totalSize_eq,hperm,h.sizes]

theorem exportState_blob {blob : List UInt8} (h : exportState codec ext s=.ok blob) :
    blob=u32ToLe stateFormatVersion++codec.toVec (stateJson ext (exported s)) := by
  simp only [exportState] at h
  split at h
  · cases h
  · exact (Except.ok.inj h).symm

theorem decode_exported (hkeys : (s.vars.map Prod.fst).Nodup)
    (hdata : ∀e∈s.vars, isPublic e.1=true → Stored ext e.2)
    (haccepts : codec.Accepts (stateJson ext (exported s)))
    (hfinite : ∀e∈(exported s).vars, nonFinite e.2=false)
    (hallowed : ∀e∈(exported s).vars, isNameAllowed e.1=true)
    {cs : List (String×ClassValue)}
    (hcs : asMap (classOfJson ext) (ofMap (classJson ext) (exported s).classes)=.ok cs) :
    ∃fs, AlikeFields (exported s).vars fs ∧
      decodeState codec ext (codec.toVec (stateJson ext (exported s)))=.ok ⟨fs,cs⟩ := by
  have hstored : ∀e∈(exported s).vars, Stored ext e.2 :=
    fun e he => exported_stored hdata he (hallowed e he)
  obtain ⟨fs,hfs,halike⟩ := fields_restore ext _ hstored hfinite
  have hnodup : (fs.map Prod.fst).Nodup := halike.keys ▸ exported_nodup hkeys
  refine ⟨fs,halike,?_⟩
  simp only [decodeState,codec.roundTrip _ haccepts,Except.bind,stateOfJson_stateJson,hfs,hcs,
    Except.map,insertAll_nodup fs hnodup]

/-- The result of importing what was exported, once the blob is decoded. -/
theorem import_exported (hdata : ∀e∈s.vars, isPublic e.1=true → Stored ext e.2)
    (hallowed : ∀e∈(exported s).vars, isNameAllowed e.1=true) {fs : List (String×Value)}
    {cs : List (String×ClassValue)} {bodies : List (String×List Stmt)} {body : List UInt8}
    (hsize : (u32ToLe stateFormatVersion++body).length ≤ maxImportSize)
    (halike : AlikeFields (exported s).vars fs)
    (hdecode : decodeState codec ext body=.ok ⟨fs,cs⟩)
    (hbodies : restoredMethodBodies suiteParse cs=.ok bodies) :
    importState (decodeState codec ext) suiteParse order (.fresh s.maxMemoryBytes)
        (u32ToLe stateFormatVersion++body)=
      (checkMemory (importedState order fs cs bodies (.fresh s.maxMemoryBytes)),
        importedState order fs cs bodies (.fresh s.maxMemoryBytes)) := by
  have hnames : dangerousName fs=none := by
    rw [dangerousName_none,← halike.keys]
    intro n hn
    obtain ⟨e,he,rfl⟩ := List.mem_map.mp hn
    exact hallowed e he
  have hplain : ∀f∈fs, isCallable f.2=false := by
    intro f hf
    obtain ⟨e,he,hr⟩ := Matching.forall₂_mem_right halike f hf
    exact alike_plain ext (exported_stored hdata he (hallowed e he)) hr.2
  exact import_plain suiteParse order _ _ hsize hdecode hnames hplain hbodies

theorem checkMemory_imported {fs : List (String×Value)} {cs : List (String×ClassValue)}
    {bodies : List (String×List Stmt)} (halike : AlikeFields (exported s).vars fs) :
    checkMemory (importedState order fs cs bodies (.fresh s.maxMemoryBytes))=.ok () ↔
      totalSize (exported s).vars≤ min s.maxMemoryBytes usizeMax := by
  simp only [checkMemory,importedState,commit,InterpreterState.fresh,collect_sizes order halike]
  split
  · next hover =>
    constructor
    · intro h
      cases h
    · intro h
      omega
  · next hfits =>
    constructor
    · intro _
      omega
    · intro _
      rfl

theorem portable_survives (hkeys : (s.vars.map Prod.fst).Nodup)
    (hdata : ∀e∈s.vars, isPublic e.1=true → Stored ext e.2) {blob : List UInt8}
    (hblob : blob=u32ToLe stateFormatVersion++codec.toVec (stateJson ext (exported s)))
    (hsize : blob.length ≤ maxImportSize) (h : Portable codec ext suiteParse s) :
    Survives codec ext suiteParse order s blob := by
  subst hblob
  obtain ⟨cs,bodies,hcs,hbodies⟩ := h.classes
  obtain ⟨fs,halike,hdecode⟩ := decode_exported codec hkeys hdata h.accepted h.finite h.allowed hcs
  have himport := import_exported codec suiteParse order hdata h.allowed hsize halike hdecode hbodies
  simp only [Survives,himport]
  refine ⟨(checkMemory_imported order halike).mpr h.memory,fun n v hm hn => ?_⟩
  have hin := exported_mem hm hn (hdata (n,v) hm hn)
  obtain ⟨f,hf,hname,hvalue⟩ := forall₂_mem_left halike (n,v) hin
  have hnodup : ((order.collect fs).map Prod.fst).Nodup := by
    rw [((order.perm fs).map Prod.fst).nodup_iff,← halike.keys]
    exact exported_nodup hkeys
  have hmem : (n,f.2)∈order.collect fs := by
    rw [(order.perm fs).mem_iff]
    have hpair : f=(n,f.2) := Prod.ext hname.symm rfl
    exact hpair ▸ hf
  exact ⟨f.2,hvalue,lookup_of_mem hnodup hmem⟩

/-- What a successful import has found in the blob. -/
theorem import_ok {decode : List UInt8 → Except String SerializedState} {body : List UInt8}
    {t : InterpreterState} (hsize : (u32ToLe stateFormatVersion++body).length ≤ maxImportSize)
    (hok : (importState decode suiteParse order t (u32ToLe stateFormatVersion++body)).1=.ok ()) :
    ∃vars classes bodies, decode body=.ok ⟨vars,classes⟩ ∧ dangerousName vars=none ∧
      restoredMethodBodies suiteParse classes=.ok bodies := by
  have hvalid := validate_blob suiteParse decode body hsize
  cases hd : decode body with
  | error e =>
    simp only [importState,hvalid,hd] at hok
    cases hok
  | ok serialized =>
    obtain ⟨vars,classes⟩ := serialized
    cases hn : dangerousName vars with
    | some key =>
      simp only [importState,hvalid,hd,hn] at hok
      cases hok
    | none =>
      cases hm : restoredMethodBodies suiteParse classes with
      | ok bodies => exact ⟨vars,classes,bodies,rfl,hn,hm⟩
      | error e =>
        have herror : ∃e', validate decode suiteParse (u32ToLe stateFormatVersion++body)=.error e' := by
          rw [hvalid,hd]
          simp only [hn,hm]
          cases restoredBodies suiteParse vars with
          | error e' => exact ⟨e',rfl⟩
          | ok bodies => exact ⟨e,rfl⟩
        obtain ⟨e',he'⟩ := herror
        simp only [importState,he'] at hok
        cases hok

/-- What a decoded document says of the codec and of its two parts. -/
theorem decodeState_ok {st : SerializedState} {vars : List (String×Value)}
    {classes : List (String×ClassValue)}
    (h : decodeState codec ext (codec.toVec (stateJson ext st))=.ok ⟨vars,classes⟩) :
    codec.Accepts (stateJson ext st) ∧ ∃fs, fieldsOfJson ext (fieldsJson ext st.vars)=.ok fs ∧
      vars=insertAll [] fs ∧ asMap (classOfJson ext) (ofMap (classJson ext) st.classes)=.ok classes := by
  have haccepts : codec.Accepts (stateJson ext st) := by
    by_contra hno
    obtain ⟨e,he⟩ := codec.rejects _ hno
    simp only [decodeState,he,Except.bind] at h
    cases h
  simp only [decodeState,codec.roundTrip _ haccepts,Except.bind,stateOfJson_stateJson] at h
  cases hfs : fieldsOfJson ext (fieldsJson ext st.vars) with
  | error e =>
    rw [hfs] at h
    cases h
  | ok fs =>
    cases hcs : asMap (classOfJson ext) (ofMap (classJson ext) st.classes) with
    | error e =>
      rw [hfs,hcs] at h
      cases h
    | ok cs =>
      rw [hfs,hcs] at h
      cases h
      exact ⟨haccepts,fs,rfl,rfl,rfl⟩

theorem survives_portable (hkeys : (s.vars.map Prod.fst).Nodup)
    (hdata : ∀e∈s.vars, isPublic e.1=true → Stored ext e.2) {blob : List UInt8}
    (hblob : blob=u32ToLe stateFormatVersion++codec.toVec (stateJson ext (exported s)))
    (hsize : blob.length ≤ maxImportSize) (h : Survives codec ext suiteParse order s blob) :
    Portable codec ext suiteParse s := by
  subst hblob
  have hok := h.1
  obtain ⟨vars,cs,bodies,hdecoded,hdanger,hbodies⟩ := import_ok suiteParse order hsize hok
  obtain ⟨haccepts,fs,hfs,rfl,hcs⟩ := decodeState_ok codec hdecoded
  have hfields := fields_keys ext _ fs hfs
  have hnodup : (fs.map Prod.fst).Nodup := hfields ▸ exported_nodup hkeys
  have hallowed : ∀e∈(exported s).vars, isNameAllowed e.1=true := by
    rw [insertAll_nodup fs hnodup,dangerousName_none,← hfields] at hdanger
    exact fun e he => hdanger e.1 (List.mem_map.mpr ⟨e,he,rfl⟩)
  have hfinite := fields_lost ext _ fs hfs
  obtain ⟨fs',halike,hdecode⟩ := decode_exported codec hkeys hdata haccepts hfinite hallowed hcs
  have himport := import_exported codec suiteParse order hdata hallowed hsize halike hdecode hbodies
  rw [himport] at hok
  exact ⟨haccepts,hfinite,hallowed,⟨cs,bodies,hcs,hbodies⟩,
    (checkMemory_imported order halike).mp hok⟩

/-- For a state whose public variables are plain data, what was exported is imported without loss
exactly if the state is portable: above all, no float in it is an infinity or a NaN. -/
theorem export_survives (hkeys : (s.vars.map Prod.fst).Nodup)
    (hdata : ∀e∈s.vars, isPublic e.1=true → Stored ext e.2) {blob : List UInt8}
    (hexport : exportState codec ext s=.ok blob) (hsize : blob.length ≤ maxImportSize) :
    Survives codec ext suiteParse order s blob ↔ Portable codec ext suiteParse s := by
  have hblob := exportState_blob codec hexport
  exact ⟨survives_portable codec suiteParse order hkeys hdata hblob hsize,
    portable_survives codec suiteParse order hkeys hdata hblob hsize⟩

end Portability

section Samples

/-- The document of a state whose only variable is `x`. -/
def sampleDocument (value : Json) : Json :=
  .obj [("variables",.obj [("x",value)]),("classes",.obj [])]

/-- Its text, from the text of the value. -/
def sampleText (value : String) : List UInt8 :=
  ("\x7b\"variables\":\x7b\"x\":"++value++"\x7d,\"classes\":\x7b\x7d\x7d").toList.map
    (fun c => UInt8.ofNat c.toNat)

def oneAndHalf : F64 := ⟨0x3FF8000000000000⟩

/-- `[1.5, {'a': {1, 2}}]`. -/
def nested : Value :=
  .list 0 [.float oneAndHalf,.dict 1 [(.string "a",.set [.int 1,.int 2])]]

def nestedJson (f : F64) : Json :=
  .obj [("List",.arr [.obj [("Float",.float f)],.obj [("Dict",.arr [.arr
    [.obj [("String",.str "a")],.obj [("Set",.arr [.obj [("Int",.int 1)],.obj [("Int",.int 2)]])]]])]])]

def nestedText : List UInt8 :=
  sampleText ("\x7b\"List\":[\x7b\"Float\":1.5\x7d,\x7b\"Dict\":[[\x7b\"String\":\"a\"\x7d,"++
    "\x7b\"Set\":[\x7b\"Int\":1\x7d,\x7b\"Int\":2\x7d]\x7d]]\x7d]\x7d")

def nullText : List UInt8 := sampleText "\x7b\"Float\":null\x7d"

def sampleWrite : Json → List UInt8
  | .obj [("variables",.obj [("x",.obj [("List",.arr [.obj [("Float",.float f)],.obj [("Dict",.arr
      [.arr [.obj [("String",.str "a")],.obj [("Set",.arr [.obj [("Int",.int 1)],
        .obj [("Int",.int 2)]])]]])]])])]),("classes",.obj [])] =>
    if f=oneAndHalf then nestedText else []
  | .obj [("variables",.obj [("x",.obj [("Float",.null)])]),("classes",.obj [])] => nullText
  | _ => []

def sampleRead (text : List UInt8) : Except String Json :=
  if text=nestedText then .ok (sampleDocument (nestedJson oneAndHalf))
  else if text=nullText then .ok (sampleDocument (.obj [("Float",.null)]))
  else .error "EOF while parsing a value"

set_option maxRecDepth 4000 in
theorem sampleRead_write (j : Json) (h : sampleWrite j≠[]) : sampleRead (sampleWrite j)=.ok j := by
  simp only [sampleWrite] at h ⊢
  split at h
  · split at h
    · next hf =>
      rw [hf]
      rfl
    · exact absurd rfl h
  · have hne : nullText≠nestedText := fun h => absurd (congrArg List.length h) (by decide)
    simp only [sampleRead,if_neg hne,if_true]
    rfl
  · exact absurd rfl h

set_option maxRecDepth 4000 in
/-- A codec on the documents of two states. -/
def sampleCodec : JsonCodec where
  toVec := sampleWrite
  fromSlice := sampleRead
  Accepts j := sampleWrite j≠[]
  roundTrip := sampleRead_write
  rejects j h := by
    have hnil : sampleWrite j=[] := by simpa using h
    exact ⟨_,by rw [hnil]; rfl⟩

/-- The two states hold nothing that these functions are asked about. -/
def sampleExternals : Externals where
  sip _ := 0
  finish _ := 0
  hasher _ := 0
  decimalText _ := ""
  decimalOf _ := none
  dateText _ := ""
  dateOf _ := none
  timeText _ := ""
  timeOf _ := none
  dateTimeText _ := ""
  dateTimeOf _ := none

def noParse (_ : String) : Except String (List Stmt) := .error "unexpected EOF"

theorem perm_id (l : List (String×Value)) : (id l).Perm l := .refl l

def insertionOrder : HashOrder := ⟨id,perm_id⟩

/-- `x = value`. -/
def sampleState (value : Value) : InterpreterState :=
  {InterpreterState.fresh 1000 with vars := [("x",value)]}

theorem exported_sample (value : Value) (h : isLazyProxy value=false) :
    exported (sampleState value)=⟨[("x",value)],[]⟩ := by
  have hname : isInternal "x"=false := by decide
  simp [exported,btree,sampleState,InterpreterState.fresh,hname,h]

set_option maxRecDepth 4000 in
theorem export_survives_nested :
    Survives sampleCodec sampleExternals noParse insertionOrder (sampleState nested)
      (u32ToLe stateFormatVersion++nestedText) := by
  have hexported := exported_sample nested rfl
  have hwritten : sampleWrite (stateJson sampleExternals ⟨[("x",nested)],[]⟩)=nestedText := rfl
  have hexport : exportState sampleCodec sampleExternals (sampleState nested)=
      .ok (u32ToLe stateFormatVersion++nestedText) := by
    simp only [exportState,hexported]
    rfl
  refine (export_survives sampleCodec noParse insertionOrder (s := sampleState nested)
    (by simp [sampleState]) ?_ hexport (by decide)).mpr ⟨?_,?_,?_,?_,?_⟩
  · intro e he _
    rw [List.mem_singleton.mp he]
    have members : [Value.int 1,.int 2].Pairwise (Distinct sampleExternals) := by
      refine .cons ?_ (.cons (fun _ h => nomatch h) .nil)
      intro v hv
      rw [List.mem_singleton.mp hv]
      exact fun same => absurd same.1 (by decide)
    exact ⟨trivial,⟨⟨rfl,⟨⟨trivial,trivial,trivial⟩,rfl,members⟩,trivial⟩,
      .cons (fun _ h => nomatch h) .nil⟩,trivial⟩
  · rw [hexported]
    show sampleWrite _≠[]
    rw [hwritten]
    decide
  · rw [hexported]
    intro e he
    rw [List.mem_singleton.mp he]
    rfl
  · rw [hexported]
    intro e he
    rw [List.mem_singleton.mp he]
    decide
  · rw [hexported]
    exact ⟨[],[],rfl,rfl⟩
  · rw [hexported]
    decide

/-- `float('inf')`. -/
def infinity : F64 := ⟨0x7FF0000000000000⟩

/-- `x = float('inf')` is exported as `null`, and the import refuses it. -/
theorem infinity_not_imported :
    exportState sampleCodec sampleExternals (sampleState (.float infinity))=
      .ok (u32ToLe stateFormatVersion++nullText) ∧
    (u32ToLe stateFormatVersion++nullText).length ≤ maxImportSize ∧
    Stored sampleExternals (.float infinity) ∧
    ¬Survives sampleCodec sampleExternals noParse insertionOrder (sampleState (.float infinity))
      (u32ToLe stateFormatVersion++nullText) := by
  have hexported := exported_sample (.float infinity) rfl
  have hexport : exportState sampleCodec sampleExternals (sampleState (.float infinity))=
      .ok (u32ToLe stateFormatVersion++nullText) := by
    simp only [exportState,hexported]
    rfl
  refine ⟨hexport,by decide,trivial,fun h => ?_⟩
  have hstored : ∀e∈(sampleState (.float infinity)).vars, isPublic e.1=true →
      Stored sampleExternals e.2 := by
    intro e he _
    rw [List.mem_singleton.mp he]
    trivial
  have hportable := survives_portable sampleCodec noParse insertionOrder (by simp [sampleState])
    hstored (exportState_blob sampleCodec hexport) (by decide) h
  have hfinite := hportable.finite ("x",.float infinity) (by rw [hexported]; exact List.mem_singleton_self _)
  exact absurd hfinite (by decide)

end Samples

end InterpretThis
