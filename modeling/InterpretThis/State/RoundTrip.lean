import InterpretThis.State.Likeness

namespace InterpretThis

open Pyhash Pyset Json

variable (ext : Externals)

section Tags

theorem valueOfJson_tagged (variant : Variant) (payload : Json) :
    valueOfJson ext (variant.tagged payload)=payloadValue ext variant payload := by
  simp only [Variant.tagged,valueOfJson,Variant.ofName_name]

theorem keyOfJson_tagged (variant : Variant) (payload : Json) :
    keyOfJson ext (variant.tagged payload)=payloadKey ext variant payload := by
  simp only [Variant.tagged,keyOfJson,Variant.ofName_name]

theorem asInt64_toInt (i : Int64) : asInt64 (.int i.toInt)=.ok i := by
  have hlo : Int64.minValue.toInt≤ i.toInt := Int64.minValue_le_toInt i
  have hhi : i.toInt≤Int64.maxValue.toInt := Int64.toInt_le i
  simp only [asInt64,asInt_int _ _ _ hlo hhi,Except.map,Int64.ofInt_toInt]

theorem asUInt64_toNat (w : UInt64) : asUInt64 (.int w.toNat)=.ok w := by
  have hlt := w.toNat_lt
  have hint : asInt 0 (2^64-1) (.int w.toNat)=.ok (w.toNat : Int) := by
    apply asInt_int
    · omega
    · omega
  simp only [asUInt64,hint,Except.map,Int.toNat_natCast,UInt64.ofNat_toNat]

theorem asByte_toNat (b : UInt8) : asByte (.int b.toNat)=.ok b := by
  have hlt := b.toNat_lt
  have hint : asInt 0 255 (.int b.toNat)=.ok (b.toNat : Int) := by
    apply asInt_int
    · omega
    · omega
  simp only [asByte,hint,Except.map,Int.toNat_natCast,UInt8.ofNat_toNat]

theorem asArray_ofBytes (b : List UInt8) : asArray asByte (ofBytes b)=.ok b := by
  have hmap := readAll_map asByte (fun x : UInt8 => Json.int x.toNat) id b
    (fun x _ => asByte_toNat x)
  rw [List.map_id] at hmap
  exact hmap

end Tags

section Keys

mutual

theorem key_restores (k : ValueKey) (h : dataKey k=true) : keyOfJson ext (keyJson ext k)=.ok k := by
  cases k with
  | none =>
    simp only [keyJson,keyOfJson,unitKey,Variant.ofName_name]
  | bool b => simp only [keyJson,keyOfJson_tagged,payloadKey,asBool,Except.map]
  | int i => simp only [keyJson,keyOfJson_tagged,payloadKey,asInt64_toInt,Except.map]
  | bigInt i => simp only [keyJson,keyOfJson_tagged,payloadKey,asBigInt_ofBigInt,Except.map]
  | float w => simp only [keyJson,keyOfJson_tagged,payloadKey,asUInt64_toNat,Except.map]
  | string s => simp only [keyJson,keyOfJson_tagged,payloadKey,asString,Except.map]
  | tuple ks =>
    have hall := keys_restore ks h
    simp only [keyJson,keyOfJson_tagged,payloadKey,hall,Except.map]
  | frozenset ks =>
    have hall := keys_restore ks h
    simp only [keyJson,keyOfJson_tagged,payloadKey,hall,Except.map]
  | _ => cases h

theorem keys_restore (ks : List ValueKey) (h : dataKeys ks=true) :
    keysOfJson ext (keysJson ext ks)=.ok ks := by
  cases ks with
  | nil => simp only [keysJson,keysOfJson]
  | cons k ks =>
    obtain ⟨hk,hks⟩ := Bool.and_eq_true_iff.mp h
    have hone := key_restores k hk
    have hrest := keys_restore ks hks
    simp only [keysJson,keysOfJson,hone,hrest]
    rfl

end

end Keys

section Containers

theorem hashAll_items {α : Type} (hash : α → Option Int64) (items : List α)
    (hashed : List (α×Int64)) (h : hashAll hash items=some hashed) : hashed.map Prod.fst=items := by
  induction items generalizing hashed with
  | nil =>
    cases h
    rfl
  | cons x items ih =>
    rw [hashAll] at h
    cases hx : hash x with
    | none => simp [hx] at h
    | some k =>
      cases hr : hashAll hash items with
      | none => simp [hx,hr] at h
      | some rest =>
        simp only [hx,hr,Option.bind_eq_bind,Option.bind_some,Option.pure_def,
          Option.some.injEq] at h
        rw [← h,List.map_cons,ih rest hr]

theorem dictInsert_fresh (k : ValueKey) (v : Value) (es : List (ValueKey×Value))
    (h : ∀e∈es, sameKey ext k e.1=false) : dictInsert ext k v es=es++[(k,v)] := by
  induction es with
  | nil => rfl
  | cons e es ih =>
    have hhead := h e List.mem_cons_self
    have htail := ih (fun e' he => h e' (List.mem_cons_of_mem e he))
    simp only [dictInsert,hhead,Bool.false_eq_true,if_false,htail,List.cons_append]

theorem collectEntries_distinct (es : List (ValueKey×Value))
    (h : es.Pairwise (fun e e' => sameKey ext e'.1 e.1=false)) : collectEntries ext es=es := by
  have hfold : ∀(acc rest : List (ValueKey×Value)),
      (acc++rest).Pairwise (fun e e' => sameKey ext e'.1 e.1=false) →
      rest.foldl (fun es e => dictInsert ext e.1 e.2 es) acc=acc++rest := by
    intro acc rest hp
    induction rest generalizing acc with
    | nil => simp
    | cons e rest ih =>
      have hfresh : ∀e'∈acc, sameKey ext e.1 e'.1=false := fun e' he' =>
        (List.pairwise_append.mp hp).2.2 e' he' e List.mem_cons_self
      rw [List.foldl_cons,dictInsert_fresh ext e.1 e.2 acc hfresh]
      have hnext := ih (acc++[e]) (by simpa using hp)
      simpa using hnext
  exact hfold [] es h

theorem alikeEntries_keys (es fs : List (ValueKey×Value)) (h : AlikeEntries es fs) :
    es.map Prod.fst=fs.map Prod.fst := by
  induction es generalizing fs with
  | nil => rw [h]
  | cons e es ih =>
    cases fs with
    | nil => exact h.elim
    | cons f fs =>
      obtain ⟨hk,-,hrest⟩ := h
      rw [List.map_cons,List.map_cons,ih fs hrest,hk]

/-- A set that is rebuilt from distinct members lists the same members. -/
theorem rebuildSet_distinct (items : List Value) (h : items.Pairwise (Distinct ext)) :
    ∃r, rebuildSet ext items=.ok r ∧ r.Perm items := by
  simp only [rebuildSet,SetBody.fromItems,tableFromIncremental]
  cases hh : hashAll (pythonHash ext.sip) items with
  | none => exact ⟨items,rfl,.refl items⟩
  | some hashed =>
    have hfst : hashed.map Prod.fst=items := hashAll_items (pythonHash ext.sip) items hashed hh
    have hhash := SetBody.hashAll_hashed (pythonHash ext.sip) items hashed hh
    obtain ⟨t,ht,-,hadds⟩ := SetTable.addAll_spec recurseEq hashed SetTable.wf_withCapacity
    have hempty : (SetTable.withCapacity minsize : SetTable Value).actives=[] := by
      simp [SetTable.actives,SetTable.withCapacity]
    have hapart : Pyset.Apart recurseEq (hashed++[]) := by
      rw [List.append_nil]
      rw [← hfst,List.pairwise_map] at h
      refine h.imp_of_mem ?_
      intro p q hp hq hd hc
      refine hd ⟨?_,hc.2⟩
      rw [hhash p hp,hhash q hq,hc.1]
    rw [hempty] at hadds
    have hperm := SetTable.addsTo_perm recurseEq _ _ _ hapart hadds
    rw [List.append_nil] at hperm
    simp only [Option.map_some,ht]
    refine ⟨_,rfl,?_⟩
    have hlisted := hperm.map Prod.fst
    rw [hfst] at hlisted
    exact hlisted

end Containers

section Values

mutual

/-- Plain data without infinities and NaNs comes back as it was. -/
theorem value_restores (v : Value) (hs : Stored ext v) (hf : nonFinite v=false) :
    ∃w, valueOfJson ext (valueJson ext v)=.ok w ∧ Alike v w := by
  cases v with
  | none =>
    refine ⟨.none,?_,rfl⟩
    simp only [valueJson,valueOfJson,unitValue,Variant.ofName_name]
  | bool b =>
    refine ⟨.bool b,?_,rfl⟩
    simp only [valueJson,valueOfJson_tagged,payloadValue,asBool,Except.map]
  | int i =>
    refine ⟨.int i,?_,rfl⟩
    simp only [valueJson,valueOfJson_tagged,payloadValue,asInt64_toInt,Except.map]
  | bigInt i =>
    refine ⟨.bigInt i,?_,rfl⟩
    simp only [valueJson,valueOfJson_tagged,payloadValue,asBigInt_ofBigInt,Except.map]
  | float f =>
    have hfin : f.isFinite=true := by simpa [nonFinite] using hf
    refine ⟨.float f,?_,.inl rfl⟩
    simp only [valueJson,valueOfJson_tagged,payloadValue,asFloat_ofFloat f hfin,Except.map]
  | string s =>
    refine ⟨.string s,?_,rfl⟩
    simp only [valueJson,valueOfJson_tagged,payloadValue,asString,Except.map]
  | bytes b =>
    refine ⟨.bytes b,?_,rfl⟩
    simp only [valueJson,valueOfJson_tagged,payloadValue,asArray_ofBytes,Except.map]
  | list i items =>
    obtain ⟨ws,hread,halike⟩ := values_restore items hs hf
    refine ⟨.list 0 ws,?_,halike⟩
    simp only [valueJson,valueOfJson_tagged,payloadValue,sequenceOfJson,hread,Except.map]
  | tuple items =>
    obtain ⟨ws,hread,halike⟩ := values_restore items hs hf
    refine ⟨.tuple ws,?_,halike⟩
    simp only [valueJson,valueOfJson_tagged,payloadValue,sequenceOfJson,hread,Except.map]
  | dict i entries =>
    obtain ⟨hstored,hkeys⟩ := hs
    obtain ⟨fs,hread,halike⟩ := entries_restore entries hstored hf
    have hsame := alikeEntries_keys entries fs halike
    have hdistinct : fs.Pairwise (fun e e' => sameKey ext e'.1 e.1=false) := by
      have hpair : (entries.map Prod.fst).Pairwise (fun k k' => sameKey ext k' k=false) :=
        List.pairwise_map.mpr hkeys
      rw [hsame] at hpair
      exact List.pairwise_map.mp hpair
    refine ⟨.dict 0 fs,?_,halike⟩
    simp only [valueJson,valueOfJson_tagged,payloadValue,hread,Except.map,
      collectEntries_distinct ext fs hdistinct]
  | set items =>
    obtain ⟨hstored,hfrozen,hdistinct⟩ := hs
    obtain ⟨ws,hread,halike⟩ := values_restore items hstored hf
    obtain ⟨r,hr,hp⟩ := rebuildSet_distinct ext ws
      (Distinct.restored (restoredAll hfrozen hf halike) hdistinct)
    refine ⟨.set r,?_,⟨ws,halike,hp.symm⟩⟩
    simp only [valueJson,valueOfJson_tagged,payloadValue,sequenceOfJson,hread,Except.bind,hr,
      Except.map]
  | frozenset items =>
    obtain ⟨hstored,hfrozen,hdistinct⟩ := hs
    obtain ⟨ws,hread,halike⟩ := values_restore items hstored hf
    obtain ⟨r,hr,hp⟩ := rebuildSet_distinct ext ws
      (Distinct.restored (restoredAll hfrozen hf halike) hdistinct)
    refine ⟨.frozenset r,?_,⟨ws,halike,hp.symm⟩⟩
    simp only [valueJson,valueOfJson_tagged,payloadValue,sequenceOfJson,hread,Except.bind,hr,
      Except.map]
  | _ => exact hs.elim

theorem values_restore (vs : List Value) (hs : StoredAll ext vs) (hf : anyNonFinite vs=false) :
    ∃ws, valuesOfJson ext (valuesJson ext vs)=.ok ws ∧ AlikeAll vs ws := by
  cases vs with
  | nil => exact ⟨[],by simp only [valuesJson,valuesOfJson],rfl⟩
  | cons v vs =>
    obtain ⟨hv,hvs⟩ := Bool.or_eq_false_iff.mp hf
    obtain ⟨w,hw,hone⟩ := value_restores v hs.1 hv
    obtain ⟨ws,hws,hrest⟩ := values_restore vs hs.2 hvs
    refine ⟨w::ws,?_,hone,hrest⟩
    simp only [valuesJson,valuesOfJson,hw,hws]
    rfl

theorem entries_restore (es : List (ValueKey×Value)) (hs : StoredEntries ext es)
    (hf : entryNonFinite es=false) :
    ∃fs, entriesOfJson ext (entriesJson ext es)=.ok fs ∧ AlikeEntries es fs := by
  cases es with
  | nil => exact ⟨[],by simp only [entriesJson,entriesOfJson],rfl⟩
  | cons e es =>
    obtain ⟨k,v⟩ := e
    obtain ⟨hk,hv,hes⟩ := hs
    obtain ⟨hfv,hfs⟩ := Bool.or_eq_false_iff.mp hf
    have hkey := key_restores ext k hk
    obtain ⟨w,hw,hone⟩ := value_restores v hv hfv
    obtain ⟨fs,hread,hrest⟩ := entries_restore es hes hfs
    refine ⟨(k,w)::fs,?_,rfl,hone,hrest⟩
    simp only [entriesJson,entriesOfJson,hkey,hw,hread]
    rfl

end

end Values

section Losses

mutual

/-- An infinity or NaN anywhere in a value makes it undecodable. -/
theorem value_lost (v : Value) (h : nonFinite v=true) :
    ∃e, valueOfJson ext (valueJson ext v)=.error e := by
  cases v with
  | float f =>
    have hf : f.isFinite=false := by simpa [nonFinite] using h
    obtain ⟨e,he⟩ := asFloat_nonfinite f hf
    refine ⟨e,?_⟩
    simp only [valueJson,valueOfJson_tagged,payloadValue,he,Except.map]
  | list i items =>
    obtain ⟨e,he⟩ := values_lost items h
    refine ⟨e,?_⟩
    simp only [valueJson,valueOfJson_tagged,payloadValue,sequenceOfJson,he,Except.map]
  | tuple items =>
    obtain ⟨e,he⟩ := values_lost items h
    refine ⟨e,?_⟩
    simp only [valueJson,valueOfJson_tagged,payloadValue,sequenceOfJson,he,Except.map]
  | dict i entries =>
    obtain ⟨e,he⟩ := entries_lost entries h
    refine ⟨e,?_⟩
    simp only [valueJson,valueOfJson_tagged,payloadValue,he,Except.map]
  | set items =>
    obtain ⟨e,he⟩ := values_lost items h
    refine ⟨e,?_⟩
    simp only [valueJson,valueOfJson_tagged,payloadValue,sequenceOfJson,he,Except.bind,Except.map]
  | frozenset items =>
    obtain ⟨e,he⟩ := values_lost items h
    refine ⟨e,?_⟩
    simp only [valueJson,valueOfJson_tagged,payloadValue,sequenceOfJson,he,Except.bind,Except.map]
  | _ => cases h

theorem values_lost (vs : List Value) (h : anyNonFinite vs=true) :
    ∃e, valuesOfJson ext (valuesJson ext vs)=.error e := by
  cases vs with
  | nil => cases h
  | cons v vs =>
    simp only [valuesJson,valuesOfJson]
    cases hv : valueOfJson ext (valueJson ext v) with
    | error e => exact ⟨e,rfl⟩
    | ok w =>
      have hrest : anyNonFinite vs=true := by
        rcases Bool.or_eq_true_iff.mp h with hone | hrest
        · obtain ⟨e,he⟩ := value_lost v hone
          rw [hv] at he
          cases he
        · exact hrest
      obtain ⟨e,he⟩ := values_lost vs hrest
      exact ⟨e,by rw [he]; rfl⟩

theorem entries_lost (es : List (ValueKey×Value)) (h : entryNonFinite es=true) :
    ∃e, entriesOfJson ext (entriesJson ext es)=.error e := by
  cases es with
  | nil => cases h
  | cons p es =>
    obtain ⟨k,v⟩ := p
    simp only [entriesJson,entriesOfJson]
    cases hk : keyOfJson ext (keyJson ext k) with
    | error e => exact ⟨e,rfl⟩
    | ok l =>
      cases hv : valueOfJson ext (valueJson ext v) with
      | error e => exact ⟨e,rfl⟩
      | ok w =>
        have hrest : entryNonFinite es=true := by
          rcases Bool.or_eq_true_iff.mp h with hone | hrest
          · obtain ⟨e,he⟩ := value_lost v hone
            rw [hv] at he
            cases he
          · exact hrest
        obtain ⟨e,he⟩ := entries_lost es hrest
        exact ⟨e,by rw [he]; rfl⟩

end

end Losses

end InterpretThis
