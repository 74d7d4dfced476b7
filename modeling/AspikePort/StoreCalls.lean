import AspikePort.Lifecycle
import AspikePort.NestedStore
import AspikePort.TripleWrites

/-!
# The calls that write the record store

The arguments of a writing call as the callers mean them: texts without a zero
byte, bin names the server allows, complete triples. For each call the writes
it stands for, and the requests it submits when it is answered with ok.
-/

set_option autoImplicit false

namespace AspikePort.StoreCalls
open AspikePort.ErlangTerms AspikePort.ClientValues AspikePort.EarlyReturn
open AspikePort.NifWorld AspikePort.CdtPut AspikePort.PutOperations AspikePort.PutAgreement
open AspikePort.TripleWrites AspikePort.SyncCalls AspikePort.AsyncCalls AspikePort.Lifecycle
open AspikePort.OrderedMap AspikePort.NestedStore AspikePort.FallibleLoops Proc

section Arguments

structure Text where
  data : Bytes
  zeroFree : 0 ∉ data

structure BinName where
  data : Bytes
  zeroFree : 0 ∉ data
  short : data.length ≤ 15

structure RecordKey where
  nameSpace : Text
  set : Text
  key : Text

/-- A key, its value and a ttl of 64 bits. -/
structure PutTriple where
  triple : Triple
  zeroFree : 0 ∉ triple.key
  lower : -(2:ℤ)^63 ≤ triple.ttl
  upper : triple.ttl < (2:ℤ)^63

abbrev BinPut := BinName × List PutTriple

def Text.term (t : Text) : Term := .binary t.data

def RecordKey.asKey (k : RecordKey) : AsKey := ⟨k.nameSpace.data,k.set.data,k.key.data⟩

def BinPut.triples (b : BinPut) : BinTriples := (b.1.data,b.2.map PutTriple.triple)

theorem Text.cStr_eq (t : Text) : cStr t.data = t.data := cStr_eq_self.mpr t.zeroFree

theorem BinName.cStr_eq (n : BinName) : cStr n.data = n.data := cStr_eq_self.mpr n.zeroFree

theorem RecordKey.binaryKey_eq (k : RecordKey) :
    binaryKey k.nameSpace.term k.set.term k.key.term = .ok k.asKey := by
  change Except.ok (asKeyInitStr _ _ _) = _
  unfold asKeyInitStr
  rw [k.nameSpace.cStr_eq,k.set.cStr_eq,k.key.cStr_eq]
  rfl

/-- The client takes every bin name the server allows. -/
def TakesBinNames (c : Client) : Prop := ∀ name : Bytes, name.length ≤ 15 → c.takesBin name = true

theorem BinName.taken {c : Client} (hc : TakesBinNames c) (n : BinName) :
    c.takesBin (cStr n.data) = true := by
  rw [n.cStr_eq]
  exact hc n.data n.short

theorem PutTriple.fits {c : Client} (hc : TakesBinNames c) (n : BinName) (t : PutTriple) :
    Fits c n.data t.triple := ⟨n.zeroFree,hc n.data n.short,t.zeroFree,t.lower,t.upper⟩

end Arguments

inductive StoreCall where
  | cdtPutAsync (ref : ℕ) (key : RecordKey) (bins : List BinPut) (ttl policy : Term)
  | cdtDeleteByKeysSync (key : RecordKey) (bin : BinName) (subkeys : List Text)
  | cdtDeleteByKeysAsync (ref : ℕ) (key : RecordKey) (bin : BinName) (subkeys : List Text)
  | cdtDeleteByKeysBatchAsync (ref : ℕ) (nameSpace set : Text) (bin : BinName)
      (tuples : List (Text × List Text))
  | mapPut (key : RecordKey) (bin : BinName) (ttl : Term) (map : List (Text × Bytes))

def subkeysTerm (subkeys : List Text) : Term := ofList (subkeys.map Text.term)

def tupleTerm (t : Text × List Text) : Term := encodeBin (t.1.data,t.2.map Text.term)

def StoreCall.toDataCall : StoreCall → DataCall
  | cdtPutAsync ref k bins ttl policy => .cdtPutAsync (.reference ref) k.nameSpace.term
      k.set.term k.key.term (ofList (bins.map (fun b => binTerm b.triples))) ttl policy
  | cdtDeleteByKeysSync k bin subkeys => .cdtDeleteByKeysSync k.nameSpace.term k.set.term
      k.key.term (.binary bin.data) (subkeysTerm subkeys)
  | cdtDeleteByKeysAsync ref k bin subkeys => .cdtDeleteByKeysAsync (.reference ref)
      k.nameSpace.term k.set.term k.key.term (.binary bin.data) (subkeysTerm subkeys)
  | cdtDeleteByKeysBatchAsync ref ns set bin tuples => .cdtDeleteByKeysBatchAsync
      (.reference ref) ns.term set.term (.binary bin.data) (ofList (tuples.map tupleTerm))
  | mapPut k bin ttl map => .mapPutSync k.nameSpace.term k.set.term k.key.term
      (.binary bin.data) ttl (.map (map.map (fun e => (e.1.term,.binary e.2))))

section Meaning
variable {V : Type} (entry : Bytes → ℤ → V) (raw : Bytes → V)

def tripleWrite (k : AsKey) (bin : Bytes) (t : Triple) : Write AsKey Bytes Bytes V :=
  .set k bin t.key (entry t.value t.ttl)

def rawCells (map : List (Text × Bytes)) : OrdMap Bytes V :=
  map.foldl (fun m e => m.insert e.1.data (raw e.2)) OrdMap.empty

/-- The writes a call stands for, in order. -/
def StoreCall.writes : StoreCall → List (Write AsKey Bytes Bytes V)
  | cdtPutAsync _ k bins _ _ => bins.flatMap (fun b =>
      b.triples.2.map (tripleWrite entry k.asKey b.triples.1))
  | cdtDeleteByKeysSync k bin subkeys => [.remove k.asKey bin.data (subkeys.map Text.data)]
  | cdtDeleteByKeysAsync _ k bin subkeys => [.remove k.asKey bin.data (subkeys.map Text.data)]
  | cdtDeleteByKeysBatchAsync _ ns set bin tuples => tuples.map (fun t =>
      .remove ⟨ns.data,set.data,t.1.data⟩ bin.data (t.2.map Text.data))
  | mapPut k bin _ map => [.replace k.asKey bin.data (rawCells raw map)]

theorem rawCells_map {W : Type} (f : V → W) (map : List (Text × Bytes)) :
    (rawCells raw map).mapVal f = rawCells (f ∘ raw) map := by
  have hfold : ∀ m : OrdMap Bytes V,
      (map.foldl (fun m e => m.insert e.1.data (raw e.2)) m).mapVal f =
        map.foldl (fun m e => m.insert e.1.data (f (raw e.2))) (m.mapVal f) := by
    induction map with
    | nil => exact fun _ => rfl
    | cons e map ih =>
      intro m
      rw [List.foldl_cons,List.foldl_cons,ih,OrdMap.mapVal_insert]
  exact hfold OrdMap.empty

theorem writes_map {W : Type} (f : V → W) (call : StoreCall) :
    (call.writes entry raw).map (Write.map f) =
      call.writes (fun v t => f (entry v t)) (f ∘ raw) := by
  cases call with
  | cdtPutAsync ref k bins ttl policy =>
    simp only [StoreCall.writes,List.map_flatMap,List.map_map]
    rfl
  | mapPut k bin ttl map =>
    simp only [StoreCall.writes,List.map_cons,List.map_nil,Write.map,rawCells_map]
  | cdtDeleteByKeysBatchAsync ref ns set bin tuples =>
    simp only [StoreCall.writes,List.map_map]
    rfl
  | _ => rfl

end Meaning

section Requests
variable {c : Client} {env : Env} {w : World}

/-- An answer `{ok, _}`. -/
def Successful (r : Except Reply Term) : Prop := ∃ t, replyOf r = .term (makeTuple2 atomOk t)

theorem not_successful_badarg : ¬Successful (.error .badarg) := by
  rintro ⟨t,h⟩
  cases h

theorem not_successful_notConnected : ¬Successful (.error (.term notConnected)) := by
  rintro ⟨t,h⟩
  simp [replyOf,notConnected,errorTuple,makeTuple2,atomOk,atomError] at h

theorem put_unconnected {ref : ℕ} {ns set key ttl policy : Term} {k : AsKey} {b : Term}
    {bs : List Term} (hw : ¬w.isConnectedFlag = true) (hk : binaryKey ns set key = .ok k) :
    cdtPutAsync c env (.reference ref) ns set key (ofList (b::bs)) ttl policy w =
      (.error (.term notConnected),w) := by
  apply job_error
  change (lift (binaryKey ns set key) >>= _) w = _
  rw [hk,lift_ok_bind_run,getListLength_ofList]
  exact isConnected_bind_refused _ hw

/-- A put that is answered with ok has had its ttl and its policy accepted. -/
theorem put_accepted {ref : ℕ} {ns set key ttl policy : Term} {k : AsKey} {b : Term}
    {bs : List Term} (hw : w.isConnectedFlag = true) (hk : binaryKey ns set key = .ok k)
    (h : Successful
      (cdtPutAsync c env (.reference ref) ns set key (ofList (b::bs)) ttl policy w).1) :
    ∃ t p, getLong ttl = some t ∧ readPolicyAsync policy = .ok p := by
  by_cases hlimits : getLong ttl = none ∨ ¬IsPolicy policy
  · rw [async_limits_refused hw hk hlimits] at h
    exact absurd h not_successful_badarg
  · obtain ⟨httl,hpolicy⟩ := not_or.mp hlimits
    obtain ⟨t,ht⟩ := Option.ne_none_iff_exists'.mp httl
    obtain ⟨-,-,p,hp⟩ := (policy_cases policy).resolve_right (fun hp => hpolicy hp.1)
    exact ⟨t,p,ht,hp⟩

def BinPut.data (b : BinPut) : BinData := (b.triples.1,b.triples.2.flatMap Triple.elements)

theorem put_entries (hc : TakesBinNames c) (now : ℤ) (bins : List BinPut) :
    (bins.map BinPut.data).flatMap (binPuts c now) =
      bins.flatMap (fun b => binOperations now b.triples) := by
  have hfits : ∀ b ∈ bins.map BinPut.triples, ∀ t ∈ b.2, Fits c b.1 t := by
    intro b hb t ht
    obtain ⟨x,_,rfl⟩ := List.mem_map.mp hb
    obtain ⟨y,_,rfl⟩ := List.mem_map.mp ht
    exact y.fits hc x.1
  have hops := (binPuts_eq_iff c now (bins.map BinPut.triples)).mpr hfits
  rw [List.flatMap_map,List.flatMap_map] at hops
  rw [List.flatMap_map]
  exact hops

theorem put_requests (hc : TakesBinNames c) (ref : ℕ) (k : RecordKey) (bins : List BinPut)
    (ttl policy : Term)
    (h : Successful ((StoreCall.cdtPutAsync ref k bins ttl policy).toDataCall.body c env w).1) :
    (bins = [] ∧ submissions
      ((StoreCall.cdtPutAsync ref k bins ttl policy).toDataCall.body c env) w = some []) ∨
    ∃ ops limits, submissions ((StoreCall.cdtPutAsync ref k bins ttl policy).toDataCall.body c env)
        w = some [.keyOperate k.asKey ops limits] ∧
      ops.entries = bins.flatMap (fun b => binOperations env.now b.triples) := by
  change Successful (cdtPutAsync c env _ _ _ _ _ _ _ w).1 at h
  change (_ ∧ submissions (cdtPutAsync c env _ _ _ _ _ _ _) w = _) ∨
    ∃ _ _, submissions (cdtPutAsync c env _ _ _ _ _ _ _) w = _ ∧ _
  have hk := k.binaryKey_eq
  cases bins with
  | nil => exact Or.inl ⟨rfl,submissions_stopped (async_empty hk)⟩
  | cons b bins =>
    have hbins : (b::bins).map (fun b => binTerm b.triples) =
        (b.data::bins.map BinPut.data).map encodeBin := by
      rw [← List.map_cons,List.map_map]
      rfl
    rw [hbins] at h ⊢
    by_cases hw : w.isConnectedFlag = true
    · obtain ⟨t,p,ht,hp⟩ := put_accepted hw hk h
      exact Or.inr ⟨_,_,async_submits hw hk ht hp,put_entries hc env.now (b::bins)⟩
    · rw [List.map_cons,put_unconnected hw hk] at h
      exact absurd h not_successful_notConnected

/-- A job behind the connected check. -/
theorem job_requests {p : Nif AsyncJob} {job : AsyncJob}
    (hjob : p w = (isConnected >>= fun _ => pure job) w)
    (h : Successful ((p >>= submitAsync env) w).1) :
    submissions (p >>= submitAsync env) w = some [job.request] := by
  by_cases hw : w.isConnectedFlag = true
  · exact submissions_job (hjob.trans (isConnected_bind_run _ hw))
  · rw [job_error (hjob.trans (isConnected_bind_refused _ hw))] at h
    exact absurd h not_successful_notConnected

theorem foldl_counted {α β : Type} {f : α → β} {body : List β × ℕ → α → List β × ℕ}
    (h : ∀ s x, body s x = (s.1 ++ [f x],s.2+1)) (xs : List α) (s : List β × ℕ) :
    xs.foldl body s = (s.1 ++ xs.map f,s.2+xs.length) := by
  induction xs generalizing s with
  | nil => simp
  | cons x xs ih =>
    rw [List.foldl_cons,ih,h]
    simp only [List.map_cons,List.append_assoc,List.cons_append,List.nil_append,List.length_cons]
    congr 1
    omega

theorem collectSubkeys_texts (subkeys : List Text) :
    collectSubkeys (subkeys.map Text.term).length (subkeysTerm subkeys) =
      (subkeys.map Text.data,(subkeys.map Text.term).length) := by
  unfold collectSubkeys subkeysTerm
  rw [cells_ofList,List.foldl_map,foldl_counted (f := Text.data)]
  · simp
  · intro s t
    change (s.1 ++ [cStr t.data],s.2+1) = _
    rw [t.cStr_eq]

/-- Every name is a text, so the operation is added. -/
theorem removeOperations_texts (hc : TakesBinNames c) (bin : BinName) (subkeys : List Text) :
    removeOperations c bin.data (subkeys.map Text.term).length (subkeysTerm subkeys) =
      ⟨recordNoChangeTtl,[.mapRemoveByKeyList bin.data (subkeys.map Text.data)]⟩ := by
  unfold removeOperations
  rw [collectSubkeys_texts]
  dsimp only
  have htake : c.takesBin
      (Operation.mapRemoveByKeyList (cStr bin.data) (subkeys.map Text.data)).bin = true :=
    bin.taken hc
  rw [if_pos rfl,Operations.add,if_pos htake,bin.cStr_eq]
  rfl

theorem deleteSync_requests (hc : TakesBinNames c) (k : RecordKey) (bin : BinName)
    (subkeys : List Text)
    (h : Successful ((StoreCall.cdtDeleteByKeysSync k bin subkeys).toDataCall.body c env w).1) :
    submissions ((StoreCall.cdtDeleteByKeysSync k bin subkeys).toDataCall.body c env) w =
      some [.keyOperate k.asKey
        ⟨recordNoChangeTtl,[.mapRemoveByKeyList bin.data (subkeys.map Text.data)]⟩ none] := by
  have hrun : (StoreCall.cdtDeleteByKeysSync k bin subkeys).toDataCall.body c env w =
      (isConnected >>= fun _ => syncOperationCounter env (submit env (.keyOperate k.asKey
        ⟨recordNoChangeTtl,[.mapRemoveByKeyList bin.data (subkeys.map Text.data)]⟩ none) >>=
          fun r => if r.status ≠ aerospikeOk then pure (makeNifError r.errCode r.message)
            else pure (okString "keys_deleted"))) w := by
    change (lift (binaryKey k.nameSpace.term k.set.term k.key.term) >>= _) w = _
    rw [k.binaryKey_eq,lift_ok_bind_run,inspectBinary_binary,lift_ok_bind_run,subkeysTerm,
      getListLength_ofList,orBadarg_some,lift_ok_bind_run]
    have hops := removeOperations_texts hc bin subkeys
    rw [subkeysTerm] at hops
    rw [hops]
  by_cases hw : w.isConnectedFlag = true
  · rw [isConnected_bind_run _ hw] at hrun
    refine (submissions_congr hrun).trans (submissions_counted (fun r => ?_))
    by_cases hr : r.status ≠ aerospikeOk
    · exact ⟨_,if_pos hr⟩
    · exact ⟨_,if_neg hr⟩
  · rw [hrun,isConnected_bind_refused _ hw] at h
    exact absurd h not_successful_notConnected

theorem deleteAsync_requests (hc : TakesBinNames c) (ref : ℕ) (k : RecordKey) (bin : BinName)
    (subkeys : List Text)
    (h : Successful
      ((StoreCall.cdtDeleteByKeysAsync ref k bin subkeys).toDataCall.body c env w).1) :
    submissions ((StoreCall.cdtDeleteByKeysAsync ref k bin subkeys).toDataCall.body c env) w =
      some [.keyOperate k.asKey
        ⟨recordNoChangeTtl,[.mapRemoveByKeyList bin.data (subkeys.map Text.data)]⟩ none] := by
  have hjob : cdtDeleteByKeysAsyncJob c (.reference ref) k.nameSpace.term k.set.term k.key.term
      (.binary bin.data) (subkeysTerm subkeys) w =
      (isConnected >>= fun _ => pure ⟨.reference ref,some k.asKey,[],.cdtDeleteByKeys,
        .keyOperate k.asKey
          ⟨recordNoChangeTtl,[.mapRemoveByKeyList bin.data (subkeys.map Text.data)]⟩ none⟩) w := by
    change (lift (binaryKey k.nameSpace.term k.set.term k.key.term) >>= _) w = _
    rw [k.binaryKey_eq,lift_ok_bind_run,inspectBinary_binary,lift_ok_bind_run,subkeysTerm,
      getListLength_ofList,orBadarg_some,lift_ok_bind_run]
    have hops := removeOperations_texts hc bin subkeys
    rw [subkeysTerm] at hops
    rw [hops]
  exact job_requests hjob h

theorem readTuple (t : Text × List Text) : readKeySubkeys (tupleTerm t) =
    .ok (t.1.data,subkeysTerm t.2,(t.2.map Text.term).length) := readBin_encode _

theorem validateTuples_texts (tuples : List (Text × List Text)) :
    validateTuples (tuples.map tupleTerm).length (ofList (tuples.map tupleTerm)) = .ok () := by
  unfold validateTuples
  rw [cellsExcept_ofList,List.foldlM_map]
  refine foldlM_eq_ok (g := fun s _ => s) tuples (fun t _ s => ?_) ()
  rw [readTuple]
  change cellsExcept _ _ (t.2.map Text.term).length (ofList (t.2.map Text.term)) () = _
  rw [cellsExcept_ofList,List.foldlM_map]
  exact foldlM_eq_ok (g := fun s _ => s) t.2 (fun _ _ _ => rfl) ()

/-- The write of one tuple. -/
def batchWrite (ns set : Text) (bin : BinName) (t : Text × List Text) : BatchWrite :=
  ⟨⟨ns.data,set.data,t.1.data⟩,
    ⟨recordNoChangeTtl,[.mapRemoveByKeyList bin.data (t.2.map Text.data)]⟩⟩

theorem batchWriteAsync_texts (hc : TakesBinNames c) (ns set : Text) (bin : BinName)
    (t : Text × List Text) :
    batchWriteAsync c ns.data set.data bin.data (tupleTerm t) = .ok (batchWrite ns set bin t) := by
  have hsubkeys : cellsExcept (fun _ => .error (.fault .uncheckedAccess)) (fun s head => do
        let subkey ← unchecked (orBadarg (inspectBinary head))
        return s ++ [cStr subkey]) (t.2.map Text.term).length (subkeysTerm t.2) [] =
      (.ok (t.2.map Text.data) : Except Reply (List Bytes)) := by
    rw [subkeysTerm,cellsExcept_ofList,List.foldlM_map]
    refine foldlM_snoc (fun s x => ?_) t.2 []
    change Except.ok (s ++ [cStr x.data]) = _
    rw [x.cStr_eq]
  have htake : c.takesBin
      (Operation.mapRemoveByKeyList (cStr bin.data) (t.2.map Text.data)).bin = true :=
    bin.taken hc
  unfold batchWriteAsync
  rw [readTuple]
  change (cellsExcept _ _ (t.2.map Text.term).length (subkeysTerm t.2) [] >>= _) = _
  rw [hsubkeys]
  change Except.ok (BatchWrite.mk (asKeyInitStr ns.data set.data t.1.data) _) = _
  unfold asKeyInitStr
  rw [Operations.add,if_pos htake,ns.cStr_eq,set.cStr_eq,t.1.cStr_eq,bin.cStr_eq]
  rfl

theorem batch_requests (hc : TakesBinNames c) (ref : ℕ) (ns set : Text) (bin : BinName)
    (tuples : List (Text × List Text))
    (h : Successful ((StoreCall.cdtDeleteByKeysBatchAsync ref ns set bin tuples).toDataCall.body
      c env w).1) :
    submissions ((StoreCall.cdtDeleteByKeysBatchAsync ref ns set bin tuples).toDataCall.body c env)
      w = some [.batchWrite (tuples.map (batchWrite ns set bin))] := by
  have hrecs : cellsExcept (fun _ => .error (.fault .uncheckedAccess)) (fun s entry => do
        let write ← batchWriteAsync c ns.data set.data bin.data entry
        return s ++ [write]) (tuples.map tupleTerm).length (ofList (tuples.map tupleTerm)) [] =
      (.ok (tuples.map (batchWrite ns set bin)) : Except Reply (List BatchWrite)) := by
    rw [cellsExcept_ofList,List.foldlM_map]
    refine foldlM_snoc (fun s t => ?_) tuples []
    rw [batchWriteAsync_texts hc]
    rfl
  have hjob : cdtDeleteByKeysBatchAsyncJob c (.reference ref) ns.term set.term (.binary bin.data)
      (ofList (tuples.map tupleTerm)) w =
      (isConnected >>= fun _ => pure ⟨.reference ref,none,[],.cdtDeleteByKeysBatch,
        .batchWrite (tuples.map (batchWrite ns set bin))⟩) w := by
    unfold cdtDeleteByKeysBatchAsyncJob
    rw [if_neg (by simp [isRef]),Text.term,Text.term,inspectBinary_binary,lift_ok_bind_run,
      inspectBinary_binary,lift_ok_bind_run,inspectBinary_binary,lift_ok_bind_run,
      getListLength_ofList,orBadarg_some,lift_ok_bind_run,validateTuples_texts,lift_ok_bind_run,
      hrecs]
    rfl
  exact job_requests hjob h

theorem mapKeyText_error {key : Term} {r : Reply} (h : mapKeyText key = .error r) :
    r = .badarg := by
  unfold mapKeyText at h
  split at h
  · cases h
  · split at h
    · cases h
    · cases hs : getString 256 key with
      | none =>
        rw [hs] at h
        exact (Except.error.inj h).symm
      | some s =>
        rw [hs] at h
        cases h

theorem mapEntries_error {pairs : List (Term × Term)} {r : Reply}
    (h : pairs.foldlM mapEntry [] = .error r) : r = .badarg := by
  apply foldlM_error (P := fun r => r = .badarg) _ h
  intro es pair r hr
  unfold mapEntry at hr
  cases hkey : mapKeyText pair.1 with
  | error e =>
    rw [hkey] at hr
    rw [← Except.error.inj hr]
    exact mapKeyText_error hkey
  | ok key =>
    cases hval : inspectBinary pair.2 with
    | none =>
      rw [hkey,hval] at hr
      exact (Except.error.inj hr).symm
    | some v =>
      rw [hkey,hval] at hr
      cases hr

theorem mapEntries (map : List (Text × Bytes)) :
    (map.map (fun e => (e.1.term,Term.binary e.2))).foldlM mapEntry [] =
      .ok (rawCells id map).entries := by
  rw [List.foldlM_map,foldlM_eq_ok (g := fun es (e : Text × Bytes) => put e.1.data e.2 es) map]
  · congr 1
    have hfold : ∀ m : OrdMap Bytes Bytes, map.foldl (fun es e => put e.1.data e.2 es) m.entries =
        (map.foldl (fun m e => m.insert e.1.data e.2) m).entries := by
      induction map with
      | nil => exact fun _ => rfl
      | cons e map ih => exact fun m => ih (m.insert e.1.data e.2)
    exact hfold OrdMap.empty
  · intro e _ es
    change Except.ok (put (cStr e.1.data) e.2 es) = _
    rw [e.1.cStr_eq]

/-- A map put that is answered with ok has read every entry. -/
theorem mapPut_submits {ns set key bin : Bytes} {ttl : Term} {pairs : List (Term × Term)}
    (h : Successful (mapPutSync c env (.binary ns) (.binary set) (.binary key) (.binary bin) ttl
      (.map pairs) w).1) :
    ∃ ttl' es, pairs.foldlM mapEntry [] = .ok es ∧
      submissions (mapPutSync c env (.binary ns) (.binary set) (.binary key) (.binary bin) ttl
        (.map pairs)) w =
        some [.keyPut (asKeyInitStr ns set key) ⟨1,ttl',[(cStr bin,asOrderedmap es)]⟩] := by
  have hrun : mapPutSync c env (.binary ns) (.binary set) (.binary key) (.binary bin) ttl
      (.map pairs) w =
      (if ¬isNumber ttl then stop .badarg else isConnected >>= fun _ =>
        lift (pairs.foldlM mapEntry []) >>= fun es => lift (orBadarg (PutRecord.set c
          ⟨1,UInt32.ofInt ((getLong ttl).getD env.uninit),[]⟩ (cStr bin) (asOrderedmap es))) >>=
        fun rec => submit env (.keyPut (asKeyInitStr ns set key) rec) >>= fun r =>
        if r.status ≠ aerospikeOk then pure (makeNifError r.errCode (orUnknown r.message))
        else pure (makeTuple2 atomOk atomDone)) w := by
    unfold mapPutSync
    rw [binaryKey_binary,lift_ok_bind_run,inspectBinary_binary,lift_ok_bind_run]
    rfl
  rw [hrun] at h
  unfold submissions
  rw [hrun]
  by_cases hn : isNumber ttl = true
  · rw [if_neg (not_not.mpr hn)] at h ⊢
    by_cases hw : w.isConnectedFlag = true
    · rw [isConnected_bind_run _ hw] at h ⊢
      cases hes : pairs.foldlM mapEntry [] with
      | error r =>
        rw [hes] at h
        rw [mapEntries_error hes] at h
        exact absurd h not_successful_badarg
      | ok es =>
        rw [hes,lift_ok_bind_run] at h
        rw [lift_ok_bind_run]
        refine ⟨UInt32.ofInt ((getLong ttl).getD env.uninit),es,rfl,?_⟩
        by_cases htake : c.takesBin (cStr bin) = true
        · have hset : PutRecord.set c ⟨1,UInt32.ofInt ((getLong ttl).getD env.uninit),[]⟩
              (cStr bin) (asOrderedmap es) = some ⟨1,UInt32.ofInt ((getLong ttl).getD env.uninit),
                [(cStr bin,asOrderedmap es)]⟩ := by
            unfold PutRecord.set
            rw [if_neg (not_not.mpr htake)]
            rfl
          rw [hset,orBadarg_some,lift_ok_bind_run,submit_bind_run]
          split_ifs <;> simp [afterSubmit]
        · have hset : PutRecord.set c ⟨1,UInt32.ofInt ((getLong ttl).getD env.uninit),[]⟩
              (cStr bin) (asOrderedmap es) = none := if_pos htake
          rw [hset] at h
          exact absurd h not_successful_badarg
    · rw [isConnected_bind_refused _ hw] at h
      exact absurd h not_successful_notConnected
  · rw [if_pos hn] at h
    exact absurd h not_successful_badarg

theorem mapPut_requests (k : RecordKey) (bin : BinName) (ttl : Term) (map : List (Text × Bytes))
    (h : Successful ((StoreCall.mapPut k bin ttl map).toDataCall.body c env w).1) :
    ∃ ttl', submissions ((StoreCall.mapPut k bin ttl map).toDataCall.body c env) w =
      some [.keyPut k.asKey ⟨1,ttl',[(bin.data,asOrderedmap (rawCells id map).entries)]⟩] := by
  obtain ⟨ttl',es,hes,hreq⟩ := mapPut_submits h
  rw [mapEntries] at hes
  have hkey := Except.ok.inj k.binaryKey_eq
  change submissions (mapPutSync c env _ _ _ _ _ _) w = _ at hreq
  refine ⟨ttl',hreq.trans ?_⟩
  rw [← Except.ok.inj hes,bin.cStr_eq]
  rw [hkey]

end Requests

end AspikePort.StoreCalls
