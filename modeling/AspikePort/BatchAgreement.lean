import AspikePort.AsyncCalls
import AspikePort.PutAgreement

/-!
# The two batch deletes compared

Both functions read the same argument terms and remove the same keys from the
same records. They differ in the time to live they give each record, and the
synchronous one also writes a policy of the global client.
-/

set_option autoImplicit false

namespace AspikePort.BatchAgreement
open AspikePort.ErlangTerms AspikePort.ClientValues AspikePort.EarlyReturn AspikePort.NifWorld
open AspikePort.CdtPut AspikePort.PutOperations AspikePort.PutAgreement AspikePort.FallibleLoops
open AspikePort.SyncCalls AspikePort.AsyncCalls Proc

section Tuples

/-- A record key and the map keys to remove from its record. -/
abbrev KeySubkeys := Bytes × List Bytes

def encodeTuple (t : KeySubkeys) : Term := encodeBin (t.1,t.2.map .binary)

def encodeTuples (ts : List KeySubkeys) : Term := ofList (ts.map encodeTuple)

theorem binaries_cases (ts : List Term) :
    (∃ ks : List Bytes, ts = ks.map .binary) ∨ ∃ t ∈ ts, inspectBinary t = none := by
  induction ts with
  | nil => exact Or.inl ⟨[],rfl⟩
  | cons t ts ih =>
    cases h : inspectBinary t with
    | none => exact Or.inr ⟨t,List.mem_cons_self,h⟩
    | some k =>
      rcases ih with ⟨ks,rfl⟩ | ⟨x,hx,hbad⟩
      · apply Or.inl
        cases t with
        | binary data => exact ⟨data::ks,rfl⟩
        | _ => cases h
      · exact Or.inr ⟨x,List.mem_cons_of_mem t hx,hbad⟩

variable (c : Client) (ns set bin : Bytes)

def batchWrite (ttl : UInt32) (t : KeySubkeys) : BatchWrite :=
  ⟨asKeyInitStr ns set t.1,⟨ttl,taken c (.mapRemoveByKeyList (cStr bin) (t.2.map cStr))⟩⟩

theorem readKeySubkeys_encode (t : KeySubkeys) :
    readKeySubkeys (encodeTuple t) = .ok (t.1,ofList (t.2.map .binary),t.2.length) := by
  unfold readKeySubkeys encodeTuple
  rw [readBin_encode,List.length_map]

theorem readSubkeys_binaries (ks : List Bytes) :
    readSubkeys ks.length (ofList (ks.map .binary)) = .ok (ks.map cStr) := by
  have hlength : ks.length = (ks.map Term.binary).length := (List.length_map _).symm
  unfold readSubkeys
  rw [hlength,cellsExcept_ofList,List.foldlM_map]
  exact foldlM_snoc (fun s k => rfl) ks []

theorem readSubkeys_refused {ts : List Term} (h : ∃ t ∈ ts, inspectBinary t = none) :
    readSubkeys ts.length (ofList ts) = .error .badarg := by
  obtain ⟨t,ht,hbad⟩ := h
  unfold readSubkeys
  rw [cellsExcept_ofList]
  apply foldlM_eq_error
  · intro s x
    cases inspectBinary x with
    | none => exact Or.inr rfl
    | some k => exact Or.inl ⟨_,rfl⟩
  · exact ⟨t,ht,fun s => by rw [hbad]; rfl⟩

theorem batchWriteSync_encode (t : KeySubkeys) :
    batchWriteSync c ns set bin (encodeTuple t) =
      .ok (batchWrite c ns set bin recordClientDefaultTtl t) := by
  unfold batchWriteSync
  rw [readKeySubkeys_encode]
  change (readSubkeys t.2.length (ofList (t.2.map .binary)) >>= _) = _
  rw [readSubkeys_binaries]
  change Except.ok (BatchWrite.mk _ _) = _
  rw [add_eq]
  rfl

theorem batchWriteAsync_encode (t : KeySubkeys) :
    batchWriteAsync c ns set bin (encodeTuple t) =
      .ok (batchWrite c ns set bin recordNoChangeTtl t) := by
  have hlength : t.2.length = (t.2.map Term.binary).length := (List.length_map _).symm
  have hsubkeys : cellsExcept (fun _ => .error (.fault .uncheckedAccess)) (fun s head => do
        let subkey ← unchecked (orBadarg (inspectBinary head))
        return s ++ [cStr subkey]) t.2.length (ofList (t.2.map .binary)) [] =
      (.ok (t.2.map cStr) : Except Reply (List Bytes)) := by
    rw [hlength,cellsExcept_ofList,List.foldlM_map]
    exact foldlM_snoc (fun s k => rfl) t.2 []
  unfold batchWriteAsync
  rw [readKeySubkeys_encode]
  change (cellsExcept _ _ t.2.length (ofList (t.2.map .binary)) [] >>= _) = _
  rw [hsubkeys]
  change Except.ok (BatchWrite.mk _ _) = _
  rw [add_eq]
  rfl

/-- The body of the first pass of the asynchronous function. -/
def validateTuple (entry : Term) : Except Reply Unit := do
  let (_,list,length) ← readKeySubkeys entry
  cellsExcept (fun _ => .error .badarg) (fun _ head => do
    let _ ← orBadarg (inspectBinary head)
    return ()) length list ()

theorem validateTuples_eq (ts : List Term) :
    validateTuples ts.length (ofList ts) = ts.foldlM (fun _ entry => validateTuple entry) () :=
  cellsExcept_ofList _ _ ts ()

theorem validateTuple_encode (t : KeySubkeys) : validateTuple (encodeTuple t) = .ok () := by
  have hlength : t.2.length = (t.2.map Term.binary).length := (List.length_map _).symm
  unfold validateTuple
  rw [readKeySubkeys_encode]
  change cellsExcept _ _ t.2.length (ofList (t.2.map .binary)) () = _
  rw [hlength,cellsExcept_ofList,List.foldlM_map]
  exact foldlM_eq_ok (g := fun s _ => s) t.2 (fun _ _ _ => rfl) ()

theorem validateTuple_refused {name : Bytes} {ts : List Term}
    (h : ∃ t ∈ ts, inspectBinary t = none) :
    validateTuple (encodeBin (name,ts)) = .error .badarg := by
  obtain ⟨t,ht,hbad⟩ := h
  unfold validateTuple readKeySubkeys
  rw [readBin_encode]
  change cellsExcept _ _ ts.length (ofList ts) () = _
  rw [cellsExcept_ofList]
  apply foldlM_eq_error
  · intro s x
    cases inspectBinary x with
    | none => exact Or.inr rfl
    | some k => exact Or.inl ⟨_,rfl⟩
  · exact ⟨t,ht,fun s => by rw [hbad]; rfl⟩

/-- A tuple is well formed, or both functions refuse it. -/
theorem tuple_cases (entry : Term) : (∃ t, entry = encodeTuple t) ∨
    batchWriteSync c ns set bin entry = .error .badarg ∧
      validateTuple entry = .error .badarg := by
  rcases readBin_cases entry with ⟨d,rfl⟩ | hbad
  · rcases binaries_cases d.2 with ⟨ks,hks⟩ | hkeys
    · exact Or.inl ⟨(d.1,ks),by rw [encodeTuple,← hks]⟩
    · apply Or.inr
      constructor
      · unfold batchWriteSync readKeySubkeys
        rw [readBin_encode]
        change (readSubkeys d.2.length (ofList d.2) >>= _) = _
        rw [readSubkeys_refused hkeys]
        rfl
      · exact validateTuple_refused hkeys
  · apply Or.inr
    unfold batchWriteSync validateTuple readKeySubkeys
    rw [hbad]
    exact ⟨rfl,rfl⟩

theorem tuples_cases (ts : List Term) : (∃ ps : List KeySubkeys, ts = ps.map encodeTuple) ∨
    ∃ t ∈ ts, batchWriteSync c ns set bin t = .error .badarg ∧
      validateTuple t = .error .badarg := by
  induction ts with
  | nil => exact Or.inl ⟨[],rfl⟩
  | cons t ts ih =>
    rcases tuple_cases c ns set bin t with ⟨p,rfl⟩ | hbad
    · rcases ih with ⟨ps,rfl⟩ | ⟨x,hx,hbad⟩
      · exact Or.inl ⟨p::ps,rfl⟩
      · exact Or.inr ⟨x,List.mem_cons_of_mem _ hx,hbad⟩
    · exact Or.inr ⟨t,List.mem_cons_self,hbad⟩

def syncRecords (ts : List Term) : Except Reply (List BatchWrite) :=
  ts.foldlM (fun s entry => do
    let abwr ← batchWriteSync c ns set bin entry
    return s ++ [abwr]) []

def asyncRecords (ts : List Term) : Except Reply (List BatchWrite) :=
  ts.foldlM (fun s entry => do
    let write ← batchWriteAsync c ns set bin entry
    return s ++ [write]) []

theorem syncRecords_encode (ps : List KeySubkeys) :
    syncRecords c ns set bin (ps.map encodeTuple) =
      .ok (ps.map (batchWrite c ns set bin recordClientDefaultTtl)) := by
  unfold syncRecords
  rw [List.foldlM_map]
  apply foldlM_snoc
  intro s p
  rw [batchWriteSync_encode]
  rfl

theorem asyncRecords_encode (ps : List KeySubkeys) :
    asyncRecords c ns set bin (ps.map encodeTuple) =
      .ok (ps.map (batchWrite c ns set bin recordNoChangeTtl)) := by
  unfold asyncRecords
  rw [List.foldlM_map]
  apply foldlM_snoc
  intro s p
  rw [batchWriteAsync_encode]
  rfl

theorem syncRecords_refused {ts : List Term}
    (h : ∃ t ∈ ts, batchWriteSync c ns set bin t = .error .badarg) :
    syncRecords c ns set bin ts = .error .badarg := by
  obtain ⟨t,ht,hbad⟩ := h
  apply foldlM_eq_error
  · intro s x
    rcases tuple_cases c ns set bin x with ⟨p,rfl⟩ | hx
    · rw [batchWriteSync_encode]
      exact Or.inl ⟨_,rfl⟩
    · rw [hx.1]
      exact Or.inr rfl
  · exact ⟨t,ht,fun s => by rw [hbad]; rfl⟩

theorem validateTuples_encode (ps : List KeySubkeys) :
    validateTuples ps.length (encodeTuples ps) = .ok () := by
  have hlength : ps.length = (ps.map encodeTuple).length := (List.length_map _).symm
  unfold encodeTuples
  rw [hlength,validateTuples_eq,List.foldlM_map]
  exact foldlM_eq_ok (g := fun s _ => s) ps (fun p _ _ => validateTuple_encode p) ()

theorem validateTuples_refused {ts : List Term}
    (h : ∃ t ∈ ts, validateTuple t = .error .badarg) :
    validateTuples ts.length (ofList ts) = .error .badarg := by
  obtain ⟨t,ht,hbad⟩ := h
  rw [validateTuples_eq]
  apply foldlM_eq_error
  · intro _ x
    rcases tuple_cases plainClient [] [] [] x with ⟨p,rfl⟩ | hx
    · exact Or.inl ⟨(),validateTuple_encode p⟩
    · exact Or.inr hx.2
  · exact ⟨t,ht,fun _ => hbad⟩

end Tuples

section Sync
variable (c : Client) (env : Env) {w : World}

@[simp] theorem enter_config (now : ℤ) (w : World) :
    (SyncOperationCounter.enter now w).config = w.config := by
  unfold SyncOperationCounter.enter
  split_ifs <;> rfl

@[simp] theorem leave_config (w : World) : (SyncOperationCounter.leave w).config = w.config := by
  unfold SyncOperationCounter.leave
  split_ifs <;> rfl

def batch (ttl : UInt32) (ns set bin : Bytes) (ps : List KeySubkeys) : Request :=
  .batchWrite (ps.map (batchWrite c ns set bin ttl))

def resultCodes (n : ℕ) (resultOf : ℕ → ℤ) : Term :=
  ofList ((List.range n).map (fun i => .integer (resultOf i)))

def answerBatch (n : ℕ) (r : Response) : Nif Term :=
  if r.status ≠ aerospikeOk then return makeNifError r.errCode r.message
  else return makeTuple2 atomOk (resultCodes n r.resultOf)

theorem sync_checked (hw : w.isConnectedFlag = true) (ns set bin : Bytes) (ts : List Term) :
    cdtDeleteByKeysBatchSync c env (.binary ns) (.binary set) (.binary bin) (ofList ts) w =
      (lift (syncRecords c ns set bin ts) >>= fun recs =>
        syncOperationCounter env (touchClient >>= fun _ =>
          update (fun w => { w with config := { w.config with batchWriteTtl := 1000 } }) >>=
            fun _ => submit env (.batchWrite recs) >>= answerBatch ts.length)) w := by
  unfold cdtDeleteByKeysBatchSync
  rw [inspectBinary_binary,lift_ok_bind_run,inspectBinary_binary,lift_ok_bind_run,
    inspectBinary_binary,lift_ok_bind_run,getListLength_ofList,orBadarg_some,lift_ok_bind_run,
    isConnected_bind_run _ hw,cellsExcept_ofList]
  rfl

theorem sync_refused (hw : w.isConnectedFlag = true) (ns set bin : Bytes) {ts : List Term}
    (h : ∃ t ∈ ts, batchWriteSync c ns set bin t = .error .badarg) :
    cdtDeleteByKeysBatchSync c env (.binary ns) (.binary set) (.binary bin) (ofList ts) w =
      (.error .badarg,w) := by
  rw [sync_checked c env hw,syncRecords_refused c ns set bin h]
  rfl

/-- The globals when the client is called, and when the function returns. -/
def atSubmit (w : World) : World :=
  let w := SyncOperationCounter.enter env.now w
  { w with accesses := w.accesses ++ [w.clientLive],
           config := { w.config with batchWriteTtl := 1000 } }

def afterBatch (req : Request) (w : World) : World :=
  SyncOperationCounter.leave (afterSubmit req (atSubmit env w))

@[simp] theorem afterBatch_submitted (req : Request) (w : World) :
    (afterBatch env req w).submitted = w.submitted ++ [req] := by
  simp [afterBatch,afterSubmit,atSubmit]

@[simp] theorem afterBatch_config (req : Request) (w : World) :
    (afterBatch env req w).config = { w.config with batchWriteTtl := 1000 } := by
  simp [afterBatch,afterSubmit,atSubmit]

def batchAnswer (n : ℕ) (r : Response) : Term :=
  if r.status ≠ aerospikeOk then makeNifError r.errCode r.message
  else makeTuple2 atomOk (resultCodes n r.resultOf)

theorem answerBatch_run (n : ℕ) (r : Response) (w : World) :
    answerBatch n r w = (.ok (batchAnswer n r),w) := by
  unfold answerBatch batchAnswer
  split_ifs <;> rfl

theorem sync_run (hw : w.isConnectedFlag = true) (ns set bin : Bytes) (ps : List KeySubkeys) :
    cdtDeleteByKeysBatchSync c env (.binary ns) (.binary set) (.binary bin) (encodeTuples ps) w =
      (.ok (batchAnswer ps.length (env.respond (w.submitted ++
          [batch c recordClientDefaultTtl ns set bin ps]))),
        afterBatch env (batch c recordClientDefaultTtl ns set bin ps) w) := by
  have hsubmitted : (atSubmit env w).submitted = w.submitted := by simp [atSubmit]
  unfold encodeTuples
  rw [sync_checked c env hw,syncRecords_encode,lift_ok_bind_run,syncOperationCounter,within_run,List.length_map,
    touchClient,update_bind_run,update_bind_run,submit_bind_run,answerBatch_run]
  show (Except.ok (batchAnswer ps.length (env.respond ((atSubmit env w).submitted ++ _))),_) = _
  rw [hsubmitted]
  rfl

end Sync

section Async
variable (c : Client) (env : Env) (ref : ℕ) {w : World}

theorem async_job (hw : w.isConnectedFlag = true) (ns set bin : Bytes) (ps : List KeySubkeys) :
    cdtDeleteByKeysBatchAsyncJob c (.reference ref) (.binary ns) (.binary set) (.binary bin)
        (encodeTuples ps) w =
      (.ok ⟨.reference ref,none,[],.cdtDeleteByKeysBatch,
        batch c recordNoChangeTtl ns set bin ps⟩,w) := by
  have hvalid := validateTuples_encode ps
  unfold encodeTuples at hvalid ⊢
  rw [← List.length_map encodeTuple] at hvalid
  unfold cdtDeleteByKeysBatchAsyncJob
  rw [if_neg (by simp [isRef]),inspectBinary_binary,lift_ok_bind_run,inspectBinary_binary,
    lift_ok_bind_run,inspectBinary_binary,lift_ok_bind_run,getListLength_ofList,orBadarg_some,
    lift_ok_bind_run,hvalid,lift_ok_bind_run,isConnected_bind_run _ hw,cellsExcept_ofList]
  change (lift (asyncRecords c ns set bin (ps.map encodeTuple)) >>= _) w = _
  rw [asyncRecords_encode]
  rfl

theorem async_refused (ns set bin : Bytes) {ts : List Term}
    (h : ∃ t ∈ ts, validateTuple t = .error .badarg) :
    cdtDeleteByKeysBatchAsyncJob c (.reference ref) (.binary ns) (.binary set) (.binary bin)
      (ofList ts) w = (.error .badarg,w) := by
  unfold cdtDeleteByKeysBatchAsyncJob
  rw [if_neg (by simp [isRef]),inspectBinary_binary,lift_ok_bind_run,inspectBinary_binary,
    lift_ok_bind_run,inspectBinary_binary,lift_ok_bind_run,getListLength_ofList,orBadarg_some,
    lift_ok_bind_run,validateTuples_refused h]
  rfl

theorem async_run (hw : w.isConnectedFlag = true) (ns set bin : Bytes) (ps : List KeySubkeys) :
    ∃ t, cdtDeleteByKeysBatchAsync c env (.reference ref) (.binary ns) (.binary set) (.binary bin)
      (encodeTuples ps) w = (.ok t,afterSubmit (batch c recordNoChangeTtl ns set bin ps) w) := by
  have htrack : trackNode env none w = (.ok "",w) := rfl
  have huntrack : ∀ v : World, untrackNode "" v = v := by
    intro v
    exact if_neg (fun h => h.1 rfl)
  unfold cdtDeleteByKeysBatchAsync
  rw [bind_run_ok _ (async_job c ref hw ns set bin ps)]
  unfold submitAsync
  rw [bind_run_ok _ htrack,submit_bind_run]
  split_ifs
  · rw [update_bind_run,huntrack]
    exact ⟨_,rfl⟩
  · exact ⟨_,rfl⟩

end Async

section Comparison
variable (c : Client) (w : World) (syncEnv asyncEnv : Env) (ref : ℕ) (ns set bin list : Term)

def syncDelete : Nif Term := cdtDeleteByKeysBatchSync c syncEnv ns set bin list

def asyncDelete : Nif Term :=
  cdtDeleteByKeysBatchAsync c asyncEnv (.reference ref) ns set bin list

def Succeeded (out : Outcome) : Prop :=
  ∀ code msg, out.err = some (code,msg) → code = aerospikeOk

/-- The listener is handed the records that were submitted, so it finds one
result for each of them. -/
structure Agree : Prop where
  same_batch : submissions (syncDelete c syncEnv ns set bin list) w =
    submissions (asyncDelete c asyncEnv ref ns set bin list) w
  sync_config : (syncDelete c syncEnv ns set bin list w).2.config = w.config
  async_config : (asyncDelete c asyncEnv ref ns set bin list w).2.config = w.config
  sync_answers : ∀ ts recs, list = ofList ts →
    submissions (syncDelete c syncEnv ns set bin list) w = some [.batchWrite recs] →
    (syncEnv.respond (w.submitted ++ [.batchWrite recs])).status = aerospikeOk →
      (syncDelete c syncEnv ns set bin list w).1 = .ok (makeTuple2 atomOk
        (resultCodes ts.length (syncEnv.respond (w.submitted ++ [.batchWrite recs])).resultOf))
  async_answers : ∀ ts recs job out resultOf, list = ofList ts →
    (cdtDeleteByKeysBatchAsyncJob c (.reference ref) ns set bin list w).1 = .ok job →
    job.request = .batchWrite recs → Succeeded out →
    out.results = (List.range recs.length).map resultOf →
      callback c job out =
        .ok (makeTuple3 atomOk (.reference ref) (resultCodes ts.length resultOf))

/-- The arguments are refused, or there is no tuple and the policy already has
the value it is given. -/
def AgreeOn : Prop :=
  ∀ n s b ps, ns = .binary n → set = .binary s → bin = .binary b → list = encodeTuples ps →
    ps = [] ∧ w.config.batchWriteTtl = 1000

variable {c w ns set bin list}

theorem arguments_cases (ns set bin list : Term) :
    (∃ n s b ts, ns = .binary n ∧ set = .binary s ∧ bin = .binary b ∧ list = ofList ts) ∨
      (inspectBinary ns = none ∨ inspectBinary set = none ∨ inspectBinary bin = none ∨
        getListLength list = none) := by
  have hbinary : ∀ t, (∃ d, t = Term.binary d) ∨ inspectBinary t = none := by
    intro t
    cases t with
    | binary d => exact Or.inl ⟨d,rfl⟩
    | _ => exact Or.inr rfl
  rcases hbinary ns with ⟨n,hn⟩ | hn
  · rcases hbinary set with ⟨s,hs⟩ | hs
    · rcases hbinary bin with ⟨b,hb⟩ | hb
      · cases hl : getListLength list with
        | none => exact Or.inr (Or.inr (Or.inr (Or.inr rfl)))
        | some k =>
          obtain ⟨ts,hts,-⟩ := getListLength_some hl
          exact Or.inl ⟨n,s,b,ts,hn,hs,hb,hts⟩
      · exact Or.inr (Or.inr (Or.inr (Or.inl hb)))
    · exact Or.inr (Or.inr (Or.inl hs))
  · exact Or.inr (Or.inl hn)

theorem sync_arguments_refused (h : inspectBinary ns = none ∨ inspectBinary set = none ∨
    inspectBinary bin = none ∨ getListLength list = none) :
    syncDelete c syncEnv ns set bin list w = (.error .badarg,w) := by
  unfold syncDelete cdtDeleteByKeysBatchSync
  cases hn : inspectBinary ns with
  | none => rfl
  | some n =>
    cases hs : inspectBinary set with
    | none => rfl
    | some s =>
      cases hb : inspectBinary bin with
      | none => rfl
      | some b =>
        have hl : getListLength list = none := by simpa [hn,hs,hb] using h
        rw [hl]
        rfl

theorem async_arguments_refused (h : inspectBinary ns = none ∨ inspectBinary set = none ∨
    inspectBinary bin = none ∨ getListLength list = none) :
    cdtDeleteByKeysBatchAsyncJob c (.reference ref) ns set bin list w = (.error .badarg,w) := by
  unfold cdtDeleteByKeysBatchAsyncJob
  rw [if_neg (by simp [isRef])]
  cases hn : inspectBinary ns with
  | none => rfl
  | some n =>
    cases hs : inspectBinary set with
    | none => rfl
    | some s =>
      cases hb : inspectBinary bin with
      | none => rfl
      | some b =>
        have hl : getListLength list = none := by simpa [hn,hs,hb] using h
        rw [hl]
        rfl

theorem agree_of_refused
    (hs : syncDelete c syncEnv ns set bin list w = (.error .badarg,w))
    (ha : cdtDeleteByKeysBatchAsyncJob c (.reference ref) ns set bin list w = (.error .badarg,w)) :
    Agree c w syncEnv asyncEnv ref ns set bin list := by
  have hrun : asyncDelete c asyncEnv ref ns set bin list w = (.error .badarg,w) := job_error ha
  constructor
  · rw [submissions_badarg hs,submissions_badarg hrun]
  · rw [hs]
  · rw [hrun]
  · intro ts recs _ hrecs
    rw [submissions_badarg hs] at hrecs
    cases hrecs
  · intro ts recs job out resultOf _ hjob
    rw [ha] at hjob
    cases hjob

/-- Whatever the tuples, each answers with one code for each of them. -/
theorem answers_each (hw : w.isConnectedFlag = true) (n s b : Bytes) (ps : List KeySubkeys) :
    (∀ ts recs, encodeTuples ps = ofList ts →
      submissions (syncDelete c syncEnv (.binary n) (.binary s) (.binary b) (encodeTuples ps)) w =
        some [.batchWrite recs] →
      (syncEnv.respond (w.submitted ++ [.batchWrite recs])).status = aerospikeOk →
        (syncDelete c syncEnv (.binary n) (.binary s) (.binary b) (encodeTuples ps) w).1 =
          .ok (makeTuple2 atomOk (resultCodes ts.length
            (syncEnv.respond (w.submitted ++ [.batchWrite recs])).resultOf))) ∧
    ∀ ts recs job out resultOf, encodeTuples ps = ofList ts →
      (cdtDeleteByKeysBatchAsyncJob c (.reference ref) (.binary n) (.binary s) (.binary b)
        (encodeTuples ps) w).1 = .ok job →
      job.request = .batchWrite recs → Succeeded out →
      out.results = (List.range recs.length).map resultOf →
        callback c job out =
          .ok (makeTuple3 atomOk (.reference ref) (resultCodes ts.length resultOf)) := by
  have hlength : ∀ ts, encodeTuples ps = ofList ts → ts.length = ps.length := by
    intro ts hts
    rw [← ofList_injective hts,List.length_map]
  constructor
  · intro ts recs hts hrecs hstatus
    have hrun := sync_run c syncEnv hw n s b ps
    unfold syncDelete submissions at *
    rw [hrun] at hrecs ⊢
    simp only [afterBatch_submitted,List.drop_left,Option.some.injEq,List.cons.injEq,
      and_true] at hrecs
    rw [hrecs,batchAnswer,if_neg (not_not.mpr hstatus),hlength ts hts]
  · intro ts recs job out resultOf hts hjob hrecs hout hresults
    rw [async_job c ref hw n s b ps] at hjob
    cases hjob
    have hrecs : recs.length = ps.length := by
      rw [← Request.batchWrite.inj hrecs,List.length_map]
    have hcodes : ofList (out.results.map .integer) = resultCodes ts.length resultOf := by
      rw [hresults,hrecs,hlength ts hts,List.map_map]
      rfl
    show cdtDeleteByKeysBatchAsyncCallback (.reference ref) out = _
    unfold cdtDeleteByKeysBatchAsyncCallback
    cases herr : out.err with
    | none => rw [← hcodes]
    | some e =>
      show (if e.1 ≠ aerospikeOk then _ else _) = _
      rw [if_neg (not_not.mpr (hout e.1 e.2 herr)),hcodes]

theorem same_batch_iff (hw : w.isConnectedFlag = true) (n s b : Bytes) (ps : List KeySubkeys) :
    submissions (syncDelete c syncEnv (.binary n) (.binary s) (.binary b) (encodeTuples ps)) w =
      submissions (asyncDelete c asyncEnv ref (.binary n) (.binary s) (.binary b)
        (encodeTuples ps)) w ↔ ps = [] := by
  obtain ⟨t,hasync⟩ := async_run c asyncEnv ref hw n s b ps
  unfold syncDelete asyncDelete submissions
  rw [sync_run c syncEnv hw n s b ps,hasync]
  simp only [afterBatch_submitted,afterSubmit,List.drop_left]
  cases ps with
  | nil => exact iff_of_true rfl rfl
  | cons p ps =>
    have hne : recordClientDefaultTtl ≠ recordNoChangeTtl := by decide
    apply iff_of_false _ (List.cons_ne_nil p ps)
    intro h
    simp [batch,batchWrite,hne] at h

theorem agree_encoded (hw : w.isConnectedFlag = true) (n s b : Bytes) (ps : List KeySubkeys) :
    Agree c w syncEnv asyncEnv ref (.binary n) (.binary s) (.binary b) (encodeTuples ps) ↔
      ps = [] ∧ w.config.batchWriteTtl = 1000 := by
  have hconfig : (syncDelete c syncEnv (.binary n) (.binary s) (.binary b)
      (encodeTuples ps) w).2.config = { w.config with batchWriteTtl := 1000 } := by
    unfold syncDelete
    rw [sync_run c syncEnv hw n s b ps,afterBatch_config]
  constructor
  · intro h
    constructor
    · exact (same_batch_iff syncEnv asyncEnv ref hw n s b ps).mp h.same_batch
    · rw [← h.sync_config,hconfig]
  · rintro ⟨hps,httl⟩
    have hanswers := answers_each (c := c) syncEnv ref hw n s b ps
    constructor
    · exact (same_batch_iff syncEnv asyncEnv ref hw n s b ps).mpr hps
    · rw [hconfig,← httl]
    · obtain ⟨t,hasync⟩ := async_run c asyncEnv ref hw n s b ps
      unfold asyncDelete
      rw [hasync]
      rfl
    · exact hanswers.1
    · exact hanswers.2

/-- For all argument terms. -/
theorem batch_deletes_agree_iff (hw : w.isConnectedFlag = true) :
    Agree c w syncEnv asyncEnv ref ns set bin list ↔ AgreeOn w ns set bin list := by
  rcases arguments_cases ns set bin list with ⟨n,s,b,ts,rfl,rfl,rfl,rfl⟩ | hbad
  · rcases tuples_cases c n s b ts with ⟨ps,rfl⟩ | ⟨t,ht,hsync,hasync⟩
    · apply (agree_encoded syncEnv asyncEnv ref hw n s b ps).trans
      constructor
      · rintro h n' s' b' ps' hn hs hb hps
        have hmap : ps.map encodeTuple = ps'.map encodeTuple := ofList_injective hps
        rw [h.1] at hmap
        exact ⟨List.map_eq_nil_iff.mp hmap.symm,h.2⟩
      · intro h
        exact h n s b ps rfl rfl rfl rfl
    · apply iff_of_true
      · exact agree_of_refused syncEnv asyncEnv ref
          (sync_refused c syncEnv hw n s b ⟨t,ht,hsync⟩)
          (async_refused c ref n s b ⟨t,ht,hasync⟩)
      · intro n' s' b' ps' _ _ _ hps
        rw [ofList_injective hps] at ht
        obtain ⟨p,_,rfl⟩ := List.mem_map.mp ht
        rw [validateTuple_encode] at hasync
        cases hasync
  · apply iff_of_true
    · exact agree_of_refused syncEnv asyncEnv ref (sync_arguments_refused syncEnv hbad)
        (async_arguments_refused ref hbad)
    · rintro n s b ps rfl rfl rfl rfl
      simp [encodeTuples,inspectBinary,getListLength_ofList] at hbad

/-- The policy as an earlier batch delete leaves it. -/
def earlierBatch : World :=
  { connectedWorld with config := { connectedWorld.config with batchWriteTtl := 1000 } }

theorem empty_batch_agrees :
    Agree plainClient earlierBatch plainEnv plainEnv 1 (.binary [110]) (.binary [115])
      (.binary [98]) (encodeTuples []) :=
  (batch_deletes_agree_iff plainEnv plainEnv 1 rfl).mpr (by
    intro n s b ps _ _ _ hps
    have hmap : ([] : List KeySubkeys).map encodeTuple = ps.map encodeTuple :=
      ofList_injective hps
    exact ⟨List.map_eq_nil_iff.mp hmap.symm,rfl⟩)

/-- One key of one record: the record keeps its life time or loses it. -/
theorem one_tuple_disagrees :
    ¬∀ (c : Client) (w : World), w.isConnectedFlag = true → ∀ (syncEnv asyncEnv : Env) (ref : ℕ)
      (ns set bin list : Term), Agree c w syncEnv asyncEnv ref ns set bin list := by
  intro h
  have hagree := h plainClient connectedWorld rfl plainEnv plainEnv 1 (.binary [110])
    (.binary [115]) (.binary [98]) (encodeTuples [([107],[[97]])])
  have hempty := (same_batch_iff plainEnv plainEnv 1 rfl [110] [115] [98]
    [([107],[[97]])]).mp hagree.same_batch
  cases hempty

end Comparison

end AspikePort.BatchAgreement
