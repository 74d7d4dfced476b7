import AspikePort.SyncCalls

/-!
# The asynchronous data operations and their callbacks

A call ends with a job: the `callback_data`, the listener and the request.
The client runs the listener later, on its own thread, and the listener turns
the outcome into the one message of the call.
-/

set_option autoImplicit false

namespace AspikePort.AsyncCalls
open AspikePort.ErlangTerms AspikePort.ClientValues AspikePort.EarlyReturn
open AspikePort.NifWorld AspikePort.CdtPut AspikePort.ValueFormat AspikePort.SyncCalls Proc

section Jobs
variable (c : Client)

def cdtGetAsyncJob (ref nameSpace set key policy : Term) : Nif AsyncJob := do
  let k ← lift (refKey ref nameSpace set key)
  let p ← lift (readPolicyAsync policy)
  isConnected
  return ⟨ref,some k,[],.cdtGet,.keyGet k (some p)⟩

def cdtDeleteByKeysAsyncJob (ref nameSpace set key bin list : Term) : Nif AsyncJob := do
  let k ← lift (refKey ref nameSpace set key)
  let bin ← lift (orBadarg (inspectBinary bin))
  let length ← lift (orBadarg (getListLength list))
  isConnected
  let ops := removeOperations c bin length list
  return ⟨ref,some k,[],.cdtDeleteByKeys,.keyOperate k ops none⟩

/-- The first pass: nothing is kept of what it reads. -/
def validateTuples (n : ℕ) (tuples : Term) : Except Reply Unit :=
  cellsExcept (fun _ => .error .badarg) (fun _ entry => do
    let (_,list,length) ← readKeySubkeys entry
    cellsExcept (fun _ => .error .badarg) (fun _ head => do
      let _ ← orBadarg (inspectBinary head)
      return ()) length list ()) n tuples ()

/-- The second pass on one tuple; none of its reads is checked. -/
def batchWriteAsync (nameSpace set bin : Bytes) (entry : Term) : Except Reply BatchWrite := do
  let (pk,list,length) ← unchecked (readKeySubkeys entry)
  let subkeys ← cellsExcept (fun _ => .error (.fault .uncheckedAccess)) (fun s head => do
    let subkey ← unchecked (orBadarg (inspectBinary head))
    return s ++ [cStr subkey]) length list []
  let ops := Operations.add c ⟨0,[]⟩ (.mapRemoveByKeyList (cStr bin) subkeys)
  return ⟨asKeyInitStr nameSpace set pk,{ ops with ttl := recordNoChangeTtl }⟩

/-- Its `callback_data` is created without a key, so no node is tracked. -/
def cdtDeleteByKeysBatchAsyncJob (ref nameSpace set bin tuples : Term) : Nif AsyncJob := do
  if ¬isRef ref then stop .badarg
  else do
    let ns ← lift (orBadarg (inspectBinary nameSpace))
    let set ← lift (orBadarg (inspectBinary set))
    let bin ← lift (orBadarg (inspectBinary bin))
    let tuplesAmount ← lift (orBadarg (getListLength tuples))
    let _ ← lift (validateTuples tuplesAmount tuples)
    isConnected
    let recs ← lift (cellsExcept (fun _ => .error (.fault .uncheckedAccess)) (fun s entry => do
      let write ← batchWriteAsync c ns set bin entry
      return s ++ [write]) tuplesAmount tuples [])
    return ⟨ref,none,[],.cdtDeleteByKeysBatch,.batchWrite recs⟩

def segmentTagGetAsyncJob (ref nameSpace set key bin : Term) : Nif AsyncJob := do
  let k ← lift (refKey ref nameSpace set key)
  let bin ← lift (orBadarg (inspectBinary bin))
  isConnected
  return ⟨ref,some k,bin,.segmentTagGet,.keySelect k [cStr bin]⟩

def cdtGetAsync (env : Env) (ref nameSpace set key policy : Term) : Nif Term := do
  let job ← cdtGetAsyncJob ref nameSpace set key policy
  submitAsync env job

def cdtDeleteByKeysAsync (env : Env) (ref nameSpace set key bin list : Term) : Nif Term := do
  let job ← cdtDeleteByKeysAsyncJob c ref nameSpace set key bin list
  submitAsync env job

def cdtDeleteByKeysBatchAsync (env : Env) (ref nameSpace set bin tuples : Term) :
    Nif Term := do
  let job ← cdtDeleteByKeysBatchAsyncJob c ref nameSpace set bin tuples
  submitAsync env job

def segmentTagGetAsync (env : Env) (ref nameSpace set key bin : Term) : Nif Term := do
  let job ← segmentTagGetAsyncJob ref nameSpace set key bin
  submitAsync env job

end Jobs

section Exceptions
variable {α : Type}

/-- The static types that meet at the one handler of the source. -/
inductive CxxType where
  | charPointer
  | constCharPointer
  deriving DecidableEq, Repr

/-- A handler takes its own type; a pointer may gain a `const` on the way, but
never lose one. -/
def caughtBy (handler thrown : CxxType) : Bool :=
  handler = thrown ∨ handler = .constCharPointer

structure Thrown where
  type : CxxType
  text : String

/-- A string literal decays to `const char*`. -/
def throwLiteral (text : String) : Except Thrown α := .error ⟨.constCharPointer,text⟩

def catching (handler : CxxType) (recover : String → α) :
    Except Thrown (Except Fault α) → Except Fault α
  | .ok r => r
  | .error e => if caughtBy handler e.type then .ok (recover e.text)
      else .error .uncaughtException

end Exceptions

section Callbacks
variable (c : Client)

/-- What the client hands to a listener. -/
structure Outcome where
  err : Option (ℤ × String)
  record : Option Record
  results : List ℤ

def callbackError (ref : Term) (code : ℤ) (msg : Term) : Term :=
  makeTuple3 atomError ref (makeTuple3 (.integer nifOk) (.integer code) msg)

def errorText (code : ℤ) (msg : String) : Term :=
  makeString (if code = aerospikeErrNoMoreConnections then "connection_pool_exhausted"
    else orUnknown msg)

/-- The four listeners of single-record commands share their error branch. -/
def onSuccess (ref : Term) (out : Outcome) (message : Except Fault Term) : Except Fault Term :=
  match out.err with
  | some (code,msg) => .ok (callbackError ref code (errorText code msg))
  | none => message

def cdtPutAsyncCallback (ref : Term) (out : Outcome) : Except Fault Term :=
  onSuccess ref out (.ok (makeTuple3 atomOk ref (makeString "put")))

def cdtGetAsyncCallback (ref : Term) (out : Outcome) : Except Fault Term :=
  onSuccess ref out (match out.record with
    | none => .error .nullPointer
    | some rec => do return makeTuple3 atomOk ref (← dumpCdtRecords c rec))

def cdtDeleteByKeysAsyncCallback (ref : Term) (out : Outcome) : Except Fault Term :=
  onSuccess ref out (.ok (makeTuple3 atomOk ref (makeString "keys_deleted")))

/-- The only listener that also looks at the code of an error it is given. -/
def cdtDeleteByKeysBatchAsyncCallback (ref : Term) (out : Outcome) : Except Fault Term :=
  match out.err with
  | some (code,msg) =>
    if code ≠ aerospikeOk then .ok (callbackError ref code (errorText code msg))
    else .ok (makeTuple3 atomOk ref (ofList (out.results.map .integer)))
  | none => .ok (makeTuple3 atomOk ref (ofList (out.results.map .integer)))

/-- The `try` block. -/
def segmentTagResponse (ref : Term) (record : Option Record) (bin : Bytes) :
    Except Thrown (Except Fault Term) :=
  match record with
  | none => throwLiteral "NULL p_rec"
  | some rec => match rec.get bin with
    | none => throwLiteral "NULL val - internal error"
    | some (.string value) => return .ok (makeTuple3 atomOk ref (.binary value))
    | some (.map entries) => return do return makeTuple3 atomOk ref (← segmentMap entries)
    | some _ => throwLiteral "Non-string or non-map bin - internal error"

def segmentTagGetAsyncCallback (ref : Term) (binName : Bytes) (out : Outcome) :
    Except Fault Term :=
  onSuccess ref out (catching .charPointer
    (fun reason => callbackError ref c.aerospikeErr (makeString reason))
    (segmentTagResponse ref out.record (cStr binName)))

def callback (job : AsyncJob) (out : Outcome) : Except Fault Term :=
  match job.listener with
  | .cdtPut => cdtPutAsyncCallback job.ref out
  | .cdtGet => cdtGetAsyncCallback c job.ref out
  | .cdtDeleteByKeys => cdtDeleteByKeysAsyncCallback job.ref out
  | .cdtDeleteByKeysBatch => cdtDeleteByKeysBatchAsyncCallback job.ref out
  | .segmentTagGet => segmentTagGetAsyncCallback c job.ref job.binName out

end Callbacks

end AspikePort.AsyncCalls
