import AspikePort.NifWorld

/-!
# The two cdt_put functions

Both turn a list of bins, each with a flat list of key, value and ttl, into
one sequence of map-put operations. The functions share what they do with one
element; they walk the bins, validate and initialise the operations object
each in its own way.
-/

set_option autoImplicit false

namespace AspikePort.CdtPut
open AspikePort.ErlangTerms AspikePort.ClientValues AspikePort.EarlyReturn
open AspikePort.NifWorld Proc

section Arguments

def binaryKey (nameSpace set key : Term) : Except Reply AsKey := do
  let ns ← orBadarg (inspectBinary nameSpace)
  let set ← orBadarg (inspectBinary set)
  let key ← orBadarg (inspectBinary key)
  return asKeyInitStr ns set key

theorem inspectBinary_binary (data : Bytes) :
    orBadarg (inspectBinary (.binary data)) = .ok data := rfl

theorem binaryKey_binary (ns set key : Bytes) :
    binaryKey (.binary ns) (.binary set) (.binary key) = .ok (asKeyInitStr ns set key) := rfl

/-- `{max_retries, sleep_between_retries, socket_timeout, total_timeout}`; an
element that cannot be read keeps the variable's initial value. -/
def readPolicy (policy : Term) : Except Reply Policy := do
  match ← orBadarg (getTuple policy) with
  | [retries,sleep,socket,total] => return {
      maxRetries := UInt32.ofInt ((getLong retries).getD 0)
      sleepBetweenRetries := some (UInt32.ofInt ((getLong sleep).getD 0))
      socketTimeout := UInt32.ofInt ((getLong socket).getD 30000)
      totalTimeout := UInt32.ofInt ((getLong total).getD 1000) }
  | _ => .error .badarg

/-- The async functions start from zeros and leave the sleep to the client. -/
def readPolicyAsync (policy : Term) : Except Reply Policy := do
  match ← orBadarg (getTuple policy) with
  | [retries,_,socket,total] => return {
      maxRetries := UInt32.ofInt ((getLong retries).getD 0)
      sleepBetweenRetries := none
      socketTimeout := UInt32.ofInt ((getLong socket).getD 0)
      totalTimeout := UInt32.ofInt ((getLong total).getD 0) }
  | _ => .error .badarg

/-- A bin is a pair of a name and a proper list: the name, the list and its
length. -/
def readBin (bin : Term) : Except Reply (Bytes × Term × ℕ) := do
  match ← orBadarg (getTuple bin) with
  | [name,data] => do
    let name ← orBadarg (inspectBinary name)
    let length ← orBadarg (getListLength data)
    return (name,data,length)
  | _ => .error .badarg

end Arguments

section Elements
variable (c : Client) (now : ℤ)

/-- The values 0, 1 and 2 of `opnum`; no other value is ever stored. -/
inductive Opnum where
  | key | value | ttl
  deriving DecidableEq, Repr

/-- `context` is the context created last. -/
structure PutState where
  opnum : Opnum
  context : List Bytes
  ops : Operations

def putElement (bin : Bytes) (s : PutState) (head : Term) : PutState :=
  match s.opnum with
  | .key => { s with
      opnum := .value
      -- a key that is no binary leaves the new context empty
      context := match inspectBinary head with | some key => [cStr key] | none => [] }
  | .value => { s with
      opnum := .ttl
      ops := match inspectBinary head with
        | some data => s.ops.add c (.mapPut (cStr bin) s.context valueKey (.bytes data))
        | none => s.ops }
  | .ttl => { s with
      opnum := .key
      ops := (match getInt64 head with
        | some i => s.ops.add c (.mapPut (cStr bin) s.context ttlKey (.integer i))
        | none => s.ops).add c (.mapPut (cStr bin) s.context wtKey (.integer now)) }

def putBin (bin : Bytes) (data : Term) (length : ℕ) (ops : Operations) : Operations :=
  (cells (putElement c now bin) length data ⟨.key,[],ops⟩).ops

def initOperations (ttl : ℤ) : Operations :=
  ⟨if ttl ≠ 0 then UInt32.ofInt ttl else UInt32.ofInt (-2),[]⟩

/-- The loop of `cdt_put_sync`. It initialises the operations object for each
bin and never moves `list` on to `tail`. -/
def putSyncBins (ttl : ℤ) : ℕ → Term → Operations → Except Reply Operations
  | 0, _, ops => .ok ops
  | n+1, list, ops =>
    match getListCell list with
    | none => .ok ops
    | some (head,_) => do
      let (name,data,length) ← readBin head
      putSyncBins ttl n list (putBin c now name data length (initOperations ttl))

/-- The first pass of `cdt_put_async`: `total_operations`. -/
def validateBins (n : ℕ) (bins : Term) : Except Reply ℕ :=
  cellsExcept (fun _ => .error .badarg)
    (fun total bin => do
      let (_,_,length) ← readBin bin
      return total+length) n bins 0

/-- The second pass; none of its reads is checked. -/
def putAsyncBins (n : ℕ) (bins : Term) (ops : Operations) : Except Reply Operations :=
  cellsExcept (fun _ => .error (.fault .uncheckedAccess))
    (fun ops bin => do
      let (name,data,length) ← unchecked (readBin bin)
      return putBin c now name data length ops) n bins ops

end Elements

def cdtPutSync (c : Client) (env : Env) (nameSpace set key bins ttl policy : Term) :
    Nif Term := do
  let k ← lift (binaryKey nameSpace set key)
  let length ← lift (orBadarg (getListLength bins))
  let ttl ← lift (orBadarg (getLong ttl))
  let p ← lift (readPolicy policy)
  if length = 0 then return okString "put"
  else do
    isConnected
    let ops ← lift (putSyncBins c env.now ttl length bins ⟨0,[]⟩)
    syncOperationCounter env do
      let r ← submit env (.keyOperate k ops (some ⟨p,UInt32.ofInt ttl⟩))
      if r.status ≠ aerospikeOk then return makeNifError r.errCode r.message
      else return okString "put"

/-- The function an async call registers for the completion of its request. -/
inductive Listener where
  | cdtPut | cdtGet | cdtDeleteByKeys | cdtDeleteByKeysBatch | segmentTagGet
  deriving DecidableEq, Repr

/-- What an async function has ready when it creates its `callback_data`: the
fields it stores there, the listener and the request. -/
structure AsyncJob where
  ref : Term
  tracked : Option AsKey
  binName : Bytes
  listener : Listener
  request : Request

def refKey (ref nameSpace set key : Term) : Except Reply AsKey :=
  if isRef ref then binaryKey nameSpace set key else .error .badarg

theorem refKey_reference (ref : ℕ) (ns set key : Bytes) :
    refKey (.reference ref) (.binary ns) (.binary set) (.binary key) =
      .ok (asKeyInitStr ns set key) := rfl

def cdtPutAsyncJob (c : Client) (env : Env) (ref nameSpace set key bins ttl policy : Term) :
    Nif AsyncJob := do
  let k ← lift (refKey ref nameSpace set key)
  let binsAmount ← lift (orBadarg (getListLength bins))
  if binsAmount = 0 then stop (.term (okString "put"))
  else do
    isConnected
    let ttl ← lift (orBadarg (getLong ttl))
    let p ← lift (readPolicyAsync policy)
    let _totalOperations ← lift (validateBins binsAmount bins)
    let ops ← lift (putAsyncBins c env.now binsAmount bins (initOperations ttl))
    return ⟨ref,some k,[],.cdtPut,.keyOperate k ops (some ⟨p,UInt32.ofInt ttl⟩)⟩

def inProgress : Term := makeTuple2 atomOk atomInProgress

/-- The part every async function ends with: create the `callback_data`, submit,
and delete it again when the client did not take the request. -/
def submitAsync (env : Env) (job : AsyncJob) : Nif Term := do
  let nodeName ← trackNode env job.tracked
  let r ← submit env job.request
  if r.status ≠ aerospikeOk then do
    update (untrackNode nodeName)
    return makeNifError r.errCode (orUnknown r.message)
  else return inProgress

def cdtPutAsync (c : Client) (env : Env) (ref nameSpace set key bins ttl policy : Term) :
    Nif Term := do
  let job ← cdtPutAsyncJob c env ref nameSpace set key bins ttl policy
  submitAsync env job

end AspikePort.CdtPut
