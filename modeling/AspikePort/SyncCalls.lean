import AspikePort.CdtPut
import AspikePort.OrderedMap
import AspikePort.ValueFormat

/-!
# The synchronous data operations

Each function checks its arguments, asks whether the client is connected,
builds one request and turns the client's response into a term. The order of
these steps is the order of the source, which differs from function to
function.
-/

set_option autoImplicit false

namespace AspikePort.SyncCalls
open AspikePort.ErlangTerms AspikePort.ClientValues AspikePort.EarlyReturn
open AspikePort.NifWorld AspikePort.CdtPut AspikePort.ValueFormat Proc

section Arguments

def maxNamespaceSize : ℕ := 32
def maxSetSize : ℕ := 64
def maxKeyStrSize : ℕ := 1024
def asBinNameMaxSize : ℕ := 16
def asUserSize : ℕ := 64
def asPasswordSize : ℕ := 64
def maxBinsNumber : ℕ := 1024

def stringKey (nameSpace set key : Term) : Except Reply AsKey := do
  let ns ← orBadarg (getString maxNamespaceSize nameSpace)
  let set ← orBadarg (getString maxSetSize set)
  let key ← orBadarg (getString maxKeyStrSize key)
  return asKeyInitStr ns set key

/-- What the text and its final zero do to an array of `room` bytes. -/
def intoArray (room : ℕ) (text : Bytes) : Except Reply Bytes :=
  if text.length < room then .ok text else .error (.fault .bufferOverflow)

/-- `{Bin, Integer}`; the name goes into an array of 16 bytes. -/
def readIntegerBin (bin : Term) : Except Reply (Bytes × ℤ) := do
  match ← orBadarg (getTuple bin) with
  | [name,val] => do
    let name ← intoArray asBinNameMaxSize (← orBadarg (getString maxSetSize name))
    let val ← orBadarg (getLong val)
    return (cStr name,val)
  | _ => .error .badarg

end Arguments

section Answers

def answerString (r : Response) (done : String) : Term :=
  if r.status ≠ aerospikeOk then errorString r.message else okString done

/-- The end of `key_get` and `binary_get`. -/
def answerRecord (r : Response) (dump : Record → Except Fault Term) : Nif Term :=
  if r.status ≠ aerospikeOk then return errorString r.message
  else match r.record with
  | none => return errorString "NULL p_rec - internal error"
  | some rec => do
    let msg ← lift (orFault (dump rec))
    return makeTuple2 atomOk msg

end Answers

def cdtGetSync (c : Client) (env : Env) (nameSpace set key policy : Term) : Nif Term := do
  let k ← lift (binaryKey nameSpace set key)
  let p ← lift (readPolicy policy)
  isConnected
  syncOperationCounter env do
    let r ← submit env (.keyGet k (some p))
    if r.status ≠ aerospikeOk then return makeNifError r.errCode r.message
    else match r.record with
    | none => return makeNifError c.aerospikeErr "NULL p_rec - internal error"
    | some rec => do
      let msg ← lift (orFault (dumpCdtRecords c rec))
      return makeTuple2 atomOk msg

section Removals
variable (c : Client)

/-- `remove_list` and `subkeys_num`. -/
def collectSubkeys (length : ℕ) (list : Term) : List Bytes × ℕ :=
  cells (fun s head => match inspectBinary head with
    | some subkey => (s.1 ++ [cStr subkey],s.2+1)
    | none => s) length list ([],0)

def removeOperations (bin : Bytes) (length : ℕ) (list : Term) : Operations :=
  let (removeList,subkeysNum) := collectSubkeys length list
  let ops : Operations := ⟨recordNoChangeTtl,[]⟩
  if subkeysNum = length then ops.add c (.mapRemoveByKeyList (cStr bin) removeList) else ops

def cdtDeleteByKeysSync (env : Env) (nameSpace set key bin list : Term) : Nif Term := do
  let k ← lift (binaryKey nameSpace set key)
  let bin ← lift (orBadarg (inspectBinary bin))
  let length ← lift (orBadarg (getListLength list))
  isConnected
  let ops := removeOperations c bin length list
  syncOperationCounter env do
    let r ← submit env (.keyOperate k ops none)
    if r.status ≠ aerospikeOk then return makeNifError r.errCode r.message
    else return okString "keys_deleted"

/-- `{PrimaryKey, MapKeys}` with a proper list of keys. -/
def readKeySubkeys (entry : Term) : Except Reply (Bytes × Term × ℕ) := readBin entry

def readSubkeys (length : ℕ) (list : Term) : Except Reply (List Bytes) :=
  cellsExcept (fun s => .ok s) (fun s head => do
    let subkey ← orBadarg (inspectBinary head)
    return s ++ [cStr subkey]) length list []

def batchWriteSync (nameSpace set bin : Bytes) (entry : Term) : Except Reply BatchWrite := do
  let (pk,list,length) ← readKeySubkeys entry
  let subkeys ← readSubkeys length list
  let ops := Operations.add c ⟨0,[]⟩ (.mapRemoveByKeyList (cStr bin) subkeys)
  return ⟨asKeyInitStr nameSpace set pk,{ ops with ttl := recordClientDefaultTtl }⟩

def cdtDeleteByKeysBatchSync (env : Env) (nameSpace set bin list : Term) : Nif Term := do
  let ns ← lift (orBadarg (inspectBinary nameSpace))
  let set ← lift (orBadarg (inspectBinary set))
  let bin ← lift (orBadarg (inspectBinary bin))
  let length ← lift (orBadarg (getListLength list))
  isConnected
  let recs ← lift (cellsExcept (fun s => .ok s) (fun s entry => do
    let abwr ← batchWriteSync c ns set bin entry
    return s ++ [abwr]) length list [])
  syncOperationCounter env do
    touchClient
    update (fun w => { w with config := { w.config with batchWriteTtl := 1000 } })
    let r ← submit env (.batchWrite recs)
    if r.status ≠ aerospikeOk then return makeNifError r.errCode r.message
    else return makeTuple2 atomOk (ofList ((List.range length).map (fun i => .integer (r.resultOf i))))

end Removals

/-- The map a segment tag is answered with: every key and value as a binary.
Nobody looks at what `enif_make_map_from_arrays` returns. -/
def segmentMap (entries : List (AsVal × AsVal)) : Except Fault Term :=
  match makeMapFromArrays (entries.map (fun e => getBinaryFromAsval e.1))
      (entries.map (fun e => .binary (getBinaryFromAsval e.2))) with
  | some t => .ok t
  | none => .error .uncheckedAccess

def segmentTagAnswer (c : Client) (record : Option Record) (bin : Bytes) : Except Fault Term :=
  match record with
  | none => return makeNifError c.aerospikeErr "NULL p_rec"
  | some rec => match rec.get bin with
    | none => return makeNifError c.aerospikeErr "NULL val - internal error"
    | some (.string value) => return makeTuple2 atomOk (.binary value)
    | some (.map entries) => do return makeTuple2 atomOk (← segmentMap entries)
    | some _ => return makeNifError c.aerospikeErr "Non-string or non-map bin - internal error"

def segmentTagGetSync (c : Client) (env : Env) (nameSpace set key columns : Term) :
    Nif Term := do
  let k ← lift (binaryKey nameSpace set key)
  let columns ← lift (orBadarg (inspectBinary columns))
  isConnected
  syncOperationCounter env do
    let r ← submit env (.keySelect k [cStr columns])
    if r.status ≠ aerospikeOk then return makeNifError r.errCode r.message
    else lift (orFault (segmentTagAnswer c r.record (cStr columns)))

section KeyOperations
variable (c : Client) (env : Env)

/-- Stops at the first name it cannot read; `bins` has room for 1024 names and
the final NULL. -/
def selectNames : ℕ → Term → List Bytes → Except Reply (List Bytes)
  | 0, _, bins => .ok bins
  | n+1, list, bins =>
    match getListCell list with
    | none => .ok bins
    | some (head,tail) =>
      match getString maxKeyStrSize head with
      | none => .ok bins
      | some bin => do
        let bin ← intoArray asBinNameMaxSize bin
        if maxBinsNumber ≤ bins.length then .error (.fault .bufferOverflow)
        else selectNames n tail (bins ++ [cStr bin])

def keySelectSync (nameSpace set key list : Term) : Nif Term := do
  let k ← lift (stringKey nameSpace set key)
  let length ← lift (orBadarg (getListLength list))
  isConnected
  if length = 0 then return makeTuple2 atomOk (ofList [])
  else do
    let bins ← lift (selectNames length list [])
    if maxBinsNumber ≤ bins.length then stop (.fault .bufferOverflow)
    else do
      let r ← submit env (.keySelect k bins)
      if r.status ≠ aerospikeOk then return errorString r.message
      else match r.record with
      | none => stop (.fault .nullPointer)
      | some rec => do
        let msg ← lift (orFault (dumpRecords c rec))
        return makeTuple2 atomOk msg

def binaryGetSync (nameSpace set key : Term) : Nif Term := do
  let k ← lift (binaryKey nameSpace set key)
  isConnected
  let r ← submit env (.keyGet k none)
  answerRecord r (dumpBinaryRecords c)

def keyGetSync (nameSpace set key : Term) : Nif Term := do
  let k ← lift (stringKey nameSpace set key)
  isConnected
  let r ← submit env (.keyGet k none)
  answerRecord r (dumpRecords c)

def keyExistsSync (nameSpace set key : Term) : Nif Term := do
  let k ← lift (stringKey nameSpace set key)
  isConnected
  let r ← submit env (.keyExists k)
  if r.status ≠ aerospikeOk then return errorString r.message
  else return makeTuple2 atomOk atomTrue

def keyIncSync (nameSpace set key list : Term) : Nif Term := do
  let k ← lift (stringKey nameSpace set key)
  let length ← lift (orBadarg (getListLength list))
  isConnected
  if length = 0 then return okString "key_inc"
  else do
    let ops ← lift (cellsExcept (fun s => .ok s) (fun ops bin => do
      let (name,val) ← readIntegerBin bin
      return Operations.add c ops (.incr name val)) length list ⟨0,[]⟩)
    let r ← submit env (.keyOperate k ops none)
    return answerString r "key_inc"

def keyGenerationSync (nameSpace set key : Term) : Nif Term := do
  let k ← lift (stringKey nameSpace set key)
  isConnected
  let r ← submit env (.keyGet k none)
  answerRecord r (fun rec => .ok (.map
    [(makeString "gen",.integer rec.gen),(makeString "ttl",.integer rec.ttl)]))

/-- Whether the client takes the bin is not looked at. -/
def setBin (rec : PutRecord) (name : Bytes) (v : AsVal) : PutRecord :=
  (rec.set c (cStr name) v).getD rec

def keyPutSync (nameSpace set key list : Term) : Nif Term := do
  let k ← lift (stringKey nameSpace set key)
  let length ← lift (orBadarg (getListLength list))
  isConnected
  if length = 0 then return okString "key_put"
  else do
    let rec ← lift (cellsExcept (fun s => .ok s) (fun rec bin => do
      let (name,val) ← readIntegerBin bin
      return setBin c rec name (.integer val)) length list ⟨length,0,[]⟩)
    let r ← submit env (.keyPut k rec)
    return answerString r "key_put"

/-- The integers of a list; everything else in it is passed over. -/
def collectIntegers (length : ℕ) (list : Term) : List AsVal :=
  cells (fun s head => match getInt64 head with
    | some i => s ++ [.integer i]
    | none => s) length list []

def putBinaryBin (rec : PutRecord) (bin : Term) : Except Reply PutRecord := do
  match ← orBadarg (getTuple bin) with
  | [name,value] => do
    let name ← orBadarg (inspectBinary name)
    match inspectBinary value with
    | some data => return setBin c rec name (.bytes data)
    | none =>
      if isNumber value then
        match getInt64 value with
        | some i => return setBin c rec name (.integer i)
        | none => return rec
      else if isAtom value then return setBin c rec name .nil
      else do
        let length ← orBadarg (getListLength value)
        return setBin c rec name (.list (collectIntegers length value))
  | _ => .error .badarg

def binaryPutSync (nameSpace set key list ttl : Term) : Nif Term := do
  let k ← lift (binaryKey nameSpace set key)
  let length ← lift (orBadarg (getListLength list))
  let ttl ← lift (orBadarg (getLong ttl))
  if length = 0 then return okString "key_put"
  else do
    isConnected
    let rec ← lift (cellsExcept (fun s => .ok s) (putBinaryBin c) length list
      ⟨length,UInt32.ofInt ttl,[]⟩)
    let r ← submit env (.keyPut k rec)
    return answerString r "key_put"

/-- Never moves on from the first name. -/
def removeBins : ℕ → Term → PutRecord → Except Reply PutRecord
  | 0, _, rec => .ok rec
  | n+1, list, rec =>
    match getListCell list with
    | none => .ok rec
    | some (head,_) => do
      let name ← orBadarg (inspectBinary head)
      removeBins n list (setBin c rec name .nil)

def binaryRemoveSync (nameSpace set key list ttl : Term) : Nif Term := do
  let k ← lift (binaryKey nameSpace set key)
  let length ← lift (orBadarg (getListLength list))
  let ttl ← lift (orBadarg (getLong ttl))
  if length = 0 then return okString "key_put"
  else do
    isConnected
    let rec ← lift (removeBins c length list ⟨length,UInt32.ofInt ttl,[]⟩)
    let r ← submit env (.keyPut k rec)
    return answerString r "key_put"

/-- Returns before it looks at its arguments. -/
def cdtExpireSync (_nameSpace _set _key _ttl : Term) : Nif Term :=
  return errorString "method not completed"

def keyRemoveSync (nameSpace set key : Term) : Nif Term := do
  let k ← lift (stringKey nameSpace set key)
  isConnected
  let r ← submit env (.keyRemove k)
  return answerString r "key_remove"

/-- A 32-bit counter against a 64-bit bound; `some` is the first put that
fails. -/
def putLoop (k : AsKey) (rec : PutRecord) (n : ℤ) : ℕ → UInt32 → Nif (Option String)
  | 0, _ => stop (.fault .outOfFuel)
  | fuel+1, i =>
    if (i.toNat : ℤ) < n then do
      let r ← submit env (.keyPut k rec)
      if r.status ≠ aerospikeOk then return some r.message
      else putLoop k rec n fuel (i+1)
    else return none

def aKeyPutSync (bin val nameSpace set key n : Term) : Nif Term := do
  let bin ← lift (orBadarg (getString asUserSize bin))
  let bin ← lift (intoArray asBinNameMaxSize bin)
  let val ← lift (orBadarg (getLong val))
  let k ← lift (stringKey nameSpace set key)
  let n ← lift (orBadarg (getLong n))
  isConnected
  let failed ← putLoop env k (setBin c ⟨1,0,[]⟩ bin (.integer val)) n env.fuel 0
  match failed with
  | some msg => return errorString msg
  | none =>
    if n = 0 then stop (.fault .divisionByZero)
    else return makeTuple2 atomOk (.map
      [(makeString "repetitions",.integer (n%2^64)),
       (makeString "CLOCK_THREAD_CPUTIME_ID",.float (env.toDouble (env.threadTspent.tdiv n))),
       (makeString "CLOCK_REALTIME",.float (env.toDouble (env.realTspent.tdiv n)))])

end KeyOperations

section MapPut
variable (c : Client) (env : Env)

/-- Keys may be binaries, atoms or character lists. -/
def mapKeyText (key : Term) : Except Reply Bytes :=
  match inspectBinary key with
  | some data => .ok (cStr data)
  | none => match getAtom 256 key with
    | some name => .ok (cStr name)
    | none => do return cStr (← orBadarg (getString 256 key))

/-- The ordered map under construction. -/
def mapEntry (es : List (Bytes × Bytes)) (pair : Term × Term) :
    Except Reply (List (Bytes × Bytes)) := do
  let key ← mapKeyText pair.1
  let value ← orBadarg (inspectBinary pair.2)
  return OrderedMap.put key value es

def asOrderedmap (es : List (Bytes × Bytes)) : AsVal :=
  .map (es.map (fun e => (.string e.1,.bytes e.2)))

def mapPutSync (nameSpace set key bin ttl map : Term) : Nif Term := do
  let k ← lift (binaryKey nameSpace set key)
  let bin ← lift (orBadarg (inspectBinary bin))
  if ¬isNumber ttl then stop .badarg
  else do
    let pairs ← lift (orBadarg (getMap map))
    isConnected
    -- a number that is no 64-bit integer leaves the variable as it was
    let ttl := (getLong ttl).getD env.uninit
    let es ← lift (pairs.foldlM mapEntry [])
    let rec ← lift (orBadarg
      (PutRecord.set c ⟨1,UInt32.ofInt ttl,[]⟩ (cStr bin) (asOrderedmap es)))
    let r ← submit env (.keyPut k rec)
    if r.status ≠ aerospikeOk then return makeNifError r.errCode (orUnknown r.message)
    else return makeTuple2 atomOk atomDone

end MapPut

end AspikePort.SyncCalls
