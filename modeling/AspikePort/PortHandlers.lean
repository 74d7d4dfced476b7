import AspikePort.PortPuts

/-!
# The commands of the port

A frame is a tuple that begins with the name of a command. Every handler begins
the reply, reads its arguments, asks the client and ends in a `POST`, or should.
What the client answers and what an unset variable holds is a parameter.
-/

set_option autoImplicit false

namespace AspikePort.PortHandlers
open AspikePort.ErlangTerms AspikePort.ClientValues AspikePort.EarlyReturn
open AspikePort.PutAgreement AspikePort.SyncCalls
open AspikePort.ExternalTerms AspikePort.EiBuffers AspikePort.PortDumps AspikePort.PortCalls
open AspikePort.PortPuts Proc

section Environment

/-- An error message of the client, for which there are 1024 bytes. -/
structure ErrText where
  text : String
  short : (textBytes text).length < 1024

structure ErrReport where
  message : ErrText
  inDoubt : Bool

def ErrReport.text (err : ErrReport) : String :=
  if err.inDoubt then "unknown error" else err.message.text

structure Node where
  name : Bytes
  address : Bytes

/-- The fields of the client's configuration that no command changes. -/
structure FixedConfig where
  clusterName : Option Bytes
  ipMapSize : UInt32
  pipeMaxConnsPerNode : UInt32
  connPoolsPerNode : UInt32
  connTimeoutMs : UInt32
  loginTimeoutMs : UInt32
  maxSocketIdle : UInt32
  maxErrorRate : UInt32
  errorRateWindow : UInt32
  tenderInterval : UInt32
  threadPoolSize : UInt32
  tendThreadCpu : ℤ
  failIfNotConnected : Bool
  useServicesAlternate : Bool
  rackAware : Bool
  rackId : ℤ
  useShm : Bool
  shmKey : ℤ
  shmMaxNodes : UInt32
  shmMaxNamespaces : UInt32
  shmTakeoverThresholdSec : UInt32
  infoTimeout : UInt32
  infoSendAsIs : Bool
  infoCheckBounds : Bool

structure Cluster where
  clusterName : Option Bytes
  user : Option Bytes
  password : Option Bytes
  nodes : List Node
  nodeIndex : ℤ
  nPartitions : ℤ

structure PortEnv where
  client : Client
  now : ℤ
  /-- An `int` that the decoder at this place has not set. -/
  uninit : List Tok → ℤ
  respond : List Request → Response
  short : ∀ reqs, (textBytes (respond reqs).message).length < 1024
  addHosts : Bytes → ℤ → Option (List Host)
  connect : Option ErrText
  fixedConfig : FixedConfig
  cluster : Cluster
  randomNode : Option Node
  nodeNameMaxSize : ℕ
  infoCommandNode : Node → Bytes → Except ErrReport (Option Bytes)
  lookupHost : Bytes → ℤ → Except ErrReport (List ℕ)
  /-- The status, and the answer if there is one. -/
  infoCommandHost : ℕ → Bytes → ℤ × Option Bytes
  infoAny : Bytes → Except ErrReport (Option Bytes)

end Environment

section Arguments

def textArg (size : ℕ) (msg : String) : Port Bytes := do orStop msg (← decodeStringInto size)

/-- The three texts of a key. -/
def keyArgs : Port AsKey := do
  let nameSpace ← textArg maxNamespaceSize "invalid first argument: namespace"
  let set ← textArg maxSetSize "invalid second argument: set"
  let key ← textArg maxKeyStrSize "invalid third argument: key_str"
  return asKeyInitStr nameSpace set key

def isShortInteger (termType : ErlType) : Bool := termType = .smallInteger || termType = .integer

def tupleLength (env : PortEnv) : Port ℤ := do
  let s ← state
  match ← decode eiDecodeTupleHeader with
  | some arity => return arity
  | none => return env.uninit s.index

/-- The result of the decoder is not looked at. -/
def policyNumber (msg : String) (initial : ℤ) : Port ℤ := do
  let (termType,_) ← getType
  if ¬isShortInteger termType then stopError msg
  else return (← decode eiDecodeLong).getD initial

/-- `{max_retries, sleep_between_retries, socket_timeout, total_timeout}` -/
def policyArg (env : PortEnv) (sizeMsg msg : String) : Port Policy := do
  let tupleLen ← tupleLength env
  if tupleLen ≠ 4 then stopError sizeMsg
  else do
    let maxRetries ← policyNumber (msg ++ "1") 0
    let sleepBetweenRetries ← policyNumber (msg ++ "2") 0
    let socketTimeout ← policyNumber (msg ++ "3") 30000
    let totalTimeout ← policyNumber (msg ++ "4") 1000
    return {
      maxRetries := UInt32.ofInt maxRetries
      sleepBetweenRetries := some (UInt32.ofInt sleepBetweenRetries)
      socketTimeout := UInt32.ofInt socketTimeout
      totalTimeout := UInt32.ofInt totalTimeout }

end Arguments

section Answers

/-- Hands a request to the client and goes on only if it succeeds. -/
def request (env : PortEnv) (req : Request) : Port Response := do
  let r ← submit env.respond req
  if r.status ≠ aerospikeOk then stopError r.message else return r

def orFault {α : Type} : Except Fault α → Port α
  | .ok a => pure a
  | .error f => stop (.fault f)

def listOut {α : Type} (f : α → List Tok) (xs : List α) : List Tok :=
  eiXEncodeListHeader xs.length ++ xs.flatMap f ++ eiXEncodeEmptyList

inductive FieldValue where
  | text (chars : Bytes)
  | number (i : ℤ)
  | flag (b : Bool)

def FieldValue.toks : FieldValue → List Tok
  | .text chars => eiXEncodeString chars
  | .number i => eiXEncodeLong i
  | .flag b => eiXEncodeBoolean b

def fieldOut (field : String × FieldValue) : List Tok :=
  eiXEncodeString (textBytes field.1) ++ field.2.toks

def uint (n : UInt32) : FieldValue := .number n.toNat

/-- A missing text is shown as an empty one. -/
def textOr (chars : Option Bytes) : FieldValue := .text (chars.getD [])

end Answers

section Configuration
variable (env : PortEnv)

def configFields (config : Config) : List (String × FieldValue) := [
  ("user",.text config.user.1),
  ("password",.text config.user.2),
  ("number_of_hosts",.number config.hosts.length),
  ("cluster_name",textOr env.fixedConfig.clusterName),
  ("ip_map_size",uint env.fixedConfig.ipMapSize),
  ("min_conns_per_node",uint config.minConnsPerNode),
  ("max_conns_per_node",uint config.maxConnsPerNode),
  ("async_min_conns_per_node",uint config.asyncMinConnsPerNode),
  ("async_max_conns_per_node",uint config.asyncMaxConnsPerNode),
  ("pipe_max_conns_per_node",uint env.fixedConfig.pipeMaxConnsPerNode),
  ("conn_pools_per_node",uint env.fixedConfig.connPoolsPerNode),
  ("conn_timeout_ms",uint env.fixedConfig.connTimeoutMs),
  ("login_timeout_ms",uint env.fixedConfig.loginTimeoutMs),
  ("max_socket_idle",uint env.fixedConfig.maxSocketIdle),
  ("max_error_rate",uint env.fixedConfig.maxErrorRate),
  ("error_rate_window",uint env.fixedConfig.errorRateWindow),
  ("tender_interval",uint env.fixedConfig.tenderInterval),
  ("thread_pool_size",uint env.fixedConfig.threadPoolSize),
  ("tend_thread_cpu",.number env.fixedConfig.tendThreadCpu),
  ("fail_if_not_connected",.flag env.fixedConfig.failIfNotConnected),
  ("use_services_alternate",.flag env.fixedConfig.useServicesAlternate),
  ("rack_aware",.flag env.fixedConfig.rackAware),
  ("rack_id",.number env.fixedConfig.rackId),
  ("use_shm",.flag env.fixedConfig.useShm),
  ("shm_key",.number env.fixedConfig.shmKey),
  ("shm_max_nodes",uint env.fixedConfig.shmMaxNodes),
  ("shm_max_namespaces",uint env.fixedConfig.shmMaxNamespaces),
  ("shm_takeover_threshold_sec",uint env.fixedConfig.shmTakeoverThresholdSec)]

def policyInfoFields : List (String × FieldValue) := [
  ("timeout",uint env.fixedConfig.infoTimeout),
  ("send_as_is",.flag env.fixedConfig.infoSendAsIs),
  ("check_bounds",.flag env.fixedConfig.infoCheckBounds)]

def configInfoOut (config : Config) : List Tok :=
  eiXEncodeAtom "ok" ++ eiXEncodeMapHeader 29 ++ (configFields env config).flatMap fieldOut ++
    eiXEncodeString (textBytes "policy_info") ++ eiXEncodeMapHeader 3 ++
    (policyInfoFields env).flatMap fieldOut

def callConfigInfo : Port Unit := do
  preMacro
  checkAerospikeInit
  let s ← state
  put (configInfoOut env s.config)
  postMacro

def clusterFields : List (String × FieldValue) := [
  ("cluster_name",textOr env.cluster.clusterName),
  ("user",textOr env.cluster.user),
  ("password",textOr env.cluster.password),
  ("nodes_number",.number env.cluster.nodes.length),
  ("random_node_index",.number env.cluster.nodeIndex),
  ("n_partitions",.number env.cluster.nPartitions)]

def callClusterInfo : Port Unit := do
  preMacro
  checkAll
  put (eiXEncodeAtom "ok" ++ eiXEncodeMapHeader 6 ++ (clusterFields env).flatMap fieldOut)
  postMacro

def statusFields (s : PortState) : List (String × FieldValue) := [
  ("is_aerospike_initialised",.flag s.isAerospikeInitialised),
  ("is_connected",.flag s.isConnected)]

def callPortStatus : Port Unit := do
  preMacro
  let s ← state
  put (eiXEncodeAtom "ok" ++ eiXEncodeMapHeader 2 ++ (statusFields s).flatMap fieldOut)
  postMacro

def callAerospikeInit : Port Unit := do
  preMacro
  update (fun s => if s.isAerospikeInitialised then s else
    { s with config := env.client.configInit, isAerospikeInitialised := true })
  okMacro (textBytes "initialised")
  postMacro

def maxHostSize : ℕ := 1024

def callConfigAddHosts : Port Unit := do
  preMacro
  let host ← textArg maxHostSize "invalid first argument: host"
  let port ← required eiDecodeLong "invalid second argument: port"
  checkAerospikeInit
  match env.addHosts (cStr host) port with
  | none => stopError "failed to add host or port"
  | some hosts => do
    update (fun s => { s with config := { s.config with hosts := s.config.hosts ++ hosts } })
    okMacro (textBytes "host and port added")
    postMacro

def callConfigClearHosts : Port Unit := do
  preMacro
  checkAerospikeInit
  update (fun s => { s with config := { s.config with hosts := [] } })
  okMacro (textBytes "hosts list was cleared")
  postMacro

def hostOut (host : Host) : List Tok :=
  eiXEncodeTupleHeader 3 ++ eiXEncodeString (textBytes host.name) ++
    eiXEncodeString (textBytes host.tlsName) ++ eiXEncodeLong host.port

def callConfigListHosts : Port Unit := do
  preMacro
  checkAerospikeInit
  let s ← state
  put (eiXEncodeAtom "ok" ++ listOut hostOut s.config.hosts)
  postMacro

/-- What follows the arguments of `connect` and of `anon_connect`. -/
def connectClient : Port Unit :=
  match env.connect with
  | some err => do
    errorMacro (textBytes err.text)
    update (fun s => { s with isConnected := false })
    postMacro
  | none => do
    update (fun s => { s with isConnected := true })
    okMacro (textBytes "connected")
    postMacro

def callConnect : Port Unit := do
  preMacro
  let user ← textArg asUserSize "invalid first argument: user name"
  let password ← textArg asPasswordSize "invalid seconf argument: password"
  checkAerospikeInit
  update (fun s => { s with config := { s.config with user := (cStr user,cStr password) } })
  connectClient env

def callAnonConnect : Port Unit := do
  preMacro
  checkAerospikeInit
  connectClient env

end Configuration

section Keys
variable (env : PortEnv)

/-- The loop over `{Bin, Value}` pairs that `key_put` and `key_inc` share. -/
def eachPair {α : Type} (f : α → Bytes → ℤ → α) : ℕ → α → Port α
  | 0, a => pure a
  | n+1, a => do
    let tLength ← decode eiDecodeTupleHeader
    if tLength ≠ some 2 then stopError "invalid tuple"
    else do
      let bin ← textArg asBinNameMaxSize "invalid bin"
      let val ← required eiDecodeLong "invalid val"
      eachPair f n (f a (cStr bin) val)

def callKeyPut : Port Unit := do
  preMacro
  let key ← keyArgs
  let length ← required eiDecodeListHeader "invalid fourth argument: list"
  checkAll
  let rec ← eachPair (fun rec bin val => setBin env.client rec bin (.integer val)) length
    ⟨length,0,[]⟩
  if 0 < length then do
    let _ ← request env (.keyPut key rec)
    okMacro (textBytes "key_put")
    postMacro
  else do
    okMacro (textBytes "key_put")
    postMacro

def callKeyInc : Port Unit := do
  preMacro
  let key ← keyArgs
  let length ← required eiDecodeListHeader "invalid fourth argument: list"
  checkAll
  let ops ← eachPair (fun ops bin val => ops.add env.client (.incr bin val)) length ⟨0,[]⟩
  if 0 < length then do
    let _ ← request env (.keyOperate key ops none)
    okMacro (textBytes "key_put")
    postMacro
  else do
    okMacro (textBytes "key_put")
    postMacro

def callKeyRemove : Port Unit := do
  preMacro
  let key ← keyArgs
  checkAll
  let _ ← request env (.keyRemove key)
  okMacro (textBytes "key_remove")
  postMacro

def callKeyExists : Port Unit := do
  preMacro
  let key ← keyArgs
  checkAll
  let _ ← request env (.keyExists key)
  okMacro (textBytes "true")
  postMacro

/-- Anything but an integer is printed. -/
def dumpBin (c : Client) (bin : Bytes × AsVal) : Except Fault (List Tok) := do
  return eiXEncodeTupleHeader 2 ++ eiXEncodeString bin.1 ++ (match bin.2 with
    | .integer i => eiXEncodeLong i
    | val => eiXEncodeString (textBytes (c.tostring val)))

def dumpRecords (c : Client) : Option Record → Except Fault (List Tok) := dumpWith c (dumpBin c)

def callKeyGet : Port Unit := do
  preMacro
  let key ← keyArgs
  checkAll
  let r ← request env (.keyGet key none)
  put (← orFault (dumpRecords env.client r.record))
  postMacro

/-- The pointers go to an array, and one more entry ends it. -/
def selectBins : ℕ → List Bytes → Port (List Bytes)
  | 0, bins => if maxBinsNumber ≤ bins.length then stop (.fault .bufferOverflow) else pure bins
  | n+1, bins => do
    let bin ← textArg asBinNameMaxSize "invalid bin"
    if maxBinsNumber ≤ bins.length then stop (.fault .bufferOverflow)
    else selectBins n (bins ++ [cStr bin])

def callKeySelect : Port Unit := do
  preMacro
  let key ← keyArgs
  let length ← required eiDecodeListHeader "invalid fourth argument: list"
  checkAll
  if length = 0 then do
    put (eiXEncodeAtom "ok" ++ eiXEncodeEmptyList)
    postMacro
  else do
    let bins ← selectBins length []
    let r ← request env (.keySelect key bins)
    put (← orFault (dumpRecords env.client r.record))
    postMacro

/-- There is no look at the pointer before it is followed. -/
def recordFields : Option Record → Except Fault (List (String × FieldValue))
  | none => .error .nullPointer
  | some pRec => .ok [("gen",.number pRec.gen),("ttl",.number pRec.ttl)]

def callKeyGeneration : Port Unit := do
  preMacro
  let key ← keyArgs
  checkAll
  let r ← request env (.keyGet key none)
  let fields ← orFault (recordFields r.record)
  put (eiXEncodeAtom "ok" ++ eiXEncodeMapHeader 2 ++ fields.flatMap fieldOut)
  postMacro

def callBinaryKeyGet : Port Unit := do
  preMacro
  let ns ← binaryArg "BKG invalid namespace bytestring size" "BKG invalid first argument: namespace"
  let set ← binaryArg "BKG invalid set bytestring size" "BKG invalid second argument: namespace"
  let key ← binaryArg "BKG invalid key bytestring size" "BKG invalid second argument: namespace"
  checkAll
  let r ← request env (.keyGet (asKeyInitStr ns set key) none)
  put (← orFault (binaryDumpRecords env.client r.record))
  postMacro

end Keys

section Nodes
variable (env : PortEnv)

def callNodeRandom : Port Unit := do
  preMacro
  checkAll
  match env.randomNode with
  | none => stopError "Failed to find server node."
  | some node => do
    okMacro node.address
    postMacro

def nodeOut (node : Node) : List Tok :=
  eiXEncodeTupleHeader 2 ++ eiXEncodeString node.name ++ eiXEncodeString node.address

def callNodeNames : Port Unit := do
  preMacro
  checkAll
  put (eiXEncodeAtom "ok" ++ listOut nodeOut env.cluster.nodes)
  postMacro

def nodeByName (name : Bytes) : Option Node :=
  env.cluster.nodes.find? (fun node => node.name = cStr name)

def callNodeGet : Port Unit := do
  preMacro
  let nodeName ← textArg env.nodeNameMaxSize "invalid first argument: node_name"
  checkAll
  match nodeByName env nodeName with
  | none => stopError "Failed to find server node."
  | some node => do
    okMacro node.address
    postMacro

/-- What the three info commands make of an answer. -/
def infoReply (out : Bytes → List Tok) : Except ErrReport (Option Bytes) → Port Unit
  | .error err => stopError err.text
  | .ok none => stopError "no data"
  | .ok (some info) => do
    put (eiXEncodeAtom "ok" ++ out info)
    postMacro

def infoListOut (info : Bytes) : List Tok := listOut eiXEncodeString [info]

def maxItemSize : ℕ := 1024

def callNodeInfo : Port Unit := do
  preMacro
  let nodeName ← textArg env.nodeNameMaxSize "invalid first argument: node_name"
  let item ← textArg maxItemSize "invalid second argument: item"
  checkAll
  match nodeByName env nodeName with
  | none => stopError "Failed to find server node."
  | some node => infoReply infoListOut (env.infoCommandNode node (cStr item))

/-- AEROSPIKE_OK, AEROSPIKE_ERR_TIMEOUT, AEROSPIKE_ERR_INDEX_FOUND and
AEROSPIKE_ERR_INDEX_NOT_FOUND end the loop over the addresses. -/
def endsLookup (status : ℤ) : Bool := status ∈ [aerospikeOk,9,200,201]

def askAddresses (ask : ℕ → ℤ × Option Bytes) : List ℕ → Option Bytes → Option Bytes
  | [], info => info
  | addr::iter, info =>
    let answer := ask addr
    if endsLookup answer.1 then answer.2.or info else askAddresses ask iter (answer.2.or info)

def callHostInfo : Port Unit := do
  preMacro
  let hostname ← textArg env.nodeNameMaxSize "invalid first argument: hostname"
  let port ← required eiDecodeLong "invalid second argument: port"
  let item ← textArg maxItemSize "invalid third argument: item"
  checkAll
  match env.lookupHost (cStr hostname) port with
  | .error err => stopError err.text
  | .ok iter =>
    infoReply infoListOut (.ok (askAddresses (env.infoCommandHost · (cStr item)) iter none))

def callHelp : Port Unit := do
  preMacro
  let item ← textArg maxItemSize "invalid first argument: item"
  checkAll
  infoReply eiXEncodeString (env.infoAny (cStr item))

end Nodes

section Cdt
variable (env : PortEnv)

def callPortCdtGet : Port Unit := do
  preMacro
  let ns ← binaryArg "CPCG invalid namespace bytestring size"
    "CPCG invalid first argument: namespace"
  let set ← binaryArg "CPCG invalid namespace bytestring size" "CPCG invalid second argument: set"
  let key ← binaryArg "CPCG invalid namespace bytestring size" "CPCG invalid third argument: key"
  -- the policy is read and not handed on
  let _ ← policyArg env "CPCG invalid 4 argument: policy ( wrong size )" "CPCG invalid policy"
  checkAll
  let r ← request env (.keyGet (asKeyInitStr ns set key) none)
  if r.record.isNone then stopError "NULL p_rec - internal error"
  else do
    put (← orFault (dumpCdtRecords env.client r.record))
    postMacro

structure CdtPutStructBins where
  fcapKey : Bytes
  fcapVal : Bytes
  fcapTtl : ℤ

structure CdtPutStruct where
  binName : Bytes
  bins : List CdtPutStructBins

/-- What has been read stays in the struct when the loop is left early. -/
def getFcaps : ℕ → CdtPutStruct → Port CdtPutStruct
  | 0, mycdt => do
    let _ ← decode eiDecodeListHeader
    return mycdt
  | n+1, mycdt => do
    match ← decodeBinTerm with
    | none => return mycdt
    | some fcapKey => do
      match ← decodeBinTerm with
      | none => return mycdt
      | some fcapVal => do
        let (termType,_) ← getType
        if ¬isShortInteger termType then return mycdt
        else do
          let fcapTtl := (← decode eiDecodeLong).getD 0
          getFcaps n { mycdt with bins := mycdt.bins ++ [⟨fcapKey,fcapVal,fcapTtl⟩] }

def getBins : ℕ → CdtPutStruct → Port CdtPutStruct
  | 0, mycdt => do
    let _ ← decode eiDecodeListHeader
    return mycdt
  | n+1, mycdt => do
    let tupleLen ← tupleLength env
    if tupleLen ≠ 2 then return mycdt
    else do
      match ← decodeBinTerm with
      | none => return mycdt
      | some binName => do
        let mycdt := { mycdt with binName := binName }
        let (termType,_) ← getType
        if termType ≠ .list then return mycdt
        else do
          match ← decode eiDecodeListHeader with
          | none => return mycdt
          | some fcapListLength => do
            -- the result of `get_fcaps` is thrown away
            let mycdt ← getFcaps (fcapListLength/3) mycdt
            getBins n mycdt

def putFcap (binName : Bytes) (ops : Operations) (lbin : CdtPutStructBins) : Operations :=
  let ops := ops.add env.client (.mapPut binName [lbin.fcapKey] valueKey (.bytes lbin.fcapVal))
  let ops := ops.add env.client (.mapPut binName [lbin.fcapKey] ttlKey (.integer lbin.fcapTtl))
  ops.add env.client (.mapPut binName [lbin.fcapKey] wtKey (.integer env.now))

def cdtPutOps (recordTtl : ℤ) (mycdt : CdtPutStruct) : Operations :=
  mycdt.bins.foldl (putFcap env mycdt.binName)
    ⟨if recordTtl ≠ 0 then UInt32.ofInt recordTtl else 0,[]⟩

def callPortCdtPut : Port Unit := do
  preMacro
  let ns ← binaryArg "CPCP invalid namespace bytestring size"
    "CPCP invalid first argument: namespace"
  let set ← binaryArg "CPCP invalid namespace bytestring size" "CPCP invalid second argument: set"
  let key ← binaryArg "CPCP invalid namespace bytestring size" "CPCP invalid third argument: key"
  let (binsType,_) ← getType
  if binsType ≠ .list then stopError "CPCP bin argument"
  else do
    let binListLength ← required eiDecodeListHeader "invalid list of bins"
    -- the result of `get_bins` is not looked at
    let mycdt ← getBins env binListLength ⟨[],[]⟩
    let (termType,_) ← getType
    -- `return 6` without a `POST`
    if ¬isShortInteger termType then stop .returned
    else do
      let recordTtl := (← decode eiDecodeLong).getD 0
      let policy ← policyArg env "CPCP invalid 5 argument: policy ( wrong size )"
        "CPCP invalid policy"
      checkAll
      let _ ← request env (.keyOperate (asKeyInitStr ns set key) (cdtPutOps env recordTtl mycdt)
        (some ⟨policy,UInt32.ofInt recordTtl⟩))
      okMacro (textBytes "cdt_put")
      postMacro

/-- Four handlers hold nothing else. -/
def callStub : Port Unit := do
  preMacro
  checkAll
  postMacro

def callPortCdtExpire : Port Unit := callStub
def callPortCdtDeleteByKeys : Port Unit := callStub
def callPortCdtDeleteByKeysBatch : Port Unit := callStub
def callPortBinaryRemove : Port Unit := callStub

end Cdt

section Dispatch

inductive Command where
  | aerospikeInit | hostAdd | hostClear | hostList | connect | anonConnect | keyExists | keyInc
  | keyGet | binaryKeyGet | keyGeneration | keyPut | binaryKeyPut | keyRemove | keySelect
  | nodeRandom | nodeNames | nodeGet | nodeInfo | hostInfo | configInfo | help | clusterInfo
  | portStatus | cdtGet | cdtPut | cdtExpire | cdtDeleteByKeys | cdtDeleteByKeysBatch
  | binaryRemove

/-- The order in which the names are tried. -/
def commands : List Command := [
  .aerospikeInit,.hostAdd,.hostClear,.hostList,.connect,.anonConnect,.keyExists,.keyInc,.keyGet,
  .binaryKeyGet,.keyGeneration,.keyPut,.binaryKeyPut,.keyRemove,.keySelect,.nodeRandom,.nodeNames,
  .nodeGet,.nodeInfo,.hostInfo,.configInfo,.help,.clusterInfo,.portStatus,.cdtGet,.cdtPut,
  .cdtExpire,.cdtDeleteByKeys,.cdtDeleteByKeysBatch,.binaryRemove]

/-- The name and the number of elements of the request. -/
def Command.pattern : Command → String × ℕ
  | .aerospikeInit => ("aerospike_init",1)
  | .hostAdd => ("host_add",3)
  | .hostClear => ("host_clear",1)
  | .hostList => ("host_list",1)
  | .connect => ("connect",3)
  | .anonConnect => ("anon_connect",1)
  | .keyExists => ("key_exists",4)
  | .keyInc => ("key_inc",5)
  | .keyGet => ("key_get",4)
  | .binaryKeyGet => ("binary_key_get",4)
  | .keyGeneration => ("key_generation",4)
  | .keyPut => ("key_put",5)
  | .binaryKeyPut => ("binary_key_put",6)
  | .keyRemove => ("key_remove",4)
  | .keySelect => ("key_select",5)
  | .nodeRandom => ("node_random",1)
  | .nodeNames => ("node_names",1)
  | .nodeGet => ("node_get",2)
  | .nodeInfo => ("node_info",3)
  | .hostInfo => ("host_info",4)
  | .configInfo => ("config_info",1)
  | .help => ("help",2)
  | .clusterInfo => ("cluster_info",1)
  | .portStatus => ("port_status",1)
  | .cdtGet => ("cdt_get",5)
  | .cdtPut => ("cdt_put",7)
  | .cdtExpire => ("cdt_expire",5)
  | .cdtDeleteByKeys => ("cdt_delete_by_keys",6)
  | .cdtDeleteByKeysBatch => ("cdt_delete_by_keys_batch",5)
  | .binaryRemove => ("binary_remove",6)

def Command.call (env : PortEnv) : Command → Port Unit
  | .aerospikeInit => callAerospikeInit env
  | .hostAdd => callConfigAddHosts env
  | .hostClear => callConfigClearHosts
  | .hostList => callConfigListHosts
  | .connect => callConnect env
  | .anonConnect => callAnonConnect env
  | .keyExists => callKeyExists env
  | .keyInc => callKeyInc env
  | .keyGet => callKeyGet env
  | .binaryKeyGet => callBinaryKeyGet env
  | .keyGeneration => callKeyGeneration env
  | .keyPut => callKeyPut env
  | .binaryKeyPut => callBinaryKeyPut env.client env.respond
  | .keyRemove => callKeyRemove env
  | .keySelect => callKeySelect env
  | .nodeRandom => callNodeRandom env
  | .nodeNames => callNodeNames env
  | .nodeGet => callNodeGet env
  | .nodeInfo => callNodeInfo env
  | .hostInfo => callHostInfo env
  | .configInfo => callConfigInfo env
  | .help => callHelp env
  | .clusterInfo => callClusterInfo env
  | .portStatus => callPortStatus
  | .cdtGet => callPortCdtGet env
  | .cdtPut => callPortCdtPut env
  | .cdtExpire => callPortCdtExpire
  | .cdtDeleteByKeys => callPortCdtDeleteByKeys
  | .cdtDeleteByKeysBatch => callPortCdtDeleteByKeysBatch
  | .binaryRemove => callPortBinaryRemove

/-- A name is compared as far as the pattern goes. -/
def checkName (fname : Bytes) (arity : ℕ) (cmd : Command) : Bool :=
  (textBytes cmd.pattern.1).isPrefixOf (cStr fname) && arity = cmd.pattern.2

def fail (msg : Bytes) : Port Unit := do
  preMacro
  errorMacro msg
  postMacro

def errMsg : List String := ["ei_decode_version","ei_decode_tuple_header","wrong arity",
  "ei_decode_atom","ei_decode_long","ei_x_new_with_version","ei_x_encode_long","ei_x_free"]

def ifail (ind : ℕ) : Port Unit := fail (textBytes (errMsg.getD ind ""))

def noteOut (msg : Bytes) : List Tok := eiXEncodeAtom "note" ++ eiXEncodeString msg

def note (msg : Bytes) : Port Unit := do
  preMacro
  put (noteOut msg)
  postMacro

def fnameSize : ℕ := 128

def decodeAtomInto (size : ℕ) : Port (Option Bytes) := fun s =>
  if size < (eiDecodeAtom s.index).1 then (.error (.fault .bufferOverflow),s)
  else
    match (eiDecodeAtom s.index).2 with
    | some (chars,rest) => (.ok (some chars),{ s with index := rest })
    | none => (.ok none,s)

def callOrFail (env : PortEnv) (fname : Bytes) : Option Command → Port Unit
  | some cmd => cmd.call env
  | none => fail (cStr fname)

def functionCall (env : PortEnv) (arity : ℕ) : Port Unit := do
  match ← decodeAtomInto fnameSize with
  | none => ifail 3
  | some fname => callOrFail env fname (commands.find? (checkName fname arity))

/-- What stands in the buffer behind a request: heads that could be read on, and
the bytes behind them. -/
structure Behind where
  stale : List Tok
  rest : Bytes

def bufSize : ℕ := 1000

/-- The bytes from the index to the end of the buffer at most; the version byte
stands before them. -/
def textAt (index : List Tok) (rest : Bytes) : Bytes :=
  (index.flatMap Tok.bytes ++ rest).take (bufSize-1)

/-- The text at the index, which has to end before the buffer does. -/
def noteIndex (rest : Bytes) : Port Unit := do
  let s ← state
  if 0 ∈ textAt s.index rest then note (cStr (textAt s.index rest))
  else stop (.fault .bufferOverflow)

/-- One round of the loop in `main`, for a frame of which the version byte has
been read. -/
def processFrame (env : PortEnv) (payload : List Tok) (behind : Behind) : Port Unit := do
  if bufSize < 1+(payload.flatMap Tok.bytes).length then stop (.fault .bufferOverflow)
  else do
    update (fun s => { s with index := payload ++ behind.stale })
    match ← decode eiDecodeTupleHeader with
    | some arity => if 0 < arity then functionCall env arity else noteIndex behind.rest
    | none => noteIndex behind.rest

end Dispatch

end AspikePort.PortHandlers
