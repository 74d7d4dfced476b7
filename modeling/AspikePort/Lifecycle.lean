import AspikePort.AsyncCalls
import AspikePort.LabelledRuns

/-!
# The life of the library: configuration, connection and runs

A run starts from the globals as the library is loaded and takes calls in any
order, data operations and completions of the event loop included. Each step
carries its own environment, which decides every outcome outside the library.
-/

set_option autoImplicit false

namespace AspikePort.Lifecycle
open AspikePort.ErlangTerms AspikePort.ClientValues AspikePort.EarlyReturn
open AspikePort.NifWorld AspikePort.CdtPut AspikePort.SyncCalls AspikePort.AsyncCalls
open AspikePort.LabelledRuns Proc

section Loading
variable (c : Client)

/-- The static initial values. -/
def globals : World where
  isConnectedFlag := false
  isInitialized := false
  statisticsEnabled := false
  eventLoopsAmount := 1
  loopsRunning := false
  clientLive := false
  cluster := false
  config := ⟨[],([],[]),0,0,0,0,0⟩
  counters := {}
  submitted := []
  accesses := []

def initAerospikeClient (w : World) : World :=
  if w.isInitialized then w
  else { w with isInitialized := true, clientLive := true, cluster := false, config := c.configInit }

def load (env : Env) : Nif Unit := do
  update (initAerospikeClient c)
  if ¬env.createLoops then stop (.term (errorString "Failed to create event loop"))
  else update (fun w => { w with loopsRunning := true })

/-- The globals after a successful load. -/
def loaded : World := { initAerospikeClient c globals with loopsRunning := true }

theorem load_run (env : Env) (h : env.createLoops = true) :
    load c env globals = (.ok (),loaded c) := by
  unfold load
  rw [update_bind_run]
  simp only [h]
  rfl

end Loading

section Configuration
variable (c : Client) (env : Env)

def maxHostSize : ℕ := 1024

def initClient : Nif Term := do
  update (initAerospikeClient c)
  return okString "initialized"

def setConnectionsPerNode (syncMin syncMax asyncMin asyncMax : Term) : Nif Term := do
  let syncMin ← lift (orBadarg (getInt syncMin))
  let syncMax ← lift (orBadarg (getInt syncMax))
  let asyncMin ← lift (orBadarg (getInt asyncMin))
  let asyncMax ← lift (orBadarg (getInt asyncMax))
  touchClient
  update (fun w => { w with config := { w.config with
    minConnsPerNode := UInt32.ofInt syncMin, maxConnsPerNode := UInt32.ofInt syncMax,
    asyncMinConnsPerNode := UInt32.ofInt asyncMin,
    asyncMaxConnsPerNode := UInt32.ofInt asyncMax } })
  return okString "set"

def setEventLoopsAmount (amount : Term) : Nif Term := do
  let amount ← lift (orBadarg (getInt amount))
  update (fun w => { w with eventLoopsAmount := UInt32.ofInt amount })
  return okString "set"

def enableStatisticCollection (enabled : Term) : Nif Term := do
  let enabled ← lift (orBadarg (getInt enabled))
  update (fun w => { w with statisticsEnabled := enabled = 1 })
  return okString "set"

def hostAdd (host port : Term) : Nif Term := do
  let host ← lift (orBadarg (getString maxHostSize host))
  let port ← lift (orBadarg (getInt port))
  touchClient
  match env.addHosts (cStr host) port with
  | none => return errorString "failed to add host and port"
  | some hosts => do
    update (fun w => { w with config := { w.config with hosts := w.config.hosts ++ hosts } })
    return okString "host and port added"

def hostClear : Nif Term := do
  touchClient
  update (fun w => { w with config := { w.config with hosts := [] } })
  return okString "hosts list was cleared"

def hostTerm (h : Host) : Term :=
  makeTuple3 (makeString h.name) (makeString h.tlsName) (.integer h.port)

/-- Builds the list by consing, so the last host comes first. -/
def hostList : Nif Term := do
  touchClient
  let w ← state
  return makeTuple2 atomOk (w.config.hosts.foldl (fun msg h => .cons (hostTerm h) msg) .nil)

end Configuration

section Connection
variable (env : Env)

def connect (user password : Term) : Nif Term := do
  let user ← lift (orBadarg (getString asUserSize user))
  let password ← lift (orBadarg (getString asPasswordSize password))
  touchClient
  update (fun w => { w with config := { w.config with user := (cStr user,cStr password) } })
  touchClient
  if env.connect.1 ≠ aerospikeOk then do
    update (fun w => { w with isConnectedFlag := false })
    update (fun w => { w with loopsRunning := false })
    return errorString env.connect.2
  else do
    update (fun w => { w with isConnectedFlag := true, cluster := true })
    return makeTuple2 atomOk atomConnected

def disconnect : Nif Term := do
  let w ← state
  if ¬w.isConnectedFlag then return okString "disconnected"
  else do
    touchClient
    if env.close.1 ≠ aerospikeOk then return errorString env.close.2
    else do
      update (fun w => { w with isConnectedFlag := false })
      touchClient
      update (fun w => { w with clientLive := false, cluster := false })
      update (fun w => { w with isInitialized := false })
      return okString "disconnected"

def isConnectedCheck : Nif Term := do
  let w ← state
  if ¬w.isConnectedFlag then return atomFalse
  else do
    touchClient
    if ¬env.clusterIsConnected then return atomFalse else return atomTrue

end Connection

section Statistics

def uintTerm (n : UInt32) : Term := .integer n.toNat

/-- The pair reported for the worst host, and the nodes as the loop leaves them. -/
def worstHost (outdatedTs : ℤ) (nodes : List (String × NodeConnectionStats)) :
    (UInt32 × UInt32) × List (String × NodeConnectionStats) :=
  (nodes.foldl (fun worst n => if worst.2 < n.2.asyncPeak then (n.2.asyncCurrent,n.2.asyncPeak)
      else worst) (0,0),
    nodes.map (fun n => if 0 < n.2.asyncPeak ∧ n.2.asyncPeakTtl < outdatedTs then
      (n.1,{ n.2 with asyncCurrent := 0, asyncPeak := 0 }) else n))

def Counters.poll (outdatedTs : ℤ) (c : Counters) : Counters :=
  let c' := { c with nodeStats := (worstHost outdatedTs c.nodeStats).2 }
  let c' := if 0 < c.syncPeak ∧ c.syncPeakTtl < outdatedTs then
      { c' with syncCurrent := 0, syncPeak := 0 } else c'
  if 0 < c.asyncPeak ∧ c.asyncPeakTtl < outdatedTs then
    { c' with asyncCurrent := 0, asyncPeak := 0 } else c'

def statsTerm (global : List UInt32) (worst : UInt32 × UInt32) : Term :=
  makeTuple2 atomOk (makeTuple2 (.tuple (global.map uintTerm))
    (makeTuple2 (uintTerm worst.1) (uintTerm worst.2)))

def getConnectionsStats (env : Env) : Nif Term := do
  let w ← state
  if ¬w.statisticsEnabled then return statsTerm [0,0,0,0,0,0] (0,0)
  else do
    let outdatedTs := env.now-2*15
    touchClient
    let total (perNode : UInt32) : UInt32 := if w.cluster then env.clusterSize*perNode else 0
    let counters := w.counters
    update (fun w => { w with counters := Counters.poll outdatedTs w.counters })
    return statsTerm [counters.syncCurrent,counters.syncPeak,total w.config.maxConnsPerNode,
      counters.asyncCurrent,counters.asyncPeak,total w.config.asyncMaxConnsPerNode]
      (worstHost outdatedTs counters.nodeStats).1

end Statistics

section Runs

inductive DataCall where
  | cdtPutSync (nameSpace set key bins ttl policy : Term)
  | cdtPutAsync (ref nameSpace set key bins ttl policy : Term)
  | cdtGetSync (nameSpace set key policy : Term)
  | cdtGetAsync (ref nameSpace set key policy : Term)
  | cdtDeleteByKeysSync (nameSpace set key bin list : Term)
  | cdtDeleteByKeysAsync (ref nameSpace set key bin list : Term)
  | cdtDeleteByKeysBatchSync (nameSpace set bin list : Term)
  | cdtDeleteByKeysBatchAsync (ref nameSpace set bin tuples : Term)
  | segmentTagGetSync (nameSpace set key columns : Term)
  | segmentTagGetAsync (ref nameSpace set key bin : Term)
  | keySelectSync (nameSpace set key list : Term)
  | binaryGetSync (nameSpace set key : Term)
  | mapPutSync (nameSpace set key bin ttl map : Term)
  | keyGetSync (nameSpace set key : Term)
  | keyExistsSync (nameSpace set key : Term)
  | keyIncSync (nameSpace set key list : Term)
  | keyGenerationSync (nameSpace set key : Term)
  | keyPutSync (nameSpace set key list : Term)
  | binaryPutSync (nameSpace set key list ttl : Term)
  | binaryRemoveSync (nameSpace set key list ttl : Term)
  | cdtExpireSync (nameSpace set key ttl : Term)
  | keyRemoveSync (nameSpace set key : Term)
  | aKeyPutSync (bin val nameSpace set key n : Term)

def DataCall.body (c : Client) (env : Env) : DataCall → Nif Term
  | .cdtPutSync ns set key bins ttl policy => CdtPut.cdtPutSync c env ns set key bins ttl policy
  | .cdtPutAsync ref ns set key bins ttl policy =>
    CdtPut.cdtPutAsync c env ref ns set key bins ttl policy
  | .cdtGetSync ns set key policy => SyncCalls.cdtGetSync c env ns set key policy
  | .cdtGetAsync ref ns set key policy => AsyncCalls.cdtGetAsync env ref ns set key policy
  | .cdtDeleteByKeysSync ns set key bin list =>
    SyncCalls.cdtDeleteByKeysSync c env ns set key bin list
  | .cdtDeleteByKeysAsync ref ns set key bin list =>
    AsyncCalls.cdtDeleteByKeysAsync c env ref ns set key bin list
  | .cdtDeleteByKeysBatchSync ns set bin list =>
    SyncCalls.cdtDeleteByKeysBatchSync c env ns set bin list
  | .cdtDeleteByKeysBatchAsync ref ns set bin tuples =>
    AsyncCalls.cdtDeleteByKeysBatchAsync c env ref ns set bin tuples
  | .segmentTagGetSync ns set key columns => SyncCalls.segmentTagGetSync c env ns set key columns
  | .segmentTagGetAsync ref ns set key bin => AsyncCalls.segmentTagGetAsync env ref ns set key bin
  | .keySelectSync ns set key list => SyncCalls.keySelectSync c env ns set key list
  | .binaryGetSync ns set key => SyncCalls.binaryGetSync c env ns set key
  | .mapPutSync ns set key bin ttl map => SyncCalls.mapPutSync c env ns set key bin ttl map
  | .keyGetSync ns set key => SyncCalls.keyGetSync c env ns set key
  | .keyExistsSync ns set key => SyncCalls.keyExistsSync env ns set key
  | .keyIncSync ns set key list => SyncCalls.keyIncSync c env ns set key list
  | .keyGenerationSync ns set key => SyncCalls.keyGenerationSync env ns set key
  | .keyPutSync ns set key list => SyncCalls.keyPutSync c env ns set key list
  | .binaryPutSync ns set key list ttl => SyncCalls.binaryPutSync c env ns set key list ttl
  | .binaryRemoveSync ns set key list ttl => SyncCalls.binaryRemoveSync c env ns set key list ttl
  | .cdtExpireSync ns set key ttl => SyncCalls.cdtExpireSync ns set key ttl
  | .keyRemoveSync ns set key => SyncCalls.keyRemoveSync env ns set key
  | .aKeyPutSync bin val ns set key n => SyncCalls.aKeyPutSync c env bin val ns set key n

/-- `completion` is the event loop running a listener to its end: it deletes a
`callback_data` with the given node name. -/
inductive Call where
  | initClient
  | setConnectionsPerNode (syncMin syncMax asyncMin asyncMax : Term)
  | setEventLoopsAmount (amount : Term)
  | enableStatisticCollection (enabled : Term)
  | hostAdd (host port : Term)
  | hostClear
  | hostList
  | connect (user password : Term)
  | disconnect
  | isConnected
  | getConnectionsStats
  | data (op : DataCall)
  | completion (nodeName : String)

def Call.body (c : Client) (env : Env) : Call → Nif Term
  | .initClient => Lifecycle.initClient c
  | .setConnectionsPerNode syncMin syncMax asyncMin asyncMax =>
    Lifecycle.setConnectionsPerNode syncMin syncMax asyncMin asyncMax
  | .setEventLoopsAmount amount => Lifecycle.setEventLoopsAmount amount
  | .enableStatisticCollection enabled => Lifecycle.enableStatisticCollection enabled
  | .hostAdd host port => Lifecycle.hostAdd env host port
  | .hostClear => Lifecycle.hostClear
  | .hostList => Lifecycle.hostList
  | .connect user password => Lifecycle.connect env user password
  | .disconnect => Lifecycle.disconnect env
  | .isConnected => isConnectedCheck env
  | .getConnectionsStats => Lifecycle.getConnectionsStats env
  | .data op => op.body c env
  | .completion nodeName => do
    update (untrackNode nodeName)
    return atomDone

abbrev Step := Env × Call

def next (c : Client) (x : Step) (w : World) : World := (x.2.body c x.1 w).2

def reached (c : Client) (xs : List Step) : World := run (next c) xs (loaded c)

end Runs

end AspikePort.Lifecycle
