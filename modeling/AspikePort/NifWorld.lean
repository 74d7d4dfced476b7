import AspikePort.ClientValues
import AspikePort.EarlyReturn

/-!
# The global state of the native library and the calls on it

Every native function is a procedure on the globals of `aspike_nif.cpp`. Two
ghost fields record what the code hands to the client and in which condition
it finds the global client object. The outcomes of everything outside the
library (the client, the clock, the caller) are the environment of one call.
-/

set_option autoImplicit false

namespace AspikePort.NifWorld
open AspikePort.ErlangTerms AspikePort.ClientValues AspikePort.EarlyReturn

structure NodeConnectionStats where
  asyncCurrent : UInt32 := 0
  asyncPeak : UInt32 := 0
  asyncPeakTtl : ℤ := 0
  deriving DecidableEq, Repr

structure Counters where
  syncCurrent : UInt32 := 0
  syncPeak : UInt32 := 0
  syncPeakTtl : ℤ := 0
  asyncCurrent : UInt32 := 0
  asyncPeak : UInt32 := 0
  asyncPeakTtl : ℤ := 0
  nodeStats : List (String × NodeConnectionStats) := []
  deriving DecidableEq, Repr

structure World where
  isConnectedFlag : Bool
  isInitialized : Bool
  statisticsEnabled : Bool
  eventLoopsAmount : UInt32
  /-- The event loops exist and have not been closed. -/
  loopsRunning : Bool
  /-- `as` has been initialised and not destroyed since. -/
  clientLive : Bool
  cluster : Bool
  config : Config
  counters : Counters
  submitted : List Request
  /-- For each read or write of `as`, whether the object was live. -/
  accesses : List Bool

structure Env where
  self : ℕ
  now : ℤ
  uninit : ℤ
  fuel : ℕ
  toDouble : ℤ → ℕ
  threadTspent : ℤ
  realTspent : ℤ
  createLoops : Bool
  addHosts : Bytes → ℤ → Option (List Host)
  connect : ℤ × String
  close : ℤ × String
  clusterIsConnected : Bool
  clusterSize : UInt32
  targetNode : AsKey → String
  respond : List Request → Response

/-- Everything outside the library succeeds, and no record is found. -/
def plainEnv : Env where
  self := 0
  now := 0
  uninit := 0
  fuel := 0
  toDouble := fun _ => 0
  threadTspent := 0
  realTspent := 0
  createLoops := true
  addHosts := fun _ _ => some []
  connect := (0,"")
  close := (0,"")
  clusterIsConnected := true
  clusterSize := 1
  targetNode := fun _ => ""
  respond := fun _ => ⟨0,0,"",none,fun _ => 0⟩

def connectedWorld : World where
  isConnectedFlag := true
  isInitialized := true
  statisticsEnabled := false
  eventLoopsAmount := 1
  loopsRunning := true
  clientLive := true
  cluster := true
  config := plainClient.configInit
  counters := {}
  submitted := []
  accesses := []

inductive Reply where
  | badarg
  | term (t : Term)
  | fault (f : Fault)

abbrev Nif (α : Type) := Proc World Reply α

def replyOf : Except Reply Term → Reply
  | .ok t => .term t
  | .error r => r

open Proc

def orBadarg {α : Type} : Option α → Except Reply α
  | some a => .ok a
  | none => .error .badarg

theorem orBadarg_some {α : Type} (a : α) : orBadarg (some a) = .ok a := rfl

theorem orBadarg_ok {α : Type} {o : Option α} {a : α} (h : orBadarg o = .ok a) : o = some a := by
  cases o with
  | none => cases h
  | some b => exact congrArg some (Except.ok.inj h)

/-- A result nobody checks: when the call fails, the variables it should have
set are read all the same. -/
def unchecked {α : Type} : Except Reply α → Except Reply α
  | .ok a => .ok a
  | .error _ => .error (.fault .uncheckedAccess)

def orFault {α : Type} : Except Fault α → Except Reply α
  | .ok a => .ok a
  | .error f => .error (.fault f)

def nifOk : ℤ := 0
def nifNotConnected : ℤ := 3

def errorTuple (nifCode code : ℤ) (msg : String) : Term :=
  makeTuple2 atomError (makeTuple3 (.integer nifCode) (.integer code) (makeString msg))

def makeNifError (code : ℤ) (msg : String) : Term := errorTuple nifOk code msg

def okString (msg : String) : Term := makeTuple2 atomOk (makeString msg)
def errorString (msg : String) : Term := makeTuple2 atomError (makeString msg)

def orUnknown (msg : String) : String := if msg = "" then "Unknown error occurred" else msg

def notConnected : Term := errorTuple nifNotConnected aerospikeErrClient "not_connected"

def isConnected : Nif Unit := do
  let w ← state
  if w.isConnectedFlag then pure () else stop (.term notConnected)

theorem isConnected_run {w : World} (h : w.isConnectedFlag = true) :
    isConnected w = (.ok (),w) := by
  unfold isConnected
  rw [state_bind_run,if_pos h]
  rfl

theorem isConnected_refused {w : World} (h : ¬w.isConnectedFlag = true) :
    isConnected w = (.error (.term notConnected),w) := by
  unfold isConnected
  rw [state_bind_run,if_neg h]
  rfl

theorem isConnected_bind_run {α : Type} {w : World} (f : Unit → Nif α)
    (h : w.isConnectedFlag = true) : (isConnected >>= f) w = f () w :=
  bind_run_ok f (isConnected_run h)

theorem isConnected_bind_refused {α : Type} {w : World} (f : Unit → Nif α)
    (h : ¬w.isConnectedFlag = true) :
    (isConnected >>= f) w = (.error (.term notConnected),w) :=
  bind_run_error f (isConnected_refused h)

def touchClient : Nif Unit :=
  update (fun w => { w with accesses := w.accesses ++ [w.clientLive] })

def submit (env : Env) (req : Request) : Nif Response := do
  touchClient
  update (fun w => { w with submitted := w.submitted ++ [req] })
  let w ← state
  return env.respond w.submitted

def afterSubmit (req : Request) (w : World) : World :=
  { w with accesses := w.accesses ++ [w.clientLive], submitted := w.submitted ++ [req] }

theorem submit_bind_run {α : Type} (env : Env) (req : Request) (f : Response → Nif α) (w : World) :
    (submit env req >>= f) w = f (env.respond (w.submitted ++ [req])) (afterSubmit req w) := rfl

section Statistics

def SyncOperationCounter.enter (now : ℤ) (w : World) : World :=
  if w.statisticsEnabled then
    let value := w.counters.syncCurrent+1
    let counters := { w.counters with syncCurrent := value }
    { w with counters :=
        if counters.syncPeak < value ∨ counters.syncPeakTtl < now then
          { counters with syncPeak := value, syncPeakTtl := now+15 }
        else counters }
  else w

def SyncOperationCounter.leave (w : World) : World :=
  if w.statisticsEnabled then
    { w with counters := { w.counters with syncCurrent := w.counters.syncCurrent-1 } }
  else w

@[simp] theorem SyncOperationCounter.enter_submitted (now : ℤ) (w : World) :
    (SyncOperationCounter.enter now w).submitted = w.submitted := by
  unfold SyncOperationCounter.enter
  split_ifs <;> rfl

@[simp] theorem SyncOperationCounter.leave_submitted (w : World) :
    (SyncOperationCounter.leave w).submitted = w.submitted := by
  unfold SyncOperationCounter.leave
  split_ifs <;> rfl

/-- Lives from its construction to the end of the function. -/
def syncOperationCounter {α : Type} (env : Env) (body : Nif α) : Nif α :=
  within (SyncOperationCounter.enter env.now) SyncOperationCounter.leave body

def findNodeStats (name : String) (nodes : List (String × NodeConnectionStats)) :
    Option NodeConnectionStats := (nodes.find? (fun n => n.1 = name)).map Prod.snd

/-- The lookup of `get_or_create_node_stats`, followed by an update through the
pointer it returns. -/
def updateNodeStats (name : String) (f : NodeConnectionStats → NodeConnectionStats)
    (nodes : List (String × NodeConnectionStats)) : List (String × NodeConnectionStats) :=
  if (findNodeStats name nodes).isSome then
    nodes.map (fun n => if n.1 = name then (n.1,f n.2) else n)
  else nodes ++ [(name,f {})]

def NodeConnectionStats.enter (now : ℤ) (s : NodeConnectionStats) : NodeConnectionStats :=
  let value := s.asyncCurrent+1
  let s := { s with asyncCurrent := value }
  if s.asyncPeak < value ∨ s.asyncPeakTtl < now then
    { s with asyncPeak := value, asyncPeakTtl := now+15 }
  else s

def NodeConnectionStats.leave (s : NodeConnectionStats) : NodeConnectionStats :=
  { s with asyncCurrent := s.asyncCurrent-1 }

def Counters.asyncEnter (now : ℤ) (nodeName : String) (c : Counters) : Counters :=
  let value := c.asyncCurrent+1
  let c := { c with asyncCurrent := value }
  let c := if c.asyncPeak < value ∨ c.asyncPeakTtl < now then
      { c with asyncPeak := value, asyncPeakTtl := now+15 }
    else c
  { c with nodeStats := updateNodeStats nodeName (·.enter now) c.nodeStats }

def Counters.asyncLeave (nodeName : String) (c : Counters) : Counters :=
  { c with asyncCurrent := c.asyncCurrent-1,
           nodeStats := updateNodeStats nodeName (·.leave) c.nodeStats }

/-- The partition lookup itself belongs to the client; an empty name stands for
every way it can fail. -/
def getTargetNodeForKey (env : Env) (key : AsKey) : Nif String := do
  let w ← state
  if ¬w.statisticsEnabled ∨ ¬w.isConnectedFlag then return ""
  else do
    touchClient
    return if w.cluster then env.targetNode key else ""

/-- The statistics part of the `callback_data` constructor: the node name it
stores. Only the constructor that is given a key looks for one. -/
def trackNode (env : Env) (tracked : Option AsKey) : Nif String := do
  let w ← state
  match tracked with
  | none => return ""
  | some key =>
    if ¬w.statisticsEnabled then return ""
    else do
      let nodeName ← getTargetNodeForKey env key
      if nodeName = "" then return ""
      else do
        update (fun w => { w with counters := w.counters.asyncEnter env.now nodeName })
        return nodeName

/-- The statistics part of the `callback_data` destructor. -/
def untrackNode (nodeName : String) (w : World) : World :=
  if nodeName ≠ "" ∧ w.statisticsEnabled then
    { w with counters := w.counters.asyncLeave nodeName }
  else w

end Statistics

end AspikePort.NifWorld
