import AspikePort.FrameReplies
import AspikePort.LabelledRuns

/-!
# The session behind the frames

Of a port only its two flags, its configuration and what it has handed to the
client outlive a frame. Every frame, well formed or not, has one effect on them
at most, and the effects of a run tell when a request could be made.
-/

set_option autoImplicit false

namespace AspikePort.PortSessions
open AspikePort.ErlangTerms AspikePort.ClientValues AspikePort.EarlyReturn
open AspikePort.SyncCalls AspikePort.ExternalTerms AspikePort.EiBuffers AspikePort.PortCalls
open AspikePort.PortPuts AspikePort.PortHandlers AspikePort.LabelledRuns
open AspikePort.FrameReplies (plainPort)
open Proc

section Sessions

structure Session where
  initialised : Bool
  connected : Bool
  config : Config
  submitted : List Request

inductive Effect where
  | none
  | initialise
  | addHosts (hosts : List Host)
  | clearHosts
  /-- With the user and the password of `connect`. -/
  | attempt (login : Option (Bytes × Bytes)) (ok : Bool)
  | request (req : Request)

def Effect.apply (c : Client) : Effect → Session → Session
  | none, s => s
  | initialise, s => { s with config := c.configInit, initialised := true }
  | addHosts hosts, s => { s with config := { s.config with hosts := s.config.hosts ++ hosts } }
  | clearHosts, s => { s with config := { s.config with hosts := [] } }
  | attempt login ok, s => { s with
      config := { s.config with user := login.getD s.config.user }, connected := ok }
  | request req, s => { s with submitted := s.submitted ++ [req] }

def Effect.Allowed : Effect → Session → Prop
  | none, _ => True
  | initialise, s => s.initialised = false
  | request _, s => s.initialised = true ∧ s.connected = true
  | _, s => s.initialised = true

instance : ∀ (e : Effect) (s : Session), Decidable (e.Allowed s)
  | .none, _ => inferInstanceAs (Decidable True)
  | .initialise, s => inferInstanceAs (Decidable (s.initialised = false))
  | .addHosts _, s | .clearHosts, s | .attempt _ _, s =>
    inferInstanceAs (Decidable (s.initialised = true))
  | .request _, s => inferInstanceAs (Decidable (s.initialised = true ∧ s.connected = true))

def session (s : PortState) : Session :=
  ⟨s.isAerospikeInitialised,s.isConnected,s.config,s.submitted⟩

end Sessions

section Quiet
variable {α β : Type}

def Quiet (p : Port α) : Prop := ∀ s, session (p s).2 = session s

theorem Quiet.bind {p : Port α} {f : α → Port β} (hp : Quiet p) (hf : ∀ a, Quiet (f a)) :
    Quiet (p >>= f) := Keeps.bind hp hf

theorem quiet_pure (a : α) : Quiet (pure a : Port α) := fun _ => rfl

theorem quiet_stop (l : Leave) : Quiet (stop l : Port α) := fun _ => rfl

theorem quiet_put (toks : List Tok) : Quiet (put toks) := fun _ => rfl

theorem quiet_okMacro (msg : Bytes) : Quiet (okMacro msg) := fun _ => rfl

theorem quiet_postMacro : Quiet (postMacro : Port α) := fun _ => rfl

theorem quiet_stopError (msg : String) : Quiet (stopError msg : Port α) := fun _ => rfl

theorem quiet_ite {P : Prop} [Decidable P] {p q : Port α} (hp : Quiet p) (hq : Quiet q) :
    Quiet (if P then p else q) := keeps_ite hp hq

theorem quiet_orFault (x : Except Fault α) : Quiet (PortHandlers.orFault x) := by
  cases x with
  | error f => exact quiet_stop _
  | ok a => exact quiet_pure a

end Quiet

section Asked
variable (env : PortEnv)

/-- The arguments of a command are read, and say which effect it asks for. -/
def asks : Command → Port Effect
  | .aerospikeInit => return .initialise
  | .hostAdd => do
    let host ← textArg maxHostSize "invalid first argument: host"
    let port ← required eiDecodeLong "invalid second argument: port"
    return (env.addHosts (cStr host) port).elim .none .addHosts
  | .hostClear => return .clearHosts
  | .connect => do
    let user ← textArg asUserSize "invalid first argument: user name"
    let password ← textArg asPasswordSize "invalid seconf argument: password"
    return .attempt (some (cStr user,cStr password)) env.connect.isNone
  | .anonConnect => return .attempt none env.connect.isNone
  | .keyExists => do return .request (.keyExists (← keyArgs))
  | .keyGet | .keyGeneration => do return .request (.keyGet (← keyArgs) none)
  | .keyRemove => do return .request (.keyRemove (← keyArgs))
  | .keyPut => do
    let key ← keyArgs
    let length ← required eiDecodeListHeader "invalid fourth argument: list"
    let rec ← eachPair (fun rec bin val => setBin env.client rec bin (.integer val)) length
      ⟨length,0,[]⟩
    return if 0 < length then .request (.keyPut key rec) else .none
  | .keyInc => do
    let key ← keyArgs
    let length ← required eiDecodeListHeader "invalid fourth argument: list"
    let ops ← eachPair (fun ops bin val => ops.add env.client (.incr bin val)) length ⟨0,[]⟩
    return if 0 < length then .request (.keyOperate key ops none) else .none
  | .keySelect => do
    let key ← keyArgs
    let length ← required eiDecodeListHeader "invalid fourth argument: list"
    if length = 0 then return .none
    else do
      let bins ← selectBins length []
      return .request (.keySelect key bins)
  | .binaryKeyGet => do
    let ns ← binaryArg "BKG invalid namespace bytestring size"
      "BKG invalid first argument: namespace"
    let set ← binaryArg "BKG invalid set bytestring size" "BKG invalid second argument: namespace"
    let key ← binaryArg "BKG invalid key bytestring size" "BKG invalid second argument: namespace"
    return .request (.keyGet (asKeyInitStr ns set key) none)
  | .binaryKeyPut => do
    let ns ← binaryArg "BKP invalid namespace bytestring size"
      "BKP invalid first argument: namespace"
    let set ← binaryArg "BKP invalid set bytestring size" "BKP invalid second argument: namespace"
    let key ← binaryArg "BKP invalid key bytestring size" "BKP invalid second argument: namespace"
    let length ← required eiDecodeListHeader "invalid fourth argument: list"
    let rec ← putBins env.client length ⟨length,0,[]⟩
    let _ ← decode eiDecodeListHeader
    let recTtl ← required eiDecodeLong "Invalid ttl value"
    return .request (.keyPut (asKeyInitStr ns set key) { rec with ttl := UInt32.ofInt recTtl })
  | .cdtGet => do
    let ns ← binaryArg "CPCG invalid namespace bytestring size"
      "CPCG invalid first argument: namespace"
    let set ← binaryArg "CPCG invalid namespace bytestring size"
      "CPCG invalid second argument: set"
    let key ← binaryArg "CPCG invalid namespace bytestring size"
      "CPCG invalid third argument: key"
    let _ ← policyArg env "CPCG invalid 4 argument: policy ( wrong size )" "CPCG invalid policy"
    return .request (.keyGet (asKeyInitStr ns set key) none)
  | .cdtPut => do
    let ns ← binaryArg "CPCP invalid namespace bytestring size"
      "CPCP invalid first argument: namespace"
    let set ← binaryArg "CPCP invalid namespace bytestring size"
      "CPCP invalid second argument: set"
    let key ← binaryArg "CPCP invalid namespace bytestring size"
      "CPCP invalid third argument: key"
    let (binsType,_) ← getType
    if binsType ≠ .list then return .none
    else do
      let length ← required eiDecodeListHeader "invalid list of bins"
      let mycdt ← getBins env length ⟨[],[]⟩
      let (termType,_) ← getType
      if ¬isShortInteger termType then return .none
      else do
        let recordTtl := (← decode eiDecodeLong).getD 0
        let policy ← policyArg env "CPCP invalid 5 argument: policy ( wrong size )"
          "CPCP invalid policy"
        return .request (.keyOperate (asKeyInitStr ns set key) (cdtPutOps env recordTtl mycdt)
          (some ⟨policy,UInt32.ofInt recordTtl⟩))
  | _ => return .none

def functionAsks (arity : ℕ) : Port Effect := do
  match ← decodeAtomInto fnameSize with
  | none => return .none
  | some fname =>
    match commands.find? (checkName fname arity) with
    | none => return .none
    | some cmd => do
      preMacro
      asks env cmd

end Asked

section Frames

structure PortFrame where
  env : PortEnv
  payload : List Tok
  behind : Behind

def serve (f : PortFrame) (s : PortState) : PortState :=
  (processFrame f.env f.payload f.behind s).2

/-- A frame asks for what the command in it asks for, and a frame without one
asks for nothing. -/
def PortFrame.asks (f : PortFrame) : Port Effect := do
  if bufSize < 1+(f.payload.flatMap Tok.bytes).length then return .none
  else do
    update (fun s => { s with index := f.payload ++ f.behind.stale })
    match ← decode eiDecodeTupleHeader with
    | some arity => if 0 < arity then functionAsks f.env arity else return .none
    | none => return .none

/-- What is asked for is granted if the flags allow it. -/
def granted (asked : Except Leave Effect) (s : Session) : Effect :=
  match asked with
  | .ok e => if e.Allowed s then e else .none
  | .error _ => .none

/-- The effect of a frame in a state of the port. -/
def effectOf (f : PortFrame) (s : PortState) : Effect := granted (f.asks s).1 (session s)

/-- The effects of the frames of a run. -/
def effects (frames : List PortFrame) (s : PortState) : List Effect :=
  (visits serve frames s).map (fun v => effectOf v.2 v.1)

end Frames

section Acts
variable {env : PortEnv} {α : Type}

/-- Every effect that may be asked for is of the kind. -/
def Yields (P : Effect → Prop) (asked : Port Effect) : Prop :=
  ∀ s e, (asked s).1 = .ok e → P e

theorem yields_bind {P : Effect → Prop} (p : Port α) {f : α → Port Effect}
    (h : ∀ a, Yields P (f a)) : Yields P (p >>= f) := by
  intro s e he
  cases hrun : p s with
  | mk r t =>
    cases r with
    | ok a =>
      rw [bind_run_ok f hrun] at he
      exact h a t e he
    | error l =>
      rw [bind_run_error f hrun] at he
      cases he

/-- In every session of the kind the procedure has the effect that is asked for
and granted there. -/
def Acts (env : PortEnv) (G : Session → Prop) (asked : Port Effect) (p : Port Unit) : Prop :=
  ∀ s, G (session s) →
    session (p s).2 = (granted (asked s).1 (session s)).apply env.client (session s)

def Linked (s : Session) : Prop := s.initialised = true ∧ s.connected = true

variable {G : Session → Prop}

/-- After its effect a handler only replies. -/
theorem acts_then {p : Port α} {f : α → Port Unit} {e : Effect}
    (hp : ∀ s, G (session s) → e.Allowed (session s) ∧
      session (p s).2 = e.apply env.client (session s)) (hf : ∀ a, Quiet (f a)) :
    Acts env G (pure e) (p >>= f) := by
  intro s hs
  obtain ⟨hallowed,he⟩ := hp s hs
  have hgranted : granted ((pure e : Port Effect) s).1 (session s) = e := if_pos hallowed
  rw [hgranted]
  cases hrun : p s with
  | mk r t =>
    rw [hrun] at he
    cases r with
    | ok a =>
      rw [bind_run_ok f hrun]
      exact (hf a t).trans he
    | error l =>
      rw [bind_run_error f hrun]
      exact he

theorem acts_submit (respond : List Request → Response) (req : Request)
    {f : Response → Port Unit} (hf : ∀ r, Quiet (f r)) :
    Acts env Linked (pure (.request req)) (submit respond req >>= f) :=
  acts_then (fun _ hs => ⟨hs,rfl⟩) hf

end Acts

section Handlers
variable (env : PortEnv) (G : Session → Prop)

end Handlers

section Runs

end Runs

section Histories

def Effect.req : Effect → Option Request
  | request req => some req
  | _ => Option.none

variable {c : Client} {es : List Effect} {e : Effect} {s : Session}

end Histories

section Example

end Example

end AspikePort.PortSessions
