import AspikePort.GuardedSubmission
import AspikePort.PutAgreement

/-!
# Calls, event loops and the objects they share

Any number of calls and of event loops take their steps in any order. A call
creates a `callback_data` and hands it to the client with its request. If the
client refuses the request the call deletes the object, otherwise the listener
does, possibly before the call has returned. A call that nothing interrupts
takes the steps of its body.
-/

set_option autoImplicit false

namespace AspikePort.AsyncMachine
open AspikePort.ErlangTerms AspikePort.ClientValues AspikePort.EarlyReturn
open AspikePort.NifWorld AspikePort.CdtPut AspikePort.AsyncCalls AspikePort.LabelledRuns
open AspikePort.Lifecycle AspikePort.GuardedSubmission AspikePort.PutAgreement Proc

inductive AsyncCall where
  | cdtPutAsync (ref nameSpace set key bins ttl policy : Term)
  | cdtGetAsync (ref nameSpace set key policy : Term)
  | cdtDeleteByKeysAsync (ref nameSpace set key bin list : Term)
  | cdtDeleteByKeysBatchAsync (ref nameSpace set bin tuples : Term)

namespace AsyncCall

def ref : AsyncCall → Term
  | cdtPutAsync ref _ _ _ _ _ _ => ref
  | cdtGetAsync ref _ _ _ _ => ref
  | cdtDeleteByKeysAsync ref _ _ _ _ _ => ref
  | cdtDeleteByKeysBatchAsync ref _ _ _ _ => ref

/-- Everything up to the creation of the `callback_data`. -/
def job (c : Client) (env : Env) : AsyncCall → Nif AsyncJob
  | cdtPutAsync ref ns set key bins ttl policy => cdtPutAsyncJob c env ref ns set key bins ttl policy
  | cdtGetAsync ref ns set key policy => cdtGetAsyncJob ref ns set key policy
  | cdtDeleteByKeysAsync ref ns set key bin list => cdtDeleteByKeysAsyncJob c ref ns set key bin list
  | cdtDeleteByKeysBatchAsync ref ns set bin tuples =>
    cdtDeleteByKeysBatchAsyncJob c ref ns set bin tuples

def toDataCall : AsyncCall → DataCall
  | cdtPutAsync ref ns set key bins ttl policy => .cdtPutAsync ref ns set key bins ttl policy
  | cdtGetAsync ref ns set key policy => .cdtGetAsync ref ns set key policy
  | cdtDeleteByKeysAsync ref ns set key bin list => .cdtDeleteByKeysAsync ref ns set key bin list
  | cdtDeleteByKeysBatchAsync ref ns set bin tuples => .cdtDeleteByKeysBatchAsync ref ns set bin tuples

theorem body_eq (c : Client) (env : Env) (call : AsyncCall) :
    call.toDataCall.body c env = call.job c env >>= submitAsync env := by
  cases call <;> rfl

theorem job_checks (c : Client) (env : Env) (w : World) (call : AsyncCall) :
    Checks (call.job c env) (·.ref = call.ref) w := by
  cases call with
  | cdtPutAsync => exact cdtPutAsyncJob_checks c env w _ _ _ _ _ _ _
  | cdtGetAsync => exact cdtGetAsyncJob_checks w _ _ _ _ _
  | cdtDeleteByKeysAsync => exact cdtDeleteByKeysAsyncJob_checks c w _ _ _ _ _ _
  | cdtDeleteByKeysBatchAsync => exact cdtDeleteByKeysBatchAsyncJob_checks c w _ _ _ _ _

end AsyncCall

section Machine

/-- `deletions` counts the times the object has been deleted. -/
structure CallbackData where
  callerPid : ℕ
  job : AsyncJob
  nodeName : String
  deletions : ℕ

/-- Where a call stands between two of its effects. -/
inductive Pc where
  | checked (job : AsyncJob)
  | allocated (job : AsyncJob)
  | refused (answer : Response)
  | accepted
  | returned (reply : Reply)

/-- How many steps of its own a call is from its return. -/
def Pc.left : Pc → ℕ
  | checked _ => 3
  | allocated _ => 2
  | refused _ | accepted => 1
  | returned _ => 0

/-- `data` is the object that `cb_data` points to. -/
structure AsyncRun where
  env : Env
  call : AsyncCall
  pc : Pc
  data : Option CallbackData

/-- `about` is the call whose listener sent the message. -/
structure Message where
  about : ℕ
  receiver : ℕ
  body : Term

/-- Calls and their objects are known by the position of the call in `runs`.
`pending` has the object of each request the client has taken and not
completed, `sent` that of each listener between its message and its end. -/
structure Machine where
  world : World
  runs : List AsyncRun
  pending : List ℕ
  sent : List ℕ
  messages : List Message
  faults : ℕ

def initial (w : World) : Machine := ⟨w,[],[],[],[],0⟩

namespace Machine

def object (i : ℕ) (m : Machine) : Option CallbackData := m.runs[i]?.bind (·.data)

def change (i : ℕ) (f : AsyncRun → AsyncRun) (m : Machine) : Machine :=
  { m with runs := m.runs.modify i f }

/-- A read or write of the object through its pointer. -/
def touch (i : ℕ) (m : Machine) : Machine :=
  if (m.object i).any (·.deletions = 0) then m else { m with faults := m.faults+1 }

def delete (i : ℕ) (m : Machine) : Machine :=
  match m.object i with
  | none => touch i m
  | some d => change i ({ · with data := some { d with deletions := d.deletions+1 } })
      { touch i m with world := untrackNode d.nodeName m.world }

end Machine

inductive Action where
  | invoke (env : Env) (call : AsyncCall)
  | advance (i : ℕ)
  | listen (i : ℕ) (out : Outcome)
  | finish (i : ℕ)
  | other (w : World)

def create (i : ℕ) (run : AsyncRun) (job : AsyncJob) (m : Machine) : Machine :=
  match trackNode run.env job.tracked m.world with
  | (.ok nodeName,w) => Machine.change i
      ({ · with pc := .allocated job, data := some ⟨run.env.self,job,nodeName,0⟩ })
      { m with world := w }
  | (.error r,w) => Machine.change i ({ · with pc := .returned r }) { m with world := w }

def submitJob (i : ℕ) (run : AsyncRun) (job : AsyncJob) (m : Machine) : Machine :=
  let answer := run.env.respond (m.world.submitted ++ [job.request])
  let m := Machine.touch i { m with world := afterSubmit job.request m.world }
  if answer.status ≠ aerospikeOk then m.change i ({ · with pc := .refused answer })
  else Machine.change i ({ · with pc := .accepted }) { m with pending := m.pending ++ [i] }

def advance (i : ℕ) (run : AsyncRun) (m : Machine) : Machine :=
  match run.pc with
  | .checked job => create i run job m
  | .allocated job => submitJob i run job m
  | .refused answer => (m.delete i).change i
      ({ · with pc := .returned (.term (makeNifError answer.errCode (orUnknown answer.message))) })
  | .accepted => m.change i ({ · with pc := .returned (.term inProgress) })
  | .returned _ => m

variable (c : Client)

def Pc.afterChecks : Except Reply AsyncJob → Pc
  | .ok job => .checked job
  | .error r => .returned r

def invoke (env : Env) (call : AsyncCall) (m : Machine) : Machine :=
  let r := call.job c env m.world
  { m with world := r.2, runs := m.runs ++ [⟨env,call,.afterChecks r.1,none⟩] }

/-- A listener reads its object and sends the message. One whose conversion of
the delivered record does not end normally is not run. -/
def runListener (i : ℕ) (out : Outcome) (m : Machine) : Machine :=
  match m.object i with
  | none => m.touch i
  | some d =>
    match callback c d.job out with
    | .error _ => m
    | .ok body => { m.touch i with
        pending := m.pending.erase i
        sent := m.sent ++ [i]
        messages := m.messages ++ [⟨i,d.callerPid,body⟩] }

def finish (i : ℕ) (m : Machine) : Machine := Machine.delete i { m with sent := m.sent.erase i }

def step : Action → Machine → Machine
  | .invoke env call, m => invoke c env call m
  | .advance i, m => match m.runs[i]? with | none => m | some run => advance i run m
  | .listen i out, m => if i ∈ m.pending then runListener c i out m else m
  | .finish i, m => if i ∈ m.sent then finish i m else m
  | .other w, m => { m with world := w }

end Machine

section Tallies

def Machine.about (i : ℕ) (m : Machine) : List Message := m.messages.filter (·.about = i)

/-- What the client, the listeners and the callers have of one call. -/
structure Tally where
  pending : ℕ
  sent : ℕ
  messages : List Message

def Machine.tally (i : ℕ) (m : Machine) : Tally :=
  ⟨m.pending.count i,m.sent.count i,m.about i⟩

end Tallies

section Objects
variable {m : Machine} {i : ℕ}

theorem touch_alive {d : CallbackData} (hobj : m.object i = some d) (h : d.deletions = 0) :
    m.touch i = m := by
  simp [Machine.touch,hobj,h]

theorem delete_alive {d : CallbackData} (hobj : m.object i = some d) (h : d.deletions = 0) :
    m.delete i = Machine.change i ({ · with data := some { d with deletions := 1 } })
      { m with world := untrackNode d.nodeName m.world } := by
  unfold Machine.delete
  rw [hobj,touch_alive hobj h]
  simp only [h]

end Objects

section Alone
variable (c : Client) (m : Machine) (w : World) (run : AsyncRun)

/-- The machine with one more call. -/
def Machine.joined : Machine := { m with world := w, runs := m.runs ++ [run] }

theorem modify_last {α : Type} (xs : List α) (x : α) (f : α → α) :
    (xs ++ [x]).modify xs.length f = xs ++ [f x] := by
  induction xs with
  | nil => rfl
  | cons y xs ih => simp [ih]

theorem joined_change (f : AsyncRun → AsyncRun) :
    (m.joined w run).change m.runs.length f = m.joined w (f run) := by
  simp [Machine.change,Machine.joined,modify_last]

theorem joined_advance :
    step c (.advance m.runs.length) (m.joined w run) =
      advance m.runs.length run (m.joined w run) := by
  simp [step,Machine.joined]

theorem joined_object : (m.joined w run).object m.runs.length = run.data := by
  simp [Machine.object,Machine.joined]

theorem joined_create {job : AsyncJob} {name : String} {w' : World}
    (h : trackNode run.env job.tracked w = (.ok name,w')) :
    create m.runs.length run job (m.joined w run) = m.joined w'
      { run with pc := .allocated job, data := some ⟨run.env.self,job,name,0⟩ } := by
  unfold create
  change (match trackNode run.env job.tracked w with | (.ok _,_) => _ | (.error _,_) => _) = _
  rw [h]
  exact joined_change m w' run _

theorem joined_submit {d : CallbackData} (hd : run.data = some d) (h : d.deletions = 0)
    (job : AsyncJob) :
    submitJob m.runs.length run job (m.joined w run) =
      if (run.env.respond (w.submitted ++ [job.request])).status ≠ aerospikeOk then
        m.joined (afterSubmit job.request w)
          { run with pc := .refused (run.env.respond (w.submitted ++ [job.request])) }
      else Machine.joined { m with pending := m.pending ++ [m.runs.length] }
        (afterSubmit job.request w) { run with pc := .accepted } := by
  have htouch := touch_alive ((joined_object m (afterSubmit job.request w) run).trans hd) h
  unfold submitJob
  change (if (run.env.respond (w.submitted ++ [job.request])).status ≠ aerospikeOk then
      Machine.change m.runs.length ({ · with pc := .refused _ })
        (Machine.touch m.runs.length (m.joined (afterSubmit job.request w) run))
    else Machine.change m.runs.length ({ · with pc := .accepted })
      { Machine.touch m.runs.length (m.joined (afterSubmit job.request w) run) with
        pending := (Machine.touch m.runs.length
          (m.joined (afterSubmit job.request w) run)).pending ++ [m.runs.length] }) = _
  rw [htouch,joined_change]
  congr 1
  exact joined_change { m with pending := m.pending ++ [m.runs.length] } _ run _

theorem joined_delete {d : CallbackData} (hd : run.data = some d) (h : d.deletions = 0) :
    (m.joined w run).delete m.runs.length =
      m.joined (untrackNode d.nodeName w) { run with data := some { d with deletions := 1 } } := by
  rw [delete_alive ((joined_object m w run).trans hd) h]
  exact joined_change m _ run _

theorem submitAsync_tracked {env : Env} {job : AsyncJob} {name : String} {w w' : World}
    (h : trackNode env job.tracked w = (.ok name,w')) :
    submitAsync env job w =
      if (env.respond (w'.submitted ++ [job.request])).status ≠ aerospikeOk then
        (.ok (makeNifError (env.respond (w'.submitted ++ [job.request])).errCode
          (orUnknown (env.respond (w'.submitted ++ [job.request])).message)),
          untrackNode name (afterSubmit job.request w'))
      else (.ok inProgress,afterSubmit job.request w') := by
  unfold submitAsync
  rw [bind_run_ok _ h,submit_bind_run]
  split_ifs <;> rfl

/-- A call whose steps nothing comes between does what its body does. -/
theorem alone_runs_body (env : Env) (call : AsyncCall) :
    ∃ data pending, LabelledRuns.run (step c)
        (.invoke env call::List.replicate 3 (.advance m.runs.length)) m =
      Machine.joined { m with pending := pending } (call.toDataCall.body c env m.world).2
        ⟨env,call,.returned (replyOf (call.toDataCall.body c env m.world).1),data⟩ := by
  rw [AsyncCall.body_eq]
  have hinvoke : step c (.invoke env call) m = m.joined (call.job c env m.world).2
      ⟨env,call,.afterChecks (call.job c env m.world).1,none⟩ := rfl
  rw [LabelledRuns.run,hinvoke]
  cases hjob : call.job c env m.world with
  | mk r w =>
    simp only [List.replicate,LabelledRuns.run,joined_advance]
    cases r with
    | error e =>
      rw [bind_run_error _ hjob]
      simp only [Pc.afterChecks,advance,joined_advance]
      exact ⟨none,m.pending,rfl⟩
    | ok job =>
      obtain ⟨name,w',htrack,_⟩ := trackNode_run env job.tracked w
      have hcreate := joined_create m w ⟨env,call,.checked job,none⟩ htrack
      have hsubmit := joined_submit m w'
        ⟨env,call,.allocated job,some ⟨env.self,job,name,0⟩⟩ rfl rfl job
      rw [bind_run_ok _ hjob,submitAsync_tracked htrack]
      simp only [Pc.afterChecks,advance]
      rw [hcreate,joined_advance]
      simp only [advance]
      rw [hsubmit]
      split_ifs
      · rw [joined_advance]
        simp only [advance]
        rw [joined_delete m _ _ rfl rfl,joined_change]
        exact ⟨_,m.pending,rfl⟩
      · refine ⟨some ⟨env.self,job,name,0⟩,m.pending ++ [m.runs.length],?_⟩
        rw [joined_advance c { m with pending := m.pending ++ [m.runs.length] }]
        exact joined_change { m with pending := m.pending ++ [m.runs.length] } _ _ _

end Alone

end AspikePort.AsyncMachine
