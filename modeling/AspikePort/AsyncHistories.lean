import AspikePort.AsyncOwnership
import AspikePort.RecordServer

/-!
# Histories of asynchronous calls and the order the database gives them

The machine of calls and event loops runs beside the client and the database.
A request that a call hands over stays with the client until the database
carries it out, at a time of its own and between other requests. The client
hands the listener what the database answered, or an error of its own.
-/

set_option autoImplicit false

namespace AspikePort.AsyncHistories
open AspikePort.ErlangTerms AspikePort.ClientValues AspikePort.EarlyReturn
open AspikePort.NifWorld AspikePort.CdtPut AspikePort.AsyncCalls AspikePort.LabelledRuns
open AspikePort.GuardedSubmission AspikePort.PutAgreement AspikePort.AsyncMachine
open AspikePort.AsyncOwnership AspikePort.RecordServer AspikePort.Lifecycle Proc

section Growth
variable (c : Client)

/-- The client has taken the request of the call. -/
def Taken (run : AsyncRun) : Prop :=
  run.pc = .accepted ∨ run.pc = .returned (.term inProgress)

def Has (run : AsyncRun) (job : AsyncJob) : Prop :=
  run.pc = .checked job ∨ run.pc = .allocated job ∨ ∃ d, run.data = some d ∧ d.job = job

/-- The object of a call that is about to submit has the job it submits. -/
def Loaded (run : AsyncRun) : Prop :=
  ∀ job, run.pc = .allocated job → ∃ d, run.data = some d ∧ d.job = job

/-- Every job of the call is one that its checks have made. -/
structure Made (run : AsyncRun) : Prop where
  job : ∀ job, Has run job → ∃ w, (run.call.job c run.env w).1 = .ok job
  loaded : Loaded run

/-- What a step may do to a call that is there already. -/
structure Follows (run run' : AsyncRun) : Prop where
  env : run'.env = run.env
  call : run'.call = run.call
  data : ∀ d, run.data = some d → ∃ d', run'.data = some d' ∧ d'.job = d.job
  taken : Taken run → Taken run'
  has : ∀ job, Has run' job → Has run job
  loaded : Loaded run → Loaded run'

def Grows (m m' : Machine) : Prop :=
  ∀ (i : ℕ) run, m.runs[i]? = some run → ∃ run', m'.runs[i]? = some run' ∧ Follows run run'

variable {c} {m m' m'' : Machine} {run run' : AsyncRun} {i : ℕ}

theorem Follows.refl (run : AsyncRun) : Follows run run :=
  ⟨rfl,rfl,fun d hd => ⟨d,hd,rfl⟩,id,fun _ => id,id⟩

theorem Follows.made (h : Follows run run') (hm : Made c run) : Made c run' := by
  refine ⟨fun job hjob => ?_,h.loaded hm.loaded⟩
  rw [h.call,h.env]
  exact hm.job job (h.has job hjob)

theorem grows_of_runs (h : m'.runs = m.runs) : Grows m m' := by
  intro i run hr
  exact ⟨run,by rw [h,hr],Follows.refl run⟩

theorem grows_change (hruns : m'.runs = m.runs) (f : AsyncRun → AsyncRun)
    (h : ∀ run, m.runs[i]? = some run → Follows run (f run)) : Grows m (m'.change i f) := by
  intro j run hr
  by_cases hj : j = i
  · subst hj
    exact ⟨f run,by simp [Machine.change,hruns,hr],h run hr⟩
  · exact ⟨run,by simp [Machine.change,hruns,Ne.symm hj,hr],Follows.refl run⟩

theorem Follows.trans {run'' : AsyncRun} (h : Follows run run') (h' : Follows run' run'') :
    Follows run run'' := by
  refine ⟨h'.env.trans h.env,h'.call.trans h.call,fun d hd => ?_,fun ht => h'.taken (h.taken ht),
    fun job hjob => h.has job (h'.has job hjob),fun hl => h'.loaded (h.loaded hl)⟩
  obtain ⟨d',hd',hjob⟩ := h.data d hd
  obtain ⟨d'',hd'',hjob'⟩ := h'.data d' hd'
  exact ⟨d'',hd'',hjob'.trans hjob⟩

theorem Grows.trans (h : Grows m m') (h' : Grows m' m'') : Grows m m'' := by
  intro i run hr
  obtain ⟨run',hr',hfollows⟩ := h i run hr
  obtain ⟨run'',hr'',hfollows'⟩ := h' i run' hr'
  exact ⟨run'',hr'',hfollows.trans hfollows'⟩

/-- The call has come past its checks and the creation of its object. -/
theorem follows_pc {pc : Pc} (ht : Taken run → Taken { run with pc := pc })
    (hpc : ∀ job, pc ≠ .checked job ∧ pc ≠ .allocated job) :
    Follows run { run with pc := pc } := by
  refine ⟨rfl,rfl,fun d hd => ⟨d,hd,rfl⟩,ht,fun job hjob => ?_,
    fun _ job hjob => absurd hjob (hpc job).2⟩
  rcases hjob with h | h | h
  · exact absurd h (hpc job).1
  · exact absurd h (hpc job).2
  · exact Or.inr (Or.inr h)

theorem follows_data {d d' : CallbackData} (hd : run.data = some d) (hjob : d'.job = d.job) :
    Follows run { run with data := some d' } := by
  refine ⟨rfl,rfl,fun e he => ⟨d',rfl,?_⟩,id,fun job hhas => ?_,fun hl job hpc => ⟨d',rfl,?_⟩⟩
  · rw [hd] at he
    rw [hjob,Option.some.inj he]
  · rcases hhas with h | h | ⟨e,he,hj⟩
    · exact Or.inl h
    · exact Or.inr (Or.inl h)
    · cases he
      exact Or.inr (Or.inr ⟨d,hd,hjob.symm.trans hj⟩)
  · obtain ⟨e,he,hloaded⟩ := hl job hpc
    rw [hd] at he
    cases he
    exact hjob.trans hloaded

theorem follows_create {job : AsyncJob} {name : String} (hpc : run.pc = .checked job)
    (hnone : run.data = none) :
    Follows run { run with pc := .allocated job, data := some ⟨run.env.self,job,name,0⟩ } := by
  refine ⟨rfl,rfl,fun d hd => ?_,fun ht => ?_,fun job' hhas => ?_,fun _ job' hpc' => ?_⟩
  · rw [hnone] at hd
    cases hd
  · rcases ht with h | h
    · cases hpc.symm.trans h
    · cases hpc.symm.trans h
  · rcases hhas with h | h | ⟨e,he,rfl⟩
    · cases h
    · cases h
      exact Or.inl hpc
    · cases he
      exact Or.inl hpc
  · cases hpc'
    exact ⟨_,rfl,rfl⟩

theorem grows_delete (m : Machine) (i : ℕ) : Grows m (m.delete i) := by
  unfold Machine.delete
  cases hobj : m.object i with
  | none => exact grows_of_runs (by simp [Machine.touch,hobj])
  | some d =>
    refine grows_change (by simp only [Machine.touch]; split <;> rfl) _ (fun run hr => ?_)
    have hd : run.data = some d := by simpa [Machine.object,hr] using hobj
    exact follows_data hd rfl

theorem touch_runs (m : Machine) (i : ℕ) : (m.touch i).runs = m.runs := by
  unfold Machine.touch
  split <;> rfl

theorem touch_messages (m : Machine) (i : ℕ) : (m.touch i).messages = m.messages := by
  unfold Machine.touch
  split <;> rfl

theorem delete_messages (m : Machine) (i : ℕ) : (m.delete i).messages = m.messages := by
  unfold Machine.delete
  cases m.object i with
  | none => exact touch_messages m i
  | some d => exact touch_messages m i

theorem not_taken_allocated {job : AsyncJob} (h : run.pc = .allocated job) : ¬Taken run := by
  simp [Taken,h]

theorem advance_grows (h : Sound m) (hr : m.runs[i]? = some run) : Grows m (advance i run m) := by
  have hrun := consistent_of_sound h hr
  unfold Consistent at hrun
  unfold advance
  cases hpc : run.pc with
  | checked job =>
    rw [hpc] at hrun
    dsimp only
    unfold create
    obtain ⟨name,w,htrack,_⟩ := trackNode_run run.env job.tracked m.world
    rw [htrack]
    refine grows_change rfl _ (fun r hr' => ?_)
    obtain rfl : run = r := Option.some.inj (hr.symm.trans hr')
    exact follows_create hpc hrun.2.1
  | allocated job =>
    dsimp only
    unfold submitJob
    dsimp only
    split_ifs
    all_goals
      refine grows_change (m := m) (by simp [touch_runs]) _ (fun r hr' => ?_)
      obtain rfl : run = r := Option.some.inj (hr.symm.trans hr')
      exact follows_pc (fun ht => absurd ht (not_taken_allocated hpc)) (fun job => by simp)
  | refused answer =>
    rw [hpc] at hrun
    obtain ⟨d,hobj,-,-,hd⟩ := object_of_held hr hrun.1
    refine (grows_delete m i).trans (grows_change rfl _ (fun r hr' => ?_))
    rw [delete_alive hobj hd] at hr'
    obtain rfl : { run with data := some { d with deletions := 1 } } = r := by
      simpa [Machine.change,hr] using hr'
    exact follows_pc (fun ht => by simp [Taken,hpc] at ht) (fun job => by simp)
  | accepted =>
    refine grows_change rfl _ (fun r hr' => ?_)
    exact follows_pc (fun _ => Or.inr rfl) (fun job => by simp)
  | returned reply => exact grows_of_runs rfl

theorem create_messages (i : ℕ) (run : AsyncRun) (job : AsyncJob) (m : Machine) :
    (create i run job m).messages = m.messages := by
  unfold create
  split <;> rfl

theorem submitJob_messages (i : ℕ) (run : AsyncRun) (job : AsyncJob) (m : Machine) :
    (submitJob i run job m).messages = m.messages := by
  unfold submitJob
  dsimp only
  split_ifs
  all_goals exact touch_messages _ i

theorem advance_messages (i : ℕ) (run : AsyncRun) (m : Machine) :
    (advance i run m).messages = m.messages := by
  unfold advance
  cases run.pc with
  | checked job => exact create_messages i run job m
  | allocated job => exact submitJob_messages i run job m
  | refused answer => exact delete_messages m i
  | accepted => rfl
  | returned reply => rfl

theorem runListener_grows (i : ℕ) (out : Outcome) : Grows m (runListener c i out m) := by
  unfold runListener
  cases m.object i with
  | none => exact grows_of_runs (touch_runs m i)
  | some d =>
    dsimp only
    cases callback c d.job out with
    | error f => exact grows_of_runs rfl
    | ok body => exact grows_of_runs (touch_runs m i)

theorem runListener_messages (i : ℕ) (out : Outcome) :
    (runListener c i out m).messages = m.messages ∨ ∃ d body, m.object i = some d ∧
      callback c d.job out = .ok body ∧
      (runListener c i out m).messages = m.messages ++ [⟨i,d.callerPid,body⟩] := by
  unfold runListener
  cases hobj : m.object i with
  | none => exact Or.inl (touch_messages m i)
  | some d =>
    dsimp only
    cases hbody : callback c d.job out with
    | error f => exact Or.inl rfl
    | ok body => exact Or.inr ⟨d,body,rfl,hbody,rfl⟩

theorem step_grows (h : Sound m) (a : Action) : Grows m (step c a m) := by
  cases a with
  | invoke env call =>
    intro i run hr
    have hlt : i < m.runs.length := (List.getElem?_eq_some_iff.mp hr).1
    exact ⟨run,(List.getElem?_append_left hlt).trans hr,Follows.refl run⟩
  | advance i =>
    cases hr : m.runs[i]? with
    | none => simpa [step,hr] using grows_of_runs rfl
    | some run => simpa [step,hr] using advance_grows h hr
  | listen i out =>
    by_cases hi : i ∈ m.pending
    · simpa [step,hi] using runListener_grows i out
    · simpa [step,hi] using grows_of_runs rfl
  | finish i =>
    by_cases hi : i ∈ m.sent
    · have hdelete : Grows m (finish i m) := grows_delete { m with sent := m.sent.erase i } i
      simpa [step,hi] using hdelete
    · simpa [step,hi] using grows_of_runs rfl
  | other w => exact grows_of_runs rfl

/-- Only a listener sends. -/
theorem step_messages (a : Action) (h : ∀ i out, a ≠ .listen i out) :
    (step c a m).messages = m.messages := by
  cases a with
  | invoke env call => rfl
  | advance i =>
    cases hr : m.runs[i]? with
    | none => simp [step,hr]
    | some run => simpa [step,hr] using advance_messages i run m
  | listen i out => exact absurd rfl (h i out)
  | finish i =>
    by_cases hi : i ∈ m.sent
    · simpa [step,hi,finish] using delete_messages { m with sent := m.sent.erase i } i
    · simp [step,hi]
  | other w => rfl

theorem invoke_made (env : Env) (call : AsyncCall) (w : World) :
    Made c ⟨env,call,.afterChecks (call.job c env w).1,none⟩ := by
  refine ⟨fun job hhas => ⟨w,?_⟩,fun job hpc => ?_⟩
  · rcases hhas with h | h | ⟨d,hd,-⟩
    · cases hjob : (call.job c env w).1 with
      | ok made =>
        simp only [hjob,Pc.afterChecks,Pc.checked.injEq] at h
        simp [h]
      | error r => simp [hjob,Pc.afterChecks] at h
    · cases hjob : (call.job c env w).1 <;> simp [hjob,Pc.afterChecks] at h
    · cases hd
  · cases hjob : (call.job c env w).1 <;> simp [hjob,Pc.afterChecks] at hpc

theorem delete_length (m : Machine) (i : ℕ) : (m.delete i).runs.length = m.runs.length := by
  unfold Machine.delete
  cases m.object i with
  | none => simp [touch_runs]
  | some d => simp [Machine.change,touch_runs]

theorem advance_length (i : ℕ) (run : AsyncRun) (m : Machine) :
    (advance i run m).runs.length = m.runs.length := by
  unfold advance
  cases run.pc with
  | checked job =>
    dsimp only
    unfold create
    split <;> simp [Machine.change]
  | allocated job =>
    dsimp only
    unfold submitJob
    dsimp only
    split_ifs <;> simp [Machine.change,touch_runs]
  | refused answer => simp [Machine.change,delete_length]
  | accepted => simp [Machine.change]
  | returned reply => rfl

theorem runListener_length (i : ℕ) (out : Outcome) :
    (runListener c i out m).runs.length = m.runs.length := by
  unfold runListener
  cases m.object i with
  | none => simp [touch_runs]
  | some d => cases h : callback c d.job out <;> simp [h,touch_runs]

/-- Only an invocation adds a call. -/
theorem step_length (a : Action) (h : ∀ env call, a ≠ .invoke env call) :
    (step c a m).runs.length = m.runs.length := by
  cases a with
  | invoke env call => exact absurd rfl (h env call)
  | advance i => cases hr : m.runs[i]? <;> simp [step,hr,advance_length]
  | listen i out => by_cases hi : i ∈ m.pending <;> simp [step,hi,runListener_length]
  | finish i => by_cases hi : i ∈ m.sent <;> simp [step,hi,finish,delete_length]
  | other w => rfl

theorem made_of_grows (h : Grows m m') (hlength : m'.runs.length = m.runs.length)
    (hm : ∀ run ∈ m.runs, Made c run) : ∀ run ∈ m'.runs, Made c run := by
  intro run' hrun'
  obtain ⟨i,hi,hr'⟩ := List.getElem_of_mem hrun'
  have hlt : i < m.runs.length := by omega
  obtain ⟨run'',hr'',hfollows⟩ := h i _ (List.getElem?_eq_getElem hlt)
  obtain rfl : run'' = run' := by simpa [hi,hr'] using hr''.symm
  exact hfollows.made (hm _ (List.getElem_mem hlt))

theorem step_made (h : Sound m) (hm : ∀ run ∈ m.runs, Made c run) (a : Action) :
    ∀ run ∈ (step c a m).runs, Made c run := by
  by_cases ha : ∃ env call, a = .invoke env call
  · obtain ⟨env,call,rfl⟩ := ha
    intro run hrun
    rcases List.mem_append.mp hrun with hold | hnew
    · exact hm run hold
    · rw [List.mem_singleton.mp hnew]
      exact invoke_made env call m.world
  · push Not at ha
    exact made_of_grows (step_grows h a) (step_length a ha) hm

end Growth

section Handing
variable (c : Client)

/-- The requests that a step hands to a client that takes them. -/
def handedOver : Action → Machine → Machine → List (ℕ × Request)
  | .advance i, m, m' => if i ∉ m.pending ∧ i ∈ m'.pending then
      (m'.world.submitted.drop m.world.submitted.length).map (i,·) else []
  | _, _, _ => []

/-- The client has taken the request of the call, and it is the one that the
checks of the call have made. -/
def Asked (m : Machine) (i : ℕ) (request : Request) : Prop :=
  ∃ run d w, m.runs[i]? = some run ∧ Taken run ∧ run.data = some d ∧
    (run.call.job c run.env w).1 = .ok d.job ∧ request = d.job.request

variable {c} {m m' : Machine} {run : AsyncRun} {i : ℕ}

theorem Asked.grows {request : Request} (hm : Grows m m') (ha : Asked c m i request) :
    Asked c m' i request := by
  obtain ⟨run,d,w,hr,htaken,hd,hjob,hreq⟩ := ha
  obtain ⟨run',hr',hfollows⟩ := hm i run hr
  obtain ⟨d',hd',hsame⟩ := hfollows.data d hd
  refine ⟨run',d',w,hr',hfollows.taken htaken,hd',?_,?_⟩
  · rw [hfollows.call,hfollows.env,hsame,hjob]
  · rw [hsame,hreq]

theorem delete_pending (m : Machine) (i : ℕ) : (m.delete i).pending = m.pending := by
  unfold Machine.delete
  cases hobj : m.object i with
  | none => simp [Machine.touch,hobj]
  | some d =>
    simp only [Machine.change,Machine.touch,hobj]
    split <;> rfl

theorem create_pending (i : ℕ) (run : AsyncRun) (job : AsyncJob) (m : Machine) :
    (create i run job m).pending = m.pending := by
  unfold create
  split <;> rfl

/-- Only the submission of a job that the client accepts makes a request
pending, and then it is the request of the job that has been submitted. -/
theorem advance_pending (h : Sound m) (hr : m.runs[i]? = some run) :
    (advance i run m).pending = m.pending ∨ ∃ job, run.pc = .allocated job ∧
      (advance i run m).world.submitted = m.world.submitted ++ [job.request] ∧
      (advance i run m).runs[i]? = some { run with pc := .accepted } := by
  have hrun := consistent_of_sound h hr
  unfold Consistent at hrun
  unfold advance
  cases hpc : run.pc with
  | checked job => exact Or.inl (create_pending i run job m)
  | allocated job =>
    rw [hpc] at hrun
    have htouch := touch_held (m := { m with world := afterSubmit job.request m.world }) hr hrun.1
    simp only [submitJob,htouch]
    split_ifs
    · exact Or.inl rfl
    · refine Or.inr ⟨job,rfl,rfl,?_⟩
      exact changed_run (m := { m with
        world := afterSubmit job.request m.world, pending := m.pending ++ [i] }) hr _
  | refused answer => exact Or.inl (delete_pending m i)
  | accepted => exact Or.inl rfl
  | returned reply => exact Or.inl rfl

/-- A step hands over at most one request, for a call that has handed over none
before, and it is the one that the call asks for. -/
theorem step_hands (h : Sound m) (hm : ∀ run ∈ m.runs, Made c run) (a : Action) :
    handedOver a m (step c a m) = [] ∨ ∃ i request,
      handedOver a m (step c a m) = [(i,request)] ∧ Asked c (step c a m) i request ∧
        ∀ run, m.runs[i]? = some run → ¬Taken run := by
  cases a with
  | advance i =>
    by_cases hnew : i ∉ m.pending ∧ i ∈ (step c (.advance i) m).pending
    · right
      cases hr : m.runs[i]? with
      | none =>
        simp only [step,hr] at hnew
        exact absurd hnew.2 hnew.1
      | some run =>
        have hstep : step c (.advance i) m = advance i run m := by simp only [step,hr]
        rw [hstep] at hnew ⊢
        rcases advance_pending h hr with hsame | ⟨job,hpc,hsub,hr'⟩
        · rw [hsame] at hnew
          exact absurd hnew.2 hnew.1
        · obtain ⟨hjobs,hloaded⟩ := hm run (List.mem_of_getElem? hr)
          obtain ⟨d,hd,rfl⟩ := hloaded job hpc
          obtain ⟨w,hw⟩ := hjobs d.job (Or.inr (Or.inr ⟨d,hd,rfl⟩))
          refine ⟨i,d.job.request,?_,⟨_,d,w,hr',Or.inl rfl,hd,hw,rfl⟩,fun run' hrun' => ?_⟩
          · rw [handedOver,if_pos hnew,hsub,List.drop_left]
            rfl
          · obtain rfl : run = run' := Option.some.inj (hr.symm.trans hrun')
            exact not_taken_allocated hpc
    · exact Or.inl (if_neg hnew)
  | _ => exact Or.inl rfl

end Handing

section Histories
variable (c : Client) (S : Server)

/-- The request of a call, or of anybody else, and what was answered to it. -/
structure LogEntry where
  about : Option ℕ
  request : Request
  out : Outcome

/-- `inFlight` has what the client has taken and the database has not carried
out yet, `answers` what the database has answered. -/
structure History where
  machine : Machine
  db : S.DB
  inFlight : List (ℕ × Request)
  answers : List (ℕ × Outcome)

def begin (w : World) : History S := ⟨initial w,S.start,[],[]⟩

inductive Event where
  /-- Every step of the machine but those of the listeners. -/
  | act (a : Action)
  | execute (i : ℕ) (request : Request) (out : Outcome)
  | foreign (request : Request) (out : Outcome)
  | complete (i : ℕ) (out : Outcome)
  | fail (i : ℕ) (code : ℤ) (msg : String)

/-- The client hands a listener no error that is none. -/
def Failed (out : Outcome) : Prop := ∃ e, out.err = some e ∧ e.1 ≠ aerospikeOk

/-- The database carries a request out and says so, or says that it has not.
Of a batch that fails some records may have been written. -/
def Executes : Request → Outcome → S.DB → S.DB → Prop
  | .keyGet k _, out, db, db' => db' = db ∧
      match S.get k db with
      | some rec => out.err = none ∧ out.record = some rec
      | none => Failed out
  | .batchWrite recs, out, db, db' =>
      (out.err = none ∧ S.batch recs db = some db') ∨
      (Failed out ∧ ∃ written : List BatchWrite, written.Subperm recs ∧
        written.foldlM (fun db rec => S.operate rec.key rec.ops db) db = some db')
  | request, out, db, db' =>
      (out.err = none ∧ S.serve request db = some db') ∨ (Failed out ∧ db' = db)

def Logged (e : LogEntry) : S.DB → S.DB → Prop := Executes S e.request e.out

/-- A request in flight may be carried out at any later time, whether the
client still waits for it or not. -/
def happens : Event → History S → History S → Prop
  | .act a, h, h' => (∀ i out, a ≠ .listen i out) ∧
      h' = { h with
        machine := step c a h.machine
        inFlight := h.inFlight ++ handedOver a h.machine (step c a h.machine) }
  | .execute i request out, h, h' => ∃ older newer db,
      h.inFlight = older ++ (i,request)::newer ∧ Executes S request out h.db db ∧
        h' = { h with
          db := db
          inFlight := older ++ newer
          answers := h.answers ++ [(i,out)] }
  | .foreign request out, h, h' => ∃ db, Executes S request out h.db db ∧ h' = { h with db := db }
  | .complete i out, h, h' => (i,out) ∈ h.answers ∧
      h' = { h with machine := step c (.listen i out) h.machine }
  | .fail i code msg, h, h' => code ≠ aerospikeOk ∧
      h' = { h with machine := step c (.listen i ⟨some (code,msg),none,[]⟩) h.machine }

def Event.entry : Event → Option LogEntry
  | .execute i request out => some ⟨some i,request,out⟩
  | .foreign request out => some ⟨none,request,out⟩
  | _ => none

/-- What the database has been asked and has answered, in its own order. -/
def logOf (evs : List Event) : List LogEntry := evs.filterMap Event.entry

theorem logOf_append (evs later : List Event) : logOf (evs ++ later) = logOf evs ++ logOf later :=
  List.filterMap_append

/-- The database has carried out a request of the call with this outcome. -/
def Carried (evs : List Event) (p : ℕ × Outcome) : Prop :=
  ∃ before request after, evs = before ++ .execute p.1 request p.2::after

theorem Carried.snoc {evs : List Event} {p : ℕ × Outcome} (h : Carried evs p) (ev : Event) :
    Carried (evs ++ [ev]) p := by
  obtain ⟨before,request,after,rfl⟩ := h
  exact ⟨before,request,after ++ [ev],by simp⟩

variable {S}

structure Linear (evs : List Event) (h : History S) : Prop where
  sound : Sound h.machine
  made : ∀ run ∈ h.machine.runs, Made c run
  replay : Trace (Logged S) (logOf evs) S.start h.db
  flying : ∀ p ∈ h.inFlight, Asked c h.machine p.1 p.2
  asked : ∀ e ∈ logOf evs, ∀ i, e.about = some i → Asked c h.machine i e.request
  once : (h.inFlight.map Prod.fst ++ (logOf evs).filterMap LogEntry.about).Nodup
  answers : ∀ p ∈ h.answers, Carried evs p

variable {c} {h h' : History S} {evs : List Event}

/-- A step of the machine that only hands over what it is asked for. -/
theorem step_linear (hl : Linear c evs h) (a : Action) {ev : Event} (hev : ev.entry = none)
    {inFlight : List (ℕ × Request)}
    (hflight : inFlight = h.inFlight ++ handedOver a h.machine (step c a h.machine)) :
    Linear c (evs ++ [ev]) { h with machine := step c a h.machine, inFlight := inFlight } := by
  have hgrows := step_grows (c := c) hl.sound a
  have hlog : logOf (evs ++ [ev]) = logOf evs := by simp [logOf,hev]
  have hanswers : ∀ p ∈ h.answers, Carried (evs ++ [ev]) p := fun p hp => (hl.answers p hp).snoc ev
  have hasked : ∀ e ∈ logOf evs, ∀ i, e.about = some i → Asked c (step c a h.machine) i e.request :=
    fun e he i hi => (hl.asked e he i hi).grows hgrows
  have hflying : ∀ p ∈ h.inFlight, Asked c (step c a h.machine) p.1 p.2 :=
    fun p hp => (hl.flying p hp).grows hgrows
  subst hflight
  rcases step_hands hl.sound hl.made a with hnone | ⟨i,request,hone,hask,hfresh⟩
  · rw [hnone,List.append_nil]
    exact ⟨step_sound a hl.sound,step_made hl.sound hl.made a,hlog ▸ hl.replay,hflying,
      hlog ▸ hasked,hlog ▸ hl.once,hanswers⟩
  · rw [hone]
    -- whatever flies or has been carried out belongs to calls that have been taken before
    have hnew : i ∉ h.inFlight.map Prod.fst ++ (logOf evs).filterMap LogEntry.about := by
      intro hin
      have htaken : ∃ run, h.machine.runs[i]? = some run ∧ Taken run := by
        rcases List.mem_append.mp hin with hin | hin
        · obtain ⟨p,hp,rfl⟩ := List.mem_map.mp hin
          obtain ⟨run,-,-,hr,ht,-⟩ := hl.flying p hp
          exact ⟨run,hr,ht⟩
        · obtain ⟨e,he,hi⟩ := List.mem_filterMap.mp hin
          obtain ⟨run,-,-,hr,ht,-⟩ := hl.asked e he i hi
          exact ⟨run,hr,ht⟩
      obtain ⟨run,hr,ht⟩ := htaken
      exact hfresh run hr ht
    refine ⟨step_sound a hl.sound,step_made hl.sound hl.made a,hlog ▸ hl.replay,?_,hlog ▸ hasked,
      ?_,hanswers⟩
    · intro p hp
      rcases List.mem_append.mp hp with hold | hlast
      · exact hflying p hold
      · rw [List.mem_singleton.mp hlast]
        exact hask
    · rw [hlog,List.map_append,List.append_assoc,List.map_singleton,List.singleton_append]
      exact List.nodup_middle.mpr (List.nodup_cons.mpr ⟨hnew,hl.once⟩)

/-- An entry is added for what the database has carried out. -/
theorem execute_linear (hl : Linear c evs h) {i : ℕ} {request : Request} {out : Outcome}
    {older newer : List (ℕ × Request)} {db : S.DB}
    (hflight : h.inFlight = older ++ (i,request)::newer) (hdb : Executes S request out h.db db) :
    Linear c (evs ++ [.execute i request out]) { h with
      db := db, inFlight := older ++ newer, answers := h.answers ++ [(i,out)] } := by
  have hlog : logOf (evs ++ [.execute i request out]) = logOf evs ++ [⟨some i,request,out⟩] :=
    logOf_append evs _
  have hask : Asked c h.machine i request := hl.flying (i,request) (by simp [hflight])
  have hstill : ∀ p ∈ older ++ newer, p ∈ h.inFlight := by
    intro p hp
    rw [hflight]
    rcases List.mem_append.mp hp with hp | hp
    · exact List.mem_append_left _ hp
    · exact List.mem_append_right _ (List.mem_cons_of_mem _ hp)
  refine ⟨hl.sound,hl.made,?_,fun p hp => hl.flying p (hstill p hp),?_,?_,?_⟩
  · rw [hlog]
    exact (trace_snoc (Logged S)).mpr ⟨h.db,hl.replay,hdb⟩
  · rw [hlog]
    intro e he j hj
    rcases List.mem_append.mp he with hold | hlast
    · exact hl.asked e hold j hj
    · rw [List.mem_singleton.mp hlast] at hj ⊢
      cases hj
      exact hask
  · have honce := hl.once
    rw [hflight] at honce
    rw [hlog]
    refine (List.Perm.nodup_iff ?_).mp honce
    simp only [List.map_append,List.map_cons,List.filterMap_append,List.append_assoc,
      List.cons_append]
    refine List.Perm.append_left _ (List.perm_append_singleton _ _ |>.symm.trans ?_)
    simp
  · intro p hp
    rcases List.mem_append.mp hp with hold | hlast
    · exact (hl.answers p hold).snoc _
    · rw [List.mem_singleton.mp hlast]
      exact ⟨evs,request,[],rfl⟩

theorem foreign_linear (hl : Linear c evs h) {request : Request} {out : Outcome} {db : S.DB}
    (hdb : Executes S request out h.db db) :
    Linear c (evs ++ [.foreign request out]) { h with db := db } := by
  have hlog : logOf (evs ++ [.foreign request out]) = logOf evs ++ [⟨none,request,out⟩] :=
    logOf_append evs _
  refine ⟨hl.sound,hl.made,?_,hl.flying,?_,?_,fun p hp => (hl.answers p hp).snoc _⟩
  · rw [hlog]
    exact (trace_snoc (Logged S)).mpr ⟨h.db,hl.replay,hdb⟩
  · rw [hlog]
    intro e he j hj
    rcases List.mem_append.mp he with hold | hlast
    · exact hl.asked e hold j hj
    · rw [List.mem_singleton.mp hlast] at hj
      cases hj
  · rw [hlog,List.filterMap_append]
    simpa using hl.once

theorem happens_linear (ev : Event) (hl : Linear c evs h) (hev : happens c S ev h h') :
    Linear c (evs ++ [ev]) h' := by
  cases ev with
  | act a =>
    obtain ⟨-,rfl⟩ := hev
    exact step_linear hl a rfl rfl
  | execute i request out =>
    obtain ⟨older,newer,db,hflight,hdb,rfl⟩ := hev
    exact execute_linear hl hflight hdb
  | foreign request out =>
    obtain ⟨db,hdb,rfl⟩ := hev
    exact foreign_linear hl hdb
  | complete i out =>
    obtain ⟨-,rfl⟩ := hev
    exact step_linear hl (.listen i out) rfl (List.append_nil _).symm
  | fail i code msg =>
    obtain ⟨-,rfl⟩ := hev
    exact step_linear hl (.listen i _) rfl (List.append_nil _).symm

theorem begin_linear (c : Client) (S : Server) (w : World) : Linear c [] (begin S w) := by
  refine ⟨⟨rfl,fun _ => ⟨rfl,rfl,rfl⟩⟩,?_,rfl,?_,?_,List.nodup_nil,?_⟩
  · exact fun run hrun => absurd hrun List.not_mem_nil
  · exact fun p hp => absurd hp List.not_mem_nil
  · exact fun e he => absurd he List.not_mem_nil
  · exact fun p hp => absurd hp List.not_mem_nil

theorem run_linear {w : World} (hrun : Trace (happens c S) evs (begin S w) h) : Linear c evs h :=
  trace_induction (happens c S) (I := fun evs h => Linear c evs h) (begin_linear c S w)
    (fun _ ev _ _ hl hev => happens_linear ev hl hev) hrun

/-- What a step sends is added to what has been sent. -/
theorem step_sends (a : Action) (m : Machine) : m.messages <+: (step c a m).messages := by
  by_cases ha : ∃ i out, a = .listen i out
  · obtain ⟨i,out,rfl⟩ := ha
    by_cases hi : i ∈ m.pending
    · simp only [step,if_pos hi]
      rcases runListener_messages (c := c) (m := m) i out with hsame | ⟨d,body,-,-,hsent⟩
      · exact hsame ▸ List.prefix_refl _
      · rw [hsent]
        exact List.prefix_append _ _
    · simp only [step,if_neg hi]
      exact List.prefix_refl _
  · push Not at ha
    exact step_messages (c := c) (m := m) a ha ▸ List.prefix_refl _

theorem happens_sends (ev : Event) (hev : happens c S ev h h') :
    h.machine.messages <+: h'.machine.messages := by
  cases ev with
  | act a =>
    obtain ⟨-,rfl⟩ := hev
    exact step_sends a h.machine
  | execute i request out =>
    obtain ⟨older,newer,db,-,-,rfl⟩ := hev
    exact List.prefix_refl _
  | foreign request out =>
    obtain ⟨db,-,rfl⟩ := hev
    exact List.prefix_refl _
  | complete i out =>
    obtain ⟨-,rfl⟩ := hev
    exact step_sends (.listen i out) h.machine
  | fail i code msg =>
    obtain ⟨-,rfl⟩ := hev
    exact step_sends (.listen i _) h.machine

theorem run_sends (hrun : Trace (happens c S) evs h h') :
    h.machine.messages <+: h'.machine.messages :=
  trace_invariant (happens c S) (I := fun t => h.machine.messages <+: t.machine.messages)
    (fun ev _ _ _ hprefix hev => hprefix.trans (happens_sends ev hev)) (List.prefix_refl _) hrun

variable {w : World}

variable (c S w) in
/-- The database has carried the request of the call out, after the call had
handed it over and before anything was sent to its caller. -/
def Served (evs before : List Event) (i : ℕ) (request : Request) (out : Outcome) : Prop :=
  ∃ after u, evs = before ++ .execute i request out::after ∧
    Trace (happens c S) before (begin S w) u ∧ Asked c u.machine i request ∧ u.machine.about i = []

variable (c S w) in
/-- The message of a call tells what the database has answered to its request,
or the client has failed it. -/
def Answered (evs : List Event) (h : History S) (msg : Message) : Prop :=
  ∃ run d, h.machine.runs[msg.about]? = some run ∧ run.data = some d ∧
    ((∃ before out, Served c S w evs before msg.about d.job.request out ∧
        callback c d.job out = .ok msg.body) ∨
      ∃ code text, .fail msg.about code text ∈ evs ∧ code ≠ aerospikeOk ∧
        callback c d.job ⟨some (code,text),none,[]⟩ = .ok msg.body)

theorem Served.snoc {before : List Event} {i : ℕ} {request : Request} {out : Outcome}
    (hs : Served c S w evs before i request out) (ev : Event) :
    Served c S w (evs ++ [ev]) before i request out := by
  obtain ⟨after,u,rfl,hu,hrest⟩ := hs
  exact ⟨after ++ [ev],u,by simp,hu,hrest⟩

theorem Answered.snoc {msg : Message} (ha : Answered c S w evs h msg) (ev : Event)
    (hm : Grows h.machine h'.machine) : Answered c S w (evs ++ [ev]) h' msg := by
  obtain ⟨run,d,hr,hd,htold⟩ := ha
  obtain ⟨run',hr',hfollows⟩ := hm msg.about run hr
  obtain ⟨d',hd',hsame⟩ := hfollows.data d hd
  refine ⟨run',d',hr',hd',?_⟩
  rw [hsame]
  rcases htold with ⟨before,out,hs,hbody⟩ | ⟨code,text,hfail,hrest⟩
  · exact Or.inl ⟨before,out,hs.snoc ev,hbody⟩
  · exact Or.inr ⟨code,text,List.mem_append_left _ hfail,hrest⟩

/-- While the client still waits for a call nothing has been sent to its caller. -/
theorem about_pending {m : Machine} (hsound : Sound m) {i : ℕ} (hi : i ∈ m.pending) :
    m.about i = [] := by
  have hcount : m.pending.count i ≠ 0 := Nat.pos_iff_ne_zero.mp (List.count_pos_iff.mpr hi)
  cases hr : m.runs[i]? with
  | none =>
    have hv := hsound.2 i
    rw [hr] at hv
    exact absurd hv.1 hcount
  | some run =>
    cases (completing_of_held (consistent_of_sound hsound hr) (Or.inl hcount)).1 with
    | waiting _ _ _ none => exact none
    | told _ pending => exact absurd pending hcount
    | done _ pending => exact absurd pending hcount

/-- What the client hands a listener has been served. -/
theorem answer_served (hrun : Trace (happens c S) evs (begin S w) h) {i : ℕ} {out : Outcome}
    (hout : (i,out) ∈ h.answers) (hi : i ∈ h.machine.pending) :
    ∃ before request, Served c S w evs before i request out := by
  obtain ⟨before,request,after,rfl⟩ := (run_linear hrun).answers (i,out) hout
  obtain ⟨u,hu,hrest⟩ := (trace_append (happens c S)).mp hrun
  have hlinear := run_linear hu
  have hask : Asked c u.machine i request := by
    obtain ⟨v,⟨older,newer,db,hflight,-⟩,-⟩ := hrest
    exact hlinear.flying (i,request) (by simp [hflight])
  have hnone := about_pending (run_linear hrun).sound hi
  have hsent := (run_sends hrest).filter (fun msg => decide (msg.about = i))
  change u.machine.about i <+: h.machine.about i at hsent
  rw [hnone] at hsent
  exact ⟨before,request,after,u,rfl,hu,hask,List.prefix_nil.mp hsent⟩

/-- The message that a listener sends is about the outcome it is handed. -/
theorem listen_answered (hrun : Trace (happens c S) evs (begin S w) h) {i : ℕ} {out : Outcome}
    {ev : Event} (hold : ∀ msg ∈ h.machine.messages, Answered c S w evs h msg)
    (hout : i ∈ h.machine.pending → ∀ d, h.machine.object i = some d →
      (∃ before, Served c S w (evs ++ [ev]) before i d.job.request out) ∨
      ∃ code text, ev = .fail i code text ∧ code ≠ aerospikeOk ∧ out = ⟨some (code,text),none,[]⟩) :
    ∀ msg ∈ (step c (.listen i out) h.machine).messages,
      Answered c S w (evs ++ [ev]) { h with machine := step c (.listen i out) h.machine } msg := by
  have hl := run_linear hrun
  have hgrows := step_grows (c := c) hl.sound (.listen i out)
  have hkeep : ∀ msg ∈ h.machine.messages,
      Answered c S w (evs ++ [ev]) { h with machine := step c (.listen i out) h.machine } msg :=
    fun msg hmsg => (hold msg hmsg).snoc ev hgrows
  intro msg hmsg
  by_cases hi : i ∈ h.machine.pending
  · have hstep : step c (.listen i out) h.machine = runListener c i out h.machine := if_pos hi
    rw [hstep] at hmsg
    rcases runListener_messages (c := c) (m := h.machine) i out with hsame | ⟨d,body,hobj,hbody,hsent⟩
    · exact hkeep msg (hsame ▸ hmsg)
    · rw [hsent] at hmsg
      rcases List.mem_append.mp hmsg with hmsg | hnew
      · exact hkeep msg hmsg
      · rw [List.mem_singleton.mp hnew]
        obtain ⟨run,hr,hd⟩ := Option.bind_eq_some_iff.mp hobj
        obtain ⟨run',hr',hfollows⟩ := hgrows i run hr
        obtain ⟨d',hd',hsame⟩ := hfollows.data d hd
        refine ⟨run',d',hr',hd',?_⟩
        rw [hsame]
        rcases hout hi d hobj with ⟨before,hserved⟩ | ⟨code,text,rfl,hcode,rfl⟩
        · exact Or.inl ⟨before,out,hserved,hbody⟩
        · exact Or.inr ⟨code,text,by simp,hcode,hbody⟩
  · rw [show step c (.listen i out) h.machine = h.machine from if_neg hi] at hmsg
    exact hkeep msg hmsg

theorem happens_answered (ev : Event) (hrun : Trace (happens c S) evs (begin S w) h)
    (hold : ∀ msg ∈ h.machine.messages, Answered c S w evs h msg) (hev : happens c S ev h h') :
    ∀ msg ∈ h'.machine.messages, Answered c S w (evs ++ [ev]) h' msg := by
  have hl := run_linear hrun
  cases ev with
  | act a =>
    obtain ⟨hlisten,rfl⟩ := hev
    intro msg hmsg
    have hmsg' : msg ∈ (step c a h.machine).messages := hmsg
    rw [step_messages a hlisten] at hmsg'
    exact (hold msg hmsg').snoc _ (step_grows (c := c) hl.sound a)
  | execute i request out =>
    obtain ⟨older,newer,db,-,-,rfl⟩ := hev
    exact fun msg hmsg => (hold msg hmsg).snoc _ (grows_of_runs rfl)
  | foreign request out =>
    obtain ⟨db,-,rfl⟩ := hev
    exact fun msg hmsg => (hold msg hmsg).snoc _ (grows_of_runs rfl)
  | complete i out =>
    obtain ⟨hout,rfl⟩ := hev
    refine listen_answered hrun hold (fun hi d hobj => Or.inl ?_)
    obtain ⟨before,request,hserved⟩ := answer_served hrun hout hi
    obtain ⟨after,u,rfl,hu,hask,hnone⟩ := hserved
    -- the request is that of the job in the object, which the call has kept since
    have hrequest : request = d.job.request := by
      have hask' := (hl.asked ⟨some i,request,out⟩ (by simp [logOf,Event.entry]) i rfl)
      obtain ⟨run,d',-,hr,-,hd',-,hreq⟩ := hask'
      obtain ⟨run',hr',hd⟩ := Option.bind_eq_some_iff.mp hobj
      obtain rfl : run = run' := Option.some.inj (hr.symm.trans hr')
      obtain rfl : d' = d := Option.some.inj (hd'.symm.trans hd)
      exact hreq
    subst hrequest
    exact ⟨before,Served.snoc ⟨after,u,rfl,hu,hask,hnone⟩ _⟩
  | fail i code msg =>
    obtain ⟨hcode,rfl⟩ := hev
    exact listen_answered hrun hold (fun _ _ _ => Or.inr ⟨code,msg,rfl,hcode,rfl⟩)

theorem run_answered (hrun : Trace (happens c S) evs (begin S w) h) :
    ∀ msg ∈ h.machine.messages, Answered c S w evs h msg := by
  refine (trace_induction (happens c S) (I := fun evs h => Trace (happens c S) evs (begin S w) h ∧
    ∀ msg ∈ h.machine.messages, Answered c S w evs h msg)
    ⟨rfl,fun msg hmsg => absurd hmsg List.not_mem_nil⟩ (fun evs ev t u ht hev => ?_) hrun).2
  exact ⟨(trace_snoc (happens c S)).mpr ⟨t,ht.1,hev⟩,happens_answered ev ht.1 ht.2 hev⟩

/-- One entry stands before the other. -/
def Before (log : List LogEntry) (e e' : LogEntry) : Prop :=
  ∃ first between last, log = first ++ e::between ++ e'::last

theorem before_append {log later : List LogEntry} {e e' : LogEntry} (he : e ∈ log)
    (he' : e' ∈ later) : Before (log ++ later) e e' := by
  obtain ⟨first,between,rfl⟩ := List.append_of_mem he
  obtain ⟨between',last,rfl⟩ := List.append_of_mem he'
  exact ⟨first,between ++ between',last,by simp⟩

variable (c w) in
/-- The machine and the database at two times of a history. -/
structure Linearized (evs later : List Event) (h h' : History S) : Prop where
  replay : Trace (Logged S) (logOf (evs ++ later)) S.start h'.db
  once : ((logOf (evs ++ later)).filterMap LogEntry.about).Nodup
  asked : ∀ e ∈ logOf (evs ++ later), ∀ i, e.about = some i → Asked c h'.machine i e.request
  answered : ∀ msg ∈ h'.machine.messages, Answered c S w (evs ++ later) h' msg
  realTime : ∀ e ∈ logOf evs, ∀ e' ∈ logOf (evs ++ later), ∀ i, e'.about = some i →
    h.machine.runs.length ≤ i → Before (logOf (evs ++ later)) e e'

/-- Whatever the order of all the steps, the calls take effect one after the
other, each at most once and with the request that it has handed to the client.
The database is what these requests leave in the order of the log, every
message tells what the database answered to its call, between the submission
and the message, unless the client has failed the call, and what is in the log
when a call is made stands before that call. -/
theorem calls_linearize {later : List Event} (hrun : Trace (happens c S) evs (begin S w) h)
    (hlater : Trace (happens c S) later h h') : Linearized c w evs later h h' := by
  have hl := run_linear hrun
  have hwhole := (trace_append (happens c S)).mpr ⟨h,hrun,hlater⟩
  have hl' := run_linear hwhole
  have honce := (List.nodup_append.mp hl'.once).2.1
  refine ⟨hl'.replay,honce,hl'.asked,run_answered hwhole,fun e he e' he' i hi hlength => ?_⟩
  rw [logOf_append] at he' ⊢
  rcases List.mem_append.mp he' with hold | hnew
  · obtain ⟨run,-,-,hr,-⟩ := hl.asked e' hold i hi
    have hlt : i < h.machine.runs.length := (List.getElem?_eq_some_iff.mp hr).1
    omega
  · exact before_append he hnew

end Histories

section Example

def getCall : AsyncCall :=
  .cdtGetAsync (.reference 7) (.binary []) (.binary []) (.binary [1]) (.tuple [.nil,.nil,.nil,.nil])

def getRequest : Request := .keyGet ⟨[],[],[1]⟩ (some ⟨0,none,0,0⟩)

def missing : Outcome := ⟨some (2,""),none,[]⟩

def oneGet : List Event :=
  [.act (.invoke plainEnv getCall),.act (.advance 0),.act (.advance 0),
    .execute 0 getRequest missing,.complete 0 missing]

def anotherGet : List Event :=
  [.act (.invoke plainEnv getCall),.act (.advance 1),.act (.advance 1),
    .execute 1 getRequest missing]

theorem oneGet_happens : ∃ h : History plainServer,
    Trace (happens plainClient plainServer) oneGet (begin plainServer connectedWorld) h ∧
    h.machine.messages.length = 1 ∧ ∃ h' : History plainServer,
      Trace (happens plainClient plainServer) anotherGet h h' := by
  refine ⟨_,⟨_,⟨fun _ _ => nofun,rfl⟩,_,⟨fun _ _ => nofun,rfl⟩,_,⟨fun _ _ => nofun,rfl⟩,_,
    ⟨[],[],_,rfl,⟨rfl,(2,""),rfl,by decide⟩,rfl⟩,_,⟨List.mem_singleton_self _,rfl⟩,rfl⟩,rfl,?_⟩
  exact ⟨_,_,⟨fun _ _ => nofun,rfl⟩,_,⟨fun _ _ => nofun,rfl⟩,_,⟨fun _ _ => nofun,rfl⟩,_,
    ⟨[],[],_,rfl,⟨rfl,(2,""),rfl,by decide⟩,rfl⟩,rfl⟩

/-- Two gets in turn; the first is answered before the second is made. -/
theorem two_gets_linearize : ∃ h h' : History plainServer, h.machine.messages.length = 1 ∧
    (logOf (oneGet ++ anotherGet)).length = 2 ∧
    Linearized plainClient connectedWorld oneGet anotherGet h h' := by
  obtain ⟨h,hevs,hmessages,h',hlater⟩ := oneGet_happens
  exact ⟨h,h',hmessages,rfl,calls_linearize hevs hlater⟩

end Example

end AspikePort.AsyncHistories
