import AspikePort.AsyncHistories
import AspikePort.RecordReads

/-!
# What asynchronous gets show among concurrent calls

The log of the database names the requests that took effect and their order.
Each of them stands for writes of the record store, so the store after any part
of the log is known, and a get shows the store at its own place in the log.
-/

set_option autoImplicit false

namespace AspikePort.AsyncReads
open AspikePort.ErlangTerms AspikePort.ClientValues AspikePort.EarlyReturn
open AspikePort.NifWorld AspikePort.CdtPut AspikePort.AsyncCalls AspikePort.LabelledRuns
open AspikePort.GuardedSubmission AspikePort.PutAgreement AspikePort.TripleWrites
open AspikePort.AsyncMachine AspikePort.AsyncOwnership AspikePort.AsyncHistories
open AspikePort.OrderedMap AspikePort.NestedStore AspikePort.RecordServer AspikePort.Lifecycle
open AspikePort.StoreCalls AspikePort.StoreRefinement AspikePort.RecordReads
open AspikePort.ValueFormat Proc

section Meanings

abbrev FullWrite := Write AsKey Bytes Bytes Stored

def storedEntry (now : ℤ) (value : Bytes) (ttl : ℤ) : Stored := .entry value ttl now

/-- The writes a request stands for. -/
inductive Meaning : Request → List FullWrite → Prop
  | put (k : AsKey) (now : ℤ) (ops : Operations) (limits : Option PolicyOperate)
      (bins : List BinPut)
      (h : ops.entries = bins.flatMap (fun b => binOperations now b.triples)) :
      Meaning (.keyOperate k ops limits)
        (bins.flatMap (fun b => b.triples.2.map (tripleWrite (storedEntry now) k b.triples.1)))
  | remove (k : AsKey) (bin : Bytes) (ks : List Bytes) (ttl : UInt32)
      (limits : Option PolicyOperate) :
      Meaning (.keyOperate k ⟨ttl,[.mapRemoveByKeyList bin ks]⟩ limits) [.remove k bin ks]
  | removals (bin : Bytes) (ttl : UInt32) (ts : List (AsKey × List Bytes)) :
      Meaning (.batchWrite (ts.map (fun t => ⟨t.1,⟨ttl,[.mapRemoveByKeyList bin t.2]⟩⟩)))
        (ts.map (fun t => .remove t.1 bin t.2))
  | replace (k : AsKey) (bin : Bytes) (rec : PutRecord) (cells : OrdMap Bytes Stored)
      (h : rec.bins = [(bin,binVal cells)]) : Meaning (.keyPut k rec) [.replace k bin cells]
  | get (k : AsKey) (p : Option Policy) : Meaning (.keyGet k p) []

/-- What is written of the writes of a request: all, or, when it fails, nothing,
or of a batch some. -/
def Effect (request : Request) (writes ws : List FullWrite) (out : Outcome) : Prop :=
  (out.err = none ∧ ws = writes) ∨
  (Failed out ∧ match request with | .batchWrite _ => ws.Subperm writes | _ => ws = [])

variable {S : Server} {db db' : S.DB} {s : FullStore} {out : Outcome}

/-- A batch writes its records in the order of the server. -/
theorem removals_written (hS : S.Documented) (bin : Bytes) (ttl : UInt32)
    {ts ts' : List (AsKey × List Bytes)} {recs : List BatchWrite}
    (hrecs : recs = ts'.map (fun t => ⟨t.1,⟨ttl,[.mapRemoveByKeyList bin t.2]⟩⟩))
    (hperm : ts'.Perm ts) (hs : Holds S db s)
    (h : recs.foldlM (fun db rec => S.operate rec.key rec.ops db) db = some db') :
    Holds S db' (applyAll (ts.map (fun t => .remove t.1 bin t.2)) s) := by
  rw [hrecs,List.foldlM_map] at h
  rw [← removals_perm (fun t => ⟨_,_,_,rfl⟩) hperm]
  exact removals_hold hS Prod.fst bin Prod.snd ttl ts' hs h

theorem executes_holds (hS : S.Documented) {request : Request} {writes : List FullWrite}
    (hm : Meaning request writes) (hs : Holds S db s) (h : Executes S request out db db') :
    ∃ ws, Effect request writes ws out ∧ Holds S db' (applyAll ws s) := by
  cases hm with
  | put k now ops limits bins hops =>
    rcases h with ⟨hok,hserve⟩ | ⟨hfailed,rfl⟩
    · refine ⟨_,Or.inl ⟨hok,rfl⟩,?_⟩
      rw [put_writes (storedEntry now)]
      refine operate_holds hS hs hserve (fun w hw => ?_) (fun content hcontent => ?_)
      · obtain ⟨t,_,rfl⟩ := List.mem_map.mp hw
        rfl
      · rw [hops,put_operations] at hcontent
        exact triples_apply hS k _ (hs k) hcontent
    · exact ⟨[],Or.inr ⟨hfailed,rfl⟩,hs⟩
  | remove k bin ks ttl limits =>
    rcases h with ⟨hok,hserve⟩ | ⟨hfailed,rfl⟩
    · exact ⟨_,Or.inl ⟨hok,rfl⟩,removal_holds hS hs hserve⟩
    · exact ⟨[],Or.inr ⟨hfailed,rfl⟩,hs⟩
  | removals bin ttl ts =>
    rcases h with ⟨hok,hserve⟩ | ⟨hfailed,written,hsub,hserve⟩
    · obtain ⟨recs,hperm,hrecs⟩ := hS.batch_writes _ db db' hserve
      have hcomp := congrFun₂ (List.eq_map_comp_perm (fun t : AsKey × List Bytes =>
        (⟨t.1,⟨ttl,[.mapRemoveByKeyList bin t.2]⟩⟩ : BatchWrite))) recs ts
      obtain ⟨ts',hmap,hperm'⟩ := hcomp.mpr hperm
      exact ⟨_,Or.inl ⟨hok,rfl⟩,removals_written hS bin ttl hmap hperm' hs hrecs⟩
    · obtain ⟨recs,hperm,hsublist⟩ := hsub
      obtain ⟨ts',hts',hmap⟩ := List.sublist_map_iff.mp hsublist
      have hcomp := congrFun₂ (List.eq_map_comp_perm (fun t : AsKey × List Bytes =>
        (⟨t.1,⟨ttl,[.mapRemoveByKeyList bin t.2]⟩⟩ : BatchWrite))) written ts'
      obtain ⟨ts'',hmap'',hperm''⟩ := hcomp.mpr (hmap ▸ hperm.symm)
      refine ⟨ts'.map (fun t => .remove t.1 bin t.2),Or.inr ⟨hfailed,?_⟩,
        removals_written hS bin ttl hmap'' hperm'' hs hserve⟩
      exact (hts'.map _).subperm
  | replace k bin rec cells hrec =>
    rcases h with ⟨hok,hserve⟩ | ⟨hfailed,rfl⟩
    · exact ⟨_,Or.inl ⟨hok,rfl⟩,replace_holds hS hs hrec hserve⟩
    · exact ⟨[],Or.inr ⟨hfailed,rfl⟩,hs⟩
  | get k p =>
    obtain ⟨rfl,hget⟩ := h
    cases hrec : S.get k db' with
    | some rec =>
      rw [hrec] at hget
      exact ⟨[],Or.inl ⟨hget.1,rfl⟩,hs⟩
    | none =>
      rw [hrec] at hget
      exact ⟨[],Or.inr ⟨hget,rfl⟩,hs⟩

end Meanings

section Calls
variable {c : Client} {env : Env} {w : World} {job : AsyncJob}

/-- A call whose arguments are those of a record store. -/
inductive PlainCall where
  | store (call : StoreCall)
  | get (ref : ℕ) (key : RecordKey) (policy : Term)

def PlainCall.toDataCall : PlainCall → DataCall
  | store call => call.toDataCall
  | get ref k policy => .cdtGetAsync (.reference ref) k.nameSpace.term k.set.term k.key.term policy

def PlainCall.writes (now : ℤ) : PlainCall → List FullWrite
  | store call => call.writes (storedEntry now) .raw
  | get _ _ _ => []

/-- The client takes every request it is handed. -/
def answering (env : Env) : Env :=
  { env with respond := fun _ => ⟨aerospikeOk,aerospikeOk,"",none,fun _ => 0⟩ }

theorem job_answering (call : AsyncCall) : call.job c (answering env) = call.job c env := by
  cases call <;> rfl

theorem job_run (call : AsyncCall) (h : (call.job c env w).1 = .ok job) :
    call.job c env w = (.ok job,w) := Prod.ext h (call.job_checks c env w).1

/-- With a client that takes it, the request of a job is what its call submits. -/
theorem job_submits (call : AsyncCall) (h : (call.job c env w).1 = .ok job) :
    Successful (call.toDataCall.body c (answering env) w).1 ∧
      submissions (call.toDataCall.body c (answering env)) w = some [job.request] := by
  have hjob : call.job c (answering env) w = (.ok job,w) := by
    rw [job_answering]
    exact job_run call h
  rw [AsyncCall.body_eq]
  refine ⟨?_,submissions_job hjob⟩
  obtain ⟨name,w',htrack,-⟩ := trackNode_run (answering env) job.tracked w
  rw [bind_run_ok _ hjob,submitAsync_tracked htrack,if_neg (by simp [answering,aerospikeOk])]
  exact ⟨_,rfl⟩

theorem store_job_meaning (hc : TakesBinNames c) {call : AsyncCall} {p : StoreCall}
    (hcall : call.toDataCall = p.toDataCall) (h : (call.job c env w).1 = .ok job) :
    Meaning job.request (p.writes (storedEntry env.now) .raw) := by
  obtain ⟨hok,hsub⟩ := job_submits call h
  rw [hcall] at hok hsub
  cases p with
  | cdtPutAsync ref k bins ttl policy =>
    rcases put_requests hc ref k bins ttl policy hok with ⟨-,hreq⟩ | ⟨ops,limits,hreq,hops⟩
    · simp [hsub] at hreq
    · have hrequest : job.request = .keyOperate k.asKey ops limits := by simpa [hsub] using hreq
      rw [hrequest]
      exact .put k.asKey env.now ops limits bins hops
  | cdtDeleteByKeysSync k bin subkeys => cases call <;> cases hcall
  | cdtDeleteByKeysAsync ref k bin subkeys =>
    have hreq := deleteAsync_requests hc ref k bin subkeys hok
    have hrequest : job.request = .keyOperate k.asKey
        ⟨recordNoChangeTtl,[.mapRemoveByKeyList bin.data (subkeys.map Text.data)]⟩ none := by
      simpa [hsub] using hreq
    rw [hrequest]
    exact .remove k.asKey bin.data (subkeys.map Text.data) recordNoChangeTtl none
  | cdtDeleteByKeysBatchAsync ref ns set bin tuples =>
    have hreq := batch_requests hc ref ns set bin tuples hok
    have hrequest : job.request = .batchWrite (tuples.map (batchWrite ns set bin)) := by
      simpa [hsub] using hreq
    have hm := Meaning.removals bin.data recordNoChangeTtl
      (tuples.map (fun t => (⟨ns.data,set.data,t.1.data⟩,t.2.map Text.data)))
    rw [List.map_map,List.map_map] at hm
    rw [hrequest]
    exact hm
  | mapPut k bin ttl map => cases call <;> cases hcall

theorem cdtGetAsyncJob_keys {ref : ℕ} {k : RecordKey} {policy : Term}
    (h : (cdtGetAsyncJob (.reference ref) k.nameSpace.term k.set.term k.key.term policy w).1 =
      .ok job) : job.ref = .reference ref ∧ job.listener = .cdtGet ∧
      ∃ p, job.request = .keyGet k.asKey p := by
  change ((lift (binaryKey k.nameSpace.term k.set.term k.key.term) >>= _) w).1 = _ at h
  rw [k.binaryKey_eq,lift_ok_bind_run] at h
  change ((lift (readPolicyAsync policy) >>= _) w).1 = _ at h
  cases hp : readPolicyAsync policy with
  | error r =>
    rw [hp] at h
    cases h
  | ok p =>
    rw [hp,lift_ok_bind_run] at h
    by_cases hw : w.isConnectedFlag = true
    · rw [isConnected_bind_run _ hw] at h
      cases h
      exact ⟨rfl,rfl,some p,rfl⟩
    · rw [isConnected_bind_refused _ hw] at h
      cases h

theorem get_job {call : AsyncCall} {ref : ℕ} {k : RecordKey} {policy : Term}
    (hcall : call.toDataCall = (PlainCall.get ref k policy).toDataCall)
    (h : (call.job c env w).1 = .ok job) :
    job.ref = .reference ref ∧ job.listener = .cdtGet ∧
      ∃ p, job.request = .keyGet k.asKey p := by
  cases call with
  | cdtGetAsync ref' ns set key policy' =>
    simp only [AsyncCall.toDataCall,PlainCall.toDataCall,DataCall.cdtGetAsync.injEq] at hcall
    obtain ⟨rfl,rfl,rfl,rfl,rfl⟩ := hcall
    exact cdtGetAsyncJob_keys h
  | cdtPutAsync => cases hcall
  | cdtDeleteByKeysAsync => cases hcall
  | cdtDeleteByKeysBatchAsync => cases hcall

theorem job_meaning (hc : TakesBinNames c) {call : AsyncCall} {p : PlainCall}
    (hcall : call.toDataCall = p.toDataCall) (h : (call.job c env w).1 = .ok job) :
    Meaning job.request (p.writes env.now) := by
  cases p with
  | store p => exact store_job_meaning hc hcall h
  | get ref k policy =>
    obtain ⟨-,-,p,hrequest⟩ := get_job hcall h
    rw [hrequest]
    exact .get k.asKey p

end Calls

section Replays
variable {S : Server} {db db' : S.DB} {s : FullStore}

/-- The writes of the first entries of a log. -/
def storeAt (wss : List (List FullWrite)) (n : ℕ) (s : FullStore) : FullStore :=
  applyAll (wss.take n).flatten s

/-- The writes of each entry, where `P` says which writes it stands for, and the
store they find. -/
structure Replays (S : Server) (P : LogEntry → List FullWrite → Prop) (log : List LogEntry)
    (wss : List (List FullWrite)) (s : FullStore) (db' : S.DB) : Prop where
  effects : List.Forall₂ (fun e ws => ∃ writes, P e writes ∧ Effect e.request writes ws e.out)
    log wss
  holds : Holds S db' (applyAll wss.flatten s)
  found : ∀ first e last, log = first ++ e::last → ∃ u u', Holds S u (storeAt wss first.length s) ∧
    Executes S e.request e.out u u'

theorem log_replays (hS : S.Documented) {P : LogEntry → List FullWrite → Prop}
    (log : List LogEntry) (hP : ∀ e ∈ log, ∃ writes, P e writes ∧ Meaning e.request writes)
    (hs : Holds S db s) (h : Trace (Logged S) log db db') : ∃ wss, Replays S P log wss s db' := by
  induction log generalizing db s with
  | nil =>
    cases h
    exact ⟨[],.nil,hs,fun first e last hlog => by simp at hlog⟩
  | cons e log ih =>
    obtain ⟨u,hu,hrest⟩ := h
    obtain ⟨writes,hwrites,hm⟩ := hP e List.mem_cons_self
    obtain ⟨ws,heffect,hholds⟩ := executes_holds hS hm hs hu
    obtain ⟨wss,hreplays⟩ := ih (fun x hx => hP x (List.mem_cons_of_mem _ hx)) hholds hrest
    refine ⟨ws::wss,.cons ⟨writes,hwrites,heffect⟩ hreplays.effects,?_,?_⟩
    · have hholds' := hreplays.holds
      rw [List.flatten_cons]
      unfold applyAll at hholds' ⊢
      rw [List.foldl_append]
      exact hholds'
    · intro first e' last hlog
      cases first with
      | nil =>
        obtain ⟨rfl,-⟩ := List.cons_eq_cons.mp hlog
        exact ⟨db,u,hs,hu⟩
      | cons x first =>
        obtain ⟨-,htail⟩ := List.cons_eq_cons.mp hlog
        obtain ⟨v,v',hv,hexec⟩ := hreplays.found first e' last htail
        refine ⟨v,v',?_,hexec⟩
        unfold storeAt applyAll at hv ⊢
        rw [List.length_cons,List.take_succ_cons,List.flatten_cons,List.foldl_append]
        exact hv

end Replays

section Reads
variable {c : Client} {S : Server} {evs : List Event} {h : History S}

/-- The writes an entry stands for, which for a call are those of the call. -/
def Means (m : Machine) (e : LogEntry) (writes : List FullWrite) : Prop :=
  Meaning e.request writes ∧ ∀ i, e.about = some i → ∃ run p, m.runs[i]? = some run ∧
    run.call.toDataCall = PlainCall.toDataCall p ∧ writes = p.writes run.env.now

/-- All calls, and all requests of others, are about a record store. -/
structure Plain (evs : List Event) (h : History S) : Prop where
  calls : ∀ run ∈ h.machine.runs, ∃ p : PlainCall, run.call.toDataCall = p.toDataCall
  others : ∀ e ∈ logOf evs, e.about = none → ∃ writes, Meaning e.request writes

theorem plain_means (hc : TakesBinNames c) (hplain : Plain evs h) (hl : Linear c evs h)
    {e : LogEntry} (he : e ∈ logOf evs) :
    ∃ writes, Means h.machine e writes ∧ Meaning e.request writes := by
  cases habout : e.about with
  | none =>
    obtain ⟨writes,hm⟩ := hplain.others e he habout
    exact ⟨writes,⟨hm,fun i hi => by simp [habout] at hi⟩,hm⟩
  | some i =>
    obtain ⟨run,d,w,hr,-,-,hjob,hreq⟩ := hl.asked e he i habout
    obtain ⟨p,hp⟩ := hplain.calls run (List.mem_of_getElem? hr)
    have hm := job_meaning hc hp hjob
    rw [← hreq] at hm
    refine ⟨_,⟨hm,fun j hj => ?_⟩,hm⟩
    obtain rfl : i = j := by simpa [habout] using hj
    exact ⟨run,p,hr,hp,rfl⟩

/-- What a listener of a get makes of an answer of the database. -/
theorem callback_shows (hS : S.Documented) {db db' : S.DB} {s : FullStore} {job : AsyncJob}
    {k : RecordKey} {p : Option Policy} {out : Outcome} {body : Term} {ref : ℕ}
    (hlistener : job.listener = .cdtGet) (href : job.ref = .reference ref) (hs : Holds S db s)
    (hexec : Executes S (.keyGet k.asKey p) out db db') (hbody : callback c job out = .ok body) :
    Shows c (Bins.map Stored.cell (s k.asKey)) (makeTuple3 atomOk (.reference ref))
      (makeTuple3 atomError (.reference ref)) (.term body) := by
  obtain ⟨-,hget⟩ := hexec
  unfold callback at hbody
  rw [hlistener,href] at hbody
  change onSuccess _ out _ = _ at hbody
  unfold onSuccess at hbody
  apply shows_cases hS hs
  · intro rec t hrec hdump
    rw [hrec] at hget
    rw [hget.1,hget.2] at hbody
    change (dumpCdtRecords c rec >>= _) = _ at hbody
    rw [hdump] at hbody
    cases hbody
    rfl
  · intro hnone
    rw [hnone] at hget
    obtain ⟨e,he,-⟩ := hget
    rw [he] at hbody
    cases hbody
    exact ⟨_,rfl⟩

variable (c) in
/-- One list of writes for each entry of the log, such that every get shows what
the entries before its own have written, and its own stands between its
submission and its message, or the client has failed it and its message says
with what. -/
structure Explained (w : World) (evs : List Event) (h : History S)
    (wss : List (List FullWrite)) : Prop where
  effects : List.Forall₂ (fun e ws => ∃ writes, Means h.machine e writes ∧
    Effect e.request writes ws e.out) (logOf evs) wss
  holds : Holds S h.db (applyAll wss.flatten Store.empty)
  gets : ∀ msg ∈ h.machine.messages, ∀ run ref k policy, h.machine.runs[msg.about]? = some run →
    run.call.toDataCall = (PlainCall.get ref k policy).toDataCall →
    (∃ before p out, Served c S w evs before msg.about (.keyGet k.asKey p) out ∧
      Shows c (Bins.map Stored.cell (storeAt wss (logOf before).length Store.empty k.asKey))
        (makeTuple3 atomOk (.reference ref)) (makeTuple3 atomError (.reference ref))
        (.term msg.body)) ∨
    ∃ code text, .fail msg.about code text ∈ evs ∧ code ≠ aerospikeOk ∧
      msg.body = callbackError (.reference ref) code (errorText code text)

/-- Whatever the order of the steps of concurrent calls on a record store. -/
theorem gets_linearize {w : World} (hc : TakesBinNames c) (hS : S.Documented)
    (hrun : Trace (happens c S) evs (begin S w) h) (hplain : Plain evs h) :
    ∃ wss, Explained c w evs h wss := by
  have hl := run_linear hrun
  have hstart : Holds S S.start (Store.empty : FullStore) := by
    intro k n
    rw [hS.start_empty]
    rfl
  obtain ⟨wss,hreplays⟩ := log_replays hS (logOf evs) (fun e he => plain_means hc hplain hl he)
    hstart hl.replay
  refine ⟨wss,hreplays.effects,hreplays.holds,?_⟩
  intro msg hmsg run ref k policy hr hcall
  obtain ⟨run',d,hr',hd,htold⟩ := run_answered hrun msg hmsg
  obtain rfl : run = run' := Option.some.inj (hr.symm.trans hr')
  obtain ⟨w',hjob⟩ := (hl.made run (List.mem_of_getElem? hr)).job d.job (Or.inr (Or.inr ⟨d,hd,rfl⟩))
  obtain ⟨href,hlistener,p,hrequest⟩ := get_job hcall hjob
  rcases htold with ⟨before,out,hserved,hbody⟩ | ⟨code,text,hfail,hcode,hbody⟩
  · left
    rw [hrequest] at hserved
    refine ⟨before,p,out,hserved,?_⟩
    obtain ⟨after,-,rfl,-⟩ := hserved
    obtain ⟨u,u',hu,hexec⟩ := hreplays.found (logOf before) ⟨some msg.about,_,out⟩ (logOf after)
      (logOf_append before _)
    exact callback_shows hS hlistener href hu hexec hbody
  · right
    unfold callback at hbody
    rw [hlistener,href] at hbody
    exact ⟨code,text,hfail,hcode,(Except.ok.inj hbody).symm⟩

end Reads

section Example

def putA : AsyncCall := .cdtPutAsync (.reference 0) textA.term textA.term textA.term
  (ofList [binTerm (BinPut.triples (binP,[tripleA]))]) (.integer 0) plainPolicy

def getA : AsyncCall := .cdtGetAsync (.reference 1) textA.term textA.term textA.term plainPolicy

/-- The get is made first and carried out last. -/
def putDuringGet (put get : Request) (out : Outcome) : List Event :=
  [.act (.invoke plainEnv getA),.act (.invoke plainEnv putA),.act (.advance 0),
    .act (.advance 1),.act (.advance 0),.act (.advance 1),.execute 1 put ⟨none,none,[]⟩,
    .execute 0 get out,.complete 0 out]

theorem putDuringGet_happens : ∃ put get out, ∃ h : History plainServer,
    Trace (happens plainClient plainServer) (putDuringGet put get out)
      (begin plainServer connectedWorld) h ∧ Plain (putDuringGet put get out) h ∧
      h.machine.messages.length = 1 := by
  refine ⟨_,_,⟨none,some _,[]⟩,_,⟨_,⟨fun _ _ => nofun,rfl⟩,_,⟨fun _ _ => nofun,rfl⟩,_,
    ⟨fun _ _ => nofun,rfl⟩,_,⟨fun _ _ => nofun,rfl⟩,_,⟨fun _ _ => nofun,rfl⟩,_,
    ⟨fun _ _ => nofun,rfl⟩,_,⟨[_],[],_,rfl,Or.inl ⟨rfl,rfl⟩,rfl⟩,_,
    ⟨[],[],_,rfl,⟨rfl,rfl,rfl⟩,rfl⟩,_,
    ⟨List.mem_append_right _ (List.mem_singleton_self _),rfl⟩,rfl⟩,⟨?_,?_⟩,rfl⟩
  · intro run hrun
    rcases List.mem_cons.mp hrun with rfl | hrun
    · exact ⟨.get 1 keyA plainPolicy,rfl⟩
    · rw [List.mem_singleton.mp hrun]
      exact ⟨.store (.cdtPutAsync 0 keyA [(binP,[tripleA])] (.integer 0) plainPolicy),rfl⟩
  · intro e he habout
    rcases List.mem_cons.mp he with rfl | he
    · cases habout
    · rw [List.mem_singleton.mp he] at habout
      cases habout

theorem put_during_get_explained : ∃ put get out, ∃ h : History plainServer,
    Trace (happens plainClient plainServer) (putDuringGet put get out)
      (begin plainServer connectedWorld) h ∧ h.machine.messages.length = 1 ∧
    ∃ wss, Explained plainClient connectedWorld (putDuringGet put get out) h wss := by
  obtain ⟨put,get,out,h,hrun,hplain,hmessages⟩ := putDuringGet_happens
  exact ⟨put,get,out,h,hrun,hmessages,gets_linearize (fun _ hn => decide_eq_true hn)
    plainServer_documented hrun hplain⟩

end Example

end AspikePort.AsyncReads
