import AspikePort.PutOperations

/-!
# The two cdt_put functions compared

What a connected library refuses and submits, for every argument term. The
synchronous function reads the first bin only, and it looks at the ttl and
the policy before it looks whether there is a bin at all; the theorem says
for which arguments neither shows.
-/

set_option autoImplicit false

namespace AspikePort.PutAgreement
open AspikePort.ErlangTerms AspikePort.ClientValues AspikePort.EarlyReturn
open AspikePort.NifWorld AspikePort.CdtPut AspikePort.PutOperations Proc

section Submissions
variable {w : World}

/-- The requests of a call; `none` when it answers badarg. -/
def submissions (p : Nif Term) (w : World) : Option (List Request) :=
  match (p w).1 with
  | .error .badarg => none
  | _ => some ((p w).2.submitted.drop w.submitted.length)

theorem submissions_badarg {p : Nif Term} (h : p w = (.error .badarg,w)) :
    submissions p w = none := by
  unfold submissions
  rw [h]

theorem submissions_stopped {p : Nif Term} {t : Term} (h : p w = (.error (.term t),w)) :
    submissions p w = some [] := by
  unfold submissions
  rw [h,List.drop_length]

theorem submissions_answer {p : Nif Term} {t : Term} (h : p w = (.ok t,w)) :
    submissions p w = some [] := by
  unfold submissions
  rw [h,List.drop_length]

theorem submissions_congr {p q : Nif Term} (h : p w = q w) :
    submissions p w = submissions q w := by
  unfold submissions
  rw [h]

/-- A call that does nothing but count, submit and answer. -/
theorem submissions_counted {env : Env} {req : Request} {f : Response → Nif Term}
    (hf : ∀ r, ∃ t, f r = pure t) :
    submissions (syncOperationCounter env (submit env req >>= f)) w = some [req] := by
  unfold submissions
  rw [syncOperationCounter,within_run,submit_bind_run]
  obtain ⟨t,ht⟩ := hf (env.respond ((SyncOperationCounter.enter env.now w).submitted ++ [req]))
  rw [ht,pure_run]
  simp [afterSubmit]

theorem trackNode_run (env : Env) (tracked : Option AsKey) (w : World) :
    ∃ name w', trackNode env tracked w = (.ok name,w') ∧ w'.submitted = w.submitted := by
  unfold trackNode
  rw [state_bind_run]
  cases tracked with
  | none => exact ⟨_,w,rfl,rfl⟩
  | some key =>
    by_cases hs : w.statisticsEnabled = true
    · simp only [hs,not_true,if_false]
      have htarget : ∃ name w', getTargetNodeForKey env key w = (.ok name,w') ∧
          w'.submitted = w.submitted := by
        unfold getTargetNodeForKey
        rw [state_bind_run]
        by_cases hc : ¬w.statisticsEnabled = true ∨ ¬w.isConnectedFlag = true
        · rw [if_pos hc]
          exact ⟨_,w,rfl,rfl⟩
        · rw [if_neg hc]
          exact ⟨_,_,rfl,rfl⟩
      obtain ⟨name,w',hrun,hsub⟩ := htarget
      rw [bind_run_ok _ hrun]
      split_ifs
      · exact ⟨_,w',rfl,hsub⟩
      · exact ⟨_,_,rfl,hsub⟩
    · exact ⟨"",w,by simp [hs],rfl⟩

theorem submitAsync_run (env : Env) (job : AsyncJob) (w : World) :
    ∃ t w', submitAsync env job w = (.ok t,w') ∧
      w'.submitted = w.submitted ++ [job.request] := by
  obtain ⟨name,w₁,hrun,hsub⟩ := trackNode_run env job.tracked w
  unfold submitAsync
  rw [bind_run_ok _ hrun,submit_bind_run,← hsub]
  split_ifs
  · refine ⟨_,_,rfl,?_⟩
    unfold untrackNode
    split_ifs <;> rfl
  · exact ⟨_,_,rfl,rfl⟩

theorem submissions_job {env : Env} {p : Nif AsyncJob} {job : AsyncJob}
    (h : p w = (.ok job,w)) :
    submissions (p >>= submitAsync env) w = some [job.request] := by
  obtain ⟨t,w',hrun,hsub⟩ := submitAsync_run env job w
  unfold submissions
  rw [bind_run_ok _ h,hrun,hsub,List.drop_left]

theorem job_error {env : Env} {p : Nif AsyncJob} {r : Reply} (h : p w = (.error r,w)) :
    (p >>= submitAsync env) w = (.error r,w) := bind_run_error _ h

end Submissions

section Sync
variable {c : Client} {env : Env} {w : World} {ns set key bins ttl policy : Term}

theorem sync_head_refused
    (h : binaryKey ns set key = .error .badarg ∨ getListLength bins = none) :
    cdtPutSync c env ns set key bins ttl policy w = (.error .badarg,w) := by
  unfold cdtPutSync
  rcases binaryKey_cases ns set key with ⟨k,hk⟩ | hk
  · rcases h with h | h
    · rw [hk] at h
      cases h
    · rw [hk,lift_ok_bind_run,h]
      rfl
  · rw [hk]
    rfl

theorem sync_limits_refused {k : AsKey} {n : ℕ} (hk : binaryKey ns set key = .ok k)
    (hn : getListLength bins = some n) (h : getLong ttl = none ∨ ¬IsPolicy policy) :
    cdtPutSync c env ns set key bins ttl policy w = (.error .badarg,w) := by
  unfold cdtPutSync
  rw [hk,lift_ok_bind_run,hn]
  change (lift (orBadarg (getLong ttl)) >>= _) w = _
  cases ht : getLong ttl with
  | none => rfl
  | some t =>
    rcases policy_cases policy with ⟨hp,-,-⟩ | ⟨-,hp,-⟩
    · rcases h with h | h
      · rw [ht] at h
        cases h
      · exact absurd hp h
    · rw [hp]
      rfl

theorem sync_checked {k : AsKey} {n : ℕ} {t : ℤ} {p : Policy}
    (hk : binaryKey ns set key = .ok k) (hn : getListLength bins = some n)
    (ht : getLong ttl = some t) (hp : readPolicy policy = .ok p) :
    cdtPutSync c env ns set key bins ttl policy w =
      (if n = 0 then pure (okString "put")
      else isConnected >>= fun _ => lift (putSyncBins c env.now t n bins ⟨0,[]⟩) >>= fun ops =>
        syncOperationCounter env (submit env (.keyOperate k ops (some ⟨p,UInt32.ofInt t⟩)) >>=
          fun r => if r.status ≠ aerospikeOk then pure (makeNifError r.errCode r.message)
            else pure (okString "put"))) w := by
  unfold cdtPutSync
  rw [hk,lift_ok_bind_run,hn]
  change (lift (orBadarg (getLong ttl)) >>= _) w = _
  rw [ht]
  change (lift (readPolicy policy) >>= _) w = _
  rw [hp,lift_ok_bind_run]

theorem sync_empty {k : AsKey} {t : ℤ} {p : Policy} (hk : binaryKey ns set key = .ok k)
    (ht : getLong ttl = some t) (hp : readPolicy policy = .ok p) :
    cdtPutSync c env ns set key (ofList []) ttl policy w = (.ok (okString "put"),w) := by
  rw [sync_checked hk (getListLength_ofList []) ht hp]
  rfl

theorem sync_bin_refused {k : AsKey} {t : ℤ} {p : Policy} {b : Term} {bs : List Term}
    (hw : w.isConnectedFlag = true) (hk : binaryKey ns set key = .ok k)
    (ht : getLong ttl = some t) (hp : readPolicy policy = .ok p)
    (hb : readBin b = .error .badarg) :
    cdtPutSync c env ns set key (ofList (b::bs)) ttl policy w = (.error .badarg,w) := by
  rw [sync_checked hk (getListLength_ofList (b::bs)) ht hp,if_neg (by simp),
    isConnected_bind_run _ hw,List.length_cons,ofList,putSyncBins_error c env.now t hb]
  rfl

theorem sync_submits {k : AsKey} {t : ℤ} {p : Policy} {d : BinData} {bs : List Term}
    (hw : w.isConnectedFlag = true) (hk : binaryKey ns set key = .ok k)
    (ht : getLong ttl = some t) (hp : readPolicy policy = .ok p) :
    submissions (cdtPutSync c env ns set key (ofList (encodeBin d::bs)) ttl policy) w =
      some [.keyOperate k { initOperations t with entries := binPuts c env.now d }
        (some ⟨p,UInt32.ofInt t⟩)] := by
  have hrun := @sync_checked c env w _ _ _ _ _ _ _ _ _ _ hk
    (getListLength_ofList (encodeBin d::bs)) ht hp
  rw [if_neg (by simp),isConnected_bind_run _ hw,List.length_cons,ofList,putSyncBins_eq,
    lift_ok_bind_run] at hrun
  refine (submissions_congr hrun).trans (submissions_counted (fun r => ?_))
  by_cases hr : r.status ≠ aerospikeOk
  · exact ⟨_,if_pos hr⟩
  · exact ⟨_,if_neg hr⟩

end Sync

section Async
variable {c : Client} {env : Env} {w : World} {ref : ℕ} {ns set key bins ttl policy : Term}

theorem async_head_refused
    (h : binaryKey ns set key = .error .badarg ∨ getListLength bins = none) :
    cdtPutAsync c env (.reference ref) ns set key bins ttl policy w = (.error .badarg,w) := by
  apply job_error
  change (lift (binaryKey ns set key) >>= _) w = _
  rcases binaryKey_cases ns set key with ⟨k,hk⟩ | hk
  · rcases h with h | h
    · rw [hk] at h
      cases h
    · rw [hk,lift_ok_bind_run,h]
      rfl
  · rw [hk]
    rfl

theorem async_empty {k : AsKey} (hk : binaryKey ns set key = .ok k) :
    cdtPutAsync c env (.reference ref) ns set key (ofList []) ttl policy w =
      (.error (.term (okString "put")),w) := by
  apply job_error
  change (lift (binaryKey ns set key) >>= _) w = _
  rw [hk]
  rfl

/-- The job of a connected call with at least one bin, past its key. -/
theorem async_checked {k : AsKey} {b : Term} {bs : List Term} (hw : w.isConnectedFlag = true)
    (hk : binaryKey ns set key = .ok k) :
    cdtPutAsyncJob c env (.reference ref) ns set key (ofList (b::bs)) ttl policy w =
      (lift (orBadarg (getLong ttl)) >>= fun t => lift (readPolicyAsync policy) >>= fun p =>
        lift (validateBins (b::bs).length (ofList (b::bs))) >>= fun _ =>
        lift (putAsyncBins c env.now (b::bs).length (ofList (b::bs)) (initOperations t)) >>=
        fun ops => pure ⟨.reference ref,some k,[],.cdtPut,
          .keyOperate k ops (some ⟨p,UInt32.ofInt t⟩)⟩) w := by
  change (lift (binaryKey ns set key) >>= _) w = _
  rw [hk,lift_ok_bind_run,getListLength_ofList]
  exact isConnected_bind_run _ hw

theorem async_limits_refused {k : AsKey} {b : Term} {bs : List Term}
    (hw : w.isConnectedFlag = true) (hk : binaryKey ns set key = .ok k)
    (h : getLong ttl = none ∨ ¬IsPolicy policy) :
    cdtPutAsync c env (.reference ref) ns set key (ofList (b::bs)) ttl policy w =
      (.error .badarg,w) := by
  apply job_error
  rw [async_checked hw hk]
  cases ht : getLong ttl with
  | none => rfl
  | some t =>
    rcases policy_cases policy with ⟨hp,-,-⟩ | ⟨-,-,hp⟩
    · rcases h with h | h
      · rw [ht] at h
        cases h
      · exact absurd hp h
    · rw [hp]
      rfl

theorem async_bins_refused {k : AsKey} {t : ℤ} {p : Policy} {b : Term} {bs : List Term}
    (hw : w.isConnectedFlag = true) (hk : binaryKey ns set key = .ok k)
    (ht : getLong ttl = some t) (hp : readPolicyAsync policy = .ok p)
    (hb : ∃ x ∈ b::bs, readBin x = .error .badarg) :
    cdtPutAsync c env (.reference ref) ns set key (ofList (b::bs)) ttl policy w =
      (.error .badarg,w) := by
  apply job_error
  rw [async_checked hw hk,ht,hp,validateBins_error hb]
  rfl

theorem async_job {k : AsKey} {t : ℤ} {p : Policy} {d : BinData} {ds : List BinData}
    (hw : w.isConnectedFlag = true) (hk : binaryKey ns set key = .ok k)
    (ht : getLong ttl = some t) (hp : readPolicyAsync policy = .ok p) :
    cdtPutAsyncJob c env (.reference ref) ns set key (ofList ((d::ds).map encodeBin)) ttl policy
      w = (.ok ⟨.reference ref,some k,[],.cdtPut,.keyOperate k { initOperations t with
        entries := (d::ds).flatMap (binPuts c env.now) } (some ⟨p,UInt32.ofInt t⟩)⟩,w) := by
  obtain ⟨total,htotal⟩ := validateBins_ok (d::ds)
  have hops := putAsyncBins_eq c env.now (d::ds) (initOperations t)
  rw [List.map_cons] at htotal hops ⊢
  rw [async_checked hw hk,ht,orBadarg_some,lift_ok_bind_run,hp,lift_ok_bind_run,htotal,
    lift_ok_bind_run,hops]
  rfl

theorem async_submits {k : AsKey} {t : ℤ} {p : Policy} {d : BinData} {ds : List BinData}
    (hw : w.isConnectedFlag = true) (hk : binaryKey ns set key = .ok k)
    (ht : getLong ttl = some t) (hp : readPolicyAsync policy = .ok p) :
    submissions (cdtPutAsync c env (.reference ref) ns set key (ofList ((d::ds).map encodeBin))
      ttl policy) w = some [.keyOperate k { initOperations t with
        entries := (d::ds).flatMap (binPuts c env.now) } (some ⟨p,UInt32.ofInt t⟩)] :=
  submissions_job (async_job hw hk ht hp)

end Async

section Agreement
variable (c : Client)

def eraseWt : Operation → Operation
  | .mapPut bin context key (.integer i) =>
    .mapPut bin context key (.integer (if key = wtKey then 0 else i))
  | op => op

/-- A put request without its write times and its retry limits. -/
def putView : Request → Option (AsKey × UInt32 × List Operation × Option UInt32)
  | .keyOperate key ops policy => some (key,ops.ttl,ops.entries.map eraseWt,policy.map (·.ttl))
  | _ => none

/-- The same refusal, or the same operations and ttls in the same order. -/
def SamePuts (a b : Option (List Request)) : Prop :=
  a.map (List.map putView) = b.map (List.map putView)

theorem eraseWt_taken (op : Operation) :
    (taken c op).map eraseWt = if c.takesBin op.bin then [eraseWt op] else [] := by
  unfold taken
  split_ifs <;> rfl

theorem emitted_eraseWt (now now' : ℤ) (bin : Bytes) (opnum : Opnum) (context : List Bytes)
    (ts : List Term) : (emitted c now bin opnum context ts).map eraseWt =
      (emitted c now' bin opnum context ts).map eraseWt := by
  induction ts generalizing opnum context with
  | nil => rfl
  | cons t ts ih =>
    cases opnum with
    | key => exact ih .value (contextOf t)
    | value =>
      rw [emitted,emitted,List.map_append,List.map_append,ih]
    | ttl =>
      have hwt : ∀ n, (taken c (.mapPut (cStr bin) context wtKey (.integer n))).map eraseWt =
          if c.takesBin (cStr bin) then [.mapPut (cStr bin) context wtKey (.integer 0)] else [] :=
        fun n => eraseWt_taken c _
      rw [emitted,emitted,List.map_append,List.map_append,ih,ttlOperations,ttlOperations,
        List.map_append,List.map_append,hwt,hwt]

theorem binPuts_eraseWt (now now' : ℤ) (d : BinData) :
    (binPuts c now d).map eraseWt = (binPuts c now' d).map eraseWt :=
  emitted_eraseWt c now now' d.1 .key [] d.2

/-- A well-formed bin that adds no operation: the client does not take its
name, or its data list stops before the first ttl and without a value. -/
def PutsNothing (d : BinData) : Prop :=
  c.takesBin (cStr d.1) = false ∨
    match d.2 with
    | [] | [_] => True
    | [_,value] => inspectBinary value = none
    | _ => False

theorem taken_nil (op : Operation) : taken c op = [] ↔ c.takesBin op.bin = false := by
  unfold taken
  split_ifs with h <;> simp [h]

theorem emitted_untaken (now : ℤ) {bin : Bytes} (h : c.takesBin (cStr bin) = false)
    (opnum : Opnum) (context : List Bytes) (ts : List Term) :
    emitted c now bin opnum context ts = [] := by
  have htaken : ∀ context key v, taken c (.mapPut (cStr bin) context key v) = [] :=
    fun _ _ _ => (taken_nil c _).mpr h
  induction ts generalizing opnum context with
  | nil => cases opnum <;> rfl
  | cons t ts ih =>
    cases opnum with
    | key => exact ih .value (contextOf t)
    | value =>
      rw [emitted,ih,valueOperations]
      split <;> simp [htaken]
    | ttl =>
      rw [emitted,ih,ttlOperations]
      split <;> simp [htaken]

theorem binPuts_nil (now : ℤ) (d : BinData) : binPuts c now d = [] ↔ PutsNothing c d := by
  obtain ⟨name,ts⟩ := d
  by_cases htake : c.takesBin (cStr name) = false
  · exact iff_of_true (emitted_untaken c now htake .key [] ts) (Or.inl htake)
  · have htaken : ∀ context key v, taken c (.mapPut (cStr name) context key v) ≠ [] :=
      fun _ _ _ h => htake ((taken_nil c _).mp h)
    rw [PutsNothing,or_iff_right htake]
    match ts with
    | [] => exact iff_of_true rfl trivial
    | [_] => exact iff_of_true rfl trivial
    | [t,value] =>
      change valueOperations c name (contextOf t) value ++ [] = [] ↔ inspectBinary value = none
      rw [List.append_nil,valueOperations]
      cases inspectBinary value with
      | none => simp
      | some data => simp [htaken]
    | t::value::ttl::rest =>
      refine iff_of_false (fun h => ?_) id
      change valueOperations c name (contextOf t) value ++
        (ttlOperations c now name (contextOf t) ttl ++ emitted c now name .key (contextOf t) rest) =
          [] at h
      have hwt := (List.append_eq_nil_iff.mp (List.append_eq_nil_iff.mp
        (List.append_eq_nil_iff.mp h).2).1).2
      exact htaken _ _ _ hwt

/-- When the two functions agree: without a bin, on a ttl and a policy that
both accept; otherwise on a first bin that is malformed, or on later bins that
are well formed and put nothing. -/
def AgreeOn (ns set key bins ttl policy : Term) : Prop :=
  ∀ k bs, binaryKey ns set key = .ok k → bins = ofList bs →
    match bs with
    | [] => (getLong ttl).isSome ∧ IsPolicy policy
    | b::bs => (getLong ttl).isSome → IsPolicy policy → (∃ d, b = encodeBin d) →
        ∀ b' ∈ bs, ∃ d, b' = encodeBin d ∧ PutsNothing c d

theorem agreeOn_refused {ns set key bins ttl policy : Term}
    (h : binaryKey ns set key = .error .badarg ∨ getListLength bins = none) :
    AgreeOn c ns set key bins ttl policy := by
  rintro k bs hk rfl
  rcases h with h | h
  · rw [hk] at h
    cases h
  · rw [getListLength_ofList] at h
    cases h

theorem agreeOn_iff {ns set key ttl policy : Term} {k : AsKey} {bs : List Term}
    (hk : binaryKey ns set key = .ok k) : AgreeOn c ns set key (ofList bs) ttl policy ↔
      match bs with
      | [] => (getLong ttl).isSome ∧ IsPolicy policy
      | b::bs => (getLong ttl).isSome → IsPolicy policy → (∃ d, b = encodeBin d) →
          ∀ b' ∈ bs, ∃ d, b' = encodeBin d ∧ PutsNothing c d := by
  constructor
  · intro h
    exact h k bs hk rfl
  · intro h k' bs' _ hbs
    rw [← ofList_injective hbs]
    exact h

section Comparison
variable {w : World} {ns set key ttl policy : Term} {k : AsKey} (syncEnv asyncEnv : Env) (ref : ℕ)

/-- A refused ttl or policy shows only where there is no bin. -/
theorem limits_refused_agree (hw : w.isConnectedFlag = true) (hk : binaryKey ns set key = .ok k)
    (h : getLong ttl = none ∨ ¬IsPolicy policy) (bs : List Term) :
    SamePuts (submissions (cdtPutSync c syncEnv ns set key (ofList bs) ttl policy) w)
      (submissions (cdtPutAsync c asyncEnv (.reference ref) ns set key (ofList bs) ttl policy) w) ↔
    bs ≠ [] := by
  rw [submissions_badarg (sync_limits_refused hk (getListLength_ofList bs) h)]
  cases bs with
  | nil =>
    rw [submissions_stopped (async_empty hk)]
    exact iff_of_false (fun h => nomatch h) (fun h => h rfl)
  | cons b bs =>
    rw [submissions_badarg (async_limits_refused hw hk h)]
    exact iff_of_true rfl (List.cons_ne_nil b bs)

variable {t : ℤ} {ps pa : Policy}

theorem first_bin_refused_agree (hw : w.isConnectedFlag = true)
    (hk : binaryKey ns set key = .ok k) (ht : getLong ttl = some t)
    (hps : readPolicy policy = .ok ps) (hpa : readPolicyAsync policy = .ok pa) {b : Term}
    (hb : readBin b = .error .badarg) (bs : List Term) :
    SamePuts (submissions (cdtPutSync c syncEnv ns set key (ofList (b::bs)) ttl policy) w)
      (submissions (cdtPutAsync c asyncEnv (.reference ref) ns set key (ofList (b::bs)) ttl
        policy) w) := by
  rw [submissions_badarg (sync_bin_refused hw hk ht hps hb),
    submissions_badarg (async_bins_refused hw hk ht hpa ⟨b,List.mem_cons_self,hb⟩)]
  rfl

/-- The first bin is submitted by both, every later one by the asynchronous
function alone. -/
theorem later_bins_agree (hw : w.isConnectedFlag = true) (hk : binaryKey ns set key = .ok k)
    (ht : getLong ttl = some t) (hps : readPolicy policy = .ok ps)
    (hpa : readPolicyAsync policy = .ok pa) (d : BinData) (bs : List Term) :
    SamePuts (submissions (cdtPutSync c syncEnv ns set key (ofList (encodeBin d::bs)) ttl policy) w)
      (submissions (cdtPutAsync c asyncEnv (.reference ref) ns set key (ofList (encodeBin d::bs))
        ttl policy) w) ↔ ∀ b ∈ bs, ∃ d', b = encodeBin d' ∧ PutsNothing c d' := by
  rw [sync_submits hw hk ht hps]
  rcases bins_cases bs with ⟨ds,rfl⟩ | ⟨x,hx,hbad⟩
  · rw [← List.map_cons,async_submits hw hk ht hpa]
    have hsame : SamePuts
        (some [.keyOperate k { initOperations t with entries := binPuts c syncEnv.now d }
          (some ⟨ps,UInt32.ofInt t⟩)])
        (some [.keyOperate k { initOperations t with
          entries := (d::ds).flatMap (binPuts c asyncEnv.now) }
          (some ⟨pa,UInt32.ofInt t⟩)]) ↔ ds.flatMap (binPuts c asyncEnv.now) = [] := by
      simp [SamePuts,putView,binPuts_eraseWt c syncEnv.now asyncEnv.now d]
    rw [hsame,List.flatMap_eq_nil_iff,List.forall_mem_map]
    apply forall₂_congr
    intro d' _
    rw [binPuts_nil]
    constructor
    · intro h
      exact ⟨d',rfl,h⟩
    · rintro ⟨d'',he,h⟩
      rw [encodeBin_injective he]
      exact h
  · rw [submissions_badarg (async_bins_refused hw hk ht hpa ⟨x,List.mem_cons_of_mem _ hx,hbad⟩)]
    apply iff_of_false (fun h => nomatch h)
    intro h
    obtain ⟨d',rfl,-⟩ := h x hx
    rw [readBin_encode] at hbad
    cases hbad

end Comparison

/-- For all argument terms, the two functions refuse alike and submit the same
operations exactly on the arguments of `AgreeOn`. -/
theorem cdt_puts_agree_iff {w : World} (hw : w.isConnectedFlag = true) (syncEnv asyncEnv : Env)
    (ref : ℕ) (ns set key bins ttl policy : Term) :
    SamePuts (submissions (cdtPutSync c syncEnv ns set key bins ttl policy) w)
      (submissions (cdtPutAsync c asyncEnv (.reference ref) ns set key bins ttl policy) w) ↔
    AgreeOn c ns set key bins ttl policy := by
  by_cases hhead : binaryKey ns set key = .error .badarg ∨ getListLength bins = none
  · apply iff_of_true ?_ (agreeOn_refused c hhead)
    rw [submissions_badarg (sync_head_refused hhead),
      submissions_badarg (async_head_refused hhead)]
    rfl
  obtain ⟨hkey,hbins⟩ := not_or.mp hhead
  obtain ⟨k,hk⟩ := (binaryKey_cases ns set key).resolve_right hkey
  obtain ⟨n,hn⟩ := Option.ne_none_iff_exists'.mp hbins
  obtain ⟨bs,rfl,-⟩ := getListLength_some hn
  rw [agreeOn_iff c hk]
  by_cases hlimits : getLong ttl = none ∨ ¬IsPolicy policy
  · have hrefused : (getLong ttl).isSome → ¬IsPolicy policy := by
      intro hsome
      apply hlimits.resolve_left
      exact Option.isSome_iff_ne_none.mp hsome
    rw [limits_refused_agree c syncEnv asyncEnv ref hw hk hlimits bs]
    cases bs with
    | nil => exact iff_of_false (fun h => h rfl) (fun h => hrefused h.1 h.2)
    | cons b bs => exact iff_of_true (List.cons_ne_nil b bs) (fun h hp => absurd hp (hrefused h))
  obtain ⟨httl,hpolicy⟩ := not_or.mp hlimits
  obtain ⟨t,ht⟩ := Option.ne_none_iff_exists'.mp httl
  obtain ⟨hp,⟨ps,hps⟩,pa,hpa⟩ := (policy_cases policy).resolve_right (fun h => hpolicy h.1)
  have hsome : (getLong ttl).isSome := Option.isSome_iff_ne_none.mpr httl
  cases bs with
  | nil =>
    rw [submissions_answer (sync_empty hk ht hps),submissions_stopped (async_empty hk)]
    exact iff_of_true rfl ⟨hsome,hp⟩
  | cons b bs =>
    rcases readBin_cases b with ⟨d,rfl⟩ | hb
    · rw [later_bins_agree c syncEnv asyncEnv ref hw hk ht hps hpa d bs]
      exact ⟨fun h _ _ _ => h,fun h => h hsome hp ⟨d,rfl⟩⟩
    · apply iff_of_true (first_bin_refused_agree c syncEnv asyncEnv ref hw hk ht hps hpa hb bs)
      rintro - - ⟨d,rfl⟩
      rw [readBin_encode] at hb
      cases hb

/-- One bin with one complete triple. -/
def sampleBin (name key : Bytes) : Term :=
  encodeBin (name,[.binary key,.binary [118],.integer 60])

theorem single_bin_agrees :
    SamePuts
      (submissions (cdtPutSync plainClient plainEnv (.binary [110]) (.binary [115]) (.binary [107])
        (ofList [sampleBin [98] [97]]) (.integer 0) (.tuple [.nil,.nil,.nil,.nil])) connectedWorld)
      (submissions (cdtPutAsync plainClient plainEnv (.reference 1) (.binary [110])
        (.binary [115]) (.binary [107]) (ofList [sampleBin [98] [97]]) (.integer 0)
        (.tuple [.nil,.nil,.nil,.nil])) connectedWorld) :=
  (cdt_puts_agree_iff plainClient rfl plainEnv plainEnv 1 _ _ _ _ _ _).mpr
    ((agreeOn_iff plainClient (binaryKey_binary [110] [115] [107])).mpr
      (fun _ _ _ => by simp))

/-- Of two bins the synchronous function writes one. -/
theorem two_bins_disagree :
    ¬∀ (c : Client) (w : World), w.isConnectedFlag = true → ∀ (syncEnv asyncEnv : Env) (ref : ℕ)
      (ns set key bins ttl policy : Term),
      SamePuts (submissions (cdtPutSync c syncEnv ns set key bins ttl policy) w)
        (submissions (cdtPutAsync c asyncEnv (.reference ref) ns set key bins ttl policy) w) := by
  intro h
  have hsame := h plainClient connectedWorld rfl plainEnv plainEnv 1 (.binary [110])
    (.binary [115]) (.binary [107]) (ofList [sampleBin [98] [97],sampleBin [99] [97]])
    (.integer 0) (.tuple [.nil,.nil,.nil,.nil])
  have hlength := congrArg (Option.map (List.map (Option.map (fun v => v.2.2.1.length)))) hsame
  exact absurd hlength (by decide)

end Agreement

end AspikePort.PutAgreement
