import AspikePort.AsyncMachine
import Mathlib.Data.List.Count

/-!
# Who owns a callback_data

The object of a call belongs to the call until the client has taken the
request, then to the client, then to the listener. What the client, the
listeners and the callers have of one call is its tally; every step keeps the
tally of every call consistent with the place the call has come to.
-/

set_option autoImplicit false

namespace AspikePort.AsyncOwnership
open AspikePort.ErlangTerms AspikePort.ClientValues AspikePort.EarlyReturn
open AspikePort.NifWorld AspikePort.CdtPut AspikePort.AsyncCalls AspikePort.LabelledRuns
open AspikePort.GuardedSubmission AspikePort.PutAgreement AspikePort.AsyncMachine Proc

section Tallies

def Held (run : AsyncRun) (deletions : ℕ) : Prop :=
  ∃ d, run.data = some d ∧ d.callerPid = run.env.self ∧ d.job.ref = run.call.ref ∧
    d.deletions = deletions

/-- To the caller of the call, with the reference of the call. -/
def Addressed (run : AsyncRun) (msg : Message) : Prop :=
  msg.receiver = run.env.self ∧ ∃ tag payload, msg.body = makeTuple3 tag run.call.ref payload

def Idle (t : Tally) : Prop := t.pending = 0 ∧ t.sent = 0 ∧ t.messages = []

/-- The client owns the object, then the listener does, then nobody. -/
inductive Completing (run : AsyncRun) (t : Tally) : Prop
  | waiting (held : Held run 0) (pending : t.pending = 1) (sent : t.sent = 0)
      (none : t.messages = [])
  | told (held : Held run 0) (pending : t.pending = 0) (sent : t.sent = 1)
      (msg : Message) (one : t.messages = [msg]) (addressed : Addressed run msg)
  | done (held : Held run 1) (pending : t.pending = 0) (sent : t.sent = 0)
      (msg : Message) (one : t.messages = [msg]) (addressed : Addressed run msg)

def Consistent (run : AsyncRun) (t : Tally) : Prop :=
  match run.pc with
  | .checked job => job.ref = run.call.ref ∧ run.data = none ∧ Idle t
  | .allocated _ => Held run 0 ∧ Idle t
  | .refused _ => Held run 0 ∧ Idle t
  | .accepted => Completing run t
  | .returned reply => (reply = .term inProgress → Completing run t) ∧
      (reply ≠ .term inProgress → (run.data = none ∨ Held run 1) ∧ Idle t)

def Valid (run : Option AsyncRun) (t : Tally) : Prop :=
  match run with
  | none => Idle t
  | some run => Consistent run t

/-- No object has been touched after its deletion and every call is consistent. -/
def Sound (m : Machine) : Prop := m.faults = 0 ∧ ∀ i, Valid m.runs[i]? (m.tally i)

end Tallies

section Listeners
variable {c : Client} {ref : Term} {out : Outcome}

/-- What a listener sends when it sends anything. -/
def CarriesRef (ref : Term) (result : Except Fault Term) : Prop :=
  ∀ body, result = .ok body → ∃ tag payload, body = makeTuple3 tag ref payload

theorem carriesRef_ok (tag payload : Term) : CarriesRef ref (.ok (makeTuple3 tag ref payload)) :=
  fun _ h => ⟨tag,payload,(Except.ok.inj h).symm⟩

theorem carriesRef_map (tag : Term) (x : Except Fault Term) :
    CarriesRef ref (do return makeTuple3 tag ref (← x)) := by
  cases x with
  | ok t => exact carriesRef_ok tag t
  | error f => exact fun _ h => nomatch h

theorem carriesRef_onSuccess {message : Except Fault Term} (h : CarriesRef ref message) :
    CarriesRef ref (onSuccess ref out message) := by
  unfold onSuccess
  cases out.err with
  | none => exact h
  | some e => exact carriesRef_ok _ _

theorem carriesRef_segmentTag (record : Option Record) (bin : Bytes) :
    CarriesRef ref (catching .charPointer
      (fun reason => callbackError ref c.aerospikeErr (makeString reason))
      (segmentTagResponse ref record bin)) := by
  unfold segmentTagResponse
  cases record with
  | none => exact fun _ h => nomatch h
  | some rec =>
    simp only
    cases rec.get bin with
    | none => simp [throwLiteral,catching,caughtBy,CarriesRef]
    | some v =>
      cases v with
      | string value => exact carriesRef_ok _ _
      | map entries => exact carriesRef_map _ _
      | _ => simp [throwLiteral,catching,caughtBy,CarriesRef]

theorem callback_carriesRef (job : AsyncJob) : CarriesRef job.ref (callback c job out) := by
  unfold callback
  cases job.listener with
  | cdtPut => exact carriesRef_onSuccess (carriesRef_ok _ _)
  | cdtGet =>
    apply carriesRef_onSuccess
    cases out.record with
    | none => exact fun _ h => nomatch h
    | some rec => exact carriesRef_map _ _
  | cdtDeleteByKeys => exact carriesRef_onSuccess (carriesRef_ok _ _)
  | cdtDeleteByKeysBatch =>
    change CarriesRef job.ref (cdtDeleteByKeysBatchAsyncCallback job.ref out)
    unfold cdtDeleteByKeysBatchAsyncCallback
    cases out.err with
    | none => exact carriesRef_ok _ _
    | some e =>
      by_cases he : e.1 ≠ aerospikeOk
      · simp only [if_pos he]
        exact carriesRef_ok _ _
      · simp only [if_neg he]
        exact carriesRef_ok _ _
  | segmentTagGet => exact carriesRef_onSuccess (carriesRef_segmentTag _ _)

end Listeners

section Steps
variable {c : Client} {m : Machine} {i : ℕ} {run : AsyncRun}

theorem object_of_held {n : ℕ} (hr : m.runs[i]? = some run) (h : Held run n) :
    ∃ d, m.object i = some d ∧ d.callerPid = run.env.self ∧ d.job.ref = run.call.ref ∧
      d.deletions = n := by
  obtain ⟨d,hd,hrest⟩ := h
  exact ⟨d,by simp [Machine.object,hr,hd],hrest⟩

theorem touch_held (hr : m.runs[i]? = some run) (h : Held run 0) : m.touch i = m := by
  obtain ⟨d,hobj,_,_,hn⟩ := object_of_held hr h
  exact touch_alive hobj hn

theorem delete_held (hr : m.runs[i]? = some run) (h : Held run 0) :
    ∃ (w : World) (d : CallbackData), d.callerPid = run.env.self ∧ d.job.ref = run.call.ref ∧
      d.deletions = 1 ∧
      m.delete i = Machine.change i ({ · with data := some d }) { m with world := w } := by
  obtain ⟨d,hobj,hpid,href,hn⟩ := object_of_held hr h
  exact ⟨_,{ d with deletions := 1 },hpid,href,rfl,delete_alive hobj hn⟩

/-- A step that shows in one call only. -/
theorem sound_of_local {m' : Machine} (i : ℕ) (h : Sound m) (hf : m'.faults = m.faults)
    (hothers : ∀ j, j ≠ i → m'.runs[j]? = m.runs[j]? ∧ m'.tally j = m.tally j)
    (hi : Valid m'.runs[i]? (m'.tally i)) : Sound m' := by
  refine ⟨hf.trans h.1,fun j => ?_⟩
  by_cases hj : j = i
  · rw [hj]
    exact hi
  · rw [(hothers j hj).1,(hothers j hj).2]
    exact h.2 j

theorem sound_change {m' : Machine} (h : Sound m) (hr : m.runs[i]? = some run)
    (hruns : m'.runs = m.runs) (hf : m'.faults = m.faults)
    (hothers : ∀ j, j ≠ i → m'.tally j = m.tally j) (f : AsyncRun → AsyncRun)
    (hi : Consistent (f run) (m'.tally i)) : Sound (m'.change i f) := by
  refine sound_of_local i h hf (fun j hj => ⟨?_,hothers j hj⟩) ?_
  · simp [Machine.change,Ne.symm hj,hruns]
  · have hrun : (m'.change i f).runs[i]? = some (f run) := by simp [Machine.change,hruns,hr]
    rw [hrun]
    exact hi

theorem consistent_of_sound (h : Sound m) (hr : m.runs[i]? = some run) :
    Consistent run (m.tally i) := by
  have hv := h.2 i
  rw [hr] at hv
  exact hv

/-- What the client or a listener still holds belongs to a call that has been
accepted, whether it has returned or not. -/
theorem completing_of_held {t : Tally} (h : Consistent run t) (ht : t.pending ≠ 0 ∨ t.sent ≠ 0) :
    Completing run t ∧
      ∀ (run' : AsyncRun) (t' : Tally), run'.pc = run.pc → Completing run' t' →
        Consistent run' t' := by
  have idle : ¬Idle t := by
    rintro ⟨hp,hs,_⟩
    omega
  unfold Consistent at h ⊢
  cases hpc : run.pc with
  | checked job =>
    rw [hpc] at h
    exact absurd h.2.2 idle
  | allocated job =>
    rw [hpc] at h
    exact absurd h.2 idle
  | refused answer =>
    rw [hpc] at h
    exact absurd h.2 idle
  | accepted =>
    rw [hpc] at h
    refine ⟨h,fun run' t' hpc' h' => ?_⟩
    rw [hpc']
    exact h'
  | returned reply =>
    rw [hpc] at h
    have hreply : reply = .term inProgress := by
      by_contra hne
      exact idle (h.2 hne).2
    refine ⟨h.1 hreply,fun run' t' hpc' h' => ?_⟩
    rw [hpc']
    exact ⟨fun _ => h',fun hne => absurd hreply hne⟩

theorem invoke_sound (h : Sound m) (env : Env) (call : AsyncCall) :
    Sound (invoke c env call m) := by
  have hidle : Idle (m.tally m.runs.length) := by
    have hv := h.2 m.runs.length
    rw [List.getElem?_eq_none (Nat.le_refl _)] at hv
    exact hv
  refine sound_of_local m.runs.length h rfl (fun j hj => ⟨?_,rfl⟩) ?_
  · by_cases hlt : j < m.runs.length
    · exact List.getElem?_append_left hlt
    · rw [List.getElem?_eq_none (by simp [invoke]; omega),List.getElem?_eq_none (by omega)]
  · have hrun : (invoke c env call m).runs[m.runs.length]? =
        some ⟨env,call,.afterChecks (call.job c env m.world).1,none⟩ := by simp [invoke]
    rw [hrun]
    have hchecks := (call.job_checks c env m.world).2
    revert hchecks
    cases (call.job c env m.world).1 with
    | ok job => exact fun hjob => ⟨hjob.2,rfl,hidle⟩
    | error e => exact fun he => ⟨fun hin => absurd hin he,fun _ => ⟨Or.inl rfl,hidle⟩⟩

theorem create_sound (h : Sound m) (hr : m.runs[i]? = some run) {job : AsyncJob}
    (hpc : run.pc = .checked job) : Sound (create i run job m) := by
  have hrun := consistent_of_sound h hr
  unfold Consistent at hrun
  rw [hpc] at hrun
  obtain ⟨name,w,htrack,_⟩ := trackNode_run run.env job.tracked m.world
  unfold create
  rw [htrack]
  exact sound_change h hr rfl rfl (fun _ _ => rfl) _ ⟨⟨_,rfl,rfl,hrun.1,rfl⟩,hrun.2.2⟩

theorem submitJob_sound (h : Sound m) (hr : m.runs[i]? = some run) {job : AsyncJob}
    (hpc : run.pc = .allocated job) : Sound (submitJob i run job m) := by
  have hrun := consistent_of_sound h hr
  unfold Consistent at hrun
  rw [hpc] at hrun
  obtain ⟨hheld,hidle⟩ := hrun
  have htouch := touch_held (m := { m with world := afterSubmit job.request m.world }) hr hheld
  unfold submitJob
  rw [htouch]
  dsimp only
  split_ifs
  · exact sound_change h hr rfl rfl (fun _ _ => rfl) _ ⟨hheld,hidle⟩
  · refine sound_change h hr ?_ ?_ (fun j hj => ?_) _ ?_
    · rfl
    · rfl
    · simp [Machine.tally,Machine.about,Ne.symm hj]
    · have hzero : m.pending.count i = 0 := hidle.1
      refine .waiting hheld ?_ hidle.2.1 hidle.2.2
      simp [Machine.tally,Machine.about,hzero]

theorem makeNifError_ne_inProgress (code : ℤ) (msg : String) :
    makeNifError code msg ≠ inProgress := by
  simp [makeNifError,errorTuple,makeTuple2,inProgress,atomError,atomOk]

theorem Completing.returns {t : Tally} (h : Completing run t) (pc : Pc) :
    Completing { run with pc := pc } t := by
  cases h with
  | waiting held pending sent none => exact .waiting held pending sent none
  | told held pending sent msg one addressed => exact .told held pending sent msg one addressed
  | done held pending sent msg one addressed => exact .done held pending sent msg one addressed

theorem advance_sound (h : Sound m) (hr : m.runs[i]? = some run) : Sound (advance i run m) := by
  have hrun := consistent_of_sound h hr
  unfold Consistent at hrun
  unfold advance
  cases hpc : run.pc with
  | checked job => exact create_sound h hr hpc
  | allocated job => exact submitJob_sound h hr hpc
  | refused answer =>
    rw [hpc] at hrun
    obtain ⟨w,d,hpid,href,hone,hdel⟩ := delete_held hr hrun.1
    have hchange : ∀ (f g : AsyncRun → AsyncRun) (m : Machine),
        Machine.change i f (Machine.change i g m) = Machine.change i (f ∘ g) m := by
      intro f g m
      simp [Machine.change,List.modify_modify_eq]
    dsimp only
    rw [hdel,hchange]
    refine sound_change h hr rfl rfl (fun _ _ => rfl) _ ⟨fun hin => ?_,fun _ => ?_⟩
    · exact absurd (Reply.term.inj hin) (makeNifError_ne_inProgress _ _)
    · exact ⟨Or.inr ⟨d,rfl,hpid,href,hone⟩,hrun.2⟩
  | accepted =>
    rw [hpc] at hrun
    exact sound_change h hr rfl rfl (fun _ _ => rfl) _
      ⟨fun _ => hrun.returns _,fun hne => absurd rfl hne⟩
  | returned reply => exact h

theorem runListener_sound (h : Sound m) (hi : i ∈ m.pending) (out : Outcome) :
    Sound (runListener c i out m) := by
  have hcount : m.pending.count i ≠ 0 := Nat.pos_iff_ne_zero.mp (List.count_pos_iff.mpr hi)
  cases hr : m.runs[i]? with
  | none =>
    have hv := h.2 i
    rw [hr] at hv
    exact absurd hv.1 hcount
  | some run =>
    obtain ⟨hcompleting,hkeep⟩ := completing_of_held (consistent_of_sound h hr) (Or.inl hcount)
    cases hcompleting with
    | told _ pending => exact absurd pending hcount
    | done _ pending => exact absurd pending hcount
    | waiting held pending sent none =>
      obtain ⟨d,hobj,hpid,href,_⟩ := object_of_held hr held
      unfold runListener
      rw [hobj,touch_held hr held]
      dsimp only
      cases hbody : callback c d.job out with
      | error f => exact h
      | ok body =>
        obtain ⟨tag,payload,hshape⟩ := callback_carriesRef d.job body hbody
        refine sound_of_local i h rfl (fun j hj => ⟨rfl,?_⟩) ?_
        · simp [Machine.tally,Machine.about,List.count_erase_of_ne hj,Ne.symm hj]
        · rw [hr]
          refine hkeep run _ rfl (.told held ?_ ?_ ⟨i,d.callerPid,body⟩ ?_ ?_)
          · have hone : m.pending.count i = 1 := pending
            simp [Machine.tally,Machine.about,hone]
          · have hzero : m.sent.count i = 0 := sent
            simp [Machine.tally,Machine.about,hzero]
          · have hnil : m.messages.filter (·.about = i) = [] := none
            simp [Machine.tally,Machine.about,List.filter_append,hnil]
          · exact ⟨hpid,tag,payload,by rw [← href]; exact hshape⟩

theorem finish_sound (h : Sound m) (hi : i ∈ m.sent) : Sound (finish i m) := by
  have hcount : m.sent.count i ≠ 0 := Nat.pos_iff_ne_zero.mp (List.count_pos_iff.mpr hi)
  cases hr : m.runs[i]? with
  | none =>
    have hv := h.2 i
    rw [hr] at hv
    exact absurd hv.2.1 hcount
  | some run =>
    obtain ⟨hcompleting,hkeep⟩ := completing_of_held (consistent_of_sound h hr) (Or.inr hcount)
    cases hcompleting with
    | waiting _ _ sent => exact absurd sent hcount
    | done _ _ sent => exact absurd sent hcount
    | told held pending sent msg one addressed =>
      obtain ⟨w,d,hpid,href,hone,hdel⟩ :=
        delete_held (m := { m with sent := m.sent.erase i }) hr held
      unfold finish
      rw [hdel]
      refine sound_change h hr ?_ ?_ (fun j hj => ?_) _ ?_
      · rfl
      · rfl
      · simp [Machine.tally,Machine.about,List.count_erase_of_ne hj]
      · refine hkeep _ _ rfl (.done ⟨d,rfl,hpid,href,hone⟩ pending ?_ msg one addressed)
        have hone : m.sent.count i = 1 := sent
        simp [Machine.tally,Machine.about,hone]

theorem step_sound (a : Action) (h : Sound m) : Sound (step c a m) := by
  cases a with
  | invoke env call => exact invoke_sound h env call
  | advance i =>
    cases hr : m.runs[i]? with
    | none =>
      simp only [step,hr]
      exact h
    | some run =>
      simp only [step,hr]
      exact advance_sound h hr
  | listen i out =>
    by_cases hi : i ∈ m.pending
    · simp only [step,if_pos hi]
      exact runListener_sound h hi out
    · simp only [step,if_neg hi]
      exact h
  | finish i =>
    by_cases hi : i ∈ m.sent
    · simp only [step,if_pos hi]
      exact finish_sound h hi
    · simp only [step,if_neg hi]
      exact h
  | other w => exact h

theorem run_sound (c : Client) (w : World) (as : List Action) :
    Sound (LabelledRuns.run (step c) as (initial w)) :=
  run_invariant (step c) ⟨rfl,fun _ => ⟨rfl,rfl,rfl⟩⟩ (fun a _ h => step_sound a h) as

end Steps

section Accounts

/-- The account of one call. Its messages are those already sent and the one
the client still owes it. -/
structure Accounted (m : Machine) (i : ℕ) (run : AsyncRun) : Prop where
  answered : run.pc = .returned (.term inProgress) →
    (m.about i).length+m.pending.count i = 1
  unanswered : ∀ reply, run.pc = .returned reply → reply ≠ .term inProgress →
    m.about i = [] ∧ i ∉ m.pending ∧ i ∉ m.sent
  deletedOnce : ∀ d, run.data = some d → d.deletions ≤ 1
  deleted : ∀ reply, run.pc = .returned reply → i ∉ m.pending → i ∉ m.sent →
    ∀ d, run.data = some d → d.deletions = 1

theorem Held.deletions_eq {run : AsyncRun} {n : ℕ} (h : Held run n) {d : CallbackData}
    (hd : run.data = some d) : d.deletions = n := by
  obtain ⟨d',hd',_,_,hn⟩ := h
  rw [hd] at hd'
  rw [Option.some.inj hd',hn]

theorem Completing.addressed {run : AsyncRun} {t : Tally} (h : Completing run t) {msg : Message}
    (hmsg : msg ∈ t.messages) : Addressed run msg := by
  cases h with
  | waiting _ _ _ none =>
    rw [none] at hmsg
    cases hmsg
  | told _ _ _ msg' one addressed =>
    rw [one,List.mem_singleton] at hmsg
    exact hmsg ▸ addressed
  | done _ _ _ msg' one addressed =>
    rw [one,List.mem_singleton] at hmsg
    exact hmsg ▸ addressed

/-- Only a completing call has a message or something the client still holds. -/
theorem Consistent.completing_or {run : AsyncRun} {t : Tally} (h : Consistent run t) :
    Completing run t ∨ Idle t ∧ (run.data = none ∨ ∃ n, n ≤ 1 ∧ Held run n) := by
  unfold Consistent at h
  cases hpc : run.pc with
  | checked job =>
    rw [hpc] at h
    exact Or.inr ⟨h.2.2,Or.inl h.2.1⟩
  | allocated job =>
    rw [hpc] at h
    exact Or.inr ⟨h.2,Or.inr ⟨0,by omega,h.1⟩⟩
  | refused answer =>
    rw [hpc] at h
    exact Or.inr ⟨h.2,Or.inr ⟨0,by omega,h.1⟩⟩
  | accepted =>
    rw [hpc] at h
    exact Or.inl h
  | returned reply =>
    rw [hpc] at h
    by_cases hr : reply = .term inProgress
    · exact Or.inl (h.1 hr)
    · obtain ⟨hdata,hidle⟩ := h.2 hr
      exact Or.inr ⟨hidle,hdata.imp id (fun hone => ⟨1,Nat.le_refl 1,hone⟩)⟩

theorem Consistent.deletions_le {run : AsyncRun} {t : Tally} (h : Consistent run t)
    {d : CallbackData} (hd : run.data = some d) : d.deletions ≤ 1 := by
  cases h.completing_or with
  | inl hc =>
    cases hc with
    | waiting held => rw [held.deletions_eq hd]; omega
    | told held => rw [held.deletions_eq hd]; omega
    | done held => rw [held.deletions_eq hd]
  | inr hi =>
    cases hi.2 with
    | inl hnone =>
      rw [hnone] at hd
      cases hd
    | inr hheld =>
      obtain ⟨n,hn,held⟩ := hheld
      rw [held.deletions_eq hd]
      exact hn

theorem accounted {m : Machine} {i : ℕ} {run : AsyncRun} (h : Consistent run (m.tally i)) :
    Accounted m i run := by
  refine ⟨fun hpc => ?_,fun reply hpc hne => ?_,fun d => h.deletions_le,
    fun reply hpc hp hs d hd => ?_⟩
  · unfold Consistent at h
    rw [hpc] at h
    cases h.1 rfl with
    | waiting _ pending _ none =>
      change m.about i = [] at none
      change m.pending.count i = 1 at pending
      rw [none,pending]
      rfl
    | told _ pending _ msg one =>
      change m.about i = [msg] at one
      change m.pending.count i = 0 at pending
      rw [one,pending]
      rfl
    | done _ pending _ msg one =>
      change m.about i = [msg] at one
      change m.pending.count i = 0 at pending
      rw [one,pending]
      rfl
  · unfold Consistent at h
    rw [hpc] at h
    obtain ⟨hp,hs,hm⟩ := (h.2 hne).2
    exact ⟨hm,List.count_eq_zero.mp hp,List.count_eq_zero.mp hs⟩
  · unfold Consistent at h
    rw [hpc] at h
    by_cases hr : reply = .term inProgress
    · cases h.1 hr with
      | waiting _ pending =>
        have hzero : m.pending.count i = 0 := List.count_eq_zero.mpr hp
        exact absurd (pending.symm.trans hzero) Nat.one_ne_zero
      | told _ _ sent =>
        have hzero : m.sent.count i = 0 := List.count_eq_zero.mpr hs
        exact absurd (sent.symm.trans hzero) Nat.one_ne_zero
      | done held => exact held.deletions_eq hd
    · cases (h.2 hr).1 with
      | inl hnone =>
        rw [hnone] at hd
        cases hd
      | inr held => exact held.deletions_eq hd

theorem messages_addressed {m : Machine} (h : Sound m) {msg : Message} (hmsg : msg ∈ m.messages) :
    ∃ run, m.runs[msg.about]? = some run ∧ Addressed run msg := by
  have hin : msg ∈ (m.tally msg.about).messages := List.mem_filter.mpr ⟨hmsg,by simp⟩
  cases hr : m.runs[msg.about]? with
  | none =>
    have hv := h.2 msg.about
    rw [hr] at hv
    rw [hv.2.2] at hin
    cases hin
  | some run =>
    refine ⟨run,rfl,?_⟩
    cases (consistent_of_sound h hr).completing_or with
    | inl hc => exact hc.addressed hin
    | inr hi =>
      rw [hi.1.2.2] at hin
      cases hin

end Accounts

section Progress
variable {c : Client} {m : Machine} {i : ℕ} {run : AsyncRun}

/-- What the next steps do for a call. Its own take it to its return, its
request is pending if the client accepts it, the listener the client runs then
sends the one message, and the end of the listener deletes the object. -/
structure Progresses (c : Client) (m : Machine) (i : ℕ) (run : AsyncRun) : Prop where
  returns : run.pc.left ≠ 0 → ∃ run', (step c (.advance i) m).runs[i]? = some run' ∧
    run'.call = run.call ∧ run'.env = run.env ∧ run'.pc.left < run.pc.left
  taken : ∀ job, run.pc = .allocated job →
    (i ∈ (step c (.advance i) m).pending ↔
      (run.env.respond (m.world.submitted ++ [job.request])).status = aerospikeOk)
  sends : i ∈ m.pending → ∃ d, run.data = some d ∧ d.deletions = 0 ∧
    ∀ out body, callback c d.job out = .ok body →
      (step c (.listen i out) m).about i = [⟨i,run.env.self,body⟩] ∧
        i ∉ (step c (.listen i out) m).pending ∧ i ∈ (step c (.listen i out) m).sent
  ends : i ∈ m.sent → i ∉ (step c (.finish i) m).sent ∧ ∃ run' d,
    (step c (.finish i) m).runs[i]? = some run' ∧ run'.data = some d ∧ d.deletions = 1

theorem changed_run (hr : m.runs[i]? = some run) (f : AsyncRun → AsyncRun) :
    (m.change i f).runs[i]? = some (f run) := by
  simp [Machine.change,hr]

theorem advance_left (h : Consistent run (m.tally i)) (hr : m.runs[i]? = some run)
    (hleft : run.pc.left ≠ 0) : ∃ run', (advance i run m).runs[i]? = some run' ∧
      run'.call = run.call ∧ run'.env = run.env ∧ run'.pc.left < run.pc.left := by
  unfold Consistent at h
  unfold advance
  cases hpc : run.pc with
  | checked job =>
    obtain ⟨name,w,htrack,_⟩ := trackNode_run run.env job.tracked m.world
    simp only [create,htrack]
    exact ⟨_,changed_run (m := { m with world := w }) hr _,rfl,rfl,Nat.lt_succ_self 2⟩
  | allocated job =>
    rw [hpc] at h
    have htouch := touch_held (m := { m with world := afterSubmit job.request m.world }) hr h.1
    simp only [submitJob,htouch]
    split_ifs
    · exact ⟨_,changed_run (m := { m with world := afterSubmit job.request m.world }) hr _,rfl,
        rfl,Nat.lt_succ_self 1⟩
    · exact ⟨_,changed_run (m := { m with
        world := afterSubmit job.request m.world, pending := m.pending ++ [i] }) hr _,rfl,rfl,
        Nat.lt_succ_self 1⟩
  | refused answer =>
    rw [hpc] at h
    obtain ⟨w,d,_,_,_,hdel⟩ := delete_held hr h.1
    dsimp only
    rw [hdel]
    exact ⟨_,changed_run (changed_run (m := { m with world := w }) hr _) _,rfl,rfl,
      Nat.lt_succ_self 0⟩
  | accepted => exact ⟨_,changed_run hr _,rfl,rfl,Nat.lt_succ_self 0⟩
  | returned reply =>
    rw [hpc] at hleft
    exact absurd rfl hleft

theorem submitJob_takes (h : Consistent run (m.tally i)) (hr : m.runs[i]? = some run)
    {job : AsyncJob} (hpc : run.pc = .allocated job) :
    i ∈ (submitJob i run job m).pending ↔
      (run.env.respond (m.world.submitted ++ [job.request])).status = aerospikeOk := by
  unfold Consistent at h
  rw [hpc] at h
  have htouch := touch_held (m := { m with world := afterSubmit job.request m.world }) hr h.1
  have hnot : i ∉ m.pending := List.count_eq_zero.mp h.2.1
  simp only [submitJob,htouch]
  split_ifs with hstatus
  · exact ⟨fun hi => absurd hi hnot,fun hok => absurd hok hstatus⟩
  · exact ⟨fun _ => not_not.mp hstatus,
      fun _ => List.mem_append_right _ (List.mem_singleton.mpr rfl)⟩

/-- The listener of a request the client has taken. -/
theorem runListener_sends (h : Consistent run (m.tally i)) (hr : m.runs[i]? = some run)
    (hi : i ∈ m.pending) : ∃ d, run.data = some d ∧ d.deletions = 0 ∧
      ∀ out body, callback c d.job out = .ok body →
        (runListener c i out m).about i = [⟨i,run.env.self,body⟩] ∧
          i ∉ (runListener c i out m).pending ∧ i ∈ (runListener c i out m).sent := by
  have hcount : m.pending.count i ≠ 0 := Nat.pos_iff_ne_zero.mp (List.count_pos_iff.mpr hi)
  cases (completing_of_held h (Or.inl hcount)).1 with
  | told _ pending => exact absurd pending hcount
  | done _ pending => exact absurd pending hcount
  | waiting held pending sent none =>
    obtain ⟨d,hd,hpid,_,hdel⟩ := held
    have hobj : m.object i = some d := by simp [Machine.object,hr,hd]
    have hone : m.pending.count i = 1 := pending
    have hnil : m.messages.filter (·.about = i) = [] := none
    refine ⟨d,hd,hdel,fun out body hbody => ?_⟩
    unfold runListener
    rw [hobj,touch_alive hobj hdel]
    dsimp only
    rw [hbody]
    refine ⟨?_,?_,List.mem_append_right _ (List.mem_singleton.mpr rfl)⟩
    · simp [Machine.about,List.filter_append,hnil,hpid]
    · exact List.count_eq_zero.mp (by simp [hone])

theorem finish_ends (h : Consistent run (m.tally i)) (hr : m.runs[i]? = some run)
    (hi : i ∈ m.sent) : i ∉ (finish i m).sent ∧ ∃ run' d,
      (finish i m).runs[i]? = some run' ∧ run'.data = some d ∧ d.deletions = 1 := by
  have hcount : m.sent.count i ≠ 0 := Nat.pos_iff_ne_zero.mp (List.count_pos_iff.mpr hi)
  cases (completing_of_held h (Or.inr hcount)).1 with
  | waiting _ _ sent => exact absurd sent hcount
  | done _ _ sent => exact absurd sent hcount
  | told held pending sent =>
    have hone : m.sent.count i = 1 := sent
    obtain ⟨w,d,_,_,hdel,hmachine⟩ :=
      delete_held (m := { m with sent := m.sent.erase i }) hr held
    unfold finish
    rw [hmachine]
    exact ⟨List.count_eq_zero.mp (by simp [Machine.change,hone]),_,d,
      changed_run (m := { m with sent := m.sent.erase i, world := w }) hr _,rfl,hdel⟩

theorem progresses (h : Sound m) (hr : m.runs[i]? = some run) : Progresses c m i run := by
  have hrun := consistent_of_sound h hr
  refine ⟨fun hleft => ?_,fun job hpc => ?_,fun hi => ?_,fun hi => ?_⟩
  · simp only [step,hr]
    exact advance_left hrun hr hleft
  · simp only [step,hr,advance,hpc]
    exact submitJob_takes hrun hr hpc
  · simp only [step,if_pos hi]
    exact runListener_sends hrun hr hi
  · simp only [step,if_pos hi]
    exact finish_ends hrun hr hi

/-- Any number of calls, any order of their steps and of the completions: no
object is touched after its deletion, every message goes to the caller of its
call with the reference of that call, every call is accounted for, and the
steps still due to it return it, send its message and delete its object. -/
theorem every_call_accounted (c : Client) (w : World) (as : List Action) :
    (LabelledRuns.run (step c) as (initial w)).faults = 0 ∧
      (∀ msg ∈ (LabelledRuns.run (step c) as (initial w)).messages, ∃ run,
        (LabelledRuns.run (step c) as (initial w)).runs[msg.about]? = some run ∧
          Addressed run msg) ∧
      ∀ i run, (LabelledRuns.run (step c) as (initial w)).runs[i]? = some run →
        Accounted (LabelledRuns.run (step c) as (initial w)) i run ∧
          Progresses c (LabelledRuns.run (step c) as (initial w)) i run := by
  have h := run_sound c w as
  exact ⟨h.1,fun msg hmsg => messages_addressed h hmsg,
    fun i run hr => ⟨accounted (consistent_of_sound h hr),progresses h hr⟩⟩

/-- A request taken by the client, whose call has yet to return. -/
def acceptedGet : List Action := [
  .invoke plainEnv (.cdtGetAsync (.reference 7) (.binary []) (.binary []) (.binary [1])
    (.tuple [.nil,.nil,.nil,.nil])),.advance 0,.advance 0]

/-- The completion overtakes the return of the call. -/
def overtakenGet : List Action := acceptedGet ++ [.listen 0 ⟨some (9,""),none,[]⟩,.finish 0,.advance 0]

/-- The message is sent by the listener, to the caller, before the call is back;
at the end the object has been deleted once. -/
theorem overtaken_get_accounted :
    ((LabelledRuns.run (step plainClient) (acceptedGet ++ [.listen 0 ⟨some (9,""),none,[]⟩])
      (initial connectedWorld)).about 0).map Message.receiver = [plainEnv.self] ∧
    ∃ run d, (LabelledRuns.run (step plainClient) overtakenGet (initial connectedWorld)).runs[0]? =
      some run ∧ run.pc = .returned (.term inProgress) ∧ run.data = some d ∧ d.deletions = 1 ∧
      ((LabelledRuns.run (step plainClient) overtakenGet (initial connectedWorld)).about 0).length =
        1 := by
  have hbefore := (every_call_accounted plainClient connectedWorld acceptedGet).2.2 0 _ rfl
  have hafter := ((every_call_accounted plainClient connectedWorld overtakenGet).2.2 0 _ rfl).1
  obtain ⟨d,hd,_,hsend⟩ := hbefore.2.sends (by decide)
  constructor
  · rw [run_append]
    have habout := (hsend ⟨some (9,""),none,[]⟩ _ (by cases hd; rfl)).1
    exact congrArg (List.map Message.receiver) habout
  · have hnone : (LabelledRuns.run (step plainClient) overtakenGet
        (initial connectedWorld)).pending = [] := rfl
    have hone := hafter.answered rfl
    rw [hnone] at hone
    exact ⟨_,_,rfl,rfl,rfl,hafter.deleted _ rfl (by decide) (by decide) _ rfl,hone⟩

end Progress

end AspikePort.AsyncOwnership
