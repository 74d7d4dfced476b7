import AspikePort.CallFrames
import AspikePort.Lifecycle

/-!
# No submission without a connection

A data operation either leaves the globals as they were or runs while the
library is connected, and in the second case it does not answer with a
refusal. So a refused call changes nothing, and every submission belongs to a
connection that was made and not lost.
-/

set_option autoImplicit false

namespace AspikePort.GuardedSubmission
open AspikePort.ErlangTerms AspikePort.ClientValues AspikePort.EarlyReturn
open AspikePort.NifWorld AspikePort.CdtPut AspikePort.ValueFormat AspikePort.SyncCalls
open AspikePort.AsyncCalls AspikePort.CallFrames AspikePort.LabelledRuns
open AspikePort.Lifecycle Proc

section Silence
variable {α β σ : Type}

/-- A computation on the arguments never ends the call with an answer. -/
def Silent (x : Except Reply α) : Prop := ∀ t, x ≠ .error (.term t)

theorem silent_ok (a : α) : Silent (.ok a) := fun _ h => nomatch h

theorem silent_badarg : Silent (.error .badarg : Except Reply α) := fun _ h => nomatch h

theorem silent_fault (f : Fault) : Silent (.error (.fault f) : Except Reply α) :=
  fun _ h => nomatch h

theorem Silent.bind {x : Except Reply α} {f : α → Except Reply β} (hx : Silent x)
    (hf : ∀ a, Silent (f a)) : Silent (x >>= f) := by
  cases x with
  | ok a => exact hf a
  | error r => exact fun t h => hx t (congrArg Except.error (Except.error.inj h))

theorem silent_orBadarg (o : Option α) : Silent (orBadarg o) := by
  cases o with
  | none => exact silent_badarg
  | some a => exact silent_ok a

theorem silent_unchecked (x : Except Reply α) : Silent (unchecked x) := by
  cases x with
  | ok a => exact silent_ok a
  | error r => exact silent_fault _

theorem silent_cells {stop : σ → Except Reply σ} {body : σ → Term → Except Reply σ}
    (hs : ∀ s, Silent (stop s)) (hb : ∀ s t, Silent (body s t)) (n : ℕ) (list : Term) (s : σ) :
    Silent (cellsExcept stop body n list s) := by
  induction n generalizing list s with
  | zero => exact silent_ok s
  | succ n ih =>
    rw [cellsExcept]
    cases getListCell list with
    | none => exact hs s
    | some cell => exact (hb s cell.1).bind (fun s' => ih cell.2 s')

theorem binaryKey_silent (ns set key : Term) : Silent (binaryKey ns set key) :=
  (silent_orBadarg _).bind (fun _ => (silent_orBadarg _).bind (fun _ =>
    (silent_orBadarg _).bind (fun _ => silent_ok _)))

theorem refKey_silent (ref ns set key : Term) : Silent (refKey ref ns set key) := by
  unfold refKey
  split_ifs
  · exact binaryKey_silent ns set key
  · exact silent_badarg

theorem readPolicyAsync_silent (policy : Term) : Silent (readPolicyAsync policy) := by
  apply (silent_orBadarg _).bind
  intro elements
  split
  · exact silent_ok _
  · exact silent_badarg

theorem readBin_silent (bin : Term) : Silent (readBin bin) := by
  apply (silent_orBadarg _).bind
  intro elements
  split
  · exact (silent_orBadarg _).bind (fun _ => (silent_orBadarg _).bind (fun _ => silent_ok _))
  · exact silent_badarg

theorem validateBins_silent (n : ℕ) (bins : Term) : Silent (validateBins n bins) :=
  silent_cells (fun _ => silent_badarg)
    (fun _ bin => (readBin_silent bin).bind (fun _ => silent_ok _)) n bins 0

theorem putAsyncBins_silent (c : Client) (now : ℤ) (n : ℕ) (bins : Term) (ops : Operations) :
    Silent (putAsyncBins c now n bins ops) :=
  silent_cells (fun _ => silent_fault _)
    (fun _ _ => (silent_unchecked _).bind (fun _ => silent_ok _)) n bins ops

theorem validateTuples_silent (n : ℕ) (tuples : Term) : Silent (validateTuples n tuples) :=
  silent_cells (fun _ => silent_badarg)
    (fun _ entry => (readBin_silent entry).bind (fun _ => silent_cells (fun _ => silent_badarg)
      (fun _ _ => (silent_orBadarg _).bind (fun _ => silent_ok _)) _ _ _)) n tuples ()

theorem batchWriteAsync_silent (c : Client) (ns set bin : Bytes) (entry : Term) :
    Silent (batchWriteAsync c ns set bin entry) :=
  (silent_unchecked _).bind (fun _ => (silent_cells (fun _ => silent_fault _)
    (fun _ _ => (silent_unchecked _).bind (fun _ => silent_ok _)) _ _ _).bind
      (fun _ => silent_ok _))

end Silence

section Guards
variable {α : Type} {w : World}

def Guarded (p : Nif Term) (w : World) : Prop :=
  (p w).2 = w ∨ w.isConnectedFlag = true ∧ Extends w (p w).2 ∧ ¬Refusal (replyOf (p w).1)

/-- The part of a call before its first effect: its result satisfies `V`, and
it never answers that a request is in progress. -/
def Checks (p : Nif α) (V : α → Prop) (w : World) : Prop :=
  (p w).2 = w ∧ match (p w).1 with
    | .ok a => w.isConnectedFlag = true ∧ V a
    | .error r => r ≠ .term inProgress

theorem guarded_pure (t : Term) : Guarded (pure t) w := Or.inl rfl

theorem guarded_stop (r : Reply) : Guarded (stop r) w := Or.inl rfl

theorem guarded_ite {P : Prop} [Decidable P] {p q : Nif Term}
    (hp : Guarded p w) (hq : Guarded q w) : Guarded (if P then p else q) w := by
  split_ifs
  · exact hp
  · exact hq

theorem guarded_lift_bind {x : Except Reply α} {f : α → Nif Term}
    (h : ∀ a, Guarded (f a) w) : Guarded (lift x >>= f) w := by
  cases x with
  | ok a => exact h a
  | error r => exact Or.inl rfl

theorem guarded_isConnected_bind {f : Unit → Nif Term}
    (h : w.isConnectedFlag = true → Guarded (f ()) w) : Guarded (isConnected >>= f) w := by
  by_cases hw : w.isConnectedFlag = true
  · unfold Guarded
    rw [isConnected_bind_run f hw]
    exact h hw
  · exact Or.inl (by rw [isConnected_bind_refused f hw])

theorem guarded_acts {p : Nif Term} (hw : w.isConnectedFlag = true)
    (h : Acts p (· ≠ notConnected)) : Guarded p w := by
  obtain ⟨hext,hres⟩ := h w
  refine Or.inr ⟨hw,hext,?_⟩
  revert hres
  cases (p w).1 with
  | ok t => exact id
  | error r => exact id

theorem checks_pure {V : α → Prop} {a : α} (hw : w.isConnectedFlag = true) (h : V a) :
    Checks (pure a) V w := ⟨rfl,hw,h⟩

theorem checks_stop {V : α → Prop} {r : Reply} (h : r ≠ .term inProgress) :
    Checks (stop r) V w := ⟨rfl,h⟩

theorem checks_ite {P : Prop} [Decidable P] {V : α → Prop} {p q : Nif α}
    (hp : Checks p V w) (hq : Checks q V w) : Checks (if P then p else q) V w := by
  split_ifs
  · exact hp
  · exact hq

theorem checks_lift_bind {β : Type} {V : α → Prop} {x : Except Reply β} {f : β → Nif α}
    (hx : Silent x) (h : ∀ b, Checks (f b) V w) : Checks (lift x >>= f) V w := by
  cases x with
  | ok b => exact h b
  | error r => exact ⟨rfl,fun he => hx _ (congrArg Except.error he)⟩

theorem notConnected_ne_inProgress : notConnected ≠ inProgress := by
  simp [notConnected,errorTuple,makeTuple2,inProgress,atomError,atomOk]

theorem checks_isConnected_bind {V : α → Prop} {f : Unit → Nif α}
    (h : w.isConnectedFlag = true → Checks (f ()) V w) : Checks (isConnected >>= f) V w := by
  by_cases hw : w.isConnectedFlag = true
  · unfold Checks
    rw [isConnected_bind_run f hw]
    exact h hw
  · rw [Checks,isConnected_bind_refused f hw]
    exact ⟨rfl,fun he => notConnected_ne_inProgress (Reply.term.inj he)⟩

theorem guarded_checks_bind {V : α → Prop} {p : Nif α} {f : α → Nif Term}
    (hp : Checks p V w) (hf : ∀ a, Acts (f a) (· ≠ notConnected)) : Guarded (p >>= f) w := by
  have hchecks : wp p (fun r t => t = w ∧
      match r with
      | .ok a => w.isConnectedFlag = true ∧ V a
      | .error r => r ≠ .term inProgress) w := hp
  apply (wp_bind p f (fun r t => t = w ∨ w.isConnectedFlag = true ∧ Extends w t ∧
    ¬Refusal (replyOf r)) w).mpr
  apply wp_mono hchecks
  rintro r t ⟨rfl,hres⟩
  cases r with
  | ok a => exact guarded_acts hres.1 (hf a)
  | error e => exact Or.inl rfl

end Guards

section Answers
variable (c : Client) (env : Env)

theorem acts_answer {req : Request} {f : Response → Nif Term}
    (h : ∀ r, Acts (f r) (· ≠ notConnected)) :
    Acts (submit env req >>= f) (· ≠ notConnected) :=
  (acts_submit env req).bind (fun r _ => h r)

theorem acts_value {x : Except Fault Term} {f : Term → Term} (h : ∀ t, f t ≠ notConnected) :
    Acts (lift (orFault x) >>= fun t => pure (f t)) (· ≠ notConnected) :=
  Acts.fault.bind (fun t _ => Acts.pure (h t))

theorem answerString_ne (r : Response) (done : String) : answerString r done ≠ notConnected := by
  unfold answerString
  split_ifs
  · exact errorString_ne _
  · exact okString_ne _

theorem acts_answerRecord (r : Response) (dump : Record → Except Fault Term) :
    Acts (answerRecord r dump) (· ≠ notConnected) := by
  refine Acts.ite (Acts.pure (errorString_ne _)) ?_
  cases r.record with
  | none => exact Acts.pure (errorString_ne _)
  | some rec => exact acts_value (fun _ => makeTuple2_ok_ne _)

theorem segmentTagAnswer_ne (record : Option Record) (bin : Bytes) (t : Term)
    (h : segmentTagAnswer c record bin = .ok t) : t ≠ notConnected := by
  unfold segmentTagAnswer at h
  split at h
  · exact Except.ok.inj h ▸ makeNifError_ne _ _
  · split at h
    · exact Except.ok.inj h ▸ makeNifError_ne _ _
    · exact Except.ok.inj h ▸ makeTuple2_ok_ne _
    · next entries _ =>
      cases hm : segmentMap entries with
      | ok m =>
        rw [hm] at h
        exact Except.ok.inj h ▸ makeTuple2_ok_ne _
      | error f =>
        rw [hm] at h
        cases h
    · exact Except.ok.inj h ▸ makeNifError_ne _ _

theorem acts_segmentTagAnswer (record : Option Record) (bin : Bytes) :
    Acts (lift (orFault (segmentTagAnswer c record bin))) (· ≠ notConnected) := by
  intro w
  cases h : segmentTagAnswer c record bin with
  | ok t => exact ⟨Extends.refl w,segmentTagAnswer_ne c record bin t h⟩
  | error f => exact ⟨Extends.refl w,id⟩

theorem acts_putLoop (k : AsKey) (rec : PutRecord) (n : ℤ) (fuel : ℕ) (i : UInt32) :
    Acts (putLoop env k rec n fuel i) (fun _ => True) := by
  induction fuel generalizing i with
  | zero => exact fun w => ⟨Extends.refl w,id⟩
  | succ fuel ih =>
    refine Acts.ite ?_ (Acts.pure trivial)
    exact (acts_submit env _).bind (fun r _ => Acts.ite (Acts.pure trivial) (ih (i+1)))

end Answers

section Jobs
variable (c : Client) (env : Env) (w : World)

theorem okString_ne_inProgress (msg : String) : okString msg ≠ inProgress := by
  intro h
  have hbody := (List.cons.inj (List.cons.inj (Term.tuple.inj h)).2).1
  unfold makeString atomInProgress at hbody
  cases hs : msg.toList <;> simp [hs,ofList] at hbody

theorem cdtPutAsyncJob_checks (ref ns set key bins ttl policy : Term) :
    Checks (cdtPutAsyncJob c env ref ns set key bins ttl policy) (·.ref = ref) w := by
  apply checks_lift_bind (refKey_silent _ _ _ _)
  intro k
  refine checks_lift_bind (silent_orBadarg _) (fun n => checks_ite (checks_stop ?_) ?_)
  · exact fun h => okString_ne_inProgress _ (Reply.term.inj h)
  · refine checks_isConnected_bind (fun hw => checks_lift_bind (silent_orBadarg _) (fun ttl => ?_))
    apply checks_lift_bind (readPolicyAsync_silent _)
    intro p
    apply checks_lift_bind (validateBins_silent _ _)
    intro _
    exact checks_lift_bind (putAsyncBins_silent _ _ _ _ _) (fun ops => checks_pure hw rfl)

theorem cdtGetAsyncJob_checks (ref ns set key policy : Term) :
    Checks (cdtGetAsyncJob ref ns set key policy) (·.ref = ref) w := by
  apply checks_lift_bind (refKey_silent _ _ _ _)
  intro k
  apply checks_lift_bind (readPolicyAsync_silent _)
  intro p
  exact checks_isConnected_bind (fun hw => checks_pure hw rfl)

theorem cdtDeleteByKeysAsyncJob_checks (ref ns set key bin list : Term) :
    Checks (cdtDeleteByKeysAsyncJob c ref ns set key bin list) (·.ref = ref) w := by
  apply checks_lift_bind (refKey_silent _ _ _ _)
  intro k
  apply checks_lift_bind (silent_orBadarg _)
  intro b
  apply checks_lift_bind (silent_orBadarg _)
  intro n
  exact checks_isConnected_bind (fun hw => checks_pure hw rfl)

theorem cdtDeleteByKeysBatchAsyncJob_checks (ref ns set bin tuples : Term) :
    Checks (cdtDeleteByKeysBatchAsyncJob c ref ns set bin tuples) (·.ref = ref) w := by
  refine checks_ite (checks_stop (fun h => nomatch h)) ?_
  apply checks_lift_bind (silent_orBadarg _)
  intro ns
  apply checks_lift_bind (silent_orBadarg _)
  intro set
  apply checks_lift_bind (silent_orBadarg _)
  intro bin
  apply checks_lift_bind (silent_orBadarg _)
  intro n
  apply checks_lift_bind (validateTuples_silent _ _)
  intro _
  refine checks_isConnected_bind (fun hw => checks_lift_bind ?_ (fun recs => checks_pure hw rfl))
  exact silent_cells (fun _ => silent_fault _)
    (fun _ entry => (batchWriteAsync_silent c ns set bin entry).bind (fun _ => silent_ok _)) _ _ _

theorem segmentTagGetAsyncJob_checks (ref ns set key bin : Term) :
    Checks (segmentTagGetAsyncJob ref ns set key bin) (·.ref = ref) w := by
  apply checks_lift_bind (refKey_silent _ _ _ _)
  intro k
  apply checks_lift_bind (silent_orBadarg _)
  intro b
  exact checks_isConnected_bind (fun hw => checks_pure hw rfl)

end Jobs

/-- Every data operation, with any arguments and in any state. -/
theorem data_guarded (c : Client) (env : Env) (w : World) (op : DataCall) :
    Guarded (op.body c env) w := by
  cases op with
  | cdtPutSync =>
    refine guarded_lift_bind (fun k => guarded_lift_bind (fun n => ?_))
    refine guarded_lift_bind (fun ttl => guarded_lift_bind (fun p => ?_))
    refine guarded_ite (guarded_pure _) (guarded_isConnected_bind (fun hw => ?_))
    refine guarded_lift_bind (fun ops => guarded_acts hw (acts_syncOperationCounter ?_))
    exact acts_answer env (fun r =>
      Acts.ite (Acts.pure (makeNifError_ne _ _)) (Acts.pure (okString_ne _)))
  | cdtPutAsync =>
    exact guarded_checks_bind (cdtPutAsyncJob_checks c env w _ _ _ _ _ _ _) (acts_submitAsync env)
  | cdtGetSync =>
    refine guarded_lift_bind (fun k => guarded_lift_bind (fun p => ?_))
    refine guarded_isConnected_bind (fun hw => guarded_acts hw (acts_syncOperationCounter ?_))
    refine acts_answer env (fun r => Acts.ite (Acts.pure (makeNifError_ne _ _)) ?_)
    cases r.record with
    | none => exact Acts.pure (makeNifError_ne _ _)
    | some rec => exact acts_value (fun _ => makeTuple2_ok_ne _)
  | cdtGetAsync =>
    exact guarded_checks_bind (cdtGetAsyncJob_checks w _ _ _ _ _) (acts_submitAsync env)
  | cdtDeleteByKeysSync =>
    refine guarded_lift_bind (fun k => guarded_lift_bind (fun b => guarded_lift_bind (fun n => ?_)))
    refine guarded_isConnected_bind (fun hw => guarded_acts hw (acts_syncOperationCounter ?_))
    exact acts_answer env (fun r =>
      Acts.ite (Acts.pure (makeNifError_ne _ _)) (Acts.pure (okString_ne _)))
  | cdtDeleteByKeysAsync =>
    exact guarded_checks_bind (cdtDeleteByKeysAsyncJob_checks c w _ _ _ _ _ _)
      (acts_submitAsync env)
  | cdtDeleteByKeysBatchSync =>
    refine guarded_lift_bind (fun _ => guarded_lift_bind (fun _ => guarded_lift_bind (fun _ => ?_)))
    refine guarded_lift_bind (fun n => guarded_isConnected_bind (fun hw => ?_))
    refine guarded_lift_bind (fun recs => guarded_acts hw (acts_syncOperationCounter ?_))
    refine acts_touchClient.bind (fun _ _ => (Acts.update (fun w => ?_)).bind (fun _ _ => ?_))
    · exact ⟨rfl,rfl,rfl,rfl,List.prefix_rfl,0,by simp⟩
    · exact acts_answer env (fun r =>
        Acts.ite (Acts.pure (makeNifError_ne _ _)) (Acts.pure (makeTuple2_ok_ne _)))
  | cdtDeleteByKeysBatchAsync =>
    exact guarded_checks_bind (cdtDeleteByKeysBatchAsyncJob_checks c w _ _ _ _ _)
      (acts_submitAsync env)
  | segmentTagGetSync =>
    refine guarded_lift_bind (fun k => guarded_lift_bind (fun b => ?_))
    refine guarded_isConnected_bind (fun hw => guarded_acts hw (acts_syncOperationCounter ?_))
    exact acts_answer env (fun r =>
      Acts.ite (Acts.pure (makeNifError_ne _ _)) (acts_segmentTagAnswer c _ _))
  | segmentTagGetAsync =>
    exact guarded_checks_bind (segmentTagGetAsyncJob_checks w _ _ _ _ _) (acts_submitAsync env)
  | keySelectSync =>
    refine guarded_lift_bind (fun k => guarded_lift_bind (fun n => ?_))
    refine guarded_isConnected_bind (fun hw => guarded_ite (guarded_pure _) ?_)
    refine guarded_lift_bind (fun bins => guarded_ite (guarded_stop _) (guarded_acts hw ?_))
    refine acts_answer env (fun r => Acts.ite (Acts.pure (errorString_ne _)) ?_)
    cases r.record with
    | none => exact fun w => ⟨Extends.refl w,id⟩
    | some rec => exact acts_value (fun _ => makeTuple2_ok_ne _)
  | binaryGetSync =>
    refine guarded_lift_bind (fun k => guarded_isConnected_bind (fun hw => guarded_acts hw ?_))
    exact acts_answer env (fun r => acts_answerRecord r _)
  | mapPutSync =>
    refine guarded_lift_bind (fun k => guarded_lift_bind (fun b => ?_))
    refine guarded_ite (guarded_stop _) (guarded_lift_bind (fun pairs => ?_))
    refine guarded_isConnected_bind (fun hw => guarded_lift_bind (fun es => ?_))
    refine guarded_lift_bind (fun rec => guarded_acts hw (acts_answer env (fun r => ?_)))
    exact Acts.ite (Acts.pure (makeNifError_ne _ _)) (Acts.pure (makeTuple2_ok_ne _))
  | keyGetSync =>
    refine guarded_lift_bind (fun k => guarded_isConnected_bind (fun hw => guarded_acts hw ?_))
    exact acts_answer env (fun r => acts_answerRecord r _)
  | keyExistsSync =>
    refine guarded_lift_bind (fun k => guarded_isConnected_bind (fun hw => guarded_acts hw ?_))
    exact acts_answer env (fun r =>
      Acts.ite (Acts.pure (errorString_ne _)) (Acts.pure (makeTuple2_ok_ne _)))
  | keyIncSync =>
    refine guarded_lift_bind (fun k => guarded_lift_bind (fun n => ?_))
    refine guarded_isConnected_bind (fun hw => guarded_ite (guarded_pure _) ?_)
    refine guarded_lift_bind (fun ops => guarded_acts hw (acts_answer env (fun r => ?_)))
    exact Acts.pure (answerString_ne r _)
  | keyGenerationSync =>
    refine guarded_lift_bind (fun k => guarded_isConnected_bind (fun hw => guarded_acts hw ?_))
    exact acts_answer env (fun r => acts_answerRecord r _)
  | keyPutSync =>
    refine guarded_lift_bind (fun k => guarded_lift_bind (fun n => ?_))
    refine guarded_isConnected_bind (fun hw => guarded_ite (guarded_pure _) ?_)
    refine guarded_lift_bind (fun rec => guarded_acts hw (acts_answer env (fun r => ?_)))
    exact Acts.pure (answerString_ne r _)
  | binaryPutSync =>
    refine guarded_lift_bind (fun k => guarded_lift_bind (fun n => guarded_lift_bind (fun ttl => ?_)))
    refine guarded_ite (guarded_pure _) (guarded_isConnected_bind (fun hw => ?_))
    refine guarded_lift_bind (fun rec => guarded_acts hw (acts_answer env (fun r => ?_)))
    exact Acts.pure (answerString_ne r _)
  | binaryRemoveSync =>
    refine guarded_lift_bind (fun k => guarded_lift_bind (fun n => guarded_lift_bind (fun ttl => ?_)))
    refine guarded_ite (guarded_pure _) (guarded_isConnected_bind (fun hw => ?_))
    refine guarded_lift_bind (fun rec => guarded_acts hw (acts_answer env (fun r => ?_)))
    exact Acts.pure (answerString_ne r _)
  | cdtExpireSync => exact guarded_pure _
  | keyRemoveSync =>
    refine guarded_lift_bind (fun k => guarded_isConnected_bind (fun hw => guarded_acts hw ?_))
    exact acts_answer env (fun r => Acts.pure (answerString_ne r _))
  | aKeyPutSync =>
    refine guarded_lift_bind (fun _ => guarded_lift_bind (fun bin => ?_))
    refine guarded_lift_bind (fun val => guarded_lift_bind (fun k => guarded_lift_bind (fun n => ?_)))
    refine guarded_isConnected_bind (fun hw => guarded_acts hw ?_)
    apply (acts_putLoop env _ _ _ _ _).bind
    intro failed _
    cases failed with
    | some msg => exact Acts.pure (errorString_ne _)
    | none => exact Acts.ite (fun w => ⟨Extends.refl w,id⟩) (Acts.pure (makeTuple2_ok_ne _))

/-- A refused data operation leaves all globals as they were. -/
theorem refused_unchanged {c : Client} {env : Env} {w : World} {op : DataCall}
    (h : Refusal (replyOf (op.body c env w).1)) : (op.body c env w).2 = w := by
  rcases data_guarded c env w op with hw | ⟨_,_,hr⟩
  · exact hw
  · exact absurd h hr

theorem changed_connected {c : Client} {env : Env} {w : World} {op : DataCall}
    (h : (op.body c env w).2 ≠ w) : w.isConnectedFlag = true := by
  rcases data_guarded c env w op with hw | ⟨hflag,_⟩
  · exact absurd hw h
  · exact hflag

theorem data_extends (c : Client) (env : Env) (w : World) (op : DataCall) :
    Extends w (op.body c env w).2 := by
  rcases data_guarded c env w op with hw | ⟨_,hext,_⟩
  · rw [hw]
    exact Extends.refl w
  · exact hext

end AspikePort.GuardedSubmission
