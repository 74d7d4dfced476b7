import AspikePort.BatchAgreement
import AspikePort.KeptTexts
import AspikePort.Lifecycle

/-!
# The record keys handed to the client

Whatever a data operation submits goes to the records its key arguments name,
each read into a zero-terminated string. Two calls reach different records
exactly when their arguments differ in what is left of them there.
-/

set_option autoImplicit false

namespace AspikePort.RecordKeys
open AspikePort.ErlangTerms AspikePort.ClientValues AspikePort.EarlyReturn AspikePort.NifWorld
open AspikePort.CdtPut AspikePort.PutOperations AspikePort.PutAgreement AspikePort.SyncCalls
open AspikePort.AsyncCalls AspikePort.BatchAgreement AspikePort.Lifecycle AspikePort.KeptTexts Proc

section Sending
variable {α β : Type} {V : Request → Prop}

/-- Every request of the procedure satisfies `V`, and its result `R`. -/
def Sends (V : Request → Prop) (R : α → Prop) (p : Nif α) : Prop :=
  ∀ w, (∃ reqs, (p w).2.submitted = w.submitted ++ reqs ∧ ∀ r ∈ reqs, V r) ∧
    ∀ a, (p w).1 = .ok a → R a

theorem Sends.bind {R : α → Prop} {Q : β → Prop} {p : Nif α} {f : α → Nif β} (hp : Sends V R p)
    (hf : ∀ a, R a → Sends V Q (f a)) : Sends V Q (p >>= f) := by
  intro w
  obtain ⟨⟨reqs,hreqs,hall⟩,hres⟩ := hp w
  have hfirst : wp p (fun r t => t.submitted = w.submitted ++ reqs ∧ ∀ a, r = .ok a → R a) w := by
    unfold wp
    constructor
    · exact hreqs
    · exact hres
  have hwhole : wp (p >>= f) (fun r t =>
      (∃ reqs, t.submitted = w.submitted ++ reqs ∧ ∀ r ∈ reqs, V r) ∧ ∀ b, r = .ok b → Q b) w := by
    apply (wp_bind p f _ w).mpr
    apply wp_mono hfirst
    intro r t h
    cases r with
    | ok a =>
      obtain ⟨⟨more,hmore,hmoreall⟩,hlast⟩ := hf a (h.2 a rfl) t
      constructor
      · refine ⟨reqs ++ more,?_,?_⟩
        · rw [hmore,h.1,List.append_assoc]
        · intro x hx
          rcases List.mem_append.mp hx with hx | hx
          · exact hall x hx
          · exact hmoreall x hx
      · exact hlast
    | error e =>
      constructor
      · exact ⟨reqs,h.1,hall⟩
      · intro b hb
        cases hb
  exact hwhole

theorem Sends.silent {R : α → Prop} {p : Nif α} (hs : ∀ w, (p w).2.submitted = w.submitted)
    (hr : ∀ w a, (p w).1 = .ok a → R a) : Sends V R p := by
  intro w
  refine ⟨⟨[],?_,fun r hr => absurd hr List.not_mem_nil⟩,hr w⟩
  rw [hs w,List.append_nil]

theorem sends_pure (a : α) : Sends V (fun _ => True) (pure a : Nif α) :=
  Sends.silent (fun _ => rfl) (fun _ _ _ => trivial)

theorem sends_result {R : α → Prop} {a : α} (h : R a) : Sends V R (pure a : Nif α) := by
  apply Sends.silent (fun _ => rfl)
  intro w b hb
  exact Except.ok.inj hb ▸ h

theorem sends_stop {R : α → Prop} (r : Reply) : Sends V R (stop r : Nif α) :=
  Sends.silent (fun _ => rfl) (fun _ _ h => nomatch h)

/-- What a computation on the arguments yields is known behind it. -/
theorem sends_lift_bind {R : β → Prop} {x : Except Reply α} {f : α → Nif β}
    (h : ∀ a, x = .ok a → Sends V R (f a)) : Sends V R (lift x >>= f) :=
  (Sends.silent (R := fun a => x = .ok a) (fun _ => rfl) (fun _ _ h => h)).bind h

theorem sends_ite {P : Prop} [Decidable P] {R : α → Prop} {p q : Nif α} (hp : Sends V R p)
    (hq : Sends V R q) : Sends V R (if P then p else q) := by
  split_ifs
  · exact hp
  · exact hq

theorem sends_isConnected_bind {R : α → Prop} {f : Unit → Nif α} (h : Sends V R (f ())) :
    Sends V R (isConnected >>= f) := by
  intro w
  by_cases hw : w.isConnectedFlag = true
  · rw [isConnected_bind_run f hw]
    exact h w
  · rw [isConnected_bind_refused f hw]
    refine ⟨⟨[],(List.append_nil _).symm,?_⟩,fun a h => nomatch h⟩
    exact fun r hr => absurd hr List.not_mem_nil

theorem sends_submit_bind {R : α → Prop} {env : Env} {req : Request} {f : Response → Nif α}
    (hreq : V req) (h : ∀ r, Sends V R (f r)) : Sends V R (submit env req >>= f) := by
  intro w
  rw [submit_bind_run]
  obtain ⟨⟨reqs,hreqs,hall⟩,hres⟩ := h (env.respond (w.submitted ++ [req])) (afterSubmit req w)
  refine ⟨⟨req::reqs,?_,?_⟩,hres⟩
  · rw [hreqs,List.append_cons]
    rfl
  · intro x hx
    rcases List.mem_cons.mp hx with rfl | hx
    · exact hreq
    · exact hall x hx

theorem sends_syncOperationCounter {R : α → Prop} {env : Env} {p : Nif α} (h : Sends V R p) :
    Sends V R (syncOperationCounter env p) := by
  intro w
  unfold syncOperationCounter
  rw [within_run]
  obtain ⟨⟨reqs,hreqs,hall⟩,hres⟩ := h (SyncOperationCounter.enter env.now w)
  refine ⟨⟨reqs,?_,hall⟩,hres⟩
  rw [SyncOperationCounter.leave_submitted,hreqs,SyncOperationCounter.enter_submitted]

theorem sends_submitAsync {env : Env} {job : AsyncJob} (h : V job.request) :
    Sends V (fun _ => True) (submitAsync env job) := by
  intro w
  obtain ⟨t,w',hrun,hsub⟩ := submitAsync_run env job w
  rw [hrun]
  refine ⟨⟨[job.request],hsub,?_⟩,fun _ _ => trivial⟩
  intro r hr
  rw [List.mem_singleton.mp hr]
  exact h

end Sending

section Arguments

structure KeyTerms where
  nameSpace : Term
  set : Term
  key : Term

def elements : Term → List Term
  | .cons head tail => head::elements tail
  | _ => []

/-- The record key of an element `{RecordKey, [MapKey]}`. -/
def primaryKey : Term → Term
  | .tuple (key::_) => key
  | t => t

def encodingOf : DataCall → Encoding
  | .keySelectSync .. => .characters
  | .keyGetSync .. => .characters
  | .keyExistsSync .. => .characters
  | .keyIncSync .. => .characters
  | .keyGenerationSync .. => .characters
  | .keyPutSync .. => .characters
  | .keyRemoveSync .. => .characters
  | .aKeyPutSync .. => .characters
  | _ => .binary

/-- One entry for each record the call names. -/
def recordKeys : DataCall → List KeyTerms
  | .cdtPutSync ns set key _ _ _ => [⟨ns,set,key⟩]
  | .cdtPutAsync _ ns set key _ _ _ => [⟨ns,set,key⟩]
  | .cdtGetSync ns set key _ => [⟨ns,set,key⟩]
  | .cdtGetAsync _ ns set key _ => [⟨ns,set,key⟩]
  | .cdtDeleteByKeysSync ns set key _ _ => [⟨ns,set,key⟩]
  | .cdtDeleteByKeysAsync _ ns set key _ _ => [⟨ns,set,key⟩]
  | .cdtDeleteByKeysBatchSync ns set _ list =>
    (elements list).map (fun e => ⟨ns,set,primaryKey e⟩)
  | .cdtDeleteByKeysBatchAsync _ ns set _ tuples =>
    (elements tuples).map (fun e => ⟨ns,set,primaryKey e⟩)
  | .segmentTagGetSync ns set key _ => [⟨ns,set,key⟩]
  | .segmentTagGetAsync _ ns set key _ => [⟨ns,set,key⟩]
  | .keySelectSync ns set key _ => [⟨ns,set,key⟩]
  | .binaryGetSync ns set key => [⟨ns,set,key⟩]
  | .mapPutSync ns set key _ _ _ => [⟨ns,set,key⟩]
  | .keyGetSync ns set key => [⟨ns,set,key⟩]
  | .keyExistsSync ns set key => [⟨ns,set,key⟩]
  | .keyIncSync ns set key _ => [⟨ns,set,key⟩]
  | .keyGenerationSync ns set key => [⟨ns,set,key⟩]
  | .keyPutSync ns set key _ => [⟨ns,set,key⟩]
  | .binaryPutSync ns set key _ _ => [⟨ns,set,key⟩]
  | .binaryRemoveSync ns set key _ _ => [⟨ns,set,key⟩]
  | .cdtExpireSync ns set key _ => [⟨ns,set,key⟩]
  | .keyRemoveSync ns set key => [⟨ns,set,key⟩]
  | .aKeyPutSync _ _ ns set key _ => [⟨ns,set,key⟩]

def requestKeys : Request → List AsKey
  | .keyGet key _ => [key]
  | .keySelect key _ => [key]
  | .keyExists key => [key]
  | .keyRemove key => [key]
  | .keyPut key _ => [key]
  | .keyOperate key _ _ => [key]
  | .batchWrite records => records.map BatchWrite.key

def readKey : Encoding → KeyTerms → Except Reply AsKey
  | .binary, k => binaryKey k.nameSpace k.set k.key
  | .characters, k => stringKey k.nameSpace k.set k.key

/-- The request goes to the records the call names, one by one. -/
def Reaches (x : DataCall) (r : Request) : Prop :=
  List.Forall₂ (fun k v => readKey (encodingOf x) k = .ok v) (recordKeys x) (requestKeys r)

theorem reaches_single {x : DataCall} {r : Request} {k : KeyTerms} {v : AsKey}
    (hx : recordKeys x = [k]) (hr : requestKeys r = [v]) (h : readKey (encodingOf x) k = .ok v) :
    Reaches x r := by
  unfold Reaches
  rw [hx,hr]
  exact List.Forall₂.cons h List.Forall₂.nil

theorem elements_ofList (ts : List Term) : elements (ofList ts) = ts := by
  induction ts with
  | nil => rfl
  | cons t ts ih => rw [ofList,elements,ih]

theorem batch_reaches {x : DataCall} {c : Client} {ttl : UInt32} {ns set bin : Bytes}
    {ps : List KeySubkeys} (he : encodingOf x = .binary)
    (hx : recordKeys x = (elements (encodeTuples ps)).map
      (fun e => ⟨.binary ns,.binary set,primaryKey e⟩)) :
    Reaches x (batch c ttl ns set bin ps) := by
  unfold Reaches
  rw [he,hx,encodeTuples,elements_ofList,List.map_map,batch,requestKeys,List.map_map,
    List.forall₂_map_left_iff,List.forall₂_map_right_iff,List.forall₂_same]
  intro p _
  rfl

end Arguments

section Calls
variable (c : Client) (env : Env)

theorem answers_send {V : Request → Prop} (r : Response) (dump : Record → Except Fault Term) :
    Sends V (fun _ => True) (answerRecord r dump) := by
  apply sends_ite (sends_pure _)
  cases r.record with
  | none => exact sends_pure _
  | some rec => exact sends_lift_bind (fun msg _ => sends_pure _)

theorem putLoop_sends {V : Request → Prop} {k : AsKey} {rec : PutRecord} (h : V (.keyPut k rec))
    (n : ℤ) (fuel : ℕ) (i : UInt32) :
    Sends V (fun _ => True) (putLoop env k rec n fuel i) := by
  induction fuel generalizing i with
  | zero => exact sends_stop _
  | succ fuel ih =>
    apply sends_ite _ (sends_pure _)
    apply sends_submit_bind h
    intro r
    exact sends_ite (sends_pure _) (ih (i+1))

/-- The body of a synchronous call behind its checks. -/
theorem submit_sends {V : Request → Prop} {req : Request} {f : Response → Nif Term} (h : V req)
    (hf : ∀ r, Sends V (fun _ => True) (f r)) :
    Sends V (fun _ => True) (syncOperationCounter env (submit env req >>= f)) :=
  sends_syncOperationCounter (sends_submit_bind h hf)

theorem refKey_ok {ref ns set key : Term} {k : AsKey} (h : refKey ref ns set key = .ok k) :
    binaryKey ns set key = .ok k := by
  unfold refKey at h
  split_ifs at h
  exact h

theorem inspectBinary_ok {t : Term} {b : Bytes} (h : orBadarg (inspectBinary t) = .ok b) :
    t = .binary b := by
  cases t with
  | binary data => exact congrArg Term.binary (Except.ok.inj h)
  | _ => cases h

theorem getListLength_ok {t : Term} {n : ℕ} (h : orBadarg (getListLength t) = .ok n) :
    ∃ ts, t = ofList ts ∧ ts.length = n := getListLength_some (orBadarg_ok h)

theorem batchSync_sends (ns set bin list : Term) :
    Sends (Reaches (.cdtDeleteByKeysBatchSync ns set bin list)) (fun _ => True)
      (SyncCalls.cdtDeleteByKeysBatchSync c env ns set bin list) := by
  apply sends_lift_bind
  intro n hn
  apply sends_lift_bind
  intro s hs
  apply sends_lift_bind
  intro b hb
  apply sends_lift_bind
  intro length hlength
  obtain ⟨ts,rfl,rfl⟩ := getListLength_ok hlength
  rw [inspectBinary_ok hn,inspectBinary_ok hs]
  apply sends_isConnected_bind
  rw [cellsExcept_ofList]
  apply sends_lift_bind
  intro recs hrecs
  change syncRecords c n s b ts = .ok recs at hrecs
  rcases tuples_cases c n s b ts with ⟨ps,rfl⟩ | ⟨t,ht,hbad,-⟩
  · rw [syncRecords_encode] at hrecs
    rw [← Except.ok.inj hrecs]
    have hreach : Reaches (.cdtDeleteByKeysBatchSync (.binary n) (.binary s) bin
      (encodeTuples ps)) (batch c recordClientDefaultTtl n s b ps) := batch_reaches rfl rfl
    apply sends_syncOperationCounter
    apply (Sends.silent (R := fun _ => True) (fun _ => rfl) (fun _ _ _ => trivial)).bind
    intro _ _
    apply (Sends.silent (R := fun _ => True) (fun _ => rfl) (fun _ _ _ => trivial)).bind
    intro _ _
    apply sends_submit_bind hreach
    intro r
    exact sends_ite (sends_pure _) (sends_pure _)
  · rw [syncRecords_refused c n s b ⟨t,ht,hbad⟩] at hrecs
    cases hrecs

theorem batchAsync_sends (ref ns set bin tuples : Term) :
    Sends (Reaches (.cdtDeleteByKeysBatchAsync ref ns set bin tuples)) (fun _ => True)
      (AsyncCalls.cdtDeleteByKeysBatchAsync c env ref ns set bin tuples) := by
  apply Sends.bind (R := fun job => Reaches (.cdtDeleteByKeysBatchAsync ref ns set bin tuples)
    job.request) _ (fun job h => sends_submitAsync h)
  apply sends_ite (sends_stop _)
  apply sends_lift_bind
  intro n hn
  apply sends_lift_bind
  intro s hs
  apply sends_lift_bind
  intro b hb
  apply sends_lift_bind
  intro length hlength
  obtain ⟨ts,rfl,rfl⟩ := getListLength_ok hlength
  rw [inspectBinary_ok hn,inspectBinary_ok hs]
  apply sends_lift_bind
  intro u hvalid
  apply sends_isConnected_bind
  rw [cellsExcept_ofList]
  apply sends_lift_bind
  intro recs hrecs
  change asyncRecords c n s b ts = .ok recs at hrecs
  rcases tuples_cases c n s b ts with ⟨ps,rfl⟩ | ⟨t,ht,-,hbad⟩
  · rw [asyncRecords_encode] at hrecs
    rw [← Except.ok.inj hrecs]
    apply sends_result
    exact batch_reaches rfl rfl
  · rw [validateTuples_refused ⟨t,ht,hbad⟩] at hvalid
    cases hvalid

/-- The asynchronous calls on one record. -/
theorem job_sends {x : DataCall} {p : Nif AsyncJob}
    (h : Sends (Reaches x) (fun job => Reaches x job.request) p) :
    Sends (Reaches x) (fun _ => True) (p >>= submitAsync env) :=
  h.bind (fun _ hjob => sends_submitAsync hjob)

theorem call_sends (x : DataCall) : Sends (Reaches x) (fun _ => True) (x.body c env) := by
  cases x with
  | cdtPutSync =>
    refine sends_lift_bind (fun k hk => sends_lift_bind (fun n _ => ?_))
    refine sends_lift_bind (fun ttl _ => sends_lift_bind (fun p _ => ?_))
    apply sends_ite (sends_pure _)
    refine sends_isConnected_bind (sends_lift_bind (fun ops _ => ?_))
    exact submit_sends env (reaches_single rfl rfl hk)
      (fun r => sends_ite (sends_pure _) (sends_pure _))
  | cdtPutAsync =>
    apply job_sends env
    refine sends_lift_bind (fun k hk => sends_lift_bind (fun n _ => ?_))
    apply sends_ite (sends_stop _)
    refine sends_isConnected_bind (sends_lift_bind (fun ttl _ => sends_lift_bind (fun p _ => ?_)))
    refine sends_lift_bind (fun total _ => sends_lift_bind (fun ops _ => ?_))
    exact sends_result (reaches_single rfl rfl (refKey_ok hk))
  | cdtGetSync =>
    refine sends_lift_bind (fun k hk => sends_lift_bind (fun p _ => sends_isConnected_bind ?_))
    refine submit_sends env (reaches_single rfl rfl hk) (fun r => ?_)
    apply sends_ite (sends_pure _)
    cases r.record with
    | none => exact sends_pure _
    | some rec => exact sends_lift_bind (fun msg _ => sends_pure _)
  | cdtGetAsync =>
    apply job_sends env
    refine sends_lift_bind (fun k hk => sends_lift_bind (fun p _ => sends_isConnected_bind ?_))
    exact sends_result (reaches_single rfl rfl (refKey_ok hk))
  | cdtDeleteByKeysSync =>
    refine sends_lift_bind (fun k hk => sends_lift_bind (fun b _ => sends_lift_bind (fun n _ => ?_)))
    apply sends_isConnected_bind
    exact submit_sends env (reaches_single rfl rfl hk)
      (fun r => sends_ite (sends_pure _) (sends_pure _))
  | cdtDeleteByKeysAsync =>
    apply job_sends env
    refine sends_lift_bind (fun k hk => sends_lift_bind (fun b _ => sends_lift_bind (fun n _ => ?_)))
    apply sends_isConnected_bind
    exact sends_result (reaches_single rfl rfl (refKey_ok hk))
  | cdtDeleteByKeysBatchSync ns set bin list => exact batchSync_sends c env ns set bin list
  | cdtDeleteByKeysBatchAsync ref ns set bin tuples =>
    exact batchAsync_sends c env ref ns set bin tuples
  | segmentTagGetSync =>
    refine sends_lift_bind (fun k hk => sends_lift_bind (fun b _ => sends_isConnected_bind ?_))
    refine submit_sends env (reaches_single rfl rfl hk) (fun r => sends_ite (sends_pure _) ?_)
    exact Sends.silent (fun _ => rfl) (fun _ _ _ => trivial)
  | segmentTagGetAsync =>
    apply job_sends env
    refine sends_lift_bind (fun k hk => sends_lift_bind (fun b _ => sends_isConnected_bind ?_))
    exact sends_result (reaches_single rfl rfl (refKey_ok hk))
  | keySelectSync =>
    refine sends_lift_bind (fun k hk => sends_lift_bind (fun n _ => sends_isConnected_bind ?_))
    apply sends_ite (sends_pure _)
    refine sends_lift_bind (fun bins _ => sends_ite (sends_stop _) ?_)
    refine sends_submit_bind (reaches_single rfl rfl hk) (fun r => ?_)
    apply sends_ite (sends_pure _)
    cases r.record with
    | none => exact sends_stop _
    | some rec => exact sends_lift_bind (fun msg _ => sends_pure _)
  | binaryGetSync =>
    refine sends_lift_bind (fun k hk => sends_isConnected_bind ?_)
    exact sends_submit_bind (reaches_single rfl rfl hk) (fun r => answers_send r _)
  | mapPutSync =>
    refine sends_lift_bind (fun k hk => sends_lift_bind (fun b _ => sends_ite (sends_stop _) ?_))
    refine sends_lift_bind (fun pairs _ => sends_isConnected_bind ?_)
    refine sends_lift_bind (fun es _ => sends_lift_bind (fun rec _ => ?_))
    exact sends_submit_bind (reaches_single rfl rfl hk)
      (fun r => sends_ite (sends_pure _) (sends_pure _))
  | keyGetSync =>
    refine sends_lift_bind (fun k hk => sends_isConnected_bind ?_)
    exact sends_submit_bind (reaches_single rfl rfl hk) (fun r => answers_send r _)
  | keyExistsSync =>
    refine sends_lift_bind (fun k hk => sends_isConnected_bind ?_)
    exact sends_submit_bind (reaches_single rfl rfl hk)
      (fun r => sends_ite (sends_pure _) (sends_pure _))
  | keyIncSync =>
    refine sends_lift_bind (fun k hk => sends_lift_bind (fun n _ => sends_isConnected_bind ?_))
    refine sends_ite (sends_pure _) (sends_lift_bind (fun ops _ => ?_))
    exact sends_submit_bind (reaches_single rfl rfl hk) (fun r => sends_pure _)
  | keyGenerationSync =>
    refine sends_lift_bind (fun k hk => sends_isConnected_bind ?_)
    exact sends_submit_bind (reaches_single rfl rfl hk) (fun r => answers_send r _)
  | keyPutSync =>
    refine sends_lift_bind (fun k hk => sends_lift_bind (fun n _ => sends_isConnected_bind ?_))
    refine sends_ite (sends_pure _) (sends_lift_bind (fun rec _ => ?_))
    exact sends_submit_bind (reaches_single rfl rfl hk) (fun r => sends_pure _)
  | binaryPutSync =>
    refine sends_lift_bind (fun k hk => sends_lift_bind (fun n _ => sends_lift_bind (fun t _ => ?_)))
    apply sends_ite (sends_pure _)
    refine sends_isConnected_bind (sends_lift_bind (fun rec _ => ?_))
    exact sends_submit_bind (reaches_single rfl rfl hk) (fun r => sends_pure _)
  | binaryRemoveSync =>
    refine sends_lift_bind (fun k hk => sends_lift_bind (fun n _ => sends_lift_bind (fun t _ => ?_)))
    apply sends_ite (sends_pure _)
    refine sends_isConnected_bind (sends_lift_bind (fun rec _ => ?_))
    exact sends_submit_bind (reaches_single rfl rfl hk) (fun r => sends_pure _)
  | cdtExpireSync => exact sends_pure _
  | keyRemoveSync =>
    refine sends_lift_bind (fun k hk => sends_isConnected_bind ?_)
    exact sends_submit_bind (reaches_single rfl rfl hk) (fun r => sends_pure _)
  | aKeyPutSync bin val ns set key n =>
    refine sends_lift_bind (fun _ _ => sends_lift_bind (fun _ _ => ?_))
    refine sends_lift_bind (fun _ _ => sends_lift_bind (fun k hk => sends_lift_bind (fun _ _ => ?_)))
    apply sends_isConnected_bind
    have hput : ∀ rec, Reaches (.aKeyPutSync bin val ns set key n) (.keyPut k rec) :=
      fun _ => reaches_single rfl rfl hk
    apply (putLoop_sends env (hput _) _ _ _).bind
    intro failed _
    cases failed with
    | some msg => exact sends_pure _
    | none => exact sends_ite (sends_stop _) (sends_pure _)

end Calls

section Comparison
variable {c d : Client} {env env' : Env} {w w' : World}

/-- The call submits a request for a record: the arguments that name it and the
record key the client is given. -/
def Hands (c : Client) (env : Env) (w : World) (x : DataCall) (k : KeyTerms) (v : AsKey) : Prop :=
  ∃ r ∈ (x.body c env w).2.submitted.drop w.submitted.length,
    ∃ i : ℕ, (recordKeys x)[i]? = some k ∧ (requestKeys r)[i]? = some v

theorem hands_read {x : DataCall} {k : KeyTerms} {v : AsKey} (h : Hands c env w x k v) :
    readKey (encodingOf x) k = .ok v := by
  obtain ⟨r,hr,i,hk,hv⟩ := h
  obtain ⟨⟨reqs,hreqs,hall⟩,-⟩ := call_sends c env x w
  rw [hreqs,List.drop_left] at hr
  have hreach := hall r hr
  obtain ⟨hi,hget⟩ := List.getElem?_eq_some_iff.mp hk
  obtain ⟨hj,hget'⟩ := List.getElem?_eq_some_iff.mp hv
  have hpair := hreach.get hi hj
  simp only [List.get_eq_getElem,hget,hget'] at hpair
  exact hpair

theorem readKey_ok {e : Encoding} {k : KeyTerms} {v : AsKey} (h : readKey e k = .ok v) :
    readText e maxNamespaceSize k.nameSpace = some v.nameSpace ∧
      readText e maxSetSize k.set = some v.set ∧ readText e maxKeyStrSize k.key = some v.value := by
  cases e with
  | binary =>
    change binaryKey k.nameSpace k.set k.key = .ok v at h
    unfold binaryKey at h
    cases hn : inspectBinary k.nameSpace with
    | none => rw [hn] at h; cases h
    | some n =>
      cases hs : inspectBinary k.set with
      | none => rw [hn,hs] at h; cases h
      | some s =>
        cases hk : inspectBinary k.key with
        | none => rw [hn,hs,hk] at h; cases h
        | some b =>
          rw [hn,hs,hk] at h
          rw [← Except.ok.inj h]
          simp [readText,hn,hs,hk,asKeyInitStr]
  | characters =>
    change stringKey k.nameSpace k.set k.key = .ok v at h
    unfold stringKey at h
    cases hn : getString maxNamespaceSize k.nameSpace with
    | none => rw [hn] at h; cases h
    | some n =>
      cases hs : getString maxSetSize k.set with
      | none => rw [hn,hs] at h; cases h
      | some s =>
        cases hk : getString maxKeyStrSize k.key with
        | none => rw [hn,hs,hk] at h; cases h
        | some b =>
          rw [hn,hs,hk] at h
          rw [← Except.ok.inj h]
          simp [readText,hn,hs,hk,asKeyInitStr]

/-- Calls of one operation read their keys alike. -/
theorem same_encoding {x y : DataCall} (h : x.ctorIdx = y.ctorIdx) :
    encodingOf x = encodingOf y := by
  have hindex : ∀ x, encodingOf x =
      if x.ctorIdx ∈ [10,13,14,15,16,17,21,22] then .characters else .binary := by
    intro x
    cases x <;> rfl
  rw [hindex,hindex,h]

/-- The namespaces, the sets and the keys are each confused. -/
def ConfusedKeys (e : Encoding) (k l : KeyTerms) : Prop :=
  Confused e maxNamespaceSize k.nameSpace l.nameSpace ∧ Confused e maxSetSize k.set l.set ∧
    Confused e maxKeyStrSize k.key l.key

theorem readKey_eq_iff {e : Encoding} {k l : KeyTerms} {u v : AsKey} (hu : readKey e k = .ok u)
    (hv : readKey e l = .ok v) : u = v ↔ ConfusedKeys e k l := by
  obtain ⟨hun,hus,huk⟩ := readKey_ok hu
  obtain ⟨hvn,hvs,hvk⟩ := readKey_ok hv
  have hfields : u = v ↔ u.nameSpace = v.nameSpace ∧ u.set = v.set ∧ u.value = v.value := by
    cases u
    cases v
    simp
  rw [hfields,readText_eq_iff (by decide) hun hvn,readText_eq_iff (by decide) hus hvs,
    readText_eq_iff (by decide) huk hvk]
  rfl

/-- Two calls of one operation with different record keys. -/
theorem keys_apart_iff {x y : DataCall} (hop : x.ctorIdx = y.ctorIdx) {k l : KeyTerms}
    {u v : AsKey} (hx : Hands c env w x k u) (hy : Hands d env' w' y l v) :
    (k.key ≠ l.key → u ≠ v) ↔ (k.key ≠ l.key → ¬ConfusedKeys (encodingOf x) k l) := by
  have hread := hands_read hy
  rw [← same_encoding hop] at hread
  rw [ne_eq u v,readKey_eq_iff (hands_read hx) hread]

def getCall (key : Bytes) : DataCall := .binaryGetSync (.binary [110]) (.binary [115]) (.binary key)

theorem getCall_hands (key : Bytes) : Hands plainClient plainEnv connectedWorld (getCall key)
    ⟨.binary [110],.binary [115],.binary key⟩ ⟨[110],[115],cStr key⟩ :=
  ⟨.keyGet ⟨[110],[115],cStr key⟩ none,List.mem_cons_self,0,rfl,rfl⟩

theorem short_keys_apart : (⟨[110],[115],cStr [97]⟩ : AsKey) ≠ ⟨[110],[115],cStr [98]⟩ := by
  apply (keys_apart_iff (x := getCall [97]) (y := getCall [98]) rfl (getCall_hands [97])
    (getCall_hands [98])).mpr
  · rintro - ⟨-,-,p,r,s,hp,hq,-,hr,hs⟩
    cases p with
    | nil =>
      have hrest : [97] = r := Term.binary.inj hp
      subst hrest
      exact absurd (hr 97 rfl) (by decide)
    | cons b p =>
      have ha := (List.cons.inj (Term.binary.inj hp)).1
      have hb := (List.cons.inj (Term.binary.inj hq)).1
      rw [← ha] at hb
      exact absurd hb (by decide)
  · intro h
    exact absurd (Term.binary.inj h) (by decide)

/-- A binary key ends at its first zero byte. -/
theorem zero_byte_confuses :
    ¬∀ (c d : Client) (env env' : Env) (w w' : World) (x y : DataCall), x.ctorIdx = y.ctorIdx →
      ∀ (k l : KeyTerms) (u v : AsKey), Hands c env w x k u → Hands d env' w' y l v →
        k.key ≠ l.key → u ≠ v := by
  intro h
  exact h plainClient plainClient plainEnv plainEnv connectedWorld connectedWorld (getCall [97])
    (getCall [97,0]) rfl _ _ _ _ (getCall_hands [97]) (getCall_hands [97,0])
    (fun he => absurd (Term.binary.inj he) (by decide)) rfl

end Comparison

end AspikePort.RecordKeys
