import AspikePort.CdtPut

/-!
# What the part of a call behind its checks may change

Once a call has passed its checks it only counts, submits and reads the
client: it leaves the connection state alone and does not answer with a
refusal. Both facts compose along the body of a procedure.
-/

set_option autoImplicit false

namespace AspikePort.CallFrames
open AspikePort.ErlangTerms AspikePort.ClientValues AspikePort.EarlyReturn
open AspikePort.NifWorld AspikePort.CdtPut Proc

structure Extends (w w' : World) : Prop where
  flag : w'.isConnectedFlag = w.isConnectedFlag
  initialized : w'.isInitialized = w.isInitialized
  loops : w'.loopsRunning = w.loopsRunning
  live : w'.clientLive = w.clientLive
  submitted : w.submitted <+: w'.submitted
  accesses : ∃ n, w'.accesses = w.accesses ++ List.replicate n w.clientLive

theorem Extends.refl (w : World) : Extends w w :=
  ⟨rfl,rfl,rfl,rfl,List.prefix_rfl,0,by simp⟩

theorem Extends.trans {u v w : World} (h : Extends u v) (k : Extends v w) : Extends u w := by
  obtain ⟨n,hn⟩ := h.accesses
  obtain ⟨m,hm⟩ := k.accesses
  refine ⟨k.flag.trans h.flag,k.initialized.trans h.initialized,
    k.loops.trans h.loops,k.live.trans h.live,h.submitted.trans k.submitted,n+m,?_⟩
  rw [hm,hn,h.live,List.append_assoc,List.replicate_append_replicate]

/-- `{error, {3, -1, "not_connected"}}` and badarg. -/
def Refusal : Reply → Prop
  | .badarg => True
  | .term t => t = notConnected
  | .fault _ => False

theorem makeString_ne_tuple (s : String) (ts : List Term) : makeString s ≠ .tuple ts := by
  unfold makeString
  cases s.toList <;> simp [ofList]

theorem makeTuple2_ok_ne (t : Term) : makeTuple2 atomOk t ≠ notConnected := by
  simp [makeTuple2,notConnected,errorTuple,atomOk,atomError]

theorem okString_ne (msg : String) : okString msg ≠ notConnected := makeTuple2_ok_ne _

theorem errorString_ne (msg : String) : errorString msg ≠ notConnected := by
  simp [errorString,makeTuple2,notConnected,errorTuple,makeTuple3,makeString_ne_tuple]

theorem makeNifError_ne (code : ℤ) (msg : String) : makeNifError code msg ≠ notConnected := by
  simp [makeNifError,notConnected,errorTuple,makeTuple2,makeTuple3,nifOk,nifNotConnected]

variable {α β : Type}

/-- A procedure that stays in its frame, leaves only through faults and other
answers that are no refusals, and whose result satisfies `V`. -/
def Acts (p : Nif α) (V : α → Prop) : Prop :=
  ∀ w, Extends w (p w).2 ∧
    match (p w).1 with
    | .ok a => V a
    | .error r => ¬Refusal r

theorem Acts.bind {p : Nif α} {V : α → Prop} {f : α → Nif β} {W : β → Prop}
    (hp : Acts p V) (hf : ∀ a, V a → Acts (f a) W) : Acts (p >>= f) W := by
  intro w
  have hfirst : wp p (fun r t => Extends w t ∧
      match r with | .ok a => V a | .error e => ¬Refusal e) w := hp w
  apply (wp_bind p f (fun r t => Extends w t ∧
    match r with | .ok b => W b | .error e => ¬Refusal e) w).mpr
  apply wp_mono hfirst
  intro r t h
  cases r with
  | ok a =>
    have hrest := hf a h.2 t
    exact ⟨h.1.trans hrest.1,hrest.2⟩
  | error e => exact h

theorem Acts.pure {V : α → Prop} {a : α} (h : V a) : Acts (pure a : Nif α) V :=
  fun w => ⟨Extends.refl w,h⟩

theorem Acts.state : Acts (state : Nif World) (fun _ => True) :=
  fun w => ⟨Extends.refl w,trivial⟩

theorem Acts.update {g : World → World} (h : ∀ w, Extends w (g w)) :
    Acts (update g : Nif Unit) (fun _ => True) := fun w => ⟨h w,trivial⟩

theorem Acts.ite {P : Prop} [Decidable P] {p q : Nif α} {V : α → Prop}
    (hp : Acts p V) (hq : Acts q V) : Acts (if P then p else q) V := by
  split_ifs
  · exact hp
  · exact hq

theorem Acts.fault {x : Except Fault α} : Acts (lift (orFault x) : Nif α) (fun _ => True) := by
  intro w
  cases x with
  | ok a => exact ⟨Extends.refl w,trivial⟩
  | error f => exact ⟨Extends.refl w,id⟩

/-- Any change of the counters stays in the frame. -/
theorem extends_counters (w : World) (counters : Counters) :
    Extends w { w with counters := counters } :=
  ⟨rfl,rfl,rfl,rfl,List.prefix_rfl,0,by simp⟩

theorem acts_touchClient : Acts touchClient (fun _ => True) :=
  Acts.update (fun _ => ⟨rfl,rfl,rfl,rfl,List.prefix_rfl,1,rfl⟩)

theorem acts_submit (env : Env) (req : Request) : Acts (submit env req) (fun _ => True) := by
  apply acts_touchClient.bind
  intro _ _
  refine (Acts.update (fun w => ?_)).bind (fun _ _ => ?_)
  · exact ⟨rfl,rfl,rfl,rfl,List.prefix_append _ _,0,by simp⟩
  · exact Acts.state.bind (fun _ _ => Acts.pure trivial)

theorem syncCounter_enter_extends (now : ℤ) (w : World) :
    Extends w (SyncOperationCounter.enter now w) := by
  unfold SyncOperationCounter.enter
  split_ifs
  · exact extends_counters w _
  · exact Extends.refl w

theorem syncCounter_leave_extends (w : World) : Extends w (SyncOperationCounter.leave w) := by
  unfold SyncOperationCounter.leave
  split_ifs
  · exact extends_counters w _
  · exact Extends.refl w

theorem untrackNode_extends (nodeName : String) (w : World) :
    Extends w (untrackNode nodeName w) := by
  unfold untrackNode
  split_ifs
  · exact extends_counters w _
  · exact Extends.refl w

theorem acts_syncOperationCounter {env : Env} {p : Nif α} {V : α → Prop} (h : Acts p V) :
    Acts (syncOperationCounter env p) V := by
  intro w
  obtain ⟨hext,hres⟩ := h (SyncOperationCounter.enter env.now w)
  exact ⟨((syncCounter_enter_extends env.now w).trans hext).trans (syncCounter_leave_extends _),
    hres⟩

theorem acts_trackNode (env : Env) (tracked : Option AsKey) :
    Acts (trackNode env tracked) (fun _ => True) := by
  apply Acts.state.bind
  intro w _
  cases tracked with
  | none => exact Acts.pure trivial
  | some key =>
    apply Acts.ite (Acts.pure trivial)
    have htarget : Acts (getTargetNodeForKey env key) (fun _ => True) := by
      refine Acts.state.bind (fun w _ => Acts.ite (Acts.pure trivial) ?_)
      exact acts_touchClient.bind (fun _ _ => Acts.pure trivial)
    refine htarget.bind (fun nodeName _ => Acts.ite (Acts.pure trivial) ?_)
    refine (Acts.update (fun w => extends_counters w _)).bind (fun _ _ => Acts.pure trivial)

theorem acts_submitAsync (env : Env) (job : AsyncJob) :
    Acts (submitAsync env job) (· ≠ notConnected) := by
  apply (acts_trackNode env job.tracked).bind
  intro nodeName _
  refine (acts_submit env job.request).bind (fun r _ => Acts.ite ?_ ?_)
  · refine (Acts.update (untrackNode_extends nodeName)).bind (fun _ _ => Acts.pure ?_)
    exact makeNifError_ne _ _
  · exact Acts.pure (makeTuple2_ok_ne _)

end AspikePort.CallFrames
