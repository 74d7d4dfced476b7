import AspikePort.GuardedSubmission

/-!
# What a run has done to the connection

Three calls change the connection state: `init_client`, `connect` and
`disconnect`. Every other step stays in its frame, whatever its arguments and
its environment are, so the history of these three decides what a data
operation may submit.
-/

set_option autoImplicit false

namespace AspikePort.ConnectionHistory
open AspikePort.ErlangTerms AspikePort.ClientValues AspikePort.EarlyReturn
open AspikePort.NifWorld AspikePort.SyncCalls AspikePort.CallFrames
open AspikePort.LabelledRuns AspikePort.Lifecycle AspikePort.GuardedSubmission Proc

section Connecting

/-- The arguments of `connect` are not refused. -/
def Accepted (user password : Term) : Prop :=
  (getString asUserSize user).isSome ∧ (getString asPasswordSize password).isSome

def Connects (x : Step) : Prop :=
  ∃ user password, x.2 = .connect user password ∧ Accepted user password ∧
    x.1.connect.1 = aerospikeOk

def FailsToConnect (x : Step) : Prop :=
  ∃ user password, x.2 = .connect user password ∧ Accepted user password ∧
    x.1.connect.1 ≠ aerospikeOk

/-- A `disconnect` that is answered with ok: there is nothing to close, or the
client closes. -/
def Disconnects (v : World × Step) : Prop :=
  v.2.2 = .disconnect ∧ (v.1.isConnectedFlag = true → v.2.1.close.1 = aerospikeOk)

def failedState (w : World) (config : Config) : World :=
  { w with config := config, isConnectedFlag := false, loopsRunning := false,
           accesses := w.accesses ++ List.replicate 2 w.clientLive }

def connectedState (w : World) (config : Config) : World :=
  { w with config := config, isConnectedFlag := true, cluster := true,
           accesses := w.accesses ++ List.replicate 2 w.clientLive }

def disconnectedState (w : World) : World :=
  { w with isConnectedFlag := false, clientLive := false, cluster := false,
           isInitialized := false,
           accesses := w.accesses ++ List.replicate 2 w.clientLive }

theorem connect_refused {env : Env} {user password : Term} {w : World}
    (h : ¬Accepted user password) : connect env user password w = (.error .badarg,w) := by
  unfold connect
  cases hu : getString asUserSize user with
  | none => rfl
  | some u =>
    cases hp : getString asPasswordSize password with
    | none => rfl
    | some p => exact absurd ⟨by simp [hu],by simp [hp]⟩ h

theorem connect_failed {env : Env} {user password : Term} {w : World}
    (h : Accepted user password) (hrc : env.connect.1 ≠ aerospikeOk) :
    ∃ config, connect env user password w =
      (.ok (errorString env.connect.2),failedState w config) := by
  obtain ⟨u,hu⟩ := Option.isSome_iff_exists.mp h.1
  obtain ⟨p,hp⟩ := Option.isSome_iff_exists.mp h.2
  refine ⟨{ w.config with user := (cStr u,cStr p) },?_⟩
  unfold connect
  rw [hu,hp]
  simp only [orBadarg,lift_ok_bind_run,if_pos hrc]
  simp [touchClient,failedState,List.replicate]

theorem connect_succeeded {env : Env} {user password : Term} {w : World}
    (h : Accepted user password) (hrc : env.connect.1 = aerospikeOk) :
    ∃ config, connect env user password w =
      (.ok (makeTuple2 atomOk atomConnected),connectedState w config) := by
  obtain ⟨u,hu⟩ := Option.isSome_iff_exists.mp h.1
  obtain ⟨p,hp⟩ := Option.isSome_iff_exists.mp h.2
  refine ⟨{ w.config with user := (cStr u,cStr p) },?_⟩
  unfold connect
  rw [hu,hp]
  simp only [orBadarg,lift_ok_bind_run,if_neg (not_not.mpr hrc)]
  simp [touchClient,connectedState,List.replicate]

theorem disconnect_idle {env : Env} {w : World} (h : ¬w.isConnectedFlag = true) :
    disconnect env w = (.ok (okString "disconnected"),w) := by
  unfold disconnect
  simp [h]

theorem disconnect_failed {env : Env} {w : World} (h : w.isConnectedFlag = true)
    (hrc : env.close.1 ≠ aerospikeOk) : disconnect env w =
      (.ok (errorString env.close.2),{ w with accesses := w.accesses ++ [w.clientLive] }) := by
  unfold disconnect
  simp [h,hrc,touchClient]

theorem disconnect_closed {env : Env} {w : World} (h : w.isConnectedFlag = true)
    (hrc : env.close.1 = aerospikeOk) :
    disconnect env w = (.ok (okString "disconnected"),disconnectedState w) := by
  unfold disconnect
  simp [h,hrc,touchClient,disconnectedState,List.replicate]

end Connecting

section Footprints
variable {c : Client} {w : World} {x : Step}

/-- The calls that read or write `as` on behalf of no connection. -/
def Touches (w : World) (x : Step) : Prop :=
  match x.2 with
  | .setConnectionsPerNode syncMin syncMax asyncMin asyncMax =>
    (getInt syncMin).isSome ∧ (getInt syncMax).isSome ∧ (getInt asyncMin).isSome ∧
      (getInt asyncMax).isSome
  | .hostAdd host port => (getString maxHostSize host).isSome ∧ (getInt port).isSome
  | .hostClear | .hostList => True
  | .connect user password => Accepted user password
  | .getConnectionsStats => w.statisticsEnabled = true
  | _ => False

def ChangesConnection : Call → Prop
  | .initClient | .connect _ _ | .disconnect => True
  | _ => False

/-- What a step between `w` and `w'` leaves behind, `as` being out of reach of
everything that asks for a connection. -/
def Footprint (w w' : World) (x : Step) : Prop :=
  Extends w w' ∧ (w.isConnectedFlag = false → (w'.accesses = w.accesses ↔ ¬Touches w x))

theorem footprint_idle (h : ¬Touches w x) : Footprint w w x :=
  ⟨Extends.refl w,fun _ => iff_of_true rfl h⟩

theorem footprint_orBadarg {α : Type} {o : Option α} {f : α → Nif Term}
    (hnone : o = none → ¬Touches w x)
    (hsome : ∀ a, o = some a → Footprint w (f a w).2 x) :
    Footprint w ((lift (orBadarg o) >>= f) w).2 x := by
  cases o with
  | none => exact footprint_idle (hnone rfl)
  | some a => exact hsome a rfl

theorem footprint_touch {w' : World} (h : Extends w w') (ht : Touches w x)
    (ha : w'.accesses ≠ w.accesses) : Footprint w w' x :=
  ⟨h,fun _ => iff_of_false ha (not_not.mpr ht)⟩

theorem extends_touched {w' : World} (flag : w'.isConnectedFlag = w.isConnectedFlag)
    (initialized : w'.isInitialized = w.isInitialized)
    (loops : w'.loopsRunning = w.loopsRunning) (live : w'.clientLive = w.clientLive)
    (submitted : w'.submitted = w.submitted)
    (accesses : w'.accesses = w.accesses ++ [w.clientLive]) : Extends w w' :=
  ⟨flag,initialized,loops,live,submitted ▸ List.prefix_rfl,1,accesses⟩

theorem data_footprint {env : Env} {op : DataCall} :
    Footprint w (op.body c env w).2 (env,.data op) := by
  refine ⟨data_extends c env w op,fun hflag => iff_of_true ?_ id⟩
  by_contra hne
  have hconn := changed_connected (fun h => hne (congrArg World.accesses h))
  rw [hflag] at hconn
  cases hconn

/-- Every step that does not change the connection state. -/
theorem next_footprint (h : ¬ChangesConnection x.2) : Footprint w (next c x w) x := by
  obtain ⟨env,call⟩ := x
  cases call with
  | initClient => exact absurd trivial h
  | connect => exact absurd trivial h
  | disconnect => exact absurd trivial h
  | setConnectionsPerNode syncMin syncMax asyncMin asyncMax =>
    apply footprint_orBadarg (fun h => by simp [Touches,h])
    intro a ha
    apply footprint_orBadarg (fun h => by simp [Touches,h])
    intro b hb
    apply footprint_orBadarg (fun h => by simp [Touches,h])
    intro d hd
    apply footprint_orBadarg (fun h => by simp [Touches,h])
    intro e he
    exact footprint_touch (extends_touched rfl rfl rfl rfl rfl rfl)
      (by simp [Touches,ha,hb,hd,he]) (by simp [touchClient])
  | setEventLoopsAmount amount =>
    apply footprint_orBadarg (fun _ => id)
    intro a ha
    exact ⟨⟨rfl,rfl,rfl,rfl,List.prefix_rfl,0,by simp⟩,fun _ => iff_of_true rfl id⟩
  | enableStatisticCollection enabled =>
    apply footprint_orBadarg (fun _ => id)
    intro a ha
    exact ⟨⟨rfl,rfl,rfl,rfl,List.prefix_rfl,0,by simp⟩,fun _ => iff_of_true rfl id⟩
  | hostAdd host port =>
    apply footprint_orBadarg (fun h => by simp [Touches,h])
    intro a ha
    apply footprint_orBadarg (fun h => by simp [Touches,h])
    intro b hb
    cases env.addHosts (cStr a) b with
    | none =>
      exact footprint_touch (extends_touched rfl rfl rfl rfl rfl rfl)
        (by simp [Touches,ha,hb]) (by simp [touchClient])
    | some hosts =>
      exact footprint_touch (extends_touched rfl rfl rfl rfl rfl rfl)
        (by simp [Touches,ha,hb]) (by simp [touchClient])
  | hostClear =>
    exact footprint_touch (extends_touched rfl rfl rfl rfl rfl rfl) trivial
      (by simp [next,Call.body,hostClear,touchClient])
  | hostList =>
    exact footprint_touch (extends_touched rfl rfl rfl rfl rfl rfl) trivial
      (by simp [next,Call.body,hostList,touchClient])
  | isConnected =>
    by_cases hw : w.isConnectedFlag = true
    · have hrun : next c (env,.isConnected) w =
          { w with accesses := w.accesses ++ [w.clientLive] } := by
        by_cases hc : env.clusterIsConnected = true <;>
          simp [next,Call.body,isConnectedCheck,hw,hc,touchClient]
      rw [hrun]
      exact ⟨extends_touched rfl rfl rfl rfl rfl rfl,fun hflag => absurd hw (by simp [hflag])⟩
    · have hrun : next c (env,.isConnected) w = w := by simp [next,Call.body,isConnectedCheck,hw]
      rw [hrun]
      exact footprint_idle id
  | getConnectionsStats =>
    by_cases hs : w.statisticsEnabled = true
    · have hrun : next c (env,.getConnectionsStats) w =
          { w with accesses := w.accesses ++ [w.clientLive],
                   counters := Counters.poll (env.now-2*15) w.counters } := by
        simp [next,Call.body,getConnectionsStats,hs,touchClient]
      rw [hrun]
      exact footprint_touch (extends_touched rfl rfl rfl rfl rfl rfl) hs (by simp)
    · have hrun : next c (env,.getConnectionsStats) w = w := by
        simp [next,Call.body,getConnectionsStats,hs]
      rw [hrun]
      exact footprint_idle hs
  | data op => exact data_footprint
  | completion nodeName =>
    refine ⟨untrackNode_extends nodeName w,fun _ => iff_of_true ?_ id⟩
    change (untrackNode nodeName w).accesses = w.accesses
    unfold untrackNode
    split_ifs <;> rfl

end Footprints

section Transitions

/-- All that a step can do to the connection, the event loops and `as`. -/
inductive Transition (c : Client) (w : World) (x : Step) : World → Prop where
  | initialized (hx : x.2 = .initClient) : Transition c w x (initAerospikeClient c w)
  | connected (hx : Connects x) (config : Config) : Transition c w x (connectedState w config)
  | failed (hx : FailsToConnect x) (config : Config) : Transition c w x (failedState w config)
  | disconnected (hx : x.2 = .disconnect) (hw : w.isConnectedFlag = true)
      (hrc : x.1.close.1 = aerospikeOk) : Transition c w x (disconnectedState w)
  | framed {w' : World} (hc : ¬Connects x) (hf : ¬FailsToConnect x)
      (hd : w.isConnectedFlag = true → ¬Disconnects (w,x)) (h : Footprint w w' x) :
      Transition c w x w'

theorem not_connect {x : Step} (h : ∀ user password, x.2 ≠ .connect user password) :
    ¬Connects x ∧ ¬FailsToConnect x := by
  constructor
  · rintro ⟨user,password,hx,_⟩
    exact h user password hx
  · rintro ⟨user,password,hx,_⟩
    exact h user password hx

theorem next_transition (c : Client) (w : World) (x : Step) : Transition c w x (next c x w) := by
  by_cases hx : ChangesConnection x.2
  · obtain ⟨env,call⟩ := x
    cases call with
    | initClient => exact .initialized rfl
    | connect user password =>
      by_cases ha : Accepted user password
      · by_cases hrc : env.connect.1 = aerospikeOk
        · obtain ⟨config,hrun⟩ := connect_succeeded (w := w) ha hrc
          rw [next,Call.body,hrun]
          exact .connected ⟨user,password,rfl,ha,hrc⟩ config
        · obtain ⟨config,hrun⟩ := connect_failed (w := w) ha hrc
          rw [next,Call.body,hrun]
          exact .failed ⟨user,password,rfl,ha,hrc⟩ config
      · rw [next,Call.body,connect_refused ha]
        refine .framed ?_ ?_ (fun _ h => nomatch h.1) (footprint_idle ha)
        · rintro ⟨_,_,⟨⟩,ha',_⟩
          exact ha ha'
        · rintro ⟨_,_,⟨⟩,ha',_⟩
          exact ha ha'
    | disconnect =>
      obtain ⟨hc,hf⟩ := not_connect (x := (env,.disconnect)) (fun _ _ h => nomatch h)
      by_cases hw : w.isConnectedFlag = true
      · by_cases hrc : env.close.1 = aerospikeOk
        · rw [next,Call.body,disconnect_closed hw hrc]
          exact .disconnected rfl hw hrc
        · rw [next,Call.body,disconnect_failed hw hrc]
          refine .framed hc hf (fun _ hd => hrc (hd.2 hw)) ⟨?_,fun hflag => ?_⟩
          · exact extends_touched rfl rfl rfl rfl rfl rfl
          · exact absurd hw (by simp [hflag])
      · rw [next,Call.body,disconnect_idle hw]
        exact .framed hc hf (fun hw' => absurd hw' hw) (footprint_idle id)
    | _ => exact absurd hx id
  · obtain ⟨hc,hf⟩ := not_connect (x := x) (fun _ _ he => hx (he ▸ trivial))
    refine .framed hc hf ?_ (next_footprint hx)
    rintro - ⟨he,_⟩
    exact hx (he ▸ trivial)

theorem not_fails_of_connects {x : Step} (h : Connects x) : ¬FailsToConnect x := by
  obtain ⟨_,_,_,_,hrc⟩ := h
  rintro ⟨_,_,_,_,hrc'⟩
  exact hrc' hrc

theorem not_disconnects_of_connects {w : World} {x : Step} (h : Connects x) :
    ¬Disconnects (w,x) := by
  obtain ⟨_,_,hx,_⟩ := h
  rintro ⟨hd,_⟩
  rw [hx] at hd
  cases hd

theorem initAerospikeClient_frame (c : Client) (w : World) :
    (initAerospikeClient c w).isConnectedFlag = w.isConnectedFlag ∧
    (initAerospikeClient c w).loopsRunning = w.loopsRunning ∧
    (initAerospikeClient c w).accesses = w.accesses ∧
    (initAerospikeClient c w).isInitialized = true := by
  unfold initAerospikeClient
  split_ifs with h
  · exact ⟨rfl,rfl,rfl,h⟩
  · exact ⟨rfl,rfl,rfl,rfl⟩

end Transitions

section History
variable {c : Client}

/-- A connect has succeeded, and neither a failed connect nor a successful
disconnect has followed it. -/
def LinkUp (vs : List (World × Step)) : Prop :=
  ∃ pre v post, vs = pre ++ v::post ∧ Connects v.2 ∧
    ∀ u ∈ post, ¬FailsToConnect u.2 ∧ ¬Disconnects u

theorem LinkUp.start {vs : List (World × Step)} {v : World × Step} (h : Connects v.2) :
    LinkUp (vs ++ [v]) := ⟨vs,v,[],rfl,h,by simp⟩

theorem LinkUp.snoc {vs : List (World × Step)} {u : World × Step} (h : LinkUp vs)
    (hf : ¬FailsToConnect u.2) (hd : ¬Disconnects u) : LinkUp (vs ++ [u]) := by
  obtain ⟨pre,v,post,rfl,hv,hpost⟩ := h
  refine ⟨pre,v,post ++ [u],by simp,hv,fun y hy => ?_⟩
  rcases List.mem_append.mp hy with hy | hy
  · exact hpost y hy
  · rw [List.mem_singleton.mp hy]
    exact ⟨hf,hd⟩

/-- Where the connected flag can come from. -/
theorem next_flag {w : World} {x : Step} (h : (next c x w).isConnectedFlag = true) :
    Connects x ∨ w.isConnectedFlag = true ∧ ¬FailsToConnect x ∧ ¬Disconnects (w,x) := by
  have ht := next_transition c w x
  generalize next c x w = w' at h ht
  cases ht with
  | initialized hx =>
    obtain ⟨-,hf⟩ := not_connect (x := x) (fun _ _ he => nomatch hx.symm.trans he)
    refine Or.inr ⟨(initAerospikeClient_frame c w).1 ▸ h,hf,?_⟩
    rintro ⟨he,_⟩
    cases hx.symm.trans he
  | connected hx => exact Or.inl hx
  | failed => cases h
  | disconnected => cases h
  | framed hc hf hd hframe =>
    have hw : w.isConnectedFlag = true := hframe.1.flag ▸ h
    exact Or.inr ⟨hw,hf,hd hw⟩

theorem flag_linkUp (xs : List Step) (h : (reached c xs).isConnectedFlag = true) :
    LinkUp (visits (next c) xs (loaded c)) := by
  revert h
  refine run_induction (next c) (s := loaded c)
    (I := fun xs w => w.isConnectedFlag = true → LinkUp (visits (next c) xs (loaded c)))
    ?_ (fun xs x w ih hw h => ?_) xs
  · intro h
    cases h
  · rw [visits_snoc,← hw]
    rcases next_flag h with hx | ⟨hflag,hf,hd⟩
    · exact LinkUp.start hx
    · exact (ih hflag).snoc hf hd

/-- In every state a run can reach, a data operation hands a request to the
client only while a connection that was made has not been lost, and one that
is refused, wherever in its arguments the reason lies, changes no global. -/
theorem data_call_guarded (c : Client) (xs : List Step) (env : Env) (op : DataCall) :
    ((op.body c env (reached c xs)).2.submitted ≠ (reached c xs).submitted →
      LinkUp (visits (next c) xs (loaded c))) ∧
    (Refusal (replyOf (op.body c env (reached c xs)).1) →
      (op.body c env (reached c xs)).2 = reached c xs) := by
  refine ⟨fun h => flag_linkUp xs ?_,refused_unchanged⟩
  exact changed_connected (fun he => h (congrArg World.submitted he))

end History

end AspikePort.ConnectionHistory
