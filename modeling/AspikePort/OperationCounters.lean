import AspikePort.LabelledRuns
import AspikePort.Lifecycle
import AspikePort.Tallies

/-!
# The counters of operations in flight

Operations start and finish in any order while statistics are turned on and
off and polled. What each operation found at its start is kept beside it. The
two global counters are right after every step of a run exactly when every
finish finds the statistics as the start left them.
-/

set_option autoImplicit false

namespace AspikePort.OperationCounters
open AspikePort.ClientValues AspikePort.ErlangTerms AspikePort.EarlyReturn AspikePort.NifWorld
open AspikePort.Lifecycle AspikePort.LabelledRuns AspikePort.Tallies Proc

section Machine

structure Flight where
  world : World
  /-- Whether each operation with a `SyncOperationCounter` was counted at its start. -/
  syncOps : List Bool
  /-- The node name in each `callback_data`; only a tracked operation stores one. -/
  asyncOps : List String

def Flight.start (w : World) : Flight := ⟨{ w with counters := {} },[],[]⟩

def Flight.countedSync (s : Flight) : ℕ := s.syncOps.countP id
def Flight.trackedAsync (s : Flight) : ℕ := s.asyncOps.countP (· ≠ "")

/-- A finish names its operation by the position among those in flight. -/
inductive Event where
  | startSync (env : Env)
  | finishSync (i : ℕ)
  | startAsync (env : Env) (tracked : Option AsKey)
  | finishAsync (i : ℕ)
  | toggle (enabled : Term)
  | poll (env : Env)

def Event.next : Event → Flight → Flight
  | .startSync env, s => { s with
      world := SyncOperationCounter.enter env.now s.world
      syncOps := s.syncOps ++ [s.world.statisticsEnabled] }
  | .finishSync i, s =>
    match s.syncOps[i]? with
    | some _ => { s with
        world := SyncOperationCounter.leave s.world
        syncOps := s.syncOps.eraseIdx i }
    | none => s
  | .startAsync env tracked, s =>
    let r := trackNode env tracked s.world
    { s with world := r.2, asyncOps := s.asyncOps ++ r.1.toOption.toList }
  | .finishAsync i, s =>
    match s.asyncOps[i]? with
    | some nodeName => { s with
        world := untrackNode nodeName s.world
        asyncOps := s.asyncOps.eraseIdx i }
    | none => s
  | .toggle enabled, s => { s with world := (enableStatisticCollection enabled s.world).2 }
  | .poll env, s => { s with world := (getConnectionsStats env s.world).2 }

end Machine

section Effects
variable {env : Env} {w : World}

/-- The node name that the constructor finds for the key. -/
def targetNode (env : Env) (tracked : Option AsKey) (w : World) : String :=
  match tracked with
  | some key => if w.statisticsEnabled ∧ w.isConnectedFlag ∧ w.cluster then env.targetNode key
      else ""
  | none => ""

/-- What the rest of the constructor makes of the name. -/
def trackedCounters (now : ℤ) (name : String) (c : Counters) : Counters :=
  if name = "" then c else c.asyncEnter now name

theorem targetNode_none (tracked : Option AsKey)
    (h : ¬(w.statisticsEnabled = true ∧ w.isConnectedFlag = true)) :
    targetNode env tracked w = "" := by
  cases tracked with
  | none => rfl
  | some key => exact if_neg (fun hall => h ⟨hall.1,hall.2.1⟩)

theorem getTargetNodeForKey_spec (env : Env) (key : AsKey) (w : World) : ∃ accesses,
    getTargetNodeForKey env key w =
      (.ok (targetNode env (some key) w),{ w with accesses := accesses }) := by
  unfold getTargetNodeForKey
  rw [state_bind_run]
  by_cases hc : w.statisticsEnabled = true ∧ w.isConnectedFlag = true
  · have hfound : targetNode env (some key) w = if w.cluster then env.targetNode key else "" := by
      simp [targetNode,hc]
    rw [hfound,if_neg (by simp [hc])]
    exact ⟨w.accesses ++ [w.clientLive],rfl⟩
  · rw [targetNode_none _ hc,if_pos (by rw [← not_and_or]; exact hc)]
    exact ⟨w.accesses,rfl⟩

theorem trackNode_spec (env : Env) (tracked : Option AsKey) (w : World) :
    ∃ accesses, trackNode env tracked w = (.ok (targetNode env tracked w),{ w with
      accesses := accesses
      counters := trackedCounters env.now (targetNode env tracked w) w.counters }) := by
  unfold trackNode
  rw [state_bind_run]
  cases tracked with
  | none => exact ⟨w.accesses,rfl⟩
  | some key =>
    by_cases hs : w.statisticsEnabled = true
    · obtain ⟨accesses,htarget⟩ := getTargetNodeForKey_spec env key w
      refine ⟨accesses,?_⟩
      show (if ¬w.statisticsEnabled = true then _ else _ : Nif String) w = _
      rw [if_neg (not_not_intro hs),bind_run_ok _ htarget]
      unfold trackedCounters
      split_ifs with hname
      · rw [hname]
        rfl
      · rfl
    · rw [targetNode_none _ (fun h => hs h.1)]
      refine ⟨w.accesses,?_⟩
      show (if ¬w.statisticsEnabled = true then pure "" else _ : Nif String) w = _
      rw [if_pos hs]
      rfl

end Effects

section Words
variable {x : UInt32} {n : ℕ}

theorem toNat_succ_iff (x : UInt32) : (x+1).toNat = x.toNat+1 ↔ x.toNat+1 < 2^32 := by
  have hx := x.toNat_lt
  have hone : (1:UInt32).toNat = 1 := rfl
  rw [UInt32.toNat_add,hone]
  constructor
  · intro h
    have hlt := Nat.mod_lt (x.toNat+1) (by decide : 0 < 2^32)
    omega
  · exact Nat.mod_eq_of_lt

theorem toNat_pred (h : 0 < x.toNat) : (x-1).toNat = x.toNat-1 := by
  apply UInt32.toNat_sub_of_le
  rw [UInt32.le_iff_toNat_le]
  exact h

theorem toNat_pred_ne (x : UInt32) : (x-1).toNat ≠ x.toNat := by
  have hx := x.toNat_lt
  have hone : (1:UInt32).toNat = 1 := rfl
  rw [UInt32.toNat_sub,hone]
  omega

theorem toNat_eq_zero_iff : x.toNat = 0 ↔ x = 0 := UInt32.toNat_inj (b := 0)

/-- A start that is counted or not. -/
theorem started_iff (hx : x.toNat = n) (counted : Prop) [Decidable counted] :
    (if counted then x+1 else x).toNat = n + (if counted then 1 else 0) ↔
      (counted → n+1 < 2^32) := by
  by_cases hc : counted
  · rw [if_pos hc,if_pos hc,← hx,toNat_succ_iff]
    exact ⟨fun h _ => h,fun h => h hc⟩
  · rw [if_neg hc,if_neg hc]
    exact iff_of_true hx (fun h => absurd h hc)

/-- A finish that takes one from the counter, of an operation that was counted or not. -/
theorem finished_iff {rest : ℕ} (hx : x.toNat = n) (counted taken : Prop) [Decidable counted]
    [Decidable taken] (hn : n = rest + if counted then 1 else 0) :
    (¬(taken ∧ x = 0) ∧ (if taken then x-1 else x).toNat = rest) ↔ (counted ↔ taken) := by
  rw [← toNat_eq_zero_iff]
  by_cases hc : counted <;> by_cases ht : taken <;> simp only [hc,ht,if_true,if_false] at hn ⊢
  · have hpos : 0 < x.toNat := by omega
    rw [toNat_pred hpos]
    simp
    omega
  · simp
    omega
  · have hne := toNat_pred_ne x
    simp
    omega
  · simp
    omega

end Words

section Accuracy

/-- The operation takes one from a counter that is zero. -/
def Event.Underflows : Event → Flight → Prop
  | .finishSync i, s => ∃ counted, s.syncOps[i]? = some counted ∧
      s.world.statisticsEnabled = true ∧ s.world.counters.syncCurrent = 0
  | .finishAsync i, s => ∃ name, s.asyncOps[i]? = some name ∧ name ≠ "" ∧
      s.world.statisticsEnabled = true ∧ s.world.counters.asyncCurrent = 0
  | _, _ => False

structure Accurate (s : Flight) : Prop where
  sync : s.world.counters.syncCurrent.toNat = s.countedSync
  async : s.world.counters.asyncCurrent.toNat = s.trackedAsync
  sync_idle : s.syncOps = [] → s.world.counters.syncCurrent = 0
  async_idle : s.asyncOps = [] → s.world.counters.asyncCurrent = 0

theorem accurate_iff (s : Flight) : Accurate s ↔
    s.world.counters.syncCurrent.toNat = s.countedSync ∧
      s.world.counters.asyncCurrent.toNat = s.trackedAsync := by
  constructor
  · intro h
    exact ⟨h.sync,h.async⟩
  · rintro ⟨hsync,hasync⟩
    refine ⟨hsync,hasync,?_,?_⟩
    · intro hidle
      apply UInt32.toNat_inj.mp
      rw [hsync,Flight.countedSync,hidle]
      rfl
    · intro hidle
      apply UInt32.toNat_inj.mp
      rw [hasync,Flight.trackedAsync,hidle]
      rfl

theorem start_accurate (w : World) : Accurate (Flight.start w) :=
  (accurate_iff _).mpr ⟨rfl,rfl⟩

/-- A finish finds the statistics as its operation did, and no counter passes
its largest value. -/
def Event.Meets : Event → Flight → Prop
  | .startSync _, s => s.world.statisticsEnabled = true → s.countedSync+1 < 2^32
  | .finishSync i, s => ∀ counted, s.syncOps[i]? = some counted →
      counted = s.world.statisticsEnabled
  | .startAsync env tracked, s => targetNode env tracked s.world ≠ "" → s.trackedAsync+1 < 2^32
  | .finishAsync i, s => ∀ name, s.asyncOps[i]? = some name → name ≠ "" →
      s.world.statisticsEnabled = true
  | .toggle _, _ => True
  | .poll _, _ => True

def Event.isPoll : Event → Bool
  | .poll _ => true
  | _ => false

/-- The step keeps the promise made about the two counters. -/
def Event.Keeps (a : Event) (s : Flight) : Prop := ¬a.Underflows s ∧ Accurate (a.next s)

variable {s : Flight}

@[simp] theorem enter_async (now : ℤ) (w : World) :
    (SyncOperationCounter.enter now w).counters.asyncCurrent = w.counters.asyncCurrent := by
  unfold SyncOperationCounter.enter
  split_ifs
  · simp only []
    split_ifs <;> rfl
  · rfl

@[simp] theorem leave_async (w : World) :
    (SyncOperationCounter.leave w).counters.asyncCurrent = w.counters.asyncCurrent := by
  unfold SyncOperationCounter.leave
  split_ifs <;> rfl

theorem enter_sync (now : ℤ) (w : World) :
    (SyncOperationCounter.enter now w).counters.syncCurrent =
      if w.statisticsEnabled then w.counters.syncCurrent+1 else w.counters.syncCurrent := by
  unfold SyncOperationCounter.enter
  split_ifs
  · simp only []
    split_ifs <;> rfl
  · rfl

theorem leave_sync (w : World) : (SyncOperationCounter.leave w).counters.syncCurrent =
    if w.statisticsEnabled then w.counters.syncCurrent-1 else w.counters.syncCurrent := by
  unfold SyncOperationCounter.leave
  split_ifs <;> rfl

@[simp] theorem asyncEnter_sync (now : ℤ) (name : String) (c : Counters) :
    (c.asyncEnter now name).syncCurrent = c.syncCurrent := by
  unfold Counters.asyncEnter
  simp only []
  split_ifs <;> rfl

@[simp] theorem asyncEnter_async (now : ℤ) (name : String) (c : Counters) :
    (c.asyncEnter now name).asyncCurrent = c.asyncCurrent+1 := by
  unfold Counters.asyncEnter
  simp only []
  split_ifs <;> rfl

theorem startSync_keeps_iff (env : Env) (h : Accurate s) :
    (Event.startSync env).Keeps s ↔ (Event.startSync env).Meets s := by
  have hcount : ((Event.startSync env).next s).countedSync =
      s.countedSync + if s.world.statisticsEnabled then 1 else 0 := by
    simp [Event.next,Flight.countedSync]
  have htracked : ((Event.startSync env).next s).trackedAsync = s.trackedAsync := rfl
  have hstarted := started_iff h.sync (s.world.statisticsEnabled = true)
  unfold Event.Keeps
  rw [accurate_iff,hcount,htracked]
  simp only [Event.next,Event.Underflows,enter_sync,enter_async,not_false_iff,true_and,
    and_iff_left h.async]
  exact hstarted

/-- A step that changes nothing keeps what holds. -/
theorem keeps_of_same {a : Event} (h : Accurate s) (hsame : a.next s = s) (hu : ¬a.Underflows s) :
    a.Keeps s := by
  constructor
  · exact hu
  · rw [hsame]
    exact h

theorem finishSync_keeps_iff (i : ℕ) (h : Accurate s) :
    (Event.finishSync i).Keeps s ↔ (Event.finishSync i).Meets s := by
  cases hget : s.syncOps[i]? with
  | some counted =>
    have hnext : (Event.finishSync i).next s = { s with
        world := SyncOperationCounter.leave s.world
        syncOps := s.syncOps.eraseIdx i } := by simp [Event.next,hget]
    have hunderflows : (Event.finishSync i).Underflows s ↔
        s.world.statisticsEnabled = true ∧ s.world.counters.syncCurrent = 0 := by
      simp [Event.Underflows,hget]
    have hmeets : (Event.finishSync i).Meets s ↔
        (counted = true ↔ s.world.statisticsEnabled = true) := by
      rw [← Bool.eq_iff_iff]
      simp [Event.Meets,hget]
    unfold Event.Keeps
    rw [hnext,hunderflows,hmeets,accurate_iff,leave_sync,leave_async]
    show ¬_ ∧ _ ∧ s.world.counters.asyncCurrent.toNat = s.trackedAsync ↔ _
    rw [and_iff_left h.async]
    exact finished_iff h.sync _ _ (countP_eraseIdx id hget)
  | none =>
    apply iff_of_true
    · exact keeps_of_same h (by simp [Event.next,hget]) (by simp [Event.Underflows,hget])
    · simp [Event.Meets,hget]

theorem startAsync_next (env : Env) (tracked : Option AsKey) (s : Flight) : ∃ accesses,
    (Event.startAsync env tracked).next s = { s with
      world := { s.world with
        accesses := accesses
        counters := trackedCounters env.now (targetNode env tracked s.world) s.world.counters }
      asyncOps := s.asyncOps ++ [targetNode env tracked s.world] } := by
  obtain ⟨accesses,hrun⟩ := trackNode_spec env tracked s.world
  refine ⟨accesses,?_⟩
  show { s with
    world := (trackNode env tracked s.world).2
    asyncOps := s.asyncOps ++ (trackNode env tracked s.world).1.toOption.toList } = _
  rw [hrun]
  rfl

theorem tracked_sync (now : ℤ) (name : String) (c : Counters) :
    (trackedCounters now name c).syncCurrent = c.syncCurrent := by
  unfold trackedCounters
  split_ifs
  · rfl
  · exact asyncEnter_sync now name c

theorem tracked_async (now : ℤ) (name : String) (c : Counters) :
    (trackedCounters now name c).asyncCurrent =
      if name ≠ "" then c.asyncCurrent+1 else c.asyncCurrent := by
  unfold trackedCounters
  by_cases hname : name = ""
  · simp [hname]
  · simp [hname]

/-- The global counter after a start. -/
theorem startAsync_async (env : Env) (tracked : Option AsKey)
    (h : s.world.counters.asyncCurrent.toNat = s.trackedAsync) :
    ((Event.startAsync env tracked).next s).world.counters.asyncCurrent.toNat =
        ((Event.startAsync env tracked).next s).trackedAsync ↔
      (targetNode env tracked s.world ≠ "" → s.trackedAsync+1 < 2^32) := by
  obtain ⟨accesses,hnext⟩ := startAsync_next env tracked s
  have hcount : ((Event.startAsync env tracked).next s).trackedAsync = s.trackedAsync +
      if targetNode env tracked s.world ≠ "" then 1 else 0 := by
    rw [hnext]
    simp [Flight.trackedAsync,List.countP_cons]
  rw [hcount,hnext,tracked_async]
  exact started_iff h _

theorem startAsync_keeps_iff (env : Env) (tracked : Option AsKey) (h : Accurate s) :
    (Event.startAsync env tracked).Keeps s ↔ (Event.startAsync env tracked).Meets s := by
  obtain ⟨accesses,hnext⟩ := startAsync_next env tracked s
  have hunderflows : ¬(Event.startAsync env tracked).Underflows s := not_false
  have hsync : ((Event.startAsync env tracked).next s).world.counters.syncCurrent.toNat =
      ((Event.startAsync env tracked).next s).countedSync := by
    rw [hnext,tracked_sync]
    exact h.sync
  unfold Event.Keeps
  rw [accurate_iff,and_iff_right hunderflows,and_iff_right hsync]
  exact startAsync_async env tracked h.async

theorem untrackNode_async (name : String) (w : World) :
    (untrackNode name w).counters.asyncCurrent =
      if name ≠ "" ∧ w.statisticsEnabled = true then w.counters.asyncCurrent-1
      else w.counters.asyncCurrent := by
  unfold untrackNode
  split_ifs <;> rfl

theorem untrackNode_sync (name : String) (w : World) :
    (untrackNode name w).counters.syncCurrent = w.counters.syncCurrent := by
  unfold untrackNode
  split_ifs <;> rfl

theorem finishAsync_keeps_iff (i : ℕ) (h : Accurate s) :
    (Event.finishAsync i).Keeps s ↔ (Event.finishAsync i).Meets s := by
  cases hget : s.asyncOps[i]? with
  | some name =>
    have hnext : (Event.finishAsync i).next s = { s with
        world := untrackNode name s.world
        asyncOps := s.asyncOps.eraseIdx i } := by simp [Event.next,hget]
    have hunderflows : (Event.finishAsync i).Underflows s ↔
        (name ≠ "" ∧ s.world.statisticsEnabled = true) ∧ s.world.counters.asyncCurrent = 0 := by
      simp [Event.Underflows,hget,and_assoc]
    have hmeets : (Event.finishAsync i).Meets s ↔
        (name ≠ "" ↔ name ≠ "" ∧ s.world.statisticsEnabled = true) := by
      simp [Event.Meets,hget]
    have hcount := countP_eraseIdx (fun n => decide (n ≠ "")) hget
    simp only [decide_eq_true_eq] at hcount
    unfold Event.Keeps
    rw [hnext,hunderflows,hmeets,accurate_iff,untrackNode_sync,untrackNode_async]
    show ¬_ ∧ s.world.counters.syncCurrent.toNat = s.countedSync ∧ _ ↔ _
    rw [and_iff_right h.sync]
    exact finished_iff h.async _ _ hcount
  | none =>
    apply iff_of_true
    · exact keeps_of_same h (by simp [Event.next,hget]) (by simp [Event.Underflows,hget])
    · simp [Event.Meets,hget]

theorem toggle_counters (enabled : Term) (w : World) :
    (enableStatisticCollection enabled w).2.counters = w.counters := by
  unfold enableStatisticCollection
  cases h : getInt enabled <;> rfl

theorem toggle_keeps (enabled : Term) (h : Accurate s) : (Event.toggle enabled).Keeps s := by
  constructor
  · exact not_false
  · rw [accurate_iff]
    simp only [Event.next,toggle_counters]
    exact ⟨h.sync,h.async⟩

theorem keeps_iff_meets (a : Event) (h : Accurate s) (hpoll : ¬a.isPoll = true) :
    a.Keeps s ↔ a.Meets s := by
  cases a with
  | startSync env => exact startSync_keeps_iff env h
  | finishSync i => exact finishSync_keeps_iff i h
  | startAsync env tracked => exact startAsync_keeps_iff env tracked h
  | finishAsync i => exact finishAsync_keeps_iff i h
  | toggle enabled => exact iff_of_true (toggle_keeps enabled h) trivial
  | poll env => exact absurd rfl hpoll

/-- The counters are right after every step exactly when each step finds the
statistics as its operation left them. -/
theorem counters_accurate_iff (w : World) (steps : List Event)
    (hpoll : ∀ a ∈ steps, ¬a.isPoll = true) :
    (∀ v ∈ visits Event.next steps (Flight.start w), v.2.Keeps v.1) ↔
      ∀ v ∈ visits Event.next steps (Flight.start w), v.2.Meets v.1 := by
  apply visits_iff Event.next (I := Accurate) (H := fun _ a => ¬a.isPoll = true)
    (K := fun s a => a.Keeps s) (M := fun s a => a.Meets s)
  · intro s a h hp
    exact keeps_iff_meets a h hp
  · intro s a _ _ hk
    exact hk.2
  · exact start_accurate w
  · intro v hv
    exact hpoll v.2 (label_of_visits Event.next hv)

def countingWorld : World := { connectedWorld with statisticsEnabled := true }

def onNode (name : String) : Env := { plainEnv with targetNode := fun _ => name }

/-- Two kinds of operation overlap, and statistics go off once no counted one is
in flight but the asynchronous one. -/
def overlapping : List Event := [.startSync plainEnv,
  .startAsync (onNode "A") (some ⟨[97],[97],[97]⟩),.finishSync 0,.toggle (.integer 0),
  .startSync plainEnv,.finishSync 0]

theorem overlapping_operations_counted :
    (run Event.next overlapping (Flight.start countingWorld)).trackedAsync = 1 ∧
      ∀ v ∈ visits Event.next overlapping (Flight.start countingWorld), v.2.Keeps v.1 := by
  refine ⟨by decide,(counters_accurate_iff countingWorld overlapping (by decide)).mpr ?_⟩
  simp only [overlapping,visits,List.forall_mem_cons]
  refine ⟨fun _ => by decide,fun _ => by decide,?_,trivial,?_,?_,by simp⟩
  · intro counted h
    exact (Option.some.inj h).symm
  · intro h
    exact absurd h (by decide)
  · intro counted h
    exact (Option.some.inj h).symm

/-- Statistics turned on between the two ends of an operation: the counter
wraps to its largest value with nothing in flight. -/
theorem toggled_wraps : ¬∀ (w : World) (steps : List Event), (∀ a ∈ steps, ¬a.isPoll = true) →
    ∀ v ∈ visits Event.next steps (Flight.start w), v.2.Keeps v.1 := by
  intro hall
  have hkeeps := hall connectedWorld [.startSync plainEnv,.toggle (.integer 1),.finishSync 0]
    (by decide)
  have hlast := (hkeeps _ (List.mem_of_getElem? (i := 2) rfl)).2.sync
  exact absurd hlast (by decide)

end Accuracy

end AspikePort.OperationCounters
