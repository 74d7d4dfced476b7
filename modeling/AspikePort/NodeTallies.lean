import AspikePort.OperationCounters

/-!
# The tracked operations of every node

While statistics stay on, the entry of each node counts the operations in
flight on it, and the entries add up to the global counter. A poll may clear a
node or the global counter by its peak alone, whether or not anything is still
in flight.
-/

set_option autoImplicit false

namespace AspikePort.NodeTallies
open AspikePort.ClientValues AspikePort.ErlangTerms AspikePort.NifWorld AspikePort.Lifecycle
open AspikePort.LabelledRuns AspikePort.Tallies AspikePort.OperationCounters

section Balance

def nodeSize (n : NodeConnectionStats) : ℕ := n.asyncCurrent.toNat

def nodeTotal (s : Flight) : ℕ := (s.world.counters.nodeStats.map (fun n => nodeSize n.2)).sum

/-- The nodes of the tracked operations in flight. -/
def trackedNames (s : Flight) : List String := s.asyncOps.filter (· ≠ "")

structure Balanced (s : Flight) : Prop where
  global : s.world.counters.asyncCurrent.toNat = s.trackedAsync
  nodes : nodeTotal s = s.trackedAsync

/-- What the counters say is in flight, globally and by node. -/
def inFlight (s : Flight) : UInt32 × List (String × UInt32) :=
  (s.world.counters.asyncCurrent,
    s.world.counters.nodeStats.map (fun n => (n.1,n.2.asyncCurrent)))

def Conserves (a : Event) (s : Flight) : Prop :=
  Balanced (a.next s) ∧ (a.isPoll = true → inFlight (a.next s) = inFlight s)

/-- The test by which a poll at `now` clears a peak. -/
def Outdated (now : ℤ) (peak : UInt32) (ttl : ℤ) : Prop := 0 < peak ∧ ttl < now-2*15

instance (now : ℤ) (peak : UInt32) (ttl : ℤ) : Decidable (Outdated now peak ttl) :=
  inferInstanceAs (Decidable (_ ∧ _))

/-- A poll meets no outdated peak of a node with operations in flight, and no
outdated global peak while any are; no counter passes its largest value. -/
def Timely : Event → Flight → Prop
  | .startAsync env tracked, s => targetNode env tracked s.world ≠ "" → s.trackedAsync+1 < 2^32
  | .poll env, s =>
    (∀ n ∈ s.world.counters.nodeStats, Outdated env.now n.2.asyncPeak n.2.asyncPeakTtl →
      n.1 ∉ trackedNames s) ∧
    (Outdated env.now s.world.counters.asyncPeak s.world.counters.asyncPeakTtl →
      s.trackedAsync = 0)
  | _, _ => True

structure Tallied (s : Flight) : Prop where
  global : s.world.counters.asyncCurrent.toNat = s.trackedAsync
  nodes : Tally nodeSize (trackedNames s) s.world.counters.nodeStats

variable {s : Flight}

theorem trackedAsync_eq (s : Flight) : s.trackedAsync = (trackedNames s).length :=
  List.countP_eq_length_filter

theorem Tallied.balanced (h : Tallied s) : Balanced s := by
  constructor
  · exact h.global
  · rw [trackedAsync_eq]
    exact h.nodes.total

theorem start_tallied (w : World) : Tallied (Flight.start w) := ⟨rfl,tally_nil⟩

theorem tallied_of_same {t : Flight} (h : Tallied s) (hops : t.asyncOps = s.asyncOps)
    (hasync : t.world.counters.asyncCurrent = s.world.counters.asyncCurrent)
    (hnodes : t.world.counters.nodeStats = s.world.counters.nodeStats) : Tallied t := by
  constructor
  · rw [hasync,h.global]
    unfold Flight.trackedAsync
    rw [hops]
  · unfold trackedNames
    rw [hnodes,hops]
    exact h.nodes

end Balance

section Steps
variable {s : Flight}

theorem findNodeStats_isSome (name : String) (nodes : List (String × NodeConnectionStats)) :
    (findNodeStats name nodes).isSome = true ↔ name ∈ keys nodes := by
  unfold findNodeStats keys
  rw [Option.isSome_map,List.find?_isSome,List.mem_map]
  simp

theorem updateNodeStats_eq (name : String) (f : NodeConnectionStats → NodeConnectionStats)
    (nodes : List (String × NodeConnectionStats)) :
    updateNodeStats name f nodes = adjust name f {} nodes := by
  unfold updateNodeStats adjust
  by_cases h : name ∈ keys nodes
  · rw [if_pos h,if_pos ((findNodeStats_isSome name nodes).mpr h)]
  · rw [if_neg h,if_neg (fun hs => h ((findNodeStats_isSome name nodes).mp hs))]

theorem enter_size (now : ℤ) (n : NodeConnectionStats) :
    (n.enter now).asyncCurrent = n.asyncCurrent+1 := by
  unfold NodeConnectionStats.enter
  simp only []
  split_ifs <;> rfl

theorem asyncEnter_nodes (now : ℤ) (name : String) (c : Counters) :
    (c.asyncEnter now name).nodeStats = adjust name (·.enter now) {} c.nodeStats := by
  rw [← updateNodeStats_eq]
  unfold Counters.asyncEnter
  simp only []
  split_ifs <;> rfl

theorem tally_start {xs : List String} {l : List (String × NodeConnectionStats)} (now : ℤ)
    (name : String) (h : Tally nodeSize xs l) (hlt : xs.length+1 < 2^32) :
    Tally nodeSize (xs ++ [name]) (adjust name (·.enter now) {} l) := by
  have hadd : ∀ n, nodeSize n = xs.count name → nodeSize (n.enter now) = nodeSize n+1 := by
    intro n hn
    have hle := List.count_le_length (a := name) (l := xs)
    unfold nodeSize at hn ⊢
    rw [enter_size,toNat_succ_iff]
    omega
  exact (h.enter rfl hadd).perm (List.perm_append_singleton name xs).symm

theorem tally_finish {xs : List String} {l : List (String × NodeConnectionStats)}
    (name : String) (h : Tally nodeSize (name::xs) l) :
    Tally nodeSize xs (adjust name (·.leave) {} l) :=
  h.leave (fun _ hpos => toNat_pred hpos)

theorem names_snoc (ops : List String) (name : String) : (ops ++ [name]).filter (· ≠ "") =
    ops.filter (· ≠ "") ++ if name = "" then [] else [name] := by
  by_cases hname : name = "" <;> simp [hname]

theorem startAsync_tallied {env : Env} {tracked : Option AsKey} (h : Tallied s)
    (ht : Timely (.startAsync env tracked) s) :
    Tallied ((Event.startAsync env tracked).next s) := by
  have hglobal := (startAsync_async env tracked h.global).mpr ht
  obtain ⟨accesses,hnext⟩ := startAsync_next env tracked s
  rw [hnext] at hglobal ⊢
  constructor
  · exact hglobal
  · show Tally nodeSize ((s.asyncOps ++ [_]).filter (· ≠ "")) (trackedCounters _ _ _).nodeStats
    rw [names_snoc]
    unfold trackedCounters
    by_cases hname : targetNode env tracked s.world = ""
    · rw [if_pos hname,if_pos hname,List.append_nil]
      exact h.nodes
    · have hlt := ht hname
      rw [trackedAsync_eq] at hlt
      rw [if_neg hname,if_neg hname,asyncEnter_nodes]
      exact tally_start env.now _ h.nodes hlt

theorem startAsync_conserves_iff (env : Env) (tracked : Option AsKey) (h : Tallied s) :
    Conserves (.startAsync env tracked) s ↔ Timely (.startAsync env tracked) s := by
  constructor
  · intro hc
    exact (startAsync_async env tracked h.global).mp hc.1.global
  · intro ht
    exact ⟨(startAsync_tallied h ht).balanced,fun hp => by cases hp⟩

theorem finishAsync_tallied (i : ℕ) (h : Tallied s) (hs : s.world.statisticsEnabled = true) :
    Tallied ((Event.finishAsync i).next s) := by
  cases hget : s.asyncOps[i]? with
  | none =>
    have hsame : (Event.finishAsync i).next s = s := by simp [Event.next,hget]
    rw [hsame]
    exact h
  | some name =>
    have hnext : (Event.finishAsync i).next s = { s with
        world := untrackNode name s.world
        asyncOps := s.asyncOps.eraseIdx i } := by simp [Event.next,hget]
    have hcount := countP_eraseIdx (fun n => decide (n ≠ "")) hget
    have hperm := (perm_eraseIdx hget).filter (fun n => decide (n ≠ ""))
    have hglobal := h.global
    unfold Flight.trackedAsync at hglobal
    rw [hcount] at hglobal
    rw [List.filter_cons] at hperm
    rw [hnext]
    by_cases hname : name = ""
    · have hsame : untrackNode name s.world = s.world := by simp [untrackNode,hname]
      rw [if_neg (by simp [hname])] at hglobal hperm
      rw [hsame]
      exact ⟨hglobal,h.nodes.perm hperm.symm⟩
    · have hleft : untrackNode name s.world =
          { s.world with counters := s.world.counters.asyncLeave name } := by
        simp [untrackNode,hname,hs]
      rw [if_pos (by simp [hname])] at hglobal hperm
      rw [hleft]
      constructor
      · have hpred := toNat_pred (x := s.world.counters.asyncCurrent) (by omega)
        show (s.world.counters.asyncCurrent-1).toNat = (s.asyncOps.eraseIdx i).countP (· ≠ "")
        rw [hpred]
        omega
      · show Tally nodeSize _ (updateNodeStats name (·.leave) s.world.counters.nodeStats)
        rw [updateNodeStats_eq]
        exact tally_finish name (h.nodes.perm hperm.symm)

end Steps

section Polls
variable {s : Flight}

def clearedNode (now : ℤ) (n : String × NodeConnectionStats) : String × NodeConnectionStats :=
  if Outdated now n.2.asyncPeak n.2.asyncPeakTtl then
    (n.1,{ n.2 with asyncCurrent := 0, asyncPeak := 0 })
  else n

theorem clearedNode_name (now : ℤ) (n : String × NodeConnectionStats) :
    (clearedNode now n).1 = n.1 := by
  unfold clearedNode
  split_ifs <;> rfl

theorem poll_next (env : Env) (hs : s.world.statisticsEnabled = true) :
    ∃ accesses, (Event.poll env).next s = { s with
      world := { s.world with
        accesses := accesses
        counters := Counters.poll (env.now-2*15) s.world.counters } } := by
  refine ⟨s.world.accesses ++ [s.world.clientLive],?_⟩
  show { s with world := (getConnectionsStats env s.world).2 } = _
  unfold getConnectionsStats
  rw [EarlyReturn.Proc.state_bind_run,if_neg (not_not_intro hs)]
  rfl

theorem poll_nodes (now : ℤ) (c : Counters) :
    (Counters.poll (now-2*15) c).nodeStats = c.nodeStats.map (clearedNode now) := by
  unfold Counters.poll
  simp only []
  split_ifs <;> rfl

theorem poll_async (now : ℤ) (c : Counters) : (Counters.poll (now-2*15) c).asyncCurrent =
    if Outdated now c.asyncPeak c.asyncPeakTtl then 0 else c.asyncCurrent := by
  by_cases h : Outdated now c.asyncPeak c.asyncPeakTtl
  · rw [if_pos h]
    unfold Counters.poll
    exact congrArg Counters.asyncCurrent (if_pos h)
  · have hpeak : ¬(0 < c.asyncPeak ∧ c.asyncPeakTtl < now-2*15) := h
    rw [if_neg h]
    unfold Counters.poll
    simp only []
    rw [if_neg hpeak]
    split_ifs <;> rfl

theorem clearedNode_size_le (now : ℤ) (n : String × NodeConnectionStats) :
    nodeSize (clearedNode now n).2 ≤ nodeSize n.2 := by
  unfold clearedNode
  split_ifs
  · exact Nat.zero_le _
  · exact le_rfl

theorem clearedNode_same {now : ℤ} {n : String × NodeConnectionStats}
    (h : Outdated now n.2.asyncPeak n.2.asyncPeakTtl → nodeSize n.2 = 0) :
    (clearedNode now n).2.asyncCurrent = n.2.asyncCurrent := by
  unfold clearedNode
  split_ifs with hout
  · exact (toNat_eq_zero_iff.mp (h hout)).symm
  · rfl

theorem not_mem_iff_empty {n : String × NodeConnectionStats} (h : Tallied s)
    (hn : n ∈ s.world.counters.nodeStats) : n.1 ∉ trackedNames s ↔ nodeSize n.2 = 0 := by
  rw [h.nodes.counts n hn,List.count_eq_zero]

theorem poll_tallied {env : Env} (h : Tallied s) (hs : s.world.statisticsEnabled = true)
    (ht : Timely (.poll env) s) : Tallied ((Event.poll env).next s) ∧
      inFlight ((Event.poll env).next s) = inFlight s := by
  obtain ⟨accesses,hnext⟩ := poll_next env hs
  rw [hnext]
  have hnodes : ∀ n ∈ s.world.counters.nodeStats,
      (clearedNode env.now n).2.asyncCurrent = n.2.asyncCurrent := by
    intro n hn
    exact clearedNode_same (fun hout => (not_mem_iff_empty h hn).mp (ht.1 n hn hout))
  have hasync : (Counters.poll (env.now-2*15) s.world.counters).asyncCurrent =
      s.world.counters.asyncCurrent := by
    rw [poll_async]
    split_ifs with hout
    · apply UInt32.toNat_inj.mp
      rw [h.global,ht.2 hout]
      rfl
    · rfl
  constructor
  · constructor
    · show (Counters.poll (env.now-2*15) s.world.counters).asyncCurrent.toNat = s.trackedAsync
      rw [hasync]
      exact h.global
    · show Tally nodeSize (trackedNames s) (Counters.poll (env.now-2*15) s.world.counters).nodeStats
      rw [poll_nodes]
      apply h.nodes.clear (clearedNode_name env.now)
      intro n hn
      exact congrArg UInt32.toNat (hnodes n hn)
  · unfold inFlight
    apply Prod.ext
    · exact hasync
    · show (Counters.poll (env.now-2*15) s.world.counters).nodeStats.map _ = _
      rw [poll_nodes,List.map_map]
      apply List.map_congr_left
      intro n hn
      apply Prod.ext
      · exact clearedNode_name env.now n
      · exact hnodes n hn

theorem poll_conserves_iff (env : Env) (h : Tallied s) (hs : s.world.statisticsEnabled = true) :
    Conserves (.poll env) s ↔ Timely (.poll env) s := by
  constructor
  · intro hc
    obtain ⟨accesses,hnext⟩ := poll_next env hs
    have hnodes := hc.1.nodes
    have hglobal := hc.1.global
    rw [hnext] at hnodes hglobal
    change ((Counters.poll (env.now-2*15) s.world.counters).nodeStats.map
      (fun n => nodeSize n.2)).sum = s.trackedAsync at hnodes
    change (Counters.poll (env.now-2*15) s.world.counters).asyncCurrent.toNat =
      s.trackedAsync at hglobal
    rw [poll_nodes,trackedAsync_eq] at hnodes
    rw [poll_async] at hglobal
    constructor
    · intro n hn hout
      by_contra hin
      have hcleared : nodeSize (clearedNode env.now n).2 = 0 := by
        unfold clearedNode
        rw [if_pos hout]
        rfl
      have hpos : nodeSize (clearedNode env.now n).2 < nodeSize n.2 := by
        rw [hcleared]
        have hne := mt (not_mem_iff_empty h hn).mpr (not_not_intro hin)
        omega
      have hlt := h.nodes.clear_lt (clearedNode_size_le env.now) hn hpos
      omega
    · intro hout
      rw [if_pos hout] at hglobal
      exact hglobal.symm
  · intro ht
    obtain ⟨htallied,hsame⟩ := poll_tallied h hs ht
    exact ⟨htallied.balanced,fun _ => hsame⟩

end Polls

section Runs
variable {s : Flight}

theorem startSync_tallied (env : Env) (h : Tallied s) :
    Tallied ((Event.startSync env).next s) := by
  apply tallied_of_same (t := (Event.startSync env).next s) h rfl (enter_async env.now s.world)
  show (SyncOperationCounter.enter env.now s.world).counters.nodeStats = _
  unfold SyncOperationCounter.enter
  split_ifs
  · simp only []
    split_ifs <;> rfl
  · rfl

theorem finishSync_tallied (i : ℕ) (h : Tallied s) : Tallied ((Event.finishSync i).next s) := by
  have hnodes : (SyncOperationCounter.leave s.world).counters.nodeStats =
      s.world.counters.nodeStats := by
    unfold SyncOperationCounter.leave
    split_ifs <;> rfl
  cases hget : s.syncOps[i]? with
  | some _ =>
    have hnext : (Event.finishSync i).next s = { s with
        world := SyncOperationCounter.leave s.world
        syncOps := s.syncOps.eraseIdx i } := by simp [Event.next,hget]
    rw [hnext]
    exact tallied_of_same h rfl (leave_async s.world) hnodes
  | none =>
    have hsame : (Event.finishSync i).next s = s := by simp [Event.next,hget]
    rw [hsame]
    exact h

theorem toggle_tallied (enabled : Term) (h : Tallied s) :
    Tallied ((Event.toggle enabled).next s) := by
  have hsame := toggle_counters enabled s.world
  exact tallied_of_same h rfl (congrArg (·.asyncCurrent) hsame) (congrArg (·.nodeStats) hsame)

theorem timely_tallied {a : Event} (h : Tallied s) (hs : s.world.statisticsEnabled = true)
    (ht : Timely a s) : Tallied (a.next s) := by
  cases a with
  | startSync env => exact startSync_tallied env h
  | finishSync i => exact finishSync_tallied i h
  | startAsync env tracked => exact startAsync_tallied h ht
  | finishAsync i => exact finishAsync_tallied i h hs
  | toggle enabled => exact toggle_tallied enabled h
  | poll env => exact (poll_tallied h hs ht).1

theorem conserves_quiet {a : Event} (h : Tallied (a.next s)) (hp : a.isPoll = false)
    (ht : Timely a s) : Conserves a s ↔ Timely a s := by
  apply iff_of_true
  · constructor
    · exact h.balanced
    · intro hpoll
      rw [hp] at hpoll
      cases hpoll
  · exact ht

theorem conserves_iff_timely {a : Event} (h : Tallied s) (hs : s.world.statisticsEnabled = true) :
    Conserves a s ↔ Timely a s := by
  cases a with
  | startAsync env tracked => exact startAsync_conserves_iff env tracked h
  | poll env => exact poll_conserves_iff env h hs
  | startSync env => exact conserves_quiet (startSync_tallied env h) rfl trivial
  | finishSync i => exact conserves_quiet (finishSync_tallied i h) rfl trivial
  | finishAsync i => exact conserves_quiet (finishAsync_tallied i h hs) rfl trivial
  | toggle enabled => exact conserves_quiet (toggle_tallied enabled h) rfl trivial

/-- While statistics stay on, the counters agree after every step and no poll
changes them exactly when each poll is timely. -/
theorem tallies_conserved_iff (w : World) (events : List Event)
    (hs : ∀ v ∈ visits Event.next events (Flight.start w), v.1.world.statisticsEnabled = true) :
    (∀ v ∈ visits Event.next events (Flight.start w), Conserves v.2 v.1) ↔
      ∀ v ∈ visits Event.next events (Flight.start w), Timely v.2 v.1 := by
  apply visits_iff Event.next (I := Tallied) (H := fun s _ => s.world.statisticsEnabled = true)
    (K := fun s a => Conserves a s) (M := fun s a => Timely a s)
  · intro s a h hs
    exact conserves_iff_timely h hs
  · intro s a h hs hc
    exact timely_tallied h hs ((conserves_iff_timely h hs).mp hc)
  · exact start_tallied w
  · exact hs

def clock : Event → Option ℤ
  | .startSync env => some env.now
  | .startAsync env _ => some env.now
  | .poll env => some env.now
  | _ => none

def onNodeAt (name : String) (now : ℤ) : Env := { onNode name with now := now }

def someKey : AsKey := ⟨[97],[97],[97]⟩

/-- Two nodes, polled while their operations are in flight and long after. -/
def polledInTime : List Event := [.startAsync (onNodeAt "A" 0) (some someKey),
  .startAsync (onNodeAt "B" 5) (some someKey),.poll (onNodeAt "" 40),.finishAsync 0,
  .finishAsync 0,.poll (onNodeAt "" 100)]

theorem polled_in_time_conserved :
    inFlight (run Event.next polledInTime (Flight.start countingWorld)) = (0,[("A",0),("B",0)]) ∧
      ∀ v ∈ visits Event.next polledInTime (Flight.start countingWorld), Conserves v.2 v.1 := by
  refine ⟨by decide,(tallies_conserved_iff countingWorld polledInTime (by decide)).mpr ?_⟩
  simp only [polledInTime,visits,List.forall_mem_cons]
  refine ⟨fun _ => by decide,fun _ => by decide,?_,trivial,trivial,?_,by simp⟩
  · unfold Timely
    decide
  · unfold Timely
    decide

/-- A poll half a minute after the peak has passed its time clears the counters
of an operation that is still in flight. -/
theorem long_operation_forgotten : ¬∀ (w : World) (events : List Event),
    (events.filterMap clock).Pairwise (· ≤ ·) →
    (∀ v ∈ visits Event.next events (Flight.start w), v.1.world.statisticsEnabled = true) →
    ∀ v ∈ visits Event.next events (Flight.start w), Conserves v.2 v.1 := by
  intro hall
  have hconserves := hall countingWorld
    [.startAsync (onNodeAt "A" 0) (some someKey),.poll (onNodeAt "A" 46)] (by decide)
    (by decide)
  have hlast := (hconserves _ (List.mem_of_getElem? (i := 1) rfl)).1.global
  exact absurd hlast (by decide)

end Runs

end AspikePort.NodeTallies
