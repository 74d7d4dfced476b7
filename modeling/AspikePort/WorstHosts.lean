import AspikePort.Lifecycle
import Mathlib.Data.Finmap

/-!
# The worst host in any order

A poll visits the statistics of the nodes in whatever order the map has them,
keeps the first largest peak with the current counter beside it and clears
what is outdated on the way. The peak and what is left in the map do not
depend on the order; the counter does when peaks are equal.
-/

set_option autoImplicit false

namespace AspikePort.WorstHosts
open AspikePort.NifWorld AspikePort.Lifecycle AspikePort.LabelledRuns

section Loop

/-- An entry may hold no statistics. -/
abbrev NodeStatsMap := Finmap (fun _ : String => Option NodeConnectionStats)

structure Visit where
  hostAsyncCurrentMax : UInt32
  hostAsyncPeakMax : UInt32
  nodes : NodeStatsMap

def Visit.worst (v : Visit) : UInt32 × UInt32 := (v.hostAsyncCurrentMax,v.hostAsyncPeakMax)

def clearOutdated (outdatedTs : ℤ) (stats : NodeConnectionStats) : NodeConnectionStats :=
  if 0 < stats.asyncPeak ∧ stats.asyncPeakTtl < outdatedTs then
    { stats with asyncCurrent := 0, asyncPeak := 0 }
  else stats

def visit (outdatedTs : ℤ) (name : String) (v : Visit) : Visit :=
  match v.nodes.lookup name with
  | some (some stats) =>
    let v := if v.hostAsyncPeakMax < stats.asyncPeak then
        { v with hostAsyncCurrentMax := stats.asyncCurrent, hostAsyncPeakMax := stats.asyncPeak }
      else v
    { v with nodes := v.nodes.insert name (some (clearOutdated outdatedTs stats)) }
  | _ => v

def visitAll (outdatedTs : ℤ) (order : List String) (nodes : NodeStatsMap) : Visit :=
  run (visit outdatedTs) order ⟨0,0,nodes⟩

/-- Every entry is visited once. -/
def Visits (order : List String) (nodes : NodeStatsMap) : Prop :=
  order.Nodup ∧ ∀ name, name ∈ order ↔ name ∈ nodes

end Loop

section Invariant
variable {outdatedTs : ℤ} {nodes : NodeStatsMap}

/-- What the loop has made of the entries visited so far. -/
structure Visited (outdatedTs : ℤ) (nodes : NodeStatsMap) (done : List String) (v : Visit) :
    Prop where
  left : ∀ name, v.nodes.lookup name =
    if name ∈ done then (nodes.lookup name).map (·.map (clearOutdated outdatedTs))
    else nodes.lookup name
  bound : ∀ name ∈ done, ∀ stats, nodes.lookup name = some (some stats) →
    stats.asyncPeak ≤ v.hostAsyncPeakMax
  attained : v.worst = (0,0) ∨ 0 < v.hostAsyncPeakMax ∧ ∃ name stats,
    nodes.lookup name = some (some stats) ∧ v.worst = (stats.asyncCurrent,stats.asyncPeak)

theorem visited_start : Visited outdatedTs nodes [] ⟨0,0,nodes⟩ := by
  refine ⟨?_,?_,Or.inl rfl⟩
  · intro name
    exact (if_neg List.not_mem_nil).symm
  · intro name h
    exact absurd h List.not_mem_nil

/-- A visit of an entry that holds statistics. -/
theorem visit_stats (outdatedTs : ℤ) {name : String} {v : Visit} {stats : NodeConnectionStats}
    (h : v.nodes.lookup name = some (some stats)) :
    (visit outdatedTs name v).worst =
        (if v.hostAsyncPeakMax < stats.asyncPeak then (stats.asyncCurrent,stats.asyncPeak)
          else v.worst) ∧
      (visit outdatedTs name v).nodes =
        v.nodes.insert name (some (clearOutdated outdatedTs stats)) := by
  unfold visit
  simp only [h]
  split_ifs <;> exact ⟨rfl,rfl⟩

theorem visit_missing {name : String} {v : Visit}
    (h : ∀ stats, v.nodes.lookup name ≠ some (some stats)) : visit outdatedTs name v = v := by
  unfold visit
  split
  · next stats heq => exact absurd heq (h stats)
  · rfl

variable {done : List String} {v : Visit} {name : String}

theorem Visited.visit_stats (h : Visited outdatedTs nodes done v) (hnew : name ∉ done)
    {stats : NodeConnectionStats} (hget : nodes.lookup name = some (some stats)) :
    Visited outdatedTs nodes (done ++ [name]) (visit outdatedTs name v) := by
  have hnow : v.nodes.lookup name = some (some stats) := by
    rw [h.left,if_neg hnew,hget]
  obtain ⟨hworst,hnodes⟩ := WorstHosts.visit_stats outdatedTs hnow
  have hpeak : (visit outdatedTs name v).hostAsyncPeakMax =
      if v.hostAsyncPeakMax < stats.asyncPeak then stats.asyncPeak else v.hostAsyncPeakMax := by
    have hsnd := congrArg Prod.snd hworst
    rw [apply_ite Prod.snd] at hsnd
    exact hsnd
  constructor
  · intro other
    rw [hnodes]
    by_cases hother : other = name
    · subst hother
      rw [Finmap.lookup_insert,if_pos (by simp),hget]
      rfl
    · rw [Finmap.lookup_insert_of_ne _ hother,h.left]
      simp [hother]
  · intro other hmem found hfound
    rw [hpeak]
    rcases List.mem_append.mp hmem with hmem | hmem
    · have hle := h.bound other hmem found hfound
      split_ifs with hlt
      · exact UInt32.le_trans hle (UInt32.le_of_lt hlt)
      · exact hle
    · rw [List.mem_singleton.mp hmem,hget] at hfound
      cases hfound
      split_ifs with hlt
      · exact UInt32.le_refl _
      · exact UInt32.not_lt.mp hlt
  · rw [hworst,hpeak]
    split_ifs with hlt
    · exact Or.inr ⟨UInt32.lt_of_le_of_lt UInt32.zero_le hlt,name,stats,hget,rfl⟩
    · exact h.attained

theorem Visited.visit (h : Visited outdatedTs nodes done v) (hnew : name ∉ done) :
    Visited outdatedTs nodes (done ++ [name]) (visit outdatedTs name v) := by
  by_cases hget : ∃ stats, nodes.lookup name = some (some stats)
  · obtain ⟨stats,hget⟩ := hget
    exact h.visit_stats hnew hget
  · have hnone : ∀ stats, nodes.lookup name ≠ some (some stats) :=
      fun stats hstats => hget ⟨stats,hstats⟩
    rw [visit_missing (by rw [h.left,if_neg hnew]; exact hnone)]
    refine ⟨?_,?_,h.attained⟩
    · intro other
      rw [h.left]
      by_cases hother : other = name
      · subst hother
        rw [if_neg hnew,if_pos (by simp)]
        cases hlookup : nodes.lookup other with
        | none => rfl
        | some o =>
          cases o with
          | none => rfl
          | some stats => exact absurd hlookup (hnone stats)
      · simp [hother]
    · intro other hmem found hfound
      rcases List.mem_append.mp hmem with hmem | hmem
      · exact h.bound other hmem found hfound
      · rw [List.mem_singleton.mp hmem] at hfound
        exact absurd hfound (hnone found)

theorem visited_all (outdatedTs : ℤ) (nodes : NodeStatsMap) (order : List String) (h : order.Nodup) :
    Visited outdatedTs nodes order (visitAll outdatedTs order nodes) := by
  apply run_induction (WorstHosts.visit outdatedTs) (I := fun done v => done.Nodup →
    Visited outdatedTs nodes done v) (fun _ => visited_start) ?_ order h
  intro done name v ih _ hnodup
  rw [List.nodup_append_comm,List.singleton_append,List.nodup_cons] at hnodup
  exact (ih hnodup.2).visit hnodup.1

end Invariant

section Orders
variable {outdatedTs : ℤ} {nodes : NodeStatsMap} {order order' : List String}

/-- The peak is the largest of all nodes; a pair other than zeros is that of a node. -/
def IsWorst (nodes : NodeStatsMap) (worst : UInt32 × UInt32) : Prop :=
  (∀ name stats, nodes.lookup name = some (some stats) → stats.asyncPeak ≤ worst.2) ∧
  (worst = (0,0) ∨ 0 < worst.2 ∧ ∃ name stats, nodes.lookup name = some (some stats) ∧
    worst = (stats.asyncCurrent,stats.asyncPeak))

theorem visitAll_worst (outdatedTs : ℤ) (h : Visits order nodes) :
    IsWorst nodes (visitAll outdatedTs order nodes).worst := by
  have hall := visited_all outdatedTs nodes order h.1
  constructor
  · intro name stats hget
    exact hall.bound name ((h.2 name).mpr (Finmap.mem_of_lookup_eq_some hget)) stats hget
  · exact hall.attained

theorem IsWorst.peak_le {worst worst' : UInt32 × UInt32} (h : IsWorst nodes worst)
    (h' : IsWorst nodes worst') : worst.2 ≤ worst'.2 := by
  rcases h.2 with hzero | ⟨_,name,stats,hget,hpair⟩
  · rw [hzero]
    exact UInt32.zero_le
  · rw [hpair]
    exact h'.1 name stats hget

theorem visitAll_left (h : Visits order nodes) (name : String) :
    (visitAll outdatedTs order nodes).nodes.lookup name =
      (nodes.lookup name).map (·.map (clearOutdated outdatedTs)) := by
  rw [(visited_all outdatedTs nodes order h.1).left name]
  by_cases hmem : name ∈ order
  · rw [if_pos hmem]
  · have hnone : nodes.lookup name = none :=
      Finmap.lookup_eq_none.mpr (fun hn => hmem ((h.2 name).mpr hn))
    rw [if_neg hmem,hnone]
    rfl

/-- The nodes of the largest peak have one current counter. -/
def Agrees (nodes : NodeStatsMap) (peak : UInt32) : Prop :=
  ∀ name stats other stats', nodes.lookup name = some (some stats) →
    nodes.lookup other = some (some stats') → stats.asyncPeak = peak → stats'.asyncPeak = peak →
    stats.asyncCurrent = stats'.asyncCurrent

theorem IsWorst.unique {worst worst' : UInt32 × UInt32} (h : IsWorst nodes worst)
    (h' : IsWorst nodes worst') (hagree : Agrees nodes worst.2) : worst = worst' := by
  have hpeak : worst.2 = worst'.2 := UInt32.le_antisymm (h.peak_le h') (h'.peak_le h)
  rcases h.2 with hzero | ⟨hpos,name,stats,hget,hpair⟩
  · rcases h'.2 with hzero' | ⟨hpos',_⟩
    · rw [hzero,hzero']
    · rw [← hpeak,hzero] at hpos'
      exact absurd hpos' (by decide)
  · rcases h'.2 with hzero' | ⟨_,other,stats',hget',hpair'⟩
    · rw [hpeak,hzero'] at hpos
      exact absurd hpos (by decide)
    · have hcurrent := hagree name stats other stats' hget hget' (congrArg Prod.snd hpair).symm
        (by rw [hpeak]; exact (congrArg Prod.snd hpair').symm)
      apply Prod.ext
      · rw [hpair,hpair']
        exact hcurrent
      · exact hpeak

/-- In two orders a poll reports one peak and leaves the same statistics. -/
theorem worst_peak_unordered (outdatedTs : ℤ) (nodes : NodeStatsMap)
    (h : Visits order nodes) (h' : Visits order' nodes) :
    (visitAll outdatedTs order nodes).worst.2 = (visitAll outdatedTs order' nodes).worst.2 ∧
    IsWorst nodes (visitAll outdatedTs order nodes).worst ∧
    (Agrees nodes (visitAll outdatedTs order nodes).worst.2 →
      (visitAll outdatedTs order nodes).worst = (visitAll outdatedTs order' nodes).worst) ∧
    (visitAll outdatedTs order nodes).nodes = (visitAll outdatedTs order' nodes).nodes := by
  have hworst := visitAll_worst outdatedTs h
  have hworst' := visitAll_worst outdatedTs h'
  refine ⟨UInt32.le_antisymm (hworst.peak_le hworst') (hworst'.peak_le hworst),hworst,?_,?_⟩
  · intro hagree
    exact hworst.unique hworst' hagree
  · apply Finmap.ext_lookup
    intro name
    rw [visitAll_left h,visitAll_left h']

def twoNodes (current current' peak peak' : UInt32) : NodeStatsMap :=
  (Finmap.singleton "A" (some ⟨current,peak,0⟩)).insert "B" (some ⟨current',peak',0⟩)

theorem twoNodes_visits {current current' peak peak' : UInt32} {order : List String}
    (h : order = ["A","B"] ∨ order = ["B","A"]) :
    Visits order (twoNodes current current' peak peak') := by
  rcases h with rfl | rfl
  · refine ⟨by decide,?_⟩
    intro name
    simp [twoNodes,or_comm]
  · refine ⟨by decide,?_⟩
    intro name
    simp [twoNodes]

theorem two_nodes_polled :
    (visitAll 30 ["A","B"] (twoNodes 1 2 5 7)).worst = (2,7) ∧
    (visitAll 30 ["A","B"] (twoNodes 1 2 5 7)).worst.2 =
      (visitAll 30 ["B","A"] (twoNodes 1 2 5 7)).worst.2 :=
  ⟨by decide,(worst_peak_unordered 30 (twoNodes 1 2 5 7) (twoNodes_visits (Or.inl rfl))
    (twoNodes_visits (Or.inr rfl))).1⟩

theorem twoNodes_lookup {current current' peak peak' : UInt32} {name : String}
    {stats : NodeConnectionStats}
    (h : (twoNodes current current' peak peak').lookup name = some (some stats)) :
    stats = ⟨current,peak,0⟩ ∨ stats = ⟨current',peak',0⟩ := by
  unfold twoNodes at h
  by_cases hb : name = "B"
  · rw [hb,Finmap.lookup_insert] at h
    exact Or.inr (Option.some.inj (Option.some.inj h)).symm
  · rw [Finmap.lookup_insert_of_ne _ hb] at h
    by_cases ha : name = "A"
    · rw [ha,Finmap.lookup_singleton_eq] at h
      exact Or.inl (Option.some.inj (Option.some.inj h)).symm
    · have hnone : (Finmap.singleton "A" (some ⟨current,peak,0⟩) : NodeStatsMap).lookup name =
          none := Finmap.lookup_eq_none.mpr (by simpa using ha)
      rw [hnone] at h
      cases h

/-- With equal peaks the node visited first is reported, with none above zero no node. -/
theorem equal_peaks_differ : (¬∀ (outdatedTs : ℤ) (nodes : NodeStatsMap)
    (order order' : List String), Visits order nodes → Visits order' nodes →
    (visitAll outdatedTs order nodes).worst = (visitAll outdatedTs order' nodes).worst ∧
    (∃ name stats, nodes.lookup name = some (some stats) ∧
      (visitAll outdatedTs order nodes).worst = (stats.asyncCurrent,stats.asyncPeak) ∧
      ∀ other stats', nodes.lookup other = some (some stats') →
        stats'.asyncPeak ≤ stats.asyncPeak) ∧
    (visitAll outdatedTs order nodes).nodes = (visitAll outdatedTs order' nodes).nodes) ∧
    ¬∃ name stats, (twoNodes 1 2 0 0).lookup name = some (some stats) ∧
      (visitAll 0 ["A","B"] (twoNodes 1 2 0 0)).worst = (stats.asyncCurrent,stats.asyncPeak) := by
  constructor
  · intro hall
    have hsame := (hall 0 (twoNodes 1 2 5 5) ["A","B"] ["B","A"] (twoNodes_visits (Or.inl rfl))
      (twoNodes_visits (Or.inr rfl))).1
    exact absurd hsame (by decide)
  · rintro ⟨name,stats,hget,hpair⟩
    rcases twoNodes_lookup hget with rfl | rfl
    · exact absurd hpair (by decide)
    · exact absurd hpair (by decide)

end Orders

section Lists
variable {outdatedTs : ℤ}

theorem run_worst {nodes : List (String × NodeConnectionStats)} {v : Visit}
    (hnodup : (nodes.map Prod.fst).Nodup)
    (hget : ∀ n ∈ nodes, v.nodes.lookup n.1 = some (some n.2)) :
    (run (visit outdatedTs) (nodes.map Prod.fst) v).worst =
      nodes.foldl (fun worst n =>
        if worst.2 < n.2.asyncPeak then (n.2.asyncCurrent,n.2.asyncPeak) else worst) v.worst := by
  induction nodes generalizing v with
  | nil => rfl
  | cons n nodes ih =>
    rw [List.map_cons,List.nodup_cons] at hnodup
    obtain ⟨hworst,hnodes⟩ := visit_stats outdatedTs (hget n List.mem_cons_self)
    rw [List.map_cons,run,List.foldl_cons,ih hnodup.2]
    · rw [hworst]
      rfl
    · intro m hm
      have hne : m.1 ≠ n.1 := fun h => hnodup.1 (h ▸ List.mem_map_of_mem hm)
      rw [hnodes,Finmap.lookup_insert_of_ne _ hne]
      exact hget m (List.mem_cons_of_mem _ hm)

/-- The loop over a list of entries is the visit in the order of the list. -/
theorem worstHost_visits {entries : List (String × NodeConnectionStats)} {nodes : NodeStatsMap}
    (hnodup : (entries.map Prod.fst).Nodup)
    (hget : ∀ n ∈ entries, nodes.lookup n.1 = some (some n.2)) :
    (worstHost outdatedTs entries).1 =
        (visitAll outdatedTs (entries.map Prod.fst) nodes).worst ∧
      ∀ n ∈ (worstHost outdatedTs entries).2,
        (visitAll outdatedTs (entries.map Prod.fst) nodes).nodes.lookup n.1 =
          some (some n.2) := by
  constructor
  · exact (run_worst (v := ⟨0,0,nodes⟩) hnodup hget).symm
  · intro n hn
    obtain ⟨m,hm,rfl⟩ := List.mem_map.mp hn
    have hleft := (visited_all outdatedTs nodes _ hnodup).left m.1
    rw [if_pos (List.mem_map_of_mem hm),hget m hm] at hleft
    have hentry : (if 0 < m.2.asyncPeak ∧ m.2.asyncPeakTtl < outdatedTs then
        (m.1,{ m.2 with asyncCurrent := 0, asyncPeak := 0 }) else m) =
        (m.1,clearOutdated outdatedTs m.2) := by
      unfold clearOutdated
      split_ifs <;> rfl
    rw [hentry]
    exact hleft

end Lists

end AspikePort.WorstHosts
