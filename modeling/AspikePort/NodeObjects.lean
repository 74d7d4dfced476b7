import AspikePort.NodeTallies

/-!
# One object for each node

Threads look a node up under the shared lock and, when it is missing, look it
up again and insert it under the exclusive one. Between the two any other
thread may come first. All get the one object of the node, which stays in the
map and takes every update made through it.
-/

set_option autoImplicit false

namespace AspikePort.NodeObjects
open AspikePort.NifWorld AspikePort.LabelledRuns AspikePort.Tallies

section Machine

/-- How far a call of `get_or_create_node_stats` is. -/
inductive Call where
  | calling (name : String)
  /-- Not found under the shared lock, which is released. -/
  | missed (name : String)
  | returned (name : String) (object : ℕ)
  deriving DecidableEq

abbrev Update := NodeConnectionStats → NodeConnectionStats

structure Shared where
  /-- Everything made by `make_shared`; a pointer is a position. -/
  objects : List NodeConnectionStats
  nodeStatsMap : List (String × ℕ)
  calls : List Call
  /-- The updates made through returned pointers, with the name of the call. -/
  updates : List (String × Update)

def Shared.start : Shared := ⟨[],[],[],[]⟩

def find (name : String) (m : List (String × ℕ)) : Option ℕ :=
  (m.find? (fun e => e.1 = name)).map Prod.snd

def lookupShared (name : String) (s : Shared) : Call :=
  match find name s.nodeStatsMap with
  | some object => .returned name object
  | none => .missed name

def lookupOrInsert (name : String) (s : Shared) : Call × Shared :=
  match find name s.nodeStatsMap with
  | some object => (.returned name object,s)
  | none =>
    let object := s.objects.length
    (.returned name object,{ s with
      objects := s.objects ++ [{}]
      nodeStatsMap := adjust name (fun _ => object) object s.nodeStatsMap })

/-- A call is named by its position; an update is one through its result. -/
inductive Event where
  | call (name : String)
  | enter (i : ℕ)
  | update (i : ℕ) (f : Update)

def Event.next : Event → Shared → Shared
  | .call name, s => { s with calls := s.calls ++ [.calling name] }
  | .enter i, s =>
    match s.calls[i]? with
    | some (.calling name) => { s with calls := s.calls.set i (lookupShared name s) }
    | some (.missed name) =>
      { (lookupOrInsert name s).2 with calls := s.calls.set i (lookupOrInsert name s).1 }
    | _ => s
  | .update i f, s =>
    match s.calls[i]? with
    | some (.returned name object) => { s with
        objects := s.objects.modify object f
        updates := s.updates ++ [(name,f)] }
    | _ => s

def reached (events : List Event) : Shared := run Event.next events Shared.start

def Call.name : Call → String
  | .calling name | .missed name | .returned name _ => name

/-- How many sections the call enters at most before it is back. -/
def Call.left : Call → ℕ
  | .calling _ => 2
  | .missed _ => 1
  | .returned _ _ => 0

def Event.enters (i : ℕ) : Event → Bool
  | .enter j => i = j
  | _ => false

end Machine

section Entries
variable {name : String} {object : ℕ} {m : List (String × ℕ)}

theorem mem_of_find (h : find name m = some object) : (name,object) ∈ m := by
  obtain ⟨e,he,rfl⟩ := Option.map_eq_some_iff.mp h
  have hname : e.1 = name := by simpa using List.find?_some he
  rw [← hname]
  exact List.mem_of_find?_eq_some he

theorem absent_of_find (h : find name m = none) : name ∉ keys m := by
  intro hmem
  obtain ⟨e,he,rfl⟩ := List.mem_map.mp hmem
  have hnone := List.find?_eq_none.mp (Option.map_eq_none_iff.mp h) e he
  exact hnone (decide_eq_true rfl)

theorem entry_unique (h : (keys m).Nodup) {object' : ℕ} (hmem : (name,object) ∈ m)
    (hmem' : (name,object') ∈ m) : object = object' :=
  congrArg Prod.snd (List.inj_on_of_nodup_map h hmem hmem' rfl)

theorem find_of_mem (h : (keys m).Nodup) (hmem : (name,object) ∈ m) :
    find name m = some object := by
  cases hfind : find name m with
  | none => exact absurd (mem_keys hmem) (absent_of_find hfind)
  | some object' => rw [entry_unique h (mem_of_find hfind) hmem]

end Entries

section Coherence

/-- What the updates of a name make of a new object. -/
def applied (name : String) (updates : List (String × Update)) : NodeConnectionStats :=
  (updates.filter (fun u => u.1 = name)).foldl (fun stats u => u.2 stats) {}

structure Coherent (s : Shared) : Prop where
  names : (keys s.nodeStatsMap).Nodup
  distinct : (s.nodeStatsMap.map Prod.snd).Nodup
  returned : ∀ name object, Call.returned name object ∈ s.calls →
    (name,object) ∈ s.nodeStatsMap
  known : ∀ u ∈ s.updates, u.1 ∈ keys s.nodeStatsMap
  contents : ∀ e ∈ s.nodeStatsMap, s.objects[e.2]? = some (applied e.1 s.updates)

theorem start_coherent : Coherent Shared.start :=
  ⟨List.nodup_nil,List.nodup_nil,by simp [Shared.start],by simp [Shared.start],
    by simp [Shared.start]⟩

variable {s : Shared}

/-- A call may come back only with the entry of its name. -/
theorem Coherent.set_call (h : Coherent s) (i : ℕ) {call : Call}
    (hcall : ∀ name object, call = .returned name object → (name,object) ∈ s.nodeStatsMap) :
    Coherent { s with calls := s.calls.set i call } := by
  refine ⟨h.names,h.distinct,?_,h.known,h.contents⟩
  intro name object hmem
  rcases List.mem_or_eq_of_mem_set hmem with hmem | heq
  · exact h.returned name object hmem
  · exact hcall name object heq.symm

theorem Coherent.add_call (h : Coherent s) (name : String) :
    Coherent { s with calls := s.calls ++ [.calling name] } := by
  refine ⟨h.names,h.distinct,?_,h.known,h.contents⟩
  intro name' object hmem
  rcases List.mem_append.mp hmem with hmem | hmem
  · exact h.returned name' object hmem
  · exact absurd (List.mem_singleton.mp hmem) (by simp)

theorem applied_absent {name : String} {updates : List (String × Update)}
    (h : ∀ u ∈ updates, u.1 ≠ name) : applied name updates = {} := by
  unfold applied
  rw [List.filter_eq_nil_iff.mpr (fun u hu => by simpa using h u hu)]
  rfl

theorem applied_snoc (name : String) (updates : List (String × Update)) (f : Update) :
    applied name (updates ++ [(name,f)]) = f (applied name updates) := by
  simp [applied]

theorem applied_other {name other : String} (h : name ≠ other)
    (updates : List (String × Update)) (f : Update) :
    applied other (updates ++ [(name,f)]) = applied other updates := by
  simp [applied,h]

theorem Coherent.object_lt (h : Coherent s) {e : String × ℕ} (he : e ∈ s.nodeStatsMap) :
    e.2 < s.objects.length := (List.getElem?_eq_some_iff.mp (h.contents e he)).1

theorem Coherent.object_fresh (h : Coherent s) :
    s.objects.length ∉ s.nodeStatsMap.map Prod.snd := by
  intro hmem
  obtain ⟨e,he,heq⟩ := List.mem_map.mp hmem
  have hlt := h.object_lt he
  omega

theorem adjust_absent {name : String} {object : ℕ} {m : List (String × ℕ)} (h : name ∉ keys m) :
    adjust name (fun _ => object) object m = m ++ [(name,object)] := if_neg h

/-- The insertion of a name that the second lookup did not find either. -/
theorem Coherent.insert (h : Coherent s) {name : String} (hnew : name ∉ keys s.nodeStatsMap) :
    Coherent { s with
      objects := s.objects ++ [{}]
      nodeStatsMap := s.nodeStatsMap ++ [(name,s.objects.length)] } := by
  have hkeys : keys (s.nodeStatsMap ++ [(name,s.objects.length)]) =
      keys s.nodeStatsMap ++ [name] := by simp [keys]
  constructor
  · show (keys (s.nodeStatsMap ++ [(name,s.objects.length)])).Nodup
    rw [hkeys,List.nodup_append_comm,List.singleton_append,List.nodup_cons]
    exact ⟨hnew,h.names⟩
  · show ((s.nodeStatsMap ++ [(name,s.objects.length)]).map Prod.snd).Nodup
    rw [List.map_append,List.nodup_append_comm,List.map_singleton,List.singleton_append,
      List.nodup_cons]
    exact ⟨h.object_fresh,h.distinct⟩
  · intro name' object hmem
    exact List.mem_append_left _ (h.returned name' object hmem)
  · intro u hu
    show u.1 ∈ keys (s.nodeStatsMap ++ [(name,s.objects.length)])
    rw [hkeys]
    exact List.mem_append_left _ (h.known u hu)
  · intro e he
    rcases List.mem_append.mp he with he | he
    · show (s.objects ++ [({} : NodeConnectionStats)])[e.2]? = some (applied e.1 s.updates)
      rw [List.getElem?_append_left (h.object_lt he)]
      exact h.contents e he
    · have hnone : applied name s.updates = {} :=
        applied_absent (fun u hu heq => hnew (heq ▸ h.known u hu))
      rw [List.mem_singleton.mp he]
      show (s.objects ++ [({} : NodeConnectionStats)])[s.objects.length]? =
        some (applied name s.updates)
      rw [hnone]
      exact List.getElem?_concat_length

/-- An update through the object of a name. -/
theorem Coherent.update (h : Coherent s) {name : String} {object : ℕ}
    (hentry : (name,object) ∈ s.nodeStatsMap) (f : Update) :
    Coherent { s with
      objects := s.objects.modify object f
      updates := s.updates ++ [(name,f)] } := by
  refine ⟨h.names,h.distinct,h.returned,?_,?_⟩
  · intro u hu
    rcases List.mem_append.mp hu with hu | hu
    · exact h.known u hu
    · rw [List.mem_singleton.mp hu]
      exact mem_keys hentry
  · intro e he
    show (s.objects.modify object f)[e.2]? = some (applied e.1 (s.updates ++ [(name,f)]))
    rw [List.getElem?_modify,h.contents e he]
    by_cases hobject : object = e.2
    · have heq : e = (name,object) := List.inj_on_of_nodup_map h.distinct he hentry hobject.symm
      subst heq
      rw [applied_snoc]
      simp
    · have hname : name ≠ e.1 := by
        intro hname
        exact hobject (congrArg Prod.snd (List.inj_on_of_nodup_map h.names hentry he hname))
      rw [applied_other hname]
      simp [hobject]

end Coherence

section Runs
variable {s : Shared}

theorem lookupShared_entry {name : String} : ∀ name' object,
    lookupShared name s = .returned name' object → (name',object) ∈ s.nodeStatsMap := by
  intro name' object h
  unfold lookupShared at h
  cases hfind : find name s.nodeStatsMap with
  | some found =>
    rw [hfind] at h
    cases h
    exact mem_of_find hfind
  | none =>
    rw [hfind] at h
    cases h

/-- The second section of a call, which found the name or inserts it. -/
theorem lookupOrInsert_cases (name : String) (s : Shared) :
    (∃ object, (name,object) ∈ s.nodeStatsMap ∧
      lookupOrInsert name s = (.returned name object,s)) ∨
    (name ∉ keys s.nodeStatsMap ∧ lookupOrInsert name s =
      (.returned name s.objects.length,{ s with
        objects := s.objects ++ [{}]
        nodeStatsMap := s.nodeStatsMap ++ [(name,s.objects.length)] })) := by
  unfold lookupOrInsert
  cases hfind : find name s.nodeStatsMap with
  | some object => exact Or.inl ⟨object,mem_of_find hfind,rfl⟩
  | none =>
    have habsent := absent_of_find hfind
    refine Or.inr ⟨habsent,?_⟩
    simp only [adjust_absent habsent]

theorem Coherent.lookupOrInsert (h : Coherent s) (i : ℕ) (name : String) :
    Coherent { (lookupOrInsert name s).2 with
      calls := s.calls.set i (lookupOrInsert name s).1 } := by
  rcases lookupOrInsert_cases name s with ⟨object,hmem,heq⟩ | ⟨hnew,heq⟩
  · rw [heq]
    exact h.set_call i (by rintro _ _ ⟨⟩; exact hmem)
  · rw [heq]
    exact (h.insert hnew).set_call i
      (by rintro _ _ ⟨⟩; exact List.mem_append_right _ List.mem_cons_self)

theorem next_coherent (a : Event) (h : Coherent s) : Coherent (a.next s) := by
  cases a with
  | call name => exact h.add_call name
  | enter i =>
    simp only [Event.next]
    split
    · exact h.set_call i lookupShared_entry
    · exact h.lookupOrInsert i _
    · exact h
  | update i f =>
    simp only [Event.next]
    split
    · next name object hget => exact h.update (h.returned name object (List.mem_of_getElem? hget)) f
    · exact h

/-- No step takes an entry out of the map or gives it another object. -/
theorem next_keeps (a : Event) : s.nodeStatsMap ⊆ (a.next s).nodeStatsMap := by
  cases a with
  | call name => exact List.Subset.refl _
  | enter i =>
    simp only [Event.next]
    split
    · exact List.Subset.refl _
    · next name _ =>
      rcases lookupOrInsert_cases name s with ⟨object,_,heq⟩ | ⟨_,heq⟩
      · rw [heq]
        exact List.Subset.refl _
      · rw [heq]
        exact List.subset_append_left _ _
    · exact List.Subset.refl _
  | update i f =>
    simp only [Event.next]
    split <;> exact List.Subset.refl _

theorem reached_coherent (events : List Event) : Coherent (reached events) :=
  run_invariant Event.next start_coherent (fun a _ h => next_coherent a h) events

theorem reached_keeps (events more : List Event) :
    (reached events).nodeStatsMap ⊆ (reached (events ++ more)).nodeStatsMap := by
  unfold reached
  rw [run_append]
  apply run_invariant Event.next (I := fun t =>
    (run Event.next events Shared.start).nodeStatsMap ⊆ t.nodeStatsMap) (List.Subset.refl _)
  intro a t h
  exact List.Subset.trans h (next_keeps a)

theorem lookupShared_call (name : String) (s : Shared) :
    (lookupShared name s).name = name ∧ (lookupShared name s).left ≤ 1 := by
  unfold lookupShared
  cases find name s.nodeStatsMap with
  | some object => exact ⟨rfl,Nat.zero_le 1⟩
  | none => exact ⟨rfl,Nat.le_refl 1⟩

theorem lookupOrInsert_call (name : String) (s : Shared) :
    (lookupOrInsert name s).1.name = name ∧ (lookupOrInsert name s).1.left = 0 ∧
      (lookupOrInsert name s).2.calls = s.calls := by
  rcases lookupOrInsert_cases name s with ⟨object,_,heq⟩ | ⟨_,heq⟩
  · rw [heq]
    exact ⟨rfl,rfl,rfl⟩
  · rw [heq]
    exact ⟨rfl,rfl,rfl⟩

/-- A call that enters a section has one less to enter, whatever the others
have done to the map; no other step moves it. -/
theorem next_call (a : Event) {i : ℕ} {call : Call} (hcall : s.calls[i]? = some call) :
    ∃ call', (a.next s).calls[i]? = some call' ∧ call'.name = call.name ∧
      call'.left ≤ call.left-if a.enters i then 1 else 0 := by
  obtain ⟨hi,_⟩ := List.getElem?_eq_some_iff.mp hcall
  cases a with
  | call name => exact ⟨call,(List.getElem?_append_left hi).trans hcall,rfl,Nat.le_refl _⟩
  | update j f =>
    refine ⟨call,?_,rfl,Nat.le_refl _⟩
    simp only [Event.next]
    split <;> exact hcall
  | enter j =>
    by_cases hij : i = j
    · subst hij
      simp only [Event.next,hcall,Event.enters,decide_true,if_true]
      cases call with
      | calling name =>
        obtain ⟨hname,hleft⟩ := lookupShared_call name s
        exact ⟨lookupShared name s,List.getElem?_set_self hi,hname,hleft⟩
      | missed name =>
        obtain ⟨hname,hleft,_⟩ := lookupOrInsert_call name s
        exact ⟨(lookupOrInsert name s).1,List.getElem?_set_self hi,hname,Nat.le_of_eq hleft⟩
      | returned name object => exact ⟨_,hcall,rfl,Nat.le_refl 0⟩
    · refine ⟨call,?_,rfl,by simp [Event.enters,hij]⟩
      simp only [Event.next]
      split
      · rw [← hcall]
        exact List.getElem?_set_ne (Ne.symm hij)
      · rw [← hcall]
        exact List.getElem?_set_ne (Ne.symm hij)
      · exact hcall

theorem run_call (more : List Event) {i : ℕ} {call : Call} (hcall : s.calls[i]? = some call) :
    ∃ call', (run Event.next more s).calls[i]? = some call' ∧ call'.name = call.name ∧
      call'.left ≤ call.left-more.countP (·.enters i) := by
  induction more generalizing s call with
  | nil => exact ⟨call,hcall,rfl,Nat.le_refl _⟩
  | cons a more ih =>
    obtain ⟨call₁,hcall₁,hname₁,hleft₁⟩ := next_call a hcall
    obtain ⟨call₂,hcall₂,hname₂,hleft₂⟩ := ih hcall₁
    refine ⟨call₂,hcall₂,hname₂.trans hname₁,?_⟩
    rw [List.countP_cons]
    omega

/-- A call comes back with an object once it has entered its sections. -/
theorem entered_returned (events more : List Event) {i : ℕ} {call : Call}
    (hcall : (reached events).calls[i]? = some call)
    (hmore : call.left ≤ more.countP (·.enters i)) :
    ∃ object, (reached (events ++ more)).calls[i]? = some (.returned call.name object) := by
  obtain ⟨call',hcall',hname,hleft⟩ := run_call more hcall
  have hreached : reached (events ++ more) = run Event.next more (reached events) :=
    run_append Event.next events more Shared.start
  have hback : call'.left = 0 := by omega
  rw [hreached,← hname]
  cases call' with
  | calling name => cases hback
  | missed name => cases hback
  | returned name object => exact ⟨object,hcall'⟩

theorem update_reaches (events : List Event) {i : ℕ} {name : String} {object : ℕ} (f : Update)
    (hcall : (reached events).calls[i]? = some (.returned name object)) :
    (reached (events ++ [.update i f])).objects[object]? =
      (reached events).objects[object]?.map f := by
  have hreached : reached (events ++ [.update i f]) =
      Event.next (.update i f) (reached events) :=
    run_append Event.next events [.update i f] Shared.start
  rw [hreached]
  simp only [Event.next,hcall,List.getElem?_modify_eq,Option.map_eq_map]

/-- However the calls interleave: a call that has entered its sections is back
with the object the map has for its name, the object is the same for all calls
of the name and there is at most one entry for it, every object ever returned
stays under its name, an update through it reaches it and it holds all the
updates made so. -/
theorem one_object_kept (events more : List Event) :
    (∀ i call, (reached events).calls[i]? = some call →
      call.left ≤ more.countP (·.enters i) →
      ∃ object, (reached (events ++ more)).calls[i]? = some (.returned call.name object) ∧
        find call.name (reached (events ++ more)).nodeStatsMap = some object) ∧
    (∀ name object object', Call.returned name object ∈ (reached events).calls →
      Call.returned name object' ∈ (reached (events ++ more)).calls → object = object') ∧
    (keys (reached events).nodeStatsMap).Nodup ∧
    (∀ name object, Call.returned name object ∈ (reached events).calls →
      find name (reached (events ++ more)).nodeStatsMap = some object ∧
      (reached (events ++ more)).objects[object]? =
        some (applied name (reached (events ++ more)).updates)) ∧
    ∀ i name object f, (reached events).calls[i]? = some (.returned name object) →
      (reached (events ++ [.update i f])).objects[object]? =
        (reached events).objects[object]?.map f := by
  have hlater := reached_coherent (events ++ more)
  have hentry : ∀ name object, Call.returned name object ∈ (reached events).calls →
      (name,object) ∈ (reached (events ++ more)).nodeStatsMap := fun name object h =>
    reached_keeps events more ((reached_coherent events).returned name object h)
  refine ⟨?_,?_,(reached_coherent events).names,?_,fun i name object f =>
    update_reaches events f⟩
  · intro i call hcall hmore
    obtain ⟨object,hobject⟩ := entered_returned events more hcall hmore
    exact ⟨object,hobject,find_of_mem hlater.names
      (hlater.returned _ _ (List.mem_of_getElem? hobject))⟩
  · intro name object object' h h'
    exact entry_unique hlater.names (hentry name object h) (hlater.returned name object' h')
  · intro name object h
    exact ⟨find_of_mem hlater.names (hentry name object h),
      hlater.contents _ (hentry name object h)⟩

/-- Two threads past the first lookup of the same name. -/
def racing : List Event := [.call "A",.call "A",.enter 0,.enter 1]

theorem racing_calls_agree : ∃ object,
    (reached (racing ++ [.enter 1,.enter 0])).calls = [.returned "A" object,.returned "A" object] ∧
      find "A" (reached (racing ++ [.enter 1,.enter 0])).nodeStatsMap = some object := by
  obtain ⟨object,hobject,hfind⟩ :=
    (one_object_kept racing [.enter 1,.enter 0]).1 0 (.missed "A") rfl (by decide)
  have hzero : object = 0 := by
    have h : Call.returned "A" object = .returned "A" 0 := (Option.some.inj hobject).symm
    exact (Call.returned.inj h).2
  subst hzero
  exact ⟨0,rfl,hfind⟩

end Runs

section Alone
variable {s : Shared}

/-- The statistics of every node, as a poll finds them. -/
def Shared.stats (s : Shared) : List (String × NodeConnectionStats) :=
  s.nodeStatsMap.map (fun e => (e.1,s.objects[e.2]?.getD {}))

theorem Coherent.stats_eq (h : Coherent s) :
    s.stats = s.nodeStatsMap.map (fun e => (e.1,applied e.1 s.updates)) := by
  apply List.map_congr_left
  intro e he
  rw [h.contents e he]
  rfl

theorem keys_stats (s : Shared) : keys s.stats = keys s.nodeStatsMap := by
  unfold Shared.stats keys
  rw [List.map_map]
  rfl

/-- A call that nothing interrupts, and an update through its result. -/
def aloneUpdates (name : String) (f : Update) (s : Shared) : List Event :=
  [.call name,.enter s.calls.length,.enter s.calls.length,.update s.calls.length f]

theorem alone_run (name : String) (f : Update) (s : Shared) :
    (run Event.next (aloneUpdates name f s) s).updates = s.updates ++ [(name,f)] ∧
    (run Event.next (aloneUpdates name f s) s).nodeStatsMap =
      if name ∈ keys s.nodeStatsMap then s.nodeStatsMap
      else s.nodeStatsMap ++ [(name,s.objects.length)] := by
  cases hfind : find name s.nodeStatsMap with
  | some object =>
    rw [if_pos (mem_keys (mem_of_find hfind))]
    simp [aloneUpdates,run,Event.next,lookupShared,hfind]
  | none =>
    rw [if_neg (absent_of_find hfind)]
    simp [aloneUpdates,run,Event.next,lookupShared,lookupOrInsert,hfind,
      adjust_absent (absent_of_find hfind)]

/-- Calls one after another update the statistics as `updateNodeStats` does. -/
theorem alone_updates (h : Coherent s) (name : String) (f : Update) :
    (run Event.next (aloneUpdates name f s) s).stats = updateNodeStats name f s.stats := by
  have hafter : Coherent (run Event.next (aloneUpdates name f s) s) :=
    run_invariant Event.next h (fun a _ h => next_coherent a h) _
  obtain ⟨hupdates,hmap⟩ := alone_run name f s
  have hentry : ∀ e : String × ℕ, (e.1,applied e.1 (s.updates ++ [(name,f)])) =
      if e.1 = name then (e.1,f (applied e.1 s.updates)) else (e.1,applied e.1 s.updates) := by
    intro e
    split_ifs with he
    · rw [he,applied_snoc]
    · rw [applied_other (Ne.symm he)]
  rw [hafter.stats_eq,hupdates,hmap,NodeTallies.updateNodeStats_eq,adjust,keys_stats,h.stats_eq]
  split_ifs with hname
  · rw [List.map_map]
    exact List.map_congr_left (fun e _ => hentry e)
  · have hold : ∀ e ∈ s.nodeStatsMap, (e.1,applied e.1 (s.updates ++ [(name,f)])) =
        (e.1,applied e.1 s.updates) := by
      intro e he
      have hne : e.1 ≠ name := fun heq => hname (heq ▸ mem_keys he)
      rw [hentry,if_neg hne]
    have hnew : applied name s.updates = {} := by
      apply applied_absent
      intro u hu heq
      exact hname (heq ▸ h.known u hu)
    rw [List.map_append,List.map_congr_left hold,List.map_singleton,applied_snoc,hnew]

end Alone

end AspikePort.NodeObjects
