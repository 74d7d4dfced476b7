import Mathlib.Data.UInt
import AspikePort.NodeObjects

/-!
# The counters under concurrent callbacks

The constructor and the destructor of a `callback_data` are taken apart into
their atomic operations and the sections under the two locks. Any number of
them interleave while statistics are turned on and off. What each has added is
never lost, and a peak is always a value that its counter once had.
-/

set_option autoImplicit false

namespace AspikePort.CallbackCounters
open AspikePort.NifWorld AspikePort.LabelledRuns AspikePort.Tallies
open AspikePort.OperationCounters (targetNode trackedCounters trackNode_spec)
open AspikePort.NodeTallies (updateNodeStats_eq)
open AspikePort.ClientValues
open AspikePort.NodeObjects (Shared Coherent Update applied)

section Machine

/-- A node that was found for a key, and the call that gets its object. -/
structure Tracked where
  name : String
  call : ℕ

/-- Where the check of a peak is. -/
inductive Check where
  | peak
  | ttl
  | store
  | storeTtl

/-- How far a callback is. A value is one that has been loaded. -/
inductive Phase where
  | looking (t : Tracked)
  | addingNode (t : Tracked)
  | loading (t : Tracked)
  | loadingNode (t : Tracked) (value : UInt32)
  | timing (t : Tracked) (value nodeValue : UInt32)
  | globalPeak (t : Tracked) (value nodeValue : UInt32) (now : ℤ) (check : Check)
  | nodePeak (t : Tracked) (nodeValue : UInt32) (now : ℤ) (check : Check)
  /-- Constructed, with its `node_name`. -/
  | live (name : String)
  | leaving (name : String)
  | lookingAgain (t : Tracked)
  | gone
  /-- Destroyed while statistics were off. -/
  | abandoned (name : String)

structure Threads where
  nodes : Shared
  asyncCurrent : UInt32
  asyncPeak : UInt32
  asyncPeakTtl : ℤ
  enabled : Bool
  callbacks : List Phase

def Threads.start (enabled : Bool) : Threads := ⟨Shared.start,0,0,0,enabled,[]⟩

namespace Threads
variable (s : Threads)

/-- What stands in the object that a call has returned. -/
def stats (call : ℕ) : NodeConnectionStats :=
  match s.nodes.calls[call]? with
  | some (.returned _ object) => (s.nodes.objects[object]?).getD {}
  | _ => {}

def nodeEvent (a : NodeObjects.Event) : Threads := { s with nodes := a.next s.nodes }

def goto (i : ℕ) (p : Phase) : Threads := { s with callbacks := s.callbacks.set i p }

/-- One more section of `get_or_create_node_stats`, or what follows the last of them. -/
def lookup (call : ℕ) (found : Threads) : Threads :=
  match s.nodes.calls[call]? with
  | some (.returned _ _) => found
  | _ => s.nodeEvent (.enter call)

def next (i : ℕ) (now : ℤ) : Phase → Threads
  | .looking t =>
    s.lookup t.call ({ s with asyncCurrent := s.asyncCurrent+1 }.goto i (.addingNode t))
  | .addingNode t =>
    (s.nodeEvent (.update t.call (fun n => { n with asyncCurrent := n.asyncCurrent+1 }))).goto i
      (.loading t)
  | .loading t => s.goto i (.loadingNode t s.asyncCurrent)
  | .loadingNode t value => s.goto i (.timing t value (s.stats t.call).asyncCurrent)
  | .timing t value nodeValue => s.goto i (.globalPeak t value nodeValue now .peak)
  | .globalPeak t value nodeValue ts .peak =>
    s.goto i (.globalPeak t value nodeValue ts (if s.asyncPeak < value then .store else .ttl))
  | .globalPeak t value nodeValue ts .ttl =>
    s.goto i (if s.asyncPeakTtl < ts then .globalPeak t value nodeValue ts .store
      else .nodePeak t nodeValue ts .peak)
  | .globalPeak t value nodeValue ts .store =>
    { s with asyncPeak := value }.goto i (.globalPeak t value nodeValue ts .storeTtl)
  | .globalPeak t _ nodeValue ts .storeTtl =>
    { s with asyncPeakTtl := ts+15 }.goto i (.nodePeak t nodeValue ts .peak)
  | .nodePeak t nodeValue ts .peak =>
    s.goto i (.nodePeak t nodeValue ts
      (if (s.stats t.call).asyncPeak < nodeValue then .store else .ttl))
  | .nodePeak t nodeValue ts .ttl =>
    s.goto i (if (s.stats t.call).asyncPeakTtl < ts then .nodePeak t nodeValue ts .store
      else .live t.name)
  | .nodePeak t nodeValue ts .store =>
    (s.nodeEvent (.update t.call (fun n => { n with asyncPeak := nodeValue }))).goto i
      (.nodePeak t nodeValue ts .storeTtl)
  | .nodePeak t _ ts .storeTtl =>
    (s.nodeEvent (.update t.call (fun n => { n with asyncPeakTtl := ts+15 }))).goto i
      (.live t.name)
  | .live name =>
    s.goto i (if name = "" then .gone else if s.enabled then .leaving name else .abandoned name)
  | .leaving name =>
    ({ s with asyncCurrent := s.asyncCurrent-1 }.nodeEvent (.call name)).goto i
      (.lookingAgain ⟨name,s.nodes.calls.length⟩)
  | .lookingAgain t =>
    s.lookup t.call ((s.nodeEvent (.update t.call
      (fun n => { n with asyncCurrent := n.asyncCurrent-1 }))).goto i .gone)
  | .gone => s
  | .abandoned _ => s

end Threads

/-- The clock of an `advance` is read in the step that asks for it. -/
inductive Event where
  /-- With the name that the lookup of the node comes to, which may be empty. -/
  | construct (name : String)
  | advance (i : ℕ) (now : ℤ)
  | toggle (enabled : Bool)

def Event.next : Event → Threads → Threads
  | .construct name, s =>
    if s.enabled = false ∨ name = "" then { s with callbacks := s.callbacks ++ [.live ""] }
    else { s.nodeEvent (.call name) with
      callbacks := s.callbacks ++ [.looking ⟨name,s.nodes.calls.length⟩] }
  | .advance i now, s =>
    match s.callbacks[i]? with
    | some p => s.next i now p
    | none => s
  | .toggle enabled, s => { s with enabled := enabled }

def reached (enabled : Bool) (events : List Event) : Threads :=
  run Event.next events (Threads.start enabled)

end Machine

section Counting

/-- Between the two updates of the global counter. -/
def Phase.counted : Phase → Bool
  | .looking _ => false
  | .live name => name ≠ ""
  | .lookingAgain _ => false
  | .gone => false
  | _ => true

/-- Between the two updates of the counter of a node. -/
def Phase.countedOn (n : String) : Phase → Bool
  | .looking _ => false
  | .addingNode _ => false
  | .loading t => t.name = n
  | .loadingNode t _ => t.name = n
  | .timing t _ _ => t.name = n
  | .globalPeak t _ _ _ _ => t.name = n
  | .nodePeak t _ _ _ => t.name = n
  | .live name => name ≠ "" ∧ name = n
  | .leaving name => name = n
  | .lookingAgain t => t.name = n
  | .gone => false
  | .abandoned name => name = n

/-- How far a counter is off the callbacks it should count. -/
def drift (value : UInt32) (q : Phase → Bool) (l : List Phase) : UInt32 :=
  value-UInt32.ofNat (l.countP q)

variable {l : List Phase} {i : ℕ} {p p' : Phase} {q : Phase → Bool} {value : UInt32}

theorem countP_set_add (h : l[i]? = some p) (p' : Phase) (q : Phase → Bool) :
    (l.set i p').countP q+(if q p then 1 else 0) =
    l.countP q+(if q p' then 1 else 0) := by
  obtain ⟨hi,rfl⟩ := List.getElem?_eq_some_iff.mp h
  have hset := List.countP_set (p := q) (a := p') hi
  have hpos : q l[i] = true → 0 < l.countP q := fun hq =>
    List.countP_pos_iff.mpr ⟨l[i],List.getElem_mem hi,hq⟩
  by_cases hq : q l[i] = true
  · have := hpos hq
    simp only [hq,if_true] at hset ⊢
    omega
  · simp only [hq,Bool.false_eq_true,if_false] at hset ⊢
    omega

theorem drift_set (h : l[i]? = some p) (hq : q p' = q p) :
    drift value q (l.set i p') = drift value q l := by
  have hcount := countP_set_add h p' q
  rw [hq] at hcount
  unfold drift
  rw [Nat.add_right_cancel hcount]

theorem drift_enter (h : l[i]? = some p) (hp : q p = false) (hp' : q p' = true) :
    drift (value+1) q (l.set i p') = drift value q l := by
  have hcount := countP_set_add h p' q
  simp only [hp,hp',if_true,Bool.false_eq_true,if_false,Nat.add_zero] at hcount
  unfold drift
  rw [hcount,UInt32.ofNat_add]
  grind

theorem drift_leave (h : l[i]? = some p) (hp : q p = true) (hp' : q p' = false) :
    drift (value-1) q (l.set i p') = drift value q l := by
  have hcount := countP_set_add h p' q
  simp only [hp,hp',if_true,Bool.false_eq_true,if_false,Nat.add_zero] at hcount
  unfold drift
  rw [← hcount,UInt32.ofNat_add]
  grind

theorem drift_append (hp : q p = false) : drift value q (l ++ [p]) = drift value q l := by
  unfold drift
  simp [hp]

end Counting

section Pointers

/-- The name that a call of `get_or_create_node_stats` is given. -/
def nameOf : NodeObjects.Call → String
  | .calling name => name
  | .missed name => name
  | .returned name _ => name

variable {sh : Shared} {j : ℕ}

theorem lookupShared_name (name : String) : nameOf (NodeObjects.lookupShared name sh) = name := by
  unfold NodeObjects.lookupShared
  split <;> rfl

theorem lookupOrInsert_name (name : String) :
    nameOf (NodeObjects.lookupOrInsert name sh).1 = name := by
  unfold NodeObjects.lookupOrInsert
  split <;> rfl

/-- A call keeps its name, and once it has returned its object. -/
theorem call_kept (a : NodeObjects.Event) {c : NodeObjects.Call} (h : sh.calls[j]? = some c) :
    ∃ c', (a.next sh).calls[j]? = some c' ∧ nameOf c' = nameOf c ∧
      ∀ name object, c = .returned name object → c' = c := by
  have hj : j < sh.calls.length := (List.getElem?_eq_some_iff.mp h).1
  have hset : ∀ {k : ℕ} {d d' : NodeObjects.Call}, sh.calls[k]? = some d → nameOf d' = nameOf d →
      (∀ name object, d ≠ .returned name object) → ∃ c', (sh.calls.set k d')[j]? = some c' ∧
        nameOf c' = nameOf c ∧ ∀ name object, c = .returned name object → c' = c := by
    intro k d d' hk hname hopen
    by_cases hkj : k = j
    · subst hkj
      rw [h] at hk
      cases hk
      exact ⟨d',List.getElem?_set_self hj,hname,fun name object heq => absurd heq (hopen _ _)⟩
    · exact ⟨c,by rw [List.getElem?_set_ne hkj,h],rfl,fun _ _ _ => rfl⟩
  cases a with
  | call name =>
    exact ⟨c,by rw [← h]; exact List.getElem?_append_left hj,rfl,fun _ _ _ => rfl⟩
  | enter k =>
    simp only [NodeObjects.Event.next]
    split
    · next name hk => exact hset hk (lookupShared_name name) (fun name object => by simp)
    · next name hk => exact hset hk (lookupOrInsert_name name) (fun name object => by simp)
    · exact ⟨c,h,rfl,fun _ _ _ => rfl⟩
  | update k f =>
    simp only [NodeObjects.Event.next]
    split <;> exact ⟨c,h,rfl,fun _ _ _ => rfl⟩

/-- A node that a call is under way for, or that it has returned the object of. -/
def Named (sh : Shared) (t : Tracked) : Prop :=
  t.name ≠ "" ∧ ∃ c, sh.calls[t.call]? = some c ∧ nameOf c = t.name

def Pointed (sh : Shared) (t : Tracked) : Prop :=
  t.name ≠ "" ∧ ∃ object, sh.calls[t.call]? = some (.returned t.name object)

def Phase.Held (sh : Shared) : Phase → Prop
  | .looking t => Named sh t
  | .addingNode t => Pointed sh t
  | .loading t => Pointed sh t
  | .loadingNode t _ => Pointed sh t
  | .timing t _ _ => Pointed sh t
  | .globalPeak t _ _ _ _ => Pointed sh t
  | .nodePeak t _ _ _ => Pointed sh t
  | .live name => name = "" ∨ name ∈ keys sh.nodeStatsMap
  | .leaving name => name ≠ "" ∧ name ∈ keys sh.nodeStatsMap
  | .lookingAgain t => Named sh t ∧ t.name ∈ keys sh.nodeStatsMap
  | .gone => True
  | .abandoned name => name ≠ "" ∧ name ∈ keys sh.nodeStatsMap

theorem Named.next {t : Tracked} (h : Named sh t) (a : NodeObjects.Event) :
    Named (a.next sh) t := by
  obtain ⟨hne,c,hc,hname⟩ := h
  obtain ⟨c',hc',hname',-⟩ := call_kept a hc
  exact ⟨hne,c',hc',hname'.trans hname⟩

theorem Pointed.next {t : Tracked} (h : Pointed sh t) (a : NodeObjects.Event) :
    Pointed (a.next sh) t := by
  obtain ⟨hne,object,hc⟩ := h
  obtain ⟨c',hc',-,hsame⟩ := call_kept a hc
  rw [hsame _ _ rfl] at hc'
  exact ⟨hne,object,hc'⟩

theorem keys_kept (a : NodeObjects.Event) {name : String} (h : name ∈ keys sh.nodeStatsMap) :
    name ∈ keys (a.next sh).nodeStatsMap :=
  List.map_subset _ (NodeObjects.next_keeps a) h

theorem Phase.Held.next {p : Phase} (h : p.Held sh) (a : NodeObjects.Event) :
    p.Held (a.next sh) := by
  cases p with
  | looking t => exact Named.next h a
  | live name => exact h.imp_right (keys_kept a)
  | leaving name => exact ⟨h.1,keys_kept a h.2⟩
  | lookingAgain t => exact ⟨h.1.next a,keys_kept a h.2⟩
  | gone => trivial
  | abandoned name => exact ⟨h.1,keys_kept a h.2⟩
  | _ => exact Pointed.next h a

/-- An object that was returned is in the map. -/
theorem Pointed.known {t : Tracked} (hsh : Coherent sh) (h : Pointed sh t) :
    t.name ∈ keys sh.nodeStatsMap := by
  obtain ⟨-,object,hc⟩ := h
  exact mem_keys (hsh.returned t.name object (List.mem_of_getElem? hc))

end Pointers

section Invariant

structure Sound (s : Threads) : Prop where
  nodes : Coherent s.nodes
  held : ∀ p ∈ s.callbacks, p.Held s.nodes

variable {s : Threads} {i : ℕ} {p q : Phase}

theorem start_sound (enabled : Bool) : Sound (Threads.start enabled) :=
  ⟨NodeObjects.start_coherent,fun _ hp => absurd hp List.not_mem_nil⟩

theorem Sound.nodeEvent (h : Sound s) (a : NodeObjects.Event) : Sound (s.nodeEvent a) :=
  ⟨NodeObjects.next_coherent a h.nodes,fun p hp => (h.held p hp).next a⟩

theorem Sound.goto (h : Sound s) (hq : q.Held s.nodes) : Sound (s.goto i q) := by
  refine ⟨h.nodes,fun p hp => ?_⟩
  rcases List.mem_or_eq_of_mem_set hp with hp | rfl
  · exact h.held p hp
  · exact hq

theorem Sound.of_same (h : Sound s) {t : Threads} (hnodes : t.nodes = s.nodes)
    (hcallbacks : t.callbacks = s.callbacks) : Sound t :=
  ⟨hnodes ▸ h.nodes,fun p hp => hnodes ▸ h.held p (hcallbacks ▸ hp)⟩

theorem Sound.lookup (h : Sound s) {call : ℕ} {found : Threads} (hfound : Sound found) :
    Sound (s.lookup call found) := by
  unfold Threads.lookup
  split
  · exact hfound
  · exact h.nodeEvent _

theorem lookup_cases {t : Tracked} (h : Named s.nodes t) (found : Threads) :
    Pointed s.nodes t ∧ s.lookup t.call found = found ∨
      s.lookup t.call found = s.nodeEvent (.enter t.call) := by
  obtain ⟨hne,c,hc,hname⟩ := h
  unfold Threads.lookup
  rw [hc]
  cases c with
  | returned name object =>
    change name = t.name at hname
    exact Or.inl ⟨⟨hne,object,hname ▸ hc⟩,rfl⟩
  | _ => exact Or.inr rfl

/-- One step of one callback, whatever the others are at. -/
theorem next_sound (h : Sound s) (hp : s.callbacks[i]? = some p) (now : ℤ) :
    Sound (s.next i now p) := by
  have hheld := h.held p (List.mem_of_getElem? hp)
  cases p with
  | looking t =>
    rcases lookup_cases hheld _ with ⟨hpoint,hfound⟩ | henter
    · rw [Threads.next,hfound]
      exact Sound.goto (h.of_same rfl rfl) hpoint
    · rw [Threads.next,henter]
      exact h.nodeEvent _
  | addingNode t => exact (h.nodeEvent _).goto (Pointed.next hheld _)
  | loading t => exact h.goto hheld
  | loadingNode t value => exact h.goto hheld
  | timing t value nodeValue => exact h.goto hheld
  | globalPeak t value nodeValue ts check =>
    cases check with
    | peak => exact h.goto hheld
    | ttl =>
      apply h.goto
      split_ifs
      · exact hheld
      · exact hheld
    | store => exact Sound.goto (h.of_same rfl rfl) hheld
    | storeTtl => exact Sound.goto (h.of_same rfl rfl) hheld
  | nodePeak t nodeValue ts check =>
    have hlive := Or.inr (a := t.name = "") (Pointed.known h.nodes hheld)
    cases check with
    | peak => exact h.goto hheld
    | ttl =>
      apply h.goto
      split_ifs
      · exact hheld
      · exact hlive
    | store => exact (h.nodeEvent _).goto (Pointed.next hheld _)
    | storeTtl => exact (h.nodeEvent _).goto (hlive.imp_right (keys_kept _))
  | live name =>
    apply h.goto
    split_ifs with hname
    · trivial
    · exact ⟨hname,hheld.resolve_left hname⟩
    · exact ⟨hname,hheld.resolve_left hname⟩
  | leaving name =>
    have hless : Sound { s with asyncCurrent := s.asyncCurrent-1 } := h.of_same rfl rfl
    refine (hless.nodeEvent (.call name)).goto ⟨⟨hheld.1,.calling name,?_,rfl⟩,hheld.2⟩
    exact List.getElem?_concat_length
  | lookingAgain t =>
    rcases lookup_cases hheld.1 _ with ⟨-,hfound⟩ | henter
    · rw [Threads.next,hfound]
      exact (h.nodeEvent _).goto trivial
    · rw [Threads.next,henter]
      exact h.nodeEvent _
  | gone => exact h
  | abandoned name => exact h

theorem event_sound (a : Event) (h : Sound s) : Sound (a.next s) := by
  cases a with
  | construct name =>
    simp only [Event.next]
    split_ifs with hname
    · refine ⟨h.nodes,fun p hp => ?_⟩
      rcases List.mem_append.mp hp with hp | hp
      · exact h.held p hp
      · rw [List.mem_singleton.mp hp]
        exact Or.inl rfl
    · have hnext := h.nodeEvent (.call name)
      refine ⟨hnext.nodes,fun p hp => ?_⟩
      rcases List.mem_append.mp hp with hp | hp
      · exact hnext.held p hp
      · rw [List.mem_singleton.mp hp]
        exact ⟨fun heq => hname (.inr heq),.calling name,List.getElem?_concat_length,rfl⟩
  | advance i now =>
    simp only [Event.next]
    split
    · next hp => exact next_sound h hp now
    · exact h
  | toggle enabled => exact h.of_same rfl rfl

end Invariant

section Conservation
variable {s : Threads} {i : ℕ} {p : Phase}

def Threads.globalDrift (s : Threads) : UInt32 := drift s.asyncCurrent Phase.counted s.callbacks

/-- What the counter of a node is, and zero where there is no object yet. -/
def Threads.nodeCurrent (n : String) (s : Threads) : UInt32 :=
  (applied n s.nodes.updates).asyncCurrent

def Threads.nodeDrift (n : String) (s : Threads) : UInt32 :=
  drift (s.nodeCurrent n) (Phase.countedOn n) s.callbacks

theorem goto_global {q : Phase} (hp : s.callbacks[i]? = some p) (hq : q.counted = p.counted) :
    (s.goto i q).globalDrift = s.globalDrift := drift_set hp hq

theorem goto_node {q : Phase} {n : String} (hp : s.callbacks[i]? = some p)
    (hq : q.countedOn n = p.countedOn n) : (s.goto i q).nodeDrift n = s.nodeDrift n :=
  drift_set hp hq

/-- An update through a pointer is one of the node that the pointer was got for. -/
theorem update_applied {sh : Shared} {t : Tracked} (h : Pointed sh t) (f : Update) (n : String) :
    applied n ((NodeObjects.Event.update t.call f).next sh).updates =
      if t.name = n then f (applied n sh.updates) else applied n sh.updates := by
  obtain ⟨-,object,hc⟩ := h
  simp only [NodeObjects.Event.next,hc]
  by_cases hn : t.name = n
  · rw [if_pos hn,← hn]
    exact NodeObjects.applied_snoc t.name _ f
  · rw [if_neg hn]
    exact NodeObjects.applied_other hn _ f

theorem enter_updates {sh : Shared} (call : ℕ) :
    ((NodeObjects.Event.enter call).next sh).updates = sh.updates := by
  simp only [NodeObjects.Event.next]
  split
  · rfl
  · next name _ =>
    rcases NodeObjects.lookupOrInsert_cases name sh with ⟨object,-,heq⟩ | ⟨-,heq⟩
    · rw [heq]
    · rw [heq]
  · rfl

/-- An update that leaves the count of the node alone. -/
theorem quiet_update_node {t : Tracked} (h : Pointed s.nodes t) {f : Update}
    (hf : ∀ x, (f x).asyncCurrent = x.asyncCurrent) {q : Phase} {n : String}
    (hp : s.callbacks[i]? = some p) (hq : q.countedOn n = p.countedOn n) :
    ((s.nodeEvent (.update t.call f)).goto i q).nodeDrift n = s.nodeDrift n := by
  have hsame : (s.nodeEvent (.update t.call f)).nodeCurrent n = s.nodeCurrent n := by
    unfold Threads.nodeCurrent Threads.nodeEvent
    rw [update_applied h]
    by_cases hn : t.name = n
    · rw [if_pos hn,hf]
    · rw [if_neg hn]
  change drift ((s.nodeEvent (.update t.call f)).nodeCurrent n) _ (s.callbacks.set i q) = _
  rw [hsame]
  exact drift_set hp hq

theorem enter_drift (call : ℕ) (n : String) :
    (s.nodeEvent (.enter call)).nodeDrift n = s.nodeDrift n := by
  unfold Threads.nodeDrift Threads.nodeCurrent Threads.nodeEvent
  rw [enter_updates]

theorem next_global (h : Sound s) (hp : s.callbacks[i]? = some p) (now : ℤ) :
    (s.next i now p).globalDrift = s.globalDrift := by
  have hheld := h.held p (List.mem_of_getElem? hp)
  cases p with
  | looking t =>
    rcases lookup_cases hheld _ with ⟨-,hfound⟩ | henter
    · rw [Threads.next,hfound]
      exact drift_enter hp rfl rfl
    · rw [Threads.next,henter]
      rfl
  | globalPeak t value nodeValue ts check =>
    cases check with
    | ttl =>
      apply goto_global hp
      split_ifs <;> rfl
    | _ => exact goto_global hp rfl
  | nodePeak t nodeValue ts check =>
    have hne : t.name ≠ "" := hheld.1
    cases check with
    | ttl =>
      apply goto_global hp
      split_ifs
      · rfl
      · exact decide_eq_true hne
    | storeTtl => exact drift_set hp (decide_eq_true hne)
    | _ => exact goto_global hp rfl
  | live name =>
    apply goto_global hp
    split_ifs with hname
    · simp [Phase.counted,hname]
    · simp [Phase.counted,hname]
    · simp [Phase.counted,hname]
  | leaving name => exact drift_leave hp rfl rfl
  | lookingAgain t =>
    rcases lookup_cases hheld.1 _ with ⟨-,hfound⟩ | henter
    · rw [Threads.next,hfound]
      exact drift_set hp rfl
    · rw [Threads.next,henter]
      rfl
  | gone => rfl
  | abandoned name => rfl
  | _ => exact goto_global hp rfl

theorem next_node (h : Sound s) (hp : s.callbacks[i]? = some p) (now : ℤ) (n : String) :
    (s.next i now p).nodeDrift n = s.nodeDrift n := by
  have hheld := h.held p (List.mem_of_getElem? hp)
  cases p with
  | looking t =>
    rcases lookup_cases hheld _ with ⟨-,hfound⟩ | henter
    · rw [Threads.next,hfound]
      exact drift_set hp rfl
    · rw [Threads.next,henter,enter_drift]
  | addingNode t =>
    change drift ((s.nodeEvent _).nodeCurrent n) _ (s.callbacks.set i (.loading t)) = _
    unfold Threads.nodeCurrent Threads.nodeEvent
    rw [update_applied hheld]
    by_cases hn : t.name = n
    · rw [if_pos hn]
      exact drift_enter hp rfl (decide_eq_true hn)
    · rw [if_neg hn]
      exact drift_set hp (decide_eq_false hn)
  | globalPeak t value nodeValue ts check =>
    cases check with
    | ttl =>
      apply goto_node hp
      split_ifs <;> rfl
    | _ => exact goto_node hp rfl
  | nodePeak t nodeValue ts check =>
    have hne : t.name ≠ "" := hheld.1
    have hlive : (Phase.live t.name).countedOn n = (Phase.nodePeak t nodeValue ts check).countedOn n := by
      simp [Phase.countedOn,hne]
    cases check with
    | peak => exact goto_node hp rfl
    | ttl =>
      apply goto_node hp
      split_ifs
      · rfl
      · exact hlive
    | store =>
      rw [Threads.next]
      apply quiet_update_node hheld ?_ hp ?_
      · exact fun _ => rfl
      · rfl
    | storeTtl =>
      rw [Threads.next]
      apply quiet_update_node hheld ?_ hp ?_
      · exact fun _ => rfl
      · exact hlive
  | live name =>
    apply goto_node hp
    split_ifs with hname
    · simp [Phase.countedOn,hname]
    · simp [Phase.countedOn,hname]
    · simp [Phase.countedOn,hname]
  | leaving name => exact drift_set hp rfl
  | lookingAgain t =>
    rcases lookup_cases hheld.1 _ with ⟨hpoint,hfound⟩ | henter
    · rw [Threads.next,hfound]
      change drift ((s.nodeEvent _).nodeCurrent n) _ (s.callbacks.set i .gone) = _
      unfold Threads.nodeCurrent Threads.nodeEvent
      rw [update_applied hpoint]
      by_cases hn : t.name = n
      · rw [if_pos hn]
        exact drift_leave hp (decide_eq_true hn) rfl
      · rw [if_neg hn]
        exact drift_set hp (decide_eq_false hn).symm
    · rw [Threads.next,henter,enter_drift]
  | gone => rfl
  | abandoned name => rfl
  | _ => exact goto_node hp rfl

theorem event_drift (a : Event) (h : Sound s) :
    (a.next s).globalDrift = s.globalDrift ∧ ∀ n, (a.next s).nodeDrift n = s.nodeDrift n := by
  cases a with
  | construct name =>
    simp only [Event.next]
    split_ifs
    · exact ⟨drift_append rfl,fun n => drift_append (by simp [Phase.countedOn])⟩
    · exact ⟨drift_append rfl,fun n => drift_append rfl⟩
  | advance i now =>
    simp only [Event.next]
    split
    · next hp => exact ⟨next_global h hp now,next_node h hp now⟩
    · exact ⟨rfl,fun n => rfl⟩
  | toggle enabled => exact ⟨rfl,fun n => rfl⟩

theorem reached_sound (events : List Event) (h : Sound s) : Sound (run Event.next events s) :=
  run_invariant Event.next h (fun a _ => event_sound a) events

/-- Between any two moments of a run the counters change by what the callbacks do. -/
theorem drift_kept (events : List Event) (h : Sound s) :
    (run Event.next events s).globalDrift = s.globalDrift ∧
      ∀ n, (run Event.next events s).nodeDrift n = s.nodeDrift n := by
  have hrun : Sound (run Event.next events s) ∧
      (run Event.next events s).globalDrift = s.globalDrift ∧
      ∀ n, (run Event.next events s).nodeDrift n = s.nodeDrift n := by
    apply run_invariant Event.next (I := fun t => Sound t ∧ t.globalDrift = s.globalDrift ∧
      ∀ n, t.nodeDrift n = s.nodeDrift n) ⟨h,rfl,fun n => rfl⟩
    intro a t ht
    obtain ⟨hglobal,hnode⟩ := event_drift a ht.1
    exact ⟨event_sound a ht.1,hglobal.trans ht.2.1,fun n => (hnode n).trans (ht.2.2 n)⟩
  exact hrun.2

end Conservation

section Alone
variable {b : Threads} {i : ℕ} {now : ℤ} {s u v : Threads} {N : Shared} {p q : Phase}
  {current peak : UInt32} {ttl : ℤ} {t : Tracked}

/-- Only one callback makes steps, and the clock stands still. -/
def Reaches (i : ℕ) (now : ℤ) (s u : Threads) : Prop :=
  ∃ n, run Event.next (List.replicate n (.advance i now)) s = u

theorem Reaches.refl : Reaches i now s s := ⟨0,rfl⟩

theorem Reaches.trans (h : Reaches i now s u) (h' : Reaches i now u v) : Reaches i now s v := by
  obtain ⟨n,rfl⟩ := h
  obtain ⟨m,rfl⟩ := h'
  exact ⟨n+m,by rw [List.replicate_add,run_append]⟩

theorem Reaches.step (hp : s.callbacks[i]? = some p) : Reaches i now s (s.next i now p) := by
  refine ⟨1,?_⟩
  change Event.next (.advance i now) s = _
  simp only [Event.next,hp]

/-- The counters are these, and one callback has got somewhere. -/
def Threads.moved (b : Threads) (i : ℕ) (N : Shared) (current peak : UInt32) (ttl : ℤ)
    (p : Phase) : Threads := ⟨N,current,peak,ttl,b.enabled,b.callbacks.set i p⟩

theorem moved_goto : (b.moved i N current peak ttl p).goto i q = b.moved i N current peak ttl q := by
  unfold Threads.goto Threads.moved
  rw [List.set_set]

/-- A pointer leads to the object of its node. -/
theorem stats_pointed (hN : Coherent s.nodes) (h : Pointed s.nodes t) :
    s.stats t.call = applied t.name s.nodes.updates := by
  obtain ⟨-,object,hc⟩ := h
  have hentry := hN.returned t.name object (List.mem_of_getElem? hc)
  unfold Threads.stats
  rw [hc]
  change (s.nodes.objects[object]?).getD {} = _
  rw [hN.contents _ hentry]
  rfl

theorem moved_stats (hN : Coherent N) (h : Pointed N t) :
    (b.moved i N current peak ttl p).stats t.call = applied t.name N.updates :=
  stats_pointed (s := b.moved i N current peak ttl p) hN h

section Moves
variable (hi : i < b.callbacks.length)
include hi

/-- A step that ends in a `goto`, perhaps after a change of the counters. -/
theorem moved_step {N' : Shared} {current' peak' : UInt32} {ttl' : ℤ}
    (h : (b.moved i N current peak ttl p).next i now p =
      (b.moved i N' current' peak' ttl' p).goto i q)
    (hrest : Reaches i now (b.moved i N' current' peak' ttl' q) u) :
    Reaches i now (b.moved i N current peak ttl p) u := by
  have hone : Reaches i now (b.moved i N current peak ttl p)
      ((b.moved i N current peak ttl p).next i now p) := Reaches.step (List.getElem?_set_self hi)
  rw [h,moved_goto] at hone
  exact hone.trans hrest

/-- A peak after it has been looked at with a value. -/
theorem global_alone (value nodeValue : UInt32) (ts : ℤ) :
    Reaches i now (b.moved i N current peak ttl (.globalPeak t value nodeValue ts .peak))
      (b.moved i N current (if peak < value ∨ ttl < ts then value else peak)
        (if peak < value ∨ ttl < ts then ts+15 else ttl) (.nodePeak t nodeValue ts .peak)) := by
  have hstore : Reaches i now
      (b.moved i N current peak ttl (.globalPeak t value nodeValue ts .store))
      (b.moved i N current value (ts+15) (.nodePeak t nodeValue ts .peak)) :=
    moved_step hi rfl (moved_step hi rfl Reaches.refl)
  by_cases hpeak : peak < value
  · rw [if_pos (Or.inl hpeak),if_pos (Or.inl hpeak)]
    refine moved_step hi ?_ hstore
    change Threads.goto _ i (.globalPeak t value nodeValue ts (if peak < value then _ else _)) = _
    rw [if_pos hpeak]
  · have hload : Reaches i now
        (b.moved i N current peak ttl (.globalPeak t value nodeValue ts .ttl))
        (b.moved i N current (if peak < value ∨ ttl < ts then value else peak)
          (if peak < value ∨ ttl < ts then ts+15 else ttl) (.nodePeak t nodeValue ts .peak)) := by
      by_cases httl : ttl < ts
      · rw [if_pos (Or.inr httl),if_pos (Or.inr httl)]
        refine moved_step hi ?_ hstore
        change Threads.goto _ i (if ttl < ts then _ else _) = _
        rw [if_pos httl]
      · have hneither : ¬(peak < value ∨ ttl < ts) := not_or.mpr ⟨hpeak,httl⟩
        rw [if_neg hneither,if_neg hneither]
        refine moved_step hi ?_ Reaches.refl
        change Threads.goto _ i (if ttl < ts then _ else _) = _
        rw [if_neg httl]
    refine moved_step hi ?_ hload
    change Threads.goto _ i (.globalPeak t value nodeValue ts (if peak < value then _ else _)) = _
    rw [if_neg hpeak]

end Moves

/-- The map of the nodes with what their objects hold. -/
def viewed (N : Shared) : List (String × NodeConnectionStats) :=
  (keys N.nodeStatsMap).map (fun n => (n,applied n N.updates))

def peaked (value : UInt32) (ts : ℤ) (x : NodeConnectionStats) : NodeConnectionStats :=
  if x.asyncPeak < value ∨ x.asyncPeakTtl < ts then
    { x with asyncPeak := value, asyncPeakTtl := ts+15 }
  else x

/-- The nodes as they were, but for what was done to one of them. -/
structure Changed (N N' : Shared) (t : Tracked) (f : Update) : Prop where
  coherent : Coherent N'
  pointed : Pointed N' t
  keys : keys N'.nodeStatsMap = keys N.nodeStatsMap
  applied : ∀ n, applied n N'.updates =
    if t.name = n then f (applied n N.updates) else applied n N.updates

theorem changed_none (hN : Coherent N) (h : Pointed N t) : Changed N N t id :=
  ⟨hN,h,rfl,fun n => by split_ifs <;> rfl⟩

theorem changed_update (hN : Coherent N) (h : Pointed N t) (f : Update) :
    Changed N ((NodeObjects.Event.update t.call f).next N) t f := by
  refine ⟨NodeObjects.next_coherent _ hN,h.next _,?_,update_applied h f⟩
  obtain ⟨-,object,hc⟩ := h
  simp only [NodeObjects.Event.next,hc]

theorem Changed.trans {N' N'' : Shared} {f g : Update} (h : Changed N N' t f)
    (h' : Changed N' N'' t g) : Changed N N'' t (fun x => g (f x)) := by
  refine ⟨h'.coherent,h'.pointed,h'.keys.trans h.keys,fun n => ?_⟩
  rw [h'.applied,h.applied]
  by_cases hn : t.name = n
  · rw [if_pos hn,if_pos hn,if_pos hn]
  · rw [if_neg hn,if_neg hn,if_neg hn]

theorem Changed.congr {N' : Shared} {f g : Update} (h : Changed N N' t f)
    (hfg : f (NodeObjects.applied t.name N.updates) = g (NodeObjects.applied t.name N.updates)) :
    Changed N N' t g := by
  refine ⟨h.coherent,h.pointed,h.keys,fun n => ?_⟩
  rw [h.applied]
  by_cases hn : t.name = n
  · rw [if_pos hn,if_pos hn,← hn,hfg]
  · rw [if_neg hn,if_neg hn]

theorem node_alone (hi : i < b.callbacks.length) (hN : Coherent N) (h : Pointed N t)
    (nodeValue : UInt32) (ts : ℤ) : ∃ N', Changed N N' t (peaked nodeValue ts) ∧
      Reaches i now (b.moved i N current peak ttl (.nodePeak t nodeValue ts .peak))
        (b.moved i N' current peak ttl (.live t.name)) := by
  have hstats : ∀ p, (b.moved i N current peak ttl p).stats t.call = applied t.name N.updates :=
    fun p => moved_stats hN h
  have hstored := changed_update hN h (fun x => { x with asyncPeak := nodeValue })
  have hboth := hstored.trans (changed_update hstored.coherent hstored.pointed
    (fun x => { x with asyncPeakTtl := ts+15 }))
  have hstore : Reaches i now
      (b.moved i N current peak ttl (.nodePeak t nodeValue ts .store))
      (b.moved i _ current peak ttl (.live t.name)) :=
    moved_step hi rfl (moved_step hi rfl Reaches.refl)
  by_cases hpeak : (applied t.name N.updates).asyncPeak < nodeValue
  · refine ⟨_,hboth.congr (g := peaked nodeValue ts) ?_,?_⟩
    · rw [peaked,if_pos (Or.inl hpeak)]
    · refine moved_step hi ?_ hstore
      change Threads.goto _ i (.nodePeak t nodeValue ts (if _ then _ else _)) = _
      rw [hstats,if_pos hpeak]
  · have hcheck : (b.moved i N current peak ttl (.nodePeak t nodeValue ts .peak)).next i now
        (.nodePeak t nodeValue ts .peak) = (b.moved i N current peak ttl
          (.nodePeak t nodeValue ts .peak)).goto i (.nodePeak t nodeValue ts .ttl) := by
      change Threads.goto _ i (.nodePeak t nodeValue ts (if _ then _ else _)) = _
      rw [hstats,if_neg hpeak]
    by_cases httl : (applied t.name N.updates).asyncPeakTtl < ts
    · refine ⟨_,hboth.congr (g := peaked nodeValue ts) ?_,moved_step hi hcheck ?_⟩
      · rw [peaked,if_pos (Or.inr httl)]
      · refine moved_step hi ?_ hstore
        change Threads.goto _ i (if _ then _ else _) = _
        rw [hstats,if_pos httl]
    · refine ⟨N,(changed_none hN h).congr (g := peaked nodeValue ts) ?_,moved_step hi hcheck ?_⟩
      · rw [peaked,if_neg (not_or.mpr ⟨hpeak,httl⟩)]
        rfl
      · refine moved_step hi ?_ Reaches.refl
        change Threads.goto _ i (if _ then _ else _) = _
        rw [hstats,if_neg httl]

theorem calling_lookup {found : Threads}
    (hcall : N.calls[t.call]? = some (.calling t.name) ∨ N.calls[t.call]? = some (.missed t.name)) :
    (b.moved i N current peak ttl p).lookup t.call found =
      b.moved i ((NodeObjects.Event.enter t.call).next N) current peak ttl p := by
  unfold Threads.lookup
  change (match N.calls[t.call]? with | some (.returned _ _) => _ | _ => _) = _
  rcases hcall with hcall | hcall
  · rw [hcall]
    rfl
  · rw [hcall]
    rfl

/-- The node has an object now, if it had none before, and that is all. -/
structure Found (N N' : Shared) (t : Tracked) : Prop where
  coherent : Coherent N'
  pointed : Pointed N' t
  updates : N'.updates = N.updates
  keys : keys N'.nodeStatsMap = if t.name ∈ keys N.nodeStatsMap then keys N.nodeStatsMap
    else keys N.nodeStatsMap ++ [t.name]

theorem lookup_alone (hi : i < b.callbacks.length) (hN : Coherent N) (hname : t.name ≠ "")
    (hcall : N.calls[t.call]? = some (.calling t.name))
    (hnext : ∀ N, ∃ found, (b.moved i N current peak ttl p).next i now p =
      (b.moved i N current peak ttl p).lookup t.call found) :
    ∃ N', Found N N' t ∧ Reaches i now (b.moved i N current peak ttl p)
      (b.moved i N' current peak ttl p) := by
  have hlt : t.call < N.calls.length := (List.getElem?_eq_some_iff.mp hcall).1
  have hstep : ∀ N : Shared, N.calls[t.call]? = some (.calling t.name) ∨
      N.calls[t.call]? = some (.missed t.name) → Reaches i now (b.moved i N current peak ttl p)
        (b.moved i ((NodeObjects.Event.enter t.call).next N) current peak ttl p) := by
    intro N hcall
    obtain ⟨found,heq⟩ := hnext N
    have hone : Reaches i now (b.moved i N current peak ttl p)
        ((b.moved i N current peak ttl p).next i now p) := Reaches.step (List.getElem?_set_self hi)
    rwa [heq,calling_lookup hcall] at hone
  have hfirst : (NodeObjects.Event.enter t.call).next N =
      { N with calls := N.calls.set t.call (NodeObjects.lookupShared t.name N) } := by
    simp only [NodeObjects.Event.next,hcall]
  have hshared := NodeObjects.next_coherent (.enter t.call) hN
  cases hfind : NodeObjects.find t.name N.nodeStatsMap with
  | some object =>
    have hkey : t.name ∈ keys N.nodeStatsMap := mem_keys (NodeObjects.mem_of_find hfind)
    refine ⟨_,⟨hshared,⟨hname,object,?_⟩,enter_updates _,?_⟩,hstep N (Or.inl hcall)⟩
    · rw [hfirst]
      change (N.calls.set t.call _)[t.call]? = _
      rw [List.getElem?_set_self hlt,NodeObjects.lookupShared,hfind]
    · rw [hfirst,if_pos hkey]
  | none =>
    have hkey : t.name ∉ keys N.nodeStatsMap := NodeObjects.absent_of_find hfind
    have hmissed : ((NodeObjects.Event.enter t.call).next N) =
        { N with calls := N.calls.set t.call (.missed t.name) } := by
      rw [hfirst,NodeObjects.lookupShared,hfind]
    rw [hmissed] at hshared hfirst
    have hcalls : (N.calls.set t.call (NodeObjects.Call.missed t.name))[t.call]? =
        some (.missed t.name) := List.getElem?_set_self hlt
    have hone := hstep N (Or.inl hcall)
    rw [hmissed] at hone
    have hsecond := hstep { N with calls := N.calls.set t.call (.missed t.name) } (Or.inr hcalls)
    have hinserted : (NodeObjects.Event.enter t.call).next
        { N with calls := N.calls.set t.call (.missed t.name) } =
        ⟨N.objects ++ [({} : NodeConnectionStats)],N.nodeStatsMap ++ [(t.name,N.objects.length)],
          N.calls.set t.call (.returned t.name N.objects.length),N.updates⟩ := by
      rcases NodeObjects.lookupOrInsert_cases t.name
        { N with calls := N.calls.set t.call (.missed t.name) } with ⟨object,hmem,-⟩ | ⟨-,heq⟩
      · exact absurd (mem_keys hmem) hkey
      · simp only [NodeObjects.Event.next,hcalls,heq,List.set_set]
    have hcoherent := NodeObjects.next_coherent (.enter t.call) hshared
    rw [hinserted] at hsecond hcoherent
    refine ⟨_,⟨hcoherent,⟨hname,N.objects.length,List.getElem?_set_self hlt⟩,rfl,?_⟩,
      hone.trans hsecond⟩
    rw [if_neg hkey]
    simp [keys]

/-- What the other functions see of the counters. -/
def Threads.counters (c : Counters) (s : Threads) : Counters := { c with
  asyncCurrent := s.asyncCurrent
  asyncPeak := s.asyncPeak
  asyncPeakTtl := s.asyncPeakTtl
  nodeStats := viewed s.nodes }

theorem viewed_updated {N' N'' : Shared} {f : Update} (hN : Coherent N) (hfound : Found N N' t)
    (h : Changed N' N'' t f) : viewed N'' = updateNodeStats t.name f (viewed N) := by
  have hkeys : keys (viewed N) = keys N.nodeStatsMap := by
    unfold viewed
    rw [keys,List.map_map]
    exact List.map_id _
  rw [updateNodeStats_eq]
  unfold adjust
  rw [hkeys]
  unfold viewed
  rw [h.keys,hfound.keys]
  by_cases hkey : t.name ∈ keys N.nodeStatsMap
  · rw [if_pos hkey,if_pos hkey,List.map_map]
    apply List.map_congr_left
    intro n _
    rw [h.applied,hfound.updates]
    by_cases hn : t.name = n
    · simp [hn]
    · simp [hn,Ne.symm hn]
  · rw [if_neg hkey,if_neg hkey,List.map_append]
    congr 1
    · apply List.map_congr_left
      intro n hmem
      have hn : t.name ≠ n := fun heq => hkey (heq ▸ hmem)
      rw [h.applied,if_neg hn,hfound.updates]
    · have hnone : NodeObjects.applied t.name N.updates = {} :=
        NodeObjects.applied_absent (fun u hu heq => hkey (heq ▸ hN.known u hu))
      rw [List.map_singleton,h.applied,if_pos rfl,hfound.updates,hnone]

theorem pointed_lookup {found : Threads} (h : Pointed N t) :
    (b.moved i N current peak ttl p).lookup t.call found = found := by
  obtain ⟨-,object,hc⟩ := h
  unfold Threads.lookup
  change (match N.calls[t.call]? with | some (.returned _ _) => _ | _ => _) = _
  rw [hc]

/-- From the object to the end of the constructor. -/
theorem count_alone (hi : i < b.callbacks.length) (hN : Coherent N) (h : Pointed N t) :
    ∃ N', Changed N N' t (·.enter now) ∧
      Reaches i now (b.moved i N current peak ttl (.looking t)) (b.moved i N' (current+1)
        (if peak < current+1 ∨ ttl < now then current+1 else peak)
        (if peak < current+1 ∨ ttl < now then now+15 else ttl) (.live t.name)) := by
  let add : Update := fun x => { x with asyncCurrent := x.asyncCurrent+1 }
  let M : Shared := (NodeObjects.Event.update t.call add).next N
  let value : UInt32 := (NodeObjects.applied t.name N.updates).asyncCurrent+1
  have hadded : Changed N M t add := changed_update hN h add
  have hvalue : (NodeObjects.applied t.name M.updates).asyncCurrent = value := by
    rw [hadded.applied,if_pos rfl]
  have hlooked : Reaches i now (b.moved i N current peak ttl (.looking t))
      (b.moved i N (current+1) peak ttl (.addingNode t)) := by
    refine moved_step hi ?_ Reaches.refl
    rw [Threads.next,pointed_lookup h]
    rfl
  have hloading : Reaches i now (b.moved i N (current+1) peak ttl (.addingNode t))
      (b.moved i M (current+1) peak ttl (.loadingNode t (current+1))) :=
    moved_step hi rfl (moved_step hi rfl Reaches.refl)
  have htiming : Reaches i now (b.moved i M (current+1) peak ttl (.loadingNode t (current+1)))
      (b.moved i M (current+1) peak ttl (.timing t (current+1) value)) := by
    refine moved_step hi ?_ Reaches.refl
    rw [Threads.next,moved_stats hadded.coherent hadded.pointed,hvalue]
  have hpeaks : Reaches i now (b.moved i M (current+1) peak ttl (.timing t (current+1) value))
      (b.moved i M (current+1) (if peak < current+1 ∨ ttl < now then current+1 else peak)
        (if peak < current+1 ∨ ttl < now then now+15 else ttl) (.nodePeak t value now .peak)) :=
    moved_step hi rfl (global_alone hi _ _ _)
  obtain ⟨N',hpeaked,hnode⟩ : ∃ N', Changed M N' t (peaked value now) ∧
      Reaches i now (b.moved i M (current+1)
        (if peak < current+1 ∨ ttl < now then current+1 else peak)
        (if peak < current+1 ∨ ttl < now then now+15 else ttl) (.nodePeak t value now .peak))
      (b.moved i N' (current+1) (if peak < current+1 ∨ ttl < now then current+1 else peak)
        (if peak < current+1 ∨ ttl < now then now+15 else ttl) (.live t.name)) :=
    node_alone hi hadded.coherent hadded.pointed value now
  exact ⟨N',(hadded.trans hpeaked).congr rfl,
    hlooked.trans (hloading.trans (htiming.trans (hpeaks.trans hnode)))⟩

/-- A constructor that nothing interrupts does what `trackNode` does. -/
theorem construct_alone {env : Env} {key : AsKey} {w : World} (hs : Sound s)
    (hw : w.statisticsEnabled = s.enabled) (hcounters : w.counters = s.counters w.counters) :
    ∃ u, Reaches s.callbacks.length env.now
        ((Event.construct (targetNode env (some key) w)).next s) u ∧
      u.callbacks = s.callbacks ++ [.live (targetNode env (some key) w)] ∧
      (trackNode env (some key) w).2.counters = u.counters w.counters := by
  obtain ⟨accesses,hrun⟩ := trackNode_spec env (some key) w
  rw [hrun]
  by_cases hname : targetNode env (some key) w = ""
  · rw [hname]
    refine ⟨_,Reaches.refl,?_,?_⟩
    · simp [Event.next]
    · simp only [Event.next,trackedCounters,if_true,or_true]
      exact hcounters
  · have henabled : s.enabled = true := by
      rw [← hw]
      by_contra hoff
      exact hname (OperationCounters.targetNode_none _ (fun h => hoff h.1))
    let t : Tracked := ⟨targetNode env (some key) w,s.nodes.calls.length⟩
    let b : Threads := { s with callbacks := s.callbacks ++ [.looking t] }
    have hi : s.callbacks.length < b.callbacks.length := by simp [b]
    have hstart : (Event.construct (targetNode env (some key) w)).next s =
        b.moved s.callbacks.length ((NodeObjects.Event.call t.name).next s.nodes) s.asyncCurrent
          s.asyncPeak s.asyncPeakTtl (.looking t) := by
      have hnot : ¬(s.enabled = false ∨ targetNode env (some key) w = "") := by simp [henabled,hname]
      simp only [Event.next,if_neg hnot]
      simp [Threads.moved,b,Threads.nodeEvent,t]
    have hcoherent := NodeObjects.next_coherent (.call t.name) hs.nodes
    obtain ⟨N',hfound,hlooked⟩ : ∃ N', Found ((NodeObjects.Event.call t.name).next s.nodes) N' t ∧
        Reaches s.callbacks.length env.now
          (b.moved s.callbacks.length ((NodeObjects.Event.call t.name).next s.nodes)
            s.asyncCurrent s.asyncPeak s.asyncPeakTtl (.looking t))
          (b.moved s.callbacks.length N' s.asyncCurrent s.asyncPeak s.asyncPeakTtl (.looking t)) :=
      lookup_alone hi hcoherent hname List.getElem?_concat_length (fun N => ⟨_,rfl⟩)
    obtain ⟨N'',hchanged,hcounted⟩ := count_alone hi hfound.coherent hfound.pointed
    rw [hstart]
    refine ⟨_,hlooked.trans hcounted,?_,?_⟩
    · simp [Threads.moved,b,t]
    · have hview := viewed_updated hcoherent hfound hchanged
      rw [trackedCounters,if_neg hname,hcounters]
      unfold Threads.counters Counters.asyncEnter Threads.moved
      by_cases hpeak : s.asyncPeak < s.asyncCurrent+1 ∨ s.asyncPeakTtl < env.now
      · simp only [hview,if_pos hpeak]
        rfl
      · simp only [hview,if_neg hpeak]
        rfl

/-- A destructor that nothing interrupts does what `untrackNode` does. -/
theorem destroy_alone {name : String} {w : World} (hs : Sound s)
    (hw : w.statisticsEnabled = s.enabled) (hcounters : w.counters = s.counters w.counters)
    (hi : s.callbacks[i]? = some (.live name)) :
    ∃ u, Reaches i now s u ∧ (untrackNode name w).counters = u.counters w.counters := by
  have hlt : i < s.callbacks.length := (List.getElem?_eq_some_iff.mp hi).1
  by_cases hcond : name ≠ "" ∧ s.enabled = true
  · obtain ⟨hname,henabled⟩ := hcond
    let t : Tracked := ⟨name,s.nodes.calls.length⟩
    let leave : Update := fun x => { x with asyncCurrent := x.asyncCurrent-1 }
    have hbase : s = s.moved i s.nodes s.asyncCurrent s.asyncPeak s.asyncPeakTtl (.live name) := by
      obtain ⟨hlen,hget⟩ := List.getElem?_eq_some_iff.mp hi
      unfold Threads.moved
      rw [← hget,List.set_getElem_self]
    have hcoherent := NodeObjects.next_coherent (.call name) hs.nodes
    obtain ⟨N',hfound,hlooked⟩ : ∃ N', Found ((NodeObjects.Event.call name).next s.nodes) N' t ∧
        Reaches i now (s.moved i ((NodeObjects.Event.call name).next s.nodes) (s.asyncCurrent-1)
          s.asyncPeak s.asyncPeakTtl (.lookingAgain t))
        (s.moved i N' (s.asyncCurrent-1) s.asyncPeak s.asyncPeakTtl (.lookingAgain t)) :=
      lookup_alone hlt hcoherent hname List.getElem?_concat_length (fun N => ⟨_,rfl⟩)
    have hchanged := changed_update hfound.coherent hfound.pointed leave
    have hfirst : Reaches i now
        (s.moved i s.nodes s.asyncCurrent s.asyncPeak s.asyncPeakTtl (.live name))
        (s.moved i ((NodeObjects.Event.call name).next s.nodes) (s.asyncCurrent-1) s.asyncPeak
          s.asyncPeakTtl (.lookingAgain t)) := by
      have hleft : Reaches i now
          (s.moved i s.nodes s.asyncCurrent s.asyncPeak s.asyncPeakTtl (.leaving name))
          (s.moved i ((NodeObjects.Event.call name).next s.nodes) (s.asyncCurrent-1) s.asyncPeak
            s.asyncPeakTtl (.lookingAgain t)) := moved_step hlt rfl Reaches.refl
      refine moved_step hlt ?_ hleft
      change Threads.goto _ i (if name = "" then _ else if s.enabled = true then _ else _) = _
      rw [if_neg hname,if_pos henabled]
    have hlast : Reaches i now
        (s.moved i N' (s.asyncCurrent-1) s.asyncPeak s.asyncPeakTtl (.lookingAgain t))
        (s.moved i ((NodeObjects.Event.update t.call leave).next N') (s.asyncCurrent-1) s.asyncPeak
          s.asyncPeakTtl .gone) := by
      refine moved_step hlt ?_ Reaches.refl
      rw [Threads.next,pointed_lookup hfound.pointed]
      rfl
    have hview := viewed_updated hcoherent hfound hchanged
    have hwhole := hfirst.trans (hlooked.trans hlast)
    rw [← hbase] at hwhole
    refine ⟨_,hwhole,?_⟩
    unfold untrackNode
    rw [if_pos ⟨hname,hw.trans henabled⟩,hcounters]
    unfold Threads.counters Counters.asyncLeave Threads.moved
    simp only [hview]
    rfl
  · have hw' : ¬(name ≠ "" ∧ w.statisticsEnabled = true) := by rwa [hw]
    refine ⟨s,Reaches.refl,?_⟩
    unfold untrackNode
    rw [if_neg hw']
    exact hcounters

end Alone

section Totals
variable {s : Threads}

/-- No constructor and no destructor is under way. -/
def Phase.settled : Phase → Bool
  | .live _ => true
  | .gone => true
  | .abandoned _ => true
  | _ => false

def Phase.owner : Phase → Option String
  | .live name => if name = "" then none else some name
  | .abandoned name => some name
  | _ => none

theorem owner_counted {p : Phase} (h : p.settled = true) : p.counted = p.owner.isSome := by
  cases p with
  | live name => by_cases hname : name = "" <;> simp [Phase.counted,Phase.owner,hname]
  | gone => rfl
  | abandoned name => rfl
  | _ => cases h

theorem owner_countedOn {p : Phase} (h : p.settled = true) (n : String) :
    p.countedOn n = (p.owner == some n) := by
  rw [Bool.eq_iff_iff]
  cases p with
  | live name => by_cases hname : name = "" <;> simp [Phase.countedOn,Phase.owner,hname]
  | gone => simp [Phase.countedOn,Phase.owner]
  | abandoned name => simp [Phase.countedOn,Phase.owner]
  | _ => cases h

theorem owner_known (h : Sound s) {name : String} (hname : name ∈ s.callbacks.filterMap Phase.owner) :
    name ∈ keys s.nodes.nodeStatsMap := by
  obtain ⟨p,hp,howner⟩ := List.mem_filterMap.mp hname
  have hheld := h.held p hp
  cases p with
  | live other =>
    simp only [Phase.owner] at howner
    split_ifs at howner with hempty
    cases howner
    exact hheld.resolve_left hempty
  | abandoned other =>
    cases howner
    exact hheld.2
  | _ => cases howner

theorem sum_ofNat {α : Type} (f : α → ℕ) (l : List α) :
    (l.map (fun x => UInt32.ofNat (f x))).sum = UInt32.ofNat (l.map f).sum := by
  induction l with
  | nil => rfl
  | cons x l ih => rw [List.map_cons,List.sum_cons,List.map_cons,List.sum_cons,ih,UInt32.ofNat_add]

/-- Each settled callback is counted on one node, and that node is in the map. -/
theorem settled_sum (h : Sound s) (hsettled : ∀ p ∈ s.callbacks, p.settled = true) :
    ((keys s.nodes.nodeStatsMap).map (fun n => s.callbacks.countP (Phase.countedOn n))).sum =
      s.callbacks.countP Phase.counted := by
  have hone : ((keys s.nodes.nodeStatsMap).map (fun n => (n,n))).map Prod.fst =
      keys s.nodes.nodeStatsMap := by
    rw [List.map_map]
    exact List.map_id _
  have hcount : ∀ n, s.callbacks.countP (Phase.countedOn n) =
      (s.callbacks.filterMap Phase.owner).count n := by
    intro n
    rw [List.count_filterMap]
    exact List.countP_congr fun p hp => by rw [owner_countedOn (hsettled p hp)]
  have htally : Tally (fun n => s.callbacks.countP (Phase.countedOn n))
      (s.callbacks.filterMap Phase.owner)
      ((keys s.nodes.nodeStatsMap).map (fun n => (n,n))) := by
    constructor
    · rw [keys,hone]
      exact h.nodes.names
    · intro e he
      obtain ⟨n,-,rfl⟩ := List.mem_map.mp he
      exact hcount n
    · intro n hn
      rw [keys,hone]
      exact owner_known h hn
  have htotal := htally.total
  rw [List.map_map] at htotal
  rw [← List.countP_congr (fun p hp => by rw [owner_counted (hsettled p hp)]),
    ← List.length_filterMap_eq_countP,← htotal]
  rfl

/-- The counter in an object. -/
def Threads.objectCurrent (s : Threads) (object : ℕ) : UInt32 :=
  ((s.nodes.objects[object]?).getD {}).asyncCurrent

theorem object_current (h : Sound s) {e : String × ℕ} (he : e ∈ s.nodes.nodeStatsMap) :
    s.objectCurrent e.2 = s.nodeCurrent e.1 := by
  unfold Threads.objectCurrent
  rw [h.nodes.contents e he]
  rfl

theorem counter_of_drift {value : UInt32} {q : Phase → Bool} {l : List Phase}
    (h : drift value q l = 0) : value = UInt32.ofNat (l.countP q) := by
  unfold drift at h
  grind

/-- From a load on, with any number of callbacks in any interleaving: both
counters are right at every moment, and when nothing is under way the nodes
add up to the whole. -/
theorem callbacks_account (enabled : Bool) (events : List Event) :
    (reached enabled events).asyncCurrent =
      UInt32.ofNat ((reached enabled events).callbacks.countP Phase.counted) ∧
    (∀ e ∈ (reached enabled events).nodes.nodeStatsMap,
      (reached enabled events).objectCurrent e.2 =
        UInt32.ofNat ((reached enabled events).callbacks.countP (Phase.countedOn e.1))) ∧
    ((∀ p ∈ (reached enabled events).callbacks, p.settled = true) →
      ((reached enabled events).nodes.nodeStatsMap.map
        (fun e => (reached enabled events).objectCurrent e.2)).sum =
          (reached enabled events).asyncCurrent) := by
  have hsound : Sound (reached enabled events) := reached_sound events (start_sound enabled)
  obtain ⟨hglobal,hnode⟩ := drift_kept events (start_sound enabled)
  have hzero : ∀ q, drift 0 q [] = 0 := fun q => by simp [drift]
  have hall : (reached enabled events).asyncCurrent =
      UInt32.ofNat ((reached enabled events).callbacks.countP Phase.counted) :=
    counter_of_drift (hglobal.trans (hzero _))
  have heach : ∀ e ∈ (reached enabled events).nodes.nodeStatsMap,
      (reached enabled events).objectCurrent e.2 =
        UInt32.ofNat ((reached enabled events).callbacks.countP (Phase.countedOn e.1)) := by
    intro e he
    rw [object_current hsound he]
    exact counter_of_drift ((hnode e.1).trans (hzero _))
  refine ⟨hall,heach,fun hsettled => ?_⟩
  rw [List.map_congr_left heach,hall,← settled_sum hsound hsettled,keys,List.map_map]
  exact sum_ofNat (fun e : String × ℕ => (reached enabled events).callbacks.countP
    (Phase.countedOn e.1)) _

end Totals

end AspikePort.CallbackCounters
