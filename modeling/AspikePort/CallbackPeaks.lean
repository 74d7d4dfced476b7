import AspikePort.CallbackCounters

/-!
# What the peaks of concurrent callbacks show

A peak is checked, loaded for and stored in different steps, so that a lower
value may replace a higher one. It is never made up: what a peak shows is what
its counter showed at some moment of the run. Nothing else can be said of it
without looking at the interleaving.
-/

set_option autoImplicit false

namespace AspikePort.CallbackPeaks
open AspikePort.NifWorld AspikePort.LabelledRuns AspikePort.CallbackCounters
open AspikePort.NodeObjects (Shared Coherent Update applied)

section Values

/-- The values in a callback are such as the two counters may have had. -/
def Values (P : UInt32 → Prop) (Q : String → UInt32 → Prop) : Phase → Prop
  | .loadingNode _ value => P value
  | .timing t value nodeValue => P value ∧ Q t.name nodeValue
  | .globalPeak t value nodeValue _ _ => P value ∧ Q t.name nodeValue
  | .nodePeak t nodeValue _ _ => Q t.name nodeValue
  | _ => True

def nodePeak (n : String) (s : Threads) : UInt32 := (applied n s.nodes.updates).asyncPeak

structure Witnessed (P : UInt32 → Prop) (Q : String → UInt32 → Prop) (s : Threads) : Prop where
  peak : P s.asyncPeak
  node : ∀ n, Q n (nodePeak n s)
  held : ∀ p ∈ s.callbacks, Values P Q p

variable {P P' : UInt32 → Prop} {Q Q' : String → UInt32 → Prop} {s t : Threads} {i : ℕ}
  {p q : Phase}

theorem Values.mono (h : Values P Q p) (hP : ∀ v, P v → P' v) (hQ : ∀ n v, Q n v → Q' n v) :
    Values P' Q' p := by
  cases p with
  | loadingNode t value => exact hP _ h
  | timing t value nodeValue => exact ⟨hP _ h.1,hQ _ _ h.2⟩
  | globalPeak t value nodeValue ts check => exact ⟨hP _ h.1,hQ _ _ h.2⟩
  | nodePeak t nodeValue ts check => exact hQ _ _ h
  | _ => trivial

theorem Witnessed.mono (h : Witnessed P Q s) (hP : ∀ v, P v → P' v)
    (hQ : ∀ n v, Q n v → Q' n v) : Witnessed P' Q' s :=
  ⟨hP _ h.peak,fun n => hQ n _ (h.node n),fun p hp => (h.held p hp).mono hP hQ⟩

theorem Witnessed.goto (h : Witnessed P Q s) (hq : Values P Q q) : Witnessed P Q (s.goto i q) := by
  refine ⟨h.peak,h.node,fun p hp => ?_⟩
  rcases List.mem_or_eq_of_mem_set hp with hp | rfl
  · exact h.held p hp
  · exact hq

/-- A step that leaves the peaks and the callbacks alone. -/
theorem Witnessed.of_same (h : Witnessed P Q s) (hpeak : t.asyncPeak = s.asyncPeak)
    (hnode : ∀ n, nodePeak n t = nodePeak n s) (hcallbacks : t.callbacks = s.callbacks) :
    Witnessed P Q t :=
  ⟨hpeak ▸ h.peak,fun n => (hnode n).symm ▸ h.node n,fun p hp => h.held p (hcallbacks ▸ hp)⟩

theorem Witnessed.enter (h : Witnessed P Q s) (call : ℕ) :
    Witnessed P Q (s.nodeEvent (.enter call)) := by
  have hnode : ∀ n, nodePeak n (s.nodeEvent (.enter call)) = nodePeak n s := by
    intro n
    unfold nodePeak Threads.nodeEvent
    rw [enter_updates]
  exact Witnessed.of_same h rfl hnode rfl

theorem Witnessed.update (h : Witnessed P Q s) {t : Tracked} (hpoint : Pointed s.nodes t)
    {f : Update} (hf : ∀ x, Q t.name x.asyncPeak → Q t.name (f x).asyncPeak) :
    Witnessed P Q (s.nodeEvent (.update t.call f)) := by
  refine ⟨h.peak,fun n => ?_,h.held⟩
  unfold nodePeak Threads.nodeEvent
  rw [update_applied hpoint]
  by_cases hn : t.name = n
  · rw [if_pos hn,← hn]
    exact hf _ (h.node t.name)
  · rw [if_neg hn]
    exact h.node n

end Values

section Steps
variable {P : UInt32 → Prop} {Q : String → UInt32 → Prop} {s : Threads} {i : ℕ} {p : Phase}

/-- Values are loaded from the counters of this moment, and only such are stored. -/
theorem next_witnessed (hs : Sound s) (h : Witnessed P Q s) (hP : P s.asyncCurrent)
    (hQ : ∀ n, Q n (s.nodeCurrent n)) (hp : s.callbacks[i]? = some p) (now : ℤ) :
    Witnessed P Q (s.next i now p) := by
  have hheld := hs.held p (List.mem_of_getElem? hp)
  have hvalues := h.held p (List.mem_of_getElem? hp)
  cases p with
  | looking t =>
    rcases lookup_cases hheld _ with ⟨-,hfound⟩ | henter
    · rw [Threads.next,hfound]
      exact Witnessed.goto (h.of_same rfl (fun _ => rfl) rfl) trivial
    · rw [Threads.next,henter]
      exact h.enter _
  | addingNode t =>
    apply Witnessed.goto (h.update hheld ?_) ?_
    · exact fun _ hx => hx
    · trivial
  | loading t => exact h.goto hP
  | loadingNode t value =>
    rw [Threads.next,stats_pointed hs.nodes hheld]
    exact h.goto ⟨hvalues,hQ t.name⟩
  | timing t value nodeValue => exact h.goto hvalues
  | globalPeak t value nodeValue ts check =>
    cases check with
    | peak => exact h.goto hvalues
    | ttl =>
      apply h.goto
      split_ifs
      · exact hvalues
      · exact hvalues.2
    | store =>
      have hstored : Witnessed P Q { s with asyncPeak := value } := ⟨hvalues.1,h.node,h.held⟩
      exact hstored.goto hvalues
    | storeTtl => exact Witnessed.goto (h.of_same rfl (fun _ => rfl) rfl) hvalues.2
  | nodePeak t nodeValue ts check =>
    cases check with
    | peak => exact h.goto hvalues
    | ttl =>
      apply h.goto
      split_ifs
      · exact hvalues
      · trivial
    | store =>
      apply Witnessed.goto (h.update hheld ?_) ?_
      · exact fun _ _ => hvalues
      · exact hvalues
    | storeTtl =>
      apply Witnessed.goto (h.update hheld ?_) ?_
      · exact fun _ hx => hx
      · trivial
  | live name =>
    apply h.goto
    split_ifs <;> trivial
  | leaving name => exact Witnessed.goto (h.of_same rfl (fun _ => rfl) rfl) trivial
  | lookingAgain t =>
    rcases lookup_cases hheld.1 _ with ⟨hpoint,hfound⟩ | henter
    · rw [Threads.next,hfound]
      apply Witnessed.goto (h.update hpoint ?_) ?_
      · exact fun _ hx => hx
      · trivial
    · rw [Threads.next,henter]
      exact h.enter _
  | gone => exact h
  | abandoned name => exact h

theorem event_witnessed (a : Event) (hs : Sound s) (h : Witnessed P Q s)
    (hP : P s.asyncCurrent) (hQ : ∀ n, Q n (s.nodeCurrent n)) : Witnessed P Q (a.next s) := by
  cases a with
  | construct name =>
    simp only [Event.next]
    split_ifs
    · refine ⟨h.peak,h.node,fun p hp => ?_⟩
      rcases List.mem_append.mp hp with hp | hp
      · exact h.held p hp
      · rw [List.mem_singleton.mp hp]
        trivial
    · refine ⟨h.peak,h.node,fun p hp => ?_⟩
      rcases List.mem_append.mp hp with hp | hp
      · exact h.held p hp
      · rw [List.mem_singleton.mp hp]
        trivial
  | advance i now =>
    simp only [Event.next]
    split
    · next hp => exact next_witnessed hs h hP hQ hp now
    · exact h
  | toggle enabled => exact h.of_same rfl (fun _ => rfl) rfl

/-- Some moment up to the end of these events at which a number was this. -/
def Had (enabled : Bool) (f : Threads → UInt32) (events : List Event) (value : UInt32) : Prop :=
  ∃ earlier, earlier <+: events ∧ f (reached enabled earlier) = value

theorem Had.snoc {enabled : Bool} {f : Threads → UInt32} {events : List Event} {value : UInt32}
    (h : Had enabled f events value) (a : Event) : Had enabled f (events ++ [a]) value := by
  obtain ⟨earlier,hbefore,hvalue⟩ := h
  exact ⟨earlier,hbefore.trans (List.prefix_append _ _),hvalue⟩

/-- In every run each peak is a value that its own counter has had. -/
theorem peaks_witnessed (enabled : Bool) (events : List Event) :
    Had enabled Threads.asyncCurrent events (reached enabled events).asyncPeak ∧
    ∀ e ∈ (reached enabled events).nodes.nodeStatsMap,
      ∃ stats, (reached enabled events).nodes.objects[e.2]? = some stats ∧
        Had enabled (Threads.nodeCurrent e.1) events stats.asyncPeak := by
  have hrun : Witnessed (Had enabled Threads.asyncCurrent events)
      (fun n => Had enabled (Threads.nodeCurrent n) events) (reached enabled events) := by
    apply run_induction Event.next (I := fun as t => Witnessed
      (Had enabled Threads.asyncCurrent as) (fun n => Had enabled (Threads.nodeCurrent n) as) t)
    · exact ⟨⟨[],List.prefix_rfl,rfl⟩,fun n => ⟨[],List.prefix_rfl,rfl⟩,
        fun p hp => absurd hp List.not_mem_nil⟩
    · intro as a t h ht
      have hs : Sound t := ht ▸ reached_sound as (start_sound enabled)
      have hP : Had enabled Threads.asyncCurrent as t.asyncCurrent :=
        ⟨as,List.prefix_rfl,by rw [ht]; rfl⟩
      have hQ : ∀ n, Had enabled (Threads.nodeCurrent n) as (t.nodeCurrent n) :=
        fun n => ⟨as,List.prefix_rfl,by rw [ht]; rfl⟩
      exact (event_witnessed a hs h hP hQ).mono (fun v hv => hv.snoc a) (fun n v hv => hv.snoc a)
  have hs : Sound (reached enabled events) := reached_sound events (start_sound enabled)
  exact ⟨hrun.peak,fun e he => ⟨_,hs.nodes.contents e he,hrun.node e.1⟩⟩

end Steps

end AspikePort.CallbackPeaks
