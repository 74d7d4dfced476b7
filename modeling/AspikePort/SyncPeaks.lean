import AspikePort.LabelledRuns
import AspikePort.NifWorld

/-!
# The peak under concurrent constructors

The constructor of a `SyncOperationCounter` is taken apart into its atomic
operations, and any number of constructors and destructors interleave within
one window. The peak is checked in one step and stored in a later one, so a
stale store can lower it. It never does in a run whose stores and checks all
find it the way their constructor needs, nor where one constructor at a time
is between its check and its last store.
-/

set_option autoImplicit false

namespace AspikePort.SyncPeaks
open AspikePort.NifWorld AspikePort.LabelledRuns

section Machine
variable (now : ℤ)

/-- How far an operation is; all but the first carry the `value` read back. -/
inductive Phase where
  | counted
  | loaded (value : UInt32)
  /-- The value does not pass the peak; the time of the peak is still to be loaded. -/
  | compared (value : UInt32)
  | storing (value : UInt32)
  | storingTtl (value : UInt32)
  | constructed (value : UInt32)
  | destroyed (value : UInt32)
  deriving DecidableEq, Repr

/-- One atomic operation of the constructor or of the destructor. -/
def Phase.next : Phase → Counters → Phase × Counters
  | .counted, c => (.loaded c.syncCurrent,c)
  | .loaded value, c => (if value > c.syncPeak then .storing value else .compared value,c)
  | .compared value, c =>
    (if now > c.syncPeakTtl then .storing value else .constructed value,c)
  | .storing value, c => (.storingTtl value,{ c with syncPeak := value })
  | .storingTtl value, c => (.constructed value,{ c with syncPeakTtl := now+15 })
  | .constructed value, c => (.destroyed value,{ c with syncCurrent := c.syncCurrent-1 })
  | .destroyed value, c => (.destroyed value,c)

structure Window where
  counters : Counters
  ops : List Phase

/-- The counters at the start of the window are whatever they were left. -/
def Window.start (c : Counters) : Window := ⟨c,[]⟩

inductive Event where
  /-- The `fetch_add` of a new constructor. -/
  | construct
  | advance (i : ℕ)
  /-- The `fetch_sub` of an operation constructed before the window. -/
  | finishEarlier

def Event.next : Event → Window → Window
  | .construct, s =>
    ⟨{ s.counters with syncCurrent := s.counters.syncCurrent+1 },s.ops ++ [.counted]⟩
  | .advance i, s =>
    match s.ops[i]? with
    | some op => ⟨(op.next now s.counters).2,s.ops.set i (op.next now s.counters).1⟩
    | none => s
  | .finishEarlier, s =>
    { s with counters := { s.counters with syncCurrent := s.counters.syncCurrent-1 } }

end Machine

section Alone
variable (now : ℤ)

theorem advance_last (c : Counters) (ops : List Phase) (op : Phase) :
    (Event.advance ops.length).next now ⟨c,ops ++ [op]⟩ =
      ⟨(op.next now c).2,ops ++ [(op.next now c).1]⟩ := by
  simp [Event.next]

/-- A constructor that nothing interrupts. -/
theorem alone_enters (w : World) (ops : List Phase) (h : w.statisticsEnabled = true) :
    ∃ n, run (Event.next now) (.construct::List.replicate n (.advance ops.length))
        ⟨w.counters,ops⟩ =
      ⟨(SyncOperationCounter.enter now w).counters,
        ops ++ [.constructed (w.counters.syncCurrent+1)]⟩ := by
  unfold SyncOperationCounter.enter
  rw [if_pos h]
  by_cases hpeak : w.counters.syncPeak < w.counters.syncCurrent+1
  · refine ⟨4,?_⟩
    simp only [List.replicate,run,Event.next.eq_1,advance_last]
    simp [Phase.next,hpeak]
  · by_cases httl : w.counters.syncPeakTtl < now
    · refine ⟨5,?_⟩
      simp only [List.replicate,run,Event.next.eq_1,advance_last]
      simp [Phase.next,hpeak,httl]
    · refine ⟨3,?_⟩
      simp only [List.replicate,run,Event.next.eq_1,advance_last]
      simp [Phase.next,hpeak,httl]

theorem alone_leaves (w : World) (ops : List Phase) (value : UInt32)
    (h : w.statisticsEnabled = true) :
    (Event.advance ops.length).next now ⟨w.counters,ops ++ [.constructed value]⟩ =
      ⟨(SyncOperationCounter.leave w).counters,ops ++ [.destroyed value]⟩ := by
  rw [advance_last]
  unfold SyncOperationCounter.leave
  rw [if_pos h]
  rfl

end Alone

section Peaks

def Phase.value : Phase → Option UInt32
  | .counted => none
  | .loaded value | .compared value | .storing value | .storingTtl value
  | .constructed value | .destroyed value => some value

def Phase.isConstructed : Phase → Bool
  | .constructed _ | .destroyed _ => true
  | _ => false

/-- The value of an operation that has no decision and no store of the peak ahead. -/
def Phase.settled : Phase → Option UInt32
  | .storingTtl value | .constructed value | .destroyed value => some value
  | _ => none

/-- When no constructor is running, the peak is at least every value read back. -/
def PeakKept (s : Window) : Prop :=
  (∀ op ∈ s.ops, op.isConstructed = true) → ∀ op ∈ s.ops, ∀ v ∈ op.value, v ≤ s.counters.syncPeak

def Covered (s : Window) : Prop := ∀ op ∈ s.ops, ∀ v ∈ op.settled, v ≤ s.counters.syncPeak

/-- A store of the peak passes no settled value; a constructor leaves the peak
alone only while the peak covers its value. -/
def Event.Meets (now : ℤ) : Event → Window → Prop
  | .advance i, s =>
    match s.ops[i]? with
    | some (.storing value) => ∀ op ∈ s.ops, ∀ v ∈ op.settled, v ≤ value
    | some (.compared value) => s.counters.syncPeakTtl < now ∨ value ≤ s.counters.syncPeak
    | _ => True
  | _, _ => True

theorem value_of_constructed {op : Phase} (h : op.isConstructed = true) :
    op.value = op.settled := by
  cases op with
  | constructed value => rfl
  | destroyed value => rfl
  | counted => exact absurd h (by decide)
  | loaded value => exact absurd h (by simp [Phase.isConstructed])
  | compared value => exact absurd h (by simp [Phase.isConstructed])
  | storing value => exact absurd h (by simp [Phase.isConstructed])
  | storingTtl value => exact absurd h (by simp [Phase.isConstructed])

theorem Covered.kept {s : Window} (h : Covered s) : PeakKept s := by
  intro hdone op hop v hv
  rw [value_of_constructed (hdone op hop)] at hv
  exact h op hop v hv

theorem start_covered (c : Counters) : Covered (Window.start c) := by
  intro op hop
  exact absurd hop List.not_mem_nil

theorem forall_set_iff {α : Type} {P : α → Prop} {l : List α} {i : ℕ} {a b : α}
    (h : l[i]? = some a) (ha : P a) : (∀ x ∈ l.set i b, P x) ↔ P b ∧ ∀ x ∈ l, P x := by
  obtain ⟨hi,hget⟩ := List.getElem?_eq_some_iff.mp h
  constructor
  · intro hall
    refine ⟨hall b (List.mem_set hi b),?_⟩
    intro x hx
    obtain ⟨j,hj,rfl⟩ := List.getElem_of_mem hx
    by_cases hij : i = j
    · subst hij
      rw [hget]
      exact ha
    · apply hall
      rw [← List.getElem_set_ne hij (by simpa using hj)]
      exact List.getElem_mem _
  · rintro ⟨hb,hall⟩ x hx
    rcases List.mem_or_eq_of_mem_set hx with hmem | rfl
    · exact hall x hmem
    · exact hb

variable {now : ℤ} {s : Window}

theorem construct_covered (h : Covered s) : Covered (Event.construct.next now s) := by
  intro op hop v hv
  rcases List.mem_append.mp hop with hmem | hmem
  · exact h op hmem v hv
  · rw [List.mem_singleton.mp hmem] at hv
    exact absurd hv (by simp [Phase.settled])

/-- A step that leaves the peak. -/
theorem replaced_covered_iff {i : ℕ} {op op' : Phase} {c : Counters} (hget : s.ops[i]? = some op)
    (h : Covered s) (hpeak : c.syncPeak = s.counters.syncPeak) :
    Covered ⟨c,s.ops.set i op'⟩ ↔ ∀ v ∈ op'.settled, v ≤ s.counters.syncPeak := by
  unfold Covered
  simp only [hpeak]
  rw [forall_set_iff hget (h op (List.mem_of_getElem? hget))]
  exact and_iff_left h

theorem stored_covered_iff {i : ℕ} {value : UInt32} (c : Counters)
    (hget : s.ops[i]? = some (.storing value)) :
    Covered ⟨{ c with syncPeak := value },s.ops.set i (.storingTtl value)⟩ ↔
      ∀ op ∈ s.ops, ∀ v ∈ op.settled, v ≤ value := by
  unfold Covered
  rw [forall_set_iff hget (by simp [Phase.settled])]
  simp [Phase.settled]

/-- What a step of one operation must find. -/
theorem advance_covered_iff {i : ℕ} {op : Phase} (hget : s.ops[i]? = some op) (h : Covered s) :
    Covered ((Event.advance i).next now s) ↔ (Event.advance i).Meets now s := by
  have hop := h op (List.mem_of_getElem? hget)
  simp only [Event.next,Event.Meets,hget]
  cases op with
  | storing value => exact stored_covered_iff s.counters hget
  | compared value =>
    apply (replaced_covered_iff hget h rfl).trans
    by_cases httl : now > s.counters.syncPeakTtl
    · simp [Phase.next,Phase.settled,httl]
    · simp [Phase.next,Phase.settled,httl]
  | counted =>
    apply (replaced_covered_iff hget h rfl).trans
    simp [Phase.next,Phase.settled]
  | loaded value =>
    apply (replaced_covered_iff hget h rfl).trans
    by_cases hpeak : value > s.counters.syncPeak
    · simp [Phase.next,Phase.settled,hpeak]
    · simp [Phase.next,Phase.settled,hpeak]
  | storingTtl value => exact iff_of_true ((replaced_covered_iff hget h rfl).mpr hop) trivial
  | constructed value => exact iff_of_true ((replaced_covered_iff hget h rfl).mpr hop) trivial
  | destroyed value => exact iff_of_true ((replaced_covered_iff hget h rfl).mpr hop) trivial

theorem covered_next_iff (a : Event) (h : Covered s) :
    Covered (a.next now s) ↔ a.Meets now s := by
  cases a with
  | construct => exact iff_of_true (construct_covered h) trivial
  | finishEarlier => exact iff_of_true h trivial
  | advance i =>
    cases hget : s.ops[i]? with
    | some op => exact advance_covered_iff hget h
    | none =>
      apply iff_of_true
      · simpa [Event.next,hget] using h
      · simp [Event.Meets,hget]

/-- The settled values stay covered along a run exactly when each step finds
what it must. -/
theorem covered_iff (c : Counters) (events : List Event) :
    (∀ v ∈ visits (Event.next now) events (Window.start c), Covered (v.2.next now v.1)) ↔
      ∀ v ∈ visits (Event.next now) events (Window.start c), v.2.Meets now v.1 :=
  visits_iff (Event.next now) (I := Covered) (H := fun _ _ => True)
    (K := fun s a => Covered (a.next now s)) (M := fun s a => a.Meets now s)
    (fun _ a h _ => covered_next_iff a h) (fun _ _ _ _ hk => hk) (start_covered c) events
    (fun _ _ => trivial)

/-- No peak is lost in a run whose stores and checks find it as they must. -/
theorem peak_kept (now : ℤ) (c : Counters) (events : List Event)
    (h : ∀ v ∈ visits (Event.next now) events (Window.start c), v.2.Meets now v.1) :
    ∀ reached, reached <+: events → PeakKept (run (Event.next now) reached (Window.start c)) := by
  intro reached hprefix
  apply Covered.kept
  exact reached_invariant (Event.next now) (M := fun s a => a.Meets now s)
    (fun _ a hs hm => (covered_next_iff a hs).mpr hm) (start_covered c) h reached hprefix

/-- Two constructors at once, each of which stores a larger peak than the one before. -/
def risingStores : List Event := [.construct,.advance 0,.advance 0,.construct,.advance 1,
  .advance 0,.advance 1,.advance 0,.advance 1,.advance 1]

theorem rising_stores_kept :
    run (Event.next 0) risingStores (Window.start {}) =
        ⟨{ syncCurrent := 2, syncPeak := 2, syncPeakTtl := 15 },[.constructed 1,.constructed 2]⟩ ∧
      PeakKept (run (Event.next 0) risingStores (Window.start {})) := by
  refine ⟨rfl,peak_kept 0 {} risingStores ?_ risingStores (List.prefix_refl _)⟩
  simp only [risingStores,visits,List.forall_mem_cons]
  refine ⟨trivial,trivial,trivial,trivial,trivial,?_,trivial,trivial,?_,trivial,by simp⟩
  · show ∀ op ∈ [Phase.storing 1,Phase.loaded 2], ∀ v ∈ op.settled, v ≤ 1
    simp [Phase.settled]
  · show ∀ op ∈ [Phase.constructed 1,Phase.storing 2], ∀ v ∈ op.settled, v ≤ 2
    simp [Phase.settled]

/-- A constructor read one and found it a new peak, but stores it after another
has read two and stored that. -/
theorem stale_store_lowers : ¬∀ (now : ℤ) (c : Counters) (events : List Event),
    PeakKept (run (Event.next now) events (Window.start c)) := by
  intro hall
  have hkept := hall 0 {} [.construct,.advance 0,.advance 0,.construct,.advance 1,.advance 1,
    .advance 1,.advance 1,.advance 0,.advance 0]
  have hvalue := hkept (by decide) (.constructed 2) (by decide) 2 rfl
  exact absurd hvalue (by decide)

end Peaks

section Exclusion

/-- Between the load of the peak and the last store. -/
def Phase.inSection : Phase → Bool
  | .compared _ | .storing _ | .storingTtl _ => true
  | _ => false

/-- At most one constructor is between its load of the peak and its last store. -/
def Exclusive (s : Window) : Prop := ∀ (i j : ℕ) (a b : Phase), s.ops[i]? = some a →
  s.ops[j]? = some b → a.inSection = true → b.inSection = true → i = j

/-- While the sections exclude each other. A decision still holds when it is
acted on, and a time once stored never runs out within the window. -/
structure Ready (now : ℤ) (s : Window) : Prop where
  covered : Covered s
  compared : ∀ v, .compared v ∈ s.ops → v ≤ s.counters.syncPeak
  storing : ∀ v, .storing v ∈ s.ops → ∀ op ∈ s.ops, ∀ u ∈ op.settled, u ≤ v
  timed : ∀ op ∈ s.ops, op.isConstructed = true → now ≤ s.counters.syncPeakTtl

variable {now : ℤ} {s : Window}

theorem Ready.meets (h : Ready now s) (a : Event) : a.Meets now s := by
  cases a with
  | construct => trivial
  | finishEarlier => trivial
  | advance i =>
    simp only [Event.Meets]
    split
    · next value hget => exact h.storing value (List.mem_of_getElem? hget)
    · next value hget => exact Or.inr (h.compared value (List.mem_of_getElem? hget))
    · trivial

/-- The other operations when one in its section takes a step. -/
theorem others_outside {i : ℕ} {op op' x : Phase} (hex : Exclusive s)
    (hget : s.ops[i]? = some op) (hsection : op.inSection = true) (hx : x ∈ s.ops.set i op') :
    x = op' ∨ x ∈ s.ops ∧ x.inSection = false := by
  obtain ⟨j,hj⟩ := List.getElem?_of_mem hx
  rw [List.getElem?_set] at hj
  split_ifs at hj with hij hlt
  · exact Or.inl (Option.some.inj hj).symm
  · refine Or.inr ⟨List.mem_of_getElem? hj,?_⟩
    by_contra hin
    rw [Bool.not_eq_false] at hin
    exact hij (hex i j op x hget hj hsection hin)

theorem construct_ready (h : Ready now s) : Ready now (Event.construct.next now s) := by
  refine ⟨construct_covered h.covered,?_,?_,?_⟩
  · intro v hv
    rcases List.mem_append.mp hv with hv | hv
    · exact h.compared v hv
    · exact absurd (List.mem_singleton.mp hv) (by simp)
  · intro v hv op hop
    rcases List.mem_append.mp hv with hv | hv
    · rcases List.mem_append.mp hop with hop | hop
      · exact h.storing v hv op hop
      · rw [List.mem_singleton.mp hop]
        simp [Phase.settled]
    · exact absurd (List.mem_singleton.mp hv) (by simp)
  · intro op hop hdone
    rcases List.mem_append.mp hop with hop | hop
    · exact h.timed op hop hdone
    · rw [List.mem_singleton.mp hop] at hdone
      exact absurd hdone (by decide)

/-- A step that stores neither the peak nor its time. -/
theorem replaced_ready {i : ℕ} {op' : Phase} {c : Counters} (h : Ready now s)
    (hpeak : c.syncPeak = s.counters.syncPeak) (httl : c.syncPeakTtl = s.counters.syncPeakTtl)
    (hcovered : Covered ⟨c,s.ops.set i op'⟩)
    (hcompared : ∀ v, op' = .compared v → v ≤ s.counters.syncPeak)
    (hstoring : ∀ v, op' = .storing v → ∀ op ∈ s.ops, ∀ u ∈ op.settled, u ≤ v)
    (hsettled : ∀ v, .storing v ∈ s.ops → ∀ u ∈ op'.settled, u ≤ v)
    (htimed : op'.isConstructed = true → now ≤ s.counters.syncPeakTtl) :
    Ready now ⟨c,s.ops.set i op'⟩ := by
  refine ⟨hcovered,?_,?_,?_⟩
  · intro v hv
    show v ≤ c.syncPeak
    rw [hpeak]
    rcases List.mem_or_eq_of_mem_set hv with hv | hv
    · exact h.compared v hv
    · exact hcompared v hv.symm
  · intro v hv x hx
    rcases List.mem_or_eq_of_mem_set hv with hold | hnew
    · rcases List.mem_or_eq_of_mem_set hx with hx | heq
      · exact h.storing v hold x hx
      · rw [heq]
        exact hsettled v hold
    · rcases List.mem_or_eq_of_mem_set hx with hx | heq
      · exact hstoring v hnew.symm x hx
      · rw [heq,← hnew]
        simp [Phase.settled]
  · intro op hop hdone
    show now ≤ c.syncPeakTtl
    rw [httl]
    rcases List.mem_or_eq_of_mem_set hop with hop | rfl
    · exact h.timed op hop hdone
    · exact htimed hdone

/-- A store by the only operation in its section. -/
theorem stored_ready {i : ℕ} {op op' : Phase} {c : Counters} (h : Ready now s)
    (hex : Exclusive s) (hget : s.ops[i]? = some op) (hsection : op.inSection = true)
    (hcovered : Covered ⟨c,s.ops.set i op'⟩) (hcompared : ∀ v, op' ≠ .compared v)
    (hstoring : ∀ v, op' ≠ .storing v)
    (httl : s.counters.syncPeakTtl = c.syncPeakTtl ∧ op'.isConstructed = false ∨
      now ≤ c.syncPeakTtl) : Ready now ⟨c,s.ops.set i op'⟩ := by
  refine ⟨hcovered,?_,?_,?_⟩
  · intro v hv
    rcases others_outside hex hget hsection hv with heq | ⟨_,hout⟩
    · exact absurd heq.symm (hcompared v)
    · exact absurd hout (by simp [Phase.inSection])
  · intro v hv
    rcases others_outside hex hget hsection hv with heq | ⟨_,hout⟩
    · exact absurd heq.symm (hstoring v)
    · exact absurd hout (by simp [Phase.inSection])
  · intro x hx hdone
    rcases httl with ⟨hsame,hrunning⟩ | hlater
    · show now ≤ c.syncPeakTtl
      rw [← hsame]
      rcases List.mem_or_eq_of_mem_set hx with hx | rfl
      · exact h.timed x hx hdone
      · exact absurd hdone (by simp [hrunning])
    · exact hlater

theorem only_compared {i : ℕ} {value : UInt32} (hex : Exclusive s)
    (hget : s.ops[i]? = some (.compared value)) {op : Phase} (hop : op ∈ s.ops)
    (hsection : op.inSection = true) : op = .compared value := by
  obtain ⟨j,hj⟩ := List.getElem?_of_mem hop
  have hij := hex i j _ _ hget hj rfl hsection
  rw [← hij,hget] at hj
  exact (Option.some.inj hj).symm

theorem settled_phase {op : Phase} {u : UInt32} (h : u ∈ op.settled) :
    op.inSection = true ∨ op.isConstructed = true := by
  cases op with
  | storingTtl value => exact Or.inl rfl
  | constructed value => exact Or.inr rfl
  | destroyed value => exact Or.inr rfl
  | counted => exact absurd h (by simp [Phase.settled])
  | loaded value => exact absurd h (by simp [Phase.settled])
  | compared value => exact absurd h (by simp [Phase.settled])
  | storing value => exact absurd h (by simp [Phase.settled])

/-- With the time run out no value has settled; otherwise the decision stands. -/
theorem compared_ready {i : ℕ} {value : UInt32} (hget : s.ops[i]? = some (.compared value))
    (h : Ready now s) (hex : Exclusive s)
    (hcovered : Covered ((Event.advance i).next now s)) :
    Ready now ((Event.advance i).next now s) := by
  simp only [Event.next,hget,Phase.next] at hcovered ⊢
  by_cases httl : now > s.counters.syncPeakTtl
  · simp only [httl,if_true] at hcovered ⊢
    apply replaced_ready h rfl rfl hcovered (by simp) ?_ (by simp [Phase.settled])
      (by simp [Phase.isConstructed])
    intro _ _ op hop u hu
    rcases settled_phase hu with hsection | hdone
    · rw [only_compared hex hget hop hsection] at hu
      exact absurd hu (by simp [Phase.settled])
    · exact absurd (h.timed op hop hdone) (not_le.mpr httl)
  · simp only [httl,if_false] at hcovered ⊢
    apply replaced_ready h rfl rfl hcovered (by simp) (by simp) ?_ (fun _ => not_lt.mp httl)
    intro v hv
    exact absurd (only_compared hex hget hv rfl) (by simp)

theorem advance_ready {i : ℕ} {op : Phase} (hget : s.ops[i]? = some op) (h : Ready now s)
    (hex : Exclusive s) : Ready now ((Event.advance i).next now s) := by
  have hcovered := (advance_covered_iff hget h.covered).mpr (h.meets _)
  have hmem := List.mem_of_getElem? hget
  cases op with
  | compared value => exact compared_ready hget h hex hcovered
  | counted =>
    simp only [Event.next,hget,Phase.next] at hcovered ⊢
    apply replaced_ready h rfl rfl hcovered <;> simp [Phase.settled,Phase.isConstructed]
  | loaded value =>
    simp only [Event.next,hget,Phase.next] at hcovered ⊢
    by_cases hpeak : value > s.counters.syncPeak
    · simp only [hpeak,if_true] at hcovered ⊢
      apply replaced_ready h rfl rfl hcovered (by simp) ?_ (by simp [Phase.settled])
        (by simp [Phase.isConstructed])
      rintro _ ⟨⟩ op hop u hu
      exact UInt32.le_trans (h.covered op hop u hu) (UInt32.le_of_lt hpeak)
    · simp only [hpeak,if_false] at hcovered ⊢
      apply replaced_ready h rfl rfl hcovered ?_ (by simp) (by simp [Phase.settled])
        (by simp [Phase.isConstructed])
      rintro _ ⟨⟩
      exact UInt32.not_lt.mp hpeak
  | storing value =>
    simp only [Event.next,hget,Phase.next] at hcovered ⊢
    exact stored_ready h hex hget rfl hcovered (by simp) (by simp) (Or.inl ⟨rfl,rfl⟩)
  | storingTtl value =>
    simp only [Event.next,hget,Phase.next] at hcovered ⊢
    exact stored_ready h hex hget rfl hcovered (by simp) (by simp)
      (Or.inr (show now ≤ now+15 by omega))
  | constructed value =>
    simp only [Event.next,hget,Phase.next] at hcovered ⊢
    exact replaced_ready h rfl rfl hcovered (by simp) (by simp)
      (fun v hv => h.storing v hv (.constructed value) hmem) (fun _ => h.timed _ hmem rfl)
  | destroyed value =>
    simp only [Event.next,hget,Phase.next] at hcovered ⊢
    exact replaced_ready h rfl rfl hcovered (by simp) (by simp) (fun v hv => h.storing v hv _ hmem)
      (fun _ => h.timed _ hmem rfl)

theorem next_ready (a : Event) (h : Ready now s) (hex : Exclusive s) :
    Ready now (a.next now s) := by
  cases a with
  | construct => exact construct_ready h
  | finishEarlier => exact ⟨h.covered,h.compared,h.storing,h.timed⟩
  | advance i =>
    cases hget : s.ops[i]? with
    | some op => exact advance_ready hget h hex
    | none =>
      simp only [Event.next,hget]
      exact h

/-- Were check and stores one section, no peak would be lost. -/
theorem exclusive_peak_kept (c : Counters) (events : List Event)
    (h : ∀ v ∈ visits (Event.next now) events (Window.start c), Exclusive v.1) :
    ∀ reached, reached <+: events → PeakKept (run (Event.next now) reached (Window.start c)) := by
  have hstart : Ready now (Window.start c) :=
    ⟨start_covered c,by simp [Window.start],by simp [Window.start],by simp [Window.start]⟩
  intro reached hprefix
  apply Covered.kept
  exact (reached_invariant (Event.next now) (M := fun s _ => Exclusive s)
    (fun _ a hs hex => next_ready a hs hex) hstart h reached hprefix).covered

end Exclusion

end AspikePort.SyncPeaks
