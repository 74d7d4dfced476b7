import Mathlib.Data.List.Induction

/-!
# Runs of a deterministic machine

A machine takes one step for each label it is given. Invariants of its runs
may speak of the labels taken so far as well as of the state reached.
-/

set_option autoImplicit false

namespace AspikePort.LabelledRuns

variable {σ α : Type} (step : α → σ → σ)

def run : List α → σ → σ
  | [], s => s
  | a::as, s => run as (step a s)

/-- Each label with the state it is taken in. -/
def visits : List α → σ → List (σ × α)
  | [], _ => []
  | a::as, s => (s,a)::visits as (step a s)

theorem run_append (as bs : List α) (s : σ) :
    run step (as ++ bs) s = run step bs (run step as s) := by
  induction as generalizing s with
  | nil => rfl
  | cons a as ih => exact ih (step a s)

theorem run_snoc (as : List α) (a : α) (s : σ) :
    run step (as ++ [a]) s = step a (run step as s) := run_append step as [a] s

theorem visits_append (as bs : List α) (s : σ) :
    visits step (as ++ bs) s = visits step as s ++ visits step bs (run step as s) := by
  induction as generalizing s with
  | nil => rfl
  | cons a as ih => exact congrArg ((s,a)::·) (ih (step a s))

theorem visits_snoc (as : List α) (a : α) (s : σ) :
    visits step (as ++ [a]) s = visits step as s ++ [(run step as s,a)] :=
  visits_append step as [a] s

/-- A property of the labels taken and the state reached holds along every run
when it holds at the start and each step keeps it. -/
theorem run_induction {I : List α → σ → Prop} {s : σ} (start : I [] s)
    (keep : ∀ as a t, I as t → t = run step as s → I (as ++ [a]) (step a t)) (as : List α) :
    I as (run step as s) := by
  induction as using List.reverseRecOn with
  | nil => exact start
  | append_singleton as a ih =>
    rw [run_snoc]
    exact keep as a _ ih rfl

theorem run_invariant {I : σ → Prop} {s : σ} (start : I s)
    (keep : ∀ a t, I t → I (step a t)) (as : List α) : I (run step as s) :=
  run_induction step (I := fun _ => I) start (fun _ a t h _ => keep a t h) as

theorem label_of_visits {as : List α} {s : σ} {v : σ × α} (h : v ∈ visits step as s) :
    v.2 ∈ as := by
  induction as generalizing s with
  | nil => exact absurd h List.not_mem_nil
  | cons a as ih =>
    rcases List.mem_cons.mp h with rfl | h
    · exact List.mem_cons_self
    · exact List.mem_cons_of_mem _ (ih h)

theorem visits_initial {as bs : List α} (h : as <+: bs) (s : σ) :
    visits step as s <+: visits step bs s := by
  obtain ⟨rest,rfl⟩ := h
  rw [visits_append]
  exact List.prefix_append _ _

/-- An invariant that the steps of one kind keep holds in every state reached
by such steps. -/
theorem reached_invariant {I : σ → Prop} {M : σ → α → Prop}
    (keep : ∀ s a, I s → M s a → I (step a s)) {s : σ} (start : I s) {as : List α}
    (h : ∀ v ∈ visits step as s, M v.1 v.2) : ∀ reached, reached <+: as → I (run step reached s) := by
  intro reached hprefix
  have hall : ∀ v ∈ visits step reached s, M v.1 v.2 :=
    fun v hv => h v ((visits_initial step hprefix s).subset hv)
  clear hprefix h
  induction reached generalizing s with
  | nil => exact start
  | cons a as ih =>
    have hsplit := List.forall_mem_cons.mp hall
    exact ih (keep s a start hsplit.1) hsplit.2

/-- While an invariant holds, two properties of a step may be two ways to say
one thing. Then they are so along every run, if the steps that have them keep
the invariant. -/
theorem visits_iff {I : σ → Prop} {H K M : σ → α → Prop}
    (agree : ∀ s a, I s → H s a → (K s a ↔ M s a))
    (keep : ∀ s a, I s → H s a → K s a → I (step a s)) {s : σ} (start : I s) (as : List α)
    (h : ∀ v ∈ visits step as s, H v.1 v.2) :
    (∀ v ∈ visits step as s, K v.1 v.2) ↔ ∀ v ∈ visits step as s, M v.1 v.2 := by
  induction as generalizing s with
  | nil => simp [visits]
  | cons a as ih =>
    have hhead := List.forall_mem_cons.mp h
    have hagree := agree s a start hhead.1
    rw [visits,List.forall_mem_cons,List.forall_mem_cons]
    constructor
    · intro hk
      have hnext := keep s a start hhead.1 hk.1
      exact ⟨hagree.mp hk.1,(ih hnext hhead.2).mp hk.2⟩
    · intro hm
      have hk := hagree.mpr hm.1
      have hnext := keep s a start hhead.1 hk
      exact ⟨hk,(ih hnext hhead.2).mpr hm.2⟩

section Traces
variable {τ : Type} (may : α → σ → σ → Prop)

/-- Runs of a machine whose steps are a relation. -/
def Trace : List α → σ → σ → Prop
  | [], s, t => t = s
  | a::as, s, t => ∃ u, may a s u ∧ Trace as u t

theorem trace_append {as bs : List α} {s t : σ} :
    Trace may (as ++ bs) s t ↔ ∃ u, Trace may as s u ∧ Trace may bs u t := by
  induction as generalizing s with
  | nil => simp [Trace]
  | cons a as ih =>
    simp only [List.cons_append,Trace,ih]
    constructor
    · rintro ⟨v,hv,u,hu,ht⟩
      exact ⟨u,⟨v,hv,hu⟩,ht⟩
    · rintro ⟨u,⟨v,hv,hu⟩,ht⟩
      exact ⟨v,hv,u,hu,ht⟩

theorem trace_snoc {as : List α} {a : α} {s t : σ} :
    Trace may (as ++ [a]) s t ↔ ∃ u, Trace may as s u ∧ may a u t := by
  simp [trace_append,Trace]

theorem trace_invariant {I : σ → Prop} {as : List α}
    (keep : ∀ a ∈ as, ∀ s t, I s → may a s t → I t) {s t : σ} (start : I s)
    (h : Trace may as s t) : I t := by
  induction as generalizing s with
  | nil => simpa [show t = s from h] using start
  | cons a as ih =>
    obtain ⟨u,hu,hrest⟩ := h
    exact ih (fun b hb => keep b (List.mem_cons_of_mem _ hb))
      (keep a List.mem_cons_self s u start hu) hrest

/-- A property of the labels taken and the state reached. -/
theorem trace_induction {I : List α → σ → Prop} {s : σ} (start : I [] s)
    (keep : ∀ as a t u, I as t → may a t u → I (as ++ [a]) u) {as : List α} {t : σ}
    (h : Trace may as s t) : I as t := by
  induction as using List.reverseRecOn generalizing t with
  | nil => simpa [show t = s from h] using start
  | append_singleton as a ih =>
    obtain ⟨u,hu,hstep⟩ := (trace_snoc may).mp h
    exact keep as a u t (ih hu) hstep

/-- A relation that every step keeps holds at the end of every run. -/
theorem trace_simulates {R : σ → τ → Prop} {effect : τ → α → τ} (as : List α)
    (keep : ∀ a ∈ as, ∀ s s' t, R s t → may a s s' → R s' (effect t a)) {s s' : σ} {t : τ}
    (start : R s t) (h : Trace may as s s') : R s' (as.foldl effect t) := by
  induction as generalizing s t with
  | nil =>
    cases h
    exact start
  | cons a as ih =>
    obtain ⟨u,hu,hrest⟩ := h
    exact ih (fun b hb => keep b (List.mem_cons_of_mem _ hb))
      (keep a List.mem_cons_self s u t start hu) hrest

end Traces

end AspikePort.LabelledRuns
