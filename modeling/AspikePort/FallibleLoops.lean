import Mathlib.Data.List.Induction

/-!
# Loops whose body may fail

A loop over a list succeeds exactly when its body succeeds on every element,
provided the success of one step does not depend on the accumulator; and it
then computes the fold of the values of its steps.
-/

set_option autoImplicit false

namespace AspikePort.FallibleLoops

variable {σ α β ε : Type}

def Succeeds (x : Except ε α) : Prop := ∃ a, x = .ok a

@[simp] theorem succeeds_ok (a : α) : Succeeds (.ok a : Except ε α) := ⟨a,rfl⟩

@[simp] theorem not_succeeds_error (e : ε) : ¬Succeeds (.error e : Except ε α) := by
  rintro ⟨a,h⟩
  cases h

@[simp] theorem succeeds_pure (a : α) : Succeeds (pure a : Except ε α) := ⟨a,rfl⟩

theorem succeeds_bind {x : Except ε α} {f : α → Except ε β} :
    Succeeds (x >>= f) ↔ ∃ a, x = .ok a ∧ Succeeds (f a) := by
  cases x with
  | ok a =>
    change Succeeds (f a) ↔ _
    simp
  | error e =>
    change Succeeds (.error e) ↔ _
    simp

theorem foldlM_succeeds {f : σ → α → Except ε σ} {P : α → Prop}
    (h : ∀ s x, Succeeds (f s x) ↔ P x) (xs : List α) (s : σ) :
    Succeeds (xs.foldlM f s) ↔ ∀ x ∈ xs, P x := by
  induction xs generalizing s with
  | nil => simp
  | cons x xs ih =>
    rw [List.foldlM_cons,succeeds_bind,List.forall_mem_cons,← h s x]
    constructor
    · rintro ⟨t,ht,hs⟩
      exact ⟨⟨t,ht⟩,(ih t).mp hs⟩
    · rintro ⟨⟨t,ht⟩,hs⟩
      exact ⟨t,ht,(ih t).mpr hs⟩

theorem foldlM_eq_ok {f : σ → α → Except ε σ} {g : σ → α → σ} (xs : List α)
    (h : ∀ x ∈ xs, ∀ s, f s x = .ok (g s x)) (s : σ) :
    xs.foldlM f s = .ok (xs.foldl g s) := by
  induction xs generalizing s with
  | nil => rfl
  | cons x xs ih =>
    rw [List.foldlM_cons,h x (by simp)]
    exact ih (fun y hy => h y (by simp [hy])) (g s x)

/-- A loop that appends one value for each element. -/
theorem foldlM_snoc {f : α → β} {body : List β → α → Except ε (List β)}
    (h : ∀ s x, body s x = .ok (s ++ [f x])) (xs : List α) (s : List β) :
    xs.foldlM body s = .ok (s ++ xs.map f) := by
  rw [foldlM_eq_ok xs (fun x _ s => h s x) s]
  congr 1
  induction xs generalizing s with
  | nil => simp
  | cons x xs ih =>
    rw [List.foldl_cons,ih]
    simp

/-- Where every failure is the same, one element that fails decides the loop. -/
theorem foldlM_eq_error {f : σ → α → Except ε σ} {e : ε}
    (h : ∀ s x, (∃ t, f s x = .ok t) ∨ f s x = .error e) {xs : List α}
    (hx : ∃ x ∈ xs, ∀ s, f s x = .error e) (s : σ) : xs.foldlM f s = .error e := by
  induction xs generalizing s with
  | nil => simp at hx
  | cons x xs ih =>
    rw [List.foldlM_cons]
    rcases h s x with ⟨t,ht⟩ | herr
    · rw [ht]
      obtain ⟨y,hy,hbad⟩ := hx
      rcases List.mem_cons.mp hy with rfl | hy
      · rw [hbad s] at ht
        cases ht
      · exact ih ⟨y,hy,hbad⟩ t
    · rw [herr]
      rfl

/-- A loop fails with the error of one of its steps. -/
theorem foldlM_error {f : σ → α → Except ε σ} {P : ε → Prop}
    (h : ∀ s x e, f s x = .error e → P e) {xs : List α} {s : σ} {e : ε}
    (he : xs.foldlM f s = .error e) : P e := by
  induction xs generalizing s with
  | nil => cases he
  | cons x xs ih =>
    rw [List.foldlM_cons] at he
    cases hx : f s x with
    | ok t =>
      rw [hx] at he
      exact ih he
    | error e' =>
      rw [hx] at he
      exact Except.error.inj he ▸ h s x e' hx

theorem mapM_succeeds {f : α → Except ε β} (xs : List α) :
    Succeeds (xs.mapM f) ↔ ∀ x ∈ xs, Succeeds (f x) := by
  induction xs with
  | nil => simp
  | cons x xs ih =>
    rw [List.mapM_cons,succeeds_bind,List.forall_mem_cons,← ih]
    constructor
    · rintro ⟨y,hy,hs⟩
      obtain ⟨ys,hys,-⟩ := succeeds_bind.mp hs
      exact ⟨⟨y,hy⟩,ys,hys⟩
    · rintro ⟨⟨y,hy⟩,ys,hys⟩
      exact ⟨y,hy,succeeds_bind.mpr ⟨ys,hys,succeeds_pure _⟩⟩

/-- Where a check of every element fails first. -/
theorem first_failing {p : α → Prop} {xs : List α} (h : ¬∀ x ∈ xs, p x) :
    ∃ init x post, xs = init ++ x::post ∧ (∀ y ∈ init, p y) ∧ ¬p x := by
  induction xs with
  | nil => exact absurd (fun x hx => absurd hx List.not_mem_nil) h
  | cons x xs ih =>
    by_cases hx : p x
    · obtain ⟨init,y,post,heq,hinit,hy⟩ := ih (fun hall => h (List.forall_mem_cons.mpr ⟨hx,hall⟩))
      exact ⟨x::init,y,post,by rw [heq,List.cons_append],List.forall_mem_cons.mpr ⟨hx,hinit⟩,hy⟩
    · exact ⟨[],x,xs,rfl,fun y hy => absurd hy List.not_mem_nil,hx⟩

section Avoidance
variable (e : ε)

/-- The computation does not end with this error. -/
def Avoids (x : Except ε α) : Prop := x ≠ .error e

theorem avoids_ok (a : α) : Avoids e (.ok a) := fun h => nomatch h

theorem avoids_error {e' : ε} : Avoids e (.error e' : Except ε α) ↔ e' ≠ e := by
  unfold Avoids
  rw [ne_eq,Except.error.injEq]

theorem avoids_bind (x : Except ε α) (f : α → Except ε β) :
    Avoids e (x >>= f) ↔ Avoids e x ∧ ∀ a, x = .ok a → Avoids e (f a) := by
  cases x with
  | ok a =>
    change Avoids e (f a) ↔ _
    exact ⟨fun h => ⟨avoids_ok e a,fun b hb => Except.ok.inj hb ▸ h⟩,fun h => h.2 a rfl⟩
  | error e' =>
    change Avoids e (.error e') ↔ _
    rw [avoids_error,avoids_error]
    exact ⟨fun h => ⟨h,fun a ha => nomatch ha⟩,And.left⟩

theorem avoids_foldlM {f : σ → α → Except ε σ} (h : ∀ s x, Avoids e (f s x)) (xs : List α)
    (s : σ) : Avoids e (xs.foldlM f s) :=
  fun he => foldlM_error (P := (· ≠ e)) (fun s x _ hx heq => h s x (heq ▸ hx)) he rfl

theorem avoids_mapM {f : α → Except ε β} (h : ∀ x, Avoids e (f x)) (xs : List α) :
    Avoids e (xs.mapM f) := by
  induction xs with
  | nil => exact avoids_ok e []
  | cons x xs ih =>
    rw [List.mapM_cons]
    refine (avoids_bind e _ _).mpr ⟨h x,fun y _ => ?_⟩
    exact (avoids_bind e _ _).mpr ⟨ih,fun ys _ => avoids_ok e (y::ys)⟩

/-- Where no step looks at the accumulator before its element is read, the
first element that cannot be read decides with which error the loop ends. -/
theorem foldlM_avoids (g : α → Except ε β) (h : σ → β → σ) (xs : List α) (s : σ) :
    Avoids e (xs.foldlM (fun s x => g x >>= fun b => .ok (h s b)) s) ↔
      ∀ init x post, xs = init ++ x::post → (∀ y ∈ init, Succeeds (g y)) → Avoids e (g x) := by
  induction xs generalizing s with
  | nil =>
    refine ⟨fun _ init x post heq => ?_,fun _ => avoids_ok e s⟩
    cases init <;> cases heq
  | cons x xs ih =>
    rw [List.foldlM_cons,avoids_bind,avoids_bind]
    constructor
    · rintro ⟨⟨hx,-⟩,hrest⟩ init y post heq hinit
      cases init with
      | nil =>
        cases heq
        exact hx
      | cons z init =>
        cases heq
        obtain ⟨b,hb⟩ := hinit x (by simp)
        have hok : (g x >>= fun b => .ok (h s b)) = .ok (h s b) := by
          rw [hb]
          rfl
        exact (ih (h s b)).mp (hrest _ hok) init y post rfl
          (fun w hw => hinit w (List.mem_cons_of_mem x hw))
    · intro hall
      refine ⟨⟨hall [] x xs rfl (fun y hy => absurd hy List.not_mem_nil),fun b _ => avoids_ok e _⟩,?_⟩
      intro t ht
      obtain ⟨b,hb,-⟩ := succeeds_bind.mp ⟨t,ht⟩
      refine (ih t).mpr fun init y post heq hinit => hall (x::init) y post (by rw [heq]; rfl) ?_
      exact List.forall_mem_cons.mpr ⟨⟨b,hb⟩,hinit⟩

end Avoidance

section Results

/-- Every result of the computation satisfies `R`. -/
def Yields (R : α → Prop) (x : Except ε α) : Prop := ∀ a, x = .ok a → R a

theorem yields_ok {R : α → Prop} {a : α} (h : R a) : Yields R (.ok a : Except ε α) :=
  fun _ hb => Except.ok.inj hb ▸ h

theorem yields_error (R : α → Prop) (e : ε) : Yields R (.error e : Except ε α) :=
  fun _ h => nomatch h

theorem yields_bind {R : β → Prop} {x : Except ε α} {f : α → Except ε β}
    (h : ∀ a, x = .ok a → Yields R (f a)) : Yields R (x >>= f) := by
  cases x with
  | ok a => exact h a rfl
  | error e => exact yields_error R e

theorem yields_foldlM {I : σ → Prop} {f : σ → α → Except ε σ} (keep : ∀ s x, I s → Yields I (f s x))
    (xs : List α) {s : σ} (h : I s) : Yields I (xs.foldlM f s) := by
  induction xs generalizing s with
  | nil => exact yields_ok h
  | cons x xs ih =>
    rw [List.foldlM_cons]
    exact yields_bind fun t ht => ih (keep s x h t ht)

end Results

theorem toOption_bind (x : Except ε α) (f : α → Except ε β) :
    (x >>= f).toOption = x.toOption.bind (fun a => (f a).toOption) := by
  cases x <;> rfl

theorem mapM_length {f : α → Option β} {xs : List α} {ys : List β}
    (h : xs.mapM f = some ys) : ys.length = xs.length := by
  induction xs generalizing ys with
  | nil =>
    cases h
    rfl
  | cons x xs ih =>
    rw [List.mapM_cons] at h
    obtain ⟨y,-,hrest⟩ := Option.bind_eq_some_iff.mp h
    obtain ⟨zs,hzs,heq⟩ := Option.bind_eq_some_iff.mp hrest
    cases heq
    rw [List.length_cons,List.length_cons,ih hzs]

theorem mapM_some_map {f : α → Option β} {g : α → β} {xs : List α}
    (h : ∀ x ∈ xs, f x = some (g x)) : xs.mapM f = some (xs.map g) := by
  induction xs with
  | nil => rfl
  | cons x xs ih =>
    rw [List.mapM_cons,h x List.mem_cons_self,ih (fun y hy => h y (List.mem_cons_of_mem _ hy))]
    rfl

/-- A loop over the indices of a list that finds the elements of the list. -/
theorem mapM_range {h : ℕ → Option β} {f : α → β} {xs : List α}
    (hfind : ∀ i x, xs[i]? = some x → h i = some (f x)) :
    (List.range xs.length).mapM h = some (xs.map f) := by
  induction xs using List.reverseRecOn with
  | nil => rfl
  | append_singleton xs x ih =>
    have hinit := ih fun i y hy => hfind i y (List.getElem?_append_left
      (List.getElem?_eq_some_iff.mp hy).1 ▸ hy)
    have hlast := hfind xs.length x List.getElem?_concat_length
    rw [List.length_append,List.length_singleton,List.range_succ,List.mapM_append,hinit]
    simp [hlast]

end AspikePort.FallibleLoops
