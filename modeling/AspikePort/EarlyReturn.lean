import Mathlib.Logic.Basic

/-!
# Procedures that may return before their end

A procedure reads and writes a state and either runs to its end with a result
or returns early. Unlike an exception over a state, an early return keeps the
state it was made in, and it skips the rest of the body.
-/

set_option autoImplicit false

namespace AspikePort.EarlyReturn

variable {σ ε α β : Type}

def Proc (σ ε α : Type) := σ → Except ε α × σ

namespace Proc

protected def pure (a : α) : Proc σ ε α := fun s => (.ok a,s)

protected def bind (p : Proc σ ε α) (f : α → Proc σ ε β) : Proc σ ε β := fun s =>
  match p s with
  | (.ok a,t) => f a t
  | (.error e,t) => (.error e,t)

instance : Monad (Proc σ ε) where
  pure := Proc.pure
  bind := Proc.bind

def stop (e : ε) : Proc σ ε α := fun s => (.error e,s)

/-- A computation that reads only its arguments: it may end the procedure but
has no access to the state. -/
def lift (x : Except ε α) : Proc σ ε α := fun s => (x,s)

def state : Proc σ ε σ := fun s => (.ok s,s)

def update (f : σ → σ) : Proc σ ε Unit := fun s => (.ok (),f s)

/-- A scope with a destructor: `leave` runs however `body` ends. -/
def within (enter leave : σ → σ) (body : Proc σ ε α) : Proc σ ε α := fun s =>
  let r := body (enter s)
  (r.1,leave r.2)

section Components
variable {τ : Type}

/-- The procedure on one component of a larger state. -/
def onFirst (p : Proc σ ε α) : Proc (σ × τ) ε α := fun s => ((p s.1).1,(p s.1).2,s.2)

def onSecond (p : Proc τ ε α) : Proc (σ × τ) ε α := fun s => ((p s.2).1,s.1,(p s.2).2)

end Components

def wp (p : Proc σ ε α) (Q : Except ε α → σ → Prop) (s : σ) : Prop := Q (p s).1 (p s).2

theorem wp_mono {p : Proc σ ε α} {Q R : Except ε α → σ → Prop} {s : σ}
    (h : wp p Q s) (hq : ∀ r t, Q r t → R r t) : wp p R s := hq _ _ h

/-- The rule for a sequence: an early return skips the rest of the body. -/
theorem wp_bind (p : Proc σ ε α) (f : α → Proc σ ε β) (Q : Except ε β → σ → Prop) (s : σ) :
    wp (p >>= f) Q s ↔
      wp p (fun r t => match r with | .ok a => wp (f a) Q t | .error e => Q (.error e) t) s := by
  change Q (Proc.bind p f s).1 (Proc.bind p f s).2 ↔ _
  unfold Proc.bind wp
  obtain ⟨r,t⟩ := p s
  cases r <;> exact Iff.rfl

@[simp] theorem pure_run (a : α) (s : σ) : (Pure.pure a : Proc σ ε α) s = (.ok a,s) := rfl

@[simp] theorem state_bind_run (f : σ → Proc σ ε β) (s : σ) : (state >>= f) s = f s s := rfl

@[simp] theorem update_bind_run (g : σ → σ) (f : Unit → Proc σ ε β) (s : σ) :
    (update g >>= f) s = f () (g s) := rfl

@[simp] theorem lift_ok_bind_run (a : α) (f : α → Proc σ ε β) (s : σ) :
    (lift (.ok a) >>= f) s = f a s := rfl

@[simp] theorem within_run (enter leave : σ → σ) (p : Proc σ ε α) (s : σ) :
    within enter leave p s = ((p (enter s)).1,leave (p (enter s)).2) := rfl

theorem bind_run_ok {p : Proc σ ε α} {a : α} {s t : σ} (f : α → Proc σ ε β)
    (h : p s = (.ok a,t)) : (p >>= f) s = f a t := by
  change Proc.bind p f s = _
  rw [Proc.bind,h]

theorem onFirst_bind_ok {τ : Type} {p : Proc σ ε α} {a : α} {s t : σ} {u : τ}
    (f : α → Proc (σ × τ) ε β) (h : p s = (.ok a,t)) : (onFirst p >>= f) (s,u) = f a (t,u) :=
  bind_run_ok f (by simp only [onFirst,h])

theorem onFirst_bind_error {τ : Type} {p : Proc σ ε α} {e : ε} {s t : σ} {u : τ}
    (f : α → Proc (σ × τ) ε β) (h : p s = (.error e,t)) :
    (onFirst p >>= f) (s,u) = (.error e,t,u) := by
  change Proc.bind (onFirst p) f (s,u) = _
  simp only [Proc.bind,onFirst,h]

theorem bind_run_congr {p q : Proc σ ε α} {s t : σ} (f : α → Proc σ ε β) (h : p s = q t) :
    (p >>= f) s = (q >>= f) t := by
  change Proc.bind p f s = Proc.bind q f t
  rw [Proc.bind,Proc.bind,h]

theorem bind_run_error {p : Proc σ ε α} {e : ε} {s t : σ} (f : α → Proc σ ε β)
    (h : p s = (.error e,t)) : (p >>= f) s = (.error e,t) := by
  change Proc.bind p f s = _
  rw [Proc.bind,h]

theorem bind_run_assoc {γ : Type} (p : Proc σ ε α) (f : α → Proc σ ε β) (g : β → Proc σ ε γ) :
    (p >>= f) >>= g = p >>= fun a => f a >>= g := by
  funext s
  change Proc.bind (Proc.bind p f) g s = Proc.bind p (fun a => Proc.bind (f a) g) s
  unfold Proc.bind
  cases p s with
  | mk r t => cases r <;> rfl

section Views
variable {γ : Type} {view : σ → γ}

/-- The procedure changes nothing that the view shows, however it ends. -/
def Keeps (view : σ → γ) (p : Proc σ ε α) : Prop := ∀ s, view (p s).2 = view s

theorem Keeps.bind {p : Proc σ ε α} {f : α → Proc σ ε β} (hp : Keeps view p)
    (hf : ∀ a, Keeps view (f a)) : Keeps view (p >>= f) := by
  intro s
  have hs := hp s
  change view (Proc.bind p f s).2 = _
  unfold Proc.bind
  cases hrun : p s with
  | mk r t =>
    rw [hrun] at hs
    cases r with
    | ok a => exact (hf a t).trans hs
    | error e => exact hs

theorem keeps_ite {P : Prop} [Decidable P] {p q : Proc σ ε α} (hp : Keeps view p)
    (hq : Keeps view q) : Keeps view (if P then p else q) := by
  by_cases h : P
  · simpa [h] using hp
  · simpa [h] using hq

end Views

end Proc

end AspikePort.EarlyReturn
