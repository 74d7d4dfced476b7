import Mathlib.Data.List.Range

/-!
# Reads whose result nobody checks

A read that fails leaves the variables as they are, and the procedure goes on
with what an earlier step, or nobody, has left in them. A loop that takes its
items one by one reads only what it has set itself when no read fails. The
last section is about vectors of a fixed length that such a loop fills.
-/

set_option autoImplicit false

namespace AspikePort.UncheckedReads

section Reads
variable {σ α β : Type}

/-- The variables and the number of reads that have failed. -/
structure Reads (σ : Type) where
  vars : σ
  failed : ℕ

def access (read : σ → Option α) (store : α → σ → σ) (s : Reads σ) : Reads σ :=
  match read s.vars with
  | some a => ⟨store a s.vars,s.failed⟩
  | none => ⟨s.vars,s.failed+1⟩

def assign (f : σ → σ) (s : Reads σ) : Reads σ := ⟨f s.vars,s.failed⟩

theorem access_ok {read : σ → Option α} (store : α → σ → σ) {v : σ} {a : α} (n : ℕ)
    (h : read v = some a) : access read store ⟨v,n⟩ = ⟨store a v,n⟩ := by
  simp only [access,h]

/-- `for (; k > 0; k--, i++)` around a body that is given `i`. -/
def passes (body : ℕ → Reads σ → Reads σ) : ℕ → ℕ → Reads σ → Reads σ
  | _, 0, s => s
  | i, k+1, s => passes body (i+1) k (body i s)

/-- The items taken so far and those to come are the invariant's business. -/
theorem passes_run (body : ℕ → Reads σ → Reads σ) {I : List β → List β → σ → Prop}
    (step : ∀ done x rest v n, I done (x::rest) v →
      ∃ v', body done.length ⟨v,n⟩ = ⟨v',n⟩ ∧ I (done ++ [x]) rest v')
    (rest done : List β) (v : σ) (n : ℕ) (h : I done rest v) :
    ∃ v', passes body done.length rest.length ⟨v,n⟩ = ⟨v',n⟩ ∧ I (done ++ rest) [] v' := by
  induction rest generalizing done v with
  | nil => exact ⟨v,rfl,by rwa [List.append_nil]⟩
  | cons x rest ih =>
    obtain ⟨v₁,hbody,hnext⟩ := step done x rest v n h
    obtain ⟨v',hrun,hend⟩ := ih (done ++ [x]) v₁ hnext
    rw [List.length_append,List.length_singleton] at hrun
    rw [List.append_assoc,List.singleton_append] at hend
    refine ⟨v',?_,hend⟩
    change passes body (done.length+1) rest.length (body done.length ⟨v,n⟩) = _
    rw [hbody,hrun]

end Reads

section Vectors
variable {α β : Type} (f : α → β) (d : β)

/-- A vector of `n` slots of which the first have been filled. -/
def filled (n : ℕ) (xs : List α) : List β := xs.map f ++ List.replicate (n-xs.length) d

variable {n i : ℕ} {xs : List α}

theorem filled_next (hi : xs.length = i) (h : i < n) :
    filled f d n xs = xs.map f ++ d::List.replicate (n-(i+1)) d := by
  have hn : n-xs.length = (n-(i+1))+1 := by omega
  unfold filled
  rw [hn,List.replicate_succ]

theorem filled_slot (hi : xs.length = i) (h : i < n) : (filled f d n xs)[i]? = some d := by
  rw [filled_next f d hi h,List.getElem?_append_right (by simp [hi])]
  simp [hi]

theorem filled_set (x : α) (hi : xs.length = i) (h : i < n) :
    (filled f d n xs).set i (f x) = filled f d n (xs ++ [x]) := by
  rw [filled_next f d hi h,List.set_append_right _ _ (by simp [hi])]
  simp [filled,hi]

theorem filled_all (h : xs.length = n) : filled f d n xs = xs.map f := by
  unfold filled
  rw [h,Nat.sub_self]
  simp

theorem set_slot {l : List β} {x : β} (y : β) (h : l[i]? = some x) : (l.set i y)[i]? = some y :=
  List.getElem?_set_self (List.getElem?_eq_some_iff.mp h).1

theorem set_own {l : List β} {x : β} (h : l[i]? = some x) : l.set i x = l := by
  obtain ⟨hi,rfl⟩ := List.getElem?_eq_some_iff.mp h
  exact List.set_getElem_self hi

theorem pushed_slot {l : List β} (hi : l.length = i) (x : β) : (l ++ [x])[i]? = some x := by
  rw [List.getElem?_append_right (by omega)]
  simp [hi]

theorem pushed_set {l : List β} (hi : l.length = i) (x y : β) :
    (l ++ [x]).set i y = l ++ [y] := by
  rw [List.set_append_right _ _ (by omega)]
  simp [hi]

end Vectors

end AspikePort.UncheckedReads
