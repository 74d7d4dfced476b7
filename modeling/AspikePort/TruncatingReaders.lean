import Mathlib.Data.List.Basic
import Mathlib.Data.List.Infix

/-!
# Readers that keep a prefix, and codes that are read item by item

A truncating reader keeps the items before the first that stops it, and what
stops it may depend on what it has kept so far. Two inputs are read alike
exactly when they go on, behind one common prefix, with items that are lost.
-/

set_option autoImplicit false

namespace AspikePort.TruncatingReaders

section Reading
variable {α : Type} (stop : List α → α → Prop) [∀ p x, Decidable (stop p x)]

/-- The first argument is what has been kept so far. -/
def keep : List α → List α → List α
  | p, [] => p
  | p, x::xs => if stop p x then p else keep (p ++ [x]) xs

/-- The reader stops at the first of these items. -/
def Lost (p rest : List α) : Prop := ∀ x ∈ rest.head?, stop p x

variable {stop}

theorem keep_lost {p rest : List α} (h : Lost stop p rest) : keep stop p rest = p := by
  cases rest with
  | nil => rfl
  | cons x xs => exact if_pos (h x rfl)

theorem keep_append {p q rest : List α} (hq : keep stop p q = p ++ q)
    (hrest : Lost stop (p ++ q) rest) : keep stop p (q ++ rest) = p ++ q := by
  induction q generalizing p with
  | nil =>
    rw [List.append_nil] at hrest ⊢
    exact keep_lost hrest
  | cons x q ih =>
    have hx : ¬stop p x := by
      intro hx
      rw [keep,if_pos hx] at hq
      simpa using congrArg List.length hq
    rw [keep,if_neg hx] at hq
    rw [List.cons_append,keep,if_neg hx,List.append_cons p x q]
    rw [List.append_cons p x q] at hq hrest
    exact ih hq hrest

theorem keep_split (p xs : List α) : ∃ q rest, xs = q ++ rest ∧ keep stop p xs = p ++ q ∧
    keep stop p q = p ++ q ∧ Lost stop (p ++ q) rest := by
  induction xs generalizing p with
  | nil =>
    have hlost : Lost stop (p ++ []) ([] : List α) := fun _ h => nomatch h
    exact ⟨[],[],rfl,(List.append_nil p).symm,(List.append_nil p).symm,hlost⟩
  | cons x xs ih =>
    by_cases hx : stop p x
    · refine ⟨[],x::xs,rfl,?_,(List.append_nil p).symm,?_⟩
      · rw [keep,if_pos hx,List.append_nil]
      · rintro y hy
        rw [List.append_nil]
        exact Option.some.inj hy ▸ hx
    · obtain ⟨q,rest,hxs,hkeep,hq,hrest⟩ := ih (p ++ [x])
      refine ⟨x::q,rest,by rw [hxs,List.cons_append],?_,?_,?_⟩
      · rw [keep,if_neg hx,hkeep,← List.append_cons]
      · rw [keep,if_neg hx,hq,← List.append_cons]
      · rwa [List.append_cons]

theorem keep_eq_iff (xs ys : List α) : keep stop [] xs = keep stop [] ys ↔
    ∃ p r s, xs = p ++ r ∧ ys = p ++ s ∧ keep stop [] p = p ∧ Lost stop p r ∧ Lost stop p s := by
  constructor
  · intro h
    obtain ⟨p,r,hxs,hkeepx,hp,hr⟩ := @keep_split _ stop _ [] xs
    obtain ⟨q,s,hys,hkeepy,-,hs⟩ := @keep_split _ stop _ [] ys
    rw [List.nil_append] at *
    have hpq : p = q := by rw [← hkeepx,← hkeepy,h]
    exact ⟨p,r,s,hxs,hpq ▸ hys,hp,hr,hpq ▸ hs⟩
  · rintro ⟨p,r,s,rfl,rfl,hp,hr,hs⟩
    rw [keep_append (p := []) hp hr,keep_append (p := []) hp hs]

theorem keep_mem {xs : List α} {x : α} (h : x ∈ keep stop [] xs) : x ∈ xs := by
  obtain ⟨q,rest,hxs,hkeep,-,-⟩ := @keep_split _ stop _ [] xs
  rw [hkeep,List.nil_append] at h
  rw [hxs]
  exact List.mem_append_left rest h

/-- What is kept passed every test on the way. -/
theorem keep_self_iff (p q : List α) : keep stop p q = p ++ q ↔
    ∀ a x b, q = a ++ x::b → ¬stop (p ++ a) x := by
  induction q generalizing p with
  | nil =>
    apply iff_of_true (List.append_nil p).symm
    intro a x b h
    simp at h
  | cons y q ih =>
    by_cases hy : stop p y
    · apply iff_of_false
      · intro h
        rw [keep,if_pos hy] at h
        simpa using congrArg List.length h
      · intro h
        have hstop := h [] y q rfl
        rw [List.append_nil] at hstop
        exact hstop hy
    · rw [keep,if_neg hy,List.append_cons p y q,ih]
      constructor
      · intro h a x b hq
        cases a with
        | nil =>
          obtain ⟨rfl,rfl⟩ := List.cons.inj hq
          rwa [List.append_nil]
        | cons a as =>
          obtain ⟨rfl,hrest⟩ := List.cons.inj hq
          rw [List.append_cons]
          exact h as x b hrest
      · intro h a x b hq
        rw [← List.append_cons]
        exact h (y::a) x b (by rw [hq,List.cons_append])

/-- A test that looks at the item alone. -/
theorem keep_takeWhile (t : α → Bool) (p xs : List α) :
    keep (fun _ x => t x = false) p xs = p ++ xs.takeWhile t := by
  induction xs generalizing p with
  | nil => exact (List.append_nil p).symm
  | cons x xs ih =>
    rw [keep,List.takeWhile_cons]
    by_cases hx : t x = true
    · rw [if_neg (by simp [hx]),if_pos hx,ih,← List.append_cons]
    · rw [if_pos (by simpa using hx),if_neg hx,List.append_nil]

end Reading

section Codes
variable {α β : Type} {f : α → List β} {S : α → Prop}

/-- No item's code is empty or starts another item's code. -/
structure PrefixFree (f : α → List β) (S : α → Prop) : Prop where
  nonempty : ∀ a, S a → f a ≠ []
  apart : ∀ a b, S a → S b → f a <+: f b → a = b

theorem PrefixFree.eq_of_append (hf : PrefixFree f S) {a b : α} (ha : S a) (hb : S b)
    {s t : List β} (h : f a ++ s = f b ++ t) : a = b := by
  have hprefix : f a <+: f b ++ t := ⟨s,h⟩
  rcases List.prefix_or_prefix_of_prefix hprefix (List.prefix_append (f b) t) with hab | hba
  · exact hf.apart a b ha hb hab
  · exact (hf.apart b a hb ha hba).symm

/-- Of two rows of codes that one list starts with, one starts the other. -/
theorem PrefixFree.comparable (hf : PrefixFree f S) {xs ys : List α} (hxs : ∀ x ∈ xs, S x)
    (hys : ∀ y ∈ ys, S y) {s t : List β} (h : xs.flatMap f ++ s = ys.flatMap f ++ t) :
    xs <+: ys ∨ ys <+: xs := by
  induction xs generalizing ys with
  | nil => exact .inl List.nil_prefix
  | cons x xs ih =>
    cases ys with
    | nil => exact .inr List.nil_prefix
    | cons y ys =>
      rw [List.flatMap_cons,List.flatMap_cons,List.append_assoc,List.append_assoc] at h
      have hxy := hf.eq_of_append (hxs x List.mem_cons_self) (hys y List.mem_cons_self) h
      subst hxy
      rw [List.prefix_cons_inj,List.prefix_cons_inj]
      exact ih (fun z hz => hxs z (List.mem_cons_of_mem x hz))
        (fun z hz => hys z (List.mem_cons_of_mem x hz)) (List.append_cancel_left h)

theorem PrefixFree.flatMap_injective (hf : PrefixFree f S) {xs ys : List α}
    (hxs : ∀ x ∈ xs, S x) (hys : ∀ y ∈ ys, S y) (h : xs.flatMap f = ys.flatMap f) : xs = ys := by
  induction xs generalizing ys with
  | nil =>
    cases ys with
    | nil => rfl
    | cons y ys =>
      have hempty := (List.append_eq_nil_iff.mp h.symm).1
      exact absurd hempty (hf.nonempty y (hys y List.mem_cons_self))
  | cons x xs ih =>
    cases ys with
    | nil =>
      have hempty := (List.append_eq_nil_iff.mp h).1
      exact absurd hempty (hf.nonempty x (hxs x List.mem_cons_self))
    | cons y ys =>
      rw [List.flatMap_cons,List.flatMap_cons] at h
      have hxy := hf.eq_of_append (hxs x List.mem_cons_self) (hys y List.mem_cons_self) h
      subst hxy
      rw [ih (fun z hz => hxs z (List.mem_cons_of_mem x hz))
        (fun z hz => hys z (List.mem_cons_of_mem x hz)) (List.append_cancel_left h)]

end Codes

end AspikePort.TruncatingReaders
