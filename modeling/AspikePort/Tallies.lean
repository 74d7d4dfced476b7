import Mathlib.Algebra.BigOperators.Group.Finset.Basic
import Mathlib.Algebra.Order.BigOperators.Group.List
import Mathlib.Algebra.Order.Ring.Nat
import Mathlib.Data.List.Perm.Basic

/-!
# Tallies

A tally counts the members of a collection by key, with one entry for every
key met so far. While each entry is right, the entries add up to the size of
the collection; clearing an entry that still counts something breaks that.
-/

set_option autoImplicit false

namespace AspikePort.Tallies
variable {κ α : Type}

theorem perm_eraseIdx {l : List α} {i : ℕ} {x : α} (h : l[i]? = some x) :
    (x::l.eraseIdx i).Perm l := by
  obtain ⟨hi,rfl⟩ := List.getElem?_eq_some_iff.mp h
  exact List.getElem_cons_eraseIdx_perm hi

theorem countP_eraseIdx (p : α → Bool) {l : List α} {i : ℕ} {x : α} (h : l[i]? = some x) :
    l.countP p = (l.eraseIdx i).countP p + if p x then 1 else 0 := by
  rw [← (perm_eraseIdx h).countP_eq p,List.countP_cons]

def keys (l : List (κ × α)) : List κ := l.map Prod.fst

theorem mem_keys {e : κ × α} {l : List (κ × α)} (h : e ∈ l) : e.1 ∈ keys l :=
  List.mem_map_of_mem h

theorem keys_map {g : κ × α → κ × α} (hkey : ∀ e, (g e).1 = e.1) (l : List (κ × α)) :
    keys (l.map g) = keys l := by
  unfold keys
  rw [List.map_map]
  exact List.map_congr_left (fun e _ => hkey e)

variable [DecidableEq κ]

/-- Changes the entry of a key. A key without one gets it, changed from `d`. -/
def adjust (k : κ) (f : α → α) (d : α) (l : List (κ × α)) : List (κ × α) :=
  if k ∈ keys l then l.map (fun e => if e.1 = k then (e.1,f e.2) else e) else l ++ [(k,f d)]

theorem keys_adjust (k : κ) (f : α → α) (d : α) (l : List (κ × α)) :
    keys (adjust k f d l) = if k ∈ keys l then keys l else keys l ++ [k] := by
  unfold adjust
  split_ifs
  · apply keys_map
    intro e
    by_cases he : e.1 = k <;> simp [he]
  · simp [keys]

theorem mem_adjust {k : κ} {f : α → α} {d : α} {l : List (κ × α)} {e : κ × α}
    (h : e ∈ adjust k f d l) :
    e.1 ≠ k ∧ e ∈ l ∨ ∃ a, e = (k,f a) ∧ ((k,a) ∈ l ∨ k ∉ keys l ∧ a = d) := by
  unfold adjust at h
  split_ifs at h with hk
  · obtain ⟨b,hb,rfl⟩ := List.mem_map.mp h
    by_cases hkey : b.1 = k
    · rw [if_pos hkey]
      subst hkey
      exact Or.inr ⟨b.2,rfl,Or.inl hb⟩
    · rw [if_neg hkey]
      exact Or.inl ⟨hkey,hb⟩
  · rcases List.mem_append.mp h with hl | hl
    · left
      constructor
      · intro he
        exact hk (he ▸ mem_keys hl)
      · exact hl
    · right
      exact ⟨d,List.mem_singleton.mp hl,Or.inr ⟨hk,rfl⟩⟩

/-- Every entry says how often its key occurs in `xs`. -/
structure Tally (size : α → ℕ) (xs : List κ) (l : List (κ × α)) : Prop where
  nodup : (keys l).Nodup
  counts : ∀ e ∈ l, size e.2 = xs.count e.1
  covers : ∀ x ∈ xs, x ∈ keys l

variable {size : α → ℕ} {xs ys : List κ} {l : List (κ × α)}

theorem tally_nil : Tally size ([] : List κ) ([] : List (κ × α)) :=
  ⟨List.nodup_nil,fun _ h => absurd h List.not_mem_nil,fun _ h => absurd h List.not_mem_nil⟩

theorem Tally.perm (h : Tally size xs l) (hp : xs.Perm ys) : Tally size ys l where
  nodup := h.nodup
  counts := fun e he => (h.counts e he).trans (hp.count_eq e.1)
  covers := fun x hx => h.covers x (hp.mem_iff.mpr hx)

theorem Tally.total (h : Tally size xs l) : (l.map (fun e => size e.2)).sum = xs.length := by
  have hcounts : l.map (fun e => size e.2) = (keys l).map (fun k => xs.count k) := by
    unfold keys
    rw [List.map_map]
    exact List.map_congr_left h.counts
  have hcovers : ∀ x ∈ (xs : Multiset κ), x ∈ (keys l).toFinset := by
    intro x hx
    exact List.mem_toFinset.mpr (h.covers x hx)
  rw [hcounts,← List.sum_toFinset _ h.nodup]
  simpa using Multiset.sum_count_eq_card hcovers

theorem nodup_adjust (k : κ) (f : α → α) (d : α) (h : (keys l).Nodup) :
    (keys (adjust k f d l)).Nodup := by
  rw [keys_adjust]
  split_ifs with hk
  · exact h
  · apply List.nodup_append.mpr
    refine ⟨h,List.nodup_singleton k,?_⟩
    intro a ha b hb hab
    rw [List.mem_singleton.mp hb] at hab
    exact hk (hab ▸ ha)

theorem subset_keys_adjust (k : κ) (f : α → α) (d : α) {x : κ} (h : x ∈ keys l) :
    x ∈ keys (adjust k f d l) := by
  rw [keys_adjust]
  split_ifs
  · exact h
  · exact List.mem_append_left _ h

theorem self_mem_keys_adjust (k : κ) (f : α → α) (d : α) : k ∈ keys (adjust k f d l) := by
  rw [keys_adjust]
  split_ifs with hk
  · exact hk
  · simp

/-- One more member. The change need only be right at the present count. -/
theorem Tally.enter {k : κ} {f : α → α} {d : α} (h : Tally size xs l) (hd : size d = 0)
    (hf : ∀ a, size a = xs.count k → size (f a) = size a+1) :
    Tally size (k::xs) (adjust k f d l) where
  nodup := nodup_adjust k f d h.nodup
  counts := by
    intro e he
    rcases mem_adjust he with ⟨hne,hl⟩ | ⟨a,rfl,ha⟩
    · rw [h.counts e hl,List.count_cons_of_ne (Ne.symm hne)]
    · have hcount : size a = xs.count k := by
        rcases ha with ha | ⟨hk,rfl⟩
        · exact h.counts _ ha
        · have hnone : k ∉ xs := fun hx => hk (h.covers k hx)
          rw [hd,List.count_eq_zero_of_not_mem hnone]
      rw [List.count_cons_self,hf a hcount,hcount]
  covers := by
    intro x hx
    rcases List.mem_cons.mp hx with rfl | hx
    · exact self_mem_keys_adjust x f d
    · exact subset_keys_adjust k f d (h.covers x hx)

/-- One member less. -/
theorem Tally.leave {k : κ} {f : α → α} {d : α} (h : Tally size (k::xs) l)
    (hf : ∀ a, 0 < size a → size (f a) = size a-1) : Tally size xs (adjust k f d l) where
  nodup := nodup_adjust k f d h.nodup
  counts := by
    intro e he
    rcases mem_adjust he with ⟨hne,hl⟩ | ⟨a,rfl,ha⟩
    · rw [h.counts e hl,List.count_cons_of_ne (Ne.symm hne)]
    · rcases ha with ha | ⟨hk,rfl⟩
      · have hcount : size a = xs.count k+1 := by
          rw [h.counts _ ha,List.count_cons_self]
        rw [hf a (by omega)]
        change size a-1 = xs.count k
        omega
      · exact absurd (h.covers k List.mem_cons_self) hk
  covers := fun x hx => subset_keys_adjust k f d (h.covers x (List.mem_cons_of_mem _ hx))

section Clearing
variable {g : κ × α → κ × α}

/-- Clearing entries that count nothing leaves a tally. -/
theorem Tally.clear (h : Tally size xs l) (hkey : ∀ e, (g e).1 = e.1)
    (hsize : ∀ e ∈ l, size (g e).2 = size e.2) : Tally size xs (l.map g) where
  nodup := by
    rw [keys_map hkey]
    exact h.nodup
  counts := by
    intro e he
    obtain ⟨b,hb,rfl⟩ := List.mem_map.mp he
    rw [hsize b hb,hkey,h.counts b hb]
  covers := by
    rw [keys_map hkey]
    exact h.covers

/-- Clearing an entry that counts something makes the total too small. -/
theorem Tally.clear_lt (h : Tally size xs l) (hle : ∀ e, size (g e).2 ≤ size e.2)
    {e : κ × α} (he : e ∈ l) (hlt : size (g e).2 < size e.2) :
    ((l.map g).map (fun e => size e.2)).sum < xs.length := by
  rw [← h.total,List.map_map]
  exact List.sum_lt_sum _ _ (fun e _ => hle e) ⟨e,he,hlt⟩

end Clearing

end AspikePort.Tallies
