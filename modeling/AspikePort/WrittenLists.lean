import Mathlib.Data.List.Basic
import Mathlib.Data.List.Nodup

/-!
# Association lists that are written in place

A value that is written under a key takes the place of the one that stood there,
or a new place at the end. What stands under a key afterwards is what was
written there last, and the order of the keys does not depend on the values.
-/

set_option autoImplicit false

namespace AspikePort.WrittenLists

variable {κ ν α : Type} [DecidableEq κ]

def upsert (k : κ) (v : ν) (es : List (κ × ν)) : List (κ × ν) :=
  if k ∈ es.map Prod.fst then es.map (fun e => if e.1 = k then (k,v) else e) else es ++ [(k,v)]

def find (k : κ) (es : List (κ × ν)) : Option ν := (es.find? (fun e => e.1 = k)).map Prod.snd

theorem find_cons (k : κ) (e : κ × ν) (es : List (κ × ν)) :
    find k (e::es) = if e.1 = k then some e.2 else find k es := by
  unfold find
  by_cases h : e.1 = k <;> simp [h]

theorem find_append (k : κ) (es ds : List (κ × ν)) :
    find k (es ++ ds) = (find k es).or (find k ds) := by
  unfold find
  rw [List.find?_append,Option.map_or]

theorem find_none {k : κ} {es : List (κ × ν)} (h : k ∉ es.map Prod.fst) : find k es = none := by
  induction es with
  | nil => rfl
  | cons e es ih =>
    obtain ⟨he,hes⟩ := not_or.mp (fun hm => h (List.mem_cons.mpr hm))
    rw [find_cons,if_neg (fun heq => he heq.symm),ih hes]

theorem find_replace {k : κ} (v : ν) (j : κ) {es : List (κ × ν)} (h : k ∈ es.map Prod.fst) :
    find j (es.map (fun e => if e.1 = k then (k,v) else e)) =
      if k = j then some v else find j es := by
  induction es with
  | nil => exact absurd h List.not_mem_nil
  | cons e es ih =>
    rw [List.map_cons,find_cons,find_cons]
    by_cases he : e.1 = k
    · rw [if_pos he]
      by_cases hj : k = j
      · rw [if_pos hj,if_pos hj]
      · have hej : ¬e.1 = j := fun heq => hj (he.symm.trans heq)
        rw [if_neg hj,if_neg hj,if_neg hej]
        by_cases hmem : k ∈ es.map Prod.fst
        · rw [ih hmem,if_neg hj]
        · congr 1
          rw [List.map_congr_left (g := id),List.map_id]
          intro d hd
          rw [if_neg]
          · rfl
          · intro heq
            apply hmem
            rw [← heq]
            exact List.mem_map_of_mem hd
    · have hmem : k ∈ es.map Prod.fst := by
        rcases List.mem_cons.mp h with heq | hmem
        · exact absurd heq.symm he
        · exact hmem
      rw [if_neg he,ih hmem]
      by_cases hj : e.1 = j
      · have hkj : ¬k = j := fun heq => he (hj.trans heq.symm)
        rw [if_pos hj,if_pos hj,if_neg hkj]
      · rw [if_neg hj,if_neg hj]

theorem find_upsert (k : κ) (v : ν) (j : κ) (es : List (κ × ν)) :
    find j (upsert k v es) = if k = j then some v else find j es := by
  unfold upsert
  by_cases h : k ∈ es.map Prod.fst
  · rw [if_pos h]
    exact find_replace v j h
  · rw [if_neg h,find_append,find_cons]
    by_cases hj : k = j
    · rw [if_pos hj,if_pos hj,← hj,find_none h]
      rfl
    · rw [if_neg hj,if_neg hj]
      exact Option.or_none

theorem keys_upsert (k : κ) (v : ν) (es : List (κ × ν)) : (upsert k v es).map Prod.fst =
    if k ∈ es.map Prod.fst then es.map Prod.fst else es.map Prod.fst ++ [k] := by
  unfold upsert
  by_cases h : k ∈ es.map Prod.fst
  · rw [if_pos h,if_pos h,List.map_map]
    apply List.map_congr_left
    intro e he
    show (if e.1 = k then (k,v) else e).1 = e.1
    by_cases hk : e.1 = k
    · rw [if_pos hk,hk]
    · rw [if_neg hk]
  · rw [if_neg h,if_neg h,List.map_append]
    rfl

theorem keys_upsert_nodup (k : κ) (v : ν) {es : List (κ × ν)} (h : (es.map Prod.fst).Nodup) :
    ((upsert k v es).map Prod.fst).Nodup := by
  rw [keys_upsert]
  split_ifs with hk
  · exact h
  · exact List.nodup_append.mpr ⟨h,List.nodup_singleton k,fun a ha b hb => by
      rw [List.mem_singleton.mp hb]
      exact fun heq => hk (heq ▸ ha)⟩

/-- Two lists with the same keys in the same order differ in a value. -/
theorem eq_of_find {es ds : List (κ × ν)} (hkeys : es.map Prod.fst = ds.map Prod.fst)
    (hnodup : (es.map Prod.fst).Nodup) (h : ∀ k, find k es = find k ds) : es = ds := by
  induction es generalizing ds with
  | nil => exact (List.map_eq_nil_iff.mp hkeys.symm).symm
  | cons e es ih =>
    cases ds with
    | nil => cases hkeys
    | cons d ds =>
      obtain ⟨hhead,htail⟩ := List.cons.inj hkeys
      obtain ⟨he,hes⟩ := List.nodup_cons.mp hnodup
      have hfirst := h e.1
      rw [find_cons,find_cons,if_pos rfl,if_pos hhead.symm] at hfirst
      have hed : e = d := Prod.ext hhead (Option.some.inj hfirst)
      rw [hed]
      congr 1
      apply ih htail hes
      intro k
      have hk := h k
      rw [find_cons,find_cons,← hed] at hk
      by_cases heq : e.1 = k
      · have hd : k ∉ ds.map Prod.fst := by rwa [← htail,← heq]
        rw [find_none (heq ▸ he),find_none hd]
      · rwa [if_neg heq,if_neg heq] at hk

section Written
variable (key : α → Option κ)

/-- The items are written one by one; one without a key is passed over. -/
def written (f : α → ν) : List α → List (κ × ν) → List (κ × ν)
  | [], es => es
  | x::xs, es => written f xs ((key x).elim es (fun k => upsert k (f x) es))

def lastOf (xs : List α) (k : κ) : Option α := xs.reverse.find? (fun x => key x = some k)

theorem lastOf_cons (x : α) (xs : List α) (k : κ) : lastOf key (x::xs) k =
    (lastOf key xs k).or (if key x = some k then some x else none) := by
  unfold lastOf
  rw [List.reverse_cons,List.find?_append]
  by_cases h : key x = some k <;> simp [h]

theorem find_written (f : α → ν) (k : κ) (xs : List α) (es : List (κ × ν)) :
    find k (written key f xs es) = ((lastOf key xs k).map f).or (find k es) := by
  induction xs generalizing es with
  | nil => rfl
  | cons x xs ih =>
    rw [written,ih,lastOf_cons,Option.map_or,Option.or_assoc]
    congr 1
    cases hx : key x with
    | none => simp
    | some j =>
      rw [Option.elim_some,find_upsert]
      by_cases hj : j = k <;> simp [hj]

theorem keys_written (f g : α → ν) (xs : List α) {es ds : List (κ × ν)}
    (h : es.map Prod.fst = ds.map Prod.fst) :
    (written key f xs es).map Prod.fst = (written key g xs ds).map Prod.fst := by
  induction xs generalizing es ds with
  | nil => exact h
  | cons x xs ih =>
    apply ih
    cases key x with
    | none => exact h
    | some k =>
      show (upsert k (f x) es).map Prod.fst = (upsert k (g x) ds).map Prod.fst
      rw [keys_upsert,keys_upsert,h]

theorem keys_written_nodup (f : α → ν) (xs : List α) {es : List (κ × ν)}
    (h : (es.map Prod.fst).Nodup) : ((written key f xs es).map Prod.fst).Nodup := by
  induction xs generalizing es with
  | nil => exact h
  | cons x xs ih =>
    apply ih
    cases key x with
    | none => exact h
    | some k => exact keys_upsert_nodup k (f x) h

/-- Only what was written last under its key shows. -/
theorem written_eq_iff (f g : α → ν) (xs : List α) : written key f xs [] = written key g xs [] ↔
    ∀ k x, lastOf key xs k = some x → f x = g x := by
  constructor
  · intro h k x hx
    have hk := congrArg (find k) h
    rw [find_written,find_written,hx] at hk
    exact Option.some.inj hk
  · intro h
    have hnodup : ((written key f xs []).map Prod.fst).Nodup :=
      keys_written_nodup key f xs List.nodup_nil
    apply eq_of_find (keys_written key f g xs rfl) hnodup
    intro k
    rw [find_written,find_written]
    cases hx : lastOf key xs k with
    | none => rfl
    | some x =>
      show some (f x) = some (g x)
      rw [h k x hx]

theorem keys_written_iff (f : α → ν) (k : κ) (xs : List α) (es : List (κ × ν)) :
    k ∈ (written key f xs es).map Prod.fst ↔
      k ∈ es.map Prod.fst ∨ ∃ x ∈ xs, key x = some k := by
  induction xs generalizing es with
  | nil => simp [written]
  | cons x xs ih =>
    rw [written,ih,List.exists_mem_cons_iff,← or_assoc]
    apply or_congr_left
    cases hx : key x with
    | none => simp
    | some j =>
      rw [Option.elim_some,keys_upsert,Option.some_inj]
      by_cases hj : j ∈ es.map Prod.fst
      · rw [if_pos hj]
        exact ⟨Or.inl,fun h => h.elim id (fun heq => heq ▸ hj)⟩
      · rw [if_neg hj,List.mem_append,List.mem_singleton,eq_comm (a := k)]

theorem written_congr_key {key' : α → Option κ} {xs : List α} (h : ∀ x ∈ xs, key x = key' x)
    (f : α → ν) (es : List (κ × ν)) : written key f xs es = written key' f xs es := by
  induction xs generalizing es with
  | nil => rfl
  | cons x xs ih =>
    obtain ⟨hx,hxs⟩ := List.forall_mem_cons.mp h
    rw [written,written,hx,ih hxs]

end Written

section Renamed
variable {g : κ → κ}

/-- The entries under other keys. -/
def renamed (g : κ → κ) (es : List (κ × ν)) : List (κ × ν) := es.map (fun e => (g e.1,e.2))

theorem upsert_renamed (hg : Function.Injective g) (k : κ) (v : ν) (es : List (κ × ν)) :
    upsert (g k) v (renamed g es) = renamed g (upsert k v es) := by
  have hmem : g k ∈ (renamed g es).map Prod.fst ↔ k ∈ es.map Prod.fst := by
    have hkeys : (renamed g es).map Prod.fst = (es.map Prod.fst).map g := by
      rw [renamed,List.map_map,List.map_map]
      rfl
    rw [hkeys,List.mem_map_of_injective hg]
  unfold upsert
  by_cases h : k ∈ es.map Prod.fst
  · rw [if_pos (hmem.mpr h),if_pos h]
    unfold renamed
    rw [List.map_map,List.map_map]
    apply List.map_congr_left
    intro e _
    by_cases he : e.1 = k
    · simp [he]
    · simp [he,hg.ne he]
  · rw [if_neg (fun hg => h (hmem.mp hg)),if_neg h]
    unfold renamed
    rw [List.map_append]
    rfl

theorem written_renamed (hg : Function.Injective g) (key : α → Option κ) (f : α → ν)
    (xs : List α) (es : List (κ × ν)) : written (fun x => (key x).map g) f xs (renamed g es) =
      renamed g (written key f xs es) := by
  induction xs generalizing es with
  | nil => rfl
  | cons x xs ih =>
    rw [written,written,← ih]
    congr 1
    cases key x with
    | none => rfl
    | some k => exact upsert_renamed hg k (f x) es

/-- Two lists whose keys correspond are the same only if the keys are. -/
theorem renamed_eq_iff (hg : Function.Injective g) (key : α → Option κ) (f : α → ν)
    (xs : List α) : written (fun x => (key x).map g) f xs [] = written key f xs [] ↔
      ∀ x ∈ xs, ∀ k, key x = some k → g k = k := by
  have hren : written (fun x => (key x).map g) f xs [] = renamed g (written key f xs []) :=
    written_renamed hg key f xs []
  rw [hren]
  constructor
  · intro h x hx k hk
    have hmem := (keys_written_iff key f k xs []).mpr (Or.inr ⟨x,hx,hk⟩)
    obtain ⟨e,he,rfl⟩ := List.mem_map.mp hmem
    have hall : (written key f xs []).map (fun e => (g e.1,e.2)) =
        (written key f xs []).map id := by
      rw [List.map_id]
      exact h
    exact congrArg Prod.fst (List.map_inj_left.mp hall e he)
  · intro h
    unfold renamed
    conv_rhs => rw [← List.map_id (written key f xs [])]
    apply List.map_congr_left
    intro e he
    have hmem : e.1 ∈ (written key f xs []).map Prod.fst := List.mem_map_of_mem he
    rcases (keys_written_iff key f e.1 xs []).mp hmem with hnil | ⟨x,hx,hk⟩
    · exact absurd hnil List.not_mem_nil
    · exact Prod.ext (h x hx e.1 hk) rfl

end Renamed

end AspikePort.WrittenLists
