import AspikePort.LabelledRuns
import Mathlib.Data.List.Count
import Mathlib.Logic.Function.Basic

/-!
# Slots that own objects

Objects are numbered in the order of their creation. A named slot owns the
object last written to it, and a write destroys the object the slot owned. An
object no slot takes is destroyed at once. So every object is owned by one
slot or has been destroyed once; which of the two depends on the later writes
to its name only.
-/

set_option autoImplicit false

namespace AspikePort.OwnedSlots
open AspikePort.LabelledRuns

section Stores
variable {ν : Type}

inductive Write (ν : Type) where
  | object (name : ν)
  | refused
  | plain (name : ν)
  | skip
  deriving DecidableEq

def Write.target : Write ν → Option ν
  | .object name => some name
  | .plain name => some name
  | _ => none

structure Store (ν : Type) where
  owner : ν → Option ℕ
  created : ℕ
  destroyed : List ℕ

def Store.empty : Store ν := ⟨fun _ => none,0,[]⟩

def Owned (s : Store ν) (i : ℕ) : Prop := ∃ name, s.owner name = some i

/-- Owned by one slot, or destroyed once. -/
structure Sound (s : Store ν) : Prop where
  distinct : ∀ {m n i}, s.owner m = some i → s.owner n = some i → m = n
  bounded : ∀ {n i}, s.owner n = some i → i < s.created
  kept : ∀ {i}, Owned s i → s.destroyed.count i = 0
  gone : ∀ {i}, i < s.created → ¬Owned s i → s.destroyed.count i = 1
  fresh : ∀ {i}, s.created ≤ i → s.destroyed.count i = 0

theorem empty_sound : Sound (Store.empty : Store ν) where
  distinct h := nomatch h
  bounded h := nomatch h
  kept := fun ⟨_,h⟩ => nomatch h
  gone h := absurd h (Nat.not_lt_zero _)
  fresh _ := rfl

variable [DecidableEq ν]

def write : Write ν → Store ν → Store ν
  | .object name, s => ⟨Function.update s.owner name (some s.created),s.created+1,
      s.destroyed ++ (s.owner name).toList⟩
  | .refused, s => { s with created := s.created+1, destroyed := s.destroyed ++ [s.created] }
  | .plain name, s => ⟨Function.update s.owner name none,s.created,
      s.destroyed ++ (s.owner name).toList⟩
  | .skip, s => s

theorem owned_update {s : Store ν} (hs : Sound s) (name : ν) (o : Option ℕ) (c : ℕ) (d : List ℕ)
    (i : ℕ) : Owned (⟨Function.update s.owner name o,c,d⟩ : Store ν) i ↔
      o = some i ∨ Owned s i ∧ s.owner name ≠ some i := by
  constructor
  · rintro ⟨n,hn⟩
    change Function.update s.owner name o n = some i at hn
    by_cases hname : n = name
    · rw [hname,Function.update_self] at hn
      exact .inl hn
    · rw [Function.update_of_ne hname] at hn
      exact .inr ⟨⟨n,hn⟩,fun h => hname (hs.distinct hn h)⟩
  · rintro (ho | ⟨⟨n,hn⟩,hne⟩)
    · exact ⟨name,(Function.update_self _ _ _).trans ho⟩
    · refine ⟨n,(Function.update_of_ne ?_ _ _).trans hn⟩
      rintro rfl
      exact hne hn

theorem count_replaced (d : List ℕ) (o : Option ℕ) (i : ℕ) :
    (d ++ o.toList).count i = d.count i + if o = some i then 1 else 0 := by
  rw [List.count_append]
  cases o with
  | none => rfl
  | some j => simp [List.count_singleton]

/-- A write to a slot creates the object it leaves there, if it leaves one. -/
theorem replace_sound {s : Store ν} (hs : Sound s) (name : ν) (o : Option ℕ) {c : ℕ}
    (hc : s.created ≤ c) (ho : ∀ i, o = some i ↔ s.created ≤ i ∧ i < c) :
    Sound (⟨Function.update s.owner name o,c,s.destroyed ++ (s.owner name).toList⟩ : Store ν) where
  distinct := by
    intro m n i hm hn
    change Function.update s.owner name o m = some i at hm
    change Function.update s.owner name o n = some i at hn
    rw [Function.update_apply] at hm hn
    split_ifs at hm hn with hmn hnn hnn
    · rw [hmn,hnn]
    · exact absurd (hs.bounded hn) (Nat.not_lt.mpr ((ho i).mp hm).1)
    · exact absurd (hs.bounded hm) (Nat.not_lt.mpr ((ho i).mp hn).1)
    · exact hs.distinct hm hn
  bounded := by
    intro n i hn
    change Function.update s.owner name o n = some i at hn
    rw [Function.update_apply] at hn
    split_ifs at hn
    · exact ((ho i).mp hn).2
    · exact Nat.lt_of_lt_of_le (hs.bounded hn) hc
  kept := by
    intro i hi
    rw [owned_update hs] at hi
    rw [count_replaced]
    rcases hi with hi | ⟨hi,hne⟩
    · have hnew := ((ho i).mp hi).1
      rw [hs.fresh hnew,if_neg (fun h => absurd (hs.bounded h) (Nat.not_lt.mpr hnew))]
    · rw [hs.kept hi,if_neg hne]
  gone := by
    intro i hi hnot
    rw [owned_update hs,not_or,not_and_not_right] at hnot
    rw [count_replaced]
    have hold : i < s.created := Nat.not_le.mp fun hle => hnot.1 ((ho i).mpr ⟨hle,hi⟩)
    by_cases howned : Owned s i
    · rw [hs.kept howned,if_pos (hnot.2 howned)]
    · rw [hs.gone hold howned,if_neg (fun h => howned ⟨name,h⟩)]
  fresh := by
    intro i hi
    have hold : s.created ≤ i := Nat.le_trans hc hi
    rw [count_replaced,hs.fresh hold,if_neg (fun h => absurd (hs.bounded h) (Nat.not_lt.mpr hold))]

theorem refused_sound {s : Store ν} (hs : Sound s) : Sound (write .refused s) where
  distinct := hs.distinct
  bounded h := Nat.lt_succ_of_lt (hs.bounded h)
  kept := by
    rintro i ⟨n,hn⟩
    have hne : i ≠ s.created := Nat.ne_of_lt (hs.bounded hn)
    change (s.destroyed ++ [s.created]).count i = 0
    rw [List.count_append,hs.kept ⟨n,hn⟩,List.count_singleton]
    simp [hne.symm]
  gone := by
    intro i hi hnot
    change (s.destroyed ++ [s.created]).count i = 1
    rw [List.count_append,List.count_singleton]
    rcases Nat.lt_succ_iff_lt_or_eq.mp hi with hlt | rfl
    · rw [hs.gone hlt hnot]
      simp [(Nat.ne_of_lt hlt).symm]
    · rw [hs.fresh (Nat.le_refl _)]
      simp
  fresh := by
    intro i hi
    change s.created+1 ≤ i at hi
    change (s.destroyed ++ [s.created]).count i = 0
    rw [List.count_append,hs.fresh (by omega),List.count_singleton]
    simp [show s.created ≠ i by omega]

theorem write_sound {s : Store ν} (hs : Sound s) (w : Write ν) : Sound (write w s) := by
  cases w with
  | object name =>
    refine replace_sound hs name (some s.created) (Nat.le_succ _) fun i => ?_
    rw [Option.some_inj]
    omega
  | refused => exact refused_sound hs
  | plain name =>
    refine replace_sound hs name none (Nat.le_refl _) fun i => ?_
    exact ⟨(nomatch ·),fun h => absurd h.1 (Nat.not_le.mpr h.2)⟩
  | skip => exact hs

theorem run_sound (ws : List (Write ν)) : Sound (run write ws Store.empty) :=
  run_invariant write empty_sound (fun w _ h => write_sound h w) ws

end Stores

section Ends
variable {ν : Type} [DecidableEq ν]

/-- Every object has been destroyed exactly once. -/
def Once (created : ℕ) (destroyed : List ℕ) : Prop := ∀ i < created, destroyed.count i = 1

/-- Every object that went to a slot is followed by a write to its slot. -/
def Rewritten : List (Write ν) → Prop
  | [] => True
  | w::ws => (∀ name, w = .object name → ∃ v ∈ ws, v.target = some name) ∧ Rewritten ws

theorem owner_write_ne_none (w : Write ν) (s : Store ν) (n : ν) :
    (write w s).owner n ≠ none ↔
      w = .object n ∨ w.target ≠ some n ∧ s.owner n ≠ none := by
  cases w with
  | object name =>
    change Function.update s.owner name (some s.created) n ≠ none ↔ _
    rw [Function.update_apply]
    by_cases h : n = name
    · simp [h]
    · simp [h,Ne.symm h,Write.target]
  | refused => simp [write,Write.target]
  | plain name =>
    change Function.update s.owner name none n ≠ none ↔ _
    rw [Function.update_apply]
    by_cases h : n = name
    · simp [h,Write.target]
    · simp [h,Ne.symm h,Write.target]
  | skip => simp [write,Write.target]

theorem nothing_owned_iff (ws : List (Write ν)) (s : Store ν) :
    (∀ n, (run write ws s).owner n = none) ↔
      Rewritten ws ∧ ∀ n, s.owner n ≠ none → ∃ v ∈ ws, v.target = some n := by
  induction ws generalizing s with
  | nil => simp [run,Rewritten]
  | cons w ws ih =>
    rw [run,ih (write w s)]
    simp only [owner_write_ne_none,Rewritten]
    constructor
    · rintro ⟨hws,hnext⟩
      refine ⟨⟨fun name hw => hnext name (.inl hw),hws⟩,fun n hn => ?_⟩
      by_cases ht : w.target = some n
      · exact ⟨w,List.mem_cons_self,ht⟩
      · obtain ⟨v,hv,hvn⟩ := hnext n (.inr ⟨ht,hn⟩)
        exact ⟨v,List.mem_cons_of_mem w hv,hvn⟩
    · rintro ⟨⟨hw,hws⟩,hold⟩
      refine ⟨hws,fun n hn => ?_⟩
      rcases hn with hn | ⟨ht,hn⟩
      · exact hw n hn
      · obtain ⟨v,hv,hvn⟩ := hold n hn
        rcases List.mem_cons.mp hv with rfl | hv
        · exact absurd hvn ht
        · exact ⟨v,hv,hvn⟩

/-- When nobody but the slots destroys objects. -/
theorem once_iff_rewritten (ws : List (Write ν)) :
    Once (run write ws Store.empty).created (run write ws Store.empty).destroyed ↔
      Rewritten ws := by
  have hs := run_sound ws
  have hnone : (∀ n, (run write ws Store.empty).owner n = none) ↔ Rewritten ws :=
    (nothing_owned_iff ws Store.empty).trans (and_iff_left fun n h => absurd rfl h)
  rw [← hnone]
  constructor
  · intro h n
    cases hn : (run write ws Store.empty).owner n with
    | none => rfl
    | some i =>
      have hone := h i (hs.bounded hn)
      rw [hs.kept ⟨n,hn⟩] at hone
      cases hone
  · intro h i hi
    refine hs.gone hi ?_
    rintro ⟨n,hn⟩
    rw [h n] at hn
    cases hn

/-- No object is refused, and none is followed by a write to its slot. -/
def Untouched (ws : List (Write ν)) : Prop :=
  (∀ w ∈ ws, w ≠ .refused) ∧ ws.Pairwise (fun a b => ∀ name, a = .object name → b.target ≠ some name)

omit [DecidableEq ν] in
theorem untouched_snoc (ws : List (Write ν)) (w : Write ν) :
    Untouched (ws ++ [w]) ↔
      Untouched ws ∧ w ≠ .refused ∧ ∀ name, w.target = some name → .object name ∉ ws := by
  unfold Untouched
  rw [List.pairwise_append]
  simp only [List.forall_mem_append,List.forall_mem_singleton,List.pairwise_singleton,true_and]
  constructor
  · rintro ⟨⟨hws,hw⟩,hpair,hlast⟩
    exact ⟨⟨hws,hpair⟩,hw,fun name ht hmem => hlast _ hmem name rfl ht⟩
  · rintro ⟨⟨hws,hpair⟩,hw,hlast⟩
    refine ⟨⟨hws,hw⟩,hpair,fun a ha name haname ht => hlast name ht (haname ▸ ha)⟩

theorem replace_owned_iff {s : Store ν} (hs : Sound s) (name : ν) (o : Option ℕ) {c : ℕ}
    (d : List ℕ) (hc : s.created ≤ c) (ho : ∀ i, o = some i ↔ s.created ≤ i ∧ i < c) :
    (∀ i < c, Owned (⟨Function.update s.owner name o,c,d⟩ : Store ν) i) ↔
      (∀ i < s.created, Owned s i) ∧ s.owner name = none := by
  simp only [owned_update hs]
  constructor
  · intro h
    have hold : ∀ i < s.created, Owned s i ∧ s.owner name ≠ some i := fun i hi =>
      (h i (Nat.lt_of_lt_of_le hi hc)).resolve_left
        (fun hnew => absurd hi (Nat.not_lt.mpr ((ho i).mp hnew).1))
    refine ⟨fun i hi => (hold i hi).1,?_⟩
    cases hname : s.owner name with
    | none => rfl
    | some j => exact absurd hname (hold j (hs.bounded hname)).2
  · rintro ⟨hold,hname⟩ i hi
    by_cases hnew : s.created ≤ i
    · exact .inl ((ho i).mpr ⟨hnew,hi⟩)
    · exact .inr ⟨hold i (Nat.not_le.mp hnew),by rw [hname]; exact (nomatch ·)⟩

theorem write_owned_iff {s : Store ν} (hs : Sound s) (w : Write ν) :
    (∀ i < (write w s).created, Owned (write w s) i) ↔
      (∀ i < s.created, Owned s i) ∧ w ≠ .refused ∧ ∀ n, w.target = some n → s.owner n = none := by
  cases w with
  | object name =>
    refine (replace_owned_iff hs name (some s.created) _ (Nat.le_succ _) fun i => ?_).trans ?_
    · rw [Option.some_inj]
      omega
    · simp [Write.target]
  | refused =>
    refine ⟨fun h => ?_,fun h => absurd rfl h.2.1⟩
    obtain ⟨n,hn⟩ := h s.created (Nat.lt_succ_self _)
    exact absurd (hs.bounded hn) (Nat.lt_irrefl _)
  | plain name =>
    refine (replace_owned_iff hs name none _ (Nat.le_refl _) fun i => ?_).trans ?_
    · exact ⟨(nomatch ·),fun h => absurd h.1 (Nat.not_le.mpr h.2)⟩
    · simp [Write.target]
  | skip => simp [write,Write.target]

theorem owner_of_untouched (ws : List (Write ν)) (h : Untouched ws) (n : ν) :
    (run write ws Store.empty).owner n ≠ none ↔ .object n ∈ ws := by
  induction ws using List.reverseRecOn with
  | nil => simp [run,Store.empty]
  | append_singleton ws w ih =>
    obtain ⟨hws,-,hlast⟩ := (untouched_snoc ws w).mp h
    rw [run_snoc,owner_write_ne_none,ih hws,List.mem_append,List.mem_singleton,
      and_iff_right_of_imp (fun hmem ht => hlast n ht hmem),or_comm,eq_comm]

/-- Every object has an owner: then none has been refused or replaced. -/
theorem all_owned_iff (ws : List (Write ν)) :
    (∀ i < (run write ws Store.empty).created, Owned (run write ws Store.empty) i) ↔
      Untouched ws := by
  induction ws using List.reverseRecOn with
  | nil => simp [run,Store.empty,Untouched]
  | append_singleton ws w ih =>
    rw [run_snoc,write_owned_iff (run_sound ws),ih,untouched_snoc]
    refine and_congr_right fun hws => and_congr_right fun _ => forall₂_congr fun n _ => ?_
    rw [← owner_of_untouched ws hws n,not_not]

/-- When all objects are destroyed once more at the end. -/
theorem once_iff_untouched (ws : List (Write ν)) :
    Once (run write ws Store.empty).created
        ((run write ws Store.empty).destroyed ++ List.range (run write ws Store.empty).created) ↔
      Untouched ws := by
  have hs := run_sound ws
  rw [← all_owned_iff]
  refine forall₂_congr fun i hi => ?_
  rw [List.count_append,List.count_range,if_pos hi]
  constructor
  · intro h
    by_contra hnot
    rw [hs.gone hi hnot] at h
    omega
  · intro h
    rw [hs.kept h]

end Ends

end AspikePort.OwnedSlots
