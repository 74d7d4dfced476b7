import AspikePort.OrderedMap
import Mathlib.Data.List.Perm.Basic
import Mathlib.Logic.Function.Basic

/-!
# Stores of records of named maps

A store has a record under every key, a record has finitely many named bins
and a bin is a finite map. A write sets one entry of a bin, replaces a bin or
removes entries from a bin. Writes commute with a change of the values stored,
and removals commute with each other.
-/

set_option autoImplicit false

namespace AspikePort.NestedStore
open AspikePort.OrderedMap

variable {ρ β κ ν μ : Type} [LinearOrder β] [LinearOrder κ]

abbrev Bins (β κ ν : Type) [LinearOrder β] [LinearOrder κ] := OrdMap β (OrdMap κ ν)

abbrev Store (ρ β κ ν : Type) [LinearOrder β] [LinearOrder κ] := ρ → Bins β κ ν

def Store.empty : Store ρ β κ ν := fun _ => OrdMap.empty

def Bins.map (f : ν → μ) (b : Bins β κ ν) : Bins β κ μ := b.mapVal (OrdMap.mapVal f)

def Store.map (f : ν → μ) (s : Store ρ β κ ν) : Store ρ β κ μ := fun r => Bins.map f (s r)

inductive Write (ρ β κ ν : Type) [LinearOrder κ] where
  | set (record : ρ) (bin : β) (key : κ) (value : ν)
  | replace (record : ρ) (bin : β) (cells : OrdMap κ ν)
  | remove (record : ρ) (bin : β) (keys : List κ)

namespace Write

def record : Write ρ β κ ν → ρ
  | set r _ _ _ => r
  | replace r _ _ => r
  | remove r _ _ => r

def bin : Write ρ β κ ν → β
  | set _ b _ _ => b
  | replace _ b _ => b
  | remove _ b _ => b

def map (f : ν → μ) : Write ρ β κ ν → Write ρ β κ μ
  | set r b k v => set r b k (f v)
  | replace r b cells => replace r b (cells.mapVal f)
  | remove r b ks => remove r b ks

/-- What becomes of its bin. Only a removal leaves a missing bin missing. -/
def onCells : Write ρ β κ ν → Option (OrdMap κ ν) → Option (OrdMap κ ν)
  | set _ _ k v, cells => some ((cells.getD OrdMap.empty).insert k v)
  | replace _ _ new, _ => some new
  | remove _ _ ks, cells => cells.map (OrdMap.eraseAll ks)

def onBins (w : Write ρ β κ ν) (b : Bins β κ ν) : Bins β κ ν :=
  match w.onCells (b.lookup w.bin) with
  | some cells => b.insert w.bin cells
  | none => b

def apply [DecidableEq ρ] (w : Write ρ β κ ν) (s : Store ρ β κ ν) : Store ρ β κ ν :=
  Function.update s w.record (w.onBins (s w.record))

end Write

def applyAll [DecidableEq ρ] (ws : List (Write ρ β κ ν)) (s : Store ρ β κ ν) : Store ρ β κ ν :=
  ws.foldl (fun s w => w.apply s) s

omit [LinearOrder β] in
theorem onCells_none {w : Write ρ β κ ν} {cells : Option (OrdMap κ ν)}
    (h : w.onCells cells = none) : cells = none := by
  cases w with
  | set => cases h
  | replace => cases h
  | remove => exact Option.map_eq_none_iff.mp h

/-- A write shows in its own bin only. -/
theorem lookup_onBins (w : Write ρ β κ ν) (b : Bins β κ ν) (n : β) :
    (w.onBins b).lookup n = if n = w.bin then w.onCells (b.lookup w.bin) else b.lookup n := by
  unfold Write.onBins
  cases h : w.onCells (b.lookup w.bin) with
  | some cells => exact OrdMap.lookup_insert _ _ _ _
  | none =>
    by_cases hn : n = w.bin
    · rw [if_pos hn,hn,onCells_none h]
    · rw [if_neg hn]

/-- A write leaves every other bin and every other record as it was. -/
theorem lookup_apply [DecidableEq ρ] (w : Write ρ β κ ν) (s : Store ρ β κ ν) (r : ρ) (n : β) :
    (w.apply s r).lookup n =
      if r = w.record ∧ n = w.bin then w.onCells ((s r).lookup n) else (s r).lookup n := by
  unfold Write.apply
  by_cases hr : r = w.record
  · subst hr
    rw [Function.update_self,lookup_onBins]
    by_cases hn : n = w.bin
    · simp [hn]
    · simp [hn]
  · simp [hr]

theorem store_ext {s t : Store ρ β κ ν} (h : ∀ r n, (s r).lookup n = (t r).lookup n) : s = t := by
  funext r
  exact OrdMap.ext (h r)

/-- Writes to one record. -/
theorem applyAll_record [DecidableEq ρ] {r : ρ} (ws : List (Write ρ β κ ν))
    (h : ∀ w ∈ ws, w.record = r) (s : Store ρ β κ ν) :
    applyAll ws s = Function.update s r (ws.foldl (fun b w => w.onBins b) (s r)) := by
  induction ws generalizing s with
  | nil => exact (Function.update_eq_self r s).symm
  | cons w ws ih =>
    have hw : w.record = r := h w List.mem_cons_self
    have hrest := ih (fun x hx => h x (List.mem_cons_of_mem _ hx)) (w.apply s)
    rw [Write.apply,hw,Function.update_idem,Function.update_self] at hrest
    change applyAll ws (Function.update s w.record _) = _
    rw [hw]
    exact hrest

section Maps

theorem lookup_map (f : ν → μ) (b : Bins β κ ν) (n : β) :
    (Bins.map f b).lookup n = (b.lookup n).map (OrdMap.mapVal f) := OrdMap.lookup_mapVal _ n b

omit [LinearOrder β] in
theorem onCells_map (f : ν → μ) (w : Write ρ β κ ν) (cells : Option (OrdMap κ ν)) :
    (w.map f).onCells (cells.map (OrdMap.mapVal f)) = (w.onCells cells).map (OrdMap.mapVal f) := by
  cases w with
  | set r b k v =>
    cases cells with
    | none => exact congrArg some (OrdMap.mapVal_insert f k v OrdMap.empty).symm
    | some m => exact congrArg some (OrdMap.mapVal_insert f k v m).symm
  | replace r b new => rfl
  | remove r b ks =>
    cases cells with
    | none => rfl
    | some m => exact congrArg some (OrdMap.mapVal_eraseAll f ks m).symm

variable [DecidableEq ρ]

theorem apply_map (f : ν → μ) (w : Write ρ β κ ν) (s : Store ρ β κ ν) :
    (w.map f).apply (Store.map f s) = Store.map f (w.apply s) := by
  have hrecord : (w.map f).record = w.record := by cases w <;> rfl
  have hbin : (w.map f).bin = w.bin := by cases w <;> rfl
  apply store_ext
  intro r n
  unfold Store.map
  rw [lookup_apply,lookup_map,lookup_map,lookup_apply,hrecord,hbin,onCells_map]
  split_ifs <;> rfl

theorem applyAll_map (f : ν → μ) (ws : List (Write ρ β κ ν)) (s : Store ρ β κ ν) :
    applyAll (ws.map (Write.map f)) (Store.map f s) = Store.map f (applyAll ws s) := by
  induction ws generalizing s with
  | nil => rfl
  | cons w ws ih =>
    change applyAll (ws.map (Write.map f)) ((w.map f).apply (Store.map f s)) = _
    rw [apply_map]
    exact ih (w.apply s)

end Maps

section Removals
variable [DecidableEq ρ]

theorem eraseAll_comm (ks js : List κ) (m : OrdMap κ ν) :
    (m.eraseAll ks).eraseAll js = (m.eraseAll js).eraseAll ks := by
  apply OrdMap.ext
  intro k
  by_cases hk : k ∈ ks <;> by_cases hj : k ∈ js <;> simp [hk,hj]

theorem lookup_remove (r q : ρ) (b n : β) (ks : List κ) (s : Store ρ β κ ν) :
    ((Write.remove r b ks).apply s q).lookup n =
      ((s q).lookup n).map (fun m => if q = r ∧ n = b then m.eraseAll ks else m) := by
  rw [lookup_apply]
  change (if q = r ∧ n = b then ((s q).lookup n).map (OrdMap.eraseAll ks) else _) = _
  by_cases h : q = r ∧ n = b
  · simp only [if_pos h]
  · simp only [if_neg h,Option.map_id']

theorem remove_comm (r r' : ρ) (b b' : β) (ks ks' : List κ) (s : Store ρ β κ ν) :
    (Write.remove r b ks).apply ((Write.remove r' b' ks').apply s) =
      (Write.remove r' b' ks').apply ((Write.remove r b ks).apply s) := by
  apply store_ext
  intro q n
  rw [lookup_remove,lookup_remove,lookup_remove,lookup_remove,Option.map_map,Option.map_map]
  congr 1
  funext m
  simp only [Function.comp]
  split_ifs
  · exact eraseAll_comm ks' ks m
  all_goals rfl

/-- The order of removals does not matter. -/
theorem removals_perm {α : Type} {f : α → Write ρ β κ ν}
    (hf : ∀ x, ∃ r b ks, f x = Write.remove r b ks) {xs ys : List α} (h : xs.Perm ys)
    (s : Store ρ β κ ν) : applyAll (xs.map f) s = applyAll (ys.map f) s := by
  unfold applyAll
  rw [List.foldl_map,List.foldl_map]
  refine h.foldl_eq' (fun x _ y _ t => ?_) s
  obtain ⟨r,b,ks,hx⟩ := hf x
  obtain ⟨r',b',ks',hy⟩ := hf y
  rw [hx,hy]
  exact (remove_comm r r' b b' ks ks' t).symm

end Removals

end AspikePort.NestedStore
