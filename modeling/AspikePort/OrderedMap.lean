import Mathlib.Data.List.Basic
import Mathlib.Data.List.Sort
import Mathlib.Order.Basic

/-!
# Finite maps as strictly ordered lists

A map keeps its entries in increasing key order, so its list of entries is
both its contents and its iteration order, and two maps with the same lookups
are equal.
-/

set_option autoImplicit false

namespace AspikePort.OrderedMap

variable {κ ν μ : Type} [LinearOrder κ]

def find (k : κ) : List (κ × ν) → Option ν
  | [] => none
  | e::es => if k = e.1 then some e.2 else find k es

def put (k : κ) (v : ν) : List (κ × ν) → List (κ × ν)
  | [] => [(k,v)]
  | e::es => if k < e.1 then (k,v)::e::es
      else if k = e.1 then (k,v)::es
      else e::put k v es

abbrev Increasing (es : List (κ × ν)) : Prop := es.Pairwise (fun a b => a.1 < b.1)

theorem mem_put {k : κ} {v : ν} {es : List (κ × ν)} {e : κ × ν} (h : e ∈ put k v es) :
    e = (k,v) ∨ e ∈ es := by
  induction es with
  | nil => exact Or.inl (by simpa [put] using h)
  | cons d es ih =>
    rw [put] at h
    split_ifs at h
    · simpa using h
    · rcases List.mem_cons.mp h with h | h
      · exact Or.inl h
      · exact Or.inr (List.mem_cons_of_mem _ h)
    · rcases List.mem_cons.mp h with h | h
      · exact Or.inr (h ▸ List.mem_cons_self)
      · exact (ih h).imp_right (List.mem_cons_of_mem _)

theorem put_increasing (k : κ) (v : ν) {es : List (κ × ν)} (h : Increasing es) :
    Increasing (put k v es) := by
  induction es with
  | nil => exact List.pairwise_singleton _ _
  | cons d es ih =>
    obtain ⟨hd,hes⟩ := List.pairwise_cons.mp h
    rw [put]
    split_ifs with hlt heq
    · refine List.pairwise_cons.mpr ⟨fun e he => ?_,h⟩
      rcases List.mem_cons.mp he with rfl | he
      · exact hlt
      · exact hlt.trans (hd e he)
    · exact List.pairwise_cons.mpr ⟨fun e he => heq ▸ hd e he,hes⟩
    · refine List.pairwise_cons.mpr ⟨fun e he => ?_,ih hes⟩
      rcases mem_put he with rfl | he
      · exact lt_of_le_of_ne (not_lt.mp hlt) (Ne.symm heq)
      · exact hd e he

theorem find_put (k j : κ) (v : ν) (es : List (κ × ν)) :
    find j (put k v es) = if j = k then some v else find j es := by
  induction es with
  | nil => rfl
  | cons d es ih =>
    by_cases hlt : k < d.1
    · simp [put,hlt,find]
    by_cases heq : k = d.1
    · by_cases hj : j = k <;> simp [put,heq,find,heq ▸ hj]
    · rw [put,if_neg hlt,if_neg heq,find,ih,find]
      by_cases hj : j = k
      · simp [hj,heq]
      · simp [hj]

theorem find_none_of_lt {k : κ} {es : List (κ × ν)} (h : ∀ e ∈ es, k < e.1) :
    find k es = none := by
  induction es with
  | nil => rfl
  | cons d es ih =>
    have hd : k ≠ d.1 := ne_of_lt (h d List.mem_cons_self)
    rw [find,if_neg hd]
    exact ih (fun e he => h e (List.mem_cons_of_mem _ he))

theorem find_filter_ne (k j : κ) (es : List (κ × ν)) :
    find j (es.filter (fun e => e.1 ≠ k)) = if j = k then none else find j es := by
  induction es with
  | nil => simp [find]
  | cons d es ih =>
    by_cases hd : d.1 = k
    · have hj : j ≠ k → j ≠ d.1 := fun h => hd ▸ h
      rw [List.filter_cons_of_neg (by simpa using hd),ih]
      by_cases h : j = k
      · simp [h]
      · simp [find,h,hj h]
    · rw [List.filter_cons_of_pos (by simpa using hd),find,ih,find]
      by_cases hj : j = d.1
      · simp [hj,hd]
      · simp [hj]

theorem mem_iff_find {k : κ} {v : ν} {es : List (κ × ν)} (h : Increasing es) :
    (k,v) ∈ es ↔ find k es = some v := by
  induction es with
  | nil => simp [find]
  | cons e es ih =>
    obtain ⟨he,hes⟩ := List.pairwise_cons.mp h
    obtain ⟨d,x⟩ := e
    by_cases hk : k = d
    · subst hk
      have hnot : (k,v) ∉ es := fun hmem => lt_irrefl k (he (k,v) hmem)
      simp [find,hnot,eq_comm]
    · simp [find,hk,ih hes]

/-- Increasing lists with the same lookups are the same list. -/
theorem eq_of_find {es ds : List (κ × ν)} (he : Increasing es) (hd : Increasing ds)
    (h : ∀ k, find k es = find k ds) : es = ds := by
  induction es generalizing ds with
  | nil =>
    cases ds with
    | nil => rfl
    | cons d ds => simpa [find] using h d.1
  | cons e es ih =>
    obtain ⟨he',hes⟩ := List.pairwise_cons.mp he
    cases ds with
    | nil => simpa [find] using h e.1
    | cons d ds =>
      obtain ⟨hd',hds⟩ := List.pairwise_cons.mp hd
      -- the least key of one list is found in the other, so the heads agree
      have hkey : e.1 = d.1 := by
        rcases lt_trichotomy e.1 d.1 with hlt | heq | hlt
        · have hn : find e.1 (d::ds) = none := find_none_of_lt (fun x hx => by
            rcases List.mem_cons.mp hx with rfl | hx
            · exact hlt
            · exact hlt.trans (hd' x hx))
          have := h e.1
          rw [hn] at this
          simp [find] at this
        · exact heq
        · have hn : find d.1 (e::es) = none := find_none_of_lt (fun x hx => by
            rcases List.mem_cons.mp hx with rfl | hx
            · exact hlt
            · exact hlt.trans (he' x hx))
          have := h d.1
          rw [hn] at this
          simp [find] at this
      have hval : e.2 = d.2 := by
        have := h e.1
        rw [find,find,if_pos rfl,if_pos hkey] at this
        exact Option.some.inj this
      have hhead : e = d := Prod.ext hkey hval
      subst hhead
      congr 1
      apply ih hes hds
      intro k
      by_cases hk : k = e.1
      · rw [hk,find_none_of_lt he',find_none_of_lt hd']
      · have := h k
        rwa [find,find,if_neg hk,if_neg hk] at this

structure OrdMap (κ ν : Type) [LinearOrder κ] where
  entries : List (κ × ν)
  increasing : Increasing entries

namespace OrdMap

def empty : OrdMap κ ν := ⟨[],List.Pairwise.nil⟩

def lookup (k : κ) (m : OrdMap κ ν) : Option ν := find k m.entries

def insert (k : κ) (v : ν) (m : OrdMap κ ν) : OrdMap κ ν :=
  ⟨put k v m.entries,put_increasing k v m.increasing⟩

def erase (k : κ) (m : OrdMap κ ν) : OrdMap κ ν :=
  ⟨m.entries.filter (fun e => e.1 ≠ k),m.increasing.filter _⟩

def eraseAll (ks : List κ) (m : OrdMap κ ν) : OrdMap κ ν := ks.foldl (fun m k => m.erase k) m

def mapVal (f : ν → μ) (m : OrdMap κ ν) : OrdMap κ μ :=
  ⟨m.entries.map (fun e => (e.1,f e.2)),m.increasing.map _ (fun _ _ h => h)⟩

theorem ext {m n : OrdMap κ ν} (h : ∀ k, m.lookup k = n.lookup k) : m = n := by
  obtain ⟨es,hes⟩ := m
  obtain ⟨ds,hds⟩ := n
  have := eq_of_find hes hds h
  subst this
  rfl

theorem mem_entries {k : κ} {v : ν} {m : OrdMap κ ν} : (k,v) ∈ m.entries ↔ m.lookup k = some v :=
  mem_iff_find m.increasing

theorem mem_keys {k : κ} {m : OrdMap κ ν} :
    k ∈ m.entries.map Prod.fst ↔ ∃ v, m.lookup k = some v := by
  simp [← mem_entries]

theorem keys_nodup (m : OrdMap κ ν) : (m.entries.map Prod.fst).Nodup :=
  List.pairwise_map.mpr (m.increasing.imp (fun h => ne_of_lt h))

@[simp] theorem lookup_empty (k : κ) : (empty : OrdMap κ ν).lookup k = none := rfl

@[simp] theorem lookup_insert (k j : κ) (v : ν) (m : OrdMap κ ν) :
    (m.insert k v).lookup j = if j = k then some v else m.lookup j := find_put k j v m.entries

@[simp] theorem lookup_erase (k j : κ) (m : OrdMap κ ν) :
    (m.erase k).lookup j = if j = k then none else m.lookup j := find_filter_ne k j m.entries

@[simp] theorem lookup_eraseAll (ks : List κ) (j : κ) (m : OrdMap κ ν) :
    (m.eraseAll ks).lookup j = if j ∈ ks then none else m.lookup j := by
  induction ks generalizing m with
  | nil => rfl
  | cons k ks ih =>
    apply (ih (m.erase k)).trans
    by_cases hj : j = k <;> by_cases hmem : j ∈ ks <;> simp [hj,hmem]

theorem find_map (f : ν → μ) (k : κ) (es : List (κ × ν)) :
    find k (es.map (fun e => (e.1,f e.2))) = (find k es).map f := by
  induction es with
  | nil => rfl
  | cons e es ih =>
    by_cases h : k = e.1
    · simp [find,h]
    · simp [find,h,ih]

@[simp] theorem lookup_mapVal (f : ν → μ) (k : κ) (m : OrdMap κ ν) :
    (m.mapVal f).lookup k = (m.lookup k).map f := find_map f k m.entries

/-- A later write to a key hides an earlier one. -/
@[simp] theorem insert_insert (k : κ) (v w : ν) (m : OrdMap κ ν) :
    (m.insert k v).insert k w = m.insert k w := by
  apply ext
  intro j
  by_cases h : j = k <;> simp [h]

theorem mapVal_insert (f : ν → μ) (k : κ) (v : ν) (m : OrdMap κ ν) :
    (m.insert k v).mapVal f = (m.mapVal f).insert k (f v) := by
  apply ext
  intro j
  by_cases h : j = k <;> simp [h]

theorem mapVal_erase (f : ν → μ) (k : κ) (m : OrdMap κ ν) :
    (m.erase k).mapVal f = (m.mapVal f).erase k := by
  apply ext
  intro j
  by_cases h : j = k <;> simp [h]

theorem mapVal_eraseAll (f : ν → μ) (ks : List κ) (m : OrdMap κ ν) :
    (m.eraseAll ks).mapVal f = (m.mapVal f).eraseAll ks := by
  induction ks generalizing m with
  | nil => rfl
  | cons k ks ih => exact (ih (m.erase k)).trans (by rw [mapVal_erase]; rfl)

section Building
variable {α : Type} (key : α → κ) (value : α → ν)

def build (xs : List α) (m : OrdMap κ ν) : OrdMap κ ν :=
  xs.foldl (fun m x => m.insert (key x) (value x)) m

theorem build_cons (x : α) (xs : List α) (m : OrdMap κ ν) :
    build key value (x::xs) m = build key value xs (m.insert (key x) (value x)) := rfl

/-- Every key of the result comes from somewhere. -/
theorem lookup_build_some {xs : List α} {m : OrdMap κ ν} {k : κ} {v : ν}
    (h : (build key value xs m).lookup k = some v) :
    (∃ x ∈ xs, key x = k) ∨ m.lookup k = some v := by
  induction xs generalizing m with
  | nil => exact Or.inr h
  | cons x xs ih =>
    rw [build_cons] at h
    rcases ih h with ⟨y,hy,hk⟩ | hm
    · exact Or.inl ⟨y,List.mem_cons_of_mem x hy,hk⟩
    · rw [lookup_insert] at hm
      by_cases hk : k = key x
      · exact Or.inl ⟨x,List.mem_cons_self,hk.symm⟩
      · rw [if_neg hk] at hm
        exact Or.inr hm

theorem lookup_build_other {xs : List α} {m : OrdMap κ ν} {k : κ} (h : k ∉ xs.map key) :
    (build key value xs m).lookup k = m.lookup k := by
  induction xs generalizing m with
  | nil => rfl
  | cons x xs ih =>
    obtain ⟨hx,hxs⟩ := not_or.mp (fun hm => h (List.mem_cons.mpr hm))
    rw [build_cons,ih hxs,lookup_insert,if_neg hx]

theorem lookup_build {xs : List α} {m : OrdMap κ ν} (h : (xs.map key).Nodup) {x : α} (hx : x ∈ xs) :
    (build key value xs m).lookup (key x) = some (value x) := by
  induction xs generalizing m with
  | nil => exact absurd hx List.not_mem_nil
  | cons y xs ih =>
    obtain ⟨hy,hxs⟩ := List.nodup_cons.mp h
    rw [build_cons]
    rcases List.mem_cons.mp hx with rfl | hx
    · rw [lookup_build_other key value hy,lookup_insert,if_pos rfl]
    · exact ih hxs hx

/-- Under distinct keys the map has one entry for each item. -/
theorem build_perm {xs : List α} (h : (xs.map key).Nodup) :
    (build key value xs empty).entries.Perm (xs.map (fun x => (key x,value x))) := by
  have hkeys : (xs.map (fun x => (key x,value x))).map Prod.fst = xs.map key := by
    rw [List.map_map]
    rfl
  have hitems : (xs.map (fun x => (key x,value x))).Nodup := by
    apply List.Nodup.of_map Prod.fst
    rwa [hkeys]
  apply (List.perm_ext_iff_of_nodup (List.Nodup.of_map _ (keys_nodup _)) hitems).mpr
  rintro ⟨k,v⟩
  rw [mem_entries]
  constructor
  · intro hlookup
    rcases lookup_build_some key value hlookup with ⟨x,hx,rfl⟩ | hempty
    · rw [lookup_build key value h hx] at hlookup
      rw [← Option.some.inj hlookup]
      exact List.mem_map_of_mem (f := fun x => (key x,value x)) hx
    · cases hempty
  · intro hmem
    obtain ⟨x,hx,hpair⟩ := List.mem_map.mp hmem
    rw [← (Prod.mk.inj hpair).1,← (Prod.mk.inj hpair).2]
    exact lookup_build key value h hx

end Building

end OrdMap

end AspikePort.OrderedMap
