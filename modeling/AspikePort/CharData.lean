import Mathlib.Data.List.Basic

/-!
# Deep character data

A text is a list of characters or a list of texts, nested to any depth.
Splitting sees only the characters, but hands a text without the separator
back as it was, nesting included.
-/

set_option autoImplicit false

namespace AspikePort

inductive CharData (α : Type) where
  | char (c : α)
  | nil
  | cons (head tail : CharData α)
  deriving DecidableEq, Repr

namespace CharData

section Texts
variable {α : Type}

def chars : CharData α → List α
  | .char c => [c]
  | .nil => []
  | .cons head tail => chars head ++ chars tail

def ofParts : List (CharData α) → CharData α
  | [] => .nil
  | part::parts => .cons part (ofParts parts)

/-- A flat text. -/
def ofChars (cs : List α) : CharData α := ofParts (cs.map .char)

@[simp] theorem ofChars_nil : ofChars ([] : List α) = .nil := rfl

@[simp] theorem ofChars_cons (c : α) (cs : List α) :
    ofChars (c::cs) = .cons (.char c) (ofChars cs) := rfl

@[simp] theorem chars_ofChars (cs : List α) : chars (ofChars cs) = cs := by
  induction cs with
  | nil => rfl
  | cons c cs ih => rw [ofChars_cons,chars,ih,chars,List.singleton_append]

theorem ofChars_injective : Function.Injective (ofChars : List α → CharData α) :=
  Function.LeftInverse.injective chars_ofChars

@[simp] theorem ofChars_inj {cs ds : List α} : ofChars cs = ofChars ds ↔ cs = ds :=
  ofChars_injective.eq_iff

@[simp] theorem chars_ofParts (parts : List (CharData α)) :
    chars (ofParts parts) = parts.flatMap chars := by
  induction parts with
  | nil => rfl
  | cons part parts ih => rw [ofParts,chars,ih,List.flatMap_cons]

end Texts

section Splitting
variable {α : Type} [DecidableEq α]

/-- At every separator; the parts are flat. -/
def splitAll (sep : α) (s : CharData α) : List (CharData α) :=
  if sep ∈ s.chars then (s.chars.splitOn sep).map ofChars else [s]

/-- What is left of the head, with the tail behind it. -/
def followedBy : CharData α → CharData α → CharData α
  | .nil, tail => tail
  | rest, .nil => rest
  | rest, tail => .cons rest tail

/-- The characters before the first separator, and the rest behind it. -/
def cut (sep : α) : CharData α → Option (List α × CharData α)
  | .char c => if c = sep then some ([],.nil) else none
  | .nil => none
  | .cons head tail =>
    match cut sep head with
    | some (before,rest) => some (before,rest.followedBy tail)
    | none => (cut sep tail).map (fun r => (head.chars ++ r.1,r.2))

/-- At the first separator: two parts, or the text as it was. -/
def splitLeading (sep : α) (s : CharData α) : List (CharData α) :=
  match cut sep s with
  | some (before,rest) => [ofChars before,rest]
  | none => [s]

variable {sep : α}

theorem splitAll_ofChars (cs : List α) :
    splitAll sep (ofChars cs) = (cs.splitOn sep).map ofChars := by
  unfold splitAll
  rw [chars_ofChars]
  by_cases h : sep ∈ cs
  · rw [if_pos h]
  · rw [if_neg h,List.splitOn_eq_singleton h,List.map_singleton]

/-- Splitting takes back joining. -/
theorem splitAll_printed {β : Type} {items : List β} (print : β → List α) (hne : items ≠ [])
    (h : ∀ item ∈ items, sep ∉ print item) :
    splitAll sep (ofChars ([sep].intercalate (items.map print))) =
      items.map (fun item => ofChars (print item)) := by
  rw [splitAll_ofChars,List.splitOn_intercalate sep (by simpa using h) (by simpa using hne),
    List.map_map]
  rfl

theorem splitAll_pair {a b : List α} (ha : sep ∉ a) (hb : sep ∉ b) :
    splitAll sep (ofChars (a ++ sep::b)) = [ofChars a,ofChars b] := by
  rw [splitAll_ofChars,List.splitOn_append_cons_self_of_not_mem ha,List.splitOn_eq_singleton hb]
  rfl

theorem splitAll_absent {s : CharData α} (h : sep ∉ s.chars) : splitAll sep s = [s] := if_neg h

/-- A nested text that has the separator comes out flat. -/
theorem splitAll_nested {s : CharData α} (h : sep ∈ s.chars) :
    splitAll sep s = splitAll sep (ofChars s.chars) := by
  rw [splitAll_ofChars]
  exact if_pos h

theorem cut_append {a b : List α} (ha : sep ∉ a) :
    cut sep (ofChars (a ++ sep::b)) = some (a,ofChars b) := by
  induction a with
  | nil => simp [cut,followedBy]
  | cons c a ih =>
    have hc : c ≠ sep := fun h => ha (h ▸ List.mem_cons_self)
    rw [List.cons_append,ofChars_cons,cut,cut,if_neg hc]
    simp only [ih (fun h => ha (List.mem_cons_of_mem _ h))]
    rfl

theorem cut_absent {s : CharData α} (h : sep ∉ s.chars) : cut sep s = none := by
  induction s with
  | char c =>
    apply if_neg
    rintro rfl
    exact h List.mem_cons_self
  | nil => rfl
  | cons head tail hhead htail =>
    rw [chars,List.mem_append,not_or] at h
    simp [cut,hhead h.1,htail h.2]

theorem splitLeading_append {a b : List α} (ha : sep ∉ a) :
    splitLeading sep (ofChars (a ++ sep::b)) = [ofChars a,ofChars b] := by
  unfold splitLeading
  rw [cut_append ha]

theorem splitLeading_absent {s : CharData α} (h : sep ∉ s.chars) : splitLeading sep s = [s] := by
  unfold splitLeading
  rw [cut_absent h]

/-- A list of one text is cut where that text is. -/
theorem splitLeading_single {a b : List α} (ha : sep ∉ a) :
    splitLeading sep (ofParts [ofChars (a ++ sep::b)]) = [ofChars a,ofChars b] := by
  unfold splitLeading
  rw [ofParts,cut,cut_append ha]
  cases b <;> rfl

end Splitting

section Joining
variable {α : Type}

theorem mem_intercalate {sep c : α} {parts : List (List α)} (h : c ∈ [sep].intercalate parts) :
    c = sep ∨ ∃ part ∈ parts, c ∈ part := by
  induction parts with
  | nil => exact absurd h List.not_mem_nil
  | cons part parts ih =>
    by_cases hparts : parts = []
    · subst hparts
      rw [List.intercalate_singleton] at h
      exact Or.inr ⟨part,List.mem_cons_self,h⟩
    · rw [List.intercalate_cons_of_ne_nil hparts,List.append_assoc,List.mem_append] at h
      rcases h with h | h
      · exact Or.inr ⟨part,List.mem_cons_self,h⟩
      · rcases List.mem_cons.mp h with h | h
        · exact Or.inl h
        · rcases ih h with h | ⟨other,hmem,hc⟩
          · exact Or.inl h
          · exact Or.inr ⟨other,List.mem_cons_of_mem _ hmem,hc⟩

end Joining

end CharData

end AspikePort
