import AspikePort.ErlangTerms
import AspikePort.TruncatingReaders

/-!
# What is left of a text in a buffer

A binary or a character list becomes a zero-terminated string in a buffer of
the source. Two texts leave the same string exactly when they agree up to the
point where both are cut: at a zero, or at the character that does not fit.
-/

set_option autoImplicit false

namespace AspikePort.KeptTexts
open AspikePort.ErlangTerms AspikePort.TruncatingReaders

section Characters

def IsCodePoint (c : ℕ) : Prop := c < 0x110000

theorem byte_eq_iff (a b : ℕ) : Fin.ofNat 256 a = Fin.ofNat 256 b ↔ a%256 = b%256 := Fin.ext_iff

theorem byte_eq_zero_iff (a : ℕ) : (0 : Byte) = Fin.ofNat 256 a ↔ a%256 = 0 := by
  rw [Fin.ext_iff]
  exact eq_comm

theorem utf8_zeroFree {c : ℕ} (hc : IsCodePoint c) (h : c ≠ 0) : 0 ∉ utf8 c := by
  unfold IsCodePoint at hc
  unfold utf8
  split_ifs <;> simp only [List.mem_cons,byte_eq_zero_iff,List.not_mem_nil,or_false] <;> omega

theorem utf8_apart {c d : ℕ} (hc : IsCodePoint c) (hd : IsCodePoint d) (h : utf8 c <+: utf8 d) :
    c = d := by
  unfold IsCodePoint at hc hd
  unfold utf8 at h
  split_ifs at h <;>
    simp only [List.cons_prefix_cons,List.prefix_nil,byte_eq_iff,List.nil_prefix,and_true,
      List.cons_ne_nil,and_false] at h <;> omega

theorem utf8_prefixFree : PrefixFree utf8 IsCodePoint where
  nonempty := by
    intro c _
    unfold utf8
    split_ifs <;> exact List.cons_ne_nil _ _
  apart := fun _ _ hc hd h => utf8_apart hc hd h

def charList (cs : List ℕ) : Term := ofList (cs.map (fun c : ℕ => .integer c))

theorem codePoints_some {t : Term} {cs : List ℕ} (h : codePoints t = some cs) :
    t = charList cs ∧ ∀ c ∈ cs, IsCodePoint c := by
  induction cs generalizing t with
  | nil =>
    cases t with
    | nil => exact ⟨rfl,fun c hc => absurd hc List.not_mem_nil⟩
    | cons head tail =>
      cases head with
      | integer i =>
        rw [codePoints] at h
        split_ifs at h
        simp at h
      | _ => cases h
    | _ => simp [codePoints] at h
  | cons c cs ih =>
    cases t with
    | cons head tail =>
      cases head with
      | integer i =>
        rw [codePoints] at h
        split_ifs at h with hi
        obtain ⟨ds,hds,heq⟩ := Option.map_eq_some_iff.mp h
        obtain ⟨rfl,rfl⟩ := List.cons.inj heq
        obtain ⟨rfl,hrange⟩ := ih hds
        constructor
        · rw [charList,charList,List.map_cons,ofList,Int.toNat_of_nonneg hi.1]
        · intro d hd
          rcases List.mem_cons.mp hd with rfl | hd
          · unfold IsCodePoint
            omega
          · exact hrange d hd
      | _ => cases h
    | _ => simp [codePoints] at h

end Characters

section Buffers

def utf8Length (cs : List ℕ) : ℕ := (cs.flatMap utf8).length

/-- A zero ends the string, and a character that does not fit is dropped with
everything behind it. -/
def Cuts (size : ℕ) (p : List ℕ) (c : ℕ) : Prop := c = 0 ∨ size ≤ utf8Length (p ++ [c])

instance (size : ℕ) (p : List ℕ) (c : ℕ) : Decidable (Cuts size p c) :=
  inferInstanceAs (Decidable (_ ∨ _))

theorem utf8Length_snoc (p : List ℕ) (c : ℕ) :
    utf8Length (p ++ [c]) = utf8Length p+(utf8 c).length := by
  unfold utf8Length
  rw [List.flatMap_append,List.length_append,List.flatMap_singleton]

theorem cStr_zeroFree_append {a b : Bytes} (h : 0 ∉ a) : cStr (a ++ b) = a ++ cStr b := by
  unfold cStr
  rw [List.takeWhile_append_of_pos]
  intro x hx
  exact decide_eq_true (fun hz => h (hz ▸ hx))

/-- With the characters of `p` in the buffer already. -/
theorem keep_cuts {size : ℕ} (p : List ℕ) {cs : List ℕ} (hcs : ∀ c ∈ cs, IsCodePoint c)
    (hp : utf8Length p < size) : (keep (Cuts size) p cs).flatMap utf8 =
      p.flatMap utf8 ++ cStr (copyWhileFits (size-1-utf8Length p) cs) := by
  induction cs generalizing p with
  | nil => exact (List.append_nil _).symm
  | cons c cs ih =>
    have hlength := utf8Length_snoc p c
    rw [keep,copyWhileFits]
    by_cases hzero : c = 0
    · subst hzero
      have hcuts : Cuts size p 0 := Or.inl rfl
      rw [if_pos hcuts]
      have hcut : ∀ rest : Bytes, cStr (utf8 0 ++ rest) = [] := fun _ => rfl
      split_ifs
      · rw [hcut,List.append_nil]
      · exact (List.append_nil _).symm
    · by_cases hfit : size ≤ utf8Length (p ++ [c])
      · have hcuts : Cuts size p c := Or.inr hfit
        rw [if_pos hcuts,if_neg (by omega)]
        exact (List.append_nil _).symm
      · have hcuts : ¬Cuts size p c := not_or.mpr ⟨hzero,hfit⟩
        rw [if_neg hcuts,if_pos (by omega),ih (p ++ [c])
          (fun d hd => hcs d (List.mem_cons_of_mem c hd)) (by omega)]
        rw [cStr_zeroFree_append (utf8_zeroFree (hcs c List.mem_cons_self) hzero)]
        rw [List.flatMap_append,List.flatMap_singleton,List.append_assoc,hlength]
        congr 4
        omega

theorem getString_some {size : ℕ} {t : Term} {text : Bytes} (h : getString size t = some text) :
    ∃ cs, codePoints t = some cs ∧ cStr text = (keep (Cuts size) [] cs).flatMap utf8 := by
  unfold getString at h
  split_ifs at h with hsize
  obtain ⟨cs,hcs,rfl⟩ := Option.map_eq_some_iff.mp h
  have hkeep := @keep_cuts size [] _ (codePoints_some hcs).2 (by unfold utf8Length; simp; omega)
  exact ⟨cs,hcs,hkeep.symm⟩

end Buffers

section Texts

/-- How an argument is read: a binary as it is, a list of characters through
`enif_get_string` and a buffer. -/
inductive Encoding where
  | binary | characters
  deriving DecidableEq, Repr

def readText : Encoding → ℕ → Term → Option Bytes
  | .binary, _, t => (inspectBinary t).map cStr
  | .characters, size, t => (getString size t).map cStr

/-- Both go on, behind the same text, with nothing or with something that is
lost. -/
def Confused : Encoding → ℕ → Term → Term → Prop
  | .binary, _, t, u => ∃ p r s, t = .binary (p ++ r) ∧ u = .binary (p ++ s) ∧ 0 ∉ p ∧
      (∀ x ∈ r.head?, x = 0) ∧ (∀ x ∈ s.head?, x = 0)
  | .characters, size, t, u => ∃ p r s, codePoints t = some (p ++ r) ∧
      codePoints u = some (p ++ s) ∧ 0 ∉ p ∧ utf8Length p < size ∧
      (∀ c ∈ r.head?, Cuts size p c) ∧ (∀ c ∈ s.head?, Cuts size p c)

theorem cStr_eq_keep (b : Bytes) : cStr b = keep (fun _ x => decide (x ≠ 0) = false) [] b := by
  rw [keep_takeWhile]
  rfl

theorem cStr_eq_iff (a b : Bytes) : cStr a = cStr b ↔ Confused .binary 0 (.binary a) (.binary b) := by
  have hstop : ∀ (p rest : Bytes), Lost (fun _ x => decide (x ≠ 0) = false) p rest ↔
      ∀ x ∈ rest.head?, x = 0 := by
    intro p rest
    unfold Lost
    simp
  rw [cStr_eq_keep,cStr_eq_keep,keep_eq_iff]
  constructor
  · rintro ⟨p,r,s,rfl,rfl,hp,hr,hs⟩
    rw [← cStr_eq_keep,cStr_eq_self] at hp
    exact ⟨p,r,s,rfl,rfl,hp,(hstop p r).mp hr,(hstop p s).mp hs⟩
  · rintro ⟨p,r,s,ha,hb,hp,hr,hs⟩
    rw [← cStr_eq_self,cStr_eq_keep] at hp
    exact ⟨p,r,s,Term.binary.inj ha,Term.binary.inj hb,hp,(hstop p r).mpr hr,(hstop p s).mpr hs⟩

theorem utf8Length_le (a b : List ℕ) : utf8Length a ≤ utf8Length (a ++ b) := by
  unfold utf8Length
  rw [List.flatMap_append,List.length_append]
  omega

/-- A text that fits is kept. -/
theorem keep_cuts_self {size : ℕ} (hsize : 0 < size) (p : List ℕ) :
    keep (Cuts size) [] p = p ↔ 0 ∉ p ∧ utf8Length p < size := by
  have hself := @keep_self_iff _ (Cuts size) _ [] p
  rw [List.nil_append] at hself
  rw [hself]
  constructor
  · intro h
    constructor
    · intro hzero
      obtain ⟨a,b,rfl⟩ := List.append_of_mem hzero
      exact h a 0 b rfl (Or.inl rfl)
    · rcases List.eq_nil_or_concat p with rfl | ⟨a,x,rfl⟩
      · exact hsize
      · have hlast := h a x [] (List.concat_eq_append)
        rw [List.concat_eq_append]
        exact Nat.lt_of_not_le (fun hfull => hlast (Or.inr hfull))
  · rintro ⟨hzero,hlength⟩ a x b rfl (rfl | hfull)
    · exact hzero (List.mem_append_right a List.mem_cons_self)
    · have hle := utf8Length_le (a ++ [x]) b
      rw [List.append_cons] at hlength
      rw [List.nil_append] at hfull
      omega

theorem readText_eq_iff {e : Encoding} {size : ℕ} {t u : Term} {a b : Bytes} (hsize : 0 < size)
    (ha : readText e size t = some a) (hb : readText e size u = some b) :
    a = b ↔ Confused e size t u := by
  cases e with
  | binary =>
    cases t with
    | binary x =>
      cases u with
      | binary y =>
        rw [← Option.some.inj ha,← Option.some.inj hb]
        exact cStr_eq_iff x y
      | _ => cases hb
    | _ => cases ha
  | characters =>
    obtain ⟨x,hx,rfl⟩ := Option.map_eq_some_iff.mp ha
    obtain ⟨y,hy,rfl⟩ := Option.map_eq_some_iff.mp hb
    obtain ⟨cs,hcs,hkeepx⟩ := getString_some hx
    obtain ⟨ds,hds,hkeepy⟩ := getString_some hy
    have hinjective : (keep (Cuts size) [] cs).flatMap utf8 = (keep (Cuts size) [] ds).flatMap utf8 ↔
        keep (Cuts size) [] cs = keep (Cuts size) [] ds := by
      constructor
      · apply utf8_prefixFree.flatMap_injective
        · exact fun c hc => (codePoints_some hcs).2 c (keep_mem hc)
        · exact fun c hc => (codePoints_some hds).2 c (keep_mem hc)
      · exact fun h => congrArg _ h
    rw [hkeepx,hkeepy,hinjective,keep_eq_iff]
    constructor
    · rintro ⟨p,r,s,rfl,rfl,hp,hr,hs⟩
      obtain ⟨hzero,hlength⟩ := (keep_cuts_self hsize p).mp hp
      exact ⟨p,r,s,hcs,hds,hzero,hlength,hr,hs⟩
    · rintro ⟨p,r,s,hps,hpr,hzero,hlength,hr,hs⟩
      have hp := (keep_cuts_self hsize p).mpr ⟨hzero,hlength⟩
      exact ⟨p,r,s,Option.some.inj (hcs.symm.trans hps),Option.some.inj (hds.symm.trans hpr),
        hp,hr,hs⟩

end Texts

end AspikePort.KeptTexts
