import Mathlib.Data.Nat.Digits.Lemmas
import AspikePort.ExternalTerms

/-!
# Writing and reading terms through ei

The `ei_x_encode_*` functions append heads to a buffer and the `ei_decode_*`
functions read them; which head a number, a text or an empty list gets is
documented behaviour of the library, and of `term_to_binary` at the other end.
-/

set_option autoImplicit false

namespace AspikePort.EiBuffers
open AspikePort.ErlangTerms AspikePort.KeptTexts AspikePort.ExternalTerms

section Encoders

/-- A number of more than 28 bits is written as a bignum. -/
def eiXEncodeLong (i : ℤ) : List Tok :=
  if 0 ≤ i ∧ i < 256 then [.smallInteger (Fin.ofNat 256 i.toNat)]
  else if -2^27 ≤ i ∧ i < 2^27 then [.integer i]
  else [.big (decide (i < 0)) ((Nat.digits 256 i.natAbs).map (Fin.ofNat 256))]

def eiXEncodeAtom (name : String) : List Tok := [.atom name]
def eiXEncodeBinary (data : Bytes) : List Tok := [.binary data]
def eiXEncodeTupleHeader (arity : ℕ) : List Tok := [.tuple arity]
def eiXEncodeMapHeader (arity : ℕ) : List Tok := [.map arity]
def eiXEncodeEmptyList : List Tok := [.nil]

def eiXEncodeListHeader (length : ℕ) : List Tok :=
  if length = 0 then eiXEncodeEmptyList else [.list length]

def eiXEncodeString (chars : Bytes) : List Tok :=
  if chars = [] then eiXEncodeEmptyList
  else if chars.length ≤ 65535 then [.string chars]
  else .list chars.length::(chars.map Tok.smallInteger ++ [.nil])

def eiXEncodeBoolean (flag : Bool) : List Tok := eiXEncodeAtom (if flag then "true" else "false")

theorem ofDigits_bytes (n : ℕ) :
    Nat.ofDigits 256 (((Nat.digits 256 n).map (Fin.ofNat 256)).map Fin.val) = n := by
  have hsame : ((Nat.digits 256 n).map (Fin.ofNat 256)).map Fin.val = Nat.digits 256 n := by
    rw [List.map_map]
    rw [List.map_congr_left (g := id)]
    · exact List.map_id _
    · intro d hd
      show d % 256 = d
      exact Nat.mod_eq_of_lt (Nat.digits_lt_base (by decide) hd)
  rw [hsame,Nat.ofDigits_digits]

theorem sign_natAbs (i : ℤ) : (if decide (i < 0) then -(i.natAbs:ℤ) else i.natAbs) = i := by
  by_cases hneg : i < 0
  · rw [if_pos (decide_eq_true hneg)]
    omega
  · rw [if_neg (by simpa using hneg)]
    omega

theorem writes_big (i : ℤ) : Writes
    [.big (decide (i < 0)) ((Nat.digits 256 i.natAbs).map (Fin.ofNat 256))] [.integer i] := by
  apply writes_leaf
  intro st
  simp only [Tok.value,ofDigits_bytes,sign_natAbs]

theorem writes_small {i : ℤ} (h : 0 ≤ i ∧ i < 256) :
    Writes [.smallInteger (Fin.ofNat 256 i.toNat)] [.integer i] := by
  apply writes_leaf
  intro st
  have hval : ((i.toNat % 256 : ℕ) : ℤ) = i := by omega
  show some (Term.integer ((i.toNat % 256 : ℕ) : ℤ)::st) = _
  rw [hval]

theorem writes_long (i : ℤ) : Writes (eiXEncodeLong i) [.integer i] := by
  unfold eiXEncodeLong
  split_ifs with hsmall hmiddle
  · exact writes_small hsmall
  · exact writes_leaf (fun _ => rfl)
  · exact writes_big i

theorem writes_atom (name : String) : Writes (eiXEncodeAtom name) [.atom name] :=
  writes_leaf (fun _ => rfl)

theorem writes_binary (data : Bytes) : Writes (eiXEncodeBinary data) [.binary data] :=
  writes_leaf (fun _ => rfl)

theorem writes_emptyList : Writes eiXEncodeEmptyList [.nil] := writes_leaf (fun _ => rfl)

theorem writes_flatMap {α : Type} {f : α → List Tok} {g : α → Term}
    (h : ∀ x, Writes (f x) [g x]) (xs : List α) : Writes (xs.flatMap f) (xs.map g) := by
  induction xs with
  | nil => exact writes_nil
  | cons x xs ih =>
    rw [List.flatMap_cons]
    exact (h x).append ih

theorem writes_string (chars : Bytes) : Writes (eiXEncodeString chars) [charList (chars.map Fin.val)] := by
  unfold eiXEncodeString
  split_ifs with hempty hshort
  · subst hempty
    exact writes_emptyList
  · exact writes_leaf (fun _ => rfl)
  · have hsmall : ∀ ch : Byte, Writes [.smallInteger ch] [.integer ch.val] :=
      fun ch => writes_leaf (fun _ => rfl)
    have hchars := writes_flatMap hsmall chars
    rw [← List.map_eq_flatMap] at hchars
    have hlist := hchars.list
    rw [List.length_map] at hlist
    rw [charList,List.map_map]
    exact hlist

/-- A list header that is followed by as many terms as it says, and the empty list. -/
theorem writes_listed {toks : List Tok} {ts : List Term} (h : Writes toks ts) (hts : ts ≠ []) :
    Writes (eiXEncodeListHeader ts.length ++ toks ++ eiXEncodeEmptyList) [ofList ts] := by
  have hlength : ts.length ≠ 0 := fun hz => hts (List.eq_nil_of_length_eq_zero hz)
  rw [eiXEncodeListHeader,if_neg hlength]
  exact h.list

theorem digits_short {n : ℕ} (h : n < 2^64) : (Nat.digits 256 n).length ≤ 8 := by
  apply (Nat.digits_length_le_iff (by decide) n).mpr
  have hpow : 256^8 = 2^64 := by norm_num
  rwa [hpow]

theorem valid_long {i : ℤ} (h : i.natAbs < 2^64) : AllValid (eiXEncodeLong i) := by
  unfold eiXEncodeLong
  split_ifs with hsmall hmiddle
  · exact allValid_one trivial
  · apply allValid_one
    show -2^31 ≤ i ∧ i < 2^31
    omega
  · apply allValid_one
    show ((Nat.digits 256 i.natAbs).map (Fin.ofNat 256)).length < 2^32
    have hshort := digits_short h
    rw [List.length_map]
    omega

theorem valid_listHeader {n : ℕ} (h : n < 2^32) : AllValid (eiXEncodeListHeader n) := by
  unfold eiXEncodeListHeader
  split_ifs with hn
  · exact allValid_one trivial
  · exact allValid_one h

theorem valid_string {chars : Bytes} (h : chars.length < 2^32) :
    AllValid (eiXEncodeString chars) := by
  unfold eiXEncodeString
  split_ifs with hempty hshort
  · exact allValid_one trivial
  · apply allValid_one
    show chars.length < 2^16
    omega
  · have hchars : AllValid (chars.map Tok.smallInteger) := by
      intro tok htok
      obtain ⟨ch,-,rfl⟩ := List.mem_map.mp htok
      trivial
    have hhead : AllValid [.list chars.length] := allValid_one h
    exact hhead.append (hchars.append (allValid_one trivial))

end Encoders

section Decoders

inductive ErlType where
  | smallInteger | integer | big | float | atom | tuple | nil | string | list | binary | map | other
  deriving DecidableEq, Repr

/-- The narrow and the wide heads of one kind are reported alike. -/
def typeOf : Tok → ErlType
  | .smallInteger _ => .smallInteger
  | .integer _ => .integer
  | .big _ _ => .big
  | .float _ => .float
  | .atom _ => .atom
  | .tuple _ => .tuple
  | .nil => .nil
  | .string _ => .string
  | .list _ => .list
  | .binary _ => .binary
  | .map _ => .map
  | .other _ _ _ => .other

def sizeOf : Tok → ℕ
  | .big _ digits => digits.length
  | .atom name => (textBytes name).length
  | .tuple arity => arity
  | .string chars => chars.length
  | .list length => length
  | .binary data => data.length
  | .map arity => arity
  | _ => 0

/-- Looks at the next head and never fails. -/
def eiGetType : List Tok → ErlType × ℕ
  | tok::_ => (typeOf tok,sizeOf tok)
  | [] => (.other,0)

def eiDecodeBinary : List Tok → Option (Bytes × List Tok)
  | .binary data::rest => some (data,rest)
  | _ => none

def eiDecodeTupleHeader : List Tok → Option (ℕ × List Tok)
  | .tuple arity::rest => some (arity,rest)
  | _ => none

/-- The empty list, and the end of a list, has a header of its own. -/
def eiDecodeListHeader : List Tok → Option (ℕ × List Tok)
  | .list length::rest => some (length,rest)
  | .nil::rest => some (0,rest)
  | _ => none

def longOf : Tok → Option ℤ
  | .smallInteger value => some value.val
  | .integer value => some value
  | .big negative digits =>
    let n : ℕ := Nat.ofDigits 256 (digits.map Fin.val)
    let i : ℤ := if negative then -n else n
    if -2^63 ≤ i ∧ i < 2^63 then some i else none
  | _ => none

def eiDecodeLong : List Tok → Option (ℤ × List Tok)
  | tok::rest => (longOf tok).map (fun i => (i,rest))
  | [] => none

def isLatin1 (ch : Char) : Bool := ch.toNat < 256

/-- The number of bytes that are stored, and what is read: Latin-1, 255 characters at
most. An atom that turns out to have another character has been stored up to it. -/
def latin1Atom (name : String) : ℕ × Option Bytes :=
  let stored := (name.toList.takeWhile isLatin1).length
  if stored = name.toList.length ∧ stored < 256 then
    (stored+1,some (name.toList.map (fun ch => Fin.ofNat 256 ch.toNat)))
  else (min stored 255,none)

/-- An atom may stand under an older tag. -/
def eiDecodeAtom : List Tok → ℕ × Option (Bytes × List Tok)
  | .atom name::rest => ((latin1Atom name).1,(latin1Atom name).2.map (fun chars => (chars,rest)))
  | .other _ _ (.atom name)::rest =>
    ((latin1Atom name).1,(latin1Atom name).2.map (fun chars => (chars,rest)))
  | _ => (0,none)

/-- At most `n` characters written one by one. -/
def charRun : ℕ → List Tok → Bytes × List Tok
  | n+1, .smallInteger ch::toks => (ch::(charRun n toks).1,(charRun n toks).2)
  | _, toks => ([],toks)

/-- The number of bytes that are stored, and what is read. A list that turns out
not to be a text has been stored up to that point. -/
def eiDecodeString : List Tok → ℕ × Option (Bytes × List Tok)
  | .string chars::rest => (chars.length+1,some (chars,rest))
  | .nil::rest => (1,some ([],rest))
  | .list n::toks =>
    let (chars,after) := charRun n toks
    if chars.length = n then
      match after with
      | .nil::rest => (n+1,some (chars,rest))
      | _ => (n+1,none)
    else (chars.length,none)
  | _ => (0,none)

theorem decodeBinary_iff {toks rest : List Tok} {data : Bytes} :
    eiDecodeBinary toks = some (data,rest) ↔ toks = .binary data::rest := by
  cases toks with
  | nil => simp [eiDecodeBinary]
  | cons tok toks => cases tok <;> simp [eiDecodeBinary]

theorem decodeTupleHeader_iff {toks rest : List Tok} {arity : ℕ} :
    eiDecodeTupleHeader toks = some (arity,rest) ↔ toks = .tuple arity::rest := by
  cases toks with
  | nil => simp [eiDecodeTupleHeader]
  | cons tok toks => cases tok <;> simp [eiDecodeTupleHeader]

theorem getType_binary_iff {toks : List Tok} :
    (eiGetType toks).1 = .binary ↔ ∃ data rest, toks = .binary data::rest := by
  cases toks with
  | nil => simp [eiGetType]
  | cons tok toks => cases tok <;> simp [eiGetType,typeOf]

theorem getType_list_iff {toks : List Tok} :
    (eiGetType toks).1 = .list ↔ ∃ length rest, toks = .list length::rest := by
  cases toks with
  | nil => simp [eiGetType]
  | cons tok toks => cases tok <;> simp [eiGetType,typeOf]

theorem getType_string_iff {toks : List Tok} :
    (eiGetType toks).1 = .string ↔ ∃ chars rest, toks = .string chars::rest := by
  cases toks with
  | nil => simp [eiGetType]
  | cons tok toks => cases tok <;> simp [eiGetType,typeOf]

end Decoders

section TermToBinary

/-- `term_to_binary` takes the wide head for every integer of 32 bits. -/
def integerToks (i : ℤ) : List Tok :=
  if 0 ≤ i ∧ i < 256 then [.smallInteger (Fin.ofNat 256 i.toNat)]
  else if -2^31 ≤ i ∧ i < 2^31 then [.integer i]
  else [.big (decide (i < 0)) ((Nat.digits 256 i.natAbs).map (Fin.ofNat 256))]

/-- Written as a text: a list that could be one. -/
def StringCoded (is : List ℤ) : Prop := is.length ≤ 65535 ∧ ∀ i ∈ is, 0 ≤ i ∧ i < 256

instance (is : List ℤ) : Decidable (StringCoded is) := inferInstanceAs (Decidable (_ ∧ _))

def integersToks (is : List ℤ) : List Tok :=
  if is = [] then [.nil]
  else if StringCoded is then [.string (is.map (fun i => Fin.ofNat 256 i.toNat))]
  else .list is.length::(is.flatMap integerToks ++ [.nil])

theorem writes_integer (i : ℤ) : Writes (integerToks i) [.integer i] := by
  unfold integerToks
  split_ifs with hsmall hmiddle
  · exact writes_small hsmall
  · exact writes_leaf (fun _ => rfl)
  · exact writes_big i

theorem writes_integers (is : List ℤ) : Writes (integersToks is) [ofList (is.map .integer)] := by
  unfold integersToks
  split_ifs with hempty hcoded
  · subst hempty
    exact writes_emptyList
  · apply writes_leaf
    intro st
    have hchars : (is.map (fun i => Fin.ofNat 256 i.toNat)).map Fin.val = is.map Int.toNat := by
      rw [List.map_map]
      apply List.map_congr_left
      intro i hi
      have hrange := hcoded.2 i hi
      show i.toNat % 256 = i.toNat
      omega
    have hints : (is.map Int.toNat).map (fun n : ℕ => Term.integer n) = is.map .integer := by
      rw [List.map_map]
      apply List.map_congr_left
      intro i hi
      have hrange := hcoded.2 i hi
      show Term.integer (i.toNat:ℤ) = Term.integer i
      rw [Int.toNat_of_nonneg hrange.1]
    show some (charList ((is.map (fun i => Fin.ofNat 256 i.toNat)).map Fin.val)::st) = _
    rw [hchars,charList,hints]
  · have hlist := (writes_flatMap writes_integer is).list
    rwa [List.length_map] at hlist

theorem decodeLong_integer {i : ℤ} (h : -2^63 ≤ i ∧ i < 2^63) (rest : List Tok) :
    eiDecodeLong (integerToks i ++ rest) = some (i,rest) := by
  unfold integerToks
  split_ifs with hsmall hmiddle
  · have hval : ((i.toNat % 256 : ℕ) : ℤ) = i := by omega
    show some (((i.toNat % 256 : ℕ) : ℤ),rest) = _
    rw [hval]
  · rfl
  · simp only [List.singleton_append,eiDecodeLong,longOf,ofDigits_bytes,sign_natAbs,if_pos h,
      Option.map_some]

end TermToBinary

end AspikePort.EiBuffers
