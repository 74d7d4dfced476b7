import Mathlib.Data.Nat.Digits.Defs
import AspikePort.KeptTexts

/-!
# The external format of terms

A term is written head first: the head of a tuple, of a list or of a map
announces how many terms follow it, and nothing marks where they end. So a row
of heads is read from its end, on a stack of the terms that stand behind: a
leaf is put on the stack and a head takes from it what it announces.
-/

set_option autoImplicit false

namespace AspikePort.ExternalTerms
open AspikePort.ErlangTerms AspikePort.TruncatingReaders AspikePort.KeptTexts

section Numerals

/-- The `k` low bytes of a number, high byte first. -/
def be : ℕ → ℕ → Bytes
  | 0, _ => []
  | k+1, n => be k (n/256) ++ [Fin.ofNat 256 n]

@[simp] theorem be_length (k n : ℕ) : (be k n).length = k := by
  induction k generalizing n with
  | zero => rfl
  | succ k ih => rw [be,List.length_append,ih,List.length_singleton]

theorem be_inj {k n m : ℕ} (hn : n < 256^k) (hm : m < 256^k) (h : be k n = be k m) : n = m := by
  induction k generalizing n m with
  | zero => omega
  | succ k ih =>
    have hparts := List.append_inj' h rfl
    have hlow : n % 256 = m % 256 := congrArg Fin.val (List.cons.inj hparts.2).1
    have hhigh : n/256 = m/256 := by
      apply ih _ _ hparts.1
      · rw [Nat.div_lt_iff_lt_mul (by omega)]
        rwa [pow_succ] at hn
      · rw [Nat.div_lt_iff_lt_mul (by omega)]
        rwa [pow_succ] at hm
    omega

def sized (k : ℕ) (data : Bytes) : Bytes := be k data.length ++ data

theorem be_append_apart {k n m : ℕ} {x y : Bytes} (hn : n < 256^k) (hm : m < 256^k)
    (h : be k n ++ x <+: be k m ++ y) : n = m ∧ x <+: y := by
  obtain ⟨s,hs⟩ := h
  rw [List.append_assoc] at hs
  have hparts := List.append_inj hs (by rw [be_length,be_length])
  exact ⟨be_inj hn hm hparts.1,⟨s,hparts.2⟩⟩

theorem be_apart {k n m : ℕ} (hn : n < 256^k) (hm : m < 256^k) (h : be k n <+: be k m) :
    n = m := by
  have hlength : (be k n).length = (be k m).length := by rw [be_length,be_length]
  exact be_inj hn hm (h.eq_of_length hlength)

theorem sized_apart {k : ℕ} {x y : Bytes} (hx : x.length < 256^k) (hy : y.length < 256^k)
    (h : sized k x <+: sized k y) : x = y := by
  obtain ⟨hlength,hsub⟩ := be_append_apart hx hy h
  exact hsub.eq_of_length hlength

/-- A number of 32 bits in two's complement. -/
def be32 (i : ℤ) : Bytes := be 4 (i % 2^32).toNat

theorem be32_apart {i j : ℤ} (hi : -2^31 ≤ i ∧ i < 2^31) (hj : -2^31 ≤ j ∧ j < 2^31)
    (h : be32 i <+: be32 j) : i = j := by
  have heq := be_apart (by omega) (by omega) h
  omega

end Numerals

section Heads

/-- A head with what belongs to it alone. A pid, a reference or a function is
not looked into, so the term it stands for is given with it. -/
inductive Tok where
  | smallInteger (value : Byte)
  | integer (value : ℤ)
  | big (negative : Bool) (digits : Bytes)
  | float (bits : ℕ)
  | atom (name : String)
  | tuple (arity : ℕ)
  | nil
  | string (chars : Bytes)
  | list (length : ℕ)
  | binary (data : Bytes)
  | map (arity : ℕ)
  | other (tag : Byte) (body : Bytes) (term : Term)

def Tok.tag : Tok → Byte
  | .smallInteger _ => 97
  | .integer _ => 98
  | .big _ digits => if digits.length < 256 then 110 else 111
  | .float _ => 70
  | .atom name => if (textBytes name).length < 256 then 119 else 118
  | .tuple arity => if arity < 256 then 104 else 105
  | .nil => 106
  | .string _ => 107
  | .list _ => 108
  | .binary _ => 109
  | .map _ => 116
  | .other tag _ _ => tag

def Tok.body : Tok → Bytes
  | .smallInteger value => [value]
  | .integer value => be32 value
  | .big negative digits =>
    be (if digits.length < 256 then 1 else 4) digits.length ++ (if negative then 1 else 0) :: digits
  | .float bits => be 8 bits
  | .atom name => sized (if (textBytes name).length < 256 then 1 else 2) (textBytes name)
  | .tuple arity => be (if arity < 256 then 1 else 4) arity
  | .nil => []
  | .string chars => sized 2 chars
  | .list length => be 4 length
  | .binary data => sized 4 data
  | .map arity => be 4 arity
  | .other _ body _ => body

def Tok.bytes (tok : Tok) : Bytes := tok.tag :: tok.body

/-- Every size fits the field it is written to. -/
def Tok.Valid : Tok → Prop
  | .integer value => -2^31 ≤ value ∧ value < 2^31
  | .big _ digits => digits.length < 2^32
  | .float bits => bits < 2^64
  | .atom name => (textBytes name).length < 2^16
  | .tuple arity => arity < 2^32
  | .string chars => chars.length < 2^16
  | .list length => length < 2^32
  | .binary data => data.length < 2^32
  | .map arity => arity < 2^32
  | .other _ _ _ => False
  | _ => True

def AllValid (toks : List Tok) : Prop := ∀ tok ∈ toks, tok.Valid

theorem allValid_nil : AllValid [] := fun _ h => absurd h List.not_mem_nil

theorem allValid_one {tok : Tok} (h : tok.Valid) : AllValid [tok] := by
  intro tok' htok
  rwa [List.mem_singleton.mp htok]

theorem AllValid.append {xs ys : List Tok} (hx : AllValid xs) (hy : AllValid ys) :
    AllValid (xs ++ ys) := by
  intro tok htok
  rcases List.mem_append.mp htok with h | h
  · exact hx tok h
  · exact hy tok h

theorem allValid_flatMap {α : Type} {f : α → List Tok} {xs : List α}
    (h : ∀ x ∈ xs, AllValid (f x)) : AllValid (xs.flatMap f) := by
  intro tok htok
  obtain ⟨x,hx,hmem⟩ := List.mem_flatMap.mp htok
  exact h x hx tok hmem

theorem isCodePoint_toNat (c : Char) : IsCodePoint c.toNat := by
  have hvalid := c.valid
  unfold UInt32.isValidChar Nat.isValidChar at hvalid
  show c.val.toNat < 0x110000
  omega

theorem textBytes_injective : Function.Injective textBytes := by
  intro s t h
  have hsub : PrefixFree (fun c : Char => utf8 c.toNat) (fun _ => True) :=
    ⟨fun c _ => utf8_prefixFree.nonempty c.toNat (isCodePoint_toNat c),fun c d _ _ hcd =>
      Char.toNat_inj.mp (utf8_apart (isCodePoint_toNat c) (isCodePoint_toNat d) hcd)⟩
  have hlists := hsub.flatMap_injective (fun _ _ => trivial) (fun _ _ => trivial) h
  exact String.toList_inj.mp hlists

/-- Which of two tags says how wide the size is. -/
theorem side_of_tags {n m : ℕ} {x y : Byte} (hxy : x ≠ y)
    (h : (if n < 256 then x else y) = if m < 256 then x else y) : n < 256 ↔ m < 256 := by
  by_cases hn : n < 256
  · rw [if_pos hn] at h
    by_cases hm : m < 256
    · exact iff_of_true hn hm
    · rw [if_neg hm] at h
      exact absurd h hxy
  · rw [if_neg hn] at h
    by_cases hm : m < 256
    · rw [if_pos hm] at h
      exact absurd h.symm hxy
    · exact iff_of_false hn hm

/-- The width of a size is the same on both sides, and both sizes fit it. -/
theorem width_fits {n m w : ℕ} (hn : n < 256^w) (hm : m < 256^w) (hside : n < 256 ↔ m < 256) :
    ∃ k, (if n < 256 then 1 else w) = k ∧ (if m < 256 then 1 else w) = k ∧ n < 256^k ∧
      m < 256^k := by
  by_cases hsmall : n < 256
  · have hsmall' := hside.mp hsmall
    exact ⟨1,if_pos hsmall,if_pos hsmall',by omega,by omega⟩
  · exact ⟨w,if_neg hsmall,if_neg (fun h => hsmall (hside.mpr h)),hn,hm⟩

/-- The narrow and the wide heads of one kind share a number. -/
def Tok.kind : Tok → ℕ
  | .smallInteger _ => 97
  | .integer _ => 98
  | .big _ _ => 110
  | .float _ => 70
  | .atom _ => 119
  | .tuple _ => 104
  | .nil => 106
  | .string _ => 107
  | .list _ => 108
  | .binary _ => 109
  | .map _ => 116
  | .other _ _ _ => 0

def kindOfTag (tag : Byte) : ℕ :=
  if tag = 111 then 110 else if tag = 118 then 119 else if tag = 105 then 104 else tag.val

theorem kindOfTag_tag {tok : Tok} (h : tok.Valid) : kindOfTag tok.tag = tok.kind := by
  cases tok with
  | big negative digits => by_cases hw : digits.length < 256 <;> simp only [Tok.tag,hw] <;> rfl
  | atom name => by_cases hw : (textBytes name).length < 256 <;> simp only [Tok.tag,hw] <;> rfl
  | tuple arity => by_cases hw : arity < 256 <;> simp only [Tok.tag,hw] <;> rfl
  | other => cases h
  | _ => rfl

theorem body_apart {a b : Tok} (ha : a.Valid) (hb : b.Valid) (htag : a.tag = b.tag)
    (h : a.body <+: b.body) : a = b := by
  have hkind : a.kind = b.kind := by rw [← kindOfTag_tag ha,htag,kindOfTag_tag hb]
  cases a with
  | smallInteger value =>
    cases b with
    | smallInteger value' => rw [(List.cons_prefix_cons.mp h).1]
    | _ => cases hkind
  | integer value =>
    cases b with
    | integer value' => rw [be32_apart ha hb h]
    | _ => cases hkind
  | big negative digits =>
    cases b with
    | big negative' digits' =>
      obtain ⟨k,hk,hk',hn,hm⟩ := width_fits (w := 4) ha hb (side_of_tags (by decide) htag)
      rw [Tok.body,Tok.body,hk,hk'] at h
      obtain ⟨hlength,hrest⟩ := be_append_apart hn hm h
      obtain ⟨hsign,hdigits⟩ := List.cons_prefix_cons.mp hrest
      rw [hdigits.eq_of_length hlength]
      cases negative <;> cases negative' <;> first | rfl | cases hsign
    | _ => cases hkind
  | float bits =>
    cases b with
    | float bits' => rw [be_apart (k := 8) ha hb h]
    | _ => cases hkind
  | atom name =>
    cases b with
    | atom name' =>
      obtain ⟨k,hk,hk',hn,hm⟩ := width_fits (w := 2) ha hb (side_of_tags (by decide) htag)
      rw [Tok.body,Tok.body,hk,hk'] at h
      rw [textBytes_injective (sized_apart hn hm h)]
    | _ => cases hkind
  | tuple arity =>
    cases b with
    | tuple arity' =>
      obtain ⟨k,hk,hk',hn,hm⟩ := width_fits (w := 4) ha hb (side_of_tags (by decide) htag)
      rw [Tok.body,Tok.body,hk,hk'] at h
      rw [be_apart hn hm h]
    | _ => cases hkind
  | nil =>
    cases b with
    | nil => rfl
    | _ => cases hkind
  | string chars =>
    cases b with
    | string chars' => rw [sized_apart (k := 2) ha hb h]
    | _ => cases hkind
  | list length =>
    cases b with
    | list length' => rw [be_apart (k := 4) ha hb h]
    | _ => cases hkind
  | binary data =>
    cases b with
    | binary data' => rw [sized_apart (k := 4) ha hb h]
    | _ => cases hkind
  | map arity =>
    cases b with
    | map arity' => rw [be_apart (k := 4) ha hb h]
    | _ => cases hkind
  | other => cases ha

theorem bytes_prefixFree : PrefixFree Tok.bytes Tok.Valid where
  nonempty := fun _ _ => List.cons_ne_nil _ _
  apart := by
    intro a b ha hb h
    obtain ⟨htag,hbody⟩ := List.cons_prefix_cons.mp h
    exact body_apart ha hb htag hbody

end Heads

section Terms

def ofListTail (elements : List Term) (tail : Term) : Term := elements.foldr .cons tail

theorem ofListTail_nil (elements : List Term) : ofListTail elements .nil = ofList elements := by
  induction elements with
  | nil => rfl
  | cons t ts ih => exact congrArg (Term.cons t) ih

def pairUp : List Term → List (Term × Term)
  | k::v::rest => (k,v)::pairUp rest
  | _ => []

/-- What a head makes of the terms that stand behind it. -/
def Tok.value : Tok → List Term → Option (List Term)
  | .smallInteger value, st => some (.integer value.val::st)
  | .integer value, st => some (.integer value::st)
  | .big negative digits, st =>
    let n : ℕ := Nat.ofDigits 256 (digits.map Fin.val)
    some (.integer (if negative then -(n:ℤ) else n)::st)
  | .float bits, st => some (.float bits::st)
  | .atom name, st => some (.atom name::st)
  | .tuple arity, st =>
    if arity ≤ st.length then some (.tuple (st.take arity)::st.drop arity) else none
  | .nil, st => some (.nil::st)
  | .string chars, st => some (charList (chars.map Fin.val)::st)
  | .list length, st =>
    (st.drop length).head?.map
      (fun tail => ofListTail (st.take length) tail::st.drop (length+1))
  | .binary data, st => some (.binary data::st)
  | .map arity, st =>
    if 2*arity ≤ st.length then some (.map (pairUp (st.take (2*arity)))::st.drop (2*arity)) else none
  | .other _ _ term, st => some (term::st)

/-- The terms that a row of heads stands for. -/
def terms : List Tok → Option (List Term)
  | [] => some []
  | tok::toks => (terms toks).bind tok.value

/-- The heads stand for these terms whatever follows them. -/
def Writes (toks : List Tok) (ts : List Term) : Prop :=
  ∀ rest, terms (toks ++ rest) = (terms rest).map (ts ++ ·)

theorem writes_nil : Writes [] [] := by
  intro rest
  exact (congrFun Option.map_id (terms rest)).symm

theorem Writes.append {xs ys : List Tok} {ts us : List Term} (hx : Writes xs ts)
    (hy : Writes ys us) : Writes (xs ++ ys) (ts ++ us) := by
  intro rest
  rw [List.append_assoc,hx,hy,Option.map_map]
  congr 1
  ext vs : 1
  exact (List.append_assoc ts us vs).symm

theorem writes_leaf {tok : Tok} {t : Term} (h : ∀ st, tok.value st = some (t::st)) :
    Writes [tok] [t] := by
  intro rest
  show (terms rest).bind tok.value = _
  cases terms rest with
  | none => rfl
  | some st => exact h st

theorem Writes.tuple {toks : List Tok} {ts : List Term} (h : Writes toks ts) :
    Writes (.tuple ts.length::toks) [.tuple ts] := by
  intro rest
  show (terms (toks ++ rest)).bind (Tok.tuple ts.length).value = _
  rw [h]
  cases terms rest with
  | none => rfl
  | some st =>
    show (Tok.tuple ts.length).value (ts ++ st) = _
    simp [Tok.value]

theorem Writes.list {toks : List Tok} {ts : List Term} (h : Writes toks ts) :
    Writes (.list ts.length::(toks ++ [.nil])) [ofList ts] := by
  have hnil : Writes [.nil] [.nil] := writes_leaf (fun st => rfl)
  intro rest
  show (terms (toks ++ [.nil] ++ rest)).bind (Tok.list ts.length).value = _
  rw [h.append hnil]
  cases terms rest with
  | none => rfl
  | some st =>
    show (Tok.list ts.length).value (ts ++ [.nil] ++ st) = _
    simp [Tok.value,ofListTail_nil,List.append_assoc]

theorem Writes.inv {toks rest : List Tok} {ts us : List Term} (h : Writes toks ts)
    (hterms : terms (toks ++ rest) = some us) :
    ∃ vs, us = ts ++ vs ∧ terms rest = some vs := by
  rw [h] at hterms
  obtain ⟨vs,hvs,heq⟩ := Option.map_eq_some_iff.mp hterms
  exact ⟨vs,heq.symm,hvs⟩

theorem Writes.all {toks : List Tok} {ts : List Term} (h : Writes toks ts) :
    terms toks = some ts := by
  have hall := h []
  rw [List.append_nil] at hall
  rw [hall]
  exact congrArg some (List.append_nil ts)

theorem Writes.head {toks rest : List Tok} {t u : Term} {us : List Term} (h : Writes toks [t])
    (hterms : terms (toks ++ rest) = some (u::us)) : u = t ∧ terms rest = some us := by
  obtain ⟨vs,heq,hvs⟩ := h.inv hterms
  obtain ⟨hu,hus⟩ := List.cons.inj heq
  exact ⟨hu,hus ▸ hvs⟩

theorem terms_tuple_inv {n : ℕ} {rest : List Tok} {us : List Term}
    (h : terms (.tuple n::rest) = some us) :
    ∃ ts vs, us = .tuple ts::vs ∧ ts.length = n ∧ terms rest = some (ts ++ vs) := by
  obtain ⟨st,hst,hvalue⟩ := Option.bind_eq_some_iff.mp h
  rw [Tok.value] at hvalue
  split_ifs at hvalue with hn
  refine ⟨st.take n,st.drop n,(Option.some.inj hvalue).symm,List.length_take_of_le hn,?_⟩
  rw [List.take_append_drop,hst]

theorem terms_list_inv {n : ℕ} {rest : List Tok} {us : List Term}
    (h : terms (.list n::rest) = some us) : ∃ ts tail vs, us = ofListTail ts tail::vs ∧
      ts.length = n ∧ terms rest = some (ts ++ tail::vs) := by
  obtain ⟨st,hst,hvalue⟩ := Option.bind_eq_some_iff.mp h
  obtain ⟨tail,htail,heq⟩ := Option.map_eq_some_iff.mp hvalue
  cases hdrop : st.drop n with
  | nil =>
    rw [hdrop] at htail
    cases htail
  | cons u us' =>
    rw [hdrop] at htail
    cases htail
    have hlength : n < st.length := by
      by_contra hc
      rw [List.drop_eq_nil_of_le (by omega)] at hdrop
      cases hdrop
    have hrest : st.drop (n+1) = us' := by rw [← List.drop_drop,hdrop,List.drop_one,List.tail_cons]
    refine ⟨st.take n,tail,st.drop (n+1),heq.symm,List.length_take_of_le hlength.le,?_⟩
    rw [hrest,← hdrop,List.take_append_drop,hst]

end Terms

section Binaries

/-- What `binary_to_term` makes of bytes that hold one term and nothing else. -/
def BinaryToTerm (b : Bytes) (t : Term) : Prop :=
  ∃ toks, AllValid toks ∧ b = 131::toks.flatMap Tok.bytes ∧ terms toks = some [t]

theorem binaryToTerm_iff {toks : List Tok} (hvalid : AllValid toks) (t : Term) :
    BinaryToTerm (131::toks.flatMap Tok.bytes) t ↔ terms toks = some [t] := by
  constructor
  · rintro ⟨toks',hvalid',hbytes,hterms⟩
    rwa [bytes_prefixFree.flatMap_injective hvalid hvalid' (List.cons.inj hbytes).2]
  · exact fun hterms => ⟨toks,hvalid,rfl,hterms⟩

end Binaries

end AspikePort.ExternalTerms
