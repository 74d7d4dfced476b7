import AspikePort.CharData
import Mathlib.Algebra.Ring.Int.Defs
import Mathlib.Data.Finmap

/-!
# The renderer of info replies

The functions of `as_render` on the texts of a node or a host. A pattern that
does not match ends a function with an exception, which is `none` here. Texts
are printable ASCII, where a grapheme cluster is one character; `toFloat` is
`string:to_float`, which gives a float by its bits and the text behind it.
-/

set_option autoImplicit false

namespace AspikePort.InfoRender
open AspikePort.CharData

abbrev Chars := List Char
abbrev Data := CharData Char

def text (s : String) : Data := ofChars s.toList

section Values
variable (toFloat : Chars → Option (ℕ × Chars))

inductive InfoValue where
  | atom (name : String)
  | integer (value : ℤ)
  | float (bits : ℕ)
  | data (d : Data)
  deriving DecidableEq

def unsignedInteger (cs : Chars) : Option (ℤ × Chars) :=
  match cs.span Char.isDigit with
  | ([],_) => none
  | (digits,rest) => some (Nat.ofDigitChars 10 digits 0,rest)

/-- `string:to_integer`: the integer at the front and the text behind it. -/
def toInteger : Chars → Option (ℤ × Chars)
  | '-'::cs => (unsignedInteger cs).map (fun r => (-r.1,r.2))
  | '+'::cs => unsignedInteger cs
  | cs => unsignedInteger cs

def valueRender (v : Data) : InfoValue :=
  if v = text "false" then .atom "false"
  else if v = text "true" then .atom "true"
  else if v = text "null" then .atom "null"
  else
    match toInteger v.chars with
    | some (n,[]) => .integer n
    | _ =>
      match toFloat v.chars with
      | some (f,[]) => .float f
      | _ => .data v

end Values

section Maps

abbrev InfoMap := Finmap (fun _ : Data => InfoValue)

/-- `maps:from_list`: of two pairs with one key the later stays. -/
def fromList (pairs : List (Data × InfoValue)) : InfoMap :=
  pairs.foldl (fun m e => m.insert e.1 e.2) ∅

theorem lookup_fromList (pairs : List (Data × InfoValue)) (k : Data) :
    (fromList pairs).lookup k = (pairs.reverse.find? (fun e => e.1 = k)).map (·.2) := by
  unfold fromList
  induction pairs using List.reverseRecOn with
  | nil => exact Finmap.lookup_empty k
  | append_singleton pairs e ih =>
    rw [List.foldl_append,List.reverse_append]
    simp only [List.foldl_cons,List.foldl_nil,List.reverse_singleton,List.singleton_append,
      List.find?_cons]
    by_cases h : e.1 = k
    · simp [h,Finmap.lookup_insert]
    · simp [h,Finmap.lookup_insert_of_ne _ (Ne.symm h),ih]

end Maps

section Items
variable (toFloat : Chars → Option (ℕ × Chars))

def pair : List Data → Option (Data × Data)
  | [a,b] => some (a,b)
  | _ => none

theorem pair_append {sep : Char} {a b : Chars} (ha : sep ∉ a) :
    pair (splitLeading sep (ofChars (a ++ sep::b))) = some (ofChars a,ofChars b) := by
  rw [splitLeading_append ha]
  rfl

/-- `[{A, value_render(B)} || …]` over the splits that gave two parts. -/
def renderPairs (splits : List (List Data)) : List (Data × InfoValue) :=
  (splits.filterMap pair).map (fun e => (e.1,valueRender toFloat e.2))

def setRender : List (List Data) → List (List InfoMap)
  | [] => []
  | r::tail =>
    let x := r.map (splitAll ':')
    let y := x.map (fun l => l.map (splitLeading '='))
    let z := y.map (fun l => fromList (renderPairs toFloat l))
    z::setRender tail

def setsRender (sets : List Data) : List (List InfoMap) := setRender toFloat (sets.map (splitAll ';'))

def binRender : List Data → Option (List InfoMap)
  | [] => some []
  | .cons a (.cons b bins)::tail => do
    let (a1,a2) ← pair (splitLeading '=' a)
    let (a11,a12) ← pair (splitLeading ':' a1)
    let (b1,b2) ← pair (splitLeading '=' b)
    let rest ← binRender tail
    some (fromList [(text "ns",.data a11),(a12,valueRender toFloat a2),
      (b1,valueRender toFloat b2),(text "names",.data bins)]::rest)
  | _ => none

/-- The parts of each entry are split once more, as one text. -/
def binsRender (bins : List Data) : Option (List (List InfoMap)) :=
  let l := ((splitAll ';' (ofParts bins)).filter (· ≠ .nil)).map (splitAll ',')
  l.mapM (fun b => binRender toFloat (splitAll ',' (ofParts b)))

def sindexRender : List (List Data) → List InfoMap
  | [] => []
  | f::tail => fromList (renderPairs toFloat (f.map (splitLeading '=')))::sindexRender tail

def sindexesRender (indexes : List Data) : List InfoMap :=
  sindexRender toFloat (indexes.map (splitAll ':'))

def configRender (conf : List Data) : InfoMap :=
  fromList (renderPairs toFloat ((splitAll ';' (ofParts conf)).map (splitLeading '=')))

def namespacesRender : List Data → List Data
  | [] => []
  | a::tail => splitAll ';' a ++ namespacesRender tail

end Items

section Replies
variable (toFloat : Chars → Option (ℕ × Chars))

def advice (_ : String) : List String :=
  ["bins","sets","node","namespaces","udf-list","sindex-list:","edition","get-config"]

def chompReversed : Chars → Chars
  | '\n' :: '\r' :: cs => chompReversed cs
  | '\n'::cs => chompReversed cs
  | cs => cs

/-- Without any `\n` and `\r\n` at the end. -/
def chomp (cs : Chars) : Chars := (chompReversed cs.reverse).reverse

inductive Rendered where
  | mapLists (l : List (List InfoMap))
  | maps (l : List InfoMap)
  | map (m : InfoMap)
  | texts (l : List Data)

def itemRender (item : String) (tail : List Data) : Option Rendered :=
  if item = "sets" then some (.mapLists (setsRender toFloat tail))
  else if item = "bins" then (binsRender toFloat tail).map .mapLists
  else if item = "sindex-list:" then some (.maps (sindexesRender toFloat tail))
  else if item = "namespaces" then some (.texts (namespacesRender tail))
  else if "get-config".toList <:+: item.toList then some (.map (configRender toFloat tail))
  else some (.texts tail)

/-- An error keeps its reason beside the advice. -/
def infoRender (reply : Except Chars Chars) (item : String) :
    Option (Except (Chars × List String) (Data × Rendered)) :=
  match reply with
  | .error reason => some (.error (reason,advice item))
  | .ok info =>
    match splitAll '\t' (ofChars (chomp info)) with
    | f::tail => (itemRender toFloat item tail).map (fun res => .ok (f,res))
    | [] => none

end Replies

end AspikePort.InfoRender
