import Mathlib.Algebra.Ring.Int.Defs
import Mathlib.Data.List.Lex
import Mathlib.Data.List.TakeWhile
import Mathlib.Order.Fin.Basic

/-!
# Erlang terms and the native interface that reads and builds them

The readers follow the documented behaviour of the `enif_*` functions: they
inspect one term and never change it. Lists are chains of cells, because the
loops of the source walk them cell by cell beside a counter; a counter of
list cells is a natural number.
-/

set_option autoImplicit false

namespace AspikePort.ErlangTerms

instance byteValues : @NeZero ℕ Zero.ofOfNat0 256 := ⟨Nat.succ_ne_zero 255⟩

abbrev Byte := Fin 256
abbrev Bytes := List Byte

/-- What a reader of a zero-terminated string sees of a buffer. -/
def cStr (b : Bytes) : Bytes := b.takeWhile (· ≠ 0)

theorem cStr_eq_self {b : Bytes} : cStr b = b ↔ 0 ∉ b := by
  simp only [cStr,List.takeWhile_eq_self_iff,decide_eq_true_eq]
  exact ⟨fun h hz => h 0 hz rfl,fun h x hx he => h (he ▸ hx)⟩

inductive Term where
  | atom (name : String)
  | integer (value : ℤ)
  | float (bits : ℕ)
  | binary (data : Bytes)
  | reference (id : ℕ)
  | pid (id : ℕ)
  | nil
  | cons (head tail : Term)
  | tuple (elements : List Term)
  | map (pairs : List (Term × Term))

def ofList : List Term → Term
  | [] => .nil
  | t::ts => .cons t (ofList ts)

def inspectBinary : Term → Option Bytes
  | .binary data => some data
  | _ => none

def getInteger (bits : ℕ) : Term → Option ℤ
  | .integer i => if -(2:ℤ)^(bits-1) ≤ i ∧ i < (2:ℤ)^(bits-1) then some i else none
  | _ => none

def getInt : Term → Option ℤ := getInteger 32
def getLong : Term → Option ℤ := getInteger 64
def getInt64 : Term → Option ℤ := getInteger 64

theorem getLong_integer {i : ℤ} (h : -(2:ℤ)^63 ≤ i ∧ i < (2:ℤ)^63) :
    getLong (.integer i) = some i := if_pos h

def isNumber : Term → Bool
  | .integer _ => true
  | .float _ => true
  | _ => false

def isAtom : Term → Bool
  | .atom _ => true
  | _ => false

def isRef : Term → Bool
  | .reference _ => true
  | _ => false

def getTuple : Term → Option (List Term)
  | .tuple elements => some elements
  | _ => none

def getMap : Term → Option (List (Term × Term))
  | .map pairs => some pairs
  | _ => none

def getListCell : Term → Option (Term × Term)
  | .cons head tail => some (head,tail)
  | _ => none

/-- Defined for proper lists only, so it also stands for `enif_is_list`. -/
def getListLength : Term → Option ℕ
  | .nil => some 0
  | .cons _ tail => (getListLength tail).map (·+1)
  | _ => none

theorem getListLength_ofList (ts : List Term) :
    getListLength (ofList ts) = some ts.length := by
  induction ts with
  | nil => rfl
  | cons t ts ih => simp [ofList,getListLength,ih]

theorem getListLength_some {t : Term} {n : ℕ} (h : getListLength t = some n) :
    ∃ ts : List Term, t = ofList ts ∧ ts.length = n := by
  induction n generalizing t with
  | zero =>
    cases t with
    | nil => exact ⟨[],rfl,rfl⟩
    | cons a b => simp [getListLength] at h
    | _ => simp [getListLength] at h
  | succ n ih =>
    cases t with
    | cons a b =>
      obtain ⟨m,hm,hn⟩ := Option.map_eq_some_iff.mp h
      obtain ⟨ts,rfl,hl⟩ := ih (by rwa [Nat.succ.inj hn] at hm)
      exact ⟨a::ts,rfl,by simp [hl]⟩
    | _ => simp [getListLength] at h

theorem ofList_injective : Function.Injective ofList := by
  intro ts us h
  induction ts generalizing us with
  | nil =>
    cases us with
    | nil => rfl
    | cons u us => simp [ofList] at h
  | cons t ts ih =>
    cases us with
    | nil => simp [ofList] at h
    | cons u us =>
      simp only [ofList,Term.cons.injEq] at h
      rw [h.1,ih h.2]

section Loops
variable {σ ε : Type}

/-- `for (i = 0; i < n; i++) { if (!enif_get_list_cell(list, &head, &tail)) break;
…; list = tail; }` -/
def cells (body : σ → Term → σ) : ℕ → Term → σ → σ
  | 0, _, s => s
  | n+1, list, s =>
    match getListCell list with
    | none => s
    | some (head,tail) => cells body n tail (body s head)

/-- The same loop around a body that may leave the function; `stop` is what the
source does when a cell cannot be read. -/
def cellsExcept (stop : σ → Except ε σ) (body : σ → Term → Except ε σ) :
    ℕ → Term → σ → Except ε σ
  | 0, _, s => .ok s
  | n+1, list, s =>
    match getListCell list with
    | none => stop s
    | some (head,tail) => body s head >>= cellsExcept stop body n tail

theorem cells_ofList (body : σ → Term → σ) (ts : List Term) (s : σ) :
    cells body ts.length (ofList ts) s = ts.foldl body s := by
  induction ts generalizing s with
  | nil => rfl
  | cons t ts ih => exact ih (body s t)

theorem cellsExcept_ofList (stop : σ → Except ε σ) (body : σ → Term → Except ε σ)
    (ts : List Term) (s : σ) :
    cellsExcept stop body ts.length (ofList ts) s = ts.foldlM body s := by
  induction ts generalizing s with
  | nil => rfl
  | cons t ts ih =>
    change body s t >>= cellsExcept stop body ts.length (ofList ts) = _
    rw [List.foldlM_cons]
    congr 1
    funext s'
    exact ih s'

end Loops

def utf8 (c : ℕ) : Bytes :=
  if c < 0x80 then [Fin.ofNat 256 c]
  else if c < 0x800 then [Fin.ofNat 256 (0xC0+c/64),Fin.ofNat 256 (0x80+c%64)]
  else if c < 0x10000 then
    [Fin.ofNat 256 (0xE0+c/4096),Fin.ofNat 256 (0x80+c/64%64),Fin.ofNat 256 (0x80+c%64)]
  else [Fin.ofNat 256 (0xF0+c/262144),Fin.ofNat 256 (0x80+c/4096%64),
    Fin.ofNat 256 (0x80+c/64%64),Fin.ofNat 256 (0x80+c%64)]

def textBytes (s : String) : Bytes := s.toList.flatMap (fun c => utf8 c.toNat)

def codePoints : Term → Option (List ℕ)
  | .nil => some []
  | .cons (.integer i) tail =>
    if 0 ≤ i ∧ i < 0x110000 ∧ ¬(0xD800 ≤ i ∧ i < 0xE000) then
      (codePoints tail).map (i.toNat::·)
    else none
  | _ => none

/-- Copies whole characters while they fit. -/
def copyWhileFits : ℕ → List ℕ → Bytes
  | _, [] => []
  | room, c::cs =>
    if (utf8 c).length ≤ room then utf8 c ++ copyWhileFits (room-(utf8 c).length) cs else []

/-- The text `enif_get_string` leaves in a buffer of `size` bytes. A text that
does not fit is cut and still counts as read: the return code is `-size`,
which the callers' `!` test takes for success. -/
def getString (size : ℕ) (t : Term) : Option Bytes :=
  if size < 1 then none else (codePoints t).map (copyWhileFits (size-1))

/-- `enif_get_atom` fails when the name does not fit. -/
def getAtom (size : ℕ) : Term → Option Bytes
  | .atom name => if (textBytes name).length < size then some (textBytes name) else none
  | _ => none

def makeString (s : String) : Term := ofList (s.toList.map (fun c => .integer c.toNat))

def makeTuple2 (a b : Term) : Term := .tuple [a,b]
def makeTuple3 (a b c : Term) : Term := .tuple [a,b,c]

/-- `enif_make_map_from_arrays` on binary keys: with two equal keys it fails
and stores nothing. -/
def makeMapFromArrays (keys : List Bytes) (values : List Term) : Option Term :=
  if keys.Nodup then some (.map ((keys.map Term.binary).zip values)) else none

def atomOk : Term := .atom "ok"
def atomError : Term := .atom "error"
def atomDone : Term := .atom "done"
def atomTrue : Term := .atom "true"
def atomFalse : Term := .atom "false"
def atomConnected : Term := .atom "connected"
def atomInProgress : Term := .atom "in_progress"
def atomUndefined : Term := .atom "undefined"

end AspikePort.ErlangTerms
