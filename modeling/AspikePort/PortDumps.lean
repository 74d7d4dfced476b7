import AspikePort.BinaryBins
import AspikePort.EiBuffers

/-!
# Records on the wire

The port writes a record head by head. A list header and a tuple header say how
much follows before any of it is written, and the loops and branches behind
them have to write as much. They do not for an empty list, which is closed
twice, and for an inner map without a value, whose tuple stays one term short.
-/

set_option autoImplicit false

namespace AspikePort.PortDumps
open AspikePort.ErlangTerms AspikePort.KeptTexts AspikePort.ClientValues
open AspikePort.ExternalTerms AspikePort.EiBuffers
open AspikePort.FormatSafety
open AspikePort.BinaryBins (Int64)
open AspikePort.ValueFormat (asInteger asString asBytes asList asMap)

section Writers

/-- A loop that appends to the buffer on every round. -/
def writeEach {α : Type} (f : α → Except Fault (List Tok)) : List α → Except Fault (List Tok)
  | [] => .ok []
  | x::xs => do return (← f x) ++ (← writeEach f xs)

/-- `as_string_fromval` answers NULL for another type, and what it answers is
read at once. -/
def stringFromval : AsVal → Except Fault Bytes
  | .string s => .ok s
  | _ => .error .nullPointer

def mapFromval : AsVal → Except Fault (List (AsVal × AsVal))
  | .map es => .ok es
  | _ => .error .nullPointer

def listToIntlistEach (val : AsVal) : Except Fault (List Tok) := do
  return eiXEncodeLong (← asInteger val)

/-- The switch of `dump_binary_bin`. -/
def binaryValueOut (c : Client) (val : AsVal) : Except Fault (List Tok) :=
  match val.type with
  | .integer => do return eiXEncodeLong (← asInteger val)
  -- one case for both tags, and it reads the `bytes` member
  | .string | .bytes => do return eiXEncodeBinary (← asBytes val)
  | .list => do
    let intList ← asList val
    return eiXEncodeListHeader intList.length ++ (← writeEach listToIntlistEach intList) ++
      eiXEncodeEmptyList
  | _ => return eiXEncodeString (textBytes (c.tostring val))

/-- A bin as both dumps write it, up to the switch over its value. -/
def binOut (write : AsVal → Except Fault (List Tok)) (bin : Bytes × AsVal) :
    Except Fault (List Tok) := do
  return eiXEncodeTupleHeader 2 ++ eiXEncodeBinary bin.1 ++ (← write bin.2)

def dumpBinaryBin (c : Client) : Bytes × AsVal → Except Fault (List Tok) :=
  binOut (binaryValueOut c)

structure Inner where
  vnt : Option Bytes := none
  ttlsm : ℤ := 0
  writetime : ℤ := 0
  fccount : ℕ := 0

def Inner.setInteger (f : Inner) (smkey : Bytes) (i : ℤ) : Inner :=
  if cStr smkey = ttlKey then { f with ttlsm := i, fccount := f.fccount+1 }
  else if cStr smkey = wtKey then { f with writetime := i, fccount := f.fccount+1 }
  else { f with fccount := f.fccount+1 }

def readInner (f : Inner) (pair : AsVal × AsVal) : Except Fault Inner :=
  if pair.2.type.code = 9 then do
    return { f with vnt := some (← asBytes pair.2), fccount := f.fccount+1 }
  else if pair.2.type.code = 3 then do
    -- the key is cast without a look at its own type
    let smkey ← asString pair.1
    return f.setInteger smkey (← asInteger pair.2)
  else if pair.2.type.code = 4 then do
    return { f with vnt := some (← asString pair.2), fccount := f.fccount+1 }
  else .ok f

/-- The header announces three terms whether there is a value or not. -/
def Inner.toks (f : Inner) : List Tok :=
  if f.fccount = 2 ∨ f.fccount = 3 then
    eiXEncodeTupleHeader 3 ++ f.vnt.elim [] eiXEncodeBinary ++ eiXEncodeLong f.ttlsm ++
      eiXEncodeLong f.writetime
  else eiXEncodeAtom "undefined"

def entryOut (pair : AsVal × AsVal) : Except Fault (List Tok) := do
  let asbval ← stringFromval pair.1
  let vmap ← mapFromval pair.2
  let f ← vmap.foldlM readInner {}
  return eiXEncodeBinary asbval ++ f.toks

/-- The size of a map has 32 bits, and so has twice the size. -/
def formatValueOut (c : Client) (val : AsVal) : Except Fault (List Tok) :=
  match val.type with
  | .map => do
    let amap ← asMap val
    return eiXEncodeListHeader (amap.length*2 % 2^32) ++ (← writeEach entryOut amap) ++
      eiXEncodeEmptyList
  | _ => binaryValueOut c val

def dumpCdtBin (c : Client) : Bytes × AsVal → Except Fault (List Tok) :=
  binOut (formatValueOut c)

def okP (msg : Bytes) : List Tok := eiXEncodeAtom "ok" ++ eiXEncodeString msg
def errorP (msg : String) : List Tok := eiXEncodeAtom "error" ++ eiXEncodeString (textBytes msg)

/-- The frame that both dumps share around their own way to write a bin. -/
def dumpWith (c : Client) (dumpBin : Bytes × AsVal → Except Fault (List Tok)) :
    Option Record → Except Fault (List Tok)
  | none => .ok (errorP "NULL p_rec - internal error")
  | some pRec =>
    match pRec.key with
    | some key => .ok (okP (textBytes (c.tostring key)))
    | none => do
      let numBins := pRec.bins.length % 2^16
      return eiXEncodeAtom "ok" ++ eiXEncodeListHeader numBins ++
        (← writeEach dumpBin pRec.bins) ++ eiXEncodeEmptyList

def dumpCdtRecords (c : Client) : Option Record → Except Fault (List Tok) :=
  dumpWith c (dumpCdtBin c)

def binaryDumpRecords (c : Client) : Option Record → Except Fault (List Tok) :=
  dumpWith c (dumpBinaryBin c)

/-- What `PRE` leaves in the buffer, and behind it what a call writes. -/
def replyBytes (toks : List Tok) : Bytes :=
  131::(eiXEncodeTupleHeader 2 ++ toks).flatMap Tok.bytes

end Writers

section Contents

/-- A field of the map that stands under one key. -/
inductive InnerField where
  | text (value : Bytes)
  | bytes (value : Bytes)
  | ttl (i : ℤ)
  | wt (i : ℤ)

def InnerField.name : InnerField → Bytes
  | .text _ => valueKey
  | .bytes _ => valueKey
  | .ttl _ => ttlKey
  | .wt _ => wtKey

def InnerField.value : InnerField → AsVal
  | .text value => .string value
  | .bytes value => .bytes value
  | .ttl i => .integer i
  | .wt i => .integer i

structure InnerMap where
  fields : List InnerField
  once : (fields.map InnerField.name).Nodup

def InnerMap.stored (m : InnerMap) : AsVal :=
  .map (m.fields.map (fun f => (.string f.name,f.value)))

inductive BinContent where
  | integer (i : ℤ)
  | string (value : Bytes)
  | bytes (value : Bytes)
  | integers (is : List ℤ)
  | nested (entries : List (Bytes × InnerMap))

def BinContent.stored : BinContent → AsVal
  | .integer i => .integer i
  | .string value => .string value
  | .bytes value => .bytes value
  | .integers is => .list (is.map .integer)
  | .nested entries => .map (entries.map (fun e => (.string e.1,e.2.stored)))

def InnerField.Sized : InnerField → Prop
  | .text value => value.length < 2^32
  | .bytes value => value.length < 2^32
  | .ttl i => Int64 i
  | .wt i => Int64 i

/-- Numbers have 64 bits and sizes 32. -/
def BinContent.Sized : BinContent → Prop
  | .integer i => Int64 i
  | .string value => value.length < 2^32
  | .bytes value => value.length < 2^32
  | .integers is => is.length < 2^32 ∧ ∀ i ∈ is, Int64 i
  | .nested entries => ∀ e ∈ entries, e.1.length < 2^32 ∧ ∀ f ∈ e.2.fields, f.Sized

def SizedBin (c : Client) (b : Bytes × BinContent) : Prop :=
  b.1.length < 2^32 ∧ b.2.Sized ∧ (textBytes (c.tostring b.2.stored)).length < 2^32

/-- A record that was stored without its key. -/
structure StoredRecord (c : Client) where
  gen : ℕ
  ttl : ℕ
  bins : List (Bytes × BinContent)
  few : bins.length < 2^16
  sized : ∀ b ∈ bins, SizedBin c b

def storedBin (b : Bytes × BinContent) : Bytes × AsVal := (b.1,b.2.stored)

def StoredRecord.record {c : Client} (r : StoredRecord c) : Record :=
  ⟨none,r.gen,r.ttl,r.bins.map storedBin⟩

def InnerMap.pairs (m : InnerMap) : List (AsVal × AsVal) :=
  m.fields.map (fun f => (.string f.name,f.value))

/-- The term is the triple of the map; a map without any field may also be
`undefined`. -/
def InnerMap.Shown (m : InnerMap) (t : Term) : Prop :=
  m.fields = [] ∧ t = atomUndefined ∨ t = tripleTerm m.pairs

/-- Keys and values take turns. -/
inductive ShownEntries : List (Bytes × InnerMap) → List Term → Prop
  | nil : ShownEntries [] []
  | cons {key : Bytes} {m : InnerMap} {entries : List (Bytes × InnerMap)} {t : Term}
      {ts : List Term} (h : m.Shown t) (rest : ShownEntries entries ts) :
      ShownEntries ((key,m)::entries) (.binary key::t::ts)

/-- The content of a bin, read off a term. -/
def BinContent.Shown : BinContent → Term → Prop
  | .integer i, t => t = .integer i
  | .string value, t => t = .binary value
  | .bytes value, t => t = .binary value
  | .integers is, t => t = ofList (is.map .integer)
  | .nested entries, t => ∃ ts, t = ofList ts ∧ ShownEntries entries ts

def PairShown (shown : BinContent → Term → Prop) (bin : Bytes × BinContent) (pair : Term) :
    Prop := ∃ t, pair = makeTuple2 (.binary bin.1) t ∧ shown bin.2 t

/-- The bytes are the encoding of `{ok, List}` with one pair for each bin, in
order, and each pair shows the content of its bin. -/
def Dumped (shown : BinContent → Term → Prop) (bins : List (Bytes × BinContent))
    (written : Except Fault (List Tok)) : Prop :=
  ∃ toks pairs, written = .ok toks ∧
    BinaryToTerm (replyBytes toks) (makeTuple2 atomOk (ofList pairs)) ∧
    List.Forall₂ (PairShown shown) bins pairs

/-- A value comes with a time beside it, or the map is empty. -/
def InnerMap.Fine (m : InnerMap) : Prop :=
  m.fields = [] ∨ 2 ≤ m.fields.length ∧ valueKey ∈ m.fields.map InnerField.name

def BinContent.FineWith (fineMap : List (Bytes × InnerMap) → Prop) : BinContent → Prop
  | .string _ => False
  | .integers is => is ≠ []
  | .nested entries => fineMap entries
  | _ => True

/-- The binary dump has no case for a map and prints it. What is printed shows
no map but the empty one, and that only if the client prints nothing for it. -/
def BinaryFine (c : Client) : BinContent → Prop :=
  BinContent.FineWith (fun entries => entries = [] ∧ c.tostring (.map []) = "")

def CdtFine : BinContent → Prop :=
  BinContent.FineWith (fun entries => entries ≠ [] ∧ entries.length < 2^31 ∧ ∀ e ∈ entries, e.2.Fine)

end Contents

section InnerMaps

def Inner.set (f : Inner) : InnerField → Inner
  | .text value => { f with vnt := some value, fccount := f.fccount+1 }
  | .bytes value => { f with vnt := some value, fccount := f.fccount+1 }
  | .ttl i => { f with ttlsm := i, fccount := f.fccount+1 }
  | .wt i => { f with writetime := i, fccount := f.fccount+1 }

theorem readInner_field (f : Inner) (x : InnerField) :
    readInner f (.string x.name,x.value) = .ok (f.set x) := by
  cases x with
  | text value => rfl
  | bytes value => rfl
  | ttl i =>
    have hkey : cStr ttlKey = ttlKey := by decide
    show Except.ok (f.setInteger ttlKey i) = _
    rw [Inner.setInteger,if_pos hkey]
    rfl
  | wt i =>
    have hkey : cStr wtKey = wtKey := by decide
    have hne : ¬cStr wtKey = ttlKey := by decide
    show Except.ok (f.setInteger wtKey i) = _
    rw [Inner.setInteger,if_neg hne,if_pos hkey]
    rfl

/-- What the loop over the fields leaves behind. -/
def InnerMap.read (m : InnerMap) : Inner := m.fields.foldl Inner.set {}

theorem readInner_all (m : InnerMap) :
    (m.fields.map (fun f => (AsVal.string f.name,f.value))).foldlM readInner {} = .ok m.read := by
  rw [List.foldlM_map]
  exact FallibleLoops.foldlM_eq_ok m.fields (fun x _ s => readInner_field s x) {}

def Inner.Holds (f : Inner) : InnerField → Prop
  | .text value => f.vnt = some value
  | .bytes value => f.vnt = some value
  | .ttl i => f.ttlsm = i
  | .wt i => f.writetime = i

theorem Inner.set_holds (f : Inner) (x : InnerField) : (f.set x).Holds x := by
  cases x <;> rfl

theorem Inner.set_keeps {f : Inner} {x y : InnerField} (hne : y.name ≠ x.name)
    (h : f.Holds x) : (f.set y).Holds x := by
  cases x with
  | text value =>
    cases y with
    | text => exact absurd rfl hne
    | bytes => exact absurd rfl hne
    | _ => exact h
  | bytes value =>
    cases y with
    | text => exact absurd rfl hne
    | bytes => exact absurd rfl hne
    | _ => exact h
  | ttl i =>
    cases y with
    | ttl => exact absurd rfl hne
    | _ => exact h
  | wt i =>
    cases y with
    | wt => exact absurd rfl hne
    | _ => exact h

theorem foldl_keeps {x : InnerField} (ys : List InnerField) {f : Inner}
    (hne : ∀ y ∈ ys, y.name ≠ x.name) (h : f.Holds x) : (ys.foldl Inner.set f).Holds x := by
  induction ys generalizing f with
  | nil => exact h
  | cons y ys ih =>
    apply ih
    · exact fun z hz => hne z (List.mem_cons_of_mem y hz)
    · exact Inner.set_keeps (hne y List.mem_cons_self) h

theorem foldl_holds {xs : List InnerField} (honce : (xs.map InnerField.name).Nodup) (f : Inner) :
    ∀ x ∈ xs, (xs.foldl Inner.set f).Holds x := by
  induction xs generalizing f with
  | nil => exact fun x hx => absurd hx List.not_mem_nil
  | cons y ys ih =>
    obtain ⟨hy,hys⟩ := List.nodup_cons.mp honce
    intro x hx
    rcases List.mem_cons.mp hx with rfl | hx
    · apply foldl_keeps ys _ (Inner.set_holds f x)
      intro z hz heq
      exact hy (heq ▸ List.mem_map_of_mem hz)
    · exact ih hys (f.set y) x hx

theorem InnerMap.read_holds (m : InnerMap) : ∀ x ∈ m.fields, m.read.Holds x :=
  foldl_holds m.once {}

theorem foldl_fccount (xs : List InnerField) (f : Inner) :
    (xs.foldl Inner.set f).fccount = f.fccount + xs.length := by
  induction xs generalizing f with
  | nil => rfl
  | cons x xs ih =>
    have hone : (f.set x).fccount = f.fccount+1 := by cases x <;> rfl
    rw [List.foldl_cons,ih,hone,List.length_cons]
    omega

theorem InnerMap.read_fccount (m : InnerMap) : m.read.fccount = m.fields.length := by
  rw [InnerMap.read,foldl_fccount]
  exact Nat.zero_add _

theorem foldl_vnt {xs : List InnerField} {f : Inner} (h : valueKey ∉ xs.map InnerField.name) :
    (xs.foldl Inner.set f).vnt = f.vnt := by
  induction xs generalizing f with
  | nil => rfl
  | cons x xs ih =>
    obtain ⟨hx,hxs⟩ := not_or.mp (fun hm => h (List.mem_cons.mpr hm))
    rw [List.foldl_cons,ih hxs]
    cases x with
    | text => exact absurd rfl hx
    | bytes => exact absurd rfl hx
    | _ => rfl

theorem InnerMap.read_vnt (m : InnerMap) :
    valueKey ∈ m.fields.map InnerField.name ↔ ∃ value, m.read.vnt = some value := by
  constructor
  · intro h
    obtain ⟨x,hx,hname⟩ := List.mem_map.mp h
    have hholds := m.read_holds x hx
    cases x with
    | text value => exact ⟨value,hholds⟩
    | bytes value => exact ⟨value,hholds⟩
    | ttl i => exact absurd hname (show ttlKey ≠ valueKey by decide)
    | wt i => exact absurd hname (show wtKey ≠ valueKey by decide)
  · rintro ⟨value,hvalue⟩
    by_contra h
    rw [InnerMap.read,foldl_vnt h] at hvalue
    cases hvalue

theorem InnerMap.few (m : InnerMap) : m.fields.length ≤ 3 := by
  have hnames : m.fields.map InnerField.name ⊆ [valueKey,ttlKey,wtKey] := by
    intro n hn
    obtain ⟨x,-,rfl⟩ := List.mem_map.mp hn
    cases x <;> simp [InnerField.name]
  have hlength := (m.once.subperm hnames).length_le
  rwa [List.length_map] at hlength

theorem isText_name (name : Bytes) (x : InnerField) :
    isText name (.string x.name) = decide (x.name = name) := rfl

theorem under_missing {name : Bytes} {xs : List InnerField}
    (h : name ∉ xs.map InnerField.name) :
    under name (xs.map (fun f => (AsVal.string f.name,f.value))) = none := by
  apply under_absent
  intro field hfield
  obtain ⟨x,hx,rfl⟩ := List.mem_map.mp hfield
  rw [isText_name]
  exact decide_eq_false (fun heq => h (heq ▸ List.mem_map_of_mem hx))

/-- The loop over the fields leaves what the map has under each name. -/
theorem foldl_under {xs : List InnerField} (honce : (xs.map InnerField.name).Nodup) (f : Inner) :
    (xs.foldl Inner.set f).vnt =
      ((under valueKey (xs.map (fun f => (.string f.name,f.value)))).bind content).or f.vnt ∧
    (xs.foldl Inner.set f).ttlsm =
      ((under ttlKey (xs.map (fun f => (.string f.name,f.value)))).bind number).getD f.ttlsm ∧
    (xs.foldl Inner.set f).writetime =
      ((under wtKey (xs.map (fun f => (.string f.name,f.value)))).bind number).getD f.writetime := by
  have hvt : valueKey ≠ ttlKey := by decide
  have hvw : valueKey ≠ wtKey := by decide
  have htw : ttlKey ≠ wtKey := by decide
  induction xs generalizing f with
  | nil => exact ⟨rfl,rfl,rfl⟩
  | cons x xs ih =>
    obtain ⟨hx,hxs⟩ := List.nodup_cons.mp honce
    obtain ⟨hvnt,httl,hwt⟩ := ih hxs (f.set x)
    have hmissing := under_missing hx
    rw [List.foldl_cons,hvnt,httl,hwt,List.map_cons,under_cons,under_cons,under_cons,isText_name,
      isText_name,isText_name]
    cases x with
    | text value =>
      rw [show under valueKey _ = none from hmissing]
      simp [InnerField.name,InnerField.value,Inner.set,content,hvt,hvw]
    | bytes value =>
      rw [show under valueKey _ = none from hmissing]
      simp [InnerField.name,InnerField.value,Inner.set,content,hvt,hvw]
    | ttl i =>
      rw [show under ttlKey _ = none from hmissing]
      simp [InnerField.name,InnerField.value,Inner.set,number,hvt.symm,htw]
    | wt i =>
      rw [show under wtKey _ = none from hmissing]
      simp [InnerField.name,InnerField.value,Inner.set,number,hvw.symm,htw.symm]

/-- The triple of the map, as the loop over its fields leaves it. -/
theorem InnerMap.read_triple (m : InnerMap) : tripleTerm m.pairs =
    makeTuple3 (textTerm m.read.vnt) (.integer m.read.ttlsm) (.integer m.read.writetime) := by
  obtain ⟨hvnt,httl,hwt⟩ := foldl_under m.once {}
  unfold InnerMap.read
  rw [hvnt,httl,hwt,Option.or_none]
  rfl

theorem Inner.toks_tuple {f : Inner} (hcount : f.fccount = 2 ∨ f.fccount = 3) :
    f.toks = .tuple 3::(f.vnt.elim [] eiXEncodeBinary ++ eiXEncodeLong f.ttlsm ++
      eiXEncodeLong f.writetime) := by
  rw [Inner.toks,if_pos hcount,eiXEncodeTupleHeader,List.append_assoc,List.append_assoc,
    List.singleton_append,← List.append_assoc]

theorem writes_tuple3 {value : Bytes} {f : Inner} (hcount : f.fccount = 2 ∨ f.fccount = 3)
    (hvalue : f.vnt = some value) : Writes f.toks
      [makeTuple3 (.binary value) (.integer f.ttlsm) (.integer f.writetime)] := by
  have hparts := ((writes_binary value).append (writes_long f.ttlsm)).append
    (writes_long f.writetime)
  rw [Inner.toks_tuple hcount,hvalue]
  exact hparts.tuple

theorem writes_inner {m : InnerMap} (h : m.Fine) : ∃ t, Writes m.read.toks [t] ∧ m.Shown t := by
  rcases h with hnone | ⟨htwo,hname⟩
  · have hcount : ¬(m.read.fccount = 2 ∨ m.read.fccount = 3) := by
      rw [m.read_fccount,hnone]
      decide
    refine ⟨atomUndefined,?_,Or.inl ⟨hnone,rfl⟩⟩
    rw [Inner.toks,if_neg hcount]
    exact writes_atom "undefined"
  · obtain ⟨value,hvalue⟩ := m.read_vnt.mp hname
    have hcount : m.read.fccount = 2 ∨ m.read.fccount = 3 := by
      have hfew := m.few
      rw [m.read_fccount]
      omega
    refine ⟨_,writes_tuple3 hcount hvalue,Or.inr ?_⟩
    rw [m.read_triple,hvalue]
    rfl

/-- An inner map that is shown is fine. Without a value the tuple takes the
next term for its last one, and that is not a number. -/
theorem inner_inv {m : InnerMap} {rest : List Tok} {t : Term} {more : List Term}
    (hterms : terms (m.read.toks ++ rest) = some (t::more)) (hshown : m.Shown t)
    (hrest : ∀ i us, terms rest ≠ some (.integer i::us)) :
    m.Fine ∧ terms rest = some more := by
  by_cases hcount : m.read.fccount = 2 ∨ m.read.fccount = 3
  · have htwo : 2 ≤ m.fields.length := by
      rw [← m.read_fccount]
      omega
    by_cases hname : valueKey ∈ m.fields.map InnerField.name
    · obtain ⟨value,hvalue⟩ := m.read_vnt.mp hname
      exact ⟨Or.inr ⟨htwo,hname⟩,((writes_tuple3 hcount hvalue).head hterms).2⟩
    · have hnone : m.read.vnt = none := foldl_vnt hname
      rw [Inner.toks_tuple hcount,hnone] at hterms
      obtain ⟨ts,vs,heq,hlength,htail⟩ := terms_tuple_inv hterms
      obtain ⟨us,hus,hafter⟩ := ((writes_long m.read.ttlsm).append
        (writes_long m.read.writetime)).inv htail
      obtain ⟨a,b,y,rfl⟩ := List.length_eq_three.mp hlength
      rcases hshown with ⟨hfields,-⟩ | ht
      · rw [hfields] at htwo
        exact absurd htwo (by decide)
      · exfalso
        rw [(List.cons.inj heq).1] at ht
        have helems := Term.tuple.inj ht
        simp only [List.cons.injEq] at helems
        simp only [List.cons_append,List.nil_append,List.cons.injEq] at hus
        rw [← hus.2.2,helems.2.2.1] at hafter
        exact hrest _ vs hafter
  · rw [Inner.toks,if_neg hcount] at hterms
    obtain ⟨ht,hafter⟩ := (writes_atom "undefined").head hterms
    rcases hshown with ⟨hfields,-⟩ | htuple
    · exact ⟨Or.inl hfields,hafter⟩
    · rw [ht] at htuple
      cases htuple

end InnerMaps

section Entries

theorem writeEach_ok {α : Type} {f : α → Except Fault (List Tok)} {g : α → List Tok}
    (xs : List α) (h : ∀ x ∈ xs, f x = .ok (g x)) : writeEach f xs = .ok (xs.flatMap g) := by
  induction xs with
  | nil => rfl
  | cons x xs ih =>
    rw [writeEach,h x List.mem_cons_self,ih (fun y hy => h y (List.mem_cons_of_mem x hy))]
    rfl

theorem writeEach_map {α β : Type} (f : β → Except Fault (List Tok)) (g : α → β)
    (xs : List α) : writeEach f (xs.map g) = writeEach (fun x => f (g x)) xs := by
  induction xs with
  | nil => rfl
  | cons x xs ih => rw [List.map_cons,writeEach,writeEach,ih]

def entryToks (e : Bytes × InnerMap) : List Tok := eiXEncodeBinary e.1 ++ e.2.read.toks

theorem entryOut_entry (e : Bytes × InnerMap) :
    entryOut (.string e.1,e.2.stored) = .ok (entryToks e) := by
  show (stringFromval (.string e.1) >>= fun asbval =>
    (e.2.fields.map (fun f => (AsVal.string f.name,f.value))).foldlM readInner {} >>= fun f =>
      pure (eiXEncodeBinary asbval ++ f.toks)) = _
  rw [readInner_all]
  rfl

theorem ShownEntries.length {entries : List (Bytes × InnerMap)} {ts : List Term}
    (h : ShownEntries entries ts) : ts.length = entries.length*2 := by
  induction h with
  | nil => rfl
  | cons h rest ih =>
    rw [List.length_cons,List.length_cons,List.length_cons,ih]
    omega

theorem ShownEntries.take {entries : List (Bytes × InnerMap)} {ts : List Term}
    (h : ShownEntries entries ts) (n : ℕ) :
    ShownEntries (entries.take n) (ts.take (n*2)) := by
  induction h generalizing n with
  | nil =>
    rw [List.take_nil,List.take_nil]
    exact .nil
  | cons h rest ih =>
    cases n with
    | zero => exact .nil
    | succ n =>
      have htwo : (n+1)*2 = n*2+1+1 := by omega
      rw [htwo]
      exact .cons h (ih n)

theorem writes_entries (entries : List (Bytes × InnerMap)) (h : ∀ e ∈ entries, e.2.Fine) :
    ∃ ts, Writes (entries.flatMap entryToks) ts ∧ ShownEntries entries ts := by
  induction entries with
  | nil => exact ⟨[],writes_nil,.nil⟩
  | cons e entries ih =>
    obtain ⟨ts,hts,hshown⟩ := ih (fun e' he' => h e' (List.mem_cons_of_mem e he'))
    obtain ⟨t,ht,hm⟩ := writes_inner (h e List.mem_cons_self)
    refine ⟨.binary e.1::t::ts,?_,.cons hm hshown⟩
    rw [List.flatMap_cons]
    exact ((writes_binary e.1).append ht).append hts

/-- Behind a key stands a binary, and behind the last value the end of the list. -/
theorem entries_head (entries : List (Bytes × InnerMap)) {rest : List Tok}
    (hrest : ∀ i us, terms rest ≠ some (.integer i::us)) (i : ℤ) (us : List Term) :
    terms (entries.flatMap entryToks ++ rest) ≠ some (.integer i::us) := by
  cases entries with
  | nil => exact hrest i us
  | cons e entries =>
    intro h
    rw [List.flatMap_cons,entryToks,List.append_assoc,List.append_assoc] at h
    cases ((writes_binary e.1).head h).1

theorem entries_inv {entries : List (Bytes × InnerMap)} {rest : List Tok} {ts more : List Term}
    (hshown : ShownEntries entries ts)
    (hterms : terms (entries.flatMap entryToks ++ rest) = some (ts ++ more))
    (hrest : ∀ i us, terms rest ≠ some (.integer i::us)) :
    (∀ e ∈ entries, e.2.Fine) ∧ terms rest = some more := by
  induction hshown with
  | nil => exact ⟨fun e he => absurd he List.not_mem_nil,hterms⟩
  | @cons key m entries t ts hm hshown ih =>
    rw [List.flatMap_cons,entryToks,List.append_assoc,List.append_assoc] at hterms
    have hvalue := ((writes_binary key).head hterms).2
    obtain ⟨hfine,hnext⟩ := inner_inv hvalue hm (entries_head entries hrest)
    obtain ⟨hall,hafter⟩ := ih hnext
    exact ⟨List.forall_mem_cons.mpr ⟨hfine,hall⟩,hafter⟩

theorem ofListTail_eq {xs ts : List Term} {tail : Term} (h : ofListTail xs tail = ofList ts) :
    ∃ us, ts = xs ++ us ∧ tail = ofList us := by
  induction xs generalizing ts with
  | nil => exact ⟨ts,rfl,h⟩
  | cons x xs ih =>
    cases ts with
    | nil => cases h
    | cons t ts =>
      obtain ⟨hx,hxs⟩ := Term.cons.inj h
      obtain ⟨us,hus,htail⟩ := ih hxs
      exact ⟨us,by rw [hx,hus,List.cons_append],htail⟩

theorem integers_inv {is : List ℤ} {rest : List Tok} {more : List Term}
    (hterms : terms (eiXEncodeListHeader is.length ++ is.flatMap eiXEncodeLong ++
      eiXEncodeEmptyList ++ rest) = some (ofList (is.map .integer)::more))
    (hstop : terms (.nil::rest) ≠ some more) : is ≠ [] ∧ terms rest = some more := by
  cases is with
  | nil => exact absurd (writes_emptyList.head hterms).2 hstop
  | cons i is =>
    have hne : (i::is).map Term.integer ≠ [] := by simp
    have hwrites := writes_listed (writes_flatMap writes_long (i::is)) hne
    rw [List.length_map] at hwrites
    exact ⟨by simp,(hwrites.head hterms).2⟩

/-- All entries are read before the end of the list, so the header counted them
all. -/
theorem entries_counted {entries : List (Bytes × InnerMap)} {n : ℕ} {rest : List Tok}
    {ts us more : List Term} {tail : Term} (hshown : ShownEntries entries (ts ++ us))
    (hn : n ≤ entries.length) (hlength : ts.length = n*2) (htail : tail = ofList us)
    (hterms : terms (entries.flatMap entryToks ++ .nil::rest) = some (ts ++ tail::more)) :
    n = entries.length ∧ (∀ e ∈ entries, e.2.Fine) ∧ terms rest = some more := by
  have hfirst := hshown.take n
  rw [List.take_left' hlength] at hfirst
  have hsplit : entries.flatMap entryToks = (entries.take n).flatMap entryToks ++
      (entries.drop n).flatMap entryToks := by
    rw [← List.flatMap_append,List.take_append_drop]
  have hend : ∀ i vs, terms (.nil::rest) ≠ some (.integer i::vs) := by
    intro i vs h
    cases (writes_emptyList.head h).1
  rw [hsplit,List.append_assoc] at hterms
  obtain ⟨hfine,hrest⟩ := entries_inv hfirst hterms (entries_head _ hend)
  cases hdrop : entries.drop n with
  | nil =>
    have hall : n = entries.length := by
      have hle := List.drop_eq_nil_iff.mp hdrop
      omega
    rw [hall,List.take_length] at hfine
    rw [hdrop] at hrest
    exact ⟨hall,hfine,(writes_emptyList.head hrest).2⟩
  | cons e es =>
    rw [hdrop,List.flatMap_cons,entryToks,List.append_assoc,List.append_assoc] at hrest
    have hkey := ((writes_binary e.1).head hrest).1
    rw [htail] at hkey
    cases us <;> cases hkey

theorem entriesMap_full {entries : List (Bytes × InnerMap)} {rest : List Tok}
    {ts more : List Term} (hne : entries ≠ []) (hshown : ShownEntries entries ts)
    (hterms : terms (eiXEncodeListHeader (entries.length*2 % 2^32) ++
      entries.flatMap entryToks ++ eiXEncodeEmptyList ++ rest) = some (ofList ts::more)) :
    entries.length < 2^31 ∧ (∀ e ∈ entries, e.2.Fine) ∧ terms rest = some more := by
  have hlength := hshown.length
  have hpos := List.length_pos_iff.mpr hne
  by_cases hzero : entries.length*2 % 2^32 = 0
  · exfalso
    rw [hzero,List.append_assoc,List.append_assoc] at hterms
    have hts : ts = [] := ofList_injective (writes_emptyList.head hterms).1
    rw [hts,List.length_nil] at hlength
    omega
  · rw [eiXEncodeListHeader,if_neg hzero,List.append_assoc,List.append_assoc] at hterms
    obtain ⟨xs,tail,vs,heq,hxs,hafter⟩ := terms_list_inv hterms
    obtain ⟨hhead,hmore⟩ := List.cons.inj heq
    obtain ⟨us,hus,htail⟩ := ofListTail_eq hhead.symm
    rw [hus] at hshown
    have hhalf : xs.length = entries.length % 2^31*2 := by
      rw [hxs]
      omega
    obtain ⟨hall,hfine,hrest⟩ := entries_counted hshown (Nat.mod_le _ _) hhalf htail hafter
    have hfew : entries.length < 2^31 := by
      rw [← hall]
      exact Nat.mod_lt _ (by decide)
    rw [hmore]
    exact ⟨hfew,hfine,hrest⟩

theorem entriesMap_inv {entries : List (Bytes × InnerMap)} {rest : List Tok}
    {ts more : List Term} (hshown : ShownEntries entries ts)
    (hterms : terms (eiXEncodeListHeader (entries.length*2 % 2^32) ++
      entries.flatMap entryToks ++ eiXEncodeEmptyList ++ rest) = some (ofList ts::more))
    (hstop : terms (.nil::rest) ≠ some more) :
    (entries ≠ [] ∧ entries.length < 2^31 ∧ ∀ e ∈ entries, e.2.Fine) ∧
      terms rest = some more := by
  by_cases hne : entries = []
  · rw [hne] at hterms
    exact absurd (writes_emptyList.head hterms).2 hstop
  · obtain ⟨hfew,hfine,hrest⟩ := entriesMap_full hne hshown hterms
    exact ⟨⟨hne,hfew,hfine⟩,hrest⟩

end Entries

section Values
variable {c : Client}

theorem writeEach_valid {α : Type} {f : α → Except Fault (List Tok)} {xs : List α}
    {body : List Tok} (h : ∀ x ∈ xs, ∀ toks, f x = .ok toks → AllValid toks)
    (hbody : writeEach f xs = .ok body) : AllValid body := by
  induction xs generalizing body with
  | nil =>
    cases hbody
    exact allValid_nil
  | cons x xs ih =>
    rw [writeEach] at hbody
    cases hx : f x with
    | error e =>
      rw [hx] at hbody
      cases hbody
    | ok toks =>
      rw [hx] at hbody
      cases hrest : writeEach f xs with
      | error e =>
        rw [hrest] at hbody
        cases hbody
      | ok rest =>
        rw [hrest] at hbody
        cases hbody
        have htail := ih (fun y hy => h y (List.mem_cons_of_mem x hy)) hrest
        exact AllValid.append (h x List.mem_cons_self toks hx) htail

theorem binaryValueOut_integers (is : List ℤ) :
    binaryValueOut c (BinContent.integers is).stored = .ok (eiXEncodeListHeader is.length ++
      is.flatMap eiXEncodeLong ++ eiXEncodeEmptyList) := by
  show (writeEach listToIntlistEach (is.map .integer) >>= fun body => pure
    (eiXEncodeListHeader (is.map AsVal.integer).length ++ body ++ eiXEncodeEmptyList)) = _
  have hwrite : ∀ i ∈ is, listToIntlistEach (.integer i) = .ok (eiXEncodeLong i) := fun _ _ => rfl
  rw [writeEach_map,writeEach_ok is hwrite,List.length_map]
  rfl

theorem formatValueOut_nested (entries : List (Bytes × InnerMap)) :
    formatValueOut c (BinContent.nested entries).stored =
      .ok (eiXEncodeListHeader (entries.length*2 % 2^32) ++ entries.flatMap entryToks ++
        eiXEncodeEmptyList) := by
  show (writeEach entryOut (entries.map (fun e => (AsVal.string e.1,e.2.stored))) >>= fun body =>
    pure (eiXEncodeListHeader ((entries.map
      (fun e => (AsVal.string e.1,e.2.stored))).length*2 % 2^32) ++ body ++ eiXEncodeEmptyList)) = _
  rw [writeEach_map,writeEach_ok entries (fun e _ => entryOut_entry e),List.length_map]
  rfl

/-- Away from maps the two switches agree. -/
theorem nested_or_plain (c : Client) (v : BinContent) : (∃ entries, v = .nested entries) ∨
    formatValueOut c v.stored = binaryValueOut c v.stored ∧ (CdtFine v ↔ BinaryFine c v) := by
  cases v with
  | nested entries => exact Or.inl ⟨entries,rfl⟩
  | integer i => exact Or.inr ⟨rfl,Iff.rfl⟩
  | string value => exact Or.inr ⟨rfl,Iff.rfl⟩
  | bytes value => exact Or.inr ⟨rfl,Iff.rfl⟩
  | integers is => exact Or.inr ⟨rfl,Iff.rfl⟩

/-- What the frame of a dump needs of the way a value is written. -/
structure ValueWriter (c : Client) (write : AsVal → Except Fault (List Tok))
    (shown : BinContent → Term → Prop) (fine : BinContent → Prop) : Prop where
  fine_writes : ∀ v, fine v → ∃ toks t, write v.stored = .ok toks ∧ Writes toks [t] ∧ shown v t
  shown_fine : ∀ v toks rest t more, write v.stored = .ok toks →
    terms (toks ++ rest) = some (t::more) → shown v t → terms (.nil::rest) ≠ some more →
    fine v ∧ terms rest = some more
  valid : ∀ (v : BinContent) toks, write v.stored = .ok toks → v.Sized →
    (textBytes (c.tostring v.stored)).length < 2^32 → AllValid toks

theorem valid_int64 {i : ℤ} (h : Int64 i) : AllValid (eiXEncodeLong i) := by
  unfold BinaryBins.Int64 at h
  exact valid_long (by omega)

/-- A text is a list of integers, and a map that is not empty begins with a
binary. -/
theorem printed_shown {entries : List (Bytes × InnerMap)} {chars : Bytes}
    (h : BinContent.Shown (.nested entries) (charList (chars.map Fin.val))) :
    entries = [] ∧ chars = [] := by
  obtain ⟨ts,hts,hshown⟩ := h
  have heq : chars.map (fun c => Term.integer (c.val : ℕ)) = ts := by
    unfold charList at hts
    rw [List.map_map] at hts
    exact ofList_injective hts
  cases hshown with
  | nil => exact ⟨rfl,List.map_eq_nil_iff.mp heq⟩
  | cons =>
    cases chars with
    | nil => cases heq
    | cons => cases (List.cons.inj heq).1

theorem printed_inv {entries : List (Bytes × InnerMap)} {rest : List Tok} {t : Term}
    {more : List Term} (hterms : terms (eiXEncodeString
      (textBytes (c.tostring (BinContent.nested entries).stored)) ++ rest) = some (t::more))
    (hshown : BinContent.Shown (.nested entries) t) :
    BinaryFine c (.nested entries) ∧ terms rest = some more := by
  obtain ⟨rfl,hrest⟩ := (writes_string _).head hterms
  obtain ⟨rfl,hnone⟩ := printed_shown hshown
  exact ⟨⟨rfl,textBytes_injective hnone⟩,hrest⟩

theorem binaryWriter : ValueWriter c (binaryValueOut c) BinContent.Shown (BinaryFine c) where
  fine_writes := by
    intro v hfine
    cases v with
    | integer i => exact ⟨_,_,rfl,writes_long i,rfl⟩
    | string value => exact hfine.elim
    | bytes value => exact ⟨_,_,rfl,writes_binary value,rfl⟩
    | integers is =>
      have hne : is.map Term.integer ≠ [] := fun h => hfine (List.map_eq_nil_iff.mp h)
      have hwrites := writes_listed (writes_flatMap writes_long is) hne
      rw [List.length_map] at hwrites
      exact ⟨_,_,binaryValueOut_integers is,hwrites,rfl⟩
    | nested entries =>
      obtain ⟨rfl,htext⟩ := hfine
      have hnone : textBytes (c.tostring (BinContent.nested []).stored) = [] :=
        congrArg textBytes htext
      refine ⟨_,_,rfl,writes_string _,[],?_,.nil⟩
      rw [hnone]
      rfl
  shown_fine := by
    intro v toks rest t more hwrite hterms hshown hstop
    cases v with
    | integer i =>
      cases hwrite
      exact ⟨trivial,((writes_long i).head hterms).2⟩
    | string value => cases hwrite
    | bytes value =>
      cases hwrite
      exact ⟨trivial,((writes_binary value).head hterms).2⟩
    | integers is =>
      rw [binaryValueOut_integers] at hwrite
      cases hwrite
      rw [show t = _ from hshown] at hterms
      exact integers_inv hterms hstop
    | nested entries =>
      cases hwrite
      exact printed_inv hterms hshown
  valid := by
    intro v toks hwrite hsized htext
    cases v with
    | integer i =>
      cases hwrite
      exact valid_int64 hsized
    | string value => cases hwrite
    | bytes value =>
      cases hwrite
      exact allValid_one hsized
    | integers is =>
      rw [binaryValueOut_integers] at hwrite
      cases hwrite
      have hbody := allValid_flatMap (fun i hi => valid_int64 (hsized.2 i hi))
      exact ((valid_listHeader hsized.1).append hbody).append (allValid_one trivial)
    | nested entries =>
      cases hwrite
      exact valid_string htext

def Inner.Sized (f : Inner) : Prop :=
  (∀ value, f.vnt = some value → value.length < 2^32) ∧ Int64 f.ttlsm ∧ Int64 f.writetime

theorem Inner.set_sized {f : Inner} {x : InnerField} (h : f.Sized) (hx : x.Sized) :
    (f.set x).Sized := by
  obtain ⟨hvnt,httl,hwt⟩ := h
  cases x with
  | text value => exact ⟨fun _ heq => Option.some.inj heq ▸ hx,httl,hwt⟩
  | bytes value => exact ⟨fun _ heq => Option.some.inj heq ▸ hx,httl,hwt⟩
  | ttl i => exact ⟨hvnt,hx,hwt⟩
  | wt i => exact ⟨hvnt,httl,hx⟩

theorem foldl_sized {xs : List InnerField} {f : Inner} (h : f.Sized)
    (hxs : ∀ x ∈ xs, x.Sized) : (xs.foldl Inner.set f).Sized := by
  induction xs generalizing f with
  | nil => exact h
  | cons x xs ih =>
    apply ih
    · exact Inner.set_sized h (hxs x List.mem_cons_self)
    · exact fun y hy => hxs y (List.mem_cons_of_mem x hy)

theorem valid_inner {f : Inner} (h : f.Sized) : AllValid f.toks := by
  obtain ⟨hvnt,httl,hwt⟩ := h
  have hvalue : AllValid (f.vnt.elim [] eiXEncodeBinary) := by
    cases hv : f.vnt with
    | none => exact allValid_nil
    | some value => exact allValid_one (hvnt value hv)
  have hhead : AllValid (eiXEncodeTupleHeader 3) := allValid_one (show 3 < 2^32 by decide)
  unfold Inner.toks
  split_ifs
  · exact ((hhead.append hvalue).append (valid_int64 httl)).append (valid_int64 hwt)
  · exact allValid_one (show (textBytes "undefined").length < 2^16 by decide)

theorem valid_entries {entries : List (Bytes × InnerMap)}
    (h : ∀ e ∈ entries, e.1.length < 2^32 ∧ ∀ x ∈ e.2.fields, x.Sized) :
    AllValid (entries.flatMap entryToks) := by
  apply allValid_flatMap
  intro e he
  obtain ⟨hkey,hfields⟩ := h e he
  have hstart : ({} : Inner).Sized := ⟨fun _ hv => (nomatch hv),by decide,by decide⟩
  have hhead : AllValid (eiXEncodeBinary e.1) := allValid_one hkey
  exact hhead.append (valid_inner (foldl_sized hstart hfields))

theorem cdtWriter : ValueWriter c (formatValueOut c) BinContent.Shown CdtFine where
  fine_writes := by
    intro v hfine
    rcases nested_or_plain c v with ⟨entries,rfl⟩ | ⟨hsame,hfines⟩
    · obtain ⟨hne,hfew,hall⟩ := hfine
      obtain ⟨ts,hts,hshown⟩ := writes_entries entries hall
      have hlength : ts.length = entries.length*2 % 2^32 := by
        rw [hshown.length]
        omega
      have hts' : ts ≠ [] := by
        intro h
        have hlength' := hshown.length
        rw [h,List.length_nil] at hlength'
        exact hne (List.eq_nil_of_length_eq_zero (by omega))
      have hwrites := writes_listed hts hts'
      rw [hlength] at hwrites
      exact ⟨_,_,formatValueOut_nested entries,hwrites,ts,rfl,hshown⟩
    · obtain ⟨toks,t,hwrite,hwrites,hshown⟩ :=
        (binaryWriter (c := c)).fine_writes v (hfines.mp hfine)
      exact ⟨toks,t,hsame.trans hwrite,hwrites,hshown⟩
  shown_fine := by
    intro v toks rest t more hwrite hterms hshown hstop
    rcases nested_or_plain c v with ⟨entries,rfl⟩ | ⟨hsame,hfines⟩
    · rw [formatValueOut_nested] at hwrite
      cases hwrite
      obtain ⟨ts,rfl,hentries⟩ := hshown
      exact entriesMap_inv hentries hterms hstop
    · rw [hsame] at hwrite
      obtain ⟨hfine,hrest⟩ :=
        binaryWriter.shown_fine v toks rest t more hwrite hterms hshown hstop
      exact ⟨hfines.mpr hfine,hrest⟩
  valid := by
    intro v toks hwrite hsized htext
    rcases nested_or_plain c v with ⟨entries,rfl⟩ | ⟨hsame,-⟩
    · rw [formatValueOut_nested] at hwrite
      cases hwrite
      have hheader := valid_listHeader (Nat.mod_lt (entries.length*2) (by decide : 0 < 2^32))
      exact (hheader.append (valid_entries hsized)).append (allValid_one trivial)
    · rw [hsame] at hwrite
      exact binaryWriter.valid v toks hwrite hsized htext

end Values

section Dumps
variable {c : Client} {write : AsVal → Except Fault (List Tok)}
variable {shown : BinContent → Term → Prop} {fine : BinContent → Prop}

theorem binOut_ok {b : Bytes × BinContent} {toks : List Tok}
    (h : binOut write (storedBin b) = .ok toks) : ∃ value, write b.2.stored = .ok value ∧
      toks = .tuple 2::.binary b.1::value := by
  change (write b.2.stored >>= fun value =>
    pure (eiXEncodeTupleHeader 2 ++ eiXEncodeBinary b.1 ++ value)) = _ at h
  cases hw : write b.2.stored with
  | error e =>
    rw [hw] at h
    cases h
  | ok value =>
    rw [hw] at h
    cases h
    exact ⟨value,rfl,rfl⟩

theorem writes_bins (hw : ValueWriter c write shown fine) (bins : List (Bytes × BinContent))
    (h : ∀ b ∈ bins, fine b.2) : ∃ body pairs, writeEach (binOut write) (bins.map storedBin) =
      .ok body ∧ Writes body pairs ∧ List.Forall₂ (PairShown shown) bins pairs := by
  induction bins with
  | nil => exact ⟨[],[],rfl,writes_nil,.nil⟩
  | cons b bins ih =>
    obtain ⟨body,pairs,hbody,hwrites,hpairs⟩ := ih (fun x hx => h x (List.mem_cons_of_mem b hx))
    obtain ⟨value,t,hvalue,ht,hshown⟩ := hw.fine_writes b.2 (h b List.mem_cons_self)
    have hbin : binOut write (storedBin b) = .ok (.tuple 2::.binary b.1::value) := by
      show (write b.2.stored >>= fun value => pure _) = _
      rw [hvalue]
      rfl
    refine ⟨.tuple 2::.binary b.1::value ++ body,makeTuple2 (.binary b.1) t::pairs,?_,?_,
      .cons ⟨t,rfl,hshown⟩ hpairs⟩
    · rw [List.map_cons,writeEach,hbin,hbody]
      rfl
    · have htuple := ((writes_binary b.1).append ht).tuple
      exact htuple.append hwrites

theorem bins_cons {b : Bytes × BinContent} {bins : List (Bytes × BinContent)} {body : List Tok}
    (h : writeEach (binOut write) ((b::bins).map storedBin) = .ok body) : ∃ value later,
      write b.2.stored = .ok value ∧ writeEach (binOut write) (bins.map storedBin) = .ok later ∧
      body = .tuple 2::.binary b.1::value ++ later := by
  rw [List.map_cons,writeEach] at h
  cases hbin : binOut write (storedBin b) with
  | error e =>
    rw [hbin] at h
    cases h
  | ok toks =>
    cases hrest : writeEach (binOut write) (bins.map storedBin) with
    | error e =>
      rw [hbin,hrest] at h
      cases h
    | ok later =>
      rw [hbin,hrest] at h
      cases h
      obtain ⟨value,hvalue,rfl⟩ := binOut_ok hbin
      exact ⟨value,later,hvalue,rfl,rfl⟩

theorem pair_inv {name : Bytes} {toks : List Tok} {t : Term} {more : List Term}
    (h : terms (.tuple 2::.binary name::toks) = some (makeTuple2 (.binary name) t::more)) :
    terms toks = some (t::more) := by
  obtain ⟨ts,vs,heq,-,hafter⟩ := terms_tuple_inv h
  obtain ⟨htuple,hmore⟩ := List.cons.inj heq
  rw [← Term.tuple.inj htuple,← hmore] at hafter
  exact ((writes_binary name).head hafter).2

/-- Behind a bin stands the next pair or the end of the list, and never an
empty list before either. -/
theorem bins_inv (hw : ValueWriter c write shown fine) {bins : List (Bytes × BinContent)}
    {pairs : List Term} (hpairs : List.Forall₂ (PairShown shown) bins pairs) {body : List Tok}
    (hbody : writeEach (binOut write) (bins.map storedBin) = .ok body)
    (hterms : terms (body ++ [.nil]) = some (pairs ++ [.nil])) : ∀ b ∈ bins, fine b.2 := by
  induction hpairs generalizing body with
  | nil => exact fun b hb => absurd hb List.not_mem_nil
  | @cons b pair bins pairs hpair hpairs ih =>
    obtain ⟨t,rfl,hshown⟩ := hpair
    obtain ⟨value,later,hvalue,hlater,rfl⟩ := bins_cons hbody
    have hnext : terms (value ++ (later ++ [.nil])) = some (t::(pairs ++ [.nil])) := by
      rw [← List.append_assoc]
      exact pair_inv hterms
    have hstop : terms (.nil::(later ++ [.nil])) ≠ some (pairs ++ [.nil]) := by
      intro h
      cases hpairs with
      | nil =>
        cases hlater
        cases h
      | cons hpair _ =>
        obtain ⟨u,rfl,-⟩ := hpair
        cases (writes_emptyList.head h).1
    obtain ⟨hfine,hgo⟩ := hw.shown_fine b.2 value _ t _ hvalue hnext hshown hstop
    exact List.forall_mem_cons.mpr ⟨hfine,ih hlater hgo⟩

theorem dump_ok {r : StoredRecord c} {toks : List Tok}
    (h : dumpWith c (binOut write) (some r.record) = .ok toks) :
    ∃ body, writeEach (binOut write) (r.bins.map storedBin) = .ok body ∧
      toks = .atom "ok"::(eiXEncodeListHeader r.bins.length ++ body ++ [.nil]) := by
  have hcount : (r.bins.map storedBin).length % 2^16 = r.bins.length := by
    rw [List.length_map]
    exact Nat.mod_eq_of_lt r.few
  change (writeEach (binOut write) (r.bins.map storedBin) >>= fun body => pure
    (eiXEncodeAtom "ok" ++ eiXEncodeListHeader ((r.bins.map storedBin).length % 2^16) ++ body ++
      eiXEncodeEmptyList)) = _ at h
  rw [hcount] at h
  cases hbody : writeEach (binOut write) (r.bins.map storedBin) with
  | error e =>
    rw [hbody] at h
    cases h
  | ok body =>
    rw [hbody] at h
    cases h
    exact ⟨body,rfl,rfl⟩

theorem dump_of_body {r : StoredRecord c} {body : List Tok}
    (h : writeEach (binOut write) (r.bins.map storedBin) = .ok body) :
    dumpWith c (binOut write) (some r.record) =
      .ok (.atom "ok"::(eiXEncodeListHeader r.bins.length ++ body ++ [.nil])) := by
  have hcount : (r.bins.map storedBin).length % 2^16 = r.bins.length := by
    rw [List.length_map]
    exact Nat.mod_eq_of_lt r.few
  show (writeEach (binOut write) (r.bins.map storedBin) >>= fun body => pure
    (eiXEncodeAtom "ok" ++ eiXEncodeListHeader ((r.bins.map storedBin).length % 2^16) ++ body ++
      eiXEncodeEmptyList)) = _
  rw [hcount,h]
  rfl

theorem valid_dump (hw : ValueWriter c write shown fine) {r : StoredRecord c} {body : List Tok}
    (hbody : writeEach (binOut write) (r.bins.map storedBin) = .ok body) :
    AllValid (eiXEncodeTupleHeader 2 ++
      .atom "ok"::(eiXEncodeListHeader r.bins.length ++ body ++ [.nil])) := by
  have hhead : AllValid (eiXEncodeTupleHeader 2) := allValid_one (show 2 < 2^32 by decide)
  have hok : AllValid [.atom "ok"] := allValid_one (show (textBytes "ok").length < 2^16 by decide)
  have hcount := r.few
  have hlist : AllValid (eiXEncodeListHeader r.bins.length) := valid_listHeader (by omega)
  have hbins : AllValid body := by
    apply writeEach_valid _ hbody
    intro x hx toks htoks
    obtain ⟨b,hb,rfl⟩ := List.mem_map.mp hx
    obtain ⟨hname,hsized,htext⟩ := r.sized b hb
    obtain ⟨value,hvalue,rfl⟩ := binOut_ok htoks
    have hkey : AllValid [.binary b.1] := allValid_one hname
    exact hhead.append (hkey.append (hw.valid b.2 value hvalue hsized htext))
  exact hhead.append (hok.append ((hlist.append hbins).append (allValid_one trivial)))

theorem reply_inv {n : ℕ} {body rest : List Tok} {pairs more : List Term} (hn : n ≠ 0)
    (hlength : pairs.length = n) (h : terms (eiXEncodeTupleHeader 2 ++
      .atom "ok"::(eiXEncodeListHeader n ++ body ++ [.nil]) ++ rest) =
        some (makeTuple2 atomOk (ofList pairs)::more)) :
    terms (body ++ .nil::rest) = some (pairs ++ .nil::more) := by
  obtain ⟨ts,vs,heq,-,hafter⟩ := terms_tuple_inv h
  obtain ⟨htuple,hmore⟩ := List.cons.inj heq
  rw [← Term.tuple.inj htuple,← hmore] at hafter
  have hlist : terms (.list n::(body ++ .nil::rest)) = some (ofList pairs::more) := by
    have hrow := ((writes_atom "ok").head hafter).2
    rw [eiXEncodeListHeader,if_neg hn] at hrow
    simpa using hrow
  obtain ⟨xs,tail,us,hhead,hxs,hrest⟩ := terms_list_inv hlist
  obtain ⟨hlisted,hus⟩ := List.cons.inj hhead
  obtain ⟨ys,hys,htail⟩ := ofListTail_eq hlisted.symm
  have hnone : ys = [] := by
    rw [hys,List.length_append] at hlength
    exact List.eq_nil_of_length_eq_zero (by omega)
  rw [hnone,List.append_nil] at hys
  rwa [htail,hnone,← hys,← hus] at hrest

/-- Of a record without bins the list is closed twice as well. -/
theorem dumped_iff (hw : ValueWriter c write shown fine) (r : StoredRecord c) :
    Dumped shown r.bins (dumpWith c (binOut write) (some r.record)) ↔
      r.bins ≠ [] ∧ ∀ b ∈ r.bins, fine b.2 := by
  constructor
  · rintro ⟨toks,pairs,hdump,hdecode,hpairs⟩
    obtain ⟨body,hbody,rfl⟩ := dump_ok hdump
    have hterms := (binaryToTerm_iff (valid_dump hw hbody) _).mp hdecode
    by_cases hbins : r.bins = []
    · rw [hbins] at hterms hbody
      cases hbody
      have hcount : some 2 = some 1 := congrArg (Option.map List.length) hterms
      cases hcount
    · have hcount : r.bins.length ≠ 0 := fun hz => hbins (List.eq_nil_of_length_eq_zero hz)
      rw [← List.append_nil (eiXEncodeTupleHeader 2 ++ _)] at hterms
      exact ⟨hbins,bins_inv hw hpairs hbody (reply_inv hcount hpairs.length_eq.symm hterms)⟩
  · rintro ⟨hbins,hfine⟩
    obtain ⟨body,pairs,hbody,hwrites,hpairs⟩ := writes_bins hw r.bins hfine
    have hcount := hpairs.length_eq
    have hne : pairs ≠ [] := by
      intro h
      rw [h] at hcount
      exact hbins (List.eq_nil_of_length_eq_zero hcount)
    have hlist := writes_listed hwrites hne
    rw [← hcount] at hlist
    have htuple := ((writes_atom "ok").append hlist).tuple
    refine ⟨_,pairs,dump_of_body hbody,?_,hpairs⟩
    exact (binaryToTerm_iff (valid_dump hw hbody) _).mpr htuple.all

end Dumps

section Records

/-- Each dump is the encoding of its record exactly when there is a bin and no
bin holds a text or an empty container, in the binary dump also none a map, and
in the other no inner map shows less than it has. -/
theorem dumps_decode_iff (c : Client) (r : StoredRecord c) :
    (Dumped BinContent.Shown r.bins (binaryDumpRecords c (some r.record)) ↔
      r.bins ≠ [] ∧ ∀ b ∈ r.bins, BinaryFine c b.2) ∧
    (Dumped BinContent.Shown r.bins (dumpCdtRecords c (some r.record)) ↔
      r.bins ≠ [] ∧ ∀ b ∈ r.bins, CdtFine b.2) :=
  ⟨dumped_iff binaryWriter r,dumped_iff cdtWriter r⟩

def emptyAndSeven : StoredRecord plainClient where
  gen := 1
  ttl := 0
  bins := [(textBytes "p",.integers []),(textBytes "q",.integer 7)]
  few := by decide
  sized := by
    have hp : (BinContent.integers []).Sized := ⟨by decide,fun i hi => absurd hi List.not_mem_nil⟩
    have hq : (BinContent.integer 7).Sized := ⟨by decide,by decide⟩
    have hfirst : SizedBin plainClient (textBytes "p",.integers []) := ⟨by decide,hp,by decide⟩
    have hsecond : SizedBin plainClient (textBytes "q",.integer 7) := ⟨by decide,hq,by decide⟩
    intro b hb
    rcases List.mem_cons.mp hb with rfl | hb
    · exact hfirst
    · rw [List.mem_singleton.mp hb]
      exact hsecond

/-- The second end of the empty list stands where the next pair is due. -/
theorem empty_list_shifts : ¬∀ (c : Client) (r : StoredRecord c),
    Dumped BinContent.Shown r.bins (binaryDumpRecords c (some r.record)) ∧
      Dumped BinContent.Shown r.bins (dumpCdtRecords c (some r.record)) := by
  intro h
  obtain ⟨-,hfine⟩ := (dumped_iff binaryWriter emptyAndSeven).mp (h plainClient emptyAndSeven).1
  exact hfine (textBytes "p",.integers []) List.mem_cons_self rfl

end Records

end AspikePort.PortDumps
