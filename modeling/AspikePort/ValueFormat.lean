import AspikePort.ClientValues
import AspikePort.FallibleLoops

/-!
# Turning stored values into terms

`formatValueOut` reads a bin value by its type tag. Every read through a union
member, a cast or an asserted conversion is explicit, so that a value of
another shape ends in a fault and not in some term.
-/

set_option autoImplicit false

namespace AspikePort.ValueFormat
open AspikePort.ErlangTerms AspikePort.ClientValues AspikePort.FallibleLoops

section Readers

def asInteger : AsVal → Except Fault ℤ
  | .integer i => .ok i
  | _ => .error .wrongVariant

def asString : AsVal → Except Fault Bytes
  | .string s => .ok s
  | _ => .error .wrongVariant

def asBytes : AsVal → Except Fault Bytes
  | .bytes b => .ok b
  | _ => .error .wrongVariant

def asList : AsVal → Except Fault (List AsVal)
  | .list xs => .ok xs
  | _ => .error .wrongVariant

def asMap : AsVal → Except Fault (List (AsVal × AsVal))
  | .map es => .ok es
  | _ => .error .wrongVariant

/-- `as_integer_fromval` answers NULL for a value of another type, and the
caller asserts that it does not. -/
def integerFromval : AsVal → Except Fault ℤ
  | .integer i => .ok i
  | _ => .error .failedAssertion

end Readers

/-- Checks the type itself: whatever is neither text nor bytes is empty. -/
def getBinaryFromAsval : AsVal → Bytes
  | .string s => s
  | .bytes b => b
  | _ => []

structure Fields where
  vnt : Term := atomUndefined
  ttlsm : ℤ := 0
  writetime : ℤ := 0
  fccount : ℕ := 0

def Fields.setInteger (f : Fields) (smkey : Bytes) (i : ℤ) : Fields :=
  if cStr smkey = ttlKey then { f with ttlsm := i, fccount := f.fccount+1 }
  else if cStr smkey = wtKey then { f with writetime := i, fccount := f.fccount+1 }
  else { f with fccount := f.fccount+1 }

def readField (f : Fields) (pair : AsVal × AsVal) : Except Fault Fields :=
  if pair.2.type.code = 9 then
    .ok { f with vnt := .binary (getBinaryFromAsval pair.2), fccount := f.fccount+1 }
  else if pair.2.type.code = 3 then do
    -- the key is cast without a look at its own type
    let smkey ← asString pair.1
    let i ← asInteger pair.2
    return f.setInteger smkey i
  else if pair.2.type.code = 4 then
    .ok { f with vnt := .binary (getBinaryFromAsval pair.2), fccount := f.fccount+1 }
  else .ok f

def Fields.term (f : Fields) : Term := makeTuple3 f.vnt (.integer f.ttlsm) (.integer f.writetime)

def formatEntry (c : Client) (erlList : List Term) (pair : AsVal × AsVal) :
    Except Fault (List Term) := do
  let erlList := erlList ++ [.binary (getBinaryFromAsval pair.1)]
  match pair.2 with
  | .map vmap => do
    let f ← vmap.foldlM readField {}
    return if f.fccount = 2 ∨ f.fccount = 3 then erlList ++ [f.term] else erlList
  | mapValue => return erlList ++ [makeString (c.tostring mapValue)]

def formatValueOut (c : Client) (val : AsVal) : Except Fault Term :=
  match val.type with
  | .integer => do return .integer (← asInteger val)
  -- one case for both tags, and it reads the `bytes` member
  | .string | .bytes => do return .binary (← asBytes val)
  | .list => do
    let erlList ← (← asList val).mapM integerFromval
    return ofList (erlList.map .integer)
  | .map => do
    let erlList ← (← asMap val).foldlM (formatEntry c) []
    return ofList erlList
  | _ => return makeString (c.tostring val)

def dumpWith (c : Client) (text : String → Term) (name : Bytes → Term) (rec : Record) :
    Except Fault Term :=
  match rec.key with
  | some key => .ok (text (c.tostring key))
  | none => rec.bins.foldlM (fun res bin => do
      let value ← formatValueOut c bin.2
      return .cons (makeTuple2 (name bin.1) value) res) .nil

def dumpRecords (c : Client) : Record → Except Fault Term :=
  dumpWith c makeString (fun name => makeString (c.textOf name))

def dumpBinaryRecords (c : Client) : Record → Except Fault Term :=
  dumpWith c (fun s => .binary (textBytes s)) .binary

def dumpCdtRecords (c : Client) : Record → Except Fault Term :=
  dumpWith c (fun s => .binary (textBytes s)) .binary

end AspikePort.ValueFormat
