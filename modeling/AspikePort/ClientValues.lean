import AspikePort.ErlangTerms

/-!
# Values and requests of the database client

The client library is not part of the repository. Its values are trees tagged
by type, its requests are the data a call hands over, and everything else the
code relies on (which bin names it takes, how it prints a value) is a
parameter.
-/

set_option autoImplicit false

namespace AspikePort.ClientValues
open AspikePort.ErlangTerms

inductive AsType where
  | nil | boolean | integer | string | list | map | bytes | double | geojson
  deriving DecidableEq, Repr

def AsType.code : AsType → ℕ
  | .nil => 1
  | .boolean => 2
  | .integer => 3
  | .string => 4
  | .list => 5
  | .map => 6
  | .bytes => 9
  | .double => 10
  | .geojson => 11

inductive AsVal where
  | nil
  | boolean (value : Bool)
  | integer (value : ℤ)
  | string (value : Bytes)
  | list (elements : List AsVal)
  | map (entries : List (AsVal × AsVal))
  | bytes (value : Bytes)
  | double (bits : ℕ)
  | geojson (value : Bytes)

def AsVal.type : AsVal → AsType
  | .nil => .nil
  | .boolean _ => .boolean
  | .integer _ => .integer
  | .string _ => .string
  | .list _ => .list
  | .map _ => .map
  | .bytes _ => .bytes
  | .double _ => .double
  | .geojson _ => .geojson

structure Host where
  name : String
  tlsName : String
  port : ℕ
  deriving DecidableEq, Repr

structure Config where
  hosts : List Host
  user : Bytes × Bytes
  minConnsPerNode : UInt32
  maxConnsPerNode : UInt32
  asyncMinConnsPerNode : UInt32
  asyncMaxConnsPerNode : UInt32
  batchWriteTtl : UInt32

/-- Ends of a call that are no answer at all: the program reads a value through
the wrong variant, fails an assertion, stores beyond the end of an array, lets
an exception escape, or goes on with a variable that an unchecked call did not
set. -/
inductive Fault where
  | wrongVariant
  | failedAssertion
  | nullPointer
  | uncheckedAccess
  | bufferOverflow
  | uncaughtException
  | divisionByZero
  | outOfFuel
  deriving DecidableEq, Repr

/-- What the code uses of the client and cannot change. -/
structure Client where
  takesBin : Bytes → Bool
  tostring : AsVal → String
  textOf : Bytes → String
  configInit : Config
  aerospikeErr : ℤ

/-- A client that prints nothing and takes the names the server allows. -/
def plainClient : Client :=
  ⟨fun name => name.length ≤ 15,fun _ => "",fun _ => "",⟨[],([],[]),0,0,0,0,0⟩,-1⟩

def aerospikeOk : ℤ := 0
def aerospikeErrClient : ℤ := -1
def aerospikeErrNoMoreConnections : ℤ := -7

def recordNoChangeTtl : UInt32 := UInt32.ofInt (-2)
def recordClientDefaultTtl : UInt32 := UInt32.ofInt (-3)

/-- The keys of the map that stands under one first-level key. -/
def valueKey : Bytes := textBytes "value"
def ttlKey : Bytes := textBytes "ttl"
def wtKey : Bytes := textBytes "wt"

structure AsKey where
  nameSpace : Bytes
  set : Bytes
  value : Bytes
  deriving DecidableEq, Repr

/-- `as_key_init_str` takes zero-terminated strings. -/
def asKeyInitStr (nameSpace set key : Bytes) : AsKey := ⟨cStr nameSpace,cStr set,cStr key⟩

inductive Operation where
  | mapPut (bin : Bytes) (context : List Bytes) (key : Bytes) (value : AsVal)
  | mapRemoveByKeyList (bin : Bytes) (keys : List Bytes)
  | incr (bin : Bytes) (value : ℤ)

def Operation.bin : Operation → Bytes
  | .mapPut bin _ _ _ => bin
  | .mapRemoveByKeyList bin _ => bin
  | .incr bin _ => bin

structure Operations where
  ttl : UInt32
  entries : List Operation

/-- An operation is serialised when it is added; one on a bin name the client
does not take is refused, and no caller looks at the result. -/
def Operations.add (c : Client) (ops : Operations) (op : Operation) : Operations :=
  if c.takesBin op.bin then { ops with entries := ops.entries ++ [op] } else ops

/-- `none` in a field: the client's own default stays in force. -/
structure Policy where
  maxRetries : UInt32
  sleepBetweenRetries : Option UInt32
  socketTimeout : UInt32
  totalTimeout : UInt32
  deriving DecidableEq, Repr

structure PolicyOperate where
  base : Policy
  ttl : UInt32
  deriving DecidableEq, Repr

/-- A record object under construction: `as_record_inita` fixes the number of
its bins. -/
structure PutRecord where
  capacity : ℕ
  ttl : UInt32
  bins : List (Bytes × AsVal)

def PutRecord.set (c : Client) (rec : PutRecord) (name : Bytes) (v : AsVal) : Option PutRecord :=
  if ¬c.takesBin name then none
  else if name ∈ rec.bins.map Prod.fst then
    some { rec with bins := rec.bins.map (fun b => if b.1 = name then (name,v) else b) }
  else if rec.bins.length < rec.capacity then
    some { rec with bins := rec.bins ++ [(name,v)] }
  else none

structure BatchWrite where
  key : AsKey
  ops : Operations

inductive Request where
  | keyGet (key : AsKey) (policy : Option Policy)
  | keySelect (key : AsKey) (bins : List Bytes)
  | keyExists (key : AsKey)
  | keyRemove (key : AsKey)
  | keyPut (key : AsKey) (rec : PutRecord)
  | keyOperate (key : AsKey) (ops : Operations) (policy : Option PolicyOperate)
  | batchWrite (records : List BatchWrite)

/-- A stored record as the client delivers it: `key` is set only when the key
itself was stored with the record. -/
structure Record where
  key : Option AsVal
  gen : ℕ
  ttl : ℕ
  bins : List (Bytes × AsVal)

/-- `as_record_get` looks a bin up by its zero-terminated name. -/
def Record.get (rec : Record) (name : Bytes) : Option AsVal :=
  (rec.bins.find? (fun b => b.1 = name)).map Prod.snd

/-- `resultOf i` is the result field of the i-th record of a batch. -/
structure Response where
  status : ℤ
  errCode : ℤ
  message : String
  record : Option Record
  resultOf : ℕ → ℤ

end AspikePort.ClientValues
