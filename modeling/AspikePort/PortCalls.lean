import AspikePort.EarlyReturn
import AspikePort.PortDumps

/-!
# Calls of the port

A call reads its arguments head by head behind the index and collects its reply
in a buffer. What stands behind the end of the request is left over from
earlier frames. Each way out of a call is a `POST`, which writes the buffer as
one frame.
-/

set_option autoImplicit false

namespace AspikePort.PortCalls
open AspikePort.ErlangTerms AspikePort.ClientValues AspikePort.EarlyReturn
open AspikePort.ExternalTerms AspikePort.EiBuffers Proc

structure PortState where
  isAerospikeInitialised : Bool
  isConnected : Bool
  config : Config
  submitted : List Request
  /-- The heads from `*index` on, as far as they can be read. -/
  index : List Tok
  resBuf : List Tok
  written : List (List Tok)

inductive Leave where
  | returned
  | fault (f : Fault)

abbrev Port (α : Type) := Proc PortState Leave α

section Macros

def put (toks : List Tok) : Port Unit := update (fun s => { s with resBuf := s.resBuf ++ toks })

def preMacro : Port Unit := update (fun s => { s with resBuf := eiXEncodeTupleHeader 2 })

def okMacro (msg : Bytes) : Port Unit := put (eiXEncodeAtom "ok" ++ eiXEncodeString msg)

def errorMacro (msg : Bytes) : Port Unit := put (eiXEncodeAtom "error" ++ eiXEncodeString msg)

/-- Writes the buffer and leaves the call. -/
def postMacro {α : Type} : Port α := do
  update (fun s => { s with written := s.written ++ [s.resBuf] })
  stop .returned

def stopError {α : Type} (msg : String) : Port α := do
  errorMacro (textBytes msg)
  postMacro

def checkAerospikeInit : Port Unit := do
  let s ← state
  if s.isAerospikeInitialised then pure () else stopError "aerospike is not initialise"

def checkIsConnected : Port Unit := do
  let s ← state
  if s.isConnected then pure () else stopError "not connected"

def checkAll : Port Unit := do
  checkAerospikeInit
  checkIsConnected

end Macros

section Arguments
variable {α : Type}

def getType : Port (ErlType × ℕ) := fun s => (.ok (eiGetType s.index),s)

/-- A decoder that fails leaves the index where it was. -/
def decode (f : List Tok → Option (α × List Tok)) : Port (Option α) := fun s =>
  match f s.index with
  | some (a,rest) => (.ok (some a),{ s with index := rest })
  | none => (.ok none,s)

def orStop (msg : String) : Option α → Port α
  | some a => pure a
  | none => stopError msg

def required (f : List Tok → Option (α × List Tok)) (msg : String) : Port α := do
  orStop msg (← decode f)

/-- A binary, read into an array of its own size. -/
def binaryArg (sizeMsg msg : String) : Port Bytes := do
  let (termType,_) ← getType
  if termType ≠ .binary then stopError sizeMsg
  else required eiDecodeBinary msg

/-- A text, read into an array of the given size. -/
def decodeStringInto (size : ℕ) : Port (Option Bytes) := fun s =>
  if size < (eiDecodeString s.index).1 then (.error (.fault .bufferOverflow),s)
  else
    match (eiDecodeString s.index).2 with
    | some (chars,rest) => (.ok (some chars),{ s with index := rest })
    | none => (.ok none,s)

end Arguments

def submit (respond : List Request → Response) (req : Request) : Port Response := do
  update (fun s => { s with submitted := s.submitted ++ [req] })
  let s ← state
  return respond s.submitted

section Runs
variable {α β : Type} {s : PortState}

def PortState.goto (s : PortState) (toks : List Tok) : PortState := { s with index := toks }

@[simp] theorem goto_index (toks : List Tok) : (s.goto toks).index = toks := rfl

/-- A new reply has been begun. -/
def PortState.fresh (s : PortState) : PortState := { s with resBuf := eiXEncodeTupleHeader 2 }

theorem preMacro_bind_run (f : Unit → Port β) (toks : List Tok) :
    (preMacro >>= f) (s.goto toks) = f () (s.fresh.goto toks) := rfl

theorem decode_some {f : List Tok → Option (α × List Tok)} {toks rest : List Tok} {a : α}
    (h : f toks = some (a,rest)) : decode f (s.goto toks) = (.ok (some a),s.goto rest) := by
  show (match f toks with | some (a,rest) => _ | none => _) = _
  rw [h]
  rfl

theorem decode_none {f : List Tok → Option (α × List Tok)} {toks : List Tok}
    (h : f toks = none) : decode f (s.goto toks) = (.ok none,s.goto toks) := by
  show (match f toks with | some (a,rest) => _ | none => _) = _
  rw [h]

theorem getType_run (toks : List Tok) :
    getType (s.goto toks) = (.ok (eiGetType toks),s.goto toks) := rfl

theorem required_some {f : List Tok → Option (α × List Tok)} {toks rest : List Tok} {a : α}
    (msg : String) (h : f toks = some (a,rest)) :
    required f msg (s.goto toks) = (.ok a,s.goto rest) := by
  unfold required
  rw [bind_run_ok _ (decode_some h)]
  rfl

theorem required_none {f : List Tok → Option (α × List Tok)} {toks : List Tok}
    (msg : String) (h : f toks = none) :
    required f msg (s.goto toks) = (stopError msg : Port α) (s.goto toks) := by
  unfold required
  rw [bind_run_ok _ (decode_none h)]
  rfl

theorem binaryArg_run (sizeMsg msg : String) (data : Bytes) (rest : List Tok) :
    binaryArg sizeMsg msg (s.goto (.binary data::rest)) = (.ok data,s.goto rest) := by
  unfold binaryArg
  rw [bind_run_ok _ (getType_run _)]
  exact required_some msg rfl

theorem stopError_run (msg : String) : (stopError msg : Port α) s = (.error .returned,
    { s with
      resBuf := s.resBuf ++ (eiXEncodeAtom "error" ++ eiXEncodeString (textBytes msg))
      written := s.written ++
        [s.resBuf ++ (eiXEncodeAtom "error" ++ eiXEncodeString (textBytes msg))] }) := rfl

theorem checkAll_run (hinit : s.isAerospikeInitialised = true) (hconn : s.isConnected = true) :
    checkAll s = (.ok (),s) := by
  have hfirst : checkAerospikeInit s = (.ok (),s) := by
    unfold checkAerospikeInit
    rw [state_bind_run,if_pos hinit]
    rfl
  have hsecond : checkIsConnected s = (.ok (),s) := by
    unfold checkIsConnected
    rw [state_bind_run,if_pos hconn]
    rfl
  unfold checkAll
  rw [bind_run_ok _ hfirst,hsecond]

end Runs

end AspikePort.PortCalls
