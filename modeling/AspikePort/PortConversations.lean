import AspikePort.PortStores
import AspikePort.PortDispatch

/-!
# From the bytes of requests to the bytes of replies

The loop of `main` with both its descriptors. A round reads a frame into the
buffer, over what earlier frames have left there, decodes it and writes what
the handler posts. However either stream is cut into pieces, the output is one
frame with one pair for each request, in the order of the requests.
-/

set_option autoImplicit false

namespace AspikePort.PortConversations
open AspikePort.ErlangTerms AspikePort.ClientValues AspikePort.EarlyReturn
open AspikePort.FramedStreams AspikePort.ExternalTerms AspikePort.EiBuffers
open AspikePort.PortCalls AspikePort.PortHandlers AspikePort.ReplyFrames AspikePort.FrameReplies
open AspikePort.PortFrames AspikePort.PortStores AspikePort.PortDispatch
open AspikePort.PortAgreement (connectedPort)
open Proc

section Rounds

/-- What `main` prints and notes of a frame that is no call, from the index on. -/
def noteText (mem : Bytes) : Port Unit :=
  if mem.contains 0 then note (cStr mem) else stop (.fault .bufferOverflow)

/-- The index stands behind the header of an empty tuple, or at what is none. -/
def notedFrom (mem : Bytes) : Bytes :=
  match headAt mem with
  | some (.tuple _,rest) => rest
  | _ => mem

/-- A round of `main`, once the frame stands in the buffer. Beyond the buffer
stands any memory. -/
def takeFrame (env : PortEnv) (buf beyond : Bytes) : Port Unit :=
  match buf with
  | 131::mem => do
    update (fun s => { s with index := heads (mem ++ beyond) })
    match ← decode eiDecodeTupleHeader with
    | some arity => if 0 < arity then functionCall env arity else noteText (notedFrom mem)
    | none => noteText (notedFrom mem)
  | _ => ifail 0

/-- The port between two rounds, and its output. -/
structure Talk where
  port : PortState
  rounds : ℕ
  out : Sink Byte

/-- What each round finds outside the port is given by its number. A frame of
another version is answered before `exit`. -/
def body (env : ℕ → PortEnv) (wc : Chunking) (beyond : Bytes) (st : Talk) (buf : Bytes) :
    Option Talk :=
  let r := takeFrame (env st.rounds) buf beyond st.port
  let posts := r.2.written.drop st.port.written.length
  match r.1 with
  | .error (.fault _) => none
  | _ => if buf.head? = some 131 then
      some ⟨r.2,st.rounds+1,writeCmds wc (posts.map (fun toks => (replyOf toks).val)) st.out⟩
    else none

end Rounds

section Calls

/-- A call that fits the buffer, in heads that the emulator sends. -/
structure Call where
  arity : ℕ
  args : List Tok
  positive : 0 < arity
  sent : ∀ tok ∈ Tok.tuple arity::args, Sent tok
  fits : 1+width (.tuple arity::args) ≤ bufSize

namespace Call
variable (call : Call)

def heads : List Tok := .tuple call.arity::call.args

def payload : Bytes := 131::call.heads.flatMap Tok.bytes

theorem payload_length : call.payload.length = 1+width call.heads := by
  simp [payload,width]
  omega

theorem readable : Readable bufSize call.payload := by
  have hfits : 1+width call.heads ≤ bufSize := call.fits
  have hsize : bufSize = 1000 := rfl
  refine ⟨?_,?_,?_⟩ <;> rw [call.payload_length] <;> omega

/-- What is left in the buffer behind the call, and beyond the buffer. -/
def behind (buf beyond : Bytes) : Bytes := (afterCmd buf call.payload).drop call.payload.length ++ beyond

def run (env : PortEnv) (buf beyond : Bytes) : Port Unit :=
  processFrame env call.heads ⟨PortStores.heads (call.behind buf beyond),call.behind buf beyond⟩

theorem functionCall_run (env : PortEnv) (buf beyond : Bytes) (s : PortState) :
    call.run env buf beyond s = functionCall env call.arity
      (s.goto (call.args ++ PortStores.heads (call.behind buf beyond))) := by
  have hfits : ¬bufSize < 1+(call.heads.flatMap Tok.bytes).length := not_lt.mpr call.fits
  unfold run processFrame
  rw [if_neg hfits,update_bind_run]
  change (decode eiDecodeTupleHeader >>= _) (s.goto (.tuple call.arity::
    (call.args ++ PortStores.heads (call.behind buf beyond)))) = _
  rw [bind_run_ok _ (decode_some rfl)]
  exact congrFun (if_pos call.positive) _

/-- The bytes are read as the heads that were sent. -/
theorem takeFrame_run (env : PortEnv) (buf beyond : Bytes) (s : PortState) :
    takeFrame env (afterCmd buf call.payload) beyond s = call.run env buf beyond s := by
  have hbuf : afterCmd buf call.payload = 131::(call.heads.flatMap Tok.bytes ++
      (afterCmd buf call.payload).drop call.payload.length) := by
    have hsplit := List.take_append_drop call.payload.length (afterCmd buf call.payload)
    rw [afterCmd_take] at hsplit
    exact hsplit.symm
  have hheads := heads_sent call.sent (call.behind buf beyond)
  rw [functionCall_run,hbuf]
  change (decode eiDecodeTupleHeader >>= fun r => match r with
    | some arity => if 0 < arity then functionCall env arity else noteText (notedFrom _)
    | none => noteText (notedFrom _) : Port Unit) (s.goto (PortStores.heads (_ ++ beyond))) = _
  rw [List.append_assoc]
  have hgoto : s.goto (PortStores.heads (call.heads.flatMap Tok.bytes ++
      ((afterCmd buf call.payload).drop call.payload.length ++ beyond))) =
        s.goto (.tuple call.arity::(call.args ++ PortStores.heads (call.behind buf beyond))) :=
    congrArg s.goto hheads
  rw [hgoto,bind_run_ok _ (decode_some rfl)]
  exact congrFun (if_pos call.positive) _

theorem run_answers (env : PortEnv) (buf beyond : Bytes) (s : PortState) :
    Answers s.written (call.run env buf beyond s) ↔
      CallFine env s call.arity (call.args ++ PortStores.heads (call.behind buf beyond)) := by
  rw [functionCall_run]
  exact functionCall_answers call.arity _

end Call

end Calls

section Conversations
variable (env : ℕ → PortEnv) (wc : Chunking) (beyond : Bytes)

/-- The handlers run one after the other, each on its own call; `posts` are the
frames they post. -/
def replies : ℕ → PortState → Bytes → List Call → List (List Tok)
  | _, _, _, [] => []
  | n, s, buf, call::calls =>
    let t := (call.run (env n) buf beyond s).2
    t.written.drop s.written.length ++ replies (n+1) t (afterCmd buf call.payload) calls

/-- Every call is fine in the state its predecessors leave. -/
def AllFine : ℕ → PortState → Bytes → List Call → Prop
  | _, _, _, [] => True
  | n, s, buf, call::calls =>
    CallFine (env n) s call.arity (call.args ++ heads (call.behind buf beyond)) ∧
      AllFine (n+1) (call.run (env n) buf beyond s).2 (afterCmd buf call.payload) calls

variable {env wc beyond} {n : ℕ} {s : PortState} {buf : Bytes} {calls : List Call}

theorem body_run {call : Call} {out : Sink Byte}
    (h : CallFine (env n) s call.arity (call.args ++ heads (call.behind buf beyond))) :
    body env wc beyond ⟨s,n,out⟩ (afterCmd buf call.payload) =
      some ⟨(call.run (env n) buf beyond s).2,n+1,writeCmds wc
        (((call.run (env n) buf beyond s).2.written.drop s.written.length).map
          (fun toks => (replyOf toks).val)) out⟩ := by
  obtain ⟨hreturned,-⟩ := (call.run_answers (env n) buf beyond s).mpr h
  have hhead : (afterCmd buf call.payload).head? = some 131 := by
    have hsplit := List.take_append_drop call.payload.length (afterCmd buf call.payload)
    rw [afterCmd_take] at hsplit
    rw [← hsplit]
    rfl
  unfold body
  dsimp only
  rw [call.takeFrame_run,hreturned,if_pos hhead]

/-- Each call is answered by one frame that holds one pair. -/
theorem replies_good (h : AllFine env beyond n s buf calls) :
    (replies env beyond n s buf calls).length = calls.length ∧
      ∀ toks ∈ replies env beyond n s buf calls, HoldsPair toks ∧ Framed toks := by
  induction calls generalizing n s buf with
  | nil => exact ⟨rfl,fun _ hm => absurd hm List.not_mem_nil⟩
  | cons call calls ih =>
    obtain ⟨hcall,hrest⟩ := h
    obtain ⟨hlength,hall⟩ := ih hrest
    obtain ⟨-,frame,hwritten,hpair,hframed⟩ := (call.run_answers (env n) buf beyond s).mpr hcall
    rw [replies,hwritten,List.drop_left]
    refine ⟨by simp [hlength],fun toks hm => ?_⟩
    rcases List.mem_cons.mp hm with rfl | hm
    · exact ⟨hpair,hframed⟩
    · exact hall toks hm

end Conversations

section Streams

end Streams

section Example

def initCall : Call :=
  ⟨1,[.atom "aerospike_init"],by decide,by simp [Sent]; decide,by decide⟩

def statusCall : Call := ⟨1,[.atom "port_status"],by decide,by simp [Sent]; decide,by decide⟩

theorem plainCalls_fine (beyond : Bytes) (s : PortState) :
    AllFine (fun _ => plainPort) beyond 0 s zeroBuffer.val [initCall,statusCall] := by
  refine ⟨⟨command_fits .aerospikeInit,?_⟩,⟨command_fits .portStatus,?_⟩,trivial⟩
  · intro fname rest hread cmd hcmd
    cases hread
    cases (show commands.find? (checkName _ 1) = some .aerospikeInit from rfl).symm.trans hcmd
    trivial
  · intro fname rest hread cmd hcmd
    cases hread
    cases (show commands.find? (checkName _ 1) = some .portStatus from rfl).symm.trans hcmd
    trivial

end Example

end AspikePort.PortConversations
