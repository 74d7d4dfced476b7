import AspikePort.CharListStores
import AspikePort.KeyAgreement
import AspikePort.PortReads

/-!
# The calls that ask the nodes

`node_random`, `node_get`, `node_info`, `host_info` and `help` of both halves.
Natively an answer is read as UTF-8. Over the port it arrives byte by byte, and
that of `node_info` and of `host_info` in a list.
-/

set_option autoImplicit false

namespace AspikePort.InfoCalls
open AspikePort.ErlangTerms AspikePort.ClientValues AspikePort.EarlyReturn AspikePort.NifWorld
open AspikePort.SyncCalls AspikePort.CharListStores AspikePort.BinaryBins AspikePort.KeptTexts
open AspikePort.ExternalTerms AspikePort.EiBuffers AspikePort.PortDumps
open AspikePort.PortCalls AspikePort.PortHandlers AspikePort.KeyLedger AspikePort.KeyAgreement
open AspikePort.PortReads
open Proc

section Native

/-- What the client says of the cluster and of a host. -/
structure ClusterInfo where
  nodeNameMaxSize : ℕ
  nodes : List Node
  randomNode : Option Node
  infoCommandNode : Node → Bytes → Except ErrReport (Option Bytes)
  lookupHost : Bytes → ℤ → Except ErrReport (List ℕ)
  infoCommandHost : ℕ → Bytes → ℤ × Option Bytes
  infoAny : Bytes → Except ErrReport (Option Bytes)

variable (c : Client) (info : ClusterInfo)

def asNodeGetByName (name : Bytes) : Option Node := info.nodes.find? (fun node => node.name = name)

def addressReply : Option Node → Nif Term
  | none => return errorString "Failed to find server node."
  | some node => return okString (c.textOf node.address)

def nodeRandom : Nif Term := do
  isConnected
  touchClient
  addressReply c info.randomNode

def nodeGet (nodeName : Term) : Nif Term :=
  nodeGetWith plainReader ⟨info.nodeNameMaxSize,
    fun name => (asNodeGetByName info name).map (fun node => c.textOf node.address)⟩ nodeName

/-- What the three info commands make of an answer. -/
def nifInfoReply : Except ErrReport (Option Bytes) → Nif Term
  | .error err => return errorString err.text
  | .ok none => return errorString "no data"
  | .ok (some info) => return okString (c.textOf info)

/-- Items are read with the size of a user name into an array of 1024 bytes. -/
def nodeInfo (nodeName item : Term) : Nif Term := do
  let nodeName ← lift (textInto plainReader asUserSize info.nodeNameMaxSize nodeName)
  let item ← lift (textInto plainReader asUserSize maxItemSize item)
  isConnected
  touchClient
  match asNodeGetByName info (cStr nodeName) with
  | none => return errorString "Failed to find server node."
  | some node => nifInfoReply c (info.infoCommandNode node (cStr item))

def help (item : Term) : Nif Term := do
  let item ← lift (textInto plainReader asUserSize maxItemSize item)
  isConnected
  touchClient
  nifInfoReply c (info.infoAny (cStr item))

def hostInfo (hostname port item : Term) : Nif Term := do
  let hostname ← lift (textInto plainReader asUserSize info.nodeNameMaxSize hostname)
  let port ← lift (orBadarg (getLong port))
  let item ← lift (textInto plainReader asUserSize maxItemSize item)
  isConnected
  match info.lookupHost (cStr hostname) port with
  | .error err => return errorString err.text
  | .ok iter => do
    touchClient
    nifInfoReply c (.ok (askAddresses (info.infoCommandHost · (cStr item)) iter none))

end Native

section Answers

/-- A text of the client, or an error. -/
abbrev Answer := Except String Bytes

def foundAddress : Option Node → Answer
  | none => .error "Failed to find server node."
  | some node => .ok node.address

def told : Except ErrReport (Option Bytes) → Answer
  | .error err => .error err.text
  | .ok none => .error "no data"
  | .ok (some info) => .ok info

inductive InfoOp where
  | nodeRandom
  | nodeGet (nodeName : CharText asUserSize)
  | nodeInfo (nodeName item : CharText asUserSize)
  | hostInfo (hostname : CharText asUserSize) (port : {port : ℤ // Int64 port})
      (item : CharText asUserSize)
  | help (item : CharText asUserSize)

namespace InfoOp

def native (c : Client) (info : ClusterInfo) : InfoOp → Nif Term
  | nodeRandom => InfoCalls.nodeRandom c info
  | nodeGet name => InfoCalls.nodeGet c info name.term
  | nodeInfo name item => InfoCalls.nodeInfo c info name.term item.term
  | hostInfo host port item => InfoCalls.hostInfo c info host.term (.integer port.val) item.term
  | help item => InfoCalls.help c info item.term

def port (env : PortEnv) : InfoOp → Port Unit
  | nodeRandom => callNodeRandom env
  | nodeGet _ => callNodeGet env
  | nodeInfo _ _ => callNodeInfo env
  | hostInfo _ _ _ => callHostInfo env
  | help _ => callHelp env

def args : InfoOp → List Tok
  | nodeRandom => []
  | nodeGet name => textToks name.text
  | nodeInfo name item => textToks name.text ++ textToks item.text
  | hostInfo host port item => textToks host.text ++ (integerToks port.val ++ textToks item.text)
  | help item => textToks item.text

def texts : InfoOp → List String
  | nodeRandom => []
  | nodeGet name => [name.text]
  | nodeInfo name item => [name.text,item.text]
  | hostInfo host _ item => [host.text,item.text]
  | help item => [item.text]

/-- The name has room in the array for it. -/
def Fits (room : ℕ) : InfoOp → Prop
  | nodeGet name => name.data.length < room
  | nodeInfo name _ => name.data.length < room
  | hostInfo host _ _ => host.data.length < room
  | _ => True

/-- The port puts the answer of these into a list. -/
def listed : InfoOp → Bool
  | nodeInfo _ _ => true
  | hostInfo _ _ _ => true
  | _ => false

/-- What there is to answer. -/
def answer (info : ClusterInfo) : InfoOp → Answer
  | nodeRandom => foundAddress info.randomNode
  | nodeGet name => foundAddress (asNodeGetByName info name.data)
  | nodeInfo name item =>
    match asNodeGetByName info name.data with
    | none => .error "Failed to find server node."
    | some node => told (info.infoCommandNode node item.data)
  | hostInfo host port item =>
    match info.lookupHost host.data port.val with
    | .error err => .error err.text
    | .ok iter => told (.ok (askAddresses (info.infoCommandHost · item.data) iter none))
  | help item => told (info.infoAny item.data)

end InfoOp

/-- The client has answered, has given up, or says that an index is there or is
not there. -/
def Ending (status : ℤ) : Prop :=
  status = aerospikeOk ∨ status = 9 ∨ status = 200 ∨ status = 201

/-- The addresses are asked in turn until the status of one ends the lookup, and
the last text that they have given is found. -/
def LookedUp (ask : ℕ → ℤ × Option Bytes) (iter : List ℕ) (found : Option Bytes) : Prop :=
  ∃ asked left, iter = asked ++ left ∧ (∀ addr ∈ asked.dropLast, ¬Ending (ask addr).1) ∧
    (left = [] ∨ ∃ addr, asked.getLast? = some addr ∧ Ending (ask addr).1) ∧
    found = (asked.filterMap (fun addr => (ask addr).2)).getLast?

theorem endsLookup_iff (status : ℤ) : endsLookup status = true ↔ Ending status := by
  simp [endsLookup,Ending]

/-- What has been found before is kept until an address gives a text. -/
theorem last_text (ask : ℕ → ℤ × Option Bytes) (addr : ℕ) (asked : List ℕ) (info : Option Bytes) :
    (asked.filterMap (fun addr => (ask addr).2)).getLast?.or ((ask addr).2.or info) =
      ((addr::asked).filterMap (fun addr => (ask addr).2)).getLast?.or info := by
  cases htext : (ask addr).2 with
  | none => simp [htext]
  | some text =>
    simp only [List.filterMap_cons,htext,List.getLast?_cons,Option.some_or]
    cases (asked.filterMap (fun addr => (ask addr).2)).getLast? <;> rfl

theorem askAddresses_asked (ask : ℕ → ℤ × Option Bytes) (iter : List ℕ) (info : Option Bytes) :
    ∃ asked left, iter = asked ++ left ∧ (∀ addr ∈ asked.dropLast, ¬Ending (ask addr).1) ∧
      (left = [] ∨ ∃ addr, asked.getLast? = some addr ∧ Ending (ask addr).1) ∧
      askAddresses ask iter info =
        (asked.filterMap (fun addr => (ask addr).2)).getLast?.or info := by
  induction iter generalizing info with
  | nil => exact ⟨[],[],rfl,nofun,Or.inl rfl,rfl⟩
  | cons addr iter ih =>
    rw [askAddresses]
    by_cases hend : endsLookup (ask addr).1 = true
    · rw [if_pos hend]
      refine ⟨[addr],iter,rfl,nofun,Or.inr ⟨addr,rfl,(endsLookup_iff _).mp hend⟩,?_⟩
      exact last_text ask addr [] info
    · rw [if_neg hend]
      obtain ⟨asked,left,rfl,hgo,hlast,hfound⟩ := ih ((ask addr).2.or info)
      rw [hfound,last_text]
      have hnot : ¬Ending (ask addr).1 := fun h => hend ((endsLookup_iff _).mpr h)
      cases asked with
      | nil =>
        -- nobody is left to be asked, for an address that was asked would be the last
        obtain rfl : left = [] := hlast.resolve_right (by simp)
        exact ⟨[addr],[],rfl,nofun,Or.inl rfl,rfl⟩
      | cons next asked =>
        refine ⟨addr::next::asked,left,rfl,List.forall_mem_cons.mpr ⟨hnot,hgo⟩,?_,rfl⟩
        rwa [List.getLast?_cons_cons]

theorem askAddresses_found (ask : ℕ → ℤ × Option Bytes) (iter : List ℕ) :
    LookedUp ask iter (askAddresses ask iter none) := by
  obtain ⟨asked,left,hiter,hgo,hlast,hfound⟩ := askAddresses_asked ask iter none
  exact ⟨asked,left,hiter,hgo,hlast,hfound.trans (Option.or_none ..)⟩

/-- The answer to the question; that of a host comes from its addresses. -/
def InfoOp.Answered (info : ClusterInfo) : InfoOp → Answer → Prop
  | hostInfo host port item, answer =>
    match info.lookupHost host.data port.val with
    | .error err => answer = .error err.text
    | .ok iter => ∃ found, LookedUp (info.infoCommandHost · item.data) iter found ∧
        answer = told (.ok found)
  | op, answer => answer = op.answer info

theorem InfoOp.answered (info : ClusterInfo) (op : InfoOp) : op.Answered info (op.answer info) := by
  cases op with
  | hostInfo host port item =>
    cases hlookup : info.lookupHost host.data port.val with
    | error err => simp only [InfoOp.Answered,InfoOp.answer,hlookup]
    | ok iter =>
      simp only [InfoOp.Answered,InfoOp.answer,hlookup]
      exact ⟨_,askAddresses_found _ iter,rfl⟩
  | _ => rfl

end Answers

section NativeRuns
variable {c : Client} {info : ClusterInfo} {w : World}

def nativeTerm (c : Client) : Answer → Term
  | .ok data => okString (c.textOf data)
  | .error msg => errorString msg

theorem addressReply_run (node : Option Node) :
    (addressReply c node w).1 = .ok (nativeTerm c (foundAddress node)) := by
  cases node <;> rfl

theorem nifInfoReply_run (answer : Except ErrReport (Option Bytes)) :
    (nifInfoReply c answer w).1 = .ok (nativeTerm c (told answer)) := by
  rcases answer with err | _ | data <;> rfl

theorem text_read (n : CharText asUserSize) {room : ℕ} (h : n.data.length < room) :
    textInto plainReader asUserSize room n.term = .ok n.data := by
  rw [textInto_plain,n.read le_rfl]
  exact if_pos h

theorem item_read (n : CharText asUserSize) :
    textInto plainReader asUserSize maxItemSize n.term = .ok n.data :=
  text_read n (lt_trans n.short (by decide))

theorem touch_bind_run {α : Type} (f : Unit → Nif α) : (touchClient >>= f) w =
    f () { w with accesses := w.accesses ++ [w.clientLive] } := rfl

theorem native_answers (hw : w.isConnectedFlag = true) {op : InfoOp}
    (hfits : op.Fits info.nodeNameMaxSize) :
    (op.native c info w).1 = .ok (nativeTerm c (op.answer info)) := by
  cases op with
  | nodeRandom =>
    rw [InfoOp.native,nodeRandom,isConnected_bind_run _ hw,touch_bind_run]
    exact addressReply_run _
  | nodeGet name =>
    rw [InfoOp.native,nodeGet,nodeGetWith,text_read name hfits,lift_ok_bind_run,
      isConnected_bind_run _ hw,touch_bind_run,name.cStr_eq,InfoOp.answer]
    dsimp only
    cases asNodeGetByName info name.data <;> rfl
  | nodeInfo name item =>
    rw [InfoOp.native,nodeInfo,text_read name hfits,lift_ok_bind_run,item_read,lift_ok_bind_run,
      isConnected_bind_run _ hw,touch_bind_run,name.cStr_eq,item.cStr_eq,InfoOp.answer]
    cases asNodeGetByName info name.data with
    | none => rfl
    | some node => exact nifInfoReply_run _
  | hostInfo host port item =>
    have hport : getLong (.integer port.val) = some port.val := if_pos port.property
    rw [InfoOp.native,hostInfo,text_read host hfits,lift_ok_bind_run,hport,orBadarg_some,
      lift_ok_bind_run,item_read,lift_ok_bind_run,isConnected_bind_run _ hw,host.cStr_eq,
      item.cStr_eq,InfoOp.answer]
    cases info.lookupHost host.data port.val with
    | error err => rfl
    | ok iter => exact nifInfoReply_run _
  | help item =>
    rw [InfoOp.native,help,item_read,lift_ok_bind_run,isConnected_bind_run _ hw,touch_bind_run,
      item.cStr_eq]
    exact nifInfoReply_run _

end NativeRuns

section PortRuns
variable {env : PortEnv} {s : PortState} {t : Term} {rest : List Tok}

/-- The client is the same for both halves. -/
def clusterInfo (env : PortEnv) : ClusterInfo :=
  ⟨env.nodeNameMaxSize,env.cluster.nodes,env.randomNode,env.infoCommandNode,env.lookupHost,
    env.infoCommandHost,env.infoAny⟩

def textOut (listed : Bool) (data : Bytes) : List Tok :=
  if listed then infoListOut data else eiXEncodeString data

def answerToks (listed : Bool) : Answer → List Tok
  | .ok data => eiXEncodeAtom "ok" ++ textOut listed data
  | .error msg => eiXEncodeAtom "error" ++ eiXEncodeString (textBytes msg)

/-- The reply that has been begun is posted with the answer. -/
def Posts (p : Port Unit) (s : PortState) (listed : Bool) (answer : Answer) : Prop :=
  (p s).2.written = s.written ++ [s.resBuf ++ answerToks listed answer]

theorem found_posts (node : Option Node) : Posts (match node with
    | none => stopError "Failed to find server node."
    | some node => do
      okMacro node.address
      postMacro) s false (foundAddress node) := by
  cases node <;> rfl

theorem told_posts (answer : Except ErrReport (Option Bytes)) (listed : Bool) :
    Posts (infoReply (textOut listed) answer) s listed (told answer) := by
  rcases answer with err | _ | data <;> rfl

theorem data_wire {n : CharText asUserSize} (h : Ascii n.text) : wireBytes n.text = n.data :=
  ((wire_eq_iff n.text).mpr h).symm

theorem text_arg {n : CharText asUserSize} (h : Ascii n.text) {size : ℕ}
    (hsize : n.data.length < size) (msg : String) (rest : List Tok) :
    textArg size msg (s.goto (textToks n.text ++ rest)) = (.ok n.data,s.goto rest) := by
  have hlong : n.data.length ≤ 65535 := le_of_lt (lt_trans n.short (by decide))
  rw [← data_wire h] at hsize hlong ⊢
  exact textArg_run (ascii_latin1 h) hsize hlong msg rest

theorem item_arg {n : CharText asUserSize} (h : Ascii n.text) (msg : String) (rest : List Tok) :
    textArg maxItemSize msg (s.goto (textToks n.text ++ rest)) = (.ok n.data,s.goto rest) :=
  text_arg h (lt_trans n.short (by decide)) msg rest

variable (hinit : s.isAerospikeInitialised = true) (hconn : s.isConnected = true)
include hinit hconn

theorem port_answers {op : InfoOp} (hfits : op.Fits env.nodeNameMaxSize)
    (htexts : ∀ n ∈ op.texts, Ascii n) :
    (op.port env (s.goto (op.args ++ rest))).2.written = s.written ++
      [eiXEncodeTupleHeader 2 ++ answerToks op.listed (op.answer (clusterInfo env))] := by
  have hchecked := checkAll_run (s := s.fresh.goto rest) hinit hconn
  cases op with
  | nodeRandom =>
    rw [InfoOp.port,callNodeRandom,InfoOp.args,List.nil_append,preMacro_bind_run,
      bind_run_ok _ hchecked]
    exact found_posts env.randomNode
  | nodeGet name =>
    obtain ⟨hname,-⟩ := List.forall_mem_cons.mp htexts
    rw [InfoOp.port,callNodeGet,InfoOp.args,preMacro_bind_run,
      bind_run_ok _ (text_arg hname hfits _ _),bind_run_ok _ hchecked,nodeByName,name.cStr_eq]
    exact found_posts _
  | nodeInfo name item =>
    obtain ⟨hname,hrest⟩ := List.forall_mem_cons.mp htexts
    obtain ⟨hitem,-⟩ := List.forall_mem_cons.mp hrest
    rw [InfoOp.port,callNodeInfo,InfoOp.args,List.append_assoc,preMacro_bind_run,
      bind_run_ok _ (text_arg hname hfits _ _),bind_run_ok _ (item_arg hitem _ _),
      bind_run_ok _ hchecked,nodeByName,name.cStr_eq,item.cStr_eq,InfoOp.answer]
    have hnode : asNodeGetByName (clusterInfo env) name.data =
        env.cluster.nodes.find? (fun node => node.name = name.data) := rfl
    rw [hnode]
    cases env.cluster.nodes.find? (fun node => node.name = name.data) with
    | none => rfl
    | some node => exact told_posts _ true
  | hostInfo host port item =>
    obtain ⟨hhost,hrest⟩ := List.forall_mem_cons.mp htexts
    obtain ⟨hitem,-⟩ := List.forall_mem_cons.mp hrest
    have hport := decodeLong_integer port.property (textToks item.text ++ rest)
    rw [InfoOp.port,callHostInfo,InfoOp.args,List.append_assoc,List.append_assoc,
      preMacro_bind_run,bind_run_ok _ (text_arg hhost hfits _ _),
      bind_run_ok _ (required_some _ hport),bind_run_ok _ (item_arg hitem _ _),
      bind_run_ok _ hchecked,host.cStr_eq,item.cStr_eq,InfoOp.answer]
    have hlookup : (clusterInfo env).lookupHost = env.lookupHost := rfl
    rw [hlookup]
    cases env.lookupHost host.data port.val with
    | error err => rfl
    | ok iter => exact told_posts _ true
  | help item =>
    obtain ⟨hitem,-⟩ := List.forall_mem_cons.mp htexts
    rw [InfoOp.port,callHelp,InfoOp.args,preMacro_bind_run,bind_run_ok _ (item_arg hitem _ _),
      bind_run_ok _ hchecked,item.cStr_eq]
    exact told_posts _ false

end PortRuns

section Agreement
variable {env : PortEnv} {s : PortState} {w : World} {op : InfoOp} {rest : List Tok}

def byteList (data : Bytes) : Term := charList (data.map Fin.val)

def portText (listed : Bool) (data : Bytes) : Term :=
  if listed then ofList [byteList data] else byteList data

def portTerm (listed : Bool) : Answer → Term
  | .ok data => makeTuple2 atomOk (portText listed data)
  | .error msg => makeTuple2 atomError (byteList (textBytes msg))

theorem writes_answer (listed : Bool) (answer : Answer) :
    Writes (eiXEncodeTupleHeader 2 ++ answerToks listed answer) [portTerm listed answer] := by
  cases answer with
  | error msg => exact ((writes_atom "error").append (writes_string (textBytes msg))).tuple
  | ok data =>
    cases listed with
    | false => exact ((writes_atom "ok").append (writes_string data)).tuple
    | true =>
      have hlist : Writes (infoListOut data) [ofList [byteList data]] := by
        have hone := writes_listed (writes_string data) (List.cons_ne_nil _ [])
        unfold infoListOut listOut
        rwa [List.flatMap_singleton]
      exact ((writes_atom "ok").append hlist).tuple

/-- The sizes of an answer have 32 bits. -/
def Answer.Sized : Answer → Prop
  | .ok data => data.length < 2^32
  | .error msg => (textBytes msg).length < 2^32

theorem valid_answer (listed : Bool) {answer : Answer} (h : answer.Sized) :
    AllValid (eiXEncodeTupleHeader 2 ++ answerToks listed answer) := by
  have hhead : AllValid (eiXEncodeTupleHeader 2) := allValid_one (show 2 < 2^32 by decide)
  apply hhead.append
  cases answer with
  | error msg =>
    have herror : AllValid (eiXEncodeAtom "error") :=
      allValid_one (show (textBytes "error").length < 2^16 by decide)
    exact herror.append (valid_string h)
  | ok data =>
    have hok : AllValid (eiXEncodeAtom "ok") :=
      allValid_one (show (textBytes "ok").length < 2^16 by decide)
    apply hok.append
    cases listed with
    | false => exact valid_string h
    | true =>
      have hlist : AllValid (eiXEncodeListHeader 1) := valid_listHeader (by decide)
      have hend : AllValid eiXEncodeEmptyList := allValid_one trivial
      unfold textOut infoListOut listOut
      rw [List.flatMap_singleton]
      exact (hlist.append (valid_string h)).append hend

/-- The frame of the port decodes to one term. -/
theorem replies_answer {listed : Bool} {answer : Answer} (hsized : answer.Sized)
    {r : Except Leave Unit × PortState}
    (h : r.2.written = s.written ++ [eiXEncodeTupleHeader 2 ++ answerToks listed answer]) (t : Term) :
    Replies s r t ↔ t = portTerm listed answer := by
  have hdecode := binaryToTerm_iff (valid_answer listed hsized) t
  have hall := (writes_answer listed answer).all
  unfold Replies
  constructor
  · rintro ⟨frame,hframe,hterm⟩
    rw [h] at hframe
    obtain rfl := List.singleton_injective (List.append_cancel_left hframe)
    have hone := hdecode.mp hterm
    rw [hall] at hone
    exact (List.singleton_injective (Option.some.inj hone)).symm
  · rintro rfl
    exact ⟨_,h,hdecode.mpr hall⟩

theorem text_same_iff (text : String) :
    makeString text = byteList (textBytes text) ↔ Ascii text := by
  have hbyte : ∀ b : Byte, Fin.ofNat 256 b.val = b := fun b => Fin.ext (Nat.mod_eq_of_lt b.isLt)
  have hlists : makeString text = byteList (textBytes text) ↔
      text.toList.map (fun ch => (ch.toNat : ℤ)) = (textBytes text).map (fun b => (b.val : ℤ)) := by
    unfold makeString byteList charList
    rw [ofList_injective.eq_iff,List.map_map]
    have hleft : text.toList.map (fun ch => Term.integer ch.toNat) =
        (text.toList.map (fun ch => (ch.toNat : ℤ))).map Term.integer := by rw [List.map_map]; rfl
    have hright : (textBytes text).map ((fun n : ℕ => Term.integer n) ∘ Fin.val) =
        ((textBytes text).map (fun b => (b.val : ℤ))).map Term.integer := by rw [List.map_map]; rfl
    rw [hleft,hright]
    exact (List.map_injective_iff.mpr fun a b h => Term.integer.inj h).eq_iff
  rw [hlists,← wire_eq_iff]
  constructor
  · intro h
    have hbytes := congrArg (List.map (fun i : ℤ => Fin.ofNat 256 i.toNat)) h
    rw [List.map_map,List.map_map] at hbytes
    have hsame : (textBytes text).map ((fun i : ℤ => Fin.ofNat 256 i.toNat) ∘
        fun b : Byte => (b.val : ℤ)) = textBytes text := by
      refine (List.map_congr_left fun b _ => ?_).trans (List.map_id _)
      exact hbyte b
    rw [hsame] at hbytes
    exact hbytes.symm
  · intro h
    rw [h]
    have hascii := (wire_eq_iff text).mp h
    unfold wireBytes
    rw [List.map_map]
    refine List.map_congr_left fun ch hch => ?_
    have hch := hascii ch hch
    exact congrArg Int.ofNat (byte_val (by omega)).symm

/-- The two answers are the same, but for the list around a text. -/
def SameAnswer (env : PortEnv) (s : PortState) (w : World) (op : InfoOp) (rest : List Tok) : Prop :=
  (∃ text, replyOf (op.native env.client (clusterInfo env) w).1 = .term (makeTuple2 atomOk text) ∧
    Replies s (op.port env (s.goto (op.args ++ rest)))
      (makeTuple2 atomOk (if op.listed then ofList [text] else text))) ∨
  ∃ text, replyOf (op.native env.client (clusterInfo env) w).1 =
      .term (makeTuple2 atomError text) ∧
    Replies s (op.port env (s.goto (op.args ++ rest))) (makeTuple2 atomError text)

def shownText (c : Client) : Answer → String
  | .ok data => c.textOf data
  | .error msg => msg

theorem tuple_iff {tag tag' a b : Term} :
    makeTuple2 tag a = makeTuple2 tag' b ↔ tag = tag' ∧ a = b := by
  simp [makeTuple2]

theorem listed_iff {listed : Bool} {data : Bytes} {text : Term} :
    (if listed then ofList [text] else text) = portText listed data ↔ text = byteList data := by
  cases listed with
  | false => exact Iff.rfl
  | true => exact ofList_injective.eq_iff.trans (by simp)

theorem shown_iff {c : Client} {listed : Bool} {answer : Answer}
    (htext : ∀ data, answer = .ok data → textBytes (c.textOf data) = data) :
    ((∃ text, nativeTerm c answer = makeTuple2 atomOk text ∧
        makeTuple2 atomOk (if listed then ofList [text] else text) = portTerm listed answer) ∨
      ∃ text, nativeTerm c answer = makeTuple2 atomError text ∧
        makeTuple2 atomError text = portTerm listed answer) ↔ Ascii (shownText c answer) := by
  have htags : atomOk ≠ atomError := fun h => absurd (Term.atom.inj h) (by decide)
  cases answer with
  | ok data =>
    have hsame := text_same_iff (c.textOf data)
    rw [htext data rfl] at hsame
    simp only [nativeTerm,portTerm,okString,tuple_iff,listed_iff,htags,true_and,false_and,
      exists_false,or_false,shownText]
    rw [← hsame]
    exact exists_eq_left'
  | error msg =>
    simp only [nativeTerm,portTerm,errorString,tuple_iff,Ne.symm htags,true_and,false_and,
      exists_false,false_or,shownText]
    rw [← text_same_iff]
    exact exists_eq_left'

theorem told_short {answer : Except ErrReport (Option Bytes)} {msg : String}
    (h : told answer = .error msg) : (textBytes msg).length < 1024 := by
  rcases answer with err | _ | data
  · cases h
    exact HandlerReplies.ErrReport.short err
  · cases h
    decide
  · cases h

theorem answer_short {info : ClusterInfo} {msg : String} (h : op.answer info = .error msg) :
    (textBytes msg).length < 1024 := by
  have hmissing : (textBytes "Failed to find server node.").length < 1024 := by decide
  have hfound : ∀ node, foundAddress node = .error msg → (textBytes msg).length < 1024 := by
    intro node hnode
    cases node <;> cases hnode
    exact hmissing
  cases op with
  | nodeRandom => exact hfound _ h
  | nodeGet name => exact hfound _ h
  | nodeInfo name item =>
    rw [InfoOp.answer] at h
    cases hnode : asNodeGetByName info name.data with
    | none =>
      rw [hnode] at h
      cases h
      exact hmissing
    | some node =>
      rw [hnode] at h
      exact told_short h
  | hostInfo host port item =>
    rw [InfoOp.answer] at h
    cases hlookup : info.lookupHost host.data port.val with
    | error err =>
      rw [hlookup] at h
      cases h
      exact HandlerReplies.ErrReport.short err
    | ok iter =>
      rw [hlookup] at h
      exact told_short h
  | help item => exact told_short h

/-- Asked in ASCII, both halves answer the one question, and with one text
exactly if it is ASCII too. -/
theorem info_calls_same_iff (hinit : s.isAerospikeInitialised = true)
    (hconn : s.isConnected = true) (hw : w.isConnectedFlag = true)
    (hfits : op.Fits env.nodeNameMaxSize) (htexts : ∀ n ∈ op.texts, Ascii n)
    (hdata : ∀ data, op.answer (clusterInfo env) = .ok data →
      data.length < 2^32 ∧ textBytes (env.client.textOf data) = data) :
    op.Answered (clusterInfo env) (op.answer (clusterInfo env)) ∧
      (op.native env.client (clusterInfo env) w).1 =
        .ok (nativeTerm env.client (op.answer (clusterInfo env))) ∧
      (op.port env (s.goto (op.args ++ rest))).2.written = s.written ++
        [eiXEncodeTupleHeader 2 ++ answerToks op.listed (op.answer (clusterInfo env))] ∧
      (SameAnswer env s w op rest ↔
        Ascii (shownText env.client (op.answer (clusterInfo env)))) := by
  have hnative := @native_answers env.client (clusterInfo env) w hw op hfits
  have hport := @port_answers env s rest hinit hconn op hfits htexts
  have hsized : (op.answer (clusterInfo env)).Sized := by
    cases hanswer : op.answer (clusterInfo env) with
    | ok data => exact (hdata data hanswer).1
    | error msg => exact lt_trans (answer_short hanswer) (by decide)
  have hframe := replies_answer hsized hport
  have hreply : ∀ t, replyOf (op.native env.client (clusterInfo env) w).1 = .term t ↔
      nativeTerm env.client (op.answer (clusterInfo env)) = t := by
    intro t
    rw [hnative]
    exact Reply.term.injEq _ _ ▸ Iff.rfl
  refine ⟨op.answered _,hnative,hport,?_⟩
  unfold SameAnswer
  simp only [hreply,hframe]
  exact shown_iff fun data hanswer => (hdata data hanswer).2

end Agreement

section Example

def latin1Client : Client :=
  { plainClient with textOf := fun data => String.ofList (data.map (fun b => Char.ofNat b.val)) }

/-- The host has two addresses, and the first does not answer. -/
def twoAddresses : PortEnv :=
  { FrameReplies.plainPort with
    client := latin1Client
    lookupHost := fun _ _ => .ok [0,1]
    infoCommandHost := fun addr _ => if addr = 0 then (-1,none) else (0,some [97,59,98]) }

def askHost : InfoOp := .hostInfo (letterName 'h' (by decide) (by decide)) ⟨1,one_fits⟩
  (letterName 'i' (by decide) (by decide))

theorem second_address_asked : SameAnswer twoAddresses PortAgreement.connectedPort connectedWorld
    askHost [] := by
  have htexts : ∀ n ∈ askHost.texts, Ascii n := by
    change ∀ n ∈ [String.singleton 'h',String.singleton 'i'], Ascii n
    simp only [List.forall_mem_cons]
    exact ⟨letter_ascii (by decide),letter_ascii (by decide),by simp⟩
  have hanswer : askHost.answer (clusterInfo twoAddresses) = .ok [97,59,98] := rfl
  have hdata : ∀ data, askHost.answer (clusterInfo twoAddresses) = .ok data →
      data.length < 2^32 ∧ textBytes (twoAddresses.client.textOf data) = data := by
    intro data hdata
    rw [hanswer] at hdata
    cases hdata
    exact ⟨by decide,by decide⟩
  have hfits : askHost.Fits twoAddresses.nodeNameMaxSize := by
    change (textBytes (String.singleton 'h')).length < 20
    decide
  apply (info_calls_same_iff rfl rfl rfl hfits htexts hdata).2.2.2.mpr
  rw [hanswer]
  change ∀ ch ∈ (String.ofList ['a',';','b']).toList, ch.toNat < 128
  rw [String.toList_ofList]
  simp

end Example

end AspikePort.InfoCalls
