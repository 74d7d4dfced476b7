import AspikePort.ArgumentLoops

/-!
# The replies of the handlers

For each command, the condition under which its handler writes one good frame:
the texts it reads fit their arrays, the loops stay in step, and what it has to
show fits a frame and is written out whole.
-/

set_option autoImplicit false

namespace AspikePort.HandlerReplies
open AspikePort.ErlangTerms AspikePort.ClientValues AspikePort.EarlyReturn
open AspikePort.SyncCalls AspikePort.ExternalTerms AspikePort.EiBuffers
open AspikePort.PortDumps AspikePort.PortCalls AspikePort.PortPuts AspikePort.PortHandlers
open AspikePort.ReplyFrames AspikePort.RecordShapes AspikePort.PortReplies
open AspikePort.ArgumentLoops Proc

section Sizes

def hostSize (host : Host) : ℕ :=
  2+textSize (textBytes host.name)+textSize (textBytes host.tlsName)+longSize host.port

def nodeSize (node : Node) : ℕ := 2+textSize node.name+textSize node.address

def fieldsSize (fields : List (String × FieldValue)) : ℕ := 5+(fields.map fieldSize).sum

def configSize (env : PortEnv) (config : Config) : ℕ :=
  fieldsSize (configFields env config)+textSize (textBytes "policy_info")+
    fieldsSize (policyInfoFields env)

end Sizes

section Conditions
variable (env : PortEnv) (s : PortState)

def FitsText (chars : Bytes) : Prop := FitsReply (textSize chars)

/-- The two numbers of a record, if there is a record. -/
def FieldsFine (r : Option Record) : Prop :=
  ∃ fields, recordFields r = .ok fields ∧ FitsReply (fieldsSize fields)

def StoredFine : Option Record → Prop :=
  RecordFine env.client (·.length+5) (binaryShape env.client)

def PrintedFine : Option Record → Prop := RecordFine env.client textSize (textShape env.client)

def CdtFine : Option Record → Prop :=
  RecordFine env.client (·.length+5) (cdtShape env.client)

def HostAddFine : Cond := ReadsText PortHandlers.maxHostSize fun _ _ => True

def HostListFine : Prop :=
  s.isAerospikeInitialised = true → FitsReply (listSize (s.config.hosts.map hostSize))

def ConnectFine : Cond := ReadsText asUserSize fun _ => ReadsText asPasswordSize fun _ _ => True

def KeyFine : Cond := ReadsKey fun _ _ => True

def KeyPairsFine : Cond :=
  ReadsKey fun _ => Reads eiDecodeListHeader fun length rest => Served s (PairsFit length rest)

def KeyGetFine : Cond :=
  ReadsKey fun key _ => Served s (Granted env s (.keyGet key none) (PrintedFine env))

def KeyGenerationFine : Cond :=
  ReadsKey fun key _ => Served s (Granted env s (.keyGet key none) FieldsFine)

def KeySelectFine : Cond :=
  ReadsKey fun key => Reads eiDecodeListHeader fun length rest => Served s (length ≠ 0 →
    NamesFit (fun bins => Granted env s (.keySelect key bins) (PrintedFine env)) length [] rest)

def BinaryKeyGetFine : Cond :=
  ReadsBinaries fun key _ => Served s (Granted env s (.keyGet key none) (StoredFine env))

def BinaryKeyPutFine : Cond :=
  ReadsBinaries fun _ => Reads eiDecodeListHeader fun length rest => Served s (PutsFit length rest)

def NodeRandomFine : Prop :=
  Served s (∀ node, env.randomNode = some node → FitsText node.address)

def NodeNamesFine : Prop :=
  Served s (FitsReply (listSize (env.cluster.nodes.map nodeSize)))

def NodeGetFine : Cond :=
  ReadsText env.nodeNameMaxSize fun name _ => Served s (∀ node, nodeByName env name = some node →
    FitsText node.address)

def FitsInfo (info : Bytes) : Prop := FitsReply (listSize [textSize info])

def NodeInfoFine : Cond :=
  ReadsText env.nodeNameMaxSize fun name => ReadsText maxItemSize fun item _ =>
    Served s (∀ node, nodeByName env name = some node → ∀ info,
      env.infoCommandNode node (cStr item) = .ok (some info) → FitsInfo info)

def HostInfoFine : Cond :=
  ReadsText env.nodeNameMaxSize fun hostname => Reads eiDecodeLong fun port =>
    ReadsText maxItemSize fun item _ => Served s (∀ iter,
      env.lookupHost (cStr hostname) port = .ok iter → ∀ info,
        askAddresses (env.infoCommandHost · (cStr item)) iter none = some info → FitsInfo info)

def HelpFine : Cond :=
  ReadsText maxItemSize fun item _ => Served s (∀ info,
    env.infoAny (cStr item) = .ok (some info) → FitsText info)

def ConfigInfoFine : Prop :=
  s.isAerospikeInitialised = true → FitsReply (configSize env s.config)

def ClusterInfoFine : Prop := Served s (FitsReply (fieldsSize (clusterFields env)))

def CdtGetFine : Cond :=
  ReadsBinaries fun key => ReadsPolicy env fun _ =>
    Served s (Granted env s (.keyGet key none) (CdtFine env))

/-- The head that is taken for the ttl is a narrow integer. -/
def CdtPutFine : Cond :=
  ReadsBinaries fun _ toks => ∀ length rest, toks = .list length::rest →
    isShortInteger (eiGetType (binsEnd env length rest)).1 = true

/-- The handler gets to its `POST` with nothing behind the header. -/
def StubFine : Prop := ¬(s.isAerospikeInitialised = true ∧ s.isConnected = true)

end Conditions

section Keys
variable {env : PortEnv} {s : PortState}

theorem answers_okText {before : List (List Tok)} (h : Begun before s) (chars : Bytes) :
    Answers before ((okMacro chars >>= fun _ => postMacro) s) ↔ FitsText chars :=
  (answers_put h _).trans
    (complete_ok (begins_one (writes_string chars)) (writable_string chars) (width_string chars))

theorem complete_fields (fields : List (String × FieldValue)) :
    Complete (eiXEncodeAtom "ok" ++ eiXEncodeMapHeader fields.length ++
      fields.flatMap fieldOut) ↔ FitsReply (fieldsSize fields) := by
  have hheader : AllWritable (eiXEncodeMapHeader fields.length) := writable_one trivial
  have hwidth : width (eiXEncodeMapHeader fields.length) = 5 := by simp [eiXEncodeMapHeader,Tok.body]
  have hbegins : Begins (eiXEncodeMapHeader fields.length ++ fields.flatMap fieldOut) 1 := by
    have hfields := begins_fields fields [] 0
    rw [List.append_nil] at hfields
    exact hfields.mpr (begins_zero [])
  rw [List.append_assoc]
  apply complete_ok hbegins (hheader.append (writable_flatMap writable_field fields))
  rw [width_append,hwidth,width_flatMap width_field,fieldsSize]

/-- A request whose answer is not looked at. -/
theorem message_answers {before : List (List Tok)} (h : Begun before s) (req : Request)
    {msg : Bytes} (hmsg : Short msg) :
    Answers before ((request env req >>= fun _ => okMacro msg >>= fun _ => postMacro) s) := by
  apply granted_answers h
  intro r t ht
  exact answers_ok ht hmsg

theorem keyRemove_answers (toks : List Tok) :
    Answers s.written (callKeyRemove env (s.goto toks)) ↔ KeyFine toks := by
  unfold callKeyRemove KeyFine
  rw [preMacro_bind_run]
  apply answers_key (fresh_begun s)
  intro key rest
  have hb := (fresh_begun s).goto rest
  exact iff_true_intro (served_answers hb (message_answers hb _ (by decide)))

theorem keyExists_answers (toks : List Tok) :
    Answers s.written (callKeyExists env (s.goto toks)) ↔ KeyFine toks := by
  unfold callKeyExists KeyFine
  rw [preMacro_bind_run]
  apply answers_key (fresh_begun s)
  intro key rest
  have hb := (fresh_begun s).goto rest
  exact iff_true_intro (served_answers hb (message_answers hb _ (by decide)))

theorem keyGet_answers (toks : List Tok) :
    Answers s.written (callKeyGet env (s.goto toks)) ↔ KeyGetFine env s toks := by
  unfold callKeyGet KeyGetFine
  rw [preMacro_bind_run]
  apply answers_key (fresh_begun s)
  intro key rest
  apply answers_all ((fresh_begun s).goto rest)
  apply answers_request ((fresh_begun s).goto rest)
  intro r t ht
  exact (answers_dump ht _).trans (dump_iff stringNames dumpBin_shape r.record)

theorem keyGeneration_answers (toks : List Tok) :
    Answers s.written (callKeyGeneration env (s.goto toks)) ↔ KeyGenerationFine env s toks := by
  unfold callKeyGeneration KeyGenerationFine
  rw [preMacro_bind_run]
  apply answers_key (fresh_begun s)
  intro key rest
  apply answers_all ((fresh_begun s).goto rest)
  apply answers_request ((fresh_begun s).goto rest)
  intro r t ht
  unfold FieldsFine
  cases hfields : recordFields r.record with
  | error f => exact iff_of_false not_answers_fault (fun ⟨_,hc,_⟩ => nomatch hc)
  | ok fields =>
    have hlength : fields.length = 2 := by
      cases hr : r.record with
      | none =>
        rw [hr] at hfields
        cases hfields
      | some pRec =>
        rw [hr] at hfields
        cases hfields
        rfl
    show Answers s.written ((put (eiXEncodeAtom "ok" ++ eiXEncodeMapHeader 2 ++
      fields.flatMap fieldOut) >>= fun _ => postMacro) t) ↔ _
    rw [← hlength,answers_put ht,complete_fields]
    exact (exists_ok_iff (p := fun fields => FitsReply (fieldsSize fields))).symm

/-- A list without pairs is not sent. -/
theorem sent_answers {before : List (List Tok)} (h : Begun before s) (length : ℕ) (req : Request) :
    Answers before ((if 0 < length then
        request env req >>= fun _ => okMacro (textBytes "key_put") >>= fun _ => postMacro
      else okMacro (textBytes "key_put") >>= fun _ => postMacro) s) := by
  split_ifs
  · exact message_answers h req (by decide)
  · exact answers_ok h (by decide)

theorem keyPut_answers (toks : List Tok) :
    Answers s.written (callKeyPut env (s.goto toks)) ↔ KeyPairsFine s toks := by
  unfold callKeyPut KeyPairsFine
  rw [preMacro_bind_run]
  apply answers_key (fresh_begun s)
  intro key rest
  apply answers_required (fresh_begun s) (by decide)
  intro length rest
  apply answers_all ((fresh_begun s).goto rest)
  apply judge_pairs (answers_judges (fresh_begun s)) (by decide)
  intro rec rest
  exact sent_answers ((fresh_begun s).goto rest) length (.keyPut key rec)

theorem keyInc_answers (toks : List Tok) :
    Answers s.written (callKeyInc env (s.goto toks)) ↔ KeyPairsFine s toks := by
  unfold callKeyInc KeyPairsFine
  rw [preMacro_bind_run]
  apply answers_key (fresh_begun s)
  intro key rest
  apply answers_required (fresh_begun s) (by decide)
  intro length rest
  apply answers_all ((fresh_begun s).goto rest)
  apply judge_pairs (answers_judges (fresh_begun s)) (by decide)
  intro ops rest
  exact sent_answers ((fresh_begun s).goto rest) length (.keyOperate key ops none)

theorem keySelect_answers (toks : List Tok) :
    Answers s.written (callKeySelect env (s.goto toks)) ↔ KeySelectFine env s toks := by
  unfold callKeySelect KeySelectFine
  rw [preMacro_bind_run]
  apply answers_key (fresh_begun s)
  intro key rest
  apply answers_required (fresh_begun s) (by decide)
  intro length rest
  apply answers_all ((fresh_begun s).goto rest)
  by_cases hlength : length = 0
  · rw [if_pos hlength]
    apply iff_of_true _ (fun hne => absurd hlength hne)
    have hempty : FitsReply 1 := show 1+7 < 2^16 by decide
    apply (answers_put ((fresh_begun s).goto rest) _).mpr
    exact (complete_ok (begins_one writes_emptyList) (writable_one trivial) rfl).mpr hempty
  · rw [if_neg hlength,imp_iff_right hlength]
    apply judge_names (answers_judges (fresh_begun s)) (by decide)
    intro bins rest
    apply answers_request ((fresh_begun s).goto rest)
    intro r t ht
    exact (answers_dump ht _).trans (dump_iff stringNames dumpBin_shape r.record)

theorem binaryKeyGet_answers (toks : List Tok) :
    Answers s.written (callBinaryKeyGet env (s.goto toks)) ↔ BinaryKeyGetFine env s toks := by
  unfold callBinaryKeyGet BinaryKeyGetFine
  rw [preMacro_bind_run]
  apply answers_binaries (fresh_begun s) (by decide)
  intro ns set key rest
  apply answers_all ((fresh_begun s).goto rest)
  apply answers_request ((fresh_begun s).goto rest)
  intro r t ht
  exact (answers_dump ht _).trans (dump_iff binaryNames (binOut_shape binaryShape_shape) r.record)

theorem putRecord_answers {before : List (List Tok)} (h : Begun before s) (askey : AsKey)
    (rec : PutRecord) (toks : List Tok) :
    Answers before (putRecord env.respond askey rec (s.goto toks)) := by
  unfold putRecord
  rw [bind_run_ok _ (decode_run eiDecodeListHeader toks)]
  apply (answers_required (k := fun _ _ => True) h (by decide) _ _).mpr (fun _ _ _ => trivial)
  intro recTtl rest
  apply iff_true_intro
  generalize hreq : Request.keyPut askey { rec with ttl := UInt32.ofInt recTtl } = req
  have hbegun : Begun before { s.goto rest with submitted := s.submitted ++ [req] } :=
    ⟨h.header,h.kept⟩
  show Answers before ((if (env.respond (s.submitted ++ [req])).status ≠ aerospikeOk then
      stopError (env.respond (s.submitted ++ [req])).message
    else okMacro (textBytes "binary_key_put") >>= fun _ => postMacro)
      { s.goto rest with submitted := s.submitted ++ [req] })
  split_ifs
  · exact answers_error hbegun (env.short _)
  · exact answers_ok hbegun (by decide)

theorem binaryKeyPut_answers (toks : List Tok) :
    Answers s.written (callBinaryKeyPut env.client env.respond (s.goto toks)) ↔
      BinaryKeyPutFine s toks := by
  unfold callBinaryKeyPut BinaryKeyPutFine
  rw [preMacro_bind_run]
  apply answers_binaries (fresh_begun s) (by decide)
  intro ns set key rest
  apply answers_required (fresh_begun s) (by decide)
  intro length rest
  apply answers_all ((fresh_begun s).goto rest)
  apply answers_puts (fresh_begun s)
  intro rec rest
  exact putRecord_answers (fresh_begun s) _ rec rest

end Keys

section Configuration
variable {env : PortEnv} {s : PortState}

theorem portStatus_answers (toks : List Tok) :
    Answers s.written (callPortStatus (s.goto toks)) := by
  have hsize : ∀ a b : Bool, fieldsSize [("is_aerospike_initialised",.flag a),
      ("is_connected",.flag b)]+7 < 2^16 := by decide
  unfold callPortStatus
  rw [preMacro_bind_run,state_bind_run]
  exact (answers_put ((fresh_begun s).goto toks) _).mpr
    ((complete_fields (statusFields (s.fresh.goto toks))).mpr (hsize _ _))

theorem clusterInfo_answers (toks : List Tok) :
    Answers s.written (callClusterInfo env (s.goto toks)) ↔ ClusterInfoFine env s := by
  unfold callClusterInfo ClusterInfoFine
  rw [preMacro_bind_run]
  apply answers_all ((fresh_begun s).goto toks)
  exact (answers_put ((fresh_begun s).goto toks) _).trans (complete_fields (clusterFields env))

theorem complete_config (config : Config) :
    Complete (configInfoOut env config) ↔ FitsReply (configSize env config) := by
  have hlength : (configFields env config).length = 28 := rfl
  have houter : AllWritable (eiXEncodeMapHeader 29) := writable_one trivial
  have hinner : AllWritable (eiXEncodeMapHeader 3) := writable_one trivial
  have hpolicy := writable_string (textBytes "policy_info")
  have hwidths : width (eiXEncodeMapHeader 29) = 5 ∧ width (eiXEncodeMapHeader 3) = 5 := by decide
  have hlast : Begins (eiXEncodeMapHeader 3 ++ (policyInfoFields env).flatMap fieldOut) 1 := by
    have hfields := (begins_fields (policyInfoFields env) [] 0).mpr (begins_zero [])
    rw [List.append_nil,show (policyInfoFields env).length = 3 from rfl] at hfields
    exact (begins_cons (.map 3) _ 0).mpr hfields
  have hbegins : Begins (eiXEncodeMapHeader 29 ++ ((configFields env config).flatMap fieldOut ++
      (eiXEncodeString (textBytes "policy_info") ++
        (eiXEncodeMapHeader 3 ++ (policyInfoFields env).flatMap fieldOut)))) 1 := by
    apply (begins_cons (.map 29) _ 0).mpr
    have hfields := begins_fields (configFields env config)
      (eiXEncodeString (textBytes "policy_info") ++
        (eiXEncodeMapHeader 3 ++ (policyInfoFields env).flatMap fieldOut)) 2
    rw [hlength,begins_writes (writes_string _)] at hfields
    exact hfields.mpr hlast
  unfold configInfoOut
  rw [List.append_assoc,List.append_assoc,List.append_assoc,List.append_assoc]
  apply complete_ok
  · exact hbegins
  · exact houter.append ((writable_flatMap writable_field _).append
      (hpolicy.append (hinner.append (writable_flatMap writable_field _))))
  · unfold configSize fieldsSize
    rw [width_append,width_append,width_append,width_append,width_flatMap width_field,
      width_flatMap width_field,width_string,hwidths.1,hwidths.2]
    omega

theorem configInfo_answers (toks : List Tok) :
    Answers s.written (callConfigInfo env (s.goto toks)) ↔ ConfigInfoFine env s := by
  unfold callConfigInfo ConfigInfoFine
  rw [preMacro_bind_run]
  apply answers_init ((fresh_begun s).goto toks)
  rw [state_bind_run]
  exact (answers_put ((fresh_begun s).goto toks) _).trans (complete_config s.config)

theorem aerospikeInit_answers (toks : List Tok) :
    Answers s.written (callAerospikeInit env (s.goto toks)) := by
  unfold callAerospikeInit
  rw [preMacro_bind_run,update_bind_run]
  apply answers_ok _ (by decide)
  split_ifs
  · exact (fresh_begun s).goto toks
  · exact ⟨rfl,rfl⟩

theorem hostAdd_answers (toks : List Tok) :
    Answers s.written (callConfigAddHosts env (s.goto toks)) ↔ HostAddFine toks := by
  unfold callConfigAddHosts HostAddFine
  rw [preMacro_bind_run]
  apply answers_text (fresh_begun s) (by decide)
  intro host rest
  apply iff_true_intro
  apply (answers_required (k := fun _ _ => True) (fresh_begun s) (by decide) _ _).mpr
    (fun _ _ _ => trivial)
  intro port rest
  apply iff_true_intro
  apply (answers_init (p := True) ((fresh_begun s).goto rest) _).mpr (fun _ => trivial)
  apply iff_true_intro
  cases env.addHosts (cStr host) port with
  | none => exact answers_error ((fresh_begun s).goto rest) (by decide)
  | some hosts => exact answers_ok ⟨rfl,rfl⟩ (by decide)

theorem hostClear_answers (toks : List Tok) :
    Answers s.written (callConfigClearHosts (s.goto toks)) := by
  unfold callConfigClearHosts
  rw [preMacro_bind_run]
  apply (answers_init (p := True) ((fresh_begun s).goto toks) _).mpr (fun _ => trivial)
  apply iff_true_intro
  exact answers_ok ⟨rfl,rfl⟩ (by decide)

/-- A list of terms that each stand for one element. -/
theorem complete_list {α : Type} {f : α → List Tok} {g : α → Term} {size : α → ℕ}
    (hwrites : ∀ x, Writes (f x) [g x]) (hwritable : ∀ x, AllWritable (f x))
    (hwidth : ∀ x, width (f x) = size x) (xs : List α) :
    Complete (eiXEncodeAtom "ok" ++ listOut f xs) ↔ FitsReply (listSize (xs.map size)) :=
  complete_ok (begins_listOut hwrites xs) (writable_listOut hwritable xs) (width_listOut hwidth xs)

theorem complete_hosts (hosts : List Host) : Complete (eiXEncodeAtom "ok" ++ listOut hostOut hosts) ↔
    FitsReply (listSize (hosts.map hostSize)) := by
  have hhead : AllWritable (eiXEncodeTupleHeader 3) := writable_one trivial
  have hwidth : width (eiXEncodeTupleHeader 3) = 2 := by decide
  apply complete_list
  · intro host
    have hname := writes_string (textBytes host.name)
    have htls := writes_string (textBytes host.tlsName)
    exact ((hname.append htls).append (writes_long host.port)).tuple
  · intro host
    exact ((hhead.append (writable_string _)).append (writable_string _)).append (writable_long _)
  · intro host
    unfold hostOut hostSize
    rw [width_append,width_append,width_append,hwidth,width_string,width_string,width_long]

theorem hostList_answers (toks : List Tok) :
    Answers s.written (callConfigListHosts (s.goto toks)) ↔ HostListFine s := by
  unfold callConfigListHosts HostListFine
  rw [preMacro_bind_run]
  apply answers_init ((fresh_begun s).goto toks)
  rw [state_bind_run]
  exact (answers_put ((fresh_begun s).goto toks) _).trans (complete_hosts s.config.hosts)

theorem connectClient_answers {before : List (List Tok)} (h : Begun before s) :
    Answers before (connectClient env s) := by
  unfold connectClient
  cases env.connect with
  | none => exact answers_ok ⟨h.header,h.kept⟩ (by decide)
  | some err =>
    have hbegun : Begun before { s with isConnected := false } := ⟨h.header,h.kept⟩
    exact (answers_put hbegun _).mpr (complete_message (by decide) err.short)

theorem connect_answers (toks : List Tok) :
    Answers s.written (callConnect env (s.goto toks)) ↔ ConnectFine toks := by
  unfold callConnect ConnectFine
  rw [preMacro_bind_run]
  apply answers_text (fresh_begun s) (by decide)
  intro user rest
  apply answers_text (fresh_begun s) (by decide)
  intro password rest
  apply iff_true_intro
  apply (answers_init (p := True) ((fresh_begun s).goto rest) _).mpr (fun _ => trivial)
  apply iff_true_intro
  exact connectClient_answers ⟨rfl,rfl⟩

theorem anonConnect_answers (toks : List Tok) :
    Answers s.written (callAnonConnect env (s.goto toks)) := by
  unfold callAnonConnect
  rw [preMacro_bind_run]
  apply (answers_init (p := True) ((fresh_begun s).goto toks) _).mpr (fun _ => trivial)
  apply iff_true_intro
  exact connectClient_answers ((fresh_begun s).goto toks)

end Configuration

section Nodes
variable {env : PortEnv} {s : PortState}

theorem nodeRandom_answers (toks : List Tok) :
    Answers s.written (callNodeRandom env (s.goto toks)) ↔ NodeRandomFine env s := by
  unfold callNodeRandom NodeRandomFine
  rw [preMacro_bind_run]
  apply answers_all ((fresh_begun s).goto toks)
  cases env.randomNode with
  | none =>
    exact iff_of_true (answers_error ((fresh_begun s).goto toks) (by decide)) (fun _ h => nomatch h)
  | some node =>
    exact (answers_okText ((fresh_begun s).goto toks) node.address).trans
      (forall_some_iff (p := fun node : Node => FitsText node.address)).symm

theorem complete_nodes (nodes : List Node) : Complete (eiXEncodeAtom "ok" ++ listOut nodeOut nodes) ↔
    FitsReply (listSize (nodes.map nodeSize)) := by
  have hhead : AllWritable (eiXEncodeTupleHeader 2) := writable_one trivial
  have hwidth : width (eiXEncodeTupleHeader 2) = 2 := by decide
  apply complete_list
  · intro node
    exact ((writes_string node.name).append (writes_string node.address)).tuple
  · intro node
    exact (hhead.append (writable_string _)).append (writable_string _)
  · intro node
    unfold nodeOut nodeSize
    rw [width_append,width_append,hwidth,width_string,width_string]

theorem nodeNames_answers (toks : List Tok) :
    Answers s.written (callNodeNames env (s.goto toks)) ↔ NodeNamesFine env s := by
  unfold callNodeNames NodeNamesFine
  rw [preMacro_bind_run]
  apply answers_all ((fresh_begun s).goto toks)
  exact (answers_put ((fresh_begun s).goto toks) _).trans (complete_nodes env.cluster.nodes)

theorem nodeGet_answers (toks : List Tok) :
    Answers s.written (callNodeGet env (s.goto toks)) ↔ NodeGetFine env s toks := by
  unfold callNodeGet NodeGetFine
  rw [preMacro_bind_run]
  apply answers_text (fresh_begun s) (by decide)
  intro name rest
  have hb := (fresh_begun s).goto rest
  apply answers_all hb
  cases nodeByName env name with
  | none => exact iff_of_true (answers_error hb (by decide)) (fun _ h => nomatch h)
  | some node =>
    exact (answers_okText hb node.address).trans
      (forall_some_iff (p := fun node : Node => FitsText node.address)).symm

theorem ErrReport.short (err : ErrReport) : Short (textBytes err.text) := by
  unfold ErrReport.text
  split_ifs
  · decide
  · exact err.message.short

theorem info_answers {before : List (List Tok)} (h : Begun before s) {out : Bytes → List Tok}
    {fits : Bytes → Prop} (hout : ∀ info, Complete (eiXEncodeAtom "ok" ++ out info) ↔ fits info)
    (answer : Except ErrReport (Option Bytes)) : Answers before (infoReply out answer s) ↔
      ∀ info, answer = .ok (some info) → fits info := by
  cases answer with
  | error err => exact iff_of_true (answers_error h (ErrReport.short err)) (fun _ hc => nomatch hc)
  | ok found =>
    cases found with
    | none => exact iff_of_true (answers_error h (by decide)) (fun _ hc => nomatch hc)
    | some info =>
      apply (answers_put h _).trans
      rw [hout]
      simp

theorem complete_info (info : Bytes) : Complete (eiXEncodeAtom "ok" ++ infoListOut info) ↔
    FitsInfo info := complete_list writes_string writable_string width_string [info]

theorem nodeInfo_answers (toks : List Tok) :
    Answers s.written (callNodeInfo env (s.goto toks)) ↔ NodeInfoFine env s toks := by
  unfold callNodeInfo NodeInfoFine
  rw [preMacro_bind_run]
  apply answers_text (fresh_begun s) (by decide)
  intro name rest
  apply answers_text (fresh_begun s) (by decide)
  intro item rest
  have hb := (fresh_begun s).goto rest
  apply answers_all hb
  cases nodeByName env name with
  | none => exact iff_of_true (answers_error hb (by decide)) (fun _ h => nomatch h)
  | some node =>
    rw [forall_some_iff]
    exact info_answers hb complete_info _

theorem hostInfo_answers (toks : List Tok) :
    Answers s.written (callHostInfo env (s.goto toks)) ↔ HostInfoFine env s toks := by
  unfold callHostInfo HostInfoFine
  rw [preMacro_bind_run]
  apply answers_text (fresh_begun s) (by decide)
  intro hostname rest
  apply answers_required (fresh_begun s) (by decide)
  intro port rest
  apply answers_text (fresh_begun s) (by decide)
  intro item rest
  have hb := (fresh_begun s).goto rest
  apply answers_all hb
  cases env.lookupHost (cStr hostname) port with
  | error err => exact iff_of_true (answers_error hb (ErrReport.short err)) (fun _ h => nomatch h)
  | ok iter =>
    apply (info_answers hb complete_info _).trans
    simp

theorem help_answers (toks : List Tok) :
    Answers s.written (callHelp env (s.goto toks)) ↔ HelpFine env s toks := by
  unfold callHelp HelpFine
  rw [preMacro_bind_run]
  apply answers_text (fresh_begun s) (by decide)
  intro item rest
  have hb := (fresh_begun s).goto rest
  apply answers_all hb
  exact info_answers hb (fun info => complete_ok (begins_one (writes_string info))
    (writable_string info) (width_string info)) _

end Nodes

section Cdt
variable {env : PortEnv} {s : PortState}

theorem cdtGet_answers (toks : List Tok) :
    Answers s.written (callPortCdtGet env (s.goto toks)) ↔ CdtGetFine env s toks := by
  unfold callPortCdtGet CdtGetFine
  rw [preMacro_bind_run]
  apply answers_binaries (fresh_begun s) (by decide)
  intro ns set key rest
  apply answers_policy (fresh_begun s) (by decide) (by decide)
  intro policy rest
  apply answers_all ((fresh_begun s).goto rest)
  apply answers_request ((fresh_begun s).goto rest)
  intro r t ht
  cases hr : r.record with
  | none => exact iff_of_true (answers_error ht (by decide)) trivial
  | some pRec =>
    exact (answers_dump ht _).trans (dump_iff binaryNames (binOut_shape cdtShape_shape) (some pRec))

theorem head_of_short {toks : List Tok} (h : isShortInteger (eiGetType toks).1 = true) :
    ∃ tok rest, toks = tok::rest := by
  cases toks with
  | nil => cases h
  | cons tok rest => exact ⟨tok,rest,rfl⟩

theorem not_answers_silent {r : Except Leave Unit} {t : PortState} :
    ¬Answers t.written (r,t) := by
  rintro ⟨-,frame,hwritten,-⟩
  exact absurd hwritten (by simp)

theorem cdtPut_answers (toks : List Tok) :
    Answers s.written (callPortCdtPut env (s.goto toks)) ↔ CdtPutFine env toks := by
  unfold callPortCdtPut CdtPutFine
  rw [preMacro_bind_run]
  apply answers_binaries (fresh_begun s) (by decide)
  intro ns set key rest
  rw [bind_run_ok _ (getType_run rest)]
  by_cases hlist : (eiGetType rest).1 = .list
  · obtain ⟨length,rest,rfl⟩ := getType_list_iff.mp hlist
    have hheader : required eiDecodeListHeader "invalid list of bins"
        (s.fresh.goto (.list length::rest)) = (.ok length,s.fresh.goto rest) := required_some _ rfl
    obtain ⟨mycdt,hbins⟩ : ∃ mycdt, getBins env length ⟨[],[]⟩ (s.fresh.goto rest) =
      (.ok mycdt,s.fresh.goto (binsEnd env length rest)) := getBins_end length _ rest
    have hrest : (∀ length' rest', Tok.list length::rest = .list length'::rest' →
        isShortInteger (eiGetType (binsEnd env length' rest')).1 = true) ↔
          isShortInteger (eiGetType (binsEnd env length rest)).1 = true := by simp
    show Answers s.written ((required eiDecodeListHeader "invalid list of bins" >>= _) _) ↔ _
    rw [bind_run_ok _ hheader,bind_run_ok _ hbins,bind_run_ok _ (getType_run _),hrest]
    generalize binsEnd env length rest = toks
    show Answers s.written ((if ¬isShortInteger (eiGetType toks).1 = true then stop .returned
      else _ : Port Unit) (s.fresh.goto toks)) ↔ _
    by_cases hshort : isShortInteger (eiGetType toks).1 = true
    · obtain ⟨tok,more,rfl⟩ := head_of_short hshort
      obtain ⟨i,hi⟩ := short_decodes hshort more
      rw [if_neg (not_not.mpr hshort),bind_run_ok _ (decode_some hi)]
      apply iff_of_true _ hshort
      apply (answers_policy (k := fun _ => True) (fresh_begun s) (by decide) (by decide) _ _).mpr
        (readsPolicy_of (fun _ => trivial) more)
      intro policy rest
      have hb := (fresh_begun s).goto rest
      exact iff_true_intro (served_answers hb (message_answers hb _ (by decide)))
    · rw [if_pos hshort]
      exact iff_of_false not_answers_silent hshort
  · show Answers s.written ((if (eiGetType rest).1 ≠ .list then stopError "CPCP bin argument"
      else _ : Port Unit) (s.fresh.goto rest)) ↔ _
    rw [if_pos hlist]
    apply iff_of_true (answers_error ((fresh_begun s).goto rest) (by decide))
    rintro length rest rfl
    exact absurd rfl hlist

theorem stub_answers (toks : List Tok) : Answers s.written (callStub (s.goto toks)) ↔ StubFine s := by
  have hheader : ¬Answers s.written ((postMacro : Port Unit) (s.fresh.goto toks)) := by
    intro h
    have hbegins : Begins [] 2 := holdsPair_begins ((answers_frame rfl).mp h).1
    exact absurd ((begins_nil 2).mp hbegins) (by omega)
  unfold callStub StubFine
  rw [preMacro_bind_run]
  apply (answers_all (p := False) ((fresh_begun s).goto toks) (iff_false_intro hheader)).trans
  unfold Served
  rw [not_and]
  exact Iff.rfl

end Cdt

end AspikePort.HandlerReplies
