import AspikePort.FrameReplies
import AspikePort.TripleWrites

/-!
# The maps a put writes, read off the wire

The port gathers the triples of all bins in one struct that has room for one
bin name, and it writes them all under the name that came last. What cannot be
read ends the gathering and not the put.
-/

set_option autoImplicit false

namespace AspikePort.PortCdtPuts
open AspikePort.ErlangTerms AspikePort.ClientValues AspikePort.EarlyReturn
open AspikePort.NifWorld AspikePort.CdtPut AspikePort.PutOperations AspikePort.PutAgreement
open AspikePort.TripleWrites AspikePort.BinaryBins AspikePort.ExternalTerms
open AspikePort.EiBuffers AspikePort.PortCalls
open AspikePort.PortPuts AspikePort.PortHandlers AspikePort.ReplyFrames AspikePort.PortReplies
open AspikePort.ArgumentLoops AspikePort.HandlerReplies AspikePort.FallibleLoops Proc

section Request

/-- A list as `term_to_binary` writes it, unless it could be a text. -/
def listToks (n : ℕ) (elements : List Tok) : List Tok :=
  if n = 0 then [.nil] else .list n::(elements ++ [.nil])

def tripleToks (t : Triple) : List Tok := .binary t.key::.binary t.value::integerToks t.ttl

def binToks (b : BinTriples) : List Tok :=
  .tuple 2::.binary b.1::listToks (3*b.2.length) (b.2.flatMap tripleToks)

def binsToks (bs : List BinTriples) : List Tok := listToks bs.length (bs.flatMap binToks)

structure PolicyNumbers where
  maxRetries : ℤ
  sleepBetweenRetries : ℤ
  socketTimeout : ℤ
  totalTimeout : ℤ

def PolicyNumbers.all (p : PolicyNumbers) : List ℤ :=
  [p.maxRetries,p.sleepBetweenRetries,p.socketTimeout,p.totalTimeout]

def PolicyNumbers.term (p : PolicyNumbers) : Term := .tuple (p.all.map .integer)

def policyToks (p : PolicyNumbers) : List Tok := .tuple 4::p.all.flatMap integerToks

/-- What stands behind the key of the record. -/
def cdtArgs (bs : List BinTriples) (ttl : ℤ) (p : PolicyNumbers) : List Tok :=
  binsToks bs ++ (integerToks ttl ++ policyToks p)

theorem writes_listToks {toks : List Tok} {ts : List Term} (h : Writes toks ts) :
    Writes (listToks ts.length toks) [ofList ts] := by
  unfold listToks
  split_ifs with hts
  · rw [List.eq_nil_of_length_eq_zero hts]
    exact writes_emptyList
  · exact h.list

theorem writes_triples (ts : List Triple) :
    Writes (ts.flatMap tripleToks) (ts.flatMap Triple.elements) := by
  induction ts with
  | nil => exact writes_nil
  | cons t ts ih =>
    have hone : Writes (tripleToks t) t.elements :=
      (writes_binary t.key).append ((writes_binary t.value).append (writes_integer t.ttl))
    rw [List.flatMap_cons,List.flatMap_cons]
    exact hone.append ih

theorem elements_length (ts : List Triple) :
    (ts.flatMap Triple.elements).length = 3*ts.length := by
  induction ts with
  | nil => rfl
  | cons t ts ih =>
    rw [List.flatMap_cons,List.length_append,ih,List.length_cons]
    show 3+3*ts.length = 3*(ts.length+1)
    omega

theorem writes_bin (b : BinTriples) : Writes (binToks b) [binTerm b] := by
  have hdata := writes_listToks (writes_triples b.2)
  rw [elements_length] at hdata
  exact ((writes_binary b.1).append hdata).tuple

/-- The heads stand for the terms that the native call is given. -/
theorem writes_cdtArgs (bs : List BinTriples) (ttl : ℤ) (p : PolicyNumbers) :
    Writes (cdtArgs bs ttl p) [ofList (bs.map binTerm),.integer ttl,p.term] := by
  have hbins := writes_listToks (writes_flatMap writes_bin bs)
  rw [List.length_map] at hbins
  exact hbins.append ((writes_integer ttl).append (writes_flatMap writes_integer p.all).tuple)

end Request

section Gathering
variable {env : PortEnv} {s : PortState}

def Narrow (i : ℤ) : Prop := -2^31 ≤ i ∧ i < 2^31

theorem narrow_head {i : ℤ} (h : Narrow i) : ∃ tok, integerToks i = [tok] ∧
    isShortInteger (typeOf tok) = true ∧ ∀ rest, eiDecodeLong (tok::rest) = some (i,rest) := by
  have hread : ∀ rest, eiDecodeLong (integerToks i ++ rest) = some (i,rest) :=
    decodeLong_integer ⟨by have := h.1; omega,by have := h.2; omega⟩
  rcases integerToks_narrow h with ⟨ch,heq⟩ | heq
  · rw [heq] at hread
    exact ⟨_,heq,rfl,hread⟩
  · rw [heq] at hread
    exact ⟨_,heq,rfl,hread⟩

theorem wide_head {i : ℤ} (h : ¬Narrow i) :
    ∃ tok, integerToks i = [tok] ∧ isShortInteger (typeOf tok) = false := by
  have hsmall : ¬(0 ≤ i ∧ i < 256) := fun hs => h ⟨by omega,by omega⟩
  refine ⟨.big (decide (i < 0)) ((Nat.digits 256 i.natAbs).map (Fin.ofNat 256)),?_,rfl⟩
  rw [integerToks,if_neg hsmall]
  exact if_neg h

/-- What the port keeps of a triple. -/
def fcapOf (t : Triple) : CdtPutStructBins := ⟨cStr t.key,cStr t.value,t.ttl⟩

theorem getFcaps_run {ts : List Triple} (h : ∀ t ∈ ts, Narrow t.ttl) (m : CdtPutStruct)
    (rest : List Tok) :
    getFcaps ts.length m (s.goto (ts.flatMap tripleToks ++ .nil::rest)) =
      (.ok { m with bins := m.bins ++ ts.map fcapOf },s.goto rest) := by
  induction ts generalizing m with
  | nil =>
    rw [List.map_nil,List.append_nil]
    rfl
  | cons t ts ih =>
    obtain ⟨tok,htok,hshort,hread⟩ := narrow_head (h t List.mem_cons_self)
    have hsplit : (t::ts).flatMap tripleToks ++ .nil::rest = .binary t.key::.binary t.value::
        (tok::(ts.flatMap tripleToks ++ .nil::rest)) := by
      rw [List.flatMap_cons,tripleToks,htok]
      rfl
    rw [List.length_cons,getFcaps,hsplit,bind_run_ok _ (decodeBinTerm_run t.key _)]
    show (decodeBinTerm >>= _ : Port CdtPutStruct) _ = _
    rw [bind_run_ok _ (decodeBinTerm_run t.value _)]
    show (if ¬isShortInteger (typeOf tok) = true then _ else (decode eiDecodeLong >>= _) :
      Port CdtPutStruct) _ = _
    rw [if_neg (not_not.mpr hshort),bind_run_ok _ (decode_some (hread _))]
    show getFcaps ts.length { m with bins := m.bins ++ [fcapOf t] } _ = _
    rw [ih (fun u hu => h u (List.mem_cons_of_mem t hu)),List.append_assoc]
    rfl

/-- The one name is written over, the triples are put behind those of the bins before. -/
def gatherBin (m : CdtPutStruct) (b : BinTriples) : CdtPutStruct :=
  ⟨cStr b.1,m.bins ++ b.2.map fcapOf⟩

/-- Bins with a data list that is not empty are read to the end. -/
theorem getBins_run {bs : List BinTriples} (hne : ∀ b ∈ bs, b.2 ≠ [])
    (h : ∀ b ∈ bs, ∀ t ∈ b.2, Narrow t.ttl) (n : ℕ) (m : CdtPutStruct) (rest : List Tok) :
    getBins env (bs.length+n) m (s.goto (bs.flatMap binToks ++ rest)) =
      getBins env n (bs.foldl gatherBin m) (s.goto rest) := by
  induction bs generalizing m with
  | nil =>
    rw [List.length_nil,Nat.zero_add]
    rfl
  | cons b bs ih =>
    have hlength : 3*b.2.length ≠ 0 := by
      have := List.length_pos_iff.mpr (hne b List.mem_cons_self)
      omega
    have hsplit : (b::bs).flatMap binToks ++ rest = .tuple 2::.binary b.1::
        .list (3*b.2.length)::(b.2.flatMap tripleToks ++ .nil::(bs.flatMap binToks ++ rest)) := by
      rw [List.flatMap_cons,binToks,listToks,if_neg hlength]
      simp only [List.append_assoc,List.cons_append,List.nil_append]
    have hfcaps := getFcaps_run (s := s) (h b List.mem_cons_self) { m with binName := cStr b.1 }
      (bs.flatMap binToks ++ rest)
    have hthird : 3*b.2.length/3 = b.2.length := Nat.mul_div_cancel_left _ (by omega)
    have hcount : (b::bs).length+n = bs.length+n+1 := by
      rw [List.length_cons]
      omega
    have htuple : tupleLength env (s.goto (.tuple 2::.binary b.1::.list (3*b.2.length)::
        (b.2.flatMap tripleToks ++ .nil::(bs.flatMap binToks ++ rest)))) = (.ok 2,s.goto
          (.binary b.1::.list (3*b.2.length)::
            (b.2.flatMap tripleToks ++ .nil::(bs.flatMap binToks ++ rest)))) := tupleLength_run _
    rw [hcount,getBins,hsplit,bind_run_ok _ htuple]
    show (decodeBinTerm >>= _ : Port CdtPutStruct) _ = _
    rw [bind_run_ok _ (decodeBinTerm_run b.1 _)]
    show (getFcaps (3*b.2.length/3) { m with binName := cStr b.1 } >>= _ : Port CdtPutStruct)
      (s.goto (b.2.flatMap tripleToks ++ .nil::(bs.flatMap binToks ++ rest))) = _
    rw [hthird,bind_run_ok _ hfcaps]
    exact ih (fun d hd => hne d (List.mem_cons_of_mem b hd))
      (fun d hd => h d (List.mem_cons_of_mem b hd)) _

theorem gathered_bins (bs : List BinTriples) (m : CdtPutStruct) :
    (bs.foldl gatherBin m).bins = m.bins ++ (bs.flatMap Prod.snd).map fcapOf := by
  induction bs generalizing m with
  | nil => simp
  | cons b bs ih =>
    rw [List.foldl_cons,ih,List.flatMap_cons,List.map_append]
    exact List.append_assoc _ _ _

end Gathering

section Limits
variable {env : PortEnv} {s : PortState}

def ShortAt (toks : List Tok) : Prop := isShortInteger (eiGetType toks).1 = true

def IntegersAt : ℕ → List Tok → Prop
  | 0, _ => True
  | n+1, toks => ShortAt toks ∧ IntegersAt n toks.tail

/-- A tuple of four narrow integers, or no tuple and a variable that happens to
hold 4 in front of them. -/
def PolicyAt (env : PortEnv) (toks : List Tok) : Prop :=
  (tupleStart env toks).1 = 4 ∧ IntegersAt 4 (tupleStart env toks).2

/-- What the port takes for the ttl and the policy. -/
def LimitsAt (env : PortEnv) (toks : List Tok) : Prop := ShortAt toks ∧ PolicyAt env toks.tail

theorem number_reads {toks : List Tok} (h : ShortAt toks) (msg : String) (initial : ℤ) :
    ∃ i, policyNumber msg initial (s.goto toks) = (.ok i,s.goto toks.tail) := by
  obtain ⟨tok,rest,rfl⟩ := head_of_short h
  have hshort : isShortInteger (typeOf tok) = true := h
  obtain ⟨i,hi⟩ := short_decodes hshort rest
  refine ⟨i,?_⟩
  unfold policyNumber
  rw [bind_run_ok _ (getType_run _)]
  show (if ¬isShortInteger (typeOf tok) = true then _ else (decode eiDecodeLong >>= _) :
    Port ℤ) _ = _
  rw [if_neg (not_not.mpr hshort),bind_run_ok _ (decode_some hi)]
  rfl

theorem number_stops {toks : List Tok} (h : ¬ShortAt toks) (msg : String) (initial : ℤ) :
    StopsQuietly (policyNumber msg initial) (s.goto toks) := by
  apply stopsQuietly_of_run (getType_run toks) rfl
  show StopsQuietly (if ¬isShortInteger (eiGetType toks).1 = true then _ else _ : Port ℤ) _
  have hlong : ¬isShortInteger (eiGetType toks).1 = true := h
  rw [if_pos hlong]
  exact stopsQuietly_stopError msg

theorem policy_reads {toks : List Tok} (h : PolicyAt env toks) (sizeMsg msg : String) :
    ∃ policy rest, policyArg env sizeMsg msg (s.goto toks) = (.ok policy,s.goto rest) := by
  obtain ⟨hlength,hretries,hsleep,hsocket,htotal,-⟩ := h
  obtain ⟨i₁,h₁⟩ := number_reads (s := s) hretries (msg ++ "1") 0
  obtain ⟨i₂,h₂⟩ := number_reads (s := s) hsleep (msg ++ "2") 0
  obtain ⟨i₃,h₃⟩ := number_reads (s := s) hsocket (msg ++ "3") 30000
  obtain ⟨i₄,h₄⟩ := number_reads (s := s) htotal (msg ++ "4") 1000
  refine ⟨⟨UInt32.ofInt i₁,some (UInt32.ofInt i₂),UInt32.ofInt i₃,UInt32.ofInt i₄⟩,
    (tupleStart env toks).2.tail.tail.tail.tail,?_⟩
  unfold policyArg
  rw [bind_run_ok _ (tupleLength_run toks),if_neg (not_not.mpr hlength),bind_run_ok _ h₁,
    bind_run_ok _ h₂,bind_run_ok _ h₃,bind_run_ok _ h₄]
  rfl

theorem policy_stops {toks : List Tok} (h : ¬PolicyAt env toks) (sizeMsg msg : String) :
    StopsQuietly (policyArg env sizeMsg msg) (s.goto toks) := by
  apply stopsQuietly_of_run (tupleLength_run toks) rfl
  by_cases hlength : (tupleStart env toks).1 = 4
  · rw [if_neg (not_not.mpr hlength)]
    generalize hstart : (tupleStart env toks).2 = start
    have hnumbers : ¬IntegersAt 4 start := fun hc => h ⟨hlength,hstart ▸ hc⟩
    by_cases hretries : ShortAt start
    · obtain ⟨i₁,h₁⟩ := number_reads (s := s) hretries (msg ++ "1") 0
      apply stopsQuietly_of_run h₁ rfl
      by_cases hsleep : ShortAt start.tail
      · obtain ⟨i₂,h₂⟩ := number_reads (s := s) hsleep (msg ++ "2") 0
        apply stopsQuietly_of_run h₂ rfl
        by_cases hsocket : ShortAt start.tail.tail
        · obtain ⟨i₃,h₃⟩ := number_reads (s := s) hsocket (msg ++ "3") 30000
          apply stopsQuietly_of_run h₃ rfl
          have htotal : ¬ShortAt start.tail.tail.tail :=
            fun hc => hnumbers ⟨hretries,hsleep,hsocket,hc,trivial⟩
          exact (number_stops htotal _ _).bind _
        · exact (number_stops hsocket _ _).bind _
      · exact (number_stops hsleep _ _).bind _
    · exact (number_stops hretries _ _).bind _
  · rw [if_pos hlength]
    exact stopsQuietly_stopError sizeMsg

end Limits

section Call
variable {env : PortEnv} {s : PortState}

/-- The handler from the end of the bins on. -/
def afterBins (env : PortEnv) (key : AsKey) (mycdt : CdtPutStruct) : Port Unit := do
  let (termType,_) ← getType
  if ¬isShortInteger termType then stop .returned
  else do
    let recordTtl := (← decode eiDecodeLong).getD 0
    let policy ← policyArg env "CPCP invalid 5 argument: policy ( wrong size )"
      "CPCP invalid policy"
    checkAll
    let _ ← request env (.keyOperate key (cdtPutOps env recordTtl mycdt)
      (some ⟨policy,UInt32.ofInt recordTtl⟩))
    okMacro (textBytes "cdt_put")
    postMacro

theorem call_bins {n : ℕ} {toks : List Tok} {mycdt : CdtPutStruct} {rest : List Tok}
    (ns set key : Bytes)
    (h : getBins env n ⟨[],[]⟩ (s.fresh.goto toks) = (.ok mycdt,s.fresh.goto rest)) :
    callPortCdtPut env (s.goto (.binary ns::.binary set::.binary key::.list n::toks)) =
      afterBins env (asKeyInitStr ns set key) mycdt (s.fresh.goto rest) := by
  have hheader : required eiDecodeListHeader "invalid list of bins"
      (s.fresh.goto (.list n::toks)) = (.ok n,s.fresh.goto toks) := required_some _ rfl
  unfold callPortCdtPut
  rw [preMacro_bind_run,bind_run_ok _ (binaryArg_run _ _ _ _),
    bind_run_ok _ (binaryArg_run _ _ _ _),bind_run_ok _ (binaryArg_run _ _ _ _),
    bind_run_ok _ (getType_run _)]
  show (required eiDecodeListHeader "invalid list of bins" >>= _) (s.fresh.goto (.list n::toks)) = _
  rw [bind_run_ok _ hheader,bind_run_ok _ h]
  rfl

theorem afterBins_quiet {toks : List Tok} (h : ¬LimitsAt env toks) (key : AsKey)
    (mycdt : CdtPutStruct) : StopsQuietly (afterBins env key mycdt) (s.goto toks) := by
  apply stopsQuietly_of_run (getType_run toks) rfl
  show StopsQuietly (if ¬isShortInteger (eiGetType toks).1 = true then _ else _ : Port Unit) _
  by_cases hshort : isShortInteger (eiGetType toks).1 = true
  · obtain ⟨tok,rest,rfl⟩ := head_of_short hshort
    obtain ⟨i,hi⟩ := short_decodes hshort rest
    rw [if_neg (not_not.mpr hshort)]
    apply stopsQuietly_of_run (decode_some hi) rfl
    exact (policy_stops (fun hp => h ⟨hshort,hp⟩) _ _).bind _
  · rw [if_pos hshort]
    exact ⟨_,_,rfl,rfl⟩

theorem afterBins_puts (hinit : s.isAerospikeInitialised = true) (hconn : s.isConnected = true)
    {toks : List Tok} (h : LimitsAt env toks) (key : AsKey) (mycdt : CdtPutStruct) :
    ∃ ttl policy, (afterBins env key mycdt (s.goto toks)).2.submitted =
      s.submitted ++ [.keyOperate key (cdtPutOps env ttl mycdt) (some policy)] := by
  obtain ⟨hhead,hpolicy⟩ := h
  obtain ⟨tok,rest,rfl⟩ := head_of_short hhead
  have hshort : isShortInteger (typeOf tok) = true := hhead
  obtain ⟨i,hi⟩ := short_decodes hshort rest
  have hrest : PolicyAt env rest := hpolicy
  obtain ⟨policy,more,hread⟩ := policy_reads (s := s) hrest
    "CPCP invalid 5 argument: policy ( wrong size )" "CPCP invalid policy"
  have hchecked := checkAll_run (s := s.goto more) hinit hconn
  refine ⟨i,⟨policy,UInt32.ofInt i⟩,?_⟩
  unfold afterBins
  rw [bind_run_ok _ (getType_run _)]
  show ((if ¬isShortInteger (typeOf tok) = true then _ else (decode eiDecodeLong >>= _) :
    Port Unit) _).2.submitted = _
  rw [if_neg (not_not.mpr hshort),bind_run_ok _ (decode_some hi)]
  show ((policyArg env _ _ >>= _ : Port Unit) _).2.submitted = _
  rw [bind_run_ok _ hread,bind_run_ok _ hchecked]
  show (((if (env.respond _).status ≠ aerospikeOk then _ else _ : Port Response) >>= _ :
    Port Unit) _).2.submitted = _
  split_ifs <;> rfl

/-- A bins argument that is no list is answered at once. -/
theorem call_refused (ns set key : Bytes) {args : List Tok}
    (h : ∀ n toks, args ≠ .list n::toks) :
    StopsQuietly (callPortCdtPut env)
      (s.goto (.binary ns::.binary set::.binary key::args)) := by
  have htype : (eiGetType args).1 ≠ .list := by
    intro hc
    obtain ⟨n,toks,heq⟩ := getType_list_iff.mp hc
    exact h n toks heq
  unfold callPortCdtPut StopsQuietly
  rw [preMacro_bind_run,bind_run_ok _ (binaryArg_run _ _ _ _),
    bind_run_ok _ (binaryArg_run _ _ _ _),bind_run_ok _ (binaryArg_run _ _ _ _),
    bind_run_ok _ (getType_run _)]
  show ∃ e t, (if (eiGetType args).1 ≠ .list then stopError "CPCP bin argument" else _ :
    Port Unit) (s.fresh.goto args) = (.error e,t) ∧ _
  rw [if_pos htype]
  exact stopsQuietly_stopError _

end Call

section Views
variable (c : Client)

/-- The writes of one triple, without the clock. -/
def tripleView (name key value : Bytes) (ttl : ℤ) : List Operation :=
  if c.takesBin name then [.mapPut name [key] valueKey (.bytes value),
    .mapPut name [key] ttlKey (.integer ttl),.mapPut name [key] wtKey (.integer 0)]
  else []

theorem tripleView_nil {name key value : Bytes} {ttl : ℤ} :
    tripleView c name key value ttl = [] ↔ ¬c.takesBin name = true := by
  unfold tripleView
  split_ifs with h <;> simp [h]

theorem tripleView_length {name key value : Bytes} {ttl : ℤ} (h : c.takesBin name = true)
    {name' key' value' : Bytes} {ttl' : ℤ} :
    (tripleView c name' key' value' ttl').length ≤ (tripleView c name key value ttl).length := by
  unfold tripleView
  rw [if_pos h]
  split_ifs <;> simp

theorem view_of_writes {name key value : Bytes} {ttl : ℤ} (now : ℤ) :
    (taken c (.mapPut name [key] valueKey (.bytes value)) ++
      (taken c (.mapPut name [key] ttlKey (.integer ttl)) ++
        taken c (.mapPut name [key] wtKey (.integer now)))).map eraseWt =
      tripleView c name key value ttl := by
  have hne : ttlKey ≠ wtKey := by decide
  have hbin : ∀ k v, (Operation.mapPut name [key] k v).bin = name := fun _ _ => rfl
  rw [List.map_append,List.map_append,eraseWt_taken,eraseWt_taken,eraseWt_taken,tripleView,
    hbin,hbin,hbin]
  split_ifs
  · simp [eraseWt,hne]
  · rfl

theorem written_view {now : ℤ} {bin : Bytes} {t : Triple} (h : Narrow t.ttl) :
    (written c now bin t).map eraseWt =
      tripleView c (cStr bin) (cStr t.key) t.value t.ttl := by
  have hget : getInt64 (.integer t.ttl) = some t.ttl :=
    if_pos ⟨by have := h.1; omega,by have := h.2; omega⟩
  rw [← view_of_writes c now]
  unfold written ttlOperations
  rw [hget]
  rfl

/-- What the port adds for one triple. -/
def fcapOperations (now : ℤ) (binName : Bytes) (lbin : CdtPutStructBins) : List Operation :=
  taken c (.mapPut binName [lbin.fcapKey] valueKey (.bytes lbin.fcapVal)) ++
    (taken c (.mapPut binName [lbin.fcapKey] ttlKey (.integer lbin.fcapTtl)) ++
      taken c (.mapPut binName [lbin.fcapKey] wtKey (.integer now)))

theorem putFcap_entries (env : PortEnv) (binName : Bytes) (lbins : List CdtPutStructBins)
    (ops : Operations) : (lbins.foldl (putFcap env binName) ops).entries =
      ops.entries ++ lbins.flatMap (fcapOperations env.client env.now binName) := by
  induction lbins generalizing ops with
  | nil => simp
  | cons lbin lbins ih =>
    have hone : (putFcap env binName ops lbin).entries =
        ops.entries ++ fcapOperations env.client env.now binName lbin := by
      unfold putFcap fcapOperations
      rw [add_eq,add_eq,add_eq]
      simp only [List.append_assoc]
    rw [List.foldl_cons,ih,hone,List.flatMap_cons,List.append_assoc]

theorem cdtPutOps_entries (env : PortEnv) (ttl : ℤ) (m : CdtPutStruct) :
    (cdtPutOps env ttl m).entries =
      m.bins.flatMap (fcapOperations env.client env.now m.binName) := by
  unfold cdtPutOps
  rw [putFcap_entries]
  exact List.nil_append _

end Views

section Heads
variable {env : PortEnv}

theorem integer_head (i : ℤ) (rest : List Tok) :
    (ShortAt (integerToks i ++ rest) ↔ Narrow i) ∧ (integerToks i ++ rest).tail = rest := by
  by_cases h : Narrow i
  · obtain ⟨tok,htok,hshort,-⟩ := narrow_head h
    rw [htok]
    exact ⟨iff_of_true hshort h,rfl⟩
  · obtain ⟨tok,htok,hwide⟩ := wide_head h
    have hnot : ¬ShortAt (tok::rest) := by
      intro hc
      have hshort : isShortInteger (typeOf tok) = true := hc
      rw [hwide] at hshort
      cases hshort
    rw [htok]
    exact ⟨iff_of_false hnot h,rfl⟩

theorem integersAt_iff (is : List ℤ) (rest : List Tok) :
    IntegersAt is.length (is.flatMap integerToks ++ rest) ↔ ∀ i ∈ is, Narrow i := by
  induction is with
  | nil => exact iff_of_true trivial (fun i hi => absurd hi List.not_mem_nil)
  | cons i is ih =>
    obtain ⟨hhead,htail⟩ := integer_head i (is.flatMap integerToks ++ rest)
    rw [List.flatMap_cons,List.append_assoc,List.length_cons,List.forall_mem_cons,← ih]
    show ShortAt _ ∧ IntegersAt is.length (integerToks i ++ _).tail ↔ _
    rw [hhead,htail]

theorem limitsAt_iff (ttl : ℤ) (p : PolicyNumbers) (rest : List Tok) :
    LimitsAt env (integerToks ttl ++ policyToks p ++ rest) ↔
      Narrow ttl ∧ ∀ i ∈ p.all, Narrow i := by
  obtain ⟨hhead,htail⟩ := integer_head ttl (policyToks p ++ rest)
  rw [List.append_assoc]
  unfold LimitsAt
  rw [hhead,htail]
  apply and_congr_right
  intro _
  have hpolicy : PolicyAt env (policyToks p ++ rest) ↔
      IntegersAt 4 (p.all.flatMap integerToks ++ rest) := and_iff_right rfl
  exact hpolicy.trans (integersAt_iff p.all rest)

end Heads

section Port
variable {env : PortEnv} {s : PortState} {ns set key : Bytes} {bs : List BinTriples} {ttl : ℤ}
variable {p : PolicyNumbers} {rest : List Tok}

def portCdtPut (env : PortEnv) (s : PortState) (ns set key : Bytes) (args : List Tok) :
    Except Leave Unit × PortState :=
  callPortCdtPut env (s.goto (.binary ns::.binary set::.binary key::args))

/-- The operations that the port hands to the client, in order. -/
def portOperations (env : PortEnv) (s : PortState) (ns set key : Bytes) (args : List Tok) :
    List Operation :=
  ((portCdtPut env s ns set key args).2.submitted.drop s.submitted.length).flatMap
    requestOperations

theorem operations_none {args : List Tok}
    (h : (portCdtPut env s ns set key args).2.submitted = s.submitted) :
    portOperations env s ns set key args = [] := by
  unfold portOperations
  rw [h,List.drop_length]
  rfl

theorem operations_put {args : List Tok} {k : AsKey} {m : CdtPutStruct} {i : ℤ}
    {policy : PolicyOperate} (h : (portCdtPut env s ns set key args).2.submitted =
      s.submitted ++ [.keyOperate k (cdtPutOps env i m) (some policy)]) :
    portOperations env s ns set key args =
      m.bins.flatMap (fcapOperations env.client env.now m.binName) := by
  unfold portOperations
  rw [h,List.drop_left,← cdtPutOps_entries env i m]
  exact List.append_nil _

/-- The port reads every bin to its end. -/
def ReadsOn (bs : List BinTriples) (ttl : ℤ) (p : PolicyNumbers) : Prop :=
  (∀ b ∈ bs, b.2 ≠ []) ∧ Narrow ttl ∧ ∀ i ∈ p.all, Narrow i

theorem cdtArgs_list (hbs : bs ≠ []) : cdtArgs bs ttl p ++ rest =
    .list bs.length::(bs.flatMap binToks ++ .nil::(integerToks ttl ++ policyToks p ++ rest)) := by
  have hlength : bs.length ≠ 0 := fun hz => hbs (List.eq_nil_of_length_eq_zero hz)
  unfold cdtArgs binsToks listToks
  rw [if_neg hlength]
  simp only [List.append_assoc,List.cons_append,List.nil_append]

/-- All triples are written under the last name. -/
theorem port_reads (hinit : s.isAerospikeInitialised = true) (hconn : s.isConnected = true)
    (hts : ∀ b ∈ bs, ∀ t ∈ b.2, Narrow t.ttl) {last : BinTriples} (hlast : bs.getLast? = some last)
    (h : ReadsOn bs ttl p) :
    (portOperations env s ns set key (cdtArgs bs ttl p ++ rest)).map eraseWt =
      bs.flatMap (fun b => b.2.flatMap (fun t =>
        tripleView env.client (cStr last.1) (cStr t.key) (cStr t.value) t.ttl)) := by
  have hbs : bs ≠ [] := by
    rintro rfl
    cases hlast
  have hname : (bs.foldl gatherBin ⟨[],[]⟩).binName = cStr last.1 := by
    obtain ⟨init,rfl⟩ := List.getLast?_eq_some_iff.mp hlast
    rw [List.foldl_append]
    rfl
  have hbins : getBins env bs.length ⟨[],[]⟩ (s.fresh.goto (bs.flatMap binToks ++
      .nil::(integerToks ttl ++ policyToks p ++ rest))) = (.ok (bs.foldl gatherBin ⟨[],[]⟩),
        s.fresh.goto (integerToks ttl ++ policyToks p ++ rest)) := getBins_run h.1 hts 0 _ _
  have hlimits : LimitsAt env (integerToks ttl ++ policyToks p ++ rest) :=
    (limitsAt_iff ttl p rest).mpr h.2
  obtain ⟨i,policy,hput⟩ := afterBins_puts (s := s.fresh) hinit hconn hlimits
    (asKeyInitStr ns set key) (bs.foldl gatherBin ⟨[],[]⟩)
  have hrun : (portCdtPut env s ns set key (cdtArgs bs ttl p ++ rest)).2.submitted =
      s.submitted ++ [.keyOperate (asKeyInitStr ns set key)
        (cdtPutOps env i (bs.foldl gatherBin ⟨[],[]⟩)) (some policy)] := by
    unfold portCdtPut
    rw [cdtArgs_list hbs,call_bins ns set key hbins]
    exact hput
  rw [operations_put hrun,gathered_bins,hname,List.nil_append,List.flatMap_map,
    List.flatMap_assoc,List.map_flatMap]
  apply List.flatMap_congr
  intro b _
  rw [List.map_flatMap]
  exact List.flatMap_congr (fun t _ => view_of_writes env.client env.now)

/-- An empty data list is no list to the port, so it takes its head for the ttl. -/
theorem port_empty_bin {init post : List BinTriples} {name : Bytes}
    (hne : ∀ b ∈ init, b.2 ≠ []) (hts : ∀ b ∈ init, ∀ t ∈ b.2, Narrow t.ttl) :
    StopsQuietly (callPortCdtPut env) (s.goto (.binary ns::.binary set::.binary key::
      (cdtArgs (init ++ (name,[])::post) ttl p ++ rest))) := by
  have hsplit : (init ++ (name,[])::post).flatMap binToks ++
      .nil::(integerToks ttl ++ policyToks p ++ rest) =
        init.flatMap binToks ++ (.tuple 2::.binary name::.nil::(post.flatMap binToks ++
          .nil::(integerToks ttl ++ policyToks p ++ rest))) := by
    rw [List.flatMap_append,List.flatMap_cons,List.append_assoc]
    rfl
  have hcount : (init ++ (name,([]:List Triple))::post).length = init.length+(post.length+1) := by
    rw [List.length_append,List.length_cons]
  have hbins : getBins env (init ++ (name,[])::post).length ⟨[],[]⟩ (s.fresh.goto
      ((init ++ (name,[])::post).flatMap binToks ++
        .nil::(integerToks ttl ++ policyToks p ++ rest))) =
      (.ok { init.foldl gatherBin ⟨[],[]⟩ with binName := cStr name },s.fresh.goto
        (.nil::(post.flatMap binToks ++ .nil::(integerToks ttl ++ policyToks p ++ rest)))) := by
    rw [hsplit,hcount,getBins_run hne hts]
    rfl
  have hnil : ¬LimitsAt env (.nil::(post.flatMap binToks ++
      .nil::(integerToks ttl ++ policyToks p ++ rest))) := fun hc => by cases hc.1
  have hbs : init ++ (name,([]:List Triple))::post ≠ [] := by simp
  unfold StopsQuietly
  rw [cdtArgs_list hbs,call_bins ns set key hbins]
  exact afterBins_quiet hnil _ _

theorem port_nothing (hbs : bs ≠ []) (hts : ∀ b ∈ bs, ∀ t ∈ b.2, Narrow t.ttl)
    (h : ¬ReadsOn bs ttl p) : portOperations env s ns set key (cdtArgs bs ttl p ++ rest) = [] := by
  have hquiet : StopsQuietly (callPortCdtPut env) (s.goto (.binary ns::.binary set::.binary key::
      (cdtArgs bs ttl p ++ rest))) := by
    by_cases hne : ∀ b ∈ bs, b.2 ≠ []
    · have hbins : getBins env bs.length ⟨[],[]⟩ (s.fresh.goto (bs.flatMap binToks ++
          .nil::(integerToks ttl ++ policyToks p ++ rest))) = (.ok (bs.foldl gatherBin ⟨[],[]⟩),
            s.fresh.goto (integerToks ttl ++ policyToks p ++ rest)) := getBins_run hne hts 0 _ _
      unfold StopsQuietly
      rw [cdtArgs_list hbs,call_bins ns set key hbins]
      exact afterBins_quiet (fun hc => h ⟨hne,(limitsAt_iff ttl p rest).mp hc⟩) _ _
    · obtain ⟨init,b,post,rfl,hinit,hb⟩ := first_failing hne
      obtain ⟨name,ts⟩ := b
      cases not_not.mp hb
      exact port_empty_bin hinit (fun b hb => hts b (List.mem_append_left _ hb))
  obtain ⟨e,t,hrun,hsub⟩ := hquiet
  apply operations_none
  unfold portCdtPut
  rw [hrun]
  exact hsub

end Port

section Native
variable {c : Client} {nenv : Env} {w : World} {ref : ℕ} {ns set key : Bytes}
variable {bs : List BinTriples} {ttl : ℤ} {p : PolicyNumbers}

/-- The native call on the terms that the heads stand for. -/
def nativeCdtPut (c : Client) (nenv : Env) (ref : ℕ) (ns set key : Bytes) (bs : List BinTriples)
    (ttl : ℤ) (p : PolicyNumbers) : Nif Term :=
  cdtPutAsync c nenv (.reference ref) (.binary ns) (.binary set) (.binary key)
    (ofList (bs.map binTerm)) (.integer ttl) p.term

theorem native_view (hw : w.isConnectedFlag = true)
    (hts : ∀ b ∈ bs, ∀ t ∈ b.2, Narrow t.ttl) :
    (submittedOperations (nativeCdtPut c nenv ref ns set key bs ttl p) w).map eraseWt =
      if Int64 ttl then bs.flatMap (fun b => b.2.flatMap (fun t =>
        tripleView c (cStr b.1) (cStr t.key) t.value t.ttl)) else [] := by
  have hk := binaryKey_binary ns set key
  have hpolicy : ∃ q, readPolicyAsync p.term = .ok q := ⟨_,rfl⟩
  obtain ⟨q,hq⟩ := hpolicy
  cases bs with
  | nil =>
    have hnone : submissions (nativeCdtPut c nenv ref ns set key [] ttl p) w = some [] :=
      submissions_stopped (async_empty hk)
    unfold submittedOperations
    rw [hnone]
    split_ifs <;> rfl
  | cons b bs =>
    by_cases httl : Int64 ttl
    · have hdata : (b::bs).map binTerm =
          ((b::bs).map (fun b => (b.1,b.2.flatMap Triple.elements))).map encodeBin := by
        rw [List.map_map]
        rfl
      have hget : getLong (.integer ttl) = some ttl := if_pos httl
      have hsome : submissions (nativeCdtPut c nenv ref ns set key (b::bs) ttl p) w = some
          [.keyOperate (asKeyInitStr ns set key) { initOperations ttl with
            entries := ((b::bs).map (fun b => (b.1,b.2.flatMap Triple.elements))).flatMap
              (binPuts c nenv.now) } (some ⟨q,UInt32.ofInt ttl⟩)] := by
        unfold nativeCdtPut
        rw [hdata]
        exact async_submits hw hk hget hq
      unfold submittedOperations
      rw [hsome,if_pos httl,Option.getD_some,List.flatMap_singleton,requestOperations,
        List.flatMap_map,List.map_flatMap]
      apply List.flatMap_congr
      intro d hd
      rw [binPuts_triples,List.map_flatMap]
      exact List.flatMap_congr (fun t ht => written_view c (hts d hd t ht))
    · have hget : getLong (.integer ttl) = none := if_neg httl
      have hnone : submissions (nativeCdtPut c nenv ref ns set key (b::bs) ttl p) w = none :=
        submissions_badarg (async_limits_refused hw hk (Or.inl hget))
      unfold submittedOperations
      rw [hnone,if_neg httl]
      rfl

end Native

section Agreement
variable {env : PortEnv} {nenv : Env} {w : World} {s : PortState} {ref : ℕ}
variable {ns set key : Bytes} {bs : List BinTriples} {ttl : ℤ} {p : PolicyNumbers}
variable {rest : List Tok}

/-- Both calls write the same, but for the clock. -/
def SameOperations (env : PortEnv) (nenv : Env) (w : World) (s : PortState) (ref : ℕ)
    (ns set key : Bytes) (bs : List BinTriples) (ttl : ℤ) (p : PolicyNumbers) (rest : List Tok) :
    Prop :=
  (portOperations env s ns set key (cdtArgs bs ttl p ++ rest)).map eraseWt =
    (submittedOperations (nativeCdtPut env.client nenv ref ns set key bs ttl p) w).map eraseWt

/-- The native call has nothing to write. -/
def NothingToWrite (c : Client) (bs : List BinTriples) (ttl : ℤ) : Prop :=
  ¬Int64 ttl ∨ ∀ b ∈ bs, b.2 = [] ∨ ¬c.takesBin (cStr b.1) = true

/-- All bins have one name, and no value has a zero in it. -/
def OneName (bs : List BinTriples) : Prop :=
  (∀ b ∈ bs, ∀ d ∈ bs, cStr b.1 = cStr d.1) ∧ ∀ b ∈ bs, ∀ t ∈ b.2, 0 ∉ t.value

theorem view_nil_iff {c : Client} : bs.flatMap (fun b => b.2.flatMap (fun t =>
    tripleView c (cStr b.1) (cStr t.key) t.value t.ttl)) = [] ↔
      ∀ b ∈ bs, b.2 = [] ∨ ¬c.takesBin (cStr b.1) = true := by
  rw [List.flatMap_eq_nil_iff]
  apply forall₂_congr
  intro b _
  rw [List.flatMap_eq_nil_iff]
  cases hb : b.2 with
  | nil => simp
  | cons t ts => simp +contextual [tripleView_nil]

theorem native_nil_iff {c : Client} : (if Int64 ttl then bs.flatMap (fun b => b.2.flatMap (fun t =>
    tripleView c (cStr b.1) (cStr t.key) t.value t.ttl)) else []) = [] ↔
      NothingToWrite c bs ttl := by
  unfold NothingToWrite
  split_ifs with httl
  · rw [view_nil_iff,or_iff_right (not_not.mpr httl)]
  · exact iff_of_true rfl (Or.inl httl)

theorem one_view_iff {c : Client} {name name' k v v' : Bytes} {i : ℤ}
    (htake : c.takesBin name = true) :
    tripleView c name' k v i = tripleView c name k v' i ↔ name' = name ∧ v = v' := by
  constructor
  · intro h
    by_cases htake' : c.takesBin name' = true
    · rw [tripleView,tripleView,if_pos htake,if_pos htake'] at h
      have hhead := (List.cons.inj h).1
      injection hhead with hname _ _ hvalue
      injection hvalue with hvalue
      exact ⟨hname,hvalue⟩
    · rw [(tripleView_nil c).mpr htake'] at h
      exact absurd htake ((tripleView_nil c).mp h.symm)
  · rintro ⟨rfl,rfl⟩
    rfl

/-- Writing everything under the last name is right if that is the only name
and the values survive, or if nothing is written at all. -/
theorem views_same_iff {c : Client} {last : BinTriples} (hlast : last ∈ bs)
    (hne : ∀ b ∈ bs, b.2 ≠ []) :
    bs.flatMap (fun b => b.2.flatMap (fun t =>
      tripleView c (cStr last.1) (cStr t.key) (cStr t.value) t.ttl)) =
    bs.flatMap (fun b => b.2.flatMap (fun t =>
      tripleView c (cStr b.1) (cStr t.key) t.value t.ttl)) ↔
    (∀ b ∈ bs, b.2 = [] ∨ ¬c.takesBin (cStr b.1) = true) ∨ OneName bs := by
  by_cases htake : c.takesBin (cStr last.1) = true
  · have hsome : ¬∀ b ∈ bs, b.2 = [] ∨ ¬c.takesBin (cStr b.1) = true :=
      fun hc => (hc last hlast).elim (hne last hlast) (fun hn => hn htake)
    rw [or_iff_right hsome]
    constructor
    · intro h
      have hblock : ∀ b ∈ bs, ∀ t ∈ b.2, cStr b.1 = cStr last.1 ∧ t.value = cStr t.value := by
        intro b hb t ht
        have hbin := eq_of_flatMap_eq (fun b _ => flatMap_length_le
          (fun t _ => tripleView_length c htake)) h.symm b hb
        exact (one_view_iff htake).mp
          (eq_of_flatMap_eq (fun t _ => tripleView_length c htake) hbin t ht)
      have hname : ∀ b ∈ bs, cStr b.1 = cStr last.1 := by
        intro b hb
        obtain ⟨t,ht⟩ := List.exists_mem_of_ne_nil _ (hne b hb)
        exact (hblock b hb t ht).1
      exact ⟨fun b hb d hd => (hname b hb).trans (hname d hd).symm,
        fun b hb t ht => cStr_eq_self.mp (hblock b hb t ht).2.symm⟩
    · rintro ⟨hname,hvalue⟩
      apply List.flatMap_congr
      intro b hb
      apply List.flatMap_congr
      intro t ht
      rw [hname b hb last hlast,cStr_eq_self.mpr (hvalue b hb t ht)]
  · have hnil : bs.flatMap (fun b => b.2.flatMap (fun t =>
        tripleView c (cStr last.1) (cStr t.key) (cStr t.value) t.ttl)) = [] := by
      simp only [(tripleView_nil c).mpr htake,List.flatMap_eq_nil_iff,implies_true]
    rw [hnil,eq_comm,view_nil_iff]
    refine (or_iff_left_of_imp ?_).symm
    rintro ⟨hname,-⟩ b hb
    exact Or.inr (hname b hb last hlast ▸ htake)

theorem same_operations_iff (hw : w.isConnectedFlag = true)
    (hinit : s.isAerospikeInitialised = true) (hconn : s.isConnected = true)
    (hts : ∀ b ∈ bs, ∀ t ∈ b.2, Narrow t.ttl) :
    SameOperations env nenv w s ref ns set key bs ttl p rest ↔
      NothingToWrite env.client bs ttl ∨ ReadsOn bs ttl p ∧ OneName bs := by
  unfold SameOperations
  rw [native_view hw hts]
  rcases List.eq_nil_or_concat' bs with rfl | ⟨init,last,hbs⟩
  · have hrefused : StopsQuietly (callPortCdtPut env) (s.goto (.binary ns::.binary set::
        .binary key::(cdtArgs [] ttl p ++ rest))) := call_refused ns set key (fun _ _ hc => nomatch hc)
    obtain ⟨e,t,hrun,hsub⟩ := hrefused
    have hnone : portOperations env s ns set key (cdtArgs [] ttl p ++ rest) = [] := by
      apply operations_none
      unfold portCdtPut
      rw [hrun]
      exact hsub
    rw [hnone,List.map_nil,eq_comm,native_nil_iff]
    exact (or_iff_left_of_imp (fun _ => Or.inr (fun b hb => absurd hb List.not_mem_nil))).symm
  · have hne : bs ≠ [] := by simp [hbs]
    by_cases hread : ReadsOn bs ttl p
    · have hlast : bs.getLast? = some last := by simp [hbs]
      have httl : Int64 ttl := ⟨by have := hread.2.1.1; omega,by have := hread.2.1.2; omega⟩
      rw [port_reads hinit hconn hts hlast hread,if_pos httl,
        views_same_iff (List.mem_of_getLast? hlast) hread.1,and_iff_right hread]
      unfold NothingToWrite
      rw [or_iff_right (not_not.mpr httl)]
    · rw [port_nothing hne hts hread,List.map_nil,eq_comm,native_nil_iff]
      exact (or_iff_left_of_imp (fun hc => absurd hc.1 hread)).symm

end Agreement

section Malformed
variable {env : PortEnv} {s : PortState} {ns set key : Bytes} {args : List Tok}

/-- The heads begin with a list of bins, each with a list of complete triples. -/
def WellFormed (args : List Tok) : Prop :=
  ∃ bs rest, (∀ b ∈ bs, ∀ t ∈ b.2, Narrow t.ttl) ∧ args = binsToks bs ++ rest

def WritesNothing (env : PortEnv) (s : PortState) (ns set key : Bytes) (args : List Tok) : Prop :=
  (portCdtPut env s ns set key args).2.submitted = s.submitted

/-- The caller gets an answer and the client gets no request. -/
def Refuses (env : PortEnv) (s : PortState) (ns set key : Bytes) (args : List Tok) : Prop :=
  Answers s.written (portCdtPut env s ns set key args) ∧ WritesNothing env s ns set key args

/-- Where the port leaves off reading bins, it finds a ttl and a policy. -/
def GoesOn (env : PortEnv) (args : List Tok) : Prop :=
  ∃ n toks, args = .list n::toks ∧ LimitsAt env (binsEnd env n toks)

/-- Where the port leaves off reading bins, it finds a ttl. -/
def EndsOnInteger (env : PortEnv) (args : List Tok) : Prop :=
  ∀ n toks, args = .list n::toks → ShortAt (binsEnd env n toks)

theorem writes_nothing_iff (hinit : s.isAerospikeInitialised = true)
    (hconn : s.isConnected = true) :
    WritesNothing env s ns set key args ↔ ¬GoesOn env args := by
  unfold WritesNothing portCdtPut
  by_cases hlist : ∃ n toks, args = .list n::toks
  · obtain ⟨n,toks,rfl⟩ := hlist
    have hend : ∃ mycdt, getBins env n ⟨[],[]⟩ (s.fresh.goto toks) =
        (.ok mycdt,s.fresh.goto (binsEnd env n toks)) := getBins_end n _ toks
    obtain ⟨mycdt,hbins⟩ := hend
    have hgoes : GoesOn env (.list n::toks) ↔ LimitsAt env (binsEnd env n toks) := by
      simp [GoesOn]
    rw [call_bins ns set key hbins,hgoes]
    by_cases hlimits : LimitsAt env (binsEnd env n toks)
    · obtain ⟨i,policy,hput⟩ := afterBins_puts (s := s.fresh) hinit hconn hlimits
        (asKeyInitStr ns set key) mycdt
      rw [hput]
      exact iff_of_false (by simp [PortState.fresh]) (not_not.mpr hlimits)
    · obtain ⟨e,t,hrun,hsub⟩ := afterBins_quiet (s := s.fresh) hlimits (asKeyInitStr ns set key)
        mycdt
      rw [hrun]
      exact iff_of_true hsub hlimits
  · have hno : ∀ n toks, args ≠ .list n::toks := fun n toks heq => hlist ⟨n,toks,heq⟩
    have hquiet : StopsQuietly (callPortCdtPut env)
        (s.goto (.binary ns::.binary set::.binary key::args)) := call_refused ns set key hno
    obtain ⟨e,t,hrun,hsub⟩ := hquiet
    rw [hrun]
    exact iff_of_true hsub (fun ⟨n,toks,heq,_⟩ => hno n toks heq)

theorem refuses_iff (hinit : s.isAerospikeInitialised = true) (hconn : s.isConnected = true) :
    Refuses env s ns set key args ↔ ¬GoesOn env args ∧ EndsOnInteger env args := by
  have hanswers : Answers s.written (portCdtPut env s ns set key args) ↔
      EndsOnInteger env args := by
    unfold portCdtPut
    rw [cdtPut_answers]
    simp [CdtPutFine,ReadsBinaries,Reads,eiDecodeBinary,EndsOnInteger,ShortAt]
  unfold Refuses
  rw [hanswers,writes_nothing_iff hinit hconn]
  exact and_comm

/-- The port writes what the native call writes exactly where there is one name
and no zero, and it lets a malformed request through exactly where a ttl and a
policy follow what it has read. -/
theorem port_cdt_put_iff {nenv : Env} {w : World} {ref : ℕ} (hw : w.isConnectedFlag = true)
    (hinit : s.isAerospikeInitialised = true) (hconn : s.isConnected = true) :
    (∀ (bs : List BinTriples) (ttl : ℤ) (p : PolicyNumbers) (rest : List Tok),
      (∀ b ∈ bs, ∀ t ∈ b.2, Narrow t.ttl) →
      (SameOperations env nenv w s ref ns set key bs ttl p rest ↔
        NothingToWrite env.client bs ttl ∨ ReadsOn bs ttl p ∧ OneName bs)) ∧
    ∀ args : List Tok, ¬WellFormed args →
      (WritesNothing env s ns set key args ↔ ¬GoesOn env args) ∧
      (Refuses env s ns set key args ↔ ¬GoesOn env args ∧ EndsOnInteger env args) :=
  ⟨fun _ _ _ _ hts => same_operations_iff hw hinit hconn hts,
    fun _ _ => ⟨writes_nothing_iff hinit hconn,refuses_iff hinit hconn⟩⟩

end Malformed

section Example
open AspikePort.PortAgreement AspikePort.FrameReplies

def plainPolicy : PolicyNumbers := ⟨0,0,30000,1000⟩

/-- One bin with two triples. -/
def oneBin : List BinTriples := [([98],[⟨[97],[118],60⟩,⟨[99],[119],300⟩])]

theorem one_bin_same : SameOperations plainPort plainEnv connectedWorld connectedPort 1 [110]
    [115] [107] oneBin 60 plainPolicy [] := by
  have hts : ∀ b ∈ oneBin, ∀ t ∈ b.2, Narrow t.ttl := by simp [oneBin,Narrow]
  have hread : ReadsOn oneBin 60 plainPolicy := by
    simp [ReadsOn,oneBin,Narrow,plainPolicy,PolicyNumbers.all]
  have hname : OneName oneBin := by simp [OneName,oneBin]
  exact ((port_cdt_put_iff rfl rfl rfl).1 oneBin 60 plainPolicy [] hts).mpr (Or.inr ⟨hread,hname⟩)

def twoBins : List BinTriples := [([98],[⟨[97],[118],60⟩]),([100],[⟨[97],[118],60⟩])]

/-- `[{<<"b">>, [<<"a">>, <<"v">>, 1, 60, {0, 0, 1, 1}]}]` -/
def longTriple : List Tok := [.list 1,.tuple 2,.binary [98],.list 5,.binary [97],.binary [118],
  .smallInteger 1,.smallInteger 60,.tuple 4,.smallInteger 0,.smallInteger 0,.smallInteger 1,
  .smallInteger 1,.nil,.nil]

/-- The first of two bins is written under the name of the second, and of a
triple with too many elements the first three are written. -/
theorem two_bins_confused :
    (¬∀ (env : PortEnv) (nenv : Env) (w : World) (s : PortState) (ref : ℕ) (ns set key : Bytes)
      (bs : List BinTriples) (ttl : ℤ) (p : PolicyNumbers) (rest : List Tok),
      w.isConnectedFlag = true → s.isAerospikeInitialised = true → s.isConnected = true →
      (∀ b ∈ bs, ∀ t ∈ b.2, Narrow t.ttl) →
      SameOperations env nenv w s ref ns set key bs ttl p rest) ∧
    ¬∀ (env : PortEnv) (s : PortState) (ns set key : Bytes) (args : List Tok),
      s.isAerospikeInitialised = true → s.isConnected = true → ¬WellFormed args →
      WritesNothing env s ns set key args := by
  constructor
  · intro h
    have hts : ∀ b ∈ twoBins, ∀ t ∈ b.2, Narrow t.ttl := by simp [twoBins,Narrow]
    have hsame := h plainPort plainEnv connectedWorld connectedPort 1 [110] [115] [107] twoBins 60
      plainPolicy [] rfl rfl rfl hts
    rcases (same_operations_iff rfl rfl rfl hts).mp hsame with (hbig | hnone) | ⟨-,hname,-⟩
    · exact hbig (by decide)
    · exact (hnone _ List.mem_cons_self).elim (fun hc => nomatch hc) (fun hc => hc (by decide))
    · exact absurd (hname _ List.mem_cons_self _ (List.mem_cons_of_mem _ List.mem_cons_self))
        (by decide)
  · intro h
    have hbad : ¬WellFormed longTriple := by
      rintro ⟨bs,rest,-,heq⟩
      match bs with
      | [] => cases heq
      | [(name,[])] => cases heq
      | [(name,t::ts)] =>
        have hlength : (Tok.list 5::_ : List Tok) = .list (3*(t::ts).length)::_ :=
          (List.cons.inj (List.cons.inj (List.cons.inj heq).2).2).2
        have hfive : 5 = 3*(t::ts).length := Tok.list.inj (List.cons.inj hlength).1
        omega
      | _::_::_ => cases heq
    have hwrites := h plainPort connectedPort [110] [115] [107] longTriple rfl rfl hbad
    apply (writes_nothing_iff rfl rfl).mp hwrites
    exact ⟨1,_,rfl,rfl,rfl,rfl,rfl,rfl,rfl,trivial⟩

end Example

end AspikePort.PortCdtPuts
