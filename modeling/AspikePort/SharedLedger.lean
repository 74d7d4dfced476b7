import AspikePort.KeyAgreement
import AspikePort.PortReads

/-!
# Two halves before one server

Records are written natively and over the port, in any order. The port takes
a text with one byte for each character and a binary up to its first zero, and
of the bins of a `binary_key_put` what it can read. The server holds what all
of these calls add up to, and both halves read it.
-/

set_option autoImplicit false

namespace AspikePort.SharedLedger
open AspikePort.ErlangTerms AspikePort.ClientValues AspikePort.EarlyReturn AspikePort.NifWorld
open AspikePort.CdtPut AspikePort.SyncCalls AspikePort.FallibleLoops AspikePort.LabelledRuns
open AspikePort.BinaryBins AspikePort.ExternalTerms AspikePort.EiBuffers AspikePort.PortDumps
open AspikePort.PortCalls AspikePort.PortHandlers AspikePort.RecordServer AspikePort.KeyServer
open AspikePort.StoreCalls AspikePort.PortAgreement AspikePort.KeyLedger AspikePort.KeyReads
open AspikePort.KeyAgreement AspikePort.PortReads
open AspikePort.OrderedMap (OrdMap)
open AspikePort.PortPuts (Pair Plain fill portValue requestToks portSubmissions)
open Proc

section Taken

/-- A value as the port has it in its record. -/
def seen : Pair → Pair
  | (name,.binary data) => (name,.binary (cStr data))
  | b => b

theorem seen_fst (b : Pair) : (seen b).1 = b.1 := by
  obtain ⟨name,v⟩ := b
  cases v <;> rfl

theorem seen_value (b : Pair) : nativeValue (seen b).2 = portValue b.2 := by
  obtain ⟨name,v⟩ := b
  cases v <;> rfl

instance : DecidablePred Plain
  | .binary _ => inferInstanceAs (Decidable True)
  | .integer _ => inferInstanceAs (Decidable (_ ∧ _))
  | .integers _ => inferInstanceAs (Decidable (_ ∧ ¬_))

def isInteger : BinValue → Bool
  | .integer _ => true
  | _ => false

/-- The bins that get into the record of the port. A value it does not take ends
the call, but for an integer at the end of the list: it is read as the ttl. -/
def taken : List Pair → Option (List Pair)
  | [] => some []
  | b::bs =>
    if Plain b.2 then (taken bs).map (seen b::·)
    else if bs = [] ∧ isInteger b.2 then some []
    else none

theorem taken_plain {bs : List Pair} (h : ∀ b ∈ bs, Plain b.2) : taken bs = some (bs.map seen) := by
  induction bs with
  | nil => rfl
  | cons b bs ih =>
    obtain ⟨hb,hbs⟩ := List.forall_mem_cons.mp h
    rw [taken,if_pos hb,ih hbs]
    rfl

theorem taken_append {init : List Pair} (h : ∀ b ∈ init, Plain b.2) (bs : List Pair) :
    taken (init ++ bs) = (taken bs).map (init.map seen ++ ·) := by
  induction init with
  | nil => exact Option.map_id'.symm
  | cons b init ih =>
    obtain ⟨hb,hinit⟩ := List.forall_mem_cons.mp h
    rw [List.cons_append,taken,if_pos hb,ih hinit,Option.map_map]
    rfl

theorem taken_last {b : Pair} (hb : ¬Plain b.2) {i : ℤ} (hi : b.2 = .integer i) :
    taken [b] = some [] := by
  rw [taken,if_neg hb,hi]
  exact if_pos ⟨rfl,rfl⟩

theorem taken_stuck {b : Pair} (hb : ¬Plain b.2) {bs : List Pair}
    (hrest : bs ≠ [] ∨ ∀ i, b.2 ≠ .integer i) : taken (b::bs) = none := by
  rw [taken,if_neg hb,if_neg]
  rintro ⟨rfl,hinteger⟩
  cases hvalue : b.2 with
  | integer i => exact hrest.resolve_left (not_not.mpr rfl) i hvalue
  | _ =>
    rw [hvalue] at hinteger
    cases hinteger

theorem taken_length {bs ds : List Pair} (h : taken bs = some ds) : ds.length ≤ bs.length := by
  induction bs generalizing ds with
  | nil =>
    cases h
    exact le_rfl
  | cons b bs ih =>
    rw [taken] at h
    split_ifs at h with hb hlast
    · obtain ⟨es,hes,rfl⟩ := Option.map_eq_some_iff.mp h
      exact Nat.succ_le_succ (ih hes)
    · cases h
      exact Nat.zero_le _

variable {c : Client} {respond : List Request → Response} {s : PortState}
variable {ns set key : Bytes} {ttl : ℤ}

theorem fill_seen (bs : List Pair) (rec : PutRecord) :
    fill c portValue bs rec = fill c nativeValue (bs.map seen) rec := by
  unfold fill
  rw [List.foldl_map]
  congr 1
  funext rec b
  rw [seen_fst,seen_value]

theorem listHeader_integer (i : ℤ) (rest : List Tok) :
    eiDecodeListHeader (integerToks i ++ rest) = none := by
  unfold integerToks
  split_ifs <;> rfl

/-- Without a bin the ttl stands where the end of the bins is looked for. -/
theorem port_empty (hinit : s.isAerospikeInitialised = true) (hconn : s.isConnected = true)
    (httl : Int64 ttl) (rest : List Tok) :
    portSubmissions c respond s (requestToks ns set key [] ttl ++ rest) =
      [.keyPut (asKeyInitStr ns set key) ⟨0,UInt32.ofInt ttl,[]⟩] := by
  have hlist : requestToks ns set key [] ttl ++ rest =
      .binary ns::.binary set::.binary key::Tok.nil::(integerToks ttl ++ rest) := by
    unfold requestToks PortPuts.pairsToks
    rw [if_pos rfl]
    simp only [List.cons_append,List.nil_append]
  have hheader : required eiDecodeListHeader "invalid fourth argument: list"
      (s.fresh.goto (.nil::(integerToks ttl ++ rest))) =
        (.ok 0,s.fresh.goto (integerToks ttl ++ rest)) := required_some _ rfl
  have hchecked := checkAll_run (s := s.fresh.goto (integerToks ttl ++ rest)) hinit hconn
  have hend : decode eiDecodeListHeader (s.fresh.goto (integerToks ttl ++ rest)) =
      (.ok none,s.fresh.goto (integerToks ttl ++ rest)) := decode_none (listHeader_integer _ _)
  have hput : (PortPuts.putRecord respond (asKeyInitStr ns set key) ⟨0,0,[]⟩
      (s.fresh.goto (integerToks ttl ++ rest))).2.submitted =
        s.fresh.submitted ++ [.keyPut (asKeyInitStr ns set key) ⟨0,UInt32.ofInt ttl,[]⟩] :=
    PortPuts.putRecord_long _ _ (decodeLong_integer httl rest) (congrArg Prod.snd hend)
      ⟨none,congrArg Prod.fst hend⟩
  have hrun : PortPuts.callBinaryKeyPut c respond
      (s.goto (requestToks ns set key [] ttl ++ rest)) =
        PortPuts.putRecord respond (asKeyInitStr ns set key) ⟨0,0,[]⟩
          (s.fresh.goto (integerToks ttl ++ rest)) := by
    unfold PortPuts.callBinaryKeyPut
    rw [hlist,preMacro_bind_run,bind_run_ok _ (binaryArg_run _ _ _ _),
      bind_run_ok _ (binaryArg_run _ _ _ _),bind_run_ok _ (binaryArg_run _ _ _ _),
      bind_run_ok _ hheader,bind_run_ok _ hchecked]
    rfl
  unfold portSubmissions
  rw [hrun,hput]
  exact List.drop_left

/-- What the port hands to the client for a list of bins. -/
theorem port_takes (hinit : s.isAerospikeInitialised = true) (hconn : s.isConnected = true)
    {bs : List Pair} (httl : Int64 ttl) (hfits : ∀ b ∈ bs, b.2.Fits) (rest : List Tok) :
    (taken bs = none → portSubmissions c respond s (requestToks ns set key bs ttl ++ rest) = []) ∧
    (∀ ds, taken bs = some ds → ∃ t,
      portSubmissions c respond s (requestToks ns set key bs ttl ++ rest) =
        [.keyPut (asKeyInitStr ns set key) { fill c nativeValue ds ⟨bs.length,0,[]⟩ with ttl := t }]) := by
  by_cases hplain : ∀ b ∈ bs, Plain b.2
  · rw [taken_plain hplain]
    refine ⟨fun h => absurd h (Option.some_ne_none _),fun ds hds => ?_⟩
    cases hds
    by_cases hbs : bs = []
    · rw [hbs,port_empty hinit hconn httl]
      exact ⟨_,rfl⟩
    · rw [PortPuts.port_plain hinit hconn hbs httl hplain hfits,fill_seen]
      exact ⟨_,rfl⟩
  · obtain ⟨init,b,post,rfl,hbefore,hb⟩ := first_failing hplain
    rw [taken_append hbefore]
    by_cases hlast : post = [] ∧ ∃ i, b.2 = .integer i
    · obtain ⟨rfl,i,hi⟩ := hlast
      rw [taken_last hb hi]
      obtain ⟨name,value⟩ := b
      cases hi
      refine ⟨fun h => absurd h (Option.some_ne_none _),fun ds hds => ?_⟩
      cases hds
      have hinits : ∀ d ∈ init, d.2.Fits := fun d hd => hfits d (List.mem_append_left _ hd)
      have hfit : Int64 i := hfits (name,.integer i) (by simp)
      rw [PortPuts.port_last_integer hinit hconn hbefore hinits hfit hb,fill_seen]
      simp only [List.append_nil,List.length_append,List.length_singleton]
      exact ⟨_,rfl⟩
    · have hrest : post ≠ [] ∨ ∀ i, b.2 ≠ .integer i := by
        by_cases hpost : post = []
        · exact Or.inr (fun i hi => hlast ⟨hpost,i,hi⟩)
        · exact Or.inl hpost
      rw [taken_stuck hb hrest,PortPuts.port_nothing hinit hconn hbefore hfits hb hrest]
      exact ⟨fun _ => rfl,fun ds hds => by cases hds⟩

end Taken

section Calls

instance : DecidablePred Latin1 :=
  fun s => List.decidableBAll (fun ch : Char => ch.toNat < 256) s.toList

/-- A writing call over the port. -/
inductive PortCall where
  | put (key : CharKey) (bins : List CharBin)
  | inc (key : CharKey) (bins : List CharBin)
  | remove (key : CharKey)
  | binaryPut (key : RecordKey) (bins : List FullBin) (ttl : {ttl : ℤ // Int64 ttl})

namespace PortCall

def run (env : PortEnv) : PortCall → Port Unit
  | put _ bins => (KeyOp.put bins).port env
  | inc _ bins => (KeyOp.inc bins).port env
  | remove _ => KeyOp.remove.port env
  | binaryPut _ _ _ => PortPuts.callBinaryKeyPut env.client env.respond

def args : PortCall → List Tok
  | put k bins => (KeyOp.put bins).args k
  | inc k bins => (KeyOp.inc bins).args k
  | remove k => KeyOp.remove.args k
  | binaryPut k bins ttl => requestToks k.nameSpace.data k.set.data k.key.data
      (bins.map FullBin.pair) ttl.val

def texts : PortCall → List String
  | put k bins => keyTexts k ++ (KeyOp.put bins).texts
  | inc k bins => keyTexts k ++ (KeyOp.inc bins).texts
  | remove k => keyTexts k ++ KeyOp.remove.texts
  | binaryPut _ _ _ => []

def key : PortCall → AsKey
  | put k _ => wireKey k
  | inc k _ => wireKey k
  | remove k => wireKey k
  | binaryPut k _ _ => k.asKey

/-- What a call makes of the bins of its record, if it can read its texts. -/
def effect (add : ℤ → ℤ → ℤ) : PortCall → Bins → Bins
  | put _ bins, m => bins.foldl (fun m b => m.insert (wireBytes b.name.text) (.integer b.value)) m
  | inc _ bins, m => bins.foldl (fun m b => m.insert (wireBytes b.name.text)
      (.integer (KeyCall.increased add b.value (m.lookup (wireBytes b.name.text))))) m
  | remove _, _ => OrdMap.empty
  | binaryPut _ bins _, m =>
    ((taken (bins.map FullBin.pair)).getD []).foldl (fun m b => m.insert b.1 b.2) m

def apply (add : ℤ → ℤ → ℤ) (x : PortCall) (L : Ledger) : Ledger :=
  if ∀ n ∈ x.texts, Latin1 n then Function.update L x.key (x.effect add (L x.key)) else L

end PortCall

/-- A call of one of the halves, with all it finds outside itself. -/
inductive Write where
  | native (x : KeyStep)
  /-- `rest` stands behind the arguments in the buffer. -/
  | port (env : PortEnv) (state : PortState) (call : PortCall) (rest : List Tok)

variable (c : Client) (S : CountServer)

/-- The port is ready, and the server performs what it hands to the client. -/
structure PortPerforms (env : PortEnv) (s : PortState) (x : PortCall) (rest : List Tok)
    (db db' : S.DB) : Prop where
  client : env.client = c
  initialised : s.isAerospikeInitialised = true
  connected : s.isConnected = true
  served : ∃ reqs, (x.run env (s.goto (x.args ++ rest))).2.submitted = s.submitted ++ reqs ∧
    reqs.foldlM (fun db req => S.serve req db) db = some db'

def Performs : Write → S.DB → S.DB → Prop
  | .native x, db, db' => KeyLedger.Performs c S x db db'
  | .port env s x rest, db, db' => PortPerforms c S env s x rest db db'

def Write.apply (add : ℤ → ℤ → ℤ) : Write → Ledger → Ledger
  | .native x, L => x.call.apply add L
  | .port _ _ x _, L => x.apply add L

def ledgerAfter (xs : List Write) : Ledger :=
  xs.foldl (fun L x => x.apply S.add L) (fun _ => OrdMap.empty)

end Calls

section Runs
variable {c : Client} {S : CountServer}

theorem put_bins_congr {rec rec' : PutRecord} (h : rec.bins = rec'.bins) (n : Bytes)
    (old : Option AsVal) : Server.putBin rec n old = Server.putBin rec' n old := by
  unfold Server.putBin
  rw [h]

/-- A record with room for all of its pairs puts them, whatever its room and its ttl. -/
theorem room_holds (hS : S.Documented) {k : AsKey} {bs : List Pair} {n : ℕ} {rec : PutRecord}
    {db db' : S.DB} {L : Ledger} (hL : Holds S.toServer db L) (hbs : ∀ b ∈ bs, Named c b)
    (hroom : bs.length ≤ n) (hrec : rec.bins = (fill c nativeValue bs ⟨n,0,[]⟩).bins)
    (h : S.serve (.keyPut k rec) db = some db') :
    Holds S.toServer db' (Function.update L k
      (bs.foldl (fun m b => m.insert b.1 b.2) (L k))) := by
  have hsame : rec.bins = (fill c nativeValue bs ⟨bs.length,0,[]⟩).bins := by
    rw [hrec,fill_bins nativeValue n 0 hroom,fill_bins nativeValue bs.length 0 le_rfl]
  refine update_holds hL (fun j => ?_) (fun j hj => hS.put_frame k _ db db' j h hj)
  rw [hS.put_bins k _ db db' j h,put_bins_congr hsame]
  exact fill_represents hbs (hL k) j

theorem incs_hold (hS : S.Documented) (bins : List CharBin) {content content' : Content} {m : Bins}
    (hrep : Represents content m)
    (h : (bins.map (fun b => Operation.incr (wireBytes b.name.text) b.value)).foldlM S.applyTo
      content = some content') :
    Represents content' (bins.foldl (fun m b => m.insert (wireBytes b.name.text)
      (.integer (KeyCall.increased S.add b.value (m.lookup (wireBytes b.name.text))))) m) := by
  induction bins generalizing content m with
  | nil =>
    cases h
    exact hrep
  | cons b bins ih =>
    rw [List.map_cons,List.foldlM_cons] at h
    obtain ⟨next,hnext,hrest⟩ := Option.bind_eq_some_iff.mp h
    exact ih (incr_represents hS hrep hnext) hrest

theorem taken_seen {bs ds : List Pair} (h : taken bs = some ds) :
    ∀ d ∈ ds, ∃ b ∈ bs, d = seen b := by
  induction bs generalizing ds with
  | nil =>
    cases h
    exact fun d hd => absurd hd List.not_mem_nil
  | cons b bs ih =>
    rw [taken] at h
    split_ifs at h with hb hlast
    · obtain ⟨es,hes,rfl⟩ := Option.map_eq_some_iff.mp h
      rw [List.forall_mem_cons]
      refine ⟨⟨b,List.mem_cons_self,rfl⟩,fun d hd => ?_⟩
      obtain ⟨x,hx,hseen⟩ := ih hes d hd
      exact ⟨x,List.mem_cons_of_mem b hx,hseen⟩
    · cases h
      exact fun d hd => absurd hd List.not_mem_nil

theorem taken_named (hc : TakesBinNames c) {bins : List FullBin} {ds : List Pair}
    (h : taken (bins.map FullBin.pair) = some ds) : ∀ d ∈ ds, Named c d := by
  intro d hd
  obtain ⟨b,hb,rfl⟩ := taken_seen h d hd
  obtain ⟨x,-,rfl⟩ := List.mem_map.mp hb
  have hname : (seen x.pair).1 = x.name.data := seen_fst x.pair
  have htake := named_data x.name.zeroFree (hc _ x.name.short) (seen x.pair).2
  rwa [← hname] at htake

variable {env : PortEnv} {s : PortState} {x : PortCall} {rest : List Tok} {db db' : S.DB}

theorem PortPerforms.sent (h : PortPerforms c S env s x rest db db') {reqs : List Request}
    (hreqs : (x.run env (s.goto (x.args ++ rest))).2.submitted = s.submitted ++ reqs) :
    reqs.foldlM (fun db req => S.serve req db) db = some db' := by
  obtain ⟨sent,hsent,hserve⟩ := h.served
  rw [hsent] at hreqs
  rwa [List.append_cancel_left hreqs] at hserve

/-- The texts of a character-list call can be read. -/
theorem PortPerforms.requests (h : PortPerforms c S env s x rest db db') (hc : TakesBinNames c)
    {k : CharKey} (op : KeyOp) (hrun : x.run env = op.port env) (hargs : x.args = op.args k)
    (hfew : op.Few) (htexts : ∀ n ∈ keyTexts k ++ op.texts, Latin1 n) :
    (op.requests c wireBytes (wireKey k)).foldlM (fun db req => S.serve req db) db = some db' := by
  have htake : TakesBinNames env.client := h.client ▸ hc
  apply h.sent
  rw [hrun,hargs,port_requests htake h.initialised h.connected hfew htexts rest,h.client]

theorem serve_nothing (h : ([] : List Request).foldlM (fun db req => S.serve req db) db = some db') :
    db' = db := (Option.some.inj h).symm

theorem serve_one {req : Request} (h : [req].foldlM (fun db req => S.serve req db) db = some db') :
    S.serve req db = some db' := by
  rw [List.foldlM_cons] at h
  obtain ⟨next,hnext,hrest⟩ := Option.bind_eq_some_iff.mp h
  cases hrest
  exact hnext

/-- A call with a text beyond Latin-1 leaves the server as it is. -/
theorem PortPerforms.refused (h : PortPerforms c S env s x rest db db')
    (htexts : ¬∀ n ∈ x.texts, Latin1 n) : db' = db := by
  apply serve_nothing
  apply h.sent
  rw [List.append_nil]
  cases x with
  | put k bins => exact port_refuses h.initialised h.connected htexts rest
  | inc k bins => exact port_refuses h.initialised h.connected htexts rest
  | remove k => exact port_refuses h.initialised h.connected htexts rest
  | binaryPut k bins ttl => exact absurd (fun n hn => absurd hn List.not_mem_nil) htexts

variable (hc : TakesBinNames c) (hS : S.Documented) {L : Ledger}
include hc hS

theorem put_keeps {k : CharKey} {bins : List CharBin} (hL : Holds S.toServer db L)
    (h : PortPerforms c S env s (.put k bins) rest db db')
    (htexts : ∀ n ∈ (PortCall.put k bins).texts, Latin1 n) :
    Holds S.toServer db' (Function.update L (wireKey k) ((PortCall.put k bins).effect S.add
      (L (wireKey k)))) := by
  have hrun := h.requests hc (.put bins) rfl rfl trivial htexts
  obtain ⟨-,hop⟩ := List.forall_mem_append.mp htexts
  have hbins : ∀ b ∈ bins, Latin1 b.name.text := List.forall_mem_map.mp hop
  rw [KeyOp.requests] at hrun
  split_ifs at hrun with hzero
  · rw [serve_nothing hrun,List.length_eq_zero_iff.mp hzero]
    exact same_holds hL
  · have hnamed : ∀ b ∈ bins.map (fun b => ((wireBytes b.name.text,.integer b.value) : Pair)),
        Named c b := by
      intro b hb
      obtain ⟨x,hx,rfl⟩ := List.mem_map.mp hb
      exact wire_named hc (hbins x hx) _
    have hheld := room_holds hS hL hnamed (by rw [List.length_map]) rfl (serve_one hrun)
    rw [List.foldl_map] at hheld
    exact hheld

theorem inc_keeps {k : CharKey} {bins : List CharBin} (hL : Holds S.toServer db L)
    (h : PortPerforms c S env s (.inc k bins) rest db db')
    (htexts : ∀ n ∈ (PortCall.inc k bins).texts, Latin1 n) :
    Holds S.toServer db' (Function.update L (wireKey k) ((PortCall.inc k bins).effect S.add
      (L (wireKey k)))) := by
  have hrun := h.requests hc (.inc bins) rfl rfl trivial htexts
  rw [KeyOp.requests] at hrun
  split_ifs at hrun with hzero
  · rw [serve_nothing hrun,List.length_eq_zero_iff.mp hzero]
    exact same_holds hL
  · have hop : S.operate (wireKey k) _ db = some db' := serve_one hrun
    refine update_holds hL ?_ (fun j hj => hS.operate_frame _ _ db db' j hop hj)
    exact incs_hold hS bins (hL (wireKey k)) (hS.operate_applies _ _ db db' hop)

theorem remove_keeps {k : CharKey} (hL : Holds S.toServer db L)
    (h : PortPerforms c S env s (.remove k) rest db db')
    (htexts : ∀ n ∈ (PortCall.remove k).texts, Latin1 n) :
    Holds S.toServer db' (Function.update L (wireKey k) OrdMap.empty) := by
  have hremove : S.remove (wireKey k) db = some db' :=
    serve_one (h.requests hc .remove rfl rfl trivial htexts)
  refine update_holds hL (fun n => ?_) (fun j hj => hS.remove_frame _ db db' j hremove hj)
  exact hS.remove_bins _ db db' n hremove

theorem binaryPut_keeps {k : RecordKey} {bins : List FullBin} {ttl : {ttl : ℤ // Int64 ttl}}
    (hL : Holds S.toServer db L) (h : PortPerforms c S env s (.binaryPut k bins ttl) rest db db') :
    Holds S.toServer db' (Function.update L k.asKey ((PortCall.binaryPut k bins ttl).effect S.add
      (L k.asKey))) := by
  have hfits : ∀ b ∈ bins.map FullBin.pair, b.2.Fits := by
    intro b hb
    obtain ⟨x,-,rfl⟩ := List.mem_map.mp hb
    exact x.fits
  obtain ⟨reqs,hsent,hserve⟩ := h.served
  have hreqs : portSubmissions c env.respond s (requestToks k.nameSpace.data k.set.data k.key.data
      (bins.map FullBin.pair) ttl.val ++ rest) = reqs := by
    have hrun : (PortPuts.callBinaryKeyPut c env.respond (s.goto (requestToks k.nameSpace.data
        k.set.data k.key.data (bins.map FullBin.pair) ttl.val ++ rest))).2.submitted =
          s.submitted ++ reqs := h.client ▸ hsent
    unfold portSubmissions
    rw [hrun]
    exact List.drop_left
  obtain ⟨hnone,hsome⟩ := @port_takes c env.respond s k.nameSpace.data k.set.data k.key.data
    ttl.val h.initialised h.connected _ ttl.property hfits rest
  cases htaken : taken (bins.map FullBin.pair) with
  | none =>
    rw [← hreqs,hnone htaken] at hserve
    rw [serve_nothing hserve,PortCall.effect,htaken]
    exact same_holds hL
  | some ds =>
    obtain ⟨t,ht⟩ := hsome ds htaken
    rw [← hreqs,ht,recordKey_init] at hserve
    rw [PortCall.effect,htaken]
    refine room_holds hS hL (taken_named hc htaken) (taken_length htaken) ?_ (serve_one hserve)
    rfl

theorem port_holds (hL : Holds S.toServer db L) (h : PortPerforms c S env s x rest db db') :
    Holds S.toServer db' (x.apply S.add L) := by
  unfold PortCall.apply
  split_ifs with htexts
  · cases x with
    | put k bins => exact put_keeps hc hS hL h htexts
    | inc k bins => exact inc_keeps hc hS hL h htexts
    | remove k => exact remove_keeps hc hS hL h htexts
    | binaryPut k bins ttl => exact binaryPut_keeps hc hS hL h
  · rw [h.refused htexts]
    exact hL

/-- After any run of calls of both halves the server holds the ledger of the run. -/
theorem run_holds {xs : List Write} (h : Trace (Performs c S) xs S.start db) :
    Holds S.toServer db (ledgerAfter S xs) := by
  refine trace_simulates (Performs c S) (R := fun db L => Holds S.toServer db L) xs ?_ ?_ h
  · intro x _ db db' L hL hx
    cases x with
    | native x => exact call_holds hc hS hL hx
    | port env s x rest => exact port_holds hc hS hL hx
  · intro k n
    rw [hS.start_empty]
    rfl

end Runs

section Reads
variable {c : Client} {S : CountServer} {db : S.DB} {L : Ledger} {r : RecordKey}
variable {env : PortEnv} {nenv : Env} {w : World} {s : PortState} {rec : Record} {rest : List Tok}

def contentOf : BinValue → BinContent
  | .binary data => .bytes data
  | .integer i => .integer i
  | .integers is => .integers is

theorem contentOf_stored (v : BinValue) : (contentOf v).stored = nativeValue v := by
  cases v <;> rfl

theorem contentOf_shown (v : BinValue) (t : Term) : (contentOf v).Shown t ↔ t = v.term := by
  cases v <;> exact Iff.rfl

/-- Numbers have 64 bits and sizes 32. -/
structure SizedLedger (c : Client) (m : Bins) : Prop where
  few : m.entries.length < 2^16
  bins : ∀ b ∈ m.entries, SizedBin c (b.1,contentOf b.2)

def getToks (r : RecordKey) : List Tok :=
  [.binary r.nameSpace.data,.binary r.set.data,.binary r.key.data]

/-- The pairs of a record in the order of its bins. -/
def pairsOf (m : Bins) (rec : Record) : List Term :=
  rec.bins.map (fun b => makeTuple2 (.binary b.1) (valueAt m b.1).term)

def binaryAnswer (c : Client) (nenv : Env) (w : World) (r : RecordKey) : Reply :=
  replyOf (binaryGetSync c nenv r.nameSpace.term r.set.term r.key.term w).1

theorem binaryAnswer_run (hw : w.isConnectedFlag = true) : binaryAnswer c nenv w r =
    replyOf (answerRecord (nenv.respond (w.submitted ++ [.keyGet r.asKey none]))
      (ValueFormat.dumpBinaryRecords c) (afterSubmit (.keyGet r.asKey none) w)).1 := by
  have hrun : binaryGetSync c nenv r.nameSpace.term r.set.term r.key.term w =
      (submit nenv (.keyGet r.asKey none) >>= fun resp =>
        answerRecord resp (ValueFormat.dumpBinaryRecords c)) w := by
    unfold binaryGetSync
    rw [r.binaryKey_eq,lift_ok_bind_run,isConnected_bind_run _ hw]
  unfold binaryAnswer
  rw [hrun,submit_bind_run]

theorem native_answers (hS : S.Documented) (hL : Holds S.toServer db L)
    (hw : w.isConnectedFlag = true) (hnative : Answers S db r.asKey nenv)
    (hget : S.get r.asKey db = some rec) : binaryAnswer c nenv w r =
      .term (makeTuple2 atomOk (ofList (pairsOf (L r.asKey) rec).reverse)) := by
  have hreply := hnative.get w.submitted none
  rw [hget] at hreply
  have hdump : ValueFormat.dumpBinaryRecords c rec =
      .ok (ofList (pairsOf (L r.asKey) rec).reverse) := by
    unfold pairsOf
    rw [← List.map_reverse]
    exact (get_has hS hL hget).dump _ _
  rw [binaryAnswer_run hw]
  unfold answerRecord
  rw [if_neg (not_not.mpr hreply.1),hreply.2]
  change replyOf ((lift (NifWorld.orFault (ValueFormat.dumpBinaryRecords c rec)) >>= _ : Nif Term)
    _).1 = _
  rw [hdump]
  rfl

/-- A record of the ledger is one that the port can dump. -/
theorem record_stored {m : Bins} (h : Has m (fun _ => True) rec) (hsized : SizedLedger c m) :
    ∃ stored : StoredRecord c, stored.record = rec ∧
      stored.bins = rec.bins.map (fun b => (b.1,contentOf (valueAt m b.1))) := by
  have hperm := h.perm
  simp only [decide_true,List.filter_true] at hperm
  have hlength := hperm.length_eq
  rw [List.length_map] at hlength
  have hfew : (rec.bins.map (fun b => (b.1,contentOf (valueAt m b.1)))).length < 2^16 := by
    rw [List.length_map,hlength]
    exact hsized.few
  have hbins : ∀ d ∈ rec.bins.map (fun b => (b.1,contentOf (valueAt m b.1))), SizedBin c d := by
    intro d hd
    obtain ⟨b,hb,rfl⟩ := List.mem_map.mp hd
    exact hsized.bins _ (OrdMap.mem_entries.mpr (h.value hb).2.1)
  have hsame : (rec.bins.map (fun b => (b.1,contentOf (valueAt m b.1)))).map storedBin =
      rec.bins := by
    rw [List.map_map]
    refine (List.map_congr_left fun b hb => ?_).trans (List.map_id _)
    show (b.1,(contentOf (valueAt m b.1)).stored) = b
    rw [contentOf_stored,(h.value hb).2.2]
  refine ⟨⟨rec.gen,rec.ttl,_,hfew,hbins⟩,?_,rfl⟩
  unfold StoredRecord.record
  rw [hsame,← h.key]

theorem pairs_shown (m : Bins) (bins : List (Bytes × AsVal)) (pairs : List Term) :
    List.Forall₂ (PairShown BinContent.Shown)
      (bins.map (fun b => (b.1,contentOf (valueAt m b.1)))) pairs ↔
        pairs = bins.map (fun b => makeTuple2 (.binary b.1) (valueAt m b.1).term) := by
  induction bins generalizing pairs with
  | nil => simp
  | cons b bins ih =>
    rw [List.map_cons,List.forall₂_cons_left_iff,List.map_cons]
    constructor
    · rintro ⟨pair,more,⟨t,rfl,hshown⟩,hmore,rfl⟩
      rw [(contentOf_shown _ t).mp hshown,(ih more).mp hmore]
    · rintro rfl
      exact ⟨_,_,⟨_,rfl,(contentOf_shown _ _).mpr rfl⟩,(ih _).mpr rfl,rfl⟩

/-- Both answer ok, and with the same list but for its direction. -/
def AnswerAlike (env : PortEnv) (nenv : Env) (s : PortState) (w : World) (r : RecordKey)
    (rest : List Tok) : Prop := ∃ pairs,
  Replies s (callBinaryKeyGet env (s.goto (getToks r ++ rest))) (makeTuple2 atomOk (ofList pairs)) ∧
    binaryAnswer env.client nenv w r = .term (makeTuple2 atomOk (ofList pairs.reverse))

end Reads

section Example

end Example

end AspikePort.SharedLedger
