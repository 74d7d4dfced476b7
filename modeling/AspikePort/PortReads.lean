import AspikePort.PortCdtPuts
import AspikePort.ReadPaths

/-!
# The port reads what the native calls have stored

Both halves of the program stand before one server. After any run of the
writing calls a record is asked for over both of them: natively and in a frame
for the port.
-/

set_option autoImplicit false

namespace AspikePort.PortReads
open AspikePort.ErlangTerms AspikePort.ClientValues AspikePort.EarlyReturn AspikePort.NifWorld
open AspikePort.FallibleLoops AspikePort.OrderedMap AspikePort.NestedStore
open AspikePort.ExternalTerms AspikePort.EiBuffers AspikePort.PortDumps
open AspikePort.PortCalls AspikePort.PortHandlers AspikePort.PortCdtPuts
open AspikePort.RecordServer AspikePort.StoreCalls AspikePort.StoreRefinement
open AspikePort.PutOperations (IsPolicy policy_cases)
open AspikePort.BinaryBins (Int64)
open AspikePort.LabelledRuns AspikePort.SyncCalls AspikePort.RecordReads AspikePort.ReadPaths Proc

section Frames
variable {env : PortEnv} {s : PortState} {k : RecordKey} {p : PolicyNumbers} {rec : Record}

/-- The arguments of `cdt_get` in a frame. -/
def getToks (k : RecordKey) (p : PolicyNumbers) : List Tok :=
  .binary k.nameSpace.data::.binary k.set.data::.binary k.key.data::policyToks p

/-- The port's client answers from the record. -/
def Brings (env : PortEnv) (k : RecordKey) (rec : Record) : Prop :=
  ∀ reqs p, (env.respond (reqs ++ [.keyGet k.asKey p])).status = aerospikeOk ∧
    (env.respond (reqs ++ [.keyGet k.asKey p])).record = some rec

/-- One frame is written, and it is the encoding of the term. -/
def Replies (s : PortState) (r : Except Leave Unit × PortState) (t : Term) : Prop :=
  ∃ frame, r.2.written = s.written ++ [frame] ∧ BinaryToTerm (131::frame.flatMap Tok.bytes) t

theorem recordKey_init (k : RecordKey) :
    asKeyInitStr k.nameSpace.data k.set.data k.key.data = k.asKey := by
  unfold asKeyInitStr
  rw [k.nameSpace.cStr_eq,k.set.cStr_eq,k.key.cStr_eq]
  rfl

theorem brings_run (hrec : Brings env k rec) {toks : List Tok} :
    request env (.keyGet k.asKey none) (s.fresh.goto toks) =
      (.ok (env.respond (s.submitted ++ [.keyGet k.asKey none])),
        { s.fresh.goto toks with submitted := s.submitted ++ [.keyGet k.asKey none] }) := by
  show (if (env.respond (s.submitted ++ [.keyGet k.asKey none])).status ≠ aerospikeOk then _
    else pure _ : Port Response) _ = _
  rw [if_neg (not_not.mpr (hrec s.submitted none).1)]
  rfl

theorem cdtGet_run (hinit : s.isAerospikeInitialised = true) (hconn : s.isConnected = true)
    (hnarrow : ∀ i ∈ p.all, Narrow i) (hrec : Brings env k rec) :
    ∃ t : PortState, t.written = s.written ∧ t.resBuf = eiXEncodeTupleHeader 2 ∧
      callPortCdtGet env (s.goto (getToks k p)) = (do
        put (← PortHandlers.orFault (PortDumps.dumpCdtRecords env.client (some rec)))
        postMacro) t := by
  have hpolicy : PolicyAt env (policyToks p) := by
    have hall := (integersAt_iff p.all []).mpr hnarrow
    rw [List.append_nil] at hall
    exact ⟨rfl,hall⟩
  obtain ⟨policy,rest,hread⟩ := policy_reads (s := s.fresh) hpolicy
    "CPCG invalid 4 argument: policy ( wrong size )" "CPCG invalid policy"
  have hchecked := checkAll_run (s := s.fresh.goto rest) hinit hconn
  refine ⟨{ s.fresh.goto rest with submitted := s.submitted ++ [.keyGet k.asKey none] },rfl,rfl,?_⟩
  unfold callPortCdtGet getToks
  rw [preMacro_bind_run,bind_run_ok _ (binaryArg_run _ _ _ _),
    bind_run_ok _ (binaryArg_run _ _ _ _),bind_run_ok _ (binaryArg_run _ _ _ _),
    bind_run_ok _ hread,bind_run_ok _ hchecked,recordKey_init]
  rw [bind_run_ok _ (brings_run hrec),(hrec s.submitted none).2]
  rfl

/-- A call that ends by posting a dump. -/
theorem posts_iff {u : PortState} {dump : Except Fault (List Tok)}
    (hwritten : u.written = s.written) (hbuf : u.resBuf = eiXEncodeTupleHeader 2) (t : Term) :
    Replies s ((do put (← PortHandlers.orFault dump); postMacro : Port Unit) u) t ↔
      ∃ toks, dump = .ok toks ∧ BinaryToTerm (replyBytes toks) t := by
  unfold Replies
  cases dump with
  | error f =>
    constructor
    · rintro ⟨frame,hframe,-⟩
      have hsame : u.written = s.written ++ [frame] := hframe
      rw [hwritten] at hsame
      exact absurd hsame (by simp)
    · rintro ⟨toks,htoks,-⟩
      cases htoks
  | ok toks =>
    have hpost : u.written ++ [u.resBuf ++ toks] = s.written ++ [eiXEncodeTupleHeader 2 ++ toks] := by
      rw [hwritten,hbuf]
    constructor
    · rintro ⟨frame,hframe,hdecode⟩
      have hsame : u.written ++ [u.resBuf ++ toks] = s.written ++ [frame] := hframe
      rw [hpost] at hsame
      obtain rfl := List.singleton_injective (List.append_cancel_left hsame)
      exact ⟨toks,rfl,hdecode⟩
    · rintro ⟨toks',htoks,hdecode⟩
      cases htoks
      exact ⟨_,hpost,hdecode⟩

theorem replies_iff (hinit : s.isAerospikeInitialised = true) (hconn : s.isConnected = true)
    (hnarrow : ∀ i ∈ p.all, Narrow i) (hrec : Brings env k rec) (t : Term) :
    Replies s (callPortCdtGet env (s.goto (getToks k p))) t ↔ ∃ toks,
      PortDumps.dumpCdtRecords env.client (some rec) = .ok toks ∧
        BinaryToTerm (replyBytes toks) t := by
  obtain ⟨u,hwritten,hbuf,hrun⟩ := cdtGet_run hinit hconn hnarrow hrec
  rw [hrun]
  exact posts_iff hwritten hbuf t

end Frames

section Native
variable {c : Client} {nenv : Env} {w : World} {k : RecordKey} {policy : Term}

def nativeAnswer (c : Client) (nenv : Env) (w : World) (k : RecordKey) (policy : Term) : Reply :=
  replyOf (cdtGetSync c nenv k.nameSpace.term k.set.term k.key.term policy w).1

variable {S : Server} {db : S.DB} (hw : w.isConnectedFlag = true) (hpolicy : IsPolicy policy)
  (hget : Delivers S db k.asKey nenv)
include hw hpolicy hget

theorem native_answers_iff (t : Term) :
    nativeAnswer c nenv w k policy = .term (makeTuple2 atomOk t) ↔
      ∃ rec, S.get k.asKey db = some rec ∧ ValueFormat.dumpCdtRecords c rec = .ok t := by
  obtain ⟨-,⟨p,hp⟩,-⟩ := (policy_cases policy).resolve_right (fun h => h.1 hpolicy)
  obtain ⟨w',hrun⟩ := cdtGetSync_run c nenv k hw hp
  have hreply := hget w.submitted (some p)
  have hne : atomError ≠ atomOk := fun h => absurd (Term.atom.inj h) (by decide)
  unfold nativeAnswer
  rw [hrun,getReply]
  cases hfound : S.get k.asKey db with
  | none =>
    rw [hfound] at hreply
    rw [if_pos hreply]
    constructor
    · intro h
      exact absurd (List.cons.inj (Term.tuple.inj (Reply.term.inj h))).1 hne
    · rintro ⟨rec,hrec,-⟩
      cases hrec
  | some rec =>
    rw [hfound] at hreply
    rw [if_neg (not_not.mpr hreply.1),hreply.2]
    change replyOf ((lift (NifWorld.orFault (ValueFormat.dumpCdtRecords c rec)) >>= _) w').1 = _ ↔ _
    cases hdump : ValueFormat.dumpCdtRecords c rec with
    | error f =>
      constructor
      · intro h
        cases h
      · rintro ⟨rec',hrec,hok⟩
        cases hrec
        rw [hdump] at hok
        cases hok
    | ok u =>
      constructor
      · intro h
        cases h
        exact ⟨rec,rfl,hdump⟩
      · rintro ⟨rec',hrec,hok⟩
        cases hrec
        rw [hdump] at hok
        cases hok
        rfl

end Native

section Entries

/-- The three fields in the order of their names. -/
def timedEntry (value : Bytes) (ttl writeTime : ℤ) : InnerMap where
  fields := [.ttl ttl,.bytes value,.wt writeTime]
  once := by
    show [ttlKey,valueKey,wtKey].Nodup
    decide

def innerOf : Stored → InnerMap
  | .entry value ttl writeTime => timedEntry value ttl writeTime
  | .raw _ => ⟨[],List.nodup_nil⟩

def contentOf (m : OrdMap Bytes Stored) : BinContent :=
  .nested (m.entries.map (fun e => (e.1,innerOf e.2)))

def IsEntry (cell : Stored) : Prop := ∃ value ttl writeTime, cell = .entry value ttl writeTime

theorem innerOf_stored {cell : Stored} (h : IsEntry cell) : (innerOf cell).stored = cell.val := by
  obtain ⟨value,ttl,writeTime,rfl⟩ := h
  rfl

theorem binVal_entries (m : OrdMap Bytes Stored) :
    binVal m = .map (m.entries.map (fun e => (.string e.1,e.2.val))) := by
  change AsVal.map (List.map _ (List.map _ m.entries)) = _
  rw [List.map_map]
  rfl

theorem contentOf_stored {m : OrdMap Bytes Stored} (h : ∀ e ∈ m.entries, IsEntry e.2) :
    (contentOf m).stored = binVal m := by
  rw [binVal_entries]
  change AsVal.map (List.map _ (List.map _ m.entries)) = _
  rw [List.map_map]
  congr 1
  exact List.map_congr_left fun e he => congrArg (Prod.mk _) (innerOf_stored (h e he))

theorem contentOf_agrees {m : OrdMap Bytes Stored} (h : ∀ e ∈ m.entries, IsEntry e.2)
    (hfew : m.entries.length < 2^31) : Agrees (contentOf m) ↔ m.entries ≠ [] := by
  constructor
  · rintro ⟨hne,-⟩ hnil
    rw [hnil] at hne
    exact hne rfl
  · intro hne
    refine ⟨fun hnil => hne (List.map_eq_nil_iff.mp hnil),by rwa [List.length_map],?_⟩
    intro e he
    obtain ⟨x,hx,rfl⟩ := List.mem_map.mp he
    obtain ⟨value,ttl,writeTime,hcell⟩ := h x hx
    rw [hcell]
    refine ⟨?_,?_⟩
    · show 2 ≤ 3
      decide
    · show valueKey ∈ [ttlKey,valueKey,wtKey]
      decide

theorem writeEach_succeeds {α : Type} {f : α → Except Fault (List Tok)} (xs : List α) :
    Succeeds (writeEach f xs) ↔ ∀ x ∈ xs, Succeeds (f x) := by
  induction xs with
  | nil => exact iff_of_true ⟨_,rfl⟩ (fun x hx => absurd hx List.not_mem_nil)
  | cons x xs ih =>
    rw [List.forall_mem_cons,← ih,writeEach,succeeds_bind]
    constructor
    · rintro ⟨a,ha,hrest⟩
      obtain ⟨b,hb,-⟩ := succeeds_bind.mp hrest
      exact ⟨⟨a,ha⟩,b,hb⟩
    · rintro ⟨⟨a,ha⟩,b,hb⟩
      exact ⟨a,ha,succeeds_bind.mpr ⟨b,hb,_,rfl⟩⟩

/-- An entry that is no map is read through NULL. -/
theorem written_entries {c : Client} {m : OrdMap Bytes Stored}
    (h : Succeeds (PortDumps.formatValueOut c (binVal m))) : ∀ e ∈ m.entries, IsEntry e.2 := by
  rw [binVal_entries] at h
  change Succeeds (writeEach entryOut (m.entries.map (fun e => (.string e.1,e.2.val))) >>= _) at h
  obtain ⟨body,hbody,-⟩ := succeeds_bind.mp h
  intro e he
  obtain ⟨toks,htoks⟩ := (writeEach_succeeds _).mp ⟨body,hbody⟩ _ (List.mem_map_of_mem he)
  obtain ⟨key,cell⟩ := e
  cases cell with
  | entry value ttl writeTime => exact ⟨value,ttl,writeTime,rfl⟩
  | raw data => cases htoks

theorem written_bins {c : Client} {rec : Record} {toks : List Tok} (hkey : rec.key = none)
    (h : PortDumps.dumpCdtRecords c (some rec) = .ok toks) :
    ∀ b ∈ rec.bins, Succeeds (PortDumps.formatValueOut c b.2) := by
  simp only [PortDumps.dumpCdtRecords,PortDumps.dumpWith,hkey] at h
  obtain ⟨body,hbody,-⟩ := succeeds_bind.mp ⟨toks,h⟩
  intro b hb
  obtain ⟨written,hwritten⟩ := (writeEach_succeeds _).mp ⟨body,hbody⟩ b hb
  obtain ⟨value,hvalue,-⟩ := succeeds_bind.mp ⟨written,hwritten⟩
  exact ⟨value,hvalue⟩

end Entries

section Records
variable {c : Client} {S : Server} {db : S.DB} {s : FullStore} {k : AsKey} {rec : Record}

def SizedField : AsVal → Prop
  | .integer i => Int64 i
  | .bytes value => value.length < 2^32
  | _ => True

/-- Numbers have 64 bits and sizes 32. -/
structure SizedVal (c : Client) (b : Bytes × AsVal) : Prop where
  name : b.1.length < 2^32
  printed : (textBytes (c.tostring b.2)).length < 2^32
  few : ∀ es, b.2 = .map es → es.length < 2^31
  keys : ∀ es key v, b.2 = .map es → (.string key,v) ∈ es → key.length < 2^32
  fields : ∀ es key fs, b.2 = .map es → (key,.map fs) ∈ es → ∀ f ∈ fs, SizedField f.2

structure SizedRecord (c : Client) (rec : Record) : Prop where
  few : rec.bins.length < 2^16
  bins : ∀ b ∈ rec.bins, SizedVal c b

theorem contentOf_sized {n : Bytes} {m : OrdMap Bytes Stored} (h : SizedVal c (n,binVal m))
    (hentries : ∀ e ∈ m.entries, IsEntry e.2) : SizedBin c (n,contentOf m) := by
  have hval := binVal_entries m
  refine ⟨h.name,?_,?_⟩
  · intro e he
    obtain ⟨x,hx,rfl⟩ := List.mem_map.mp he
    have hmem : (AsVal.string x.1,x.2.val) ∈
        m.entries.map (fun e => (AsVal.string e.1,e.2.val)) := List.mem_map_of_mem hx
    refine ⟨h.keys _ x.1 _ hval hmem,?_⟩
    obtain ⟨value,ttl,writeTime,hcell⟩ := hentries x hx
    rw [hcell] at hmem ⊢
    have hsized := h.fields _ _ _ hval hmem
    intro f hf
    have hf' : f ∈ [InnerField.ttl ttl,.bytes value,.wt writeTime] := hf
    simp only [List.mem_cons,List.not_mem_nil,or_false] at hf'
    rcases hf' with rfl | rfl | rfl
    · exact hsized (.string ttlKey,.integer ttl) List.mem_cons_self
    · exact hsized (.string valueKey,.bytes value)
        (List.mem_cons_of_mem _ List.mem_cons_self)
    · exact hsized (.string wtKey,.integer writeTime)
        (List.mem_cons_of_mem _ (List.mem_cons_of_mem _ List.mem_cons_self))
  · rw [contentOf_stored hentries]
    exact h.printed

/-- The cells of a bin that the record has. -/
def cellsOf (s : FullStore) (k : AsKey) (n : Bytes) : OrdMap Bytes Stored :=
  ((s k).lookup n).getD OrdMap.empty

variable (hS : S.Documented) (hget : S.get k db = some rec)
include hS hget

theorem bins_ne_nil : rec.bins ≠ [] := by
  intro hnil
  have hmissing : S.get k db = none := by
    rw [hS.get_missing]
    intro n
    by_contra hne
    obtain ⟨v,hv⟩ := Option.ne_none_iff_exists'.mp hne
    have hmem := (hS.get_bins k db rec n v hget).mpr hv
    rw [hnil] at hmem
    exact List.not_mem_nil hmem
  rw [hget] at hmissing
  cases hmissing

variable (hs : Holds S db s)
include hs

theorem bin_cellsOf {b : Bytes × AsVal} (hb : b ∈ rec.bins) :
    (s k).lookup b.1 = some (cellsOf s k b.1) ∧ b.2 = binVal (cellsOf s k b.1) := by
  obtain ⟨m,hm,hv⟩ := (bin_cells hS hs hget).mp hb
  unfold cellsOf
  rw [hm]
  exact ⟨rfl,hv.symm⟩

theorem all_bins {P : OrdMap Bytes Stored → Prop} :
    (∀ b ∈ rec.bins, P (cellsOf s k b.1)) ↔ ∀ n m, (s k).lookup n = some m → P m := by
  constructor
  · intro h n m hm
    have hb := (bin_cells hS hs hget).mpr ⟨m,hm,rfl⟩
    have hP := h _ hb
    have hcells : cellsOf s k n = m := by
      unfold cellsOf
      rw [hm]
      rfl
    rwa [hcells] at hP
  · intro h b hb
    exact h b.1 _ (bin_cellsOf hS hget hs hb).1

/-- A record of entries is one that the port can dump. -/
theorem record_stored (hsized : SizedRecord c rec)
    (hentries : ∀ b ∈ rec.bins, ∀ e ∈ (cellsOf s k b.1).entries, IsEntry e.2) :
    ∃ r : StoredRecord c, r.record = rec ∧
      r.bins = rec.bins.map (fun b => (b.1,contentOf (cellsOf s k b.1))) := by
  have hbin : ∀ b ∈ rec.bins, b.2 = binVal (cellsOf s k b.1) :=
    fun b hb => (bin_cellsOf hS hget hs hb).2
  have hsizedBins : ∀ d ∈ rec.bins.map (fun b => (b.1,contentOf (cellsOf s k b.1))),
      SizedBin c d := by
    intro d hd
    obtain ⟨b,hb,rfl⟩ := List.mem_map.mp hd
    have hval := hsized.bins b hb
    have hpair : b = (b.1,binVal (cellsOf s k b.1)) := Prod.ext rfl (hbin b hb)
    rw [hpair] at hval
    exact contentOf_sized hval (hentries b hb)
  have hfew : (rec.bins.map (fun b => (b.1,contentOf (cellsOf s k b.1)))).length < 2^16 := by
    rw [List.length_map]
    exact hsized.few
  refine ⟨⟨rec.gen,rec.ttl,_,hfew,hsizedBins⟩,?_,rfl⟩
  have hbins : (rec.bins.map (fun b => (b.1,contentOf (cellsOf s k b.1)))).map storedBin =
      rec.bins := by
    rw [List.map_map]
    refine (List.map_congr_left fun b hb => ?_).trans (List.map_id _)
    show (b.1,(contentOf (cellsOf s k b.1)).stored) = b
    rw [contentOf_stored (hentries b hb),← hbin b hb]
  unfold StoredRecord.record
  rw [hbins,← hS.get_key k db rec hget]

/-- The two answers of a record are the same exactly if it holds nothing but
entries, and no bin without one. -/
theorem same_iff (hsized : SizedRecord c rec) : SameRecord c rec ↔
    ∀ n m, (s k).lookup n = some m → m.entries ≠ [] ∧ ∀ e ∈ m.entries, IsEntry e.2 := by
  rw [← all_bins hS hget hs]
  by_cases hentries : ∀ b ∈ rec.bins, ∀ e ∈ (cellsOf s k b.1).entries, IsEntry e.2
  · obtain ⟨r,hr,hbins⟩ := record_stored hS hget hs hsized hentries
    have hfew : ∀ b ∈ rec.bins, (cellsOf s k b.1).entries.length < 2^31 := by
      intro b hb
      have hval := (bin_cellsOf hS hget hs hb).2.trans (binVal_entries _)
      have hlength := (hsized.bins b hb).few _ hval
      rwa [List.length_map] at hlength
    have hcounted : ∀ d ∈ r.bins, Counted d.2 := by
      rw [hbins]
      intro d hd
      obtain ⟨b,hb,rfl⟩ := List.mem_map.mp hd
      show (List.map _ _).length < 2^31
      rw [List.length_map]
      exact hfew b hb
    have hdumped := (ReadPaths.same_dumped r hcounted).trans
      (PortDumps.dumped_iff ReadPaths.nifWriter r)
    rw [← hr,hdumped,hr,hbins]
    constructor
    · rintro ⟨-,hall⟩ b hb
      exact ⟨(contentOf_agrees (hentries b hb) (hfew b hb)).mp
        (hall _ (List.mem_map_of_mem hb)),hentries b hb⟩
    · intro hall
      refine ⟨fun hnil => bins_ne_nil hS hget (List.map_eq_nil_iff.mp hnil),?_⟩
      intro d hd
      obtain ⟨b,hb,rfl⟩ := List.mem_map.mp hd
      exact (contentOf_agrees (hentries b hb) (hfew b hb)).mpr (hall b hb).1
  · refine iff_of_false ?_ (fun h => hentries fun b hb => (h b hb).2)
    rintro ⟨toks,-,hwrite,-⟩
    apply hentries
    intro b hb
    have hwritten := written_bins (hS.get_key k db rec hget) hwrite b hb
    rw [(bin_cellsOf hS hget hs hb).2] at hwritten
    exact written_entries hwritten

end Records

section Runs
variable {c : Client} {S : Server} {db : S.DB} {env : PortEnv} {nenv : Env} {w : World}
variable {s : PortState} {k : RecordKey} {p : PolicyNumbers}

/-- The port's client has the same server as the native one. -/
def PortDelivers (S : Server) (db : S.DB) (k : AsKey) (env : PortEnv) : Prop :=
  ∀ reqs p, match S.get k db with
    | some rec => (env.respond (reqs ++ [.keyGet k p])).status = aerospikeOk ∧
        (env.respond (reqs ++ [.keyGet k p])).record = some rec
    | none => (env.respond (reqs ++ [.keyGet k p])).status ≠ aerospikeOk

/-- Both answer ok, and with the same list but for its direction. -/
def AnswerAlike (env : PortEnv) (nenv : Env) (s : PortState) (w : World) (k : RecordKey)
    (p : PolicyNumbers) : Prop := ∃ pairs,
  Replies s (callPortCdtGet env (s.goto (getToks k p))) (makeTuple2 atomOk (ofList pairs)) ∧
    nativeAnswer env.client nenv w k p.term = .term (makeTuple2 atomOk (ofList pairs.reverse))

/-- Every cell has been put with its ttl, and no bin has lost all of its cells. -/
def AllEntries (bins : Bins Bytes Bytes Cell) : Prop :=
  ∀ n m, bins.lookup n = some m →
    m.entries ≠ [] ∧ ∀ e ∈ m.entries, ∃ value ttl, e.2 = .entry value ttl

theorem allEntries_map (b : Bins Bytes Bytes Stored) : AllEntries (Bins.map Stored.cell b) ↔
    ∀ n m, b.lookup n = some m → m.entries ≠ [] ∧ ∀ e ∈ m.entries, IsEntry e.2 := by
  have hcell : ∀ cell : Stored, (∃ value ttl, cell.cell = .entry value ttl) ↔ IsEntry cell := by
    intro cell
    cases cell with
    | entry value ttl writeTime =>
      exact iff_of_true ⟨value,ttl,rfl⟩ ⟨value,ttl,writeTime,rfl⟩
    | raw data =>
      constructor
      · rintro ⟨value,ttl,h⟩
        cases h
      · rintro ⟨value,ttl,writeTime,h⟩
        cases h
  have hbin : ∀ m : OrdMap Bytes Stored,
      ((m.mapVal Stored.cell).entries ≠ [] ∧ ∀ e ∈ (m.mapVal Stored.cell).entries,
        ∃ value ttl, e.2 = .entry value ttl) ↔
      m.entries ≠ [] ∧ ∀ e ∈ m.entries, IsEntry e.2 := by
    intro m
    change (List.map _ _ ≠ [] ∧ ∀ e ∈ List.map _ _, _) ↔ _
    rw [List.forall_mem_map,Ne,List.map_eq_nil_iff]
    exact and_congr_right fun _ => forall₂_congr fun e _ => hcell e.2
  unfold AllEntries
  constructor
  · intro h n m hm
    apply (hbin m).mp
    apply h n
    rw [lookup_map,hm]
    rfl
  · intro h n m hm
    rw [lookup_map] at hm
    obtain ⟨m',hm',rfl⟩ := Option.map_eq_some_iff.mp hm
    exact (hbin m').mpr (h n m' hm')

theorem showsRecord_reverse {bins : Bins Bytes Bytes Cell} {pairs : List Term}
    (h : ShowsRecord c bins (ofList pairs.reverse)) : ShowsRecord c bins (ofList pairs) := by
  obtain ⟨shown,heq,hnames,hall⟩ := h
  have hpairs : pairs = shown.reverse.map
      (fun b => makeTuple2 (.binary b.1) (ofList b.2)) := by
    rw [List.map_reverse,← ofList_injective heq,List.reverse_reverse]
  refine ⟨shown.reverse,congrArg ofList hpairs,?_,?_⟩
  · rw [List.map_reverse]
    exact (List.reverse_perm _).trans hnames
  · exact fun b hb => hall b (List.mem_reverse.mp hb)

/-- After any run of the writing calls the port answers a `cdt_get` with the
list of the native call exactly if the record is there and holds nothing but
entries, and what it answers then shows the record store. -/
theorem port_shows_store (hc : TakesBinNames env.client) (hS : S.Documented)
    {xs : List StoreStep} (hrun : Trace (Performs env.client S) xs S.start db)
    (hsized : ∀ rec, S.get k.asKey db = some rec → SizedRecord env.client rec)
    (hinit : s.isAerospikeInitialised = true) (hconn : s.isConnected = true)
    (hw : w.isConnectedFlag = true) (hnarrow : ∀ i ∈ p.all, Narrow i)
    (hport : PortDelivers S db k.asKey env) (hnative : Delivers S db k.asKey nenv) :
    (AnswerAlike env nenv s w k p ↔
      storeAfter xs k.asKey ≠ OrdMap.empty ∧ AllEntries (storeAfter xs k.asKey)) ∧
    (AnswerAlike env nenv s w k p → ∃ t, ShowsRecord env.client (storeAfter xs k.asKey) t ∧
      Replies s (callPortCdtGet env (s.goto (getToks k p))) (makeTuple2 atomOk t)) := by
  obtain ⟨full,hs,hstore⟩ := run_holds hc hS hrun
  have hpolicy : IsPolicy p.term := ⟨_,_,_,_,rfl⟩
  have hanswer := native_answers_iff (c := env.client) hw hpolicy hnative
  rw [hstore]
  change (_ ↔ Bins.map Stored.cell (full k.asKey) ≠ OrdMap.empty ∧
    AllEntries (Bins.map Stored.cell (full k.asKey))) ∧ (_ → ∃ t, ShowsRecord env.client
      (Bins.map Stored.cell (full k.asKey)) t ∧ _)
  cases hget : S.get k.asKey db with
  | none =>
    have hempty := (missing_iff hS hs).mp hget
    have hnot : ¬AnswerAlike env nenv s w k p := by
      rintro ⟨pairs,-,hpairs⟩
      obtain ⟨rec,hrec,-⟩ := (hanswer _).mp hpairs
      rw [hget] at hrec
      cases hrec
    exact ⟨iff_of_false hnot (fun h => h.1 hempty),fun h => absurd h hnot⟩
  | some rec =>
    have hbrings : Brings env k rec := by
      intro reqs p
      have hone := hport reqs p
      rw [hget] at hone
      exact hone
    have hne : Bins.map Stored.cell (full k.asKey) ≠ OrdMap.empty := by
      intro hempty
      have hmissing := (missing_iff hS hs).mpr hempty
      rw [hget] at hmissing
      cases hmissing
    have halike : AnswerAlike env nenv s w k p ↔ SameRecord env.client rec := by
      constructor
      · rintro ⟨pairs,hframe,hpairs⟩
        obtain ⟨toks,htoks,hdecode⟩ := (replies_iff hinit hconn hnarrow hbrings _).mp hframe
        obtain ⟨rec',hrec,hdump⟩ := (hanswer _).mp hpairs
        rw [hget] at hrec
        cases hrec
        exact ⟨toks,pairs,htoks,hdecode,hdump⟩
      · rintro ⟨toks,pairs,htoks,hdecode,hdump⟩
        exact ⟨pairs,(replies_iff hinit hconn hnarrow hbrings _).mpr ⟨toks,htoks,hdecode⟩,
          (hanswer _).mpr ⟨rec,hget,hdump⟩⟩
    refine ⟨?_,?_⟩
    · rw [halike,same_iff hS hget hs (hsized rec hget),allEntries_map]
      exact (and_iff_right hne).symm
    · rintro ⟨pairs,hframe,hpairs⟩
      obtain ⟨rec',hrec,hdump⟩ := (hanswer _).mp hpairs
      rw [hget] at hrec
      cases hrec
      obtain ⟨t,hshows,ht⟩ := dump_shows env.client hS hs hget
      rw [ht] at hdump
      cases hdump
      exact ⟨_,showsRecord_reverse hshows,hframe⟩

end Runs

section Example

def onePut : List StoreStep :=
  [⟨plainEnv,connectedWorld,.cdtPutAsync 0 keyA [(binP,[tripleA])] (.integer 0)
    RecordReads.plainPolicy⟩]

def onePutRecord : Record := ⟨none,1,0,[(binP.data,.map [(.string textA.data,.map
  [(.string ttlKey,.integer 60),(.string valueKey,.bytes [118]),(.string wtKey,.integer 0)])])]⟩

theorem onePut_runs : ∃ db, Trace (Performs plainClient plainServer) onePut plainServer.start db ∧
    getRecord keyA.asKey db = some onePutRecord :=
  ⟨_,⟨_,⟨⟨_,rfl⟩,_,rfl,rfl⟩,rfl⟩,rfl⟩

theorem onePut_sized : SizedRecord plainClient onePutRecord where
  few := by decide
  bins := by
    intro b hb
    rw [onePutRecord,List.mem_singleton] at hb
    subst hb
    refine ⟨by decide,by decide,?_,?_,?_⟩
    · rintro es ⟨⟩
      decide
    · rintro es key v ⟨⟩ hv
      rw [List.mem_singleton] at hv
      cases hv
      decide
    · rintro es key fs ⟨⟩ hfs
      rw [List.mem_singleton] at hfs
      cases hfs
      intro f hf
      simp only [List.mem_cons,List.not_mem_nil,or_false] at hf
      rcases hf with rfl | rfl | rfl
      · exact ⟨by decide,by decide⟩
      · exact Nat.lt_of_lt_of_le Nat.one_lt_two (by decide)
      · exact ⟨by decide,by decide⟩

def gettingPort (db : PlainDB) : PortEnv :=
  { FrameReplies.plainPort with
    respond := (plainGet db).respond
    short := by
      intro reqs
      show (textBytes (match getRecord keyA.asKey db with
        | some rec => (⟨0,0,"",some rec,fun _ => 0⟩ : Response)
        | none => ⟨2,2,"",none,fun _ => 0⟩).message).length < 1024
      have hempty : (textBytes "").length < 1024 := by decide
      cases getRecord keyA.asKey db <;> exact hempty }

theorem one_put_shown : ∃ db, AnswerAlike (gettingPort db) (plainGet db)
      PortAgreement.connectedPort connectedWorld keyA PortCdtPuts.plainPolicy ∧
    ∃ t, ShowsRecord plainClient (storeAfter onePut keyA.asKey) t ∧
      Replies PortAgreement.connectedPort (callPortCdtGet (gettingPort db)
        (PortAgreement.connectedPort.goto (getToks keyA PortCdtPuts.plainPolicy)))
          (makeTuple2 atomOk t) := by
  obtain ⟨db,hrun,hrec⟩ := onePut_runs
  have hsized : ∀ rec, plainServer.get keyA.asKey db = some rec →
      SizedRecord plainClient rec := by
    intro rec hget
    change getRecord keyA.asKey db = some rec at hget
    rw [hrec] at hget
    cases hget
    exact onePut_sized
  have hport : PortDelivers plainServer db keyA.asKey (gettingPort db) := plainGet_delivers db
  have hnarrow : ∀ i ∈ PortCdtPuts.plainPolicy.all, Narrow i := by
    simp [PortCdtPuts.plainPolicy,PolicyNumbers.all,Narrow]
  have hshows := @port_shows_store plainServer db (gettingPort db) (plainGet db) connectedWorld
    PortAgreement.connectedPort keyA PortCdtPuts.plainPolicy (fun _ hn => decide_eq_true hn)
    plainServer_documented onePut hrun hsized rfl rfl rfl hnarrow hport (plainGet_delivers db)
  have hentries : AllEntries (storeAfter onePut keyA.asKey) := by
    intro n m hm
    have hmem := OrdMap.mem_entries.mpr hm
    have hone : (storeAfter onePut keyA.asKey).entries =
        [(binP.data,OrdMap.empty.insert textA.data (.entry [118] 60))] := rfl
    rw [hone,List.mem_singleton] at hmem
    cases hmem
    refine ⟨List.cons_ne_nil _ _,fun e he => ?_⟩
    have hcell : e = (textA.data,.entry [118] 60) := List.mem_singleton.mp he
    exact ⟨[118],60,congrArg Prod.snd hcell⟩
  have hne : storeAfter onePut keyA.asKey ≠ OrdMap.empty := by
    intro h
    cases congrArg OrdMap.entries h
  have halike := hshows.1.mpr ⟨hne,hentries⟩
  exact ⟨db,halike,hshows.2 halike⟩

end Example

end AspikePort.PortReads
