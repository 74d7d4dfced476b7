import AspikePort.FormatSafety
import AspikePort.StoreRefinement

/-!
# What a get shows of the record store

A get walks the bins of the record it is delivered and formats each of them.
Every bin of the store is such that the formatter recognises each entry, so
the answer lists every bin once, and in it every key once with its value.
-/

set_option autoImplicit false

namespace AspikePort.RecordReads
open AspikePort.ErlangTerms AspikePort.ClientValues AspikePort.EarlyReturn
open AspikePort.NifWorld AspikePort.CdtPut AspikePort.PutOperations
open AspikePort.ValueFormat AspikePort.FormatSafety AspikePort.FallibleLoops
open AspikePort.OrderedMap AspikePort.NestedStore AspikePort.RecordServer AspikePort.LabelledRuns
open AspikePort.SyncCalls AspikePort.AsyncCalls AspikePort.StoreCalls AspikePort.StoreRefinement
open Proc

section Answers
variable (c : Client)

/-- An entry is shown with some write time, plain bytes as the client prints
them. -/
def ShowsCell : Cell → Term → Prop
  | .entry value ttl, t => ∃ writeTime,
      t = makeTuple3 (.binary value) (.integer ttl) (.integer writeTime)
  | .raw data, t => t = makeString (c.tostring (.bytes data))

/-- Each key, in the order of the map, followed by its cell. -/
def ShowsEntries : List (Bytes × Cell) → List Term → Prop
  | [], flat => flat = []
  | (key,cell)::es, flat => ∃ t rest, flat = .binary key::t::rest ∧ ShowsCell c cell t ∧
      ShowsEntries es rest

/-- A list of pairs of bin name and flat list, one for each bin. -/
def ShowsRecord (bins : Bins Bytes Bytes Cell) (answer : Term) : Prop :=
  ∃ shown : List (Bytes × List Term),
    answer = ofList (shown.map (fun b => makeTuple2 (.binary b.1) (ofList b.2))) ∧
    (shown.map Prod.fst).Perm (bins.entries.map Prod.fst) ∧
    ∀ b ∈ shown, ∃ m, bins.lookup b.1 = some m ∧ ShowsEntries c m.entries b.2

def cellTerm : Stored → Term
  | .entry value ttl writeTime => makeTuple3 (.binary value) (.integer ttl) (.integer writeTime)
  | .raw data => makeString (c.tostring (.bytes data))

def flatCells (es : List (Bytes × Stored)) : List Term :=
  es.flatMap (fun e => [.binary e.1,cellTerm c e.2])

theorem entryTerms_cell (key : Bytes) (cell : Stored) :
    entryTerms c (.string key,cell.val) = [.binary key,cellTerm c cell] := by
  cases cell with
  | entry value ttl writeTime => rfl
  | raw data => rfl

theorem showsCell_cell (cell : Stored) : ShowsCell c cell.cell (cellTerm c cell) := by
  cases cell with
  | entry value ttl writeTime => exact ⟨writeTime,rfl⟩
  | raw data => exact rfl

theorem showsEntries_cells (es : List (Bytes × Stored)) :
    ShowsEntries c (es.map (fun e => (e.1,e.2.cell))) (flatCells c es) := by
  induction es with
  | nil => rfl
  | cons e es ih => exact ⟨cellTerm c e.2,flatCells c es,rfl,showsCell_cell c e.2,ih⟩

theorem entryReadable_cell (key : Bytes) (cell : Stored) :
    EntryReadable (.string key,cell.val) := by
  intro vmap hv field hfield _
  cases cell with
  | entry value ttl writeTime =>
    cases hv
    obtain ⟨e,_,rfl⟩ := List.mem_map.mp hfield
    exact ⟨e.1,rfl⟩
  | raw data => cases hv

/-- A bin of the store is formatted key by key, and no value is left out. -/
theorem formatValueOut_bin (m : OrdMap Bytes Stored) :
    formatValueOut c (binVal m) = .ok (ofList (flatCells c m.entries)) := by
  have hentries : binVal m = .map (m.entries.map (fun e => (.string e.1,e.2.val))) := by
    change AsVal.map (List.map _ (List.map _ m.entries)) = _
    rw [List.map_map]
    rfl
  rw [hentries,formatValueOut_map,List.flatMap_map]
  · congr 2
    exact List.flatMap_congr (fun e _ => entryTerms_cell c e.1 e.2)
  · intro e he
    obtain ⟨x,_,rfl⟩ := List.mem_map.mp he
    exact entryReadable_cell x.1 x.2

end Answers

section Records
variable (c : Client)

theorem foldl_cons_terms {α : Type} (f : α → Term) (xs : List α) (ts : List Term) :
    xs.foldl (fun t x => .cons (f x) t) (ofList ts) = ofList ((xs.map f).reverse ++ ts) := by
  induction xs generalizing ts with
  | nil => rfl
  | cons x xs ih =>
    rw [List.foldl_cons,List.map_cons,List.reverse_cons,List.append_assoc]
    exact ih (f x::ts)

/-- The bins are consed on, so the answer has them in reverse. -/
theorem dumpWith_bins {text : String → Term} {name : Bytes → Term} {rec : Record}
    (hkey : rec.key = none) {value : Bytes × AsVal → Term}
    (h : ∀ b ∈ rec.bins, formatValueOut c b.2 = .ok (value b)) : dumpWith c text name rec =
      .ok (ofList (rec.bins.reverse.map (fun b => makeTuple2 (name b.1) (value b)))) := by
  have hstep : ∀ b ∈ rec.bins, ∀ res : Term,
      (do let value ← formatValueOut c b.2
          return Term.cons (makeTuple2 (name b.1) value) res : Except Fault Term) =
        .ok (.cons (makeTuple2 (name b.1) (value b)) res) := by
    intro b hb res
    rw [h b hb]
    rfl
  unfold dumpWith
  rw [hkey]
  refine (foldlM_eq_ok rec.bins hstep .nil).trans (congrArg Except.ok ?_)
  refine (foldl_cons_terms _ rec.bins []).trans (congrArg ofList ?_)
  rw [List.append_nil,← List.map_reverse]

theorem dumpWith_succeeds {text : String → Term} {name : Bytes → Term} {rec : Record}
    (hkey : rec.key = none) :
    Succeeds (dumpWith c text name rec) ↔ ∀ b ∈ rec.bins, Readable b.2 := by
  unfold dumpWith
  rw [hkey]
  apply foldlM_succeeds
  intro res b
  rw [succeeds_bind,← formatValueOut_succeeds c]
  constructor
  · rintro ⟨t,ht,-⟩
    exact ⟨t,ht⟩
  · rintro ⟨t,ht⟩
    exact ⟨t,ht,succeeds_pure _⟩

theorem dump_bins {rec : Record} (hkey : rec.key = none) {flat : Bytes × AsVal → List Term}
    (h : ∀ b ∈ rec.bins, formatValueOut c b.2 = .ok (ofList (flat b))) :
    dumpCdtRecords c rec = .ok (ofList ((rec.bins.reverse.map (fun b => (b.1,flat b))).map
      (fun b => makeTuple2 (.binary b.1) (ofList b.2)))) := by
  rw [List.map_map]
  exact dumpWith_bins c hkey h

variable {S : Server} {db : S.DB} {s : FullStore} {k : AsKey} {rec : Record}

theorem bin_cells (hS : S.Documented) (hs : Holds S db s) (hget : S.get k db = some rec)
    {n : Bytes} {v : AsVal} :
    (n,v) ∈ rec.bins ↔ ∃ m, (s k).lookup n = some m ∧ binVal m = v := by
  rw [hS.get_bins k db rec n v hget,hs k n,Option.map_eq_some_iff]

/-- The names of the record that is delivered are those of the store. -/
theorem names_perm (hS : S.Documented) (hs : Holds S db s) (hget : S.get k db = some rec) :
    (rec.bins.map Prod.fst).Perm ((s k).entries.map Prod.fst) := by
  apply (List.perm_ext_iff_of_nodup (hS.get_once k db rec hget) (OrdMap.keys_nodup _)).mpr
  intro n
  rw [OrdMap.mem_keys]
  constructor
  · intro h
    obtain ⟨⟨n,v⟩,hb,rfl⟩ := List.mem_map.mp h
    obtain ⟨m,hm,-⟩ := (bin_cells hS hs hget).mp hb
    exact ⟨m,hm⟩
  · rintro ⟨m,hm⟩
    exact List.mem_map.mpr ⟨(n,binVal m),(bin_cells hS hs hget).mpr ⟨m,hm,rfl⟩,rfl⟩

theorem dump_shows (hS : S.Documented) (hs : Holds S db s) (hget : S.get k db = some rec) :
    ∃ t, ShowsRecord c (Bins.map Stored.cell (s k)) t ∧ dumpCdtRecords c rec = .ok t := by
  have hbin : ∀ b ∈ rec.bins, ∃ m, (s k).lookup b.1 = some m ∧ binVal m = b.2 :=
    fun b hb => (bin_cells hS hs hget).mp hb
  have hflat : ∀ b ∈ rec.bins, formatValueOut c b.2 =
      .ok (ofList (flatCells c (((s k).lookup b.1).getD OrdMap.empty).entries)) := by
    intro b hb
    obtain ⟨m,hm,hv⟩ := hbin b hb
    rw [← hv,hm]
    exact formatValueOut_bin c m
  refine ⟨_,⟨_,rfl,?_,?_⟩,dump_bins c (hS.get_key k db rec hget) hflat⟩
  · have hnames : (Bins.map Stored.cell (s k)).entries.map Prod.fst =
        (s k).entries.map Prod.fst := by
      change List.map _ (List.map _ _) = _
      rw [List.map_map]
      rfl
    rw [hnames,List.map_map,List.map_reverse]
    exact (List.reverse_perm _).trans (names_perm hS hs hget)
  · intro b hb
    obtain ⟨x,hx,rfl⟩ := List.mem_map.mp hb
    obtain ⟨m,hm,-⟩ := hbin x (List.mem_reverse.mp hx)
    refine ⟨m.mapVal Stored.cell,?_,?_⟩
    · rw [lookup_map,hm]
      rfl
    · rw [hm]
      exact showsEntries_cells c m.entries

theorem missing_iff (hS : S.Documented) (hs : Holds S db s) :
    S.get k db = none ↔ Bins.map Stored.cell (s k) = OrdMap.empty := by
  rw [hS.get_missing]
  constructor
  · intro h
    apply OrdMap.ext
    intro n
    have hn := h n
    rw [hs k n,Option.map_eq_none_iff] at hn
    rw [lookup_map,hn]
    rfl
  · intro h n
    have hn := congrArg (OrdMap.lookup n) h
    rw [lookup_map,OrdMap.lookup_empty,Option.map_eq_none_iff] at hn
    rw [hs k n,hn]
    rfl

end Records

section Gets
variable (c : Client) (S : Server)

/-- The client answers a get of the record with what the server has. -/
def Delivers (db : S.DB) (k : AsKey) (env : Env) : Prop :=
  ∀ reqs p, match S.get k db with
    | some rec => (env.respond (reqs ++ [.keyGet k p])).status = aerospikeOk ∧
        (env.respond (reqs ++ [.keyGet k p])).record = some rec
    | none => (env.respond (reqs ++ [.keyGet k p])).status ≠ aerospikeOk

def DeliversLater (db : S.DB) (k : AsKey) (out : Outcome) : Prop :=
  match S.get k db with
  | some rec => out.err = none ∧ out.record = some rec
  | none => out.err ≠ none

/-- A record with bins is shown, and one without is an error. -/
def Shows (bins : Bins Bytes Bytes Cell) (done failed : Term → Term) (reply : Reply) : Prop :=
  (bins ≠ OrdMap.empty → ∃ t, ShowsRecord c bins t ∧ reply = .term (done t)) ∧
  (bins = OrdMap.empty → ∃ t, reply = .term (failed t))

variable {c S} {db : S.DB} {s : FullStore} {k : RecordKey}

theorem shows_cases (hS : S.Documented) (hs : Holds S db s) {done failed : Term → Term}
    {reply : Reply}
    (hsome : ∀ rec t, S.get k.asKey db = some rec → dumpCdtRecords c rec = .ok t →
      reply = .term (done t))
    (hnone : S.get k.asKey db = none → ∃ t, reply = .term (failed t)) :
    Shows c (Bins.map Stored.cell (s k.asKey)) done failed reply := by
  constructor
  · intro hne
    obtain ⟨rec,hget⟩ := Option.ne_none_iff_exists'.mp (fun h => hne ((missing_iff hS hs).mp h))
    obtain ⟨t,hshows,hdump⟩ := dump_shows c hS hs hget
    exact ⟨t,hshows,hsome rec t hget hdump⟩
  · exact fun hempty => hnone ((missing_iff hS hs).mpr hempty)

def getReply (c : Client) (r : Response) : Nif Term :=
  if r.status ≠ aerospikeOk then return makeNifError r.errCode r.message
  else match r.record with
  | none => return makeNifError c.aerospikeErr "NULL p_rec - internal error"
  | some rec => do
    let msg ← lift (orFault (dumpCdtRecords c rec))
    return makeTuple2 atomOk msg

theorem cdtGetSync_run (c : Client) (env : Env) (k : RecordKey) {w : World} {policy : Term}
    {p : Policy}
    (hw : w.isConnectedFlag = true) (hp : readPolicy policy = .ok p) : ∃ w',
    (cdtGetSync c env k.nameSpace.term k.set.term k.key.term policy w).1 =
      (getReply c (env.respond (w.submitted ++ [.keyGet k.asKey (some p)])) w').1 := by
  have hrun : cdtGetSync c env k.nameSpace.term k.set.term k.key.term policy w =
      syncOperationCounter env (submit env (.keyGet k.asKey (some p)) >>= getReply c) w := by
    change (lift (binaryKey k.nameSpace.term k.set.term k.key.term) >>= _) w = _
    rw [k.binaryKey_eq,lift_ok_bind_run]
    change (lift (readPolicy policy) >>= _) w = _
    rw [hp,lift_ok_bind_run,isConnected_bind_run _ hw]
    rfl
  rw [hrun,syncOperationCounter,within_run,submit_bind_run,
    SyncOperationCounter.enter_submitted]
  exact ⟨_,rfl⟩

theorem sync_shows (hS : S.Documented) (hs : Holds S db s) {env : Env} {w : World}
    {policy : Term} (hw : w.isConnectedFlag = true) (hpolicy : IsPolicy policy)
    (henv : Delivers S db k.asKey env) :
    Shows c (Bins.map Stored.cell (s k.asKey)) (makeTuple2 atomOk) (makeTuple2 atomError)
      (replyOf (cdtGetSync c env k.nameSpace.term k.set.term k.key.term policy w).1) := by
  obtain ⟨-,⟨p,hp⟩,-⟩ := (policy_cases policy).resolve_right (fun h => h.1 hpolicy)
  obtain ⟨w',hrun⟩ := cdtGetSync_run c env k hw hp
  have hreply := henv w.submitted (some p)
  rw [hrun]
  apply shows_cases hS hs
  · intro rec t hget hdump
    rw [hget] at hreply
    unfold getReply
    rw [if_neg (not_not.mpr hreply.1),hreply.2]
    change replyOf ((lift (orFault (dumpCdtRecords c rec)) >>= _) w').1 = _
    rw [hdump]
    rfl
  · intro hget
    rw [hget] at hreply
    unfold getReply
    rw [if_pos hreply]
    exact ⟨_,rfl⟩

theorem async_shows (hS : S.Documented) (hs : Holds S db s) {w : World} {policy : Term}
    {out : Outcome} (ref : ℕ) (hw : w.isConnectedFlag = true) (hpolicy : IsPolicy policy)
    (hout : DeliversLater S db k.asKey out) : ∃ job p,
    cdtGetAsyncJob (.reference ref) k.nameSpace.term k.set.term k.key.term policy w =
      (.ok job,w) ∧ job.request = .keyGet k.asKey p ∧
    Shows c (Bins.map Stored.cell (s k.asKey)) (makeTuple3 atomOk (.reference ref))
      (makeTuple3 atomError (.reference ref)) (replyOf (orFault (callback c job out))) := by
  obtain ⟨-,-,p,hp⟩ := (policy_cases policy).resolve_right (fun h => h.1 hpolicy)
  refine ⟨⟨.reference ref,some k.asKey,[],.cdtGet,.keyGet k.asKey (some p)⟩,some p,?_,rfl,?_⟩
  · change (lift (binaryKey k.nameSpace.term k.set.term k.key.term) >>= _) w = _
    rw [k.binaryKey_eq,lift_ok_bind_run]
    change (lift (readPolicyAsync policy) >>= _) w = _
    rw [hp,lift_ok_bind_run,isConnected_bind_run _ hw]
    rfl
  · unfold DeliversLater at hout
    apply shows_cases hS hs
    · intro rec t hget hdump
      rw [hget] at hout
      change replyOf (orFault (onSuccess _ out _)) = _
      unfold onSuccess
      rw [hout.1,hout.2]
      change replyOf (orFault (dumpCdtRecords c rec >>= _)) = _
      rw [hdump]
      rfl
    · intro hget
      rw [hget] at hout
      obtain ⟨e,he⟩ := Option.ne_none_iff_exists'.mp hout
      change ∃ t, replyOf (orFault (onSuccess _ out _)) = _
      unfold onSuccess
      rw [he]
      exact ⟨_,rfl⟩

/-- After any run of successful writing calls, every get of any record shows
the record of the store that the calls describe. -/
theorem gets_show_store (hc : TakesBinNames c) (hS : S.Documented) {xs : List StoreStep}
    (hrun : Trace (Performs c S) xs S.start db) (k : RecordKey) {w : World} {policy : Term}
    (hw : w.isConnectedFlag = true) (hpolicy : IsPolicy policy) :
    (∀ env, Delivers S db k.asKey env →
      Shows c (storeAfter xs k.asKey) (makeTuple2 atomOk) (makeTuple2 atomError)
        (replyOf (cdtGetSync c env k.nameSpace.term k.set.term k.key.term policy w).1)) ∧
    ∀ ref out, DeliversLater S db k.asKey out → ∃ job p,
      cdtGetAsyncJob (.reference ref) k.nameSpace.term k.set.term k.key.term policy w =
        (.ok job,w) ∧ job.request = .keyGet k.asKey p ∧
      Shows c (storeAfter xs k.asKey) (makeTuple3 atomOk (.reference ref))
        (makeTuple3 atomError (.reference ref)) (replyOf (orFault (callback c job out))) := by
  obtain ⟨s,hs,hstore⟩ := run_holds hc hS hrun
  rw [hstore]
  constructor
  · intro env henv
    exact sync_shows hS hs hw hpolicy henv
  · intro ref out hout
    exact async_shows hS hs ref hw hpolicy hout

end Gets

section Example

def textA : Text := ⟨textBytes "a",by decide⟩

def keyA : RecordKey := ⟨textA,textA,textA⟩

def binP : BinName := ⟨textBytes "p",by decide,by decide⟩

def binQ : BinName := ⟨textBytes "q",by decide,by decide⟩

def tripleA : PutTriple := ⟨⟨textBytes "a",[118],60⟩,by decide,by decide,by decide⟩

def plainPolicy : Term := .tuple [.integer 0,.integer 0,.integer 0,.integer 0]

def twoWrites : List StoreStep :=
  [⟨plainEnv,connectedWorld,.cdtPutAsync 0 keyA [(binP,[tripleA])] (.integer 0) plainPolicy⟩,
    ⟨plainEnv,connectedWorld,.mapPut keyA binQ (.integer 0) [(textA,[7])]⟩]

def plainGet (db : PlainDB) : Env :=
  { plainEnv with respond := fun _ =>
      match getRecord keyA.asKey db with
      | some rec => ⟨0,0,"",some rec,fun _ => 0⟩
      | none => ⟨2,2,"",none,fun _ => 0⟩ }

theorem plainGet_delivers (db : PlainDB) : Delivers plainServer db keyA.asKey (plainGet db) := by
  intro reqs p
  change match getRecord keyA.asKey db with | some rec => _ | none => _
  cases h : getRecord keyA.asKey db with
  | some rec => simp [plainGet,h,aerospikeOk]
  | none => simp [plainGet,h,aerospikeOk]

def plainOutcome (db : PlainDB) : Outcome :=
  match getRecord keyA.asKey db with
  | some rec => ⟨none,some rec,[]⟩
  | none => ⟨some (2,""),none,[]⟩

theorem plainOutcome_delivers (db : PlainDB) :
    DeliversLater plainServer db keyA.asKey (plainOutcome db) := by
  change match getRecord keyA.asKey db with | some rec => _ | none => _
  cases h : getRecord keyA.asKey db with
  | some rec => simp [plainOutcome,h]
  | none => simp [plainOutcome,h]

theorem two_writes_shown : ∃ db, Trace (Performs plainClient plainServer) twoWrites
      plainServer.start db ∧ storeAfter twoWrites keyA.asKey ≠ OrdMap.empty ∧
    Shows plainClient (storeAfter twoWrites keyA.asKey) (makeTuple2 atomOk)
      (makeTuple2 atomError) (replyOf (cdtGetSync plainClient (plainGet db)
        keyA.nameSpace.term keyA.set.term keyA.key.term plainPolicy connectedWorld).1) ∧
    ∃ job p, cdtGetAsyncJob (.reference 0) keyA.nameSpace.term keyA.set.term keyA.key.term
        plainPolicy connectedWorld = (.ok job,connectedWorld) ∧
      job.request = .keyGet keyA.asKey p ∧
      Shows plainClient (storeAfter twoWrites keyA.asKey) (makeTuple3 atomOk (.reference 0))
        (makeTuple3 atomError (.reference 0))
        (replyOf (orFault (callback plainClient job (plainOutcome db)))) := by
  have hrun : ∃ db, Trace (Performs plainClient plainServer) twoWrites plainServer.start db :=
    ⟨_,_,⟨⟨_,rfl⟩,_,rfl,rfl⟩,_,⟨⟨_,rfl⟩,_,rfl,rfl⟩,rfl⟩
  obtain ⟨db,hdb⟩ := hrun
  have hpolicy : IsPolicy plainPolicy := ⟨_,_,_,_,rfl⟩
  have hgets := gets_show_store (fun _ hn => decide_eq_true hn) plainServer_documented hdb keyA
    (w := connectedWorld) rfl hpolicy
  refine ⟨db,hdb,?_,hgets.1 (plainGet db) (plainGet_delivers db),
    hgets.2 0 (plainOutcome db) (plainOutcome_delivers db)⟩
  intro h
  cases congrArg OrdMap.entries h

end Example

end AspikePort.RecordReads
