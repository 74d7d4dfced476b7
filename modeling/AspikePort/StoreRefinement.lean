import AspikePort.RecordServer
import AspikePort.StoreCalls
import AspikePort.LabelledRuns

/-!
# The bins of the server refine the record store

The server keeps under each key of a bin a map of value, ttl and write time,
or plain bytes. While a put goes through its three operations the inner map is
incomplete; at the end of every call each bin of the server is the bin of the
store, entry by entry.
-/

set_option autoImplicit false

namespace AspikePort.StoreRefinement
open AspikePort.ErlangTerms AspikePort.ClientValues AspikePort.NifWorld AspikePort.OrderedMap
open AspikePort.NestedStore AspikePort.RecordServer AspikePort.PutAgreement
open AspikePort.TripleWrites AspikePort.SyncCalls AspikePort.Lifecycle
open AspikePort.StoreCalls AspikePort.LabelledRuns

section Representation

/-- What a caller has stored under one key. -/
inductive Cell where
  | entry (value : Bytes) (ttl : ℤ)
  | raw (data : Bytes)

/-- The same with the time of the write. -/
inductive Stored where
  | entry (value : Bytes) (ttl writeTime : ℤ)
  | raw (data : Bytes)

def Stored.cell : Stored → Cell
  | .entry value ttl _ => .entry value ttl
  | .raw data => .raw data

def entryFields (value : Bytes) (ttl writeTime : ℤ) : OrdMap Bytes AsVal :=
  ((OrdMap.empty.insert valueKey (.bytes value)).insert ttlKey (.integer ttl)).insert wtKey
    (.integer writeTime)

def Stored.val : Stored → AsVal
  | .entry value ttl writeTime => mapOf (entryFields value ttl writeTime)
  | .raw data => .bytes data

def binVal (cells : OrdMap Bytes Stored) : AsVal := mapOf (cells.mapVal Stored.val)

def Represents (content : Content) (b : Bins Bytes Bytes Stored) : Prop :=
  ∀ n, content n = (b.lookup n).map binVal

abbrev FullStore := Store AsKey Bytes Bytes Stored

def Holds (S : Server) (db : S.DB) (s : FullStore) : Prop := ∀ k, Represents (S.bin db k) (s k)

/-- Writing the three fields over a complete entry, or from nothing, makes the
same entry. -/
theorem fields_complete {inner : OrdMap Bytes AsVal} (value : Bytes) (ttl writeTime : ℤ)
    (h : inner = OrdMap.empty ∨ ∃ v t w, inner = entryFields v t w) :
    ((inner.insert valueKey (.bytes value)).insert ttlKey (.integer ttl)).insert wtKey
      (.integer writeTime) = entryFields value ttl writeTime := by
  rcases h with rfl | ⟨v,t,w,rfl⟩
  · rfl
  · apply OrdMap.ext
    intro k
    by_cases hw : k = wtKey <;> by_cases ht : k = ttlKey <;> by_cases hv : k = valueKey <;>
      simp [entryFields,hw,ht,hv]

/-- A write of one bin, when the server's bin follows it. -/
theorem represents_update {content : Content} {b : Bins Bytes Bytes Stored} {new : Option AsVal}
    (hrep : Represents content b) (w : Write AsKey Bytes Bytes Stored)
    (hnew : new = (w.onCells (b.lookup w.bin)).map binVal) :
    Represents (Function.update content w.bin new) (w.onBins b) := by
  intro n
  rw [lookup_onBins]
  by_cases hn : n = w.bin
  · rw [hn,Function.update_self,if_pos rfl,hnew]
  · rw [Function.update_of_ne hn,if_neg hn,hrep n]

end Representation

section Operations
variable {S : Server} (hS : S.Documented)

theorem applyTo_bin {b : Bytes} (ops : List Operation) (hb : ∀ op ∈ ops, op.bin = b)
    {content content' : Content} (h : ops.foldlM S.applyTo content = some content') :
    ∃ new, ops.foldlM (fun old op => S.apply op old) (content b) = some new ∧
      content' = Function.update content b new := by
  induction ops generalizing content with
  | nil =>
    cases h
    exact ⟨_,rfl,(Function.update_eq_self b _).symm⟩
  | cons op ops ih =>
    have hop : op.bin = b := hb op List.mem_cons_self
    rw [List.foldlM_cons] at h
    obtain ⟨next,hnext,hrest⟩ := Option.bind_eq_some_iff.mp h
    obtain ⟨v,hv,rfl⟩ := Option.map_eq_some_iff.mp hnext
    rw [hop] at hv hrest
    obtain ⟨new,hnew,hcontent⟩ := ih (fun x hx => hb x (List.mem_cons_of_mem _ hx)) hrest
    rw [Function.update_self] at hnew
    rw [Function.update_idem] at hcontent
    refine ⟨new,?_,hcontent⟩
    rw [List.foldlM_cons,hv]
    exact hnew

/-- The bin is, or would become, the map `m` with the map `inner` under `k`. -/
def Under (k : Bytes) (m inner : OrdMap Bytes AsVal) (old : Option AsVal) : Prop :=
  (old = none ∧ m = OrdMap.empty ∧ inner = OrdMap.empty) ∨
  (old = some (mapOf m) ∧
    (m.lookup k = none ∧ inner = OrdMap.empty ∨ m.lookup k = some (mapOf inner)))

include hS

theorem mapPut_under {b k key : Bytes} {v : AsVal} {m inner : OrdMap Bytes AsVal}
    {old new : Option AsVal} (h : Under k m inner old)
    (happly : S.apply (.mapPut b [k] key v) old = some new) :
    new = some (mapOf (m.insert k (mapOf (inner.insert key v)))) := by
  rcases h with ⟨rfl,rfl,rfl⟩ | ⟨rfl,⟨hnone,rfl⟩ | hinner⟩
  · exact hS.context_creates_bin b k key v new happly
  · exact hS.context_creates_map b k key v m new hnone happly
  · exact hS.context_enters_map b k key v m inner new hinner happly

theorem mapPut_step {b k key : Bytes} {v : AsVal} {m inner : OrdMap Bytes AsVal}
    {old new : Option AsVal} (h : Under k m inner old)
    (happly : S.apply (.mapPut b [k] key v) old = some new) :
    Under k (m.insert k (mapOf (inner.insert key v))) (inner.insert key v) new := by
  refine Or.inr ⟨mapPut_under hS h happly,Or.inr ?_⟩
  simp

/-- A put that succeeds has found no bytes under its key. -/
theorem under_of_success {b k key : Bytes} {v : AsVal} {cells : Option (OrdMap Bytes Stored)}
    {new : Option AsVal} (happly : S.apply (.mapPut b [k] key v) (cells.map binVal) = some new) :
    ∃ inner, Under k ((cells.getD OrdMap.empty).mapVal Stored.val) inner (cells.map binVal) ∧
      (inner = OrdMap.empty ∨ ∃ v t w, inner = entryFields v t w) := by
  cases cells with
  | none => exact ⟨OrdMap.empty,Or.inl ⟨rfl,rfl,rfl⟩,Or.inl rfl⟩
  | some m =>
    have hlookup := OrdMap.lookup_mapVal Stored.val k m
    cases hk : m.lookup k with
    | none =>
      rw [hk] at hlookup
      exact ⟨OrdMap.empty,Or.inr ⟨rfl,Or.inl ⟨hlookup,rfl⟩⟩,Or.inl rfl⟩
    | some stored =>
      rw [hk] at hlookup
      cases stored with
      | entry v t w =>
        exact ⟨entryFields v t w,Or.inr ⟨rfl,Or.inr hlookup⟩,Or.inr ⟨v,t,w,rfl⟩⟩
      | raw data =>
        have hnone := hS.context_needs_map b k key v (m.mapVal Stored.val) data hlookup
        exact absurd (hnone.symm.trans happly) (by simp)

/-- The three operations of one triple make one complete entry. -/
theorem triple_applies {now : ℤ} {bin : Bytes} {t : Triple} {content content' : Content}
    {b : Bins Bytes Bytes Stored} (k : AsKey) (hrep : Represents content b)
    (h : (t.operations now bin).foldlM S.applyTo content = some content') :
    Represents content' ((tripleWrite (fun v ttl => Stored.entry v ttl now) k bin t).onBins b) := by
  obtain ⟨new,hnew,rfl⟩ := applyTo_bin (b := bin) _ (by simp [Triple.operations,Operation.bin]) h
  rw [hrep bin] at hnew
  simp only [Triple.operations,List.foldlM_cons,List.foldlM_nil] at hnew
  obtain ⟨new₁,h₁,hnew⟩ := Option.bind_eq_some_iff.mp hnew
  obtain ⟨new₂,h₂,hnew⟩ := Option.bind_eq_some_iff.mp hnew
  obtain ⟨new₃,h₃,hnew⟩ := Option.bind_eq_some_iff.mp hnew
  cases hnew
  obtain ⟨inner,hunder,hinner⟩ := under_of_success hS h₁
  have hunder₁ := mapPut_step hS hunder h₁
  have hunder₂ := mapPut_step hS hunder₁ h₂
  have hlast := mapPut_under hS hunder₂ h₃
  rw [OrdMap.insert_insert,OrdMap.insert_insert,fields_complete t.value t.ttl now hinner] at hlast
  refine represents_update hrep (tripleWrite _ k bin t) (hlast.trans (congrArg some ?_))
  exact congrArg mapOf (OrdMap.mapVal_insert Stored.val t.key (.entry t.value t.ttl now)
    ((b.lookup bin).getD OrdMap.empty)).symm

theorem remove_applies {bin : Bytes} {ks : List Bytes} {content content' : Content}
    {b : Bins Bytes Bytes Stored} (k : AsKey) (hrep : Represents content b)
    (h : S.applyTo content (.mapRemoveByKeyList bin ks) = some content') :
    Represents content' ((Write.remove k bin ks).onBins b) := by
  obtain ⟨new,hnew,rfl⟩ := Option.map_eq_some_iff.mp h
  change S.apply _ (content bin) = _ at hnew
  rw [hrep bin] at hnew
  apply represents_update hrep (Write.remove k bin ks)
  change new = ((b.lookup bin).map (OrdMap.eraseAll ks)).map binVal
  cases hb : b.lookup bin with
  | none =>
    rw [hb] at hnew
    exact hS.removes_nothing bin ks new hnew
  | some m =>
    rw [hb] at hnew
    rw [hS.removes_keys bin ks _ new hnew]
    exact congrArg (fun m => some (mapOf m)) (OrdMap.mapVal_eraseAll Stored.val ks m).symm

/-- The operations of a put, taken triple by triple. -/
theorem triples_apply {now : ℤ} (k : AsKey) (ts : List (Bytes × Triple))
    {content content' : Content} {b : Bins Bytes Bytes Stored} (hrep : Represents content b)
    (h : (ts.flatMap (fun t => t.2.operations now t.1)).foldlM S.applyTo content =
      some content') :
    Represents content' ((ts.map (fun t => tripleWrite
      (fun v ttl => Stored.entry v ttl now) k t.1 t.2)).foldl (fun b w => w.onBins b) b) := by
  induction ts generalizing content b with
  | nil =>
    cases h
    exact hrep
  | cons t ts ih =>
    rw [List.flatMap_cons,List.foldlM_append] at h
    obtain ⟨next,hnext,hrest⟩ := Option.bind_eq_some_iff.mp h
    exact ih (triple_applies hS k hrep hnext) hrest

theorem operate_holds {k : AsKey} {ops : Operations} {db db' : S.DB} {s : FullStore}
    {ws : List (Write AsKey Bytes Bytes Stored)} (hs : Holds S db s)
    (h : S.operate k ops db = some db') (hw : ∀ w ∈ ws, w.record = k)
    (hops : ∀ content, ops.entries.foldlM S.applyTo (S.bin db k) = some content →
      Represents content (ws.foldl (fun b w => w.onBins b) (s k))) :
    Holds S db' (applyAll ws s) := by
  intro j
  rw [applyAll_record ws hw]
  by_cases hj : j = k
  · rw [hj,Function.update_self]
    exact hops _ (hS.operate_applies k ops db db' h)
  · rw [Function.update_of_ne hj,hS.operate_frame k ops db db' j h hj]
    exact hs j

theorem removal_holds {k : AsKey} {bin : Bytes} {ks : List Bytes} {ttl : UInt32} {db db' : S.DB}
    {s : FullStore} (hs : Holds S db s)
    (h : S.operate k ⟨ttl,[.mapRemoveByKeyList bin ks]⟩ db = some db') :
    Holds S db' (applyAll [.remove k bin ks] s) := by
  apply operate_holds hS hs h (by simp [Write.record])
  intro content hcontent
  rw [List.foldlM_cons] at hcontent
  obtain ⟨next,hnext,hrest⟩ := Option.bind_eq_some_iff.mp hcontent
  cases hrest
  exact remove_applies hS k (hs k) hnext

/-- The removals of a batch, in whatever order the server makes them. -/
theorem removals_hold {α : Type} (key : α → AsKey) (bin : Bytes) (ks : α → List Bytes)
    (ttl : UInt32) (xs : List α) {db db' : S.DB} {s : FullStore} (hs : Holds S db s)
    (h : xs.foldlM (fun db x => S.operate (key x) ⟨ttl,[.mapRemoveByKeyList bin (ks x)]⟩ db) db =
      some db') :
    Holds S db' (applyAll (xs.map (fun x => .remove (key x) bin (ks x))) s) := by
  induction xs generalizing db s with
  | nil =>
    cases h
    exact hs
  | cons x xs ih =>
    rw [List.foldlM_cons] at h
    obtain ⟨next,hnext,hrest⟩ := Option.bind_eq_some_iff.mp h
    exact ih (removal_holds hS hs hnext) hrest

theorem replace_holds {k : AsKey} {bin : Bytes} {rec : PutRecord} {cells : OrdMap Bytes Stored}
    {db db' : S.DB} {s : FullStore} (hs : Holds S db s) (hrec : rec.bins = [(bin,binVal cells)])
    (h : S.put k rec db = some db') : Holds S db' (applyAll [.replace k bin cells] s) := by
  intro j
  rw [applyAll_record (r := k) _ (by simp [Write.record])]
  by_cases hj : j = k
  · rw [hj,Function.update_self]
    have hupdate : S.bin db' k = Function.update (S.bin db k) bin (some (binVal cells)) := by
      funext n
      rw [hS.put_bins k rec db db' n h,Server.putBin,hrec]
      by_cases hn : n = bin
      · subst hn
        rw [Function.update_self,List.find?_cons,decide_eq_true rfl]
        rfl
      · rw [Function.update_of_ne hn,List.find?_cons,decide_eq_false (Ne.symm hn)]
        rfl
    rw [hupdate]
    exact represents_update (hs k) (.replace k bin cells) rfl
  · rw [Function.update_of_ne hj,hS.put_frame k rec db db' j h hj]
    exact hs j

end Operations

section Runs
variable (c : Client) (S : Server)

structure StoreStep where
  env : Env
  world : World
  call : StoreCall

/-- The call is answered with ok and the server performs what it submits. -/
def Performs (x : StoreStep) (db db' : S.DB) : Prop :=
  Successful (x.call.toDataCall.body c x.env x.world).1 ∧
    ∃ reqs, submissions (x.call.toDataCall.body c x.env) x.world = some reqs ∧
      reqs.foldlM (fun db req => S.serve req db) db = some db'

def fullWrites (x : StoreStep) : List (Write AsKey Bytes Bytes Stored) :=
  x.call.writes (fun value ttl => .entry value ttl x.env.now) .raw

variable {c S}

theorem served_one {reqs : Option (List Request)} {req : Request} {db db' : S.DB}
    (h : ∃ rs, reqs = some rs ∧ rs.foldlM (fun db req => S.serve req db) db = some db')
    (hreq : reqs = some [req]) : S.serve req db = some db' := by
  obtain ⟨rs,hrs,hserve⟩ := h
  rw [hreq] at hrs
  cases hrs
  rw [List.foldlM_cons] at hserve
  obtain ⟨next,hnext,hrest⟩ := Option.bind_eq_some_iff.mp hserve
  cases hrest
  exact hnext

theorem put_operations (now : ℤ) (bins : List BinPut) :
    bins.flatMap (fun b => binOperations now b.triples) =
      (bins.flatMap (fun b => b.triples.2.map (fun t => (b.triples.1,t)))).flatMap
        (fun t => t.2.operations now t.1) := by
  rw [List.flatMap_assoc]
  apply List.flatMap_congr
  intro b _
  rw [List.flatMap_map]
  rfl

theorem put_writes {V : Type} (entry : Bytes → ℤ → V) (k : AsKey) (bins : List BinPut) :
    bins.flatMap (fun b => b.triples.2.map (tripleWrite entry k b.triples.1)) =
      (bins.flatMap (fun b => b.triples.2.map (fun t => (b.triples.1,t)))).map
        (fun t => tripleWrite entry k t.1 t.2) := by
  rw [List.map_flatMap]
  apply List.flatMap_congr
  intro b _
  rw [List.map_map]
  rfl

theorem binVal_rawCells (map : List (Text × Bytes)) :
    binVal (rawCells .raw map) = asOrderedmap (rawCells id map).entries := by
  have hcells : (rawCells Stored.raw map).mapVal Stored.val = (rawCells id map).mapVal .bytes := by
    rw [rawCells_map,rawCells_map]
    rfl
  unfold binVal
  rw [hcells]
  unfold mapOf asOrderedmap
  change AsVal.map (List.map _ (List.map _ (rawCells id map).entries)) = _
  rw [List.map_map]
  rfl

/-- One call keeps server and store together. -/
theorem call_holds (hc : TakesBinNames c) (hS : S.Documented) {x : StoreStep} {db db' : S.DB}
    {s : FullStore} (hs : Holds S db s) (h : Performs c S x db db') :
    Holds S db' (applyAll (fullWrites x) s) := by
  obtain ⟨env,w,call⟩ := x
  obtain ⟨hok,hserved⟩ := h
  unfold fullWrites
  cases call with
  | cdtPutAsync ref k bins ttl policy =>
    rcases put_requests hc ref k bins ttl policy hok with ⟨rfl,hreq⟩ | ⟨ops,limits,hreq,hops⟩
    · obtain ⟨rs,hrs,hserve⟩ := hserved
      rw [hreq] at hrs
      cases hrs
      cases hserve
      exact hs
    · have hrun : S.operate k.asKey ops db = some db' := served_one hserved hreq
      have hwrites := put_writes (fun value ttl => Stored.entry value ttl env.now) k.asKey bins
      simp only [StoreCall.writes]
      rw [hwrites]
      refine operate_holds hS hs hrun (fun w hw => ?_) (fun content hcontent => ?_)
      · obtain ⟨t,_,rfl⟩ := List.mem_map.mp hw
        rfl
      · rw [hops,put_operations] at hcontent
        exact triples_apply hS k.asKey _ (hs k.asKey) hcontent
  | cdtDeleteByKeysSync k bin subkeys =>
    exact removal_holds hS hs (served_one hserved (deleteSync_requests hc k bin subkeys hok))
  | cdtDeleteByKeysAsync ref k bin subkeys =>
    exact removal_holds hS hs (served_one hserved (deleteAsync_requests hc ref k bin subkeys hok))
  | cdtDeleteByKeysBatchAsync ref ns set bin tuples =>
    have hrun := served_one hserved (batch_requests hc ref ns set bin tuples hok)
    obtain ⟨recs,hperm,hrecs⟩ := hS.batch_writes _ db db' hrun
    obtain ⟨tuples',rfl,hperm'⟩ :
        ∃ tuples' : List (Text × List Text), recs = tuples'.map (batchWrite ns set bin) ∧ tuples'.Perm tuples := by
      have hcomp := congrFun₂ (List.eq_map_comp_perm (batchWrite ns set bin)) recs tuples
      exact hcomp.mpr hperm
    rw [List.foldlM_map] at hrecs
    have hholds := removals_hold hS (fun t : Text × List Text => ⟨ns.data,set.data,t.1.data⟩)
      bin.data (fun t => t.2.map Text.data) recordNoChangeTtl tuples' hs hrecs
    simp only [StoreCall.writes]
    rw [← removals_perm (fun t => ⟨_,_,_,rfl⟩) hperm']
    exact hholds
  | mapPut k bin ttl map =>
    obtain ⟨ttl',hreq⟩ := mapPut_requests k bin ttl map hok
    have hrun : S.put k.asKey _ db = some db' := served_one hserved hreq
    exact replace_holds hS hs (by rw [binVal_rawCells]) hrun

def storeAfter (xs : List StoreStep) : Store AsKey Bytes Bytes Cell :=
  xs.foldl (fun s x => applyAll (x.call.writes .entry .raw) s) Store.empty

/-- After any run of successful calls the server holds the store that the calls
describe, with a write time for each entry. -/
theorem run_holds (hc : TakesBinNames c) (hS : S.Documented) {xs : List StoreStep} {db : S.DB}
    (h : Trace (Performs c S) xs S.start db) :
    ∃ s, Holds S db s ∧ storeAfter xs = Store.map Stored.cell s := by
  refine trace_simulates (Performs c S)
    (R := fun db a => ∃ s, Holds S db s ∧ a = Store.map Stored.cell s) xs ?_ ?_ h
  · rintro x _ db db' _ ⟨s,hs,rfl⟩ hx
    refine ⟨_,call_holds hc hS hs hx,?_⟩
    rw [← applyAll_map]
    unfold fullWrites
    rw [writes_map]
    rfl
  · refine ⟨Store.empty,fun k n => ?_,rfl⟩
    rw [hS.start_empty]
    rfl

end Runs

end AspikePort.StoreRefinement
