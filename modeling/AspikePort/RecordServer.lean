import AspikePort.ClientValues
import AspikePort.OrderedMap
import Mathlib.Logic.Function.Basic

/-!
# The database as the code relies on it

The server is not part of the repository. What the code relies on is the
documented meaning of a few requests: the operations of one request are
applied in order and only to their own bins, a put replaces the bins it names,
a context key creates the map it leads to, and a read delivers every bin once.
A small server shows that these can be had together.
-/

set_option autoImplicit false

namespace AspikePort.RecordServer
open AspikePort.ErlangTerms AspikePort.ClientValues AspikePort.OrderedMap

/-- A key-ordered map under text keys. -/
def mapOf (m : OrdMap Bytes AsVal) : AsVal := .map (m.entries.map (fun e => (.string e.1,e.2)))

/-- The bins of a record; `none` where there is no bin of that name. -/
abbrev Content := Bytes → Option AsVal

/-- A request that fails has no result. `apply` is one operation on its bin. -/
structure Server where
  DB : Type
  start : DB
  bin : DB → AsKey → Content
  apply : Operation → Option AsVal → Option (Option AsVal)
  operate : AsKey → Operations → DB → Option DB
  put : AsKey → PutRecord → DB → Option DB
  batch : List BatchWrite → DB → Option DB
  get : AsKey → DB → Option Record

namespace Server
variable (S : Server)

def applyTo (content : Content) (op : Operation) : Option Content :=
  (S.apply op (content op.bin)).map (Function.update content op.bin)

/-- What a put leaves of a bin: an as_nil removes it. -/
def putBin (rec : PutRecord) (name : Bytes) (old : Option AsVal) : Option AsVal :=
  match (rec.bins.find? (fun b => b.1 = name)).map Prod.snd with
  | none => old
  | some .nil => none
  | some v => some v

structure Documented : Prop where
  start_empty : ∀ k n, S.bin S.start k n = none
  operate_applies : ∀ k ops db db', S.operate k ops db = some db' →
    ops.entries.foldlM S.applyTo (S.bin db k) = some (S.bin db' k)
  operate_frame : ∀ k ops db db' j, S.operate k ops db = some db' → j ≠ k →
    S.bin db' j = S.bin db j
  put_bins : ∀ k rec db db' n, S.put k rec db = some db' →
    S.bin db' k n = putBin rec n (S.bin db k n)
  put_frame : ∀ k rec db db' j, S.put k rec db = some db' → j ≠ k → S.bin db' j = S.bin db j
  /-- The records of a batch are written in some order. -/
  batch_writes : ∀ recs db db', S.batch recs db = some db' →
    ∃ recs' : List BatchWrite, recs'.Perm recs ∧
      recs'.foldlM (fun db rec => S.operate rec.key rec.ops db) db = some db'
  context_creates_bin : ∀ b k key v new,
    S.apply (.mapPut b [k] key v) none = some new →
      new = some (mapOf (OrdMap.empty.insert k (mapOf (OrdMap.empty.insert key v))))
  context_creates_map : ∀ b k key v m new, m.lookup k = none →
    S.apply (.mapPut b [k] key v) (some (mapOf m)) = some new →
      new = some (mapOf (m.insert k (mapOf (OrdMap.empty.insert key v))))
  context_enters_map : ∀ b k key v m inner new, m.lookup k = some (mapOf inner) →
    S.apply (.mapPut b [k] key v) (some (mapOf m)) = some new →
      new = some (mapOf (m.insert k (mapOf (inner.insert key v))))
  context_needs_map : ∀ b k key v m data, m.lookup k = some (.bytes data) →
    S.apply (.mapPut b [k] key v) (some (mapOf m)) = none
  removes_nothing : ∀ b ks new, S.apply (.mapRemoveByKeyList b ks) none = some new → new = none
  removes_keys : ∀ b ks m new, S.apply (.mapRemoveByKeyList b ks) (some (mapOf m)) = some new →
    new = some (mapOf (m.eraseAll ks))
  get_missing : ∀ k db, S.get k db = none ↔ ∀ n, S.bin db k n = none
  /-- The key itself is stored only on request, and the code never asks for it. -/
  get_key : ∀ k db rec, S.get k db = some rec → rec.key = none
  get_once : ∀ k db rec, S.get k db = some rec → (rec.bins.map Prod.fst).Nodup
  get_bins : ∀ k db rec n v, S.get k db = some rec →
    ((n,v) ∈ rec.bins ↔ S.bin db k n = some v)

def serve : Request → S.DB → Option S.DB
  | .keyOperate k ops _, db => S.operate k ops db
  | .keyPut k rec, db => S.put k rec db
  | .batchWrite recs, db => S.batch recs db
  | _, db => some db

end Server

section PlainServer

abbrev PlainDB := AsKey → OrdMap Bytes AsVal

def texts : List (AsVal × AsVal) → Option (List (Bytes × AsVal))
  | [] => some []
  | (.string k,v)::es => (texts es).map ((k,v)::·)
  | _::_ => none

def decode : AsVal → Option (OrdMap Bytes AsVal)
  | .map es => (texts es).bind (fun es => if h : Increasing es then some ⟨es,h⟩ else none)
  | _ => none

theorem texts_strings (es : List (Bytes × AsVal)) :
    texts (es.map (fun e => (.string e.1,e.2))) = some es := by
  induction es with
  | nil => rfl
  | cons e es ih => simp [texts,ih]

theorem decode_mapOf (m : OrdMap Bytes AsVal) : decode (mapOf m) = some m := by
  simp only [decode,mapOf,texts_strings,Option.bind_some]
  exact dif_pos m.increasing

/-- The map under a context key, empty if there is none yet. -/
def putUnder (k key : Bytes) (v : AsVal) (m : OrdMap Bytes AsVal) :
    Option (OrdMap Bytes AsVal) :=
  (match m.lookup k with | none => some OrdMap.empty | some old => decode old).map
    (fun inner => m.insert k (mapOf (OrdMap.insert key v inner)))

def plainApply : Operation → Option AsVal → Option (Option AsVal)
  | .mapPut _ [k] key v, old =>
    ((match old with | none => some OrdMap.empty | some old => decode old).bind
      (putUnder k key v)).map (fun m => some (mapOf m))
  | .mapPut _ _ _ _, _ => none
  | .mapRemoveByKeyList _ _, none => some none
  | .mapRemoveByKeyList _ ks, some old => (decode old).map (fun m => some (mapOf (m.eraseAll ks)))
  | .incr _ _, _ => none

def setContent (n : Bytes) (bins : OrdMap Bytes AsVal) : Option AsVal → OrdMap Bytes AsVal
  | none => bins.erase n
  | some v => bins.insert n v

theorem lookup_setContent (n j : Bytes) (bins : OrdMap Bytes AsVal) (v : Option AsVal) :
    (setContent n bins v).lookup j = if j = n then v else bins.lookup j := by
  cases v with
  | none => by_cases h : j = n <;> simp [setContent,h]
  | some v => by_cases h : j = n <;> simp [setContent,h]

def plainOperate (bins : OrdMap Bytes AsVal) (op : Operation) : Option (OrdMap Bytes AsVal) :=
  (plainApply op (bins.lookup op.bin)).map (setContent op.bin bins)

def stored : AsVal → Option AsVal
  | .nil => none
  | v => some v

def operateRecord (k : AsKey) (ops : Operations) (db : PlainDB) : Option PlainDB :=
  (ops.entries.foldlM plainOperate (db k)).map (Function.update db k)

def putRecord (k : AsKey) (rec : PutRecord) (db : PlainDB) : PlainDB :=
  Function.update db k (rec.bins.foldr (fun b bins => setContent b.1 bins (stored b.2)) (db k))

def getRecord (k : AsKey) (db : PlainDB) : Option Record :=
  if (db k).entries = [] then none else some ⟨none,1,0,(db k).entries⟩

def plainServer : Server where
  DB := PlainDB
  start := fun _ => OrdMap.empty
  bin := fun db k n => (db k).lookup n
  apply := plainApply
  operate := operateRecord
  put := fun k rec db => some (putRecord k rec db)
  batch := fun recs db => recs.foldlM (fun db rec => operateRecord rec.key rec.ops db) db
  get := getRecord

theorem foldr_setContent (bs : List (Bytes × AsVal)) (bins : OrdMap Bytes AsVal) (n : Bytes) :
    (bs.foldr (fun b bins => setContent b.1 bins (stored b.2)) bins).lookup n =
      match (bs.find? (fun b => b.1 = n)).map Prod.snd with
      | none => bins.lookup n
      | some .nil => none
      | some v => some v := by
  induction bs with
  | nil => rfl
  | cons b bs ih =>
    rw [List.foldr_cons,lookup_setContent,List.find?_cons]
    by_cases h : b.1 = n
    · rw [if_pos h.symm,decide_eq_true h]
      change _ = (match some b.2 with | none => _ | some .nil => none | some v => some v)
      cases b.2 <;> rfl
    · rw [if_neg (Ne.symm h),decide_eq_false h]
      exact ih

theorem foldlM_plainOperate {ops : List Operation} {bins bins' : OrdMap Bytes AsVal}
    (h : ops.foldlM plainOperate bins = some bins') :
    ops.foldlM plainServer.applyTo (fun n => bins.lookup n) = some (fun n => bins'.lookup n) := by
  induction ops generalizing bins with
  | nil =>
    cases h
    rfl
  | cons op ops ih =>
    rw [List.foldlM_cons] at h ⊢
    obtain ⟨next,hnext,hrest⟩ := Option.bind_eq_some_iff.mp h
    obtain ⟨v,hv,rfl⟩ := Option.map_eq_some_iff.mp hnext
    have hcontent : Function.update (fun n => bins.lookup n) op.bin v =
        fun n => (setContent op.bin bins v).lookup n := by
      funext n
      rw [lookup_setContent,Function.update_apply]
    rw [← ih hrest,← hcontent]
    change (((plainApply op (bins.lookup op.bin)).map _).bind _) = _
    rw [hv]
    rfl

theorem operateRecord_some {k : AsKey} {ops : Operations} {db db' : PlainDB}
    (h : operateRecord k ops db = some db') : ∃ bins,
      ops.entries.foldlM plainOperate (db k) = some bins ∧ db' = Function.update db k bins := by
  obtain ⟨bins,hbins,hdb⟩ := Option.map_eq_some_iff.mp h
  exact ⟨bins,hbins,hdb.symm⟩

theorem operateRecord_applies {k : AsKey} {ops : Operations} {db db' : PlainDB}
    (h : operateRecord k ops db = some db') :
    ops.entries.foldlM plainServer.applyTo (fun n => (db k).lookup n) =
      some (fun n => (db' k).lookup n) := by
  obtain ⟨bins,hbins,rfl⟩ := operateRecord_some h
  rw [foldlM_plainOperate hbins,Function.update_self]

theorem operateRecord_frame {k j : AsKey} {ops : Operations} {db db' : PlainDB}
    (h : operateRecord k ops db = some db') (hj : j ≠ k) : db' j = db j := by
  obtain ⟨bins,_,rfl⟩ := operateRecord_some h
  exact Function.update_of_ne hj _ _

theorem putRecord_bins (k : AsKey) (rec : PutRecord) (db : PlainDB) (n : Bytes) :
    (putRecord k rec db k).lookup n = Server.putBin rec n ((db k).lookup n) := by
  unfold putRecord
  rw [Function.update_self,foldr_setContent]
  rfl

theorem putRecord_frame {k j : AsKey} (rec : PutRecord) (db : PlainDB) (hj : j ≠ k) :
    putRecord k rec db j = db j := Function.update_of_ne hj _ _

theorem getRecord_none (k : AsKey) (db : PlainDB) :
    getRecord k db = none ↔ ∀ n, (db k).lookup n = none := by
  unfold getRecord
  constructor
  · intro h n
    by_cases he : (db k).entries = []
    · rw [OrdMap.lookup,he]
      rfl
    · rw [if_neg he] at h
      cases h
  · intro h
    by_cases he : (db k).entries = []
    · rw [if_pos he]
    · obtain ⟨e,hmem⟩ := List.exists_mem_of_ne_nil _ he
      have hlookup := OrdMap.mem_entries.mp hmem
      exact absurd ((h e.1).symm.trans hlookup) (by simp)

theorem getRecord_some {k : AsKey} {db : PlainDB} {rec : Record}
    (h : getRecord k db = some rec) : rec = ⟨none,1,0,(db k).entries⟩ := by
  unfold getRecord at h
  split_ifs at h
  exact (Option.some.inj h).symm

theorem plainServer_documented : plainServer.Documented where
  start_empty := fun _ _ => rfl
  operate_applies := fun _ _ _ _ h => operateRecord_applies h
  operate_frame := fun _ _ _ _ _ h hj =>
    congrArg (fun bins n => OrdMap.lookup n bins) (operateRecord_frame h hj)
  put_bins := fun k rec db _ n h => Option.some.inj h ▸ putRecord_bins k rec db n
  put_frame := fun _ rec db _ _ h hj => Option.some.inj h ▸
    congrArg (fun bins n => OrdMap.lookup n bins) (putRecord_frame rec db hj)
  batch_writes := fun recs _ _ h => ⟨recs,List.Perm.refl recs,h⟩
  context_creates_bin := by
    intro b k key v new h
    simpa [plainServer,plainApply,putUnder] using h.symm
  context_creates_map := by
    intro b k key v m new hm h
    simpa [plainServer,plainApply,putUnder,decode_mapOf,hm] using h.symm
  context_enters_map := by
    intro b k key v m inner new hm h
    simpa [plainServer,plainApply,putUnder,decode_mapOf,hm] using h.symm
  context_needs_map := by
    intro b k key v m data hm
    have hnone : decode (.bytes data) = none := rfl
    simp [plainServer,plainApply,putUnder,decode_mapOf,hm,hnone]
  removes_nothing := fun _ _ _ h => (Option.some.inj h).symm
  removes_keys := by
    intro b ks m new h
    simpa [plainServer,plainApply,decode_mapOf] using h.symm
  get_missing := getRecord_none
  get_key := fun _ _ _ h => congrArg Record.key (getRecord_some h)
  get_once := by
    intro k db rec h
    rw [getRecord_some h]
    exact OrdMap.keys_nodup _
  get_bins := by
    intro k db rec n v h
    rw [getRecord_some h]
    exact OrdMap.mem_entries

end PlainServer

end AspikePort.RecordServer
