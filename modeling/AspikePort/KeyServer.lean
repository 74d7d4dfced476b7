import AspikePort.RecordServer

/-!
# The database as the character-list calls rely on it

Beside the requests of the map calls these send increments, remove whole
records and select bins. An increment creates the bin it does not find and
fails on a bin that is no integer; how two integers of 64 bits are added is
left to the server.
-/

set_option autoImplicit false

namespace AspikePort.KeyServer
open AspikePort.ErlangTerms AspikePort.ClientValues AspikePort.OrderedMap AspikePort.RecordServer

structure CountServer extends Server where
  add : ℤ → ℤ → ℤ
  remove : AsKey → DB → Option DB
  select : AsKey → List Bytes → DB → Option Record

namespace CountServer
variable (S : CountServer)

structure Documented : Prop extends Server.Documented S.toServer where
  incr_creates : ∀ b v new, S.apply (.incr b v) none = some new → new = some (.integer v)
  incr_adds : ∀ b v i new, S.apply (.incr b v) (some (.integer i)) = some new →
    new = some (.integer (S.add i v))
  incr_needs_integer : ∀ b v old, (∀ i, old ≠ .integer i) → S.apply (.incr b v) (some old) = none
  remove_bins : ∀ k db db' n, S.remove k db = some db' → S.bin db' k n = none
  remove_frame : ∀ k db db' j, S.remove k db = some db' → j ≠ k → S.bin db' j = S.bin db j
  select_missing : ∀ k ns db, S.select k ns db = none ↔ ∀ n, S.bin db k n = none
  select_key : ∀ k ns db rec, S.select k ns db = some rec → rec.key = none
  select_once : ∀ k ns db rec, S.select k ns db = some rec → (rec.bins.map Prod.fst).Nodup
  select_bins : ∀ k ns db rec n v, S.select k ns db = some rec →
    ((n,v) ∈ rec.bins ↔ n ∈ ns ∧ S.bin db k n = some v)

def serve : Request → S.DB → Option S.DB
  | .keyRemove k, db => S.remove k db
  | req, db => S.toServer.serve req db

end CountServer

section PlainCountServer

/-- Integers are counted, and there are no maps. -/
def countApply : Operation → Option AsVal → Option (Option AsVal)
  | .incr _ v, none => some (some (.integer v))
  | .incr _ v, some (.integer i) => some (some (.integer (i+v)))
  | _, _ => none

def countOperate (bins : OrdMap Bytes AsVal) (op : Operation) : Option (OrdMap Bytes AsVal) :=
  (countApply op (bins.lookup op.bin)).map (setContent op.bin bins)

def countRecord (k : AsKey) (ops : Operations) (db : PlainDB) : Option PlainDB :=
  (ops.entries.foldlM countOperate (db k)).map (Function.update db k)

def selectRecord (k : AsKey) (ns : List Bytes) (db : PlainDB) : Option Record :=
  if (db k).entries = [] then none
  else some ⟨none,1,0,(db k).entries.filter (fun b => ns.contains b.1)⟩

def plainCountServer : CountServer where
  toServer := { plainServer with
    apply := countApply
    operate := countRecord
    batch := fun recs db => recs.foldlM (fun db rec => countRecord rec.key rec.ops db) db }
  add := fun i v => i+v
  remove := fun k db => some (Function.update db k OrdMap.empty)
  select := selectRecord

theorem foldlM_countOperate {ops : List Operation} {bins bins' : OrdMap Bytes AsVal}
    (h : ops.foldlM countOperate bins = some bins') :
    ops.foldlM plainCountServer.applyTo (fun n => bins.lookup n) =
      some (fun n => bins'.lookup n) := by
  induction ops generalizing bins with
  | nil =>
    cases h
    rfl
  | cons op ops ih =>
    rw [List.foldlM_cons] at h ⊢
    obtain ⟨next,hnext,hrest⟩ := Option.bind_eq_some_iff.mp h
    obtain ⟨v,hv,rfl⟩ := Option.map_eq_some_iff.mp hnext
    have hcontent : Function.update (fun n => bins.lookup n) op.bin v =
        fun n => (setContent op.bin bins v).lookup n := by
      funext n
      rw [lookup_setContent,Function.update_apply]
    rw [← ih hrest,← hcontent]
    change (((countApply op (bins.lookup op.bin)).map _).bind _) = _
    rw [hv]
    rfl

theorem countRecord_some {k : AsKey} {ops : Operations} {db db' : PlainDB}
    (h : countRecord k ops db = some db') : ∃ bins,
      ops.entries.foldlM countOperate (db k) = some bins ∧ db' = Function.update db k bins := by
  obtain ⟨bins,hbins,hdb⟩ := Option.map_eq_some_iff.mp h
  exact ⟨bins,hbins,hdb.symm⟩

theorem selectRecord_some {k : AsKey} {ns : List Bytes} {db : PlainDB} {rec : Record}
    (h : selectRecord k ns db = some rec) :
    rec = ⟨none,1,0,(db k).entries.filter (fun b => ns.contains b.1)⟩ := by
  unfold selectRecord at h
  split_ifs at h
  exact (Option.some.inj h).symm

theorem selectRecord_none {k : AsKey} {ns : List Bytes} {db : PlainDB} :
    selectRecord k ns db = none ↔ ∀ n, (db k).lookup n = none := by
  rw [← getRecord_none]
  unfold selectRecord getRecord
  split_ifs <;> simp

theorem plainCountServer_documented : plainCountServer.Documented where
  start_empty := plainServer_documented.start_empty
  operate_applies := by
    intro k ops db db' h
    obtain ⟨bins,hbins,rfl⟩ := countRecord_some h
    have hself : (Function.update db k bins : PlainDB) k = bins := Function.update_self k bins db
    refine (foldlM_countOperate hbins).trans (congrArg some ?_)
    exact congrArg (fun m n => OrdMap.lookup n m) hself.symm
  operate_frame := by
    intro k ops db db' j h hj
    obtain ⟨bins,_,rfl⟩ := countRecord_some h
    exact congrArg (fun m n => OrdMap.lookup n m) (Function.update_of_ne hj bins db)
  put_bins := plainServer_documented.put_bins
  put_frame := plainServer_documented.put_frame
  batch_writes := fun recs _ _ h => ⟨recs,List.Perm.refl recs,h⟩
  context_creates_bin := fun _ _ _ _ _ h => nomatch h
  context_creates_map := fun _ _ _ _ _ _ _ h => nomatch h
  context_enters_map := fun _ _ _ _ _ _ _ _ h => nomatch h
  context_needs_map := fun _ _ _ _ _ _ _ => rfl
  removes_nothing := fun _ _ _ h => nomatch h
  removes_keys := fun _ _ _ _ h => nomatch h
  get_missing := plainServer_documented.get_missing
  get_key := plainServer_documented.get_key
  get_once := plainServer_documented.get_once
  get_bins := plainServer_documented.get_bins
  incr_creates := fun _ _ _ h => (Option.some.inj h).symm
  incr_adds := fun _ _ _ _ h => (Option.some.inj h).symm
  incr_needs_integer := by
    intro b v old hold
    cases old with
    | integer i => exact absurd rfl (hold i)
    | _ => rfl
  remove_bins := by
    intro k db db' n h
    cases h
    exact congrArg (OrdMap.lookup n) (Function.update_self k OrdMap.empty db)
  remove_frame := by
    intro k db db' j h hj
    cases h
    exact congrArg (fun m n => OrdMap.lookup n m) (Function.update_of_ne hj OrdMap.empty db)
  select_missing := fun _ _ _ => selectRecord_none
  select_key := fun _ _ _ _ h => congrArg Record.key (selectRecord_some h)
  select_once := by
    intro k ns db rec h
    rw [selectRecord_some h]
    exact ((OrdMap.keys_nodup _).sublist (List.filter_sublist.map _))
  select_bins := by
    intro k ns db rec n v h
    rw [selectRecord_some h]
    simp only [List.mem_filter,List.contains_iff_mem]
    rw [and_comm]
    exact and_congr_right fun _ => OrdMap.mem_entries

end PlainCountServer

end AspikePort.KeyServer
