import AspikePort.BatchAgreement
import AspikePort.UncheckedReads
import Mathlib.Algebra.GroupWithZero.Nat

/-!
# The second passes of the asynchronous functions

`cdt_put_async` and `cdt_delete_by_keys_batch_async` walk their lists twice.
The first pass checks everything and keeps nothing but a count, the second
reads everything again without a check. The second passes are modelled here
with the variables they read, whatever was left in them, and with the array
of operations and the parallel vectors they fill.
-/

set_option autoImplicit false

namespace AspikePort.SecondPasses
open AspikePort.ErlangTerms AspikePort.ClientValues AspikePort.EarlyReturn AspikePort.NifWorld
open AspikePort.CdtPut AspikePort.PutOperations AspikePort.FallibleLoops AspikePort.SyncCalls
open AspikePort.AsyncCalls AspikePort.BatchAgreement AspikePort.UncheckedReads

section Put
variable (c : Client) (now : ℤ)

/-- The first pass with the counter of the source. -/
def totalOperations (n : ℕ) (bins : Term) : Except Reply UInt32 :=
  cellsExcept (fun _ => .error .badarg)
    (fun total bin => do
      let (_,_,length) ← readBin bin
      return total+UInt32.ofNat length) n bins 0

/-- `added` counts the operations added so far, also those the client refuses. -/
structure PutVars where
  bins : Term
  binsHead : Term
  binsTail : Term
  binTuple : List Term
  binName : Bytes
  binDataLen : ℕ
  binData : Term
  opnum : Opnum
  cdtContexts : List (List Bytes)
  capacity : ℕ
  added : ℕ
  operations : Operations

/-- Reads the last context of the vector unasked. -/
def mapPut (key : Bytes) (value : AsVal) : Reads PutVars → Reads PutVars :=
  access (fun v => v.cdtContexts.getLast?) (fun context v => { v with
    added := v.added+1
    operations := v.operations.add c (.mapPut (cStr v.binName) context key value) })

def putElementRead (s : Reads PutVars) (head : Term) : Reads PutVars :=
  match s.vars.opnum with
  | .key => assign (fun v => { v with
      cdtContexts := v.cdtContexts ++ [contextOf head]
      opnum := .value }) s
  | .value => assign (fun v => { v with opnum := .ttl }) (match inspectBinary head with
      | some data => mapPut c valueKey (.bytes data) s
      | none => s)
  | .ttl => assign (fun v => { v with opnum := .key }) (mapPut c wtKey (.integer now)
      (match getInt64 head with
        | some i => mapPut c ttlKey (.integer i) s
        | none => s))

def readBinVars (s : Reads PutVars) : Reads PutVars :=
  s |> access (fun v => getListCell v.bins) (fun cell v => { v with
      binsHead := cell.1, binsTail := cell.2 })
    |> access (fun v => getTuple v.binsHead) (fun elements v => { v with binTuple := elements })
    |> access (fun v => v.binTuple[0]?.bind inspectBinary) (fun data v => { v with binName := data })
    |> access (fun v => v.binTuple[1]?.bind getListLength) (fun n v => { v with binDataLen := n })
    |> access (fun v => v.binTuple[1]?) (fun data v => { v with binData := data })

def putBinRead (s : Reads PutVars) : Reads PutVars :=
  let s := assign (fun v => { v with opnum := .key }) (readBinVars s)
  let s := cells (putElementRead c now) s.vars.binDataLen s.vars.binData s
  assign (fun v => { v with bins := v.binsTail }) s

/-- `left` is what the variables hold before the pass. -/
def putSecondPass (ttl : ℤ) (total : UInt32) (n : ℕ) (bins : Term) (left : PutVars) :
    Reads PutVars :=
  passes (fun _ => putBinRead c now) 0 n ⟨{ left with
    bins := bins
    cdtContexts := []
    capacity := total.toNat
    added := 0
    operations := initOperations ttl },0⟩

end Put

section PutLoop
variable (c : Client) (now : ℤ)

/-- How many of the elements taken so far have added no operation for certain. -/
def slack : Opnum → ℕ
  | .key => 0
  | .value => 1
  | .ttl => 1

/-- The variables hold what the loop on checked elements holds. -/
structure Agrees (v : PutVars) (t : PutState) : Prop where
  opnum : v.opnum = t.opnum
  ops : v.operations = t.ops
  context : t.opnum ≠ .key → v.cdtContexts.getLast? = some t.context

/-- What the elements of a bin leave alone. -/
structure SameBin (v v' : PutVars) : Prop where
  name : v'.binName = v.binName
  tail : v'.binsTail = v.binsTail
  capacity : v'.capacity = v.capacity

theorem mapPut_run {v : PutVars} {context : List Bytes} (key : Bytes) (value : AsVal) (n : ℕ)
    (h : v.cdtContexts.getLast? = some context) :
    mapPut c key value ⟨v,n⟩ = ⟨{ v with
      added := v.added+1
      operations := v.operations.add c (.mapPut (cStr v.binName) context key value) },n⟩ :=
  access_ok _ n h

/-- After `k` elements the loop has come from `v` to `v'`, which agrees with `t`. -/
structure Reached (v v' : PutVars) (t : PutState) (k : ℕ) : Prop where
  agrees : Agrees v' t
  same : SameBin v v'
  added : v'.added+slack v'.opnum ≤ v.added+slack v.opnum+k

theorem Reached.next {v v' v'' : PutVars} {t t' : PutState} {k : ℕ} (h : Reached v v' t 1)
    (h' : Reached v' v'' t' k) : Reached v v'' t' (k+1) := by
  refine ⟨h'.agrees,⟨h'.same.name.trans h.same.name,h'.same.tail.trans h.same.tail,
    h'.same.capacity.trans h.same.capacity⟩,?_⟩
  have hadded := h.added
  have hadded' := h'.added
  omega

theorem keyRead_step {v : PutVars} {context : List Bytes} {ops : Operations}
    (h : Agrees v ⟨.key,context,ops⟩) (head : Term) (n : ℕ) :
    ∃ v', putElementRead c now ⟨v,n⟩ head = ⟨v',n⟩ ∧
      Reached v v' (putElement c now v.binName ⟨.key,context,ops⟩ head) 1 := by
  unfold putElementRead
  rw [h.opnum]
  refine ⟨_,rfl,⟨rfl,h.ops,fun _ => List.getLast?_concat⟩,⟨rfl,rfl,rfl⟩,?_⟩
  rw [h.opnum]
  exact Nat.le_refl (v.added+1)

theorem valueRead_step {v : PutVars} {context : List Bytes} {ops : Operations}
    (h : Agrees v ⟨.value,context,ops⟩) (head : Term) (n : ℕ) :
    ∃ v', putElementRead c now ⟨v,n⟩ head = ⟨v',n⟩ ∧
      Reached v v' (putElement c now v.binName ⟨.value,context,ops⟩ head) 1 := by
  have hne : Opnum.value ≠ .key := by decide
  have hlast := h.context hne
  have hops : v.operations = ops := h.ops
  unfold putElementRead
  rw [h.opnum]
  cases hread : inspectBinary head with
  | none =>
    have ht : putElement c now v.binName ⟨.value,context,ops⟩ head = ⟨.ttl,context,ops⟩ := by
      simp only [putElement,hread]
    rw [ht]
    refine ⟨_,rfl,⟨rfl,hops,fun _ => hlast⟩,⟨rfl,rfl,rfl⟩,?_⟩
    rw [h.opnum]
    exact Nat.le_succ _
  | some data =>
    have ht : putElement c now v.binName ⟨.value,context,ops⟩ head = ⟨.ttl,context,
        ops.add c (.mapPut (cStr v.binName) context valueKey (.bytes data))⟩ := by
      simp only [putElement,hread]
    rw [ht]
    dsimp only
    rw [mapPut_run c _ _ n hlast,hops]
    refine ⟨_,rfl,⟨rfl,rfl,fun _ => hlast⟩,⟨rfl,rfl,rfl⟩,?_⟩
    rw [h.opnum]
    exact Nat.le_refl (v.added+1+1)

/-- Only the third element adds two operations, and the second had one to spare. -/
theorem ttlRead_step {v : PutVars} {context : List Bytes} {ops : Operations}
    (h : Agrees v ⟨.ttl,context,ops⟩) (head : Term) (n : ℕ) :
    ∃ v', putElementRead c now ⟨v,n⟩ head = ⟨v',n⟩ ∧
      Reached v v' (putElement c now v.binName ⟨.ttl,context,ops⟩ head) 1 := by
  have hne : Opnum.ttl ≠ .key := by decide
  have hlast := h.context hne
  have hops : v.operations = ops := h.ops
  unfold putElementRead
  rw [h.opnum]
  cases hread : getInt64 head with
  | none =>
    have ht : putElement c now v.binName ⟨.ttl,context,ops⟩ head = ⟨.key,context,
        ops.add c (.mapPut (cStr v.binName) context wtKey (.integer now))⟩ := by
      simp only [putElement,hread]
    rw [ht]
    dsimp only
    rw [mapPut_run c _ _ n hlast,hops]
    refine ⟨_,rfl,⟨rfl,rfl,fun hne => absurd rfl hne⟩,⟨rfl,rfl,rfl⟩,?_⟩
    rw [h.opnum]
    exact Nat.le_succ (v.added+1)
  | some i =>
    have ht : putElement c now v.binName ⟨.ttl,context,ops⟩ head = ⟨.key,context,
        (ops.add c (.mapPut (cStr v.binName) context ttlKey (.integer i))).add c
          (.mapPut (cStr v.binName) context wtKey (.integer now))⟩ := by
      simp only [putElement,hread]
    have hwt := mapPut_run c (v := { v with
      added := v.added+1
      operations := ops.add c (.mapPut (cStr v.binName) context ttlKey (.integer i)) })
      wtKey (.integer now) n hlast
    rw [ht]
    dsimp only
    rw [mapPut_run c _ _ n hlast,hops,hwt]
    refine ⟨_,rfl,⟨rfl,rfl,fun hne => absurd rfl hne⟩,⟨rfl,rfl,rfl⟩,?_⟩
    rw [h.opnum]
    exact Nat.le_refl (v.added+1+1)

theorem putElementRead_step {v : PutVars} {t : PutState} (h : Agrees v t) (head : Term) (n : ℕ) :
    ∃ v', putElementRead c now ⟨v,n⟩ head = ⟨v',n⟩ ∧
      Reached v v' (putElement c now v.binName t head) 1 := by
  obtain ⟨opnum,context,ops⟩ := t
  cases opnum with
  | key => exact keyRead_step c now h head n
  | value => exact valueRead_step c now h head n
  | ttl => exact ttlRead_step c now h head n

theorem putElementsRead_run {v : PutVars} {t : PutState} (h : Agrees v t) (ts : List Term) (n : ℕ) :
    ∃ v', ts.foldl (putElementRead c now) ⟨v,n⟩ = ⟨v',n⟩ ∧
      Reached v v' (ts.foldl (putElement c now v.binName) t) ts.length := by
  induction ts generalizing v t with
  | nil => exact ⟨v,rfl,h,⟨rfl,rfl,rfl⟩,Nat.le_refl _⟩
  | cons head ts ih =>
    obtain ⟨v₁,hstep,hnext⟩ := putElementRead_step c now h head n
    obtain ⟨v',hrun,hend⟩ := ih hnext.agrees
    rw [hnext.same.name] at hend
    refine ⟨v',?_,hnext.next hend⟩
    rw [List.foldl_cons,hstep,hrun]

def dataElements (ds : List BinData) : ℕ := (ds.map (fun d => d.2.length)).sum

/-- The invariant of the pass: the bins taken and those to come. -/
structure PutInv (ops : Operations) (capacity : ℕ) (done rest : List BinData) (v : PutVars) :
    Prop where
  bins : v.bins = ofList (rest.map encodeBin)
  capacity : v.capacity = capacity
  added : v.added ≤ dataElements done
  operations : v.operations = { ops with entries := ops.entries ++ done.flatMap (binPuts c now) }

theorem readBinVars_run {v : PutVars} {d : BinData} {rest : List BinData} (n : ℕ)
    (h : v.bins = ofList ((d::rest).map encodeBin)) :
    readBinVars ⟨v,n⟩ = ⟨{ v with
      binsHead := encodeBin d
      binsTail := ofList (rest.map encodeBin)
      binTuple := [.binary d.1,ofList d.2]
      binName := d.1
      binDataLen := d.2.length
      binData := ofList d.2 },n⟩ := by
  have hcell : getListCell v.bins = some (encodeBin d,ofList (rest.map encodeBin)) := by
    rw [h]
    rfl
  simp only [readBinVars,access,hcell,encodeBin,getTuple,List.getElem?_cons_zero,
    List.getElem?_cons_succ,Option.bind_some,inspectBinary,getListLength_ofList]

theorem putBinRead_step {ops : Operations} {capacity : ℕ} (done : List BinData) (d : BinData)
    (rest : List BinData) (v : PutVars) (n : ℕ) (h : PutInv c now ops capacity done (d::rest) v) :
    ∃ v', putBinRead c now ⟨v,n⟩ = ⟨v',n⟩ ∧ PutInv c now ops capacity (done ++ [d]) rest v' := by
  unfold putBinRead
  rw [readBinVars_run n h.bins]
  dsimp only [assign]
  rw [cells_ofList]
  obtain ⟨v',hrun,hend⟩ := putElementsRead_run c now
    (v := { v with
      binsHead := encodeBin d
      binsTail := ofList (rest.map encodeBin)
      binTuple := [.binary d.1,ofList d.2]
      binName := d.1
      binDataLen := d.2.length
      binData := ofList d.2
      opnum := .key })
    (t := ⟨.key,[],v.operations⟩) ⟨rfl,rfl,fun hne => absurd rfl hne⟩ d.2 n
  rw [hrun]
  refine ⟨_,rfl,hend.same.tail,hend.same.capacity.trans h.capacity,?_,?_⟩
  · have hbefore := h.added
    have hadded := hend.added
    simp only [slack] at hadded
    unfold dataElements at hbefore ⊢
    rw [List.map_append,List.sum_append,List.map_singleton,List.sum_singleton]
    dsimp only
    omega
  · dsimp only
    rw [hend.agrees.ops,putElements_ops,h.operations,List.flatMap_append,List.flatMap_singleton,
      List.append_assoc]
    rfl

/-- Both counters of the first pass. -/
theorem countBins {κ : Type} [Add κ] (count : ℕ → κ) (ds : List BinData) (s : κ) :
    cellsExcept (fun _ => .error .badarg)
        (fun (total : κ) bin => do
          let (_,_,length) ← readBin bin
          return total+count length) (ds.map encodeBin).length (ofList (ds.map encodeBin)) s =
      (.ok (ds.foldl (fun s d => s+count d.2.length) s) : Except Reply κ) := by
  rw [cellsExcept_ofList,List.foldlM_map]
  refine foldlM_eq_ok ds (fun d _ s => ?_) s
  rw [readBin_encode]
  rfl

theorem validateBins_elements (ds : List BinData) :
    validateBins (ds.map encodeBin).length (ofList (ds.map encodeBin)) =
      .ok (dataElements ds) := by
  have hsum (m : ℕ) : ds.foldl (fun s d => s+d.2.length) m = m+dataElements ds := by
    induction ds generalizing m with
    | nil => rfl
    | cons d ds ih =>
      rw [List.foldl_cons,ih,dataElements,dataElements,List.map_cons,List.sum_cons]
      omega
  refine (countBins (fun length => length) ds 0).trans ?_
  rw [hsum 0,Nat.zero_add]

theorem totalOperations_elements (ds : List BinData) :
    totalOperations (ds.map encodeBin).length (ofList (ds.map encodeBin)) =
      .ok (UInt32.ofNat (dataElements ds)) := by
  have hsum (m : ℕ) : ds.foldl (fun s d => s+UInt32.ofNat d.2.length) (UInt32.ofNat m) =
      UInt32.ofNat (m+dataElements ds) := by
    induction ds generalizing m with
    | nil => rfl
    | cons d ds ih =>
      rw [List.foldl_cons,← UInt32.ofNat_add,ih,dataElements,dataElements,List.map_cons,
        List.sum_cons,Nat.add_assoc]
  refine (countBins UInt32.ofNat ds 0).trans ?_
  rw [show (0 : UInt32) = UInt32.ofNat 0 from rfl,hsum 0,Nat.zero_add]

/-- The second pass on bins the first has let through: no read fails, and it
leaves the operations the model of `cdt_put_async` works with. -/
theorem putSecondPass_run (ttl : ℤ) (total : UInt32) (ds : List BinData) (left : PutVars) :
    ∃ v, putSecondPass c now ttl total ds.length (ofList (ds.map encodeBin)) left = ⟨v,0⟩ ∧
      PutInv c now (initOperations ttl) total.toNat ds [] v :=
  passes_run (fun _ => putBinRead c now) (putBinRead_step c now) ds [] _ 0 ⟨rfl,rfl,Nat.le_refl 0,by simp⟩

end PutLoop

section Batch
variable (c : Client) (bin : Bytes)

/-- A record of `batch_records`: the slots its key and its operations point to. -/
structure BatchRecord where
  key : Option ℕ
  ops : Option ℕ

/-- The variables and the vectors; `batchWrites` holds places of `batchRecords`. -/
structure BatchVars where
  currentList : Term
  head : Term
  tail : Term
  tuple : List Term
  pkName : Bytes
  mapKeysAmount : ℕ
  mapKeys : Term
  mapKeysHead : Term
  mapKeysTail : Term
  mapKeyName : Bytes
  pkNames : List Bytes
  batchWrites : List (Option ℕ)
  arraylistVector : List (List Bytes)
  operationsVector : List Operations
  capacity : ℕ
  batchRecords : List BatchRecord

def readTuple (s : Reads BatchVars) : Reads BatchVars :=
  s |> access (fun v => getListCell v.currentList) (fun cell v => { v with
      head := cell.1, tail := cell.2 })
    |> access (fun v => getTuple v.head) (fun elements v => { v with tuple := elements })
    |> access (fun v => v.tuple[0]?.bind inspectBinary) (fun data v => { v with pkName := data })

def storePkName (i : ℕ) : Reads BatchVars → Reads BatchVars :=
  access (fun v => v.pkNames[i]?) (fun _ v => { v with pkNames := v.pkNames.set i v.pkName })

def readMapKeysAmount : Reads BatchVars → Reads BatchVars :=
  access (fun v => v.tuple[1]?.bind getListLength) (fun n v => { v with mapKeysAmount := n })

/-- `as_batch_write_reserve`; a record beyond the capacity would move the others. -/
def reserveRecord (i : ℕ) : Reads BatchVars → Reads BatchVars :=
  access (fun v => if v.batchRecords.length < v.capacity then v.batchWrites[i]? else none)
    (fun _ v => { v with
      batchWrites := v.batchWrites.set i (some v.batchRecords.length)
      batchRecords := v.batchRecords ++ [⟨none,none⟩] })

def BatchVars.record (v : BatchVars) (i : ℕ) : Option (ℕ × BatchRecord) := do
  let place ← (← v.batchWrites[i]?)
  let record ← v.batchRecords[place]?
  return (place,record)

def BatchVars.setRecord (v : BatchVars) (place : ℕ) (record : BatchRecord) : BatchVars :=
  { v with batchRecords := v.batchRecords.set place record }

def initKey (i : ℕ) : Reads BatchVars → Reads BatchVars :=
  access (fun v => do
      let _ ← v.pkNames[i]?
      v.record i)
    (fun r v => v.setRecord r.1 { r.2 with key := some i })

def initArraylist (i : ℕ) (s : Reads BatchVars) : Reads BatchVars :=
  s |> access (fun v => v.arraylistVector[i]?) (fun _ v => { v with
      arraylistVector := v.arraylistVector.set i [] })
    |> access (fun v => v.tuple[1]?) (fun list v => { v with mapKeys := list })

def appendKey (i : ℕ) (s : Reads BatchVars) : Reads BatchVars :=
  s |> access (fun v => getListCell v.mapKeys) (fun cell v => { v with
      mapKeysHead := cell.1, mapKeysTail := cell.2 })
    |> access (fun v => inspectBinary v.mapKeysHead) (fun data v => { v with mapKeyName := data })
    |> access (fun v => v.arraylistVector[i]?) (fun list v => { v with
      arraylistVector := v.arraylistVector.set i (list ++ [cStr v.mapKeyName]) })
    |> assign (fun v => { v with mapKeys := v.mapKeysTail })

def storeOperations (i : ℕ) (s : Reads BatchVars) : Reads BatchVars :=
  s |> access (fun v => v.operationsVector[i]?) (fun _ v => { v with
      operationsVector := v.operationsVector.set i ⟨0,[]⟩ })
    |> access (fun v => do
        let ops ← v.operationsVector[i]?
        let list ← v.arraylistVector[i]?
        return ops.add c (.mapRemoveByKeyList (cStr bin) list))
      (fun ops v => { v with operationsVector := v.operationsVector.set i ops })
    |> access (fun v => v.operationsVector[i]?) (fun ops v => { v with
      operationsVector := v.operationsVector.set i { ops with ttl := recordNoChangeTtl } })

def linkOperations (i : ℕ) : Reads BatchVars → Reads BatchVars :=
  access (fun v => do
      let _ ← v.operationsVector[i]?
      v.record i)
    (fun r v => v.setRecord r.1 { r.2 with ops := some i })

def storeTuple (i : ℕ) (s : Reads BatchVars) : Reads BatchVars :=
  let s := s |> readTuple |> storePkName i |> readMapKeysAmount |> reserveRecord i |> initKey i
    |> initArraylist i
  let s := passes (fun _ => appendKey i) 0 s.vars.mapKeysAmount s
  s |> storeOperations c bin i |> linkOperations i
    |> assign (fun v => { v with currentList := v.tail })

def batchSecondPass (n : ℕ) (tuples : Term) (left : BatchVars) : Reads BatchVars :=
  passes (storeTuple c bin) 0 n ⟨{ left with
    currentList := tuples
    pkNames := List.replicate n []
    batchWrites := List.replicate n none
    arraylistVector := List.replicate n []
    operationsVector := List.replicate n ⟨0,[]⟩
    capacity := n
    batchRecords := [] },0⟩

/-- What the client is given: every record with the key and the operations its
pointers lead to. -/
def BatchVars.requests (v : BatchVars) (nameSpace set : Bytes) : Option (List BatchWrite) :=
  v.batchRecords.mapM (fun r => do
    let pk ← v.pkNames[← r.key]?
    let ops ← v.operationsVector[← r.ops]?
    return ⟨asKeyInitStr nameSpace set pk,ops⟩)

end Batch

section BatchLoop
variable (c : Client) (bin : Bytes)

/-- The operations of one tuple. -/
def removal (p : KeySubkeys) : Operations :=
  ⟨recordNoChangeTtl,taken c (.mapRemoveByKeyList (cStr bin) (p.2.map cStr))⟩

/-- The invariant of the pass: each tuple taken has filled its own slot of every
vector. -/
structure BatchInv (n : ℕ) (done rest : List KeySubkeys) (v : BatchVars) : Prop where
  list : v.currentList = encodeTuples rest
  count : done.length+rest.length = n
  pkNames : v.pkNames = filled Prod.fst [] n done
  arraylists : v.arraylistVector = filled (fun p => p.2.map cStr) [] n done
  operations : v.operationsVector = filled (removal c bin) ⟨0,[]⟩ n done
  writes : v.batchWrites = filled some none n (List.range done.length)
  records : v.batchRecords = (List.range done.length).map (fun i => ⟨some i,some i⟩)
  capacity : v.capacity = n

variable {c bin}

section Slots
variable {n : ℕ} {done rest : List KeySubkeys} {p : KeySubkeys} {v : BatchVars}
variable (h : BatchInv c bin n done (p::rest) v)

include h

theorem BatchInv.room : done.length < n := by
  have hcount := h.count
  rw [List.length_cons] at hcount
  omega

theorem BatchInv.freeName : v.pkNames[done.length]? = some [] := by
  rw [h.pkNames]
  exact filled_slot _ _ rfl h.room

theorem BatchInv.freeList : v.arraylistVector[done.length]? = some [] := by
  rw [h.arraylists]
  exact filled_slot _ _ rfl h.room

theorem BatchInv.freeOperations : v.operationsVector[done.length]? = some ⟨0,[]⟩ := by
  rw [h.operations]
  exact filled_slot _ _ rfl h.room

theorem BatchInv.freeWrite : v.batchWrites[done.length]? = some none := by
  rw [h.writes]
  exact filled_slot _ _ List.length_range h.room

theorem BatchInv.reserved : v.batchRecords.length = done.length := by
  rw [h.records,List.length_map,List.length_range]

end Slots

theorem record_some {v : BatchVars} {i j : ℕ} {r : BatchRecord}
    (hslot : v.batchWrites[i]? = some (some j)) (hrec : v.batchRecords[j]? = some r) :
    v.record i = some (j,r) := by
  simp only [BatchVars.record,hslot,hrec,Option.bind_eq_bind,Option.bind_some,Option.pure_def]

theorem linkOperations_run {v : BatchVars} {i j : ℕ} {r : BatchRecord} {ops : Operations} (k : ℕ)
    (hops : v.operationsVector[i]? = some ops) (hrec : v.record i = some (j,r)) :
    linkOperations i ⟨v,k⟩ = ⟨v.setRecord j { r with ops := some i },k⟩ := by
  unfold linkOperations
  exact access_ok (a := (j,r)) _ k (by rw [hops]; exact hrec)

/-- What the map keys of a tuple leave alone. -/
structure SameTuple (v v' : BatchVars) : Prop where
  tail : v'.tail = v.tail
  pkNames : v'.pkNames = v.pkNames
  writes : v'.batchWrites = v.batchWrites
  operations : v'.operationsVector = v.operationsVector
  capacity : v'.capacity = v.capacity
  records : v'.batchRecords = v.batchRecords

/-- The loop over the map keys of one tuple fills the slot of that tuple. -/
structure KeysInv (v : BatchVars) (i : ℕ) (done rest : List Bytes) (v' : BatchVars) : Prop where
  keys : v'.mapKeys = ofList (rest.map .binary)
  slot : v'.arraylistVector[i]? = some (done.map cStr)
  others : ∀ l, v'.arraylistVector.set i l = v.arraylistVector.set i l
  same : SameTuple v v'

theorem appendKey_step {v : BatchVars} {i : ℕ} (done : List Bytes) (key : Bytes)
    (rest : List Bytes) (v' : BatchVars) (k : ℕ) (h : KeysInv v i done (key::rest) v') :
    ∃ v'', appendKey i ⟨v',k⟩ = ⟨v'',k⟩ ∧ KeysInv v i (done ++ [key]) rest v'' := by
  have hcell : getListCell v'.mapKeys = some (.binary key,ofList (rest.map .binary)) := by
    rw [h.keys]
    rfl
  refine ⟨{ v' with
    mapKeysHead := .binary key
    mapKeysTail := ofList (rest.map .binary)
    mapKeyName := key
    arraylistVector := v'.arraylistVector.set i (done.map cStr ++ [cStr key])
    mapKeys := ofList (rest.map .binary) },?_,rfl,?_,?_,?_⟩
  · simp only [appendKey,access,hcell,inspectBinary,h.slot,assign]
  · rw [List.map_append]
    exact set_slot _ h.slot
  · intro l
    rw [List.set_set]
    exact h.others l
  · exact ⟨h.same.tail,h.same.pkNames,h.same.writes,h.same.operations,h.same.capacity,
      h.same.records⟩

theorem storeOperations_run {v : BatchVars} {i : ℕ} {ops : Operations} {list : List Bytes} (k : ℕ)
    (hslot : v.operationsVector[i]? = some ops) (hlist : v.arraylistVector[i]? = some list) :
    storeOperations c bin i ⟨v,k⟩ = ⟨{ v with
      operationsVector := v.operationsVector.set i
        (⟨recordNoChangeTtl,taken c (.mapRemoveByKeyList (cStr bin) list)⟩ : Operations) },k⟩ := by
  have hadd (ops : Operations) : (v.operationsVector.set i ops)[i]? = some ops := set_slot _ hslot
  simp only [storeOperations,access,hslot,hadd,hlist,List.set_set,Option.bind_eq_bind,
    Option.bind_some,Option.pure_def]
  rw [add_eq]
  rfl

/-- The variables between the two loops of one tuple. -/
structure Begun (n : ℕ) (done : List KeySubkeys) (p : KeySubkeys) (rest : List KeySubkeys)
    (v v' : BatchVars) : Prop where
  tail : v'.tail = encodeTuples rest
  amount : v'.mapKeysAmount = p.2.length
  mapKeys : v'.mapKeys = ofList (p.2.map .binary)
  pkNames : v'.pkNames = filled Prod.fst [] n (done ++ [p])
  arraylists : v'.arraylistVector = v.arraylistVector.set done.length []
  operations : v'.operationsVector = v.operationsVector
  writes : v'.batchWrites = v.batchWrites.set done.length (some done.length)
  records : v'.batchRecords = v.batchRecords ++ [⟨some done.length,none⟩]
  capacity : v'.capacity = v.capacity

variable {n : ℕ} {done rest : List KeySubkeys} {p : KeySubkeys} {v v₁ v₂ : BatchVars}

theorem begin_run (k : ℕ) (h : BatchInv c bin n done (p::rest) v) :
    ∃ v', initArraylist done.length (initKey done.length (reserveRecord done.length
        (readMapKeysAmount (storePkName done.length (readTuple ⟨v,k⟩))))) = ⟨v',k⟩ ∧
      Begun n done p rest v v' := by
  have hcell : getListCell v.currentList = some (encodeTuple p,encodeTuples rest) := by
    rw [h.list]
    rfl
  have hpk := h.freeName
  have hpk' : (v.pkNames.set done.length p.1)[done.length]? = some p.1 := set_slot _ hpk
  have hwrite := h.freeWrite
  have hwrite' : (v.batchWrites.set done.length (some done.length))[done.length]? =
      some (some done.length) := set_slot _ hwrite
  have hlength := h.reserved
  have hroom : done.length < v.capacity := by
    rw [h.capacity]
    exact h.room
  have hrecord : (v.batchRecords ++ [⟨none,none⟩])[done.length]? = some ⟨none,none⟩ :=
    pushed_slot hlength _
  have harray := h.freeList
  -- every read of the six steps has its value among these facts
  simp only [readTuple,storePkName,readMapKeysAmount,reserveRecord,initKey,initArraylist,access,
    BatchVars.record,BatchVars.setRecord,hcell,encodeTuple,encodeBin,getTuple,inspectBinary,
    List.getElem?_cons_zero,List.getElem?_cons_succ,Option.bind_some,getListLength_ofList,hpk,hpk',
    hlength,if_pos hroom,hwrite,hwrite',Option.bind_eq_bind,hrecord,Option.pure_def,harray]
  refine ⟨_,rfl,rfl,List.length_map _,rfl,?_,rfl,rfl,rfl,?_,rfl⟩
  · rw [h.pkNames,filled_set _ _ _ rfl h.room]
  · exact pushed_set hlength _ _

theorem keys_run (k : ℕ) (h : BatchInv c bin n done (p::rest) v) (hb : Begun n done p rest v v₁) :
    ∃ v₂, passes (fun _ => appendKey done.length) 0 v₁.mapKeysAmount ⟨v₁,k⟩ = ⟨v₂,k⟩ ∧
      KeysInv v₁ done.length p.2 [] v₂ := by
  have hstart : KeysInv v₁ done.length [] p.2 v₁ := by
    refine ⟨hb.mapKeys,?_,fun l => rfl,⟨rfl,rfl,rfl,rfl,rfl,rfl⟩⟩
    rw [hb.arraylists]
    exact set_slot _ h.freeList
  rw [hb.amount]
  exact passes_run (fun _ => appendKey done.length) appendKey_step p.2 [] v₁ k hstart

/-- The write of the tuple leads to the record that was reserved for it. -/
theorem reserved_record (h : BatchInv c bin n done (p::rest) v) (hb : Begun n done p rest v v₁)
    (hsame : SameTuple v₁ v₂) :
    v₂.record done.length = some (done.length,⟨some done.length,none⟩) := by
  apply record_some
  · rw [hsame.writes,hb.writes]
    exact set_slot _ h.freeWrite
  · rw [hsame.records,hb.records]
    exact pushed_slot h.reserved _

/-- The variables at the end of one tuple. -/
def ended (c : Client) (bin : Bytes) (i : ℕ) (p : KeySubkeys) (v : BatchVars) : BatchVars :=
  { v with
    operationsVector := v.operationsVector.set i (removal c bin p)
    batchRecords := v.batchRecords.set i ⟨some i,some i⟩
    currentList := v.tail }

theorem end_run (k : ℕ) (h : BatchInv c bin n done (p::rest) v) (hb : Begun n done p rest v v₁)
    (hend : KeysInv v₁ done.length p.2 [] v₂) :
    assign (fun v => { v with currentList := v.tail })
        (linkOperations done.length (storeOperations c bin done.length ⟨v₂,k⟩)) =
      ⟨ended c bin done.length p v₂,k⟩ := by
  have hops : v₂.operationsVector[done.length]? = some ⟨0,[]⟩ := by
    rw [hend.same.operations,hb.operations]
    exact h.freeOperations
  have hstored : storeOperations c bin done.length ⟨v₂,k⟩ = ⟨{ v₂ with
      operationsVector := v₂.operationsVector.set done.length (removal c bin p) },k⟩ :=
    storeOperations_run k hops hend.slot
  have hrecord : v₂.record done.length = some (done.length,⟨some done.length,none⟩) :=
    reserved_record h hb hend.same
  have hlinked := linkOperations_run (v := { v₂ with
    operationsVector := v₂.operationsVector.set done.length (removal c bin p) }) k
    (set_slot _ hops) hrecord
  rw [hstored]
  exact congrArg (assign _) hlinked

/-- The slot of the tuple is the next one of every vector. -/
theorem ended_inv (h : BatchInv c bin n done (p::rest) v) (hb : Begun n done p rest v v₁)
    (hend : KeysInv v₁ done.length p.2 [] v₂) :
    BatchInv c bin n (done ++ [p]) rest (ended c bin done.length p v₂) where
  list := hend.same.tail.trans hb.tail
  count := by
    rw [← h.count,List.length_append,List.length_singleton,List.length_cons]
    omega
  pkNames := hend.same.pkNames.trans hb.pkNames
  arraylists := by
    show v₂.arraylistVector = _
    rw [← set_own hend.slot,hend.others,hb.arraylists,List.set_set,h.arraylists]
    exact filled_set (fun p : KeySubkeys => p.2.map cStr) _ p rfl h.room
  operations := by
    show v₂.operationsVector.set _ _ = _
    rw [hend.same.operations,hb.operations,h.operations]
    exact filled_set (removal c bin) _ p rfl h.room
  writes := by
    show v₂.batchWrites = _
    rw [hend.same.writes,hb.writes,h.writes,filled_set _ _ _ List.length_range h.room,
      List.length_append,List.length_singleton,List.range_succ]
  records := by
    show v₂.batchRecords.set _ _ = _
    rw [hend.same.records,hb.records,pushed_set h.reserved,h.records,List.length_append,
      List.length_singleton,List.range_succ,List.map_append]
    rfl
  capacity := hend.same.capacity.trans (hb.capacity.trans h.capacity)

theorem storeTuple_step (done : List KeySubkeys) (p : KeySubkeys) (rest : List KeySubkeys)
    (v : BatchVars) (k : ℕ) (h : BatchInv c bin n done (p::rest) v) :
    ∃ v', storeTuple c bin done.length ⟨v,k⟩ = ⟨v',k⟩ ∧
      BatchInv c bin n (done ++ [p]) rest v' := by
  obtain ⟨v₁,hbegin,hb⟩ := begin_run k h
  obtain ⟨v₂,hkeys,hend⟩ := keys_run k h hb
  refine ⟨ended c bin done.length p v₂,?_,ended_inv h hb hend⟩
  unfold storeTuple
  dsimp only
  rw [hbegin]
  dsimp only
  rw [hkeys]
  exact end_run k h hb hend

variable (c bin)

theorem batchSecondPass_run (ps : List KeySubkeys) (left : BatchVars) :
    ∃ v, batchSecondPass c bin ps.length (encodeTuples ps) left = ⟨v,0⟩ ∧
      BatchInv c bin ps.length ps [] v :=
  passes_run (storeTuple c bin) storeTuple_step ps [] _ 0
    ⟨rfl,Nat.zero_add _,rfl,rfl,rfl,rfl,rfl,rfl⟩

/-- Slot `i` of every vector holds the data of tuple `i`, and record `i` points
there. -/
structure OwnSlots (ps : List KeySubkeys) (v : BatchVars) : Prop where
  pkNames : v.pkNames = ps.map Prod.fst
  arraylists : v.arraylistVector = ps.map (fun p => p.2.map cStr)
  operations : v.operationsVector = ps.map (removal c bin)
  writes : v.batchWrites = (List.range ps.length).map some
  records : v.batchRecords = (List.range ps.length).map (fun i => ⟨some i,some i⟩)

theorem BatchInv.ownSlots {ps : List KeySubkeys} {v : BatchVars}
    (h : BatchInv c bin ps.length ps [] v) : OwnSlots c bin ps v where
  pkNames := h.pkNames.trans (filled_all _ _ rfl)
  arraylists := h.arraylists.trans (filled_all _ _ rfl)
  operations := h.operations.trans (filled_all _ _ rfl)
  writes := h.writes.trans (filled_all _ _ List.length_range)
  records := h.records

/-- The pointers lead to what the model of the batch call submits. -/
theorem OwnSlots.requests {ps : List KeySubkeys} {v : BatchVars} (h : OwnSlots c bin ps v)
    (nameSpace set : Bytes) :
    v.requests nameSpace set = some (ps.map (batchWrite c nameSpace set bin recordNoChangeTtl)) := by
  unfold BatchVars.requests
  rw [h.records,List.mapM_map]
  refine mapM_range fun i p hp => ?_
  simp only [Function.comp_apply,h.pkNames,h.operations,List.getElem?_map,hp,Option.map_some,
    Option.bind_eq_bind,Option.bind_some,Option.pure_def]
  rfl

end BatchLoop

section Accepted
variable (c : Client)

/-- The second pass of `cdt_put_async` after a first pass that has counted
`total` operations. -/
structure PutPassSafe (now ttl : ℤ) (n : ℕ) (bins : Term) (total : UInt32)
    (s : Reads PutVars) : Prop where
  reads : s.failed = 0
  room : s.vars.added ≤ total.toNat
  capacity : s.vars.capacity = total.toNat
  operations : putAsyncBins c now n bins (initOperations ttl) = .ok s.vars.operations

/-- The second pass of the batch, and that its vectors lead to the records the
model of the batch call submits. -/
structure BatchPassSafe (nameSpace set bin : Bytes) (tuples : Term) (s : Reads BatchVars) :
    Prop where
  reads : s.failed = 0
  slots : ∃ ps, tuples = encodeTuples ps ∧ OwnSlots c bin ps s.vars ∧
    ∃ recs, s.vars.requests nameSpace set = some recs ∧
      asyncRecords c nameSpace set bin (ps.map encodeTuple) = .ok recs

theorem accepted_bins {n total : ℕ} {bins : Term} (hn : getListLength bins = some n)
    (h : validateBins n bins = .ok total) :
    ∃ ds : List BinData, bins = ofList (ds.map encodeBin) ∧ n = (ds.map encodeBin).length ∧
      total = dataElements ds := by
  obtain ⟨bs,rfl,rfl⟩ := getListLength_some hn
  rcases bins_cases bs with ⟨ds,rfl⟩ | hbad
  · rw [validateBins_elements] at h
    exact ⟨ds,rfl,rfl,(Except.ok.inj h).symm⟩
  · rw [validateBins_error hbad] at h
    cases h

theorem accepted_tuples {n : ℕ} {tuples : Term} (hn : getListLength tuples = some n)
    (h : validateTuples n tuples = .ok ()) :
    ∃ ps : List KeySubkeys, tuples = encodeTuples ps ∧ n = ps.length := by
  obtain ⟨ts,rfl,rfl⟩ := getListLength_some hn
  rcases tuples_cases plainClient [] [] [] ts with ⟨ps,rfl⟩ | ⟨t,ht,-,hbad⟩
  · exact ⟨ps,rfl,List.length_map _⟩
  · rw [validateTuples_refused ⟨t,ht,hbad⟩] at h
    cases h

theorem put_pass_safe (now ttl : ℤ) {n total : ℕ} {bins : Term}
    (hn : getListLength bins = some n) (h : validateBins n bins = .ok total)
    (htotal : total < 2^32) (left : PutVars) :
    ∃ u, totalOperations n bins = .ok u ∧ u.toNat = total ∧
      PutPassSafe c now ttl n bins u (putSecondPass c now ttl u n bins left) := by
  obtain ⟨ds,rfl,rfl,rfl⟩ := accepted_bins hn h
  have hu : (UInt32.ofNat (dataElements ds)).toNat = dataElements ds :=
    UInt32.toNat_ofNat_of_lt' htotal
  refine ⟨_,totalOperations_elements ds,hu,?_⟩
  obtain ⟨v,hrun,hinv⟩ := putSecondPass_run c now ttl (UInt32.ofNat (dataElements ds)) ds left
  rw [List.length_map,hrun]
  refine ⟨rfl,by rw [hu]; exact hinv.added,hinv.capacity,?_⟩
  rw [hinv.operations,← List.length_map encodeBin]
  exact putAsyncBins_eq c now ds (initOperations ttl)

theorem batch_pass_safe (nameSpace set bin : Bytes) {n : ℕ} {tuples : Term}
    (hn : getListLength tuples = some n) (h : validateTuples n tuples = .ok ())
    (left : BatchVars) :
    BatchPassSafe c nameSpace set bin tuples (batchSecondPass c bin n tuples left) := by
  obtain ⟨ps,rfl,rfl⟩ := accepted_tuples hn h
  obtain ⟨v,hrun,hinv⟩ := batchSecondPass_run c bin ps left
  have hslots := hinv.ownSlots
  rw [hrun]
  exact ⟨rfl,ps,rfl,hslots,_,hslots.requests c bin nameSpace set,
    asyncRecords_encode c nameSpace set bin ps⟩

/-- No read of a second pass fails, whatever was in the variables before; the
put adds no more operations than the first pass has counted, and in the batch
every tuple has its own slots. -/
theorem second_passes_safe :
    (∀ (now ttl : ℤ) (n total : ℕ) (bins : Term) (left : PutVars),
      getListLength bins = some n → validateBins n bins = .ok total → total < 2^32 →
        ∃ u, totalOperations n bins = .ok u ∧ u.toNat = total ∧
          PutPassSafe c now ttl n bins u (putSecondPass c now ttl u n bins left)) ∧
    ∀ (nameSpace set bin : Bytes) (n : ℕ) (tuples : Term) (left : BatchVars),
      getListLength tuples = some n → validateTuples n tuples = .ok () →
        BatchPassSafe c nameSpace set bin tuples (batchSecondPass c bin n tuples left) :=
  ⟨fun now ttl _ _ _ left hn h htotal => put_pass_safe c now ttl hn h htotal left,
    fun nameSpace set bin _ _ left hn h => batch_pass_safe c nameSpace set bin hn h left⟩

end Accepted

section Samples

/-- One complete triple and a key that is no binary. -/
def mixedBins : Term := ofList [encodeBin ([98],[.binary [107],.binary [118],.integer 5,.nil])]

def twoTuples : Term := encodeTuples [([112],[[107],[108]]),([113],[])]

def leftPutVars : PutVars :=
  ⟨.nil,.nil,.nil,[],[],7,.nil,.ttl,[],0,0,⟨0,[]⟩⟩

def leftBatchVars : BatchVars :=
  ⟨.nil,.nil,.nil,[],[],7,.nil,.nil,.nil,[],[],[],[],[],0,[]⟩

theorem sample_passes_safe :
    (∃ u, totalOperations 1 mixedBins = .ok u ∧ u.toNat = 4 ∧
      PutPassSafe plainClient 0 0 1 mixedBins u (putSecondPass plainClient 0 0 u 1 mixedBins
        leftPutVars)) ∧
    BatchPassSafe plainClient [97] [97] [98] twoTuples
      (batchSecondPass plainClient [98] 2 twoTuples leftBatchVars) :=
  ⟨(second_passes_safe plainClient).1 0 0 1 4 mixedBins leftPutVars rfl rfl (by decide),
    (second_passes_safe plainClient).2 [97] [97] [98] 2 twoTuples leftBatchVars rfl rfl⟩

end Samples

end AspikePort.SecondPasses
