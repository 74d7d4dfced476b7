import AspikePort.OwnedSlots
import AspikePort.SyncCalls

/-!
# Who destroys the as_bytes objects of binary_put

Every binary of the list becomes an `as_bytes` object. The record object and
`bin_vec` both keep it: the record destroys it when another value takes its
place, the function destroys it when the record does not take it, and at its
end the function destroys everything in `bin_vec`.
-/

set_option autoImplicit false

namespace AspikePort.BytesOwnership
open AspikePort.ErlangTerms AspikePort.ClientValues AspikePort.EarlyReturn AspikePort.NifWorld
open AspikePort.CdtPut AspikePort.SyncCalls AspikePort.FallibleLoops AspikePort.LabelledRuns
open AspikePort.OwnedSlots Proc

section Objects

/-- A value in a record object; one that is an `as_bytes` object has a number. -/
structure Slot where
  value : AsVal
  object : Option ℕ

structure OwnedRecord where
  capacity : ℕ
  ttl : UInt32
  bins : List (Bytes × Slot)

/-- `binVec` and the record of `binary_put`, and what has become of the objects. -/
structure Objects where
  record : OwnedRecord
  binVec : List ℕ
  created : ℕ
  destroyed : List ℕ

def noObjects : Objects := ⟨⟨0,0,[]⟩,[],0,[]⟩

def OwnedRecord.owner (rec : OwnedRecord) (name : Bytes) : Option ℕ :=
  (rec.bins.find? (fun b => b.1 = name)).bind (fun b => b.2.object)

def OwnedRecord.has (rec : OwnedRecord) (name : Bytes) : Bool :=
  rec.bins.any (fun b => b.1 = name)

variable (c : Client)

/-- The record object and the object of the value that is replaced. -/
def OwnedRecord.set (rec : OwnedRecord) (name : Bytes) (v : Slot) :
    Option (OwnedRecord × Option ℕ) :=
  if ¬c.takesBin name then none
  else if rec.has name then
    some ({ rec with bins := rec.bins.map (fun b => if b.1 = name then (name,v) else b) },
      rec.owner name)
  else if rec.bins.length < rec.capacity then
    some ({ rec with bins := rec.bins ++ [(name,v)] },none)
  else none

abbrev Put (α : Type) := Proc Objects Reply α

def asBytesNew : Put ℕ := do
  let o ← state
  update (fun o => { o with created := o.created+1 })
  return o.created

def asBytesDestroy (bytes : ℕ) : Put Unit :=
  update (fun o => { o with destroyed := o.destroyed ++ [bytes] })

def Objects.taking (o : Objects) : Option (OwnedRecord × Option ℕ) → Objects
  | some (record,old) => { o with record, destroyed := o.destroyed ++ old.toList }
  | none => o

def asRecordSet (name : Bytes) (v : Slot) : Put Bool := fun o =>
  let r := o.record.set c (cStr name) v
  (.ok r.isSome,o.taking r)

/-- `ret_val` is left out: only an empty branch reads it. -/
def setPlain (name : Bytes) (v : AsVal) : Put Unit := do
  let _ ← asRecordSet c name ⟨v,none⟩

def setBytes (name data : Bytes) : Put Unit := do
  let bytes ← asBytesNew
  update (fun o => { o with binVec := o.binVec ++ [bytes] })
  let taken ← asRecordSet c name ⟨.bytes data,some bytes⟩
  if taken then return () else asBytesDestroy bytes

def putOwnedBin (bin : Term) : Put Unit := do
  match ← lift (orBadarg (getTuple bin)) with
  | [name,value] => do
    let name ← lift (orBadarg (inspectBinary name))
    match inspectBinary value with
    | some data => setBytes c name data
    | none =>
      if isNumber value then
        match getInt64 value with
        | some i => setPlain c name (.integer i)
        | none => return ()
      else if isAtom value then setPlain c name .nil
      else do
        let length ← lift (orBadarg (getListLength value))
        setPlain c name (.list (collectIntegers length value))
  | _ => stop .badarg

def putOwnedBins : ℕ → Term → Put Unit
  | 0, _ => return ()
  | n+1, list =>
    match getListCell list with
    | none => return ()
    | some (head,tail) => do
      putOwnedBin c head
      putOwnedBins n tail

def OwnedRecord.erase (rec : OwnedRecord) : PutRecord :=
  ⟨rec.capacity,rec.ttl,rec.bins.map (fun b => (b.1,b.2.value))⟩

def binaryPutOwned (env : Env) (nameSpace set key list ttl : Term) :
    Proc (World × Objects) Reply Term := do
  let k ← lift (binaryKey nameSpace set key)
  let length ← lift (orBadarg (getListLength list))
  let ttl ← lift (orBadarg (getLong ttl))
  if length = 0 then return okString "key_put"
  else do
    onFirst isConnected
    onSecond (update (fun o => { o with record := ⟨length,UInt32.ofInt ttl,[]⟩ }))
    onSecond (putOwnedBins c length list)
    let s ← state
    let r ← onFirst (submit env (.keyPut k s.2.record.erase))
    onSecond (update (fun o => { o with destroyed := o.destroyed ++ o.binVec }))
    return answerString r "key_put"

end Objects

section Erasure
variable (c : Client)

theorem erase_names (rec : OwnedRecord) : rec.erase.bins.map Prod.fst = rec.bins.map Prod.fst := by
  unfold OwnedRecord.erase
  rw [List.map_map]
  rfl

theorem has_iff {rec : OwnedRecord} {name : Bytes} :
    rec.has name = true ↔ name ∈ rec.bins.map Prod.fst := by
  unfold OwnedRecord.has
  rw [List.any_eq_true,List.mem_map]
  exact exists_congr fun b => and_congr_right fun _ => decide_eq_true_iff

theorem set_erase (rec : OwnedRecord) (name : Bytes) (v : Slot) :
    rec.erase.set c name v.value = (rec.set c name v).map (fun r => r.1.erase) := by
  unfold PutRecord.set OwnedRecord.set
  rw [erase_names]
  have hlength : rec.erase.bins.length = rec.bins.length := List.length_map _
  have hcap : rec.erase.capacity = rec.capacity := rfl
  rw [hlength,hcap]
  by_cases htakes : ¬c.takesBin name
  · rw [if_pos htakes,if_pos htakes]
    rfl
  rw [if_neg htakes,if_neg htakes]
  by_cases hname : name ∈ rec.bins.map Prod.fst
  · rw [if_pos hname,if_pos (has_iff.mpr hname)]
    simp only [OwnedRecord.erase,List.map_map,Option.map_some]
    congr 2
    refine List.map_congr_left fun b _ => ?_
    simp only [Function.comp_apply]
    split_ifs <;> rfl
  rw [if_neg hname,if_neg (mt has_iff.mp hname)]
  by_cases hroom : rec.bins.length < rec.capacity
  · rw [if_pos hroom,if_pos hroom]
    simp [OwnedRecord.erase]
  · rw [if_neg hroom,if_neg hroom]
    rfl

theorem taking_erase (o : Objects) (name : Bytes) (v : Slot) :
    (o.taking (o.record.set c (cStr name) v)).record.erase =
      setBin c o.record.erase name v.value := by
  unfold setBin
  rw [set_erase]
  cases o.record.set c (cStr name) v with
  | some r => rfl
  | none => rfl

theorem setPlain_run (name : Bytes) (v : AsVal) (o : Objects) :
    setPlain c name v o = (.ok (),o.taking (o.record.set c (cStr name) ⟨v,none⟩)) := rfl

/-- After `bin_vec.push_back(as_bytes_new(..))`. -/
def Objects.pushed (o : Objects) : Objects :=
  { o with created := o.created+1, binVec := o.binVec ++ [o.created] }

theorem setBytes_taken {name data : Bytes} {o : Objects} {r : OwnedRecord × Option ℕ}
    (h : o.record.set c (cStr name) ⟨.bytes data,some o.created⟩ = some r) :
    setBytes c name data o = (.ok (),o.pushed.taking (some r)) := by
  have hset : asRecordSet c name ⟨.bytes data,some o.created⟩ o.pushed =
      (.ok true,o.pushed.taking (some r)) := by
    unfold asRecordSet
    change (Except.ok (o.record.set c (cStr name) _).isSome,_) = _
    rw [show o.pushed.record = o.record from rfl,h]
    rfl
  exact bind_run_ok (fun taken : Bool => if taken then pure () else asBytesDestroy o.created) hset

theorem setBytes_refused {name data : Bytes} {o : Objects}
    (h : o.record.set c (cStr name) ⟨.bytes data,some o.created⟩ = none) :
    setBytes c name data o =
      (.ok (),{ o.pushed with destroyed := o.destroyed ++ [o.created] }) := by
  have hset : asRecordSet c name ⟨.bytes data,some o.created⟩ o.pushed =
      (.ok false,o.pushed) := by
    unfold asRecordSet
    change (Except.ok (o.record.set c (cStr name) _).isSome,_) = _
    rw [show o.pushed.record = o.record from rfl,h]
    rfl
  exact bind_run_ok (fun taken : Bool => if taken then pure () else asBytesDestroy o.created) hset

/-- Without the objects the procedure is the plain function on records. -/
def Erases (p : Put Unit) (f : PutRecord → Except Reply PutRecord) : Prop :=
  ∀ o, f o.record.erase = (p o).1.map (fun _ => (p o).2.record.erase)

theorem erases_lift {α : Type} (x : Except Reply α) {p : α → Put Unit}
    {f : α → PutRecord → Except Reply PutRecord} (h : ∀ a, Erases (p a) (f a)) :
    Erases (lift x >>= p) (fun rec => x >>= fun a => f a rec) := by
  intro o
  cases x with
  | ok a => exact h a o
  | error e => rfl

theorem erases_stop (r : Reply) : Erases (stop r) (fun _ => .error r) := fun _ => rfl

theorem erases_bind {p q : Put Unit} {f g : PutRecord → Except Reply PutRecord}
    (hp : Erases p f) (hq : Erases q g) : Erases (do p; q) (fun rec => f rec >>= g) := by
  intro o
  have hfst := hp o
  change f o.record.erase >>= g = _
  rw [hfst]
  cases h : p o with
  | mk r t =>
    cases r with
    | ok u =>
      rw [bind_run_ok (fun _ => q) h]
      exact hq t
    | error e =>
      rw [bind_run_error (fun _ => q) h]
      rfl

theorem setPlain_erases (name : Bytes) (v : AsVal) :
    Erases (setPlain c name v) (fun rec => .ok (setBin c rec name v)) := by
  intro o
  rw [setPlain_run]
  exact congrArg Except.ok (taking_erase c o name ⟨v,none⟩).symm

theorem setBytes_erases (name data : Bytes) :
    Erases (setBytes c name data) (fun rec => .ok (setBin c rec name (.bytes data))) := by
  intro o
  have herase := taking_erase c o name ⟨.bytes data,some o.created⟩
  cases h : o.record.set c (cStr name) ⟨.bytes data,some o.created⟩ with
  | some r =>
    rw [h] at herase
    rw [setBytes_taken c h]
    exact congrArg Except.ok herase.symm
  | none =>
    rw [h] at herase
    rw [setBytes_refused c h]
    exact congrArg Except.ok herase.symm

theorem putOwnedBin_erases (bin : Term) :
    Erases (putOwnedBin c bin) (fun rec => putBinaryBin c rec bin) := by
  refine erases_lift _ fun elements => ?_
  match elements with
  | [name,value] =>
    refine erases_lift _ fun name => ?_
    cases inspectBinary value with
    | some data => exact setBytes_erases c name data
    | none =>
      dsimp only
      by_cases hnumber : isNumber value = true
      · simp only [if_pos hnumber]
        cases getInt64 value with
        | some i => exact setPlain_erases c name (.integer i)
        | none => exact fun _ => rfl
      · simp only [if_neg hnumber]
        by_cases hatom : isAtom value = true
        · simp only [if_pos hatom]
          exact setPlain_erases c name .nil
        · simp only [if_neg hatom]
          exact erases_lift _ fun length =>
            setPlain_erases c name (.list (collectIntegers length value))
  | [] => exact erases_stop .badarg
  | [_] => exact erases_stop .badarg
  | _::_::_::_ => exact erases_stop .badarg

theorem putOwnedBins_erases (n : ℕ) (list : Term) : Erases (putOwnedBins c n list)
    (cellsExcept (fun s => .ok s) (putBinaryBin c) n list) := by
  induction n generalizing list with
  | zero => exact fun _ => rfl
  | succ n ih =>
    have hcells : cellsExcept (fun s => .ok s) (putBinaryBin c) (n+1) list =
        fun rec => match getListCell list with
          | none => .ok rec
          | some (head,tail) =>
            putBinaryBin c rec head >>= cellsExcept (fun s => .ok s) (putBinaryBin c) n tail := rfl
    rw [hcells]
    unfold putOwnedBins
    cases getListCell list with
    | none => exact fun _ => rfl
    | some cell => exact erases_bind (putOwnedBin_erases c cell.1) (ih cell.2)

def Objects.initRecord (length : ℕ) (ttl : ℤ) (o : Objects) : Objects :=
  { o with record := ⟨length,UInt32.ofInt ttl,[]⟩ }

/-- The final loop over `bin_vec`. -/
def Objects.release (o : Objects) : Objects :=
  { o with destroyed := o.destroyed ++ o.binVec }

variable {c} {env : Env} {nameSpace set key list ttl : Term} {w : World} {k : AsKey} {length : ℕ}
  {t : ℤ}

section Checked
variable (hk : binaryKey nameSpace set key = .ok k)
  (hl : orBadarg (getListLength list) = .ok length) (ht : orBadarg (getLong ttl) = .ok t)
  (hlength : length ≠ 0)

include hk hl ht hlength

theorem owned_refused (o : Objects) (hw : ¬w.isConnectedFlag = true) :
    binaryPutOwned c env nameSpace set key list ttl (w,o) =
      (.error (.term notConnected),w,o) := by
  unfold binaryPutOwned
  rw [hk,hl,ht]
  simp only [lift_ok_bind_run]
  rw [if_neg hlength]
  exact onFirst_bind_error _ (isConnected_refused hw)

theorem owned_connected (o : Objects) (hw : w.isConnectedFlag = true) :
    binaryPutOwned c env nameSpace set key list ttl (w,o) =
      match putOwnedBins c length list (o.initRecord length t) with
      | (.error e,o) => (.error e,w,o)
      | (.ok (),o) =>
        let req := .keyPut k o.record.erase
        (.ok (answerString (env.respond (w.submitted ++ [req])) "key_put"),
          afterSubmit req w,o.release) := by
  unfold binaryPutOwned
  rw [hk,hl,ht]
  simp only [lift_ok_bind_run]
  rw [if_neg hlength,onFirst_bind_ok _ (isConnected_run hw)]
  change (onSecond (putOwnedBins c length list) >>= _) (w,o.initRecord length t) = _
  cases h : putOwnedBins c length list (o.initRecord length t) with
  | mk r o' =>
    have hrun : onSecond (putOwnedBins c length list) (w,o.initRecord length t) = (r,w,o') := by
      simp only [onSecond,h]
    cases r with
    | error e => exact bind_run_error _ hrun
    | ok u => exact bind_run_ok _ hrun

end Checked

/-- Either a check ends both calls, and nothing has changed, or both come to the
loop. -/
theorem put_stops_or_opens (c : Client) (env : Env) (nameSpace set key list ttl : Term)
    (w : World) (o : Objects) :
    (∃ r, binaryPutOwned c env nameSpace set key list ttl (w,o) = (r,w,o) ∧
      binaryPutSync c env nameSpace set key list ttl w = (r,w)) ∨
    ∃ k length t, binaryKey nameSpace set key = .ok k ∧
      orBadarg (getListLength list) = .ok length ∧ orBadarg (getLong ttl) = .ok t ∧
      length ≠ 0 ∧ w.isConnectedFlag = true := by
  cases hk : binaryKey nameSpace set key with
  | error e =>
    unfold binaryPutOwned binaryPutSync
    rw [hk]
    exact .inl ⟨.error e,rfl,rfl⟩
  | ok k =>
  cases hl : orBadarg (getListLength list) with
  | error e =>
    unfold binaryPutOwned binaryPutSync
    rw [hk,hl]
    exact .inl ⟨.error e,rfl,rfl⟩
  | ok length =>
  cases ht : orBadarg (getLong ttl) with
  | error e =>
    unfold binaryPutOwned binaryPutSync
    rw [hk,hl,ht]
    exact .inl ⟨.error e,rfl,rfl⟩
  | ok t =>
  by_cases hlength : length = 0
  · unfold binaryPutOwned binaryPutSync
    rw [hk,hl,ht]
    simp only [lift_ok_bind_run,if_pos hlength]
    exact .inl ⟨_,rfl,rfl⟩
  by_cases hw : w.isConnectedFlag = true
  · exact .inr ⟨k,length,t,rfl,rfl,rfl,hlength,hw⟩
  · refine .inl ⟨_,owned_refused hk hl ht hlength o hw,?_⟩
    unfold binaryPutSync
    rw [hk,hl,ht]
    simp only [lift_ok_bind_run]
    rw [if_neg hlength,isConnected_bind_refused _ hw]

/-- The call answers and leaves the world as `binary_put` does. -/
theorem binaryPutOwned_erases (o : Objects) :
    let r := binaryPutOwned c env nameSpace set key list ttl (w,o)
    binaryPutSync c env nameSpace set key list ttl w = (r.1,r.2.1) := by
  dsimp only
  rcases put_stops_or_opens c env nameSpace set key list ttl w o with
    ⟨r,howned,hsync⟩ | ⟨k,length,t,hk,hl,ht,hlength,hw⟩
  · rw [howned,hsync]
  · rw [owned_connected hk hl ht hlength o hw]
    have herase := putOwnedBins_erases c length list (o.initRecord length t)
    unfold binaryPutSync
    rw [hk,hl,ht]
    simp only [lift_ok_bind_run]
    rw [if_neg hlength,isConnected_bind_run _ hw]
    change (lift (cellsExcept _ (putBinaryBin c) length list
      (o.initRecord length t).record.erase) >>= _) w = _
    rw [herase]
    cases putOwnedBins c length list (o.initRecord length t) with
    | mk r o' => cases r <;> rfl

end Erasure

section Writes
variable (c : Client)

/-- What a value that is no object does to the slots of the record. -/
def plainWrite (name : Bytes) : Write Bytes :=
  if c.takesBin (cStr name) then .plain (cStr name) else .skip

def bytesWrite (name : Bytes) : Write Bytes :=
  if c.takesBin (cStr name) then .object (cStr name) else .refused

/-- `none`: an element the function answers with `badarg`. -/
def writeOf (bin : Term) : Option (Write Bytes) := do
  match ← getTuple bin with
  | [name,value] => do
    let name ← inspectBinary name
    if (inspectBinary value).isSome then return bytesWrite c name
    else if isNumber value then
      return if (getInt64 value).isSome then plainWrite c name else .skip
    else if isAtom value then return plainWrite c name
    else do
      let _ ← getListLength value
      return plainWrite c name
  | _ => none

def Objects.store (o : Objects) : Store Bytes := ⟨o.record.owner,o.created,o.destroyed⟩

/-- There is a bin for each element still to come, and `bin_vec` has every
object. -/
structure Ready (o : Objects) (n : ℕ) : Prop where
  room : o.record.bins.length+n ≤ o.record.capacity
  vec : o.binVec = List.range o.created

theorem owner_replaced {rec : OwnedRecord} {name : Bytes} (v : Slot)
    (h : name ∈ rec.bins.map Prod.fst) :
    OwnedRecord.owner { rec with bins := rec.bins.map (fun b => if b.1 = name then (name,v) else b) } =
      Function.update rec.owner name v.object := by
  funext m
  have hkey : (fun b : Bytes × Slot => decide (b.1 = m)) ∘
      (fun b => if b.1 = name then (name,v) else b) = fun b => decide (b.1 = m) := by
    funext b
    by_cases hb : b.1 = name
    · simp [hb]
    · simp [hb]
  unfold OwnedRecord.owner
  rw [List.find?_map,hkey]
  cases hfind : rec.bins.find? (fun b => decide (b.1 = m)) with
  | none =>
    have hne : m ≠ name := by
      rintro rfl
      obtain ⟨b,hb,hbm⟩ := List.mem_map.mp h
      exact absurd (decide_eq_true hbm) (List.find?_eq_none.mp hfind b hb)
    rw [Function.update_of_ne hne,hfind]
    rfl
  | some b =>
    have hb : b.1 = m := by simpa using List.find?_some hfind
    by_cases hm : m = name
    · subst hm
      rw [Function.update_self]
      simp [hb]
    · rw [Function.update_of_ne hm,hfind]
      simp [hb,hm]

theorem owner_new {rec : OwnedRecord} {name : Bytes} (v : Slot)
    (h : name ∉ rec.bins.map Prod.fst) :
    OwnedRecord.owner { rec with bins := rec.bins ++ [(name,v)] } =
      Function.update rec.owner name v.object ∧ rec.owner name = none := by
  have hnone : rec.bins.find? (fun b => decide (b.1 = name)) = none :=
    List.find?_eq_none.mpr fun b hb hbn =>
      h (List.mem_map.mpr ⟨b,hb,of_decide_eq_true hbn⟩)
  have howner : rec.owner name = none := by
    unfold OwnedRecord.owner
    rw [hnone]
    rfl
  refine ⟨?_,howner⟩
  funext m
  by_cases hm : m = name
  · subst hm
    rw [Function.update_self]
    unfold OwnedRecord.owner
    rw [List.find?_append,hnone]
    simp
  · rw [Function.update_of_ne hm]
    unfold OwnedRecord.owner
    rw [List.find?_append]
    simp [Ne.symm hm]

/-- What the client does when it takes a value: the record has the new object
and gives back the one it had. -/
theorem set_owner {rec : OwnedRecord} {name : Bytes} {v : Slot} {r : OwnedRecord × Option ℕ}
    (h : rec.set c name v = some r) :
    r.1.owner = Function.update rec.owner name v.object ∧ r.2 = rec.owner name ∧
      r.1.capacity = rec.capacity ∧ r.1.bins.length ≤ rec.bins.length+1 := by
  unfold OwnedRecord.set at h
  split_ifs at h with htakes hname hroom
  · cases h
    exact ⟨owner_replaced v (has_iff.mp hname),rfl,rfl,by simp⟩
  · cases h
    obtain ⟨hnew,hnone⟩ := owner_new v (mt has_iff.mpr hname)
    exact ⟨hnew,hnone.symm,rfl,by simp⟩

theorem set_refused {rec : OwnedRecord} {name : Bytes} {v : Slot}
    (hroom : rec.bins.length < rec.capacity) : rec.set c name v = none ↔ ¬c.takesBin name := by
  unfold OwnedRecord.set
  by_cases h : c.takesBin name
  · simp only [h,not_true_eq_false,if_false,hroom,if_true]
    split_ifs <;> simp
  · simp [h]

theorem set_taken {rec : OwnedRecord} {name : Bytes} (v : Slot)
    (hroom : rec.bins.length < rec.capacity) (h : c.takesBin name) :
    ∃ r, rec.set c name v = some r :=
  Option.ne_none_iff_exists'.mp fun hnone => (set_refused c hroom).mp hnone h

/-- One element leaves the objects as a write leaves the slots. -/
def Simulates (p : Put Unit) (wr : Write Bytes) : Prop :=
  ∀ o n, Ready o (n+1) → ∃ o', p o = (.ok (),o') ∧ o'.store = write wr o.store ∧ Ready o' n

theorem Ready.skip {o : Objects} {n : ℕ} (h : Ready o (n+1)) : Ready o n :=
  ⟨by have := h.room; omega,h.vec⟩

theorem setPlain_simulates (name : Bytes) (v : AsVal) :
    Simulates (setPlain c name v) (plainWrite c name) := by
  intro o n ho
  have hroom : o.record.bins.length < o.record.capacity := by have := ho.room; omega
  rw [setPlain_run]
  unfold plainWrite
  by_cases htakes : c.takesBin (cStr name)
  · rw [if_pos htakes]
    obtain ⟨r,hr⟩ := set_taken c ⟨v,none⟩ hroom htakes
    obtain ⟨howner,hold,hcap,hlen⟩ := set_owner c hr
    rw [hr]
    refine ⟨_,rfl,?_,?_,ho.vec⟩
    · unfold Objects.store Objects.taking write
      simp only [howner,hold]
    · have := ho.room
      change r.1.bins.length+n ≤ r.1.capacity
      omega
  · rw [if_neg htakes,(set_refused c hroom).mpr htakes]
    exact ⟨o,rfl,rfl,ho.skip⟩

theorem setBytes_simulates (name data : Bytes) :
    Simulates (setBytes c name data) (bytesWrite c name) := by
  intro o n ho
  have hroom : o.record.bins.length < o.record.capacity := by have := ho.room; omega
  have hvec : o.binVec ++ [o.created] = List.range (o.created+1) := by
    rw [ho.vec,List.range_succ]
  unfold bytesWrite
  by_cases htakes : c.takesBin (cStr name)
  · rw [if_pos htakes]
    obtain ⟨r,hr⟩ := set_taken c ⟨.bytes data,some o.created⟩ hroom htakes
    obtain ⟨howner,hold,hcap,hlen⟩ := set_owner c hr
    refine ⟨_,setBytes_taken c hr,?_,?_,hvec⟩
    · unfold Objects.store Objects.taking write
      simp only [howner,hold]
      rfl
    · have := ho.room
      change r.1.bins.length+n ≤ r.1.capacity
      omega
  · rw [if_neg htakes]
    exact ⟨_,setBytes_refused c ((set_refused c hroom).mpr htakes),rfl,ho.skip.room,hvec⟩

theorem simulates_skip : Simulates (pure ()) .skip := fun o _ ho => ⟨o,rfl,rfl,ho.skip⟩

/-- An element that is no write is answered with `badarg`. -/
def Follows (p : Put Unit) : Option (Write Bytes) → Prop
  | some wr => Simulates p wr
  | none => ∀ o, p o = (.error .badarg,o)

theorem follows_bind {α : Type} (x : Option α) {p : α → Put Unit} {f : α → Option (Write Bytes)}
    (h : ∀ a, Follows (p a) (f a)) : Follows (lift (orBadarg x) >>= p) (x >>= f) := by
  cases x with
  | some a => exact h a
  | none => exact fun _ => rfl

theorem putOwnedBin_follows (bin : Term) : Follows (putOwnedBin c bin) (writeOf c bin) := by
  refine follows_bind _ fun elements => ?_
  match elements with
  | [name,value] =>
    refine follows_bind _ fun name => ?_
    cases inspectBinary value with
    | some data => exact setBytes_simulates c name data
    | none =>
      dsimp only
      rw [if_neg (show ¬(none : Option Bytes).isSome = true from Bool.false_ne_true)]
      by_cases hnumber : isNumber value = true
      · simp only [if_pos hnumber]
        cases getInt64 value with
        | some i => exact setPlain_simulates c name (.integer i)
        | none => exact simulates_skip
      · simp only [if_neg hnumber]
        by_cases hatom : isAtom value = true
        · simp only [if_pos hatom]
          exact setPlain_simulates c name .nil
        · simp only [if_neg hatom]
          exact follows_bind _ fun length =>
            setPlain_simulates c name (.list (collectIntegers length value))
  | [] => exact fun _ => rfl
  | [_] => exact fun _ => rfl
  | _::_::_::_ => exact fun _ => rfl

/-- The writes up to the first element that is none. -/
def writes : List Term → List (Write Bytes)
  | [] => []
  | t::ts => match writeOf c t with
    | some wr => wr::writes ts
    | none => []

def Wellformed (ts : List Term) : Prop := ∀ t ∈ ts, (writeOf c t).isSome

theorem putOwnedBins_run (ts : List Term) (o : Objects) (ho : Ready o ts.length) :
    ∃ r o', putOwnedBins c ts.length (ofList ts) o = (r,o') ∧
      o'.store = run write (writes c ts) o.store ∧ o'.binVec = List.range o'.created ∧
      (Wellformed c ts ∧ r = .ok () ∨ ¬Wellformed c ts ∧ r = .error .badarg) := by
  induction ts generalizing o with
  | nil => exact ⟨_,o,rfl,rfl,ho.vec,.inl ⟨fun t ht => absurd ht List.not_mem_nil,rfl⟩⟩
  | cons t ts ih =>
    have hstep := putOwnedBin_follows c t
    change ∃ r o', (putOwnedBin c t >>= fun _ => putOwnedBins c ts.length (ofList ts)) o = (r,o') ∧ _
    unfold writes
    cases hw : writeOf c t with
    | none =>
      rw [hw] at hstep
      refine ⟨_,o,bind_run_error _ (hstep o),rfl,ho.vec,.inr ⟨fun hall => ?_,rfl⟩⟩
      have := hall t List.mem_cons_self
      rw [hw] at this
      cases this
    | some wr =>
      rw [hw] at hstep
      obtain ⟨o₁,hrun,hstore,hready⟩ := hstep o ts.length ho
      obtain ⟨r,o',hrest,hstore',hvec,hend⟩ := ih o₁ hready
      rw [hstore] at hstore'
      have hall : Wellformed c (t::ts) ↔ Wellformed c ts := by
        unfold Wellformed
        rw [List.forall_mem_cons,hw]
        exact and_iff_right rfl
      exact ⟨r,o',(bind_run_ok _ hrun).trans hrest,hstore',hvec,by rwa [hall]⟩

/-- Where the whole list is read, every binary gets a bin that no later element
sets; where it is not, every binary before the malformed element is refused or
its bin is set again. -/
structure ReleasedOnce (ts : List Term) : Prop where
  whole : Wellformed c ts → Untouched (writes c ts)
  part : ¬Wellformed c ts → Rewritten (writes c ts)

end Writes

section Calls
variable (c : Client) (env : Env) (nameSpace set key list ttl : Term) (w : World)

/-- The objects after the call, with none before it. -/
def objectsAfter : Objects :=
  (binaryPutOwned c env nameSpace set key list ttl (w,noObjects)).2.2

def Objects.DestroyedOnce (o : Objects) : Prop := Once o.created o.destroyed

theorem initRecord_ready (length : ℕ) (t : ℤ) : Ready (noObjects.initRecord length t) length :=
  ⟨Nat.le_of_eq (Nat.zero_add length),rfl⟩

theorem once_noObjects : Once noObjects.created noObjects.destroyed :=
  fun i hi => absurd hi (Nat.not_lt_zero i)

theorem connected_once_iff {k : AsKey} {ts : List Term} {t : ℤ}
    (hk : binaryKey nameSpace set key = .ok k) (ht : getLong ttl = some t)
    (hw : w.isConnectedFlag = true) (hts : ts ≠ []) :
    (objectsAfter c env nameSpace set key (ofList ts) ttl w).DestroyedOnce ↔ ReleasedOnce c ts := by
  have hl : orBadarg (getListLength (ofList ts)) = .ok ts.length := by
    rw [getListLength_ofList,orBadarg_some]
  have httl : orBadarg (getLong ttl) = .ok t := by rw [ht,orBadarg_some]
  have hlength : ts.length ≠ 0 := fun h => hts (List.eq_nil_of_length_eq_zero h)
  obtain ⟨r,o',hrun,hstore,hvec,hend⟩ :=
    putOwnedBins_run c ts _ (initRecord_ready ts.length t)
  have hcreated : o'.created = (run write (writes c ts) Store.empty).created :=
    congrArg Store.created hstore
  have hdestroyed : o'.destroyed = (run write (writes c ts) Store.empty).destroyed :=
    congrArg Store.destroyed hstore
  unfold objectsAfter
  rw [owned_connected hk hl httl hlength noObjects hw,hrun]
  rcases hend with ⟨hall,rfl⟩ | ⟨hbad,rfl⟩
  · change Once o'.created (o'.destroyed ++ o'.binVec) ↔ _
    rw [hvec,hcreated,hdestroyed,once_iff_untouched]
    exact ⟨fun h => ⟨fun _ => h,fun hbad => absurd hall hbad⟩,fun h => h.whole hall⟩
  · change Once o'.created o'.destroyed ↔ _
    rw [hcreated,hdestroyed,once_iff_rewritten]
    exact ⟨fun h => ⟨fun hall => absurd hall hbad,fun _ => h⟩,fun h => h.part hbad⟩

theorem released_nil : ReleasedOnce c [] where
  whole _ := ⟨fun _ hwr => absurd hwr List.not_mem_nil,List.Pairwise.nil⟩
  part _ := trivial

/-- The call reaches the loop. -/
def Opens : Prop := ∃ k ts t, binaryKey nameSpace set key = .ok k ∧ list = ofList ts ∧
  getLong ttl = some t ∧ w.isConnectedFlag = true ∧ ts ≠ []

theorem unopened_objects (h : ¬Opens nameSpace set key list ttl w) :
    objectsAfter c env nameSpace set key list ttl w = noObjects := by
  unfold objectsAfter
  rcases put_stops_or_opens c env nameSpace set key list ttl w noObjects with
    ⟨r,howned,-⟩ | ⟨k,length,t,hk,hl,ht,hlength,hw⟩
  · rw [howned]
  · obtain ⟨ts,rfl,rfl⟩ := getListLength_some (orBadarg_ok hl)
    have hts : ts ≠ [] := by
      rintro rfl
      exact hlength rfl
    exact absurd ⟨k,ts,t,hk,rfl,orBadarg_ok ht,hw,hts⟩ h

theorem bytes_destroyed_once_iff :
    (objectsAfter c env nameSpace set key list ttl w).DestroyedOnce ↔
      ∀ k ts t, binaryKey nameSpace set key = .ok k → list = ofList ts → getLong ttl = some t →
        w.isConnectedFlag = true → ReleasedOnce c ts := by
  by_cases hopen : Opens nameSpace set key list ttl w
  · obtain ⟨k,ts,t,hk,rfl,ht,hw,hts⟩ := hopen
    refine (connected_once_iff c env nameSpace set key ttl w hk ht hw hts).trans ⟨fun h => ?_,fun h => ?_⟩
    · intro _ us _ _ heq _ _
      rwa [← ofList_injective heq]
    · exact h k ts t hk rfl ht hw
  · rw [unopened_objects c env nameSpace set key list ttl w hopen]
    refine ⟨fun _ k ts t hk hl ht hw => ?_,fun _ => once_noObjects⟩
    by_cases hts : ts = []
    · rw [hts]
      exact released_nil c
    · exact absurd ⟨k,ts,t,hk,hl,ht,hw,hts⟩ hopen

end Calls

section Samples

def pairOf (name data : Bytes) : Term := .tuple [.binary name,.binary data]

def sampleObjects (bins : List Term) : Objects :=
  objectsAfter plainClient plainEnv (.binary [97]) (.binary [97]) (.binary [97]) (ofList bins)
    (.integer 0) connectedWorld

/-- A name given twice and a name too long end with an object destroyed twice; a
malformed element after a binary leaves its object behind. -/
theorem sample_objects :
    ¬(sampleObjects [pairOf [98] [1],pairOf [98] [2]]).DestroyedOnce ∧
    ¬(sampleObjects [pairOf (List.replicate 16 98) [1]]).DestroyedOnce ∧
    ¬(sampleObjects [pairOf [98] [1],.nil]).DestroyedOnce := by
  unfold Objects.DestroyedOnce Once
  decide

end Samples

end AspikePort.BytesOwnership
