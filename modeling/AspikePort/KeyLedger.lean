import AspikePort.BinaryRemovals
import AspikePort.KeyServer
import AspikePort.PortAgreement

/-!
# The bins of a record as the key calls keep them

`key_put`, `key_inc`, `key_remove`, `binary_put` and `binary_remove` work on
the bins of one record. Over any run of them the server holds a ledger of
binaries, integers and lists of integers. Increments may come in any order.
-/

set_option autoImplicit false

namespace AspikePort.KeyLedger
open AspikePort.ErlangTerms AspikePort.ClientValues AspikePort.EarlyReturn AspikePort.NifWorld
open AspikePort.CdtPut AspikePort.PutAgreement AspikePort.SyncCalls AspikePort.Lifecycle
open AspikePort.FallibleLoops AspikePort.WrittenLists
open AspikePort.RecordServer AspikePort.KeyServer AspikePort.StoreCalls AspikePort.BinaryBins
open AspikePort.PortAgreement AspikePort.LabelledRuns
open AspikePort.BinaryRemovals (nameTerms removeCall removeRequest remove_submits remove_nothing)
open AspikePort.OrderedMap (OrdMap)
open AspikePort.PortPuts (Pair fill)
open Proc

section Texts

theorem codePoints_chars {cs : List Char} :
    codePoints (ofList (cs.map (fun ch => .integer ch.toNat))) = some (cs.map Char.toNat) := by
  induction cs with
  | nil => rfl
  | cons ch cs ih =>
    have hch : (0:ℤ) ≤ ch.toNat ∧ (ch.toNat:ℤ) < 0x110000 ∧
        ¬(0xD800 ≤ (ch.toNat:ℤ) ∧ (ch.toNat:ℤ) < 0xE000) := by
      have hvalid := ch.valid
      change ch.toNat < 0xD800 ∨ 0xDFFF < ch.toNat ∧ ch.toNat < 0x110000 at hvalid
      omega
    rw [List.map_cons,ofList,codePoints,if_pos hch,ih]
    rfl

theorem copyWhileFits_all {room : ℕ} {cs : List ℕ} (h : (cs.flatMap utf8).length ≤ room) :
    copyWhileFits room cs = cs.flatMap utf8 := by
  induction cs generalizing room with
  | nil => rfl
  | cons ch cs ih =>
    rw [List.flatMap_cons,List.length_append] at h
    rw [copyWhileFits,if_pos (by omega),ih (by omega),List.flatMap_cons]

/-- A text that leaves room for the final zero is read whole. -/
theorem getString_text {size : ℕ} {s : String} (h : (textBytes s).length < size) :
    getString size (makeString s) = some (textBytes s) := by
  have hbytes : textBytes s = (s.toList.map Char.toNat).flatMap utf8 := by
    rw [textBytes,List.flatMap_map]
  unfold getString makeString
  rw [if_neg (by omega),codePoints_chars,hbytes]
  rw [hbytes] at h
  exact congrArg some (copyWhileFits_all (by omega))

structure CharText (size : ℕ) where
  text : String
  zeroFree : 0 ∉ textBytes text
  short : (textBytes text).length < size

namespace CharText
variable {size : ℕ} (t : CharText size)

def term : Term := makeString t.text

def data : Bytes := textBytes t.text

theorem read {room : ℕ} (h : size ≤ room) : getString room t.term = some t.data :=
  getString_text (lt_of_lt_of_le t.short h)

theorem cStr_eq : cStr t.data = t.data := cStr_eq_self.mpr t.zeroFree

end CharText

structure CharKey where
  nameSpace : CharText maxNamespaceSize
  set : CharText maxSetSize
  key : CharText maxKeyStrSize

def CharKey.asKey (k : CharKey) : AsKey := ⟨k.nameSpace.data,k.set.data,k.key.data⟩

theorem CharKey.stringKey_eq (k : CharKey) :
    stringKey k.nameSpace.term k.set.term k.key.term = .ok k.asKey := by
  unfold stringKey asKeyInitStr
  rw [k.nameSpace.read (le_refl _),k.set.read (le_refl _),k.key.read (le_refl _)]
  show Except.ok (AsKey.mk _ _ _) = _
  rw [k.nameSpace.cStr_eq,k.set.cStr_eq,k.key.cStr_eq]
  rfl

/-- A name of at most 15 bytes and an integer of 64 bits. -/
structure CharBin where
  name : CharText asBinNameMaxSize
  value : ℤ
  fits : Int64 value

def CharBin.term (b : CharBin) : Term := .tuple [b.name.term,.integer b.value]

def CharBin.pair (b : CharBin) : Pair := (b.name.data,.integer b.value)

theorem CharBin.read (b : CharBin) : readIntegerBin b.term = .ok (b.name.data,b.value) := by
  have hname : getString maxSetSize b.name.term = some b.name.data := b.name.read (by decide)
  have hvalue : getLong (.integer b.value) = some b.value := if_pos b.fits
  show (orBadarg (getString maxSetSize b.name.term) >>= fun name =>
    intoArray asBinNameMaxSize name >>= fun name =>
      orBadarg (getLong (.integer b.value)) >>= fun val =>
        (pure (cStr name,val) : Except Reply (Bytes × ℤ))) = _
  have hroom : intoArray asBinNameMaxSize b.name.data = .ok b.name.data := if_pos b.name.short
  rw [hname,hvalue]
  show (intoArray asBinNameMaxSize b.name.data >>= _) = _
  rw [hroom]
  show Except.ok (cStr b.name.data,b.value) = _
  rw [b.name.cStr_eq]

/-- A bin of `binary_put` that is stored as it is given. -/
structure FullBin where
  name : BinName
  value : BinValue
  fits : value.Fits

def FullBin.pair (b : FullBin) : Pair := (b.name.data,b.value)

end Texts

section Ledgers

abbrev Bins := OrdMap Bytes BinValue

abbrev Ledger := AsKey → Bins

inductive KeyCall where
  | keyPut (key : CharKey) (bins : List CharBin)
  | keyInc (key : CharKey) (bins : List CharBin)
  | keyRemove (key : CharKey)
  | binaryPut (key : RecordKey) (bins : List FullBin) (ttl : Term)
  | binaryRemove (key : RecordKey) (names : List BinName) (ttl : Term)

namespace KeyCall

def key : KeyCall → AsKey
  | keyPut k _ => k.asKey
  | keyInc k _ => k.asKey
  | keyRemove k => k.asKey
  | binaryPut k _ _ => k.asKey
  | binaryRemove k _ _ => k.asKey

def toDataCall : KeyCall → DataCall
  | keyPut k bins => .keyPutSync k.nameSpace.term k.set.term k.key.term
      (ofList (bins.map CharBin.term))
  | keyInc k bins => .keyIncSync k.nameSpace.term k.set.term k.key.term
      (ofList (bins.map CharBin.term))
  | keyRemove k => .keyRemoveSync k.nameSpace.term k.set.term k.key.term
  | binaryPut k bins ttl => .binaryPutSync k.nameSpace.term k.set.term k.key.term
      (ofList (bins.map (fun b => pairTerm b.name.data b.value))) ttl
  | binaryRemove k names ttl => .binaryRemoveSync k.nameSpace.term k.set.term k.key.term
      (nameTerms names) ttl

variable (add : ℤ → ℤ → ℤ)

def increased (v : ℤ) : Option BinValue → ℤ
  | some (.integer i) => add i v
  | _ => v

/-- What a call makes of the bins of its record. -/
def effect : KeyCall → Bins → Bins
  | keyPut _ bins, m => bins.foldl (fun m b => m.insert b.name.data (.integer b.value)) m
  | keyInc _ bins, m => bins.foldl (fun m b => m.insert b.name.data
      (.integer (increased add b.value (m.lookup b.name.data)))) m
  | keyRemove _, _ => OrdMap.empty
  | binaryPut _ bins _, m => bins.foldl (fun m b => m.insert b.name.data b.value) m
  -- the loop over the names never leaves the first of them
  | binaryRemove _ names _, m => (names.head?).elim m (fun n => m.erase n.data)

def apply (x : KeyCall) (L : Ledger) : Ledger :=
  Function.update L x.key (x.effect add (L x.key))

end KeyCall

def Represents (content : Content) (m : Bins) : Prop :=
  ∀ n, content n = (m.lookup n).map nativeValue

def Holds (S : Server) (db : S.DB) (L : Ledger) : Prop := ∀ k, Represents (S.bin db k) (L k)

end Ledgers

section Contents
variable {c : Client}

theorem nativeValue_ne_nil (v : BinValue) : nativeValue v ≠ .nil := by
  cases v <;> exact fun h => nomatch h

/-- A pair goes into the record under its own name. -/
def Named (c : Client) (b : Pair) : Prop := binKey c b = some b.1

/-- Pairs written in place over a record, and over its bins in the ledger. -/
theorem find_written_or {bs : List Pair} (h : ∀ b ∈ bs, Named c b) (n : Bytes)
    {es : List (Bytes × AsVal)} {m : Bins} {old : Option AsVal}
    (hstart : (find n es).or old = (m.lookup n).map nativeValue) :
    (find n (written (binKey c) (fun b => nativeValue b.2) bs es)).or old =
      ((bs.foldl (fun m b => m.insert b.1 b.2) m).lookup n).map nativeValue := by
  induction bs generalizing es m with
  | nil => exact hstart
  | cons b bs ih =>
    obtain ⟨hb,hbs⟩ := List.forall_mem_cons.mp h
    have hname : binKey c b = some b.1 := hb
    rw [written,hname,List.foldl_cons]
    apply ih hbs
    show (find n (upsert b.1 (nativeValue b.2) es)).or old = _
    rw [find_upsert,OrdMap.lookup_insert]
    by_cases hn : b.1 = n
    · rw [if_pos hn,if_pos hn.symm]
      rfl
    · rw [if_neg hn,if_neg (Ne.symm hn)]
      exact hstart

theorem putBin_find {rec : PutRecord} {n : Bytes} {old : Option AsVal}
    (h : ∀ v, find n rec.bins = some v → v ≠ .nil) :
    Server.putBin rec n old = (find n rec.bins).or old := by
  have hread : (rec.bins.find? (fun b => b.1 = n)).map Prod.snd = find n rec.bins := rfl
  unfold Server.putBin
  rw [hread]
  cases hfind : find n rec.bins with
  | none => rfl
  | some v =>
    have hne := h v hfind
    cases v with
    | nil => exact absurd rfl hne
    | _ => rfl

theorem fill_represents {bs : List Pair} (h : ∀ b ∈ bs, Named c b) {ttl : UInt32}
    {content : Content} {m : Bins} (hrep : Represents content m) :
    Represents (fun n => Server.putBin (fill c nativeValue bs ⟨bs.length,ttl,[]⟩) n (content n))
      (bs.foldl (fun m b => m.insert b.1 b.2) m) := by
  have hroom : ([] : List (Bytes × AsVal)).length+bs.length ≤ bs.length := by simp
  intro n
  show Server.putBin _ n (content n) = _
  rw [fill_written c nativeValue bs hroom,putBin_find,find_written_or h n]
  · rw [← hrep n]
    rfl
  · intro v hv
    rw [find_written,show find n ([] : List (Bytes × AsVal)) = none from rfl,Option.or_none] at hv
    obtain ⟨b,-,rfl⟩ := Option.map_eq_some_iff.mp hv
    exact nativeValue_ne_nil b.2

theorem named_data {name : Bytes} (hzero : 0 ∉ name) (htake : c.takesBin name = true)
    (v : BinValue) : Named c (name,v) := by
  have hname : cStr name = name := cStr_eq_self.mpr hzero
  unfold Named binKey
  simp only [hname,if_pos htake]

theorem char_named (hc : TakesBinNames c) (b : CharBin) : Named c b.pair :=
  named_data b.name.zeroFree (hc _ (Nat.le_of_lt_succ b.name.short)) _

theorem full_named (hc : TakesBinNames c) (b : FullBin) : Named c b.pair :=
  named_data b.name.zeroFree (hc _ b.name.short) _

variable {S : CountServer} (hS : S.Documented)
include hS

theorem incr_represents {content content' : Content} {m : Bins} {n : Bytes} {v : ℤ}
    (hrep : Represents content m) (h : S.applyTo content (.incr n v) = some content') :
    Represents content'
      (m.insert n (.integer (KeyCall.increased S.add v (m.lookup n)))) := by
  obtain ⟨new,hnew,rfl⟩ := Option.map_eq_some_iff.mp h
  change S.apply (.incr n v) (content n) = some new at hnew
  have hvalue : new = some (.integer (KeyCall.increased S.add v (m.lookup n))) := by
    rw [hrep n] at hnew
    cases hm : m.lookup n with
    | none =>
      rw [hm] at hnew
      exact hS.incr_creates n v new hnew
    | some x =>
      rw [hm] at hnew
      cases x with
      | integer i => exact hS.incr_adds n v i new hnew
      | binary data =>
        rw [show (Option.map nativeValue (some (.binary data))) = some (.bytes data) from rfl,
          hS.incr_needs_integer n v (.bytes data) (fun i h => nomatch h)] at hnew
        cases hnew
      | integers is =>
        rw [show (Option.map nativeValue (some (.integers is))) =
          some (.list (is.map .integer)) from rfl,
          hS.incr_needs_integer n v (.list (is.map .integer)) (fun i h => nomatch h)] at hnew
        cases hnew
  intro j
  rw [OrdMap.lookup_insert]
  change Function.update content n new j = _
  by_cases hj : j = n
  · rw [hj,Function.update_self,if_pos rfl,hvalue]
    rfl
  · rw [Function.update_of_ne hj,if_neg hj,hrep j]

theorem incrs_represent (bins : List CharBin) {content content' : Content} {m : Bins}
    (hrep : Represents content m)
    (h : (bins.map (fun b => Operation.incr b.name.data b.value)).foldlM S.applyTo content =
      some content') :
    Represents content' (bins.foldl (fun m b => m.insert b.name.data
      (.integer (KeyCall.increased S.add b.value (m.lookup b.name.data)))) m) := by
  induction bins generalizing content m with
  | nil =>
    cases h
    exact hrep
  | cons b bins ih =>
    rw [List.map_cons,List.foldlM_cons] at h
    obtain ⟨next,hnext,hrest⟩ := Option.bind_eq_some_iff.mp h
    exact ih (incr_represents hS hrep hnext) hrest

end Contents

section Requests
variable {c : Client} {env : Env} {w : World}

/-- A call that asks for the connection, submits and answers with a text. -/
theorem answered_requests {p : Nif Term} {req : Request} {done : String}
    (hrun : p w = (isConnected >>= fun _ => submit env req >>= fun r =>
      pure (answerString r done)) w) (h : Successful (p w).1) :
    submissions p w = some [req] := by
  by_cases hw : w.isConnectedFlag = true
  · rw [isConnected_bind_run _ hw,submit_bind_run] at hrun
    unfold submissions
    rw [hrun]
    simp [afterSubmit]
  · rw [hrun,isConnected_bind_refused _ hw] at h
    exact absurd h not_successful_notConnected

theorem silent_requests {p : Nif Term} {t : Term}
    (hrun : p w = (isConnected >>= fun _ => pure t) w) (h : Successful (p w).1) :
    submissions p w = some [] := by
  by_cases hw : w.isConnectedFlag = true
  · rw [isConnected_bind_run _ hw] at hrun
    exact submissions_answer hrun
  · rw [hrun,isConnected_bind_refused _ hw] at h
    exact absurd h not_successful_notConnected

theorem char_length (bins : List CharBin) :
    getListLength (ofList (bins.map CharBin.term)) = some bins.length := by
  rw [getListLength_ofList,List.length_map]

/-- The loop over the pairs of `key_put` and `key_inc`. -/
theorem char_loop {σ : Type} (f : σ → Bytes → ℤ → σ) (bins : List CharBin) (s : σ) :
    cellsExcept (fun s => .ok s) (fun s bin => do
      let (name,val) ← readIntegerBin bin
      return f s name val) bins.length (ofList (bins.map CharBin.term)) s =
        (.ok (bins.foldl (fun s b => f s b.name.data b.value) s) : Except Reply σ) := by
  have hloop := cellsExcept_ofList (fun s => .ok s) (fun s bin => do
      let (name,val) ← readIntegerBin bin
      return f s name val : σ → Term → Except Reply σ) (bins.map CharBin.term) s
  rw [List.length_map] at hloop
  rw [hloop,List.foldlM_map]
  refine foldlM_eq_ok bins (fun b _ s => ?_) s
  rw [b.read]
  rfl

theorem keyPut_run (k : CharKey) (bins : List CharBin) :
    (KeyCall.keyPut k bins).toDataCall.body c env w =
      (isConnected >>= fun _ => if bins.length = 0 then pure (okString "key_put") else
        submit env (.keyPut k.asKey (fill c nativeValue (bins.map CharBin.pair)
          ⟨bins.length,0,[]⟩)) >>= fun r => pure (answerString r "key_put")) w := by
  change (lift (stringKey k.nameSpace.term k.set.term k.key.term) >>= _) w = _
  rw [k.stringKey_eq,lift_ok_bind_run,char_length,orBadarg_some,lift_ok_bind_run,
    char_loop (fun rec name val => setBin c rec name (.integer val))]
  unfold fill
  rw [List.foldl_map]
  rfl

theorem put_requests (k : CharKey) (bins : List CharBin)
    (h : Successful ((KeyCall.keyPut k bins).toDataCall.body c env w).1) :
    (bins = [] ∧ submissions ((KeyCall.keyPut k bins).toDataCall.body c env) w = some []) ∨
    submissions ((KeyCall.keyPut k bins).toDataCall.body c env) w =
      some [.keyPut k.asKey (fill c nativeValue (bins.map CharBin.pair) ⟨bins.length,0,[]⟩)] := by
  have hrun := @keyPut_run c env w k bins
  cases bins with
  | nil => exact .inl ⟨rfl,silent_requests hrun h⟩
  | cons b bins => exact .inr (answered_requests hrun h)

theorem incr_operations (hc : TakesBinNames c) (bins : List CharBin) (ops : Operations) :
    bins.foldl (fun ops b => Operations.add c ops (.incr b.name.data b.value)) ops =
      ⟨ops.ttl,ops.entries ++ bins.map (fun b => .incr b.name.data b.value)⟩ := by
  induction bins generalizing ops with
  | nil => simp
  | cons b bins ih =>
    have htake : c.takesBin (Operation.incr b.name.data b.value).bin = true :=
      hc _ (Nat.le_of_lt_succ b.name.short)
    rw [List.foldl_cons,Operations.add,if_pos htake,ih,List.map_cons,List.append_assoc]
    rfl

theorem keyInc_run (hc : TakesBinNames c) (k : CharKey) (bins : List CharBin) :
    (KeyCall.keyInc k bins).toDataCall.body c env w =
      (isConnected >>= fun _ => if bins.length = 0 then pure (okString "key_inc") else
        submit env (.keyOperate k.asKey ⟨0,bins.map (fun b => .incr b.name.data b.value)⟩ none) >>=
          fun r => pure (answerString r "key_inc")) w := by
  change (lift (stringKey k.nameSpace.term k.set.term k.key.term) >>= _) w = _
  rw [k.stringKey_eq,lift_ok_bind_run,char_length,orBadarg_some,lift_ok_bind_run,
    char_loop (fun ops name val => Operations.add c ops (.incr name val)),
    incr_operations hc]
  rfl

theorem inc_requests (hc : TakesBinNames c) (k : CharKey) (bins : List CharBin)
    (h : Successful ((KeyCall.keyInc k bins).toDataCall.body c env w).1) :
    (bins = [] ∧ submissions ((KeyCall.keyInc k bins).toDataCall.body c env) w = some []) ∨
    submissions ((KeyCall.keyInc k bins).toDataCall.body c env) w =
      some [.keyOperate k.asKey ⟨0,bins.map (fun b => .incr b.name.data b.value)⟩ none] := by
  have hrun := @keyInc_run c env w hc k bins
  cases bins with
  | nil => exact .inl ⟨rfl,silent_requests hrun h⟩
  | cons b bins => exact .inr (answered_requests hrun h)

theorem keyRemove_run (k : CharKey) : (KeyCall.keyRemove k).toDataCall.body c env w =
    (isConnected >>= fun _ => submit env (.keyRemove k.asKey) >>= fun r =>
      pure (answerString r "key_remove")) w := by
  change (lift (stringKey k.nameSpace.term k.set.term k.key.term) >>= _) w = _
  rw [k.stringKey_eq]
  rfl

theorem remove_requests (k : CharKey)
    (h : Successful ((KeyCall.keyRemove k).toDataCall.body c env w).1) :
    submissions ((KeyCall.keyRemove k).toDataCall.body c env) w = some [.keyRemove k.asKey] :=
  answered_requests (keyRemove_run k) h

theorem binaryPut_requests (k : RecordKey) (bins : List FullBin) (ttl : Term)
    (h : Successful ((KeyCall.binaryPut k bins ttl).toDataCall.body c env w).1) :
    (bins = [] ∧ submissions ((KeyCall.binaryPut k bins ttl).toDataCall.body c env) w = some []) ∨
    ∃ t : UInt32, submissions ((KeyCall.binaryPut k bins ttl).toDataCall.body c env) w =
      some [.keyPut k.asKey (fill c nativeValue (bins.map FullBin.pair) ⟨bins.length,t,[]⟩)] := by
  have hfits : ∀ b ∈ bins.map FullBin.pair, b.2.Fits := by
    intro b hb
    obtain ⟨x,-,rfl⟩ := List.mem_map.mp hb
    exact x.fits
  have hlength := native_length (bins.map FullBin.pair)
  have hloop := fun rec => native_loop (c := c) hfits rec
  rw [List.length_map] at hlength hloop
  have hrun : (KeyCall.binaryPut k bins ttl).toDataCall.body c env w =
      (lift (orBadarg (getLong ttl)) >>= fun t => if bins.length = 0 then
        pure (okString "key_put") else isConnected >>= fun _ =>
          submit env (.keyPut k.asKey (fill c nativeValue (bins.map FullBin.pair)
            ⟨bins.length,UInt32.ofInt t,[]⟩)) >>= fun r => pure (answerString r "key_put")) w := by
    have hterm : ofList (bins.map (fun b => pairTerm b.name.data b.value)) =
        PortPuts.pairsTerm (bins.map FullBin.pair) := by
      unfold PortPuts.pairsTerm
      rw [List.map_map]
      rfl
    change binaryPutSync c env k.nameSpace.term k.set.term k.key.term
      (ofList (bins.map (fun b => pairTerm b.name.data b.value))) ttl w = _
    rw [hterm]
    change (lift (binaryKey k.nameSpace.term k.set.term k.key.term) >>= _) w = _
    rw [k.binaryKey_eq,lift_ok_bind_run,hlength,orBadarg_some,lift_ok_bind_run]
    simp only [hloop]
    rfl
  cases httl : getLong ttl with
  | none =>
    rw [hrun,httl] at h
    exact absurd h not_successful_badarg
  | some t =>
    rw [httl,orBadarg_some,lift_ok_bind_run] at hrun
    cases bins with
    | nil => exact .inl ⟨rfl,submissions_answer hrun⟩
    | cons b bins => exact .inr ⟨UInt32.ofInt t,answered_requests hrun h⟩

end Requests

section Runs
variable (c : Client) (S : CountServer)

structure KeyStep where
  env : Env
  world : World
  call : KeyCall

/-- The call is answered with ok and the server performs what it submits. -/
def Performs (x : KeyStep) (db db' : S.DB) : Prop :=
  Successful (x.call.toDataCall.body c x.env x.world).1 ∧
    ∃ reqs, submissions (x.call.toDataCall.body c x.env) x.world = some reqs ∧
      reqs.foldlM (fun db req => S.serve req db) db = some db'

def ledgerAfter (xs : List KeyStep) : Ledger :=
  xs.foldl (fun L x => x.call.apply S.add L) (fun _ => OrdMap.empty)

variable {c S}

theorem served {reqs : Option (List Request)} {req : Request} {db db' : S.DB}
    (h : ∃ rs, reqs = some rs ∧ rs.foldlM (fun db req => S.serve req db) db = some db')
    (hreq : reqs = some [req]) : S.serve req db = some db' := by
  obtain ⟨rs,hrs,hserve⟩ := h
  rw [hreq] at hrs
  cases hrs
  rw [List.foldlM_cons] at hserve
  obtain ⟨next,hnext,hrest⟩ := Option.bind_eq_some_iff.mp hserve
  cases hrest
  exact hnext

theorem nothing_served {reqs : Option (List Request)} {db db' : S.DB}
    (h : ∃ rs, reqs = some rs ∧ rs.foldlM (fun db req => S.serve req db) db = some db')
    (hreq : reqs = some []) : db' = db := by
  obtain ⟨rs,hrs,hserve⟩ := h
  rw [hreq] at hrs
  cases hrs
  exact (Option.some.inj hserve).symm

theorem update_holds {k : AsKey} {db db' : S.DB} {L : Ledger} {m : Bins}
    (hL : Holds S.toServer db L) (hrep : Represents (S.bin db' k) m)
    (hframe : ∀ j, j ≠ k → S.bin db' j = S.bin db j) :
    Holds S.toServer db' (Function.update L k m) := by
  intro j
  by_cases hj : j = k
  · rw [hj,Function.update_self]
    exact hrep
  · rw [Function.update_of_ne hj,hframe j hj]
    exact hL j

theorem same_holds {db : S.DB} {L : Ledger} {k : AsKey} (hL : Holds S.toServer db L) :
    Holds S.toServer db (Function.update L k (L k)) := by
  rwa [Function.update_eq_self]

theorem put_holds (hS : S.Documented) {k : AsKey} {bs : List Pair} {ttl : UInt32}
    {db db' : S.DB} {L : Ledger} (hL : Holds S.toServer db L) (hbs : ∀ b ∈ bs, Named c b)
    (h : S.serve (.keyPut k (fill c nativeValue bs ⟨bs.length,ttl,[]⟩)) db = some db') :
    Holds S.toServer db' (Function.update L k
      (bs.foldl (fun m b => m.insert b.1 b.2) (L k))) := by
  refine update_holds hL ?_ (fun j hj => hS.put_frame k _ db db' j h hj)
  intro n
  rw [hS.put_bins k _ db db' n h]
  exact fill_represents hbs (hL k) n

/-- One call keeps server and ledger together. -/
theorem call_holds (hc : TakesBinNames c) (hS : S.Documented) {x : KeyStep} {db db' : S.DB}
    {L : Ledger} (hL : Holds S.toServer db L) (h : Performs c S x db db') :
    Holds S.toServer db' (x.call.apply S.add L) := by
  obtain ⟨env,w,call⟩ := x
  obtain ⟨hok,hserved⟩ := h
  cases call with
  | keyPut k bins =>
    rcases put_requests k bins hok with ⟨rfl,hreq⟩ | hreq
    · rw [nothing_served hserved hreq]
      exact same_holds hL
    · have hnamed : ∀ b ∈ bins.map CharBin.pair, Named c b := by
        intro b hb
        obtain ⟨x,-,rfl⟩ := List.mem_map.mp hb
        exact char_named hc x
      have hput := served hserved hreq
      have hlength : (bins.map CharBin.pair).length = bins.length := List.length_map _
      rw [← hlength] at hput
      have hheld := put_holds hS hL hnamed hput
      rw [List.foldl_map] at hheld
      exact hheld
  | keyInc k bins =>
    rcases inc_requests hc k bins hok with ⟨rfl,hreq⟩ | hreq
    · rw [nothing_served hserved hreq]
      exact same_holds hL
    · have hrun : S.operate k.asKey _ db = some db' := served hserved hreq
      refine update_holds hL ?_ (fun j hj => hS.operate_frame _ _ db db' j hrun hj)
      exact incrs_represent hS bins (hL k.asKey) (hS.operate_applies _ _ db db' hrun)
  | keyRemove k =>
    have hrun : S.remove k.asKey db = some db' := served hserved (remove_requests k hok)
    refine update_holds hL (fun n => ?_) (fun j hj => hS.remove_frame _ db db' j hrun hj)
    exact hS.remove_bins _ db db' n hrun
  | binaryPut k bins ttl =>
    rcases binaryPut_requests k bins ttl hok with ⟨rfl,hreq⟩ | ⟨t,hreq⟩
    · rw [nothing_served hserved hreq]
      exact same_holds hL
    · have hnamed : ∀ b ∈ bins.map FullBin.pair, Named c b := by
        intro b hb
        obtain ⟨x,-,rfl⟩ := List.mem_map.mp hb
        exact full_named hc x
      have hput := served hserved hreq
      have hlength : (bins.map FullBin.pair).length = bins.length := List.length_map _
      rw [← hlength] at hput
      have hheld := put_holds hS hL hnamed hput
      rw [List.foldl_map] at hheld
      exact hheld
  | binaryRemove k names ttl =>
    cases names with
    | nil =>
      rw [nothing_served hserved (remove_nothing hok)]
      exact same_holds hL
    | cons n names =>
      obtain ⟨k',t,hk,hreq⟩ := remove_submits hc hok
      rw [k.binaryKey_eq] at hk
      cases hk
      have hrun : S.put k.asKey _ db = some db' := served hserved hreq
      refine update_holds hL (fun j => ?_) (fun j hj => hS.put_frame _ _ db db' j hrun hj)
      refine (BinaryRemovals.removed_bin hS.toDocumented hrun).trans ?_
      show _ = (((L k.asKey).erase n.data).lookup j).map nativeValue
      rw [OrdMap.lookup_erase]
      by_cases hj : n.data = j
      · rw [if_pos hj,if_pos hj.symm]
        rfl
      · rw [if_neg hj,if_neg (Ne.symm hj)]
        exact hL k.asKey j

/-- After any run of successful calls the server holds the ledger of the run. -/
theorem run_holds (hc : TakesBinNames c) (hS : S.Documented) {xs : List KeyStep} {db : S.DB}
    (h : Trace (Performs c S) xs S.start db) : Holds S.toServer db (ledgerAfter S xs) := by
  refine trace_simulates (Performs c S) (R := fun db L => Holds S.toServer db L) xs ?_ ?_ h
  · intro x _ db db' L hL hx
    exact call_holds hc hS hL hx
  · intro k n
    rw [hS.start_empty]
    rfl

end Runs

section Increments
variable {c : Client} {S : CountServer}

/-- Sums do not depend on their order. -/
structure AddsUp (add : ℤ → ℤ → ℤ) : Prop where
  comm : ∀ v w, add v w = add w v
  right_comm : ∀ i v w, add (add i v) w = add (add i w) v

def KeyCall.IsInc (x : KeyCall) : Prop := ∃ k bins, x = .keyInc k bins

def incBin (add : ℤ → ℤ → ℤ) (m : Bins) (b : CharBin) : Bins :=
  m.insert b.name.data (.integer (KeyCall.increased add b.value (m.lookup b.name.data)))

theorem incBin_comm {add : ℤ → ℤ → ℤ} (hadd : AddsUp add) (m : Bins) (a b : CharBin) :
    incBin add (incBin add m a) b = incBin add (incBin add m b) a := by
  apply OrdMap.ext
  intro n
  unfold incBin
  simp only [OrdMap.lookup_insert]
  by_cases hab : a.name.data = b.name.data
  · rw [hab]
    by_cases hn : n = b.name.data
    · simp only [if_pos hn,if_true]
      cases hold : m.lookup b.name.data with
      | none => simp [KeyCall.increased,hadd.comm a.value]
      | some x =>
        cases x with
        | integer i => simp [KeyCall.increased,hadd.right_comm i a.value]
        | binary data => simp [KeyCall.increased,hadd.comm a.value]
        | integers is => simp [KeyCall.increased,hadd.comm a.value]
    · simp [hn]
  · by_cases ha : n = a.name.data
    · simp [ha,hab]
    · by_cases hb : n = b.name.data
      · simp [hb,Ne.symm hab]
      · simp [ha,hb]

theorem incs_comm {add : ℤ → ℤ → ℤ} (hadd : AddsUp add) {x y : KeyCall} (hx : x.IsInc)
    (hy : y.IsInc) (L : Ledger) : y.apply add (x.apply add L) = x.apply add (y.apply add L) := by
  obtain ⟨k,as,rfl⟩ := hx
  obtain ⟨j,bs,rfl⟩ := hy
  have heffect : ∀ (k : CharKey) (bins : List CharBin) (m : Bins),
      (KeyCall.keyInc k bins).effect add m = bins.foldl (incBin add) m := fun _ _ _ => rfl
  unfold KeyCall.apply
  show Function.update (Function.update L k.asKey _) j.asKey _ =
    Function.update (Function.update L j.asKey _) k.asKey _
  simp only [heffect]
  change Function.update (Function.update L k.asKey _) j.asKey
      (bs.foldl (incBin add) (Function.update L k.asKey (as.foldl (incBin add) (L k.asKey)) j.asKey)) =
    Function.update (Function.update L j.asKey _) k.asKey
      (as.foldl (incBin add) (Function.update L j.asKey (bs.foldl (incBin add) (L j.asKey)) k.asKey))
  by_cases hkey : k.asKey = j.asKey
  · rw [hkey,Function.update_self,Function.update_self,Function.update_idem,Function.update_idem,
      ← List.foldl_append,← List.foldl_append]
    congr 1
    exact List.perm_append_comm.foldl_eq' (fun a _ b _ m => incBin_comm hadd m a b) _
  · rw [Function.update_of_ne (Ne.symm hkey),Function.update_of_ne hkey,
      Function.update_comm hkey]
    rfl

/-- The order of increments, by whatever callers, leaves no trace. -/
theorem incs_rearranged (hc : TakesBinNames c) (hS : S.Documented) (hadd : AddsUp S.add)
    {xs ys zs : List KeyStep} (hincs : ∀ y ∈ ys, y.call.IsInc) (hperm : ys.Perm zs)
    {db db' : S.DB} (h : Trace (Performs c S) (xs ++ ys) S.start db)
    (h' : Trace (Performs c S) (xs ++ zs) S.start db') :
    ∀ k n, S.bin db k n = S.bin db' k n := by
  have hledger : ledgerAfter S (xs ++ ys) = ledgerAfter S (xs ++ zs) := by
    unfold ledgerAfter
    rw [List.foldl_append,List.foldl_append]
    exact hperm.foldl_eq' (fun x hx y hy L => incs_comm hadd (hincs x hx) (hincs y hy) L) _
  intro k n
  rw [run_holds hc hS h k n,run_holds hc hS h' k n,hledger]

def charKey : CharKey :=
  ⟨⟨"test",by decide,by decide⟩,⟨"users",by decide,by decide⟩,⟨"ann",by decide,by decide⟩⟩

def charBin (v : ℤ) (h : Int64 v) : CharBin := ⟨⟨"n",by decide,by decide⟩,v,h⟩

def incStep (v : ℤ) (h : Int64 v) : KeyStep :=
  ⟨plainEnv,connectedWorld,.keyInc charKey [charBin v h]⟩

theorem one_fits : Int64 1 := by decide

theorem two_fits : Int64 2 := by decide

def oneThenTwo : List KeyStep := [incStep 1 one_fits,incStep 2 two_fits]

def twoThenOne : List KeyStep := [incStep 2 two_fits,incStep 1 one_fits]

theorem two_incs_rearranged : ∃ db db',
    Trace (Performs plainClient plainCountServer) oneThenTwo plainCountServer.start db ∧
    Trace (Performs plainClient plainCountServer) twoThenOne plainCountServer.start db' ∧
    ∀ k n, plainCountServer.bin db k n = plainCountServer.bin db' k n := by
  have hrun : ∃ db,
      Trace (Performs plainClient plainCountServer) oneThenTwo plainCountServer.start db :=
    ⟨_,_,⟨⟨_,rfl⟩,_,rfl,rfl⟩,_,⟨⟨_,rfl⟩,_,rfl,rfl⟩,rfl⟩
  have hrun' : ∃ db,
      Trace (Performs plainClient plainCountServer) twoThenOne plainCountServer.start db :=
    ⟨_,_,⟨⟨_,rfl⟩,_,rfl,rfl⟩,_,⟨⟨_,rfl⟩,_,rfl,rfl⟩,rfl⟩
  obtain ⟨db,hdb⟩ := hrun
  obtain ⟨db',hdb'⟩ := hrun'
  have hadd : AddsUp plainCountServer.add := ⟨Int.add_comm,Int.add_right_comm⟩
  have hincs : ∀ y ∈ oneThenTwo, y.call.IsInc := by
    intro y hy
    rcases List.mem_pair.mp hy with rfl | rfl
    · exact ⟨_,_,rfl⟩
    · exact ⟨_,_,rfl⟩
  have hperm : oneThenTwo.Perm twoThenOne := List.Perm.swap _ _ []
  exact ⟨db,db',hdb,hdb',@incs_rearranged plainClient plainCountServer
    (fun _ hn => decide_eq_true hn) plainCountServer_documented hadd [] _ _ hincs hperm _ _ hdb hdb'⟩

end Increments

end AspikePort.KeyLedger
