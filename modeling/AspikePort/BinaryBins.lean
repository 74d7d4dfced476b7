import AspikePort.RecordReads

/-!
# What binary_put stores and binary_get brings back

A put stores the binaries, integers and lists of integers it is given, except
that an integer of more than 64 bits is passed over without a word, alone as
well as in a list. A get brings back what was stored as long as every bin of
the record can be read.
-/

set_option autoImplicit false

namespace AspikePort.BinaryBins
open AspikePort.ErlangTerms AspikePort.ClientValues AspikePort.EarlyReturn AspikePort.NifWorld
open AspikePort.CdtPut AspikePort.PutAgreement AspikePort.ValueFormat AspikePort.FormatSafety
open AspikePort.FallibleLoops AspikePort.RecordServer AspikePort.SyncCalls AspikePort.StoreCalls
open AspikePort.RecordReads Proc

section Values

/-- The documented types of a bin value. -/
inductive BinValue where
  | binary (data : Bytes)
  | integer (i : ℤ)
  | integers (is : List ℤ)

def Int64 (i : ℤ) : Prop := -(2:ℤ)^63 ≤ i ∧ i < (2:ℤ)^63

instance (i : ℤ) : Decidable (Int64 i) := inferInstanceAs (Decidable (_ ∧ _))

def BinValue.term : BinValue → Term
  | .binary data => .binary data
  | .integer i => .integer i
  | .integers is => ofList (is.map .integer)

/-- Every integer of the value has 64 bits. -/
def BinValue.Fits : BinValue → Prop
  | .binary _ => True
  | .integer i => Int64 i
  | .integers is => ∀ i ∈ is, Int64 i

def BinValue.stored : BinValue → Option AsVal
  | .binary data => some (.bytes data)
  | .integer i => if Int64 i then some (.integer i) else none
  | .integers is => some (.list ((is.filter (fun i => Int64 i)).map .integer))

def pairTerm (name : Bytes) (v : BinValue) : Term := .tuple [.binary name,v.term]

theorem getInt64_integer (i : ℤ) : getInt64 (.integer i) = if Int64 i then some i else none := rfl

theorem foldl_integers {f : List AsVal → Term → List AsVal}
    (hf : ∀ s i, f s (.integer i) = if Int64 i then s ++ [.integer i] else s) (is : List ℤ)
    (s : List AsVal) : (is.map Term.integer).foldl f s =
      s ++ (is.filter (fun i => Int64 i)).map .integer := by
  induction is generalizing s with
  | nil => exact (List.append_nil s).symm
  | cons i is ih =>
    rw [List.map_cons,List.foldl_cons,ih,hf]
    by_cases hi : Int64 i
    · simp [hi]
    · simp [hi]

theorem collectIntegers_integers (is : List ℤ) :
    collectIntegers is.length (ofList (is.map .integer)) =
      (is.filter (fun i => Int64 i)).map .integer := by
  have hlength : is.length = (is.map Term.integer).length := (List.length_map _).symm
  unfold collectIntegers
  rw [hlength,cells_ofList,foldl_integers,List.nil_append]
  intro s i
  rw [getInt64_integer]
  by_cases hi : Int64 i
  · simp [hi]
  · simp [hi]

variable (c : Client)

def setStored (rec : PutRecord) (name : Bytes) (v : BinValue) : PutRecord :=
  v.stored.elim rec (setBin c rec name)

theorem putBinaryBin_pair (rec : PutRecord) (name : Bytes) (v : BinValue) :
    putBinaryBin c rec (pairTerm name v) = .ok (setStored c rec name v) := by
  cases v with
  | binary data => rfl
  | integer i =>
    by_cases hi : Int64 i
    · have hget : getInt64 (.integer i) = some i := by rw [getInt64_integer,if_pos hi]
      have hstored : (BinValue.integer i).stored = some (.integer i) := if_pos hi
      unfold setStored
      rw [hstored]
      simp only [putBinaryBin,pairTerm,BinValue.term,getTuple,orBadarg,bind,Except.bind,
        inspectBinary,isNumber,hget]
      rfl
    · have hget : getInt64 (.integer i) = none := by rw [getInt64_integer,if_neg hi]
      have hstored : (BinValue.integer i).stored = none := if_neg hi
      unfold setStored
      rw [hstored]
      simp only [putBinaryBin,pairTerm,BinValue.term,getTuple,orBadarg,bind,Except.bind,
        inspectBinary,isNumber,hget]
      rfl
  | integers is =>
    have hlist : putBinaryBin c rec (pairTerm name (.integers is)) =
        (orBadarg (getListLength (ofList (is.map .integer))) >>= fun length =>
          pure (setBin c rec name (.list (collectIntegers length (ofList (is.map .integer)))))) := by
      cases is with
      | nil => rfl
      | cons i is => rfl
    rw [hlist,getListLength_ofList,List.length_map]
    change Except.ok (setBin c rec name (.list (collectIntegers is.length _))) = _
    rw [collectIntegers_integers]
    rfl

end Values

section Records
variable {c : Client}

abbrev NamedValue := BinName × BinValue

def binNames (bs : List NamedValue) : List Bytes := bs.map (fun b => b.1.data)

def pairTerms (bs : List NamedValue) : Term := ofList (bs.map (fun b => pairTerm b.1.data b.2))

def storedBins (bs : List NamedValue) : List (Bytes × AsVal) :=
  bs.filterMap (fun b => b.2.stored.map (Prod.mk b.1.data))

theorem setStored_new (hc : TakesBinNames c) {rec : PutRecord} {b : NamedValue}
    (hnew : b.1.data ∉ rec.bins.map Prod.fst) (hroom : rec.bins.length < rec.capacity) :
    setStored c rec b.1.data b.2 = { rec with bins := rec.bins ++ storedBins [b] } := by
  have htake := b.1.taken hc
  unfold setStored storedBins
  cases h : b.2.stored with
  | none => simp [h]
  | some a =>
    rw [Option.elim_some]
    unfold setBin PutRecord.set
    rw [if_neg (not_not.mpr htake),b.1.cStr_eq,if_neg hnew,if_pos hroom]
    simp [h]

theorem storedBins_cons (b : NamedValue) (bs : List NamedValue) :
    storedBins (b::bs) = storedBins [b] ++ storedBins bs := by
  unfold storedBins
  rw [← List.filterMap_append]
  rfl

theorem storedBins_single_length (b : NamedValue) : (storedBins [b]).length ≤ 1 := by
  unfold storedBins
  exact List.length_filterMap_le _ _

theorem storedBins_names (bs : List NamedValue) :
    ((storedBins bs).map Prod.fst).Sublist (binNames bs) := by
  unfold storedBins binNames
  induction bs with
  | nil => exact List.Sublist.slnil
  | cons b bs ih =>
    cases h : b.2.stored with
    | none =>
      rw [List.filterMap_cons_none (by rw [h]; rfl),List.map_cons]
      exact ih.cons _
    | some a =>
      rw [List.filterMap_cons_some (by rw [h]; rfl),List.map_cons,List.map_cons]
      exact ih.cons_cons _

/-- The names differ, so every value that is stored gets a bin of its own. -/
theorem foldl_setStored (hc : TakesBinNames c) (bs : List NamedValue) (rec : PutRecord)
    (hnames : (rec.bins.map Prod.fst ++ binNames bs).Nodup)
    (hroom : rec.bins.length+bs.length ≤ rec.capacity) :
    bs.foldl (fun rec b => setStored c rec b.1.data b.2) rec =
      { rec with bins := rec.bins ++ storedBins bs } := by
  induction bs generalizing rec with
  | nil =>
    rw [storedBins,List.filterMap_nil,List.append_nil]
    rfl
  | cons b bs ih =>
    have hlength := storedBins_single_length b
    have hnew : b.1.data ∉ rec.bins.map Prod.fst := by
      intro h
      exact List.disjoint_of_nodup_append hnames h List.mem_cons_self
    rw [List.foldl_cons,setStored_new hc hnew (by rw [List.length_cons] at hroom; omega),ih]
    · rw [storedBins_cons b bs,List.append_assoc]
    · apply List.Nodup.sublist _ hnames
      rw [List.map_append,List.append_assoc]
      apply List.Sublist.append_left
      exact (storedBins_names [b]).append_right (binNames bs)
    · rw [List.length_append]
      rw [List.length_cons] at hroom
      change rec.bins.length+(storedBins [b]).length+bs.length ≤ rec.capacity
      omega

theorem putBins_eq (hc : TakesBinNames c) {bs : List NamedValue} (hnames : (binNames bs).Nodup)
    (ttl : UInt32) : cellsExcept (fun s => .ok s) (putBinaryBin c) bs.length (pairTerms bs)
      ⟨bs.length,ttl,[]⟩ = .ok ⟨bs.length,ttl,storedBins bs⟩ := by
  have hlength : bs.length = (bs.map (fun b => pairTerm b.1.data b.2)).length :=
    (List.length_map _).symm
  have hloop := cellsExcept_ofList (fun s => .ok s) (putBinaryBin c)
    (bs.map (fun b => pairTerm b.1.data b.2)) ⟨bs.length,ttl,[]⟩
  rw [← hlength] at hloop
  unfold pairTerms
  rw [hloop,List.foldlM_map,foldlM_eq_ok (g := fun rec (b : NamedValue) =>
    setStored c rec b.1.data b.2) bs (fun b _ rec => putBinaryBin_pair c rec b.1.data b.2),
    foldl_setStored hc bs ⟨bs.length,ttl,[]⟩ hnames (by simp)]
  rfl

theorem stored_ne_nil {v : BinValue} {a : AsVal} (h : v.stored = some a) : a ≠ .nil := by
  rintro rfl
  cases v with
  | integer i =>
    change (if Int64 i then some (AsVal.integer i) else none) = some .nil at h
    split_ifs at h
    cases h
  | _ => cases h

theorem find_unlisted {bs : List NamedValue} {n : Bytes} (hn : n ∉ binNames bs) :
    (storedBins bs).find? (fun b => b.1 = n) = none := by
  rw [List.find?_eq_none]
  intro e he hname
  apply hn
  rw [← of_decide_eq_true hname]
  exact (storedBins_names bs).subset (List.mem_map_of_mem he)

theorem find_listed {bs : List NamedValue} (hnames : (binNames bs).Nodup) {b : NamedValue}
    (hb : b ∈ bs) : ((storedBins bs).find? (fun e => e.1 = b.1.data)).map Prod.snd = b.2.stored := by
  have hone : ∀ d : NamedValue, ((storedBins [d]).find? (fun e => e.1 = b.1.data)).map Prod.snd =
      if d.1.data = b.1.data then d.2.stored else none := by
    intro d
    unfold storedBins
    cases h : d.2.stored with
    | none => simp [h]
    | some a => by_cases hd : d.1.data = b.1.data <;> simp [h,hd]
  induction bs with
  | nil => exact absurd hb List.not_mem_nil
  | cons d bs ih =>
    obtain ⟨hd,hrest⟩ := List.nodup_cons.mp hnames
    rw [storedBins_cons,List.find?_append,Option.map_or,hone]
    rcases List.mem_cons.mp hb with rfl | hb
    · rw [if_pos rfl,find_unlisted hd]
      cases b.2.stored <;> rfl
    · have hne : d.1.data ≠ b.1.data := by
        intro h
        apply hd
        change d.1.data ∈ _
        rw [h]
        exact List.mem_map_of_mem (f := fun b : NamedValue => b.1.data) hb
      rw [if_neg hne,Option.none_or,ih hrest hb]

theorem putBin_listed {bs : List NamedValue} (hnames : (binNames bs).Nodup) {b : NamedValue}
    (hb : b ∈ bs) (capacity : ℕ) (ttl : UInt32) (old : Option AsVal) :
    Server.putBin ⟨capacity,ttl,storedBins bs⟩ b.1.data old = b.2.stored.or old := by
  unfold Server.putBin
  rw [find_listed hnames hb]
  cases h : b.2.stored with
  | none => rfl
  | some a =>
    have hne := stored_ne_nil h
    cases a with
    | nil => exact absurd rfl hne
    | _ => rfl

theorem putBin_unlisted {bs : List NamedValue} {n : Bytes} (hn : n ∉ binNames bs) (capacity : ℕ)
    (ttl : UInt32) (old : Option AsVal) :
    Server.putBin ⟨capacity,ttl,storedBins bs⟩ n old = old := by
  unfold Server.putBin
  rw [find_unlisted hn]
  rfl

end Records

section Runs
variable {c : Client} {env : Env} {w : World} {ns set key : Bytes} {ttl : Term}

def putCall (c : Client) (env : Env) (ns set key : Bytes) (bs : List NamedValue) (ttl : Term) :
    Nif Term :=
  binaryPutSync c env (.binary ns) (.binary set) (.binary key) (pairTerms bs) ttl

def getCall (c : Client) (env : Env) (ns set key : Bytes) : Nif Term :=
  binaryGetSync c env (.binary ns) (.binary set) (.binary key)

def putRequest (ns set key : Bytes) (bs : List NamedValue) (ttl : ℤ) : Request :=
  .keyPut (asKeyInitStr ns set key) ⟨bs.length,UInt32.ofInt ttl,storedBins bs⟩

theorem put_checked {bs : List NamedValue} (hbs : bs ≠ []) {t : ℤ} (httl : getLong ttl = some t) :
    putCall c env ns set key bs ttl w = (isConnected >>= fun _ =>
      lift (cellsExcept (fun s => .ok s) (putBinaryBin c) bs.length (pairTerms bs)
        ⟨bs.length,UInt32.ofInt t,[]⟩) >>= fun rec =>
      submit env (.keyPut (asKeyInitStr ns set key) rec) >>= fun r =>
        pure (answerString r "key_put")) w := by
  have hlength : getListLength (pairTerms bs) = some bs.length := by
    unfold pairTerms
    rw [getListLength_ofList,List.length_map]
  have hne : bs.length ≠ 0 := by simpa using hbs
  unfold putCall binaryPutSync
  rw [binaryKey_binary,lift_ok_bind_run,hlength,orBadarg_some,lift_ok_bind_run,httl,orBadarg_some,
    lift_ok_bind_run,if_neg hne]

theorem put_run (hc : TakesBinNames c) {bs : List NamedValue} (hbs : bs ≠ [])
    (hnames : (binNames bs).Nodup) {t : ℤ} (httl : getLong ttl = some t)
    (hw : w.isConnectedFlag = true) : putCall c env ns set key bs ttl w =
      (.ok (answerString (env.respond (w.submitted ++ [putRequest ns set key bs t])) "key_put"),
        afterSubmit (putRequest ns set key bs t) w) := by
  rw [put_checked hbs httl,isConnected_bind_run _ hw,putBins_eq hc hnames,lift_ok_bind_run,
    submit_bind_run]
  rfl

/-- A put that is answered with ok has submitted the bins. -/
theorem put_submits (hc : TakesBinNames c) {bs : List NamedValue} (hbs : bs ≠ [])
    (hnames : (binNames bs).Nodup) (h : Successful (putCall c env ns set key bs ttl w).1) :
    ∃ t, submissions (putCall c env ns set key bs ttl) w = some [putRequest ns set key bs t] := by
  cases httl : getLong ttl with
  | none =>
    have hlength : getListLength (pairTerms bs) = some bs.length := by
      unfold pairTerms
      rw [getListLength_ofList,List.length_map]
    unfold putCall binaryPutSync at h
    rw [binaryKey_binary,lift_ok_bind_run,hlength,orBadarg_some,lift_ok_bind_run,httl] at h
    exact absurd h not_successful_badarg
  | some t =>
    by_cases hw : w.isConnectedFlag = true
    · refine ⟨t,?_⟩
      unfold submissions
      rw [put_run hc hbs hnames httl hw]
      simp [afterSubmit]
    · rw [put_checked hbs httl,isConnected_bind_refused _ hw] at h
      exact absurd h not_successful_notConnected

theorem get_run (hw : w.isConnectedFlag = true) : (getCall c env ns set key w).1 =
    (answerRecord (env.respond (w.submitted ++ [.keyGet (asKeyInitStr ns set key) none]))
      (dumpBinaryRecords c) (afterSubmit (.keyGet (asKeyInitStr ns set key) none) w)).1 := by
  unfold getCall binaryGetSync
  rw [binaryKey_binary,lift_ok_bind_run,isConnected_bind_run _ hw,submit_bind_run]

end Runs

section RoundTrip
variable {c : Client} {S : Server} {db db' : S.DB} {env env' : Env} {w w' : World}
variable {ns set key : Bytes} {ttl : Term} {bs : List NamedValue}

/-- The answer lists each value that was given and each other bin of the record
as it was, once and nothing else. -/
def BringsBack (c : Client) (old : Content) (bs : List NamedValue) (reply : Except Reply Term) :
    Prop :=
  ∃ shown : List (Bytes × Term),
    reply = .ok (makeTuple2 atomOk
      (ofList (shown.map (fun b => makeTuple2 (.binary b.1) b.2)))) ∧
    (shown.map Prod.fst).Nodup ∧ (∀ b ∈ bs, (b.1.data,b.2.term) ∈ shown) ∧
    (∀ n v, n ∉ binNames bs → old n = some v → ∃ t, formatValueOut c v = .ok t ∧ (n,t) ∈ shown) ∧
    ∀ b ∈ shown, b.1 ∈ binNames bs ∨ ∃ v, old b.1 = some v ∧ formatValueOut c v = .ok b.2

/-- A bin of the record as a get finds it after the put. -/
theorem bin_after (hS : S.Documented) (hnames : (binNames bs).Nodup) {k : AsKey} {capacity : ℕ}
    {ttl : UInt32} (hput : S.put k ⟨capacity,ttl,storedBins bs⟩ db = some db') :
    (∀ b ∈ bs, S.bin db' k b.1.data = b.2.stored.or (S.bin db k b.1.data)) ∧
      ∀ n ∉ binNames bs, S.bin db' k n = S.bin db k n := by
  constructor
  · intro b hb
    rw [hS.put_bins k _ db db' b.1.data hput,putBin_listed hnames hb]
  · intro n hn
    rw [hS.put_bins k _ db db' n hput,putBin_unlisted hn]

theorem fits_stored {v : BinValue} (h : v.Fits) :
    ∃ a, v.stored = some a ∧ formatValueOut c a = .ok v.term := by
  cases v with
  | binary data => exact ⟨.bytes data,rfl,rfl⟩
  | integer i => exact ⟨.integer i,if_pos h,rfl⟩
  | integers is =>
    have hfilter : is.filter (fun i => Int64 i) = is := by
      rw [List.filter_eq_self]
      intro i hi
      exact decide_eq_true (h i hi)
    have hmap : (is.map AsVal.integer).mapM integerFromval = .ok is := by
      clear h hfilter
      induction is with
      | nil => rfl
      | cons i is ih =>
        rw [List.map_cons,List.mapM_cons,ih]
        rfl
    refine ⟨.list (is.map .integer),by rw [BinValue.stored,hfilter],?_⟩
    change ((is.map AsVal.integer).mapM integerFromval >>= _) = _
    rw [hmap]
    rfl

theorem ofList_ne_integer (ts : List Term) (i : ℤ) : ofList ts ≠ .integer i := by
  cases ts with
  | nil => exact fun h => nomatch h
  | cons t ts => exact fun h => nomatch h

theorem format_integer {a : AsVal} {i : ℤ} (h : formatValueOut c a = .ok (.integer i)) :
    a = .integer i := by
  have htext : ∀ v, (.ok (makeString (c.tostring v)) : Except Fault Term) ≠ .ok (.integer i) :=
    fun v hv => ofList_ne_integer _ _ (Except.ok.inj hv)
  cases a with
  | integer j => exact congrArg AsVal.integer (Term.integer.inj (Except.ok.inj h))
  | list xs =>
    change (xs.mapM integerFromval >>= fun l => pure (ofList (l.map .integer))) = _ at h
    cases hl : xs.mapM integerFromval with
    | error f =>
      rw [hl] at h
      cases h
    | ok l =>
      rw [hl] at h
      exact absurd (Except.ok.inj h) (ofList_ne_integer _ _)
  | map es =>
    change (es.foldlM (formatEntry c) [] >>= fun l => pure (ofList l)) = _ at h
    cases hl : es.foldlM (formatEntry c) [] with
    | error f =>
      rw [hl] at h
      cases h
    | ok l =>
      rw [hl] at h
      exact absurd (Except.ok.inj h) (ofList_ne_integer _ _)
  | bytes b => cases h
  | string b => cases h
  | _ => exact absurd h (htext _)

/-- What is shown in place of an integer that was passed over is not it. -/
theorem shown_fits {v : BinValue} {old : Option AsVal} {a : AsVal}
    (hwidth : ∀ i, old = some (.integer i) → Int64 i) (ha : v.stored.or old = some a)
    (hshow : formatValueOut c a = .ok v.term) : v.Fits := by
  cases v with
  | binary data => trivial
  | integer i =>
    by_contra hi
    have hstored : (BinValue.integer i).stored = none := if_neg hi
    rw [hstored,Option.none_or] at ha
    rw [format_integer hshow] at ha
    exact hi (hwidth i ha)
  | integers is =>
    obtain ⟨xs,hxs,rfl⟩ : ∃ xs : List ℤ, xs = is.filter (fun i => Int64 i) ∧
        a = .list (xs.map .integer) := ⟨_,rfl,(Option.some.inj ha).symm⟩
    have hfits : ∀ i ∈ xs, Int64 i := by
      intro i hi
      rw [hxs] at hi
      exact of_decide_eq_true (List.mem_filter.mp hi).2
    have hfilter : xs.filter (fun i => Int64 i) = xs := by
      rw [List.filter_eq_self]
      intro i hi
      exact decide_eq_true (hfits i hi)
    obtain ⟨b,hb,hformat⟩ := fits_stored (c := c) (v := .integers xs) hfits
    rw [BinValue.stored,hfilter] at hb
    rw [← Option.some.inj hb,hshow] at hformat
    have hterms := ofList_injective (Except.ok.inj hformat)
    have heq : is = xs := List.map_injective_iff.mpr (fun _ _ h => Term.integer.inj h) hterms
    rw [heq]
    exact hfits

theorem answer_dump_iff {x : Except Fault Term} {v : World} {t : Term} :
    ((lift (orFault x) >>= fun msg => pure (makeTuple2 atomOk msg) : Nif Term) v).1 =
      .ok (makeTuple2 atomOk t) ↔ x = .ok t := by
  cases x with
  | error f => exact iff_of_false (fun h => nomatch h) (fun h => nomatch h)
  | ok u =>
    constructor
    · intro h
      have hparts := Term.tuple.inj (Except.ok.inj h)
      rw [(List.cons.inj (List.cons.inj hparts).2).1]
    · intro h
      rw [← Except.ok.inj h]
      rfl

theorem answerRecord_ok_iff {r : Response} {v : World} {t : Term} : (answerRecord r
    (dumpBinaryRecords c) v).1 = .ok (makeTuple2 atomOk t) ↔
      ∃ rec, r.status = aerospikeOk ∧ r.record = some rec ∧ dumpBinaryRecords c rec = .ok t := by
  have herror : ∀ msg, errorString msg ≠ makeTuple2 atomOk t := by
    intro msg h
    simp [errorString,makeTuple2,atomError,atomOk] at h
  unfold answerRecord
  by_cases hstatus : r.status = aerospikeOk
  · rw [if_neg (not_not.mpr hstatus)]
    cases r.record with
    | none =>
      apply iff_of_false
      · exact fun h => herror _ (Except.ok.inj h)
      · rintro ⟨rec,-,h,-⟩
        cases h
    | some rec =>
      apply answer_dump_iff.trans
      constructor
      · exact fun h => ⟨rec,hstatus,rfl,h⟩
      · rintro ⟨rec',-,h,ht⟩
        cases h
        exact ht
  · rw [if_pos hstatus]
    apply iff_of_false
    · exact fun h => herror _ (Except.ok.inj h)
    · rintro ⟨rec,h,-⟩
      exact hstatus h

def shownValue (c : Client) (v : AsVal) : Term := (formatValueOut c v).toOption.getD .nil

theorem shownValue_eq {v : AsVal} (h : Readable v) : formatValueOut c v = .ok (shownValue c v) := by
  obtain ⟨t,ht⟩ := (formatValueOut_succeeds c v).mpr h
  rw [shownValue,ht]
  rfl

theorem dump_readable {rec : Record} (hkey : rec.key = none) (h : ∀ b ∈ rec.bins, Readable b.2) :
    dumpBinaryRecords c rec = .ok (ofList (rec.bins.reverse.map
      (fun b => makeTuple2 (.binary b.1) (shownValue c b.2)))) :=
  dumpWith_bins c hkey (fun b hb => shownValue_eq (h b hb))

/-- What a get that is answered with ok shows. -/
theorem answer_entries (hS : S.Documented) {k : AsKey} (hget : Delivers S db' k env')
    {reqs : List Request} {v : World} {shown : List (Bytes × Term)}
    (h : (answerRecord (env'.respond (reqs ++ [.keyGet k none])) (dumpBinaryRecords c) v).1 =
      .ok (makeTuple2 atomOk (ofList (shown.map (fun b => makeTuple2 (.binary b.1) b.2))))) :
    ∃ rec, S.get k db' = some rec ∧ (∀ b ∈ rec.bins, Readable b.2) ∧
      ∀ b ∈ shown, ∃ a, S.bin db' k b.1 = some a ∧ formatValueOut c a = .ok b.2 := by
  obtain ⟨rec,hstatus,hrecord,hdump⟩ := answerRecord_ok_iff.mp h
  have hreply := hget reqs none
  cases hrec : S.get k db' with
  | none =>
    rw [hrec] at hreply
    exact absurd hstatus hreply
  | some rec' =>
    rw [hrec] at hreply
    cases Option.some.inj (hreply.2.symm.trans hrecord)
    have hkey := hS.get_key k db' rec hrec
    have hreadable := (dumpWith_succeeds c hkey).mp ⟨_,hdump⟩
    refine ⟨rec,rfl,hreadable,?_⟩
    rw [dump_readable hkey hreadable] at hdump
    have hsame := ofList_injective (Except.ok.inj hdump)
    intro b hb
    have hmem := List.mem_map_of_mem (f := fun b : Bytes × Term => makeTuple2 (.binary b.1) b.2) hb
    rw [← hsame] at hmem
    obtain ⟨x,hx,heq⟩ := List.mem_map.mp hmem
    have hparts := Term.tuple.inj heq
    have hname : x.1 = b.1 := Term.binary.inj (List.cons.inj hparts).1
    have hvalue : shownValue c x.2 = b.2 := (List.cons.inj (List.cons.inj hparts).2).1
    have hx := List.mem_reverse.mp hx
    refine ⟨x.2,?_,?_⟩
    · rw [← hname]
      exact (hS.get_bins k db' rec x.1 x.2 hrec).mp hx
    · rw [shownValue_eq (hreadable x hx),hvalue]

/-- Given values and those that were there before make up the whole record. -/
theorem bins_readable (hS : S.Documented) {k : AsKey} {rec : Record} {old : Content}
    (hrec : S.get k db' = some rec)
    (hgiven : ∀ b ∈ bs, ∃ a, S.bin db' k b.1.data = some a ∧ formatValueOut c a = .ok b.2.term)
    (hothers : ∀ n ∉ binNames bs, S.bin db' k n = old n)
    (hreadable : ∀ n v, n ∉ binNames bs → old n = some v → Readable v) :
    ∀ b ∈ rec.bins, Readable b.2 := by
  intro x hx
  have hbin := (hS.get_bins k db' rec x.1 x.2 hrec).mp hx
  by_cases hn : x.1 ∈ binNames bs
  · obtain ⟨b,hb,hname⟩ := List.mem_map.mp hn
    obtain ⟨a,ha,hformat⟩ := hgiven b hb
    rw [hname,hbin] at ha
    rw [Option.some.inj ha]
    exact (formatValueOut_succeeds c a).mp ⟨_,hformat⟩
  · exact hreadable x.1 x.2 hn (by rw [← hothers x.1 hn,hbin])

theorem answer_brings {k : AsKey} (hS : S.Documented) (hget : Delivers S db' k env')
    {reqs : List Request} {v : World} {old : Content} (hbs : bs ≠ [])
    (hlisted : ∀ b ∈ bs, S.bin db' k b.1.data = b.2.stored.or (old b.1.data))
    (hothers : ∀ n ∉ binNames bs, S.bin db' k n = old n) (hfits : ∀ b ∈ bs, b.2.Fits)
    (hreadable : ∀ n v, n ∉ binNames bs → old n = some v → Readable v) :
    BringsBack c old bs (answerRecord (env'.respond (reqs ++ [.keyGet k none]))
      (dumpBinaryRecords c) v).1 := by
  have hgiven : ∀ b ∈ bs, ∃ a, S.bin db' k b.1.data = some a ∧
      formatValueOut c a = .ok b.2.term := by
    intro b hb
    obtain ⟨a,ha,hformat⟩ := fits_stored (c := c) (hfits b hb)
    exact ⟨a,by rw [hlisted b hb,ha,Option.some_or],hformat⟩
  obtain ⟨b₀,hb₀⟩ := List.exists_mem_of_ne_nil bs hbs
  have hreply := hget reqs none
  cases hrec : S.get k db' with
  | none =>
    obtain ⟨a,ha,-⟩ := hgiven b₀ hb₀
    rw [(hS.get_missing k db').mp hrec] at ha
    cases ha
  | some rec =>
    rw [hrec] at hreply
    have hbins := fun n v => hS.get_bins k db' rec n v hrec
    have hread := bins_readable hS hrec hgiven hothers hreadable
    have hshown : ∀ n a, S.bin db' k n = some a →
        (n,shownValue c a) ∈ rec.bins.reverse.map (fun b => (b.1,shownValue c b.2)) := by
      intro n a ha
      exact List.mem_map_of_mem (f := fun b : Bytes × AsVal => (b.1,shownValue c b.2))
        (List.mem_reverse.mpr ((hbins n a).mpr ha))
    refine ⟨rec.bins.reverse.map (fun b => (b.1,shownValue c b.2)),?_,?_,?_,?_,?_⟩
    · apply answerRecord_ok_iff.mpr
      refine ⟨rec,hreply.1,hreply.2,?_⟩
      rw [dump_readable (hS.get_key k db' rec hrec) hread,List.map_map]
      rfl
    · rw [List.map_map]
      change (rec.bins.reverse.map Prod.fst).Nodup
      rw [List.map_reverse,List.nodup_reverse]
      exact hS.get_once k db' rec hrec
    · intro b hb
      obtain ⟨a,ha,hformat⟩ := hgiven b hb
      have hmem := hshown b.1.data a ha
      rw [shownValue,hformat] at hmem
      exact hmem
    · intro n v hn hv
      exact ⟨shownValue c v,shownValue_eq (hreadable n v hn hv),
        hshown n v (by rw [hothers n hn,hv])⟩
    · intro b hb
      obtain ⟨x,hx,rfl⟩ := List.mem_map.mp hb
      have hx := List.mem_reverse.mp hx
      have hbin := (hbins x.1 x.2).mp hx
      by_cases hn : x.1 ∈ binNames bs
      · exact Or.inl hn
      · exact Or.inr ⟨x.2,by rw [← hothers x.1 hn,hbin],shownValue_eq (hread x hx)⟩

/-- A put that is answered with ok and performed by the server, and a get that
the client answers with what the server has then. -/
structure PutThenGet (c : Client) (S : Server) (db db' : S.DB) (env env' : Env) (w w' : World)
    (ns set key : Bytes) (ttl : Term) (bs : List NamedValue) : Prop where
  nonempty : bs ≠ []
  names : (binNames bs).Nodup
  /-- The client represents an integer in 64 bits. -/
  width : ∀ n i, S.bin db (asKeyInitStr ns set key) n = some (.integer i) → Int64 i
  put_ok : Successful (putCall c env ns set key bs ttl w).1
  served : ∃ reqs, submissions (putCall c env ns set key bs ttl) w = some reqs ∧
    reqs.foldlM (fun db req => S.serve req db) db = some db'
  connected : w'.isConnectedFlag = true
  delivers : Delivers S db' (asKeyInitStr ns set key) env'

theorem PutThenGet.bins (hc : TakesBinNames c) (hS : S.Documented)
    (h : PutThenGet c S db db' env env' w w' ns set key ttl bs) :
    (∀ b ∈ bs, S.bin db' (asKeyInitStr ns set key) b.1.data =
      b.2.stored.or (S.bin db (asKeyInitStr ns set key) b.1.data)) ∧
      ∀ n ∉ binNames bs, S.bin db' (asKeyInitStr ns set key) n =
        S.bin db (asKeyInitStr ns set key) n := by
  obtain ⟨ttl',hreq⟩ := put_submits hc h.nonempty h.names h.put_ok
  exact bin_after hS h.names (StoreRefinement.served_one h.served hreq)

theorem brought_back (hc : TakesBinNames c) (hS : S.Documented)
    (h : PutThenGet c S db db' env env' w w' ns set key ttl bs)
    (hback : BringsBack c (S.bin db (asKeyInitStr ns set key)) bs
      (getCall c env' ns set key w').1) :
    (∀ b ∈ bs, b.2.Fits) ∧ ∀ n v, n ∉ binNames bs →
      S.bin db (asKeyInitStr ns set key) n = some v → Readable v := by
  obtain ⟨hlisted,hothers⟩ := h.bins hc hS
  rw [get_run h.connected] at hback
  obtain ⟨shown,hshown,-,hgiven,-,-⟩ := hback
  obtain ⟨rec,hrec,hreadable,hentries⟩ := answer_entries hS h.delivers hshown
  constructor
  · intro b hb
    obtain ⟨a,ha,hformat⟩ := hentries _ (hgiven b hb)
    rw [hlisted b hb] at ha
    exact shown_fits (h.width b.1.data) ha hformat
  · intro n v hn hv
    rw [← hothers n hn] at hv
    exact hreadable _ ((hS.get_bins _ db' rec n v hrec).mpr hv)

/-- Exactly when every integer has 64 bits and every other bin of the record can
be read. -/
theorem binary_bins_back_iff (hc : TakesBinNames c) (hS : S.Documented)
    (h : PutThenGet c S db db' env env' w w' ns set key ttl bs) :
    BringsBack c (S.bin db (asKeyInitStr ns set key)) bs (getCall c env' ns set key w').1 ↔
      (∀ b ∈ bs, b.2.Fits) ∧ ∀ n v, n ∉ binNames bs →
        S.bin db (asKeyInitStr ns set key) n = some v → Readable v := by
  constructor
  · exact brought_back hc hS h
  · rintro ⟨hfits,hreadable⟩
    obtain ⟨hlisted,hothers⟩ := h.bins hc hS
    rw [get_run h.connected]
    exact answer_brings hS h.delivers h.nonempty hlisted hothers hfits hreadable

end RoundTrip

section Example

def bytesAndIntegers : List NamedValue :=
  [(binP,.binary [7]),(binQ,.integers [1,-2])]

def bytesAndBignum : List NamedValue := [(binP,.binary [7]),(binQ,.integer (2^63))]

def sampleKey : AsKey := asKeyInitStr [97] [97] [97]

def sampleGet (db : PlainDB) : Env :=
  { plainEnv with respond := fun _ =>
      match getRecord sampleKey db with
      | some rec => ⟨0,0,"",some rec,fun _ => 0⟩
      | none => ⟨2,2,"",none,fun _ => 0⟩ }

theorem sampleGet_delivers (db : PlainDB) : Delivers plainServer db sampleKey (sampleGet db) := by
  intro reqs p
  change match getRecord sampleKey db with | some rec => _ | none => _
  cases h : getRecord sampleKey db with
  | some rec => simp [sampleGet,h,aerospikeOk]
  | none => simp [sampleGet,h,aerospikeOk]

theorem sample_runs (bs : List NamedValue) (hbs : bs ≠ []) (hnames : (binNames bs).Nodup) :
    ∃ db', PutThenGet plainClient plainServer plainServer.start db' plainEnv (sampleGet db')
      connectedWorld connectedWorld [97] [97] [97] (.integer 0) bs := by
  have hc : TakesBinNames plainClient := fun _ hn => decide_eq_true hn
  have httl : getLong (.integer 0) = some 0 := rfl
  have hconnected : connectedWorld.isConnectedFlag = true := rfl
  have hput : Successful (putCall plainClient plainEnv [97] [97] [97] bs (.integer 0)
      connectedWorld).1 := by
    rw [put_run hc hbs hnames httl hconnected]
    exact ⟨_,rfl⟩
  obtain ⟨t,hreq⟩ := put_submits hc hbs hnames hput
  refine ⟨putRecord sampleKey ⟨bs.length,UInt32.ofInt t,storedBins bs⟩ plainServer.start,
    hbs,hnames,?_,hput,⟨_,hreq,rfl⟩,rfl,sampleGet_delivers _⟩
  intro n i hbin
  cases hbin

theorem bytes_and_integers_back : ∃ db', BringsBack plainClient (fun _ => none) bytesAndIntegers
    (getCall plainClient (sampleGet db') [97] [97] [97] connectedWorld).1 := by
  obtain ⟨db',h⟩ := sample_runs bytesAndIntegers (by simp [bytesAndIntegers]) (by decide)
  refine ⟨db',(binary_bins_back_iff (fun _ hn => decide_eq_true hn) plainServer_documented h).mpr ?_⟩
  constructor
  · simp [bytesAndIntegers,BinValue.Fits,Int64]
  · intro n v _ hv
    cases hv

/-- An integer of 65 bits is left out, and the put is answered with ok. -/
theorem bignum_left_out :
    ¬∀ (c : Client) (S : Server), TakesBinNames c → S.Documented →
      ∀ (db db' : S.DB) (env env' : Env) (w w' : World) (ns set key : Bytes) (ttl : Term)
        (bs : List NamedValue), PutThenGet c S db db' env env' w w' ns set key ttl bs →
        BringsBack c (S.bin db (asKeyInitStr ns set key)) bs (getCall c env' ns set key w').1 := by
  intro hall
  obtain ⟨db',h⟩ := sample_runs bytesAndBignum (by simp [bytesAndBignum]) (by decide)
  have hc : TakesBinNames plainClient := fun _ hn => decide_eq_true hn
  have hback := hall plainClient plainServer hc plainServer_documented _ _ _ _ _ _ _ _ _ _ _ h
  have hfits := (brought_back hc plainServer_documented h hback).1 (binQ,.integer (2^63))
    (by simp [bytesAndBignum])
  exact absurd hfits.2 (by decide)

end Example

end AspikePort.BinaryBins
