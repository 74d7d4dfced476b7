import AspikePort.KeyLedger

/-!
# What the key calls read of the ledger

A get answers with every bin of the record, a select with those of the names it
is given, an exists with whether there are any. Each of them is an error on a
record without bins.
-/

set_option autoImplicit false

namespace AspikePort.KeyReads
open AspikePort.ErlangTerms AspikePort.ClientValues AspikePort.EarlyReturn AspikePort.NifWorld
open AspikePort.SyncCalls AspikePort.RecordServer AspikePort.KeyServer AspikePort.KeyLedger
open AspikePort.StoreCalls AspikePort.BinaryBins AspikePort.PortAgreement AspikePort.LabelledRuns
open AspikePort.OrderedMap (OrdMap)
open Proc

section Reads
variable {c : Client} {S : CountServer} {db : S.DB} {L : Ledger} {k : AsKey}

/-- The client answers as the server stands. -/
structure Answers (S : CountServer) (db : S.DB) (k : AsKey) (env : Env) : Prop where
  get : RecordReads.Delivers S.toServer db k env
  select : ∀ reqs ns, match S.select k ns db with
    | some rec => (env.respond (reqs ++ [.keySelect k ns])).status = aerospikeOk ∧
        (env.respond (reqs ++ [.keySelect k ns])).record = some rec
    | none => (env.respond (reqs ++ [.keySelect k ns])).status ≠ aerospikeOk
  exists_iff : ∀ reqs, (env.respond (reqs ++ [.keyExists k])).status = aerospikeOk ↔
    S.get k db ≠ none

/-- Each of the bins once, under its name and with its value. -/
def ShowsBins (name : Bytes → Term) (bins : List (Bytes × BinValue)) (t : Term) : Prop :=
  ∃ shown : List (Bytes × BinValue), shown.Perm bins ∧
    t = ofList (shown.map (fun b => makeTuple2 (name b.1) b.2.term))

/-- A record with bins is shown, and one without is an error. -/
def ShowsRecord (m : Bins) (name : Bytes → Term) (bins : List (Bytes × BinValue))
    (reply : Reply) : Prop :=
  (m ≠ OrdMap.empty → ∃ t, ShowsBins name bins t ∧ reply = .term (makeTuple2 atomOk t)) ∧
  (m = OrdMap.empty → ∃ t, reply = .term (makeTuple2 atomError t))

theorem nativeValue_format (v : BinValue) :
    ValueFormat.formatValueOut c (nativeValue v) = .ok v.term := by
  cases v with
  | binary data => rfl
  | integer i => rfl
  | integers is =>
    have hread : (is.map AsVal.integer).mapM ValueFormat.integerFromval = .ok is := by
      induction is with
      | nil => rfl
      | cons i is ih =>
        rw [List.map_cons,List.mapM_cons,ih]
        rfl
    change ((is.map AsVal.integer).mapM ValueFormat.integerFromval >>= _) = _
    rw [hread]
    rfl

def valueAt (m : Bins) (n : Bytes) : BinValue := (m.lookup n).getD (.integer 0)

section Records
variable {m : Bins} {P : Bytes → Prop} [DecidablePred P] {rec : Record}

/-- The record has the bins of the ledger that are asked for, each one once. -/
structure Has (m : Bins) (P : Bytes → Prop) (rec : Record) : Prop where
  key : rec.key = none
  once : (rec.bins.map Prod.fst).Nodup
  bins : ∀ n v, (n,v) ∈ rec.bins ↔ P n ∧ (m.lookup n).map nativeValue = some v

omit [DecidablePred P] in
theorem Has.value (h : Has m P rec) {b : Bytes × AsVal} (hb : b ∈ rec.bins) :
    P b.1 ∧ m.lookup b.1 = some (valueAt m b.1) ∧ nativeValue (valueAt m b.1) = b.2 := by
  obtain ⟨hP,hlookup⟩ := (h.bins b.1 b.2).mp hb
  obtain ⟨x,hx,hnative⟩ := Option.map_eq_some_iff.mp hlookup
  have hat : valueAt m b.1 = x := by rw [valueAt,hx,Option.getD_some]
  rw [hat]
  exact ⟨hP,hx,hnative⟩

theorem Has.perm (h : Has m P rec) : (rec.bins.map (fun b => (b.1,valueAt m b.1))).Perm
    (m.entries.filter (fun e => P e.1)) := by
  have hshown : (rec.bins.map (fun b => (b.1,valueAt m b.1))).Nodup := by
    apply List.Nodup.of_map Prod.fst
    rw [List.map_map]
    exact h.once
  have hentries : (m.entries.filter (fun e => P e.1)).Nodup :=
    (List.Nodup.of_map Prod.fst (OrdMap.keys_nodup m)).filter _
  rw [List.perm_ext_iff_of_nodup hshown hentries]
  rintro ⟨n,v⟩
  rw [List.mem_filter,decide_eq_true_eq,OrdMap.mem_entries]
  constructor
  · intro hmem
    obtain ⟨b,hb,heq⟩ := List.mem_map.mp hmem
    cases heq
    obtain ⟨hP,hlookup,-⟩ := h.value hb
    exact ⟨hlookup,hP⟩
  · rintro ⟨hlookup,hP⟩
    have hmem := (h.bins n (nativeValue v)).mpr ⟨hP,by rw [hlookup]; rfl⟩
    refine List.mem_map.mpr ⟨(n,nativeValue v),hmem,?_⟩
    rw [valueAt,hlookup,Option.getD_some]

omit [DecidablePred P] in
theorem Has.dump (h : Has m P rec) (text : String → Term) (name : Bytes → Term) :
    ValueFormat.dumpWith c text name rec = .ok (ofList (rec.bins.reverse.map
      (fun b => makeTuple2 (name b.1) (valueAt m b.1).term))) := by
  apply RecordReads.dumpWith_bins c h.key
  intro b hb
  rw [← (h.value hb).2.2]
  exact nativeValue_format _

theorem dump_shows (h : Has m P rec) (text : String → Term) (name : Bytes → Term) :
    ∃ t, ShowsBins name (m.entries.filter (fun e => P e.1)) t ∧
      ValueFormat.dumpWith c text name rec = .ok t := by
  refine ⟨_,⟨rec.bins.reverse.map (fun b => (b.1,valueAt m b.1)),?_,rfl⟩,?_⟩
  · rw [List.map_reverse]
    exact (List.reverse_perm _).trans h.perm
  · rw [h.dump,List.map_map]
    rfl

end Records

variable (hS : S.Documented) (hL : Holds S.toServer db L)
include hS hL

theorem missing_iff : S.get k db = none ↔ L k = OrdMap.empty := by
  rw [hS.get_missing]
  constructor
  · intro h
    apply OrdMap.ext
    intro n
    have hn := h n
    rw [hL k n,Option.map_eq_none_iff] at hn
    rw [hn]
    rfl
  · intro h n
    rw [hL k n,h]
    rfl

theorem get_has {rec : Record} (hget : S.get k db = some rec) : Has (L k) (fun _ => True) rec where
  key := hS.get_key k db rec hget
  once := hS.get_once k db rec hget
  bins := by
    intro n v
    rw [hS.get_bins k db rec n v hget,hL k n,true_and]

end Reads

section Gets
variable {c : Client} {S : CountServer} {db : S.DB} {L : Ledger} {env : Env} {w : World}

theorem selectNames_texts (names : List (CharText asBinNameMaxSize)) (bins : List Bytes)
    (h : bins.length+names.length < maxBinsNumber) :
    selectNames names.length (ofList (names.map CharText.term)) bins =
      .ok (bins ++ names.map CharText.data) := by
  induction names generalizing bins with
  | nil =>
    change Except.ok bins = .ok (bins ++ [])
    rw [List.append_nil]
  | cons n names ih =>
    have hread : getString maxKeyStrSize n.term = some n.data := n.read (by decide)
    have hroom : intoArray asBinNameMaxSize n.data = .ok n.data := if_pos n.short
    rw [List.length_cons] at h
    have hcell : getListCell (.cons n.term (ofList (names.map CharText.term))) =
        some (n.term,ofList (names.map CharText.term)) := rfl
    rw [List.length_cons,List.map_cons,ofList,selectNames]
    simp only [hcell,hread]
    change (intoArray asBinNameMaxSize n.data >>= _) = _
    rw [hroom]
    change (if maxBinsNumber ≤ bins.length then _ else _) = _
    rw [if_neg (by omega),n.cStr_eq,ih (bins ++ [n.data]) (by simp; omega),List.map_cons,
      List.append_assoc]
    rfl

theorem keySelect_run (k : CharKey) (hw : w.isConnectedFlag = true)
    {names : List (CharText asBinNameMaxSize)} (hne : names ≠ [])
    (hfew : names.length < maxBinsNumber) :
    keySelectSync c env k.nameSpace.term k.set.term k.key.term
      (ofList (names.map CharText.term)) w =
      (submit env (.keySelect k.asKey (names.map CharText.data)) >>= fun r =>
        if r.status ≠ aerospikeOk then pure (errorString r.message)
        else match r.record with
        | none => stop (.fault .nullPointer)
        | some rec => do
          let msg ← lift (orFault (ValueFormat.dumpRecords c rec))
          return makeTuple2 atomOk msg) w := by
  have hlength : getListLength (ofList (names.map CharText.term)) = some names.length := by
    rw [getListLength_ofList,List.length_map]
  have hzero : names.length ≠ 0 := fun h => hne (List.length_eq_zero_iff.mp h)
  have hnames := selectNames_texts names [] (by simpa using hfew)
  rw [List.nil_append] at hnames
  have hcount : ¬maxBinsNumber ≤ (names.map CharText.data).length := by
    rw [List.length_map]
    omega
  unfold keySelectSync
  rw [k.stringKey_eq,lift_ok_bind_run,hlength,orBadarg_some,lift_ok_bind_run,
    isConnected_bind_run _ hw,if_neg hzero,hnames,lift_ok_bind_run]
  exact congrFun (if_neg hcount) w

theorem keyGet_run (k : CharKey) (hw : w.isConnectedFlag = true) :
    keyGetSync c env k.nameSpace.term k.set.term k.key.term w =
      (submit env (.keyGet k.asKey none) >>= fun r =>
        answerRecord r (ValueFormat.dumpRecords c)) w := by
  unfold keyGetSync
  rw [k.stringKey_eq,lift_ok_bind_run,isConnected_bind_run _ hw]

theorem keyExists_run (k : CharKey) (hw : w.isConnectedFlag = true) :
    keyExistsSync env k.nameSpace.term k.set.term k.key.term w =
      (submit env (.keyExists k.asKey) >>= fun r => if r.status ≠ aerospikeOk then
        pure (errorString r.message) else pure (makeTuple2 atomOk atomTrue)) w := by
  unfold keyExistsSync
  rw [k.stringKey_eq,lift_ok_bind_run,isConnected_bind_run _ hw]

def found : Option Record → Response
  | some rec => ⟨0,0,"",some rec,fun _ => 0⟩
  | none => ⟨2,2,"",none,fun _ => 0⟩

def answering (db : PlainDB) : Env :=
  { plainEnv with respond := fun reqs => match reqs.getLast? with
      | some (.keyGet k _) => found (getRecord k db)
      | some (.keySelect k ns) => found (selectRecord k ns db)
      | some (.keyExists k) => found (getRecord k db)
      | _ => ⟨0,0,"",none,fun _ => 0⟩ }

end Gets

end AspikePort.KeyReads
