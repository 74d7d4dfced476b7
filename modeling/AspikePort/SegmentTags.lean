import AspikePort.AsyncCalls

/-!
# Segment tags read both ways

The synchronous call returns its errors, the callback throws them. What is
thrown is a string literal and the only handler takes `char*`, so an error is
never answered: the two agree exactly on the records that hold a tag.
-/

set_option autoImplicit false

namespace AspikePort.SegmentTags
open AspikePort.ErlangTerms AspikePort.ClientValues AspikePort.EarlyReturn
open AspikePort.NifWorld AspikePort.CdtPut AspikePort.ValueFormat AspikePort.SyncCalls
open AspikePort.AsyncCalls Proc

/-- The message is the answer with the reference put in. -/
def SameAnswer (ref answer message : Term) : Prop :=
  ∃ tag body, answer = makeTuple2 tag body ∧ message = makeTuple3 tag ref body

/-- The bin holds a text, or a map whose keys stay apart as binaries. -/
def Tagged (bin : Bytes) (record : Option Record) : Prop :=
  ∃ rec, record = some rec ∧ ((∃ value, rec.get bin = some (.string value)) ∨
    ∃ entries, rec.get bin = some (.map entries) ∧
      (entries.map (fun e => getBinaryFromAsval e.1)).Nodup)

section Decoders
variable (c : Client)

theorem segmentMap_ok (entries : List (AsVal × AsVal)) :
    (∃ t, segmentMap entries = .ok t) ↔
      (entries.map (fun e => getBinaryFromAsval e.1)).Nodup := by
  unfold segmentMap makeMapFromArrays
  by_cases h : (entries.map (fun e => getBinaryFromAsval e.1)).Nodup <;> simp [h]

/-- A literal is never caught. -/
theorem catching_literal {α : Type} (recover : String → α) (text : String) :
    catching .charPointer recover (throwLiteral text) = .error .uncaughtException := rfl

theorem callback_map (ref : Term) (rec : Record) (bin : Bytes) (out : Outcome)
    (entries : List (AsVal × AsVal)) (herr : out.err = none) (hrec : out.record = some rec)
    (hbin : rec.get (cStr bin) = some (.map entries)) :
    segmentTagGetAsyncCallback c ref bin out =
      do return makeTuple3 atomOk ref (← segmentMap entries) := by
  simp [segmentTagGetAsyncCallback,onSuccess,herr,hrec,segmentTagResponse,hbin,catching,pure,
    Except.pure]

/-- The listener ends with a message exactly when the record holds a tag. -/
theorem callback_ok_iff (ref : Term) (bin : Bytes) (out : Outcome) (herr : out.err = none) :
    (∃ message, segmentTagGetAsyncCallback c ref bin out = .ok message) ↔
      Tagged (cStr bin) out.record := by
  unfold Tagged
  cases hrec : out.record with
  | none =>
    simp [segmentTagGetAsyncCallback,onSuccess,herr,hrec,segmentTagResponse,catching_literal]
  | some rec =>
    cases hbin : rec.get (cStr bin) with
    | none =>
      simp [segmentTagGetAsyncCallback,onSuccess,herr,hrec,segmentTagResponse,hbin,
        catching_literal]
    | some value =>
      cases value with
      | string value =>
        simp [segmentTagGetAsyncCallback,onSuccess,herr,hrec,segmentTagResponse,hbin,catching,
          pure,Except.pure]
      | map entries =>
        rw [callback_map c ref rec bin out entries herr hrec hbin]
        have hmap := segmentMap_ok entries
        cases hm : segmentMap entries with
        | ok t =>
          have hnodup := hmap.mp ⟨t,hm⟩
          refine iff_of_true ⟨_,rfl⟩ ⟨rec,rfl,Or.inr ⟨entries,?_,hnodup⟩⟩
          exact hbin
        | error f =>
          have hdup : ¬(entries.map (fun e => getBinaryFromAsval e.1)).Nodup := by
            intro h
            obtain ⟨t,ht⟩ := hmap.mpr h
            rw [hm] at ht
            cases ht
          apply iff_of_false (by rintro ⟨_,⟨⟩⟩)
          rintro ⟨rec',he,⟨v,hv⟩ | ⟨es,hes,hn⟩⟩
          · rw [← Option.some.inj he,hbin] at hv
            cases hv
          · rw [← Option.some.inj he,hbin] at hes
            cases hes
            exact hdup hn
      | _ =>
        simp [segmentTagGetAsyncCallback,onSuccess,herr,hrec,segmentTagResponse,hbin,
          catching_literal]

/-- On a record that holds a tag both decoders give the same value. -/
theorem tagged_same (ref : Term) (bin : Bytes) (out : Outcome) (herr : out.err = none)
    (h : Tagged (cStr bin) out.record) :
    ∃ answer message, segmentTagAnswer c out.record (cStr bin) = .ok answer ∧
      segmentTagGetAsyncCallback c ref bin out = .ok message ∧ SameAnswer ref answer message := by
  obtain ⟨rec,hrec,⟨value,hbin⟩ | ⟨entries,hbin,hnodup⟩⟩ := h
  · refine ⟨makeTuple2 atomOk (.binary value),makeTuple3 atomOk ref (.binary value),?_,?_,
      atomOk,.binary value,rfl,rfl⟩
    · simp [segmentTagAnswer,hrec,hbin,pure,Except.pure]
    · simp [segmentTagGetAsyncCallback,onSuccess,herr,hrec,segmentTagResponse,hbin,catching,
        pure,Except.pure]
  · obtain ⟨t,ht⟩ := (segmentMap_ok entries).mpr hnodup
    refine ⟨makeTuple2 atomOk t,makeTuple3 atomOk ref t,?_,?_,atomOk,t,rfl,rfl⟩
    · simp only [segmentTagAnswer,hrec,hbin,ht]
      rfl
    · rw [callback_map c ref rec bin out entries herr hrec hbin,ht]
      rfl

end Decoders

section Calls
variable (c : Client)

/-- The client answers without an error and delivers `record`. -/
def Delivers (env : Env) (record : Option Record) : Prop :=
  ∀ reqs, (env.respond reqs).status = aerospikeOk ∧ (env.respond reqs).record = record

theorem segmentTagGetSync_reply {env : Env} {w : World} {record : Option Record}
    (hw : w.isConnectedFlag = true) (hrec : Delivers env record) (ns set key bin : Bytes) :
    (segmentTagGetSync c env (.binary ns) (.binary set) (.binary key) (.binary bin) w).1 =
      orFault (segmentTagAnswer c record (cStr bin)) := by
  unfold segmentTagGetSync
  rw [binaryKey_binary,lift_ok_bind_run,inspectBinary_binary,lift_ok_bind_run,
    isConnected_bind_run _ hw,syncOperationCounter,within_run,submit_bind_run]
  obtain ⟨hstatus,hrecord⟩ := hrec
    ((SyncOperationCounter.enter env.now w).submitted ++
      [.keySelect (asKeyInitStr ns set key) [cStr bin]])
  rw [if_neg (not_not.mpr hstatus),hrecord]
  rfl

theorem segmentTagGetAsyncJob_run {w : World} (hw : w.isConnectedFlag = true) (ref : ℕ)
    (ns set key bin : Bytes) :
    segmentTagGetAsyncJob (.reference ref) (.binary ns) (.binary set) (.binary key)
      (.binary bin) w = (.ok ⟨.reference ref,some (asKeyInitStr ns set key),bin,.segmentTagGet,
        .keySelect (asKeyInitStr ns set key) [cStr bin]⟩,w) := by
  unfold segmentTagGetAsyncJob
  rw [refKey_reference,lift_ok_bind_run,inspectBinary_binary,lift_ok_bind_run,
    isConnected_bind_run _ hw]
  rfl

/-- The callback of the async call ends with one message, and that message
carries what the sync call returns for the same record. -/
def CallsAgree (env : Env) (w : World) (ref : ℕ) (ns set key bin : Bytes) (out : Outcome) :
    Prop :=
  ∃ answer job message,
    (segmentTagGetSync c env (.binary ns) (.binary set) (.binary key) (.binary bin) w).1 =
      .ok answer ∧
    (segmentTagGetAsyncJob (.reference ref) (.binary ns) (.binary set) (.binary key)
      (.binary bin) w).1 = .ok job ∧
    callback c job out = .ok message ∧ SameAnswer (.reference ref) answer message

/-- For every record the client can deliver, the two calls agree exactly when
the record is there and its bin holds a text, or a map without two keys of the
same binary. -/
theorem calls_agree_iff {env : Env} {w : World} {out : Outcome}
    (hw : w.isConnectedFlag = true) (hrec : Delivers env out.record) (herr : out.err = none)
    (ref : ℕ) (ns set key bin : Bytes) :
    CallsAgree c env w ref ns set key bin out ↔ Tagged (cStr bin) out.record := by
  unfold CallsAgree
  rw [segmentTagGetSync_reply c hw hrec,segmentTagGetAsyncJob_run hw]
  constructor
  · rintro ⟨_,_,message,-,⟨⟩,hmessage,-⟩
    exact (callback_ok_iff c _ bin out herr).mp ⟨message,hmessage⟩
  · intro h
    obtain ⟨answer,message,hanswer,hmessage,hsame⟩ :=
      tagged_same c (.reference ref) bin out herr h
    exact ⟨answer,_,message,by rw [hanswer]; rfl,rfl,hmessage,hsame⟩

def delivering (record : Option Record) : Env :=
  { plainEnv with respond := fun _ => ⟨0,0,"",record,fun _ => 0⟩ }

def taggedRecord : Record := ⟨none,1,0,[([116],.string [111,110])]⟩

theorem tagged_calls_agree : CallsAgree plainClient (delivering (some taggedRecord))
    connectedWorld 7 [110] [115] [107] [116] ⟨none,some taggedRecord,[]⟩ :=
  (calls_agree_iff plainClient rfl (fun _ => ⟨rfl,rfl⟩) rfl 7 [110] [115] [107] [116]).mpr
    ⟨taggedRecord,rfl,Or.inl ⟨[111,110],rfl⟩⟩

/-- The client delivers no record. -/
theorem missing_record_disagrees :
    ¬∀ (c : Client) (env : Env) (w : World) (out : Outcome), w.isConnectedFlag = true →
      Delivers env out.record → out.err = none → ∀ (ref : ℕ) (ns set key bin : Bytes),
      CallsAgree c env w ref ns set key bin out := by
  intro h
  obtain ⟨answer,job,message,-,hjob,hmessage,-⟩ := h plainClient (delivering none) connectedWorld
    ⟨none,none,[]⟩ rfl (fun _ => ⟨rfl,rfl⟩) rfl 7 [110] [115] [107] [116]
  cases hjob
  cases hmessage

end Calls

section StoredMaps

def HoldsText (data : Bytes) : AsVal → Prop
  | .string s => s = data
  | .bytes b => b = data
  | _ => False

/-- A key without content: an empty text, or no text at all. -/
def Blank (key : AsVal) : Prop := ∀ data, HoldsText data key → data = []

/-- The same content in a string and in bytes, or no content twice. -/
def Clash (a b : AsVal) : Prop :=
  (∃ data, HoldsText data a ∧ HoldsText data b) ∨ Blank a ∧ Blank b

theorem holdsText_read {data : Bytes} {key : AsVal} (h : HoldsText data key) :
    getBinaryFromAsval key = data := by
  cases key with
  | string s => exact h
  | bytes b => exact h
  | _ => exact h.elim

theorem read_holdsText {key : AsVal} (h : getBinaryFromAsval key ≠ []) :
    HoldsText (getBinaryFromAsval key) key := by
  cases key with
  | string s => exact rfl
  | bytes b => exact rfl
  | _ => exact h rfl

theorem blank_iff (key : AsVal) : Blank key ↔ getBinaryFromAsval key = [] := by
  constructor
  · intro h
    by_contra hsome
    exact hsome (h _ (read_holdsText hsome))
  · exact fun h data hdata => (holdsText_read hdata).symm.trans h

theorem clash_iff (a b : AsVal) : Clash a b ↔ getBinaryFromAsval a = getBinaryFromAsval b := by
  unfold Clash
  rw [blank_iff,blank_iff]
  constructor
  · rintro (⟨data,ha,hb⟩ | ⟨ha,hb⟩)
    · rw [holdsText_read ha,holdsText_read hb]
    · rw [ha,hb]
  · intro h
    by_cases hnil : getBinaryFromAsval a = []
    · exact .inr ⟨hnil,h.symm.trans hnil⟩
    · exact .inl ⟨_,read_holdsText hnil,h ▸ read_holdsText (h ▸ hnil)⟩

def KeysApart (entries : List (AsVal × AsVal)) : Prop :=
  entries.Pairwise (fun e d => ¬Clash e.1 d.1)

theorem keysApart_iff (entries : List (AsVal × AsVal)) :
    KeysApart entries ↔ (entries.map (fun e => getBinaryFromAsval e.1)).Nodup := by
  unfold KeysApart List.Nodup
  rw [List.pairwise_map]
  exact List.Pairwise.iff (fun _ _ => not_congr (clash_iff _ _))

def shownEntry (e : AsVal × AsVal) : Term × Term :=
  (.binary (getBinaryFromAsval e.1),.binary (getBinaryFromAsval e.2))

/-- An error, or a map with distinct keys and one entry for each that is stored. -/
def MapAnswered (entries : List (AsVal × AsVal)) (r : Except Reply Term) : Prop :=
  (∃ reason, r = .ok (makeTuple2 atomError reason)) ∨
    ∃ m : List (Term × Term), r = .ok (makeTuple2 atomOk (.map m)) ∧
      m = entries.map shownEntry ∧ m.length = entries.length ∧ (m.map Prod.fst).Nodup

theorem zip_shown (entries : List (AsVal × AsVal)) :
    ((entries.map (fun e => getBinaryFromAsval e.1)).map Term.binary).zip
      (entries.map (fun e => Term.binary (getBinaryFromAsval e.2))) = entries.map shownEntry := by
  rw [List.map_map,List.zip_map']
  rfl

theorem shown_keys (entries : List (AsVal × AsVal)) : ((entries.map shownEntry).map Prod.fst).Nodup ↔
    (entries.map (fun e => getBinaryFromAsval e.1)).Nodup := by
  have hkeys : (entries.map shownEntry).map Prod.fst =
      (entries.map (fun e => getBinaryFromAsval e.1)).map Term.binary := by
    rw [List.map_map,List.map_map]
    rfl
  rw [hkeys]
  exact List.nodup_map_iff (fun _ _ h => Term.binary.inj h)

theorem map_answered_iff (c : Client) {rec : Record} {bin : Bytes} {entries : List (AsVal × AsVal)}
    (hbin : rec.get bin = some (.map entries)) :
    MapAnswered entries (orFault (segmentTagAnswer c (some rec) bin)) ↔ KeysApart entries := by
  rw [keysApart_iff]
  unfold segmentTagAnswer
  simp only [hbin]
  constructor
  · rintro (⟨reason,h⟩ | ⟨m,-,rfl,-,hkeys⟩)
    · cases hm : segmentMap entries with
      | ok t =>
        rw [hm] at h
        replace h : Except.ok (makeTuple2 atomOk t) =
          (.ok (makeTuple2 atomError reason) : Except Reply Term) := h
        simp [makeTuple2,atomOk,atomError] at h
      | error f =>
        rw [hm] at h
        cases h
    · exact (shown_keys entries).mp hkeys
  · intro h
    refine .inr ⟨entries.map shownEntry,?_,rfl,List.length_map _,(shown_keys entries).mpr h⟩
    have hmap : segmentMap entries = .ok (.map (entries.map shownEntry)) := by
      rw [segmentMap,makeMapFromArrays,if_pos h,zip_shown]
    rw [hmap]
    rfl

theorem segment_tag_map_iff (c : Client) {env : Env} {w : World} {rec : Record}
    (hw : w.isConnectedFlag = true) (hrec : Delivers env (some rec)) (ns set key bin : Bytes)
    {entries : List (AsVal × AsVal)} (hbin : rec.get (cStr bin) = some (.map entries)) :
    MapAnswered entries (segmentTagGetSync c env (.binary ns) (.binary set) (.binary key)
      (.binary bin) w).1 ↔ KeysApart entries := by
  rw [segmentTagGetSync_reply c hw hrec]
  exact map_answered_iff c hbin

def mapRecord (entries : List (AsVal × AsVal)) : Record := ⟨none,1,0,[([116],.map entries)]⟩

theorem two_texts_answered : MapAnswered [(.string [97],.integer 1),(.bytes [98],.string [99])]
    (segmentTagGetSync plainClient (delivering
      (some (mapRecord [(.string [97],.integer 1),(.bytes [98],.string [99])])))
      (.binary [110]) (.binary [115]) (.binary [107]) (.binary [116]) connectedWorld).1 :=
  (segment_tag_map_iff plainClient rfl (fun _ => ⟨rfl,rfl⟩) [110] [115] [107] [116] rfl).mpr
    ((keysApart_iff _).mpr (by decide))

/-- Two integer keys become one and the same empty binary. -/
theorem integer_keys_undefined : ¬∀ (c : Client) (env : Env) (w : World) (rec : Record),
    w.isConnectedFlag = true → Delivers env (some rec) → ∀ (ns set key bin : Bytes)
    (entries : List (AsVal × AsVal)), rec.get (cStr bin) = some (.map entries) →
      MapAnswered entries (segmentTagGetSync c env (.binary ns) (.binary set) (.binary key)
        (.binary bin) w).1 := by
  intro h
  have hanswered := h plainClient
    (delivering (some (mapRecord [(.integer 1,.string [97]),(.integer 2,.string [98])])))
    connectedWorld _ rfl (fun _ => ⟨rfl,rfl⟩) [110] [115] [107] [116] _ rfl
  rw [segmentTagGetSync_reply plainClient rfl (fun _ => ⟨rfl,rfl⟩)] at hanswered
  have hapart := (keysApart_iff _).mp ((map_answered_iff plainClient rfl).mp hanswered)
  exact absurd hapart (by decide)

end StoredMaps

end AspikePort.SegmentTags
