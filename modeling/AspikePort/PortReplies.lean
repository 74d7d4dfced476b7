import AspikePort.RecordShapes

/-!
# Which runs answer

The rules follow a handler from one argument to the next. An argument that
cannot be read is answered at once, so the condition for an answer asks only
about what comes after the arguments that can.
-/

set_option autoImplicit false

namespace AspikePort.PortReplies
open AspikePort.ErlangTerms AspikePort.ClientValues AspikePort.EarlyReturn
open AspikePort.SyncCalls AspikePort.ExternalTerms AspikePort.EiBuffers AspikePort.PortDumps
open AspikePort.PortCalls AspikePort.PortPuts AspikePort.PortHandlers AspikePort.ReplyFrames
open AspikePort.RecordShapes Proc

section Conditions
variable {α : Type}

/-- A condition on the heads from the index on. -/
abbrev Cond := List Tok → Prop

/-- What stands behind a term that the decoder reads. -/
def Reads (f : List Tok → Option (α × List Tok)) (k : α → Cond) : Cond := fun toks =>
  ∀ a rest, f toks = some (a,rest) → k a rest

/-- The text, as far as it is stored, fits its array. -/
def ReadsText (size : ℕ) (k : Bytes → Cond) : Cond := fun toks =>
  (eiDecodeString toks).1 ≤ size ∧
    ∀ chars rest, (eiDecodeString toks).2 = some (chars,rest) → k chars rest

def ReadsKey (k : AsKey → Cond) : Cond :=
  ReadsText maxNamespaceSize fun nameSpace => ReadsText maxSetSize fun set =>
    ReadsText maxKeyStrSize fun key => k (asKeyInitStr nameSpace set key)

def ReadsBinaries (k : AsKey → Cond) : Cond :=
  Reads eiDecodeBinary fun ns => Reads eiDecodeBinary fun set => Reads eiDecodeBinary fun key =>
    k (asKeyInitStr ns set key)

/-- The port refuses the rest when it is not connected. -/
def Served (s : PortState) (p : Prop) : Prop :=
  s.isAerospikeInitialised = true → s.isConnected = true → p

/-- The client's error message is the reply when the request fails. -/
def Granted (env : PortEnv) (s : PortState) (req : Request) (p : Option Record → Prop) : Prop :=
  (env.respond (s.submitted ++ [req])).status = aerospikeOk →
    p (env.respond (s.submitted ++ [req])).record

end Conditions

section Found
variable {α β : Type}

/-- A condition on what has been found is a condition on the one thing found. -/
theorem forall_some_iff {a : α} {p : α → Prop} : (∀ b, some a = some b → p b) ↔ p a := by
  simp

theorem forall_read_iff {a : α} {rest : β} {k : α → β → Prop} :
    (∀ b more, some (a,rest) = some (b,more) → k b more) ↔ k a rest := by
  simp

theorem exists_ok_iff {ε : Type} {a : α} {p : α → Prop} :
    (∃ b, (Except.ok a : Except ε α) = .ok b ∧ p b) ↔ p a := by
  simp

end Found

section Judges
variable {α : Type} {Q : Except Leave Unit × PortState → Prop} {good : String → Prop}
  {s : PortState}

/-- A condition on the end of a run that holds of every good error, and not of a
store beyond an array. -/
structure Judges (Q : Except Leave Unit × PortState → Prop) (good : String → Prop)
    (s : PortState) : Prop where
  stopped : ∀ (msg : String) (toks : List Tok), good msg →
    Q ((stopError msg : Port Unit) (s.goto toks))
  overflows : ∀ t, ¬Q (.error (.fault .bufferOverflow),t)

theorem Judges.goto (hj : Judges Q good s) (toks : List Tok) : Judges Q good (s.goto toks) :=
  ⟨fun msg toks => hj.stopped msg toks,hj.overflows⟩

theorem Judges.stop (hj : Judges Q good s) {msg : String} (hmsg : good msg) (toks : List Tok)
    (g : α → Port Unit) : Q ((stopError msg >>= g) (s.goto toks)) := hj.stopped msg toks hmsg

theorem judge_required (hj : Judges Q good s) {f : List Tok → Option (α × List Tok)}
    {msg : String} (hmsg : good msg) {g : α → Port Unit} {k : α → Cond}
    (hk : ∀ a rest, Q (g a (s.goto rest)) ↔ k a rest) (toks : List Tok) :
    Q ((required f msg >>= g) (s.goto toks)) ↔ Reads f k toks := by
  unfold Reads
  cases hf : f toks with
  | none =>
    rw [bind_run_congr g (required_none msg hf)]
    exact iff_of_true (hj.stop hmsg toks g) (fun _ _ hread => nomatch hread)
  | some r =>
    rw [bind_run_ok g (required_some msg hf),hk]
    exact forall_read_iff.symm

theorem judge_text (hj : Judges Q good s) {size : ℕ} {msg : String} (hmsg : good msg)
    {g : Bytes → Port Unit} {k : Bytes → Cond}
    (hk : ∀ chars rest, Q (g chars (s.goto rest)) ↔ k chars rest) (toks : List Tok) :
    Q ((textArg size msg >>= g) (s.goto toks)) ↔ ReadsText size k toks := by
  have hrun : decodeStringInto size (s.goto toks) =
      if size < (eiDecodeString toks).1 then (.error (.fault .bufferOverflow),s.goto toks)
      else (.ok ((eiDecodeString toks).2.map Prod.fst),
        s.goto ((eiDecodeString toks).2.elim toks Prod.snd)) := by
    unfold decodeStringInto
    rw [goto_index]
    split_ifs
    · rfl
    · cases (eiDecodeString toks).2 <;> rfl
  unfold textArg ReadsText
  rw [bind_run_assoc]
  by_cases hsize : size < (eiDecodeString toks).1
  · rw [if_pos hsize] at hrun
    rw [bind_run_error _ hrun]
    exact iff_of_false (hj.overflows _) (fun hc => absurd hc.1 (by omega))
  · rw [if_neg hsize] at hrun
    rw [bind_run_ok _ hrun,and_iff_right (by omega)]
    cases hread : (eiDecodeString toks).2 with
    | none => exact iff_of_true (hj.stop hmsg toks g) (fun _ _ hr => nomatch hr)
    | some r =>
      show Q (g r.1 (s.goto r.2)) ↔ _
      rw [hk]
      exact forall_read_iff.symm

theorem judge_key (hj : Judges Q good s)
    (hmsg : ∀ msg ∈ ["invalid first argument: namespace","invalid second argument: set",
      "invalid third argument: key_str"], good msg) {g : AsKey → Port Unit} {k : AsKey → Cond}
    (hk : ∀ key rest, Q (g key (s.goto rest)) ↔ k key rest) (toks : List Tok) :
    Q ((keyArgs >>= g) (s.goto toks)) ↔ ReadsKey k toks := by
  unfold keyArgs
  rw [bind_run_assoc]
  apply judge_text hj (hmsg _ (by simp))
  intro nameSpace rest
  rw [bind_run_assoc]
  apply judge_text hj (hmsg _ (by simp))
  intro set rest
  rw [bind_run_assoc]
  apply judge_text hj (hmsg _ (by simp))
  intro key rest
  exact hk _ rest

theorem judge_init (hj : Judges Q good s) (hmsg : good "aerospike is not initialise")
    {g : Unit → Port Unit} {p : Prop} (hp : Q (g () s) ↔ p) :
    Q ((checkAerospikeInit >>= g) s) ↔ (s.isAerospikeInitialised = true → p) := by
  unfold checkAerospikeInit
  rw [bind_run_assoc,state_bind_run]
  by_cases hinit : s.isAerospikeInitialised = true
  · rw [if_pos hinit]
    exact hp.trans (imp_iff_right hinit).symm
  · rw [if_neg hinit]
    exact iff_of_true (hj.stop hmsg s.index g) (fun hi => absurd hi hinit)

theorem judge_all (hj : Judges Q good s) (hinit : good "aerospike is not initialise")
    (hconn : good "not connected") {g : Unit → Port Unit} {p : Prop} (hp : Q (g () s) ↔ p) :
    Q ((checkAll >>= g) s) ↔ Served s p := by
  unfold checkAll
  rw [bind_run_assoc]
  apply judge_init hj hinit
  unfold checkIsConnected
  rw [bind_run_assoc,state_bind_run]
  by_cases hc : s.isConnected = true
  · rw [if_pos hc]
    exact hp.trans (imp_iff_right hc).symm
  · rw [if_neg hc]
    exact iff_of_true (hj.stop hconn s.index g) (fun hi => absurd hi hc)

theorem judge_request {env : PortEnv} {req : Request}
    (hj : Judges Q good { s with submitted := s.submitted ++ [req] })
    (hmsg : good (env.respond (s.submitted ++ [req])).message) {g : Response → Port Unit}
    {p : Option Record → Prop}
    (hp : ∀ r, Q (g r { s with submitted := s.submitted ++ [req] }) ↔ p r.record) :
    Q ((request env req >>= g) s) ↔ Granted env s req p := by
  have hrun : (request env req >>= g) s =
      ((if (env.respond (s.submitted ++ [req])).status ≠ aerospikeOk then
        stopError (env.respond (s.submitted ++ [req])).message
      else pure (env.respond (s.submitted ++ [req]))) >>= g)
        { s with submitted := s.submitted ++ [req] } := by
    unfold request
    rw [bind_run_assoc]
    rfl
  rw [hrun]
  unfold Granted
  by_cases hok : (env.respond (s.submitted ++ [req])).status = aerospikeOk
  · rw [if_neg (not_not.mpr hok)]
    exact (hp _).trans (imp_iff_right hok).symm
  · rw [if_pos hok]
    exact iff_of_true (hj.stop hmsg s.index g) (fun hi => absurd hi hok)

end Judges

section Rules
variable {α β : Type} {before : List (List Tok)} {s : PortState}

/-- The reply has been begun and nothing has been written yet. -/
structure Begun (before : List (List Tok)) (s : PortState) : Prop where
  header : s.resBuf = eiXEncodeTupleHeader 2
  kept : s.written = before

theorem fresh_begun (s : PortState) : Begun s.written s.fresh := ⟨rfl,rfl⟩

theorem Begun.goto (h : Begun before s) (toks : List Tok) : Begun before (s.goto toks) :=
  ⟨h.header,h.kept⟩

theorem answers_frame {frame : List Tok} {t : PortState} (h : t.written = before ++ [frame]) :
    Answers before (.error .returned,t) ↔ HoldsPair frame ∧ Framed frame := by
  constructor
  · rintro ⟨-,frame',hwritten,hgood⟩
    have hsame : frame = frame' :=
      (List.cons.inj (List.append_cancel_left (h.symm.trans hwritten))).1
    rwa [hsame]
  · exact fun hgood => ⟨rfl,frame,h,hgood⟩

theorem not_answers_fault {f : Fault} {t : PortState} :
    ¬Answers before (.error (.fault f),t) := fun h => nomatch h.1

/-- The last two steps of a handler. -/
theorem answers_put (h : Begun before s) (toks : List Tok) :
    Answers before ((put toks >>= fun _ => postMacro) s) ↔ Complete toks := by
  have hwritten : s.written ++ [s.resBuf ++ toks] =
      before ++ [eiXEncodeTupleHeader 2 ++ toks] := by rw [h.kept,h.header]
  exact answers_frame hwritten

/-- A message that the reply has room for. -/
def Short (msg : Bytes) : Prop := msg.length < 1024

instance (msg : Bytes) : Decidable (Short msg) := inferInstanceAs (Decidable (_ < _))

theorem complete_message {tag : String} (htag : width (eiXEncodeAtom tag) ≤ 7) {msg : Bytes}
    (h : Short msg) : Complete (eiXEncodeAtom tag ++ eiXEncodeString msg) := by
  apply (complete_tagged (begins_one (writes_string msg)) (writable_string msg)).mpr
  unfold Short at h
  rw [width_string,textSize]
  split_ifs <;> omega

theorem answers_ok (h : Begun before s) {msg : Bytes} (hmsg : Short msg) :
    Answers before ((okMacro msg >>= fun _ => postMacro) s) :=
  (answers_put h _).mpr (complete_message (by decide) hmsg)

theorem answers_error (h : Begun before s) {msg : String} (hmsg : Short (textBytes msg)) :
    Answers before ((stopError msg : Port Unit) s) :=
  (answers_put h _).mpr (complete_message (by decide) hmsg)

theorem answers_stopped (h : Begun before s) {msg : String} (hmsg : Short (textBytes msg))
    (g : α → Port Unit) : Answers before ((stopError msg >>= g) s) := answers_error h hmsg

theorem answers_judges (h : Begun before s) :
    Judges (Answers before) (fun msg => Short (textBytes msg)) s :=
  ⟨fun _ toks hmsg => answers_error (h.goto toks) hmsg,fun _ => not_answers_fault⟩

theorem answers_required (h : Begun before s) {f : List Tok → Option (α × List Tok)}
    {msg : String} (hmsg : Short (textBytes msg)) {g : α → Port Unit} {k : α → Cond}
    (hk : ∀ a rest, Answers before (g a (s.goto rest)) ↔ k a rest) (toks : List Tok) :
    Answers before ((required f msg >>= g) (s.goto toks)) ↔ Reads f k toks :=
  judge_required (answers_judges h) hmsg hk toks

theorem answers_text (h : Begun before s) {size : ℕ} {msg : String}
    (hmsg : Short (textBytes msg)) {g : Bytes → Port Unit} {k : Bytes → Cond}
    (hk : ∀ chars rest, Answers before (g chars (s.goto rest)) ↔ k chars rest)
    (toks : List Tok) : Answers before ((textArg size msg >>= g) (s.goto toks)) ↔
      ReadsText size k toks :=
  judge_text (answers_judges h) hmsg hk toks

theorem answers_binary (h : Begun before s) {sizeMsg msg : String}
    (hsize : Short (textBytes sizeMsg)) (hmsg : Short (textBytes msg)) {g : Bytes → Port Unit}
    {k : Bytes → Cond} (hk : ∀ data rest, Answers before (g data (s.goto rest)) ↔ k data rest)
    (toks : List Tok) : Answers before ((binaryArg sizeMsg msg >>= g) (s.goto toks)) ↔
      Reads eiDecodeBinary k toks := by
  have hrun : (binaryArg sizeMsg msg >>= g) (s.goto toks) =
      ((if (eiGetType toks).1 ≠ .binary then stopError sizeMsg
        else required eiDecodeBinary msg) >>= g) (s.goto toks) := by
    unfold binaryArg
    rw [bind_run_assoc,bind_run_ok _ (getType_run toks)]
  rw [hrun]
  by_cases htype : (eiGetType toks).1 = .binary
  · rw [if_neg (not_not.mpr htype)]
    exact answers_required h hmsg hk toks
  · rw [if_pos htype]
    apply iff_of_true (answers_stopped (h.goto toks) hsize g)
    intro data rest hread
    exact absurd (getType_binary_iff.mpr ⟨data,rest,decodeBinary_iff.mp hread⟩) htype

theorem answers_binaries (h : Begun before s) {size₁ msg₁ size₂ msg₂ size₃ msg₃ : String}
    (hmsg : ∀ msg ∈ [size₁,msg₁,size₂,msg₂,size₃,msg₃], Short (textBytes msg))
    {g : Bytes → Bytes → Bytes → Port Unit} {k : AsKey → Cond}
    (hk : ∀ ns set key rest, Answers before (g ns set key (s.goto rest)) ↔
      k (asKeyInitStr ns set key) rest) (toks : List Tok) :
    Answers before ((binaryArg size₁ msg₁ >>= fun ns => binaryArg size₂ msg₂ >>= fun set =>
      binaryArg size₃ msg₃ >>= fun key => g ns set key) (s.goto toks)) ↔
        ReadsBinaries k toks := by
  apply answers_binary h (hmsg size₁ (by simp)) (hmsg msg₁ (by simp))
  intro ns rest
  apply answers_binary h (hmsg size₂ (by simp)) (hmsg msg₂ (by simp))
  intro set rest
  apply answers_binary h (hmsg size₃ (by simp)) (hmsg msg₃ (by simp))
  intro key rest
  exact hk ns set key rest

theorem answers_key (h : Begun before s) {g : AsKey → Port Unit} {k : AsKey → Cond}
    (hk : ∀ key rest, Answers before (g key (s.goto rest)) ↔ k key rest) (toks : List Tok) :
    Answers before ((keyArgs >>= g) (s.goto toks)) ↔ ReadsKey k toks :=
  judge_key (answers_judges h) (by decide) hk toks

theorem answers_init (h : Begun before s) {g : Unit → Port Unit} {p : Prop}
    (hp : Answers before (g () s) ↔ p) :
    Answers before ((checkAerospikeInit >>= g) s) ↔ (s.isAerospikeInitialised = true → p) :=
  judge_init (answers_judges h) (by decide) hp

theorem answers_all (h : Begun before s) {g : Unit → Port Unit} {p : Prop}
    (hp : Answers before (g () s) ↔ p) : Answers before ((checkAll >>= g) s) ↔ Served s p :=
  judge_all (answers_judges h) (by decide) (by decide) hp

theorem answers_request (h : Begun before s) {env : PortEnv} {req : Request}
    {g : Response → Port Unit} {p : Option Record → Prop}
    (hp : ∀ r t, Begun before t → (Answers before (g r t) ↔ p r.record)) :
    Answers before ((request env req >>= g) s) ↔ Granted env s req p := by
  have hbegun : Begun before { s with submitted := s.submitted ++ [req] } := ⟨h.header,h.kept⟩
  exact judge_request (answers_judges hbegun) (env.short _) (fun r => hp r _ hbegun)

theorem served_answers (h : Begun before s) {g : Unit → Port Unit}
    (hg : Answers before (g () s)) : Answers before ((checkAll >>= g) s) :=
  (answers_all h (iff_true_intro hg)).mpr (fun _ _ => trivial)

theorem granted_answers (h : Begun before s) {env : PortEnv} {req : Request}
    {g : Response → Port Unit} (hg : ∀ r t, Begun before t → Answers before (g r t)) :
    Answers before ((request env req >>= g) s) :=
  (answers_request (p := fun _ => True) h (fun r t ht => iff_true_intro (hg r t ht))).mpr
    (fun _ => trivial)

/-- The record is written out behind the header. -/
theorem answers_dump (h : Begun before s) (written : Except Fault (List Tok)) :
    Answers before ((orFault written >>= fun toks => put toks >>= fun _ => postMacro) s) ↔
      ∃ toks, written = .ok toks ∧ Complete toks := by
  cases written with
  | error f => exact iff_of_false not_answers_fault (fun ⟨_,hc,_⟩ => nomatch hc)
  | ok toks =>
    show Answers before ((put toks >>= fun _ => postMacro) s) ↔ _
    rw [answers_put h]
    exact exists_ok_iff.symm

end Rules

end AspikePort.PortReplies
