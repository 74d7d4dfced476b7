import AspikePort.PortReplies

/-!
# Arguments that are read in loops

A loop over bins stops at the first element it cannot read, or goes on out of
step, or throws its result away. Where the index stands behind a loop is
computed from the heads alone.
-/

set_option autoImplicit false

namespace AspikePort.ArgumentLoops
open AspikePort.ErlangTerms AspikePort.ClientValues AspikePort.EarlyReturn
open AspikePort.SyncCalls AspikePort.ExternalTerms AspikePort.EiBuffers
open AspikePort.PortCalls AspikePort.PortPuts AspikePort.PortHandlers AspikePort.ReplyFrames
open AspikePort.PortReplies Proc

section Conditions
variable (env : PortEnv)

/-- An integer under one of the two narrow heads. -/
def ReadsShort (k : Cond) : Cond := fun toks =>
  ∀ tok rest, toks = tok::rest → isShortInteger (typeOf tok) = true → k rest

/-- The length of the tuple at the index, or what the variable happens to hold,
and what stands behind its header. -/
def tupleStart : List Tok → ℤ × List Tok
  | .tuple arity::rest => (arity,rest)
  | toks => (env.uninit toks,toks)

def ReadsPolicy (k : Cond) : Cond := fun toks =>
  (tupleStart env toks).1 = 4 →
    ReadsShort (ReadsShort (ReadsShort (ReadsShort k))) (tupleStart env toks).2

def ReadsPair (k : Cond) : Cond := fun toks => ∀ rest, toks = .tuple 2::rest → k rest

/-- Every bin name that the loop comes to fits its array. -/
def PairsFit : ℕ → Cond
  | 0 => fun _ => True
  | n+1 => ReadsPair (ReadsText asBinNameMaxSize fun _ => Reads eiDecodeLong fun _ => PairsFit n)

/-- The names fit, and so do the pointers to them. -/
def NamesFit (p : List Bytes → Prop) : ℕ → List Bytes → Cond
  | 0, bins => fun _ => bins.length < maxBinsNumber ∧ p bins
  | n+1, bins => ReadsText asBinNameMaxSize fun bin rest =>
      bins.length < maxBinsNumber ∧ NamesFit p n (bins ++ [cStr bin]) rest

def skipHeader (toks : List Tok) : List Tok := ((eiDecodeListHeader toks).map Prod.snd).getD toks

def longsEnd : ℕ → List Tok → List Tok
  | 0, toks => toks
  | n+1, toks => longsEnd n (((eiDecodeLong toks).map Prod.snd).getD toks)

/-- Where `binary_key_put` goes on behind a value. -/
def valueEnd : List Tok → List Tok
  | .binary _::rest => rest
  | .smallInteger _::rest => rest
  | .integer _::rest => rest
  | .list length::rest => skipHeader (longsEnd length rest)
  | toks => toks

/-- No value that the loop comes to is a text. -/
def PutsFit : ℕ → Cond
  | 0 => fun _ => True
  | n+1 => ReadsPair (Reads eiDecodeBinary fun _ toks =>
      (eiGetType toks).1 ≠ .string ∧ PutsFit n (valueEnd toks))

/-- Where `get_fcaps` leaves the index. -/
def fcapsEnd : ℕ → List Tok → List Tok
  | 0, toks => skipHeader toks
  | n+1, .binary _::.binary _::tok::rest =>
    if isShortInteger (typeOf tok) then fcapsEnd n rest else tok::rest
  | _+1, .binary _::.binary _::rest => rest
  | _+1, .binary _::rest => rest
  | _+1, toks => toks

/-- Where `get_bins` leaves the index. -/
def binsEnd : ℕ → List Tok → List Tok
  | 0, toks => skipHeader toks
  | n+1, toks =>
    if (tupleStart env toks).1 ≠ 2 then (tupleStart env toks).2
    else match (tupleStart env toks).2 with
      | .binary _::.list length::rest => binsEnd n (fcapsEnd (length/3) rest)
      | .binary _::rest => rest
      | rest => rest

end Conditions

section Policies
variable {env : PortEnv} {before : List (List Tok)} {s : PortState}

theorem short_decodes {tok : Tok} (h : isShortInteger (typeOf tok) = true) (rest : List Tok) :
    ∃ i, eiDecodeLong (tok::rest) = some (i,rest) := by
  cases tok with
  | smallInteger value => exact ⟨_,rfl⟩
  | integer value => exact ⟨_,rfl⟩
  | _ => cases h

theorem answers_number (h : Begun before s) {msg : String} (hmsg : Short (textBytes msg))
    {initial : ℤ} {g : ℤ → Port Unit} {k : Cond}
    (hk : ∀ i rest, Answers before (g i (s.goto rest)) ↔ k rest) (toks : List Tok) :
    Answers before ((policyNumber msg initial >>= g) (s.goto toks)) ↔ ReadsShort k toks := by
  unfold policyNumber ReadsShort
  rw [bind_run_assoc,bind_run_ok _ (getType_run toks)]
  cases toks with
  | nil => exact iff_of_true (answers_stopped (h.goto []) hmsg g) (fun _ _ hc => nomatch hc)
  | cons tok rest =>
    show Answers before (((if ¬isShortInteger (typeOf tok) = true then stopError msg
      else decode eiDecodeLong >>= fun i => pure (i.getD initial)) >>= g) (s.goto (tok::rest))) ↔ _
    by_cases hshort : isShortInteger (typeOf tok) = true
    · obtain ⟨i,hi⟩ := short_decodes hshort rest
      rw [if_neg (not_not.mpr hshort),bind_run_assoc,bind_run_ok _ (decode_some hi)]
      show Answers before (g i (s.goto rest)) ↔ _
      rw [hk]
      simp [hshort]
    · rw [if_pos hshort]
      apply iff_of_true (answers_stopped (h.goto _) hmsg g)
      intro tok' rest' heq hs
      cases heq
      exact absurd hs hshort

theorem tupleLength_run (toks : List Tok) : tupleLength env (s.goto toks) =
    (.ok (tupleStart env toks).1,s.goto (tupleStart env toks).2) := by
  unfold tupleLength
  rw [state_bind_run]
  cases toks with
  | nil => rfl
  | cons tok toks => cases tok <;> rfl

theorem readsShort_of {k : Cond} (h : ∀ rest, k rest) (toks : List Tok) : ReadsShort k toks :=
  fun _ rest _ _ => h rest

theorem readsPolicy_of {k : Cond} (h : ∀ rest, k rest) (toks : List Tok) :
    ReadsPolicy env k toks :=
  fun _ => readsShort_of (readsShort_of (readsShort_of (readsShort_of h))) _

theorem answers_policy (h : Begun before s) {sizeMsg msg : String}
    (hsize : Short (textBytes sizeMsg))
    (hmsg : ∀ digit ∈ ["1","2","3","4"], Short (textBytes (msg ++ digit)))
    {g : Policy → Port Unit} {k : Cond}
    (hk : ∀ policy rest, Answers before (g policy (s.goto rest)) ↔ k rest) (toks : List Tok) :
    Answers before ((policyArg env sizeMsg msg >>= g) (s.goto toks)) ↔ ReadsPolicy env k toks := by
  unfold policyArg ReadsPolicy
  rw [bind_run_assoc,bind_run_ok _ (tupleLength_run toks)]
  by_cases hlength : (tupleStart env toks).1 = 4
  · rw [if_neg (not_not.mpr hlength),imp_iff_right hlength,bind_run_assoc]
    apply answers_number h (hmsg "1" (by decide))
    intro maxRetries rest
    rw [bind_run_assoc]
    apply answers_number h (hmsg "2" (by decide))
    intro sleepBetweenRetries rest
    rw [bind_run_assoc]
    apply answers_number h (hmsg "3" (by decide))
    intro socketTimeout rest
    rw [bind_run_assoc]
    apply answers_number h (hmsg "4" (by decide))
    intro totalTimeout rest
    exact hk _ rest
  · rw [if_pos hlength]
    exact iff_of_true (answers_stopped (h.goto _) hsize g) (fun hc => absurd hc hlength)

end Policies

section Loops
variable {α β : Type} {Q : Except Leave Unit × PortState → Prop} {good : String → Prop}
  {before : List (List Tok)} {s : PortState}

/-- The check that both loops over pairs begin with. -/
theorem judge_pair (hj : Judges Q good s) {msg : String} (hmsg : good msg)
    {p : Port β} {g : β → Port Unit} {k : Cond}
    (hk : ∀ rest, Q ((p >>= g) (s.goto rest)) ↔ k rest) (toks : List Tok) :
    Q (((decode eiDecodeTupleHeader >>= fun tLength =>
      if tLength ≠ some 2 then stopError msg else p) >>= g) (s.goto toks)) ↔ ReadsPair k toks := by
  unfold ReadsPair
  rw [bind_run_assoc]
  cases hread : eiDecodeTupleHeader toks with
  | none =>
    rw [bind_run_ok _ (decode_none hread)]
    apply iff_of_true (hj.stop hmsg toks g)
    intro rest heq
    rw [decodeTupleHeader_iff.mpr heq] at hread
    cases hread
  | some r =>
    obtain ⟨arity,after⟩ := r
    rw [bind_run_ok _ (decode_some hread),decodeTupleHeader_iff.mp hread]
    by_cases harity : arity = 2
    · subst harity
      rw [if_neg (not_not.mpr rfl),hk]
      simp
    · have hne : some arity ≠ some 2 := fun hc => harity (Option.some.inj hc)
      rw [if_pos hne]
      apply iff_of_true (hj.stop hmsg after g)
      intro rest heq
      cases heq
      exact absurd rfl harity

theorem answers_pair (h : Begun before s) {msg : String} (hmsg : Short (textBytes msg))
    {p : Port β} {g : β → Port Unit} {k : Cond}
    (hk : ∀ rest, Answers before ((p >>= g) (s.goto rest)) ↔ k rest) (toks : List Tok) :
    Answers before (((decode eiDecodeTupleHeader >>= fun tLength =>
      if tLength ≠ some 2 then stopError msg else p) >>= g) (s.goto toks)) ↔ ReadsPair k toks :=
  judge_pair (answers_judges h) hmsg hk toks

theorem judge_pairs (hj : Judges Q good s)
    (hmsg : ∀ msg ∈ ["invalid tuple","invalid bin","invalid val"], good msg) (f : α → Bytes → ℤ → α)
    {g : α → Port Unit} (hg : ∀ a rest, Q (g a (s.goto rest))) (n : ℕ) (a : α) (toks : List Tok) :
    Q ((eachPair f n a >>= g) (s.goto toks)) ↔ PairsFit n toks := by
  induction n generalizing a toks with
  | zero => exact iff_of_true (hg a toks) trivial
  | succ n ih =>
    unfold eachPair PairsFit
    apply judge_pair hj (hmsg _ (by simp))
    intro rest
    rw [bind_run_assoc]
    apply judge_text hj (hmsg _ (by simp))
    intro bin rest
    rw [bind_run_assoc]
    apply judge_required hj (hmsg _ (by simp))
    intro val rest
    exact ih _ rest

theorem judge_names (hj : Judges Q good s) (hmsg : good "invalid bin")
    {g : List Bytes → Port Unit} {p : List Bytes → Prop}
    (hg : ∀ bins rest, Q (g bins (s.goto rest)) ↔ p bins) (n : ℕ) (bins : List Bytes)
    (toks : List Tok) :
    Q ((selectBins n bins >>= g) (s.goto toks)) ↔ NamesFit p n bins toks := by
  induction n generalizing bins toks with
  | zero =>
    unfold selectBins NamesFit
    by_cases hfull : maxBinsNumber ≤ bins.length
    · rw [if_pos hfull]
      exact iff_of_false (hj.overflows _) (fun hc => absurd hc.1 (by omega))
    · rw [if_neg hfull,and_iff_right (by omega)]
      exact hg bins toks
  | succ n ih =>
    unfold selectBins NamesFit
    rw [bind_run_assoc]
    apply judge_text hj hmsg
    intro bin rest
    by_cases hfull : maxBinsNumber ≤ bins.length
    · rw [if_pos hfull]
      exact iff_of_false (hj.overflows _) (fun hc => absurd hc.1 (by omega))
    · rw [if_neg hfull,and_iff_right (by omega)]
      exact ih _ rest

end Loops

section Runs
variable {α : Type} {env : PortEnv} {c : Client} {s : PortState}

theorem decode_run (f : List Tok → Option (α × List Tok)) (toks : List Tok) :
    decode f (s.goto toks) =
      (.ok ((f toks).map Prod.fst),s.goto (((f toks).map Prod.snd).getD toks)) := by
  cases hf : f toks with
  | none => exact decode_none hf
  | some r => exact decode_some hf

def NotBinary (toks : List Tok) : Prop := ∀ data rest, toks ≠ .binary data::rest

theorem decodeBinTerm_none {toks : List Tok} (h : NotBinary toks) :
    decodeBinTerm (s.goto toks) = (.ok none,s.goto toks) := by
  have htype : (eiGetType toks).1 ≠ .binary := by
    intro hc
    obtain ⟨data,rest,heq⟩ := getType_binary_iff.mp hc
    exact h data rest heq
  unfold decodeBinTerm
  rw [bind_run_ok _ (getType_run toks)]
  show (if (eiGetType toks).1 ≠ .binary then _ else _ : Port (Option Bytes)) (s.goto toks) = _
  rw [if_pos htype]
  rfl

theorem binary_or_not (toks : List Tok) : (∃ data rest, toks = .binary data::rest) ∨
    NotBinary toks := by
  by_cases h : ∃ data rest, toks = .binary data::rest
  · exact Or.inl h
  · exact Or.inr (fun data rest heq => h ⟨data,rest,heq⟩)

theorem decodeLongs_end (n : ℕ) (ints : List ℤ) (toks : List Tok) :
    ∃ ints', decodeLongs n ints (s.goto toks) = (.ok ints',s.goto (longsEnd n toks)) := by
  induction n generalizing ints toks with
  | zero => exact ⟨ints,rfl⟩
  | succ n ih =>
    unfold decodeLongs longsEnd
    rw [bind_run_ok _ (decode_run eiDecodeLong toks)]
    cases (eiDecodeLong toks).map Prod.fst with
    | none => exact ih ints _
    | some i => exact ih (ints ++ [i]) _

/-- Whatever the value is, but for a text, the loop goes on behind it. -/
theorem putBinValue_end {toks : List Tok} (h : (eiGetType toks).1 ≠ .string) (rec : PutRecord)
    (binName : Bytes) : ∃ rec', putBinValue c rec binName (s.goto toks) =
      (.ok rec',s.goto (valueEnd toks)) := by
  unfold putBinValue
  rw [bind_run_ok _ (getType_run toks)]
  cases toks with
  | nil => exact ⟨rec,rfl⟩
  | cons tok rest =>
    cases tok with
    | binary data =>
      refine ⟨setBin c rec binName (.bytes (cStr data)),?_⟩
      exact bind_run_ok _ (decodeBinTerm_run data rest)
    | list length =>
      have hheader : required eiDecodeListHeader "invalid list of ints"
          (s.goto (.list length::rest)) = (.ok length,s.goto rest) := required_some _ rfl
      obtain ⟨ints,hints⟩ := decodeLongs_end (s := s) length [] rest
      refine ⟨setBin c rec binName (.list (ints.map .integer)),?_⟩
      show (required eiDecodeListHeader "invalid list of ints" >>= _) _ = _
      rw [bind_run_ok _ hheader,bind_run_ok _ hints,bind_run_ok _ (decode_run _ _)]
      rfl
    | string chars => exact absurd rfl h
    | smallInteger value => exact ⟨setBin c rec binName (.integer value.val),rfl⟩
    | integer value => exact ⟨setBin c rec binName (.integer value),rfl⟩
    | _ => exact ⟨rec,rfl⟩

theorem fcapsEnd_stop {toks : List Tok} (h : NotBinary toks) (n : ℕ) :
    fcapsEnd (n+1) toks = toks := by
  cases toks with
  | nil => rfl
  | cons tok toks =>
    cases tok with
    | binary data => exact absurd rfl (h data toks)
    | _ => rfl

theorem fcapsEnd_key {toks : List Tok} (h : NotBinary toks) (n : ℕ) (key : Bytes) :
    fcapsEnd (n+1) (.binary key::toks) = toks := by
  cases toks with
  | nil => rfl
  | cons tok toks =>
    cases tok with
    | binary data => exact absurd rfl (h data toks)
    | _ => rfl

/-- The loop ends where the heads say, whatever it has read. -/
theorem getFcaps_end (n : ℕ) (mycdt : CdtPutStruct) (toks : List Tok) :
    ∃ mycdt', getFcaps n mycdt (s.goto toks) = (.ok mycdt',s.goto (fcapsEnd n toks)) := by
  induction n generalizing mycdt toks with
  | zero =>
    refine ⟨mycdt,?_⟩
    unfold getFcaps fcapsEnd
    rw [bind_run_ok _ (decode_run eiDecodeListHeader toks)]
    rfl
  | succ n ih =>
    unfold getFcaps
    rcases binary_or_not toks with ⟨key,toks,rfl⟩ | hkey
    · rw [bind_run_ok _ (decodeBinTerm_run key toks)]
      rcases binary_or_not toks with ⟨val,toks,rfl⟩ | hval
      · show ∃ m, (decodeBinTerm >>= _ : Port CdtPutStruct) _ = _
        rw [bind_run_ok _ (decodeBinTerm_run val toks)]
        show ∃ m, (getType >>= _ : Port CdtPutStruct) _ = _
        rw [bind_run_ok _ (getType_run toks)]
        cases toks with
        | nil => exact ⟨mycdt,rfl⟩
        | cons tok rest =>
          by_cases hshort : isShortInteger (typeOf tok) = true
          · obtain ⟨i,hi⟩ := short_decodes hshort rest
            have hend : fcapsEnd (n+1) (.binary key::.binary val::tok::rest) =
                fcapsEnd n rest := if_pos hshort
            show ∃ m, (if ¬isShortInteger (typeOf tok) = true then _ else
              (decode eiDecodeLong >>= _) : Port CdtPutStruct) _ = _
            rw [if_neg (not_not.mpr hshort),bind_run_ok _ (decode_some hi),hend]
            exact ih _ rest
          · have hend : fcapsEnd (n+1) (.binary key::.binary val::tok::rest) = tok::rest :=
              if_neg hshort
            refine ⟨mycdt,?_⟩
            show (if ¬isShortInteger (typeOf tok) = true then _ else
              (decode eiDecodeLong >>= _) : Port CdtPutStruct) _ = _
            rw [if_pos hshort,hend]
            rfl
      · show ∃ m, (decodeBinTerm >>= _ : Port CdtPutStruct) _ = _
        rw [bind_run_ok _ (decodeBinTerm_none hval),fcapsEnd_key hval]
        exact ⟨mycdt,rfl⟩
    · rw [bind_run_ok _ (decodeBinTerm_none hkey),fcapsEnd_stop hkey]
      exact ⟨mycdt,rfl⟩

theorem getBins_end (n : ℕ) (mycdt : CdtPutStruct) (toks : List Tok) :
    ∃ mycdt', getBins env n mycdt (s.goto toks) = (.ok mycdt',s.goto (binsEnd env n toks)) := by
  induction n generalizing mycdt toks with
  | zero =>
    refine ⟨mycdt,?_⟩
    unfold getBins binsEnd
    rw [bind_run_ok _ (decode_run eiDecodeListHeader toks)]
    rfl
  | succ n ih =>
    unfold getBins binsEnd
    rw [bind_run_ok _ (tupleLength_run toks)]
    by_cases hlength : (tupleStart env toks).1 = 2
    · rw [if_neg (not_not.mpr hlength),if_neg (not_not.mpr hlength)]
      generalize (tupleStart env toks).2 = toks
      rcases binary_or_not toks with ⟨name,toks,rfl⟩ | hname
      · rw [bind_run_ok _ (decodeBinTerm_run name toks)]
        show ∃ m, (getType >>= _ : Port CdtPutStruct) _ = _
        rw [bind_run_ok _ (getType_run toks)]
        cases toks with
        | nil => exact ⟨{ mycdt with binName := cStr name },rfl⟩
        | cons tok rest =>
          cases tok with
          | list length =>
            have hheader : decode eiDecodeListHeader (s.goto (.list length::rest)) =
                (.ok (some length),s.goto rest) := decode_some rfl
            obtain ⟨m,hm⟩ := getFcaps_end (s := s) (length/3) { mycdt with binName := cStr name }
              rest
            show ∃ m, (decode eiDecodeListHeader >>= _ : Port CdtPutStruct) _ = _
            rw [bind_run_ok _ hheader]
            show ∃ m, (getFcaps (length/3) { mycdt with binName := cStr name } >>= _ :
              Port CdtPutStruct) _ = _
            rw [bind_run_ok _ hm]
            exact ih m _
          | _ => exact ⟨{ mycdt with binName := cStr name },rfl⟩
      · rw [bind_run_ok _ (decodeBinTerm_none hname)]
        refine ⟨mycdt,?_⟩
        cases toks with
        | nil => rfl
        | cons tok rest =>
          cases tok with
          | binary data => exact absurd rfl (hname data rest)
          | _ => rfl
    · rw [if_pos hlength,if_pos hlength]
      exact ⟨mycdt,rfl⟩

end Runs

section Puts
variable {before : List (List Tok)} {c : Client} {s : PortState}

theorem answers_binName (h : Begun before s) {msg : String} (hmsg : Short (textBytes msg))
    {g : Bytes → Port Unit} {k : Bytes → Cond}
    (hk : ∀ data rest, Answers before (g (cStr data) (s.goto rest)) ↔ k data rest)
    (toks : List Tok) : Answers before ((decodeBinTerm >>= fun d => orStop msg d >>= g)
      (s.goto toks)) ↔ Reads eiDecodeBinary k toks := by
  unfold Reads
  rcases binary_or_not toks with ⟨data,rest,rfl⟩ | hnot
  · rw [bind_run_ok _ (decodeBinTerm_run data rest)]
    show Answers before (g (cStr data) (s.goto rest)) ↔ _
    rw [hk]
    exact forall_read_iff.symm
  · rw [bind_run_ok _ (decodeBinTerm_none hnot)]
    apply iff_of_true (answers_stopped (h.goto toks) hmsg g)
    intro data rest hread
    exact absurd (decodeBinary_iff.mp hread) (hnot data rest)

theorem answers_puts (h : Begun before s) {g : PutRecord → Port Unit}
    (hg : ∀ rec rest, Answers before (g rec (s.goto rest))) (n : ℕ) (rec : PutRecord)
    (toks : List Tok) : Answers before ((putBins c n rec >>= g) (s.goto toks)) ↔
      PutsFit n toks := by
  induction n generalizing rec toks with
  | zero => exact iff_of_true (hg rec toks) trivial
  | succ n ih =>
    unfold putBins PutsFit putBin
    rw [bind_run_assoc]
    apply answers_pair h (by decide)
    intro rest
    simp only [bind_run_assoc]
    apply answers_binName h (by decide)
    intro name rest
    by_cases htext : (eiGetType rest).1 = .string
    · obtain ⟨chars,more,rfl⟩ := getType_string_iff.mp htext
      rw [bind_run_error _ (putBinValue_string rec (cStr name) more)]
      exact iff_of_false not_answers_fault (fun hc => hc.1 htext)
    · obtain ⟨rec',hrec⟩ := putBinValue_end (c := c) (s := s) htext rec (cStr name)
      rw [bind_run_ok _ hrec,and_iff_right htext]
      exact ih rec' _

end Puts

end AspikePort.ArgumentLoops
