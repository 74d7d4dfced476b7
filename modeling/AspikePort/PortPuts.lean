import AspikePort.PortCalls

/-!
# A put read off the wire

The port takes a bin value by the tag it arrives under, and one kind of value
arrives under several tags. A value of a tag it does not know is not passed
over, so the rest of the request is read out of step.
-/

set_option autoImplicit false

namespace AspikePort.PortPuts
open AspikePort.ErlangTerms AspikePort.ClientValues AspikePort.EarlyReturn
open AspikePort.NifWorld AspikePort.PutAgreement AspikePort.SyncCalls AspikePort.BinaryBins
open AspikePort.ExternalTerms AspikePort.EiBuffers AspikePort.PortCalls Proc

section Call
variable (c : Client)

/-- The binary as a zero-terminated string. -/
def decodeBinTerm : Port (Option Bytes) := do
  let (termType,_) ← getType
  if termType ≠ .binary then return none
  else return (← decode eiDecodeBinary).map cStr

/-- What cannot be read is passed over, and the index stays on it. -/
def decodeLongs : ℕ → List ℤ → Port (List ℤ)
  | 0, ints => pure ints
  | n+1, ints => do
    match ← decode eiDecodeLong with
    | some i => decodeLongs n (ints ++ [i])
    | none => decodeLongs n ints

/-- A plain `char` is signed. -/
def signedChar (ch : Byte) : ℤ := if ch.val < 128 then ch.val else (ch.val:ℤ)-256

def putBinValue (rec : PutRecord) (binName : Bytes) : Port PutRecord := do
  let (termType,termSize) ← getType
  match termType with
  | .binary => do
    match ← decodeBinTerm with
    | some binStrValue => return setBin c rec binName (.bytes binStrValue)
    | none => return rec
  | .smallInteger | .integer => do
    match ← decode eiDecodeLong with
    | some binIntValue => return setBin c rec binName (.integer binIntValue)
    | none => return rec
  | .list => do
    let binIntlistLength ← required eiDecodeListHeader "invalid list of ints"
    let ints ← decodeLongs binIntlistLength []
    -- the end of the list
    let _ ← decode eiDecodeListHeader
    return setBin c rec binName (.list (ints.map .integer))
  | .string => do
    -- an array of the text's own length, without room for the zero behind it
    match ← decodeStringInto termSize with
    | some listints => return setBin c rec binName (.list (listints.map (.integer <| signedChar ·)))
    | none => return rec
  | _ => return rec

def putBin (rec : PutRecord) : Port PutRecord := do
  let tLength ← decode eiDecodeTupleHeader
  if tLength ≠ some 2 then stopError "invalid tuple"
  else do
    let binName ← orStop "invalid bin_name" (← decodeBinTerm)
    putBinValue c rec binName

def putBins : ℕ → PutRecord → Port PutRecord
  | 0, rec => pure rec
  | n+1, rec => do putBins n (← putBin c rec)

/-- What follows the list of bins. -/
def putRecord (respond : List Request → Response) (askey : AsKey) (rec : PutRecord) :
    Port Unit := do
  -- the end of the list
  let _ ← decode eiDecodeListHeader
  let recTtl ← required eiDecodeLong "Invalid ttl value"
  let r ← submit respond (.keyPut askey { rec with ttl := UInt32.ofInt recTtl })
  if r.status ≠ aerospikeOk then stopError r.message
  else do
    okMacro (textBytes "binary_key_put")
    postMacro

def callBinaryKeyPut (respond : List Request → Response) : Port Unit := do
  preMacro
  let ns ← binaryArg "BKP invalid namespace bytestring size" "BKP invalid first argument: namespace"
  let set ← binaryArg "BKP invalid set bytestring size" "BKP invalid second argument: namespace"
  let key ← binaryArg "BKP invalid key bytestring size" "BKP invalid second argument: namespace"
  let binListLength ← required eiDecodeListHeader "invalid fourth argument: list"
  checkAll
  let rec ← putBins c binListLength ⟨binListLength,0,[]⟩
  putRecord respond (asKeyInitStr ns set key) rec

end Call

section Request

abbrev Pair := Bytes × BinValue

def valueToks : BinValue → List Tok
  | .binary data => [.binary data]
  | .integer i => integerToks i
  | .integers is => integersToks is

def pairToks (b : Pair) : List Tok := .tuple 2::.binary b.1::valueToks b.2

def pairsTerm (bs : List Pair) : Term := ofList (bs.map (fun b => pairTerm b.1 b.2))

def pairsToks (bs : List Pair) : List Tok :=
  if bs = [] then [.nil] else .list bs.length::(bs.flatMap pairToks ++ [.nil])

/-- The arguments of the request as `term_to_binary` writes them. -/
def requestToks (ns set key : Bytes) (bs : List Pair) (ttl : ℤ) : List Tok :=
  [.binary ns,.binary set,.binary key] ++ pairsToks bs ++ integerToks ttl

theorem writes_value (v : BinValue) : Writes (valueToks v) [v.term] := by
  cases v with
  | binary data => exact writes_binary data
  | integer i => exact writes_integer i
  | integers is => exact writes_integers is

theorem writes_pair (b : Pair) : Writes (pairToks b) [pairTerm b.1 b.2] :=
  ((writes_binary b.1).append (writes_value b.2)).tuple

/-- The heads stand for the terms that the native call is given. -/
theorem writes_request (ns set key : Bytes) (bs : List Pair) (ttl : ℤ) :
    Writes (requestToks ns set key bs ttl)
      [.binary ns,.binary set,.binary key,pairsTerm bs,.integer ttl] := by
  have hpairs : Writes (pairsToks bs) [pairsTerm bs] := by
    unfold pairsToks
    split_ifs with hempty
    · subst hempty
      exact writes_emptyList
    · have hlist := (writes_flatMap writes_pair bs).list
      rwa [List.length_map] at hlist
  have hkeys := ((writes_binary ns).append (writes_binary set)).append (writes_binary key)
  exact (hkeys.append hpairs).append (writes_integer ttl)

end Request

section Values
variable {c : Client} {s : PortState}

/-- A value that the port takes by its tag. -/
def Plain : BinValue → Prop
  | .binary _ => True
  | .integer i => -2^31 ≤ i ∧ i < 2^31
  | .integers is => is ≠ [] ∧ ¬StringCoded is

def portValue : BinValue → AsVal
  | .binary data => .bytes (cStr data)
  | .integer i => .integer i
  | .integers is => .list (is.map .integer)

theorem decodeBinTerm_run (data : Bytes) (rest : List Tok) :
    decodeBinTerm (s.goto (.binary data::rest)) = (.ok (some (cStr data)),s.goto rest) := by
  have hdecode : decode eiDecodeBinary (s.goto (.binary data::rest)) =
      (.ok (some data),s.goto rest) := decode_some rfl
  unfold decodeBinTerm
  rw [bind_run_ok _ (getType_run _)]
  show (decode eiDecodeBinary >>= fun d => pure (d.map cStr)) _ = _
  rw [bind_run_ok _ hdecode]
  rfl

theorem decodeLongs_run {is : List ℤ} (h : ∀ i ∈ is, Int64 i) (ints : List ℤ)
    (rest : List Tok) : decodeLongs is.length ints (s.goto (is.flatMap integerToks ++ rest)) =
      (.ok (ints ++ is),s.goto rest) := by
  induction is generalizing ints with
  | nil =>
    rw [List.append_nil]
    rfl
  | cons i is ih =>
    have hdecode := decode_some (s := s) (decodeLong_integer (h i List.mem_cons_self)
      (is.flatMap integerToks ++ rest))
    rw [List.flatMap_cons,List.append_assoc,List.length_cons,decodeLongs,
      bind_run_ok _ hdecode]
    show decodeLongs is.length (ints ++ [i]) _ = _
    rw [ih (fun j hj => h j (List.mem_cons_of_mem i hj)),List.append_assoc]
    rfl

theorem integerToks_narrow {i : ℤ} (h : -2^31 ≤ i ∧ i < 2^31) :
    (∃ ch, integerToks i = [.smallInteger ch]) ∨ integerToks i = [.integer i] := by
  unfold integerToks
  by_cases hsmall : 0 ≤ i ∧ i < 256
  · exact Or.inl ⟨_,if_pos hsmall⟩
  · exact Or.inr (by rw [if_neg hsmall,if_pos h])

theorem putBinValue_plain {v : BinValue} (hv : Plain v) (hfits : v.Fits) (rec : PutRecord)
    (name : Bytes) (rest : List Tok) : putBinValue c rec name (s.goto (valueToks v ++ rest)) =
      (.ok (setBin c rec name (portValue v)),s.goto rest) := by
  cases v with
  | binary data =>
    unfold putBinValue
    rw [bind_run_ok _ (getType_run _)]
    show (decodeBinTerm >>= _) _ = _
    rw [show valueToks (.binary data) ++ rest = .binary data::rest from rfl,
      bind_run_ok _ (decodeBinTerm_run data rest)]
    rfl
  | integer i =>
    have hdecode := decode_some (s := s) (decodeLong_integer hfits rest)
    unfold putBinValue
    rw [bind_run_ok _ (getType_run _)]
    rcases integerToks_narrow hv with ⟨ch,heq⟩ | heq
    · rw [show valueToks (.integer i) = [.smallInteger ch] from heq]
      rw [heq] at hdecode
      show (decode eiDecodeLong >>= _) _ = _
      rw [bind_run_ok _ hdecode]
      rfl
    · rw [show valueToks (.integer i) = [.integer i] from heq]
      rw [heq] at hdecode
      show (decode eiDecodeLong >>= _) _ = _
      rw [bind_run_ok _ hdecode]
      rfl
  | integers is =>
    have heq : valueToks (.integers is) ++ rest =
        .list is.length::(is.flatMap integerToks ++ .nil::rest) := by
      show integersToks is ++ rest = _
      rw [integersToks,if_neg hv.1,if_neg hv.2,List.cons_append,List.append_assoc]
      rfl
    have hheader : required eiDecodeListHeader "invalid list of ints"
        (s.goto (.list is.length::(is.flatMap integerToks ++ .nil::rest))) =
          (.ok is.length,s.goto (is.flatMap integerToks ++ .nil::rest)) := required_some _ rfl
    have hend : decode eiDecodeListHeader (s.goto (.nil::rest)) = (.ok (some 0),s.goto rest) :=
      decode_some rfl
    unfold putBinValue
    rw [heq,bind_run_ok _ (getType_run _)]
    show (required eiDecodeListHeader _ >>= _) _ = _
    rw [bind_run_ok _ hheader,bind_run_ok _ (decodeLongs_run hfits [] _),bind_run_ok _ hend]
    rfl

theorem putBin_run (rec : PutRecord) (b : Pair) (rest : List Tok) :
    putBin c rec (s.goto (pairToks b ++ rest)) =
      putBinValue c rec (cStr b.1) (s.goto (valueToks b.2 ++ rest)) := by
  have htuple : decode eiDecodeTupleHeader (s.goto (pairToks b ++ rest)) =
      (.ok (some 2),s.goto (.binary b.1::(valueToks b.2 ++ rest))) := decode_some rfl
  unfold putBin
  rw [bind_run_ok _ htuple]
  show (decodeBinTerm >>= _) _ = _
  rw [bind_run_ok _ (decodeBinTerm_run b.1 _)]
  rfl

theorem cStr_cStr (data : Bytes) : cStr (cStr data) = cStr data := by
  unfold cStr
  rw [List.takeWhile_takeWhile]
  simp

theorem setBin_cStr (rec : PutRecord) (name : Bytes) (v : AsVal) :
    setBin c rec (cStr name) v = setBin c rec name v := by
  unfold setBin
  rw [cStr_cStr]

/-- Pairs of plain values are read one by one, whatever stands behind them. -/
theorem putBins_plain {bs : List Pair} (hplain : ∀ b ∈ bs, Plain b.2)
    (hfits : ∀ b ∈ bs, b.2.Fits) (m : ℕ) (rec : PutRecord) (rest : List Tok) :
    putBins c (bs.length+m) rec (s.goto (bs.flatMap pairToks ++ rest)) =
      putBins c m (bs.foldl (fun rec b => setBin c rec b.1 (portValue b.2)) rec)
        (s.goto rest) := by
  induction bs generalizing rec with
  | nil =>
    rw [List.length_nil,Nat.zero_add]
    rfl
  | cons b bs ih =>
    have hone : putBin c rec (s.goto (pairToks b ++ (bs.flatMap pairToks ++ rest))) =
        (.ok (setBin c rec b.1 (portValue b.2)),s.goto (bs.flatMap pairToks ++ rest)) := by
      rw [putBin_run,putBinValue_plain (hplain b List.mem_cons_self) (hfits b List.mem_cons_self),
        setBin_cStr]
    have hcount : (b::bs).length+m = bs.length+m+1 := by
      rw [List.length_cons]
      omega
    rw [hcount,List.flatMap_cons,List.append_assoc,putBins,bind_run_ok _ hone,
      ih (fun d hd => hplain d (List.mem_cons_of_mem b hd))
        (fun d hd => hfits d (List.mem_cons_of_mem b hd))]
    rfl

end Values

section Outcomes
variable {c : Client} {s : PortState} {respond : List Request → Response}

/-- The call ends here and has handed nothing to the client. -/
def StopsQuietly {α : Type} (p : Port α) (s : PortState) : Prop :=
  ∃ e t, p s = (.error e,t) ∧ t.submitted = s.submitted

theorem StopsQuietly.bind {α β : Type} {p : Port α} (h : StopsQuietly p s) (f : α → Port β) :
    StopsQuietly (p >>= f) s := by
  obtain ⟨e,t,hp,hsub⟩ := h
  exact ⟨e,t,bind_run_error f hp,hsub⟩

theorem stopsQuietly_of_run {α β : Type} {p : Port α} {f : α → Port β} {a : α} {t : PortState}
    (hp : p s = (.ok a,t)) (hsub : t.submitted = s.submitted) (h : StopsQuietly (f a) t) :
    StopsQuietly (p >>= f) s := by
  obtain ⟨e,u,hf,hu⟩ := h
  exact ⟨e,u,by rw [bind_run_ok f hp,hf],hu.trans hsub⟩

theorem stopsQuietly_stopError {α : Type} (msg : String) :
    StopsQuietly (stopError msg : Port α) s := ⟨_,_,stopError_run msg,rfl⟩

/-- A value under a tag that the port does not know stays where it is. -/
theorem putBinValue_unknown {tok : Tok} (h : typeOf tok = .big ∨ typeOf tok = .nil)
    (rec : PutRecord) (name : Bytes) (rest : List Tok) :
    putBinValue c rec name (s.goto (tok::rest)) = (.ok rec,s.goto (tok::rest)) := by
  unfold putBinValue
  rw [bind_run_ok _ (getType_run _)]
  show (match typeOf tok with | _ => _ : Port PutRecord) _ = _
  rcases h with h | h <;> rw [h] <;> rfl

theorem putBins_stuck {tok : Tok} (h : typeOf tok = .big ∨ typeOf tok = .nil) (n : ℕ)
    (rec : PutRecord) (rest : List Tok) :
    StopsQuietly (putBins c (n+1) rec) (s.goto (tok::rest)) := by
  have hnone : eiDecodeTupleHeader (tok::rest) = none := by
    cases tok with
    | tuple arity => rcases h with h | h <;> cases h
    | _ => rfl
  have hstop : StopsQuietly (putBin c rec) (s.goto (tok::rest)) := by
    unfold putBin
    exact stopsQuietly_of_run (decode_none hnone) rfl (stopsQuietly_stopError _)
  exact hstop.bind _

/-- The array has no room for the zero behind the text. -/
theorem putBinValue_string {chars : Bytes} (rec : PutRecord) (name : Bytes) (rest : List Tok) :
    putBinValue c rec name (s.goto (.string chars::rest)) =
      (.error (.fault .bufferOverflow),s.goto (.string chars::rest)) := by
  have hover : decodeStringInto chars.length (s.goto (.string chars::rest)) =
      (.error (.fault .bufferOverflow),s.goto (.string chars::rest)) :=
    if_pos (Nat.lt_succ_self chars.length)
  unfold putBinValue
  rw [bind_run_ok _ (getType_run _)]
  exact bind_run_error _ hover

theorem putBinValue_text {chars : Bytes} (rec : PutRecord) (name : Bytes) (rest : List Tok) :
    StopsQuietly (putBinValue c rec name) (s.goto (.string chars::rest)) :=
  ⟨_,_,putBinValue_string rec name rest,rfl⟩

theorem putRecord_long {toks rest : List Tok} {t : ℤ} (k : AsKey) (rec : PutRecord)
    (h : eiDecodeLong toks = some (t,rest)) {u : PortState}
    (hend : (decode eiDecodeListHeader u).2 = s.goto toks)
    (hok : ∃ n, (decode eiDecodeListHeader u).1 = .ok n) :
    (putRecord respond k rec u).2.submitted =
      s.submitted ++ [.keyPut k { rec with ttl := UInt32.ofInt t }] := by
  obtain ⟨n,hn⟩ := hok
  have hfirst : decode eiDecodeListHeader u = (.ok n,s.goto toks) := Prod.ext hn hend
  unfold putRecord
  rw [bind_run_ok _ hfirst,bind_run_ok _ (required_some _ h)]
  show ((if (respond _).status ≠ aerospikeOk then _ else _ : Port Unit) _).2.submitted = _
  split_ifs <;> rfl

theorem wide_integer {i : ℤ} (hi : Int64 i) (h : ¬Plain (.integer i)) :
    ∃ tok, integerToks i = [tok] ∧ typeOf tok = .big ∧ longOf tok = some i := by
  have hwide : ¬(-2^31 ≤ i ∧ i < 2^31) := h
  have hsmall : ¬(0 ≤ i ∧ i < 256) := by omega
  have heq : integerToks i =
      [.big (decide (i < 0)) ((Nat.digits 256 i.natAbs).map (Fin.ofNat 256))] := by
    rw [integerToks,if_neg hsmall,if_neg hwide]
  have hlong := decodeLong_integer hi []
  rw [heq] at hlong
  obtain ⟨j,hj,hpair⟩ := Option.map_eq_some_iff.mp hlong
  refine ⟨_,heq,rfl,?_⟩
  rw [hj,(Prod.mk.inj hpair).1]

theorem not_plain {v : BinValue} (hfits : v.Fits) (h : ¬Plain v) : ∃ tok, valueToks v = [tok] ∧
    ((∃ i, v = .integer i ∧ typeOf tok = .big) ∨ tok = .nil ∨ ∃ chars, tok = .string chars) := by
  cases v with
  | binary data => exact absurd trivial h
  | integer i =>
    obtain ⟨tok,htok,hbig,-⟩ := wide_integer hfits h
    exact ⟨tok,htok,Or.inl ⟨i,rfl,hbig⟩⟩
  | integers is =>
    by_cases hempty : is = []
    · exact ⟨.nil,by rw [valueToks,integersToks,if_pos hempty],Or.inr (Or.inl rfl)⟩
    · have hcoded : StringCoded is := by
        by_contra hc
        exact h ⟨hempty,hc⟩
      exact ⟨_,by rw [valueToks,integersToks,if_neg hempty,if_pos hcoded],
        Or.inr (Or.inr ⟨_,rfl⟩)⟩

def fill (c : Client) (f : BinValue → AsVal) (bs : List Pair) (rec : PutRecord) : PutRecord :=
  bs.foldl (fun rec b => setBin c rec b.1 (f b.2)) rec

/-- What the call has handed to the client when it reads the given arguments. -/
def portSubmissions (c : Client) (respond : List Request → Response) (s : PortState)
    (args : List Tok) : List Request :=
  (callBinaryKeyPut c respond (s.goto args)).2.submitted.drop s.submitted.length

theorem call_run (hinit : s.isAerospikeInitialised = true) (hconn : s.isConnected = true)
    {bs : List Pair} (hbs : bs ≠ []) (ns set key : Bytes) (ttl : ℤ) (rest : List Tok) :
    callBinaryKeyPut c respond (s.goto (requestToks ns set key bs ttl ++ rest)) =
      (putBins c bs.length ⟨bs.length,0,[]⟩ >>= putRecord respond (asKeyInitStr ns set key))
        (s.fresh.goto (bs.flatMap pairToks ++ Tok.nil::(integerToks ttl ++ rest))) := by
  have hlist : requestToks ns set key bs ttl ++ rest = .binary ns::.binary set::.binary key::
      .list bs.length::(bs.flatMap pairToks ++ Tok.nil::(integerToks ttl ++ rest)) := by
    unfold requestToks pairsToks
    rw [if_neg hbs]
    simp only [List.append_assoc,List.cons_append,List.nil_append]
  have hheader : required eiDecodeListHeader "invalid fourth argument: list"
      (s.fresh.goto (.list bs.length::(bs.flatMap pairToks ++ .nil::(integerToks ttl ++ rest)))) =
        (.ok bs.length,s.fresh.goto (bs.flatMap pairToks ++ .nil::(integerToks ttl ++ rest))) :=
    required_some _ rfl
  have hchecked := checkAll_run (s := s.fresh.goto
    (bs.flatMap pairToks ++ .nil::(integerToks ttl ++ rest))) hinit hconn
  unfold callBinaryKeyPut
  rw [hlist,preMacro_bind_run,bind_run_ok _ (binaryArg_run _ _ _ _),
    bind_run_ok _ (binaryArg_run _ _ _ _),bind_run_ok _ (binaryArg_run _ _ _ _),
    bind_run_ok _ hheader,bind_run_ok _ hchecked]

variable {ns set key : Bytes} {bs : List Pair} {ttl : ℤ} {rest : List Tok}

/-- Pairs of plain values are put as they are read. -/
theorem port_plain (hinit : s.isAerospikeInitialised = true) (hconn : s.isConnected = true)
    (hbs : bs ≠ []) (httl : Int64 ttl) (hplain : ∀ b ∈ bs, Plain b.2)
    (hfits : ∀ b ∈ bs, b.2.Fits) :
    portSubmissions c respond s (requestToks ns set key bs ttl ++ rest) =
      [.keyPut (asKeyInitStr ns set key)
        { fill c portValue bs ⟨bs.length,0,[]⟩ with ttl := UInt32.ofInt ttl }] := by
  have hbins : putBins c bs.length ⟨bs.length,0,[]⟩
      (s.fresh.goto (bs.flatMap pairToks ++ .nil::(integerToks ttl ++ rest))) =
        (.ok (fill c portValue bs ⟨bs.length,0,[]⟩),
          s.fresh.goto (.nil::(integerToks ttl ++ rest))) := putBins_plain hplain hfits 0 _ _
  unfold portSubmissions
  rw [call_run hinit hconn hbs,bind_run_ok _ hbins,
    putRecord_long _ _ (decodeLong_integer httl rest) rfl ⟨some 0,rfl⟩]
  exact List.drop_left

/-- The call up to the first value that is not plain. -/
theorem call_to_unread (hinit : s.isAerospikeInitialised = true) (hconn : s.isConnected = true)
    {init post : List Pair} {b : Pair} (hplain : ∀ d ∈ init, Plain d.2)
    (hfits : ∀ d ∈ init, d.2.Fits) {tok : Tok} (htok : valueToks b.2 = [tok]) :
    callBinaryKeyPut c respond (s.goto (requestToks ns set key (init ++ b::post) ttl ++ rest)) =
      ((putBinValue c (fill c portValue init ⟨init.length+(post.length+1),0,[]⟩) (cStr b.1) >>=
        putBins c post.length) >>= putRecord respond (asKeyInitStr ns set key))
          (s.fresh.goto (tok::(post.flatMap pairToks ++ .nil::(integerToks ttl ++ rest)))) := by
  have hne : init ++ b::post ≠ [] := by simp
  have hcount : (init ++ b::post).length = init.length+(post.length+1) := by
    rw [List.length_append,List.length_cons]
  have hsplit : (init ++ b::post).flatMap pairToks ++ Tok.nil::(integerToks ttl ++ rest) =
      init.flatMap pairToks ++ (pairToks b ++
        (post.flatMap pairToks ++ .nil::(integerToks ttl ++ rest))) := by
    rw [List.flatMap_append,List.flatMap_cons,List.append_assoc,List.append_assoc]
  have hone : ∀ rec, putBin c rec (s.fresh.goto (pairToks b ++
      (post.flatMap pairToks ++ .nil::(integerToks ttl ++ rest)))) =
        putBinValue c rec (cStr b.1) (s.fresh.goto (tok::(post.flatMap pairToks ++
          .nil::(integerToks ttl ++ rest)))) := by
    intro rec
    rw [putBin_run,htok]
    rfl
  rw [call_run hinit hconn hne,hsplit,hcount]
  apply bind_run_congr
  rw [putBins_plain hplain hfits,putBins]
  exact bind_run_congr _ (hone _)

theorem unread_then_pair {tok : Tok} (h : typeOf tok = .big ∨ typeOf tok = .nil)
    (rec : PutRecord) (name : Bytes) {n : ℕ} (hn : n ≠ 0) (rest : List Tok) :
    StopsQuietly (putBinValue c rec name >>= putBins c n) (s.goto (tok::rest)) := by
  obtain ⟨m,rfl⟩ := Nat.exists_eq_succ_of_ne_zero hn
  exact stopsQuietly_of_run (putBinValue_unknown h rec name rest) rfl (putBins_stuck h m rec rest)

/-- The empty list is taken for the end of the bins, and the end of the bins for
the ttl. -/
theorem unread_nil (k : AsKey) (rec : PutRecord) (name : Bytes) (rest : List Tok) :
    StopsQuietly ((putBinValue c rec name >>= putBins c 0) >>= putRecord respond k)
      (s.goto (.nil::.nil::rest)) := by
  have hvalue : (putBinValue c rec name >>= putBins c 0) (s.goto (.nil::.nil::rest)) =
      (.ok rec,s.goto (.nil::.nil::rest)) := by
    rw [bind_run_ok _ (putBinValue_unknown (Or.inr rfl) rec name _)]
    rfl
  have hend : decode eiDecodeListHeader (s.goto (.nil::.nil::rest)) =
      (.ok (some 0),s.goto (.nil::rest)) := decode_some rfl
  apply stopsQuietly_of_run hvalue rfl
  unfold putRecord
  apply stopsQuietly_of_run hend rfl
  apply StopsQuietly.bind
  exact ⟨_,_,(required_none _ rfl).trans (stopError_run _),rfl⟩

/-- An unread value that is no integer at the end leaves nothing put. -/
theorem port_nothing (hinit : s.isAerospikeInitialised = true) (hconn : s.isConnected = true)
    {init post : List Pair} {b : Pair} (hplain : ∀ d ∈ init, Plain d.2)
    (hfits : ∀ d ∈ init ++ b::post, d.2.Fits) (hb : ¬Plain b.2)
    (hrest : post ≠ [] ∨ ∀ i, b.2 ≠ .integer i) :
    portSubmissions c respond s (requestToks ns set key (init ++ b::post) ttl ++ rest) = [] := by
  have hinits : ∀ d ∈ init, d.2.Fits := fun d hd => hfits d (List.mem_append_left _ hd)
  obtain ⟨tok,htok,hkind⟩ := not_plain (hfits b (by simp)) hb
  have hquiet : StopsQuietly ((putBinValue c (fill c portValue init
      ⟨init.length+(post.length+1),0,[]⟩) (cStr b.1) >>= putBins c post.length) >>=
        putRecord respond (asKeyInitStr ns set key))
      (s.fresh.goto (tok::(post.flatMap pairToks ++ .nil::(integerToks ttl ++ rest)))) := by
    rcases hkind with ⟨i,hi,hbig⟩ | rfl | ⟨chars,rfl⟩
    · have hpost : post ≠ [] := hrest.resolve_right (fun h => h i hi)
      have hlength : post.length ≠ 0 := fun hz => hpost (List.eq_nil_of_length_eq_zero hz)
      exact (unread_then_pair (Or.inl hbig) _ _ hlength _).bind _
    · cases post with
      | nil => exact unread_nil _ _ _ _
      | cons d post => exact (unread_then_pair (Or.inr rfl) _ _ (Nat.succ_ne_zero _) _).bind _
    · exact ((putBinValue_text _ _ _).bind _).bind _
  obtain ⟨e,t,hrun,hsub⟩ := hquiet
  unfold portSubmissions
  rw [call_to_unread hinit hconn hplain hinits htok,hrun]
  show t.submitted.drop s.submitted.length = []
  rw [hsub]
  exact List.drop_length

/-- An integer at the very end that is not read as a value is read as the ttl. -/
theorem port_last_integer (hinit : s.isAerospikeInitialised = true)
    (hconn : s.isConnected = true) {init : List Pair} {name : Bytes} {i : ℤ}
    (hplain : ∀ d ∈ init, Plain d.2) (hfits : ∀ d ∈ init, d.2.Fits) (hi : Int64 i)
    (hwide : ¬Plain (.integer i)) :
    portSubmissions c respond s
      (requestToks ns set key (init ++ [(name,.integer i)]) ttl ++ rest) =
        [.keyPut (asKeyInitStr ns set key)
          { fill c portValue init ⟨init.length+1,0,[]⟩ with ttl := UInt32.ofInt i }] := by
  obtain ⟨tok,htok,hbig,hlong⟩ := wide_integer hi hwide
  obtain ⟨k,hk⟩ : ∃ k, k = asKeyInitStr ns set key := ⟨_,rfl⟩
  obtain ⟨toks,htoks⟩ : ∃ toks, toks = Tok.nil::(integerToks ttl ++ rest) := ⟨_,rfl⟩
  have hvalue : ∀ rec, (putBinValue c rec (cStr name) >>= putBins c 0)
      (s.fresh.goto (tok::toks)) = (.ok rec,s.fresh.goto (tok::toks)) := by
    intro rec
    rw [bind_run_ok _ (putBinValue_unknown (Or.inl hbig) rec _ _)]
    rfl
  have hnone : eiDecodeListHeader (tok::toks) = none := by
    cases tok with
    | list n => cases hbig
    | nil => cases hbig
    | _ => rfl
  have hend : decode eiDecodeListHeader (s.fresh.goto (tok::toks)) =
      (.ok none,s.fresh.goto (tok::toks)) := decode_none hnone
  have hread : eiDecodeLong (tok::toks) = some (i,toks) := by
    show (longOf tok).map _ = _
    rw [hlong]
    rfl
  unfold portSubmissions
  rw [call_to_unread hinit hconn hplain hfits (b := (name,.integer i)) htok,List.flatMap_nil,
    List.nil_append,← htoks,← hk,List.length_nil,bind_run_ok _ (hvalue _),
    putRecord_long k _ hread (congrArg Prod.snd hend) ⟨none,congrArg Prod.fst hend⟩]
  exact List.drop_left

end Outcomes

end AspikePort.PortPuts
