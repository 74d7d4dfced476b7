import AspikePort.WrittenLists
import AspikePort.PortPuts

/-!
# The two puts build the same record

Both calls write the values into a record one after the other, each under the
name up to its first zero. The native call writes what it is given, the port
what it makes of the value's tag.
-/

set_option autoImplicit false

namespace AspikePort.PortAgreement
open AspikePort.ErlangTerms AspikePort.ClientValues AspikePort.EarlyReturn
open AspikePort.NifWorld AspikePort.CdtPut AspikePort.PutAgreement AspikePort.SyncCalls
open AspikePort.BinaryBins AspikePort.FallibleLoops AspikePort.WrittenLists
open AspikePort.EiBuffers AspikePort.PortCalls AspikePort.PortPuts Proc

section Records
variable (c : Client)

/-- The name a bin gets in the record, if the client takes it. -/
def binKey (b : Pair) : Option Bytes := if c.takesBin (cStr b.1) then some (cStr b.1) else none

theorem setBin_bins {rec : PutRecord} (b : Pair) (v : AsVal)
    (hroom : rec.bins.length < rec.capacity) : setBin c rec b.1 v =
      { rec with bins := (binKey c b).elim rec.bins (fun k => upsert k v rec.bins) } := by
  unfold setBin PutRecord.set binKey upsert
  by_cases htake : c.takesBin (cStr b.1) = true
  · rw [if_neg (not_not.mpr htake),if_pos htake]
    by_cases hmem : cStr b.1 ∈ rec.bins.map Prod.fst
    · rw [if_pos hmem]
      simp [hmem]
    · rw [if_neg hmem,if_pos hroom]
      simp [hmem]
  · rw [if_pos htake,if_neg htake]
    rfl

theorem upsert_length {k : Bytes} {v : AsVal} (es : List (Bytes × AsVal)) :
    (upsert k v es).length ≤ es.length+1 := by
  unfold upsert
  split_ifs
  · rw [List.length_map]
    omega
  · rw [List.length_append,List.length_singleton]

/-- A record with room for every pair is filled like a list that is written in
place. -/
theorem fill_written (f : BinValue → AsVal) (bs : List Pair) {rec : PutRecord}
    (hroom : rec.bins.length+bs.length ≤ rec.capacity) :
    fill c f bs rec = { rec with bins := written (binKey c) (fun b => f b.2) bs rec.bins } := by
  induction bs generalizing rec with
  | nil => rfl
  | cons b bs ih =>
    rw [List.length_cons] at hroom
    show fill c f bs (setBin c rec b.1 (f b.2)) = _
    rw [setBin_bins c b (f b.2) (by omega),ih]
    · rfl
    · show ((binKey c b).elim rec.bins _).length+bs.length ≤ rec.capacity
      cases binKey c b with
      | none =>
        show rec.bins.length+bs.length ≤ rec.capacity
        omega
      | some k =>
        have hlength := upsert_length (k := k) (v := f b.2) rec.bins
        show (upsert k (f b.2) rec.bins).length+bs.length ≤ rec.capacity
        omega

end Records

section Native
variable {c : Client} {env : Env} {w : World} {ns set key : Bytes}

def nativeValue : BinValue → AsVal
  | .binary data => .bytes data
  | .integer i => .integer i
  | .integers is => .list (is.map .integer)

theorem stored_fits {v : BinValue} (h : v.Fits) : v.stored = some (nativeValue v) := by
  cases v with
  | binary data => rfl
  | integer i => exact if_pos h
  | integers is =>
    have hall : is.filter (fun i => Int64 i) = is := by
      rw [List.filter_eq_self]
      exact fun i hi => decide_eq_true (h i hi)
    rw [BinValue.stored,hall]
    rfl

theorem native_fill {bs : List Pair} (hfits : ∀ b ∈ bs, b.2.Fits) (rec : PutRecord) :
    bs.foldl (fun rec b => setStored c rec b.1 b.2) rec = fill c nativeValue bs rec := by
  induction bs generalizing rec with
  | nil => rfl
  | cons b bs ih =>
    have hone : setStored c rec b.1 b.2 = setBin c rec b.1 (nativeValue b.2) := by
      rw [setStored,stored_fits (hfits b List.mem_cons_self)]
      rfl
    rw [List.foldl_cons,hone,ih (fun d hd => hfits d (List.mem_cons_of_mem b hd))]
    rfl

def nativePut (c : Client) (env : Env) (ns set key : Bytes) (bs : List Pair) (ttl : ℤ) :
    Nif Term :=
  binaryPutSync c env (.binary ns) (.binary set) (.binary key) (pairsTerm bs) (.integer ttl)

theorem native_length (bs : List Pair) : getListLength (pairsTerm bs) = some bs.length := by
  unfold pairsTerm
  rw [getListLength_ofList,List.length_map]

theorem native_loop {bs : List Pair} (hfits : ∀ b ∈ bs, b.2.Fits) (rec : PutRecord) :
    cellsExcept (fun s => .ok s) (putBinaryBin c) bs.length (pairsTerm bs) rec =
      .ok (fill c nativeValue bs rec) := by
  have hlength : bs.length = (bs.map (fun b => pairTerm b.1 b.2)).length :=
    (List.length_map _).symm
  have hloop := cellsExcept_ofList (fun s => .ok s) (putBinaryBin c)
    (bs.map (fun b => pairTerm b.1 b.2)) rec
  rw [← hlength] at hloop
  unfold pairsTerm
  rw [hloop,List.foldlM_map,foldlM_eq_ok (g := fun rec (b : Pair) => setStored c rec b.1 b.2) bs
    (fun b _ rec => putBinaryBin_pair c rec b.1 b.2),native_fill hfits]

theorem native_submissions (hw : w.isConnectedFlag = true) {bs : List Pair} {ttl : ℤ}
    (httl : Int64 ttl) (hfits : ∀ b ∈ bs, b.2.Fits) :
    submissions (nativePut c env ns set key bs ttl) w = some (if bs = [] then [] else
      [.keyPut (asKeyInitStr ns set key)
        (fill c nativeValue bs ⟨bs.length,UInt32.ofInt ttl,[]⟩)]) := by
  have hget : getLong (.integer ttl) = some ttl := if_pos httl
  have hrun : nativePut c env ns set key bs ttl w = (if bs.length = 0 then
      pure (okString "key_put")
    else isConnected >>= fun _ => lift (cellsExcept (fun s => .ok s) (putBinaryBin c) bs.length
      (pairsTerm bs) ⟨bs.length,UInt32.ofInt ttl,[]⟩) >>= fun rec =>
        submit env (.keyPut (asKeyInitStr ns set key) rec) >>= fun r =>
          pure (answerString r "key_put") : Nif Term) w := by
    unfold nativePut binaryPutSync
    rw [binaryKey_binary,lift_ok_bind_run,native_length,orBadarg_some,lift_ok_bind_run,hget,
      orBadarg_some,lift_ok_bind_run]
  unfold submissions
  rw [hrun]
  by_cases hbs : bs = []
  · have hzero : bs.length = 0 := by rw [hbs,List.length_nil]
    rw [if_pos hzero,if_pos hbs]
    show some (w.submitted.drop w.submitted.length) = _
    rw [List.drop_length]
  · have hlength : bs.length ≠ 0 := fun hz => hbs (List.eq_nil_of_length_eq_zero hz)
    rw [if_neg hlength,if_neg hbs,isConnected_bind_run _ hw,native_loop hfits,lift_ok_bind_run,
      NifWorld.submit_bind_run]
    simp [afterSubmit]

end Native

section Agreement
variable {c : Client} {env : Env} {respond : List Request → Response}
variable {w : World} {s : PortState} {ns set key : Bytes} {bs : List Pair} {ttl : ℤ}

/-- Both calls hand one request to the client, and it is the same one. -/
def SameRecord (c : Client) (env : Env) (respond : List Request → Response) (w : World)
    (s : PortState) (ns set key : Bytes) (bs : List Pair) (ttl : ℤ) (rest : List ExternalTerms.Tok) :
    Prop :=
  ∃ req, submissions (nativePut c env ns set key bs ttl) w = some [req] ∧
    portSubmissions c respond s (requestToks ns set key bs ttl ++ rest) = [req]

/-- Every value is taken by its tag, and no binary that stays in the record has
a zero in it. -/
def ReadAlike (c : Client) (bs : List Pair) : Prop :=
  (∀ b ∈ bs, Plain b.2) ∧ ∀ k b, lastOf (binKey c) bs k = some b →
    ∀ data, b.2 = .binary data → 0 ∉ data

theorem value_eq_iff (v : BinValue) :
    nativeValue v = portValue v ↔ ∀ data, v = .binary data → 0 ∉ data := by
  cases v with
  | binary data =>
    constructor
    · intro h data' heq
      cases heq
      exact cStr_eq_self.mp (AsVal.bytes.inj h).symm
    · intro h
      show AsVal.bytes data = .bytes (cStr data)
      rw [cStr_eq_self.mpr (h data rfl)]
  | integer i => exact iff_of_true rfl (fun _ h => by cases h)
  | integers is => exact iff_of_true rfl (fun _ h => by cases h)

theorem fill_bins (f : BinValue → AsVal) (n : ℕ) (t : UInt32) (h : bs.length ≤ n) :
    fill c f bs ⟨n,t,[]⟩ = ⟨n,t,written (binKey c) (fun b => f b.2) bs []⟩ :=
  fill_written c f bs (by simpa using h)

theorem request_eq_iff {k : AsKey} {n : ℕ} {t u : UInt32} {es ds : List (Bytes × AsVal)} :
    Request.keyPut k ⟨n,t,es⟩ = Request.keyPut k ⟨n,u,ds⟩ ↔ t = u ∧ es = ds := by
  simp

theorem plain_same (hw : w.isConnectedFlag = true) (hinit : s.isAerospikeInitialised = true)
    (hconn : s.isConnected = true) (httl : Int64 ttl) (hfits : ∀ b ∈ bs, b.2.Fits)
    (hbs : bs ≠ []) (hplain : ∀ b ∈ bs, Plain b.2) (rest : List ExternalTerms.Tok) :
    SameRecord c env respond w s ns set key bs ttl rest ↔ ∀ k b,
      lastOf (binKey c) bs k = some b → ∀ data, b.2 = .binary data → 0 ∉ data := by
  unfold SameRecord
  rw [native_submissions hw httl hfits,if_neg hbs,port_plain hinit hconn hbs httl hplain hfits,
    fill_bins _ _ _ le_rfl,fill_bins _ _ _ le_rfl]
  constructor
  · rintro ⟨req,hnative,hport⟩ k b hlast
    have heq := (List.cons.inj ((Option.some.inj hnative).trans hport.symm)).1
    have hwritten := (request_eq_iff.mp heq).2
    exact (value_eq_iff b.2).mp ((written_eq_iff _ _ _ bs).mp hwritten k b hlast)
  · intro h
    refine ⟨_,rfl,?_⟩
    congr 2
    have hwritten := (written_eq_iff (binKey c) (fun b : Pair => nativeValue b.2)
      (fun b => portValue b.2) bs).mpr (fun k b hlast => (value_eq_iff b.2).mpr (h k b hlast))
    rw [hwritten]

theorem written_last {key : Pair → Option Bytes} (f : Pair → AsVal) (init : List Pair) (b : Pair)
    (es : List (Bytes × AsVal)) : written key f (init ++ [b]) es =
      (key b).elim (written key f init es) (fun k => upsert k (f b) (written key f init es)) := by
  induction init generalizing es with
  | nil => cases h : key b <;> simp [written,h]
  | cons d init ih => exact ih _

theorem value_plain {v : BinValue} (h : Plain v) {i : ℤ} (hi : ¬Plain (.integer i)) :
    portValue v ≠ .integer i := by
  cases v with
  | integer j =>
    intro heq
    cases heq
    exact hi h
  | _ => exact fun heq => by cases heq

/-- The integer at the end is missing from the port's record, and it is no loss
only where the client does not take the name. -/
theorem last_same (hw : w.isConnectedFlag = true) (hinit : s.isAerospikeInitialised = true)
    (hconn : s.isConnected = true) (httl : Int64 ttl) {init : List Pair} {name : Bytes} {i : ℤ}
    (hplain : ∀ b ∈ init, Plain b.2) (hfits : ∀ b ∈ init ++ [(name,.integer i)], b.2.Fits)
    (hi : ¬Plain (.integer i)) (rest : List ExternalTerms.Tok) :
    SameRecord c env respond w s ns set key (init ++ [(name,.integer i)]) ttl rest ↔
      ¬c.takesBin (cStr name) ∧ UInt32.ofInt i = UInt32.ofInt ttl ∧ ∀ k b,
        lastOf (binKey c) init k = some b → ∀ data, b.2 = .binary data → 0 ∉ data := by
  have hinits : ∀ b ∈ init, b.2.Fits := fun b hb => hfits b (List.mem_append_left _ hb)
  have hlast : Int64 i := hfits (name,.integer i) (by simp)
  have hne : init ++ [(name,BinValue.integer i)] ≠ [] := by simp
  have hlength : (init ++ [(name,BinValue.integer i)]).length = init.length+1 := by simp
  have hport : portSubmissions c respond s
      (requestToks ns set key (init ++ [(name,.integer i)]) ttl ++ rest) =
        [.keyPut (asKeyInitStr ns set key)
          { fill c portValue init ⟨init.length+1,0,[]⟩ with ttl := UInt32.ofInt i }] :=
    port_last_integer hinit hconn hplain hinits hlast hi
  unfold SameRecord
  rw [native_submissions hw httl hfits,if_neg hne,hport,fill_bins _ _ _ le_rfl,
    fill_bins _ _ _ (Nat.le_succ init.length),written_last,hlength]
  by_cases htake : c.takesBin (cStr name) = true
  · have hkey : binKey c (name,.integer i) = some (cStr name) := if_pos htake
    apply iff_of_false
    · rintro ⟨req,hnative,hreq⟩
      have heq := (List.cons.inj ((Option.some.inj hnative).trans hreq.symm)).1
      have hbins := congrArg (find (cStr name)) (request_eq_iff.mp heq).2
      rw [hkey,Option.elim_some,find_upsert,if_pos rfl,find_written] at hbins
      cases hfind : lastOf (binKey c) init (cStr name) with
      | none =>
        rw [hfind] at hbins
        cases hbins
      | some b =>
        have hmem : b ∈ init := List.mem_reverse.mp (List.mem_of_find?_eq_some hfind)
        rw [hfind] at hbins
        exact value_plain (hplain b hmem) hi (Option.some.inj hbins).symm
    · exact fun h => h.1 htake
  · have hkey : binKey c (name,.integer i) = none := if_neg htake
    rw [hkey,Option.elim_none]
    constructor
    · rintro ⟨req,hnative,hreq⟩
      have heq := (List.cons.inj ((Option.some.inj hnative).trans hreq.symm)).1
      obtain ⟨httls,hbins⟩ := request_eq_iff.mp heq
      exact ⟨htake,httls.symm,fun k b hb =>
        (value_eq_iff b.2).mp ((written_eq_iff _ _ _ init).mp hbins k b hb)⟩
    · rintro ⟨-,httls,hzero⟩
      have hbins := (written_eq_iff (binKey c) (fun b : Pair => nativeValue b.2)
        (fun b => portValue b.2) init).mpr (fun k b hb => (value_eq_iff b.2).mpr (hzero k b hb))
      refine ⟨_,rfl,?_⟩
      rw [hbins,httls]

theorem nothing_differs (hinit : s.isAerospikeInitialised = true) (hconn : s.isConnected = true)
    {init post : List Pair} {b : Pair} (hplain : ∀ d ∈ init, Plain d.2)
    (hfits : ∀ d ∈ init ++ b::post, d.2.Fits) (hb : ¬Plain b.2)
    (hrest : post ≠ [] ∨ ∀ i, b.2 ≠ .integer i) (rest : List ExternalTerms.Tok) :
    ¬SameRecord c env respond w s ns set key (init ++ b::post) ttl rest := by
  rintro ⟨req,-,hport⟩
  rw [port_nothing hinit hconn hplain hfits hb hrest] at hport
  cases hport

/-- The pairs are read alike, or all but the last are, and the last is an integer
that the native call has no bin for and the port takes for the ttl it is given
anyway. -/
def SameFor (c : Client) (bs : List Pair) (ttl : ℤ) : Prop :=
  bs ≠ [] ∧ ReadAlike c bs ∨ ∃ init name i, bs = init ++ [(name,.integer i)] ∧
    ¬Plain (.integer i) ∧ ¬c.takesBin (cStr name) ∧ UInt32.ofInt i = UInt32.ofInt ttl ∧
    ReadAlike c init

theorem last_split {init post rest : List Pair} {b d : Pair} (h : init ++ b::post = rest ++ [d])
    (hb : ¬Plain b.2) (hplain : ∀ e ∈ rest, Plain e.2) : post = [] ∧ init = rest ∧ b = d := by
  rcases List.eq_nil_or_concat' post with hpost | ⟨post',e,hpost⟩
  · rw [hpost] at h
    obtain ⟨hinit,hlast⟩ := List.append_inj' h rfl
    exact ⟨hpost,hinit,(List.cons.inj hlast).1⟩
  · rw [hpost,← List.cons_append,← List.append_assoc] at h
    obtain ⟨hinit,-⟩ := List.append_inj' h rfl
    exact absurd (hplain b (hinit ▸ by simp)) hb

/-- The record that the port builds is the native one exactly where `SameFor`
holds. -/
theorem port_put_same_iff (hw : w.isConnectedFlag = true)
    (hinit : s.isAerospikeInitialised = true) (hconn : s.isConnected = true)
    (httl : Int64 ttl) (hfits : ∀ b ∈ bs, b.2.Fits) (rest : List ExternalTerms.Tok) :
    SameRecord c env respond w s ns set key bs ttl rest ↔ SameFor c bs ttl := by
  by_cases hbs : bs = []
  · apply iff_of_false
    · rintro ⟨req,hnative,-⟩
      rw [native_submissions hw httl hfits,if_pos hbs] at hnative
      cases hnative
    · rintro (⟨hne,-⟩ | ⟨init,name,i,heq,-⟩)
      · exact hne hbs
      · rw [hbs] at heq
        simp at heq
  by_cases hplain : ∀ b ∈ bs, Plain b.2
  · rw [plain_same hw hinit hconn httl hfits hbs hplain]
    constructor
    · exact fun h => Or.inl ⟨hbs,hplain,h⟩
    · rintro (⟨-,-,h⟩ | ⟨init,name,i,heq,hi,-⟩)
      · exact h
      · exact absurd (hplain (name,.integer i) (by simp [heq])) hi
  · obtain ⟨init,b,post,rfl,hbefore,hb⟩ := first_failing hplain
    by_cases hlast : post = [] ∧ ∃ i, b.2 = .integer i
    · obtain ⟨rfl,i,hi⟩ := hlast
      obtain ⟨name,value⟩ := b
      cases hi
      rw [last_same hw hinit hconn httl hbefore hfits hb]
      constructor
      · rintro ⟨htake,httls,hzero⟩
        exact Or.inr ⟨init,name,i,rfl,hb,htake,httls,hbefore,hzero⟩
      · rintro (⟨-,hall,-⟩ | ⟨init',name',i',heq,-,htake,httls,hread⟩)
        · exact absurd hall hplain
        · obtain ⟨-,hsame,hpair⟩ := last_split heq hb hread.1
          cases hpair
          rw [hsame]
          exact ⟨htake,httls,hread.2⟩
    · have hrest : post ≠ [] ∨ ∀ i, b.2 ≠ .integer i := by
        by_cases hpost : post = []
        · exact Or.inr (fun i hi => hlast ⟨hpost,i,hi⟩)
        · exact Or.inl hpost
      apply iff_of_false (nothing_differs hinit hconn hbefore hfits hb hrest rest)
      rintro (⟨-,hall,-⟩ | ⟨init',name',i',heq,-,-,-,hread⟩)
      · exact hplain hall
      · obtain ⟨hpost,-,hpair⟩ := last_split heq hb hread.1
        exact hlast ⟨hpost,i',by rw [hpair]⟩

end Agreement

section Example

def connectedPort : PortState where
  isAerospikeInitialised := true
  isConnected := true
  config := plainClient.configInit
  submitted := []
  index := []
  resBuf := []
  written := []

def bytesAndWideList : List Pair :=
  [(textBytes "p",.binary [7]),(textBytes "q",.integers [1,300])]

theorem bytes_and_wide_list_same : SameRecord plainClient plainEnv plainEnv.respond connectedWorld
    connectedPort [97] [98] [99] bytesAndWideList 60 [] := by
  have hfits : ∀ b ∈ bytesAndWideList, b.2.Fits := by
    simp [bytesAndWideList,BinValue.Fits,BinaryBins.Int64]
  have hread : ReadAlike plainClient bytesAndWideList := by
    constructor
    · simp [bytesAndWideList,Plain,StringCoded]
    · intro k b hb data hdata
      have hmem := List.mem_reverse.mp (List.mem_of_find?_eq_some hb)
      simp only [bytesAndWideList,List.mem_cons,List.not_mem_nil,or_false] at hmem
      rcases hmem with rfl | rfl
      · cases hdata
        decide
      · cases hdata
  exact (port_put_same_iff rfl rfl rfl (by decide) hfits []).mpr
    (Or.inl ⟨by simp [bytesAndWideList],hread⟩)

/-- An integer of more than 32 bits is put as the ttl of an empty record. -/
theorem wide_integer_lost : ¬∀ (c : Client) (env : Env) (respond : List Request → Response)
    (w : World) (s : PortState) (ns set key : Bytes) (bs : List Pair) (ttl : ℤ)
    (rest : List ExternalTerms.Tok), w.isConnectedFlag = true → s.isAerospikeInitialised = true →
    s.isConnected = true → BinaryBins.Int64 ttl → (bs.map Prod.fst).Nodup →
    (∀ b ∈ bs, b.2.Fits) → SameRecord c env respond w s ns set key bs ttl rest := by
  intro h
  have hfits : ∀ b ∈ [] ++ [(textBytes "p",BinValue.integer (2^40))], b.2.Fits := by
    simp [BinValue.Fits,BinaryBins.Int64]
  have hwide : ¬Plain (.integer (2^40)) := by simp [Plain]
  have hsame := h plainClient plainEnv plainEnv.respond connectedWorld connectedPort [97] [98] [99]
    ([] ++ [(textBytes "p",.integer (2^40))]) 60 [] rfl rfl rfl (by decide) (by simp) hfits
  have htake := ((last_same rfl rfl rfl (by decide) (fun b hb => absurd hb List.not_mem_nil) hfits
    hwide []).mp hsame).1
  exact htake (by decide)

end Example

end AspikePort.PortAgreement
