import AspikePort.KeyReads
import AspikePort.PortCdtPuts
import AspikePort.PortSessions

/-!
# The key calls of both halves

Natively a character list is read as UTF-8. Over the port it arrives as a string
of bytes and is taken as it is. The two send the same requests exactly if no
text goes beyond ASCII, or if there is nothing to send.
-/

set_option autoImplicit false

namespace AspikePort.KeyAgreement
open AspikePort.ErlangTerms AspikePort.ClientValues AspikePort.EarlyReturn AspikePort.NifWorld
open AspikePort.KeptTexts AspikePort.WrittenLists AspikePort.BinaryBins AspikePort.PortAgreement
open AspikePort.ExternalTerms AspikePort.EiBuffers AspikePort.PortCalls AspikePort.PortHandlers
open AspikePort.PutAgreement AspikePort.SyncCalls AspikePort.StoreCalls
open AspikePort.KeyLedger AspikePort.KeyReads AspikePort.PortSessions
open AspikePort.PortPuts (Pair fill)
open Proc

section Texts
variable {s : String}

/-- The bytes of a string that is sent with one byte for each character. -/
def wireBytes (s : String) : Bytes := s.toList.map (fun ch => Fin.ofNat 256 ch.toNat)

def Latin1 (s : String) : Prop := ∀ ch ∈ s.toList, ch.toNat < 256

def Ascii (s : String) : Prop := ∀ ch ∈ s.toList, ch.toNat < 128

def utf8Text (chars : Bytes) : Bytes := chars.flatMap (fun b => utf8 b.val)

theorem byte_val {n : ℕ} (h : n < 256) : (Fin.ofNat 256 n).val = n := Nat.mod_eq_of_lt h

theorem textBytes_wire (h : Latin1 s) : textBytes s = utf8Text (wireBytes s) := by
  unfold textBytes utf8Text wireBytes
  rw [List.flatMap_map]
  exact List.flatMap_congr fun ch hch => by rw [byte_val (h ch hch)]

theorem utf8Text_injective : Function.Injective utf8Text := by
  intro a b h
  have hpoint : ∀ chars : Bytes, ∀ n ∈ chars.map Fin.val, IsCodePoint n := by
    intro chars n hn
    obtain ⟨b,-,rfl⟩ := List.mem_map.mp hn
    have hb := b.isLt
    unfold IsCodePoint
    omega
  have hflat : (a.map Fin.val).flatMap utf8 = (b.map Fin.val).flatMap utf8 := by
    rw [List.flatMap_map,List.flatMap_map]
    exact h
  exact List.map_injective_iff.mpr Fin.val_injective
    (utf8_prefixFree.flatMap_injective (hpoint a) (hpoint b) hflat)

theorem utf8_ascii {n : ℕ} (h : n < 128) : utf8 n = [Fin.ofNat 256 n] := if_pos h

theorem utf8_longer {n : ℕ} (h : ¬n < 128) : 2 ≤ (utf8 n).length := by
  unfold utf8
  rw [if_neg h]
  split_ifs <;> simp

theorem flatMap_longer (cs : List ℕ) : cs.length ≤ (cs.flatMap utf8).length ∧
    ((cs.flatMap utf8).length = cs.length → ∀ n ∈ cs, n < 128) := by
  induction cs with
  | nil => simp
  | cons n cs ih =>
    obtain ⟨hle,hall⟩ := ih
    rw [List.flatMap_cons,List.length_append,List.length_cons,List.forall_mem_cons]
    by_cases hn : n < 128
    · rw [utf8_ascii hn,List.length_singleton]
      exact ⟨by omega,fun h => ⟨hn,hall (by omega)⟩⟩
    · have hlong := utf8_longer hn
      exact ⟨by omega,fun h => by omega⟩

theorem textBytes_points (s : String) : textBytes s = (s.toList.map Char.toNat).flatMap utf8 := by
  unfold textBytes
  rw [List.flatMap_map]

theorem wireBytes_length (s : String) : (wireBytes s).length ≤ (textBytes s).length := by
  have hle := (flatMap_longer (s.toList.map Char.toNat)).1
  rw [List.length_map] at hle
  rw [textBytes_points,wireBytes,List.length_map]
  exact hle

/-- The two encodings of a text are the same exactly for ASCII. -/
theorem wire_eq_iff (s : String) : textBytes s = wireBytes s ↔ Ascii s := by
  constructor
  · intro h ch hch
    have hlength := congrArg List.length h
    rw [textBytes_points,wireBytes,List.length_map] at hlength
    refine (flatMap_longer (s.toList.map Char.toNat)).2 ?_ _ (List.mem_map_of_mem hch)
    rw [hlength,List.length_map]
  · intro h
    unfold textBytes wireBytes
    rw [List.map_eq_flatMap]
    exact List.flatMap_congr fun ch hch => utf8_ascii (h ch hch)

theorem wire_zeroFree (h : Latin1 s) (hzero : 0 ∉ textBytes s) : 0 ∉ wireBytes s := by
  intro hmem
  obtain ⟨ch,hch,heq⟩ := List.mem_map.mp hmem
  have hnat : ch.toNat = 0 := by
    rw [← byte_val (h ch hch),heq]
    rfl
  apply hzero
  unfold textBytes
  refine List.mem_flatMap.mpr ⟨ch,hch,?_⟩
  rw [hnat]
  exact List.mem_singleton.mpr rfl

end Texts

section Refusals
variable {α β : Type} {p : Port α} {s t : PortState}

/-- A call that leaves before it has sent anything. -/
def Refuses (p : Port α) (s : PortState) : Prop :=
  ∃ l, (p s).1 = .error l ∧ (p s).2.submitted = s.submitted

theorem Refuses.bind (h : Refuses p s) (f : α → Port β) : Refuses (p >>= f) s := by
  obtain ⟨l,hleave,hsub⟩ := h
  have hrun : p s = (.error l,(p s).2) := Prod.ext hleave rfl
  have hbind := bind_run_error f hrun
  exact ⟨l,by rw [hbind],by rw [hbind]; exact hsub⟩

theorem Refuses.after {a : α} {f : α → Port β} (h : Refuses (f a) t) (hrun : p s = (.ok a,t))
    (hsub : t.submitted = s.submitted) : Refuses (p >>= f) s := by
  obtain ⟨l,hleave,hrest⟩ := h
  rw [← bind_run_ok f hrun] at hleave hrest
  exact ⟨l,hleave,hrest.trans hsub⟩

end Refusals

section Arguments
variable {t : PortState}

/-- A text as `term_to_binary` writes it. -/
def textToks (s : String) : List Tok := integersToks (s.toList.map (fun ch => (ch.toNat:ℤ)))

theorem latin1_iff (s : String) : Latin1 s ↔
    ∀ i ∈ s.toList.map (fun ch => (ch.toNat:ℤ)), 0 ≤ i ∧ i < 256 := by
  rw [List.forall_mem_map]
  exact forall₂_congr fun ch _ => by omega

theorem textToks_latin1 {s : String} (h : Latin1 s) (hlength : (wireBytes s).length ≤ 65535) :
    textToks s = if s.toList = [] then [.nil] else [.string (wireBytes s)] := by
  rw [wireBytes,List.length_map] at hlength
  have hcoded : StringCoded (s.toList.map (fun ch => (ch.toNat:ℤ))) :=
    ⟨by rwa [List.length_map],(latin1_iff s).mp h⟩
  unfold textToks integersToks
  rw [if_pos hcoded,List.map_map]
  simp only [List.map_eq_nil_iff]
  rfl

variable {size : ℕ}

theorem textArg_run {s : String} (hs : Latin1 s) (h : (wireBytes s).length < size)
    (hlength : (wireBytes s).length ≤ 65535) (msg : String) (rest : List Tok) :
    textArg size msg (t.goto (textToks s ++ rest)) = (.ok (wireBytes s),t.goto rest) := by
  have hdecode : eiDecodeString (textToks s ++ rest) =
      ((wireBytes s).length+1,some (wireBytes s,rest)) := by
    rw [textToks_latin1 hs hlength]
    split_ifs with hempty
    · unfold wireBytes
      rw [hempty]
      rfl
    · rfl
  have hroom : ¬size < (wireBytes s).length+1 := by omega
  have hinto : decodeStringInto size (t.goto (textToks s ++ rest)) =
      (.ok (some (wireBytes s)),t.goto rest) := by
    unfold decodeStringInto
    simp only [goto_index,hdecode,if_neg hroom]
    rfl
  unfold textArg
  rw [bind_run_ok _ hinto]
  rfl

/-- The characters are stored up to the first one that is none. -/
theorem charRun_short {is : List ℤ} (h : ¬∀ i ∈ is, 0 ≤ i ∧ i < 256) (rest : List Tok) :
    (charRun is.length (is.flatMap integerToks ++ rest)).1.length < is.length := by
  induction is with
  | nil => exact absurd (fun i hi => absurd hi List.not_mem_nil) h
  | cons i is ih =>
    rw [List.flatMap_cons,List.append_assoc,List.length_cons]
    unfold integerToks
    by_cases hi : 0 ≤ i ∧ i < 256
    · have hrest : ¬∀ j ∈ is, 0 ≤ j ∧ j < 256 := fun hall =>
        h (List.forall_mem_cons.mpr ⟨hi,hall⟩)
      rw [if_pos hi]
      change (charRun is.length (is.flatMap integerToks ++ rest)).1.length+1 < _
      have := ih hrest
      omega
    · rw [if_neg hi]
      split_ifs <;> exact Nat.succ_pos _

theorem decode_other {s : String} (hs : ¬Latin1 s) (rest : List Tok) :
    (eiDecodeString (textToks s ++ rest)).2 = none := by
  have hall := mt (latin1_iff s).mpr hs
  have hne : s.toList.map (fun ch => (ch.toNat:ℤ)) ≠ [] := fun hnil => by
    rw [hnil] at hall
    exact hall (fun i hi => absurd hi List.not_mem_nil)
  have hcoded : ¬StringCoded (s.toList.map (fun ch => (ch.toNat:ℤ))) := fun h => hall h.2
  have hshort := charRun_short hall ([.nil] ++ rest)
  unfold textToks integersToks
  rw [if_neg hne,if_neg hcoded,List.cons_append,List.append_assoc]
  change (if _ = _ then _ else _ : ℕ × Option (Bytes × List Tok)).2 = none
  rw [if_neg (Nat.ne_of_lt hshort)]

theorem textArg_refuses {s : String} (hs : ¬Latin1 s) (msg : String) (rest : List Tok) :
    Refuses (textArg size msg) (t.goto (textToks s ++ rest)) := by
  have hdecode := decode_other hs rest
  unfold textArg
  by_cases hroom : size < (eiDecodeString (textToks s ++ rest)).1
  · have hinto : decodeStringInto size (t.goto (textToks s ++ rest)) =
        (.error (.fault .bufferOverflow),t.goto (textToks s ++ rest)) := if_pos hroom
    exact Refuses.bind ⟨_,by rw [hinto],by rw [hinto]⟩ _
  · have hinto : decodeStringInto size (t.goto (textToks s ++ rest)) =
        (.ok none,t.goto (textToks s ++ rest)) := by
      unfold decodeStringInto
      simp only [goto_index,if_neg hroom,hdecode]
    exact Refuses.after ⟨_,rfl,rfl⟩ hinto rfl

theorem wire_short (n : CharText size) : (wireBytes n.text).length < size :=
  lt_of_le_of_lt (wireBytes_length n.text) n.short

theorem charText_run {n : CharText size} (h : Latin1 n.text) (hsize : size ≤ 65536)
    (msg : String) (rest : List Tok) : textArg size msg (t.goto (textToks n.text ++ rest)) =
      (.ok (wireBytes n.text),t.goto rest) := by
  have hshort := wire_short n
  exact textArg_run h hshort (by omega) msg rest

def wireKey (k : CharKey) : AsKey :=
  ⟨wireBytes k.nameSpace.text,wireBytes k.set.text,wireBytes k.key.text⟩

def keyTexts (k : CharKey) : List String := [k.nameSpace.text,k.set.text,k.key.text]

def keyToks (k : CharKey) : List Tok :=
  textToks k.nameSpace.text ++ (textToks k.set.text ++ textToks k.key.text)

theorem wire_cStr {n : CharText size} (h : Latin1 n.text) :
    cStr (wireBytes n.text) = wireBytes n.text := cStr_eq_self.mpr (wire_zeroFree h n.zeroFree)

theorem keyArgs_run (k : CharKey) (h : ∀ s ∈ keyTexts k, Latin1 s) (rest : List Tok) :
    keyArgs (t.goto (keyToks k ++ rest)) = (.ok (wireKey k),t.goto rest) := by
  simp only [keyTexts,List.forall_mem_cons] at h
  obtain ⟨hns,hset,hkey,-⟩ := h
  have hall : asKeyInitStr (wireBytes k.nameSpace.text) (wireBytes k.set.text)
      (wireBytes k.key.text) = wireKey k := by
    unfold asKeyInitStr wireKey
    rw [wire_cStr hns,wire_cStr hset,wire_cStr hkey]
  unfold keyArgs keyToks
  rw [List.append_assoc,List.append_assoc,bind_run_ok _ (charText_run hns (by decide) _ _),
    bind_run_ok _ (charText_run hset (by decide) _ _),
    bind_run_ok _ (charText_run hkey (by decide) _ _),hall]
  rfl

theorem keyArgs_refuses {k : CharKey} (h : ¬∀ s ∈ keyTexts k, Latin1 s) (rest : List Tok) :
    Refuses keyArgs (t.goto (keyToks k ++ rest)) := by
  simp only [keyTexts,List.forall_mem_cons] at h
  unfold keyArgs keyToks
  rw [List.append_assoc,List.append_assoc]
  by_cases hns : Latin1 k.nameSpace.text
  · refine Refuses.after ?_ (charText_run hns (by decide) _ _) rfl
    by_cases hset : Latin1 k.set.text
    · refine Refuses.after ?_ (charText_run hset (by decide) _ _) rfl
      have hkey : ¬Latin1 k.key.text := fun hkey => h ⟨hns,hset,hkey,by simp⟩
      exact (textArg_refuses hkey _ _).bind _
    · exact (textArg_refuses hset _ _).bind _
  · exact (textArg_refuses hns _ _).bind _

theorem wireKey_eq_iff (k : CharKey) : k.asKey = wireKey k ↔ ∀ s ∈ keyTexts k, Ascii s := by
  simp only [keyTexts,List.forall_mem_cons,← wire_eq_iff]
  unfold CharKey.asKey wireKey CharText.data
  simp

end Arguments

section Loops
variable {t : PortState} {α : Type}

def pairToks (b : CharBin) : List Tok :=
  .tuple 2::(textToks b.name.text ++ integerToks b.value)

theorem pair_run {b : CharBin} (hb : Latin1 b.name.text) (f : α → Bytes → ℤ → α) (n : ℕ) (a : α)
    (rest : List Tok) : eachPair f (n+1) a (t.goto (pairToks b ++ rest)) =
      eachPair f n (f a (wireBytes b.name.text) b.value) (t.goto rest) := by
  have hheader : decode eiDecodeTupleHeader (t.goto (.tuple 2::(textToks b.name.text ++
      (integerToks b.value ++ rest)))) =
      (.ok (some 2),t.goto (textToks b.name.text ++ (integerToks b.value ++ rest))) :=
    decode_some rfl
  rw [eachPair,pairToks,List.cons_append,List.append_assoc,bind_run_ok _ hheader,
    if_neg (not_not.mpr rfl),bind_run_ok _ (charText_run hb (by decide) _ _),
    bind_run_ok _ (required_some _ (decodeLong_integer b.fits _)),wire_cStr hb]

theorem pair_refuses {b : CharBin} (hb : ¬Latin1 b.name.text) (f : α → Bytes → ℤ → α) (n : ℕ)
    (a : α) (rest : List Tok) : Refuses (eachPair f (n+1) a) (t.goto (pairToks b ++ rest)) := by
  have hheader : decode eiDecodeTupleHeader (t.goto (.tuple 2::(textToks b.name.text ++
      (integerToks b.value ++ rest)))) =
      (.ok (some 2),t.goto (textToks b.name.text ++ (integerToks b.value ++ rest))) :=
    decode_some rfl
  rw [eachPair,pairToks,List.cons_append,List.append_assoc]
  refine Refuses.after ?_ hheader rfl
  rw [if_neg (not_not.mpr rfl)]
  exact (textArg_refuses hb _ _).bind _

theorem eachPair_run {bins : List CharBin} (h : ∀ b ∈ bins, Latin1 b.name.text)
    (f : α → Bytes → ℤ → α) (a : α) (rest : List Tok) :
    eachPair f bins.length a (t.goto (bins.flatMap pairToks ++ rest)) =
      (.ok (bins.foldl (fun a b => f a (wireBytes b.name.text) b.value) a),t.goto rest) := by
  induction bins generalizing a with
  | nil => rfl
  | cons b bins ih =>
    obtain ⟨hb,hbins⟩ := List.forall_mem_cons.mp h
    rw [List.length_cons,List.flatMap_cons,List.append_assoc,pair_run hb,ih hbins]
    rfl

theorem eachPair_refuses {bins : List CharBin} (h : ¬∀ b ∈ bins, Latin1 b.name.text)
    (f : α → Bytes → ℤ → α) (a : α) (rest : List Tok) :
    Refuses (eachPair f bins.length a) (t.goto (bins.flatMap pairToks ++ rest)) := by
  induction bins generalizing a with
  | nil => exact absurd (fun b hb => absurd hb List.not_mem_nil) h
  | cons b bins ih =>
    rw [List.length_cons,List.flatMap_cons,List.append_assoc]
    by_cases hb : Latin1 b.name.text
    · have hbins : ¬∀ d ∈ bins, Latin1 d.name.text := fun hall =>
        h (List.forall_mem_cons.mpr ⟨hb,hall⟩)
      unfold Refuses
      rw [pair_run hb]
      exact ih hbins _
    · exact pair_refuses hb f _ _ _

def nameToks (n : CharText asBinNameMaxSize) : List Tok := textToks n.text

theorem selectBins_run {names : List (CharText asBinNameMaxSize)}
    (h : ∀ n ∈ names, Latin1 n.text) (bins : List Bytes)
    (hfew : bins.length+names.length < maxBinsNumber) (rest : List Tok) :
    selectBins names.length bins (t.goto (names.flatMap nameToks ++ rest)) =
      (.ok (bins ++ names.map (fun n => wireBytes n.text)),t.goto rest) := by
  induction names generalizing bins with
  | nil =>
    have hroom : ¬maxBinsNumber ≤ bins.length := by simpa using hfew
    rw [List.map_nil,List.append_nil]
    change (if maxBinsNumber ≤ bins.length then _ else _ : Port (List Bytes)) _ = _
    rw [if_neg hroom]
    rfl
  | cons n names ih =>
    obtain ⟨hn,hnames⟩ := List.forall_mem_cons.mp h
    rw [List.length_cons] at hfew
    have hroom : ¬maxBinsNumber ≤ bins.length := by omega
    have hlength : (bins ++ [wireBytes n.text]).length+names.length < maxBinsNumber := by
      rw [List.length_append,List.length_singleton]
      omega
    rw [List.length_cons,selectBins,List.flatMap_cons,List.append_assoc,nameToks,
      bind_run_ok _ (charText_run hn (by decide) _ _),if_neg hroom,wire_cStr hn,
      ih hnames _ hlength,List.map_cons,List.append_assoc]
    rfl

theorem selectBins_refuses {names : List (CharText asBinNameMaxSize)}
    (h : ¬∀ n ∈ names, Latin1 n.text) (bins : List Bytes) (rest : List Tok) :
    Refuses (selectBins names.length bins) (t.goto (names.flatMap nameToks ++ rest)) := by
  induction names generalizing bins with
  | nil => exact absurd (fun n hn => absurd hn List.not_mem_nil) h
  | cons n names ih =>
    rw [List.length_cons,selectBins,List.flatMap_cons,List.append_assoc,nameToks]
    by_cases hn : Latin1 n.text
    · have hnames : ¬∀ m ∈ names, Latin1 m.text := fun hall =>
        h (List.forall_mem_cons.mpr ⟨hn,hall⟩)
      refine Refuses.after ?_ (charText_run hn (by decide) _ _) rfl
      by_cases hroom : maxBinsNumber ≤ bins.length
      · rw [if_pos hroom]
        exact ⟨_,rfl,rfl⟩
      · rw [if_neg hroom]
        exact ih hnames _
    · exact (textArg_refuses hn _ _).bind _

theorem header_run (n : ℕ) (elements rest : List Tok) :
    ∃ more, required eiDecodeListHeader "invalid fourth argument: list"
      (t.goto (PortCdtPuts.listToks n elements ++ rest)) = (.ok n,t.goto more) ∧
        (n ≠ 0 → more = elements ++ (.nil::rest)) := by
  unfold PortCdtPuts.listToks
  by_cases hn : n = 0
  · rw [if_pos hn,hn]
    exact ⟨rest,required_some _ rfl,fun h => absurd rfl h⟩
  · rw [if_neg hn]
    refine ⟨elements ++ (.nil::rest),?_,fun _ => rfl⟩
    have hlist : (Tok.list n::(elements ++ [.nil])) ++ rest = .list n::(elements ++ (.nil::rest)) := by
      simp only [List.cons_append,List.append_assoc,List.nil_append]
    rw [hlist]
    exact required_some _ rfl

end Loops

section Calls
variable {env : PortEnv} {nenv : Env} {c : Client} {s : PortState} {w : World} {k : CharKey}

inductive KeyOp where
  | get
  | exist
  | generation
  | remove
  | put (bins : List CharBin)
  | inc (bins : List CharBin)
  | select (names : List (CharText asBinNameMaxSize))

namespace KeyOp

def texts : KeyOp → List String
  | put bins => bins.map (fun b => b.name.text)
  | inc bins => bins.map (fun b => b.name.text)
  | select names => names.map CharText.text
  | _ => []

/-- Both halves answer at once and send nothing. -/
def Silent : KeyOp → Prop
  | put bins => bins = []
  | inc bins => bins = []
  | select names => names = []
  | _ => False

def Few : KeyOp → Prop
  | select names => names.length < maxBinsNumber
  | _ => True

def native (c : Client) (nenv : Env) (k : CharKey) : KeyOp → Nif Term
  | get => keyGetSync c nenv k.nameSpace.term k.set.term k.key.term
  | exist => keyExistsSync nenv k.nameSpace.term k.set.term k.key.term
  | generation => keyGenerationSync nenv k.nameSpace.term k.set.term k.key.term
  | remove => keyRemoveSync nenv k.nameSpace.term k.set.term k.key.term
  | put bins => keyPutSync c nenv k.nameSpace.term k.set.term k.key.term
      (ofList (bins.map CharBin.term))
  | inc bins => keyIncSync c nenv k.nameSpace.term k.set.term k.key.term
      (ofList (bins.map CharBin.term))
  | select names => keySelectSync c nenv k.nameSpace.term k.set.term k.key.term
      (ofList (names.map CharText.term))

def port (env : PortEnv) : KeyOp → Port Unit
  | get => callKeyGet env
  | exist => callKeyExists env
  | generation => callKeyGeneration env
  | remove => callKeyRemove env
  | put _ => callKeyPut env
  | inc _ => callKeyInc env
  | select _ => callKeySelect env

/-- The arguments behind the name of the command. -/
def args (k : CharKey) : KeyOp → List Tok
  | put bins => keyToks k ++ PortCdtPuts.listToks bins.length (bins.flatMap pairToks)
  | inc bins => keyToks k ++ PortCdtPuts.listToks bins.length (bins.flatMap pairToks)
  | select names => keyToks k ++ PortCdtPuts.listToks names.length (names.flatMap nameToks)
  | _ => keyToks k

/-- What is sent for a key, with texts in some encoding. -/
def requests (c : Client) (encode : String → Bytes) (key : AsKey) : KeyOp → List Request
  | get => [.keyGet key none]
  | exist => [.keyExists key]
  | generation => [.keyGet key none]
  | remove => [.keyRemove key]
  | put bins => if bins.length = 0 then [] else [.keyPut key (fill c nativeValue
      (bins.map (fun b => (encode b.name.text,.integer b.value))) ⟨bins.length,0,[]⟩)]
  | inc bins => if bins.length = 0 then [] else [.keyOperate key
      ⟨0,bins.map (fun b => .incr (encode b.name.text) b.value)⟩ none]
  | select names => if names.length = 0 then [] else
      [.keySelect key (names.map (fun n => encode n.text))]

end KeyOp

/-- What follows the request answers, and it sends nothing. -/
def Answering (p : Nif Term) : Prop :=
  ∀ v, (p v).2.submitted = v.submitted ∧ (p v).1 ≠ .error .badarg

theorem answering_pure (t : Term) : Answering (pure t) := fun _ => ⟨rfl,fun h => nomatch h⟩

theorem answering_fault (f : Fault) : Answering (stop (.fault f)) :=
  fun _ => ⟨rfl,fun h => nomatch h⟩

theorem answering_ite {P : Prop} [Decidable P] {p q : Nif Term} (hp : Answering p)
    (hq : Answering q) : Answering (if P then p else q) := by
  split_ifs
  · exact hp
  · exact hq

theorem answering_dump (x : Except Fault Term) (f : Term → Term) :
    Answering (lift (NifWorld.orFault x) >>= fun msg => pure (f msg)) := by
  cases x with
  | ok t => exact answering_pure (f t)
  | error e => exact answering_fault e

theorem answering_record (r : Response) (dump : Record → Except Fault Term) :
    Answering (answerRecord r dump) := by
  refine answering_ite (answering_pure _) ?_
  cases r.record with
  | none => exact answering_pure _
  | some rec => exact answering_dump (dump rec) _

theorem sent {p : Nif Term} {req : Request} {f : Response → Nif Term}
    (hrun : p w = (submit nenv req >>= f) w) (hf : ∀ r, Answering (f r)) :
    submissions p w = some [req] := by
  obtain ⟨hsub,hok⟩ := hf (nenv.respond (w.submitted ++ [req])) (afterSubmit req w)
  unfold submissions
  rw [hrun,submit_bind_run,hsub]
  cases hr : (f (nenv.respond (w.submitted ++ [req])) (afterSubmit req w)).1 with
  | ok t => simp [afterSubmit]
  | error e =>
    cases e with
    | badarg => exact absurd hr hok
    | _ => simp [afterSubmit]

theorem native_requests (hc : TakesBinNames c) (hw : w.isConnectedFlag = true) {op : KeyOp}
    (hfew : op.Few) :
    submissions (op.native c nenv k) w = some (op.requests c textBytes k.asKey) := by
  cases op with
  | get => exact sent (keyGet_run k hw) fun r => answering_record r _
  | exist =>
    exact sent (keyExists_run k hw) fun r => answering_ite (answering_pure _) (answering_pure _)
  | generation =>
    have hrun : keyGenerationSync nenv k.nameSpace.term k.set.term k.key.term w =
        (submit nenv (.keyGet k.asKey none) >>= fun r => answerRecord r (fun rec => .ok (.map
          [(makeString "gen",.integer rec.gen),(makeString "ttl",.integer rec.ttl)]))) w := by
      unfold keyGenerationSync
      rw [k.stringKey_eq,lift_ok_bind_run,isConnected_bind_run _ hw]
    exact sent hrun fun r => answering_record r _
  | remove =>
    have hrun := @keyRemove_run c nenv w k
    rw [isConnected_bind_run _ hw] at hrun
    exact sent hrun fun r => answering_pure _
  | put bins =>
    have hrun := @keyPut_run c nenv w k bins
    rw [isConnected_bind_run _ hw] at hrun
    rw [KeyOp.requests]
    by_cases hbins : bins.length = 0
    · rw [if_pos hbins] at hrun ⊢
      exact submissions_answer hrun
    · rw [if_neg hbins] at hrun ⊢
      exact sent hrun fun r => answering_pure _
  | inc bins =>
    have hrun := @keyInc_run c nenv w hc k bins
    rw [isConnected_bind_run _ hw] at hrun
    rw [KeyOp.requests]
    by_cases hbins : bins.length = 0
    · rw [if_pos hbins] at hrun ⊢
      exact submissions_answer hrun
    · rw [if_neg hbins] at hrun ⊢
      exact sent hrun fun r => answering_pure _
  | select names =>
    rw [KeyOp.requests]
    by_cases hnames : names.length = 0
    · have hlength : getListLength (ofList (names.map CharText.term)) = some 0 := by
        rw [getListLength_ofList,List.length_map,hnames]
      have hrun : keySelectSync c nenv k.nameSpace.term k.set.term k.key.term
          (ofList (names.map CharText.term)) w = (.ok (makeTuple2 atomOk (ofList [])),w) := by
        unfold keySelectSync
        rw [k.stringKey_eq,lift_ok_bind_run,hlength,orBadarg_some,lift_ok_bind_run,
          isConnected_bind_run _ hw]
        rfl
      rw [if_pos hnames]
      exact submissions_answer hrun
    · have hne : names ≠ [] := fun h => hnames (List.length_eq_zero_iff.mpr h)
      rw [if_neg hnames]
      refine sent (keySelect_run k hw hne hfew) fun r => answering_ite (answering_pure _) ?_
      cases r.record with
      | none => exact answering_fault _
      | some rec => exact answering_dump _ _

end Calls

section Port
variable {c : Client} {env : PortEnv} {s t : PortState} {k : CharKey}

theorem request_sends {req : Request} {f : Response → Port Unit} (hf : ∀ r, Quiet (f r)) :
    ((request env req >>= f) t).2.submitted = t.submitted ++ [req] := by
  have hquiet : ∀ r : Response, Quiet ((if r.status ≠ aerospikeOk then stopError r.message
      else pure r : Port Response) >>= f) :=
    fun r => (quiet_ite (quiet_stopError _) (quiet_pure r)).bind hf
  exact congrArg Session.submitted (hquiet _ _)

theorem wire_operations (hc : TakesBinNames c) (bins : List CharBin) (ops : Operations) :
    bins.foldl (fun ops b => Operations.add c ops (.incr (wireBytes b.name.text) b.value)) ops =
      ⟨ops.ttl,ops.entries ++ bins.map (fun b => .incr (wireBytes b.name.text) b.value)⟩ := by
  induction bins generalizing ops with
  | nil => simp
  | cons b bins ih =>
    have htake : c.takesBin (Operation.incr (wireBytes b.name.text) b.value).bin = true :=
      hc _ (Nat.le_of_lt_succ (wire_short b.name))
    rw [List.foldl_cons,Operations.add,if_pos htake,ih,List.map_cons,List.append_assoc]
    rfl

theorem answer_quiet (msg : Bytes) : Quiet (okMacro msg >>= fun _ => (postMacro : Port Unit)) :=
  (quiet_okMacro msg).bind fun _ => quiet_postMacro

/-- What `key_put` and `key_inc` share. -/
def pairCall {α : Type} (env : PortEnv) (f : α → Bytes → ℤ → α) (start : ℕ → α)
    (req : AsKey → α → Request) : Port Unit := do
  preMacro
  let key ← keyArgs
  let length ← required eiDecodeListHeader "invalid fourth argument: list"
  checkAll
  let a ← eachPair f length (start length)
  if 0 < length then do
    let _ ← request env (req key a)
    okMacro (textBytes "key_put")
    postMacro
  else do
    okMacro (textBytes "key_put")
    postMacro

theorem callKeyPut_eq : callKeyPut env = pairCall env
    (fun rec bin val => setBin env.client rec bin (.integer val)) (fun n => ⟨n,0,[]⟩)
    (fun key rec => .keyPut key rec) := rfl

theorem callKeyInc_eq : callKeyInc env = pairCall env
    (fun ops bin val => ops.add env.client (.incr bin val)) (fun _ => ⟨0,[]⟩)
    (fun key ops => .keyOperate key ops none) := rfl

section Runs
variable (hinit : s.isAerospikeInitialised = true) (hconn : s.isConnected = true)
include hinit hconn

theorem checked_bind_run {β : Type} (f : Unit → Port β) (toks : List Tok) :
    (checkAll >>= f) (s.fresh.goto toks) = f () (s.fresh.goto toks) :=
  bind_run_ok f (checkAll_run hinit hconn)

/-- A call that has nothing but the key. -/
theorem plain_sends (hkey : ∀ n ∈ keyTexts k, Latin1 n) {req : AsKey → Request}
    {f : Response → Port Unit} (hf : ∀ r, Quiet (f r)) (rest : List Tok) :
    ((preMacro >>= fun _ => keyArgs >>= fun key => checkAll >>= fun _ =>
      request env (req key) >>= f) (s.goto (keyToks k ++ rest))).2.submitted =
      s.submitted ++ [req (wireKey k)] := by
  rw [preMacro_bind_run,bind_run_ok _ (keyArgs_run k hkey rest),checked_bind_run hinit hconn]
  exact request_sends hf

/-- A call with a list behind the key has read the key and the header. -/
theorem listed_run (hkey : ∀ n ∈ keyTexts k, Latin1 n) (p : AsKey → ℕ → Port Unit) (n : ℕ)
    (elements rest : List Tok) : ∃ more, (preMacro >>= fun _ => keyArgs >>= fun key =>
      required eiDecodeListHeader "invalid fourth argument: list" >>= fun length =>
        checkAll >>= fun _ => p key length)
      (s.goto ((keyToks k ++ PortCdtPuts.listToks n elements) ++ rest)) =
        p (wireKey k) n (s.fresh.goto more) ∧ (n ≠ 0 → more = elements ++ (.nil::rest)) := by
  obtain ⟨more,hheader,hmore⟩ := header_run (t := s.fresh) n elements rest
  refine ⟨more,?_,hmore⟩
  rw [preMacro_bind_run,List.append_assoc,bind_run_ok _ (keyArgs_run k hkey _),
    bind_run_ok _ hheader,checked_bind_run hinit hconn]

theorem pairCall_run {α : Type} (hkey : ∀ n ∈ keyTexts k, Latin1 n) (f : α → Bytes → ℤ → α)
    (start : ℕ → α) (req : AsKey → α → Request) (bins : List CharBin) (rest : List Tok) :
    ∃ more, pairCall env f start req (s.goto ((keyToks k ++
      PortCdtPuts.listToks bins.length (bins.flatMap pairToks)) ++ rest)) =
        (eachPair f bins.length (start bins.length) >>= fun a => if 0 < bins.length then
          request env (req (wireKey k) a) >>= fun _ =>
            okMacro (textBytes "key_put") >>= fun _ => postMacro
        else okMacro (textBytes "key_put") >>= fun _ => postMacro) (s.fresh.goto more) ∧
      (bins.length ≠ 0 → more = bins.flatMap pairToks ++ (.nil::rest)) :=
  listed_run hinit hconn hkey (fun key length => eachPair f length (start length) >>= fun a =>
    if 0 < length then request env (req key a) >>= fun _ =>
      okMacro (textBytes "key_put") >>= fun _ => postMacro
    else okMacro (textBytes "key_put") >>= fun _ => postMacro) bins.length _ rest

theorem pairCall_sends {α : Type} (hkey : ∀ n ∈ keyTexts k, Latin1 n) (f : α → Bytes → ℤ → α)
    (start : ℕ → α) (req : AsKey → α → Request) {bins : List CharBin}
    (hbins : ∀ b ∈ bins, Latin1 b.name.text) (rest : List Tok) :
    (pairCall env f start req (s.goto ((keyToks k ++
      PortCdtPuts.listToks bins.length (bins.flatMap pairToks)) ++ rest))).2.submitted =
      s.submitted ++ (if bins.length = 0 then [] else [req (wireKey k)
        (bins.foldl (fun a b => f a (wireBytes b.name.text) b.value) (start bins.length))]) := by
  obtain ⟨more,hrun,hmore⟩ := @pairCall_run env _ _ hinit hconn _ hkey f start req bins rest
  rw [hrun]
  by_cases hzero : bins.length = 0
  · rw [if_pos hzero,List.append_nil,hzero]
    rfl
  · rw [if_neg hzero,hmore hzero,bind_run_ok _ (eachPair_run hbins f _ _),
      if_pos (Nat.pos_of_ne_zero hzero)]
    exact request_sends fun r => answer_quiet _

theorem pairCall_refuses {α : Type} (hkey : ∀ n ∈ keyTexts k, Latin1 n) (f : α → Bytes → ℤ → α)
    (start : ℕ → α) (req : AsKey → α → Request) {bins : List CharBin}
    (hbins : ¬∀ b ∈ bins, Latin1 b.name.text) (rest : List Tok) :
    (pairCall env f start req (s.goto ((keyToks k ++
      PortCdtPuts.listToks bins.length (bins.flatMap pairToks)) ++ rest))).2.submitted =
      s.submitted := by
  obtain ⟨more,hrun,hmore⟩ := @pairCall_run env _ _ hinit hconn _ hkey f start req bins rest
  have hzero : bins.length ≠ 0 := fun h => by
    rw [List.length_eq_zero_iff.mp h] at hbins
    exact hbins (fun b hb => absurd hb List.not_mem_nil)
  rw [hrun,hmore hzero]
  obtain ⟨l,-,hsub⟩ := (eachPair_refuses (t := s.fresh) hbins f (start bins.length)
    (.nil::rest)).bind _
  exact hsub

end Runs

theorem callKeySelect_run (hinit : s.isAerospikeInitialised = true)
    (hconn : s.isConnected = true) (hkey : ∀ n ∈ keyTexts k, Latin1 n)
    (names : List (CharText asBinNameMaxSize)) (rest : List Tok) :
    ∃ more, callKeySelect env (s.goto ((keyToks k ++
      PortCdtPuts.listToks names.length (names.flatMap nameToks)) ++ rest)) =
        (if names.length = 0 then
          put (eiXEncodeAtom "ok" ++ eiXEncodeEmptyList) >>= fun _ => postMacro
        else selectBins names.length [] >>= fun bins =>
          request env (.keySelect (wireKey k) bins) >>= fun r =>
            orFault (dumpRecords env.client r.record) >>= fun toks =>
              put toks >>= fun _ => postMacro) (s.fresh.goto more) ∧
      (names.length ≠ 0 → more = names.flatMap nameToks ++ (.nil::rest)) :=
  listed_run hinit hconn hkey (fun key length =>
    if length = 0 then put (eiXEncodeAtom "ok" ++ eiXEncodeEmptyList) >>= fun _ => postMacro
    else selectBins length [] >>= fun bins => request env (.keySelect key bins) >>= fun r =>
      orFault (dumpRecords env.client r.record) >>= fun toks =>
        put toks >>= fun _ => postMacro) names.length _ rest

/-- What the port sends if it can read the texts. -/
theorem port_requests (hc : TakesBinNames env.client) (hinit : s.isAerospikeInitialised = true)
    (hconn : s.isConnected = true) {op : KeyOp} (hfew : op.Few)
    (htexts : ∀ n ∈ keyTexts k ++ op.texts, Latin1 n) (rest : List Tok) :
    (op.port env (s.goto (op.args k ++ rest))).2.submitted =
      s.submitted ++ op.requests env.client wireBytes (wireKey k) := by
  obtain ⟨hkey,hop⟩ := List.forall_mem_append.mp htexts
  cases op with
  | get =>
    exact plain_sends hinit hconn hkey (fun r => (quiet_orFault _).bind fun _ =>
      (quiet_put _).bind fun _ => quiet_postMacro) rest
  | exist => exact plain_sends hinit hconn hkey (fun r => answer_quiet _) rest
  | generation =>
    exact plain_sends hinit hconn hkey (fun r => (quiet_orFault _).bind fun _ =>
      (quiet_put _).bind fun _ => quiet_postMacro) rest
  | remove => exact plain_sends hinit hconn hkey (fun r => answer_quiet _) rest
  | put bins =>
    have hbins : ∀ b ∈ bins, Latin1 b.name.text := List.forall_mem_map.mp hop
    rw [KeyOp.requests,KeyOp.port,KeyOp.args,callKeyPut_eq,
      pairCall_sends hinit hconn hkey _ _ _ hbins rest,fill,List.foldl_map]
    rfl
  | inc bins =>
    have hbins : ∀ b ∈ bins, Latin1 b.name.text := List.forall_mem_map.mp hop
    rw [KeyOp.requests,KeyOp.port,KeyOp.args,callKeyInc_eq,
      pairCall_sends hinit hconn hkey _ _ _ hbins rest,wire_operations hc]
    rfl
  | select names =>
    have hnames : ∀ n ∈ names, Latin1 n.text := List.forall_mem_map.mp hop
    have hroom : names.length < maxBinsNumber := hfew
    obtain ⟨more,hrun,hmore⟩ := @callKeySelect_run env _ _ hinit hconn hkey names rest
    rw [KeyOp.requests,KeyOp.port,KeyOp.args,hrun]
    by_cases hzero : names.length = 0
    · rw [if_pos hzero,if_pos hzero,List.append_nil]
      rfl
    · have hloop := selectBins_run (t := s.fresh) hnames [] (by simpa using hroom) (.nil::rest)
      rw [if_neg hzero,if_neg hzero,hmore hzero,bind_run_ok _ hloop]
      exact request_sends fun r => (quiet_orFault _).bind fun _ =>
        (quiet_put _).bind fun _ => quiet_postMacro

theorem key_refused {p : AsKey → Port Unit} (h : ¬∀ n ∈ keyTexts k, Latin1 n) (rest : List Tok) :
    ((preMacro >>= fun _ => keyArgs >>= p) (s.goto (keyToks k ++ rest))).2.submitted =
      s.submitted := by
  rw [preMacro_bind_run]
  obtain ⟨l,-,hsub⟩ := (keyArgs_refuses (t := s.fresh) h rest).bind p
  exact hsub

/-- A text beyond Latin-1 ends the call before anything is sent. -/
theorem port_refuses (hinit : s.isAerospikeInitialised = true) (hconn : s.isConnected = true)
    {op : KeyOp} (htexts : ¬∀ n ∈ keyTexts k ++ op.texts, Latin1 n) (rest : List Tok) :
    (op.port env (s.goto (op.args k ++ rest))).2.submitted = s.submitted := by
  rw [List.forall_mem_append] at htexts
  by_cases hkey : ∀ n ∈ keyTexts k, Latin1 n
  · have hop : ¬∀ n ∈ op.texts, Latin1 n := fun h => htexts ⟨hkey,h⟩
    cases op with
    | put bins =>
      have hbins : ¬∀ b ∈ bins, Latin1 b.name.text := fun h => hop (List.forall_mem_map.mpr h)
      exact pairCall_refuses hinit hconn hkey _ _ _ hbins rest
    | inc bins =>
      have hbins : ¬∀ b ∈ bins, Latin1 b.name.text := fun h => hop (List.forall_mem_map.mpr h)
      exact pairCall_refuses hinit hconn hkey _ _ _ hbins rest
    | select names =>
      have hnames : ¬∀ n ∈ names, Latin1 n.text := fun h => hop (List.forall_mem_map.mpr h)
      have hzero : names.length ≠ 0 := fun h => by
        rw [List.length_eq_zero_iff.mp h] at hnames
        exact hnames (fun n hn => absurd hn List.not_mem_nil)
      obtain ⟨more,hrun,hmore⟩ := @callKeySelect_run env _ _ hinit hconn hkey names rest
      rw [KeyOp.port,KeyOp.args,hrun,if_neg hzero,hmore hzero]
      obtain ⟨l,-,hsub⟩ := (selectBins_refuses (t := s.fresh) hnames [] (.nil::rest)).bind _
      exact hsub
    | _ => exact absurd (fun n hn => absurd hn List.not_mem_nil) hop
  · cases op with
    | put bins =>
      rw [KeyOp.args,List.append_assoc]
      exact key_refused hkey _
    | inc bins =>
      rw [KeyOp.args,List.append_assoc]
      exact key_refused hkey _
    | select names =>
      rw [KeyOp.args,List.append_assoc]
      exact key_refused hkey _
    | _ => exact key_refused hkey rest

end Port

section Agreement
variable {c : Client} {env : PortEnv} {nenv : Env} {s : PortState} {w : World} {k : CharKey}

/-- The names of the bins in some encoding, as they get into a record. -/
theorem fill_encoded {encode : String → Bytes} {bins : List CharBin}
    (h : ∀ b ∈ bins, ∀ v, Named c (encode b.name.text,v)) :
    fill c nativeValue (bins.map (fun b => (encode b.name.text,.integer b.value)))
      ⟨bins.length,0,[]⟩ = ⟨bins.length,0,written (fun b : CharBin => some (encode b.name.text))
        (fun b => .integer b.value) bins []⟩ := by
  have hwritten : ∀ es : List (Bytes × AsVal), written (binKey c) (fun b => nativeValue b.2)
      (bins.map (fun b => (encode b.name.text,.integer b.value))) es =
        written (fun b : CharBin => some (encode b.name.text)) (fun b => .integer b.value)
          bins es := by
    induction bins with
    | nil => exact fun es => rfl
    | cons b bins ih =>
      obtain ⟨hb,hbins⟩ := List.forall_mem_cons.mp h
      have hname : binKey c (encode b.name.text,.integer b.value) = some (encode b.name.text) :=
        hb _
      intro es
      rw [List.map_cons,written,written,hname]
      exact ih hbins _
  rw [fill_bins nativeValue _ _ (by rw [List.length_map]),hwritten]

theorem native_named (hc : TakesBinNames c) (b : CharBin) (v : BinValue) :
    Named c (textBytes b.name.text,v) :=
  named_data b.name.zeroFree (hc _ (Nat.le_of_lt_succ b.name.short)) v

theorem wire_named (hc : TakesBinNames c) {b : CharBin} (hb : Latin1 b.name.text)
    (v : BinValue) : Named c (wireBytes b.name.text,v) :=
  named_data (wire_zeroFree hb b.name.zeroFree)
    (hc _ (Nat.le_of_lt_succ (wire_short b.name))) v

theorem filled_eq_iff (hc : TakesBinNames c) {bins : List CharBin}
    (h : ∀ b ∈ bins, Latin1 b.name.text) :
    fill c nativeValue (bins.map (fun b => (textBytes b.name.text,.integer b.value)))
      ⟨bins.length,0,[]⟩ = fill c nativeValue (bins.map (fun b =>
        (wireBytes b.name.text,.integer b.value))) ⟨bins.length,0,[]⟩ ↔
      ∀ b ∈ bins, Ascii b.name.text := by
  have hencoded : written (fun b : CharBin => some (textBytes b.name.text))
      (fun b => AsVal.integer b.value) bins [] =
        written (fun b : CharBin => (some (wireBytes b.name.text)).map utf8Text)
          (fun b => AsVal.integer b.value) bins [] := by
    apply written_congr_key
    exact fun b hb => congrArg some (textBytes_wire (h b hb))
  rw [fill_encoded (fun b _ => native_named hc b),fill_encoded (fun b hb => wire_named hc (h b hb)),
    hencoded,PutRecord.mk.injEq]
  simp only [true_and]
  rw [renamed_eq_iff utf8Text_injective (fun b : CharBin => some (wireBytes b.name.text))]
  refine forall₂_congr fun b hb => ?_
  rw [← wire_eq_iff,textBytes_wire (h b hb)]
  exact ⟨fun hall => hall _ rfl,fun heq k hk => by cases hk; exact heq⟩

theorem requests_eq_iff (hc : TakesBinNames c) {op : KeyOp}
    (htexts : ∀ n ∈ keyTexts k ++ op.texts, Latin1 n) :
    op.requests c textBytes k.asKey = op.requests c wireBytes (wireKey k) ↔
      op.Silent ∨ ∀ n ∈ keyTexts k ++ op.texts, Ascii n := by
  obtain ⟨-,hop⟩ := List.forall_mem_append.mp htexts
  rw [List.forall_mem_append,← wireKey_eq_iff]
  cases op with
  | put bins =>
    have hbins : ∀ b ∈ bins, Latin1 b.name.text := List.forall_mem_map.mp hop
    simp only [KeyOp.requests,KeyOp.Silent,KeyOp.texts,List.forall_mem_map]
    by_cases hzero : bins.length = 0
    · simp [List.length_eq_zero_iff.mp hzero]
    · have hne : bins ≠ [] := fun h => hzero (List.length_eq_zero_iff.mpr h)
      simp [hne,filled_eq_iff hc hbins]
  | inc bins =>
    simp only [KeyOp.requests,KeyOp.Silent,KeyOp.texts,List.forall_mem_map,← wire_eq_iff]
    by_cases hzero : bins.length = 0
    · simp [List.length_eq_zero_iff.mp hzero]
    · have hne : bins ≠ [] := fun h => hzero (List.length_eq_zero_iff.mpr h)
      simp [hne]
  | select names =>
    simp only [KeyOp.requests,KeyOp.Silent,KeyOp.texts,List.forall_mem_map,← wire_eq_iff]
    by_cases hzero : names.length = 0
    · simp [List.length_eq_zero_iff.mp hzero]
    · have hne : names ≠ [] := fun h => hzero (List.length_eq_zero_iff.mpr h)
      simp [hne]
  | _ => simp [KeyOp.requests,KeyOp.Silent,KeyOp.texts]

/-- Both halves hand the same requests to the client, and the native call is no badarg. -/
def SameRequests (env : PortEnv) (nenv : Env) (s : PortState) (w : World) (k : CharKey)
    (op : KeyOp) (rest : List Tok) : Prop :=
  ∃ reqs, submissions (op.native env.client nenv k) w = some reqs ∧
    (op.port env (s.goto (op.args k ++ rest))).2.submitted = s.submitted ++ reqs

theorem ascii_latin1 {n : String} (h : Ascii n) : Latin1 n :=
  fun ch hch => lt_trans (h ch hch) (by decide)

theorem silent_requests {op : KeyOp} (h : op.Silent) (encode : String → Bytes) (key : AsKey) :
    op.requests c encode key = [] := by
  cases op with
  | put bins => exact if_pos (List.length_eq_zero_iff.mpr h)
  | inc bins => exact if_pos (List.length_eq_zero_iff.mpr h)
  | select names => exact if_pos (List.length_eq_zero_iff.mpr h)
  | _ => exact absurd h id

theorem requests_nil {op : KeyOp} {encode : String → Bytes} {key : AsKey}
    (h : op.requests c encode key = []) : op.Silent := by
  cases op with
  | put bins =>
    rw [KeyOp.requests] at h
    split_ifs at h with hzero
    exact List.length_eq_zero_iff.mp hzero
  | inc bins =>
    rw [KeyOp.requests] at h
    split_ifs at h with hzero
    exact List.length_eq_zero_iff.mp hzero
  | select names =>
    rw [KeyOp.requests] at h
    split_ifs at h with hzero
    exact List.length_eq_zero_iff.mp hzero
  | _ => exact absurd h (List.cons_ne_nil _ _)

/-- The key calls of the two halves agree on ASCII and where there is nothing to
send. A text beyond Latin-1 makes the port send nothing. -/
theorem key_calls_same_iff (hc : TakesBinNames env.client) (hw : w.isConnectedFlag = true)
    (hinit : s.isAerospikeInitialised = true) (hconn : s.isConnected = true) {op : KeyOp}
    (hfew : op.Few) (rest : List Tok) :
    (SameRequests env nenv s w k op rest ↔
      op.Silent ∨ ∀ n ∈ keyTexts k ++ op.texts, Ascii n) ∧
    ((∃ n ∈ keyTexts k ++ op.texts, ¬Latin1 n) →
      (op.port env (s.goto (op.args k ++ rest))).2.submitted = s.submitted) := by
  have hnative := @native_requests nenv _ _ k hc hw _ hfew
  refine ⟨?_,fun ⟨n,hn,hbeyond⟩ => port_refuses hinit hconn (fun h => hbeyond (h n hn)) rest⟩
  unfold SameRequests
  by_cases htexts : ∀ n ∈ keyTexts k ++ op.texts, Latin1 n
  · rw [hnative,port_requests hc hinit hconn hfew htexts,← requests_eq_iff hc htexts]
    simp [eq_comm]
  · rw [hnative,port_refuses hinit hconn htexts]
    constructor
    · rintro ⟨reqs,hreqs,hnone⟩
      have hnil : reqs = [] := by simpa using hnone
      rw [hnil] at hreqs
      exact .inl (requests_nil (Option.some.inj hreqs))
    · rintro (hsilent | hascii)
      · exact ⟨[],by rw [silent_requests hsilent],(List.append_nil _).symm⟩
      · exact absurd (fun n hn => ascii_latin1 (hascii n hn)) htexts

def letterName {size : ℕ} (ch : Char) (hzero : 0 ∉ textBytes (String.singleton ch))
    (hshort : (textBytes (String.singleton ch)).length < size) : CharText size :=
  ⟨String.singleton ch,hzero,hshort⟩

def letterKey : CharKey :=
  ⟨letterName 'n' (by decide) (by decide),letterName 's' (by decide) (by decide),
    letterName 'k' (by decide) (by decide)⟩

def asciiPut : KeyOp := .put [⟨letterName 'b' (by decide) (by decide),1,one_fits⟩]

def latinPut : KeyOp := .put [⟨letterName 'é' (by decide) (by decide),1,one_fits⟩]

theorem letter_ascii {ch : Char} (h : ch.toNat < 128) : Ascii (String.singleton ch) := by
  unfold Ascii
  simpa using h

theorem ascii_put_same :
    SameRequests FrameReplies.plainPort plainEnv connectedPort connectedWorld letterKey asciiPut [] ∧
    ¬SameRequests FrameReplies.plainPort plainEnv connectedPort connectedWorld letterKey latinPut
      [] := by
  have htake : TakesBinNames FrameReplies.plainPort.client := fun _ hn => decide_eq_true hn
  have hascii : asciiPut.Few := trivial
  have hlatin : latinPut.Few := trivial
  constructor
  · have hall : ∀ n ∈ keyTexts letterKey ++ asciiPut.texts, Ascii n := by
      change ∀ n ∈ [String.singleton 'n',String.singleton 's',String.singleton 'k',
        String.singleton 'b'], Ascii n
      simp only [List.forall_mem_cons]
      exact ⟨letter_ascii (by decide),letter_ascii (by decide),letter_ascii (by decide),
        letter_ascii (by decide),by simp⟩
    exact (key_calls_same_iff htake rfl rfl rfl hascii []).1.mpr (.inr hall)
  · intro h
    rcases (key_calls_same_iff htake rfl rfl rfl hlatin []).1.mp h with hsilent | hall
    · exact absurd hsilent (List.cons_ne_nil _ _)
    · have hletter : Ascii (String.singleton 'é') :=
        hall _ (List.mem_append_right _ (List.mem_singleton_self _))
      exact absurd (hletter 'é' (by simp)) (by decide)

end Agreement

end AspikePort.KeyAgreement
