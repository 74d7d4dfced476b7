import AspikePort.KeptTexts
import AspikePort.SegmentTags
import AspikePort.StoreRefinement

/-!
# A map put and read back as a segment tag

The keys of the map, binaries, atoms and character lists, all become
zero-terminated strings. An entry comes back under the full text of its key
exactly when nothing of any key is lost on the way in.
-/

set_option autoImplicit false

namespace AspikePort.MapRoundTrip
open AspikePort.ErlangTerms AspikePort.ClientValues AspikePort.EarlyReturn AspikePort.NifWorld
open AspikePort.CdtPut AspikePort.PutAgreement AspikePort.ValueFormat AspikePort.FallibleLoops
open AspikePort.TruncatingReaders AspikePort.KeptTexts AspikePort.OrderedMap AspikePort.RecordServer
open AspikePort.SyncCalls AspikePort.SegmentTags AspikePort.StoreCalls

section Keys

inductive MapKey where
  | binary (data : Bytes)
  | atom (name : String)
  | characters (cs : List ℕ)

def MapKey.term : MapKey → Term
  | .binary data => .binary data
  | .atom name => .atom name
  | .characters cs => charList cs

def MapKey.text : MapKey → Bytes
  | .binary data => data
  | .atom name => textBytes name
  | .characters cs => cs.flatMap utf8

/-- What is left of the text in the map that is stored. -/
def MapKey.kept : MapKey → Bytes
  | .binary data => cStr data
  | .atom name => cStr (textBytes name)
  | .characters cs => cStr (copyWhileFits 255 cs)

/-- No zero byte, and a character list leaves room for the final zero in its
buffer of 256 bytes. -/
def MapKey.Fits (k : MapKey) : Prop :=
  0 ∉ k.text ∧ ∀ cs, k = .characters cs → k.text.length < 256

def MapKey.Valid (k : MapKey) : Prop := ∀ cs, k = .characters cs → ∀ c ∈ cs, IsCodePoint c

theorem charList_injective {cs ds : List ℕ} (h : charList cs = charList ds) : cs = ds := by
  apply List.map_injective_iff.mpr _ (ofList_injective h)
  intro a b hab
  exact Int.ofNat.inj (Term.integer.inj hab)

theorem inspectBinary_charList (cs : List ℕ) : inspectBinary (charList cs) = none := by
  cases cs <;> rfl

theorem getAtom_charList (size : ℕ) (cs : List ℕ) : getAtom size (charList cs) = none := by
  cases cs <;> rfl

theorem mapKeyText_ok {k : MapKey} {t : Bytes} (h : mapKeyText k.term = .ok t) :
    t = k.kept ∧ k.Valid := by
  cases k with
  | binary data => exact ⟨(Except.ok.inj h).symm,fun cs hcs => nomatch hcs⟩
  | atom name =>
    refine ⟨?_,fun cs hcs => nomatch hcs⟩
    have hatom : getAtom 256 (.atom name) =
      if (textBytes name).length < 256 then some (textBytes name) else none := rfl
    unfold mapKeyText MapKey.term at h
    rw [hatom] at h
    by_cases hfit : (textBytes name).length < 256
    · rw [if_pos hfit] at h
      exact (Except.ok.inj h).symm
    · rw [if_neg hfit] at h
      cases h
  | characters cs =>
    unfold mapKeyText MapKey.term at h
    rw [inspectBinary_charList,getAtom_charList] at h
    cases hs : getString 256 (charList cs) with
    | none =>
      rw [hs] at h
      cases h
    | some s =>
      rw [hs] at h
      obtain ⟨ds,hds,hcopy⟩ := Option.map_eq_some_iff.mp hs
      obtain ⟨hlist,hrange⟩ := codePoints_some hds
      rw [charList_injective hlist]
      constructor
      · rw [← Except.ok.inj h,← hcopy]
        rfl
      · intro es hes
        rw [← MapKey.characters.inj hes]
        exact hrange

theorem utf8_zero_iff {c : ℕ} (hc : IsCodePoint c) : 0 ∈ utf8 c ↔ c = 0 := by
  constructor
  · intro h
    by_contra hne
    exact utf8_zeroFree hc hne h
  · rintro rfl
    exact List.mem_singleton.mpr rfl

theorem flatMap_zero_iff {cs : List ℕ} (hcs : ∀ c ∈ cs, IsCodePoint c) :
    0 ∈ cs.flatMap utf8 ↔ 0 ∈ cs := by
  rw [List.mem_flatMap]
  constructor
  · rintro ⟨c,hc,hz⟩
    exact (utf8_zero_iff (hcs c hc)).mp hz ▸ hc
  · intro h
    exact ⟨0,h,(utf8_zero_iff (hcs 0 h)).mpr rfl⟩

theorem kept_characters {cs : List ℕ} (hcs : ∀ c ∈ cs, IsCodePoint c) :
    (MapKey.characters cs).kept = (keep (Cuts 256) [] cs).flatMap utf8 :=
  (@keep_cuts 256 [] _ hcs (by decide)).symm

theorem kept_eq_text {k : MapKey} (hk : k.Valid) : k.kept = k.text ↔ k.Fits := by
  have hplain : ∀ data : Bytes, cStr data = data ↔ 0 ∉ data := fun _ => cStr_eq_self
  cases k with
  | binary data => exact (hplain data).trans (and_iff_left (fun cs hcs => nomatch hcs)).symm
  | atom name =>
    exact (hplain (textBytes name)).trans (and_iff_left (fun cs hcs => nomatch hcs)).symm
  | characters cs =>
    have hcs := hk cs rfl
    have hsame : (keep (Cuts 256) [] cs).flatMap utf8 = cs.flatMap utf8 ↔
        keep (Cuts 256) [] cs = cs := by
      constructor
      · exact utf8_prefixFree.flatMap_injective (fun c hc => hcs c (keep_mem hc)) hcs
      · exact fun h => congrArg _ h
    rw [kept_characters hcs]
    change _ = cs.flatMap utf8 ↔ 0 ∉ cs.flatMap utf8 ∧ _
    rw [hsame,keep_cuts_self (by decide),flatMap_zero_iff hcs]
    apply and_congr_right
    intro _
    constructor
    · intro h ds hds
      exact h
    · intro h
      exact h cs rfl

theorem cStr_zeroFree (b : Bytes) : 0 ∉ cStr b := by
  intro h
  have hne := List.mem_takeWhile_imp h
  exact of_decide_eq_true hne rfl

theorem kept_zeroFree (k : MapKey) : 0 ∉ k.kept := by
  cases k <;> exact cStr_zeroFree _

theorem kept_short {cs : List ℕ} (hcs : ∀ c ∈ cs, IsCodePoint c) :
    (MapKey.characters cs).kept.length < 256 := by
  obtain ⟨q,rest,-,hkeep,hq,-⟩ := @keep_split _ (Cuts 256) _ [] cs
  rw [kept_characters hcs,hkeep]
  exact ((keep_cuts_self (by decide) q).mp hq).2

end Keys

section Maps

abbrev MapEntry := MapKey × Bytes

def mapTerm (es : List MapEntry) : Term := .map (es.map (fun e => (e.1.term,.binary e.2)))

def keptMap (es : List MapEntry) : OrdMap Bytes Bytes :=
  OrdMap.build (fun e : MapEntry => e.1.kept) Prod.snd es OrdMap.empty

theorem mapEntries_ok {es : List MapEntry} {stored : List (Bytes × Bytes)}
    (h : (es.map (fun e => (e.1.term,Term.binary e.2))).foldlM mapEntry [] = .ok stored) :
    (∀ e ∈ es, e.1.Valid) ∧ stored = (keptMap es).entries := by
  have hloop : ∀ m : OrdMap Bytes Bytes,
      (es.map (fun e => (e.1.term,Term.binary e.2))).foldlM mapEntry m.entries = .ok stored →
        (∀ e ∈ es, e.1.Valid) ∧
          stored = (OrdMap.build (fun e : MapEntry => e.1.kept) Prod.snd es m).entries := by
    clear h
    induction es with
    | nil => exact fun m h => ⟨fun e he => absurd he List.not_mem_nil,(Except.ok.inj h).symm⟩
    | cons e es ih =>
      intro m h
      rw [List.map_cons,List.foldlM_cons] at h
      have hentry : mapEntry m.entries (e.1.term,.binary e.2) =
          (mapKeyText e.1.term >>= fun key => .ok (put key e.2 m.entries)) := rfl
      rw [hentry] at h
      cases hkey : mapKeyText e.1.term with
      | error r =>
        rw [hkey] at h
        cases h
      | ok key =>
        rw [hkey] at h
        obtain ⟨rfl,hvalid⟩ := mapKeyText_ok hkey
        obtain ⟨hall,hstored⟩ := ih (m.insert e.1.kept e.2) h
        exact ⟨List.forall_mem_cons.mpr ⟨hvalid,hall⟩,hstored⟩
  exact hloop OrdMap.empty h

/-- One entry for each of the input, under the full text of its key. -/
def ShowsMap (es : List MapEntry) (reply : Except Reply Term) : Prop :=
  ∃ pairs, reply = .ok (makeTuple2 atomOk (.map pairs)) ∧
    pairs.Perm (es.map (fun e => (.binary e.1.text,.binary e.2)))

def pairTerms (e : Bytes × Bytes) : Term × Term := (.binary e.1,.binary e.2)

theorem pairTerms_injective : Function.Injective pairTerms := by
  rintro ⟨a,b⟩ ⟨c,d⟩ h
  have hparts := Prod.mk.inj h
  exact Prod.ext (Term.binary.inj hparts.1) (Term.binary.inj hparts.2)

theorem segmentMap_entries (m : OrdMap Bytes Bytes) :
    segmentMap (m.entries.map (fun e => (.string e.1,.bytes e.2))) =
      .ok (.map (m.entries.map pairTerms)) := by
  have hkeys : (m.entries.map (fun e => ((AsVal.string e.1,AsVal.bytes e.2) : AsVal × AsVal))).map
      (fun e => getBinaryFromAsval e.1) = m.entries.map Prod.fst := by
    rw [List.map_map]
    rfl
  have hvalues : (m.entries.map (fun e => ((AsVal.string e.1,AsVal.bytes e.2) : AsVal × AsVal))).map
      (fun e => Term.binary (getBinaryFromAsval e.2)) =
        m.entries.map (fun e => .binary e.2) := by
    rw [List.map_map]
    rfl
  have hzip : (List.map Term.binary (m.entries.map Prod.fst)).zip
      (m.entries.map (fun e => .binary e.2)) = m.entries.map pairTerms := by
    rw [List.map_map,List.zip_map']
    rfl
  unfold segmentMap makeMapFromArrays
  rw [hkeys,hvalues,if_pos (OrdMap.keys_nodup m),hzip]

theorem kept_source {es : List MapEntry} {e : Bytes × Bytes} (h : e ∈ (keptMap es).entries) :
    ∃ d ∈ es, d.1.kept = e.1 := by
  rcases OrdMap.lookup_build_some _ _ (OrdMap.mem_entries.mp h) with hd | hempty
  · exact hd
  · cases hempty

theorem kept_keys_zeroFree {es : List MapEntry} {e : Bytes × Bytes}
    (h : e ∈ (keptMap es).entries) : 0 ∉ e.1 := by
  obtain ⟨d,-,hd⟩ := kept_source h
  exact hd ▸ kept_zeroFree d.1

/-- The entries come back under their full texts exactly when every key fits. -/
theorem kept_perm_iff {es : List MapEntry} (hvalid : ∀ e ∈ es, e.1.Valid)
    (htexts : (es.map (fun e => e.1.text)).Nodup) :
    (keptMap es).entries.Perm (es.map (fun e => (e.1.text,e.2))) ↔ ∀ e ∈ es, e.1.Fits := by
  constructor
  · intro hperm
    have hmem : ∀ e ∈ es, (e.1.text,e.2) ∈ (keptMap es).entries := fun e he =>
      hperm.mem_iff.mpr (List.mem_map_of_mem (f := fun e : MapEntry => (e.1.text,e.2)) he)
    have hzero : ∀ e ∈ es, 0 ∉ e.1.text := fun e he => kept_keys_zeroFree (hmem e he)
    intro e he
    refine ⟨hzero e he,?_⟩
    intro cs hcs
    obtain ⟨d,hd,hkept⟩ := kept_source (hmem e he)
    by_cases hchars : ∃ ds, d.1 = .characters ds
    · obtain ⟨ds,hds⟩ := hchars
      have hshort := kept_short (hvalid d hd ds hds)
      rwa [← hds,hkept] at hshort
    · have hfits : d.1.Fits := ⟨hzero d hd,fun ds hds => absurd ⟨ds,hds⟩ hchars⟩
      rw [(kept_eq_text (hvalid d hd)).mpr hfits] at hkept
      have hsame := List.inj_on_of_nodup_map htexts hd he hkept
      rw [← hsame] at hcs
      exact absurd ⟨cs,hcs⟩ hchars
  · intro hfits
    have hkept : ∀ e ∈ es, e.1.kept = e.1.text :=
      fun e he => (kept_eq_text (hvalid e he)).mpr (hfits e he)
    have hnodup : (es.map (fun e => e.1.kept)).Nodup := by
      rwa [List.map_congr_left hkept]
    have hperm := OrdMap.build_perm (fun e : MapEntry => e.1.kept) Prod.snd hnodup
    have hsame : es.map (fun e => (e.1.kept,e.2)) = es.map (fun e => (e.1.text,e.2)) := by
      apply List.map_congr_left
      intro e he
      rw [hkept e he]
    rwa [hsame] at hperm

end Maps

section Calls
variable {c : Client} {S : Server} {db db' : S.DB} {env env' : Env} {w w' : World}
variable {ns set key bin : Bytes} {ttl : Term} {es : List MapEntry}

def putCall (c : Client) (env : Env) (ns set key bin : Bytes) (ttl : Term) (es : List MapEntry) :
    Nif Term :=
  mapPutSync c env (.binary ns) (.binary set) (.binary key) (.binary bin) ttl (mapTerm es)

def getCall (c : Client) (env : Env) (ns set key bin : Bytes) : Nif Term :=
  segmentTagGetSync c env (.binary ns) (.binary set) (.binary key) (.binary bin)

/-- A put that is answered with `{ok, done}` and performed by the server, and a
get for which the client delivers the bin. -/
structure PutThenGet (c : Client) (S : Server) (db db' : S.DB) (env env' : Env) (w w' : World)
    (ns set key bin : Bytes) (ttl : Term) (es : List MapEntry) : Prop where
  texts : (es.map (fun e => e.1.text)).Nodup
  put_ok : (putCall c env ns set key bin ttl es w).1 = .ok (makeTuple2 atomOk atomDone)
  served : ∃ reqs, submissions (putCall c env ns set key bin ttl es) w = some reqs ∧
    reqs.foldlM (fun db req => S.serve req db) db = some db'
  connected : w'.isConnectedFlag = true
  delivers : ∃ rec, Delivers env' (some rec) ∧
    rec.get (cStr bin) = S.bin db' (asKeyInitStr ns set key) (cStr bin)

/-- What the get answers, whatever became of the keys. -/
theorem put_then_get (hS : S.Documented)
    (h : PutThenGet c S db db' env env' w w' ns set key bin ttl es) :
    (∀ e ∈ es, e.1.Valid) ∧ (getCall c env' ns set key bin w').1 =
      .ok (makeTuple2 atomOk (.map ((keptMap es).entries.map pairTerms))) := by
  have hok : Successful (putCall c env ns set key bin ttl es w).1 := ⟨atomDone,by rw [h.put_ok]; rfl⟩
  obtain ⟨ttl',stored,hstored,hreq⟩ := mapPut_submits hok
  obtain ⟨hvalid,rfl⟩ := mapEntries_ok hstored
  refine ⟨hvalid,?_⟩
  have hput := StoreRefinement.served_one h.served hreq
  have hbin : S.bin db' (asKeyInitStr ns set key) (cStr bin) =
      some (asOrderedmap (keptMap es).entries) := by
    rw [hS.put_bins _ _ db db' (cStr bin) hput]
    unfold Server.putBin
    rw [List.find?_cons_of_pos (by simp)]
    rfl
  obtain ⟨rec,hdelivers,hget⟩ := h.delivers
  have hanswer : segmentTagAnswer c (some rec) (cStr bin) =
      (segmentMap ((keptMap es).entries.map (fun e => (.string e.1,.bytes e.2))) >>= fun t =>
        pure (makeTuple2 atomOk t)) := by
    simp only [segmentTagAnswer,hget,hbin,asOrderedmap]
  unfold getCall
  rw [segmentTagGetSync_reply c h.connected hdelivers,hanswer,segmentMap_entries]
  rfl

theorem map_back_iff (hS : S.Documented)
    (h : PutThenGet c S db db' env env' w w' ns set key bin ttl es) :
    ShowsMap es (getCall c env' ns set key bin w').1 ↔ ∀ e ∈ es, e.1.Fits := by
  obtain ⟨hvalid,hget⟩ := put_then_get hS h
  have hwhole : es.map (fun e => (Term.binary e.1.text,Term.binary e.2)) =
      (es.map (fun e => (e.1.text,e.2))).map pairTerms := by
    rw [List.map_map]
    rfl
  rw [← kept_perm_iff hvalid h.texts,← List.map_perm_map_iff pairTerms_injective,← hwhole,hget]
  constructor
  · rintro ⟨pairs,hpairs,hperm⟩
    have hparts := Term.tuple.inj (Except.ok.inj hpairs)
    rw [Term.map.inj (List.cons.inj (List.cons.inj hparts).2).1]
    exact hperm
  · exact fun hperm => ⟨_,rfl,hperm⟩

end Calls

section Example

def mixedKeys : List MapEntry :=
  [(.binary [97],[1,0]),(.atom "b",[]),(.characters [99],[3])]

def zeroKeys : List MapEntry := [(.binary [97,0],[1]),(.binary [98],[2])]

def tagged (es : List MapEntry) : Record := ⟨none,1,0,[([116],asOrderedmap (keptMap es).entries)]⟩

theorem sample_runs (es : List MapEntry) (htexts : (es.map (fun e => e.1.text)).Nodup)
    (hput : (putCall plainClient plainEnv [110] [115] [107] [116] (.integer 0) es
      connectedWorld).1 = .ok (makeTuple2 atomOk atomDone)) :
    ∃ db', PutThenGet plainClient plainServer plainServer.start db' plainEnv
      (delivering (some (tagged es))) connectedWorld connectedWorld [110] [115] [107] [116]
      (.integer 0) es := by
  have hok : Successful (putCall plainClient plainEnv [110] [115] [107] [116] (.integer 0) es
      connectedWorld).1 := ⟨atomDone,by rw [hput]; rfl⟩
  obtain ⟨ttl',stored,hstored,hreq⟩ := mapPut_submits hok
  obtain ⟨-,rfl⟩ := mapEntries_ok hstored
  refine ⟨_,htexts,hput,⟨_,hreq,rfl⟩,rfl,tagged es,fun _ => ⟨rfl,rfl⟩,?_⟩
  have hbin := plainServer_documented.put_bins (asKeyInitStr [110] [115] [107])
    ⟨1,ttl',[(cStr [116],asOrderedmap (keptMap es).entries)]⟩ plainServer.start _ (cStr [116]) rfl
  exact hbin.symm

theorem mixed_keys_back : ∃ db', PutThenGet plainClient plainServer plainServer.start db' plainEnv
      (delivering (some (tagged mixedKeys))) connectedWorld connectedWorld [110] [115] [107] [116]
      (.integer 0) mixedKeys ∧
    ShowsMap mixedKeys (getCall plainClient (delivering (some (tagged mixedKeys))) [110] [115]
      [107] [116] connectedWorld).1 := by
  obtain ⟨db',h⟩ := sample_runs mixedKeys (by decide) (by rfl)
  refine ⟨db',h,(map_back_iff plainServer_documented h).mpr ?_⟩
  intro e he
  have hsmall : 0 ∉ e.1.text ∧ e.1.text.length < 256 := by
    revert e
    decide
  exact ⟨hsmall.1,fun _ _ => hsmall.2⟩

/-- A key with a zero byte comes back without it. -/
theorem zero_key_renamed :
    ¬∀ (c : Client) (S : Server), S.Documented → ∀ (db db' : S.DB) (env env' : Env) (w w' : World)
      (ns set key bin : Bytes) (ttl : Term) (es : List MapEntry),
      PutThenGet c S db db' env env' w w' ns set key bin ttl es →
        ShowsMap es (getCall c env' ns set key bin w').1 := by
  intro hall
  obtain ⟨db',h⟩ := sample_runs zeroKeys (by decide) (by rfl)
  obtain ⟨pairs,hpairs,hperm⟩ := hall plainClient plainServer plainServer_documented
    _ _ _ _ _ _ _ _ _ _ _ _ h
  rw [(put_then_get plainServer_documented h).2] at hpairs
  have hparts := Term.tuple.inj (Except.ok.inj hpairs)
  rw [← Term.map.inj (List.cons.inj (List.cons.inj hparts).2).1] at hperm
  obtain ⟨e,he,hkey⟩ := List.mem_map.mp (hperm.mem_iff.mpr List.mem_cons_self)
  have hzero : 0 ∈ e.1 := by
    rw [Term.binary.inj (Prod.mk.inj hkey).1]
    decide
  exact kept_keys_zeroFree he hzero

end Example

end AspikePort.MapRoundTrip
